import DocCursor.Token.Kind

/-!
# Tokens

A token keeps the exact source text that it covers. Positions in the source
are therefore sums of text lengths, counted in UTF-8 bytes, and the source
itself is the concatenation of the texts.
-/

namespace DocCursor

structure Token where
  kind : Token.Kind
  text : String
  deriving DecidableEq, Repr

namespace Token

/-- The end mark as a lexer writes it. A stream accepts any text here. -/
def endMark : Token := ⟨.endOfInput, ""⟩

def isBlank (t : Token) : Bool := t.kind.isBlank

def isEnd (t : Token) : Bool := t.kind = .endOfInput

/-- What can be asked of a token: to be of a kind, or to have a text. -/
inductive Query where
  | kind (kind : Kind)
  | text (text : String)
  deriving DecidableEq, Repr

def answers (t : Token) : Query → Bool
  | .kind kind => t.kind = kind
  | .text text => t.text = text

def width (t : Token) : Nat := t.text.utf8ByteSize

/-- The stretch of source that consecutive tokens cover. -/
def source : List Token → String
  | [] => ""
  | t :: ts => t.text ++ source ts

def sourceWidth : List Token → Nat
  | [] => 0
  | t :: ts => t.width + sourceWidth ts

@[simp] theorem isBlank_iff {t : Token} : t.isBlank = true ↔ t.kind = .blank := by
  simp [isBlank]

@[simp] theorem isBlank_eq_false_iff {t : Token} : t.isBlank = false ↔ t.kind ≠ .blank := by
  simp [isBlank]

@[simp] theorem isEnd_iff {t : Token} : t.isEnd = true ↔ t.kind = .endOfInput := by
  simp [isEnd]

@[simp] theorem isEnd_eq_false_iff {t : Token} : t.isEnd = false ↔ t.kind ≠ .endOfInput := by
  simp [isEnd]

@[simp] theorem answers_kind_iff {t : Token} {kind : Kind} :
    t.answers (.kind kind) = true ↔ t.kind = kind := by
  simp [answers]

@[simp] theorem source_nil : source [] = "" := rfl

@[simp] theorem source_cons (t : Token) (ts : List Token) :
    source (t :: ts) = t.text ++ source ts := rfl

@[simp] theorem source_append (ts us : List Token) :
    source (ts ++ us) = source ts ++ source us := by
  induction ts with
  | nil => simp
  | cons t ts ih => simp [ih, String.append_assoc]

@[simp] theorem sourceWidth_nil : sourceWidth [] = 0 := rfl

@[simp] theorem sourceWidth_cons (t : Token) (ts : List Token) :
    sourceWidth (t :: ts) = t.width + sourceWidth ts := rfl

@[simp] theorem sourceWidth_append (ts us : List Token) :
    sourceWidth (ts ++ us) = sourceWidth ts + sourceWidth us := by
  induction ts with
  | nil => simp
  | cons t ts ih => simp [ih, Nat.add_assoc]

@[simp] theorem utf8ByteSize_source (ts : List Token) :
    (source ts).utf8ByteSize = sourceWidth ts := by
  induction ts with
  | nil => rfl
  | cons t ts ih => simp [ih, width, String.utf8ByteSize_append]

end Token

end DocCursor
