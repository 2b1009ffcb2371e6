import DocCursor.Stream.Basic

/-!
# Cursors

A cursor is an index into a stream and a stack of indices to return to. It
starts on a token that is no blank: one step gets past a blank, because a
stream has no two in a row. Looking at a cursor never changes it.
-/

namespace DocCursor

structure Cursor (s : Stream) where
  index : Nat
  /-- Save points, innermost first. -/
  saved : List Nat
  deriving DecidableEq, Repr

namespace Cursor

variable {s : Stream}

/-- The token at the cursor. Every index that a run reaches lies in the
stream, so that the end mark given here beyond it is never seen. -/
def current (c : Cursor s) : Token := (s.get? c.index).getD Token.endMark

/-- The token just before the cursor, which may be a blank. -/
def prev? (c : Cursor s) : Option Token :=
  match c.index with
  | 0 => none
  | i + 1 => s.get? i

/-- Whether the current token is one that is asked for. -/
def isAt (c : Cursor s) (q : Token.Query) : Bool := c.current.answers q

def isKind (c : Cursor s) (kind : Token.Kind) : Bool := c.isAt (.kind kind)

def isText (c : Cursor s) (text : String) : Bool := c.isAt (.text text)

def atEnd (c : Cursor s) : Bool := c.current.isEnd

def afterBlank (c : Cursor s) : Bool := c.prev?.any Token.isBlank

/-- Where the current token starts in the source, in UTF-8 bytes. -/
def offset (c : Cursor s) : Nat := Token.sourceWidth (s.tokens.take c.index)

def depth (c : Cursor s) : Nat := c.saved.length

def skipBlank (c : Cursor s) : Cursor s :=
  if c.current.isBlank then { c with index := c.index + 1 } else c

/-- A cursor at an index or the first token after it that is no blank. An
index beyond the end mark stands for the end mark. -/
def ofIndex (s : Stream) (i : Nat) : Cursor s := skipBlank ⟨min i s.endIndex, []⟩

def start (s : Stream) : Cursor s := ofIndex s 0

@[simp] theorem prev?_zero (saved : List Nat) : prev? (⟨0, saved⟩ : Cursor s) = none := rfl

@[simp] theorem prev?_succ (i : Nat) (saved : List Nat) :
    prev? (⟨i + 1, saved⟩ : Cursor s) = s.get? i := rfl

theorem atEnd_iff {c : Cursor s} : c.atEnd = true ↔ c.current.kind = .endOfInput := Token.isEnd_iff

@[simp] theorem isKind_iff {c : Cursor s} {kind : Token.Kind} :
    c.isKind kind = true ↔ c.current.kind = kind := Token.answers_kind_iff

theorem skipBlank_of_isBlank {c : Cursor s} (h : c.current.isBlank = true) :
    c.skipBlank = ⟨c.index + 1, c.saved⟩ := by
  simp [skipBlank, h]

theorem skipBlank_of_not_isBlank {c : Cursor s} (h : c.current.isBlank = false) :
    c.skipBlank = c := by
  simp [skipBlank, h]

@[simp] theorem saved_skipBlank (c : Cursor s) : c.skipBlank.saved = c.saved := by
  unfold skipBlank
  split <;> rfl

@[simp] theorem saved_ofIndex (i : Nat) : (ofIndex s i).saved = [] := by
  simp [ofIndex]

end Cursor

end DocCursor
