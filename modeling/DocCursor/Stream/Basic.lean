import DocCursor.Stream.Defect

/-!
# Token streams

A stream is a well-formed list of tokens. `Stream.ofTokens` takes a list as
it is or names its first defect. The size counts the end mark.
-/

namespace DocCursor

structure Stream where
  tokens : List Token
  wellFormed : Stream.WellFormed tokens
  deriving DecidableEq

namespace Stream

def ofTokens (ts : List Token) : Except Defect Stream :=
  match h : defect? ts with
  | none => .ok ⟨ts, defect?_eq_none_iff.mp h⟩
  | some defect => .error defect

/-- Two lists read alike: into equal streams, or with the same defect. -/
def readAlike (ts us : List Token) : Bool :=
  match ofTokens ts, ofTokens us with
  | .ok s, .ok t => s = t
  | .error d, .error e => d = e
  | _, _ => false

def size (s : Stream) : Nat := s.tokens.length

def isEmpty (s : Stream) : Bool := s.tokens.isEmpty

def get? (s : Stream) (i : Nat) : Option Token := s.tokens[i]?

/-- Index of the end mark. -/
def endIndex (s : Stream) : Nat := s.size - 1

/-- The text that the stream was lexed from. -/
def source (s : Stream) : String := Token.source s.tokens

def sourceWidth (s : Stream) : Nat := Token.sourceWidth s.tokens

theorem ofTokens_eq_ok_iff {ts : List Token} {s : Stream} :
    ofTokens ts = .ok s ↔ s.tokens = ts := by
  unfold ofTokens
  split
  · rename_i h
    constructor
    · intro hs
      cases hs
      rfl
    · rintro rfl
      rfl
  · rename_i defect h
    refine ⟨nofun, ?_⟩
    rintro rfl
    rw [defect?_eq_none_iff.mpr s.wellFormed] at h
    cases h

theorem ofTokens_eq_error_iff {ts : List Token} {d : Defect} :
    ofTokens ts = .error d ↔ defect? ts = some d := by
  unfold ofTokens
  split <;> rename_i h <;> simp [h]

theorem tokens_ne_nil (s : Stream) : s.tokens ≠ [] := by
  obtain ⟨t, ht, _⟩ := s.wellFormed.ends_marked
  rintro h
  simp [h] at ht

theorem endIndex_add_one (s : Stream) : s.endIndex + 1 = s.size :=
  Nat.sub_add_cancel (List.length_pos_iff.mpr s.tokens_ne_nil)

theorem endIndex_lt_size (s : Stream) : s.endIndex < s.size :=
  Nat.lt_of_succ_le (Nat.le_of_eq s.endIndex_add_one)

end Stream

end DocCursor
