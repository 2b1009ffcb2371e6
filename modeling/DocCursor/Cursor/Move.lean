import DocCursor.Cursor.Basic
import DocCursor.Mismatch

/-!
# Moves

A cursor moves forward in two ways. `next`, and the moves that depend on the
current token, pass one token and the blank behind it: `expect` reports a
token of another kind, and `accept?` declines one that was not asked for.
`joinUntil` collects the text of a stretch with its blanks and stops on
whatever token ends the stretch. The end mark is never passed, and no move
touches a save point.
-/

namespace DocCursor

namespace Cursor

variable {s : Stream}

def next (c : Cursor s) : Cursor s :=
  if c.index < s.endIndex then skipBlank { c with index := c.index + 1 } else c

def mismatch (c : Cursor s) (expected : Token.Kind) : Mismatch where
  found := c.current.text
  foundKind := c.current.kind
  expected := expected
  offset := c.offset

def expect (c : Cursor s) (kind : Token.Kind) : Except Mismatch (Cursor s) :=
  if c.isKind kind then .ok c.next else .error (c.mismatch kind)

def accept? (c : Cursor s) (q : Token.Query) : Option (Cursor s) :=
  if c.isAt q then some c.next else none

def acceptKind? (c : Cursor s) (kind : Token.Kind) : Option (Cursor s) := c.accept? (.kind kind)

def acceptText? (c : Cursor s) (text : String) : Option (Cursor s) := c.accept? (.text text)

/-- The tokens from the cursor up to the first one of a given kind, or up to
the end mark. -/
def stretch (c : Cursor s) (stops : List Token.Kind) : List Token :=
  (s.tokens.drop c.index).takeWhile fun t => !t.isEnd && t.kind ∉ stops

def joinUntil (c : Cursor s) (stops : List Token.Kind) : String × Cursor s :=
  (Token.source (c.stretch stops), { c with index := c.index + (c.stretch stops).length })

@[simp] theorem saved_next (c : Cursor s) : c.next.saved = c.saved := by
  unfold next
  split <;> simp

theorem next_of_lt_endIndex {c : Cursor s} (h : c.index < s.endIndex) :
    c.next = skipBlank { c with index := c.index + 1 } := if_pos h

theorem next_of_endIndex_le {c : Cursor s} (h : s.endIndex ≤ c.index) : c.next = c := by
  simp [next, Nat.not_lt.mpr h]

@[simp] theorem saved_joinUntil (c : Cursor s) (stops : List Token.Kind) :
    (c.joinUntil stops).2.saved = c.saved := rfl

@[simp] theorem index_joinUntil (c : Cursor s) (stops : List Token.Kind) :
    (c.joinUntil stops).2.index = c.index + (c.stretch stops).length := rfl

theorem expect_eq_ok_iff {c d : Cursor s} {kind : Token.Kind} :
    c.expect kind = .ok d ↔ c.current.kind = kind ∧ d = c.next := by
  simp only [expect, isKind_iff]
  split <;> simp_all [eq_comm]

theorem expect_eq_error_iff {c : Cursor s} {kind : Token.Kind} {m : Mismatch} :
    c.expect kind = .error m ↔ c.current.kind ≠ kind ∧ m = c.mismatch kind := by
  simp only [expect, isKind_iff]
  split <;> simp_all [eq_comm]

theorem accept?_eq_some_iff {c d : Cursor s} {q : Token.Query} :
    c.accept? q = some d ↔ c.isAt q = true ∧ d = c.next := by
  by_cases h : c.isAt q = true <;> simp [accept?, h, eq_comm]

end Cursor

end DocCursor
