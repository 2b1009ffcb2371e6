import DocCursor.Cursor.Basic

/-!
# Save points

A save point is released once: dropped, which keeps the position, or rolled
back, which returns to it. `attempt` saves, tries to parse, and releases
according to the outcome. A release without a save point is a mistake of
the caller that no parser can recover from, unlike a failure.
-/

namespace DocCursor

inductive Release where
  | drop
  | rollback
  deriving DecidableEq, Repr

def Release.unmatchedMessage : Release → String
  | .drop => "drop_save_point called without a matching push_save_point"
  | .rollback => "rollback called without a matching push_save_point"

/-- How a parser ends: with a value, with a failure, or at a release that no
save point matches. -/
inductive Outcome (ε β : Type) where
  | done (value : β)
  | failed (failure : ε)
  | unmatched (release : Release)
  deriving DecidableEq, Repr

namespace Cursor

variable {s : Stream} {ε β : Type}

def push (c : Cursor s) : Cursor s := { c with saved := c.index :: c.saved }

def release? (c : Cursor s) : Release → Option (Cursor s)
  | .drop => match c.saved with
    | [] => none
    | _ :: saved => some { c with saved }
  | .rollback => match c.saved with
    | [] => none
    | index :: saved => some { index, saved }

/-- End an attempt that came to this cursor with the given outcome: drop on
a value and roll back on a failure, if a save point is left. -/
def close (c : Cursor s) : Outcome ε β → Outcome ε β × Cursor s
  | .done value => match c.release? .drop with
    | some d => (.done value, d)
    | none => (.unmatched .drop, c)
  | .failed failure => match c.release? .rollback with
    | some d => (.failed failure, d)
    | none => (.unmatched .rollback, c)
  | .unmatched release => (.unmatched release, c)

/-- Parse from a save point, so that a failure leaves no trace. -/
def attempt (parse : Cursor s → Outcome ε β × Cursor s) (c : Cursor s) :
    Outcome ε β × Cursor s :=
  let (outcome, d) := parse c.push
  d.close outcome

@[simp] theorem index_push (c : Cursor s) : c.push.index = c.index := rfl

@[simp] theorem saved_push (c : Cursor s) : c.push.saved = c.index :: c.saved := rfl

@[simp] theorem depth_push (c : Cursor s) : c.push.depth = c.depth + 1 := rfl

@[simp] theorem release?_drop_cons (i j : Nat) (saved : List Nat) :
    release? (⟨i, j :: saved⟩ : Cursor s) .drop = some ⟨i, saved⟩ := rfl

@[simp] theorem release?_rollback_cons (i j : Nat) (saved : List Nat) :
    release? (⟨i, j :: saved⟩ : Cursor s) .rollback = some ⟨j, saved⟩ := rfl

theorem release?_eq_none_iff {c : Cursor s} {r : Release} :
    c.release? r = none ↔ c.saved = [] := by
  obtain ⟨i, saved⟩ := c
  cases r <;> cases saved <;> simp [release?]

theorem release?_push_drop (c : Cursor s) : c.push.release? .drop = some c := rfl

theorem release?_push_rollback (c : Cursor s) : c.push.release? .rollback = some c := rfl

end Cursor

end DocCursor
