import DocCursor.Script.Call

/-!
# Effects

What one call can make of a cursor, as a relation with a constructor for each
way to move or to change the save points. A fact that every call keeps is
proved by cases on `Call.effect`, without the bodies of the calls.
-/

namespace DocCursor

theorem Cursor.next_of_index {s : Stream} (c : Cursor s) (saved : List Nat) :
    (⟨c.index, saved⟩ : Cursor s).next = ⟨c.next.index, saved⟩ := by
  unfold next
  by_cases hlt : c.index < s.endIndex
  · rw [if_pos hlt, if_pos hlt]
    unfold skipBlank current
    simp only [apply_ite index]
    split <;> rfl
  · rw [if_neg hlt, if_neg hlt]

namespace Call

variable {s : Stream}

/-- Whether a call pushes or releases a save point. -/
def isBracket : Call → Bool
  | push => true
  | release _ => true
  | _ => false

inductive Effect (c : Cursor s) : Call → Cursor s → Prop where
  | stay {a : Call} (h : a.isBracket = false) : Effect c a c
  | pass {a : Call} (h : a.isBracket = false) : Effect c a c.next
  | join (stops : List Token.Kind) : Effect c (joinUntil stops) (c.joinUntil stops).2
  | push : Effect c push c.push
  | drop {i : Nat} {saved : List Nat} (h : c.saved = i :: saved) :
      Effect c (release .drop) ⟨c.index, saved⟩
  | rollback {i : Nat} {saved : List Nat} (h : c.saved = i :: saved) :
      Effect c (release .rollback) ⟨i, saved⟩
  /-- A release without a save point. -/
  | stuck {r : Release} (h : c.saved = []) : Effect c (release r) c

theorem effect_release (c : Cursor s) (r : Release) :
    Effect c (release r) ((release r).perform c).2 := by
  obtain ⟨i, saved⟩ := c
  cases saved with
  | nil => cases r <;> exact .stuck rfl
  | cons j saved =>
      cases r with
      | drop => exact .drop rfl
      | rollback => exact .rollback rfl

theorem perform_expect (c : Cursor s) (kind : Token.Kind) :
    (expect kind).perform c =
      if c.current.kind = kind then (.done .nothing, c.next)
      else (.failed (.mismatch (c.mismatch kind)), c) := by
  by_cases h : c.current.kind = kind <;> simp [perform, Cursor.expect, h]

theorem perform_accept (c : Cursor s) (q : Token.Query) :
    (accept q).perform c =
      if c.current.answers q then (.done (.truth true), c.next)
      else (.done (.truth false), c) := by
  rw [perform, Cursor.accept?, Cursor.isAt]
  split <;> rfl

theorem effect (a : Call) (c : Cursor s) : Effect c a (a.perform c).2 := by
  cases a with
  | next => exact .pass rfl
  | expect kind =>
      rw [perform_expect]
      split
      · exact .pass rfl
      · exact .stay rfl
  | accept q =>
      rw [perform_accept]
      split
      · exact .pass rfl
      · exact .stay rfl
  | isAt q => exact .stay rfl
  | current => exact .stay rfl
  | joinUntil stops => exact .join stops
  | push => exact .push
  | release r => exact effect_release c r
  | fail message => exact .stay rfl

theorem saved_of_not_isBracket {a : Call} {c d : Cursor s} (h : Effect c a d)
    (ha : a.isBracket = false) : d.saved = c.saved := by
  cases h with
  | stay => rfl
  | pass => exact Cursor.saved_next c
  | join stops => rfl
  | push => cases ha
  | drop => cases ha
  | rollback => cases ha
  | stuck => rfl

/-- Other calls than pushes and releases do not see the save points. -/
theorem perform_of_index {a : Call} (ha : a.isBracket = false) (c : Cursor s) (saved : List Nat) :
    a.perform (⟨c.index, saved⟩ : Cursor s) =
      ((a.perform c).1, ⟨(a.perform c).2.index, saved⟩) := by
  have hcurrent : (⟨c.index, saved⟩ : Cursor s).current = c.current := rfl
  cases a with
  | next => exact congrArg (Prod.mk _) (c.next_of_index saved)
  | expect kind =>
      rw [perform_expect, perform_expect, hcurrent, c.next_of_index saved]
      split <;> rfl
  | accept q =>
      rw [perform_accept, perform_accept, hcurrent, c.next_of_index saved]
      split <;> rfl
  | isAt q => rfl
  | current => rfl
  | joinUntil stops => rfl
  | push => cases ha
  | release r => cases ha
  | fail message => rfl

/-- A release gets stuck exactly where no save point is left. -/
theorem perform_release_of_nil {c : Cursor s} (h : c.saved = []) (r : Release) :
    (release r).perform c = (.unmatched r, c) :=
  perform_eq_unmatched_iff.mpr ⟨rfl, h, rfl⟩

end Call

end DocCursor
