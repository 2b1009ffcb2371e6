import DocCursor.Proofs.Position
import DocCursor.Proofs.Trail

/-!
# Blanks under a cursor

A cursor stands on a blank only where a join that was to stop on blanks has
left it, or after a return to such a place. The save points carry the place
through all that happens in between, so that the join may lie far back in the
history, and in the history of the original if the cursor is a copy.
-/

namespace DocCursor

variable {s : Stream} {α : Type}

/-- A join that was to stop on blanks, and stopped at this index. -/
def Event.JoinsOnto (e : Event s) (i : Nat) : Prop :=
  ∃ stops, e.call = .joinUntil stops ∧ Token.Kind.blank ∈ stops ∧ e.after.index = i

namespace Moment

/-- Each blank that the cursor stands on or can return to has such a join. -/
def Accounted (m : Moment s) : Prop :=
  ∀ i ∈ m.cursor.index :: m.cursor.saved, s.BlankAt i → ∃ e ∈ m.history, e.JoinsOnto i

theorem accounted_start {c : Cursor s} (hcurrent : c.current.kind ≠ .blank)
    (hsaved : c.saved = []) : (start c).Accounted := by
  intro i hi hblank
  rw [start, hsaved, List.mem_singleton] at hi
  exact (hcurrent (Cursor.current_kind_eq_blank_iff.mpr (hi ▸ hblank))).elim

/-- A step that leads to no blank, and to no save point that is new. -/
theorem Accounted.step_of_subset {m : Moment s} {a : Call} (hm : m.Accounted)
    (hstep : ∀ i ∈ (m.step a).cursor.index :: (m.step a).cursor.saved,
      s.BlankAt i → i ∈ m.cursor.index :: m.cursor.saved) : (m.step a).Accounted := by
  intro i hi hblank
  obtain ⟨e, he, hjoin⟩ := hm i (hstep i hi hblank) hblank
  exact ⟨e, List.mem_append_left _ he, hjoin⟩

theorem Accounted.step_join {m : Moment s} (hm : m.Accounted) (stops : List Token.Kind) :
    (m.step (.joinUntil stops)).Accounted := by
  intro i hi hblank
  rcases List.mem_cons.mp hi with rfl | hi
  · obtain ⟨t, ht, hkind⟩ := hblank
    have hstop := m.cursor.stops_of_get?_joinUntil stops ht
    rw [Cursor.Stops, hkind] at hstop
    rcases hstop with hend | hstop
    · cases hend
    · exact ⟨_, List.mem_append_right _ (List.mem_singleton.mpr rfl), stops, rfl, hstop, rfl⟩
  · obtain ⟨e, he, hjoin⟩ := hm i (List.mem_cons_of_mem _ hi) hblank
    exact ⟨e, List.mem_append_left _ he, hjoin⟩

theorem Accounted.step {m : Moment s} (hm : m.Accounted) (a : Call) : (m.step a).Accounted := by
  have heffect := m.effect_step a
  generalize hd : (m.step a).cursor = d at heffect
  cases heffect with
  | stay =>
      refine hm.step_of_subset fun i hi _ => ?_
      rwa [hd] at hi
  | pass =>
      refine hm.step_of_subset fun i hi hblank => ?_
      rw [hd, Cursor.saved_next] at hi
      rcases List.mem_cons.mp hi with rfl | hi
      · have hnext := m.cursor.current_next_ne_blank
        exact (hnext (Cursor.current_kind_eq_blank_iff.mpr hblank)).elim
      · exact List.mem_cons_of_mem _ hi
  | join stops => exact hm.step_join stops
  | push =>
      refine hm.step_of_subset fun i hi _ => ?_
      rw [hd, Cursor.saved_push, Cursor.index_push] at hi
      rcases List.mem_cons.mp hi with rfl | hi
      · exact List.mem_cons_self
      · exact hi
  | drop hsaved =>
      refine hm.step_of_subset fun i hi _ => ?_
      rw [hd] at hi
      rw [hsaved]
      rcases List.mem_cons.mp hi with rfl | hi
      · exact List.mem_cons_self
      · exact List.mem_cons_of_mem _ (List.mem_cons_of_mem _ hi)
  | rollback hsaved =>
      refine hm.step_of_subset fun i hi _ => ?_
      rw [hd] at hi
      rw [hsaved]
      exact List.mem_cons_of_mem _ hi
  | stuck =>
      refine hm.step_of_subset fun i hi _ => ?_
      rwa [hd] at hi

end Moment

namespace Script

theorem accounted_of_mem_moments (i : Nat) (p : Script α) :
    ∀ m ∈ p.moments (Cursor.ofIndex s i), m.Accounted := by
  refine p.forall_mem_moments (fun m a hm => ?_) ?_
  · exact hm.step a
  · exact Moment.accounted_start (Cursor.current_ofIndex_ne_blank s i) (Cursor.saved_ofIndex i)

/-- Blanks under a cursor, and at its save points, are the doing of an earlier
join; and from wherever such a join has led it, the next move that passes a
token leads to one that is no blank. -/
theorem exists_join_of_blank (s : Stream) (i : Nat) (p : Script α) :
    ∀ m ∈ p.moments (Cursor.ofIndex s i),
      (m.cursor.current.kind = .blank → ∃ e ∈ m.history, e.JoinsOnto m.cursor.index) ∧
      (∀ j ∈ m.cursor.saved, s.BlankAt j → ∃ e ∈ m.history, e.JoinsOnto j) ∧
      ((∀ e ∈ m.history, ∀ stops, e.call = .joinUntil stops → Token.Kind.blank ∉ stops) →
        m.cursor.current.kind ≠ .blank) ∧
      m.cursor.next.current.kind ≠ .blank ∧
      (∀ kind d, m.cursor.expect kind = .ok d → d.current.kind ≠ .blank) ∧
      (∀ kind d, m.cursor.acceptKind? kind = some d → d.current.kind ≠ .blank) ∧
      ∀ text d, m.cursor.acceptText? text = some d → d.current.kind ≠ .blank := by
  intro m hm
  have haccounted := p.accounted_of_mem_moments i m hm
  have hcurrent : m.cursor.current.kind = .blank → ∃ e ∈ m.history, e.JoinsOnto m.cursor.index :=
    fun hblank => haccounted _ List.mem_cons_self (Cursor.current_kind_eq_blank_iff.mp hblank)
  have haccept (q : Token.Query) (d : Cursor s) (hd : m.cursor.accept? q = some d) :
      d.current.kind ≠ .blank := by
    obtain ⟨-, rfl⟩ := Cursor.accept?_eq_some_iff.mp hd
    exact m.cursor.current_next_ne_blank
  refine ⟨hcurrent, fun j hj => haccounted j (List.mem_cons_of_mem _ hj), ?_,
    m.cursor.current_next_ne_blank, ?_, fun kind => haccept (.kind kind),
    fun text => haccept (.text text)⟩
  · intro hnone hblank
    obtain ⟨e, he, stops, hcall, hmem, -⟩ := hcurrent hblank
    exact hnone e he stops hcall hmem
  · intro kind d hd
    obtain ⟨-, rfl⟩ := Cursor.expect_eq_ok_iff.mp hd
    exact m.cursor.current_next_ne_blank

/-- A join onto a blank, which is left behind a save point and returned to. -/
def returnsToBlank : Script Unit :=
  .call (.joinUntil [.comma, .blank]) false <| .call .push false <| .call .push false <|
    .call .next false <| .call (.release .rollback) false .done

def blankMoment : Moment .spaced :=
  (returnsToBlank.trail .lenient (Moment.start (Cursor.ofIndex .spaced 0))).last

theorem exists_join_of_blank_returned :
    blankMoment ∈ returnsToBlank.moments (Cursor.ofIndex .spaced 0) ∧
    blankMoment.cursor.current.kind = .blank ∧ blankMoment.cursor.saved = [1] ∧
    (∃ e ∈ blankMoment.history, e.JoinsOnto blankMoment.cursor.index) ∧
    (∃ e ∈ blankMoment.history, e.JoinsOnto 1) ∧
    (∃ d, blankMoment.cursor.expect .blank = .ok d ∧ d.current.kind ≠ .blank) ∧
    (∃ d, blankMoment.cursor.acceptKind? .blank = some d ∧ d.current.kind ≠ .blank) ∧
    (∃ d, blankMoment.cursor.acceptText? " " = some d ∧ d.current.kind ≠ .blank) ∧
    (Moment.start (Cursor.ofIndex .spaced 0)).cursor.current.kind ≠ .blank := by
  have hmem : blankMoment ∈ returnsToBlank.moments (Cursor.ofIndex .spaced 0) :=
    returnsToBlank.last_mem_reached .lenient (Moment.start (Cursor.ofIndex .spaced 0))
  have hblank : blankMoment.cursor.current.kind = .blank := by decide
  have hsaved : blankMoment.cursor.saved = [1] := by decide
  have hone : (1 : Nat) ∈ blankMoment.cursor.saved := by decide
  have hat : Stream.spaced.BlankAt 1 := ⟨⟨.blank, " "⟩, rfl, rfl⟩
  obtain ⟨hcurrent, hreturn, -, -, hexpect, hkind, htext⟩ :=
    exists_join_of_blank .spaced 0 returnsToBlank blankMoment hmem
  have hstart := (exists_join_of_blank .spaced 0 returnsToBlank _
    (returnsToBlank.self_mem_reached .lenient _)).2.2.1
  exact ⟨hmem, hblank, hsaved, hcurrent hblank, hreturn 1 hone hat,
    ⟨_, rfl, hexpect .blank _ rfl⟩, ⟨_, rfl, hkind .blank _ rfl⟩, ⟨_, rfl, htext " " _ rfl⟩,
    hstart (List.forall_mem_nil _)⟩

end Script

end DocCursor
