import DocCursor.Proofs.Attempt

/-!
# The floor under a cursor

Save points lie in order, and none lies ahead of the cursor, since a push adds
the index itself and all else either moves forward or removes save points. So
a rollback never leads forward. The same holds above any point of a run: as
long as the save points from before that point are left alone, no backtracking
leads back to before it.
-/

namespace DocCursor

variable {s : Stream} {α : Type}

namespace Cursor

variable {c d base : Cursor s} {a : Call}

theorem index_le_index_skipBlank (c : Cursor s) : c.index ≤ c.skipBlank.index := by
  unfold skipBlank
  split
  · exact Nat.le_succ c.index
  · exact Nat.le_refl c.index

theorem index_le_index_next (c : Cursor s) : c.index ≤ c.next.index := by
  unfold next
  split
  · exact Nat.le_trans (Nat.le_succ c.index) (index_le_index_skipBlank ⟨c.index + 1, c.saved⟩)
  · exact Nat.le_refl c.index

theorem index_le_index_joinUntil (c : Cursor s) (stops : List Token.Kind) :
    c.index ≤ (c.joinUntil stops).2.index :=
  Nat.le_add_right _ _

/-- The index and the save points, from the innermost to the outermost, do not
increase. -/
def Ordered (c : Cursor s) : Prop := (c.index :: c.saved).Pairwise (· ≥ ·)

theorem Ordered.saved_le (h : c.Ordered) : ∀ i ∈ c.saved, i ≤ c.index :=
  (List.pairwise_cons.mp h).1

theorem Ordered.pairwise_saved (h : c.Ordered) : c.saved.Pairwise (· ≥ ·) :=
  (List.pairwise_cons.mp h).2

theorem Ordered.forward (h : c.Ordered) (hindex : c.index ≤ d.index) (hsaved : d.saved = c.saved) :
    d.Ordered := by
  rw [Ordered, hsaved]
  apply List.pairwise_cons.mpr
  exact ⟨fun i hi => Nat.le_trans (h.saved_le i hi) hindex, h.pairwise_saved⟩

theorem Ordered.of_effect (h : c.Ordered) (he : Call.Effect c a d) : d.Ordered := by
  cases he with
  | stay => exact h
  | pass => exact h.forward c.index_le_index_next c.saved_next
  | join stops => exact h.forward (c.index_le_index_joinUntil stops) rfl
  | push =>
      apply List.pairwise_cons.mpr
      exact ⟨List.forall_mem_cons.mpr ⟨Nat.le_refl c.index, h.saved_le⟩, h⟩
  | drop hsaved =>
      rw [Ordered, hsaved] at h
      exact h.sublist ((List.sublist_cons_self _ _).cons_cons _)
  | rollback hsaved =>
      have hrest := h.pairwise_saved
      rwa [hsaved] at hrest
  | stuck => exact h

theorem Ordered.index_le_of_rollback (h : c.Ordered)
    (he : Call.Effect c (.release .rollback) d) : d.index ≤ c.index := by
  cases he with
  | stay hplain => cases hplain
  | pass hplain => cases hplain
  | rollback hsaved =>
      apply h.saved_le
      rw [hsaved]
      exact List.mem_cons_self
  | stuck => exact Nat.le_refl c.index

/-- A cursor that still has the save points of `base`, with its index and its
own save points at or ahead of the index of `base`. -/
def Above (base c : Cursor s) : Prop :=
  ∃ own, c.saved = own ++ base.saved ∧ ∀ i ∈ c.index :: own, base.index ≤ i

theorem Above.refl (c : Cursor s) : c.Above c :=
  ⟨[], rfl, List.forall_mem_singleton.mpr (Nat.le_refl c.index)⟩

theorem Above.index_le (h : base.Above c) : base.index ≤ c.index := by
  obtain ⟨own, -, hfloor⟩ := h
  exact hfloor _ List.mem_cons_self

theorem Above.forward (h : base.Above c) (hindex : c.index ≤ d.index)
    (hsaved : d.saved = c.saved) : base.Above d := by
  obtain ⟨own, hown, hfloor⟩ := h
  obtain ⟨hhere, hrest⟩ := List.forall_mem_cons.mp hfloor
  refine ⟨own, hsaved.trans hown, ?_⟩
  exact List.forall_mem_cons.mpr ⟨Nat.le_trans hhere hindex, hrest⟩

theorem Above.exists_own {i : Nat} {saved : List Nat} (h : base.Above c)
    (hdepth : base.depth < c.depth) (hsaved : c.saved = i :: saved) :
    ∃ own, saved = own ++ base.saved ∧ ∀ j ∈ c.index :: i :: own, base.index ≤ j := by
  obtain ⟨own, hown, hfloor⟩ := h
  -- With no save points of its own the cursor would be no deeper than `base`.
  cases own with
  | nil =>
      have hequal : c.depth = base.depth := congrArg List.length hown
      omega
  | cons j own =>
      obtain ⟨rfl, rfl⟩ := List.cons.inj (hsaved.symm.trans hown)
      exact ⟨own, rfl, hfloor⟩

theorem Above.of_effect (h : base.Above c) (he : Call.Effect c a d)
    (hspares : ∀ r, a = .release r → base.depth < c.depth) : base.Above d := by
  cases he with
  | stay => exact h
  | pass => exact h.forward c.index_le_index_next c.saved_next
  | join stops => exact h.forward (c.index_le_index_joinUntil stops) rfl
  | push =>
      obtain ⟨own, hown, hfloor⟩ := h
      refine ⟨c.index :: own, congrArg (List.cons c.index) hown, ?_⟩
      exact List.forall_mem_cons.mpr ⟨hfloor _ List.mem_cons_self, hfloor⟩
  | drop hsaved =>
      obtain ⟨own, hown, hfloor⟩ := h.exists_own (hspares .drop rfl) hsaved
      obtain ⟨hhere, hrest⟩ := List.forall_mem_cons.mp hfloor
      exact ⟨own, hown, List.forall_mem_cons.mpr ⟨hhere, (List.forall_mem_cons.mp hrest).2⟩⟩
  | rollback hsaved =>
      obtain ⟨own, hown, hfloor⟩ := h.exists_own (hspares .rollback rfl) hsaved
      exact ⟨own, hown, (List.forall_mem_cons.mp hfloor).2⟩
  | stuck => exact h

end Cursor

namespace Moment

/-- The save points are in order, and no rollback so far has led forward. -/
structure Descends (m : Moment s) : Prop where
  ordered : m.cursor.Ordered
  rollback_le : ∀ e ∈ m.history, e.call = .release .rollback → e.after.index ≤ e.before.index

theorem descends_start {c : Cursor s} (h : c.saved = []) : (start c).Descends where
  ordered := by
    rw [start, Cursor.Ordered, h]
    exact List.pairwise_singleton _ _
  rollback_le := List.forall_mem_nil _

theorem Descends.step {m : Moment s} (hm : m.Descends) (a : Call) : (m.step a).Descends where
  ordered := hm.ordered.of_effect (m.effect_step a)
  rollback_le := by
    -- The events before this step are known, and the new one goes to the top save point.
    intro e he hcall
    rcases List.mem_append.mp he with he | he
    · exact hm.rollback_le e he hcall
    · obtain rfl := List.mem_singleton.mp he
      obtain rfl : a = .release .rollback := hcall
      exact hm.ordered.index_le_of_rollback (m.effect_step _)

/-- From one moment to a later one: what has happened in between, and that the
earlier cursor is a floor as long as its save points were left alone. -/
def Floor (m n : Moment s) : Prop :=
  ∃ es, n.history = m.history ++ es ∧
    ((∀ e ∈ es, e.Spares m.cursor.depth) → m.cursor.Above n.cursor)

theorem Floor.refl (m : Moment s) : m.Floor m :=
  ⟨[], (List.append_nil _).symm, fun _ => .refl m.cursor⟩

theorem Floor.step {m n : Moment s} (h : m.Floor n) (a : Call) : m.Floor (n.step a) := by
  obtain ⟨es, hes, habove⟩ := h
  refine ⟨es ++ [⟨a, n.cursor, (n.step a).cursor⟩], ?_, fun hspares => ?_⟩
  · rw [history_step, hes, List.append_assoc]
    rfl
  · obtain ⟨hearlier, hlast⟩ := List.forall_mem_append.mp hspares
    apply (habove hearlier).of_effect (n.effect_step a)
    exact hlast _ (List.mem_singleton.mpr rfl)

end Moment

namespace Script

/-- The save points of a run do not decrease from the outermost to the
innermost, and none is ahead of the cursor. So no rollback leads forward, and
what runs from some moment on without releasing the save points from before
does not get to before the place where it began. -/
theorem saved_ordered_below_index (s : Stream) (i : Nat) (p : Script α) :
    ∀ m ∈ p.moments (Cursor.ofIndex s i),
      m.cursor.saved.reverse.Pairwise (· ≤ ·) ∧ (∀ j ∈ m.cursor.saved, j ≤ m.cursor.index) ∧
      (∀ e ∈ m.history, e.call = .release .rollback → e.after.index ≤ e.before.index) ∧
      ∀ (β : Type) (q : Script β) (mode : Mode), ∀ n ∈ (q.trail mode m).reached,
        ∃ es, n.history = m.history ++ es ∧
          ((∀ e ∈ es, e.Spares m.cursor.depth) → m.cursor.index ≤ n.cursor.index) := by
  intro m hm
  have hstart := Moment.descends_start (Cursor.saved_ofIndex (s := s) i)
  have hdescends := p.forall_mem_moments (fun n a hn => hn.step a) hstart m hm
  refine ⟨?_, hdescends.ordered.saved_le, hdescends.rollback_le, ?_⟩
  · exact List.pairwise_reverse.mpr hdescends.ordered.pairwise_saved
  · intro β q mode n hn
    obtain ⟨es, hes, habove⟩ :=
      q.forall_mem_reached (fun n a hn => hn.step a) mode (Moment.Floor.refl m) n hn
    exact ⟨es, hes, fun hspares => (habove hspares).index_le⟩

/-- The attempt fails with a save point of its body on top of its own. -/
def leavesOwn : Script Unit :=
  .call .push false <| .call .next false <|
    .attempt (.call .push false <| .call .next false <|
      .call (.fail "declined") false .done) true .done

def failsAhead : Script Unit :=
  .attempt (.call .next false <| .call (.expect .comma) false .done) true .done

def ownLeft : Moment .spaced :=
  (leavesOwn.trail .lenient (Moment.start (Cursor.ofIndex .spaced 0))).last

def failedAhead : Moment .spaced := (failsAhead.trail .strict ownLeft).last

theorem saved_ordered_below_index_leavesOwn :
    ownLeft ∈ leavesOwn.moments (Cursor.ofIndex .spaced 0) ∧ ownLeft.cursor = ⟨2, [2, 0]⟩ ∧
    ownLeft.cursor.saved.reverse.Pairwise (· ≤ ·) ∧ 0 ≤ ownLeft.cursor.index ∧
    (∃ e ∈ ownLeft.history, e.call = .release .rollback ∧ e.after.index ≤ e.before.index) ∧
    failedAhead ∈ (failsAhead.trail .strict ownLeft).reached ∧
    (∀ e ∈ failedAhead.history.drop ownLeft.history.length, e.Spares 2) ∧
    ownLeft.cursor.index ≤ failedAhead.cursor.index := by
  have hmem : ownLeft ∈ leavesOwn.moments (Cursor.ofIndex .spaced 0) :=
    leavesOwn.last_mem_reached .lenient (Moment.start (Cursor.ofIndex .spaced 0))
  have hlater : failedAhead ∈ (failsAhead.trail .strict ownLeft).reached :=
    failsAhead.last_mem_reached .strict ownLeft
  have hback : (⟨.release .rollback, ⟨3, [2, 2, 0]⟩, ⟨2, [2, 0]⟩⟩ : Event .spaced) ∈
      ownLeft.history := by decide
  have hzero : (0 : Nat) ∈ ownLeft.cursor.saved := by decide
  have hspares : ∀ e ∈ failedAhead.history.drop ownLeft.history.length, e.Spares 2 := by decide
  obtain ⟨hordered, hbelow, hrollback, hfloor⟩ :=
    saved_ordered_below_index .spaced 0 leavesOwn ownLeft hmem
  obtain ⟨es, hes, habove⟩ := hfloor Unit failsAhead .strict failedAhead hlater
  have hdrop : failedAhead.history.drop ownLeft.history.length = es := by
    rw [hes]
    exact List.drop_left
  refine ⟨hmem, by decide, hordered, hbelow 0 hzero, ⟨_, hback, rfl, hrollback _ hback rfl⟩,
    hlater, hspares, ?_⟩
  apply habove
  rwa [hdrop] at hspares

end Script

end DocCursor
