import DocCursor.Proofs.Access
import DocCursor.Proofs.Simulation

/-!
# The frame below a run

A run sees of the save points that it begins with only what it releases. As long
as it leaves them alone, they can be exchanged for any others: the run stays the
same, over another base. So a cursor on a token that is no blank can be replaced
by a fresh one at its index, which has no save points at all.
-/

namespace DocCursor

variable {s : Stream} {α : Type}

namespace Cursor

variable {c d : Cursor s} {base base' : List Nat}

/-- Cursors at one place, with the same save points of their own over two bases. -/
structure Framed (base base' : List Nat) (c d : Cursor s) : Prop where
  index : d.index = c.index
  depth : d.depth + base.length = c.depth + base'.length
  own : ∃ own, c.saved = own ++ base ∧ d.saved = own ++ base'

theorem framed_mk (base base' : List Nat) (i : Nat) (own : List Nat) :
    Framed base base' (⟨i, own ++ base⟩ : Cursor s) ⟨i, own ++ base'⟩ where
  index := rfl
  depth := by
    simp only [Cursor.depth, List.length_append]
    omega
  own := ⟨own, rfl, rfl⟩

/-- Release a save point and end with an outcome, or get stuck without one. -/
def released {ε β : Type} (c : Cursor s) (r : Release) (o : Outcome ε β) :
    Outcome ε β × Cursor s :=
  match c.release? r with
  | some e => (o, e)
  | none => (.unmatched r, c)

theorem perform_release (c : Cursor s) (r : Release) :
    (Call.release r).perform c = c.released r (.done .nothing) := rfl

theorem close_of_closing? {ε β : Type} {o : Outcome ε β} {r : Release}
    (h : o.closing? = some r) : c.close o = c.released r o := by
  cases o with
  | unmatched r' => cases h
  | _ =>
      cases h
      rfl

theorem ne_unmatched_of_close {ε β : Type} {o : Outcome ε β}
    (h : ∀ r, (c.close o).1 ≠ .unmatched r) (r : Release) : o ≠ .unmatched r := by
  rintro rfl
  exact h r rfl

namespace Framed

theorem exists_eq (h : Framed base base' c d) :
    ∃ i own, c = ⟨i, own ++ base⟩ ∧ d = ⟨i, own ++ base'⟩ := by
  obtain ⟨i, saved⟩ := c
  obtain ⟨j, saved'⟩ := d
  obtain ⟨rfl, -, own, rfl, rfl⟩ := h
  exact ⟨j, own, rfl, rfl⟩

theorem length_le_depth (h : Framed base base' c d) : base'.length ≤ d.depth := by
  obtain ⟨i, own, rfl, rfl⟩ := h.exists_eq
  rw [Cursor.depth, List.length_append]
  exact Nat.le_add_left _ _

theorem push (h : Framed base base' c d) : Framed base base' c.push d.push := by
  obtain ⟨i, own, rfl, rfl⟩ := h.exists_eq
  exact framed_mk base base' i (i :: own)

/-- A release that leaves the base alone finds a save point that both cursors
have. -/
theorem released {ε β : Type} {o : Outcome ε β} {r : Release} (h : Framed base base' c d)
    (hreturns : ∀ r', (c.released r o).1 ≠ .unmatched r')
    (hdepth : base.length ≤ (c.released r o).2.depth) :
    (c.released r o).1 = (d.released r o).1 ∧
      Framed base base' (c.released r o).2 (d.released r o).2 := by
  obtain ⟨i, own, rfl, rfl⟩ := h.exists_eq
  cases own with
  | nil =>
      -- The top save point is that of the base, if there is one at all.
      cases base with
      | nil => cases r <;> exact (hreturns _ rfl).elim
      | cons j base =>
          have hlt : ((⟨i, j :: base⟩ : Cursor s).released r o).2.depth < (j :: base).length := by
            cases r <;> exact Nat.lt_succ_self _
          exact (Nat.not_le_of_lt hlt hdepth).elim
  | cons j own =>
      cases r with
      | drop => exact ⟨rfl, framed_mk base base' i own⟩
      | rollback => exact ⟨rfl, framed_mk base base' j own⟩

theorem perform {a : Call} (h : Framed base base' c d)
    (hreturns : ∀ r, (a.perform c).1 ≠ .unmatched r)
    (hdepth : base.length ≤ (a.perform c).2.depth) :
    (a.perform c).1 = (a.perform d).1 ∧ Framed base base' (a.perform c).2 (a.perform d).2 := by
  cases ha : a.isBracket with
  | false =>
      obtain ⟨i, own, rfl, rfl⟩ := h.exists_eq
      have hsaved := Call.saved_of_not_isBracket (a.effect (⟨i, own ++ base⟩ : Cursor s)) ha
      rw [Call.perform_of_index ha (⟨i, own ++ base⟩ : Cursor s) (own ++ base')]
      generalize a.perform (⟨i, own ++ base⟩ : Cursor s) = result at hsaved
      obtain ⟨o, j, saved⟩ := result
      obtain rfl := hsaved
      exact ⟨rfl, framed_mk base base' j own⟩
  | true =>
      cases a with
      | push => exact ⟨rfl, h.push⟩
      | release r =>
          rw [perform_release] at hreturns hdepth ⊢
          rw [perform_release]
          exact h.released hreturns hdepth
      | _ => cases ha

theorem close {o o' : Outcome Failure (Option α)} (h : Framed base base' c d) (hoo' : o = o')
    (hreturns : ∀ r, (c.close o).1 ≠ .unmatched r) (hdepth : base.length ≤ (c.close o).2.depth) :
    (c.close o).1 = (d.close o').1 ∧ Framed base base' (c.close o).2 (d.close o').2 := by
  subst hoo'
  cases ho : o.closing? with
  | none =>
      cases o with
      | unmatched r => exact ⟨rfl, h⟩
      | _ => cases ho
  | some r =>
      rw [close_of_closing? ho] at hreturns hdepth ⊢
      rw [close_of_closing? ho]
      exact h.released hreturns hdepth

end Framed

theorem ofIndex_index_of_ne_blank (h : c.index ≤ s.endIndex) (hblank : c.current.kind ≠ .blank) :
    ofIndex s c.index = ⟨c.index, []⟩ := by
  rw [ofIndex, Nat.min_eq_left h]
  exact skipBlank_of_not_isBlank (Token.isBlank_eq_false_iff.mpr hblank)

end Cursor

namespace Log

theorem cursors_attempt (inner : Log s α) (o : Outcome Failure (Option α)) (c : Cursor s)
    (l : Log s α) : (attempt inner o c l).cursors = (inner.cursors ++ [c]) ++ l.cursors :=
  List.append_cons _ c _

theorem cursors_fork (inner : Log s α) (o : Outcome Failure (Option α)) (c : Cursor s)
    (l : Log s α) : (fork inner o c l).cursors = (inner.cursors ++ [c]) ++ l.cursors :=
  List.append_cons _ c _

/-- A cursor that the second log shows has its counterpart in the first. -/
theorem Alike.exists_of_mem_cursors {t : Stream} {R : Cursor s → Cursor t → Prop}
    {A : Answer → Answer → Prop} {F : Failure → Failure → Prop} {l : Log s α} {m : Log t α}
    (h : l.Alike R A F m) : ∀ d ∈ m.cursors, ∃ c, R c d := by
  induction h with
  | nil => exact List.forall_mem_nil _
  | call a houtcome hcursor hrest ih => exact List.forall_mem_cons.mpr ⟨⟨_, hcursor⟩, ih⟩
  | give value hcursor hrest ih => exact List.forall_mem_cons.mpr ⟨⟨_, hcursor⟩, ih⟩
  | attempt hinner houtcome hcursor hrest ihInner ih =>
      exact List.forall_mem_append.mpr ⟨ihInner, List.forall_mem_cons.mpr ⟨⟨_, hcursor⟩, ih⟩⟩
  | fork hinner houtcome hcursor hrest ihInner ih =>
      exact List.forall_mem_append.mpr ⟨ihInner, List.forall_mem_cons.mpr ⟨⟨_, hcursor⟩, ih⟩⟩

end Log

/-! ## Runs that leave the base alone -/

namespace Run

variable {n : Nat} {c : Cursor s} {x y : Run s α} {base base' : List Nat}

/-- The run returns, and at no step are there fewer than `n` save points, so that
the `n` outermost are never released, neither by the cursor nor by a copy. -/
structure Spares (n : Nat) (x : Run s α) : Prop where
  returns : ∀ r, x.ending ≠ .unmatched r
  le_depth : ∀ c ∈ x.log.cursors, n ≤ c.depth

/-- The run `y` over `base'` is the run `x` over `base`, step by step and at its
end, and leaves `base'` alone. -/
structure Framed (base base' : List Nat) (x y : Run s α) : Prop where
  alike : x.Alike (Cursor.Framed base base') Eq Eq y
  spares : y.Spares base'.length
  saved : ∀ own, x.cursor.saved = own ++ base → y.cursor.saved = own ++ base'

/-- What a step with these cursors in its entry takes over from a whole run. -/
theorem Spares.of_step {β : Type} {o : Outcome Failure β} {mode : Mode} {caught : Bool}
    {entry : Log s α → Log s α} (shown : List (Cursor s))
    (h : Spares n (match (mode.ending? caught o : Option (Outcome Failure (Option α))) with
      | some ending => ⟨entry .nil, c, ending⟩
      | none => { x with log := entry x.log }))
    (hentry : ∀ l, (entry l).cursors = shown ++ l.cursors) :
    (∀ r, o ≠ .unmatched r) ∧ (∀ d ∈ shown, n ≤ d.depth) ∧
      ((mode.ending? caught o : Option (Outcome Failure (Option α))) = none → x.Spares n) := by
  cases hend : (mode.ending? caught o : Option (Outcome Failure (Option α))) with
  | some ending =>
      rw [hend] at h
      refine ⟨?_, fun d hd => ?_, nofun⟩
      · rintro r rfl
        cases hend
        exact h.returns r rfl
      · apply h.le_depth
        rw [hentry]
        exact List.mem_append_left _ hd
  | none =>
      rw [hend] at h
      refine ⟨Mode.ne_unmatched_of_ending?_eq_none hend, fun d hd => ?_, fun _ => ?_⟩
      · apply h.le_depth
        rw [hentry]
        exact List.mem_append_left _ hd
      · refine ⟨h.returns, fun d hd => h.le_depth d ?_⟩
        rw [hentry]
        exact List.mem_append_right _ hd

end Run

namespace Outcome.Alike

variable {ε β : Type} {o o' : Outcome ε β}

theorem of_eq (h : o = o') : o.Alike Eq Eq o' := by
  subst h
  cases o with
  | done v => exact .done rfl
  | failed f => exact .failed rfl
  | unmatched r => exact .unmatched r

theorem eq (h : o.Alike Eq Eq o') : o = o' := by
  cases h with
  | done h => rw [h]
  | failed h => rw [h]
  | unmatched r => rfl

end Outcome.Alike

namespace Script

variable {c d : Cursor s} {base base' : List Nat}

/-- The steps of a run that leaves the base alone are those of the run over any
other base. -/
theorem alike_run_of_framed (p : Script α) (mode : Mode) (h : c.Framed base base' d)
    (hspares : (p.run mode c).Spares base.length) :
    (p.run mode c).Alike (Cursor.Framed base base') Eq Eq (p.run mode d) := by
  -- What each step shows is known to be deep enough, and the rest of the run only
  -- if the run goes on.
  induction p generalizing mode c d with
  | done => exact ⟨.nil, h, .done rfl⟩
  | call a caught rest ih =>
      obtain ⟨hreturns, hshown, hrest⟩ := hspares.of_step [(a.perform c).2] fun l => rfl
      obtain ⟨houtcome, hcursor⟩ := h.perform hreturns (hshown _ List.mem_cons_self)
      apply Simulates.proceed (.of_eq houtcome) hcursor fun hend => ih mode hcursor (hrest hend)
      exact fun l m hlm => .call a (.of_eq houtcome) hcursor hlm
  | give value rest ih =>
      cases mode with
      | strict => exact ⟨.give value h .nil, h, .done rfl⟩
      | lenient =>
          have hrest : (rest.run .lenient c).Spares base.length :=
            ⟨hspares.returns, (List.forall_mem_cons.mp hspares.le_depth).2⟩
          have hafter := ih .lenient h hrest
          exact ⟨.give value h hafter.log, hafter.cursor, hafter.ending⟩
  | attempt body caught rest ihBody ih =>
      obtain ⟨hreturns, hshown, hrest⟩ := hspares.of_step _ (Log.cursors_attempt _ _ _)
      obtain ⟨hdeep, hclosed⟩ := List.forall_mem_append.mp hshown
      have hinner := ihBody .strict h.push ⟨Cursor.ne_unmatched_of_close hreturns, hdeep⟩
      obtain ⟨houtcome, hcursor⟩ :=
        hinner.cursor.close hinner.ending.eq hreturns (hclosed _ List.mem_cons_self)
      apply Simulates.proceed (.of_eq houtcome) hcursor fun hend => ih mode hcursor (hrest hend)
      exact fun l m hlm => .attempt hinner.log (.of_eq houtcome) hcursor hlm
  | fork body rest ihBody ih =>
      obtain ⟨hreturns, hshown, hrest⟩ := hspares.of_step _ (Log.cursors_fork _ _ _)
      have hinner := ihBody .lenient h ⟨hreturns, (List.forall_mem_append.mp hshown).1⟩
      apply Simulates.proceed hinner.ending h fun hend => ih mode h (hrest hend)
      exact fun l m hlm => .fork hinner.log hinner.ending h hlm

theorem framed_run (p : Script α) (mode : Mode) (h : c.Framed base base' d)
    (hspares : (p.run mode c).Spares base.length) :
    (p.run mode c).Framed base base' (p.run mode d) := by
  have halike := p.alike_run_of_framed mode h hspares
  refine ⟨halike, ⟨?_, ?_⟩, ?_⟩
  · rw [← halike.ending.eq]
    exact hspares.returns
  · intro e he
    obtain ⟨e', hframed⟩ := halike.log.exists_of_mem_cursors e he
    exact hframed.length_le_depth
  · intro own hown
    obtain ⟨own', hc, hd⟩ := halike.cursor.own
    rw [hd, List.append_cancel_right (hc.symm.trans hown)]

/-- The frame rule for save points. A run that leaves the save points of its
start alone is the same run over any others, but for their number. So a cursor
that a run has led to a token that is no blank goes on like a fresh one. -/
theorem run_over_base (s : Stream) (p : Script α) (mode : Mode) :
    (∀ (i : Nat) (base base' : List Nat),
      (p.run mode (⟨i, base⟩ : Cursor s)).Spares base.length →
      (p.run mode (⟨i, base⟩ : Cursor s)).Framed base base'
        (p.run mode (⟨i, base'⟩ : Cursor s))) ∧
    ∀ (β : Type) (q : Script β) (j : Nat), ∀ m ∈ q.moments (Cursor.ofIndex s j),
      m.cursor.current.kind ≠ .blank → (p.run mode m.cursor).Spares m.cursor.depth →
      (p.run mode m.cursor).Framed m.cursor.saved []
        (p.run mode (Cursor.ofIndex s m.cursor.index)) := by
  refine ⟨fun i base base' hspares => ?_, fun β q j m hm hblank hspares => ?_⟩
  · exact p.framed_run mode (Cursor.framed_mk base base' i []) hspares
  · have hrange := q.inRange_of_mem_moments j m hm
    rw [Cursor.ofIndex_index_of_ne_blank hrange.index_le hblank]
    exact p.framed_run mode (Cursor.framed_mk m.cursor.saved [] m.cursor.index []) hspares

/-- On a blank a fresh cursor does not stay where a join has left another one. -/
example : Cursor.ofIndex .spaced 1 = ⟨2, []⟩ := by decide

/-- An attempt that fails with a save point of its body left, and a copy that
releases what was pushed before it. -/
def leavesBase : Script Unit :=
  .call .push false <| .call .next false <|
    .attempt (.call .push false <| .call (.expect .colon) false .done) true <|
    .fork (.call (.release .rollback) false <| .call (.release .drop) false .done) .done

def pushesOnce : Script Unit := .call .push false <| .call .next false .done

def pushedOnce : Moment .spaced :=
  (pushesOnce.trail .lenient (Moment.start (Cursor.ofIndex .spaced 0))).last

theorem run_over_base_leavesBase :
    (leavesBase.run .lenient (⟨0, [0]⟩ : Cursor .spaced)).Spares 1 ∧
    (leavesBase.run .lenient (⟨0, [0]⟩ : Cursor .spaced)).cursor = ⟨2, [2, 0, 0]⟩ ∧
    (leavesBase.run .lenient (⟨0, [0]⟩ : Cursor .spaced)).Framed [0] [3, 1]
      (leavesBase.run .lenient (⟨0, [3, 1]⟩ : Cursor .spaced)) ∧
    (leavesBase.run .lenient (⟨0, [3, 1]⟩ : Cursor .spaced)).cursor.saved = [2, 0, 3, 1] ∧
    pushedOnce ∈ pushesOnce.moments (Cursor.ofIndex .spaced 0) ∧
    pushedOnce.cursor = ⟨2, [0]⟩ ∧ pushedOnce.cursor.current.kind ≠ .blank ∧
    (leavesBase.run .lenient pushedOnce.cursor).Spares 1 ∧
    (leavesBase.run .lenient pushedOnce.cursor).Framed [0] []
      (leavesBase.run .lenient (Cursor.ofIndex .spaced 2)) := by
  have hspares : (leavesBase.run .lenient (⟨0, [0]⟩ : Cursor .spaced)).Spares 1 :=
    ⟨Outcome.done_ne_unmatched none, by decide⟩
  have hmem : pushedOnce ∈ pushesOnce.moments (Cursor.ofIndex .spaced 0) :=
    pushesOnce.last_mem_reached .lenient (Moment.start (Cursor.ofIndex .spaced 0))
  have hblank : pushedOnce.cursor.current.kind ≠ .blank := by decide
  have hlater : (leavesBase.run .lenient pushedOnce.cursor).Spares 1 :=
    ⟨Outcome.done_ne_unmatched none, by decide⟩
  obtain ⟨hrule, hfresh⟩ := run_over_base .spaced leavesBase .lenient
  have hframed := hrule 0 [0] [3, 1] hspares
  have hsaved := hframed.saved [2, 0] (by decide)
  exact ⟨hspares, by decide, hframed, hsaved, hmem, by decide, hblank, hlater,
    hfresh Unit pushesOnce 0 pushedOnce hmem hblank hlater⟩

end Script

end DocCursor
