import DocCursor.Proofs.Effect
import DocCursor.Script.Run

/-!
# Trails

A run again, as its cursors live through it. Every state that the cursor or a
copy of it reaches is a moment: the state, and all calls that led to it. In
these histories an attempt is a push, then what its body calls, then a drop
or a rollback, and a copy goes on from the history of its original. A release
without a save point leads to one last moment, whose history ends in it.

`Script.trail_run` says that trail and run agree, `Moment.cursor_eq_replay`
that the history of a moment accounts for its state, and
`Trail.Sound` is what an induction over runs has to offer.
-/

namespace DocCursor

structure Event (s : Stream) where
  call : Call
  before : Cursor s
  after : Cursor s
  deriving DecidableEq

structure Moment (s : Stream) where
  cursor : Cursor s
  /-- The calls of this cursor and of those it was copied from, oldest first. -/
  history : List (Event s)
  deriving DecidableEq

/-- The release that an attempt owes to the outcome of its body. -/
def Outcome.closing? {ε β : Type} : Outcome ε β → Option Release
  | .done _ => some .drop
  | .failed _ => some .rollback
  | .unmatched _ => none

namespace Outcome

variable {ε β : Type}

theorem done_ne_unmatched (value : β) (r : Release) : (done value : Outcome ε β) ≠ unmatched r := by
  intro h
  cases h

theorem failed_ne_unmatched (f : ε) (r : Release) : (failed f : Outcome ε β) ≠ unmatched r := by
  intro h
  cases h

theorem ne_unmatched_of_closing? {outcome : Outcome ε β} {r : Release}
    (h : outcome.closing? = some r) (r' : Release) : outcome ≠ unmatched r' := by
  rintro rfl
  cases h

end Outcome

namespace Moment

variable {s : Stream} {ε β : Type}

def start (c : Cursor s) : Moment s := ⟨c, []⟩

def step (m : Moment s) (a : Call) : Moment s :=
  let d := (a.perform m.cursor).2
  ⟨d, m.history ++ [⟨a, m.cursor, d⟩]⟩

def close (m : Moment s) (outcome : Outcome ε β) : Moment s :=
  match outcome.closing? with
  | some r => m.step (.release r)
  | none => m

@[simp] theorem cursor_step (m : Moment s) (a : Call) :
    (m.step a).cursor = (a.perform m.cursor).2 := rfl

@[simp] theorem history_step (m : Moment s) (a : Call) :
    (m.step a).history = m.history ++ [⟨a, m.cursor, (a.perform m.cursor).2⟩] := rfl

theorem effect_step (m : Moment s) (a : Call) : Call.Effect m.cursor a (m.step a).cursor :=
  a.effect m.cursor

theorem cursor_close (m : Moment s) (outcome : Outcome ε β) :
    (m.close outcome).cursor = (m.cursor.close outcome).2 := by
  cases outcome with
  | done value =>
      simp only [close, Outcome.closing?, cursor_step, Call.perform, Cursor.close]
      cases m.cursor.release? .drop <;> rfl
  | failed failure =>
      simp only [close, Outcome.closing?, cursor_step, Call.perform, Cursor.close]
      cases m.cursor.release? .rollback <;> rfl
  | unmatched r => rfl

end Moment

structure Trail (s : Stream) (α : Type) where
  /-- All moments, of the cursor and of its copies. -/
  reached : List (Moment s)
  last : Moment s
  ending : Outcome Failure (Option α)

namespace Trail

variable {s : Stream} {α : Type}

def after (t : Trail s α) (earlier : List (Moment s)) : Trail s α :=
  { t with reached := earlier ++ t.reached }

@[simp] theorem reached_after (t : Trail s α) (earlier : List (Moment s)) :
    (t.after earlier).reached = earlier ++ t.reached := rfl

@[simp] theorem last_after (t : Trail s α) (earlier : List (Moment s)) :
    (t.after earlier).last = t.last := rfl

@[simp] theorem ending_after (t : Trail s α) (earlier : List (Moment s)) :
    (t.after earlier).ending = t.ending := rfl

end Trail

namespace Script

variable {s : Stream} {α : Type}

def trail : Script α → Mode → Moment s → Trail s α
  | done, _, m => ⟨[m], m, .done none⟩
  | call a caught rest, mode, m =>
      match mode.ending? caught (a.perform m.cursor).1 with
      | some ending => ⟨[m, m.step a], m.step a, ending⟩
      | none => (rest.trail mode (m.step a)).after [m]
  | give value rest, mode, m =>
      match mode with
      | .strict => ⟨[m], m, .done (some value)⟩
      | .lenient => rest.trail .lenient m
  | attempt body caught rest, mode, m =>
      let inner := body.trail .strict (m.step .push)
      let closed := inner.last.close inner.ending
      match mode.ending? caught (inner.last.cursor.close inner.ending).1 with
      | some ending => ⟨m :: (inner.reached ++ [closed]), closed, ending⟩
      | none => (rest.trail mode closed).after (m :: inner.reached)
  | fork body rest, mode, m =>
      let inner := body.trail .lenient m
      match mode.ending? true inner.ending with
      | some ending => ⟨inner.reached, m, ending⟩
      | none => (rest.trail mode m).after inner.reached

/-- The moments of a script that runs on its own. -/
def moments (p : Script α) (c : Cursor s) : List (Moment s) :=
  (p.trail .lenient (Moment.start c)).reached

theorem trail_run (p : Script α) (mode : Mode) (m : Moment s) :
    (p.trail mode m).ending = (p.run mode m.cursor).ending ∧
      (p.trail mode m).last.cursor = (p.run mode m.cursor).cursor := by
  induction p generalizing mode m with
  | done => exact ⟨rfl, rfl⟩
  | call a caught rest ih =>
      simp only [trail, run]
      cases mode.ending? caught (a.perform m.cursor).1 with
      | some ending => exact ⟨rfl, rfl⟩
      | none => exact ih mode (m.step a)
  | give value rest ih =>
      cases mode with
      | strict => exact ⟨rfl, rfl⟩
      | lenient => exact ih .lenient m
  | attempt body caught rest ihBody ih =>
      obtain ⟨hending, hlast⟩ := ihBody .strict (m.step .push)
      have hpush : (m.step .push).cursor = m.cursor.push := rfl
      rw [hpush] at hending hlast
      simp only [trail, run, hending, hlast]
      cases mode.ending? caught _ with
      | some ending => exact ⟨rfl, by rw [Moment.cursor_close, hlast]⟩
      | none =>
          have hrest := ih mode ((body.trail .strict (m.step .push)).last.close
            (body.run .strict m.cursor.push).ending)
          rwa [Moment.cursor_close, hlast] at hrest
  | fork body rest ihBody ih =>
      obtain ⟨hending, -⟩ := ihBody .lenient m
      simp only [trail, run, hending]
      cases mode.ending? true _ with
      | some ending => exact ⟨rfl, rfl⟩
      | none => exact ih mode m

theorem self_mem_reached (p : Script α) (mode : Mode) (m : Moment s) :
    m ∈ (p.trail mode m).reached := by
  induction p generalizing mode m with
  | done => exact List.mem_singleton.mpr rfl
  | call a caught rest ih =>
      simp only [trail]
      cases mode.ending? caught (a.perform m.cursor).1 <;> exact List.mem_cons_self
  | give value rest ih =>
      cases mode with
      | strict => exact List.mem_singleton.mpr rfl
      | lenient => exact ih .lenient m
  | attempt body caught rest ihBody ih =>
      simp only [trail]
      split <;> exact List.mem_cons_self
  | fork body rest ihBody ih =>
      have hbody := ihBody .lenient m
      simp only [trail]
      split
      · exact hbody
      · exact List.mem_append_left _ hbody

theorem last_mem_reached (p : Script α) (mode : Mode) (m : Moment s) :
    (p.trail mode m).last ∈ (p.trail mode m).reached := by
  induction p generalizing mode m with
  | done => exact List.mem_singleton.mpr rfl
  | call a caught rest ih =>
      simp only [trail]
      split
      · exact List.mem_cons_of_mem _ (List.mem_singleton.mpr rfl)
      · exact List.mem_append_right _ (ih mode (m.step a))
  | give value rest ih =>
      cases mode with
      | strict => exact List.mem_singleton.mpr rfl
      | lenient => exact ih .lenient m
  | attempt body caught rest ihBody ih =>
      simp only [trail]
      split
      · exact List.mem_cons_of_mem _ (List.mem_append_right _ (List.mem_singleton.mpr rfl))
      · exact List.mem_append_right _ (ih mode _)
  | fork body rest ihBody ih =>
      simp only [trail]
      split
      · exact body.self_mem_reached .lenient m
      · exact List.mem_append_right _ (ih mode m)

end Script

/-! ## Induction over runs -/

namespace Mode

variable {α β : Type} {mode : Mode} {caught : Bool} {outcome : Outcome Failure β}

theorem eq_of_ending?_eq_some {ending : Outcome Failure α}
    (h : mode.ending? caught outcome = some ending) :
    (∃ f, outcome = .failed f ∧ ending = .failed f) ∨
      ∃ r, outcome = .unmatched r ∧ ending = .unmatched r := by
  cases outcome with
  | done value => cases h
  | failed f =>
      simp only [ending?] at h
      split at h
      · cases h
        exact Or.inl ⟨f, rfl, rfl⟩
      · cases h
  | unmatched r =>
      cases h
      exact Or.inr ⟨r, rfl, rfl⟩

theorem ne_unmatched_of_ending?_eq_none
    (h : (mode.ending? caught outcome : Option (Outcome Failure α)) = none) (r : Release) :
    outcome ≠ .unmatched r := by
  rintro rfl
  cases h

end Mode

namespace Moment

variable {s : Stream} {ε β : Type}

/-- How an attempt ends whose body came to `m` with an outcome. -/
inductive Closes (m : Moment s) : Outcome ε β → Moment s → Outcome ε β → Prop where
  | closed {outcome : Outcome ε β} {r : Release} (h : outcome.closing? = some r)
      (hsaved : m.cursor.saved ≠ []) : Closes m outcome (m.step (.release r)) outcome
  | stuck {outcome : Outcome ε β} {r : Release} (h : outcome.closing? = some r)
      (hsaved : m.cursor.saved = []) : Closes m outcome (m.step (.release r)) (.unmatched r)
  /-- The body got stuck already. -/
  | passed (r : Release) : Closes m (.unmatched r) m (.unmatched r)

theorem closes (m : Moment s) (outcome : Outcome ε β) :
    m.Closes outcome (m.close outcome) (m.cursor.close outcome).1 := by
  obtain ⟨⟨i, saved⟩, history⟩ := m
  cases outcome with
  | done value =>
      cases saved with
      | nil => exact .stuck rfl rfl
      | cons j saved => exact .closed rfl (List.cons_ne_nil j saved)
  | failed failure =>
      cases saved with
      | nil => exact .stuck rfl rfl
      | cons j saved => exact .closed rfl (List.cons_ne_nil j saved)
  | unmatched r => exact .passed r

/-- A moment after a release that found no save point. -/
def Stuck (P : Moment s → Prop) (r : Release) (n : Moment s) : Prop :=
  ∃ m, P m ∧ m.cursor.saved = [] ∧ n = m.step (.release r)

/-- A fact that every call keeps that finds the save point it needs. -/
def Kept (P : Moment s → Prop) : Prop :=
  ∀ m a, P m → (∀ r, a = .release r → m.cursor.saved ≠ []) → P (m.step a)

theorem Kept.step_of_perform {P : Moment s → Prop} (hP : Kept P) {m : Moment s} {a : Call}
    (hm : P m) (ha : ∀ r, (a.perform m.cursor).1 ≠ .unmatched r) : P (m.step a) := by
  apply hP m a hm
  rintro r rfl hsaved
  apply ha r
  rw [Call.perform_release_of_nil hsaved]

end Moment

/-- What a fact that is kept says of a trail: it holds at every moment but the
last one of a run that gets stuck. -/
structure Trail.Sound {s : Stream} {α : Type} (P : Moment s → Prop) (t : Trail s α) : Prop where
  reached : ∀ n ∈ t.reached, P n ∨ ∃ r, t.ending = .unmatched r ∧ Moment.Stuck P r n
  last : (∀ r, t.ending ≠ .unmatched r) → P t.last
  stuck : ∀ r, t.ending = .unmatched r → ∃ n ∈ t.reached, Moment.Stuck P r n

namespace Trail.Sound

variable {s : Stream} {α : Type} {P : Moment s → Prop} {t : Trail s α}

theorem of_forall (hreached : ∀ n ∈ t.reached, P n) (hlast : P t.last)
    (hending : ∀ r, t.ending ≠ .unmatched r) : t.Sound P where
  reached n hn := Or.inl (hreached n hn)
  last _ := hlast
  stuck r hr := (hending r hr).elim

theorem of_stuck {r : Release} (hending : t.ending = .unmatched r)
    (hreached : ∀ n ∈ t.reached, P n ∨ Moment.Stuck P r n)
    (hstuck : ∃ n ∈ t.reached, Moment.Stuck P r n) : t.Sound P where
  reached n hn := (hreached n hn).imp_right fun h => ⟨r, hending, h⟩
  last hr := (hr r hending).elim
  stuck r' hr := by
    cases hending.symm.trans hr
    exact hstuck

theorem reached_of_ne (h : t.Sound P) (hending : ∀ r, t.ending ≠ .unmatched r) :
    ∀ n ∈ t.reached, P n := by
  intro n hn
  rcases h.reached n hn with hP | ⟨r, hr, -⟩
  · exact hP
  · exact (hending r hr).elim

theorem reached_of_eq {r : Release} (h : t.Sound P) (hending : t.ending = .unmatched r) :
    ∀ n ∈ t.reached, P n ∨ Moment.Stuck P r n := by
  intro n hn
  rcases h.reached n hn with hP | ⟨r', hr, hstuck⟩
  · exact Or.inl hP
  · cases hending.symm.trans hr
    exact Or.inr hstuck

theorem after {earlier : List (Moment s)} (h : t.Sound P) (hearlier : ∀ n ∈ earlier, P n) :
    (t.after earlier).Sound P where
  reached n hn := by
    rcases List.mem_append.mp hn with hn | hn
    · exact Or.inl (hearlier n hn)
    · exact h.reached n hn
  last := h.last
  stuck r hr := by
    obtain ⟨n, hn, hstuck⟩ := h.stuck r hr
    exact ⟨n, List.mem_append_right _ hn, hstuck⟩

end Trail.Sound

namespace Script

variable {s : Stream} {α : Type} {P : Moment s → Prop}

theorem forall_mem_pair {P : Moment s → Prop} {m n : Moment s} (hm : P m) (hn : P n) :
    ∀ k ∈ [m, n], P k :=
  List.forall_mem_cons.mpr ⟨hm, List.forall_mem_singleton.mpr hn⟩

theorem sound_call {a : Call} {caught : Bool} {rest : Script α} {mode : Mode} {m : Moment s}
    (hP : Moment.Kept P) (hm : P m)
    (hrest : P (m.step a) → (rest.trail mode (m.step a)).Sound P) :
    ((call a caught rest).trail mode m).Sound P := by
  simp only [trail]
  split
  next ending hend =>
    obtain ⟨f, hout, rfl⟩ | ⟨r, hout, rfl⟩ := Mode.eq_of_ending?_eq_some hend
    · have hnext : P (m.step a) := by
        apply hP.step_of_perform hm
        rw [hout]
        exact Outcome.failed_ne_unmatched f
      exact .of_forall (forall_mem_pair hm hnext) hnext (Outcome.failed_ne_unmatched f)
    · obtain ⟨rfl, hsaved, -⟩ := Call.perform_eq_unmatched_iff.mp (Prod.ext hout rfl)
      have hstuck : Moment.Stuck P r (m.step (.release r)) := ⟨m, hm, hsaved, rfl⟩
      exact .of_stuck rfl (forall_mem_pair (Or.inl hm) (Or.inr hstuck))
        ⟨_, List.mem_cons_of_mem _ (List.mem_singleton.mpr rfl), hstuck⟩
  next hend =>
    have hnext : P (m.step a) := hP.step_of_perform hm (Mode.ne_unmatched_of_ending?_eq_none hend)
    exact (hrest hnext).after (List.forall_mem_singleton.mpr hm)

theorem sound_attempt {body rest : Script α} {caught : Bool} {mode : Mode} {m : Moment s}
    (hP : Moment.Kept P) (hm : P m) (hbody : (body.trail .strict (m.step .push)).Sound P)
    (hrest : ∀ n, P n → (rest.trail mode n).Sound P) :
    ((attempt body caught rest).trail mode m).Sound P := by
  have hlast := body.last_mem_reached .strict (m.step .push)
  have hcloses := (body.trail .strict (m.step .push)).last.closes
    (body.trail .strict (m.step .push)).ending
  simp only [trail]
  generalize body.trail .strict (m.step .push) = inner at hbody hlast hcloses ⊢
  generalize inner.last.close inner.ending = closed at hcloses ⊢
  generalize (inner.last.cursor.close inner.ending).1 = outcome at hcloses ⊢
  generalize hinner : inner.ending = ending at hcloses
  cases hcloses with
  | @closed _ r howed hsaved =>
      have hne : ∀ r, inner.ending ≠ .unmatched r :=
        hinner ▸ Outcome.ne_unmatched_of_closing? howed
      have hreached := hbody.reached_of_ne hne
      have hnext := hP _ (.release r) (hbody.last hne) fun _ _ => hsaved
      split
      next ending' hend =>
        have hending : ∀ r, ending' ≠ .unmatched r := by
          obtain ⟨f, -, rfl⟩ | ⟨r, hr, -⟩ := Mode.eq_of_ending?_eq_some hend
          · exact Outcome.failed_ne_unmatched f
          · exact (hne r (hinner.trans hr)).elim
        refine .of_forall (List.forall_mem_cons.mpr ⟨hm, fun n hn => ?_⟩) hnext hending
        rcases List.mem_append.mp hn with hn | hn
        · exact hreached n hn
        · exact List.mem_singleton.mp hn ▸ hnext
      next hend => exact (hrest _ hnext).after (List.forall_mem_cons.mpr ⟨hm, hreached⟩)
  | @stuck _ r howed hsaved =>
      have hne : ∀ r, inner.ending ≠ .unmatched r :=
        hinner ▸ Outcome.ne_unmatched_of_closing? howed
      have hstuck : Moment.Stuck P r (inner.last.step (.release r)) :=
        ⟨inner.last, hbody.last hne, hsaved, rfl⟩
      have hmem : inner.last.step (.release r) ∈
          m :: (inner.reached ++ [inner.last.step (.release r)]) :=
        List.mem_cons_of_mem _ (List.mem_append_right _ (List.mem_singleton.mpr rfl))
      refine .of_stuck rfl (List.forall_mem_cons.mpr ⟨Or.inl hm, fun n hn => ?_⟩) ⟨_, hmem, hstuck⟩
      rcases List.mem_append.mp hn with hn | hn
      · exact Or.inl (hbody.reached_of_ne hne n hn)
      · exact Or.inr (List.mem_singleton.mp hn ▸ hstuck)
  | passed r =>
      obtain ⟨n, hn, hstuck⟩ := hbody.stuck r hinner
      refine .of_stuck rfl (List.forall_mem_cons.mpr ⟨Or.inl hm, fun k hk => ?_⟩)
        ⟨n, List.mem_cons_of_mem _ (List.mem_append_left _ hn), hstuck⟩
      apply hbody.reached_of_eq hinner
      rcases List.mem_append.mp hk with hk | hk
      · exact hk
      · exact List.mem_singleton.mp hk ▸ hlast

theorem sound_fork {body rest : Script α} {mode : Mode} {m : Moment s} (hm : P m)
    (hbody : (body.trail .lenient m).Sound P) (hrest : (rest.trail mode m).Sound P) :
    ((fork body rest).trail mode m).Sound P := by
  simp only [trail]
  split
  next ending hend =>
    obtain ⟨f, hf, rfl⟩ | ⟨r, hr, rfl⟩ := Mode.eq_of_ending?_eq_some hend
    · have hne : ∀ r, (body.trail .lenient m).ending ≠ .unmatched r := by
        rw [hf]
        exact Outcome.failed_ne_unmatched f
      exact .of_forall (hbody.reached_of_ne hne) hm (Outcome.failed_ne_unmatched f)
    · exact .of_stuck rfl (hbody.reached_of_eq hr) (hbody.stuck r hr)
  next hend =>
    exact hrest.after (hbody.reached_of_ne (Mode.ne_unmatched_of_ending?_eq_none hend))

/-- Induction over runs: a fact that every step keeps is sound for every
trail that begins with it. -/
theorem trail_sound (hP : Moment.Kept P) (p : Script α) (mode : Mode) {m : Moment s} (hm : P m) :
    (p.trail mode m).Sound P := by
  induction p generalizing mode m with
  | done =>
      have hself : ∀ n ∈ [m], P n := List.forall_mem_singleton.mpr hm
      exact .of_forall hself hm (Outcome.done_ne_unmatched none)
  | call a caught rest ih => exact sound_call hP hm fun hnext => ih mode hnext
  | give value rest ih =>
      cases mode with
      | strict =>
          have hself : ∀ n ∈ [m], P n := List.forall_mem_singleton.mpr hm
          exact .of_forall hself hm (Outcome.done_ne_unmatched (some value))
      | lenient => exact ih .lenient hm
  | attempt body caught rest ihBody ih =>
      have hpush : P (m.step .push) := by
        apply hP m .push hm
        intro r hr
        cases hr
      exact sound_attempt hP hm (ihBody .strict hpush) fun n hn => ih mode hn
  | fork body rest ihBody ih => exact sound_fork hm (ihBody .lenient hm) (ih mode hm)

theorem forall_mem_reached (hP : ∀ m a, P m → P (m.step a)) (p : Script α) (mode : Mode)
    {m : Moment s} (hm : P m) : ∀ n ∈ (p.trail mode m).reached, P n := by
  intro n hn
  rcases (p.trail_sound (fun m a hm _ => hP m a hm) mode hm).reached n hn with h | ⟨r, -, h⟩
  · exact h
  · obtain ⟨k, hk, -, rfl⟩ := h
    exact hP k _ hk

theorem forall_mem_moments (hP : ∀ m a, P m → P (m.step a)) (p : Script α) {c : Cursor s}
    (hc : P (Moment.start c)) : ∀ m ∈ p.moments c, P m :=
  p.forall_mem_reached hP .lenient hc

/-- A run that gets stuck does so at a release without a save point. -/
theorem exists_stuck_step (p : Script α) (c : Cursor s) {r : Release}
    (h : (p.run .lenient c).ending = .unmatched r) :
    ∃ m : Moment s, m.cursor.saved = [] ∧ m.step (.release r) ∈ p.moments c := by
  have hsound := p.trail_sound (P := fun _ => True) (fun _ _ _ _ => trivial) .lenient
    (m := Moment.start c) trivial
  have hending := (p.trail_run .lenient (Moment.start c)).1.trans h
  obtain ⟨n, hn, m, -, hsaved, rfl⟩ := hsound.stuck r hending
  exact ⟨m, hsaved, hn⟩

end Script

/-! ## Histories and logs -/

/-- The cursor that a list of calls leaves, whatever their outcomes. -/
def Cursor.replay {s : Stream} (c : Cursor s) (calls : List Call) : Cursor s :=
  calls.foldl (fun d a => (a.perform d).2) c

theorem Cursor.replay_append {s : Stream} (c : Cursor s) (xs ys : List Call) :
    c.replay (xs ++ ys) = (c.replay xs).replay ys :=
  List.foldl_append

theorem Moment.cursor_eq_replay {s : Stream} {α : Type} (p : Script α) (c : Cursor s) :
    ∀ m ∈ p.moments c, m.cursor = c.replay (m.history.map Event.call) := by
  refine p.forall_mem_moments (fun m a hm => ?_) ?_
  · rw [history_step, List.map_append, Cursor.replay_append, ← hm]
    rfl
  · rfl

/-- The cursors that a log shows, those of bodies included. -/
def Log.cursors {s : Stream} {α : Type} : Log s α → List (Cursor s)
  | nil => []
  | call _ _ after rest => after :: rest.cursors
  | give _ after rest => after :: rest.cursors
  | attempt inner _ after rest => inner.cursors ++ after :: rest.cursors
  | fork inner _ after rest => inner.cursors ++ after :: rest.cursors

namespace Script

variable {s : Stream} {α : Type}

theorem self_mem_cursors (p : Script α) (mode : Mode) (m : Moment s) :
    m.cursor ∈ (p.trail mode m).reached.map Moment.cursor :=
  List.mem_map_of_mem (p.self_mem_reached mode m)

theorem cursors_log_subset (p : Script α) (mode : Mode) (m : Moment s) :
    (p.run mode m.cursor).log.cursors ⊆ (p.trail mode m).reached.map Moment.cursor := by
  induction p generalizing mode m with
  | done => exact List.nil_subset _
  | call a caught rest ih =>
      simp only [run, trail]
      cases mode.ending? caught (a.perform m.cursor).1 with
      | some ending => exact List.subset_cons_self _ _
      | none =>
          have hrest := List.cons_subset.mpr
            ⟨rest.self_mem_cursors mode (m.step a), ih mode (m.step a)⟩
          exact List.subset_cons_of_subset _ hrest
  | give value rest ih =>
      cases mode with
      | strict => exact List.Subset.refl _
      | lenient => exact List.cons_subset.mpr ⟨rest.self_mem_cursors .lenient m, ih .lenient m⟩
  | attempt body caught rest ihBody ih =>
      obtain ⟨hending, hlast⟩ := body.trail_run .strict (m.step .push)
      have hbody := ihBody .strict (m.step .push)
      have hpush : (m.step .push).cursor = m.cursor.push := rfl
      rw [hpush] at hending hlast hbody
      have hclosed := (body.trail .strict (m.step .push)).last.cursor_close
        (body.run .strict m.cursor.push).ending
      rw [hlast] at hclosed
      simp only [run, trail, hending, hlast, ← hclosed]
      generalize (body.trail .strict (m.step .push)).last.close _ = closed
      cases mode.ending? caught _ with
      | some ending =>
          simp only [List.map_cons, List.map_append, List.map_nil]
          apply List.subset_cons_of_subset
          exact List.append_subset.mpr ⟨List.subset_append_of_subset_left _ hbody,
            List.subset_append_right _ _⟩
      | none =>
          have hrest := List.cons_subset.mpr ⟨rest.self_mem_cursors mode closed, ih mode closed⟩
          simp only [Trail.reached_after, List.map_cons, List.map_append, List.cons_append]
          apply List.subset_cons_of_subset
          exact List.append_subset.mpr ⟨List.subset_append_of_subset_left _ hbody,
            List.subset_append_of_subset_right _ hrest⟩
  | fork body rest ihBody ih =>
      have hbody := ihBody .lenient m
      simp only [run, trail, (body.trail_run .lenient m).1]
      cases mode.ending? true _ with
      | some ending =>
          exact List.append_subset.mpr ⟨hbody,
            List.cons_subset.mpr ⟨body.self_mem_cursors .lenient m, List.nil_subset _⟩⟩
      | none =>
          have hrest := List.cons_subset.mpr ⟨rest.self_mem_cursors mode m, ih mode m⟩
          simp only [Trail.reached_after, List.map_append]
          exact List.append_subset.mpr ⟨List.subset_append_of_subset_left _ hbody,
            List.subset_append_of_subset_right _ hrest⟩

end Script

end DocCursor
