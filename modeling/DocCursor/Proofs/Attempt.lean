import DocCursor.Proofs.Position
import DocCursor.Proofs.Trail

/-!
# Attempts

What an attempt leaves behind, for every body that leaves the save point of
the attempt alone. Save points that the body pushed and did not release stay
where they are, so that the attempt releases the innermost of these in place
of its own. A body without brackets leaves none.
-/

namespace DocCursor

variable {s : Stream} {α : Type}

/-- An event that releases none of the `n` outermost save points. -/
def Event.Spares (n : Nat) (e : Event s) : Prop := ∀ r, e.call = .release r → n < e.before.depth

instance (n : Nat) (e : Event s) : Decidable (e.Spares n) :=
  decidable_of_iff ((e.call = .release .drop → n < e.before.depth) ∧
      (e.call = .release .rollback → n < e.before.depth))
    ⟨fun h r => by
      cases r with
      | drop => exact h.1
      | rollback => exact h.2, fun h => ⟨h .drop, h .rollback⟩⟩

theorem Event.spares_of_not_isBracket {n : Nat} {e : Event s} (h : e.call.isBracket = false) :
    e.Spares n := by
  intro r hr
  rw [hr] at h
  cases h

namespace Script

/-- The calls of a script, those of bodies included. -/
def calls : Script α → List Call
  | done => []
  | call a _ rest => a :: rest.calls
  | give _ rest => rest.calls
  | attempt body _ rest => body.calls ++ rest.calls
  | fork body rest => body.calls ++ rest.calls

/-- What the cursor itself does, its copies left out, when a strict run of
the script takes it from `c` to its end. -/
def history (p : Script α) (c : Cursor s) : List (Event s) :=
  (p.trail .strict (Moment.start c)).last.history

theorem last_trail_start (p : Script α) (c : Cursor s) :
    (p.trail .strict (Moment.start c)).last.cursor = (p.parse c).2 :=
  (p.trail_run .strict (Moment.start c)).2

theorem ending_trail_start (p : Script α) (c : Cursor s) :
    (p.trail .strict (Moment.start c)).ending = (p.parse c).1 :=
  (p.trail_run .strict (Moment.start c)).1

end Script

/-! ## Save points that are left alone -/

namespace Moment

/-- As long as nothing releases them, the save points at the bottom stay. -/
def Keeps (base : List Nat) (m : Moment s) : Prop :=
  (∀ e ∈ m.history, e.Spares base.length) → base <:+ m.cursor.saved

theorem suffix_of_spares {base saved : List Nat} {i : Nat} (h : base <:+ i :: saved)
    (hlen : base.length < (i :: saved).length) : base <:+ saved := by
  rcases List.suffix_cons_iff.mp h with rfl | h
  · exact (Nat.lt_irrefl _ hlen).elim
  · exact h

theorem Keeps.step {base : List Nat} {m : Moment s} (hm : m.Keeps base) (a : Call) :
    (m.step a).Keeps base := by
  intro hspares
  rw [history_step] at hspares
  have hbase := hm fun e he => hspares e (List.mem_append_left _ he)
  have hlast := hspares _ (List.mem_append_right _ (List.mem_singleton.mpr rfl))
  have heffect := m.effect_step a
  generalize hd : (m.step a).cursor = d at heffect ⊢
  cases heffect with
  | stay => exact hbase
  | pass =>
      rw [Cursor.saved_next]
      exact hbase
  | join stops => exact hbase
  | push => exact hbase.trans (List.suffix_cons _ _)
  | drop hsaved =>
      have hlen : base.length < m.cursor.saved.length := hlast .drop rfl
      rw [hsaved] at hbase hlen
      exact suffix_of_spares hbase hlen
  | rollback hsaved =>
      have hlen : base.length < m.cursor.saved.length := hlast .rollback rfl
      rw [hsaved] at hbase hlen
      exact suffix_of_spares hbase hlen
  | stuck => exact hbase

end Moment

theorem Script.exists_left_of_spares (p : Script α) (c : Cursor s)
    (hspares : ∀ e ∈ p.history c, e.Spares c.depth) :
    ∃ left, (p.parse c).2.saved = left ++ c.saved := by
  have hkeeps : (Moment.start c).Keeps c.saved := fun _ => List.suffix_refl _
  have hlast := p.forall_mem_reached (fun _ a hm => hm.step a) .strict hkeeps _
    (p.last_mem_reached .strict (Moment.start c)) hspares
  rw [p.last_trail_start c] at hlast
  obtain ⟨left, hleft⟩ := hlast
  exact ⟨left, hleft.symm⟩

/-! ## Bodies without brackets -/

namespace Moment

/-- From one moment to a later one the save points are the same, and those of
the first have been left alone. -/
structure Neutral (m n : Moment s) : Prop where
  saved : n.cursor.saved = m.cursor.saved
  spares : ∀ e ∈ n.history, e ∈ m.history ∨ e.Spares m.cursor.depth

theorem Neutral.refl (m : Moment s) : m.Neutral m := ⟨rfl, fun _ he => Or.inl he⟩

theorem Neutral.trans {m n k : Moment s} (hmn : m.Neutral n) (hnk : n.Neutral k) :
    m.Neutral k where
  saved := hnk.saved.trans hmn.saved
  spares e he := by
    rcases hnk.spares e he with he | he
    · exact hmn.spares e he
    · refine Or.inr fun r hr => ?_
      have hlt := he r hr
      rwa [Cursor.depth, hmn.saved] at hlt

theorem neutral_step {a : Call} (m : Moment s) (ha : a.isBracket = false) :
    m.Neutral (m.step a) where
  saved := Call.saved_of_not_isBracket (m.effect_step a) ha
  spares e he := by
    rcases List.mem_append.mp he with he | he
    · exact Or.inl he
    · obtain rfl := List.mem_singleton.mp he
      exact Or.inr (Event.spares_of_not_isBracket ha)

/-- A push, something neutral, and a release. -/
theorem neutral_release {m n : Moment s} (h : (m.step .push).Neutral n) (r : Release) :
    m.Neutral (n.step (.release r)) := by
  have hsaved : n.cursor.saved = m.cursor.index :: m.cursor.saved := h.saved
  constructor
  · have heffect := n.effect_step (.release r)
    generalize (n.step (.release r)).cursor = d at heffect
    cases heffect with
    | stay hr => cases hr
    | pass hr => cases hr
    | drop hn => exact (List.cons.inj (hn.symm.trans hsaved)).2
    | rollback hn => exact (List.cons.inj (hn.symm.trans hsaved)).2
    | stuck hn => exact (List.cons_ne_nil _ _ (hsaved.symm.trans hn)).elim
  · intro e he
    rcases List.mem_append.mp he with he | he
    · rcases h.spares e he with he | he
      · rcases List.mem_append.mp he with he | he
        · exact Or.inl he
        · obtain rfl := List.mem_singleton.mp he
          exact Or.inr fun r hr => by cases hr
      · refine Or.inr fun r hr => ?_
        have hlt : m.cursor.depth + 1 < e.before.depth := he r hr
        exact Nat.lt_of_succ_lt hlt
    · obtain rfl := List.mem_singleton.mp he
      refine Or.inr fun r _ => ?_
      have hdepth : n.cursor.depth = m.cursor.depth + 1 := congrArg List.length hsaved
      exact hdepth ▸ Nat.lt_succ_self m.cursor.depth

end Moment

namespace Script

/-- A script without brackets returns, with the save points it was given. -/
theorem neutral_trail (p : Script α) (hp : ∀ a ∈ p.calls, a.isBracket = false) (mode : Mode)
    (m : Moment s) :
    (∀ r, (p.trail mode m).ending ≠ .unmatched r) ∧ m.Neutral (p.trail mode m).last := by
  induction p generalizing mode m with
  | done => exact ⟨Outcome.done_ne_unmatched none, .refl m⟩
  | call a caught rest ih =>
      obtain ⟨ha, hrest⟩ := List.forall_mem_cons.mp hp
      have hstep := m.neutral_step ha
      simp only [trail]
      split
      next ending hend =>
        obtain ⟨f, -, rfl⟩ | ⟨r, hr, -⟩ := Mode.eq_of_ending?_eq_some hend
        · exact ⟨Outcome.failed_ne_unmatched f, hstep⟩
        · obtain ⟨rfl, -⟩ := Call.perform_eq_unmatched_iff.mp (Prod.ext hr rfl)
          cases ha
      next hend =>
        obtain ⟨hending, hlast⟩ := ih hrest mode (m.step a)
        exact ⟨hending, hstep.trans hlast⟩
  | give value rest ih =>
      cases mode with
      | strict => exact ⟨Outcome.done_ne_unmatched (some value), .refl m⟩
      | lenient => exact ih hp .lenient m
  | attempt body caught rest ihBody ih =>
      obtain ⟨hbody, hrest⟩ := List.forall_mem_append.mp hp
      obtain ⟨hending, hlast⟩ := ihBody hbody .strict (m.step .push)
      have hcloses := (body.trail .strict (m.step .push)).last.closes
        (body.trail .strict (m.step .push)).ending
      simp only [trail]
      generalize body.trail .strict (m.step .push) = inner at hending hlast hcloses ⊢
      generalize inner.last.close inner.ending = closed at hcloses ⊢
      generalize (inner.last.cursor.close inner.ending).1 = outcome at hcloses ⊢
      generalize inner.ending = ending at hcloses hending
      cases hcloses with
      | @closed _ r howed hsaved =>
          have hclosed := Moment.neutral_release hlast r
          split
          next ending' hend =>
            obtain ⟨f, -, rfl⟩ | ⟨r, hr, -⟩ := Mode.eq_of_ending?_eq_some hend
            · exact ⟨Outcome.failed_ne_unmatched f, hclosed⟩
            · exact (hending r hr).elim
          next hend =>
            obtain ⟨hending', hlast'⟩ := ih hrest mode (inner.last.step (.release r))
            exact ⟨hending', hclosed.trans hlast'⟩
      | stuck howed hsaved =>
          rw [hlast.saved] at hsaved
          cases hsaved
      | passed r => exact (hending r rfl).elim
  | fork body rest ihBody ih =>
      obtain ⟨hbody, hrest⟩ := List.forall_mem_append.mp hp
      obtain ⟨hending, -⟩ := ihBody hbody .lenient m
      simp only [trail]
      split
      next ending hend =>
        obtain ⟨f, -, rfl⟩ | ⟨r, hr, -⟩ := Mode.eq_of_ending?_eq_some hend
        · exact ⟨Outcome.failed_ne_unmatched f, .refl m⟩
        · exact (hending r hr).elim
      next => exact ih hrest mode m

end Script

/-! ## The attempt -/

namespace Cursor

variable {c d : Cursor s} {body : Script α} {i : Nat} {saved : List Nat}

theorem attempt_of_done {v : Option α} (hbody : body.parse c.push = (.done v, d))
    (hsaved : d.saved = i :: saved) : c.attempt body.parse = (.done v, ⟨d.index, saved⟩) := by
  obtain ⟨j, dsaved⟩ := d
  cases hsaved
  simp only [attempt, hbody, close, release?_drop_cons]

theorem attempt_of_failed {f : Failure} (hbody : body.parse c.push = (.failed f, d))
    (hsaved : d.saved = i :: saved) : c.attempt body.parse = (.failed f, ⟨i, saved⟩) := by
  obtain ⟨j, dsaved⟩ := d
  cases hsaved
  simp only [attempt, hbody, close, release?_rollback_cons]

/-- An attempt releases the save point that is on top behind its body, whether that is
its own or not. -/
theorem exists_attempt_eq (hreturns : ∀ r, (body.parse c.push).1 ≠ .unmatched r)
    (hsaved : (body.parse c.push).2.saved = i :: saved) :
    ∃ j, c.attempt body.parse = ((body.parse c.push).1, ⟨j, saved⟩) ∧
      (∀ v, (body.parse c.push).1 = .done v → j = (body.parse c.push).2.index) ∧
      ∀ f, (body.parse c.push).1 = .failed f → j = i := by
  cases hbody : body.parse c.push with
  | mk outcome d =>
    rw [hbody] at hreturns hsaved
    cases outcome with
    | done v =>
        refine ⟨d.index, attempt_of_done hbody hsaved, fun _ _ => rfl, fun f hf => ?_⟩
        cases hf
    | failed f =>
        refine ⟨i, attempt_of_failed hbody hsaved, fun v hv => ?_, fun _ _ => rfl⟩
        cases hv
    | unmatched r => exact (hreturns r rfl).elim

/-- What an attempt comes to whose body has left these save points above the one of
the attempt, the innermost first. -/
structure Attempts (c : Cursor s) (body : Script α) (left : List Nat) : Prop where
  saved_body : (body.parse c.push).2.saved = left ++ c.index :: c.saved
  outcome : (c.attempt body.parse).1 = (body.parse c.push).1
  saved : (c.attempt body.parse).2.saved = (left ++ c.index :: c.saved).tail
  depth : (c.attempt body.parse).2.depth = c.depth + left.length
  index_of_done : ∀ v, (body.parse c.push).1 = .done v →
    (c.attempt body.parse).2.index = (body.parse c.push).2.index
  index_of_failed : ∀ f, (body.parse c.push).1 = .failed f →
    (left ++ [c.index]).head? = some (c.attempt body.parse).2.index
  saved_of_done : left = [] → ∀ v, (body.parse c.push).1 = .done v →
    (c.attempt body.parse).2.saved = c.saved
  eq_of_failed : left = [] → ∀ f, (body.parse c.push).1 = .failed f →
    (c.attempt body.parse).2 = c

theorem attempts_of_saved {left : List Nat} (hreturns : ∀ r, (body.parse c.push).1 ≠ .unmatched r)
    (hleft : (body.parse c.push).2.saved = left ++ c.index :: c.saved) : c.Attempts body left := by
  obtain ⟨i, saved, hcons⟩ : ∃ i saved, left ++ c.index :: c.saved = i :: saved :=
    List.exists_cons_of_ne_nil (List.append_ne_nil_of_right_ne_nil _ (List.cons_ne_nil _ _))
  obtain ⟨j, hattempt, hdone, hfailed⟩ := exists_attempt_eq hreturns (hleft.trans hcons)
  have hcursor : (c.attempt body.parse).2 = ⟨j, saved⟩ := congrArg Prod.snd hattempt
  have hnil (h : left = []) : i = c.index ∧ saved = c.saved := by
    subst h
    exact ⟨(List.cons.inj hcons).1.symm, (List.cons.inj hcons).2.symm⟩
  constructor
  case saved_body => exact hleft
  case outcome => rw [hattempt]
  case saved => rw [hcursor, hcons, List.tail_cons]
  case depth =>
    have hlength : saved.length = c.saved.length + left.length := by
      have h := congrArg List.length hcons
      simp only [List.length_append, List.length_cons] at h
      omega
    rw [hcursor]
    exact hlength
  case index_of_done =>
    intro v hv
    rw [hcursor, hdone v hv]
  case index_of_failed =>
    intro f hf
    have hhead := congrArg List.head? hcons
    rw [List.head?_append, List.head?_cons, List.head?_cons] at hhead
    rw [hcursor, hfailed f hf, List.head?_append, List.head?_cons, hhead]
  case saved_of_done =>
    intro hnone v hv
    rw [hcursor, (hnil hnone).2]
  case eq_of_failed =>
    intro hnone f hf
    rw [hcursor, hfailed f hf, (hnil hnone).1, (hnil hnone).2]

/-- The exact effect of an attempt whose body returns and leaves the save point
of the attempt alone. A body without brackets is such a body, and leaves no save
point of its own. -/
theorem attempt_of_spares (c : Cursor s) (body : Script α) :
    ((∀ r, (body.parse c.push).1 ≠ .unmatched r) →
      (∀ e ∈ body.history c.push, e.Spares (c.depth + 1)) →
      ∃ left, c.Attempts body left) ∧
    ((∀ a ∈ body.calls, a.isBracket = false) →
      (∀ r, (body.parse c.push).1 ≠ .unmatched r) ∧
      (∀ e ∈ body.history c.push, e.Spares (c.depth + 1)) ∧
      (body.parse c.push).2.saved = c.index :: c.saved) := by
  refine ⟨fun hreturns hspares => ?_, fun hplain => ?_⟩
  · obtain ⟨left, hleft⟩ := body.exists_left_of_spares c.push hspares
    exact ⟨left, attempts_of_saved hreturns hleft⟩
  · obtain ⟨hending, hneutral⟩ := body.neutral_trail hplain .strict (Moment.start c.push)
    refine ⟨?_, fun e he => ?_, ?_⟩
    · rwa [body.ending_trail_start c.push] at hending
    · exact (hneutral.spares e he).resolve_left List.not_mem_nil
    · rw [← body.last_trail_start c.push]
      exact hneutral.saved

/-- A body that fails between a push and its release. -/
def leavesOne : Script Unit :=
  .call .next false <| .call .push false <| .call .next false <|
    .fork (.call (.release .drop) false <| .call (.release .drop) false .done) <|
    .call (.expect .colon) false <| .call (.release .drop) false .done

/-- A body without brackets, with an attempt that fails in it. -/
def fallsBack : Script Unit :=
  .attempt (.call .next false <| .call (.expect .colon) false .done) true <|
    .call (.expect .identifier) false .done

theorem attempt_of_spares_leavesOne :
    (∀ r, (leavesOne.parse (start .spaced).push).1 ≠ .unmatched r) ∧
    (∀ e ∈ leavesOne.history (start .spaced).push, e.Spares 1) ∧
    (∃ left : List Nat, (leavesOne.parse (start .spaced).push).2.saved = left ++ [0] ∧
      ((start .spaced).attempt leavesOne.parse).2.saved = (left ++ [0]).tail ∧
      ((start .spaced).attempt leavesOne.parse).2.depth = left.length) ∧
    ((start .spaced).attempt leavesOne.parse).2 = ⟨2, [0]⟩ ∧
    (∀ a ∈ fallsBack.calls, a.isBracket = false) ∧
    (fallsBack.parse (start .spaced).push).2.saved = [0] := by
  have hreturns : ∀ r, (leavesOne.parse (start .spaced).push).1 ≠ .unmatched r :=
    Outcome.failed_ne_unmatched _
  have hspares : ∀ e ∈ leavesOne.history (start .spaced).push, e.Spares 1 := by decide
  obtain ⟨left, hattempts⟩ := (attempt_of_spares (start .spaced) leavesOne).1 hreturns hspares
  have hplain : ∀ a ∈ fallsBack.calls, a.isBracket = false := by decide
  obtain ⟨-, -, hnone⟩ := (attempt_of_spares (start .spaced) fallsBack).2 hplain
  have hdepth := hattempts.depth.trans (Nat.zero_add left.length)
  exact ⟨hreturns, hspares, ⟨left, hattempts.saved_body, hattempts.saved, hdepth⟩, by decide,
    hplain, hnone⟩

end Cursor

end DocCursor
