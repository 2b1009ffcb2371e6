import DocCursor.Proofs.Bracket
import DocCursor.Proofs.Position
import DocCursor.Proofs.Trail
import Mathlib.Data.Set.Card

/-!
# Save points as brackets

The pushes and releases in the history of a moment form a word of brackets.
The save points of the cursor are the pushes that this word leaves open, each
with the index that the cursor had there. It follows that a rollback returns to
the push that it matches, whoever made it, and that a run gets stuck at the
first release with no open push before it.
-/

namespace DocCursor

variable {s : Stream} {α : Type}

/-- The function that a release is known by. -/
def Release.name : Release → String
  | .drop => "drop_save_point"
  | .rollback => "rollback"

theorem Release.unmatchedMessage_eq (r : Release) :
    r.unmatchedMessage = r.name ++ " called without a matching push_save_point" := by
  cases r <;> decide

namespace Event

/-- The word of brackets that a list of events spells. -/
def word (es : List (Event s)) : List Call := es.map Event.call

def indexAt? (es : List (Event s)) (k : Nat) : Option Nat := es[k]?.map fun e => e.before.index

@[simp] theorem length_word (es : List (Event s)) : (word es).length = es.length :=
  List.length_map _

theorem word_append (es fs : List (Event s)) : word (es ++ fs) = word es ++ word fs :=
  List.map_append

@[simp] theorem word_cons (e : Event s) (es : List (Event s)) :
    word (e :: es) = e.call :: word es := rfl

theorem map_indexAt?_append {es : List (Event s)} {ks : List Nat} (fs : List (Event s))
    (h : ∀ k ∈ ks, k < es.length) : ks.map (indexAt? (es ++ fs)) = ks.map (indexAt? es) := by
  apply List.map_congr_left
  intro k hk
  rw [indexAt?, List.getElem?_append_left (h k hk), indexAt?]

end Event

/-! ## Save points and open pushes -/

/-- A cursor whose save points stand for the open pushes `ks` of the brackets
`es` behind it. -/
structure Tied (es : List (Event s)) (c : Cursor s) (ks : List Nat) : Prop where
  pending : Call.Pending (Event.word es) ks
  saved : c.saved.map some = ks.map (Event.indexAt? es)

namespace Tied

variable {es : List (Event s)} {c d : Cursor s} {k : Nat} {ks : List Nat}

theorem lt_length (h : Tied es c ks) : ∀ k ∈ ks, k < es.length := by
  intro k hk
  have hlt := h.pending.lt_length hk
  rwa [Event.length_word] at hlt

theorem length_eq_depth (h : Tied es c ks) : ks.length = c.depth := by
  have hlength := congrArg List.length h.saved
  rw [List.length_map, List.length_map] at hlength
  exact hlength.symm

theorem saved_eq_nil_iff (h : Tied es c ks) : c.saved = [] ↔ ks = [] := by
  rw [← List.length_eq_zero_iff, ← List.length_eq_zero_iff, h.length_eq_depth, Cursor.depth]

/-- The cursor has no save point exactly where no push is open. -/
theorem saved_eq_nil_iff_forall (h : Tied es c ks) :
    c.saved = [] ↔ ∀ k, ¬Call.Unmatched (Event.word es) k := by
  rw [h.saved_eq_nil_iff, List.eq_nil_iff_forall_not_mem]
  simp only [h.pending.mem_iff_unmatched]

theorem depth_eq_ncard (h : Tied es c ks) :
    c.depth = {k | Call.Unmatched (Event.word es) k}.ncard := by
  have hset : {k | Call.Unmatched (Event.word es) k} = (ks.toFinset : Set Nat) := by
    ext k
    rw [Set.mem_ofPred_eq, Finset.mem_coe, List.mem_toFinset, h.pending.mem_iff_unmatched]
  have hnodup : ks.Nodup := h.pending.pairwise_gt.imp Nat.ne_of_gt
  rw [hset, Set.ncard_coe_finset, List.toFinset_card_of_nodup hnodup, h.length_eq_depth]

theorem exists_saved (h : Tied es c (k :: ks)) :
    ∃ i saved, c.saved = i :: saved ∧ Event.indexAt? es k = some i ∧
      saved.map some = ks.map (Event.indexAt? es) := by
  obtain ⟨i, saved, hsaved, hi, hrest⟩ := List.map_eq_cons_iff.mp h.saved
  exact ⟨i, saved, hsaved, hi.symm, hrest⟩

theorem push (h : Tied es c ks) : Tied (es ++ [⟨.push, c, c.push⟩]) c.push (es.length :: ks) where
  pending := by
    have hpush := h.pending.snoc_push
    rw [Event.length_word] at hpush
    rw [Event.word_append]
    exact hpush
  saved := by
    rw [List.map_cons, Event.map_indexAt?_append _ h.lt_length, ← h.saved]
    simp [Event.indexAt?]

theorem release (h : Tied es c (k :: ks)) (r : Release) (hd : d.saved = c.saved.tail) :
    Tied (es ++ [⟨.release r, c, d⟩]) d ks where
  pending := by
    rw [Event.word_append]
    exact h.pending.snoc_release r
  saved := by
    obtain ⟨i, saved, hsaved, -, hrest⟩ := h.exists_saved
    have hlt := (List.forall_mem_cons.mp h.lt_length).2
    rw [Event.map_indexAt?_append _ hlt, hd, hsaved, List.tail_cons, hrest]

/-- A release that finds no save point. -/
theorem stray (h : Tied es c []) (r : Release) : Tied (es ++ [⟨.release r, c, c⟩]) c [] where
  pending := by
    rw [Event.word_append]
    exact h.pending.snoc_stray r
  saved := h.saved

/-- What a release does that finds a save point. -/
theorem of_effect_release {r : Release} (h : Tied es c (k :: ks))
    (heffect : Call.Effect c (.release r) d) :
    d.saved = c.saved.tail ∧ (r = .drop → d.index = c.index) ∧
      (r = .rollback → Event.indexAt? es k = some d.index) := by
  obtain ⟨i, saved, hsaved, hi, -⟩ := h.exists_saved
  cases heffect with
  | stay hplain => cases hplain
  | pass hplain => cases hplain
  | drop hc =>
      rw [hc]
      refine ⟨rfl, fun _ => rfl, ?_⟩
      intro hr
      cases hr
  | rollback hc =>
      obtain ⟨rfl, -⟩ := List.cons.inj (hsaved.symm.trans hc)
      rw [hc]
      refine ⟨rfl, ?_, fun _ => hi⟩
      intro hr
      cases hr
  | stuck hc => cases hsaved.symm.trans hc

theorem exists_concat {a : Call} (h : Tied es c ks) (ha : a.isBracket = true)
    (heffect : Call.Effect c a d) : ∃ ks', Tied (es ++ [⟨a, c, d⟩]) d ks' := by
  cases heffect with
  | stay hplain => cases ha.symm.trans hplain
  | pass hplain => cases ha.symm.trans hplain
  | join stops => cases ha
  | push => exact ⟨_, h.push⟩
  | drop hsaved =>
      cases ks with
      | nil => cases hsaved.symm.trans (h.saved_eq_nil_iff.mpr rfl)
      | cons k ks => exact ⟨ks, h.release .drop (h.of_effect_release (.drop hsaved)).1⟩
  | rollback hsaved =>
      cases ks with
      | nil => cases hsaved.symm.trans (h.saved_eq_nil_iff.mpr rfl)
      | cons k ks => exact ⟨ks, h.release .rollback (h.of_effect_release (.rollback hsaved)).1⟩
  | stuck hsaved =>
      obtain rfl := h.saved_eq_nil_iff.mp hsaved
      exact ⟨[], h.stray _⟩

end Tied

namespace Moment

/-- The pushes and releases that led to a moment, those of attempts among them. -/
def brackets (m : Moment s) : List (Event s) := m.history.filter fun e => e.call.isBracket

theorem brackets_step_of_isBracket (m : Moment s) {a : Call} (ha : a.isBracket = true) :
    (m.step a).brackets = m.brackets ++ [⟨a, m.cursor, (m.step a).cursor⟩] := by
  simp [brackets, ha]

theorem brackets_step_of_not_isBracket (m : Moment s) {a : Call} (ha : a.isBracket = false) :
    (m.step a).brackets = m.brackets := by
  simp [brackets, ha]

/-- The cursor is tied to its brackets, and was so before each one of them. -/
structure Matched (m : Moment s) : Prop where
  tied : ∃ ks, Tied m.brackets m.cursor ks
  earlier : ∀ es e fs, m.brackets = es ++ e :: fs →
    (∃ ks, Tied es e.before ks) ∧ Call.Effect e.before e.call e.after

theorem matched_start {c : Cursor s} (h : c.saved = []) : (start c).Matched where
  tied := ⟨[], .base Call.Balanced.nil.closed, congrArg (List.map some) h⟩
  earlier := by
    intro es e fs hsplit
    cases es <;> cases hsplit

theorem Matched.step {m : Moment s} (hm : m.Matched) (a : Call) : (m.step a).Matched := by
  have heffect := m.effect_step a
  obtain ⟨ks, hks⟩ := hm.tied
  cases ha : a.isBracket with
  | false =>
      have hsaved := Call.saved_of_not_isBracket heffect ha
      constructor
      · rw [m.brackets_step_of_not_isBracket ha]
        exact ⟨ks, hks.pending, hsaved.symm ▸ hks.saved⟩
      · rw [m.brackets_step_of_not_isBracket ha]
        exact hm.earlier
  | true =>
      constructor
      · rw [m.brackets_step_of_isBracket ha]
        exact hks.exists_concat ha heffect
      · intro es e fs hsplit
        rw [m.brackets_step_of_isBracket ha] at hsplit
        rcases List.eq_nil_or_concat fs with rfl | ⟨fs, f, rfl⟩
        · obtain ⟨rfl, he⟩ := List.append_inj' hsplit rfl
          obtain rfl := List.singleton_inj.mp he
          exact ⟨⟨ks, hks⟩, heffect⟩
        · rw [List.concat_eq_append, ← List.cons_append, ← List.append_assoc] at hsplit
          exact hm.earlier es e fs (List.append_inj' hsplit rfl).1

end Moment

/-! ## Releases -/

/-- The release `e`, with the brackets `es` before it and `fs` behind it, ends
the save point of the push at `k`, and touches nothing else. -/
structure Ends (es : List (Event s)) (e : Event s) (fs : List (Event s)) (r : Release)
    (k : Nat) : Prop where
  matches_iff : ∀ l, Call.Matches (Event.word (es ++ e :: fs)) l es.length ↔ l = k
  index_drop : r = .drop → e.after.index = e.before.index
  index_rollback : r = .rollback → Event.indexAt? es k = some e.after.index
  saved : e.after.saved = e.before.saved.tail
  unmatched_iff : ∀ l, Call.Unmatched (Event.word (es ++ [e])) l ↔
    Call.Unmatched (Event.word es) l ∧ l ≠ k
  matches_others : ∀ l j, l ≠ k → (Call.Matches (Event.word (es ++ [e])) l j ↔
    Call.Matches (Event.word es) l j)

theorem Tied.ends {es : List (Event s)} {e : Event s} {r : Release} {k : Nat} {ks : List Nat}
    (h : Tied es e.before (k :: ks)) (heffect : Call.Effect e.before e.call e.after)
    (hcall : e.call = .release r) (fs : List (Event s)) : Ends es e fs r k := by
  rw [hcall] at heffect
  obtain ⟨hsaved, hdrop, hrollback⟩ := h.of_effect_release heffect
  have hsnoc : Event.word (es ++ [e]) = Event.word es ++ [.release r] := by
    rw [Event.word_append, ← hcall]
    rfl
  have hword : Event.word (es ++ e :: fs) = Event.word es ++ .release r :: Event.word fs := by
    rw [Event.word_append, Event.word_cons, hcall]
  refine ⟨fun l => ?_, hdrop, hrollback, hsaved, fun l => ?_, fun l j hl => ?_⟩
  · rw [hword, ← Event.length_word es]
    constructor
    · intro hmatches
      have hhead := h.pending.head?_of_matches hmatches
      exact (Option.some.inj hhead).symm
    · rintro rfl
      exact h.pending.matches_head r (Event.word fs)
  · rw [hsnoc]
    exact h.pending.unmatched_snoc_release_iff r
  · rw [hsnoc]
    exact h.pending.matches_snoc_release_iff r hl

namespace Moment

theorem Matched.exists_ends {m : Moment s} (hm : m.Matched) {es fs : List (Event s)} {e : Event s}
    {r : Release} (hsplit : m.brackets = es ++ e :: fs) (hcall : e.call = .release r)
    (hopen : ∃ k, Call.Unmatched (Event.word es) k) : ∃ k, Ends es e fs r k := by
  obtain ⟨⟨ks, hks⟩, heffect⟩ := hm.earlier es e fs hsplit
  obtain ⟨k, hk⟩ := hopen
  cases ks with
  | nil =>
      have hmem := hks.pending.mem_iff_unmatched.mpr hk
      cases hmem
  | cons k ks => exact ⟨k, hks.ends heffect hcall fs⟩

/-- All releases so far have found a save point. -/
def Served (m : Moment s) : Prop :=
  ∀ e ∈ m.brackets, ∀ r, e.call = .release r → e.before.saved ≠ []

theorem kept_served : Kept (Served (s := s)) := by
  intro m a hm hserved
  cases ha : a.isBracket with
  | false =>
      rw [Served, m.brackets_step_of_not_isBracket ha]
      exact hm
  | true =>
      rw [Served, m.brackets_step_of_isBracket ha]
      exact List.forall_mem_append.mpr ⟨hm, List.forall_mem_singleton.mpr hserved⟩

end Moment

namespace Script

theorem matched_of_mem_moments (i : Nat) (p : Script α) :
    ∀ m ∈ p.moments (Cursor.ofIndex s i), m.Matched := by
  refine p.forall_mem_moments (fun m a hm => ?_) ?_
  · exact hm.step a
  · exact Moment.matched_start (Cursor.saved_ofIndex i)

/-- A run gets stuck exactly where it comes to a release with no open push
before it. -/
theorem ending_eq_unmatched_iff (i : Nat) (p : Script α) (r : Release) :
    (p.run .lenient (Cursor.ofIndex s i)).ending = .unmatched r ↔
      ∃ m ∈ p.moments (Cursor.ofIndex s i), ∃ es e fs, m.brackets = es ++ e :: fs ∧
        e.call = .release r ∧ ∀ k, ¬Call.Unmatched (Event.word es) k := by
  constructor
  · intro hending
    obtain ⟨m, hsaved, hm⟩ := p.exists_stuck_step _ hending
    have hsplit := m.brackets_step_of_isBracket (a := .release r) rfl
    obtain ⟨⟨ks, hks⟩, -⟩ := (p.matched_of_mem_moments i _ hm).earlier _ _ _ hsplit
    exact ⟨_, hm, _, _, _, hsplit, rfl, hks.saved_eq_nil_iff_forall.mp hsaved⟩
  · rintro ⟨n, hn, es, e, fs, hsplit, hcall, hnone⟩
    have hstart : (Moment.start (Cursor.ofIndex s i)).Served := by
      intro e he
      cases he
    obtain ⟨⟨ks, hks⟩, -⟩ := (p.matched_of_mem_moments i n hn).earlier es e fs hsplit
    have hsaved := hks.saved_eq_nil_iff_forall.mpr hnone
    have hsound := p.trail_sound Moment.kept_served .lenient hstart
    have hmem : e ∈ n.brackets := by
      rw [hsplit]
      exact List.mem_append_right _ List.mem_cons_self
    rcases hsound.reached n hn with hserved | ⟨r', hending, m, hserved, -, rfl⟩
    · exact (hserved e hmem r hcall hsaved).elim
    · rw [m.brackets_step_of_isBracket rfl] at hmem
      rcases List.mem_append.mp hmem with hmem | hmem
      · exact (hserved e hmem r hcall hsaved).elim
      · obtain rfl := List.mem_singleton.mp hmem
        cases hcall
        have hrun := (p.trail_run .lenient (Moment.start (Cursor.ofIndex s i))).1
        exact hrun.symm.trans hending

/-- Save points match like brackets. At every moment of a run the depth is the
number of open pushes and each save point is the index at its push; every
release that finds an open push ends the one that it matches; and the run
gets stuck exactly at a release that finds none, by the name of that release. -/
theorem releases_match_pushes (s : Stream) (i : Nat) (p : Script α) :
    (∀ m ∈ p.moments (Cursor.ofIndex s i),
      m.cursor.depth = {k | Call.Unmatched (Event.word m.brackets) k}.ncard ∧
      ∃ ks : List Nat, ks.Pairwise (· > ·) ∧
        (∀ k, k ∈ ks ↔ Call.Unmatched (Event.word m.brackets) k) ∧
        m.cursor.saved.map some = ks.map (Event.indexAt? m.brackets)) ∧
    (∀ m ∈ p.moments (Cursor.ofIndex s i), ∀ es e fs r, m.brackets = es ++ e :: fs →
      e.call = .release r → (∃ k, Call.Unmatched (Event.word es) k) → ∃ k, Ends es e fs r k) ∧
    (∀ r, (p.run .lenient (Cursor.ofIndex s i)).ending = .unmatched r ↔
      ∃ m ∈ p.moments (Cursor.ofIndex s i), ∃ es e fs, m.brackets = es ++ e :: fs ∧
        e.call = .release r ∧ ∀ k, ¬Call.Unmatched (Event.word es) k) ∧
    ∀ r : Release, r.unmatchedMessage = r.name ++ " called without a matching push_save_point" := by
  refine ⟨?_, ?_, fun r => p.ending_eq_unmatched_iff i r, Release.unmatchedMessage_eq⟩
  · intro m hm
    obtain ⟨ks, hks⟩ := (p.matched_of_mem_moments i m hm).tied
    exact ⟨hks.depth_eq_ncard, ks, hks.pending.pairwise_gt,
      fun k => hks.pending.mem_iff_unmatched, hks.saved⟩
  · intro m hm es e fs r hsplit hcall hopen
    exact (p.matched_of_mem_moments i m hm).exists_ends hsplit hcall hopen

/-- The body drops the save point of its attempt, so that the attempt rolls
back to a push before it. -/
def givesAway : Script Unit :=
  .call .push false <| .call .push false <| .call .next false <|
    .attempt (.call (.release .drop) false <| .call .next false <|
      .call (.fail "declined") false .done) true <|
    .call (.release .rollback) false <| .call (.release .drop) false .done

def givenAway : Moment .spaced :=
  (givesAway.trail .lenient (Moment.start (Cursor.ofIndex .spaced 0))).last

theorem releases_match_pushes_givesAway :
    givenAway ∈ givesAway.moments (Cursor.ofIndex .spaced 0) ∧
    givenAway.cursor.depth = {k | Call.Unmatched (Event.word givenAway.brackets) k}.ncard ∧
    (∃ k, Ends (givenAway.brackets.take 4) ⟨.release .rollback, ⟨3, [0, 0]⟩, ⟨0, [0]⟩⟩
      (givenAway.brackets.drop 5) .rollback k) ∧
    ∃ m ∈ givesAway.moments (Cursor.ofIndex .spaced 0), ∃ es e fs,
      m.brackets = es ++ e :: fs ∧ e.call = .release .drop ∧
        ∀ k, ¬Call.Unmatched (Event.word es) k := by
  have hmem : givenAway ∈ givesAway.moments (Cursor.ofIndex .spaced 0) :=
    givesAway.last_mem_reached .lenient (Moment.start (Cursor.ofIndex .spaced 0))
  obtain ⟨hdepth, hends, hstuck, -⟩ := releases_match_pushes .spaced 0 givesAway
  have hsplit : givenAway.brackets = givenAway.brackets.take 4 ++
      ⟨.release .rollback, ⟨3, [0, 0]⟩, ⟨0, [0]⟩⟩ :: givenAway.brackets.drop 5 := by decide
  have hopen : Call.Unmatched (Event.word (givenAway.brackets.take 4)) 1 := by
    have hword : Event.word (givenAway.brackets.take 4) =
        [.push, .push] ++ [.push] ++ [.release .drop] := by decide
    have hempty : Call.Pending [] [] := .base Call.Balanced.nil.closed
    have hpending : Call.Pending [.push, .push] [1, 0] := hempty.snoc_push.snoc_push
    rw [hword, ← (hpending.snoc_push.snoc_release .drop).mem_iff_unmatched]
    exact List.mem_cons_self
  have hending : (givesAway.run .lenient (Cursor.ofIndex .spaced 0)).ending = .unmatched .drop := by
    decide
  exact ⟨hmem, (hdepth _ hmem).1, hends _ hmem _ _ _ _ hsplit rfl ⟨1, hopen⟩,
    (hstuck .drop).mp hending⟩

end Script

end DocCursor
