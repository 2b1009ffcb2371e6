import DocCursor.Proofs.Attempt

/-!
# Runs without their detours

What is left of a run when all is deleted that has not moved the cursor for
good: attempts that failed, with everything in them, calls that failed or were
declined, looks at the token, and copies. An attempt that came to a value
leaves the moves of its body. `Script.run_straightened` says that these moves,
made in a row with no save points between them, are the same run.
-/

namespace DocCursor

variable {s : Stream} {α : Type}

/-- Whether a call by which a cursor can move has come out as a move. -/
def Call.survives : Call → Outcome Failure Answer → Bool
  | next, .done _ => true
  | expect _, .done _ => true
  | accept _, .done (.truth b) => b
  | joinUntil _, .done _ => true
  | _, _ => false

structure Move where
  call : Call
  outcome : Outcome Failure Answer
  before : Nat
  after : Nat
  deriving DecidableEq

/-- The moves that a log keeps, for a run that began at the given index. -/
def Log.survivors : Log s α → Nat → List Move
  | nil, _ => []
  | call a outcome after rest, i =>
      if a.survives outcome then ⟨a, outcome, i, after.index⟩ :: rest.survivors after.index
      else rest.survivors after.index
  | give _ after rest, _ => rest.survivors after.index
  | attempt inner (.done _) after rest, i => inner.survivors i ++ rest.survivors after.index
  | attempt _ _ after rest, _ => rest.survivors after.index
  | fork _ _ after rest, _ => rest.survivors after.index

namespace Script

def inRow : List Call → Script α
  | [] => done
  | a :: as => call a false (inRow as)

/-- The moves that are left of a run, as a script of their own. -/
def straightened (p : Script α) (mode : Mode) (c : Cursor s) : Script α :=
  inRow (((p.run mode c).log.survivors c.index).map Move.call)

end Script

namespace Call

variable {a : Call} {c : Cursor s}

theorem exists_done_of_survives {outcome : Outcome Failure Answer}
    (h : a.survives outcome = true) : ∃ answer, outcome = .done answer := by
  cases outcome with
  | done answer => exact ⟨answer, rfl⟩
  | failed f => cases a <;> cases h
  | unmatched r => cases a <;> cases h

/-- What does not survive has left the cursor where it was. -/
theorem perform_of_not_survives (ha : a.isBracket = false)
    (h : a.survives (a.perform c).1 = false) : (a.perform c).2 = c := by
  cases a with
  | next => cases h
  | expect kind =>
      rw [perform_expect] at h ⊢
      by_cases hoffer : c.current.kind = kind
      · simp [hoffer, survives] at h
      · rw [if_neg hoffer]
  | accept q =>
      rw [perform_accept] at h ⊢
      by_cases hoffer : c.current.answers q = true
      · simp [hoffer, survives] at h
      · rw [if_neg hoffer]
  | isAt q => rfl
  | current => rfl
  | joinUntil stops => cases h
  | push => cases ha
  | release r => cases ha
  | fail message => rfl

end Call

namespace Move

/-- Moves in a row from one index to another, which do not depend on what is
saved below. -/
inductive Chain (s : Stream) : Nat → List Move → Nat → Prop where
  | nil (i : Nat) : Chain s i [] i
  | cons {a : Call} {outcome : Outcome Failure Answer} {i j k : Nat} {moves : List Move}
      (hsurvives : a.survives outcome = true)
      (hperform : ∀ saved, a.perform (⟨i, saved⟩ : Cursor s) = (outcome, ⟨j, saved⟩))
      (hrest : Chain s j moves k) : Chain s i (⟨a, outcome, i, j⟩ :: moves) k

namespace Chain

variable {i j k : Nat} {ms ns : List Move}

theorem append (hm : Chain s i ms j) (hn : Chain s j ns k) : Chain s i (ms ++ ns) k := by
  induction hm with
  | nil => exact hn
  | cons hsurvives hperform hrest ih => exact .cons hsurvives hperform (ih hn)

/-- A script that makes the calls of a chain goes along the chain, whatever
is saved. -/
theorem run_inRow (h : Chain s i ms k) (saved : List Nat) :
    ((Script.inRow (ms.map call) : Script α).run .lenient (⟨i, saved⟩ : Cursor s)).cursor =
      ⟨k, saved⟩ ∧
    ((Script.inRow (ms.map call) : Script α).run .lenient (⟨i, saved⟩ : Cursor s)).ending =
      .done none ∧
    ((Script.inRow (ms.map call) : Script α).run .lenient
      (⟨i, saved⟩ : Cursor s)).log.survivors i = ms := by
  induction h with
  | nil => exact ⟨rfl, rfl, rfl⟩
  | @cons a outcome i j k moves hsurvives hperform hrest ih =>
      obtain ⟨answer, rfl⟩ := Call.exists_done_of_survives hsurvives
      obtain ⟨hcursor, hending, hlog⟩ := ih
      simp only [List.map_cons, Script.inRow, Script.run, hperform saved, Mode.ending?_done]
      refine ⟨hcursor, hending, ?_⟩
      rw [Log.survivors, if_pos hsurvives, hlog]

end Chain

end Move

namespace Script

theorem neutral_run (p : Script α) (hp : ∀ a ∈ p.calls, a.isBracket = false) (mode : Mode)
    (c : Cursor s) :
    (∀ r, (p.run mode c).ending ≠ .unmatched r) ∧ (p.run mode c).cursor.saved = c.saved := by
  obtain ⟨hending, hneutral⟩ := p.neutral_trail hp mode (Moment.start c)
  obtain ⟨hsame, hcursor⟩ := p.trail_run mode (Moment.start c)
  refine ⟨?_, ?_⟩
  · rwa [hsame] at hending
  · have hsaved := hneutral.saved
    rwa [hcursor] at hsaved

theorem chain_call {a : Call} (ha : a.isBracket = false) (c : Cursor s) (rest : Log s α)
    {k : Nat} (hrest : Move.Chain s (a.perform c).2.index
      (rest.survivors (a.perform c).2.index) k) :
    Move.Chain s c.index
      ((Log.call a (a.perform c).1 (a.perform c).2 rest).survivors c.index) k := by
  rw [Log.survivors]
  split
  next hsurvives => exact .cons hsurvives (Call.perform_of_index ha c) hrest
  next hdeclined =>
    have hstays := Call.perform_of_not_survives ha (Bool.eq_false_iff.mpr hdeclined)
    rwa [hstays] at hrest ⊢

theorem chain_attempt {inner : Run s α} {c : Cursor s} {rest : Log s α} {k : Nat}
    (hreturns : ∀ r, inner.ending ≠ .unmatched r) (hsaved : inner.cursor.saved = c.index :: c.saved)
    (hinner : Move.Chain s c.index (inner.log.survivors c.index) inner.cursor.index)
    (hrest : Move.Chain s (inner.cursor.close inner.ending).2.index
      (rest.survivors (inner.cursor.close inner.ending).2.index) k) :
    Move.Chain s c.index ((Log.attempt inner.log (inner.cursor.close inner.ending).1
      (inner.cursor.close inner.ending).2 rest).survivors c.index) k := by
  obtain ⟨log, ⟨j, saved⟩, ending⟩ := inner
  cases hsaved
  -- The drop leaves the index at the end of the body. The rollback takes it back
  -- to the start of the attempt, where the empty chain ends.
  cases ending with
  | done v => exact hinner.append hrest
  | failed f => exact hrest
  | unmatched r => exact (hreturns r rfl).elim

/-- The survivors of a run without brackets lead to where it ends. -/
theorem chain_run (p : Script α) (hp : ∀ a ∈ p.calls, a.isBracket = false) (mode : Mode)
    (c : Cursor s) :
    Move.Chain s c.index ((p.run mode c).log.survivors c.index) (p.run mode c).cursor.index := by
  -- A step that ends the run is followed by the empty log, else by that of the rest.
  induction p generalizing mode c with
  | done => exact .nil c.index
  | call a caught rest ih =>
      obtain ⟨ha, hrest⟩ := List.forall_mem_cons.mp hp
      simp only [run]
      cases mode.ending? caught (a.perform c).1 with
      | some ending => exact chain_call ha c .nil (.nil _)
      | none => exact chain_call ha c _ (ih hrest mode (a.perform c).2)
  | give value rest ih =>
      cases mode with
      | strict => exact .nil c.index
      | lenient => exact ih hp .lenient c
  | attempt body caught rest ihBody ih =>
      obtain ⟨hbody, hrest⟩ := List.forall_mem_append.mp hp
      obtain ⟨hreturns, hsaved⟩ := body.neutral_run hbody .strict c.push
      have hinner := ihBody hbody .strict c.push
      simp only [run]
      cases mode.ending? caught _ with
      | some ending => exact chain_attempt hreturns hsaved hinner (.nil _)
      | none => exact chain_attempt hreturns hsaved hinner (ih hrest mode _)
  | fork body rest ihBody ih =>
      obtain ⟨-, hrest⟩ := List.forall_mem_append.mp hp
      simp only [run]
      cases mode.ending? true _ with
      | some ending => exact .nil c.index
      | none => exact ih hrest mode c

/-- A run of a script without brackets, from any cursor, and the run of its
surviving moves in a row end alike, and each of these moves comes out the same
and leads from the same index to the same index. -/
theorem run_straightened (p : Script α) (hp : ∀ a ∈ p.calls, a.isBracket = false) (mode : Mode)
    (c : Cursor s) :
    ((p.straightened mode c).run .lenient c).cursor = (p.run mode c).cursor ∧
    ((p.straightened mode c).run .lenient c).ending = .done none ∧
    ((p.straightened mode c).run .lenient c).log.survivors c.index =
      (p.run mode c).log.survivors c.index := by
  obtain ⟨hcursor, hending, hlog⟩ := (p.chain_run hp mode c).run_inRow (α := α) c.saved
  obtain ⟨-, hsaved⟩ := p.neutral_run hp mode c
  exact ⟨hcursor.trans (congrArg (Cursor.mk _) hsaved.symm), hending, hlog⟩

/-- An attempt that gives a value after one in it has failed, a failed attempt
around one that has not, and calls that move nothing. -/
def wanders : Script Unit :=
  .call (.isKind .comma) false <|
    .attempt (.attempt (.call .next false <| .call (.expect .colon) false .done) true <|
      .fork (.call .next false .done) <| .call (.acceptText "b") false <|
      .call (.expect .colon) true <| .call (.expect .identifier) false <| .give () .done) false <|
    .attempt (.attempt (.call .next false .done) false <|
      .call (.fail "declined") false .done) true <|
    .call (.joinUntil []) false .done

theorem run_straightened_wanders :
    (∀ a ∈ wanders.calls, a.isBracket = false) ∧
    (wanders.run .lenient (Cursor.start .spaced)).log.survivors 0 =
      [⟨.expect .identifier, .done .nothing, 0, 2⟩, ⟨.joinUntil [], .done (.text ","), 2, 3⟩] ∧
    ((wanders.straightened .lenient (Cursor.start .spaced)).run .lenient
      (Cursor.start .spaced)).cursor = ⟨3, []⟩ ∧
    ((wanders.straightened .lenient (Cursor.start .spaced)).run .lenient
      (Cursor.start .spaced)).log.survivors 0 =
        (wanders.run .lenient (Cursor.start .spaced)).log.survivors 0 := by
  have hplain : ∀ a ∈ wanders.calls, a.isBracket = false := by decide
  obtain ⟨hcursor, -, hlog⟩ :=
    run_straightened wanders hplain .lenient (Cursor.start .spaced)
  have hend : (wanders.run .lenient (Cursor.start .spaced)).cursor = ⟨3, []⟩ := by decide
  exact ⟨hplain, by decide, hcursor.trans hend, hlog⟩

end Script

end DocCursor
