import DocCursor.Proofs.Floor
import DocCursor.Proofs.Join
import DocCursor.Proofs.Tally

/-!
# Progress

A step leads on by one token or two, and so does a call that asks for a token
and gets it, except on the end mark, where neither changes anything. As long as
nothing is rolled back no call leads back either, so that a run can move only as
often as there are tokens between its two ends. Where blanks are only ever stepped
over, each move passes a token that is none. This is what a loop of calls ends by.
-/

namespace DocCursor

variable {s : Stream} {α : Type}

/-! ## Tokens between two indices -/

namespace Stream

variable {i j k : Nat} {t : Token}

theorem take_append_between (hij : i ≤ j) :
    s.tokens.take i ++ s.between i j = s.tokens.take j := by
  obtain ⟨n, rfl⟩ := Nat.exists_eq_add_of_le hij
  rw [between, Nat.add_sub_cancel_left, List.take_add]

theorem between_append_between (hij : i ≤ j) (hjk : j ≤ k) :
    s.between i j ++ s.between j k = s.between i k := by
  have htake : s.tokens.take i ++ (s.between i j ++ s.between j k) =
      s.tokens.take i ++ s.between i k := by
    rw [← List.append_assoc, take_append_between hij, take_append_between hjk,
      take_append_between (Nat.le_trans hij hjk)]
  exact List.append_cancel_left htake

theorem between_of_get? (ht : s.get? i = some t) (hij : i < j) :
    s.between i j = t :: s.between (i + 1) j := by
  obtain ⟨n, rfl⟩ := Nat.exists_eq_add_of_lt hij
  have hlong : i + n + 1 - i = n + 1 := by omega
  have hrest : i + n + 1 - (i + 1) = n := by omega
  rw [between, drop_of_get? ht, hlong, List.take_succ_cons, between, hrest]

theorem length_significant_between_pos (h : s.SignificantAt i) (hij : i < j) :
    0 < (Token.significant (s.between i j)).length := by
  obtain ⟨t, ht, hblank⟩ := h
  rw [between_of_get? ht hij, Token.significant_cons_of_ne_blank _ hblank]
  exact Nat.succ_pos _

end Stream

namespace Cursor

variable {c d : Cursor s} {a : Call}

theorem offset_add_sourceWidth_between (h : c.index ≤ d.index) :
    c.offset + Token.sourceWidth (s.between c.index d.index) = d.offset := by
  rw [offset, ← Token.sourceWidth_append, Stream.take_append_between h]
  rfl

theorem offset_le_of_index_le (h : c.index ≤ d.index) : c.offset ≤ d.offset :=
  Nat.le.intro (offset_add_sourceWidth_between h)

/-- Where only the end mark may be without a text, moving on shows in the offset. -/
theorem offset_lt_of_index_lt (htexts : ∀ t ∈ s.tokens, t.kind ≠ .endOfInput → t.text ≠ "")
    (hlt : c.index < d.index) (hd : d.index ≤ s.endIndex) : c.offset < d.offset := by
  have ht := get?_index (Nat.le_of_lt (Nat.lt_of_lt_of_le hlt hd))
  have hkind : c.current.kind ≠ .endOfInput := by
    rw [Ne, Stream.kind_eq_endOfInput_iff ht]
    omega
  have htext := htexts c.current (List.mem_of_getElem? ht) hkind
  have hwidth : 0 < c.current.width :=
    Nat.pos_of_ne_zero (mt String.utf8ByteSize_eq_zero_iff.mp htext)
  rw [← offset_add_sourceWidth_between (Nat.le_of_lt hlt), Stream.between_of_get? ht hlt,
    Token.sourceWidth_cons]
  omega

theorem index_le_of_effect (he : Call.Effect c a d) (ha : a ≠ .release .rollback) :
    c.index ≤ d.index := by
  cases he with
  | stay => exact Nat.le_refl c.index
  | pass => exact c.index_le_index_next
  | join stops => exact c.index_le_index_joinUntil stops
  | push => exact Nat.le_refl c.index
  | drop => exact Nat.le_refl c.index
  | rollback => exact (ha rfl).elim
  | stuck => exact Nat.le_refl c.index

/-! ## One step -/

/-- From `c` a step leads to `d`, or a call that asks for a token and gets it. -/
inductive Passes (c : Cursor s) : Cursor s → Prop where
  | next : Passes c c.next
  | expect {kind : Token.Kind} {d : Cursor s} (h : c.expect kind = .ok d) : Passes c d
  | accept {q : Token.Query} {d : Cursor s} (h : c.accept? q = some d) : Passes c d

theorem Passes.eq_next (h : c.Passes d) : d = c.next := by
  cases h with
  | next => rfl
  | expect hd => exact (expect_eq_ok_iff.mp hd).2
  | accept hd => exact (accept?_eq_some_iff.mp hd).2

/-- From `c` to `d` a cursor has stepped on, or it was on the end mark. -/
structure Advances (c d : Cursor s) : Prop where
  index_of_not_atEnd : c.atEnd = false → d.index = c.index + 1 ∨ d.index = c.index + 2
  eq_of_atEnd : c.atEnd = true → d = c
  atEnd_of_index_eq : d.index = c.index → c.atEnd = true

theorem InRange.advances_next (h : c.InRange) : c.Advances c.next := by
  by_cases hend : c.index = s.endIndex
  · have hatEnd := h.atEnd_iff.mpr hend
    have hnext := next_of_endIndex_le (Nat.le_of_eq hend.symm)
    exact ⟨fun hnot => absurd hatEnd (Bool.eq_false_iff.mp hnot), fun _ => hnext, fun _ => hatEnd⟩
  · have hlt := Nat.lt_of_le_of_ne h.index_le hend
    have hstep : c.next.index = c.index + 1 ∨ c.next.index = c.index + 2 := by
      obtain hnext | ⟨-, -, -, hnext⟩ := next_eq_or hlt
      · exact Or.inl (congrArg index hnext)
      · exact Or.inr (congrArg index hnext)
    refine ⟨fun _ => hstep, fun hatEnd => (hend (h.atEnd_iff.mp hatEnd)).elim, fun hstay => ?_⟩
    omega

end Cursor

/-! ## Many steps -/

namespace Event

/-- Calls made one after another, each on the cursor that the one before has left. -/
inductive Linked : Cursor s → List (Event s) → Cursor s → Prop where
  | nil (c : Cursor s) : Linked c [] c
  | snoc {c d : Cursor s} {es : List (Event s)} (h : Linked c es d) (a : Call) :
      Linked c (es ++ [⟨a, d, (a.perform d).2⟩]) (a.perform d).2

def moves (e : Event s) : Bool := e.after.index ≠ e.before.index

theorem moves_iff {e : Event s} : e.moves = true ↔ e.after.index ≠ e.before.index :=
  decide_eq_true_iff

/-- How often the index has changed. -/
def moveCount (es : List (Event s)) : Nat := es.countP moves

theorem moveCount_concat (es : List (Event s)) (e : Event s) :
    moveCount (es ++ [e]) = moveCount es + if e.moves then 1 else 0 := by
  rw [moveCount, List.countP_append, List.countP_singleton, moveCount]

namespace Linked

variable {c d : Cursor s} {es : List (Event s)}

theorem inRange (h : Linked c es d) (hc : c.InRange) : d.InRange := by
  induction h with
  | nil => exact hc
  | snoc h a ih => exact ih.of_effect (a.effect _)

theorem effect_of_mem (h : Linked c es d) (hc : c.InRange) :
    ∀ e ∈ es, e.before.InRange ∧ Call.Effect e.before e.call e.after := by
  induction h with
  | nil => exact List.forall_mem_nil _
  | snoc h a ih =>
      intro e he
      rcases List.mem_append.mp he with he | he
      · exact ih e he
      · obtain rfl := List.mem_singleton.mp he
        exact ⟨h.inRange hc, a.effect _⟩

/-- Without a rollback every move takes up an index of its own. -/
theorem index_add_moveCount_le (h : Linked c es d)
    (honward : ∀ e ∈ es, e.call ≠ .release .rollback) :
    c.index + moveCount es ≤ d.index := by
  induction h with
  | nil => exact Nat.le_refl c.index
  | @snoc d es h a ih =>
      obtain ⟨hearlier, hlast⟩ := List.forall_mem_append.mp honward
      have hsofar := ih hearlier
      have ha : a ≠ .release .rollback := hlast _ (List.mem_singleton.mpr rfl)
      have hle := Cursor.index_le_of_effect (a.effect d) ha
      rw [moveCount_concat]
      split
      next hmoves =>
        have hne : (a.perform d).2.index ≠ d.index := moves_iff.mp hmoves
        omega
      next => omega

/-- From a token that is no blank, if no join is to stop on blanks, every move
passes a token that is no blank. -/
theorem moveCount_le_significant (h : Linked c es d) (hc : s.SignificantAt c.index)
    (honward : ∀ e ∈ es, e.Onward) :
    s.SignificantAt d.index ∧
      moveCount es ≤ (Token.significant (s.between c.index d.index)).length := by
  induction h with
  | nil => exact ⟨hc, Nat.zero_le _⟩
  | @snoc d es h a ih =>
      obtain ⟨hearlier, hlast⟩ := List.forall_mem_append.mp honward
      have he := List.forall_mem_singleton.mp hlast
      obtain ⟨hd, hsofar⟩ := ih hearlier
      have hle := Cursor.index_le_of_effect (a.effect d) he.1
      have hbefore : c.index ≤ d.index :=
        Nat.le_of_add_right_le (h.index_add_moveCount_le fun e he => (hearlier e he).1)
      refine ⟨significantAt_after rfl he hd, ?_⟩
      rw [moveCount_concat, ← Stream.between_append_between hbefore hle,
        Token.significant_append, List.length_append]
      split
      next hmoves =>
        have hne : (a.perform d).2.index ≠ d.index := moves_iff.mp hmoves
        -- What a move passes begins with the token it starts on, which is no blank.
        have hpasses := Stream.length_significant_between_pos hd
          (Nat.lt_of_le_of_ne hle hne.symm)
        omega
      next => omega

end Linked

end Event

/-- What the calls that led from `c` to `d` have in common if none of them was a
rollback: none leads back, and the moves among them are paid for by the tokens
in between. -/
structure Cursor.Progresses (c : Cursor s) (es : List (Event s)) (d : Cursor s) : Prop where
  index_le : c.index ≤ d.index
  offset_le : c.offset ≤ d.offset
  steps_le : ∀ e ∈ es, e.before.index ≤ e.after.index ∧ e.before.offset ≤ e.after.offset
  moves_le : Event.moveCount es ≤ d.index - c.index
  moves_le_significant : c.current.kind ≠ .blank → (∀ e ∈ es, Token.Kind.blank ∉ e.call.stops) →
    Event.moveCount es ≤ (Token.significant (s.between c.index d.index)).length
  moves_lt : (∀ t ∈ s.tokens, t.kind ≠ .endOfInput → t.text ≠ "") →
    ∀ e ∈ es, e.moves = true → e.before.offset < e.after.offset

theorem Event.Linked.progresses {c d : Cursor s} {es : List (Event s)} (h : Linked c es d)
    (hc : c.InRange) (honward : ∀ e ∈ es, e.call ≠ .release .rollback) : c.Progresses es d := by
  have hmoves := h.index_add_moveCount_le honward
  have hindex : c.index ≤ d.index := Nat.le_of_add_right_le hmoves
  have hsteps : ∀ e ∈ es, e.before.index ≤ e.after.index := fun e he =>
    Cursor.index_le_of_effect (h.effect_of_mem hc e he).2 (honward e he)
  refine ⟨hindex, Cursor.offset_le_of_index_le hindex, fun e he => ?_, by omega, ?_, ?_⟩
  · exact ⟨hsteps e he, Cursor.offset_le_of_index_le (hsteps e he)⟩
  · intro hblank hstops
    have hsignificant := Cursor.significantAt_of_ne_blank hc.index_le hblank
    exact (h.moveCount_le_significant hsignificant fun e he => ⟨honward e he, hstops e he⟩).2
  · intro htexts e he hmove
    obtain ⟨hrange, heffect⟩ := h.effect_of_mem hc e he
    have hne : e.after.index ≠ e.before.index := Event.moves_iff.mp hmove
    exact Cursor.offset_lt_of_index_lt htexts (Nat.lt_of_le_of_ne (hsteps e he) hne.symm)
      (hrange.of_effect heffect).index_le

/-! ## Whole runs -/

namespace Script

theorem exists_linked (p : Script α) (mode : Mode) (m : Moment s) :
    ∀ n ∈ (p.trail mode m).reached,
      ∃ es, n.history = m.history ++ es ∧ Event.Linked m.cursor es n.cursor := by
  refine p.forall_mem_reached (fun n a hn => ?_) mode ?_
  · obtain ⟨es, hes, hlinked⟩ := hn
    refine ⟨es ++ [⟨a, n.cursor, (n.step a).cursor⟩], ?_, hlinked.snoc a⟩
    rw [Moment.history_step, hes, List.append_assoc]
    rfl
  · exact ⟨[], (List.append_nil _).symm, .nil m.cursor⟩

/-- A call that passes a token moves the cursor by one or two, unless it is on the
end mark and stays. From any moment of a run on, what has happened up to a later
one is progress, if nothing was rolled back. -/
theorem progresses_of_no_rollback (s : Stream) (i : Nat) (p : Script α) :
    ∀ m ∈ p.moments (Cursor.ofIndex s i),
      (∀ d, m.cursor.Passes d → m.cursor.Advances d) ∧
      ∀ (β : Type) (q : Script β) (mode : Mode), ∀ n ∈ (q.trail mode m).reached,
        ∃ es, n.history = m.history ++ es ∧
          ((∀ e ∈ es, e.call ≠ .release .rollback) → m.cursor.Progresses es n.cursor) := by
  intro m hm
  have hrange := p.inRange_of_mem_moments i m hm
  refine ⟨fun d hd => ?_, fun β q mode n hn => ?_⟩
  · rw [hd.eq_next]
    exact hrange.advances_next
  · obtain ⟨es, hes, hlinked⟩ := q.exists_linked mode m n hn
    exact ⟨es, hes, hlinked.progresses hrange⟩

def stepsIn : Script Unit := .call .next false .done

def steppedIn : Moment .indented :=
  (stepsIn.trail .lenient (Moment.start (Cursor.ofIndex .indented 0))).last

/-- An attempt that succeeds between a push and its drop, and a step on the end mark. -/
def passesOn : Script Unit :=
  .call .push false <|
    .attempt (.call (.acceptKind .comma) false <| .call (.joinUntil []) false .done) false <|
    .call (.release .drop) false <| .call .next false .done

def passedOn : Moment .indented := (passesOn.trail .lenient steppedIn).last

theorem progresses_of_no_rollback_passedOn :
    steppedIn ∈ stepsIn.moments (Cursor.ofIndex .indented 0) ∧
    steppedIn.cursor.Passes ⟨5, []⟩ ∧ steppedIn.cursor.Advances ⟨5, []⟩ ∧
    passedOn ∈ (passesOn.trail .lenient steppedIn).reached ∧
    ∃ es, passedOn.history = steppedIn.history ++ es ∧
      (∀ e ∈ es, e.call ≠ .release .rollback) ∧ Event.moveCount es = 2 ∧
      steppedIn.cursor.Progresses es passedOn.cursor ∧
      Event.moveCount es ≤ (Token.significant (Stream.indented.between 3 6)).length ∧
      ∀ e ∈ es, e.moves = true → e.before.offset < e.after.offset := by
  have hmem : steppedIn ∈ stepsIn.moments (Cursor.ofIndex .indented 0) :=
    stepsIn.last_mem_reached .lenient (Moment.start (Cursor.ofIndex .indented 0))
  have hlater : passedOn ∈ (passesOn.trail .lenient steppedIn).reached :=
    passesOn.last_mem_reached .lenient steppedIn
  have haccepts : steppedIn.cursor.acceptKind? .comma = some ⟨5, []⟩ := rfl
  have hforward : ∀ e ∈ passedOn.history.drop steppedIn.history.length,
      e.call ≠ .release .rollback ∧ Token.Kind.blank ∉ e.call.stops := by decide
  have hcount : Event.moveCount (passedOn.history.drop steppedIn.history.length) = 2 := by decide
  have htexts : ∀ t ∈ Stream.indented.tokens, t.kind ≠ .endOfInput → t.text ≠ "" := by decide
  obtain ⟨hsteps, hruns⟩ := progresses_of_no_rollback .indented 0 stepsIn steppedIn hmem
  obtain ⟨es, hes, hprogress⟩ := hruns Unit passesOn .lenient passedOn hlater
  obtain rfl : passedOn.history.drop steppedIn.history.length = es := by
    rw [hes]
    exact List.drop_left
  have hprogresses := hprogress fun e he => (hforward e he).1
  have hsignificant := hprogresses.moves_le_significant (by decide) fun e he => (hforward e he).2
  exact ⟨hmem, .accept haccepts, hsteps _ (.accept haccepts), hlater, _, hes,
    fun e he => (hforward e he).1, hcount, hprogresses, hsignificant, hprogresses.moves_lt htexts⟩

end Script

end DocCursor
