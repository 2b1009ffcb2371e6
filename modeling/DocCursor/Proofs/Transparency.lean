import DocCursor.Proofs.Significant
import DocCursor.Proofs.Simulation
import Mathlib.Data.List.Forall2

/-!
# Blanks are not seen

Two streams with the same significant tokens look alike to every script that
does not ask a join to stop on blanks. Its two runs stay abreast: their indices,
and their save points in pairs, have the same significant tokens ahead. What
the cursors show and answer depends on those alone, except for where they are
and for the blanks in a joined text.
-/

namespace DocCursor

variable {s t : Stream} {α : Type}

/-! ## Positions abreast -/

/-- Two positions on a significant token, with the same significant tokens from
there on. -/
structure Stream.Abreast (s t : Stream) (i j : Nat) : Prop where
  left : s.SignificantAt i
  right : t.SignificantAt j
  ahead : s.ahead i = t.ahead j

namespace Stream.Abreast

variable {i j : Nat}

theorem get?_eq (h : Abreast s t i j) : s.get? i = t.get? j := by
  rw [h.left.get?_eq, h.right.get?_eq, h.ahead]

theorem passed_eq (h : Abreast s t i j)
    (hst : Token.significant s.tokens = Token.significant t.tokens) : s.passed i = t.passed j := by
  rw [← s.passed_append_ahead i, ← t.passed_append_ahead j, h.ahead] at hst
  exact List.append_cancel_right hst

theorem eq_endIndex_iff (h : Abreast s t i j) : i = s.endIndex ↔ j = t.endIndex := by
  obtain ⟨u, hu, -⟩ := h.left
  rw [← kind_eq_endOfInput_iff hu, ← kind_eq_endOfInput_iff (h.get?_eq.symm.trans hu)]

theorem lt_endIndex_iff (h : Abreast s t i j) : i < s.endIndex ↔ j < t.endIndex := by
  have hi := h.left.le_endIndex
  have hj := h.right.le_endIndex
  have hend := h.eq_endIndex_iff
  omega

end Stream.Abreast

namespace Cursor

/-- Cursors abreast, which also return to positions abreast. -/
structure Abreast (c : Cursor s) (d : Cursor t) : Prop where
  index : s.Abreast t c.index d.index
  saved : List.Forall₂ (s.Abreast t) c.saved d.saved

variable {c : Cursor s} {d : Cursor t}

theorem current_eq_of_abreast (h : s.Abreast t c.index d.index) : c.current = d.current := by
  rw [current, current, h.get?_eq]

theorem abreast_next (h : s.Abreast t c.index d.index) :
    s.Abreast t c.next.index d.next.index := by
  by_cases hlt : c.index < s.endIndex
  · have hlt' := h.lt_endIndex_iff.mp hlt
    refine ⟨significantAt_next h.left.le_endIndex, significantAt_next h.right.le_endIndex, ?_⟩
    rw [ahead_next h.left hlt, ahead_next h.right hlt', h.ahead]
  · have hlt' := mt h.lt_endIndex_iff.mpr hlt
    rwa [next_of_endIndex_le (Nat.not_lt.mp hlt), next_of_endIndex_le (Nat.not_lt.mp hlt')]

theorem abreast_joinUntil {stops : List Token.Kind} (hstops : Token.Kind.blank ∉ stops)
    (h : s.Abreast t c.index d.index) :
    s.Abreast t (c.joinUntil stops).2.index (d.joinUntil stops).2.index := by
  refine ⟨significantAt_joinUntil hstops h.left.le_endIndex,
    significantAt_joinUntil hstops h.right.le_endIndex, ?_⟩
  rw [ahead_joinUntil hstops, ahead_joinUntil hstops, h.ahead]

theorem Abreast.forward (h : c.Abreast d) {c' : Cursor s} {d' : Cursor t}
    (hindex : s.Abreast t c'.index d'.index) (hc : c'.saved = c.saved) (hd : d'.saved = d.saved) :
    c'.Abreast d' := by
  refine ⟨hindex, ?_⟩
  rw [hc, hd]
  exact h.saved

theorem abreast_start (hst : Token.significant s.tokens = Token.significant t.tokens) :
    (start s).Abreast (start t) where
  index := by
    refine ⟨significantAt_ofIndex s 0, significantAt_ofIndex t 0, ?_⟩
    simp only [start, ofIndex, ahead_skipBlank, Nat.zero_min, Stream.ahead_zero, hst]
  saved := by
    rw [start, start, saved_ofIndex, saved_ofIndex]
    exact .nil

/-- What a grammar sees of a cursor, and how many significant tokens, and
which, lie behind it. -/
structure SameView (c : Cursor s) (d : Cursor t) : Prop where
  current : c.current = d.current
  atEnd : c.atEnd = d.atEnd
  depth : c.depth = d.depth
  passed : s.passed c.index = t.passed d.index

theorem Abreast.sameView (h : c.Abreast d)
    (hst : Token.significant s.tokens = Token.significant t.tokens) : c.SameView d where
  current := current_eq_of_abreast h.index
  atEnd := congrArg Token.isEnd (current_eq_of_abreast h.index)
  depth := h.saved.length_eq
  passed := h.index.passed_eq hst

theorem stretch_isInfix (c : Cursor s) (stops : List Token.Kind) :
    c.stretch stops <:+: s.tokens :=
  (List.takeWhile_prefix _).isInfix.trans (List.drop_suffix _ _).isInfix

end Cursor

/-! ## Answers and failures -/

/-- Equal answers, but for the blanks in a text. A text is that of tokens of its
own stream, in a row, and the significant ones are the same. -/
inductive Answer.SameView (s t : Stream) : Answer → Answer → Prop where
  | nothing : SameView s t .nothing .nothing
  | truth (b : Bool) : SameView s t (.truth b) (.truth b)
  | token (u : Token) : SameView s t (.token u) (.token u)
  | text {us vs : List Token} (hus : us <:+: s.tokens) (hvs : vs <:+: t.tokens)
      (h : Token.significant us = Token.significant vs) :
      SameView s t (.text (Token.source us)) (.text (Token.source vs))

/-- Equal failures, but for the offset of a mismatch. -/
inductive Failure.SameView : Failure → Failure → Prop where
  | mismatch {m n : Mismatch} (hfound : m.found = n.found) (hkind : m.foundKind = n.foundKind)
      (hexpected : m.expected = n.expected) : SameView (.mismatch m) (.mismatch n)
  | custom (message : String) : SameView (.custom message) (.custom message)

/-- A call other than a join that is to stop on blanks. -/
def Call.BlindToBlanks (a : Call) : Prop := ∀ stops, a = joinUntil stops → Token.Kind.blank ∉ stops

theorem simulates_abreast (s t : Stream) :
    Simulates (Cursor.Abreast (s := s) (t := t)) (Answer.SameView s t) Failure.SameView
      Call.BlindToBlanks where
  brackets := by
    rintro a ha stops rfl
    cases ha
  perform := by
    intro a ha c d hcd
    have hcurrent := Cursor.current_eq_of_abreast hcd.index
    have hnext : c.next.Abreast d.next :=
      hcd.forward (Cursor.abreast_next hcd.index) c.saved_next d.saved_next
    cases a with
    | next => exact ⟨.done .nothing, hnext⟩
    | expect kind =>
        rw [Call.perform_expect, Call.perform_expect, ← hcurrent]
        split
        · exact ⟨.done .nothing, hnext⟩
        · refine ⟨.failed (.mismatch ?_ ?_ rfl), hcd⟩
          · exact congrArg Token.text hcurrent
          · exact congrArg Token.kind hcurrent
    | accept q =>
        rw [Call.perform_accept, Call.perform_accept, ← hcurrent]
        split
        · exact ⟨.done (.truth true), hnext⟩
        · exact ⟨.done (.truth false), hcd⟩
    | isAt q =>
        simp only [Call.perform, Cursor.isAt, hcurrent]
        exact ⟨.done (.truth _), hcd⟩
    | current =>
        simp only [Call.perform, hcurrent]
        exact ⟨.done (.token _), hcd⟩
    | joinUntil stops =>
        have hstops := ha stops rfl
        refine ⟨.done (.text (c.stretch_isInfix stops) (d.stretch_isInfix stops) ?_), ?_⟩
        · rw [Cursor.significant_stretch hstops, Cursor.significant_stretch hstops,
            hcd.index.ahead]
        · exact hcd.forward (Cursor.abreast_joinUntil hstops hcd.index) rfl rfl
    | push => exact ⟨.done .nothing, hcd.index, .cons hcd.index hcd.saved⟩
    | release r =>
        obtain ⟨i, saved⟩ := c
        obtain ⟨j, saved'⟩ := d
        obtain ⟨hindex, hsaved⟩ := hcd
        -- The save points are in pairs, so both stacks have a top or neither has.
        cases hsaved with
        | nil => cases r <;> exact ⟨.unmatched _, hindex, .nil⟩
        | cons hhead htail =>
            cases r with
            | drop => exact ⟨.done .nothing, hindex, htail⟩
            | rollback => exact ⟨.done .nothing, hhead, htail⟩
    | fail message => exact ⟨.failed (.custom message), hcd⟩

namespace Script

/-- Whatever a script does, on two streams with the same significant tokens its
runs give the same view step by step: of the cursor, of each answer and failure,
and of the release that a run may get stuck at. -/
theorem run_sameView (hst : Token.significant s.tokens = Token.significant t.tokens)
    (p : Script α) (hp : ∀ stops, Call.joinUntil stops ∈ p.calls → Token.Kind.blank ∉ stops)
    (mode : Mode) :
    (Cursor.start s).SameView (Cursor.start t) ∧
    (p.run mode (Cursor.start s)).Alike Cursor.SameView (Answer.SameView s t) Failure.SameView
      (p.run mode (Cursor.start t)) := by
  have hstart := Cursor.abreast_start hst
  have hblind : ∀ a ∈ p.calls, a.BlindToBlanks := by
    rintro a ha stops rfl
    exact hp stops ha
  have hrun := (simulates_abreast s t).run_alike p hblind mode hstart
  exact ⟨hstart.sameView hst, hrun.mono fun c d hcd => hcd.sameView hst⟩

/-- The tokens of `Stream.spaced` with blanks in other places. -/
def respaced : Stream :=
  ⟨[⟨.blank, "\t"⟩, ⟨.identifier, "a"⟩, ⟨.comma, ","⟩, ⟨.blank, "  "⟩, Token.endMark],
    Stream.defect?_eq_none_iff.mp (by decide)⟩

/-- A failure in an attempt, a copy, and a release too many. -/
def triesAll : Script Unit :=
  .call .push false <|
    .attempt (.call (.joinUntil [.comma]) false <| .call (.expect .colon) false .done) true <|
    .fork (.call .next false <| .call (.release .drop) false .done) <|
    .call (.joinUntil []) false <| .call (.release .rollback) false <|
    .call (.release .drop) false .done

theorem run_sameView_triesAll :
    Token.significant Stream.spaced.tokens = Token.significant respaced.tokens ∧
    (∀ stops, Call.joinUntil stops ∈ triesAll.calls → Token.Kind.blank ∉ stops) ∧
    (triesAll.run .lenient (Cursor.start .spaced)).Alike Cursor.SameView
      (Answer.SameView .spaced respaced) Failure.SameView
      (triesAll.run .lenient (Cursor.start respaced)) ∧
    (triesAll.run .lenient (Cursor.start respaced)).ending = .unmatched .drop ∧
    (triesAll.run .lenient (Cursor.start .spaced)).cursor.index = 0 ∧
    (triesAll.run .lenient (Cursor.start respaced)).cursor.index = 1 := by
  have hst : Token.significant Stream.spaced.tokens = Token.significant respaced.tokens := by
    decide
  have hp : ∀ stops, Call.joinUntil stops ∈ triesAll.calls → Token.Kind.blank ∉ stops := by
    intro stops hstops
    simp only [triesAll, calls, List.mem_append, List.mem_cons, List.not_mem_nil, reduceCtorEq,
      Call.joinUntil.injEq, false_or, or_false] at hstops
    rcases hstops with rfl | rfl <;> decide
  obtain ⟨-, hrun⟩ := run_sameView hst triesAll hp .lenient
  exact ⟨hst, hp, hrun, by decide, by decide, by decide⟩

end Script

end DocCursor
