import DocCursor.Proofs.FirstDefect
import DocCursor.Proofs.Shift

/-!
# Kinds alone

Texts decide neither what becomes of a token list nor where a cursor goes. Lists
of the same kinds are both streams, or are refused for the same defect, and on two
such streams a script that does not ask for a text takes the same way.
-/

namespace DocCursor

variable {s t : Stream} {ts us : List Token} {α : Type}

/-! ## Lists of the same kinds -/

namespace Stream

theorem kindAt?_eq_of_kinds (h : ts.map Token.kind = us.map Token.kind) :
    kindAt? ts = kindAt? us := by
  funext i
  rw [kindAt?, ← List.getElem?_map, h, List.getElem?_map, kindAt?]

theorem defect?_eq_of_kinds (h : ts.map Token.kind = us.map Token.kind) :
    defect? ts = defect? us := by
  have hkinds := kindAt?_eq_of_kinds h
  have hlength : ts.length = us.length := by
    rw [← List.length_map Token.kind, h, List.length_map]
  have hnil : ts = [] ↔ us = [] := by
    rw [← List.map_eq_nil_iff, h, List.map_eq_nil_iff]
  apply Option.ext
  intro d
  rw [defect?_eq_some_iff, defect?_eq_some_iff]
  cases d <;> simp only [FirstDefect, MarkAt, BlanksMeetAt, hkinds, hlength, hnil]

/-- Two streams, or twice the same defect. -/
theorem ofTokens_of_kinds (h : ts.map Token.kind = us.map Token.kind) :
    (∃ d, ofTokens ts = .error d ∧ ofTokens us = .error d) ∨
      ∃ s t, ofTokens ts = .ok s ∧ ofTokens us = .ok t := by
  have hdefect := defect?_eq_of_kinds h
  cases hts : defect? ts with
  | some d =>
      have hus := hdefect.symm.trans hts
      exact Or.inl ⟨d, ofTokens_eq_error_iff.mpr hts, ofTokens_eq_error_iff.mpr hus⟩
  | none =>
      obtain ⟨s, hs⟩ := exists_ofTokens_eq_ok_iff.mpr hts
      obtain ⟨t, ht⟩ := exists_ofTokens_eq_ok_iff.mpr (hdefect.symm.trans hts)
      exact Or.inr ⟨s, t, hs, ht⟩

end Stream

/-! ## What is seen without texts -/

/-- Cursors at one place, on tokens of one kind and behind tokens of one kind. -/
structure Cursor.SameKinds (c : Cursor s) (d : Cursor t) : Prop where
  index : c.index = d.index
  saved : c.saved = d.saved
  current : c.current.kind = d.current.kind
  prev? : c.prev?.map Token.kind = d.prev?.map Token.kind
  atEnd : c.atEnd = d.atEnd
  afterBlank : c.afterBlank = d.afterBlank
  depth : c.depth = d.depth

theorem Cursor.afterBlank_eq_any (c : Cursor s) :
    c.afterBlank = (c.prev?.map Token.kind).any Token.Kind.isBlank := by
  rw [Option.any_map]
  rfl

theorem Cursor.sameKinds_shift_zero (h : s.KindsFrom 0 t) (d : Cursor t) :
    (d.shift s 0).SameKinds d := by
  have hindex : (d.shift s 0).index = d.index := Nat.zero_add d.index
  have hkind := kind_current_shift h d
  have hprev : (d.shift s 0).prev?.map Token.kind = d.prev?.map Token.kind := by
    by_cases hd : d.index = 0
    · rw [Cursor.prev?, hindex, hd, Cursor.prev?, hd]
    · exact map_kind_prev?_shift h hd
  refine ⟨hindex, ?_, hkind, hprev, ?_, ?_, List.length_map _⟩
  · simp only [shift, Nat.zero_add, List.map_id']
  · rw [atEnd, Token.isEnd, hkind]
    rfl
  · rw [afterBlank_eq_any, hprev, ← afterBlank_eq_any]

/-- Answers of one form, with the same truth value or the same kind of token. -/
inductive Answer.SameKinds : Answer → Answer → Prop where
  | nothing : SameKinds .nothing .nothing
  | truth (b : Bool) : SameKinds (.truth b) (.truth b)
  | token {u v : Token} (h : u.kind = v.kind) : SameKinds (.token u) (.token v)
  | text (joined joined' : String) : SameKinds (.text joined) (.text joined')

/-- The same failure, but for the found text of a mismatch and its offset. -/
inductive Failure.SameKinds : Failure → Failure → Prop where
  | mismatch {m m' : Mismatch} (hfound : m.foundKind = m'.foundKind)
      (hexpected : m.expected = m'.expected) : SameKinds (.mismatch m) (.mismatch m')
  | custom (message : String) : SameKinds (.custom message) (.custom message)

theorem readInStep_sameKinds (h : s.KindsFrom 0 t) :
    ReadInStep 0 s t Answer.SameKinds Failure.SameKinds where
  nothing := .nothing
  truth b := .truth b
  token d := .token (Cursor.kind_current_shift h d)
  text _ _ := .text _ _
  mismatch d _ := .mismatch (Cursor.kind_current_shift h d) rfl
  custom message := .custom message

theorem simulates_sameKinds (h : s.KindsFrom 0 t) :
    Simulates (fun (c : Cursor s) (d : Cursor t) => c = d.shift s 0) Answer.SameKinds
      Failure.SameKinds fun a => a.asksText = false := by
  apply simulates_shift h (readInStep_sameKinds h)
  · intro a ha
    cases a with
    | push => rfl
    | release r => rfl
    | _ => cases ha
  · intro a hblind hasks
    cases hblind.symm.trans hasks

namespace Script

theorem run_sameKinds (h : s.KindsFrom 0 t) (i : Nat) (p : Script α)
    (hp : ∀ a ∈ p.calls, a.asksText = false) (mode : Mode) :
    (Cursor.ofIndex s i).SameKinds (Cursor.ofIndex t i) ∧
    (p.run mode (Cursor.ofIndex s i)).Alike Cursor.SameKinds Answer.SameKinds Failure.SameKinds
      (p.run mode (Cursor.ofIndex t i)) := by
  have hstart := Cursor.ofIndex_shift h i
  rw [Nat.zero_add] at hstart
  have hrun := (simulates_sameKinds h).run_alike p hp mode hstart
  refine ⟨?_, hrun.mono fun c d hcd => ?_⟩
  · rw [hstart]
    exact Cursor.sameKinds_shift_zero h _
  · rw [hcd]
    exact Cursor.sameKinds_shift_zero h d

/-- Where a script goes depends on kinds alone. Two lists of the same kinds have the
same first defect or are both streams, and on these a script that asks for no token
by its text does the same from every start, step by step, but for what texts it is
shown. -/
theorem ofTokens_run_sameKinds (ts us : List Token)
    (h : ts.map Token.kind = us.map Token.kind) :
    (∃ d, Stream.ofTokens ts = .error d ∧ Stream.ofTokens us = .error d) ∨
    ∃ s t, Stream.ofTokens ts = .ok s ∧ Stream.ofTokens us = .ok t ∧
      ∀ (β : Type) (p : Script β), (∀ a ∈ p.calls, a.asksText = false) →
        ∀ (i : Nat) (mode : Mode),
          (Cursor.ofIndex s i).SameKinds (Cursor.ofIndex t i) ∧
          (p.run mode (Cursor.ofIndex s i)).Alike Cursor.SameKinds Answer.SameKinds
            Failure.SameKinds (p.run mode (Cursor.ofIndex t i)) := by
  refine (Stream.ofTokens_of_kinds h).imp_right ?_
  rintro ⟨s, t, hs, ht⟩
  have hkinds : s.KindsFrom 0 t := by
    rw [Stream.KindsFrom, List.drop_zero, Stream.ofTokens_eq_ok_iff.mp hs,
      Stream.ofTokens_eq_ok_iff.mp ht]
    exact h
  exact ⟨s, t, hs, ht, fun β p hp i mode => p.run_sameKinds hkinds i hp mode⟩

/-- The kinds of `Stream.spaced` under other texts: one empty, one like another
token, and one on the end mark. -/
def retold : Stream :=
  ⟨[⟨.identifier, ""⟩, ⟨.blank, "é"⟩, ⟨.comma, " "⟩, ⟨.endOfInput, ","⟩],
    Stream.defect?_eq_none_iff.mp (by decide)⟩

theorem ofTokens_run_sameKinds_retold :
    Stream.spaced.tokens.map Token.kind = retold.tokens.map Token.kind ∧
    (∀ a ∈ straysOff.calls, a.asksText = false) ∧
    (straysOff.run .lenient (Cursor.ofIndex .spaced 0)).Alike Cursor.SameKinds Answer.SameKinds
      Failure.SameKinds (straysOff.run .lenient (Cursor.ofIndex retold 0)) ∧
    (straysOff.run .lenient (Cursor.ofIndex retold 0)).ending = .unmatched .drop ∧
    (Cursor.ofIndex .spaced 0).expect .colon = .error ⟨"a", .identifier, .colon, 0⟩ ∧
    (Cursor.ofIndex retold 0).expect .colon = .error ⟨"", .identifier, .colon, 0⟩ := by
  have hkinds : Stream.spaced.tokens.map Token.kind = retold.tokens.map Token.kind := rfl
  have hblind : ∀ a ∈ straysOff.calls, a.asksText = false := by decide
  have hspaced : Stream.ofTokens Stream.spaced.tokens = .ok .spaced :=
    Stream.ofTokens_eq_ok_iff.mpr rfl
  have hretold : Stream.ofTokens retold.tokens = .ok retold := Stream.ofTokens_eq_ok_iff.mpr rfl
  obtain ⟨d, herror, -⟩ | ⟨s, t, hs, ht, hruns⟩ :=
    ofTokens_run_sameKinds Stream.spaced.tokens retold.tokens hkinds
  · cases hspaced.symm.trans herror
  · cases hspaced.symm.trans hs
    cases hretold.symm.trans ht
    obtain ⟨-, hrun⟩ := hruns Unit straysOff hblind 0 .lenient
    exact ⟨hkinds, hblind, hrun, by decide, rfl, rfl⟩

end Script

end DocCursor
