import DocCursor.Proofs.Effect
import DocCursor.Proofs.Simulation

/-!
# Positions shifted

Two streams, the second with the token kinds that the first has from some index on.
A cursor on the first that is that much further on than one on the second moves in
step with it: only kinds decide where a cursor goes. What the two read may differ in
its texts, so that a simulation between them has to say what answers and failures
have in common. One case is a stream with other tokens put in front: there the texts
are the same, and only positions differ, an index by the number of these tokens and
an offset by the width of their text.
-/

namespace DocCursor

variable {s t : Stream} {n : Nat} {before : List Token} {α : Type}

/-! ## Streams of the same kinds -/

theorem Token.length_takeWhile_eq_of_kinds {ts us : List Token} (p : Token.Kind → Bool)
    (h : ts.map Token.kind = us.map Token.kind) :
    (ts.takeWhile fun t => p t.kind).length = (us.takeWhile fun t => p t.kind).length := by
  have hlength (vs : List Token) :
      (vs.takeWhile fun t => p t.kind).length = ((vs.map Token.kind).takeWhile p).length := by
    rw [List.takeWhile_map, List.length_map]
    rfl
  rw [hlength, h, hlength]

namespace Stream

/-- From index `n` on, `s` has the token kinds of `t`. -/
def KindsFrom (n : Nat) (s t : Stream) : Prop :=
  (s.tokens.drop n).map Token.kind = t.tokens.map Token.kind

namespace KindsFrom

theorem map_kind_drop (h : KindsFrom n s t) (i : Nat) :
    (s.tokens.drop (n + i)).map Token.kind = (t.tokens.drop i).map Token.kind := by
  rw [← List.drop_drop, List.map_drop, h, List.map_drop]

theorem map_kind_get? (h : KindsFrom n s t) (i : Nat) :
    (s.get? (n + i)).map Token.kind = (t.get? i).map Token.kind := by
  have hhead := congrArg List.head? (h.map_kind_drop i)
  rwa [List.head?_map, List.head?_drop, List.head?_map, List.head?_drop] at hhead

theorem endIndex_eq (h : KindsFrom n s t) : s.endIndex = n + t.endIndex := by
  have hlength := congrArg List.length h
  rw [List.length_map, List.length_drop, List.length_map] at hlength
  -- There is a token in `t`, so that `s` is not shorter than `n`.
  have ht := List.length_pos_iff.mpr t.tokens_ne_nil
  simp only [endIndex, size]
  omega

end KindsFrom

end Stream

/-! ## Cursors in step -/

namespace Cursor

/-- The cursor on `s` that is `n` further on than this one, also at its save points. -/
def shift (s : Stream) (n : Nat) (d : Cursor t) : Cursor s :=
  ⟨n + d.index, d.saved.map (n + ·)⟩

theorem kind_current_shift (h : s.KindsFrom n t) (d : Cursor t) :
    (d.shift s n).current.kind = d.current.kind := by
  have hkind := congrArg (·.getD Token.endMark.kind) (h.map_kind_get? d.index)
  rwa [Option.getD_map, Option.getD_map] at hkind

theorem answers_current_shift (h : s.KindsFrom n t) (d : Cursor t) (q : Token.Query)
    (htext : ∀ text, q = .text text → (d.shift s n).current.text = d.current.text) :
    (d.shift s n).current.answers q = d.current.answers q := by
  cases q with
  | kind kind => rw [Token.answers, kind_current_shift h, Token.answers]
  | text text => rw [Token.answers, htext text rfl, Token.answers]

theorem map_kind_prev?_shift (h : s.KindsFrom n t) {d : Cursor t} (hd : d.index ≠ 0) :
    (d.shift s n).prev?.map Token.kind = d.prev?.map Token.kind := by
  obtain ⟨i, saved⟩ := d
  cases i with
  | zero => exact (hd rfl).elim
  | succ i => exact h.map_kind_get? i

theorem skipBlank_shift (h : s.KindsFrom n t) (d : Cursor t) :
    (d.shift s n).skipBlank = d.skipBlank.shift s n := by
  rw [skipBlank, Token.isBlank, kind_current_shift h, ← Token.isBlank, skipBlank]
  split <;> rfl

theorem next_shift (h : s.KindsFrom n t) (d : Cursor t) :
    (d.shift s n).next = d.next.shift s n := by
  have hiff : (d.shift s n).index < s.endIndex ↔ d.index < t.endIndex := by
    rw [h.endIndex_eq]
    exact Nat.add_lt_add_iff_left
  by_cases hlt : d.index < t.endIndex
  · rw [next_of_lt_endIndex (hiff.mpr hlt), next_of_lt_endIndex hlt]
    exact skipBlank_shift h ⟨d.index + 1, d.saved⟩
  · rw [next_of_endIndex_le (Nat.le_of_not_lt (mt hiff.mp hlt)),
      next_of_endIndex_le (Nat.le_of_not_lt hlt)]

theorem joinUntil_shift (h : s.KindsFrom n t) (d : Cursor t) (stops : List Token.Kind) :
    ((d.shift s n).joinUntil stops).2 = (d.joinUntil stops).2.shift s n := by
  have hlength : ((d.shift s n).stretch stops).length = (d.stretch stops).length :=
    Token.length_takeWhile_eq_of_kinds (fun kind => !decide (kind = .endOfInput) && kind ∉ stops)
      (h.map_kind_drop d.index)
  rw [joinUntil, hlength, shift, Nat.add_assoc]
  rfl

/-- A start is clamped in both streams or in neither. -/
theorem ofIndex_shift (h : s.KindsFrom n t) (i : Nat) :
    ofIndex s (n + i) = (ofIndex t i).shift s n := by
  rw [ofIndex, h.endIndex_eq, Nat.add_min_add_left]
  exact skipBlank_shift h ⟨min i t.endIndex, []⟩

end Cursor

/-! ## Runs in step -/

/-- Whether a call asks for a token by its text. -/
def Call.asksText : Call → Bool
  | acceptText _ => true
  | isText _ => true
  | _ => false

/-- What cursors in step answer and report, in terms of a relation for each. -/
structure ReadInStep (n : Nat) (s t : Stream) (A : Answer → Answer → Prop)
    (F : Failure → Failure → Prop) : Prop where
  nothing : A .nothing .nothing
  truth : ∀ b, A (.truth b) (.truth b)
  token : ∀ d : Cursor t, A (.token (d.shift s n).current) (.token d.current)
  text : ∀ (d : Cursor t) (stops : List Token.Kind),
    A (.text ((d.shift s n).joinUntil stops).1) (.text (d.joinUntil stops).1)
  mismatch : ∀ (d : Cursor t) (kind : Token.Kind),
    F (.mismatch ((d.shift s n).mismatch kind)) (.mismatch (d.mismatch kind))
  custom : ∀ message, F (.custom message) (.custom message)

theorem simulates_shift {A : Answer → Answer → Prop} {F : Failure → Failure → Prop}
    {allowed : Call → Prop} (h : s.KindsFrom n t) (hread : ReadInStep n s t A F)
    (hbrackets : ∀ a : Call, a.isBracket = true → allowed a)
    (htexts : ∀ a, allowed a → a.asksText = true →
      ∀ d : Cursor t, (d.shift s n).current.text = d.current.text) :
    Simulates (fun (c : Cursor s) (d : Cursor t) => c = d.shift s n) A F allowed where
  brackets := hbrackets
  perform := by
    rintro a ha - d rfl
    have hkind := Cursor.kind_current_shift h d
    have hnext := Cursor.next_shift h d
    cases a with
    | next => exact ⟨.done hread.nothing, hnext⟩
    | expect kind =>
        rw [Call.perform_expect, Call.perform_expect, hkind]
        split
        · exact ⟨.done hread.nothing, hnext⟩
        · exact ⟨.failed (hread.mismatch d kind), rfl⟩
    | accept q =>
        have hanswers := Cursor.answers_current_shift h d q fun text hq => htexts _ ha (hq ▸ rfl) d
        rw [Call.perform_accept, Call.perform_accept, hanswers]
        split
        · exact ⟨.done (hread.truth true), hnext⟩
        · exact ⟨.done (hread.truth false), rfl⟩
    | isAt q =>
        have hanswers := Cursor.answers_current_shift h d q fun text hq => htexts _ ha (hq ▸ rfl) d
        simp only [Call.perform, Cursor.isAt, hanswers, and_true]
        exact .done (hread.truth _)
    | current => exact ⟨.done (hread.token d), rfl⟩
    | joinUntil stops => exact ⟨.done (hread.text d stops), Cursor.joinUntil_shift h d stops⟩
    | push => exact ⟨.done hread.nothing, rfl⟩
    | release r =>
        obtain ⟨i, saved⟩ := d
        cases saved with
        | nil => cases r <;> exact ⟨.unmatched _, rfl⟩
        | cons j saved => cases r <;> exact ⟨.done hread.nothing, rfl⟩
    | fail message => exact ⟨.failed (hread.custom message), rfl⟩

/-! ## Tokens put in front -/

namespace Stream

/-- The tokens of `s` are those of `t` with some others in front. -/
def InFront (before : List Token) (s t : Stream) : Prop := s.tokens = before ++ t.tokens

namespace InFront

theorem kindsFrom (h : InFront before s t) : s.KindsFrom before.length t := by
  rw [KindsFrom, h, List.drop_left]

theorem get?_eq (h : InFront before s t) (i : Nat) : s.get? (before.length + i) = t.get? i := by
  rw [get?, h, List.getElem?_append_right (Nat.le_add_right _ _), Nat.add_sub_cancel_left, get?]

end InFront

end Stream

namespace Cursor

theorem current_shift (h : Stream.InFront before s t) (d : Cursor t) :
    (d.shift s before.length).current = d.current :=
  congrArg (·.getD Token.endMark) (h.get?_eq d.index)

theorem prev?_shift (h : Stream.InFront before s t) {d : Cursor t} (hd : d.index ≠ 0) :
    (d.shift s before.length).prev? = d.prev? := by
  obtain ⟨i, saved⟩ := d
  cases i with
  | zero => exact (hd rfl).elim
  | succ i => exact h.get?_eq i

theorem offset_shift (h : Stream.InFront before s t) (d : Cursor t) :
    (d.shift s before.length).offset = Token.sourceWidth before + d.offset := by
  rw [offset, h, shift, List.take_length_add_append, Token.sourceWidth_append, offset]

theorem stretch_shift (h : Stream.InFront before s t) (d : Cursor t) (stops : List Token.Kind) :
    (d.shift s before.length).stretch stops = d.stretch stops := by
  rw [stretch, h, shift, List.drop_length_add_append, stretch]

/-- The same place, in a stream with these tokens in front. -/
structure Shifted (before : List Token) (c : Cursor s) (d : Cursor t) : Prop where
  index : c.index = before.length + d.index
  saved : c.saved = d.saved.map (before.length + ·)
  offset : c.offset = Token.sourceWidth before + d.offset
  current : c.current = d.current
  atEnd : c.atEnd = d.atEnd
  depth : c.depth = d.depth
  prev? : d.index ≠ 0 → c.prev? = d.prev? ∧ c.afterBlank = d.afterBlank

theorem shifted_shift (h : Stream.InFront before s t) (d : Cursor t) :
    (d.shift s before.length).Shifted before d where
  index := rfl
  saved := rfl
  offset := offset_shift h d
  current := current_shift h d
  atEnd := congrArg Token.isEnd (current_shift h d)
  depth := List.length_map _
  prev? hd := ⟨prev?_shift h hd, congrArg (·.any Token.isBlank) (prev?_shift h hd)⟩

end Cursor

/-- The same failure, with the offset of a mismatch behind the text of these tokens. -/
inductive Failure.Shifted (before : List Token) : Failure → Failure → Prop where
  | mismatch {m m' : Mismatch}
      (h : m = { m' with offset := Token.sourceWidth before + m'.offset }) :
      Shifted before (.mismatch m) (.mismatch m')
  | custom (message : String) : Shifted before (.custom message) (.custom message)

theorem readInStep_inFront (h : Stream.InFront before s t) :
    ReadInStep before.length s t Eq (Failure.Shifted before) where
  nothing := rfl
  truth _ := rfl
  token d := congrArg Answer.token (Cursor.current_shift h d)
  text d stops := by rw [Cursor.joinUntil, Cursor.stretch_shift h, Cursor.joinUntil]
  mismatch d kind := by
    apply Failure.Shifted.mismatch
    rw [Cursor.mismatch, Cursor.current_shift h, Cursor.offset_shift h, Cursor.mismatch]
  custom message := .custom message

theorem simulates_inFront (h : Stream.InFront before s t) :
    Simulates (fun (c : Cursor s) (d : Cursor t) => c = d.shift s before.length) Eq
      (Failure.Shifted before) fun _ => True := by
  apply simulates_shift h.kindsFrom (readInStep_inFront h)
  · exact fun _ _ => trivial
  · exact fun _ _ _ d => congrArg Token.text (Cursor.current_shift h d)

namespace Script

/-- What stands in front of a start does not matter. Where a list is a stream also
with other tokens in front, a script does there what it does without them, from a
start that is as much further on: step by step all positions are shifted by what is
in front, and nothing else differs, but for what the very first token comes after. -/
theorem run_shifted (before : List Token) (s t : Stream)
    (h : Stream.ofTokens (before ++ t.tokens) = .ok s) (i : Nat) (p : Script α) (mode : Mode) :
    (Cursor.ofIndex s (before.length + i)).Shifted before (Cursor.ofIndex t i) ∧
    (p.run mode (Cursor.ofIndex s (before.length + i))).Alike (Cursor.Shifted before) Eq
      (Failure.Shifted before) (p.run mode (Cursor.ofIndex t i)) := by
  have hfront : Stream.InFront before s t := Stream.ofTokens_eq_ok_iff.mp h
  have hstart := Cursor.ofIndex_shift hfront.kindsFrom i
  have hrun := (simulates_inFront hfront).run_alike p (fun _ _ => trivial) mode hstart
  refine ⟨?_, hrun.mono fun c d hcd => ?_⟩
  · rw [hstart]
    exact Cursor.shifted_shift hfront _
  · rw [hcd]
    exact Cursor.shifted_shift hfront d

def inFront : List Token := [⟨.namedVariable, "é"⟩, ⟨.blank, " "⟩]

def fronted : Stream :=
  ⟨inFront ++ Stream.spaced.tokens, Stream.defect?_eq_none_iff.mp (by decide)⟩

/-- An attempt that fails behind a join onto a blank, a copy, a mismatch at the
start, and a release too many. -/
def straysOff : Script Unit :=
  .call .push false <|
    .attempt (.call (.joinUntil [.blank]) false <| .call (.expect .colon) false .done) true <|
    .fork (.call .next false <| .call (.release .rollback) false .done) <|
    .call (.expect .colon) false <| .call (.release .drop) false <|
    .call (.release .drop) false .done

theorem run_shifted_straysOff :
    Stream.ofTokens (inFront ++ Stream.spaced.tokens) = .ok fronted ∧
    (Cursor.ofIndex fronted 2).Shifted inFront (Cursor.ofIndex .spaced 0) ∧
    (straysOff.run .lenient (Cursor.ofIndex fronted 2)).Alike (Cursor.Shifted inFront) Eq
      (Failure.Shifted inFront) (straysOff.run .lenient (Cursor.ofIndex .spaced 0)) ∧
    (straysOff.run .lenient (Cursor.ofIndex .spaced 0)).ending = .unmatched .drop ∧
    (Cursor.ofIndex .spaced 0).expect .colon = .error ⟨"a", .identifier, .colon, 0⟩ ∧
    (Cursor.ofIndex fronted 2).expect .colon = .error ⟨"a", .identifier, .colon, 3⟩ := by
  have htokens : Stream.ofTokens (inFront ++ Stream.spaced.tokens) = .ok fronted :=
    Stream.ofTokens_eq_ok_iff.mpr rfl
  obtain ⟨hstart, hrun⟩ := run_shifted inFront fronted .spaced htokens 0 straysOff .lenient
  exact ⟨htokens, hstart, hrun, by decide, rfl, rfl⟩

end Script

end DocCursor
