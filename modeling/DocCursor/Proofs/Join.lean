import DocCursor.Proofs.Offset
import Mathlib.Data.List.TakeWhile
import Mathlib.Order.Bounds.Defs

/-!
# Joins from end to end

A join is a loop with no bound of its own: it takes the text of one raw token
after another and stops on the first that is the end mark or of a kind given.
It ends because the mark is there to be met. Of the kinds given only the set
matters, and whether the mark is among them does not matter at all.
-/

namespace DocCursor

/-- A loop around a body that either asks for another turn or ends it. The list
holds the states in which another turn was asked for, oldest first. -/
inductive Loop.Ends {σ : Type} (body : σ → ForInStep σ) : σ → List σ → σ → Prop where
  | done {x y : σ} (h : body x = .done y) : Ends body x [] y
  | yield {x y z : σ} {turns : List σ} (h : body x = .yield y) (rest : Ends body y turns z) :
      Ends body x (x :: turns) z

variable {s : Stream} {α : Type}

/-! ## Tokens between two indices -/

namespace Stream

variable {i j : Nat}

/-- The raw tokens from one index up to another. -/
def between (s : Stream) (i j : Nat) : List Token := (s.tokens.drop i).take (j - i)

theorem mem_between_iff {t : Token} :
    t ∈ s.between i j ↔ ∃ k, i ≤ k ∧ k < j ∧ s.get? k = some t := by
  rw [between, List.mem_iff_getElem?]
  constructor
  · rintro ⟨n, hn⟩
    rw [List.getElem?_take, List.getElem?_drop] at hn
    split at hn
    · exact ⟨i + n, by omega, by omega, hn⟩
    · cases hn
  · rintro ⟨k, hik, hkj, ht⟩
    refine ⟨k - i, ?_⟩
    rw [List.getElem?_take_of_lt (by omega), List.getElem?_drop, Nat.add_sub_cancel' hik]
    exact ht

/-- A token at which a join over these kinds stops stands at this index. -/
def StopsAt (s : Stream) (stops : List Token.Kind) (i : Nat) : Prop :=
  ∃ t, s.get? i = some t ∧ Cursor.Stops stops t

end Stream

namespace Cursor

variable {c : Cursor s} {stops : List Token.Kind}

theorem goesOn_iff {t : Token} : goesOn stops t = true ↔ ¬Stops stops t := by
  simp [goesOn, Stops, Token.isEnd]

theorem between_joinUntil (c : Cursor s) (stops : List Token.Kind) :
    s.between c.index (c.joinUntil stops).2.index = c.stretch stops := by
  rw [Stream.between, index_joinUntil, Nat.add_sub_cancel_left, take_length_stretch]

theorem not_stops_of_mem_stretch {t : Token} (h : t ∈ c.stretch stops) : ¬Stops stops t :=
  goesOn_iff.mp (List.mem_takeWhile_imp h)

/-- A join passes over everything before the first token that stops it. -/
theorem isLeast_joinUntil (stops : List Token.Kind) (h : c.index ≤ s.endIndex) :
    IsLeast {j | c.index ≤ j ∧ s.StopsAt stops j} (c.joinUntil stops).2.index := by
  constructor
  · exact ⟨Nat.le_add_right _ _, _, get?_index (index_joinUntil_le stops h),
      stops_current_joinUntil stops h⟩
  · rintro j ⟨hle, t, ht, hstop⟩
    by_contra hlt
    have hmem : t ∈ s.between c.index (c.joinUntil stops).2.index :=
      Stream.mem_between_iff.mpr ⟨j, hle, Nat.lt_of_not_le hlt, ht⟩
    rw [between_joinUntil] at hmem
    exact not_stops_of_mem_stretch hmem hstop

/-- A second join has nothing left to take. -/
theorem joinUntil_joinUntil_self (stops : List Token.Kind) (h : c.index ≤ s.endIndex) :
    (c.joinUntil stops).2.joinUntil stops = ("", (c.joinUntil stops).2) :=
  joinUntil_of_stops (get?_index (index_joinUntil_le stops h)) (stops_current_joinUntil stops h)

/-- The end mark stops a join anyway, so that only the other kinds count. -/
theorem joinUntil_congr {stops' : List Token.Kind}
    (hkinds : ∀ kind, kind ≠ .endOfInput → (kind ∈ stops' ↔ kind ∈ stops)) (c : Cursor s) :
    c.joinUntil stops' = c.joinUntil stops := by
  have hgoes : goesOn stops' = goesOn stops := by
    funext t
    by_cases hend : t.kind = .endOfInput
    · simp [goesOn, Token.isEnd, hend]
    · simp [goesOn, hkinds t.kind hend]
  have hstretch : c.stretch stops' = c.stretch stops :=
    congrArg (fun p => (s.tokens.drop c.index).takeWhile p) hgoes
  rw [joinUntil, joinUntil, hstretch]

/-! ## The loop of a join -/

/-- One turn of a join: take the text of the current token and step on by one,
unless it is a token to stop on. -/
def joinTurn (stops : List Token.Kind) : String × Cursor s → ForInStep (String × Cursor s)
  | (joined, c) =>
      if !c.atEnd && c.current.kind ∉ stops then
        .yield (joined ++ c.current.text, { c with index := c.index + 1 })
      else .done (joined, c)

theorem joinTurn_of_stops (joined : String) (h : Stops stops c.current) :
    joinTurn stops (joined, c) = .done (joined, c) :=
  if_neg (mt goesOn_iff.mp (not_not_intro h))

theorem joinTurn_of_not_stops (joined : String) (h : ¬Stops stops c.current) :
    joinTurn stops (joined, c) =
      .yield (joined ++ c.current.text, { c with index := c.index + 1 }) :=
  if_pos (goesOn_iff.mpr h)

/-- The loop ends, with a turn for every token of the stretch. -/
theorem exists_ends_joinTurn (stops : List Token.Kind) (joined : String)
    (h : c.index ≤ s.endIndex) :
    ∃ turns, Loop.Ends (joinTurn stops) (joined, c) turns
        (joined ++ (c.joinUntil stops).1, (c.joinUntil stops).2) ∧
      turns.map (fun turn => turn.2.current) = c.stretch stops := by
  -- The text grows from turn to turn, so the fact is about any text to begin with.
  induction c, h using onward_induction generalizing joined with
  | step c h ih =>
      have ht := get?_index h
      by_cases hstop : Stops stops c.current
      · rw [joinUntil_of_stops ht hstop, stretch_of_stops ht hstop, String.append_empty]
        exact ⟨[], .done (joinTurn_of_stops joined hstop), rfl⟩
      · obtain ⟨turns, hends, htokens⟩ :=
          ih ⟨c.index + 1, c.saved⟩ (lt_endIndex_of_not_stops ht hstop)
            (Nat.lt_succ_self c.index) (joined ++ c.current.text)
        rw [joinUntil_of_not_stops ht hstop, stretch_of_not_stops ht hstop, ← htokens,
          ← String.append_assoc]
        exact ⟨(joined, c) :: turns, .yield (joinTurn_of_not_stops joined hstop) hends, rfl⟩

/-- What a join over some kinds makes of a cursor: the joined text, and the
cursor that it leaves. -/
structure Joins (c : Cursor s) (stops : List Token.Kind) (joined : String) (d : Cursor s) :
    Prop where
  ends : ∃ turns, Loop.Ends (joinTurn stops) ("", c) turns (joined, d) ∧
    turns.map (fun turn => turn.2.current) = s.between c.index d.index
  isLeast : IsLeast {j | c.index ≤ j ∧ s.StopsAt stops j} d.index
  text : joined = Token.source (s.between c.index d.index)
  unmarked : ∀ t ∈ s.between c.index d.index, t.kind ≠ .endOfInput
  offset : d.offset = c.offset + joined.utf8ByteSize
  saved : d.saved = c.saved

theorem joins_joinUntil (stops : List Token.Kind) (h : c.index ≤ s.endIndex) :
    c.Joins stops (c.joinUntil stops).1 (c.joinUntil stops).2 where
  ends := by
    rw [between_joinUntil]
    have hends := exists_ends_joinTurn stops "" h
    rwa [String.empty_append] at hends
  isLeast := isLeast_joinUntil stops h
  text := by
    rw [between_joinUntil]
    rfl
  unmarked := by
    rw [between_joinUntil]
    exact fun t ht hend => not_stops_of_mem_stretch ht (Or.inl hend)
  offset := c.offset_joinUntil stops
  saved := c.saved_joinUntil stops

end Cursor

namespace Script

/-- Wherever a run has led a cursor, and whatever kinds it is given, a join ends,
on the first token that stops it, with the text of all tokens before that one. A
second join changes nothing, and nor does another list of the same kinds. -/
theorem joinUntil_to_first_stop (s : Stream) (i : Nat) (p : Script α) :
    ∀ m ∈ p.moments (Cursor.ofIndex s i), ∀ stops,
      m.cursor.Joins stops (m.cursor.joinUntil stops).1 (m.cursor.joinUntil stops).2 ∧
      (m.cursor.joinUntil stops).2.joinUntil stops = ("", (m.cursor.joinUntil stops).2) ∧
      ∀ stops', (∀ kind, kind ≠ .endOfInput → (kind ∈ stops' ↔ kind ∈ stops)) →
        m.cursor.joinUntil stops' = m.cursor.joinUntil stops := by
  intro m hm stops
  have hindex := (p.inRange_of_mem_moments i m hm).index_le
  exact ⟨Cursor.joins_joinUntil stops hindex, Cursor.joinUntil_joinUntil_self stops hindex,
    fun stops' hkinds => Cursor.joinUntil_congr hkinds m.cursor⟩

theorem joinUntil_to_first_stop_ontoBlank :
    ontoBlank ∈ joinsOntoBlank.moments (Cursor.ofIndex .accented 0) ∧
    ontoBlank.cursor.current.kind = .blank ∧
    ontoBlank.cursor.Joins [.comma] " " ⟨2, []⟩ ∧
    (⟨2, []⟩ : Cursor .accented).joinUntil [.comma] = ("", ⟨2, []⟩) ∧
    ontoBlank.cursor.joinUntil [.comma, .endOfInput, .comma] = (" ", ⟨2, []⟩) := by
  have hmem : ontoBlank ∈ joinsOntoBlank.moments (Cursor.ofIndex .accented 0) :=
    joinsOntoBlank.last_mem_reached .lenient (Moment.start (Cursor.ofIndex .accented 0))
  have hjoined : ontoBlank.cursor.joinUntil [.comma] = (" ", ⟨2, []⟩) := by decide
  have hkinds : ∀ kind : Token.Kind, kind ≠ .endOfInput →
      (kind ∈ [Token.Kind.comma, .endOfInput, .comma] ↔ kind ∈ [Token.Kind.comma]) := by
    intro kind hkind
    simp [hkind]
  obtain ⟨hjoins, hagain, hset⟩ :=
    joinUntil_to_first_stop .accented 0 joinsOntoBlank ontoBlank hmem [.comma]
  rw [hjoined] at hjoins hagain
  exact ⟨hmem, by decide, hjoins, hagain, (hset _ hkinds).trans hjoined⟩

end Script

end DocCursor
