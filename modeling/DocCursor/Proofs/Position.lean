import DocCursor.Proofs.Effect
import Mathlib.Tactic.ByContra

/-!
# Positions

Where the end mark and the blanks of a stream stand, and what the moves of a
cursor make of that. A move passes the token at the cursor and at most one
blank, so that it ends on no blank, and no call leads past the end mark.
-/

namespace DocCursor

namespace Stream

variable {s : Stream} {i : Nat} {t : Token}

theorem lt_size_of_get? (h : s.get? i = some t) : i < s.size := by
  obtain ⟨hi, -⟩ := List.getElem?_eq_some_iff.mp h
  exact hi

theorem le_endIndex_of_get? (h : s.get? i = some t) : i ≤ s.endIndex := by
  have hi := lt_size_of_get? h
  rw [← s.endIndex_add_one] at hi
  exact Nat.le_of_lt_succ hi

theorem exists_get?_of_le (h : i ≤ s.endIndex) : ∃ t, s.get? i = some t := by
  have hi : i < s.tokens.length := Nat.lt_of_le_of_lt h s.endIndex_lt_size
  exact ⟨s.tokens[i], List.getElem?_eq_getElem hi⟩

theorem kind_eq_endOfInput_iff (h : s.get? i = some t) :
    t.kind = .endOfInput ↔ i = s.endIndex := by
  constructor
  · intro hkind
    by_contra hne
    have hlt : i < s.tokens.length - 1 := by
      have hle := le_endIndex_of_get? h
      simp only [endIndex, size] at hle hne
      omega
    have hdrop : s.tokens.dropLast[i]? = some t := by
      rw [List.getElem?_dropLast, if_pos hlt]
      exact h
    exact s.wellFormed.marked_once t (List.mem_of_getElem? hdrop) hkind
  · rintro rfl
    obtain ⟨u, hlast, hend⟩ := s.wellFormed.ends_marked
    rw [List.getLast?_eq_getElem?] at hlast
    have htu : t = u := Option.some.inj (h.symm.trans hlast)
    rwa [htu]

/-- A token of the stream at this index is a blank. -/
def BlankAt (s : Stream) (i : Nat) : Prop := ∃ t, s.get? i = some t ∧ t.kind = .blank

theorem BlankAt.lt_endIndex (h : s.BlankAt i) : i < s.endIndex := by
  obtain ⟨t, ht, hblank⟩ := h
  have hne : i ≠ s.endIndex := by
    intro hi
    rw [(kind_eq_endOfInput_iff ht).mpr hi] at hblank
    cases hblank
  exact Nat.lt_of_le_of_ne (le_endIndex_of_get? ht) hne

theorem BlankAt.not_succ (h : s.BlankAt i) : ¬s.BlankAt (i + 1) := by
  rintro ⟨u, hu, hblank'⟩
  obtain ⟨t, ht, hblank⟩ := h
  obtain ⟨hi, rfl⟩ := List.getElem?_eq_some_iff.mp ht
  obtain ⟨hi', rfl⟩ := List.getElem?_eq_some_iff.mp hu
  exact s.wellFormed.blanks_apart i hi' ⟨hblank, hblank'⟩

/-! Streams for examples. -/

/-- Two tokens with a blank between them. -/
def spaced : Stream :=
  ⟨[⟨.identifier, "a"⟩, ⟨.blank, " "⟩, ⟨.comma, ","⟩, Token.endMark],
    defect?_eq_none_iff.mp (by decide)⟩

/-- A letter of two bytes before a blank. -/
def accented : Stream :=
  ⟨[⟨.identifier, "é"⟩, ⟨.blank, " "⟩, ⟨.comma, ","⟩, Token.endMark],
    defect?_eq_none_iff.mp (by decide)⟩

/-- Blanks of several widths, one of them in front. -/
def indented : Stream :=
  ⟨[⟨.blank, "\t"⟩, ⟨.identifier, "é"⟩, ⟨.blank, "  "⟩, ⟨.comma, ","⟩, ⟨.blank, " "⟩,
      ⟨.identifier, "b"⟩, Token.endMark],
    defect?_eq_none_iff.mp (by decide)⟩

end Stream

namespace Cursor

variable {s : Stream} {c : Cursor s}

theorem current_eq_of_get? {t : Token} (h : s.get? c.index = some t) : c.current = t := by
  simp [current, h]

theorem get?_index (h : c.index ≤ s.endIndex) : s.get? c.index = some c.current := by
  obtain ⟨t, ht⟩ := Stream.exists_get?_of_le h
  rw [ht, current_eq_of_get? ht]

theorem current_kind_eq_blank_iff : c.current.kind = .blank ↔ s.BlankAt c.index := by
  constructor
  · intro h
    cases ht : s.get? c.index with
    | none => simp [current, ht, Token.endMark] at h
    | some t => exact ⟨t, ht, current_eq_of_get? ht ▸ h⟩
  · rintro ⟨t, ht, hblank⟩
    rwa [current_eq_of_get? ht]

/-- A blank is followed by another token, so that one step gets past it. -/
theorem current_skipBlank_ne_blank (c : Cursor s) : c.skipBlank.current.kind ≠ .blank := by
  by_cases h : c.current.isBlank = true
  · rw [skipBlank_of_isBlank h, Ne, current_kind_eq_blank_iff]
    exact (current_kind_eq_blank_iff.mp (Token.isBlank_iff.mp h)).not_succ
  · have hblank : c.current.isBlank = false := by simpa using h
    rw [skipBlank_of_not_isBlank hblank]
    simpa using hblank

/-- What is the same before a blank and behind it stays the same where a blank is
skipped. -/
theorem apply_index_skipBlank {β : Type} {F : Nat → β}
    (hF : ∀ i, s.BlankAt i → F i = F (i + 1)) (c : Cursor s) : F c.skipBlank.index = F c.index := by
  by_cases h : c.current.isBlank = true
  · have hblank := current_kind_eq_blank_iff.mp (Token.isBlank_iff.mp h)
    rw [skipBlank_of_isBlank h]
    exact (hF c.index hblank).symm
  · rw [skipBlank_of_not_isBlank (Bool.eq_false_iff.mpr h)]

theorem current_ofIndex_ne_blank (s : Stream) (i : Nat) :
    (ofIndex s i).current.kind ≠ .blank :=
  current_skipBlank_ne_blank _

theorem current_next_ne_blank (c : Cursor s) : c.next.current.kind ≠ .blank := by
  by_cases h : c.index < s.endIndex
  · rw [next_of_lt_endIndex h]
    exact current_skipBlank_ne_blank _
  · rw [next_of_endIndex_le (Nat.not_lt.mp h), Ne, current_kind_eq_blank_iff]
    exact fun hblank => h hblank.lt_endIndex

/-- A step goes on by one, or over one blank. -/
theorem next_eq_or (h : c.index < s.endIndex) :
    c.next = ⟨c.index + 1, c.saved⟩ ∨
      ∃ t, s.get? (c.index + 1) = some t ∧ t.kind = .blank ∧ c.next = ⟨c.index + 2, c.saved⟩ := by
  rw [next_of_lt_endIndex h]
  by_cases hblank : (⟨c.index + 1, c.saved⟩ : Cursor s).current.isBlank = true
  · obtain ⟨t, ht, hkind⟩ := current_kind_eq_blank_iff.mp (Token.isBlank_iff.mp hblank)
    exact Or.inr ⟨t, ht, hkind, skipBlank_of_isBlank hblank⟩
  · exact Or.inl (skipBlank_of_not_isBlank (Bool.eq_false_iff.mpr hblank))

theorem index_lt_index_next (h : c.index < s.endIndex) : c.index < c.next.index := by
  obtain hnext | ⟨-, -, -, hnext⟩ := next_eq_or h
  · rw [hnext]
    exact Nat.lt_succ_self c.index
  · rw [hnext]
    exact Nat.lt_add_of_pos_right Nat.two_pos

/-- From a blank a step goes on by one, as no second blank follows. -/
theorem next_of_blank (h : c.current.kind = .blank) : c.next = ⟨c.index + 1, c.saved⟩ := by
  have hblank := current_kind_eq_blank_iff.mp h
  obtain hnext | ⟨t, ht, hkind, -⟩ := next_eq_or hblank.lt_endIndex
  · exact hnext
  · exact (hblank.not_succ ⟨t, ht, hkind⟩).elim

/-- Induction for what a cursor does on its way to the end mark: a fact about it
may rest on the same fact about every cursor further on. -/
@[elab_as_elim]
theorem onward_induction {motive : (c : Cursor s) → c.index ≤ s.endIndex → Prop}
    (step : ∀ (c : Cursor s) (h : c.index ≤ s.endIndex),
      (∀ (d : Cursor s) (hd : d.index ≤ s.endIndex), c.index < d.index → motive d hd) →
        motive c h)
    (c : Cursor s) (h : c.index ≤ s.endIndex) : motive c h := by
  obtain ⟨n, hn⟩ : ∃ n, s.endIndex - c.index = n := ⟨_, rfl⟩
  induction n using Nat.strongRecOn generalizing c with
  | ind n ih =>
      apply step
      intro d hd hlt
      exact ih (s.endIndex - d.index) (by omega) d hd rfl

/-! ## Stretches -/

/-- A token at which a stretch ends. -/
def Stops (stops : List Token.Kind) (t : Token) : Prop := t.kind = .endOfInput ∨ t.kind ∈ stops

theorem lt_endIndex_of_not_stops {stops : List Token.Kind} {t : Token}
    (ht : s.get? c.index = some t) (hstop : ¬Stops stops t) : c.index < s.endIndex := by
  apply Nat.lt_of_le_of_ne (Stream.le_endIndex_of_get? ht)
  intro hend
  exact hstop (Or.inl ((Stream.kind_eq_endOfInput_iff ht).mpr hend))

theorem take_length_stretch (c : Cursor s) (stops : List Token.Kind) :
    (s.tokens.drop c.index).take (c.stretch stops).length = c.stretch stops :=
  (List.prefix_iff_eq_take.mp (List.takeWhile_prefix _)).symm

theorem stretch_of_stops {stops : List Token.Kind} {t : Token} (ht : s.get? c.index = some t)
    (hstop : Stops stops t) : c.stretch stops = [] := by
  obtain ⟨hi, rfl⟩ := List.getElem?_eq_some_iff.mp ht
  rw [stretch, List.drop_eq_getElem_cons hi, List.takeWhile_cons_of_neg]
  rcases hstop with hend | hmem
  · simp [Token.isEnd, hend]
  · simp [hmem]

theorem stretch_of_not_stops {stops : List Token.Kind} {t : Token} (ht : s.get? c.index = some t)
    (hstop : ¬Stops stops t) :
    c.stretch stops = t :: (⟨c.index + 1, c.saved⟩ : Cursor s).stretch stops := by
  obtain ⟨hi, rfl⟩ := List.getElem?_eq_some_iff.mp ht
  simp only [Stops, not_or] at hstop
  rw [stretch, List.drop_eq_getElem_cons hi, List.takeWhile_cons_of_pos]
  · rfl
  · simp [Token.isEnd, hstop.1, hstop.2]

theorem joinUntil_of_stops {stops : List Token.Kind} {t : Token} (ht : s.get? c.index = some t)
    (hstop : Stops stops t) : c.joinUntil stops = ("", c) := by
  rw [joinUntil, stretch_of_stops ht hstop]
  rfl

theorem joinUntil_of_not_stops {stops : List Token.Kind} {t : Token}
    (ht : s.get? c.index = some t) (hstop : ¬Stops stops t) :
    c.joinUntil stops =
      (t.text ++ ((⟨c.index + 1, c.saved⟩ : Cursor s).joinUntil stops).1,
        ((⟨c.index + 1, c.saved⟩ : Cursor s).joinUntil stops).2) := by
  rw [joinUntil, stretch_of_not_stops ht hstop, List.length_cons, Nat.add_left_comm,
    Nat.add_comm _ (c.index + 1)]
  rfl

/-- The token behind a stretch is one that ends it. -/
theorem stops_of_get?_joinUntil (c : Cursor s) (stops : List Token.Kind) {t : Token}
    (ht : s.get? (c.joinUntil stops).2.index = some t) : Stops stops t := by
  have hsplit := List.takeWhile_append_dropWhile
    (p := fun t => !t.isEnd && t.kind ∉ stops) (l := s.tokens.drop c.index)
  have hhead := List.head?_dropWhile_not (fun t => !t.isEnd && t.kind ∉ stops)
    (s.tokens.drop c.index)
  have hdrop : (s.tokens.drop c.index)[(c.stretch stops).length]? = some t := by
    rw [List.getElem?_drop]
    exact ht
  rw [← hsplit, stretch, List.getElem?_append_right (Nat.le_refl _), Nat.sub_self,
    ← List.head?_eq_getElem?] at hdrop
  rw [hdrop] at hhead
  by_cases hend : t.kind = .endOfInput
  · exact Or.inl hend
  · refine Or.inr ?_
    simpa [Token.isEnd, hend] using hhead

theorem index_joinUntil_le (stops : List Token.Kind) (h : c.index ≤ s.endIndex) :
    (c.joinUntil stops).2.index ≤ s.endIndex := by
  induction c, h using onward_induction with
  | step c h ih =>
      have ht := get?_index h
      by_cases hstop : Stops stops c.current
      · rw [joinUntil_of_stops ht hstop]
        exact h
      · rw [joinUntil_of_not_stops ht hstop]
        exact ih ⟨c.index + 1, c.saved⟩ (lt_endIndex_of_not_stops ht hstop)
          (Nat.lt_succ_self c.index)

theorem stops_current_joinUntil (stops : List Token.Kind) (h : c.index ≤ s.endIndex) :
    Stops stops (c.joinUntil stops).2.current :=
  c.stops_of_get?_joinUntil stops (get?_index (index_joinUntil_le stops h))

/-! ## The range of a cursor -/

/-- A cursor that stands in the stream, and returns into it. -/
structure InRange (c : Cursor s) : Prop where
  index_le : c.index ≤ s.endIndex
  saved_le : ∀ i ∈ c.saved, i ≤ s.endIndex

theorem index_skipBlank_le (h : c.index ≤ s.endIndex) : c.skipBlank.index ≤ s.endIndex := by
  by_cases hblank : c.current.isBlank = true
  · rw [skipBlank_of_isBlank hblank]
    exact (current_kind_eq_blank_iff.mp (Token.isBlank_iff.mp hblank)).lt_endIndex
  · rw [skipBlank_of_not_isBlank (by simpa using hblank)]
    exact h

theorem index_next_le (h : c.index ≤ s.endIndex) : c.next.index ≤ s.endIndex := by
  by_cases hlt : c.index < s.endIndex
  · rw [next_of_lt_endIndex hlt]
    exact index_skipBlank_le hlt
  · rwa [next_of_endIndex_le (Nat.not_lt.mp hlt)]

theorem inRange_ofIndex (s : Stream) (i : Nat) : (ofIndex s i).InRange where
  index_le := index_skipBlank_le (Nat.min_le_right i s.endIndex)
  saved_le := by simp

theorem InRange.atEnd_iff (h : c.InRange) : c.atEnd = true ↔ c.index = s.endIndex := by
  rw [Cursor.atEnd_iff]
  exact Stream.kind_eq_endOfInput_iff (get?_index h.index_le)

theorem InRange.prev?_eq_none_iff (h : c.InRange) : c.prev? = none ↔ c.index = 0 := by
  obtain ⟨i, saved⟩ := c
  cases i with
  | zero => simp
  | succ i =>
      have hle : i ≤ s.endIndex := Nat.le_of_succ_le h.index_le
      obtain ⟨t, ht⟩ := Stream.exists_get?_of_le hle
      simp [ht]

/-- No call leads out of the stream: not the raw walk of a join, and not a
rollback, which returns to where the cursor has been. -/
theorem InRange.of_effect {a : Call} {d : Cursor s} (h : c.InRange) (he : Call.Effect c a d) :
    d.InRange := by
  cases he with
  | stay => exact h
  | pass =>
      refine ⟨index_next_le h.index_le, ?_⟩
      rw [saved_next]
      exact h.saved_le
  | join stops => exact ⟨index_joinUntil_le stops h.index_le, h.saved_le⟩
  | push => exact ⟨h.index_le, List.forall_mem_cons.mpr ⟨h.index_le, h.saved_le⟩⟩
  | drop hsaved =>
      have hle := h.saved_le
      rw [hsaved] at hle
      exact ⟨h.index_le, (List.forall_mem_cons.mp hle).2⟩
  | rollback hsaved =>
      have hle := h.saved_le
      rw [hsaved] at hle
      exact ⟨(List.forall_mem_cons.mp hle).1, (List.forall_mem_cons.mp hle).2⟩
  | stuck => exact h

end Cursor

end DocCursor
