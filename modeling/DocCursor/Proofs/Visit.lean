import DocCursor.Proofs.Tally
import Mathlib.Logic.Function.Iterate

/-!
# Going through a stream

`next`, again and again, leads from one significant token to the next, and leaves
none out. It gets to the end mark with as many steps as there are tokens before
it, and then stays there. Between two tokens that it leads to in a row there is
nothing, or one blank, which is the token before the cursor then.
-/

namespace DocCursor

namespace Stream

variable {s : Stream} {i j : Nat}

/-- The indices of the significant tokens from a position on. -/
def places (s : Stream) (i : Nat) : List Nat :=
  (List.range' i (s.size - i)).filter fun j => (s.get? j).any fun t => !t.isBlank

theorem places_of_size_le (h : s.size ≤ i) : s.places i = [] := by
  rw [places, Nat.sub_eq_zero_of_le h]
  rfl

theorem range'_of_lt_size (h : i < s.size) :
    List.range' i (s.size - i) = i :: List.range' (i + 1) (s.size - (i + 1)) := by
  obtain ⟨n, hn⟩ := Nat.exists_eq_add_of_lt h
  have hfrom : s.size - i = n + 1 := by omega
  have hbehind : s.size - (i + 1) = n := by omega
  rw [hfrom, hbehind, List.range'_succ]

theorem places_of_blankAt (h : s.BlankAt i) : s.places i = s.places (i + 1) := by
  obtain ⟨t, ht, hblank⟩ := h
  rw [places, range'_of_lt_size (lt_size_of_get? ht), List.filter_cons_of_neg, places]
  simp [ht, hblank]

theorem places_of_significantAt (h : s.SignificantAt i) : s.places i = i :: s.places (i + 1) := by
  obtain ⟨t, ht, hblank⟩ := h
  rw [places, range'_of_lt_size (lt_size_of_get? ht), List.filter_cons_of_pos, places]
  simp [ht, hblank]

/-- The tokens at these places are the significant tokens ahead. -/
theorem map_get?_places (s : Stream) (i : Nat) :
    (s.places i).map s.get? = (s.ahead i).map some := by
  obtain ⟨n, hn⟩ : ∃ n, s.size - i = n := ⟨_, rfl⟩
  induction n generalizing i with
  | zero =>
      have hle : s.tokens.length ≤ i := Nat.le_of_sub_eq_zero hn
      rw [places_of_size_le hle, ahead, List.drop_eq_nil_of_le hle]
      rfl
  | succ n ih =>
      have hrest := ih (i + 1) (by omega)
      obtain ⟨t, ht⟩ : ∃ t, s.get? i = some t := by
        have hlt : i < s.tokens.length := Nat.lt_of_sub_ne_zero (by simp only [size] at hn; omega)
        exact ⟨_, List.getElem?_eq_getElem hlt⟩
      by_cases hblank : t.kind = .blank
      · rw [places_of_blankAt ⟨t, ht, hblank⟩, ahead_of_blankAt ⟨t, ht, hblank⟩, hrest]
      · rw [places_of_significantAt ⟨t, ht, hblank⟩, ahead_of_get? ht hblank, List.map_cons,
          List.map_cons, ht, hrest]

theorem length_places (s : Stream) (i : Nat) : (s.places i).length = (s.ahead i).length := by
  have hlength := congrArg List.length (s.map_get?_places i)
  rwa [List.length_map, List.length_map] at hlength

theorem significantAt_endIndex (s : Stream) : s.SignificantAt s.endIndex := by
  refine ⟨s.endToken, s.get?_endIndex, fun hblank => ?_⟩
  have hend := (kind_eq_endOfInput_iff s.get?_endIndex).mpr rfl
  cases hblank.symm.trans hend

theorem places_endIndex (s : Stream) : s.places s.endIndex = [s.endIndex] := by
  rw [places_of_significantAt s.significantAt_endIndex,
    places_of_size_le (Nat.le_of_eq s.endIndex_add_one.symm)]

/-- The end mark is a place ahead of every other index. -/
theorem endIndex_mem_places (h : i ≤ s.endIndex) : s.endIndex ∈ s.places i := by
  obtain ⟨t, ht, hblank⟩ := s.significantAt_endIndex
  have hsize := s.endIndex_lt_size
  refine List.mem_filter.mpr ⟨List.mem_range'_1.mpr ⟨h, by omega⟩, ?_⟩
  simp [ht, hblank]

theorem SignificantAt.lt_endIndex_iff (h : s.SignificantAt i) :
    i < s.endIndex ↔ 1 < (s.places i).length := by
  constructor
  · intro hlt
    rw [places_of_significantAt h, List.length_cons]
    exact Nat.succ_lt_succ (List.length_pos_of_mem (endIndex_mem_places hlt))
  · intro hlength
    apply Nat.lt_of_le_of_ne h.le_endIndex
    rintro rfl
    rw [places_endIndex] at hlength
    exact Nat.lt_irrefl 1 hlength

end Stream

namespace Cursor

variable {s : Stream} {c : Cursor s} {k : Nat}

/-! ## One step -/

theorem places_skipBlank (c : Cursor s) : s.places c.skipBlank.index = s.places c.index :=
  apply_index_skipBlank (fun _ => Stream.places_of_blankAt) c

theorem places_next (h : s.SignificantAt c.index) (hlt : c.index < s.endIndex) :
    s.places c.next.index = (s.places c.index).tail := by
  rw [next_of_lt_endIndex hlt, places_skipBlank, Stream.places_of_significantAt h, List.tail_cons]

/-! ## Many steps -/

theorem significantAt_iterate_next (h : s.SignificantAt c.index) (k : Nat) :
    s.SignificantAt (next^[k] c).index := by
  induction k with
  | zero => exact h
  | succ k ih =>
      rw [Function.iterate_succ_apply']
      exact significantAt_next ih.le_endIndex

theorem places_iterate_next (h : s.SignificantAt c.index) (hk : k < (s.places c.index).length) :
    s.places (next^[k] c).index = (s.places c.index).drop k := by
  induction k with
  | zero => rfl
  | succ k ih =>
      -- At least two places are left, so that the cursor is not on the end mark yet.
      have hplaces := ih (Nat.lt_of_succ_lt hk)
      have hat := significantAt_iterate_next h k
      have hlt : (next^[k] c).index < s.endIndex := by
        rw [hat.lt_endIndex_iff, hplaces, List.length_drop]
        omega
      rw [Function.iterate_succ_apply', places_next hat hlt, hplaces, List.tail_drop]

theorem getElem?_places (h : s.SignificantAt c.index) (hk : k < (s.places c.index).length) :
    (s.places c.index)[k]? = some (next^[k] c).index := by
  rw [← List.head?_drop, ← places_iterate_next h hk,
    Stream.places_of_significantAt (significantAt_iterate_next h k), List.head?_cons]

theorem getElem?_ahead (h : s.SignificantAt c.index) (hk : k < (s.ahead c.index).length) :
    (s.ahead c.index)[k]? = some (next^[k] c).current := by
  have hplace := getElem?_places h (s.length_places c.index ▸ hk)
  have htokens := congrArg (fun ts => ts[k]?) (s.map_get?_places c.index)
  rw [List.getElem?_map, List.getElem?_map, hplace, Option.map_some,
    get?_index (significantAt_iterate_next h k).le_endIndex] at htokens
  obtain ⟨t, ht, hcurrent⟩ := Option.map_eq_some_iff.mp htokens.symm
  rw [ht, hcurrent]

/-- A cursor is before the end mark as long as it has not come to the last of the
tokens ahead. -/
theorem index_iterate_next_lt_iff (h : s.SignificantAt c.index)
    (hk : k < (s.ahead c.index).length) :
    (next^[k] c).index < s.endIndex ↔ k + 1 < (s.ahead c.index).length := by
  rw [← s.length_places] at hk ⊢
  rw [(significantAt_iterate_next h k).lt_endIndex_iff, places_iterate_next h hk, List.length_drop]
  omega

theorem length_ahead_pos (h : s.SignificantAt c.index) : 0 < (s.ahead c.index).length := by
  obtain ⟨t, ht, hblank⟩ := h
  rw [Stream.ahead_of_get? ht hblank]
  exact Nat.succ_pos _

theorem index_iterate_next_last (h : s.SignificantAt c.index) :
    (next^[(s.ahead c.index).length - 1] c).index = s.endIndex := by
  have hpos := length_ahead_pos h
  have hlast := mt (index_iterate_next_lt_iff h (Nat.sub_one_lt_of_lt hpos)).mp (by omega)
  exact Nat.le_antisymm (significantAt_iterate_next h _).le_endIndex (Nat.le_of_not_lt hlast)

theorem iterate_next_of_length_le (h : s.SignificantAt c.index)
    (hk : (s.ahead c.index).length ≤ k + 1) :
    next^[k] c = next^[(s.ahead c.index).length - 1] c := by
  obtain ⟨n, rfl⟩ : ∃ n, k = n + ((s.ahead c.index).length - 1) :=
    ⟨k - ((s.ahead c.index).length - 1), by omega⟩
  rw [Function.iterate_add_apply]
  apply Function.iterate_fixed
  exact next_of_endIndex_le (Nat.le_of_eq (index_iterate_next_last h).symm)

theorem index_iterate_next_eq_iff (h : s.SignificantAt c.index) (k : Nat) :
    (next^[k] c).index = s.endIndex ↔ (s.ahead c.index).length ≤ k + 1 := by
  constructor
  · intro hend
    by_contra hlt
    have hbefore := (index_iterate_next_lt_iff h (k := k) (by omega)).mpr (by omega)
    exact Nat.ne_of_lt hbefore hend
  · intro hk
    rw [iterate_next_of_length_le h hk, index_iterate_next_last h]

/-! ## What stands between -/

/-- After a step from a token to the next one, the cursor is told of a blank if
the two are apart, and that is then the one token between them. -/
theorem afterBlank_next_iff (h : s.SignificantAt c.index) (hlt : c.index < s.endIndex) :
    (c.next.afterBlank = true ↔ c.next.index ≠ c.index + 1) ∧
    (c.next.index ≠ c.index + 1 → c.next.index = c.index + 2 ∧
      ∃ t, s.get? (c.index + 1) = some t ∧ c.next.prev? = some t) := by
  obtain hnext | ⟨t, ht, hblank, hnext⟩ := next_eq_or hlt
  · rw [hnext, afterBlank_succ h]
    simp
  · rw [hnext]
    have hprev : prev? (⟨c.index + 2, c.saved⟩ : Cursor s) = some t := ht
    refine ⟨?_, fun _ => ⟨rfl, t, ht, hprev⟩⟩
    simp [afterBlank, hprev, hblank]

/-- A cursor goes through some tokens, which stand at these places, by `next`
alone. -/
structure Visits (c : Cursor s) (ts : List Token) (places : List Nat) : Prop where
  ends_marked : ts.getLast? = some s.endToken
  located : places.map s.get? = ts.map some
  visits : ∀ k, k < ts.length →
    ts[k]? = some (next^[k] c).current ∧ places[k]? = some (next^[k] c).index
  visits_end : ∀ k, ts.length ≤ k → (next^[k] c).current = s.endToken
  atEnd_iff : ∀ k, (next^[k] c).atEnd = true ↔ ts.length ≤ k + 1
  stays : ∀ k, ts.length ≤ k + 1 → next^[k] c = next^[ts.length - 1] c
  /-- Between two places in a row there is nothing, or one blank. -/
  afterBlank_iff : ∀ k i j, places[k]? = some i → places[k + 1]? = some j →
    ((next^[k + 1] c).afterBlank = true ↔ j ≠ i + 1) ∧
    (j ≠ i + 1 → j = i + 2 ∧
      ∃ t, s.get? (i + 1) = some t ∧ (next^[k + 1] c).prev? = some t)

theorem visits_ahead (h : s.SignificantAt c.index) :
    c.Visits (s.ahead c.index) (s.places c.index) where
  ends_marked := by
    have hlast := getElem?_ahead h (Nat.sub_one_lt_of_lt (length_ahead_pos h))
    rw [current_of_eq_endIndex (index_iterate_next_last h)] at hlast
    rwa [List.getLast?_eq_getElem?]
  located := s.map_get?_places c.index
  visits k hk := ⟨getElem?_ahead h hk, getElem?_places h (s.length_places c.index ▸ hk)⟩
  visits_end k hk :=
    current_of_eq_endIndex ((index_iterate_next_eq_iff h k).mpr (Nat.le_succ_of_le hk))
  atEnd_iff k := by
    rw [Cursor.atEnd_iff, ← index_iterate_next_eq_iff h k]
    exact Stream.kind_eq_endOfInput_iff (get?_index (significantAt_iterate_next h k).le_endIndex)
  stays k hk := iterate_next_of_length_le h hk
  afterBlank_iff k i j hi hj := by
    obtain ⟨hk, -⟩ := List.getElem?_eq_some_iff.mp hj
    have hat := significantAt_iterate_next h k
    have hlt : (next^[k] c).index < s.endIndex := by
      rw [s.length_places] at hk
      exact (index_iterate_next_lt_iff h (Nat.lt_of_succ_lt hk)).mpr hk
    rw [getElem?_places h (Nat.lt_of_succ_lt hk)] at hi
    rw [getElem?_places h hk] at hj
    obtain rfl := Option.some.inj hi
    obtain rfl := Option.some.inj hj
    rw [Function.iterate_succ_apply']
    exact afterBlank_next_iff hat hlt

/-- From any start, `next` alone leads through all significant tokens from there
on, once each and in order, up to the end mark, and no further. -/
theorem visits_ofIndex (s : Stream) (i : Nat) :
    (ofIndex s i).Visits (s.ahead (min i s.endIndex)) (s.places (min i s.endIndex)) := by
  have hvisits := visits_ahead (significantAt_ofIndex s i)
  rwa [ofIndex, ahead_skipBlank, places_skipBlank] at hvisits

/-- From the blank before a comma: the comma, a token behind another blank, and
the mark. -/
theorem visits_ofIndex_indented :
    (ofIndex .indented 2).Visits [⟨.comma, ","⟩, ⟨.identifier, "b"⟩, Token.endMark] [3, 5, 6] ∧
    (next^[1] (ofIndex .indented 2)).prev? = some ⟨.blank, " "⟩ := by
  have htokens : Stream.indented.ahead (min 2 Stream.indented.endIndex) =
      [⟨.comma, ","⟩, ⟨.identifier, "b"⟩, Token.endMark] := by decide
  have hplaces : Stream.indented.places (min 2 Stream.indented.endIndex) = [3, 5, 6] := by decide
  have hvisits := visits_ofIndex .indented 2
  rw [htokens, hplaces] at hvisits
  obtain ⟨t, ht, hprev⟩ := ((hvisits.afterBlank_iff 0 3 5 rfl rfl).2 (by decide)).2
  cases ht
  exact ⟨hvisits, hprev⟩

end Cursor

end DocCursor
