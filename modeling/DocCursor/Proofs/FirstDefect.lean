import DocCursor.Stream.Basic

/-!
# The first defect of a list

What `Stream.ofTokens` accepts and what it reports, by the kinds that stand at
the indices of the list. The scan for a misplaced end mark and the scan for
blanks in a row each find the least index with their fault, and either counts
only if all scans before it have found nothing.
-/

namespace DocCursor

namespace Stream

variable {ts : List Token} {i : Nat}

def kindAt? (ts : List Token) (i : Nat) : Option Token.Kind := ts[i]?.map Token.kind

def MarkAt (ts : List Token) (i : Nat) : Prop := kindAt? ts i = some .endOfInput

/-- A blank at this index, and one right before it. -/
def BlanksMeetAt (ts : List Token) (i : Nat) : Prop :=
  1 ≤ i ∧ kindAt? ts (i - 1) = some .blank ∧ kindAt? ts i = some .blank

instance (ts : List Token) (i : Nat) : Decidable (MarkAt ts i) :=
  inferInstanceAs (Decidable (kindAt? ts i = some .endOfInput))

instance (ts : List Token) (i : Nat) : Decidable (BlanksMeetAt ts i) :=
  inferInstanceAs (Decidable
    (1 ≤ i ∧ kindAt? ts (i - 1) = some .blank ∧ kindAt? ts i = some .blank))

theorem kindAt?_eq_some_iff {k : Token.Kind} :
    kindAt? ts i = some k ↔ ∃ t, ts[i]? = some t ∧ t.kind = k :=
  Option.map_eq_some_iff

theorem markAt_iff : MarkAt ts i ↔ ∃ t, ts[i]? = some t ∧ t.isEnd = true := by
  simp only [MarkAt, kindAt?_eq_some_iff, Token.isEnd_iff]

/-! ## The three scans -/

theorem findIdx?_eq_some_iff_least {β : Type} {p : β → Bool} {l : List β} :
    l.findIdx? p = some i ↔
      (∃ b, l[i]? = some b ∧ p b = true) ∧ ∀ j < i, ¬∃ b, l[j]? = some b ∧ p b = true := by
  rw [List.findIdx?_eq_some_iff_getElem]
  constructor
  · rintro ⟨hi, hp, hleast⟩
    refine ⟨⟨l[i], List.getElem?_eq_getElem hi, hp⟩, ?_⟩
    rintro j hj ⟨b, hb, hpb⟩
    obtain ⟨hj', rfl⟩ := List.getElem?_eq_some_iff.mp hb
    exact hleast j hj hpb
  · rintro ⟨⟨b, hb, hpb⟩, hleast⟩
    obtain ⟨hi, rfl⟩ := List.getElem?_eq_some_iff.mp hb
    refine ⟨hi, hpb, fun j hj hpj => ?_⟩
    apply hleast j hj
    exact ⟨l[j], List.getElem?_eq_getElem (Nat.lt_trans hj hi), hpj⟩

theorem any_getLast?_isEnd_iff :
    ts.getLast?.any Token.isEnd = true ↔ MarkAt ts (ts.length - 1) := by
  rw [List.getLast?_eq_getElem?, markAt_iff, Option.any_eq_true]

theorem markAt_dropLast_iff : MarkAt ts.dropLast i ↔ i + 1 < ts.length ∧ MarkAt ts i := by
  simp only [MarkAt, kindAt?, List.getElem?_dropLast]
  split
  · rename_i hlt
    have hlt' : i + 1 < ts.length := by omega
    simp [hlt']
  · rename_i hge
    have hge' : ¬i + 1 < ts.length := by omega
    simp [hge']

theorem findIdx?_dropLast_eq_some_iff :
    ts.dropLast.findIdx? Token.isEnd = some i ↔
      i + 1 < ts.length ∧ MarkAt ts i ∧ ∀ j < i, ¬MarkAt ts j := by
  rw [findIdx?_eq_some_iff_least]
  simp only [← markAt_iff, markAt_dropLast_iff]
  -- An end mark before a given one is not the last token either, so the least
  -- one before the last token is the least one of all.
  constructor
  · rintro ⟨⟨hlt, hmark⟩, hleast⟩
    refine ⟨hlt, hmark, fun j hj hmark' => ?_⟩
    apply hleast j hj
    exact ⟨by omega, hmark'⟩
  · rintro ⟨hlt, hmark, hleast⟩
    exact ⟨⟨hlt, hmark⟩, fun j hj hmark' => hleast j hj hmark'.2⟩

theorem findIdx?_dropLast_eq_none_iff :
    ts.dropLast.findIdx? Token.isEnd = none ↔ ∀ j, j + 1 < ts.length → ¬MarkAt ts j := by
  rw [List.findIdx?_eq_none_iff]
  constructor
  · intro h j hj hmark
    obtain ⟨t, ht, hend⟩ := markAt_iff.mp (markAt_dropLast_iff.mpr ⟨hj, hmark⟩)
    have hnone := h t (List.mem_of_getElem? ht)
    exact Bool.false_ne_true (hnone.symm.trans hend)
  · intro h t ht
    obtain ⟨j, hj⟩ := List.mem_iff_getElem?.mp ht
    apply Bool.eq_false_iff.mpr
    intro hend
    obtain ⟨hlt, hmark⟩ := markAt_dropLast_iff.mp (markAt_iff.mpr ⟨t, hj, hend⟩)
    exact h j hlt hmark

theorem blanksMeetAt_succ_iff :
    BlanksMeetAt ts (i + 1) ↔
      ∃ p, (ts.zip ts.tail)[i]? = some p ∧ (p.1.isBlank && p.2.isBlank) = true := by
  simp only [BlanksMeetAt, kindAt?_eq_some_iff, List.getElem?_zip_eq_some, List.getElem?_tail,
    Bool.and_eq_true, Token.isBlank_iff, Nat.add_sub_cancel]
  constructor
  · rintro ⟨-, ⟨t, ht, hblank⟩, u, hu, hblank'⟩
    exact ⟨(t, u), ⟨ht, hu⟩, hblank, hblank'⟩
  · rintro ⟨⟨t, u⟩, ⟨ht, hu⟩, hblank, hblank'⟩
    exact ⟨Nat.le_add_left 1 i, ⟨t, ht, hblank⟩, u, hu, hblank'⟩

theorem secondBlank?_eq_some_iff :
    secondBlank? ts = some i ↔ BlanksMeetAt ts i ∧ ∀ j < i, ¬BlanksMeetAt ts j := by
  rw [secondBlank?, Option.map_eq_some_iff]
  simp only [findIdx?_eq_some_iff_least, ← blanksMeetAt_succ_iff]
  constructor
  · rintro ⟨k, ⟨hmeet, hleast⟩, rfl⟩
    refine ⟨hmeet, fun j hj hmeet' => ?_⟩
    obtain ⟨j, rfl⟩ := Nat.exists_eq_add_of_le' hmeet'.1
    exact hleast j (Nat.lt_of_succ_lt_succ hj) hmeet'
  · rintro ⟨hmeet, hleast⟩
    obtain ⟨k, rfl⟩ := Nat.exists_eq_add_of_le' hmeet.1
    exact ⟨k, ⟨hmeet, fun j hj => hleast (j + 1) (Nat.succ_lt_succ hj)⟩, rfl⟩

theorem secondBlank?_eq_none_iff_forall :
    secondBlank? ts = none ↔ ∀ j, ¬BlanksMeetAt ts j := by
  rw [secondBlank?_eq_none_iff]
  constructor
  · rintro h j ⟨hj, hblank, hblank'⟩
    obtain ⟨j, rfl⟩ := Nat.exists_eq_add_of_le' hj
    obtain ⟨t, ht, hkind⟩ := kindAt?_eq_some_iff.mp hblank
    obtain ⟨u, hu, hkind'⟩ := kindAt?_eq_some_iff.mp hblank'
    obtain ⟨_, rfl⟩ := List.getElem?_eq_some_iff.mp ht
    obtain ⟨hlt, rfl⟩ := List.getElem?_eq_some_iff.mp hu
    exact h j hlt ⟨hkind, hkind'⟩
  · rintro h j hj ⟨hblank, hblank'⟩
    apply h (j + 1)
    refine ⟨Nat.le_add_left 1 j, ?_, ?_⟩
    · exact kindAt?_eq_some_iff.mpr ⟨_, List.getElem?_eq_getElem (Nat.lt_of_succ_lt hj), hblank⟩
    · exact kindAt?_eq_some_iff.mpr ⟨_, List.getElem?_eq_getElem hj, hblank'⟩

/-! ## Precedence -/

/-- Which defect comes first, by the kinds at the indices of the list. -/
def FirstDefect (ts : List Token) : Defect → Prop
  | .missingEnd => ts = [] ∨ ¬MarkAt ts (ts.length - 1)
  | .misplacedEnd i =>
      MarkAt ts (ts.length - 1) ∧ i + 1 < ts.length ∧ MarkAt ts i ∧ ∀ j < i, ¬MarkAt ts j
  | .adjacentBlanks i =>
      MarkAt ts (ts.length - 1) ∧ (∀ j, j + 1 < ts.length → ¬MarkAt ts j) ∧
        BlanksMeetAt ts i ∧ ∀ j < i, ¬BlanksMeetAt ts j

theorem ne_nil_of_markAt (h : MarkAt ts i) : ts ≠ [] := by
  rintro rfl
  cases h

theorem defect?_of_not_markAt (h : ¬MarkAt ts (ts.length - 1)) :
    defect? ts = some .missingEnd := by
  have hmissing : ts.getLast?.any Token.isEnd = false := by
    rwa [← Bool.not_eq_true, any_getLast?_isEnd_iff]
  simp [defect?, hmissing]

theorem defect?_of_findIdx?_eq_some (h : MarkAt ts (ts.length - 1))
    (hfind : ts.dropLast.findIdx? Token.isEnd = some i) :
    defect? ts = some (.misplacedEnd i) := by
  simp [defect?, any_getLast?_isEnd_iff.mpr h, hfind]

theorem defect?_of_findIdx?_eq_none (h : MarkAt ts (ts.length - 1))
    (hfind : ts.dropLast.findIdx? Token.isEnd = none) :
    defect? ts = (secondBlank? ts).map .adjacentBlanks := by
  simp [defect?, any_getLast?_isEnd_iff.mpr h, hfind]

theorem defect?_eq_some_iff {d : Defect} : defect? ts = some d ↔ FirstDefect ts d := by
  -- At each way out of the scans, the defects that are not reported fail at what
  -- an earlier or the present scan has found.
  by_cases hlast : MarkAt ts (ts.length - 1)
  · have hne := ne_nil_of_markAt hlast
    cases hfind : ts.dropLast.findIdx? Token.isEnd with
    | some index =>
        rw [defect?_of_findIdx?_eq_some hlast hfind]
        cases d with
        | missingEnd => simp [FirstDefect, hlast, hne]
        | misplacedEnd i => simp [FirstDefect, hlast, ← findIdx?_dropLast_eq_some_iff, hfind]
        | adjacentBlanks i => simp [FirstDefect, ← findIdx?_dropLast_eq_none_iff, hfind]
    | none =>
        rw [defect?_of_findIdx?_eq_none hlast hfind]
        cases d with
        | missingEnd => simp [FirstDefect, hlast, hne]
        | misplacedEnd i => simp [FirstDefect, ← findIdx?_dropLast_eq_some_iff, hfind]
        | adjacentBlanks i =>
            simp [FirstDefect, hlast, ← findIdx?_dropLast_eq_none_iff, hfind,
              ← secondBlank?_eq_some_iff]
  · rw [defect?_of_not_markAt hlast]
    cases d <;> simp [FirstDefect, hlast]

theorem defect?_eq_none_iff_kinds :
    defect? ts = none ↔
      ts ≠ [] ∧ MarkAt ts (ts.length - 1) ∧ (∀ j, j + 1 < ts.length → ¬MarkAt ts j) ∧
        ∀ j, ¬BlanksMeetAt ts j := by
  rw [← findIdx?_dropLast_eq_none_iff, ← secondBlank?_eq_none_iff_forall]
  by_cases hlast : MarkAt ts (ts.length - 1)
  · have hne := ne_nil_of_markAt hlast
    cases hfind : ts.dropLast.findIdx? Token.isEnd with
    | some index => simp [defect?_of_findIdx?_eq_some hlast hfind]
    | none => simp [defect?_of_findIdx?_eq_none hlast hfind, hlast, hne]
  · simp [defect?_of_not_markAt hlast, hlast]

theorem exists_ofTokens_eq_ok_iff : (∃ s, ofTokens ts = .ok s) ↔ defect? ts = none := by
  cases hts : ofTokens ts with
  | ok s =>
      have htokens := ofTokens_eq_ok_iff.mp hts
      simp [← htokens, defect?_eq_none_iff.mpr s.wellFormed]
  | error d => simp [ofTokens_eq_error_iff.mp hts]

/-- A list becomes a stream, with its tokens as they are, exactly if an end mark
stands in its last place and nowhere else, and no two blanks meet. Any other
list is refused for the defect that comes first. -/
theorem ofTokens_ok_or_firstDefect (ts : List Token) :
    ((∃ s, ofTokens ts = .ok s) ↔
      ts ≠ [] ∧ MarkAt ts (ts.length - 1) ∧ (∀ j, j + 1 < ts.length → ¬MarkAt ts j) ∧
        ∀ j, ¬BlanksMeetAt ts j) ∧
    (∀ s, ofTokens ts = .ok s →
      s.tokens = ts ∧ s.size = ts.length ∧ s.endIndex + 1 = ts.length ∧ s.isEmpty = false ∧
        ∀ j, s.get? j = ts[j]?) ∧
    ∀ d, ofTokens ts = .error d ↔ FirstDefect ts d := by
  refine ⟨?_, fun s hs => ?_, fun d => ?_⟩
  · rw [exists_ofTokens_eq_ok_iff]
    exact defect?_eq_none_iff_kinds
  · obtain rfl := ofTokens_eq_ok_iff.mp hs
    have hend := s.endIndex_lt_size
    refine ⟨rfl, rfl, ?_, ?_, fun j => rfl⟩
    · simp only [endIndex, size] at hend ⊢
      omega
    · exact List.isEmpty_eq_false_iff.mpr s.tokens_ne_nil
  · rw [ofTokens_eq_error_iff]
    exact defect?_eq_some_iff

/-- Blanks apart from each other, at both ends of a list. -/
def commaInBlanks : List Token := [⟨.blank, " "⟩, ⟨.comma, ","⟩, ⟨.blank, ""⟩, Token.endMark]

/-- Blanks that meet twice, before and behind an end mark with a text. -/
def crowded : List Token :=
  [⟨.blank, " "⟩, ⟨.blank, " "⟩, ⟨.blank, " "⟩, ⟨.endOfInput, "x"⟩, ⟨.blank, " "⟩, Token.endMark]

theorem ofTokens_ok_or_firstDefect_crowded :
    (∃ s, ofTokens commaInBlanks = .ok s ∧ s.tokens = commaInBlanks ∧ s.endIndex + 1 = 4 ∧
      s.get? 2 = some ⟨.blank, ""⟩) ∧
    ofTokens crowded.dropLast = .error .missingEnd ∧
    ofTokens crowded = .error (.misplacedEnd 3) ∧
    ofTokens (crowded.eraseIdx 3) = .error (.adjacentBlanks 1) := by
  obtain ⟨haccepts, hkeeps, -⟩ := ofTokens_ok_or_firstDefect commaInBlanks
  have hnone : defect? commaInBlanks = none := by decide
  obtain ⟨s, hs⟩ := haccepts.mpr (defect?_eq_none_iff_kinds.mp hnone)
  obtain ⟨htokens, -, hend, -, hget⟩ := hkeeps s hs
  refine ⟨⟨s, hs, htokens, hend, hget 2⟩, ?_, ?_, ?_⟩
  · apply ((ofTokens_ok_or_firstDefect crowded.dropLast).2.2 .missingEnd).mpr
    exact Or.inr (by decide)
  · apply ((ofTokens_ok_or_firstDefect crowded).2.2 (.misplacedEnd 3)).mpr
    exact ⟨by decide, by decide, by decide, by decide⟩
  · apply ((ofTokens_ok_or_firstDefect (crowded.eraseIdx 3)).2.2 (.adjacentBlanks 1)).mpr
    refine ⟨by decide, ?_, by decide, by decide⟩
    exact findIdx?_dropLast_eq_none_iff.mp (by decide)

end Stream

end DocCursor
