import DocCursor.Token.Basic

/-!
# Well-formed token lists

A lexer owes three things: the list ends in an end mark, the mark stands
nowhere else, and blanks are merged. `defect?` reports the first of these
that fails, and finds nothing exactly on the well-formed lists.
-/

namespace DocCursor

namespace Stream

/-- What a lexer owes to a cursor. Merged blanks are the reason why a
cursor gets past a blank in one step. -/
structure WellFormed (ts : List Token) : Prop where
  ends_marked : ∃ t, ts.getLast? = some t ∧ t.kind = .endOfInput
  marked_once : ∀ t ∈ ts.dropLast, t.kind ≠ .endOfInput
  blanks_apart : ∀ i (_ : i + 1 < ts.length), ¬(ts[i].kind = .blank ∧ ts[i + 1].kind = .blank)

inductive Defect where
  | missingEnd
  /-- An end mark before the last token. -/
  | misplacedEnd (index : Nat)
  /-- Two blanks in a row, at the index of the second. -/
  | adjacentBlanks (index : Nat)
  deriving DecidableEq, Repr

def Defect.message : Defect → String
  | .missingEnd => "token stream must end with an end-of-input token"
  | .misplacedEnd index =>
      "end-of-input token at index " ++ toString index ++ " is not the last token"
  | .adjacentBlanks index =>
      "consecutive horizontal whitespace tokens at index " ++ toString index

/-- Index of the first token that is a blank and follows a blank. -/
def secondBlank? (ts : List Token) : Option Nat :=
  ((ts.zip ts.tail).findIdx? fun p => p.1.isBlank && p.2.isBlank).map (· + 1)

/-- The first defect of a list. A missing end mark comes before a misplaced
one, and that before blanks in a row, wherever they stand. -/
def defect? (ts : List Token) : Option Defect :=
  if !ts.getLast?.any Token.isEnd then some .missingEnd
  else match ts.dropLast.findIdx? Token.isEnd with
    | some index => some (.misplacedEnd index)
    | none => (secondBlank? ts).map .adjacentBlanks

theorem secondBlank?_eq_none_iff {ts : List Token} :
    secondBlank? ts = none ↔
      ∀ i (_ : i + 1 < ts.length), ¬(ts[i].kind = .blank ∧ ts[i + 1].kind = .blank) := by
  simp only [secondBlank?, Option.map_eq_none_iff, List.findIdx?_eq_none_iff]
  constructor
  · intro h i hi
    have hmem : (ts[i], ts[i + 1]) ∈ ts.zip ts.tail := by
      have hz : i < (ts.zip ts.tail).length := by simp; omega
      have hget : (ts.zip ts.tail)[i] = (ts[i], ts[i + 1]) := by simp
      exact hget ▸ List.getElem_mem hz
    simpa using h _ hmem
  · intro h p hp
    obtain ⟨i, hi, rfl⟩ := List.mem_iff_getElem.mp hp
    have hi' : i + 1 < ts.length := by simp at hi; omega
    simpa using h i hi'

theorem defect?_eq_none_iff {ts : List Token} : defect? ts = none ↔ WellFormed ts := by
  unfold defect?
  split
  · rename_i hlast
    refine ⟨nofun, fun h => ?_⟩
    obtain ⟨t, ht, hend⟩ := h.ends_marked
    simp [ht, hend] at hlast
  · rename_i hlast
    have hend : ∃ t, ts.getLast? = some t ∧ t.kind = .endOfInput := by
      cases ht : ts.getLast? with
      | none => simp [ht] at hlast
      | some t => exact ⟨t, rfl, by simpa [ht] using hlast⟩
    split
    · rename_i index hfind
      refine ⟨nofun, fun h => ?_⟩
      obtain ⟨hi, hmark, _⟩ := List.findIdx?_eq_some_iff_getElem.mp hfind
      exact (h.marked_once _ (List.getElem_mem hi) (Token.isEnd_iff.mp hmark)).elim
    · rename_i hfind
      rw [Option.map_eq_none_iff, secondBlank?_eq_none_iff]
      have honce : ∀ t ∈ ts.dropLast, t.kind ≠ .endOfInput := fun t ht => by
        simpa [Token.isEnd] using List.findIdx?_eq_none_iff.mp hfind t ht
      exact ⟨fun h => ⟨hend, honce, h⟩, fun h => h.blanks_apart⟩

end Stream

end DocCursor
