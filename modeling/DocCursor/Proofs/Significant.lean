import DocCursor.Proofs.Position

/-!
# Significant tokens

A list of tokens without its blanks, and what is ahead of a position in that
sense. A cursor on a token that is no blank stands on the first token ahead of
it; `next` takes that token away, and a join that does not stop on blanks takes
away all before its stop.
-/

namespace DocCursor

namespace Token

def significant (ts : List Token) : List Token := ts.filter fun t => !t.isBlank

@[simp] theorem significant_nil : significant [] = [] := rfl

@[simp] theorem significant_append (ts us : List Token) :
    significant (ts ++ us) = significant ts ++ significant us :=
  List.filter_append ts us

theorem significant_cons_of_blank {t : Token} (ts : List Token) (h : t.kind = .blank) :
    significant (t :: ts) = significant ts := by
  simp [significant, h]

theorem significant_cons_of_ne_blank {t : Token} (ts : List Token) (h : t.kind ≠ .blank) :
    significant (t :: ts) = t :: significant ts := by
  simp [significant, h]

/-- A walk that no blank stops stops at the same token without the blanks. -/
theorem significant_takeWhile_dropWhile {p : Token → Bool}
    (hp : ∀ t : Token, t.kind = .blank → p t = true) (ts : List Token) :
    significant (ts.takeWhile p) = (significant ts).takeWhile p ∧
      significant (ts.dropWhile p) = (significant ts).dropWhile p := by
  induction ts with
  | nil => exact ⟨rfl, rfl⟩
  | cons t ts ih =>
      obtain ⟨htake, hdrop⟩ := ih
      -- A blank is walked over and then left out, so it changes neither side.
      by_cases hblank : t.kind = .blank
      · rw [List.takeWhile_cons_of_pos (hp t hblank), List.dropWhile_cons_of_pos (hp t hblank),
          significant_cons_of_blank _ hblank, significant_cons_of_blank _ hblank]
        exact ⟨htake, hdrop⟩
      · rw [significant_cons_of_ne_blank ts hblank]
        by_cases hpt : p t = true
        · rw [List.takeWhile_cons_of_pos hpt, List.dropWhile_cons_of_pos hpt,
            List.takeWhile_cons_of_pos hpt, List.dropWhile_cons_of_pos hpt,
            significant_cons_of_ne_blank _ hblank, htake]
          exact ⟨rfl, hdrop⟩
        · rw [List.takeWhile_cons_of_neg hpt, List.dropWhile_cons_of_neg hpt,
            List.takeWhile_cons_of_neg hpt, List.dropWhile_cons_of_neg hpt]
          exact ⟨rfl, significant_cons_of_ne_blank ts hblank⟩

end Token

namespace Stream

variable {s : Stream} {i : Nat} {t : Token}

/-- The significant tokens before a position. -/
def passed (s : Stream) (i : Nat) : List Token := Token.significant (s.tokens.take i)

/-- The significant tokens from a position on. -/
def ahead (s : Stream) (i : Nat) : List Token := Token.significant (s.tokens.drop i)

theorem passed_append_ahead (s : Stream) (i : Nat) :
    s.passed i ++ s.ahead i = Token.significant s.tokens := by
  rw [passed, ahead, ← Token.significant_append, List.take_append_drop]

@[simp] theorem ahead_zero (s : Stream) : s.ahead 0 = Token.significant s.tokens := rfl

theorem drop_of_get? (h : s.get? i = some t) : s.tokens.drop i = t :: s.tokens.drop (i + 1) := by
  obtain ⟨hi, rfl⟩ := List.getElem?_eq_some_iff.mp h
  exact List.drop_eq_getElem_cons hi

theorem ahead_of_blankAt (h : s.BlankAt i) : s.ahead i = s.ahead (i + 1) := by
  obtain ⟨t, ht, hblank⟩ := h
  rw [ahead, drop_of_get? ht, Token.significant_cons_of_blank _ hblank, ahead]

theorem ahead_of_get? (h : s.get? i = some t) (hblank : t.kind ≠ .blank) :
    s.ahead i = t :: s.ahead (i + 1) := by
  rw [ahead, drop_of_get? h, Token.significant_cons_of_ne_blank _ hblank, ahead]

/-- A token that is no blank stands at this index. -/
def SignificantAt (s : Stream) (i : Nat) : Prop := ∃ t, s.get? i = some t ∧ t.kind ≠ .blank

theorem SignificantAt.le_endIndex (h : s.SignificantAt i) : i ≤ s.endIndex := by
  obtain ⟨t, ht, -⟩ := h
  exact le_endIndex_of_get? ht

theorem SignificantAt.get?_eq (h : s.SignificantAt i) : s.get? i = (s.ahead i).head? := by
  obtain ⟨t, ht, hblank⟩ := h
  rw [ahead_of_get? ht hblank, ht, List.head?_cons]

theorem SignificantAt.ahead_succ (h : s.SignificantAt i) : s.ahead (i + 1) = (s.ahead i).tail := by
  obtain ⟨t, ht, hblank⟩ := h
  rw [ahead_of_get? ht hblank, List.tail_cons]

end Stream

namespace Cursor

variable {s : Stream} {c : Cursor s}

theorem significantAt_of_ne_blank (h : c.index ≤ s.endIndex) (hblank : c.current.kind ≠ .blank) :
    s.SignificantAt c.index :=
  ⟨c.current, get?_index h, hblank⟩

theorem significantAt_ofIndex (s : Stream) (i : Nat) : s.SignificantAt (ofIndex s i).index :=
  significantAt_of_ne_blank (inRange_ofIndex s i).index_le (current_ofIndex_ne_blank s i)

theorem significantAt_next (h : c.index ≤ s.endIndex) : s.SignificantAt c.next.index :=
  significantAt_of_ne_blank (index_next_le h) c.current_next_ne_blank

theorem ahead_skipBlank (c : Cursor s) : s.ahead c.skipBlank.index = s.ahead c.index :=
  apply_index_skipBlank (fun _ => Stream.ahead_of_blankAt) c

theorem ahead_next (h : s.SignificantAt c.index) (hlt : c.index < s.endIndex) :
    s.ahead c.next.index = (s.ahead c.index).tail := by
  rw [next_of_lt_endIndex hlt, ahead_skipBlank]
  exact h.ahead_succ

/-- Where a join goes on: over tokens that are neither the end mark nor of one
of the kinds given. -/
def goesOn (stops : List Token.Kind) (t : Token) : Bool := !t.isEnd && t.kind ∉ stops

theorem goesOn_of_blank {stops : List Token.Kind} (hstops : Token.Kind.blank ∉ stops) (t : Token)
    (h : t.kind = .blank) : goesOn stops t = true := by
  simp [goesOn, Token.isEnd, h, hstops]

theorem significant_stretch {stops : List Token.Kind} (hstops : Token.Kind.blank ∉ stops)
    (c : Cursor s) :
    Token.significant (c.stretch stops) = (s.ahead c.index).takeWhile (goesOn stops) :=
  (Token.significant_takeWhile_dropWhile (goesOn_of_blank hstops) _).1

theorem ahead_joinUntil {stops : List Token.Kind} (hstops : Token.Kind.blank ∉ stops)
    (c : Cursor s) :
    s.ahead (c.joinUntil stops).2.index = (s.ahead c.index).dropWhile (goesOn stops) := by
  have hsplit : c.stretch stops ++ (s.tokens.drop c.index).dropWhile (goesOn stops) =
      s.tokens.drop c.index := List.takeWhile_append_dropWhile
  have hdrop : s.tokens.drop (c.joinUntil stops).2.index =
      (s.tokens.drop c.index).dropWhile (goesOn stops) := by
    rw [index_joinUntil, ← List.drop_drop]
    exact (congrArg (List.drop _) hsplit).symm.trans List.drop_left
  rw [Stream.ahead, hdrop]
  exact (Token.significant_takeWhile_dropWhile (goesOn_of_blank hstops) _).2

theorem significantAt_joinUntil {stops : List Token.Kind} (hstops : Token.Kind.blank ∉ stops)
    (h : c.index ≤ s.endIndex) : s.SignificantAt (c.joinUntil stops).2.index := by
  apply significantAt_of_ne_blank (index_joinUntil_le stops h)
  intro hblank
  rcases stops_current_joinUntil stops h with hend | hmem
  · cases hblank.symm.trans hend
  · exact hstops (hblank ▸ hmem)

end Cursor

end DocCursor
