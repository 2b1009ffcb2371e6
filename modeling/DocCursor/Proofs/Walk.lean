import DocCursor.Proofs.Join

/-!
# Walks by steps and walks by tokens

A caller that goes on with `next` until it meets one of some kinds gets to where
a join over these kinds stops, unless blanks are among them. The two go at a
different pace, but what a step jumps over is a blank, and no blank ends either
walk. The step visits what the join passes, without the blanks; only a blank that
the walk begins on is visited too.
-/

namespace DocCursor

variable {s : Stream} {α : Type}

namespace Cursor

variable {c : Cursor s} {stops : List Token.Kind} {t : Token}

theorem not_stops_of_blank (hstops : Token.Kind.blank ∉ stops) (hblank : t.kind = .blank) :
    ¬Stops stops t :=
  goesOn_iff.mp (goesOn_of_blank hstops t hblank)

/-! ## A step seen from a join -/

theorem joinUntil_skipBlank (hstops : Token.Kind.blank ∉ stops) (c : Cursor s) :
    (c.skipBlank.joinUntil stops).2 = (c.joinUntil stops).2 := by
  by_cases h : c.current.isBlank = true
  · obtain ⟨t, ht, hblank⟩ := current_kind_eq_blank_iff.mp (Token.isBlank_iff.mp h)
    rw [skipBlank_of_isBlank h, joinUntil_of_not_stops ht (not_stops_of_blank hstops hblank)]
  · rw [skipBlank_of_not_isBlank (Bool.eq_false_iff.mpr h)]

/-- From behind a token that does not stop it, and the blank after that token, a
join gets to where it would have got before. -/
theorem joinUntil_next (hstops : Token.Kind.blank ∉ stops) (ht : s.get? c.index = some t)
    (hstop : ¬Stops stops t) : (c.next.joinUntil stops).2 = (c.joinUntil stops).2 := by
  rw [next_of_lt_endIndex (lt_endIndex_of_not_stops ht hstop), joinUntil_skipBlank hstops,
    joinUntil_of_not_stops ht hstop]

theorem significant_stretch_next (hstops : Token.Kind.blank ∉ stops)
    (ht : s.get? c.index = some t) (hstop : ¬Stops stops t) :
    Token.significant (c.next.stretch stops) =
      Token.significant ((⟨c.index + 1, c.saved⟩ : Cursor s).stretch stops) := by
  rw [next_of_lt_endIndex (lt_endIndex_of_not_stops ht hstop), significant_stretch hstops,
    significant_stretch hstops, ahead_skipBlank]

/-! ## The loop of a walk -/

/-- One turn of a walk: step on, unless the current token is one to stop on. -/
def walkTurn (stops : List Token.Kind) (c : Cursor s) : ForInStep (Cursor s) :=
  if !c.atEnd && c.current.kind ∉ stops then .yield c.next else .done c

theorem walkTurn_of_stops (h : Stops stops c.current) : walkTurn stops c = .done c :=
  if_neg (mt goesOn_iff.mp (not_not_intro h))

theorem walkTurn_of_not_stops (h : ¬Stops stops c.current) : walkTurn stops c = .yield c.next :=
  if_pos (goesOn_iff.mpr h)

/-- The token under a cursor, if that is a blank. -/
def blankHere (c : Cursor s) : List Token := [c.current].filter Token.isBlank

theorem blankHere_of_ne_blank (h : c.current.kind ≠ .blank) : c.blankHere = [] := by
  simp [blankHere, h]

theorem blankHere_append_significant_cons (c : Cursor s) (ts : List Token) :
    c.blankHere ++ Token.significant (c.current :: ts) = c.current :: Token.significant ts := by
  by_cases h : c.current.kind = .blank
  · rw [Token.significant_cons_of_blank ts h]
    simp [blankHere, h]
  · rw [Token.significant_cons_of_ne_blank ts h, blankHere_of_ne_blank h, List.nil_append]

theorem exists_ends_walkTurn (hstops : Token.Kind.blank ∉ stops) (h : c.index ≤ s.endIndex) :
    ∃ visited, Loop.Ends (walkTurn stops) c visited (c.joinUntil stops).2 ∧
      visited.map current = c.blankHere ++ Token.significant (c.stretch stops) := by
  induction c, h using onward_induction with
  | step c h ih =>
      have ht := get?_index h
      by_cases hstop : Stops stops c.current
      · have hblank : c.current.kind ≠ .blank := fun hblank =>
          not_stops_of_blank hstops hblank hstop
        rw [joinUntil_of_stops ht hstop, stretch_of_stops ht hstop, blankHere_of_ne_blank hblank]
        exact ⟨[], .done (walkTurn_of_stops hstop), rfl⟩
      · -- The rest of the walk begins on no blank, so that it visits only what the join passes.
        obtain ⟨visited, hends, htokens⟩ :=
          ih c.next (index_next_le h) (index_lt_index_next (lt_endIndex_of_not_stops ht hstop))
        rw [joinUntil_next hstops ht hstop] at hends
        rw [blankHere_of_ne_blank c.current_next_ne_blank, List.nil_append,
          significant_stretch_next hstops ht hstop] at htokens
        rw [stretch_of_not_stops ht hstop, blankHere_append_significant_cons, ← htokens]
        exact ⟨c :: visited, .yield (walkTurn_of_not_stops hstop) hends, rfl⟩

end Cursor

namespace Script

/-- Wherever a run has led a cursor, a walk by `next` over tokens of other kinds
than the given ones ends where a join over these kinds ends, and visits, in
order, the significant tokens that the join passes. -/
theorem walk_ends_with_join (s : Stream) (i : Nat) (p : Script α) :
    ∀ m ∈ p.moments (Cursor.ofIndex s i), ∀ stops, Token.Kind.blank ∉ stops →
      ∃ visited,
        Loop.Ends (Cursor.walkTurn stops) m.cursor visited (m.cursor.joinUntil stops).2 ∧
        (m.cursor.joinUntil stops).1 =
          Token.source (s.between m.cursor.index (m.cursor.joinUntil stops).2.index) ∧
        visited.map Cursor.current = m.cursor.blankHere ++
          Token.significant (s.between m.cursor.index (m.cursor.joinUntil stops).2.index) := by
  intro m hm stops hstops
  have hindex := (p.inRange_of_mem_moments i m hm).index_le
  obtain ⟨visited, hends, htokens⟩ := Cursor.exists_ends_walkTurn hstops hindex
  rw [Cursor.between_joinUntil]
  exact ⟨visited, hends, rfl, htokens⟩

def ontoWideBlank : Moment .indented :=
  (joinsOntoBlank.trail .lenient (Moment.start (Cursor.ofIndex .indented 0))).last

theorem walk_ends_with_join_ontoWideBlank :
    ontoWideBlank ∈ joinsOntoBlank.moments (Cursor.ofIndex .indented 0) ∧
    ontoWideBlank.cursor = ⟨2, []⟩ ∧ Token.Kind.blank ∉ [Token.Kind.identifier] ∧
    ontoWideBlank.cursor.joinUntil [.identifier] = ("  , ", ⟨5, []⟩) ∧
    "  , " = Token.source (Stream.indented.between 2 5) ∧
    ∃ visited, Loop.Ends (Cursor.walkTurn [.identifier]) ontoWideBlank.cursor visited ⟨5, []⟩ ∧
      visited.map Cursor.current = [⟨.blank, "  "⟩, ⟨.comma, ","⟩] := by
  have hmem : ontoWideBlank ∈ joinsOntoBlank.moments (Cursor.ofIndex .indented 0) :=
    joinsOntoBlank.last_mem_reached .lenient (Moment.start (Cursor.ofIndex .indented 0))
  have hstops : Token.Kind.blank ∉ [Token.Kind.identifier] := by decide
  have hcursor : ontoWideBlank.cursor = ⟨2, []⟩ := by decide
  have hjoined : ontoWideBlank.cursor.joinUntil [.identifier] = ("  , ", ⟨5, []⟩) := by decide
  have hpassed : ontoWideBlank.cursor.blankHere ++
      Token.significant (Stream.indented.between 2 5) = [⟨.blank, "  "⟩, ⟨.comma, ","⟩] := by
    decide
  obtain ⟨visited, hends, htext, htokens⟩ :=
    walk_ends_with_join .indented 0 joinsOntoBlank ontoWideBlank hmem [.identifier] hstops
  have hindex : ontoWideBlank.cursor.index = 2 := by rw [hcursor]
  rw [hjoined] at hends
  rw [hjoined, hindex] at htext htokens
  exact ⟨hmem, hcursor, hstops, hjoined, htext, visited, hends, htokens.trans hpassed⟩

end Script

end DocCursor
