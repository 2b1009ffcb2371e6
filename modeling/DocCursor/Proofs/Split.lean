import DocCursor.Proofs.Walk

/-!
# Joins cut at blanks

A caller who wants the blanks of a text apart has each join stop on blanks too,
notes the blank, and steps on before the next join. A step from a blank passes
that blank and nothing else, since no second one follows. So the pieces make up
what one join without this stop brings, and the last of them ends where it ends.
-/

namespace DocCursor

variable {s : Stream} {α : Type}

/-- A piece of text that the caller notes: what a join brought, or the blank that
the join stopped on. -/
inductive Piece where
  | joined (text : String)
  | blank (text : String)
  deriving DecidableEq, Repr

namespace Piece

def text : Piece → String
  | joined text => text
  | blank text => text

/-- A piece of the text of some tokens: a joined one covers tokens in a row, with
no blank among them, and the other kind is the text of a blank. -/
def TakenFrom (ts : List Token) : Piece → Prop
  | joined text => ∃ us, us <:+: ts ∧ (∀ t ∈ us, t.kind ≠ .blank) ∧ text = Token.source us
  | blank text => ∃ t ∈ ts, t.kind = .blank ∧ text = t.text

theorem TakenFrom.mono {ts ts' : List Token} {piece : Piece} (h : piece.TakenFrom ts)
    (hts : ts <:+: ts') : piece.TakenFrom ts' := by
  cases piece with
  | joined text =>
      obtain ⟨us, hus, hblank, htext⟩ := h
      exact ⟨us, hus.trans hts, hblank, htext⟩
  | blank text =>
      obtain ⟨t, ht, hblank, htext⟩ := h
      exact ⟨t, hts.subset ht, hblank, htext⟩

end Piece

namespace Cursor

variable {c : Cursor s} {stops more : List Token.Kind}

/-! ## Joins one after the other -/

/-- What a join passes is what a join with more stops passes, and then what it
passes from there. -/
theorem stretch_append_stretch (hsub : stops ⊆ more) (h : c.index ≤ s.endIndex) :
    c.stretch more ++ (c.joinUntil more).2.stretch stops = c.stretch stops := by
  induction c, h using onward_induction with
  | step c h ih =>
      have ht := get?_index h
      by_cases hmore : Stops more c.current
      · rw [joinUntil_of_stops ht hmore, stretch_of_stops ht hmore, List.nil_append]
      · have hstop : ¬Stops stops c.current := mt (Or.imp_right fun hmem => hsub hmem) hmore
        have hlt := lt_endIndex_of_not_stops ht hmore
        rw [joinUntil_of_not_stops ht hmore, stretch_of_not_stops ht hmore,
          stretch_of_not_stops ht hstop, List.cons_append,
          ih ⟨c.index + 1, c.saved⟩ hlt (Nat.lt_succ_self c.index)]

theorem joinUntil_joinUntil (hsub : stops ⊆ more) (h : c.index ≤ s.endIndex) :
    c.joinUntil stops =
      ((c.joinUntil more).1 ++ ((c.joinUntil more).2.joinUntil stops).1,
        ((c.joinUntil more).2.joinUntil stops).2) := by
  have hsplit := stretch_append_stretch hsub h
  apply Prod.ext
  · rw [joinUntil, ← hsplit, Token.source_append]
    rfl
  · rw [joinUntil, ← hsplit, List.length_append, ← Nat.add_assoc]
    rfl

/-- A join that is to stop on blanks too. -/
def cut (c : Cursor s) (stops : List Token.Kind) : String × Cursor s :=
  c.joinUntil (stops ++ [.blank])

theorem index_cut_le (stops : List Token.Kind) (h : c.index ≤ s.endIndex) :
    (c.cut stops).2.index ≤ s.endIndex :=
  index_joinUntil_le (stops ++ [Token.Kind.blank]) h

/-- A cut that ends on a blank is followed by the blank and what a join brings
from behind it. -/
theorem stretch_of_cut_blank (hstops : Token.Kind.blank ∉ stops) (h : c.index ≤ s.endIndex)
    (hblank : (c.cut stops).2.current.kind = .blank) :
    c.stretch stops = c.stretch (stops ++ [.blank]) ++
      (c.cut stops).2.current :: (c.cut stops).2.next.stretch stops := by
  obtain ⟨t, ht, hkind⟩ := current_kind_eq_blank_iff.mp hblank
  rw [next_of_blank hblank, current_eq_of_get? ht,
    ← stretch_of_not_stops ht (not_stops_of_blank hstops hkind)]
  exact (stretch_append_stretch (List.subset_append_left stops [.blank]) h).symm

theorem joinUntil_of_cut_blank (hstops : Token.Kind.blank ∉ stops) (h : c.index ≤ s.endIndex)
    (hblank : (c.cut stops).2.current.kind = .blank) :
    c.joinUntil stops =
      ((c.cut stops).1 ++
          ((c.cut stops).2.current.text ++ ((c.cut stops).2.next.joinUntil stops).1),
        ((c.cut stops).2.next.joinUntil stops).2) := by
  obtain ⟨t, ht, hkind⟩ := current_kind_eq_blank_iff.mp hblank
  have hjoin := joinUntil_of_not_stops ht (not_stops_of_blank hstops hkind)
  rw [← next_of_blank hblank, ← current_eq_of_get? ht] at hjoin
  rw [joinUntil_joinUntil (List.subset_append_left stops [.blank]) h, ← cut, hjoin]

/-- A cut that ends on no blank has ended where the join ends. -/
theorem joinUntil_of_cut_ne_blank (h : c.index ≤ s.endIndex)
    (hblank : (c.cut stops).2.current.kind ≠ .blank) : c.joinUntil stops = c.cut stops := by
  have hstop : Stops stops (c.cut stops).2.current := by
    rcases stops_current_joinUntil (stops ++ [.blank]) h with hend | hmem
    · exact Or.inl hend
    · rcases List.mem_append.mp hmem with hmem | hlast
      · exact Or.inr hmem
      · exact (hblank (List.mem_singleton.mp hlast)).elim
  rw [joinUntil_joinUntil (List.subset_append_left stops [.blank]) h, ← cut,
    joinUntil_of_stops (get?_index (index_cut_le stops h)) hstop, String.append_empty]

theorem takenFrom_cut (stops : List Token.Kind) (h : c.index ≤ s.endIndex) :
    (Piece.joined (c.cut stops).1).TakenFrom (c.stretch stops) := by
  refine ⟨c.stretch (stops ++ [.blank]), ?_, ?_, rfl⟩
  · rw [← stretch_append_stretch (List.subset_append_left stops [.blank]) h]
    exact (List.prefix_append _ _).isInfix
  · intro t ht hblank
    have hstop : t.kind ∈ stops ++ [.blank] :=
      List.mem_append_right stops (List.mem_singleton.mpr hblank)
    exact not_stops_of_mem_stretch ht (Or.inr hstop)

/-! ## The loop around the cuts -/

/-- One turn: cut, and if that ends on a blank, note the blank too and step on. -/
def splitTurn (stops : List Token.Kind) : List Piece × Cursor s → ForInStep (List Piece × Cursor s)
  | (pieces, c) =>
      let (joined, d) := c.joinUntil (stops ++ [.blank])
      if d.isKind .blank then .yield (pieces ++ [.joined joined, .blank d.current.text], d.next)
      else .done (pieces ++ [.joined joined], d)

theorem splitTurn_of_blank (pieces : List Piece) (h : (c.cut stops).2.current.kind = .blank) :
    splitTurn stops (pieces, c) =
      .yield (pieces ++ [.joined (c.cut stops).1, .blank (c.cut stops).2.current.text],
        (c.cut stops).2.next) :=
  if_pos (isKind_iff.mpr h)

theorem splitTurn_of_ne_blank (pieces : List Piece) (h : (c.cut stops).2.current.kind ≠ .blank) :
    splitTurn stops (pieces, c) =
      .done (pieces ++ [.joined (c.cut stops).1], (c.cut stops).2) :=
  if_neg (mt isKind_iff.mp h)

theorem exists_ends_splitTurn (hstops : Token.Kind.blank ∉ stops) (pieces : List Piece)
    (h : c.index ≤ s.endIndex) :
    ∃ turns added, Loop.Ends (splitTurn stops) (pieces, c) turns
        (pieces ++ added, (c.joinUntil stops).2) ∧
      String.join (added.map Piece.text) = (c.joinUntil stops).1 ∧
      ∀ piece ∈ added, piece.TakenFrom (c.stretch stops) := by
  induction c, h using onward_induction generalizing pieces with
  | step c h ih =>
      have hcut := takenFrom_cut stops h
      by_cases hblank : (c.cut stops).2.current.kind = .blank
      · -- The cut may be empty, and it is the step over the blank that gets on.
        have hlt : c.index < (c.cut stops).2.next.index :=
          Nat.lt_of_le_of_lt (Nat.le_add_right _ _)
            (index_lt_index_next (current_kind_eq_blank_iff.mp hblank).lt_endIndex)
        obtain ⟨turns, added, hends, htext, htaken⟩ :=
          ih (c.cut stops).2.next (index_next_le (index_cut_le stops h)) hlt
            (pieces ++ [.joined (c.cut stops).1, .blank (c.cut stops).2.current.text])
        have hsplit := stretch_of_cut_blank hstops h hblank
        refine ⟨(pieces, c) :: turns,
          .joined (c.cut stops).1 :: .blank (c.cut stops).2.current.text :: added, ?_, ?_, ?_⟩
        · rw [List.append_assoc] at hends
          rw [joinUntil_of_cut_blank hstops h hblank]
          exact .yield (splitTurn_of_blank pieces hblank) hends
        · rw [joinUntil_of_cut_blank hstops h hblank, List.map_cons, List.map_cons,
            String.join_cons, String.join_cons, htext]
          rfl
        · have hrest : (c.cut stops).2.next.stretch stops <:+: c.stretch stops := by
            rw [hsplit]
            exact ((List.suffix_cons _ _).trans (List.suffix_append _ _)).isInfix
          have hhere : (c.cut stops).2.current ∈ c.stretch stops := by
            rw [hsplit]
            exact List.mem_append_right _ List.mem_cons_self
          refine List.forall_mem_cons.mpr ⟨hcut, List.forall_mem_cons.mpr ⟨?_, ?_⟩⟩
          · exact ⟨_, hhere, hblank, rfl⟩
          · exact fun piece hpiece => (htaken piece hpiece).mono hrest
      · refine ⟨[], [.joined (c.cut stops).1], ?_, ?_, List.forall_mem_singleton.mpr hcut⟩
        · rw [joinUntil_of_cut_ne_blank h hblank]
          exact .done (splitTurn_of_ne_blank pieces hblank)
        · rw [joinUntil_of_cut_ne_blank h hblank]
          simp [Piece.text]

end Cursor

namespace Script

/-- Wherever a run has led a cursor, a join over kinds without the blank can be
done in pieces: the loop that cuts at blanks ends where the join ends, its pieces
in order make up the joined text, and those that are joined have no blank. -/
theorem split_makes_up_join (s : Stream) (i : Nat) (p : Script α) :
    ∀ m ∈ p.moments (Cursor.ofIndex s i), ∀ stops, Token.Kind.blank ∉ stops →
      ∃ turns pieces,
        Loop.Ends (Cursor.splitTurn stops) ([], m.cursor) turns
          (pieces, (m.cursor.joinUntil stops).2) ∧
        String.join (pieces.map Piece.text) = (m.cursor.joinUntil stops).1 ∧
        ∀ piece ∈ pieces, piece.TakenFrom
          (s.between m.cursor.index (m.cursor.joinUntil stops).2.index) := by
  intro m hm stops hstops
  have hindex := (p.inRange_of_mem_moments i m hm).index_le
  rw [Cursor.between_joinUntil]
  exact Cursor.exists_ends_splitTurn hstops [] hindex

theorem split_makes_up_join_ontoWideBlank :
    ontoWideBlank ∈ joinsOntoBlank.moments (Cursor.ofIndex .indented 0) ∧
    ontoWideBlank.cursor = ⟨2, []⟩ ∧ Token.Kind.blank ∉ [Token.Kind.identifier] ∧
    ontoWideBlank.cursor.joinUntil [.identifier] = ("  , ", ⟨5, []⟩) ∧
    ∃ turns pieces,
      Loop.Ends (Cursor.splitTurn [.identifier]) ([], ontoWideBlank.cursor) turns
        (pieces, ⟨5, []⟩) ∧
      String.join (pieces.map Piece.text) = "  , " ∧
      ∀ piece ∈ pieces,
        piece.TakenFrom [⟨.blank, "  "⟩, ⟨.comma, ","⟩, ⟨.blank, " "⟩] := by
  have hmem : ontoWideBlank ∈ joinsOntoBlank.moments (Cursor.ofIndex .indented 0) :=
    joinsOntoBlank.last_mem_reached .lenient (Moment.start (Cursor.ofIndex .indented 0))
  have hstops : Token.Kind.blank ∉ [Token.Kind.identifier] := by decide
  have hcursor : ontoWideBlank.cursor = ⟨2, []⟩ := by decide
  have hindex : ontoWideBlank.cursor.index = 2 := by rw [hcursor]
  have hjoined : ontoWideBlank.cursor.joinUntil [.identifier] = ("  , ", ⟨5, []⟩) := by decide
  have hpassed : Stream.indented.between 2 5 =
      [⟨.blank, "  "⟩, ⟨.comma, ","⟩, ⟨.blank, " "⟩] := by decide
  obtain ⟨turns, pieces, hends, htext, htaken⟩ :=
    split_makes_up_join .indented 0 joinsOntoBlank ontoWideBlank hmem [.identifier] hstops
  rw [hjoined] at hends htext
  rw [hjoined, hindex, hpassed] at htaken
  exact ⟨hmem, hcursor, hstops, hjoined, turns, pieces, hends, htext, htaken⟩

end Script

end DocCursor
