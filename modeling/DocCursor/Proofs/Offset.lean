import DocCursor.Proofs.Access
import DocCursor.Proofs.Significant

/-!
# Offsets in the source

The offset of a cursor is the width of the text before it, so that it falls
between two characters of the source, and the text of the current token starts
there. What a mismatch reports is found in the source in this way. A join to
the end of the stream covers the rest of the source up to the text of the end
mark. Nothing keeps a list from giving the mark a text, and only where that
text is empty does the source end at the offset of the mark.
-/

namespace DocCursor

/-- From byte `i` to byte `j`, which both lie between characters, a source
reads as the given text. -/
structure Spans (src : String) (i j : Nat) (text : String) : Prop where
  start_isValid : String.Pos.Raw.IsValid src ⟨i⟩
  stop_isValid : String.Pos.Raw.IsValid src ⟨j⟩
  bytes : src.toByteArray.extract i j = text.toByteArray

theorem spans_append (before text behind : String) :
    Spans (before ++ (text ++ behind)) before.utf8ByteSize
      (before.utf8ByteSize + text.utf8ByteSize) text where
  start_isValid := String.Pos.Raw.isValid_iff_exists_append.mpr ⟨_, _, rfl, rfl⟩
  stop_isValid := by
    apply String.Pos.Raw.isValid_iff_exists_append.mpr
    refine ⟨before ++ text, behind, String.append_assoc.symm, ?_⟩
    rw [String.Pos.Raw.ext_iff, String.byteIdx_rawEndPos, String.utf8ByteSize_append]
  bytes := by
    have hskip := ByteArray.extract_append_size_add (a := before.toByteArray)
      (b := (text ++ behind).toByteArray) (i := 0) (j := text.utf8ByteSize)
    have htake : (text ++ behind).toByteArray.extract 0 text.utf8ByteSize = text.toByteArray := by
      rw [String.toByteArray_append]
      exact ByteArray.extract_append_eq_left rfl
    rw [String.toByteArray_append]
    exact hskip.trans htake

/-! ## The source before an index -/

namespace Stream

variable {s : Stream} {i : Nat} {t : Token}

def sourceBefore (s : Stream) (i : Nat) : String := Token.source (s.tokens.take i)

@[simp] theorem sourceBefore_zero (s : Stream) : s.sourceBefore 0 = "" := rfl

theorem sourceBefore_succ (h : s.get? i = some t) :
    s.sourceBefore (i + 1) = s.sourceBefore i ++ t.text := by
  obtain ⟨hi, rfl⟩ := List.getElem?_eq_some_iff.mp h
  rw [sourceBefore, List.take_succ_eq_append_getElem hi, Token.source_append, Token.source_cons,
    Token.source_nil, String.append_empty, sourceBefore]

theorem source_eq_append (h : s.get? i = some t) :
    s.source = s.sourceBefore i ++ (t.text ++ Token.source (s.tokens.drop (i + 1))) := by
  rw [sourceBefore, ← Token.source_cons, ← drop_of_get? h, ← Token.source_append,
    List.take_append_drop, source]

/-- The token that ends the stream. Its kind is fixed, and its text is free. -/
def endToken (s : Stream) : Token := s.tokens.getLast s.tokens_ne_nil

theorem get?_endIndex (s : Stream) : s.get? s.endIndex = some s.endToken := by
  rw [endToken, ← List.getLast?_eq_some_getLast, List.getLast?_eq_getElem?]
  rfl

theorem source_eq_append_endToken (s : Stream) :
    s.source = s.sourceBefore s.endIndex ++ s.endToken.text := by
  have hdrop : s.tokens.drop (s.endIndex + 1) = [] :=
    List.drop_eq_nil_of_le (Nat.le_of_eq s.endIndex_add_one.symm)
  rw [source_eq_append s.get?_endIndex, hdrop, Token.source_nil, String.append_empty]

end Stream

namespace Cursor

variable {s : Stream} {c : Cursor s}

@[simp] theorem utf8ByteSize_sourceBefore (c : Cursor s) :
    (s.sourceBefore c.index).utf8ByteSize = c.offset :=
  Token.utf8ByteSize_source _

theorem spans_current (h : c.index ≤ s.endIndex) :
    Spans s.source c.offset (c.offset + c.current.width) c.current.text := by
  rw [Stream.source_eq_append (get?_index h), ← utf8ByteSize_sourceBefore]
  exact spans_append _ c.current.text _

/-- A join takes its text from the source. -/
theorem sourceBefore_joinUntil (c : Cursor s) (stops : List Token.Kind) :
    s.sourceBefore (c.joinUntil stops).2.index =
      s.sourceBefore c.index ++ (c.joinUntil stops).1 := by
  rw [index_joinUntil, Stream.sourceBefore, List.take_add, take_length_stretch,
    Token.source_append]
  rfl

theorem offset_joinUntil (c : Cursor s) (stops : List Token.Kind) :
    (c.joinUntil stops).2.offset = c.offset + (c.joinUntil stops).1.utf8ByteSize := by
  rw [← utf8ByteSize_sourceBefore, sourceBefore_joinUntil, String.utf8ByteSize_append,
    utf8ByteSize_sourceBefore]

/-! ## The end of the source -/

theorem index_joinUntil_nil (h : c.index ≤ s.endIndex) :
    (c.joinUntil []).2.index = s.endIndex := by
  have hend := (stops_current_joinUntil [] h).resolve_right List.not_mem_nil
  exact (Stream.kind_eq_endOfInput_iff (get?_index (index_joinUntil_le [] h))).mp hend

theorem offset_add_width_endToken (h : c.index = s.endIndex) :
    c.offset + s.endToken.width = s.sourceWidth := by
  have hsource := congrArg String.utf8ByteSize s.source_eq_append_endToken
  rw [String.utf8ByteSize_append, ← h, utf8ByteSize_sourceBefore] at hsource
  exact hsource.symm.trans (Token.utf8ByteSize_source s.tokens)

/-- What a join to the end brings is the rest of the source but for the text
of the end mark. -/
theorem offset_add_joinUntil_nil (h : c.index ≤ s.endIndex) :
    c.offset + (c.joinUntil []).1.utf8ByteSize + s.endToken.width = s.sourceWidth := by
  rw [← offset_joinUntil]
  exact offset_add_width_endToken (index_joinUntil_nil h)

theorem current_of_eq_endIndex (h : c.index = s.endIndex) : c.current = s.endToken := by
  apply current_eq_of_get?
  rw [h]
  exact s.get?_endIndex

/-- What is left to join from a cursor ends where the source ends, and at the
end mark there is nothing left, as every mismatch there reports. -/
structure EndsWithSource (c : Cursor s) : Prop where
  offset_add : c.offset + (c.joinUntil []).1.utf8ByteSize = s.sourceWidth
  atEnd : c.atEnd = true → c.offset = s.sourceWidth ∧ c.current.text = ""
  mismatch : c.atEnd = true → ∀ kind, kind ≠ .endOfInput →
    c.expect kind = .error ⟨"", .endOfInput, kind, s.sourceWidth⟩

theorem InRange.endsWithSource_iff (h : c.InRange) :
    c.EndsWithSource ↔ s.endToken.text = "" := by
  have hrest := offset_add_joinUntil_nil h.index_le
  constructor
  · intro hends
    have hwidth : s.endToken.width = 0 := by
      have hall := hends.offset_add
      omega
    exact String.utf8ByteSize_eq_zero_iff.mp hwidth
  · intro htext
    have hwidth : s.endToken.width = 0 := String.utf8ByteSize_eq_zero_iff.mpr htext
    have hend (hatEnd : c.atEnd = true) : c.offset = s.sourceWidth ∧ c.current = s.endToken := by
      have hindex := h.atEnd_iff.mp hatEnd
      have hoffset := offset_add_width_endToken hindex
      rw [hwidth] at hoffset
      exact ⟨hoffset, current_of_eq_endIndex hindex⟩
    refine ⟨?_, fun hatEnd => ?_, fun hatEnd kind hkind => ?_⟩
    · rwa [hwidth] at hrest
    · obtain ⟨hoffset, hcurrent⟩ := hend hatEnd
      exact ⟨hoffset, hcurrent ▸ htext⟩
    · obtain ⟨hoffset, hcurrent⟩ := hend hatEnd
      have hfound : c.current.kind = .endOfInput := Cursor.atEnd_iff.mp hatEnd
      apply expect_eq_error_iff.mpr
      refine ⟨fun h => hkind (h.symm.trans hfound), ?_⟩
      rw [Cursor.mismatch, hfound, hoffset, hcurrent, htext]

end Cursor

/-! ## Mismatches -/

/-- A mismatch that reports the token at a cursor, by its kind and by the place
of its text in the source. -/
structure Mismatch.Reports {s : Stream} (x : Mismatch) (c : Cursor s) (kind : Token.Kind) :
    Prop where
  found : x.found = c.current.text
  foundKind : x.foundKind = c.current.kind
  expected : x.expected = kind
  expected_ne : x.expected ≠ x.foundKind
  spans : Spans s.source x.offset (x.offset + x.found.utf8ByteSize) x.found

theorem Cursor.reports_mismatch {s : Stream} {c : Cursor s} {kind : Token.Kind}
    (h : c.index ≤ s.endIndex) (hkind : c.current.kind ≠ kind) :
    (c.mismatch kind).Reports c kind where
  found := rfl
  foundKind := rfl
  expected := rfl
  expected_ne := hkind.symm
  spans := spans_current h

/-! ## Whole runs -/

namespace Script

variable {α : Type}

/-- Wherever a run has led a cursor, its offset and its current text are a place
of the source, and a call that expects another kind than the current one fails
there with a report of that place, and moves nothing. -/
theorem offset_spans_current (s : Stream) (i : Nat) (p : Script α) :
    ∀ m ∈ p.moments (Cursor.ofIndex s i),
      Spans s.source m.cursor.offset (m.cursor.offset + m.cursor.current.width)
        m.cursor.current.text ∧
      ∀ kind,
        ((∃ f, ((Call.expect kind).perform m.cursor).1 = .failed f) ↔
          m.cursor.current.kind ≠ kind) ∧
        ∀ f, ((Call.expect kind).perform m.cursor).1 = .failed f →
          ((Call.expect kind).perform m.cursor).2 = m.cursor ∧
          ∃ x, f = .mismatch x ∧ x.Reports m.cursor kind := by
  intro m hm
  have hrange := p.inRange_of_mem_moments i m hm
  refine ⟨Cursor.spans_current hrange.index_le, fun kind => ?_⟩
  rw [Call.perform_expect]
  by_cases hkind : m.cursor.current.kind = kind
  · rw [if_pos hkind]
    refine ⟨⟨?_, fun hne => (hne hkind).elim⟩, ?_⟩
    · rintro ⟨f, hf⟩
      cases hf
    · intro f hf
      cases hf
  · rw [if_neg hkind]
    refine ⟨⟨fun _ => hkind, fun _ => ⟨_, rfl⟩⟩, ?_⟩
    intro f hf
    cases hf
    exact ⟨rfl, _, rfl, Cursor.reports_mismatch hrange.index_le hkind⟩

def joinsOntoBlank : Script Unit := .call (.joinUntil [.blank]) false .done

def ontoBlank : Moment .accented :=
  (joinsOntoBlank.trail .lenient (Moment.start (Cursor.ofIndex .accented 0))).last

theorem offset_spans_current_ontoBlank :
    ontoBlank ∈ joinsOntoBlank.moments (Cursor.ofIndex .accented 0) ∧
    ontoBlank.cursor.current.kind = .blank ∧ ontoBlank.cursor.offset = 2 ∧
    Spans Stream.accented.source 2 3 " " ∧
    ((Call.expect .comma).perform ontoBlank.cursor).1 =
      .failed (.mismatch ⟨" ", .blank, .comma, 2⟩) ∧
    ((Call.expect .comma).perform ontoBlank.cursor).2 = ontoBlank.cursor ∧
    ∃ x : Mismatch, x.offset = 2 ∧ x.Reports ontoBlank.cursor .comma := by
  have hmem : ontoBlank ∈ joinsOntoBlank.moments (Cursor.ofIndex .accented 0) :=
    joinsOntoBlank.last_mem_reached .lenient (Moment.start (Cursor.ofIndex .accented 0))
  have hoffset : ontoBlank.cursor.offset = 2 := by decide
  have hwidth : ontoBlank.cursor.current.width = 1 := by decide
  have hfails : ((Call.expect .comma).perform ontoBlank.cursor).1 =
      .failed (.mismatch ⟨" ", .blank, .comma, 2⟩) := by decide
  obtain ⟨hspans, hexpect⟩ := offset_spans_current .accented 0 joinsOntoBlank ontoBlank hmem
  obtain ⟨hstays, x, hx, hreports⟩ := (hexpect .comma).2 _ hfails
  cases hx
  rw [hoffset, hwidth] at hspans
  exact ⟨hmem, by decide, hoffset, hspans, hfails, hstays, _, rfl, hreports⟩

/-- At each moment of a run, the offset, what a join to the end would bring and
the text of the end mark add up to the source. So the source ends where the
cursor can get to exactly if the end mark has no text. -/
theorem endsWithSource_iff_endToken_empty (s : Stream) (i : Nat) (p : Script α) :
    ∀ m ∈ p.moments (Cursor.ofIndex s i),
      m.cursor.offset + (m.cursor.joinUntil []).1.utf8ByteSize + s.endToken.width =
        s.sourceWidth ∧
      (m.cursor.EndsWithSource ↔ s.endToken.text = "") := by
  intro m hm
  have hrange := p.inRange_of_mem_moments i m hm
  exact ⟨Cursor.offset_add_joinUntil_nil hrange.index_le, hrange.endsWithSource_iff⟩

theorem endsWithSource_iff_endToken_empty_ontoBlank :
    ontoBlank ∈ joinsOntoBlank.moments (Cursor.ofIndex .accented 0) ∧
    (ontoBlank.cursor.joinUntil []).1 = " ," ∧ Stream.accented.endToken.text = "" ∧
    ontoBlank.cursor.offset + " ,".utf8ByteSize = Stream.accented.sourceWidth ∧
    ontoBlank.cursor.EndsWithSource := by
  have hmem : ontoBlank ∈ joinsOntoBlank.moments (Cursor.ofIndex .accented 0) :=
    joinsOntoBlank.last_mem_reached .lenient (Moment.start (Cursor.ofIndex .accented 0))
  have hjoined : (ontoBlank.cursor.joinUntil []).1 = " ," := by decide
  obtain ⟨hsum, hiff⟩ := endsWithSource_iff_endToken_empty .accented 0 joinsOntoBlank ontoBlank hmem
  rw [hjoined] at hsum
  exact ⟨hmem, hjoined, rfl, hsum, hiff.mpr rfl⟩

/-- A stream whose end mark has a text. -/
def lettered : Stream :=
  ⟨[⟨.identifier, "a"⟩, ⟨.endOfInput, "zz"⟩], Stream.defect?_eq_none_iff.mp (by decide)⟩

def joinsAll : Script Unit := .call (.joinUntil []) false .done

def joinedAll : Moment lettered :=
  (joinsAll.trail .lenient (Moment.start (Cursor.start lettered))).last

/-- Neither before nor behind a join of all its text does a cursor of this stream
end with the source: the text of the mark is part of the source, it is never
joined, and a mismatch reports it at the offset before it. -/
theorem not_endsWithSource_lettered :
    Stream.ofTokens [⟨.identifier, "a"⟩, ⟨.endOfInput, "zz"⟩] = .ok lettered ∧
    lettered.sourceWidth = 3 ∧
    Moment.start (Cursor.start lettered) ∈ joinsAll.moments (Cursor.start lettered) ∧
    (Cursor.start lettered).offset = 0 ∧ ((Cursor.start lettered).joinUntil []).1 = "a" ∧
    ¬(Cursor.start lettered).EndsWithSource ∧
    joinedAll ∈ joinsAll.moments (Cursor.start lettered) ∧ joinedAll.cursor.atEnd = true ∧
    joinedAll.cursor.expect .comma = .error ⟨"zz", .endOfInput, .comma, 1⟩ ∧
    ¬joinedAll.cursor.EndsWithSource := by
  have hfirst : Moment.start (Cursor.start lettered) ∈ joinsAll.moments (Cursor.start lettered) :=
    joinsAll.self_mem_reached .lenient (Moment.start (Cursor.start lettered))
  have hlast : joinedAll ∈ joinsAll.moments (Cursor.start lettered) :=
    joinsAll.last_mem_reached .lenient (Moment.start (Cursor.start lettered))
  have hatEnd : joinedAll.cursor.atEnd = true := by decide
  refine ⟨rfl, by decide, hfirst, by decide, by decide, ?_, hlast, hatEnd, rfl, ?_⟩
  · intro hends
    exact absurd hends.offset_add (by decide)
  · intro hends
    exact absurd (hends.atEnd hatEnd).1 (by decide)

end Script

end DocCursor
