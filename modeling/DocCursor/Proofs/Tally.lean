import DocCursor.Proofs.Offset

/-!
# Every byte once

What a cursor is told while it moves adds up to the text behind it: from a
step, the token that it left and the blank reported behind that token, and from
a join, the joined text. A step leaves a token that is no blank, so that a blank
reported after it has been stepped over just now. A join may stop behind a blank
as well, but that one is in its text already. For this the cursor must not
return to a save point, and must not be led onto a blank by a join.
-/

namespace DocCursor

variable {s : Stream} {α : Type}

namespace Cursor

variable {c : Cursor s}

/-- The text of the blank right before a cursor, if there is one. -/
def blankText (c : Cursor s) : String :=
  if c.afterBlank then (c.prev?.map Token.text).getD "" else ""

theorem blankText_of_not_afterBlank (h : c.afterBlank = false) : c.blankText = "" := by
  simp [blankText, h]

theorem blankText_succ {i : Nat} {saved : List Nat} {t : Token} (ht : s.get? i = some t)
    (hblank : t.kind = .blank) : (⟨i + 1, saved⟩ : Cursor s).blankText = t.text := by
  simp [blankText, afterBlank, ht, hblank]

theorem afterBlank_succ {i : Nat} {saved : List Nat} (h : s.SignificantAt i) :
    (⟨i + 1, saved⟩ : Cursor s).afterBlank = false := by
  obtain ⟨t, ht, hblank⟩ := h
  simp [afterBlank, ht, hblank]

/-- A blank that is skipped is the one that is then reported, and without a
skip none is, unless there was one before. -/
theorem sourceBefore_skipBlank (h : c.afterBlank = false) :
    s.sourceBefore c.skipBlank.index = s.sourceBefore c.index ++ c.skipBlank.blankText := by
  by_cases hblank : c.current.isBlank = true
  · obtain ⟨t, ht, hkind⟩ := current_kind_eq_blank_iff.mp (Token.isBlank_iff.mp hblank)
    rw [skipBlank_of_isBlank hblank, Stream.sourceBefore_succ ht, blankText_succ ht hkind]
  · rw [skipBlank_of_not_isBlank (Bool.eq_false_iff.mpr hblank), blankText_of_not_afterBlank h,
      String.append_empty]

theorem sourceBefore_next (h : s.SignificantAt c.index) (hlt : c.index < s.endIndex) :
    s.sourceBefore c.next.index =
      s.sourceBefore c.index ++ (c.current.text ++ c.next.blankText) := by
  rw [next_of_lt_endIndex hlt, sourceBefore_skipBlank (afterBlank_succ h),
    Stream.sourceBefore_succ (get?_index h.le_endIndex), String.append_assoc]

theorem sourceBefore_start (s : Stream) :
    s.sourceBefore (start s).index = (start s).blankText := by
  have hstart : start s = skipBlank ⟨0, []⟩ := by rw [start, ofIndex, Nat.zero_min]
  rw [hstart, sourceBefore_skipBlank rfl, Stream.sourceBefore_zero, String.empty_append]

end Cursor

/-! ## Steps -/

/-- The kinds that a call is to stop on, which only a join has. -/
def Call.stops : Call → List Token.Kind
  | joinUntil stops => stops
  | _ => []

/-- A call leaves the index, goes one step on, goes along a join, or goes back. -/
theorem Call.index_perform (a : Call) (c : Cursor s) :
    (a.perform c).2.index = c.index ∨
    ((a.perform c).2 = c.next ∧ ∀ joined, (a.perform c).1 ≠ .done (.text joined)) ∨
    (∃ stops, a = joinUntil stops) ∨ a = release .rollback := by
  cases a with
  | next => exact Or.inr (Or.inl ⟨rfl, nofun⟩)
  | expect kind =>
      rw [perform_expect]
      split
      · exact Or.inr (Or.inl ⟨rfl, nofun⟩)
      · exact Or.inl rfl
  | accept q =>
      rw [perform_accept]
      split
      · exact Or.inr (Or.inl ⟨rfl, nofun⟩)
      · exact Or.inl rfl
  | isAt q => exact Or.inl rfl
  | current => exact Or.inl rfl
  | joinUntil stops => exact Or.inr (Or.inr (Or.inl ⟨stops, rfl⟩))
  | push => exact Or.inl rfl
  | release r =>
      cases r with
      | drop =>
          obtain ⟨i, saved⟩ := c
          left
          cases saved <;> rfl
      | rollback => exact Or.inr (Or.inr (Or.inr rfl))
  | fail message => exact Or.inl rfl

namespace Event

/-- What an event adds to the text behind the cursor, as the cursor is told: the
joined text of a join, and for another step the text of the token it left, with
the blank that is reported afterwards. -/
def gained (e : Event s) : String :=
  if e.after.index = e.before.index then ""
  else match (e.call.perform e.before).1 with
    | .done (.text joined) => joined
    | _ => e.before.current.text ++ e.after.blankText

/-- An event other than a return to a save point or a join that is to stop on
blanks. -/
def Onward (e : Event s) : Prop :=
  e.call ≠ .release .rollback ∧ Token.Kind.blank ∉ e.call.stops

instance (e : Event s) : Decidable e.Onward := inferInstanceAs (Decidable (_ ∧ _))

variable {e : Event s}

theorem gained_of_index_eq (h : e.after.index = e.before.index) : e.gained = "" := if_pos h

theorem gained_of_next (hne : e.after.index ≠ e.before.index)
    (hanswer : ∀ joined, (e.call.perform e.before).1 ≠ .done (.text joined)) :
    e.gained = e.before.current.text ++ e.after.blankText := by
  rw [gained, if_neg hne]
  split
  next joined hjoined => exact (hanswer joined hjoined).elim
  next => rfl

theorem gained_of_joinUntil {stops : List Token.Kind} (hne : e.after.index ≠ e.before.index)
    (hcall : e.call = .joinUntil stops) : e.gained = (e.before.joinUntil stops).1 := by
  rw [gained, if_neg hne, hcall]
  rfl

theorem sourceBefore_after (hafter : e.after = (e.call.perform e.before).2) (he : e.Onward)
    (hbefore : s.SignificantAt e.before.index) :
    s.sourceBefore e.after.index = s.sourceBefore e.before.index ++ e.gained := by
  by_cases hindex : e.after.index = e.before.index
  · rw [gained_of_index_eq hindex, hindex, String.append_empty]
  · obtain hstay | ⟨hnext, hanswer⟩ | ⟨stops, hcall⟩ | hback := e.call.index_perform e.before
    · exact (hindex (hafter ▸ hstay)).elim
    · have hlt : e.before.index < s.endIndex := by
        apply Nat.lt_of_not_le
        intro hle
        rw [hafter, hnext, Cursor.next_of_endIndex_le hle] at hindex
        exact hindex rfl
      rw [gained_of_next hindex hanswer, hafter, hnext]
      exact Cursor.sourceBefore_next hbefore hlt
    · rw [gained_of_joinUntil hindex hcall, hafter, hcall]
      exact e.before.sourceBefore_joinUntil stops
    · exact (he.1 hback).elim

theorem significantAt_after (hafter : e.after = (e.call.perform e.before).2) (he : e.Onward)
    (hbefore : s.SignificantAt e.before.index) : s.SignificantAt e.after.index := by
  rw [hafter]
  obtain hstay | ⟨hnext, -⟩ | ⟨stops, hcall⟩ | hback := e.call.index_perform e.before
  · exact hstay.symm ▸ hbefore
  · exact hnext.symm ▸ Cursor.significantAt_next hbefore.le_endIndex
  · have hstops : Token.Kind.blank ∉ stops := by
      have hnot := he.2
      rwa [hcall] at hnot
    rw [hcall]
    exact Cursor.significantAt_joinUntil hstops hbefore.le_endIndex
  · exact (he.1 hback).elim

end Event

/-! ## Whole runs -/

namespace Moment

def gains (m : Moment s) : String := String.join (m.history.map Event.gained)

/-- The text before the cursor is what it began with and what it has gained, as
long as it has only gone on. -/
def Tallied (first : String) (m : Moment s) : Prop :=
  (∀ e ∈ m.history, e.Onward) →
    s.SignificantAt m.cursor.index ∧ s.sourceBefore m.cursor.index = first ++ m.gains

theorem gains_step (m : Moment s) (a : Call) :
    (m.step a).gains = m.gains ++ (⟨a, m.cursor, (m.step a).cursor⟩ : Event s).gained := by
  simp [gains, String.join_append, String.join_cons]

theorem tallied_start (s : Stream) :
    (start (Cursor.start s)).Tallied (Cursor.start s).blankText := by
  intro _
  refine ⟨Cursor.significantAt_ofIndex s 0, ?_⟩
  exact (Cursor.sourceBefore_start s).trans String.append_empty.symm

theorem Tallied.step {first : String} {m : Moment s} (hm : m.Tallied first) (a : Call) :
    (m.step a).Tallied first := by
  intro honward
  rw [history_step] at honward
  obtain ⟨hearlier, hlast⟩ := List.forall_mem_append.mp honward
  have he := List.forall_mem_singleton.mp hlast
  obtain ⟨hsignificant, hsource⟩ := hm hearlier
  refine ⟨Event.significantAt_after rfl he hsignificant, ?_⟩
  rw [gains_step, ← String.append_assoc, ← hsource]
  exact Event.sourceBefore_after rfl he hsignificant

end Moment

namespace Script

/-- No byte is lost or counted twice. At each moment of a run from the start, if
the cursor has only gone on so far, then the blank that it was told of at first
and all that it has gained since are the text before it, which is as wide as its
offset. -/
theorem gains_eq_sourceBefore (s : Stream) (p : Script α) :
    ∀ m ∈ p.moments (Cursor.start s), (∀ e ∈ m.history, e.Onward) →
      (Cursor.start s).blankText ++ m.gains = Token.source (s.tokens.take m.cursor.index) ∧
      ((Cursor.start s).blankText ++ m.gains).utf8ByteSize = m.cursor.offset := by
  intro m hm honward
  have htallied := p.forall_mem_moments (fun n a hn => hn.step a) (Moment.tallied_start s) m hm
  obtain ⟨-, hsource⟩ := htallied honward
  refine ⟨hsource.symm, ?_⟩
  rw [← hsource]
  exact m.cursor.utf8ByteSize_sourceBefore

/-- A step over a blank, an attempt with a join that stops behind one, and a step
over none. -/
def readsOn : Script Unit :=
  .call (.expect .identifier) false <|
    .attempt (.call (.joinUntil [.identifier]) false .done) false <|
    .call (.acceptText "b") false <| .call .next false .done

def readOn : Moment .indented :=
  (readsOn.trail .lenient (Moment.start (Cursor.start .indented))).last

theorem gains_eq_sourceBefore_readOn :
    readOn ∈ readsOn.moments (Cursor.start .indented) ∧ (∀ e ∈ readOn.history, e.Onward) ∧
    (Cursor.start .indented).blankText = "\t" ∧
    readOn.history.map Event.gained = ["é  ", "", ", ", "", "b", ""] ∧
    readOn.cursor.index = 6 ∧
    "\t" ++ readOn.gains = Token.source (Stream.indented.tokens.take 6) ∧
    ("\t" ++ readOn.gains).utf8ByteSize = readOn.cursor.offset := by
  have hmem : readOn ∈ readsOn.moments (Cursor.start .indented) :=
    readsOn.last_mem_reached .lenient (Moment.start (Cursor.start .indented))
  have honward : ∀ e ∈ readOn.history, e.Onward := by decide
  have hfirst : (Cursor.start .indented).blankText = "\t" := by decide
  have hindex : readOn.cursor.index = 6 := by decide
  have htally := gains_eq_sourceBefore .indented readsOn readOn hmem honward
  rw [hfirst, hindex] at htally
  exact ⟨hmem, honward, hfirst, by decide, hindex, htally⟩

end Script

end DocCursor
