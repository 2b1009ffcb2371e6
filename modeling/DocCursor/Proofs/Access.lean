import DocCursor.Proofs.Position
import DocCursor.Proofs.Trail

/-!
# Checked access

The moves of a cursor again, with every access to the tokens checked: a read,
a cut, the decrement that finds the end mark, and each step of an index, which
has to stay an index of the stream. An access out of range gives `none`. No
run gets to one, so that a run ends early only at a release without a save
point.
-/

namespace DocCursor

namespace Stream

variable {s : Stream}

def endIndex? (s : Stream) : Option Nat := if 1 ≤ s.size then some (s.size - 1) else none

/-- The tokens before an index. -/
def before? (s : Stream) (i : Nat) : Option (List Token) :=
  if i ≤ s.size then some (s.tokens.take i) else none

theorem endIndex?_eq (s : Stream) : s.endIndex? = some s.endIndex := by
  have h := s.endIndex_lt_size
  rw [endIndex?, if_pos (by omega), endIndex]

end Stream

namespace Cursor

variable {s : Stream} {c : Cursor s}

def current? (c : Cursor s) : Option Token := s.get? c.index

def advance? (c : Cursor s) : Option (Cursor s) :=
  if c.index + 1 < s.size then some { c with index := c.index + 1 } else none

def skipBlank? (c : Cursor s) : Option (Cursor s) :=
  c.current?.bind fun t => if t.isBlank then c.advance? else some c

def ofIndex? (s : Stream) (i : Nat) : Option (Cursor s) :=
  s.endIndex?.bind fun last => skipBlank? ⟨min i last, []⟩

def next? (c : Cursor s) : Option (Cursor s) :=
  s.endIndex?.bind fun last =>
    if c.index < last then c.advance?.bind skipBlank? else some c

def offset? (c : Cursor s) : Option Nat := (s.before? c.index).map Token.sourceWidth

def mismatch? (c : Cursor s) (expected : Token.Kind) : Option Mismatch :=
  c.current?.bind fun t => c.offset?.map fun offset => ⟨t.text, t.kind, expected, offset⟩

def expect? (c : Cursor s) (kind : Token.Kind) : Option (Except Mismatch (Cursor s)) :=
  c.current?.bind fun t =>
    if t.kind = kind then c.next?.map .ok else (c.mismatch? kind).map .error

def acceptChecked? (c : Cursor s) (q : Token.Query) : Option (Option (Cursor s)) :=
  c.current?.bind fun t => if t.answers q then c.next?.map some else some none

/-- The raw walk of a join, token by token. -/
def joinFrom? (stops : List Token.Kind) (joined : String) (c : Cursor s) :
    Option (String × Cursor s) :=
  match c.current? with
  | none => none
  | some t =>
      if t.isEnd || t.kind ∈ stops then some (joined, c)
      else if c.index + 1 < s.size then
        joinFrom? stops (joined ++ t.text) { c with index := c.index + 1 }
      else none
termination_by s.size - c.index

theorem current?_eq (h : c.index ≤ s.endIndex) : c.current? = some c.current :=
  get?_index h

theorem advance?_eq (h : c.index < s.endIndex) :
    c.advance? = some { c with index := c.index + 1 } := by
  rw [advance?, if_pos (Nat.lt_of_le_of_lt h s.endIndex_lt_size)]

theorem skipBlank?_eq (h : c.index ≤ s.endIndex) : c.skipBlank? = some c.skipBlank := by
  rw [skipBlank?, current?_eq h, Option.bind_some]
  by_cases hblank : c.current.isBlank = true
  · have hat := current_kind_eq_blank_iff.mp (Token.isBlank_iff.mp hblank)
    rw [if_pos hblank, advance?_eq hat.lt_endIndex, skipBlank_of_isBlank hblank]
  · rw [if_neg hblank, skipBlank_of_not_isBlank (by simpa using hblank)]

theorem ofIndex?_eq (s : Stream) (i : Nat) : ofIndex? s i = some (ofIndex s i) := by
  rw [ofIndex?, s.endIndex?_eq, Option.bind_some]
  exact skipBlank?_eq (Nat.min_le_right i s.endIndex)

theorem next?_eq (c : Cursor s) : c.next? = some c.next := by
  rw [next?, s.endIndex?_eq, Option.bind_some]
  by_cases hlt : c.index < s.endIndex
  · rw [if_pos hlt, advance?_eq hlt, Option.bind_some,
      next_of_lt_endIndex hlt]
    exact skipBlank?_eq hlt
  · rw [if_neg hlt, next_of_endIndex_le (Nat.not_lt.mp hlt)]

theorem offset?_eq (h : c.index ≤ s.endIndex) : c.offset? = some c.offset := by
  rw [offset?, Stream.before?, if_pos (Nat.le_trans h (Nat.le_of_lt s.endIndex_lt_size))]
  rfl

theorem mismatch?_eq (h : c.index ≤ s.endIndex) (expected : Token.Kind) :
    c.mismatch? expected = some (c.mismatch expected) := by
  rw [mismatch?, current?_eq h, offset?_eq h]
  rfl

theorem expect?_eq (h : c.index ≤ s.endIndex) (kind : Token.Kind) :
    c.expect? kind = some (c.expect kind) := by
  rw [expect?, current?_eq h, next?_eq, mismatch?_eq h, Option.bind_some, expect]
  by_cases hkind : c.current.kind = kind <;> simp [hkind]

theorem acceptChecked?_eq (h : c.index ≤ s.endIndex) (q : Token.Query) :
    c.acceptChecked? q = some (c.accept? q) := by
  rw [acceptChecked?, current?_eq h, next?_eq, Option.bind_some, accept?, isAt]
  split <;> rfl

theorem joinFrom?_eq (stops : List Token.Kind) (joined : String) (h : c.index ≤ s.endIndex) :
    c.joinFrom? stops joined =
      some (joined ++ (c.joinUntil stops).1, (c.joinUntil stops).2) := by
  induction c, h using onward_induction generalizing joined with
  | step c h ih =>
      have ht := get?_index h
      rw [joinFrom?, current?_eq h]
      by_cases hstop : Stops stops c.current
      · have hcond : (c.current.isEnd || decide (c.current.kind ∈ stops)) = true := by
          simpa [Token.isEnd, Stops] using hstop
        rw [joinUntil_of_stops ht hstop]
        simp [hcond]
      · have hcond : (c.current.isEnd || decide (c.current.kind ∈ stops)) = false := by
          simpa [Token.isEnd, Stops] using hstop
        have hlt := lt_endIndex_of_not_stops ht hstop
        have hsize : c.index + 1 < s.size := Nat.lt_of_le_of_lt hlt s.endIndex_lt_size
        have hrest := ih ⟨c.index + 1, c.saved⟩ hlt (Nat.lt_succ_self c.index)
          (joined ++ c.current.text)
        rw [joinUntil_of_not_stops ht hstop, ← String.append_assoc, ← hrest]
        simp [hcond, hsize]

end Cursor

namespace Call

variable {s : Stream} {c : Cursor s}

def perform? (c : Cursor s) : Call → Option (Outcome Failure Answer × Cursor s)
  | next => c.next?.map fun d => (.done .nothing, d)
  | expect kind => (c.expect? kind).map fun
      | .ok d => (.done .nothing, d)
      | .error m => (.failed (.mismatch m), c)
  | accept q => (c.acceptChecked? q).map (accepted c)
  | isAt q => c.current?.map fun t => (.done (.truth (t.answers q)), c)
  | current => c.current?.map fun t => (.done (.token t), c)
  | joinUntil stops => (c.joinFrom? stops "").map fun (joined, d) => (.done (.text joined), d)
  | push => some (push.perform c)
  | release r => some ((release r).perform c)
  | fail message => some ((fail message).perform c)

theorem perform?_eq (h : c.index ≤ s.endIndex) (a : Call) : a.perform? c = some (a.perform c) := by
  cases a with
  | next => simp only [perform?, c.next?_eq, Option.map_some, perform]
  | expect kind =>
      rw [perform?, c.expect?_eq h]
      rfl
  | accept q => exact congrArg (Option.map (accepted c)) (Cursor.acceptChecked?_eq h q)
  | isAt q => simp only [perform?, c.current?_eq h, Option.map_some, perform, Cursor.isAt]
  | current => simp only [perform?, c.current?_eq h, Option.map_some, perform]
  | joinUntil stops =>
      simp only [perform?, c.joinFrom?_eq stops "" h, Option.map_some, perform, String.empty_append]
  | push => rfl
  | release r => rfl
  | fail message => rfl

end Call

/-! ## Whole runs -/

namespace Script

variable {s : Stream} {α : Type}

theorem inRange_of_mem_moments (i : Nat) (p : Script α) :
    ∀ m ∈ p.moments (Cursor.ofIndex s i), m.cursor.InRange := by
  refine p.forall_mem_moments (fun m a hm => ?_) ?_
  · exact hm.of_effect (m.effect_step a)
  · exact Cursor.inRange_ofIndex s i

theorem exists_stuck_moment (p : Script α) (c : Cursor s) {r : Release}
    (h : (p.run .lenient c).ending = .unmatched r) :
    ∃ m ∈ p.moments c, m.cursor.saved = [] ∧
      m.history.getLast? = some ⟨.release r, m.cursor, m.cursor⟩ := by
  obtain ⟨m, hsaved, hm⟩ := p.exists_stuck_step c h
  have hcursor : (m.step (.release r)).cursor = m.cursor := by
    rw [Moment.cursor_step, Call.perform_release_of_nil hsaved]
  refine ⟨_, hm, hcursor ▸ hsaved, ?_⟩
  rw [hcursor, Moment.history_step, List.getLast?_concat, Call.perform_release_of_nil hsaved]

/-- Index safety. All that a cursor or a copy of it ever holds are indices of
the stream, at every one of its moments every call is in range, and a run
ends early only where it releases a save point that is not there. -/
theorem accesses_in_range (s : Stream) (i : Nat) (p : Script α) :
    s.endIndex? = some s.endIndex ∧
    Cursor.ofIndex? s i = some (Cursor.ofIndex s i) ∧
    (∀ m ∈ p.moments (Cursor.ofIndex s i),
      m.cursor.index ≤ s.endIndex ∧ (∀ j ∈ m.cursor.saved, j ≤ s.endIndex) ∧
      (∀ a : Call, a.perform? m.cursor = some (a.perform m.cursor)) ∧
      m.cursor.offset? = some m.cursor.offset ∧
      (m.cursor.atEnd = true ↔ m.cursor.index = s.endIndex) ∧
      (m.cursor.prev? = none ↔ m.cursor.index = 0)) ∧
    (p.run .lenient (Cursor.ofIndex s i)).log.cursors ⊆
      (p.moments (Cursor.ofIndex s i)).map Moment.cursor ∧
    ∀ r, (p.run .lenient (Cursor.ofIndex s i)).ending = .unmatched r →
      ∃ m ∈ p.moments (Cursor.ofIndex s i), m.cursor.saved = [] ∧
        m.history.getLast? = some ⟨.release r, m.cursor, m.cursor⟩ := by
  refine ⟨s.endIndex?_eq, Cursor.ofIndex?_eq s i, ?_, ?_, ?_⟩
  · intro m hm
    have hrange := p.inRange_of_mem_moments i m hm
    exact ⟨hrange.index_le, hrange.saved_le, Call.perform?_eq hrange.index_le,
      Cursor.offset?_eq hrange.index_le, hrange.atEnd_iff, hrange.prev?_eq_none_iff⟩
  · exact p.cursors_log_subset .lenient (Moment.start (Cursor.ofIndex s i))
  · intro r hr
    exact p.exists_stuck_moment (Cursor.ofIndex s i) hr

/-- A body that drops the save point of its own attempt, from a blank. -/
def dropsOwn : Script Unit :=
  .call (.joinUntil [.blank]) false <|
    .attempt (.call (.release .drop) false <| .call .next false .done) true .done

theorem accesses_in_range_dropsOwn :
    (dropsOwn.run .lenient (Cursor.ofIndex .spaced 0)).ending = .unmatched .drop ∧
    (dropsOwn.trail .lenient (Moment.start (Cursor.ofIndex .spaced 0))).last ∈
      dropsOwn.moments (Cursor.ofIndex .spaced 0) ∧
    (dropsOwn.trail .lenient (Moment.start (Cursor.ofIndex .spaced 0))).last.cursor.index ≤
      Stream.spaced.endIndex ∧
    ∃ m ∈ dropsOwn.moments (Cursor.ofIndex .spaced 0), m.cursor.saved = [] ∧
      m.history.getLast? = some ⟨.release .drop, m.cursor, m.cursor⟩ := by
  have hending : (dropsOwn.run .lenient (Cursor.ofIndex .spaced 0)).ending =
      .unmatched .drop := by decide
  have hlast := dropsOwn.last_mem_reached .lenient (Moment.start (Cursor.ofIndex .spaced 0))
  obtain ⟨-, -, hmoments, -, hstuck⟩ := accesses_in_range .spaced 0 dropsOwn
  exact ⟨hending, hlast, (hmoments _ hlast).1, hstuck .drop hending⟩

end Script

end DocCursor
