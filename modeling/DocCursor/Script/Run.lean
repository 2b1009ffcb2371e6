import DocCursor.Script.Log

/-!
# Runs

Inside an attempt a script runs strictly: it ends at the first failure that
is not caught, and at the first value. Everywhere else it runs leniently, to
its last step. A release without a save point ends either, whatever the
step is nested in. `parse` is a strict run without its log, and
`parse_attempt` says that attempts in scripts are attempts on the cursor.
-/

namespace DocCursor

inductive Mode where
  | lenient
  | strict
  deriving DecidableEq, Repr

namespace Mode

variable {α β : Type}

/-- The ending that the outcome of a step forces on the script. -/
def ending? (mode : Mode) (caught : Bool) : Outcome Failure β → Option (Outcome Failure α)
  | .done _ => none
  | .failed f => if mode = .strict ∧ !caught then some (.failed f) else none
  | .unmatched r => some (.unmatched r)

@[simp] theorem ending?_done (mode : Mode) (caught : Bool) (b : β) :
    (mode.ending? caught (.done b) : Option (Outcome Failure α)) = none := rfl

@[simp] theorem ending?_failed_lenient (caught : Bool) (f : Failure) :
    (lenient.ending? caught (.failed f : Outcome Failure β) : Option (Outcome Failure α)) =
      none := by
  simp [ending?]

@[simp] theorem ending?_failed_strict (caught : Bool) (f : Failure) :
    (strict.ending? caught (.failed f : Outcome Failure β) : Option (Outcome Failure α)) =
      if caught then none else some (.failed f) := by
  cases caught <;> rfl

@[simp] theorem ending?_unmatched (mode : Mode) (caught : Bool) (r : Release) :
    (mode.ending? caught (.unmatched r : Outcome Failure β) : Option (Outcome Failure α)) =
      some (.unmatched r) := rfl

end Mode

/-- A script that ran: its log, the cursor it left, and how it ended. It is
done with a value if it gave one, and with none after its last step. -/
structure Run (s : Stream) (α : Type) where
  log : Log s α
  cursor : Cursor s
  ending : Outcome Failure (Option α)
  deriving DecidableEq, Repr

namespace Script

variable {s : Stream} {α : Type}

def run : Script α → Mode → Cursor s → Run s α
  | done, _, c => ⟨.nil, c, .done none⟩
  | call a caught rest, mode, c =>
      let (outcome, d) := a.perform c
      match mode.ending? caught outcome with
      | some ending => ⟨.call a outcome d .nil, d, ending⟩
      | none =>
          let after := rest.run mode d
          { after with log := .call a outcome d after.log }
  | give value rest, mode, c =>
      match mode with
      | .strict => ⟨.give value c .nil, c, .done (some value)⟩
      | .lenient =>
          let after := rest.run .lenient c
          { after with log := .give value c after.log }
  | attempt body caught rest, mode, c =>
      let inner := body.run .strict c.push
      let (outcome, d) := inner.cursor.close inner.ending
      match mode.ending? caught outcome with
      | some ending => ⟨.attempt inner.log outcome d .nil, d, ending⟩
      | none =>
          let after := rest.run mode d
          { after with log := .attempt inner.log outcome d after.log }
  | fork body rest, mode, c =>
      let inner := body.run .lenient c
      match mode.ending? true inner.ending with
      | some ending => ⟨.fork inner.log inner.ending c .nil, c, ending⟩
      | none =>
          let after := rest.run mode c
          { after with log := .fork inner.log inner.ending c after.log }

/-- The script as a parser that `Cursor.attempt` can run. -/
def parse (p : Script α) (c : Cursor s) : Outcome Failure (Option α) × Cursor s :=
  let alone := p.run .strict c
  (alone.ending, alone.cursor)

@[simp] theorem parse_done (c : Cursor s) : (done : Script α).parse c = (.done none, c) := rfl

@[simp] theorem parse_give (value : α) (rest : Script α) (c : Cursor s) :
    (give value rest).parse c = (.done (some value), c) := rfl

theorem parse_call (a : Call) (caught : Bool) (rest : Script α) (c : Cursor s) :
    (call a caught rest).parse c = match a.perform c with
      | (.done _, d) => rest.parse d
      | (.failed f, d) => if caught then rest.parse d else (.failed f, d)
      | (.unmatched r, d) => (.unmatched r, d) := by
  simp only [parse, run]
  rcases a.perform c with ⟨_ | f | r, d⟩
  · rfl
  · cases caught <;> rfl
  · rfl

theorem parse_attempt (body : Script α) (caught : Bool) (rest : Script α) (c : Cursor s) :
    (attempt body caught rest).parse c = match c.attempt body.parse with
      | (.done _, d) => rest.parse d
      | (.failed f, d) => if caught then rest.parse d else (.failed f, d)
      | (.unmatched r, d) => (.unmatched r, d) := by
  simp only [parse, run, Cursor.attempt]
  rcases (body.run .strict c.push).cursor.close (body.run .strict c.push).ending
    with ⟨_ | f | r, d⟩
  · rfl
  · cases caught <;> rfl
  · rfl

end Script

end DocCursor
