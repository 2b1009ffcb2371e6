import DocCursor.Script.Call

/-!
# Scripts

A script is a finite parser as data: a sequence of calls, with attempts and
forks that have scripts of their own. Its values are whatever the parser
hands to its caller.
-/

namespace DocCursor

inductive Script (α : Type) where
  | done
  /-- Make a call. Inside an attempt, a failure that is not caught ends the
  attempt. -/
  | call (c : Call) (caught : Bool) (rest : Script α)
  /-- Hand over a value. This ends the attempt in which it stands. -/
  | give (value : α) (rest : Script α)
  /-- Run the body from a save point. -/
  | attempt (body : Script α) (caught : Bool) (rest : Script α)
  /-- Run the body on a copy of the cursor. -/
  | fork (body : Script α) (rest : Script α)
  deriving DecidableEq, Repr

end DocCursor
