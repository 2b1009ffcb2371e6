import DocCursor.Script.Basic

/-!
# Logs

The record of a run: for every step, in order, what came of it and the
cursor after it. An attempt and a fork keep the log of their body, also
when the body fails.
-/

namespace DocCursor

inductive Log (s : Stream) (α : Type) where
  | nil
  | call (c : Call) (outcome : Outcome Failure Answer) (after : Cursor s) (rest : Log s α)
  | give (value : α) (after : Cursor s) (rest : Log s α)
  | attempt (inner : Log s α) (outcome : Outcome Failure (Option α)) (after : Cursor s)
      (rest : Log s α)
  | fork (inner : Log s α) (outcome : Outcome Failure (Option α)) (after : Cursor s)
      (rest : Log s α)
  deriving DecidableEq, Repr

end DocCursor
