import DocCursor.Cursor.Move
import DocCursor.Cursor.SavePoint

/-!
# Calls

The single calls that a parser makes on its cursor, as data, with the answer
that each one gives. A call that fails or that finds no save point to
release leaves the cursor as it was.
-/

namespace DocCursor

inductive Failure where
  | mismatch (m : Mismatch)
  | custom (message : String)
  deriving DecidableEq, Repr

def Failure.message : Failure → String
  | .mismatch m => m.message
  | .custom message => message

inductive Answer where
  | nothing
  | truth (b : Bool)
  | token (t : Token)
  | text (joined : String)
  deriving DecidableEq, Repr

inductive Call where
  | next
  | expect (kind : Token.Kind)
  | accept (q : Token.Query)
  | isAt (q : Token.Query)
  | current
  | joinUntil (stops : List Token.Kind)
  | push
  | release (r : Release)
  | fail (message : String)
  deriving DecidableEq, Repr

namespace Call

variable {s : Stream}

/-! The calls that ask for a kind and those that ask for a text, by names of their own. -/

@[match_pattern] abbrev acceptKind (kind : Token.Kind) : Call := accept (.kind kind)

@[match_pattern] abbrev acceptText (text : String) : Call := accept (.text text)

@[match_pattern] abbrev isKind (kind : Token.Kind) : Call := isAt (.kind kind)

@[match_pattern] abbrev isText (text : String) : Call := isAt (.text text)

/-- The answer to an offer that the cursor may decline. -/
def accepted (c : Cursor s) (moved? : Option (Cursor s)) : Outcome Failure Answer × Cursor s :=
  (.done (.truth moved?.isSome), moved?.getD c)

def perform (c : Cursor s) : Call → Outcome Failure Answer × Cursor s
  | next => (.done .nothing, c.next)
  | expect kind => match c.expect kind with
    | .ok d => (.done .nothing, d)
    | .error m => (.failed (.mismatch m), c)
  | accept q => accepted c (c.accept? q)
  | isAt q => (.done (.truth (c.isAt q)), c)
  | current => (.done (.token c.current), c)
  | joinUntil stops =>
      let (joined, d) := c.joinUntil stops
      (.done (.text joined), d)
  | push => (.done .nothing, c.push)
  | release r => match c.release? r with
    | some d => (.done .nothing, d)
    | none => (.unmatched r, c)
  | fail message => (.failed (.custom message), c)

theorem perform_of_failed {c d : Cursor s} {call : Call} {f : Failure}
    (h : call.perform c = (.failed f, d)) : d = c := by
  cases call <;> simp only [perform, accepted] at h
  case expect => split at h <;> simp_all
  case release => split at h <;> simp_all
  all_goals simp_all

theorem perform_eq_unmatched_iff {c d : Cursor s} {call : Call} {r : Release} :
    call.perform c = (.unmatched r, d) ↔ call = release r ∧ c.saved = [] ∧ d = c := by
  cases call <;> simp only [perform, accepted]
  case expect => split <;> simp
  case release r' =>
    split <;> rename_i h
    · simp only [Prod.mk.injEq, reduceCtorEq, false_and, release.injEq, false_iff, not_and]
      rintro rfl hs
      simp [Cursor.release?_eq_none_iff.mpr hs] at h
    · simp [Cursor.release?_eq_none_iff.mp h, eq_comm]
  all_goals simp

end Call

end DocCursor
