/-!
# Token kinds

The closed vocabulary of a doc-comment annotation such as a parameter or
return type. Blanks are the spaces and tabs between other tokens. Two kinds
share the sign of an ampersand, so a label does not determine its kind.
-/

namespace DocCursor

inductive Token.Kind where
  /-- An ampersand in front of a parameter that is passed by reference. -/
  | reference
  | union
  /-- An ampersand between two intersected types. -/
  | intersection
  | nullable
  | openParen
  | closeParen
  | openAngle
  | closeAngle
  | openSquare
  | closeSquare
  | openCurly
  | closeCurly
  | comma
  | colon
  | variadic
  | doubleColon
  | doubleArrow
  | equal
  | openDoc
  | closeDoc
  | docTag
  /-- A line break inside the comment, with the asterisk of the next line. -/
  | lineBreak
  | float
  | integer
  | singleQuoted
  | doubleQuoted
  | identifier
  | thisVariable
  | namedVariable
  | blank
  | other
  /-- The mark behind the last token of the comment. -/
  | endOfInput
  deriving DecidableEq, Repr

namespace Token.Kind

/-- How a message names a kind: by its sign where that is fixed. -/
def label : Kind → String
  | reference => "'&'"
  | union => "'|'"
  | intersection => "'&'"
  | nullable => "'?'"
  | openParen => "'('"
  | closeParen => "')'"
  | openAngle => "'<'"
  | closeAngle => "'>'"
  | openSquare => "'['"
  | closeSquare => "']'"
  | openCurly => "'\x7b'"
  | closeCurly => "'\x7d'"
  | comma => "','"
  | colon => "':'"
  | variadic => "'...'"
  | doubleColon => "'::'"
  | doubleArrow => "'=>'"
  | equal => "'='"
  | openDoc => "'/**'"
  | closeDoc => "'*/'"
  | docTag => "doc tag"
  | lineBreak => "end of line"
  | float => "float"
  | integer => "integer"
  | singleQuoted => "single-quoted string"
  | doubleQuoted => "double-quoted string"
  | identifier => "type"
  | thisVariable => "'$this'"
  | namedVariable => "variable"
  | blank => "horizontal whitespace"
  | other => "other"
  | endOfInput => "end of input"

instance : ToString Kind := ⟨label⟩

def isBlank (k : Kind) : Bool := k = blank

@[simp] theorem isBlank_iff {k : Kind} : k.isBlank = true ↔ k = blank := by
  simp [isBlank]

@[simp] theorem isBlank_eq_false_iff {k : Kind} : k.isBlank = false ↔ k ≠ blank := by
  simp [isBlank]

end Token.Kind

end DocCursor
