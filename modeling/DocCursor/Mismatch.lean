import DocCursor.Token.Kind

/-!
# Unexpected tokens

What a parser reports when the token in front of it has another kind than
the one it expects. The offset counts the UTF-8 bytes of the source before
the found text. The kind that was found is kept for the caller and does not
occur in the message.
-/

namespace DocCursor

structure Mismatch where
  found : String
  foundKind : Token.Kind
  expected : Token.Kind
  offset : Nat
  deriving DecidableEq, Repr

/-- The found text is quoted as it is, without escapes. -/
def Mismatch.message (m : Mismatch) : String :=
  "Unexpected token '" ++ m.found ++ "', expected " ++ m.expected.label
    ++ " at offset " ++ toString m.offset

end DocCursor
