import DocCursor.Mismatch
import Mathlib.Logic.Function.Basic

/-!
# Messages read back

The message of a mismatch quotes the found text as it is, so that this text may
look like the rest of a message. Still two messages are equal only if they say the
same, since a message can be read from its end: the digits of the offset go back to
the last blank, and no label ends in another one, so that what stands before the
offset ends in one label only. What is left is the found text in its frame.
-/

namespace DocCursor

/-- If neither of two words ends in the other unless they are the same, then texts
that end in these words are equal only part by part. -/
theorem append_eq_append_iff_of_suffix {x y u v : String} (hu : u.toList <:+ v.toList → u = v)
    (hv : v.toList <:+ u.toList → v = u) : x ++ u = y ++ v ↔ x = y ∧ u = v := by
  constructor
  · intro h
    have htext : x.toList ++ u.toList = y.toList ++ v.toList := by
      rw [← String.toList_append, h, String.toList_append]
    have hword : u = v := by
      have hend : u.toList <:+ y.toList ++ v.toList := htext ▸ List.suffix_append _ _
      rcases List.suffix_or_suffix_of_suffix hend (List.suffix_append _ _) with huv | hvu
      · exact hu huv
      · exact (hv hvu).symm
    subst hword
    exact ⟨(String.append_left_inj u).mp h, rfl⟩
  · rintro ⟨rfl, rfl⟩
    rfl

/-! ## Labels -/

namespace Token.Kind

def all : List Kind :=
  [reference, union, intersection, nullable, openParen, closeParen, openAngle, closeAngle,
    openSquare, closeSquare, openCurly, closeCurly, comma, colon, variadic, doubleColon,
    doubleArrow, equal, openDoc, closeDoc, docTag, lineBreak, float, integer, singleQuoted,
    doubleQuoted, identifier, thisVariable, namedVariable, blank, other, endOfInput]

theorem mem_all (k : Kind) : k ∈ all := by cases k <;> decide

/-- One kind, or the two whose sign is an ampersand. -/
def NamedAlike (k k' : Kind) : Prop :=
  k = k' ∨ k ∈ [reference, intersection] ∧ k' ∈ [reference, intersection]

instance (k k' : Kind) : Decidable (NamedAlike k k') := inferInstanceAs (Decidable (_ ∨ _))

variable {k k' : Kind}

/-- No label ends in another one. -/
theorem namedAlike_of_suffix (h : k.label.toList <:+ k'.label.toList) : k.NamedAlike k' := by
  have htable : ∀ k ∈ all, ∀ k' ∈ all, k.label.toList <:+ k'.label.toList → k.NamedAlike k' := by
    decide +kernel
  exact htable k (mem_all k) k' (mem_all k') h

theorem label_eq_iff : k.label = k'.label ↔ k.NamedAlike k' := by
  constructor
  · intro h
    have hlabel : k.label.toList = k'.label.toList := congrArg String.toList h
    exact namedAlike_of_suffix (hlabel ▸ List.suffix_rfl)
  · rintro (rfl | ⟨hk, hk'⟩)
    · rfl
    · have hsign : ∀ j ∈ [reference, intersection], j.label = "'&'" := by decide
      rw [hsign k hk, hsign k' hk']

theorem label_eq_of_suffix (h : k.label.toList <:+ k'.label.toList) : k.label = k'.label :=
  label_eq_iff.mpr (namedAlike_of_suffix h)

end Token.Kind

/-! ## Offsets -/

namespace Mismatch

/-- How a message ends: in a blank and the digits of the offset. -/
def offsetWord (n : Nat) : String := " " ++ n.repr

theorem toList_offsetWord (n : Nat) : (offsetWord n).toList = ' ' :: Nat.toDigits 10 n := by
  rw [offsetWord, String.toList_append, Nat.toList_repr]
  rfl

theorem offsetWord_injective : Function.Injective offsetWord := by
  intro m n h
  have hdigits : Function.Injective (Nat.toDigits 10) :=
    Function.LeftInverse.injective fun _ => Nat.ofDigitChars_ten_toDigits
  have hwords := congrArg String.toList h
  rw [toList_offsetWord, toList_offsetWord] at hwords
  exact hdigits (List.cons.inj hwords).2

theorem blank_not_mem_toDigits (n : Nat) : ' ' ∉ Nat.toDigits 10 n := by
  intro h
  cases Nat.isDigit_of_mem_toDigits (by decide) (by decide) h

/-- One blank only stands in such a word, so that it ends in no other one. -/
theorem offsetWord_eq_of_suffix {m n : Nat}
    (h : (offsetWord m).toList <:+ (offsetWord n).toList) : offsetWord m = offsetWord n := by
  rw [toList_offsetWord, toList_offsetWord] at h
  rcases List.suffix_cons_iff.mp h with heq | hdigits
  · rw [← String.toList_inj, toList_offsetWord, toList_offsetWord, heq]
  · exact (blank_not_mem_toDigits n (hdigits.subset List.mem_cons_self)).elim

/-! ## Messages -/

theorem message_eq_append (m : Mismatch) :
    m.message = "Unexpected token '" ++ (m.found ++ "', expected ") ++ m.expected.label
      ++ " at offset" ++ offsetWord m.offset := by
  have hmessage : m.message = "Unexpected token '" ++ m.found ++ "', expected "
      ++ m.expected.label ++ " at offset " ++ toString m.offset := rfl
  have hblank : " at offset " = " at offset" ++ " " := by decide
  rw [hmessage, hblank, Nat.toString_eq_repr, offsetWord]
  simp only [String.append_assoc]

/-- Two messages are equal exactly if they report the same text at the same offset
and name the expected kind alike, whatever the text looks like. The kind that was
found is not in the message. -/
theorem message_eq_iff (m n : Mismatch) :
    (m.message = n.message ↔
      m.found = n.found ∧ m.offset = n.offset ∧ m.expected.label = n.expected.label) ∧
    (m.expected.label = n.expected.label ↔ m.expected.NamedAlike n.expected) := by
  refine ⟨?_, Token.Kind.label_eq_iff⟩
  -- From the end: the offset, its frame, the label, and the found text in its frame.
  rw [message_eq_append, message_eq_append,
    append_eq_append_iff_of_suffix offsetWord_eq_of_suffix offsetWord_eq_of_suffix,
    String.append_left_inj,
    append_eq_append_iff_of_suffix Token.Kind.label_eq_of_suffix Token.Kind.label_eq_of_suffix,
    String.append_right_inj, String.append_left_inj, offsetWord_injective.eq_iff]
  constructor
  · rintro ⟨⟨hfound, hlabel⟩, hoffset⟩
    exact ⟨hfound, hoffset, hlabel⟩
  · rintro ⟨hfound, hoffset, hlabel⟩
    exact ⟨⟨hfound, hlabel⟩, hoffset⟩

end Mismatch

end DocCursor
