/-!
# `FeeSchedule.Unicode.CodePoint`: code points, lone surrogates included

JSON writes text in UTF-16 escapes, and an escape `\ud800` that no low surrogate follows still
reads: the text then holds the code point U+D800, which is no character. Such text reaches a
schedule's source and the values of its inputs, and it has to be read, compared and quoted
like any other. A `CodePoint` is a character or a surrogate standing alone, and text that may
hold one is a `List CodePoint`.

A surrogate sorts by its number among the characters. It belongs to no class of characters:
it is no blank, letter or digit, and not printable. Where a `String` has to be made of such
text (a name, a message), each surrogate becomes U+FFFD, which belongs to none of those
classes either.

Main statements: `CodePoint.toNat_ofNat` (a number below U+110000 is the number of its code
point) and `CodePoint.mend_ofString` (a string's code points give the string back).
-/

namespace FeeSchedule

/-- A Unicode code point: a character, or a surrogate (U+D800 to U+DFFF) standing alone. -/
inductive CodePoint where
  | char (c : Char)
  /-- The surrogate U+D800 + `k`. -/
  | surrogate (k : Fin 2048)
  deriving DecidableEq, Repr, Inhabited

namespace CodePoint

/-- The number of a code point. -/
def toNat : CodePoint → Nat
  | .char c => c.toNat
  | .surrogate k => 0xD800 + k.val

/-- The code point of a number; numbers from U+110000 on have none and give U+FFFD. -/
def ofNat (n : Nat) : CodePoint :=
  if h : 0xD800 ≤ n ∧ n < 0xE000 then .surrogate ⟨n - 0xD800, by omega⟩
  else if n < 0x110000 then .char (Char.ofNat n)
  else .char '\uFFFD'

/-- Code points are ordered by their numbers. -/
instance : LT CodePoint := ⟨fun a b => a.toNat < b.toNat⟩

instance (a b : CodePoint) : Decidable (a < b) := inferInstanceAs (Decidable (a.toNat < b.toNat))

/-- The character of a code point; a surrogate becomes U+FFFD. -/
def toChar : CodePoint → Char
  | .char c => c
  | .surrogate _ => '\uFFFD'

/-- Whether a code point is the character `c`. -/
def isChar (p : CodePoint) (c : Char) : Bool := p == .char c

/-- Whether a code point is a character that satisfies `f`; a surrogate satisfies nothing. -/
def satisfies (f : Char → Bool) : CodePoint → Bool
  | .char c => f c
  | .surrogate _ => false

/-- The code points of a string. -/
def ofString (s : String) : List CodePoint := s.toList.map .char

/-- The string of a text, each surrogate mended to U+FFFD. -/
def mend (ps : List CodePoint) : String := String.ofList (ps.map toChar)

theorem toNat_ofNat {n : Nat} (h : n < 0x110000) : (ofNat n).toNat = n := by
  unfold ofNat
  split
  · simp only [toNat]; omega
  · rename_i hs
    have hv : Nat.isValidChar n := by unfold Nat.isValidChar; omega
    simp only [toNat]
    rw [Char.ofNat, dif_pos hv]
    rfl

@[simp]
theorem mend_ofString (s : String) : mend (ofString s) = s := by
  simp [mend, ofString, List.map_map, Function.comp_def, toChar]

@[simp]
theorem length_ofString (s : String) : (ofString s).length = s.length := by
  simp [ofString, String.length]

end CodePoint

end FeeSchedule
