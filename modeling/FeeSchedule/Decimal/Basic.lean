/-!
# `FeeSchedule.Decimal.Basic`: decimal numbers and their scientific text

Fee amounts are decimal numbers in the sense of the General Decimal Arithmetic
specification: a finite number is a sign, a coefficient and an exponent, and its value is
`(-1)^sign * coefficient * 10^exponent`. The representation is not normalised, so `1.0`
(coefficient 10, exponent -1) and `1` are different numbers of equal value, and a zero
keeps its sign. Besides the finite numbers there are the two infinities and the NaNs
("not a number"), quiet or signalling, with an optional integer payload.

The text of a number is its *scientific string*: the coefficient's digits with the decimal
point placed by the exponent, switching to one digit before the point and an `E+n`/`E-n`
suffix when the exponent is positive or the number would need more than five zeros after
the point. So `12.50`, `1E+1`, `0.000001`, `1E-7` and `-0` are texts of numbers.

The failures of decimal arithmetic are the `Signal`s: the conditions that stop a
computation instead of giving a result.
-/

namespace FeeSchedule

/-- A decimal number: finite with sign, coefficient and exponent, infinite with a sign, or
a NaN with a sign, a signalling flag and a payload. -/
inductive Decimal where
  | finite (negative : Bool) (coeff : Nat) (exp : Int)
  | infinite (negative : Bool)
  | nan (negative : Bool) (signaling : Bool) (payload : Nat)
  deriving DecidableEq, Repr, Inhabited

/-- The conditions of decimal arithmetic that end a computation with an error. -/
inductive Signal where
  /-- An operation with no meaningful result: infinity minus infinity, zero times
  infinity, an ordering that involves a NaN, a signalling NaN as operand, a quantum out
  of range. -/
  | invalidOperation
  /-- A text that is not the text of a number. -/
  | conversionSyntax
  /-- A finite non-zero number divided by zero. -/
  | divisionByZero
  /-- A result whose adjusted exponent exceeds the largest one allowed. -/
  | overflow
  deriving DecidableEq, Repr, Inhabited

namespace Signal

/-- The name of the condition a signal stands for, as reports show it. -/
def condition : Signal → String
  | .invalidOperation => "InvalidOperation"
  | .conversionSyntax => "ConversionSyntax"
  | .divisionByZero => "DivisionByZero"
  | .overflow => "Overflow"

/-- The class under which a signal is reported: an unreadable number counts as an invalid
operation. -/
def kind : Signal → String
  | .conversionSyntax => "InvalidOperation"
  | s => s.condition

/-- The report of a signal: the list of the conditions it raised. -/
def report (s : Signal) : String := "[<class 'decimal." ++ s.condition ++ "'>]"

/-- The class and the report together: `Overflow([<class 'decimal.Overflow'>])`. -/
def describe (s : Signal) : String := s.kind ++ "(" ++ s.report ++ ")"

end Signal

namespace Decimal

/-- The decimal digits of `n`, most significant first; zero has the single digit `0`. -/
def digitsOf (n : Nat) : List Char := Nat.toDigits 10 n

/-- The number of decimal digits of `n`; zero has one digit. -/
def digitCount (n : Nat) : Nat := (digitsOf n).length

/-- The number zero with a positive sign and exponent zero. -/
def zero : Decimal := finite false 0 0

/-- The integer `n` as a decimal with exponent zero. -/
def ofInt (n : Int) : Decimal := finite (n < 0) n.natAbs 0

/-- The natural number `n` as a decimal with exponent zero. -/
def ofNat (n : Nat) : Decimal := finite false n 0

/-- Whether the number is finite. -/
def isFinite : Decimal → Bool
  | finite .. => true
  | _ => false

/-- Whether the number is a NaN, quiet or signalling. -/
def isNaN : Decimal → Bool
  | nan .. => true
  | _ => false

/-- Whether the number is a signalling NaN. -/
def isSignaling : Decimal → Bool
  | nan _ s _ => s
  | _ => false

/-- Whether the number is a zero of either sign. -/
def isZero : Decimal → Bool
  | finite _ c _ => c == 0
  | _ => false

/-- The sign bit: set for negative numbers, negative zero, negative infinity and a NaN
written with a minus. -/
def isNegative : Decimal → Bool
  | finite s _ _ => s
  | infinite s => s
  | nan s _ _ => s

/-- The exponent of the most significant digit: `exp + digits - 1`. -/
def adjusted (c : Nat) (e : Int) : Int := e + digitCount c - 1

/-- Where the decimal point goes in the text of a finite number with `len` digits whose
least significant one has exponent `e`: after `e + len` digits when the number is written
without exponent, after one digit otherwise. -/
def pointPlace (len : Nat) (e : Int) : Int :=
  if e ≤ 0 ∧ e + len > -6 then e + len else 1

/-- The digits of a coefficient arranged around the decimal point at `place`. -/
def placeDigits (ds : List Char) (place : Int) : List Char :=
  if place ≤ 0 then
    '0' :: '.' :: (List.replicate place.natAbs '0' ++ ds)
  else if ds.length ≤ place.toNat then
    ds ++ List.replicate (place.toNat - ds.length) '0'
  else
    ds.take place.toNat ++ '.' :: ds.drop place.toNat

/-- The exponent suffix `E+n` or `E-n`, empty when the exponent is zero. -/
def exponentSuffix (n : Int) : List Char :=
  if n = 0 then []
  else 'E' :: (if n < 0 then '-' else '+') :: digitsOf n.natAbs

/-- The scientific text of a finite number without its sign. -/
def finiteText (c : Nat) (e : Int) : List Char :=
  let ds := digitsOf c
  let place := pointPlace ds.length e
  placeDigits ds place ++ exponentSuffix (e + ds.length - place)

/-- The scientific text of a number: `Infinity`, `NaN`, `sNaN` with the payload's digits
when it is not zero, or the finite text, each after a minus when the sign is set. -/
def toText (d : Decimal) : String :=
  let sign := if d.isNegative then "-" else ""
  match d with
  | finite _ c e => sign ++ String.ofList (finiteText c e)
  | infinite _ => sign ++ "Infinity"
  | nan _ s p =>
    sign ++ (if s then "sNaN" else "NaN") ++ (if p = 0 then "" else String.ofList (digitsOf p))

instance : ToString Decimal := ⟨toText⟩

/-- The constructor form of a number used inside messages: `Decimal('1.50')`. -/
def constructorText (d : Decimal) : String := "Decimal('" ++ d.toText ++ "')"

/-- The number with its sign bit flipped, whatever it is. -/
def flipSign : Decimal → Decimal
  | finite s c e => finite (!s) c e
  | infinite s => infinite (!s)
  | nan s q p => nan (!s) q p

end Decimal

end FeeSchedule
