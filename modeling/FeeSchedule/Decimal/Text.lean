import FeeSchedule.Decimal.Basic
import FeeSchedule.Unicode.Blank
import FeeSchedule.Unicode.Digit

/-!
# `FeeSchedule.Decimal.Text`: reading a number from text

The text of a number is read exactly, without rounding. Before reading, white space around
the text is dropped, every underscore is dropped, and a decimal digit of any script counts
as the ASCII digit of the same value (`١٢` reads as `12`); any other character outside
ASCII makes the text unreadable. What remains must be

    [sign] digits [. [digits]] [E [sign] digits]     with at least one digit before E
    [sign] . digits [E [sign] digits]
    [sign] Inf | Infinity | NaN [digits] | sNaN [digits]     in any mix of cases

An unreadable text is `Signal.conversionSyntax`. A readable text whose exponent lies beyond
about 10^18, where no number can be represented, is `Signal.invalidOperation`.
-/

namespace FeeSchedule

namespace Decimal

/-- The text as ASCII characters: surrounding white space and all underscores dropped,
decimal digits of other scripts replaced by their ASCII digit. `none` when a character has
no ASCII reading; white space inside the text becomes a space, which no number contains. -/
def asciiReading (s : String) : Option (List Char) :=
  let cs := ((s.toList.dropWhile Unicode.isBlank).reverse.dropWhile Unicode.isBlank).reverse
  cs.foldr (fun c acc => acc.bind fun rest =>
    if c = '_' then some rest
    else if 0 < c.toNat ∧ c.toNat ≤ 127 then some (c :: rest)
    else if Unicode.isBlank c then some (' ' :: rest)
    else (Unicode.decimalValue? c).map fun v => Char.ofNat (48 + v) :: rest) (some [])

/-- The value of a list of ASCII digits, or `none` when some character is not a digit. -/
def digitsValue? (cs : List Char) : Option Nat :=
  cs.foldl (fun acc c => acc.bind fun v =>
    if c.isDigit then some (10 * v + (c.toNat - 48)) else none) (some 0)

/-- Whether `cs` spells `word` (given in lower case) in any mix of cases. -/
def spells (cs : List Char) (word : String) : Bool :=
  cs.map Char.toLower == word.toList

/-- A payload: any number of digits, read as a natural number. -/
def payload? (cs : List Char) : Option Nat :=
  if cs.all Char.isDigit then digitsValue? cs else none

/-- The exponent part after `E`: an optional sign and at least one digit. -/
def exponent? : List Char → Option Int
  | '+' :: ds => if ds.isEmpty then none else (digitsValue? ds).map Int.ofNat
  | '-' :: ds => if ds.isEmpty then none else (digitsValue? ds).map fun n => -(n : Int)
  | ds => if ds.isEmpty then none else (digitsValue? ds).map Int.ofNat

/-- The coefficient and exponent written by `digits [. digits] [E exponent]`, where there
is at least one digit and, when an exponent is given, at least one digit before it. -/
def numeral? (cs : List Char) : Option (Nat × Int) :=
  let mant := cs.takeWhile (fun c => c ≠ 'e' ∧ c ≠ 'E')
  let rest := cs.dropWhile (fun c => c ≠ 'e' ∧ c ≠ 'E')
  let whole := mant.takeWhile (· ≠ '.')
  let frac := (mant.dropWhile (· ≠ '.')).drop 1
  let hasPoint := mant.contains '.'
  if !(whole ++ frac).all Char.isDigit || (whole ++ frac).isEmpty then none
  else if hasPoint && frac.contains '.' then none
  else
    let exp? : Option Int := match rest with
      | [] => some 0
      | _ :: e => exponent? e
    match exp?, digitsValue? (whole ++ frac) with
    | some x, some c => some (c, x - frac.length)
    | _, _ => none

/-- The number written by an ASCII text, or `none` when the text is not a number. -/
def ofAscii? (cs : List Char) : Option Decimal :=
  let (neg, body) := match cs with
    | '+' :: r => (false, r)
    | '-' :: r => (true, r)
    | r => (false, r)
  if spells (body.take 3) "nan" then
    (payload? (body.drop 3)).map (nan neg false)
  else if spells (body.take 4) "snan" then
    (payload? (body.drop 4)).map (nan neg true)
  else if spells (body.take 3) "inf" then
    if body.length = 3 ∨ spells body "infinity" then some (infinite neg) else none
  else
    (numeral? body).map fun (c, e) => finite neg c e

/-- The largest adjusted exponent an exactly read number may have. -/
def readLimit : Int := 999999999999999999

/-- Whether an exactly read finite number can be represented at all: its exponents stay
within about 10^18 either way. -/
def representable (c : Nat) (e : Int) : Bool :=
  if c = 0 then -2 * readLimit + 1 ≤ e ∧ e ≤ readLimit
  else adjusted c e ≤ readLimit ∧ -2 * readLimit + 1 ≤ e

/-- The number written by `s`, read exactly. -/
def ofText (s : String) : Except Signal Decimal :=
  match (asciiReading s).bind ofAscii? with
  | none => .error .conversionSyntax
  | some (finite neg c e) =>
    if representable c e then .ok (finite neg c e) else .error .invalidOperation
  | some d => .ok d

end Decimal

end FeeSchedule
