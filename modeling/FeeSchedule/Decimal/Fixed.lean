import FeeSchedule.Decimal.Round

/-!
# `FeeSchedule.Decimal.Fixed`: fixed-point text with grouped thousands

Amounts in reports are written with a fixed number of decimals: the number is rounded to
that many places, a tie going to the even neighbour, without any limit on the number of
digits; the integer digits are grouped by three from the right with a separator; a minus
stands before every number whose sign is set, so a small negative amount that rounds to zero
is written `-0.00`. Infinities and NaNs are written as in scientific text.
-/

namespace FeeSchedule

namespace Decimal

/-- The digits of `ds` grouped by three from the right, joined with `sep`. -/
def groupThousands (sep : Char) (ds : List Char) : List Char :=
  let rec go : Nat → List Char → List Char
    | _, [] => []
    | k, c :: rest =>
      if k % 3 = 0 ∧ k ≠ 0 then sep :: c :: go (k + 1) rest else c :: go (k + 1) rest
  (go 0 ds.reverse).reverse

/-- The digits of the magnitude `c * 10^e` rounded half-even to `places` decimals, as the
integer digits (without leading zeros, at least one) and the `places` decimal digits. -/
def fixedDigits (places : Nat) (negative : Bool) (c : Nat) (e : Int) : List Char × List Char :=
  let ds : List Char :=
    if e + places ≥ 0 then
      if c = 0 then ['0'] else digitsOf c ++ List.replicate (e + places).toNat '0'
    else digitsOf (shiftRound .halfEven negative c (-(e + places)).toNat)
  let padded := List.replicate (places + 1 - ds.length) '0' ++ ds
  let intPart := padded.take (padded.length - places)
  let intPart := match intPart.dropWhile (· = '0') with
    | [] => ['0']
    | r => r
  (intPart, padded.drop (padded.length - places))

/-- The text of `d` with `places` decimals and the integer digits grouped by `sep` when it
is given. -/
def fixedText (places : Nat) (sep : Option Char) (d : Decimal) : String :=
  match d with
  | finite s c e =>
    let (i, f) := fixedDigits places s c e
    let i := match sep with
      | some g => groupThousands g i
      | none => i
    String.ofList ((if s then ['-'] else []) ++ i ++ (if places = 0 then [] else '.' :: f))
  | d => d.toText

/-- The text of an amount in a report: two decimals, thousands separated by commas. -/
def moneyText (d : Decimal) : String := fixedText 2 (some ',') d

end Decimal

end FeeSchedule
