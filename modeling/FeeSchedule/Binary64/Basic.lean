import FeeSchedule.Decimal.Basic

/-!
# `FeeSchedule.Binary64.Basic`: double-precision binary numbers

A JSON number with a fraction or an exponent is read as the nearest IEEE 754 double, and
its value later shows through the shortest decimal that reads back as that double. A
finite double is `mant · 2 ^ exp` with `mant < 2 ^ 53` and `-1074 ≤ exp ≤ 971`; normal
ones have `2 ^ 52 ≤ mant`, and those below have the least exponent.

`Binary64.nearest` rounds a decimal `m · 10 ^ e` to the nearest double, a tie to the even
mantissa, and goes to infinity from `2 ^ 1024` on (the first value that would round past
the largest double). It works in exact integer arithmetic: the quotient of the scaled
value by a power of two is rounded once.
-/

namespace FeeSchedule

/-- A double-precision binary floating-point number. -/
inductive Binary64 where
  /-- The number `(-1) ^ negative · mant · 2 ^ exp`. -/
  | finite (negative : Bool) (mant : Nat) (exp : Int)
  | infinite (negative : Bool)
  | nan
  deriving DecidableEq, Repr, Inhabited

namespace Binary64

/-- The least exponent of a double. -/
def minExp : Int := -1074

/-- The greatest exponent of a double's mantissa. -/
def maxExp : Int := 971

/-- The number of binary digits of `n`: 0 for 0. -/
def bitLength (n : Nat) : Nat := if n = 0 then 0 else Nat.log2 n + 1

/-- `a / b` rounded to the nearest integer, a tie to the even one. -/
def roundHalfEven (a b : Nat) : Nat :=
  let q := a / b
  let r := a % b
  if 2 * r > b ∨ (2 * r = b ∧ q % 2 = 1) then q + 1 else q

/-- Whether `n / (d · 2 ^ k)` is at least `2 ^ 53`. -/
def tooWide (n d : Nat) (k : Int) : Bool :=
  n * Nat.pow 2 (-k).toNat ≥ d * Nat.pow 2 53 * Nat.pow 2 k.toNat

/-- The exponent for the quotient `n / d`: the one that leaves 53 binary digits, but not
below the least exponent. The first guess leaves 53 or 54 digits. -/
def scaleFor (n d : Nat) : Int :=
  let k : Int := (bitLength n : Int) - (bitLength d : Int) - 53
  max (if tooWide n d k then k + 1 else k) minExp

/-- `n / (d · 2 ^ k)` rounded to the nearest integer, a tie to the even one. -/
def quotient (n d : Nat) (k : Int) : Nat :=
  if k ≥ 0 then roundHalfEven n (d * Nat.pow 2 k.toNat) else roundHalfEven (n * Nat.pow 2 (-k).toNat) d

/-- The double nearest to `n / d` with the given sign, `d > 0`. -/
def ofRatio (negative : Bool) (n d : Nat) : Binary64 :=
  if n = 0 then .finite negative 0 minExp
  else
    let k := scaleFor n d
    let q := quotient n d k
    let (q, k) := if q = Nat.pow 2 53 then (Nat.pow 2 52, k + 1) else (q, k)
    if k > maxExp then .infinite negative
    else if q = 0 then .finite negative 0 minExp
    else .finite negative q k

/-- The double nearest to `(-1) ^ negative · m · 10 ^ e`. Beyond `10 ^ 400` every value is
infinite and below `10 ^ -400` every value is a zero, so such powers are never formed. -/
def nearest (negative : Bool) (m : Nat) (e : Int) : Binary64 :=
  let size : Int := (Decimal.digitCount m : Int) + e
  if m = 0 then .finite negative 0 minExp
  else if size > 400 then .infinite negative
  else if size < -400 then .finite negative 0 minExp
  else if e ≥ 0 then ofRatio negative (m * Nat.pow 10 e.toNat) 1
  else ofRatio negative m (Nat.pow 10 (-e).toNat)

/-- Whether a double is finite. -/
def isFinite : Binary64 → Bool
  | .finite .. => true
  | _ => false

end Binary64

end FeeSchedule
