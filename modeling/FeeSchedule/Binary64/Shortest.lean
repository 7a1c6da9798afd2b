import FeeSchedule.Binary64.Basic

/-!
# `FeeSchedule.Binary64.Shortest`: the shortest decimal that reads back

A double stands for every real number that rounds to it: the interval around it that
reaches halfway to each neighbour, ends included when the mantissa is even (a tie then
rounds back to it). `Binary64.shortest` finds the decimal with the fewest significant
digits in that interval. For `n` digits it looks at the two neighbours of the value on the
grid of `n`-digit decimals; the first `n` with one inside wins, of two the nearer, and of
two equally near the one with the even last digit.

`Binary64.text` writes a double as the usual shortest text of a floating-point number:
positional when the decimal point falls between 4 places before the first digit and 16
after it, with `.0` after an integral value (`1.0`, `0.0001`, `1000000000000000.0`), else
one digit, the rest after a point, and a signed exponent of at least two digits (`1e+16`,
`1.5e-05`). Zeros keep their sign; the others are `inf`, `-inf` and `nan`.
-/

namespace FeeSchedule

namespace Binary64

/-- Compares `a · 10 ^ s` with `b · 2 ^ t`. -/
def compareScaled (a : Nat) (s : Int) (b : Nat) (t : Int) : Ordering :=
  compare (a * Nat.pow 10 s.toNat * Nat.pow 2 (-t).toNat) (b * Nat.pow 2 t.toNat * Nat.pow 10 (-s).toNat)

/-- The interval of reals that round to `mant · 2 ^ exp`, as `lo · 2 ^ (exp - 2)` to
`hi · 2 ^ (exp - 2)`: halfway to each neighbour, where the neighbour below is closer when the
mantissa is the least normal one above the least exponent. -/
def bounds (mant : Nat) (exp : Int) : Nat × Nat :=
  let lo := if mant = Nat.pow 2 52 ∧ exp > minExp then 4 * mant - 1 else 4 * mant - 2
  (lo, 4 * mant + 2)

/-- Whether the decimal `k · 10 ^ s` lies in the interval of `mant · 2 ^ exp`. -/
def inside (mant : Nat) (exp : Int) (k : Nat) (s : Int) : Bool :=
  let (lo, hi) := bounds mant exp
  let closed := mant % 2 = 0
  let above := match compareScaled k s lo (exp - 2) with
    | .gt => true
    | .eq => closed
    | .lt => false
  let below := match compareScaled k s hi (exp - 2) with
    | .lt => true
    | .eq => closed
    | .gt => false
  above && below

/-- The exponent of the leading decimal digit of `mant · 2 ^ exp`, for `mant > 0`. -/
def leadExponent (mant : Nat) (exp : Int) : Int :=
  let n := mant * Nat.pow 2 exp.toNat
  let d := Nat.pow 2 (-exp).toNat
  let guess : Int := (Decimal.digitCount n : Int) - (Decimal.digitCount d : Int)
  -- the value lies in [10 ^ (guess - 1), 10 ^ (guess + 1))
  if compareScaled 1 guess mant exp = .gt then guess - 1 else guess

/-- `floor (mant · 2 ^ exp / 10 ^ s)`. -/
def gridFloor (mant : Nat) (exp : Int) (s : Int) : Nat :=
  (mant * Nat.pow 2 exp.toNat * Nat.pow 10 (-s).toNat) / (Nat.pow 2 (-exp).toNat * Nat.pow 10 s.toNat)

/-- The nearer of the two grid points `k · 10 ^ s` and `(k + 1) · 10 ^ s` to
`mant · 2 ^ exp`, the even one of two equally near. -/
def nearer (mant : Nat) (exp : Int) (k : Nat) (s : Int) : Nat :=
  -- compare the distance to `k` with the distance to `k + 1`: `2 · value` against `2k + 1`
  match compareScaled (2 * k + 1) s (2 * mant) exp with
  | .lt => k + 1
  | .gt => k
  | .eq => if k % 2 = 0 then k else k + 1

/-- The shortest decimal in the interval of `mant · 2 ^ exp`, as `k · 10 ^ s`, trying `n`
digits and more up to 17. -/
def shortestFrom (mant : Nat) (exp : Int) (lead : Int) : Nat → Nat → Nat × Int
  | 0, _ => (mant, exp)
  | fuel + 1, n =>
    let s := lead - (n : Int) + 1
    let k := gridFloor mant exp s
    let lowIn := inside mant exp k s
    let highIn := inside mant exp (k + 1) s
    if lowIn ∧ highIn then (nearer mant exp k s, s)
    else if lowIn then (k, s)
    else if highIn then (k + 1, s)
    else shortestFrom mant exp lead fuel (n + 1)

/-- Removes the trailing zeros of `k · 10 ^ s`. -/
def stripZeros (k : Nat) (s : Int) : Nat × Int :=
  if k = 0 then (0, s)
  else
    let zeros := ((Decimal.digitsOf k).reverse.takeWhile (· = '0')).length
    (k / Nat.pow 10 zeros, s + zeros)

/-- The shortest decimal `k · 10 ^ s` that reads back as `mant · 2 ^ exp`, `mant > 0`, with
no trailing zero in `k`. -/
def shortest (mant : Nat) (exp : Int) : Nat × Int :=
  let (k, s) := shortestFrom mant exp (leadExponent mant exp) 17 1
  stripZeros k s

/-- The digits of an exponent: a sign and at least two digits. -/
def exponentText (e : Int) : String :=
  let sign := if e < 0 then "-" else "+"
  let digits := toString e.natAbs
  sign ++ (if digits.length < 2 then "0" ++ digits else digits)

/-- The text of the digits `ds` with the decimal point after `point` of them (which may be
out of their range), following the rules in the module header. -/
def placeText (ds : String) (point : Int) : String :=
  if point ≤ -4 ∨ point > 16 then
    let rest := ds.drop 1
    (ds.take 1).toString ++ (if rest.isEmpty then "" else "." ++ rest.toString) ++ "e"
      ++ exponentText (point - 1)
  else if point ≤ 0 then "0." ++ "".pushn '0' (-point).toNat ++ ds
  else if point.toNat ≥ ds.length then ds ++ "".pushn '0' (point.toNat - ds.length) ++ ".0"
  else (ds.take point.toNat).toString ++ "." ++ (ds.drop point.toNat).toString

/-- The shortest text of a double. -/
def text : Binary64 → String
  | .nan => "nan"
  | .infinite negative => if negative then "-inf" else "inf"
  | .finite negative mant exp =>
    let sign := if negative then "-" else ""
    if mant = 0 then sign ++ "0.0"
    else
      let (k, s) := shortest mant exp
      let ds := toString k
      sign ++ placeText ds (s + ds.length)

end Binary64

end FeeSchedule
