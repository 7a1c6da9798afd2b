import FeeSchedule.Decimal.Round

/-!
# `FeeSchedule.Decimal.Arith`: operations of decimal arithmetic

Addition, subtraction, multiplication and division compute the exact result and fit it to
the context (`Decimal.finalize`), so each is correctly rounded to 28 digits. The exponent of
an exact result is the "ideal" one: the smaller exponent for a sum, the sum of exponents for
a product, and for a quotient the difference of exponents, or the smallest exponent that
holds the digits when the quotient is not exact at that exponent.

Two shortcuts keep coefficients small without changing any result: in a sum, an operand
far below the rounding position of the other is replaced by a one at a position just below
it, which rounds the same way; and a zero operand contributes only its exponent, no lower
than 29 places below the other operand.

Special values follow the specification: a signalling NaN operand is `invalidOperation`,
a quiet NaN is passed on, infinities absorb finite numbers, and infinity minus infinity,
zero times infinity and infinity over infinity are `invalidOperation`. Ordering a NaN is
`invalidOperation`; equality with a quiet NaN is false and with a signalling one is
`invalidOperation`.
-/

namespace FeeSchedule

namespace Decimal

/-- The result forced by NaN operands of a two-operand operation: `invalidOperation` for a
signalling NaN, otherwise the first quiet NaN, or nothing when neither operand is a NaN. -/
def nanOperands (a b : Decimal) : Option (Except Signal Decimal) :=
  if a.isSignaling || b.isSignaling then some (.error .invalidOperation)
  else if a.isNaN then some (fit a)
  else if b.isNaN then some (fit b)
  else none

/-- The result forced by a NaN operand of a one-operand operation. -/
def nanOperand (a : Decimal) : Option (Except Signal Decimal) :=
  if a.isSignaling then some (.error .invalidOperation)
  else if a.isNaN then some (fit a)
  else none

/-- Coefficients of two non-zero operands brought to one exponent, the first operand
having the larger exponent `ea`. The second is replaced by a one just below the rounding
position of the first when it lies wholly below that position. -/
def alignBelow (a : Nat) (ea : Int) (b : Nat) (eb : Int) : Nat × Nat × Int :=
  let lim := ea + min (-1) ((digitCount a : Int) - Context.standard.precision - 2)
  let (b, eb) := if (digitCount b : Int) + eb - 1 < lim then (1, lim) else (b, eb)
  (a * Nat.pow 10 (ea - eb).toNat, b, eb)

/-- Two non-zero coefficients at their common exponent, in the order given. -/
def align (c : Nat) (e : Int) (d : Nat) (f : Int) : Nat × Nat × Int :=
  if e < f then
    let (d', c', x) := alignBelow d f c e
    (c', d', x)
  else alignBelow c e d f

/-- The sum of two finite numbers, fitted to the context. -/
def addFinite (s : Bool) (c : Nat) (e : Int) (t : Bool) (d : Nat) (f : Int) :
    Except Signal Decimal :=
  let exp := min e f
  let prec := (Context.standard.precision : Int)
  if c = 0 ∧ d = 0 then finalize (s && t) 0 exp
  else if c = 0 then
    let x := max exp (f - prec - 1)
    finalize t (d * Nat.pow 10 (f - x).toNat) x
  else if d = 0 then
    let x := max exp (e - prec - 1)
    finalize s (c * Nat.pow 10 (e - x).toNat) x
  else
    let (c', d', x) := align c e d f
    if s = t then finalize s (c' + d') x
    else if c' = d' then finalize false 0 exp
    else if d' < c' then finalize s (c' - d') x
    else finalize t (d' - c') x

/-- The sum `a + b`. -/
def add (a b : Decimal) : Except Signal Decimal :=
  match nanOperands a b with
  | some r => r
  | none =>
    match a, b with
    | infinite s, infinite t => if s = t then .ok (infinite s) else .error .invalidOperation
    | infinite s, _ => .ok (infinite s)
    | _, infinite t => .ok (infinite t)
    | finite s c e, finite t d f => addFinite s c e t d f
    | _, _ => .error .invalidOperation

/-- The difference `a - b`: the sum with `b`'s sign flipped, NaNs passed on unchanged. -/
def sub (a b : Decimal) : Except Signal Decimal :=
  match nanOperands a b with
  | some r => r
  | none => add a b.flipSign

/-- The product `a * b`. -/
def mul (a b : Decimal) : Except Signal Decimal :=
  match nanOperands a b with
  | some r => r
  | none =>
    match a, b with
    | infinite s, infinite t => .ok (infinite (s != t))
    | infinite s, finite t d _ => if d = 0 then .error .invalidOperation else .ok (infinite (s != t))
    | finite s c _, infinite t => if c = 0 then .error .invalidOperation else .ok (infinite (s != t))
    | finite s c e, finite t d f => finalize (s != t) (c * d) (e + f)
    | _, _ => .error .invalidOperation

/-- Removes trailing zeros from an exact quotient while its exponent is below `ideal`. -/
def towardIdeal (q : Nat) (exp ideal : Int) : Nat × Int :=
  go (ideal - exp).toNat q exp
where
  /-- At most `n` more zeros are removed. -/
  go : Nat → Nat → Int → Nat × Int
    | 0, q, exp => (q, exp)
    | n + 1, q, exp => if q % 10 = 0 ∧ q ≠ 0 then go n (q / 10) (exp + 1) else (q, exp)

/-- The quotient of two finite numbers with a non-zero divisor `d`: 29 or 30 digits are
computed, an inexact last digit 0 or 5 is nudged so that it rounds the right way, and an
exact quotient loses trailing zeros down to the ideal exponent `e - f`. -/
def divFinite (s : Bool) (c : Nat) (e : Int) (t : Bool) (d : Nat) (f : Int) :
    Except Signal Decimal :=
  let sign := s != t
  if c = 0 then finalize sign 0 (e - f)
  else
    let shift : Int := (digitCount d : Int) - digitCount c + Context.standard.precision + 1
    let exp := e - f - shift
    let (q, r) :=
      if 0 ≤ shift then ((c * Nat.pow 10 shift.toNat) / d, (c * Nat.pow 10 shift.toNat) % d)
      else (c / (d * Nat.pow 10 shift.natAbs), c % (d * Nat.pow 10 shift.natAbs))
    if r ≠ 0 then
      finalize sign (if q % 5 = 0 then q + 1 else q) exp
    else
      let (q, exp) := towardIdeal q exp (e - f)
      finalize sign q exp

/-- The quotient `a / b`. A non-zero number over zero is `divisionByZero`; zero over zero
is `invalidOperation`. -/
def div (a b : Decimal) : Except Signal Decimal :=
  match nanOperands a b with
  | some r => r
  | none =>
    match a, b with
    | infinite _, infinite _ => .error .invalidOperation
    | infinite s, finite t _ _ => .ok (infinite (s != t))
    | finite s _ _, infinite t => .ok (finite (s != t) 0 Context.standard.etiny)
    | finite s c e, finite t d f =>
      if d = 0 then (if c = 0 then .error .invalidOperation else .error .divisionByZero)
      else divFinite s c e t d f
    | _, _ => .error .invalidOperation

/-- The negation `-a`, fitted to the context; the negation of a zero is a positive zero. -/
def neg (a : Decimal) : Except Signal Decimal :=
  match nanOperand a with
  | some r => r
  | none =>
    match a with
    | finite s c e => finalize (if c = 0 then false else !s) c e
    | infinite s => .ok (infinite !s)
    | d => .ok d

/-- The absolute value of `a`, fitted to the context. -/
def abs (a : Decimal) : Except Signal Decimal :=
  match nanOperand a with
  | some r => r
  | none =>
    match a with
    | finite _ c e => finalize false c e
    | infinite _ => .ok (infinite false)
    | d => .ok d

/-- The order of two non-negative finite magnitudes. -/
def compareMagnitude (c : Nat) (e : Int) (d : Nat) (f : Int) : Ordering :=
  let ac := adjusted c e
  let ad := adjusted d f
  if ac = ad then
    if f ≤ e then compare (c * Nat.pow 10 (e - f).toNat) d
    else compare c (d * Nat.pow 10 (f - e).toNat)
  else compare ac ad

/-- The order of two finite numbers by value; zeros of either sign are equal. -/
def compareFinite (s : Bool) (c : Nat) (e : Int) (t : Bool) (d : Nat) (f : Int) : Ordering :=
  if c = 0 ∧ d = 0 then .eq
  else if c = 0 then (if t then .gt else .lt)
  else if d = 0 then (if s then .lt else .gt)
  else if s ≠ t then (if s then .lt else .gt)
  else
    let o := compareMagnitude c e d f
    if s then o.swap else o

/-- The order of two numbers that are not NaNs: negative infinity below every finite number
and positive infinity above. -/
def compareNumbers : Decimal → Decimal → Ordering
  | infinite s, infinite t => if s = t then .eq else if s then .lt else .gt
  | infinite s, _ => if s then .lt else .gt
  | _, infinite t => if t then .gt else .lt
  | finite s c e, finite t d f => compareFinite s c e t d f
  | _, _ => .eq

/-- The order of `a` and `b`, or `invalidOperation` when either is a NaN. -/
def order (a b : Decimal) : Except Signal Ordering :=
  if a.isNaN || b.isNaN then .error .invalidOperation
  else .ok (compareNumbers a b)

/-- Whether `a` and `b` have equal value: false when either is a quiet NaN,
`invalidOperation` when either is a signalling NaN. -/
def equals (a b : Decimal) : Except Signal Bool :=
  if a.isSignaling || b.isSignaling then .error .invalidOperation
  else if a.isNaN || b.isNaN then .ok false
  else .ok (compareNumbers a b == .eq)

/-- `a < b`, signalling on NaNs. -/
def lt (a b : Decimal) : Except Signal Bool := return (← order a b) == .lt

/-- `a > b`, signalling on NaNs. -/
def gt (a b : Decimal) : Except Signal Bool := return (← order a b) == .gt

/-- `a` rounded by `m` to an integer, with exponent zero; a number that is already an
integer (exponent at least zero) and the special values are returned as they are. -/
def toIntegral (m : Rounding) (a : Decimal) : Except Signal Decimal :=
  match nanOperand a with
  | some r => r
  | none =>
    match a with
    | finite s c e =>
      if 0 ≤ e then .ok a else .ok (finite s (shiftRound m s c e.natAbs) 0)
    | d => .ok d

/-- `a` rounded by `m` to the exponent of `q`. It is `invalidOperation` when that exponent
is outside the context, when the result would need more than 28 digits, or when exactly
one operand is infinite. -/
def quantize (m : Rounding) (a q : Decimal) : Except Signal Decimal :=
  match nanOperands a q with
  | some r => r
  | none =>
    match a, q with
    | infinite _, infinite _ => .ok a
    | finite s c e, finite _ _ f =>
      let ctx := Context.standard
      if f > ctx.emax ∨ f < ctx.etiny then .error .invalidOperation
      else if c = 0 then finalize s 0 f
      else
        let diff := e - f
        if (digitCount c : Int) + diff > ctx.precision then .error .invalidOperation
        else
          let r := if 0 ≤ diff then c * Nat.pow 10 diff.toNat else shiftRound m s c diff.natAbs
          if digitCount r > ctx.precision then .error .invalidOperation
          else if adjusted r f > ctx.emax then .error .invalidOperation
          else finalize s r f
    | _, _ => .error .invalidOperation

/-- `a` with `n` added to its exponent, fitted to the context; `invalidOperation` when `n`
moves further than twice the exponent range and precision. -/
def scaleBy (a : Decimal) (n : Int) : Except Signal Decimal :=
  match nanOperand a with
  | some r => r
  | none =>
    let ctx := Context.standard
    if n.natAbs > 2 * (ctx.emax.toNat + ctx.precision) then .error .invalidOperation
    else
      match a with
      | finite s c e => finalize s c (e + n)
      | d => .ok d

end Decimal

end FeeSchedule
