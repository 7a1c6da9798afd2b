import FeeSchedule.Decimal.Basic

/-!
# `FeeSchedule.Decimal.Round`: the arithmetic context and rounding to it

Every result of decimal arithmetic is fitted to one context: 28 significant digits, ties
rounded to the even neighbour, adjusted exponents between -999999 and 999999. A result with
more digits is rounded; a result too small to keep 28 digits above the smallest exponent
`Etiny = Emin - 27` becomes subnormal and loses digits; a result whose adjusted exponent
exceeds `Emax` after rounding is an overflow, which stops the computation (`Signal.overflow`).

`Decimal.finalize` does this fitting. `Decimal.shiftRound` drops the last `k` digits of a
coefficient under a rounding mode; it is shared with `quantize` and with rounding to an
integer, which choose their own mode.
-/

namespace FeeSchedule

/-- The limits that every result is fitted to. -/
structure Context where
  /-- Significant digits kept. -/
  precision : Nat
  /-- The largest adjusted exponent. -/
  emax : Int
  /-- The smallest adjusted exponent of a normal number. -/
  emin : Int
  deriving Repr

namespace Context

/-- The context of all fee arithmetic: 28 digits, exponents within plus or minus 999999. -/
def standard : Context := ⟨28, 999999, -999999⟩

/-- The smallest exponent a subnormal result can have. -/
def etiny (c : Context) : Int := c.emin - c.precision + 1

/-- The largest exponent a result with a full coefficient can have. -/
def etop (c : Context) : Int := c.emax - c.precision + 1

end Context

/-- How a discarded part of a coefficient is disposed of. -/
inductive Rounding where
  /-- To the nearer neighbour; a tie goes to the even one. -/
  | halfEven
  /-- To the nearer neighbour; a tie goes away from zero. -/
  | halfUp
  /-- Towards negative infinity. -/
  | floor
  /-- Towards positive infinity. -/
  | ceiling
  deriving DecidableEq, Repr

/-- Whether the kept magnitude `q` goes up by one, when `r` out of a unit `unit` is
discarded from a number whose sign is `negative`. -/
def Rounding.up (m : Rounding) (negative : Bool) (q r unit : Nat) : Bool :=
  match m with
  | .halfEven => 2 * r > unit || (2 * r == unit && q % 2 == 1)
  | .halfUp => r > 0 && 2 * r ≥ unit
  | .floor => negative && r > 0
  | .ceiling => !negative && r > 0

namespace Decimal

/-- The coefficient `c` with its last `k` digits dropped, rounded by `m`. When `c` has fewer
than `k` digits the kept part is zero and the discarded part is less than a tenth of the
unit, so only the directed modes can round it up; this is decided without forming `10^k`. -/
def shiftRound (m : Rounding) (negative : Bool) (c k : Nat) : Nat :=
  if digitCount c < k then
    if m.up negative 0 c (10 * c + 1) then 1 else 0
  else
    let unit := Nat.pow 10 k
    let q := c / unit
    if m.up negative q (c % unit) unit then q + 1 else q

/-- A NaN fitted to the context: a payload longer than the precision keeps its last
digits. -/
def fitPayload (ctx : Context) (p : Nat) : Nat :=
  if digitCount p > ctx.precision then p % Nat.pow 10 ctx.precision else p

/-- The finite number `(-1)^negative * c * 10^e` fitted to the standard context: rounded to
28 digits, made subnormal below `Emin`, clamped when it is zero, or `overflow` when it is
too large. -/
def finalize (negative : Bool) (c : Nat) (e : Int) : Except Signal Decimal :=
  let ctx := Context.standard
  if c = 0 then
    .ok (finite negative 0 (min (max e ctx.etiny) ctx.emax))
  else
    let expMin := (digitCount c : Int) + e - ctx.precision
    if expMin > ctx.etop then .error .overflow
    else
      let expMin := max expMin ctx.etiny
      if e < expMin then
        let q := shiftRound .halfEven negative c (expMin - e).toNat
        let (q, expMin) := if digitCount q > ctx.precision then (q / 10, expMin + 1) else (q, expMin)
        if expMin > ctx.etop then .error .overflow
        else .ok (finite negative q expMin)
      else .ok (finite negative c e)

/-- A number fitted to the standard context: finite numbers by `finalize`, NaN payloads
shortened, infinities unchanged. -/
def fit : Decimal → Except Signal Decimal
  | finite s c e => finalize s c e
  | nan s q p => .ok (nan s q (fitPayload Context.standard p))
  | d => .ok d

end Decimal

end FeeSchedule
