import Mathlib
import FeeSchedule.Decimal.Arith
import FeeSchedule.Proofs.Decimal.Finite

/-!
# `FeeSchedule.Proofs.Decimal.Order`: numbers are compared by value

`Decimal.compareNumbers` orders two numbers without computing their values: finite numbers of
different signs by the sign, of one sign by their adjusted exponents first and only then by
their coefficients brought to one exponent. This module shows that it compares the values:
each number that is not a NaN has a place on the rational line extended by its two ends
(`Decimal.extended`), and `compareNumbers` is `compare` of the places. So the comparison is a
total preorder, and `Decimal.order` is `compare` of the places whenever it does not signal.

* `digitCount_bounds`: a positive coefficient with `n` digits lies in `[10 ^ (n - 1), 10 ^ n)`.
* `lt_of_adjusted_lt`: a smaller adjusted exponent means a smaller magnitude.
* `compareMagnitude_eq`, `compareFinite_eq`: the comparisons of finite numbers.
* `compareNumbers_eq`, `order_eq_ok_iff`: the comparisons of numbers that are not NaNs;
  `compareNumbers_of_isFinite` for finite ones.
-/

set_option autoImplicit false

namespace FeeSchedule

/-- Two comparisons agree when their strict orders and their equalities agree. -/
theorem compare_eq_compare_of_iff {α β : Type} [LinearOrder α] [LinearOrder β] {a b : α}
    {x y : β} (hlt : a < b ↔ x < y) (heq : a = b ↔ x = y) : compare a b = compare x y := by
  rcases lt_trichotomy a b with h | h | h
  · rw [compare_lt_iff_lt.mpr h, compare_lt_iff_lt.mpr (hlt.mp h)]
  · rw [compare_eq_iff_eq.mpr h, compare_eq_iff_eq.mpr (heq.mp h)]
  · -- `b < a`: the other two orders are ruled out on both sides
    have hxy : ¬ x < y := fun hxy => lt_asymm h (hlt.mpr hxy)
    have hne : x ≠ y := fun hxy => h.ne' (heq.mpr hxy)
    rw [compare_gt_iff_gt.mpr h, compare_gt_iff_gt.mpr (lt_of_le_of_ne (not_lt.mp hxy) hne.symm)]

/-! ### Comparison results as truth values -/

theorem compare_beq_eq {β : Type} [LinearOrder β] (x y : β) :
    (compare x y == .eq) = decide (x = y) := by
  rw [Bool.eq_iff_iff]
  simp

theorem compare_beq_lt {β : Type} [LinearOrder β] (x y : β) :
    (compare x y == .lt) = !decide (y ≤ x) := by
  rw [Bool.eq_iff_iff]
  simp [compare_lt_iff_lt]

theorem compare_beq_gt {β : Type} [LinearOrder β] (x y : β) :
    (compare x y == .gt) = !decide (x ≤ y) := by
  rw [Bool.eq_iff_iff]
  simp [compare_gt_iff_gt]

/-- A comparison result is not `gt` exactly when the first is at most the second. -/
theorem compare_bne_gt {β : Type} [LinearOrder β] (x y : β) :
    (compare x y != .gt) = decide (x ≤ y) := by
  simp only [← compare_le_iff_le]
  cases compare x y <;> rfl

namespace Decimal

/-- The value of a finite number, `(-1) ^ sign * coefficient * 10 ^ exponent`; the other
numbers have none and are given zero. -/
def toRat : Decimal → ℚ
  | finite s c e => (if s then -1 else 1) * c * 10 ^ e
  | _ => 0

/-- The place of a number on the rational line extended by its two ends: its value when it
is finite, an end when it is infinite. A NaN has no place; it is put at the lower end. -/
def extended : Decimal → WithBot (WithTop ℚ)
  | finite s c e => ((toRat (finite s c e) : WithTop ℚ) : WithBot (WithTop ℚ))
  | infinite s => if s then ⊥ else ⊤
  | nan .. => ⊥

/-! ### Magnitudes -/

/-- A positive coefficient with `n` digits lies between `10 ^ (n - 1)` and `10 ^ n`. -/
theorem digitCount_bounds {c : Nat} (hc : 0 < c) :
    10 ^ (digitCount c - 1) ≤ c ∧ c < 10 ^ digitCount c := by
  have hpos : 0 < digitCount c := Nat.length_toDigits_pos
  refine ⟨?_, (Nat.length_toDigits_le_iff (by decide) hpos).mp le_rfl⟩
  by_cases hone : digitCount c = 1
  · rw [hone]
    exact hc
  · -- one digit fewer cannot hold the coefficient
    have hlow := (Nat.length_toDigits_le_iff (b := 10) (n := c) (by decide)
      (k := digitCount c - 1) (by omega)).not.mp (by unfold digitCount digitsOf at *; omega)
    exact Nat.le_of_not_lt hlow

/-- A finite magnitude with a smaller adjusted exponent is smaller: it lies below a power of
ten that the other reaches. -/
theorem lt_of_adjusted_lt {c d : Nat} (hc : 0 < c) (hd : 0 < d) {e f : Int}
    (h : adjusted c e < adjusted d f) : (c : ℚ) * 10 ^ e < (d : ℚ) * 10 ^ f := by
  obtain ⟨-, hcup⟩ := digitCount_bounds hc
  obtain ⟨hdlow, -⟩ := digitCount_bounds hd
  have hdpos : 1 ≤ digitCount d := Nat.length_toDigits_pos
  unfold adjusted at h
  have hten : (0 : ℚ) < 10 := by norm_num
  calc (c : ℚ) * 10 ^ e < (10 : ℚ) ^ (digitCount c : ℤ) * 10 ^ e := by
        refine mul_lt_mul_of_pos_right ?_ (zpow_pos hten e)
        rw [zpow_natCast]
        exact_mod_cast hcup
    _ = 10 ^ ((digitCount c : ℤ) + e) := (zpow_add₀ hten.ne' _ _).symm
    _ ≤ 10 ^ (((digitCount d - 1 : Nat) : ℤ) + f) :=
        zpow_le_zpow_right₀ (by norm_num) (by omega)
    _ = (10 : ℚ) ^ ((digitCount d - 1 : Nat) : ℤ) * 10 ^ f := zpow_add₀ hten.ne' _ _
    _ ≤ (d : ℚ) * 10 ^ f := by
        refine mul_le_mul_of_nonneg_right ?_ (zpow_pos hten f).le
        rw [zpow_natCast]
        exact_mod_cast hdlow

/-- Scaling both sides by one power of ten keeps their comparison. -/
theorem compare_mul_zpow (x y : ℚ) (k : ℤ) : compare (x * 10 ^ k) (y * 10 ^ k) = compare x y := by
  have hpos : (0 : ℚ) < 10 ^ k := zpow_pos (by norm_num) k
  exact compare_eq_compare_of_iff (mul_lt_mul_iff_left₀ hpos) (mul_left_inj' hpos.ne')

theorem compare_neg (x y : ℚ) : compare (-x) (-y) = compare y x :=
  compare_eq_compare_of_iff neg_lt_neg_iff (neg_inj.trans eq_comm)

theorem compare_natCast (a b : Nat) : compare (a : ℚ) (b : ℚ) = compare a b :=
  compare_eq_compare_of_iff Nat.cast_lt Nat.cast_inj

/-- Brought to the smaller exponent, the coefficients compare as the magnitudes. -/
theorem compare_aligned {c d : Nat} {e f : Int} (h : f ≤ e) :
    compare (c * Nat.pow 10 (e - f).toNat) d = compare ((c : ℚ) * 10 ^ e) ((d : ℚ) * 10 ^ f) := by
  have hsplit : (10 : ℚ) ^ e = 10 ^ (e - f).toNat * 10 ^ f := by
    rw [← zpow_natCast, ← zpow_add₀ (by norm_num), Int.toNat_of_nonneg (by omega)]
    ring_nf
  rw [hsplit, ← mul_assoc, compare_mul_zpow, ← compare_natCast]
  push_cast [Nat.pow_eq]
  rfl

/-- Two positive finite magnitudes compare as their values. -/
theorem compareMagnitude_eq {c d : Nat} (hc : 0 < c) (hd : 0 < d) (e f : Int) :
    compareMagnitude c e d f = compare ((c : ℚ) * 10 ^ e) ((d : ℚ) * 10 ^ f) := by
  unfold compareMagnitude
  dsimp only
  split
  · -- one adjusted exponent: the coefficients decide at the smaller exponent
    split
    · exact compare_aligned (by omega)
    · rw [← Ordering.swap_inj, ← cmp_eq_compare, cmp_swap, cmp_eq_compare,
        compare_aligned (by omega), ← cmp_eq_compare, ← cmp_swap, cmp_eq_compare]
  · -- different adjusted exponents decide alone
    rename_i hne
    apply compare_eq_compare_of_iff
    · constructor
      · exact lt_of_adjusted_lt hc hd
      · intro hlt
        by_contra hnot
        exact lt_asymm hlt (lt_of_adjusted_lt hd hc (by omega))
    · constructor
      · intro heq
        exact absurd heq hne
      · intro heq
        rcases lt_or_gt_of_ne hne with hlt | hlt
        · exact absurd heq (lt_of_adjusted_lt hc hd hlt).ne
        · exact absurd heq (lt_of_adjusted_lt hd hc hlt).ne'

/-! ### Finite numbers -/

/-- Two finite numbers compare as their values: zeros of either sign are equal, signs decide
between a positive and a negative number, and magnitudes decide between numbers of one sign,
the other way round for negative ones. -/
theorem compareFinite_eq (s : Bool) (c : Nat) (e : Int) (t : Bool) (d : Nat) (f : Int) :
    compareFinite s c e t d f = compare (finite s c e).toRat (finite t d f).toRat := by
  have hten : ∀ k : ℤ, (0 : ℚ) < 10 ^ k := zpow_pos (by norm_num)
  -- the value of a non-zero coefficient has its sign
  have hsign : ∀ (s : Bool) (c : Nat) (e : Int), 0 < c →
      (s = true → (finite s c e).toRat < 0) ∧ (s = false → 0 < (finite s c e).toRat) := by
    intro s c e hc
    have hmag : (0 : ℚ) < c * 10 ^ e := mul_pos (by exact_mod_cast hc) (hten e)
    constructor
    · rintro rfl
      simp only [toRat, if_true]
      linarith
    · rintro rfl
      simp only [toRat, Bool.false_eq_true, if_false]
      linarith
  unfold compareFinite
  split
  · rename_i hzero
    obtain ⟨rfl, rfl⟩ := hzero
    simp [toRat]
  split
  · rename_i hc
    subst hc
    have hd : 0 < d := by omega
    rw [show (finite s 0 e).toRat = 0 by simp [toRat]]
    cases t
    · exact ((compare_lt_iff_lt).mpr ((hsign false d f hd).2 rfl)).symm
    · exact ((compare_gt_iff_gt).mpr ((hsign true d f hd).1 rfl)).symm
  split
  · rename_i hc hd
    subst hd
    have hc : 0 < c := by omega
    rw [show (finite t 0 f).toRat = 0 by simp [toRat]]
    cases s
    · exact ((compare_gt_iff_gt).mpr ((hsign false c e hc).2 rfl)).symm
    · exact ((compare_lt_iff_lt).mpr ((hsign true c e hc).1 rfl)).symm
  rename_i hc hd
  have hc : 0 < c := by omega
  have hd : 0 < d := by omega
  split
  · -- the signs differ: the negative one is smaller
    rename_i hst
    cases s <;> cases t <;> simp only [ne_eq, not_true_eq_false] at hst
    · exact ((compare_gt_iff_gt).mpr (((hsign true d f hd).1 rfl).trans
        ((hsign false c e hc).2 rfl))).symm
    · exact ((compare_lt_iff_lt).mpr (((hsign true c e hc).1 rfl).trans
        ((hsign false d f hd).2 rfl))).symm
  · -- one sign: the magnitudes decide, the other way round for negative numbers
    rename_i hst
    have hst : s = t := by simpa using hst
    subst hst
    rw [compareMagnitude_eq hc hd]
    cases s
    · simp [toRat]
    · simp only [toRat, if_true, neg_mul, one_mul]
      rw [compare_neg, ← cmp_eq_compare, ← cmp_eq_compare, cmp_swap]

/-! ### Numbers that are not NaNs -/

/-- Two numbers that are not NaNs compare as their places on the extended line. -/
theorem compareNumbers_eq {a b : Decimal} (ha : a.isNaN = false) (hb : b.isNaN = false) :
    compareNumbers a b = compare a.extended b.extended := by
  have hbot : ∀ q : ℚ, (⊥ : WithBot (WithTop ℚ)) < ((q : WithTop ℚ) : WithBot (WithTop ℚ)) :=
    fun q => WithBot.bot_lt_coe _
  have htop : ∀ q : ℚ, ((q : WithTop ℚ) : WithBot (WithTop ℚ)) < ((⊤ : WithTop ℚ) :
      WithBot (WithTop ℚ)) := fun q => WithBot.coe_lt_coe.mpr (WithTop.coe_lt_top q)
  cases a with
  | nan => simp [isNaN] at ha
  | infinite s =>
    cases b with
    | nan => simp [isNaN] at hb
    | infinite t =>
      cases s <;> cases t <;> simp only [compareNumbers, extended, if_true, if_false,
        Bool.false_eq_true, reduceCtorEq]
      · exact (compare_eq_iff_eq.mpr rfl).symm
      · exact ((compare_gt_iff_gt).mpr (WithBot.bot_lt_coe _)).symm
      · exact ((compare_lt_iff_lt).mpr (WithBot.bot_lt_coe _)).symm
      · exact (compare_eq_iff_eq.mpr rfl).symm
    | finite t d f =>
      cases s
      · exact ((compare_gt_iff_gt).mpr (htop _)).symm
      · exact ((compare_lt_iff_lt).mpr (hbot _)).symm
  | finite s c e =>
    cases b with
    | nan => simp [isNaN] at hb
    | infinite t =>
      cases t
      · exact ((compare_lt_iff_lt).mpr (htop _)).symm
      · exact ((compare_gt_iff_gt).mpr (hbot _)).symm
    | finite t d f =>
      rw [compareNumbers, compareFinite_eq]
      exact compare_eq_compare_of_iff
        (by simp [extended, WithBot.coe_lt_coe, WithTop.coe_lt_coe])
        (by simp [extended])

/-- Two finite numbers compare as their values. -/
theorem compareNumbers_of_isFinite {a b : Decimal} (ha : a.isFinite) (hb : b.isFinite) :
    compareNumbers a b = compare a.extended b.extended :=
  compareNumbers_eq (isNaN_of_isFinite ha) (isNaN_of_isFinite hb)

/-- Ordering two numbers succeeds exactly when neither is a NaN, and then compares their
places on the extended line. -/
theorem order_eq_ok_iff {a b : Decimal} {o : Ordering} :
    order a b = .ok o ↔ a.isNaN = false ∧ b.isNaN = false ∧ compare a.extended b.extended = o := by
  unfold order
  by_cases hnan : (a.isNaN || b.isNaN) = true
  · rw [if_pos hnan]
    simp only [Bool.or_eq_true] at hnan
    constructor
    · intro h
      cases h
    · rintro ⟨ha, hb, -⟩
      rcases hnan with h | h <;> simp_all
  · rw [if_neg hnan]
    simp only [Bool.or_eq_true, not_or, Bool.not_eq_true] at hnan
    rw [compareNumbers_eq hnan.1 hnan.2]
    simp [hnan.1, hnan.2]

end Decimal

end FeeSchedule
