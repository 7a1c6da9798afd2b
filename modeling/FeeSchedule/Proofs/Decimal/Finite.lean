import FeeSchedule.Decimal.Arith
import FeeSchedule.Decimal.Text

/-!
# `FeeSchedule.Proofs.Decimal.Finite`: finite numbers stay finite

Arithmetic in the standard context never turns finite operands into an infinity or a NaN:
a result that does not fit is a signal (`overflow`, `invalidOperation`), not a special
value. The theorems:

* `finalize_fitted`: fitting a finite number to the context gives a finite number or an
  overflow, and no other signal (`Fitted`). Every operation below ends in it; `add_fitted`,
  `sub_fitted` and `neg_fitted` say the same of sums, differences and negations.
* `add_isFinite`, `sub_isFinite`, `mul_isFinite`, `div_isFinite`, `neg_isFinite`,
  `abs_isFinite`, `toIntegral_isFinite`, `quantize_isFinite`, `scaleBy_isFinite`: each
  operation on finite operands gives a finite number when it gives a number.
* `order_of_isFinite`, `equals_of_isFinite`: finite numbers are compared without a signal.
* `ofText_isFinite_of_lead`: a text whose first character is a digit and not white space
  reads as a finite number, if it reads at all. Such a text cannot spell `Inf`, `NaN` or
  `sNaN`, with or without a sign; this is the text of every number token.
-/

set_option autoImplicit false

namespace FeeSchedule.Decimal

variable {a b d : Decimal}

theorem eq_finite_of_isFinite (h : a.isFinite) : ∃ s c e, a = finite s c e := by
  cases a <;> simp_all [isFinite]

@[simp] theorem nanOperands_finite (s t : Bool) (c c' : Nat) (e e' : Int) :
    nanOperands (finite s c e) (finite t c' e') = none := rfl

@[simp] theorem nanOperand_finite (s : Bool) (c : Nat) (e : Int) :
    nanOperand (finite s c e) = none := rfl

/-- What fitting a finite number to the context gives: a finite number, or an overflow. No
other signal can arise. -/
def Fitted : Except Signal Decimal → Prop
  | .ok d => d.isFinite
  | .error s => s = .overflow

theorem Fitted.isFinite {r : Except Signal Decimal} (hr : Fitted r) (h : r = .ok d) :
    d.isFinite := by
  subst h
  exact hr

/-- Fitting to the context rounds, clamps or overflows, and never leaves the finite
numbers. -/
theorem finalize_fitted (s : Bool) (c : Nat) (e : Int) : Fitted (finalize s c e) := by
  unfold finalize
  dsimp only
  -- every branch is an overflow or a finite number
  repeat' split
  all_goals rfl

theorem finalize_isFinite {s : Bool} {c : Nat} {e : Int}
    (h : finalize s c e = .ok d) : d.isFinite :=
  (finalize_fitted s c e).isFinite h

theorem addFinite_fitted (s t : Bool) (c c' : Nat) (e e' : Int) :
    Fitted (addFinite s c e t c' e') := by
  unfold addFinite
  dsimp only
  repeat' split
  all_goals exact finalize_fitted _ _ _

/-- The sum of finite numbers is a finite number or an overflow. -/
theorem add_fitted (ha : a.isFinite) (hb : b.isFinite) : Fitted (add a b) := by
  obtain ⟨s, c, e, rfl⟩ := eq_finite_of_isFinite ha
  obtain ⟨t, c', e', rfl⟩ := eq_finite_of_isFinite hb
  simp only [add, nanOperands_finite]
  exact addFinite_fitted s t c c' e e'

theorem add_isFinite (ha : a.isFinite) (hb : b.isFinite) (h : add a b = .ok d) :
    d.isFinite :=
  (add_fitted ha hb).isFinite h

/-- The difference of finite numbers is a finite number or an overflow. -/
theorem sub_fitted (ha : a.isFinite) (hb : b.isFinite) : Fitted (sub a b) := by
  obtain ⟨s, c, e, rfl⟩ := eq_finite_of_isFinite ha
  obtain ⟨t, c', e', rfl⟩ := eq_finite_of_isFinite hb
  simp only [sub, nanOperands_finite]
  exact add_fitted rfl rfl

theorem sub_isFinite (ha : a.isFinite) (hb : b.isFinite) (h : sub a b = .ok d) :
    d.isFinite :=
  (sub_fitted ha hb).isFinite h

theorem mul_isFinite (ha : a.isFinite) (hb : b.isFinite) (h : mul a b = .ok d) :
    d.isFinite := by
  obtain ⟨s, c, e, rfl⟩ := eq_finite_of_isFinite ha
  obtain ⟨t, c', e', rfl⟩ := eq_finite_of_isFinite hb
  simp only [mul, nanOperands_finite] at h
  exact finalize_isFinite h

/-- Division by a finite number: a zero divisor is a signal, any other quotient is fitted
to the context. -/
theorem div_isFinite (ha : a.isFinite) (hb : b.isFinite) (h : div a b = .ok d) :
    d.isFinite := by
  obtain ⟨s, c, e, rfl⟩ := eq_finite_of_isFinite ha
  obtain ⟨t, c', e', rfl⟩ := eq_finite_of_isFinite hb
  simp only [div, nanOperands_finite] at h
  split at h
  · split at h <;> cases h
  · unfold divFinite at h
    dsimp only at h
    repeat' split at h
    all_goals exact finalize_isFinite h

/-- Negation rounds to the context: a finite number with more digits than the precision
can round up past the largest exponent. -/
theorem neg_fitted (ha : a.isFinite) : Fitted (neg a) := by
  obtain ⟨s, c, e, rfl⟩ := eq_finite_of_isFinite ha
  simp only [neg, nanOperand_finite]
  exact finalize_fitted _ _ _

theorem neg_isFinite (ha : a.isFinite) (h : neg a = .ok d) : d.isFinite :=
  (neg_fitted ha).isFinite h

theorem abs_isFinite (ha : a.isFinite) (h : Decimal.abs a = .ok d) : d.isFinite := by
  obtain ⟨s, c, e, rfl⟩ := eq_finite_of_isFinite ha
  simp only [Decimal.abs, nanOperand_finite] at h
  exact finalize_isFinite h

theorem toIntegral_isFinite {m : Rounding} (ha : a.isFinite) (h : toIntegral m a = .ok d) :
    d.isFinite := by
  obtain ⟨s, c, e, rfl⟩ := eq_finite_of_isFinite ha
  simp only [toIntegral, nanOperand_finite] at h
  split at h
  · cases h
    rfl
  · cases h
    rfl

/-- Quantizing refuses an exponent outside the context and a result of more than 28
digits; every other result is fitted to the context. -/
theorem quantize_isFinite {m : Rounding} (ha : a.isFinite) (hb : b.isFinite)
    (h : quantize m a b = .ok d) : d.isFinite := by
  obtain ⟨s, c, e, rfl⟩ := eq_finite_of_isFinite ha
  obtain ⟨t, c', e', rfl⟩ := eq_finite_of_isFinite hb
  simp only [quantize, nanOperands_finite] at h
  -- every branch refuses with a signal or fits its number with `finalize`
  repeat' split at h
  all_goals first
    | exact finalize_isFinite h
    | cases h

theorem scaleBy_isFinite {n : Int} (ha : a.isFinite) (h : scaleBy a n = .ok d) :
    d.isFinite := by
  obtain ⟨s, c, e, rfl⟩ := eq_finite_of_isFinite ha
  simp only [scaleBy, nanOperand_finite] at h
  split at h
  · cases h
  · exact finalize_isFinite h

/-! ### Comparisons and constants -/

theorem isNaN_of_isFinite (ha : a.isFinite) : a.isNaN = false := by
  obtain ⟨s, c, e, rfl⟩ := eq_finite_of_isFinite ha
  rfl

theorem isSignaling_of_isFinite (ha : a.isFinite) : a.isSignaling = false := by
  obtain ⟨s, c, e, rfl⟩ := eq_finite_of_isFinite ha
  rfl

/-- Finite numbers are always ordered: only a NaN makes ordering signal. -/
theorem order_of_isFinite (ha : a.isFinite) (hb : b.isFinite) :
    order a b = .ok (compareNumbers a b) := by
  simp [order, isNaN_of_isFinite ha, isNaN_of_isFinite hb]

/-- Finite numbers are always compared for equality: only a signalling NaN makes it
signal. -/
theorem equals_of_isFinite (ha : a.isFinite) (hb : b.isFinite) :
    equals a b = .ok (compareNumbers a b == .eq) := by
  simp [equals, isSignaling_of_isFinite ha, isSignaling_of_isFinite hb,
    isNaN_of_isFinite ha, isNaN_of_isFinite hb]

@[simp] theorem ofNat_isFinite (n : Nat) : (ofNat n).isFinite = true := rfl

@[simp] theorem ofInt_isFinite (n : Int) : (ofInt n).isFinite = true := rfl

@[simp] theorem zero_isFinite : zero.isFinite = true := rfl

/-! ### Reading -/

/-- A character that can start a number but none of the words `Inf`, `NaN` or `sNaN`, and
is no sign. -/
def PlainLead (x : Char) : Prop :=
  x ≠ '+' ∧ x ≠ '-' ∧ x.toLower ≠ 'n' ∧ x.toLower ≠ 's' ∧ x.toLower ≠ 'i'

instance (x : Char) : Decidable (PlainLead x) := by
  unfold PlainLead
  infer_instance

/-- An ASCII character of the digit class is a plain lead: the class holds no letter and
no sign below 128. -/
theorem plainLead_of_ascii_digit {c : Char} (h : c.toNat ≤ 127)
    (hd : Unicode.isDigit c = true) : PlainLead c := by
  have key : ∀ n < 128, Unicode.isDigit (Char.ofNat n) = true → PlainLead (Char.ofNat n) := by
    decide +kernel
  simpa using key c.toNat (by omega) (by simpa using hd)

theorem plainLead_digitValue (v : Nat) (h : v < 10) : PlainLead (Char.ofNat (48 + v)) := by
  have key : ∀ v < 10, PlainLead (Char.ofNat (48 + v)) := by decide
  exact key v h

theorem ofAscii?_plain {x : Char} (hx : PlainLead x) (rest : List Char) :
    ofAscii? (x :: rest) = (numeral? (x :: rest)).map fun (c, e) => finite false c e := by
  obtain ⟨hp, hm, hn, hs, hi⟩ := hx
  unfold ofAscii?
  split
  rename_i neg body hsign
  -- the leading character is no sign, so the whole text is the body
  have hb : neg = false ∧ body = x :: rest := by
    split at hsign <;> simp_all
  obtain ⟨rfl, rfl⟩ := hb
  simp [spells, hn, hs, hi]

/-- Dropping white space at both ends keeps a first character that is not white space. -/
theorem strip_cons {p : Char → Bool} {c : Char} (hc : p c = false) (l : List Char) :
    ∃ m, (((c :: l).dropWhile p).reverse.dropWhile p).reverse = c :: m := by
  rw [List.dropWhile_cons_of_neg (by simp [hc]), List.reverse_cons, List.dropWhile_append]
  split
  · exact ⟨[], by simp [List.dropWhile_cons_of_neg, hc]⟩
  · exact ⟨_, List.reverse_concat⟩

theorem decimalValue_lt {c : Char} {v : Nat} (h : Unicode.decimalValue? c = some v) :
    v < 10 := by
  unfold Unicode.decimalValue? at h
  obtain ⟨r, -, rfl⟩ := Option.map_eq_some_iff.mp h
  exact Nat.mod_lt _ (by decide)

/-- The ASCII reading of a text that starts with a digit which is not white space starts
with a plain lead: the digit itself when it is ASCII, otherwise its ASCII digit. -/
theorem asciiReading_lead {s : String} {c : Char} {l : List Char} (hs : s.toList = c :: l)
    (hd : Unicode.isDigit c = true) (hb : Unicode.isBlank c = false) {cs : List Char}
    (h : asciiReading s = some cs) : ∃ x rest, cs = x :: rest ∧ PlainLead x := by
  obtain ⟨m, hm⟩ := strip_cons hb l
  have hu : c ≠ '_' := fun hc => absurd (hc ▸ hd) (by decide +kernel)
  simp only [asciiReading, hs, hm, List.foldr_cons] at h
  obtain ⟨rest, -, h⟩ := Option.bind_eq_some_iff.mp h
  simp only [hu, hb, if_false, Bool.false_eq_true] at h
  split at h
  · rename_i hascii
    cases h
    exact ⟨c, rest, rfl, plainLead_of_ascii_digit hascii.2 hd⟩
  · obtain ⟨v, hv, rfl⟩ := Option.map_eq_some_iff.mp h
    exact ⟨_, rest, rfl, plainLead_digitValue v (decimalValue_lt hv)⟩

/-- A text that starts with a digit which is not white space reads, if at all, as a finite
number. -/
theorem ofText_isFinite_of_lead {s : String} {c : Char} {l : List Char}
    (hs : s.toList = c :: l) (hd : Unicode.isDigit c = true) (hb : Unicode.isBlank c = false)
    (h : ofText s = .ok d) : d.isFinite := by
  unfold ofText at h
  cases hr : asciiReading s with
  | none => simp [hr] at h
  | some cs =>
    obtain ⟨x, rest, rfl, hx⟩ := asciiReading_lead hs hd hb hr
    simp only [hr, Option.bind_some, ofAscii?_plain hx] at h
    cases hn : numeral? (x :: rest) with
    | none => simp [hn] at h
    | some ce =>
      simp only [hn, Option.map_some] at h
      split at h
      · cases h
        rfl
      · cases h

end FeeSchedule.Decimal
