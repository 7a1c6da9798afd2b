import FeeSchedule.Proofs.Verification.Domain
import FeeSchedule.Proofs.Verification.Completeness
import FeeSchedule.Proofs.Evaluation.Alternatives

/-!
# `FeeSchedule.Proofs.Verification.Samples`: what the domain of an input holds

`Input.domain` gives, for an input that passes its check (`InputSpec.Sampled`):

* a boolean: false, then true; a list: its choices in order;
* a selection: every sublist of its choices with at most `subsetSize` elements, each once,
  by size: `∑ k ≤ subsetSize, C(n, k)` of them (`Subsets`);
* a number or an amount: the numbers it is built from, each value once, in increasing order
  (`NumberSamples`). They are the lower bound, the default, the upper bound if any, every
  literal and the numbers one below and one above it that lie within the bounds, and the
  inner points (`Sample.Source`);
* a date: days in increasing order, all within the bounds. Among them are the bounds, the
  default, and every literal and the days next to it that lie within the bounds
  (`DateSamples`).

The bounds, the default and the literal candidates of a number input lie within its bounds.
The inner points need not. Each one is `low + step · k`, with the step and the sum rounded
in the decimal context, and nothing filters them by the bounds. A lower bound with more
digits than the context keeps can send the first inner point above the upper bound
(`inner_point_above_maximum`).

* `Sample.Holds`: a list holds a number of a given value.
* `mem_foldl_addNumber`, `holds_foldl_addNumber`: collecting numbers keeps only the numbers
  added, and holds the value of each one.
* `mem_around`, `mem_innerPoints`: the candidates around a literal and the inner points.
* `numericSamples_spec`: the numeric samples are their sources, by value, in increasing order.
* `subsetsUpTo_subsets`: the subsets of a list without repeats.
* `dateSamples_spec`: the date samples.
* `Input.domain_sampled`: the domain of an input that passes its check, kind by kind.
-/

set_option autoImplicit false

namespace FeeSchedule

/-! ### Literals -/

/-- The numbers among some values, in order. -/
def Value.numbers (vs : List Value) : List Decimal :=
  vs.filterMap fun | .num d => some d | _ => none

/-- The dates among some values, in order. -/
def Value.dates (vs : List Value) : List Date :=
  vs.filterMap fun | .date d => some d | _ => none

@[simp] theorem Value.mem_numbers {vs : List Value} {d : Decimal} :
    d ∈ Value.numbers vs ↔ Value.num d ∈ vs := by
  simp only [Value.numbers, List.mem_filterMap]
  constructor
  · rintro ⟨v, hv, hd⟩
    cases v <;> simp only [Option.some.injEq, reduceCtorEq] at hd
    exact hd ▸ hv
  · intro h
    exact ⟨_, h, rfl⟩

@[simp] theorem Value.mem_dates {vs : List Value} {d : Date} :
    d ∈ Value.dates vs ↔ Value.date d ∈ vs := by
  simp only [Value.dates, List.mem_filterMap]
  constructor
  · rintro ⟨v, hv, hd⟩
    cases v <;> simp only [Option.some.injEq, reduceCtorEq] at hd
    exact hd ▸ hv
  · intro h
    exact ⟨_, h, rfl⟩

/-! ### Maps that succeed -/

/-- The results of a successful `mapM` are the results of its steps. -/
theorem mem_mapM_ok_iff {ε α β : Type} {f : α → Except ε β} {xs : List α} {ys : List β}
    (h : xs.mapM f = .ok ys) {y : β} : y ∈ ys ↔ ∃ x ∈ xs, f x = .ok y := by
  have hall := mapM_ok_iff.mp h
  clear h
  induction hall with
  | nil => simp
  | cons hxy _ ih =>
    simp only [List.mem_cons, or_and_right, exists_or, exists_eq_left, hxy, Except.ok.injEq]
    exact or_congr eq_comm ih

/-! ### Collecting numbers -/

namespace Sample

/-- Whether a list holds a number of the value of `x`. -/
def Holds (ds : List Decimal) (x : Decimal) : Prop := ∃ d ∈ ds, d.extended = x.extended

theorem Holds.mono {ds ds' : List Decimal} {x : Decimal} (h : Holds ds x) (hsub : ds ⊆ ds') :
    Holds ds' x := by
  obtain ⟨d, hd, heq⟩ := h
  exact ⟨d, hsub hd, heq⟩

theorem subset_addNumber (ds : List Decimal) (d : Decimal) : ds ⊆ addNumber ds d := by
  unfold addNumber
  split
  · exact List.Subset.refl ds
  · exact List.subset_append_left ds [d]

theorem mem_addNumber {ds : List Decimal} {d x : Decimal} (h : x ∈ addNumber ds d) :
    x ∈ ds ∨ x = d := by
  unfold addNumber at h
  split at h
  · exact .inl h
  · simpa using h

/-- After adding a finite number to finite ones, a number of its value is there: it is added
unless one of equal value is there already. -/
theorem holds_addNumber {ds : List Decimal} {d : Decimal} (hds : ∀ a ∈ ds, a.isFinite)
    (hd : d.isFinite) : Holds (addNumber ds d) d := by
  unfold addNumber
  split
  · rename_i hany
    obtain ⟨a, ha, heq⟩ := List.any_eq_true.mp hany
    rw [Decimal.compareNumbers_of_isFinite (hds a ha) hd, beq_iff_eq] at heq
    exact ⟨a, ha, compare_eq_iff_eq.mp heq⟩
  · exact ⟨d, List.mem_append_right ds (List.mem_singleton_self d), rfl⟩

/-- Collecting numbers keeps only the numbers there and those added. -/
theorem mem_foldl_addNumber {x : Decimal} :
    ∀ {new ds : List Decimal}, x ∈ new.foldl addNumber ds → x ∈ ds ∨ x ∈ new
  | [], _, h => .inl h
  | d :: new, ds, h => by
    rw [List.foldl_cons] at h
    rcases mem_foldl_addNumber h with h | h
    · rcases mem_addNumber h with h | rfl
      · exact .inl h
      · exact .inr List.mem_cons_self
    · exact .inr (List.mem_cons_of_mem d h)

theorem subset_foldl_addNumber : ∀ (new ds : List Decimal), ds ⊆ new.foldl addNumber ds
  | [], _ => List.Subset.refl _
  | d :: new, ds => List.Subset.trans (subset_addNumber ds d) (subset_foldl_addNumber new _)

/-- Collecting finite numbers holds a number of the value of each one added. -/
theorem holds_foldl_addNumber :
    ∀ {new ds : List Decimal}, (∀ a ∈ ds, a.isFinite) → (∀ a ∈ new, a.isFinite) →
      ∀ x ∈ new, Holds (new.foldl addNumber ds) x
  | [], _, _, _, x, hx => by cases hx
  | d :: new, ds, hds, hnew, x, hx => by
    have hd := hnew d List.mem_cons_self
    have hnext : ∀ a ∈ addNumber ds d, a.isFinite := fun a ha =>
      (mem_addNumber ha).elim (hds a) fun h => h ▸ hd
    rcases List.mem_cons.mp hx with rfl | hx
    · exact (holds_addNumber hds hd).mono (subset_foldl_addNumber new _)
    · exact holds_foldl_addNumber hnext (fun a ha => hnew a (List.mem_cons_of_mem d ha)) x hx

/-! ### The sources of numeric samples -/

/-- Whether a number lies between a lower bound and an upper one, if any, by value. -/
def Within (low : Decimal) (high : Option Decimal) (x : Decimal) : Prop :=
  low.extended ≤ x.extended ∧ ∀ h ∈ high, x.extended ≤ h.extended

/-- Whether `x` is a literal, or one below or one above it as the context computes them. -/
def Near (lit x : Decimal) : Prop :=
  x = lit ∨ Decimal.sub lit (Decimal.ofNat 1) = .ok x ∨ Decimal.add lit (Decimal.ofNat 1) = .ok x

/-- Whether `x` is an inner point from `low` up to `top`: `low + step · k` for some `k` from
1 to `points`, where the step is the span `top - low` divided into `points + 1` parts, all as
the context computes them. There are none unless `top` lies above `low`. -/
def InnerPoint (low top : Decimal) (points : Int) (x : Decimal) : Prop :=
  low.extended < top.extended ∧ ∃ k : Nat, 1 ≤ k ∧ (k : Int) ≤ points ∧
    ∃ span step offset, Decimal.sub top low = .ok span ∧
      Decimal.div span (Decimal.ofInt (points + 1)) = .ok step ∧
      Decimal.mul step (Decimal.ofNat k) = .ok offset ∧ Decimal.add low offset = .ok x

/-- The numbers a numeric domain from `low` to `high` is built from: the bounds, the
default, the candidates around each literal that lie within the bounds, and the inner points
up to the upper bound, or up to the default when there is none. -/
def Source (low : Decimal) (high : Option Decimal) (default : Decimal)
    (literals : List Decimal) (points : Int) (x : Decimal) : Prop :=
  x = low ∨ x = default ∨ x ∈ high ∨ (∃ lit ∈ literals, Near lit x ∧ Within low high x) ∨
    InnerPoint low (high.getD default) points x

/-- The candidates around a finite literal are the numbers near it within the bounds. -/
theorem mem_around {low lit : Decimal} {high : Option Decimal} {cs : List Decimal}
    (hlow : low.isFinite) (hhigh : ∀ h ∈ high, h.isFinite) (hlit : lit.isFinite)
    (h : around low high lit = .ok cs) {x : Decimal} : x ∈ cs ↔ Near lit x ∧ Within low high x := by
  unfold around at h
  obtain ⟨below, hbelow, h⟩ := bind_eq_ok.mp h
  obtain ⟨above, habove, h⟩ := bind_eq_ok.mp h
  cases h
  have hfinite : ∀ y ∈ [below, lit, above], y.isFinite := by
    simp only [List.mem_cons, List.not_mem_nil, or_false]
    rintro y (rfl | rfl | rfl)
    · exact Decimal.sub_isFinite hlit (Decimal.ofNat_isFinite 1) hbelow
    · exact hlit
    · exact Decimal.add_isFinite hlit (Decimal.ofNat_isFinite 1) habove
  have hnear : x ∈ [below, lit, above] ↔ Near lit x := by
    simp only [Near, hbelow, habove, Except.ok.injEq, List.mem_cons, List.not_mem_nil, or_false]
    constructor
    · rintro (rfl | rfl | rfl) <;> simp
    · rintro (rfl | rfl | rfl) <;> simp
  rw [List.mem_filter, hnear]
  refine and_congr_right fun hx => ?_
  -- the bound test compares by value on finite numbers
  have hxlow := Decimal.compareNumbers_of_isFinite (hfinite x (hnear.mpr hx)) hlow
  cases high with
  | none => simp [Within, hxlow, bne, compare_beq_lt]
  | some hi =>
    have hxhi := Decimal.compareNumbers_of_isFinite (hfinite x (hnear.mpr hx)) (hhigh hi rfl)
    simp [Within, hxlow, hxhi, bne, compare_beq_lt, compare_beq_gt]

theorem Near.isFinite {lit x : Decimal} (hlit : lit.isFinite) (h : Near lit x) : x.isFinite := by
  rcases h with rfl | h | h
  · exact hlit
  · exact Decimal.sub_isFinite hlit (Decimal.ofNat_isFinite 1) h
  · exact Decimal.add_isFinite hlit (Decimal.ofNat_isFinite 1) h

theorem InnerPoint.isFinite {low top x : Decimal} {points : Int} (hlow : low.isFinite)
    (htop : top.isFinite) (h : InnerPoint low top points x) : x.isFinite := by
  obtain ⟨-, k, -, -, span, step, offset, hspan, hstep, hoffset, hx⟩ := h
  have hspan := Decimal.sub_isFinite htop hlow hspan
  have hstep := Decimal.div_isFinite hspan (Decimal.ofInt_isFinite _) hstep
  exact Decimal.add_isFinite hlow (Decimal.mul_isFinite hstep (Decimal.ofNat_isFinite k) hoffset) hx

theorem Source.isFinite {low default x : Decimal} {high : Option Decimal}
    {literals : List Decimal} {points : Int} (hlow : low.isFinite)
    (hhigh : ∀ h ∈ high, h.isFinite) (hdefault : default.isFinite)
    (hliterals : ∀ l ∈ literals, l.isFinite) (h : Source low high default literals points x) :
    x.isFinite := by
  rcases h with rfl | rfl | hx | ⟨lit, hlit, hnear, -⟩ | hinner
  · exact hlow
  · exact hdefault
  · exact hhigh x hx
  · exact hnear.isFinite (hliterals lit hlit)
  · refine hinner.isFinite hlow ?_
    cases high with
    | none => exact hdefault
    | some hi => exact hhigh hi rfl

/-- Adding the candidates around each literal, when each literal has them, collects exactly
the numbers near a literal within the bounds. -/
theorem foldlM_around {low : Decimal} {high : Option Decimal} (hlow : low.isFinite)
    (hhigh : ∀ h ∈ high, h.isFinite) :
    ∀ {literals start withLiterals : List Decimal}, (∀ l ∈ literals, l.isFinite) →
      literals.foldlM (fun acc lit => do
          let cs ← around low high lit
          pure (cs.foldl addNumber acc)) start = .ok withLiterals →
      ∃ cands : List Decimal, withLiterals = cands.foldl addNumber start ∧
        ∀ x, x ∈ cands ↔ ∃ lit ∈ literals, Near lit x ∧ Within low high x
  | [], start, withLiterals, _, h => by
    simp only [List.foldlM_nil, pure, Except.pure, Except.ok.injEq] at h
    subst h
    exact ⟨[], rfl, by simp⟩
  | lit :: literals, start, withLiterals, hfinite, h => by
    rw [List.foldlM_cons] at h
    obtain ⟨acc, hacc, h⟩ := bind_eq_ok.mp h
    obtain ⟨cs, hcs, hacc⟩ := bind_eq_ok.mp hacc
    cases hacc
    obtain ⟨cands, rfl, hcands⟩ :=
      foldlM_around hlow hhigh (fun l hl => hfinite l (List.mem_cons_of_mem lit hl)) h
    refine ⟨cs ++ cands, by rw [List.foldl_append], fun x => ?_⟩
    rw [List.mem_append, hcands, mem_around hlow hhigh (hfinite lit List.mem_cons_self) hcs]
    simp only [List.mem_cons, or_and_right, exists_or, exists_eq_left]

/-- The inner points from `low` up to a `top` above it are the `InnerPoint`s. -/
theorem mem_innerPoints {low top : Decimal} {points : Int} {inner : List Decimal}
    (hlt : low.extended < top.extended) (h : innerPoints low top points = .ok inner)
    {x : Decimal} : x ∈ inner ↔ InnerPoint low top points x := by
  unfold innerPoints at h
  obtain ⟨span, hspan, h⟩ := bind_eq_ok.mp h
  obtain ⟨step, hstep, h⟩ := bind_eq_ok.mp h
  rw [mem_mapM_ok_iff h]
  constructor
  · rintro ⟨i, hi, hx⟩
    obtain ⟨offset, hoffset, hx⟩ := bind_eq_ok.mp hx
    have hi := List.mem_range.mp hi
    exact ⟨hlt, i + 1, by omega, by omega, span, step, offset, hspan, hstep, hoffset, hx⟩
  · rintro ⟨-, k, hk, hkp, span', step', offset, hspan', hstep', hoffset, hx⟩
    -- the span and the step are the ones computed
    obtain rfl : span' = span := Except.ok.inj (hspan'.symm.trans hspan)
    obtain rfl : step' = step := Except.ok.inj (hstep'.symm.trans hstep)
    refine ⟨k - 1, List.mem_range.mpr (by omega), ?_⟩
    rw [Nat.sub_add_cancel hk]
    exact bind_eq_ok.mpr ⟨offset, hoffset, hx⟩

/-- On finite numbers, the test "greater" of `compareNumbers` is the order of values. -/
theorem compareNumbers_beq_gt {a b : Decimal} (ha : a.isFinite) (hb : b.isFinite) :
    (Decimal.compareNumbers a b == .gt) = true ↔ b.extended < a.extended := by
  rw [Decimal.compareNumbers_of_isFinite ha hb, compare_beq_gt]
  simp

/-- The numbers collected before sorting are exactly the sources, and so are the samples, by
value. The whole list of sources is collected in one fold: the start, the candidates of all
literals, then the inner points. -/
theorem numericSamples_sources {low default : Decimal} {high : Option Decimal}
    {literals : List Decimal} {points : Int} {ss : List Decimal} (hlow : low.isFinite)
    (hhigh : ∀ h ∈ high, h.isFinite) (hdefault : default.isFinite)
    (hliterals : ∀ l ∈ literals, l.isFinite)
    (h : numericSamples low high default literals points = .ok ss) :
    (∀ x ∈ ss, Source low high default literals points x) ∧
      ∀ x, Source low high default literals points x → Holds ss x := by
  have htop : (high.getD default).isFinite := by
    cases high with
    | none => exact hdefault
    | some hi => exact hhigh hi rfl
  unfold numericSamples at h
  obtain ⟨withLiterals, hwith, h⟩ := bind_eq_ok.mp h
  obtain ⟨cands, rfl, hcands⟩ := foldlM_around hlow hhigh hliterals hwith
  obtain ⟨inner, hinner, rfl⟩ : ∃ inner : List Decimal,
      (∀ x, x ∈ inner ↔ InnerPoint low (high.getD default) points x) ∧
        ss = ((low :: default :: high.toList ++ cands ++ inner).foldl addNumber []).mergeSort
          fun a b => Decimal.compareNumbers a b != .gt := by
    dsimp only at h
    split at h
    · rename_i hguard
      have hlt := (compareNumbers_beq_gt htop hlow).mp hguard.2
      obtain ⟨inner, hinner, h⟩ := bind_eq_ok.mp h
      obtain ⟨all, hall, h⟩ := bind_eq_ok.mp h
      cases hall
      cases h
      exact ⟨inner, fun x => mem_innerPoints hlt hinner, by simp only [List.foldl_append]; rfl⟩
    · -- without inner points there is no `InnerPoint` either
      rename_i hguard
      obtain ⟨all, hall, h⟩ := bind_eq_ok.mp h
      cases hall
      cases h
      refine ⟨[], fun x => ⟨fun hx => (List.not_mem_nil hx).elim, fun hx => ?_⟩,
        by simp only [List.foldl_append, List.foldl_nil]; rfl⟩
      obtain ⟨hlt, k, hk, hkp, -⟩ := hx
      exact absurd ⟨by simp only [bne_iff_ne]; omega, (compareNumbers_beq_gt htop hlow).mpr hlt⟩
        hguard
  have hsource : ∀ x, x ∈ low :: default :: high.toList ++ cands ++ inner ↔
      Source low high default literals points x := by
    intro x
    simp only [List.mem_append, List.mem_cons, Option.mem_toList, Option.mem_def, hcands, hinner,
      Source, or_assoc]
  have hfinite : ∀ x ∈ low :: default :: high.toList ++ cands ++ inner, x.isFinite :=
    fun x hx => ((hsource x).mp hx).isFinite hlow hhigh hdefault hliterals
  refine ⟨fun x hx => ?_, fun x hx => ?_⟩
  · rcases mem_foldl_addNumber (List.mem_mergeSort.mp hx) with hx | hx
    · cases hx
    · exact (hsource x).mp hx
  · exact (holds_foldl_addNumber (by simp) hfinite x ((hsource x).mpr hx)).mono
      fun y hy => List.mem_mergeSort.mpr hy

/-- The sources of a number input, whose default lies between its bounds, lie within the
bounds, but for the inner points. -/
theorem Source.within_or_inner {lo hi d x : Decimal} {literals : List Decimal} {points : Int}
    (hlohi : lo.extended ≤ hi.extended) (hlod : lo.extended ≤ d.extended)
    (hdhi : d.extended ≤ hi.extended) (h : Source lo (some hi) d literals points x) :
    Within lo (some hi) x ∨ InnerPoint lo hi points x := by
  rcases h with rfl | rfl | hx | ⟨-, -, -, hw⟩ | hinner
  · exact .inl ⟨le_rfl, by simpa using hlohi⟩
  · exact .inl ⟨hlod, by simpa using hdhi⟩
  · obtain rfl := Option.mem_some_iff.mp hx
    exact .inl ⟨hlohi, by simp⟩
  · exact .inl hw
  · exact .inr hinner

end Sample

open Sample in
/-- The samples of a numeric domain: the numbers it is built from (`Sample.Source`), each
value once, in increasing order. -/
structure NumberSamples (low : Decimal) (high : Option Decimal) (default : Decimal)
    (literals : List Decimal) (points : Int) (ss : List Decimal) : Prop where
  increasing : ss.Pairwise fun a b => a.extended < b.extended
  sources : ∀ x ∈ ss, Source low high default literals points x
  complete : ∀ x, Source low high default literals points x → Holds ss x

/-- The numeric samples between finite bounds, around finite literals, are their sources by
value, in increasing order. -/
theorem numericSamples_spec {low default : Decimal} {high : Option Decimal}
    {literals : List Decimal} {points : Int} {ss : List Decimal} (hlow : low.isFinite)
    (hhigh : ∀ h ∈ high, h.isFinite) (hdefault : default.isFinite)
    (hliterals : ∀ l ∈ literals, l.isFinite)
    (h : numericSamples low high default literals points = .ok ss) :
    NumberSamples low high default literals points ss :=
  have hsources := Sample.numericSamples_sources hlow hhigh hdefault hliterals h
  ⟨(numericSamples_increasing hlow hhigh hdefault hliterals h).2, hsources.1, hsources.2⟩

/-! ### Dates -/

/-- The day `n` days after `lo`, for `n` from zero to the days from `lo` to `hi`, lies
between `lo` and `hi`. -/
theorem Date.addDays_within {lo hi x : Date} {n : Int} (h0 : 0 ≤ n)
    (hn : n ≤ Date.daysFrom hi lo) (h : lo.addDays n = some x) : lo ≤ x ∧ x ≤ hi := by
  unfold Date.addDays at h
  dsimp only at h
  split at h
  · cases h
    unfold Date.daysFrom at hn
    exact ⟨show lo.ordinal ≤ (lo.ordinal + n).toNat by omega,
      show (lo.ordinal + n).toNat ≤ hi.ordinal by omega⟩
  · cases h

/-- The offset of an inner day, `span · (i + 1) / (points + 1)` for `i + 1 ≤ points`, lies
between zero and the span. -/
theorem innerOffset_bounds {span points : Int} {i : Nat} (hspan : 0 ≤ span)
    (hi : (i : Int) + 1 ≤ points) :
    0 ≤ span * ((i : Int) + 1) / (points + 1) ∧ span * ((i : Int) + 1) / (points + 1) ≤ span := by
  refine ⟨Int.ediv_nonneg (Int.mul_nonneg hspan (by omega)) (by omega),
    Int.ediv_le_of_le_mul (by omega) ?_⟩
  calc span * ((i : Int) + 1) ≤ span * (points + 1) :=
        Int.mul_le_mul_of_nonneg_left (by omega) hspan

namespace Sample

/-- Whether `x` is a literal, or the day before or after it when that is a date. -/
def NearDay (lit x : Date) : Prop :=
  x = lit ∨ lit.addDays (-1) = some x ∨ lit.addDays 1 = some x

@[simp] theorem mem_addDate {ds : List Date} {d x : Date} :
    x ∈ addDate ds d ↔ x ∈ ds ∨ x = d := by
  unfold addDate
  split
  · rename_i hd
    refine ⟨.inl, ?_⟩
    rintro (hx | rfl)
    · exact hx
    · exact List.contains_iff_mem.mp hd
  · simp

/-- Adding a list of days, each once, to days gives the days of both. -/
theorem mem_foldl_addDate {x : Date} :
    ∀ {new ds : List Date}, x ∈ new.foldl addDate ds ↔ x ∈ ds ∨ x ∈ new
  | [], _ => by simp
  | d :: new, ds => by
    rw [List.foldl_cons, mem_foldl_addDate, mem_addDate, List.mem_cons, or_assoc]

/-- Adding the days `f a` for each `a` gives the days there and all those days. -/
theorem mem_foldl_addDates {α : Type} (f : α → List Date) {x : Date} :
    ∀ (xs : List α) (ds : List Date),
      x ∈ xs.foldl (fun acc a => (f a).foldl addDate acc) ds ↔ x ∈ ds ∨ ∃ a ∈ xs, x ∈ f a
  | [], ds => by simp
  | a :: xs, ds => by
    rw [List.foldl_cons, mem_foldl_addDates f xs, mem_foldl_addDate]
    simp only [List.mem_cons, or_and_right, exists_or, exists_eq_left, or_assoc]

/-- The candidates of a literal are the days near it within the bounds. -/
theorem mem_dayCandidates {lo hi lit x : Date} :
    x ∈ ([some lit, lit.addDays (-1), lit.addDays 1].filterMap id).filter
        (fun c => lo ≤ c ∧ c ≤ hi) ↔ NearDay lit x ∧ lo ≤ x ∧ x ≤ hi := by
  simp only [List.mem_filter, List.mem_filterMap, List.mem_cons, List.not_mem_nil, or_false, id,
    decide_eq_true_eq, NearDay, or_and_right, exists_or, exists_eq_left, Option.some.injEq,
    @eq_comm _ lit x]

end Sample

open Sample in
/-- The date samples are the bounds, the default, the days near a literal that lie within
the bounds, and the inner days `lo + span · (i + 1) / (points + 1)` for `i + 1 ≤ points`,
which there are when the bounds are more than a day apart; all but the inner days are there
for sure. -/
theorem mem_dateSamples {lo hi d x : Date} {literals : List Date} {points : Int} :
    (x ∈ dateSamples lo hi d literals points →
      (x = lo ∨ x = hi ∨ x = d ∨ ∃ lit ∈ literals, NearDay lit x ∧ lo ≤ x ∧ x ≤ hi) ∨
        1 < Date.daysFrom hi lo ∧ ∃ i : Nat, (i : Int) + 1 ≤ points ∧
          lo.addDays (Date.daysFrom hi lo * ((i : Int) + 1) / (points + 1)) = some x) ∧
    (x = lo ∨ x = hi ∨ x = d ∨ (∃ lit ∈ literals, NearDay lit x ∧ lo ≤ x ∧ x ≤ hi) →
      x ∈ dateSamples lo hi d literals points) := by
  unfold dateSamples
  lift_lets
  intro start withLiterals span all
  have hwith : ∀ y, y ∈ withLiterals ↔
      y = lo ∨ y = hi ∨ y = d ∨ ∃ lit ∈ literals, NearDay lit y ∧ lo ≤ y ∧ y ≤ hi := by
    intro y
    refine (mem_foldl_addDates _ literals start).trans ?_
    simp only [start, mem_addDate, List.mem_singleton, mem_dayCandidates, or_assoc]
  simp only [List.mem_mergeSort, ← hwith]
  simp only [all]
  split
  · rename_i hguard
    refine ⟨fun hx => ?_, fun hx => ?_⟩
    · -- each inner step adds at most one inner day
      refine @foldl_invariant Nat (List Date) (fun acc => ∀ y ∈ acc, y ∈ withLiterals ∨
          1 < span ∧ ∃ i : Nat, (i : Int) + 1 ≤ points ∧
            lo.addDays (span * ((i : Int) + 1) / (points + 1)) = some y)
        _ _ _ (fun acc i hmem hacc => ?_) (fun y hy => .inl hy) x hx
      split
      · rename_i y hday
        intro z hz
        rcases mem_addDate.mp hz with hz | rfl
        · exact hacc z hz
        · exact .inr ⟨by simpa using hguard.2, i, by simp at hmem; omega, hday⟩
      · exact hacc
    · refine @foldl_invariant Nat (List Date) (fun acc => withLiterals ⊆ acc) _ _ _
        (fun acc i _ hacc => ?_) (List.Subset.refl _) x hx
      split
      · exact fun z hz => mem_addDate.mpr (.inl (hacc hz))
      · exact hacc
  · exact ⟨.inl, id⟩

/-- The samples of a date domain: increasing days within the bounds, among them the bounds,
the default and every day near a literal that lies within the bounds. -/
structure DateSamples (lo hi d : Date) (literals : List Date) (ss : List Date) : Prop where
  increasing : ss.Pairwise (· < ·)
  within : ∀ x ∈ ss, lo ≤ x ∧ x ≤ hi
  bounds : lo ∈ ss ∧ hi ∈ ss ∧ d ∈ ss
  near : ∀ lit ∈ literals, ∀ x, Sample.NearDay lit x → lo ≤ x → x ≤ hi → x ∈ ss

/-- The date samples of bounds with the default between them. Unlike the inner points of a
number, an inner day is computed in whole days and lies within the bounds. -/
theorem dateSamples_spec {lo hi d : Date} (hlod : lo ≤ d) (hdhi : d ≤ hi)
    (literals : List Date) (points : Int) :
    DateSamples lo hi d literals (dateSamples lo hi d literals points) := by
  have hlohi : lo ≤ hi := Nat.le_trans hlod hdhi
  refine ⟨dateSamples_increasing lo hi d literals points, fun x hx => ?_,
    ⟨mem_dateSamples.2 (.inl rfl), mem_dateSamples.2 (.inr (.inl rfl)),
      mem_dateSamples.2 (.inr (.inr (.inl rfl)))⟩,
    fun lit hlit x hnear hlo hhi =>
      mem_dateSamples.2 (.inr (.inr (.inr ⟨lit, hlit, hnear, hlo, hhi⟩)))⟩
  rcases mem_dateSamples.1 hx with (rfl | rfl | rfl | ⟨-, -, -, hw⟩) | ⟨hspan, i, hip, hday⟩
  · exact ⟨Nat.le_refl _, hlohi⟩
  · exact ⟨hlohi, Nat.le_refl _⟩
  · exact ⟨hlod, hdhi⟩
  · exact hw
  · have hoffset := @innerOffset_bounds (Date.daysFrom hi lo) points i (by omega) hip
    exact Date.addDays_within hoffset.1 hoffset.2 hday

/-! ### Selections -/

/-- The subsets of at most `m` elements of `xs`, as its sublists: each once, by size, and
`∑ k ≤ m, C(n, k)` of them for `n` elements. -/
structure Subsets {α : Type} (xs : List α) (m : Nat) (subs : List (List α)) : Prop where
  mem : ∀ l, l ∈ subs ↔ l.Sublist xs ∧ l.length ≤ m
  nodup : subs.Nodup
  bySize : subs.Pairwise fun a b => a.length ≤ b.length
  count : subs.length = ∑ k ∈ Finset.range (m + 1), xs.length.choose k

/-- There are `C(n, k)` combinations of `k` of `n` elements. -/
theorem length_combinations {α : Type} :
    ∀ (k : Nat) (xs : List α), (combinations k xs).length = xs.length.choose k
  | 0, _ => by simp [combinations]
  | _ + 1, [] => by simp [combinations]
  | k + 1, x :: xs => by
    rw [combinations, List.length_append, List.length_map, length_combinations k xs,
      length_combinations (k + 1) xs, List.length_cons, Nat.choose_succ_succ]

/-- The combinations of elements without repeats are distinct: those with the first element
hold it, the others do not. -/
theorem combinations_nodup {α : Type} :
    ∀ {k : Nat} {xs : List α}, xs.Nodup → (combinations k xs).Nodup
  | 0, _, _ => by simp [combinations]
  | _ + 1, [], _ => by simp [combinations]
  | k + 1, x :: xs, h => by
    obtain ⟨hx, hxs⟩ := List.nodup_cons.mp h
    rw [combinations]
    refine List.nodup_append.mpr ⟨(combinations_nodup hxs).map List.cons_injective,
      combinations_nodup hxs, ?_⟩
    rintro _ ha b hb rfl
    obtain ⟨l, -, rfl⟩ := List.mem_map.mp ha
    exact hx ((mem_combinations.mp hb).1.subset List.mem_cons_self)

/-- The subsets tried of a list without repeats: its sublists of at most `m` elements, each
once, by size. -/
theorem subsetsUpTo_subsets {α : Type} {xs : List α} (hxs : xs.Nodup) (m : Nat) :
    Subsets xs m (subsetsUpTo m xs) := by
  have hblocks : subsetsUpTo m xs =
      (List.range (min m xs.length + 1)).flatMap fun k => combinations k xs := by
    simp [subsetsUpTo]
  refine ⟨fun l => ?_, ?_, ?_, ?_⟩
  · rw [mem_subsetsUpTo, Nat.cast_le]
  · -- the blocks are distinct, and of different sizes
    rw [hblocks, List.nodup_flatMap]
    refine ⟨fun k _ => combinations_nodup hxs, List.nodup_range.pairwise_of_forall_ne ?_⟩
    intro j _ k _ hjk a ha hb
    exact hjk ((mem_combinations.mp ha).2.symm.trans (mem_combinations.mp hb).2)
  · rw [hblocks, List.pairwise_flatMap]
    refine ⟨fun k _ => List.pairwise_of_forall_mem_list fun a ha b hb => ?_,
      List.pairwise_lt_range.imp fun hjk a ha b hb => ?_⟩
    · rw [(mem_combinations.mp ha).2, (mem_combinations.mp hb).2]
    · rw [(mem_combinations.mp ha).2, (mem_combinations.mp hb).2]
      exact hjk.le
  · -- sizes above `n` have no subsets
    have hsum : ∀ j, ((List.range j).map fun k => xs.length.choose k).sum =
        ∑ k ∈ Finset.range j, xs.length.choose k := by
      intro j
      induction j with
      | zero => rfl
      | succ j ih => rw [List.sum_range_succ, Finset.sum_range_succ, ih]
    rw [hblocks, List.length_flatMap]
    simp only [length_combinations]
    rw [hsum]
    refine Finset.sum_subset (Finset.range_subset_range.mpr (by omega)) fun k hk hk' => ?_
    rw [Finset.mem_range] at hk hk'
    exact Nat.choose_eq_zero_of_lt (by omega)

/-! ### The domain of an input -/

open Sample in
/-- What the domain of an input holds, kind by kind, given the literals it is compared with
and the settings: false then true; the choices in order; the subsets of at most `subsetSize`
choices; for a number, its numeric samples, each within the bounds unless it is an inner
point; for an amount, its numeric samples from zero; for a date, its date samples. -/
def InputSpec.Sampled (literals : List Value) (settings : VerifySettings) :
    InputSpec → List BoundValue → Prop
  | .boolean _, vs => vs = [.boolean false, .boolean true]
  | .list cs _, vs => vs = cs.map fun c => .choice (symbolOf c.symbol)
  | .multilist cs _, vs => ∃ subs, vs = subs.map .selection ∧
      Subsets (cs.map fun c => symbolOf c.symbol) settings.subsetSize.toNat subs
  | .number lo hi d, vs => ∃ ss, vs = ss.map .number ∧
      NumberSamples lo (some hi) d (Value.numbers literals) settings.samplePoints ss ∧
      ∀ x ∈ ss, Sample.Within lo (some hi) x ∨ InnerPoint lo hi settings.samplePoints x
  | .amount _ d, vs => ∃ ss, vs = ss.map .number ∧
      NumberSamples Decimal.zero none d (Value.numbers literals) settings.samplePoints ss
  | .date lo hi d, vs => ∃ ss, vs = ss.map .date ∧ DateSamples lo hi d (Value.dates literals) ss

/-- The domain of an input that passes its check, with finite numbers and finite literals,
holds what `InputSpec.Sampled` says. It is found for every kind of input but a number or an
amount, whose arithmetic can signal. -/
theorem Input.domain_sampled {s : Schedule} {i : Input} (hcheck : s.inputFaults i = [])
    (hfinite : i.spec.numbersFinite = true) {literals : List Value}
    (hliterals : ∀ d, Value.num d ∈ literals → d.isFinite = true) (settings : VerifySettings)
    (hsize : 0 ≤ settings.subsetSize) :
    (i.spec.kind ∉ [.number, .amount] → ∃ vs, i.domain literals settings = .ok vs) ∧
      ∀ vs, i.domain literals settings = .ok vs → i.spec.Sampled literals settings vs := by
  have hnumbers : ∀ l ∈ Value.numbers literals, l.isFinite :=
    fun l hl => hliterals l (Value.mem_numbers.mp hl)
  constructor
  · intro hkind
    unfold Input.domain
    cases hs : i.spec with
    | number _ _ _ | amount _ _ =>
      rw [hs] at hkind
      simp [InputSpec.kind] at hkind
    | boolean _ | list _ _ | multilist _ _ | date _ _ _ => exact ⟨_, rfl⟩
  intro vs h
  unfold Input.domain at h
  cases hs : i.spec with
  | boolean _ =>
    rw [hs] at h
    cases h
    rfl
  | list cs _ =>
    rw [hs] at h
    cases h
    rfl
  | multilist cs ds =>
    rw [hs] at h
    cases h
    have hsubs := subsetsUpTo_subsets (nodup_symbols (Schedule.inputFaults_multilist hcheck hs).1)
      settings.subsetSize.toNat
    rw [Int.toNat_of_nonneg hsize] at hsubs
    exact ⟨_, rfl, hsubs⟩
  | number lo hi d =>
    rw [hs] at h hfinite
    simp only [InputSpec.numbersFinite, Bool.and_eq_true] at hfinite
    change numericSamples lo (some hi) d (Value.numbers literals) settings.samplePoints >>= _ =
      _ at h
    obtain ⟨ss, hss, h⟩ := bind_eq_ok.mp h
    cases h
    -- the check puts the default between the bounds
    obtain ⟨hlohi, hlod, hdhi⟩ := Schedule.inputFaults_number hcheck hs
    rw [Decimal.compareNumbers_of_isFinite hfinite.1.1 hfinite.1.2, compare_le_iff_le] at hlohi
    rw [Decimal.compareNumbers_of_isFinite hfinite.1.1 hfinite.2, compare_le_iff_le] at hlod
    rw [Decimal.compareNumbers_of_isFinite hfinite.2 hfinite.1.2, compare_le_iff_le] at hdhi
    have hspec := numericSamples_spec hfinite.1.1 (by simpa using hfinite.1.2) hfinite.2
      hnumbers hss
    exact ⟨ss, rfl, hspec, fun x hx => (hspec.sources x hx).within_or_inner hlohi hlod hdhi⟩
  | amount c d =>
    rw [hs] at h hfinite
    change numericSamples Decimal.zero none d (Value.numbers literals) settings.samplePoints >>= _ =
      _ at h
    obtain ⟨ss, hss, h⟩ := bind_eq_ok.mp h
    cases h
    exact ⟨ss, rfl, numericSamples_spec Decimal.zero_isFinite (by simp) hfinite hnumbers hss⟩
  | date lo hi d =>
    rw [hs] at h
    cases h
    obtain ⟨-, hlod, hdhi⟩ := Schedule.inputFaults_date hcheck hs
    exact ⟨_, rfl, dateSamples_spec hlod hdhi _ _⟩

/-- A number of claims from 1 to 50, 10 by default. -/
def claimsInput : Input :=
  ⟨"claims", "Claims", .number (Decimal.ofNat 1) (Decimal.ofNat 50) (Decimal.ofNat 10), none⟩

/-- The default limits of a verification, with three inner points. -/
def threeInnerPoints : VerifySettings := ⟨10000, 50, 3, 1⟩

/-- The claims input passes its check, and its domain around the literal 12 holds what
`InputSpec.Sampled` says. -/
theorem claims_domain_sampled :
    Schedule.empty.inputFaults claimsInput = [] ∧ claimsInput.spec.numbersFinite = true ∧
      (∀ d, Value.num d ∈ [Value.num (Decimal.ofNat 12)] → d.isFinite = true) ∧
      0 ≤ threeInnerPoints.subsetSize ∧
      (claimsInput.spec.kind ∉ [.number, .amount] →
        ∃ vs, claimsInput.domain [.num (Decimal.ofNat 12)] threeInnerPoints = .ok vs) ∧
      ∀ vs, claimsInput.domain [.num (Decimal.ofNat 12)] threeInnerPoints = .ok vs →
        claimsInput.spec.Sampled [.num (Decimal.ofNat 12)] threeInnerPoints vs := by
  have hcheck : Schedule.empty.inputFaults claimsInput = [] := by decide
  have hliterals : ∀ d, Value.num d ∈ [Value.num (Decimal.ofNat 12)] → d.isFinite = true := by
    simp
  exact ⟨hcheck, rfl, hliterals, by decide,
    Input.domain_sampled hcheck rfl hliterals threeInnerPoints (by decide)⟩

/-- The number `1 - 10 ^ (-k)`: `k` nines after the point. -/
def nines (k : Nat) : Decimal := .finite false (10 ^ k - 1) (-(k : Int))

/-- A number input from 29 nines after the point to 30 of them, at the minimum by default. -/
def ninesInput : Input := ⟨"n", "n", .number (nines 29) (nines 30) (nines 29), none⟩

/-- An input that passes its check whose domain, with one inner point, holds a sample above
its maximum. The lower bound has more digits than the context keeps, and the inner point, a
little above it, rounds up to 1. -/
theorem inner_point_above_maximum :
    Schedule.empty.inputFaults ninesInput = [] ∧
      ∀ vs, ninesInput.domain [] ⟨10000, 50, 1, 1⟩ = .ok vs →
        ∃ x, BoundValue.number x ∈ vs ∧ (nines 30).extended < x.extended := by
  refine ⟨by decide, fun vs h => ?_⟩
  change numericSamples (nines 29) (some (nines 30)) (nines 29) [] 1 >>= _ = _ at h
  obtain ⟨ss, hss, h⟩ := bind_eq_ok.mp h
  cases h
  have hspec := numericSamples_spec rfl (by rintro h ⟨⟩; rfl) rfl (by simp) hss
  -- the one inner point is 1
  have hinner : Sample.InnerPoint (nines 29) (nines 30) 1 (.finite false (10 ^ 27) (-27)) := by
    refine ⟨?_, 1, le_rfl, le_rfl, _, _, _, rfl, rfl, rfl, rfl⟩
    rw [← compare_lt_iff_lt, ← Decimal.compareNumbers_eq rfl rfl]
    decide
  obtain ⟨x, hx, heq⟩ := hspec.complete _ (.inr (.inr (.inr (.inr hinner))))
  refine ⟨x, List.mem_map_of_mem hx, ?_⟩
  rw [heq, ← compare_lt_iff_lt, ← Decimal.compareNumbers_eq rfl rfl]
  decide

end FeeSchedule
