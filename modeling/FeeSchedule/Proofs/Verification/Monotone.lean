import FeeSchedule.Proofs.Verification.Domain
import FeeSchedule.Verification.Monotonicity

/-!
# `FeeSchedule.Proofs.Verification.Monotone`: a monotonicity report says what it claims

`Schedule.checkMonotonicity` evaluates a fee at each value of the domain of one input, the
other inputs at their defaults, and compares the amounts of neighbouring samples only. Its
report is exactly that, and a report without violations and errors is a monotonicity
proof over the whole domain:

* `Monotonicity.sample_run`: the samples are the values at which the fee evaluates, with its
  contribution (`sampleAt`), and the errors are one message for each value at which it fails
  (`failureAt`), in the order of the domain; every failure there is an evaluation error.
* `Monotonicity.violations_eq`: the violations are the neighbouring samples whose amounts move
  against the direction (`Direction.Follows` fails), compared by value; the amounts compared
  are numbers.
* `Monotonicity.pairwise_of_violations_nil`: with no violation, every sample's amount follows
  every earlier one's, since following is transitive.
* `monotonicity_report_sound`: the report, from the above; for a number, an amount or a date
  input the domain strictly increases (`Input.domain_increasing`), so a monotonic report
  makes the contribution a monotone function of the value sampled.
-/

set_option autoImplicit false

namespace FeeSchedule

/-! ### Directions -/

/-- Amount `b` follows amount `a` in direction `d`: by value, it is no smaller when the fee
should increase and no larger when it should decrease. -/
def Direction.Follows : Direction → Decimal → Decimal → Prop
  | .increasing, a, b => a.extended ≤ b.extended
  | .decreasing, a, b => b.extended ≤ a.extended

instance (d : Direction) (a b : Decimal) : Decidable (d.Follows a b) :=
  match d with
  | .increasing => inferInstanceAs (Decidable (a.extended ≤ b.extended))
  | .decreasing => inferInstanceAs (Decidable (b.extended ≤ a.extended))

theorem Direction.Follows.trans {d : Direction} {a b c : Decimal} (hab : d.Follows a b)
    (hbc : d.Follows b c) : d.Follows a c := by
  cases d
  · exact le_trans (α := WithBot (WithTop ℚ)) hab hbc
  · exact le_trans (α := WithBot (WithTop ℚ)) hbc hab

instance (d : Direction) : Trans d.Follows d.Follows d.Follows := ⟨Direction.Follows.trans⟩

/-- The violation a pair of neighbouring samples makes. -/
def Violation.ofPair (pq : (BoundValue × Decimal) × (BoundValue × Decimal)) : Violation :=
  ⟨pq.1.1, pq.1.2, pq.2.1, pq.2.2⟩

/-! ### Neighbours -/

/-- A list whose neighbours are all related is a chain. -/
theorem isChain_of_zip_tail {α : Type} {R : α → α → Prop} :
    ∀ {l : List α}, (∀ pq ∈ l.zip l.tail, R pq.1 pq.2) → l.IsChain R
  | [], _ => List.IsChain.nil
  | [_], _ => List.IsChain.singleton _
  | a :: b :: _, h => List.isChain_cons_cons.mpr
    ⟨h (a, b) List.mem_cons_self, isChain_of_zip_tail fun pq hpq => h pq (List.mem_cons_of_mem _ hpq)⟩

namespace Monotonicity

/-! ### Samples -/

/-- The sample of a fee at value `v` of input `x`, the other inputs as in `base`: the value
with the fee's contribution, when the fee evaluates there. -/
def sampleAt (f : Fee) (x : String) (base : Env) (v : BoundValue) :
    Option (BoundValue × Decimal) :=
  (feeOutcome f ((x, v.toValue) :: base)).toOption.map fun o => (v, o.contribution)

/-- The error a check records at value `v` of input `x`, when the fee fails there. -/
def failureAt (f : Fee) (x : String) (base : Env) (v : BoundValue) : Option String :=
  match feeOutcome f ((x, v.toValue) :: base) with
  | .ok _ => none
  | .error e => some (x ++ "=" ++ v.text ++ ": " ++ e.message)

variable {f : Fee} {x : String} {base : Env}

/-- One step of sampling that succeeds: the first value gives its sample or its error, any
failure there being an evaluation error, and sampling the other values succeeds. -/
theorem sample_cons {v : BoundValue} {vs : List BoundValue} {ss : List (BoundValue × Decimal)}
    {es : List String} {σ : Array Event}
    (h : ((sample f x base (v :: vs)).run σ).1 = .ok (ss, es)) :
    (∀ e, feeOutcome f ((x, v.toValue) :: base) = .error e → e.kind = "EvaluationError") ∧
    ∃ ss' es' σ', ((sample f x base vs).run σ').1 = .ok (ss', es') ∧
      ss = [v].filterMap (sampleAt f x base) ++ ss' ∧
      es = [v].filterMap (failureAt f x base) ++ es' := by
  rw [sample, Traced.run_bind, evaluateFee_run] at h
  cases hout : feeOutcome f ((x, v.toValue) :: base) with
  | ok o =>
    simp only [hout] at h
    rw [Traced.run_bind] at h
    split at h
    · cases h
    · rename_i ss' es' hrest
      cases h
      exact ⟨nofun, ss', es', _, hrest, by simp [sampleAt, hout], by simp [failureAt, hout]⟩
  | error e =>
    by_cases hkind : (e.kind == "EvaluationError") = true
    · -- an evaluation error is recorded, and sampling goes on
      simp only [hout, hkind, if_true] at h
      rw [Traced.run_bind] at h
      split at h
      · cases h
      · rename_i ss' es' hrest
        cases h
        refine ⟨fun e' he' => ?_, ss', es', _, hrest, by simp [sampleAt, hout, Except.toOption],
          by simp [failureAt, hout]⟩
        cases he'
        simpa using hkind
    · -- any other failure ends the check
      simp only [hout, hkind, Bool.false_eq_true, if_false] at h
      cases h

/-- Sampling that succeeds gives the samples and the errors of its values, in order, and
meets no failure other than an evaluation error. The induction runs over the values, one step
of sampling at a time. -/
theorem sample_run :
    ∀ {vs : List BoundValue} {ss : List (BoundValue × Decimal)} {es : List String}
      {σ : Array Event}, ((sample f x base vs).run σ).1 = .ok (ss, es) →
      ss = vs.filterMap (sampleAt f x base) ∧ es = vs.filterMap (failureAt f x base) ∧
      ∀ v ∈ vs, ∀ e, feeOutcome f ((x, v.toValue) :: base) = .error e →
        e.kind = "EvaluationError"
  | [], ss, es, σ, h => by
    cases h
    simp
  | v :: vs, ss, es, σ, h => by
    obtain ⟨hkind, ss', es', σ', hrest, rfl, rfl⟩ := sample_cons h
    obtain ⟨rfl, rfl, hkinds⟩ := sample_run hrest
    refine ⟨?_, ?_, List.forall_mem_cons.mpr ⟨hkind, hkinds⟩⟩ <;>
      rw [← List.filterMap_append, List.singleton_append]

/-! ### Violations -/

/-- An amount moves down, against an increasing fee, when it does not follow the one before. -/
theorem increasing_against (a₁ a₂ : Decimal) :
    (compare a₂.extended a₁.extended == .lt) = !decide (Direction.increasing.Follows a₁ a₂) :=
  compare_beq_lt _ _

/-- An amount moves up, against a decreasing fee, when it does not follow the one before. -/
theorem decreasing_against (a₁ a₂ : Decimal) :
    (compare a₂.extended a₁.extended == .gt) = !decide (Direction.decreasing.Follows a₁ a₂) :=
  compare_beq_gt _ _

/-- The violations found among samples are exactly the neighbours whose amounts move against
the direction, compared by value; every amount compared is a number. The induction follows
`violations`, one pair of neighbours at a time. -/
theorem violations_eq {d : Direction} :
    ∀ {ss : List (BoundValue × Decimal)} {vs : List Violation}, violations d ss = .ok vs →
      (∀ pq ∈ ss.zip ss.tail, pq.1.2.isNaN = false ∧ pq.2.2.isNaN = false) ∧
      vs = ((ss.zip ss.tail).filter fun pq => !decide (d.Follows pq.1.2 pq.2.2)).map
        Violation.ofPair
  | [], vs, h => by
    cases h
    simp
  | [_], vs, h => by
    cases h
    simp
  | (v₁, a₁) :: (v₂, a₂) :: rest, vs, h => by
    rw [violations] at h
    obtain ⟨o, ho, h⟩ := bind_eq_ok.mp h
    obtain ⟨ha₂, ha₁, rfl⟩ := Decimal.order_eq_ok_iff.mp ho
    dsimp only at h
    obtain ⟨more, hmore, h⟩ := bind_eq_ok.mp h
    obtain ⟨hnan, rfl⟩ := violations_eq hmore
    cases h
    refine ⟨List.forall_mem_cons.mpr ⟨⟨ha₁, ha₂⟩, hnan⟩, ?_⟩
    simp only [List.tail_cons, List.zip_cons_cons]
    rw [List.filter_cons]
    -- the pair moves against the direction exactly when it does not follow it
    cases d <;> simp only [increasing_against, decreasing_against,
      apply_ite (List.map Violation.ofPair), List.map_cons] <;> rfl

/-- With no violation, every sample's amount follows every earlier one's: neighbours follow
one another, and following is transitive. -/
theorem pairwise_of_violations_nil {d : Direction} {ss : List (BoundValue × Decimal)}
    (h : violations d ss = .ok []) : ss.Pairwise fun p q => d.Follows p.2 q.2 := by
  obtain ⟨-, hnil⟩ := violations_eq h
  have hnext : ∀ pq ∈ ss.zip ss.tail, d.Follows pq.1.2 pq.2.2 := by
    have hnone := List.filter_eq_nil_iff.mp (List.map_eq_nil_iff.mp hnil.symm)
    intro pq hpq
    simpa using hnone pq hpq
  have hchain : (ss.map Prod.snd).IsChain d.Follows :=
    (List.isChain_map Prod.snd).mpr (isChain_of_zip_tail hnext)
  exact List.pairwise_map.mp hchain.pairwise

/-! ### Monotone in the value -/

theorem sampleAt_fst {v : BoundValue} {p : BoundValue × Decimal}
    (h : sampleAt f x base v = some p) : p.1 = v := by
  unfold sampleAt at h
  obtain ⟨o, -, rfl⟩ := Option.map_eq_some_iff.mp h
  rfl

/-- The samples of an increasing domain increase in value. -/
theorem samples_below {values : List BoundValue} (h : values.Pairwise BoundValue.Below) :
    (values.filterMap (sampleAt f x base)).Pairwise fun p q => p.1.Below q.1 :=
  List.pairwise_filterMap.mpr (h.imp fun hvw p hp q hq => by
    rwa [sampleAt_fst hp, sampleAt_fst hq])

/-- Samples in increasing order of their values whose amounts follow one another in order
follow one another by value. The induction runs over the samples. -/
theorem follows_of_below {d : Direction} :
    ∀ {ss : List (BoundValue × Decimal)}, (ss.Pairwise fun p q => p.1.Below q.1) →
      (ss.Pairwise fun p q => d.Follows p.2 q.2) →
      ∀ p ∈ ss, ∀ q ∈ ss, p.1.Below q.1 → d.Follows p.2 q.2
  | [], _, _ => by simp
  | a :: l, hvalues, hamounts => by
    rw [List.pairwise_cons] at hvalues hamounts
    intro p hp q hq hpq
    rcases List.mem_cons.mp hp with rfl | hpl <;> rcases List.mem_cons.mp hq with rfl | hql
    · exact absurd hpq (BoundValue.Below.irrefl _)
    · exact hamounts.1 q hql
    · -- the first sample's value is below every later one's, so not above this one
      exact absurd (hvalues.1 p hpl) hpq.asymm
    · exact follows_of_below hvalues.2 hamounts.2 p hpl q hql hpq

end Monotonicity

/-! ### Reports -/

open Monotonicity

/-- A report is built from the domain of the input, the samples and errors of the fee over
it, and the violations among the samples. -/
theorem Schedule.checkMonotonicity_report {s : Schedule} {f : Fee} {i : Input} {d : Direction}
    {settings : VerifySettings} {r : MonotonicityReport}
    (h : (s.checkMonotonicity f i d settings).run'.1 = .ok r) :
    ∃ values ss es vs σ, i.domain (f.literalBoundaries i.name) settings = .ok values ∧
      ((sample f i.name s.defaultEnv values).run σ).1 = .ok (ss, es) ∧
      violations d ss = .ok vs ∧ r = ⟨f.name, i.name, d, ss, vs, es⟩ := by
  rw [Traced.run'_eq_run, Schedule.checkMonotonicity] at h
  split at h
  · cases h
  · rename_i values hvalues
    rw [Traced.run_bind] at h
    split at h
    · cases h
    · rename_i ss es hsample
      split at h
      · cases h
      · rename_i vs hvs
        cases h
        exact ⟨values, ss, es, vs, _, hvalues, hsample, hvs, rfl⟩

/-- A monotonicity report says what it claims. Its samples are the values of the input's
domain at which the fee evaluates, with its contribution, and its errors one message for each
value at which it fails, in the order of the domain; no failure other than an evaluation error
occurs. Its violations are exactly the neighbouring samples whose amounts move against the
direction, compared by value. The fee is reported monotonic exactly when there is neither, and
then every sample's amount follows every earlier one's. The domain of a number, an amount or a
date input with finite numbers, compared with the finite literals of a fee, strictly
increases, so the contribution is then a monotone function of the value sampled. -/
theorem monotonicity_report_sound {s : Schedule} {f : Fee} {i : Input} {d : Direction}
    {settings : VerifySettings} {r : MonotonicityReport}
    (h : (s.checkMonotonicity f i d settings).run'.1 = .ok r) :
    ∃ values : List BoundValue, i.domain (f.literalBoundaries i.name) settings = .ok values ∧
      r.fee = f.name ∧ r.input = i.name ∧ r.direction = d ∧
      r.samples = values.filterMap (sampleAt f i.name s.defaultEnv) ∧
      r.errors = values.filterMap (failureAt f i.name s.defaultEnv) ∧
      (∀ v ∈ values, ∀ e, feeOutcome f ((i.name, v.toValue) :: s.defaultEnv) = .error e →
        e.kind = "EvaluationError") ∧
      (∀ pq ∈ r.samples.zip r.samples.tail, pq.1.2.isNaN = false ∧ pq.2.2.isNaN = false) ∧
      r.violations = ((r.samples.zip r.samples.tail).filter
        fun pq => !decide (d.Follows pq.1.2 pq.2.2)).map Violation.ofPair ∧
      (r.isMonotonic = true ↔ r.violations = [] ∧ r.errors = []) ∧
      (r.isMonotonic = true → r.samples.Pairwise fun p q => d.Follows p.2 q.2) ∧
      (i.spec.kind ∈ [.number, .amount, .date] → i.spec.numbersFinite = true →
        f.numbersFinite = true → values.Pairwise BoundValue.Below ∧
          (r.isMonotonic = true →
            ∀ p ∈ r.samples, ∀ q ∈ r.samples, p.1.Below q.1 → d.Follows p.2 q.2)) := by
  obtain ⟨values, ss, es, vs, σ, hdomain, hsample, hviolations, rfl⟩ :=
    Schedule.checkMonotonicity_report h
  obtain ⟨rfl, rfl, hkinds⟩ := sample_run hsample
  obtain ⟨hnan, hvs⟩ := violations_eq hviolations
  have hmonotonic : MonotonicityReport.isMonotonic ⟨f.name, i.name, d,
      values.filterMap (sampleAt f i.name s.defaultEnv), vs,
      values.filterMap (failureAt f i.name s.defaultEnv)⟩ = true ↔
      vs = [] ∧ values.filterMap (failureAt f i.name s.defaultEnv) = [] := by
    simp [MonotonicityReport.isMonotonic]
  -- with no violation, the amounts follow one another in the order of the samples
  have hpairwise := fun hm => pairwise_of_violations_nil ((hmonotonic.mp hm).1 ▸ hviolations)
  refine ⟨values, hdomain, rfl, rfl, rfl, rfl, rfl, hkinds, hnan, hvs, hmonotonic, hpairwise,
    fun hkind hspec hfee => ?_⟩
  -- the samples of an ordered domain come in increasing order of their values
  have hbelow := Input.domain_increasing hkind hspec
    (fun _ hd => Fee.literalBoundaries_finite hfee hd) hdomain
  exact ⟨hbelow, fun hm => follows_of_below (samples_below hbelow) (hpairwise hm)⟩

/-- Whether examination is expedited, not unless asked. -/
def expediteInput : Input := ⟨"expedite", "Expedited examination", .boolean false, none⟩

/-- A fee of 100 for expedited examination. -/
def expeditionFee : Fee :=
  ⟨"expedition", [⟨.num (Decimal.ofNat 100), some (.ref "expedite")⟩, ⟨.num Decimal.zero, none⟩],
    [], false, none⟩

/-- A schedule of the expedition fee alone. -/
def expeditionSchedule : Schedule := ⟨[expediteInput], [expeditionFee], [], [], [], none⟩

/-- The expedition fee is checked to increase when examination is expedited. -/
theorem expedition_report_sound :
    ∃ r : MonotonicityReport,
      (expeditionSchedule.checkMonotonicity expeditionFee expediteInput .increasing
        {}).run'.1 = .ok r ∧
      ∃ values : List BoundValue,
        expediteInput.domain (expeditionFee.literalBoundaries "expedite") {} = .ok values ∧
        r.fee = "expedition" ∧ r.input = "expedite" ∧ r.direction = .increasing ∧
        r.samples = values.filterMap (sampleAt expeditionFee "expedite"
          expeditionSchedule.defaultEnv) ∧
        r.errors = values.filterMap (failureAt expeditionFee "expedite"
          expeditionSchedule.defaultEnv) ∧
        (∀ v ∈ values, ∀ e, feeOutcome expeditionFee (("expedite", v.toValue) ::
          expeditionSchedule.defaultEnv) = .error e → e.kind = "EvaluationError") ∧
        (∀ pq ∈ r.samples.zip r.samples.tail, pq.1.2.isNaN = false ∧ pq.2.2.isNaN = false) ∧
        r.violations = ((r.samples.zip r.samples.tail).filter
          fun pq => !decide (Direction.increasing.Follows pq.1.2 pq.2.2)).map Violation.ofPair ∧
        (r.isMonotonic = true ↔ r.violations = [] ∧ r.errors = []) ∧
        (r.isMonotonic = true →
          r.samples.Pairwise fun p q => Direction.increasing.Follows p.2 q.2) ∧
        (expediteInput.spec.kind ∈ [.number, .amount, .date] →
          expediteInput.spec.numbersFinite = true → expeditionFee.numbersFinite = true →
          values.Pairwise BoundValue.Below ∧ (r.isMonotonic = true →
            ∀ p ∈ r.samples, ∀ q ∈ r.samples, p.1.Below q.1 →
              Direction.increasing.Follows p.2 q.2)) :=
  ⟨_, rfl, monotonicity_report_sound rfl⟩

end FeeSchedule
