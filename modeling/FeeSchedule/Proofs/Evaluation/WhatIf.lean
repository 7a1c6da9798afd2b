import FeeSchedule.Proofs.Evaluation.Containment
import FeeSchedule.Proofs.Composition.WellFormed

/-!
# `FeeSchedule.Proofs.Evaluation.WhatIf`: binding, what-if analyses, and contained failures

Binding finite values to the inputs of a checked schedule whose inputs declare finite numbers
never raises a decimal signal: the comparisons with the bounds are between finite numbers. It
fails with the misfits it found, or gives each input a value of its kind (`Bindings.Fit`),
which is an environment the evaluation of the schedule is sound in.

A what-if analysis repeats the binding and the computation for every alternative of every
input (`Input.alternatives`). The alternatives of an input are finite: its bounds, its
default, zero. So each repeated computation fails only as a computation does, and what the
analysis adds itself, the grand totals and their differences, is a finite number or an
overflow.

* `Schedule.bind_contained`: binding finite values gives values that fit the inputs, or a
  failure that is an evaluation error.
* `Input.alternatives_ok`: the alternatives of an input with a finite value are found without
  a signal, and are finite.
* `Schedule.whatIf_contained`: a what-if analysis of fitting values fails only with an
  evaluation error or a raw overflow.
* `accepted_evaluation_contained`: the computation, the audit trail and the what-if analysis
  of an accepted schedule with finite values bound fail, if at all, with an evaluation error
  or a raw overflow. A negated amount of 29 digits rounds up beyond the largest exponent: the
  overflow escapes as it is (`negated_amount_overflows`).
-/

set_option autoImplicit false

namespace FeeSchedule

open Evaluation Assessment

/-! ### Bound values -/

/-- A bound value whose number, if it is one, is finite. -/
def BoundValue.Finite : BoundValue → Prop
  | .number d => d.isFinite
  | _ => True

theorem BoundValue.Finite.toValue {v : BoundValue} (h : v.Finite) : v.toValue.Finite := by
  cases v <;> exact h

/-- A value of a kind is finite: the number kind holds finite numbers only. -/
theorem Value.Fits.finite {v : Value} {k : ValueKind} (h : v.Fits k) : v.Finite := by
  cases h with
  | num hd => exact hd
  | _ => trivial

/-- A bound value that expressions see as a value of the input's kind. -/
def Input.Admits (i : Input) (v : BoundValue) : Prop := v.toValue.Fits i.exprType.kind

theorem Input.Admits.finite {i : Input} {v : BoundValue} (h : i.Admits v) : v.Finite := by
  have hv := Value.Fits.finite h
  cases v <;> exact hv

/-- The default of an input with finite numbers is a value of its kind. -/
theorem Input.defaultValue_admits {i : Input} (hi : i.spec.numbersFinite) :
    i.Admits i.defaultValue := by
  obtain ⟨name, text, spec, group⟩ := i
  cases spec with
  | number lo hi' d =>
    simp only [InputSpec.numbersFinite, Bool.and_eq_true] at hi
    exact .num hi.2
  | amount c d => exact .num hi
  | boolean d => exact .bool d
  | list cs d => exact .sym _
  | multilist cs ds => exact .set _
  | date lo hi' d => exact .date d

/-- A finite value that the check of its input passes is a value of the input's kind: a
value of another kind is reported. -/
theorem Input.checkValue_admits {i : Input} {v : BoundValue} (hv : v.Finite)
    (h : i.checkValue v = .ok none) : i.Admits v := by
  obtain ⟨name, text, spec, group⟩ := i
  cases spec <;> cases v
  all_goals first
    | exact .num hv
    | exact .bool _
    | exact .sym _
    | exact .set _
    | exact .date _
    | simp [Input.checkValue, pure, Except.pure] at h

/-- Checking a finite value against an input with finite bounds raises no signal. -/
theorem Input.checkValue_ok {i : Input} {v : BoundValue} (hi : i.spec.numbersFinite)
    (hv : v.Finite) : ∃ p, i.checkValue v = .ok p := by
  obtain ⟨name, text, spec, group⟩ := i
  cases spec <;> cases v
  case number.number lo hi' d x =>
    simp only [InputSpec.numbersFinite, Bool.and_eq_true] at hi
    -- both comparisons with the bounds are between finite numbers
    simp only [Input.checkValue, Decimal.order_of_isFinite hi.1.1 hv,
      Decimal.order_of_isFinite hv hi.1.2, ok_bind]
    split
    · exact ⟨_, rfl⟩
    · rw [pure_bind]
      split <;> exact ⟨_, rfl⟩
  all_goals
    simp only [Input.checkValue]
    repeat' split
    all_goals exact ⟨_, rfl⟩

/-! ### Binding -/

/-- Values that fit a list of inputs: one per input, in input order, under the input's name
and of its kind. -/
def Bindings.Fit (b : Bindings) (is : List Input) : Prop :=
  List.Forall₂ (fun i p => p.1 = i.name ∧ i.Admits p.2) is b

namespace Bindings

variable {b : Bindings}

theorem env_finite (h : ∀ p ∈ b, p.2.Finite) : b.env.Finite := by
  intro p hp
  obtain ⟨q, hq, rfl⟩ := List.mem_map.mp hp
  exact (h q hq).toValue

theorem Fit.finite {is : List Input} (h : b.Fit is) : ∀ p ∈ b, p.2.Finite := by
  induction h with
  | nil => exact fun p hp => by cases hp
  | cons hp _ ih =>
    intro q hq
    rcases List.mem_cons.mp hq with rfl | hq
    · exact hp.2.finite
    · exact ih q hq

/-- Under distinct names, the value of an input is the one bound in its place, when values
are bound one per input under its name. -/
theorem lookup_of_forall₂ {R : Input → BoundValue → Prop} {is : List Input}
    (h : List.Forall₂ (fun i p => p.1 = i.name ∧ R i p.2) is b)
    (hnodup : (is.map (·.name)).Nodup) {i : Input} (hi : i ∈ is) :
    ∃ v, b.lookup i.name = some v ∧ R i v := by
  induction h with
  | nil => cases hi
  | @cons j p is ps hjp _ ih =>
    obtain ⟨n, v⟩ := p
    obtain ⟨rfl, hv⟩ := hjp
    simp only [List.map_cons, List.nodup_cons, List.mem_map] at hnodup
    rcases List.mem_cons.mp hi with rfl | hi
    · exact ⟨v, by simp, hv⟩
    · -- a later input has another name than the first
      have hne : (i.name == j.name) = false := by
        simpa using fun heq => hnodup.1 ⟨i, hi, heq⟩
      simpa [List.lookup_cons, hne] using ih hnodup.2 hi

/-- Under distinct names, the value of an input is the one bound in its place. -/
theorem Fit.lookup {is : List Input} (h : b.Fit is) (hnodup : (is.map (·.name)).Nodup)
    {i : Input} (hi : i ∈ is) : ∃ v, b.lookup i.name = some v ∧ i.Admits v :=
  lookup_of_forall₂ h hnodup hi

theorem Fit.fitsInputs {is : List Input} (h : b.Fit is) (hnodup : (is.map (·.name)).Nodup) :
    b.env.FitsInputs is := by
  intro i hi
  obtain ⟨v, hv, hfit⟩ := h.lookup hnodup hi
  exact ⟨v.toValue, by simp [lookup_env, hv], hfit⟩

end Bindings

namespace Schedule

variable {supplied : List (String × BoundValue)}

/-- Binding finite values to inputs with finite numbers raises no signal. -/
theorem bindInputs_ok (hsup : ∀ p ∈ supplied, p.2.Finite) :
    ∀ {is : List Input}, (∀ i ∈ is, i.spec.numbersFinite) → ∃ r, bindInputs supplied is = .ok r
  | [], _ => ⟨_, rfl⟩
  | i :: is, hin => by
    have hi := hin i List.mem_cons_self
    obtain ⟨r, hr⟩ := bindInputs_ok hsup fun j hj => hin j (List.mem_cons_of_mem _ hj)
    obtain ⟨rest, problems⟩ := r
    rw [bindInputs]
    -- the value of `i`: its default, or the supplied one, which is checked without a signal
    split
    · simp only [pure_bind, hr, ok_bind]
      exact ⟨_, rfl⟩
    · rename_i v hv
      have hfin : v.Finite := of_lookup_eq_some hsup hv
      obtain ⟨p, hp⟩ := i.checkValue_ok hi hfin
      simp only [hp, ok_bind, pure_bind, hr]
      exact ⟨_, rfl⟩

/-- Binding without misfits gives values that fit the inputs. -/
theorem bindInputs_fit (hsup : ∀ p ∈ supplied, p.2.Finite) :
    ∀ {is : List Input} {b : Bindings} {problems : List String},
      (∀ i ∈ is, i.spec.numbersFinite) → bindInputs supplied is = .ok (b, problems) →
        problems = [] → b.Fit is
  | [], _, _, _, h, _ => by
    cases h
    exact .nil
  | i :: is, b, problems, hin, h, hnil => by
    have hi := hin i List.mem_cons_self
    -- the rest is bound as it fits, and `i` gets a value of its kind when it has no problem
    have htail : ∀ (v : BoundValue) (problem : Option String),
        (bindInputs supplied is >>= fun x => pure ((i.name, v) :: x.1, problem.toList ++ x.2)) =
          .ok (b, problems) → (problem = none → i.Admits v) → b.Fit (i :: is) := by
      intro v problem hb hadmits
      obtain ⟨⟨rest, ps⟩, hr, hb⟩ := bind_eq_ok.mp hb
      simp only [pure, Except.pure, Except.ok.injEq, Prod.mk.injEq] at hb
      obtain ⟨rfl, rfl⟩ := hb
      simp only [List.append_eq_nil_iff, Option.toList_eq_nil_iff] at hnil
      exact .cons ⟨rfl, hadmits hnil.1⟩
        (bindInputs_fit hsup (fun j hj => hin j (List.mem_cons_of_mem _ hj)) hr hnil.2)
    rw [bindInputs] at h
    split at h
    · rw [pure_bind] at h
      exact htail _ _ h fun _ => i.defaultValue_admits hi
    · rename_i w hw
      have hfin : w.Finite := of_lookup_eq_some hsup hw
      obtain ⟨p, hp, h⟩ := bind_eq_ok.mp h
      rw [pure_bind] at h
      exact htail _ _ h fun hnone => i.checkValue_admits hfin (hnone ▸ hp)

variable (s : Schedule) (supplied) (σ : Array Event)

/-- The value of a binding: the bound values, or the misfits, or the signal of a comparison. -/
theorem bind_run : ((s.bind supplied).run σ).1 =
    match bindInputs supplied s.inputs with
    | .error sig => .error (.signal sig)
    | .ok (b, []) => .ok b
    | .ok (_, problems) => .error (.misfits problems) := by
  rw [Schedule.bind, Traced.run_bind]
  rcases bindInputs supplied s.inputs with sig | ⟨b, _ | ⟨p, ps⟩⟩ <;> rfl

end Schedule

/-! ### Evaluable schedules -/

/-- What evaluating a schedule needs of the schedule itself: it is checked, and the numbers of
its declarations and of its inputs are finite. Every accepted schedule is evaluable. -/
structure Schedule.Evaluable (s : Schedule) : Prop where
  checked : s.Checked
  numbersFinite : s.numbersFinite
  inputsFinite : s.inputsFinite

theorem Schedule.Accepted.evaluable {s : Schedule} (h : s.Accepted) : s.Evaluable :=
  ⟨h.checked, h.numbersFinite, h.inputsFinite⟩

theorem Schedule.Evaluable.inputFinite {s : Schedule} (h : s.Evaluable) {i : Input}
    (hi : i ∈ s.inputs) : i.spec.numbersFinite := by
  have hall := h.inputsFinite
  simp only [Schedule.inputsFinite, List.all_eq_true] at hall
  exact hall i hi

/-- Values that fit the inputs of an evaluable schedule make an environment it can be
evaluated in: its checked inputs have distinct names. -/
theorem Bindings.Fit.evaluableIn {s : Schedule} {b : Bindings} (hb : b.Fit s.inputs)
    (hs : s.Evaluable) : s.EvaluableIn b.env :=
  ⟨hs.checked, hs.numbersFinite, hb.fitsInputs hs.checked.distinctNames.inputs,
    Bindings.env_finite hb.finite⟩

/-- Binding finite values to an evaluable schedule gives values that fit its inputs, or the
misfits found, an evaluation error. -/
theorem Schedule.bind_contained {s : Schedule} (hs : s.Evaluable)
    {supplied : List (String × BoundValue)} (hsup : ∀ p ∈ supplied, p.2.Finite)
    (σ : Array Event) :
    Within EvalFault.Contained (·.Fit s.inputs) ((s.bind supplied).run σ).1 := by
  have hin : ∀ i ∈ s.inputs, i.spec.numbersFinite := fun _ hi => hs.inputFinite hi
  obtain ⟨⟨b, problems⟩, hr⟩ := bindInputs_ok hsup hin
  rw [bind_run, hr]
  cases problems with
  | nil => exact bindInputs_fit hsup hin hr rfl
  | cons p ps => exact .inl rfl

/-! ### Traced results -/

section Traced

variable {α β : Type} {Q : EvalFault → Prop} {P : α → Prop} {R : β → Prop}

theorem Within.of_ok {r : Except EvalFault α} {a : α} (h : Within Q P r) (hr : r = .ok a) :
    P a := by
  subst hr
  exact h

theorem Within.of_error {r : Except EvalFault α} {e : EvalFault} (h : Within Q P r)
    (hr : r = .error e) : Q e := by
  subst hr
  exact h

/-- A traced computation whose value, after any events noted before it, is a value
satisfying `P` or a failure satisfying `Q`. -/
def TracedWithin (Q : EvalFault → Prop) (P : α → Prop) (m : Traced (Except EvalFault α)) :
    Prop :=
  ∀ σ, Within Q P (m.run σ).1

/-- A traced computation that goes on from the result of its first part. -/
theorem TracedWithin.bind {m : Traced (Except EvalFault α)}
    {g : Except EvalFault α → Traced (Except EvalFault β)} (hm : TracedWithin Q P m)
    (herr : ∀ e, Q e → TracedWithin Q R (g (.error e)))
    (hok : ∀ a, P a → TracedWithin Q R (g (.ok a))) : TracedWithin Q R (m >>= g) := by
  intro σ
  rw [Traced.run_bind]
  have h := hm σ
  cases hr : (m.run σ).1 with
  | error e =>
    rw [hr] at h
    exact herr e h _
  | ok a =>
    rw [hr] at h
    exact hok a h _

/-- A failure passed on as it is. -/
theorem TracedWithin.error {e : EvalFault} (he : Q e) :
    TracedWithin Q P (pure (.error e) : Traced (Except EvalFault α)) :=
  fun _ => he

end Traced

/-! ### Alternatives -/

/-- A fold whose every step succeeds and keeps an invariant succeeds with it. -/
theorem foldlM_ok {ε α β : Type} {f : β → α → Except ε β} {I : β → Prop} :
    ∀ {xs : List α} {acc : β}, (∀ acc x, I acc → x ∈ xs → ∃ acc', f acc x = .ok acc' ∧ I acc') →
      I acc → ∃ r, xs.foldlM f acc = .ok r ∧ I r
  | [], acc, _, hacc => ⟨acc, rfl, hacc⟩
  | x :: xs, acc, hstep, hacc => by
    obtain ⟨acc', hf, hacc'⟩ := hstep acc x hacc List.mem_cons_self
    rw [List.foldlM_cons, hf, ok_bind]
    exact foldlM_ok (fun a y ha hy => hstep a y ha (List.mem_cons_of_mem _ hy)) hacc'

/-- Finite bound values are compared without a signal. -/
theorem BoundValue.same_ok {a b : BoundValue} (ha : a.Finite) (hb : b.Finite) :
    ∃ x, a.same b = .ok x := by
  cases a <;> cases b
  case number.number x y => exact ⟨_, Decimal.equals_of_isFinite ha hb⟩
  all_goals exact ⟨_, rfl⟩

theorem sameAsAny_ok {v : BoundValue} (hv : v.Finite) :
    ∀ {ws : List BoundValue}, (∀ w ∈ ws, w.Finite) → ∃ x, sameAsAny v ws = .ok x
  | [], _ => ⟨_, rfl⟩
  | w :: ws, hws => by
    obtain ⟨x, hx⟩ := BoundValue.same_ok hv (hws w List.mem_cons_self)
    rw [sameAsAny, hx, ok_bind]
    cases x
    · exact sameAsAny_ok hv fun u hu => hws u (List.mem_cons_of_mem _ hu)
    · exact ⟨_, rfl⟩

/-- The candidates of an input with finite numbers are finite: its bounds, its default and
zero are the only numbers among them. -/
theorem Input.candidates_finite {i : Input} (hi : i.spec.numbersFinite) (current : BoundValue) :
    ∀ c ∈ i.candidates current, c.Finite := by
  obtain ⟨name, text, spec, group⟩ := i
  intro c hc
  cases spec with
  | number lo hi' d =>
    simp only [InputSpec.numbersFinite, Bool.and_eq_true] at hi
    simp only [Input.candidates, List.mem_cons, List.not_mem_nil, or_false] at hc
    rcases hc with rfl | rfl | rfl
    · exact hi.1.1
    · exact hi.1.2
    · exact hi.2
  | amount cur d =>
    simp only [Input.candidates, List.mem_cons, List.not_mem_nil, or_false] at hc
    rcases hc with rfl | rfl
    · exact Decimal.zero_isFinite
    · exact hi
  | boolean d =>
    cases current <;> simp only [Input.candidates, List.mem_cons, List.not_mem_nil, or_false] at hc
    subst hc
    trivial
  | list cs d =>
    simp only [Input.candidates, List.mem_map] at hc
    obtain ⟨_, _, rfl⟩ := hc
    trivial
  | multilist cs ds =>
    cases current <;> simp only [Input.candidates, List.mem_map, List.not_mem_nil] at hc
    obtain ⟨_, _, rfl⟩ := hc
    trivial
  | date lo hi' d =>
    simp only [Input.candidates, List.mem_cons, List.not_mem_nil, or_false] at hc
    rcases hc with rfl | rfl | rfl <;> trivial

/-- The alternatives of an input with finite numbers to a finite value are found without a
signal, and are finite. -/
theorem Input.alternatives_ok {i : Input} (hi : i.spec.numbersFinite) {current : BoundValue}
    (hcur : current.Finite) : ∃ alts, i.alternatives current = .ok alts ∧ ∀ a ∈ alts, a.Finite := by
  unfold Input.alternatives
  refine foldlM_ok (fun kept c hkept hc => ?_) fun a ha => by cases ha
  have hcf := i.candidates_finite hi current c hc
  obtain ⟨x, hx⟩ := BoundValue.same_ok hcf hcur
  obtain ⟨y, hy⟩ := sameAsAny_ok hcf hkept
  -- a candidate is kept unless it is the current value or one kept already
  simp only [hx, hy, ok_bind]
  cases x
  · cases y
    · refine ⟨_, rfl, fun a ha => ?_⟩
      rcases List.mem_append.mp ha with ha | ha
      · exact hkept a ha
      · rw [List.mem_singleton.mp ha]
        exact hcf
    · exact ⟨_, rfl, hkept⟩
  · exact ⟨_, rfl, hkept⟩

/-! ### What-if analyses -/

theorem Bindings.replace_finite {b : Bindings} (hb : ∀ p ∈ b, p.2.Finite) {name : String}
    {v : BoundValue} (hv : v.Finite) : ∀ p ∈ b.replace name v, p.2.Finite := by
  intro p hp
  obtain ⟨⟨n, w⟩, hq, rfl⟩ := List.mem_map.mp hp
  dsimp only
  split
  · exact hv
  · exact hb (n, w) hq

namespace Assessment

variable {s : Schedule} (hs : s.Evaluable) {b : Bindings} (hb : ∀ p ∈ b, p.2.Finite)
include hs hb

/-- The grand total with one input changed to a finite value: a finite number, or a failure
of the binding or the computation, or an overflow of the sum. -/
theorem alternativeTotal_contained {name : String} {alt : BoundValue} (halt : alt.Finite) :
    TracedWithin EvalFault.Contained (·.isFinite) (alternativeTotal s b name alt) := by
  unfold alternativeTotal
  dsimp only
  refine TracedWithin.bind (Schedule.bind_contained hs (Bindings.replace_finite hb halt))
    (fun _ he => TracedWithin.error he) fun b' hb' => ?_
  refine TracedWithin.bind (Schedule.compute_contained (hb'.evaluableIn hs))
    (fun _ he => TracedWithin.error he) fun r hr => ?_
  intro σ
  exact (Within.raw_fitted (Decimal.add_fitted hr.1 hr.2)).mono (fun _ h => .inr h) fun _ h => h

theorem counterfactualsOf_contained {actual : Decimal} (hactual : actual.isFinite)
    {name : String} {current : BoundValue} :
    ∀ {alts : List BoundValue}, (∀ a ∈ alts, a.Finite) →
      TracedWithin EvalFault.Contained (fun _ => True)
        (counterfactualsOf s b actual name current alts)
  | [], _ => fun _ => trivial
  | alt :: alts, halts => by
    rw [counterfactualsOf]
    refine TracedWithin.bind (alternativeTotal_contained hs hb (halts alt List.mem_cons_self))
      (fun _ he => TracedWithin.error he) fun total htotal => ?_
    -- the difference from the actual grand total is a finite number or an overflow
    have hdiff := Decimal.sub_fitted htotal hactual
    dsimp only
    split
    · rename_i sig hsig
      rw [hsig] at hdiff
      exact TracedWithin.error (.inr (congrArg EvalFault.signal hdiff))
    · exact TracedWithin.bind
        (counterfactualsOf_contained hactual fun a ha => halts a (List.mem_cons_of_mem _ ha))
        (fun _ he => TracedWithin.error he) fun _ _ _ => trivial

theorem counterfactuals_contained {actual : Decimal} (hactual : actual.isFinite) :
    ∀ {is : List Input}, (∀ i ∈ is, i.spec.numbersFinite) →
      TracedWithin EvalFault.Contained (fun _ => True) (counterfactuals s b actual is)
  | [], _ => fun _ => trivial
  | i :: is, hin => by
    have hi := hin i List.mem_cons_self
    -- the current value of the input: the bound one, or its default
    have hcur : ((b.lookup i.name).getD i.defaultValue).Finite := by
      cases hl : b.lookup i.name with
      | none => exact (i.defaultValue_admits hi).finite
      | some v => exact of_lookup_eq_some hb hl
    obtain ⟨alts, halts, hfin⟩ := i.alternatives_ok hi hcur
    rw [counterfactuals]
    simp only [halts]
    refine TracedWithin.bind (counterfactualsOf_contained hs hb hactual hfin)
      (fun _ he => TracedWithin.error he) fun _ _ => ?_
    exact TracedWithin.bind
      (counterfactuals_contained hactual fun j hj => hin j (List.mem_cons_of_mem _ hj))
      (fun _ he => TracedWithin.error he) fun _ _ _ => trivial

end Assessment

/-- A what-if analysis of values that fit the inputs of an evaluable schedule fails only with
an evaluation error or a raw overflow. -/
theorem Schedule.whatIf_contained {s : Schedule} (hs : s.Evaluable) {b : Bindings}
    (hb : b.Fit s.inputs) : TracedWithin EvalFault.Contained (fun _ => True) (s.whatIf b) := by
  unfold Schedule.whatIf
  refine TracedWithin.bind (Schedule.trace_contained (hb.evaluableIn hs))
    (fun _ he => TracedWithin.error he) fun p hp => ?_
  -- the grand total of finite totals is a finite number or an overflow
  have hgrand : Decimal.Fitted p.grandTotal := Decimal.add_fitted hp.1 hp.2
  dsimp only
  split
  · rename_i sig hsig
    rw [hsig] at hgrand
    exact TracedWithin.error (.inr (congrArg EvalFault.signal hgrand))
  · rename_i actual hactual
    rw [hactual] at hgrand
    exact TracedWithin.bind (counterfactuals_contained hs hb.finite hgrand
      fun _ hi => hs.inputFinite hi) (fun _ he => TracedWithin.error he) fun _ _ _ => trivial

/-! ### Accepted schedules -/

/-- Failures are contained. An accepted schedule with finite values bound computes, traces
and analyses what-if totals with no failure but an evaluation error or a raw overflow: no
other decimal signal escapes, and neither does any other failure. -/
theorem accepted_evaluation_contained {s : Schedule} (hs : s.Accepted)
    {supplied : List (String × BoundValue)} (hsup : ∀ p ∈ supplied, p.2.Finite) {b : Bindings}
    (hb : (s.bind supplied).run'.1 = .ok b) :
    (∀ e, (s.compute b).run'.1 = .error e → e.Contained) ∧
      (∀ e, (s.trace b).run'.1 = .error e → e.Contained) ∧
      ∀ e, (s.whatIf b).run'.1 = .error e → e.Contained := by
  have he := hs.evaluable
  -- the bound values fit the inputs, so the schedule can be evaluated in them
  have hfit : b.Fit s.inputs := (Schedule.bind_contained he hsup #[]).of_ok hb
  have hin := hfit.evaluableIn he
  refine ⟨fun e h => ?_, fun e h => ?_, fun e h => ?_⟩
  · exact (Schedule.compute_contained hin #[]).of_error h
  · exact (Schedule.trace_contained hin #[]).of_error h
  · exact (Schedule.whatIf_contained he hfit #[]).of_error h

/-- A schedule that negates an amount, read from its text, with the amount 5 bound: the text
is accepted and the value binds, so the failures of its evaluation are contained. -/
theorem negated_amount_evaluation_contained :
    ∃ r s b, (Schedule.parse (CodePoint.ofString
        "INPUT a AMOUNT 'a' CURRENCY EUR ENDINPUT\nFEE f YIELD -a ENDFEE")).run'.1 = .ok r ∧
      r.isValid ∧ r.schedule = some s ∧
      (s.bind [("a", .number (Decimal.ofNat 5))]).run'.1 = .ok b ∧
      (∀ e, (s.compute b).run'.1 = .error e → e.Contained) ∧
      (∀ e, (s.trace b).run'.1 = .error e → e.Contained) ∧
      ∀ e, (s.whatIf b).run'.1 = .error e → e.Contained := by
  -- the text reads without errors, and the amount binds
  have hread : ((Schedule.parse (CodePoint.ofString
      "INPUT a AMOUNT 'a' CURRENCY EUR ENDINPUT\nFEE f YIELD -a ENDFEE")).run'.1.toOption.any
      fun r => r.isValid && r.schedule.any fun s =>
        ((s.bind [("a", .number (Decimal.ofNat 5))]).run'.1.toOption.isSome)) = true := by
    decide +kernel
  have hsup : ∀ p ∈ [("a", BoundValue.number (Decimal.ofNat 5))], p.2.Finite := by
    intro p hp
    rw [List.mem_singleton.mp hp]
    rfl
  cases hp : (Schedule.parse (CodePoint.ofString
      "INPUT a AMOUNT 'a' CURRENCY EUR ENDINPUT\nFEE f YIELD -a ENDFEE")).run'.1 with
  | error e =>
    rw [hp] at hread
    cases hread
  | ok r =>
    rw [hp] at hread
    simp only [Except.toOption, Option.any_some, Bool.and_eq_true] at hread
    obtain ⟨hv, hread⟩ := hread
    cases hs : r.schedule with
    | none =>
      rw [hs] at hread
      cases hread
    | some s =>
      rw [hs, Option.any_some] at hread
      cases hb : (s.bind [("a", .number (Decimal.ofNat 5))]).run'.1 with
      | error e =>
        rw [hb] at hread
        cases hread
      | ok b =>
        exact ⟨r, s, b, rfl, hv, hs, hb, accepted_evaluation_contained (.parsed hp hv hs) hsup hb⟩

/-- A failed result whose kind, read off as an option, is `k`. -/
theorem exists_error_of_kind {α : Type} {x : Except EvalFault α} {k : String}
    (h : ((x.map fun _ => none).tryCatch fun e => .ok (some e.kind)).toOption = some (some k)) :
    ∃ e, x = .error e ∧ e.kind = k := by
  cases x <;> simp_all [Except.map, Except.tryCatch, Except.toOption]

/-- A raw overflow does escape. An amount of 29 nines with exponent 999971 is finite and
binds, but its negation is rounded to 28 digits, which carries it to 1.000E+1000000, beyond
the largest exponent: computing, tracing and analysing the schedule all fail with the
overflow itself, not with an evaluation error. -/
theorem negated_amount_overflows :
    ∃ r s b, (Schedule.parse (CodePoint.ofString
        "INPUT a AMOUNT 'a' CURRENCY EUR ENDINPUT\nFEE f YIELD -a ENDFEE")).run'.1 = .ok r ∧
      r.isValid ∧ r.schedule = some s ∧
      (s.bind [("a", .number (.finite false 99999999999999999999999999999 999971))]).run'.1 =
        .ok b ∧
      (∃ e, (s.compute b).run'.1 = .error e ∧ e.kind = "Overflow") ∧
      (∃ e, (s.trace b).run'.1 = .error e ∧ e.kind = "Overflow") ∧
      ∃ e, (s.whatIf b).run'.1 = .error e ∧ e.kind = "Overflow" := by
  have hrun : ((Schedule.parse (CodePoint.ofString
      "INPUT a AMOUNT 'a' CURRENCY EUR ENDINPUT\nFEE f YIELD -a ENDFEE")).run'.1.toOption.any
      fun r => r.isValid && r.schedule.any fun s =>
        (s.bind [("a", .number (.finite false 99999999999999999999999999999 999971))]).run'.1.toOption.any
          fun b =>
            (((s.compute b).run'.1.map fun _ => none).tryCatch fun e => .ok (some e.kind)).toOption ==
              some (some "Overflow") &&
            (((s.trace b).run'.1.map fun _ => none).tryCatch fun e => .ok (some e.kind)).toOption ==
              some (some "Overflow") &&
            (((s.whatIf b).run'.1.map fun _ => none).tryCatch fun e => .ok (some e.kind)).toOption ==
              some (some "Overflow")) = true := by
    decide +kernel
  cases hp : (Schedule.parse (CodePoint.ofString
      "INPUT a AMOUNT 'a' CURRENCY EUR ENDINPUT\nFEE f YIELD -a ENDFEE")).run'.1 with
  | error e =>
    rw [hp] at hrun
    cases hrun
  | ok r =>
    rw [hp] at hrun
    simp only [Except.toOption, Option.any_some, Bool.and_eq_true] at hrun
    obtain ⟨hv, hrun⟩ := hrun
    cases hs : r.schedule with
    | none =>
      rw [hs] at hrun
      cases hrun
    | some s =>
      rw [hs, Option.any_some] at hrun
      cases hb : (s.bind
          [("a", .number (.finite false 99999999999999999999999999999 999971))]).run'.1 with
      | error e =>
        rw [hb] at hrun
        cases hrun
      | ok b =>
        rw [hb] at hrun
        simp only [Option.any_some, Bool.and_eq_true, beq_iff_eq] at hrun
        obtain ⟨⟨hcompute, htrace⟩, hwhatIf⟩ := hrun
        exact ⟨r, s, b, rfl, hv, hs, hb, exists_error_of_kind hcompute,
          exists_error_of_kind htrace, exists_error_of_kind hwhatIf⟩

end FeeSchedule
