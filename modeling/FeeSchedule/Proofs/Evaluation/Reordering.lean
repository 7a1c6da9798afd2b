import FeeSchedule.Proofs.Evaluation.Counterfactuals

/-!
# `FeeSchedule.Proofs.Evaluation.Reordering`: the order of a selection does not matter

A selection is given as a list of symbols, but everything that reads it reads a set:
expressions see the sorted set of its symbols (`BoundValue.toValue`), the check of a value
counts its distinct symbols and looks for unknown ones, the alternatives of an input toggle
its choices by membership and compare values as sets (`BoundValue.same`).

* `BoundValue.Reordered`, `Bindings.Reordered`: values that differ at most in the order of
  the symbols of their selections.
* `Except.Matched R x y`: two results that fail together, or succeed with values related by
  `R`; it is kept by `bind` and by `List.mapM`.
* `Schedule.compute_reordered`: reordered bindings compute the same result, or the same
  fault. `Schedule.trace_reordered`: their audit trails differ only in the inputs shown.
* `Schedule.bind_reordered`: binding reordered values again fails together, or gives
  reordered bindings.
* `selection_order_irrelevant`: with reordered bindings, the computation is the same, the
  audit trail is the same but for the inputs, and the what-if analyses fail together or
  report the same alternatives, totals and differences, only the given value of an input
  shown in its own order (`Provenance.Reordered`).

The analyses can fail with different faults: bindings that name unknown choices of a
selection fail to bind again, and the misfit lists the unknown choices in the order given.
-/

set_option autoImplicit false

namespace FeeSchedule

open Traced Evaluation Assessment

/-! ### Values that differ in order -/

/-- Two bound values that are equal, or selections of the same symbols in another order. -/
inductive BoundValue.Reordered : BoundValue → BoundValue → Prop
  | refl (v : BoundValue) : BoundValue.Reordered v v
  | selection {ss ss' : List (List CodePoint)} :
      ss.Perm ss' → BoundValue.Reordered (.selection ss) (.selection ss')

/-- Bindings of the same names, in the same order, to values that differ at most in the
order of their selections. -/
def Bindings.Reordered (b b' : Bindings) : Prop :=
  List.Forall₂ (fun p q => p.1 = q.1 ∧ p.2.Reordered q.2) b b'

/-- Two counterfactuals that differ at most in the order of the given selection. -/
structure Counterfactual.Reordered (c c' : Counterfactual) : Prop where
  input : c'.input = c.input
  given : c.given.Reordered c'.given
  alternative : c'.alternative = c.alternative
  total : c'.total = c.total
  difference : c'.difference = c.difference

/-- The audit trail `P'` of the bindings `b'` against a trail `P` of bindings reordered to
`b'`: the same totals and fee trails, the inputs `b'`, and counterfactuals that differ at most
in the order of a given selection. -/
structure Provenance.Reordered (b' : Bindings) (P P' : Provenance) : Prop where
  mandatory : P'.mandatory = P.mandatory
  optional : P'.optional = P.optional
  fees : P'.fees = P.fees
  inputs : P'.inputs = b'
  counterfactuals : List.Forall₂ Counterfactual.Reordered P.counterfactuals P'.counterfactuals

/-! ### Results that fail together -/

/-- Two results that both fail, with any faults, or both succeed with values related by
`R`. -/
def Except.Matched {ε α β : Type} (R : α → β → Prop) : Except ε α → Except ε β → Prop
  | .error _, .error _ => True
  | .ok a, .ok b => R a b
  | _, _ => False

namespace Except.Matched

variable {ε α β γ δ : Type} {R : α → β → Prop} {S : γ → δ → Prop}

theorem of_eq {x : Except ε α} {R : α → α → Prop} (hR : ∀ a, R a a) : Except.Matched R x x := by
  cases x with
  | error e => trivial
  | ok a => exact hR a

/-- Continuations that take related values to matched results keep results matched. -/
theorem bind {x : Except ε α} {y : Except ε β} {f : α → Except ε γ} {g : β → Except ε δ}
    (h : Except.Matched R x y) (hf : ∀ a b, R a b → Except.Matched S (f a) (g b)) :
    Except.Matched S (x >>= f) (y >>= g) := by
  cases x with
  | error e =>
    cases y with
    | error e' => trivial
    | ok _ => cases h
  | ok a =>
    cases y with
    | error _ => cases h
    | ok b => exact hf a b h

/-- Traversals whose steps match on every element give matched lists. -/
theorem mapM {f : γ → Except ε α} {g : γ → Except ε β} :
    ∀ {xs : List γ}, (∀ x ∈ xs, Except.Matched R (f x) (g x)) →
      Except.Matched (List.Forall₂ R) (xs.mapM f) (xs.mapM g)
  | [], _ => List.Forall₂.nil
  | x :: xs, h => by
    rw [List.mapM_cons, List.mapM_cons]
    exact (h x List.mem_cons_self).bind fun a b hab =>
      (mapM fun y hy => h y (List.mem_cons_of_mem x hy)).bind fun as bs habs =>
        List.Forall₂.cons hab habs

end Except.Matched

/-! ### Reading a reordered value -/

namespace BoundValue.Reordered

variable {v w : BoundValue}

/-- Expressions see the same value. -/
theorem toValue (h : v.Reordered w) : v.toValue = w.toValue := by
  cases h with
  | refl => rfl
  | selection hperm => exact congrArg Value.set (symbolSet_eq_iff.mpr fun _ => hperm.mem_iff)

/-- A value is the same as one of two reordered values exactly when it is the same as the
other. -/
theorem same_eq (h : v.Reordered w) (c : BoundValue) : c.same v = c.same w := by
  cases h with
  | refl => rfl
  | selection hperm =>
    have hset := symbolSet_eq_iff.mpr fun _ => hperm.mem_iff
    cases c <;> first | rfl | simp [BoundValue.same, hset]

/-- An input is tried with the same candidates: a selection toggles each choice by
membership. -/
theorem candidates_eq (h : v.Reordered w) (i : Input) : i.candidates v = i.candidates w := by
  cases h with
  | refl => rfl
  | selection hperm =>
    unfold Input.candidates
    cases i.spec <;> simp [toggle, hperm.mem_iff]

/-- An input has the same alternatives from reordered values. -/
theorem alternatives_eq (h : v.Reordered w) (i : Input) : i.alternatives v = i.alternatives w := by
  simp only [Input.alternatives, h.candidates_eq i, h.same_eq]

/-- The check of an input finds a problem in both reordered values or in neither: the number
of distinct symbols and the set of unknown ones do not depend on the order. -/
theorem checkValue (h : v.Reordered w) (i : Input) :
    Except.Matched (fun p q => p.isSome = q.isSome) (i.checkValue v) (i.checkValue w) := by
  cases h with
  | refl => exact Except.Matched.of_eq fun _ => rfl
  | @selection ss ss' hperm =>
    have hset : symbolSet ss = symbolSet ss' := symbolSet_eq_iff.mpr fun _ => hperm.mem_iff
    have hunknown : ∀ p, (ss.filter p).isEmpty = (ss'.filter p).isEmpty :=
      fun p => (hperm.filter p).isEmpty_eq
    unfold Input.checkValue
    cases i.spec <;> simp only [hset, hperm.length_eq, hunknown] <;>
      first | exact rfl | (split_ifs <;> exact rfl)

end BoundValue.Reordered

namespace Bindings.Reordered

variable {b b' : Bindings}

/-- Expressions see the same environment. -/
theorem env (h : b.Reordered b') : b.env = b'.env := by
  induction h with
  | nil => rfl
  | @cons p q ps qs hpq _ ih =>
    obtain ⟨n, v⟩ := p
    obtain ⟨m, w⟩ := q
    obtain ⟨rfl, hvw⟩ := hpq
    simp only [Bindings.env, List.map_cons] at ih ⊢
    rw [ih, hvw.toValue]

/-- A name is bound in both or in neither, to reordered values. -/
theorem lookup (h : b.Reordered b') (n : String) :
    Option.Rel BoundValue.Reordered (b.lookup n) (b'.lookup n) := by
  induction h with
  | nil => exact .none
  | @cons p q ps qs hpq _ ih =>
    obtain ⟨m, v⟩ := p
    obtain ⟨m', w⟩ := q
    obtain ⟨rfl, hvw⟩ := hpq
    simp only [List.lookup_cons]
    split
    · exact .some hvw
    · exact ih

/-- The current value of an input, the bound one or else the default, is reordered. -/
theorem current (h : b.Reordered b') (n : String) (d : BoundValue) :
    ((b.lookup n).getD d).Reordered ((b'.lookup n).getD d) := by
  have hl := h.lookup n
  revert hl
  generalize b.lookup n = o
  generalize b'.lookup n = o'
  intro hl
  cases hl with
  | none => exact .refl d
  | some hvw => exact hvw

/-- Changing one value alike in both keeps bindings reordered. -/
theorem replace (h : b.Reordered b') (n : String) (alt : BoundValue) :
    (b.replace n alt).Reordered (b'.replace n alt) := by
  unfold Bindings.Reordered Bindings.replace
  rw [List.forall₂_map_left_iff, List.forall₂_map_right_iff]
  refine h.imp fun p q hpq => ?_
  obtain ⟨m, v⟩ := p
  obtain ⟨m', w⟩ := q
  obtain ⟨rfl, hvw⟩ := hpq
  dsimp only
  split
  · exact ⟨rfl, .refl alt⟩
  · exact ⟨rfl, hvw⟩

end Bindings.Reordered

/-! ### Binding and computing -/

/-- Binding reordered values to the inputs fails together, or binds reordered values with as
many problems. -/
theorem bindInputs_reordered {sup sup' : Bindings} (h : sup.Reordered sup') :
    ∀ is : List Input, Except.Matched (fun r r' => r.1.Reordered r'.1 ∧ r.2.length = r'.2.length)
      (Schedule.bindInputs sup is) (Schedule.bindInputs sup' is)
  | [] => ⟨List.Forall₂.nil, rfl⟩
  | i :: is => by
    -- the other inputs, after a value of `i` and its problem
    have hk : ∀ (v v' : BoundValue) (p p' : Option String), v.Reordered v' → p.isSome = p'.isSome →
        Except.Matched (fun r r' : Bindings × List String => r.1.Reordered r'.1 ∧ r.2.length = r'.2.length)
          (Schedule.bindInputs sup is >>= fun r => pure ((i.name, v) :: r.1, p.toList ++ r.2))
          (Schedule.bindInputs sup' is >>= fun r => pure ((i.name, v') :: r.1, p'.toList ++ r.2)) := by
      intro v v' p p' hv hp
      refine (bindInputs_reordered h is).bind fun r r' hr => ⟨.cons ⟨rfl, hv⟩ hr.1, ?_⟩
      have hlen : p.toList.length = p'.toList.length := by
        cases p <;> cases p' <;> simp_all
      simp [hlen, hr.2]
    rw [Schedule.bindInputs, Schedule.bindInputs]
    have hl := h.lookup i.name
    revert hl
    generalize sup.lookup i.name = o
    generalize sup'.lookup i.name = o'
    intro hl
    cases hl with
    | none => exact hk _ _ none none (.refl _) rfl
    | some hvw => exact (hvw.checkValue i).bind fun p p' hp => hk _ _ p p' hvw hp

namespace Schedule

variable (s : Schedule) {b b' : Bindings}

/-- Binding reordered values again fails together, or gives reordered bindings. -/
theorem bind_reordered {sup sup' : Bindings} (h : sup.Reordered sup') :
    Except.Matched Bindings.Reordered (s.bind sup).run'.1 (s.bind sup').run'.1 := by
  rw [run'_eq_run, run'_eq_run, bind_run, bind_run]
  have hm := bindInputs_reordered h s.inputs
  revert hm
  generalize bindInputs sup s.inputs = x
  generalize bindInputs sup' s.inputs = x'
  intro hm
  rcases x with sig | ⟨c, _ | ⟨p, ps⟩⟩ <;> rcases x' with sig' | ⟨c', _ | ⟨p', ps'⟩⟩ <;>
    first | trivial | exact hm.1 | simp [Except.Matched] at hm

/-- Reordered bindings compute the same. -/
theorem compute_reordered (h : b.Reordered b') : s.compute b = s.compute b' := by
  simp only [Schedule.compute, h.env]

/-- The audit trail of reordered bindings differs only in the inputs it shows. -/
theorem trace_reordered (h : b.Reordered b') :
    (s.trace b').run'.1 = (s.trace b).run'.1.map ({· with inputs := b'}) := by
  rw [run'_eq_run, run'_eq_run, trace_run, trace_run, ← h.env]
  cases s.fees.mapM (feeOutcome · b.env) with
  | error e => rfl
  | ok os =>
    simp only [ok_bind]
    cases totals os <;> rfl

end Schedule

/-! ### The what-if analysis -/

section Analysis

variable {s : Schedule} {b b' : Bindings}

/-- The total with one input changed is the same for reordered bindings, unless both fail. -/
theorem alternativeTotal_reordered (h : b.Reordered b') (n : String) (alt : BoundValue) :
    Except.Matched (· = ·) (alternativeTotal s b n alt).run'.1 (alternativeTotal s b' n alt).run'.1 := by
  rw [(alternativeTotal_yields s b n alt).run', (alternativeTotal_yields s b' n alt).run']
  refine (s.bind_reordered (h.replace n alt)).bind fun c c' hc => ?_
  rw [s.compute_reordered hc]
  exact Except.Matched.of_eq fun _ => rfl

/-- The counterfactuals of one input from reordered current values. -/
theorem counterfactualsOf_reordered (h : b.Reordered b') {actual : Decimal} {n : String}
    {cur cur' : BoundValue} (hcur : cur.Reordered cur') (alts : List BoundValue) :
    Except.Matched (List.Forall₂ Counterfactual.Reordered)
      (counterfactualsOf s b actual n cur alts).run'.1
      (counterfactualsOf s b' actual n cur' alts).run'.1 := by
  rw [(counterfactualsOf_yields s b actual n cur alts).run',
    (counterfactualsOf_yields s b' actual n cur' alts).run']
  refine Except.Matched.mapM fun alt _ => (alternativeTotal_reordered h n alt).bind fun t t' ht => ?_
  subst ht
  cases Decimal.sub t actual with
  | error sig => trivial
  | ok d => exact ⟨rfl, hcur, rfl, rfl, rfl⟩

/-- The counterfactuals of the inputs from reordered bindings. -/
theorem counterfactuals_reordered (h : b.Reordered b') (actual : Decimal) (is : List Input) :
    Except.Matched (List.Forall₂ Counterfactual.Reordered)
      (counterfactuals s b actual is).run'.1 (counterfactuals s b' actual is).run'.1 := by
  rw [(counterfactuals_yields s b actual is).run', (counterfactuals_yields s b' actual is).run']
  refine (Except.Matched.mapM fun i _ => ?_).bind fun css css' hcss => List.rel_flatten hcss
  -- the alternatives of `i` are the same; its counterfactuals differ in the value given
  have hcur := h.current i.name i.defaultValue
  rw [← hcur.alternatives_eq i]
  exact (Except.Matched.of_eq fun _ => rfl).bind fun alts alts' halts =>
    halts ▸ counterfactualsOf_reordered h hcur alts

end Analysis

/-- The order of the symbols of a selection never matters. Bindings that differ only in that
order compute the same result, or the same fault; their audit trails are the same but for the
inputs they show; their what-if analyses fail together, or have the same totals and fee trails
and report, input after input, the same alternatives, totals and differences, the value given
for an input differing at most in the order of its selection. -/
theorem selection_order_irrelevant {s : Schedule} {b b' : Bindings} (h : b.Reordered b') :
    s.compute b = s.compute b' ∧
      (s.trace b').run'.1 = (s.trace b).run'.1.map ({· with inputs := b'}) ∧
      Except.Matched (Provenance.Reordered b') (s.whatIf b).run'.1 (s.whatIf b').run'.1 := by
  refine ⟨s.compute_reordered h, s.trace_reordered h, ?_⟩
  rw [(s.whatIf_yields b).run', (s.whatIf_yields b').run', s.trace_reordered h]
  cases (s.trace b).run'.1 with
  | error e => trivial
  | ok p =>
    -- the trail of `b'` has the totals of that of `b`, so the same grand total
    show Except.Matched _ (raw p.grandTotal >>= _) (raw p.grandTotal >>= _)
    cases raw p.grandTotal with
    | error e => trivial
    | ok actual =>
      exact (counterfactuals_reordered h actual s.inputs).bind fun cs cs' hcs =>
        ⟨rfl, rfl, rfl, rfl, hcs⟩

/-- A schedule with a selection of designated states and a designation fee for France: the
selections `FR, DE` and `DE, FR` are reordered bindings. -/
theorem designation_order_irrelevant :
    let states : Input := ⟨"states", "States",
      .multilist [⟨"DE", "Germany"⟩, ⟨"FR", "France"⟩] ["DE"], none⟩
    let designation : Fee := ⟨"designation",
      [⟨.binary .mul (.call .count [.ref "states"]) (.num (.ofNat 100)),
        some (.binary .contains (.ref "states") (.sym "FR"))⟩, ⟨.num .zero, none⟩], [], false, none⟩
    let s : Schedule := ⟨[states], [designation], [], [], [], none⟩
    let b : Bindings := [("states", .selection [symbolOf "FR", symbolOf "DE"])]
    let b' : Bindings := [("states", .selection [symbolOf "DE", symbolOf "FR"])]
    b.Reordered b' ∧ s.compute b = s.compute b' ∧
      (s.trace b').run'.1 = (s.trace b).run'.1.map ({· with inputs := b'}) ∧
      Except.Matched (Provenance.Reordered b') (s.whatIf b).run'.1 (s.whatIf b').run'.1 := by
  intro states designation s b b'
  have h : b.Reordered b' := .cons ⟨rfl, .selection (.swap _ _ _)⟩ .nil
  exact ⟨h, selection_order_irrelevant h⟩

end FeeSchedule
