import FeeSchedule.Evaluation.Compute
import FeeSchedule.Schedule.Parse
import Mathlib.Data.List.Forall2

/-!
# `FeeSchedule.Proofs.Evaluation.Provenance`: the audit trail refines the computation

`Schedule.trace` and `Schedule.compute` evaluate the fees of a schedule alike and add their
contributions with the same sums; `compute` also evaluates the return conditions. The audit
trail of a fee (`FeeOutcome.trace`) has one record per case, in order: the conditions
tried are false up to the case that fired, which shows true (or no result when it has no
condition), and the cases after it were not tried.

* `outcomes_run`: the outcomes of the fees are `feeOutcome` over the fees.
* `firstCase_none`, `firstCase_some`: the conditions `firstCase` reports.
* `FeeOutcome.Tried.reports`: the audit trail of an outcome reports it
  (`FeeTrace.Reports`).
* `trace_refines_compute`: the trace fails when a fee fails or a total cannot be formed,
  the computation when that happens or a return condition fails; when both succeed they
  agree on the totals and are made from the same outcomes, whose trails report them.
* `trace_overflows_without_failing_fee`: the sums can overflow when no fee fails.
-/

set_option autoImplicit false

namespace FeeSchedule

open Evaluation FeeEvaluation Assessment

/-! ### Computations that can fail -/

section Except

variable {ε α β : Type}

@[simp] theorem ok_bind {a : α} {f : α → Except ε β} : (Except.ok a >>= f) = f a := rfl

@[simp] theorem error_bind {e : ε} {f : α → Except ε β} : (Except.error e >>= f) = .error e := rfl

@[simp] theorem pure_ne_error {a : α} {e : ε} : (pure a : Except ε α) ≠ .error e := nofun

@[simp] theorem toOption_eq_some {x : Except ε α} {a : α} : x.toOption = some a ↔ x = .ok a := by
  cases x <;> simp [Except.toOption]

theorem bind_eq_ok {x : Except ε α} {f : α → Except ε β} {b : β} :
    x >>= f = .ok b ↔ ∃ a, x = .ok a ∧ f a = .ok b := by
  cases x <;> simp [bind, Except.bind]

theorem bind_fails_iff {x : Except ε α} {f : α → Except ε β} :
    (∃ e, x >>= f = .error e) ↔ (∃ e, x = .error e) ∨ ∃ a, x = .ok a ∧ ∃ e, f a = .error e := by
  cases x <;> simp [bind, Except.bind]

/-- A traversal succeeds exactly when each element does. -/
theorem mapM_ok_iff {f : α → Except ε β} {xs : List α} {ys : List β} :
    xs.mapM f = .ok ys ↔ List.Forall₂ (fun x y => f x = .ok y) xs ys := by
  induction xs generalizing ys with
  | nil => cases ys <;> simp [pure, Except.pure]
  | cons x xs ih =>
    rw [List.mapM_cons, bind_eq_ok]
    cases ys with
    | nil => simp [bind_eq_ok, pure, Except.pure]
    | cons y ys =>
      simp only [bind_eq_ok, pure, Except.pure, Except.ok.injEq, List.cons.injEq,
        List.forall₂_cons, ← ih]
      constructor
      · rintro ⟨a, ha, zs, hzs, rfl, rfl⟩
        exact ⟨ha, hzs⟩
      · rintro ⟨ha, hzs⟩
        exact ⟨y, ha, ys, hzs, rfl, rfl⟩

/-- A traversal fails exactly when some element does. -/
theorem mapM_fails_iff {f : α → Except ε β} {xs : List α} :
    (∃ e, xs.mapM f = .error e) ↔ ∃ x ∈ xs, ∃ e, f x = .error e := by
  induction xs with
  | nil => simp [pure, Except.pure]
  | cons x xs ih =>
    rw [List.mapM_cons]
    cases hx : f x with
    | error e => simp [bind, Except.bind, hx]
    | ok y =>
      have hne : ¬ ∃ e, f x = .error e := by simp [hx]
      simp only [bind, Except.bind, List.mem_cons, exists_eq_or_imp, hne, false_or, ← ih]
      cases xs.mapM f <;> simp [pure, Except.pure]

/-- A fold that can fail keeps, when it succeeds, an invariant of the elements gone through and
the accumulator, when each successful step keeps it. -/
theorem foldlM_seen_invariant {P : List α → β → Prop} {g : β → α → Except ε β} :
    ∀ {xs seen : List α} {b b' : β},
      (∀ seen c acc acc', c ∈ xs → P seen acc → g acc c = .ok acc' → P (seen ++ [c]) acc') →
      P seen b → xs.foldlM g b = .ok b' → P (seen ++ xs) b'
  | [], _, _, _, _, hb, h => by
    cases h
    simpa using hb
  | x :: xs, seen, b, _, hg, hb, h => by
    rw [List.foldlM_cons] at h
    obtain ⟨c, hc, h⟩ := bind_eq_ok.mp h
    have hrest := foldlM_seen_invariant
      (fun s y a a' hy => hg s y a a' (List.mem_cons_of_mem x hy))
      (hg seen x b c List.mem_cons_self hb hc) h
    simpa using hrest

end Except

@[simp] theorem raw_of_ok {α : Type} (a : α) : raw (.ok a : Except Signal α) = .ok a := rfl

/-- A result whose signal stops the evaluation succeeds exactly when the decimal result does. -/
@[simp] theorem raw_eq_ok {α : Type} {r : Except Signal α} {a : α} : raw r = .ok a ↔ r = .ok a := by
  cases r <;> simp [raw, pure, Except.pure, throw, throwThe, MonadExceptOf.throw]

/-- In a list of pairs with distinct keys, each pair is found by its key. -/
theorem lookup_of_mem_of_nodup {β : Type} :
    ∀ {l : List (String × β)}, (l.map Prod.fst).Nodup → ∀ {p : String × β}, p ∈ l →
      l.lookup p.1 = some p.2
  | [], _, _, h => absurd h List.not_mem_nil
  | q :: l, hnodup, p, h => by
    rw [List.map_cons, List.nodup_cons] at hnodup
    rcases List.mem_cons.mp h with rfl | h
    · exact List.lookup_cons_self
    · -- the key of `p` is not that of `q`, which comes first
      have hne : p.1 ≠ q.1 := fun heq => hnodup.1 (heq ▸ List.mem_map_of_mem h)
      rw [List.lookup_cons, beq_false_of_ne hne]
      exact lookup_of_mem_of_nodup hnodup.2 h

/-! ### The fees, one after another -/

/-- Evaluating the fees one after another is `feeOutcome` over the fees; what is noted on
the way does not change it. -/
theorem outcomes_run (env : Env) (fs : List Fee) (σ : Array Event) :
    ((outcomes env fs).run σ).1 = fs.mapM (feeOutcome · env) := by
  induction fs generalizing σ with
  | nil => rfl
  | cons f fs ih =>
    rw [outcomes, Traced.run_bind, evaluateFee_run, List.mapM_cons]
    cases feeOutcome f env with
    | error e => rfl
    | ok o =>
      dsimp only
      rw [Traced.run_bind, ih]
      cases fs.mapM (feeOutcome · env) <;> rfl

/-! ### The cases of a fee -/

section Cases

variable {fee : String} {scope : Env} {last : Nat}

/-- A case without condition fires or fails: trying it never moves on. -/
theorem firstCase_fallback {i : Nat} {c : Case} {cs : List Case} {tried : List (Option Bool)}
    {r : Option (Nat × Decimal) × List (Option Bool)} (hc : c.condition = none)
    (h : firstCase fee scope last i (c :: cs) tried = .ok r) :
    ∃ a, r = (some (i, a), (none :: tried).reverse) := by
  rw [firstCase, hc] at h
  dsimp only at h
  split at h
  · cases h
  · obtain ⟨v, -, h⟩ := bind_eq_ok.mp h
    obtain ⟨a, -, h⟩ := bind_eq_ok.mp h
    cases h
    exact ⟨a, rfl⟩

/-- A case with a condition fires when the condition holds, and otherwise the search moves
on to the next case with the condition noted as false. -/
theorem firstCase_conditional {i : Nat} {c : Case} {cs : List Case} {cond : Expr}
    {tried : List (Option Bool)} {r : Option (Nat × Decimal) × List (Option Bool)}
    (hc : c.condition = some cond) (h : firstCase fee scope last i (c :: cs) tried = .ok r) :
    ∃ holds, (evaluate scope cond >>= asBoolean cond) = .ok holds ∧
      if holds then ∃ a, r = (some (i, a), (some true :: tried).reverse)
      else firstCase fee scope last (i + 1) cs (some false :: tried) = .ok r := by
  rw [firstCase, hc] at h
  dsimp only at h
  obtain ⟨v, hv, h⟩ := bind_eq_ok.mp h
  obtain ⟨holds, hb, h⟩ := bind_eq_ok.mp h
  refine ⟨holds, by rw [hv, ok_bind]; exact hb, ?_⟩
  cases holds with
  | false =>
    simp only [Bool.false_eq_true, if_false] at h ⊢
    exact h
  | true =>
    simp only [if_true] at h ⊢
    obtain ⟨w, -, h⟩ := bind_eq_ok.mp h
    obtain ⟨a, -, h⟩ := bind_eq_ok.mp h
    cases h
    exact ⟨a, rfl⟩

/-- When no case fires, every case was tried and its condition was false. -/
theorem firstCase_none :
    ∀ {i : Nat} {cs : List Case} {tried conds : List (Option Bool)},
      firstCase fee scope last i cs tried = .ok (none, conds) →
      conds = tried.reverse ++ List.replicate cs.length (some false)
  | _, [], tried, conds, h => by
    simp only [firstCase, pure, Except.pure, Except.ok.injEq, Prod.mk.injEq, true_and] at h
    simp [h]
  | i, c :: cs, tried, conds, h => by
    cases hc : c.condition with
    | none =>
      obtain ⟨a, ha⟩ := firstCase_fallback hc h
      cases ha
    | some cond =>
      obtain ⟨holds, -, h⟩ := firstCase_conditional hc h
      cases holds with
      | false =>
        simp only [Bool.false_eq_true, if_false] at h
        rw [firstCase_none h]
        simp [List.replicate_succ]
      | true =>
        obtain ⟨a, ha⟩ := h
        cases ha

/-- The case that fires is the `k`-th after `i`: the conditions before it were false, and
its own holds, or it has none. -/
theorem firstCase_some :
    ∀ {i : Nat} {cs : List Case} {tried conds : List (Option Bool)} {j : Nat} {a : Decimal},
      firstCase fee scope last i cs tried = .ok (some (j, a), conds) →
      ∃ k c, cs[k]? = some c ∧ j = i + k ∧
        conds = tried.reverse ++ List.replicate k (some false) ++ [c.condition.map fun _ => true]
  | _, [], _, _, _, _, h => by
    simp [firstCase, pure, Except.pure] at h
  | i, c :: cs, tried, conds, j, a, h => by
    cases hc : c.condition with
    | none =>
      obtain ⟨a', ha⟩ := firstCase_fallback hc h
      simp only [Prod.mk.injEq, Option.some.injEq] at ha
      obtain ⟨⟨rfl, -⟩, rfl⟩ := ha
      exact ⟨0, c, rfl, rfl, by simp [hc]⟩
    | some cond =>
      obtain ⟨holds, -, h⟩ := firstCase_conditional hc h
      cases holds with
      | false =>
        simp only [Bool.false_eq_true, if_false] at h
        obtain ⟨k, c', hk, rfl, rfl⟩ := firstCase_some h
        exact ⟨k + 1, c', hk, by omega, by simp [List.replicate_succ]⟩
      | true =>
        obtain ⟨a', ha⟩ := h
        simp only [Prod.mk.injEq, Option.some.injEq] at ha
        obtain ⟨⟨rfl, -⟩, rfl⟩ := ha
        exact ⟨0, c, rfl, rfl, by simp [hc]⟩

end Cases

/-! ### The outcome of a fee and its audit trail -/

/-- What trying the cases leaves in an outcome: when the case `j` fired, the conditions
before it were false and its own holds (or it has none); when none fired, every condition
was false and the fee contributes zero. -/
def FeeOutcome.Tried (o : FeeOutcome) : Prop :=
  match o.fired with
  | none =>
    o.contribution = Decimal.zero ∧ o.conditions = List.replicate o.fee.cases.length (some false)
  | some j =>
    ∃ c, o.fee.cases[j]? = some c ∧
      o.conditions = List.replicate j (some false) ++ [c.condition.map fun _ => true]

/-- What an outcome is made of: the scope of the variables, then the search for the case
that fires. -/
theorem feeOutcome_ok {f : Fee} {env : Env} {o : FeeOutcome} (h : feeOutcome f env = .ok o) :
    ∃ scope r, bindVars env f.vars = .ok scope ∧
      firstCase f.name scope (f.cases.length - 1) 0 f.cases [] = .ok r ∧
      o.fee = f ∧ o.fired = r.1.map Prod.fst ∧ o.conditions = r.2 ∧
      o.contribution = (r.1.map Prod.snd).getD Decimal.zero := by
  unfold feeOutcome at h
  obtain ⟨scope, hs, h⟩ := bind_eq_ok.mp h
  obtain ⟨⟨fired, conds⟩, hfc, h⟩ := bind_eq_ok.mp h
  dsimp only at h
  refine ⟨scope, (fired, conds), hs, hfc, ?_⟩
  cases fired with
  | none =>
    cases h
    exact ⟨rfl, rfl, rfl, rfl⟩
  | some p =>
    obtain ⟨j, a⟩ := p
    cases h
    exact ⟨rfl, rfl, rfl, rfl⟩

theorem feeOutcome_tried {f : Fee} {env : Env} {o : FeeOutcome} (h : feeOutcome f env = .ok o) :
    o.fee = f ∧ o.Tried := by
  obtain ⟨_, ⟨fired, conds⟩, -, hfc, hfee, hfired, hconds, hcontr⟩ := feeOutcome_ok h
  refine ⟨hfee, ?_⟩
  unfold FeeOutcome.Tried
  rw [hfired, hconds, hfee]
  cases fired with
  | none => exact ⟨hcontr, by simpa using firstCase_none hfc⟩
  | some p =>
    obtain ⟨j, a⟩ := p
    obtain ⟨k, c, hk, rfl, hcs⟩ := firstCase_some hfc
    exact ⟨c, by simpa using hk, by simpa using hcs⟩

/-- The condition result the record of case `i` (the case `c`) shows when the case `fired`
fired: false before it, true at it (nothing for a case without condition), nothing after
it; false for every case when none fired. -/
def conditionShown (fired : Option Nat) (i : Nat) (c : Case) : Option Bool :=
  match fired with
  | none => some false
  | some j => if i < j then some false else if i = j then c.condition.map fun _ => true else none

/-- An audit trail reports an outcome: one record per case, in case order, with the case's
texts and the condition result it shows; the record of the case that fired, and only it,
contributed, the fee's whole contribution; `fired` finds it. -/
structure FeeTrace.Reports (t : FeeTrace) (o : FeeOutcome) : Prop where
  total : t.total = o.contribution
  length : t.records.length = o.fee.cases.length
  record : ∀ i c, o.fee.cases[i]? = some c → t.records[i]? = some
    ({ expr := c.expr.render, condition := c.condition.map Expr.render
       conditionResult := conditionShown o.fired i c, contributed := o.fired == some i
       contribution := if o.fired == some i then o.contribution else Decimal.zero } : CaseRecord)
  fired_lt : ∀ j, o.fired = some j → j < o.fee.cases.length
  zero : o.fired = none → o.contribution = Decimal.zero
  fired : t.fired = o.fired.bind fun j => t.records[j]?

/-- The first element satisfying `p` is the one at the only index where `p` holds, if any. -/
theorem find?_eq_bind_getElem? {α : Type} {l : List α} {p : α → Bool} {k : Option Nat}
    (h : ∀ i x, l[i]? = some x → (p x = true ↔ k = some i)) :
    l.find? p = k.bind fun j => l[j]? := by
  cases hk : k.bind fun j => l[j]? with
  | none =>
    rw [List.find?_eq_none]
    intro x hx hpx
    obtain ⟨i, hi⟩ := List.mem_iff_getElem?.mp hx
    rw [(h i x hi).mp hpx, Option.bind_some, hi] at hk
    cases hk
  | some y =>
    obtain ⟨j, rfl, hj⟩ := Option.bind_eq_some_iff.mp hk
    obtain ⟨hjl, rfl⟩ := List.getElem?_eq_some_iff.mp hj
    rw [List.find?_eq_some_iff_getElem]
    refine ⟨(h j _ hj).mpr rfl, j, hjl, rfl, fun i hi => ?_⟩
    have hp := h i _ (List.getElem?_eq_getElem (Nat.lt_trans hi hjl))
    have hnp : p l[i] ≠ true := fun hpi => Nat.ne_of_gt hi (Option.some.inj (hp.mp hpi))
    simpa using hnp

namespace FeeOutcome

theorem trace_record (o : FeeOutcome) (i : Nat) :
    o.trace.records[i]? = (o.fee.cases[i]?).map fun c =>
      { expr := c.expr.render, condition := c.condition.map Expr.render
        conditionResult := (o.conditions[i]?).getD none, contributed := o.fired == some i
        contribution := if o.fired == some i then o.contribution else Decimal.zero } := by
  simp [FeeOutcome.trace, Function.comp_def]

/-- The condition results an outcome keeps are the ones `conditionShown` names. -/
theorem Tried.conditions {o : FeeOutcome} (h : o.Tried) {i : Nat} {c : Case}
    (hc : o.fee.cases[i]? = some c) : (o.conditions[i]?).getD none = conditionShown o.fired i c := by
  unfold Tried at h
  unfold conditionShown
  split at h
  · have hi : i < o.fee.cases.length := (List.getElem?_eq_some_iff.mp hc).1
    simp [h.2, hi]
  · rename_i j _
    obtain ⟨c', hc', hconds⟩ := h
    rw [hconds]
    -- before, at and after the case that fired
    rcases Nat.lt_trichotomy i j with hij | rfl | hij
    · simp [List.getElem?_append_left, hij]
    · rw [hc] at hc'
      cases hc'
      simp
    · have hn : ¬ i < j := by omega
      have hne : i ≠ j := by omega
      rw [if_neg hn, if_neg hne, List.getElem?_eq_none (by simp; omega)]
      rfl

theorem Tried.reports {o : FeeOutcome} (h : o.Tried) : o.trace.Reports o where
  total := rfl
  length := by simp [FeeOutcome.trace]
  record i c hc := by
    rw [trace_record, hc, Option.map_some, h.conditions hc]
  fired_lt j hj := by
    unfold Tried at h
    rw [hj] at h
    obtain ⟨c, hc, -⟩ := h
    exact (List.getElem?_eq_some_iff.mp hc).1
  zero hn := by
    unfold Tried at h
    rw [hn] at h
    exact h.1
  fired := by
    apply find?_eq_bind_getElem?
    intro i x hx
    rw [trace_record] at hx
    obtain ⟨c, -, rfl⟩ := Option.map_eq_some_iff.mp hx
    simp

end FeeOutcome

/-! ### The computation and its audit trail -/

/-- The return conditions fail exactly when one of them does. -/
theorem activeReturns_fails_iff (env : Env) (rs : List Return) :
    (∃ e, activeReturns env rs = .error e) ↔
      ∃ r ∈ rs, ∃ c, r.condition = some c ∧ ∃ e, (evaluate env c >>= asBoolean c) = .error e := by
  induction rs with
  | nil => simp [activeReturns, pure, Except.pure]
  | cons r rs ih =>
    -- the first condition fails, or the later ones do
    have hfirst : ∀ x : Except EvalFault Bool,
        (∃ e, (x >>= fun active => activeReturns env rs >>= fun rest =>
          pure (if active = true then r :: rest else rest)) = .error e) ↔
        (∃ e, x = .error e) ∨ ∃ e, activeReturns env rs = .error e := by
      intro x
      cases x <;> cases activeReturns env rs <;> simp [bind, Except.bind, pure, Except.pure]
    rw [activeReturns]
    simp only [List.mem_cons, exists_eq_or_imp, ← ih]
    cases r.condition with
    | none =>
      rw [hfirst]
      simp [pure, Except.pure]
    | some c =>
      dsimp only
      rw [← bind_assoc, hfirst]
      simp

namespace Schedule

variable (s : Schedule) (b : Bindings) (σ : Array Event)

/-- The value of the audit trail: the outcomes of the fees, then their totals. -/
theorem trace_run : ((s.trace b).run σ).1 =
    (s.fees.mapM (feeOutcome · b.env) >>= fun os => totals os >>= fun t =>
      pure ⟨t.1, t.2, os.map FeeOutcome.trace, b, []⟩) := by
  rw [Schedule.trace, Traced.run_bind, outcomes_run]
  cases s.fees.mapM (feeOutcome · b.env) <;> rfl

/-- The value of the computation: the outcomes of the fees, their totals, then the active
returns. -/
theorem compute_run : ((s.compute b).run σ).1 =
    (s.fees.mapM (feeOutcome · b.env) >>= fun os => totals os >>= fun t =>
      activeReturns b.env s.returns >>= fun rs => pure ⟨t.1, t.2, os.map FeeOutcome.step, rs⟩) := by
  rw [Schedule.compute, Traced.run_bind, outcomes_run]
  cases s.fees.mapM (feeOutcome · b.env) <;> rfl

/-- The audit trail fails when a fee fails, or when the fees give outcomes whose totals
cannot be formed. -/
theorem trace_fails_iff : (∃ e, (s.trace b).run'.1 = .error e) ↔
    (∃ f ∈ s.fees, ∃ e, (evaluateFee f b.env).run'.1 = .error e) ∨
      ∃ os, List.Forall₂ (fun f o => (evaluateFee f b.env).run'.1 = .ok o) s.fees os ∧
        ∃ e, totals os = .error e := by
  simp only [Traced.run'_eq_run, trace_run, evaluateFee_run]
  rw [bind_fails_iff]
  refine or_congr mapM_fails_iff (exists_congr fun os => and_congr mapM_ok_iff ?_)
  rw [bind_fails_iff]
  simp

/-- The computation fails when the audit trail does, or when a return condition fails. -/
theorem compute_fails_iff : (∃ e, (s.compute b).run'.1 = .error e) ↔
    (∃ e, (s.trace b).run'.1 = .error e) ∨
      ∃ r ∈ s.returns, ∃ c, r.condition = some c ∧
        ∃ e, (evaluate b.env c >>= asBoolean c) = .error e := by
  simp only [Traced.run'_eq_run, compute_run, trace_run]
  rw [← activeReturns_fails_iff]
  -- the fees, their totals and the returns are evaluated in this order
  cases s.fees.mapM (feeOutcome · b.env) with
  | error e => simp
  | ok os =>
    simp only [ok_bind]
    cases totals os with
    | error e => simp
    | ok t =>
      simp only [ok_bind]
      cases activeReturns b.env s.returns <;> simp

/-- When both succeed, the audit trail and the computation have the same totals and are
made from the same outcomes, the `k`-th that of the `k`-th fee, which its trail reports. -/
theorem trace_agrees_compute {p : Provenance} {res : ComputeResult}
    (hp : (s.trace b).run'.1 = .ok p) (hr : (s.compute b).run'.1 = .ok res) :
    p.mandatory = res.mandatory ∧ p.optional = res.optional ∧ p.grandTotal = res.grandTotal ∧
      ∃ os, List.Forall₂ (fun f o => (evaluateFee f b.env).run'.1 = .ok o ∧ o.fee = f ∧
          o.trace.Reports o) s.fees os ∧
        p.fees = os.map FeeOutcome.trace ∧ res.steps = os.map FeeOutcome.step := by
  rw [Traced.run'_eq_run, trace_run] at hp
  rw [Traced.run'_eq_run, compute_run] at hr
  obtain ⟨os, hF, hp⟩ := bind_eq_ok.mp hp
  obtain ⟨t, hT, hp⟩ := bind_eq_ok.mp hp
  cases hp
  -- the computation goes through the same outcomes and totals
  simp only [hF, hT, ok_bind] at hr
  obtain ⟨rs, -, hr⟩ := bind_eq_ok.mp hr
  cases hr
  refine ⟨rfl, rfl, rfl, os, ?_, rfl, rfl⟩
  refine (mapM_ok_iff.mp hF).imp fun f o h => ?_
  obtain ⟨hfee, htried⟩ := feeOutcome_tried h
  exact ⟨by rw [Traced.run'_eq_run, evaluateFee_run, h], hfee, htried.reports⟩

end Schedule

/-- The audit trail refines the computation. The trail fails exactly when a fee fails or
the totals of the outcomes cannot be formed, and the computation exactly when that happens
or a return condition fails. When both succeed they agree on the mandatory, optional and
grand totals, and are made from the outcomes of the fees in order: the computation's steps
from them, and the trail of each fee from its outcome, which it reports. -/
theorem trace_refines_compute (s : Schedule) (b : Bindings) :
    ((∃ e, (s.trace b).run'.1 = .error e) ↔
      (∃ f ∈ s.fees, ∃ e, (evaluateFee f b.env).run'.1 = .error e) ∨
        ∃ os, List.Forall₂ (fun f o => (evaluateFee f b.env).run'.1 = .ok o) s.fees os ∧
          ∃ e, totals os = .error e) ∧
    ((∃ e, (s.compute b).run'.1 = .error e) ↔
      (∃ e, (s.trace b).run'.1 = .error e) ∨
        ∃ r ∈ s.returns, ∃ c, r.condition = some c ∧
          ∃ e, (evaluate b.env c >>= asBoolean c) = .error e) ∧
    ∀ p res, (s.trace b).run'.1 = .ok p → (s.compute b).run'.1 = .ok res →
      p.mandatory = res.mandatory ∧ p.optional = res.optional ∧ p.grandTotal = res.grandTotal ∧
        ∃ os, List.Forall₂ (fun f o => (evaluateFee f b.env).run'.1 = .ok o ∧ o.fee = f ∧
            o.trace.Reports o) s.fees os ∧
          p.fees = os.map FeeOutcome.trace ∧ res.steps = os.map FeeOutcome.step :=
  ⟨s.trace_fails_iff b, s.compute_fails_iff b, fun _ _ hp hr => s.trace_agrees_compute b hp hr⟩

/-- The totals can overflow when no fee fails. Two fees yield an amount input of 9E+999999
each; both give outcomes, but their sum has an exponent beyond the largest one allowed, so
the audit trail and the computation both fail with an overflow. -/
theorem trace_overflows_without_failing_fee :
    ∃ r s b, (Schedule.parse (CodePoint.ofString
        "INPUT a AMOUNT 'a' CURRENCY EUR ENDINPUT\nFEE f YIELD a ENDFEE\nFEE g YIELD a ENDFEE")).run'.1 =
        .ok r ∧ r.isValid ∧ r.schedule = some s ∧
      (s.bind [("a", .number (.finite false 9 999999))]).run'.1 = .ok b ∧
      (∀ f ∈ s.fees, ∃ o, (evaluateFee f b.env).run'.1 = .ok o) ∧
      (∃ e, (s.trace b).run'.1 = .error e ∧ e.kind = "Overflow") ∧
      ∃ e, (s.compute b).run'.1 = .error e ∧ e.kind = "Overflow" := by
  -- the kind of the failure, read off as an option
  have raised : ∀ {α : Type} (x : Except EvalFault α),
      ((x.map fun _ => none).tryCatch fun e => .ok (some e.kind)).toOption = some (some "Overflow") →
      ∃ e, x = .error e ∧ e.kind = "Overflow" := by
    intro α x h
    cases x <;> simp_all [Except.map, Except.tryCatch, Except.toOption]
  have hrun : ((Schedule.parse (CodePoint.ofString
      "INPUT a AMOUNT 'a' CURRENCY EUR ENDINPUT\nFEE f YIELD a ENDFEE\nFEE g YIELD a ENDFEE")).run'.1.toOption.any
      fun r => r.isValid && r.schedule.any fun s =>
        (s.bind [("a", .number (.finite false 9 999999))]).run'.1.toOption.any fun b =>
          (s.fees.all fun f => (evaluateFee f b.env).run'.1.isOk) &&
            (((s.trace b).run'.1.map fun _ => none).tryCatch fun e => .ok (some e.kind)).toOption ==
              some (some "Overflow") &&
            (((s.compute b).run'.1.map fun _ => none).tryCatch fun e => .ok (some e.kind)).toOption ==
              some (some "Overflow")) = true := by
    decide +kernel
  cases hp : (Schedule.parse (CodePoint.ofString
      "INPUT a AMOUNT 'a' CURRENCY EUR ENDINPUT\nFEE f YIELD a ENDFEE\nFEE g YIELD a ENDFEE")).run'.1 with
  | error e =>
    rw [hp] at hrun
    cases hrun
  | ok r =>
    rw [hp] at hrun
    simp only [Except.toOption, Option.any_some, Bool.and_eq_true] at hrun
    obtain ⟨hv, hrun⟩ := hrun
    cases hs : r.schedule with
    | none =>
      rw [hs] at hrun
      cases hrun
    | some s =>
      rw [hs, Option.any_some] at hrun
      cases hb : (s.bind [("a", .number (.finite false 9 999999))]).run'.1 with
      | error e =>
        rw [hb] at hrun
        cases hrun
      | ok b =>
        rw [hb] at hrun
        simp only [Option.any_some, Bool.and_eq_true, List.all_eq_true, beq_iff_eq] at hrun
        obtain ⟨⟨hfees, htrace⟩, hcompute⟩ := hrun
        refine ⟨r, s, b, rfl, hv, hs, hb, fun f hf => ?_, raised _ htrace, raised _ hcompute⟩
        cases ho : (evaluateFee f b.env).run'.1 with
        | error e =>
          have := hfees f hf
          rw [ho] at this
          cases this
        | ok o => exact ⟨o, rfl⟩

end FeeSchedule
