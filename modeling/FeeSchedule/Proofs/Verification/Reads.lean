import FeeSchedule.Proofs.Check.Schedule
import FeeSchedule.Verification.Dependencies

/-!
# `FeeSchedule.Proofs.Verification.Reads`: whether a case fires depends on the inputs read

`Schedule.conditionInputs` names the inputs the conditions of a fee read, directly or through
its variables (`Fee.dependencies`). This module shows that the name is earned: which case of
a fee fires depends on the environment only through those inputs.

* `refs_in_scope`: a checked expression reads only names of its scope; so the dependencies
  of the variables of a checked fee, and the names its conditions read, are inputs
  (`Schedule.Checked.reads_inputs`).
* `evaluate_congr`: an expression has the same value in two environments that agree on the
  names it references.
* `bindVars_agree`: binding the variables keeps two environments in agreement on every
  name whose dependencies they agree on.
* `feeOutcome_fires_of_agree`: if a case fires in one environment, one fires in every other
  that agrees with it on the inputs the conditions read, unless the fee fails there.
-/

set_option autoImplicit false

namespace FeeSchedule

open Evaluation FeeEvaluation

/-! ### Names in scope -/

section Scope

variable {sc : Scope}

/-- The checker gives a type to every expression it finds no fault in: only a symbol and
an unknown name have none, and both are faults. -/
theorem infer_type_of_faults_nil {e : Expr} (h : (infer sc e).2 = []) :
    ∃ t, (infer sc e).1 = some t := by
  cases e with
  | sym s => simp [infer] at h
  | ref n =>
    simp only [infer] at h ⊢
    split at h
    · simp
    · cases h
  | binary op l r =>
    by_cases hop : op.isComparison
    · exact ⟨_, infer_comparison_type hop⟩
    · by_cases hc : op = .contains
      · subst hc
        exact ⟨_, infer_contains_type⟩
      · rw [infer_binary_of_not_comparison (Bool.eq_false_iff.mpr hop) hc]
        split <;> exact ⟨_, rfl⟩
  | num _ | bool _ | date _ | unary _ _ | call _ _ =>
    rw [infer.eq_def]
    exact ⟨_, rfl⟩

mutual

/-- A checked expression reads only names its scope gives a type. -/
theorem refs_in_scope : (e : Expr) → (infer sc e).2 = [] → ∀ n ∈ e.refs, (sc.lookup n).isSome
  | .num _, _ | .bool _, _ | .date _, _ | .sym _, _ => by simp [Expr.refs]
  | .ref n, h => by
    intro m hm
    simp only [Expr.refs, List.mem_singleton] at hm
    subst hm
    simp only [infer] at h
    split at h
    · rename_i t ht
      simp [ht]
    · cases h
  | .unary op x, h => by
    rw [infer.eq_def] at h
    rcases hx : infer sc x with ⟨t, fs⟩
    simp only [hx, List.append_eq_nil_iff] at h
    have hx' : (infer sc x).2 = [] := by rw [hx]; exact h.1
    simpa [Expr.refs] using refs_in_scope x hx'
  | .binary op l r, h => by
    simp only [Expr.refs, List.mem_append]
    by_cases hop : op.isComparison
    · -- a symbol on one side is not read; the other side is checked
      rcases infer_comparison_faults hop h with ⟨s, rfl, hr, -⟩ | ⟨s, rfl, hl, -⟩ | ⟨hl, hr, -⟩
      · intro n hn
        rcases hn with hn | hn
        · simp [Expr.refs] at hn
        · exact refs_in_scope r hr n hn
      · intro n hn
        rcases hn with hn | hn
        · exact refs_in_scope l hl n hn
        · simp [Expr.refs] at hn
      · intro n hn
        rcases hn with hn | hn
        · exact refs_in_scope l hl n hn
        · exact refs_in_scope r hr n hn
    · by_cases hc : op = .contains
      · -- the right side of CONTAINS is a symbol
        subst hc
        obtain ⟨hl, hsym⟩ := infer_contains_faults h
        obtain ⟨t, ht⟩ := infer_type_of_faults_nil hl
        obtain ⟨-, s, rfl⟩ := hsym t ht
        intro n hn
        rcases hn with hn | hn
        · exact refs_in_scope l hl n hn
        · simp [Expr.refs] at hn
      · rw [infer_binary_of_not_comparison (Bool.eq_false_iff.mpr hop) hc] at h
        have hlr : (infer sc l).2 = [] ∧ (infer sc r).2 = [] := by
          split at h <;> simp_all
        intro n hn
        rcases hn with hn | hn
        · exact refs_in_scope l hlr.1 n hn
        · exact refs_in_scope r hlr.2 n hn
  | .call f args, h => by
    rw [infer.eq_def] at h
    simp only [List.append_eq_nil_iff, List.flatMap_eq_nil_iff] at h
    simpa [Expr.refs] using refs_in_scope_all args h.1

theorem refs_in_scope_all : (es : List Expr) → (∀ r ∈ inferAll sc es, r.2 = []) →
    ∀ n ∈ Expr.refsAll es, (sc.lookup n).isSome
  | [], _ => by simp [Expr.refsAll]
  | e :: es, h => by
    simp only [inferAll, List.mem_cons, forall_eq_or_imp] at h
    intro n hn
    simp only [Expr.refsAll, List.mem_append] at hn
    rcases hn with hn | hn
    · exact refs_in_scope e h.1 n hn
    · exact refs_in_scope_all es h.2 n hn

end

end Scope

/-! ### Dependencies of checked variables -/

namespace Dependencies

theorem mem_expand {deps : Dependencies} {ns : List String} {x : String} :
    x ∈ deps.expand ns ↔ ∃ n ∈ ns, x ∈ deps.expand [n] := by
  simp [expand]

@[simp] theorem expand_cons_self (deps : Dependencies) (n : String) (ds : List String) :
    Dependencies.expand ((n, ds) :: deps) [n] = ds := by
  simp [expand]

theorem expand_cons_of_ne (deps : Dependencies) {n m : String} (ds : List String) (h : m ≠ n) :
    Dependencies.expand ((n, ds) :: deps) [m] = deps.expand [m] := by
  simp [expand, List.lookup_cons, beq_false_of_ne h]

/-- The step of `Fee.dependencies` for one more variable. -/
def push (deps : Dependencies) (v : LetVar) : Dependencies :=
  (v.name, deps.expand v.expr.refs) :: deps

theorem mem_of_lookup_eq_some {deps : Dependencies} {n : String} {ds : List String}
    (h : deps.lookup n = some ds) : (n, ds) ∈ deps := by
  obtain ⟨l₁, l₂, rfl, -⟩ := List.lookup_eq_some_iff.mp h
  simp

/-- Dependencies that stand for inputs, beside a scope of the checker whose variables they
all describe. -/
structure OfInputs (s : Schedule) (deps : Dependencies) (sc : Scope) : Prop where
  inputs : ∀ p ∈ deps, ∀ x ∈ p.2, x ∈ s.inputNames
  vars : ∀ n, (sc.vars.lookup n).isSome → (deps.lookup n).isSome
  scope : sc.inputs = s.inputs

variable {s : Schedule} {deps : Dependencies} {sc : Scope}

theorem OfInputs.expand {n : String} (h : OfInputs s deps sc) (hn : (sc.lookup n).isSome) :
    ∀ x ∈ deps.expand [n], x ∈ s.inputNames := by
  intro x hx
  simp only [Dependencies.expand, List.flatMap_cons, List.flatMap_nil, List.append_nil] at hx
  cases hd : deps.lookup n with
  | some ds =>
    rw [hd, Option.getD_some] at hx
    exact h.inputs (n, ds) (mem_of_lookup_eq_some hd) x hx
  | none =>
    rw [hd, Option.getD_none, List.mem_singleton] at hx
    subst hx
    -- a name that no variable describes is an input of the scope
    have hv : sc.vars.lookup x = none := by
      cases hvl : sc.vars.lookup x with
      | none => rfl
      | some t => simpa [hd] using h.vars x (by simp [hvl])
    simp only [Scope.lookup, hv, Option.isSome_map, h.scope] at hn
    obtain ⟨i, hi⟩ := Option.isSome_iff_exists.mp hn
    have hname : i.name = x := by simpa using List.find?_some hi
    exact List.mem_map.mpr ⟨i, List.mem_of_find?_eq_some hi, hname⟩

/-- The variables the checker finds no fault in depend on inputs only. -/
theorem OfInputs.varFaults {vars : List LetVar} (h : OfInputs s deps sc)
    (hv : (s.varFaults sc vars).1 = []) : OfInputs s (vars.foldl push deps) (s.varFaults sc vars).2 := by
  induction vars generalizing deps sc with
  | nil => exact h
  | cons v vs ih =>
    rcases hi : infer sc v.expr with ⟨t, fs⟩
    simp only [Schedule.varFaults, hi, List.append_eq_nil_iff] at hv ⊢
    have hfs : (infer sc v.expr).2 = [] := by rw [hi]; exact hv.1.2
    -- the new variable's dependencies are inputs, and the scope grows by it at most
    have hstep : ∀ sc' : Scope, sc'.inputs = sc.inputs →
        (∀ n, (sc'.vars.lookup n).isSome → n = v.name ∨ (sc.vars.lookup n).isSome) →
        OfInputs s (push deps v) sc' := by
      intro sc' hin hvars
      refine ⟨?_, ?_, by rw [hin, h.scope]⟩
      · intro p hp x hx
        simp only [push, List.mem_cons] at hp
        rcases hp with rfl | hp
        · obtain ⟨n, hn, hx⟩ := mem_expand.mp hx
          exact h.expand (refs_in_scope v.expr hfs n hn) x hx
        · exact h.inputs p hp x hx
      · intro n hn
        by_cases hnv : n = v.name
        · simp [push, hnv]
        · have hsc := (hvars n hn).resolve_left hnv
          simpa [push, List.lookup_cons, beq_false_of_ne hnv] using h.vars n hsc
    cases t with
    | none => exact ih (hstep sc rfl fun n hn => .inr hn) hv.2
    | some t =>
      refine ih (hstep (sc.bind v.name t) rfl fun n hn => ?_) hv.2
      by_cases hnv : n = v.name
      · exact .inl hnv
      · exact .inr (by simpa [Scope.bind, List.lookup_cons, beq_false_of_ne hnv] using hn)

end Dependencies

theorem caseFaults_conditions {sc : Scope} :
    ∀ {i : Nat} {fb : Option Nat} {cs : List Case}, Schedule.caseFaults sc i fb cs = [] →
      ∀ c ∈ cs, ∀ cond, c.condition = some cond → (infer sc cond).2 = []
  | _, _, [], _ => by simp
  | i, fb, c :: cs, h => by
    rcases hi : infer sc c.expr with ⟨t, fs⟩
    intro c' hc' cond hcond
    simp only [Schedule.caseFaults, hi] at h
    split at h
    · rename_i hnone
      simp only [List.append_eq_nil_iff] at h
      rcases List.mem_cons.mp hc' with rfl | hc'
      · rw [hnone] at hcond
        cases hcond
      · exact caseFaults_conditions h.2 c' hc' cond hcond
    · rename_i cond' hsome
      rcases hci : infer sc cond' with ⟨ct, cfs⟩
      simp only [hci, List.append_eq_nil_iff] at h
      rcases List.mem_cons.mp hc' with rfl | hc'
      · rw [hsome, Option.some.injEq] at hcond
        subst hcond
        rw [hci]
        exact h.1.1.2
      · exact caseFaults_conditions h.2 c' hc' cond hcond

/-- In a checked schedule, every name a condition of a fee reads, through the fee's
variables, is an input. -/
theorem Schedule.Checked.reads_inputs {s : Schedule} (h : s.Checked) {f : Fee} (hf : f ∈ s.fees) :
    ∀ c ∈ f.cases, ∀ cond, c.condition = some cond →
      ∀ x ∈ f.dependencies.reads cond, x ∈ s.inputNames := by
  intro c hc cond hcond x hx
  have hstart : Dependencies.OfInputs s [] (Scope.ofInputs s.inputs) :=
    ⟨by simp, by simp [Scope.ofInputs], rfl⟩
  have hdeps := hstart.varFaults (h.varFaults hf)
  have hcf := caseFaults_conditions (h.caseFaults hf) c hc cond hcond
  obtain ⟨n, hn, hx⟩ := Dependencies.mem_expand.mp hx
  exact hdeps.expand (refs_in_scope cond hcf n hn) x hx

/-! ### Agreeing environments -/

section Agree

variable {env₁ env₂ : Env}

mutual

/-- An expression has the same value in two environments that agree on the names it
references. -/
theorem evaluate_congr : (e : Expr) → (∀ n ∈ e.refs, env₁.lookup n = env₂.lookup n) →
    evaluate env₁ e = evaluate env₂ e
  | .num _, _ | .bool _, _ | .date _, _ | .sym _, _ => by simp [evaluate]
  | .ref n, h => by
    simp only [evaluate, h n (by simp [Expr.refs])]
  | .unary op x, h => by
    have hx := evaluate_congr x (by simpa [Expr.refs] using h)
    cases op <;> simp only [evaluate, hx]
  | .binary op l r, h => by
    have hl := evaluate_congr l fun n hn => h n (by simp [Expr.refs, hn])
    have hr := evaluate_congr r fun n hn => h n (by simp [Expr.refs, hn])
    cases op <;> simp only [evaluate, hl, hr]
  | .call f args, h => by
    have hargs := evaluateAll_congr args (by simpa [Expr.refs] using h)
    simp only [evaluate, hargs]

theorem evaluateAll_congr : (es : List Expr) →
    (∀ n ∈ Expr.refsAll es, env₁.lookup n = env₂.lookup n) →
    evaluateAll env₁ es = evaluateAll env₂ es
  | [], _ => by simp [evaluateAll]
  | e :: es, h => by
    have he := evaluate_congr e fun n hn => h n (by simp [Expr.refsAll, hn])
    have hes := evaluateAll_congr es fun n hn => h n (by simp [Expr.refsAll, hn])
    simp only [evaluateAll, he, hes]

end

/-- Two environments agree on every name whose dependencies lie in `X`. -/
def Env.AgreeThrough (deps : Dependencies) (X : List String) (env₁ env₂ : Env) : Prop :=
  ∀ n, (∀ x ∈ deps.expand [n], x ∈ X) → env₁.lookup n = env₂.lookup n

/-- Binding the variables in two environments that agree on `X` gives scopes that agree
on every name whose dependencies lie in `X`: a variable's value is computed from names
whose dependencies are its own. -/
theorem bindVars_agree {X : List String} :
    ∀ {vars : List LetVar} {deps : Dependencies} {env₁ env₂ sc₁ sc₂ : Env},
      Env.AgreeThrough deps X env₁ env₂ → bindVars env₁ vars = .ok sc₁ →
      bindVars env₂ vars = .ok sc₂ → Env.AgreeThrough (vars.foldl Dependencies.push deps) X sc₁ sc₂
  | [], _, _, _, _, _, h, h₁, h₂ => by
    cases h₁
    cases h₂
    exact h
  | v :: vs, deps, env₁, env₂, sc₁, sc₂, h, h₁, h₂ => by
    obtain ⟨x₁, hx₁, h₁⟩ := bind_eq_ok.mp h₁
    obtain ⟨x₂, hx₂, h₂⟩ := bind_eq_ok.mp h₂
    refine @bindVars_agree X vs (Dependencies.push deps v) _ _ sc₁ sc₂ (fun n hn => ?_) h₁ h₂
    by_cases hnv : n = v.name
    · -- the variable itself: its expression reads names the environments agree on
      subst hnv
      have hrefs : ∀ m ∈ v.expr.refs, env₁.lookup m = env₂.lookup m := fun m hm =>
        h m fun x hx => hn x (by
          simp only [Dependencies.push, Dependencies.expand_cons_self]
          exact Dependencies.mem_expand.mpr ⟨m, hm, hx⟩)
      rw [evaluate_congr v.expr hrefs, hx₂] at hx₁
      cases hx₁
      simp
    · rw [Dependencies.push, Dependencies.expand_cons_of_ne _ _ hnv] at hn
      simp [List.lookup_cons, beq_false_of_ne hnv, h n hn]

/-- If a case fires in the scope `sc₂`, one fires in every scope that agrees with it on
the names the conditions read, unless the search fails there. -/
theorem firstCase_fires_of_agree {fee : String} {last : Nat} {sc₁ sc₂ : Env} :
    ∀ {i : Nat} {cs : List Case} {tried₁ tried₂ : List (Option Bool)}
      {r₁ r₂ : Option (Nat × Decimal) × List (Option Bool)},
      (∀ c ∈ cs, ∀ cond, c.condition = some cond → ∀ m ∈ cond.refs, sc₁.lookup m = sc₂.lookup m) →
      firstCase fee sc₂ last i cs tried₂ = .ok r₂ → r₂.1.isSome →
      firstCase fee sc₁ last i cs tried₁ = .ok r₁ → r₁.1.isSome
  | _, [], _, _, _, _, _, h₂, hfired, _ => by
    simp only [firstCase, pure, Except.pure, Except.ok.injEq] at h₂
    subst h₂
    simp at hfired
  | i, c :: cs, tried₁, tried₂, r₁, r₂, hagree, h₂, hfired, h₁ => by
    cases hc : c.condition with
    | none =>
      obtain ⟨a, rfl⟩ := firstCase_fallback hc h₁
      rfl
    | some cond =>
      obtain ⟨holds₁, hv₁, h₁⟩ := firstCase_conditional hc h₁
      obtain ⟨holds₂, hv₂, h₂⟩ := firstCase_conditional hc h₂
      -- the condition has the same value in both scopes
      have hsame : holds₁ = holds₂ := by
        rw [evaluate_congr cond (hagree c List.mem_cons_self cond hc), hv₂] at hv₁
        cases hv₁
        rfl
      subst hsame
      cases holds₁ with
      | true =>
        obtain ⟨a, rfl⟩ := h₁
        rfl
      | false =>
        simp only [Bool.false_eq_true, if_false] at h₁ h₂
        exact firstCase_fires_of_agree (fun c' hc' => hagree c' (List.mem_cons_of_mem _ hc'))
          h₂ hfired h₁

/-- If a case of a fee fires in the environment `env₂`, one fires in every environment that
agrees with it on the names the conditions read through the variables, unless the fee fails
there. -/
theorem feeOutcome_fires_of_agree {f : Fee} {X : List String}
    (hreads : ∀ c ∈ f.cases, ∀ cond, c.condition = some cond → ∀ x ∈ f.dependencies.reads cond, x ∈ X)
    (hagree : ∀ n ∈ X, env₁.lookup n = env₂.lookup n) {o₁ o₂ : FeeOutcome}
    (h₂ : feeOutcome f env₂ = .ok o₂) (hfired : o₂.fired.isSome) (h₁ : feeOutcome f env₁ = .ok o₁) :
    o₁.fired.isSome := by
  obtain ⟨sc₁, r₁, hb₁, hc₁, -, hf₁, -, -⟩ := feeOutcome_ok h₁
  obtain ⟨sc₂, r₂, hb₂, hc₂, -, hf₂, -, -⟩ := feeOutcome_ok h₂
  -- the environments agree on the inputs, so the scopes agree on what the conditions read
  have hstart : Env.AgreeThrough [] X env₁ env₂ := fun n hn =>
    hagree n (hn n (by simp [Dependencies.expand]))
  have hscopes := bindVars_agree hstart hb₁ hb₂
  have hconds : ∀ c ∈ f.cases, ∀ cond, c.condition = some cond →
      ∀ m ∈ cond.refs, sc₁.lookup m = sc₂.lookup m := by
    intro c hc cond hcond m hm
    exact hscopes m fun x hx =>
      hreads c hc cond hcond x (Dependencies.mem_expand.mpr ⟨m, hm, hx⟩)
  rw [hf₂, Option.isSome_map] at hfired
  rw [hf₁, Option.isSome_map]
  exact firstCase_fires_of_agree hconds hc₂ hfired hc₁

end Agree

end FeeSchedule
