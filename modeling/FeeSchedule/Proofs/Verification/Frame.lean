import FeeSchedule.Proofs.Verification.Completeness
import FeeSchedule.Proofs.Composition.WellFormed

/-!
# `FeeSchedule.Proofs.Verification.Frame`: a fee reads only the inputs it is said to read

Verification names the inputs a fee reads anywhere (`Schedule.feeInputs`) and those its
conditions read (`Schedule.conditionInputs`), through the dependencies of the fee's
variables (`Fee.dependencies`). In a checked schedule both are sound: two environments that
agree on the inputs a fee reads evaluate it alike, failures included; two that agree on the
inputs its conditions read fire the same case with the same condition results, when both
evaluations succeed. So a monotonicity check of an input the fee does not read is
meaningless, and completeness needs only the combinations of the condition inputs.

* `Except.Alike R x y`: two results that fail with the same fault, or both succeed with
  values related by `R`; it is kept by `bind`.
* `bindVars_alike`: binding the variables in two environments that agree on the
  dependencies of every variable fails alike, or gives scopes that agree on each name whose
  dependencies they agree on.
* `firstCase_congr`: the cases give the same result in two scopes that agree on every name
  the cases read; `firstCase_tried_of_agree`: in scopes that agree on what the conditions
  read, two successful searches fire the same case and try the same conditions.
* `feeOutcome_congr`: a fee has the same outcome, or the same fault, in two environments
  that agree on its dependencies and on what its cases read.
* `Schedule.Checked.dependencies_feeInputs`, `Schedule.Checked.cases_feeInputs`: in a
  checked schedule the variables are distinct and read inputs only, so the inputs a fee
  reads hold all of that.
* `fee_reads_only_its_inputs`: the two frame properties of a fee of a checked schedule.
-/

set_option autoImplicit false

namespace FeeSchedule

open Evaluation FeeEvaluation

/-! ### Results that fail alike -/

/-- Two results that fail with the same fault, or both succeed with values related by `R`. -/
def Except.Alike {ε α : Type} (R : α → α → Prop) : Except ε α → Except ε α → Prop
  | .error e₁, .error e₂ => e₁ = e₂
  | .ok a₁, .ok a₂ => R a₁ a₂
  | _, _ => False

namespace Except.Alike

variable {ε α β : Type} {R : α → α → Prop} {S : β → β → Prop}

theorem of_eq {x y : Except ε α} (h : x = y) (hR : ∀ a, R a a) : Except.Alike R x y := by
  subst h
  cases x with
  | error e => rfl
  | ok a => exact hR a

/-- Results alike for equality are equal. -/
theorem eq {x y : Except ε α} (h : Except.Alike (· = ·) x y) : x = y := by
  cases x with
  | error e₁ =>
    cases y with
    | error e₂ => exact congrArg Except.error h
    | ok _ => cases h
  | ok a₁ =>
    cases y with
    | error _ => cases h
    | ok a₂ => exact congrArg Except.ok h

/-- Continuations that take related values to alike results keep alike results alike. -/
theorem bind {x₁ x₂ : Except ε α} {f₁ f₂ : α → Except ε β} (h : Except.Alike R x₁ x₂)
    (hf : ∀ a₁ a₂, R a₁ a₂ → Except.Alike S (f₁ a₁) (f₂ a₂)) :
    Except.Alike S (x₁ >>= f₁) (x₂ >>= f₂) := by
  cases x₁ with
  | error e₁ =>
    cases x₂ with
    | error e₂ => exact h
    | ok _ => cases h
  | ok a₁ =>
    cases x₂ with
    | error _ => cases h
    | ok a₂ => exact hf a₁ a₂ h

end Except.Alike

/-! ### The dependencies of the variables -/

namespace Dependencies

theorem mem_foldl_push {p : String × List String} :
    ∀ {vars : List LetVar} {deps : Dependencies}, p ∈ deps → p ∈ vars.foldl push deps
  | [], _, h => h
  | v :: vs, deps, h => @mem_foldl_push p vs (push deps v) (List.mem_cons_of_mem _ h)

/-- The variables are named in the dependencies last first, before the names there were. -/
theorem keys_foldl_push :
    ∀ {vars : List LetVar} {deps : Dependencies},
      (vars.foldl push deps).map Prod.fst = (vars.map (·.name)).reverse ++ deps.map Prod.fst
  | [], _ => rfl
  | v :: vs, deps => by
    rw [List.foldl_cons, keys_foldl_push]
    simp [push]

end Dependencies

theorem Fee.dependencies_eq (f : Fee) : f.dependencies = f.vars.foldl Dependencies.push [] := rfl

/-- The names of the variables are exactly the names the dependencies describe. -/
theorem Fee.lookup_dependencies_isSome {f : Fee} {v : LetVar} (hv : v ∈ f.vars) :
    (f.dependencies.lookup v.name).isSome := by
  have hkey : v.name ∈ f.dependencies.map Prod.fst := by
    rw [Fee.dependencies_eq, Dependencies.keys_foldl_push]
    simpa using ⟨v, hv, rfl⟩
  obtain ⟨p, hp, hname⟩ := List.mem_map.mp hkey
  exact List.lookup_isSome_iff.mpr ⟨p, hp, by simp [hname]⟩

/-! ### Scopes that agree -/

section Agree

variable {X : List String} {env₁ env₂ : Env}

/-- A variable bound to one value in two environments keeps them in agreement. -/
theorem Env.AgreeThrough.push {deps : Dependencies} (h : Env.AgreeThrough deps X env₁ env₂)
    (v : LetVar) (x : Value) :
    Env.AgreeThrough (Dependencies.push deps v) X ((v.name, x) :: env₁) ((v.name, x) :: env₂) := by
  intro n hn
  by_cases hnv : n = v.name
  · subst hnv
    simp
  · rw [Dependencies.push, Dependencies.expand_cons_of_ne _ _ hnv] at hn
    simp [List.lookup_cons, beq_false_of_ne hnv, h n hn]

/-- Binding the variables in two environments that agree on the dependencies of every
variable fails with the same fault in both, or gives scopes that agree on every name whose
dependencies they agree on. The induction runs over the variables; each is evaluated to the
same result in both, since it reads only names whose dependencies are its own. -/
theorem bindVars_alike :
    ∀ {vars : List LetVar} {deps : Dependencies} {env₁ env₂ : Env},
      (∀ p ∈ vars.foldl Dependencies.push deps, ∀ x ∈ p.2, x ∈ X) →
      Env.AgreeThrough deps X env₁ env₂ →
      Except.Alike (Env.AgreeThrough (vars.foldl Dependencies.push deps) X)
        (bindVars env₁ vars) (bindVars env₂ vars)
  | [], _, _, _, _, h => h
  | v :: vs, deps, env₁, env₂, hdeps, h => by
    -- the names the variable reads depend on what its own dependencies hold
    have hread : ∀ m ∈ v.expr.refs, env₁.lookup m = env₂.lookup m := fun m hm =>
      h m fun x hx => hdeps (v.name, deps.expand v.expr.refs)
        (@Dependencies.mem_foldl_push _ vs (Dependencies.push deps v) List.mem_cons_self) x
        (Dependencies.mem_expand.mpr ⟨m, hm, hx⟩)
    simp only [bindVars]
    rw [evaluate_congr v.expr hread]
    refine Except.Alike.bind (R := (· = ·)) (Except.Alike.of_eq rfl fun _ => rfl) ?_
    rintro x _ rfl
    exact bindVars_alike hdeps (h.push v x)

/-- The search through the cases gives the same result in two scopes that agree on every
name the amounts and conditions of the cases read. -/
theorem firstCase_congr {fee : String} {last : Nat} {sc₁ sc₂ : Env} :
    ∀ {i : Nat} {cs : List Case} {tried : List (Option Bool)},
      (∀ c ∈ cs, ∀ m ∈ c.expr.refs ++ (c.condition.map Expr.refs).getD [],
        sc₁.lookup m = sc₂.lookup m) →
      firstCase fee sc₁ last i cs tried = firstCase fee sc₂ last i cs tried
  | _, [], _, _ => rfl
  | i, c :: cs, tried, h => by
    have hexpr := evaluate_congr c.expr fun m hm =>
      h c List.mem_cons_self m (List.mem_append_left _ hm)
    have hrest : ∀ j t, firstCase fee sc₁ last j cs t = firstCase fee sc₂ last j cs t :=
      fun _ _ => firstCase_congr fun c' hc' => h c' (List.mem_cons_of_mem _ hc')
    cases hc : c.condition with
    | none => simp only [firstCase, hc, hexpr]
    | some cond =>
      have hcond := evaluate_congr cond fun m hm =>
        h c List.mem_cons_self m (List.mem_append_right _ (by simpa [hc] using hm))
      simp only [firstCase, hc, hexpr, hcond, hrest]

theorem mem_of_mem_distinct {n : String} {ns : List String} (h : n ∈ distinct ns) : n ∈ ns := by
  -- the names kept so far are names of the list
  have hstep : ∀ (acc : List String) (ms : List String), (∀ m ∈ acc, m ∈ ns) → (∀ m ∈ ms, m ∈ ns) →
      ∀ m ∈ ms.foldl (fun acc n => if acc.contains n then acc else acc ++ [n]) acc, m ∈ ns := by
    intro acc ms hacc hms
    induction ms generalizing acc with
    | nil => exact hacc
    | cons m ms ih =>
      refine ih _ ?_ fun k hk => hms k (List.mem_cons_of_mem _ hk)
      dsimp only
      split
      · exact hacc
      · intro k hk
        rcases List.mem_append.mp hk with hk | hk
        · exact hacc k hk
        · rw [List.mem_singleton.mp hk]
          exact hms m List.mem_cons_self
  exact hstep [] ns (by simp) (fun _ => id) n h

/-- A fee has the same outcome, or fails with the same fault, in two environments that agree
on the dependencies of its variables and on the names its cases read through them. -/
theorem feeOutcome_congr {f : Fee}
    (hdeps : ∀ p ∈ f.dependencies, ∀ x ∈ p.2, x ∈ X)
    (hreads : ∀ c ∈ f.cases, ∀ x ∈ f.dependencies.reads c.expr
      ++ (c.condition.map f.dependencies.reads).getD [], x ∈ X)
    (hagree : ∀ x ∈ X, env₁.lookup x = env₂.lookup x) : feeOutcome f env₁ = feeOutcome f env₂ := by
  have hstart : Env.AgreeThrough [] X env₁ env₂ := fun n hn =>
    hagree n (hn n (by simp [Dependencies.expand]))
  unfold feeOutcome
  refine Except.Alike.eq (Except.Alike.bind (bindVars_alike hdeps hstart) fun sc₁ sc₂ hsc => ?_)
  rw [← Fee.dependencies_eq] at hsc
  -- the scopes agree on every name a case reads, and on the variables
  have hcases : ∀ c ∈ f.cases, ∀ m ∈ c.expr.refs ++ (c.condition.map Expr.refs).getD [],
      sc₁.lookup m = sc₂.lookup m := by
    intro c hc m hm
    refine hsc m fun x hx => hreads c hc x ?_
    rcases List.mem_append.mp hm with hm | hm
    · exact List.mem_append_left _ (Dependencies.mem_expand.mpr ⟨m, hm, hx⟩)
    · cases hcond : c.condition with
      | none => simp [hcond] at hm
      | some cond =>
        simp only [hcond, Option.map_some, Option.getD_some] at hm ⊢
        exact List.mem_append_right _ (Dependencies.mem_expand.mpr ⟨m, hm, hx⟩)
  have hvars : ∀ n ∈ f.vars.map (·.name), sc₁.lookup n = sc₂.lookup n := by
    intro n hn
    obtain ⟨v, hv, rfl⟩ := List.mem_map.mp hn
    obtain ⟨ds, hds⟩ := Option.isSome_iff_exists.mp (Fee.lookup_dependencies_isSome hv)
    refine hsc v.name fun x hx => hdeps (v.name, ds) (Dependencies.mem_of_lookup_eq_some hds) x ?_
    simpa [Dependencies.expand, hds] using hx
  rw [firstCase_congr hcases, List.map_congr_left fun n hn => by
    rw [hvars n (mem_of_mem_distinct hn)]]
  exact Except.Alike.of_eq rfl fun _ => rfl

/-- Two searches through the cases that both succeed in scopes agreeing on what the
conditions read fire the same case and report the same conditions: the conditions decide
alike, case after case, up to the one that fires. -/
theorem firstCase_tried_of_agree {fee : String} {last : Nat} {sc₁ sc₂ : Env} :
    ∀ {i : Nat} {cs : List Case} {tried : List (Option Bool)}
      {r₁ r₂ : Option (Nat × Decimal) × List (Option Bool)},
      (∀ c ∈ cs, ∀ cond, c.condition = some cond → ∀ m ∈ cond.refs, sc₁.lookup m = sc₂.lookup m) →
      firstCase fee sc₁ last i cs tried = .ok r₁ → firstCase fee sc₂ last i cs tried = .ok r₂ →
      r₁.1.map Prod.fst = r₂.1.map Prod.fst ∧ r₁.2 = r₂.2
  | _, [], _, r₁, r₂, _, h₁, h₂ => by
    simp only [firstCase, pure, Except.pure, Except.ok.injEq] at h₁ h₂
    subst h₁ h₂
    exact ⟨rfl, rfl⟩
  | i, c :: cs, tried, r₁, r₂, hagree, h₁, h₂ => by
    cases hc : c.condition with
    | none =>
      obtain ⟨a₁, rfl⟩ := firstCase_fallback hc h₁
      obtain ⟨a₂, rfl⟩ := firstCase_fallback hc h₂
      exact ⟨rfl, rfl⟩
    | some cond =>
      obtain ⟨holds₁, hv₁, h₁⟩ := firstCase_conditional hc h₁
      obtain ⟨holds₂, hv₂, h₂⟩ := firstCase_conditional hc h₂
      -- the condition decides alike in both scopes
      have hsame : holds₁ = holds₂ := by
        rw [evaluate_congr cond (hagree c List.mem_cons_self cond hc), hv₂] at hv₁
        cases hv₁
        rfl
      subst hsame
      cases holds₁ with
      | true =>
        obtain ⟨a₁, rfl⟩ := h₁
        obtain ⟨a₂, rfl⟩ := h₂
        exact ⟨rfl, rfl⟩
      | false =>
        simp only [Bool.false_eq_true, if_false] at h₁ h₂
        exact firstCase_tried_of_agree (fun c' hc' => hagree c' (List.mem_cons_of_mem _ hc'))
          h₁ h₂

/-- A fee evaluated successfully in two environments that agree on the names its conditions
read through its variables fires the same case with the same condition results. -/
theorem feeOutcome_tried_of_agree {f : Fee}
    (hreads : ∀ c ∈ f.cases, ∀ cond, c.condition = some cond →
      ∀ x ∈ f.dependencies.reads cond, x ∈ X)
    (hagree : ∀ x ∈ X, env₁.lookup x = env₂.lookup x) {o₁ o₂ : FeeOutcome}
    (h₁ : feeOutcome f env₁ = .ok o₁) (h₂ : feeOutcome f env₂ = .ok o₂) :
    o₁.fired = o₂.fired ∧ o₁.conditions = o₂.conditions := by
  obtain ⟨sc₁, r₁, hb₁, hc₁, -, hf₁, hcond₁, -⟩ := feeOutcome_ok h₁
  obtain ⟨sc₂, r₂, hb₂, hc₂, -, hf₂, hcond₂, -⟩ := feeOutcome_ok h₂
  have hstart : Env.AgreeThrough [] X env₁ env₂ := fun n hn =>
    hagree n (hn n (by simp [Dependencies.expand]))
  have hscopes := bindVars_agree hstart hb₁ hb₂
  have hconds : ∀ c ∈ f.cases, ∀ cond, c.condition = some cond →
      ∀ m ∈ cond.refs, sc₁.lookup m = sc₂.lookup m := fun c hc cond hcond m hm =>
    hscopes m fun x hx => hreads c hc cond hcond x (Dependencies.mem_expand.mpr ⟨m, hm, hx⟩)
  obtain ⟨hfired, htried⟩ := firstCase_tried_of_agree hconds hc₁ hc₂
  exact ⟨by rw [hf₁, hf₂, hfired], by rw [hcond₁, hcond₂, htried]⟩

end Agree

/-! ### The inputs a fee reads -/

theorem caseFaults_amounts {sc : Scope} :
    ∀ {i : Nat} {fb : Option Nat} {cs : List Case}, Schedule.caseFaults sc i fb cs = [] →
      ∀ c ∈ cs, (infer sc c.expr).2 = []
  | _, _, [], _ => by simp
  | i, fb, c :: cs, h => by
    rcases hi : infer sc c.expr with ⟨t, fs⟩
    intro c' hc'
    simp only [Schedule.caseFaults, hi] at h
    split at h
    · simp only [List.append_eq_nil_iff] at h
      rcases List.mem_cons.mp hc' with rfl | hc'
      · rw [hi]
        exact h.1.1.2
      · exact caseFaults_amounts h.2 c' hc'
    · rename_i cond' _
      rcases hci : infer sc cond' with ⟨ct, cfs⟩
      simp only [hci, List.append_eq_nil_iff] at h
      rcases List.mem_cons.mp hc' with rfl | hc'
      · rw [hi]
        exact h.1.1.1.1.2
      · exact caseFaults_amounts h.2 c' hc'

theorem Schedule.mem_feeInputs {s : Schedule} {f : Fee} {x : String} :
    x ∈ s.feeInputs f ↔ x ∈ s.inputNames ∧
      ((∃ v ∈ f.vars, x ∈ (f.dependencies.lookup v.name).getD []) ∨
        ∃ c ∈ f.cases, x ∈ f.dependencies.reads c.expr
          ++ (c.condition.map f.dependencies.reads).getD []) := by
  simp [Schedule.feeInputs, List.mem_flatMap]

namespace Schedule.Checked

variable {s : Schedule} (hs : s.Checked) {f : Fee} (hf : f ∈ s.fees)
include hs hf

/-- The variables of a fee of a checked schedule have distinct names: a repeat is an error. -/
theorem varsNodup : (f.vars.map (·.name)).Nodup := by
  have hfaults : ∀ x ∈ duplicateFaults "Variable" (f.vars.map (·.name)), x = .noCases := by
    intro x hx
    refine hs.feeFaults hf x ?_
    rcases hv : s.varFaults (Scope.ofInputs s.inputs) f.vars with ⟨vfs, sc'⟩
    simp only [Schedule.feeFaults, hv, List.mem_append]
    exact .inl (.inl (.inl (.inr hx)))
  exact duplicateFaults_eq_nil_iff.mp (eq_nil_of_noCases hfaults noCases_not_mem_duplicateFaults)

/-- The dependencies of the variables of a fee of a checked schedule stand for inputs, beside
the scope the checker ends its variables with. -/
theorem ofInputs :
    Dependencies.OfInputs s f.dependencies (s.varFaults (Scope.ofInputs s.inputs) f.vars).2 :=
  Dependencies.OfInputs.varFaults ⟨by simp, by simp [Scope.ofInputs], rfl⟩ (hs.varFaults hf)

/-- The dependencies of the variables of a fee of a checked schedule are inputs. -/
theorem dependencies_inputs : ∀ p ∈ f.dependencies, ∀ x ∈ p.2, x ∈ s.inputNames :=
  (hs.ofInputs hf).inputs

/-- Every dependency of a variable is an input the fee reads: the variables are distinct,
so each pair of the dependencies is the one its name finds. -/
theorem dependencies_feeInputs : ∀ p ∈ f.dependencies, ∀ x ∈ p.2, x ∈ s.feeInputs f := by
  intro p hp x hx
  have hkeys : (f.dependencies.map Prod.fst).Nodup := by
    rw [Fee.dependencies_eq, Dependencies.keys_foldl_push]
    simpa using (hs.varsNodup hf)
  have hkey : p.1 ∈ (f.vars.map (·.name)).reverse := by
    have := List.mem_map_of_mem (f := Prod.fst) hp
    rwa [Fee.dependencies_eq, Dependencies.keys_foldl_push, List.map_nil, List.append_nil] at this
  obtain ⟨v, hv, hname⟩ := List.mem_map.mp (List.mem_reverse.mp hkey)
  refine Schedule.mem_feeInputs.mpr ⟨hs.dependencies_inputs hf p hp x hx, .inl ⟨v, hv, ?_⟩⟩
  rw [hname, lookup_of_mem_of_nodup hkeys hp]
  exact hx

/-- Everything the cases of a fee of a checked schedule read, through its variables, is an
input the fee reads. -/
theorem cases_feeInputs : ∀ c ∈ f.cases, ∀ x ∈ f.dependencies.reads c.expr
    ++ (c.condition.map f.dependencies.reads).getD [], x ∈ s.feeInputs f := by
  intro c hc x hx
  refine Schedule.mem_feeInputs.mpr ⟨?_, .inr ⟨c, hc, hx⟩⟩
  rcases List.mem_append.mp hx with hx | hx
  · obtain ⟨n, hn, hx⟩ := Dependencies.mem_expand.mp hx
    exact (hs.ofInputs hf).expand
      (refs_in_scope c.expr (caseFaults_amounts (hs.caseFaults hf) c hc) n hn) x hx
  · cases hcond : c.condition with
    | none => simp [hcond] at hx
    | some cond =>
      simp only [hcond, Option.map_some, Option.getD_some] at hx
      exact hs.reads_inputs hf c hc cond hcond x hx

end Schedule.Checked

/-- What a fee of a checked schedule gives depends on the inputs it reads and on nothing
else. Two environments that agree on the inputs the fee reads anywhere evaluate it alike:
both fail with the same fault, or both give the same outcome, so the same contribution,
case fired, condition results and variable values. Two environments that agree on the
inputs its conditions read fire the same case with the same condition results, when both
evaluations succeed. -/
theorem fee_reads_only_its_inputs {s : Schedule} (hs : s.Checked) {f : Fee} (hf : f ∈ s.fees)
    (env₁ env₂ : Env) :
    ((∀ x ∈ s.feeInputs f, env₁.lookup x = env₂.lookup x) →
      evaluateFee f env₁ = evaluateFee f env₂) ∧
    ((∀ x ∈ s.conditionInputs f, env₁.lookup x = env₂.lookup x) →
      ∀ o₁ o₂ : FeeOutcome, (evaluateFee f env₁).run'.1 = .ok o₁ →
        (evaluateFee f env₂).run'.1 = .ok o₂ →
        o₁.fired = o₂.fired ∧ o₁.conditions = o₂.conditions) := by
  constructor
  · intro hagree
    have hsame := feeOutcome_congr (hs.dependencies_feeInputs hf) (hs.cases_feeInputs hf) hagree
    unfold evaluateFee
    rw [hsame]
  · intro hagree o₁ o₂ h₁ h₂
    rw [Traced.run'_eq_run, evaluateFee_run] at h₁ h₂
    -- the conditions read condition inputs only
    have hreads : ∀ c ∈ f.cases, ∀ cond, c.condition = some cond →
        ∀ x ∈ f.dependencies.reads cond, x ∈ s.conditionInputs f :=
      fun c hc cond hcond x hx => Schedule.mem_conditionInputs.mpr
        ⟨hs.reads_inputs hf c hc cond hcond x hx, c, hc, cond, hcond, hx⟩
    exact feeOutcome_tried_of_agree hreads hagree h₁ h₂

/-- A schedule whose filing fee reads the number of claims through a variable, and never the
flag for expedited examination. -/
def claimsSchedule : Schedule :=
  ⟨[⟨"claims", "Claims", .number (Decimal.ofNat 1) (Decimal.ofNat 50) (Decimal.ofNat 10), none⟩,
      ⟨"expedite", "Expedited examination", .boolean false, none⟩],
    [⟨"filing", [⟨.binary .mul (.ref "extra") (.num (Decimal.ofNat 25)),
          some (.binary .gt (.ref "claims") (.num (Decimal.ofNat 10)))⟩,
        ⟨.num Decimal.zero, none⟩],
      [⟨"extra", .binary .sub (.ref "claims") (.num (Decimal.ofNat 10))⟩], false, none⟩],
    [], [], [], none⟩

/-- The filing fee is evaluated alike whether or not examination is expedited. -/
theorem filing_fee_ignores_expedite :
    claimsSchedule.Checked ∧ (∃ f ∈ claimsSchedule.fees,
      evaluateFee f [("claims", .num (Decimal.ofNat 12)), ("expedite", .bool true)] =
        evaluateFee f [("claims", .num (Decimal.ofNat 12)), ("expedite", .bool false)]) := by
  have hchecked : claimsSchedule.Checked := by
    unfold Schedule.Checked
    decide +kernel
  refine ⟨hchecked, _, List.mem_singleton_self _, ?_⟩
  exact (fee_reads_only_its_inputs hchecked (List.mem_singleton_self _) _ _).1 (by decide +kernel)

end FeeSchedule
