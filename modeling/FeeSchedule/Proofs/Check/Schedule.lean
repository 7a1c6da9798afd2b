import FeeSchedule.Proofs.Check.Soundness
import FeeSchedule.Proofs.Composition.Merge
import FeeSchedule.Proofs.Evaluation.Provenance

/-!
# `FeeSchedule.Proofs.Check.Schedule`: accepted schedules evaluate without confusion

A schedule is accepted when it is read from a text without errors, or composed from a
registry whose schedules are all accepted (`Schedule.Accepted`). In an environment that
gives every input a value of its kind (`Env.FitsInputs`), evaluating any fee of an accepted
schedule, and any return condition, fails only for an arithmetic reason. The theorems:

* `noCases_not_mem_infer`: the checker's only warning, a fee without cases, is never a
  fault of an expression; so a schedule without errors (`Schedule.Checked`) has no fault
  at all in its variables, cases and return conditions (`Schedule.Checked.varFaults`,
  `Schedule.Checked.caseFaults`, `Schedule.Checked.returnFaults`).
* `safe_feeOutcome`: a fee of a checked schedule with finite literals evaluates to a finite
  contribution or fails for an arithmetic reason. Its variables are evaluated in the
  scope the checker typed them in (`FeeEvaluation.safe_bindVars`); no case without
  condition stands before the last (`FeeEvaluation.safe_firstCase`).
* `Schedule.Accepted.checked`, `Schedule.Accepted.numbersFinite`: accepted schedules are
  checked and have finite literals; a composition is checked again when it merges.
* `accepted_evaluation_safe`: the evaluation safety of accepted schedules.
-/

set_option autoImplicit false

namespace FeeSchedule

/-! ### The checker's only warning -/

section NoCases

variable {sc : Scope}

theorem noCases_not_mem_mismatch {t : Option ExprType} {e : ExprType}
    {f : ExprType → TypeFault} (hf : ∀ u, f u ≠ .noCases) : TypeFault.noCases ∉ mismatch t e f := by
  unfold mismatch
  split
  · split
    · simp
    · simp only [List.mem_singleton]
      exact fun h => hf _ h.symm
  · simp

theorem noCases_not_mem_checkSymbol {s : String} {t : ExprType} :
    TypeFault.noCases ∉ sc.checkSymbol s t := by
  unfold Scope.checkSymbol
  dsimp only
  split <;> simp

theorem noCases_not_mem_comparisonFaults {op : BinaryOp} {l r : Option ExprType} :
    TypeFault.noCases ∉ comparisonFaults op l r := by
  unfold comparisonFaults
  split
  · split
    · split <;> simp
    · split <;> simp
  · simp

theorem noCases_not_mem_arithmeticFaults {op : BinaryOp} {l r : Option ExprType} :
    TypeFault.noCases ∉ arithmeticFaults op l r := by
  unfold arithmeticFaults
  split
  · split
    · simp
    · split <;> simp
  · simp

theorem noCases_not_mem_callFaults {f : Builtin} {ts : List (Option ExprType)} :
    TypeFault.noCases ∉ callFaults f ts := by
  unfold callFaults
  cases f <;> dsimp only
  case count =>
    split
    · split <;> simp
    · simp
    · simp
  all_goals
    simp only [List.mem_append, List.mem_flatMap, not_or, not_exists, not_and]
    exact ⟨by split <;> simp, fun p _ => noCases_not_mem_mismatch fun _ => by simp⟩

theorem noCases_not_mem_symbolComparison {op : BinaryOp} {s : String}
    {o : Option ExprType × List TypeFault} (ho : TypeFault.noCases ∉ o.2) :
    TypeFault.noCases ∉ symbolComparison sc op s o := by
  unfold symbolComparison
  simp only [List.mem_append, not_or]
  refine ⟨ho, ?_⟩
  split
  · simp
  · split
    · exact noCases_not_mem_checkSymbol
    · simp

mutual

/-- No expression has a case-less fee as a fault: the checker's only warning is about
fees, never about what an expression holds. -/
theorem noCases_not_mem_infer : (e : Expr) → TypeFault.noCases ∉ (infer sc e).2
  | .num _ | .bool _ | .date _ | .sym _ => by simp [infer]
  | .ref n => by
    simp only [infer]
    split <;> simp
  | .unary op x => by
    have ih := noCases_not_mem_infer x
    rw [infer.eq_def]
    rcases hx : infer sc x with ⟨t, fs⟩
    rw [hx] at ih
    dsimp only at ih ⊢
    simp only [hx, List.mem_append, not_or]
    exact ⟨ih, noCases_not_mem_mismatch fun _ => by simp⟩
  | .binary op l r => by
    have hl := noCases_not_mem_infer l
    have hr := noCases_not_mem_infer r
    rw [infer.eq_def]
    rcases hil : infer sc l with ⟨lt, f1⟩
    rcases hir : infer sc r with ⟨rt, f2⟩
    rw [hil] at hl
    rw [hir] at hr
    dsimp only at hl hr ⊢
    -- the three groups of operators, as `infer` splits them
    split
    · split
      · exact noCases_not_mem_symbolComparison (by rw [hir]; exact hr)
      · exact noCases_not_mem_symbolComparison (by rw [hil]; exact hl)
      · simp only [hil, hir, List.mem_append, not_or]
        exact ⟨⟨hl, hr⟩, noCases_not_mem_comparisonFaults⟩
    · split
      · simp only [hil, List.mem_append, not_or]
        refine ⟨hl, ?_⟩
        split
        · split
          · simp
          · split
            · exact noCases_not_mem_checkSymbol
            · simp
        · simp
      · simp only [hil, hir]
        split
        · simp only [List.mem_append, not_or]
          exact ⟨⟨⟨hl, hr⟩, noCases_not_mem_mismatch fun _ => by simp⟩,
            noCases_not_mem_mismatch fun _ => by simp⟩
        · simp only [List.mem_append, not_or]
          exact ⟨⟨hl, hr⟩, noCases_not_mem_arithmeticFaults⟩
  | .call f args => by
    have hargs := noCases_not_mem_inferAll args
    rw [infer.eq_def]
    simp only [List.mem_append, List.mem_flatMap, not_or, not_exists, not_and]
    exact ⟨fun r hr => hargs r hr, noCases_not_mem_callFaults⟩

theorem noCases_not_mem_inferAll :
    (es : List Expr) → ∀ r ∈ inferAll sc es, TypeFault.noCases ∉ r.2
  | [] => by simp [inferAll]
  | e :: es => by
    have he := noCases_not_mem_infer e
    have hes := noCases_not_mem_inferAll es
    intro r hr
    simp only [inferAll, List.mem_cons] at hr
    rcases hr with rfl | hr
    · exact he
    · exact hes r hr

end

theorem noCases_not_mem_varFaults (s : Schedule) {vars : List LetVar} :
    TypeFault.noCases ∉ (s.varFaults sc vars).1 := by
  induction vars generalizing sc with
  | nil => simp [Schedule.varFaults]
  | cons v vs ih =>
    have hv := @noCases_not_mem_infer sc v.expr
    rcases hi : infer sc v.expr with ⟨t, fs⟩
    rw [hi] at hv
    simp only [Schedule.varFaults, hi, List.mem_append, not_or]
    exact ⟨⟨by split <;> simp, hv⟩, ih⟩

theorem noCases_not_mem_caseFaults {i : Nat} {fb : Option Nat} {cs : List Case} :
    TypeFault.noCases ∉ Schedule.caseFaults sc i fb cs := by
  induction cs generalizing i fb with
  | nil => simp [Schedule.caseFaults]
  | cons c cs ih =>
    have he := @noCases_not_mem_infer sc c.expr
    rcases hi : infer sc c.expr with ⟨t, fs⟩
    rw [hi] at he
    simp only [Schedule.caseFaults, hi]
    -- the fault of an unreachable case is split in the goal, whose `match` is the checker's
    split
    · simp only [List.mem_append, not_or]
      refine ⟨⟨⟨?_, he⟩, noCases_not_mem_mismatch fun _ => by simp⟩, ih⟩
      split <;> simp
    · rename_i cond _
      have hc := @noCases_not_mem_infer sc cond
      rcases hci : infer sc cond with ⟨ct, cfs⟩
      rw [hci] at hc
      simp only [List.mem_append, not_or]
      refine ⟨⟨⟨⟨⟨?_, he⟩, noCases_not_mem_mismatch fun _ => by simp⟩, hc⟩,
        noCases_not_mem_mismatch fun _ => by simp⟩, ih⟩
      split <;> simp

end NoCases

/-! ### Schedules without errors -/

/-- The checker reports no error for the schedule; warnings may remain. -/
def Schedule.Checked (s : Schedule) : Prop := ∀ d ∈ s.check, d.isError = false

/-- An environment gives every input a value of its kind. -/
def Env.FitsInputs (env : Env) (inputs : List Input) : Prop :=
  ∀ i ∈ inputs, ∃ v, env.lookup i.name = some v ∧ v.Fits i.exprType.kind

theorem TypeFault.eq_noCases_of_severity {x : TypeFault} (h : x.severity ≠ .error) :
    x = .noCases := by
  cases x <;> simp_all [TypeFault.severity]

/-- A list of faults that holds only warnings, but no case-less fee, is empty. -/
theorem eq_nil_of_noCases {l : List TypeFault} (h : ∀ x ∈ l, x = .noCases)
    (hn : TypeFault.noCases ∉ l) : l = [] :=
  List.eq_nil_iff_forall_not_mem.mpr fun x hx => hn (h x hx ▸ hx)

namespace Schedule

variable {s : Schedule}

theorem Checked.feeFaults (h : s.Checked) {f : Fee} (hf : f ∈ s.fees) :
    ∀ x ∈ s.feeFaults f, x = .noCases := by
  intro x hx
  apply TypeFault.eq_noCases_of_severity
  have hd := h (Diagnostic.ofFault (some ("fee " ++ f.name)) x) (by
    simp only [check, List.mem_append, List.mem_flatMap, List.mem_map]
    exact .inl (.inl (.inr ⟨f, hf, x, hx, rfl⟩)))
  simpa [Diagnostic.isError, Diagnostic.ofFault] using hd

theorem Checked.varFaults (h : s.Checked) {f : Fee} (hf : f ∈ s.fees) :
    (s.varFaults (Scope.ofInputs s.inputs) f.vars).1 = [] := by
  refine eq_nil_of_noCases (fun x hx => h.feeFaults hf x ?_) (noCases_not_mem_varFaults s)
  rcases hv : s.varFaults (Scope.ofInputs s.inputs) f.vars with ⟨vfs, sc'⟩
  rw [hv] at hx
  simp only [Schedule.feeFaults, hv, List.mem_append]
  exact .inl (.inl (.inr hx))

theorem Checked.caseFaults (h : s.Checked) {f : Fee} (hf : f ∈ s.fees) :
    Schedule.caseFaults (s.varFaults (Scope.ofInputs s.inputs) f.vars).2 0 none f.cases = [] := by
  refine eq_nil_of_noCases (fun x hx => h.feeFaults hf x ?_) noCases_not_mem_caseFaults
  rcases hv : s.varFaults (Scope.ofInputs s.inputs) f.vars with ⟨vfs, sc'⟩
  rw [hv] at hx
  simp only [Schedule.feeFaults, hv, List.mem_append]
  exact .inr hx

theorem Checked.returnFaults (h : s.Checked) {r : Return} (hr : r ∈ s.returns) :
    s.returnFaults r = [] := by
  apply eq_nil_of_noCases
  · intro x hx
    apply TypeFault.eq_noCases_of_severity
    have hd := h (Diagnostic.ofFault (some ("return " ++ r.symbol)) x) (by
      simp only [check, List.mem_append, List.mem_flatMap, List.mem_map]
      exact .inl (.inr ⟨r, hr, x, hx, rfl⟩))
    simpa [Diagnostic.isError, Diagnostic.ofFault] using hd
  · unfold Schedule.returnFaults
    split
    · rename_i c _
      have hc := @noCases_not_mem_infer (Scope.ofInputs s.inputs) c
      rcases hci : infer (Scope.ofInputs s.inputs) c with ⟨t, fs⟩
      rw [hci] at hc
      simp only [List.mem_append, not_or]
      exact ⟨hc, noCases_not_mem_mismatch fun _ => by simp⟩
    · simp

end Schedule

variable {env : Env}

/-- The inputs' scope is modelled by an environment that fits the inputs: a name's type is
that of the first input of that name, which the environment gives a value of its kind. -/
theorem Env.FitsInputs.models {inputs : List Input} (h : env.FitsInputs inputs) :
    (Scope.ofInputs inputs).Models env := by
  intro n t ht
  simp only [Scope.lookup, Scope.ofInputs, List.lookup_nil, Option.map_eq_some_iff] at ht
  obtain ⟨i, hi, rfl⟩ := ht
  have hmem := List.mem_of_find?_eq_some hi
  have hname : i.name = n := by simpa using List.find?_some hi
  obtain ⟨v, hv, hfit⟩ := h i hmem
  exact ⟨v, hname ▸ hv, hfit⟩

/-! ### Fees and returns -/

namespace FeeEvaluation

open Evaluation

variable {sc : Scope}

/-- The variables of a fee are evaluated in the scope the checker typed them in, each
value of its type. -/
theorem safe_bindVars (s : Schedule) {vars : List LetVar} (hm : sc.Models env)
    (hfin : ∀ v ∈ vars, v.expr.numbersFinite) (h : (s.varFaults sc vars).1 = []) :
    Safe (fun env' => (s.varFaults sc vars).2.Models env') (bindVars env vars) := by
  induction vars generalizing sc env with
  | nil => exact hm
  | cons v vs ih =>
    rcases hi : infer sc v.expr with ⟨t, fs⟩
    simp only [Schedule.varFaults, hi, List.append_eq_nil_iff] at h ⊢
    obtain ⟨tv, htv, hev⟩ := sound hm v.expr (hfin v List.mem_cons_self) (by rw [hi]; exact h.1.2)
    rw [hi] at htv
    cases htv
    simp only [bindVars]
    exact Safe.bind hev fun x hx => ih (hm.bind hx v.name)
      (fun w hw => hfin w (List.mem_cons_of_mem _ hw)) h.2

/-- A case without condition followed by another case is unreachable, a fault. -/
theorem caseFaults_fallback_ne_nil {i j : Nat} {c : Case} {cs : List Case} :
    Schedule.caseFaults sc i (some j) (c :: cs) ≠ [] := by
  simp only [Schedule.caseFaults]
  split <;> simp

/-- The amount of a case that fires is a finite number. -/
theorem safe_amount {scope : Env} {e : Expr} {i : Nat} (hm : sc.Models scope)
    (hfin : e.numbersFinite) (hf : (infer sc e).2 = [])
    (hy : mismatch (infer sc e).1 .number (.yieldNotNumber i) = [])
    {β : Type} {P : β → Prop} {k : Decimal → β} (hk : ∀ d, d.isFinite → P (k d)) :
    Safe P (evaluate scope e >>= fun v => asNumber e v >>= fun d => pure (k d)) := by
  have hnum : Safe (·.Fits .number) (evaluate scope e) := safe_typed hm hfin hf fun t ht => by
    rw [ht, mismatch_some_eq_nil] at hy
    rw [hy]
    rfl
  refine Safe.bind hnum fun v hv => ?_
  cases hv with
  | num hd => exact hk _ hd

/-- Trying the cases from `i` on: the conditions are truth values, the amount of the case
that fires is finite, and no case without condition is met before the last one. -/
theorem safe_firstCase {fee : String} {scope : Env} {last : Nat} (hm : sc.Models scope) :
    ∀ {i : Nat} {cs : List Case} {tried : List (Option Bool)},
      (∀ c ∈ cs, c.numbersFinite) → Schedule.caseFaults sc i none cs = [] →
      last + 1 = i + cs.length →
      Safe (fun r => ∀ p ∈ r.1, p.2.isFinite) (firstCase fee scope last i cs tried)
  | _, [], _, _, _, _ => by
    simp only [firstCase]
    exact fun p hp => by cases hp
  | i, c :: cs, tried, hfin, h, hlast => by
    have hc := hfin c List.mem_cons_self
    simp only [Case.numbersFinite, Bool.and_eq_true] at hc
    obtain ⟨hce, hcc⟩ := hc
    rcases hi : infer sc c.expr with ⟨t, fs⟩
    simp only [Schedule.caseFaults, hi] at h
    rw [firstCase]
    cases hcond : c.condition with
    | none =>
      simp only [hcond, List.nil_append, List.append_eq_nil_iff] at h
      obtain ⟨⟨hfs, hy⟩, hrest⟩ := h
      -- a case without condition is followed by no other case
      have hcs : cs = [] := by
        cases cs with
        | nil => rfl
        | cons c' cs' => exact absurd hrest caseFaults_fallback_ne_nil
      subst hcs
      have hil : i = last := by
        simp at hlast
        omega
      subst hil
      simp only [bne_self_eq_false, Bool.false_eq_true, if_false]
      exact safe_amount hm hce (by rw [hi]; exact hfs) (by rw [hi]; exact hy)
        fun d hd p hp => by
          cases hp
          exact hd
    | some cond =>
      rcases hci : infer sc cond with ⟨ct, cfs⟩
      simp only [hcond, hci, List.nil_append, List.append_eq_nil_iff] at h
      obtain ⟨⟨⟨⟨hfs, hy⟩, hcfs⟩, hcb⟩, hrest⟩ := h
      have hcondfin : cond.numbersFinite := by simpa [hcond] using hcc
      have hbool : Safe (·.Fits .boolean) (evaluate scope cond) :=
        safe_typed hm hcondfin (by rw [hci]; exact hcfs) fun u hu => by
          rw [hci] at hu
          cases hu
          rw [mismatch_some_eq_nil.mp hcb]
          rfl
      refine Safe.bind hbool fun v hv => ?_
      cases hv with
      | bool b =>
        cases b
        · exact safe_firstCase hm (fun c' hc' => hfin c' (List.mem_cons_of_mem _ hc')) hrest
            (by simp at hlast; omega)
        · exact safe_amount hm hce (by rw [hi]; exact hfs) (by rw [hi]; exact hy)
            fun d hd p hp => by
              cases hp
              exact hd

end FeeEvaluation

open FeeEvaluation in
/-- A fee of a checked schedule with finite literals, in an environment that fits the
inputs, contributes a finite amount or fails for an arithmetic reason. -/
theorem safe_feeOutcome {s : Schedule} (hc : s.Checked) {f : Fee} (hf : f ∈ s.fees)
    (hfin : f.numbersFinite) (henv : env.FitsInputs s.inputs) :
    Safe (fun o => o.contribution.isFinite) (feeOutcome f env) := by
  simp only [Fee.numbersFinite, Bool.and_eq_true, List.all_eq_true] at hfin
  obtain ⟨hvfin, hcfin⟩ := hfin
  unfold feeOutcome
  refine Safe.bind (safe_bindVars s henv.models hvfin (hc.varFaults hf)) fun scope hscope => ?_
  have hfc : Safe (fun r => ∀ p ∈ r.1, p.2.isFinite)
      (firstCase f.name scope (f.cases.length - 1) 0 f.cases []) := by
    have hcases := hc.caseFaults hf
    cases hcs : f.cases with
    | nil => exact fun p hp => by cases hp
    | cons c cs =>
      rw [hcs] at hcases hcfin
      exact safe_firstCase hscope hcfin hcases (by simp)
  refine Safe.bind hfc fun r hr => ?_
  obtain ⟨fired, conditions⟩ := r
  cases fired with
  | none => rfl
  | some p => exact hr p rfl

/-- A return condition of a checked schedule with finite literals evaluates to a truth
value or fails for an arithmetic reason. -/
theorem safe_returnCondition {s : Schedule} (hc : s.Checked) {r : Return} (hr : r ∈ s.returns)
    {c : Expr} (hcond : r.condition = some c) (hfin : c.numbersFinite)
    (henv : env.FitsInputs s.inputs) : Safe (·.Fits .boolean) (evaluate env c) := by
  have h := hc.returnFaults hr
  rcases hi : infer (Scope.ofInputs s.inputs) c with ⟨t, fs⟩
  simp only [Schedule.returnFaults, hcond, hi, List.append_eq_nil_iff] at h
  refine safe_typed henv.models hfin (by rw [hi]; exact h.1) fun u hu => ?_
  rw [hi] at hu
  cases hu
  rw [mismatch_some_eq_nil.mp h.2]
  rfl

/-! ### Accepted schedules -/

/-- The schedules the library hands to evaluation: one read from a text with no error, and
one composed from a registry of accepted schedules. -/
inductive Schedule.Accepted : Schedule → Prop
  | parsed {text : List CodePoint} {r : ParseResult} {s : Schedule} :
      (Schedule.parse text).run'.1 = .ok r → r.isValid → r.schedule = some s → Accepted s
  | composed {reg : Registry} {target : String} {c : Composed} :
      (∀ j ∈ reg, Accepted j.schedule) → (reg.compose target).run'.1 = .ok c →
        Accepted c.schedule

namespace Schedule

variable {s : Schedule}

theorem checked_of_errors (h : (s.check.filter (·.isError)).isEmpty) : s.Checked := by
  intro d hd
  simp only [List.isEmpty_iff, List.filter_eq_nil_iff] at h
  simpa using h d hd

/-- A valid reading is checked: its diagnostics are the checker's, none an error. -/
theorem checked_of_parse {text : List CodePoint} {r : ParseResult}
    (h : (Schedule.parse text).run'.1 = .ok r) (hv : r.isValid) (hs : r.schedule = some s) :
    s.Checked := by
  obtain ⟨-, -, -, -, -, hd⟩ := Schedule.parse_some h hs
  simp only [ParseResult.isValid, ParseResult.errors, hd, Bool.and_eq_true] at hv
  exact checked_of_errors hv.2

/-- A merged chain has finite literals when each of its schedules has. -/
theorem numbersFinite_mergeChain {chain : List Schedule} (h : ∀ t ∈ chain, t.numbersFinite) :
    (mergeChain chain).numbersFinite := by
  simp only [Schedule.numbersFinite, Bool.and_eq_true, List.all_eq_true] at h ⊢
  constructor
  · intro f hf
    obtain ⟨t, ht, hft⟩ := mem_mergeChain_fees hf
    exact (h t ht).1 f hft
  · intro r hr
    obtain ⟨t, ht, hrt⟩ := mem_mergeChain_returns hr
    exact (h t ht).2 r hrt

end Schedule

namespace Registry

variable {target : String} {js : List Jurisdiction} {s : Schedule}

/-- The schedule of a chain is checked: a lone root is checked already, a merge is checked
again. -/
theorem checked_chainSchedule (h : chainSchedule target js = .ok s)
    (hjs : ∀ j ∈ js, j.schedule.Checked) : s.Checked := by
  unfold chainSchedule at h
  split at h
  · cases h
    exact hjs _ (List.mem_singleton_self _)
  · dsimp only at h
    split at h
    · cases h
      exact Schedule.checked_of_errors (by assumption)
    · cases h

/-- A property that a merge keeps whenever every schedule of its chain has it holds of the
schedule of a chain whose schedules all have it. -/
theorem of_chainSchedule {P : Schedule → Prop}
    (hmerge : ∀ chain : List Schedule, (∀ t ∈ chain, P t) → P (Schedule.mergeChain chain))
    (h : chainSchedule target js = .ok s) (hjs : ∀ j ∈ js, P j.schedule) : P s := by
  unfold chainSchedule at h
  split at h
  · cases h
    exact hjs _ (List.mem_singleton_self _)
  · dsimp only at h
    split at h
    · cases h
      refine hmerge _ fun t ht => ?_
      obtain ⟨j, hj, rfl⟩ := List.mem_map.mp ht
      exact hjs j hj
    · cases h

theorem numbersFinite_chainSchedule (h : chainSchedule target js = .ok s)
    (hjs : ∀ j ∈ js, j.schedule.numbersFinite) : s.numbersFinite :=
  of_chainSchedule (P := fun s => s.numbersFinite) (fun _ => Schedule.numbersFinite_mergeChain) h hjs

end Registry

namespace Schedule.Accepted

variable {s : Schedule}

theorem checked (h : s.Accepted) : s.Checked := by
  induction h with
  | parsed hp hv hs => exact checked_of_parse hp hv hs
  | composed _ hc ih =>
    obtain ⟨js, hjs, hsc, -⟩ := Registry.compose_ok hc
    exact Registry.checked_chainSchedule hsc fun j hj => ih j (Registry.mem_of_chain hjs j hj)

theorem numbersFinite (h : s.Accepted) : s.numbersFinite := by
  induction h with
  | parsed hp _ hs => exact parse_numbersFinite hp hs
  | composed _ hc ih =>
    obtain ⟨js, hjs, hsc, -⟩ := Registry.compose_ok hc
    exact Registry.numbersFinite_chainSchedule hsc fun j hj => ih j (Registry.mem_of_chain hjs j hj)

end Schedule.Accepted

/-- Type soundness of the checker for evaluation. In an environment that gives every input
of an accepted schedule a value of its kind, each fee evaluates to a finite contribution and
each return condition to a truth value, unless arithmetic fails. -/
theorem accepted_evaluation_safe {s : Schedule} (hs : s.Accepted) (henv : env.FitsInputs s.inputs) :
    (∀ f ∈ s.fees, Safe (fun o => o.contribution.isFinite) (evaluateFee f env).run'.1) ∧
      ∀ r ∈ s.returns, ∀ c, r.condition = some c → Safe (·.Fits .boolean) (evaluate env c) := by
  have hfin := hs.numbersFinite
  simp only [Schedule.numbersFinite, Bool.and_eq_true, List.all_eq_true] at hfin
  constructor
  · intro f hf
    rw [Traced.run'_eq_run, evaluateFee_run]
    exact safe_feeOutcome hs.checked hf (hfin.1 f hf) henv
  · intro r hr c hc
    have hcfin : c.numbersFinite := by simpa [hc] using hfin.2 r hr
    exact safe_returnCondition hs.checked hr hc hcfin henv

/-- A schedule that divides by an input, read from its text, in an environment where the
input is zero: the text is accepted, and the division can fail only for arithmetic. -/
theorem division_schedule_evaluation_safe :
    ∃ r s, (Schedule.parse (CodePoint.ofString
        "INPUT n NUMBER 'n' BETWEEN 0 AND 10 ENDINPUT\nFEE f YIELD 10 / n ENDFEE")).run'.1 = .ok r ∧
      r.schedule = some s ∧ s.Accepted ∧ s.fees ≠ [] ∧
      Env.FitsInputs [("n", .num Decimal.zero)] s.inputs ∧
      (∀ f ∈ s.fees, Safe (fun o => o.contribution.isFinite)
        (evaluateFee f [("n", .num Decimal.zero)]).run'.1) ∧
      ∀ r ∈ s.returns, ∀ c, r.condition = some c →
        Safe (·.Fits .boolean) (evaluate [("n", .num Decimal.zero)] c) := by
  -- the text reads without errors into one fee and number inputs named n
  have hread : ((Schedule.parse (CodePoint.ofString
      "INPUT n NUMBER 'n' BETWEEN 0 AND 10 ENDINPUT\nFEE f YIELD 10 / n ENDFEE")).run'.1.toOption.map
      fun r => (r.isValid, r.schedule.map fun s =>
        (s.fees.isEmpty, s.inputs.all fun i => i.name == "n" && i.exprType.kind == .number))) =
      some (true, some (false, true)) := by
    decide +kernel
  cases hp : (Schedule.parse (CodePoint.ofString
      "INPUT n NUMBER 'n' BETWEEN 0 AND 10 ENDINPUT\nFEE f YIELD 10 / n ENDFEE")).run'.1 with
  | error e =>
    rw [hp] at hread
    cases hread
  | ok r =>
    rw [hp] at hread
    simp only [Except.toOption, Option.map_some, Option.some.injEq, Prod.mk.injEq] at hread
    obtain ⟨hv, hread⟩ := hread
    cases hs : r.schedule with
    | none =>
      rw [hs] at hread
      cases hread
    | some s =>
      simp only [hs, Option.map_some, Option.some.injEq, Prod.mk.injEq, List.isEmpty_eq_false_iff,
        List.all_eq_true, Bool.and_eq_true, beq_iff_eq] at hread
      obtain ⟨hfees, hinputs⟩ := hread
      have hacc : s.Accepted := .parsed hp hv hs
      have henv : Env.FitsInputs [("n", .num Decimal.zero)] s.inputs := by
        intro i hi
        obtain ⟨hn, hk⟩ := hinputs i hi
        rw [hn, hk]
        exact ⟨_, rfl, .num rfl⟩
      exact ⟨r, s, rfl, hs, hacc, hfees, henv, accepted_evaluation_safe hacc henv⟩

end FeeSchedule
