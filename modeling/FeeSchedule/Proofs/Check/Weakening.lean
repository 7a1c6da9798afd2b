import FeeSchedule.Proofs.Check.Schedule

/-!
# `FeeSchedule.Proofs.Check.Weakening`: what checks in a scope checks in a larger one

A scope `sc'` extends a scope `sc` (`Scope.Extends`) when it gives every name that `sc`
types the same type, and every list or selection input of `sc` at least its choices. An
expression in which the checker finds no fault in `sc` then has the same type, and no fault,
in `sc'`. Re-checking a merged schedule needs this: each declaration is checked again among
more inputs, some of them redeclared.

* `Scope.Extends.bind`: binding a variable to one type on both sides keeps the extension.
* `infer_of_extends`: the weakening lemma, by structural recursion over the expression, one
  case per constructor; a comparison splits as the checker splits it, by where a bare
  symbol stands.
* `Schedule.varFaults_of_extends`, `Schedule.caseFaults_of_extends`: the variables and the
  cases of a fee, typed in order, when no variable is named like an input of the larger
  schedule.
-/

set_option autoImplicit false

namespace FeeSchedule

/-- `sc'` extends `sc`: every name typed in `sc` has the same type in `sc'`, and every choice
of a list or selection input of `sc` is a choice of the input of that name in `sc'`. -/
structure Scope.Extends (sc sc' : Scope) : Prop where
  lookup : ∀ {n : String} {t : ExprType}, sc.lookup n = some t → sc'.lookup n = some t
  symbols : ∀ {l s : String}, s ∈ sc.symbols l → s ∈ sc'.symbols l

namespace Scope.Extends

variable {sc sc' : Scope}

theorem refl (sc : Scope) : sc.Extends sc := ⟨id, id⟩

/-- Binding a name hides it in both scopes alike; the inputs, and so the choices, stay. -/
theorem bind (h : sc.Extends sc') (n : String) (t : ExprType) :
    (sc.bind n t).Extends (sc'.bind n t) where
  lookup {m u} hm := by
    by_cases hmn : m = n
    · subst hmn
      simpa [Scope.lookup, Scope.bind] using hm
    · have hb : (m == n) = false := by simpa using hmn
      have hsc : sc.lookup m = some u := by
        simpa [Scope.lookup, Scope.bind, List.lookup_cons, hb] using hm
      simpa [Scope.lookup, Scope.bind, List.lookup_cons, hb] using h.lookup hsc
  symbols hs := h.symbols hs

theorem checkSymbol (h : sc.Extends sc') {s : String} {t : ExprType}
    (hs : sc.checkSymbol s t = []) : sc'.checkSymbol s t = [] := by
  unfold Scope.checkSymbol at hs ⊢
  dsimp only at hs ⊢
  split at hs
  · rename_i hmem
    rw [if_pos (List.contains_iff_mem.mpr (h.symbols (List.contains_iff_mem.mp hmem)))]
  · cases hs

theorem symbolComparison (h : sc.Extends sc') {op : BinaryOp} {s : String}
    {o : Option ExprType × List TypeFault} (ho : symbolComparison sc op s o = []) :
    symbolComparison sc' op s o = [] := by
  rcases o with ⟨_ | t, fs⟩
  · simpa [FeeSchedule.symbolComparison] using ho
  · simp only [FeeSchedule.symbolComparison, List.append_eq_nil_iff] at ho ⊢
    refine ⟨ho.1, ?_⟩
    have h2 := ho.2
    split at h2
    · rw [if_pos (by assumption)]
      exact h.checkSymbol h2
    · cases h2

end Scope.Extends

/-! ### Comparisons, by where a bare symbol stands -/

section Comparison

variable {sc : Scope} {op : BinaryOp}

theorem infer_comparison_symLeft (hop : op.isComparison = true) (s : String) (r : Expr) :
    infer sc (.binary op (.sym s) r) = (some .boolean, symbolComparison sc op s (infer sc r)) := by
  rw [infer_binary]
  simp only [hop, if_true]

theorem infer_comparison_symRight (hop : op.isComparison = true) {l : Expr}
    (hl : ∀ s, l ≠ .sym s) (s : String) :
    infer sc (.binary op l (.sym s)) = (some .boolean, symbolComparison sc op s (infer sc l)) := by
  rw [infer_binary]
  simp only [hop, if_true]

theorem infer_comparison_plain (hop : op.isComparison = true) {l r : Expr}
    (hl : ∀ s, l ≠ .sym s) (hr : ∀ s, r ≠ .sym s) :
    infer sc (.binary op l r) =
      (some .boolean, (infer sc l).2 ++ (infer sc r).2 ++
        comparisonFaults op (infer sc l).1 (infer sc r).1) := by
  rw [infer_binary]
  simp only [hop, if_true]

end Comparison

/-! ### Weakening -/

section Weakening

variable {sc sc' : Scope}

theorem infer_call (f : Builtin) (args : List Expr) :
    infer sc (.call f args) =
      (some .number, (inferAll sc args).flatMap (·.2) ++ callFaults f ((inferAll sc args).map (·.1))) :=
  rfl

theorem infer_contains_of_extends (h : sc.Extends sc') {l r : Expr}
    (hl : infer sc' l = infer sc l) (hf : (infer sc (.binary .contains l r)).2 = []) :
    infer sc' (.binary .contains l r) = infer sc (.binary .contains l r) := by
  rw [infer_binary] at hf ⊢
  rw [infer_binary]
  simp only [BinaryOp.isComparison, Bool.false_eq_true, if_false, if_true, hl] at hf ⊢
  rcases hil : infer sc l with ⟨_ | t, f1⟩
  · rfl
  · rw [hil] at hf
    simp only [List.append_eq_nil_iff] at hf
    simp only [Prod.mk.injEq, List.append_cancel_left_eq, true_and]
    -- only a symbol on the right is looked up, and its choices only grow
    split at hf
    · cases hf.2
    · rename_i hk
      simp only [hk, if_false]
      split at hf
      · rename_i s
        rw [hf.2, h.checkSymbol hf.2]
      · cases hf.2

mutual

/-- Weakening: an expression without faults in `sc` has, in any extension of `sc`, the same
type and no faults. -/
theorem infer_of_extends (h : sc.Extends sc') :
    (e : Expr) → (infer sc e).2 = [] → infer sc' e = infer sc e
  | .num _, _ | .bool _, _ | .date _, _ => rfl
  | .sym _, hf => by simp [infer] at hf
  | .ref n, hf => by
    rw [infer_ref] at hf ⊢
    rw [infer_ref]
    cases hn : sc.lookup n with
    | none =>
      rw [hn] at hf
      cases hf
    | some t => rw [h.lookup hn]
  | .unary op x, hf => by
    rw [infer_unary] at hf
    rcases hx : infer sc x with ⟨t, fs⟩
    rw [hx] at hf
    have hxf : (infer sc x).2 = [] := by
      rw [hx]
      exact (List.append_eq_nil_iff.mp hf).1
    rw [infer_unary, infer_unary, infer_of_extends h x hxf]
  | .binary op l r, hf => by
    by_cases hop : op.isComparison = true
    · by_cases hls : ∃ s, l = .sym s
      · obtain ⟨s, rfl⟩ := hls
        rw [infer_comparison_symLeft hop] at hf
        have hs : symbolComparison sc op s (infer sc r) = [] := hf
        rw [infer_comparison_symLeft hop, infer_comparison_symLeft hop,
          infer_of_extends h r (symbolComparison_eq_nil hs).1, h.symbolComparison hs, hs]
      · have hl : ∀ s, l ≠ .sym s := fun s hs => hls ⟨s, hs⟩
        by_cases hrs : ∃ s, r = .sym s
        · obtain ⟨s, rfl⟩ := hrs
          rw [infer_comparison_symRight hop hl] at hf
          have hs : symbolComparison sc op s (infer sc l) = [] := hf
          rw [infer_comparison_symRight hop hl, infer_comparison_symRight hop hl,
            infer_of_extends h l (symbolComparison_eq_nil hs).1, h.symbolComparison hs, hs]
        · have hr : ∀ s, r ≠ .sym s := fun s hs => hrs ⟨s, hs⟩
          rw [infer_comparison_plain hop hl hr] at hf
          simp only [List.append_eq_nil_iff] at hf
          rw [infer_comparison_plain hop hl hr, infer_comparison_plain hop hl hr,
            infer_of_extends h l hf.1.1, infer_of_extends h r hf.1.2]
    · have hop' : op.isComparison = false := by simpa using hop
      by_cases hc : op = .contains
      · subst hc
        exact infer_contains_of_extends h
          (infer_of_extends h l (infer_contains_faults hf).1) hf
      · rw [infer_binary_of_not_comparison hop' hc] at hf
        have hlr : (infer sc l).2 = [] ∧ (infer sc r).2 = [] := by
          split at hf <;> simp only [List.append_eq_nil_iff] at hf
          · exact hf.1.1
          · exact hf.1
        rw [infer_binary_of_not_comparison hop' hc, infer_binary_of_not_comparison hop' hc,
          infer_of_extends h l hlr.1, infer_of_extends h r hlr.2]
  | .call f args, hf => by
    rw [infer_call] at hf
    have hargs : ∀ x ∈ inferAll sc args, x.2 = [] := by
      intro x hx
      have hall := (List.append_eq_nil_iff.mp hf).1
      exact List.eq_nil_iff_forall_not_mem.mpr fun y hy =>
        (List.eq_nil_iff_forall_not_mem.mp hall) y (List.mem_flatMap.mpr ⟨x, hx, hy⟩)
    rw [infer_call, infer_call, inferAll_of_extends h args hargs]

theorem inferAll_of_extends (h : sc.Extends sc') :
    (es : List Expr) → (∀ x ∈ inferAll sc es, x.2 = []) → inferAll sc' es = inferAll sc es
  | [], _ => rfl
  | e :: es, hf => by
    rw [inferAll_cons] at hf
    rw [inferAll_cons, inferAll_cons, infer_of_extends h e (hf _ List.mem_cons_self),
      inferAll_of_extends h es fun x hx => hf x (List.mem_cons_of_mem _ hx)]

end

end Weakening

/-! ### Fees and returns -/

namespace Schedule

variable {s s' : Schedule}

/-- The variables of a fee without faults in `sc` have none in an extension `sc'` either,
when the larger schedule has no input of a variable's name; the scopes after them still
extend one another. -/
theorem varFaults_of_extends :
    ∀ {sc sc' : Scope} {vars : List LetVar}, sc.Extends sc' →
      (∀ v ∈ vars, v.name ∉ s'.inputNames) → (s.varFaults sc vars).1 = [] →
      (s'.varFaults sc' vars).1 = [] ∧
        (s.varFaults sc vars).2.Extends (s'.varFaults sc' vars).2
  | _, _, [], h, _, _ => ⟨rfl, h⟩
  | sc, sc', v :: vs, h, hnames, hf => by
    have hshadow : s'.inputs.any (·.name == v.name) = false := by
      have hv := hnames v List.mem_cons_self
      simpa [inputNames] using hv
    have hrest : ∀ {sc₁ sc₁' : Scope}, sc₁.Extends sc₁' → (s.varFaults sc₁ vs).1 = [] →
        (s'.varFaults sc₁' vs).1 = [] ∧ (s.varFaults sc₁ vs).2.Extends (s'.varFaults sc₁' vs).2 :=
      fun h' => varFaults_of_extends h' fun w hw => hnames w (List.mem_cons_of_mem _ hw)
    rcases hi : infer sc v.expr with ⟨t, fs⟩
    have hsame : (infer sc v.expr).2 = [] → infer sc' v.expr = (t, fs) := fun hn => by
      rw [← hi]
      exact infer_of_extends h v.expr hn
    -- the variable is bound to the same type on both sides, or to none on either
    cases t with
    | none =>
      simp only [varFaults, hi, List.append_eq_nil_iff] at hf
      simp only [varFaults, hi, hsame (by rw [hi]; exact hf.1.2), hshadow, hf.1.2]
      obtain ⟨hr, hend⟩ := hrest h hf.2
      exact ⟨by simpa using hr, hend⟩
    | some t =>
      simp only [varFaults, hi, List.append_eq_nil_iff] at hf
      simp only [varFaults, hi, hsame (by rw [hi]; exact hf.1.2), hshadow, hf.1.2]
      obtain ⟨hr, hend⟩ := hrest (h.bind v.name t) hf.2
      exact ⟨by simpa using hr, hend⟩

/-- The cases of a fee without faults in `sc` have none in an extension of `sc`. -/
theorem caseFaults_of_extends {sc sc' : Scope} (h : sc.Extends sc') :
    ∀ {i : Nat} {fb : Option Nat} {cs : List Case},
      caseFaults sc i fb cs = [] → caseFaults sc' i fb cs = []
  | _, _, [], _ => rfl
  | i, fb, c :: cs, hf => by
    rcases he : infer sc c.expr with ⟨t, fs⟩
    have hsame : infer sc' c.expr = (t, fs) := by
      rw [← he]
      refine infer_of_extends h c.expr ?_
      rw [he]
      simp only [caseFaults, he] at hf
      split at hf <;> simp_all
    cases hc : c.condition with
    | none =>
      simp only [caseFaults, he, hc, List.append_eq_nil_iff] at hf
      simp only [caseFaults, hsame, hc, List.append_eq_nil_iff]
      exact ⟨hf.1, caseFaults_of_extends h hf.2⟩
    | some cond =>
      rcases hci : infer sc cond with ⟨ct, cfs⟩
      simp only [caseFaults, he, hc, hci, List.append_eq_nil_iff] at hf
      have hcsame : infer sc' cond = (ct, cfs) := by
        rw [← hci]
        exact infer_of_extends h cond (by rw [hci]; exact hf.1.1.2)
      simp only [caseFaults, hsame, hc, hcsame, List.append_eq_nil_iff]
      exact ⟨hf.1, caseFaults_of_extends h hf.2⟩

/-- A fee without errors in `s` has the same faults in a schedule `s'` whose inputs extend
those of `s`, when `s'` has no input of a variable's name. -/
theorem feeFaults_of_extends
    (h : (Scope.ofInputs s.inputs).Extends (Scope.ofInputs s'.inputs)) {f : Fee}
    (hnames : ∀ v ∈ f.vars, v.name ∉ s'.inputNames)
    (hv : (s.varFaults (Scope.ofInputs s.inputs) f.vars).1 = [])
    (hc : caseFaults (s.varFaults (Scope.ofInputs s.inputs) f.vars).2 0 none f.cases = []) :
    s'.feeFaults f = s.feeFaults f := by
  obtain ⟨hv', hend⟩ := varFaults_of_extends h hnames hv
  have hc' := caseFaults_of_extends hend hc
  rcases hvs : s.varFaults (Scope.ofInputs s.inputs) f.vars with ⟨vfs, sc⟩
  rcases hvs' : s'.varFaults (Scope.ofInputs s'.inputs) f.vars with ⟨vfs', sc'⟩
  rw [hvs] at hv hc
  rw [hvs'] at hv' hc'
  dsimp only at hv hv' hc hc'
  simp only [feeFaults, hvs, hvs', hv, hv', hc, hc']

/-- A return condition without faults among the inputs of `s` has none among inputs that
extend them. -/
theorem returnFaults_of_extends
    (h : (Scope.ofInputs s.inputs).Extends (Scope.ofInputs s'.inputs)) {r : Return}
    (hr : s.returnFaults r = []) : s'.returnFaults r = [] := by
  cases hc : r.condition with
  | none => simp [returnFaults, hc]
  | some c =>
    rcases hi : infer (Scope.ofInputs s.inputs) c with ⟨t, fs⟩
    simp only [returnFaults, hc, hi, List.append_eq_nil_iff] at hr
    simp only [returnFaults, hc, infer_of_extends h c (by rw [hi]; exact hr.1), hi]
    rw [hr.1, hr.2]
    rfl

end Schedule

end FeeSchedule
