import FeeSchedule.Proofs.Verification.Coverage
import FeeSchedule.Proofs.Verification.Monotone
import FeeSchedule.Proofs.Evaluation.FirstMatch

/-!
# `FeeSchedule.Proofs.Verification.Inlining`: inlining the variables of a fee

The `LET` variables of a fee can be inlined: every reference to a variable in the cases is
replaced by the variable's definition, in which the earlier variables are inlined in turn
(`Fee.inline`). A variable's value is that of its definition, so wherever the fee evaluates,
the inlined fee gives the same outcome. The converse fails: the variables are evaluated
before any case, so the fee fails where a definition fails even if no case that fires
reaches it, while the inlined fee evaluates a definition only where a case does.

* `Except.ExtendedBy x y`: `y` succeeds with the value of `x` wherever `x` succeeds. The
  operations of the evaluator name their expression only in their faults, so each is
  extended by the same operation on other expressions (`arithmetic_extendedBy`,
  `order_extendedBy`, `applyBuiltin_extendedBy`).
* `evaluate_subst`: substituting for names expressions that evaluate to their values keeps
  the value of every expression that evaluates; `bindVars_substitutes`: the definitions of
  the variables, inlined, are such expressions.
* `feeOutcome_inline`: where a fee evaluates, its inlined form has the same outcome, with
  no variables.
* `refs_subst`, `Schedule.conditionInputs_inline`: the inlined conditions reference exactly
  the inputs the fee's conditions read through its variables.
* `search_congr`, `sample_congr`: the completeness and monotonicity checks of two fees of one
  name that fire the same cases with the same amounts on every environment they try give
  the same answers and notes.
* `inlining_preserves_verification`: verification of a fee and of its inlined form agree
  where the fee evaluates on every combination tried and inlining adds no literal bound.
-/

set_option autoImplicit false

namespace FeeSchedule

open Evaluation FeeEvaluation

/-! ### Results that succeed alike -/

/-- `y` succeeds with the value of `x` wherever `x` succeeds; where `x` fails, `y` may do
anything. -/
def Except.ExtendedBy {ε α : Type} (x y : Except ε α) : Prop := ∀ a, x = .ok a → y = .ok a

namespace Except.ExtendedBy

variable {ε α β : Type}

theorem refl (x : Except ε α) : Except.ExtendedBy x x := fun _ h => h

theorem of_throw {e : ε} {y : Except ε α} : Except.ExtendedBy (throw e) y := nofun

theorem bind {x y : Except ε α} {f g : α → Except ε β} (h : Except.ExtendedBy x y)
    (hfg : ∀ a, Except.ExtendedBy (f a) (g a)) : Except.ExtendedBy (x >>= f) (y >>= g) := by
  intro b hb
  obtain ⟨a, ha, hfa⟩ := bind_eq_ok.mp hb
  rw [h a ha, ok_bind]
  exact hfg a b hfa

theorem branch {c : Prop} [Decidable c] {x x' y y' : Except ε α} (hx : Except.ExtendedBy x x')
    (hy : Except.ExtendedBy y y') :
    Except.ExtendedBy (if c then x else y) (if c then x' else y') := by
  by_cases hc : c
  · simpa only [if_pos hc] using hx
  · simpa only [if_neg hc] using hy

end Except.ExtendedBy

/-- A result that tests successful has a value: the form in which a computed check of
success is used. -/
theorem exists_eq_ok_of_isOk {ε α : Type} {x : Except ε α} (h : x.isOk = true) :
    ∃ a, x = .ok a := by
  cases x with
  | ok a => exact ⟨a, rfl⟩
  | error e => simp [Except.isOk, Except.toBool] at h

open Except.ExtendedBy

/-! ### The operations name their expression only in their faults -/

section Operations

variable {e e' l l' r r' : Expr}

theorem asNumber_extendedBy (v : Value) :
    Except.ExtendedBy (asNumber e v) (asNumber e' v) := fun _ h =>
  asNumber_eq_ok.mpr (asNumber_eq_ok.mp h)

theorem asBoolean_extendedBy (v : Value) :
    Except.ExtendedBy (asBoolean e v) (asBoolean e' v) := fun _ h =>
  asBoolean_eq_ok.mpr (asBoolean_eq_ok.mp h)

theorem arith_extendedBy (d : Except Signal Decimal) :
    Except.ExtendedBy (arith e d) (arith e' d) := by
  cases d with
  | error s => exact of_throw
  | ok d => exact refl _

/-- Two numbers read from the operands, then an operation on them. -/
theorem numbers_extendedBy {a b : Value} {k k' : Decimal → Decimal → Except EvalFault Value}
    (hk : ∀ x y, Except.ExtendedBy (k x y) (k' x y)) :
    Except.ExtendedBy (do let x ← asNumber l a; let y ← asNumber r b; k x y)
      (do let x ← asNumber l' a; let y ← asNumber r' b; k' x y) :=
  bind (asNumber_extendedBy a) fun x => bind (asNumber_extendedBy b) fun y => hk x y

/-- A division, refused for a zero divisor. -/
theorem division_extendedBy (x y : Decimal) :
    Except.ExtendedBy
      (match Decimal.equals y Decimal.zero with
        | .error s => throw (.arithmetic e s)
        | .ok true => throw (.divisionByZero e)
        | .ok false => arith e (Decimal.div x y))
      (match Decimal.equals y Decimal.zero with
        | .error s => throw (.arithmetic e' s)
        | .ok true => throw (.divisionByZero e')
        | .ok false => arith e' (Decimal.div x y)) := by
  split
  · exact of_throw
  · exact of_throw
  · exact arith_extendedBy _

theorem arithmetic_extendedBy {op : BinaryOp} {a b : Value} :
    Except.ExtendedBy (arithmetic e op l r a b) (arithmetic e' op l' r' a b) := by
  cases op
  case add => exact numbers_extendedBy fun _ _ => arith_extendedBy _
  case mul => exact numbers_extendedBy fun _ _ => arith_extendedBy _
  case sub =>
    -- a date minus a date is the one case that reads no number
    cases a <;> cases b
    case date.date => exact refl _
    all_goals exact numbers_extendedBy fun _ _ => arith_extendedBy _
  all_goals exact numbers_extendedBy division_extendedBy

theorem order_extendedBy {op : BinaryOp} {a b : Value} :
    Except.ExtendedBy (order e op a b) (order e' op a b) := by
  unfold order
  dsimp only
  split
  · exact refl _
  · exact refl _
  · exact bind of_throw fun _ => refl _

theorem round_extendedBy {x places : Decimal} :
    Except.ExtendedBy (Evaluation.round e x places) (Evaluation.round e' x places) := by
  unfold Evaluation.round
  refine bind (refl _) fun whole => bind (refl _) fun isWhole => ?_
  dsimp only
  split
  · exact bind of_throw fun _ => refl _
  · exact refl _

/-- The numbers of the arguments of a call, read pairwise from values and expressions. -/
theorem zip_mapM_extendedBy :
    ∀ {vs : List Value} {args args' : List Expr}, args.length = args'.length →
      Except.ExtendedBy ((vs.zip args).mapM fun (v, a) => asNumber a v)
        ((vs.zip args').mapM fun (v, a) => asNumber a v)
  | [], _, _, _ => refl _
  | _ :: _, [], [], _ => refl _
  | v :: vs, _ :: args, _ :: args', h => by
    simp only [List.zip_cons_cons, List.mapM_cons]
    exact bind (asNumber_extendedBy v) fun _ =>
      bind (zip_mapM_extendedBy (Nat.succ.inj h)) fun _ => refl _
  | _ :: _, [], _ :: _, h | _ :: _, _ :: _, [], h => absurd h (by simp)

theorem applyBuiltin_extendedBy {f : Builtin} {args args' : List Expr} {vs : List Value}
    (h : args.length = args'.length) :
    Except.ExtendedBy (applyBuiltin e f args vs) (applyBuiltin e' f args' vs) := by
  unfold applyBuiltin
  cases f
  case count =>
    dsimp only
    split
    · exact of_throw
    · exact refl _
    · exact of_throw
  case round =>
    refine bind (zip_mapM_extendedBy h) fun nums => ?_
    cases nums with
    | nil => exact of_throw
    | cons x rest => exact round_extendedBy
  case floor | ceil | abs | min | max =>
    refine bind (zip_mapM_extendedBy h) fun nums => ?_
    cases nums with
    | nil => exact of_throw
    | cons x rest => exact refl _

end Operations

/-! ### Substitution -/

mutual

/-- An expression with each name that `σ` binds replaced by the expression bound there (the
first binding of a name counts); the expressions put in are not substituted again. -/
def Expr.subst (σ : List (String × Expr)) : Expr → Expr
  | .num d => .num d
  | .bool b => .bool b
  | .date d => .date d
  | .sym s => .sym s
  | .ref n => (σ.lookup n).getD (.ref n)
  | .unary op x => .unary op (x.subst σ)
  | .binary op l r => .binary op (l.subst σ) (r.subst σ)
  | .call f args => .call f (Expr.substAll σ args)

/-- Substitution in each of a list of expressions. -/
def Expr.substAll (σ : List (String × Expr)) : List Expr → List Expr
  | [] => []
  | e :: es => e.subst σ :: Expr.substAll σ es

end

@[simp] theorem Expr.substAll_eq_map (σ : List (String × Expr)) (es : List Expr) :
    Expr.substAll σ es = es.map (Expr.subst σ) := by
  induction es with
  | nil => rfl
  | cons e es ih => rw [Expr.substAll, ih, List.map_cons]

/-- Each name stands in `σ` for an expression that evaluates in `env` to the value the name
has in `scope`, wherever it has one. -/
def Substitutes (env : Env) (σ : List (String × Expr)) (scope : Env) : Prop :=
  ∀ n, Except.ExtendedBy (evaluate scope (.ref n)) (evaluate env ((Expr.ref n).subst σ))

section Substitution

variable {env scope : Env} {σ : List (String × Expr)}

mutual

/-- An expression that evaluates in `scope` has the same value in `env` once the names are
replaced by expressions that evaluate there to their values. The induction follows the
evaluator: `AND` and `OR` evaluate their right side in both exactly when the left side
does not decide. -/
theorem evaluate_subst (h : Substitutes env σ scope) :
    (e : Expr) → Except.ExtendedBy (evaluate scope e) (evaluate env (e.subst σ))
  | .num _ | .bool _ | .date _ | .sym _ => refl _
  | .ref n => h n
  | .unary op x => by
    cases op
    case not => exact bind (evaluate_subst h x) fun v => bind (asBoolean_extendedBy v) fun _ => refl _
    case neg => exact bind (evaluate_subst h x) fun v => bind (asNumber_extendedBy v) fun _ => refl _
  | .binary op l r => by
    have hl := evaluate_subst h l
    have hr := evaluate_subst h r
    cases op
    case and =>
      refine bind hl fun v => bind (asBoolean_extendedBy v) fun b => branch ?_ (refl _)
      exact bind hr fun w => bind (asBoolean_extendedBy w) fun _ => refl _
    case or =>
      refine bind hl fun v => bind (asBoolean_extendedBy v) fun b => branch (refl _) ?_
      exact bind hr fun w => bind (asBoolean_extendedBy w) fun _ => refl _
    case add | sub | mul | div =>
      exact bind hl fun a => bind hr fun b => arithmetic_extendedBy
    case contains =>
      refine bind hl fun a => bind hr fun b => ?_
      dsimp only
      split
      · exact refl _
      · exact of_throw
    case eq | ne => exact bind hl fun a => bind hr fun b => refl _
    case lt | le | gt | ge => exact bind hl fun a => bind hr fun b => order_extendedBy
  | .call f args => by
    intro v hv
    rw [evaluate_call] at hv
    rw [Expr.subst, evaluate_call]
    cases hvs : evaluateAll scope args with
    | error fault =>
      rw [hvs] at hv
      cases hv
    | ok vs =>
      rw [hvs] at hv
      rw [evaluateAll_subst h args vs hvs]
      dsimp only at hv ⊢
      cases hb : applyBuiltin (.call f args) f args vs with
      | error fault =>
        rw [hb] at hv
        cases hv
      | ok w =>
        rw [hb] at hv
        cases hv
        rw [applyBuiltin_extendedBy (by simp) _ hb]

theorem evaluateAll_subst (h : Substitutes env σ scope) :
    (es : List Expr) → Except.ExtendedBy (evaluateAll scope es) (evaluateAll env (Expr.substAll σ es))
  | [] => refl _
  | e :: es => bind (evaluate_subst h e) fun _ => bind (evaluateAll_subst h es) fun _ => refl _

end

end Substitution

/-! ### The variables of a fee, inlined -/

/-- Definitions of variables, each in terms of the inputs: a later variable of a name hides
an earlier one. -/
abbrev Inlining := List (String × Expr)

/-- The definitions `σ` with one more variable, defined in terms of them. -/
def Inlining.push (σ : Inlining) (v : LetVar) : Inlining := (v.name, v.expr.subst σ) :: σ

/-- The definitions of a fee's variables, each with the variables before it inlined. -/
def Fee.inlining (f : Fee) : Inlining := f.vars.foldl Inlining.push []

/-- A case with the names of `σ` substituted in its amount and its condition. -/
def Case.subst (σ : Inlining) (c : Case) : Case := ⟨c.expr.subst σ, c.condition.map (Expr.subst σ)⟩

/-- A fee with its variables inlined into its cases, and no variables. -/
def Fee.inline (f : Fee) : Fee := { f with cases := f.cases.map (Case.subst f.inlining), vars := [] }

@[simp] theorem Fee.inline_name (f : Fee) : f.inline.name = f.name := rfl

section Inline

variable {env : Env}

/-- With nothing substituted, an environment stands for itself. -/
theorem substitutes_nil : Substitutes env [] env := fun _ => refl _

/-- Binding the variables one after another keeps the inlined definitions standing for their
values: a variable's value is that of its definition in the scope before it, and the
definition inlined has that value in `env`. -/
theorem bindVars_substitutes :
    ∀ {vars : List LetVar} {σ : Inlining} {scope scope' : Env}, Substitutes env σ scope →
      bindVars scope vars = .ok scope' → Substitutes env (vars.foldl Inlining.push σ) scope'
  | [], _, _, _, h, hb => by
    cases hb
    exact h
  | v :: vs, σ, scope, scope', h, hb => by
    rw [bindVars] at hb
    obtain ⟨x, hx, hb⟩ := bind_eq_ok.mp hb
    refine @bindVars_substitutes vs (Inlining.push σ v) _ scope' (fun n => ?_) hb
    by_cases hn : n = v.name
    · subst hn
      intro a ha
      have hxa : x = a := by simpa [evaluate, pure, Except.pure] using ha
      subst hxa
      simpa [Expr.subst, Inlining.push] using evaluate_subst h v.expr x hx
    · have hscope : evaluate ((v.name, x) :: scope) (.ref n) = evaluate scope (.ref n) := by
        simp [evaluate, List.lookup_cons, beq_false_of_ne hn]
      have hsubst : (Expr.ref n).subst (Inlining.push σ v) = (Expr.ref n).subst σ := by
        simp [Expr.subst, Inlining.push, List.lookup_cons, beq_false_of_ne hn]
      rw [hscope, hsubst]
      exact h n

/-- The search through the cases in `scope` fires the same case, with the same amount and
conditions, as the search through the substituted cases in `env`, wherever it succeeds. -/
theorem firstCase_subst {σ : Inlining} {scope : Env} (h : Substitutes env σ scope)
    {fee : String} {last : Nat} :
    ∀ {i : Nat} {cs : List Case} {tried : List (Option Bool)},
      Except.ExtendedBy (firstCase fee scope last i cs tried)
        (firstCase fee env last i (cs.map (Case.subst σ)) tried)
  | _, [], _ => refl _
  | i, c :: cs, tried => by
    -- the amount of a case that fires, whatever the conditions tried before it
    have hamount : ∀ t : List (Option Bool), Except.ExtendedBy
        (do let a ← asNumber c.expr (← evaluate scope c.expr); pure (some (i, a), t))
        (do let a ← asNumber (c.expr.subst σ) (← evaluate env (c.expr.subst σ)); pure (some (i, a), t)) :=
      fun _ => bind (evaluate_subst h c.expr) fun v => bind (asNumber_extendedBy v) fun _ => refl _
    rw [List.map_cons, firstCase, firstCase]
    cases hc : c.condition with
    | none =>
      simp only [Case.subst, hc, Option.map_none]
      exact branch (bind of_throw fun _ => hamount _) (hamount _)
    | some cond =>
      simp only [Case.subst, hc, Option.map_some]
      exact bind (evaluate_subst h cond) fun v => bind (asBoolean_extendedBy v) fun _ =>
        branch (hamount _) (firstCase_subst h)

/-- Wherever a fee evaluates, its inlined form gives the same outcome: the same case fires
with the same amount after the same conditions, only without variables. -/
theorem feeOutcome_inline {f : Fee} {o : FeeOutcome} (h : feeOutcome f env = .ok o) :
    feeOutcome f.inline env = .ok { o with fee := f.inline, letValues := [] } := by
  unfold feeOutcome at h ⊢
  obtain ⟨scope, hscope, h⟩ := bind_eq_ok.mp h
  obtain ⟨r, hr, h⟩ := bind_eq_ok.mp h
  have hsub : Substitutes env f.inlining scope := bindVars_substitutes substitutes_nil hscope
  have hr' := firstCase_subst hsub r hr
  -- the inlined fee binds nothing and searches the substituted cases in `env` itself
  have hvars : bindVars env f.inline.vars = .ok env := rfl
  have hcases : f.inline.cases = f.cases.map (Case.subst f.inlining) := rfl
  rw [hvars, ok_bind, hcases, List.length_map, Fee.inline_name, hr', ok_bind]
  obtain ⟨fired, conds⟩ := r
  dsimp only at h ⊢
  cases fired with
  | none =>
    cases h
    rfl
  | some p =>
    cases h
    rfl

end Inline

/-! ### What the inlined fee reads -/

mutual

/-- The names a substituted expression references: each name of the expression that `σ`
binds gives way to the names of its expression there. -/
theorem Expr.refs_subst (σ : Inlining) :
    (e : Expr) → (e.subst σ).refs = e.refs.flatMap fun n => ((σ.lookup n).map Expr.refs).getD [n]
  | .num _ | .bool _ | .date _ | .sym _ => rfl
  | .ref n => by
    cases h : σ.lookup n <;> simp [Expr.subst, Expr.refs, h]
  | .unary _ x => by simp only [Expr.subst, Expr.refs, refs_subst σ x]
  | .binary _ l r => by
    simp only [Expr.subst, Expr.refs, refs_subst σ l, refs_subst σ r, List.flatMap_append]
  | .call _ args => by simp only [Expr.subst, Expr.refs, refsAll_subst σ args]

theorem Expr.refsAll_subst (σ : Inlining) : (es : List Expr) →
    Expr.refsAll (Expr.substAll σ es) =
      (Expr.refsAll es).flatMap fun n => ((σ.lookup n).map Expr.refs).getD [n]
  | [] => rfl
  | e :: es => by
    simp only [Expr.substAll, Expr.refsAll, refs_subst σ e, refsAll_subst σ es, List.flatMap_append]

end

/-- Inlined definitions that reference exactly the names the dependencies give. -/
def Inlining.Reads (σ : Inlining) (deps : Dependencies) : Prop :=
  ∀ n, (σ.lookup n).map Expr.refs = deps.lookup n

theorem Inlining.Reads.refs_subst {σ : Inlining} {deps : Dependencies} (h : σ.Reads deps)
    (e : Expr) : (e.subst σ).refs = deps.reads e := by
  have hlookup : ∀ n, (σ.lookup n).map Expr.refs = deps.lookup n := h
  simp only [Expr.refs_subst, Dependencies.reads, Dependencies.expand, hlookup]

/-- Inlining one more variable references what its dependencies give. -/
theorem Inlining.Reads.push {σ : Inlining} {deps : Dependencies} (h : σ.Reads deps)
    (v : LetVar) : (Inlining.push σ v).Reads (Dependencies.push deps v) := by
  intro n
  by_cases hn : n = v.name
  · subst hn
    simp [Inlining.push, Dependencies.push, h.refs_subst, Dependencies.reads]
  · simp [Inlining.push, Dependencies.push, List.lookup_cons, beq_false_of_ne hn, h n]

/-- The inlined definitions of a fee's variables reference their dependencies. The induction
runs over the variables, one `push` at a time. -/
theorem Fee.inlining_reads (f : Fee) : f.inlining.Reads f.dependencies := by
  have hfold : ∀ (vars : List LetVar) (σ : Inlining) (deps : Dependencies), σ.Reads deps →
      (vars.foldl Inlining.push σ).Reads (vars.foldl Dependencies.push deps) := by
    intro vars
    induction vars with
    | nil => exact fun _ _ h => h
    | cons v vs ih => exact fun σ deps h => ih _ _ (h.push v)
  exact hfold f.vars [] [] fun _ => rfl

@[simp] theorem Dependencies.reads_nil (e : Expr) : Dependencies.reads [] e = e.refs := by
  simp [Dependencies.reads, Dependencies.expand]

/-- The inlined conditions read the inputs the fee's conditions read through its variables,
in any schedule of the same inputs. -/
theorem Schedule.conditionInputs_inline {s s' : Schedule} (hs : s'.inputs = s.inputs)
    (f : Fee) : s'.conditionInputs f.inline = s.conditionInputs f := by
  have hdeps : f.inline.dependencies = [] := rfl
  have hcases : f.inline.cases = f.cases.map (Case.subst f.inlining) := rfl
  simp only [Schedule.conditionInputs, Schedule.inputNames, hs, hdeps, hcases,
    Dependencies.reads_nil, List.flatMap_map, Case.subst, Option.map_map, Function.comp_def,
    f.inlining_reads.refs_subst]

/-! ### Checks of fees that fire alike -/

/-- Two fees that both evaluate in `env`, firing the same case with the same amount. -/
def Fee.AlikeAt (f g : Fee) (env : Env) : Prop :=
  ∃ o o', feeOutcome f env = .ok o ∧ feeOutcome g env = .ok o' ∧ o'.fired = o.fired ∧
    o'.contribution = o.contribution

/-- A fee evaluates alike with its inlined form wherever it evaluates. -/
theorem Fee.alikeAt_inline {f : Fee} {env : Env} {o : FeeOutcome} (h : feeOutcome f env = .ok o) :
    f.AlikeAt f.inline env :=
  ⟨o, _, h, feeOutcome_inline h, rfl, rfl⟩

/-- Evaluating fees of one name alike notes the same events. -/
theorem evaluateFee_run_alike {f g : Fee} {env : Env} (hname : g.name = f.name)
    {o o' : FeeOutcome} (ho : feeOutcome f env = .ok o) (ho' : feeOutcome g env = .ok o')
    (hfired : o'.fired = o.fired) (hamount : o'.contribution = o.contribution) (σ : Array Event) :
    (evaluateFee g env).run σ = (.ok o', ((evaluateFee f env).run σ).2) := by
  unfold evaluateFee
  rw [ho, ho', hname]
  dsimp only
  rw [hfired, hamount]
  cases o.fired <;> rfl

/-- Traversals by functions that agree on the list give the same result. -/
theorem List.mapM_eq_of_congr {α β ε : Type} {f g : α → Except ε β} {xs : List α}
    (h : ∀ x ∈ xs, f x = g x) {r₁ r₂ : Except ε (List β)} (h₁ : xs.mapM f = r₁)
    (h₂ : xs.mapM g = r₂) : r₁ = r₂ := by
  have hmap : ∀ ys : List α, (∀ y ∈ ys, f y = g y) → ys.mapM f = ys.mapM g := by
    intro ys
    induction ys with
    | nil => exact fun _ => rfl
    | cons y ys ih =>
      intro hy
      rw [List.mapM_cons, List.mapM_cons, hy y List.mem_cons_self,
        ih fun z hz => hy z (List.mem_cons_of_mem y hz)]
  rw [← h₁, ← h₂, hmap xs h]

section Search

variable {s s' : Schedule} {f g : Fee} {settings : VerifySettings} {names : List String}
  {domains : List (List BoundValue)} {base : Env}

open Completeness in
/-- Searches with two fees of one name that fire alike at every position visited find the
same and note the same. The induction runs over the positions, one step at a time. -/
theorem search_congr (hname : g.name = f.name) :
    ∀ {remaining k : Nat} {acc : Search} {σ : Array Event},
      (∀ j, k ≤ j → j < k + remaining → f.AlikeAt g (comboEnv names (comboAt domains j) base)) →
      (search s' g settings names domains base acc remaining k).run σ =
        (search s f settings names domains base acc remaining k).run σ
  | 0, _, _, _, _ => rfl
  | remaining + 1, k, acc, σ, h => by
    obtain ⟨o, o', ho, ho', hfired, hamount⟩ := h k le_rfl (by omega)
    rw [comboEnv] at ho ho'
    have hrest : ∀ acc' σ', (search s' g settings names domains base acc' remaining (k + 1)).run σ' =
        (search s f settings names domains base acc' remaining (k + 1)).run σ' :=
      fun _ _ => search_congr hname fun j hj hj' => h j (by omega) (by omega)
    rw [search, search, Traced.run_bind, Traced.run_bind,
      evaluateFee_run_alike hname ho ho' hfired hamount, evaluateFee_run f _ σ, ho]
    dsimp only
    rw [hfired]
    -- both fire, or both leave the same gap
    by_cases hf : o.fired.isSome = true
    · simp only [hf, if_true]
      exact hrest _ _
    · simp only [hf, Bool.false_eq_true, if_false]
      exact hrest _ _

end Search

/-- Sampling two fees of one name that fire alike at every value gives the same samples and
errors and notes the same. The induction runs over the values. -/
theorem sample_congr {f g : Fee} (hname : g.name = f.name) {x : String} {base : Env} :
    ∀ {values : List BoundValue} {σ : Array Event},
      (∀ v ∈ values, f.AlikeAt g ((x, v.toValue) :: base)) →
      (Monotonicity.sample g x base values).run σ = (Monotonicity.sample f x base values).run σ
  | [], _, _ => rfl
  | v :: vs, σ, h => by
    obtain ⟨o, o', ho, ho', hfired, hamount⟩ := h v List.mem_cons_self
    have hrest := @sample_congr f g hname x base vs
    rw [Monotonicity.sample, Monotonicity.sample, Traced.run_bind, Traced.run_bind,
      evaluateFee_run_alike hname ho ho' hfired hamount, evaluateFee_run f _ σ, ho]
    dsimp only
    rw [hamount, Traced.run_bind, Traced.run_bind,
      hrest fun w hw => h w (List.mem_cons_of_mem v hw)]

/-- An environment the completeness check of `f` tries: the inputs its conditions read take
one of the first `maxCombinations` combinations of values of their domains, the other inputs
their defaults. -/
def Schedule.TriedForCompleteness (s : Schedule) (f : Fee) (settings : VerifySettings)
    (env : Env) : Prop :=
  ∃ domains, List.Forall₂ (fun n d => ∃ i, s.input? n = some i ∧
      i.domain (f.literalBoundaries n) settings = .ok d) (s.conditionInputs f) domains ∧
    ∃ c ∈ (domainProduct domains).take settings.maxCombinations.toNat,
      env = Completeness.comboEnv (s.conditionInputs f) c s.defaultEnv

/-- An environment the monotonicity check of `f` in the input `i` tries: `i` takes a value
of its domain, the other inputs their defaults. -/
def Schedule.TriedForMonotonicity (s : Schedule) (f : Fee) (i : Input)
    (settings : VerifySettings) (env : Env) : Prop :=
  ∃ values, i.domain (f.literalBoundaries i.name) settings = .ok values ∧
    ∃ v ∈ values, env = (i.name, v.toValue) :: s.defaultEnv

section Checks

variable {s s' : Schedule} {f g : Fee} {settings : VerifySettings}

/-- Completeness checks of two fees of one name, in schedules of the same inputs, agree when
the fees' conditions read the same inputs with the same literals and the fees fire alike on
every combination tried. -/
theorem Schedule.checkCompleteness_congr (hs : s'.inputs = s.inputs) (hname : g.name = f.name)
    (hnames : s'.conditionInputs g = s.conditionInputs f)
    (hlit : ∀ x ∈ s.conditionInputs f, g.literalBoundaries x = f.literalBoundaries x)
    (halike : ∀ env, s.TriedForCompleteness f settings env → f.AlikeAt g env) :
    (s'.checkCompleteness g settings).run' = (s.checkCompleteness f settings).run' := by
  unfold Schedule.checkCompleteness
  dsimp only
  rw [hnames, Schedule.defaultEnv_of_inputs hs, hname]
  -- the domains are computed alike, from the same inputs and the same literals; split the
  -- right side first, so that each split meets the match of the domains
  symm
  split
  next sig hsig =>
    symm
    split
    next sig' hsig' =>
      cases List.mapM_eq_of_congr (fun n hn => by rw [Schedule.input?_of_inputs hs, hlit n hn])
        hsig' hsig
      rfl
    next domains hd =>
      cases List.mapM_eq_of_congr (fun n hn => by rw [Schedule.input?_of_inputs hs, hlit n hn])
        hd hsig
  next domains hd =>
    symm
    split
    next sig' hsig' =>
      cases List.mapM_eq_of_congr (fun n hn => by rw [Schedule.input?_of_inputs hs, hlit n hn])
        hsig' hd
    next domains' hd' =>
      cases List.mapM_eq_of_congr (fun n hn => by rw [Schedule.input?_of_inputs hs, hlit n hn])
        hd' hd
      -- every position the search visits is one of the first combinations of the domains
      have hvisit : ∀ j, 0 ≤ j → j < 0 + min ((domains.map List.length).foldl (· * ·) 1)
          settings.maxCombinations.toNat → f.AlikeAt g (Completeness.comboEnv
            (s.conditionInputs f) (comboAt domains j) s.defaultEnv) := by
        intro j _ hj
        have hprod : j < (domains.map List.length).prod := by
          rw [List.prod_eq_foldl]
          omega
        have hlimit : j < settings.maxCombinations.toNat := by omega
        refine halike _ ⟨domains, Schedule.conditionDomains_forall₂ hd, _, ?_, rfl⟩
        refine List.mem_of_getElem? (i := j) ?_
        rw [List.getElem?_take_of_lt hlimit]
        exact getElem?_domainProduct domains hprod
      rw [Traced.run'_eq_run, Traced.run'_eq_run, Traced.run_note, Traced.run_note,
        Traced.run_bind, Traced.run_bind, search_congr hname hvisit]

/-- Monotonicity checks of two fees of one name, in schedules of the same inputs, agree when
the fees compare the input with the same literals and fire alike at every value tried. -/
theorem Schedule.checkMonotonicity_congr (hs : s'.inputs = s.inputs) (hname : g.name = f.name)
    {i : Input} {d : Direction}
    (hlit : g.literalBoundaries i.name = f.literalBoundaries i.name)
    (halike : ∀ env, s.TriedForMonotonicity f i settings env → f.AlikeAt g env) :
    (s'.checkMonotonicity g i d settings).run' = (s.checkMonotonicity f i d settings).run' := by
  unfold Schedule.checkMonotonicity
  rw [hlit, Schedule.defaultEnv_of_inputs hs, hname]
  split
  next sig hsig => rfl
  next values hvalues =>
    rw [Traced.run'_eq_run, Traced.run'_eq_run, Traced.run_bind, Traced.run_bind,
      sample_congr hname fun v hv => halike _ ⟨values, hvalues, v, hv, rfl⟩]

end Checks

/-! ### Verification of the inlined fee -/

/-- Verification does not change when a fee's variables are inlined, provided the fee
evaluates on every environment a check tries and inlining adds no literal that a condition
compares an input with. Wherever the fee evaluates, its inlined form has the same outcome,
without variables; its conditions read the same inputs, in any schedule of the same inputs;
and under the two provisions the completeness and monotonicity checks of the inlined fee give
the same answers and note the same events. -/
theorem inlining_preserves_verification {s s' : Schedule} (hs : s'.inputs = s.inputs)
    (f : Fee) :
    (∀ env o, feeOutcome f env = .ok o →
      feeOutcome f.inline env = .ok { o with fee := f.inline, letValues := [] }) ∧
    s'.conditionInputs f.inline = s.conditionInputs f ∧
    (∀ settings, (∀ x ∈ s.conditionInputs f, f.inline.literalBoundaries x = f.literalBoundaries x) →
      (∀ env, s.TriedForCompleteness f settings env → ∃ o, feeOutcome f env = .ok o) →
      (s'.checkCompleteness f.inline settings).run' = (s.checkCompleteness f settings).run') ∧
    (∀ i d settings, f.inline.literalBoundaries i.name = f.literalBoundaries i.name →
      (∀ env, s.TriedForMonotonicity f i settings env → ∃ o, feeOutcome f env = .ok o) →
      (s'.checkMonotonicity f.inline i d settings).run' =
        (s.checkMonotonicity f i d settings).run') := by
  -- where the fee evaluates, it fires alike with its inlined form
  have halike : ∀ env, (∃ o, feeOutcome f env = .ok o) → f.AlikeAt f.inline env :=
    fun env ⟨_, ho⟩ => Fee.alikeAt_inline ho
  refine ⟨fun env o h => feeOutcome_inline h, Schedule.conditionInputs_inline hs f, ?_, ?_⟩
  · intro settings hlit hok
    exact Schedule.checkCompleteness_congr hs f.inline_name (Schedule.conditionInputs_inline hs f) hlit
      fun env henv => halike env (hok env henv)
  · intro i d settings hlit hok
    exact Schedule.checkMonotonicity_congr hs f.inline_name hlit fun env henv =>
      halike env (hok env henv)

/-- The size of the applicant, large by default. -/
def entityInput : Input :=
  ⟨"entity", "Applicant size", .list [⟨"large", "Large entity"⟩, ⟨"small", "Small entity"⟩] "large",
    none⟩

/-- An examination fee of 100, halved for a small entity whose examination is not expedited;
the reduction is a variable. -/
def examinationFee : Fee :=
  ⟨"examination", [⟨.num (Decimal.ofNat 50), some (.ref "reduced")⟩, ⟨.num (Decimal.ofNat 100), none⟩],
    [⟨"reduced", .binary .and (.binary .eq (.ref "entity") (.sym "small"))
      (.unary .not (.ref "expedite"))⟩], false, none⟩

/-- The examination fee over the size of the applicant and the expedition flag. -/
def examinationSchedule : Schedule :=
  ⟨[entityInput, expediteInput], [examinationFee], [], [], [], none⟩

/-- The examination fee is verified alike with its reduction inlined: it evaluates on every
combination tried, inlining adds no literal, and both checks give the same answers. -/
theorem inlined_examination_fee_verifies_alike :
    (∀ x ∈ examinationSchedule.conditionInputs examinationFee,
      examinationFee.inline.literalBoundaries x = examinationFee.literalBoundaries x) ∧
    (∀ env, examinationSchedule.TriedForCompleteness examinationFee {} env →
      ∃ o, feeOutcome examinationFee env = .ok o) ∧
    (examinationSchedule.checkCompleteness examinationFee.inline {}).run' =
      (examinationSchedule.checkCompleteness examinationFee {}).run' ∧
    (examinationSchedule.checkMonotonicity examinationFee.inline expediteInput .decreasing {}).run' =
      (examinationSchedule.checkMonotonicity examinationFee expediteInput .decreasing {}).run' := by
  have hlit : ∀ x, examinationFee.inline.literalBoundaries x = examinationFee.literalBoundaries x :=
    fun _ => rfl
  have hnames : examinationSchedule.conditionInputs examinationFee =
      [entityInput.name, expediteInput.name] := by decide +kernel
  -- the fee evaluates on each of the four combinations
  have hcombos : ∀ c ∈ domainProduct [[.choice (symbolOf "large"), .choice (symbolOf "small")],
      [.boolean false, .boolean true]], (feeOutcome examinationFee (Completeness.comboEnv
        [entityInput.name, expediteInput.name] c examinationSchedule.defaultEnv)).isOk := by
    decide +kernel
  have hcomplete : ∀ env, examinationSchedule.TriedForCompleteness examinationFee {} env →
      ∃ o, feeOutcome examinationFee env = .ok o := by
    rintro env ⟨domains, hdomains, c, hc, rfl⟩
    rw [hnames] at hdomains ⊢
    obtain ⟨d₁, _, ⟨i₁, hi₁, hd₁⟩, hrest, rfl⟩ := List.forall₂_cons_left_iff.mp hdomains
    obtain ⟨d₂, _, ⟨i₂, hi₂, hd₂⟩, hnil, rfl⟩ := List.forall₂_cons_left_iff.mp hrest
    rw [List.forall₂_nil_left_iff.mp hnil] at hc
    have he₁ : examinationSchedule.input? entityInput.name = some entityInput := by decide +kernel
    have he₂ : examinationSchedule.input? expediteInput.name = some expediteInput := by decide +kernel
    rw [he₁, Option.some.injEq] at hi₁
    rw [he₂, Option.some.injEq] at hi₂
    subst hi₁ hi₂
    cases hd₁
    cases hd₂
    exact exists_eq_ok_of_isOk (hcombos c (List.mem_of_mem_take hc))
  have hmono : ∀ env, examinationSchedule.TriedForMonotonicity examinationFee expediteInput {} env →
      ∃ o, feeOutcome examinationFee env = .ok o := by
    rintro env ⟨values, hvalues, v, hv, rfl⟩
    cases hvalues
    have hok : ∀ v ∈ [BoundValue.boolean false, .boolean true], (feeOutcome examinationFee
        ((expediteInput.name, v.toValue) :: examinationSchedule.defaultEnv)).isOk := by
      decide +kernel
    exact exists_eq_ok_of_isOk (hok v hv)
  have hverify := @inlining_preserves_verification examinationSchedule examinationSchedule rfl
    examinationFee
  exact ⟨fun x _ => hlit x, hcomplete, hverify.2.2.1 {} (fun x _ => hlit x) hcomplete,
    hverify.2.2.2 expediteInput .decreasing {} (hlit _) hmono⟩

/-- A selection of parts, none by default. -/
def partsInput : Input := ⟨"parts", "Parts", .multilist [⟨"a", "A"⟩, ⟨"b", "B"⟩] [], none⟩

/-- A fee of 10 shared among the parts selected, nothing without parts; the share is a
variable, computed before any case. -/
def shareFee : Fee :=
  ⟨"share", [⟨.ref "each", some (.binary .gt (.call .count [.ref "parts"]) (.num (Decimal.ofNat 0)))⟩,
      ⟨.num (Decimal.ofNat 0), none⟩],
    [⟨"each", .binary .div (.num (Decimal.ofNat 10)) (.call .count [.ref "parts"])⟩], false, none⟩

/-- The share fee over the parts. -/
def shareSchedule : Schedule := ⟨[partsInput], [shareFee], [], [], [], none⟩

/-- A fee whose only condition is a variable that compares a number of sheets with 5. -/
def bulkFee : Fee :=
  ⟨"bulk", [⟨.num (Decimal.ofNat 10), some (.ref "many")⟩, ⟨.num (Decimal.ofNat 0), none⟩],
    [⟨"many", .binary .gt (.ref "sheets") (.num (Decimal.ofNat 5))⟩], false, none⟩

/-- Inlining can change verification. The share is computed before any case, so without
parts the fee fails on a division by zero and the check finds a gap, while the inlined fee
divides only where a case that fires needs it and is complete. And a literal compared inside
a variable is no literal of the fee's conditions, so it bounds no samples of the input it is
compared with until the variable is inlined. -/
theorem inlining_changes_verification :
    (∃ r r', (shareSchedule.checkCompleteness shareFee {}).run'.1 = .ok r ∧
      (shareSchedule.checkCompleteness shareFee.inline {}).run'.1 = .ok r' ∧
      r.status = .incomplete ∧ r.uncovered = 1 ∧ r'.status = .complete ∧ r'.uncovered = 0) ∧
    bulkFee.literalBoundaries "sheets" = [] ∧
    bulkFee.inline.literalBoundaries "sheets" = [.num (Decimal.ofNat 5)] := by
  have h₁ : (shareSchedule.checkCompleteness shareFee {}).run'.1.toOption.map
      (fun r => (r.status, r.uncovered)) = some (.incomplete, 1) := by decide +kernel
  have h₂ : (shareSchedule.checkCompleteness shareFee.inline {}).run'.1.toOption.map
      (fun r => (r.status, r.uncovered)) = some (.complete, 0) := by decide +kernel
  obtain ⟨r, hr, hrs⟩ := Option.map_eq_some_iff.mp h₁
  obtain ⟨r', hr', hrs'⟩ := Option.map_eq_some_iff.mp h₂
  simp only [Prod.mk.injEq] at hrs hrs'
  exact ⟨⟨r, r', toOption_eq_some.mp hr, toOption_eq_some.mp hr', hrs.1, hrs.2, hrs'.1, hrs'.2⟩,
    by decide +kernel, by decide +kernel⟩

end FeeSchedule
