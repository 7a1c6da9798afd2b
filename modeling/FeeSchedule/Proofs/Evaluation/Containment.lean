import FeeSchedule.Proofs.Syntax.Bounds

/-!
# `FeeSchedule.Proofs.Evaluation.Containment`: the failures of an evaluation

Evaluation turns a decimal signal into an evaluation error only in arithmetic and in calls.
A signal met anywhere else stops the computation as it is (`EvalFault.signal`): negation,
the ordering and equality of numbers, and the totals. With finite numbers everywhere, which
is what reading a schedule and binding finite values give, each of these is a finite number
or an overflow (`Decimal.Fitted`), and the comparisons never signal. Together with the
soundness of the checker (`safe_feeOutcome`), a computation then fails with an evaluation
error or with a raw overflow, and with nothing else (`EvalFault.Contained`).

`Within Q P r` says that the result `r` is a value satisfying `P` or a failure satisfying
`Q`; it is carried through the evaluator by one lemma per monad operation.

* `evaluate_within`: an expression with finite literals in an environment of finite values
  evaluates to a finite value, or fails with no raw signal but an overflow.
* `feeOutcome_within`, `Assessment.totals_within`: the same for a fee, with a finite
  contribution, and for the totals of finite contributions.
* `Schedule.EvaluableIn`: a checked schedule with finite numbers, in an environment that fits
  its inputs and holds finite values.
* `Schedule.compute_contained`, `Schedule.trace_contained`: computing and tracing such a
  schedule give finite totals or a contained failure.
-/

set_option autoImplicit false

namespace FeeSchedule

/-! ### Finite values and contained failures -/

/-- A value whose number, if it is one, is finite. -/
def Value.Finite : Value → Prop
  | .num d => d.isFinite
  | _ => True

/-- A failure that is a raw decimal signal only when that signal is an overflow. -/
def EvalFault.OverflowOnly : EvalFault → Prop
  | .signal s => s = .overflow
  | _ => True

/-- The failures an evaluation of an accepted schedule can meet: an evaluation error, or a
raw overflow of a decimal operation that runs outside arithmetic and calls. -/
def EvalFault.Contained (f : EvalFault) : Prop :=
  f.kind = "EvaluationError" ∨ f = .signal .overflow

/-- A failure of arithmetic that is no raw signal but an overflow is contained. -/
theorem EvalFault.Numeric.contained {f : EvalFault} (hn : f.Numeric) (ho : f.OverflowOnly) :
    f.Contained := by
  cases hn with
  | divisionByZero e => exact .inl rfl
  | fractionalPlaces e => exact .inl rfl
  | arithmetic e s => exact .inl rfl
  | signal s => exact .inr (congrArg EvalFault.signal ho)

/-- A call sees no raw signal: it turns each into an arithmetic error. -/
theorem EvalFault.overflowOnly_inCall (f : EvalFault) (e : Expr) : (f.inCall e).OverflowOnly := by
  cases f <;> trivial

/-- A result that is a value satisfying `P`, or a failure satisfying `Q`. -/
def Within {α : Type} (Q : EvalFault → Prop) (P : α → Prop) : Except EvalFault α → Prop
  | .ok a => P a
  | .error f => Q f

namespace Within

variable {α β : Type} {Q Q' : EvalFault → Prop} {P P' : α → Prop} {R : β → Prop}

theorem pure {a : α} (h : P a) : Within Q P (pure a) := h

theorem throw {f : EvalFault} (h : Q f) : Within Q P (throw f) := h

theorem bind {r : Except EvalFault α} {g : α → Except EvalFault β} (hr : Within Q P r)
    (hg : ∀ a, P a → Within Q R (g a)) : Within Q R (r >>= g) := by
  cases r with
  | error f => exact hr
  | ok a => exact hg a hr

theorem mono {r : Except EvalFault α} (hr : Within Q P r) (hq : ∀ f, Q f → Q' f)
    (hp : ∀ a, P a → P' a) : Within Q' P' r := by
  cases r with
  | error f => exact hq f hr
  | ok a => exact hp a hr

/-- Two facts about one result hold together. -/
theorem and {r : Except EvalFault α} (h : Within Q P r) (h' : Within Q' P' r) :
    Within (fun f => Q f ∧ Q' f) (fun a => P a ∧ P' a) r := by
  cases r with
  | error f => exact ⟨h, h'⟩
  | ok a => exact ⟨h, h'⟩

theorem of_safe {r : Except EvalFault α} (h : Safe P r) : Within EvalFault.Numeric P r := by
  cases r with
  | error f => exact h
  | ok a => exact h

/-- A safe result that meets no raw signal but an overflow fails only in a contained way. -/
theorem contained {r : Except EvalFault α} (hs : Safe P r)
    (hw : Within EvalFault.OverflowOnly P' r) : Within EvalFault.Contained P r :=
  ((of_safe hs).and hw).mono (fun _ h => h.1.contained h.2) fun _ h => h.1

/-- A raw decimal operation that fits a finite number: a finite number, or an overflow. -/
theorem raw_fitted {r : Except Signal Decimal} (h : Decimal.Fitted r) :
    Within (· = .signal .overflow) (·.isFinite) (Evaluation.raw r) := by
  cases r with
  | error s => exact congrArg EvalFault.signal h
  | ok d => exact h

/-- A raw operation that does not signal. -/
theorem raw_ok {r : Except Signal α} {a : α} (hr : r = .ok a) (h : P a) :
    Within Q P (Evaluation.raw r) := by
  subst hr
  exact h

/-- Each element of a traversal. -/
theorem mapM {f : α → Except EvalFault β} :
    ∀ {xs : List α}, (∀ x ∈ xs, Within Q R (f x)) → Within Q (∀ y ∈ ·, R y) (xs.mapM f)
  | [], _ => Within.pure (by simp)
  | x :: xs, h => by
    rw [List.mapM_cons]
    refine Within.bind (h x List.mem_cons_self) fun y hy => ?_
    refine Within.bind (mapM fun z hz => h z (List.mem_cons_of_mem _ hz)) fun ys hys => ?_
    exact Within.pure fun w hw => by
      rcases List.mem_cons.mp hw with rfl | hw
      · exact hy
      · exact hys w hw

/-- A fold whose every step keeps an invariant. -/
theorem foldlM {f : β → α → Except EvalFault β} {I : β → Prop} :
    ∀ {xs : List α} {acc : β}, (∀ acc x, I acc → x ∈ xs → Within Q I (f acc x)) → I acc →
      Within Q I (xs.foldlM f acc)
  | [], _, _, hacc => Within.pure hacc
  | x :: xs, acc, hstep, hacc => by
    rw [List.foldlM_cons]
    exact Within.bind (hstep acc x hacc List.mem_cons_self) fun acc' hacc' =>
      foldlM (fun a y ha hy => hstep a y ha (List.mem_cons_of_mem _ hy)) hacc'

end Within

/-- Every name of an environment has a finite value. -/
def Env.Finite (env : Env) : Prop := ∀ p ∈ env, p.2.Finite

/-- What holds of every value of an association list holds of the value a name looks up. -/
theorem of_lookup_eq_some {β : Type} {P : β → Prop} {l : List (String × β)} (hl : ∀ p ∈ l, P p.2)
    {n : String} {v : β} (h : l.lookup n = some v) : P v := by
  obtain ⟨l₁, l₂, hsplit, -⟩ := List.lookup_eq_some_iff.mp h
  exact hl (n, v) (by simp [hsplit])

theorem Env.Finite.lookup {env : Env} (h : env.Finite) {n : String} {v : Value}
    (hv : env.lookup n = some v) : v.Finite :=
  of_lookup_eq_some h hv

theorem Env.Finite.cons {env : Env} (h : env.Finite) {n : String} {v : Value} (hv : v.Finite) :
    Env.Finite ((n, v) :: env) := by
  intro p hp
  rcases List.mem_cons.mp hp with rfl | hp
  · exact hv
  · exact h p hp

/-! ### Values of finite numbers -/

/-- Finite values are compared for equality without a signal. -/
theorem Value.equals_of_finite {a b : Value} (ha : a.Finite) (hb : b.Finite) :
    ∃ x, Value.equals a b = .ok x := by
  cases a <;> cases b
  all_goals first
    | exact ⟨_, rfl⟩
    | exact ⟨_, Decimal.equals_of_isFinite ha hb⟩
    | exact ⟨_, Decimal.equals_of_isFinite ha rfl⟩
    | exact ⟨_, Decimal.equals_of_isFinite rfl hb⟩

namespace Evaluation

variable {e : Expr}

theorem asNumber_within {x : Expr} {v : Value} (hv : v.Finite) :
    Within EvalFault.OverflowOnly (·.isFinite) (asNumber x v) := by
  cases v with
  | num d => exact hv
  | _ => trivial

theorem asBoolean_within {x : Expr} {v : Value} :
    Within EvalFault.OverflowOnly (fun _ => True) (asBoolean x v) := by
  cases v <;> trivial

/-- A value that is not a truth value is an evaluation error. -/
theorem asBoolean_contained {x : Expr} {v : Value} :
    Within EvalFault.Contained (fun _ => True) (asBoolean x v) := by
  cases v <;> first | trivial | exact .inl rfl

theorem arith_within {r : Except Signal Decimal} (h : ∀ d, r = .ok d → d.isFinite) :
    Within EvalFault.OverflowOnly Value.Finite (arith e r) := by
  cases r with
  | error s => trivial
  | ok d => exact h d rfl

/-- Arithmetic on finite values: the number of days between dates, or a finite number, or
an arithmetic error. -/
theorem arithmetic_within {op : BinaryOp} {l r : Expr} {a b : Value} (ha : a.Finite)
    (hb : b.Finite) : Within EvalFault.OverflowOnly Value.Finite (arithmetic e op l r a b) := by
  unfold arithmetic
  split
  · exact Decimal.ofInt_isFinite _
  · refine Within.bind (asNumber_within ha) fun x hx => Within.bind (asNumber_within hb) fun y hy => ?_
    split
    · exact arith_within fun _ h => Decimal.add_isFinite hx hy h
    · exact arith_within fun _ h => Decimal.sub_isFinite hx hy h
    · exact arith_within fun _ h => Decimal.mul_isFinite hx hy h
    · split
      · trivial
      · trivial
      · exact arith_within fun _ h => Decimal.div_isFinite hx hy h

/-- Ordering finite numbers or dates never signals. -/
theorem order_within {op : BinaryOp} {a b : Value} (ha : a.Finite) (hb : b.Finite) :
    Within EvalFault.OverflowOnly Value.Finite (order e op a b) := by
  unfold order
  dsimp only
  split
  · exact Within.bind (Within.raw_ok (P := fun _ => True) (Decimal.order_of_isFinite ha hb) trivial)
      fun _ _ => trivial
  · trivial
  · trivial

theorem member_within {v : Value} {ss : List (List CodePoint)} :
    Within EvalFault.OverflowOnly (fun _ => True) (member v ss) := by
  unfold member
  split
  · trivial
  · split <;> trivial
  · trivial

/-- A raw operation that gives a finite number whenever it gives one, as seen by a call. -/
theorem raw_finite {r : Except Signal Decimal} (h : ∀ d, r = .ok d → d.isFinite) :
    Within (fun _ => True) (·.isFinite) (raw r) := by
  cases r with
  | error s => trivial
  | ok d => exact h d rfl

/-- `MIN` and `MAX` keep one of their arguments. -/
theorem extreme_within {better : Decimal → Decimal → Except Signal Bool} {best : Decimal}
    {xs : List Decimal} (hb : best.isFinite) (hxs : ∀ d ∈ xs, d.isFinite) :
    Within (fun _ => True) (·.isFinite) (extreme better best xs) := by
  induction xs generalizing best with
  | nil => exact hb
  | cons y ys ih =>
    rw [extreme.eq_2]
    refine Within.bind (P := fun _ => True) ?_ fun b _ => ?_
    · cases better y best <;> trivial
    refine ih ?_ fun d hd => hxs d (List.mem_cons_of_mem _ hd)
    split
    · exact hxs y List.mem_cons_self
    · exact hb

/-- `ROUND` of a finite number is finite. -/
theorem round_within {x places : Decimal} (hx : x.isFinite) :
    Within (fun _ => True) Value.Finite (round e x places) := by
  rw [round.eq_def]
  refine Within.bind (P := fun _ => True) ?_ fun whole _ => ?_
  · cases Decimal.toIntegral .halfEven places <;> trivial
  refine Within.bind (P := fun _ => True) ?_ fun isWhole _ => ?_
  · cases Decimal.equals places whole <;> trivial
  dsimp only
  split
  · trivial
  · split
    · trivial
    · refine Within.bind (raw_finite fun _ h => Decimal.scaleBy_isFinite rfl h) fun q hq => ?_
      exact Within.bind (raw_finite fun _ h => Decimal.quantize_isFinite hx hq h)
        fun d hd => Within.pure hd

/-- A built-in function of finite values gives a finite value. -/
theorem applyBuiltin_within {f : Builtin} {args : List Expr} {vs : List Value}
    (hvs : ∀ v ∈ vs, v.Finite) :
    Within (fun _ => True) Value.Finite (applyBuiltin e f args vs) := by
  rw [applyBuiltin.eq_def]
  by_cases hf : f = .count
  · subst hf
    dsimp only
    split
    · trivial
    · exact Decimal.ofNat_isFinite _
    · trivial
  · have hnums : Within (fun _ => True) (fun nums => ∀ d ∈ nums, d.isFinite)
        ((vs.zip args).mapM fun p => asNumber p.2 p.1) :=
      Within.mapM fun p hp =>
        (asNumber_within (hvs p.1 (List.of_mem_zip hp).1)).mono (fun _ _ => trivial) fun _ h => h
    -- every function but `COUNT` reads numbers; without one it fails
    cases f
    case count => exact absurd rfl hf
    all_goals
      dsimp only
      refine Within.bind hnums fun nums hn => ?_
      cases nums with
      | nil => trivial
      | cons x rest => ?_
      have hx : x.isFinite := hn x List.mem_cons_self
      have hrest : ∀ d ∈ rest, d.isFinite := fun d hd => hn d (List.mem_cons_of_mem _ hd)
    case round.cons => exact round_within hx
    case floor.cons =>
      exact Within.bind (raw_finite fun _ h => Decimal.toIntegral_isFinite hx h)
        fun d hd => Within.pure hd
    case ceil.cons =>
      exact Within.bind (raw_finite fun _ h => Decimal.toIntegral_isFinite hx h)
        fun d hd => Within.pure hd
    case abs.cons =>
      exact Within.bind (raw_finite fun _ h => Decimal.abs_isFinite hx h)
        fun d hd => Within.pure hd
    case min.cons => exact Within.bind (extreme_within hx hrest) fun d hd => Within.pure hd
    case max.cons => exact Within.bind (extreme_within hx hrest) fun d hd => Within.pure hd

end Evaluation

/-! ### Expressions -/

section

variable {env : Env}

open Evaluation

theorem within_unary (op : UnaryOp) {x : Expr}
    (hx : Within EvalFault.OverflowOnly Value.Finite (evaluate env x)) :
    Within EvalFault.OverflowOnly Value.Finite (evaluate env (.unary op x)) := by
  cases op with
  | not =>
    rw [evaluate_not]
    exact Within.bind hx fun v _ => Within.bind asBoolean_within fun _ _ => trivial
  | neg =>
    -- negation rounds to the context outside any handler: its overflow is raw
    rw [evaluate_neg]
    exact Within.bind hx fun v hv => Within.bind (asNumber_within hv) fun d hd =>
      Within.bind ((Within.raw_fitted (Decimal.neg_fitted hd)).mono (fun _ h => h ▸ rfl) fun _ h => h)
        fun _ hw => hw

theorem within_binary (op : BinaryOp) {l r : Expr}
    (hl : Within EvalFault.OverflowOnly Value.Finite (evaluate env l))
    (hr : Within EvalFault.OverflowOnly Value.Finite (evaluate env r)) :
    Within EvalFault.OverflowOnly Value.Finite (evaluate env (.binary op l r)) := by
  have hright : Within EvalFault.OverflowOnly Value.Finite
      (evaluate env r >>= fun v => asBoolean r v >>= fun b => pure (Value.bool b)) :=
    Within.bind hr fun v _ => Within.bind asBoolean_within fun _ _ => trivial
  by_cases hand : op = .and
  · subst hand
    rw [evaluate_and]
    refine Within.bind hl fun v _ => Within.bind asBoolean_within fun b _ => ?_
    cases b
    · trivial
    · exact hright
  by_cases hor : op = .or
  · subst hor
    rw [evaluate_or]
    refine Within.bind hl fun v _ => Within.bind asBoolean_within fun b _ => ?_
    cases b
    · exact hright
    · trivial
  rw [evaluate_binary hand hor]
  refine Within.bind hl fun a ha => Within.bind hr fun b hb => ?_
  dsimp only
  split
  all_goals first
    | exact arithmetic_within ha hb
    | exact order_within ha hb
    | skip
  · -- `CONTAINS`
    split
    · exact Within.bind member_within fun _ _ => trivial
    · trivial
  · obtain ⟨x, hx⟩ := Value.equals_of_finite ha hb
    exact Within.bind (Within.raw_ok (P := fun _ => True) hx trivial) fun _ _ => trivial
  · obtain ⟨x, hx⟩ := Value.equals_of_finite ha hb
    exact Within.bind (Within.raw_ok (P := fun _ => True) hx trivial) fun _ _ => trivial

theorem within_call (f : Builtin) {args : List Expr}
    (hargs : Within EvalFault.OverflowOnly (∀ v ∈ ·, v.Finite) (evaluateAll env args)) :
    Within EvalFault.OverflowOnly Value.Finite (evaluate env (.call f args)) := by
  rw [evaluate_call]
  cases hev : evaluateAll env args with
  | error fault => exact EvalFault.overflowOnly_inCall fault _
  | ok vs =>
    rw [hev] at hargs
    have happ : Within (fun _ => True) Value.Finite
        (applyBuiltin (.call f args) f args vs) := applyBuiltin_within hargs
    dsimp only
    cases hb : applyBuiltin (.call f args) f args vs with
    | error fault => exact EvalFault.overflowOnly_inCall fault _
    | ok v =>
      rw [hb] at happ
      exact happ

mutual

/-- An expression with finite literals, in an environment of finite values, evaluates to a
finite value or fails with no raw signal but an overflow. -/
theorem evaluate_within (henv : env.Finite) :
    (e : Expr) → e.numbersFinite → Within EvalFault.OverflowOnly Value.Finite (evaluate env e)
  | .num _, h => by
    rw [evaluate]
    exact Within.pure (by simpa [Expr.numbersFinite, Value.Finite] using h)
  | .bool _, _ => trivial
  | .date _, _ => trivial
  | .sym _, _ => trivial
  | .ref n, _ => by
    rw [evaluate_ref]
    split
    · rename_i v hv
      exact henv.lookup hv
    · trivial
  | .unary op x, h => within_unary op (evaluate_within henv x h)
  | .binary op l r, h =>
    have hlr : l.numbersFinite ∧ r.numbersFinite := by simpa [Expr.numbersFinite] using h
    within_binary op (evaluate_within henv l hlr.1) (evaluate_within henv r hlr.2)
  | .call f args, h => within_call f (evaluateAll_within henv args h)

theorem evaluateAll_within (henv : env.Finite) :
    (es : List Expr) → Expr.numbersFiniteAll es →
      Within EvalFault.OverflowOnly (∀ v ∈ ·, v.Finite) (evaluateAll env es)
  | [], _ => Within.pure (by simp)
  | e :: es, h =>
    have hes : e.numbersFinite ∧ Expr.numbersFiniteAll es := by
      simpa [Expr.numbersFiniteAll] using h
    by
      rw [evaluateAll_cons]
      refine Within.bind (evaluate_within henv e hes.1) fun v hv =>
        Within.bind (evaluateAll_within henv es hes.2) fun vs hvs => Within.pure fun w hw => ?_
      rcases List.mem_cons.mp hw with rfl | hw
      · exact hv
      · exact hvs w hw

end

end

/-! ### Fees, totals and returns -/

section

variable {env : Env}

open Evaluation

namespace FeeEvaluation

theorem bindVars_within {env : Env} (henv : env.Finite) {vars : List LetVar}
    (hfin : ∀ v ∈ vars, v.expr.numbersFinite) :
    Within EvalFault.OverflowOnly Env.Finite (bindVars env vars) := by
  induction vars generalizing env with
  | nil => exact henv
  | cons v vs ih =>
    rw [bindVars]
    exact Within.bind (evaluate_within henv v.expr (hfin v List.mem_cons_self)) fun x hx =>
      ih (henv.cons hx) fun w hw => hfin w (List.mem_cons_of_mem _ hw)

/-- Trying cases with finite numbers in an environment of finite values: the amount of the
case that fires is finite. -/
theorem firstCase_within {fee : String} {scope : Env} {last : Nat} (hscope : scope.Finite) :
    ∀ {i : Nat} {cs : List Case} {tried : List (Option Bool)}, (∀ c ∈ cs, c.numbersFinite) →
      Within EvalFault.OverflowOnly (fun r => ∀ p ∈ r.1, p.2.isFinite)
        (firstCase fee scope last i cs tried)
  | _, [], _, _ => by
    rw [firstCase]
    exact fun p hp => by cases hp
  | i, c :: cs, tried, hfin => by
    have hc := hfin c List.mem_cons_self
    simp only [Case.numbersFinite, Bool.and_eq_true] at hc
    obtain ⟨hce, hcc⟩ := hc
    have hamount : ∀ cond : Option Bool, Within EvalFault.OverflowOnly
        (fun r : Option (Nat × Decimal) × List (Option Bool) => ∀ p ∈ r.1, p.2.isFinite)
        (evaluate scope c.expr >>= fun v => asNumber c.expr v >>= fun amount =>
          pure (some (i, amount), (cond :: tried).reverse)) := fun _ =>
      Within.bind (evaluate_within hscope c.expr hce) fun v hv =>
        Within.bind (asNumber_within hv) fun d hd => Within.pure fun p hp => by
          cases hp
          exact hd
    rw [firstCase]
    cases hcond : c.condition with
    | none =>
      dsimp only
      split
      · trivial
      · exact hamount none
    | some cond =>
      have hcondfin : cond.numbersFinite := by simpa [hcond] using hcc
      dsimp only
      refine Within.bind (evaluate_within hscope cond hcondfin) fun v _ =>
        Within.bind asBoolean_within fun holds _ => ?_
      split
      · exact hamount (some true)
      · exact firstCase_within hscope fun c' hc' => hfin c' (List.mem_cons_of_mem _ hc')

end FeeEvaluation

open FeeEvaluation in
/-- A fee with finite numbers, in an environment of finite values, contributes a finite
amount or fails with no raw signal but an overflow. -/
theorem feeOutcome_within {f : Fee} (henv : env.Finite) (hfin : f.numbersFinite) :
    Within EvalFault.OverflowOnly (fun o => o.contribution.isFinite) (feeOutcome f env) := by
  simp only [Fee.numbersFinite, Bool.and_eq_true, List.all_eq_true] at hfin
  obtain ⟨hvfin, hcfin⟩ := hfin
  unfold feeOutcome
  refine Within.bind (bindVars_within henv hvfin) fun scope hscope => ?_
  refine Within.bind (firstCase_within hscope hcfin) fun r hr => ?_
  obtain ⟨fired, conditions⟩ := r
  cases fired with
  | none => exact Decimal.zero_isFinite
  | some p => exact hr p rfl

namespace Assessment

/-- The totals of finite contributions are finite, unless a sum overflows. -/
theorem totals_within {os : List FeeOutcome} (hos : ∀ o ∈ os, o.contribution.isFinite) :
    Within (· = .signal .overflow) (fun t : Decimal × Decimal => t.1.isFinite ∧ t.2.isFinite)
      (totals os) := by
  unfold totals
  refine Within.foldlM (fun acc o hacc ho => ?_) ⟨Decimal.zero_isFinite, Decimal.zero_isFinite⟩
  split
  · exact Within.bind (Within.raw_fitted (Decimal.add_fitted hacc.2 (hos o ho))) fun _ hd =>
      Within.pure ⟨hacc.1, hd⟩
  · exact Within.bind (Within.raw_fitted (Decimal.add_fitted hacc.1 (hos o ho))) fun _ hd =>
      Within.pure ⟨hd, hacc.2⟩

end Assessment

theorem Schedule.fee_numbersFinite {s : Schedule} (h : s.numbersFinite) {f : Fee}
    (hf : f ∈ s.fees) : f.numbersFinite := by
  simp only [Schedule.numbersFinite, Bool.and_eq_true, List.all_eq_true] at h
  exact h.1 f hf

theorem Schedule.condition_numbersFinite {s : Schedule} (h : s.numbersFinite) {r : Return}
    (hr : r ∈ s.returns) {c : Expr} (hc : r.condition = some c) : c.numbersFinite := by
  simp only [Schedule.numbersFinite, Bool.and_eq_true, List.all_eq_true] at h
  simpa [hc] using h.2 r hr

/-- What evaluating a schedule in an environment needs: the schedule is checked and has finite
numbers, and the environment gives every input a value of its kind and holds only finite
values. -/
structure Schedule.EvaluableIn (s : Schedule) (env : Env) : Prop where
  checked : s.Checked
  numbersFinite : s.numbersFinite
  fits : env.FitsInputs s.inputs
  finite : env.Finite

namespace Schedule.EvaluableIn

variable {s : Schedule} (h : s.EvaluableIn env)
include h

theorem feeOutcome {f : Fee} (hf : f ∈ s.fees) :
    Within EvalFault.Contained (fun o => o.contribution.isFinite) (feeOutcome f env) := by
  have hfin := Schedule.fee_numbersFinite h.numbersFinite hf
  exact Within.contained (safe_feeOutcome h.checked hf hfin h.fits) (feeOutcome_within h.finite hfin)

theorem outcomes :
    Within EvalFault.Contained (fun os => ∀ o ∈ os, o.contribution.isFinite)
      (s.fees.mapM (FeeSchedule.feeOutcome · env)) :=
  Within.mapM fun _ hf => h.feeOutcome hf

theorem activeReturns :
    ∀ {rs : List Return}, (∀ r ∈ rs, r ∈ s.returns) →
      Within EvalFault.Contained (fun _ => True) (Assessment.activeReturns env rs)
  | [], _ => trivial
  | r :: rs, hrs => by
    rw [Assessment.activeReturns]
    have hrest : ∀ active : Bool, Within EvalFault.Contained (fun _ => True)
        (Assessment.activeReturns env rs >>= fun rest =>
          pure (if active = true then r :: rest else rest)) := fun _ =>
      Within.bind (activeReturns fun r' hr' => hrs r' (List.mem_cons_of_mem _ hr'))
        fun _ _ => Within.pure (P := fun _ => True) trivial
    split
    · exact Within.bind (Within.pure (P := fun _ => True) trivial) fun active _ => hrest active
    · rename_i c hcond
      have hr := hrs r List.mem_cons_self
      have hcfin := Schedule.condition_numbersFinite h.numbersFinite hr hcond
      refine Within.bind (Within.contained (safe_returnCondition h.checked hr hcond hcfin h.fits)
        (evaluate_within h.finite c hcfin)) fun _ _ => ?_
      exact Within.bind asBoolean_contained fun active _ => hrest active

end Schedule.EvaluableIn

end

namespace Schedule

variable {s : Schedule} {b : Bindings}

/-- A computation that can be evaluated gives finite totals, or fails with an evaluation
error or a raw overflow. -/
theorem compute_contained (h : s.EvaluableIn b.env) (σ : Array Event) :
    Within EvalFault.Contained (fun r => r.mandatory.isFinite ∧ r.optional.isFinite)
      ((s.compute b).run σ).1 := by
  rw [compute_run]
  refine Within.bind h.outcomes fun os hos => ?_
  refine Within.bind ((Assessment.totals_within hos).mono (fun _ h => .inr h) fun _ h => h)
    fun t ht => ?_
  exact Within.bind (h.activeReturns fun _ h => h) fun _ _ => Within.pure ht

/-- So does an audit trail. -/
theorem trace_contained (h : s.EvaluableIn b.env) (σ : Array Event) :
    Within EvalFault.Contained (fun p => p.mandatory.isFinite ∧ p.optional.isFinite)
      ((s.trace b).run σ).1 := by
  rw [trace_run]
  refine Within.bind h.outcomes fun os hos => ?_
  exact Within.bind ((Assessment.totals_within hos).mono (fun _ h => .inr h) fun _ h => h)
    fun t ht => Within.pure ht

end Schedule

end FeeSchedule
