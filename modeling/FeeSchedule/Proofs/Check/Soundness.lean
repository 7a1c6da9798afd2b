import FeeSchedule.Proofs.Syntax.Literals
import FeeSchedule.Evaluation.Expr
import FeeSchedule.Check.Types
import Mathlib.Data.List.Forall2

/-!
# `FeeSchedule.Proofs.Check.Soundness`: typed expressions evaluate without confusion

The checker's `infer` gives an expression a type; `evaluate` computes its value. When the
checker finds no fault in an expression, its literals are finite and every name it reads
has a value of the kind of its type (`Scope.Models`), evaluation yields a value of that
kind or fails for an arithmetic reason only (`Safe`): a division by zero, a `ROUND` to
places that are not whole, or a decimal signal. It never meets a value of the wrong kind,
a name without value, a call without the argument it needs, or a NaN or an infinity.

* `Value.Fits`: a runtime value of a kind; a number must be finite.
* `EvalFault.Numeric`: the failures that remain possible.
* `sound`: the soundness theorem, by structural recursion over the expression; each
  constructor has its own lemma (`sound_unary`, `sound_binary`, `sound_call`, ...), and
  the binary operators split into comparisons, `CONTAINS`, logic and arithmetic, as the
  checker does.
-/

set_option autoImplicit false

namespace FeeSchedule

/-! ### Values of a kind, and the failures that remain -/

/-- A runtime value of the kind of a type. Numbers are finite: no literal, input or
arithmetic result is an infinity or a NaN. -/
inductive Value.Fits : Value → ValueKind → Prop
  | num {d : Decimal} : d.isFinite → Value.Fits (.num d) .number
  | bool (b : Bool) : Value.Fits (.bool b) .boolean
  | date (d : Date) : Value.Fits (.date d) .date
  | sym (s : List CodePoint) : Value.Fits (.sym s) .symbol
  | set (ss : List (List CodePoint)) : Value.Fits (.set ss) .symbolSet

/-- The failures of arithmetic: division by zero, places that are not whole, and decimal
signals, raw or as arithmetic errors. -/
inductive EvalFault.Numeric : EvalFault → Prop
  | divisionByZero (e : Expr) : EvalFault.Numeric (.divisionByZero e)
  | fractionalPlaces (e : Expr) : EvalFault.Numeric (.fractionalPlaces e)
  | arithmetic (e : Expr) (s : Signal) : EvalFault.Numeric (.arithmetic e s)
  | signal (s : Signal) : EvalFault.Numeric (.signal s)

/-- A call turns a raw signal into an arithmetic error and keeps the other failures. -/
theorem EvalFault.Numeric.inCall {f : EvalFault} (h : f.Numeric) (e : Expr) :
    (f.inCall e).Numeric := by
  cases h with
  | divisionByZero x => exact .divisionByZero x
  | fractionalPlaces x => exact .fractionalPlaces x
  | arithmetic x s => exact .arithmetic x s
  | signal s => exact .arithmetic e s

/-- A result that is a value satisfying `P`, or a failure of arithmetic. -/
def Safe {α : Type} (P : α → Prop) : Except EvalFault α → Prop
  | .ok a => P a
  | .error f => f.Numeric

namespace Safe

variable {α β : Type} {P Q : α → Prop} {R : β → Prop}

theorem pure {a : α} (h : P a) : Safe P (pure a) := h

theorem bind {r : Except EvalFault α} {g : α → Except EvalFault β} (hr : Safe P r)
    (hg : ∀ a, P a → Safe R (g a)) : Safe R (r >>= g) := by
  cases r with
  | error f => exact hr
  | ok a => exact hg a hr

/-- A raw decimal result: its signal stops the evaluation as it is. -/
theorem raw {r : Except Signal α} (h : ∀ a, r = .ok a → P a) :
    Safe P (Evaluation.raw r) := by
  cases r with
  | error s => exact .signal s
  | ok a => exact h a rfl

theorem mono {r : Except EvalFault α} (hr : Safe P r) (h : ∀ a, P a → Q a) : Safe Q r := by
  cases r with
  | error f => exact hr
  | ok a => exact h a hr

end Safe

/-- An environment gives every name of a scope a value of the kind of its type. -/
def Scope.Models (sc : Scope) (env : Env) : Prop :=
  ∀ n t, sc.lookup n = some t → ∃ v, env.lookup n = some v ∧ v.Fits t.kind

variable {sc : Scope} {env : Env}

/-- Binding a variable to a value of its type keeps the environment a model: the new name
hides the old one in both. -/
theorem Scope.Models.bind (hm : sc.Models env) {x : Value} {t : ExprType}
    (hx : x.Fits t.kind) (n : String) : (sc.bind n t).Models ((n, x) :: env) := by
  intro m u hu
  simp only [Scope.lookup, Scope.bind, List.lookup_cons] at hu
  by_cases hmn : m = n
  · subst hmn
    simp only [beq_self_eq_true] at hu
    cases hu
    exact ⟨x, by simp, hx⟩
  · have hb : (m == n) = false := by simpa using hmn
    simp only [hb] at hu
    obtain ⟨v, hv, hfit⟩ := hm m u (by simpa [Scope.lookup] using hu)
    exact ⟨v, by simp [List.lookup_cons, hb, hv], hfit⟩

@[simp] theorem mismatch_some_eq_nil {t e : ExprType} {f : ExprType → TypeFault} :
    mismatch (some t) e f = [] ↔ t = e := by
  simp [mismatch]

@[simp] theorem Evaluation.asNumber_num (e : Expr) (d : Decimal) :
    Evaluation.asNumber e (.num d) = pure d := rfl

@[simp] theorem Evaluation.asBoolean_bool (e : Expr) (b : Bool) :
    Evaluation.asBoolean e (.bool b) = pure b := rfl

/-- Soundness at one expression: with finite literals and no fault, the checker gives a
type, and evaluation a value of its kind or a failure of arithmetic. -/
def Sound (sc : Scope) (env : Env) (e : Expr) : Prop :=
  e.numbersFinite → (infer sc e).2 = [] →
    ∃ t, (infer sc e).1 = some t ∧ Safe (·.Fits t.kind) (evaluate env e)

theorem Sound.safe_any {e : Expr} (he : Sound sc env e) (hfin : e.numbersFinite)
    (h : (infer sc e).2 = []) : Safe (fun _ => True) (evaluate env e) := by
  obtain ⟨_, _, hev⟩ := he hfin h
  exact hev.mono fun _ _ => trivial

/-! ### The checker and the evaluator, one shape at a time

Both are structural recursions, so each unfolds at a constructor by computation alone. The
proofs below rewrite with these equations, not with the equation lemmas Lean derives for the
two mutual definitions: those are slow to build, and every proof that asks for one while it
is being built waits for it. -/

theorem infer_ref (n : String) :
    infer sc (.ref n) = match sc.lookup n with
      | some t => (some t, [])
      | none => (none, [.undeclared n]) := rfl

theorem infer_unary (op : UnaryOp) (e : Expr) :
    infer sc (.unary op e) =
      let (t, fs) := infer sc e
      let expected := if op = .not then ExprType.boolean else ExprType.number
      (some expected, fs ++ mismatch t expected (.unaryOperand op expected)) := rfl

theorem infer_binary (op : BinaryOp) (l r : Expr) :
    infer sc (.binary op l r) =
      if op.isComparison then
        match l, r with
        | .sym s, other => (some .boolean, symbolComparison sc op s (infer sc other))
        | other, .sym s => (some .boolean, symbolComparison sc op s (infer sc other))
        | l, r =>
          let (lt, f1) := infer sc l
          let (rt, f2) := infer sc r
          (some .boolean, f1 ++ f2 ++ comparisonFaults op lt rt)
      else if op = .contains then
        let (lt, f1) := infer sc l
        let more := match lt with
          | some t =>
            if t.kind ≠ .symbolSet then [.containsNeedsSelection t]
            else match r with
              | .sym s => sc.checkSymbol s t
              | _ => [.containsNeedsChoice (t.list.getD "")]
          | none => []
        (some .boolean, f1 ++ more)
      else
        let (lt, f1) := infer sc l
        let (rt, f2) := infer sc r
        if op = .and ∨ op = .or then
          (some .boolean, f1 ++ f2 ++ mismatch lt .boolean (.logicOperand op)
            ++ mismatch rt .boolean (.logicOperand op))
        else
          (some .number, f1 ++ f2 ++ arithmeticFaults op lt rt) := by
  -- a comparison matches on both sides while it recurses into them, which computation
  -- alone does not see through; the matches are the definition's up to their names
  refine (infer.eq_def sc _).trans ?_
  rfl

theorem inferAll_cons (e : Expr) (es : List Expr) :
    inferAll sc (e :: es) = infer sc e :: inferAll sc es := rfl

/-! ### Literals, references and unary operators -/

theorem sound_num (d : Decimal) : Sound sc env (.num d) := by
  intro hfin _
  exact ⟨.number, rfl, .num (by simpa [Expr.numbersFinite] using hfin)⟩

theorem sound_bool (b : Bool) : Sound sc env (.bool b) :=
  fun _ _ => ⟨.boolean, rfl, .bool b⟩

theorem sound_date (d : Date) : Sound sc env (.date d) :=
  fun _ _ => ⟨.date, rfl, .date d⟩

/-- A bare symbol is a fault on its own; it is typed only where it is compared. -/
theorem sound_sym (s : String) : Sound sc env (.sym s) := by
  intro _ h
  exact absurd h (List.cons_ne_nil _ _)

theorem sound_ref (hm : sc.Models env) (n : String) : Sound sc env (.ref n) := by
  intro _ h
  cases hl : sc.lookup n with
  | none =>
    rw [infer_ref, hl] at h
    exact absurd h (List.cons_ne_nil _ _)
  | some t =>
    obtain ⟨v, hv, hfit⟩ := hm n t hl
    refine ⟨t, by rw [infer_ref, hl], ?_⟩
    rw [evaluate_ref, hv]
    exact hfit

theorem sound_unary (op : UnaryOp) {x : Expr} (hx : Sound sc env x) :
    Sound sc env (.unary op x) := by
  intro hfin h
  rcases hi : infer sc x with ⟨tx, fs⟩
  rw [infer_unary] at h ⊢
  simp only [hi, List.append_eq_nil_iff] at h ⊢
  obtain ⟨t, ht, hev⟩ := hx (by simpa [Expr.numbersFinite] using hfin) (by simp [hi, h.1])
  simp only [hi] at ht
  subst ht
  have hk := mismatch_some_eq_nil.mp h.2
  cases op with
  | not =>
    refine ⟨_, rfl, ?_⟩
    rw [evaluate_not]
    refine Safe.bind hev fun v hv => ?_
    rw [hk] at hv
    cases hv with
    | bool b => exact Value.Fits.bool _
  | neg =>
    refine ⟨_, rfl, ?_⟩
    rw [evaluate_neg]
    refine Safe.bind hev fun v hv => ?_
    rw [hk] at hv
    cases hv with
    | num hd =>
      simp only [Evaluation.asNumber_num, pure_bind]
      exact Safe.bind (Safe.raw fun d h => Decimal.neg_isFinite hd h)
        fun d hd' => Safe.pure (Value.Fits.num hd')

/-! ### Comparisons

A comparison with a bare symbol on one side types the symbol by the other side, which must
then be compared by `=` or `!=`; otherwise both sides must have equal types, ordered ones
for `<`, `<=`, `>` and `>=`. -/

theorem symbolComparison_eq_nil {op : BinaryOp} {s : String}
    {o : Option ExprType × List TypeFault} (h : symbolComparison sc op s o = []) :
    o.2 = [] ∧ ∀ t, o.1 = some t → op = .eq ∨ op = .ne := by
  unfold symbolComparison at h
  rw [List.append_eq_nil_iff] at h
  refine ⟨h.1, fun t ht => ?_⟩
  have h2 := h.2
  rw [ht] at h2
  dsimp only at h2
  split at h2
  · rename_i hc
    exact hc.1
  · cases h2

/-- The three shapes of a comparison the checker accepts. -/
theorem infer_comparison_faults {op : BinaryOp} {l r : Expr} (hop : op.isComparison = true)
    (h : (infer sc (.binary op l r)).2 = []) :
    (∃ s, l = .sym s ∧ (infer sc r).2 = [] ∧
      ∀ t, (infer sc r).1 = some t → op = .eq ∨ op = .ne) ∨
    (∃ s, r = .sym s ∧ (infer sc l).2 = [] ∧
      ∀ t, (infer sc l).1 = some t → op = .eq ∨ op = .ne) ∨
    ((infer sc l).2 = [] ∧ (infer sc r).2 = [] ∧
      comparisonFaults op (infer sc l).1 (infer sc r).1 = []) := by
  rw [infer_binary] at h
  simp only [hop, if_true] at h
  split at h
  · exact .inl ⟨_, rfl, symbolComparison_eq_nil h⟩
  · exact .inr (.inl ⟨_, rfl, symbolComparison_eq_nil h⟩)
  · rcases hl : infer sc l with ⟨lt, f1⟩
    rcases hr : infer sc r with ⟨rt, f2⟩
    simp only [hl, hr, List.append_eq_nil_iff] at h
    exact .inr (.inr ⟨h.1.1, h.1.2, h.2⟩)

theorem infer_comparison_type {op : BinaryOp} {l r : Expr} (hop : op.isComparison = true) :
    (infer sc (.binary op l r)).1 = some .boolean := by
  rw [infer_binary]
  simp only [hop, if_true]
  split <;> rfl

/-- Equality compares any two values; only a signalling NaN could make it fail. -/
theorem safe_equality {op : BinaryOp} {l r : Expr} (hop : op = .eq ∨ op = .ne)
    (hl : Safe (fun _ => True) (evaluate env l)) (hr : Safe (fun _ => True) (evaluate env r)) :
    Safe (·.Fits .boolean) (evaluate env (.binary op l r)) := by
  rcases hop with rfl | rfl
  all_goals
    rw [evaluate_binary (by decide) (by decide)]
    refine Safe.bind hl fun a _ => Safe.bind hr fun b _ => ?_
    exact Safe.bind (Safe.raw (P := fun _ => True) fun _ _ => trivial)
      fun _ _ => Safe.pure (.bool _)

/-- Ordering two numbers or two dates gives a truth value. -/
theorem safe_order {op : BinaryOp} {l r : Expr} {k : ValueKind}
    (hop : op = .lt ∨ op = .le ∨ op = .gt ∨ op = .ge) (hk : k = .number ∨ k = .date)
    (hl : Safe (·.Fits k) (evaluate env l)) (hr : Safe (·.Fits k) (evaluate env r)) :
    Safe (·.Fits .boolean) (evaluate env (.binary op l r)) := by
  have hne : op ≠ .and ∧ op ≠ .or ∧ op ≠ .eq ∧ op ≠ .ne := by
    rcases hop with rfl | rfl | rfl | rfl <;> decide
  rw [evaluate_binary hne.1 hne.2.1]
  refine Safe.bind hl fun a ha => Safe.bind hr fun b hb => ?_
  have horder : Safe (·.Fits .boolean) (Evaluation.order (.binary op l r) op a b) := by
    rcases hk with rfl | rfl
    · cases ha
      cases hb
      exact Safe.bind (Safe.raw (P := fun _ => True) fun _ _ => trivial)
        fun _ _ => Safe.pure (.bool _)
    · cases ha
      cases hb
      exact Safe.pure (.bool _)
  rcases hop with rfl | rfl | rfl | rfl <;> exact horder

theorem safe_sym (s : String) : Safe (fun _ => True) (evaluate env (.sym s)) :=
  Safe.pure trivial

theorem sound_comparison {op : BinaryOp} {l r : Expr} (hop : op.isComparison = true)
    (hl : Sound sc env l) (hr : Sound sc env r) : Sound sc env (.binary op l r) := by
  intro hfin h
  simp only [Expr.numbersFinite, Bool.and_eq_true] at hfin
  refine ⟨.boolean, infer_comparison_type hop, ?_⟩
  rcases infer_comparison_faults hop h with ⟨s, rfl, hrf, hrop⟩ | ⟨s, rfl, hlf, hlop⟩ |
    ⟨hlf, hrf, hc⟩
  · obtain ⟨t, ht, -⟩ := hr hfin.2 hrf
    exact safe_equality (hrop t ht) (safe_sym s) (hr.safe_any hfin.2 hrf)
  · obtain ⟨t, ht, -⟩ := hl hfin.1 hlf
    exact safe_equality (hlop t ht) (hl.safe_any hfin.1 hlf) (safe_sym s)
  · obtain ⟨tl, htl, hevl⟩ := hl hfin.1 hlf
    obtain ⟨tr, htr, hevr⟩ := hr hfin.2 hrf
    rw [htl, htr] at hc
    by_cases heq : op = .eq ∨ op = .ne
    · exact safe_equality heq (hl.safe_any hfin.1 hlf) (hr.safe_any hfin.2 hrf)
    · have hord : op = .lt ∨ op = .le ∨ op = .gt ∨ op = .ge := by
        cases op <;> simp_all [BinaryOp.isComparison]
      simp only [comparisonFaults, heq, if_false] at hc
      split at hc
      · rename_i hsame
        obtain ⟨rfl, hk⟩ := hsame
        exact safe_order hord hk hevl hevr
      · cases hc

/-! ### `CONTAINS`, logic and arithmetic -/

theorem infer_binary_of_not_comparison {op : BinaryOp} {l r : Expr}
    (hop : op.isComparison = false) (hc : op ≠ .contains) :
    infer sc (.binary op l r) =
      if op = .and ∨ op = .or then
        (some .boolean, (infer sc l).2 ++ (infer sc r).2
          ++ mismatch (infer sc l).1 .boolean (.logicOperand op)
          ++ mismatch (infer sc r).1 .boolean (.logicOperand op))
      else (some .number, (infer sc l).2 ++ (infer sc r).2
        ++ arithmeticFaults op (infer sc l).1 (infer sc r).1) := by
  rw [infer_binary]
  simp only [hop, Bool.false_eq_true, if_false, hc]

/-- `CONTAINS` is accepted only with a selection on the left and a symbol on the right. -/
theorem infer_contains_faults {l r : Expr} (h : (infer sc (.binary .contains l r)).2 = []) :
    (infer sc l).2 = [] ∧
      ∀ t, (infer sc l).1 = some t → t.kind = .symbolSet ∧ ∃ s, r = .sym s := by
  rw [infer_binary] at h
  simp only [BinaryOp.isComparison, Bool.false_eq_true, if_false, if_true] at h
  rcases hl : infer sc l with ⟨lt, f1⟩
  simp only [hl, List.append_eq_nil_iff] at h
  refine ⟨h.1, fun t ht => ?_⟩
  have h2 := h.2
  simp only at ht
  rw [ht] at h2
  dsimp only at h2
  split at h2
  · cases h2
  · rename_i hk
    refine ⟨by simpa using hk, ?_⟩
    cases r with
    | sym s => exact ⟨s, rfl⟩
    | _ => cases h2

theorem infer_contains_type {l r : Expr} :
    (infer sc (.binary .contains l r)).1 = some .boolean := by
  rw [infer_binary]
  simp only [BinaryOp.isComparison, Bool.false_eq_true, if_false, if_true]

/-- `AND` and `OR` evaluate their right side only when the left does not decide. -/
theorem safe_logic {op : BinaryOp} {l r : Expr} (hop : op = .and ∨ op = .or)
    (hl : Safe (·.Fits .boolean) (evaluate env l)) (hr : Safe (·.Fits .boolean) (evaluate env r)) :
    Safe (·.Fits .boolean) (evaluate env (.binary op l r)) := by
  have hr' : Safe (·.Fits .boolean) (evaluate env r >>= fun v =>
      Evaluation.asBoolean r v >>= fun b => pure (Value.bool b)) :=
    Safe.bind hr fun v hv => by
      cases hv
      exact Value.Fits.bool _
  rcases hop with rfl | rfl
  · rw [evaluate_and]
    refine Safe.bind hl fun v hv => ?_
    cases hv with
    | bool b =>
      cases b
      · exact Value.Fits.bool _
      · exact hr'
  · rw [evaluate_or]
    refine Safe.bind hl fun v hv => ?_
    cases hv with
    | bool b =>
      cases b
      · exact hr'
      · exact Value.Fits.bool _

theorem safe_contains {l : Expr} {s : String}
    (hl : Safe (·.Fits .symbolSet) (evaluate env l)) :
    Safe (·.Fits .boolean) (evaluate env (.binary .contains l (.sym s))) := by
  rw [evaluate_binary (by decide) (by decide)]
  refine Safe.bind hl fun a ha => ?_
  cases ha with
  | set ss => exact Value.Fits.bool _

theorem safe_arith_result {e : Expr} {r : Except Signal Decimal}
    (h : ∀ d, r = .ok d → d.isFinite) : Safe (·.Fits .number) (Evaluation.arith e r) := by
  cases r with
  | error s => exact .arithmetic e s
  | ok d => exact Value.Fits.num (h d rfl)

/-- Arithmetic on two finite numbers, or the difference of two dates. -/
theorem safe_arith {op : BinaryOp} {l r : Expr} {kl kr : ValueKind}
    (hop : op.isArithmetic = true)
    (hk : (op = .sub ∧ kl = .date ∧ kr = .date) ∨ (kl = .number ∧ kr = .number))
    (hl : Safe (·.Fits kl) (evaluate env l)) (hr : Safe (·.Fits kr) (evaluate env r)) :
    Safe (·.Fits .number) (evaluate env (.binary op l r)) := by
  have hne : op ≠ .and ∧ op ≠ .or := by
    cases op <;> simp_all [BinaryOp.isArithmetic]
  rw [evaluate_binary hne.1 hne.2]
  refine Safe.bind hl fun a ha => Safe.bind hr fun b hb => ?_
  have harith : Safe (·.Fits .number) (Evaluation.arithmetic (.binary op l r) op l r a b) := by
    rcases hk with ⟨rfl, rfl, rfl⟩ | ⟨rfl, rfl⟩
    · cases ha
      cases hb
      rw [Evaluation.arithmetic.eq_1]
      exact Value.Fits.num rfl
    · cases ha with
      | num hx =>
        cases hb with
        | num hy =>
          rw [Evaluation.arithmetic.eq_2 _ _ _ _ _ _ (by intros; simp_all)]
          simp only [Evaluation.asNumber_num, pure_bind]
          cases op with
          | add => exact safe_arith_result fun _ h => Decimal.add_isFinite hx hy h
          | sub => exact safe_arith_result fun _ h => Decimal.sub_isFinite hx hy h
          | mul => exact safe_arith_result fun _ h => Decimal.mul_isFinite hx hy h
          | div =>
            -- a zero divisor is an error of its own, before any signal
            dsimp only
            split
            · exact .arithmetic _ _
            · exact .divisionByZero _
            · exact safe_arith_result fun _ h => Decimal.div_isFinite hx hy h
          | _ => simp [BinaryOp.isArithmetic] at hop
  cases op <;> simp [BinaryOp.isArithmetic] at hop <;> exact harith

theorem arithmeticFaults_eq_nil {op : BinaryOp} {l r : ExprType}
    (h : arithmeticFaults op (some l) (some r) = []) :
    (op = .sub ∧ l.kind = .date ∧ r.kind = .date) ∨ (l.kind = .number ∧ r.kind = .number) := by
  simp only [arithmeticFaults] at h
  split at h
  · rename_i hd
    obtain ⟨hs, rfl, rfl⟩ := hd
    exact .inl ⟨hs, rfl, rfl⟩
  · split at h
    · rename_i hn
      obtain ⟨rfl, rfl⟩ := hn
      exact .inr ⟨rfl, rfl⟩
    · cases h

theorem sound_logic {op : BinaryOp} {l r : Expr} (hop : op = .and ∨ op = .or)
    (hl : Sound sc env l) (hr : Sound sc env r) : Sound sc env (.binary op l r) := by
  intro hfin h
  simp only [Expr.numbersFinite, Bool.and_eq_true] at hfin
  have hc : op.isComparison = false ∧ op ≠ .contains := by
    rcases hop with rfl | rfl <;> decide
  rw [infer_binary_of_not_comparison hc.1 hc.2, if_pos hop] at h ⊢
  simp only [List.append_eq_nil_iff] at h
  obtain ⟨⟨⟨hlf, hrf⟩, hlm⟩, hrm⟩ := h
  obtain ⟨tl, htl, hevl⟩ := hl hfin.1 hlf
  obtain ⟨tr, htr, hevr⟩ := hr hfin.2 hrf
  rw [htl, mismatch_some_eq_nil] at hlm
  rw [htr, mismatch_some_eq_nil] at hrm
  subst hlm hrm
  exact ⟨.boolean, rfl, safe_logic hop hevl hevr⟩

theorem sound_arith {op : BinaryOp} {l r : Expr} (hop : op.isArithmetic = true)
    (hl : Sound sc env l) (hr : Sound sc env r) : Sound sc env (.binary op l r) := by
  intro hfin h
  simp only [Expr.numbersFinite, Bool.and_eq_true] at hfin
  have hc : op.isComparison = false ∧ op ≠ .contains ∧ ¬(op = .and ∨ op = .or) := by
    cases op <;> simp_all [BinaryOp.isArithmetic, BinaryOp.isComparison]
  rw [infer_binary_of_not_comparison hc.1 hc.2.1, if_neg hc.2.2] at h ⊢
  simp only [List.append_eq_nil_iff] at h
  obtain ⟨⟨hlf, hrf⟩, hfaults⟩ := h
  obtain ⟨tl, htl, hevl⟩ := hl hfin.1 hlf
  obtain ⟨tr, htr, hevr⟩ := hr hfin.2 hrf
  rw [htl, htr] at hfaults
  exact ⟨.number, rfl, safe_arith hop (arithmeticFaults_eq_nil hfaults) hevl hevr⟩

theorem sound_contains {l r : Expr} (hl : Sound sc env l) :
    Sound sc env (.binary .contains l r) := by
  intro hfin h
  simp only [Expr.numbersFinite, Bool.and_eq_true] at hfin
  obtain ⟨hlf, hk⟩ := infer_contains_faults h
  obtain ⟨tl, htl, hevl⟩ := hl hfin.1 hlf
  obtain ⟨hset, s, rfl⟩ := hk tl htl
  rw [hset] at hevl
  exact ⟨.boolean, infer_contains_type, safe_contains hevl⟩

theorem sound_binary (op : BinaryOp) {l r : Expr} (hl : Sound sc env l) (hr : Sound sc env r) :
    Sound sc env (.binary op l r) := by
  cases op with
  | add | sub | mul | div => exact sound_arith rfl hl hr
  | eq | ne | lt | le | gt | ge => exact sound_comparison rfl hl hr
  | and => exact sound_logic (.inl rfl) hl hr
  | or => exact sound_logic (.inr rfl) hl hr
  | contains => exact sound_contains hl

/-! ### Calls of built-in functions -/

namespace Evaluation

/-- `MIN` and `MAX` keep one of their finite arguments. -/
theorem safe_extreme {better : Decimal → Decimal → Except Signal Bool} {best : Decimal}
    {xs : List Decimal} (hb : best.isFinite) (hxs : ∀ d ∈ xs, d.isFinite) :
    Safe (fun d => d.isFinite) (extreme better best xs) := by
  induction xs generalizing best with
  | nil => exact hb
  | cons y ys ih =>
    rw [extreme.eq_2]
    refine Safe.bind (Safe.raw (P := fun _ => True) fun _ _ => trivial) fun b _ => ?_
    refine ih ?_ fun d hd => hxs d (List.mem_cons_of_mem _ hd)
    split
    · exact hxs y List.mem_cons_self
    · exact hb

/-- `ROUND` to finite places: places that are not whole are an error of their own, and
finite places are never infinitely many. -/
theorem safe_round {e : Expr} {x places : Decimal} (hx : x.isFinite) (hp : places.isFinite) :
    Safe (·.Fits .number) (round e x places) := by
  rw [round.eq_def]
  refine Safe.bind (Safe.raw (P := fun _ => True) fun _ _ => trivial) fun whole _ => ?_
  refine Safe.bind (Safe.raw (P := fun _ => True) fun _ _ => trivial) fun isWhole _ => ?_
  dsimp only
  split
  · exact .fractionalPlaces e
  · simp only [hp, Bool.not_true, Bool.false_eq_true, if_false]
    refine Safe.bind (Safe.raw fun q h => Decimal.scaleBy_isFinite rfl h) fun q hq => ?_
    exact Safe.bind (Safe.raw fun d h => Decimal.quantize_isFinite hx hq h)
      fun d hd => Safe.pure (Value.Fits.num hd)

/-- The numbers of the arguments of a call, one for each argument. -/
theorem safe_mapM_asNumber {g : Value × Expr → Except EvalFault Decimal}
    (hg : ∀ v a, g (v, a) = asNumber a v) {vs : List Value} {args : List Expr}
    (hv : ∀ v ∈ vs, v.Fits .number) (hlen : vs.length = args.length) :
    Safe (fun nums => nums.length = vs.length ∧ ∀ d ∈ nums, d.isFinite)
      ((vs.zip args).mapM g) := by
  induction vs generalizing args with
  | nil => exact ⟨rfl, by simp⟩
  | cons v vs ih =>
    cases args with
    | nil => cases hlen
    | cons a args =>
      obtain ⟨d, rfl, hd⟩ : ∃ d, v = .num d ∧ d.isFinite := by
        cases hv v List.mem_cons_self with
        | num h => exact ⟨_, rfl, h⟩
      rw [List.zip_cons_cons, List.mapM_cons, hg, asNumber_num, pure_bind]
      refine Safe.bind (ih (fun w hw => hv w (List.mem_cons_of_mem _ hw))
        (Nat.succ.inj hlen)) fun nums hnums => ?_
      refine Safe.pure ⟨by simp [hnums.1], fun x hx => ?_⟩
      rcases List.mem_cons.mp hx with rfl | hx
      · exact hd
      · exact hnums.2 x hx

end Evaluation

/-- `COUNT` is accepted with one argument, a selection or of unknown type. -/
theorem callFaults_count {ts : List (Option ExprType)} (h : callFaults .count ts = []) :
    ts = [none] ∨ ∃ t, ts = [some t] ∧ t.kind = .symbolSet := by
  simp only [callFaults] at h
  split at h
  · rename_i t
    split at h
    · rename_i hk
      exact .inr ⟨t, rfl, hk⟩
    · cases h
  · exact .inl rfl
  · cases h

theorem argumentFaults_eq_nil {f : Builtin} {ts : List (Option ExprType)} (ok : Bool)
    (hok : ts = [] → ok = false)
    (h : (if ok then [] else [TypeFault.arity f ts.length]) ++
      (ts.zipIdx.flatMap fun (t, i) => mismatch t .number (.argumentType i f)) = []) :
    ts ≠ [] ∧ ∀ t ∈ ts, ∀ u, t = some u → u = .number := by
  rw [List.append_eq_nil_iff, List.flatMap_eq_nil_iff] at h
  refine ⟨fun hnil => ?_, fun t ht u hu => ?_⟩
  · rw [hok hnil] at h
    simp at h
  · rw [← List.zipIdx_map_fst 0 ts] at ht
    obtain ⟨⟨t', i⟩, hmem, rfl⟩ := List.mem_map.mp ht
    have := h.2 _ hmem
    dsimp only at this hu
    rw [hu] at this
    exact mismatch_some_eq_nil.mp this

/-- The other functions are accepted with at least one argument, all numbers. -/
theorem callFaults_numbers {f : Builtin} {ts : List (Option ExprType)} (hf : f ≠ .count)
    (h : callFaults f ts = []) : ts ≠ [] ∧ ∀ t ∈ ts, ∀ u, t = some u → u = .number := by
  cases f <;> simp only [callFaults] at h
  case count => exact absurd rfl hf
  all_goals exact argumentFaults_eq_nil _ (by intro hnil; subst hnil; rfl) h

theorem fits_number_of_forall₂ {vs : List Value} {rs : List (Option ExprType × List TypeFault)}
    (hvs : List.Forall₂ (fun v r => ∃ t, r.1 = some t ∧ v.Fits t.kind) vs rs)
    (hnum : ∀ t ∈ rs.map (·.1), ∀ u, t = some u → u = .number) :
    ∀ v ∈ vs, v.Fits .number := by
  induction hvs with
  | nil => simp
  | cons h _ ih =>
    intro v hv
    rcases List.mem_cons.mp hv with rfl | hv
    · obtain ⟨t, ht, hfit⟩ := h
      rw [hnum _ List.mem_cons_self t ht] at hfit
      exact hfit
    · exact ih (fun t ht => hnum t (List.mem_cons_of_mem _ ht)) v hv

/-- The argument `COUNT` is accepted with has a value: a selection. -/
theorem count_argument_set {vs : List Value} {rs : List (Option ExprType × List TypeFault)}
    (hvs : List.Forall₂ (fun v r => ∃ t, r.1 = some t ∧ v.Fits t.kind) vs rs)
    (hcf : callFaults .count (rs.map (·.1)) = []) : ∃ ss, vs = [.set ss] := by
  rcases callFaults_count hcf with hnone | ⟨t, ht, hk⟩
  · -- an argument of unknown type carries a fault of its own
    obtain ⟨r, rfl, hr⟩ := List.map_eq_singleton_iff.mp hnone
    cases hvs with
    | cons h _ =>
      obtain ⟨t, ht, _⟩ := h
      rw [hr] at ht
      cases ht
  · obtain ⟨r, rfl, hr⟩ := List.map_eq_singleton_iff.mp ht
    cases hvs with
    | cons h hrest =>
      cases hrest
      obtain ⟨t', ht', hv⟩ := h
      rw [hr] at ht'
      cases ht'
      rw [hk] at hv
      cases hv with
      | set ss => exact ⟨ss, rfl⟩

open Evaluation in
/-- A built-in function applied to arguments of the types the checker accepts. -/
theorem safe_applyBuiltin {e : Expr} {f : Builtin} {args : List Expr} {vs : List Value}
    {rs : List (Option ExprType × List TypeFault)}
    (hvs : List.Forall₂ (fun v r => ∃ t, r.1 = some t ∧ v.Fits t.kind) vs rs)
    (hcf : callFaults f (rs.map (·.1)) = []) (hlen : vs.length = args.length) :
    Safe (·.Fits .number) (applyBuiltin e f args vs) := by
  rw [applyBuiltin.eq_def]
  by_cases hf : f = .count
  · subst hf
    obtain ⟨ss, rfl⟩ := count_argument_set hvs hcf
    exact Value.Fits.num rfl
  · obtain ⟨hne, hnum⟩ := callFaults_numbers hf hcf
    have hfits := fits_number_of_forall₂ hvs hnum
    have hvne : vs ≠ [] := by
      intro hnil
      subst hnil
      cases hvs
      exact hne rfl
    have hnums : ∀ nums : List Decimal, nums.length = vs.length →
        ∃ x rest, nums = x :: rest := by
      intro nums hl
      cases nums with
      | nil => exact absurd (List.length_eq_zero_iff.mp hl.symm) hvne
      | cons x rest => exact ⟨x, rest, rfl⟩
    cases f
    case count => exact absurd rfl hf
    all_goals
      dsimp only
      refine Safe.bind (safe_mapM_asNumber (fun _ _ => rfl) hfits hlen) fun nums hn => ?_
      obtain ⟨x, rest, rfl⟩ := hnums nums hn.1
      have hx : x.isFinite := hn.2 x List.mem_cons_self
      have hrest : ∀ d ∈ rest, d.isFinite := fun d hd => hn.2 d (List.mem_cons_of_mem _ hd)
    case round =>
      refine safe_round hx ?_
      cases rest with
      | nil => rfl
      | cons p _ => exact hrest p List.mem_cons_self
    case floor | ceil =>
      exact Safe.bind (Safe.raw fun _ h => Decimal.toIntegral_isFinite hx h)
        fun _ hd => Safe.pure (Value.Fits.num hd)
    case abs =>
      exact Safe.bind (Safe.raw fun _ h => Decimal.abs_isFinite hx h)
        fun _ hd => Safe.pure (Value.Fits.num hd)
    case min | max =>
      exact Safe.bind (safe_extreme hx hrest) fun _ hd => Safe.pure (Value.Fits.num hd)

/-- Soundness at a list of arguments: each value fits the type the checker gave it. -/
def SoundAll (sc : Scope) (env : Env) (es : List Expr) : Prop :=
  Expr.numbersFiniteAll es → (inferAll sc es).flatMap (·.2) = [] →
    Safe (fun vs => List.Forall₂ (fun v r => ∃ t, r.1 = some t ∧ v.Fits t.kind) vs
      (inferAll sc es)) (evaluateAll env es)

@[simp] theorem length_inferAll (es : List Expr) : (inferAll sc es).length = es.length := by
  induction es with
  | nil => rfl
  | cons e es ih => simp [inferAll_cons, ih]

theorem soundAll_nil : SoundAll sc env [] :=
  fun _ _ => List.Forall₂.nil

theorem soundAll_cons {e : Expr} {es : List Expr} (he : Sound sc env e)
    (hes : SoundAll sc env es) : SoundAll sc env (e :: es) := by
  intro hfin h
  simp only [Expr.numbersFiniteAll, Bool.and_eq_true] at hfin
  simp only [inferAll_cons, List.flatMap_cons, List.append_eq_nil_iff] at h
  obtain ⟨t, ht, hev⟩ := he hfin.1 h.1
  rw [inferAll_cons, evaluateAll_cons]
  exact Safe.bind hev fun v hv => Safe.bind (hes hfin.2 h.2) fun vs hvs =>
    Safe.pure (List.Forall₂.cons ⟨t, ht, hv⟩ hvs)

/-- A call: a failure met in the arguments or in the function is seen by the call, which
only turns a raw signal into an arithmetic error. -/
theorem sound_call (f : Builtin) {args : List Expr} (hargs : SoundAll sc env args) :
    Sound sc env (.call f args) := by
  intro hfin h
  have hinf : infer sc (.call f args) = (some .number,
      (inferAll sc args).flatMap (·.2) ++ callFaults f ((inferAll sc args).map (·.1))) := rfl
  rw [hinf, List.append_eq_nil_iff] at h
  refine ⟨.number, by rw [hinf], ?_⟩
  have hvs := hargs (by simpa [Expr.numbersFinite] using hfin) h.1
  rw [evaluate_call]
  cases hev : evaluateAll env args with
  | error fault =>
    rw [hev] at hvs
    exact EvalFault.Numeric.inCall hvs _
  | ok vs =>
    rw [hev] at hvs
    have hlen : vs.length = args.length := by
      rw [hvs.length_eq, length_inferAll]
    have happ := safe_applyBuiltin (e := .call f args) hvs h.2 hlen
    dsimp only
    cases hb : Evaluation.applyBuiltin (.call f args) f args vs with
    | error fault =>
      rw [hb] at happ
      exact EvalFault.Numeric.inCall happ _
    | ok v =>
      rw [hb] at happ
      exact happ

/-! ### The soundness theorem -/

mutual

/-- Every expression is sound in a scope that the environment models. -/
theorem sound (hm : sc.Models env) : (e : Expr) → Sound sc env e
  | .num d => sound_num d
  | .bool b => sound_bool b
  | .date d => sound_date d
  | .sym s => sound_sym s
  | .ref n => sound_ref hm n
  | .unary op x => sound_unary op (sound hm x)
  | .binary op l r => sound_binary op (sound hm l) (sound hm r)
  | .call f args => sound_call f (soundAll hm args)

theorem soundAll (hm : sc.Models env) : (es : List Expr) → SoundAll sc env es
  | [] => soundAll_nil
  | e :: es => soundAll_cons (sound hm e) (soundAll hm es)

end

/-- A checked expression of a known kind evaluates to a value of that kind. -/
theorem safe_typed {e : Expr} {k : ValueKind} (hm : sc.Models env) (hfin : e.numbersFinite)
    (hf : (infer sc e).2 = []) (hk : ∀ t, (infer sc e).1 = some t → t.kind = k) :
    Safe (·.Fits k) (evaluate env e) := by
  obtain ⟨t, ht, hev⟩ := sound hm e hfin hf
  rw [hk t ht] at hev
  exact hev

end FeeSchedule
