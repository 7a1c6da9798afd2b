import FeeSchedule.Evaluation.Binding

/-!
# `FeeSchedule.Evaluation.Fee`: the amount of one fee

`evaluateFee` evaluates the `LET` variables of a fee in order, each in the environment of
the inputs and the variables before it, and then tries the cases in order. A case without
condition applies; otherwise its condition must be a truth value, and the case applies when
it holds. The first case that applies fires: its amount is the fee's contribution. When
none applies the fee contributes zero. The outcome records the condition of every case
tried (none for a case without condition; cases after the one that fired are not tried)
and the final values of the variables.

A case without condition before the last case is refused (the checker reports it as
unreachable, so a checked schedule has none).
-/

namespace FeeSchedule

/-- What evaluating a fee gave. -/
structure FeeOutcome where
  fee : Fee
  contribution : Decimal
  /-- The index of the case that fired, if one did. -/
  fired : Option Nat
  /-- The condition of each case tried, in order: none for a case without condition. -/
  conditions : List (Option Bool)
  /-- The variables with their final values, each name once, in order of declaration. -/
  letValues : List (String × Value)
  deriving Inhabited

namespace FeeEvaluation

open Evaluation

/-- The environment after the variables, each evaluated in the environment before it. -/
def bindVars (env : Env) : List LetVar → Except EvalFault Env
  | [] => pure env
  | v :: vs => do
    let x ← evaluate env v.expr
    bindVars ((v.name, x) :: env) vs

/-- The case that fires among `cs`, numbered from `i` where `last` is the last index, with
its amount, and the conditions of the cases tried (`tried`, last first, before `cs`). -/
def firstCase (fee : String) (scope : Env) (last : Nat) :
    Nat → List Case → List (Option Bool) → Except EvalFault (Option (Nat × Decimal) × List (Option Bool))
  | _, [], tried => pure (none, tried.reverse)
  | i, c :: cs, tried => do
    match c.condition with
    | none =>
      if i != last then throw (.earlyFallback fee i)
      let amount ← asNumber c.expr (← evaluate scope c.expr)
      pure (some (i, amount), (none :: tried).reverse)
    | some cond =>
      let holds ← asBoolean cond (← evaluate scope cond)
      if holds then
        let amount ← asNumber c.expr (← evaluate scope c.expr)
        pure (some (i, amount), (some true :: tried).reverse)
      else firstCase fee scope last (i + 1) cs (some false :: tried)

/-- The distinct names of a list, in order of first occurrence. -/
def distinct (ns : List String) : List String :=
  ns.foldl (fun acc n => if acc.contains n then acc else acc ++ [n]) []

end FeeEvaluation

open FeeEvaluation Evaluation in
/-- The outcome of a fee in an environment, as described in the module header. -/
def feeOutcome (fee : Fee) (env : Env) : Except EvalFault FeeOutcome := do
  let scope ← bindVars env fee.vars
  let (fired, conditions) ← firstCase fee.name scope (fee.cases.length - 1) 0 fee.cases []
  let letValues := (distinct (fee.vars.map (·.name))).map fun n => (n, (scope.lookup n).getD default)
  match fired with
  | some (i, amount) => pure ⟨fee, amount, some i, conditions, letValues⟩
  | none => pure ⟨fee, Decimal.zero, none, conditions, letValues⟩

/-- Evaluates a fee in an environment (`feeOutcome`); notes the case that fired. -/
def evaluateFee (fee : Fee) (env : Env) : Traced (Except EvalFault FeeOutcome) := do
  let result := feeOutcome fee env
  match result with
  | .ok o =>
    match o.fired with
    | some i => note (.caseFired fee.name i o.contribution)
    | none => pure ()
  | .error _ => pure ()
  pure result

/-- What is noted does not change the outcome. -/
theorem evaluateFee_run (fee : Fee) (env : Env) (σ : Array Event) :
    ((evaluateFee fee env).run σ).1 = feeOutcome fee env := by
  unfold evaluateFee
  dsimp only
  split
  · split <;> rfl
  · rfl

end FeeSchedule
