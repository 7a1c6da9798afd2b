import FeeSchedule.Evaluation.Fault

/-!
# `FeeSchedule.Evaluation.Expr`: the value of an expression

`evaluate env e` computes `e` in an environment of named values. The rules:

* literals are their own values, a symbol is itself, a reference takes its value from the
  environment;
* `NOT` and `-` need a truth value and a number; negation fits the result to the decimal
  context;
* `AND` and `OR` look at their right side only when the left side does not decide;
* the other operators evaluate both sides, left first;
* arithmetic needs numbers, except that a date minus a date is the number of days between
  them; division by a zero (of either sign) is an error of its own; a decimal signal of
  the operation becomes an arithmetic error of the expression;
* `=` and `!=` compare by `Value.equals`; the orderings need two numbers or two dates;
* `CONTAINS` needs a set on the left and tells whether the right side is a member;
* a call evaluates all arguments, then: `COUNT` the size of a set, `ROUND` to a whole
  number of places (none by default) with halves away from zero, `FLOOR` and `CEIL` to an
  integer, `ABS` the magnitude, `MIN` and `MAX` the first least or greatest argument. Any
  decimal signal met while the call is evaluated, in its arguments too, becomes an
  arithmetic error of the call.
-/

namespace FeeSchedule

/-- Named values: a later binding of a name hides an earlier one. -/
abbrev Env := List (String × Value)

namespace Evaluation

/-- The number an operand `e` gave, or the fault that it is not one. -/
def asNumber (e : Expr) : Value → Except EvalFault Decimal
  | .num d => pure d
  | v => throw (.notANumber e v)

/-- The truth value an operand `e` gave, or the fault that it is not one. -/
def asBoolean (e : Expr) : Value → Except EvalFault Bool
  | .bool b => pure b
  | v => throw (.notABoolean e v)

/-- A decimal result of `e`, its signal made an arithmetic error of `e`. -/
def arith (e : Expr) (r : Except Signal Decimal) : Except EvalFault Value :=
  match r with
  | .ok d => pure (.num d)
  | .error s => throw (.arithmetic e s)

/-- A result whose signal stops the evaluation as it is. -/
def raw {α : Type} (r : Except Signal α) : Except EvalFault α :=
  match r with
  | .ok a => pure a
  | .error s => throw (.signal s)

/-- The arithmetic operation `op` of `e = l op r` on the values of its sides. -/
def arithmetic (e : Expr) (op : BinaryOp) (l r : Expr) (a b : Value) : Except EvalFault Value :=
  match op, a, b with
  | .sub, .date x, .date y => pure (.num (Decimal.ofInt (Date.daysFrom x y)))
  | _, _, _ => do
    let x ← asNumber l a
    let y ← asNumber r b
    match op with
    | .add => arith e (Decimal.add x y)
    | .sub => arith e (Decimal.sub x y)
    | .mul => arith e (Decimal.mul x y)
    | _ =>
      match Decimal.equals y Decimal.zero with
      | .error s => throw (.arithmetic e s)
      | .ok true => throw (.divisionByZero e)
      | .ok false => arith e (Decimal.div x y)

/-- The ordering comparison `op` of `e` on two values. -/
def order (e : Expr) (op : BinaryOp) (a b : Value) : Except EvalFault Value := do
  let o ← match a, b with
    | .num x, .num y => raw (Decimal.order x y)
    | .date x, .date y => pure (compare x.ordinal y.ordinal)
    | _, _ => throw (.cannotOrder a b e)
  let holds := match op with
    | .lt => o == .lt
    | .le => o != .gt
    | .gt => o == .gt
    | _ => o != .lt
  pure (.bool holds)

/-- Whether `v` is a member of the set of symbols `ss`. A signalling NaN cannot be looked up. -/
def member (v : Value) (ss : List (List CodePoint)) : Except EvalFault Bool :=
  match v with
  | .sym s => pure (ss.contains s)
  | .num d => if d.isSignaling then throw .unhashable else pure false
  | _ => pure false

/-- The whole number of places of `ROUND` as an integer; beyond `10 ^ 18` every size gives
the same outcome, so larger ones are cut there. -/
def placesValue : Decimal → Int
  | .finite s c e =>
    let n : Int := if Decimal.adjusted c e > 18 then Nat.pow 10 19
      else if e ≥ 0 then (c * Nat.pow 10 e.toNat : Nat) else (c / Nat.pow 10 (-e).toNat : Nat)
    if s then -n else n
  | _ => 0

/-- `ROUND(x, places)`: `x` to `places` places after the point, halves away from zero. -/
def round (e : Expr) (x places : Decimal) : Except EvalFault Value := do
  let whole ← raw (Decimal.toIntegral .halfEven places)
  let isWhole ← raw (Decimal.equals places whole)
  if !isWhole then throw (.fractionalPlaces e)
  if !places.isFinite then throw .infinitePlaces
  let quantum ← raw (Decimal.scaleBy (Decimal.ofNat 1) (-placesValue places))
  pure (.num (← raw (Decimal.quantize .halfUp x quantum)))

/-- The first least (`better = lt`) or greatest (`better = gt`) of numbers: a later one
replaces the one kept only when it is strictly better. -/
def extreme (better : Decimal → Decimal → Except Signal Bool) (best : Decimal) :
    List Decimal → Except EvalFault Decimal
  | [] => pure best
  | y :: ys => do
    let b ← raw (better y best)
    extreme better (if b then y else best) ys

/-- A built-in function `f` of the call `e` applied to the values of its arguments `args`. -/
def applyBuiltin (e : Expr) (f : Builtin) (args : List Expr) (vs : List Value) :
    Except EvalFault Value := do
  match f with
  | .count =>
    match vs with
    | [] => throw .missingArgument
    | .set ss :: _ => pure (.num (Decimal.ofNat ss.length))
    | _ :: _ => throw (.countNeedsSet e)
  | _ =>
    let nums ← (vs.zip args).mapM fun (v, a) => asNumber a v
    match f, nums with
    | .round, x :: rest => round e x (rest.head?.getD Decimal.zero)
    | .floor, x :: _ => pure (.num (← raw (Decimal.toIntegral .floor x)))
    | .ceil, x :: _ => pure (.num (← raw (Decimal.toIntegral .ceiling x)))
    | .abs, x :: _ => pure (.num (← raw (Decimal.abs x)))
    | .min, x :: xs => pure (.num (← extreme Decimal.lt x xs))
    | .max, x :: xs => pure (.num (← extreme Decimal.gt x xs))
    | .min, [] => throw (.noArguments .min)
    | .max, [] => throw (.noArguments .max)
    | _, _ => throw .missingArgument

end Evaluation

open Evaluation in
mutual

/-- The value of an expression in an environment, as described in the module header. -/
def evaluate (env : Env) : Expr → Except EvalFault Value
  | .num d => pure (.num d)
  | .bool b => pure (.bool b)
  | .date d => pure (.date d)
  | .sym s => pure (.sym (symbolOf s))
  | .ref n =>
    match env.lookup n with
    | some v => pure v
    | none => throw (.unbound n)
  | .unary .not x => do
    let b ← asBoolean x (← evaluate env x)
    pure (.bool !b)
  | .unary .neg x => do
    let d ← asNumber x (← evaluate env x)
    pure (.num (← raw d.neg))
  | .binary .and l r => do
    if ← asBoolean l (← evaluate env l) then
      pure (.bool (← asBoolean r (← evaluate env r)))
    else pure (.bool false)
  | .binary .or l r => do
    if ← asBoolean l (← evaluate env l) then pure (.bool true)
    else pure (.bool (← asBoolean r (← evaluate env r)))
  | .binary op l r => do
    let a ← evaluate env l
    let b ← evaluate env r
    let e := Expr.binary op l r
    match op with
    | .add | .sub | .mul | .div => arithmetic e op l r a b
    | .contains =>
      match a with
      | .set ss => pure (.bool (← member b ss))
      | _ => throw (.containsNeedsSet e)
    | .eq => pure (.bool (← raw (Value.equals a b)))
    | .ne => pure (.bool !(← raw (Value.equals a b)))
    | _ => order e op a b
  | .call f args =>
    let e := Expr.call f args
    match evaluateAll env args with
    | .error fault => .error (fault.inCall e)
    | .ok vs =>
      match applyBuiltin e f args vs with
      | .error fault => .error (fault.inCall e)
      | .ok v => .ok v

/-- The values of a list of expressions, left to right, stopping at the first fault. -/
def evaluateAll (env : Env) : List Expr → Except EvalFault (List Value)
  | [] => pure []
  | x :: xs => do
    let v ← evaluate env x
    let vs ← evaluateAll env xs
    pure (v :: vs)

end

/-! One equation for each kind of expression but literals. -/

section Equations

variable {env : Env}

theorem evaluate_ref (n : String) :
    evaluate env (.ref n) = match env.lookup n with
      | some v => pure v
      | none => throw (.unbound n) := rfl

theorem evaluate_not (x : Expr) :
    evaluate env (.unary .not x) = (do
      let b ← Evaluation.asBoolean x (← evaluate env x)
      pure (.bool !b)) := rfl

theorem evaluate_neg (x : Expr) :
    evaluate env (.unary .neg x) = (do
      let d ← Evaluation.asNumber x (← evaluate env x)
      pure (.num (← Evaluation.raw d.neg))) := rfl

theorem evaluate_and (l r : Expr) :
    evaluate env (.binary .and l r) = (do
      if ← Evaluation.asBoolean l (← evaluate env l) then
        pure (.bool (← Evaluation.asBoolean r (← evaluate env r)))
      else pure (.bool false)) := rfl

theorem evaluate_or (l r : Expr) :
    evaluate env (.binary .or l r) = (do
      if ← Evaluation.asBoolean l (← evaluate env l) then pure (.bool true)
      else pure (.bool (← Evaluation.asBoolean r (← evaluate env r)))) := rfl

/-- Every operator but the two that may skip their right side evaluates both sides first. -/
theorem evaluate_binary {op : BinaryOp} (hand : op ≠ .and) (hor : op ≠ .or) (l r : Expr) :
    evaluate env (.binary op l r) = (do
      let a ← evaluate env l
      let b ← evaluate env r
      let e := Expr.binary op l r
      match op with
      | .add | .sub | .mul | .div => Evaluation.arithmetic e op l r a b
      | .contains =>
        match a with
        | .set ss => pure (.bool (← Evaluation.member b ss))
        | _ => throw (.containsNeedsSet e)
      | .eq => pure (.bool (← Evaluation.raw (Value.equals a b)))
      | .ne => pure (.bool !(← Evaluation.raw (Value.equals a b)))
      | _ => Evaluation.order e op a b) := by
  cases op
  case and => exact absurd rfl hand
  case or => exact absurd rfl hor
  all_goals rfl

theorem evaluate_call (f : Builtin) (args : List Expr) :
    evaluate env (.call f args) =
      match evaluateAll env args with
      | .error fault => .error (fault.inCall (.call f args))
      | .ok vs =>
        match Evaluation.applyBuiltin (.call f args) f args vs with
        | .error fault => .error (fault.inCall (.call f args))
        | .ok v => .ok v := rfl

theorem evaluateAll_cons (x : Expr) (xs : List Expr) :
    evaluateAll env (x :: xs) = (do
      let v ← evaluate env x
      let vs ← evaluateAll env xs
      pure (v :: vs)) := rfl

end Equations

end FeeSchedule
