import FeeSchedule.Evaluation.Value
import FeeSchedule.Check.Types

/-!
# `FeeSchedule.Verification.Dependencies`: what a fee reads

A fee reads inputs directly and through its `LET` variables. The dependencies of a variable
are the names its expression references, each earlier variable replaced by its own
dependencies (a name that is not an earlier variable stands for itself).

* `Schedule.conditionInputs` are the inputs the conditions of the fee's cases read;
* `Schedule.feeInputs` are the inputs the fee reads anywhere: variables, amounts,
  conditions;

both in the order of the inputs' declaration.

`Fee.literalBoundaries` lists, for one input, the literals a condition compares with an
expression that depends on that input: in each condition in order, every comparison in
pre-order, first a literal on the left against the right side, then one on the right
against the left side. A literal is a number, a date, or a negated number.
-/

namespace FeeSchedule

mutual

/-- An expression and all its sub-expressions, in pre-order. -/
def Expr.nodes (e : Expr) : List Expr :=
  e :: match e with
    | .unary _ x => x.nodes
    | .binary _ l r => l.nodes ++ r.nodes
    | .call _ args => Expr.nodesAll args
    | _ => []

/-- The nodes of a list of expressions, one after the other. -/
def Expr.nodesAll : List Expr → List Expr
  | [] => []
  | e :: es => e.nodes ++ Expr.nodesAll es

end

/-- Dependencies of the variables of a fee: a later variable of a name hides an earlier one. -/
abbrev Dependencies := List (String × List String)

/-- The names `ns` with each variable replaced by its dependencies. -/
def Dependencies.expand (deps : Dependencies) (ns : List String) : List String :=
  ns.flatMap fun n => (deps.lookup n).getD [n]

/-- The dependencies of the variables of a fee, each in terms of the ones before it. -/
def Fee.dependencies (f : Fee) : Dependencies :=
  f.vars.foldl (fun deps v => (v.name, deps.expand v.expr.refs) :: deps) []

/-- The names an expression reads, through the variables of `deps`. -/
def Dependencies.reads (deps : Dependencies) (e : Expr) : List String := deps.expand e.refs

namespace Schedule

/-- The inputs the case conditions of a fee read, in declaration order. -/
def conditionInputs (s : Schedule) (f : Fee) : List String :=
  let deps := f.dependencies
  let names := f.cases.flatMap fun c => (c.condition.map deps.reads).getD []
  s.inputNames.filter names.contains

/-- The inputs a fee reads anywhere, in declaration order. -/
def feeInputs (s : Schedule) (f : Fee) : List String :=
  let deps := f.dependencies
  let names := f.vars.flatMap (fun v => (deps.lookup v.name).getD [])
    ++ f.cases.flatMap fun c => deps.reads c.expr ++ (c.condition.map deps.reads).getD []
  s.inputNames.filter names.contains

end Schedule

/-- The value of a literal: a number, a date, or a negated number. -/
def Expr.literal? : Expr → Option Value
  | .num d => some (.num d)
  | .date d => some (.date d)
  | .unary .neg (.num d) =>
    match d.neg with
    | .ok v => some (.num v)
    | .error _ => none
  | _ => none

/-- The literals compared with an expression that depends on the input `x`, as described
in the module header. -/
def Fee.literalBoundaries (f : Fee) (x : String) : List Value :=
  let deps := f.dependencies
  let against (side other : Expr) : List Value :=
    match side.literal? with
    | some v => if (deps.reads other).contains x then [v] else []
    | none => []
  f.cases.flatMap fun c =>
    match c.condition with
    | none => []
    | some cond =>
      cond.nodes.flatMap fun
        | .binary op l r => if op.isComparison then against l r ++ against r l else []
        | _ => []

end FeeSchedule
