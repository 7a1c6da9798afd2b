import FeeSchedule.Check.Diagnostic

/-!
# `FeeSchedule.Check.Types`: the types of expressions

`infer` gives the type of an expression in a scope of inputs and `LET` variables, together
with the type faults found inside it, in the order the expression is read. The type is
missing when it cannot be known, which is always the consequence of a fault already
reported (an undeclared name), so such a type raises no further fault.

The rules: literals have their own type; a reference has the type of the variable or input
it names; `NOT` needs a boolean and `-` a number; `AND` and `OR` need booleans; arithmetic
needs numbers, except that two dates may be subtracted and give a number; `=` and `!=`
need equal types, the orderings two numbers or two dates; a bare symbol compared with `=`
or `!=` to a list input must be one of its choices; `CONTAINS` needs a selection on the
left and one of its choices on the right; `COUNT` takes one selection, the other built-in
functions take numbers. A comparison and `CONTAINS` are booleans, arithmetic and calls
numbers, whatever faults they hold.
-/

namespace FeeSchedule

/-- The type of the values of an input. -/
def Input.exprType (i : Input) : ExprType :=
  match i.spec with
  | .number .. | .amount .. => .number
  | .boolean .. => .boolean
  | .date .. => .date
  | .list .. => ⟨.symbol, some i.name⟩
  | .multilist .. => ⟨.symbolSet, some i.name⟩

/-- The names visible to an expression: `LET` variables with their types (a later binding of
a name hides an earlier one) and the schedule's inputs. -/
structure Scope where
  vars : List (String × ExprType)
  inputs : List Input

namespace Scope

/-- The scope of the inputs alone. -/
def ofInputs (inputs : List Input) : Scope := ⟨[], inputs⟩

/-- The scope with one more variable. -/
def bind (sc : Scope) (n : String) (t : ExprType) : Scope := ⟨(n, t) :: sc.vars, sc.inputs⟩

/-- The type of a name: a variable's first, otherwise the first input of that name's. -/
def lookup (sc : Scope) (n : String) : Option ExprType :=
  match sc.vars.lookup n with
  | some t => some t
  | none => (sc.inputs.find? (·.name == n)).map Input.exprType

/-- The choice symbols of the input named `l`, none when it is not a list or selection. -/
def symbols (sc : Scope) (l : String) : List String :=
  match sc.inputs.find? (·.name == l) with
  | some i => i.symbols
  | none => []

/-- The faults of a symbol `s` used as a value of type `t`: it must be a choice of `t`'s
list input. -/
def checkSymbol (sc : Scope) (s : String) (t : ExprType) : List TypeFault :=
  let l := t.list.getD ""
  if (sc.symbols l).contains s then [] else [.notAChoice s l]

end Scope

/-- Whether an operator is one of the six comparisons. -/
def BinaryOp.isComparison : BinaryOp → Bool
  | .eq | .ne | .lt | .le | .gt | .ge => true
  | _ => false

/-- The faults of a type `t` that should be `expected`, when `t` is known. -/
def mismatch (t : Option ExprType) (expected : ExprType) (f : ExprType → TypeFault) :
    List TypeFault :=
  match t with
  | some t => if t = expected then [] else [f t]
  | none => []

/-- The faults of a comparison between two known or unknown types. -/
def comparisonFaults (op : BinaryOp) (l r : Option ExprType) : List TypeFault :=
  match l, r with
  | some l, some r =>
    if op = .eq ∨ op = .ne then (if l = r then [] else [.cannotCompare op l r])
    else if l = r ∧ (l.kind = .number ∨ l.kind = .date) then []
    else [.needsOrdered op l r]
  | _, _ => []

/-- The faults of a call of `f` on arguments of the given types. -/
def callFaults (f : Builtin) (ts : List (Option ExprType)) : List TypeFault :=
  let n := ts.length
  match f with
  | .count =>
    match ts with
    | [some t] => if t.kind = .symbolSet then [] else [.countNeedsSelection t]
    | [none] => []
    | _ => [.countArity n]
  | _ =>
    let arityOk : Bool := match f with
      | .round => n == 1 || n == 2
      | .min | .max => n ≥ 1
      | _ => n == 1
    (if arityOk then [] else [.arity f n]) ++
      (ts.zipIdx.flatMap fun (t, i) => mismatch t .number (.argumentType i f))

/-- The faults of an arithmetic operation on two types. -/
def arithmeticFaults (op : BinaryOp) (l r : Option ExprType) : List TypeFault :=
  match l, r with
  | some l, some r =>
    if op = .sub ∧ l = .date ∧ r = .date then []
    else if l = .number ∧ r = .number then []
    else [.arithmeticOperands op l r]
  | _, _ => []

/-- The faults of comparing the symbol `s` by `op` with an expression whose type and faults
are `other`: the symbol must be compared by `=` or `!=` with a list input, and be one of its
choices. An unknown type of the other side adds nothing. -/
def symbolComparison (sc : Scope) (op : BinaryOp) (s : String)
    (other : Option ExprType × List TypeFault) : List TypeFault :=
  other.2 ++
    match other.1 with
    | none => []
    | some t =>
      if (op = .eq ∨ op = .ne) ∧ t.kind = .symbol then sc.checkSymbol s t
      else [.undeclared s]

mutual

/-- The type of an expression in a scope, with the faults found in it. -/
def infer (sc : Scope) : Expr → Option ExprType × List TypeFault
  | .num _ => (some .number, [])
  | .bool _ => (some .boolean, [])
  | .date _ => (some .date, [])
  | .sym s => (none, [.undeclared s])
  | .ref n =>
    match sc.lookup n with
    | some t => (some t, [])
    | none => (none, [.undeclared n])
  | .unary op e =>
    let (t, fs) := infer sc e
    let expected := if op = .not then ExprType.boolean else ExprType.number
    (some expected, fs ++ mismatch t expected (.unaryOperand op expected))
  | .binary op l r =>
    if op.isComparison then
      match l, r with
      | .sym s, other => (some .boolean, symbolComparison sc op s (infer sc other))
      | other, .sym s => (some .boolean, symbolComparison sc op s (infer sc other))
      | l, r =>
        let (lt, f1) := infer sc l
        let (rt, f2) := infer sc r
        (some .boolean, f1 ++ f2 ++ comparisonFaults op lt rt)
    else if op = .contains then
      let (lt, f1) := infer sc l
      let more := match lt with
        | some t =>
          if t.kind ≠ .symbolSet then [.containsNeedsSelection t]
          else match r with
            | .sym s => sc.checkSymbol s t
            | _ => [.containsNeedsChoice (t.list.getD "")]
        | none => []
      (some .boolean, f1 ++ more)
    else
      let (lt, f1) := infer sc l
      let (rt, f2) := infer sc r
      if op = .and ∨ op = .or then
        (some .boolean, f1 ++ f2 ++ mismatch lt .boolean (.logicOperand op)
          ++ mismatch rt .boolean (.logicOperand op))
      else
        (some .number, f1 ++ f2 ++ arithmeticFaults op lt rt)
  | .call f args =>
    let rs := inferAll sc args
    (some .number, (rs.flatMap (·.2)) ++ callFaults f (rs.map (·.1)))

/-- The types and faults of a list of expressions. -/
def inferAll (sc : Scope) : List Expr → List (Option ExprType × List TypeFault)
  | [] => []
  | e :: es => infer sc e :: inferAll sc es

end

end FeeSchedule
