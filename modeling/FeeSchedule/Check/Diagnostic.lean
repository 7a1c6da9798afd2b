import FeeSchedule.Schedule.Basic

/-!
# `FeeSchedule.Check.Diagnostic`: problems found in a schedule

A diagnostic reports one problem: which check found it (`syntax` for reading faults, or one
of the named checks of the type checker), whether it is an error or a warning, whether it
comes from reading or from checking, the entity it concerns (`input claims`, `fee search`,
...), the message, and for reading faults the line. Its text is `line N: [entity] message`,
each prefix present only when known.

The type checker's findings are causes (`TypeFault`); each has one check name, one
message, and is an error except the warning that a fee has no cases.
-/

namespace FeeSchedule

/-- How serious a problem is. -/
inductive Severity where
  | error
  | warning
  deriving DecidableEq, Repr, Inhabited

/-- The name of a severity in reports. -/
def Severity.name : Severity → String
  | .error => "error"
  | .warning => "warning"

/-- Where a problem was found: while reading the text or while checking the schedule. -/
inductive Stage where
  | reading
  | checking
  deriving DecidableEq, Repr, Inhabited

/-- The name of a stage in reports. -/
def Stage.name : Stage → String
  | .reading => "syntax"
  | .checking => "type"

/-- The kinds of values an expression can have: a symbol and a set of symbols range over
the choices of a named list or selection input. -/
inductive ValueKind where
  | number | boolean | date | symbol | symbolSet
  deriving DecidableEq, Repr, Inhabited

/-- The type of an expression: its kind, and for symbols the input whose choices they are. -/
structure ExprType where
  kind : ValueKind
  list : Option String := none
  deriving DecidableEq, Repr, Inhabited

namespace ExprType

def number : ExprType := ⟨.number, none⟩
def boolean : ExprType := ⟨.boolean, none⟩
def date : ExprType := ⟨.date, none⟩

/-- The text of a type in messages: `number`, `symbol of 'entity'`, `symbol set of 'states'`. -/
def text (t : ExprType) : String :=
  let k := match t.kind with
    | .number => "number" | .boolean => "boolean" | .date => "date"
    | .symbol => "symbol" | .symbolSet => "symbol set"
  match t.list with
  | some l => if l.isEmpty then k else k ++ " of '" ++ l ++ "'"
  | none => k

end ExprType

/-- A problem found by the type checker. -/
inductive TypeFault where
  | undeclared (name : String)
  | notAChoice (symbol list : String)
  | cannotCompare (op : BinaryOp) (l r : ExprType)
  | needsOrdered (op : BinaryOp) (l r : ExprType)
  | countArity (n : Nat)
  | countNeedsSelection (t : ExprType)
  | arity (f : Builtin) (n : Nat)
  | argumentType (i : Nat) (f : Builtin) (t : ExprType)
  | unaryOperand (op : UnaryOp) (expected t : ExprType)
  | containsNeedsSelection (t : ExprType)
  | containsNeedsChoice (list : String)
  | logicOperand (op : BinaryOp) (t : ExprType)
  | arithmeticOperands (op : BinaryOp) (l r : ExprType)
  | duplicate (what name : String) (count : Nat)
  | groupUndeclared (group : String)
  | rangeReversed (lo hi : String)
  | defaultOutside (default lo hi : String)
  | noChoices
  | defaultNotChoice (default : String)
  | badCurrency (code : String)
  | shadowsInput (var : String)
  | noCases
  | unreachable (i j : Nat)
  | yieldNotNumber (i : Nat) (t : ExprType)
  | conditionNotBoolean (i : Nat) (t : ExprType)
  | returnConditionNotBoolean (t : ExprType)
  | feeUndeclared (fee : String)
  | inputUndeclared (input : String)
  deriving DecidableEq, Repr

namespace TypeFault

/-- What a function with the wrong number of arguments expects. -/
def expectedArity : Builtin → String
  | .round => "1 or 2 arguments"
  | .min | .max => "at least 1 argument"
  | _ => "1 argument"

/-- The name of the check that finds the fault. -/
def check : TypeFault → String
  | .undeclared .. => "name_resolved"
  | .notAChoice .. | .noChoices | .defaultNotChoice .. => "choice_declared"
  | .countArity .. | .arity .. => "call_arity"
  | .duplicate .. => "duplicate_name"
  | .groupUndeclared .. => "group_declared"
  | .rangeReversed .. => "range_ordered"
  | .defaultOutside .. => "default_in_range"
  | .badCurrency .. => "currency_code"
  | .shadowsInput .. => "var_shadows_input"
  | .noCases => "fee_has_cases"
  | .unreachable .. => "unreachable_case"
  | .yieldNotNumber .. => "yield_numeric"
  | .conditionNotBoolean .. | .returnConditionNotBoolean .. => "condition_boolean"
  | .feeUndeclared .. | .inputUndeclared .. => "verify_target"
  | _ => "operand_types"

/-- How serious the fault is: only a fee without cases is a mere warning. -/
def severity : TypeFault → Severity
  | .noCases => .warning
  | _ => .error

/-- The message of the fault. -/
def message : TypeFault → String
  | .undeclared n => "Name '" ++ n ++ "' is not declared"
  | .notAChoice s l => "'" ++ s ++ "' is not a choice of input '" ++ l ++ "'"
  | .cannotCompare op l r =>
    "Cannot compare " ++ l.text ++ " with " ++ r.text ++ " using '" ++ op.text ++ "'"
  | .needsOrdered op l r =>
    "Operator '" ++ op.text ++ "' requires two numbers or two dates, got " ++ l.text ++ " and "
      ++ r.text
  | .countArity n => "COUNT expects 1 argument, got " ++ toString n
  | .countNeedsSelection t => "COUNT requires a multilist input, got " ++ t.text
  | .arity f n => f.name ++ " expects " ++ expectedArity f ++ ", got " ++ toString n
  | .argumentType i f t =>
    "Argument " ++ toString i ++ " to " ++ f.name ++ " must be a number, got " ++ t.text
  | .unaryOperand op e t => "Operator '" ++ op.text ++ "' requires a " ++ e.text ++ ", got " ++ t.text
  | .containsNeedsSelection t => "CONTAINS requires a multilist input, got " ++ t.text
  | .containsNeedsChoice l => "CONTAINS requires a choice of '" ++ l ++ "' on the right"
  | .logicOperand op t => "Operator '" ++ op.text ++ "' requires booleans, got " ++ t.text
  | .arithmeticOperands op l r =>
    "Operator '" ++ op.text ++ "' requires numbers, got " ++ l.text ++ " and " ++ r.text
  | .duplicate w n c => w ++ " '" ++ n ++ "' is declared " ++ toString c ++ " times"
  | .groupUndeclared g => "Group '" ++ g ++ "' is not declared"
  | .rangeReversed lo hi => "Minimum " ++ lo ++ " is greater than maximum " ++ hi
  | .defaultOutside d lo hi => "Default " ++ d ++ " is outside [" ++ lo ++ ", " ++ hi ++ "]"
  | .noChoices => "List input declares no choices"
  | .defaultNotChoice d => "Default '" ++ d ++ "' is not one of the declared choices"
  | .badCurrency c => "'" ++ c ++ "' is not a three-letter currency code"
  | .shadowsInput v => "Variable '" ++ v ++ "' shadows an input of the same name"
  | .noCases => "Fee declares no YIELD cases and always contributes 0"
  | .unreachable i j =>
    "Case " ++ toString i ++ " is unreachable: case " ++ toString j ++ " has no condition"
  | .yieldNotNumber i t => "Case " ++ toString i ++ " yields a " ++ t.text ++ ", expected a number"
  | .conditionNotBoolean i t =>
    "Condition of case " ++ toString i ++ " is a " ++ t.text ++ ", expected a boolean"
  | .returnConditionNotBoolean t => "Return condition is a " ++ t.text ++ ", expected a boolean"
  | .feeUndeclared f => "Fee '" ++ f ++ "' is not declared"
  | .inputUndeclared x => "Input '" ++ x ++ "' is not declared"

end TypeFault

/-- One problem of a schedule, as reported. -/
structure Diagnostic where
  check : String
  severity : Severity
  stage : Stage
  entity : Option String
  message : String
  line : Option Nat
  deriving DecidableEq, Repr, Inhabited

namespace Diagnostic

/-- The diagnostic of a type fault found in `entity`. -/
def ofFault (entity : Option String) (f : TypeFault) : Diagnostic :=
  ⟨f.check, f.severity, .checking, entity, f.message, none⟩

/-- The diagnostic of a reading fault with message `m` at line `line`. -/
def reading (m : String) (line : Nat) : Diagnostic :=
  ⟨"syntax", .error, .reading, none, m, some line⟩

/-- The text of a diagnostic: `line N: [entity] message`, each prefix only when known. -/
def text (d : Diagnostic) : String :=
  let whereText := match d.line with
    | some n => "line " ++ toString n ++ ": "
    | none => ""
  let entityText := match d.entity with
    | some e => if e.isEmpty then "" else "[" ++ e ++ "] "
    | none => ""
  whereText ++ entityText ++ d.message

/-- Whether the diagnostic is an error. -/
def isError (d : Diagnostic) : Bool := d.severity == .error

end Diagnostic

end FeeSchedule
