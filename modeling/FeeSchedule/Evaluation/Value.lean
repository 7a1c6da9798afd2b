import FeeSchedule.Report.Info
import FeeSchedule.Decimal.Arith
import FeeSchedule.Text.Quoted

/-!
# `FeeSchedule.Evaluation.Value`: values of inputs and of expressions

Two kinds of values meet in an evaluation. A `BoundValue` is what a user gives for an input:
a number (for number and amount inputs), a truth value, the chosen symbol of a list, the
selected symbols of a selection in the order given, or a date. A `Value` is what an
expression computes: a number, a truth value, a date, a symbol, or a set of symbols. A
selection becomes the set of its symbols, so its order and repeats no longer matter; sets
are kept sorted and without repeats, so that equal sets are equal lists.

Equality of values (`Value.equals`) is numeric between numbers and also between a number
and a truth value (true is 1, false is 0); values of other different kinds are never equal.
A quiet NaN equals nothing, and a signalling NaN stops the comparison with an invalid
operation when it meets a number or a truth value.

Symbols are text of any kind (`List CodePoint`): those of a schedule are names, but values
given from outside may hold any code point, a surrogate standing alone among them, and such
a symbol is compared, sorted and quoted exactly.

`Value.echo` is how messages show a value: `Decimal('2.5')`, `True`, `'abc'`,
`datetime.date(2024, 1, 1)`, `frozenset({'a', 'b'})`. `Value.text` is how reports show it:
`TRUE` or `FALSE`, `{a, b}`, the date in ISO form, the symbol, the number's text.
-/

namespace FeeSchedule

/-- Inserts a symbol into a sorted list without repeats. -/
def insertSymbol (s : List CodePoint) : List (List CodePoint) → List (List CodePoint)
  | [] => [s]
  | t :: ts => if s == t then t :: ts else if s < t then s :: t :: ts else t :: insertSymbol s ts

/-- The sorted list of the distinct symbols of a list. -/
def symbolSet (ss : List (List CodePoint)) : List (List CodePoint) :=
  ss.foldl (fun acc s => insertSymbol s acc) []

/-- The symbol of a name of a schedule. -/
def symbolOf (name : String) : List CodePoint := CodePoint.ofString name

/-- The symbols of a set between braces, as reports show them. -/
def bracedSymbols (ss : List (List CodePoint)) : String := braced (ss.map CodePoint.mend)

/-- A value computed by an expression. -/
inductive Value where
  | num (d : Decimal)
  | bool (b : Bool)
  | date (d : Date)
  | sym (s : List CodePoint)
  /-- A set of symbols, sorted and without repeats. -/
  | set (ss : List (List CodePoint))
  deriving DecidableEq, Repr, Inhabited

namespace Value

/-- How messages show a value. -/
def echo : Value → String
  | .num d => d.constructorText
  | .bool b => if b then "True" else "False"
  | .date d => d.constructorText
  | .sym s => Text.quotedPoints s
  | .set [] => "frozenset()"
  | .set ss => "frozenset(\x7b" ++ ", ".intercalate (ss.map Text.quotedPoints) ++ "\x7d)"

/-- How reports show a value. -/
def text : Value → String
  | .num d => d.toText
  | .bool b => if b then "TRUE" else "FALSE"
  | .date d => d.isoText
  | .sym s => CodePoint.mend s
  | .set ss => bracedSymbols ss

/-- The number of a truth value when it is compared with a number. -/
def truthNumber (b : Bool) : Decimal := Decimal.ofNat (if b then 1 else 0)

/-- Whether two values are equal, as described in the module header. -/
def equals : Value → Value → Except Signal Bool
  | .num a, .num b => Decimal.equals a b
  | .num a, .bool b => Decimal.equals a (truthNumber b)
  | .bool a, .num b => Decimal.equals (truthNumber a) b
  | .bool a, .bool b => pure (a == b)
  | .date a, .date b => pure (a == b)
  | .sym a, .sym b => pure (a == b)
  | .set a, .set b => pure (a == b)
  | _, _ => pure false

end Value

/-- A value given for an input. -/
inductive BoundValue where
  | number (d : Decimal)
  | boolean (b : Bool)
  | choice (s : List CodePoint)
  /-- The selected symbols of a selection, in the order given. -/
  | selection (ss : List (List CodePoint))
  | date (d : Date)
  deriving DecidableEq, Repr, Inhabited

namespace BoundValue

/-- The value an expression sees for a bound value. -/
def toValue : BoundValue → Value
  | .number d => .num d
  | .boolean b => .bool b
  | .choice s => .sym s
  | .selection ss => .set (symbolSet ss)
  | .date d => .date d

/-- How reports show a bound value: a selection in its given order. -/
def text : BoundValue → String
  | .number d => d.toText
  | .boolean b => if b then "TRUE" else "FALSE"
  | .choice s => CodePoint.mend s
  | .selection ss => bracedSymbols ss
  | .date d => d.isoText

/-- The name of the kind of a bound value, as messages show it. -/
def kindName : BoundValue → String
  | .number _ => "NumberValue"
  | .boolean _ => "BooleanValue"
  | .choice _ => "StringValue"
  | .selection _ => "StringListValue"
  | .date _ => "DateValue"

/-- Whether two bound values are the same: selections as sets, numbers by value, the others
as they are. A signalling NaN stops the comparison of numbers. -/
def same : BoundValue → BoundValue → Except Signal Bool
  | .number a, .number b => Decimal.equals a b
  | .selection a, .selection b => pure (symbolSet a == symbolSet b)
  | a, b => pure (a == b)

end BoundValue

/-- The value an input takes when none is given: its default. -/
def Input.defaultValue (i : Input) : BoundValue :=
  match i.spec with
  | .number _ _ d => .number d
  | .amount _ d => .number d
  | .boolean d => .boolean d
  | .list _ d => .choice (symbolOf d)
  | .multilist _ ds => .selection (ds.map symbolOf)
  | .date _ _ d => .date d

end FeeSchedule
