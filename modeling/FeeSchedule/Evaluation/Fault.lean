import FeeSchedule.Evaluation.Value

/-!
# `FeeSchedule.Evaluation.Fault`: why an evaluation fails

Most failures of an evaluation are evaluation errors with a message that names the
expression concerned: a name without value, an operand of the wrong kind, division by
zero, values that cannot be ordered, a decimal signal raised by arithmetic or by a built-in
function (`Arithmetic error in '...': InvalidOperation(...)`), a bad number of places.

A decimal signal outside arithmetic and calls (negation, ordering a NaN, totals that
overflow) is not turned into an evaluation error; it stops the evaluation as it is
(`EvalFault.signal`). So do three failures of calls that the checker rules out in a
schedule but that a lone expression can reach: a call without the argument it needs, the
least or greatest of nothing, and a number of places that is infinite. A signalling NaN
looked up in a set of symbols cannot be hashed and fails as well.
-/

namespace FeeSchedule

/-- A failure of an evaluation. -/
inductive EvalFault where
  /-- A reference to a name that has no value. -/
  | unbound (name : String)
  /-- The operand `e` gave `v` where a number was needed. -/
  | notANumber (e : Expr) (v : Value)
  /-- The operand `e` gave `v` where a truth value was needed. -/
  | notABoolean (e : Expr) (v : Value)
  /-- Arithmetic or a call `e` raised a decimal signal. -/
  | arithmetic (e : Expr) (s : Signal)
  /-- The division `e` has a zero divisor. -/
  | divisionByZero (e : Expr)
  /-- The comparison `e` orders two values that have no order. -/
  | cannotOrder (l r : Value) (e : Expr)
  /-- The left side of `CONTAINS` in `e` is not a set. -/
  | containsNeedsSet (e : Expr)
  /-- The argument of `COUNT` in `e` is not a set. -/
  | countNeedsSet (e : Expr)
  /-- The places of `ROUND` in `e` are not a whole number. -/
  | fractionalPlaces (e : Expr)
  /-- Values supplied for inputs that do not fit them. -/
  | misfits (problems : List String)
  /-- A case without condition stands before the last case of a fee. -/
  | earlyFallback (fee : String) (i : Nat)
  /-- A decimal signal that is not turned into an evaluation error. -/
  | signal (s : Signal)
  /-- A call without the argument it needs. -/
  | missingArgument
  /-- `MIN` or `MAX` of nothing. -/
  | noArguments (f : Builtin)
  /-- Rounding to an infinite number of places. -/
  | infinitePlaces
  /-- A signalling NaN looked up in a set. -/
  | unhashable
  deriving Repr, Inhabited

namespace EvalFault

/-- The class of a failure, as reported. -/
def kind : EvalFault → String
  | .signal s => s.kind
  | .missingArgument => "IndexError"
  | .noArguments _ => "ValueError"
  | .infinitePlaces => "OverflowError"
  | .unhashable => "TypeError"
  | _ => "EvaluationError"

/-- The message of a failure. -/
def message : EvalFault → String
  | .unbound n => "Name '" ++ n ++ "' has no value"
  | .notANumber e v => "Expected a number in '" ++ e.render ++ "', got " ++ v.echo
  | .notABoolean e v => "Expected a boolean in '" ++ e.render ++ "', got " ++ v.echo
  | .arithmetic e s => "Arithmetic error in '" ++ e.render ++ "': " ++ s.describe
  | .divisionByZero e => "Division by zero in '" ++ e.render ++ "'"
  | .cannotOrder l r e =>
    "Cannot order " ++ l.echo ++ " and " ++ r.echo ++ " in '" ++ e.render ++ "'"
  | .containsNeedsSet e => "CONTAINS requires a multilist in '" ++ e.render ++ "'"
  | .countNeedsSet e => "COUNT requires a multilist in '" ++ e.render ++ "'"
  | .fractionalPlaces e => "ROUND places must be a whole number in '" ++ e.render ++ "'"
  | .misfits ps => "; ".intercalate ps
  | .earlyFallback f i =>
    "Fee '" ++ f ++ "': case " ++ toString i ++ " has no condition but is not the last case"
  | .signal s => s.report
  | .missingArgument => "list index out of range"
  | .noArguments f =>
    (if f = .max then "max" else "min") ++ "() arg is an empty sequence"
  | .infinitePlaces => "cannot convert Infinity to integer"
  | .unhashable => "Cannot hash a signaling NaN value"

/-- A signal seen by a call `e`: a bare signal becomes an arithmetic error of the call. -/
def inCall (e : Expr) : EvalFault → EvalFault
  | .signal s => .arithmetic e s
  | f => f

end EvalFault

end FeeSchedule
