import FeeSchedule.Decimal.Arith
import FeeSchedule.Calendar.Date

/-!
# `FeeSchedule.Syntax.Expr`: expressions of fee cases, conditions and variables

An expression is a literal (number, truth value, date, or the symbol of a choice), a
reference to an input or variable, a unary operation (`-`, `NOT`), a binary operation
(arithmetic, comparison, `AND`, `OR`, `CONTAINS`) or the call of a built-in function.

`Expr.render` writes an expression back as text, with parentheses only where the binding
strength of the operators requires them: `OR` binds loosest, then `AND`, `NOT`, the
comparisons and `CONTAINS` (which do not chain, so a comparison inside a comparison is
always put in parentheses), `+` and `-`, `*` and `/`, and unary minus tightest. A left
operand of equal strength needs no parentheses, since the binary operators group to the
left; a right operand of equal strength does.
-/

namespace FeeSchedule

/-- The two unary operators. -/
inductive UnaryOp where
  | neg
  | not
  deriving DecidableEq, Repr, Inhabited

/-- The binary operators. -/
inductive BinaryOp where
  | add | sub | mul | div
  | eq | ne | lt | le | gt | ge
  | and | or
  | contains
  deriving DecidableEq, Repr, Inhabited

/-- The built-in functions. -/
inductive Builtin where
  | round | floor | ceil | abs | min | max | count
  deriving DecidableEq, Repr, Inhabited

/-- An expression. -/
inductive Expr where
  | num (value : Decimal)
  | bool (value : Bool)
  | date (value : Date)
  | sym (symbol : String)
  | ref (name : String)
  | unary (op : UnaryOp) (operand : Expr)
  | binary (op : BinaryOp) (lhs rhs : Expr)
  | call (fn : Builtin) (args : List Expr)
  deriving Repr, Inhabited

namespace UnaryOp

/-- The operator as written. -/
def text : UnaryOp → String
  | .neg => "-"
  | .not => "NOT"

end UnaryOp

namespace BinaryOp

/-- The operator as written. -/
def text : BinaryOp → String
  | .add => "+" | .sub => "-" | .mul => "*" | .div => "/"
  | .eq => "=" | .ne => "!=" | .lt => "<" | .le => "<=" | .gt => ">" | .ge => ">="
  | .and => "AND" | .or => "OR" | .contains => "CONTAINS"

/-- Binding strength: 1 for `OR` up to 6 for `*` and `/`. -/
def strength : BinaryOp → Nat
  | .or => 1
  | .and => 2
  | .eq | .ne | .lt | .le | .gt | .ge | .contains => 4
  | .add | .sub => 5
  | .mul | .div => 6

/-- Whether the operator is one of `+ - * /`. -/
def isArithmetic : BinaryOp → Bool
  | .add | .sub | .mul | .div => true
  | _ => false

/-- The comparison written by a symbol; `==` is another spelling of `=` and `<>` of `!=`. -/
def ofComparisonSymbol? : String → Option BinaryOp
  | "=" | "==" => some .eq
  | "!=" | "<>" => some .ne
  | "<" => some .lt
  | "<=" => some .le
  | ">" => some .gt
  | ">=" => some .ge
  | _ => none

end BinaryOp

namespace Builtin

/-- The function's name as written. -/
def name : Builtin → String
  | .round => "ROUND" | .floor => "FLOOR" | .ceil => "CEIL" | .abs => "ABS"
  | .min => "MIN" | .max => "MAX" | .count => "COUNT"

/-- The built-in function of a name, which must be written in capitals. -/
def ofName? : String → Option Builtin
  | "ROUND" => some .round | "FLOOR" => some .floor | "CEIL" => some .ceil
  | "ABS" => some .abs | "MIN" => some .min | "MAX" => some .max | "COUNT" => some .count
  | _ => none

end Builtin

namespace Expr

/-- Binding strength of an expression's outermost operator: 3 for `NOT`, 7 for unary minus,
8 for literals, references and calls. -/
def strength : Expr → Nat
  | .binary op _ _ => op.strength
  | .unary .not _ => 3
  | .unary .neg _ => 7
  | _ => 8

/-- The text of `s` in parentheses when `b` holds. -/
def parenthesize (b : Bool) (s : String) : String := if b then "(" ++ s ++ ")" else s

mutual

/-- The text of an expression. -/
def render : Expr → String
  | .num v => v.toText
  | .bool b => if b then "TRUE" else "FALSE"
  | .date d => "DATE '" ++ d.isoText ++ "'"
  | .sym s => s
  | .ref n => n
  | .unary op e =>
    let inner := parenthesize (e.strength < (Expr.unary op e).strength) e.render
    match op with
    | .not => "NOT " ++ inner
    | .neg => "-" ++ inner
  | .binary op l r =>
    let lhs := parenthesize
      (if op.strength = 4 then l.strength ≤ 4 else l.strength < op.strength) l.render
    let rhs := parenthesize (r.strength ≤ op.strength) r.render
    lhs ++ " " ++ op.text ++ " " ++ rhs
  | .call f args => f.name ++ "(" ++ ", ".intercalate (renderAll args) ++ ")"

/-- The texts of a list of expressions. -/
def renderAll : List Expr → List String
  | [] => []
  | e :: es => e.render :: renderAll es

end

mutual

/-- The names of all references in an expression, in order of appearance, with repeats. -/
def refs : Expr → List String
  | .ref n => [n]
  | .unary _ e => e.refs
  | .binary _ l r => l.refs ++ r.refs
  | .call _ args => refsAll args
  | _ => []

/-- The names of all references in a list of expressions. -/
def refsAll : List Expr → List String
  | [] => []
  | e :: es => e.refs ++ refsAll es

end

mutual

/-- Equality of expressions in which numbers are compared by value, so that `1.0` and `1`
are the same literal. -/
def same : Expr → Expr → Bool
  | .num a, .num b => match Decimal.equals a b with
    | .ok true => true
    | _ => false
  | .bool a, .bool b => a == b
  | .date a, .date b => a == b
  | .sym a, .sym b => a == b
  | .ref a, .ref b => a == b
  | .unary o a, .unary p b => o == p && same a b
  | .binary o a b, .binary p c d => o == p && same a c && same b d
  | .call f xs, .call g ys => f == g && sameAll xs ys
  | _, _ => false

/-- Pointwise `same` of two lists of expressions. -/
def sameAll : List Expr → List Expr → Bool
  | [], [] => true
  | x :: xs, y :: ys => same x y && sameAll xs ys
  | _, _ => false

end

end Expr

end FeeSchedule
