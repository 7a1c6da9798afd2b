import FeeSchedule.Syntax.Fault
import FeeSchedule.Decimal.Text

/-!
# `FeeSchedule.Syntax.Expr.Parse`: reading expressions from tokens

Expressions are read by recursive descent over this grammar, loosest binding first:

    or         ::= and {OR and}
    and        ::= not {AND not}
    not        ::= NOT not | comparison
    comparison ::= sum [(= | == | != | <> | < | <= | > | >= | CONTAINS) sum]
    sum        ::= product {(+ | -) product}
    product    ::= unary {(* | /) unary}
    unary      ::= - unary | primary
    primary    ::= number | TRUE | FALSE | DATE string | name [( [or {, or}] )] | ( or )

A comparison does not chain: after `a < b` the reading of the comparison ends. The
repetitions group to the left. A name followed by `(` must be a built-in function; a name
alone is a reference. Every rule returns the tokens after what it read, never more than it
was given; a rule that calls a looser one has first consumed a token, so the recursion is
measured by the number of tokens, and at equal number by the rule's place in the grammar.

`Expr.parse` reads a whole text as one expression; what follows the expression is a fault
("expected end of expression").
-/

namespace FeeSchedule

namespace ExprParse

/-- Reads `. . . )` at the start of `ts`: the closing parenthesis. -/
def closing (eof : Pos) (ts : List Token) : Except Stop (Parsed ts Unit) :=
  match ts with
  | t :: _ => if t.isSymbol ")" then .ok (Parsed.next ()) else .error (expectedAt eof ts "')'")
  | [] => .error (expectedAt eof ts "')'")

mutual

/-- `or ::= and {OR and}` -/
def orExpr (eof : Pos) (ts : List Token) : Except Stop (Parsed ts Expr) :=
  match andExpr eof ts with
  | .error e => .error e
  | .ok r =>
    have := r.le
    match orTail eof r.rest r.value with
    | .error e => .error e
    | .ok r' => .ok (r'.widen r.suffix)
termination_by ts.length * 16 + 12

/-- The repetitions `{OR and}` after the left operand `acc`. -/
def orTail (eof : Pos) (ts : List Token) (acc : Expr) : Except Stop (Parsed ts Expr) :=
  match ts with
  | t :: r =>
    if t.isKeyword "OR" then
      match andExpr eof r with
      | .error e => .error e
      | .ok a =>
        have := a.le
        match orTail eof a.rest (.binary .or acc a.value) with
        | .error e => .error e
        | .ok r' => .ok (r'.widen (a.suffix.trans (List.suffix_cons _ _)))
    else .ok ⟨acc, t :: r, List.suffix_refl _⟩
  | [] => .ok ⟨acc, [], List.suffix_refl _⟩
termination_by ts.length * 16 + 11

/-- `and ::= not {AND not}` -/
def andExpr (eof : Pos) (ts : List Token) : Except Stop (Parsed ts Expr) :=
  match notExpr eof ts with
  | .error e => .error e
  | .ok r =>
    have := r.le
    match andTail eof r.rest r.value with
    | .error e => .error e
    | .ok r' => .ok (r'.widen r.suffix)
termination_by ts.length * 16 + 10

/-- The repetitions `{AND not}` after the left operand `acc`. -/
def andTail (eof : Pos) (ts : List Token) (acc : Expr) : Except Stop (Parsed ts Expr) :=
  match ts with
  | t :: r =>
    if t.isKeyword "AND" then
      match notExpr eof r with
      | .error e => .error e
      | .ok a =>
        have := a.le
        match andTail eof a.rest (.binary .and acc a.value) with
        | .error e => .error e
        | .ok r' => .ok (r'.widen (a.suffix.trans (List.suffix_cons _ _)))
    else .ok ⟨acc, t :: r, List.suffix_refl _⟩
  | [] => .ok ⟨acc, [], List.suffix_refl _⟩
termination_by ts.length * 16 + 9

/-- `not ::= NOT not | comparison` -/
def notExpr (eof : Pos) (ts : List Token) : Except Stop (Parsed ts Expr) :=
  match ts with
  | t :: r =>
    if t.isKeyword "NOT" then
      match notExpr eof r with
      | .error e => .error e
      | .ok a => .ok ((a.map (.unary .not)).widen (List.suffix_cons _ _))
    else comparison eof (t :: r)
  | [] => comparison eof []
termination_by ts.length * 16 + 8

/-- `comparison ::= sum [op sum]`, where `op` is a comparison symbol or `CONTAINS`. -/
def comparison (eof : Pos) (ts : List Token) : Except Stop (Parsed ts Expr) :=
  match sumExpr eof ts with
  | .error e => .error e
  | .ok l =>
    have := l.le
    match h : l.rest with
    | t :: r =>
      let op? : Option BinaryOp :=
        if t.kind = .symbol then BinaryOp.ofComparisonSymbol? t.value
        else if t.isKeyword "CONTAINS" then some .contains
        else none
      match op? with
      | some op =>
        match sumExpr eof r with
        | .error e => .error e
        | .ok rhs =>
          .ok ⟨.binary op l.value rhs.value, rhs.rest, by
            have hl := l.suffix
            rw [h] at hl
            exact rhs.suffix.trans ((List.suffix_cons t r).trans hl)⟩
      | none => .ok ⟨l.value, l.rest, l.suffix⟩
    | [] => .ok ⟨l.value, l.rest, l.suffix⟩
termination_by ts.length * 16 + 7
decreasing_by all_goals (simp_all <;> omega)

/-- `sum ::= product {(+ | -) product}` -/
def sumExpr (eof : Pos) (ts : List Token) : Except Stop (Parsed ts Expr) :=
  match product eof ts with
  | .error e => .error e
  | .ok r =>
    have := r.le
    match sumTail eof r.rest r.value with
    | .error e => .error e
    | .ok r' => .ok (r'.widen r.suffix)
termination_by ts.length * 16 + 6

/-- The repetitions `{(+ | -) product}` after the left operand `acc`. -/
def sumTail (eof : Pos) (ts : List Token) (acc : Expr) : Except Stop (Parsed ts Expr) :=
  match ts with
  | t :: r =>
    let op? : Option BinaryOp :=
      if t.isSymbol "+" then some .add else if t.isSymbol "-" then some .sub else none
    match op? with
    | some op =>
      match product eof r with
      | .error e => .error e
      | .ok a =>
        have := a.le
        match sumTail eof a.rest (.binary op acc a.value) with
        | .error e => .error e
        | .ok r' => .ok (r'.widen (a.suffix.trans (List.suffix_cons _ _)))
    | none => .ok ⟨acc, t :: r, List.suffix_refl _⟩
  | [] => .ok ⟨acc, [], List.suffix_refl _⟩
termination_by ts.length * 16 + 5

/-- `product ::= unary {(* | /) unary}` -/
def product (eof : Pos) (ts : List Token) : Except Stop (Parsed ts Expr) :=
  match unary eof ts with
  | .error e => .error e
  | .ok r =>
    have := r.le
    match productTail eof r.rest r.value with
    | .error e => .error e
    | .ok r' => .ok (r'.widen r.suffix)
termination_by ts.length * 16 + 4

/-- The repetitions `{(* | /) unary}` after the left operand `acc`. -/
def productTail (eof : Pos) (ts : List Token) (acc : Expr) : Except Stop (Parsed ts Expr) :=
  match ts with
  | t :: r =>
    let op? : Option BinaryOp :=
      if t.isSymbol "*" then some .mul else if t.isSymbol "/" then some .div else none
    match op? with
    | some op =>
      match unary eof r with
      | .error e => .error e
      | .ok a =>
        have := a.le
        match productTail eof a.rest (.binary op acc a.value) with
        | .error e => .error e
        | .ok r' => .ok (r'.widen (a.suffix.trans (List.suffix_cons _ _)))
    | none => .ok ⟨acc, t :: r, List.suffix_refl _⟩
  | [] => .ok ⟨acc, [], List.suffix_refl _⟩
termination_by ts.length * 16 + 3

/-- `unary ::= - unary | primary` -/
def unary (eof : Pos) (ts : List Token) : Except Stop (Parsed ts Expr) :=
  match ts with
  | t :: r =>
    if t.isSymbol "-" then
      match unary eof r with
      | .error e => .error e
      | .ok a => .ok ((a.map (.unary .neg)).widen (List.suffix_cons _ _))
    else primary eof (t :: r)
  | [] => primary eof []
termination_by ts.length * 16 + 2

/-- `primary ::= number | TRUE | FALSE | DATE string | name [( args )] | ( or )` -/
def primary (eof : Pos) (ts : List Token) : Except Stop (Parsed ts Expr) :=
  match ts with
  | [] => .error (expectedAt eof [] "an expression")
  | t :: r =>
    if t.kind = .number then
      match Decimal.ofText t.value with
      | .ok v => .ok (Parsed.next (.num v))
      | .error _ => .error (.abort ⟨.invalidNumber t.value, t.pos, r⟩)
    else if t.isKeyword "TRUE" then .ok (Parsed.next (.bool true))
    else if t.isKeyword "FALSE" then .ok (Parsed.next (.bool false))
    else if t.isKeyword "DATE" then
      match r with
      | s :: r' =>
        if s.kind = .string then
          match Date.ofIsoText? s.value with
          | some d => .ok ⟨.date d, r', (List.suffix_cons _ _).trans (List.suffix_cons _ _)⟩
          | none => .error (.abort ⟨.invalidDate s.value, s.pos, r'⟩)
        else .error (expectedAt eof (s :: r') "a date 'YYYY-MM-DD'")
      | [] => .error (expectedAt eof [] "a date 'YYYY-MM-DD'")
    else if t.kind = .identifier then
      match r with
      | p :: r' =>
        if p.isSymbol "(" then
          match Builtin.ofName? t.value with
          | none => .error (.abort ⟨.unknownFunction t.value, t.pos, r'⟩)
          | some f =>
            match callRest eof r' with
            | .error e => .error e
            | .ok a => .ok ⟨.call f a.value, a.rest,
              a.suffix.trans ((List.suffix_cons _ _).trans (List.suffix_cons _ _))⟩
        else .ok (Parsed.next (.ref t.value))
      | [] => .ok (Parsed.next (.ref t.value))
    else if t.isSymbol "(" then
      match orExpr eof r with
      | .error e => .error e
      | .ok a =>
        have := a.le
        match closing eof a.rest with
        | .error e => .error e
        | .ok c => .ok ⟨a.value, c.rest, c.suffix.trans (a.suffix.trans (List.suffix_cons _ _))⟩
    else .error (expectedAt eof (t :: r) "an expression")
termination_by ts.length * 16 + 1

/-- What follows the opening parenthesis of a call: `)` alone, or the arguments and `)`. -/
def callRest (eof : Pos) (ts : List Token) : Except Stop (Parsed ts (List Expr)) :=
  match ts with
  | q :: r => if q.isSymbol ")" then .ok (Parsed.next []) else argsClosed eof (q :: r)
  | [] => argsClosed eof []
termination_by ts.length * 16 + 15

/-- The arguments of a call followed by the closing parenthesis. -/
def argsClosed (eof : Pos) (ts : List Token) : Except Stop (Parsed ts (List Expr)) :=
  match args eof ts with
  | .error e => .error e
  | .ok a =>
    match closing eof a.rest with
    | .error e => .error e
    | .ok c => .ok ⟨a.value, c.rest, c.suffix.trans a.suffix⟩
termination_by ts.length * 16 + 14

/-- The arguments of a call: `or {, or}`. -/
def args (eof : Pos) (ts : List Token) : Except Stop (Parsed ts (List Expr)) :=
  match orExpr eof ts with
  | .error e => .error e
  | .ok a =>
    have := a.le
    match argsTail eof a.rest with
    | .error e => .error e
    | .ok r => .ok ⟨a.value :: r.value, r.rest, r.suffix.trans a.suffix⟩
termination_by ts.length * 16 + 13

/-- The repetitions `{, or}` of the arguments of a call. -/
def argsTail (eof : Pos) (ts : List Token) : Except Stop (Parsed ts (List Expr)) :=
  match ts with
  | t :: r =>
    if t.isSymbol "," then
      match orExpr eof r with
      | .error e => .error e
      | .ok a =>
        have := a.le
        match argsTail eof a.rest with
        | .error e => .error e
        | .ok r' => .ok ⟨a.value :: r'.value, r'.rest,
          r'.suffix.trans (a.suffix.trans (List.suffix_cons _ _))⟩
    else .ok ⟨[], t :: r, List.suffix_refl _⟩
  | [] => .ok ⟨[], [], List.suffix_refl _⟩
termination_by ts.length * 16 + 1

end

end ExprParse

end FeeSchedule
