import FeeSchedule.Syntax.Expr

/-!
# `FeeSchedule.Schedule.Basic`: fee schedules and their declarations

A fee schedule declares

* inputs: the values a user supplies, each of one of six kinds (a number within bounds, a
  truth value, one choice of a list, a selection from a list, a date within bounds, an
  amount of money in a currency), with a default;
* fees: each a list of `LET` variables and a list of `YIELD` cases, tried in order, whose
  first case that applies gives the fee's amount; a fee may be optional and name a currency;
* groups that gather inputs for presentation, ordered by weight;
* returns: notices shown when their condition holds;
* verify directives that ask for a check of a fee: that its cases cover every combination
  of inputs (`COMPLETE`), or that it moves one way as one input grows (`MONOTONIC`);
* and at most one version.
-/

namespace FeeSchedule

/-- The six kinds of inputs. -/
inductive InputKind where
  | number | boolean | list | multilist | date | amount
  deriving DecidableEq, Repr, Inhabited

/-- The keyword of an input kind. -/
def InputKind.keyword : InputKind → String
  | .number => "NUMBER" | .boolean => "BOOLEAN" | .list => "LIST"
  | .multilist => "MULTILIST" | .date => "DATE" | .amount => "AMOUNT"

/-- All kinds, in the order in which they are listed in messages. -/
def InputKind.all : List InputKind := [.number, .boolean, .list, .multilist, .date, .amount]

/-- A choice of a list or selection input: its symbol and its description. -/
structure Choice where
  symbol : String
  text : String
  deriving DecidableEq, Repr, Inhabited

/-- What an input of each kind declares besides its name, description and group. -/
inductive InputSpec where
  | number (lo hi default : Decimal)
  | boolean (default : Bool)
  | list (choices : List Choice) (default : String)
  | multilist (choices : List Choice) (default : List String)
  | date (lo hi default : Date)
  | amount (currency : String) (default : Decimal)
  deriving DecidableEq, Repr, Inhabited

/-- The kind of an input specification. -/
def InputSpec.kind : InputSpec → InputKind
  | .number .. => .number
  | .boolean .. => .boolean
  | .list .. => .list
  | .multilist .. => .multilist
  | .date .. => .date
  | .amount .. => .amount

/-- The declared choices of a list or selection input, empty for the other kinds. -/
def InputSpec.choices : InputSpec → List Choice
  | .list cs _ => cs
  | .multilist cs _ => cs
  | _ => []

/-- An input declaration. -/
structure Input where
  name : String
  text : String
  spec : InputSpec
  group : Option String
  deriving DecidableEq, Repr, Inhabited

/-- The symbols of an input's choices, in declaration order. -/
def Input.symbols (i : Input) : List String := i.spec.choices.map (·.symbol)

/-- A `LET` variable of a fee. -/
structure LetVar where
  name : String
  expr : Expr
  deriving Repr, Inhabited

/-- A `YIELD` case: the amount and, unless the case always applies, its condition. -/
structure Case where
  expr : Expr
  condition : Option Expr
  deriving Repr, Inhabited

/-- A fee: its name, its cases in order, its variables in order, whether it is optional and
the currency it names, if any. -/
structure Fee where
  name : String
  cases : List Case
  vars : List LetVar
  optional : Bool
  currency : Option String
  deriving Repr, Inhabited

/-- A presentation group. -/
structure Group where
  name : String
  text : String
  weight : Decimal
  deriving DecidableEq, Repr, Inhabited

/-- A return: a notice with its text, shown when its condition holds or always when it has
none. -/
structure Return where
  symbol : String
  text : String
  condition : Option Expr
  deriving Repr, Inhabited

/-- The version of a schedule. -/
structure Version where
  id : String
  description : Option String
  deriving DecidableEq, Repr, Inhabited

/-- The way a fee is expected to move. -/
inductive Direction where
  | increasing | decreasing
  deriving DecidableEq, Repr, Inhabited

/-- The keyword of a direction. -/
def Direction.keyword : Direction → String
  | .increasing => "INCREASING"
  | .decreasing => "DECREASING"

/-- A verify directive. -/
inductive Directive where
  | complete (fee : String)
  | monotonic (fee : String) (input : String) (direction : Direction)
  deriving DecidableEq, Repr, Inhabited

/-- The fee a directive is about. -/
def Directive.fee : Directive → String
  | .complete f => f
  | .monotonic f _ _ => f

/-- A fee schedule. -/
structure Schedule where
  inputs : List Input
  fees : List Fee
  groups : List Group
  returns : List Return
  directives : List Directive
  version : Option Version
  deriving Repr, Inhabited

namespace Schedule

/-- The schedule that declares nothing. -/
def empty : Schedule := ⟨[], [], [], [], [], none⟩

/-- The names of the inputs, in declaration order. -/
def inputNames (s : Schedule) : List String := s.inputs.map (·.name)

/-- The names of the fees, in declaration order. -/
def feeNames (s : Schedule) : List String := s.fees.map (·.name)

/-- The first input of a name. -/
def input? (s : Schedule) (n : String) : Option Input := s.inputs.find? (·.name == n)

/-- Schedules of the same inputs find the same input under a name. -/
theorem input?_of_inputs {s s' : Schedule} (hs : s'.inputs = s.inputs) (n : String) :
    s'.input? n = s.input? n := by
  simp [input?, hs]

/-- The first fee of a name. -/
def fee? (s : Schedule) (n : String) : Option Fee := s.fees.find? (·.name == n)

end Schedule

end FeeSchedule
