import FeeSchedule.Binary64.Shortest
import FeeSchedule.Text.Quoted

/-!
# `FeeSchedule.Json.Basic`: JSON values

Values for inputs arrive as JSON, and reports leave as JSON. A JSON number is an integer
when it has neither fraction nor exponent, and otherwise the nearest double; `NaN` and
`Infinity` are numbers too. An object keeps its members in order, each key once. Strings and
keys are lists of code points, since an escape can write a surrogate that stands alone;
`Json.str` and `Json.obj` build them from Lean strings.

`Json.echo` is the text of a value as messages show it: `None`, `True` and `False`, an
integer in decimal, a double in its shortest text, a string between quotes (`Text.quoted`),
an array as `[a, b]` and an object as `{'k': v}`.
-/

namespace FeeSchedule

/-- A JSON value. -/
inductive Json where
  | null
  | bool (b : Bool)
  | int (n : Int)
  | float (x : Binary64)
  | string (s : List CodePoint)
  | arr (items : List Json)
  | object (members : List (List CodePoint × Json))
  deriving Repr, Inhabited

namespace Json

/-- The JSON string of a Lean string. -/
def str (s : String) : Json := .string (CodePoint.ofString s)

/-- The JSON object of members keyed by Lean strings. -/
def obj (members : List (String × Json)) : Json :=
  .object (members.map fun (k, v) => (CodePoint.ofString k, v))

mutual

/-- The text of a value as messages show it. -/
def echo : Json → String
  | .null => "None"
  | .bool b => if b then "True" else "False"
  | .int n => toString n
  | .float x => x.text
  | .string s => Text.quotedPoints s
  | .arr items => "[" ++ echoItems items ++ "]"
  | .object members => "\x7b" ++ echoMembers members ++ "\x7d"

/-- The items of an array as messages show them, separated by commas. -/
def echoItems : List Json → String
  | [] => ""
  | [j] => echo j
  | j :: js => echo j ++ ", " ++ echoItems js

/-- The members of an object as messages show them, separated by commas. -/
def echoMembers : List (List CodePoint × Json) → String
  | [] => ""
  | [(k, j)] => Text.quotedPoints k ++ ": " ++ echo j
  | (k, j) :: ms => Text.quotedPoints k ++ ": " ++ echo j ++ ", " ++ echoMembers ms

end

/-- The member of an object with key `k`. -/
def get? (j : Json) (k : String) : Option Json :=
  match j with
  | .object members => members.lookup (CodePoint.ofString k)
  | _ => none

/-- The members of an object, keyed by strings (a surrogate in a key mended to U+FFFD). -/
def members? : Json → Option (List (String × Json))
  | .object members => some (members.map fun (k, v) => (CodePoint.mend k, v))
  | _ => none

/-- The text a string value holds. -/
def string? : Json → Option (List CodePoint)
  | .string s => some s
  | _ => none

/-- The string a value holds, a surrogate mended to U+FFFD. -/
def str? : Json → Option String
  | .string s => some (CodePoint.mend s)
  | _ => none

/-- The items of an array. -/
def arr? : Json → Option (List Json)
  | .arr items => some items
  | _ => none

/-- The boolean a value holds. -/
def bool? : Json → Option Bool
  | .bool b => some b
  | _ => none

/-- The integer a value holds. -/
def int? : Json → Option Int
  | .int n => some n
  | _ => none

/-- An object with a member added or replaced: a new key goes last, a known key keeps its
place and takes the new value. -/
def insert (members : List (List CodePoint × Json)) (k : List CodePoint) (v : Json) :
    List (List CodePoint × Json) :=
  if members.any (·.1 == k) then members.map fun (k', v') => if k' == k then (k', v) else (k', v')
  else members ++ [(k, v)]

end Json

end FeeSchedule
