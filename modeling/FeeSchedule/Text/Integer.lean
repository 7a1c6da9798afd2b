import FeeSchedule.Unicode.Digit

/-!
# `FeeSchedule.Text.Integer`: integers written in decimal

An integer's text is an optional sign and decimal digits, of any script, with single
underscores allowed between two digits (`readInteger?`). A text of more than
`maxIntegerDigits` digits is refused, so that no conversion takes time quadratic in a long
input; readers of other formats that hold integers (JSON) keep the same limit and report it
with `digitLimitMessage`.
-/

namespace FeeSchedule

/-- The most digits an integer may have. -/
def maxIntegerDigits : Nat := 4300

/-- The values of a run of decimal digits (of any script), single underscores allowed
between two digits. -/
def integerDigits : List Char → Option (List Nat)
  | [] => none
  | c :: cs => do
    let d ← Unicode.decimalValue? c
    let rest ← match cs with
      | [] => some []
      | '_' :: more => integerDigits more
      | more => integerDigits more
    pure (d :: rest)

/-- The integer a text writes: an optional sign, then decimal digits of any script with
single underscores between them, at most `maxIntegerDigits` digits. -/
def readInteger? (s : String) : Option Int :=
  let (negative, body) := match s.toList with
    | '+' :: r => (false, r)
    | '-' :: r => (true, r)
    | r => (false, r)
  match integerDigits body with
  | none => none
  | some ds =>
    if ds.length > maxIntegerDigits then none
    else
      let n : Int := ds.foldl (fun (acc : Int) (d : Nat) => 10 * acc + d) 0
      some (if negative then -n else n)

/-- The message of an integer text with `digits` digits, more than the limit allows. -/
def digitLimitMessage (digits : Nat) : String :=
  "Exceeds the limit (" ++ toString maxIntegerDigits ++ " digits) for integer string "
    ++ "conversion: value has " ++ toString digits
    ++ " digits; use sys.set_int_max_str_digits() to increase the limit"

end FeeSchedule
