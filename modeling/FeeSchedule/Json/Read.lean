import FeeSchedule.Json.Basic
import FeeSchedule.Text.Integer

/-!
# `FeeSchedule.Json.Read`: reading JSON text

`Json.parse` reads a JSON text with its blanks (space, tab, line feed, carriage return)
around it. It also takes `NaN`, `Infinity` and `-Infinity`. A number is read as far as it
goes: a fraction needs a digit after the point, and an exponent marker without digits
after it is left unread. An integer of more than `maxIntegerDigits` digits stops the reading
(`JsonError.digitLimit`), wherever it stands. Inside strings, characters below U+0020 are
refused, and a `\uXXXX` escape of a high surrogate joins a following escape of a low one; a
surrogate left alone stays in the text as a code point of its own. An object keeps the first
place and the last value of a repeated key.

A fault names what was expected and the character offset where it was found:

* `Expecting value` where no value starts;
* `Expecting property name enclosed in double quotes`, `Expecting ':' delimiter` and
  `Expecting ',' delimiter` in objects and arrays;
* `Unterminated string starting at` the opening quote;
* `Invalid control character at`, `Invalid \escape` at the backslash and
  `Invalid \uXXXX escape` at the `u`;
* `Extra data` where something follows the value;
* `Unexpected UTF-8 BOM (decode using utf-8-sig)` when the text starts with U+FEFF.

Its text adds the line, the column and the offset: `Expecting value: line 1 column 1 (char 0)`.
-/

namespace FeeSchedule

/-- Why a JSON text cannot be read. -/
inductive JsonError where
  /-- The text is not JSON: what is wrong, and the offset in characters where. -/
  | malformed (message : String) (pos : Nat)
  /-- An integer has more digits than `maxIntegerDigits`: how many. -/
  | digitLimit (digits : Nat)
  deriving Repr, Inhabited

/-- The text of a fault in `doc`: for a malformed text the message, then the line and column
of the offset (lines counted by line feeds, columns from 1) and the offset itself. -/
def JsonError.text (doc : String) : JsonError → String
  | .malformed message pos =>
    let before := doc.toList.take pos
    let line := before.count '\n' + 1
    let column := before.length - (before.reverse.takeWhile (· ≠ '\n')).length
    let column := pos - column + 1
    message ++ ": line " ++ toString line ++ " column " ++ toString column ++ " (char "
      ++ toString pos ++ ")"
  | .digitLimit digits => digitLimitMessage digits

namespace JsonRead

/-- A result of reading: the value, the characters after it and their offset. -/
abbrev Step (α : Type) := Except JsonError (α × List Char × Nat)

/-- Whether a character is a JSON blank. -/
def isBlank (c : Char) : Bool := c = ' ' || c = '\t' || c = '\n' || c = '\r'

/-- Skips blanks. -/
def skipBlanks : List Char → Nat → List Char × Nat
  | c :: cs, p => if isBlank c then skipBlanks cs (p + 1) else (c :: cs, p)
  | [], p => ([], p)

/-- The value of a hexadecimal digit. -/
def hexValue? (c : Char) : Option Nat :=
  if '0' ≤ c ∧ c ≤ '9' then some (c.toNat - '0'.toNat)
  else if 'a' ≤ c ∧ c ≤ 'f' then some (c.toNat - 'a'.toNat + 10)
  else if 'A' ≤ c ∧ c ≤ 'F' then some (c.toNat - 'A'.toNat + 10)
  else none

/-- The value of four hexadecimal digits at the start. -/
def hex4? (cs : List Char) : Option Nat :=
  match cs with
  | a :: b :: c :: d :: _ => do
    let a ← hexValue? a
    let b ← hexValue? b
    let c ← hexValue? c
    let d ← hexValue? d
    pure (((a * 16 + b) * 16 + c) * 16 + d)
  | _ => none

/-- The character of a one-letter escape. -/
def simpleEscape? : Char → Option Char
  | '"' => some '"'
  | '\\' => some '\\'
  | '/' => some '/'
  | 'b' => some '\x08'
  | 'f' => some '\x0c'
  | 'n' => some '\n'
  | 'r' => some '\r'
  | 't' => some '\t'
  | _ => none

/-- The rest of a string whose opening quote is at `begin`, from offset `p`; `acc` holds
the code points read, last first. -/
def stringRest (begin : Nat) (cs : List Char) (p : Nat) (acc : List CodePoint) :
    Step (List CodePoint) :=
  match cs with
  | [] => .error (.malformed "Unterminated string starting at" begin)
  | '"' :: rest => .ok (acc.reverse, rest, p + 1)
  | '\\' :: rest =>
    match rest with
    | [] => .error (.malformed "Unterminated string starting at" begin)
    | 'u' :: hex =>
      -- four digits and at least one more character must follow
      if hex.length ≤ 4 then .error (.malformed "Invalid \\uXXXX escape" (p + 1))
      else
        match hex4? hex with
        | none => .error (.malformed "Invalid \\uXXXX escape" (p + 1))
        | some c =>
          let after := hex.drop 4
          let q := p + 6
          if c ≥ 0xD800 ∧ c < 0xDC00 ∧ after.length > 6 ∧ after.take 2 = ['\\', 'u'] then
            match hex4? (after.drop 2) with
            | none => .error (.malformed "Invalid \\uXXXX escape" (q + 1))
            | some c2 =>
              if c2 ≥ 0xDC00 ∧ c2 < 0xE000 then
                let joined := 0x10000 + (c - 0xD800) * 0x400 + (c2 - 0xDC00)
                stringRest begin (after.drop 6) (q + 6) (CodePoint.ofNat joined :: acc)
              else stringRest begin after q (CodePoint.ofNat c :: acc)
          else stringRest begin after q (CodePoint.ofNat c :: acc)
    | e :: more =>
      match simpleEscape? e with
      | some c => stringRest begin more (p + 2) (.char c :: acc)
      | none => .error (.malformed "Invalid \\escape" p)
  | c :: rest =>
    if c.toNat ≤ 0x1f then .error (.malformed "Invalid control character at" p)
    else stringRest begin rest (p + 1) (.char c :: acc)
termination_by cs.length
decreasing_by all_goals (simp only [List.length_drop, List.length_cons]; omega)

/-- The digits at the start, and the characters after them. -/
def digitRun (cs : List Char) : List Char × List Char :=
  (cs.takeWhile Char.isDigit, cs.dropWhile Char.isDigit)

/-- The value of decimal digits. -/
def digitsValue (ds : List Char) : Nat := ds.foldl (fun n c => 10 * n + (c.toNat - '0'.toNat)) 0

/-- Reads a number at offset `p`, or nothing when none starts there. -/
def number (cs : List Char) (p : Nat) : Option (Step Json) := do
  let (negative, cs1) := match cs with
    | '-' :: r => (true, r)
    | r => (false, r)
  let (intDigits, cs2) ← match cs1 with
    | '0' :: r => some (['0'], r)
    | c :: _ => if '1' ≤ c ∧ c ≤ '9' then some (digitRun cs1) else none
    | [] => none
  let (fracDigits, cs3) := match cs2 with
    | '.' :: d :: r => if d.isDigit then
        let (ds, r') := digitRun (d :: r)
        (some ds, r')
      else (none, cs2)
    | _ => (none, cs2)
  let (expPart, cs4) : Option (Bool × List Char) × List Char := match cs3 with
    | e :: x :: r =>
      if e = 'e' ∨ e = 'E' then
        -- a sign is taken only when another character follows it
        let (expNegative, body) := match x :: r with
          | s :: t :: u => if s = '+' ∨ s = '-' then (s == '-', t :: u) else (false, x :: r)
          | b => (false, b)
        let (ds, r') := digitRun body
        if ds.isEmpty then (none, cs3) else (some (expNegative, ds), r')
      else (none, cs3)
    | _ => (none, cs3)
  let used := cs.length - cs4.length
  let q := p + used
  match fracDigits, expPart with
  | none, none =>
    if intDigits.length > maxIntegerDigits then some (.error (.digitLimit intDigits.length))
    else
      let n := digitsValue intDigits
      some (.ok (.int (if negative then -(n : Int) else n), cs4, q))
  | _, _ =>
    let frac := fracDigits.getD []
    let mant := digitsValue (intDigits ++ frac)
    let e : Int := match expPart with
      | some (en, ds) => if en then -(digitsValue ds : Int) else digitsValue ds
      | none => 0
    some (.ok (.float (Binary64.nearest negative mant (e - frac.length)), cs4, q))

/-- Whether `w` comes first in `cs`. -/
def startsWith (cs : List Char) (w : List Char) : Bool := cs.take w.length = w

mutual

/-- Reads a value at offset `p`. `fuel` bounds the nesting: twice the length of the text
is enough. -/
def value (fuel : Nat) (cs : List Char) (p : Nat) : Step Json :=
  match fuel with
  | 0 => .error (.malformed "Expecting value" p)
  | fuel + 1 =>
    match cs with
    | '"' :: rest =>
      match stringRest p rest (p + 1) [] with
      | .ok (s, r, q) => .ok (.string s, r, q)
      | .error e => .error e
    | '{' :: rest =>
      let (r, q) := skipBlanks rest (p + 1)
      match r with
      | '}' :: r' => .ok (.object [], r', q + 1)
      | _ => members fuel r q []
    | '[' :: rest =>
      let (r, q) := skipBlanks rest (p + 1)
      match r with
      | ']' :: r' => .ok (.arr [], r', q + 1)
      | _ => items fuel r q []
    | _ =>
      if startsWith cs "null".toList then .ok (.null, cs.drop 4, p + 4)
      else if startsWith cs "true".toList then .ok (.bool true, cs.drop 4, p + 4)
      else if startsWith cs "false".toList then .ok (.bool false, cs.drop 5, p + 5)
      else if startsWith cs "NaN".toList then .ok (.float .nan, cs.drop 3, p + 3)
      else if startsWith cs "Infinity".toList then
        .ok (.float (.infinite false), cs.drop 8, p + 8)
      else if startsWith cs "-Infinity".toList then
        .ok (.float (.infinite true), cs.drop 9, p + 9)
      else
        match number cs p with
        | some r => r
        | none => .error (.malformed "Expecting value" p)

/-- Reads the members of an object from offset `p` (after blanks) up to its closing brace;
`acc` holds the members read. -/
def members (fuel : Nat) (cs : List Char) (p : Nat) (acc : List (List CodePoint × Json)) :
    Step Json :=
  match fuel with
  | 0 => .error (.malformed "Expecting value" p)
  | fuel + 1 =>
    match cs with
    | '"' :: rest =>
      match stringRest p rest (p + 1) [] with
      | .error e => .error e
      | .ok (k, r, q) =>
        let (r, q) := skipBlanks r q
        match r with
        | ':' :: r =>
          let (r, q) := skipBlanks r (q + 1)
          match value fuel r q with
          | .error e => .error e
          | .ok (v, r, q) =>
            let acc := Json.insert acc k v
            let (r, q) := skipBlanks r q
            match r with
            | '}' :: r => .ok (.object acc, r, q + 1)
            | ',' :: r =>
              let (r, q) := skipBlanks r (q + 1)
              members fuel r q acc
            | _ => .error (.malformed "Expecting ',' delimiter" q)
        | _ => .error (.malformed "Expecting ':' delimiter" q)
    | _ => .error (.malformed "Expecting property name enclosed in double quotes" p)

/-- Reads the items of an array from offset `p` (after blanks) up to its closing bracket;
`acc` holds the items read, last first. -/
def items (fuel : Nat) (cs : List Char) (p : Nat) (acc : List Json) : Step Json :=
  match fuel with
  | 0 => .error (.malformed "Expecting value" p)
  | fuel + 1 =>
    match value fuel cs p with
    | .error e => .error e
    | .ok (v, r, q) =>
      let (r, q) := skipBlanks r q
      match r with
      | ']' :: r => .ok (.arr (v :: acc).reverse, r, q + 1)
      | ',' :: r =>
        let (r, q) := skipBlanks r (q + 1)
        items fuel r q (v :: acc)
      | _ => .error (.malformed "Expecting ',' delimiter" q)

end

end JsonRead

/-- Reads a JSON text, as described in the module header. -/
def Json.parse (text : String) : Except JsonError Json :=
  let cs := text.toList
  if cs.head? = some '\uFEFF' then
    .error (.malformed "Unexpected UTF-8 BOM (decode using utf-8-sig)" 0)
  else
    let (r, p) := JsonRead.skipBlanks cs 0
    match JsonRead.value (2 * cs.length + 2) r p with
    | .error e => .error e
    | .ok (v, r, q) =>
      let (r, q) := JsonRead.skipBlanks r q
      if r.isEmpty then .ok v else .error (.malformed "Extra data" q)

end FeeSchedule
