import FeeSchedule.Json.Basic

/-!
# `FeeSchedule.Json.Write`: writing JSON text

`Json.write` writes a value either on one line, with `, ` between items and `: ` after
keys, or indented: each item and member on a line of its own, indented by the given number
of spaces per level, with `,` at the ends of lines; an empty array or object stays `[]` or
`{}`.

In strings, the quote, the backslash and the control characters are escaped (`\n`, `\r`,
`\t`, `\b`, `\f`, else `\u00XX`). When only ASCII may appear, every character from U+007F
on is escaped too, as `\uXXXX` in lower-case hexadecimal, characters beyond U+FFFF as a
pair of surrogates. A surrogate standing alone is no character that a text could hold, so it
is always written as its escape. Doubles are written in their shortest text, the others as `NaN`,
`Infinity` and `-Infinity`.
-/

namespace FeeSchedule

namespace JsonWrite

/-- The escape `\uXXXX` of a 16-bit unit. -/
def unitEscape (n : Nat) : List Char := '\\' :: 'u' :: Text.hexDigits 4 n

/-- How a character is written in a string; `ascii` asks for ASCII output. -/
def escapeChar (ascii : Bool) (c : Char) : List Char :=
  if c = '"' then ['\\', '"']
  else if c = '\\' then ['\\', '\\']
  else if c = '\n' then ['\\', 'n']
  else if c = '\r' then ['\\', 'r']
  else if c = '\t' then ['\\', 't']
  else if c = '\x08' then ['\\', 'b']
  else if c = '\x0c' then ['\\', 'f']
  else if c.toNat < 0x20 then unitEscape c.toNat
  else if ascii ∧ c.toNat ≥ 0x7f then
    if c.toNat ≥ 0x10000 then
      let v := c.toNat - 0x10000
      unitEscape (0xD800 + v / 0x400) ++ unitEscape (0xDC00 + v % 0x400)
    else unitEscape c.toNat
  else [c]

/-- How a code point is written in a string; `ascii` asks for ASCII output. -/
def escapePoint (ascii : Bool) : CodePoint → List Char
  | .char c => escapeChar ascii c
  | .surrogate k => unitEscape (0xD800 + k.val)

/-- A string between double quotes, escaped. -/
def quote (ascii : Bool) (s : List CodePoint) : String :=
  String.ofList ('"' :: s.flatMap (escapePoint ascii) ++ ['"'])

/-- The text of a double in JSON. -/
def floatText : Binary64 → String
  | .nan => "NaN"
  | .infinite negative => if negative then "-Infinity" else "Infinity"
  | x => x.text

/-- The line break and indentation before an item at `level`, or nothing on one line. -/
def breakAt (indent : Option Nat) (level : Nat) : String :=
  match indent with
  | some n => "\n" ++ "".pushn ' ' (n * level)
  | none => ""

/-- The separator between items. -/
def separator (indent : Option Nat) : String :=
  match indent with
  | some _ => ","
  | none => ", "

mutual

/-- A value written at nesting `level`. -/
def value (ascii : Bool) (indent : Option Nat) (level : Nat) : Json → String
  | .null => "null"
  | .bool b => if b then "true" else "false"
  | .int n => toString n
  | .float x => floatText x
  | .string s => quote ascii s
  | .arr [] => "[]"
  | .arr items =>
    "[" ++ breakAt indent (level + 1) ++ itemsText ascii indent (level + 1) items
      ++ breakAt indent level ++ "]"
  | .object [] => "\x7b\x7d"
  | .object members =>
    "\x7b" ++ breakAt indent (level + 1) ++ membersText ascii indent (level + 1) members
      ++ breakAt indent level ++ "\x7d"

/-- The items of an array at nesting `level`. -/
def itemsText (ascii : Bool) (indent : Option Nat) (level : Nat) : List Json → String
  | [] => ""
  | [j] => value ascii indent level j
  | j :: js =>
    value ascii indent level j ++ separator indent ++ breakAt indent level
      ++ itemsText ascii indent level js

/-- The members of an object at nesting `level`. -/
def membersText (ascii : Bool) (indent : Option Nat) (level : Nat) :
    List (List CodePoint × Json) → String
  | [] => ""
  | [(k, j)] => quote ascii k ++ ": " ++ value ascii indent level j
  | (k, j) :: ms =>
    quote ascii k ++ ": " ++ value ascii indent level j ++ separator indent
      ++ breakAt indent level ++ membersText ascii indent level ms

end

end JsonWrite

/-- Writes a value: indented by `indent` spaces per level when given, else on one line;
with only ASCII characters when `ascii` holds. -/
def Json.write (ascii : Bool) (indent : Option Nat) (j : Json) : String :=
  JsonWrite.value ascii indent 0 j

end FeeSchedule
