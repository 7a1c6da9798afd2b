/-!
# `FeeSchedule.Syntax.Token`: the tokens of a fee schedule

A schedule's text is a sequence of tokens: keywords (upper-case reserved words such as
`FEE` and `YIELD`), identifiers, numbers, strings between apostrophes and the operator
symbols. Every token records where its text starts: a line and column counted from 1 in code
points, where only a line feed starts a new line, and the code-point offset from the start of
the text, together with the number of code points its text spans.
-/

namespace FeeSchedule

/-- A place in a text: line and column from 1, and the offset in code points from 0. -/
structure Pos where
  line : Nat
  column : Nat
  offset : Nat
  deriving DecidableEq, Repr, Inhabited

namespace Pos

/-- The start of a text. -/
def start : Pos := ⟨1, 1, 0⟩

/-- The place after the character `c`: a line feed moves to column 1 of the next line, any
other character one column to the right. -/
def next (p : Pos) (c : Char) : Pos :=
  if c = '\n' then ⟨p.line + 1, 1, p.offset + 1⟩ else ⟨p.line, p.column + 1, p.offset + 1⟩

/-- The place after the characters `cs`. -/
def advance (p : Pos) (cs : List Char) : Pos := cs.foldl next p

end Pos

/-- The classes of tokens. -/
inductive TokenKind where
  | keyword
  | identifier
  | number
  | string
  | symbol
  deriving DecidableEq, Repr, Inhabited

/-- The name of a token class in token listings; the end of the text is listed as
`end of input`. -/
def TokenKind.name : TokenKind → String
  | .keyword => "keyword"
  | .identifier => "identifier"
  | .number => "number"
  | .string => "string"
  | .symbol => "symbol"

/-- A token: its class, its value (a string without its quotes and with doubled
apostrophes made single), where its text starts and how many code points it spans. -/
structure Token where
  kind : TokenKind
  value : String
  pos : Pos
  width : Nat
  deriving DecidableEq, Repr, Inhabited

/-- The reserved words. -/
def keywords : List String :=
  ["VERSION", "GROUP", "INPUT", "ENDINPUT", "FEE", "ENDFEE", "RETURN", "VERIFY",
   "NUMBER", "BOOLEAN", "LIST", "MULTILIST", "DATE", "AMOUNT", "BETWEEN", "CHOICE",
   "DEFAULT", "CURRENCY", "WEIGHT", "AS", "OPTIONAL", "LET", "YIELD", "IF",
   "COMPLETE", "MONOTONIC", "WITH", "RESPECT", "TO", "INCREASING", "DECREASING",
   "AND", "OR", "NOT", "CONTAINS", "TRUE", "FALSE"]

/-- The operator symbols, longer ones before their prefixes, so that `<=` is read as one
symbol and not as `<` followed by `=`. -/
def symbols : List String :=
  ["==", "!=", "<>", "<=", ">=", "=", "<", ">", "+", "-", "*", "/", "(", ")", ","]

namespace Token

/-- Whether the token is the keyword `w`. -/
def isKeyword (t : Token) (w : String) : Bool := t.kind == .keyword && t.value == w

/-- Whether the token is the symbol `s`. -/
def isSymbol (t : Token) (s : String) : Bool := t.kind == .symbol && t.value == s

/-- The token as named in a message: its value between apostrophes. -/
def describe (t : Token) : String := "'" ++ t.value ++ "'"

end Token

end FeeSchedule
