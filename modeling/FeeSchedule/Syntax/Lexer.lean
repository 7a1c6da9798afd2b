import FeeSchedule.Syntax.Token
import FeeSchedule.Unicode.Blank
import FeeSchedule.Unicode.Digit
import FeeSchedule.Unicode.Letter
import FeeSchedule.Unicode.Numeric
import FeeSchedule.Unicode.CodePoint
import FeeSchedule.Text.Quoted

/-!
# `FeeSchedule.Syntax.Lexer`: from text to tokens

The lexer reads a schedule's text from left to right in one pass. At each place it

* skips white space, and a comment from `#` up to (not including) the end of the line;
* reads a string from an apostrophe up to the next single apostrophe on the same line,
  where two apostrophes stand for one; a string that reaches the end of its line or of the
  text is an error covering the apostrophe and the rest of the line, and yields no token;
* reads a number: digits, then a point and more digits when a digit follows the point;
* reads a word from a letter or underscore over letters, digits, numeric characters and
  underscores, a keyword when it is one of the reserved words and an identifier otherwise;
* reads the longest operator symbol that starts there;
* and otherwise records the character as unexpected and goes on after it.

Digits and letters are those of every script, so `١٢` is a number and `größe` a word. The
text is a list of code points: a surrogate standing alone belongs to no class and starts no
token, so it is unexpected; inside a string it stands in the value as U+FFFD. The lexer
never fails: its result lists the tokens, the errors and the place where the text ends,
which is where the end-of-input token stands. Each step consumes at least one code point,
which is the measure of the recursion.
-/

namespace FeeSchedule

/-- What went wrong at a place of the text. -/
inductive LexFault where
  /-- A code point that starts no token. -/
  | unexpected (c : CodePoint)
  /-- A string that is not closed before the end of its line. -/
  | unterminated
  deriving DecidableEq, Repr

/-- The message of a lexical fault; an unexpected character is shown quoted, with escapes
for characters that are not printable. -/
def LexFault.message : LexFault → String
  | .unexpected c => "Unexpected character " ++ Text.quotedPoints [c]
  | .unterminated => "Unterminated string literal"

/-- A lexical error: the fault, where its text starts and how many code points it spans. -/
structure LexError where
  fault : LexFault
  pos : Pos
  width : Nat
  deriving DecidableEq, Repr

/-- The result of reading a text: tokens and errors in the order of their places, and the
place just past the end of the text. -/
structure Lexed where
  tokens : List Token
  errors : List LexError
  finish : Pos
  deriving Repr

namespace Lexer

/-- Characters that continue a word. -/
def isWordChar (c : Char) : Bool :=
  Unicode.isLetter c || Unicode.isNumeric c || c = '_'

/-- Characters that start a word. -/
def isWordStart (c : Char) : Bool := Unicode.isLetter c || c = '_'

/-- The body of a string after its opening apostrophe: the code points of its value, how
many the body consumes (the closing apostrophe included), and whether it is closed. -/
def stringBody : List CodePoint → List CodePoint × Nat × Bool
  | [] => ([], 0, false)
  | .char '\n' :: _ => ([], 0, false)
  | .char '\'' :: .char '\'' :: r =>
    let (v, n, ok) := stringBody r
    (.char '\'' :: v, n + 2, ok)
  | .char '\'' :: _ => ([], 1, true)
  | c :: r =>
    let (v, n, ok) := stringBody r
    (c :: v, n + 1, ok)

/-- Whether a code point is a digit. -/
def isDigitPoint (c : CodePoint) : Bool := c.satisfies Unicode.isDigit

/-- How many code points after a first digit belong to its number: more digits, then a point
and the digits after it when a digit follows the point. -/
def numberExtra (r : List CodePoint) : Nat :=
  let whole := (r.takeWhile isDigitPoint).length
  match r.drop whole with
  | .char '.' :: d :: rest =>
    if isDigitPoint d then whole + 2 + (rest.takeWhile isDigitPoint).length else whole
  | _ => whole

/-- The operator symbol that starts the code points `cs`, the longest one first. -/
def symbolAt (cs : List CodePoint) : Option String :=
  symbols.find? fun s => cs.take s.length == CodePoint.ofString s

/-- What starts at a code point `c` followed by `r`: the number of further code points it
spans, and the token or error it makes, if any (white space and comments make neither). -/
def step (c : CodePoint) (r : List CodePoint) (p : Pos) : Nat × Option (Token ⊕ LexError) :=
  if c.satisfies Unicode.isBlank then (0, none)
  else if c.isChar '#' then ((r.takeWhile (!·.isChar '\n')).length, none)
  else if c.isChar '\'' then
    let (v, n, closed) := stringBody r
    if closed then (n, some (.inl ⟨.string, CodePoint.mend v, p, n + 1⟩))
    else (n, some (.inr ⟨.unterminated, p, n + 1⟩))
  else if isDigitPoint c then
    let n := numberExtra r
    (n, some (.inl ⟨.number, CodePoint.mend (c :: r.take n), p, n + 1⟩))
  else if c.satisfies isWordStart then
    let n := (r.takeWhile (·.satisfies isWordChar)).length
    let w := CodePoint.mend (c :: r.take n)
    let kind := if keywords.contains w then TokenKind.keyword else TokenKind.identifier
    (n, some (.inl ⟨kind, w, p, n + 1⟩))
  else
    match symbolAt (c :: r) with
    | some s => (s.length - 1, some (.inl ⟨.symbol, s, p, s.length⟩))
    | none => (0, some (.inr ⟨.unexpected c, p, 1⟩))

/-- Reads the code points `cs`, which start at `p`, after the tokens and errors already read
(kept in reverse order). -/
def scan (cs : List CodePoint) (p : Pos) (toks : List Token) (errs : List LexError) : Lexed :=
  match cs with
  | [] => ⟨toks.reverse, errs.reverse, p⟩
  | c :: r =>
    let (n, found) := step c r p
    let p' := p.advance ((c :: r.take n).map CodePoint.toChar)
    match found with
    | some (.inl t) => scan (r.drop n) p' (t :: toks) errs
    | some (.inr e) => scan (r.drop n) p' toks (e :: errs)
    | none => scan (r.drop n) p' toks errs
termination_by cs.length
decreasing_by all_goals (simp only [List.length_drop, List.length_cons]; omega)

end Lexer

/-- The tokens, errors and end of a schedule's text. -/
def tokenize (s : List CodePoint) : Lexed := Lexer.scan s Pos.start [] []

end FeeSchedule
