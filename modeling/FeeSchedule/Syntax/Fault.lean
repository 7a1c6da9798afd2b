import FeeSchedule.Syntax.Token
import FeeSchedule.Schedule.Basic

/-!
# `FeeSchedule.Syntax.Fault`: why a text is not a schedule

Reading stops at the first fault of a declaration. The fault says what was expected and
what was found instead (a token between apostrophes, or `end of input`), or names a rule of
the language that the text breaks: a number or date that cannot be read, a function that is
not built in, a second version, an attribute on an input kind that does not take it, a
missing range or currency, a `LET` after the cases. The place of the fault is the place of
the token it is about; reading resumes from where it stopped (`Abort.rest`).
-/

namespace FeeSchedule

/-- A syntax fault. -/
inductive SyntaxFault where
  | expected (what : String) (found : String)
  | invalidNumber (text : String)
  | unknownFunction (name : String)
  | invalidDate (text : String)
  | repeatedVersion
  | notValidFor (clause : String) (kind : InputKind)
  | requiresBounds (kind : InputKind) (name : String)
  | requiresCurrency (name : String)
  | letAfterCases
  deriving DecidableEq, Repr

/-- The message of a syntax fault. -/
def SyntaxFault.message : SyntaxFault → String
  | .expected w f => "Expected " ++ w ++ ", found " ++ f
  | .invalidNumber t => "Invalid number '" ++ t ++ "'"
  | .unknownFunction n => "Unknown function '" ++ n ++ "'"
  | .invalidDate t => "Invalid date '" ++ t ++ "', expected YYYY-MM-DD"
  | .repeatedVersion => "VERSION is declared more than once"
  | .notValidFor a k => a ++ " is not valid for " ++ k.keyword ++ " inputs"
  | .requiresBounds k n => k.keyword ++ " input '" ++ n ++ "' requires BETWEEN"
  | .requiresCurrency n => "AMOUNT input '" ++ n ++ "' requires CURRENCY"
  | .letAfterCases => "LET must come before the YIELD cases"

/-- A stop of reading: the fault, its place, and the tokens not yet consumed. -/
structure Abort where
  fault : SyntaxFault
  pos : Pos
  rest : List Token
  deriving Repr

/-- Why reading ended without a result: a syntax fault, or a signal of decimal arithmetic
raised while a bound or default was read. -/
inductive Stop where
  | abort (a : Abort)
  | signal (s : Signal)
  deriving Repr

/-- A phrase read from the start of the tokens `ts`: its value and the tokens after it,
which are what is left of `ts`. -/
structure Parsed (ts : List Token) (α : Type) where
  value : α
  rest : List Token
  suffix : rest <:+ ts

namespace Parsed

/-- A reading never leaves more tokens than it was given. -/
theorem le {α : Type} {ts : List Token} (p : Parsed ts α) : p.rest.length ≤ ts.length :=
  p.suffix.length_le

/-- A value read by consuming the first token of `t :: r`. -/
def next {α : Type} {t : Token} {r : List Token} (v : α) : Parsed (t :: r) α :=
  ⟨v, r, List.suffix_cons _ _⟩

/-- A value read without consuming any token. -/
def here {α : Type} {ts : List Token} (v : α) : Parsed ts α :=
  ⟨v, ts, List.suffix_refl _⟩

/-- A value read from a suffix of the tokens counts as read from the tokens. -/
def widen {α : Type} {ts us : List Token} (h : us <:+ ts) (p : Parsed us α) :
    Parsed ts α :=
  ⟨p.value, p.rest, p.suffix.trans h⟩

/-- The same reading with another value. -/
def map {α β : Type} {ts : List Token} (f : α → β) (p : Parsed ts α) : Parsed ts β :=
  ⟨f p.value, p.rest, p.suffix⟩

end Parsed

/-- How the first of the tokens is named in a message, `end of input` when there is none. -/
def describeHead : List Token → String
  | t :: _ => t.describe
  | [] => "end of input"

/-- The place of the first of the tokens, or the end of the text when there is none. -/
def posHead (eof : Pos) : List Token → Pos
  | t :: _ => t.pos
  | [] => eof

/-- The stop for "expected `what`" at the first of the tokens `ts`. -/
def expectedAt (eof : Pos) (ts : List Token) (what : String) : Stop :=
  .abort ⟨.expected what (describeHead ts), posHead eof ts, ts⟩

end FeeSchedule
