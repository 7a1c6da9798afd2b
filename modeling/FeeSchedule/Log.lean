import FeeSchedule.Decimal.Basic

/-!
# `FeeSchedule.Log`: events worth reporting while a schedule is processed

Reading, evaluating, verifying and composing schedules note events along the way: a skipped
broken declaration, a case that fired, a value given for an input that does not exist, a
search that stopped early. Each event has a level (debug, info, warning), a source (the
part of the program that notes it) and a message; the command line prints those at or above
the chosen level on standard error.

Computations that note events run in `Traced`, which keeps the events in the order they
happen, also those noted before a computation fails.
-/

namespace FeeSchedule

/-- The levels of events, from least to most severe. -/
inductive LogLevel where
  | debug | info | warning | error | critical
  deriving DecidableEq, Repr, Inhabited

namespace LogLevel

/-- The numeric value of a level: 10 for debug up to 50 for critical. -/
def value : LogLevel → Nat
  | .debug => 10 | .info => 20 | .warning => 30 | .error => 40 | .critical => 50

/-- The name of a level as printed. -/
def name : LogLevel → String
  | .debug => "DEBUG" | .info => "INFO" | .warning => "WARNING"
  | .error => "ERROR" | .critical => "CRITICAL"

end LogLevel

/-- Where values for inputs came from when some of them were ignored. -/
inductive ValueSource where
  /-- Values bound directly to a schedule. -/
  | binding
  /-- Values read from a JSON object. -/
  | ingestion
  deriving DecidableEq, Repr, Inhabited

/-- An event noted while a schedule is processed. -/
inductive Event where
  /-- Reading skipped a broken declaration that started on `line`. -/
  | skipping (line : Nat)
  /-- Reading found `n` syntax errors. -/
  | syntaxErrors (n : Nat)
  /-- Reading gave a schedule with these counts. -/
  | parsed (inputs fees diagnostics : Nat)
  /-- A value was given for an input the schedule does not declare. -/
  | ignoredValue (source : ValueSource) (name : String)
  /-- Case `i` of a fee fired and contributed `amount`. -/
  | caseFired (fee : String) (i : Nat) (amount : Decimal)
  /-- `n` counterfactual alternatives were computed. -/
  | counterfactuals (n : Nat)
  /-- The completeness search of a fee enumerates a domain of this size. -/
  | domainSize (fee : String) (inputs combinations : Nat)
  /-- The completeness search of a fee stopped at its limit. -/
  | stopped (fee : String) (checked total : Nat)
  /-- The verify directives ran. -/
  | directivesRan (n errors : Nat)
  /-- A jurisdiction registered again replaces the earlier one. -/
  | replacing (id : String)
  /-- A jurisdiction was composed along its chain. -/
  | composed (target : String) (chain : List String)
  /-- The log level setting was not understood. -/
  | badLogLevel (problem : String)
  deriving Repr, Inhabited

namespace Event

/-- The level of an event. -/
def level : Event → LogLevel
  | .ignoredValue .. | .stopped .. | .badLogLevel .. => .warning
  | .replacing .. => .info
  | _ => .debug

/-- The source of an event as printed. -/
def source : Event → String
  | .skipping .. | .syntaxErrors .. | .parsed .. => "ipflang.parser"
  | .ignoredValue .binding _ | .caseFired .. | .counterfactuals .. => "ipflang.evaluator"
  | .ignoredValue .ingestion _ => "ipflang.ingest"
  | .domainSize .. | .stopped .. | .directivesRan .. => "ipflang.verification"
  | .replacing .. | .composed .. => "ipflang.composition"
  | .badLogLevel .. => "ipflang.config"

/-- The message of an event. -/
def message : Event → String
  | .skipping l => "Skipping broken declaration starting at line " ++ toString l
  | .syntaxErrors n => "Parse produced " ++ toString n ++ " syntax error(s)"
  | .parsed i f d =>
    "Parsed " ++ toString i ++ " inputs, " ++ toString f ++ " fees; " ++ toString d
      ++ " type diagnostic(s)"
  | .ignoredValue _ n => "Ignoring value for undeclared input '" ++ n ++ "'"
  | .caseFired f i a => "Fee " ++ f ++ ": case " ++ toString i ++ " fired, contributes " ++ a.toText
  | .counterfactuals n => "Computed " ++ toString n ++ " counterfactual(s)"
  | .domainSize f i c =>
    "Fee " ++ f ++ ": " ++ toString i ++ " input(s) in domain, " ++ toString c ++ " combination(s)"
  | .stopped f c t =>
    "Fee " ++ f ++ ": stopped after " ++ toString c ++ " of " ++ toString t ++ " combinations"
  | .directivesRan n e => "Ran " ++ toString n ++ " directive(s): " ++ toString e ++ " error(s)"
  | .replacing id => "Replacing registered jurisdiction '" ++ id ++ "'"
  | .composed t c => "Composed " ++ t ++ " from " ++ " -> ".intercalate c
  | .badLogLevel p => p ++ "; using WARNING"

/-- The line printed for an event: `LEVEL source: message`. -/
def line (e : Event) : String := e.level.name ++ " " ++ e.source ++ ": " ++ e.message

end Event

/-- A computation that notes events. -/
abbrev Traced := StateM (Array Event)

/-- Notes an event. -/
def note (e : Event) : Traced Unit := modify (·.push e)

/-- The value of a traced computation and the events it noted. -/
def Traced.run' {α : Type} (m : Traced α) : α × Array Event := StateT.run m #[]

namespace Traced

variable {α β : Type}

/-- Running a bound computation runs its first part, then the rest on the events so far. -/
theorem run_bind (m : Traced α) (f : α → Traced β) (σ : Array Event) :
    (m >>= f).run σ = (f (m.run σ).1).run (m.run σ).2 := rfl

/-- Noting an event only adds it to the events. -/
theorem run_note (e : Event) (f : Unit → Traced β) (σ : Array Event) :
    (note e >>= f).run σ = (f ()).run (σ.push e) := rfl

theorem run_pure (a : α) (σ : Array Event) : (pure a : Traced α).run σ = (a, σ) := rfl

/-- A computation run on its own starts with no events. -/
theorem run'_eq_run (m : Traced α) : m.run' = m.run #[] := rfl

end Traced

end FeeSchedule
