import FeeSchedule.Evaluation.Binding
import FeeSchedule.Json.Basic
import FeeSchedule.Unicode.Blank
import FeeSchedule.Decimal.Text

/-!
# `FeeSchedule.Ingest`: input values from JSON

Values for inputs arrive as a JSON object keyed by input name. A missing or null member
leaves the input at its default; a member that names no input is ignored with a warning.
Each other value is converted by the kind of its input (`Input.ofJson`) and then checked
like any supplied value (`Input.checkValue`). Every value that fails gives one problem, in
input order, and the problems are reported together.

The conversions: a number input or an amount takes a JSON number (an integer as written, a
double through its shortest text) or a string that reads as a number; true and false are
not numbers, and the number must be finite. A boolean input takes true or false, a list
input a string, a selection input an array of strings, a date input a string that reads as
an ISO date once the blanks around it are removed. A string that holds a surrogate standing
alone is never a number or a date; a list or selection input keeps such a symbol exactly.
-/

namespace FeeSchedule

/-- The number a JSON value gives, if any: an integer exactly, a double through its
shortest text, a string when it reads as a number. -/
def Json.toDecimal? : Json → Option Decimal
  | .int n => some (Decimal.ofInt n)
  | .float x => (Decimal.ofText x.text).toOption
  | .string s => (Decimal.ofText (CodePoint.mend s)).toOption
  | _ => none

/-- The value of an input converted from JSON, or the problem that it cannot be. -/
def Input.ofJson (i : Input) (raw : Json) : Except String BoundValue :=
  let problem (what : String) : Except String BoundValue :=
    throw ("'" ++ i.name ++ "' expects " ++ what ++ ", got " ++ raw.echo)
  match i.spec with
  | .number .. | .amount .. =>
    match raw.toDecimal? with
    | some d => if d.isFinite then pure (.number d) else problem "a number"
    | none => problem "a number"
  | .boolean _ =>
    match raw with
    | .bool b => pure (.boolean b)
    | _ => problem "true or false"
  | .list .. =>
    match raw with
    | .string s => pure (.choice s)
    | _ => problem "a choice symbol"
  | .multilist .. =>
    match raw with
    | .arr items =>
      match items.mapM Json.string? with
      | some ss => pure (.selection ss)
      | none => problem "a list of choice symbols"
    | _ => problem "a list of choice symbols"
  | .date .. =>
    match raw with
    | .string s =>
      match Date.ofIsoText? (Unicode.strip (CodePoint.mend s)) with
      | some d => pure (.date d)
      | none => problem "a yyyy-MM-dd date"
    | _ => problem "a yyyy-MM-dd date"

/-- Why values from JSON were refused: the problems of the values that do not fit, or a
decimal signal. -/
inductive IngestFault where
  | misfits (problems : List String)
  | signal (s : Signal)
  deriving Repr, Inhabited

namespace IngestFault

/-- The class of an ingestion failure, as reported. -/
def kind : IngestFault → String
  | .misfits _ => "InputValueError"
  | .signal s => s.kind

/-- The message of an ingestion failure: the problems joined by semicolons. -/
def message : IngestFault → String
  | .misfits ps => "; ".intercalate ps
  | .signal s => s.report

end IngestFault

namespace Schedule

/-- The converted values and the problems of the inputs, in input order. -/
def ingestInputs (data : List (List CodePoint × Json)) :
    List Input → Except Signal (List (String × BoundValue) × List String)
  | [] => pure ([], [])
  | i :: is => do
    let (value, problem) ← match data.lookup (CodePoint.ofString i.name) with
      | none | some .null => pure (none, none)
      | some raw =>
        match i.ofJson raw with
        | .error p => pure (none, some p)
        | .ok v => do
          match ← i.checkValue v with
          | some p => pure (none, some p)
          | none => pure (some v, none)
    let (rest, problems) ← ingestInputs data is
    pure ((value.map fun v => [(i.name, v)]).getD [] ++ rest, problem.toList ++ problems)

/-- The values for the inputs of a schedule from the members of a JSON object, as described
in the module header. -/
def ingest (s : Schedule) (data : List (List CodePoint × Json)) :
    Traced (Except IngestFault (List (String × BoundValue))) := do
  for (n, _) in data do
    if !(s.inputNames.map CodePoint.ofString).contains n then
      note (.ignoredValue .ingestion (CodePoint.mend n))
  match ingestInputs data s.inputs with
  | .error sig => pure (.error (.signal sig))
  | .ok (vs, []) => pure (.ok vs)
  | .ok (_, problems) => pure (.error (.misfits problems))

end Schedule

end FeeSchedule
