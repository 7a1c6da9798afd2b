import FeeSchedule.Evaluation.Compute
import FeeSchedule.Decimal.Fixed
import FeeSchedule.Json.Basic

/-!
# `FeeSchedule.Report.Compute`: reports of computations

The reports of a computation and of its audit trail, as JSON objects and as text. Numbers
appear in JSON as their decimal text; a bound value as a truth value, as the list of a
selection's symbols in the order given, or as its text. Amounts in text reports have two
decimals and grouped thousands (`Decimal.moneyText`); a signed amount has `+` before it
when it is not negative.

A report that shows the grand total computes it, so it fails with the decimal signal of
that sum if there is one; the first failure in the order of the report is the one seen.
-/

namespace FeeSchedule

/-- A bound value in a JSON report. -/
def BoundValue.toJson : BoundValue → Json
  | .boolean b => .bool b
  | .choice s => .string s
  | .selection ss => .arr (ss.map .string)
  | v => .str v.text

/-- An amount with a sign: `+` before one that is not negative. -/
def signedMoney (d : Decimal) : Except Signal String := do
  let o ← Decimal.order d Decimal.zero
  pure ((if o == .lt then "" else "+") ++ d.moneyText)

/-- The lines `  name = value` of bound values, followed by a blank line, under a heading;
nothing when there are none. -/
def inputValuesText (b : Bindings) : String :=
  if b.isEmpty then ""
  else "Input values:\n" ++ linesText (b.map fun (n, v) => "  " ++ n ++ " = " ++ v.text) ++ "\n"

/-- The three total lines of a report. -/
def totalsText (mandatory optional grand : Decimal) : String :=
  "Mandatory total: " ++ mandatory.moneyText ++ "\n" ++ "Optional total:  " ++ optional.moneyText
    ++ "\n" ++ "Grand total:     " ++ grand.moneyText ++ "\n"

namespace ComputeResult

/-- The JSON report of a computation. -/
def toJson (r : ComputeResult) : Except Signal Json := do
  let grand ← r.grandTotal
  pure (.obj [("mandatory_total", .str r.mandatory.toText),
    ("optional_total", .str r.optional.toText), ("grand_total", .str grand.toText),
    ("steps", .arr (r.steps.map .str)),
    ("active_returns", .arr (r.returns.map fun ret =>
      .obj [("symbol", .str ret.symbol), ("text", .str ret.text)]))])

/-- The text report of a computation with the bound values. -/
def text (r : ComputeResult) (b : Bindings) : Except Signal String := do
  let grand ← r.grandTotal
  let returns := if r.returns.isEmpty then ""
    else "\nReturns:\n" ++ linesText (r.returns.map fun ret => "  " ++ ret.symbol ++ ": " ++ ret.text)
  pure (inputValuesText b ++ "Steps:\n" ++ linesText (r.steps.map ("  " ++ ·)) ++ "\n"
    ++ totalsText r.mandatory r.optional grand ++ returns)

end ComputeResult

/-- The JSON report of a case record. -/
def CaseRecord.toJson (r : CaseRecord) : Json :=
  .obj [("expression", .str r.expr), ("condition", (r.condition.map Json.str).getD .null),
    ("condition_result", (r.conditionResult.map Json.bool).getD .null),
    ("did_contribute", .bool r.contributed), ("contribution", .str r.contribution.toText)]

/-- The line of a case record in a text report. -/
def CaseRecord.line (r : CaseRecord) : String :=
  let result := match r.conditionResult with
    | some b => if b then " [true]" else " [false]"
    | none => ""
  let amount := if r.contributed then " -> " ++ r.contribution.moneyText else ""
  "  " ++ (if r.contributed then "*" else " ") ++ " " ++ r.text ++ result ++ amount

/-- The JSON report of a fee's trail. -/
def FeeTrace.toJson (t : FeeTrace) : Json :=
  .obj [("fee", .str t.fee), ("optional", .bool t.optional),
    ("currency", (t.currency.map Json.str).getD .null), ("total", .str t.total.toText),
    ("variables", .obj (t.letValues.map fun (n, v) => (n, .str v))),
    ("cases", .arr (t.records.map CaseRecord.toJson))]

/-- The text of a fee's trail: its total, its variables and its cases. -/
def FeeTrace.text (t : FeeTrace) : String :=
  let currency := match t.currency with
    | some c => if c.isEmpty then "" else " " ++ c
    | none => ""
  t.fee ++ (if t.optional then " (optional)" else "") ++ ": " ++ t.total.moneyText ++ currency
    ++ "\n" ++ linesText (t.letValues.map fun (n, v) => "    LET " ++ n ++ " = " ++ v)
    ++ linesText (t.records.map CaseRecord.line)

/-- The JSON report of a counterfactual. -/
def Counterfactual.toJson (c : Counterfactual) : Json :=
  .obj [("input", .str c.input), ("original_value", c.given.toJson),
    ("alternative_value", c.alternative.toJson), ("alternative_total", .str c.total.toText),
    ("difference", .str c.difference.toText)]

namespace Provenance

/-- The JSON report of an audit trail. -/
def toJson (p : Provenance) : Except Signal Json := do
  let grand ← p.grandTotal
  pure (.obj [("total_mandatory", .str p.mandatory.toText),
    ("total_optional", .str p.optional.toText), ("grand_total", .str grand.toText),
    ("inputs", .obj (p.inputs.map fun (n, v) => (n, v.toJson))),
    ("fees", .arr (p.fees.map FeeTrace.toJson)),
    ("counterfactuals", .arr (p.counterfactuals.map Counterfactual.toJson))])

/-- The lines of the counterfactuals of a text report. -/
def counterfactualLines : List Counterfactual → Except Signal (List String)
  | [] => pure []
  | c :: cs => do
    let difference ← signedMoney c.difference
    let rest ← counterfactualLines cs
    pure (("  " ++ c.input ++ " = " ++ c.alternative.text ++ " (was " ++ c.given.text ++ "): "
      ++ c.total.moneyText ++ " (" ++ difference ++ ")") :: rest)

/-- The text report of an audit trail. -/
def text (p : Provenance) : Except Signal String := do
  let grand ← p.grandTotal
  let lines ← counterfactualLines p.counterfactuals
  let counterfactuals := if p.counterfactuals.isEmpty then ""
    else "\nCounterfactuals:\n" ++ linesText lines
  pure (inputValuesText p.inputs ++ String.join (p.fees.map FeeTrace.text) ++ "\n"
    ++ totalsText p.mandatory p.optional grand ++ counterfactuals)

end Provenance

end FeeSchedule
