import FeeSchedule.Composition.Analysis
import FeeSchedule.Report.Info
import FeeSchedule.Json.Basic

/-!
# `FeeSchedule.Report.Composition`: reports of compositions

The analysis of a jurisdiction and the metrics of a registry as JSON objects, percentages as
decimal text, and the text report of a composition: the chain and the size of the composed
schedule, then the analyses and the metrics when they are given, each section after a blank
line. An analysis lists only the kinds of names it has.
-/

namespace FeeSchedule

/-- The JSON report of an analysis. -/
def Inheritance.toJson (a : Inheritance) : Json :=
  let names (ns : List String) : Json := .arr (ns.map .str)
  .obj [("jurisdiction", .str a.id), ("inherited_fees", names a.inheritedFees),
    ("overridden_fees", names a.overriddenFees), ("defined_fees", names a.definedFees),
    ("inherited_inputs", names a.inheritedInputs),
    ("overridden_inputs", names a.overriddenInputs), ("defined_inputs", names a.definedInputs),
    ("reuse_percentage", .str a.reuse.toText)]

/-- The JSON report of the metrics of a registry. -/
def CompositionMetrics.toJson (m : CompositionMetrics) : Json :=
  .obj [("total_jurisdictions", .int m.jurisdictions),
    ("jurisdictions_with_inheritance", .int m.inheriting),
    ("inheritance_percentage", .str m.inheritance.toText),
    ("total_inherited_fees", .int m.inheritedFees),
    ("total_overridden_fees", .int m.overriddenFees),
    ("total_defined_fees", .int m.definedFees), ("reuse_percentage", .str m.reuse.toText)]

/-- The lines of an analysis in a text report. -/
def Inheritance.lines (a : Inheritance) : List String :=
  let kind (label : String) (ns : List String) : List String :=
    if ns.isEmpty then [] else ["    " ++ label ++ ": " ++ ", ".intercalate ns]
  ("  " ++ a.id ++ ": reuse " ++ a.reuse.toText ++ "%")
    :: kind "inherited fees" a.inheritedFees ++ kind "overridden fees" a.overriddenFees
    ++ kind "defined fees" a.definedFees ++ kind "inherited inputs" a.inheritedInputs
    ++ kind "overridden inputs" a.overriddenInputs ++ kind "defined inputs" a.definedInputs

/-- The lines of the metrics of a registry in a text report. -/
def CompositionMetrics.lines (m : CompositionMetrics) : List String :=
  ["  Jurisdictions: " ++ toString m.jurisdictions ++ " (" ++ toString m.inheriting
      ++ " inheriting, " ++ m.inheritance.toText ++ "%)",
    "  Fees: " ++ toString m.inheritedFees ++ " inherited, " ++ toString m.overriddenFees
      ++ " overridden, " ++ toString m.definedFees ++ " defined",
    "  Reuse: " ++ m.reuse.toText ++ "%"]

/-- The text report of a composition, with analyses and metrics when given. -/
def Composed.text (c : Composed) (analyses : List Inheritance)
    (metrics : Option CompositionMetrics) : String :=
  let s := c.schedule
  let analysisLines := if analyses.isEmpty then []
    else "" :: "Inheritance analysis:" :: analyses.flatMap Inheritance.lines
  let metricLines := match metrics with
    | some m => "" :: "Metrics:" :: m.lines
    | none => []
  linesText (("Inheritance chain: " ++ " -> ".intercalate c.applied)
    :: ("Composed script: " ++ toString s.inputs.length ++ " input(s), "
      ++ toString s.fees.length ++ " fee(s), " ++ toString s.groups.length ++ " group(s), "
      ++ toString s.returns.length ++ " return(s)")
    :: analysisLines ++ metricLines)

end FeeSchedule
