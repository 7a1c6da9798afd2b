import FeeSchedule.Schedule.Basic

/-!
# `FeeSchedule.Report.Info`: the overview of a schedule

`Schedule.info` describes a schedule in plain text: its version, then each input with its
kind, domain, default and group and its description on the next line, each fee with its
options and the number of its cases and variables, the groups by increasing weight (equal
weights in declaration order), the returns with their conditions, and the verify
directives. A section without entries is left out, except the inputs and the fees.
-/

namespace FeeSchedule

/-- The symbols of a list between braces: `{a, b}`. -/
def braced (xs : List String) : String := "\x7b" ++ ", ".intercalate xs ++ "\x7d"

/-- The kind, domain and default of an input on one line. -/
def Input.describe (i : Input) : String :=
  match i.spec with
  | .number lo hi d => "NUMBER [" ++ lo.toText ++ ".." ++ hi.toText ++ "] default " ++ d.toText
  | .boolean d => "BOOLEAN default " ++ (if d then "TRUE" else "FALSE")
  | .list _ d => "LIST " ++ braced i.symbols ++ " default " ++ d
  | .multilist _ ds => "MULTILIST " ++ braced i.symbols ++ " default " ++ braced ds
  | .date lo hi d => "DATE [" ++ lo.isoText ++ ".." ++ hi.isoText ++ "] default " ++ d.isoText
  | .amount c d => "AMOUNT " ++ c ++ " default " ++ d.toText

/-- A verify directive as written in a schedule, without the `VERIFY` keyword. -/
def Directive.describe : Directive → String
  | .complete f => "COMPLETE FEE " ++ f
  | .monotonic f x d => "MONOTONIC FEE " ++ f ++ " WITH RESPECT TO " ++ x ++ " " ++ d.keyword

/-- The groups by increasing weight; equal weights keep their order. -/
def Schedule.groupsByWeight (s : Schedule) : List Group :=
  s.groups.mergeSort fun a b => Decimal.compareNumbers a.weight b.weight != .gt

/-- The lines of a section, each ended by a line feed. -/
def linesText (ls : List String) : String := String.join (ls.map (· ++ "\n"))

namespace Schedule

/-- The version line, when there is a version. -/
def versionText (s : Schedule) : String :=
  match s.version with
  | some v =>
    let description := match v.description with
      | some d => if d.isEmpty then "" else " (" ++ d ++ ")"
      | none => ""
    "Version: " ++ v.id ++ description ++ "\n"
  | none => ""

/-- The inputs section. -/
def inputsText (s : Schedule) : String :=
  "Inputs (" ++ toString s.inputs.length ++ "):\n" ++ linesText (s.inputs.flatMap fun i =>
    let group := match i.group with
      | some g => if g.isEmpty then "" else " [group " ++ g ++ "]"
      | none => ""
    ["  " ++ i.name ++ ": " ++ i.describe ++ group, "    " ++ i.text])

/-- The fees section. -/
def feesText (s : Schedule) : String :=
  "Fees (" ++ toString s.fees.length ++ "):\n" ++ linesText (s.fees.map fun f =>
    let optional := if f.optional then " (optional)" else ""
    let currency := match f.currency with
      | some c => if c.isEmpty then "" else " " ++ c
      | none => ""
    let vars := if f.vars.isEmpty then "" else ", " ++ toString f.vars.length ++ " var(s)"
    "  " ++ f.name ++ optional ++ currency ++ ": " ++ toString f.cases.length ++ " case(s)"
      ++ vars)

/-- The groups section, when there are groups. -/
def groupsText (s : Schedule) : String :=
  if s.groups.isEmpty then ""
  else
    "Groups (" ++ toString s.groups.length ++ "):\n" ++ linesText (s.groupsByWeight.map fun g =>
      "  " ++ g.name ++ ": " ++ g.text ++ " (weight " ++ g.weight.toText ++ ")")

/-- The returns section, when there are returns. -/
def returnsText (s : Schedule) : String :=
  if s.returns.isEmpty then ""
  else
    "Returns (" ++ toString s.returns.length ++ "):\n" ++ linesText (s.returns.map fun r =>
      let condition := match r.condition with
        | some c => " IF " ++ c.render
        | none => ""
      "  " ++ r.symbol ++ ": " ++ r.text ++ condition)

/-- The directives section, when there are directives. -/
def directivesText (s : Schedule) : String :=
  if s.directives.isEmpty then ""
  else
    "Verify directives (" ++ toString s.directives.length ++ "):\n"
      ++ linesText (s.directives.map fun d => "  " ++ d.describe)

/-- The overview of a schedule, as described in the module header. -/
def info (s : Schedule) : String :=
  s.versionText ++ s.inputsText ++ s.feesText ++ s.groupsText ++ s.returnsText
    ++ s.directivesText

end Schedule

end FeeSchedule
