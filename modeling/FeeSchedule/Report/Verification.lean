import FeeSchedule.Verification.Directives
import FeeSchedule.Report.Compute

/-!
# `FeeSchedule.Report.Verification`: reports of verifications

The reports of completeness and monotonicity checks as JSON objects, and the text report
of a verification: a section per kind of finding, each only when there is something in it.
Completeness lines show how many combinations were checked and how many were uncovered;
gaps beyond those kept are counted on a line of their own.
-/

namespace FeeSchedule

/-- The JSON report of a gap: the assignment by input name, and the error met. -/
def Gap.toJson (g : Gap) : Json :=
  .obj [("assignment", .obj (g.assignment.map fun (n, v) => (n, v.toJson))),
    ("error", (g.error.map Json.str).getD .null)]

/-- The JSON report of a completeness check. -/
def CompletenessReport.toJson (r : CompletenessReport) : Json :=
  .obj [("fee", .str r.fee), ("status", .str r.status.name), ("is_complete", .bool r.isComplete),
    ("combinations_checked", .int r.checked), ("domain_size", .int r.domainSize),
    ("uncovered", .int r.uncovered), ("gaps", .arr (r.gaps.map Gap.toJson))]

/-- The JSON report of a violation. -/
def Violation.toJson (v : Violation) : Json :=
  .obj [("from_value", v.fromValue.toJson), ("from_amount", .str v.fromAmount.toText),
    ("to_value", v.toValue.toJson), ("to_amount", .str v.toAmount.toText)]

/-- The JSON report of a monotonicity check. -/
def MonotonicityReport.toJson (r : MonotonicityReport) : Json :=
  .obj [("fee", .str r.fee), ("with_respect_to", .str r.input),
    ("direction", .str r.direction.keyword), ("is_monotonic", .bool r.isMonotonic),
    ("violations", .arr (r.violations.map Violation.toJson)),
    ("errors", .arr (r.errors.map .str))]

/-- The JSON report of a verification. -/
def VerificationResults.toJson (r : VerificationResults) : Json :=
  .obj [("passed", .bool r.passed),
    ("completeness", .arr (r.completeness.map CompletenessReport.toJson)),
    ("monotonicity", .arr (r.monotonicity.map MonotonicityReport.toJson)),
    ("errors", .arr (r.errors.map .str))]

namespace VerificationText

/-- The lines of one completeness report. -/
def completenessLines (r : CompletenessReport) : List String :=
  let uncovered := if r.uncovered = 0 then "" else ", " ++ toString r.uncovered ++ " uncovered"
  let more := if r.gapsTruncated then
      ["    ... " ++ toString (r.uncovered - r.gaps.length) ++ " more gap(s) not shown"]
    else []
  ("  " ++ r.fee ++ ": " ++ r.status.name ++ " (" ++ toString r.checked ++ " of "
      ++ toString r.domainSize ++ " combination(s) checked" ++ uncovered ++ ")")
    :: r.gaps.map (fun g => "    gap: " ++ g.text) ++ more

/-- The lines of one monotonicity report. -/
def monotonicityLines (r : MonotonicityReport) : List String :=
  ("  " ++ r.fee ++ " w.r.t. " ++ r.input ++ " " ++ r.direction.keyword ++ ": "
      ++ (if r.isMonotonic then "OK" else "VIOLATED"))
    :: r.violations.map (fun v => "    violation: " ++ v.text)
    ++ r.errors.map ("    error: " ++ ·)

/-- A section: its heading and lines, or nothing when it has no entry. -/
def block {α : Type} (heading : String) (lines : α → List String) : List α → List String
  | [] => []
  | xs => (heading ++ ":") :: xs.flatMap lines

end VerificationText

open VerificationText in
/-- The text report of completeness and monotonicity reports and errors, the completeness
section under `heading`. -/
def verificationText (heading : String) (completeness : List CompletenessReport)
    (monotonicity : List MonotonicityReport) (errors : List String) : String :=
  linesText (block heading completenessLines completeness
    ++ block "Monotonicity" monotonicityLines monotonicity
    ++ block "Errors" (fun e => ["  " ++ e]) errors)

/-- The text report of a verification. -/
def VerificationResults.text (r : VerificationResults) : String :=
  verificationText "Completeness" r.completeness r.monotonicity r.errors

end FeeSchedule
