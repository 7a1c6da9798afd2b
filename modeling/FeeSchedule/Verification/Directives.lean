import FeeSchedule.Verification.Monotonicity

/-!
# `FeeSchedule.Verification.Directives`: running the verify directives of a schedule

`Schedule.verify` runs the directives in order. A directive whose fee is unknown, a
monotonicity directive whose input is unknown or is not read by the fee at all
(`Schedule.feeInputs`), gives an error instead of a report. The verification passes when
there is no error, every completeness report is complete and every monotonicity report is
monotonic.

`Schedule.checkAllMonotonicity` checks every monotonicity directive whose fee and input
exist, without the test that the fee reads the input.
-/

namespace FeeSchedule

/-- The reports and errors of the verify directives of a schedule. -/
structure VerificationResults where
  completeness : List CompletenessReport
  monotonicity : List MonotonicityReport
  errors : List String
  deriving Inhabited

/-- Whether the verification passed. -/
def VerificationResults.passed (r : VerificationResults) : Bool :=
  r.errors.isEmpty && r.completeness.all (·.isComplete) && r.monotonicity.all (·.isMonotonic)

namespace Schedule

/-- The problem of a directive that cannot run, if any. -/
def directiveProblem (s : Schedule) (d : Directive) : Option String :=
  match s.fee? d.fee with
  | none => some ("Verify directive names unknown fee '" ++ d.fee ++ "'")
  | some f =>
    match d with
    | .complete _ => none
    | .monotonic _ x _ =>
      if (s.input? x).isNone then
        some ("MONOTONIC directive for fee '" ++ f.name ++ "' names unknown input '" ++ x ++ "'")
      else if !(s.feeInputs f).contains x then
        some ("Fee '" ++ f.name ++ "' never references input '" ++ x
          ++ "' named by its MONOTONIC directive")
      else none

/-- Runs the verify directives of a schedule in order; notes how many ran with how many
errors. -/
def verify (s : Schedule) (settings : VerifySettings) :
    Traced (Except EvalFault VerificationResults) := do
  let mut completeness := #[]
  let mut monotonicity := #[]
  let mut errors := #[]
  for d in s.directives do
    match s.directiveProblem d, s.fee? d.fee, d with
    | some p, _, _ => errors := errors.push p
    | none, some f, .complete _ =>
      match ← s.checkCompleteness f settings with
      | .error e => return .error e
      | .ok r => completeness := completeness.push r
    | none, some f, .monotonic _ x dir =>
      match s.input? x with
      | some i =>
        match ← s.checkMonotonicity f i dir settings with
        | .error e => return .error e
        | .ok r => monotonicity := monotonicity.push r
      | none => pure ()
    | none, none, _ => pure ()
  note (.directivesRan s.directives.length errors.size)
  return .ok ⟨completeness.toList, monotonicity.toList, errors.toList⟩

/-- Checks every monotonicity directive whose fee and input exist, in order. -/
def checkAllMonotonicity (s : Schedule) (settings : VerifySettings) :
    Traced (Except EvalFault (List MonotonicityReport)) := do
  let mut reports := #[]
  for d in s.directives do
    match d with
    | .monotonic fee x dir =>
      match s.fee? fee, s.input? x with
      | some f, some i =>
        match ← s.checkMonotonicity f i dir settings with
        | .error e => return .error e
        | .ok r => reports := reports.push r
      | _, _ => pure ()
    | .complete _ => pure ()
  return .ok reports.toList

end Schedule

end FeeSchedule
