import FeeSchedule.Verification.Completeness

/-!
# `FeeSchedule.Verification.Monotonicity`: does a fee move one way?

`Schedule.checkMonotonicity` evaluates a fee at each value of the domain of one input
(`Input.domain`, with the literals the fee compares that input with), all other inputs at
their defaults. Each success is a sample; each evaluation error is recorded as an error of
the check, and any other failure stops it. A violation is a pair of neighbouring samples
whose amounts move against the expected direction (strictly down for `INCREASING`,
strictly up for `DECREASING`). The fee is monotonic when there is neither a violation nor
an error.
-/

namespace FeeSchedule

/-- Two neighbouring samples whose amounts move against the expected direction. -/
structure Violation where
  fromValue : BoundValue
  fromAmount : Decimal
  toValue : BoundValue
  toAmount : Decimal
  deriving Inhabited

/-- The text of a violation: `value -> amount, value -> amount`. -/
def Violation.text (v : Violation) : String :=
  v.fromValue.text ++ " -> " ++ v.fromAmount.toText ++ ", " ++ v.toValue.text ++ " -> "
    ++ v.toAmount.toText

/-- The report of a monotonicity check. -/
structure MonotonicityReport where
  fee : String
  input : String
  direction : Direction
  samples : List (BoundValue × Decimal)
  violations : List Violation
  errors : List String
  deriving Inhabited

/-- Whether the fee was found monotonic: no violation and no error. -/
def MonotonicityReport.isMonotonic (r : MonotonicityReport) : Bool :=
  r.violations.isEmpty && r.errors.isEmpty

namespace Monotonicity

/-- The samples and errors of a fee over the values of input `x`. -/
def sample (f : Fee) (x : String) (base : Env) :
    List BoundValue → Traced (Except EvalFault (List (BoundValue × Decimal) × List String))
  | [] => pure (.ok ([], []))
  | v :: vs => do
    let outcome ← evaluateFee f ((x, v.toValue) :: base)
    let here : Except EvalFault (List (BoundValue × Decimal) × List String) := match outcome with
      | .ok o => .ok ([(v, o.contribution)], [])
      | .error e =>
        if e.kind == "EvaluationError" then .ok ([], [x ++ "=" ++ v.text ++ ": " ++ e.message])
        else .error e
    match here with
    | .error e => pure (.error e)
    | .ok (s, es) =>
      match ← sample f x base vs with
      | .error e => pure (.error e)
      | .ok (ss, ess) => pure (.ok (s ++ ss, es ++ ess))

/-- The violations among neighbouring samples. -/
def violations (d : Direction) : List (BoundValue × Decimal) → Except Signal (List Violation)
  | (v1, a1) :: (v2, a2) :: rest => do
    let o ← Decimal.order a2 a1
    let bad : Bool := match d with
      | .increasing => o == .lt
      | .decreasing => o == .gt
    let more ← violations d ((v2, a2) :: rest)
    pure (if bad then ⟨v1, a1, v2, a2⟩ :: more else more)
  | _ => pure []

end Monotonicity

open Monotonicity in
/-- Checks that a fee moves in direction `d` as input `i` grows, as described in the module
header. -/
def Schedule.checkMonotonicity (s : Schedule) (f : Fee) (i : Input) (d : Direction)
    (settings : VerifySettings) : Traced (Except EvalFault MonotonicityReport) := do
  match i.domain (f.literalBoundaries i.name) settings with
  | .error sig => pure (.error (.signal sig))
  | .ok values =>
    match ← sample f i.name s.defaultEnv values with
    | .error e => pure (.error e)
    | .ok (samples, errors) =>
      match violations d samples with
      | .error sig => pure (.error (.signal sig))
      | .ok vs => pure (.ok ⟨f.name, i.name, d, samples, vs, errors⟩)

end FeeSchedule
