import FeeSchedule.Verification.Domain
import FeeSchedule.Evaluation.Fee

/-!
# `FeeSchedule.Verification.Completeness`: does some case always fire?

`Schedule.checkCompleteness` tries a fee on every combination of the domains of the inputs
its conditions read (`Schedule.conditionInputs`, `Input.domain`), the other inputs at their
defaults. Combinations are taken in lexicographic order, the last input varying fastest,
and at most `maxCombinations` of them (a note says when the search stopped early). A
combination where no case fires, or where the fee fails with an evaluation error, is a gap;
the first `maxGaps` gaps are kept with the error, if any. Any other failure stops the check.

The status is `INCOMPLETE` when there is a gap, `PARTIAL` when the search stopped early
without one, and `COMPLETE` otherwise. The number of combinations checked is the domain
size or the limit, whichever is smaller (none when the limit is not positive).
-/

namespace FeeSchedule

/-- The verdict of a completeness check. -/
inductive Coverage where
  | complete
  | incomplete
  | unfinished
  deriving DecidableEq, Repr, Inhabited

/-- The name of a verdict, as reports show it. -/
def Coverage.name : Coverage → String
  | .complete => "COMPLETE"
  | .incomplete => "INCOMPLETE"
  | .unfinished => "PARTIAL"

/-- A combination of input values under which no case of a fee fires. -/
structure Gap where
  assignment : List (String × BoundValue)
  /-- The message of the evaluation error met, if any. -/
  error : Option String
  deriving Inhabited

/-- The text of a gap: `name=value` pairs, or `(defaults)` when there are none, with the
error after them. -/
def Gap.text (g : Gap) : String :=
  let pairs := ", ".intercalate (g.assignment.map fun (n, v) => n ++ "=" ++ v.text)
  let pairs := if pairs.isEmpty then "(defaults)" else pairs
  match g.error with
  | some e => if e.isEmpty then pairs else pairs ++ " [error: " ++ e ++ "]"
  | none => pairs

/-- The report of a completeness check of one fee. -/
structure CompletenessReport where
  fee : String
  status : Coverage
  checked : Nat
  domainSize : Nat
  uncovered : Nat
  gaps : List Gap
  inputs : List String
  deriving Inhabited

namespace CompletenessReport

/-- Whether the fee was found complete. -/
def isComplete (r : CompletenessReport) : Bool := r.status == .complete

/-- Whether more gaps were found than kept. -/
def gapsTruncated (r : CompletenessReport) : Bool := r.uncovered > r.gaps.length

end CompletenessReport

/-- The combination at position `k` of the product of `domains`, the last varying fastest. -/
def comboAt {α : Type} [Inhabited α] : List (List α) → Nat → List α
  | [], _ => []
  | d :: ds, k =>
    let inner := (ds.map List.length).foldl (· * ·) 1
    (d[k / inner]?).getD default :: comboAt ds (k % inner)

namespace Completeness

/-- What the search has found so far: combinations without a firing case, and the gaps
kept. -/
structure Search where
  uncovered : Nat := 0
  gaps : Array Gap := #[]

/-- Checks the combinations from position `k` on, `remaining` of them. -/
def search (s : Schedule) (f : Fee) (settings : VerifySettings) (names : List String)
    (domains : List (List BoundValue)) (base : Env) (acc : Search) :
    Nat → Nat → Traced (Except EvalFault Search)
  | 0, _ => pure (.ok acc)
  | remaining + 1, k => do
    let combo := comboAt domains k
    let assignment := names.zip combo
    let env := assignment.map (fun (n, v) => (n, v.toValue)) ++ base
    let outcome ← evaluateFee f env
    let gap : Except EvalFault (Option Gap) := match outcome with
      | .ok o => .ok (if o.fired.isSome then none else some ⟨assignment, none⟩)
      | .error e =>
        if e.kind == "EvaluationError" then .ok (some ⟨assignment, some e.message⟩) else .error e
    match gap with
    | .error e => pure (.error e)
    | .ok none => search s f settings names domains base acc remaining (k + 1)
    | .ok (some g) =>
      let gaps := if (acc.gaps.size : Int) < settings.maxGaps then acc.gaps.push g else acc.gaps
      search s f settings names domains base ⟨acc.uncovered + 1, gaps⟩ remaining (k + 1)

end Completeness

open Completeness in
/-- Checks that some case of a fee fires on every combination, as described in the module
header; notes the size of the domain, and when the search stops early. -/
def Schedule.checkCompleteness (s : Schedule) (f : Fee) (settings : VerifySettings) :
    Traced (Except EvalFault CompletenessReport) := do
  let names := s.conditionInputs f
  let domains := names.mapM fun n =>
    match s.input? n with
    | some i => i.domain (f.literalBoundaries n) settings
    | none => pure []
  match domains with
  | .error sig => pure (.error (.signal sig))
  | .ok domains =>
    let size := (domains.map List.length).foldl (· * ·) 1
    note (.domainSize f.name names.length size)
    let limit := settings.maxCombinations.toNat
    let checked := min size limit
    match ← search s f settings names domains s.defaultEnv {} checked 0 with
    | .error e => pure (.error e)
    | .ok found =>
      if size > limit then note (.stopped f.name checked size)
      let status := if found.uncovered > 0 then Coverage.incomplete
        else if checked < size then .unfinished else .complete
      pure (.ok ⟨f.name, status, checked, size, found.uncovered, found.gaps.toList, names⟩)

/-- The completeness reports of all fees, in order. -/
def Schedule.checkAllCompleteness (s : Schedule) (settings : VerifySettings) :
    Traced (Except EvalFault (List CompletenessReport)) := do
  let mut reports := #[]
  for f in s.fees do
    match ← s.checkCompleteness f settings with
    | .error e => return .error e
    | .ok r => reports := reports.push r
  return .ok reports.toList

end FeeSchedule
