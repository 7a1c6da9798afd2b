import FeeSchedule.Verification.Dependencies
import FeeSchedule.Evaluation.Expr
import FeeSchedule.Settings

/-!
# `FeeSchedule.Verification.Domain`: the values an input is checked with

Verification tries each input on a finite domain (`Input.domain`), in increasing order:

* a boolean: false, then true;
* a list: its choices;
* a selection: its subsets of at most `subsetSize` choices, by size, each size in the order
  of the choices;
* a number: its bounds, its default, every literal it is compared with and the numbers one
  below and one above it when within the bounds, and `samplePoints` evenly spaced points
  strictly inside the bounds;
* an amount: the same with zero as the lower bound and no upper bound, the points spaced up
  to the default;
* a date: the same with days for units, the inner points on whole days.

Values that are equal count once, in the form first met. The arithmetic of samples is that
of the decimal context. A number of points below minus one gives no points, and minus one
divides the span by zero.

The settings are not checked: a limit of zero or below simply stops early.
-/

namespace FeeSchedule

/-- The subsets of `k` elements of a list, in lexicographic order of positions. -/
def combinations {α : Type} : Nat → List α → List (List α)
  | 0, _ => [[]]
  | _ + 1, [] => []
  | k + 1, x :: xs => (combinations k xs).map (x :: ·) ++ combinations (k + 1) xs

/-- The subsets of at most `n` elements of a list, by size. -/
def subsetsUpTo {α : Type} (n : Int) (xs : List α) : List (List α) :=
  if n < 0 then []
  else (List.range (min n.toNat xs.length + 1)).flatMap fun k => combinations k xs

namespace Sample

/-- Adds a number unless an equal one is already there. -/
def addNumber (ds : List Decimal) (d : Decimal) : List Decimal :=
  if ds.any (Decimal.compareNumbers · d == .eq) then ds else ds ++ [d]

/-- Adds a date unless it is already there. -/
def addDate (ds : List Date) (d : Date) : List Date :=
  if ds.contains d then ds else ds ++ [d]

/-- The candidates around a literal within the bounds: one below, itself, one above. -/
def around (low : Decimal) (high : Option Decimal) (lit : Decimal) :
    Except Signal (List Decimal) := do
  let one := Decimal.ofNat 1
  let below ← Decimal.sub lit one
  let above ← Decimal.add lit one
  pure ([below, lit, above].filter fun c =>
    Decimal.compareNumbers c low != .lt
      && (match high with
        | some h => Decimal.compareNumbers c h != .gt
        | none => true))

/-- The inner points `low + step · i` for `i` from 1 to `points`, where the step divides the
span into `points + 1` parts. -/
def innerPoints (low top : Decimal) (points : Int) : Except Signal (List Decimal) := do
  let span ← Decimal.sub top low
  let step ← Decimal.div span (Decimal.ofInt (points + 1))
  (List.range points.toNat).mapM fun i => do
    let offset ← Decimal.mul step (Decimal.ofNat (i + 1))
    Decimal.add low offset

end Sample

open Sample in
/-- The numeric samples of a domain from `low` to `high` (none: unbounded above), as
described in the module header, in increasing order. -/
def numericSamples (low : Decimal) (high : Option Decimal) (default : Decimal)
    (literals : List Decimal) (points : Int) : Except Signal (List Decimal) := do
  let start := high.toList.foldl addNumber (addNumber [low] default)
  let withLiterals ← literals.foldlM (fun acc lit => do
    let cs ← around low high lit
    pure (cs.foldl addNumber acc)) start
  let top := high.getD default
  let all ← if points != 0 ∧ Decimal.compareNumbers top low == .gt then do
      let inner ← innerPoints low top points
      pure (inner.foldl addNumber withLiterals)
    else pure withLiterals
  pure (all.mergeSort fun a b => Decimal.compareNumbers a b != .gt)

open Sample in
/-- The date samples of a domain from `lo` to `hi` with default `d`, as described in the
module header, in increasing order. -/
def dateSamples (lo hi d : Date) (literals : List Date) (points : Int) : List Date :=
  let start := addDate (addDate [lo] hi) d
  let withLiterals := literals.foldl (fun acc lit =>
    let candidates := [some lit, lit.addDays (-1), lit.addDays 1].filterMap id
    (candidates.filter fun c => lo ≤ c ∧ c ≤ hi).foldl addDate acc) start
  let span := Date.daysFrom hi lo
  let all := if points != 0 ∧ span > 1 then
      (List.range points.toNat).foldl (fun acc (i : Nat) =>
        match lo.addDays (span * ((i : Int) + 1) / (points + 1)) with
        | some x => addDate acc x
        | none => acc) withLiterals
    else withLiterals
  all.mergeSort fun a b => a.ordinal ≤ b.ordinal

/-- The domain of an input for verification, given the literals it is compared with, as
described in the module header. -/
def Input.domain (i : Input) (literals : List Value) (settings : VerifySettings) :
    Except Signal (List BoundValue) := do
  let numbers := literals.filterMap fun | .num d => some d | _ => none
  let dates := literals.filterMap fun | .date d => some d | _ => none
  match i.spec with
  | .boolean _ => pure [.boolean false, .boolean true]
  | .list cs _ => pure (cs.map fun c => .choice (symbolOf c.symbol))
  | .multilist cs _ =>
    pure ((subsetsUpTo settings.subsetSize (cs.map fun c => symbolOf c.symbol)).map .selection)
  | .number lo hi d =>
    let ss ← numericSamples lo (some hi) d numbers settings.samplePoints
    pure (ss.map .number)
  | .amount _ d =>
    let ss ← numericSamples Decimal.zero none d numbers settings.samplePoints
    pure (ss.map .number)
  | .date lo hi d => pure ((dateSamples lo hi d dates settings.samplePoints).map .date)

/-- The environment in which every input has its default value. An environment is read front
to back, so the inputs are entered last first: a name declared twice takes the default of its
last declaration, as a later entry of a table replaces an earlier one. -/
def Schedule.defaultEnv (s : Schedule) : Env :=
  s.inputs.reverse.map fun (i : Input) => (i.name, i.defaultValue.toValue)

/-- Schedules of the same inputs have the same defaults. -/
theorem Schedule.defaultEnv_of_inputs {s s' : Schedule} (hs : s'.inputs = s.inputs) :
    s'.defaultEnv = s.defaultEnv := by
  simp [Schedule.defaultEnv, hs]

end FeeSchedule
