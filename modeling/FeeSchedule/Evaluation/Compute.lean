import FeeSchedule.Evaluation.Fee

/-!
# `FeeSchedule.Evaluation.Compute`: totals, audit trail and what-if totals

Three computations over a schedule with bound values:

* `Schedule.compute` evaluates every fee, then adds the contributions of the fees that are
  not optional into the mandatory total and those of the optional ones into the optional
  total, in declaration order, each sum fitted to the decimal context; it writes one step
  line per fee and collects the returns whose condition holds (or that have none).
* `Schedule.trace` evaluates every fee with the same totals, and keeps for each fee a record
  of every case: its texts, the result of its condition if it was tried, and whether it
  contributed.
* `Schedule.whatIf` adds to the trace, for each input in order, the grand total obtained by
  changing that input alone to each of its alternatives (`Input.alternatives`).

The grand total is the sum of the two totals and is computed when asked for, so it can
itself raise a decimal signal. So can the totals: such a signal stops the computation as
it is.
-/

namespace FeeSchedule

/-- The totals, steps and active returns of a computation. -/
structure ComputeResult where
  mandatory : Decimal
  optional : Decimal
  steps : List String
  returns : List Return
  deriving Inhabited

/-- The sum of the mandatory and optional totals. -/
def ComputeResult.grandTotal (r : ComputeResult) : Except Signal Decimal :=
  Decimal.add r.mandatory r.optional

/-- The name of a fee with `(optional)` after it when it is optional. -/
def Fee.label (f : Fee) : String := if f.optional then f.name ++ " (optional)" else f.name

/-- The text of a case: `YIELD amount` with `IF condition` when it has one. -/
def Case.text (c : Case) : String :=
  "YIELD " ++ c.expr.render ++ match c.condition with
    | some cond => " IF " ++ cond.render
    | none => ""

/-- The step line of a fee's outcome. -/
def FeeOutcome.step (o : FeeOutcome) : String :=
  match o.fired.bind fun i => o.fee.cases[i]? with
  | some c => o.fee.label ++ ": " ++ c.text ++ " -> " ++ o.contribution.toText
  | none => o.fee.label ++ ": no case applies, contributes 0"

namespace Assessment

open Evaluation

/-- The outcomes of the fees, in order, stopping at the first fault. -/
def outcomes (env : Env) : List Fee → Traced (Except EvalFault (List FeeOutcome))
  | [] => pure (.ok [])
  | f :: fs => do
    match ← evaluateFee f env with
    | .error e => pure (.error e)
    | .ok o =>
      match ← outcomes env fs with
      | .error e => pure (.error e)
      | .ok os => pure (.ok (o :: os))

/-- The mandatory and optional totals of outcomes, added in order from zero. -/
def totals (os : List FeeOutcome) : Except EvalFault (Decimal × Decimal) :=
  let add (acc : Decimal × Decimal) (x : FeeOutcome) : Except EvalFault (Decimal × Decimal) :=
    if x.fee.optional then do pure (acc.1, ← raw (Decimal.add acc.2 x.contribution))
    else do pure (← raw (Decimal.add acc.1 x.contribution), acc.2)
  List.foldlM add (Decimal.zero, Decimal.zero) os

/-- The returns whose condition holds or that have none, in order. -/
def activeReturns (env : Env) : List Return → Except EvalFault (List Return)
  | [] => pure []
  | r :: rs => do
    let active ← match r.condition with
      | none => pure true
      | some c => asBoolean c (← evaluate env c)
    let rest ← activeReturns env rs
    pure (if active then r :: rest else rest)

end Assessment

open Assessment in
/-- The totals, steps and active returns of a schedule with bound values. -/
def Schedule.compute (s : Schedule) (b : Bindings) : Traced (Except EvalFault ComputeResult) := do
  let env := b.env
  match ← outcomes env s.fees with
  | .error e => pure (.error e)
  | .ok os => pure do
    let (m, o) ← totals os
    let returns ← activeReturns env s.returns
    pure ⟨m, o, os.map FeeOutcome.step, returns⟩

/-- One case of a fee as seen in an evaluation. -/
structure CaseRecord where
  expr : String
  condition : Option String
  /-- The result of the condition, when the case has one and was tried. -/
  conditionResult : Option Bool
  contributed : Bool
  contribution : Decimal
  deriving Inhabited

/-- The text of a case record: `YIELD amount` with `IF condition` when it has one. -/
def CaseRecord.text (r : CaseRecord) : String :=
  match r.condition with
  | some c => "YIELD " ++ r.expr ++ " IF " ++ c
  | none => "YIELD " ++ r.expr

/-- The audit trail of one fee. -/
structure FeeTrace where
  fee : String
  optional : Bool
  total : Decimal
  records : List CaseRecord
  /-- The variables with the report texts of their values. -/
  letValues : List (String × String)
  currency : Option String
  deriving Inhabited

/-- The record of the case that contributed, if any. -/
def FeeTrace.fired (t : FeeTrace) : Option CaseRecord := t.records.find? (·.contributed)

/-- The grand total obtained by changing one input to an alternative value. -/
structure Counterfactual where
  input : String
  /-- The value the input was given. -/
  given : BoundValue
  alternative : BoundValue
  total : Decimal
  /-- The alternative total minus the actual grand total. -/
  difference : Decimal
  deriving Inhabited

/-- The text of a counterfactual; the sign `+` is written before a difference that is not
negative, which compares the difference with zero and can raise a decimal signal. -/
def Counterfactual.text (c : Counterfactual) : Except Signal String := do
  let o ← Decimal.order c.difference Decimal.zero
  let sign := if o == .lt then "" else "+"
  pure ("If " ++ c.input ++ " were " ++ c.alternative.text ++ " instead of " ++ c.given.text
    ++ ": " ++ c.total.toText ++ " (" ++ sign ++ c.difference.toText ++ ")")

/-- The audit trail of a computation. -/
structure Provenance where
  mandatory : Decimal
  optional : Decimal
  fees : List FeeTrace
  inputs : Bindings
  counterfactuals : List Counterfactual
  deriving Inhabited

/-- The sum of the mandatory and optional totals. -/
def Provenance.grandTotal (p : Provenance) : Except Signal Decimal :=
  Decimal.add p.mandatory p.optional

/-- The audit trail of one fee's outcome. -/
def FeeOutcome.trace (o : FeeOutcome) : FeeTrace :=
  let records := o.fee.cases.zipIdx.map fun (c, i) =>
    let fired := o.fired == some i
    ⟨c.expr.render, c.condition.map Expr.render, (o.conditions[i]?).getD none, fired,
      if fired then o.contribution else Decimal.zero⟩
  ⟨o.fee.name, o.fee.optional, o.contribution, records,
    o.letValues.map fun (n, v) => (n, v.text), o.fee.currency⟩

open Assessment in
/-- The audit trail of a schedule with bound values, without counterfactuals. -/
def Schedule.trace (s : Schedule) (b : Bindings) : Traced (Except EvalFault Provenance) := do
  match ← outcomes b.env s.fees with
  | .error e => pure (.error e)
  | .ok os => pure do
    let (m, o) ← totals os
    pure ⟨m, o, os.map FeeOutcome.trace, b, []⟩

/-- The selection with `sym` added when absent and removed when present, in the order of
the choices. -/
def toggle (symbols selected : List (List CodePoint)) (sym : List CodePoint) :
    List (List CodePoint) :=
  symbols.filter fun x => (x == sym) != selected.contains x

/-- The values an input is tried with in a what-if analysis, before removing repeats: the
other truth value; every choice of a list; each choice toggled in a selection; the bounds
and default of a number or date; zero and the default of an amount. -/
def Input.candidates (i : Input) (current : BoundValue) : List BoundValue :=
  match i.spec, current with
  | .boolean _, .boolean b => [.boolean !b]
  | .boolean _, _ => []
  | .list cs _, _ => cs.map fun c => .choice (symbolOf c.symbol)
  | .multilist cs _, .selection ss =>
    let symbols := cs.map fun c => symbolOf c.symbol
    symbols.map fun sym => .selection (toggle symbols ss sym)
  | .multilist .., _ => []
  | .number lo hi d, _ => [.number lo, .number hi, .number d]
  | .date lo hi d, _ => [.date lo, .date hi, .date d]
  | .amount _ d, _ => [.number Decimal.zero, .number d]

/-- Whether `v` is the same as one of `vs` (`BoundValue.same`), looking in order. -/
def sameAsAny (v : BoundValue) : List BoundValue → Except Signal Bool
  | [] => pure false
  | w :: ws => do
    if ← BoundValue.same v w then pure true else sameAsAny v ws

/-- The alternatives of an input for a what-if analysis: its candidates without the current
value and without repeats. -/
def Input.alternatives (i : Input) (current : BoundValue) : Except Signal (List BoundValue) :=
  let keep (kept : List BoundValue) (c : BoundValue) : Except Signal (List BoundValue) := do
    if ← BoundValue.same c current then pure kept
    else if ← sameAsAny c kept then pure kept
    else pure (kept ++ [c])
  List.foldlM keep [] (i.candidates current)

/-- The bindings with the value of `name` replaced. -/
def Bindings.replace (b : Bindings) (name : String) (v : BoundValue) : Bindings :=
  b.map fun (n, w) => if n == name then (n, v) else (n, w)

namespace Assessment

open Evaluation

/-- The grand total of a schedule with bindings `b` where `name` takes the value `alt`. -/
def alternativeTotal (s : Schedule) (b : Bindings) (name : String) (alt : BoundValue) :
    Traced (Except EvalFault Decimal) := do
  let supplied := b.replace name alt
  match ← s.bind supplied with
  | .error e => pure (.error e)
  | .ok b' =>
    match ← s.compute b' with
    | .error e => pure (.error e)
    | .ok r => pure (raw r.grandTotal)

/-- The counterfactuals of one input over its alternatives. -/
def counterfactualsOf (s : Schedule) (b : Bindings) (actual : Decimal) (name : String)
    (current : BoundValue) : List BoundValue → Traced (Except EvalFault (List Counterfactual))
  | [] => pure (.ok [])
  | alt :: alts => do
    match ← alternativeTotal s b name alt with
    | .error e => pure (.error e)
    | .ok total =>
      match Decimal.sub total actual with
      | .error sig => pure (.error (.signal sig))
      | .ok difference =>
        match ← counterfactualsOf s b actual name current alts with
        | .error e => pure (.error e)
        | .ok rest => pure (.ok (⟨name, current, alt, total, difference⟩ :: rest))

/-- The counterfactuals of the inputs, in input order. -/
def counterfactuals (s : Schedule) (b : Bindings) (actual : Decimal) :
    List Input → Traced (Except EvalFault (List Counterfactual))
  | [] => pure (.ok [])
  | i :: is => do
    let current := (b.lookup i.name).getD i.defaultValue
    match i.alternatives current with
    | .error sig => pure (.error (.signal sig))
    | .ok alts =>
      match ← counterfactualsOf s b actual i.name current alts with
      | .error e => pure (.error e)
      | .ok cs =>
        match ← counterfactuals s b actual is with
        | .error e => pure (.error e)
        | .ok rest => pure (.ok (cs ++ rest))

end Assessment

open Assessment in
/-- The audit trail of a schedule with bound values, with the counterfactuals of every
input; notes how many there are. -/
def Schedule.whatIf (s : Schedule) (b : Bindings) : Traced (Except EvalFault Provenance) := do
  match ← s.trace b with
  | .error e => pure (.error e)
  | .ok p =>
    match p.grandTotal with
    | .error sig => pure (.error (.signal sig))
    | .ok actual =>
      match ← counterfactuals s b actual s.inputs with
      | .error e => pure (.error e)
      | .ok cs =>
        note (.counterfactuals cs.length)
        pure (.ok { p with counterfactuals := cs })

end FeeSchedule
