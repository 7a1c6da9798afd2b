import FeeSchedule.Check.Types

/-!
# `FeeSchedule.Check.Declarations`: checking a whole schedule

`Schedule.check` lists the problems of a schedule in a fixed order: names declared more than
once (inputs, fees, groups, returns; each repeated name once, in the order of its first
declaration, with its count), then the problems of each input, of each fee, of each return
and of each verify directive, in declaration order.

* An input's group must be declared. A number or date input needs its minimum not above its
  maximum and, when they are in order, its default between them. A list or selection input
  needs choices, distinct ones, and defaults among them (a selection's defaults also
  distinct). An amount's currency is three capital letters `A` to `Z`.
* A fee's currency is three capital letters. Its variables are distinct, none has the name
  of an input, and each is typed in the scope of the inputs and the earlier variables that
  have a type. A fee without cases is only a warning. Every case after one without
  condition is unreachable. Each case yields a number, each condition is a boolean.
* A return's condition is a boolean, typed in the scope of the inputs.
* A directive's fee must be declared, and a monotonicity directive's input too.
-/

namespace FeeSchedule

/-- The names that occur more than once in `names`, each once with its count, in the order
of their first occurrence. -/
def repeated (names : List String) : List (String × Nat) :=
  (names.eraseDups.map fun n => (n, names.count n)).filter (·.2 > 1)

/-- The duplicate faults of the names of declarations of one kind, called `what`. -/
def duplicateFaults (what : String) (names : List String) : List TypeFault :=
  (repeated names).map fun (n, c) => .duplicate what n c

/-- Whether a text is a currency code: exactly three capital letters from `A` to `Z`. -/
def isCurrencyCode (s : String) : Bool :=
  s.length = 3 && s.toList.all fun c => 'A' ≤ c && c ≤ 'Z'

namespace Schedule

/-- The problems of one input. -/
def inputFaults (s : Schedule) (i : Input) : List TypeFault :=
  let groupFaults := match i.group with
    | some g => if s.groups.any (·.name == g) then [] else [.groupUndeclared g]
    | none => []
  let specFaults : List TypeFault := match i.spec with
    | .number lo hi d =>
      if Decimal.compareNumbers lo hi = .gt then [.rangeReversed lo.toText hi.toText]
      else if Decimal.compareNumbers lo d = .gt ∨ Decimal.compareNumbers d hi = .gt then
        [.defaultOutside d.toText lo.toText hi.toText]
      else []
    | .date lo hi d =>
      if hi < lo then [.rangeReversed lo.isoText hi.isoText]
      else if d < lo ∨ hi < d then [.defaultOutside d.isoText lo.isoText hi.isoText]
      else []
    | .list cs d =>
      (if cs.isEmpty then [.noChoices] else []) ++ duplicateFaults "Choice" (cs.map (·.symbol))
        ++ (if (cs.map (·.symbol)).contains d then [] else [.defaultNotChoice d])
    | .multilist cs ds =>
      (if cs.isEmpty then [.noChoices] else []) ++ duplicateFaults "Choice" (cs.map (·.symbol))
        ++ (ds.filter (fun d => !(cs.map (·.symbol)).contains d)).map .defaultNotChoice
        ++ duplicateFaults "Default choice" ds
    | .amount c _ => if isCurrencyCode c then [] else [.badCurrency c]
    | .boolean _ => []
  groupFaults ++ specFaults

/-- The faults of the variables of a fee, each typed in the scope built so far, and the
scope after them. -/
def varFaults (s : Schedule) : Scope → List LetVar → List TypeFault × Scope
  | sc, [] => ([], sc)
  | sc, v :: vs =>
    let shadow : List TypeFault := if s.inputs.any (·.name == v.name) then [.shadowsInput v.name] else []
    let (t, fs) := infer sc v.expr
    let sc' := match t with
      | some t => sc.bind v.name t
      | none => sc
    let (rest, scEnd) := s.varFaults sc' vs
    (shadow ++ fs ++ rest, scEnd)

/-- The faults of the cases of a fee, numbered from `i`, where `fallback` is the first
earlier case without condition. -/
def caseFaults (sc : Scope) : Nat → Option Nat → List Case → List TypeFault
  | _, _, [] => []
  | i, fallback, c :: cs =>
    let unreachable := match fallback with
      | some j => [TypeFault.unreachable i j]
      | none => []
    let (t, fs) := infer sc c.expr
    let yieldFault := mismatch t .number (.yieldNotNumber i)
    match c.condition with
    | none =>
      unreachable ++ fs ++ yieldFault ++ caseFaults sc (i + 1) (fallback.orElse fun _ => some i) cs
    | some cond =>
      let (ct, cfs) := infer sc cond
      unreachable ++ fs ++ yieldFault ++ cfs ++ mismatch ct .boolean (.conditionNotBoolean i)
        ++ caseFaults sc (i + 1) fallback cs

/-- The problems of one fee. -/
def feeFaults (s : Schedule) (f : Fee) : List TypeFault :=
  let currency := match f.currency with
    | some c => if isCurrencyCode c then [] else [TypeFault.badCurrency c]
    | none => []
  let (vars, sc) := s.varFaults (Scope.ofInputs s.inputs) f.vars
  currency ++ duplicateFaults "Variable" (f.vars.map (·.name)) ++ vars
    ++ (if f.cases.isEmpty then [.noCases] else []) ++ caseFaults sc 0 none f.cases

/-- The problems of one return. -/
def returnFaults (s : Schedule) (r : Return) : List TypeFault :=
  match r.condition with
  | some c =>
    let (t, fs) := infer (Scope.ofInputs s.inputs) c
    fs ++ mismatch t .boolean .returnConditionNotBoolean
  | none => []

/-- The problems of one verify directive. -/
def directiveFaults (s : Schedule) (d : Directive) : List TypeFault :=
  (if s.fees.any (·.name == d.fee) then [] else [.feeUndeclared d.fee]) ++
    match d with
    | .monotonic _ x _ => if s.inputs.any (·.name == x) then [] else [.inputUndeclared x]
    | .complete _ => []

/-- All problems of a schedule, in the order described above. -/
def check (s : Schedule) : List Diagnostic :=
  let dups := duplicateFaults "Input" s.inputNames ++ duplicateFaults "Fee" s.feeNames
    ++ duplicateFaults "Group" (s.groups.map (·.name))
    ++ duplicateFaults "Return" (s.returns.map (·.symbol))
  dups.map (Diagnostic.ofFault none)
    ++ s.inputs.flatMap (fun i => (s.inputFaults i).map (Diagnostic.ofFault (some ("input " ++ i.name))))
    ++ s.fees.flatMap (fun f => (s.feeFaults f).map (Diagnostic.ofFault (some ("fee " ++ f.name))))
    ++ s.returns.flatMap (fun r =>
        (s.returnFaults r).map (Diagnostic.ofFault (some ("return " ++ r.symbol))))
    ++ s.directives.flatMap (fun d =>
        (s.directiveFaults d).map (Diagnostic.ofFault (some ("verify " ++ d.fee))))

end Schedule

end FeeSchedule
