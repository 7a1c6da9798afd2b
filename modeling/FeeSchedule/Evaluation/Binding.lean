import FeeSchedule.Evaluation.Expr
import FeeSchedule.Log

/-!
# `FeeSchedule.Evaluation.Binding`: values for the inputs of a schedule

`Schedule.bind` gives every input a value: the one supplied for it, or its default. Each
supplied value must fit its input (`Input.checkValue`): a number for number and amount
inputs, within the bounds of a number input; a truth value for a boolean input; one of the
choices of a list input; distinct choices of a selection input; a date within the bounds
of a date input. All misfits are reported together, in input order. A value for a name that
is not an input is ignored with a warning.

Comparing a supplied number with the bounds can raise a decimal signal (a NaN), which stops
the binding as it is.
-/

namespace FeeSchedule

/-- The problem of a value supplied for an input, if it does not fit. -/
def Input.checkValue (i : Input) (v : BoundValue) : Except Signal (Option String) :=
  let name := "Input '" ++ i.name ++ "'"
  let wrongKind (what : String) := pure (some (name ++ " expects " ++ what ++ ", got " ++ v.kindName))
  match i.spec, v with
  | .number lo hi _, .number d => do
    let above ← Decimal.order lo d
    let inside ← if above == .gt then pure false else do
      let below ← Decimal.order d hi
      pure (below != .gt)
    if inside then pure none
    else pure (some (name ++ " value " ++ d.toText ++ " is outside [" ++ lo.toText ++ ", "
      ++ hi.toText ++ "]"))
  | .amount .., .number _ => pure none
  | .number .., _ | .amount .., _ => wrongKind "a number"
  | .boolean _, .boolean _ => pure none
  | .boolean _, _ => wrongKind "a boolean"
  | .list .., .choice s =>
    if (i.symbols.map symbolOf).contains s then pure none
    else pure (some (name ++ " has no choice '" ++ CodePoint.mend s ++ "'"))
  | .list .., _ => wrongKind "a single choice"
  | .multilist .., .selection ss =>
    if (symbolSet ss).length != ss.length then
      pure (some (name ++ " selects the same choice more than once"))
    else
      let unknown := ss.filter fun s => !(i.symbols.map symbolOf).contains s
      if unknown.isEmpty then pure none
      else
        pure (some (name ++ " has no choice(s) " ++ ", ".intercalate (unknown.map CodePoint.mend)))
  | .multilist .., _ => wrongKind "a list of choices"
  | .date lo hi _, .date d =>
    if lo ≤ d ∧ d ≤ hi then pure none
    else pure (some (name ++ " date " ++ d.isoText ++ " is outside [" ++ lo.isoText ++ ", "
      ++ hi.isoText ++ "]"))
  | .date .., _ => wrongKind "a date"

/-- Values bound to the inputs of a schedule, in input order. -/
abbrev Bindings := List (String × BoundValue)

/-- The environment of bound values for expressions. -/
def Bindings.env (b : Bindings) : Env := b.map fun (n, v) => (n, v.toValue)

/-- A name has in the environment the value bound to it first. -/
theorem Bindings.lookup_env {b : Bindings} (n : String) : b.env.lookup n = (b.lookup n).map BoundValue.toValue := by
  induction b with
  | nil => rfl
  | cons p ps ih =>
    obtain ⟨m, v⟩ := p
    by_cases hnm : n = m
    · subst hnm
      simp [Bindings.env]
    · have hb : (n == m) = false := by simpa using hnm
      simpa [Bindings.env, List.lookup_cons, hb] using ih

namespace Schedule

/-- The bound value of each input and the problems found, in input order. -/
def bindInputs (supplied : List (String × BoundValue)) :
    List Input → Except Signal (Bindings × List String)
  | [] => pure ([], [])
  | i :: is => do
    let (v, problem) ← match supplied.lookup i.name with
      | none => pure (i.defaultValue, none)
      | some v => do
        let p ← i.checkValue v
        pure (v, p)
    let (rest, problems) ← bindInputs supplied is
    pure ((i.name, v) :: rest, problem.toList ++ problems)

/-- Binds supplied values to the inputs of a schedule, as described in the module header. -/
def bind (s : Schedule) (supplied : List (String × BoundValue)) :
    Traced (Except EvalFault Bindings) := do
  for (n, _) in supplied do
    if !s.inputNames.contains n then note (.ignoredValue .binding n)
  match bindInputs supplied s.inputs with
  | .error sig => pure (.error (.signal sig))
  | .ok (b, []) => pure (.ok b)
  | .ok (_, problems) => pure (.error (.misfits problems))

end Schedule

end FeeSchedule
