import FeeSchedule.Composition.Merge
import FeeSchedule.Check.Declarations
import FeeSchedule.Log

/-!
# `FeeSchedule.Composition.Registry`: jurisdictions and their chains

A jurisdiction is a schedule under an identifier, with the identifier of the jurisdiction it
extends, if any. A registry keeps jurisdictions in the order they were registered;
registering an identifier again replaces the entry in its place.

The chain of a jurisdiction (`Registry.chain`) follows the parent links from it to a root
and lists them root first. It fails when a link leads back to a jurisdiction already on the
chain (a cycle), or to an identifier that is not registered.

Composing a jurisdiction (`Registry.compose`) merges its chain (`Schedule.mergeChain`). A
root alone is its own schedule, as registered; a merged schedule is checked again, and its
errors make the composition fail.
-/

namespace FeeSchedule

/-- A schedule registered under an identifier, extending the jurisdiction `parent`. -/
structure Jurisdiction where
  id : String
  name : String
  schedule : Schedule
  parent : Option String
  deriving Inhabited

/-- Why a composition failed: its problems. -/
structure CompositionError where
  problems : List String
  deriving Inhabited

/-- The message of a composition failure: the problems joined by semicolons. -/
def CompositionError.message (e : CompositionError) : String := "; ".intercalate e.problems

/-- Jurisdictions in the order they were registered, each identifier once. -/
abbrev Registry := List Jurisdiction

/-- A schedule composed along a chain, with the identifiers of the chain, root first. -/
structure Composed where
  schedule : Schedule
  applied : List String
  deriving Inhabited

namespace Registry

/-- The jurisdiction registered under an identifier. -/
def get? (r : Registry) (id : String) : Option Jurisdiction := r.find? (·.id == id)

/-- Whether an identifier is registered. -/
def contains (r : Registry) (id : String) : Bool := r.any (·.id == id)

/-- The identifiers in registration order. -/
def ids (r : Registry) : List String := r.map (·.id)

/-- Registers a jurisdiction, replacing the entry of the same identifier in its place; notes
the replacement. -/
def register (r : Registry) (j : Jurisdiction) : Traced Registry :=
  if r.contains j.id then do
    note (.replacing j.id)
    pure (r.map fun e => if e.id == j.id then j else e)
  else pure (r ++ [j])

/-- The registry after a registration. -/
theorem register_run (r : Registry) (j : Jurisdiction) (σ : Array Event) : ((r.register j).run σ).1 =
    if r.contains j.id then r.map (fun e => if e.id == j.id then j else e) else r ++ [j] := by
  unfold register
  split <;> rfl

/-- Follows parent links from `current`, reached from `child`, after the jurisdictions of
`seen` (the target first). Each step adds a jurisdiction that is not yet on the chain, so a
fuel of one more than the size of the registry is never used up. -/
def walk (r : Registry) :
    Nat → String → Option String → List Jurisdiction → Except CompositionError (List Jurisdiction)
  | 0, _, _, seen => .ok seen
  | fuel + 1, current, child, seen =>
    if seen.any (·.id == current) then
      .error ⟨["Cycle in parent links: " ++ " -> ".intercalate (seen.map (·.id) ++ [current])]⟩
    else
      match r.get? current with
      | none =>
        .error ⟨[match child with
          | none => "Jurisdiction '" ++ current ++ "' is not registered"
          | some c => "Jurisdiction '" ++ c ++ "' names unregistered parent '" ++ current ++ "'"]⟩
      | some j =>
        match j.parent with
        | none => .ok (seen ++ [j])
        | some p => walk r fuel p (some current) (seen ++ [j])

/-- The chain of a jurisdiction, root first. -/
def chain (r : Registry) (target : String) : Except CompositionError (List Jurisdiction) :=
  (walk r (r.length + 1) target none []).map List.reverse

/-- The schedule of a chain: a lone root as registered, otherwise the merged schedule,
checked again. -/
def chainSchedule (target : String) : List Jurisdiction → Except CompositionError Schedule
  | [j] => .ok j.schedule
  | chain =>
    let s := Schedule.mergeChain (chain.map (·.schedule))
    let errors := s.check.filter (·.isError)
    if errors.isEmpty then .ok s
    else .error ⟨errors.map fun d => "Composed script for '" ++ target ++ "': " ++ d.text⟩

/-- Composes a jurisdiction along its chain; notes the chain. -/
def compose (r : Registry) (target : String) : Traced (Except CompositionError Composed) := do
  match r.chain target >>= fun c => (chainSchedule target c).map (·, c) with
  | .error e => pure (.error e)
  | .ok (s, c) =>
    let applied := c.map (·.id)
    note (.composed target applied)
    pure (.ok ⟨s, applied⟩)

end Registry

/-- Registers schedules one after another, each extending the one before it and the first
extending `previous`. A jurisdiction's name is the description of its schedule's version, or
its identifier. -/
def Registry.registerChain (r : Registry) (previous : Option String) :
    List (String × Schedule) → Traced Registry
  | [] => pure r
  | (id, s) :: rest => do
    let name := match s.version with
      | some ⟨_, some d⟩ => if d.isEmpty then id else d
      | _ => id
    let r ← r.register ⟨id, name, s, previous⟩
    r.registerChain (some id) rest

/-- The first step of registering a sequence registers its first schedule under its
identifier, extending `prev`. -/
theorem Registry.registerChain_cons (r : Registry) (prev : Option String) (id : String) (s : Schedule)
    (rest : List (String × Schedule)) :
    ∃ j : Jurisdiction, j.id = id ∧ j.schedule = s ∧ j.parent = prev ∧
      r.registerChain prev ((id, s) :: rest) =
        (r.register j >>= fun r' => r'.registerChain (some id) rest) := by
  refine ⟨_, ?_, ?_, ?_, rfl⟩ <;> rfl

/-- Registers schedules as one chain, each extending the one before it, and composes the
last. -/
def composeChain (scripts : List (String × Schedule)) :
    Traced (Except CompositionError (Registry × Composed)) := do
  match scripts.getLast? with
  | none => pure (.error ⟨["At least one script is required"]⟩)
  | some (last, _) =>
    let r ← Registry.registerChain [] none scripts
    match ← r.compose last with
    | .error e => pure (.error e)
    | .ok c => pure (.ok (r, c))

end FeeSchedule
