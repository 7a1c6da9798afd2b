import FeeSchedule.Schedule.Basic

/-!
# `FeeSchedule.Composition.Merge`: one schedule extending another

A schedule can extend a parent. Inputs, fees and groups are matched by name, returns by
symbol (`mergeByName`):

* a declaration of the child replaces the parent's one of the same name, in the parent's
  place;
* the child's declarations of names the parent does not have follow everything inherited,
  in the child's order.

The directives are the parent's followed by those of the child not already among them, and
the version is the child's when it has one, otherwise the parent's.

A chain of schedules, root first, merges from the empty schedule (`Schedule.mergeChain`).
-/

namespace FeeSchedule

/-- The entries of `inherited`, each replaced by the last entry of `declared` with the same
key, followed by the entries of `declared` whose key is not inherited. -/
def mergeByName {α : Type} (key : α → String) (inherited declared : List α) : List α :=
  let keys := inherited.map key
  inherited.map (fun i => (declared.reverse.find? (key · == key i)).getD i)
    ++ declared.filter (fun d => !keys.contains (key d))

/-- Merging over nothing keeps the declarations as they are. -/
@[simp] theorem mergeByName_nil_left {α : Type} {key : α → String} (own : List α) :
    mergeByName key [] own = own := by
  simp [mergeByName]

/-- A merge by name keeps the parent's keys in place and adds the child's new ones. -/
theorem keys_mergeByName {α : Type} {key : α → String} (inherited declared : List α) :
    (mergeByName key inherited declared).map key =
      inherited.map key ++ (declared.map key).removeAll (inherited.map key) := by
  simp only [mergeByName, List.map_append, List.map_map]
  congr 1
  · refine List.map_congr_left fun i _ => ?_
    -- a replacement has the key of the entry it replaces
    simp only [Function.comp_apply]
    cases hf : declared.reverse.find? (key · == key i) with
    | none => rfl
    | some y => simpa using List.find?_some hf
  · simp [List.removeAll, List.filter_map, Function.comp_def]

/-- The directives of `acc` followed by each of `ds` that is not already there. -/
def addDirectives (acc : List Directive) : List Directive → List Directive
  | [] => acc
  | d :: ds => addDirectives (if acc.contains d then acc else acc ++ [d]) ds

namespace Schedule

/-- The schedule `child` extending `parent`, as described in the module header. -/
def extend (parent child : Schedule) : Schedule :=
  ⟨mergeByName (·.name) parent.inputs child.inputs, mergeByName (·.name) parent.fees child.fees,
    mergeByName (·.name) parent.groups child.groups,
    mergeByName (·.symbol) parent.returns child.returns,
    addDirectives parent.directives child.directives,
    match child.version with
    | some v => some v
    | none => parent.version⟩

/-- A chain of schedules, root first, merged into one. -/
def mergeChain (chain : List Schedule) : Schedule := chain.foldl extend empty

end Schedule

end FeeSchedule
