import FeeSchedule.Proofs.Composition.Merge
import Mathlib.Data.List.Chain
import Mathlib.Data.List.Nodup

/-!
# `FeeSchedule.Proofs.Composition.Lineage`: resolving the chain of a jurisdiction

`Registry.chain` follows parent links from a target with a budget of one step more than the
registry has entries. Whatever the links, the walk stops with the lineage of the target, or
with the one problem that stops it. The budget is never the reason it stops: every step adds
a registered jurisdiction not yet visited, and there are no more of those than entries.

* `Registry.Ascent r target js`: the jurisdictions met by following parent links from
  `target`, in order, each registered and none twice.
* `Registry.Lineage r target js`: the same walk ended at a root, listed root first.
* `Registry.ChainFault r target e`: the failure of the walk, with its one problem: the target
  is not registered, a parent is not registered, or a parent was already visited.
* `Registry.Walking`: the state of a walk between steps; `Walking.step` keeps it, and
  `walk_sound` carries it to the end of the walk.
* `Registry.walk_lineage`: a walk along a lineage returns it.
* `Registry.chain_eq_ok_iff`, `Registry.chain_eq_error`: the chain of a target is its lineage
  exactly when it has one, and otherwise a `ChainFault`; `chain_resolves` states both.
-/

set_option autoImplicit false

namespace FeeSchedule

namespace Registry

variable {r : Registry}

/-! ### One step of the walk -/

section Step

variable {fuel : Nat} {current : String} {child : Option String} {seen : List Jurisdiction}

theorem any_id_eq_true {js : List Jurisdiction} {x : String} :
    js.any (·.id == x) = true ↔ x ∈ js.map (·.id) := by
  simp only [List.any_eq_true, beq_iff_eq, List.mem_map]

/-- A walk that comes back to a visited jurisdiction stops at the cycle. -/
theorem walk_cycle (h : current ∈ seen.map (·.id)) :
    walk r (fuel + 1) current child seen =
      .error ⟨["Cycle in parent links: " ++ " -> ".intercalate (seen.map (·.id) ++ [current])]⟩ := by
  cases child <;> simp only [walk, if_pos (any_id_eq_true.mpr h)]

/-- A walk that starts at an identifier that is not registered stops there. -/
theorem walk_unregistered_target (h : current ∉ seen.map (·.id)) (hget : r.get? current = none) :
    walk r (fuel + 1) current none seen =
      .error ⟨["Jurisdiction '" ++ current ++ "' is not registered"]⟩ := by
  simp only [walk, if_neg (mt any_id_eq_true.mp h), hget]

/-- A walk that reaches a parent that is not registered stops there. -/
theorem walk_unregistered_parent {c : String} (h : current ∉ seen.map (·.id))
    (hget : r.get? current = none) :
    walk r (fuel + 1) current (some c) seen =
      .error ⟨["Jurisdiction '" ++ c ++ "' names unregistered parent '" ++ current ++ "'"]⟩ := by
  simp only [walk, if_neg (mt any_id_eq_true.mp h), hget]

/-- A walk that reaches a root stops with it. -/
theorem walk_root {j : Jurisdiction} (h : current ∉ seen.map (·.id))
    (hget : r.get? current = some j) (hroot : j.parent = none) :
    walk r (fuel + 1) current child seen = .ok (seen ++ [j]) := by
  cases child <;> simp only [walk, if_neg (mt any_id_eq_true.mp h), hget, hroot]

/-- Otherwise the walk goes on to the parent. -/
theorem walk_parent {j : Jurisdiction} {p : String} (h : current ∉ seen.map (·.id))
    (hget : r.get? current = some j) (hparent : j.parent = some p) :
    walk r (fuel + 1) current child seen = walk r fuel p (some current) (seen ++ [j]) := by
  cases child <;> simp only [walk, if_neg (mt any_id_eq_true.mp h), hget, hparent]

end Step

theorem id_of_get? {x : String} {j : Jurisdiction} (h : r.get? x = some j) : j.id = x := by
  simpa using List.find?_some h

/-! ### Walks, lineages and the ways a walk fails -/

/-- The jurisdictions met by following parent links from `target`, in order: the first is
`target`'s, each is registered under its identifier, each names the next as its parent, and
none is met twice. -/
structure Ascent (r : Registry) (target : String) (js : List Jurisdiction) : Prop where
  registered : ∀ j ∈ js, r.get? j.id = some j
  start : ∀ j ∈ js.head?, j.id = target
  linked : js.IsChain fun a b => a.parent = some b.id
  distinct : (js.map (·.id)).Nodup

/-- The lineage of `target`, root first: a root, then each jurisdiction naming the one before
it as its parent, up to `target`'s; each registered under its identifier, none twice. -/
structure Lineage (r : Registry) (target : String) (js : List Jurisdiction) : Prop where
  registered : ∀ j ∈ js, r.get? j.id = some j
  leaf : js.getLast?.map (·.id) = some target
  root : ∀ j ∈ js.head?, j.parent = none
  linked : js.IsChain fun a b => b.parent = some a.id
  distinct : (js.map (·.id)).Nodup

/-- Why following parent links from `target` fails, with the one problem the failure
reports. -/
inductive ChainFault (r : Registry) (target : String) : CompositionError → Prop
  /-- The target itself is not registered. -/
  | unregistered : r.get? target = none →
      ChainFault r target ⟨["Jurisdiction '" ++ target ++ "' is not registered"]⟩
  /-- The last jurisdiction met names a parent that is not registered. -/
  | dangling {js : List Jurisdiction} {l : Jurisdiction} {p : String} : r.Ascent target js →
      js.getLast? = some l → l.parent = some p → r.get? p = none →
      ChainFault r target ⟨["Jurisdiction '" ++ l.id ++ "' names unregistered parent '" ++ p ++ "'"]⟩
  /-- The last jurisdiction met names a parent already met: the problem lists the identifiers
  met, then the parent again. -/
  | cycle {js : List Jurisdiction} {l : Jurisdiction} {p : String} : r.Ascent target js →
      js.getLast? = some l → l.parent = some p → p ∈ js.map (·.id) →
      ChainFault r target ⟨["Cycle in parent links: " ++ " -> ".intercalate (js.map (·.id) ++ [p])]⟩

/-- Distinct registered identifiers are no more than the entries of the registry. -/
theorem Ascent.length_le {target : String} {js : List Jurisdiction} (h : r.Ascent target js) :
    js.length ≤ r.length := by
  have hsub : js.map (·.id) ⊆ r.map (·.id) := by
    intro x hx
    obtain ⟨j, hj, rfl⟩ := List.mem_map.mp hx
    exact List.mem_map_of_mem (mem_of_get? (h.registered j hj))
  simpa using h.distinct.length_le_of_subset hsub

/-- A lineage is an ascent read from the root, and an ascent that ends at a root is a
lineage read from the target. -/
theorem lineage_reverse_iff {target : String} {js : List Jurisdiction} :
    r.Lineage target js.reverse ↔
      r.Ascent target js ∧ js ≠ [] ∧ ∀ l ∈ js.getLast?, l.parent = none := by
  constructor
  · intro h
    have hne : js ≠ [] := by
      rintro rfl
      simpa using h.leaf
    refine ⟨⟨fun j hj => h.registered j (List.mem_reverse.mpr hj), fun j hj => ?_, ?_, ?_⟩,
      hne, by simpa using h.root⟩
    · have hleaf := h.leaf
      rw [List.getLast?_reverse, Option.mem_def.mp hj, Option.map_some, Option.some_inj] at hleaf
      exact hleaf
    · simpa [List.isChain_reverse] using h.linked
    · simpa using h.distinct
  · rintro ⟨h, hne, hroot⟩
    refine ⟨fun j hj => h.registered j (List.mem_reverse.mp hj), ?_, by simpa using hroot,
      by simpa [List.isChain_reverse] using h.linked, by simpa using h.distinct⟩
    obtain ⟨x, xs, hjs⟩ := List.exists_cons_of_ne_nil hne
    rw [List.getLast?_reverse, hjs, List.head?_cons, Option.map_some, h.start x (by simp [hjs])]

/-! ### The walk between steps -/

/-- A walk from `target` that has met `seen` and goes on at `current`, reached from `child`:
`seen` is an ascent, and `current` is the parent named by the last jurisdiction met, or
`target` itself at the start. -/
structure Walking (r : Registry) (target : String) (seen : List Jurisdiction) (current : String)
    (child : Option String) : Prop where
  ascent : r.Ascent target seen
  first : seen = [] → current = target ∧ child = none
  next : ∀ l ∈ seen.getLast?, l.parent = some current ∧ child = some l.id

theorem Walking.start (target : String) : r.Walking target [] target none :=
  ⟨⟨by simp, by simp, List.IsChain.nil, List.nodup_nil⟩, fun _ => ⟨rfl, rfl⟩, by simp⟩

/-- Meeting the jurisdiction registered under `current`, not met before, extends the
ascent. -/
theorem Walking.ascent_push {target current : String} {child : Option String}
    {seen : List Jurisdiction} {j : Jurisdiction} (h : r.Walking target seen current child)
    (hnew : current ∉ seen.map (·.id)) (hget : r.get? current = some j) :
    r.Ascent target (seen ++ [j]) := by
  have hid : j.id = current := id_of_get? hget
  refine ⟨fun k hk => ?_, fun k hk => ?_, ?_, ?_⟩
  · rcases List.mem_append.mp hk with hk | hk
    · exact h.ascent.registered k hk
    · rw [List.mem_singleton.mp hk, hid, hget]
  · -- the first jurisdiction met is the one of `seen`, or `j` when nothing was met before
    by_cases hs : seen = []
    · subst hs
      simp only [List.nil_append, List.head?_cons, Option.mem_def, Option.some_inj] at hk
      rw [← hk, hid]
      exact (h.first rfl).1
    · rw [List.head?_append_of_ne_nil _ hs] at hk
      exact h.ascent.start k hk
  · refine List.isChain_append.mpr ⟨h.ascent.linked, List.isChain_singleton _, ?_⟩
    intro l hl y hy
    rw [List.head?_cons, Option.mem_some_iff] at hy
    rw [← hy, hid]
    exact (h.next l hl).1
  · rw [List.map_append, List.nodup_append]
    refine ⟨h.ascent.distinct, List.nodup_singleton _, fun a ha b hb => ?_⟩
    rw [List.map_singleton, List.mem_singleton, hid] at hb
    rintro rfl
    exact hnew (hb ▸ ha)

/-- A step to the parent keeps the walk well formed. -/
theorem Walking.step {target current p : String} {child : Option String}
    {seen : List Jurisdiction} {j : Jurisdiction} (h : r.Walking target seen current child)
    (hnew : current ∉ seen.map (·.id)) (hget : r.get? current = some j)
    (hparent : j.parent = some p) : r.Walking target (seen ++ [j]) p (some current) :=
  ⟨h.ascent_push hnew hget, by simp, fun l hl => by
    rw [List.getLast?_append, List.getLast?_singleton, Option.some_or, Option.mem_some_iff] at hl
    subst hl
    exact ⟨hparent, by rw [id_of_get? hget]⟩⟩

/-- A walk whose budget covers the registry ends at a root or fails with a `ChainFault`. The
induction is on the budget; the walk's invariant is `Walking`, and a budget used up would
mean more distinct registered jurisdictions met than the registry has. -/
theorem walk_sound {target : String} :
    ∀ {fuel : Nat} {current : String} {child : Option String} {seen : List Jurisdiction},
      r.Walking target seen current child → r.length + 1 ≤ seen.length + fuel →
      (∀ res, walk r fuel current child seen = .ok res →
          r.Ascent target res ∧ res ≠ [] ∧ ∀ l ∈ res.getLast?, l.parent = none) ∧
        ∀ e, walk r fuel current child seen = .error e → r.ChainFault target e
  | 0, _, _, seen, h, hfuel => by
    have := h.ascent.length_le
    omega
  | fuel + 1, current, child, seen, h, hfuel => by
    by_cases hseen : current ∈ seen.map (·.id)
    · -- a cycle: `current` was met, so something was, and the last one met names it
      rw [walk_cycle hseen]
      have hne : seen ≠ [] := by
        rintro rfl
        simp at hseen
      have hl := List.getLast?_eq_some_getLast hne
      exact ⟨nofun, fun e he => by
        cases he
        exact .cycle h.ascent hl (h.next _ hl).1 hseen⟩
    cases hget : r.get? current with
    | none =>
      -- the target at the start, or the parent named by the last one met
      cases hl : seen.getLast? with
      | none =>
        obtain ⟨rfl, rfl⟩ := h.first (List.getLast?_eq_none_iff.mp hl)
        rw [walk_unregistered_target hseen hget]
        exact ⟨nofun, fun e he => by
          cases he
          exact .unregistered hget⟩
      | some l =>
        obtain ⟨hparent, rfl⟩ := h.next l hl
        rw [walk_unregistered_parent hseen hget]
        exact ⟨nofun, fun e he => by
          cases he
          exact .dangling h.ascent hl hparent hget⟩
    | some j =>
      cases hparent : j.parent with
      | none =>
        rw [walk_root hseen hget hparent]
        exact ⟨fun res hres => by
          cases hres
          exact ⟨h.ascent_push hseen hget, by simp, by simpa using hparent⟩, nofun⟩
      | some p =>
        rw [walk_parent hseen hget hparent]
        exact walk_sound (h.step hseen hget hparent) (by simp; omega)

/-- A walk along the rest of a lineage, with the budget to cover it, returns it. The
induction is on what is left of the lineage. -/
theorem walk_lineage :
    ∀ (rest : List Jurisdiction) {x : Jurisdiction} {seen : List Jurisdiction} {fuel : Nat}
      {child : Option String}, (∀ j ∈ x :: rest, r.get? j.id = some j) →
      (x :: rest).IsChain (fun a b => a.parent = some b.id) →
      (∀ l ∈ (x :: rest).getLast?, l.parent = none) →
      ((seen ++ x :: rest).map (·.id)).Nodup → rest.length < fuel →
      walk r fuel x.id child seen = .ok (seen ++ x :: rest)
  | [], x, seen, fuel + 1, child, hreg, _, hroot, hnodup, _ => by
    have hnew : x.id ∉ seen.map (·.id) := by
      rw [List.map_append, List.nodup_append] at hnodup
      exact fun hx => hnodup.2.2 x.id hx x.id (by simp) rfl
    exact walk_root hnew (hreg x List.mem_cons_self) (by simpa using hroot)
  | y :: rest, x, seen, fuel + 1, child, hreg, hlinked, hroot, hnodup, hfuel => by
    have hnew : x.id ∉ seen.map (·.id) := by
      rw [List.map_append, List.nodup_append] at hnodup
      exact fun hx => hnodup.2.2 x.id hx x.id (by simp) rfl
    obtain ⟨hxy, hrest⟩ := List.isChain_cons_cons.mp hlinked
    rw [walk_parent hnew (hreg x List.mem_cons_self) hxy]
    have hstep := @walk_lineage rest y (seen ++ [x]) fuel (some x.id)
      (fun j hj => hreg j (List.mem_cons_of_mem x hj)) hrest (by simpa using hroot)
      (by simpa using hnodup) (by simp at hfuel; omega)
    simpa using hstep

/-- A chain is returned exactly when it is the lineage of the target. -/
theorem chain_eq_ok_iff (r : Registry) (target : String) (js : List Jurisdiction) :
    r.chain target = .ok js ↔ r.Lineage target js := by
  have hsound := @walk_sound r target (r.length + 1) target none [] (Walking.start target)
    (by simp)
  unfold chain
  refine ⟨fun h => ?_, fun h => ?_⟩
  · -- a result of the walk is an ascent ending at a root, read here from the root
    cases hw : walk r (r.length + 1) target none [] with
    | error e =>
      rw [hw] at h
      cases h
    | ok res =>
      rw [hw] at h
      cases h
      exact lineage_reverse_iff.mpr (hsound.1 res hw)
  · -- the lineage, read from the target, is what the walk returns
    have hasc := (@lineage_reverse_iff r target js.reverse).mp (by simpa using h)
    obtain ⟨hasc, hne, hroot⟩ := hasc
    obtain ⟨x, rest, hxr⟩ := List.exists_cons_of_ne_nil hne
    have hx : x.id = target := hasc.start x (by simp [hxr])
    have hlen := hasc.length_le
    rw [hxr] at hasc hroot hlen
    have hw := @walk_lineage r rest x [] (r.length + 1) none hasc.registered hasc.linked hroot
      (by simpa using hasc.distinct) (by simp at hlen; omega)
    rw [hx, List.nil_append] at hw
    rw [hw, ← hxr]
    simp [Except.map]

/-- A chain that fails fails with one of the faults of `ChainFault`. -/
theorem chain_eq_error (r : Registry) (target : String) {e : CompositionError}
    (he : r.chain target = .error e) : r.ChainFault target e := by
  have hsound := @walk_sound r target (r.length + 1) target none [] (Walking.start target)
    (by simp)
  unfold chain at he
  cases hw : walk r (r.length + 1) target none [] with
  | error e' =>
    rw [hw] at he
    cases he
    exact hsound.2 e hw
  | ok res =>
    rw [hw] at he
    cases he

end Registry

open Registry in
/-- Resolving a chain terminates with the right answer for every registry and target.
Following parent links from the target, the chain is returned exactly when the links reach
a root through registered jurisdictions, none twice: it is then the lineage, root first,
with the target last and each jurisdiction naming the one before it as its parent.
Otherwise the chain fails with one problem: the target is not registered, the last
jurisdiction met names a parent that is not registered, or it names one already met, and
the problem lists the identifiers met followed by that parent. -/
theorem chain_resolves (r : Registry) (target : String) :
    (∀ js, r.chain target = .ok js ↔ r.Lineage target js) ∧
      ∀ e, r.chain target = .error e → r.ChainFault target e :=
  ⟨chain_eq_ok_iff r target, fun _ he => chain_eq_error r target he⟩

end FeeSchedule
