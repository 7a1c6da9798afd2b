import FeeSchedule.Composition.Registry

/-!
# `FeeSchedule.Proofs.Composition.Merge`: what a composed schedule is made of

A composed schedule is a lone registered schedule or the merge of a chain of them. The
theorems:

* `mem_mergeByName`: every entry of a merge by name is an entry of the parent or of the
  child.
* `Schedule.mem_mergeChain`: every input, fee and return of a merged chain is declared by
  one of its schedules (`mem_mergeChain_inputs`, `mem_mergeChain_fees`,
  `mem_mergeChain_returns`).
* `Registry.mem_of_chain`: the chain of a jurisdiction is made of registered
  jurisdictions.
* `Registry.compose_ok`: what a successful composition returns, in terms of `chain` and
  `chainSchedule`.
-/

set_option autoImplicit false

namespace FeeSchedule

/-- A merge by name invents nothing: an entry is the parent's, or the child's that replaces
it or is new. -/
theorem mem_mergeByName {α : Type} {key : α → String} {inherited declared : List α} {x : α}
    (h : x ∈ mergeByName key inherited declared) : x ∈ inherited ∨ x ∈ declared := by
  simp only [mergeByName, List.mem_append, List.mem_map, List.mem_filter] at h
  rcases h with ⟨i, hi, rfl⟩ | ⟨hx, -⟩
  · cases hf : declared.reverse.find? (key · == key i) with
    | none => exact .inl (by simpa [hf] using hi)
    | some y =>
      have hy : y ∈ declared.reverse := List.mem_of_find?_eq_some hf
      exact .inr (by simpa [hf] using hy)
  · exact .inr hx

namespace Schedule

/-- Folding `extend` over a chain keeps every entry of the start and adds only entries of
the chain, in each field that `extend` merges by name. -/
theorem mem_foldl_extend {α : Type} (field : Schedule → List α) {key : α → String}
    (hfield : ∀ p c, field (extend p c) = mergeByName key (field p) (field c)) {x : α} :
    ∀ {chain : List Schedule} {acc : Schedule}, x ∈ field (chain.foldl extend acc) →
      x ∈ field acc ∨ ∃ s ∈ chain, x ∈ field s
  | [], _, h => .inl h
  | s :: ss, acc, h => by
    rcases @mem_foldl_extend α field key hfield x ss _ h with h | ⟨t, ht, hx⟩
    · rw [hfield] at h
      rcases mem_mergeByName h with h | h
      · exact .inl h
      · exact .inr ⟨s, List.mem_cons_self, h⟩
    · exact .inr ⟨t, List.mem_cons_of_mem _ ht, hx⟩

/-- An entry of a merged chain is declared by one of its schedules: the fold starts from the
empty schedule, which declares nothing. -/
theorem mem_mergeChain {α : Type} (field : Schedule → List α) {key : α → String}
    (hfield : ∀ p c, field (extend p c) = mergeByName key (field p) (field c))
    (hempty : field empty = []) {chain : List Schedule} {x : α}
    (h : x ∈ field (mergeChain chain)) : ∃ s ∈ chain, x ∈ field s := by
  rcases mem_foldl_extend field hfield h with h | h
  · simp [hempty] at h
  · exact h

theorem mem_mergeChain_inputs {chain : List Schedule} {i : Input}
    (h : i ∈ (mergeChain chain).inputs) : ∃ s ∈ chain, i ∈ s.inputs :=
  mem_mergeChain (·.inputs) (fun _ _ => rfl) rfl h

theorem mem_mergeChain_fees {chain : List Schedule} {f : Fee}
    (h : f ∈ (mergeChain chain).fees) : ∃ s ∈ chain, f ∈ s.fees :=
  mem_mergeChain (·.fees) (fun _ _ => rfl) rfl h

theorem mem_mergeChain_returns {chain : List Schedule} {r : Return}
    (h : r ∈ (mergeChain chain).returns) : ∃ s ∈ chain, r ∈ s.returns :=
  mem_mergeChain (·.returns) (fun _ _ => rfl) rfl h

end Schedule

namespace Registry

theorem mem_of_get? {r : Registry} {id : String} {j : Jurisdiction} (h : r.get? id = some j) :
    j ∈ r :=
  List.mem_of_find?_eq_some h

/-- Each step of the walk adds a registered jurisdiction. -/
theorem mem_of_walk {r : Registry} :
    ∀ {fuel : Nat} {current : String} {child : Option String} {seen res : List Jurisdiction},
      walk r fuel current child seen = .ok res → ∀ j ∈ res, j ∈ seen ∨ j ∈ r
  | 0, _, _, _, _, h => by
    simp only [walk, Except.ok.injEq] at h
    subst h
    exact fun j hj => .inl hj
  | fuel + 1, current, child, seen, res, h => by
    simp only [walk] at h
    split at h
    · cases h
    split at h
    · cases h
    · rename_i j hj
      split at h
      · cases h
        intro k hk
        rcases List.mem_append.mp hk with hk | hk
        · exact .inl hk
        · rw [List.mem_singleton.mp hk]
          exact .inr (mem_of_get? hj)
      · intro k hk
        rcases mem_of_walk h k hk with hk | hk
        · rcases List.mem_append.mp hk with hk | hk
          · exact .inl hk
          · rw [List.mem_singleton.mp hk]
            exact .inr (mem_of_get? hj)
        · exact .inr hk

theorem mem_of_chain {r : Registry} {target : String} {c : List Jurisdiction}
    (h : r.chain target = .ok c) : ∀ j ∈ c, j ∈ r := by
  unfold chain at h
  cases hw : walk r (r.length + 1) target none [] with
  | error e =>
    rw [hw] at h
    cases h
  | ok res =>
    rw [hw] at h
    cases h
    intro j hj
    rcases mem_of_walk hw j (List.mem_reverse.mp hj) with hj | hj
    · cases hj
    · exact hj

/-- The value of a composition: the chain, then the schedule of the chain. -/
theorem compose_run (r : Registry) (target : String) (σ : Array Event) :
    ((r.compose target).run σ).1 =
      (r.chain target >>= fun c => (chainSchedule target c).map (·, c)).map
        fun p => ⟨p.1, p.2.map (·.id)⟩ := by
  unfold compose
  split
  · rename_i e he
    rw [he]
    rfl
  · rename_i s c hsc
    rw [hsc]
    rfl

/-- A successful composition is the schedule of the chain, with the chain's
identifiers. -/
theorem compose_ok {r : Registry} {target : String} {c : Composed}
    (h : (r.compose target).run'.1 = .ok c) :
    ∃ js, r.chain target = .ok js ∧ chainSchedule target js = .ok c.schedule ∧
      c.applied = js.map (·.id) := by
  rw [Traced.run'_eq_run, compose_run] at h
  cases hc : r.chain target with
  | error e => simp [hc, bind, Except.bind, Except.map] at h
  | ok js =>
    cases hs : chainSchedule target js with
    | error e => simp [hc, hs, bind, Except.bind, Except.map] at h
    | ok s =>
      simp only [hc, hs, bind, Except.bind, Except.map, Except.ok.injEq] at h
      subst h
      exact ⟨js, rfl, hs, rfl⟩

end Registry

end FeeSchedule
