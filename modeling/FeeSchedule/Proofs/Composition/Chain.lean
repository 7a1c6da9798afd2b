import FeeSchedule.Proofs.Composition.Merge

/-!
# `FeeSchedule.Proofs.Composition.Chain`: the merge of a chain, declaration by declaration

Composing a jurisdiction folds `Schedule.extend` over its chain, root first, from the empty
schedule. When each schedule of the chain names each of its declarations once
(`Schedule.DistinctNames`), the result is described without the fold (`Schedule.MergeOf`):
for inputs, fees and groups by name and returns by symbol (`MergedBy`), each name once, in
the order in which the chain first declares the names, under the declaration of the last
schedule that declares it (`DeclaredLast`); the directives of the chain in order with each
repeat dropped; and the last version given.

* `keys_mergeByName_eraseDups`, `declaredLast_mergeByName`: one merge by name, for keys and
  for declarations.
* `foldl_eraseDups`: a fold whose steps append and drop repeats drops the repeats of the
  whole; it serves names and directives alike.
* `Schedule.mergeChain_mergeOf`: the merge of a chain is its `MergeOf`.
* `compose_merges_chain`: what composing a jurisdiction returns, for a chain of two or more
  schedules and for a lone root.
-/

set_option autoImplicit false

namespace FeeSchedule

/-! ### Lists without repeats -/

section EraseDups

variable {γ : Type} [BEq γ] [LawfulBEq γ]

theorem eraseDups_of_nodup : ∀ {l : List γ}, l.Nodup → l.eraseDups = l
  | [], _ => rfl
  | a :: as, h => by
    obtain ⟨ha, has⟩ := List.nodup_cons.mp h
    have hkeep : as.filter (fun b => !b == a) = as :=
      List.filter_eq_self.mpr fun b hb => by
        have hne : b ≠ a := fun hba => ha (hba ▸ hb)
        simpa using hne
    rw [List.eraseDups_cons, hkeep, eraseDups_of_nodup has]

theorem nodup_eraseDups : ∀ (l : List γ), l.eraseDups.Nodup
  | [] => List.nodup_nil
  | a :: as => by
    rw [List.eraseDups_cons]
    exact List.nodup_cons.mpr ⟨by simp, nodup_eraseDups _⟩
termination_by l => l.length
decreasing_by exact Nat.lt_succ_of_le (List.length_filter_le _ _)

/-- Dropping the repeats of a prefix first changes nothing. -/
theorem eraseDups_append_left (xs ys : List γ) :
    (xs.eraseDups ++ ys).eraseDups = (xs ++ ys).eraseDups := by
  rw [List.eraseDups_append, List.eraseDups_append, eraseDups_of_nodup (nodup_eraseDups xs)]
  simp [List.removeAll]

/-- A fold whose every step appends a part and drops the repeats gives the concatenation of
all the parts without repeats. -/
theorem foldl_eraseDups {α β : Type} {step : α → β → α} {view : α → List γ} {part : β → List γ}
    {P : β → Prop}
    (hstep : ∀ a b, P b → (view a).Nodup → view (step a b) = (view a ++ part b).eraseDups) :
    ∀ {bs : List β} {a : α}, (∀ b ∈ bs, P b) → (view a).Nodup →
      view (bs.foldl step a) = (view a ++ bs.flatMap part).eraseDups
  | [], a, _, ha => by simp [eraseDups_of_nodup ha]
  | b :: bs, a, hP, ha => by
    have hb := hstep a b (hP b List.mem_cons_self) ha
    have hnodup : (view (step a b)).Nodup := hb ▸ nodup_eraseDups _
    rw [List.foldl_cons, foldl_eraseDups hstep (fun b' hb' => hP b' (List.mem_cons_of_mem _ hb'))
      hnodup, hb, eraseDups_append_left, List.flatMap_cons, List.append_assoc]

end EraseDups

/-! ### Merging by name -/

section MergeByName

variable {α : Type} {key : α → String}

theorem keys_mergeByName_eraseDups {inherited declared : List α}
    (hi : (inherited.map key).Nodup) (hd : (declared.map key).Nodup) :
    (mergeByName key inherited declared).map key =
      (inherited.map key ++ declared.map key).eraseDups := by
  have hnew : ((declared.map key).removeAll (inherited.map key)).Nodup :=
    hd.sublist List.filter_sublist
  rw [keys_mergeByName, List.eraseDups_append, eraseDups_of_nodup hi, eraseDups_of_nodup hnew]

/-- `x` is declared by a level of a chain, and its key by no level after it. -/
def DeclaredLast (key : α → String) (levels : List (List α)) (x : α) : Prop :=
  ∃ pre l post, levels = pre ++ l :: post ∧ x ∈ l ∧ ∀ l' ∈ post, key x ∉ l'.map key

theorem DeclaredLast.of_mem {levels : List (List α)} {l : List α} {x : α} (hx : x ∈ l) :
    DeclaredLast key (levels ++ [l]) x :=
  ⟨levels, l, [], rfl, hx, by simp⟩

/-- A declaration that the next level does not redeclare stays the last one. -/
theorem DeclaredLast.append {levels : List (List α)} {l : List α} {x : α}
    (h : DeclaredLast key levels x) (hl : key x ∉ l.map key) :
    DeclaredLast key (levels ++ [l]) x := by
  obtain ⟨pre, m, post, rfl, hx, hpost⟩ := h
  refine ⟨pre, m, post ++ [l], by simp, hx, fun l' hl' => ?_⟩
  rcases List.mem_append.mp hl' with hl' | hl'
  · exact hpost l' hl'
  · rw [List.mem_singleton.mp hl']
    exact hl

/-- Each entry of a merge by name is the last declaration of its key, when each entry of
the parent was. -/
theorem declaredLast_mergeByName {levels : List (List α)} {inherited declared : List α}
    (h : ∀ x ∈ inherited, DeclaredLast key levels x) :
    ∀ x ∈ mergeByName key inherited declared, DeclaredLast key (levels ++ [declared]) x := by
  intro x hx
  simp only [mergeByName, List.mem_append, List.mem_map, List.mem_filter] at hx
  rcases hx with ⟨i, hi, rfl⟩ | ⟨hx, -⟩
  · cases hf : declared.reverse.find? (key · == key i) with
    | none =>
      -- the child does not redeclare the key: the parent's entry stays
      have hnot : key i ∉ declared.map key := by
        intro hk
        obtain ⟨y, hy, hyk⟩ := List.mem_map.mp hk
        have := List.find?_eq_none.mp hf y (List.mem_reverse.mpr hy)
        simp [hyk] at this
      simpa [hf] using (h i hi).append hnot
    | some y =>
      have hy : y ∈ declared := List.mem_reverse.mp (List.mem_of_find?_eq_some hf)
      simpa [hf] using @DeclaredLast.of_mem α key levels declared y hy
  · exact .of_mem hx

theorem foldl_mergeByName_declaredLast :
    ∀ {levels done : List (List α)} {acc : List α}, (∀ x ∈ acc, DeclaredLast key done x) →
      ∀ x ∈ levels.foldl (mergeByName key) acc, DeclaredLast key (done ++ levels) x
  | [], done, acc, h => by simpa using h
  | l :: levels, done, acc, h => by
    have hrest := @foldl_mergeByName_declaredLast levels (done ++ [l])
      (mergeByName key acc l) (declaredLast_mergeByName h)
    simpa using hrest

/-- `merged` holds the declarations of a chain of levels, root first, merged by key: each key
once, in the order in which the levels first declare them (`List.eraseDups` keeps first
occurrences), under the declaration of the last level that declares it. -/
structure MergedBy (key : α → String) (levels : List (List α)) (merged : List α) : Prop where
  keys : merged.map key = (levels.flatMap fun l => l.map key).eraseDups
  last : ∀ x ∈ merged, DeclaredLast key levels x

theorem MergedBy.nodup {levels : List (List α)} {merged : List α}
    (h : MergedBy key levels merged) : (merged.map key).Nodup :=
  h.keys ▸ nodup_eraseDups _

theorem MergedBy.mem_keys {levels : List (List α)} {merged : List α}
    (h : MergedBy key levels merged) {k : String} :
    k ∈ merged.map key ↔ ∃ l ∈ levels, k ∈ l.map key := by
  rw [h.keys, List.mem_eraseDups, List.mem_flatMap]

/-- Merging levels whose keys are each without repeats, from nothing. -/
theorem mergedBy_foldl {levels : List (List α)} (h : ∀ l ∈ levels, (l.map key).Nodup) :
    MergedBy key levels (levels.foldl (mergeByName key) []) where
  keys := by
    have hkeys := @foldl_eraseDups String _ _ (List α) (List α) (mergeByName key) (List.map key)
      (List.map key) (fun l => (l.map key).Nodup) (fun _ _ hb ha => keys_mergeByName_eraseDups ha hb)
      levels [] h List.nodup_nil
    simpa using hkeys
  last := by
    simpa using @foldl_mergeByName_declaredLast α key levels [] [] (by simp)

end MergeByName

/-! ### Directives and versions -/

/-- Adding directives to a list without repeats appends those not yet there, each once. -/
theorem addDirectives_eq : ∀ (ds : List Directive) {acc : List Directive}, acc.Nodup →
    addDirectives acc ds = (acc ++ ds).eraseDups
  | [], acc, h => by simp [addDirectives, eraseDups_of_nodup h]
  | d :: ds, acc, h => by
    rw [addDirectives]
    by_cases hd : d ∈ acc
    · -- a repeat is dropped, here as in the whole list
      rw [if_pos (List.contains_iff_mem.mpr hd), addDirectives_eq ds h, List.eraseDups_append,
        List.eraseDups_append]
      simp [List.removeAll, hd]
    · have hnodup : (acc ++ [d]).Nodup :=
        List.nodup_append.mpr ⟨h, by simp, fun a ha b hb => by
          rw [List.mem_singleton.mp hb]
          rintro rfl
          exact hd ha⟩
      rw [if_neg (by simpa using hd), addDirectives_eq ds hnodup, List.append_assoc,
        List.singleton_append]

/-- The latest version given along a list of versions, root first. -/
theorem foldl_or_eq_findSome? {β : Type} :
    ∀ (vs : List (Option β)) (init : Option β),
      vs.foldl (fun pv cv => cv.or pv) init = (vs.reverse.findSome? id).or init
  | [], init => rfl
  | v :: vs, init => by
    rw [List.foldl_cons, foldl_or_eq_findSome? vs, List.reverse_cons, List.findSome?_append,
      Option.or_assoc]
    cases v <;> rfl

namespace Schedule

/-- A field of a merged chain is the fold of the field's own merge over the chain. -/
theorem field_foldl_extend {β : Type} (field : Schedule → β) (g : β → β → β)
    (h : ∀ p c, field (extend p c) = g (field p) (field c)) (chain : List Schedule)
    (acc : Schedule) : field (chain.foldl extend acc) = (chain.map field).foldl g (field acc) := by
  rw [List.foldl_map]
  exact (List.foldl_hom field fun x y => (h x y).symm).symm

/-- Each kind of declaration of a schedule is named at most once: inputs, fees and groups by
name, returns by symbol. -/
structure DistinctNames (s : Schedule) : Prop where
  inputs : (s.inputs.map (·.name)).Nodup
  fees : (s.fees.map (·.name)).Nodup
  groups : (s.groups.map (·.name)).Nodup
  returns : (s.returns.map (·.symbol)).Nodup

/-- A schedule is the merge of a chain of schedules, root first: its inputs, fees and groups
merged by name and its returns by symbol (`MergedBy`), its directives those of the chain in
order with each repeat dropped, and its version the last one given. -/
structure MergeOf (chain : List Schedule) (s : Schedule) : Prop where
  inputs : MergedBy (·.name) (chain.map (·.inputs)) s.inputs
  fees : MergedBy (·.name) (chain.map (·.fees)) s.fees
  groups : MergedBy (·.name) (chain.map (·.groups)) s.groups
  returns : MergedBy (·.symbol) (chain.map (·.returns)) s.returns
  directives : s.directives = (chain.flatMap (·.directives)).eraseDups
  version : s.version = chain.reverse.findSome? (·.version)

/-- A chain of schedules whose names are each distinct merges as described by `MergeOf`. -/
theorem mergeChain_mergeOf {chain : List Schedule} (h : ∀ s ∈ chain, s.DistinctNames) :
    (mergeChain chain).MergeOf chain where
  inputs := by
    rw [mergeChain, field_foldl_extend (·.inputs) (mergeByName (·.name)) fun _ _ => rfl]
    exact mergedBy_foldl (by simpa using fun s hs => (h s hs).inputs)
  fees := by
    rw [mergeChain, field_foldl_extend (·.fees) (mergeByName (·.name)) fun _ _ => rfl]
    exact mergedBy_foldl (by simpa using fun s hs => (h s hs).fees)
  groups := by
    rw [mergeChain, field_foldl_extend (·.groups) (mergeByName (·.name)) fun _ _ => rfl]
    exact mergedBy_foldl (by simpa using fun s hs => (h s hs).groups)
  returns := by
    rw [mergeChain, field_foldl_extend (·.returns) (mergeByName (·.symbol)) fun _ _ => rfl]
    exact mergedBy_foldl (by simpa using fun s hs => (h s hs).returns)
  directives := by
    rw [mergeChain, field_foldl_extend (·.directives) addDirectives fun _ _ => rfl]
    have hdirs := @foldl_eraseDups Directive _ _ (List Directive) (List Directive) addDirectives id id
      (fun _ => True) (fun a b _ ha => addDirectives_eq b ha) (chain.map (·.directives)) []
      (fun _ _ => trivial) List.nodup_nil
    simpa [empty, List.flatMap_def] using hdirs
  version := by
    rw [mergeChain, field_foldl_extend (·.version) (fun pv cv => cv.or pv)
      fun _ c => by cases hc : c.version <;> simp [extend, hc], foldl_or_eq_findSome?,
      ← List.map_reverse, List.findSome?_map]
    simp [empty]

end Schedule

/-! ### Composing a jurisdiction -/

namespace Registry

/-- A walk only adds to the jurisdictions it starts from. -/
theorem walk_extends {r : Registry} :
    ∀ {fuel : Nat} {current : String} {child : Option String} {seen res : List Jurisdiction},
      walk r fuel current child seen = .ok res → seen <+: res
  | 0, _, _, _, _, h => by
    simp only [walk, Except.ok.injEq] at h
    exact h ▸ List.prefix_refl _
  | fuel + 1, current, child, seen, res, h => by
    simp only [walk] at h
    split at h
    · cases h
    split at h
    · cases h
    · split at h
      · cases h
        exact List.prefix_append _ _
      · exact (List.prefix_append _ _).trans (walk_extends h)

/-- A chain of one jurisdiction is the one registered under the target. -/
theorem get?_of_chain_single {r : Registry} {target : String} {j : Jurisdiction}
    (h : r.chain target = .ok [j]) : r.get? target = some j := by
  unfold chain at h
  cases hw : walk r (r.length + 1) target none [] with
  | error e =>
    rw [hw] at h
    cases h
  | ok res =>
    rw [hw] at h
    have hres : res = [j] := by
      simpa [Except.map, List.reverse_eq_cons_iff] using h
    subst hres
    -- the first step of the walk adds the jurisdiction of the target
    simp only [walk, List.any_nil, Bool.false_eq_true, if_false] at hw
    cases hg : r.get? target with
    | none =>
      rw [hg] at hw
      cases hw
    | some k =>
      rw [hg] at hw
      have hk : [k] <+: [j] := by
        dsimp only at hw
        split at hw
        · cases hw
          exact List.prefix_refl _
        · simpa using walk_extends hw
      rw [hk.eq_of_length rfl |> List.singleton_inj.mp]

/-- A chain of two or more jurisdictions composes to the merge of their schedules. -/
theorem chainSchedule_of_two_le {target : String} {js : List Jurisdiction} {s : Schedule}
    (hlen : 2 ≤ js.length) (h : chainSchedule target js = .ok s) :
    s = Schedule.mergeChain (js.map (·.schedule)) := by
  rcases js with _ | ⟨j₁, _ | ⟨j₂, rest⟩⟩
  · simp at hlen
  · simp at hlen
  · -- the merged schedule is returned unless its check finds an error
    simp only [chainSchedule] at h
    split at h
    · cases h
      rfl
    · cases h

end Registry

/-- Composing a jurisdiction merges its chain by name, when each schedule of the chain names
each of its declarations once. The applied identifiers are those of the chain, root first;
a chain of two or more schedules composes to their merge (`Schedule.MergeOf`: each name once,
in order of first declaration, under the last declaration, the directives without repeats,
the last version given); and a lone root composes to the schedule registered under the
target, as it is. -/
theorem compose_merges_chain {reg : Registry} {target : String} {js : List Jurisdiction}
    (hchain : reg.chain target = .ok js) (hnames : ∀ j ∈ js, j.schedule.DistinctNames)
    {c : Composed} (hc : (reg.compose target).run'.1 = .ok c) :
    c.applied = js.map (·.id) ∧
      (2 ≤ js.length → c.schedule.MergeOf (js.map (·.schedule))) ∧
      ∀ j, js = [j] → reg.get? target = some j ∧ c.schedule = j.schedule ∧ c.applied = [target] := by
  obtain ⟨js', hjs', hs, happ⟩ := Registry.compose_ok hc
  rw [hchain, Except.ok.injEq] at hjs'
  subst hjs'
  refine ⟨happ, fun hlen => ?_, fun j hj => ?_⟩
  · rw [Registry.chainSchedule_of_two_le hlen hs]
    exact Schedule.mergeChain_mergeOf fun s hs => by
      obtain ⟨j, hj, rfl⟩ := List.mem_map.mp hs
      exact hnames j hj
  · subst hj
    have hget := Registry.get?_of_chain_single hchain
    have hid : j.id = target := by simpa using List.find?_some hget
    simp only [Registry.chainSchedule, Except.ok.injEq] at hs
    exact ⟨hget, hs.symm, by simp [happ, hid]⟩

/-- A regional schedule extending a root one: it redeclares one input and one fee, adds an
input, a fee and a directive, and gives no version. -/
theorem regional_composition_merges :
    ∃ (reg : Registry) (js : List Jurisdiction) (c : Composed), reg = [
        ⟨"EP", "Root", ⟨[⟨"a", "A", .boolean false, none⟩, ⟨"b", "B", .boolean false, none⟩],
          [⟨"f", [⟨.num (Decimal.ofNat 1), none⟩], [], false, none⟩], [], [], [.complete "f"],
          some ⟨"2024", none⟩⟩, none⟩,
        ⟨"UP", "Regional", ⟨[⟨"b", "B", .boolean true, none⟩, ⟨"c", "C", .boolean false, none⟩],
          [⟨"f", [⟨.num (Decimal.ofNat 2), none⟩], [], false, none⟩,
            ⟨"g", [⟨.num (Decimal.ofNat 3), none⟩], [], true, none⟩], [], [],
          [.complete "f", .complete "g"], none⟩, some "EP"⟩] ∧
      reg.chain "UP" = .ok js ∧ (∀ j ∈ js, j.schedule.DistinctNames) ∧
      (reg.compose "UP").run'.1 = .ok c ∧
      c.applied = js.map (·.id) ∧ (2 ≤ js.length → c.schedule.MergeOf (js.map (·.schedule))) ∧
      ∀ j, js = [j] → reg.get? "UP" = some j ∧ c.schedule = j.schedule ∧ c.applied = ["UP"] := by
  refine (fun hnames => ⟨_, _, _, rfl, rfl, hnames, rfl,
    compose_merges_chain (by rfl) hnames (by rfl)⟩) ?_
  -- the chain is the root, then the regional schedule; each names its declarations once
  intro j hj
  simp only [List.mem_reverse, List.nil_append, List.mem_append, List.mem_singleton] at hj
  rcases hj with rfl | rfl <;> exact ⟨by decide, by decide, by decide, by decide⟩

end FeeSchedule
