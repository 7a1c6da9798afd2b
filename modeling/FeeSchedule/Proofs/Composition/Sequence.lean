import FeeSchedule.Proofs.Composition.Lineage
import Mathlib.Data.List.Perm.Subperm

/-!
# `FeeSchedule.Proofs.Composition.Sequence`: composing a sequence of schedules

`composeChain` registers schedules one after another, each extending the one before it, and
composes the last. Registering an identifier again replaces its entry in place, so a lookup
finds the last registration of an identifier.

When the identifiers are distinct, no registration replaces another: the registry is the
chain itself, its lineage from the last identifier is the whole sequence, and the composition
is the one schedule or the merge of them all, unless the merge fails its check.

When an identifier comes twice, no lineage exists. Read the registrations from the last one
back: each names the one before it as its parent, and a lookup lands on the last registration
of an identifier, never earlier than the position the walk reached plus one. So a walk from
the last identifier that reaches a root passes at least as many distinct identifiers as there
are schedules, which the repeat makes impossible (`length_le_of_climb`). Every parent is
registered, so the walk fails at a cycle.

* `Registry.get?_register`: a lookup after a registration.
* `Registry.LinearChain`: jurisdictions registering a sequence as one chain.
* `Registry.registerChain_spec`: what registering a sequence leaves in the registry.
* `composeChain_outcome`: the outcome for distinct and for repeated identifiers.
-/

set_option autoImplicit false

namespace FeeSchedule

namespace Registry

/-! ### Registering one jurisdiction -/

section Register

variable (r : Registry) (j : Jurisdiction) (σ : Array Event)

/-- A lookup after registering `j` finds `j` under its identifier, and the entry it found
before under any other. -/
theorem get?_register (x : String) :
    ((r.register j).run σ).1.get? x = if j.id = x then some j else r.get? x := by
  rw [register_run]
  split
  · -- replaced in place: every entry keeps its identifier
    rename_i hcont
    have hid : ∀ e : Jurisdiction, (if e.id == j.id then j else e).id = e.id := by
      intro e
      split <;> simp_all
    simp only [get?, List.find?_map, Function.comp_def, hid]
    cases hf : r.find? (·.id == x) with
    | none =>
      -- `x` is not registered, so it is not `j`'s identifier
      have hjx : j.id ≠ x := by
        rintro rfl
        obtain ⟨e, he, hej⟩ : ∃ e ∈ r, e.id = j.id := by simpa [contains] using hcont
        exact List.find?_eq_none.mp hf e he (by simp [hej])
      simp [hjx]
    | some e =>
      have he : e.id = x := by simpa using List.find?_some hf
      by_cases hjx : j.id = x
      · simp [he, hjx]
      · simp [he, hjx, Ne.symm hjx]
  · -- appended at the end: found there only when no entry had the identifier
    rename_i hcont
    simp only [get?, List.find?_append, List.find?_singleton, beq_iff_eq]
    by_cases hx : j.id = x
    · have hnone : r.find? (·.id == x) = none := by
        rw [List.find?_eq_none]
        intro e he hex
        exact hcont (List.any_eq_true.mpr ⟨e, he, by simpa [hx] using hex⟩)
      simp [hx, hnone]
    · simp [hx]

theorem register_fresh (h : r.contains j.id = false) : ((r.register j).run σ).1 = r ++ [j] := by
  rw [register_run, if_neg (by simp [h])]

end Register

/-! ### Registering a sequence -/

/-- `js` registers `scripts` as one chain below `prev`: the same identifiers and schedules in
order, each extending the one before it and the first extending `prev`. -/
inductive LinearChain : Option String → List (String × Schedule) → List Jurisdiction → Prop
  | nil (prev : Option String) : LinearChain prev [] []
  | cons {prev : Option String} {id : String} {s : Schedule} {j : Jurisdiction}
      {rest : List (String × Schedule)} {js : List Jurisdiction} :
      j.id = id → j.schedule = s → j.parent = prev → LinearChain (some id) rest js →
      LinearChain prev ((id, s) :: rest) (j :: js)

namespace LinearChain

variable {prev : Option String} {scripts : List (String × Schedule)} {js : List Jurisdiction}

theorem ids (h : LinearChain prev scripts js) : js.map (·.id) = scripts.map (·.1) := by
  induction h with
  | nil => rfl
  | cons hid _ _ _ ih => simp [hid, ih]

theorem schedules (h : LinearChain prev scripts js) :
    js.map (·.schedule) = scripts.map (·.2) := by
  induction h with
  | nil => rfl
  | cons _ hs _ _ ih => simp [hs, ih]

/-- Each jurisdiction after the first names the one before it as its parent. -/
theorem linked (h : LinearChain prev scripts js) : js.IsChain fun a b => b.parent = some a.id := by
  induction h with
  | nil => exact List.IsChain.nil
  | cons hid _ _ hrest ih =>
    cases hrest with
    | nil => exact List.isChain_singleton _
    | cons _ _ hp _ => exact ih.cons_cons (by rw [hp, hid])

theorem head_parent (h : LinearChain prev scripts js) : ∀ j ∈ js.head?, j.parent = prev := by
  cases h with
  | nil => simp
  | cons _ _ hp _ =>
    intro j hj
    rw [List.head?_cons, Option.mem_some_iff] at hj
    exact hj ▸ hp

/-- A parent named in the chain is `prev` or an identifier of the chain. -/
theorem parent_mem (h : LinearChain prev scripts js) :
    ∀ j ∈ js, ∀ p, j.parent = some p → prev = some p ∨ p ∈ js.map (·.id) := by
  induction h with
  | nil => simp
  | @cons prev id s j rest js hid _ hp _ ih =>
    intro k hk p hkp
    rcases List.mem_cons.mp hk with rfl | hk
    · exact .inl (hp ▸ hkp)
    · rcases ih k hk p hkp with h | h
      · exact .inr (List.mem_map.mpr ⟨j, List.mem_cons_self, hid.trans (Option.some_inj.mp h)⟩)
      · exact .inr (List.mem_cons_of_mem _ h)

end LinearChain

/-- Registering a sequence below `prev` registers a `LinearChain`: afterwards a lookup finds
the last registration of an identifier, or else the entry found before; and when the
identifiers are distinct and new, the chain is appended as it is. The induction is on the
sequence, from any registry. -/
theorem registerChain_spec :
    ∀ (scripts : List (String × Schedule)) (r : Registry) (prev : Option String)
      (σ : Array Event), ∃ js, LinearChain prev scripts js ∧
        (∀ x, ((r.registerChain prev scripts).run σ).1.get? x =
          (js.reverse.find? (·.id == x)).or (r.get? x)) ∧
        ((js.map (·.id)).Nodup → (∀ j ∈ js, r.contains j.id = false) →
          ((r.registerChain prev scripts).run σ).1 = r ++ js)
  | [], r, prev, σ => ⟨[], .nil prev, fun _ => rfl, fun _ _ => (List.append_nil r).symm⟩
  | (id, s) :: rest, r, prev, σ => by
    obtain ⟨j, hid, hs, hp, hrun⟩ := registerChain_cons r prev id s rest
    rw [hrun, Traced.run_bind]
    obtain ⟨js, hjs, hget, happ⟩ := registerChain_spec rest _ (some id) ((r.register j).run σ).2
    refine ⟨j :: js, .cons hid hs hp hjs, fun x => ?_, fun hnodup hfresh => ?_⟩
    · -- the new registration is found unless a later one of the same identifier is
      rw [hget, get?_register, List.reverse_cons, List.find?_append, List.find?_singleton]
      by_cases hx : j.id = x <;> simp [hx]
    · have hnew : r.contains j.id = false := hfresh j List.mem_cons_self
      rw [List.map_cons, List.nodup_cons] at hnodup
      rw [happ hnodup.2 fun k hk => ?_, register_fresh _ _ _ hnew, List.append_assoc,
        List.singleton_append]
      -- a later identifier is neither in the registry nor the new one
      have hne : k.id ≠ j.id := fun hk' => hnodup.1 (List.mem_map.mpr ⟨k, hk, hk'⟩)
      rw [register_fresh _ _ _ hnew, contains, List.any_append, Bool.or_eq_false_iff]
      exact ⟨hfresh k (List.mem_cons_of_mem _ hk), by simpa using Ne.symm hne⟩

/-! ### Composing -/

/-- The schedule of a chain of two or more jurisdictions: their merge, unless its check finds
errors. -/
theorem chainSchedule_two_le {target : String} {js : List Jurisdiction} (hlen : 2 ≤ js.length) :
    chainSchedule target js =
      if ((Schedule.mergeChain (js.map (·.schedule))).check.filter (·.isError)).isEmpty then
        .ok (Schedule.mergeChain (js.map (·.schedule)))
      else .error ⟨((Schedule.mergeChain (js.map (·.schedule))).check.filter (·.isError)).map
        fun d => "Composed script for '" ++ target ++ "': " ++ d.text⟩ := by
  rcases js with _ | ⟨j₁, _ | ⟨j₂, rest⟩⟩
  · simp at hlen
  · simp at hlen
  · rfl

end Registry

open Registry

/-- The value of composing a sequence: the registry that registering it leaves, and the
composition of the last identifier there. -/
theorem composeChain_run {scripts : List (String × Schedule)} {last : String} {s : Schedule}
    (hlast : scripts.getLast? = some (last, s)) :
    (composeChain scripts).run'.1 =
      ((((registerChain [] none scripts).run #[]).1.compose last).run #[]).1.map
        (((registerChain [] none scripts).run #[]).1, ·) := by
  unfold composeChain
  rw [hlast]
  dsimp only
  rw [Traced.run'_eq_run, Traced.run_bind, Traced.run_bind, compose_run, compose_run]
  cases (((registerChain [] none scripts).run #[]).1.chain last >>= fun c =>
    (chainSchedule last c).map (·, c)) <;> rfl

section Repeats

variable {reg : Registry} {F : List Jurisdiction}

/-- The walk against a list of registrations read from the last one back. `F` is linked
(each names the next as its parent), ends at a root, and a lookup finds the first entry of
`F` with the identifier. A walk from the entry at `i`, its identifier's first, that reaches a
root is long enough to cover the rest of `F`: each step moves at most one entry further
along `F`. The induction is on the walk. -/
theorem length_le_of_climb (hF : F.IsChain fun a b => a.parent = some b.id)
    (hroot : ∀ l ∈ F.getLast?, l.parent = none) (hreg : ∀ x, reg.get? x = F.find? (·.id == x)) :
    ∀ (rest : List Jurisdiction) (c : Jurisdiction), (∀ d ∈ c :: rest, reg.get? d.id = some d) →
      (c :: rest).IsChain (fun a b => a.parent = some b.id) →
      (∀ l ∈ (c :: rest).getLast?, l.parent = none) →
      ∀ (i : Nat) (hi : i < F.length), F[i] = c → (∀ k (hk : k < i), F[k].id ≠ c.id) →
        F.length ≤ i + (c :: rest).length
  | [], c, _, _, hend, i, hi, hFi, _ => by
    -- a root stands only at the end of `F`
    by_contra hlt
    have hpar := hF.getElem i (by simp at hlt; omega)
    rw [hFi, hend c rfl] at hpar
    cases hpar
  | d :: rest, c, hregs, hchain, hend, i, hi, hFi, _ => by
    obtain ⟨hcd, hrest⟩ := List.isChain_cons_cons.mp hchain
    have hnext : i + 1 < F.length := by
      by_contra hge
      have hlast : F.getLast? = some c := by
        have hiL : F.length - 1 = i := by omega
        rw [List.getLast?_eq_getElem?, hiL, ← hFi]
        exact List.getElem?_eq_getElem hi
      rw [hroot c hlast] at hcd
      cases hcd
    -- the parent of `c` is the next entry of `F`; `d` is that identifier's first entry
    have hpar := hF.getElem i hnext
    rw [hFi, hcd, Option.some_inj] at hpar
    obtain ⟨-, i', hi', hFi', hfirst⟩ :=
      List.find?_eq_some_iff_getElem.mp ((hreg d.id).symm.trans (hregs d (by simp)))
    have hle : i' ≤ i + 1 := by
      by_contra hgt
      have := hfirst (i + 1) (by omega)
      simp [← hpar] at this
    have ih := length_le_of_climb hF hroot hreg rest d
      (fun e he => hregs e (List.mem_cons_of_mem c he)) hrest (by simpa using hend) i' hi' hFi'
      (fun k hk => by simpa using hfirst k hk)
    simp only [List.length_cons] at ih ⊢
    omega

end Repeats

variable {scripts : List (String × Schedule)} {js : List Jurisdiction} {reg : Registry}

/-- In a registry without repeated identifiers, each entry is found under its identifier. -/
theorem get?_of_mem {r : Registry} (hn : (r.map (·.id)).Nodup) {j : Jurisdiction} (hj : j ∈ r) :
    r.get? j.id = some j := by
  induction r with
  | nil => cases hj
  | cons e r ih =>
    rw [List.map_cons, List.nodup_cons] at hn
    rcases List.mem_cons.mp hj with rfl | hj
    · exact List.find?_cons_of_pos (by simp)
    · have hne : e.id ≠ j.id := fun h => hn.1 (h ▸ List.mem_map_of_mem hj)
      rw [get?, List.find?_cons_of_neg (by simpa using hne)]
      exact ih hn.2 hj

/-- The last identifier of a sequence is the identifier of the last jurisdiction of its
chain. -/
theorem Registry.LinearChain.getLast_id {prev : Option String} {last : String} {s : Schedule}
    (hjs : LinearChain prev scripts js) (hlast : scripts.getLast? = some (last, s)) :
    js.getLast?.map (·.id) = some last := by
  rw [← List.getLast?_map, hjs.ids, List.getLast?_map, hlast]
  rfl

/-- A lookup among the last registrations finds a jurisdiction of the chain. -/
theorem mem_of_find? {x : String} {j : Jurisdiction}
    (h : js.reverse.find? (·.id == x) = some j) : j ∈ js :=
  List.mem_reverse.mp (List.mem_of_find?_eq_some h)

/-- A lookup among the last registrations finds every identifier of the chain. -/
theorem find?_ne_none {x : String} (hx : x ∈ js.map (·.id)) :
    js.reverse.find? (·.id == x) ≠ none := by
  obtain ⟨j, hj, rfl⟩ := List.mem_map.mp hx
  rw [Ne, List.find?_eq_none]
  intro h
  exact h j (List.mem_reverse.mpr hj) (by simp)

/-- When a lookup finds the last registration of each identifier of a sequence, the last
identifier has a lineage only if the identifiers are distinct. -/
theorem nodup_of_lineage {last : String} {s : Schedule} {cs : List Jurisdiction}
    (hlast : scripts.getLast? = some (last, s)) (hjs : LinearChain none scripts js)
    (hreg : ∀ x, reg.get? x = js.reverse.find? (·.id == x)) (hl : reg.Lineage last cs) :
    (scripts.map (·.1)).Nodup := by
  obtain ⟨hasc, hne, hend⟩ := (@lineage_reverse_iff reg last cs.reverse).mp (by simpa using hl)
  obtain ⟨c, rest, hcs⟩ := List.exists_cons_of_ne_nil hne
  rw [hcs] at hasc hend
  have hc : c.id = last := hasc.start c rfl
  have hF : js.reverse.IsChain fun a b => a.parent = some b.id := by
    simpa [List.isChain_reverse] using hjs.linked
  have hroot : ∀ l ∈ js.reverse.getLast?, l.parent = none := by
    simpa using hjs.head_parent
  -- `c` is found at the front of the registrations read back: it is the last one
  obtain ⟨-, i, hi, hFi, hfirst⟩ := List.find?_eq_some_iff_getElem.mp
    ((hreg c.id).symm.trans (hasc.registered c List.mem_cons_self))
  have hfront : ∀ h : 0 < js.reverse.length, js.reverse[0].id = last := by
    intro h
    have := hjs.getLast_id hlast
    rw [← List.head?_reverse, List.head?_eq_getElem?, List.getElem?_eq_getElem h] at this
    simpa using this
  have hi0 : i = 0 := by
    by_contra hpos
    have := hfirst 0 (by omega)
    rw [hfront (by omega), hc] at this
    simp at this
  subst hi0
  have hlen := length_le_of_climb hF hroot hreg rest c hasc.registered hasc.linked hend 0 hi hFi
    (fun k hk => absurd hk (Nat.not_lt_zero k))
  -- so the walk meets as many distinct identifiers as the sequence has entries
  have hsub : (c :: rest).map (·.id) ⊆ scripts.map (·.1) := by
    intro x hx
    obtain ⟨d, hd, rfl⟩ := List.mem_map.mp hx
    rw [← hjs.ids]
    exact List.mem_map_of_mem (mem_of_find? ((hreg d.id).symm.trans (hasc.registered d hd)))
  have hlen' : (scripts.map (·.1)).length ≤ ((c :: rest).map (·.id)).length := by
    have := congrArg List.length hjs.ids
    simp only [List.length_map, List.length_reverse] at this hlen ⊢
    omega
  exact ((hasc.distinct.subperm hsub).perm_of_length_le hlen').nodup_iff.mp hasc.distinct

/-- Registering a sequence leaves a registry in which a lookup finds the last registration of
each identifier, along a linear chain of the sequence; with distinct identifiers the registry is
that chain. Composing the sequence composes its last identifier in that registry. -/
theorem composeChain_registers {last : String} {s : Schedule}
    (hlast : scripts.getLast? = some (last, s)) :
    ∃ (reg : Registry) (js : List Jurisdiction), LinearChain none scripts js ∧
      (∀ x, reg.get? x = js.reverse.find? (·.id == x)) ∧
      ((scripts.map (·.1)).Nodup → reg = js) ∧
      (composeChain scripts).run'.1 = ((reg.compose last).run #[]).1.map (reg, ·) := by
  obtain ⟨js, hjs, hget, happ⟩ := registerChain_spec scripts [] none #[]
  refine ⟨_, js, hjs, fun x => by simpa [get?] using hget x, fun hnodup => ?_,
    composeChain_run hlast⟩
  have hjsn : (js.map (·.id)).Nodup := hjs.ids ▸ hnodup
  simpa using happ hjsn (by simp [contains])

/-- With distinct identifiers the registered chain is the lineage of the last identifier:
composing gives the only schedule of a sequence of one, and otherwise the merge of them all,
root first, unless the merge's check finds errors, which are then reported. -/
theorem composeChain_distinct {last : String} {s : Schedule}
    (hlast : scripts.getLast? = some (last, s)) (hjs : LinearChain none scripts reg)
    (hnodup : (scripts.map (·.1)).Nodup)
    (hrun : (composeChain scripts).run'.1 = ((reg.compose last).run #[]).1.map (reg, ·)) :
    (scripts.length = 1 → (composeChain scripts).run'.1 = .ok (reg, ⟨s, [last]⟩)) ∧
      (2 ≤ scripts.length →
        ((Schedule.mergeChain (scripts.map (·.2))).check.filter (·.isError) = [] ∧
          (composeChain scripts).run'.1 =
            .ok (reg, ⟨Schedule.mergeChain (scripts.map (·.2)), scripts.map (·.1)⟩)) ∨
        ((Schedule.mergeChain (scripts.map (·.2))).check.filter (·.isError) ≠ [] ∧
          (composeChain scripts).run'.1 = .error
            ⟨((Schedule.mergeChain (scripts.map (·.2))).check.filter (·.isError)).map
              fun d => "Composed script for '" ++ last ++ "': " ++ d.text⟩)) := by
  -- the chain is its own lineage, so composing merges it
  have hjsn : (reg.map (·.id)).Nodup := hjs.ids ▸ hnodup
  have hlin : reg.Lineage last reg :=
    ⟨fun j hj => get?_of_mem hjsn hj, hjs.getLast_id hlast, by simpa using hjs.head_parent,
      hjs.linked, hjsn⟩
  rw [compose_run, (chain_eq_ok_iff reg last reg).mpr hlin] at hrun
  simp only [bind, Except.bind] at hrun
  have hlen : reg.length = scripts.length := by simpa using congrArg List.length hjs.ids
  have hmerge : reg.map (·.schedule) = scripts.map (·.2) := hjs.schedules
  refine ⟨fun h1 => ?_, fun h2 => ?_⟩
  · -- one schedule: it is returned as registered
    obtain ⟨j, rfl⟩ := List.length_eq_one_iff.mp (hlen.trans h1)
    obtain ⟨x, rfl⟩ := List.length_eq_one_iff.mp h1
    have hx : x = (last, s) := by simpa using hlast
    subst hx
    have hid := hjs.ids
    have hs := hmerge
    simp only [List.map_cons, List.map_nil, List.cons.injEq, and_true] at hid hs
    rw [hrun]
    simp [chainSchedule, Except.map, hid, hs]
  · have hids := hjs.ids
    rw [chainSchedule_two_le (hlen ▸ h2), hmerge] at hrun
    by_cases herr : (Schedule.mergeChain (scripts.map (·.2))).check.filter (·.isError) = []
    · exact .inl ⟨herr, by simpa [herr, Except.map, hids] using hrun⟩
    · exact .inr ⟨herr, by simpa [herr, Except.map] using hrun⟩

/-- When an identifier comes twice, the last identifier has no lineage and every parent named is
registered, so composing fails with a cycle of parent links among the identifiers, from the last
one. -/
theorem composeChain_repeated {last : String} {s : Schedule}
    (hlast : scripts.getLast? = some (last, s)) (hjs : LinearChain none scripts js)
    (hreg : ∀ x, reg.get? x = js.reverse.find? (·.id == x)) (hdup : ¬ (scripts.map (·.1)).Nodup)
    (hrun : (composeChain scripts).run'.1 = ((reg.compose last).run #[]).1.map (reg, ·)) :
    ∃ cycle p, cycle.head? = some last ∧ cycle.Nodup ∧ (∀ x ∈ cycle, x ∈ scripts.map (·.1)) ∧
      p ∈ cycle ∧ (composeChain scripts).run'.1 =
        .error ⟨["Cycle in parent links: " ++ " -> ".intercalate (cycle ++ [p])]⟩ := by
  rw [compose_run] at hrun
  -- no lineage, no missing identifier, so a cycle
  have hids : ∀ x ∈ js.map (·.id), reg.get? x ≠ none := fun x hx => by
    rw [hreg]
    exact find?_ne_none hx
  cases hc : reg.chain last with
  | ok cs =>
    exact absurd (nodup_of_lineage hlast hjs hreg ((chain_eq_ok_iff reg last cs).mp hc)) hdup
  | error e =>
    rw [hc] at hrun
    have hlastid : last ∈ js.map (·.id) := by
      have := hjs.getLast_id hlast
      rw [← List.getLast?_map] at this
      exact List.mem_of_getLast? this
    cases chain_eq_error reg last hc with
    | unregistered hnone => exact absurd hnone (hids last hlastid)
    | dangling hasc hl hp hnone =>
      -- every parent named in the chain is one of its identifiers
      have hmem := mem_of_find? ((hreg _).symm.trans (hasc.registered _ (List.mem_of_getLast? hl)))
      rcases hjs.parent_mem _ hmem _ hp with h | h
      · cases h
      · exact absurd hnone (hids _ h)
    | @cycle cyc l p hasc hl hp hmem =>
      refine ⟨cyc.map (·.id), p, ?_, hasc.distinct, fun x hx => ?_, hmem, hrun.trans rfl⟩
      · have hne : cyc ≠ [] := by
          rintro rfl
          simp at hl
        obtain ⟨c, rest, rfl⟩ := List.exists_cons_of_ne_nil hne
        simp [hasc.start c rfl]
      · obtain ⟨d, hd, rfl⟩ := List.mem_map.mp hx
        rw [← hjs.ids]
        exact List.mem_map_of_mem (mem_of_find? ((hreg d.id).symm.trans (hasc.registered d hd)))

/-- Composing a sequence of schedules works exactly when the identifiers are distinct. With
distinct identifiers, the registry holds the sequence as one chain, each schedule extending
the one before it; the composition of the last identifier applies the identifiers in order
and is the only schedule of a sequence of one, or else the merge of them all, root first,
unless the merge's check finds errors, which are then reported. When an identifier comes
twice, a later registration replaces the earlier one, and composing fails with one problem: a
cycle of parent links from the last identifier, listing the distinct identifiers met and then
the first one met again. -/
theorem composeChain_outcome {last : String} {s : Schedule}
    (hlast : scripts.getLast? = some (last, s)) :
    ((scripts.map (·.1)).Nodup →
      ∃ reg, LinearChain none scripts reg ∧
        (scripts.length = 1 → (composeChain scripts).run'.1 = .ok (reg, ⟨s, [last]⟩)) ∧
        (2 ≤ scripts.length →
          ((Schedule.mergeChain (scripts.map (·.2))).check.filter (·.isError) = [] ∧
            (composeChain scripts).run'.1 =
              .ok (reg, ⟨Schedule.mergeChain (scripts.map (·.2)), scripts.map (·.1)⟩)) ∨
          ((Schedule.mergeChain (scripts.map (·.2))).check.filter (·.isError) ≠ [] ∧
            (composeChain scripts).run'.1 = .error
              ⟨((Schedule.mergeChain (scripts.map (·.2))).check.filter (·.isError)).map
                fun d => "Composed script for '" ++ last ++ "': " ++ d.text⟩))) ∧
    (¬ (scripts.map (·.1)).Nodup →
      ∃ cycle p, cycle.head? = some last ∧ cycle.Nodup ∧ (∀ x ∈ cycle, x ∈ scripts.map (·.1)) ∧
        p ∈ cycle ∧ (composeChain scripts).run'.1 =
          .error ⟨["Cycle in parent links: " ++ " -> ".intercalate (cycle ++ [p])]⟩) := by
  obtain ⟨reg, js, hjs, hreg, hregjs, hrun⟩ := composeChain_registers hlast
  refine ⟨fun hnodup => ?_, fun hdup => composeChain_repeated hlast hjs hreg hdup hrun⟩
  -- distinct identifiers: the registry is the chain
  obtain rfl := hregjs hnodup
  exact ⟨_, hjs, composeChain_distinct hlast hjs hnodup hrun⟩

/-- A regional schedule: the size of the entity, whether the application was filed online,
and a filing fee halved for a small entity. -/
def regionalSchedule : Schedule :=
  ⟨[⟨"entity", "Entity", .list [⟨"small", "Small"⟩, ⟨"large", "Large"⟩] "small", none⟩,
      ⟨"online", "Filed online", .boolean false, none⟩],
    [⟨"filing", [⟨.num (Decimal.ofNat 50), some (.binary .eq (.ref "entity") (.sym "small"))⟩,
      ⟨.num (Decimal.ofNat 100), none⟩], [], false, none⟩],
    [], [], [.complete "filing"], some ⟨"2024", none⟩⟩

/-- A national schedule: a third size of entity, the default, and an optional search fee. -/
def nationalSchedule : Schedule :=
  ⟨[⟨"entity", "Entity",
      .list [⟨"small", "Small"⟩, ⟨"large", "Large"⟩, ⟨"micro", "Micro"⟩] "micro", none⟩],
    [⟨"search", [⟨.ref "base", none⟩], [⟨"base", .num (Decimal.ofNat 10)⟩], true, none⟩],
    [], [], [], none⟩

/-- A national schedule given after a regional one composes into their merge, applied in that
order; given again after the national one, the regional identifier closes a cycle of parent
links. -/
theorem regional_national_sequence :
    (∃ reg, LinearChain none [("EP", regionalSchedule), ("DE", nationalSchedule)] reg ∧
      (composeChain [("EP", regionalSchedule), ("DE", nationalSchedule)]).run'.1 =
        .ok (reg, ⟨Schedule.mergeChain [regionalSchedule, nationalSchedule], ["EP", "DE"]⟩)) ∧
    ∃ cycle p, cycle.head? = some "EP" ∧ cycle.Nodup ∧ (∀ x ∈ cycle, x ∈ ["EP", "DE", "EP"]) ∧
      p ∈ cycle ∧ (composeChain [("EP", regionalSchedule), ("DE", nationalSchedule),
        ("EP", regionalSchedule)]).run'.1 =
          .error ⟨["Cycle in parent links: " ++ " -> ".intercalate (cycle ++ [p])]⟩ := by
  have hdistinct := composeChain_outcome
    (show [("EP", regionalSchedule), ("DE", nationalSchedule)].getLast? =
      some ("DE", nationalSchedule) from rfl)
  have hrepeated := composeChain_outcome
    (show [("EP", regionalSchedule), ("DE", nationalSchedule), ("EP", regionalSchedule)].getLast? =
      some ("EP", regionalSchedule) from rfl)
  -- the merge passes its check, so the two distinct identifiers compose
  have hcheck : (Schedule.mergeChain [regionalSchedule, nationalSchedule]).check.filter
      (·.isError) = [] := by decide +kernel
  obtain ⟨reg, hchain, -, hmerge⟩ := hdistinct.1 (by decide)
  refine ⟨⟨reg, hchain, ?_⟩, hrepeated.2 (by decide)⟩
  rcases hmerge (by decide) with ⟨-, hok⟩ | ⟨hfails, -⟩
  · exact hok
  · exact absurd hcheck hfails

end FeeSchedule
