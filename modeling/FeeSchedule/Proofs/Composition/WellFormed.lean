import FeeSchedule.Proofs.Check.Weakening
import FeeSchedule.Proofs.Composition.Chain
import Mathlib.Data.List.Induction
import Mathlib.Data.List.Nodup

/-!
# `FeeSchedule.Proofs.Composition.WellFormed`: composing checked schedules

A merged chain is checked again, and an error in it makes the composition fail. When every
schedule of the chain is checked, the merge is checked too, under two conditions on the
overrides: a level that redeclares an input keeps the kind of the declaration it replaces
and all of its choices (`Input.KeptBy`), and no `LET` variable is named like an input of
another level. Every declaration of the merge is then checked among inputs that extend those
of its own level (`Scope.Extends`), and the checker finds nothing its own level did not.

* `repeated_eq_nil_iff`: the duplicate check passes exactly on lists without repeats, so a
  checked schedule names each declaration once (`Schedule.Checked.distinctNames`).
* `Schedule.checked_of_faults`: a schedule is checked when each part of its check is.
* `Schedule.keptBy_mergeChain`: every input of a level is kept by the merged input of its
  name, by induction over the chain from its root.
* `Schedule.mergeChain_checked`: the merge of checked schedules with compatible overrides is
  checked.
* `compose_keeps_checked`: composing along such a chain fails with no error.
-/

set_option autoImplicit false

namespace FeeSchedule

/-! ### Duplicates -/

/-- The duplicate check finds nothing exactly when no name repeats. -/
theorem repeated_eq_nil_iff {names : List String} : repeated names = [] ↔ names.Nodup := by
  rw [List.nodup_iff_count_le_one]
  simp only [repeated, List.filter_eq_nil_iff, List.mem_map, List.mem_eraseDups]
  constructor
  · intro h a
    by_cases ha : a ∈ names
    · simpa using h (a, names.count a) ⟨a, ha, rfl⟩
    · simp [List.count_eq_zero.mpr ha]
  · rintro h _ ⟨a, -, rfl⟩
    simpa using h a

theorem duplicateFaults_eq_nil_iff {what : String} {names : List String} :
    duplicateFaults what names = [] ↔ names.Nodup := by
  rw [duplicateFaults, List.map_eq_nil_iff, repeated_eq_nil_iff]

theorem noCases_not_mem_duplicateFaults {what : String} {names : List String} :
    TypeFault.noCases ∉ duplicateFaults what names := by
  simp [duplicateFaults]

theorem ofFault_isError_eq_false {e : Option String} {x : TypeFault} :
    (Diagnostic.ofFault e x).isError = false ↔ x = .noCases := by
  cases x <;> simp [Diagnostic.ofFault, Diagnostic.isError, TypeFault.severity]

/-! ### The parts of a check -/

namespace Schedule

variable {s : Schedule}

instance : DecidablePred Checked := fun s =>
  inferInstanceAs (Decidable (∀ d ∈ s.check, d.isError = false))

/-- A schedule is checked when it names each declaration once, its inputs and fees have no
fault but the warning of a fee without cases, and its returns and directives have none. -/
theorem checked_of_faults (hn : s.DistinctNames)
    (hi : ∀ i ∈ s.inputs, ∀ x ∈ s.inputFaults i, x = .noCases)
    (hf : ∀ f ∈ s.fees, ∀ x ∈ s.feeFaults f, x = .noCases)
    (hr : ∀ r ∈ s.returns, s.returnFaults r = [])
    (hd : ∀ d ∈ s.directives, s.directiveFaults d = []) : s.Checked := by
  intro d hdm
  have hdups : duplicateFaults "Input" s.inputNames = [] ∧ duplicateFaults "Fee" s.feeNames = [] ∧
      duplicateFaults "Group" (s.groups.map (·.name)) = [] ∧
      duplicateFaults "Return" (s.returns.map (·.symbol)) = [] :=
    ⟨duplicateFaults_eq_nil_iff.mpr hn.inputs, duplicateFaults_eq_nil_iff.mpr hn.fees,
      duplicateFaults_eq_nil_iff.mpr hn.groups, duplicateFaults_eq_nil_iff.mpr hn.returns⟩
  simp only [check, hdups.1, hdups.2.1, hdups.2.2.1, hdups.2.2.2, List.append_nil,
    List.map_nil, List.nil_append, List.mem_append, List.mem_flatMap, List.mem_map] at hdm
  rcases hdm with ((⟨i, hi', x, hx, rfl⟩ | ⟨f, hf', x, hx, rfl⟩) | ⟨r, hr', x, hx, rfl⟩) |
    ⟨e, he, x, hx, rfl⟩
  · exact ofFault_isError_eq_false.mpr (hi i hi' x hx)
  · exact ofFault_isError_eq_false.mpr (hf f hf' x hx)
  · rw [hr r hr'] at hx
    cases hx
  · rw [hd e he] at hx
    cases hx

/-- A checked schedule names each of its declarations once: a repeat is an error. -/
theorem Checked.distinctNames (h : s.Checked) : s.DistinctNames := by
  have hnil : ∀ {what : String} {names : List String},
      (∀ x ∈ duplicateFaults what names, x = .noCases) → names.Nodup := fun hx =>
    duplicateFaults_eq_nil_iff.mp (eq_nil_of_noCases hx noCases_not_mem_duplicateFaults)
  have hdup : ∀ x, x ∈ duplicateFaults "Input" s.inputNames ∨ x ∈ duplicateFaults "Fee" s.feeNames ∨
      x ∈ duplicateFaults "Group" (s.groups.map (·.name)) ∨
      x ∈ duplicateFaults "Return" (s.returns.map (·.symbol)) → x = .noCases := by
    intro x hx
    refine ofFault_isError_eq_false.mp (h (Diagnostic.ofFault none x) ?_)
    simp only [check, List.mem_append, List.mem_map, List.mem_flatMap]
    refine .inl (.inl (.inl (.inl ⟨x, ?_, rfl⟩)))
    rcases hx with hx | hx | hx | hx
    · exact .inl (.inl (.inl hx))
    · exact .inl (.inl (.inr hx))
    · exact .inl (.inr hx)
    · exact .inr hx
  exact ⟨hnil fun x hx => hdup x (.inl hx), hnil fun x hx => hdup x (.inr (.inl hx)),
    hnil fun x hx => hdup x (.inr (.inr (.inl hx))), hnil fun x hx => hdup x (.inr (.inr (.inr hx)))⟩

theorem Checked.inputFaults (h : s.Checked) {i : Input} (hi : i ∈ s.inputs) :
    ∀ x ∈ s.inputFaults i, x = .noCases := by
  intro x hx
  refine ofFault_isError_eq_false.mp (h (Diagnostic.ofFault (some ("input " ++ i.name)) x) ?_)
  simp only [check, List.mem_append, List.mem_flatMap, List.mem_map]
  exact .inl (.inl (.inl (.inr ⟨i, hi, x, hx, rfl⟩)))

theorem Checked.directiveFaults (h : s.Checked) {d : Directive} (hd : d ∈ s.directives) :
    ∀ x ∈ s.directiveFaults d, x = .noCases := by
  intro x hx
  refine ofFault_isError_eq_false.mp (h (Diagnostic.ofFault (some ("verify " ++ d.fee)) x) ?_)
  simp only [check, List.mem_append, List.mem_flatMap, List.mem_map]
  exact .inr ⟨d, hd, x, hx, rfl⟩

/-- Variables typed without fault are not named like an input of the schedule. -/
theorem varFaults_names : ∀ {sc : Scope} {vars : List LetVar}, (s.varFaults sc vars).1 = [] →
    ∀ v ∈ vars, v.name ∉ s.inputNames
  | _, [], _ => by simp
  | sc, w :: ws, hf => by
    rcases hi : infer sc w.expr with ⟨t, fs⟩
    simp only [varFaults, hi, List.append_eq_nil_iff] at hf
    intro v hv
    rcases List.mem_cons.mp hv with rfl | hv
    · -- a variable named like an input is reported as shadowing it
      intro hin
      have hany : s.inputs.any (·.name == v.name) = true := by simpa [inputNames] using hin
      simp [hany] at hf
    · exact varFaults_names hf.2 v hv

theorem Checked.var_not_input (h : s.Checked) {f : Fee} (hf : f ∈ s.fees) {v : LetVar}
    (hv : v ∈ f.vars) : v.name ∉ s.inputNames :=
  varFaults_names (h.varFaults hf) v hv

/-- An input without errors in `s` has the same faults in a schedule with more groups. -/
theorem inputFaults_of_groups {s' : Schedule} {i : Input}
    (hg : ∀ g ∈ s.groups.map (·.name), g ∈ s'.groups.map (·.name))
    (hi : ∀ x ∈ s.inputFaults i, x = .noCases) : s'.inputFaults i = s.inputFaults i := by
  unfold inputFaults at hi ⊢
  cases hgi : i.group with
  | none => rfl
  | some g =>
    simp only [hgi] at hi ⊢
    -- the group is declared in `s`, since an undeclared group is an error
    have hany : s.groups.any (·.name == g) = true := by
      by_contra hn
      have hx := hi (.groupUndeclared g) (by simp [hn])
      cases hx
    have hany' : s'.groups.any (·.name == g) = true := by
      have hmem : g ∈ s.groups.map (·.name) := by simpa using hany
      simpa using hg g hmem
    simp only [hany, hany', if_true]

/-- A directive without errors in `s` has none in a schedule with more fees and inputs. -/
theorem directiveFaults_of_names {s' : Schedule} {d : Directive}
    (hfees : ∀ n ∈ s.feeNames, n ∈ s'.feeNames) (hinputs : ∀ n ∈ s.inputNames, n ∈ s'.inputNames)
    (hd : ∀ x ∈ s.directiveFaults d, x = .noCases) : s'.directiveFaults d = [] := by
  have h0 : s.directiveFaults d = [] :=
    eq_nil_of_noCases hd (by unfold directiveFaults; split <;> split <;> simp)
  have hfee : ∀ {f : String}, s.fees.any (·.name == f) = true → s'.fees.any (·.name == f) = true :=
    fun hf => by simpa [feeNames] using hfees _ (by simpa [feeNames] using hf)
  have hin : ∀ {x : String}, s.inputs.any (·.name == x) = true →
      s'.inputs.any (·.name == x) = true :=
    fun hx => by simpa [inputNames] using hinputs _ (by simpa [inputNames] using hx)
  unfold directiveFaults at h0 ⊢
  rw [List.append_eq_nil_iff] at h0
  rw [List.append_eq_nil_iff]
  constructor
  · have hf : s.fees.any (·.name == d.fee) = true := by
      by_contra hn
      simp [hn] at h0
    simp [hfee hf]
  · cases d with
    | complete _ => rfl
    | monotonic _ x _ =>
      have hx : s.inputs.any (·.name == x) = true := by
        by_contra hn
        simp [hn] at h0
      simp [hin hx]

end Schedule

/-! ### Redeclared inputs -/

/-- `y` keeps the input `x` it redeclares: it has `x`'s kind, and every choice of `x` is one
of its own. -/
def Input.KeptBy (x y : Input) : Prop := y.spec.kind = x.spec.kind ∧ x.symbols ⊆ y.symbols

instance (x y : Input) : Decidable (x.KeptBy y) := inferInstanceAs (Decidable (_ ∧ _))

namespace Input.KeptBy

theorem refl (x : Input) : x.KeptBy x := ⟨rfl, List.Subset.refl _⟩

theorem trans {x y z : Input} (h₁ : x.KeptBy y) (h₂ : y.KeptBy z) : x.KeptBy z :=
  ⟨h₂.1.trans h₁.1, List.Subset.trans h₁.2 h₂.2⟩

/-- An input of the same name and kind has the same type. -/
theorem exprType {x y : Input} (h : x.KeptBy y) (hn : y.name = x.name) :
    y.exprType = x.exprType := by
  obtain ⟨hk, -⟩ := h
  unfold Input.exprType
  rw [hn]
  cases hx : x.spec <;> cases hy : y.spec <;> simp_all [InputSpec.kind]

end Input.KeptBy

/-- The input named like `y` in a list that names each input once is `y`. -/
theorem find?_name_eq_some {l : List Input} (hl : (l.map (·.name)).Nodup) {y : Input}
    (hy : y ∈ l) : l.find? (·.name == y.name) = some y := by
  cases hf : l.find? (·.name == y.name) with
  | none => exact absurd (List.find?_eq_none.mp hf y hy) (by simp)
  | some z =>
    have hzn : z.name = y.name := by simpa using List.find?_some hf
    rw [List.inj_on_of_nodup_map hl (List.mem_of_find?_eq_some hf) hy hzn]

/-- Inputs that keep each input of `is` under its name extend its scope. -/
theorem Scope.extends_ofInputs {is is' : List Input} (hnodup : (is'.map (·.name)).Nodup)
    (h : ∀ x ∈ is, ∃ y ∈ is', y.name = x.name ∧ x.KeptBy y) :
    (Scope.ofInputs is).Extends (Scope.ofInputs is') where
  lookup {n t} hn := by
    simp only [Scope.lookup, Scope.ofInputs, List.lookup_nil] at hn ⊢
    cases hf : is.find? (·.name == n) with
    | none =>
      rw [hf] at hn
      cases hn
    | some x =>
      rw [hf] at hn
      have hxn : x.name = n := by simpa using List.find?_some hf
      obtain ⟨y, hy, hyn, hk⟩ := h x (List.mem_of_find?_eq_some hf)
      rw [← hxn, ← hyn, find?_name_eq_some hnodup hy, Option.map_some, hk.exprType hyn]
      exact hn
  symbols {l s} hs := by
    simp only [Scope.symbols, Scope.ofInputs] at hs ⊢
    cases hf : is.find? (·.name == l) with
    | none =>
      rw [hf] at hs
      cases hs
    | some x =>
      rw [hf] at hs
      have hxn : x.name = l := by simpa using List.find?_some hf
      obtain ⟨y, hy, hyn, hk⟩ := h x (List.mem_of_find?_eq_some hf)
      rw [← hxn, ← hyn, find?_name_eq_some hnodup hy]
      exact hk.2 hs

/-! ### Merging a chain -/

section MergeByName

variable {α : Type} {key : α → String} {inherited declared : List α}

/-- An inherited entry that the child does not redeclare stays. -/
theorem mem_mergeByName_of_inherited {i : α} (hi : i ∈ inherited)
    (hk : key i ∉ declared.map key) : i ∈ mergeByName key inherited declared := by
  have hnone : declared.reverse.find? (key · == key i) = none := by
    rw [List.find?_eq_none]
    intro y hy hyk
    exact hk (List.mem_map.mpr ⟨y, List.mem_reverse.mp hy, by simpa using hyk⟩)
  simp only [mergeByName, List.mem_append, List.mem_map]
  exact .inl ⟨i, hi, by simp [hnone]⟩

/-- Every entry of a child that names each entry once is in the merge: in the place of the
inherited entry it replaces, or after the inherited ones. -/
theorem mem_mergeByName_of_declared (hd : (declared.map key).Nodup) {y : α} (hy : y ∈ declared) :
    y ∈ mergeByName key inherited declared := by
  simp only [mergeByName, List.mem_append, List.mem_map, List.mem_filter]
  by_cases hk : key y ∈ inherited.map key
  · obtain ⟨i, hi, hik⟩ := List.mem_map.mp hk
    refine .inl ⟨i, hi, ?_⟩
    cases hf : declared.reverse.find? (key · == key i) with
    | none => exact absurd (List.find?_eq_none.mp hf y (List.mem_reverse.mpr hy)) (by simp [hik])
    | some z =>
      have hz : z ∈ declared := List.mem_reverse.mp (List.mem_of_find?_eq_some hf)
      have hzk : key z = key i := by simpa using List.find?_some hf
      simpa using List.inj_on_of_nodup_map hd hz hy (hzk.trans hik)
  · exact .inr ⟨hy, by simpa using hk⟩

end MergeByName

theorem DeclaredLast.exists_mem {α : Type} {key : α → String} {levels : List (List α)} {x : α}
    (h : DeclaredLast key levels x) : ∃ l ∈ levels, x ∈ l := by
  obtain ⟨pre, l, post, rfl, hx, -⟩ := h
  exact ⟨l, by simp, hx⟩

namespace Schedule

variable {chain : List Schedule} {m : Schedule}

theorem MergeOf.mem_inputs (h : m.MergeOf chain) {x : Input} (hx : x ∈ m.inputs) :
    ∃ s ∈ chain, x ∈ s.inputs := by
  obtain ⟨l, hl, hxl⟩ := (h.inputs.last x hx).exists_mem
  obtain ⟨s, hs, rfl⟩ := List.mem_map.mp hl
  exact ⟨s, hs, hxl⟩

theorem MergeOf.mem_fees (h : m.MergeOf chain) {f : Fee} (hf : f ∈ m.fees) :
    ∃ s ∈ chain, f ∈ s.fees := by
  obtain ⟨l, hl, hfl⟩ := (h.fees.last f hf).exists_mem
  obtain ⟨s, hs, rfl⟩ := List.mem_map.mp hl
  exact ⟨s, hs, hfl⟩

theorem MergeOf.mem_returns (h : m.MergeOf chain) {r : Return} (hr : r ∈ m.returns) :
    ∃ s ∈ chain, r ∈ s.returns := by
  obtain ⟨l, hl, hrl⟩ := (h.returns.last r hr).exists_mem
  obtain ⟨s, hs, rfl⟩ := List.mem_map.mp hl
  exact ⟨s, hs, hrl⟩

theorem MergeOf.mem_directives (h : m.MergeOf chain) {d : Directive} (hd : d ∈ m.directives) :
    ∃ s ∈ chain, d ∈ s.directives := by
  rw [h.directives, List.mem_eraseDups, List.mem_flatMap] at hd
  exact hd

/-- Each input of a level of a chain is kept by the merged input of its name, when each
redeclaration keeps the declaration it replaces. -/
theorem keptBy_mergeChain (hnames : ∀ s ∈ chain, s.DistinctNames)
    (hkeep : ∀ pre s post, chain = pre ++ s :: post → ∀ y ∈ s.inputs,
      ∀ x ∈ (mergeChain pre).inputs, x.name = y.name → x.KeptBy y) :
    ∀ L ∈ chain, ∀ x ∈ L.inputs, ∃ y ∈ (mergeChain chain).inputs, y.name = x.name ∧ x.KeptBy y := by
  -- the invariant holds of every prefix of the chain, by induction from its root
  suffices key : ∀ pre post, chain = pre ++ post → ∀ L ∈ pre, ∀ x ∈ L.inputs,
      ∃ y ∈ (mergeChain pre).inputs, y.name = x.name ∧ x.KeptBy y from
    key chain [] (by simp)
  intro pre
  induction pre using List.reverseRecOn with
  | nil => simp
  | append_singleton pre s ih =>
    intro post hchain L hL x hx
    have hsplit : chain = pre ++ s :: post := by simpa using hchain
    have hs : (s.inputs.map (·.name)).Nodup := (hnames s (by simp [hsplit])).inputs
    have hmerge : (mergeChain (pre ++ [s])).inputs =
        mergeByName (·.name) (mergeChain pre).inputs s.inputs := by
      simp [mergeChain, List.foldl_append, extend]
    rw [hmerge]
    rcases List.mem_append.mp hL with hL | hL
    · -- an earlier level: its input is kept by the merged one, which `s` may replace
      obtain ⟨z, hz, hzn, hxz⟩ := ih (s :: post) hsplit L hL x hx
      by_cases hk : z.name ∈ s.inputs.map (·.name)
      · obtain ⟨y, hy, hyn⟩ := List.mem_map.mp hk
        exact ⟨y, mem_mergeByName_of_declared hs hy, hyn.trans hzn,
          hxz.trans (hkeep pre s post hsplit y hy z hz hyn.symm)⟩
      · exact ⟨z, mem_mergeByName_of_inherited hz hk, hzn, hxz⟩
    · -- the new level's own declaration stands in the merge
      rw [List.mem_singleton.mp hL] at hx
      exact ⟨x, mem_mergeByName_of_declared hs hx, rfl, .refl x⟩

/-- In a chain of two schedules only the second replaces inputs, those of the first. -/
theorem keptBy_pair {a b : Schedule} (hab : chain = [a, b])
    (h : ∀ y ∈ b.inputs, ∀ x ∈ (mergeChain [a]).inputs, x.name = y.name → x.KeptBy y) :
    ∀ pre s post, chain = pre ++ s :: post → ∀ y ∈ s.inputs,
      ∀ x ∈ (mergeChain pre).inputs, x.name = y.name → x.KeptBy y := by
  intro pre s post hsplit
  subst hab
  rcases pre with _ | ⟨p, _ | ⟨q, pre⟩⟩
  · -- nothing is merged before the root
    simp [mergeChain, empty]
  · simp only [List.cons_append, List.nil_append, List.cons.injEq] at hsplit
    obtain ⟨rfl, rfl, -⟩ := hsplit
    exact h
  · simp at hsplit

/-- The merge of a chain of checked schedules is checked, when each redeclared input keeps
the kind and the choices of the declaration it replaces and no variable of a fee is named
like an input of any level. -/
theorem mergeChain_checked (hchecked : ∀ s ∈ chain, s.Checked)
    (hkeep : ∀ pre s post, chain = pre ++ s :: post → ∀ y ∈ s.inputs,
      ∀ x ∈ (mergeChain pre).inputs, x.name = y.name → x.KeptBy y)
    (hvars : ∀ a ∈ chain, ∀ f ∈ a.fees, ∀ v ∈ f.vars, ∀ b ∈ chain, v.name ∉ b.inputNames) :
    (mergeChain chain).Checked := by
  have hnames : ∀ s ∈ chain, s.DistinctNames := fun s hs => (hchecked s hs).distinctNames
  have hm := mergeChain_mergeOf hnames
  -- each level's inputs are extended by the merged ones
  have hext : ∀ L ∈ chain, (Scope.ofInputs L.inputs).Extends (Scope.ofInputs (mergeChain chain).inputs) :=
    fun L hL => Scope.extends_ofInputs hm.inputs.nodup (keptBy_mergeChain hnames hkeep L hL)
  refine checked_of_faults ⟨hm.inputs.nodup, hm.fees.nodup, hm.groups.nodup, hm.returns.nodup⟩
    ?inputs ?fees ?returns ?directives
  case inputs =>
    intro i hi
    obtain ⟨L, hL, hiL⟩ := hm.mem_inputs hi
    have hg : ∀ g ∈ L.groups.map (·.name), g ∈ (mergeChain chain).groups.map (·.name) :=
      fun g hg => hm.groups.mem_keys.mpr ⟨_, List.mem_map_of_mem hL, hg⟩
    rw [inputFaults_of_groups hg ((hchecked L hL).inputFaults hiL)]
    exact (hchecked L hL).inputFaults hiL
  case fees =>
    intro f hf
    obtain ⟨L, hL, hfL⟩ := hm.mem_fees hf
    have hnot : ∀ v ∈ f.vars, v.name ∉ (mergeChain chain).inputNames := by
      intro v hv hvm
      obtain ⟨l, hl, hvl⟩ := hm.inputs.mem_keys.mp hvm
      obtain ⟨b, hb, rfl⟩ := List.mem_map.mp hl
      exact hvars L hL f hfL v hv b hb hvl
    rw [feeFaults_of_extends (hext L hL) hnot ((hchecked L hL).varFaults hfL)
      ((hchecked L hL).caseFaults hfL)]
    exact (hchecked L hL).feeFaults hfL
  case returns =>
    intro r hr
    obtain ⟨L, hL, hrL⟩ := hm.mem_returns hr
    exact returnFaults_of_extends (hext L hL) ((hchecked L hL).returnFaults hrL)
  case directives =>
    intro d hd
    obtain ⟨L, hL, hdL⟩ := hm.mem_directives hd
    exact directiveFaults_of_names
      (fun n hn => hm.fees.mem_keys.mpr ⟨_, List.mem_map_of_mem hL, hn⟩)
      (fun n hn => hm.inputs.mem_keys.mpr ⟨_, List.mem_map_of_mem hL, hn⟩)
      ((hchecked L hL).directiveFaults hdL)

end Schedule

/-! ### Composing a jurisdiction -/

namespace Registry

variable {target : String} {js : List Jurisdiction}

/-- The schedule of a chain is given, unless the chain merges to a schedule with errors. -/
theorem chainSchedule_ok (h : (Schedule.mergeChain (js.map (·.schedule))).Checked) :
    ∃ s, chainSchedule target js = .ok s := by
  unfold chainSchedule
  split
  · exact ⟨_, rfl⟩
  · have herr : ((Schedule.mergeChain (js.map (·.schedule))).check.filter (·.isError)).isEmpty :=
      List.isEmpty_iff.mpr (List.filter_eq_nil_iff.mpr fun d hd => by simp [h d hd])
    exact ⟨_, if_pos herr⟩

/-- Composing a jurisdiction gives the schedule of its chain, with the chain's identifiers. -/
theorem compose_of_chainSchedule {reg : Registry} {s : Schedule}
    (hchain : reg.chain target = .ok js) (hs : chainSchedule target js = .ok s) :
    (reg.compose target).run'.1 = .ok ⟨s, js.map (·.id)⟩ := by
  rw [Traced.run'_eq_run, compose_run, hchain]
  simp [bind, Except.bind, hs, Except.map]

end Registry

/-- Composition keeps schedules checked under compatible overrides. Take the chain of a
jurisdiction, each of its schedules checked without error. When every input that a level
redeclares keeps the kind and all the choices of the declaration it replaces (the input of
that name in the merge of the levels before), and no `LET` variable of a fee is named like
an input of another level, the merged schedule is checked without error; composing the
jurisdiction then fails with no error, and gives a checked schedule and the chain's
identifiers, root first. -/
theorem compose_keeps_checked {reg : Registry} {target : String} {js : List Jurisdiction}
    (hchain : reg.chain target = .ok js) (hchecked : ∀ j ∈ js, j.schedule.Checked)
    (hkinds : ∀ pre s post, js.map (·.schedule) = pre ++ s :: post → ∀ y ∈ s.inputs,
      ∀ x ∈ (Schedule.mergeChain pre).inputs, x.name = y.name → x.KeptBy y)
    (hvars : ∀ a ∈ js, ∀ b ∈ js, a ≠ b → ∀ f ∈ a.schedule.fees, ∀ v ∈ f.vars,
      v.name ∉ b.schedule.inputNames) :
    (Schedule.mergeChain (js.map (·.schedule))).Checked ∧
      ∃ c, (reg.compose target).run'.1 = .ok c ∧ c.schedule.Checked ∧
        c.applied = js.map (·.id) := by
  have hmerged : (Schedule.mergeChain (js.map (·.schedule))).Checked := by
    refine Schedule.mergeChain_checked (by simpa using hchecked) hkinds ?_
    -- on its own level a variable is not named like an input, by that level's check
    intro A hA f hf v hv B hB
    obtain ⟨a, ha, rfl⟩ := List.mem_map.mp hA
    obtain ⟨b, hb, rfl⟩ := List.mem_map.mp hB
    by_cases hab : a = b
    · subst hab
      exact (hchecked a ha).var_not_input hf hv
    · exact hvars a ha b hb hab f hf v hv
  obtain ⟨s, hs⟩ : ∃ s, Registry.chainSchedule target js = .ok s := Registry.chainSchedule_ok hmerged
  exact ⟨hmerged, ⟨s, js.map (·.id)⟩, Registry.compose_of_chainSchedule hchain hs,
    Registry.checked_chainSchedule hs hchecked, rfl⟩

/-- A national schedule extending a regional one: it redeclares the list input `entity` with
one more choice and adds an optional fee with a variable, while the regional fee still
compares `entity` with one of the choices it knew. The chain is the registry itself. -/
theorem national_override_keeps_checked :
    ∃ reg : Registry, reg = [
        ⟨"EP", "Regional",
          ⟨[⟨"entity", "Entity", .list [⟨"small", "Small"⟩, ⟨"large", "Large"⟩] "small", none⟩,
              ⟨"online", "Filed online", .boolean false, none⟩],
            [⟨"filing", [⟨.num (Decimal.ofNat 50), some (.binary .eq (.ref "entity") (.sym "small"))⟩,
              ⟨.num (Decimal.ofNat 100), none⟩], [], false, none⟩],
            [], [], [.complete "filing"], some ⟨"2024", none⟩⟩, none⟩,
        ⟨"DE", "National",
          ⟨[⟨"entity", "Entity",
              .list [⟨"small", "Small"⟩, ⟨"large", "Large"⟩, ⟨"micro", "Micro"⟩] "micro", none⟩],
            [⟨"search", [⟨.ref "base", none⟩], [⟨"base", .num (Decimal.ofNat 10)⟩], true, none⟩],
            [], [], [], none⟩, some "EP"⟩] ∧
      reg.chain "DE" = .ok reg ∧ (∀ j ∈ reg, j.schedule.Checked) ∧
      (∀ pre s post, reg.map (·.schedule) = pre ++ s :: post → ∀ y ∈ s.inputs,
        ∀ x ∈ (Schedule.mergeChain pre).inputs, x.name = y.name → x.KeptBy y) ∧
      (∀ a ∈ reg, ∀ b ∈ reg, a ≠ b → ∀ f ∈ a.schedule.fees, ∀ v ∈ f.vars,
        v.name ∉ b.schedule.inputNames) ∧
      (Schedule.mergeChain (reg.map (·.schedule))).Checked ∧
      ∃ c, (reg.compose "DE").run'.1 = .ok c ∧ c.schedule.Checked ∧ c.applied = reg.map (·.id) := by
  refine ⟨_, rfl, ?_⟩
  refine (fun hchain hchecked hkinds hvars => ⟨hchain, hchecked, hkinds, hvars,
    compose_keeps_checked hchain hchecked hkinds hvars⟩) rfl (by decide)
    (Schedule.keptBy_pair rfl (by decide)) ?_
  -- the only variable, `base`, is named like no input of either level
  intro a ha b hb _ f hf v hv
  simp only [List.mem_cons, List.not_mem_nil, or_false] at ha hb
  rcases ha with rfl | rfl <;> rcases hb with rfl | rfl <;>
    simp_all [Schedule.inputNames]

end FeeSchedule
