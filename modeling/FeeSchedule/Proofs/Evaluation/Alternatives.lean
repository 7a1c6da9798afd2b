import FeeSchedule.Proofs.Evaluation.WhatIf
import FeeSchedule.Proofs.Evaluation.Symbols
import FeeSchedule.Proofs.Decimal.Order

/-!
# `FeeSchedule.Proofs.Evaluation.Alternatives`: the values a what-if analysis tries

A what-if analysis changes one input at a time to each of its alternatives
(`Input.alternatives`): the candidates of the input (the other truth value, every choice,
each choice toggled, the bounds and the default, zero and the default) without the current
value and without repeats. Values are told apart as `BoundValue.same` does: numbers by
value, selections as sets, the rest as they are (`BoundValue.identity`).

* `BoundValue.same_eq`: the comparison of a finite candidate with any value is equality of
  their identities, when it does not signal.
* `Alternatives.Kept`: the invariant of the fold that removes the current value and the
  repeats, kept by each of its three steps (`Kept.skip_current`, `Kept.skip_repeat`,
  `Kept.keep`); `Input.alternatives_kept` carries it through the whole fold.
* `Input.checkValue_candidate`, `Input.checkValue_default`: every candidate and the default
  of an input that passes its check pass the check of values.
* `Input.alternatives_spec`: the alternatives of an input that passes its check, from a value
  that passes the check of the input, are distinct from it and from one another, pass the
  check, and are as many as its kind says (`Input.AlternativesOf`, `Input.alternativeCount`).
-/

set_option autoImplicit false

namespace FeeSchedule

/-! ### Telling values apart -/

/-- What tells bound values apart: numbers by their place on the extended line, selections by
their set of symbols, the other values as they are. -/
def BoundValue.identity : BoundValue → WithBot (WithTop ℚ) ⊕ BoundValue
  | .number d => .inl d.extended
  | .selection ss => .inr (.selection (symbolSet ss))
  | v => .inr v

/-- Comparing a finite number with another number is equality of values, when it does not
signal: a quiet NaN equals nothing, and has no place beside a finite number. -/
theorem Decimal.equals_eq {a b : Decimal} {x : Bool} (ha : a.isFinite)
    (h : Decimal.equals a b = .ok x) : x = decide (a.extended = b.extended) := by
  obtain ⟨s, c, e, rfl⟩ := Decimal.eq_finite_of_isFinite ha
  unfold Decimal.equals at h
  cases b with
  | nan t signaling k =>
    cases signaling
    · cases h
      simp [Decimal.extended]
    · cases h
  | infinite t =>
    cases h
    rw [Decimal.compareNumbers_eq rfl rfl, compare_beq_eq]
  | finite t d f =>
    cases h
    rw [Decimal.compareNumbers_eq rfl rfl, compare_beq_eq]

/-- Comparing a finite value with any value is equality of their identities, when it does not
signal. -/
theorem BoundValue.same_eq {a b : BoundValue} {x : Bool} (ha : a.Finite) (h : a.same b = .ok x) :
    x = decide (a.identity = b.identity) := by
  cases a <;> cases b
  case number.number c d =>
    rw [Decimal.equals_eq ha h]
    simp [BoundValue.identity]
  all_goals
    cases h
    rw [Bool.eq_iff_iff]
    simp [BoundValue.identity]

/-- Looking for a finite value among others finds one of its identity. -/
theorem sameAsAny_eq {c : BoundValue} (hc : c.Finite) :
    ∀ {ws : List BoundValue} {x : Bool}, sameAsAny c ws = .ok x →
      (x = true ↔ c.identity ∈ ws.map BoundValue.identity)
  | [], x, h => by
    cases h
    simp
  | w :: ws, x, h => by
    rw [sameAsAny] at h
    obtain ⟨y, hy, h⟩ := bind_eq_ok.mp h
    have hy := BoundValue.same_eq hc hy
    cases y
    · simp only [Bool.false_eq_true, if_false] at h
      rw [sameAsAny_eq hc h, List.map_cons, List.mem_cons]
      simp_all
    · cases h
      simp_all

/-! ### Removing the current value and the repeats -/

namespace Alternatives

/-- The values kept from the candidates `seen`, in order: those not the same as `current` or as
one kept before them. So no two have one identity, and theirs are those of the candidates
other than the current value's. -/
structure Kept (current : BoundValue) (seen kept : List BoundValue) : Prop where
  sublist : kept.Sublist seen
  distinct : (kept.map BoundValue.identity).Nodup
  keys : ∀ k, k ∈ kept.map BoundValue.identity ↔
    k ∈ seen.map BoundValue.identity ∧ k ≠ current.identity

theorem Kept.nil (current : BoundValue) : Kept current [] [] :=
  ⟨List.Sublist.slnil, List.nodup_nil, by simp⟩

theorem Kept.sublist_append {current : BoundValue} {seen kept : List BoundValue}
    (h : Kept current seen kept) (c : BoundValue) : kept.Sublist (seen ++ [c]) :=
  h.sublist.trans (List.sublist_append_left seen [c])

/-- A candidate the same as the current value is dropped: its identity is left out anyway. -/
theorem Kept.skip_current {current c : BoundValue} {seen kept : List BoundValue}
    (h : Kept current seen kept) (hc : c.Finite) (hx : c.same current = .ok true) :
    Kept current (seen ++ [c]) kept := by
  have hcur : c.identity = current.identity := by simpa using BoundValue.same_eq hc hx
  refine ⟨h.sublist_append c, h.distinct, fun k => ?_⟩
  rw [h.keys k]
  simp only [List.map_append, List.map_cons, List.map_nil, List.mem_append, List.mem_singleton]
  constructor
  · exact fun hk => ⟨.inl hk.1, hk.2⟩
  · rintro ⟨hk | rfl, hne⟩
    · exact ⟨hk, hne⟩
    · exact absurd hcur hne

/-- A candidate the same as one kept already is dropped: its identity is there. -/
theorem Kept.skip_repeat {current c : BoundValue} {seen kept : List BoundValue}
    (h : Kept current seen kept) (hc : c.Finite) (hy : sameAsAny c kept = .ok true) :
    Kept current (seen ++ [c]) kept := by
  have hkept : c.identity ∈ kept.map BoundValue.identity := (sameAsAny_eq hc hy).mp rfl
  refine ⟨h.sublist_append c, h.distinct, fun k => ?_⟩
  simp only [List.map_append, List.map_cons, List.map_nil, List.mem_append, List.mem_singleton]
  constructor
  · intro hk
    exact ⟨.inl ((h.keys k).mp hk).1, ((h.keys k).mp hk).2⟩
  · rintro ⟨hk | rfl, hne⟩
    · exact (h.keys k).mpr ⟨hk, hne⟩
    · exact hkept

/-- Any other candidate is kept. -/
theorem Kept.keep {current c : BoundValue} {seen kept : List BoundValue}
    (h : Kept current seen kept) (hc : c.Finite) (hx : c.same current = .ok false)
    (hy : sameAsAny c kept = .ok false) : Kept current (seen ++ [c]) (kept ++ [c]) := by
  have hcur : c.identity ≠ current.identity := by simpa using BoundValue.same_eq hc hx
  have hnew : c.identity ∉ kept.map BoundValue.identity := fun hk =>
    Bool.false_ne_true ((sameAsAny_eq hc hy).mpr hk)
  refine ⟨h.sublist.append (List.Sublist.refl _), ?_, fun k => ?_⟩
  · rw [List.map_append, List.nodup_append]
    refine ⟨h.distinct, List.nodup_singleton _, fun a ha b hb hab => hnew ?_⟩
    rw [List.map_cons, List.map_nil, List.mem_singleton] at hb
    rw [← hb, ← hab]
    exact ha
  · simp only [List.map_append, List.map_cons, List.map_nil, List.mem_append,
      List.mem_singleton, h.keys k]
    constructor
    · rintro (⟨hk, hne⟩ | rfl)
      · exact ⟨.inl hk, hne⟩
      · exact ⟨.inr rfl, hcur⟩
    · rintro ⟨hk | rfl, hne⟩
      · exact .inl ⟨hk, hne⟩
      · exact .inr rfl

/-- The values kept are as many as the identities of the candidates other than the current
value's. -/
theorem Kept.length_eq {current : BoundValue} {seen kept : List BoundValue}
    (h : Kept current seen kept) :
    kept.length = ((seen.map BoundValue.identity).toFinset.erase current.identity).card := by
  have hlen : kept.length = (kept.map BoundValue.identity).length := by simp
  rw [hlen, ← List.toFinset_card_of_nodup h.distinct]
  congr 1
  ext k
  simp [h.keys k, and_comm]

end Alternatives

/-- Counting the distinct images of a list other than the image of `a` under an injective
map counts the distinct members other than `a`. -/
theorem card_erase_map {α β : Type} [DecidableEq α] [DecidableEq β] {f : α → β}
    (hf : Function.Injective f) (l : List α) (a : α) :
    ((l.map f).toFinset.erase (f a)).card = (l.toFinset.erase a).card := by
  have himage : (l.map f).toFinset.erase (f a) = (l.toFinset.erase a).image f := by
    ext b
    simp only [Finset.mem_erase, List.mem_toFinset, List.mem_map, Finset.mem_image]
    constructor
    · rintro ⟨hne, x, hx, rfl⟩
      exact ⟨x, ⟨fun h => hne (h ▸ rfl), hx⟩, rfl⟩
    · rintro ⟨x, ⟨hne, hx⟩, rfl⟩
      exact ⟨fun h => hne (hf h), x, hx, rfl⟩
  rw [himage, Finset.card_image_of_injective _ hf]

open Alternatives in
/-- The alternatives of an input with finite numbers are its candidates kept by the fold. -/
theorem Input.alternatives_kept {i : Input} (hi : i.spec.numbersFinite) {current : BoundValue}
    {alts : List BoundValue} (h : i.alternatives current = .ok alts) :
    Kept current (i.candidates current) alts := by
  unfold Input.alternatives at h
  have hfold := foldlM_seen_invariant (P := Kept current)
    (fun seen c kept kept' hc hkept hstep => ?_) (Kept.nil current) h
  · simpa using hfold
  · have hcf := i.candidates_finite hi current c hc
    obtain ⟨x, hx, hstep⟩ := bind_eq_ok.mp hstep
    -- the three outcomes of one step
    cases x
    · simp only [Bool.false_eq_true, if_false] at hstep
      obtain ⟨y, hy, hstep⟩ := bind_eq_ok.mp hstep
      cases y
      · cases hstep
        exact hkept.keep hcf hx hy
      · cases hstep
        exact hkept.skip_repeat hcf hy
    · cases hstep
      exact hkept.skip_current hcf hx

/-! ### Inputs that pass their check -/

namespace Schedule

variable {s : Schedule} {i : Input}

/-- The bounds of a number input that passes its check are ordered, with the default between
them. -/
theorem inputFaults_number {lo hi d : Decimal} (h : s.inputFaults i = [])
    (hspec : i.spec = .number lo hi d) :
    Decimal.compareNumbers lo hi ≠ .gt ∧ Decimal.compareNumbers lo d ≠ .gt ∧
      Decimal.compareNumbers d hi ≠ .gt := by
  simp only [Schedule.inputFaults, hspec, List.append_eq_nil_iff] at h
  obtain ⟨-, h⟩ := h
  split_ifs at h with hrange hdefault
  simp only [not_or] at hdefault
  exact ⟨hrange, hdefault⟩

/-- The bounds of a date input that passes its check are ordered, with the default between
them. -/
theorem inputFaults_date {lo hi d : Date} (h : s.inputFaults i = [])
    (hspec : i.spec = .date lo hi d) : lo ≤ hi ∧ lo ≤ d ∧ d ≤ hi := by
  simp only [Schedule.inputFaults, hspec, List.append_eq_nil_iff] at h
  obtain ⟨-, h⟩ := h
  split_ifs at h with hrange hdefault
  simp only [not_or] at hdefault
  exact ⟨Nat.not_lt.mp hrange, Nat.not_lt.mp hdefault.1, Nat.not_lt.mp hdefault.2⟩

/-- The choices of a list input that passes its check are distinct, and its default is one of
them. -/
theorem inputFaults_list {cs : List Choice} {d : String} (h : s.inputFaults i = [])
    (hspec : i.spec = .list cs d) : (cs.map (·.symbol)).Nodup ∧ d ∈ cs.map (·.symbol) := by
  simp only [Schedule.inputFaults, hspec, List.append_eq_nil_iff] at h
  obtain ⟨-, ⟨-, hdup⟩, hdefault⟩ := h
  refine ⟨duplicateFaults_eq_nil_iff.mp hdup, ?_⟩
  split_ifs at hdefault with hmem
  simpa using hmem

/-- The choices of a selection input that passes its check are distinct, and its defaults are
distinct choices. -/
theorem inputFaults_multilist {cs : List Choice} {ds : List String} (h : s.inputFaults i = [])
    (hspec : i.spec = .multilist cs ds) :
    (cs.map (·.symbol)).Nodup ∧ (∀ x ∈ ds, x ∈ cs.map (·.symbol)) ∧ ds.Nodup := by
  simp only [Schedule.inputFaults, hspec, List.append_eq_nil_iff] at h
  obtain ⟨-, ⟨⟨-, hdup⟩, hdefaults⟩, hdupdefaults⟩ := h
  refine ⟨duplicateFaults_eq_nil_iff.mp hdup, fun x hx => ?_,
    duplicateFaults_eq_nil_iff.mp hdupdefaults⟩
  have hnone := List.map_eq_nil_iff.mp hdefaults
  by_contra hout
  have hmem : x ∈ ds.filter (fun d => !(cs.map (·.symbol)).contains d) := by
    simpa [hx] using hout
  rw [hnone] at hmem
  cases hmem

theorem noCases_not_mem_inputFaults (s : Schedule) (i : Input) :
    TypeFault.noCases ∉ s.inputFaults i := by
  unfold Schedule.inputFaults
  simp only [List.mem_append, not_or]
  constructor
  · split <;> (try split) <;> simp
  · split <;> (repeat' split) <;> simp [noCases_not_mem_duplicateFaults]

/-- Every input of a checked schedule passes its check. -/
theorem Checked.inputFaults_eq_nil (h : s.Checked) (hi : i ∈ s.inputs) : s.inputFaults i = [] :=
  eq_nil_of_noCases (h.inputFaults hi) (noCases_not_mem_inputFaults s i)

end Schedule

/-! ### Values that pass the check of an input -/

theorem Decimal.compareNumbers_self {x : Decimal} (hx : x.isFinite) :
    Decimal.compareNumbers x x = .eq := by
  rw [Decimal.compareNumbers_of_isFinite hx hx]
  exact compare_eq_iff_eq.mpr rfl

/-- A selection without repeats has a set of as many symbols. -/
theorem length_symbolSet_of_nodup {ss : List (List CodePoint)} (h : ss.Nodup) :
    (symbolSet ss).length = ss.length := by
  have hset : (symbolSet ss).Nodup := (symbolSet_sorted ss).imp fun {a _} hlt heq => by
    subst heq
    exact List.lt_irrefl a hlt
  exact ((List.perm_ext_iff_of_nodup hset h).mpr fun x => mem_symbolSet).length_eq

namespace Input

variable {i : Input}

/-- A finite number between the finite bounds of a number input passes its check. -/
theorem checkValue_number {lo hi d x : Decimal} (hspec : i.spec = .number lo hi d)
    (hlo : lo.isFinite) (hhi : hi.isFinite) (hx : x.isFinite)
    (hlow : Decimal.compareNumbers lo x ≠ .gt) (hhigh : Decimal.compareNumbers x hi ≠ .gt) :
    i.checkValue (.number x) = .ok none := by
  simp [Input.checkValue, hspec, Decimal.order_of_isFinite hlo hx,
    Decimal.order_of_isFinite hx hhi, hlow, hhigh, pure, Except.pure]

/-- A date between the bounds of a date input passes its check. -/
theorem checkValue_date {lo hi d x : Date} (hspec : i.spec = .date lo hi d) (hlow : lo ≤ x)
    (hhigh : x ≤ hi) : i.checkValue (.date x) = .ok none := by
  simp [Input.checkValue, hspec, hlow, hhigh, pure, Except.pure]

/-- A choice of a list input passes its check. -/
theorem checkValue_choice {cs : List Choice} {d : String} {sym : List CodePoint}
    (hspec : i.spec = .list cs d) (hsym : sym ∈ cs.map fun c => symbolOf c.symbol) :
    i.checkValue (.choice sym) = .ok none := by
  simp only [List.mem_map] at hsym
  simp [Input.checkValue, hspec, Input.symbols, InputSpec.choices, hsym, pure, Except.pure]

/-- Distinct choices of a selection input pass its check. -/
theorem checkValue_selection {cs : List Choice} {ds : List String} {ss : List (List CodePoint)}
    (hspec : i.spec = .multilist cs ds) (hnodup : ss.Nodup)
    (hsub : ∀ x ∈ ss, x ∈ cs.map fun c => symbolOf c.symbol) :
    i.checkValue (.selection ss) = .ok none := by
  simp only [List.mem_map] at hsub
  simpa [Input.checkValue, hspec, Input.symbols, InputSpec.choices,
    length_symbolSet_of_nodup hnodup, pure, Except.pure] using hsub

end Input

/-! ### Candidates -/

theorem symbolOf_injective : Function.Injective symbolOf := fun a b h => by
  simpa [symbolOf, CodePoint.mend_ofString] using congrArg CodePoint.mend h

/-- The symbols of distinct choices are distinct. -/
theorem nodup_symbols {cs : List Choice} (h : (cs.map (·.symbol)).Nodup) :
    (cs.map fun c => symbolOf c.symbol).Nodup := by
  have hmap := h.map symbolOf_injective
  rwa [List.map_map] at hmap

/-- A symbol is in a toggled selection when it is a choice and either it is the one toggled or
it was selected, but not both. -/
theorem mem_toggle {symbols selected : List (List CodePoint)} {sym x : List CodePoint} :
    x ∈ toggle symbols selected sym ↔ x ∈ symbols ∧ (x = sym ↔ x ∉ selected) := by
  simp only [toggle, List.mem_filter, and_congr_right_iff]
  intro _
  by_cases hsym : x = sym <;> by_cases hsel : x ∈ selected <;> simp [hsym, hsel]

namespace Input

variable {s : Schedule} {i : Input}

/-- Every candidate of an input that passes its check, with finite numbers, passes the check
of values: the bounds and the default lie within the bounds, and a toggled selection is made of
distinct choices. -/
theorem checkValue_candidate (hpass : s.inputFaults i = []) (hfin : i.spec.numbersFinite)
    {current c : BoundValue} (hc : c ∈ i.candidates current) : i.checkValue c = .ok none := by
  cases hspec : i.spec with
  | number lo hi d =>
    obtain ⟨hlohi, hlod, hdhi⟩ := Schedule.inputFaults_number hpass hspec
    rw [hspec] at hfin
    simp only [InputSpec.numbersFinite, Bool.and_eq_true] at hfin
    obtain ⟨⟨hlo, hhi⟩, hd⟩ := hfin
    simp only [Input.candidates, hspec, List.mem_cons, List.not_mem_nil, or_false] at hc
    rcases hc with rfl | rfl | rfl
    · exact checkValue_number hspec hlo hhi hlo (by simp [Decimal.compareNumbers_self hlo]) hlohi
    · exact checkValue_number hspec hlo hhi hhi hlohi (by simp [Decimal.compareNumbers_self hhi])
    · exact checkValue_number hspec hlo hhi hd hlod hdhi
  | date lo hi d =>
    obtain ⟨hlohi, hlod, hdhi⟩ := Schedule.inputFaults_date hpass hspec
    simp only [Input.candidates, hspec, List.mem_cons, List.not_mem_nil, or_false] at hc
    rcases hc with rfl | rfl | rfl
    · exact checkValue_date hspec (Nat.le_refl _) hlohi
    · exact checkValue_date hspec hlohi (Nat.le_refl _)
    · exact checkValue_date hspec hlod hdhi
  | boolean d =>
    cases current <;> simp only [Input.candidates, hspec, List.mem_cons, List.not_mem_nil,
      or_false] at hc
    subst hc
    simp [Input.checkValue, hspec, pure, Except.pure]
  | amount cur d =>
    simp only [Input.candidates, hspec, List.mem_cons, List.not_mem_nil, or_false] at hc
    rcases hc with rfl | rfl <;> simp [Input.checkValue, hspec, pure, Except.pure]
  | list cs d =>
    simp only [Input.candidates, hspec, List.mem_map] at hc
    obtain ⟨x, hx, rfl⟩ := hc
    exact checkValue_choice hspec (List.mem_map_of_mem hx)
  | multilist cs ds =>
    have hsymbols := nodup_symbols (Schedule.inputFaults_multilist hpass hspec).1
    cases current <;> simp only [Input.candidates, hspec, List.mem_map, List.not_mem_nil] at hc
    obtain ⟨sym, -, rfl⟩ := hc
    -- a toggled selection keeps the choices in their order, each once
    exact checkValue_selection hspec (hsymbols.sublist List.filter_sublist)
      fun x hx => (mem_toggle.mp hx).1

/-- The default of an input that passes its check, with finite numbers, passes the check of
values. -/
theorem checkValue_default (hpass : s.inputFaults i = []) (hfin : i.spec.numbersFinite) :
    i.checkValue i.defaultValue = .ok none := by
  cases hspec : i.spec with
  | number lo hi d =>
    obtain ⟨-, hlod, hdhi⟩ := Schedule.inputFaults_number hpass hspec
    rw [hspec] at hfin
    simp only [InputSpec.numbersFinite, Bool.and_eq_true] at hfin
    rw [Input.defaultValue, hspec]
    exact checkValue_number hspec hfin.1.1 hfin.1.2 hfin.2 hlod hdhi
  | date lo hi d =>
    obtain ⟨-, hlod, hdhi⟩ := Schedule.inputFaults_date hpass hspec
    rw [Input.defaultValue, hspec]
    exact checkValue_date hspec hlod hdhi
  | boolean d => simp [Input.defaultValue, Input.checkValue, hspec, pure, Except.pure]
  | amount cur d => simp [Input.defaultValue, Input.checkValue, hspec, pure, Except.pure]
  | list cs d =>
    rw [Input.defaultValue, hspec]
    exact checkValue_choice hspec
      (by simpa using List.mem_map_of_mem (f := symbolOf) (Schedule.inputFaults_list hpass hspec).2)
  | multilist cs ds =>
    obtain ⟨-, hmem, hnodup⟩ := Schedule.inputFaults_multilist hpass hspec
    rw [Input.defaultValue, hspec]
    refine checkValue_selection hspec (hnodup.map symbolOf_injective) fun x hx => ?_
    obtain ⟨d, hd, rfl⟩ := List.mem_map.mp hx
    simpa using List.mem_map_of_mem (f := symbolOf) (hmem d hd)

end Input

/-! ### Toggled selections -/

/-- Toggling a choice changes whether the choice is selected, so the set differs. -/
theorem symbolSet_toggle_ne {symbols selected : List (List CodePoint)} {sym : List CodePoint}
    (hsym : sym ∈ symbols) : symbolSet (toggle symbols selected sym) ≠ symbolSet selected := by
  intro h
  have hiff := symbolSet_eq_iff.mp h sym
  rw [mem_toggle] at hiff
  by_cases hsel : sym ∈ selected <;> simp_all

/-- Toggling two different choices gives two different sets: the first is selected in one
and not the other. -/
theorem symbolSet_toggle_inj {symbols selected : List (List CodePoint)} {a b : List CodePoint}
    (ha : a ∈ symbols) (h : symbolSet (toggle symbols selected a) =
      symbolSet (toggle symbols selected b)) : a = b := by
  by_contra hne
  have hiff := symbolSet_eq_iff.mp h a
  simp only [mem_toggle] at hiff
  by_cases hsel : a ∈ selected <;> simp_all

/-- The choices among distinct symbols other than one of them are one fewer. -/
theorem card_choices_erase {symbols : List (List CodePoint)} (hnodup : symbols.Nodup)
    {sym : List CodePoint} (hsym : sym ∈ symbols) :
    ((symbols.map fun x => (BoundValue.choice x).identity).toFinset.erase
      (BoundValue.choice sym).identity).card = symbols.length - 1 := by
  have hinj : Function.Injective fun x => (BoundValue.choice x).identity := by
    intro a b hab
    simpa [BoundValue.identity] using hab
  calc _ = (symbols.toFinset.erase sym).card := card_erase_map hinj symbols sym
    _ = symbols.length - 1 := by
      rw [Finset.card_erase_of_mem (List.mem_toFinset.mpr hsym),
        List.toFinset_card_of_nodup hnodup]

/-- Each of distinct symbols toggled in a selection gives its own set, none of them the
selection's, so there are as many as the symbols. -/
theorem card_toggles_erase {symbols : List (List CodePoint)} (hnodup : symbols.Nodup)
    (selected : List (List CodePoint)) :
    ((symbols.map fun sym =>
        (BoundValue.selection (toggle symbols selected sym)).identity).toFinset.erase
      (BoundValue.selection selected).identity).card = symbols.length := by
  have hdistinct : (symbols.map fun sym =>
      (BoundValue.selection (toggle symbols selected sym)).identity).Nodup :=
    hnodup.map_on fun a ha b _ hab =>
      symbolSet_toggle_inj ha (by simpa [BoundValue.identity] using hab)
  have hcurrent : (BoundValue.selection selected).identity ∉ symbols.map fun sym =>
      (BoundValue.selection (toggle symbols selected sym)).identity := by
    intro hmem
    obtain ⟨sym, hsym, heq⟩ := List.mem_map.mp hmem
    exact symbolSet_toggle_ne hsym (by simpa [BoundValue.identity] using heq)
  rw [Finset.erase_eq_of_notMem (List.mem_toFinset.not.mpr hcurrent),
    List.toFinset_card_of_nodup hdistinct, List.length_map]

/-! ### The alternatives of an input -/

namespace Input

variable {i : Input}

/-- A value that passes the check of a truth-value input is a truth value. -/
theorem boolean_of_checkValue {d : Bool} {v : BoundValue} (hspec : i.spec = .boolean d)
    (h : i.checkValue v = .ok none) : ∃ b, v = .boolean b := by
  cases v <;> simp_all [Input.checkValue, pure, Except.pure]

/-- A value that passes the check of a list input is one of its choices. -/
theorem choice_of_checkValue {cs : List Choice} {d : String} {v : BoundValue}
    (hspec : i.spec = .list cs d) (h : i.checkValue v = .ok none) :
    ∃ sym, v = .choice sym ∧ sym ∈ cs.map fun c => symbolOf c.symbol := by
  cases v
  case choice sym =>
    simp only [Input.checkValue, hspec] at h
    split_ifs at h with hmem
    · refine ⟨sym, rfl, ?_⟩
      simpa [Input.symbols, InputSpec.choices, hspec] using hmem
    · simp [pure, Except.pure] at h
  all_goals simp [Input.checkValue, hspec, pure, Except.pure] at h

/-- A value that passes the check of a selection input is a selection. -/
theorem selection_of_checkValue {cs : List Choice} {ds : List String} {v : BoundValue}
    (hspec : i.spec = .multilist cs ds) (h : i.checkValue v = .ok none) :
    ∃ ss, v = .selection ss := by
  cases v <;> simp_all [Input.checkValue, pure, Except.pure]

/-- How many alternatives an input has from the value `current`, by kind: one for a truth
value; every choice but the current one for a list; every choice toggled for a selection; the
bounds and the default for a number or a date, and zero and the default for an amount, counted
by value without the current one. -/
def alternativeCount (i : Input) (current : BoundValue) : Nat :=
  let others (vs : List BoundValue) := ((vs.map BoundValue.identity).toFinset.erase
    current.identity).card
  match i.spec with
  | .boolean _ => 1
  | .list cs _ => cs.length - 1
  | .multilist cs _ => cs.length
  | .number lo hi d => others [.number lo, .number hi, .number d]
  | .date lo hi d => others [.date lo, .date hi, .date d]
  | .amount _ d => others [.number Decimal.zero, .number d]

/-- What the alternatives of an input from the value `current` are: candidates, none the
same as `current` or as another, each passing the check of the input, and as many as its kind
says. -/
structure AlternativesOf (i : Input) (current : BoundValue) (alts : List BoundValue) : Prop where
  sublist : alts.Sublist (i.candidates current)
  fresh : ∀ a ∈ alts, a.identity ≠ current.identity
  distinct : (alts.map BoundValue.identity).Nodup
  accepted : ∀ a ∈ alts, i.checkValue a = .ok none
  count : alts.length = i.alternativeCount current

/-- The number of alternatives an input has from a value that passes its check. -/
theorem length_alternatives {s : Schedule} (hpass : s.inputFaults i = [])
    (hfin : i.spec.numbersFinite) {current : BoundValue} (hcur : i.checkValue current = .ok none)
    {alts : List BoundValue} (h : i.alternatives current = .ok alts) :
    alts.length = i.alternativeCount current := by
  rw [(i.alternatives_kept hfin h).length_eq]
  cases hspec : i.spec with
  | boolean d =>
    obtain ⟨b, rfl⟩ := boolean_of_checkValue hspec hcur
    cases b <;> simp [Input.candidates, alternativeCount, hspec, BoundValue.identity]
  | list cs d =>
    obtain ⟨sym, rfl, hsym⟩ := choice_of_checkValue hspec hcur
    have hcands : (cs.map fun c => BoundValue.choice (symbolOf c.symbol)).map BoundValue.identity =
        (cs.map fun c => symbolOf c.symbol).map fun sym => (BoundValue.choice sym).identity := by
      simp only [List.map_map]
      rfl
    simp only [Input.candidates, alternativeCount, hspec, hcands]
    rw [card_choices_erase (nodup_symbols (Schedule.inputFaults_list hpass hspec).1) hsym,
      List.length_map]
  | multilist cs ds =>
    obtain ⟨ss, rfl⟩ := selection_of_checkValue hspec hcur
    simp only [Input.candidates, alternativeCount, hspec]
    rw [List.map_map]
    exact (card_toggles_erase (nodup_symbols (Schedule.inputFaults_multilist hpass hspec).1)
      ss).trans (List.length_map _)
  | number lo hi d => simp [Input.candidates, alternativeCount, hspec]
  | date lo hi d => simp [Input.candidates, alternativeCount, hspec]
  | amount cur d => simp [Input.candidates, alternativeCount, hspec]

/-- The alternatives of an input that passes its check, with finite numbers, from a value that
passes the check of the input. -/
theorem alternatives_spec {s : Schedule} (hpass : s.inputFaults i = [])
    (hfin : i.spec.numbersFinite) {current : BoundValue} (hcur : i.checkValue current = .ok none)
    {alts : List BoundValue} (h : i.alternatives current = .ok alts) :
    i.AlternativesOf current alts := by
  have hkept := i.alternatives_kept hfin h
  refine ⟨hkept.sublist, fun a ha => ?_, hkept.distinct,
    fun a ha => checkValue_candidate hpass hfin (hkept.sublist.subset ha),
    length_alternatives hpass hfin hcur h⟩
  exact ((hkept.keys a.identity).mp (List.mem_map_of_mem ha)).2

end Input

end FeeSchedule
