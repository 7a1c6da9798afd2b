import Mathlib
import FeeSchedule.Composition.Analysis
import FeeSchedule.Proofs.Composition.Lineage
import FeeSchedule.Proofs.Composition.WellFormed
import FeeSchedule.Proofs.Decimal.Order

/-!
# `FeeSchedule.Proofs.Composition.Inheritance`: the inheritance analysis agrees with composing

The analysis of a jurisdiction (`Registry.analyze`) sorts names by filtering: a name of its
ancestors merged that it does not declare is inherited, one it declares again is overridden,
one only it declares is defined. Composing merges the same two schedules by name
(`mergeByName`). When each schedule of the chain names each of its fees and inputs once, the
two agree:

* `NameSplit`: the three lists share no name, inherited and overridden are the ancestors'
  names, overridden and defined the jurisdiction's own (`Inheritance.split_nameSplit`).
* `OverriddenBy`: the merged declarations are keyed by the ancestors' keys followed by the
  defined ones, with the jurisdiction's own declaration under each of its keys and the
  ancestors' one under each inherited key (`mergeByName_overriddenBy`).
* `PercentageOf`: a percentage is the share rounded half to even to two places, or a plain zero
  of nothing (`percentage_percentageOf`); it lies between 0 and 100 (`PercentageOf.toRat_mem`).
* `inheritance_agrees_with_composition`: for a jurisdiction whose chain resolves, the analysis
  splits the fee and input names, a composition holds the declarations that the split
  describes, and the reuse is the share of inherited names.
-/

set_option autoImplicit false

namespace FeeSchedule

/-! ### Looking a key up in a list that has each key once -/

section Keyed

variable {α : Type} {key : α → String}

/-- In a list that has each key once, the entry found under a key is its member with that
key. -/
theorem find?_key_eq_some_iff {l : List α} (hl : (l.map key).Nodup) {k : String} {x : α} :
    l.find? (key · == k) = some x ↔ x ∈ l ∧ key x = k := by
  constructor
  · intro h
    exact ⟨List.mem_of_find?_eq_some h, by simpa using List.find?_some h⟩
  · rintro ⟨hx, rfl⟩
    cases hf : l.find? (key · == key x) with
    | none => exact absurd (List.find?_eq_none.mp hf x hx) (by simp)
    | some y =>
      have hyk : key y = key x := by simpa using List.find?_some hf
      rw [List.inj_on_of_nodup_map hl (List.mem_of_find?_eq_some hf) hx hyk]

/-- Two lists that each have every key once and share a member find that member under its
key. -/
theorem find?_key_eq_of_mem {l l' : List α} (hl : (l.map key).Nodup) (hl' : (l'.map key).Nodup)
    {x : α} (hx : x ∈ l) (hx' : x ∈ l') :
    l.find? (key · == key x) = l'.find? (key · == key x) := by
  rw [(find?_key_eq_some_iff hl).mpr ⟨hx, rfl⟩, (find?_key_eq_some_iff hl').mpr ⟨hx', rfl⟩]

end Keyed

/-! ### Sorting names by filtering -/

/-- `inherited`, `overridden` and `defined` sort the names `ancestors` of a jurisdiction's
ancestors and its own names `own`: no name is in two of them, inherited and overridden are the
ancestors' names, and overridden and defined its own. -/
structure NameSplit (ancestors own inherited overridden defined : List String) : Prop where
  inherited_overridden : inherited.Disjoint overridden
  inherited_defined : inherited.Disjoint defined
  overridden_defined : overridden.Disjoint defined
  ancestors : (inherited ++ overridden).Perm ancestors
  own : (overridden ++ defined).Perm own

namespace Inheritance

variable {anc own : List String}

@[simp] theorem mem_split_inherited {n : String} :
    n ∈ (split anc own).1 ↔ n ∈ anc ∧ n ∉ own := by
  simp [split]

@[simp] theorem mem_split_overridden {n : String} :
    n ∈ (split anc own).2.1 ↔ n ∈ own ∧ n ∈ anc := by
  simp [split]

@[simp] theorem mem_split_defined {n : String} :
    n ∈ (split anc own).2.2 ↔ n ∈ own ∧ n ∉ anc := by
  simp [split]

/-- Filtering sorts the names of ancestors and of a jurisdiction, each without repeats. -/
theorem split_nameSplit (ha : anc.Nodup) (ho : own.Nodup) :
    NameSplit anc own (split anc own).1 (split anc own).2.1 (split anc own).2.2 where
  inherited_overridden _ h₁ h₂ := (mem_split_inherited.mp h₁).2 (mem_split_overridden.mp h₂).1
  inherited_defined _ h₁ h₂ := (mem_split_defined.mp h₂).2 (mem_split_inherited.mp h₁).1
  overridden_defined _ h₁ h₂ := (mem_split_defined.mp h₂).2 (mem_split_overridden.mp h₁).2
  ancestors := by
    -- both sides are without repeats and have the same members
    have hnodup : ((split anc own).1 ++ (split anc own).2.1).Nodup :=
      List.nodup_append.mpr ⟨ha.filter _, ho.filter _, fun a h₁ b h₂ hab =>
        (mem_split_inherited.mp h₁).2 (hab ▸ (mem_split_overridden.mp h₂).1)⟩
    refine (List.perm_ext_iff_of_nodup hnodup ha).mpr fun n => ?_
    simp only [List.mem_append, mem_split_inherited, mem_split_overridden]
    tauto
  own := List.filter_append_perm _ own

end Inheritance

/-! ### Overriding declarations by key -/

/-- The declarations `merged` are those of `own` overriding those of `ancestors` by key: keyed
by the ancestors' keys followed by `defined`, holding `own`'s declaration under each of its
keys and the ancestors' one under each key in `inherited`. -/
structure OverriddenBy {α : Type} (key : α → String) (ancestors own merged : List α)
    (inherited defined : List String) : Prop where
  keys : merged.map key = ancestors.map key ++ defined
  own : ∀ k ∈ own.map key, merged.find? (key · == k) = own.find? (key · == k)
  inherited : ∀ k ∈ inherited, merged.find? (key · == k) = ancestors.find? (key · == k)

section MergeByName

variable {α : Type} {key : α → String} {anc own : List α}

/-- A merge by name is what the analysis's split of the keys describes: each key of `own`
under `own`'s declaration, each key only the ancestors have under theirs, and the keys new
in `own` after the ancestors' ones. -/
theorem mergeByName_overriddenBy (ha : (anc.map key).Nodup) (ho : (own.map key).Nodup) :
    OverriddenBy key anc own (mergeByName key anc own)
      (Inheritance.split (anc.map key) (own.map key)).1
      (Inheritance.split (anc.map key) (own.map key)).2.2 := by
  have hmerged : ((mergeByName key anc own).map key).Nodup := by
    rw [keys_mergeByName_eraseDups ha ho]
    exact nodup_eraseDups _
  refine ⟨?_, fun k hk => ?_, fun k hk => ?_⟩
  · rw [keys_mergeByName]
    simp [List.removeAll, Inheritance.split]
  · -- the declaration of `own` under `k` is in the merge, in the ancestors' place or after it
    obtain ⟨y, hy, rfl⟩ := List.mem_map.mp hk
    exact find?_key_eq_of_mem hmerged ho (mem_mergeByName_of_declared ho hy) hy
  · -- a key that `own` does not declare keeps the ancestors' declaration
    obtain ⟨hka, hko⟩ := Inheritance.mem_split_inherited.mp hk
    obtain ⟨x, hx, rfl⟩ := List.mem_map.mp hka
    exact find?_key_eq_of_mem hmerged ha (mem_mergeByName_of_inherited hx hko) hx

end MergeByName

/-! ### Percentages -/

/-- `q` is `x` rounded to a whole number, a tie going to the even neighbour. -/
def RoundsHalfEven (x : ℚ) (q : ℕ) : Prop :=
  |x - q| < 1 / 2 ∨ (|x - q| = 1 / 2 ∧ Even q)

/-- A whole number rounded from at most `m` is at most `m`. -/
theorem RoundsHalfEven.le {x : ℚ} {q m : ℕ} (h : RoundsHalfEven x q) (hx : x ≤ m) : q ≤ m := by
  have hdist : |x - q| ≤ 1 / 2 := by
    rcases h with h | h
    · exact h.le
    · exact h.1.le
  have hq : (q : ℚ) < m + 1 := by
    have := (abs_le.mp hdist).1
    linarith
  exact_mod_cast Nat.lt_succ_iff.mp (by exact_mod_cast hq)

/-- The quotient `n / w` rounded half to even as `percentage` rounds it: up when the remainder
is more than half the divisor, or exactly half with an odd quotient. -/
theorem roundsHalfEven_div (n w : ℕ) (hw : 0 < w) :
    RoundsHalfEven ((n : ℚ) / w)
      (if 2 * (n % w) > w ∨ (2 * (n % w) = w ∧ n / w % 2 = 1) then n / w + 1 else n / w) := by
  have hwq : (0 : ℚ) < w := by exact_mod_cast hw
  -- the quotient is the whole part and the remainder over the divisor the rest
  have hsplit : (n : ℚ) / w = (n / w : ℕ) + ((n % w : ℕ) : ℚ) / w := by
    conv_lhs => rw [← Nat.div_add_mod n w]
    push_cast
    field_simp
  have hr : n % w < w := Nat.mod_lt n hw
  split
  · rename_i hup
    have hgt : (w : ℚ) < 2 * (n % w : ℕ) ∨ ((2 * (n % w : ℕ) : ℚ) = w ∧ Even (n / w + 1)) := by
      rcases hup with hup | ⟨heq, hodd⟩
      · exact .inl (by exact_mod_cast hup)
      · exact .inr ⟨by exact_mod_cast heq, Nat.even_add_one.mpr (Nat.not_even_iff_odd.mpr
          (Nat.odd_iff.mpr hodd))⟩
    have hdist : |(n : ℚ) / w - ((n / w + 1 : ℕ) : ℚ)| = 1 - ((n % w : ℕ) : ℚ) / w := by
      rw [hsplit, Nat.cast_add, Nat.cast_one]
      have hlt : ((n % w : ℕ) : ℚ) / w < 1 := (div_lt_one hwq).mpr (by exact_mod_cast hr)
      rw [abs_of_neg (by linarith)]
      ring
    rw [RoundsHalfEven, hdist]
    rcases hgt with hgt | ⟨heq, heven⟩
    · left
      rw [sub_lt_comm, lt_div_iff₀ hwq]
      linarith
    · right
      refine ⟨?_, heven⟩
      have hr0 : ((n % w : ℕ) : ℚ) ≠ 0 := by
        intro h0
        rw [h0] at heq
        linarith
      rw [← heq]
      field_simp
      ring
  · rename_i hdown
    push Not at hdown
    have hdist : |(n : ℚ) / w - ((n / w : ℕ) : ℚ)| = ((n % w : ℕ) : ℚ) / w := by
      rw [hsplit, add_sub_cancel_left, abs_of_nonneg (by positivity)]
    rw [RoundsHalfEven, hdist]
    rcases Nat.lt_or_ge (2 * (n % w)) w with hlt | hge
    · left
      rw [div_lt_iff₀ hwq]
      have : (2 * (n % w : ℕ) : ℚ) < w := by exact_mod_cast hlt
      linarith
    · -- exactly half, and the quotient is even
      have heq : 2 * (n % w) = w := le_antisymm (hdown.1) hge
      right
      refine ⟨?_, Nat.even_iff.mpr (by have := hdown.2 heq; omega)⟩
      have htwice : (2 * (n % w : ℕ) : ℚ) = w := by exact_mod_cast heq
      have hr0 : ((n % w : ℕ) : ℚ) ≠ 0 := by
        intro h0
        rw [h0] at htwice
        linarith
      rw [← htwice]
      field_simp

/-- `d` is `part` as a percentage of `whole`: rounded half to even to two places, and a plain
zero when the whole is zero. -/
structure PercentageOf (part whole : ℕ) (d : Decimal) : Prop where
  of_zero : whole = 0 → d = Decimal.zero
  rounded : 0 < whole →
    ∃ q, d = .finite false q (-2) ∧ RoundsHalfEven (100 * part / whole * 100) q

theorem percentage_percentageOf (part whole : ℕ) :
    PercentageOf part whole (percentage part whole) where
  of_zero h := by simp [percentage, h]
  rounded hw := by
    rw [percentage, if_neg hw.ne']
    refine ⟨_, rfl, ?_⟩
    rw [show (100 * part / whole * 100 : ℚ) = ((10000 * part : ℕ) : ℚ) / whole by
      push_cast
      ring]
    exact roundsHalfEven_div (10000 * part) whole hw

/-- A percentage of a part of a whole lies between 0 and 100. -/
theorem PercentageOf.toRat_mem {part whole : ℕ} {d : Decimal} (h : PercentageOf part whole d)
    (hle : part ≤ whole) : 0 ≤ d.toRat ∧ d.toRat ≤ 100 := by
  rcases Nat.eq_zero_or_pos whole with hw | hw
  · simp [h.of_zero hw, Decimal.zero, Decimal.toRat]
  obtain ⟨q, rfl, hq⟩ := h.rounded hw
  -- the share is at most one hundred per cent, and so is its rounding
  have hshare : (100 * part / whole * 100 : ℚ) ≤ (10000 : ℕ) := by
    have hwq : (0 : ℚ) < whole := by exact_mod_cast hw
    have : (part : ℚ) ≤ whole := by exact_mod_cast hle
    rw [div_mul_eq_mul_div, div_le_iff₀ hwq]
    push_cast
    nlinarith
  have hq10000 : (q : ℚ) ≤ 10000 := by exact_mod_cast hq.le hshare
  simp only [Decimal.toRat, Bool.false_eq_true, if_false, one_mul]
  constructor
  · positivity
  · rw [zpow_neg, zpow_two]
    linarith [show (q : ℚ) * (10 * 10)⁻¹ = q / 100 by ring]

/-! ### Analysing and composing a jurisdiction -/

namespace Schedule

/-- Merging a chain with one more schedule extends the merge of the chain. -/
theorem mergeChain_append_single (chain : List Schedule) (s : Schedule) :
    mergeChain (chain ++ [s]) = extend (mergeChain chain) s := by
  simp [mergeChain, List.foldl_append]

/-- The fee names of a merged chain whose schedules each name a fee once are without
repeats. -/
theorem nodup_mergeChain_feeNames {chain : List Schedule} (h : ∀ s ∈ chain, s.feeNames.Nodup) :
    (mergeChain chain).feeNames.Nodup := by
  have hfees : (mergeChain chain).fees = (chain.map (·.fees)).foldl (mergeByName (·.name)) [] :=
    field_foldl_extend (·.fees) (mergeByName (·.name)) (fun _ _ => rfl) chain empty
  rw [feeNames, hfees]
  exact (@mergedBy_foldl Fee (·.name) (chain.map (·.fees)) (by simpa [feeNames] using h)).nodup

theorem nodup_mergeChain_inputNames {chain : List Schedule}
    (h : ∀ s ∈ chain, s.inputNames.Nodup) : (mergeChain chain).inputNames.Nodup := by
  have hinputs : (mergeChain chain).inputs =
      (chain.map (·.inputs)).foldl (mergeByName (·.name)) [] :=
    field_foldl_extend (·.inputs) (mergeByName (·.name)) (fun _ _ => rfl) chain empty
  rw [inputNames, hinputs]
  exact (@mergedBy_foldl Input (·.name) (chain.map (·.inputs)) (by simpa [inputNames] using h)).nodup

end Schedule

namespace Registry

variable {reg : Registry} {id : String}

/-- A chain that resolves ends with the jurisdiction registered under the target. -/
theorem chain_eq_append {js : List Jurisdiction} (h : reg.chain id = .ok js) :
    ∃ line j, js = line ++ [j] ∧ reg.get? id = some j := by
  have hline := (Registry.chain_eq_ok_iff reg id js).mp h
  cases hlast : js.getLast? with
  | none =>
    have := hline.leaf
    rw [hlast] at this
    cases this
  | some j =>
    have hid : j.id = id := by simpa [hlast] using hline.leaf
    refine ⟨js.dropLast, j, ?_, ?_⟩
    · exact (List.dropLast_append_getLast? j hlast).symm
    · rw [← hid]
      exact hline.registered j (List.mem_of_getLast? hlast)

/-- The analysis of a jurisdiction splits the fee and input names of its ancestors merged and
its own. -/
theorem analyze_eq {line : List Jurisdiction} {j : Jurisdiction}
    (h : reg.chain id = .ok (line ++ [j])) :
    reg.analyze id = .ok
      (let anc := Schedule.mergeChain (line.map (·.schedule))
       let fees := Inheritance.split anc.feeNames j.schedule.feeNames
       let inputs := Inheritance.split anc.inputNames j.schedule.inputNames
       ⟨id, fees.1, fees.2.1, fees.2.2, inputs.1, inputs.2.1, inputs.2.2⟩) := by
  simp [analyze, h, bind, Except.bind, pure, Except.pure]

/-- The fees and the inputs of a composition are those of the jurisdiction merged by name
over those of its ancestors merged: a lone root has no ancestors, and merging over nothing
keeps its own. -/
theorem compose_fees_inputs {line : List Jurisdiction} {j : Jurisdiction}
    (h : reg.chain id = .ok (line ++ [j])) {c : Composed}
    (hc : (reg.compose id).run'.1 = .ok c) :
    c.schedule.fees =
        mergeByName (·.name) (Schedule.mergeChain (line.map (·.schedule))).fees j.schedule.fees ∧
      c.schedule.inputs =
        mergeByName (·.name) (Schedule.mergeChain (line.map (·.schedule))).inputs
          j.schedule.inputs := by
  obtain ⟨js, hjs, hs, -⟩ := compose_ok hc
  rw [h, Except.ok.injEq] at hjs
  subst hjs
  rcases line with _ | ⟨k, line⟩
  · simp only [List.nil_append, chainSchedule, Except.ok.injEq] at hs
    simp [← hs, Schedule.mergeChain, Schedule.empty]
  · have hlen : 2 ≤ (k :: line ++ [j]).length := by simp
    rw [chainSchedule_of_two_le hlen hs, List.map_append, List.map_singleton,
      Schedule.mergeChain_append_single]
    exact ⟨rfl, rfl⟩

end Registry

/-- The inheritance analysis of a jurisdiction agrees with composing it, when its chain
resolves and each schedule of the chain names each of its fees and inputs once. The chain ends
with the jurisdiction registered under the target, after its ancestors. Its fee names are split
into inherited, overridden and defined ones (`NameSplit`): no name in two of them, inherited
and overridden are the fee names of the ancestors merged, overridden and defined its own; the
same holds of its inputs. A composition of the target is keyed by the ancestors' merged names
followed by the defined ones, holds the jurisdiction's own declaration under each of its names
and the ancestors' merged one under each inherited name (`OverriddenBy`), for fees and for
inputs alike. The reuse is the share of inherited fees and inputs among all six lists, as a
percentage rounded half to even to two places (zero of an empty population), between 0 and
100. -/
theorem inheritance_agrees_with_composition {reg : Registry} {id : String}
    {js : List Jurisdiction} (hchain : reg.chain id = .ok js)
    (hnames : ∀ j ∈ js, j.schedule.feeNames.Nodup ∧ j.schedule.inputNames.Nodup) :
    ∃ line j a, js = line ++ [j] ∧ reg.get? id = some j ∧ reg.analyze id = .ok a ∧
      NameSplit (Schedule.mergeChain (line.map (·.schedule))).feeNames j.schedule.feeNames
        a.inheritedFees a.overriddenFees a.definedFees ∧
      NameSplit (Schedule.mergeChain (line.map (·.schedule))).inputNames j.schedule.inputNames
        a.inheritedInputs a.overriddenInputs a.definedInputs ∧
      (∀ c, (reg.compose id).run'.1 = .ok c →
        OverriddenBy (·.name) (Schedule.mergeChain (line.map (·.schedule))).fees j.schedule.fees
            c.schedule.fees a.inheritedFees a.definedFees ∧
          OverriddenBy (·.name) (Schedule.mergeChain (line.map (·.schedule))).inputs
            j.schedule.inputs c.schedule.inputs a.inheritedInputs a.definedInputs) ∧
      PercentageOf (a.inheritedFees.length + a.inheritedInputs.length)
        (a.inheritedFees.length + a.inheritedInputs.length + a.overriddenFees.length +
          a.overriddenInputs.length + a.definedFees.length + a.definedInputs.length) a.reuse ∧
      0 ≤ a.reuse.toRat ∧ a.reuse.toRat ≤ 100 := by
  obtain ⟨line, j, rfl, hget⟩ := Registry.chain_eq_append hchain
  -- the ancestors' schedules and the jurisdiction's own each name a fee and an input once
  have hown := hnames j (by simp)
  have hline : ∀ s ∈ line.map (·.schedule), s.feeNames.Nodup ∧ s.inputNames.Nodup := by
    intro s hs
    obtain ⟨k, hk, rfl⟩ := List.mem_map.mp hs
    exact hnames k (by simp [hk])
  have hfees := Schedule.nodup_mergeChain_feeNames fun s hs => (hline s hs).1
  have hinputs := Schedule.nodup_mergeChain_inputNames fun s hs => (hline s hs).2
  have hpercent := percentage_percentageOf
  refine ⟨line, j, _, rfl, hget, Registry.analyze_eq hchain,
    Inheritance.split_nameSplit hfees hown.1, Inheritance.split_nameSplit hinputs hown.2,
    fun c hc => ?_, hpercent _ _, (hpercent _ _).toRat_mem (by omega)⟩
  obtain ⟨hcf, hci⟩ := Registry.compose_fees_inputs hchain hc
  rw [hcf, hci]
  exact ⟨mergeByName_overriddenBy hfees hown.1, mergeByName_overriddenBy hinputs hown.2⟩

/-- A regional schedule extending a root one, redeclaring the fee `f` and the input `b` and
adding the fee `g` and the input `c`: the input `a` is the one name inherited out of five. -/
theorem regional_inheritance_agrees :
    ∃ (reg : Registry) (js : List Jurisdiction), reg = [
        ⟨"EP", "Root", ⟨[⟨"a", "A", .boolean false, none⟩, ⟨"b", "B", .boolean false, none⟩],
          [⟨"f", [⟨.num (Decimal.ofNat 1), none⟩], [], false, none⟩], [], [], [], none⟩, none⟩,
        ⟨"UP", "Regional", ⟨[⟨"b", "B", .boolean true, none⟩, ⟨"c", "C", .boolean false, none⟩],
          [⟨"f", [⟨.num (Decimal.ofNat 2), none⟩], [], false, none⟩,
            ⟨"g", [⟨.num (Decimal.ofNat 3), none⟩], [], true, none⟩], [], [], [], none⟩,
          some "EP"⟩] ∧
      reg.chain "UP" = .ok js ∧
      (∀ j ∈ js, j.schedule.feeNames.Nodup ∧ j.schedule.inputNames.Nodup) ∧
      ∃ line j a, js = line ++ [j] ∧ reg.get? "UP" = some j ∧ reg.analyze "UP" = .ok a ∧
        NameSplit (Schedule.mergeChain (line.map (·.schedule))).feeNames j.schedule.feeNames
          a.inheritedFees a.overriddenFees a.definedFees ∧
        NameSplit (Schedule.mergeChain (line.map (·.schedule))).inputNames
          j.schedule.inputNames a.inheritedInputs a.overriddenInputs a.definedInputs ∧
        (∀ c, (reg.compose "UP").run'.1 = .ok c →
          OverriddenBy (·.name) (Schedule.mergeChain (line.map (·.schedule))).fees
              j.schedule.fees c.schedule.fees a.inheritedFees a.definedFees ∧
            OverriddenBy (·.name) (Schedule.mergeChain (line.map (·.schedule))).inputs
              j.schedule.inputs c.schedule.inputs a.inheritedInputs a.definedInputs) ∧
        PercentageOf (a.inheritedFees.length + a.inheritedInputs.length)
          (a.inheritedFees.length + a.inheritedInputs.length + a.overriddenFees.length +
            a.overriddenInputs.length + a.definedFees.length + a.definedInputs.length) a.reuse ∧
        0 ≤ a.reuse.toRat ∧ a.reuse.toRat ≤ 100 := by
  refine (fun hnames => ⟨_, _, rfl, rfl, hnames,
    inheritance_agrees_with_composition (by rfl) hnames⟩) ?_
  -- the chain is the root, then the regional schedule; each names its fees and inputs once
  intro j hj
  simp only [List.mem_reverse, List.nil_append, List.mem_append, List.mem_singleton] at hj
  rcases hj with rfl | rfl <;> exact ⟨by decide, by decide⟩

end FeeSchedule
