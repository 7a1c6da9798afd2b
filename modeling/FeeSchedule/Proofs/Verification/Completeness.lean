import Mathlib
import FeeSchedule.Verification.Completeness
import FeeSchedule.Proofs.Evaluation.Provenance
import FeeSchedule.Proofs.Evaluation.Symbols
import FeeSchedule.Proofs.Verification.Reads

/-!
# `FeeSchedule.Proofs.Verification.Completeness`: a complete verdict is sound

`Schedule.checkCompleteness` tries a fee on every combination of the domains of the inputs
its conditions read, all other inputs at their defaults. Where each of those domains lists
every value its input can take (`InputSpec.Exhaustive`: a boolean, a list, or a selection
whose subsets are tried up to its number of choices), a complete verdict means what it says:
some case of the fee fires in every environment that gives each of those inputs a value of
its kind (`InputSpec.Admits`), whatever the other inputs hold, unless the fee fails there.

* `mem_combinations`, `mem_subsetsUpTo`: the subsets a selection is tried with are its
  sublists of at most `subsetSize` elements.
* `Input.domain_covers`: an exhaustive domain has a bound value for every value of its kind;
  for a selection this needs that a set depends on its members only (`symbolSet_eq_iff`).
* `exists_comboAt`: every choice from the domains is the combination at some position.
* `search_step`, `search_fires`: when the search ends with no more uncovered combinations
  than it started with, a case fired on each combination it checked.
* `Schedule.checkCompleteness_complete`: a complete verdict checked the whole product.
* `complete_fee_fires`: the soundness of the verdict, from the above and the frame lemma
  `feeOutcome_fires_of_agree`.
-/

set_option autoImplicit false

namespace FeeSchedule

/-! ### The values of an input -/

/-- Whether a value is one an input of this kind takes: a truth value for a boolean, a
declared symbol for a list, the set of some declared symbols for a selection, a number for a
number or an amount, a date for a date. -/
def InputSpec.Admits : InputSpec → Value → Prop
  | .boolean _, v => ∃ b, v = .bool b
  | .list cs _, v => ∃ c ∈ cs, v = .sym (symbolOf c.symbol)
  | .multilist cs _, v => ∃ ss : List (List CodePoint),
      (∀ x ∈ ss, ∃ c ∈ cs, x = symbolOf c.symbol) ∧ v = .set (symbolSet ss)
  | .number .., v | .amount .., v => ∃ d, v = .num d
  | .date .., v => ∃ d, v = .date d

/-- Whether the domain verification gives an input lists every value of its kind: a
boolean, a list, or a selection whose subsets are tried up to its number of choices. -/
def InputSpec.Exhaustive (settings : VerifySettings) : InputSpec → Prop
  | .boolean _ | .list _ _ => True
  | .multilist cs _ => (cs.length : Int) ≤ settings.subsetSize
  | .number .. | .amount .. | .date .. => False

instance (settings : VerifySettings) : DecidablePred (InputSpec.Exhaustive settings)
  | .boolean _ | .list _ _ => isTrue trivial
  | .multilist cs _ => inferInstanceAs (Decidable ((cs.length : Int) ≤ settings.subsetSize))
  | .number .. | .amount .. | .date .. => isFalse id

/-- The combinations of `k` elements are the sublists of length `k`. -/
theorem mem_combinations {α : Type} : ∀ {k : Nat} {xs l : List α},
    l ∈ combinations k xs ↔ l.Sublist xs ∧ l.length = k
  | 0, xs, l => by
    simp only [combinations, List.mem_singleton]
    constructor
    · rintro rfl
      exact ⟨List.nil_sublist xs, rfl⟩
    · rintro ⟨-, h⟩
      exact List.eq_nil_of_length_eq_zero h
  | k + 1, [], l => by
    simp only [combinations, List.not_mem_nil, false_iff, not_and]
    intro h
    rw [List.eq_nil_of_sublist_nil h]
    simp
  | k + 1, x :: xs, l => by
    simp only [combinations, List.mem_append, List.mem_map, mem_combinations]
    constructor
    · rintro (⟨l', ⟨hs, hl⟩, rfl⟩ | ⟨hs, hl⟩)
      · exact ⟨hs.cons_cons x, by simp [hl]⟩
      · exact ⟨hs.cons x, hl⟩
    · rintro ⟨hs, hl⟩
      -- a sublist of `x :: xs` skips `x` or starts with it
      cases hs with
      | cons _ hs => exact .inr ⟨hs, hl⟩
      | cons_cons _ hs => exact .inl ⟨_, ⟨hs, by simpa using hl⟩, rfl⟩

/-- The subsets of at most `n` elements are the sublists of at most `n` elements; there are
none when `n` is negative. -/
theorem mem_subsetsUpTo {α : Type} {n : Int} {xs l : List α} :
    l ∈ subsetsUpTo n xs ↔ l.Sublist xs ∧ (l.length : Int) ≤ n := by
  unfold subsetsUpTo
  split_ifs with hn
  · simp only [List.not_mem_nil, false_iff, not_and]
    intro _
    omega
  · simp only [List.mem_flatMap, List.mem_range, mem_combinations]
    constructor
    · rintro ⟨k, hk, hs, rfl⟩
      exact ⟨hs, by omega⟩
    · rintro ⟨hs, hl⟩
      have := hs.length_le
      exact ⟨l.length, by omega, hs, rfl⟩

/-- A selection of declared symbols is tried as the sublist of the choices it selects: the
same set, whatever the order and repeats of the selection. -/
theorem selection_mem_subsetsUpTo {cs : List Choice} {settings : VerifySettings}
    (hsize : (cs.length : Int) ≤ settings.subsetSize) {ss : List (List CodePoint)}
    (hss : ∀ x ∈ ss, ∃ c ∈ cs, x = symbolOf c.symbol) :
    ∃ sub ∈ subsetsUpTo settings.subsetSize (cs.map fun c => symbolOf c.symbol),
      symbolSet sub = symbolSet ss := by
  let symbols := cs.map fun c => symbolOf c.symbol
  refine ⟨symbols.filter (· ∈ ss), mem_subsetsUpTo.mpr ⟨List.filter_sublist, ?_⟩, ?_⟩
  · have hlen : (symbols.filter (· ∈ ss)).length ≤ cs.length :=
      (List.length_filter_le _ _).trans (List.length_map _).le
    omega
  · -- the filtered choices are exactly the selected symbols
    refine symbolSet_eq_iff.mpr fun x => ?_
    simp only [List.mem_filter, decide_eq_true_eq, and_iff_right_iff_imp]
    intro hx
    obtain ⟨c, hc, rfl⟩ := hss x hx
    exact List.mem_map.mpr ⟨c, hc, rfl⟩

/-- An exhaustive domain has, for every value of its input's kind, a bound value that stands
for it. -/
theorem Input.domain_covers {i : Input} {lits : List Value} {settings : VerifySettings}
    {ds : List BoundValue} (hd : i.domain lits settings = .ok ds)
    (he : i.spec.Exhaustive settings) {v : Value} (hv : i.spec.Admits v) :
    ∃ b ∈ ds, b.toValue = v := by
  unfold Input.domain at hd
  cases hs : i.spec with
  | boolean d =>
    simp only [hs, pure, Except.pure, Except.ok.injEq] at hd
    rw [hs] at hv
    obtain ⟨b, rfl⟩ := hv
    subst hd
    exact ⟨.boolean b, by cases b <;> simp, rfl⟩
  | list cs d =>
    simp only [hs, pure, Except.pure, Except.ok.injEq] at hd
    rw [hs] at hv
    obtain ⟨c, hc, rfl⟩ := hv
    subst hd
    exact ⟨.choice (symbolOf c.symbol), List.mem_map.mpr ⟨c, hc, rfl⟩, rfl⟩
  | multilist cs d =>
    simp only [hs, pure, Except.pure, Except.ok.injEq] at hd
    rw [hs] at hv he
    obtain ⟨ss, hss, rfl⟩ := hv
    obtain ⟨sub, hsub, hset⟩ := selection_mem_subsetsUpTo he hss
    subst hd
    exact ⟨.selection sub, List.mem_map.mpr ⟨sub, hsub, rfl⟩, by simp [BoundValue.toValue, hset]⟩
  | number _ _ _ | amount _ _ | date _ _ _ =>
    rw [hs] at he
    exact he.elim

/-! ### Inputs read by the conditions -/

/-- The inputs a fee's conditions read are the inputs that some condition reads through the
fee's variables. -/
theorem Schedule.mem_conditionInputs {s : Schedule} {f : Fee} {x : String} :
    x ∈ s.conditionInputs f ↔ x ∈ s.inputNames ∧
      ∃ c ∈ f.cases, ∃ cond, c.condition = some cond ∧ x ∈ f.dependencies.reads cond := by
  simp only [Schedule.conditionInputs, List.mem_filter, List.contains_iff_mem, List.mem_flatMap]
  refine and_congr_right fun _ => exists_congr fun c => and_congr_right fun _ => ?_
  cases c.condition <;> simp

/-- A name of an input is found, as the first input of that name. -/
theorem Schedule.exists_input? {s : Schedule} {n : String} (h : n ∈ s.inputNames) :
    ∃ i ∈ s.inputs, s.input? n = some i ∧ i.name = n := by
  cases hfind : s.inputs.find? (·.name == n) with
  | none =>
    obtain ⟨i, hi, rfl⟩ := List.mem_map.mp h
    have := List.find?_eq_none.mp hfind i hi
    simp at this
  | some i =>
    have hname := List.find?_some hfind
    exact ⟨i, List.mem_of_find?_eq_some hfind, hfind, by simpa using hname⟩

/-! ### Combinations -/

/-- Every choice of one value from each domain is the combination at some position of the
product. -/
theorem exists_comboAt {α : Type} [Inhabited α] {ds : List (List α)} {c : List α}
    (h : List.Forall₂ (· ∈ ·) c ds) : ∃ k < (ds.map List.length).prod, comboAt ds k = c := by
  induction h with
  | nil => exact ⟨0, by simp, rfl⟩
  | @cons x d c ds hx _ ih =>
    obtain ⟨a, ha, rfl⟩ := List.getElem_of_mem hx
    obtain ⟨b, hb, rfl⟩ := ih
    -- position `a` in the first domain, `b` in the product of the others
    set inner := (ds.map List.length).prod
    have hpos : 0 < inner := by omega
    refine ⟨inner * a + b, ?_, ?_⟩
    · calc inner * a + b < inner * a + inner := by omega
        _ = inner * (a + 1) := by rw [Nat.mul_succ]
        _ ≤ inner * d.length := Nat.mul_le_mul_left _ ha
        _ = ((d :: ds).map List.length).prod := by simp [inner, Nat.mul_comm]
    · have hdiv : (inner * a + b) / inner = a := by
        rw [Nat.mul_add_div hpos, Nat.div_eq_of_lt hb, Nat.add_zero]
      have hmod : (inner * a + b) % inner = b := by
        rw [Nat.mul_add_mod, Nat.mod_eq_of_lt hb]
      simp only [comboAt, ← List.prod_eq_foldl]
      rw [hdiv, hmod]
      simp [ha]

/-- Choosing, for each name, a value of its domain gives a combination of the domains. -/
theorem exists_choices {β γ : Type} {R : β → List γ → Prop} {P : β → γ → Prop}
    {names : List β} {domains : List (List γ)} (h : List.Forall₂ R names domains)
    (hchoose : ∀ n ∈ names, ∀ d, R n d → ∃ b ∈ d, P n b) :
    ∃ combo, List.Forall₂ (· ∈ ·) combo domains ∧ List.Forall₂ P names combo := by
  induction h with
  | nil => exact ⟨[], .nil, .nil⟩
  | @cons n d ns ds hnd _ ih =>
    obtain ⟨b, hb, hp⟩ := hchoose n List.mem_cons_self d hnd
    obtain ⟨combo, hc, hps⟩ := ih fun m hm => hchoose m (List.mem_cons_of_mem _ hm)
    exact ⟨b :: combo, .cons hb hc, .cons hp hps⟩

namespace Completeness

/-- The environment in which the search tries a combination: the values chosen for the
names, before the base environment. -/
def comboEnv (names : List String) (combo : List BoundValue) (base : Env) : Env :=
  (names.zip combo).map (fun p => (p.1, p.2.toValue)) ++ base

/-- In the environment of a combination, a name takes the first value chosen for it. -/
theorem lookup_comboEnv {names : List String} {combo : List BoundValue} {env base : Env}
    (h : List.Forall₂ (fun n b => env.lookup n = some b.toValue) names combo) :
    ∀ n ∈ names, (comboEnv names combo base).lookup n = env.lookup n := by
  induction h with
  | nil => exact fun n hn => absurd hn List.not_mem_nil
  | @cons m b ns bs hm _ ih =>
    intro n hn
    by_cases hnm : n = m
    · subst hnm
      simp [comboEnv, hm]
    · have hn' : n ∈ ns := (List.mem_cons.mp hn).resolve_left hnm
      simpa [comboEnv, List.lookup_cons, beq_false_of_ne hnm] using ih n hn'

/-! ### The search -/

section Search

variable {s : Schedule} {f : Fee} {settings : VerifySettings} {names : List String}
  {domains : List (List BoundValue)} {base : Env}

/-- One step of the search: the combination at `k` fires and the search goes on with the
same findings, or it is a gap and the search goes on with one more uncovered combination.
Any other failure ends the search with it. -/
theorem search_step {remaining k : Nat} {acc found : Search} {σ : Array Event}
    (h : ((search s f settings names domains base acc (remaining + 1) k).run σ).1 = .ok found) :
    ∃ σ', (∃ o, feeOutcome f (comboEnv names (comboAt domains k) base) = .ok o ∧ o.fired.isSome ∧
        ((search s f settings names domains base acc remaining (k + 1)).run σ').1 = .ok found) ∨
      ∃ acc' : Search, acc'.uncovered = acc.uncovered + 1 ∧
        ((search s f settings names domains base acc' remaining (k + 1)).run σ').1 = .ok found := by
  rw [search, Traced.run_bind, evaluateFee_run] at h
  cases ho : feeOutcome f (comboEnv names (comboAt domains k) base) with
  | ok o =>
    rw [comboEnv] at ho
    rw [ho] at h
    by_cases hfired : o.fired.isSome
    · simp only [hfired, if_true] at h
      exact ⟨_, .inl ⟨o, rfl, hfired, h⟩⟩
    · simp only [hfired, Bool.false_eq_true, if_false] at h
      exact ⟨_, .inr ⟨_, rfl, h⟩⟩
  | error e =>
    rw [comboEnv] at ho
    rw [ho] at h
    -- an evaluation error is a gap; any other error stops the search
    by_cases hkind : (e.kind == "EvaluationError") = true
    · simp only [hkind, if_true] at h
      exact ⟨_, .inr ⟨_, rfl, h⟩⟩
    · simp only [hkind, Bool.false_eq_true, if_false, Traced.run_pure] at h
      cases h

/-- The uncovered combinations only grow along a search; if they did not grow at all, a case
fired on every combination checked. -/
theorem search_fires :
    ∀ {remaining k : Nat} {acc found : Search} {σ : Array Event},
      ((search s f settings names domains base acc remaining k).run σ).1 = .ok found →
      acc.uncovered ≤ found.uncovered ∧
        (found.uncovered = acc.uncovered → ∀ j < remaining, ∃ o,
          feeOutcome f (comboEnv names (comboAt domains (k + j)) base) = .ok o ∧ o.fired.isSome)
  | 0, k, acc, found, σ, h => by
    simp only [search, Traced.run_pure, Except.ok.injEq] at h
    subst h
    exact ⟨Nat.le_refl _, fun _ j hj => absurd hj (Nat.not_lt_zero j)⟩
  | remaining + 1, k, acc, found, σ, h => by
    obtain ⟨σ', ⟨o, ho, hfired, h⟩ | ⟨acc', hacc', h⟩⟩ := search_step h
    · -- the combination at `k` fires: the rest is the search from `k + 1`
      obtain ⟨hle, hrest⟩ := search_fires h
      refine ⟨hle, fun heq j hj => ?_⟩
      cases j with
      | zero => exact ⟨o, ho, hfired⟩
      | succ j =>
        rw [show k + (j + 1) = k + 1 + j by omega]
        exact hrest heq j (by omega)
    · -- a gap: the findings grow, so they cannot end as they started
      obtain ⟨hle, -⟩ := search_fires h
      exact ⟨by omega, fun heq => by omega⟩

end Search

end Completeness

open Completeness

/-- A complete verdict computed every domain and checked the whole product of the domains,
and a case fired on each combination. -/
theorem Schedule.checkCompleteness_complete {s : Schedule} {f : Fee} {settings : VerifySettings}
    {r : CompletenessReport}
    (h : (s.checkCompleteness f settings).run'.1 = .ok r) (hc : r.status = .complete) :
    ∃ domains, List.Forall₂ (fun n d => ∀ i, s.input? n = some i →
        i.domain (f.literalBoundaries n) settings = .ok d) (s.conditionInputs f) domains ∧
      ∀ k < (domains.map List.length).prod, ∃ o,
        feeOutcome f (comboEnv (s.conditionInputs f) (comboAt domains k) s.defaultEnv) = .ok o ∧
          o.fired.isSome := by
  unfold Schedule.checkCompleteness Traced.run' at h
  dsimp only at h
  split at h
  · cases h
  · rename_i domains hd
    set size := (domains.map List.length).foldl (· * ·) 1 with hsize
    set limit := settings.maxCombinations.toNat
    rw [Traced.run_note, Traced.run_bind] at h
    cases hs : ((search s f settings (s.conditionInputs f) domains s.defaultEnv {} (min size limit)
      0).run (#[].push (Event.domainSize f.name (s.conditionInputs f).length size))).1 with
    | error e =>
      rw [hs] at h
      cases h
    | ok found =>
      rw [hs] at h
      dsimp only at h
      -- whether or not the search stopped early, the report is built from what it found
      have hstatus : (if found.uncovered > 0 then Coverage.incomplete
          else if min size limit < size then .unfinished else .complete) = .complete := by
        split at h
        · rw [Traced.run_note, Traced.run_pure] at h
          cases h
          exact hc
        · rw [Traced.run_pure] at h
          cases h
          exact hc
      -- so no gap was found, and the limit did not cut the product short
      split_ifs at hstatus with hgap hstop
      refine ⟨domains, mapM_ok_iff.mp hd |>.imp fun n d hnd i hi => ?_, fun k hk => ?_⟩
      · rw [hi] at hnd
        exact hnd
      · have hall := (search_fires hs).2 (by simpa using hgap) k (by
          rw [← List.prod_eq_foldl] at hsize
          omega)
        simpa using hall

/-- A complete verdict is sound when every domain it enumerates is exhaustive: in a checked
schedule, if the inputs a fee's conditions read are booleans, lists and selections whose
subsets are tried up to their number of choices, and the check of the fee reports it
complete, then some case of the fee fires in every environment that gives each of those
inputs a value of its kind, whatever it gives the other inputs, unless the fee fails. -/
theorem complete_fee_fires {s : Schedule} (hs : s.Checked) {f : Fee} (hf : f ∈ s.fees)
    {settings : VerifySettings}
    (hexh : ∀ i ∈ s.inputs, i.name ∈ s.conditionInputs f → i.spec.Exhaustive settings)
    {r : CompletenessReport} (hr : (s.checkCompleteness f settings).run'.1 = .ok r)
    (hc : r.status = .complete) {env : Env}
    (henv : ∀ i ∈ s.inputs, i.name ∈ s.conditionInputs f →
      ∃ v, env.lookup i.name = some v ∧ i.spec.Admits v)
    {o : FeeOutcome} (ho : (evaluateFee f env).run'.1 = .ok o) : o.fired.isSome := by
  obtain ⟨domains, hdomains, hfires⟩ := s.checkCompleteness_complete hr hc
  -- each condition input has a value in its domain standing for the one `env` gives it
  obtain ⟨combo, hcombo, hvalues⟩ :=
    exists_choices hdomains (P := fun n b => env.lookup n = some b.toValue) fun n hn d hd => by
      obtain ⟨i, hi, hfind, rfl⟩ := s.exists_input? (Schedule.mem_conditionInputs.mp hn).1
      obtain ⟨v, hv, hadm⟩ := henv i hi hn
      obtain ⟨b, hb, rfl⟩ := Input.domain_covers (hd i hfind) (hexh i hi hn) hadm
      exact ⟨b, hb, hv⟩
  -- that choice is one of the combinations checked, where a case fired
  obtain ⟨k, hk, rfl⟩ := exists_comboAt hcombo
  obtain ⟨o', ho', hfired⟩ := hfires k hk
  -- the conditions read only condition inputs, on which `env` and the combination agree
  have hreads : ∀ c ∈ f.cases, ∀ cond, c.condition = some cond →
      ∀ x ∈ f.dependencies.reads cond, x ∈ s.conditionInputs f :=
    fun c hc cond hcond x hx => Schedule.mem_conditionInputs.mpr
      ⟨hs.reads_inputs hf c hc cond hcond x hx, c, hc, cond, hcond, hx⟩
  have hagree : ∀ n ∈ s.conditionInputs f,
      env.lookup n = (comboEnv (s.conditionInputs f) (comboAt domains k) s.defaultEnv).lookup n :=
    fun n hn => (lookup_comboEnv hvalues n hn).symm
  rw [Traced.run'_eq_run, evaluateFee_run] at ho
  exact feeOutcome_fires_of_agree hreads hagree ho' hfired ho

/-- A schedule whose one fee has conditions on a list, on a selection through a variable
and on a boolean, and an amount that reads a number. -/
def designationSchedule : Schedule :=
  ⟨[⟨"entity", "Entity", .list [⟨"large", "Large"⟩, ⟨"small", "Small"⟩] "large", none⟩,
      ⟨"states", "States", .multilist [⟨"DE", "Germany"⟩, ⟨"FR", "France"⟩] [], none⟩,
      ⟨"urgent", "Urgent", .boolean false, none⟩,
      ⟨"claims", "Claims", .number (Decimal.ofNat 1) (Decimal.ofNat 50) (Decimal.ofNat 10), none⟩],
    [⟨"f", [⟨.binary .mul (.ref "claims") (.num (Decimal.ofNat 10)),
          some (.binary .eq (.ref "entity") (.sym "large"))⟩,
        ⟨.num (Decimal.ofNat 50), some (.binary .and (.binary .gt (.ref "n") (.num (Decimal.ofNat 1)))
          (.binary .contains (.ref "states") (.sym "DE")))⟩,
        ⟨.num (Decimal.ofNat 20), some (.ref "urgent")⟩,
        ⟨.num (Decimal.ofNat 10), some (.unary .not (.ref "urgent"))⟩],
      [⟨"n", .call .count [.ref "states"]⟩], false, none⟩],
    [], [], [], none⟩

/-- An environment for `designationSchedule` where the selection holds both symbols and the
number is one that a check does not try. -/
def designationEnv : Env :=
  [("entity", .sym (symbolOf "small")), ("states", .set (symbolSet [symbolOf "FR", symbolOf "DE"])),
    ("urgent", .bool false), ("claims", .num (Decimal.ofNat 37))]

/-- Checked with selections of up to two symbols, the fee of `designationSchedule` is
complete, and a case fires in `designationEnv`. -/
theorem designation_fee_fires :
    ∃ f ∈ designationSchedule.fees, ∃ (rep : CompletenessReport) (o : FeeOutcome),
      designationSchedule.Checked ∧
      (∀ i ∈ designationSchedule.inputs, i.name ∈ designationSchedule.conditionInputs f →
        i.spec.Exhaustive { subsetSize := 2 }) ∧
      (designationSchedule.checkCompleteness f { subsetSize := 2 }).run'.1 = .ok rep ∧
      rep.status = .complete ∧
      (∀ i ∈ designationSchedule.inputs, i.name ∈ designationSchedule.conditionInputs f → ∃ v,
        designationEnv.lookup i.name = some v ∧ i.spec.Admits v) ∧
      (evaluateFee f designationEnv).run'.1 = .ok o ∧ o.fired.isSome := by
  -- the check of the fee reports it complete, and the fee does not fail in the environment
  have hread : (designationSchedule.fees.any fun f =>
      (designationSchedule.checkCompleteness f { subsetSize := 2 }).run'.1.toOption.any
        (·.status == .complete) &&
      (evaluateFee f designationEnv).run'.1.toOption.isSome) = true := by
    decide +kernel
  simp only [List.any_eq_true, Bool.and_eq_true, Option.any_eq_true, toOption_eq_some, beq_iff_eq,
    Option.isSome_iff_exists] at hread
  obtain ⟨f, hf, ⟨rep, hrep, hcomplete⟩, o, ho⟩ := hread
  have hfee := hf
  simp only [designationSchedule, List.mem_singleton] at hfee
  have hchecked : designationSchedule.Checked := by
    unfold Schedule.Checked
    decide +kernel
  have hexh : ∀ i ∈ designationSchedule.inputs, i.name ∈ designationSchedule.conditionInputs f →
      i.spec.Exhaustive { subsetSize := 2 } := by
    rw [hfee]
    decide +kernel
  -- the list, the selection and the boolean take values of their kinds; the number is no
  -- condition input
  have henv : ∀ i ∈ designationSchedule.inputs, i.name ∈ designationSchedule.conditionInputs f →
      ∃ v, designationEnv.lookup i.name = some v ∧ i.spec.Admits v := by
    intro i hi hn
    simp only [designationSchedule, List.mem_cons, List.not_mem_nil, or_false] at hi
    rcases hi with rfl | rfl | rfl | rfl
    · exact ⟨.sym (symbolOf "small"), rfl, ⟨"small", "Small"⟩, by simp, rfl⟩
    · exact ⟨.set (symbolSet [symbolOf "FR", symbolOf "DE"]), rfl, [symbolOf "FR", symbolOf "DE"],
        by decide, rfl⟩
    · exact ⟨.bool false, rfl, false, rfl⟩
    · rw [hfee] at hn
      exact absurd hn (by decide +kernel)
  exact ⟨f, hf, rep, o, hchecked, hexh, hrep, hcomplete, henv, ho,
    complete_fee_fires hchecked hf hexh hrep hcomplete henv ho⟩

end FeeSchedule
