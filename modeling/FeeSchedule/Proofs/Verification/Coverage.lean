import FeeSchedule.Proofs.Verification.Completeness

/-!
# `FeeSchedule.Proofs.Verification.Coverage`: a completeness report counts exactly

`Schedule.checkCompleteness` walks the combinations of the domains of the inputs a fee's
conditions read in the order of their product (`domainProduct`: the first input varies
slowest, the last fastest), the other inputs at their defaults, and stops after
`maxCombinations` of them. A combination on which the fee fails with an evaluation error, or
fires no case, is a gap; the first `maxGaps` gaps are kept. Its report counts exactly that:

* `length_domainProduct`, `getElem?_domainProduct`: the product has as many combinations as
  the product of the sizes of the domains, and the one at position `k` is `comboAt`, so the
  positions the search visits are a prefix of the product (`map_comboAt_range'`).
* `Completeness.search_succ`: one step of the search settles the combination at its position
  (its evaluation succeeds or fails with an evaluation error) and records it when it is a
  gap; `Completeness.search_run`: a whole search counts the gaps among the combinations it
  visits (`gapsAmong`) and keeps the first of them up to `maxGaps`.
* `Schedule.checkCompleteness_report`: a report is built from the domains of the condition
  inputs and the findings of a search over the first `min size maxCombinations` positions.
* `completeness_report_counts`: the counts, gaps and verdict of a report, from the above.
-/

set_option autoImplicit false

namespace FeeSchedule

/-! ### The product of the domains -/

/-- Every choice of one value from each domain, in lexicographic order: the first domain
varies slowest and the last fastest. -/
def domainProduct {α : Type} : List (List α) → List (List α)
  | [] => [[]]
  | d :: ds => d.flatMap fun x => (domainProduct ds).map (x :: ·)

theorem length_domainProduct {α : Type} :
    ∀ ds : List (List α), (domainProduct ds).length = (ds.map List.length).prod
  | [] => rfl
  | d :: ds => by
    simp [domainProduct, List.length_flatMap, length_domainProduct ds]

/-- An element of a concatenation of blocks of one length `m` is found in the block of its
position divided by `m`, at the remainder. -/
theorem getElem?_flatMap_of_length {α β : Type} {g : α → List β} {m : Nat} (hm : 0 < m)
    (hg : ∀ x, (g x).length = m) :
    ∀ (l : List α) (k : Nat), (l.flatMap g)[k]? = l[k / m]?.bind fun x => (g x)[k % m]?
  | [], k => by simp
  | x :: l, k => by
    rw [List.flatMap_cons]
    by_cases hk : k < m
    · rw [List.getElem?_append_left (by rw [hg]; exact hk), Nat.div_eq_of_lt hk,
        Nat.mod_eq_of_lt hk]
      simp
    · -- past the first block: one block fewer, and the position moves back by `m`
      have hle : m ≤ k := Nat.le_of_not_lt hk
      rw [List.getElem?_append_right (by rw [hg]; exact hle), hg,
        getElem?_flatMap_of_length hm hg l, Nat.div_eq_sub_div hm hle, Nat.mod_eq_sub_mod hle]
      simp

/-- The combination at a position of the product is `comboAt` there. -/
theorem getElem?_domainProduct {α : Type} [Inhabited α] :
    ∀ (ds : List (List α)) {k : Nat}, k < (ds.map List.length).prod →
      (domainProduct ds)[k]? = some (comboAt ds k)
  | [], k, hk => by
    have hk0 : k = 0 := by simpa using hk
    subst hk0
    rfl
  | d :: ds, k, hk => by
    have hk' : k < d.length * (ds.map List.length).prod := by simpa using hk
    have hpos : 0 < (ds.map List.length).prod := Nat.pos_of_ne_zero fun h0 => by simp [h0] at hk'
    have hq : k / (ds.map List.length).prod < d.length := Nat.div_lt_of_lt_mul (by
      rw [Nat.mul_comm]
      exact hk')
    rw [domainProduct, getElem?_flatMap_of_length hpos (fun x => by
        simp [length_domainProduct]), List.getElem?_eq_getElem hq, Option.bind_some,
      List.getElem?_map, getElem?_domainProduct ds (Nat.mod_lt k hpos)]
    simp [comboAt, ← List.prod_eq_foldl, List.getElem?_eq_getElem hq]

/-- The combinations at the first `n` positions are the first `n` of the product. -/
theorem map_comboAt_range' {α : Type} [Inhabited α] {ds : List (List α)} {n : Nat}
    (hn : n ≤ (ds.map List.length).prod) :
    (List.range' 0 n).map (comboAt ds) = (domainProduct ds).take n := by
  apply List.ext_getElem?
  intro i
  rw [List.getElem?_map, List.getElem?_take]
  by_cases hi : i < n
  · rw [List.getElem?_range' hi, if_pos hi, getElem?_domainProduct ds (by omega)]
    simp
  · rw [if_neg hi, List.getElem?_eq_none (by simpa using Nat.le_of_not_lt hi)]
    rfl

/-! ### The gaps among combinations -/

namespace Completeness

/-- Whether an evaluation leaves its combination uncovered: it fails with an evaluation
error, or it fires no case. -/
def leavesGap : Except EvalFault FeeOutcome → Bool
  | .ok o => o.fired.isNone
  | .error e => e.kind == "EvaluationError"

/-- Whether the search goes on past an evaluation: it succeeds, or fails with an evaluation
error. -/
def settles : Except EvalFault FeeOutcome → Bool
  | .ok _ => true
  | .error e => e.kind == "EvaluationError"

/-- The message of an evaluation that failed. -/
def failureMessage : Except EvalFault FeeOutcome → Option String
  | .ok _ => none
  | .error e => some e.message

/-- The evaluation of a fee on a combination of values for the named inputs, the other names
taking their values from `base`. -/
def comboOutcome (f : Fee) (names : List String) (base : Env) (c : List BoundValue) :
    Except EvalFault FeeOutcome :=
  (evaluateFee f (comboEnv names c base)).run'.1

theorem comboOutcome_eq (f : Fee) (names : List String) (base : Env) (c : List BoundValue) :
    comboOutcome f names base c = feeOutcome f (comboEnv names c base) :=
  evaluateFee_run f _ _

/-- The gaps among combinations, in order, each with the message of its failure if it has
one. -/
def gapsAmong (f : Fee) (names : List String) (base : Env) (cs : List (List BoundValue)) :
    List Gap :=
  (cs.filter fun c => leavesGap (comboOutcome f names base c)).map fun c =>
    ⟨names.zip c, failureMessage (comboOutcome f names base c)⟩

theorem gapsAmong_cons {f : Fee} {names : List String} {base : Env} {c : List BoundValue}
    {cs : List (List BoundValue)} :
    gapsAmong f names base (c :: cs) =
      if leavesGap (comboOutcome f names base c) then
        ⟨names.zip c, failureMessage (comboOutcome f names base c)⟩ :: gapsAmong f names base cs
      else gapsAmong f names base cs := by
  unfold gapsAmong
  rw [List.filter_cons]
  split <;> rfl

/-- The findings of the search with one more gap, kept while fewer than `maxGaps` are. -/
def Search.record (settings : VerifySettings) (acc : Search) (g : Gap) : Search :=
  ⟨acc.uncovered + 1, if (acc.gaps.size : Int) < settings.maxGaps then acc.gaps.push g else acc.gaps⟩

@[simp] theorem Search.record_uncovered (settings : VerifySettings) (acc : Search) (g : Gap) :
    (acc.record settings g).uncovered = acc.uncovered + 1 := rfl

/-- Recording a gap keeps the first gaps up to `maxGaps`: the kept gaps followed by those
still to come, cut at the room left, do not change. -/
theorem Search.record_gaps (settings : VerifySettings) (acc : Search) (g : Gap) (rest : List Gap) :
    (acc.record settings g).gaps.toList ++
        rest.take (settings.maxGaps.toNat - (acc.record settings g).gaps.size) =
      acc.gaps.toList ++ (g :: rest).take (settings.maxGaps.toNat - acc.gaps.size) := by
  unfold Search.record
  dsimp only
  split
  · rename_i hroom
    -- there is room for `g`, and one place less after it
    have hleft : settings.maxGaps.toNat - acc.gaps.size = settings.maxGaps.toNat -
        (acc.gaps.size + 1) + 1 := by omega
    rw [Array.toList_push, Array.size_push, hleft, List.take_succ_cons, List.append_assoc]
    rfl
  · rename_i hfull
    -- the gaps are full: nothing more is kept
    have hnone : settings.maxGaps.toNat - acc.gaps.size = 0 := by omega
    rw [hnone, List.take_zero, List.take_zero]

section Search

variable {s : Schedule} {f : Fee} {settings : VerifySettings} {names : List String}
  {domains : List (List BoundValue)} {base : Env}

/-- One step of a search that succeeds: the combination at position `k` settles, and the
search goes on from `k + 1` with the gap it leaves recorded, if it leaves one. -/
theorem search_succ {remaining k : Nat} {acc found : Search} {σ : Array Event}
    {r : Except EvalFault FeeOutcome} (hr : comboOutcome f names base (comboAt domains k) = r)
    (h : ((search s f settings names domains base acc (remaining + 1) k).run σ).1 = .ok found) :
    settles r = true ∧ ∃ σ', ((search s f settings names domains base
      (if leavesGap r then acc.record settings ⟨names.zip (comboAt domains k), failureMessage r⟩
        else acc) remaining (k + 1)).run σ').1 = .ok found := by
  rw [comboOutcome_eq, comboEnv] at hr
  rw [search, Traced.run_bind, evaluateFee_run, hr] at h
  cases r with
  | ok o =>
    by_cases hfired : o.fired.isSome
    · simp only [hfired, if_true] at h
      have hgap : leavesGap (.ok o) = false := by simpa [leavesGap] using hfired
      exact ⟨rfl, _, by rw [hgap, if_neg Bool.false_ne_true]; exact h⟩
    · simp only [hfired, Bool.false_eq_true, if_false] at h
      have hgap : leavesGap (.ok o) = true := by simpa [leavesGap] using hfired
      exact ⟨rfl, _, by rw [hgap, if_pos rfl]; exact h⟩
  | error e =>
    -- an evaluation error is a gap; any other failure ends the search
    by_cases hkind : (e.kind == "EvaluationError") = true
    · simp only [hkind, if_true] at h
      exact ⟨hkind, _, by rw [show leavesGap (.error e) = true from hkind, if_pos rfl]; exact h⟩
    · simp only [hkind, Bool.false_eq_true, if_false, Traced.run_pure] at h
      cases h

/-- A search over `remaining` positions from `k` that succeeds has settled every combination
there; it counts their gaps and keeps them, in order, while fewer than `maxGaps` are kept.
The induction runs over the positions, one step of the search at a time. -/
theorem search_run :
    ∀ {remaining k : Nat} {acc found : Search} {σ : Array Event},
      ((search s f settings names domains base acc remaining k).run σ).1 = .ok found →
      (∀ c ∈ (List.range' k remaining).map (comboAt domains),
        settles (comboOutcome f names base c) = true) ∧
      found.uncovered = acc.uncovered +
        (gapsAmong f names base ((List.range' k remaining).map (comboAt domains))).length ∧
      found.gaps.toList = acc.gaps.toList ++
        (gapsAmong f names base ((List.range' k remaining).map (comboAt domains))).take
          (settings.maxGaps.toNat - acc.gaps.size)
  | 0, k, acc, found, σ, h => by
    simp only [search, Traced.run_pure, Except.ok.injEq] at h
    subst h
    simp [gapsAmong]
  | remaining + 1, k, acc, found, σ, h => by
    obtain ⟨hsettles, σ', hrest⟩ := search_succ rfl h
    obtain ⟨hall, hcount, hgaps⟩ := search_run hrest
    rw [List.range'_succ, List.map_cons, gapsAmong_cons]
    refine ⟨?_, ?_, ?_⟩
    · intro c hc
      rcases List.mem_cons.mp hc with rfl | hc
      · exact hsettles
      · exact hall c hc
    · -- a gap here counts once more than the search from `k + 1` started with
      split
      · rename_i hgap
        rw [if_pos hgap] at hcount
        rw [hcount, Search.record_uncovered, List.length_cons]
        omega
      · rename_i hgap
        rw [if_neg hgap] at hcount
        exact hcount
    · split
      · rename_i hgap
        rw [if_pos hgap] at hgaps
        rw [hgaps, Search.record_gaps]
      · rename_i hgap
        rw [if_neg hgap] at hgaps
        exact hgaps

end Search

end Completeness

open Completeness

/-! ### The report -/

/-- The verdict of a report from the gaps counted `u`, the positions checked `m` and the size
`N` of the product: incomplete when there is a gap, partial when the search stopped short
without one, complete otherwise. -/
theorem verdict_iff {u m N : Nat} (hm : m ≤ N) {v : Coverage}
    (hv : v = if u > 0 then .incomplete else if m < N then .unfinished else .complete) :
    (v = .incomplete ↔ 0 < u) ∧ (v = .unfinished ↔ u = 0 ∧ m < N) ∧
      (v = .complete ↔ u = 0 ∧ m = N) := by
  subst hv
  by_cases hu : 0 < u
  · rw [if_pos hu]
    refine ⟨iff_of_true rfl hu, iff_of_false nofun (by omega), iff_of_false nofun (by omega)⟩
  · rw [if_neg hu]
    by_cases hmN : m < N
    · rw [if_pos hmN]
      exact ⟨iff_of_false nofun hu, iff_of_true rfl ⟨by omega, hmN⟩,
        iff_of_false nofun (by omega)⟩
    · rw [if_neg hmN]
      exact ⟨iff_of_false nofun hu, iff_of_false nofun (by omega),
        iff_of_true rfl ⟨by omega, by omega⟩⟩

/-- The domains a completeness check computes belong, one by one, to the inputs its
conditions read, with the literals the fee compares each with. -/
theorem Schedule.conditionDomains_forall₂ {s : Schedule} {f : Fee} {settings : VerifySettings}
    {domains : List (List BoundValue)}
    (hd : (s.conditionInputs f).mapM (fun n => match s.input? n with
      | some i => i.domain (f.literalBoundaries n) settings
      | none => pure []) = .ok domains) :
    List.Forall₂ (fun n d => ∃ i, s.input? n = some i ∧
      i.domain (f.literalBoundaries n) settings = .ok d) (s.conditionInputs f) domains := by
  -- every condition input is an input, so its domain is that of the input of its name
  refine ((List.forall₂_and_left _ _).mpr ⟨fun n hn => (Schedule.mem_conditionInputs.mp hn).1,
    mapM_ok_iff.mp hd⟩).imp fun n d hnd => ?_
  obtain ⟨i, -, hfind, -⟩ := s.exists_input? hnd.1
  have hdom := hnd.2
  rw [hfind] at hdom
  exact ⟨i, hfind, hdom⟩

/-- A report of a completeness check is built from the domains of the inputs the conditions
read and what a search over the first `min size maxCombinations` positions of their product
found: the size of the product, the number of positions checked, the gaps counted and kept,
and the verdict from them. -/
theorem Schedule.checkCompleteness_report {s : Schedule} {f : Fee} {settings : VerifySettings}
    {r : CompletenessReport} (h : (s.checkCompleteness f settings).run'.1 = .ok r) :
    ∃ (domains : List (List BoundValue)) (found : Search) (σ : Array Event),
      List.Forall₂ (fun n d => ∃ i, s.input? n = some i ∧
        i.domain (f.literalBoundaries n) settings = .ok d) (s.conditionInputs f) domains ∧
      ((search s f settings (s.conditionInputs f) domains s.defaultEnv {}
        (min (domainProduct domains).length settings.maxCombinations.toNat) 0).run σ).1 =
          .ok found ∧
      r = ⟨f.name, if found.uncovered > 0 then .incomplete
          else if min (domainProduct domains).length settings.maxCombinations.toNat <
            (domainProduct domains).length then .unfinished else .complete,
        min (domainProduct domains).length settings.maxCombinations.toNat,
        (domainProduct domains).length, found.uncovered, found.gaps.toList,
        s.conditionInputs f⟩ := by
  unfold Schedule.checkCompleteness Traced.run' at h
  dsimp only at h
  split at h
  · cases h
  · rename_i domains hd
    have hdomains := Schedule.conditionDomains_forall₂ hd
    have hsize : (domains.map List.length).foldl (· * ·) 1 = (domainProduct domains).length := by
      rw [length_domainProduct, List.prod_eq_foldl]
    rw [hsize, Traced.run_note, Traced.run_bind] at h
    cases hs : ((search s f settings (s.conditionInputs f) domains s.defaultEnv {}
      (min (domainProduct domains).length settings.maxCombinations.toNat) 0).run
        (#[].push (Event.domainSize f.name (s.conditionInputs f).length
          (domainProduct domains).length))).1 with
    | error e =>
      rw [hs] at h
      cases h
    | ok found =>
      rw [hs] at h
      dsimp only at h
      -- whether or not the search stopped early, the report is built from what it found
      refine ⟨domains, found, _, hdomains, hs, ?_⟩
      split at h
      · rw [Traced.run_note, Traced.run_pure] at h
        cases h
        rfl
      · rw [Traced.run_pure] at h
        cases h
        rfl

/-- A completeness report counts exactly. Let the combinations be the product of the domains
of the inputs the fee's conditions read, in their order, each evaluated with the other inputs
at their defaults. The report gives the size of the product; it checked the first
`maxCombinations` of them (none when the limit is not positive), each of which evaluated or
failed with an evaluation error; it counts the gaps among those, where the fee failed with an
evaluation error or fired no case, and keeps the first `maxGaps` of them in order, with the
message of the failure where there was one. It is `INCOMPLETE` exactly when it found a gap,
`PARTIAL` when it found none but stopped short of the product, and `COMPLETE` when it found
none in the whole product; its gaps are truncated exactly when it counted more than it kept. -/
theorem completeness_report_counts {s : Schedule} {f : Fee} {settings : VerifySettings}
    {r : CompletenessReport} (h : (s.checkCompleteness f settings).run'.1 = .ok r) :
    ∃ domains : List (List BoundValue),
      List.Forall₂ (fun n d => ∃ i, s.input? n = some i ∧
        i.domain (f.literalBoundaries n) settings = .ok d) (s.conditionInputs f) domains ∧
      r.domainSize = (domainProduct domains).length ∧
      r.checked = min settings.maxCombinations.toNat (domainProduct domains).length ∧
      (∀ c ∈ (domainProduct domains).take r.checked,
        settles (comboOutcome f (s.conditionInputs f) s.defaultEnv c) = true) ∧
      r.uncovered = (gapsAmong f (s.conditionInputs f) s.defaultEnv
        ((domainProduct domains).take r.checked)).length ∧
      r.gaps = (gapsAmong f (s.conditionInputs f) s.defaultEnv
        ((domainProduct domains).take r.checked)).take settings.maxGaps.toNat ∧
      (r.status = .incomplete ↔ 0 < r.uncovered) ∧
      (r.status = .unfinished ↔ r.uncovered = 0 ∧ r.checked < r.domainSize) ∧
      (r.status = .complete ↔ r.uncovered = 0 ∧ r.checked = r.domainSize) ∧
      (r.gapsTruncated = true ↔ r.gaps.length < r.uncovered) := by
  obtain ⟨domains, found, σ, hdomains, hsearch, rfl⟩ := s.checkCompleteness_report h
  obtain ⟨hall, hcount, hgaps⟩ := search_run hsearch
  -- the positions the search visits are the first of the product
  have hvisited : (List.range' 0 (min (domainProduct domains).length
      settings.maxCombinations.toNat)).map (comboAt domains) =
      (domainProduct domains).take (min (domainProduct domains).length
        settings.maxCombinations.toNat) :=
    map_comboAt_range' (by rw [← length_domainProduct]; exact Nat.min_le_left _ _)
  rw [hvisited] at hall hcount hgaps
  have hchecked : min (domainProduct domains).length settings.maxCombinations.toNat ≤
      (domainProduct domains).length := Nat.min_le_left _ _
  have hverdict := verdict_iff (u := found.uncovered) (Nat.min_le_left
    (domainProduct domains).length settings.maxCombinations.toNat) rfl
  refine ⟨domains, hdomains, rfl, Nat.min_comm _ _, hall, ?_, ?_, hverdict.1, hverdict.2.1,
    hverdict.2.2, ?_⟩
  · simpa using hcount
  · simpa using hgaps
  · simp [CompletenessReport.gapsTruncated]

/-- A search fee that no case covers when the search is urgent for a small entity. -/
def searchFee : Fee :=
  ⟨"search", [⟨.num (Decimal.ofNat 100),
      some (.binary .and (.ref "urgent") (.binary .eq (.ref "entity") (.sym "large")))⟩,
    ⟨.num (Decimal.ofNat 50), some (.unary .not (.ref "urgent"))⟩], [], false, none⟩

/-- A schedule with the search fee over a flag and a list of two entities. -/
def urgencySchedule : Schedule :=
  ⟨[⟨"urgent", "Urgent", .boolean false, none⟩,
      ⟨"entity", "Entity", .list [⟨"large", "Large"⟩, ⟨"small", "Small"⟩] "large", none⟩],
    [searchFee], [], [], [], none⟩

/-- Checked with no room for gaps, the search fee's report counts its one gap among the four
combinations and keeps none. -/
theorem search_fee_report_counts :
    ∃ r : CompletenessReport,
      (urgencySchedule.checkCompleteness searchFee { maxGaps := 0 }).run'.1 = .ok r ∧
      ∃ domains : List (List BoundValue),
        List.Forall₂ (fun n d => ∃ i, urgencySchedule.input? n = some i ∧
          i.domain (searchFee.literalBoundaries n) { maxGaps := 0 } = .ok d)
          (urgencySchedule.conditionInputs searchFee) domains ∧
        r.domainSize = (domainProduct domains).length ∧
        r.checked = min (10000 : Int).toNat (domainProduct domains).length ∧
        (∀ c ∈ (domainProduct domains).take r.checked, settles
          (comboOutcome searchFee (urgencySchedule.conditionInputs searchFee)
            urgencySchedule.defaultEnv c) = true) ∧
        r.uncovered = (gapsAmong searchFee (urgencySchedule.conditionInputs searchFee)
          urgencySchedule.defaultEnv ((domainProduct domains).take r.checked)).length ∧
        r.gaps = (gapsAmong searchFee (urgencySchedule.conditionInputs searchFee)
          urgencySchedule.defaultEnv ((domainProduct domains).take r.checked)).take (0 : Int).toNat ∧
        (r.status = .incomplete ↔ 0 < r.uncovered) ∧
        (r.status = .unfinished ↔ r.uncovered = 0 ∧ r.checked < r.domainSize) ∧
        (r.status = .complete ↔ r.uncovered = 0 ∧ r.checked = r.domainSize) ∧
        (r.gapsTruncated = true ↔ r.gaps.length < r.uncovered) :=
  ⟨_, rfl, completeness_report_counts rfl⟩

end FeeSchedule
