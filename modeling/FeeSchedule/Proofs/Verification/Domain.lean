import FeeSchedule.Proofs.Decimal.Order
import FeeSchedule.Proofs.Decimal.Finite
import FeeSchedule.Proofs.Syntax.Literals
import FeeSchedule.Proofs.Syntax.Bounds
import FeeSchedule.Proofs.Evaluation.Provenance
import FeeSchedule.Verification.Domain

/-!
# `FeeSchedule.Proofs.Verification.Domain`: ordered domains strictly increase

The domain of a number, an amount or a date input is built as a list of candidates, each
added unless one of equal value is there already, and then sorted. So its values strictly
increase: numbers by value (`Decimal.extended`), dates by day. For numbers this needs the
numbers to be finite, as every number of a parsed schedule is (`parse_numbersFinite`,
`Accepted.inputsFinite`): the comparison that sorts them treats a NaN as equal to every
finite number, and such a list has no order to be sorted in.

* `pairwise_lt_mergeSort`: sorting elements of distinct keys by their keys makes the keys
  strictly increase.
* `Sample.Spread`: the invariant of the numbers collected so far (finite, of distinct
  values), kept by `addNumber` and by each stage of `numericSamples`.
* `numericSamples_increasing`, `dateSamples_increasing`: the samples strictly increase.
* `Fee.literalBoundaries_finite`: the literals a fee compares an input with are finite when
  the fee's numbers are.
* `Input.domain_increasing`: the domain of an input of an ordered kind strictly increases
  (`BoundValue.Below`).
-/

set_option autoImplicit false

namespace FeeSchedule

/-! ### Invariants of folds -/

section Folds

variable {α β ε : Type}

/-- A fold keeps what each of its steps keeps. -/
theorem foldl_invariant {P : β → Prop} {g : β → α → β} :
    ∀ (xs : List α) {b : β}, (∀ c x, x ∈ xs → P c → P (g c x)) → P b → P (xs.foldl g b)
  | [], _, _, hb => hb
  | x :: xs, b, hg, hb => by
    rw [List.foldl_cons]
    exact foldl_invariant xs (fun c y hy => hg c y (List.mem_cons_of_mem x hy))
      (hg b x List.mem_cons_self hb)

/-- A fold that can fail keeps, when it succeeds, what each of its successful steps keeps. -/
theorem foldlM_invariant {P : β → Prop} {g : β → α → Except ε β} :
    ∀ {xs : List α} {b b' : β}, (∀ c x c', x ∈ xs → P c → g c x = .ok c' → P c') → P b →
      xs.foldlM g b = .ok b' → P b' :=
  fun hg hb h => @foldlM_seen_invariant ε α β (fun _ c => P c) g _ [] _ _
    (fun _ x c c' hx hc hstep => hg c x c' hx hc hstep) hb h

/-- Every result of a successful `mapM` has what every successful step gives. -/
theorem mem_of_mapM_ok {P : β → Prop} {f : α → Except ε β} (hf : ∀ a b, f a = .ok b → P b)
    {xs : List α} {ys : List β} (h : xs.mapM f = .ok ys) : ∀ y ∈ ys, P y := by
  have hall : List.Forall₂ (fun _ y => P y) xs ys := (mapM_ok_iff.mp h).imp fun a b => hf a b
  clear h
  induction hall with
  | nil => simp
  | cons hy _ ih => exact List.forall_mem_cons.mpr ⟨hy, ih⟩

end Folds

/-! ### Sorting by a key -/

/-- Sorting a list whose elements have distinct keys, by a comparison that compares their keys,
makes the keys strictly increase. -/
theorem pairwise_lt_mergeSort {α β : Type} [LinearOrder β] (key : α → β) {le : α → α → Bool}
    {l : List α} (hle : ∀ a ∈ l, ∀ b ∈ l, le a b = decide (key a ≤ key b))
    (hne : l.Pairwise fun a b => key a ≠ key b) :
    (l.mergeSort le).Pairwise fun a b => key a < key b := by
  -- the keys of the sorted list are the keys sorted, which never decrease
  have hsorted : ((l.map key).mergeSort fun x y => decide (x ≤ y)).Pairwise
      fun x y => decide (x ≤ y) = true :=
    List.pairwise_mergeSort (fun _ _ _ hab hbc => by simp_all [le_trans (of_decide_eq_true hab)])
      (fun a b => by simpa using le_total a b) _
  rw [← List.map_mergeSort hle, List.pairwise_map] at hsorted
  -- sorting permutes, so the keys stay distinct
  have hdistinct := (List.mergeSort_perm l le).symm.pairwise hne fun h => Ne.symm h
  exact (hsorted.and hdistinct).imp fun ⟨hle, hne⟩ => lt_of_le_of_ne (of_decide_eq_true hle) hne

/-! ### Numbers -/

namespace Sample

/-- The numbers collected so far: finite, and no two of equal value. -/
structure Spread (ds : List Decimal) : Prop where
  finite : ∀ d ∈ ds, d.isFinite = true
  distinct : ds.Pairwise fun a b => a.extended ≠ b.extended

theorem Spread.singleton {d : Decimal} (hd : d.isFinite) : Spread [d] :=
  ⟨by simpa using hd, List.pairwise_singleton _ _⟩

/-- Adding a finite number keeps the numbers spread: it is added only when no number of
equal value is there. -/
theorem Spread.addNumber {ds : List Decimal} {d : Decimal} (h : Spread ds) (hd : d.isFinite) :
    Spread (Sample.addNumber ds d) := by
  unfold Sample.addNumber
  split
  · exact h
  · rename_i hnone
    have hfresh : ∀ a ∈ ds, a.extended ≠ d.extended := by
      intro a ha heq
      apply hnone
      refine List.any_eq_true.mpr ⟨a, ha, ?_⟩
      rw [Decimal.compareNumbers_of_isFinite (h.finite a ha) hd, compare_eq_iff_eq.mpr heq]
      rfl
    refine ⟨fun a ha => ?_, List.pairwise_append.mpr ⟨h.distinct, List.pairwise_singleton _ _,
      fun a ha b hb => ?_⟩⟩
    · rcases List.mem_append.mp ha with ha | ha
      · exact h.finite a ha
      · rw [List.mem_singleton.mp ha]
        exact hd
    · rw [List.mem_singleton.mp hb]
      exact hfresh a ha

/-- Adding finite numbers one after the other keeps the numbers spread. -/
theorem Spread.foldl {ds new : List Decimal} (h : Spread ds) (hnew : ∀ d ∈ new, d.isFinite) :
    Spread (new.foldl Sample.addNumber ds) :=
  foldl_invariant new (fun _ d hd hc => hc.addNumber (hnew d hd)) h

/-- The candidates around a finite literal are finite. -/
theorem around_finite {low lit : Decimal} {high : Option Decimal} {cs : List Decimal}
    (hlit : lit.isFinite) (h : around low high lit = .ok cs) : ∀ c ∈ cs, c.isFinite := by
  unfold around at h
  obtain ⟨below, hbelow, h⟩ := bind_eq_ok.mp h
  obtain ⟨above, habove, h⟩ := bind_eq_ok.mp h
  cases h
  intro c hc
  have hc := (List.mem_filter.mp hc).1
  simp only [List.mem_cons, List.not_mem_nil, or_false] at hc
  rcases hc with rfl | rfl | rfl
  · exact Decimal.sub_isFinite hlit (Decimal.ofNat_isFinite 1) hbelow
  · exact hlit
  · exact Decimal.add_isFinite hlit (Decimal.ofNat_isFinite 1) habove

/-- The inner points between two finite numbers are finite. -/
theorem innerPoints_finite {low top : Decimal} {points : Int} {inner : List Decimal}
    (hlow : low.isFinite) (htop : top.isFinite) (h : innerPoints low top points = .ok inner) :
    ∀ x ∈ inner, x.isFinite := by
  unfold innerPoints at h
  obtain ⟨span, hspan, h⟩ := bind_eq_ok.mp h
  obtain ⟨step, hstep, h⟩ := bind_eq_ok.mp h
  have hstep := Decimal.div_isFinite (Decimal.sub_isFinite htop hlow hspan)
    (Decimal.ofInt_isFinite _) hstep
  refine mem_of_mapM_ok (fun i x hx => ?_) h
  obtain ⟨offset, hoffset, hx⟩ := bind_eq_ok.mp hx
  exact Decimal.add_isFinite hlow (Decimal.mul_isFinite hstep (Decimal.ofNat_isFinite _) hoffset) hx

end Sample

open Sample in
/-- The numeric samples between finite bounds, around finite literals, are finite and strictly
increase in value. -/
theorem numericSamples_increasing {low default : Decimal} {high : Option Decimal}
    {literals : List Decimal} {points : Int} {ss : List Decimal} (hlow : low.isFinite)
    (hhigh : ∀ h ∈ high, h.isFinite) (hdefault : default.isFinite)
    (hliterals : ∀ l ∈ literals, l.isFinite)
    (h : numericSamples low high default literals points = .ok ss) :
    (∀ d ∈ ss, d.isFinite) ∧ ss.Pairwise fun a b => a.extended < b.extended := by
  unfold numericSamples at h
  have hstart : Spread (high.toList.foldl addNumber (addNumber [low] default)) :=
    ((Spread.singleton hlow).addNumber hdefault).foldl (by simpa using hhigh)
  obtain ⟨withLiterals, hwith, h⟩ := bind_eq_ok.mp h
  -- each literal adds its candidates around it
  have hwith : Spread withLiterals := by
    refine foldlM_invariant (fun acc lit acc' hlit hacc hstep => ?_) hstart hwith
    obtain ⟨cs, hcs, hstep⟩ := bind_eq_ok.mp hstep
    cases hstep
    exact hacc.foldl (around_finite (hliterals lit hlit) hcs)
  have htop : (high.getD default).isFinite := by
    cases high with
    | none => exact hdefault
    | some hi => exact hhigh hi rfl
  -- the samples are the candidates sorted, with the inner points when there are any
  obtain ⟨all, hall, rfl⟩ : ∃ all, Spread all ∧
      ss = all.mergeSort fun a b => a.compareNumbers b != .gt := by
    dsimp only at h
    split at h
    · obtain ⟨inner, hinner, h⟩ := bind_eq_ok.mp h
      obtain ⟨all, hall, h⟩ := bind_eq_ok.mp h
      cases hall
      cases h
      exact ⟨_, hwith.foldl (innerPoints_finite hlow htop hinner), rfl⟩
    · obtain ⟨all, hall, h⟩ := bind_eq_ok.mp h
      cases hall
      cases h
      exact ⟨_, hwith, rfl⟩
  refine ⟨fun d hd => hall.finite d (List.mem_mergeSort.mp hd),
    pairwise_lt_mergeSort Decimal.extended (fun a ha b hb => ?_) hall.distinct⟩
  rw [Decimal.compareNumbers_of_isFinite (hall.finite a ha) (hall.finite b hb), compare_bne_gt]

/-! ### Dates -/

/-- Adding a date keeps the days collected apart: it is added only when it is not there. -/
theorem Sample.addDate_apart {ds : List Date} (h : ds.Pairwise fun a b => a.ordinal ≠ b.ordinal)
    (d : Date) : (addDate ds d).Pairwise fun a b => a.ordinal ≠ b.ordinal := by
  unfold addDate
  split
  · exact h
  · rename_i hnone
    refine List.pairwise_append.mpr ⟨h, List.pairwise_singleton _ _, fun a ha b hb heq => ?_⟩
    rw [List.mem_singleton.mp hb] at heq
    -- a date is its day number
    have hd : a = d := by
      cases a
      cases d
      simp_all
    exact hnone (List.contains_iff_mem.mpr (hd ▸ ha))

theorem Sample.foldl_addDate_apart {ds : List Date}
    (h : ds.Pairwise fun a b => a.ordinal ≠ b.ordinal) (new : List Date) :
    (new.foldl addDate ds).Pairwise fun a b => a.ordinal ≠ b.ordinal :=
  foldl_invariant new (fun _ d _ hc => addDate_apart hc d) h

open Sample in
/-- The date samples strictly increase. -/
theorem dateSamples_increasing (lo hi d : Date) (literals : List Date) (points : Int) :
    (dateSamples lo hi d literals points).Pairwise (· < ·) := by
  unfold dateSamples
  lift_lets
  intro start withLiterals span all
  refine pairwise_lt_mergeSort Date.ordinal (fun _ _ _ _ => rfl) ?_
  -- every stage adds its days with `addDate`
  have hstart : start.Pairwise fun a b => a.ordinal ≠ b.ordinal :=
    addDate_apart (addDate_apart (List.pairwise_singleton _ lo) hi) d
  have hwith : withLiterals.Pairwise fun a b => a.ordinal ≠ b.ordinal :=
    foldl_invariant literals (fun _ _ _ hacc => foldl_addDate_apart hacc _) hstart
  show List.Pairwise _ (if _ then _ else _)
  split
  · refine foldl_invariant _ (fun acc i _ hacc => ?_) hwith
    split
    · exact addDate_apart hacc _
    · exact hacc
  · exact hwith

/-! ### Literals of a fee -/

mutual

/-- Every node of an expression whose numbers are finite has finite numbers. -/
theorem Expr.numbersFinite_of_mem_nodes :
    (e : Expr) → e.numbersFinite = true → ∀ n ∈ e.nodes, n.numbersFinite = true
  | .unary op x, h, n, hn => by
    rcases List.mem_cons.mp hn with rfl | hn
    · exact h
    · exact Expr.numbersFinite_of_mem_nodes x h n hn
  | .binary op l r, h, n, hn => by
    rcases List.mem_cons.mp hn with rfl | hn
    · exact h
    · simp only [Expr.numbersFinite, Bool.and_eq_true] at h
      rcases List.mem_append.mp hn with hn | hn
      · exact Expr.numbersFinite_of_mem_nodes l h.1 n hn
      · exact Expr.numbersFinite_of_mem_nodes r h.2 n hn
  | .call fn args, h, n, hn => by
    rcases List.mem_cons.mp hn with rfl | hn
    · exact h
    · exact Expr.numbersFinite_of_mem_nodesAll args h n hn
  | .num _, h, n, hn | .bool _, h, n, hn | .date _, h, n, hn | .sym _, h, n, hn
  | .ref _, h, n, hn => by
    simp only [Expr.nodes, List.mem_singleton] at hn
    rw [hn]
    exact h

theorem Expr.numbersFinite_of_mem_nodesAll :
    (es : List Expr) → Expr.numbersFiniteAll es = true →
      ∀ n ∈ Expr.nodesAll es, n.numbersFinite = true
  | [], _, n, hn => by simp [Expr.nodesAll] at hn
  | e :: es, h, n, hn => by
    simp only [Expr.numbersFiniteAll, Bool.and_eq_true] at h
    rcases List.mem_append.mp hn with hn | hn
    · exact Expr.numbersFinite_of_mem_nodes e h.1 n hn
    · exact Expr.numbersFinite_of_mem_nodesAll es h.2 n hn

end

/-- The number an expression stands for as a literal is finite when its numbers are. -/
theorem Expr.literal?_finite {e : Expr} {d : Decimal} (he : e.numbersFinite = true)
    (h : e.literal? = some (.num d)) : d.isFinite = true := by
  unfold Expr.literal? at h
  split at h
  · cases h
    exact he
  · cases h
  · -- a negated literal: the negation of a finite number
    rename_i c
    split at h
    · rename_i v hv
      cases h
      exact Decimal.neg_isFinite he hv
    · cases h
  · cases h

/-- The literals a fee compares an input with are finite when the fee's numbers are. -/
theorem Fee.literalBoundaries_finite {f : Fee} (hf : f.numbersFinite = true) {x : String}
    {d : Decimal} (hd : Value.num d ∈ f.literalBoundaries x) : d.isFinite = true := by
  unfold Fee.literalBoundaries at hd
  obtain ⟨c, hc, hd⟩ := List.mem_flatMap.mp hd
  have hcf : c.numbersFinite = true := by
    simp only [Fee.numbersFinite, Bool.and_eq_true, List.all_eq_true] at hf
    exact hf.2 c hc
  split at hd
  · simp at hd
  · rename_i cond hcond
    have hcondf : cond.numbersFinite = true := by
      simp only [Case.numbersFinite, hcond, Option.all_some, Bool.and_eq_true] at hcf
      exact hcf.2
    obtain ⟨n, hn, hd⟩ := List.mem_flatMap.mp hd
    have hnf := Expr.numbersFinite_of_mem_nodes cond hcondf n hn
    split at hd
    · rename_i op l r
      split at hd
      · -- a side that is a literal gives it
        simp only [Expr.numbersFinite, Bool.and_eq_true] at hnf
        dsimp only at hd
        rcases List.mem_append.mp hd with hd | hd
        · split at hd
          · rename_i v hlit
            split at hd
            · rw [← List.mem_singleton.mp hd] at hlit
              exact Expr.literal?_finite hnf.1 hlit
            · simp at hd
          · simp at hd
        · split at hd
          · rename_i v hlit
            split at hd
            · rw [← List.mem_singleton.mp hd] at hlit
              exact Expr.literal?_finite hnf.2 hlit
            · simp at hd
          · simp at hd
      · simp at hd
    · simp at hd

/-! ### Domains -/

/-- The order in which the domain of a number, an amount or a date input increases: numbers
by value, dates by day. Values of the other kinds are not ordered. -/
def BoundValue.Below : BoundValue → BoundValue → Prop
  | .number a, .number b => a.extended < b.extended
  | .date a, .date b => a < b
  | _, _ => False

theorem BoundValue.Below.asymm {u v : BoundValue} (h : u.Below v) : ¬ v.Below u := by
  cases u <;> cases v <;> simp only [Below] at h ⊢
  · exact not_lt_of_gt h
  · exact Nat.lt_asymm h

theorem BoundValue.Below.irrefl (v : BoundValue) : ¬ v.Below v :=
  fun h => h.asymm h

/-- The domain of a number, an amount or a date input strictly increases, when its numbers and
the literals it is given are finite. -/
theorem Input.domain_increasing {i : Input} {literals : List Value} {settings : VerifySettings}
    {values : List BoundValue} (hkind : i.spec.kind ∈ [.number, .amount, .date])
    (hspec : i.spec.numbersFinite = true)
    (hliterals : ∀ d, Value.num d ∈ literals → d.isFinite = true)
    (h : i.domain literals settings = .ok values) : values.Pairwise BoundValue.Below := by
  unfold Input.domain at h
  dsimp only at h
  cases hs : i.spec with
  | number lo hi d =>
    rw [hs] at h hspec
    simp only [InputSpec.numbersFinite, Bool.and_eq_true] at hspec
    obtain ⟨ss, hss, h⟩ := bind_eq_ok.mp h
    cases h
    refine List.pairwise_map.mpr (numericSamples_increasing hspec.1.1 (by simpa using hspec.1.2)
      hspec.2 (fun l hl => ?_) hss).2
    obtain ⟨v, hv, hvl⟩ := List.mem_filterMap.mp hl
    cases v <;> simp only [Option.some.injEq, reduceCtorEq] at hvl
    exact hvl ▸ hliterals _ hv
  | amount c d =>
    rw [hs] at h hspec
    simp only [InputSpec.numbersFinite] at hspec
    obtain ⟨ss, hss, h⟩ := bind_eq_ok.mp h
    cases h
    refine List.pairwise_map.mpr (numericSamples_increasing Decimal.zero_isFinite (by simp)
      hspec (fun l hl => ?_) hss).2
    obtain ⟨v, hv, hvl⟩ := List.mem_filterMap.mp hl
    cases v <;> simp only [Option.some.injEq, reduceCtorEq] at hvl
    exact hvl ▸ hliterals _ hv
  | date lo hi d =>
    rw [hs] at h
    cases h
    exact List.pairwise_map.mpr (dateSamples_increasing lo hi d _ _)
  | boolean _ | list _ _ | multilist _ _ =>
    rw [hs] at hkind
    simp [InputSpec.kind] at hkind

end FeeSchedule
