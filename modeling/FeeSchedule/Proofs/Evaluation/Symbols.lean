import FeeSchedule.Evaluation.Value
import Mathlib.Data.List.Sort

/-!
# `FeeSchedule.Proofs.Evaluation.Symbols`: sets of symbols are canonical

A selection becomes the set of its symbols (`symbolSet`): its symbols sorted and each once.
Symbols are ordered lexicographically by the numbers of their code points, a strict total
order, so the set is strictly increasing; and two strictly increasing lists with the same
members are one list. So equal sets are equal lists, as the evaluator needs when it compares
two sets or tests a member.

* `mem_symbolSet`: the set holds exactly the symbols of the list.
* `symbolSet_sorted`: its symbols are in strictly increasing order.
* `symbolSet_eq_iff`: two lists give the same set exactly when they have the same members,
  whatever their order and repeats.
-/

set_option autoImplicit false

namespace FeeSchedule

namespace CodePoint

/-- Distinct code points have distinct numbers: a character is never in the surrogate
range. -/
theorem toNat_injective : Function.Injective CodePoint.toNat := by
  intro a b h
  -- a character's number lies outside U+D800 to U+DFFF, where the surrogates are
  have hvalid (c : Char) : c.toNat < 0xD800 ∨ 0xDFFF < c.toNat := by
    have := c.valid
    simp only [UInt32.isValidChar, Nat.isValidChar] at this
    simp only [Char.toNat]
    omega
  cases a with
  | char c =>
    cases b with
    | char d => exact congrArg char (Char.toNat_inj.mp h)
    | surrogate k =>
      simp only [toNat] at h
      have := hvalid c
      omega
  | surrogate k =>
    cases b with
    | char d =>
      simp only [toNat] at h
      have := hvalid d
      omega
    | surrogate l =>
      simp only [toNat, Nat.add_left_cancel_iff] at h
      exact congrArg surrogate (Fin.ext h)

instance : Std.Irrefl (α := CodePoint) (· < ·) := ⟨fun a => Nat.lt_irrefl a.toNat⟩

instance : Std.Asymm (α := CodePoint) (· < ·) := ⟨fun _ _ => Nat.lt_asymm⟩

instance : Trans (α := CodePoint) (· < ·) (· < ·) (· < ·) := ⟨Nat.lt_trans⟩

instance : Std.Trichotomous (α := CodePoint) (· < ·) :=
  ⟨fun _ _ h₁ h₂ => toNat_injective (Nat.le_antisymm (Nat.not_lt.mp h₂) (Nat.not_lt.mp h₁))⟩

end CodePoint

/-- Of two different symbols, one is below the other. -/
theorem symbol_lt_of_not_lt {s t : List CodePoint} (h : ¬ s < t) (hne : s ≠ t) : t < s := by
  by_contra h'
  exact hne (List.le_antisymm h' h)

theorem mem_insertSymbol {x s : List CodePoint} {ts : List (List CodePoint)} :
    x ∈ insertSymbol s ts ↔ x = s ∨ x ∈ ts := by
  induction ts with
  | nil => simp [insertSymbol]
  | cons t ts ih =>
    simp only [insertSymbol, beq_iff_eq]
    split_ifs with heq hlt
    · subst heq
      simp
    · simp
    · simp only [List.mem_cons, ih]
      tauto

/-- Inserting a symbol keeps a list strictly increasing. -/
theorem insertSymbol_sorted {s : List CodePoint} {ts : List (List CodePoint)}
    (h : ts.Pairwise (· < ·)) : (insertSymbol s ts).Pairwise (· < ·) := by
  induction ts with
  | nil => simp [insertSymbol]
  | cons t ts ih =>
    obtain ⟨ht, hts⟩ := List.pairwise_cons.mp h
    simp only [insertSymbol, beq_iff_eq]
    split_ifs with heq hlt
    · exact h
    · -- below the head, so below everything after it
      refine List.pairwise_cons.mpr ⟨fun u hu => ?_, h⟩
      rcases List.mem_cons.mp hu with rfl | hu
      · exact hlt
      · exact List.lt_trans hlt (ht u hu)
    · have hts_lt : t < s := symbol_lt_of_not_lt hlt heq
      refine List.pairwise_cons.mpr ⟨fun u hu => ?_, ih hts⟩
      rcases mem_insertSymbol.mp hu with rfl | hu
      · exact hts_lt
      · exact ht u hu

theorem mem_foldl_insertSymbol {x : List CodePoint} :
    ∀ {ss acc : List (List CodePoint)},
      x ∈ ss.foldl (fun acc s => insertSymbol s acc) acc ↔ x ∈ acc ∨ x ∈ ss
  | [], _ => by simp
  | s :: ss, acc => by
    rw [List.foldl_cons, mem_foldl_insertSymbol, mem_insertSymbol, List.mem_cons]
    tauto

theorem sorted_foldl_insertSymbol :
    ∀ {ss acc : List (List CodePoint)}, acc.Pairwise (· < ·) →
      (ss.foldl (fun acc s => insertSymbol s acc) acc).Pairwise (· < ·)
  | [], _, h => h
  | s :: ss, acc, h => @sorted_foldl_insertSymbol ss (insertSymbol s acc) (insertSymbol_sorted h)

@[simp] theorem mem_symbolSet {x : List CodePoint} {ss : List (List CodePoint)} :
    x ∈ symbolSet ss ↔ x ∈ ss := by
  simp [symbolSet, mem_foldl_insertSymbol]

theorem symbolSet_sorted (ss : List (List CodePoint)) : (symbolSet ss).Pairwise (· < ·) :=
  sorted_foldl_insertSymbol List.Pairwise.nil

/-- The set of a list depends on its members only. -/
theorem symbolSet_eq_iff {ss ts : List (List CodePoint)} :
    symbolSet ss = symbolSet ts ↔ ∀ x, x ∈ ss ↔ x ∈ ts := by
  constructor
  · intro h x
    rw [← mem_symbolSet, h, mem_symbolSet]
  · intro h
    refine (symbolSet_sorted ss).eq_of_mem_iff (symbolSet_sorted ts) fun x => ?_
    simp [h]

end FeeSchedule
