/-!
# `FeeSchedule.Unicode.Range`: character classes as tables of ranges

A character class of the Unicode standard is stored as an array of closed ranges of code
points, sorted and disjoint. Membership halves the searched part of the table at each step,
so a class of several hundred ranges answers in about ten comparisons. `RangeTable.Mem`
states membership without the search: some range holds the code point.
-/

namespace FeeSchedule.Unicode

/-- A character class as sorted, disjoint, closed ranges `(lo, hi)` of code points. -/
abbrev RangeTable := Array (Nat × Nat)

/-- The code point `n` lies in some range of the table. -/
def RangeTable.Mem (t : RangeTable) (n : Nat) : Prop :=
  ∃ r ∈ t, r.1 ≤ n ∧ n ≤ r.2

/-- The range of `t` holding `n`, searched between the indices `lo` (included) and `hi`
(excluded). The search keeps to the half whose ranges can still hold `n`, which is right
because the ranges are sorted and disjoint. -/
def RangeTable.findIn (t : RangeTable) (n : Nat) (lo hi : Nat) : Option (Nat × Nat) :=
  if _h : lo < hi then
    let mid := (lo + hi) / 2
    match t[mid]? with
    | none => none
    | some r =>
      if n < r.1 then t.findIn n lo mid
      else if r.2 < n then t.findIn n (mid + 1) hi
      else some r
  else none
termination_by hi - lo

/-- The range of `t` that holds `n`, if any. -/
def RangeTable.find? (t : RangeTable) (n : Nat) : Option (Nat × Nat) :=
  t.findIn n 0 t.size

/-- Whether some range of `t` holds `n`. -/
def RangeTable.contains (t : RangeTable) (n : Nat) : Bool :=
  (t.find? n).isSome

end FeeSchedule.Unicode
