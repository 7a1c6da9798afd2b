import FeeSchedule.Composition.Registry

/-!
# `FeeSchedule.Composition.Analysis`: what a jurisdiction takes from its ancestors

The analysis of a jurisdiction compares its own fees and inputs with those of its ancestors
merged (`Schedule.mergeChain` of its chain without itself): a name of the ancestors that it
does not declare is inherited, one it declares again is overridden, and one only it declares
is defined.

Percentages are rounded half to even to two decimals; a share of nothing is a plain zero.
The reuse of a jurisdiction is the share of inherited names among all its fee and input
names; its fee reuse counts fees only. The metrics of a registry sum the fee counts of every
jurisdiction's analysis.
-/

namespace FeeSchedule

/-- `part` as a percentage of `whole`, rounded half to even to two decimals; zero when the
whole is zero. -/
def percentage (part whole : Nat) : Decimal :=
  if whole = 0 then Decimal.zero
  else
    let n := 10000 * part
    let q := n / whole
    let r := n % whole
    let q := if 2 * r > whole ∨ (2 * r = whole ∧ q % 2 = 1) then q + 1 else q
    .finite false q (-2)

/-- How a jurisdiction's fees and inputs relate to those of its ancestors. -/
structure Inheritance where
  id : String
  inheritedFees : List String
  overriddenFees : List String
  definedFees : List String
  inheritedInputs : List String
  overriddenInputs : List String
  definedInputs : List String
  deriving Inhabited

namespace Inheritance

/-- The names inherited, overridden and defined, given the ancestors' and the own names. -/
def split (inherited declared : List String) : List String × List String × List String :=
  (inherited.filter (!declared.contains ·), declared.filter inherited.contains,
    declared.filter (!inherited.contains ·))

/-- The share of inherited names among all fee and input names. -/
def reuse (a : Inheritance) : Decimal :=
  let inherited := a.inheritedFees.length + a.inheritedInputs.length
  percentage inherited (inherited + a.overriddenFees.length + a.overriddenInputs.length
    + a.definedFees.length + a.definedInputs.length)

/-- The share of inherited fees among all fees. -/
def feeReuse (a : Inheritance) : Decimal :=
  percentage a.inheritedFees.length
    (a.inheritedFees.length + a.overriddenFees.length + a.definedFees.length)

end Inheritance

/-- Totals over the jurisdictions of a registry. -/
structure CompositionMetrics where
  jurisdictions : Nat
  inheriting : Nat
  inheritedFees : Nat
  overriddenFees : Nat
  definedFees : Nat
  deriving Inhabited

namespace CompositionMetrics

/-- The share of jurisdictions that extend another. -/
def inheritance (m : CompositionMetrics) : Decimal := percentage m.inheriting m.jurisdictions

/-- The share of inherited fees among all fees of all analyses. -/
def reuse (m : CompositionMetrics) : Decimal :=
  percentage m.inheritedFees (m.inheritedFees + m.overriddenFees + m.definedFees)

end CompositionMetrics

namespace Registry

/-- The analysis of a jurisdiction against its ancestors. -/
def analyze (r : Registry) (id : String) : Except CompositionError Inheritance := do
  let chain ← r.chain id
  let own := (chain.getLast?.map (·.schedule)).getD Schedule.empty
  let ancestors := Schedule.mergeChain (chain.dropLast.map (·.schedule))
  let (f1, f2, f3) := Inheritance.split ancestors.feeNames own.feeNames
  let (i1, i2, i3) := Inheritance.split ancestors.inputNames own.inputNames
  pure ⟨id, f1, f2, f3, i1, i2, i3⟩

/-- The metrics of a registry, from the analysis of each jurisdiction in registration order. -/
def metrics (r : Registry) : Except CompositionError CompositionMetrics := do
  let analyses ← r.mapM fun j => r.analyze j.id
  let sum (f : Inheritance → List String) := analyses.foldl (fun acc a => acc + (f a).length) 0
  pure ⟨r.length, (r.filter (·.parent.isSome)).length, sum (·.inheritedFees),
    sum (·.overriddenFees), sum (·.definedFees)⟩

end Registry

end FeeSchedule
