/-
Counting in a table.

`sum_change`: the sum over a table that is changed at one place changes by what is changed there.
-/

import Mathlib.Algebra.BigOperators.Group.Finset.Basic

namespace Solowan.Memory

section Tally

variable {ι : Type*} [DecidableEq ι] {s : Finset ι} {f g : ι → Nat} {i : ι}

/-- A change at one place. -/
theorem sum_change (hi : i ∈ s) (h : ∀ j ∈ s, j ≠ i → g j = f j) :
    ∑ j ∈ s, g j + f i = ∑ j ∈ s, f j + g i := by
  have hrest : ∑ j ∈ s.erase i, g j = ∑ j ∈ s.erase i, f j :=
    Finset.sum_congr rfl fun j hj => h j (Finset.mem_of_mem_erase hj) (Finset.ne_of_mem_erase hj)
  rw [← Finset.add_sum_erase s g hi, ← Finset.add_sum_erase s f hi, hrest]
  omega

end Tally

end Solowan.Memory
