import Mathlib.Algebra.Order.BigOperators.Group.Finset

/-! # Counting references

How a sum over a table changes when one entry of the table does.
-/

namespace Xv6.Lib

open Function

variable {ι α : Type*} [DecidableEq ι]

/-- Overwriting one entry trades its old weight for the new one. -/
theorem sum_update_trade (φ : α → Nat) (x : ι → α) {s : Finset ι} {i : ι} (hi : i ∈ s) (a : α) :
    ∑ j ∈ s, φ (update x i a j) + φ (x i) = ∑ j ∈ s, φ (x j) + φ a := by
  rw [← Finset.add_sum_erase s _ hi, ← Finset.add_sum_erase s (fun j => φ (x j)) hi,
    update_self]
  have hrest : ∑ j ∈ s.erase i, φ (update x i a j) = ∑ j ∈ s.erase i, φ (x j) := by
    refine Finset.sum_congr rfl fun j hj => ?_
    rw [update_of_ne (Finset.ne_of_mem_erase hj)]
  rw [hrest]
  omega

theorem pair_le_sum (φ : ι → Nat) {s : Finset ι} {i j : ι} (hi : i ∈ s) (hj : j ∈ s) (hij : i ≠ j) :
    φ i + φ j ≤ ∑ k ∈ s, φ k := by
  rw [← Finset.add_sum_erase s φ hi]
  exact Nat.add_le_add_left
    (Finset.single_le_sum (fun _ _ => Nat.zero_le _) (Finset.mem_erase.mpr ⟨hij.symm, hj⟩)) _

end Xv6.Lib
