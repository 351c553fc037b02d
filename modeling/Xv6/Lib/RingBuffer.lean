import Mathlib.Data.List.Infix
import Mathlib.Data.Nat.ModEq
import Mathlib.Logic.Function.Basic

/-! # Ring buffers with a history

A ring of `K` cells holds the part of a sequence from position `lo` on. Readers move `lo`,
writers append to the sequence, and an editor takes its last elements back. A counter that
wraps at a multiple of `K` selects the same cell as the position it counts.
-/

namespace Xv6.Lib

variable {α : Type*} {K lo : Nat} {data : Nat → α} {h : List α}

/-- The cells of the ring are the elements of `h` from position `lo` on. -/
structure RingHolds (K : Nat) (data : Nat → α) (h : List α) (lo : Nat) : Prop where
  le : lo ≤ h.length
  room : h.length ≤ lo + K
  cell : ∀ i, lo ≤ i → ∀ hi : i < h.length, data (i % K) = h[i]

namespace RingHolds

theorem empty : RingHolds K data [] 0 :=
  ⟨Nat.le_refl _, Nat.zero_le _, fun _ _ hi => absurd hi (Nat.not_lt_zero _)⟩

/-- Two positions of the sequence that the ring holds have different cells. -/
theorem cell_ne {i : Nat} (hroom : h.length < lo + K) (hi : lo ≤ i) (hlt : i < h.length) :
    i % K ≠ h.length % K := by
  intro heq
  have hdvd : K ∣ h.length - i := (Nat.modEq_iff_dvd' (Nat.le_of_lt hlt)).mp heq
  have hle := Nat.le_of_dvd (by omega) hdvd
  omega

theorem push (hr : RingHolds K data h lo) (hroom : h.length < lo + K) (x : α) :
    RingHolds K (Function.update data (h.length % K) x) (h ++ [x]) lo := by
  refine ⟨?_, ?_, fun i hlo hi => ?_⟩
  · simp only [List.length_append, List.length_singleton]
    have := hr.le
    omega
  · simp only [List.length_append, List.length_singleton]
    omega
  · rw [List.length_append, List.length_singleton] at hi
    by_cases hlast : i = h.length
    · subst hlast
      simp
    · have hlt : i < h.length := by omega
      rw [Function.update_of_ne (cell_ne hroom hlo hlt), List.getElem_append_left hlt]
      exact hr.cell i hlo hlt

theorem take (hr : RingHolds K data h lo) (hlo : lo < h.length) : RingHolds K data h (lo + 1) :=
  ⟨hlo, by have := hr.room; omega, fun i hi => hr.cell i (by omega)⟩

theorem pop {x : α} (hr : RingHolds K data (h ++ [x]) lo) (hlo : lo ≤ h.length) :
    RingHolds K data h lo := by
  have hroom := hr.room
  rw [List.length_append, List.length_singleton] at hroom
  refine ⟨hlo, by omega, fun i hi hlt => ?_⟩
  rw [hr.cell i hi (by rw [List.length_append]; omega), List.getElem_append_left hlt]

end RingHolds

end Xv6.Lib
