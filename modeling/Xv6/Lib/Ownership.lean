import Mathlib.Logic.Function.Basic

/-! # Slots that own numbered units

A family of slots each of which is empty (holds 0) or owns one unit of a region
`lo ..< hi`, together with a map of the units in use. Owning is injective and the
map is exact: the units below `lo` are reserved, and above it a unit is in use
when some slot owns it.
-/

namespace Xv6.Lib

open Function

structure Owns {ι : Type*} (own : ι → Nat) (lo hi : Nat) (used : Nat → Bool) : Prop where
  lo_pos : 0 < lo
  inj : ∀ x y, own x ≠ 0 → own x = own y → x = y
  region : ∀ x, own x ≠ 0 → lo ≤ own x ∧ own x < hi
  reserved : ∀ b, b < lo → b < hi → used b = true
  exact_ : ∀ b, lo ≤ b → b < hi → (used b = true ↔ ∃ x, own x = b)

namespace Owns

variable {ι : Type*} {own : ι → Nat} {lo hi b : Nat} {used : Nat → Bool} {x : ι}

theorem used_own (h : Owns own lo hi used) (hx : own x ≠ 0) : used (own x) = true := by
  obtain ⟨hlo, hhi⟩ := h.region x hx
  exact (h.exact_ _ hlo hhi).mpr ⟨x, rfl⟩

theorem free_ge (h : Owns own lo hi used) (hb : b < hi) (hfree : used b = false) : lo ≤ b := by
  by_contra hlt
  have := h.reserved b (by omega) hb
  rw [hfree] at this
  cases this

theorem free_not_owned (h : Owns own lo hi used) (hb : b < hi) (hfree : used b = false) (x : ι) :
    own x ≠ b := by
  intro hx
  have := (h.exact_ b (h.free_ge hb hfree) hb).mpr ⟨x, hx⟩
  rw [hfree] at this
  cases this

section

variable [DecidableEq ι]

theorem assign (h : Owns own lo hi used) (hx : own x = 0) (hb : b < hi) (hfree : used b = false) :
    Owns (update own x b) lo hi (update used b true) := by
  have hlo := h.free_ge hb hfree
  have hno := h.free_not_owned hb hfree
  refine ⟨h.lo_pos, ?_, ?_, ?_, ?_⟩
  · intro y z hy hyz
    by_cases hyx : y = x <;> by_cases hzx : z = x
    · rw [hyx, hzx]
    · subst hyx
      rw [update_self, update_of_ne hzx] at hyz
      exact absurd hyz.symm (hno z)
    · subst hzx
      rw [update_self, update_of_ne hyx] at hyz
      exact absurd hyz (hno y)
    · rw [update_of_ne hyx] at hy
      rw [update_of_ne hyx, update_of_ne hzx] at hyz
      exact h.inj y z hy hyz
  · intro y hy
    by_cases hyx : y = x
    · subst hyx
      rw [update_self]
      exact ⟨hlo, hb⟩
    · rw [update_of_ne hyx] at hy ⊢
      exact h.region y hy
  · intro c hc hchi
    rw [update_of_ne (by omega)]
    exact h.reserved c hc hchi
  · intro c hc hchi
    by_cases hcb : c = b
    · subst hcb
      simp only [update_self, true_iff]
      exact ⟨x, update_self _ _ _⟩
    · rw [update_of_ne hcb, h.exact_ c hc hchi]
      constructor
      · rintro ⟨y, hy⟩
        refine ⟨y, ?_⟩
        rwa [update_of_ne]
        rintro rfl
        have := h.lo_pos
        omega
      · rintro ⟨y, hy⟩
        by_cases hyx : y = x
        · subst hyx
          rw [update_self] at hy
          exact absurd hy.symm hcb
        · rw [update_of_ne hyx] at hy
          exact ⟨y, hy⟩

theorem release (h : Owns own lo hi used) (hx : own x ≠ 0) :
    Owns (update own x 0) lo hi (update used (own x) false) := by
  obtain ⟨hlo, hhi⟩ := h.region x hx
  refine ⟨h.lo_pos, ?_, ?_, ?_, ?_⟩
  · intro y z hy hyz
    by_cases hyx : y = x
    · rw [hyx, update_self] at hy
      exact absurd rfl hy
    · rw [update_of_ne hyx] at hy hyz
      by_cases hzx : z = x
      · rw [hzx, update_self] at hyz
        exact absurd hyz hy
      · rw [update_of_ne hzx] at hyz
        exact h.inj y z hy hyz
  · intro y hy
    by_cases hyx : y = x
    · rw [hyx, update_self] at hy
      exact absurd rfl hy
    · rw [update_of_ne hyx] at hy ⊢
      exact h.region y hy
  · intro c hc hchi
    rw [update_of_ne (by omega)]
    exact h.reserved c hc hchi
  · intro c hc hchi
    by_cases hcx : c = own x
    · subst hcx
      simp only [update_self, Bool.false_eq_true, false_iff, not_exists]
      intro y hy
      by_cases hyx : y = x
      · rw [hyx, update_self] at hy
        exact hx hy.symm
      · rw [update_of_ne hyx] at hy
        exact hyx (h.inj x y hx hy.symm).symm
    · rw [update_of_ne hcx, h.exact_ c hc hchi]
      constructor
      · rintro ⟨y, rfl⟩
        refine ⟨y, update_of_ne ?_ _ _⟩
        rintro rfl
        exact hcx rfl
      · rintro ⟨y, hy⟩
        by_cases hyx : y = x
        · rw [hyx, update_self] at hy
          have := h.lo_pos
          omega
        · rw [update_of_ne hyx] at hy
          exact ⟨y, hy⟩

end

end Owns

end Xv6.Lib
