import Xv6.Lib.Bytes

/-! # Bit sets stored in byte arrays

Bit `k` is bit `k % 8` of byte `k / 8`, tested, set and cleared with a mask.
-/

namespace Xv6.Lib.Bytes

variable {n : Nat}

def maskBit (k : Nat) : UInt8 := 1 <<< UInt8.ofNat (k % 8)

def getBit (b : Bytes n) (k : Nat) : Bool := b.get (k / 8) &&& maskBit k != 0

def setBit (b : Bytes n) (k : Nat) : Bytes n :=
  b.blit (k / 8) 1 fun _ => b.get (k / 8) ||| maskBit k

def clearBit (b : Bytes n) (k : Nat) : Bytes n :=
  b.blit (k / 8) 1 fun _ => b.get (k / 8) &&& ~~~ maskBit k

theorem getLsbD_maskBit (j k : Nat) (hj : j < 8) :
    (maskBit k).toBitVec.getLsbD j = decide (j = k % 8) := by
  have hall : ∀ i < 8, ∀ j < 8,
      ((1 : UInt8) <<< UInt8.ofNat i).toBitVec.getLsbD j = decide (j = i) := by decide
  exact hall (k % 8) (Nat.mod_lt _ (by decide)) j hj

theorem and_maskBit (x : UInt8) (k : Nat) :
    (x &&& maskBit k != 0) = x.toBitVec.getLsbD (k % 8) := by
  have hk : k % 8 < 8 := Nat.mod_lt _ (by decide)
  have hzero : x &&& maskBit k = 0 ↔ x.toBitVec.getLsbD (k % 8) = false := by
    rw [← UInt8.toBitVec_inj, UInt8.toBitVec_and]
    constructor
    · intro h
      have := congrArg (fun v => BitVec.getLsbD v (k % 8)) h
      simpa [getLsbD_maskBit _ _ hk] using this
    · intro h
      apply BitVec.eq_of_getLsbD_eq
      intro i hi
      rw [BitVec.getLsbD_and, getLsbD_maskBit _ _ hi]
      by_cases hik : i = k % 8
      · subst hik
        simp [h]
      · simp [hik]
  cases hbit : x.toBitVec.getLsbD (k % 8) with
  | false => simpa using hzero.mpr hbit
  | true =>
    simp only [bne_iff_ne, ne_eq]
    intro h
    rw [hzero.mp h] at hbit
    cases hbit

theorem getBit_eq (b : Bytes n) (k : Nat) : b.getBit k = (b.get (k / 8)).toBitVec.getLsbD (k % 8) :=
  and_maskBit _ _

/-- Bits of two different positions in one byte differ in their offset. -/
theorem getBit_blit_byte {b : Bytes n} {x : UInt8} {k j : Nat} (hk : k < 8 * n) :
    (b.blit (k / 8) 1 fun _ => x).getBit j =
      if j / 8 = k / 8 then x.toBitVec.getLsbD (j % 8) else b.getBit j := by
  rw [getBit_eq, get_blit]
  by_cases hjk : j / 8 = k / 8
  · rw [if_pos (by omega), if_pos hjk]
  · rw [if_neg (by omega), if_neg hjk, getBit_eq]

theorem getBit_setBit (b : Bytes n) {k : Nat} (hk : k < 8 * n) (j : Nat) :
    (b.setBit k).getBit j = (decide (j = k) || b.getBit j) := by
  have hj : j % 8 < 8 := Nat.mod_lt _ (by decide)
  rw [setBit, getBit_blit_byte hk]
  by_cases hjk : j / 8 = k / 8
  · rw [if_pos hjk, UInt8.toBitVec_or, BitVec.getLsbD_or, getLsbD_maskBit _ _ hj, getBit_eq, hjk,
      Bool.or_comm]
    congr 1
    exact decide_eq_decide.mpr (by omega)
  · have hne : j ≠ k := by
      rintro rfl
      exact hjk rfl
    simp [hjk, hne]

theorem getBit_clearBit (b : Bytes n) {k : Nat} (hk : k < 8 * n) (j : Nat) :
    (b.clearBit k).getBit j = (!decide (j = k) && b.getBit j) := by
  have hj : j % 8 < 8 := Nat.mod_lt _ (by decide)
  rw [clearBit, getBit_blit_byte hk]
  by_cases hjk : j / 8 = k / 8
  · have hmask : (~~~ maskBit k).toBitVec.getLsbD (j % 8) = !decide (j = k) := by
      rw [UInt8.toBitVec_not, BitVec.getLsbD_not, getLsbD_maskBit _ _ hj]
      simp only [hj, decide_true, Bool.true_and]
      congr 1
      exact decide_eq_decide.mpr (by omega)
    rw [if_pos hjk, UInt8.toBitVec_and, BitVec.getLsbD_and, hmask, getBit_eq, hjk, Bool.and_comm]
  · have hne : j ≠ k := by
      rintro rfl
      exact hjk rfl
    simp [hjk, hne]

end Xv6.Lib.Bytes
