import Mathlib.Data.Nat.ModEq
import Mathlib.Tactic.Ring

/-! # Byte arrays and little-endian words

Arrays of a fixed number of bytes, read at any index (zero outside the array)
and overwritten on a range. Words of any width are read and written in
little-endian order; the laws say that a written word reads back and that words
on disjoint ranges do not disturb each other.
-/

namespace Xv6.Lib

abbrev Bytes (n : Nat) := Fin n → UInt8

namespace Bytes

variable {n : Nat}

def zero : Bytes n := fun _ => 0

def get (b : Bytes n) (i : Nat) : UInt8 := if h : i < n then b ⟨i, h⟩ else 0

/-- Overwrite the bytes `off ..< off + m` by `src 0, src 1, ...`. -/
def blit (b : Bytes n) (off m : Nat) (src : Nat → UInt8) : Bytes n :=
  fun i => if off ≤ i ∧ i < off + m then src (i - off) else b i

@[simp] theorem get_zero (i : Nat) : (zero : Bytes n).get i = 0 := by
  simp [get, zero]

theorem get_blit (b : Bytes n) (off m : Nat) (src : Nat → UInt8) (i : Nat) :
    (b.blit off m src).get i =
      if i < n ∧ off ≤ i ∧ i < off + m then src (i - off) else b.get i := by
  by_cases hi : i < n
  · simp [get, blit, hi]
  · simp [get, hi]

/-! ## Little-endian words -/

/-- The `w`-byte little-endian word at `off`. -/
def getLE (b : Bytes n) (off : Nat) : Nat → Nat
  | 0 => 0
  | w + 1 => (b.get off).toNat + 256 * getLE b (off + 1) w

/-- Store the low `w` bytes of `v` at `off`. -/
def putLE (b : Bytes n) (off w v : Nat) : Bytes n :=
  b.blit off w (fun k => UInt8.ofNat (v / 256 ^ k))

theorem getLE_congr {b c : Bytes n} {off w : Nat}
    (h : ∀ k, k < w → b.get (off + k) = c.get (off + k)) : b.getLE off w = c.getLE off w := by
  induction w generalizing off with
  | zero => rfl
  | succ w ih =>
    have h0 : b.get off = c.get off := by simpa using h 0 (by omega)
    have hrest : b.getLE (off + 1) w = c.getLE (off + 1) w := by
      apply ih
      intro k hk
      simpa [Nat.add_assoc, Nat.add_comm 1 k] using h (k + 1) (by omega)
    simp [getLE, h0, hrest]

theorem getLE_of_digits {b : Bytes n} {off w v : Nat}
    (h : ∀ k, k < w → b.get (off + k) = UInt8.ofNat (v / 256 ^ k)) :
    b.getLE off w = v % 256 ^ w := by
  induction w generalizing off v with
  | zero => simp [getLE, Nat.mod_one]
  | succ w ih =>
    have h0 : (b.get off).toNat = v % 256 := by
      have := h 0 (by omega)
      simp only [Nat.add_zero, pow_zero, Nat.div_one] at this
      rw [this]
      simp
    have hrest : b.getLE (off + 1) w = v / 256 % 256 ^ w := by
      apply ih
      intro k hk
      have := h (k + 1) (by omega)
      rw [Nat.add_assoc, Nat.add_comm 1 k, this, Nat.div_div_eq_div_mul, pow_succ,
        Nat.mul_comm (256 ^ k)]
    rw [getLE, h0, hrest, pow_succ, Nat.mul_comm (256 ^ w), Nat.mod_mul]

theorem getLE_putLE_self {b : Bytes n} {off w v : Nat} (hin : off + w ≤ n) :
    (b.putLE off w v).getLE off w = v % 256 ^ w := by
  apply getLE_of_digits
  intro k hk
  rw [putLE, get_blit, if_pos (by omega), Nat.add_sub_cancel_left]

theorem getLE_putLE_of_lt {b : Bytes n} {off w v : Nat} (hin : off + w ≤ n) (hv : v < 256 ^ w) :
    (b.putLE off w v).getLE off w = v := by
  rw [getLE_putLE_self hin, Nat.mod_eq_of_lt hv]

theorem getLE_putLE_of_disjoint {b : Bytes n} {off w v off' w' : Nat}
    (h : off' + w' ≤ off ∨ off + w ≤ off') :
    (b.putLE off w v).getLE off' w' = b.getLE off' w' := by
  apply getLE_congr
  intro k hk
  rw [putLE, get_blit, if_neg (by omega)]

theorem getLE_lt (b : Bytes n) (off w : Nat) : b.getLE off w < 256 ^ w := by
  induction w generalizing off with
  | zero => simp [getLE]
  | succ w ih =>
    have hbyte : (b.get off).toNat < 256 := (b.get off).toNat_lt
    have hrest := ih (off + 1)
    rw [getLE, pow_succ]
    omega

end Bytes

end Xv6.Lib
