import Mathlib.Algebra.Ring.Int.Defs
import Mathlib.Algebra.Ring.Nat

/-! # Conversions between C integer types

Values of `int` and of `uint64` as integers and natural numbers, with the conversions
that wrap.
-/

namespace Xv6.Lib

def int32 (x : Int) : Int := (BitVec.ofInt 32 x).toInt

def u64 (x : Int) : Nat := (x % 2 ^ 64).toNat

theorem int32_eq (x : Int) : int32 x = x.bmod (2 ^ 32) := BitVec.toInt_ofInt x

theorem int32_range (x : Int) : -2 ^ 31 ≤ int32 x ∧ int32 x < 2 ^ 31 := by
  rw [int32_eq]
  simp only [Int.bmod]
  omega

theorem int32_of_range {x : Int} (h1 : -2 ^ 31 ≤ x) (h2 : x < 2 ^ 31) : int32 x = x := by
  rw [int32_eq]
  simp only [Int.bmod]
  omega

theorem u64_natCast {n : Nat} (h : n < 2 ^ 64) : u64 n = n := by
  unfold u64
  omega

end Xv6.Lib
