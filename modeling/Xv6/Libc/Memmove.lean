import Mathlib.Logic.Function.Basic
import Xv6.Lib.CInt

/-! # memmove

The kernel's `memmove` (string.c) and the user library's (ulib.c), over a memory of bytes
at 64-bit addresses.  Both copy byte by byte in place and differ in the type of the
length and in the test that picks the direction of the copy.
-/

namespace Xv6.Libc

open Function Lib

/-- A byte at each address.  Pointers are below `2 ^ 64`. -/
abbrev Memory := Nat → UInt8

/-- `while(n-- > 0) *d++ = *s++;` -/
def copyUp : Nat → Nat → Nat → Memory → Memory
  | 0, _, _, mem => mem
  | n + 1, d, s, mem => copyUp n (u64 (d + 1)) (u64 (s + 1)) (update mem d (mem s))

/-- `while(n-- > 0) *--d = *--s;` -/
def copyDown : Nat → Nat → Nat → Memory → Memory
  | 0, _, _, mem => mem
  | n + 1, d, s, mem =>
    let d := u64 (d - 1)
    let s := u64 (s - 1)
    copyDown n d s (update mem d (mem s))

/-- The kernel's `memmove`, whose length is a `uint`. -/
def StringC.memmove (dst src : Nat) (n : UInt32) (mem : Memory) : Nat × Memory :=
  if n = 0 then (dst, mem)
  else if src < dst ∧ u64 (src + n.toNat) > dst then
    (dst, copyDown n.toNat (u64 (dst + n.toNat)) (u64 (src + n.toNat)) mem)
  else (dst, copyUp n.toNat dst src mem)

/-- The user library's `memmove`, whose length is an `int`. -/
def Ulib.memmove (dst src : Nat) (n : Int) (mem : Memory) : Nat × Memory :=
  if src > dst then (dst, copyUp n.toNat dst src mem)
  else (dst, copyDown n.toNat (u64 (dst + n)) (u64 (src + n)) mem)

/-- The memory after the `n` bytes at `src` have been read into a temporary and then
stored at `dst`. -/
def moved (dst src n : Nat) (mem : Memory) : Memory := fun a =>
  if dst ≤ a ∧ a < dst + n then mem (src + (a - dst)) else mem a

theorem moved_zero (dst src : Nat) (mem : Memory) : moved dst src 0 mem = mem := by
  funext a
  exact if_neg (by omega)

theorem moved_add {dst src n : Nat} {mem : Memory} {i : Nat} (hi : i < n) :
    moved dst src n mem (dst + i) = mem (src + i) := by
  unfold moved
  rw [if_pos ⟨by omega, by omega⟩, Nat.add_sub_cancel_left]

theorem moved_outside {dst src n : Nat} {mem : Memory} {a : Nat} (ha : a < dst ∨ dst + n ≤ a) :
    moved dst src n mem a = mem a := if_neg (by omega)

/-- Storing the first byte and moving the others is the whole move, if the store does not
fall on a byte still to be read. -/
theorem moved_first {dst src n : Nat} (mem : Memory) (h : dst ≤ src ∨ src + (n + 1) ≤ dst) :
    moved (dst + 1) (src + 1) n (update mem dst (mem src)) =
    moved dst src (n + 1) mem := by
  funext a
  unfold moved
  by_cases hin : dst + 1 ≤ a ∧ a < dst + 1 + n
  · have hread : src + 1 + (a - (dst + 1)) = src + (a - dst) := by omega
    have hne : src + (a - dst) ≠ dst := by omega
    rw [if_pos hin, if_pos (by omega), hread, update_of_ne hne]
  · rw [if_neg hin]
    by_cases ha : a = dst
    · subst ha
      rw [update_self, if_pos (by omega), Nat.sub_self, Nat.add_zero]
    · rw [update_of_ne ha, if_neg (by omega)]

/-- Likewise for the last byte. -/
theorem moved_last {dst src n : Nat} (mem : Memory) (h : src ≤ dst ∨ dst + (n + 1) ≤ src) :
    moved dst src n (update mem (dst + n) (mem (src + n))) =
    moved dst src (n + 1) mem := by
  funext a
  unfold moved
  by_cases hin : dst ≤ a ∧ a < dst + n
  · have hne : src + (a - dst) ≠ dst + n := by omega
    rw [if_pos hin, if_pos (by omega), update_of_ne hne]
  · rw [if_neg hin]
    by_cases ha : a = dst + n
    · subst ha
      rw [update_self, if_pos (by omega), Nat.add_sub_cancel_left]
    · rw [update_of_ne ha, if_neg (by omega)]

-- The pointers are taken modulo `2 ^ 64` because the one behind the range may be `2 ^ 64`.
theorem copyUp_eq {d s n : Nat} (mem : Memory) (hd : d + n ≤ 2 ^ 64) (hs : s + n ≤ 2 ^ 64)
    (h : d ≤ s ∨ s + n ≤ d) : copyUp n (u64 d) (u64 s) mem = moved d s n mem := by
  induction n generalizing d s mem with
  | zero => exact (moved_zero d s mem).symm
  | succ n ih =>
    have hmove := ih (update mem d (mem s)) (d := d + 1)
      (s := s + 1) (by omega) (by omega) (by omega)
    unfold copyUp
    rw [u64_natCast (by omega : d < 2 ^ 64), u64_natCast (by omega : s < 2 ^ 64)]
    push_cast at hmove
    rw [hmove, moved_first mem h]

theorem copyDown_eq {d s n : Nat} (mem : Memory) (hd : d + n ≤ 2 ^ 64) (hs : s + n ≤ 2 ^ 64)
    (h : s ≤ d ∨ d + n ≤ s) : copyDown n (u64 (d + n)) (u64 (s + n)) mem = moved d s n mem := by
  induction n generalizing mem with
  | zero => exact (moved_zero d s mem).symm
  | succ n ih =>
    have hback : ∀ {p : Nat}, p + (n + 1) ≤ 2 ^ 64 → u64 (u64 (p + (n + 1 : Nat)) - 1) = p + n ∧
        u64 (p + n) = p + n := by
      intro p hp
      unfold u64
      omega
    have hmove := ih (update mem (d + n) (mem (s + n))) (by omega) (by omega) (by omega)
    rw [(hback hd).2, (hback hs).2] at hmove
    unfold copyDown
    dsimp only
    rw [(hback hd).1, (hback hs).1, hmove, moved_last mem h]

/-- The kernel's test sends a copy down exactly when the source range starts below the
destination and runs into it; since the destination does not wrap, `s + n` does not
either there. -/
theorem StringC.memmove_eq {dst src : Nat} {n : UInt32} (mem : Memory)
    (hdst : dst + n.toNat ≤ 2 ^ 64) (hsrc : src + n.toNat ≤ 2 ^ 64) :
    StringC.memmove dst src n mem = (dst, moved dst src n.toNat mem) := by
  unfold StringC.memmove
  by_cases hn : n = 0
  · subst hn
    rw [if_pos rfl]
    exact congrArg (dst, ·) (moved_zero dst src mem).symm
  rw [if_neg hn]
  have hpos : 0 < n.toNat := by
    rcases Nat.eq_zero_or_pos n.toNat with h0 | h0
    · exact absurd (UInt32.toNat_inj.mp h0) hn
    · exact h0
  by_cases hdown : src < dst ∧ u64 (src + n.toNat) > dst
  · rw [if_pos hdown, copyDown_eq mem hdst hsrc (.inl (by omega))]
  · have hup : dst ≤ src ∨ src + n.toNat ≤ dst := by
      unfold u64 at hdown
      omega
    have hcopy := copyUp_eq mem hdst hsrc hup
    rw [u64_natCast (by omega : dst < 2 ^ 64), u64_natCast (by omega : src < 2 ^ 64)] at hcopy
    rw [if_neg hdown, hcopy]

theorem Ulib.memmove_eq {dst src n : Nat} (mem : Memory) (hdst : dst + n ≤ 2 ^ 64)
    (hsrc : src + n ≤ 2 ^ 64) : Ulib.memmove dst src n mem = (dst, moved dst src n mem) := by
  unfold Ulib.memmove
  rw [Int.toNat_natCast]
  by_cases hup : src > dst
  · rw [if_pos hup]
    rcases Nat.eq_zero_or_pos n with rfl | hpos
    · exact congrArg (dst, ·) (moved_zero dst src mem).symm
    · have hcopy := copyUp_eq mem hdst hsrc (.inl (by omega))
      rw [u64_natCast (by omega : dst < 2 ^ 64), u64_natCast (by omega : src < 2 ^ 64)] at hcopy
      rw [hcopy]
  · rw [if_neg hup, copyDown_eq mem hdst hsrc (.inl (by omega))]

/-- For ranges that do not wrap, whether or not they overlap, either `memmove` returns
`dst` and leaves the old source bytes in the destination range and every other byte as
it was; so the two give the same memory. -/
theorem memmove_as_through_temporary (mem : Memory) {dst src n : Nat} (hdst : dst + n ≤ 2 ^ 64)
    (hsrc : src + n ≤ 2 ^ 64) :
    (n < 2 ^ 32 → ∃ mem', StringC.memmove dst src (UInt32.ofNat n) mem = (dst, mem') ∧
      (∀ i < n, mem' (dst + i) = mem (src + i)) ∧ ∀ a, a < dst ∨ dst + n ≤ a → mem' a = mem a) ∧
    (n < 2 ^ 31 → ∃ mem', Ulib.memmove dst src n mem = (dst, mem') ∧
      (∀ i < n, mem' (dst + i) = mem (src + i)) ∧ ∀ a, a < dst ∨ dst + n ≤ a → mem' a = mem a) ∧
    (n < 2 ^ 31 → StringC.memmove dst src (UInt32.ofNat n) mem = Ulib.memmove dst src n mem) := by
  have hkernel : n < 2 ^ 32 → StringC.memmove dst src (UInt32.ofNat n) mem =
      (dst, moved dst src n mem) := by
    intro hn
    have hlen : (UInt32.ofNat n).toNat = n := UInt32.toNat_ofNat_of_lt hn
    rw [StringC.memmove_eq mem (by rw [hlen]; exact hdst) (by rw [hlen]; exact hsrc), hlen]
  refine ⟨fun hn => ?_, fun hn => ?_, fun hn => ?_⟩
  · exact ⟨_, hkernel hn, fun i hi => moved_add hi, fun a ha => moved_outside ha⟩
  · exact ⟨_, Ulib.memmove_eq mem hdst hsrc, fun i hi => moved_add hi, fun a ha => moved_outside ha⟩
  · rw [hkernel (by omega), Ulib.memmove_eq mem hdst hsrc]

/-- Three bytes moved up by one, over themselves. -/
theorem memmove_as_through_temporary_shift :
    StringC.memmove 1 0 (UInt32.ofNat 3) UInt8.ofNat = Ulib.memmove 1 0 (3 : Nat) UInt8.ofNat ∧
    ∃ mem', Ulib.memmove 1 0 (3 : Nat) UInt8.ofNat = (1, mem') ∧ ∀ i < 3, mem' (1 + i) =
    UInt8.ofNat (0 + i) := by
  obtain ⟨-, huser, hagree⟩ := memmove_as_through_temporary UInt8.ofNat
    (by decide : 1 + 3 ≤ 2 ^ 64) (by decide : 0 + 3 ≤ 2 ^ 64)
  obtain ⟨mem', hmem, hcopied, -⟩ := huser (by decide)
  exact ⟨hagree (by decide), mem', hmem, hcopied⟩

end Xv6.Libc
