import Mathlib.Data.List.TakeWhile
import Mathlib.Logic.Function.Basic
import Mathlib.Tactic.SplitIfs

/-! # Names and paths

The string functions of `string.c` on names, and `skipelem`. A pointer to characters is the memory
from there on; a path is the list of its characters up to the NUL. What two names have in common for
the file system is their key: the characters up to a NUL, `DIRSIZ` of them at most.
-/

namespace Xv6.Names

def DIRSIZ : Nat := 14

/-- `strncmp(p, q, n)` from offset `i` on. -/
def strncmp (p q : Nat → UInt8) : Nat → Nat → Int
  | 0, _ => 0
  | n + 1, i => if p i ≠ 0 ∧ p i = q i then strncmp p q n (i + 1) else (p i).toNat - (q i).toNat

/-- The bytes that `strncpy(s, t, n)` writes, with `t` from offset `i` on. -/
def strncpy (t : Nat → UInt8) : Nat → Nat → List UInt8
  | 0, _ => []
  | n + 1, i => if t i = 0 then 0 :: List.replicate n 0 else t i :: strncpy t n (i + 1)

def memmove (s : Nat → UInt8) (t : List UInt8) (n : Nat) : Nat → UInt8 :=
  fun i => if i < n then t.getD i 0 else s i

def namecmp (s t : Nat → UInt8) : Int := strncmp s t DIRSIZ 0

/-- The characters of `s` from offset `i` on up to a NUL, `n` of them at most. -/
def cstr (s : Nat → UInt8) : Nat → Nat → List UInt8
  | 0, _ => []
  | n + 1, i => if s i = 0 then [] else s i :: cstr s n (i + 1)

/-- The name that the memory at `s` stands for. -/
def key (s : Nat → UInt8) : List UInt8 := cstr s DIRSIZ 0

section

variable {s t : Nat → UInt8} {n i : Nat}

theorem strncmp_eq_zero : strncmp s t n i = 0 ↔ cstr s n i = cstr t n i := by
  induction n generalizing i with
  | zero => exact iff_of_true rfl rfl
  | succ n ih =>
    unfold strncmp cstr
    by_cases hs : s i = 0
    · rw [if_neg (fun h => h.1 hs), if_pos hs, hs]
      by_cases ht : t i = 0
      · rw [ht, if_pos rfl]
        exact iff_of_true rfl rfl
      · rw [if_neg ht]
        refine iff_of_false (fun h => ht (UInt8.toNat_inj.mp ?_)) (List.cons_ne_nil _ _).symm
        rw [UInt8.toNat_zero] at h ⊢
        omega
    · rw [if_neg hs]
      by_cases heq : s i = t i
      · rw [if_pos ⟨hs, heq⟩, ih, ← heq, if_neg hs, List.cons.injEq]
        exact ⟨fun h => ⟨rfl, h⟩, fun h => h.2⟩
      · rw [if_neg (fun h => heq h.2)]
        refine iff_of_false (fun h => heq (UInt8.toNat_inj.mp (by omega))) ?_
        split
        · exact List.cons_ne_nil _ _
        · exact fun h => heq (List.cons.inj h).1

theorem namecmp_eq_zero : namecmp s t = 0 ↔ key s = key t := strncmp_eq_zero

theorem strncpy_length (t : Nat → UInt8) (n i : Nat) : (strncpy t n i).length = n := by
  induction n generalizing i with
  | zero => rfl
  | succ n ih =>
    unfold strncpy
    split
    · rw [List.length_cons, List.length_replicate]
    · rw [List.length_cons, ih]

theorem cstr_congr {i j : Nat} (h : ∀ m, m < n → s (i + m) = t (j + m)) :
    cstr s n i = cstr t n j := by
  induction n generalizing i j with
  | zero => rfl
  | succ n ih =>
    have h0 : s i = t j := h 0 (Nat.succ_pos n)
    have hrest : cstr s n (i + 1) = cstr t n (j + 1) := ih fun m hm => by
      rw [Nat.add_assoc, Nat.add_comm 1, Nat.add_assoc, Nat.add_comm 1]
      exact h (m + 1) (Nat.succ_lt_succ hm)
    unfold cstr
    rw [h0, hrest]

theorem cstr_strncpy (t : Nat → UInt8) (n i : Nat) :
    cstr (fun j => (strncpy t n i).getD j 0) n 0 = cstr t n i := by
  induction n generalizing i with
  | zero => rfl
  | succ n ih =>
    unfold strncpy
    by_cases h0 : t i = 0
    · rw [if_pos h0, cstr, cstr, if_pos h0]
      exact if_pos rfl
    · rw [if_neg h0, cstr, cstr, if_neg h0]
      refine (if_neg h0).trans (congrArg _ ?_)
      rw [← ih]
      exact cstr_congr fun m _ => by rw [show 0 + 1 + m = m + 1 by omega, Nat.zero_add]; rfl

end

/-! ## Components of a path -/

/-- The memory at `name` holds the component `e`: its first `DIRSIZ` characters, and a NUL if it is
shorter. -/
structure Holds (name : Nat → UInt8) (e : List UInt8) : Prop where
  chars : ∀ i, i < DIRSIZ → i < e.length → name i = e.getD i 0
  nul : e.length < DIRSIZ → name e.length = 0

section

variable {path e : List UInt8} {es : List (List UInt8)} {name : Nat → UInt8}

theorem Holds.key (h : Holds name e) (hnul : ∀ c ∈ e, c ≠ 0) : key name = e.take DIRSIZ := by
  have haux : ∀ n i, i + n = DIRSIZ → i ≤ e.length → cstr name n i = (e.drop i).take n := by
    intro n
    induction n with
    | zero => exact fun i _ _ => rfl
    | succ n ih =>
      intro i hi hle
      unfold cstr
      by_cases hend : i = e.length
      · rw [hend, if_pos (h.nul (by omega)), List.drop_length, List.take_nil]
      · have hlt : i < e.length := by omega
        have hc := h.chars i (by omega) hlt
        rw [List.getD_eq_getElem?_getD, List.getElem?_eq_getElem hlt, Option.getD_some] at hc
        rw [hc, if_neg (hnul _ (List.getElem_mem hlt)), List.drop_eq_getElem_cons hlt,
          List.take_succ_cons, ih (i + 1) (by omega) hlt]
  exact haux DIRSIZ 0 (Nat.zero_add _) (Nat.zero_le _)

end

end Xv6.Names
