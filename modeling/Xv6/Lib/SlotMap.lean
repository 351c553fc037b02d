import Mathlib.Data.List.Basic
import Mathlib.Logic.Function.Basic

/-! # A table of slots as a finite map

A table is a list of slots, each free or with a key and its value. As long as no two slots have the
same key, the table is a finite map: writing a new key into a free slot adds a binding, and freeing
the slot of a key removes its binding. The slots are used in any order.
-/

namespace Xv6.Lib

open Function

abbrev Slots (κ ν : Type) := List (Option (κ × ν))

namespace Slots

variable {κ ν : Type} {t : Slots κ ν} {k : κ} {v : ν} {i : Nat}

def free (t : Slots κ ν) : Nat := t.findIdx Option.isNone

/-- The table with slot `i` written, or with a slot more if `i` is its end. -/
def put (t : Slots κ ν) (i : Nat) (s : Option (κ × ν)) : Slots κ ν :=
  t.take i ++ s :: t.drop (i + 1)

/-- No two slots have the same key. -/
def Distinct (t : Slots κ ν) : Prop :=
  ∀ (i j : Nat) (a b : κ × ν), t[i]? = some (some a) → t[j]? = some (some b) → a.1 = b.1 → i = j

theorem getElem?_put (hi : i ≤ t.length) (s : Option (κ × ν)) (j : Nat) :
    (t.put i s)[j]? = if j = i then some s else t[j]? := by
  unfold put
  by_cases hlt : j < i
  · rw [if_neg (by omega), List.getElem?_append_left (by rw [List.length_take]; omega),
      List.getElem?_take_of_lt hlt]
  · rw [List.getElem?_append_right (by rw [List.length_take]; omega), List.length_take,
      Nat.min_eq_left hi]
    by_cases heq : j = i
    · rw [if_pos heq, heq, Nat.sub_self]
      rfl
    · rw [if_neg heq, show j - i = (j - i - 1) +
        1 by omega, List.getElem?_cons_succ, List.getElem?_drop]
      congr 1
      omega

theorem length_put (hi : i ≤ t.length) (s : Option (κ × ν)) :
    (t.put i s).length = max t.length (i + 1) := by
  unfold put
  rw [List.length_append, List.length_cons, List.length_take, List.length_drop]
  omega

theorem free_le (t : Slots κ ν) : t.free ≤ t.length := List.findIdx_le_length

theorem getElem?_free (t : Slots κ ν) (a : κ × ν) : t[t.free]? ≠ some (some a) := by
  intro h
  obtain ⟨hlt, ha⟩ := List.getElem?_eq_some_iff.mp h
  have hnone := List.findIdx_getElem (w := hlt)
  unfold free at ha
  rw [ha] at hnone
  cases hnone

theorem distinct_of_pairwise [BEq κ] [LawfulBEq κ]
    (h : t.Pairwise fun s s' => (s.all fun a => s'.all fun b => a.1 != b.1) = true) :
    t.Distinct := by
  have hlt : ∀ (i j : Nat) (a b : κ × ν), i < j → t[i]? = some (some a) → t[j]? = some (some b) →
      a.1 ≠ b.1 := by
    intro i j a b hij hi hj
    obtain ⟨hi, ha⟩ := List.getElem?_eq_some_iff.mp hi
    obtain ⟨hj, hb⟩ := List.getElem?_eq_some_iff.mp hj
    have hne := List.pairwise_iff_getElem.mp h i j hi hj hij
    rw [ha, hb] at hne
    simpa using hne
  intro i j a b hi hj hab
  by_contra hne
  rcases Nat.lt_or_gt_of_ne hne with hij | hij
  · exact hlt i j a b hij hi hj hab
  · exact hlt j i b a hij hj hi hab.symm

theorem Distinct.put_none (h : t.Distinct) (hi : i ≤ t.length) : (t.put i none).Distinct := by
  intro x y a b hx hy hab
  rw [getElem?_put hi] at hx hy
  split at hx
  · cases hx
  · split at hy
    · cases hy
    · exact h x y a b hx hy hab

/-! ## The map -/

variable [DecidableEq κ]

/-- The slot has the key `k`. -/
def has (k : κ) (s : Option (κ × ν)) : Bool := s.any (·.1 = k)

/-- The map that the table stands for. -/
def lookup (t : Slots κ ν) (k : κ) : Option ν := (t.find? (has k)).bind fun s => s.map Prod.snd

theorem has_some {s : Option (κ × ν)} : has k s = true ↔ ∃ v, s = some (k, v) := by
  cases s with
  | none => simp [has]
  | some a =>
    obtain ⟨k', v⟩ := a
    simp [has]

theorem lookup_cons (s : Option (κ × ν)) (t : Slots κ ν) (k : κ) :
    lookup (s :: t) k = if has k s then s.map Prod.snd else lookup t k := by
  unfold lookup
  rw [List.find?_cons]
  cases has k s <;> rfl

theorem lookup_eq_none : t.lookup k = none ↔ ∀ (i : Nat) (v : ν), t[i]? ≠ some (some (k, v)) := by
  unfold lookup
  cases hf : t.find? (has k) with
  | none =>
    refine iff_of_true rfl fun i v hi => ?_
    exact List.find?_eq_none.mp hf _ (List.mem_of_getElem? hi) (has_some.mpr ⟨v, rfl⟩)
  | some s =>
    obtain ⟨v, rfl⟩ := has_some.mp (List.find?_some hf)
    obtain ⟨i, hi⟩ := List.mem_iff_getElem?.mp (List.mem_of_find?_eq_some hf)
    exact iff_of_false (by simp) fun h => h i v hi

theorem lookup_eq_some (h : t.Distinct) :
    t.lookup k = some v ↔ ∃ i : Nat, t[i]? = some (some (k, v)) := by
  unfold lookup
  constructor
  · intro hl
    obtain ⟨s, hf, hv⟩ := Option.bind_eq_some_iff.mp hl
    obtain ⟨w, rfl⟩ := has_some.mp (List.find?_some hf)
    obtain rfl : w = v := Option.some.inj hv
    exact List.mem_iff_getElem?.mp (List.mem_of_find?_eq_some hf)
  · rintro ⟨i, hi⟩
    cases hf : t.find? (has k) with
    | none =>
      exact absurd (has_some.mpr ⟨v, rfl⟩) (List.find?_eq_none.mp hf _ (List.mem_of_getElem? hi))
    | some s =>
      obtain ⟨w, rfl⟩ := has_some.mp (List.find?_some hf)
      obtain ⟨j, hj⟩ := List.mem_iff_getElem?.mp (List.mem_of_find?_eq_some hf)
      obtain rfl := h i j _ _ hi hj rfl
      obtain rfl : v = w := by
        have := hi.symm.trans hj
        simpa using this
      rfl

/-! ## Adding and removing a binding -/

section

variable (h : t.Distinct)

include h

theorem Distinct.put_some (hi : i ≤ t.length) (hk : t.lookup k = none) :
    (t.put i (some (k, v))).Distinct := by
  have hnew := lookup_eq_none.mp hk
  intro x y a b hx hy hab
  rw [getElem?_put hi] at hx hy
  split at hx <;> split at hy
  · omega
  · cases hx
    exact absurd hy (by rw [show b = (k, b.2) from Prod.ext hab.symm rfl]; exact hnew y b.2)
  · cases hy
    exact absurd hx (by rw [show a = (k, a.2) from Prod.ext hab rfl]; exact hnew x a.2)
  · exact h x y a b hx hy hab

end

end Slots

end Xv6.Lib
