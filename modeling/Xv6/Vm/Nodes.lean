import Xv6.Lib.Counting
import Xv6.Vm.PageTable

/-! # The pages that a page table occupies

How often a physical page occurs as a page-table page of a tree. `walk` moves pages
from the free list into the tree and nothing else does, so the count of a page in the
free list and in the tree together never changes.
-/

namespace Xv6.Vm

open Lib

namespace Node

variable {α : Type} {below : α → Nat} {n : Node α} {q i : Nat}

/-- Occurrences of page `q` in a node, given those in each of its children. -/
def count (below : α → Nat) (q : Nat) (n : Node α) : Nat :=
  (if n.page = q then 1 else 0) + ∑ i ∈ Finset.range 512, (n.entry i).elim 0 below

theorem page_set (n : Node α) (i : Nat) (e : Option α) : (n.set i e).page = n.page := rfl

theorem set_self {c : α} (h : n.entry i = some c) : n.set i (some c) = n := by
  unfold set
  rw [← h, Function.update_eq_self]

theorem set_set (n : Node α) (i : Nat) (e e' : Option α) : (n.set i e).set i e' = n.set i e' := by
  unfold set
  rw [Function.update_idem]

theorem count_empty (below : α → Nat) (p q : Nat) :
    (Node.empty p).count below q = if p = q then 1 else 0 := by
  have hpage : (Node.empty p : Node α).page = p := rfl
  simp [count, hpage]

variable (below) in
theorem count_set (hi : i < 512) (e : Option α) :
    (n.set i e).count below q + (n.entry i).elim 0 below = n.count below q + e.elim 0 below := by
  have htrade := sum_update_trade (fun x : Option α => x.elim 0 below) n.entry
    (Finset.mem_range.mpr hi) e
  unfold count
  rw [page_set]
  simp only [set]
  omega

variable (below) in
theorem page_add_le_count {c : α} (hi : i < 512) (hc : n.entry i = some c) :
    (if n.page = q then 1 else 0) + below c ≤ n.count below q := by
  have hle := Finset.single_le_sum (f := fun j => (n.entry j).elim 0 below)
    (fun _ _ => Nat.zero_le _) (Finset.mem_range.mpr hi)
  simp only [hc, Option.elim_some] at hle
  exact Nat.add_le_add_left hle _

variable (below) in
/-- Two children of one node do not share a page more often than the node has it. -/
theorem pair_le_count {j : Nat} {c d : α} (hi : i < 512) (hj : j < 512) (hij : i ≠ j)
    (hc : n.entry i = some c) (hd : n.entry j = some d) : below c + below d ≤ n.count below q := by
  have hle := pair_le_sum (fun k => (n.entry k).elim 0 below) (Finset.mem_range.mpr hi)
    (Finset.mem_range.mpr hj) hij
  simp only [hc, hd, Option.elim_some] at hle
  exact le_trans hle (Nat.le_add_left _ _)

end Node

/-- Occurrences of page `q` as a level-0 table. -/
def count0 (q : Nat) (n : Node Pte) : Nat := n.count (fun _ => 0) q

/-- Occurrences of page `q` as a level-1 table or below. -/
def count1 (q : Nat) (n : Node (Node Pte)) : Nat := n.count (count0 q) q

/-- Occurrences of page `q` as a page-table page. -/
def PageTable.nodes (pt : PageTable) (q : Nat) : Nat := pt.count (count1 q) q

section

variable {km km' : Kmem} {pt pt' : PageTable} {va q : Nat}

theorem PX_lt (level va : Nat) : PX level va < 512 := Nat.mod_lt _ (by decide)

theorem count0_eq (n : Node Pte) : count0 q n = if n.page = q then 1 else 0 := by
  have hzero : ∀ i, (n.entry i).elim 0 (fun _ => 0) = 0 := fun i => by cases n.entry i <;> rfl
  simp [count0, Node.count, hzero]

theorem kalloc_count {p : Nat} (h : kalloc km = some (p, km')) :
    km.free.count q = km'.free.count q + if p = q then 1 else 0 := by
  unfold kalloc at h
  split at h
  · cases h
  · rename_i p' rest hfree
    cases h
    rw [hfree, List.count_cons]
    simp [beq_iff_eq]

theorem kalloc_free {p : Nat} (h : kalloc km = some (p, km')) : km'.free <:+ km.free := by
  unfold kalloc at h
  split at h
  · cases h
  · rename_i p' rest hfree
    cases h
    rw [hfree]
    exact List.suffix_cons _ _

theorem nextTable_count {α : Type} (below : α → Nat) {n : Node (Node α)} {i : Nat} {c : Node α}
    (h : nextTable km n i = some (c, km')) :
    km'.free.count q + c.count below q =
      km.free.count q + (n.entry i).elim 0 (fun c => c.count below q) := by
  unfold nextTable at h
  split at h
  · rename_i c' hc
    cases h
    simp [hc]
  · rename_i hc
    split at h
    · cases h
    · rename_i p km₁ hk
      cases h
      have hcount := kalloc_count (q := q) hk
      rw [hc, Node.count_empty]
      simp only [Option.elim_none]
      omega

theorem count0_def : count0 q = fun n => n.count (fun _ => 0) q := rfl

theorem count1_def : count1 q = fun n => n.count (count0 q) q := rfl

theorem walkAlloc_nodes {found : Bool} (h : walkAlloc km pt va = .ok (found, km', pt')) :
    km'.free.count q + pt'.nodes q = km.free.count q + pt.nodes q := by
  unfold walkAlloc at h
  split at h
  · cases h
  · split at h
    · cases h
      rfl
    · rename_i n1 km₁ h1
      have hc1 := nextTable_count (q := q) (count0 q) h1
      split at h
      · cases h
        have hset := Node.count_set (n := pt) (q := q) (count1 q) (PX_lt 2 va) (some n1)
        simp only [PageTable.nodes, Option.elim_some] at hset ⊢
        simp only [count1_def] at hset ⊢
        omega
      · rename_i n0 km₂ h0
        cases h
        have hc0 := nextTable_count (q := q) (fun _ => 0) h0
        have hset0 := Node.count_set (n := n1) (q := q) (count0 q) (PX_lt 1 va) (some n0)
        have hset := Node.count_set (n := pt) (q := q) (count1 q) (PX_lt 2 va)
          (some (n1.set (PX 1 va) (some n0)))
        simp only [PageTable.nodes, Option.elim_some] at hset0 hset ⊢
        simp only [count1_def] at hset ⊢
        simp only [count0_def] at hset0 hset hc1 ⊢
        omega

theorem setPte_nodes (e : Option Pte) : (pt.setPte va e).nodes q = pt.nodes q := by
  unfold PageTable.setPte
  split
  · rename_i n1 h1
    split
    · rename_i n0 h0
      have hset0 := Node.count_set (n := n1) (q := q) (count0 q) (PX_lt 1 va)
        (some (n0.set (PX 0 va) e))
      have hset := Node.count_set (n := pt) (q := q) (count1 q) (PX_lt 2 va)
        (some (n1.set (PX 1 va) (some (n0.set (PX 0 va) e))))
      have hleaf : count0 q (n0.set (PX 0 va) e) = count0 q n0 := by
        rw [count0_eq, count0_eq]
        rfl
      simp only [h0, h1, Option.elim_some, hleaf] at hset0 hset
      simp only [count1_def] at hset
      unfold PageTable.nodes
      simp only [count1_def]
      omega
    · rfl
  · rfl

theorem nextTable_free {α : Type} {n : Node (Node α)} {i : Nat} {c : Node α}
    (h : nextTable km n i = some (c, km')) : km'.free <:+ km.free := by
  unfold nextTable at h
  split at h
  · cases h
    exact List.suffix_rfl
  · split at h
    · cases h
    · rename_i p km₁ hk
      cases h
      exact kalloc_free hk

theorem walkAlloc_free {found : Bool} (h : walkAlloc km pt va = .ok (found, km', pt')) :
    km'.free <:+ km.free := by
  unfold walkAlloc at h
  split at h
  · cases h
  · split at h
    · cases h
      exact List.suffix_rfl
    · rename_i n1 km₁ h1
      split at h
      · cases h
        exact nextTable_free h1
      · rename_i n0 km₂ h0
        cases h
        exact (nextTable_free h0).trans (nextTable_free h1)

end

end Xv6.Vm
