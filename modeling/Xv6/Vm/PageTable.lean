import Mathlib.Logic.Function.Basic
import Xv6.Param

/-! # Physical pages and Sv39 page tables

`kalloc.c`'s free list, and the three-level page tables of `vm.c`. A page table is a
tree of nodes; a node remembers the physical page it occupies. Above the tree stand
two views that say all that the rest of the kernel can see of it: which virtual
pages have a level-0 table, and the leaf entry of each virtual page.
-/

namespace Xv6.Vm

open Function Lib

def PGSIZE : Nat := 4096

abbrev Page := Bytes PGSIZE

def MAXVA : Nat := 2 ^ 38

def TRAMPOLINE : Nat := MAXVA - PGSIZE

def TRAPFRAME : Nat := TRAMPOLINE - PGSIZE

def PGROUNDUP (a : Nat) : Nat := (a + PGSIZE - 1) % 2 ^ 64 / PGSIZE * PGSIZE

def PGROUNDDOWN (a : Nat) : Nat := a / PGSIZE * PGSIZE

/-- The panics of `vm.c`. `freewalkData` stands for `freewalk` taking a leaf entry
without `PTE_R`, `PTE_W` and `PTE_X` for a page-table page and freeing what the data
in it points to. -/
inductive Panic where
  | walk
  | mappagesSize
  | mappagesRemap
  | uvmunmapNotAligned
  | uvmunmapWalk
  | uvmunmapNotLeaf
  | freewalkLeaf
  | freewalkData
  | uvmcopyNoPte
  | uvmclear
  | kfree
deriving DecidableEq, Repr

/-! ## The page allocator -/

/-- `kmem.freelist` as page numbers, and the contents of physical pages. The junk
that `kalloc` and `kfree` fill pages with is left out: every caller of `kalloc`
initialises the page. -/
structure Kmem where
  free : List Nat
  mem : Nat → Page

def kalloc (km : Kmem) : Option (Nat × Kmem) :=
  match km.free with
  | [] => none
  | p :: free => some (p, { km with free := free })

def kfree (km : Kmem) (p : Nat) : Kmem := { km with free := p :: km.free }

def Kmem.clear (km : Kmem) (p : Nat) : Kmem :=
  { km with mem := update km.mem p Bytes.zero }

/-! ## Page tables -/

/-- The permission bits of an entry. -/
structure Perm where
  r : Bool
  w : Bool
  x : Bool
  u : Bool
deriving DecidableEq, Repr

def Perm.none (p : Perm) : Bool := !(p.r || p.w || p.x || p.u)

/-- A valid leaf entry. -/
structure Pte where
  page : Nat
  perm : Perm
deriving DecidableEq, Repr

/-- A page of entries, each invalid or pointing to an `α`. -/
structure Node (α : Type) where
  page : Nat
  entry : Nat → Option α

namespace Node

variable {α : Type}

def empty (p : Nat) : Node α := ⟨p, fun _ => .none⟩

def set (n : Node α) (i : Nat) (e : Option α) : Node α :=
  { n with entry := update n.entry i e }

@[simp] theorem entry_empty (p i : Nat) : (empty p : Node α).entry i = .none := rfl

theorem entry_set (n : Node α) (i j : Nat) (e : Option α) :
    (n.set i e).entry j = if j = i then e else n.entry j := by
  simp [set, update_apply]

end Node

/-- A root of level-1 tables of level-0 tables of leaves. -/
abbrev PageTable := Node (Node (Node Pte))

def PX (level va : Nat) : Nat := va / 2 ^ (12 + 9 * level) % 512

/-- The level-0 table of an address. -/
def PageTable.table? (pt : PageTable) (va : Nat) : Option (Node Pte) :=
  match pt.entry (PX 2 va) with
  | some n1 => n1.entry (PX 1 va)
  | none => none

def walk (pt : PageTable) (va : Nat) : Except Panic (Option (Option Pte)) :=
  if va ≥ MAXVA then .error .walk
  else .ok ((pt.table? va).map fun n0 => n0.entry (PX 0 va))

/-- One level of `walk` with `alloc`: the child at entry `i`, made if it is missing. -/
def nextTable {α : Type} (km : Kmem) (n : Node (Node α)) (i : Nat) : Option (Node α × Kmem) :=
  match n.entry i with
  | some c => some (c, km)
  | none =>
    match kalloc km with
    | none => none
    | some (p, km) => some (Node.empty p, km)

/-- `walk` with `alloc`. The result says whether the entry exists; level-1 tables
made before memory ran out stay. -/
def walkAlloc (km : Kmem) (pt : PageTable) (va : Nat) : Except Panic (Bool × Kmem × PageTable) :=
  if va ≥ MAXVA then .error .walk
  else
    match nextTable km pt (PX 2 va) with
    | none => .ok (false, km, pt)
    | some (n1, km) =>
      match nextTable km n1 (PX 1 va) with
      | none => .ok (false, km, pt.set (PX 2 va) n1)
      | some (n0, km) => .ok (true, km, pt.set (PX 2 va) (n1.set (PX 1 va) n0))

def PageTable.setPte (pt : PageTable) (va : Nat) (e : Option Pte) : PageTable :=
  match pt.entry (PX 2 va) with
  | some n1 =>
    match n1.entry (PX 1 va) with
    | some n0 => pt.set (PX 2 va) (n1.set (PX 1 va) (n0.set (PX 0 va) e))
    | none => pt
  | none => pt

/-! ## The views -/

/-- Virtual pages that the tree has entries for, twice as many as lie below `MAXVA`. -/
def NVPAGE : Nat := 512 * 512 * 512

def PageTable.hasTable (pt : PageTable) (v : Nat) : Bool :=
  v < NVPAGE && (pt.table? (v * PGSIZE)).isSome

def PageTable.leaf (pt : PageTable) (v : Nat) : Option Pte :=
  if v < NVPAGE then (pt.table? (v * PGSIZE)).bind fun n0 => n0.entry (PX 0 (v * PGSIZE))
  else none

section Views

variable {km : Kmem} {pt : PageTable} {v w va : Nat} {e : Option Pte}

theorem PX_page (level va : Nat) : PX level va = PX level (va / PGSIZE * PGSIZE) := by
  unfold PX
  rw [Nat.pow_add, ← Nat.div_div_eq_div_mul, ← Nat.div_div_eq_div_mul,
    show 2 ^ 12 = PGSIZE from rfl, Nat.mul_div_cancel _ (by decide)]

/-- Two pages share their table exactly when they agree in the upper indices. -/
theorem PX_eq_iff (hv : v < NVPAGE) (hw : w < NVPAGE) :
    PX 2 (w * PGSIZE) = PX 2 (v * PGSIZE) ∧ PX 1 (w * PGSIZE) = PX 1 (v * PGSIZE) ↔
      w / 512 = v / 512 := by
  simp only [NVPAGE, PGSIZE, PX] at *
  omega

theorem PX_inj (h : w / 512 = v / 512) (h0 : PX 0 (w * PGSIZE) = PX 0 (v * PGSIZE)) : w = v := by
  simp only [PGSIZE, PX] at *
  omega

theorem page_lt (hva : va < MAXVA) : va / PGSIZE < NVPAGE := by
  simp only [NVPAGE, MAXVA, PGSIZE] at *
  omega

theorem table?_page (pt : PageTable) (va : Nat) :
    pt.table? va = pt.table? (va / PGSIZE * PGSIZE) := by
  unfold PageTable.table?
  rw [PX_page 2, PX_page 1]

theorem hasTable_lt (h : pt.hasTable v = true) : v < NVPAGE := by
  simp only [PageTable.hasTable, Bool.and_eq_true, decide_eq_true_eq] at h
  exact h.1

theorem hasTable_of_leaf (h : pt.leaf v ≠ none) : pt.hasTable v = true := by
  unfold PageTable.leaf at h
  unfold PageTable.hasTable
  split at h
  · rename_i hv
    cases ht : pt.table? (v * PGSIZE) with
    | none => simp [ht] at h
    | some n0 => simp [hv]
  · exact absurd rfl h

theorem walk_eq (hva : va < MAXVA) : walk pt va =
    .ok (if pt.hasTable (va / PGSIZE) then some (pt.leaf (va / PGSIZE)) else none) := by
  have hlt := page_lt hva
  unfold walk
  rw [if_neg (by omega), table?_page, PX_page 0]
  unfold PageTable.hasTable PageTable.leaf
  cases pt.table? (va / PGSIZE * PGSIZE) <;> simp [hlt]

theorem table?_set (n0 : Option (Node Pte)) (n1 : Node (Node Pte))
    (hn1 : ∀ i, i ≠ PX 1 (v * PGSIZE) →
      n1.entry i = (pt.entry (PX 2 (v * PGSIZE))).bind fun n => n.entry i)
    (hv : v < NVPAGE) (hw : w < NVPAGE) :
    PageTable.table? (pt.set (PX 2 (v * PGSIZE)) (n1.set (PX 1 (v * PGSIZE)) n0)) (w * PGSIZE) =
      if w / 512 = v / 512 then n0 else pt.table? (w * PGSIZE) := by
  have hiff := PX_eq_iff hv hw
  unfold PageTable.table?
  rw [Node.entry_set]
  by_cases h2 : PX 2 (w * PGSIZE) = PX 2 (v * PGSIZE)
  · rw [if_pos h2]
    by_cases h1 : PX 1 (w * PGSIZE) = PX 1 (v * PGSIZE)
    · rw [if_pos (hiff.mp ⟨h2, h1⟩)]
      simp [Node.entry_set, h1]
    · rw [if_neg (fun h => h1 (hiff.mpr h).2)]
      simp only [Node.entry_set, if_neg h1, hn1 _ h1, h2]
      cases pt.entry (PX 2 (v * PGSIZE)) <;> rfl
  · rw [if_neg h2, if_neg (fun h => h2 (hiff.mpr h).1)]

theorem setPte_views (hv : pt.hasTable v = true) (e : Option Pte) :
    (pt.setPte (v * PGSIZE) e).hasTable = pt.hasTable ∧
      (pt.setPte (v * PGSIZE) e).leaf = update pt.leaf v e := by
  have hlt := hasTable_lt hv
  simp only [PageTable.hasTable, hlt, decide_true, Bool.true_and] at hv
  obtain ⟨n0, hn0⟩ := Option.isSome_iff_exists.mp hv
  have htab := hn0
  unfold PageTable.table? at hn0
  cases h2 : pt.entry (PX 2 (v * PGSIZE)) with
  | none => simp [h2] at hn0
  | some n1 =>
    simp only [h2] at hn0
    have hset : pt.setPte (v * PGSIZE) e =
        pt.set (PX 2 (v * PGSIZE)) (n1.set (PX 1 (v * PGSIZE)) (n0.set (PX 0 (v * PGSIZE)) e)) := by
      simp only [PageTable.setPte, h2, hn0]
    have htable : ∀ w, w < NVPAGE → (pt.setPte (v * PGSIZE) e).table? (w * PGSIZE) =
        if w / 512 = v / 512 then some (n0.set (PX 0 (v * PGSIZE)) e)
        else pt.table? (w * PGSIZE) := by
      intro w hw
      rw [hset]
      exact table?_set _ n1 (fun i _ => by rw [h2]; rfl) hlt hw
    have hsame : ∀ w, w < NVPAGE → w / 512 = v / 512 → pt.table? (w * PGSIZE) = some n0 := by
      intro w hw hwv
      obtain ⟨e2, e1⟩ := (PX_eq_iff hlt hw).mpr hwv
      rw [← htab]
      unfold PageTable.table?
      rw [e2, e1]
    refine ⟨funext fun w => ?_, funext fun w => ?_⟩
    · unfold PageTable.hasTable
      by_cases hw : w < NVPAGE
      · rw [htable w hw]
        split
        · rename_i hwv
          rw [hsame w hw hwv]
          rfl
        · rfl
      · simp [hw]
    · rw [update_apply]
      unfold PageTable.leaf
      by_cases hw : w < NVPAGE
      · rw [if_pos hw, if_pos hw, htable w hw]
        by_cases hwv : w / 512 = v / 512
        · rw [if_pos hwv, hsame w hw hwv]
          simp only [Option.bind_some, Node.entry_set]
          by_cases heq : w = v
          · subst heq
            simp
          · rw [if_neg heq, if_neg fun h0 => heq (PX_inj hwv h0)]
        · rw [if_neg hwv, if_neg fun heq => hwv (by rw [heq])]
      · have hne : w ≠ v := fun heq => hw (heq ▸ hlt)
        simp [hw, hne]

/-- What `walk` with `alloc` does to the views: it may give `v` and the pages that
share its table a table. -/
structure Walked (v : Nat) (found : Bool) (km : Kmem) (pt : PageTable) (km' : Kmem)
    (pt' : PageTable) : Prop where
  mem : km'.mem = km.mem
  leaf : pt'.leaf = pt.leaf
  table : ∀ w, pt'.hasTable w =
    (pt.hasTable w || (found && decide (w < NVPAGE ∧ w / 512 = v / 512)))

theorem kalloc_mem {p : Nat} {km' : Kmem} (h : kalloc km = some (p, km')) : km'.mem = km.mem := by
  unfold kalloc at h
  split at h <;> cases h
  rfl

theorem nextTable_some {α : Type} {n : Node (Node α)} {i : Nat} {c : Node α} {km' : Kmem}
    (h : nextTable km n i = some (c, km')) :
    km'.mem = km.mem ∧ (n.entry i = some c ∨ n.entry i = none ∧ ∃ p, c = .empty p) := by
  unfold nextTable at h
  split at h
  · rename_i c' hc
    cases h
    exact ⟨rfl, Or.inl hc⟩
  · rename_i hc
    split at h
    · cases h
    · rename_i p km₁ hk
      cases h
      exact ⟨kalloc_mem hk, Or.inr ⟨hc, p, rfl⟩⟩

/-- Two trees with the same tables, up to empty ones, have the same leaves. -/
theorem leaf_congr {pt' : PageTable}
    (h : ∀ w, w < NVPAGE → pt'.table? (w * PGSIZE) = pt.table? (w * PGSIZE) ∨
      pt.table? (w * PGSIZE) = none ∧ ∃ p, pt'.table? (w * PGSIZE) = some (.empty p)) :
    pt'.leaf = pt.leaf := by
  funext w
  unfold PageTable.leaf
  by_cases hw : w < NVPAGE
  · rw [if_pos hw, if_pos hw]
    rcases h w hw with h | ⟨h, p, h'⟩
    · rw [h]
    · rw [h, h']
      rfl
  · rw [if_neg hw, if_neg hw]

variable (km pt) in
theorem walkAlloc_walked (hva : v * PGSIZE < MAXVA) : ∃ found km' pt',
    walkAlloc km pt (v * PGSIZE) = .ok (found, km', pt') ∧ Walked v found km pt km' pt' := by
  have hv : v < NVPAGE := by
    simp only [NVPAGE, MAXVA, PGSIZE] at *
    omega
  unfold walkAlloc
  rw [if_neg (by omega)]
  cases h1 : nextTable km pt (PX 2 (v * PGSIZE)) with
  | none => exact ⟨false, km, pt, rfl, rfl, rfl, fun w => by simp⟩
  | some r1 =>
    obtain ⟨n1, km₁⟩ := r1
    obtain ⟨hm1, hn1⟩ := nextTable_some h1
    -- the level-1 node agrees with the tree, whether it was there or not
    have hagree : ∀ i, n1.entry i = (pt.entry (PX 2 (v * PGSIZE))).bind fun n => n.entry i := by
      intro i
      rcases hn1 with h | ⟨h, p, rfl⟩ <;> rw [h] <;> rfl
    have hself : n1.set (PX 1 (v * PGSIZE)) (n1.entry (PX 1 (v * PGSIZE))) = n1 := by
      simp [Node.set]
    have htab : pt.table? (v * PGSIZE) = n1.entry (PX 1 (v * PGSIZE)) := by
      rw [hagree]
      unfold PageTable.table?
      cases pt.entry (PX 2 (v * PGSIZE)) <;> rfl
    have hgroup : ∀ w, w < NVPAGE → w / 512 = v / 512 →
        pt.table? (w * PGSIZE) = pt.table? (v * PGSIZE) := by
      intro w hw hwv
      obtain ⟨e2, e1⟩ := (PX_eq_iff hv hw).mpr hwv
      unfold PageTable.table?
      rw [e2, e1]
    dsimp only
    cases h0 : nextTable km₁ n1 (PX 1 (v * PGSIZE)) with
    | none =>
      have htable : ∀ w, w < NVPAGE →
          PageTable.table? (pt.set (PX 2 (v * PGSIZE)) n1) (w * PGSIZE) =
              pt.table? (w * PGSIZE) := by
        intro w hw
        have := table?_set (n1.entry (PX 1 (v * PGSIZE))) n1 (fun i _ => hagree i) hv hw
        rw [hself] at this
        rw [this]
        split
        · rename_i hwv
          rw [hgroup w hw hwv, htab]
        · rfl
      refine ⟨false, km₁, _, rfl, hm1, leaf_congr fun w hw => Or.inl (htable w hw), fun w => ?_⟩
      unfold PageTable.hasTable
      by_cases hw : w < NVPAGE
      · rw [htable w hw]
        simp
      · simp [hw]
    | some r0 =>
      obtain ⟨n0, km₂⟩ := r0
      obtain ⟨hm0, hn0⟩ := nextTable_some h0
      have htable : ∀ w, w < NVPAGE →
          PageTable.table? (pt.set (PX 2 (v * PGSIZE)) (n1.set (PX 1 (v * PGSIZE)) n0))
          (w * PGSIZE) =
            if w / 512 = v / 512 then some n0 else pt.table? (w * PGSIZE) := by
        intro w hw
        exact table?_set (some n0) n1 (fun i _ => hagree i) hv hw
      refine ⟨true, km₂, _, rfl, hm0.trans hm1, leaf_congr fun w hw => ?_, fun w => ?_⟩
      · rw [htable w hw]
        split
        · rename_i hwv
          rw [hgroup w hw hwv, htab]
          rcases hn0 with h | ⟨h, p, rfl⟩
          · exact Or.inl h.symm
          · exact Or.inr ⟨h, p, rfl⟩
        · exact Or.inl rfl
      · unfold PageTable.hasTable
        by_cases hw : w < NVPAGE
        · rw [htable w hw]
          split
          · rename_i hwv
            simp [hw, hwv]
          · rename_i hwv
            simp [hwv]
        · simp [hw]

end Views

end Xv6.Vm
