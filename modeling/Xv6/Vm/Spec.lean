import Xv6.Vm.Nodes
import Xv6.Vm.Uvm

/-! # What the page-table functions do

A page table stands for a partial map from virtual pages to leaf entries. Each
function of `vm.c` is described by what it does to that map, to the free list and to
the page-table pages, together with the conditions under which it panics.
-/

namespace Xv6.Vm

open Function Lib

/-! ## Partial maps from virtual pages -/

abbrev VMap := Nat → Option Pte

namespace VMap

def map (m : VMap) (v k page : Nat) (perm : Perm) : VMap := fun w =>
  if v ≤ w ∧ w < v + k then some ⟨page + (w - v), perm⟩ else m w

def unmap (m : VMap) (v n : Nat) : VMap := fun w => if v ≤ w ∧ w < v + n then none else m w

/-- Take page `v` away from user mode. -/
def clearUser (m : VMap) (v : Nat) : VMap :=
  update m v ((m v).map fun pte => { pte with perm := { pte.perm with u := false } })

variable {m : VMap} {v k n page : Nat} {perm : Perm}

theorem map_zero (m : VMap) (v page : Nat) (perm : Perm) : m.map v 0 page perm = m := by
  funext w
  exact if_neg (by omega)

theorem map_update (m : VMap) (v k page : Nat) (perm : Perm) :
    VMap.map (update m v (some ⟨page, perm⟩)) (v + 1) k (page + 1) perm =
      m.map v (k + 1) page perm := by
  funext w
  unfold map
  by_cases hw : w = v
  · subst hw
    rw [if_neg (by omega), update_self, if_pos (by omega), Nat.sub_self, Nat.add_zero]
  · rw [update_of_ne hw]
    by_cases hin : v + 1 ≤ w ∧ w < v + 1 + k
    · rw [if_pos hin, if_pos (by omega), show page + 1 + (w - (v + 1)) = page + (w - v) by omega]
    · rw [if_neg hin, if_neg (by omega)]

theorem unmap_zero (m : VMap) (v : Nat) : m.unmap v 0 = m := by
  funext w
  exact if_neg (by omega)

theorem unmap_succ (m : VMap) (v n : Nat) :
    m.unmap v (n + 1) = update (m.unmap v n) (v + n) none := by
  funext w
  unfold unmap
  by_cases hw : w = v + n
  · subst hw
    rw [if_pos (by omega), update_self]
  · rw [update_of_ne hw]
    by_cases hin : v ≤ w ∧ w < v + n
    · rw [if_pos hin, if_pos (by omega)]
    · rw [if_neg hin, if_neg (by omega)]

end VMap

/-- Whether an entry refers to physical page `q`. -/
def refers (q : Nat) (e : Option Pte) : Nat := e.elim 0 fun pte => if pte.page = q then 1 else 0

/-- Entries of the first `U` virtual pages that refer to physical page `q`. -/
def VMap.leaves (m : VMap) (U q : Nat) : Nat := ∑ w ∈ Finset.range U, refers q (m w)

theorem leaves_update (m : VMap) {U v q : Nat} (hv : v < U) (e : Option Pte) :
    VMap.leaves (update m v e) U q + refers q (m v) = m.leaves U q + refers q e :=
  sum_update_trade (refers q) m (Finset.mem_range.mpr hv) e

theorem leaves_unmap_lt {m : VMap} {pte : Pte} {v n w U : Nat} (hle : v ≤ w) (hw : w < v + n)
    (hU : v + n ≤ U) (hpte : m w = some pte) :
    VMap.leaves (VMap.unmap m v n) U pte.page < m.leaves U pte.page := by
  refine Finset.sum_lt_sum (fun u _ => ?_) ⟨w, Finset.mem_range.mpr (by omega), ?_⟩
  · unfold VMap.unmap
    split
    · exact Nat.zero_le _
    · exact Nat.le_refl _
  · rw [VMap.unmap, if_pos ⟨hle, hw⟩, hpte]
    simp [refers]

/-! ## `mappages` -/

/-- Page-table pages moved from the free list into the tree. -/
structure Grown (km : Kmem) (pt : PageTable) (km' : Kmem) (pt' : PageTable) : Prop where
  mem : km'.mem = km.mem
  free : km'.free <:+ km.free
  nodes : ∀ q, km'.free.count q + pt'.nodes q = km.free.count q + pt.nodes q
  table : ∀ w, pt.hasTable w = true → pt'.hasTable w = true

section

variable {km km' km₁ : Kmem} {pt pt' pt₁ : PageTable} {v n page q : Nat} {perm : Perm}

theorem Grown.refl (km : Kmem) (pt : PageTable) : Grown km pt km pt :=
  ⟨rfl, List.suffix_rfl, fun _ => rfl, fun _ => id⟩

theorem Grown.trans (h : Grown km pt km₁ pt₁) (h' : Grown km₁ pt₁ km' pt') :
    Grown km pt km' pt' where
  mem := h'.mem.trans h.mem
  free := h'.free.trans h.free
  nodes q := (h'.nodes q).trans (h.nodes q)
  table w hw := h'.table w (h.table w hw)

variable (km pt) in
theorem walkAlloc_grown (hva : v * PGSIZE < MAXVA) : ∃ found km' pt',
    walkAlloc km pt (v * PGSIZE) = .ok (found, km', pt') ∧ Grown km pt km' pt' ∧
      pt'.leaf = pt.leaf ∧ (found = true → pt'.hasTable v = true) := by
  obtain ⟨found, km', pt', hwalk, hw⟩ := walkAlloc_walked km pt hva
  refine ⟨found, km', pt', hwalk,
    ⟨hw.mem, walkAlloc_free hwalk, fun q => walkAlloc_nodes hwalk, ?_⟩, hw.leaf, ?_⟩
  · intro w htab
    rw [hw.table w, htab, Bool.true_or]
  · intro hfound
    have hlt := page_lt hva
    rw [Nat.mul_div_cancel _ (by decide)] at hlt
    rw [hw.table v, hfound]
    simp [hlt]

theorem walkAlloc_page {va : Nat} :
    walkAlloc km pt va = walkAlloc km pt (va / PGSIZE * PGSIZE) := by
  unfold walkAlloc
  have hiff : va ≥ MAXVA ↔ va / PGSIZE * PGSIZE ≥ MAXVA := by
    simp only [MAXVA, PGSIZE]
    omega
  simp only [hiff]
  rw [PX_page 2, PX_page 1]

theorem setPte_grown (hv : pt.hasTable v = true) (e : Option Pte) :
    Grown km pt km (pt.setPte (v * PGSIZE) e) where
  mem := rfl
  free := List.suffix_rfl
  nodes q := by rw [setPte_nodes]
  table w hw := by rw [(setPte_views hv e).1]; exact hw

/-- When `mappages` over the `n` pages from `v` on panics. -/
def MapFault (pt : PageTable) (v n : Nat) (e : Panic) : Prop :=
  e = .walk ∧ MAXVA < (v + n) * PGSIZE ∨
    e = .mappagesRemap ∧ ∃ w, v ≤ w ∧ w < v + n ∧ pt.leaf w ≠ none

theorem mappagesLoop_post : Post (MapFault pt v n)
    (fun r => ∃ k, k ≤ n ∧ r.1 = decide (k = n) ∧ Grown km pt r.2.1 r.2.2 ∧
      r.2.2.leaf = VMap.map pt.leaf v k page perm)
    (mappagesLoop perm n (v * PGSIZE) page km pt) := by
  induction n generalizing v page km pt with
  | zero => exact .ok ⟨0, le_rfl, rfl, .refl _ _, (VMap.map_zero _ _ _ _).symm⟩
  | succ n ih =>
    unfold mappagesLoop
    by_cases hva : v * PGSIZE < MAXVA
    · obtain ⟨found, km₁, pt₁, hwalk, hgrown, hleaf, htab⟩ := walkAlloc_grown km pt hva
      apply Post.bind_of_ok hwalk
      cases found with
      | false =>
        refine .pure ⟨0, Nat.zero_le _, rfl, hgrown, ?_⟩
        rw [VMap.map_zero]
        exact hleaf
      | true =>
        dsimp only
        rw [Nat.mul_div_cancel _ (by decide : 0 < PGSIZE)]
        apply Post.ite
        · intro hsome
          refine Post.throw (Or.inr ⟨rfl, v, le_rfl, by omega, ?_⟩)
          rw [← hleaf]
          exact fun h => by simp [h] at hsome
        · intro _
          have hv := htab rfl
          have hset := setPte_views hv (some ⟨page, perm⟩)
          rw [show v * PGSIZE + PGSIZE = (v + 1) * PGSIZE by rw [Nat.succ_mul]]
          refine ih.mono ?_ ?_
          · rintro e (⟨he, hmax⟩ | ⟨he, w, hw1, hw2, hw⟩)
            · exact Or.inl ⟨he, by rw [show v + (n + 1) = v + 1 + n by omega]; exact hmax⟩
            · refine Or.inr ⟨he, w, by omega, by omega, ?_⟩
              rw [hset.2, update_of_ne (by omega), hleaf] at hw
              exact hw
          · rintro r ⟨k, hk, hfound, hg, hl⟩
            refine ⟨k + 1, by omega, ?_, (hgrown.trans (setPte_grown hv _)).trans hg, ?_⟩
            · rw [hfound]
              simp
            · rw [hl, hset.2, hleaf, VMap.map_update]
    · have herr : walkAlloc km pt (v * PGSIZE) = .error .walk := if_pos (by omega)
      rw [herr]
      refine Post.error (Or.inl ⟨rfl, ?_⟩)
      simp only [PGSIZE, MAXVA] at *
      omega

variable (km pt page perm) in
/-- `mappages` maps the pages from `PGROUNDDOWN(va)` to `PGROUNDDOWN(va+size-1)`, or a
proper prefix of them when it returns -1. -/
theorem mappages_post {va size : Nat} (hsize : 0 < size) (hlt : va + size ≤ 2 ^ 64) :
    Post (MapFault pt (va / PGSIZE) ((va + size - 1) / PGSIZE - va / PGSIZE + 1))
    (fun r => ∃ k, k ≤ (va + size - 1) / PGSIZE - va / PGSIZE + 1 ∧
      r.1 = decide (k = (va + size - 1) / PGSIZE - va / PGSIZE + 1) ∧ Grown km pt r.2.1 r.2.2 ∧
      r.2.2.leaf = VMap.map pt.leaf (va / PGSIZE) k page perm)
    (mappages km pt va size page perm) := by
  unfold mappages
  rw [if_neg (by omega)]
  have hcount : (PGROUNDDOWN ((va + size - 1) % 2 ^ 64) + 2 ^ 64 - PGROUNDDOWN va) % 2 ^
      64 / PGSIZE = (va + size - 1) / PGSIZE - va / PGSIZE := by
    simp only [PGROUNDDOWN, PGSIZE]
    omega
  simp only [hcount]
  exact mappagesLoop_post

theorem setPte_page (pt : PageTable) (va : Nat) (e : Option Pte) :
    pt.setPte va e = pt.setPte (va / PGSIZE * PGSIZE) e := by
  unfold PageTable.setPte
  rw [PX_page 2, PX_page 1, PX_page 0]

variable (pt) in
theorem setPte_self {va : Nat} (hva : va < MAXVA) : pt.setPte va (pt.leaf (va / PGSIZE)) = pt := by
  unfold PageTable.leaf
  rw [if_pos (page_lt hva), ← table?_page, ← PX_page]
  unfold PageTable.setPte PageTable.table?
  cases h1 : pt.entry (PX 2 va) with
  | none => rfl
  | some n1 =>
    dsimp only
    cases h0 : n1.entry (PX 1 va) with
    | none => rfl
    | some n0 =>
      have hself : n0.set (PX 0 va) (n0.entry (PX 0 va)) = n0 := by
        unfold Node.set
        rw [update_eq_self]
      dsimp only [Option.bind_some]
      rw [hself, Node.set_self h0, Node.set_self h1]

/-! ## `uvmunmap` and `uvmclear` -/

/-- The `n` pages from `v` on are gone, and on the free list if `do_free` is set. -/
structure Unmapped (do_free : Bool) (v n : Nat) (km : Kmem) (pt : PageTable) (km' : Kmem)
    (pt' : PageTable) : Prop where
  mem : km'.mem = km.mem
  table : pt'.hasTable = pt.hasTable
  nodes : ∀ q, pt'.nodes q = pt.nodes q
  leaf : pt'.leaf = VMap.unmap pt.leaf v n
  kept : do_free = false → km'.free = km.free
  freed : do_free = true → ∀ U q, v + n ≤ U →
    km'.free.count q + VMap.leaves pt'.leaf U q = km.free.count q + VMap.leaves pt.leaf U q

theorem Unmapped.mem_free {w : Nat} {pte : Pte} (h : Unmapped true v n km pt km' pt') (hle : v ≤ w)
    (hw : w < v + n) (hpte : pt.leaf w = some pte) : pte.page ∈ km'.free := by
  have hfreed := h.freed rfl (v + n) pte.page (Nat.le_refl _)
  have hlost := leaves_unmap_lt hle hw (Nat.le_refl _) hpte
  rw [h.leaf] at hfreed
  exact List.count_pos_iff.mp (by omega)

/-- When `uvmunmap` of the `n` pages from `v` on panics. -/
def UnmapFault (pt : PageTable) (v n : Nat) (e : Panic) : Prop :=
  e = .walk ∧ MAXVA < (v + n) * PGSIZE ∨
    (∃ w, v ≤ w ∧ w < v + n ∧
      (e = .uvmunmapWalk ∧ pt.hasTable w = false ∨
        e = .uvmunmapNotLeaf ∧ ∃ pte, pt.leaf w = some pte ∧ pte.perm.none = true))

variable {do_free : Bool} {va : Nat}

theorem uvmunmapPage_post : Post (UnmapFault pt v 1) (fun r => Unmapped do_free v 1 km pt r.1 r.2)
    (uvmunmapPage do_free (v * PGSIZE) (km, pt)) := by
  have hone : VMap.unmap pt.leaf v 1 = update pt.leaf v none := by
    rw [VMap.unmap_succ, VMap.unmap_zero, Nat.add_zero]
  simp only [uvmunmapPage]
  by_cases hva : v * PGSIZE < MAXVA
  · apply Post.bind_of_ok (walk_eq hva)
    rw [Nat.mul_div_cancel _ (by decide : 0 < PGSIZE)]
    cases htab : pt.hasTable v with
    | false => exact .throw (Or.inr ⟨v, le_rfl, by omega, Or.inl ⟨rfl, htab⟩⟩)
    | true =>
      rw [if_pos rfl]
      cases hleaf : pt.leaf v with
      | none =>
        have hsame : pt.leaf = VMap.unmap pt.leaf v 1 := by
          rw [hone, ← hleaf, update_eq_self]
        exact .pure ⟨rfl, rfl, fun _ => rfl, hsame, fun _ => rfl, fun _ _ _ _ => rfl⟩
      | some pte =>
        apply Post.ite
        · intro hnone
          exact .throw (Or.inr ⟨v, le_rfl, by omega, Or.inr ⟨rfl, pte, hleaf, hnone⟩⟩)
        · intro _
          have hset := setPte_views htab none
          refine .pure ⟨by split <;> rfl, hset.1, fun q => setPte_nodes _, ?_, ?_, ?_⟩
          · rw [hone]
            exact hset.2
          · intro hf
            rw [hf]
            rfl
          · intro hf U q hU
            have htrade := leaves_update (q := q) pt.leaf (show v < U by omega) none
            have hcount : (kfree km pte.page).free.count q =
                km.free.count q + refers q (pt.leaf v) := by
              rw [hleaf]
              simp [kfree, refers, List.count_cons]
            rw [if_pos hf, hset.2, hcount]
            simp only [refers, Option.elim_none] at htrade ⊢
            omega
  · have herr : walk pt (v * PGSIZE) = .error .walk := if_pos (by omega)
    rw [herr]
    refine Post.error (Or.inl ⟨rfl, ?_⟩)
    simp only [PGSIZE, MAXVA] at *
    omega

theorem Unmapped.zero : Unmapped do_free v 0 km pt km pt :=
  ⟨rfl, rfl, fun _ => rfl, (VMap.unmap_zero _ _).symm, fun _ => rfl, fun _ _ _ _ => rfl⟩

theorem Unmapped.succ (h : Unmapped do_free v n km pt km₁ pt₁)
    (h' : Unmapped do_free (v + n) 1 km₁ pt₁ km' pt') :
    Unmapped do_free v (n + 1) km pt km' pt' where
  mem := h'.mem.trans h.mem
  table := h'.table.trans h.table
  nodes q := (h'.nodes q).trans (h.nodes q)
  leaf := by
    rw [h'.leaf, h.leaf, VMap.unmap_succ, VMap.unmap_succ, VMap.unmap_zero]
    rfl
  kept hf := (h'.kept hf).trans (h.kept hf)
  freed hf U q hU := (h'.freed hf U q (by omega)).trans (h.freed hf U q (by omega))

theorem UnmapFault.of_later {k : Nat} {e : Panic} (hk : k < n)
    (h : Unmapped do_free v k km pt km₁ pt₁) (he : UnmapFault pt₁ (v + k) 1 e) :
    UnmapFault pt v n e := by
  rcases he with ⟨he, hmax⟩ | ⟨w, hw1, hw2, he⟩
  · have hle : (v + k + 1) * PGSIZE ≤ (v + n) * PGSIZE := Nat.mul_le_mul_right _ (by omega)
    exact Or.inl ⟨he, lt_of_lt_of_le hmax hle⟩
  · refine Or.inr ⟨w, by omega, by omega, ?_⟩
    rw [h.table, h.leaf] at he
    have hout : VMap.unmap pt.leaf v k w = pt.leaf w := if_neg (by omega)
    rw [hout] at he
    exact he

variable (km pt do_free) in
theorem uvmunmap_post (hlt : (v + n) * PGSIZE < 2 ^ 64) :
    Post (UnmapFault pt v n) (fun r => Unmapped do_free v n km pt r.1 r.2)
      (uvmunmap km pt (v * PGSIZE) n do_free) := by
  unfold uvmunmap
  rw [if_neg (by rw [Nat.mul_mod_left]; exact not_not.mpr rfl)]
  have hcount : ((v * PGSIZE + n * PGSIZE) % 2 ^ 64 - v * PGSIZE) / PGSIZE = n := by
    simp only [PGSIZE] at *
    omega
  rw [hcount]
  refine Post.forRange (I := fun k (r : Kmem × PageTable) => Unmapped do_free v k km pt r.1 r.2)
    .zero ?_
  rintro k ⟨km₁, pt₁⟩ hk hunm
  rw [← Nat.add_mul]
  exact uvmunmapPage_post.mono (fun e he => UnmapFault.of_later hk hunm he) fun r hr => hunm.succ hr

/-- `uvmunmap` can go through the `n` pages from `v` on. -/
def Unmappable (pt : PageTable) (v n : Nat) : Prop :=
  ∀ w, v ≤ w → w < v + n →
    w * PGSIZE < MAXVA ∧ pt.hasTable w = true ∧ ∀ pte, pt.leaf w = some pte → pte.perm.none = false

theorem uvmunmapPage_unmappable : Post (fun _ => True) (fun _ => Unmappable pt v 1)
    (uvmunmapPage do_free (v * PGSIZE) (km, pt)) := by
  simp only [uvmunmapPage]
  by_cases hva : v * PGSIZE < MAXVA
  · apply Post.bind_of_ok (walk_eq hva)
    rw [Nat.mul_div_cancel _ (by decide : 0 < PGSIZE)]
    cases htab : pt.hasTable v with
    | false => exact .throw trivial
    | true =>
      have hone : (∀ pte, pt.leaf v = some pte → pte.perm.none = false) → Unmappable pt v 1 := by
        intro h w hle hlt
        obtain rfl : w = v := by omega
        exact ⟨hva, htab, h⟩
      rw [if_pos rfl]
      cases hleaf : pt.leaf v with
      | none => exact .pure (hone fun pte h => by rw [hleaf] at h; cases h)
      | some pte =>
        apply Post.ite
        · exact fun _ => .throw trivial
        · intro hne
          refine .pure (hone fun pte' h => ?_)
          rw [hleaf] at h
          cases h
          exact Bool.eq_false_iff.mpr hne
  · have herr : walk pt (v * PGSIZE) = .error .walk := if_pos (by omega)
    rw [herr]
    exact .error trivial

variable (km pt do_free) in
/-- `uvmunmap` returns exactly when each of its pages lies below `MAXVA`, has a table and does not
look like a page-table entry. -/
theorem uvmunmap_returns (hlt : (v + n) * PGSIZE < 2 ^ 64) :
    (∃ r, uvmunmap km pt (v * PGSIZE) n do_free = .ok r) ↔ Unmappable pt v n := by
  constructor
  · rintro ⟨r, hr⟩
    have hgood : Post (fun _ => True) (fun _ => Unmappable pt v n)
        (uvmunmap km pt (v * PGSIZE) n do_free) := by
      unfold uvmunmap
      rw [if_neg (by rw [Nat.mul_mod_left]; exact not_not.mpr rfl)]
      have hcount : ((v * PGSIZE + n * PGSIZE) % 2 ^ 64 - v * PGSIZE) / PGSIZE = n := by
        simp only [PGSIZE] at *
        omega
      rw [hcount]
      refine (Post.forRange (I := fun k (r : Kmem × PageTable) =>
        Unmapped do_free v k km pt r.1 r.2 ∧ Unmappable pt v k)
          ⟨.zero, fun w h h' => by omega⟩ ?_).imp fun _ h => h.2
      rintro k ⟨km₁, pt₁⟩ hk ⟨hunm, hbefore⟩
      rw [← Nat.add_mul]
      have hpage : Post (UnmapFault pt₁ (v + k) 1)
          (fun r => Unmapped do_free (v + k) 1 km₁ pt₁ r.1 r.2 ∧ Unmappable pt₁ (v + k) 1)
          (uvmunmapPage do_free ((v + k) * PGSIZE) (km₁, pt₁)) :=
            uvmunmapPage_post.and uvmunmapPage_unmappable
      refine hpage.mono (fun _ _ => trivial) fun r hr => ⟨hunm.succ hr.1, fun w hle hlt => ?_⟩
      by_cases hw : w = v + k
      · -- the pages before have not changed this one
        obtain ⟨hva, htab, hleaf⟩ := hr.2 w (by omega) (by omega)
        rw [hunm.table] at htab
        rw [hunm.leaf, VMap.unmap, if_neg (by omega)] at hleaf
        exact ⟨hva, htab, hleaf⟩
      · exact hbefore w hle (by omega)
    exact hgood.of_ok hr
  · intro hgood
    have hpost := uvmunmap_post km pt do_free hlt
    cases hr : uvmunmap km pt (v * PGSIZE) n do_free with
    | ok r => exact ⟨r, rfl⟩
    | error e =>
      exfalso
      rcases hpost.of_error hr with ⟨-, hmax⟩ | ⟨w, hle, hw, h⟩
      · rcases Nat.eq_zero_or_pos n with rfl | hn
        · -- nothing to do
          unfold uvmunmap at hr
          rw [if_neg (by rw [Nat.mul_mod_left]; exact not_not.mpr rfl), Nat.zero_mul, Nat.add_zero,
            Nat.mod_eq_of_lt (by rw [Nat.add_zero] at hlt; exact hlt), Nat.sub_self] at hr
          cases hr
        · obtain ⟨hva, -⟩ := hgood (v + n - 1) (by omega) (by omega)
          simp only [PGSIZE, MAXVA] at *
          omega
      · obtain ⟨-, htab, hleaf⟩ := hgood w hle hw
        rcases h with ⟨-, h⟩ | ⟨-, pte, hpte, h⟩
        · rw [htab] at h
          cases h
        · rw [hleaf pte hpte] at h
          cases h

variable (pt) in
theorem uvmclear_post (hva : va < MAXVA) :
    Post (fun e => e = .uvmclear ∧ pt.hasTable (va / PGSIZE) = false)
    (fun pt' => pt'.hasTable = pt.hasTable ∧ (∀ q, pt'.nodes q = pt.nodes q) ∧
      pt'.leaf = VMap.clearUser pt.leaf (va / PGSIZE)) (uvmclear pt va) := by
  unfold uvmclear
  apply Post.bind_of_ok (walk_eq hva)
  cases htab : pt.hasTable (va / PGSIZE) with
  | false => exact .throw ⟨rfl, rfl⟩
  | true =>
    rw [if_pos rfl]
    unfold VMap.clearUser
    cases hleaf : pt.leaf (va / PGSIZE) with
    | none =>
      refine .pure ⟨rfl, fun _ => rfl, ?_⟩
      rw [Option.map_none, ← hleaf, update_eq_self]
    | some pte =>
      have hset := setPte_views htab (some ⟨pte.page, { pte.perm with u := false }⟩)
      rw [← setPte_page] at hset
      exact .pure ⟨hset.1, fun q => setPte_nodes _, hset.2⟩

/-! ## `freewalk` -/

/-- `below q c` more occurrences of each page `q` on the free list. -/
def Freed (below : Nat → Nat) (km km' : Kmem) : Prop :=
  km'.mem = km.mem ∧ ∀ q, km'.free.count q = km.free.count q + below q

theorem freeNode_post {α : Type} {E : Panic → Prop} (below : Nat → α → Nat)
    {child : Kmem → α → Except Panic Kmem} {node : Node α}
    (hchild : ∀ i c km, i < 512 → node.entry i = some c →
      Post E (Freed (below · c) km) (child km c)) :
    Post E (Freed (fun q => node.count (below q) q) km) (freeNode child km node) := by
  unfold freeNode
  apply Post.bind (Q := Freed (fun q => ∑ i ∈ Finset.range 512, (node.entry i).elim 0 (below q)) km)
  · refine Post.forRange
      (I := fun k => Freed (fun q => ∑ i ∈ Finset.range k, (node.entry i).elim 0 (below q)) km)
      ⟨rfl, fun q => by simp⟩ ?_
    rintro k km₁ hk ⟨hmem, hcount⟩
    cases hentry : node.entry k with
    | none =>
      refine .ok ⟨hmem, fun q => ?_⟩
      dsimp only
      rw [hcount q, Finset.sum_range_succ, hentry]
      rfl
    | some c =>
      refine (hchild k c km₁ hk hentry).imp ?_
      rintro km₂ ⟨hmem₂, hcount₂⟩
      refine ⟨hmem₂.trans hmem, fun q => ?_⟩
      dsimp only
      rw [hcount₂ q, hcount q, Finset.sum_range_succ, hentry, Nat.add_assoc]
      rfl
  · rintro km₁ ⟨hmem, hcount⟩
    refine .pure ⟨hmem, fun q => ?_⟩
    have hcons : (kfree km₁ node.page).free.count q =
        km₁.free.count q + if node.page = q then 1 else 0 := by
      simp [kfree, List.count_cons]
    rw [hcons, hcount q]
    simp only [Node.count]
    omega

theorem leaf_of_entries {i j k : Nat} {n1 : Node (Node Pte)} {n0 : Node Pte} (hi : i < 512)
    (hj : j < 512) (hk : k < 512) (h1 : pt.entry i = some n1) (h0 : n1.entry j = some n0) :
    pt.leaf ((i * 512 + j) * 512 + k) = n0.entry k := by
  have hlt : (i * 512 + j) * 512 + k < NVPAGE := by
    simp only [NVPAGE]
    omega
  have hPX : PX 2 (((i * 512 + j) * 512 + k) * PGSIZE) = i ∧
      PX 1 (((i * 512 + j) * 512 + k) * PGSIZE) = j ∧ PX 0 (((i * 512 + j) * 512 + k) * PGSIZE) =
          k := by
    simp only [PX, PGSIZE]
    omega
  unfold PageTable.leaf PageTable.table?
  rw [if_pos hlt, hPX.1, hPX.2.1, hPX.2.2, h1]
  dsimp only
  rw [h0]
  rfl

/-- `freewalk` puts each page-table page on the free list as often as it occurs in the
tree; it panics only on a leaf. -/
theorem freewalk_post : Post (fun _ => ∃ w, pt.leaf w ≠ none) (Freed pt.nodes km)
    (freewalk km pt) := by
  unfold freewalk
  refine freeNode_post count1 ?_
  intro i n1 km hi h1
  refine freeNode_post count0 ?_
  intro j n0 km hj h0
  refine freeNode_post (fun _ _ => 0) ?_
  intro k pte km hk hpte
  refine Post.error ⟨(i * 512 + j) * 512 + k, ?_⟩
  rw [leaf_of_entries hi hj hk h1 h0, hpte]
  exact Option.some_ne_none _

end

end Xv6.Vm
