import Xv6.Vm.Spec

/-! # Address spaces and the pages they take

User memory without mapped files is the pages from 0 up to the size of the process.
For each function that maps, unmaps or frees its pages: which pages are mapped afterwards,
and that no physical page is lost or used twice.
-/

namespace Xv6.Vm

open Function Lib

/-- Virtual pages below the trapframe. -/
def UPAGES : Nat := TRAPFRAME / PGSIZE

/-- Pages of physical memory, from `KERNBASE` to `PHYSTOP`. -/
def RAMPAGES : Nat := 128 * 1024 * 1024 / PGSIZE

/-- Pages below address `sz`. -/
def npages (sz : Nat) : Nat := (sz + PGSIZE - 1) / PGSIZE

/-- Where physical page `q` is, as far as one page table goes: on the free list, in the
tree or under a user address. -/
def pages (km : Kmem) (pt : PageTable) (q : Nat) : Nat :=
  km.free.count q + pt.nodes q + VMap.leaves pt.leaf UPAGES q

/-- The pages are among those of the allocator, which are distinct. -/
structure Fits (ram : List Nat) (km : Kmem) (pt : PageTable) : Prop where
  nodup : ram.Nodup
  length : ram.length ≤ RAMPAGES
  count : ∀ q, pages km pt q ≤ ram.count q

/-- User memory is the pages below page `k`. -/
structure UserMem (m : VMap) (k : Nat) : Prop where
  mapped : ∀ v, v < k → m v ≠ none
  unmapped : ∀ v, k ≤ v → v < UPAGES → m v = none

section

variable {ram : List Nat} {km km' km₁ : Kmem} {pt pt' pt₁ : PageTable} {m m₀ : VMap}
    {v w n k p q : Nat}

theorem Fits.congr (h : Fits ram km pt) (hp : ∀ q, pages km' pt' q = pages km pt q) :
    Fits ram km' pt' :=
  ⟨h.nodup, h.length, fun q => by rw [hp q]; exact h.count q⟩

theorem Fits.le_one (h : Fits ram km pt) (q : Nat) : pages km pt q ≤ 1 :=
  (h.count q).trans (List.nodup_iff_count_le_one.mp h.nodup q)

theorem Fits.mem (h : Fits ram km pt) (hq : 0 < pages km pt q) : q ∈ ram :=
  List.count_pos_iff.mp (lt_of_lt_of_le hq (h.count q))

theorem Fits.free_length (h : Fits ram km pt) : km.free.length ≤ RAMPAGES := by
  have hsub : km.free.Subperm ram := by
    apply List.subperm_iff_count.mpr
    intro q
    have := h.count q
    unfold pages at this
    omega
  exact hsub.length_le.trans h.length

theorem refers_le_leaves (hv : v < UPAGES) (q : Nat) : refers q (m v) ≤ m.leaves UPAGES q :=
  Finset.single_le_sum (f := fun w => refers q (m w)) (fun _ _ => Nat.zero_le _)
    (Finset.mem_range.mpr hv)

theorem Fits.not_free {pte : Pte} (h : Fits ram km pt) (hv : v < UPAGES)
    (hpte : pt.leaf v = some pte) : km.free.count pte.page = 0 := by
  have hle := refers_le_leaves (m := pt.leaf) hv pte.page
  have hone := h.le_one pte.page
  rw [hpte, refers, Option.elim_some, if_pos rfl] at hle
  unfold pages at hone
  omega

/-- Each mapped page takes a page of its own, so there are no more than memory has. -/
theorem Fits.image_le (h : Fits ram km pt) (him : UserMem pt.leaf k) : k ≤ RAMPAGES := by
  have hcard : min k UPAGES ≤ ram.length := by
    have hpage : ∀ v, v < min k UPAGES → ∃ pte, pt.leaf v = some pte := fun v hv =>
      Option.ne_none_iff_exists'.mp (him.mapped v (by omega))
    let f : Nat → Nat := fun v => (pt.leaf v).elim 0 Pte.page
    have hf : ∀ v, v < min k UPAGES → refers (f v) (pt.leaf v) = 1 := by
      intro v hv
      obtain ⟨pte, hpte⟩ := hpage v hv
      simp [f, hpte, refers]
    have hmaps : ∀ v ∈ Finset.range (min k UPAGES), f v ∈ ram.toFinset := by
      intro v hv
      have hv' := Finset.mem_range.mp hv
      rw [List.mem_toFinset]
      apply h.mem
      have hle := refers_le_leaves (m := pt.leaf) (show v < UPAGES by omega) (f v)
      rw [hf v hv'] at hle
      unfold pages
      omega
    have hinj : Set.InjOn f (Finset.range (min k UPAGES) : Set Nat) := by
      intro v hv u hu heq
      have hv' := Finset.mem_range.mp (Finset.mem_coe.mp hv)
      have hu' := Finset.mem_range.mp (Finset.mem_coe.mp hu)
      by_contra hne
      have hpair := pair_le_sum (fun w => refers (f v) (pt.leaf w))
        (Finset.mem_range.mpr (show v < UPAGES by omega))
          (Finset.mem_range.mpr (show u < UPAGES by omega)) hne
      have hone := h.le_one (f v)
      have hfu : refers (f v) (pt.leaf u) = 1 := by
        rw [show f v = f u from heq]
        exact hf u hu'
      rw [hf v hv', hfu] at hpair
      unfold pages VMap.leaves at hone
      omega
    have hle := Finset.card_le_card_of_injOn f hmaps hinj
    rw [Finset.card_range] at hle
    exact hle.trans (List.toFinset_card_le ram)
  have hlen := h.length
  have hbig : RAMPAGES < UPAGES := by decide
  omega

theorem PGROUNDUP_eq {sz : Nat} (h : sz ≤ 2 ^ 63) : PGROUNDUP sz = npages sz * PGSIZE := by
  simp only [PGROUNDUP, npages, PGSIZE]
  omega

theorem npages_zero : npages 0 = 0 := by decide

theorem npages_mul (k : Nat) : npages (k * PGSIZE) = k := by
  simp only [npages, PGSIZE]
  omega

/-! ## Shrinking -/

variable (km pt) in
theorem uvmunmap_pages (hvn : v + n ≤ UPAGES) : Post (fun _ => True)
    (fun r => (∀ q, pages r.1 r.2 q = pages km pt q) ∧ r.2.leaf = VMap.unmap pt.leaf v n)
    (uvmunmap km pt (v * PGSIZE) n true) := by
  have hlt : (v + n) * PGSIZE < 2 ^ 64 :=
    lt_of_le_of_lt (Nat.mul_le_mul_right _ hvn) (by decide)
  refine (uvmunmap_post km pt true hlt).mono (fun _ _ => trivial) ?_
  intro r hr
  refine ⟨fun q => ?_, hr.leaf⟩
  have hfreed := hr.freed rfl UPAGES q hvn
  have hnodes := hr.nodes q
  unfold pages
  omega

theorem UserMem.shrink {j : Nat} (h : UserMem m k) (hj : j ≤ k) :
    UserMem (VMap.unmap m j (k - j)) j := by
  constructor
  · intro v hv
    unfold VMap.unmap
    rw [if_neg (by omega)]
    exact h.mapped v (by omega)
  · intro v hv hlt
    unfold VMap.unmap
    by_cases hin : j ≤ v ∧ v < j + (k - j)
    · rw [if_pos hin]
    · rw [if_neg hin]
      exact h.unmapped v (by omega) hlt

theorem npages_mono {a b : Nat} (h : a ≤ b) : npages a ≤ npages b :=
  Nat.div_le_div_right (by omega)

/-! ## Growing -/

theorem UserMem.update {e : Pte} (h : UserMem m v) :
    UserMem (update m v (some e)) (v + 1) := by
  constructor
  · intro u hu
    by_cases heq : u = v
    · rw [heq, update_self]
      exact Option.some_ne_none e
    · rw [update_of_ne heq]
      exact h.mapped u (by omega)
  · intro u hge hlt
    rw [update_of_ne (by omega)]
    exact h.unmapped u (by omega) hlt

theorem pages_kalloc {mem : Nat → Page} (h : kalloc km = some (p, km')) :
    pages km pt q = pages ⟨km'.free, mem⟩ pt q + if p = q then 1 else 0 := by
  have hcount := kalloc_count (q := q) h
  simp only [pages]
  omega

theorem pages_kfree : pages (kfree km p) pt q = pages km pt q + if p = q then 1 else 0 := by
  simp only [pages, kfree, List.count_cons, beq_iff_eq]
  omega

variable (km p) in
/-- Mapping one page of user memory: the page goes into the map, or `mappages` fails
with the map unchanged. -/
theorem mappages_page (perm : Perm) (hv : v < UPAGES) (hnone : pt.leaf v = none) :
    Post (fun _ => True)
      (fun r => r.1 = true ∧ r.2.2.leaf = update pt.leaf v (some ⟨p, perm⟩) ∧
          (∀ q, pages r.2.1 r.2.2 q = pages km pt q + if p = q then 1 else 0) ∨
        r.1 = false ∧ r.2.2.leaf = pt.leaf ∧ ∀ q, pages r.2.1 r.2.2 q = pages km pt q)
      (mappages km pt (v * PGSIZE) PGSIZE p perm) := by
  have hlt : v * PGSIZE + PGSIZE ≤ 2 ^ 64 := by
    have : (v + 1) * PGSIZE ≤ UPAGES * PGSIZE := Nat.mul_le_mul_right _ hv
    have : UPAGES * PGSIZE ≤ 2 ^ 64 := by decide
    rw [Nat.succ_mul] at *
    omega
  have hone : (v * PGSIZE + PGSIZE - 1) / PGSIZE - v * PGSIZE / PGSIZE + 1 = 1 := by
    simp only [PGSIZE]
    omega
  have hpost := mappages_post km pt p perm (by decide : 0 < PGSIZE) hlt
  rw [hone, Nat.mul_div_cancel _ (by decide : 0 < PGSIZE)] at hpost
  refine hpost.mono (fun _ _ => trivial) ?_
  rintro r ⟨k, hk, hfound, hgrown, hleaf⟩
  rcases Nat.le_one_iff_eq_zero_or_eq_one.mp hk with rfl | rfl
  · rw [VMap.map_zero] at hleaf
    refine Or.inr ⟨hfound, hleaf, fun q => ?_⟩
    have hnodes := hgrown.nodes q
    unfold pages
    rw [hleaf]
    omega
  · rw [← VMap.map_update, VMap.map_zero] at hleaf
    refine Or.inl ⟨hfound, hleaf, fun q => ?_⟩
    have hnodes := hgrown.nodes q
    have htrade := leaves_update (q := q) pt.leaf hv (some ⟨p, perm⟩)
    rw [hnone] at htrade
    simp only [refers, Option.elim_none, Option.elim_some] at htrade
    unfold pages
    rw [hleaf]
    omega

/-! ## Freeing -/

theorem leaves_unmapped (him : UserMem m 0) : m.leaves UPAGES q = 0 := by
  apply Finset.sum_eq_zero
  intro v hv
  rw [him.unmapped v (Nat.zero_le v) (Finset.mem_range.mp hv)]
  rfl

theorem UserMem.unmap (him : UserMem m k) : UserMem (VMap.unmap m 0 k) 0 := by
  constructor
  · intro v hv
    omega
  · intro v _ hv
    unfold VMap.unmap
    by_cases hlt : 0 ≤ v ∧ v < 0 + k
    · rw [if_pos hlt]
    · rw [if_neg hlt]
      exact him.unmapped v (by omega) hv

theorem freewalk_pages (him : UserMem pt.leaf 0) : Post (fun _ => True)
    (fun km' : Kmem => ∀ q, km'.free.count q = pages km pt q) (freewalk km pt) := by
  refine freewalk_post.mono (fun _ _ => trivial) ?_
  rintro km' ⟨-, hcount⟩ q
  rw [hcount q, pages, leaves_unmapped him, Nat.add_zero]

theorem uvmfree_pages (sz : Nat) (him : UserMem pt.leaf (npages sz)) (hsz : npages sz ≤ RAMPAGES) :
    Post (fun _ => True) (fun km' : Kmem => ∀ q, km'.free.count q = pages km pt q)
    (uvmfree km pt sz) := by
  have hround : PGROUNDUP sz / PGSIZE = npages sz := by
    have hlt : sz ≤ 2 ^ 63 := by
      simp only [npages, RAMPAGES, PGSIZE] at hsz
      omega
    rw [PGROUNDUP_eq hlt, Nat.mul_div_cancel _ (by decide)]
  have hwalk : ∀ km₁ pt₁, (∀ q, pages km₁ pt₁ q = pages km pt q) → UserMem pt₁.leaf 0 →
      Post (fun _ => True) (fun km' : Kmem => ∀ q, km'.free.count q = pages km pt q)
          (freewalk km₁ pt₁) := by
    intro km₁ pt₁ hp him₁
    refine (freewalk_pages him₁).imp ?_
    intro km' hcount q
    rw [hcount q, hp q]
  unfold uvmfree
  dsimp only
  apply Post.ite
  · intro _
    rw [hround]
    have hup : 0 + npages sz ≤ UPAGES := by
      have : RAMPAGES < UPAGES := by decide
      omega
    have hunmap := uvmunmap_pages km pt hup
    rw [Nat.zero_mul] at hunmap
    apply hunmap.bind
    rintro ⟨km₁, pt₁⟩ ⟨hp, hleaf⟩
    exact hwalk km₁ pt₁ hp (hleaf ▸ him.unmap)
  · intro hzero
    have hnone : npages sz = 0 := by
      rw [Nat.eq_zero_of_not_pos hzero]
      rfl
    rw [hnone] at him
    apply Post.bind_of_ok (a := (km, pt)) rfl
    exact hwalk km pt (fun _ => rfl) him

variable (km) in
theorem uvmclear_pages {va : Nat} (hva : va < MAXVA) (him : UserMem pt.leaf k) :
    Post (fun _ => True)
    (fun pt' => (∀ q, pages km pt' q = pages km pt q) ∧ UserMem pt'.leaf k) (uvmclear pt va) := by
  refine (uvmclear_post pt hva).mono (fun _ _ => trivial) ?_
  rintro pt' ⟨-, hnodes, hleaf⟩
  have hrefers : ∀ q v, refers q (pt'.leaf v) = refers q (pt.leaf v) := by
    intro q v
    rw [hleaf]
    unfold VMap.clearUser
    by_cases hv : v = va / PGSIZE
    · rw [hv, update_self]
      cases pt.leaf (va / PGSIZE) <;> rfl
    · rw [update_of_ne hv]
  have hsame : ∀ v, pt'.leaf v = none ↔ pt.leaf v = none := by
    intro v
    rw [hleaf]
    unfold VMap.clearUser
    by_cases hv : v = va / PGSIZE
    · rw [hv, update_self, Option.map_eq_none_iff]
    · rw [update_of_ne hv]
  refine ⟨fun q => ?_, fun v hv => ?_, fun v hv hlt => ?_⟩
  · have hleaves : VMap.leaves pt'.leaf UPAGES q = VMap.leaves pt.leaf UPAGES q :=
      Finset.sum_congr rfl fun v _ => hrefers q v
    rw [pages, pages, hnodes q, hleaves]
  · exact fun h => him.mapped v hv ((hsame v).mp h)
  · exact (hsame v).mpr (him.unmapped v hv hlt)

/-! ## Entries above user memory -/

theorem UserMem.congr {m' : VMap} (h : UserMem m k) (hk : k ≤ UPAGES)
    (hm : ∀ v, v < UPAGES → m' v = m v) : UserMem m' k := by
  constructor
  · intro v hv
    rw [hm v (by omega)]
    exact h.mapped v hv
  · intro v hv hlt
    rw [hm v hlt]
    exact h.unmapped v hv hlt

theorem leaves_congr {m' : VMap} (hm : ∀ v, v < UPAGES → m' v = m v) :
    m'.leaves UPAGES q = m.leaves UPAGES q :=
  Finset.sum_congr rfl fun v hv => by rw [hm v (Finset.mem_range.mp hv)]

theorem mappages_top {page : Nat} {perm : Perm} (hv : UPAGES ≤ v)
    (hlt : v * PGSIZE + PGSIZE ≤ 2 ^ 64) :
    Post (fun _ => True) (fun r => (∀ q, pages r.2.1 r.2.2 q = pages km pt q) ∧
      ∀ u, u < UPAGES → r.2.2.leaf u = pt.leaf u)
      (mappages km pt (v * PGSIZE) PGSIZE page perm) := by
  refine (mappages_post km pt page perm (by decide : 0 < PGSIZE) hlt).mono (fun _ _ => trivial) ?_
  rintro r ⟨k, -, -, hgrown, hleaf⟩
  have hsame : ∀ u, u < UPAGES → r.2.2.leaf u = pt.leaf u := by
    intro u hu
    rw [hleaf, VMap.map, Nat.mul_div_cancel _ (by decide : 0 < PGSIZE)]
    exact if_neg (by omega)
  refine ⟨fun q => ?_, hsame⟩
  have hnodes := hgrown.nodes q
  unfold pages
  rw [leaves_congr hsame]
  omega

theorem uvmunmap_top (hv : UPAGES ≤ v) (hlt : (v + 1) * PGSIZE < 2 ^ 64) :
    Post (fun _ => True) (fun r => (∀ q, pages r.1 r.2 q = pages km pt q) ∧
      ∀ u, u < UPAGES → r.2.leaf u = pt.leaf u) (uvmunmap km pt (v * PGSIZE) 1 false) := by
  refine (uvmunmap_post km pt false hlt).mono (fun _ _ => trivial) ?_
  intro r hr
  have hsame : ∀ u, u < UPAGES → r.2.leaf u = pt.leaf u := by
    intro u hu
    rw [hr.leaf]
    exact if_neg (by omega)
  refine ⟨fun q => ?_, hsame⟩
  unfold pages
  rw [leaves_congr hsame, hr.nodes q, hr.kept rfl]

theorem TRAPFRAME_eq : TRAPFRAME = UPAGES * PGSIZE := by decide

theorem TRAMPOLINE_eq : TRAMPOLINE = (UPAGES + 1) * PGSIZE := by decide

theorem leaf_empty (r v : Nat) : PageTable.leaf (Node.empty r) v = none := by
  unfold PageTable.leaf PageTable.table?
  split <;> rfl

end

end Xv6.Vm
