import Xv6.Kernel.Contents
import Xv6.Kernel.ExecPages
import Xv6.Vm.Image

/-! # The image that `exec` builds

The page table that `exec` fills is a user image from `proc_pagetable` on. Of the functions that
work on it only those of the file system can panic, whatever the program headers say and however
little memory there is.
-/

namespace Xv6.Kernel

open Function Lib Vm

section

variable {km₀ km km' : Kmem} {pt pt' : PageTable} {k n v page : Nat} {perm : Perm}

/-! ## Page tables -/

variable (km) in
theorem mappages_clear (hva : v * PGSIZE < MAXVA) (hnone : pt.leaf v = none) : Post (fun _ => False)
    (fun r => r.2.1.mem = km.mem ∧
      r.2.2.leaf = if r.1 then update pt.leaf v (some ⟨page, perm⟩) else pt.leaf)
    (mappages km pt (v * PGSIZE) PGSIZE page perm) := by
  by_cases hshort : km.free.length < pt.missing v
  · obtain ⟨km', pt', hmap, hgrown, hleaf, -⟩ := mappages_short km pt page perm hva hshort
    rw [hmap]
    exact .ok ⟨hgrown.mem, hleaf⟩
  · obtain ⟨km', pt', hmap, hreach, hleaf⟩ :=
      mappages_fresh km page perm hva (Nat.le_of_not_lt hshort) hnone
    rw [hmap]
    exact .ok ⟨hreach.grown.mem, hleaf⟩

variable (km) in
theorem uvmunmap_mapped (do_free : Bool) (hmax : (v + n) * PGSIZE ≤ MAXVA)
    (h : ∀ w, v ≤ w → w < v + n → ∃ e, pt.leaf w = some e ∧ e.perm.none = false) :
    Post (fun _ => False)
    (fun r => r.2.leaf = VMap.unmap pt.leaf v n) (uvmunmap km pt (v * PGSIZE) n do_free) := by
  have hlt : (v + n) * PGSIZE < 2 ^ 64 := lt_of_le_of_lt hmax (by decide)
  have hgood : Unmappable pt v n := by
    intro w hle hw
    obtain ⟨e, he, hn⟩ := h w hle hw
    have hwmax : w * PGSIZE < MAXVA :=
      lt_of_lt_of_le (Nat.mul_lt_mul_of_pos_right hw (by decide)) hmax
    refine ⟨hwmax, hasTable_of_leaf (by rw [he]; exact Option.some_ne_none e), fun pte hpte => ?_⟩
    rw [he] at hpte
    cases hpte
    exact hn
  obtain ⟨r, hr⟩ := (uvmunmap_returns km pt do_free hlt).mpr hgood
  rw [hr]
  exact .ok ((uvmunmap_post km pt do_free hlt).of_ok hr).leaf

variable (km) in
theorem uvmfree_dense {sz : Nat} (hsz : npages sz ≤ RAMPAGES)
    (huser : ∀ v, v < npages sz → ∃ e, pt.leaf v = some e ∧ e.perm.none = false)
    (hclear : ∀ v, npages sz ≤ v → pt.leaf v = none) :
    Post (fun _ => False) (fun _ => True) (uvmfree km pt sz) := by
  have hwalk : ∀ (km : Kmem) (pt : PageTable), (∀ v, pt.leaf v = none) →
      Post (fun _ => False) (fun _ => True) (freewalk km pt) :=
    fun km pt h => freewalk_post.mono (fun _ hf => hf.elim fun w hw => hw (h w)) fun _ _ => trivial
  have hround : PGROUNDUP sz / PGSIZE = npages sz := by
    have hlt : sz ≤ 2 ^ 63 := by
      simp only [npages, RAMPAGES, PGSIZE] at hsz
      omega
    rw [PGROUNDUP_eq hlt, Nat.mul_div_cancel _ (by decide)]
  have hmax : (0 + npages sz) * PGSIZE ≤ MAXVA := by
    rw [Nat.zero_add]
    exact (Nat.mul_le_mul_right _ hsz).trans (by decide)
  unfold uvmfree
  rw [hround]
  apply Post.ite
  · intro _
    have hunmap := @uvmunmap_mapped km pt (npages sz) 0 true hmax fun w _ hw => huser w (by omega)
    rw [Nat.zero_mul] at hunmap
    refine hunmap.bind ?_
    rintro ⟨km₁, pt₁⟩ hleaf
    refine hwalk km₁ pt₁ fun v => ?_
    dsimp only at hleaf
    rw [hleaf, VMap.unmap]
    split
    · rfl
    · exact hclear v (by omega)
  · intro hpos
    have hnone : ∀ v, pt.leaf v = none := by
      intro v
      refine hclear v (Nat.le_trans (Nat.le_of_eq ?_) (Nat.zero_le v))
      rw [Nat.eq_zero_of_not_pos hpos]
      exact npages_zero
    refine (Post.pure rfl : Post (fun _ => False) (fun r => r = (km, pt)) (pure (km, pt))).bind ?_
    rintro _ rfl
    exact hwalk km pt hnone

theorem UserImage.discard {sz : Nat} (h : UserImage km₀ km pt (npages sz)) : Post (fun _ => False)
    (fun km' => (∀ q, km'.free.count q = km₀.free.count q) ∧ ∀ q, q ∉ km₀.free →
      km'.mem q = km₀.mem q)
    (procFreepagetable km pt sz) := by
  have hret : Post (fun _ => False) (fun _ => True) (procFreepagetable km pt sz) := by
    unfold procFreepagetable
    rw [TRAMPOLINE_eq, TRAPFRAME_eq]
    refine (uvmunmap_mapped km false (by decide) fun w hle hw => ?_).bind ?_
    · obtain ⟨e, he, -, hn⟩ := h.top w ((Nat.le_succ _).trans hle) (Nat.le_of_lt_succ hw)
      exact ⟨e, he, hn⟩
    · rintro ⟨km₁, pt₁⟩ hl₁
      dsimp only at hl₁ ⊢
      refine (uvmunmap_mapped km₁ false (by decide) fun w hle hw => ?_).bind ?_
      · obtain rfl : w = UPAGES := by omega
        obtain ⟨e, he, -, hn⟩ := h.top UPAGES (Nat.le_refl _) (Nat.le_succ _)
        refine ⟨e, ?_, hn⟩
        rw [hl₁, VMap.unmap, if_neg (by omega)]
        exact he
      · rintro ⟨km₂, pt₂⟩ hl₂
        dsimp only at hl₂ ⊢
        refine uvmfree_dense km₂ h.le (fun v hv => ?_) fun v hv => ?_
        · have hup := h.lt_upages hv
          rw [hl₂, VMap.unmap, if_neg (by omega), hl₁, VMap.unmap, if_neg (by omega)]
          exact h.user v hv
        · rw [hl₂, VMap.unmap]
          split
          · rfl
          · rw [hl₁, VMap.unmap]
            split
            · rfl
            · by_cases hup : v < UPAGES
              · exact h.clear v hv hup
              · exact h.above v (by unfold TOPPAGE; omega)
  refine (hret.and ((procFreepagetable_pages h.mem h.le).and (procFreepagetable_mem sz))).imp ?_
  rintro km' ⟨-, hcount, hmem⟩
  refine ⟨fun q => (hcount q).trans (h.pages q), fun q hq => ?_⟩
  rw [hmem]
  exact h.kept q hq

/-- What `proc_pagetable` returns: an image without user memory, or nothing and the pages are free
again. -/
def FreshImage (km : Kmem) : Option PageTable × Kmem → Prop
  | (none, km') => (∀ q, km'.free.count q = km.free.count q) ∧ km'.mem = km.mem
  | (some pt, km') => UserImage km km' pt 0

theorem procPagetable_image {trapframe : Nat} (hnodup : km.free.Nodup)
    (hlen : km.free.length ≤ RAMPAGES) :
    Post (fun _ => False) (FreshImage km) (procPagetable km trapframe) := by
  have hbuild : Post (fun _ => False) (fun r => r.2.mem = km.mem ∧ ∀ pt, r.1 = some pt →
      (∀ v, UPAGES ≤ v → v ≤ TOPPAGE → ∃ e, pt.leaf v = some e ∧ e.perm.u = false ∧
        e.perm.none = false) ∧
        ∀ v, TOPPAGE < v → pt.leaf v = none) (procPagetable km trapframe) := by
    unfold procPagetable
    rw [TRAMPOLINE_eq, TRAPFRAME_eq]
    cases hk : kalloc km with
    | none => exact .ok ⟨rfl, fun pt h => by cases h⟩
    | some r =>
      obtain ⟨root, km₁⟩ := r
      have hmem₁ := kalloc_mem hk
      -- an empty table can be freed
      have hfree : ∀ (km₂ : Kmem) (pt₂ : PageTable), km₂.mem = km.mem → (∀ v, pt₂.leaf v = none) →
          Post (fun _ => False) (fun km' => km'.mem = km.mem) (uvmfree km₂ pt₂ 0) := by
        intro km₂ pt₂ hmem hnone
        have hret := @uvmfree_dense km₂ pt₂ 0 (by rw [npages_zero]; exact Nat.zero_le _)
          (fun v hv => by rw [npages_zero] at hv; omega) fun v _ => hnone v
        exact (hret.and (uvmfree_mem 0)).imp fun km' h => h.2.trans hmem
      refine (mappages_clear km₁ (by decide) (leaf_empty root _)).bind ?_
      rintro ⟨_ | _, km₂, pt₂⟩ ⟨hmem₂, hl₂⟩
      · refine (hfree km₂ pt₂ (hmem₂.trans hmem₁) fun v => ?_).bind fun km₃ h₃ =>
          Post.pure ⟨h₃, fun pt h => by cases h⟩
        dsimp only at hl₂
        rw [hl₂, if_neg Bool.false_ne_true]
        exact leaf_empty root v
      · dsimp only at hmem₂ hl₂ ⊢
        rw [if_pos rfl] at hl₂
        have htop : ∀ v, v ≠ UPAGES + 1 → pt₂.leaf v = none := by
          intro v hv
          rw [hl₂, update_of_ne hv]
          exact leaf_empty root v
        refine (mappages_clear km₂ (by decide) (htop UPAGES (by omega))).bind ?_
        rintro ⟨_ | _, km₃, pt₃⟩ ⟨hmem₃, hl₃⟩
        · dsimp only at hmem₃ hl₃ ⊢
          rw [if_neg Bool.false_ne_true] at hl₃
          have hunmap := @uvmunmap_mapped km₃ pt₃ 1 (UPAGES + 1) false (by decide)
              fun w hle hw => by
            obtain rfl : w = UPAGES + 1 := by omega
            rw [hl₃, hl₂, update_self]
            exact ⟨_, rfl, rfl⟩
          refine (hunmap.and (uvmunmap_mem _ _ _)).bind ?_
          rintro ⟨km₄, pt₄⟩ ⟨hl₄, hmem₄⟩
          dsimp only at hl₄ hmem₄ ⊢
          refine (hfree km₄ pt₄ (hmem₄.trans (hmem₃.trans (hmem₂.trans hmem₁))) fun v => ?_).bind
            fun km₅ h₅ => Post.pure ⟨h₅, fun pt h => by cases h⟩
          rw [hl₄, VMap.unmap]
          split
          · rfl
          · rw [hl₃]
            exact htop v (by omega)
        · dsimp only at hmem₃ hl₃ ⊢
          rw [if_pos rfl] at hl₃
          refine .pure ⟨hmem₃.trans (hmem₂.trans hmem₁), fun pt h => ?_⟩
          cases h
          refine ⟨fun v hle hv => ?_, fun v hv => ?_⟩
          · by_cases heq : v = UPAGES
            · rw [hl₃, heq, update_self]
              exact ⟨_, rfl, rfl, rfl⟩
            · have hup : v = UPAGES + 1 := by
                unfold TOPPAGE at hv
                omega
              rw [hl₃, update_of_ne heq, hl₂, hup, update_self]
              exact ⟨_, rfl, rfl, rfl⟩
          · unfold TOPPAGE at hv
            rw [hl₃, update_of_ne (by omega)]
            exact htop v (by omega)
  refine (hbuild.and procPagetable_pages).imp ?_
  rintro ⟨_ | pt, km'⟩ ⟨⟨hmem, htab⟩, hnew⟩
  · exact ⟨hnew, hmem⟩
  · obtain ⟨hpages, him⟩ := hnew
    obtain ⟨htop, habove⟩ := htab pt rfl
    exact ⟨hnodup, hlen, hpages, fun q _ => congrFun hmem q,
      fun v hv => absurd hv (Nat.not_lt_zero v), him.2, htop, habove⟩

/-! ## Runs -/

/-- `uvmalloc` as `exec` calls it: when memory is missing the image keeps its size. -/
def growImage (im : Image) (newsz : Nat) : Outcome Vm.Panic Image :=
  match uvmalloc im.km im.pagetable im.sz newsz with
  | .error f => .fault f
  | .ok (sz1, km, pt) =>
    .next { im with km := km, pagetable := pt, sz := if sz1 = 0 then im.sz else sz1 }

theorem growImage_image {im : Image} (h : UserImage km₀ im.km im.pagetable (npages im.sz))
    (newsz : Nat) :
    ∃ im', growImage im newsz = .next im' ∧ UserImage km₀ im'.km im'.pagetable (npages im'.sz) := by
  have hgrown := h.uvmalloc newsz
  unfold growImage
  generalize uvmalloc im.km im.pagetable im.sz newsz = r at hgrown
  cases hgrown with
  | same => exact ⟨_, rfl, by rwa [ite_self]⟩
  | nomem _ himage => exact ⟨_, rfl, by rwa [if_pos rfl]⟩
  | grown hle hf =>
    have himage := h.filled hf (npages_mono hle)
    refine ⟨_, rfl, ?_⟩
    dsimp only
    split
    · rename_i hzero
      have hold : im.sz = newsz := by omega
      rwa [hold]
    · exact himage

theorem exec_growImage (sizes : List Nat) {im : Image}
    (h : UserImage km₀ im.km im.pagetable (npages im.sz)) :
    ∃ im', Lib.exec growImage im sizes = .next im' ∧ UserImage km₀ im'.km im'.pagetable
    (npages im'.sz) := by
  induction sizes generalizing im with
  | nil => exact ⟨im, rfl, h⟩
  | cons newsz sizes ih =>
    obtain ⟨im₁, hstep, h₁⟩ := growImage_image h newsz
    simp only [Lib.exec, hstep]
    exact ih h₁

/-- However `exec` lets its image grow and whenever memory runs out, no call panics, and when `exec`
throws the image away every page that it took is free again and no other page has changed. -/
theorem exec_image_gives_pages_back (km : Kmem) (trapframe : Nat) (disk : Fs.Disk)
    (hnodup : km.free.Nodup) (hlen : km.free.length ≤ RAMPAGES) :
    (∃ km', procPagetable km trapframe = .ok (none, km') ∧
      (∀ q, km'.free.count q = km.free.count q) ∧ km'.mem = km.mem) ∨
    ∃ pt km₁, procPagetable km trapframe = .ok (some pt, km₁) ∧ ∀ sizes, ∃ im km',
      Lib.exec growImage ⟨km₁, disk, pt, 0⟩ sizes = .next im ∧
      procFreepagetable im.km im.pagetable im.sz = .ok km' ∧
      (∀ q, km'.free.count q = km.free.count q) ∧ ∀ q, q ∉ km.free → km'.mem q = km.mem q := by
  obtain ⟨⟨_ | pt, km₁⟩, hnew, himage⟩ := (procPagetable_image hnodup hlen).exists_ok
  · exact .inl ⟨km₁, hnew, himage⟩
  · refine .inr ⟨pt, km₁, hnew, fun sizes => ?_⟩
    have hstart : UserImage km km₁ pt (npages 0) := by
      rw [npages_zero]
      exact himage
    obtain ⟨im, hexec, him⟩ := @exec_growImage km sizes ⟨km₁, disk, pt, 0⟩ hstart
    obtain ⟨km', hfree, hback⟩ := (UserImage.discard him).exists_ok
    exact ⟨im, km', hexec, hfree, hback⟩

/-- The third size is beyond the memory that is left. -/
theorem exec_image_gives_pages_back_tinyKm :
    ∃ pt km₁, procPagetable tinyKm 41 = .ok (some pt, km₁) ∧ ∃ im km',
    Lib.exec growImage ⟨km₁, Fs.Disk.ofImage Fs.tinyImage, pt, 0⟩ [5000, 3, 300000] = .next im ∧
    procFreepagetable im.km im.pagetable im.sz = .ok km' ∧ km'.free.count 7 = 1 := by
  have hnew : (procPagetable tinyKm 41).toOption.map (·.1.isSome) = some true := by decide +kernel
  rcases exec_image_gives_pages_back tinyKm 41 (Fs.Disk.ofImage Fs.tinyImage) (by decide)
    (by decide) with ⟨km', hnone, -⟩ | ⟨pt, km₁, hsome, hall⟩
  · rw [hnone] at hnew
    cases hnew
  · obtain ⟨im, km', hexec, hfree, hcount, -⟩ := hall [5000, 3, 300000]
    exact ⟨pt, km₁, hsome, im, km', hexec, hfree, (hcount 7).trans (by decide)⟩

end

end Xv6.Kernel
