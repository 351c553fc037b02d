import Xv6.Kernel.Machine
import Xv6.Kernel.Pages
import Xv6.Vm.Copy
import Xv6.Vm.Grow

/-! # Pages of processes

The pages of a process are its trapframe, its page-table pages and the pages of its
memory. For each call that makes, changes or removes a process that has no mapped files:
the pages it uses and the pages that are free or hold a pipe are together the same as
before, also when an allocation fails.
-/

namespace Xv6.Kernel

open Lib Vm

/-- How often page `q` is the trapframe, in the page table or in the memory of a process. -/
def Proc.pages (p : Proc) (q : Nat) : Nat :=
  if p.state = .unused then 0
  else (if p.trapframe = q then 1 else 0) +
    (p.pagetable.nodes q + VMap.leaves p.pagetable.leaf UPAGES q)

/-- A process that has not mapped a file. -/
structure ProcInv (p : Proc) : Prop where
  vma : p.vma = fun _ => .zero
  mem : p.state ≠ .unused → UserMem p.pagetable.leaf (npages p.sz)
  fresh : p.state = .unused → p.sz = 0

/-- The pages that are free, hold a pipe or belong to `p` are distinct pages of memory. -/
structure Room (ram : List Nat) (sys : Sys) (p : Proc) : Prop where
  nodup : ram.Nodup
  length : ram.length ≤ RAMPAGES
  count : ∀ q, sys.pages q + p.pages q ≤ ram.count q

section

variable {ram : List Nat} {sb : Fs.Superblock} {sys sys' : Sys} {km km' : Kmem} {pt pt' : PageTable}
  {p p' np : Proc} {v k n q : Nat}

theorem pages_congr (hstate : p'.state = p.state) (htf : p'.trapframe = p.trapframe)
    (hpt : p'.pagetable = p.pagetable) : p'.pages q = p.pages q := by
  unfold Proc.pages
  rw [hstate, htf, hpt]

theorem SameMem.pages (h : SameMem p p') : p'.pages q = p.pages q :=
  pages_congr h.state h.trapframe h.pagetable

theorem ProcInv.same (hp : ProcInv p) (h : SameMem p p') : ProcInv p' := by
  refine ⟨h.vma.trans hp.vma, fun hs => ?_, fun hs => ?_⟩
  · rw [h.pagetable, h.sz]
    exact hp.mem (h.state ▸ hs)
  · rw [h.sz]
    exact hp.fresh (h.state ▸ hs)

theorem pages_unused (h : p.state = .unused) : p.pages q = 0 := if_pos h

theorem pages_used (h : p.state ≠ .unused) : p.pages q =
    (if p.trapframe = q then 1 else 0) +
    (p.pagetable.nodes q + VMap.leaves p.pagetable.leaf UPAGES q) :=
  if_neg h

theorem Room.fits (h : Room ram sys p) (hp : p.state ≠ .unused) : Fits ram sys.km p.pagetable := by
  refine ⟨h.nodup, h.length, fun q => ?_⟩
  have hle := h.count q
  rw [pages_used hp] at hle
  unfold Sys.pages at hle
  unfold Vm.pages
  omega

/-! ## Page tables of processes -/

theorem procFreepagetable_pages {sz : Nat} (him : UserMem pt.leaf (npages sz))
    (hsz : npages sz ≤ RAMPAGES) :
    Post (fun _ => True) (fun km' : Kmem => ∀ q, km'.free.count q = Vm.pages km pt q)
      (procFreepagetable km pt sz) := by
  have hup : npages sz ≤ UPAGES := hsz.trans (by decide)
  unfold procFreepagetable
  rw [TRAMPOLINE_eq, TRAPFRAME_eq]
  refine (uvmunmap_top (Nat.le_succ _) (by decide)).bind ?_
  rintro ⟨km₁, pt₁⟩ ⟨hp₁, hl₁⟩
  refine (uvmunmap_top le_rfl (by decide)).bind ?_
  rintro ⟨km₂, pt₂⟩ ⟨hp₂, hl₂⟩
  refine (uvmfree_pages sz ((him.congr hup hl₁).congr hup hl₂) hsz).imp ?_
  intro km' hfree q
  rw [hfree q, hp₂ q, hp₁ q]

/-- A new page table has no user memory; without one, no page is gone. -/
def NewTable (km : Kmem) : Option PageTable × Kmem → Prop
  | (none, km') => ∀ q, km'.free.count q = km.free.count q
  | (some pt, km') => (∀ q, Vm.pages km' pt q = km.free.count q) ∧ UserMem pt.leaf 0

theorem procPagetable_pages {trapframe : Nat} :
    Post (fun _ => True) (NewTable km) (procPagetable km trapframe) := by
  unfold procPagetable
  rw [TRAMPOLINE_eq, TRAPFRAME_eq]
  cases hk : kalloc km with
  | none => exact .ok fun _ => rfl
  | some r =>
    obtain ⟨root, km₁⟩ := r
    have hempty : UserMem (PageTable.leaf (Node.empty root)) 0 :=
      ⟨fun v hv => by omega, fun v _ _ => leaf_empty root v⟩
    have hroot : ∀ q, Vm.pages km₁ (Node.empty root) q = km.free.count q := by
      intro q
      have hnodes : PageTable.nodes (Node.empty root) q = if root = q then 1 else 0 :=
        Node.count_empty _ _ _
      rw [Vm.pages, hnodes, leaves_unmapped hempty, kalloc_count hk]
      omega
    -- what is left of a failed table goes back
    have hfree : ∀ km₂ pt₂, (∀ q, Vm.pages km₂ pt₂ q = km.free.count q) → UserMem pt₂.leaf 0 →
        Post (fun _ => True) (fun km' : Kmem => ∀ q, km'.free.count q = km.free.count q)
          (uvmfree km₂ pt₂ 0) := by
      intro km₂ pt₂ hp him
      refine (uvmfree_pages 0 him (Nat.zero_le _)).imp ?_
      intro km' hcount q
      rw [hcount q, hp q]
    refine (mappages_top (Nat.le_succ _) (by decide)).bind ?_
    rintro ⟨found, km₂, pt₂⟩ ⟨hp₂, hl₂⟩
    have hp₂' : ∀ q, Vm.pages km₂ pt₂ q = km.free.count q := fun q => (hp₂ q).trans (hroot q)
    have him₂ := hempty.congr (Nat.zero_le _) hl₂
    cases found with
    | false =>
      refine (hfree km₂ pt₂ hp₂' him₂).bind ?_
      intro km₃ h₃
      exact .pure h₃
    | true =>
      refine (mappages_top le_rfl (by decide)).bind ?_
      rintro ⟨found, km₃, pt₃⟩ ⟨hp₃, hl₃⟩
      have hp₃' : ∀ q, Vm.pages km₃ pt₃ q = km.free.count q := fun q => (hp₃ q).trans (hp₂' q)
      have him₃ := him₂.congr (Nat.zero_le _) hl₃
      cases found with
      | false =>
        refine (uvmunmap_top (Nat.le_succ _) (by decide)).bind ?_
        rintro ⟨km₄, pt₄⟩ ⟨hp₄, hl₄⟩
        refine (hfree km₄ pt₄ (fun q => (hp₄ q).trans (hp₃' q))
          (him₃.congr (Nat.zero_le _) hl₄)).bind ?_
        intro km₅ h₅
        exact .pure h₅
      | true => exact .pure ⟨hp₃', him₃⟩

def NewProc (km : Kmem) (np : Proc) : Option Proc × Kmem → Prop
  | (none, km') => ∀ q, km'.free.count q = km.free.count q
  | (some p, km') =>
    (∀ q, (if p.trapframe = q then 1 else 0) + Vm.pages km' p.pagetable q = km.free.count q) ∧
      UserMem p.pagetable.leaf 0 ∧ p.state = np.state ∧ p.sz = np.sz ∧ p.vma = np.vma

theorem allocproc_pages : Post (fun _ => True) (NewProc km np) (allocproc km np) := by
  unfold allocproc
  cases hk : kalloc km with
  | none => exact .ok fun _ => rfl
  | some r =>
    obtain ⟨tf, km₁⟩ := r
    have hcount : ∀ q, km.free.count q = km₁.free.count q + if tf = q then 1 else 0 :=
      fun q => kalloc_count hk
    refine (Post.mapError_iff.mpr procPagetable_pages).bind ?_
    rintro ⟨table, km₂⟩ htable
    cases table with
    | none =>
      refine .pure fun q => ?_
      have hsame : km₂.free.count q = km₁.free.count q := htable q
      simp only [kfree, List.count_cons, beq_iff_eq]
      rw [hsame, hcount q]
    | some pt =>
      obtain ⟨hp, him⟩ := htable
      refine .pure ⟨fun q => ?_, him, rfl, rfl, rfl⟩
      have hpq := hp q
      have hc := hcount q
      dsimp only
      omega

theorem freeproc_pages (him : UserMem p.pagetable.leaf (npages p.sz))
    (hsz : npages p.sz ≤ RAMPAGES) :
    Post (fun _ => True) (fun r => (∀ q, r.1.free.count q = km.free.count q +
        ((if p.trapframe = q then 1 else 0) +
          (p.pagetable.nodes q + VMap.leaves p.pagetable.leaf UPAGES q))) ∧
      r.2.state = .unused ∧ r.2.sz = 0 ∧ r.2.vma = p.vma) (freeproc km p) := by
  unfold freeproc
  refine (Post.mapError_iff.mpr (procFreepagetable_pages him hsz)).bind ?_
  intro km' hcount
  refine .pure ⟨fun q => ?_, rfl, rfl, rfl⟩
  have hq := hcount q
  rw [pages_kfree, Vm.pages] at hq
  dsimp only
  omega

/-! ## `fork` -/

theorem Quiet.pages (h : Quiet sys sys') : sys'.pages q = sys.pages q := by
  unfold Sys.pages Sys.pipes
  rw [h.free, h.pipe]

theorem forkOfile_pages (sys : Sys) : Post (fun _ => True)
    (fun r => Quiet sys r.1 ∧ SameMem np r.2) (forRange NOFILE (forkOfile p) (sys, np)) := by
  refine Post.forRange (I := fun _ (r : Sys × Proc) => Quiet sys r.1 ∧ SameMem np r.2)
    ⟨.refl _, .refl _⟩ ?_
  rintro i ⟨sys₁, np₁⟩ _ ⟨hq, hm⟩
  unfold forkOfile
  dsimp only
  split
  · exact .ok ⟨hq, hm⟩
  · refine filedup_quiet.bind ?_
    intro sys₂ h₂
    exact .pure ⟨hq.trans h₂, ⟨hm.state, hm.sz, hm.pagetable, hm.trapframe, hm.vma⟩⟩

theorem forkVma_pages (hvma : p.vma = fun _ => .zero) (r : Sys × Proc) :
    forRange VMASIZE (forkVma p) r = .ok r := by
  apply forRange_const
  intro i
  obtain ⟨sys, np⟩ := r
  unfold forkVma
  rw [hvma]
  rfl

/-- What `fork` returns: the new process has the pages that are gone from the free list. -/
structure ForkPages (sys sys' : Sys) (np' : Proc) (ok : Bool) : Prop where
  inv : PipeInv sys'
  pipe : sys'.pipe = sys.pipe
  pages : ∀ q, sys'.km.free.count q + np'.pages q = sys.km.free.count q
  proc : ProcInv np'
  state : np'.state = if ok then .runnable else .unused

theorem fork_pages {me : Nat} (hinv : PipeInv sys) (hroom : Room ram sys p) (hp : ProcInv p)
    (hlive : p.state = .runnable) (hnp : ProcInv np) (hunused : np.state = .unused) :
    Post (fun _ => True) (fun r => ForkPages sys r.2.1 r.2.2 r.1) (fork sys me p np) := by
  have hused : p.state ≠ .unused := by
    rw [hlive]
    decide
  have hold := hp.mem hused
  have hle := (hroom.fits hused).image_le hold
  unfold fork
  refine allocproc_pages.bind ?_
  rintro ⟨alloc, km₁⟩ halloc
  cases alloc with
  | none =>
    have hsame : ∀ q, km₁.free.count q = sys.km.free.count q := halloc
    refine .pure ⟨hinv.setKm km₁, rfl, fun q => ?_, hnp, hunused⟩
    rw [pages_unused hunused]
    exact hsame q
  | some np₁ =>
    obtain ⟨hpages, him, hstate, hsz, hvma⟩ := halloc
    have hup : npages p.sz ≤ UPAGES := hle.trans (by decide)
    have hun : ∀ u pte, u < npages p.sz → p.pagetable.leaf u = some pte →
        pte.page ∉ km₁.free := by
      intro u pte hu hpte hmem
      have hfree := (hroom.fits hused).not_free (lt_of_lt_of_le hu hup) hpte
      have hpos := List.count_pos_iff.mpr hmem
      have := hpages pte.page
      unfold Vm.pages at this
      omega
    refine (Post.mapError_iff.mpr (uvmcopy_pages hun hold hup him)).bind ?_
    rintro ⟨copied, km₂, pt₂⟩ ⟨hp₂, hcases⟩
    dsimp only at hp₂ hcases
    cases copied with
    | false =>
      rcases hcases with ⟨hf, -⟩ | ⟨-, him₂⟩
      · cases hf
      · have hzero : np₁.sz = 0 := hsz.trans (hnp.fresh hunused)
        have hnone : npages np₁.sz = 0 := by
          rw [hzero]
          rfl
        refine (freeproc_pages (p := { np₁ with pagetable := pt₂ }) (by rw [hnone]; exact him₂)
          (by rw [hnone]; exact Nat.zero_le _)).bind ?_
        rintro ⟨km₃, np₃⟩ ⟨hfree, hs₃, hsz₃, hv₃⟩
        dsimp only at hfree hs₃ hsz₃ hv₃
        refine .pure ⟨hinv.setKm km₃, rfl, fun q => ?_,
          ⟨(hv₃.trans hvma).trans hnp.vma, fun h => absurd hs₃ h, fun _ => hsz₃⟩, hs₃⟩
        have h₁ := hpages q
        have h₂ := hp₂ q
        have h₃ := hfree q
        dsimp only
        rw [pages_unused hs₃]
        unfold Vm.pages at h₁ h₂
        omega
    | true =>
      rcases hcases with ⟨-, him₂⟩ | ⟨hf, -⟩
      · have hfinish : ∀ sys₄ np₄, Quiet { sys with km := km₂ } sys₄ → np₄.state = .runnable →
          np₄.pagetable = pt₂ →
            np₄.trapframe = np₁.trapframe → np₄.sz = p.sz → np₄.vma = np₁.vma →
                ForkPages sys sys₄ np₄ true := by
          intro sys₄ np₄ hq₄ hs₄ hpt htf hsz₄ hv₄
          have hused₄ : np₄.state ≠ .unused := by
            rw [hs₄]
            decide
          refine ⟨(hq₄.kept (hinv.setKm km₂)).inv, hq₄.pipe, fun q => ?_,
            ⟨(hv₄.trans hvma).trans hnp.vma, fun _ => ?_, fun h => absurd h hused₄⟩, hs₄⟩
          · have h₁ := hpages q
            have h₂ := hp₂ q
            rw [pages_used hused₄, hq₄.free, hpt, htf]
            unfold Vm.pages at h₁ h₂
            dsimp only
            omega
          · rw [hpt, hsz₄]
            exact him₂
        dsimp only
        refine (forkOfile_pages _).bind ?_
        rintro ⟨sys₃, np₃⟩ ⟨hq₃, hm₃⟩
        have hcopied : Quiet { sys with km := km₂ }
            { sys with km := copyTrapframe km₂ p.trapframe np₁.trapframe } :=
          .of_eq rfl rfl rfl
        dsimp only
        rw [forkVma_pages hp.vma]
        cases p.cwd with
        | none =>
          exact .ok (hfinish _ _ (hcopied.trans hq₃) rfl hm₃.pagetable hm₃.trapframe
            hm₃.sz hm₃.vma)
        | some k =>
          exact .ok (hfinish _ _ ((hcopied.trans hq₃).trans (.of_eq rfl rfl rfl)) rfl
            hm₃.pagetable hm₃.trapframe hm₃.sz hm₃.vma)
      · cases hf

/-! ## `exit` and page faults -/

theorem exitOfile_pages (hinv : PipeInv sys) : Post (fun _ => True)
    (fun r => Kept sys r.1 ∧ SameMem p r.2) (forRange NOFILE (exitOfile sb) (sys, p)) := by
  refine Post.forRange (I := fun _ (r : Sys × Proc) => Kept sys r.1 ∧ SameMem p r.2)
    ⟨.refl hinv, .refl _⟩ ?_
  rintro i ⟨sys₁, p₁⟩ _ ⟨hk, hm⟩
  unfold exitOfile
  dsimp only
  split
  · exact .ok ⟨hk, hm⟩
  · refine (fileclose_kept hk.inv).bind ?_
    intro sys₂ h₂
    exact .pure ⟨hk.trans h₂, ⟨hm.state, hm.sz, hm.pagetable, hm.trapframe, hm.vma⟩⟩

theorem exitVma_pages (hvma : p.vma = fun _ => .zero) (sys : Sys) :
    forRange VMASIZE (exitVma sb) (sys, p) = .ok (sys, p) := by
  apply forRange_const
  intro i
  have hinvalid : (p.vma i).valid = false := by
    rw [hvma]
    rfl
  exact if_neg (by rw [hinvalid]; exact Bool.false_ne_true)

/-- A zombie keeps its pages until its parent waits for it. -/
theorem exit_pages {status : Nat} (hinv : PipeInv sys) (hp : ProcInv p) : Post (fun _ => True)
    (fun r => Kept sys r.1 ∧ SameMem { p with state := .zombie } r.2) (exit sb sys p status) := by
  unfold exit
  refine (exitOfile_pages hinv).bind ?_
  rintro ⟨sys₁, p₁⟩ ⟨hk₁, hm₁⟩
  apply Post.bind_of_ok (exitVma_pages (hm₁.vma.trans hp.vma) sys₁)
  refine iputPtr_quiet.bind ?_
  intro sys₂ h₂
  exact .pure ⟨hk₁.trans (h₂.kept hk₁.inv),
    ⟨rfl, hm₁.sz, hm₁.pagetable, hm₁.trapframe, hm₁.vma⟩⟩

theorem pageFault_none {va : Nat} (hvma : p.vma = fun _ => .zero) :
    pageFault sb sys p va = .ok (decide (va ≥ p.sz ∨ va > MAXVA ∨ PGROUNDUP va = PGROUNDDOWN p.sp),
      sys, p) := by
  have hslot : faultSlot p va = none := by
    unfold faultSlot
    rw [List.find?_eq_none]
    intro i _
    rw [hvma]
    exact Bool.false_ne_true
  unfold pageFault
  rw [hslot]
  rfl

/-! ## `sbrk` -/

/-- What `growproc` returns; a failed call leaves the memory of the process as it was. -/
structure GrowPages (km : Kmem) (p : Proc) (ok : Bool) (km' : Kmem) (p' : Proc) : Prop where
  pages : ∀ q, Vm.pages km' p'.pagetable q = Vm.pages km p.pagetable q
  mem : UserMem p'.pagetable.leaf (npages p'.sz)
  state : p'.state = p.state
  trapframe : p'.trapframe = p.trapframe
  vma : p'.vma = p.vma
  failed : ok = false → p'.pagetable.leaf = p.pagetable.leaf ∧ p'.sz = p.sz

theorem growproc_pages {i : Int} (hfits : Fits ram km p.pagetable)
    (him : UserMem p.pagetable.leaf (npages p.sz)) :
    Post (fun _ => True) (fun r => GrowPages km p r.1 r.2.1 r.2.2) (growproc km p i) := by
  have hle := hfits.image_le him
  have hsz : p.sz % 2 ^ 32 = p.sz := by
    simp only [npages, RAMPAGES, PGSIZE] at hle
    omega
  unfold growproc
  dsimp only
  rw [hsz]
  apply Post.ite
  · intro _
    refine (Post.mapError_iff.mpr (uvmalloc_pages hfits him)).bind ?_
    rintro ⟨r, km₁, pt₁⟩ ⟨hp, hzero, hmem⟩
    dsimp only at hp hzero hmem
    apply Post.ite
    · intro hr
      have hleaf := hzero hr
      exact .pure ⟨hp, by dsimp only; rw [hleaf]; exact him, rfl, rfl, rfl,
        fun _ => ⟨hleaf, rfl⟩⟩
    · intro hr
      exact .pure ⟨hp, hmem hr, rfl, rfl, rfl, fun h => by cases h⟩
  · intro _
    apply Post.ite
    · intro _
      refine (Post.mapError_iff.mpr (uvmdealloc_pages hle)).bind ?_
      rintro ⟨r, km₁, pt₁⟩ ⟨hp, hr, hleaf⟩
      dsimp only at hp hr hleaf
      refine .pure ⟨hp, ?_, rfl, rfl, rfl, fun h => by cases h⟩
      dsimp only
      rw [hleaf]
      exact him.shrink (npages_mono (hr ▸ Nat.min_le_right _ _))
    · intro _
      exact .pure ⟨fun _ => rfl, him, rfl, rfl, rfl, fun h => by cases h⟩

end

end Xv6.Kernel
