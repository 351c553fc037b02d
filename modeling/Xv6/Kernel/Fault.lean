import Xv6.Kernel.References
import Xv6.Vm.Fill

/-! # Page faults

The page-fault branch of `usertrap` decides by the size of the process, its stack pointer, its
regions and the memory that is left. For every state of a process and every address it is decided
whether the access that faulted can go on, or the process is killed.
-/

namespace Xv6.Kernel

open Function Lib Vm

/-- The test that the handler begins with. -/
def Proc.outside (p : Proc) (va : Nat) : Prop :=
  va ≥ p.sz ∨ va > MAXVA ∨ PGROUNDUP va = PGROUNDDOWN p.sp

/-- The protection of a region allows a load or a store. An entry that is writable but not readable
is reserved and faults. -/
def Vma.allows (m : Vma) (write : Bool) : Bool := PROT_READ m.prot && (!write || PROT_WRITE m.prot)

/-- A region contains the address, and either there is no memory for the page and its tables, or the
region allows the access. -/
def Served (km : Kmem) (p : Proc) (va : Nat) (write : Bool) : Prop :=
  ∃ i, faultSlot p va = some i ∧
    (km.free.length ≤ p.pagetable.missing (va / PGSIZE) ∨ (p.vma i).allows write = true)

/-- The handler can map the page of the address for region `i`, or there is none to be had: the file
of the region has an inode in use, and the page is not mapped. Otherwise `ilock`, `walk` or
`mappages` panics. -/
def Mappable (sys : Sys) (p : Proc) (va i : Nat) : Prop :=
  sys.km.free = [] ∨ (∃ k, (sys.file (p.vma i).f).ip = some k ∧ 0 < (sys.inode k).ref) ∧
    va < MAXVA ∧ p.pagetable.leaf (va / PGSIZE) = none

/-- The handler has returned, and the process is killed or the access can go on. `before` is
`p->killed` when the fault is taken. -/
def ResolvedOrFatal (va : Nat) (write before : Bool) : Except Panic (Bool × Sys × Proc) → Prop
  | .error _ => False
  | .ok (killed, _, p) => (before || killed) = true ∨ permits p.pagetable va write = true

section

variable {sb : Fs.Superblock} {sys sys' : Sys} {p p' : Proc} {va i : Nat}
    {write before killed : Bool}

theorem permits_mapped {pt : PageTable} {page : Nat} {m : Vma} (hva : va < MAXVA)
    (hleaf : pt.leaf (va / PGSIZE) = some ⟨page, m.perm⟩) :
    permits pt va write = m.allows write := by
  unfold permits
  rw [hleaf, decide_eq_true hva]
  rfl

theorem pageFault_hole (h : faultSlot p va = none) :
    pageFault sb sys p va = .ok (decide (va ≥ p.sz ∨ va > MAXVA ∨ PGROUNDUP va = PGROUNDDOWN p.sp),
      sys, p) := by
  unfold pageFault
  rw [h]
  rfl

/-- The end of a page fault on region `i`. -/
inductive Handled (sys : Sys) (p : Proc) (va i : Nat) : Except Panic (Bool × Sys × Proc) → Prop
  | nomem {sys' : Sys} {p' : Proc} (hok : Mappable sys p va i)
      (h : sys.km.free.length ≤ p.pagetable.missing (va / PGSIZE)) :
      Handled sys p va i (.ok (true, sys', p'))
  | mapped {sys' : Sys} {p' : Proc} {killed : Bool} (page : Nat) (hok : Mappable sys p va i)
      (h : p.pagetable.missing (va / PGSIZE) < sys.km.free.length) (hva : va < MAXVA)
      (hkilled : killed = true ↔ p.outside va)
      (hleaf : p'.pagetable.leaf (va / PGSIZE) = some ⟨page, (p.vma i).perm⟩) :
      Handled sys p va i (.ok (killed, sys', p'))
  | panic {e : Panic} (hno : ¬ Mappable sys p va i) : Handled sys p va i (.error e)

theorem ilock_error_of_unused {ip : Option Nat} (h : ¬ ∃ k, ip = some k ∧ 0 < (sys.inode k).ref) :
    ilock sb sys ip = .error .ilock := by
  cases ip with
  | none => rfl
  | some k =>
    refine if_pos ?_
    by_contra hge
    exact h ⟨k, rfl, by omega⟩

theorem pageFault_region (hfs : Fs.AllocInv sb (sys.disk.view sb))
    (hinodes : ∀ k, 0 < (sys.inode k).ref → (sys.disk.view sb).Allocated sb (sys.inode k).inum)
    (h : faultSlot p va = some i) : Handled sys p va i (pageFault sb sys p va) := by
  unfold pageFault
  dsimp only
  rw [h]
  dsimp only
  cases hk : kalloc sys.km with
  | none =>
    have hnil := kalloc_nil hk
    exact .nomem (.inl hnil) (by rw [hnil]; exact Nat.zero_le _)
  | some r =>
    obtain ⟨mem, km⟩ := r
    have hfree : sys.km.free = mem :: km.free := (kalloc_cons hk).1
    have hne : sys.km.free ≠ [] := by
      rw [hfree]
      exact List.cons_ne_nil _ _
    dsimp only
    by_cases hip : ∃ k, (sys.file (p.vma i).f).ip = some k ∧ 0 < (sys.inode k).ref
    swap
    · have hlock : ilock sb { sys with km := km.clear mem } (sys.file (p.vma i).f).ip =
          .error .ilock :=
        ilock_error_of_unused hip
      rw [hlock]
      exact .panic fun hok => hip (hok.resolve_left hne).1
    · obtain ⟨k, hip', href⟩ := id hip
      obtain ⟨valid, hlock⟩ := @ilock_total sb { sys with km := km.clear mem } k href
        (hinodes k href)
      obtain ⟨r, bs, hread, -⟩ := @Fs.AllocInv.readi sb sys.disk (sys.inode k).inum
        (u64 (↑(PGROUNDDOWN va) - ↑(p.vma i).addr) % 2 ^ 32) PGSIZE hfs (hinodes k href)
          (fun _ => true)
        (Nat.mod_lt _ (by decide)) (by decide)
      have hread' : Fs.readi sb sys.disk (({ sys with km := km.clear mem }.setInode k
          { sys.inode k with valid := valid }).dinode sb k) (fun _ => true)
          (u64 (↑(PGROUNDDOWN va) - ↑(p.vma i).addr) % 2 ^ 32) PGSIZE =
            .ok (r, bs, (sys.disk.view sb).inode (sys.inode k).inum, sys.disk) := by
        have hinum : (update sys.inode k { sys.inode k with valid := valid } k).inum =
            (sys.inode k).inum := by
          rw [update_self]
        rw [← hread]
        exact congrArg (fun j => Fs.readi sb sys.disk ((sys.disk.view sb).inode j) _ _ _) hinum
      rw [hip', hlock, ok_bind]
      dsimp only [Sys.setInode] at hread' ⊢
      rw [hread', Except.mapError, ok_bind]
      dsimp only
      generalize update _ mem _ = contents
      have hpage : va < MAXVA ↔ va / PGSIZE * PGSIZE < MAXVA := by
        unfold MAXVA PGSIZE
        omega
      have hshorter : sys.km.free.length = km.free.length + 1 := by rw [hfree, List.length_cons]
      by_cases hva : va < MAXVA
      swap
      · rw [PGROUNDDOWN, mappages_beyond _ _ _ _ (Nat.le_of_not_lt (hpage.not.mp hva))]
        exact .panic fun hok => hva (hok.resolve_left hne).2.1
      · have hva' := hpage.mp hva
        by_cases hleaf : p.pagetable.leaf (va / PGSIZE) = none
        swap
        · rw [PGROUNDDOWN, mappages_remap _ _ _ hva' hleaf]
          exact .panic fun hok => hleaf (hok.resolve_left hne).2.2
        · have hok : Mappable sys p va i := .inr ⟨hip, hva, hleaf⟩
          by_cases hshort : km.free.length < p.pagetable.missing (va / PGSIZE)
          · obtain ⟨km', pt', hmap, -⟩ :=
              mappages_short ⟨(km.clear mem).free, contents⟩ p.pagetable mem
                (p.vma i).perm hva' hshort
            rw [PGROUNDDOWN, hmap]
            exact .nomem hok (by omega)
          · obtain ⟨km', pt', hmap, -, hset⟩ :=
              mappages_fresh ⟨(km.clear mem).free, contents⟩ mem (p.vma i).perm hva'
              (Nat.le_of_not_lt hshort) hleaf
            rw [PGROUNDDOWN, hmap]
            refine .mapped mem hok (by omega) hva decide_eq_true_iff ?_
            dsimp only
            rw [hset, update_self]

end

/-- A page fault from user mode leaves the process killed, or lets the access go on, exactly if a
region that contains the address can be mapped, and the process was killed already, the first test
of the handler applies, or a region serves the fault. -/
theorem fault_resolved_or_fatal (sb : Fs.Superblock) (sys : Sys)
    (hfs : Fs.AllocInv sb (sys.disk.view sb))
    (hinodes : ∀ k, 0 < (sys.inode k).ref → (sys.disk.view sb).Allocated sb (sys.inode k).inum)
    (p : Proc) (va : Nat) (write before : Bool) (hfault : permits p.pagetable va write = false) :
    ResolvedOrFatal va write before (pageFault sb sys p va) ↔
      (∀ i, faultSlot p va = some i → Mappable sys p va i) ∧
        (before = true ∨ p.outside va ∨ Served sys.km p va write) := by
  cases hslot : faultSlot p va with
  | none =>
    rw [pageFault_hole hslot]
    change (before || decide _) = true ∨ _ ↔ _
    rw [hfault, Bool.or_eq_true, decide_eq_true_iff]
    have hserved : ¬ Served sys.km p va write := by
      rintro ⟨i, hi, -⟩
      cases hslot.symm.trans hi
    have hmap : ∀ i, none = some i → Mappable sys p va i := fun i hi => by cases hi
    rw [or_iff_left Bool.false_ne_true, or_iff_left hserved]
    exact (and_iff_right hmap).symm
  | some i =>
    have hserved : Served sys.km p va write ↔
        sys.km.free.length ≤ p.pagetable.missing (va / PGSIZE) ∨ (p.vma i).allows write = true := by
      constructor
      · rintro ⟨j, hj, h⟩
        exact Option.some.inj (hslot.symm.trans hj) ▸ h
      · exact fun h => ⟨i, hslot, h⟩
    have hmap : (∀ j, some i = some j → Mappable sys p va j) ↔ Mappable sys p va i :=
      ⟨fun h => h i rfl, fun h j hj => Option.some.inj hj ▸ h⟩
    rw [hserved, hmap]
    have hend := pageFault_region hfs hinodes hslot
    generalize pageFault sb sys p va = x at hend
    cases hend with
    | nomem hok hnomem =>
      exact iff_of_true (.inl (Bool.or_true _)) ⟨hok, .inr (.inr (.inl hnomem))⟩
    | mapped page hok hmem hva hkilled hleaf =>
      change (before || _) = true ∨ permits _ va write = true ↔ _
      rw [permits_mapped hva hleaf, Bool.or_eq_true, hkilled, and_iff_right hok, or_assoc,
        or_iff_right (Nat.not_le.mpr hmem)]
    | panic hno => exact iff_of_false id fun h => hno h.1

/-- When a process has unmapped two pages, a load from the second one faults for ever: the handler
changes nothing. -/
theorem fault_in_hole_repeats : ∃ s s', Booted Fs.tinySb s ∧
    Lib.exec (step Fs.tinySb) s (twoPages ++ [.munmap 0 4096 8192]) = .next s' ∧
    permits (s'.proc 0).pagetable 8193 false = false ∧
    pageFault Fs.tinySb s'.sys (s'.proc 0) 8193 = .ok (false, s'.sys, s'.proc 0) := by
  have hrun : (tinyBoot.bind fun s =>
      (Lib.exec (step Fs.tinySb) s (twoPages ++ [.munmap 0 4096 8192])).next?.map fun s' =>
      (permits (s'.proc 0).pagetable 8193 false, faultSlot (s'.proc 0) 8193,
        decide (8193 ≥ (s'.proc 0).sz ∨ 8193 > MAXVA ∨ PGROUNDUP 8193 =
          PGROUNDDOWN (s'.proc 0).sp))) = some (false, none, false) := by
    decide +kernel
  obtain ⟨s, hs, hmap⟩ := Option.bind_eq_some_iff.mp hrun
  obtain ⟨s', hs', heq⟩ := Option.map_eq_some_iff.mp hmap
  simp only [Prod.mk.injEq] at heq
  obtain ⟨hpermits, hslot, hkilled⟩ := heq
  refine ⟨s, s', tinyBoot_booted hs, Outcome.next?_eq_some.mp hs', hpermits, ?_⟩
  rw [pageFault_hole hslot, hkilled]

/-- Before that the load brings the page in. -/
theorem fault_resolved_or_fatal_twoPages : ∃ s s' sys' p', Booted Fs.tinySb s ∧
    Lib.exec (step Fs.tinySb) s twoPages = .next s' ∧ permits (s'.proc 0).pagetable 8193 false =
    false ∧
    pageFault Fs.tinySb s'.sys (s'.proc 0) 8193 = .ok (false, sys', p') ∧
    permits p'.pagetable 8193 false = true := by
  have hrun : (tinyBoot.bind fun s => (Lib.exec (step Fs.tinySb) s twoPages).next?.bind fun s' =>
      (pageFault Fs.tinySb s'.sys (s'.proc 0) 8193).toOption.map fun r =>
        (decide (Guarded (step Fs.tinySb) ClosesValid s twoPages) &&
          ((s'.proc 0).vma 0).allows false &&
            ((s'.proc 0).pagetable.leaf 2).isNone, permits (s'.proc 0).pagetable 8193 false,
          faultSlot (s'.proc 0) 8193, (s'.sys.file ((s'.proc 0).vma 0).f).ip.map fun k =>
          (s'.sys.inode k).ref,
          r.1)) = some (true, false, some 0, some 2, false) := by
    decide +kernel
  obtain ⟨s, hs, hbind⟩ := Option.bind_eq_some_iff.mp hrun
  obtain ⟨s', hs', hmap⟩ := Option.bind_eq_some_iff.mp hbind
  obtain ⟨⟨killed, sys', p'⟩, hfault, heq⟩ := Option.map_eq_some_iff.mp hmap
  simp only [Prod.mk.injEq, Bool.and_eq_true, decide_eq_true_eq, Option.isNone_iff_eq_none] at heq
  obtain ⟨⟨⟨hguard, hallows⟩, hleaf⟩, hpermits, hslot, hip, rfl⟩ := heq
  have hexec := Outcome.next?_eq_some.mp hs'
  have hret : pageFault Fs.tinySb s'.sys (s'.proc 0) 8193 = .ok (false, sys', p') :=
    eq_ok_of_toOption hfault
  have hinv := (reach_kinv (Reach.of_exec (.start (tinyBoot_booted hs)) hguard hexec)).inv
  obtain ⟨k, hk, href⟩ := Option.map_eq_some_iff.mp hip
  have hmappable : ∀ i, faultSlot (s'.proc 0) 8193 = some i →
      Mappable s'.sys (s'.proc 0) 8193 i := by
    intro i hi
    obtain rfl := Option.some.inj (hslot.symm.trans hi)
    exact .inr ⟨⟨k, hk, by omega⟩, by decide, hleaf⟩
  have hgood := (fault_resolved_or_fatal Fs.tinySb s'.sys hinv.fs.alloc hinv.ialloc
    (s'.proc 0) 8193 false false hpermits).mpr ⟨hmappable, .inr (.inr ⟨0, hslot, .inr hallows⟩)⟩
  rw [hret] at hgood
  exact ⟨s, s', sys', p', tinyBoot_booted hs, hexec, hpermits, hret,
    hgood.resolve_left Bool.false_ne_true⟩

end Xv6.Kernel
