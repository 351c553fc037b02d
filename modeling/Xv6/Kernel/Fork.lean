import Mathlib.Data.List.Find
import Xv6.Kernel.Machine
import Xv6.Vm.Copy

/-! # What `fork` copies

The user memory, the trapframe and the mapped regions of the child of a successful `fork`. Its page
table is new and its user pages are copies; its `vma` array is that of the table slot it was given,
in which `fork` overwrites the slots that are valid in the parent and no others.
-/

namespace Xv6.Kernel

open Function Lib Vm

/-! ## Looking up a region -/

/-- The contents of the slot that the page-fault handler finds. -/
def faultVma (p : Proc) (va : Nat) : Option Vma := (faultSlot p va).map p.vma

/-- The contents of the slot that `sys_munmap` finds. -/
def munmapVma (p : Proc) (addr : Nat) : Option Vma := (munmapSlot p addr).map p.vma

/-- What `addr` finds in the slots that are not valid in `p`, in front of the first valid slot that
contains it, if these slots have the contents `m`. -/
def staleVma (p : Proc) (m : Nat → Vma) (addr : Nat) : Option Vma :=
  ((List.range ((faultSlot p addr).getD VMASIZE)).find? fun i => !(p.vma i).valid &&
    (m i).contains addr).map m

section

variable {p np : Proc} {m : Nat → Vma} {addr va i : Nat} {x : Vma}

/-- A valid slot in front of the one that the handler finds does not contain the address. -/
theorem contains_before (hi : i < (faultSlot p va).getD VMASIZE) (hvalid : (p.vma i).valid = true) :
    (p.vma i).contains va = false := by
  cases hk : faultSlot p va with
  | none =>
    rw [hk] at hi
    exact faultSlot_none hk hi hvalid
  | some k =>
    rw [hk] at hi
    exact (faultSlot_some hk).2.2.2 i hi hvalid

theorem faultSlot_le : (faultSlot p va).getD VMASIZE ≤ VMASIZE := by
  cases hk : faultSlot p va with
  | none => exact Nat.le_refl _
  | some k => exact Nat.le_of_lt (faultSlot_some hk).1

theorem staleVma_some (h : staleVma p m addr = some x) :
    ∃ i, i < VMASIZE ∧ (p.vma i).valid = false ∧ m i = x := by
  obtain ⟨i, hi, rfl⟩ := Option.map_eq_some_iff.mp h
  obtain ⟨hcond, hmem, -⟩ := List.find?_range_eq_some.mp hi
  rw [Bool.and_eq_true, Bool.not_eq_true'] at hcond
  exact ⟨i, (List.mem_range.mp hmem).trans_le faultSlot_le, hcond.1, rfl⟩

/-- A lookup that ignores `valid` finds a stale slot or what the handler finds. -/
theorem find_contains (hm : ∀ i, i < VMASIZE → (p.vma i).valid = true → m i = p.vma i) :
    ((List.range VMASIZE).find? fun i => (m i).contains addr).map m = (staleVma p m addr).or
    (faultVma p addr) := by
  unfold staleVma faultVma
  have hbefore : ∀ {j}, j < (faultSlot p addr).getD VMASIZE → (p.vma j).valid = true →
      (m j).contains addr = false := by
    intro j hj hvalid
    rw [hm j (hj.trans_le faultSlot_le) hvalid]
    exact contains_before hj hvalid
  cases hstale : (List.range ((faultSlot p addr).getD VMASIZE)).find? fun i => !(p.vma i).valid &&
    (m i).contains addr with
  | some i =>
    obtain ⟨hcond, hmem, hfirst⟩ := List.find?_range_eq_some.mp hstale
    rw [Bool.and_eq_true] at hcond
    have hi := List.mem_range.mp hmem
    have hfind : (List.range VMASIZE).find? (fun i => (m i).contains addr) = some i := by
      refine List.find?_range_eq_some.mpr ⟨hcond.2, List.mem_range.mpr (hi.trans_le faultSlot_le),
        fun j hj => ?_⟩
      rw [Bool.not_eq_true']
      cases hvalid : (p.vma j).valid with
      | true => exact hbefore (hj.trans hi) hvalid
      | false =>
        have := hfirst j hj
        rw [hvalid, Bool.not_false, Bool.true_and, Bool.not_eq_true'] at this
        exact this
    rw [hfind]
    rfl
  | none =>
    have hclear : ∀ {j}, j < (faultSlot p addr).getD VMASIZE → (m j).contains addr = false := by
      intro j hj
      cases hvalid : (p.vma j).valid with
      | true => exact hbefore hj hvalid
      | false =>
        have := List.find?_eq_none.mp hstale j (List.mem_range.mpr hj)
        rw [hvalid, Bool.not_false, Bool.true_and, Bool.not_eq_true] at this
        exact this
    cases hk : faultSlot p addr with
    | none =>
      rw [hk] at hclear
      have hfind : (List.range VMASIZE).find? (fun i => (m i).contains addr) = none := by
        refine List.find?_eq_none.mpr fun j hj => ?_
        rw [hclear (List.mem_range.mp hj)]
        exact Bool.false_ne_true
      rw [hfind]
      rfl
    | some k =>
      obtain ⟨hk', hvalid, hcontains, -⟩ := faultSlot_some hk
      rw [hk] at hclear
      have hfind : (List.range VMASIZE).find? (fun i => (m i).contains addr) = some k := by
        refine List.find?_range_eq_some.mpr ⟨?_, List.mem_range.mpr hk', fun j hj => ?_⟩
        · rw [hm k hk' hvalid]
          exact hcontains
        · rw [hclear hj]
          rfl
      rw [hfind]
      exact congrArg some (hm k hk' hvalid)

end

/-! ## What the child is made of -/

/-- A page table from `proc_pagetable`: tables are pages of the free list, and the only entries are
the trampoline and the trapframe. -/
structure FreshTable (km : Kmem) (tf : Nat) (km' : Kmem) (pt : PageTable) : Prop where
  mem : km'.mem = km.mem
  free : km'.free <:+ km.free
  clear : ∀ v, v < UPAGES → pt.leaf v = none
  trapframe : pt.leaf UPAGES = some ⟨tf, ⟨true, true, false, false⟩⟩

section

variable {sys : Sys} {km : Kmem} {p np : Proc} {me tf : Nat}

theorem procPagetable_fresh :
    Post (fun _ => True) (fun r => ∀ pt, r.1 = some pt → FreshTable km tf r.2 pt)
    (procPagetable km tf) := by
  unfold procPagetable
  rw [TRAMPOLINE_eq, TRAPFRAME_eq]
  cases hk : kalloc km with
  | none => exact .ok fun pt h => by cases h
  | some r =>
    obtain ⟨root, km₁⟩ := r
    refine ((mappages_post km₁ (Node.empty root) trampoline _ (by decide) (by decide)).mono
      (fun _ _ => trivial) fun _ => id).bind ?_
    rintro ⟨found, km₂, pt₂⟩ ⟨k₂, -, hk₂, hg₂, hl₂⟩
    cases found with
    | false => exact (Post.any (fun _ => trivial) _).bind fun km₃ _ => .pure fun pt h => by cases h
    | true =>
      dsimp only
      refine ((mappages_post km₂ pt₂ tf _ (by decide) (by decide)).mono (fun _ _ => trivial)
        fun _ => id).bind ?_
      rintro ⟨found, km₃, pt₃⟩ ⟨k₃, -, hk₃, hg₃, hl₃⟩
      cases found with
      | false =>
        refine (Post.any (fun _ => trivial) _).bind fun r _ => ?_
        exact (Post.any (fun _ => trivial) _).bind fun km₄ _ => .pure fun pt h => by cases h
      | true =>
        have hone : ∀ v, (v * PGSIZE + PGSIZE - 1) / PGSIZE - v * PGSIZE / PGSIZE + 1 = 1 := by
          intro v
          simp only [PGSIZE]
          omega
        dsimp only at hk₂ hk₃ hl₂ hl₃ hg₂ hg₃
        rw [hone, eq_comm, decide_eq_true_iff] at hk₂ hk₃
        subst hk₂ hk₃
        rw [Nat.mul_div_cancel _ (by decide : 0 < PGSIZE)] at hl₂ hl₃
        refine .pure fun pt h => ?_
        cases h
        have hclear : ∀ v, v < UPAGES + 1 → pt₂.leaf v = none := by
          intro v hv
          rw [hl₂, VMap.map, if_neg (by omega)]
          exact leaf_empty root v
        refine ⟨(hg₃.mem.trans hg₂.mem).trans (kalloc_mem hk), (hg₃.free.trans hg₂.free).trans
          (kalloc_free hk), fun v hv => ?_, ?_⟩
        · rw [hl₃, VMap.map, if_neg (by omega)]
          exact hclear v (by omega)
        · rw [hl₃, VMap.map, if_pos (by omega), Nat.sub_self, Nat.add_zero]

/-- The parts of a child that come from its parent and from its table slot. -/
structure Child (sys : Sys) (p np : Proc) (sys' : Sys) (np' : Proc) : Prop where
  vma : ∀ i, i < VMASIZE → np'.vma i = if (p.vma i).valid then p.vma i else np.vma i
  space : ∃ rest km₁ km₂ pt, sys.km.free = np'.trapframe :: rest ∧
    FreshTable ⟨rest, sys.km.mem⟩ np'.trapframe km₁ pt ∧
    uvmcopy km₁ p.pagetable pt p.sz = .ok (true, km₂, np'.pagetable) ∧
    sys'.km = copyTrapframe km₂ p.trapframe np'.trapframe

theorem filedup_km {f : Nat} :
    Post (fun _ => True) (fun sys' => sys'.km = sys.km) (filedup sys f) := by
  unfold filedup
  exact .ite (fun _ => .error trivial) fun _ => .ok rfl

theorem forkOfile_km : Post (fun _ => True)
    (fun r => r.1.km = sys.km ∧ r.2.pagetable = np.pagetable ∧ r.2.trapframe = np.trapframe ∧
      r.2.vma = np.vma)
    (forRange NOFILE (forkOfile p) (sys, np)) := by
  refine Post.forRange (I := fun _ (r : Sys × Proc) =>
    r.1.km = sys.km ∧ r.2.pagetable = np.pagetable ∧ r.2.trapframe = np.trapframe ∧
      r.2.vma = np.vma)
    ⟨rfl, rfl, rfl, rfl⟩ ?_
  rintro i ⟨sys₁, np₁⟩ _ ⟨hkm, hrest⟩
  unfold forkOfile
  dsimp only
  split
  · exact .ok ⟨hkm, hrest⟩
  · exact filedup_km.bind fun sys₂ h₂ => .pure ⟨h₂.trans hkm, hrest⟩

theorem forkVma_km : Post (fun _ => True)
    (fun r => r.1.km = sys.km ∧ r.2.pagetable = np.pagetable ∧ r.2.trapframe = np.trapframe ∧
      ∀ i, i < VMASIZE → r.2.vma i = if (p.vma i).valid then p.vma i else np.vma i)
    (forRange VMASIZE (forkVma p) (sys, np)) := by
  refine (Post.forRange (I := fun k (r : Sys × Proc) =>
    r.1.km = sys.km ∧ r.2.pagetable = np.pagetable ∧ r.2.trapframe = np.trapframe ∧
      ∀ i, r.2.vma i = if i < k ∧ (p.vma i).valid then p.vma i else np.vma i)
    ⟨rfl, rfl, rfl, fun i => (if_neg fun h => absurd h.1 (Nat.not_lt_zero _)).symm⟩ ?_).imp ?_
  · rintro k ⟨sys₁, np₁⟩ _ ⟨hkm, hpt, htf, hvma⟩
    unfold forkVma
    dsimp only at hkm hpt htf hvma ⊢
    refine .ite (fun hvalid => ?_) fun hvalid => ?_
    · refine filedup_km.bind fun sys₂ h₂ => .pure ⟨h₂.trans hkm, hpt, htf, fun i => ?_⟩
      by_cases hi : i = k
      · rw [hi, if_pos ⟨Nat.lt_succ_self k, hvalid⟩]
        exact update_self _ _ _
      · have hother : (np₁.setVma k (p.vma k)).vma i = np₁.vma i := update_of_ne hi _ _
        rw [hother, hvma i]
        simp only [show i < k + 1 ↔ i < k by omega]
    · refine .ok ⟨hkm, hpt, htf, fun i => ?_⟩
      by_cases hi : i = k
      · rw [hvma i, if_neg (by omega), if_neg (by rw [hi]; exact fun h => hvalid h.2)]
      · rw [hvma i]
        simp only [show i < k + 1 ↔ i < k by omega]
  · rintro r ⟨hkm, hpt, htf, hvma⟩
    refine ⟨hkm, hpt, htf, fun i hi => ?_⟩
    rw [hvma i]
    simp only [hi, true_and]

theorem fork_child : Post (fun _ => True) (fun r => r.1 = true → Child sys p np r.2.1 r.2.2)
    (fork sys me p np) := by
  unfold fork allocproc
  cases hk : kalloc sys.km with
  | none => exact .pure fun h => by cases h
  | some r =>
    obtain ⟨tf, km₀⟩ := r
    obtain ⟨hfree, hmem⟩ := kalloc_cons hk
    dsimp only
    -- What `allocproc` returns with the new page table.
    refine Post.bind (Q := fun r : Option Proc × Kmem => ∀ np₁, r.1 = some np₁ →
      ∃ pt, FreshTable km₀ tf r.2 pt ∧ np₁ = { np with pagetable := pt, trapframe := tf }) ?_ ?_
    · refine (Post.mapError_iff.mpr procPagetable_fresh).bind ?_
      rintro ⟨_ | pt, km₁⟩ h
      · exact .pure fun np₁ h => by cases h
      · refine .pure fun np₁ h₁ => ⟨pt, h pt rfl, ?_⟩
        exact (Option.some.inj h₁).symm
    rintro ⟨_ | np₁, km₁⟩ hnew
    · exact .pure fun h => by cases h
    · obtain ⟨pt, hfresh, rfl⟩ := hnew np₁ rfl
      dsimp only at hfresh ⊢
      cases hcopy : uvmcopy km₁ p.pagetable pt p.sz with
      | error e => exact .error trivial
      | ok r =>
        obtain ⟨_ | _, km₂, pt₂⟩ := r
        · refine Post.bind_of_ok (a := (false, km₂, pt₂)) rfl ?_
          exact (Post.any (fun _ => trivial) _).bind fun r _ => .pure fun h => by cases h
        · refine Post.bind_of_ok (a := (true, km₂, pt₂)) rfl ?_
          refine forkOfile_km.bind ?_
          rintro ⟨sys₃, np₃⟩ ⟨hkm₃, hpt₃, htf₃, hvma₃⟩
          refine forkVma_km.bind ?_
          rintro ⟨sys₄, np₄⟩ ⟨hkm₄, hpt₄, htf₄, hvma₄⟩
          refine .pure fun _ => ⟨fun i hi => ?_, km₀.free, km₁, km₂, pt, ?_, ?_, ?_, ?_⟩
          · rw [hvma₄ i hi]
            dsimp only at hvma₃ ⊢
            rw [hvma₃]
          · dsimp only at htf₃ htf₄ ⊢
            rw [htf₄, htf₃]
            exact hfree
          · dsimp only at htf₃ htf₄ ⊢
            rw [htf₄, htf₃, ← hmem]
            exact hfresh
          · dsimp only at hpt₃ hpt₄ ⊢
            rw [hpt₄, hpt₃]
            exact hcopy
          · dsimp only at hkm₃ hkm₄ htf₃ htf₄ ⊢
            rw [hkm₄, htf₄, htf₃, ← hkm₃]
            cases p.cwd <;> rfl

end

/-! ## The address space of the child -/

/-- A state in which a process can fork: free pages are on the list once and not mapped in the
parent, whose page table maps its trapframe, and the slot for the child belongs to no process. -/
structure ForkReady (sys : Sys) (p np : Proc) : Prop where
  nodup : sys.km.free.Nodup
  unshared : Unshared sys.km p.pagetable
  trapframe : ∃ perm, p.pagetable.leaf UPAGES = some ⟨p.trapframe, perm⟩
  idle : ∀ i, i < VMASIZE → (np.vma i).valid = false

/-- The child `np'` of `p` in `sys'` has the address space that `p` had in `sys`, and still has. -/
structure Duplicated (sys : Sys) (p : Proc) (sys' : Sys) (np' : Proc) : Prop where
  hole : ∀ v, v < npages p.sz → p.pagetable.leaf v = none → np'.pagetable.leaf v = none
  page : ∀ v pte, v < npages p.sz → p.pagetable.leaf v = some pte →
    ∃ q, np'.pagetable.leaf v = some ⟨q, pte.perm⟩ ∧ q ≠ pte.page ∧ sys'.km.mem q =
    sys.km.mem pte.page
  trapframe : ∀ k, k < 288 → (sys'.km.mem np'.trapframe).get k =
    if 112 ≤ k ∧ k < 120 then 0 else (sys.km.mem p.trapframe).get k
  memory : ∀ v pte, p.pagetable.leaf v = some pte → sys'.km.mem pte.page = sys.km.mem pte.page
  fault : ∀ va, faultVma np' va = faultVma p va
  munmap : ∀ addr, munmapVma np' addr = munmapVma p addr

section

variable {sys sys' : Sys} {p np np' : Proc} {me : Nat}

theorem copyTrapframe_other {km : Kmem} {tf tf' q : Nat} (h : q ≠ tf') :
    (copyTrapframe km tf tf').mem q = km.mem q :=
  update_of_ne h _ _

theorem copyTrapframe_get {km : Kmem} {tf tf' k : Nat} (hk : k < 288) :
    ((copyTrapframe km tf tf').mem tf').get k = if 112 ≤ k ∧
    k < 120 then 0 else (km.mem tf).get k := by
  have hself : (copyTrapframe km tf tf').mem tf' =
      ((km.mem tf').blit 0 288 fun k => (km.mem tf).get k).blit 112 8 fun _ => 0 :=
        update_self _ _ _
  have hpage : k < PGSIZE := hk.trans (by decide)
  rw [hself, Bytes.get_blit, Bytes.get_blit]
  by_cases ha0 : 112 ≤ k ∧ k < 120
  · rw [if_pos ha0, if_pos (by omega)]
  · rw [if_neg ha0, if_neg (by omega), if_pos (by omega), Nat.sub_zero]

theorem Child.memory (h : Child sys p np sys' np') (hr : ForkReady sys p np) :
    (∀ v, v < npages p.sz → p.pagetable.leaf v = none → np'.pagetable.leaf v = none) ∧
    (∀ v pte, v < npages p.sz → p.pagetable.leaf v = some pte →
      ∃ q, np'.pagetable.leaf v = some ⟨q, pte.perm⟩ ∧ q ≠ pte.page ∧ sys'.km.mem q =
      sys.km.mem pte.page) ∧
    (∀ k, k < 288 → (sys'.km.mem np'.trapframe).get k =
      if 112 ≤ k ∧ k < 120 then 0 else (sys.km.mem p.trapframe).get k) ∧
    ∀ v pte, p.pagetable.leaf v = some pte → sys'.km.mem pte.page = sys.km.mem pte.page := by
  obtain ⟨-, rest, km₁, km₂, pt, hfree, hfresh, hcopy, hkm⟩ := h
  have hsub : ∀ q, q ∈ km₁.free → q ∈ sys.km.free ∧ q ≠ np'.trapframe := by
    intro q hq
    have hrest : q ∈ rest := hfresh.free.subset hq
    have hnd := hr.nodup
    rw [hfree] at hnd ⊢
    refine ⟨List.mem_cons_of_mem _ hrest, ?_⟩
    rintro rfl
    exact (List.nodup_cons.mp hnd).1 hrest
  have hnodup : km₁.free.Nodup := by
    have hnd := hr.nodup
    rw [hfree] at hnd
    exact (List.nodup_cons.mp hnd).2.sublist hfresh.free.sublist
  have hunshared : Unshared km₁ p.pagetable :=
    fun v pte hpte hmem => hr.unshared v pte hpte (hsub _ hmem).1
  have hrun : CopyRun p.pagetable pt km₁ (npages p.sz) (uvmcopy km₁ p.pagetable pt p.sz) :=
    uvmcopy_run fun u pte _ => hunshared u pte
  rw [hcopy] at hrun
  have hcopied := hrun.copied
  have htf : np'.trapframe ∈ sys.km.free := by
    rw [hfree]
    exact List.mem_cons_self
  -- the copy would have run into the trapframe of the new table
  have hup : npages p.sz ≤ UPAGES := by
    by_contra hlt
    obtain ⟨perm, hperm⟩ := hr.trapframe
    have hclear := hcopied.clear UPAGES (Nat.lt_of_not_le hlt)
      (by rw [copyPlan_some hperm]; exact Option.some_ne_none _)
    rw [hfresh.trapframe] at hclear
    cases hclear
  have hmemory : ∀ v pte, p.pagetable.leaf v = some pte → km₂.mem pte.page = sys.km.mem pte.page ∧
      pte.page ≠ np'.trapframe := by
    intro v pte hpte
    refine ⟨?_, fun heq => hr.unshared v pte hpte (heq ▸ htf)⟩
    rw [hcopied.kept _ (hunshared v pte hpte), hfresh.mem]
  refine ⟨fun v hv hnone => ?_, fun v pte hv hpte => ?_, fun k hk => ?_, fun v pte hpte => ?_⟩
  · rw [hcopied.hole v (.inr (copyPlan_eq_none.mpr hnone))]
    exact hfresh.clear v (by omega)
  · obtain ⟨q, hq, hleaf⟩ := hcopied.mapped v _ hv (copyPlan_some hpte)
    have hq' := hsub q (List.mem_of_mem_take hq)
    refine ⟨q, hleaf, fun heq => hr.unshared v pte hpte (heq ▸ hq'.1), ?_⟩
    rw [hkm, copyTrapframe_other hq'.2, hcopied.contents hnodup v _ ⟨q, pte.perm⟩ hv
      (copyPlan_some hpte) hleaf, hfresh.mem]
  · obtain ⟨perm, hperm⟩ := hr.trapframe
    rw [hkm, copyTrapframe_get hk, (hmemory _ _ hperm).1]
  · rw [hkm, copyTrapframe_other (hmemory v pte hpte).2, (hmemory v pte hpte).1]

theorem Child.fault_eq (h : Child sys p np sys' np')
    (hidle : ∀ i, i < VMASIZE → (np.vma i).valid = false) (va : Nat) :
    faultVma np' va = faultVma p va := by
  have hsame : faultSlot np' va = faultSlot p va := by
    unfold faultSlot
    refine List.find?_congr fun i hi => ?_
    have hi := List.mem_range.mp hi
    rw [h.vma i hi]
    cases hvalid : (p.vma i).valid with
    | true => rw [if_pos rfl, hvalid]
    | false => rw [if_neg Bool.false_ne_true, hidle i hi, Bool.false_and, Bool.false_and]
  unfold faultVma
  rw [hsame]
  cases hk : faultSlot p va with
  | none => rfl
  | some k =>
    obtain ⟨hlt, hvalid, -⟩ := faultSlot_some hk
    exact congrArg some ((h.vma k hlt).trans (if_pos hvalid))

/-- `sys_munmap` finds the same regions in the child if the stale slots agree. -/
theorem Child.munmap_iff (h : Child sys p np sys' np')
    (hidle : ∀ i, i < VMASIZE → (np.vma i).valid = false) (addr : Nat) :
    munmapVma np' addr = munmapVma p addr ↔ staleVma p np.vma addr = staleVma p p.vma addr := by
  have hvalid : ∀ i, i < VMASIZE → (p.vma i).valid = true → np'.vma i = p.vma i :=
    fun i hi hv => (h.vma i hi).trans (if_pos hv)
  have hstale : ∀ {i}, i < VMASIZE → (p.vma i).valid = false → np'.vma i = np.vma i := fun hi hv =>
    (h.vma _ hi).trans (if_neg (by rw [hv]; exact Bool.false_ne_true))
  have hold : staleVma p np'.vma addr = staleVma p np.vma addr := by
    have hfind : ((List.range ((faultSlot p addr).getD VMASIZE)).find? fun i =>
        !(p.vma i).valid && (np'.vma i).contains addr) =
        (List.range ((faultSlot p addr).getD VMASIZE)).find? fun i => !(p.vma i).valid &&
            (np.vma i).contains addr := by
      refine List.find?_congr fun i hi => ?_
      have hi := (List.mem_range.mp hi).trans_le faultSlot_le
      cases hv : (p.vma i).valid with
      | true => rfl
      | false => rw [hstale hi hv]
    unfold staleVma
    rw [hfind]
    cases hk : (List.range ((faultSlot p addr).getD VMASIZE)).find? fun i => !(p.vma i).valid &&
      (np.vma i).contains addr with
    | none => rfl
    | some k =>
      obtain ⟨hcond, hmem, -⟩ := List.find?_range_eq_some.mp hk
      rw [Bool.and_eq_true, Bool.not_eq_true'] at hcond
      exact congrArg some (hstale ((List.mem_range.mp hmem).trans_le faultSlot_le) hcond.1)
  have hchild : munmapVma np' addr = (staleVma p np.vma addr).or (faultVma p addr) := by
    rw [← hold]
    exact find_contains hvalid
  have hparent : munmapVma p addr = (staleVma p p.vma addr).or (faultVma p addr) :=
    find_contains fun _ _ _ => rfl
  -- what the handler finds is valid, what is stale is not
  have hnot : ∀ {x m}, (∀ i, i < VMASIZE → (p.vma i).valid = false → (m i).valid = false) →
      staleVma p m addr = some x → faultVma p addr ≠ some x := by
    intro x m hm hx hfault
    obtain ⟨i, hi, hv, rfl⟩ := staleVma_some hx
    obtain ⟨k, hk, hkx⟩ := Option.map_eq_some_iff.mp hfault
    have hkv := (faultSlot_some hk).2.1
    rw [hkx, hm i hi hv] at hkv
    cases hkv
  rw [hchild, hparent]
  constructor
  · intro heq
    cases ha : staleVma p np.vma addr with
    | none =>
      cases hb : staleVma p p.vma addr with
      | none => rfl
      | some y =>
        rw [ha, hb] at heq
        exact absurd heq (hnot (fun _ _ h => h) hb)
    | some x =>
      cases hb : staleVma p p.vma addr with
      | none =>
        rw [ha, hb] at heq
        exact absurd heq.symm (hnot (fun i hi _ => hidle i hi) ha)
      | some y =>
        rw [ha, hb] at heq
        exact heq
  · exact fun heq => by rw [heq]

end

/-- A successful `fork` gives the child the parent's address space exactly if no address finds a
slot that a former process has left in the child's table slot, unless it finds the same one in the
parent. -/
theorem fork_duplicates (sys : Sys) (me : Nat) (p np : Proc) (sys' : Sys) (np' : Proc)
    (hr : ForkReady sys p np) (hfork : fork sys me p np = .ok (true, sys', np')) :
    Duplicated sys p sys' np' ↔ ∀ addr, staleVma p np.vma addr = staleVma p p.vma addr := by
  have hchild : Child sys p np sys' np' := fork_child.of_ok hfork rfl
  obtain ⟨hhole, hpage, htrapframe, hmemory⟩ := hchild.memory hr
  refine ⟨fun h addr => (hchild.munmap_iff hr.idle addr).mp (h.munmap addr), fun h => ?_⟩
  exact ⟨hhole, hpage, htrapframe, hmemory, hchild.fault_eq hr.idle,
    fun addr => (hchild.munmap_iff hr.idle addr).mpr (h addr)⟩

/-- A child maps a page of a file at 4096 and exits. -/
def mappedAndGone : List Action :=
  [.fork 0, .openAlloc 1 1 0, .openFinish 1, .mmap 1 4096 1 2 0 0, .exit 1 0, .wait 0 0]

/-- The next child gets its table slot, and `munmap` finds the region of the first child in it. -/
theorem fork_keeps_stale_region : ∃ s s' sys' np', Booted Fs.tinySb s ∧
    Lib.exec (step Fs.tinySb) s mappedAndGone = .next s' ∧
    fork s'.sys 0 (s'.proc 0) (s'.proc 1) = .ok (true, sys', np') ∧
    munmapVma (s'.proc 0) 4096 = none ∧ (munmapVma np' 4096).isSome = true ∧
    ¬ Duplicated s'.sys (s'.proc 0) sys' np' := by
  have hrun : (tinyBoot.bind fun s => (Lib.exec (step Fs.tinySb) s mappedAndGone).next?.bind
      fun s' =>
      (fork s'.sys 0 (s'.proc 0) (s'.proc 1)).toOption.map fun r =>
        (r.1, (munmapVma (s'.proc 0) 4096).isSome, (munmapVma r.2.2 4096).isSome)) =
            some (true, false, true) := by
    decide +kernel
  obtain ⟨s, hs, hbind⟩ := Option.bind_eq_some_iff.mp hrun
  obtain ⟨s', hs', hmap⟩ := Option.bind_eq_some_iff.mp hbind
  obtain ⟨⟨ok, sys', np'⟩, hfork, heq⟩ := Option.map_eq_some_iff.mp hmap
  simp only [Prod.mk.injEq] at heq
  obtain ⟨rfl, hparent, hchild⟩ := heq
  have hok : fork s'.sys 0 (s'.proc 0) (s'.proc 1) = .ok (true, sys', np') :=
    eq_ok_of_toOption hfork
  have hnone : munmapVma (s'.proc 0) 4096 = none :=
    Option.isSome_eq_false_iff.mp hparent |> Option.isNone_iff_eq_none.mp
  refine ⟨s, s', sys', np', tinyBoot_booted hs, Outcome.next?_eq_some.mp hs', hok, hnone,
    hchild, fun h => ?_⟩
  rw [h.munmap 4096, hnone] at hchild
  cases hchild

def oneUserPage : PageTable :=
  ((Node.empty 20).set 255 (some ((Node.empty 21).set 511
    (some ((Node.empty 22).set 510 (some ⟨30, ⟨true, true, false, false⟩⟩)))))).set 0
    (some ((Node.empty 23).set 0 (some ((Node.empty 24).set 0 (some ⟨31, .user⟩)))))

theorem oneUserPage_leaf {v : Nat} {pte : Pte} (h : oneUserPage.leaf v = some pte) :
    pte.page ∈ [30, 31] := by
  unfold PageTable.leaf at h
  split at h
  case isFalse => cases h
  unfold oneUserPage PageTable.table? at h
  rw [Node.entry_set, Node.entry_set] at h
  split at h
  · rename_i n1 h2
    split at h2
    · cases h2
      rw [Node.entry_set] at h
      split at h
      · rw [Option.bind_some, Node.entry_set] at h
        split at h
        · cases h
          decide
        · cases h
      · cases h
    · split at h2
      · cases h2
        rw [Node.entry_set] at h
        split at h
        · rw [Option.bind_some, Node.entry_set] at h
          split at h
          · cases h
            decide
          · cases h
        · cases h
      · cases h2
  · cases h

/-- A parent that is the first process of its table slot. -/
def soleParent : Proc :=
  { Proc.zero with state := .runnable, sz := 4096, pagetable := oneUserPage, trapframe := 30 }

def soleSys : Sys := .start ⟨[1, 2, 3, 4, 5, 6, 7, 8, 9], fun _ => Bytes.zero⟩
    (Fs.Disk.ofImage Fs.tinyImage)

theorem fork_duplicates_soleParent :
    ∃ sys' np', fork soleSys 0 soleParent .zero = .ok (true, sys', np') ∧
    Duplicated soleSys soleParent sys' np' := by
  have hrun : ((fork soleSys 0 soleParent .zero).toOption.map fun r => r.1) = some true :=
    by decide +kernel
  obtain ⟨⟨ok, sys', np'⟩, hfork, rfl⟩ := Option.map_eq_some_iff.mp hrun
  have hok : fork soleSys 0 soleParent .zero = .ok (true, sys', np') := eq_ok_of_toOption hfork
  refine ⟨sys', np', hok, (fork_duplicates soleSys 0 soleParent .zero sys'
    np' ⟨by decide, ?_, ?_, ?_⟩ hok).mpr ?_⟩
  · intro v pte hpte hmem
    have hpages := oneUserPage_leaf hpte
    have hdisjoint : ∀ q ∈ [30, 31], q ∉ soleSys.km.free := by decide
    exact hdisjoint pte.page hpages hmem
  · exact ⟨⟨true, true, false, false⟩, by decide +kernel⟩
  · exact fun i _ => rfl
  · exact fun addr => rfl

end Xv6.Kernel
