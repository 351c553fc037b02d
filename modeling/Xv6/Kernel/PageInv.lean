import Xv6.Kernel.ExecPages
import Xv6.Kernel.Memory
import Xv6.Kernel.References

/-! # Where every page is

The invariant of runs without `mmap`: each page that the allocator was given is free, a
pipe, a page of the kernel or a page of a process, and only one of these.
-/

namespace Xv6.Kernel

open Lib Vm

def State.pages (s : State) (q : Nat) : Nat :=
  s.sys.pages q + ∑ n ∈ Finset.range NPROC, (s.proc n).pages q

/-- Every page of `ram` has one place; `kern` counts the pages of the kernel. -/
structure PageInv (ram : List Nat) (kern : Nat → Nat) (s : State) : Prop where
  nodup : ram.Nodup
  length : ram.length ≤ RAMPAGES
  procs : ∀ n, n < NPROC → ProcInv (s.proc n)
  pipes : PipeInv s.sys
  count : ∀ q, s.pages q + kern q = ram.count q

section

variable {ram : List Nat} {kern : Nat → Nat} {sb : Fs.Superblock} {s s' : State} {sys sys' : Sys}
    {km km' : Kmem}
  {p p' : Proc} {n q x : Nat}

theorem PageInv.room (h : PageInv ram kern s) (hn : n < NPROC) : Room ram s.sys (s.proc n) := by
  refine ⟨h.nodup, h.length, fun q => ?_⟩
  have hcount := h.count q
  have hle := Finset.single_le_sum (f := fun n => (s.proc n).pages q) (fun _ _ => Nat.zero_le _)
    (Finset.mem_range.mpr hn)
  unfold State.pages at hcount
  omega

theorem PageInv.le_one (h : PageInv ram kern s) (q : Nat) : s.sys.pages q ≤ 1 := by
  have hcount := h.count q
  have hone := List.nodup_iff_count_le_one.mp h.nodup q
  unfold State.pages at hcount
  omega

theorem PageInv.update (h : PageInv ram kern s) (hn : n < NPROC) (hpipes : PipeInv sys')
    (hproc : ProcInv p') (hpages : ∀ q, sys'.pages q + p'.pages q = s.sys.pages q +
      (s.proc n).pages q) :
    PageInv ram kern ({ s with sys := sys' }.setProc n p') := by
  refine ⟨h.nodup, h.length, fun m hm => ?_, hpipes, fun q => ?_⟩
  · change ProcInv (Function.update s.proc n p' m)
    by_cases hmn : m = n
    · rw [hmn, Function.update_self]
      exact hproc
    · rw [Function.update_of_ne hmn]
      exact h.procs m hm
  · have htrade := sum_update_trade (fun p : Proc => p.pages q) s.proc (Finset.mem_range.mpr hn) p'
    have hold := h.count q
    have hnew := hpages q
    change sys'.pages q + ∑ m ∈ Finset.range NPROC,
      (Function.update s.proc n p' m).pages q + kern q = _
    unfold State.pages at hold
    omega

theorem PageInv.setProcs {proc : Nat → Proc} (h : PageInv ram kern s)
    (hsame : ∀ m, SameMem (s.proc m) (proc m)) : PageInv ram kern { s with proc := proc } := by
  refine ⟨h.nodup, h.length, fun m hm => (h.procs m hm).same (hsame m), h.pipes, fun q => ?_⟩
  have hsum : ∑ m ∈ Finset.range NPROC, (proc m).pages q = ∑ m ∈ Finset.range NPROC,
      (s.proc m).pages q :=
    Finset.sum_congr rfl fun m _ => (hsame m).pages
  have hcount := h.count q
  unfold State.pages at hcount ⊢
  dsimp only
  rw [hsum]
  exact hcount

theorem PageInv.fileCall (h : PageInv ram kern s) (hn : n < NPROC)
    {f : Sys → Proc → Except Panic (Sys × Proc)}
    (hf : Post (fun _ => True) (fun r => Kept s.sys r.1 ∧ SameMem (s.proc n) r.2)
      (f s.sys (s.proc n))) :
    (ofExcept (s.call n f)).Sat (fun _ => True) (PageInv ram kern) := by
  refine ofExcept_sat (hf.bind ?_)
  rintro ⟨sys', p'⟩ ⟨hk, hm⟩
  refine .pure (h.update hn hk.inv ((h.procs n hn).same hm) fun q => ?_)
  rw [hk.pages q, hm.pages]

theorem PageInv.setKm (h : PageInv ram kern s) (hfree : km.free = s.sys.km.free) :
    PageInv ram kern { s with sys := { s.sys with km := km } } := by
  refine ⟨h.nodup, h.length, h.procs, h.pipes.setKm km, fun q => ?_⟩
  have hpages : Sys.pages { s.sys with km := km } q = s.sys.pages q := by
    unfold Sys.pages
    dsimp only
    rw [hfree]
    rfl
  have hcount := h.count q
  unfold State.pages at hcount ⊢
  dsimp only
  rw [hpages]
  exact hcount

/-! ## Processes -/

theorem reparent_mem (n : Nat) (proc : Nat → Proc) (m : Nat) :
    SameMem (proc m) (State.reparent n proc m) := by
  unfold State.reparent
  split
  · exact ⟨rfl, rfl, rfl, rfl, rfl⟩
  · exact .refl _

theorem PageInv.exitProc {status : Nat} (h : PageInv ram kern s) (hn : n < NPROC)
    (hlive : (s.proc n).state = .runnable) :
    Post (fun _ => True) (PageInv ram kern) (State.exitProc sb s.sys s n (s.proc n) status) := by
  unfold State.exitProc
  apply Post.ite
  · exact fun _ => .throw trivial
  · intro _
    refine (exit_pages h.pipes (h.procs n hn)).bind ?_
    rintro ⟨sys', p'⟩ ⟨hk, hm⟩
    have hs₁ : PageInv ram kern { s with proc := State.reparent n s.proc } :=
      h.setProcs (reparent_mem n s.proc)
    refine .pure (hs₁.update hn hk.inv ⟨hm.vma.trans (h.procs n hn).vma, fun _ => ?_,
      fun hs => ?_⟩ fun q => ?_)
    · rw [hm.pagetable, hm.sz]
      exact (h.procs n hn).mem (by rw [hlive]; decide)
    · rw [hm.state] at hs
      cases hs
    · have hzombie : p'.pages q = (s.proc n).pages q := by
        rw [hm.pages, pages_used ProcState.noConfusion, pages_used (by rw [hlive]; decide)]
      dsimp only
      rw [hk.pages q, hzombie, (reparent_mem n s.proc n).pages]

theorem PageInv.accessProc {va : Nat} {store : Option UInt8} (h : PageInv ram kern s)
    (hn : n < NPROC) (hlive : (s.proc n).state = .runnable) :
    Post (fun _ => True) (PageInv ram kern) (s.accessProc sb n va store) := by
  unfold State.accessProc
  apply Post.ite
  · intro _
    split
    · exact .pure (h.setKm rfl)
    · exact .pure h
  · intro _
    apply Post.bind_of_ok (pageFault_none (h.procs n hn).vma)
    apply Post.ite
    · exact fun _ => h.exitProc hn hlive
    · intro _
      refine .pure (h.update hn h.pipes (h.procs n hn) fun q => rfl)

theorem PageInv.forkProc (h : PageInv ram kern s) (hn : n < NPROC)
    (hlive : (s.proc n).state = .runnable) :
    Post (fun _ => True) (PageInv ram kern) (s.forkProc n) := by
  unfold State.forkProc
  split
  · exact .ok h
  · rename_i c hslot
    obtain ⟨hc, hunused⟩ := freeSlot_some hslot
    refine (fork_pages h.pipes (h.room hn) (h.procs n hn) hlive (h.procs c hc) hunused).bind ?_
    rintro ⟨ok, sys', np⟩ hfork
    refine .pure (h.update hc hfork.inv hfork.proc fun q => ?_)
    have hq := hfork.pages q
    dsimp only at hq ⊢
    have hpipes : sys'.pipes q = s.sys.pipes q := by
      unfold Sys.pipes
      rw [hfork.pipe]
    rw [pages_unused hunused]
    unfold Sys.pages
    omega

theorem PageInv.waitProc {addr : Nat} (h : PageInv ram kern s) (hslot : s.zombieChild n = some x) :
    Post (fun _ => True) (fun r => PageInv ram kern r.2) (s.waitProc n x addr) := by
  obtain ⟨hx, hzombie⟩ := zombieChild_some hslot
  have hused : (s.proc x).state ≠ .unused := by
    rw [hzombie]
    decide
  have hmem := (h.procs x hx).mem hused
  have hsz := ((h.room hx).fits hused).image_le hmem
  have hreap : ∀ km, km.free = s.sys.km.free → Post (fun _ => True) (fun r => PageInv ram kern r.2)
      (freeproc km (s.proc x) >>= fun r => pure
          (true, { s with sys := { s.sys with km := r.1 } }.setProc x r.2)) := by
    intro km hfree
    refine (freeproc_pages hmem hsz).bind ?_
    rintro ⟨km', np⟩ ⟨hcount, hstate, hzero, hvma⟩
    refine .pure (h.update hx (h.pipes.setKm km')
      ⟨hvma.trans (h.procs x hx).vma, fun hs => absurd hstate hs, fun _ => hzero⟩ fun q => ?_)
    have hq := hcount q
    rw [hfree] at hq
    dsimp only at hq ⊢
    rw [pages_unused hstate, pages_used hused]
    have hpipes : Sys.pipes { s.sys with km := km' } q = s.sys.pipes q := rfl
    unfold Sys.pages
    rw [hpipes]
    dsimp only
    omega
  unfold State.waitProc
  dsimp only
  apply Post.ite
  · exact fun _ => hreap _ rfl
  · intro _
    have hout := copyout_free (s.proc n).pagetable s.sys.km addr (bytes32 (s.proc x).xstate)
    split
    · rename_i km hcopy
      rw [hcopy] at hout
      exact .ok (h.setKm hout)
    · rename_i km hcopy
      rw [hcopy] at hout
      exact hreap km hout

/-! ## `sys_exec` -/

theorem freeArgs_count (km : Kmem) (args : List (Nat × List UInt8)) :
    (freeArgs km args).free.count q = km.free.count q + (args.map Prod.fst).count q := by
  induction args generalizing km with
  | nil => rfl
  | cons a args ih =>
    change (freeArgs (kfree km a.1) args).free.count q = _
    rw [ih, kfree, List.map_cons, List.count_cons, List.count_cons]
    omega

theorem fetchArgs_count (p : Proc) (q uargv n i : Nat) (km : Kmem)
    (args : List (Nat × List UInt8)) : (fetchArgs p uargv n i km args).2.1.free.count q +
        ((fetchArgs p uargv n i km args).2.2.map Prod.fst).count q =
      km.free.count q + (args.map Prod.fst).count q := by
  induction n generalizing i km args with
  | zero => rfl
  | succ n ih =>
    unfold fetchArgs
    split
    · rfl
    · split
      · rfl
      · split
        · rfl
        · rename_i page km₁ hk
          have hcount := kalloc_count (q := q) hk
          have happend : ∀ s : List UInt8, ((args ++ [(page, s)]).map Prod.fst).count q =
              (args.map Prod.fst).count q + if page = q then 1 else 0 := by
            intro s
            rw [List.map_append, List.count_append, List.map_singleton, List.count_singleton]
            simp [beq_iff_eq]
          have hmove : ∀ bs, (UserCopy.move km₁ page 0 bs).free = km₁.free := fun _ => rfl
          dsimp only
          split
          · rw [ih, happend, hmove]
            omega
          · dsimp only
            rw [happend, hmove]
            omega

theorem execNamed_pages {inum : Option Nat} {argv : List (List UInt8)} (hinv : PipeInv sys)
    (hroom : Room ram sys p) (hp : ProcInv p) (hused : p.state ≠ .unused) :
    Post (fun _ => True) (fun r => ExecPages sys p r.1 r.2.1 r.2.2)
    (execNamed sb sys p inum argv) := by
  unfold execNamed
  cases inum with
  | none => exact .ok ⟨hinv, rfl, fun _ => rfl, hp, rfl, fun _ => rfl⟩
  | some i =>
    refine iget_quiet.bind ?_
    rintro ⟨k, sys₁⟩ h₁
    have hroom₁ : Room ram sys₁ p :=
      ⟨hroom.nodup, hroom.length, fun q => by rw [h₁.pages]; exact hroom.count q⟩
    refine (exec_pages (h₁.kept hinv).inv hroom₁ hp hused).imp ?_
    intro r hr
    exact ⟨hr.inv, hr.pipe.trans h₁.pipe,
      fun q => by rw [hr.pages q, h₁.free], hr.proc, hr.state, hr.failed⟩

/-- The pages of the arguments are free again on every path out of `sys_exec`. -/
theorem sysExec_pages {path uargv : Nat} {inum : Option Nat} (hinv : PipeInv sys)
    (hroom : Room ram sys p) (hp : ProcInv p) (hused : p.state ≠ .unused) :
    Post (fun _ => True) (fun r => ExecPages sys p r.1 r.2.1 r.2.2)
    (sysExec sb sys p path uargv inum) := by
  unfold sysExec
  apply Post.ite
  · exact fun _ => .ok ⟨hinv, rfl, fun _ => rfl, hp, rfl, fun _ => rfl⟩
  · intro _
    have hcount := fun q => fetchArgs_count p q uargv MAXARG 0 sys.km []
    dsimp only
    generalize fetchArgs p uargv MAXARG 0 sys.km [] = r at hcount ⊢
    obtain ⟨ok, km₁, args⟩ := r
    simp only [List.map_nil, List.count_nil, Nat.add_zero] at hcount
    apply Post.ite
    · intro _
      have hroom₁ : Room ram { sys with km := km₁ } p := by
        refine ⟨hroom.nodup, hroom.length, fun q => ?_⟩
        have hle := hroom.count q
        have hq := hcount q
        have hpipes : Sys.pipes { sys with km := km₁ } q = sys.pipes q := rfl
        unfold Sys.pages at hle ⊢
        rw [hpipes]
        dsimp only
        omega
      refine (execNamed_pages (hinv.setKm km₁) hroom₁ hp hused).bind ?_
      rintro ⟨ok, sys₂, p₂⟩ h₂
      refine .pure ⟨h₂.inv.setKm _, h₂.pipe, fun q => ?_, h₂.proc, h₂.state, h₂.failed⟩
      have hq := hcount q
      have hexec := h₂.pages q
      dsimp only at hexec ⊢
      rw [freeArgs_count]
      omega
    · intro _
      refine .ok ⟨hinv.setKm _, rfl, fun q => ?_, hp, rfl, fun _ => rfl⟩
      have hq := hcount q
      dsimp only
      rw [freeArgs_count, hq]

/-! ## Steps -/

theorem ExecPages.sum {ok : Bool} (h : ExecPages sys p ok sys' p') (q : Nat) :
    sys'.pages q + p'.pages q = sys.pages q + p.pages q := by
  have hpipes : sys'.pipes q = sys.pipes q := by
    unfold Sys.pipes
    rw [h.pipe]
  have hq := h.pages q
  unfold Sys.pages
  omega

theorem GrowPages.sum {ok : Bool} (h : GrowPages sys.km p ok km p') (hused : p.state ≠ .unused)
    (q : Nat) : Sys.pages { sys with km := km } q + p'.pages q = sys.pages q + p.pages q := by
  have hpipes : Sys.pipes { sys with km := km } q = sys.pipes q := rfl
  have hq := h.pages q
  rw [pages_used hused, pages_used (by rw [h.state]; exact hused), h.trapframe]
  unfold Sys.pages
  rw [hpipes]
  unfold Vm.pages at hq
  dsimp only
  omega

theorem munmapSlot_none {addr : Nat} (hvma : p.vma = fun _ => .zero) :
    munmapSlot p addr = none := by
  unfold munmapSlot
  rw [List.find?_eq_none]
  intro i _
  rw [hvma]
  simp [Vma.contains, Vma.zero, u64]

theorem sysMunmap_none {addr len : Nat} (hvma : p.vma = fun _ => .zero) :
    sysMunmap sb sys p addr len = .ok (sys, p) := by
  unfold sysMunmap
  dsimp only
  rw [munmapSlot_none hvma]
  rfl

theorem PageInv.memCall (h : PageInv ram kern s) (hn : n < NPROC)
    {f : Sys → Proc → Except Panic (Sys × Proc)}
    (hf : Post (fun _ => True) (fun r => PipeInv r.1 ∧ ProcInv r.2 ∧
      ∀ q, r.1.pages q + r.2.pages q = s.sys.pages q + (s.proc n).pages q) (f s.sys (s.proc n))) :
    (ofExcept (s.call n f)).Sat (fun _ => True) (PageInv ram kern) := by
  refine ofExcept_sat (hf.bind ?_)
  rintro ⟨sys', p'⟩ ⟨hinv, hp, hpages⟩
  exact .pure (h.update hn hinv hp hpages)

theorem PageInv.effect (h : PageInv ram kern s) (hs : KInv sb s) (a : Action) {finish : Bool}
    (hactor : a.actor = some (n, finish)) (hn : n < NPROC) (hlive : (s.proc n).state = .runnable)
    (hmmap : ∀ len prot flags fd offset, a ≠ .mmap n len prot flags fd offset)
    (hexec : ∀ inum argv, a ≠ .exec n inum argv) :
    (effect sb s a).Sat (fun _ => True) (PageInv ram kern) := by
  have hused : (s.proc n).state ≠ .unused := by
    rw [hlive]
    decide
  have hvma := (h.procs n hn).vma
  have hsame : SameMem (s.proc n) (s.proc n) := .refl _
  cases a with
  | mmap m len prot flags fd offset =>
    cases hactor
    exact absurd rfl (hmmap len prot flags fd offset)
  | munmap m addr len =>
    cases hactor
    refine h.fileCall hn ?_
    rw [sysMunmap_none hvma]
    exact .ok ⟨.refl h.pipes, hsame⟩
  | sbrk m incr =>
    cases hactor
    refine h.memCall hn ?_
    refine (growproc_pages ((h.room hn).fits hused) ((h.procs n hn).mem hused)).bind ?_
    rintro ⟨ok, km, p'⟩ hgrow
    exact .pure ⟨h.pipes.setKm km, ⟨hgrow.vma.trans hvma, fun _ => hgrow.mem,
      fun hs => absurd (hgrow.state.symm.trans hs) hused⟩, fun q => hgrow.sum hused q⟩
  | access m va store =>
    cases hactor
    exact ofExcept_sat (h.accessProc hn hlive)
  | fork m =>
    cases hactor
    exact ofExcept_sat (h.forkProc hn hlive)
  | exit m status =>
    cases hactor
    exact ofExcept_sat (h.exitProc hn hlive)
  | wait m addr =>
    cases hactor
    unfold Kernel.effect
    dsimp only
    split
    · exact ofExcept_sat (h.waitProc ‹_›).map
    · split
      · exact .blocked
      · exact .next h
  | exec m inum argv =>
    cases hactor
    exact absurd rfl (hexec inum argv)
  | openAlloc m inum omode =>
    cases hactor
    exact .guard fun _ => h.fileCall hn (openAlloc_kept h.pipes)
  | openFinish m =>
    cases hactor
    unfold Kernel.effect
    dsimp only
    split
    · rename_i f k omode hheld
      obtain ⟨href, hnone⟩ := (hs.tidy n hn).opening f k omode hheld
      exact h.fileCall hn (openFinish_kept h.pipes (by omega) hnone)
    · exact .blocked
  | pipeAlloc m =>
    cases hactor
    exact h.fileCall hn (pipeAlloc_kept h.pipes h.le_one)
  | pipeFinish m fdarray =>
    cases hactor
    unfold Kernel.effect
    dsimp only
    split
    · exact h.fileCall hn (pipeFinish_kept h.pipes).map
    · exact .blocked
  | dup m fd =>
    cases hactor
    exact h.fileCall hn (sysDup_kept h.pipes)
  | close m fd =>
    cases hactor
    exact h.fileCall hn (sysClose_kept h.pipes)
  | read m fd addr len =>
    cases hactor
    refine h.fileCall hn (sysRead_quiet.bind ?_)
    intro sys' hq
    exact .pure ⟨hq.kept h.pipes, hsame⟩
  | write m fd addr len =>
    cases hactor
    refine h.fileCall hn (sysWrite_quiet.bind ?_)
    intro sys' hq
    exact .pure ⟨hq.kept h.pipes, hsame⟩
  | chdir m inum =>
    cases hactor
    exact .guard fun _ => h.fileCall hn (sysChdir_kept h.pipes)
  | fs c => cases hactor

theorem PageInv.setDisk (h : PageInv ram kern s) (disk : Fs.Disk) :
    PageInv ram kern { s with sys := { s.sys with disk := disk } } := by
  have hquiet : Quiet s.sys { s.sys with disk := disk } := .of_eq rfl rfl rfl
  exact ⟨h.nodup, h.length, h.procs, (hquiet.kept h.pipes).inv, h.count⟩

theorem PageInv.step (h : PageInv ram kern s) (hs : KInv sb s) (a : Action)
    (hmmap : ∀ n len prot flags fd offset, a ≠ .mmap n len prot flags fd offset)
    (hexec : ∀ n inum argv, a ≠ .exec n inum argv) :
    (step sb s a).Sat (fun _ => True) (PageInv ram kern) := by
  unfold Kernel.step
  split
  · rename_i hactor
    cases a with
    | fs c =>
      change Outcome.Sat _ _ (if c.freed.any s.inUse = true then _ else effect.fsCall sb s c)
      split
      · exact .blocked
      · unfold effect.fsCall
        split
        · exact .next (h.setDisk _)
        · exact .blocked
        · exact .fault trivial
        · exact .blocked
    | _ => cases hactor
  · rename_i n finish hactor
    exact .guard fun hready => h.effect hs a hactor hready.1 hready.2.1 (hmmap n) (hexec n)

/-! ## `sys_exec` as a step -/

theorem execNamed_post {h c : Nat → Nat} {inum : Option Nat} {argv : List (List UInt8)}
    (hp : Pre sb h c sys) (hname : ∀ i ∈ inum, (sys.disk.view sb).Allocated sb i) :
    Post Panic.Tame (fun r => Acct sb h h c c sys r.2.1 ∧ SameTables p r.2.2)
      (execNamed sb sys p inum argv) := by
  unfold execNamed
  cases inum with
  | none => exact .ok ⟨.refl hp.inv, ⟨rfl, rfl, rfl, rfl, rfl⟩⟩
  | some i =>
    refine (iget_tame hp (hname i rfl)).bind ?_
    rintro ⟨k, sys₁⟩ ⟨ha₁, -⟩
    refine (exec_acct (ha₁.pre hp)).imp ?_
    rintro r ⟨ha₂, hsame⟩
    exact ⟨ha₁.trans ha₂, hsame⟩

theorem sysExec_post {path uargv : Nat} {inum : Option Nat} (hp : Pre sb p.holds p.inodes sys)
    (ht : Tidy sys p) (hheld : p.held = .nothing)
    (hname : ∀ i ∈ inum, (sys.disk.view sb).Allocated sb i) :
    Post Panic.Tame (fun r => CallPost sb sys p r.2.1 r.2.2)
    (sysExec sb sys p path uargv inum) := by
  unfold sysExec
  apply Post.ite
  · exact fun _ => .ok (.refl hp ht hheld)
  · intro _
    dsimp only
    generalize fetchArgs p uargv MAXARG 0 sys.km [] = r
    have ha₁ : Acct sb p.holds p.holds p.inodes p.inodes sys { sys with km := r.2.1 } :=
      .setKm hp.inv _
    apply Post.ite
    · intro _
      refine (execNamed_post (ha₁.pre hp) hname).bind ?_
      rintro ⟨ok, sys₂, p₂⟩ ⟨ha₂, hsame⟩
      exact .pure (.quiet hp ht hheld ((ha₁.trans ha₂).trans (.setKm ha₂.inv _)) hsame)
    · intro _
      exact .ok (.quiet hp ht hheld (ha₁.trans (.setKm ha₁.inv _)) ⟨rfl, rfl, rfl, rfl, rfl⟩)

theorem memEffect_call {a : Action} (hexec : ∀ n inum argv, a ≠ .exec n inum argv) :
    memEffect sb s (.call a) = Kernel.step sb s a := by
  cases a with
  | exec n inum argv => exact absurd rfl (hexec n inum argv)
  | _ => rfl

theorem PageInv.closesValid (h : PageInv ram kern s) (sb : Fs.Superblock) (a : Action) :
    ClosesValid s a ∨ Kernel.step sb s a = .blocked := by
  cases a with
  | munmap n addr len =>
    by_cases hn : n < NPROC
    · refine Or.inl fun i hi => ?_
      unfold closingSlot at hi
      rw [munmapSlot_none (h.procs n hn).vma] at hi
      cases hi
    · exact Or.inr (if_neg fun hready => hn hready.1)
  | _ => exact Or.inl trivial

/-- The action can change entry `x` of the process table. -/
def MemAction.Changes (s : State) : MemAction → Nat → Prop
  | .call a, x => a.Changes s x
  | .sysExec n _ _ _, x => x = n

theorem PageInv.memEffect (h : PageInv ram kern s) (hs : KInv sb s) (k : Nat) (a : MemAction)
    (hok : NoMmap (k, a)) : (memEffect sb s a).Sat (fun _ => True)
      (fun s' => KInv sb s' ∧ PageInv ram kern s' ∧ ∃ x, a.Changes s x ∧ Moved s x s') := by
  cases a with
  | call a =>
    by_cases hexec : ∀ n inum argv, a ≠ .exec n inum argv
    · rw [memEffect_call hexec]
      have hmmap : ∀ n len prot flags fd offset, a ≠ .mmap n len prot flags fd offset := by
        intro n len prot flags fd offset ha
        rw [ha] at hok
        exact hok
      have hp := h.step hs a hmmap hexec
      rcases h.closesValid sb a with hvalid | hblocked
      · have hk := hs.step a hvalid
        refine ⟨fun hn => ?_, fun _ => trivial⟩
        obtain ⟨hk', hmoved⟩ := hk.of_next hn
        exact ⟨hk', hp.of_next hn, hmoved⟩
      · rw [hblocked]
        exact .blocked
    · push Not at hexec
      obtain ⟨n, inum, argv, rfl⟩ := hexec
      exact .blocked
  | sysExec n path uargv inum =>
    change Outcome.Sat _ _ (if n < NPROC ∧ (s.proc n).state = .runnable ∧
      (s.proc n).held = .nothing ∧ (∀ i ∈ inum, s.Named sb i false) then _ else _)
    refine .guard fun hready => ?_
    obtain ⟨hn, hlive, hheld, hname⟩ := hready
    have hused : (s.proc n).state ≠ .unused := by
      rw [hlive]
      decide
    have hk := hs.call_sat hn hlive (f := fun sys p =>
      sysExec sb sys p (argaddr path) (argaddr uargv) inum >>= fun r => pure (r.2.1, r.2.2))
        ((sysExec_post (hs.pre hn) (hs.tidy n hn) hheld
        fun i hi => (hname i hi).1).bind fun r hr => .pure hr)
    have hp := h.memCall hn (f := fun sys p =>
      sysExec sb sys p (argaddr path) (argaddr uargv) inum >>= fun r => pure (r.2.1, r.2.2))
        ((sysExec_pages h.pipes (h.room hn) (h.procs n hn) hused).bind
        fun r hr => .pure ⟨hr.inv, hr.proc, hr.sum⟩)
    refine ⟨fun hnext => ?_, fun _ => trivial⟩
    obtain ⟨hk', hmoved⟩ := hk.of_next hnext
    exact ⟨hk', hp.of_next hnext, n, rfl, hmoved⟩

end

end Xv6.Kernel
