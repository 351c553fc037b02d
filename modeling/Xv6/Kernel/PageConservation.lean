import Xv6.Kernel.PageInv

/-! # Conservation of physical pages

In every state of a run without `mmap`, whatever calls of `kalloc` fail, each page that
`kinit` put on the free list has exactly one place. A failed call and a child that came
and went leave the free pages as they were.
-/

namespace Xv6.Kernel

open Lib Vm

section

variable {ram : List Nat} {kern : Nat → Nat} {sb : Fs.Superblock} {s s' s₀ : State} {sys sys' : Sys}
    {km km' : Kmem}
  {pt pt' : PageTable} {kstacks kstacks' : List Nat} {L : Memlayout} {p p' : Proc} {n q x : Nat}

/-! ## Scarce memory -/

theorem lend_pages (s : State) (k : Nat) :
    (s.lend k).pages q + (s.sys.km.free.drop k).count q = s.pages q := by
  have hsplit : (s.sys.km.free.take k).count q + (s.sys.km.free.drop k).count q =
      s.sys.km.free.count q := by
    rw [← List.count_append, List.take_append_drop]
  have hpipes : (s.lend k).sys.pipes q = s.sys.pipes q := rfl
  unfold State.pages Sys.pages
  rw [hpipes]
  change (s.sys.km.free.take k).count q + _ + ∑ n ∈ Finset.range NPROC, (s.proc n).pages q + _ = _
  omega

theorem giveBack_pages (s : State) (free : List Nat) :
    (s.giveBack free).pages q = s.pages q + free.count q := by
  have hpipes : (s.giveBack free).sys.pipes q = s.sys.pipes q := rfl
  unfold State.pages Sys.pages
  rw [hpipes]
  change (s.sys.km.free ++ free).count q + _ + ∑ n ∈ Finset.range NPROC, (s.proc n).pages q = _
  rw [List.count_append]
  omega

/-- The pages that a call does not get to see are counted as the kernel's. -/
theorem PageInv.lend (h : PageInv ram kern s) (k : Nat) :
    PageInv ram (fun q => kern q + (s.sys.km.free.drop k).count q) (s.lend k) := by
  refine ⟨h.nodup, h.length, h.procs, h.pipes.setKm _, fun q => ?_⟩
  have hcount := h.count q
  have hlend := lend_pages (q := q) s k
  omega

theorem PageInv.giveBack {free : List Nat} (h : PageInv ram (fun q => kern q + free.count q) s) :
    PageInv ram kern (s.giveBack free) := by
  refine ⟨h.nodup, h.length, h.procs, h.pipes.setKm _, fun q => ?_⟩
  have hcount := h.count q
  rw [giveBack_pages]
  omega

theorem PageInv.memStep {k : Nat} {a : MemAction} (h : PageInv ram kern s) (hs : KInv sb s)
    (hok : NoMmap (k, a)) (hstep : memStep sb s (k, a) = .next s') :
    KInv sb s' ∧ PageInv ram kern s' ∧ ∃ x, a.Changes s x ∧ Moved s x s' := by
  have hsat := (h.lend k).memEffect (hs.setKm _) k a hok
  unfold Kernel.memStep at hstep
  dsimp only at hstep
  split at hstep
  · rename_i s₁ hs₁
    cases hstep
    obtain ⟨hk, hp, x, hchanges, hmoved⟩ := hsat.of_next hs₁
    exact ⟨hk.setKm _, hp.giveBack, x, by cases a <;> exact hchanges, hmoved.others, hmoved.files⟩
  · cases hstep
  · cases hstep

/-! ## Booting -/

theorem nodup_freerange (a b : Nat) : (freerange a b).Nodup := by
  unfold freerange
  rw [List.nodup_reverse]
  exact List.Nodup.map (fun i j h => Nat.add_left_cancel h) List.nodup_range

theorem length_freerange (L : Memlayout) : (freerange L.kend L.top).length ≤ RAMPAGES := by
  have hkend : 0x80000000 ≤ L.kend := L.kend_ge
  have htop : L.top ≤ 0x80000000 + 134217728 := L.top_le
  have hram : RAMPAGES = 32768 := by decide
  unfold freerange
  simp only [List.length_reverse, List.length_map, List.length_range, PGSIZE]
  omega

theorem mappages_nodes {va sz page : Nat} {perm : Perm} {found : Bool}
    (h : mappages km pt va sz page perm = .ok (found, km', pt')) :
    km'.free.count q + pt'.nodes q = km.free.count q + pt.nodes q := by
  unfold mappages at h
  split at h
  · cases h
  · obtain ⟨k, -, -, hgrown, -⟩ := mappagesLoop_post.of_ok h
    exact hgrown.nodes q

theorem kvmmap_nodes {va pa sz : Nat} {perm : Perm}
    (h : kvmmap km pt va pa sz perm = some (km', pt')) :
    km'.free.count q + pt'.nodes q = km.free.count q + pt.nodes q := by
  unfold kvmmap at h
  split at h
  · rename_i km₁ pt₁ hmap
    cases h
    exact mappages_nodes hmap
  · cases h

theorem procMapstacks_count (n i : Nat)
    (h : procMapstacks n i km pt kstacks = some (km', pt', kstacks')) :
    km'.free.count q + (pt'.nodes q + kstacks'.count q) = km.free.count q +
    (pt.nodes q + kstacks.count q) := by
  induction n generalizing i km pt kstacks with
  | zero =>
    cases h
    rfl
  | succ n ih =>
    unfold procMapstacks at h
    split at h
    · cases h
    · rename_i pa km₁ hk
      obtain ⟨⟨km₂, pt₂⟩, hmap, hrest⟩ := Option.bind_eq_some_iff.mp h
      have hcount := kalloc_count (q := q) hk
      have hnodes := kvmmap_nodes (q := q) hmap
      have hstack : (pa :: kstacks).count q = kstacks.count q + if pa = q then 1 else 0 := by
        rw [List.count_cons]
        simp [beq_iff_eq]
      have hih := ih _ hrest
      omega

/-- The pages of the kernel page table and of the kernel stacks come from the free list. -/
theorem kvmmake_count (h : kvmmake L km = some (km', pt', kstacks')) :
    km'.free.count q + (pt'.nodes q + kstacks'.count q) = km.free.count q := by
  unfold kvmmake at h
  split at h
  · cases h
  · rename_i root km₀ hk
    dsimp only at h
    obtain ⟨⟨km₁, pt₁⟩, h₁, h⟩ := Option.bind_eq_some_iff.mp h
    obtain ⟨⟨km₂, pt₂⟩, h₂, h⟩ := Option.bind_eq_some_iff.mp h
    obtain ⟨⟨km₃, pt₃⟩, h₃, h⟩ := Option.bind_eq_some_iff.mp h
    obtain ⟨⟨km₄, pt₄⟩, h₄, h⟩ := Option.bind_eq_some_iff.mp h
    obtain ⟨⟨km₅, pt₅⟩, h₅, h⟩ := Option.bind_eq_some_iff.mp h
    obtain ⟨⟨km₆, pt₆⟩, h₆, h⟩ := Option.bind_eq_some_iff.mp h
    have hroot : PageTable.nodes (Node.empty root) q = if root = q then 1 else 0 :=
      Node.count_empty _ _ _
    have hcount := kalloc_count (q := q) hk
    have hstacks := procMapstacks_count (q := q) _ _ h
    rw [List.count_nil] at hstacks
    have n₁ := kvmmap_nodes (q := q) h₁
    rw [hroot] at n₁
    have n₂ := kvmmap_nodes (q := q) h₂
    have n₃ := kvmmap_nodes (q := q) h₃
    have n₄ := kvmmap_nodes (q := q) h₄
    have n₅ := kvmmap_nodes (q := q) h₅
    have n₆ := kvmmap_nodes (q := q) h₆
    dsimp only at n₂ n₃ n₄ n₅ n₆ hstacks
    omega

theorem PipeInv.start (km : Kmem) (disk : Fs.Disk) : PipeInv (Sys.start km disk) := by
  refine ⟨fun f hf => absurd hf (Nat.lt_irrefl 0), fun _ _ => rfl, fun q w => ?_⟩
  have hclosed : ((Sys.start km disk).pipe q).isOpen w = false := by cases w <;> rfl
  rw [hclosed]
  unfold Sys.ends
  exact Finset.sum_eq_zero fun f _ => isEnd_of_type FileType.noConfusion

theorem PageInv.start {disk : Fs.Disk} (hnodup : ram.Nodup) (hlen : ram.length ≤ RAMPAGES)
    (hcount : ∀ q, km.free.count q + kern q = ram.count q) :
    PageInv ram kern ⟨Sys.start km disk, fun _ => .zero⟩ := by
  refine ⟨hnodup, hlen, fun _ _ => ⟨rfl, fun h => absurd rfl h, fun _ => rfl⟩,
    .start km disk, fun q => ?_⟩
  have hprocs : ∑ _n ∈ Finset.range NPROC, Proc.zero.pages q = 0 :=
    Finset.sum_eq_zero fun _ _ => pages_unused rfl
  have hpipes : (Sys.start km disk).pipes q = 0 := rfl
  unfold State.pages Sys.pages
  dsimp only
  rw [hprocs, hpipes]
  exact hcount q

theorem userinit_pages {disk : Fs.Disk} (hnodup : ram.Nodup) (hlen : ram.length ≤ RAMPAGES)
    (hcount : ∀ q, km.free.count q + kern q = ram.count q) :
    Post (fun _ => True) (fun o => ∀ s, o = some s → PageInv ram kern s) (userinit km disk) := by
  unfold userinit
  refine allocproc_pages.bind ?_
  rintro ⟨alloc, km₁⟩ halloc
  cases alloc with
  | none => exact .pure fun _ h => by cases h
  | some p =>
    obtain ⟨hpages, him, -, -, hvma⟩ := halloc
    dsimp only
    cases hk : kalloc km₁ with
    | none => exact .pure fun _ h => by cases h
    | some r =>
      obtain ⟨mem, km₂⟩ := r
      have htake : ∀ q, Vm.pages km₁ p.pagetable q =
          Vm.pages (km₂.clear mem) p.pagetable q + if mem = q then 1 else 0 :=
            fun q => pages_kalloc hk
      have hmap := mappages_page (km₂.clear mem) mem .user (by decide)
        (him.unmapped 0 le_rfl (by decide))
      rw [Nat.zero_mul] at hmap
      refine (Post.mapError_iff.mpr hmap).bind ?_
      rintro ⟨found, km₃, pt₃⟩ hfound
      cases found with
      | false => exact .pure fun _ h => by cases h
      | true =>
        rcases hfound with ⟨-, hleaf, hp₃⟩ | ⟨hf, -⟩
        · refine iget_quiet.bind ?_
          rintro ⟨k, sys⟩ hquiet
          refine .pure fun s hs => ?_
          cases hs
          have hstart : PageInv ram kern ⟨Sys.start km disk, fun _ => .zero⟩ :=
            .start hnodup hlen hcount
          refine hstart.update (by decide) (hquiet.kept (.start km₃ disk)).inv
            ⟨hvma, fun _ => ?_, fun h => by cases h⟩ fun q => ?_
          · have hone : npages PGSIZE = 0 + 1 := by decide
            dsimp only at hleaf ⊢
            rw [hleaf, hone]
            exact him.update
          · have h₁ := hpages q
            have h₂ := htake q
            have h₃ := hp₃ q
            have hfree : sys.pages q = km₃.free.count q := by
              rw [hquiet.pages]
              rfl
            have hzero : (Sys.start km disk).pages q + Proc.zero.pages q = km.free.count q := rfl
            rw [pages_used ProcState.noConfusion, hfree, hzero]
            dsimp only at h₃ ⊢
            unfold Vm.pages at h₁ h₂ h₃
            omega
        · cases hf

/-! ## Runs -/

theorem BootedIn.start (h : BootedIn sb L pt kstacks s) :
    KInv sb s ∧ PageInv (kinit L).free (fun q => pt.nodes q + kstacks.count q) s := by
  obtain ⟨km, img, halloc, hroot, hmake, hinit⟩ := h
  refine ⟨Booted.kinv ⟨km, img, halloc, hroot, hinit⟩, ?_⟩
  exact (userinit_pages (nodup_freerange _ _) (length_freerange L) fun q => kvmmake_count
    hmake).of_ok hinit s rfl

theorem reach_pages (h : Reach (memStep sb) (fun _ a => NoMmap a) (BootedIn sb L pt kstacks) s) :
    KInv sb s ∧ PageInv (kinit L).free (fun q => pt.nodes q + kstacks.count q) s := by
  refine h.invariant (fun _ => BootedIn.start) ?_
  rintro s ⟨k, a⟩ s' ⟨hk, hp⟩ hok hstep
  obtain ⟨hk', hp', -⟩ := hp.memStep hk hok hstep
  exact ⟨hk', hp'⟩

/-! ## Children that come and go -/

/-- The processes of `s₀` only create children and reap children created since. -/
def visiting (s₀ s : State) : MemAction → Bool
  | .call (.fork _) => true
  | .call (.wait n _) => (s.zombieChild n).all fun x => (s₀.proc x).state = .unused
  | a => a.actor.all fun n => (s₀.proc n).state = .unused

instance : (a : Nat × MemAction) → Decidable (NoMmap a)
  | (_, .call (.mmap ..)) => isFalse id
  | (_, .sysExec ..) | (_, .call (.munmap ..)) | (_, .call (.sbrk ..)) | (_, .call (.access ..))
  | (_, .call (.fork _)) | (_, .call (.exit ..)) | (_, .call (.wait ..)) | (_, .call (.exec ..))
  | (_, .call (.openAlloc ..)) | (_, .call (.openFinish _)) | (_, .call (.pipeAlloc _))
  | (_, .call (.pipeFinish ..)) | (_, .call (.dup ..)) | (_, .call (.close ..))
  | (_, .call (.read ..))
  | (_, .call (.write ..)) | (_, .call (.chdir ..)) | (_, .call (.fs _)) => isTrue trivial

/-- What the processes of `s₀` have is as it was. -/
structure Undisturbed (s₀ s : State) : Prop where
  procs : ∀ m, m < NPROC → (s₀.proc m).state ≠ .unused →
    { s.proc m with parent := (s₀.proc m).parent } = s₀.proc m
  files : ∀ f, 0 < s₀.sys.ref f → (s.sys.file f).core = (s₀.sys.file f).core

theorem Undisturbed.mem (h : Undisturbed s₀ s) (hx : x < NPROC)
    (hused : (s₀.proc x).state ≠ .unused) : SameMem (s₀.proc x) (s.proc x) := by
  rw [← h.procs x hx hused]
  exact ⟨rfl, rfl, rfl, rfl, rfl⟩

theorem Undisturbed.holds (h : Undisturbed s₀ s) (hx : x < NPROC)
    (hused : (s₀.proc x).state ≠ .unused) : (s.proc x).holds = (s₀.proc x).holds := by
  rw [← h.procs x hx hused]
  exact holds_congr rfl rfl rfl

/-- The entry that an action changes did not belong to a process of `s₀`. -/
theorem Undisturbed.changed {a : MemAction} (h : Undisturbed s₀ s) (hv : visiting s₀ s a = true)
    (hx : x < NPROC) (hc : a.Changes s x) : (s₀.proc x).state = .unused := by
  cases a with
  | sysExec n path uargv inum =>
    cases hc
    exact of_decide_eq_true hv
  | call a =>
    cases a with
    | fork n =>
      by_contra hused
      exact hused ((h.mem hx hused).state.symm.trans (hc hx))
    | wait n addr =>
      change (s.zombieChild n).all _ = true at hv
      rw [hc hx] at hv
      exact of_decide_eq_true hv
    | fs c => exact absurd hx hc
    | _ =>
      obtain ⟨finish, hactor⟩ := hc
      cases hactor
      exact of_decide_eq_true hv

theorem KInv.holder {f : Nat} (hs : KInv sb s) (hf : 0 < s.sys.ref f) :
    ∃ m, m < NPROC ∧ (s.proc m).state ≠ .unused ∧ 0 < (s.proc m).holds f := by
  rw [hs.files f] at hf
  obtain ⟨m, hm, hpos⟩ := Finset.sum_pos_iff.mp hf
  have hlt := Finset.mem_range.mp hm
  refine ⟨m, hlt, fun hunused => ?_, hpos⟩
  have hbare := hs.bare m hlt (by rw [hunused]; decide)
  rw [hbare.holds] at hpos
  exact absurd hpos (Nat.lt_irrefl 0)

theorem Undisturbed.step (h : Undisturbed s₀ s) (hs₀ : KInv sb s₀) (hs : KInv sb s)
    (hx : x < NPROC → (s₀.proc x).state = .unused) (hmoved : Moved s x s') : Undisturbed s₀ s' := by
  refine ⟨fun m hm hused => ?_, fun f hf => ?_⟩
  · have hmx : m ≠ x := by
      rintro rfl
      exact hused (hx hm)
    have hproc := h.procs m hm hused
    rw [← hmoved.others m hmx] at hproc
    exact hproc
  · rw [← h.files f hf]
    refine hmoved.files f fun hlt => ?_
    -- some process of `s₀` holds `f`, and it is not the one that moved
    obtain ⟨m, hm, hused, hpos⟩ := hs₀.holder hf
    have hmx : m ≠ x := by
      rintro rfl
      exact hused (hx hm)
    have hroom := hs.room hm hlt hmx f
    rw [h.holds hm hused] at hroom
    omega

theorem reach_undisturbed (hs₀ : KInv sb s₀) (hp₀ : PageInv ram kern s₀)
    (h : Reach (memStep sb) (fun s a => NoMmap a ∧ visiting s₀ s a.2) (fun s => s = s₀) s) :
    KInv sb s ∧ PageInv ram kern s ∧ Undisturbed s₀ s := by
  refine h.invariant (I := fun s => KInv sb s ∧ PageInv ram kern s ∧ Undisturbed s₀ s) ?_ ?_
  · rintro s rfl
    exact ⟨hs₀, hp₀, fun _ _ _ => rfl, fun _ _ => rfl⟩
  · rintro s ⟨k, a⟩ s' ⟨hk, hp, hu⟩ ⟨hok, hv⟩ hstep
    obtain ⟨hk', hp', x, hchanges, hmoved⟩ := hp.memStep hk hok hstep
    exact ⟨hk', hp', hu.step hs₀ hk (fun hx => hu.changed hv hx hchanges) hmoved⟩

theorem Undisturbed.ref {f : Nat} (h : Undisturbed s₀ s) (hs₀ : KInv sb s₀) (hs : KInv sb s)
    (hgone : ∀ m, m < NPROC → (s₀.proc m).state = .unused → (s.proc m).state = .unused) :
    s.sys.ref f = s₀.sys.ref f := by
  rw [hs.files, hs₀.files]
  refine Finset.sum_congr rfl fun m hm => ?_
  have hlt := Finset.mem_range.mp hm
  by_cases hunused : (s₀.proc m).state = .unused
  · have hbare₀ := hs₀.bare m hlt (by rw [hunused]; decide)
    have hbare := hs.bare m hlt (by rw [hgone m hlt hunused]; decide)
    rw [hbare.holds, hbare₀.holds]
  · rw [h.holds hlt hunused]

theorem Undisturbed.pipes (h : Undisturbed s₀ s) (hp₀ : PipeInv s₀.sys) (hp : PipeInv s.sys)
    (href : ∀ f, s.sys.ref f = s₀.sys.ref f) : s.sys.pipes q = s₀.sys.pipes q := by
  have hends : ∀ w, s.sys.ends q w = s₀.sys.ends q w := by
    intro w
    unfold Sys.ends
    refine Finset.sum_congr rfl fun f _ => ?_
    by_cases hf : s₀.sys.ref f = 0
    · have htype₀ := hp₀.untyped f hf
      have htype := hp.untyped f ((href f).trans hf)
      rw [isEnd_of_type (by rw [htype]; exact FileType.noConfusion),
        isEnd_of_type (by rw [htype₀]; exact FileType.noConfusion)]
    · change (s.sys.file f).core.isEnd q w = (s₀.sys.file f).core.isEnd q w
      rw [h.files f (Nat.pos_of_ne_zero hf)]
  have hopen : ∀ w, (s.sys.pipe q).isOpen w = (s₀.sys.pipe q).isOpen w := by
    intro w
    have hw := hends w
    rw [hp.ends, hp₀.ends] at hw
    cases h₁ : (s.sys.pipe q).isOpen w <;> cases h₂ : (s₀.sys.pipe q).isOpen w <;> simp_all
  have hread : (s.sys.pipe q).readopen = (s₀.sys.pipe q).readopen := hopen false
  have hwrite : (s.sys.pipe q).writeopen = (s₀.sys.pipe q).writeopen := hopen true
  unfold Sys.pipes
  rw [hread, hwrite]

theorem Undisturbed.free (h : Undisturbed s₀ s) (hs₀ : KInv sb s₀) (hs : KInv sb s)
    (hp₀ : PageInv ram kern s₀) (hp : PageInv ram kern s)
    (hgone : ∀ m, m < NPROC → (s₀.proc m).state = .unused → (s.proc m).state = .unused) :
    s.sys.km.free.Perm s₀.sys.km.free := by
  refine List.perm_iff_count.mpr fun q => ?_
  have hpipes : s.sys.pipes q = s₀.sys.pipes q :=
    h.pipes hp₀.pipes hp.pipes fun f => h.ref hs₀ hs hgone
  have hprocs : ∑ m ∈ Finset.range NPROC, (s.proc m).pages q = ∑ m ∈ Finset.range NPROC,
      (s₀.proc m).pages q := by
    refine Finset.sum_congr rfl fun m hm => ?_
    have hlt := Finset.mem_range.mp hm
    by_cases hunused : (s₀.proc m).state = .unused
    · rw [pages_unused hunused, pages_unused (hgone m hlt hunused)]
    · exact (h.mem hlt hunused).pages
  have hcount := hp.count q
  have hcount₀ := hp₀.count q
  unfold State.pages Sys.pages at hcount hcount₀
  omega

/-! ## Calls that fail -/

theorem PageInv.fork_failed {sys' : Sys} {np : Proc} {c : Nat} (h : PageInv ram kern s)
    (hn : n < NPROC) (hlive : (s.proc n).state = .runnable) (hslot : s.freeSlot = some c)
    (hfork : Kernel.fork s.sys n (s.proc n) (s.proc c) = .ok (false, sys', np)) :
    sys'.km.free.Perm s.sys.km.free := by
  obtain ⟨hc, hunused⟩ := freeSlot_some hslot
  have hpost := (fork_pages h.pipes (h.room hn) (h.procs n hn) hlive (h.procs c hc) hunused).of_ok
    hfork
  refine List.perm_iff_count.mpr fun q => ?_
  have hq := hpost.pages q
  rw [pages_unused hpost.state] at hq
  exact hq

theorem PageInv.sysExec_failed {path uargv : Nat} {inum : Option Nat} (h : PageInv ram kern s)
    (hn : n < NPROC) (hlive : (s.proc n).state = .runnable)
    (hexec : sysExec sb s.sys (s.proc n) path uargv inum = .ok (false, sys', p')) :
    sys'.km.free.Perm s.sys.km.free ∧ p' = s.proc n := by
  have hused : (s.proc n).state ≠ .unused := by
    rw [hlive]
    decide
  have hpost := (sysExec_pages h.pipes (h.room hn) (h.procs n hn) hused).of_ok hexec
  have hsame := hpost.failed rfl
  refine ⟨List.perm_iff_count.mpr fun q => ?_, hsame⟩
  have hq := hpost.pages q
  dsimp only at hsame hq
  rw [hsame] at hq
  omega

theorem PageInv.growproc_failed {i : Int} (h : PageInv ram kern s) (hn : n < NPROC)
    (hlive : (s.proc n).state = .runnable)
    (hgrow : growproc s.sys.km (s.proc n) i = .ok (false, km', p')) :
    p'.pagetable.leaf = (s.proc n).pagetable.leaf ∧
      ∀ q, km'.free.count q + p'.pagetable.nodes q = s.sys.km.free.count q +
      (s.proc n).pagetable.nodes q := by
  have hused : (s.proc n).state ≠ .unused := by
    rw [hlive]
    decide
  have hpost := (growproc_pages ((h.room hn).fits hused) ((h.procs n hn).mem hused)).of_ok hgrow
  have hleaf := (hpost.failed rfl).1
  refine ⟨hleaf, fun q => ?_⟩
  have hq := hpost.pages q
  unfold Vm.pages at hq
  dsimp only at hleaf hq
  rw [hleaf] at hq
  omega

/-- In every state of a run without `mmap`, in which each call gets to see as many free
pages as it may, every page of `kinit` has exactly one place: on the free list, as a pipe,
a trapframe, a page-table node or a user page of one process, as a node of the kernel page
table or as a kernel stack. A failed `fork` or `exec` leaves the free pages as they were,
and a failed `sbrk` does so but for new nodes of the page table. So does a run in which
the present processes only create children and reap them, once all children are gone. -/
theorem page_conservation (sb : Fs.Superblock) (L : Memlayout) (kpt : PageTable)
    (kstacks : List Nat) (s : State)
    (hreach : Reach (memStep sb) (fun _ a => NoMmap a) (BootedIn sb L kpt kstacks) s) :
    (∀ q, s.sys.km.free.count q + s.sys.pipes q + ∑ n ∈ Finset.range NPROC, (s.proc n).pages q +
      (kpt.nodes q + kstacks.count q) = if q ∈ (kinit L).free then 1 else 0) ∧
    (∀ n k, n < NPROC → (s.proc n).state = .runnable →
      (∀ c sys' np, s.freeSlot = some c →
        Kernel.fork (s.lend k).sys n (s.proc n) (s.proc c) = .ok (false, sys', np) →
        sys'.km.free.Perm (s.lend k).sys.km.free) ∧
      (∀ path uargv inum sys' p', sysExec sb (s.lend k).sys (s.proc n) path uargv inum =
        .ok (false, sys', p') →
        sys'.km.free.Perm (s.lend k).sys.km.free ∧ p' = s.proc n) ∧
      ∀ i km' p', growproc (s.lend k).sys.km (s.proc n) i = .ok (false, km', p') →
        p'.pagetable.leaf = (s.proc n).pagetable.leaf ∧
        ∀ q, km'.free.count q + p'.pagetable.nodes q =
          (s.lend k).sys.km.free.count q + (s.proc n).pagetable.nodes q) ∧
    ∀ s', Reach (memStep sb) (fun t a => NoMmap a ∧ visiting s t a.2) (fun t => t = s) s' →
      (∀ m, m < NPROC → (s.proc m).state = .unused → (s'.proc m).state = .unused) →
      s'.sys.km.free.Perm s.sys.km.free := by
  obtain ⟨hk, hp⟩ := reach_pages hreach
  refine ⟨fun q => ?_, fun n k hn hlive => ⟨?_, ?_, ?_⟩, fun s' hrun hgone => ?_⟩
  · have hcount := hp.count q
    unfold State.pages Sys.pages at hcount
    rw [hcount, hp.nodup.count]
  · exact fun c sys' np hslot => (hp.lend k).fork_failed hn hlive hslot
  · exact fun path uargv inum sys' p' => (hp.lend k).sysExec_failed hn hlive
  · exact fun i km' p' => (hp.lend k).growproc_failed hn hlive
  · obtain ⟨hk', hp', hu⟩ := reach_undisturbed hk hp hrun
    exact hu.free hk hk' hp hp' hgone

/-- Memory for the kernel, its stacks and a few processes. -/
def tinyLayout : Memlayout :=
  ⟨KERNBASE + 4096, KERNBASE + 2 * 4096, KERNBASE + 122 * 4096, by decide, by decide⟩

/-- A child is created, exits and is reaped. -/
def childRun : List (Nat × MemAction) :=
  [(20, .call (.fork 0)), (20, .call (.exit 1 0)), (20, .call (.wait 0 0))]

def tinyBootIn : Option (PageTable × List Nat × State) :=
  (kvmmake tinyLayout (kinit tinyLayout)).bind fun r =>
    match userinit r.1 (Fs.Disk.ofImage Fs.tinyImage) with
    | .ok (some s) => some (r.2.1, r.2.2, s)
    | _ => none

theorem tinyBootIn_booted {kpt : PageTable} (h : tinyBootIn = some (kpt, kstacks, s)) :
    BootedIn Fs.tinySb tinyLayout kpt kstacks s := by
  obtain ⟨⟨km, pt, stk⟩, hmake, hinit⟩ := Option.bind_eq_some_iff.mp h
  dsimp only at hinit
  split at hinit
  · rename_i s' hs'
    cases hinit
    refine ⟨km, Fs.tinyImage, Fs.tiny_allocInv, ?_, hmake, hs'⟩
    rw [Fs.tiny_view]
    exact ⟨by decide, by decide⟩
  · cases hinit

set_option maxRecDepth 100000 in
theorem page_conservation_childRun : ∃ kpt kstacks s s',
    Reach (memStep Fs.tinySb) (fun _ a => NoMmap a) (BootedIn Fs.tinySb tinyLayout kpt kstacks) s ∧
    Lib.exec (memStep Fs.tinySb) s childRun = .next s' ∧ s'.sys.km.free.Perm s.sys.km.free := by
  have hrun : (tinyBootIn.bind fun r => (Lib.exec (memStep Fs.tinySb) r.2.2 childRun).next?.map
      fun s' =>
      (decide (Guarded (memStep Fs.tinySb) (fun t a => NoMmap a ∧ visiting r.2.2 t a.2)
        r.2.2 childRun),
        decide (∀ m, m < NPROC → (r.2.2.proc m).state = .unused → (s'.proc m).state = .unused))) =
        some (true, true) := by
    decide +kernel
  obtain ⟨⟨kpt, kstacks, s⟩, hs, hmap⟩ := Option.bind_eq_some_iff.mp hrun
  obtain ⟨s', hs', heq⟩ := Option.map_eq_some_iff.mp hmap
  simp only [Prod.mk.injEq, decide_eq_true_eq] at heq
  have hnext := Outcome.next?_eq_some.mp hs'
  have hstart : Reach (memStep Fs.tinySb) (fun t a => NoMmap a ∧ visiting s t a.2)
      (fun t => t = s) s := .start rfl
  have hreach := hstart.of_exec heq.1 hnext
  have hboot : Reach (memStep Fs.tinySb) (fun _ a => NoMmap a)
      (BootedIn Fs.tinySb tinyLayout kpt kstacks) s :=
    .start (tinyBootIn_booted hs)
  exact ⟨kpt, kstacks, s, s', hboot, hnext,
    (page_conservation Fs.tinySb tinyLayout kpt kstacks s hboot).2.2 s' hreach heq.2⟩

end

end Xv6.Kernel
