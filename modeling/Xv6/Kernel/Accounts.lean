import Xv6.Kernel.Holders
import Xv6.Kernel.Syscall

/-! # The accounts of every call

For each call: the references in the tables of the calling process and the reference
counts change together, no call panics for want of a reference, and files that stay
open stay the same files.
-/

namespace Xv6.Kernel

open Lib Vm

/-- The panics that are left when references are accounted for: those of `vm.c`,
those for lack of blocks, inodes or table entries, `init` exiting, and `filewrite` through a
slot of `vma` that is not valid. -/
def Panic.Tame : Panic → Prop
  | .vm _ | .filewrite | .igetNoInodes | .initExiting | .loadseg => True
  | .fs f => f = .ballocOutOfBlocks ∨ f = .iallocNoInodes
  | .filedup | .fileclose | .fileread | .ilock | .iputNull => False

/-- The file of a call in progress is new and not open; the files in the tables are
open. -/
structure Tidy (sys : Sys) (p : Proc) : Prop where
  opening : ∀ f k omode, p.held = .opening f k omode → sys.ref f = 1 ∧ (sys.file f).type = .none
  opened : ∀ f, 0 < p.visible f → (sys.file f).type ≠ .none

/-- What holds after a call of process `p` that leaves it with state `p'`. -/
structure CallPost (sb : Fs.Superblock) (sys : Sys) (p : Proc) (sys' : Sys) (p' : Proc) : Prop where
  called : Called sb p.holds p'.holds p.inodes p'.inodes sys sys'
  /-- files that stay in the tables stay the same -/
  same : ∀ f, 0 < p.visible f → 0 < p'.visible f → (sys'.file f).core = (sys.file f).core
  tidy : Tidy sys' p'
  state : p'.state = p.state
  cwd : p'.cwd.isSome = p.cwd.isSome

section

variable {sb : Fs.Superblock} {h h' c c' : Nat → Nat} {sys sys' : Sys} {p p' : Proc} {f k : Nat}

theorem visible_le_holds (p : Proc) (f : Nat) : p.visible f ≤ p.holds f := by
  simp only [Proc.holds, Pi.add_apply]
  omega

theorem holds_of_nothing (hp : p.held = .nothing) : p.holds = p.visible := by
  simp only [Proc.holds, hp, Held.fresh, add_zero]

theorem CallPost.of_acct (hp : Pre sb p.holds p.inodes sys) (ht : Tidy sys p)
    (ha : Acct sb p.holds p'.holds p.inodes p'.inodes sys sys') (hheld : p'.held = .nothing)
    (hsub : ∀ f, 0 < p'.visible f → 0 < p.visible f) (hstate : p'.state = p.state)
    (hcwd : p'.cwd.isSome = p.cwd.isSome) : CallPost sb sys p sys' p' := by
  have hsame : ∀ f, 0 < p'.visible f → (sys'.file f).core = (sys.file f).core := fun f hf =>
    (ha.keep f (Nat.lt_of_lt_of_le hf ((visible_le_holds p' f).trans ((ha.pre hp).files f)))).2
  refine ⟨ha.called, fun f _ => hsame f, ⟨fun f k om h => ?_, fun f hf => ?_⟩, hstate, hcwd⟩
  · rw [hheld] at h
    cases h
  · rw [File.type_core (hsame f hf)]
    exact ht.opened f (hsub f hf)

theorem CallPost.of_visible (hp : Pre sb p.holds p.inodes sys) (ht : Tidy sys p)
    (hheld : p.held = .nothing) (ha : Acct sb p.holds p'.visible p.inodes p.inodes sys sys')
    (hheld' : p'.held = .nothing) (hsub : ∀ f, 0 < p'.visible f → 0 < p.visible f)
    (hstate : p'.state = p.state) (hcwd : p'.cwd = p.cwd) : CallPost sb sys p sys' p' := by
  refine .of_acct hp ht ?_ hheld' hsub hstate (by rw [hcwd])
  rw [holds_of_nothing hheld', inodes_congr hcwd (hheld'.trans hheld.symm)]
  exact ha

theorem CallPost.quiet (hp : Pre sb p.holds p.inodes sys) (ht : Tidy sys p)
    (hheld : p.held = .nothing) (ha : Acct sb p.holds p.holds p.inodes p.inodes sys sys')
    (hsame : SameTables p p') : CallPost sb sys p sys' p' := by
  have hvis := visible_congr hsame.ofile hsame.vma hsame.held
  refine .of_visible hp ht hheld ?_ (hsame.held.trans hheld) (fun f hf => ?_) hsame.state hsame.cwd
  · rw [hvis, ← holds_of_nothing hheld]
    exact ha
  · rwa [hvis] at hf

theorem CallPost.refl (hp : Pre sb p.holds p.inodes sys) (ht : Tidy sys p)
    (hheld : p.held = .nothing) : CallPost sb sys p sys p :=
  .quiet hp ht hheld (.refl hp.inv) ⟨rfl, rfl, rfl, rfl, rfl⟩

theorem CallPost.dup (hp : Pre sb p.holds p.inodes sys) (ht : Tidy sys p)
    (hheld : p.held = .nothing) (hf : 0 < p.visible f) (hvis : p'.visible = p.visible + only f)
    (ha : Acct sb p.holds (p.holds + only f) p.inodes p.inodes sys sys') (hheld' : p'.held = p.held)
    (hcwd : p'.cwd = p.cwd) (hstate : p'.state = p.state) : CallPost sb sys p sys' p' := by
  refine .of_visible hp ht hheld ?_ (hheld'.trans hheld) (fun g hg => ?_) hstate hcwd
  · rw [hvis, ← holds_of_nothing hheld]
    exact ha
  · rw [hvis] at hg
    by_cases hgf : g = f
    · rw [hgf]
      exact hf
    · simpa [only_ne hgf] using hg

theorem CallPost.drop (hp : Pre sb p.holds p.inodes sys) (ht : Tidy sys p)
    (hheld : p.held = .nothing) (hvis : p.visible = p'.visible + only f)
    (ha : Acct sb (p'.visible + only f) p'.visible p.inodes p.inodes sys sys')
    (hheld' : p'.held = p.held) (hcwd : p'.cwd = p.cwd) (hstate : p'.state = p.state) :
    CallPost sb sys p sys' p' := by
  refine .of_visible hp ht hheld ?_ (hheld'.trans hheld) (fun g hg => ?_) hstate hcwd
  · rw [holds_of_nothing hheld, hvis]
    exact ha
  · rw [hvis]
    simp only [Pi.add_apply]
    omega

/-! ## Looking up a descriptor -/

theorem argfd_some {r fd : Nat} (h : argfd p r = some (fd, f)) :
    fd < NOFILE ∧ p.ofile fd = some f := by
  unfold argfd at h
  dsimp only at h
  split at h
  · cases h
  · rename_i hfd
    simp only [Option.map_eq_some_iff, Prod.mk.injEq] at h
    obtain ⟨g, hg, rfl, rfl⟩ := h
    refine ⟨?_, hg⟩
    omega

theorem fdalloc_some {fd : Nat} (h : fdalloc p f = some (fd, p')) :
    fd < NOFILE ∧ p.ofile fd = none ∧ p' = p.setOfile fd (some f) := by
  unfold fdalloc at h
  split at h
  · rename_i fd' hfind
    cases h
    refine ⟨List.mem_range.mp (List.mem_of_find?_eq_some hfind), ?_, rfl⟩
    simpa using List.find?_some hfind
  · cases h

theorem visible_of_ofile {fd : Nat} (hfd : fd < NOFILE) (h : p.ofile fd = some f) :
    0 < p.visible f := by
  rw [visible_close hfd h]
  simp only [Pi.add_apply, only_self]
  omega

theorem visible_of_vma {i : Nat} (hi : i < VMASIZE) (h : (p.vma i).valid = true) :
    0 < p.visible (p.vma i).f := by
  rw [@visible_unmap p i { p.vma i with valid := false } hi h rfl]
  simp only [Pi.add_apply, only_self]
  omega

/-! ## `dup` and `close` -/

theorem sysDup_post {fd : Nat} (hp : Pre sb p.holds p.inodes sys) (ht : Tidy sys p)
    (hheld : p.held = .nothing) :
    Post Panic.Tame (fun r => CallPost sb sys p r.1 r.2) (sysDup sys p fd) := by
  unfold sysDup
  split
  · exact .ok (.refl hp ht hheld)
  · rename_i fd' f hfd
    obtain ⟨hlt, hof⟩ := argfd_some hfd
    have hvis := visible_of_ofile hlt hof
    split
    · exact .ok (.refl hp ht hheld)
    · rename_i fd'' p' hnew
      obtain ⟨hlt', hnone, rfl⟩ := fdalloc_some hnew
      obtain ⟨sys', hr, ha, -⟩ := filedup_acct hp (Nat.lt_of_lt_of_le hvis (visible_le_holds p f))
      exact Post.bind_of_ok hr (.pure (.dup hp ht hheld hvis (visible_open hlt' hnone f) ha
        rfl rfl rfl))

theorem sysClose_post {fd : Nat} (hp : Pre sb p.holds p.inodes sys) (ht : Tidy sys p)
    (hheld : p.held = .nothing) :
    Post Panic.Tame (fun r => CallPost sb sys p r.1 r.2) (sysClose sb sys p fd) := by
  unfold sysClose
  split
  · exact .ok (.refl hp ht hheld)
  · rename_i fd' f hfd
    obtain ⟨hlt, hof⟩ := argfd_some hfd
    have hclose := visible_close hlt hof
    have hp' := hp
    rw [holds_of_nothing hheld, hclose] at hp'
    obtain ⟨sys', hr, ha⟩ := fileclose_acct hp'
    exact Post.bind_of_ok hr (.pure (.drop hp ht hheld hclose ha rfl rfl rfl))

/-! ## `mmap`, `munmap` and `sbrk` -/

theorem sysMmap_post {len prot flags fd offset : Nat} (hp : Pre sb p.holds p.inodes sys)
    (ht : Tidy sys p) (hheld : p.held = .nothing) :
    Post Panic.Tame (fun r => CallPost sb sys p r.2.1 r.2.2)
    (sysMmap sys p len prot flags fd offset) := by
  have hrefl : Post Panic.Tame (fun r : Option Nat × Sys × Proc => CallPost sb sys p r.2.1 r.2.2)
      (.ok (none, sys, p)) := .ok (.refl hp ht hheld)
  unfold sysMmap
  split
  · exact hrefl
  · rename_i fd' f hfd
    obtain ⟨hlt, hof⟩ := argfd_some hfd
    have hvis := visible_of_ofile hlt hof
    refine Post.ite (fun _ => hrefl) fun _ => Post.ite (fun _ => hrefl) fun _ => ?_
    split
    · exact hrefl
    · rename_i i hfind
      have hi := List.mem_range.mp (List.mem_of_find?_eq_some hfind)
      have hfree : (p.vma i).valid = false := by simpa using List.find?_some hfind
      obtain ⟨sys', hr, ha, -⟩ := filedup_acct hp (Nat.lt_of_lt_of_le hvis (visible_le_holds p f))
      have hmap : ∀ (m : Vma) (sz : Nat), m.valid = true → m.f = f →
          ({ p.setVma i m with sz := sz } : Proc).visible = p.visible + only f := by
        intro m sz hm hf
        rw [← hf, ← visible_map hi hfree hm]
        exact visible_congr rfl rfl rfl
      exact Post.bind_of_ok hr (.pure (.dup hp ht hheld hvis (hmap _ _ rfl rfl) ha rfl rfl rfl))

/-- The slot whose file `sys_munmap` closes. -/
def closingSlot (p : Proc) (addr len : Nat) : Option Nat :=
  match munmapSlot p (PGROUNDDOWN (argaddr addr)) with
  | some i =>
    if (p.vma i).addr = PGROUNDDOWN (argaddr addr) ∧
      ((p.vma i).trim (pgRoundUpInt (argint len))).len = 0 then some i else none
  | none => none

theorem filewrite_tame {pt : PageTable} {addr : Nat} {n : Int} (hp : Pre sb h c sys) :
    Post Panic.Tame (fun sys' => Acct sb h h c c sys sys') (filewrite sb pt sys f addr n) := by
  refine (filewrite_acct hp).mono (fun e he => ?_) fun _ hq => hq.1
  rcases he with rfl | ⟨rfl, -⟩
  · exact Or.inl rfl
  · trivial

theorem writeback_acct {pt : PageTable} {m : Vma} {addr : Nat} {n : Int} (hp : Pre sb h c sys) :
    Post Panic.Tame (fun sys' => Acct sb h h c c sys sys')
      (writeback sb pt sys m addr n) :=
  Post.ite (fun _ => filewrite_tame hp) fun _ => .ok (.refl hp.inv)

theorem sysMunmap_post {addr len : Nat} (hp : Pre sb p.holds p.inodes sys) (ht : Tidy sys p)
    (hheld : p.held = .nothing) (hclose : ∀ i, closingSlot p addr len = some i →
      (p.vma i).valid = true) :
    Post Panic.Tame (fun r => CallPost sb sys p r.1 r.2) (sysMunmap sb sys p addr len) := by
  unfold sysMunmap
  dsimp only
  unfold closingSlot at hclose
  split
  · exact .pure (.refl hp ht hheld)
  · rename_i i hfind
    have hi : i < VMASIZE := List.mem_range.mp (List.mem_of_find?_eq_some hfind)
    rw [hfind] at hclose
    refine Post.ite (fun haddr => ?_) fun _ => .pure (.refl hp ht hheld)
    refine (writeback_acct hp).bind fun sys₁ ha₁ => ?_
    refine Post.bind (Post.mapError_any fun _ => trivial) ?_
    rintro ⟨km, pt⟩ -
    have ha₂ : Acct sb p.holds p.holds p.inodes p.inodes sys { sys₁ with km := km } :=
      ha₁.trans (.setKm ha₁.inv km)
    refine Post.ite (fun hlen => ?_) fun _ => ?_
    · have hvis := visible_unmap hi (hclose i (if_pos ⟨haddr, hlen⟩))
        (show Vma.valid { (p.vma i).trim (pgRoundUpInt (argint len)) with valid := false } =
          false from rfl)
      have hp₂ := ha₂.pre hp
      rw [← visible_setVma_pagetable p pt] at hvis
      rw [holds_of_nothing hheld, hvis] at ha₂ hp₂
      obtain ⟨sys₃, hr, ha₃⟩ := fileclose_acct hp₂
      exact Post.bind_of_ok hr (.pure (.drop hp ht hheld hvis (ha₂.trans ha₃) rfl rfl rfl))
    · have hvis : ({ p with pagetable := pt }.setVma i
          ((p.vma i).trim (pgRoundUpInt (argint len)))).visible = p.visible := by
        rw [visible_setVma_pagetable]
        exact visible_same hi rfl rfl
      refine .pure (.of_visible hp ht hheld ?_ hheld (fun f hf => ?_) rfl rfl)
      · rw [hvis, ← holds_of_nothing hheld]
        exact ha₂
      · rwa [hvis] at hf

theorem growproc_post {n : Int} (hp : Pre sb p.holds p.inodes sys) (ht : Tidy sys p)
    (hheld : p.held = .nothing) :
    Post Panic.Tame (fun r => CallPost sb sys p { sys with km := r.2.1 } r.2.2)
    (growproc sys.km p n) := by
  have hquiet : ∀ (km : Kmem) (p' : Proc), SameTables p p' →
      CallPost sb sys p { sys with km := km } p' :=
    fun km p' => .quiet hp ht hheld (.setKm hp.inv km)
  unfold growproc
  refine Post.ite (fun _ => ?_) fun _ => Post.ite (fun _ => ?_) fun _ => ?_
  · refine Post.bind (Post.mapError_any fun _ => trivial) fun r _ => ?_
    exact Post.ite (fun _ => .pure (hquiet _ _ ⟨rfl, rfl, rfl, rfl, rfl⟩)) fun _ =>
      .pure (hquiet _ _ ⟨rfl, rfl, rfl, rfl, rfl⟩)
  · refine Post.bind (Post.mapError_any fun _ => trivial) fun r _ => ?_
    exact .pure (hquiet _ _ ⟨rfl, rfl, rfl, rfl, rfl⟩)
  · exact .pure (hquiet _ _ ⟨rfl, rfl, rfl, rfl, rfl⟩)

/-! ## Page faults -/

theorem readi_entry (hinv : SysInv sb sys) (hk : 0 < sys.iref k) (dst : Nat → Bool) {off n : Nat}
    (hoff : off < 2 ^ 32) (hn : n < 2 ^ 32) :
    ∃ r bs, Fs.readi sb sys.disk (sys.dinode sb k) dst off n =
      .ok (r, bs, sys.dinode sb k, sys.disk) := by
  obtain ⟨r, bs, hr, -⟩ := hinv.fs.alloc.readi (hinv.ialloc k hk) dst hoff hn
  exact ⟨r, bs, hr⟩

/-- `ilock` on the inode of an open file fails at most on a pipe, whose `ip` is not
set. -/
theorem ilock_file_acct (hp : Pre sb h c sys) (hf : (sys.file f).type ≠ .none) :
    Post (fun e => e = .ilock ∧ (sys.file f).type = .pipe)
      (fun r => Acct sb h h c c sys r.2 ∧ 0 < r.2.iref r.1 ∧ r.2.km = sys.km ∧ r.2.file = sys.file)
      (ilock sb sys (sys.file f).ip) := by
  have hlock : ∀ k, 0 < sys.iref k → (sys.file f).ip = some k →
      Post (fun e => e = .ilock ∧ (sys.file f).type = .pipe)
        (fun r => Acct sb h h c c sys r.2 ∧ 0 < r.2.iref r.1 ∧ r.2.km = sys.km ∧
          r.2.file = sys.file)
        (ilock sb sys (sys.file f).ip) := by
    intro k hk hip
    obtain ⟨sys', hr, ha, hkm, -, hfile, -⟩ := @ilock_acct sb h c sys k hp.inv hk
    rw [hip, hr]
    refine .ok ⟨ha, ?_, hkm, hfile⟩
    have := ha.inodes k
    rw [fileRef_congr hfile] at this
    show 0 < sys'.iref k
    omega
  by_cases hty : (sys.file f).type = .pipe
  · cases hip : (sys.file f).ip with
    | none => exact .error ⟨rfl, hty⟩
    | some k =>
      by_cases hk : 0 < sys.iref k
      · rw [← hip]
        exact hlock k hk hip
      · simp only [Sys.iref] at hk
        simp only [ilock, if_pos (show (sys.inode k).ref < 1 by omega)]
        exact .error ⟨rfl, hty⟩
  · have hinode : (sys.file f).type = .inode ∨ (sys.file f).type = .device := by
      cases h : (sys.file f).type <;> simp_all
    obtain ⟨k, hk⟩ := Option.ne_none_iff_exists'.mp (hp.inv.ipSet f hinode)
    exact hlock k (hp.iref_pos (by rw [File.keeps, if_pos hinode, hk])) hk

theorem pageFault_post {va : Nat} (hp : Pre sb p.holds p.inodes sys) (ht : Tidy sys p)
    (hheld : p.held = .nothing) :
    Post (fun e => e.Tame ∨ e = .ilock ∧ ∃ i, faultSlot p va = some i ∧
      (sys.file (p.vma i).f).type = .pipe)
      (fun r => CallPost sb sys p r.2.1 r.2.2 ∧ SameTables p r.2.2) (pageFault sb sys p va) := by
  unfold pageFault
  dsimp only
  split
  · exact .pure ⟨.refl hp ht hheld, rfl, rfl, rfl, rfl, rfl⟩
  · rename_i i hslot
    obtain ⟨hi, hvalid, -⟩ := faultSlot_some hslot
    split
    · exact .pure ⟨.refl hp ht hheld, rfl, rfl, rfl, rfl, rfl⟩
    · rename_i mem km hkalloc
      have ha₀ : Acct sb p.holds p.holds p.inodes p.inodes sys { sys with km := km.clear mem } :=
        .setKm hp.inv _
      refine (((ilock_file_acct (ha₀.pre hp) (ht.opened _ (visible_of_vma hi hvalid)))).mono
        (fun e he => Or.inr ⟨he.1, i, hslot, he.2⟩) fun _ => id).bind ?_
      rintro ⟨k, sys₁⟩ ⟨ha₁, hk, -⟩
      obtain ⟨r, bs, hr⟩ := readi_entry ha₁.inv hk (fun _ => true)
        (show u64 (PGROUNDDOWN va - (p.vma i).addr) % 2 ^ 32 < 2 ^ 32 from Nat.mod_lt _ (by decide))
        (show PGSIZE < 2 ^ 32 by decide)
      dsimp only
      rw [hr]
      refine Post.bind_of_ok rfl ?_
      dsimp only
      refine Post.bind (Post.mapError_any fun _ => Or.inl trivial) ?_
      have hquiet : ∀ (km : Kmem) (pt : PageTable),
          CallPost sb sys p { sys₁ with km := km, disk := sys₁.disk } { p with pagetable := pt } :=
        fun km pt => .quiet hp ht hheld ((ha₀.trans ha₁).trans (.setKm ha₁.inv km))
          ⟨rfl, rfl, rfl, rfl, rfl⟩
      rintro ⟨ok, km', pt⟩ -
      cases ok
      · exact .pure ⟨hquiet _ _, rfl, rfl, rfl, rfl, rfl⟩
      · exact .pure ⟨hquiet _ _, rfl, rfl, rfl, rfl, rfl⟩

/-! ## `read`, `write` and `chdir` -/

theorem sysRead_post {fd addr n : Nat} (hp : Pre sb p.holds p.inodes sys) (ht : Tidy sys p)
    (hheld : p.held = .nothing) :
    Post Panic.Tame (fun sys' => CallPost sb sys p sys' p) (sysRead sb sys p fd addr n) := by
  have hrefl : Post Panic.Tame (fun sys' => CallPost sb sys p sys' p) (.ok sys) :=
    .ok (.refl hp ht hheld)
  unfold sysRead
  split
  · exact hrefl
  · rename_i fd' f hfd
    obtain ⟨hlt, hof⟩ := argfd_some hfd
    have hty := ht.opened f (visible_of_ofile hlt hof)
    refine Post.ite (fun _ => hrefl) fun _ => ?_
    cases hcase : (sys.file f).type with
    | none => exact absurd hcase hty
    | pipe => exact hrefl
    | device => exact hrefl
    | inode =>
      refine Post.map (((ilock_file_acct hp hty).mono (fun e he => ?_) fun _ => id).bind ?_)
      · rw [hcase] at he
        cases he.2
      · rintro ⟨k, sys₁⟩ ⟨ha₁, hk, -, hfile⟩
        obtain ⟨r, bs, hr⟩ := readi_entry ha₁.inv hk
          (fun j => (walkaddr p.pagetable ((argaddr addr + j) % 2 ^ 64)).isSome)
          (ha₁.inv.off_lt f) (Nat.mod_lt n (by decide))
        dsimp only
        rw [hr]
        refine Post.bind_of_ok rfl ?_
        have ha₂ := ha₁.trans (.setKm ha₁.inv (copyout p.pagetable sys₁.km (argaddr addr) bs).2)
        have hpos : 0 < sys₁.ref f := by
          rw [Sys.ref, hfile]
          exact hp.inv.typed_pos hty
        refine Post.ite (fun _ => ?_) fun _ => ?_
        · refine .pure (.quiet hp ht hheld (ha₂.trans ?_) ⟨rfl, rfl, rfl, rfl, rfl⟩)
          exact .recount ha₂.inv hpos rfl hpos (Nat.mod_lt _ (by decide)) rfl (fun _ _ => rfl) id
        · exact .pure (.quiet hp ht hheld ha₂ ⟨rfl, rfl, rfl, rfl, rfl⟩)

theorem sysWrite_post {fd addr n : Nat} (hp : Pre sb p.holds p.inodes sys) (ht : Tidy sys p)
    (hheld : p.held = .nothing) :
    Post Panic.Tame (fun sys' => CallPost sb sys p sys' p) (sysWrite sb sys p fd addr n) := by
  unfold sysWrite
  split
  · exact .ok (.refl hp ht hheld)
  · exact (filewrite_tame hp).imp fun sys' ha => .quiet hp ht hheld ha ⟨rfl, rfl, rfl, rfl, rfl⟩

theorem inodes_of_cwd {k : Nat} (hheld : p.held = .nothing) (hcwd : p.cwd = some k) :
    p.inodes = only k := by
  funext j
  simp only [Proc.inodes, hcwd, hheld, Held.inode, some_eq_ite, Pi.add_apply,
    Pi.zero_apply, add_zero]

theorem iget_tame {inum : Nat} (hp : Pre sb h c sys)
    (hname : (sys.disk.view sb).Allocated sb inum) :
    Post Panic.Tame (fun r => Acct sb h h c (c + only r.1) sys r.2 ∧ 0 < r.2.iref r.1)
    (iget sys inum) := by
  refine (iget_acct hp.inv hname).mono (fun e he => ?_) fun r hr => ⟨hr.1, hr.2.2.2.2⟩
  rw [he]
  trivial

theorem sysChdir_post {inum : Nat} (hp : Pre sb p.holds p.inodes sys) (ht : Tidy sys p)
    (hheld : p.held = .nothing) (hcwd : p.cwd.isSome)
    (hname : (sys.disk.view sb).Allocated sb inum) :
    Post Panic.Tame (fun r => CallPost sb sys p r.1 r.2) (sysChdir sb sys p inum) := by
  obtain ⟨d, hd⟩ := Option.isSome_iff_exists.mp hcwd
  unfold sysChdir
  refine (iget_tame hp hname).bind ?_
  rintro ⟨k, sys₁⟩ ⟨ha₁, hk⟩
  obtain ⟨sys₂, hr, ha₂, -⟩ := @ilock_acct sb p.holds (p.inodes + only k) sys₁ k ha₁.inv hk
  have ha := ha₁.trans ha₂
  refine Post.bind_of_ok hr (Post.ite (fun _ => ?_) fun _ => ?_)
  · obtain ⟨sys₃, hr₃, ha₃, -⟩ := iput_acct (ha.pre hp)
    exact Post.bind_of_ok hr₃ (.pure (.quiet hp ht hheld (ha.trans ha₃) ⟨rfl, rfl, rfl, rfl, rfl⟩))
  · -- the reference to the old directory is dropped, the one to the new directory stays
    have hp₂ := ha.pre hp
    rw [inodes_of_cwd hheld hd, add_comm] at ha hp₂
    obtain ⟨sys₃, hr₃, ha₃, -⟩ := iput_acct hp₂
    rw [hd]
    refine Post.bind_of_ok hr₃ (.pure (.of_acct hp ht ?_ hheld (fun f hf => ?_) rfl ?_))
    · rw [inodes_of_cwd hheld hd, @inodes_of_cwd { p with cwd := some k } k hheld rfl,
        @holds_congr p { p with cwd := some k } rfl rfl rfl]
      exact ha.trans ha₃
    · rwa [@visible_congr p { p with cwd := some k } rfl rfl rfl] at hf
    · rw [hd]
      rfl

end

end Xv6.Kernel
