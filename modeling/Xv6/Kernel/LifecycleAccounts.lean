import Xv6.Kernel.Accounts

/-! # The accounts of `exec`, `fork` and `exit` -/

namespace Xv6.Kernel

open Function Lib Vm

section

variable {sb : Fs.Superblock} {h h' c c' : Nat → Nat} {sys sys' : Sys} {p p' np : Proc} {f k : Nat}

/-! ## `exec` -/

/-- `exec` reads the program without changing the disk. -/
def Readable (sb : Fs.Superblock) (disk : Fs.Disk) (ip : Fs.Dinode) : Prop :=
  ∀ off n, off < 2 ^ 32 → n < 2 ^ 32 →
    ∃ r bs, Fs.readi sb disk ip (fun _ => true) off n = .ok (r, bs, ip, disk)

variable {disk : Fs.Disk} {ip : Fs.Dinode}

theorem Readable.kread (hread : Readable sb disk ip) {off n : Nat} (hoff : off < 2 ^ 32)
    (hn : n < 2 ^ 32) : ∃ o, kread sb disk ip off n = .ok (o, disk) := by
  obtain ⟨r, bs, hr⟩ := hread off n hoff hn
  refine ⟨if r = n then some bs else none, ?_⟩
  unfold Kernel.kread
  rw [hr]
  rfl

theorem loadseg_disk {pt : PageTable} {va offset sz n i : Nat} {km : Kmem}
    (hread : Readable sb disk ip) :
    Post Panic.Tame (fun r => r.2.2 = disk) (loadseg sb pt ip va offset sz n i km disk) := by
  induction n generalizing i km with
  | zero => exact .ok rfl
  | succ n ih =>
    unfold loadseg
    split
    · exact .error trivial
    · obtain ⟨o, ho⟩ := hread.kread (Nat.mod_lt (offset + i) (Nat.two_pow_pos 32))
        (show min (sz - i) PGSIZE < 2 ^ 32 from Nat.lt_of_le_of_lt
          (Nat.min_le_right _ _) (by decide))
      refine Post.bind_of_ok ho ?_
      cases o with
      | none => exact .pure rfl
      | some bs => exact ih

theorem loadHeader_disk {off : Nat} {im : Image} (hread : Readable sb im.disk ip)
    (hoff : off < 2 ^ 32) :
    Post Panic.Tame (fun r => r.2.disk = im.disk) (loadHeader sb ip off im) := by
  obtain ⟨o, ho⟩ := hread.kread hoff (show 56 < 2 ^ 32 by decide)
  unfold loadHeader
  refine Post.bind_of_ok ho ?_
  cases o with
  | none => exact .pure rfl
  | some bs =>
    refine Post.ite (fun _ => .pure rfl) fun _ => Post.ite (fun _ => .pure rfl) fun _ =>
      Post.ite (fun _ => .pure rfl) fun _ => ?_
    refine Post.bind (Post.mapError_any fun _ => trivial) ?_
    rintro ⟨sz1, km, pt⟩ -
    refine Post.ite (fun _ => .pure rfl) fun _ => Post.ite (fun _ => .pure rfl) fun _ => ?_
    exact (loadseg_disk hread).bind fun r hr => .pure hr

theorem loadHeaders_disk {n off : Nat} {im : Image} (hread : Readable sb im.disk ip) :
    Post Panic.Tame (fun r => r.2.disk = im.disk) (loadHeaders sb ip n off im) := by
  induction n generalizing off im with
  | zero => exact .ok rfl
  | succ n ih =>
    unfold loadHeaders
    refine (loadHeader_disk hread (Nat.mod_lt off (Nat.two_pow_pos 32))).bind ?_
    rintro ⟨ok, im'⟩ hdisk
    cases ok
    · exact .pure hdisk
    · exact (ih (hdisk ▸ hread)).imp fun r hr => hr.trans hdisk

theorem setupStack_tame {im : Image} {argv : List (List UInt8)} :
    Post Panic.Tame (fun _ => True) (setupStack im argv) := by
  unfold setupStack
  refine Post.bind (Post.mapError_any fun _ => trivial) ?_
  rintro ⟨sz1, km, pt⟩ -
  refine Post.ite (fun _ => .pure trivial) fun _ => ?_
  refine Post.bind (Post.mapError_any fun _ => trivial) fun pt' _ => ?_
  dsimp only
  split
  · exact .pure trivial
  · exact .pure trivial

theorem exec_acct {argv : List (List UInt8)} (hp : Pre sb h (c + only k) sys) :
    Post Panic.Tame (fun r => Acct sb h h (c + only k) c sys r.2.1 ∧ SameTables p r.2.2)
      (exec sb sys p k argv) := by
  have hk : 0 < sys.iref k := by
    have := hp.inodes k
    simp only [Pi.add_apply, only_self] at this
    omega
  obtain ⟨sys₁, hr₁, ha₁, hkm₁, hdisk₁, hfile₁, -⟩ := @ilock_acct sb h (c + only k) sys k hp.inv hk
  have hk₁ : 0 < sys₁.iref k := by
    have := (ha₁.pre hp).inodes k
    simp only [Pi.add_apply, only_self] at this
    omega
  have hread : Readable sb sys₁.disk (sys₁.dinode sb k) := fun off n hoff hn =>
    readi_entry ha₁.inv hk₁ (fun _ => true) hoff hn
  -- every way out drops the reference, whatever has become of the memory
  have hput : ∀ km, ∃ sys', iput sb { sys₁ with km := km } k = .ok sys' ∧
      Acct sb h h (c + only k) c sys sys' := by
    intro km
    have ha := ha₁.trans (.setKm ha₁.inv km)
    obtain ⟨sys', hr, ha', -⟩ := iput_acct (ha.pre hp)
    exact ⟨sys', hr, ha.trans ha'⟩
  have hstop : ∀ km, Post Panic.Tame
      (fun r : Bool × Sys × Proc => Acct sb h h (c + only k) c sys r.2.1 ∧ SameTables p r.2.2)
      (iput sb { sys₁ with km := km } k >>= fun sys => pure (false, sys, p)) := by
    intro km
    obtain ⟨sys', hr, ha⟩ := hput km
    exact Post.bind_of_ok hr (.pure ⟨ha, rfl, rfl, rfl, rfl, rfl⟩)
  unfold exec
  refine Post.bind_of_ok hr₁ ?_
  obtain ⟨o, ho⟩ := hread.kread (show 0 < 2 ^ 32 by decide) (show 64 < 2 ^ 32 by decide)
  refine Post.bind_of_ok ho ?_
  cases o with
  | none => exact hstop sys₁.km
  | some elf =>
    refine Post.ite (fun _ => hstop sys₁.km) fun _ => ?_
    refine Post.bind (Post.mapError_any fun _ => trivial) ?_
    rintro ⟨o, km⟩ -
    cases o with
    | none => exact hstop km
    | some pt =>
      refine (loadHeaders_disk hread).bind ?_
      rintro ⟨ok, ⟨km', disk', pt', sz'⟩⟩ rfl
      refine Post.ite (fun _ => ?_) fun _ => ?_
      · exact Post.bind (Post.mapError_any fun _ => trivial) fun km' _ => hstop km'
      · obtain ⟨sys₂, hr₂, ha₂⟩ := hput km'
        have hdone : ∀ (km : Kmem) (p' : Proc) (ok : Bool), SameTables p p' →
            Post Panic.Tame
              (fun r : Bool × Sys × Proc => Acct sb h h (c + only k) c sys r.2.1 ∧
                SameTables p r.2.2)
              (pure (ok, { sys₂ with km := km }, p')) :=
          fun km p' ok hsame => .pure ⟨ha₂.trans (.setKm ha₂.inv km), hsame⟩
        refine Post.bind_of_ok hr₂ (setupStack_tame.bind ?_)
        rintro ⟨o, im⟩ -
        cases o with
        | none =>
          exact Post.bind (Post.mapError_any fun _ => trivial) fun km _ =>
            hdone _ _ _ ⟨rfl, rfl, rfl, rfl, rfl⟩
        | some sp =>
          exact Post.bind (Post.mapError_any fun _ => trivial) fun km _ =>
            hdone _ _ _ ⟨rfl, rfl, rfl, rfl, rfl⟩

theorem exec_post {inum : Nat} {argv : List (List UInt8)} (hp : Pre sb p.holds p.inodes sys)
    (ht : Tidy sys p) (hheld : p.held = .nothing) (hname : (sys.disk.view sb).Allocated sb inum) :
    Post Panic.Tame (fun r => CallPost sb sys p r.1 r.2) (do
      let (k, sys) ← iget sys inum
      let (_, sys, p) ← exec sb sys p k argv
      return (sys, p)) := by
  refine (iget_tame hp hname).bind ?_
  rintro ⟨k, sys₁⟩ ⟨ha₁, -⟩
  refine (exec_acct (ha₁.pre hp)).bind ?_
  rintro ⟨ok, sys₂, p'⟩ ⟨ha₂, hsame⟩
  exact .pure (.quiet hp ht hheld (ha₁.trans ha₂) hsame)

/-! ## `fork` -/

/-- What `fork` has done so far: the child `np` has some of the parent's files. -/
structure Forking (sb : Fs.Superblock) (sys : Sys) (p : Proc) (c : Nat → Nat) (sys' : Sys)
    (np : Proc) : Prop where
  acct : Acct sb p.holds (p.holds + np.visible) p.inodes c sys sys'
  sub : ∀ f, 0 < np.visible f → 0 < p.visible f

theorem Forking.dup {sys₁ : Sys} (hp : Pre sb p.holds p.inodes sys)
    (hF : Forking sb sys p c sys₁ np) (hf : 0 < p.visible f)
    (hvis : p'.visible = np.visible + only f) :
    ∃ sys₂, filedup sys₁ f = .ok sys₂ ∧ Forking sb sys p c sys₂ p' := by
  have hpos : 0 < (p.holds + np.visible) f := by
    have := visible_le_holds p f
    rw [Pi.add_apply]
    omega
  obtain ⟨sys₂, hr, ha, -⟩ := filedup_acct (hF.acct.pre hp) hpos
  refine ⟨sys₂, hr, ?_, fun g hg => ?_⟩
  · rw [hvis, ← add_assoc]
    exact hF.acct.trans ha
  · rw [hvis] at hg
    by_cases hgf : g = f
    · rw [hgf]
      exact hf
    · rw [Pi.add_apply, only_ne hgf] at hg
      exact hF.sub g hg

theorem forkOfile_post {sys₁ : Sys} (hp : Pre sb p.holds p.inodes sys)
    (hF : Forking sb sys p c sys₁ np) (hofile : ∀ fd, fd < NOFILE → np.ofile fd = none) :
    Post Panic.Tame (fun r => Forking sb sys p c r.1 r.2 ∧
      SameTables { np with ofile := r.2.ofile } r.2 ∧
      ∀ fd, fd < NOFILE → r.2.ofile fd = p.ofile fd)
          (forRange NOFILE (forkOfile p) (sys₁, np)) := by
  refine (Post.forRange (I := fun i r => Forking sb sys p c r.1 r.2 ∧
    SameTables { np with ofile := r.2.ofile } r.2 ∧
    (∀ fd, fd < i → r.2.ofile fd = p.ofile fd) ∧ ∀ fd, i ≤ fd → fd < NOFILE → r.2.ofile fd = none)
    ⟨hF, ⟨rfl, rfl, rfl, rfl, rfl⟩, fun _ h => absurd h (Nat.not_lt_zero _), fun fd _ => hofile fd⟩
      ?_).imp
    fun r hr => ⟨hr.1, hr.2.1, hr.2.2.1⟩
  rintro i ⟨sys₂, np₂⟩ hi ⟨hF₂, hsame, hdone, hrest⟩
  unfold forkOfile
  cases hof : p.ofile i with
  | none =>
    refine .ok ⟨hF₂, hsame, fun fd hfd => ?_, fun fd hfd => hrest fd (by omega)⟩
    by_cases hlt : fd < i
    · exact hdone fd hlt
    · obtain rfl : fd = i := by omega
      rw [hrest fd (Nat.le_refl _) hi, hof]
  | some f =>
    obtain ⟨sys₃, hr, hF₃⟩ := hF₂.dup hp (visible_of_ofile hi hof)
      (visible_open hi (hrest i (Nat.le_refl _) hi) f)
    refine Post.bind_of_ok hr (.pure ⟨hF₃, ⟨rfl, hsame.vma, hsame.held, hsame.cwd, hsame.state⟩,
      fun fd hfd => ?_, fun fd hfd hlt => ?_⟩)
    · by_cases hfi : fd = i
      · rw [hfi, hof]
        exact update_self _ _ _
      · exact (update_of_ne hfi _ _).trans (hdone fd (by omega))
    · exact (update_of_ne (by omega) _ _).trans (hrest fd (by omega) hlt)

/-- The child has the parent's valid slots; the other slots are left as they were. -/
theorem forkVma_post {sys₁ : Sys} (hp : Pre sb p.holds p.inodes sys)
    (hF : Forking sb sys p c sys₁ np) (hvma : ∀ i, i < VMASIZE → (np.vma i).valid = false) :
    Post Panic.Tame (fun r => Forking sb sys p c r.1 r.2 ∧
      SameTables { np with vma := r.2.vma } r.2 ∧
      ∀ i, i < VMASIZE → r.2.vma i = if (p.vma i).valid then p.vma i else np.vma i)
      (forRange VMASIZE (forkVma p) (sys₁, np)) := by
  refine (Post.forRange (I := fun j r => Forking sb sys p c r.1 r.2 ∧
    SameTables { np with vma := r.2.vma } r.2 ∧
    (∀ i, i < j → r.2.vma i = if (p.vma i).valid then p.vma i else np.vma i) ∧
    ∀ i, j ≤ i → r.2.vma i = np.vma i)
    ⟨hF, ⟨rfl, rfl, rfl, rfl, rfl⟩, fun _ h => absurd h (Nat.not_lt_zero _), fun _ _ => rfl⟩ ?_).imp
    fun r hr => ⟨hr.1, hr.2.1, hr.2.2.1⟩
  rintro j ⟨sys₂, np₂⟩ hj ⟨hF₂, hsame, hdone, hrest⟩
  unfold forkVma
  cases hv : (p.vma j).valid with
  | false =>
    refine .ok ⟨hF₂, hsame, fun i hi => ?_, fun i hi => hrest i (by omega)⟩
    by_cases hlt : i < j
    · exact hdone i hlt
    · obtain rfl : i = j := by omega
      rw [hrest i (Nat.le_refl _), hv]
      rfl
  | true =>
    have hfree : (np₂.vma j).valid = false := by
      rw [hrest j (Nat.le_refl _), hvma j hj]
    obtain ⟨sys₃, hr, hF₃⟩ := hF₂.dup hp (visible_of_vma hj hv) (visible_map hj hfree hv)
    refine Post.bind_of_ok hr (.pure ⟨hF₃, ⟨hsame.ofile, rfl, hsame.held, hsame.cwd, hsame.state⟩,
      fun i hi => ?_, fun i hi => ?_⟩)
    · by_cases hij : i = j
      · rw [hij, hv]
        exact update_self _ _ _
      · exact (update_of_ne hij _ _).trans (hdone i (by omega))
    · exact (update_of_ne (by omega) _ _).trans (hrest i (by omega))

theorem allocproc_same {km : Kmem} :
    Post Panic.Tame (fun r => ∀ np', r.1 = some np' → SameTables np np') (allocproc km np) := by
  unfold allocproc
  split
  · exact .ok fun _ h => by cases h
  · refine Post.bind (Post.mapError_any fun _ => trivial) ?_
    rintro ⟨o, km⟩ -
    cases o with
    | none => exact .pure fun _ h => by cases h
    | some pt =>
      refine .pure fun np' h => ?_
      cases h
      exact ⟨rfl, rfl, rfl, rfl, rfl⟩

theorem freeproc_same {km : Kmem} :
    Post Panic.Tame (fun r => SameTables { np with state := .unused } r.2) (freeproc km np) := by
  unfold freeproc
  exact Post.bind (Post.mapError_any fun _ => trivial) fun km _ => .pure ⟨rfl, rfl, rfl, rfl, rfl⟩

/-- A new process: it has the files of its parent `p`. -/
structure Forked (sb : Fs.Superblock) (sys : Sys) (p np : Proc) (sys' : Sys) (np' : Proc) :
    Prop where
  acct : Acct sb p.holds (p.holds + np'.holds) p.inodes (p.inodes + np'.inodes) sys sys'
  sub : ∀ f, 0 < np'.visible f → 0 < p.visible f
  ofile : ∀ fd, fd < NOFILE → np'.ofile fd = p.ofile fd
  vma : ∀ i, i < VMASIZE → np'.vma i = if (p.vma i).valid then p.vma i else np.vma i
  held : np'.held = .nothing
  cwd : np'.cwd = p.cwd
  state : np'.state = .runnable

theorem fork_post {me : Nat} (hp : Pre sb p.holds p.inodes sys) (hcwd : p.cwd.isSome) (hb : Bare np)
    (hstate : np.state = .unused) :
    Post Panic.Tame (fun r => if r.1 then Forked sb sys p np r.2.1 r.2.2 else
      Acct sb p.holds p.holds p.inodes p.inodes sys r.2.1 ∧ SameTables np r.2.2)
      (fork sys me p np) := by
  have hkm : ∀ km, Acct sb p.holds p.holds p.inodes p.inodes sys { sys with km := km } :=
    fun km => .setKm hp.inv km
  obtain ⟨k, hk⟩ := Option.isSome_iff_exists.mp hcwd
  unfold fork
  refine allocproc_same.bind ?_
  rintro ⟨o, km⟩ hsame
  cases o with
  | none => exact .pure ⟨hkm km, rfl, rfl, rfl, rfl, rfl⟩
  | some np₁ =>
    have hsame₁ := hsame np₁ rfl
    refine Post.bind (Post.mapError_any fun _ => trivial) ?_
    rintro ⟨ok, km', pt⟩ -
    cases ok with
    | false =>
      refine freeproc_same.bind fun r hr => .pure ⟨hkm r.1, ?_⟩
      exact ⟨hr.ofile.trans hsame₁.ofile, hr.vma.trans hsame₁.vma, hr.held.trans hsame₁.held,
        hr.cwd.trans hsame₁.cwd, hr.state.trans hstate.symm⟩
    | true =>
      have hbare : Bare { np₁ with pagetable := pt, sz := p.sz, sp := p.sp, own := p.own } :=
        (hb.of_same hsame₁).of_same ⟨rfl, rfl, rfl, rfl, rfl⟩
      have hF : Forking sb sys p p.inodes
          { sys with km := copyTrapframe km' p.trapframe np₁.trapframe }
          { np₁ with pagetable := pt, sz := p.sz, sp := p.sp, own := p.own } := by
        refine ⟨?_, fun f hf => ?_⟩
        · rw [hbare.visible, add_zero]
          exact hkm _
        · rw [hbare.visible] at hf
          exact absurd hf (Nat.lt_irrefl 0)
      refine (forkOfile_post hp hF hbare.ofile).bind ?_
      rintro ⟨sys₃, np₃⟩ ⟨hF₃, hsame₃, hofile⟩
      have hiref : 0 < sys₃.iref k := by
        have := (hF₃.acct.pre hp).inodes k
        simp only [Proc.inodes, hk, Pi.add_apply, if_true] at this
        omega
      have hF₄ : Forking sb sys p (p.inodes + only k) (idup sys₃ k)
          { np₃ with cwd := p.cwd, parent := some me, state := .runnable, held := .nothing } := by
        have hvis : Proc.visible { np₃ with
            cwd := p.cwd, parent := some me, state := .runnable, held := .nothing } = np₃.visible :=
          visible_congr rfl rfl (hsame₃.held.trans hbare.held).symm
        refine ⟨?_, fun f hf => hF₃.sub f ?_⟩
        · rw [hvis]
          exact hF₃.acct.trans (.incr_inode hF₃.acct.inv hiref)
        · rwa [hvis] at hf
      dsimp only
      rw [hk] at hF₄ ⊢
      refine (forkVma_post hp hF₄ fun i hi => ?_).bind ?_
      · rw [hsame₃.vma]
        exact hbare.vma i hi
      · rintro ⟨sys₅, np₅⟩ ⟨hF₅, hsame₅, hvma⟩
        refine .pure ⟨?_, hF₅.sub, fun fd hfd => ?_, fun i hi => ?_, hsame₅.held, ?_, hsame₅.state⟩
        · rw [holds_of_nothing hsame₅.held, inodes_of_cwd hsame₅.held hsame₅.cwd]
          exact hF₅.acct
        · rw [hsame₅.ofile]
          exact hofile fd hfd
        · rw [hvma i hi]
          dsimp only
          rw [hsame₃.vma]
          dsimp only
          rw [hsame₁.vma]
        · rw [hk]
          exact hsame₅.cwd

/-! ## `exit` -/

/-- What `exit` has done so far. -/
structure Exiting (sb : Fs.Superblock) (sys : Sys) (p : Proc) (sys' : Sys) (p' : Proc) : Prop where
  acct : Acct sb p.holds p'.holds p.inodes p'.inodes sys sys'
  held : p'.held = .nothing
  cwd : p'.cwd = p.cwd

theorem Exiting.close {sys₁ sys₂ : Sys} {q q' : Proc} (hp : Pre sb p.holds p.inodes sys)
    (hE : Exiting sb sys p sys₁ q) (ha : Acct sb q.holds q.holds q.inodes q.inodes sys₁ sys₂)
    (hvis : q.visible = q'.visible + only f) (hheld : q'.held = q.held) (hcwd : q'.cwd = q.cwd) :
    ∃ sys₃, fileclose sb sys₂ f = .ok sys₃ ∧ Exiting sb sys p sys₃ q' := by
  have hholds : q.holds = q'.holds + only f := by
    rw [holds_of_nothing hE.held, holds_of_nothing (hheld.trans hE.held), hvis]
  have hp₂ := (hE.acct.trans ha).pre hp
  rw [hholds] at hp₂
  obtain ⟨sys₃, hr, ha₃⟩ := fileclose_acct hp₂
  refine ⟨sys₃, hr, ?_, hheld.trans hE.held, hcwd.trans hE.cwd⟩
  rw [← hholds] at ha₃
  rw [inodes_congr hcwd hheld]
  exact (hE.acct.trans ha).trans ha₃

theorem Exiting.setMem {sys₁ : Sys} {q q' : Proc} (hE : Exiting sb sys p sys₁ q)
    (hsame : SameTables q q') (km : Kmem) : Exiting sb sys p { sys₁ with km := km } q' := by
  refine ⟨?_, hsame.held.trans hE.held, hsame.cwd.trans hE.cwd⟩
  rw [holds_congr hsame.ofile hsame.vma hsame.held, inodes_congr hsame.cwd hsame.held]
  exact hE.acct.trans (.setKm hE.acct.inv km)

theorem exitOfile_post (hp : Pre sb p.holds p.inodes sys) (hheld : p.held = .nothing) :
    Post Panic.Tame (fun r => Exiting sb sys p r.1 r.2 ∧ ∀ fd, fd < NOFILE → r.2.ofile fd = none)
      (forRange NOFILE (exitOfile sb) (sys, p)) := by
  refine Post.forRange (I := fun i (r : Sys × Proc) =>
    Exiting sb sys p r.1 r.2 ∧ ∀ fd, fd < i → r.2.ofile fd = none)
    ⟨⟨.refl hp.inv, hheld, rfl⟩, fun _ h => absurd h (Nat.not_lt_zero _)⟩ ?_
  rintro i ⟨sys₁, q⟩ hi ⟨hE, hdone⟩
  unfold exitOfile
  dsimp only at hE hdone ⊢
  cases hof : q.ofile i with
  | none =>
    refine .ok ⟨hE, fun fd hfd => ?_⟩
    by_cases hlt : fd < i
    · exact hdone fd hlt
    · obtain rfl : fd = i := by omega
      exact hof
  | some f =>
    obtain ⟨sys₂, hr, hE₂⟩ := hE.close hp (.refl hE.acct.inv) (visible_close hi hof) rfl rfl
    refine Post.bind_of_ok hr (.pure ⟨hE₂, fun fd hfd => ?_⟩)
    by_cases hfi : fd = i
    · rw [hfi]
      exact update_self _ _ _
    · exact (update_of_ne hfi _ _).trans (hdone fd (by omega))

theorem exitVma_post {sys₁ : Sys} {q : Proc} (hp : Pre sb p.holds p.inodes sys)
    (hE : Exiting sb sys p sys₁ q) :
    Post Panic.Tame (fun r => Exiting sb sys p r.1 r.2 ∧ r.2.ofile = q.ofile ∧
      ∀ i, i < VMASIZE → (r.2.vma i).valid = false) (forRange VMASIZE (exitVma sb) (sys₁, q)) := by
  refine Post.forRange (I := fun j (r : Sys × Proc) => Exiting sb sys p r.1 r.2 ∧
    r.2.ofile = q.ofile ∧
    ∀ i, i < j → (r.2.vma i).valid = false) ⟨hE, rfl, fun _ h => absurd h (Nat.not_lt_zero _)⟩ ?_
  rintro j ⟨sys₂, q₂⟩ hj ⟨hE₂, hofile, hdone⟩
  unfold exitVma
  dsimp only at hE₂ hofile hdone ⊢
  refine Post.ite (fun hv => ?_) fun hv => ?_
  · refine (writeback_acct (hE₂.acct.pre hp)).bind fun sys₃ ha₃ => ?_
    have hvis := visible_unmap (m := { q₂.vma j with valid := false }) hj hv rfl
    obtain ⟨sys₄, hr, hE₄⟩ := hE₂.close hp ha₃ hvis rfl rfl
    refine Post.bind_of_ok hr (Post.bind (Post.mapError_any fun _ => trivial) ?_)
    rintro ⟨km, pt⟩ -
    refine .pure ⟨hE₄.setMem ?_ km, hofile, fun i hi => ?_⟩
    · exact ⟨rfl, rfl, rfl, rfl, rfl⟩
    · simp only [Proc.setVma, update_apply]
      split
      · rfl
      · exact hdone i (by omega)
  · refine .ok ⟨hE₂, hofile, fun i hi => ?_⟩
    by_cases hlt : i < j
    · exact hdone i hlt
    · obtain rfl : i = j := by omega
      simpa using hv

theorem exit_post {status : Nat} (hp : Pre sb p.holds p.inodes sys) (hheld : p.held = .nothing)
    (hcwd : p.cwd.isSome) :
    Post Panic.Tame (fun r => Acct sb p.holds 0 p.inodes 0 sys r.1 ∧ Bare r.2 ∧ r.2.state = .zombie)
      (exit sb sys p status) := by
  obtain ⟨k, hk⟩ := Option.isSome_iff_exists.mp hcwd
  unfold exit
  refine (exitOfile_post hp hheld).bind ?_
  rintro ⟨sys₁, q₁⟩ ⟨hE₁, hofile₁⟩
  refine (exitVma_post hp hE₁).bind ?_
  rintro ⟨sys₂, q₂⟩ ⟨hE₂, hofile₂, hvma⟩
  have hcwd₂ : q₂.cwd = some k := hE₂.cwd.trans hk
  have hbare : Bare { q₂ with cwd := none, xstate := status, state := .zombie } :=
    ⟨fun fd hfd => (congrFun hofile₂ fd).trans (hofile₁ fd hfd), hvma, hE₂.held, rfl⟩
  have hholds : q₂.holds = 0 := by
    rw [← hbare.holds, @holds_congr q₂ { q₂ with cwd := none, xstate := status, state := .zombie }
      rfl rfl rfl]
  have ha := hE₂.acct
  rw [inodes_of_cwd hE₂.held hcwd₂, ← zero_add (only k), hholds] at ha
  obtain ⟨sys₃, hr, ha₃, -⟩ := iput_acct (ha.pre hp)
  dsimp only
  rw [hcwd₂]
  exact Post.bind_of_ok hr (.pure ⟨ha.trans ha₃, hbare, rfl⟩)

end

end Xv6.Kernel
