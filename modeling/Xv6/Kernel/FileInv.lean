import Xv6.Fs.Machine
import Xv6.Kernel.File
import Xv6.Lib.Counting

/-! # Accounting for files and in-memory inodes

References to a file are held by processes; references to an entry of the inode table
are held by processes and by open files. The invariant of the shared objects does not
say who the holders are. Instead, each call is described by how many references its
caller held before and holds afterwards, and by `Acct`: the counts change by exactly
that difference.
-/

namespace Xv6.Kernel

open Function Lib Vm

def only (f : Nat) : Nat → Nat := fun g => if g = f then 1 else 0

theorem only_self (f : Nat) : only f f = 1 := if_pos rfl

theorem only_ne {f g : Nat} (h : g ≠ f) : only f g = 0 := if_neg h

/-- A file without its reference count and its offset. -/
def File.core (x : File) : File := { x with ref := 0, off := 0 }

/-- The entry of the inode table that a file holds a reference to. -/
def File.keeps (x : File) : Option Nat := if x.type = .inode ∨ x.type = .device then x.ip else none

namespace Sys

variable (sys : Sys)

def ref (f : Nat) : Nat := (sys.file f).ref

def iref (k : Nat) : Nat := (sys.inode k).ref

/-- Open files that hold a reference to entry `k` of the inode table. -/
@[irreducible] def fileRef (k : Nat) : Nat :=
  ∑ f ∈ Finset.range NFILE, if (sys.file f).keeps = some k then 1 else 0

end Sys

structure SysInv (sb : Fs.Superblock) (sys : Sys) : Prop where
  fs : Fs.FsInv sb sys.disk
  range : ∀ f, 0 < sys.ref f → f < NFILE
  off_lt : ∀ f, (sys.file f).off < 2 ^ 32
  untyped : ∀ f, sys.ref f = 0 → (sys.file f).type = .none
  ipSet : ∀ f, (sys.file f).type = .inode ∨ (sys.file f).type = .device → (sys.file f).ip ≠ none
  serial_lt : ∀ f, 0 < sys.ref f → (sys.file f).serial < sys.serials
  serial_inj : ∀ f g, 0 < sys.ref f → 0 < sys.ref g →
    (sys.file f).serial = (sys.file g).serial → f = g
  opened_lt : ∀ x ∈ sys.opened, x < sys.serials
  opened_nodup : sys.opened.Nodup
  closed_nodup : sys.closed.Nodup
  closed_sub : ∀ x ∈ sys.closed, x ∈ sys.opened
  notClosed : ∀ f, 0 < sys.ref f → (sys.file f).serial ∉ sys.closed
  isOpen : ∀ x, (x ∈ sys.opened ∧ x ∉ sys.closed) ↔
    ∃ f, (sys.file f).type ≠ .none ∧ (sys.file f).serial = x
  irange : ∀ k, 0 < sys.iref k → k < NINODE
  iuniq : ∀ k k', 0 < sys.iref k → 0 < sys.iref k' → (sys.inode k).inum = (sys.inode k').inum →
    k = k'
  ialloc : ∀ k, 0 < sys.iref k → (sys.disk.view sb).Allocated sb (sys.inode k).inum

/-- The caller of a call holds `h` references to files and `c` references to entries
of the inode table, next to those that open files hold. -/
structure Pre (sb : Fs.Superblock) (h c : Nat → Nat) (sys : Sys) : Prop where
  inv : SysInv sb sys
  files : ∀ f, h f ≤ sys.ref f
  inodes : ∀ k, sys.fileRef k + c k ≤ sys.iref k

/-- A call that changes its caller's references from `h`, `c` to `h'`, `c'`. -/
structure Acct (sb : Fs.Superblock) (h h' c c' : Nat → Nat) (sys sys' : Sys) : Prop where
  inv : SysInv sb sys'
  files : ∀ f, sys'.ref f + h f = sys.ref f + h' f
  inodes : ∀ k, sys'.iref k + (sys.fileRef k + c k) = sys.iref k + (sys'.fileRef k + c' k)
  /-- the files in use afterwards were in use before and are the same -/
  keep : ∀ f, 0 < sys'.ref f → 0 < sys.ref f ∧ (sys'.file f).core = (sys.file f).core
  /-- a reference is only duplicated by a holder -/
  own : ∀ f, h f = 0 → 0 < sys.ref f → h' f = 0

/-- The same for a call that may also allocate files, as seen by other holders. -/
structure Called (sb : Fs.Superblock) (h h' c c' : Nat → Nat) (sys sys' : Sys) : Prop where
  inv : SysInv sb sys'
  files : ∀ f, sys'.ref f + h f = sys.ref f + h' f
  inodes : ∀ k, sys'.iref k + (sys.fileRef k + c k) = sys.iref k + (sys'.fileRef k + c' k)
  /-- a file that others hold stays the same -/
  keep : ∀ f, h f < sys.ref f → (sys'.file f).core = (sys.file f).core
  /-- a file that only others hold stays with them -/
  own : ∀ f, h f = 0 → 0 < sys.ref f → h' f = 0

section

variable {sb : Fs.Superblock} {h h' h'' c c' c'' : Nat → Nat} {sys sys' sys'' : Sys} {f k : Nat}

theorem Acct.called (ha : Acct sb h h' c c' sys sys') : Called sb h h' c c' sys sys' := by
  refine ⟨ha.inv, ha.files, ha.inodes, fun f hf => (ha.keep f ?_).2, ha.own⟩
  have := ha.files f
  omega

theorem Called.trans (h₁ : Called sb h h' c c' sys sys') (h₂ : Called sb h' h'' c' c'' sys' sys'') :
    Called sb h h'' c c'' sys sys'' := by
  refine ⟨h₂.inv, fun f => ?_, fun k => ?_, fun f hf => ?_, fun f hf hr => ?_⟩
  · have := h₁.files f
    have := h₂.files f
    omega
  · have := h₁.inodes k
    have := h₂.inodes k
    omega
  · have := h₁.files f
    exact (h₂.keep f (by omega)).trans (h₁.keep f hf)
  · have hf' := h₁.own f hf hr
    have := h₁.files f
    exact h₂.own f hf' (by omega)

theorem File.type_core {x y : File} (h : x.core = y.core) : x.type = y.type :=
  show x.core.type = y.core.type by rw [h]

theorem File.keeps_core {x y : File} (h : x.core = y.core) : x.keeps = y.keeps := by
  have hip : x.core.ip = y.core.ip := by rw [h]
  unfold File.keeps
  rw [File.type_core h, show x.ip = y.ip from hip]

theorem Acct.refl (hinv : SysInv sb sys) : Acct sb h h c c sys sys :=
  ⟨hinv, fun _ => rfl, fun _ => rfl, fun _ hf => ⟨hf, rfl⟩, fun _ hf _ => hf⟩

theorem Acct.trans (h₁ : Acct sb h h' c c' sys sys') (h₂ : Acct sb h' h'' c' c'' sys' sys'') :
    Acct sb h h'' c c'' sys sys'' := by
  refine ⟨h₂.inv, fun f => ?_, fun k => ?_, fun f hf => ?_, fun f hf hr => ?_⟩
  · have := h₁.files f
    have := h₂.files f
    omega
  · have := h₁.inodes k
    have := h₂.inodes k
    omega
  · obtain ⟨hf', hc'⟩ := h₂.keep f hf
    obtain ⟨hf₀, hc₀⟩ := h₁.keep f hf'
    exact ⟨hf₀, hc'.trans hc₀⟩
  · have hf' := h₁.own f hf hr
    have := h₁.files f
    exact h₂.own f hf' (by omega)

theorem Called.frame (hc : Called sb h h' c c' sys sys') (a b : Nat → Nat) :
    Called sb (a + h) (a + h') (b + c) (b + c') sys sys' := by
  refine ⟨hc.inv, fun f => ?_, fun k => ?_, fun f hf => hc.keep f ?_, fun f hf hr => ?_⟩
  · have := hc.files f
    simp only [Pi.add_apply]
    omega
  · have := hc.inodes k
    simp only [Pi.add_apply]
    omega
  · simp only [Pi.add_apply] at hf
    omega
  · simp only [Pi.add_apply] at hf ⊢
    have := hc.own f (by omega) hr
    omega

theorem Called.pre (hp : Pre sb h c sys) (hc : Called sb h h' c c' sys sys') :
    Pre sb h' c' sys' := by
  refine ⟨hc.inv, fun f => ?_, fun k => ?_⟩
  · have := hp.files f
    have := hc.files f
    omega
  · have := hp.inodes k
    have := hc.inodes k
    omega

theorem Acct.pre (hp : Pre sb h c sys) (ha : Acct sb h h' c c' sys sys') : Pre sb h' c' sys' :=
  ha.called.pre hp

theorem fileRef_congr (hfile : sys'.file = sys.file) (k : Nat) :
    sys'.fileRef k = sys.fileRef k := by
  unfold Sys.fileRef
  rw [hfile]

theorem Acct.of_file_eq (hinv : SysInv sb sys') (hfile : sys'.file = sys.file)
    (hi : ∀ k, sys'.iref k + c k = sys.iref k + c' k) : Acct sb h h c c' sys sys' := by
  refine ⟨hinv, fun f => ?_, fun k => ?_, fun f hf => ?_, fun _ hf _ => hf⟩
  · simp only [Sys.ref, hfile]
  · have := hi k
    rw [fileRef_congr hfile]
    omega
  · simp only [Sys.ref, hfile] at hf
    exact ⟨hf, by rw [hfile]⟩

theorem SysInv.setKm (hinv : SysInv sb sys) (km : Kmem) : SysInv sb { sys with km := km } :=
  { hinv with fs := hinv.fs }

theorem Acct.setKm (hinv : SysInv sb sys) (km : Kmem) : Acct sb h h c c sys { sys with km := km } :=
  .of_file_eq (hinv.setKm km) rfl fun _ => rfl

/-! ## The inode table -/

theorem SysInv.typed_pos (hinv : SysInv sb sys) (hf : (sys.file f).type ≠ .none) : 0 < sys.ref f :=
  Nat.pos_of_ne_zero fun h0 => hf (hinv.untyped f h0)

theorem fileRef_pos (hinv : SysInv sb sys) (hk : (sys.file f).keeps = some k) :
    0 < sys.fileRef k := by
  have htype : (sys.file f).type ≠ .none := by
    intro ht
    simp [File.keeps, ht] at hk
  have hr : f < NFILE := hinv.range f (Nat.pos_of_ne_zero fun h0 => htype (hinv.untyped f h0))
  unfold Sys.fileRef
  refine Finset.sum_pos' (fun _ _ => Nat.zero_le _) ⟨f, Finset.mem_range.mpr hr, ?_⟩
  rw [if_pos hk]
  exact Nat.one_pos

theorem Pre.iref_pos (hp : Pre sb h c sys) (hk : (sys.file f).keeps = some k) : 0 < sys.iref k :=
  Nat.lt_of_lt_of_le (fileRef_pos hp.inv hk) (Nat.le_of_add_right_le (hp.inodes k))

/-- Changing entry `k` only, to one that is unique and names an allocated inode. -/
theorem SysInv.setInode {x : Inode} (hinv : SysInv sb sys) (hrange : 0 < x.ref → k < NINODE)
    (huniq : 0 < x.ref → ∀ k', k' ≠ k → 0 < sys.iref k' → (sys.inode k').inum ≠ x.inum)
    (halloc : 0 < x.ref → (sys.disk.view sb).Allocated sb x.inum) :
    SysInv sb (sys.setInode k x) := by
  refine { hinv with
    irange := fun j hj => ?_, iuniq := fun j j' hj hj' heq => ?_, ialloc := fun j hj => ?_ }
  · simp only [Sys.iref, Sys.setInode, update_apply] at hj
    split at hj
    · rename_i h1
      rw [h1]
      exact hrange hj
    · exact hinv.irange j hj
  · simp only [Sys.iref, Sys.setInode, update_apply] at hj hj' heq
    by_cases h1 : j = k <;> by_cases h2 : j' = k
    · rw [h1, h2]
    · simp only [if_pos h1, if_neg h2] at hj hj' heq
      exact absurd heq.symm (huniq hj j' h2 hj')
    · simp only [if_neg h1, if_pos h2] at hj hj' heq
      exact absurd heq (huniq hj' j h1 hj)
    · simp only [if_neg h1, if_neg h2] at hj hj' heq
      exact hinv.iuniq j j' hj hj' heq
  · simp only [Sys.iref, Sys.setInode, update_apply] at hj ⊢
    split at hj
    · rename_i h1
      rw [if_pos h1]
      exact halloc hj
    · rename_i h1
      rw [if_neg h1]
      exact hinv.ialloc j hj

theorem iref_setInode (sys : Sys) (k j : Nat) (x : Inode) :
    (sys.setInode k x).iref j = if j = k then x.ref else sys.iref j := by
  simp only [Sys.iref, Sys.setInode, update_apply]
  split <;> rfl

/-- Changing the reference count of entry `k` along with the caller's references. -/
theorem Acct.setInode {x : Inode} (hinv : SysInv sb (sys.setInode k x))
    (hk : x.ref + c k = sys.iref k + c' k) (hne : ∀ j, j ≠ k → c' j = c j) :
    Acct sb h h c c' sys (sys.setInode k x) := by
  refine .of_file_eq hinv rfl fun j => ?_
  rw [iref_setInode]
  by_cases hj : j = k
  · rw [if_pos hj, hj]
    exact hk
  · rw [if_neg hj, hne j hj]

theorem Acct.incr_inode (hinv : SysInv sb sys) (hk : 0 < sys.iref k) :
    Acct sb h h c (c + only k) sys
      (sys.setInode k { sys.inode k with ref := (sys.inode k).ref + 1 }) := by
  refine .setInode (hinv.setInode (fun _ => hinv.irange k hk)
    (fun _ k' hne hk' heq => hne (hinv.iuniq k' k hk' hk heq)) fun _ => hinv.ialloc k hk) ?_
    fun j hj => ?_
  · simp only [Sys.iref, Pi.add_apply, only_self]
    omega
  · simp only [Pi.add_apply, only_ne hj, Nat.add_zero]

theorem iget_acct {inum : Nat} (hinv : SysInv sb sys) (ha : (sys.disk.view sb).Allocated sb inum) :
    Post (· = .igetNoInodes) (fun r => Acct sb h h c (c + only r.1) sys r.2 ∧ r.2.km = sys.km ∧
      r.2.disk = sys.disk ∧ (r.2.inode r.1).inum = inum ∧ 0 < r.2.iref r.1) (iget sys inum) := by
  unfold iget
  split
  · rename_i k hfind
    obtain ⟨hk, hnum⟩ : 0 < (sys.inode k).ref ∧ (sys.inode k).inum = inum := by
      simpa using List.find?_some hfind
    refine .ok ⟨.incr_inode hinv hk, rfl, rfl, ?_, ?_⟩
    · simpa [Sys.setInode] using hnum
    · simp [Sys.iref, Sys.setInode]
  · rename_i hnone
    have hnew : ∀ k', 0 < sys.iref k' → (sys.inode k').inum ≠ inum := by
      intro k' hk' heq
      have := List.find?_eq_none.mp hnone k' (List.mem_range.mpr (hinv.irange k' hk'))
      simp only [decide_eq_true_eq, not_and] at this
      exact this hk' heq
    split
    · rename_i k hfind
      have hlt := List.mem_range.mp (List.mem_of_find?_eq_some hfind)
      have hk : sys.iref k = 0 := by simpa [Sys.iref] using List.find?_some hfind
      refine .ok ⟨.setInode (hinv.setInode (fun _ => hlt)
        (fun _ k' _ hk' => hnew k' hk') fun _ => ha) ?_ fun j hj => ?_, rfl, rfl, ?_, ?_⟩
      · simp only [hk, Pi.add_apply, only_self]
        omega
      · simp only [Pi.add_apply, only_ne hj, Nat.add_zero]
      · simp [Sys.setInode]
      · simp [Sys.iref, Sys.setInode]
    · exact .error rfl

theorem ilock_total (href : 0 < (sys.inode k).ref)
    (halloc : (sys.disk.view sb).Allocated sb (sys.inode k).inum) :
    ∃ valid, ilock sb sys (some k) =
    .ok (k, sys.setInode k { sys.inode k with valid := valid }) := by
  have htype : (sys.dinode sb k).type ≠ 0 := halloc.2
  unfold ilock
  dsimp only
  rw [if_neg (by omega)]
  by_cases hvalid : (sys.inode k).valid = true
  · refine ⟨true, ?_⟩
    have hsame : sys.setInode k { sys.inode k with valid := true } = sys := by
      rw [← hvalid]
      exact congrArg (fun g => { sys with inode := g }) (update_eq_self k sys.inode)
    rw [if_pos hvalid, hsame]
  · rw [if_neg hvalid, if_neg htype]
    exact ⟨true, rfl⟩

theorem ilock_acct (hinv : SysInv sb sys) (hk : 0 < sys.iref k) :
    ∃ sys', ilock sb sys (some k) = .ok (k, sys') ∧ Acct sb h h c c sys sys' ∧ sys'.km = sys.km ∧
      sys'.disk = sys.disk ∧ sys'.file = sys.file ∧ (sys'.inode k).inum = (sys.inode k).inum := by
  have hpos : ¬ (sys.inode k).ref < 1 := by
    simp only [Sys.iref] at hk
    omega
  have htype : (sys.dinode sb k).type ≠ 0 := (hinv.ialloc k hk).2
  simp only [ilock, if_neg hpos, if_neg htype]
  split
  · exact ⟨sys, rfl, .refl hinv, rfl, rfl, rfl, rfl⟩
  · refine ⟨_, rfl, .setInode (hinv.setInode (fun _ => hinv.irange k hk)
      (fun _ k' hne hk' heq => hne (hinv.iuniq k' k hk' hk heq)) fun _ => hinv.ialloc k hk) rfl
      fun _ _ => rfl, rfl, rfl, rfl, ?_⟩
    simp [Sys.setInode]

theorem SysInv.setDisk {disk : Fs.Disk} (hinv : SysInv sb sys) (hfs : Fs.FsInv sb disk)
    (halloc : ∀ k, 0 < sys.iref k → (disk.view sb).Allocated sb (sys.inode k).inum) :
    SysInv sb { sys with disk := disk } :=
  { hinv with fs := hfs, ialloc := halloc }

/-- `iput` drops one reference and changes nothing else but the inode it frees. -/
theorem iput_spec (hinv : SysInv sb sys) (hk : 0 < sys.iref k) :
    ∃ sys', iput sb sys k = .ok sys' ∧ SysInv sb sys' ∧ sys'.km = sys.km ∧ sys'.file = sys.file ∧
      ∀ j, sys'.iref j + only k j = sys.iref j := by
  have hcount : ∀ (sys' : Sys), sys'.iref k + 1 = sys.iref k →
      (∀ j, j ≠ k → sys'.iref j = sys.iref j) → ∀ j, sys'.iref j + only k j = sys.iref j := by
    intro sys' hself hne j
    by_cases hj : j = k
    · rw [hj, only_self]
      exact hself
    · rw [only_ne hj, hne j hj, Nat.add_zero]
  unfold iput
  by_cases hlast : (sys.inode k).ref = 1 ∧ (sys.inode k).valid = true ∧ (sys.dinode sb k).nlink = 0
  · obtain ⟨d, hd, hfs, hinode⟩ := hinv.fs.ifree (hinv.ialloc k hk)
    have hfree : Fs.ifree sb sys.disk (sys.inode k).inum (sys.dinode sb k) = .ok d := hd
    simp only [if_pos hlast, hfree, Except.mapError, bind, Except.bind, pure, Except.pure]
    refine ⟨_, rfl, ?_, rfl, rfl, hcount _ ?_ fun j hj => ?_⟩
    · -- first drop the entry, then change the disk under the others
      have hdrop : SysInv sb (sys.setInode k ⟨(sys.inode k).inum, (sys.inode k).ref - 1,
          false⟩) := by
        refine hinv.setInode ?_ ?_ ?_ <;> intro hpos <;> simp only [hlast.1] at hpos <;> omega
      refine hdrop.setDisk hfs fun j hj => ?_
      have hjk : j ≠ k := by
        rintro rfl
        simp [Sys.iref, Sys.setInode, hlast.1] at hj
      have hj' : 0 < sys.iref j := by
        rwa [iref_setInode, if_neg hjk] at hj
      have hnum : (sys.inode j).inum ≠ (sys.inode k).inum :=
        fun heq => hjk (hinv.iuniq j k hj' hk heq)
      have hsame : ((sys.setInode k ⟨(sys.inode k).inum, (sys.inode k).ref - 1, false⟩).inode j) =
          sys.inode j := update_of_ne hjk _ _
      rw [hsame]
      exact Fs.allocated_of_type (hinv.ialloc j hj') (by rw [hinode _ hnum])
    · simp only [Sys.iref, Sys.setInode, update_self]
      omega
    · exact (iref_setInode _ _ _ _).trans (if_neg hj)
  · simp only [if_neg hlast, pure, Except.pure]
    refine ⟨_, rfl, ?_, rfl, rfl, hcount _ ?_ fun j hj => ?_⟩
    · refine hinv.setInode (fun _ => hinv.irange k hk)
        (fun _ k' hne hk' heq => hne (hinv.iuniq k' k hk' hk heq)) fun _ => hinv.ialloc k hk
    · simp only [Sys.iref] at hk
      simp only [Sys.iref, Sys.setInode, update_self]
      omega
    · exact (iref_setInode _ _ _ _).trans (if_neg hj)

theorem iput_acct (hp : Pre sb h (c + only k) sys) :
    ∃ sys', iput sb sys k = .ok sys' ∧ Acct sb h h (c + only k) c sys sys' ∧ sys'.km = sys.km := by
  have hk : 0 < sys.iref k := by
    have := hp.inodes k
    simp only [Pi.add_apply, only_self] at this
    omega
  obtain ⟨sys', hr, hinv, hkm, hfile, hcount⟩ := iput_spec hp.inv hk
  refine ⟨sys', hr, .of_file_eq hinv hfile fun j => ?_, hkm⟩
  have := hcount j
  simp only [Pi.add_apply]
  omega

/-! ## The file table -/

theorem ref_setFile (sys : Sys) (f g : Nat) (x : File) :
    (sys.setFile f x).ref g = if g = f then x.ref else sys.ref g := by
  simp only [Sys.ref, Sys.setFile, update_apply]
  split <;> rfl

theorem file_setFile (sys : Sys) (f g : Nat) (x : File) :
    (sys.setFile f x).file g = if g = f then x else sys.file g := by
  simp only [Sys.setFile, update_apply]

theorem fileRef_setFile (hf : f < NFILE) (x : File) (k : Nat) :
    (sys.setFile f x).fileRef k + (if (sys.file f).keeps = some k then 1 else 0) =
      sys.fileRef k + if x.keeps = some k then 1 else 0 := by
  unfold Sys.fileRef
  exact sum_update_trade (fun x : File => if x.keeps = some k then 1 else 0) sys.file
    (Finset.mem_range.mpr hf) x

/-- Changing the count and the offset of a file that is and stays in use. -/
theorem SysInv.recount {x : File} (hinv : SysInv sb sys) (hf : 0 < sys.ref f)
    (hcore : x.core = (sys.file f).core) (hx : 0 < x.ref) (hoff : x.off < 2 ^ 32) :
    SysInv sb (sys.setFile f x) := by
  have hcores : ∀ g, ((sys.setFile f x).file g).core = (sys.file g).core := by
    intro g
    rw [file_setFile]
    split
    · rename_i hg
      rw [hg, hcore]
    · rfl
  have htype : ∀ g, ((sys.setFile f x).file g).type = (sys.file g).type :=
    fun g => File.type_core (hcores g)
  have hserial : ∀ g, ((sys.setFile f x).file g).serial = (sys.file g).serial :=
    fun g => show ((sys.setFile f x).file g).core.serial = (sys.file g).core.serial by rw [hcores]
  have hip : ∀ g, ((sys.setFile f x).file g).ip = (sys.file g).ip :=
    fun g => show ((sys.setFile f x).file g).core.ip = (sys.file g).core.ip by rw [hcores]
  have hpos : ∀ g, 0 < (sys.setFile f x).ref g ↔ 0 < sys.ref g := by
    intro g
    rw [ref_setFile]
    split
    · rename_i hg
      rw [hg]
      exact iff_of_true hx hf
    · rfl
  refine { hinv with
    range := fun g hg => hinv.range g ((hpos g).mp hg)
    off_lt := fun g => ?_
    untyped := fun g hg => ?_
    ipSet := fun g hg => ?_
    serial_lt := fun g hg => ?_
    serial_inj := fun g g' hg hg' heq => ?_
    notClosed := fun g hg => ?_
    isOpen := fun y => ?_ }
  · rw [file_setFile]
    split
    · exact hoff
    · exact hinv.off_lt g
  · rw [htype]
    have := (hpos g).not
    exact hinv.untyped g (by omega)
  · rw [htype] at hg
    rw [hip]
    exact hinv.ipSet g hg
  · rw [hserial]
    exact hinv.serial_lt g ((hpos g).mp hg)
  · rw [hserial, hserial] at heq
    exact hinv.serial_inj g g' ((hpos g).mp hg) ((hpos g').mp hg') heq
  · rw [hserial]
    exact hinv.notClosed g ((hpos g).mp hg)
  · simp only [htype, hserial]
    exact hinv.isOpen y

theorem Acct.recount {x : File} (hinv : SysInv sb sys) (hf : 0 < sys.ref f)
    (hcore : x.core = (sys.file f).core) (hx : 0 < x.ref) (hoff : x.off < 2 ^ 32)
    (hself : x.ref + h f = sys.ref f + h' f) (hne : ∀ g, g ≠ f → h' g = h g)
    (hown : h f = 0 → h' f = 0) : Acct sb h h' c c sys (sys.setFile f x) := by
  refine ⟨hinv.recount hf hcore hx hoff, fun g => ?_, fun k => ?_, fun g hg => ?_, fun g hg _ => ?_⟩
  · rw [ref_setFile]
    split
    · rename_i hg
      rw [hg]
      exact hself
    · rename_i hg
      rw [hne g hg]
  · have := @fileRef_setFile sys f (hinv.range f hf) x k
    rw [File.keeps_core hcore] at this
    have hi : (sys.setFile f x).iref k = sys.iref k := rfl
    omega
  · rw [ref_setFile] at hg
    rw [file_setFile]
    split at hg
    · rename_i hgf
      rw [if_pos hgf, hgf]
      exact ⟨hf, hcore⟩
    · rename_i hgf
      rw [if_neg hgf]
      exact ⟨hg, rfl⟩
  · by_cases hgf : g = f
    · rw [hgf] at hg ⊢
      exact hown hg
    · rw [hne g hgf]
      exact hg

theorem filedup_acct (hp : Pre sb h c sys) (hf : 0 < h f) :
    ∃ sys', filedup sys f = .ok sys' ∧ Acct sb h (h + only f) c c sys sys' ∧ sys'.km = sys.km := by
  have hr : 0 < sys.ref f := Nat.lt_of_lt_of_le hf (hp.files f)
  simp only [Sys.ref] at hr
  simp only [filedup, if_neg (show ¬ (sys.file f).ref < 1 by omega)]
  refine ⟨_, rfl, .recount hp.inv hr rfl (Nat.succ_pos _) (hp.inv.off_lt f) ?_ (fun g hg => ?_)
    fun h0 => by omega, rfl⟩
  · simp only [Sys.ref, Pi.add_apply, only_self]
    omega
  · simp only [Pi.add_apply, only_ne hg, Nat.add_zero]

theorem file_take_ne (sys : Sys) {f g : Nat} (hg : g ≠ f) : (sys.take f).file g = sys.file g :=
  update_of_ne hg _ _

theorem file_take_self (sys : Sys) (f : Nat) :
    (sys.take f).file f = { sys.file f with ref := 1, serial := sys.serials } :=
  update_self _ _ _

theorem type_take (sys : Sys) (f g : Nat) : ((sys.take f).file g).type = (sys.file g).type := by
  by_cases hg : g = f
  · rw [hg, file_take_self]
  · rw [file_take_ne sys hg]

theorem SysInv.take (hinv : SysInv sb sys) (hlt : f < NFILE) (hf : sys.ref f = 0) :
    SysInv sb (sys.take f) := by
  have hold : ∀ g, g ≠ f → (0 < (sys.take f).ref g ↔ 0 < sys.ref g) := fun g hg => by
    rw [Sys.ref, file_take_ne sys hg]
    rfl
  have hserial : ∀ g, 0 < (sys.take f).ref g → g ≠ f → ((sys.take f).file g).serial < sys.serials :=
    fun g hg hgf => by
      rw [file_take_ne sys hgf]
      exact hinv.serial_lt g ((hold g hgf).mp hg)
  refine { hinv with
    range := fun g hg => ?_
    off_lt := fun g => ?_
    untyped := fun g hg => ?_
    ipSet := fun g hg => ?_
    serial_lt := fun g hg => ?_
    serial_inj := fun g g' hg hg' heq => ?_
    opened_lt := fun y hy => Nat.lt_succ_of_lt (hinv.opened_lt y hy)
    notClosed := fun g hg => ?_
    isOpen := fun y => ?_ }
  · by_cases hgf : g = f
    · rw [hgf]
      exact hlt
    · exact hinv.range g ((hold g hgf).mp hg)
  · by_cases hgf : g = f
    · rw [hgf, file_take_self]
      exact hinv.off_lt f
    · rw [file_take_ne sys hgf]
      exact hinv.off_lt g
  · rw [type_take]
    by_cases hgf : g = f
    · rw [hgf]
      exact hinv.untyped f hf
    · rw [Sys.ref, file_take_ne sys hgf] at hg
      exact hinv.untyped g hg
  · rw [type_take] at hg
    by_cases hgf : g = f
    · rw [hgf, file_take_self]
      rw [hgf] at hg
      exact hinv.ipSet f hg
    · rw [file_take_ne sys hgf]
      exact hinv.ipSet g hg
  · by_cases hgf : g = f
    · rw [hgf, file_take_self]
      exact Nat.lt_succ_self _
    · exact Nat.lt_succ_of_lt (hserial g hg hgf)
  · -- the new serial number is larger than all others
    by_cases hgf : g = f <;> by_cases hgf' : g' = f
    · rw [hgf, hgf']
    · have := hserial g' hg' hgf'
      rw [← heq, hgf, file_take_self] at this
      exact absurd this (Nat.lt_irrefl _)
    · have := hserial g hg hgf
      rw [heq, hgf', file_take_self] at this
      exact absurd this (Nat.lt_irrefl _)
    · rw [file_take_ne sys hgf, file_take_ne sys hgf'] at heq
      exact hinv.serial_inj g g' ((hold g hgf).mp hg) ((hold g' hgf').mp hg') heq
  · by_cases hgf : g = f
    · rw [hgf, file_take_self]
      exact fun hc => Nat.lt_irrefl _ (hinv.opened_lt _ (hinv.closed_sub _ hc))
    · rw [file_take_ne sys hgf]
      exact hinv.notClosed g ((hold g hgf).mp hg)
  · rw [show (sys.take f).opened = sys.opened from rfl, show (sys.take f).closed =
      sys.closed from rfl, hinv.isOpen]
    -- the file that is taken is not open
    have hnone : (sys.file f).type = .none := hinv.untyped f hf
    have hne : ∀ g, (sys.file g).type ≠ .none → g ≠ f := fun g hg h => hg (h ▸ hnone)
    constructor
    · rintro ⟨g, hg, hy⟩
      exact ⟨g, by rwa [type_take], by rwa [file_take_ne sys (hne g hg)]⟩
    · rintro ⟨g, hg, hy⟩
      rw [type_take] at hg
      rw [file_take_ne sys (hne g hg)] at hy
      exact ⟨g, hg, hy⟩

theorem filealloc_some (hr : filealloc sys = some (f, sys')) :
    f < NFILE ∧ sys.ref f = 0 ∧ sys' = sys.take f := by
  obtain ⟨f', hfind, heq⟩ := Option.map_eq_some_iff.mp hr
  cases heq
  exact ⟨List.mem_range.mp (List.mem_of_find?_eq_some hfind),
    by simpa [Sys.ref] using List.find?_some hfind, rfl⟩

theorem keeps_of_none {x : File} (hx : x.type = .none) : x.keeps = none := by
  simp [File.keeps, hx]

theorem Called.take (hinv : SysInv sb sys) (hlt : f < NFILE) (hf : sys.ref f = 0) :
    Called sb h (h + only f) c c sys (sys.take f) := by
  have hne : ∀ g, 0 < sys.ref g → g ≠ f := fun g hg h0 => by
    rw [h0, hf] at hg
    exact Nat.lt_irrefl 0 hg
  refine ⟨hinv.take hlt hf, fun g => ?_, fun k => ?_, fun g hg => ?_, fun g hg hr => ?_⟩
  · by_cases hgf : g = f
    · rw [hgf, hf, Sys.ref, file_take_self]
      simp only [Pi.add_apply, only_self]
      omega
    · rw [Sys.ref, file_take_ne sys hgf]
      simp only [Pi.add_apply, only_ne hgf]
      rfl
  · have hset := @fileRef_setFile sys f hlt { sys.file f with ref := 1, serial := sys.serials } k
    have hkeeps : File.keeps { sys.file f with ref := 1, serial := sys.serials } =
      (sys.file f).keeps := rfl
    rw [hkeeps] at hset
    have hsame : (sys.take f).fileRef k =
        (sys.setFile f { sys.file f with ref := 1, serial := sys.serials }).fileRef k :=
      fileRef_congr (show (sys.take f).file = Sys.file (sys.setFile f _) from rfl) k
    have hi : (sys.take f).iref k = sys.iref k := rfl
    omega
  · rw [file_take_ne sys (hne g (by omega))]
  · simp only [Pi.add_apply, hg, only_ne (hne g hr)]

theorem file_install_ne (sys : Sys) (x : File) {f g : Nat} (hg : g ≠ f) :
    (sys.install f x).file g = sys.file g :=
  update_of_ne hg _ _

theorem file_install_self (sys : Sys) (f : Nat) (x : File) : (sys.install f x).file f = x :=
  update_self _ _ _

theorem SysInv.install {x : File} (hinv : SysInv sb sys) (hf : 0 < sys.ref f)
    (hnone : (sys.file f).type = .none) (href : x.ref = sys.ref f) (hty : x.type ≠ .none)
    (hserial : x.serial = (sys.file f).serial) (hoff : x.off < 2 ^ 32)
    (hip : x.type = .inode ∨ x.type = .device → x.ip ≠ none) : SysInv sb (sys.install f x) := by
  have hne : ∀ g, (sys.file g).type ≠ .none → g ≠ f := fun g hg h => hg (h ▸ hnone)
  have hnew : x.serial ∉ sys.opened := by
    intro hmem
    rw [hserial] at hmem
    obtain ⟨g, hg, heq⟩ := (hinv.isOpen _).mp ⟨hmem, hinv.notClosed f hf⟩
    exact hne g hg (hinv.serial_inj g f (hinv.typed_pos hg) hf heq)
  have hrefs : ∀ g, (sys.install f x).ref g = sys.ref g := by
    intro g
    by_cases hgf : g = f
    · rw [hgf, Sys.ref, file_install_self, href]
    · rw [Sys.ref, file_install_ne sys x hgf]
      rfl
  have hserials : ∀ g, ((sys.install f x).file g).serial = (sys.file g).serial := by
    intro g
    by_cases hgf : g = f
    · rw [hgf, file_install_self, hserial]
    · rw [file_install_ne sys x hgf]
  refine { hinv with
    range := fun g hg => hinv.range g (hrefs g ▸ hg)
    off_lt := fun g => ?_
    untyped := fun g hg => ?_
    ipSet := fun g hg => ?_
    serial_lt := fun g hg => ?_
    serial_inj := fun g g' hg hg' heq => ?_
    opened_lt := fun y hy => ?_
    opened_nodup := hinv.opened_nodup.append (by simp) (by simpa using hnew)
    closed_sub := fun y hy => List.mem_append_left _ (hinv.closed_sub y hy)
    notClosed := fun g hg => ?_
    isOpen := fun y => ?_ }
  · by_cases hgf : g = f
    · rw [hgf, file_install_self]
      exact hoff
    · rw [file_install_ne sys x hgf]
      exact hinv.off_lt g
  · rw [hrefs] at hg
    have hgf : g ≠ f := fun h => by
      rw [← h, hg] at hf
      exact Nat.lt_irrefl 0 hf
    rw [file_install_ne sys x hgf]
    exact hinv.untyped g hg
  · by_cases hgf : g = f
    · rw [hgf, file_install_self] at hg ⊢
      exact hip hg
    · rw [file_install_ne sys x hgf] at hg ⊢
      exact hinv.ipSet g hg
  · rw [hserials]
    exact hinv.serial_lt g (hrefs g ▸ hg)
  · rw [hserials, hserials] at heq
    exact hinv.serial_inj g g' (hrefs g ▸ hg) (hrefs g' ▸ hg') heq
  · rcases List.mem_append.mp hy with hy | hy
    · exact hinv.opened_lt y hy
    · rw [List.mem_singleton.mp hy, hserial]
      exact hinv.serial_lt f hf
  · rw [hserials]
    exact hinv.notClosed g (hrefs g ▸ hg)
  · have hold := hinv.isOpen y
    rw [show (sys.install f x).opened = sys.opened ++ [x.serial] from rfl,
      show (sys.install f x).closed = sys.closed from rfl, List.mem_append, List.mem_singleton]
    constructor
    · rintro ⟨hy | rfl, hc⟩
      · obtain ⟨g, hg, rfl⟩ := hold.mp ⟨hy, hc⟩
        exact ⟨g, by rwa [file_install_ne sys x (hne g hg)], hserials g⟩
      · exact ⟨f, by rwa [file_install_self], by rw [file_install_self]⟩
    · rintro ⟨g, hg, hy⟩
      by_cases hgf : g = f
      · rw [hgf, file_install_self] at hy
        rw [← hy, hserial]
        exact ⟨Or.inr rfl, hinv.notClosed f hf⟩
      · rw [file_install_ne sys x hgf] at hg hy
        obtain ⟨ho, hc⟩ := hold.mpr ⟨g, hg, hy⟩
        exact ⟨Or.inl ho, hc⟩

/-- A caller that alone holds a fresh file opens it; the file takes over the caller's
reference to an entry of the inode table. -/
theorem Called.install {x : File} (hinv : SysInv sb sys) (hf : sys.ref f = 1) (hh : 0 < h f)
    (hnone : (sys.file f).type = .none) (href : x.ref = sys.ref f) (hty : x.type ≠ .none)
    (hserial : x.serial = (sys.file f).serial) (hoff : x.off < 2 ^ 32)
    (hip : x.type = .inode ∨ x.type = .device → x.ip ≠ none)
    (hc : ∀ k, c k = c' k + if x.keeps = some k then 1 else 0) :
    Called sb h h c c' sys (sys.install f x) := by
  have hpos : 0 < sys.ref f := by omega
  have hlt := hinv.range f hpos
  refine ⟨hinv.install hpos hnone href hty hserial hoff hip, fun g => ?_, fun k => ?_,
    fun g hg => ?_, fun g hg _ => hg⟩
  · by_cases hgf : g = f
    · rw [hgf, Sys.ref, file_install_self, href]
    · rw [Sys.ref, file_install_ne sys x hgf]
      rfl
  · have hset := @fileRef_setFile sys f hlt x k
    rw [keeps_of_none hnone, if_neg (Option.some_ne_none k).symm] at hset
    have hsame : (sys.install f x).fileRef k = (sys.setFile f x).fileRef k :=
      fileRef_congr (show (sys.install f x).file = (sys.setFile f x).file from rfl) k
    have hi : (sys.install f x).iref k = sys.iref k := rfl
    have := hc k
    omega
  · have hgf : g ≠ f := fun h => by
      rw [h] at hg
      omega
    rw [file_install_ne sys x hgf]

/-- The file table when the last reference to `f` is dropped. -/
def Sys.shut (sys : Sys) (f : Nat) : Sys :=
  { sys.setFile f { sys.file f with ref := 0, type := .none } with
    closed := if (sys.file f).type = .none then sys.closed else sys.closed ++
      [(sys.file f).serial] }

theorem fileclose_last (sb : Fs.Superblock) (hf : sys.ref f = 1) : fileclose sb sys f =
    match (sys.file f).type with
    | .none => .ok (sys.shut f)
    | .pipe => .ok (pipeclose (sys.shut f) (sys.file f).pipe (sys.file f).writable)
    | .inode | .device => iputPtr sb (sys.shut f) (sys.file f).ip := by
  simp only [Sys.ref] at hf
  unfold fileclose Sys.shut
  rw [if_neg (by omega), if_neg (by omega)]
  cases (sys.file f).type <;> rfl

theorem file_shut_ne (sys : Sys) {f g : Nat} (hg : g ≠ f) : (sys.shut f).file g = sys.file g :=
  update_of_ne hg _ _

theorem file_shut_self (sys : Sys) (f : Nat) :
    (sys.shut f).file f = { sys.file f with ref := 0, type := .none } :=
  update_self _ _ _

theorem shut_pos {g : Nat} (hg : 0 < (sys.shut f).ref g) : g ≠ f ∧ 0 < sys.ref g := by
  by_cases hgf : g = f
  · rw [hgf, Sys.ref, file_shut_self] at hg
    exact absurd hg (Nat.lt_irrefl 0)
  · rw [Sys.ref, file_shut_ne sys hgf] at hg
    exact ⟨hgf, hg⟩

theorem mem_closed_shut {y : Nat} : y ∈ (sys.shut f).closed ↔
    y ∈ sys.closed ∨ (sys.file f).type ≠ .none ∧ y = (sys.file f).serial := by
  simp only [Sys.shut]
  split
  · simp [*]
  · simp [*]

theorem SysInv.shut (hinv : SysInv sb sys) (hf : 0 < sys.ref f) : SysInv sb (sys.shut f) := by
  have hother : ∀ g, (sys.file g).type ≠ .none → (sys.file g).serial = (sys.file f).serial →
      g = f :=
    fun g hg heq => hinv.serial_inj g f (hinv.typed_pos hg) hf heq
  refine { hinv with
    range := fun g hg => hinv.range g (shut_pos hg).2
    off_lt := fun g => ?_
    untyped := fun g hg => ?_
    ipSet := fun g hg => ?_
    serial_lt := fun g hg => ?_
    serial_inj := fun g g' hg hg' heq => ?_
    closed_nodup := ?_
    closed_sub := fun y hy => ?_
    notClosed := fun g hg => ?_
    isOpen := fun y => ?_ }
  · by_cases hgf : g = f
    · rw [hgf, file_shut_self]
      exact hinv.off_lt f
    · rw [file_shut_ne sys hgf]
      exact hinv.off_lt g
  · by_cases hgf : g = f
    · rw [hgf, file_shut_self]
    · rw [Sys.ref, file_shut_ne sys hgf] at hg
      rw [file_shut_ne sys hgf]
      exact hinv.untyped g hg
  · by_cases hgf : g = f
    · rw [hgf, file_shut_self] at hg
      simp at hg
    · rw [file_shut_ne sys hgf] at hg ⊢
      exact hinv.ipSet g hg
  · obtain ⟨hgf, hg⟩ := shut_pos hg
    rw [file_shut_ne sys hgf]
    exact hinv.serial_lt g hg
  · obtain ⟨hgf, hg⟩ := shut_pos hg
    obtain ⟨hgf', hg'⟩ := shut_pos hg'
    rw [file_shut_ne sys hgf, file_shut_ne sys hgf'] at heq
    exact hinv.serial_inj g g' hg hg' heq
  · simp only [Sys.shut]
    split
    · exact hinv.closed_nodup
    · exact hinv.closed_nodup.append (by simp) (by simpa using hinv.notClosed f hf)
  · rcases mem_closed_shut.mp hy with hy | ⟨hty, rfl⟩
    · exact hinv.closed_sub y hy
    · exact ((hinv.isOpen _).mpr ⟨f, hty, rfl⟩).1
  · obtain ⟨hgf, hg⟩ := shut_pos hg
    rw [file_shut_ne sys hgf, mem_closed_shut]
    rintro (hc | ⟨-, heq⟩)
    · exact hinv.notClosed g hg hc
    · exact hgf (hinv.serial_inj g f hg hf heq)
  · rw [mem_closed_shut]
    have hold := hinv.isOpen y
    constructor
    · rintro ⟨ho, hc⟩
      obtain ⟨g, hg, rfl⟩ := hold.mp ⟨ho, fun h => hc (Or.inl h)⟩
      have hgf : g ≠ f := fun heq => hc (Or.inr ⟨heq ▸ hg, by rw [heq]⟩)
      exact ⟨g, by rwa [file_shut_ne sys hgf], by rw [file_shut_ne sys hgf]⟩
    · rintro ⟨g, hg, hy⟩
      have hgf : g ≠ f := by
        rintro rfl
        rw [file_shut_self] at hg
        exact hg rfl
      rw [file_shut_ne sys hgf] at hg hy
      obtain ⟨ho, hc⟩ := hold.mpr ⟨g, hg, hy⟩
      refine ⟨ho, ?_⟩
      rintro (h | ⟨-, h⟩)
      · exact hc h
      · exact hgf (hother g hg (hy.trans h))

theorem fileRef_shut (hf : f < NFILE) (k : Nat) :
    (sys.shut f).fileRef k + (if (sys.file f).keeps = some k then 1 else 0) = sys.fileRef k := by
  have hset := @fileRef_setFile sys f hf { sys.file f with ref := 0, type := .none } k
  have hnone : File.keeps { sys.file f with ref := 0, type := .none } = none := rfl
  have hsame : (sys.shut f).fileRef k =
      (sys.setFile f { sys.file f with ref := 0, type := .none }).fileRef k :=
    fileRef_congr (show (sys.shut f).file = Sys.file (sys.setFile f _) from rfl) k
  rw [hnone, if_neg (Option.some_ne_none k).symm, Nat.add_zero] at hset
  rw [hsame, hset]

/-- Dropping the last reference: what remains to show is that the entry of the inode
table that the file kept loses its reference too. -/
theorem Acct.shut (hf : sys.ref f = 1) (hlt : f < NFILE) (hinv : SysInv sb sys')
    (hfile : sys'.file = (sys.shut f).file)
    (hi : ∀ k, sys'.iref k + (if (sys.file f).keeps = some k then 1 else 0) = sys.iref k) :
    Acct sb (h + only f) h c c sys sys' := by
  have href : ∀ g, sys'.ref g = (sys.shut f).ref g := fun g => by simp only [Sys.ref, hfile]
  refine ⟨hinv, fun g => ?_, fun k => ?_, fun g hg => ?_, fun g hg _ => ?_⟩
  · rw [href]
    by_cases hgf : g = f
    · rw [hgf, hf, Sys.ref, file_shut_self]
      simp only [Pi.add_apply, only_self]
      omega
    · rw [Sys.ref, file_shut_ne sys hgf]
      simp only [Pi.add_apply, only_ne hgf]
      rfl
  · have := @fileRef_shut sys f hlt k
    have := hi k
    have hsame : sys'.fileRef k = (sys.shut f).fileRef k := fileRef_congr hfile k
    omega
  · rw [href] at hg
    obtain ⟨hgf, hg⟩ := shut_pos hg
    rw [hfile, file_shut_ne sys hgf]
    exact ⟨hg, rfl⟩
  · simp only [Pi.add_apply] at hg
    omega

theorem pipeclose_same (hinv : SysInv sb sys) (pi : Nat) (writable : Bool) :
    SysInv sb (pipeclose sys pi writable) ∧ (pipeclose sys pi writable).file = sys.file ∧
      (pipeclose sys pi writable).inode = sys.inode := by
  unfold pipeclose
  dsimp only
  generalize (if writable = true then _ else _ : Pipe) = p
  split
  · exact ⟨{ hinv with fs := hinv.fs }, rfl, rfl⟩
  · exact ⟨{ hinv with fs := hinv.fs }, rfl, rfl⟩

theorem shut_iput (hp : Pre sb (h + only f) c sys) (hf : sys.ref f = 1)
    (hty : (sys.file f).type = .inode ∨ (sys.file f).type = .device)
    (hk : (sys.file f).ip = some k) :
    ∃ sys', iput sb (sys.shut f) k = .ok sys' ∧ Acct sb (h + only f) h c c sys sys' := by
  have hkeeps : (sys.file f).keeps = some k := by rw [File.keeps, if_pos hty, hk]
  have hpos : 0 < sys.ref f := by omega
  obtain ⟨sys', hr, hinv, -, hfile, hcount⟩ :=
    iput_spec (hp.inv.shut hpos) (show 0 < (sys.shut f).iref k from hp.iref_pos hkeeps)
  refine ⟨sys', hr, .shut hf (hp.inv.range f hpos) hinv hfile fun j => ?_⟩
  rw [hkeeps, show sys.iref j = (sys.shut f).iref j from rfl, ← hcount j]
  by_cases hj : j = k
  · rw [hj, only_self, if_pos rfl]
  · rw [only_ne hj, if_neg (by simpa using Ne.symm hj)]

theorem fileclose_acct (hp : Pre sb (h + only f) c sys) :
    ∃ sys', fileclose sb sys f = .ok sys' ∧ Acct sb (h + only f) h c c sys sys' := by
  have hle := hp.files f
  simp only [Pi.add_apply, only_self] at hle
  have hpos : 0 < sys.ref f := by omega
  have hlt := hp.inv.range f hpos
  by_cases hmany : sys.ref f = 1
  · rw [fileclose_last sb hmany]
    have hshut := hp.inv.shut hpos
    have hnone : (sys.file f).type = .none ∨ (sys.file f).type = .pipe →
        ∀ k, (sys.iref k + if (sys.file f).keeps = some k then 1 else 0) = sys.iref k := by
      intro hty k
      have hk : (sys.file f).keeps = none := by
        rcases hty with hty | hty <;> simp [File.keeps, hty]
      rw [hk]
      rfl
    cases hty : (sys.file f).type with
    | none => exact ⟨_, rfl, .shut hmany hlt hshut rfl (hnone (Or.inl hty))⟩
    | pipe =>
      obtain ⟨hinv, hfile, hinode⟩ := pipeclose_same hshut (sys.file f).pipe (sys.file f).writable
      refine ⟨_, rfl, .shut hmany hlt hinv hfile fun k => ?_⟩
      rw [Sys.iref, hinode]
      exact hnone (Or.inr hty) k
    | inode =>
      obtain ⟨k, hk⟩ := Option.ne_none_iff_exists'.mp (hp.inv.ipSet f (Or.inl hty))
      rw [hk]
      exact shut_iput hp hmany (Or.inl hty) hk
    | device =>
      obtain ⟨k, hk⟩ := Option.ne_none_iff_exists'.mp (hp.inv.ipSet f (Or.inr hty))
      rw [hk]
      exact shut_iput hp hmany (Or.inr hty) hk
  · simp only [Sys.ref] at hpos hmany
    simp only [fileclose, if_neg (show ¬ (sys.file f).ref < 1 by omega),
      if_pos (show (sys.file f).ref - 1 > 0 by omega)]
    refine ⟨_, rfl, .recount hp.inv hpos rfl ?_ (hp.inv.off_lt f) ?_ (fun g hg => ?_) fun h0 => ?_⟩
    · show 0 < (sys.file f).ref - 1
      omega
    · simp only [Sys.ref, Pi.add_apply, only_self]
      omega
    · simp only [Pi.add_apply, only_ne hg, Nat.add_zero]
    · simp only [Pi.add_apply, only_self] at h0
      omega

/-! ## `filewrite` -/

theorem SysInv.setDisk_of_type {disk : Fs.Disk} (hinv : SysInv sb sys) (hfs : Fs.FsInv sb disk)
    (htype : ∀ j, ((disk.view sb).inode j).type = ((sys.disk.view sb).inode j).type) :
    SysInv sb { sys with disk := disk } :=
  hinv.setDisk hfs fun k hk => Fs.allocated_of_type (hinv.ialloc k hk) (htype _)

theorem writeChunk_acct {pt : PageTable} {addr n1 : Nat} (hp : Pre sb h c sys)
    (hf : (sys.file f).type = .inode) (hn : n1 < 2 ^ 32) :
    Post (· = .fs .ballocOutOfBlocks) (fun r => Acct sb h h c c sys r.2 ∧ r.2.km = sys.km ∧
      (r.2.file f).type = .inode) (writeChunk sb pt f addr n1 sys) := by
  obtain ⟨k, hk⟩ := Option.ne_none_iff_exists'.mp (hp.inv.ipSet f (Or.inl hf))
  have hkeeps : (sys.file f).keeps = some k := by rw [File.keeps, if_pos (Or.inl hf), hk]
  obtain ⟨sys₁, hr, ha, hkm, hdisk, hfile, hnum⟩ :=
    @ilock_acct sb h c sys k hp.inv (hp.iref_pos hkeeps)
  have hinv := ha.inv
  have hpos : 0 < sys₁.ref f := by
    rw [Sys.ref, hfile]
    exact hp.inv.typed_pos (by rw [hf]; decide)
  have hioff := hinv.off_lt f
  have hialloc : (sys₁.disk.view sb).Allocated sb (sys₁.inode k).inum := by
    rw [hdisk, hnum]
    exact hp.inv.ialloc k (hp.iref_pos hkeeps)
  unfold writeChunk
  rw [hk]
  refine Post.bind_of_ok hr ?_
  dsimp only
  refine Post.bind (Post.mapError_iff.mpr ((hinv.fs.writei hialloc hioff hn).mono ?_ fun _ => id))
    ?_
  · intro e he
    rw [he]
  · rintro ⟨r, ip, disk⟩ ⟨hfs, htype⟩
    have hinv' := hinv.setDisk_of_type hfs htype
    have ha' : Acct sb h h c c sys { sys₁ with disk := disk } :=
      ha.trans (.of_file_eq hinv' rfl fun _ => rfl)
    dsimp only
    refine Post.ite (fun hrpos => ?_) fun _ => ?_
    · refine .pure ⟨ha'.trans (.recount hinv' hpos rfl hpos (Nat.mod_lt _ (by decide)) rfl
        (fun _ _ => rfl) id), hkm, ?_⟩
      simp only [Sys.setFile, update_self, hfile]
      exact hf
    · refine .pure ⟨ha', hkm, ?_⟩
      show (sys₁.file f).type = .inode
      rw [hfile]
      exact hf

theorem filewriteLoop_acct {pt : PageTable} {addr n fuel i : Nat} (hp : Pre sb h c sys)
    (hf : (sys.file f).type = .inode) :
    Post (· = .fs .ballocOutOfBlocks) (fun sys' => Acct sb h h c c sys sys' ∧ sys'.km = sys.km)
      (filewriteLoop sb pt f addr n fuel i sys) := by
  induction fuel generalizing i sys with
  | zero => exact .ok ⟨.refl hp.inv, rfl⟩
  | succ fuel ih =>
    unfold filewriteLoop
    refine Post.ite (fun _ => ?_) fun _ => .ok ⟨.refl hp.inv, rfl⟩
    have hmax : min (n - i) maxWrite < 2 ^ 32 :=
      Nat.lt_of_le_of_lt (Nat.min_le_right _ _) (by decide)
    refine (writeChunk_acct hp hf hmax).bind ?_
    rintro ⟨r, sys₁⟩ ⟨ha, hkm, hf₁⟩
    refine Post.ite (fun _ => .pure ⟨ha, hkm⟩) fun _ => ?_
    exact (ih (ha.pre hp) hf₁).imp fun sys' h' => ⟨ha.trans h'.1, h'.2.trans hkm⟩

/-- `filewrite` changes no reference; it can run out of blocks, and panics on a file
that is not open. -/
theorem filewrite_acct {pt : PageTable} {addr : Nat} {n : Int} (hp : Pre sb h c sys) :
    Post (fun e => e = .fs .ballocOutOfBlocks ∨ e = .filewrite ∧ (sys.file f).type = .none)
      (fun sys' => Acct sb h h c c sys sys' ∧ sys'.km = sys.km) (filewrite sb pt sys f addr n) := by
  unfold filewrite
  refine Post.ite (fun _ => .ok ⟨.refl hp.inv, rfl⟩) fun _ => ?_
  cases hty : (sys.file f).type with
  | none => exact .error (Or.inr ⟨rfl, rfl⟩)
  | pipe => exact .ok ⟨.refl hp.inv, rfl⟩
  | device => exact .ok ⟨.refl hp.inv, rfl⟩
  | inode => exact (filewriteLoop_acct hp hty).mono (fun e he => Or.inl he) fun _ => id

end

end Xv6.Kernel
