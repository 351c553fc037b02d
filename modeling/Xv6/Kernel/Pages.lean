import Xv6.Kernel.FileInv
import Xv6.Kernel.Syscall
import Xv6.Vm.Space

/-! # Pages of shared objects

A physical page that no process uses is free or holds a pipe. The calls on open files
keep the number of such places of each page; what makes this work is that a pipe has at
most one file for each of its ends, so that each end is closed once.
-/

namespace Xv6.Kernel

open Function Lib Vm

/-- Whether a file is the write end, or the read end, of the pipe in page `q`. -/
def File.isEnd (q : Nat) (writable : Bool) (x : File) : Nat :=
  if x.type = .pipe ∧ x.pipe = q ∧ x.writable = writable then 1 else 0

def Pipe.isOpen (pi : Pipe) (writable : Bool) : Bool :=
  if writable then pi.writeopen else pi.readopen

namespace Sys

variable (sys : Sys)

/-- Files that are the write end, or the read end, of the pipe in page `q`. -/
@[irreducible] def ends (q : Nat) (writable : Bool) : Nat :=
  ∑ f ∈ Finset.range NFILE, (sys.file f).isEnd q writable

def pipes (q : Nat) : Nat := if (sys.pipe q).readopen || (sys.pipe q).writeopen then 1 else 0

def pages (q : Nat) : Nat := sys.km.free.count q + sys.pipes q

end Sys

/-- Each open end of a pipe is the end of one file. -/
structure PipeInv (sys : Sys) : Prop where
  range : ∀ f, 0 < sys.ref f → f < NFILE
  untyped : ∀ f, sys.ref f = 0 → (sys.file f).type = .none
  ends : ∀ q w, sys.ends q w = if (sys.pipe q).isOpen w then 1 else 0

/-- A call that keeps every page in its place or moves it between the free list and the
pipes. -/
structure Kept (sys sys' : Sys) : Prop where
  inv : PipeInv sys'
  pages : ∀ q, sys'.pages q = sys.pages q

/-- A call that changes neither the free list nor a pipe nor what a file is. -/
structure Quiet (sys sys' : Sys) : Prop where
  free : sys'.km.free = sys.km.free
  pipe : sys'.pipe = sys.pipe
  isEnd : ∀ f q w, (sys'.file f).isEnd q w = (sys.file f).isEnd q w
  type : ∀ f, (sys'.file f).type = (sys.file f).type
  dead : ∀ f, sys'.ref f = 0 → sys.ref f = 0
  live : ∀ f, 0 < sys'.ref f → 0 < sys.ref f ∨ f < NFILE

/-- A process whose memory is the same; its files may differ. -/
structure SameMem (p p' : Proc) : Prop where
  state : p'.state = p.state
  sz : p'.sz = p.sz
  pagetable : p'.pagetable = p.pagetable
  trapframe : p'.trapframe = p.trapframe
  vma : p'.vma = p.vma

theorem SameMem.refl (p : Proc) : SameMem p p := ⟨rfl, rfl, rfl, rfl, rfl⟩

section

variable {sb : Fs.Superblock} {sys sys' sys'' : Sys} {p : Proc} {pt : PageTable} {f k q : Nat}
    {w : Bool} {x : File}

theorem Kept.refl (hinv : PipeInv sys) : Kept sys sys := ⟨hinv, fun _ => rfl⟩

theorem Kept.trans (h : Kept sys sys') (h' : Kept sys' sys'') : Kept sys sys'' :=
  ⟨h'.inv, fun q => (h'.pages q).trans (h.pages q)⟩

theorem Quiet.refl (sys : Sys) : Quiet sys sys :=
  ⟨rfl, rfl, fun _ _ _ => rfl, fun _ => rfl, fun _ => id, fun _ => Or.inl⟩

theorem Quiet.trans (h : Quiet sys sys') (h' : Quiet sys' sys'') : Quiet sys sys'' where
  free := h'.free.trans h.free
  pipe := h'.pipe.trans h.pipe
  isEnd f q w := (h'.isEnd f q w).trans (h.isEnd f q w)
  type f := (h'.type f).trans (h.type f)
  dead f hf := h.dead f (h'.dead f hf)
  live f hf := (h'.live f hf).elim (h.live f) Or.inr

theorem Quiet.kept (h : Quiet sys sys') (hinv : PipeInv sys) : Kept sys sys' := by
  have hends : ∀ q w, sys'.ends q w = sys.ends q w := by
    intro q w
    unfold Sys.ends
    exact Finset.sum_congr rfl fun f _ => h.isEnd f q w
  refine ⟨⟨fun f hf => ?_, fun f hf => ?_, fun q w => ?_⟩, fun q => ?_⟩
  · exact (h.live f hf).elim (hinv.range f) id
  · rw [h.type f]
    exact hinv.untyped f (h.dead f hf)
  · rw [hends, h.pipe]
    exact hinv.ends q w
  · unfold Sys.pages Sys.pipes
    rw [h.free, h.pipe]

theorem PipeInv.setKm (hinv : PipeInv sys) (km : Kmem) : PipeInv { sys with km := km } := by
  refine ⟨hinv.range, hinv.untyped, fun q w => ?_⟩
  have hends := hinv.ends q w
  unfold Sys.ends at hends ⊢
  exact hends

/-- The shared objects up to the disk, the contents of memory and the inode table. -/
theorem Quiet.of_eq (hfree : sys'.km.free = sys.km.free) (hpipe : sys'.pipe = sys.pipe)
    (hfile : sys'.file = sys.file) : Quiet sys sys' := by
  refine ⟨hfree, hpipe, fun f q w => ?_, fun f => ?_, fun f => ?_, fun f => ?_⟩
  · rw [hfile]
  · rw [hfile]
  · rw [Sys.ref, Sys.ref, hfile]
    exact id
  · rw [Sys.ref, Sys.ref, hfile]
    exact Or.inl

theorem Quiet.setFile (hend : ∀ q w, x.isEnd q w = (sys.file f).isEnd q w)
    (htype : x.type = (sys.file f).type) (hdead : x.ref = 0 → sys.ref f = 0)
    (hlive : 0 < x.ref → 0 < sys.ref f ∨ f < NFILE) : Quiet sys (sys.setFile f x) := by
  refine ⟨rfl, rfl, fun g q w => ?_, fun g => ?_, fun g => ?_, fun g => ?_⟩
  · rw [file_setFile]
    split
    · subst g
      exact hend q w
    · rfl
  · rw [file_setFile]
    split
    · subst g
      exact htype
    · rfl
  · rw [ref_setFile]
    split
    · subst g
      exact hdead
    · exact id
  · rw [ref_setFile]
    split
    · subst g
      exact hlive
    · exact Or.inl

/-! ## The inode table and the file table -/

theorem iget_quiet {inum : Nat} :
    Post (fun _ => True) (fun r => Quiet sys r.2) (iget sys inum) := by
  unfold iget
  split
  · exact .ok (.of_eq rfl rfl rfl)
  · split
    · exact .ok (.of_eq rfl rfl rfl)
    · exact .error trivial

theorem ilock_quiet {ip : Option Nat} :
    Post (fun _ => True) (fun r => Quiet sys r.2) (ilock sb sys ip) := by
  cases ip with
  | none => exact .error trivial
  | some k =>
    unfold ilock
    apply Post.ite
    · exact fun _ => .error trivial
    · intro _
      apply Post.ite
      · exact fun _ => .ok (.refl sys)
      · intro _
        apply Post.ite
        · exact fun _ => .error trivial
        · exact fun _ => .ok (.of_eq rfl rfl rfl)

theorem iput_quiet : Post (fun _ => True) (Quiet sys) (iput sb sys k) := by
  unfold iput
  apply Post.ite
  · intro _
    refine (Post.mapError_any fun _ => trivial).bind ?_
    intro disk _
    exact .pure (.of_eq rfl rfl rfl)
  · exact fun _ => .pure (.of_eq rfl rfl rfl)

theorem iputPtr_quiet {ip : Option Nat} : Post (fun _ => True) (Quiet sys) (iputPtr sb sys ip) := by
  cases ip with
  | none => exact .error trivial
  | some k => exact iput_quiet

theorem filedup_quiet : Post (fun _ => True) (Quiet sys) (filedup sys f) := by
  unfold filedup
  apply Post.ite
  · exact fun _ => .error trivial
  · intro href
    refine .ok (.setFile (fun _ _ => rfl) rfl (fun h => ?_) fun _ => Or.inl ?_)
    · exact absurd h (Nat.succ_ne_zero _)
    · exact Nat.pos_of_ne_zero fun h => href (by rw [Sys.ref] at h; omega)

variable (sys) in
theorem Quiet.take (hf : f < NFILE) : Quiet sys (sys.take f) := by
  have h : Quiet sys (sys.setFile f { sys.file f with ref := 1, serial := sys.serials }) :=
    .setFile (fun _ _ => rfl) rfl (fun h => absurd h Nat.one_ne_zero) fun _ => Or.inr hf
  exact ⟨h.free, h.pipe, h.isEnd, h.type, h.dead, h.live⟩

/-! ## `fileclose` -/

variable (sys q w) in
theorem ends_setFile (hf : f < NFILE) (x : File) :
    (sys.setFile f x).ends q w + (sys.file f).isEnd q w = sys.ends q w + x.isEnd q w := by
  unfold Sys.ends
  exact sum_update_trade (File.isEnd q w) sys.file (Finset.mem_range.mpr hf) x

theorem isEnd_of_type (h : x.type ≠ .pipe) : x.isEnd q w = 0 := if_neg fun h' => h h'.1

variable (sys q w) in
theorem ends_shut (hf : f < NFILE) :
    (sys.shut f).ends q w + (sys.file f).isEnd q w = sys.ends q w := by
  have hends : (sys.shut f).ends q w =
      (sys.setFile f { sys.file f with ref := 0, type := .none }).ends q w := by
    unfold Sys.ends Sys.shut
    split <;> rfl
  rw [hends, ends_setFile sys q w hf]
  rfl

theorem ref_shut (g : Nat) : (sys.shut f).ref g = if g = f then 0 else sys.ref g := by
  by_cases hg : g = f
  · rw [if_pos hg, hg, Sys.ref, file_shut_self]
  · rw [if_neg hg, Sys.ref, file_shut_ne sys hg]
    rfl

theorem PipeInv.shut (hinv : PipeInv sys) (hf : f < NFILE) (hpipe : (sys.file f).type ≠ .pipe) :
    Kept sys (sys.shut f) := by
  refine ⟨⟨fun g hg => ?_, fun g hg => ?_, fun q w => ?_⟩, fun q => rfl⟩
  · exact hinv.range g (shut_pos hg).2
  · by_cases hgf : g = f
    · rw [hgf, file_shut_self]
    · rw [ref_shut, if_neg hgf] at hg
      rw [file_shut_ne sys hgf]
      exact hinv.untyped g hg
  · have hends := ends_shut sys q w hf
    rw [isEnd_of_type hpipe, Nat.add_zero] at hends
    rw [hends]
    exact hinv.ends q w

/-- A pipe with one more end closed. -/
def Pipe.close (pi : Pipe) (writable : Bool) : Pipe :=
  if writable then { pi with writeopen := false } else { pi with readopen := false }

theorem pipeclose_eq (sys : Sys) (pi : Nat) (w : Bool) : pipeclose sys pi w =
    { sys with
      pipe := update sys.pipe pi ((sys.pipe pi).close w)
      km := if !((sys.pipe pi).close w).readopen && !((sys.pipe pi).close w).writeopen
        then kfree sys.km pi else sys.km } := by
  change (if !((sys.pipe pi).close w).readopen && !((sys.pipe pi).close w).writeopen
    then _ else _) = _
  split <;> rfl

/-- Closing the last reference to an end of a pipe closes that end, and frees the page
with the second end. -/
theorem PipeInv.pipeclose (hinv : PipeInv sys) (hf : f < NFILE)
    (hpipe : (sys.file f).type = .pipe) :
    Kept sys (pipeclose (sys.shut f) (sys.file f).pipe (sys.file f).writable) := by
  generalize hpi : (sys.file f).pipe = pi
  generalize hwr : (sys.file f).writable = wr
  have hisEnd : ∀ q w, (sys.file f).isEnd q w = if pi = q ∧ wr = w then 1 else 0 := by
    intro q w
    unfold File.isEnd
    rw [hpi, hwr]
    simp only [hpipe, true_and]
  -- the end was open
  have hopen : (sys.pipe pi).isOpen wr = true := by
    have hends := ends_shut sys pi wr hf
    rw [hisEnd, if_pos ⟨rfl, rfl⟩, hinv.ends] at hends
    by_contra hne
    rw [if_neg hne] at hends
    omega
  have hclose : ∀ w, ((sys.pipe pi).close wr).isOpen w = if wr =
      w then false else (sys.pipe pi).isOpen w := by
    intro w
    cases wr <;> cases w <;> rfl
  rw [pipeclose_eq]
  change Kept sys { sys.shut f with
    pipe := update sys.pipe pi ((sys.pipe pi).close wr)
    km := if !((sys.pipe pi).close wr).readopen && !((sys.pipe pi).close wr).writeopen
      then kfree sys.km pi else sys.km }
  generalize (sys.pipe pi).close wr = p' at hclose
  refine ⟨⟨fun g hg => hinv.range g (shut_pos hg).2, fun g hg => ?_, fun q w => ?_⟩, fun q => ?_⟩
  · change (sys.shut f).ref g = 0 at hg
    change ((sys.shut f).file g).type = .none
    by_cases hgf : g = f
    · rw [hgf, file_shut_self]
    · rw [ref_shut, if_neg hgf] at hg
      rw [file_shut_ne sys hgf]
      exact hinv.untyped g hg
  · have hends := ends_shut sys q w hf
    rw [hisEnd, hinv.ends] at hends
    have hsame : ∀ km pipe, ({ sys.shut f with km := km, pipe := pipe } : Sys).ends q w =
        (sys.shut f).ends q w := by
      intro km pipe
      unfold Sys.ends
      rfl
    rw [hsame]
    change _ = if (update sys.pipe pi p' q).isOpen w then 1 else 0
    by_cases hq : q = pi
    · subst hq
      rw [update_self, hclose]
      by_cases hw : wr = w
      · subst hw
        rw [if_pos ⟨rfl, rfl⟩, if_pos hopen] at hends
        rw [if_pos rfl, if_neg Bool.false_ne_true]
        omega
      · rw [if_neg fun h => hw h.2] at hends
        rw [if_neg hw]
        exact hends
    · rw [if_neg fun h => hq h.1.symm] at hends
      rw [update_of_ne hq]
      exact hends
  · unfold Sys.pages Sys.pipes
    change (if !p'.readopen && !p'.writeopen then kfree sys.km pi else sys.km).free.count q +
      (if (update sys.pipe pi p' q).readopen ||
        (update sys.pipe pi p' q).writeopen
        then 1 else 0) = _
    by_cases hq : q = pi
    · subst hq
      rw [update_self]
      have hwas : ((sys.pipe q).readopen || (sys.pipe q).writeopen) = true := by
        unfold Pipe.isOpen at hopen
        cases wr
        · rw [show (sys.pipe q).readopen = true from hopen, Bool.true_or]
        · rw [show (sys.pipe q).writeopen = true from hopen, Bool.or_true]
      rw [if_pos hwas]
      cases p'.readopen <;> cases p'.writeopen <;> simp [kfree]
    · rw [update_of_ne hq]
      split
      · rw [kfree, List.count_cons_of_ne fun h => hq h.symm]
      · rfl

theorem fileclose_kept (hinv : PipeInv sys) :
    Post (fun _ => True) (Kept sys) (fileclose sb sys f) := by
  by_cases hone : sys.ref f = 1
  · rw [fileclose_last sb hone]
    have hf := hinv.range f (by omega)
    cases htype : (sys.file f).type with
    | none => exact .ok (hinv.shut hf (by rw [htype]; decide))
    | pipe => exact .ok (hinv.pipeclose hf htype)
    | inode =>
      have hshut := hinv.shut hf (by rw [htype]; decide)
      exact iputPtr_quiet.imp fun sys' h => hshut.trans (h.kept hshut.inv)
    | device =>
      have hshut := hinv.shut hf (by rw [htype]; decide)
      exact iputPtr_quiet.imp fun sys' h => hshut.trans (h.kept hshut.inv)
  · unfold fileclose
    dsimp only
    apply Post.ite
    · exact fun _ => .error trivial
    · intro href
      rw [Sys.ref] at hone
      rw [if_pos (by omega)]
      refine .ok (Quiet.kept (.setFile (fun _ _ => rfl) rfl (fun h => ?_) fun _ => Or.inl ?_)
        hinv)
      · dsimp only at h
        omega
      · rw [Sys.ref]
        omega

/-! ## Reading and writing -/

variable (pt) in
theorem copyout_free (km : Kmem) (va : Nat) (bs : List UInt8) :
    (copyout pt km va bs).2.free = km.free := by
  induction bs generalizing km va with
  | nil => rfl
  | cons b bs ih =>
    unfold copyout
    split
    · rfl
    · rw [ih]
      rfl

theorem Quiet.setOff (off : Nat) : Quiet sys (sys.setFile f { sys.file f with off := off }) :=
  .setFile (fun _ _ => rfl) rfl id Or.inl

theorem writeChunk_quiet {addr n : Nat} :
    Post (fun _ => True) (fun r => Quiet sys r.2) (writeChunk sb pt f addr n sys) := by
  unfold writeChunk
  refine ilock_quiet.bind ?_
  rintro ⟨k, sys₁⟩ h₁
  refine (Post.mapError_any fun _ => trivial).bind ?_
  rintro ⟨r, _, disk⟩ _
  have h₂ : Quiet sys { sys₁ with disk := disk } := h₁.trans (.of_eq rfl rfl rfl)
  apply Post.ite
  · exact fun _ => .pure (h₂.trans (.setOff _))
  · exact fun _ => .pure h₂

theorem filewriteLoop_quiet {addr n : Nat} (fuel : Nat) (i : Nat) :
    Post (fun _ => True) (Quiet sys) (filewriteLoop sb pt f addr n fuel i sys) := by
  induction fuel generalizing i sys with
  | zero => exact .ok (.refl sys)
  | succ fuel ih =>
    unfold filewriteLoop
    apply Post.ite
    · intro _
      refine writeChunk_quiet.bind ?_
      rintro ⟨r, sys₁⟩ h₁
      apply Post.ite
      · exact fun _ => .pure h₁
      · exact fun _ => (ih _).imp fun sys₂ h₂ => h₁.trans h₂
    · exact fun _ => .ok (.refl sys)

theorem filewrite_quiet {addr : Nat} {n : Int} :
    Post (fun _ => True) (Quiet sys) (filewrite sb pt sys f addr n) := by
  unfold filewrite
  apply Post.ite
  · exact fun _ => .ok (.refl sys)
  · intro _
    cases (sys.file f).type with
    | none => exact .error trivial
    | pipe => exact .ok (.refl sys)
    | device => exact .ok (.refl sys)
    | inode => exact filewriteLoop_quiet _ _

theorem sysWrite_quiet {fd addr n : Nat} :
    Post (fun _ => True) (Quiet sys) (sysWrite sb sys p fd addr n) := by
  unfold sysWrite
  split
  · exact .ok (.refl sys)
  · exact filewrite_quiet

theorem filereadInode_quiet {pt : PageTable} {f addr n : Nat} :
    Post (fun _ => True) (fun r => Quiet sys r.2) (filereadInode sb sys pt f addr n) := by
  refine ilock_quiet.bind ?_
  rintro ⟨k, sys₁⟩ h₁
  refine (Post.mapError_any fun _ => trivial).bind ?_
  rintro ⟨r, bs, _, disk⟩ _
  have h₂ : Quiet sys { sys₁ with disk := disk, km := (copyout pt sys₁.km addr bs).2 } :=
    h₁.trans (.of_eq (copyout_free _ _ _ _) rfl rfl)
  apply Post.ite
  · exact fun _ => .pure (h₂.trans (.setOff _))
  · exact fun _ => .pure h₂

theorem sysRead_quiet {fd addr n : Nat} :
    Post (fun _ => True) (Quiet sys) (sysRead sb sys p fd addr n) := by
  unfold sysRead
  split
  · exact .ok (.refl sys)
  · apply Post.ite
    · exact fun _ => .ok (.refl sys)
    · intro _
      split
      · exact .ok (.refl sys)
      · exact .ok (.refl sys)
      · exact .error trivial
      · exact filereadInode_quiet.map

/-! ## Calls on the open files of a process -/

theorem fdalloc_mem {fd : Nat} {p' : Proc} (h : fdalloc p f = some (fd, p')) : SameMem p p' := by
  unfold fdalloc at h
  split at h
  · cases h
    exact ⟨rfl, rfl, rfl, rfl, rfl⟩
  · cases h

theorem sysDup_kept {fd : Nat} (hinv : PipeInv sys) :
    Post (fun _ => True) (fun r => Kept sys r.1 ∧ SameMem p r.2) (sysDup sys p fd) := by
  unfold sysDup
  split
  · exact .ok ⟨.refl hinv, .refl p⟩
  · split
    · exact .ok ⟨.refl hinv, .refl p⟩
    · rename_i hfd
      refine filedup_quiet.bind ?_
      intro sys' h
      exact .pure ⟨h.kept hinv, fdalloc_mem hfd⟩

theorem sysClose_kept {fd : Nat} (hinv : PipeInv sys) :
    Post (fun _ => True) (fun r => Kept sys r.1 ∧ SameMem p r.2) (sysClose sb sys p fd) := by
  unfold sysClose
  split
  · exact .ok ⟨.refl hinv, .refl p⟩
  · refine (fileclose_kept hinv).bind ?_
    intro sys' h
    exact .pure ⟨h, ⟨rfl, rfl, rfl, rfl, rfl⟩⟩

theorem sysChdir_kept {inum : Nat} (hinv : PipeInv sys) :
    Post (fun _ => True) (fun r => Kept sys r.1 ∧ SameMem p r.2) (sysChdir sb sys p inum) := by
  unfold sysChdir
  refine iget_quiet.bind ?_
  rintro ⟨k, sys₁⟩ h₁
  refine ilock_quiet.bind ?_
  rintro ⟨k, sys₂⟩ h₂
  apply Post.ite
  · intro _
    refine iput_quiet.bind ?_
    intro sys₃ h₃
    exact .pure ⟨((h₁.trans h₂).trans h₃).kept hinv, .refl p⟩
  · intro _
    refine iputPtr_quiet.bind ?_
    intro sys₃ h₃
    exact .pure ⟨((h₁.trans h₂).trans h₃).kept hinv, ⟨rfl, rfl, rfl, rfl, rfl⟩⟩

theorem openAlloc_kept {inum : Nat} {omode : BitVec 32} (hinv : PipeInv sys) :
    Post (fun _ => True) (fun r => Kept sys r.1 ∧ SameMem p r.2)
    (openAlloc sb sys p inum omode) := by
  unfold openAlloc
  refine iget_quiet.bind ?_
  rintro ⟨k, sys₁⟩ h₁
  refine ilock_quiet.bind ?_
  rintro ⟨k, sys₂⟩ h₂
  apply Post.ite
  · intro _
    refine iput_quiet.bind ?_
    intro sys₃ h₃
    exact .pure ⟨((h₁.trans h₂).trans h₃).kept hinv, .refl p⟩
  · intro _
    split
    · refine iput_quiet.bind ?_
      intro sys₃ h₃
      exact .pure ⟨((h₁.trans h₂).trans h₃).kept hinv, .refl p⟩
    · rename_i f sys₃ hfile
      obtain ⟨hf, -, rfl⟩ := filealloc_some hfile
      exact .pure ⟨((h₁.trans h₂).trans (.take _ hf)).kept hinv, ⟨rfl, rfl, rfl, rfl, rfl⟩⟩

theorem ends_install (hf : f < NFILE) (hnone : (sys.file f).type = .none) (x : File) :
    (sys.install f x).ends q w = sys.ends q w + x.isEnd q w := by
  have hsame : (sys.install f x).ends q w = (sys.setFile f x).ends q w := by
    unfold Sys.ends
    rfl
  have htrade := ends_setFile sys q w hf x
  rw [isEnd_of_type (by rw [hnone]; decide), Nat.add_zero] at htrade
  rw [hsame, htrade]

theorem ref_install (g : Nat) : (sys.install f x).ref g = if g = f then x.ref else sys.ref g :=
  ref_setFile sys f g x

theorem PipeInv.install (hinv : PipeInv sys) (hpos : 0 < sys.ref f)
    (hnone : (sys.file f).type = .none) (href : x.ref = sys.ref f) (hpipe : x.type ≠ .pipe) :
    Kept sys (sys.install f x) := by
  refine ⟨⟨fun g hg => ?_, fun g hg => ?_, fun q w => ?_⟩, fun _ => rfl⟩
  · rw [ref_install] at hg
    split at hg
    · subst g
      exact hinv.range f hpos
    · exact hinv.range g hg
  · rw [ref_install] at hg
    split at hg
    · omega
    · rw [file_install_ne sys x ‹_›]
      exact hinv.untyped g hg
  · rw [ends_install (hinv.range f hpos) hnone, isEnd_of_type hpipe]
    exact hinv.ends q w

theorem openFinish_kept {omode : BitVec 32} (hinv : PipeInv sys) (hpos : 0 < sys.ref f)
    (hnone : (sys.file f).type = .none) :
    Post (fun _ => True) (fun r => Kept sys r.1 ∧ SameMem p r.2)
    (openFinish sb sys p f k omode) := by
  unfold openFinish
  dsimp only
  split
  · refine (fileclose_kept hinv).bind ?_
    intro sys₁ h₁
    refine iput_quiet.bind ?_
    intro sys₂ h₂
    exact .pure ⟨h₁.trans (h₂.kept h₁.inv), ⟨rfl, rfl, rfl, rfl, rfl⟩⟩
  · rename_i fd p₁ hfd
    have hsame : SameMem p p₁ := by
      obtain ⟨h1, h2, h3, h4, h5⟩ := fdalloc_mem hfd
      exact ⟨h1, h2, h3, h4, h5⟩
    have hopened : ∀ ip, (openedFile ip k omode (sys.file f)).ref = sys.ref f ∧
        (openedFile ip k omode (sys.file f)).type ≠ .pipe := by
      intro ip
      unfold openedFile
      dsimp only
      split
      · exact ⟨rfl, FileType.noConfusion⟩
      · exact ⟨rfl, FileType.noConfusion⟩
    have h₁ := hinv.install hpos hnone (hopened (sys.dinode sb k)).1 (hopened _).2
    apply Post.ite
    · intro _
      refine (Post.mapError_any fun _ => trivial).bind ?_
      rintro ⟨_, disk⟩ _
      exact .pure ⟨h₁.trans (Quiet.kept (.of_eq rfl rfl rfl) h₁.inv), hsame⟩
    · exact fun _ => .pure ⟨h₁, hsame⟩

theorem PipeInv.pipealloc {f0 f1 pi : Nat} {km : Kmem} (x0 x1 : File) (hinv : PipeInv sys)
    (hone : ∀ q, sys.pages q ≤ 1) (hk : kalloc sys.km = some (pi, km)) (hne : f1 ≠ f0)
    (hpos0 : 0 < sys.ref f0) (hnone0 : (sys.file f0).type = .none)
    (hpos1 : 0 < sys.ref f1) (hnone1 : (sys.file f1).type = .none)
    (hx0 : x0.ref = sys.ref f0) (hend0 : ∀ q w, x0.isEnd q w = if pi = q ∧ false = w then 1 else 0)
    (hx1 : x1.ref = sys.ref f1) (hend1 : ∀ q w, x1.isEnd q w = if pi = q ∧ true = w then 1 else 0) :
    Kept sys ((({ sys with km := km, pipe := update sys.pipe pi ⟨true, true⟩ } :
      Sys).install f0 x0).install
      f1 x1) := by
  have hcount : ∀ q, sys.km.free.count q = km.free.count q + if pi = q then 1 else 0 :=
    fun q => kalloc_count hk
  -- a page from the free list is not a pipe yet
  have hclosed : (sys.pipe pi).readopen = false ∧ (sys.pipe pi).writeopen = false := by
    have hle := hone pi
    have hpi := hcount pi
    rw [if_pos rfl] at hpi
    unfold Sys.pages Sys.pipes at hle
    cases hr : (sys.pipe pi).readopen <;> cases hw : (sys.pipe pi).writeopen
    · exact ⟨rfl, rfl⟩
    all_goals
      simp [hr, hw] at hle
      omega
  have hopen : ∀ w, (sys.pipe pi).isOpen w = false := by
    intro w
    cases w
    · exact hclosed.1
    · exact hclosed.2
  generalize hsys : ({ sys with km := km, pipe := update sys.pipe pi ⟨true, true⟩ } :
    Sys) = sys₁
  have hfile : sys₁.file = sys.file := by rw [← hsys]
  have href : ∀ g, sys₁.ref g = sys.ref g := fun g => by rw [Sys.ref, hfile, Sys.ref]
  have hends : ∀ q w, sys₁.ends q w = sys.ends q w := by
    intro q w
    unfold Sys.ends
    rw [hfile]
  refine ⟨⟨fun g hg => ?_, fun g hg => ?_, fun q w => ?_⟩, fun q => ?_⟩
  · rw [ref_install, ref_install, href] at hg
    split at hg
    · subst g
      exact hinv.range f1 hpos1
    · split at hg
      · subst g
        exact hinv.range f0 hpos0
      · exact hinv.range g hg
  · rw [ref_install, ref_install, href] at hg
    split at hg
    · omega
    · split at hg
      · omega
      · rw [file_install_ne _ _ ‹_›, file_install_ne _ _ ‹_›, hfile]
        exact hinv.untyped g hg
  · have hnone1' : ((sys₁.install f0 x0).file f1).type = .none := by
      rw [file_install_ne _ _ hne, hfile]
      exact hnone1
    rw [ends_install (hinv.range f1 hpos1) hnone1',
      ends_install (hinv.range f0 hpos0) (by rw [hfile]; exact hnone0),
      hends, hinv.ends, hend0, hend1]
    change _ = if (sys₁.pipe q).isOpen w then 1 else 0
    rw [← hsys]
    change _ = if (update sys.pipe pi ⟨true, true⟩ q).isOpen w then 1 else 0
    by_cases hq : q = pi
    · subst hq
      rw [update_self, hopen]
      cases w <;> simp [Pipe.isOpen]
    · have hqp : ¬ pi = q := fun h => hq h.symm
      rw [update_of_ne hq]
      simp [hqp]
  · change sys₁.pages q = _
    rw [← hsys]
    unfold Sys.pages Sys.pipes
    change km.free.count q + (if (update sys.pipe pi ⟨true, true⟩ q).readopen ||
      (update sys.pipe pi ⟨true, true⟩ q).writeopen then 1 else 0) = _
    rw [hcount q]
    by_cases hq : q = pi
    · subst hq
      rw [update_self]
      simp [hclosed.1, hclosed.2]
    · have hqp : ¬ pi = q := fun h => hq h.symm
      rw [update_of_ne hq, if_neg hqp, Nat.add_zero]

theorem pipeAlloc_kept (hinv : PipeInv sys) (hone : ∀ q, sys.pages q ≤ 1) :
    Post (fun _ => True) (fun r => Kept sys r.1 ∧ SameMem p r.2) (pipeAlloc sb sys p) := by
  unfold pipeAlloc
  split
  · exact .ok ⟨.refl hinv, .refl p⟩
  · rename_i f0 sys₁ h0
    obtain ⟨hf0, href0, rfl⟩ := filealloc_some h0
    have hkept₁ := Quiet.kept (.take _ hf0) hinv
    split
    · refine (fileclose_kept hkept₁.inv).bind ?_
      intro sys₂ h₂
      exact .pure ⟨hkept₁.trans h₂, .refl p⟩
    · rename_i f1 sys₂ h1
      obtain ⟨hf1, href1, rfl⟩ := filealloc_some h1
      have hquiet := (Quiet.take sys hf0).trans (.take _ hf1)
      have hkept₂ := hquiet.kept hinv
      split
      · refine (fileclose_kept hkept₂.inv).bind ?_
        intro sys₃ h₃
        refine (fileclose_kept h₃.inv).bind ?_
        intro sys₄ h₄
        exact .pure ⟨(hkept₂.trans h₃).trans h₄, .refl p⟩
      · rename_i pi km hk
        have htaken : (sys.take f0).ref f0 = 1 := by rw [Sys.ref, file_take_self]
        have hne : f1 ≠ f0 := by
          intro heq
          rw [heq] at href1
          omega
        have hself0 : ((sys.take f0).take f1).ref f0 = 1 := by
          rw [Sys.ref, file_take_ne _ hne.symm]
          exact htaken
        have hself1 : ((sys.take f0).take f1).ref f1 = 1 := by rw [Sys.ref, file_take_self]
        have hnone0 : (((sys.take f0).take f1).file f0).type = .none := by
          rw [hquiet.type]
          exact hinv.untyped f0 href0
        have hnone1 : (((sys.take f0).take f1).file f1).type = .none := by
          rw [type_take]
          exact hkept₁.inv.untyped f1 href1
        have halloc := hkept₂.inv.pipealloc
          { ((sys.take f0).take f1).file f0 with
            type := .pipe, readable := true, writable := false, pipe := pi }
          { ((sys.take f0).take f1).file f1 with
            type := .pipe, readable := false, writable := true, pipe := pi }
          (fun q => by rw [hkept₂.pages q]; exact hone q) hk hne (by omega) hnone0
          (by omega) hnone1 rfl
          (fun q w => by unfold File.isEnd; simp only [true_and]) rfl
          (fun q w => by unfold File.isEnd; simp only [true_and])
        refine .ok ⟨hkept₂.trans ?_, ⟨rfl, rfl, rfl, rfl, rfl⟩⟩
        dsimp only
        rw [file_install_ne _ _ hne]
        exact halloc

theorem pipeFinish_kept {rf wf fdarray : Nat} (hinv : PipeInv sys) :
    Post (fun _ => True) (fun r => Kept sys r.2.1 ∧ SameMem p r.2.2)
    (pipeFinish sb sys p rf wf fdarray) := by
  have hclose : ∀ {sys₁ : Sys} {p' : Proc}, Kept sys sys₁ → SameMem p p' →
      Post (fun _ => True) (fun r => Kept sys r.2.1 ∧ SameMem p r.2.2) (do
        let sys ← fileclose sb sys₁ rf
        let sys ← fileclose sb sys wf
        return (false, sys, p')) := by
    intro sys₁ p' h₁ hp'
    refine (fileclose_kept h₁.inv).bind ?_
    intro sys₂ h₂
    refine (fileclose_kept h₂.inv).bind ?_
    intro sys₃ h₃
    exact .pure ⟨(h₁.trans h₂).trans h₃, hp'⟩
  unfold pipeFinish
  dsimp only
  split
  · exact hclose (.refl hinv) ⟨rfl, rfl, rfl, rfl, rfl⟩
  · rename_i fd0 p0 hfd0
    obtain ⟨a1, a2, a3, a4, a5⟩ := fdalloc_mem hfd0
    split
    · exact hclose (.refl hinv) ⟨a1, a2, a3, a4, a5⟩
    · rename_i fd1 p1 hfd1
      obtain ⟨b1, b2, b3, b4, b5⟩ := fdalloc_mem hfd1
      have hsame : SameMem p p1 := ⟨b1.trans a1, b2.trans a2, b3.trans a3, b4.trans a4, b5.trans a5⟩
      have hfree := copyout_free p.pagetable sys.km fdarray (bytes32 fd0 ++ bytes32 fd1)
      split
      · rename_i km hout
        rw [hout] at hfree
        exact .pure ⟨Quiet.kept (.of_eq hfree rfl rfl) hinv, hsame⟩
      · rename_i km hout
        rw [hout] at hfree
        exact hclose (Quiet.kept (.of_eq hfree rfl rfl) hinv)
          ⟨hsame.state, hsame.sz, hsame.pagetable, hsame.trapframe, hsame.vma⟩

end

end Xv6.Kernel
