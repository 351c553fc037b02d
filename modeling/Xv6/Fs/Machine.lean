import Xv6.Fs.ByteArray
import Xv6.Lib.Post
import Xv6.Lib.System

/-! # The block-allocation invariant over whole runs

The file-system calls change inodes and their blocks only through the inode layer:
a write is `writei`; `open` with `O_TRUNC` is `itrunc`; creating a file, a directory
or a device is `ialloc`, `iupdate` of the new inode and (for a directory) of its
parent, and `writei` of directory entries; `link` and `unlink` are `iupdate` and
`writei` of an entry; dropping the last reference to an inode without links is
`ifree`. A run is any sequence of these calls, on any inodes and with any
arguments, and of buffers being recycled.
-/

namespace Xv6.Fs

open Function Lib

inductive Call where
  | readi (i off n : Nat) (dst : Nat → Bool)
  | writei (i off n : Nat) (src : Nat → Option UInt8)
  | itrunc (i : Nat)
  | ialloc (type : Nat)
  /-- set the fields that `create`, `link` and `unlink` set, and `iupdate` -/
  | iupdate (i major minor nlink : Nat)
  | ifree (i : Nat)
  | recycle (b : Nat)

/-- The arguments have the widths of their C types. -/
def Call.Typed : Call → Prop
  | .readi _ off n _ | .writei _ off n _ => off < 2 ^ 32 ∧ n < 2 ^ 32
  | .ialloc type => 0 < type ∧ type < 2 ^ 16
  | .iupdate _ major minor nlink => major < 2 ^ 16 ∧ minor < 2 ^ 16 ∧ nlink < 2 ^ 16
  | .itrunc _ | .ifree _ | .recycle _ => True

instance : (c : Call) → Decidable c.Typed
  | .readi .. | .writei .. | .ialloc .. | .iupdate .. => inferInstanceAs (Decidable (_ ∧ _))
  | .itrunc _ | .ifree _ | .recycle _ => isTrue trivial

def Call.run (sb : Superblock) (d : Disk) : Call → Except Panic Disk
  | .readi i off n dst => do
    let ip ← ilock sb d i
    let (_, _, _, d) ← Fs.readi sb d ip dst off n
    return d
  | .writei i off n src => do
    let ip ← ilock sb d i
    let (_, _, d) ← Fs.writei sb d i ip src off n
    return d
  | .itrunc i => do
    let ip ← ilock sb d i
    let (_, d) ← Fs.itrunc sb d i ip
    return d
  | .ialloc type => do
    let (_, d) ← Fs.ialloc sb d type
    return d
  | .iupdate i major minor nlink => do
    let ip ← ilock sb d i
    return Fs.iupdate sb d i { ip with major := major, minor := minor, nlink := nlink }
  | .ifree i => do
    let ip ← ilock sb d i
    Fs.ifree sb d i ip
  | .recycle b => return d.recycle b

def call (sb : Superblock) (d : Disk) (c : Call) : Outcome Panic Disk :=
  if c.Typed then
    match c.run sb d with
    | .ok d => .next d
    | .error f => .fault f
  else .blocked

variable {sb : Superblock} {d d' : Disk} {i b : Nat}

theorem ilock_ok {ip : Dinode} (h : ilock sb d i = .ok ip) :
    (d.view sb).Allocated sb i ∧ ip = (d.view sb).inode i := by
  unfold ilock at h
  split at h
  · cases h
  · rename_i htype
    cases h
    refine ⟨⟨?_, htype⟩, rfl⟩
    by_contra hlt
    simp [Disk.view, hlt, Dinode.zeroed] at htype

theorem ilock_error {f : Panic} (h : ilock sb d i = .error f) : f = .ilockNoType := by
  unfold ilock at h
  split at h
  · cases h
    rfl
  · cases h

/-! ## Recycling a buffer -/

theorem AllocInv.setData {v v' : View} (h : AllocInv sb v) (hinode : v'.inode = v.inode)
    (hused : v'.used = v.used)
    (hdata : ∀ j, v.Allocated sb j → v'.data ((v.inode j).addrs NDIRECT) =
      v.data ((v.inode j).addrs NDIRECT)) : AllocInv sb v' := by
  have hall : ∀ j, v'.Allocated sb j ↔ v.Allocated sb j := by
    intro j
    rw [View.Allocated, View.Allocated, hinode]
  refine ⟨?_, fun j hj bn hbn => ?_⟩
  · rw [owner_congr hinode fun j hj _ => hdata j hj, hused]
    exact h.owns
  · rw [hall] at hj
    rw [hinode] at hbn ⊢
    rw [filePtr, slotPtr_congr rfl fun _ => hdata j hj]
    exact h.noHole j hj bn hbn

theorem FsInv.recycle_eq (h : FsInv sb d) (hb : (d.view sb).Meta sb b) : d.recycle b = d := by
  simp only [Disk.recycle]
  rw [← h.clean b hb, update_eq_self]

theorem not_meta_ge {v : View} (hb : ¬ v.Meta sb b) : sb.datastart ≤ b :=
  Nat.not_lt.mp fun hlt => hb (Or.inl hlt)

theorem FsInv.recycle_inode (h : FsInv sb d) (b : Nat) :
    ((d.recycle b).view sb).inode = (d.view sb).inode := by
  by_cases hb : (d.view sb).Meta sb b
  · rw [h.recycle_eq hb]
  · have hview : (d.recycle b).view sb = _ := @view_scribble sb d b (d.logged b) (not_meta_ge hb)
    rw [hview]

theorem FsInv.recycle (h : FsInv sb d) (b : Nat) : FsInv sb (d.recycle b) := by
  by_cases hb : (d.view sb).Meta sb b
  · rw [h.recycle_eq hb]
    exact h
  · have hview : (d.recycle b).view sb = _ := @view_scribble sb d b (d.logged b) (not_meta_ge hb)
    refine ⟨h.alloc.setData (h.recycle_inode b) (by rw [hview]) fun j hj => ?_, ?_⟩
    · rw [hview]
      exact update_of_ne (fun heq => hb (Or.inr ⟨j, hj, heq⟩)) _ _
    · rw [Meta_congr (h.recycle_inode b)]
      intro c hc
      have hcb : c ≠ b := fun heq => hb (heq ▸ hc)
      simp only [Disk.recycle]
      rw [update_of_ne hcb]
      exact h.clean c hc

/-! ## Every call keeps the invariant -/

/-- The two panics of the inode layer that report a broken allocation state; the
others report that blocks or inodes ran out, or that a free inode was locked. -/
def Panic.Corrupt (f : Panic) : Prop := f = .freeingFreeBlock ∨ f = .bmapOutOfRange

theorem Dinode.Fits.withFields {ip : Dinode} (h : ip.Fits) {major minor nlink : Nat}
    (hmajor : major < 2 ^ 16) (hminor : minor < 2 ^ 16) (hnlink : nlink < 2 ^ 16) :
    Dinode.Fits { ip with major := major, minor := minor, nlink := nlink } :=
  ⟨h.type, hmajor, hminor, hnlink, h.size, h.addrs, h.addrs_past⟩

theorem FsInv.setFields (h : FsInv sb d) (hi : (d.view sb).Allocated sb i)
    {major minor nlink : Nat} (hmajor : major < 2 ^ 16) (hminor : minor < 2 ^ 16)
    (hnlink : nlink < 2 ^ 16) :
    FsInv sb (Fs.iupdate sb d i
      { (d.view sb).inode i with major := major, minor := minor, nlink := nlink }) := by
  have hw : Working sb d i
      { (d.view sb).inode i with major := major, minor := minor, nlink := nlink } :=
    (h.alloc.working hi).withFields rfl hi.2
      ((@view_inode_fits sb d i).withFields hmajor hminor hnlink)
  refine ⟨hw.finish (h.alloc.noHole i hi) fun j _ hj => h.alloc.noHole j hj, hw.finish_clean ?_⟩
  have hcl : CleanWith sb d i ((d.view sb).inode i) := by
    rw [CleanWith, withInode_eq rfl]
    exact h.clean
  exact hcl.withFields rfl rfl

theorem ilock_not_corrupt {f : Panic} (h : ilock sb d i = .error f) : ¬ f.Corrupt := by
  rw [ilock_error h]
  rintro (h | h) <;> cases h

theorem ialloc_not_corrupt {type : Nat} {f : Panic} (h : Fs.ialloc sb d type = .error f) :
    ¬ f.Corrupt := by
  unfold Fs.ialloc at h
  split at h <;> cases h
  rintro (h | h) <;> cases h

def Call.freed : Call → Option Nat
  | .ifree i => some i
  | _ => none

/-- What every call keeps: the invariant, and the types of the allocated inodes but
for the one it frees. -/
structure Kept (sb : Superblock) (c : Call) (d d' : Disk) : Prop where
  inv : FsInv sb d'
  type : ∀ j, (d.view sb).Allocated sb j → c.freed ≠ some j →
    ((d'.view sb).inode j).type = ((d.view sb).inode j).type

theorem allocated_of_type {j : Nat} (hj : (d.view sb).Allocated sb j)
    (h : ((d'.view sb).inode j).type = ((d.view sb).inode j).type) : (d'.view sb).Allocated sb j :=
  ⟨hj.1, by rw [h]; exact hj.2⟩

theorem FsInv.writei {off n : Nat} {src : Nat → Option UInt8} (h : FsInv sb d)
    (hi : (d.view sb).Allocated sb i) (hoff : off < 2 ^ 32) (hn : n < 2 ^ 32) :
    Post (· = .ballocOutOfBlocks) (fun r => FsInv sb r.2.2 ∧
      ∀ j, ((r.2.2.view sb).inode j).type = ((d.view sb).inode j).type)
      (Fs.writei sb d i ((d.view sb).inode i) src off n) := by
  obtain ⟨hErr, hOk⟩ := @AllocInv.writei sb d i off n src h.alloc hi hoff hn
  cases hr : Fs.writei sb d i ((d.view sb).inode i) src off n with
  | error f => exact .error (hErr f hr)
  | ok res =>
    have hw := hOk _ _ _ hr
    refine .ok ⟨⟨hw.alloc, hw.clean h.clean⟩, fun j => ?_⟩
    by_cases hji : j = i
    · rw [hji]
      exact hw.type
    · rw [hw.inodes j hji]

/-- A call on a locked inode: what holds for the allocated inodes holds for the call. -/
theorem ilock_post {Q : Disk → Prop} {k : Dinode → Except Panic Disk}
    (h : (d.view sb).Allocated sb i → Post (fun f => ¬ f.Corrupt) Q (k ((d.view sb).inode i))) :
    Post (fun f => ¬ f.Corrupt) Q (ilock sb d i >>= k) := by
  cases hl : ilock sb d i with
  | error f => exact .error (ilock_not_corrupt hl)
  | ok ip =>
    obtain ⟨hi, rfl⟩ := ilock_ok hl
    exact h hi

/-- One call: no panic that reports corruption, and the invariant holds afterwards. -/
theorem FsInv.call_run (h : FsInv sb d) (c : Call) (hc : c.Typed) :
    Post (fun f => ¬ f.Corrupt) (Kept sb c d) (c.run sb d) := by
  cases c with
  | readi i off n dst =>
    refine ilock_post fun hi => ?_
    obtain ⟨r, bytes, hr, -⟩ := h.alloc.readi hi dst hc.1 hc.2
    rw [hr]
    exact .ok ⟨h, fun _ _ _ => rfl⟩
  | writei i off n src =>
    refine ilock_post fun hi => ?_
    have hw := @FsInv.writei sb d i off n src h hi hc.1 hc.2
    refine (hw.mono (fun f hf => ?_) fun r hr => hr).bind fun r hr =>
      .ok ⟨hr.1, fun j _ _ => hr.2 j⟩
    rw [hf]
    rintro (h | h) <;> cases h
  | itrunc i =>
    refine ilock_post fun hi => ?_
    obtain ⟨d₁, hr, hinv, hinode, -⟩ := h.itrunc hi
    rw [hr]
    refine .ok ⟨hinv, fun j _ _ => ?_⟩
    rw [hinode]
    by_cases hji : j = i
    · rw [hji, update_self]
      rfl
    · rw [update_of_ne hji]
  | ialloc type =>
    simp only [Call.run]
    cases hr : Fs.ialloc sb d type with
    | error f => exact .error (ialloc_not_corrupt hr)
    | ok res =>
      obtain ⟨hinv, -, hfree, hview⟩ := h.ialloc hc.2 hr
      refine .ok ⟨hinv, fun j hj _ => ?_⟩
      have hne : j ≠ res.1 := fun heq => hj.2 (heq ▸ hfree)
      rw [hview, withInode_ne hne]
  | iupdate i major minor nlink =>
    refine ilock_post fun hi => .ok ⟨h.setFields hi hc.1 hc.2.1 hc.2.2, fun j _ _ => ?_⟩
    rw [view_iupdate hi.1 ((@view_inode_fits sb d i).withFields hc.1 hc.2.1 hc.2.2)]
    by_cases hji : j = i
    · rw [hji]
      simp only [update_self]
    · exact congrArg Dinode.type (update_of_ne hji _ _)
  | ifree i =>
    refine ilock_post fun hi => ?_
    obtain ⟨d₁, hr, hinv, hinode⟩ := h.ifree hi
    rw [hr]
    exact .ok ⟨hinv, fun j _ hj => by rw [hinode j fun heq => hj (by rw [heq]; rfl)]⟩
  | recycle b => exact .ok ⟨h.recycle b, fun j _ _ => by rw [h.recycle_inode b]⟩

theorem call_next {c : Call} (h : call sb d c = .next d') : c.Typed ∧ c.run sb d = .ok d' := by
  unfold call at h
  split at h
  · rename_i hc
    split at h
    · cases h
      exact ⟨hc, by assumption⟩
    · cases h
  · cases h

theorem call_fault {c : Call} {f : Panic} (h : call sb d c = .fault f) :
    c.Typed ∧ c.run sb d = .error f := by
  unfold call at h
  split at h
  · rename_i hc
    split at h
    · cases h
    · cases h
      exact ⟨hc, by assumption⟩
  · cases h

/-! ## Runs -/

theorem FsInv.ofImage {img : Nat → Block} (h : AllocInv sb ((Disk.ofImage img).view sb)) :
    FsInv sb (Disk.ofImage img) :=
  ⟨h, fun _ _ => rfl⟩

theorem reach_fsInv {img : Nat → Block} (h : AllocInv sb ((Disk.ofImage img).view sb))
    (hreach : Reach (call sb) (fun _ _ => True) (· = Disk.ofImage img) d) : FsInv sb d := by
  refine hreach.invariant (fun s hs => ?_) fun s c s' hinv _ hstep => ?_
  · subst hs
    exact FsInv.ofImage h
  · obtain ⟨hc, hr⟩ := call_next hstep
    exact ((hinv.call_run c hc).of_ok hr).inv

/-- From every image on which the block-allocation invariant holds, it holds after
every run of file-system calls; no call panics in `bfree` or in `bmap`'s range
check; and reading any allocated inode succeeds, allocates nothing and logs nothing. -/
theorem block_allocation_invariant (sb : Superblock) (img : Nat → Block)
    (himg : AllocInv sb ((Disk.ofImage img).view sb)) (d : Disk)
    (hreach : Reach (call sb) (fun _ _ => True) (· = Disk.ofImage img) d) :
    AllocInv sb (d.view sb) ∧
    (∀ c f, call sb d c = .fault f → f ≠ .freeingFreeBlock ∧ f ≠ .bmapOutOfRange) ∧
    ∀ i, (d.view sb).Allocated sb i → ∀ dst off n, off < 2 ^ 32 → n < 2 ^ 32 →
      ∃ r bytes, readi sb d ((d.view sb).inode i) dst off n =
        .ok (r, bytes, (d.view sb).inode i, d) := by
  have hinv := reach_fsInv himg hreach
  refine ⟨hinv.alloc, fun c f hf => ?_, fun i hi dst off n hoff hn => ?_⟩
  · obtain ⟨hc, hr⟩ := call_fault hf
    exact not_or.mp ((hinv.call_run c hc).of_error hr)
  · obtain ⟨r, bytes, hr, -⟩ := hinv.alloc.readi hi dst hoff hn
    exact ⟨r, bytes, hr⟩

/-- A write of four bytes whose source faults at the third, the inode freed, and a new
inode. -/
def brokenWrite : List Call :=
  [.writei 2 0 4 fun k => if k < 2 then some 7 else none, .ifree 2, .ialloc 2]

theorem block_allocation_invariant_brokenWrite :
    ∃ d, exec (call tinySb) (Disk.ofImage tinyImage) brokenWrite = .next d ∧
      AllocInv tinySb (d.view tinySb) := by
  obtain ⟨d, hd⟩ : ∃ d, exec (call tinySb) (Disk.ofImage tinyImage) brokenWrite = .next d :=
    ⟨_, rfl⟩
  exact ⟨d, hd, (block_allocation_invariant tinySb tinyImage tiny_allocInv d
    (Reach.of_exec (.start rfl) (Guarded.of_forall (fun _ _ => trivial) _ _) hd)).1⟩

end Xv6.Fs
