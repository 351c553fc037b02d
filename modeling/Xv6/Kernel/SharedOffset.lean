import Xv6.Kernel.ReadCount
import Xv6.Lib.System

/-! # Writes through a shared file structure

Processes that share a `struct file` run `filewrite` on it concurrently. Each iteration of its loop
is one step, as it is made under the lock of the inode; between two iterations of one call those of
others and everything else that leaves the file alone can come. The chunks that are written are
recorded with the call and the offset.
-/

namespace Xv6.Kernel

open Function Lib Vm

/-! ## The machine -/

/-- A running or finished call of `filewrite`. `buf` is what its buffer held when it was made; no
code reads it. -/
structure WriteCall where
  pagetable : PageTable
  addr : Nat
  n : Int
  buf : Nat → UInt8
  i : Nat
  ret : Option Int

/-- Bytes that iteration of call `call` has written at `off`. -/
structure Chunk where
  call : Nat
  off : Nat
  bytes : List UInt8

/-- The kernel, the calls of `filewrite` and the chunks they have written. `start` and `base` are
the offset of the file and its contents when the record of the chunks was begun. -/
structure Writers where
  sys : Sys
  start : Nat
  base : List UInt8
  calls : List WriteCall
  chunks : List Chunk

namespace WriteCall

def n1 (c : WriteCall) : Nat := min (c.n.toNat - c.i) maxWrite

def finish (c : WriteCall) : WriteCall :=
  { c with ret := some (if (c.i : Int) = c.n then c.n else -1) }

/-- Byte `j` of the buffer can be read and is `buf j`. -/
def Holds (c : WriteCall) (km : Kmem) : Prop :=
  ∀ j, j < c.n.toNat → loadByte km c.pagetable ((c.addr + j) % 2 ^ 64) = some (c.buf j)

end WriteCall

namespace Writers

inductive Action where
  /-- a process calls `filewrite` -/
  | filewrite (pt : PageTable) (addr : Nat) (n : Int)
  /-- one iteration of the loop of call `id`, or its end -/
  | iterate (id : Nat)
  /-- a process reads from the file, while no call of `filewrite` is running -/
  | fileread (pt : PageTable) (addr : Nat) (n : Int)
  /-- anything else that happens in the kernel -/
  | other (sys : Sys)

/-- The body of the loop of `filewrite` for call `id`. -/
def iterate (sb : Fs.Superblock) (f : Nat) (s : Writers) (id : Nat) (c : WriteCall) :
    Outcome Panic Writers :=
  match writeChunk sb c.pagetable f (c.addr + c.i) c.n1 s.sys with
  | .error e => .fault e
  | .ok (r, sys) =>
    let bytes := (List.range r.toNat).map fun j =>
      (loadByte s.sys.km c.pagetable ((c.addr + c.i + j) % 2 ^ 64)).getD 0
    let chunks := s.chunks ++ [⟨id, (s.sys.file f).off, bytes⟩]
    if r ≠ c.n1 then .next { s with sys := sys, calls := s.calls.set id c.finish, chunks := chunks }
    else .next { s with
      sys := sys, calls := s.calls.set id { c with i := c.i + c.n1 }, chunks := chunks }

/-- Steps for file `f`, which is open on entry `k` of the inode table. -/
def step (sb : Fs.Superblock) (f k : Nat) (s : Writers) : Action → Outcome Panic Writers
  | .filewrite pt addr n =>
    let buf := fun j => (loadByte s.sys.km pt ((addr + j) % 2 ^ 64)).getD 0
    let ret := if (s.sys.file f).writable then none else some (-1)
    .next { s with calls := s.calls ++ [⟨pt, addr, n, buf, 0, ret⟩] }
  | .iterate id =>
    match s.calls[id]? with
    | none => .blocked
    | some c =>
      if c.ret ≠ none then .blocked
      else if (c.i : Int) < c.n then iterate sb f s id c
      else .next { s with calls := s.calls.set id c.finish }
  | .fileread pt addr n =>
    if s.calls.any fun c => c.ret.isNone then .blocked
    else
      match fileread sb s.sys pt f addr n [] false with
      | .error e => .fault e
      | .ok (_, sys) => .next ⟨sys, (sys.file f).off, sys.contents sb k, [], []⟩
  | .other sys => .next { s with sys := sys }

end Writers

/-! ## Runs -/

/-- File `f` is open for writing on entry `k` of the inode table. -/
structure SharedFile (sb : Fs.Superblock) (f k : Nat) (sys : Sys) : Prop where
  type : (sys.file f).type = .inode
  writable : (sys.file f).writable = true
  ip : (sys.file f).ip = some k
  ref : 0 < (sys.inode k).ref
  allocated : (sys.disk.view sb).Allocated sb (sys.inode k).inum
  alloc : Fs.AllocInv sb (sys.disk.view sb)

/-- What else happens leaves the file, the contents of its inode and the buffers of running calls
alone. -/
structure LeavesFile (sb : Fs.Superblock) (f k : Nat) (s : Writers) (sys : Sys) : Prop where
  file : SharedFile sb f k sys
  off : (sys.file f).off = (s.sys.file f).off
  contents : sys.contents sb k = s.sys.contents sb k
  buffers : ∀ c, c ∈ s.calls → c.ret = none → ∀ j, j < c.n.toNat →
    loadByte sys.km c.pagetable ((c.addr + j) % 2 ^ 64) = loadByte s.sys.km c.pagetable
    ((c.addr + j) % 2 ^ 64)

/-- Buffers are readable, chunks end before the largest size of a file, and nothing disturbs the
file. -/
def SharedGuard (sb : Fs.Superblock) (f k : Nat) (s : Writers) : Writers.Action → Prop
  | .filewrite pt addr n =>
    ∀ j, j < n.toNat → (loadByte s.sys.km pt ((addr + j) % 2 ^ 64)).isSome = true
  | .iterate id => ∀ c, s.calls[id]? = some c → (s.sys.file f).off + c.n1 ≤ Fs.MAXFILE * BSIZE
  | .fileread pt addr _ => DistinctPages pt ∧ addr < 2 ^ 64
  | .other sys => LeavesFile sb f k s sys

/-- The file has just been opened. -/
structure SharedStart (sb : Fs.Superblock) (f k : Nat) (s : Writers) : Prop where
  file : SharedFile sb f k s.sys
  off : (s.sys.file f).off = 0
  start : s.start = 0
  base : s.base = s.sys.contents sb k
  calls : s.calls = []
  chunks : s.chunks = []

/-- Each chunk begins where the one before ends. -/
def Consecutive : Nat → List Chunk → Prop
  | _, [] => True
  | off, ch :: chunks => ch.off = off ∧ Consecutive (off + ch.bytes.length) chunks

def Writers.written (s : Writers) : List UInt8 := s.chunks.flatMap Chunk.bytes

def Writers.writtenBy (s : Writers) (id : Nat) : List UInt8 :=
  (s.chunks.filter fun ch => ch.call = id).flatMap Chunk.bytes

theorem consecutive_append {off : Nat} {chunks : List Chunk} (h : Consecutive off chunks)
    {ch : Chunk} (hch : ch.off = off + (chunks.flatMap Chunk.bytes).length) :
    Consecutive off (chunks ++ [ch]) := by
  induction chunks generalizing off with
  | nil => exact ⟨hch, trivial⟩
  | cons c chunks ih =>
    refine ⟨h.1, ih h.2 ?_⟩
    rw [hch, List.flatMap_cons, List.length_append, Nat.add_assoc]

theorem Consecutive.bytes {off : Nat} {chunks : List Chunk} (h : Consecutive off chunks)
    {ch : Chunk} (hch : ch ∈ chunks) :
    off ≤ ch.off ∧ ∀ j, j < ch.bytes.length → (chunks.flatMap Chunk.bytes)[ch.off - off + j]? =
    ch.bytes[j]? := by
  induction chunks generalizing off with
  | nil => cases hch
  | cons c chunks ih =>
    rw [List.flatMap_cons]
    rcases List.mem_cons.mp hch with rfl | hmem
    · refine ⟨Nat.le_of_eq h.1.symm, fun j hj => ?_⟩
      rw [h.1, Nat.sub_self, Nat.zero_add, List.getElem?_append_left hj]
    · obtain ⟨hle, hbytes⟩ := ih h.2 hmem
      refine ⟨by omega, fun j hj => ?_⟩
      rw [List.getElem?_append_right (by omega), ← hbytes j hj]
      congr 1
      omega

theorem writeRange_append {old : List UInt8} {off : Nat} (hoff : off ≤ old.length)
    (bs bs' : List UInt8) :
    Fs.writeRange (Fs.writeRange old off bs) (off + bs.length) bs' = Fs.writeRange old off
    (bs ++ bs') := by
  apply List.ext_getElem?
  intro p
  rw [Fs.getElem?_writeRange (by rw [Fs.writeRange_length hoff]; omega),
    Fs.getElem?_writeRange hoff, Fs.getElem?_writeRange hoff, List.length_append]
  by_cases hnew : off + bs.length ≤ p ∧ p < off + bs.length + bs'.length
  · rw [if_pos hnew, if_pos (by omega), List.getElem?_append_right (by omega)]
    congr 1
    omega
  · rw [if_neg hnew]
    by_cases hold : off ≤ p ∧ p < off + bs.length
    · rw [if_pos hold, if_pos (by omega), List.getElem?_append_left (by omega)]
    · rw [if_neg hold, if_neg (by omega)]

/-! ## One chunk -/

section

variable {sb : Fs.Superblock} {f k : Nat} {sys : Sys}

theorem SharedFile.size (h : SharedFile sb f k sys) :
    (sys.contents sb k).length ≤ Fs.MAXFILE * BSIZE := by
  rw [Sys.contents, Fs.contents_length]
  exact Fs.size_le_maxfile h.alloc h.allocated

/-- A chunk from a readable buffer at an offset within the file is written as a whole, unless there
is no free block. -/
theorem writeChunk_accepted (h : SharedFile sb f k sys) {pt : PageTable} {addr n1 : Nat}
    {buf : Nat → UInt8} (hoff : (sys.file f).off ≤ (sys.contents sb k).length)
    (hmax : (sys.file f).off + n1 ≤ Fs.MAXFILE * BSIZE)
    (hbuf : ∀ j, j < n1 → loadByte sys.km pt ((addr + j) % 2 ^ 64) = some (buf j)) :
    Post (· = .fs .ballocOutOfBlocks) (fun r => r.1 = (n1 : Int) ∧ SharedFile sb f k r.2 ∧
      r.2.km = sys.km ∧
      (r.2.file f).off = (sys.file f).off + n1 ∧
      r.2.contents sb k = Fs.writeRange (sys.contents sb k)
      (sys.file f).off ((List.range n1).map buf)) (writeChunk sb pt f addr n1 sys) := by
  obtain ⟨valid, hilock⟩ := ilock_total h.ref h.allocated
  have hlt := Fs.maxfile_lt
  have hinum : ((sys.setInode k { sys.inode k with valid := valid }).inode k).inum =
      (sys.inode k).inum := by
    simp [Sys.setInode]
  have href : 0 < ((sys.setInode k { sys.inode k with valid := valid }).inode k).ref := by
    simpa [Sys.setInode] using h.ref
  obtain ⟨herr, hok⟩ := @Fs.AllocInv.writei sb sys.disk (sys.inode k).inum (sys.file f).off n1
    (fun j => loadByte sys.km pt ((addr + j) % 2 ^ 64)) h.alloc h.allocated (by omega) (by omega)
  have haccepted : ¬ Fs.Rejected ((sys.disk.view sb).inode (sys.inode k).inum).size
      (sys.file f).off n1 := by
    rw [Sys.contents, Fs.contents_length] at hoff
    unfold Fs.Rejected
    omega
  unfold writeChunk
  rw [h.ip]
  refine Post.bind_of_ok hilock ?_
  dsimp only [Sys.dinode]
  rw [hinum]
  change Post _ _ ((Fs.writei sb sys.disk (sys.inode k).inum
    ((sys.disk.view sb).inode (sys.inode k).inum)
    (fun j => loadByte sys.km pt ((addr + j) % 2 ^ 64)) (sys.file f).off n1).mapError
      Panic.fs >>= _)
  cases hw : Fs.writei sb sys.disk (sys.inode k).inum ((sys.disk.view sb).inode (sys.inode k).inum)
    (fun j => loadByte sys.km pt ((addr + j) % 2 ^ 64)) (sys.file f).off n1 with
  | error e => exact .error (congrArg Panic.fs (herr e hw))
  | ok w =>
    obtain ⟨r, ip, disk⟩ := w
    have hres := hok r ip disk hw
    obtain ⟨hr, hsize, hcont⟩ := hres.accepted haccepted fun j hj => by rw [hbuf j hj]; rfl
    have hfinal : ∀ sys₂ : Sys, sys₂.km = sys.km → sys₂.disk = disk → (sys₂.inode k).inum =
        (sys.inode k).inum →
        0 < (sys₂.inode k).ref → sys₂.file f = { sys.file f with off := (sys.file f).off + n1 } →
        r = (n1 : Int) ∧ SharedFile sb f k sys₂ ∧ sys₂.km = sys.km ∧ (sys₂.file f).off =
        (sys.file f).off + n1 ∧
        sys₂.contents sb k = Fs.writeRange (sys.contents sb k)
            (sys.file f).off ((List.range n1).map buf) := by
      intro sys₂ hkm hdisk hentry href₂ hfile
      have hbytes : ((List.range n1).map fun j => (loadByte sys.km pt ((addr + j) % 2 ^ 64)).getD 0)
          = (List.range n1).map buf :=
        List.map_congr_left fun j hj => by rw [hbuf j (List.mem_range.mp hj)]; rfl
      refine ⟨hr, ⟨?_, ?_, ?_, href₂, ?_, ?_⟩, hkm, by rw [hfile], ?_⟩
      · rw [hfile]
        exact h.type
      · rw [hfile]
        exact h.writable
      · rw [hfile]
        exact h.ip
      · rw [hdisk, hentry]
        exact Fs.allocated_of_type h.allocated hres.type
      · rw [hdisk]
        exact hres.alloc
      · rw [Sys.contents, hdisk, hentry, hcont, hbytes]
        rfl
    dsimp only [Except.mapError]
    rw [ok_bind]
    dsimp only
    refine Post.ite (fun hpos => Post.pure (hfinal _ rfl rfl hinum href ?_)) fun hnot =>
      Post.pure (hfinal _ rfl rfl hinum href ?_)
    · have hmod : ((sys.file f).off + r.toNat) % 2 ^ 32 = (sys.file f).off + n1 := by
        rw [hr, Int.toNat_natCast]
        exact Nat.mod_eq_of_lt (by omega)
      exact (update_self _ _ _).trans
        (congrArg (fun o => { sys.file f with off := o }) hmod)
    · obtain rfl : n1 = 0 := by omega
      rfl

end

/-! ## The invariant -/

/-- What is known of call `id`. -/
structure WriteCall.Inv (s : Writers) (id : Nat) (c : WriteCall) : Prop where
  le : c.i ≤ c.n.toNat
  written : s.writtenBy id = (List.range c.i).map c.buf
  buffer : c.ret = none → c.Holds s.sys.km
  returned : ∀ r, c.ret = some r → c.i = c.n.toNat ∧ r = if 0 ≤ c.n then c.n else -1

/-- The file has the recorded chunks one after the other from `start` on, and its offset is behind
them. -/
structure Appending (sb : Fs.Superblock) (f k : Nat) (s : Writers) : Prop where
  file : SharedFile sb f k s.sys
  start_le : s.start ≤ s.base.length
  consecutive : Consecutive s.start s.chunks
  off : (s.sys.file f).off = s.start + s.written.length
  contents : s.sys.contents sb k = Fs.writeRange s.base s.start s.written
  total : s.written.length = (s.calls.map WriteCall.i).sum
  callers : ∀ ch, ch ∈ s.chunks → ch.call < s.calls.length
  calls : ∀ id (c : WriteCall), s.calls[id]? = some c → c.Inv s id

section

variable {sb : Fs.Superblock} {f k : Nat} {s s' : Writers}

theorem Appending.off_le (h : Appending sb f k s) :
    (s.sys.file f).off ≤ (s.sys.contents sb k).length := by
  rw [h.off, h.contents, Fs.writeRange_length h.start_le]
  exact Nat.le_max_right _ _

theorem appending_start (h : SharedStart sb f k s) : Appending sb f k s := by
  have hwritten : s.written = [] := by
    rw [Writers.written, h.chunks]
    rfl
  refine ⟨h.file, ?_, ?_, ?_, ?_, ?_, ?_, ?_⟩
  · rw [h.start]
    exact Nat.zero_le _
  · rw [h.chunks]
    trivial
  · rw [h.off, h.start, hwritten]
    rfl
  · rw [hwritten, h.base, h.start]
    simp [Fs.writeRange]
  · rw [hwritten, h.calls]
    rfl
  · rw [h.chunks]
    intro ch hch
    cases hch
  · rw [h.calls]
    intro id c hc
    cases hc

theorem Appending.filewrite (h : Appending sb f k s) {pt : PageTable} {addr : Nat} {n : Int}
    (hok : SharedGuard sb f k s (.filewrite pt addr n)) :
    Outcome.Sat (· = .fs .ballocOutOfBlocks) (Appending sb f k)
    (Writers.step sb f k s (.filewrite pt addr n)) := by
  refine .next ⟨h.file, h.start_le, h.consecutive, h.off, h.contents, ?_, fun ch hch => ?_,
    fun id c hc => ?_⟩
  · rw [List.map_append, List.sum_append]
    exact h.total
  · rw [List.length_append]
    exact Nat.lt_add_right _ (h.callers ch hch)
  · by_cases hid : id < s.calls.length
    · rw [List.getElem?_append_left hid] at hc
      obtain ⟨hle, hw, hbuf, hret⟩ := h.calls id c hc
      exact ⟨hle, hw, hbuf, hret⟩
    · rw [List.getElem?_append_right (Nat.le_of_not_lt hid)] at hc
      rw [List.getElem?_singleton] at hc
      split at hc
      case isFalse => cases hc
      cases hc
      have hnone : s.writtenBy id = [] := by
        unfold Writers.writtenBy
        rw [List.filter_eq_nil_iff.mpr fun ch hch => by
          have := h.callers ch hch
          simp only [decide_eq_true_eq]
          omega]
        rfl
      refine ⟨Nat.zero_le _, hnone, fun _ j hj => ?_, fun r hr => ?_⟩
      · obtain ⟨b, hb⟩ := Option.isSome_iff_exists.mp (hok j hj)
        dsimp only
        rw [hb]
        rfl
      · dsimp only at hr
        rw [if_pos h.file.writable] at hr
        cases hr

theorem sum_set {calls : List WriteCall} {id : Nat} {c c' : WriteCall} (hc : calls[id]? = some c)
    {m : Nat} (hi : c'.i = c.i + m) :
    ((calls.set id c').map WriteCall.i).sum = (calls.map WriteCall.i).sum + m := by
  induction calls generalizing id with
  | nil => cases hc
  | cons c₀ calls ih =>
    cases id with
    | zero =>
      cases hc
      simp only [List.set_cons_zero, List.map_cons, List.sum_cons, hi]
      omega
    | succ id =>
      simp only [List.set_cons_succ, List.map_cons, List.sum_cons]
      rw [ih hc]
      omega

theorem writtenBy_append (s : Writers) (sys : Sys) (calls : List WriteCall)
    (ch : Chunk) (id : Nat) : Writers.writtenBy ⟨sys, s.start, s.base, calls, s.chunks ++ [ch]⟩ id =
      s.writtenBy id ++ if ch.call = id then ch.bytes else [] := by
  unfold Writers.writtenBy
  rw [List.filter_append, List.flatMap_append]
  by_cases hid : ch.call = id
  · rw [if_pos hid, List.filter_cons_of_pos (by simpa using hid)]
    simp
  · rw [if_neg hid, List.filter_cons_of_neg (by simpa using hid)]
    rfl

theorem getElem?_set_cases {calls : List WriteCall} {id id' : Nat} {c c' : WriteCall}
    (h : (calls.set id c)[id']? = some c') :
    id' = id ∧ c' = c ∨ id' ≠ id ∧ calls[id']? = some c' := by
  by_cases hid : id = id'
  · subst hid
    rw [List.getElem?_set_self'] at h
    obtain ⟨_, -, rfl⟩ := Option.map_eq_some_iff.mp h
    exact .inl ⟨rfl, rfl⟩
  · rw [List.getElem?_set_ne hid] at h
    exact .inr ⟨Ne.symm hid, h⟩

theorem Appending.finish (h : Appending sb f k s) {id : Nat} {c : WriteCall}
    (hc : s.calls[id]? = some c) (hend : ¬ (c.i : Int) < c.n) :
    Appending sb f k { s with calls := s.calls.set id c.finish } := by
  have hcall := h.calls id c hc
  refine ⟨h.file, h.start_le, h.consecutive, h.off, h.contents, ?_, fun ch hch => ?_,
    fun id' c' hc' => ?_⟩
  · rw [sum_set hc (show c.finish.i = c.i + 0 from rfl)]
    exact h.total
  · rw [List.length_set]
    exact h.callers ch hch
  · obtain ⟨rfl, rfl⟩ | ⟨-, hc'⟩ := getElem?_set_cases hc'
    · have hle := hcall.le
      refine ⟨hle, hcall.written, (by intro h; cases h), fun r hr => ?_⟩
      cases hr
      refine ⟨show c.i = c.n.toNat by omega, ?_⟩
      show (if (c.i : Int) = c.n then c.n else -1) = if 0 ≤ c.n then c.n else -1
      exact if_congr (by omega) rfl rfl
    · obtain ⟨hle, hw, hbuf, hret⟩ := h.calls id' c' hc'
      exact ⟨hle, hw, hbuf, hret⟩

/-- An iteration writes its chunk behind all others, unless there is no free block. -/
theorem Appending.iterate (h : Appending sb f k s) {id : Nat} {c : WriteCall}
    (hc : s.calls[id]? = some c) (hrun : c.ret = none)
    (hmax : (s.sys.file f).off + c.n1 ≤ Fs.MAXFILE * BSIZE) :
    Outcome.Sat (· = .fs .ballocOutOfBlocks)
      (fun s' => Appending sb f k s' ∧ s'.calls = s.calls.set id { c with i := c.i + c.n1 })
      (Writers.iterate sb f s id c) := by
  have hcall := h.calls id c hc
  have hn1 : c.i + c.n1 ≤ c.n.toNat := by
    have := hcall.le
    unfold WriteCall.n1
    omega
  have hbuf : ∀ j, j < c.n1 → loadByte s.sys.km c.pagetable ((c.addr + c.i + j) % 2 ^ 64) =
      some (c.buf (c.i + j)) := by
    intro j hj
    rw [Nat.add_assoc]
    exact hcall.buffer hrun _ (by omega)
  have hpost := @writeChunk_accepted sb f k s.sys h.file c.pagetable (c.addr + c.i) c.n1
    (fun j => c.buf (c.i + j)) h.off_le hmax hbuf
  unfold Writers.iterate
  cases hw : writeChunk sb c.pagetable f (c.addr + c.i) c.n1 s.sys with
  | error e => exact .fault (hpost.of_error hw)
  | ok w =>
    obtain ⟨r, sys⟩ := w
    obtain ⟨hr, hfile, hkm, hoff, hcont⟩ := hpost.of_ok hw
    dsimp only at hr hfile hkm hoff hcont ⊢
    have hbytes : ((List.range r.toNat).map fun j =>
        (loadByte s.sys.km c.pagetable ((c.addr + c.i + j) % 2 ^ 64)).getD 0) =
        (List.range c.n1).map fun j => c.buf (c.i + j) := by
      rw [hr, Int.toNat_natCast]
      exact List.map_congr_left fun j hj => by rw [hbuf j (List.mem_range.mp hj)]; rfl
    rw [if_neg (not_not.mpr hr), hbytes]
    refine .next ⟨?_, rfl⟩
    have hlen : ((List.range c.n1).map fun j => c.buf (c.i + j)).length = c.n1 := by
      rw [List.length_map, List.length_range]
    have hwritten : ∀ ch : Chunk, (s.chunks ++ [ch]).flatMap Chunk.bytes = s.written ++ ch.bytes :=
        fun ch => by
      rw [List.flatMap_append, List.flatMap_singleton]
      rfl
    refine ⟨hfile, h.start_le, consecutive_append h.consecutive h.off, ?_, ?_, ?_, fun ch hch => ?_,
      fun id' c' hc' => ?_⟩
    · rw [Writers.written, hwritten, List.length_append, hlen, hoff, h.off, Nat.add_assoc]
    · rw [Writers.written, hwritten, hcont, h.contents, h.off]
      exact writeRange_append h.start_le _ _
    · rw [Writers.written, hwritten, List.length_append, hlen, h.total]
      exact (sum_set hc rfl).symm
    · rw [List.length_set]
      rcases List.mem_append.mp hch with hold | hnew
      · exact h.callers ch hold
      · rw [List.mem_singleton.mp hnew]
        exact (List.getElem?_eq_some_iff.mp hc).1
    · obtain ⟨rfl, rfl⟩ | ⟨hne, hc'⟩ := getElem?_set_cases hc'
      · refine ⟨hn1, ?_, fun _ j hj => ?_, fun r' hr' => ?_⟩
        · rw [writtenBy_append, if_pos rfl, hcall.written]
          dsimp only
          rw [List.range_add, List.map_append, List.map_map]
          rfl
        · dsimp only at hj ⊢
          rw [hkm]
          exact hcall.buffer hrun j hj
        · rw [hrun] at hr'
          cases hr'
      · obtain ⟨hle, hw', hbuf', hret⟩ := h.calls id' c' hc'
        refine ⟨hle, ?_, fun hr' j hj => ?_, hret⟩
        · rw [writtenBy_append, if_neg (Ne.symm hne), List.append_nil]
          exact hw'
        · dsimp only
          rw [hkm]
          exact hbuf' hr' j hj

theorem Appending.fileread (h : Appending sb f k s) {pt : PageTable} {addr : Nat} {n : Int}
    (hd : DistinctPages pt) (haddr : addr < 2 ^ 64) :
    Outcome.Sat (· = .fs .ballocOutOfBlocks) (Appending sb f k)
    (Writers.step sb f k s (.fileread pt addr n)) := by
  have hmax := h.file.size
  have hsize := h.off_le
  have hlt := Fs.maxfile_lt
  have hopen : OpenFile sb s.sys f :=
    ⟨by rw [h.file.type]; decide, by omega, fun _ => ⟨k, h.file.ip, h.file.ref, h.file.allocated⟩⟩
  have hfresh : ∀ sys, SharedFile sb f k sys → (sys.file f).off ≤ (sys.contents sb k).length →
      Appending sb f k ⟨sys, (sys.file f).off, sys.contents sb k, [], []⟩ := fun sys hfile hoff =>
    ⟨hfile, hoff, trivial, rfl, by simp [Writers.written, Fs.writeRange], rfl,
      fun _ h => (by cases h), fun _ _ h => (by cases h)⟩
  unfold Writers.step
  dsimp only
  split
  · exact .blocked
  · by_cases hread : (s.sys.file f).readable = true
    · obtain ⟨r, sys, c, hr, hc⟩ :=
        fileread_inode h.file.alloc hopen hd haddr hread h.file.type h.file.ip n [] false
      rw [hr]
      have hcont : sys.contents sb k = s.sys.contents sb k := by
        rw [Sys.contents, hc.disk, (hc.entries k).1]
        rfl
      refine .next (hfresh sys ⟨?_, ?_, ?_, ?_, ?_, ?_⟩ ?_)
      · rw [hc.files, update_self]
        exact h.file.type
      · rw [hc.files, update_self]
        exact h.file.writable
      · rw [hc.files, update_self]
        exact h.file.ip
      · rw [(hc.entries k).2]
        exact h.file.ref
      · rw [hc.disk, (hc.entries k).1]
        exact h.file.allocated
      · rw [hc.disk]
        exact h.file.alloc
      · rw [hcont, hc.files, update_self]
        have hrle : r.toNat ≤ filereadLen sb s.sys f k n := by
          rw [hc.result]
          split
          · exact Nat.le_of_eq (Int.toNat_natCast _)
          · exact Nat.zero_le _
        have hdsize : (s.sys.contents sb k).length = (s.sys.dinode sb k).size :=
          Fs.contents_length _ _
        dsimp only
        rcases @filereadLen_le sb s.sys f k n hopen.off_lt with hzero | hle <;> omega
    · have hr : Kernel.fileread sb s.sys pt f addr n [] false = .ok (-1, s.sys) :=
        if_pos (Bool.eq_false_of_not_eq_true hread)
      rw [hr]
      exact .next (hfresh s.sys h.file h.off_le)

theorem Appending.step (h : Appending sb f k s) (a : Writers.Action)
    (hok : SharedGuard sb f k s a) :
    Outcome.Sat (· = .fs .ballocOutOfBlocks) (Appending sb f k) (Writers.step sb f k s a) := by
  cases a with
  | filewrite pt addr n => exact h.filewrite hok
  | fileread pt addr n => exact h.fileread hok.1 hok.2
  | iterate id =>
    unfold Writers.step
    dsimp only
    cases hc : s.calls[id]? with
    | none => exact .blocked
    | some c =>
      dsimp only
      by_cases hrun : c.ret = none
      · rw [if_neg (not_not.mpr hrun)]
        by_cases hlt : (c.i : Int) < c.n
        · rw [if_pos hlt]
          exact (h.iterate hc hrun (hok c hc)).mono (fun _ he => he) fun _ => And.left
        · rw [if_neg hlt]
          exact .next (h.finish hc hlt)
      · rw [if_pos hrun]
        exact .blocked
  | other sys =>
    refine .next ⟨hok.file, h.start_le, h.consecutive, hok.off.trans h.off,
      hok.contents.trans h.contents, h.total, h.callers, fun id c hc => ?_⟩
    obtain ⟨hle, hw, hbuf, hret⟩ := h.calls id c hc
    refine ⟨hle, hw, fun hrun j hj => ?_, hret⟩
    exact (hok.buffers c (List.mem_of_getElem? hc) hrun j hj).trans (hbuf hrun j hj)

/-- A running call goes on: its next iteration writes a chunk, or it returns. -/
theorem Appending.progress (h : Appending sb f k s) {id : Nat} {c : WriteCall}
    (hc : s.calls[id]? = some c) (hrun : c.ret = none) (hok : SharedGuard sb f k s (.iterate id)) :
    Writers.step sb f k s (.iterate id) = .fault (.fs .ballocOutOfBlocks) ∨
    ∃ s' c', Writers.step sb f k s (.iterate id) = .next s' ∧ s'.calls[id]? = some c' ∧
      if (c.i : Int) < c.n then c'.i = c.i + c.n1 ∧ 0 < c.n1 else c'.ret ≠ none := by
  have hid : id < s.calls.length := (List.getElem?_eq_some_iff.mp hc).1
  unfold Writers.step
  dsimp only
  rw [hc]
  dsimp only
  rw [if_neg (not_not.mpr hrun)]
  by_cases hlt : (c.i : Int) < c.n
  · rw [if_pos hlt]
    have hsat := h.iterate hc hrun (hok c hc)
    cases hi : Writers.iterate sb f s id c with
    | blocked =>
      unfold Writers.iterate at hi
      dsimp only at hi
      repeat' split at hi
      all_goals cases hi
    | fault e => exact .inl (by rw [hsat.of_fault hi])
    | next s' =>
      refine .inr ⟨s', { c with i := c.i + c.n1 }, rfl, ?_, ?_⟩
      · rw [(hsat.of_next hi).2, List.getElem?_set_self hid]
      · rw [if_pos hlt]
        refine ⟨rfl, ?_⟩
        have hmax : 0 < maxWrite := by decide
        unfold WriteCall.n1
        omega
  · rw [if_neg hlt]
    refine .inr ⟨_, c.finish, rfl, List.getElem?_set_self hid, ?_⟩
    rw [if_neg hlt]
    exact Option.some_ne_none _

end

/-- Calls of `filewrite` that share a file: in every reachable state the chunks occupy consecutive
ranges from the first offset on, which the offset of the file is behind, their bytes are in the
file, the chunks of one call are its buffer in order, and a call that has returned has returned its
`n`, unless that is negative. -/
theorem shared_writes_append (sb : Fs.Superblock) (f k : Nat) (s : Writers)
    (hr : Reach (Writers.step sb f k) (SharedGuard sb f k) (SharedStart sb f k) s) :
    Consecutive s.start s.chunks ∧
    (s.sys.file f).off = s.start + s.written.length ∧
    s.sys.contents sb k = Fs.writeRange s.base s.start s.written ∧
    (∀ ch, ch ∈ s.chunks → ∀ j, j < ch.bytes.length → (s.sys.contents sb k)[ch.off + j]? =
      ch.bytes[j]?) ∧
    (∀ id (c : WriteCall), s.calls[id]? = some c → s.writtenBy id = (List.range c.i).map c.buf ∧
      ∀ r, c.ret = some r → c.i = c.n.toNat ∧ r = if 0 ≤ c.n then c.n else -1) ∧
    ((∀ c, c ∈ s.calls → c.ret ≠ none) → (s.sys.file f).off =
      s.start + (s.calls.map fun c => c.n.toNat).sum) ∧
    (∀ id (c : WriteCall), s.calls[id]? = some c → c.ret = none →
      SharedGuard sb f k s (.iterate id) →
      Writers.step sb f k s (.iterate id) = .fault (.fs .ballocOutOfBlocks) ∨
      ∃ s' c', Writers.step sb f k s (.iterate id) = .next s' ∧ s'.calls[id]? = some c' ∧
        if (c.i : Int) < c.n then c'.i = c.i + c.n1 ∧ 0 < c.n1 else c'.ret ≠ none) := by
  have h : Appending sb f k s := hr.invariant (fun _ => appending_start) fun _ a _ hs hok hstep =>
    (hs.step a hok).of_next hstep
  refine ⟨h.consecutive, h.off, h.contents, fun ch hch j hj => ?_,
    fun id c hc => ⟨(h.calls id c hc).written, (h.calls id c hc).returned⟩, fun hall => ?_,
    fun id c hc hrun hok => h.progress hc hrun hok⟩
  · obtain ⟨hle, hbytes⟩ := h.consecutive.bytes hch
    have hin : ch.off - s.start + j < s.written.length :=
      (List.getElem?_eq_some_iff.mp ((hbytes j hj).trans (List.getElem?_eq_getElem hj))).1
    rw [h.contents, Fs.getElem?_writeRange h.start_le, if_pos (by omega), ← hbytes j hj]
    congr 1
    omega
  · rw [h.off, h.total]
    congr 2
    apply List.map_congr_left
    intro c hc
    obtain ⟨id, hid⟩ := List.mem_iff_getElem?.mp hc
    obtain ⟨r, hret⟩ := Option.ne_none_iff_exists'.mp (hall c hc)
    exact ((h.calls id c hid).returned r hret).1

/-- Two processes write two bytes and one byte to an empty file. -/
def twoWriters : List Writers.Action :=
  [.filewrite onePage 100 2, .filewrite onePage 200 1, .iterate 1, .iterate 0,
    .iterate 0, .iterate 1]

def emptyFile : Writers := ⟨oneFile (Fs.Disk.ofImage Fs.tinyImage), 0, [], [], []⟩

/-- The condition of a run in which processes only write. -/
def onlyWrites (f : Nat) (s : Writers) : Writers.Action → Bool
  | .filewrite pt addr n =>
    (List.range n.toNat).all fun j => (loadByte s.sys.km pt ((addr + j) % 2 ^ 64)).isSome
  | .iterate id => s.calls[id]?.all fun c => (s.sys.file f).off + c.n1 ≤ Fs.MAXFILE * BSIZE
  | _ => false

/-- A disk with one data block. -/
def oneBlockSb : Fs.Superblock := .layout 1 3 1 Nat.one_pos (by decide)

theorem emptyFile_start {n : Nat} (hn : 1 + (3 / Fs.IPB + 1) + 1 + n ≤ Fs.BPB) :
    SharedStart (.layout 1 3 n Nat.one_pos hn) 0 0 emptyFile := by
  have hview := Fs.tiny_view_layout hn
  have halloc : ((Fs.Disk.ofImage Fs.tinyImage).view (.layout 1 3 n Nat.one_pos hn)).Allocated
      (.layout 1 3 n Nat.one_pos hn) 2 := by
    rw [hview]
    exact ⟨show 2 < 3 by decide, by simp [Fs.tinyInode, Fs.Dinode.zeroed]⟩
  refine ⟨⟨rfl, rfl, rfl, Nat.one_pos, halloc, Fs.tiny_allocInv_layout hn⟩, rfl, rfl, ?_, rfl, rfl⟩
  change [] = ((Fs.Disk.ofImage Fs.tinyImage).view (.layout 1 3 n Nat.one_pos hn)).contents 2
  rw [hview]
  rfl

theorem reach_onlyWrites {sb : Fs.Superblock} {s s' : Writers} {as : List Writers.Action}
    (h : SharedStart sb 0 0 s)
    (hguard : Guarded (Writers.step sb 0 0) (fun s a => onlyWrites 0 s a = true) s as)
    (hrun : Lib.exec (Writers.step sb 0 0) s as = .next s') :
    Reach (Writers.step sb 0 0) (SharedGuard sb 0 0) (SharedStart sb 0 0) s' := by
  refine Reach.mono (fun s a ha => ?_) ((Reach.start h).of_exec hguard hrun)
  cases a with
  | filewrite pt addr n => exact fun j hj => List.all_eq_true.mp ha j (List.mem_range.mpr hj)
  | iterate id =>
    intro c hc
    dsimp only [onlyWrites] at ha
    rw [hc] at ha
    exact of_decide_eq_true ha
  | fileread pt addr n => cases ha
  | other sys => cases ha

/-- A call with a negative count returns -1. A call that finds no free block panics: here it extends
a file that has the only data block. -/
theorem shared_write_negative_or_full :
    (∃ s, Reach (Writers.step Fs.tinySb 0 0) (SharedGuard Fs.tinySb 0 0)
      (SharedStart Fs.tinySb 0 0) s ∧
      s.calls.map (fun c => (c.n, c.ret)) = [(-2, some (-1))]) ∧
    ∃ s, Reach (Writers.step oneBlockSb 0 0) (SharedGuard oneBlockSb 0 0)
    (SharedStart oneBlockSb 0 0) s ∧
      s.calls.map (fun c => (c.n, c.ret)) = [(1024, some 1024), (1, none)] ∧
      Writers.step oneBlockSb 0 0 s (.iterate 1) = .fault (.fs .ballocOutOfBlocks) := by
  constructor
  · have hrun : (Lib.exec (Writers.step Fs.tinySb 0 0) emptyFile
        [.filewrite onePage 100 (-2), .iterate 0]).next?.map
        (fun s => s.calls.map fun c => (c.n, c.ret)) = some [(-2, some (-1))] := by
      decide +kernel
    obtain ⟨s, hs, heq⟩ := Option.map_eq_some_iff.mp hrun
    exact ⟨s, reach_onlyWrites (emptyFile_start _) (by decide +kernel)
      (Outcome.next?_eq_some.mp hs), heq⟩
  · have hrun : (Lib.exec (Writers.step oneBlockSb 0 0) emptyFile
        [.filewrite onePage 0 1024, .iterate 0, .iterate 0, .filewrite onePage 0 1]).next?.map
        (fun s => (s.calls.map fun c => (c.n, c.ret),
          (Writers.step oneBlockSb 0 0 s (.iterate 1)).fault?)) =
        some ([(1024, some 1024), (1, none)], some (.fs .ballocOutOfBlocks)) := by
      decide +kernel
    obtain ⟨s, hs, heq⟩ := Option.map_eq_some_iff.mp hrun
    simp only [Prod.mk.injEq] at heq
    exact ⟨s, reach_onlyWrites (emptyFile_start _) (by decide +kernel)
      (Outcome.next?_eq_some.mp hs), heq.1, Outcome.fault?_eq_some.mp heq.2⟩

theorem shared_writes_append_twoWriters : ∃ s,
    Reach (Writers.step Fs.tinySb 0 0) (SharedGuard Fs.tinySb 0 0) (SharedStart Fs.tinySb 0 0) s ∧
    s.calls.map WriteCall.ret = [some 2, some 1] ∧ (s.sys.file 0).off = 3 := by
  have hrun : (Lib.exec (Writers.step Fs.tinySb 0 0) emptyFile twoWriters).next?.map (fun s =>
      (s.calls.map WriteCall.ret, s.calls.map WriteCall.n, s.start)) =
          some ([some 2, some 1], [2, 1], 0) := by
    decide +kernel
  have hguard : Guarded (Writers.step Fs.tinySb 0 0) (fun s a => onlyWrites 0 s a = true) emptyFile
      twoWriters := by
    decide +kernel
  obtain ⟨s, hs, heq⟩ := Option.map_eq_some_iff.mp hrun
  simp only [Prod.mk.injEq] at heq
  obtain ⟨hret, hn, hstart⟩ := heq
  have hreach := reach_onlyWrites (emptyFile_start _) hguard (Outcome.next?_eq_some.mp hs)
  have hsum : (s.calls.map fun c => c.n.toNat) = [2, 1] := by
    rw [show (fun c : WriteCall => c.n.toNat) = Int.toNat ∘ WriteCall.n from rfl,
      ← List.map_map, hn]
    rfl
  obtain ⟨-, -, -, -, -, htotal, -⟩ := shared_writes_append Fs.tinySb 0 0 s hreach
  refine ⟨s, hreach, hret, ?_⟩
  rw [htotal, hstart, hsum]
  · rfl
  · intro c hc hnone
    have hmem : c.ret ∈ s.calls.map WriteCall.ret := List.mem_map_of_mem hc
    rw [hret, hnone] at hmem
    simp at hmem

end Xv6.Kernel
