import Xv6.Console.Model
import Xv6.Fs.Delivery
import Xv6.Kernel.Contents
import Xv6.Kernel.Machine
import Xv6.Vm.UserCopy

/-! # Calls that store into user memory

`read` on files, pipes and the console, `fstat`, `pipe` and `wait` with their results, of which only
-1 is told apart (false). All of them store through `copyout`, which takes every page with `PTE_U`.
For every call it is decided whether pages without `PTE_W` are respected.
-/

namespace Xv6.Kernel

open Lib Vm

/-! ## The calls -/

/-- The loop of `piperead` over the bytes `data` of the pipe, with its counter `i`. -/
def pipereadLoop (pt : PageTable) : Nat → List UInt8 → Kmem → Nat → Nat → Nat × Kmem
  | 0, _, km, _, i => (i, km)
  | _ + 1, [], km, _, i => (i, km)
  | n + 1, ch :: data, km, addr, i =>
    match copyout pt km addr [ch] with
    | (false, km) => (i, km)
    | (true, km) => pipereadLoop pt n data km ((addr + 1) % 2 ^ 64) (i + 1)

/-- `piperead` of a pipe that holds `data` when the process stops waiting; `killed` while it
waits. -/
def piperead (pt : PageTable) (km : Kmem) (addr : Nat) (n : Int) (data : List UInt8)
    (killed : Bool) : Int × Kmem :=
  if data.isEmpty && killed then (-1, km)
  else
    let (i, km) := pipereadLoop pt n.toNat data km addr 0
    (i, km)

/-- The loop of `consoleread` on the characters `input` when `i` of them have been stored; `i` is
the `target - n` of the code. Where the characters end the process is killed while it waits. -/
def consolereadLoop (pt : PageTable) : Nat → List UInt8 → Kmem → Nat → Nat → Int × Kmem
  | 0, _, km, _, i => (i, km)
  | _ + 1, [], km, _, _ => (-1, km)
  | n + 1, c :: input, km, dst, i =>
    if c = Console.ctrlD then (i, km)
    else
      match copyout pt km dst [c] with
      | (false, km) => (i, km)
      | (true, km) =>
        if c = newline then (i + 1, km) else consolereadLoop pt n input km ((dst + 1) % 2 ^ 64)
        (i + 1)

/-- The major number of the only device with a `read`. -/
def CONSOLE : Nat := 1

def fileread (sb : Fs.Superblock) (sys : Sys) (pt : PageTable) (f addr : Nat) (n : Int)
    (input : List UInt8) (killed : Bool) : Except Panic (Int × Sys) :=
  if (sys.file f).readable = false then .ok (-1, sys)
  else
    match (sys.file f).type with
    | .pipe =>
      let (r, km) := piperead pt sys.km addr n input killed
      .ok (r, { sys with km := km })
    | .device =>
      if (sys.file f).major = CONSOLE then
        let (r, km) := consolereadLoop pt n.toNat input sys.km addr 0
        .ok (r, { sys with km := km })
      else .ok (-1, sys)
    | .none => .error .fileread
    | .inode => filereadInode sb sys pt f addr (n % 2 ^ 32).toNat

def bytes16 (x : Nat) : List UInt8 := (List.range 2).map fun k => .ofNat (x / 256 ^ k)

/-- The device number of the disk. -/
def ROOTDEV : Nat := 1

/-- `struct stat` as `stati` fills it; `pad` is what was on the stack between `nlink` and `size`. -/
def statBytes (inum : Nat) (ip : Fs.Dinode) (pad : Nat) : List UInt8 :=
  bytes32 ROOTDEV ++ bytes32 inum ++ bytes16 ip.type ++ bytes16 ip.nlink ++ bytes32 pad ++
    bytes64 ip.size

def filestat (sb : Fs.Superblock) (sys : Sys) (pt : PageTable) (f addr pad : Nat) :
    Except Panic (Bool × Sys) :=
  match (sys.file f).type with
  | .pipe | .none => .ok (false, sys)
  | .inode | .device => do
    let (k, sys) ← ilock sb sys (sys.file f).ip
    let (ok, km) := copyout pt sys.km addr (statBytes (sys.inode k).inum (sys.dinode sb k) pad)
    return (ok, { sys with km := km })

/-- Of a count only -1 is told apart. -/
def answered {α : Type} (r : Int × α) : Bool × α := (decide (r.1 ≠ -1), r.2)

/-- System calls that store into user memory, with the values of the argument registers. -/
inductive StoreCall where
  /-- `input` is what the pipe or the console has to give -/
  | read (fd addr n : Nat) (input : List UInt8) (killed : Bool)
  | fstat (fd st pad : Nat)
  | pipe (rf wf fdarray : Nat)
  | wait (q addr : Nat)

def StoreCall.run (sb : Fs.Superblock) (s : State) (n : Nat) :
    StoreCall → Except Panic (Bool × State)
  | .read fd addr cnt input killed =>
    match argfd (s.proc n) fd with
    | none => .ok (false, s)
    | some (_, f) => do
      let r ← fileread sb s.sys (s.proc n).pagetable f (argaddr addr) (argint cnt) input killed
      return ((answered r).1, { s with sys := r.2 })
  | .fstat fd st pad =>
    match argfd (s.proc n) fd with
    | none => .ok (false, s)
    | some (_, f) => do
      let (ok, sys) ← filestat sb s.sys (s.proc n).pagetable f (argaddr st) pad
      return (ok, { s with sys := sys })
  | .pipe rf wf fdarray => do
    let (ok, sys, p) ← pipeFinish sb s.sys (s.proc n) rf wf (argaddr fdarray)
    return (ok, { s with sys := sys }.setProc n p)
  | .wait q addr => s.waitProc n q (argaddr addr)

/-- On an inode the call is that of the system of processes, with a result. -/
theorem sysRead_eq {sb : Fs.Superblock} {sys : Sys} {p : Proc} {fd addr n : Nat}
    {input : List UInt8} {killed : Bool} (h : ∀ fd' f, argfd p fd = some (fd', f) →
      (sys.file f).type ≠ .pipe ∧ (sys.file f).type ≠ .device) :
    sysRead sb sys p fd addr n =
    (StoreCall.run sb ⟨sys, fun _ => p⟩ 0 (.read fd addr n input killed)).map fun r => r.2.sys := by
  unfold sysRead StoreCall.run
  dsimp only
  cases hfd : argfd p fd with
  | none => rfl
  | some r =>
    obtain ⟨fd', f⟩ := r
    have hn : (argint n % 2 ^ 32).toNat = n % 2 ^ 32 := by
      unfold argint
      rw [int32_eq]
      simp only [Int.bmod]
      omega
    dsimp only
    unfold fileread
    by_cases hread : (sys.file f).readable = false
    · rw [if_pos hread, if_pos hread]
      rfl
    · rw [if_neg hread, if_neg hread]
      cases htype : (sys.file f).type with
      | pipe => exact absurd htype (h fd' f hfd).1
      | device => exact absurd htype (h fd' f hfd).2
      | none => rfl
      | inode =>
        dsimp only
        rw [hn]
        cases filereadInode sb sys p.pagetable f (argaddr addr) (n % 2 ^ 32) <;> rfl

/-! ## What a call stores -/

/-- The bytes that a call stores from `dst` on, as long as it meets user pages only. `result` is the
result of a call that has stored something, given whether it has stored everything. -/
structure Store where
  dst : Nat
  len : Nat
  byte : Nat → Option UInt8
  result : Bool → Bool

def Store.nothing : Store := ⟨0, 0, fun _ => none, id⟩

def Store.ofBytes (dst : Nat) (bs : List UInt8) (result : Bool → Bool) : Store :=
  ⟨dst, bs.length, fun j => bs[j]?, result⟩

/-- The characters that a call of `consoleread` has to store. -/
def consoleBytes : Nat → List UInt8 → List UInt8
  | 0, _ => []
  | _ + 1, [] => []
  | n + 1, c :: input =>
    if c = Console.ctrlD then [] else if c = Xv6.newline then [c] else c :: consoleBytes n input

/-- The characters end before the call of `consoleread` does. -/
def consoleShort : Nat → List UInt8 → Bool
  | 0, _ => false
  | _ + 1, [] => true
  | n + 1, c :: input =>
    if c = Console.ctrlD then false else if c = Xv6.newline then false else consoleShort n input

def filereadStore (sb : Fs.Superblock) (sys : Sys) (f addr : Nat) (n : Int) (input : List UInt8)
    (killed : Bool) : Store :=
  if (sys.file f).readable = false then .nothing
  else
    match (sys.file f).type, (sys.file f).ip with
    | .pipe, _ =>
      if input.isEmpty && killed then .nothing else .ofBytes addr (input.take n.toNat) fun _ => true
    | .device, _ =>
      if (sys.file f).major = CONSOLE then
        .ofBytes addr (consoleBytes n.toNat input) fun all => !(all && consoleShort n.toNat input)
      else .nothing
    | .inode, some k =>
      ⟨addr, Fs.readLen (sys.dinode sb k) (sys.file f).off (n % 2 ^ 32).toNat,
        Fs.readByte sb sys.disk (sys.dinode sb k) (sys.file f).off (n % 2 ^ 32).toNat, id⟩
    | _, _ => .nothing

def filestatStore (sb : Fs.Superblock) (sys : Sys) (f addr pad : Nat) : Store :=
  match (sys.file f).type, (sys.file f).ip with
  | .inode, some k | .device, some k =>
    .ofBytes addr (statBytes (sys.inode k).inum (sys.dinode sb k) pad) id
  | _, _ => .nothing

def pipeStore (p : Proc) (rf wf fdarray : Nat) : Store :=
  match fdalloc { p with held := .nothing } rf with
  | none => .nothing
  | some (fd0, p0) =>
    match fdalloc p0 wf with
    | none => .nothing
    | some (fd1, _) => .ofBytes fdarray (bytes32 fd0 ++ bytes32 fd1) id

def StoreCall.store (sb : Fs.Superblock) (s : State) (n : Nat) : StoreCall → Store
  | .read fd addr cnt input killed =>
    match argfd (s.proc n) fd with
    | none => .nothing
    | some (_, f) => filereadStore sb s.sys f (argaddr addr) (argint cnt) input killed
  | .fstat fd st pad =>
    match argfd (s.proc n) fd with
    | none => .nothing
    | some (_, f) => filestatStore sb s.sys f (argaddr st) pad
  | .pipe rf wf fdarray => pipeStore (s.proc n) rf wf (argaddr fdarray)
  | .wait q addr =>
    if argaddr addr = 0 then .nothing else .ofBytes (argaddr addr) (bytes32 (s.proc q).xstate) id

/-- Page `v` is a user page without `PTE_W`. -/
def ReadOnlyPage (pt : PageTable) (v : Nat) : Prop :=
  ∃ pte, pt.leaf v = some pte ∧ pte.perm.u = true ∧ pte.perm.w = false

/-- No byte of a read-only page has changed, and a call that came to one has failed. -/
structure RespectsReadOnly (pt : PageTable) (km : Kmem) (st : Store) (ok : Bool) (km' : Kmem) :
    Prop where
  contents : ∀ a, ReadOnlyPage pt (a / PGSIZE) → loadByte km' pt a = loadByte km pt a
  fails : ∀ k j, Reached pt st.dst st.len k → j < k → ReadOnlyPage pt ((st.dst + j) / PGSIZE) →
    ok = false

/-- The bytes of read-only pages that the call comes to have the values that it stores, and it fails
on a later one. -/
def Harmless (pt : PageTable) (km : Kmem) (st : Store) : Prop :=
  ∀ k j, Reached pt st.dst st.len k → j < k → ReadOnlyPage pt ((st.dst + j) / PGSIZE) →
    loadByte km pt (st.dst + j) = st.byte j ∧ st.result (decide (k = st.len)) = false

/-- The call has stored the bytes of `st` up to byte `k`. -/
structure Stored (pt : PageTable) (km : Kmem) (st : Store) (ok : Bool) (km' : Kmem) (k : Nat) :
    Prop where
  reached : Reached pt st.dst st.len k
  bytes : ∀ a, loadByte km' pt a = if st.dst ≤ a ∧ a < st.dst + k then st.byte (a - st.dst)
    else loadByte km pt a
  result : 0 < k → ok = st.result (decide (k = st.len))

section

variable {pt : PageTable} {km km' km₁ : Kmem} {st : Store} {ok : Bool} {k : Nat}

theorem Stored.respects_iff (h : Stored pt km st ok km' k) :
    RespectsReadOnly pt km st ok km' ↔ Harmless pt km st := by
  constructor
  · intro hr k' j hk hj hro
    obtain rfl := hk.unique h.reached
    refine ⟨?_, ?_⟩
    · rw [← hr.contents _ hro, h.bytes, if_pos (by omega), Nat.add_sub_cancel_left]
    · rw [← h.result (by omega)]
      exact hr.fails _ j hk hj hro
  · intro hh
    refine ⟨fun a hro => ?_, fun k' j hk hj hro => ?_⟩
    · rw [h.bytes]
      split
      · rename_i hin
        have := hh k (a - st.dst) h.reached (by omega)
          (by rw [Nat.add_sub_cancel' hin.1]; exact hro)
        rw [← this.1, Nat.add_sub_cancel' hin.1]
      · rfl
    · obtain rfl := hk.unique h.reached
      rw [h.result (by omega)]
      exact (hh _ j hk hj hro).2

theorem loadByte_congr (h : km'.mem = km.mem) (a : Nat) : loadByte km' pt a = loadByte km pt a := by
  unfold loadByte
  rw [h]

theorem Stored.congr (h : Stored pt km st ok km₁ k) (hmem : km'.mem = km₁.mem) :
    Stored pt km st ok km' k :=
  ⟨h.reached, fun a => (loadByte_congr hmem a).trans (h.bytes a), h.result⟩

theorem stored_nothing (hmem : km'.mem = km.mem) : Stored pt km .nothing ok km' 0 :=
  ⟨.nil, fun a => (loadByte_congr hmem a).trans (if_neg (by omega)).symm,
    fun h => absurd h (Nat.lt_irrefl _)⟩

theorem stored_copyout (hd : DistinctPages pt) (km : Kmem) {dst : Nat} (hdst : dst < 2 ^ 64)
    (bs : List UInt8) (result : Bool → Bool) :
    ∃ k, Stored pt km (.ofBytes dst bs result) (result (copyout pt km dst bs).1)
    (copyout pt km dst bs).2 k := by
  obtain ⟨k, hreach, hok, hbytes⟩ := copyout_reached hd hdst bs km
  refine ⟨k, hreach, hbytes, fun _ => ?_⟩
  congr 1
  rw [Bool.eq_iff_iff, hok, decide_eq_true_iff]
  rfl

theorem copyout_cons (km : Kmem) (dst : Nat) (b : UInt8) (bs : List UInt8) :
    copyout pt km dst (b :: bs) =
    match copyout pt km dst [b] with
    | (false, km) => (false, km)
    | (true, km) => copyout pt km ((dst + 1) % 2 ^ 64) bs := by
  rw [copyout, copyout]
  cases walkaddr pt dst <;> rfl

theorem pipereadLoop_snd (n : Nat) (data : List UInt8) (km : Kmem) (addr i : Nat) :
    (pipereadLoop pt n data km addr i).2 = (copyout pt km addr (data.take n)).2 := by
  induction n generalizing data km addr i with
  | zero => rfl
  | succ n ih =>
    cases data with
    | nil => rfl
    | cons ch data =>
      rw [List.take_succ_cons, copyout_cons, pipereadLoop]
      obtain ⟨_ | _, km₁⟩ := copyout pt km addr [ch]
      · rfl
      · exact ih data km₁ _ _

theorem answered_count {α : Type} (i : Nat) (x : α) : answered ((i : Int), x) = (true, x) :=
  congrArg (fun b => (b, x)) (decide_eq_true (by omega : (i : Int) ≠ -1))

theorem consolereadLoop_answered (n : Nat) (input : List UInt8) (km : Kmem) (dst i : Nat) :
    answered (consolereadLoop pt n input km dst i) =
      (!((copyout pt km dst (consoleBytes n input)).1 && consoleShort n input),
        (copyout pt km dst (consoleBytes n input)).2) := by
  induction n generalizing input km dst i with
  | zero => exact answered_count i km
  | succ n ih =>
    cases input with
    | nil => rfl
    | cons c input =>
      rw [consolereadLoop, consoleBytes, consoleShort]
      by_cases heof : c = Console.ctrlD
      · rw [if_pos heof, if_pos heof, if_pos heof]
        exact answered_count i km
      · rw [if_neg heof, if_neg heof, if_neg heof]
        by_cases hnl : c = newline
        · rw [if_pos hnl, if_pos hnl, Bool.and_false]
          obtain ⟨_ | _, km₁⟩ := copyout pt km dst [c]
          · exact answered_count i km₁
          · exact (congrArg answered (if_pos hnl)).trans (answered_count (i + 1) km₁)
        · rw [if_neg hnl, if_neg hnl, copyout_cons km dst c (consoleBytes n input)]
          obtain ⟨_ | _, km₁⟩ := copyout pt km dst [c]
          · exact answered_count i km₁
          · exact (congrArg answered (if_neg hnl)).trans (ih input km₁ _ _)

/-- How far a copy comes, counted by the addresses that `walkaddr` finds. -/
theorem reached_copied {va : Nat} (hva : va < 2 ^ 64) (len : Nat) :
    Reached pt va len (Fs.copied (fun j => (walkaddr pt ((va + j) % 2 ^ 64)).isSome) 0 len) := by
  induction len generalizing va with
  | zero => exact .nil
  | succ len ih =>
    rw [Fs.copied, show (va + 0) % 2 ^ 64 = va from Nat.mod_eq_of_lt hva]
    cases hp : walkaddr pt va with
    | none => exact .bad (not_userPage hp)
    | some p =>
      have hlt := walkaddr_lt hp
      have hnext := @ih (va + 1) (by simp only [MAXVA] at hlt; omega)
      rw [Fs.copied_shift]
      simp only [← Nat.add_assoc, Nat.add_right_comm va _ 1]
      exact hnext.succ (userPage_of_walkaddr hp)

/-- A copy of bytes for which there is room. -/
theorem copyout_bytes (hd : DistinctPages pt) {dst len : Nat} (hdst : dst < 2 ^ 64)
    {bs : List UInt8} (h : Reached pt dst len bs.length) (a : Nat) :
    loadByte (copyout pt km dst bs).2 pt a = if dst ≤ a ∧ a < dst + bs.length then bs[a - dst]?
    else loadByte km pt a := by
  obtain ⟨k, hreach, -, hbytes⟩ := copyout_reached hd hdst bs km
  obtain rfl : k = bs.length := hreach.all_iff.mpr h.good
  exact hbytes a

/-! ## One call after the other -/

variable {sb : Fs.Superblock} {sys : Sys} {p : Proc} {addr : Nat}

theorem fileread_stored {f : Nat} {n : Int} {input : List UInt8} {killed : Bool}
    (hd : DistinctPages pt) (haddr : addr < 2 ^ 64) : Post (fun _ => True)
      (fun r => ∃ k, Stored pt sys.km (filereadStore sb sys f addr n input killed)
        (answered r).1 r.2.km k)
      (fileread sb sys pt f addr n input killed) := by
  unfold fileread filereadStore
  by_cases hread : (sys.file f).readable = false
  · rw [if_pos hread, if_pos hread]
    exact .ok ⟨0, stored_nothing rfl⟩
  · rw [if_neg hread, if_neg hread]
    cases htype : (sys.file f).type with
    | none => exact .error trivial
    | pipe =>
      dsimp only
      unfold piperead
      by_cases hkilled : (input.isEmpty && killed) = true
      · rw [if_pos hkilled, if_pos hkilled]
        exact .ok ⟨0, stored_nothing rfl⟩
      · rw [if_neg hkilled, if_neg hkilled]
        have hstored := stored_copyout hd sys.km haddr (input.take n.toNat) fun _ => true
        rw [← pipereadLoop_snd n.toNat input sys.km addr 0] at hstored
        refine .ok ?_
        rw [answered_count]
        exact hstored
    | device =>
      dsimp only
      by_cases hmajor : (sys.file f).major = CONSOLE
      · rw [if_pos hmajor, if_pos hmajor]
        obtain ⟨hok, hkm⟩ := Prod.ext_iff.mp
          (@consolereadLoop_answered pt n.toNat input sys.km addr 0)
        have hstored := stored_copyout hd sys.km haddr (consoleBytes n.toNat input) fun ok =>
          !(ok && consoleShort n.toNat input)
        dsimp only at hok hkm
        rw [← hok, ← hkm] at hstored
        exact .ok hstored
      · rw [if_neg hmajor, if_neg hmajor]
        exact .ok ⟨0, stored_nothing rfl⟩
    | inode =>
      dsimp only
      unfold filereadInode
      cases hip : (sys.file f).ip with
      | none => exact .error trivial
      | some k =>
        refine ilock_same.bind ?_
        rintro ⟨k', sys₁⟩ ⟨rfl, hkm, hfile, hdinode, hdisk, -⟩
        dsimp only at hkm hfile hdinode hdisk ⊢
        rw [hfile, hdinode, hdisk, hkm]
        cases hreadi : Fs.readi sb sys.disk (sys.dinode sb k')
            (fun j => (walkaddr pt ((addr + j) % 2 ^ 64)).isSome)
              (sys.file f).off (n % 2 ^ 32).toNat with
        | error e => exact .error trivial
        | ok r =>
          obtain ⟨r, bs, ip, disk⟩ := r
          obtain ⟨hlen, hr, hbytes⟩ := Fs.readi_delivers hreadi
          dsimp only [Except.mapError]
          rw [ok_bind]
          dsimp only
          have hreach : Reached pt addr
              (Fs.readLen (sys.dinode sb k') (sys.file f).off (n % 2 ^ 32).toNat) bs.length := by
            rw [hlen]
            exact reached_copied haddr _
          have hstored : ∀ ok, (0 < bs.length → ok = decide (bs.length =
              Fs.readLen (sys.dinode sb k') (sys.file f).off (n % 2 ^ 32).toNat)) →
              Stored pt sys.km ⟨addr, Fs.readLen (sys.dinode sb k')
                (sys.file f).off (n % 2 ^ 32).toNat,
                Fs.readByte sb sys.disk (sys.dinode sb k') (sys.file f).off (n % 2 ^ 32).toNat, id⟩
                ok (copyout pt sys.km addr bs).2 bs.length := by
            intro ok hok
            refine ⟨hreach, fun a => ?_, hok⟩
            rw [copyout_bytes hd haddr hreach]
            split
            · exact hbytes _ (by omega)
            · rfl
          have hanswer : ∀ sys', (answered (r, sys') : Bool × Sys).1 = decide (bs.length =
              Fs.readLen (sys.dinode sb k') (sys.file f).off (n % 2 ^ 32).toNat) := by
            intro sys'
            refine decide_eq_decide.mpr ?_
            rw [hr]
            split <;> omega
          exact Post.ite (fun _ => Post.pure ⟨_, hstored _ fun _ => hanswer _⟩)
            fun _ => Post.pure ⟨_, hstored _ fun _ => hanswer _⟩

theorem filestat_stored {f pad : Nat} (hd : DistinctPages pt) (haddr : addr < 2 ^ 64) :
    Post (fun _ => True)
    (fun r => ∃ k, Stored pt sys.km (filestatStore sb sys f addr pad) r.1 r.2.km k)
    (filestat sb sys pt f addr pad) := by
  unfold filestat filestatStore
  cases (sys.file f).ip with
  | none =>
    cases (sys.file f).type with
    | none | pipe => exact .ok ⟨0, stored_nothing rfl⟩
    | inode | device => exact .error trivial
  | some k =>
    cases (sys.file f).type with
    | none | pipe => exact .ok ⟨0, stored_nothing rfl⟩
    | inode | device =>
      refine ilock_same.bind ?_
      rintro ⟨k', sys₁⟩ ⟨rfl, hkm, -, hdinode, -, hinum⟩
      dsimp only at hkm hdinode hinum ⊢
      rw [hkm, hdinode, hinum]
      exact .pure (stored_copyout hd sys.km haddr _ _)

theorem pipeFinish_stored {rf wf : Nat} (hd : DistinctPages p.pagetable) (haddr : addr < 2 ^ 64) :
    Post (fun _ => True)
    (fun r => ∃ k, Stored p.pagetable sys.km (pipeStore p rf wf addr) r.1 r.2.1.km k)
    (pipeFinish sb sys p rf wf addr) := by
  have hclose : ∀ (st : Store) (sys₁ : Sys) (p' : Proc) (k : Nat),
      Stored p.pagetable sys.km st false sys₁.km k →
      Post (fun _ => True) (fun r => ∃ k, Stored p.pagetable sys.km st r.1 r.2.1.km k) (do
        let sys ← fileclose sb sys₁ rf
        let sys ← fileclose sb sys wf
        return (false, sys, p') : Except Panic (Bool × Sys × Proc)) := by
    intro st sys₁ p' k h
    refine fileclose_mem.bind fun sys₂ h₂ => fileclose_mem.bind fun sys₃ h₃ => Post.pure ⟨k, ?_⟩
    exact h.congr (h₃.trans h₂)
  unfold pipeFinish pipeStore
  dsimp only
  obtain _ | ⟨fd0, p0⟩ := fdalloc { p with held := .nothing } rf
  · exact hclose _ _ _ 0 (stored_nothing rfl)
  · dsimp only
    obtain _ | ⟨fd1, p1⟩ := fdalloc p0 wf
    · exact hclose _ _ _ 0 (stored_nothing rfl)
    · obtain ⟨k, hstored⟩ := stored_copyout hd sys.km haddr (bytes32 fd0 ++ bytes32 fd1) id
      dsimp only
      generalize copyout p.pagetable sys.km addr (bytes32 fd0 ++ bytes32 fd1) = r at hstored
      obtain ⟨_ | _, km⟩ := r
      · exact hclose _ _ _ k hstored
      · exact .pure ⟨k, hstored⟩

theorem waitProc_stored {s : State} {n q : Nat} (hd : DistinctPages (s.proc n).pagetable)
    (haddr : addr < 2 ^ 64) :
    Post (fun _ => True) (fun r => ∃ k, Stored (s.proc n).pagetable s.sys.km
      (if addr = 0 then .nothing else .ofBytes addr (bytes32 (s.proc q).xstate) id) r.1 r.2.sys.km
      k) (s.waitProc n q addr) := by
  unfold State.waitProc
  dsimp only
  by_cases hzero : addr = 0
  · rw [if_pos hzero, if_pos hzero]
    exact (freeproc_mem _).bind fun r hr => Post.pure ⟨0, stored_nothing hr⟩
  · rw [if_neg hzero, if_neg hzero]
    obtain ⟨k, hstored⟩ := stored_copyout hd s.sys.km haddr (bytes32 (s.proc q).xstate) id
    generalize copyout (s.proc n).pagetable s.sys.km addr (bytes32 (s.proc q).xstate) = r at hstored
    obtain ⟨_ | _, km⟩ := r
    · exact .ok ⟨k, hstored⟩
    · exact (freeproc_mem _).bind fun r hr => Post.pure ⟨k, hstored.congr hr⟩

end

/-- A call that stores into user memory and returns has respected read-only pages exactly if the
bytes of such pages that it came to, if any, had the values that it stored, and it failed later: the
kernel does not look at `PTE_W`. -/
theorem stores_respect_read_only (sb : Fs.Superblock) (s : State) (n : Nat) (c : StoreCall)
    (ok : Bool) (s' : State) (hd : DistinctPages (s.proc n).pagetable)
    (hrun : c.run sb s n = .ok (ok, s')) :
    RespectsReadOnly (s.proc n).pagetable s.sys.km (c.store sb s n) ok s'.sys.km ↔
      Harmless (s.proc n).pagetable s.sys.km (c.store sb s n) := by
  have hlt : ∀ r, argaddr r < 2 ^ 64 := fun r => Nat.mod_lt _ (by decide)
  have hstored : Post (fun _ => True)
      (fun r => ∃ k, Stored (s.proc n).pagetable s.sys.km (c.store sb s n) r.1 r.2.sys.km k)
      (c.run sb s n) := by
    cases c with
    | read fd addr cnt input killed =>
      unfold StoreCall.run StoreCall.store
      dsimp only
      obtain _ | ⟨fd', f⟩ := argfd (s.proc n) fd
      · exact .ok ⟨0, stored_nothing rfl⟩
      · exact (fileread_stored hd (hlt _)).bind fun r hr => Post.pure hr
    | fstat fd st pad =>
      unfold StoreCall.run StoreCall.store
      dsimp only
      obtain _ | ⟨fd', f⟩ := argfd (s.proc n) fd
      · exact .ok ⟨0, stored_nothing rfl⟩
      · exact (filestat_stored hd (hlt _)).bind fun r hr => Post.pure hr
    | pipe rf wf fdarray => exact (pipeFinish_stored hd (hlt _)).bind fun r hr => Post.pure hr
    | wait q addr => exact waitProc_stored hd (hlt _)
  obtain ⟨k, hk⟩ := hstored.of_ok hrun
  exact hk.respects_iff

/-- The first process maps two pages of a file that it may only read, and loads from the second. -/
def mapAndLoad : List Action := twoPages ++ [.access 0 8193 none]

/-- `fstat` then stores into that page. -/
theorem fstat_changes_read_only_page : ∃ s s' s'', Booted Fs.tinySb s ∧
    Lib.exec (step Fs.tinySb) s mapAndLoad = .next s' ∧ ReadOnlyPage (s'.proc 0).pagetable
    (8193 / PGSIZE) ∧ (StoreCall.fstat 0 8193 0).run Fs.tinySb s' 0 = .ok (true, s'') ∧
    loadByte s'.sys.km (s'.proc 0).pagetable 8193 = some 0 ∧
    loadByte s''.sys.km (s'.proc 0).pagetable 8193 = some 1 ∧
    ¬ RespectsReadOnly (s'.proc 0).pagetable s'.sys.km
    ((StoreCall.fstat 0 8193 0).store Fs.tinySb s' 0)
      true s''.sys.km := by
  have hrun : (tinyBoot.bind fun s => (Lib.exec (step Fs.tinySb) s mapAndLoad).next?.bind fun s' =>
      ((StoreCall.fstat 0 8193 0).run Fs.tinySb s' 0).toOption.map fun r =>
        ((((s'.proc 0).pagetable.leaf (8193 / PGSIZE)).map fun pte => (pte.perm.u, pte.perm.w)),
          r.1,
          loadByte s'.sys.km (s'.proc 0).pagetable 8193,
          loadByte r.2.sys.km (s'.proc 0).pagetable 8193)) =
          some (some (true, false), true, some 0, some 1) := by
    decide +kernel
  obtain ⟨s, hs, hbind⟩ := Option.bind_eq_some_iff.mp hrun
  obtain ⟨s', hs', hmap⟩ := Option.bind_eq_some_iff.mp hbind
  obtain ⟨⟨ok, s''⟩, hfstat, heq⟩ := Option.map_eq_some_iff.mp hmap
  simp only [Prod.mk.injEq] at heq
  obtain ⟨hleaf, rfl, hbefore, hafter⟩ := heq
  obtain ⟨pte, hpte, hperm⟩ := Option.map_eq_some_iff.mp hleaf
  have hro : ReadOnlyPage (s'.proc 0).pagetable (8193 / PGSIZE) :=
    ⟨pte, hpte, congrArg Prod.fst hperm, congrArg Prod.snd hperm⟩
  refine ⟨s, s', s'', tinyBoot_booted hs, Outcome.next?_eq_some.mp hs', hro,
    eq_ok_of_toOption hfstat, hbefore, hafter, fun hr => ?_⟩
  have := hr.contents 8193 hro
  rw [hbefore, hafter] at this
  exact absurd this (by decide)

/-- A writable page, and above it a page that may only be read. -/
def readOnlyAbove : PageTable :=
  lowTable (((Node.empty 3).set 0 (some ⟨7, ⟨true, true, false, true⟩⟩)).set 1
    (some ⟨8, ⟨true, false, false, true⟩⟩))

theorem readOnlyAbove_leaf {v : Nat} {pte : Pte} (h : readOnlyAbove.leaf v = some pte) :
    v = 0 ∧ pte = ⟨7, ⟨true, true, false, true⟩⟩ ∨ v = 1 ∧
    pte = ⟨8, ⟨true, false, false, true⟩⟩ := by
  have hentry := lowTable_leaf h
  rw [Node.entry_set, Node.entry_set] at hentry
  split_ifs at hentry with h1 h0
  · exact .inr ⟨h1, (Option.some.inj hentry).symm⟩
  · exact .inl ⟨h0, (Option.some.inj hentry).symm⟩
  · cases hentry

theorem readOnlyAbove_distinct : DistinctPages readOnlyAbove := by
  intro v w pte pte' hv _ hw _ hpage
  rcases readOnlyAbove_leaf hv with ⟨rfl, rfl⟩ | ⟨rfl, rfl⟩ <;> rcases readOnlyAbove_leaf hw with
    ⟨rfl, rfl⟩ | ⟨rfl, rfl⟩ <;> first | rfl | cases hpage

/-- A process with these pages and the console open. -/
def reader : State :=
  ⟨{ Sys.start ⟨[], fun _ => Bytes.zero⟩ (Fs.Disk.ofImage Fs.tinyImage) with
      file := fun _ => ⟨.device, 1, true, true, 0, none, 0, CONSOLE, 0⟩ },
    fun _ => { Proc.zero with pagetable := readOnlyAbove, ofile := fun _ => some 0 }⟩

/-- It reads a line to the end of its writable page. -/
def readLine : StoreCall := .read 0 4093 3 [104, 105, 10] false

theorem stores_respect_read_only_reader : ReadOnlyPage readOnlyAbove 1 ∧
    ∃ s', readLine.run Fs.tinySb reader 0 = .ok (true, s') ∧ loadByte s'.sys.km readOnlyAbove 4095 =
    some 10 ∧
      RespectsReadOnly readOnlyAbove reader.sys.km (readLine.store Fs.tinySb reader 0) true
      s'.sys.km := by
  refine ⟨⟨⟨8, ⟨true, false, false, true⟩⟩, by decide +kernel, rfl, rfl⟩, ?_⟩
  have hrun : (readLine.run Fs.tinySb reader 0).toOption.map
      (fun r => (r.1, loadByte r.2.sys.km readOnlyAbove 4095)) = some (true, some 10) := by
    decide +kernel
  obtain ⟨⟨ok, s'⟩, hread, heq⟩ := Option.map_eq_some_iff.mp hrun
  simp only [Prod.mk.injEq] at heq
  obtain ⟨rfl, hbyte⟩ := heq
  have hok : readLine.run Fs.tinySb reader 0 = .ok (true, s') := eq_ok_of_toOption hread
  refine ⟨s', hok, hbyte, (stores_respect_read_only Fs.tinySb reader 0 _ true s'
    readOnlyAbove_distinct hok).mpr ?_⟩
  rintro k j hreach hj ⟨pte, hleaf, -, hw⟩
  have hdst : (readLine.store Fs.tinySb reader 0).dst = 4093 := by decide +kernel
  have hlen : (readLine.store Fs.tinySb reader 0).len = 3 := by decide +kernel
  have hle := hreach.le
  rcases readOnlyAbove_leaf hleaf with ⟨-, rfl⟩ | ⟨hv, -⟩
  · cases hw
  · simp only [PGSIZE] at hv
    omega

end Xv6.Kernel
