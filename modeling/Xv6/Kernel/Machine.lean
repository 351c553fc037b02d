import Xv6.Fs.Machine
import Xv6.Kernel.Syscall

/-! # The kernel as a machine

Processes take turns in system calls, loads and stores. One action is one system
call, one access to user memory with the page fault it may cause, or one call on the
inode layer by other file-system calls. `sys_open` and `sys_pipe` are two actions
each, since between them the call holds files that are in no table.
-/

namespace Xv6.Kernel

open Function Lib Vm

structure State where
  sys : Sys
  proc : Nat → Proc

def State.setProc (s : State) (n : Nat) (p : Proc) : State :=
  { s with proc := update s.proc n p }

/-! ## The step function -/

/-- Arguments that are registers are taken as they are; `inum` is the inode that
`namei` or `create` returned for a path. -/
inductive Action where
  | mmap (n len prot flags fd offset : Nat)
  | munmap (n addr len : Nat)
  | sbrk (n incr : Nat)
  /-- a load, or a store of a byte -/
  | access (n va : Nat) (store : Option UInt8)
  | fork (n : Nat)
  | exit (n status : Nat)
  | wait (n addr : Nat)
  | exec (n inum : Nat) (argv : List (List UInt8))
  | openAlloc (n inum : Nat) (omode : BitVec 32)
  | openFinish (n : Nat)
  | pipeAlloc (n : Nat)
  | pipeFinish (n fdarray : Nat)
  | dup (n fd : Nat)
  | close (n fd : Nat)
  | read (n fd addr len : Nat)
  | write (n fd addr len : Nat)
  | chdir (n inum : Nat)
  /-- a call on the inode layer by any other file-system call -/
  | fs (c : Fs.Call)

namespace State

variable (sb : Fs.Superblock)

def initproc : Nat := 0

/-- `reparent`: the children of `n` become children of `initproc`. -/
def reparent (n : Nat) (proc : Nat → Proc) : Nat → Proc := fun q =>
  if (proc q).parent = some n then { proc q with parent := some initproc } else proc q

def exitProc (sys : Sys) (s : State) (n : Nat) (p : Proc) (status : Nat) : Except Panic State := do
  if n = initproc then throw .initExiting
  else
    let (sys, p) ← exit sb sys p status
    return { sys := sys, proc := update (reparent n s.proc) n p }

/-- A load or a store, with the page fault it may cause. -/
def accessProc (s : State) (n va : Nat) (store : Option UInt8) : Except Panic State := do
  let p := s.proc n
  if permits p.pagetable va store.isSome then
    match store, p.pagetable.leaf (va / PGSIZE) with
    | some b, some pte =>
      return { s with sys := { s.sys with km := s.sys.km.store pte.page (va % PGSIZE) b } }
    | _, _ => return s
  else
    let (killed, sys, p) ← pageFault sb s.sys p va
    if killed then exitProc sb sys s n p (2 ^ 32 - 1)
    else return { s with sys := sys }.setProc n p

/-- The slot that `allocproc` takes. -/
def freeSlot (s : State) : Option Nat :=
  (List.range NPROC).find? fun q => (s.proc q).state = .unused

def forkProc (s : State) (n : Nat) : Except Panic State :=
  match s.freeSlot with
  | none => .ok s
  | some q => do
    let (_, sys, np) ← Kernel.fork s.sys n (s.proc n) (s.proc q)
    return { s with sys := sys }.setProc q np

/-- The child that `wait` finds. -/
def zombieChild (s : State) (n : Nat) : Option Nat :=
  (List.range NPROC).find? fun q => (s.proc q).parent = some n ∧ (s.proc q).state = .zombie

def hasChild (s : State) (n : Nat) : Bool :=
  (List.range NPROC).any fun q => (s.proc q).parent = some n

/-- `wait` on the zombie child `q`; false is the result -1. -/
def waitProc (s : State) (n q addr : Nat) : Except Panic (Bool × State) :=
  let reap (km : Kmem) : Except Panic (Bool × State) := do
    let (km, np) ← freeproc km (s.proc q)
    return (true, { s with sys := { s.sys with km := km } }.setProc q np)
  if addr = 0 then reap s.sys.km
  else
    match copyout (s.proc n).pagetable s.sys.km addr (bytes32 (s.proc q).xstate) with
    | (false, km) => .ok (false, { s with sys := { s.sys with km := km } })
    | (true, km) => reap km

/-- A call of process `n` on the shared objects and its own state. -/
def call (s : State) (n : Nat) (f : Sys → Proc → Except Panic (Sys × Proc)) : Except Panic State :=
  do
  let (sys, p) ← f s.sys (s.proc n)
  return { s with sys := sys }.setProc n p

def inUse (s : State) (i : Nat) : Bool :=
  (List.range NINODE).any fun k => 0 < (s.sys.inode k).ref ∧ (s.sys.inode k).inum = i

/-- What `namei` can return, and `create` when `omode` has `O_CREATE`. -/
def Named (s : State) (inum : Nat) (create : Bool) : Prop :=
  (s.sys.disk.view sb).Allocated sb inum ∧
    (create = true → ((s.sys.disk.view sb).inode inum).type ∈ [T_FILE, T_DEVICE])

instance (s : State) (inum : Nat) (create : Bool) : Decidable (s.Named sb inum create) :=
  inferInstanceAs (Decidable (_ ∧ _))

end State

/-- The process that takes an action, and whether it is the end of a call. -/
def Action.actor : Action → Option (Nat × Bool)
  | .mmap n .. | .munmap n .. | .sbrk n _ | .access n .. | .fork n | .exit n _ | .wait n _
  | .exec n .. | .openAlloc n .. | .pipeAlloc n | .dup n _ | .close n _ | .read n .. | .write n ..
  | .chdir n _ => some (n, false)
  | .openFinish n | .pipeFinish n _ => some (n, true)
  | .fs _ => none

def ofExcept {α : Type} : Except Panic α → Outcome Panic α
  | .ok a => .next a
  | .error f => .fault f

/-- The effect of an action whose process can take it. -/
def effect (sb : Fs.Superblock) (s : State) : Action → Outcome Panic State
  | .mmap n len prot flags fd offset => ofExcept (s.call n fun sys p => do
    let (_, sys, p) ← sysMmap sys p len prot flags fd offset
    return (sys, p))
  | .munmap n addr len => ofExcept (s.call n fun sys p => sysMunmap sb sys p addr len)
  | .sbrk n incr => ofExcept (s.call n fun sys p => do
    let (_, km, p) ← growproc sys.km p (argint incr)
    return ({ sys with km := km }, p))
  | .access n va store => ofExcept (s.accessProc sb n (argaddr va) store)
  | .fork n => ofExcept (s.forkProc n)
  | .exit n status => ofExcept (s.exitProc sb s.sys n (s.proc n) (status % 2 ^ 32))
  | .wait n addr =>
    match s.zombieChild n with
    | some q => ofExcept ((s.waitProc n q (argaddr addr)).map Prod.snd)
    | none => if s.hasChild n then .blocked else .next s
  | .exec n inum argv =>
    if s.Named sb inum false then
      ofExcept (s.call n fun sys p => do
        let (k, sys) ← iget sys inum
        let (_, sys, p) ← Kernel.exec sb sys p k argv
        return (sys, p))
    else .blocked
  | .openAlloc n inum omode =>
    if s.Named sb inum (omode.getLsbD 9) then
      ofExcept (s.call n fun sys p => openAlloc sb sys p inum omode)
    else .blocked
  | .openFinish n =>
    match (s.proc n).held with
    | .opening f k omode => ofExcept (s.call n fun sys p => openFinish sb sys p f k omode)
    | _ => .blocked
  | .pipeAlloc n => ofExcept (s.call n (pipeAlloc sb))
  | .pipeFinish n fdarray =>
    match (s.proc n).held with
    | .piping rf wf =>
      ofExcept (s.call n fun sys p => (pipeFinish sb sys p rf wf (argaddr fdarray)).map Prod.snd)
    | _ => .blocked
  | .dup n fd => ofExcept (s.call n fun sys p => sysDup sys p fd)
  | .close n fd => ofExcept (s.call n fun sys p => sysClose sb sys p fd)
  | .read n fd addr len =>
    ofExcept (s.call n fun sys p => return (← sysRead sb sys p fd addr len, p))
  | .write n fd addr len =>
    ofExcept (s.call n fun sys p => return (← sysWrite sb sys p fd addr len, p))
  | .chdir n inum =>
    if s.Named sb inum false then ofExcept (s.call n fun sys p => sysChdir sb sys p inum)
    else .blocked
  | .fs c =>
    -- `iput` frees an inode only with its last reference
    if c.freed.any s.inUse then .blocked else fsCall c
where
  fsCall (c : Fs.Call) : Outcome Panic State :=
    match Fs.call sb s.sys.disk c with
    | .next disk => .next { s with sys := { s.sys with disk := disk } }
    -- paths only lead to allocated inodes
    | .fault .ilockNoType => .blocked
    | .fault f => .fault (.fs f)
    | .blocked => .blocked

/-- A process acts when it is live and not in the middle of a call, unless the action
is the rest of that call. -/
def step (sb : Fs.Superblock) (s : State) (a : Action) : Outcome Panic State :=
  match a.actor with
  | none => effect sb s a
  | some (n, finish) =>
    if n < NPROC ∧ (s.proc n).state = .runnable ∧ (finish = true ∨ (s.proc n).held = .nothing) then
      effect sb s a
    else .blocked

/-! ## The first process -/

def Vma.zero : Vma := ⟨false, 0, 0, 0, 0, 0, 0⟩

/-- An entry of the process table before its first use. -/
def Proc.zero : Proc where
  state := .unused
  parent := none
  xstate := 0
  sz := 0
  pagetable := Node.empty 0
  trapframe := 0
  sp := 0
  ofile := fun _ => none
  cwd := none
  vma := fun _ => .zero
  held := .nothing
  own := fun _ => false

def Sys.start (km : Kmem) (disk : Fs.Disk) : Sys where
  km := km
  file := fun _ => ⟨.none, 0, false, false, 0, none, 0, 0, 0⟩
  inode := fun _ => ⟨0, 0, false⟩
  disk := disk
  pipe := fun _ => ⟨false, false⟩
  serials := 0
  opened := []
  closed := []

/-- `userinit`: the first process, with one page of memory. -/
def userinit (km : Kmem) (disk : Fs.Disk) : Except Panic (Option State) := do
  match ← allocproc km .zero with
  | (none, _) => return none
  | (some p, km) =>
    match kalloc km with
    | none => return none
    | some (mem, km) =>
      match ← (mappages (km.clear mem) p.pagetable 0 PGSIZE mem .user).mapError .vm with
      | (false, _, _) => return none
      | (true, km, pt) =>
        let (k, sys) ← iget (Sys.start km disk) ROOTINO
        let p := { p with
          pagetable := pt
          sz := PGSIZE
          sp := PGSIZE
          cwd := some k
          own := fun v => decide (v = 0)
          state := .runnable }
        return some ⟨sys, update (fun _ => .zero) State.initproc p⟩

/-- The kernel has booted on a disk on which the block-allocation invariant holds. -/
def Booted (sb : Fs.Superblock) (s : State) : Prop :=
  ∃ km img, Fs.AllocInv sb ((Fs.Disk.ofImage img).view sb) ∧
    ((Fs.Disk.ofImage img).view sb).Allocated sb ROOTINO ∧
    userinit km (Fs.Disk.ofImage img) = .ok (some s)

/-! ## A small machine -/

/-- Forty free pages. -/
def tinyKm : Kmem := ⟨(List.range 40).map (· + 1), fun _ => Bytes.zero⟩

/-- The kernel booted on `Fs.tinyImage`. -/
def tinyBoot : Option State :=
  match userinit tinyKm (Fs.Disk.ofImage Fs.tinyImage) with
  | .ok o => o
  | .error _ => none

theorem tinyBoot_booted {s : State} (h : tinyBoot = some s) : Booted Fs.tinySb s := by
  refine ⟨tinyKm, Fs.tinyImage, Fs.tiny_allocInv, ?_, ?_⟩
  · rw [Fs.tiny_view]
    exact ⟨by decide, by decide⟩
  · unfold tinyBoot at h
    split at h
    · rename_i o ho
      rw [ho, h]
    · cases h

/-- The first process maps two pages of a file at 4096. -/
def twoPages : List Action := [.openAlloc 0 1 0, .openFinish 0, .mmap 0 8192 1 2 0 0]

end Xv6.Kernel
