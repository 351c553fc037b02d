import Xv6.Kernel.File

/-! # Processes and their memory

`struct proc` and the calls of `proc.c`, `sysfile.c` and `trap.c` that change a
process's memory, its mapped regions and its open files. Arguments of system calls
are the values of the registers, converted as `argint` and `argaddr` do.
-/

namespace Xv6.Kernel

open Lib Vm

/-! ## Integer conversions -/

def argint (r : Nat) : Int := int32 r

/-- `argint` for an argument of which only bits are used. -/
def argbits (r : Nat) : BitVec 32 := BitVec.ofNat 32 r

def argaddr (r : Nat) : Nat := r % 2 ^ 64

def pgRoundUpInt (len : Int) : Int :=
  let w := int32 (len + PGSIZE - 1)
  w - w % PGSIZE

/-! ## Processes -/

def VMASIZE : Nat := 16

/-- `struct vma`, without `fd`, which no code sets. -/
structure Vma where
  valid : Bool
  addr : Nat
  len : Int
  f : Nat
  prot : BitVec 32
  flags : BitVec 32
  offset : Int

/-- A call that holds files which are not yet in `ofile`. -/
inductive Held where
  | nothing
  /-- `sys_open` after `filealloc`: the file, the locked inode and the mode -/
  | opening (f k : Nat) (omode : BitVec 32)
  /-- `sys_pipe` after `pipealloc` -/
  | piping (rf wf : Nat)
deriving DecidableEq

/-- `struct proc`. A process that sleeps or runs is `RUNNABLE` here. `sp` is `trapframe->sp`. `own`
marks the virtual pages that hold the program image, the stack and the `sbrk` heap; no code reads
it. -/
structure Proc where
  state : ProcState
  parent : Option Nat
  xstate : Nat
  sz : Nat
  pagetable : PageTable
  trapframe : Nat
  sp : Nat
  ofile : Nat → Option Nat
  cwd : Option Nat
  vma : Nat → Vma
  held : Held
  own : Nat → Bool

namespace Proc

def setVma (p : Proc) (i : Nat) (m : Vma) : Proc := { p with vma := Function.update p.vma i m }

def setOfile (p : Proc) (fd : Nat) (f : Option Nat) : Proc :=
  { p with ofile := Function.update p.ofile fd f }

end Proc

def argfd (p : Proc) (r : Nat) : Option (Nat × Nat) :=
  let fd := argint r
  if fd < 0 ∨ fd ≥ NOFILE then none
  else (p.ofile fd.toNat).map fun f => (fd.toNat, f)

def fdalloc (p : Proc) (f : Nat) : Option (Nat × Proc) :=
  match (List.range NOFILE).find? fun fd => (p.ofile fd).isNone with
  | some fd => some (fd, p.setOfile fd (some f))
  | none => none

/-! ## `mmap` and `munmap` -/

def PROT_READ (prot : BitVec 32) : Bool := prot.getLsbD 0
def PROT_WRITE (prot : BitVec 32) : Bool := prot.getLsbD 1
def PROT_EXEC (prot : BitVec 32) : Bool := prot.getLsbD 2

def Vma.shared (m : Vma) : Bool := m.flags.getLsbD 0

def Vma.contains (m : Vma) (va : Nat) : Bool := m.addr ≤ va && va < u64 (m.addr + m.len)

def sysMmap (sys : Sys) (p : Proc) (len prot flags fd offset : Nat) :
    Except Panic (Option Nat × Sys × Proc) :=
  match argfd p fd with
  | none => .ok (none, sys, p)
  | some (_, f) =>
    if !(sys.file f).writable && PROT_WRITE (argbits prot) && argbits flags == 1#32 then
      .ok (none, sys, p)
    else
      let len := pgRoundUpInt (argint len)
      if p.sz > u64 (MAXVA - len) then .ok (none, sys, p)
      else
        match (List.range VMASIZE).find? fun i => !(p.vma i).valid with
        | none => .ok (none, sys, p)
        | some i => do
          let sys ← filedup sys f
          let m : Vma :=
            { valid := true
              addr := p.sz
              len := len
              f := f
              prot := argbits prot
              flags := argbits flags
              offset := argint offset }
          return (some p.sz, sys, { p.setVma i m with sz := u64 (p.sz + len) })

def munmapSlot (p : Proc) (addr : Nat) : Option Nat :=
  (List.range VMASIZE).find? fun i => (p.vma i).contains addr

/-- A slot after `munmap` of its first `len` bytes. -/
def Vma.trim (m : Vma) (len : Int) : Vma :=
  { m with addr := u64 (m.addr + len), len := int32 (m.len - len) }

/-- The write-back of a region that is removed, by `munmap` and by `exit`. -/
def writeback (sb : Fs.Superblock) (pt : PageTable) (sys : Sys) (m : Vma) (addr : Nat) (n : Int) :
    Except Panic Sys :=
  if m.shared then filewrite sb pt sys m.f addr n else .ok sys

/-- `sys_munmap`, whose result is always 0. -/
def sysMunmap (sb : Fs.Superblock) (sys : Sys) (p : Proc) (addr len : Nat) :
    Except Panic (Sys × Proc) := do
  let addr := PGROUNDDOWN (argaddr addr)
  let len := pgRoundUpInt (argint len)
  match munmapSlot p addr with
  | none => return (sys, p)
  | some i =>
    let m := p.vma i
    if m.addr = addr then
      let sys ← writeback sb p.pagetable sys m addr len
      let (km, pt) ←
        (uvmunmap sys.km p.pagetable addr (u64 (len.tdiv PGSIZE)) true).mapError .vm
      let sys := { sys with km := km }
      let p := { p with pagetable := pt }
      if (m.trim len).len = (0 : Int) then
        let sys ← fileclose sb sys m.f
        return (sys, p.setVma i { m.trim len with valid := false })
      else return (sys, p.setVma i (m.trim len))
    else return (sys, p)

/-! ## `sbrk` -/

/-- `growproc`, whose local `sz` is a `uint`; false is the result -1. -/
def growproc (km : Kmem) (p : Proc) (n : Int) : Except Panic (Bool × Kmem × Proc) := do
  let sz := p.sz % 2 ^ 32
  let newsz := ((sz + n) % 2 ^ 32).toNat
  if n > 0 then
    let (r, km, pt) ← (uvmalloc km p.pagetable sz newsz).mapError .vm
    if r = 0 then return (false, km, { p with pagetable := pt })
    else
      let own := fun v => p.own v || decide (sz < r ∧ sz / PGSIZE ≤ v ∧ v * PGSIZE < r)
      return (true, km, { p with pagetable := pt, sz := r, own := own })
  else if n < 0 then
    let (r, km, pt) ← (uvmdealloc km p.pagetable sz newsz).mapError .vm
    return (true, km, { p with
      pagetable := pt, sz := r, own := fun v => p.own v && v * PGSIZE < r })
  else return (true, km, { p with sz := sz })

end Xv6.Kernel
