import Xv6.Kernel.Machine
import Xv6.Vm.UserCopy

/-! # Booting, `sys_exec` and scarce memory

The machine of `Kernel.Machine` together with what it leaves out about physical pages:
the free list that `kinit` makes, the kernel page table and the kernel stacks, and the
pages in which `sys_exec` keeps its arguments. An action of this machine also says how
many of the free pages the call gets to see, so that any call of `kalloc` can fail: the
others may be in use by calls in progress on other CPUs.
-/

namespace Xv6.Kernel

open Lib Vm

/-! ## Booting -/

/-- Where the kernel ends, and how much of the memory below `PHYSTOP` there is. -/
structure Memlayout where
  etext : Nat
  kend : Nat
  top : Nat
  kend_ge : KERNBASE ≤ kend
  top_le : top ≤ PHYSTOP

/-- The pages that `freerange` frees, the last one first. -/
def freerange (pa_start pa_end : Nat) : List Nat :=
  let first := (pa_start + PGSIZE - 1) / PGSIZE
  ((List.range (pa_end / PGSIZE - first)).map (first + ·)).reverse

def kinit (L : Memlayout) : Kmem := ⟨freerange L.kend L.top, fun _ => Bytes.zero⟩

/-- `kvmmap`; `none` is a panic. -/
def kvmmap (km : Kmem) (pt : PageTable) (va pa sz : Nat) (perm : Perm) :
    Option (Kmem × PageTable) :=
  match mappages km pt va sz (pa / PGSIZE) perm with
  | .ok (true, km, pt) => some (km, pt)
  | _ => none

def KSTACK (i : Nat) : Nat := TRAMPOLINE - (i + 1) * 2 * PGSIZE

/-- The loop of `proc_mapstacks`, with the number of processes left; `kstacks` are the
pages of the stacks so far. -/
def procMapstacks : Nat → Nat → Kmem → PageTable → List Nat → Option (Kmem × PageTable × List Nat)
  | 0, _, km, pt, kstacks => some (km, pt, kstacks)
  | n + 1, i, km, pt, kstacks =>
    match kalloc km with
    | none => none
    | some (pa, km) => do
      let (km, pt) ← kvmmap km pt (KSTACK i) (pa * PGSIZE) PGSIZE ⟨true, true, false, false⟩
      procMapstacks n (i + 1) km pt (pa :: kstacks)

/-- `kvmmake`: the kernel page table and the pages of the kernel stacks. -/
def kvmmake (L : Memlayout) (km : Kmem) : Option (Kmem × PageTable × List Nat) :=
  match kalloc km with
  | none => none
  | some (root, km) => do
    let data : Perm := ⟨true, true, false, false⟩
    let text : Perm := ⟨true, false, true, false⟩
    let (km, pt) ← kvmmap km (Node.empty root) 0x10000000 0x10000000 PGSIZE data
    let (km, pt) ← kvmmap km pt 0x10001000 0x10001000 PGSIZE data
    let (km, pt) ← kvmmap km pt 0x0c000000 0x0c000000 0x400000 data
    let (km, pt) ← kvmmap km pt KERNBASE KERNBASE (L.etext - KERNBASE) text
    let (km, pt) ← kvmmap km pt L.etext L.etext (L.top - L.etext) data
    let (km, pt) ← kvmmap km pt TRAMPOLINE (trampoline * PGSIZE) PGSIZE text
    procMapstacks NPROC 0 km pt []

/-! ## `sys_exec` -/

def MAXPATH : Nat := 128

/-- `fetchaddr`; `none` is the result -1. -/
def fetchaddr (km : Kmem) (p : Proc) (addr : Nat) : Option Nat :=
  if addr ≥ p.sz ∨ (addr + 8) % 2 ^ 64 > p.sz then none
  else ((List.range 8).mapM fun k => loadByte km p.pagetable ((addr + k) % 2 ^ 64)).map fun bs =>
    wordAt bs 0 8

/-- The loop of `sys_exec` over `argv`, with the number of entries left. `args` has the
page and the string of each argument so far; the result is false for `goto bad`. -/
def fetchArgs (p : Proc) (uargv : Nat) : Nat → Nat → Kmem → List (Nat × List UInt8) →
    Bool × Kmem × List (Nat × List UInt8)
  | 0, _, km, args => (false, km, args)
  | n + 1, i, km, args =>
    match fetchaddr km p ((uargv + 8 * i) % 2 ^ 64) with
    | none => (false, km, args)
    | some uarg =>
      if uarg = 0 then (true, km, args)
      else
        match kalloc km with
        | none => (false, km, args)
        | some (page, km) =>
          let (ok, bs) := UserCopy.copyinstr p.pagetable km [] uarg PGSIZE
          let km := UserCopy.move km page 0 bs
          if ok then fetchArgs p uargv n (i + 1) km (args ++ [(page, bs.dropLast)])
          else (false, km, args ++ [(page, [])])

def freeArgs (km : Kmem) (args : List (Nat × List UInt8)) : Kmem :=
  args.foldl (fun km a => kfree km a.1) km

/-- The call of `exec` in `sys_exec`; `inum` is what `namei` returns. -/
def execNamed (sb : Fs.Superblock) (sys : Sys) (p : Proc) (inum : Option Nat)
    (argv : List (List UInt8)) : Except Panic (Bool × Sys × Proc) :=
  match inum with
  | none => .ok (false, sys, p)
  | some i => do
    let (k, sys) ← iget sys i
    exec sb sys p k argv

/-- `sys_exec`; false is the result -1. -/
def sysExec (sb : Fs.Superblock) (sys : Sys) (p : Proc) (path uargv : Nat) (inum : Option Nat) :
    Except Panic (Bool × Sys × Proc) :=
  if (UserCopy.copyinstr p.pagetable sys.km [] path MAXPATH).1 = false then .ok (false, sys, p)
  else
    let r := fetchArgs p uargv MAXARG 0 sys.km []
    if r.1 then do
      let (ok, sys, p) ← execNamed sb { sys with km := r.2.1 } p inum (r.2.2.map Prod.snd)
      return (ok, { sys with km := freeArgs sys.km r.2.2 }, p)
    else .ok (false, { sys with km := freeArgs r.2.1 r.2.2 }, p)

/-! ## The machine -/

inductive MemAction where
  /-- an action of `Kernel.Machine` other than `exec` -/
  | call (a : Action)
  | sysExec (n path uargv : Nat) (inum : Option Nat)

def MemAction.actor : MemAction → Option Nat
  | .call a => a.actor.map Prod.fst
  | .sysExec n .. => some n

/-- The state in which only the first `avail` free pages are there. -/
def State.lend (s : State) (avail : Nat) : State :=
  { s with sys := { s.sys with km := { s.sys.km with free := s.sys.km.free.take avail } } }

/-- The state with more free pages. -/
def State.giveBack (s : State) (free : List Nat) : State :=
  { s with sys := { s.sys with km := { s.sys.km with free := s.sys.km.free ++ free } } }

def memEffect (sb : Fs.Superblock) (s : State) : MemAction → Outcome Panic State
  | .call (.exec ..) => .blocked
  | .call a => step sb s a
  | .sysExec n path uargv inum =>
    if n < NPROC ∧ (s.proc n).state = .runnable ∧ (s.proc n).held = .nothing ∧
    (∀ i ∈ inum, s.Named sb i false) then
      ofExcept (s.call n fun sys p => do
        let (_, sys, p) ← sysExec sb sys p (argaddr path) (argaddr uargv) inum
        return (sys, p))
    else .blocked

/-- An action in which `kalloc` hands out at most the first `avail` free pages. -/
def memStep (sb : Fs.Superblock) (s : State) (a : Nat × MemAction) : Outcome Panic State :=
  match memEffect sb (s.lend a.1) a.2 with
  | .next s' => .next (s'.giveBack (s.sys.km.free.drop a.1))
  | .fault f => .fault f
  | .blocked => .blocked

/-- The action is not a call of `mmap`. -/
def NoMmap : Nat × MemAction → Prop
  | (_, .call (.mmap ..)) => False
  | _ => True

/-- The kernel has booted in memory `L` on a consistent disk, with the kernel page table
`kpt` and kernel stacks in the pages `kstacks`. -/
def BootedIn (sb : Fs.Superblock) (L : Memlayout) (kpt : PageTable) (kstacks : List Nat)
    (s : State) : Prop :=
  ∃ km img, Fs.AllocInv sb ((Fs.Disk.ofImage img).view sb) ∧
    ((Fs.Disk.ofImage img).view sb).Allocated sb ROOTINO ∧
    kvmmake L (kinit L) = some (km, kpt, kstacks) ∧ userinit km (Fs.Disk.ofImage img) = .ok (some s)

end Xv6.Kernel
