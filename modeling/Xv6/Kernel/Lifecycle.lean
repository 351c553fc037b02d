import Xv6.Kernel.Proc

/-! # `fork`, `exit` and `exec`

How a process comes to its page table, its files and its mapped regions, and how it
gives them up.
-/

namespace Xv6.Kernel

open Lib Vm

/-! ## Page tables of processes -/

/-- The physical page of the trampoline code; `kalloc` never hands it out. -/
def trampoline : Nat := 0

/-- `proc_pagetable`: a page table with the trampoline and the trapframe mapped. -/
def procPagetable (km : Kmem) (trapframe : Nat) : Except Vm.Panic (Option PageTable × Kmem) :=
  match kalloc km with
  | none => .ok (none, km)
  | some (root, km) => do
    match ← mappages km (Node.empty root) TRAMPOLINE PGSIZE trampoline
      ⟨true, false, true, false⟩ with
    | (false, km, pt) =>
      let km ← uvmfree km pt 0
      return (none, km)
    | (true, km, pt) =>
      match ← mappages km pt TRAPFRAME PGSIZE trapframe ⟨true, true, false, false⟩ with
      | (false, km, pt) =>
        let (km, pt) ← uvmunmap km pt TRAMPOLINE 1 false
        let km ← uvmfree km pt 0
        return (none, km)
      | (true, km, pt) => return (some pt, km)

def procFreepagetable (km : Kmem) (pt : PageTable) (sz : Nat) : Except Vm.Panic Kmem := do
  let (km, pt) ← uvmunmap km pt TRAMPOLINE 1 false
  let (km, pt) ← uvmunmap km pt TRAPFRAME 1 false
  uvmfree km pt sz

def allocproc (km : Kmem) (np : Proc) : Except Panic (Option Proc × Kmem) :=
  match kalloc km with
  | none => .ok (none, km)
  | some (tf, km) => do
    match ← (procPagetable km tf).mapError .vm with
    | (none, km) => return (none, kfree km tf)
    | (some pt, km) => return (some { np with pagetable := pt, trapframe := tf }, km)

/-- `freeproc`. It leaves `ofile`, `cwd` and `vma` as they are. -/
def freeproc (km : Kmem) (p : Proc) : Except Panic (Kmem × Proc) := do
  let km ← (procFreepagetable (kfree km p.trapframe) p.pagetable p.sz).mapError .vm
  return (km, { p with state := .unused, parent := none, xstate := 0, sz := 0 })

/-! ## `fork` -/

def forkOfile (p : Proc) (i : Nat) : Sys × Proc → Except Panic (Sys × Proc)
  | (sys, np) =>
    match p.ofile i with
    | none => .ok (sys, np)
    | some f => do
      let sys ← filedup sys f
      return (sys, np.setOfile i (some f))

def forkVma (p : Proc) (i : Nat) : Sys × Proc → Except Panic (Sys × Proc)
  | (sys, np) =>
    if (p.vma i).valid then do
      let sys ← filedup sys (p.vma i).f
      return (sys, np.setVma i (p.vma i))
    else .ok (sys, np)

/-- `*(np->trapframe) = *(p->trapframe); np->trapframe->a0 = 0`; a trapframe is 288 bytes, of which
`a0` is at 112. -/
def copyTrapframe (km : Kmem) (tf tf' : Nat) : Kmem :=
  let page := (km.mem tf').blit 0 288 fun k => (km.mem tf).get k
  { km with mem := Function.update km.mem tf' (page.blit 112 8 fun _ => 0) }

/-- `fork` by process `me`, with state `p`, into the unused slot `np`; false is the
result -1. -/
def fork (sys : Sys) (me : Nat) (p np : Proc) : Except Panic (Bool × Sys × Proc) := do
  match ← allocproc sys.km np with
  | (none, km) => return (false, { sys with km := km }, np)
  | (some np, km) =>
    match ← (uvmcopy km p.pagetable np.pagetable p.sz).mapError .vm with
    | (false, km, pt) =>
      let (km, np) ← freeproc km { np with pagetable := pt }
      return (false, { sys with km := km }, np)
    | (true, km, pt) =>
      let np := { np with pagetable := pt, sz := p.sz, sp := p.sp, own := p.own }
      let km := copyTrapframe km p.trapframe np.trapframe
      let (sys, np) ← forRange NOFILE (forkOfile p) ({ sys with km := km }, np)
      let sys := match p.cwd with
        | some k => idup sys k
        | none => sys
      let np := { np with cwd := p.cwd, parent := some me, state := .runnable, held := .nothing }
      let (sys, np) ← forRange VMASIZE (forkVma p) (sys, np)
      return (true, sys, np)

/-! ## `exit` -/

def exitOfile (sb : Fs.Superblock) (fd : Nat) : Sys × Proc → Except Panic (Sys × Proc)
  | (sys, p) =>
    match p.ofile fd with
    | none => .ok (sys, p)
    | some f => do
      let sys ← fileclose sb sys f
      return (sys, p.setOfile fd none)

/-- Write back, close and unmap one region. -/
def exitVma (sb : Fs.Superblock) (i : Nat) : Sys × Proc → Except Panic (Sys × Proc)
  | (sys, p) =>
    let m := p.vma i
    if m.valid then do
      let sys ← writeback sb p.pagetable sys m m.addr m.len
      let sys ← fileclose sb sys m.f
      let (km, pt) ←
        (uvmunmap sys.km p.pagetable m.addr (u64 (m.len.tdiv PGSIZE)) true).mapError .vm
      return ({ sys with km := km }, { p with pagetable := pt }.setVma i { m with valid := false })
    else .ok (sys, p)

/-- `exit` up to the point where the process becomes a zombie; the caller reparents
its children. -/
def exit (sb : Fs.Superblock) (sys : Sys) (p : Proc) (status : Nat) : Except Panic (Sys × Proc) :=
  do
  let (sys, p) ← forRange NOFILE (exitOfile sb) (sys, p)
  let (sys, p) ← forRange VMASIZE (exitVma sb) (sys, p)
  let sys ← iputPtr sb sys p.cwd
  return (sys, { p with cwd := none, xstate := status, state := .zombie })

/-! ## `exec` -/

/-- The little-endian word of `w` bytes at `off` in a list of bytes. -/
def wordAt (bs : List UInt8) (off : Nat) : Nat → Nat
  | 0 => 0
  | w + 1 => (bs.getD off 0).toNat + 256 * wordAt bs (off + 1) w

/-- `readi` into kernel memory; `none` when fewer than `n` bytes were read. -/
def kread (sb : Fs.Superblock) (disk : Fs.Disk) (ip : Fs.Dinode) (off n : Nat) :
    Except Panic (Option (List UInt8) × Fs.Disk) := do
  let (r, bs, _, disk) ← (Fs.readi sb disk ip (fun _ => true) off n).mapError .fs
  return (if r = n then some bs else none, disk)

/-- `struct proghdr`, 56 bytes. -/
structure Proghdr where
  type : Nat
  off : Nat
  vaddr : Nat
  filesz : Nat
  memsz : Nat

def Proghdr.ofBytes (bs : List UInt8) : Proghdr where
  type := wordAt bs 0 4
  off := wordAt bs 8 8
  vaddr := wordAt bs 16 8
  filesz := wordAt bs 32 8
  memsz := wordAt bs 40 8

/-- The loop of `loadseg` from `i` on, with the number of pages left; `sz` and
`offset` are `uint`s. The result is false when the file is too short. -/
def loadseg (sb : Fs.Superblock) (pt : PageTable) (ip : Fs.Dinode) (va offset sz : Nat) :
    Nat → Nat → Kmem → Fs.Disk → Except Panic (Bool × Kmem × Fs.Disk)
  | 0, _, km, disk => .ok (true, km, disk)
  | n + 1, i, km, disk =>
    match walkaddr pt ((va + i) % 2 ^ 64) with
    | none => .error .loadseg
    | some p => do
      match ← kread sb disk ip ((offset + i) % 2 ^ 32) (min (sz - i) PGSIZE) with
      | (none, disk) => return (false, km, disk)
      | (some bs, disk) =>
        let page := (km.mem p).blit 0 bs.length fun k => bs.getD k 0
        loadseg sb pt ip va offset sz n (i + PGSIZE)
          { km with mem := Function.update km.mem p page } disk

/-- What the loops of `exec` work on: the new page table and its size. -/
structure Image where
  km : Kmem
  disk : Fs.Disk
  pagetable : PageTable
  sz : Nat

/-- One program header; false is `goto bad`. -/
def loadHeader (sb : Fs.Superblock) (ip : Fs.Dinode) (off : Nat) (im : Image) :
    Except Panic (Bool × Image) := do
  match ← kread sb im.disk ip off 56 with
  | (none, disk) => return (false, { im with disk := disk })
  | (some bs, disk) =>
    let ph := Proghdr.ofBytes bs
    let im := { im with disk := disk }
    if ph.type ≠ 1 then return (true, im)
    else if ph.memsz < ph.filesz then return (false, im)
    else if (ph.vaddr + ph.memsz) % 2 ^ 64 < ph.vaddr then return (false, im)
    else
      let (sz1, km, pt) ←
        (uvmalloc im.km im.pagetable im.sz ((ph.vaddr + ph.memsz) % 2 ^ 64)).mapError .vm
      if sz1 = 0 then return (false, { im with km := km, pagetable := pt })
      else
        let im := { im with km := km, pagetable := pt, sz := sz1 }
        if ph.vaddr % PGSIZE ≠ 0 then return (false, im)
        else
          let filesz := ph.filesz % 2 ^ 32
          let (ok, km, disk) ← loadseg sb im.pagetable ip ph.vaddr (ph.off % 2 ^ 32) filesz
            ((filesz + PGSIZE - 1) / PGSIZE) 0 im.km im.disk
          return (ok, { im with km := km, disk := disk })

/-- The loop over `n` program headers; `off` is an `int`, passed on as a `uint`. -/
def loadHeaders (sb : Fs.Superblock) (ip : Fs.Dinode) :
    Nat → Nat → Image → Except Panic (Bool × Image)
  | 0, _, im => .ok (true, im)
  | n + 1, off, im => do
    match ← loadHeader sb ip (off % 2 ^ 32) im with
    | (false, im) => return (false, im)
    | (true, im) => loadHeaders sb ip n (off + 56) im

/-- Copy a string to the stack; `none` is `goto bad`. -/
def pushArg (pt : PageTable) (stackbase : Nat) (s : List UInt8) (km : Kmem) (sp : Nat) :
    Option Nat × Kmem :=
  let sp := (sp - s.length) / 16 * 16
  if sp < stackbase then (none, km)
  else
    match copyout pt km sp s with
    | (false, km) => (none, km)
    | (true, km) => (some sp, km)

def MAXARG : Nat := 32

/-- Push the strings of `argv`; `ustack` collects their addresses. -/
def pushArgs (pt : PageTable) (stackbase : Nat) : List (List UInt8) → List Nat → Kmem → Nat →
    Option (List Nat × Nat) × Kmem
  | [], ustack, km, sp => (some (ustack, sp), km)
  | s :: argv, ustack, km, sp =>
    if ustack.length ≥ MAXARG then (none, km)
    else
      match pushArg pt stackbase (s ++ [0]) km sp with
      | (none, km) => (none, km)
      | (some sp, km) => pushArgs pt stackbase argv (ustack ++ [sp]) km sp

def bytes64 (x : Nat) : List UInt8 := (List.range 8).map fun k => .ofNat (x / 256 ^ k)

/-- The part of `exec` after the program is loaded: the stack and its contents. The
result is the stack pointer, or `none` for `goto bad`. -/
def setupStack (im : Image) (argv : List (List UInt8)) : Except Panic (Option Nat × Image) := do
  let sz := PGROUNDUP im.sz
  let im := { im with sz := sz }
  let (sz1, km, pt) ← (uvmalloc im.km im.pagetable sz ((sz + 2 * PGSIZE) % 2 ^ 64)).mapError .vm
  if sz1 = 0 then return (none, { im with km := km, pagetable := pt })
  else
    let pt ← (uvmclear pt (sz1 - 2 * PGSIZE)).mapError .vm
    let im := { im with km := km, pagetable := pt, sz := sz1 }
    match pushArgs pt (sz1 - PGSIZE) argv [] km sz1 with
    | (none, km) => return (none, { im with km := km })
    | (some (ustack, sp), km) =>
      let r := pushArg pt (sz1 - PGSIZE) ((ustack ++ [0]).flatMap bytes64) km sp
      return (r.1, { im with km := r.2 })

/-- `exec` of the file with in-memory inode `k`, which `namei` returned. On success
the process has the new image. -/
def exec (sb : Fs.Superblock) (sys : Sys) (p : Proc) (k : Nat) (argv : List (List UInt8)) :
    Except Panic (Bool × Sys × Proc) := do
  let (k, sys) ← ilock sb sys (some k)
  let ip := sys.dinode sb k
  match ← kread sb sys.disk ip 0 64 with
  | (none, disk) =>
    let sys ← iput sb { sys with disk := disk } k
    return (false, sys, p)
  | (some elf, disk) =>
    let sys := { sys with disk := disk }
    if wordAt elf 0 4 ≠ 0x464C457F then
      let sys ← iput sb sys k
      return (false, sys, p)
    else
      match ← (procPagetable sys.km p.trapframe).mapError .vm with
      | (none, km) =>
        let sys ← iput sb { sys with km := km } k
        return (false, sys, p)
      | (some pt, km) =>
        let (ok, im) ← loadHeaders sb ip (wordAt elf 56 2) (wordAt elf 32 8) ⟨km, sys.disk, pt, 0⟩
        if !ok then
          let km ← (procFreepagetable im.km im.pagetable im.sz).mapError .vm
          let sys ← iput sb { sys with km := km, disk := im.disk } k
          return (false, sys, p)
        else
          let sys ← iput sb { sys with km := im.km, disk := im.disk } k
          match ← setupStack { im with disk := sys.disk, km := sys.km } argv with
          | (none, im) =>
            let km ← (procFreepagetable im.km im.pagetable im.sz).mapError .vm
            return (false, { sys with km := km }, p)
          | (some sp, im) =>
            let km ← (procFreepagetable im.km p.pagetable p.sz).mapError .vm
            let own := fun v => decide (v * PGSIZE < im.sz)
            return (true, { sys with km := km },
              { p with pagetable := im.pagetable, sz := im.sz, sp := sp, own := own })

end Xv6.Kernel
