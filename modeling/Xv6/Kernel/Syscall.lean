import Xv6.Kernel.Lifecycle

/-! # Page faults and calls on open files

The page-fault branch of `usertrap`, and the system calls of `sysfile.c` that work on
the open files of a process. `sys_open` and `sys_pipe` are in two parts, split where
the call holds files that are not yet in `ofile`.
-/

namespace Xv6.Kernel

open Lib Vm

/-! ## Page faults -/

def faultSlot (p : Proc) (va : Nat) : Option Nat :=
  (List.range VMASIZE).find? fun i => (p.vma i).valid && (p.vma i).contains va

section

variable {p : Proc} {va i : Nat}

theorem faultSlot_some (h : faultSlot p va = some i) :
    i < VMASIZE ∧ (p.vma i).valid = true ∧ (p.vma i).contains va = true ∧
      ∀ j, j < i → (p.vma j).valid = true → (p.vma j).contains va = false := by
  obtain ⟨hi, hmem, hfirst⟩ := List.find?_range_eq_some.mp h
  rw [Bool.and_eq_true] at hi
  refine ⟨List.mem_range.mp hmem, hi.1, hi.2, fun j hj hvalid => ?_⟩
  have := hfirst j hj
  rw [hvalid, Bool.true_and, Bool.not_eq_true'] at this
  exact this

theorem faultSlot_none (h : faultSlot p va = none) (hi : i < VMASIZE)
    (hvalid : (p.vma i).valid = true) : (p.vma i).contains va = false := by
  have := List.find?_eq_none.mp h i (List.mem_range.mpr hi)
  rw [hvalid, Bool.true_and, Bool.not_eq_true] at this
  exact this

end

def Vma.perm (m : Vma) : Perm := ⟨PROT_READ m.prot, PROT_WRITE m.prot, PROT_EXEC m.prot, true⟩

/-- The page-fault branch of `usertrap`; the result is `p->killed`. -/
def pageFault (sb : Fs.Superblock) (sys : Sys) (p : Proc) (va : Nat) :
    Except Panic (Bool × Sys × Proc) := do
  let killed := decide (va ≥ p.sz ∨ va > MAXVA ∨ PGROUNDUP va = PGROUNDDOWN p.sp)
  match faultSlot p va with
  | none => return (killed, sys, p)
  | some i =>
    let m := p.vma i
    let va := PGROUNDDOWN va
    let offset := u64 (va - m.addr)
    match kalloc sys.km with
    | none => return (true, sys, p)
    | some (mem, km) =>
      let sys := { sys with km := km.clear mem }
      let (k, sys) ← ilock sb sys (sys.file m.f).ip
      let (_, bs, _, disk) ← (Fs.readi sb sys.disk (sys.dinode sb k) (fun _ => true)
        (offset % 2 ^ 32) PGSIZE).mapError .fs
      let page := (sys.km.mem mem).blit 0 bs.length fun j => bs.getD j 0
      let km := { sys.km with mem := Function.update sys.km.mem mem page }
      match ← (mappages km p.pagetable va PGSIZE mem m.perm).mapError .vm with
      | (true, km, pt) =>
        return (killed, { sys with km := km, disk := disk }, { p with pagetable := pt })
      | (false, km, pt) =>
        return (true, { sys with km := kfree km mem, disk := disk }, { p with pagetable := pt })

/-- The hardware lets user code load from, or store to, an address. An entry that is
writable but not readable is reserved and faults. -/
def permits (pt : PageTable) (va : Nat) (write : Bool) : Bool :=
  decide (va < MAXVA) &&
    match pt.leaf (va / PGSIZE) with
    | some pte => pte.perm.u && pte.perm.r && (!write || pte.perm.w)
    | none => false

/-! ## Open files of a process -/

def sysDup (sys : Sys) (p : Proc) (fd : Nat) : Except Panic (Sys × Proc) :=
  match argfd p fd with
  | none => .ok (sys, p)
  | some (_, f) =>
    match fdalloc p f with
    | none => .ok (sys, p)
    | some (_, p) => do
      let sys ← filedup sys f
      return (sys, p)

def sysClose (sb : Fs.Superblock) (sys : Sys) (p : Proc) (fd : Nat) : Except Panic (Sys × Proc) :=
  match argfd p fd with
  | none => .ok (sys, p)
  | some (fd, f) => do
    let sys ← fileclose sb sys f
    return (sys, p.setOfile fd none)

/-- `sys_open` up to `filealloc`, on the inode that `namei` or `create` returned. -/
def openAlloc (sb : Fs.Superblock) (sys : Sys) (p : Proc) (inum : Nat) (omode : BitVec 32) :
    Except Panic (Sys × Proc) := do
  let (k, sys) ← iget sys inum
  let (k, sys) ← ilock sb sys (some k)
  let ip := sys.dinode sb k
  -- `create` only returns files and devices
  if (omode.getLsbD 9 = false ∧ ip.type = T_DIR ∧ omode ≠ 0) ∨
      (ip.type = T_DEVICE ∧ NDEV ≤ ip.major) then
    let sys ← iput sb sys k
    return (sys, p)
  else
    match filealloc sys with
    | none =>
      let sys ← iput sb sys k
      return (sys, p)
    | some (f, sys) => return (sys, { p with held := .opening f k omode })

/-- What `sys_open` makes of the fresh file `x`. -/
def openedFile (ip : Fs.Dinode) (k : Nat) (omode : BitVec 32) (x : File) : File :=
  let x := if ip.type = T_DEVICE then { x with type := .device, major := ip.major }
    else { x with type := .inode, off := 0 }
  { x with
    ip := some k
    readable := !omode.getLsbD 0
    writable := omode.getLsbD 0 || omode.getLsbD 1 }

/-- The rest of `sys_open`. -/
def openFinish (sb : Fs.Superblock) (sys : Sys) (p : Proc) (f k : Nat) (omode : BitVec 32) :
    Except Panic (Sys × Proc) := do
  let p := { p with held := .nothing }
  match fdalloc p f with
  | none =>
    let sys ← fileclose sb sys f
    let sys ← iput sb sys k
    return (sys, p)
  | some (_, p) =>
    let ip := sys.dinode sb k
    let sys := sys.install f (openedFile ip k omode (sys.file f))
    if omode.getLsbD 10 ∧ ip.type = T_FILE then
      let (_, disk) ← (Fs.itrunc sb sys.disk (sys.inode k).inum ip).mapError .fs
      return ({ sys with disk := disk }, p)
    else return (sys, p)

def pipeAlloc (sb : Fs.Superblock) (sys : Sys) (p : Proc) : Except Panic (Sys × Proc) :=
  match filealloc sys with
  | none => .ok (sys, p)
  | some (f0, sys) =>
    match filealloc sys with
    | none => do
      let sys ← fileclose sb sys f0
      return (sys, p)
    | some (f1, sys) =>
      match kalloc sys.km with
      | none => do
        let sys ← fileclose sb sys f0
        let sys ← fileclose sb sys f1
        return (sys, p)
      | some (pi, km) =>
        let sys := { sys with km := km, pipe := Function.update sys.pipe pi ⟨true, true⟩ }
        let sys := sys.install f0
          { sys.file f0 with type := .pipe, readable := true, writable := false, pipe := pi }
        let sys := sys.install f1
          { sys.file f1 with type := .pipe, readable := false, writable := true, pipe := pi }
        .ok (sys, { p with held := .piping f0 f1 })

def bytes32 (x : Nat) : List UInt8 := (List.range 4).map fun k => .ofNat (x / 256 ^ k)

/-- The rest of `sys_pipe`; false is the result -1. -/
def pipeFinish (sb : Fs.Superblock) (sys : Sys) (p : Proc) (rf wf fdarray : Nat) :
    Except Panic (Bool × Sys × Proc) := do
  let p := { p with held := .nothing }
  match fdalloc p rf with
  | none =>
    let sys ← fileclose sb sys rf
    let sys ← fileclose sb sys wf
    return (false, sys, p)
  | some (fd0, p0) =>
    match fdalloc p0 wf with
    | none =>
      let sys ← fileclose sb sys rf
      let sys ← fileclose sb sys wf
      return (false, sys, p0.setOfile fd0 none)
    | some (fd1, p1) =>
      match copyout p.pagetable sys.km fdarray (bytes32 fd0 ++ bytes32 fd1) with
      | (true, km) => return (true, { sys with km := km }, p1)
      | (false, km) =>
        let sys ← fileclose sb { sys with km := km } rf
        let sys ← fileclose sb sys wf
        return (false, sys, (p1.setOfile fd0 none).setOfile fd1 none)

def filereadInode (sb : Fs.Superblock) (sys : Sys) (pt : PageTable) (f addr n : Nat) :
    Except Panic (Int × Sys) := do
  let (k, sys) ← ilock sb sys (sys.file f).ip
  let (r, bs, _, disk) ← (Fs.readi sb sys.disk (sys.dinode sb k)
    (fun j => (walkaddr pt ((addr + j) % 2 ^ 64)).isSome) (sys.file f).off n).mapError .fs
  let sys := { sys with disk := disk, km := (copyout pt sys.km addr bs).2 }
  if r > 0 then
    return (r, sys.setFile f { sys.file f with off := ((sys.file f).off + r.toNat) % 2 ^ 32 })
  else return (r, sys)

/-- `sys_read`, without its result; what comes from a pipe or a device is not modelled. -/
def sysRead (sb : Fs.Superblock) (sys : Sys) (p : Proc) (fd addr n : Nat) : Except Panic Sys :=
  match argfd p fd with
  | none => .ok sys
  | some (_, f) =>
    if (sys.file f).readable = false then .ok sys
    else
      match (sys.file f).type with
      | .pipe | .device => .ok sys
      | .none => .error .fileread
      | .inode => (filereadInode sb sys p.pagetable f (argaddr addr) (n % 2 ^ 32)).map Prod.snd

def sysWrite (sb : Fs.Superblock) (sys : Sys) (p : Proc) (fd addr n : Nat) : Except Panic Sys :=
  match argfd p fd with
  | none => .ok sys
  | some (_, f) => filewrite sb p.pagetable sys f (argaddr addr) (argint n)

def sysChdir (sb : Fs.Superblock) (sys : Sys) (p : Proc) (inum : Nat) : Except Panic (Sys × Proc) :=
  do
  let (k, sys) ← iget sys inum
  let (k, sys) ← ilock sb sys (some k)
  if (sys.dinode sb k).type ≠ T_DIR then
    let sys ← iput sb sys k
    return (sys, p)
  else
    let sys ← iputPtr sb sys p.cwd
    return (sys, { p with cwd := some k })

end Xv6.Kernel
