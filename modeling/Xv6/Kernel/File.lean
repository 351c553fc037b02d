import Xv6.Fs.Inode
import Xv6.Vm.Uvm

/-! # Open files

The file table of `file.c`, the in-memory inode table of `fs.c` as far as references
go, and pipes as far as their two ends go. An in-memory inode is a copy of the inode
on disk (every change to a copy is followed by `iupdate`), so an entry of the table
keeps its number, its reference count and whether it was read, and the fields are
those of the disk.
-/

namespace Xv6.Kernel

open Function Lib Vm

def NOFILE : Nat := 16

def NFILE : Nat := 100

def NINODE : Nat := 50

def NDEV : Nat := 10

def T_DIR : Nat := 1
def T_FILE : Nat := 2
def T_DEVICE : Nat := 3

inductive Panic where
  | vm (f : Vm.Panic)
  | fs (f : Fs.Panic)
  | filedup
  | fileclose
  | fileread
  | filewrite
  | igetNoInodes
  | ilock
  /-- `iput` of a null pointer -/
  | iputNull
  | initExiting
  | loadseg
deriving DecidableEq, Repr

inductive FileType where
  | none
  | pipe
  | inode
  | device
deriving DecidableEq, Repr

/-- `struct file`. `pipe` is the page of the pipe, `ip` an entry of the inode table;
both keep their values when the file is closed. `serial` numbers the calls of
`filealloc`; no code reads it. -/
structure File where
  type : FileType
  ref : Nat
  readable : Bool
  writable : Bool
  pipe : Nat
  ip : Option Nat
  off : Nat
  major : Nat
  serial : Nat

structure Inode where
  inum : Nat
  ref : Nat
  valid : Bool

/-- `struct pipe`: which ends are open. -/
structure Pipe where
  readopen : Bool
  writeopen : Bool

/-- The kernel objects that processes share. `opened` lists the serial numbers of
the files that became an end of a pipe or an open inode, `closed` those for which
`pipeclose` or `iput` has run; no code reads the two lists. -/
structure Sys where
  km : Kmem
  file : Nat → File
  inode : Nat → Inode
  disk : Fs.Disk
  pipe : Nat → Pipe
  serials : Nat
  opened : List Nat
  closed : List Nat

namespace Sys

def setFile (sys : Sys) (f : Nat) (x : File) : Sys :=
  { sys with file := update sys.file f x }

def setInode (sys : Sys) (k : Nat) (x : Inode) : Sys :=
  { sys with inode := update sys.inode k x }

/-- The fresh file `f` becomes `x`. -/
def install (sys : Sys) (f : Nat) (x : File) : Sys :=
  { sys.setFile f x with opened := sys.opened ++ [x.serial] }

end Sys

/-! ## The inode table -/

def iget (sys : Sys) (inum : Nat) : Except Panic (Nat × Sys) :=
  match (List.range NINODE).find? fun k => 0 < (sys.inode k).ref ∧ (sys.inode k).inum = inum with
  | some k => .ok (k, sys.setInode k { sys.inode k with ref := (sys.inode k).ref + 1 })
  | none =>
    match (List.range NINODE).find? fun k => (sys.inode k).ref = 0 with
    | some k => .ok (k, sys.setInode k ⟨inum, 1, false⟩)
    | none => .error .igetNoInodes

def idup (sys : Sys) (k : Nat) : Sys :=
  sys.setInode k { sys.inode k with ref := (sys.inode k).ref + 1 }

/-- The inode that entry `k` is a copy of. -/
def Sys.dinode (sb : Fs.Superblock) (sys : Sys) (k : Nat) : Fs.Dinode :=
  (sys.disk.view sb).inode (sys.inode k).inum

/-- `ilock` on a pointer that may be null: the entry and its inode. -/
def ilock (sb : Fs.Superblock) (sys : Sys) : Option Nat → Except Panic (Nat × Sys)
  | none => .error .ilock
  | some k =>
    if (sys.inode k).ref < 1 then .error .ilock
    else if (sys.inode k).valid then .ok (k, sys)
    else if (sys.dinode sb k).type = 0 then .error (.fs .ilockNoType)
    else .ok (k, sys.setInode k { sys.inode k with valid := true })

/-- Drop a reference; free the inode with the last one if it has no links. -/
def iput (sb : Fs.Superblock) (sys : Sys) (k : Nat) : Except Panic Sys := do
  let ip := sys.inode k
  if ip.ref = 1 ∧ ip.valid = true ∧ (sys.dinode sb k).nlink = 0 then
    let disk ← (Fs.ifree sb sys.disk ip.inum (sys.dinode sb k)).mapError .fs
    return { sys with disk := disk }.setInode k ⟨ip.inum, ip.ref - 1, false⟩
  else return sys.setInode k { ip with ref := ip.ref - 1 }

def iputPtr (sb : Fs.Superblock) (sys : Sys) : Option Nat → Except Panic Sys
  | some k => iput sb sys k
  | none => .error .iputNull

/-! ## The file table -/

/-- The file table after `filealloc` has found the free entry `f`. -/
def Sys.take (sys : Sys) (f : Nat) : Sys :=
  { sys.setFile f { sys.file f with ref := 1, serial := sys.serials } with
    serials := sys.serials + 1 }

def filealloc (sys : Sys) : Option (Nat × Sys) :=
  ((List.range NFILE).find? fun f => (sys.file f).ref = 0).map fun f => (f, sys.take f)

def filedup (sys : Sys) (f : Nat) : Except Panic Sys :=
  if (sys.file f).ref < 1 then .error .filedup
  else .ok (sys.setFile f { sys.file f with ref := (sys.file f).ref + 1 })

/-- Close one end; free the pipe when both are closed. -/
def pipeclose (sys : Sys) (pi : Nat) (writable : Bool) : Sys :=
  let p := if writable then { sys.pipe pi with writeopen := false }
    else { sys.pipe pi with readopen := false }
  let sys := { sys with pipe := update sys.pipe pi p }
  if !p.readopen && !p.writeopen then { sys with km := kfree sys.km pi } else sys

def fileclose (sb : Fs.Superblock) (sys : Sys) (f : Nat) : Except Panic Sys :=
  let ff := sys.file f
  if ff.ref < 1 then .error .fileclose
  else if ff.ref - 1 > 0 then .ok (sys.setFile f { ff with ref := ff.ref - 1 })
  else
    let sys := sys.setFile f { ff with ref := 0, type := .none }
    match ff.type with
    | .none => .ok sys
    | .pipe => .ok (pipeclose { sys with closed := sys.closed ++ [ff.serial] } ff.pipe ff.writable)
    | .inode | .device => iputPtr sb { sys with closed := sys.closed ++ [ff.serial] } ff.ip

/-! ## `filewrite` -/

def maxWrite : Nat := (MAXOPBLOCKS - 1 - 1 - 2) / 2 * BSIZE

/-- One iteration of the loop of `filewrite`: write `n1` bytes from user address
`addr` at the file's offset. -/
def writeChunk (sb : Fs.Superblock) (pt : PageTable) (f addr n1 : Nat) (sys : Sys) :
    Except Panic (Int × Sys) := do
  let (k, sys) ← ilock sb sys (sys.file f).ip
  let (r, _, disk) ← (Fs.writei sb sys.disk (sys.inode k).inum (sys.dinode sb k)
    (fun j => loadByte sys.km pt ((addr + j) % 2 ^ 64)) (sys.file f).off n1).mapError .fs
  let sys := { sys with disk := disk }
  if r > 0 then
    return (r, sys.setFile f { sys.file f with off := ((sys.file f).off + r.toNat) % 2 ^ 32 })
  else return (r, sys)

def filewriteLoop (sb : Fs.Superblock) (pt : PageTable) (f addr n : Nat) :
    Nat → Nat → Sys → Except Panic Sys
  | 0, _, sys => .ok sys
  | fuel + 1, i, sys =>
    if i < n then do
      let n1 := min (n - i) maxWrite
      let (r, sys) ← writeChunk sb pt f (addr + i) n1 sys
      if r ≠ n1 then return sys else filewriteLoop sb pt f addr n fuel (i + n1) sys
    else .ok sys

/-- `filewrite` of `n` bytes from user address `addr`, for callers that ignore its
result. What goes into a pipe or to a device is not modelled. -/
def filewrite (sb : Fs.Superblock) (pt : PageTable) (sys : Sys) (f addr : Nat) (n : Int) :
    Except Panic Sys :=
  if (sys.file f).writable = false then .ok sys
  else
    match (sys.file f).type with
    | .pipe | .device => .ok sys
    | .inode => filewriteLoop sb pt f addr n.toNat n.toNat 0 sys
    | .none => .error .filewrite

end Xv6.Kernel
