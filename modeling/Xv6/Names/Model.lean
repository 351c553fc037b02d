import Xv6.Kernel.Machine
import Xv6.Names.Strings

/-! # Directories, paths and the calls on them

The directory layer of `fs.c` and what `sysfile.c` does with paths, on the tables of `Kernel.File`.
A process that waits for a sleep lock which it holds itself never goes on; this and a loop that does
not end are errors of their own, next to the panics of the source. The buffer for a name is filled
with zeros: `skipelem` ends every name that it puts there.
-/

namespace Xv6.Names

open Lib Kernel

inductive Panic where
  | kernel (f : Kernel.Panic)
  | dirlookupNotDir
  | dirlookupRead
  | dirlinkRead
  | dirlink
  | isdiremptyReadi
  | unlinkNlink
  | unlinkWritei
  | createDots
  | createDirlink
  /-- `idup` of a null pointer -/
  | idupNull
  /-- `acquiresleep` by the holder of the lock -/
  | deadlock
  | rounds
deriving DecidableEq, Repr

def kern {α : Type} (x : Except Kernel.Panic α) : Except Panic α := x.mapError .kernel

def fsys {α : Type} (x : Except Fs.Panic α) : Except Panic α := kern (x.mapError .fs)

/-! ## Directory entries -/

def direntSize : Nat := 16

structure Dirent where
  inum : Nat
  name : Nat → UInt8

def getDirent (bs : List UInt8) : Dirent where
  inum := (bs.getD 0 0).toNat + 256 * (bs.getD 1 0).toNat
  name i := bs.getD (2 + i) 0

/-- The bytes of a `struct dirent`, whose `inum` is a `ushort`. -/
def putDirent (inum : Nat) (name : List UInt8) : List UInt8 :=
  .ofNat inum :: .ofNat (inum / 256) :: name

def zeroDirent : List UInt8 := List.replicate direntSize 0

def sizeOf (sb : Fs.Superblock) (d : Fs.Disk) (i : Nat) : Nat := ((d.view sb).inode i).size

section

variable (sb : Fs.Superblock)

/-- `readi(dp, 0, &de, off, sizeof(de)) != sizeof(de)` is the panic `e`; `i` is the number of the
directory. -/
def readDirent (d : Fs.Disk) (i off : Nat) (e : Panic) : Except Panic (Dirent × Fs.Disk) := do
  let (r, bs, _, d) ← fsys (Fs.readi sb d ((d.view sb).inode i) (fun _ => true) off direntSize)
  if r ≠ direntSize then throw e else return (getDirent bs, d)

/-- `writei(dp, 0, &de, off, sizeof(de)) != sizeof(de)` is the panic `e`. -/
def writeDirent (d : Fs.Disk) (i off : Nat) (bs : List UInt8) (e : Panic) : Except Panic Fs.Disk :=
  do
  let (r, _, d) ← fsys (Fs.writei sb d i ((d.view sb).inode i)
    (fun k => some (bs.getD k 0)) off direntSize)
  if r ≠ direntSize then throw e else return d

def dirlookupLoop (i : Nat) (name : Nat → UInt8) :
    Nat → Nat → Fs.Disk → Except Panic (Option (Nat × Nat) × Fs.Disk)
  | 0, _, _ => .error .rounds
  | fuel + 1, off, d =>
    if off < sizeOf sb d i then do
      let (de, d) ← readDirent sb d i off .dirlookupRead
      if de.inum ≠ 0 ∧ namecmp name de.name = 0 then return (some (de.inum, off), d)
      else dirlookupLoop i name fuel (off + direntSize) d
    else .ok (none, d)

def dirlinkLoop (i : Nat) : Nat → Nat → Fs.Disk → Except Panic (Nat × Fs.Disk)
  | 0, _, _ => .error .rounds
  | fuel + 1, off, d =>
    if off < sizeOf sb d i then do
      let (de, d) ← readDirent sb d i off .dirlinkRead
      if de.inum = 0 then return (off, d) else dirlinkLoop i fuel (off + direntSize) d
    else .ok (off, d)

def isdiremptyLoop (i : Nat) : Nat → Nat → Fs.Disk → Except Panic (Bool × Fs.Disk)
  | 0, _, _ => .error .rounds
  | fuel + 1, off, d =>
    if off < sizeOf sb d i then do
      let (de, d) ← readDirent sb d i off .isdiremptyReadi
      if de.inum ≠ 0 then return (false, d) else isdiremptyLoop i fuel (off + direntSize) d
    else .ok (true, d)

/-- The rounds of a loop over the entries of a directory. -/
def rounds (d : Fs.Disk) (i : Nat) : Nat := sizeOf sb d i / direntSize + 1

/-! ## Locked inodes -/

def typeOf (sys : Sys) (k : Nat) : Nat := (sys.dinode sb k).type

def ilock (sys : Sys) (k : Nat) : Except Panic Sys := do
  let (_, sys) ← kern (Kernel.ilock sb sys (some k))
  return sys

def iput (sys : Sys) (k : Nat) : Except Panic Sys := kern (Kernel.iput sb sys k)

def update (sys : Sys) (k : Nat) (f : Fs.Dinode → Fs.Dinode) : Sys :=
  { sys with disk := Fs.iupdate sb sys.disk (sys.inode k).inum (f (sys.dinode sb k)) }

def incNlink (ip : Fs.Dinode) : Fs.Dinode := { ip with nlink := (ip.nlink + 1) % 2 ^ 16 }

def decNlink (ip : Fs.Dinode) : Fs.Dinode := { ip with nlink := (ip.nlink + (2 ^ 16 - 1)) % 2 ^ 16 }

/-- The entry of the inode table and the offset. -/
def dirlookup (sys : Sys) (dp : Nat) (name : Nat → UInt8) :
    Except Panic (Option (Nat × Nat) × Sys) :=
  if typeOf sb sys dp ≠ T_DIR then .error .dirlookupNotDir
  else do
    let i := (sys.inode dp).inum
    let (r, disk) ← dirlookupLoop sb i name (rounds sb sys.disk i) 0 sys.disk
    let sys := { sys with disk := disk }
    match r with
    | none => return (none, sys)
    | some (inum, off) =>
      let (k, sys) ← kern (iget sys inum)
      return (some (k, off), sys)

/-- False is the result -1. -/
def dirlink (sys : Sys) (dp : Nat) (name : Nat → UInt8) (inum : Nat) : Except Panic (Bool × Sys) :=
  do
  match ← dirlookup sb sys dp name with
  | (some (ip, _), sys) =>
    let sys ← iput sb sys ip
    return (false, sys)
  | (none, sys) =>
    let i := (sys.inode dp).inum
    let (off, disk) ← dirlinkLoop sb i (rounds sb sys.disk i) 0 sys.disk
    let disk ← writeDirent sb disk i off (putDirent inum (strncpy name DIRSIZ 0)) .dirlink
    return (true, { sys with disk := disk })

def isdirempty (sys : Sys) (dp : Nat) : Except Panic (Bool × Sys) := do
  let i := (sys.inode dp).inum
  let (r, disk) ← isdiremptyLoop sb i (rounds sb sys.disk i) (2 * direntSize) sys.disk
  return (r, { sys with disk := disk })

/-! ## Paths -/

def literal (s : List UInt8) : Nat → UInt8 := fun i => s.getD i 0

def dot : Nat → UInt8 := literal [46]

def dotdot : Nat → UInt8 := literal [46, 46]

/-- The part of `create` for a new directory `ip` in `dp`. -/
def createDots (sys : Sys) (dp ip : Nat) : Except Panic Sys := do
  let sys := update sb sys dp incNlink
  match ← dirlink sb sys ip dot (sys.inode ip).inum with
  | (false, _) => throw .createDots
  | (true, sys) =>
    match ← dirlink sb sys ip dotdot (sys.inode dp).inum with
    | (false, _) => throw .createDots
    | (true, sys) => return sys

/-- The part of `create` for a name that is not in the locked directory `dp`. -/
def createNew (sys : Sys) (dp : Nat) (name : Nat → UInt8) (type major minor : Nat) :
    Except Panic (Nat × Sys) := do
  let (inum, disk) ← fsys (Fs.ialloc sb sys.disk type)
  let (ip, sys) ← kern (iget { sys with disk := disk } inum)
  let sys ← ilock sb sys ip
  let sys := update sb sys ip fun x => { x with major := major, minor := minor, nlink := 1 }
  let sys ← if type = T_DIR then createDots sb sys dp ip else .ok sys
  match ← dirlink sb sys dp name (sys.inode ip).inum with
  | (false, _) => throw .createDirlink
  | (true, sys) =>
    let sys ← iput sb sys dp
    return (ip, sys)

/-- The part of `create` under the lock of `dp`: whether the inode is new, and the inode. -/
def createLocked (sys : Sys) (dp : Nat) (name : Nat → UInt8) (type major minor : Nat) :
    Except Panic (Bool × Nat × Sys) := do
  let sys ← ilock sb sys dp
  match ← dirlookup sb sys dp name with
  | (some (ip, _), sys) =>
    let sys ← iput sb sys dp
    return (false, ip, sys)
  | (none, sys) =>
    let (ip, sys) ← createNew sb sys dp name type major minor
    return (true, ip, sys)

/-! ## `sys_link` and `sys_unlink` -/

/-- `ilock(dp)`, `dirlink` and `iunlockput(dp)` of `sys_link`. -/
def linkAt (sys : Sys) (dp : Nat) (name : Nat → UInt8) (ip : Nat) : Except Panic (Bool × Sys) := do
  let sys ← ilock sb sys dp
  let (ok, sys) ← dirlink sb sys dp name (sys.inode ip).inum
  let sys ← iput sb sys dp
  return (ok, sys)

def linkBad (sys : Sys) (ip : Nat) : Except Panic Sys := do
  let sys ← ilock sb sys ip
  iput sb (update sb sys ip decNlink) ip

/-- The part of `sys_unlink` for the entry at `off` of `dp`, which names `ip`. -/
def unlinkEntry (sys : Sys) (dp ip off : Nat) : Except Panic (Bool × Sys) := do
  -- the lock of `dp` is held
  if ip = dp then throw .deadlock
  else
    let sys ← ilock sb sys ip
    -- `nlink` is a `short`
    if (sys.dinode sb ip).nlink = 0 ∨ 2 ^ 15 ≤ (sys.dinode sb ip).nlink then throw .unlinkNlink
    else
      let dir := decide (typeOf sb sys ip = T_DIR)
      let (empty, sys) ← if dir then isdirempty sb sys ip else .ok (true, sys)
      if !empty then
        let sys ← iput sb sys ip
        let sys ← iput sb sys dp
        return (false, sys)
      else
        let disk ← writeDirent sb sys.disk (sys.inode dp).inum off zeroDirent .unlinkWritei
        let sys := { sys with disk := disk }
        let sys := if dir then update sb sys dp decNlink else sys
        let sys ← iput sb sys dp
        let sys ← iput sb (update sb sys ip decNlink) ip
        return (true, sys)

/-- `sys_unlink` once `nameiparent` has returned. -/
def unlinkAt (sys : Sys) (dp : Nat) (name : Nat → UInt8) : Except Panic (Bool × Sys) := do
  let sys ← ilock sb sys dp
  if namecmp name dot = 0 ∨ namecmp name dotdot = 0 then
    let sys ← iput sb sys dp
    return (false, sys)
  else
    match ← dirlookup sb sys dp name with
    | (none, sys) =>
      let sys ← iput sb sys dp
      return (false, sys)
    | (some (ip, off), sys) => unlinkEntry sb sys dp ip off

end

end Xv6.Names
