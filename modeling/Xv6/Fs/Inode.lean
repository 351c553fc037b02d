import Xv6.Fs.Disk

/-! # Inodes and their contents

`bmap`, `itrunc`, `readi`, `writei`, `ialloc` and the freeing branch of `iput`. Each
works on the in-memory copy `ip` of a locked inode; the calls that change the copy
end with `iupdate`.
-/

namespace Xv6.Fs

open Lib

/-- `ip->addrs[k] = b`. -/
def Dinode.setAddr (ip : Dinode) (k b : Nat) : Dinode :=
  { ip with addrs := Function.update ip.addrs k b }

/-- `ilock`: the in-memory copy of inode `i`. -/
def ilock (sb : Superblock) (d : Disk) (i : Nat) : Except Panic Dinode :=
  if ((d.view sb).inode i).type = 0 then .error .ilockNoType else .ok ((d.view sb).inode i)

/-- `ip->addrs[k]`, allocating a block for it if there is none. -/
def addrOf (sb : Superblock) (d : Disk) (ip : Dinode) (k : Nat) :
    Except Panic (Nat × Dinode × Disk) :=
  if ip.addrs k = 0 then do
    let (b, d) ← balloc sb d
    return (b, ip.setAddr k b, d)
  else return (ip.addrs k, ip, d)

/-- `a[j]` of the indirect block `addr`, allocating a block for it if there is none. -/
def entryOf (sb : Superblock) (d : Disk) (addr j : Nat) : Except Panic (Nat × Disk) :=
  if getEntry (d.cached addr) j = 0 then do
    let (b, d) ← balloc sb d
    return (b, d.put addr (putEntry (d.cached addr) j b))
  else return (getEntry (d.cached addr) j, d)

/-- `bmap`: the block that holds file block `bn`. -/
def bmap (sb : Superblock) (d : Disk) (ip : Dinode) (bn : Nat) :
    Except Panic (Nat × Dinode × Disk) :=
  if bn < NDIRECT then addrOf sb d ip bn
  else if bn - NDIRECT < NINDIRECT then do
    let (addr, ip, d) ← addrOf sb d ip NDIRECT
    let (b, d) ← entryOf sb d addr (bn - NDIRECT)
    return (b, ip, d)
  else .error .bmapOutOfRange

/-! ## Truncation -/

def freeDirect (sb : Superblock) : List Nat → Dinode → Disk → Except Panic (Dinode × Disk)
  | [], ip, d => return (ip, d)
  | k :: ks, ip, d =>
    if ip.addrs k = 0 then freeDirect sb ks ip d
    else do
      let d ← bfree sb d (ip.addrs k)
      freeDirect sb ks (ip.setAddr k 0) d

def freeEntries (sb : Superblock) (blk : Block) : List Nat → Disk → Except Panic Disk
  | [], d => return d
  | j :: js, d =>
    if getEntry blk j = 0 then freeEntries sb blk js d
    else do
      let d ← bfree sb d (getEntry blk j)
      freeEntries sb blk js d

def freeIndirect (sb : Superblock) (ip : Dinode) (d : Disk) : Except Panic (Dinode × Disk) :=
  if ip.addrs NDIRECT = 0 then return (ip, d)
  else do
    let d ← freeEntries sb (d.cached (ip.addrs NDIRECT)) (List.range NINDIRECT) d
    let d ← bfree sb d (ip.addrs NDIRECT)
    return (ip.setAddr NDIRECT 0, d)

def itrunc (sb : Superblock) (d : Disk) (i : Nat) (ip : Dinode) : Except Panic (Dinode × Disk) := do
  let (ip, d) ← freeDirect sb (List.range NDIRECT) ip d
  let (ip, d) ← freeIndirect sb ip d
  return ({ ip with size := 0 }, iupdate sb d i { ip with size := 0 })

/-- `iput` on the last reference to an inode without links: free it. -/
def ifree (sb : Superblock) (d : Disk) (i : Nat) (ip : Dinode) : Except Panic Disk := do
  let (ip, d) ← itrunc sb d i ip
  return iupdate sb d i { ip with type := 0 }

/-- `ialloc`: the first free inode, zeroed and given its type. -/
def ialloc (sb : Superblock) (d : Disk) (type : Nat) : Except Panic (Nat × Disk) :=
  match (List.range' 1 (sb.ninodes - 1)).find? fun i => ((d.view sb).inode i).type = 0 with
  | some i => return (i, iupdate sb d i (.zeroed type))
  | none => .error .iallocNoInodes

/-! ## Reading and writing -/

/-- How many of the `m` bytes from position `k` on a copy moves before it meets an
address it cannot access. -/
def copied (ok : Nat → Bool) (k : Nat) : Nat → Nat
  | 0 => 0
  | m + 1 => if ok k then copied ok (k + 1) m + 1 else 0

/-- The bytes `o ..< o + m` of a block. -/
def slice (blk : Block) (o m : Nat) : List UInt8 := (List.range m).map fun k => blk.get (o + k)

/-- The loop of `readi`; `acc` holds the bytes copied out so far. `dst k` says
whether the `k`-th destination address can be written. -/
def readiLoop (sb : Superblock) (dst : Nat → Bool) (n : Nat) : Nat → Nat → Nat → Dinode → Disk →
    List UInt8 → Except Panic (Int × List UInt8 × Dinode × Disk)
  | 0, tot, _, ip, d, acc => return (tot, acc, ip, d)
  | fuel + 1, tot, off, ip, d, acc =>
    if tot < n then do
      let (addr, ip, d) ← bmap sb d ip (off / BSIZE)
      let m := min (n - tot) (BSIZE - off % BSIZE)
      let c := copied dst tot m
      let acc := acc ++ slice (d.cached addr) (off % BSIZE) c
      if c = m then readiLoop sb dst n fuel (tot + m) (off + m) ip d acc
      else return (-1, acc, ip, d)
    else return (tot, acc, ip, d)

/-- `readi`: its return value and the bytes it has copied out. -/
def readi (sb : Superblock) (d : Disk) (ip : Dinode) (dst : Nat → Bool) (off n : Nat) :
    Except Panic (Int × List UInt8 × Dinode × Disk) :=
  if off > ip.size ∨ (off + n) % 2 ^ 32 < off then return (0, [], ip, d)
  else
    let n := if (off + n) % 2 ^ 32 > ip.size then ip.size - off else n
    readiLoop sb dst n n 0 off ip d []

/-- The loop of `writei`. `src k` is the `k`-th source byte, if it can be read. A
copy that fails has already changed the buffer and skips `log_write`. -/
def writeiLoop (sb : Superblock) (src : Nat → Option UInt8) (n : Nat) : Nat → Nat → Nat → Dinode →
    Disk → Except Panic (Nat × Nat × Dinode × Disk)
  | 0, tot, off, ip, d => return (tot, off, ip, d)
  | fuel + 1, tot, off, ip, d =>
    if tot < n then do
      let (addr, ip, d) ← bmap sb d ip (off / BSIZE)
      let m := min (n - tot) (BSIZE - off % BSIZE)
      let c := copied (fun k => (src k).isSome) tot m
      let blk := (d.cached addr).blit (off % BSIZE) c fun k => (src (tot + k)).getD 0
      if c = m then writeiLoop sb src n fuel (tot + m) (off + m) ip (d.put addr blk)
      else return (tot, off, ip, d.scribble addr blk)
    else return (tot, off, ip, d)

def writei (sb : Superblock) (d : Disk) (i : Nat) (ip : Dinode) (src : Nat → Option UInt8)
    (off n : Nat) : Except Panic (Int × Dinode × Disk) :=
  if off > ip.size ∨ (off + n) % 2 ^ 32 < off then return (-1, ip, d)
  else if (off + n) % 2 ^ 32 > MAXFILE * BSIZE then return (-1, ip, d)
  else do
    let (tot, off, ip, d) ← writeiLoop sb src n n 0 off ip d
    let ip := if off > ip.size then { ip with size := off } else ip
    return (tot, ip, iupdate sb d i ip)

end Xv6.Fs
