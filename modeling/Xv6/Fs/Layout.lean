import Xv6.Lib.Bits
import Xv6.Param

/-! # On-disk layout of the file system

The superblock's geometry, the `dinode` codec of an inode block and the entries of
an indirect block, as `fs.h` lays them out.
-/

namespace Xv6.Fs

open Lib

def NDIRECT : Nat := 12

def NINDIRECT : Nat := BSIZE / 4

def MAXFILE : Nat := NDIRECT + NINDIRECT

def dinodeSize : Nat := 64

def IPB : Nat := BSIZE / dinodeSize

def BPB : Nat := BSIZE * 8

/-- The fields of `struct superblock` that the file system reads, laid out as `mkfs`
does: the log, the inode blocks, the bitmap blocks and then `nblocks` data blocks. -/
structure Superblock where
  size : Nat
  nblocks : Nat
  ninodes : Nat
  inodestart : Nat
  bmapstart : Nat
  inodestart_pos : 0 < inodestart
  inodes_fit : ∀ i, i < ninodes → i / IPB + inodestart < bmapstart
  bmapstart_lt : bmapstart < size - nblocks
  bitmap_fits : ∀ b, b < size → b / BPB + bmapstart < size - nblocks
  size_fits : size + BPB ≤ 2 ^ 31

namespace Superblock

theorem layout_inodes_fit {start ninodes i : Nat} (h : i < ninodes) :
    i / IPB + start < start + (ninodes / IPB + 1) := by
  have := Nat.div_le_div_right (c := IPB) h.le
  omega

theorem layout_bitmap_fits {bmapstart nblocks b : Nat} (hsize : bmapstart + 1 + nblocks ≤ BPB)
    (h : b < bmapstart + 1 + nblocks) :
    b / BPB + bmapstart < bmapstart + 1 + nblocks - nblocks := by
  rw [Nat.div_eq_of_lt (h.trans_le hsize)]
  omega

theorem layout_size_fits {size : Nat} (h : size ≤ BPB) : size + BPB ≤ 2 ^ 31 := by
  simp only [BPB, BSIZE] at h ⊢
  omega

/-- The superblock that `mkfs` writes, with `start` blocks in front of the inodes and one bitmap
block. -/
def layout (start ninodes nblocks : Nat) (hstart : 0 < start)
    (hsize : start + (ninodes / IPB + 1) + 1 + nblocks ≤ BPB) : Superblock where
  size := start + (ninodes / IPB + 1) + 1 + nblocks
  nblocks := nblocks
  ninodes := ninodes
  inodestart := start
  bmapstart := start + (ninodes / IPB + 1)
  inodestart_pos := hstart
  inodes_fit _ hi := layout_inodes_fit hi
  bmapstart_lt := by omega
  bitmap_fits _ hb := layout_bitmap_fits hsize hb
  size_fits := layout_size_fits hsize

def datastart (sb : Superblock) : Nat := sb.size - sb.nblocks

/-- `IBLOCK(i, sb)`, the block that holds inode `i`. -/
def IBLOCK (sb : Superblock) (i : Nat) : Nat := i / IPB + sb.inodestart

/-- `BBLOCK(b, sb)`, the bitmap block that holds the bit of block `b`. -/
def BBLOCK (sb : Superblock) (b : Nat) : Nat := b / BPB + sb.bmapstart

variable {sb : Superblock} {i b : Nat}

theorem IBLOCK_lt (hi : i < sb.ninodes) : sb.IBLOCK i < sb.bmapstart := sb.inodes_fit i hi

theorem bmapstart_le_BBLOCK : sb.bmapstart ≤ sb.BBLOCK b := Nat.le_add_left _ _

theorem BBLOCK_lt (hb : b < sb.size) : sb.BBLOCK b < sb.datastart := sb.bitmap_fits b hb

theorem IBLOCK_ne_BBLOCK (hi : i < sb.ninodes) : sb.IBLOCK i ≠ sb.BBLOCK b := by
  have := IBLOCK_lt hi
  have := @bmapstart_le_BBLOCK sb b
  omega

theorem IBLOCK_lt_datastart (hi : i < sb.ninodes) : sb.IBLOCK i < sb.datastart :=
  (IBLOCK_lt hi).trans sb.bmapstart_lt

theorem datastart_pos (sb : Superblock) : 0 < sb.datastart :=
  Nat.zero_lt_of_lt sb.bmapstart_lt

end Superblock

/-! ## Inodes -/

/-- `struct dinode`, and the part of `struct inode` that copies it. The fields are
values of the C types `short` and `uint`, taken without sign. -/
structure Dinode where
  type : Nat
  major : Nat
  minor : Nat
  nlink : Nat
  size : Nat
  addrs : Nat → Nat

/-- The field values that `struct dinode` can hold. -/
structure Dinode.Fits (ip : Dinode) : Prop where
  type : ip.type < 2 ^ 16
  major : ip.major < 2 ^ 16
  minor : ip.minor < 2 ^ 16
  nlink : ip.nlink < 2 ^ 16
  size : ip.size < 2 ^ 32
  addrs : ∀ k, ip.addrs k < 2 ^ 32
  addrs_past : ∀ k, NDIRECT < k → ip.addrs k = 0

def Dinode.zeroed (type : Nat) : Dinode := ⟨type, 0, 0, 0, 0, fun _ => 0⟩

/-- Byte `k` of the `struct dinode` that stores an inode. -/
def Dinode.byte (ip : Dinode) (k : Nat) : UInt8 :=
  if k < 2 then .ofNat (ip.type / 256 ^ k)
  else if k < 4 then .ofNat (ip.major / 256 ^ (k - 2))
  else if k < 6 then .ofNat (ip.minor / 256 ^ (k - 4))
  else if k < 8 then .ofNat (ip.nlink / 256 ^ (k - 6))
  else if k < 12 then .ofNat (ip.size / 256 ^ (k - 8))
  else .ofNat (ip.addrs ((k - 12) / 4) / 256 ^ ((k - 12) % 4))

def getDinode (blk : Block) (i : Nat) : Dinode where
  type := blk.getLE (dinodeSize * i) 2
  major := blk.getLE (dinodeSize * i + 2) 2
  minor := blk.getLE (dinodeSize * i + 4) 2
  nlink := blk.getLE (dinodeSize * i + 6) 2
  size := blk.getLE (dinodeSize * i + 8) 4
  addrs k := if k ≤ NDIRECT then blk.getLE (dinodeSize * i + 12 + 4 * k) 4 else 0

def putDinode (blk : Block) (i : Nat) (ip : Dinode) : Block :=
  blk.blit (dinodeSize * i) dinodeSize ip.byte

theorem getDinode_fits (blk : Block) (i : Nat) : (getDinode blk i).Fits := by
  refine ⟨?_, ?_, ?_, ?_, ?_, ?_, ?_⟩
  · exact Bytes.getLE_lt blk _ 2
  · exact Bytes.getLE_lt blk _ 2
  · exact Bytes.getLE_lt blk _ 2
  · exact Bytes.getLE_lt blk _ 2
  · exact Bytes.getLE_lt blk _ 4
  · intro k
    by_cases hk : k ≤ NDIRECT
    · simp only [getDinode, hk, if_true]
      exact Bytes.getLE_lt blk _ 4
    · simp [getDinode, hk]
  · intro k hk
    simp [getDinode, Nat.not_le.mpr hk]

theorem getLE_putDinode {blk : Block} {i o w v : Nat} {ip : Dinode} (hi : i < IPB)
    (hw : o + w ≤ dinodeSize) (hv : v < 256 ^ w)
    (hbyte : ∀ k, k < w → ip.byte (o + k) = .ofNat (v / 256 ^ k)) :
    (putDinode blk i ip).getLE (dinodeSize * i + o) w = v := by
  rw [← Nat.mod_eq_of_lt hv]
  apply Bytes.getLE_of_digits
  intro k hk
  have hin : dinodeSize * i + o + k < BSIZE ∧ dinodeSize * i ≤ dinodeSize * i + o + k ∧
      dinodeSize * i + o + k < dinodeSize * i + dinodeSize := by
    simp only [IPB, BSIZE, dinodeSize] at hi hw ⊢
    omega
  rw [putDinode, Bytes.get_blit, if_pos hin, ← hbyte k hk]
  congr 1
  omega

theorem getDinode_putDinode_self {blk : Block} {i : Nat} {ip : Dinode} (hi : i < IPB)
    (hip : ip.Fits) : getDinode (putDinode blk i ip) i = ip := by
  obtain ⟨type, major, minor, nlink, size, addrs⟩ := ip
  have hfield := @getLE_putDinode blk i
  simp only [getDinode, Dinode.mk.injEq]
  refine ⟨?_, ?_, ?_, ?_, ?_, ?_⟩
  · refine hfield (o := 0) hi (by decide) hip.type (fun k hk => ?_)
    simp [Dinode.byte, hk]
  · refine hfield hi (by decide) hip.major (fun k hk => ?_)
    simp [Dinode.byte, show ¬ 2 + k < 2 by omega, show 2 + k < 4 by omega]
  · refine hfield hi (by decide) hip.minor (fun k hk => ?_)
    simp [Dinode.byte, show ¬ 4 + k < 2 by omega, show ¬ 4 + k < 4 by omega,
      show 4 + k < 6 by omega]
  · refine hfield hi (by decide) hip.nlink (fun k hk => ?_)
    simp [Dinode.byte, show ¬ 6 + k < 2 by omega, show ¬ 6 + k < 4 by omega,
      show ¬ 6 + k < 6 by omega, show 6 + k < 8 by omega]
  · refine hfield hi (by decide) hip.size (fun k hk => ?_)
    simp [Dinode.byte, show ¬ 8 + k < 2 by omega, show ¬ 8 + k < 4 by omega,
      show ¬ 8 + k < 6 by omega, show ¬ 8 + k < 8 by omega, show 8 + k < 12 by omega]
  · funext j
    by_cases hj : j ≤ NDIRECT
    · rw [if_pos hj, Nat.add_assoc]
      simp only [NDIRECT] at hj
      refine hfield (o := 12 + 4 * j) hi (by simp only [dinodeSize]; omega) (hip.addrs j)
        (fun k hk => ?_)
      have hdiv : (12 + 4 * j + k - 12) / 4 = j := by omega
      have hmod : (12 + 4 * j + k - 12) % 4 = k := by omega
      simp only [Dinode.byte, show ¬ 12 + 4 * j + k < 2 by omega,
        show ¬ 12 + 4 * j + k < 4 by omega, show ¬ 12 + 4 * j + k < 6 by omega,
        show ¬ 12 + 4 * j + k < 8 by omega, show ¬ 12 + 4 * j + k < 12 by omega, if_false, hdiv,
        hmod]
    · rw [if_neg hj]
      exact (hip.addrs_past j (by omega)).symm

theorem getDinode_putDinode_of_ne {blk : Block} {i j : Nat} {ip : Dinode} (hij : j ≠ i) :
    getDinode (putDinode blk i ip) j = getDinode blk j := by
  have hout : ∀ o w, o + w ≤ dinodeSize →
      (putDinode blk i ip).getLE (dinodeSize * j + o) w = blk.getLE (dinodeSize * j + o) w := by
    intro o w hw
    apply Bytes.getLE_congr
    intro k hk
    rw [putDinode, Bytes.get_blit, if_neg]
    simp only [dinodeSize] at hw ⊢
    omega
  simp only [getDinode, Dinode.mk.injEq]
  refine ⟨hout 0 2 (by decide), hout 2 2 (by decide), hout 4 2 (by decide), hout 6 2 (by decide),
    hout 8 4 (by decide), ?_⟩
  funext k
  split
  · rename_i hk
    simp only [NDIRECT] at hk
    rw [Nat.add_assoc]
    exact hout (12 + 4 * k) 4 (by simp only [dinodeSize]; omega)
  · rfl

/-! ## Indirect blocks -/

def getEntry (blk : Block) (j : Nat) : Nat := blk.getLE (4 * j) 4

def putEntry (blk : Block) (j v : Nat) : Block := blk.putLE (4 * j) 4 v

theorem getEntry_putEntry {blk : Block} {j v : Nat} (hj : j < NINDIRECT)
    (hv : v < 2 ^ 32) (k : Nat) :
    getEntry (putEntry blk j v) k = if k = j then v else getEntry blk k := by
  simp only [NINDIRECT, BSIZE] at hj
  by_cases hkj : k = j
  · subst hkj
    rw [if_pos rfl]
    exact Bytes.getLE_putLE_of_lt (by simp only [BSIZE]; omega) hv
  · rw [if_neg hkj]
    exact Bytes.getLE_putLE_of_disjoint (by omega)

@[simp] theorem getEntry_zero (j : Nat) : getEntry Bytes.zero j = 0 := by
  simp [getEntry, Bytes.getLE]

end Xv6.Fs
