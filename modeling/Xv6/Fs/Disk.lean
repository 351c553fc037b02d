import Mathlib.Logic.Function.Basic
import Xv6.Fs.Layout

/-! # Blocks, the bitmap and the inode blocks

The disk as file-system code sees it through the buffer cache, and what the code
makes of it: the inodes, the bitmap and the data blocks. Each way the code changes
a block is an update of exactly one of these.
-/

namespace Xv6.Fs

open Function Lib

inductive Panic where
  | ballocOutOfBlocks
  | freeingFreeBlock
  | bmapOutOfRange
  | iallocNoInodes
  | ilockNoType
deriving DecidableEq, Repr

/-- `cached` is the data `bread` returns. `logged` is the data of the last
`log_write` of a block (or its data on disk): what `bread` returns once the block's
buffer is recycled. `trace` lists the blocks passed to `log_write`. -/
structure Disk where
  cached : Nat → Block
  logged : Nat → Block
  trace : List Nat

namespace Disk

variable {sb : Superblock} {d : Disk} {b c i : Nat} {blk : Block}

def scribble (d : Disk) (b : Nat) (blk : Block) : Disk :=
  { d with cached := update d.cached b blk }

def put (d : Disk) (b : Nat) (blk : Block) : Disk where
  cached := update d.cached b blk
  logged := update d.logged b blk
  trace := d.trace ++ [b]

/-- `bget` takes the buffer of block `b` for another block. -/
def recycle (d : Disk) (b : Nat) : Disk :=
  { d with cached := update d.cached b (d.logged b) }

end Disk

/-! ## The typed view -/

/-- What a disk holds: inodes by number, the blocks marked in use, the data blocks. -/
structure View where
  inode : Nat → Dinode
  used : Nat → Bool
  data : Nat → Block

def Disk.view (sb : Superblock) (d : Disk) : View where
  inode i := if i < sb.ninodes then getDinode (d.cached (sb.IBLOCK i)) (i % IPB) else .zeroed 0
  used b := if b < sb.size then (d.cached (sb.BBLOCK b)).getBit (b % BPB) else false
  data b := if sb.datastart ≤ b then d.cached b else Bytes.zero

/-- `balloc` and `bfree` on the bitmap: mark block `b` in use, or free. -/
def Disk.mark (sb : Superblock) (d : Disk) (b : Nat) : Disk :=
  d.put (sb.BBLOCK b) ((d.cached (sb.BBLOCK b)).setBit (b % BPB))

def Disk.unmark (sb : Superblock) (d : Disk) (b : Nat) : Disk :=
  d.put (sb.BBLOCK b) ((d.cached (sb.BBLOCK b)).clearBit (b % BPB))

def iupdate (sb : Superblock) (d : Disk) (i : Nat) (ip : Dinode) : Disk :=
  d.put (sb.IBLOCK i) (putDinode (d.cached (sb.IBLOCK i)) (i % IPB) ip)

section View

variable {sb : Superblock} {d : Disk} {b c i : Nat} {blk : Block}

theorem view_data (hb : sb.datastart ≤ b) : (d.view sb).data b = d.cached b := if_pos hb

theorem view_used (hb : b < sb.size) :
    (d.view sb).used b = (d.cached (sb.BBLOCK b)).getBit (b % BPB) := if_pos hb

theorem view_scribble (hb : sb.datastart ≤ b) :
    (d.scribble b blk).view sb =
      { d.view sb with data := update (d.view sb).data b blk } := by
  simp only [Disk.view, Disk.scribble, View.mk.injEq]
  refine ⟨?_, ?_, ?_⟩
  · funext i
    split
    · rename_i hi
      have := Superblock.IBLOCK_lt_datastart hi
      rw [update_of_ne (by omega)]
    · rfl
  · funext c
    split
    · rename_i hc
      have := Superblock.BBLOCK_lt hc
      rw [update_of_ne (by omega)]
    · rfl
  · funext c
    by_cases hcb : c = b
    · subst hcb
      simp [hb]
    · simp [update_of_ne hcb]

theorem view_put (hb : sb.datastart ≤ b) :
    (d.put b blk).view sb =
      { d.view sb with data := update (d.view sb).data b blk } :=
  view_scribble hb

theorem eq_of_div_mod_BPB (hdiv : c / BPB = b / BPB) (hmod : c % BPB = b % BPB) : c = b := by
  rw [← Nat.div_add_mod c BPB, hdiv, hmod, Nat.div_add_mod]

/-- Changing the bit of block `b` in its bitmap block changes the use of `b`. -/
theorem view_put_bit (hb : b < sb.size) (v : Bool)
    (hbit : ∀ k, blk.getBit k = if k = b % BPB then v else (d.cached (sb.BBLOCK b)).getBit k) :
    (d.put (sb.BBLOCK b) blk).view sb =
      { d.view sb with used := update (d.view sb).used b v } := by
  simp only [Disk.view, Disk.put, View.mk.injEq]
  refine ⟨?_, ?_, ?_⟩
  · funext i
    split
    · rename_i hi
      rw [update_of_ne (Superblock.IBLOCK_ne_BBLOCK hi)]
    · rfl
  · funext c
    by_cases hcb : c = b
    · subst hcb
      rw [if_pos hb, update_self, update_self, hbit, if_pos rfl]
    · rw [update_of_ne hcb]
      by_cases hdiv : c / BPB = b / BPB
      · have hmod : c % BPB ≠ b % BPB := fun hmod => hcb (eq_of_div_mod_BPB hdiv hmod)
        rw [show sb.BBLOCK c = sb.BBLOCK b by simp only [Superblock.BBLOCK, hdiv],
          update_self, hbit, if_neg hmod]
      · rw [update_of_ne (by simp only [Superblock.BBLOCK]; omega)]
  · funext c
    split
    · have := @Superblock.BBLOCK_lt sb b hb
      rw [update_of_ne (by omega)]
    · rfl

theorem mod_BPB_lt (b : Nat) : b % BPB < 8 * BSIZE := Nat.mod_lt _ (by decide)

theorem view_mark (hb : b < sb.size) :
    (d.mark sb b).view sb =
      { d.view sb with used := update (d.view sb).used b true } := by
  refine view_put_bit hb true fun k => ?_
  rw [Bytes.getBit_setBit _ (mod_BPB_lt b)]
  by_cases hk : k = b % BPB <;> simp [hk]

theorem view_unmark (hb : b < sb.size) :
    (d.unmark sb b).view sb =
      { d.view sb with used := update (d.view sb).used b false } := by
  refine view_put_bit hb false fun k => ?_
  rw [Bytes.getBit_clearBit _ (mod_BPB_lt b)]
  by_cases hk : k = b % BPB <;> simp [hk]

theorem view_iupdate {ip : Dinode} (hi : i < sb.ninodes) (hip : ip.Fits) :
    (iupdate sb d i ip).view sb =
      { d.view sb with inode := update (d.view sb).inode i ip } := by
  simp only [Disk.view, iupdate, Disk.put, View.mk.injEq]
  refine ⟨?_, ?_, ?_⟩
  · funext j
    by_cases hji : j = i
    · subst hji
      rw [if_pos hi, update_self, update_self,
        getDinode_putDinode_self (Nat.mod_lt _ (by decide)) hip]
    · rw [update_of_ne hji]
      by_cases hdiv : j / IPB = i / IPB
      · have hmod : j % IPB ≠ i % IPB := by
          intro hmod
          exact hji (by rw [← Nat.div_add_mod j IPB, hdiv, hmod, Nat.div_add_mod])
        rw [show sb.IBLOCK j = sb.IBLOCK i by simp only [Superblock.IBLOCK, hdiv],
          update_self, getDinode_putDinode_of_ne hmod]
      · rw [update_of_ne (by simp only [Superblock.IBLOCK]; omega)]
  · funext c
    rw [update_of_ne (Superblock.IBLOCK_ne_BBLOCK hi).symm]
  · funext c
    split
    · have := Superblock.IBLOCK_lt_datastart hi
      rw [update_of_ne (by omega)]
    · rfl

theorem view_inode_fits (i : Nat) : ((d.view sb).inode i).Fits := by
  simp only [Disk.view]
  split
  · exact getDinode_fits _ _
  · refine ⟨?_, ?_, ?_, ?_, ?_, ?_, ?_⟩ <;> simp [Dinode.zeroed]

end View

/-! ## The block allocator -/

/-- The loop of `balloc` over the bitmap blocks from the one that holds the bit of
`b` on; the inner loop looks for a clear bit. -/
def ballocScan (sb : Superblock) (d : Disk) : Nat → Nat → Option Nat
  | 0, _ => none
  | fuel + 1, b =>
    if b < sb.size then
      match (List.range (min BPB (sb.size - b))).find?
          fun bi => !(d.cached (sb.BBLOCK b)).getBit bi with
      | some bi => some (b + bi)
      | none => ballocScan sb d fuel (b + BPB)
    else none

/-- `balloc`: mark the first free block in use and zero it. -/
def balloc (sb : Superblock) (d : Disk) : Except Panic (Nat × Disk) :=
  match ballocScan sb d (sb.size / BPB + 1) 0 with
  | some b => .ok (b, (d.mark sb b).put b Bytes.zero)
  | none => .error .ballocOutOfBlocks

def bfree (sb : Superblock) (d : Disk) (b : Nat) : Except Panic Disk :=
  if (d.cached (sb.BBLOCK b)).getBit (b % BPB) then .ok (d.unmark sb b)
  else .error .freeingFreeBlock

section Alloc

variable {sb : Superblock} {d d' : Disk} {b c fuel : Nat}

theorem ballocScan_some (hb : b % BPB = 0) (h : ballocScan sb d fuel b = some c) :
    c < sb.size ∧ (d.view sb).used c = false := by
  induction fuel generalizing b with
  | zero => cases h
  | succ fuel ih =>
    simp only [ballocScan] at h
    split at h
    · split at h
      · rename_i hlt bi hfind
        cases h
        have hmem := List.mem_range.mp (List.mem_of_find?_eq_some hfind)
        have hfree := List.find?_some hfind
        have hdiv : (b + bi) / BPB = b / BPB := by
          simp only [BPB, BSIZE] at hb hmem ⊢
          omega
        have hmod : (b + bi) % BPB = bi := by
          simp only [BPB, BSIZE] at hb hmem ⊢
          omega
        have hsize : b + bi < sb.size := by omega
        refine ⟨hsize, ?_⟩
        rw [view_used hsize, hmod, show sb.BBLOCK (b + bi) = sb.BBLOCK b by
          simp only [Superblock.BBLOCK, hdiv]]
        simpa using hfree
      · exact ih (by simp [hb]) h
    · cases h

theorem ballocScan_none (hb : b % BPB = 0) (hfuel : sb.size < b + fuel * BPB)
    (h : ballocScan sb d fuel b = none) :
    ∀ c, b ≤ c → c < sb.size → (d.view sb).used c = true := by
  induction fuel generalizing b with
  | zero =>
    intro c hbc hc
    omega
  | succ fuel ih =>
    intro c hbc hc
    simp only [ballocScan, show b < sb.size by omega, if_true] at h
    split at h
    · cases h
    · rename_i hnone
      by_cases hin : c < b + BPB
      · have hall := List.find?_eq_none.mp hnone (c - b) (List.mem_range.mpr (by omega))
        have hdiv : c / BPB = b / BPB := by
          simp only [BPB, BSIZE] at hb hin ⊢
          omega
        have hmod : c % BPB = c - b := by
          simp only [BPB, BSIZE] at hb hin ⊢
          omega
        rw [view_used hc, hmod, show sb.BBLOCK c = sb.BBLOCK b by
          simp only [Superblock.BBLOCK, hdiv]]
        simpa using hall
      · refine ih (by simp [hb]) ?_ h c (by omega) hc
        rw [Nat.succ_mul] at hfuel
        omega

theorem balloc_ok (h : balloc sb d = .ok (b, d')) :
    b < sb.size ∧ (d.view sb).used b = false ∧ d' = (d.mark sb b).put b Bytes.zero := by
  unfold balloc at h
  split at h
  · rename_i c hscan
    cases h
    obtain ⟨hlt, hfree⟩ := ballocScan_some (Nat.zero_mod _) hscan
    exact ⟨hlt, hfree, rfl⟩
  · cases h

theorem balloc_error {f : Panic} (h : balloc sb d = .error f) :
    f = .ballocOutOfBlocks ∧ ∀ c, c < sb.size → (d.view sb).used c = true := by
  unfold balloc at h
  split at h
  · cases h
  · rename_i hscan
    cases h
    refine ⟨rfl, fun c hc => ballocScan_none (Nat.zero_mod _) ?_ hscan c (Nat.zero_le _) hc⟩
    have := Nat.div_add_mod sb.size BPB
    have := Nat.mod_lt sb.size (show 0 < BPB by decide)
    rw [Nat.zero_add, Nat.succ_mul, Nat.mul_comm]
    omega

theorem view_balloc (hb : b < sb.size) (hdata : sb.datastart ≤ b) :
    ((d.mark sb b).put b Bytes.zero).view sb =
      { d.view sb with
        used := update (d.view sb).used b true
        data := update (d.view sb).data b Bytes.zero } := by
  rw [view_put hdata, view_mark hb]

theorem bfree_eq (hb : b < sb.size) :
    bfree sb d b =
      if (d.view sb).used b then .ok (d.unmark sb b) else .error .freeingFreeBlock := by
  rw [bfree, view_used hb]

end Alloc

end Xv6.Fs
