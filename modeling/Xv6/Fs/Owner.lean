import Xv6.Fs.Inode
import Xv6.Lib.Ownership

/-! # Which inode owns a block

Every place that can hold a block number is a slot: `addrs[k]` of an inode is its
slot `k`, and entry `j` of the inode's indirect block is slot `NDIRECT + 1 + j`. The
block-allocation invariant says that the slots of the allocated inodes own their
blocks, in the sense of `Lib.Owns`, and that files have no holes below their size.
-/

namespace Xv6.Fs

open Function Lib

def slotPtr (data : Nat → Block) (ip : Dinode) (k : Nat) : Nat :=
  if k ≤ NDIRECT then ip.addrs k
  else if k < NDIRECT + 1 + NINDIRECT ∧ ip.addrs NDIRECT ≠ 0 then
    getEntry (data (ip.addrs NDIRECT)) (k - (NDIRECT + 1))
  else 0

def fileSlot (bn : Nat) : Nat := if bn < NDIRECT then bn else bn + 1

def filePtr (data : Nat → Block) (ip : Dinode) (bn : Nat) : Nat := slotPtr data ip (fileSlot bn)

namespace View

variable (sb : Superblock) (v : View)

def Allocated (i : Nat) : Prop := i < sb.ninodes ∧ (v.inode i).type ≠ 0

instance (i : Nat) : Decidable (v.Allocated sb i) := inferInstanceAs (Decidable (_ ∧ _))

/-- The block number in a slot (inode, index) of an allocated inode. -/
def owner (x : Nat × Nat) : Nat :=
  if v.Allocated sb x.1 then slotPtr v.data (v.inode x.1) x.2 else 0

/-- The view in which inode `i` has its in-memory copy `ip`. -/
def withInode (v : View) (i : Nat) (ip : Dinode) : View :=
  { v with inode := update v.inode i ip }

end View

structure AllocInv (sb : Superblock) (v : View) : Prop where
  owns : Owns (v.owner sb) sb.datastart sb.size v.used
  noHole : ∀ i, v.Allocated sb i → ∀ bn, bn * BSIZE < (v.inode i).size →
    bn < MAXFILE ∧ filePtr v.data (v.inode i) bn ≠ 0

section

variable {sb : Superblock} {v : View} {i k b : Nat} {ip : Dinode}

theorem slotPtr_le (data : Nat → Block) (hk : k ≤ NDIRECT) : slotPtr data ip k = ip.addrs k :=
  if_pos hk

theorem slotPtr_entry {data : Nat → Block} {j : Nat} (hj : j < NINDIRECT)
    (ha : ip.addrs NDIRECT ≠ 0) :
    slotPtr data ip (NDIRECT + 1 + j) = getEntry (data (ip.addrs NDIRECT)) j := by
  rw [slotPtr, if_neg (by omega), if_pos ⟨by omega, ha⟩, Nat.add_sub_cancel_left]

theorem slotPtr_of_no_indirect {data : Nat → Block} (hk : NDIRECT < k)
    (ha : ip.addrs NDIRECT = 0) : slotPtr data ip k = 0 := by
  rw [slotPtr, if_neg (by omega), if_neg (fun h => h.2 ha)]

/-- The slots of an inode depend on its addresses and its indirect block only. -/
theorem slotPtr_congr {data data' : Nat → Block} {ip' : Dinode} (haddr : ip'.addrs = ip.addrs)
    (h : ip.addrs NDIRECT ≠ 0 → data' (ip.addrs NDIRECT) = data (ip.addrs NDIRECT)) :
    slotPtr data' ip' k = slotPtr data ip k := by
  unfold slotPtr
  rw [haddr]
  split
  · rfl
  · split
    · rename_i hk
      rw [h hk.2]
    · rfl

theorem owner_of_allocated (h : v.Allocated sb i) (k : Nat) :
    v.owner sb (i, k) = slotPtr v.data (v.inode i) k := if_pos h

theorem owner_of_not_allocated (h : ¬ v.Allocated sb i) (k : Nat) : v.owner sb (i, k) = 0 :=
  if_neg h

@[simp] theorem withInode_self (v : View) (i : Nat) (ip : Dinode) :
    (v.withInode i ip).inode i = ip := update_self _ _ _

theorem withInode_ne {j : Nat} (h : j ≠ i) : (v.withInode i ip).inode j = v.inode j :=
  update_of_ne h _ _

theorem withInode_eq (h : v.inode i = ip) : v.withInode i ip = v := by
  subst h
  simp [View.withInode]

theorem Dinode.setAddr_of_ne {j : Nat} (h : j ≠ k) : (ip.setAddr k b).addrs j = ip.addrs j :=
  update_of_ne h _ _

@[simp] theorem Dinode.setAddr_self : (ip.setAddr k b).addrs k = b := update_self _ _ _

theorem Dinode.Fits.setAddr (h : ip.Fits) (hk : k ≤ NDIRECT) (hb : b < 2 ^ 32) :
    (ip.setAddr k b).Fits := by
  refine ⟨h.type, h.major, h.minor, h.nlink, h.size, ?_, ?_⟩
  · intro j
    by_cases hj : j = k
    · subst hj
      rwa [Dinode.setAddr_self]
    · rw [Dinode.setAddr_of_ne hj]
      exact h.addrs j
  · intro j hj
    rw [Dinode.setAddr_of_ne (by omega)]
    exact h.addrs_past j hj

theorem Superblock.lt_of_lt_size (sb : Superblock) (hb : b < sb.size) : b < 2 ^ 32 := by
  have := sb.size_fits
  omega

/-! ## What allocating and freeing does to the owners -/

theorem owner_indirect (h : v.Allocated sb i) :
    v.owner sb (i, NDIRECT) = (v.inode i).addrs NDIRECT := by
  rw [owner_of_allocated h, slotPtr_le _ (Nat.le_refl _)]

/-- A change of data blocks that spares the indirect blocks spares the slots. -/
theorem owner_congr {v' : View} (hinode : v'.inode = v.inode)
    (hdata : ∀ j, v.Allocated sb j → (v.inode j).addrs NDIRECT ≠ 0 →
      v'.data ((v.inode j).addrs NDIRECT) = v.data ((v.inode j).addrs NDIRECT)) :
    v'.owner sb = v.owner sb := by
  funext x
  obtain ⟨j, l⟩ := x
  by_cases hj : v.Allocated sb j
  · have hj' : v'.Allocated sb j := by rwa [View.Allocated, hinode]
    rw [owner_of_allocated hj, owner_of_allocated hj', hinode]
    exact slotPtr_congr rfl (hdata j hj)
  · have hj' : ¬ v'.Allocated sb j := by rwa [View.Allocated, hinode]
    rw [owner_of_not_allocated hj, owner_of_not_allocated hj']

/-- Filling the empty slot `k ≤ NDIRECT` of inode `i` with a zeroed block `b`. -/
theorem owner_setAddr {used : Nat → Bool} (hown : Owns (v.owner sb) sb.datastart sb.size v.used)
    (hi : v.Allocated sb i) (hk : k ≤ NDIRECT) (hzero : (v.inode i).addrs k = 0)
    (hb : b < sb.size) (hfree : v.used b = false) :
    View.owner sb { v.withInode i ((v.inode i).setAddr k b) with
      used := used
      data := update v.data b Bytes.zero } =
      update (v.owner sb) (i, k) b := by
  have hfresh := hown.free_not_owned hb hfree
  funext x
  obtain ⟨j, l⟩ := x
  by_cases hji : j = i
  · subst hji
    have hi' : View.Allocated sb { v.withInode j ((v.inode j).setAddr k b) with
        used := used
        data := update v.data b Bytes.zero } j := by
      simpa [View.Allocated, Dinode.setAddr] using hi
    rw [owner_of_allocated hi']
    simp only [withInode_self]
    by_cases hlk : l = k
    · subst hlk
      rw [slotPtr_le _ hk, Dinode.setAddr_self, update_self]
    · rw [update_of_ne (by simp [hlk]), owner_of_allocated hi]
      by_cases hl : l ≤ NDIRECT
      · rw [slotPtr_le _ hl, slotPtr_le _ hl, Dinode.setAddr_of_ne hlk]
      · by_cases hkn : k = NDIRECT
        · -- the new indirect block is all zeroes
          subst hkn
          rw [slotPtr_of_no_indirect (by omega) hzero]
          unfold slotPtr
          rw [if_neg hl]
          split
          · rw [Dinode.setAddr_self, update_self, getEntry_zero]
          · rfl
        · unfold slotPtr
          rw [if_neg hl, if_neg hl, Dinode.setAddr_of_ne (Ne.symm hkn),
            update_of_ne]
          rw [← owner_indirect hi]
          exact hfresh _
  · rw [update_of_ne (by simp [hji])]
    by_cases hj : v.Allocated sb j
    · rw [owner_of_allocated hj, owner_of_allocated (by
        simpa [View.Allocated, withInode_ne hji] using hj)]
      simp only [withInode_ne hji]
      refine slotPtr_congr rfl fun _ => update_of_ne ?_ _ _
      rw [← owner_indirect hj]
      exact hfresh _
    · rw [owner_of_not_allocated hj, owner_of_not_allocated (by
        simpa [View.Allocated, withInode_ne hji] using hj)]

/-- Filling the empty entry `e` of the indirect block of inode `i` with a block `b`
that is zeroed first. -/
theorem owner_putEntry {used : Nat → Bool} {e : Nat}
    (hown : Owns (v.owner sb) sb.datastart sb.size v.used)
    (hi : v.Allocated sb i) (ha : (v.inode i).addrs NDIRECT ≠ 0) (he : e < NINDIRECT)
    (hb : b < sb.size) (hfree : v.used b = false) :
    View.owner sb { v with
      used := used
      data := update (update v.data b Bytes.zero) ((v.inode i).addrs NDIRECT)
        (putEntry (v.data ((v.inode i).addrs NDIRECT)) e b) } =
      update (v.owner sb) (i, NDIRECT + 1 + e) b := by
  have hfresh := hown.free_not_owned hb hfree
  funext x
  obtain ⟨j, l⟩ := x
  by_cases hj : v.Allocated sb j
  · rw [owner_of_allocated (by exact hj)]
    by_cases hji : j = i
    · subst hji
      by_cases hl : l ≤ NDIRECT
      · rw [slotPtr_le _ hl, update_of_ne (by simp; omega), owner_of_allocated hj,
          slotPtr_le _ hl]
      · by_cases hlt : l < NDIRECT + 1 + NINDIRECT
        · obtain ⟨f, rfl⟩ : ∃ f, l = NDIRECT + 1 + f := ⟨l - (NDIRECT + 1), by omega⟩
          rw [slotPtr_entry (by omega) ha]
          simp only [update_self]
          rw [getEntry_putEntry he (sb.lt_of_lt_size hb)]
          by_cases hfe : f = e
          · subst hfe
            rw [if_pos rfl, update_self]
          · rw [if_neg hfe, update_of_ne (by simp [hfe]), owner_of_allocated hj,
              slotPtr_entry (by omega) ha]
        · rw [update_of_ne (by simp; omega), owner_of_allocated hj]
          unfold slotPtr
          rw [if_neg hl, if_neg hl, if_neg (fun h => hlt h.1), if_neg (fun h => hlt h.1)]
    · rw [update_of_ne (by simp [hji]), owner_of_allocated hj]
      refine slotPtr_congr rfl fun haj => ?_
      -- the indirect block of another inode is a different block
      have hne : (v.inode j).addrs NDIRECT ≠ (v.inode i).addrs NDIRECT := by
        rw [← owner_indirect hj, ← owner_indirect hi]
        intro heq
        have := hown.inj _ _ (by rwa [owner_indirect hj]) heq
        exact hji (congrArg Prod.fst this)
      have hneb : (v.inode j).addrs NDIRECT ≠ b := by
        rw [← owner_indirect hj]
        exact hfresh _
      simp only [update_of_ne hne, update_of_ne hneb]
  · have hji : j ≠ i := fun h => hj (h ▸ hi)
    rw [owner_of_not_allocated (by exact hj), update_of_ne (by simp [hji]),
      owner_of_not_allocated hj]

theorem owner_clearAddr {used : Nat → Bool} (hi : v.Allocated sb i) (hk : k < NDIRECT) :
    View.owner sb { v.withInode i ((v.inode i).setAddr k 0) with used := used } =
      update (v.owner sb) (i, k) 0 := by
  funext x
  obtain ⟨j, l⟩ := x
  by_cases hji : j = i
  · subst hji
    rw [owner_of_allocated (by simpa [View.Allocated, Dinode.setAddr] using hi)]
    simp only [withInode_self]
    by_cases hlk : l = k
    · subst hlk
      rw [slotPtr_le _ (by omega), Dinode.setAddr_self, update_self]
    · rw [update_of_ne (by simp [hlk]), owner_of_allocated hi]
      unfold slotPtr
      rw [Dinode.setAddr_of_ne hlk, Dinode.setAddr_of_ne (by omega)]
      rfl
  · rw [update_of_ne (by simp [hji])]
    simp only [View.owner, View.Allocated, withInode_ne hji]
    rfl

/-- Emptying slot `NDIRECT` empties the slots of the indirect block with it. -/
theorem owner_clearIndirect {used : Nat → Bool} (hi : v.Allocated sb i) :
    View.owner sb { v.withInode i ((v.inode i).setAddr NDIRECT 0) with used := used } =
      fun x => if x.1 = i ∧ NDIRECT ≤ x.2 then 0 else v.owner sb x := by
  funext x
  obtain ⟨j, l⟩ := x
  by_cases hji : j = i
  · subst hji
    rw [owner_of_allocated (by simpa [View.Allocated, Dinode.setAddr] using hi)]
    simp only [withInode_self, true_and]
    by_cases hl : NDIRECT ≤ l
    · rw [if_pos hl]
      by_cases hln : l = NDIRECT
      · subst hln
        rw [slotPtr_le _ (Nat.le_refl _), Dinode.setAddr_self]
      · exact slotPtr_of_no_indirect (by omega) Dinode.setAddr_self
    · rw [if_neg hl, owner_of_allocated hi, slotPtr_le _ (by omega), slotPtr_le _ (by omega),
        Dinode.setAddr_of_ne (by omega)]
  · simp only [hji, false_and, if_false]
    simp only [View.owner, View.Allocated, withInode_ne hji]
    rfl

end

end Xv6.Fs
