import Xv6.Kernel.FileInv
import Xv6.Names.Directory

/-! # The inode table during a lookup

A lookup takes references to entries of the inode table and drops them again; `Holding` relates the
table to what it was when the lookup began. Dropping a reference can free an inode without links,
but not during a lookup: such an inode had an entry in use when the lookup began, so the lookup
never drops the last reference to it.
-/

namespace Xv6.Names

open Lib Kernel

/-- The inode table: its entries in use are within it, no two of them are copies of the same inode,
and the copies that were read are of allocated inodes. -/
structure Table (sb : Fs.Superblock) (sys : Sys) : Prop where
  range : ∀ k, 0 < sys.iref k → k < NINODE
  uniq : ∀ k k', 0 < sys.iref k → 0 < sys.iref k' → (sys.inode k).inum = (sys.inode k').inum →
    k = k'
  valid : ∀ k, 0 < sys.iref k → (sys.inode k).valid = true →
    (sys.disk.view sb).Allocated sb (sys.inode k).inum

/-- Every allocated inode without links has an entry in use. -/
def NoOrphan (sb : Fs.Superblock) (sys : Sys) : Prop :=
  ∀ i, (sys.disk.view sb).Allocated sb i → ((sys.disk.view sb).inode i).nlink = 0 →
    ∃ k, 0 < sys.iref k ∧ (sys.inode k).inum = i

/-- The system is as it was in `sys₀`, but for `c k` more references to entry `k` of the inode
table. -/
structure Holding (sb : Fs.Superblock) (sys₀ sys : Sys) (c : Nat → Nat) : Prop where
  rest : sys = { sys₀ with inode := sys.inode }
  refs : ∀ k, sys.iref k = sys₀.iref k + c k
  inums : ∀ k, 0 < sys₀.iref k → (sys.inode k).inum = (sys₀.inode k).inum
  kept : ∀ k, 0 < sys₀.iref k → (sys₀.inode k).valid = true → (sys.inode k).valid = true
  table : Table sb sys

section

variable {sb : Fs.Superblock} {sys₀ sys : Sys} {c c' : Nat → Nat} {k : Nat}

theorem inode_setInode_self (sys : Sys) (k : Nat) (x : Inode) : (sys.setInode k x).inode k = x :=
  Function.update_self _ _ _

theorem inode_setInode_ne (sys : Sys) {j k : Nat} (hj : j ≠ k) (x : Inode) :
    (sys.setInode k x).inode j = sys.inode j :=
  Function.update_of_ne hj _ _

theorem Table.setInode {x : Inode} (h : Table sb sys) (hrange : 0 < x.ref → k < NINODE)
    (huniq : 0 < x.ref → ∀ j, j ≠ k → 0 < sys.iref j → (sys.inode j).inum ≠ x.inum)
    (hvalid : 0 < x.ref → x.valid = true → (sys.disk.view sb).Allocated sb x.inum) :
    Table sb (sys.setInode k x) := by
  have hself := inode_setInode_self sys k x
  have hne : ∀ j, j ≠ k → (sys.setInode k x).inode j = sys.inode j :=
    fun j hj => inode_setInode_ne sys hj x
  have hpos : ∀ j, j ≠ k → 0 < (sys.setInode k x).iref j → 0 < sys.iref j := fun j hj h => by
    rwa [Sys.iref, hne j hj] at h
  have hposk : 0 < (sys.setInode k x).iref k → 0 < x.ref := fun h => by rwa [Sys.iref, hself] at h
  refine ⟨fun j hj => ?_, fun j j' hj hj' heq => ?_, fun j hj hv => ?_⟩
  · by_cases hjk : j = k
    · subst hjk
      exact hrange (hposk hj)
    · exact h.range j (hpos j hjk hj)
  · by_cases hjk : j = k <;> by_cases hjk' : j' = k
    · rw [hjk, hjk']
    · subst hjk
      rw [hself, hne j' hjk'] at heq
      exact absurd heq.symm (huniq (hposk hj) j' hjk' (hpos j' hjk' hj'))
    · subst hjk'
      rw [hself, hne j hjk] at heq
      exact absurd heq (huniq (hposk hj') j hjk (hpos j hjk hj))
    · rw [hne j hjk, hne j' hjk'] at heq
      exact h.uniq j j' (hpos j hjk hj) (hpos j' hjk' hj') heq
  · by_cases hjk : j = k
    · subst hjk
      rw [hself] at hv ⊢
      exact hvalid (hposk hj) hv
    · rw [hne j hjk] at hv ⊢
      exact h.valid j (hpos j hjk hj) hv

theorem Table.recount (h : Table sb sys) (hk : 0 < sys.iref k) (n : Nat) (v : Bool)
    (hv : v = true → (sys.disk.view sb).Allocated sb (sys.inode k).inum) :
    Table sb (sys.setInode k ⟨(sys.inode k).inum, n, v⟩) :=
  h.setInode (fun _ => h.range k hk) (fun _ j hj hpos heq => hj (h.uniq j k hpos hk heq)) fun _ =>
    hv

theorem Holding.refl (h : Table sb sys) : Holding sb sys sys 0 :=
  ⟨rfl, fun _ => rfl, fun _ _ => rfl, fun _ _ hv => hv, h⟩

theorem Holding.disk (h : Holding sb sys₀ sys c) : sys.disk = sys₀.disk := by rw [h.rest]

theorem Holding.setInode {x : Inode} (h : Holding sb sys₀ sys c)
    (htable : Table sb (sys.setInode k x)) (href : x.ref = sys₀.iref k + c' k)
    (hne : ∀ j, j ≠ k → c' j = c j) (hold : 0 < sys₀.iref k → x.inum = (sys₀.inode k).inum ∧
      ((sys₀.inode k).valid = true → x.valid = true)) :
    Holding sb sys₀ (sys.setInode k x) c' := by
  have hself := inode_setInode_self sys k x
  have hother : ∀ j, j ≠ k → (sys.setInode k x).inode j = sys.inode j :=
    fun j hj => inode_setInode_ne sys hj x
  refine ⟨?_, fun j => ?_, fun j hj => ?_, fun j hj hv => ?_, htable⟩
  · unfold Sys.setInode
    rw [h.rest]
  · rw [iref_setInode]
    by_cases hjk : j = k
    · rw [if_pos hjk, hjk, href]
    · rw [if_neg hjk, hne j hjk, h.refs]
  · by_cases hjk : j = k
    · subst hjk
      rw [hself]
      exact (hold hj).1
    · rw [hother j hjk, h.inums j hj]
  · by_cases hjk : j = k
    · subst hjk
      rw [hself]
      exact (hold hj).2 hv
    · rw [hother j hjk]
      exact h.kept j hj hv

/-- The entries that are in use keep their inodes. -/
def SameNums (sys sys' : Sys) : Prop :=
  ∀ j, 0 < sys.iref j → (sys'.inode j).inum = (sys.inode j).inum

theorem add_only_self (c : Nat → Nat) (k : Nat) : (c + only k) k = c k + 1 := by
  rw [Pi.add_apply, only_self]

theorem add_only_ne (c : Nat → Nat) {j : Nat} (hj : j ≠ k) : (c + only k) j = c j := by
  rw [Pi.add_apply, only_ne hj, Nat.add_zero]

theorem eq_of_only_pos {j : Nat} (h : 0 < only k j) : j = k := by
  by_contra hne
  rw [only_ne hne] at h
  exact Nat.lt_irrefl 0 h

theorem sameNums_setInode {x : Inode} (h : 0 < sys.iref k → x.inum = (sys.inode k).inum) :
    SameNums sys (sys.setInode k x) := by
  intro j hj
  by_cases hjk : j = k
  · subst hjk
    rw [inode_setInode_self]
    exact h hj
  · rw [inode_setInode_ne sys hjk]

theorem inum_setInode {x : Inode} (h : x.inum = (sys.inode k).inum) (j : Nat) :
    ((sys.setInode k x).inode j).inum = (sys.inode j).inum := by
  by_cases hjk : j = k
  · subst hjk
    rw [inode_setInode_self, h]
  · rw [inode_setInode_ne sys hjk]

theorem Holding.idup (h : Holding sb sys₀ sys c) (hk : 0 < sys.iref k) :
    Holding sb sys₀ (idup sys k) (c + only k) := by
  refine h.setInode (h.table.recount hk _ _ (h.table.valid k hk)) ?_ (fun j hj => add_only_ne c hj)
    fun hk₀ => ?_
  · rw [add_only_self, ← Nat.add_assoc, ← h.refs]
    rfl
  · exact ⟨h.inums k hk₀, h.kept k hk₀⟩

theorem Holding.iget (h : Holding sb sys₀ sys c) (inum : Nat) :
    Post (fun f => f = .igetNoInodes ∧ ∀ k, k < NINODE → 0 < sys.iref k)
      (fun r => Holding sb sys₀ r.2 (c + only r.1) ∧ (r.2.inode r.1).inum = inum ∧ SameNums sys r.2)
      (Kernel.iget sys inum) := by
  unfold Kernel.iget
  split
  · rename_i k hfind
    obtain ⟨hk, hnum⟩ : 0 < (sys.inode k).ref ∧ (sys.inode k).inum = inum :=
      by simpa using List.find?_some hfind
    refine .ok ⟨h.idup hk, ?_, sameNums_setInode fun _ => rfl⟩
    dsimp only
    rw [inode_setInode_self]
    exact hnum
  · rename_i hnone
    have hnew : ∀ j, 0 < sys.iref j → (sys.inode j).inum ≠ inum := by
      intro j hj heq
      have := List.find?_eq_none.mp hnone j (List.mem_range.mpr (h.table.range j hj))
      simp only [decide_eq_true_eq, not_and] at this
      exact this hj heq
    split
    · rename_i k hfind
      have hlt := List.mem_range.mp (List.mem_of_find?_eq_some hfind)
      have hk : sys.iref k = 0 := by simpa [Sys.iref] using List.find?_some hfind
      have hrefs := h.refs k
      refine .ok ⟨h.setInode (h.table.setInode (fun _ => hlt)
        (fun _ j _ hj => hnew j hj) fun _ hv => by cases hv) ?_
        (fun j hj => add_only_ne c hj) fun hk₀ => ?_, ?_, sameNums_setInode fun hpos => ?_⟩
      · rw [add_only_self]
        dsimp only
        omega
      · omega
      · dsimp only
        rw [inode_setInode_self]
      · omega
    · rename_i hfull
      refine .error ⟨rfl, fun j hj => Nat.pos_of_ne_zero fun h0 => ?_⟩
      have := List.find?_eq_none.mp hfull j (List.mem_range.mpr hj)
      simp only [decide_eq_true_eq] at this
      exact this h0

theorem Holding.ilock (h : Holding sb sys₀ sys c) (hk : 0 < sys.iref k) :
    Post (fun _ => ¬ (sys.disk.view sb).Allocated sb (sys.inode k).inum)
      (fun sys' => Holding sb sys₀ sys' c ∧ (∀ j, (sys'.inode j).inum = (sys.inode j).inum) ∧
        (sys'.inode k).valid = true ∧ (sys.disk.view sb).Allocated sb (sys.inode k).inum)
      (Names.ilock sb sys k) := by
  unfold Names.ilock Kernel.ilock
  dsimp only
  rw [if_neg (show ¬ (sys.inode k).ref < 1 from Nat.not_lt.mpr hk)]
  by_cases hv : (sys.inode k).valid = true
  · rw [if_pos hv]
    exact .ok ⟨h, fun _ => rfl, hv, h.table.valid k hk hv⟩
  · rw [if_neg hv]
    by_cases ht : (sys.dinode sb k).type = 0
    · rw [if_pos ht]
      exact .error fun ha => ha.2 ht
    · rw [if_neg ht]
      have ha : (sys.disk.view sb).Allocated sb (sys.inode k).inum := allocated_of_type ht
      refine .ok ⟨h.setInode (h.table.recount hk _ _ fun _ => ha) (h.refs k)
          (fun _ _ => rfl) fun hk₀ =>
        ⟨h.inums k hk₀, fun _ => rfl⟩, inum_setInode rfl, ?_, ha⟩
      rw [inode_setInode_self]

/-- `iput` of a reference that the lookup took does not free the inode. -/
theorem Holding.iput (h : Holding sb sys₀ sys (c + only k)) (hl : NoOrphan sb sys₀) :
    ∃ sys', Names.iput sb sys k = .ok sys' ∧ Holding sb sys₀ sys' c ∧ ∀ j, (sys'.inode j).inum =
    (sys.inode j).inum := by
  have hrefs := h.refs k
  rw [add_only_self] at hrefs
  have hk : 0 < sys.iref k := by omega
  have hlast : ¬ ((sys.inode k).ref = 1 ∧ (sys.inode k).valid = true ∧
      (sys.dinode sb k).nlink = 0) := by
    rintro ⟨h1, hv, h0⟩
    have ha := h.table.valid k hk hv
    unfold Sys.dinode at h0
    rw [h.disk] at ha h0
    obtain ⟨j, hj, hnum⟩ := hl _ ha h0
    -- the entry that was in use is this one, so there was a reference before
    have hjpos : 0 < sys.iref j := by
      rw [h.refs]
      omega
    have hjk := h.table.uniq j k hjpos hk (by rw [h.inums j hj, hnum])
    subst hjk
    change sys.iref j = 1 at h1
    omega
  unfold Names.iput Kernel.iput
  dsimp only
  rw [if_neg hlast]
  refine ⟨_, rfl, h.setInode (h.table.recount hk _ _ (h.table.valid k hk)) ?_
      (fun j hj => ?_) fun hk₀ =>
    ⟨h.inums k hk₀, h.kept k hk₀⟩, inum_setInode rfl⟩
  · change sys.iref k - 1 = _
    omega
  · exact (add_only_ne c hj).symm

end

end Xv6.Names
