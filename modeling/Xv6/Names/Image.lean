import Xv6.Names.Directory

/-! # Small disks

A disk with an empty root directory and some empty files, and one whose root directory has the
entries `.` and `..`.
-/

namespace Xv6.Names

open Lib Kernel

/-! ## Empty files -/

/-- A disk without inodes, on which the blocks before the data blocks are in use. -/
def blankDisk (sb : Fs.Superblock) : Fs.Disk :=
  (List.range sb.datastart).foldl (fun d b => d.mark sb b) (Fs.Disk.ofImage fun _ => Bytes.zero)

def emptyInode (n i : Nat) : Fs.Dinode :=
  if 0 < i ∧ i ≤ n + 1 then { Fs.Dinode.zeroed (if i = ROOTINO then T_DIR else T_FILE) with
    nlink := 1 } else .zeroed 0

def emptyFiles (sb : Fs.Superblock) : Nat → Fs.Disk
  | 0 => Fs.iupdate sb (blankDisk sb) ROOTINO (emptyInode 0 ROOTINO)
  | n + 1 => Fs.iupdate sb (emptyFiles sb n) (n + 2) (emptyInode (n + 1) (n + 2))

theorem emptyInode_fits (n i : Nat) : (emptyInode n i).Fits := by
  unfold emptyInode
  split
  · split <;> constructor <;> simp [Fs.Dinode.zeroed, T_DIR, T_FILE]
  · constructor <;> simp [Fs.Dinode.zeroed]

section

variable {sb : Fs.Superblock} {n i : Nat}

theorem view_blankDisk (sb : Fs.Superblock) : (blankDisk sb).view sb =
    ⟨fun _ => .zeroed 0, fun b => decide (b < sb.datastart), fun _ => Bytes.zero⟩ := by
  have hmarks : ∀ m, m ≤ sb.size →
      ((List.range m).foldl (fun d b => d.mark sb b) (Fs.Disk.ofImage fun _ => Bytes.zero)).view
      sb =
        ⟨fun _ => .zeroed 0, fun b => decide (b < m), fun _ => Bytes.zero⟩ := by
    intro m
    induction m with
    | zero =>
      intro _
      exact Fs.view_zero sb
    | succ m ih =>
      intro hm
      rw [List.range_succ, List.foldl_append, List.foldl_cons, List.foldl_nil,
        Fs.view_mark (by omega), ih (by omega)]
      dsimp only
      congr 1
      funext b
      rw [Function.update_apply]
      by_cases hb : b = m
      · rw [if_pos hb, hb]
        exact (decide_eq_true (Nat.lt_succ_self m)).symm
      · rw [if_neg hb]
        exact decide_eq_decide.mpr (by omega)
  exact hmarks _ (Nat.sub_le _ _)

theorem view_emptyFiles (hn : n + 1 < sb.ninodes) : (emptyFiles sb n).view sb =
    ⟨emptyInode n, fun b => decide (b < sb.datastart), fun _ => Bytes.zero⟩ := by
  induction n with
  | zero =>
    unfold emptyFiles
    rw [Fs.view_iupdate (show ROOTINO < sb.ninodes from hn) (emptyInode_fits _ _), view_blankDisk]
    dsimp only
    congr 1
    funext i
    rw [Function.update_apply]
    unfold emptyInode ROOTINO
    by_cases hi : i = 1
    · rw [if_pos hi, hi]
    · rw [if_neg hi, if_neg (by omega)]
  | succ n ih =>
    unfold emptyFiles
    rw [Fs.view_iupdate (by omega) (emptyInode_fits _ _), ih (by omega)]
    dsimp only
    congr 1
    funext i
    rw [Function.update_apply]
    by_cases hi : i = n + 2
    · rw [if_pos hi, hi]
    · rw [if_neg hi]
      unfold emptyInode
      congr 1
      exact propext (by omega)

theorem emptyInode_empty (n i : Nat) :
    (emptyInode n i).addrs = (fun _ => 0) ∧ (emptyInode n i).size = 0 := by
  unfold emptyInode
  split <;> exact ⟨rfl, rfl⟩

theorem emptyFiles_allocInv (hn : n + 1 < sb.ninodes) :
    Fs.AllocInv sb ((emptyFiles sb n).view sb) := by
  refine Fs.allocInv_empty ?_ ?_ <;> rw [view_emptyFiles hn]
  exact emptyInode_empty n

theorem emptyFiles_clean (P : Nat → Prop) : (emptyFiles sb n).CleanOn P := by
  have hmarks : ∀ (bs : List Nat) (d : Fs.Disk), d.CleanOn P →
      (bs.foldl (fun d b => d.mark sb b) d).CleanOn P := by
    intro bs
    induction bs with
    | nil => exact fun _ hd => hd
    | cons b bs ih => exact fun d hd => ih _ (hd.put fun c hc => .inr hc)
  induction n with
  | zero => exact (hmarks _ _ fun _ _ => rfl).put fun c hc => .inr hc
  | succ n ih => exact ih.put fun c hc => .inr hc

theorem written_root {bs : List UInt8} {m : Nat} {r : Int} {ip : Fs.Dinode} {d : Fs.Disk}
    (hn : n + 1 < sb.ninodes) (hm : m ≤ Fs.MAXFILE * BSIZE) (hlen : bs.length = m)
    (hr : Fs.writei sb (emptyFiles sb n) ROOTINO (((emptyFiles sb n).view sb).inode ROOTINO)
      (fun k => some (bs.getD k 0)) 0 m = .ok (r, ip, d)) :
    Fs.AllocInv sb (d.view sb) ∧ d.CleanOn ((d.view sb).Meta sb) ∧
      (∀ i, i ≠ ROOTINO → (d.view sb).inode i = emptyInode n i) ∧
      ((d.view sb).inode ROOTINO).type = T_DIR ∧ ((d.view sb).inode ROOTINO).nlink = 1 ∧
      (d.view sb).contents ROOTINO = bs := by
  have hview := view_emptyFiles hn
  have halloc := emptyFiles_allocInv hn
  have hroot : ((emptyFiles sb n).view sb).inode ROOTINO = emptyInode n ROOTINO := by rw [hview]
  have hfields : (emptyInode n ROOTINO).type = T_DIR ∧ (emptyInode n ROOTINO).nlink = 1 := by
    unfold emptyInode ROOTINO
    rw [if_pos (by omega)]
    exact ⟨rfl, rfl⟩
  have hi : ((emptyFiles sb n).view sb).Allocated sb ROOTINO := by
    refine ⟨Nat.lt_of_le_of_lt (Nat.le_add_left 1 n) hn, ?_⟩
    rw [hroot, hfields.1]
    decide
  have hm32 : m < 2 ^ 32 := by
    unfold Fs.MAXFILE Fs.NDIRECT Fs.NINDIRECT BSIZE at hm
    omega
  have hw := (halloc.writei hi (by decide) hm32).2 _ _ _ hr
  obtain ⟨addrs, size, hip⟩ := halloc.writei_fields hi (by decide) hm32 hr
  refine ⟨hw.alloc, hw.clean (emptyFiles_clean _), fun i hne => ?_, ?_, ?_, ?_⟩
  · rw [hw.inodes i hne, hview]
  · rw [hip, hroot]
    exact hfields.1
  · rw [hip, hroot]
    exact hfields.2
  · have hrej : ¬ Fs.Rejected (((emptyFiles sb n).view sb).inode ROOTINO).size 0 m := by
      unfold Fs.Rejected
      omega
    have hempty : ((emptyFiles sb n).view sb).contents ROOTINO = [] := by
      unfold Fs.View.contents
      rw [hroot, (emptyInode_empty n ROOTINO).2]
      rfl
    rw [(hw.accepted hrej fun _ _ => rfl).2.2, hempty, bytes_of_buffer hlen]
    unfold Fs.writeRange
    rw [List.take_nil, List.drop_nil, List.nil_append, List.append_nil]

end

theorem emptyInode_dir {n i : Nat} (h : (emptyInode n i).type = T_DIR) : i = ROOTINO := by
  by_contra hne
  unfold emptyInode at h
  split at h
  · exact absurd h (by decide)
  · exact absurd h (by decide)

/-! ## A root directory -/

/-- One inode block, one bitmap block and thirteen data blocks. -/
def rootSb : Fs.Superblock := .layout 1 8 13 Nat.one_pos (by decide)

/-- The entries of an empty directory `i` in directory `p`. -/
def dots (i p : Nat) : List UInt8 :=
  putDirent i (strncpy dot DIRSIZ 0) ++ putDirent p (strncpy dotdot DIRSIZ 0)

end Xv6.Names
