import Xv6.Names.Dirs

/-! # The calls under a directory's lock

What `dirlink`, `createLocked`, `linkAt` and `unlinkAt` do to the directories of the disk. `Mid`
follows such a call: the references that it has taken since it began, and the directories as it has
changed them. At its end it drops references, and with the last one an inode without links is freed.
-/

namespace Xv6.Names

open Lib Kernel

/-- The directories and the inode table are in order. -/
structure Sound (sb : Fs.Superblock) (sys : Sys) : Prop where
  dir : DirInv sb sys.disk
  table : Table sb sys
  /-- a directory entry has room for the number -/
  nums : ∀ k, 0 < sys.iref k → 0 < (sys.inode k).inum ∧ (sys.inode k).inum < 2 ^ 16

/-- A call that began in `sys₀`, has taken `c k` references to entry `k` since, and has left the
directories `D`. -/
structure Mid (sb : Fs.Superblock) (sys₀ sys : Sys) (c : Nat → Nat)
    (D : Nat → Option (Slots (List UInt8) Nat)) : Prop where
  sound : Sound sb sys
  refs : ∀ k, sys.iref k = sys₀.iref k + c k
  inums : SameNums sys₀ sys
  dirs : dirs sb sys.disk = D

/-- Inode `i` was freed with its last link and its last reference. -/
def Dropped (sb : Fs.Superblock) (sys : Sys) (i : Nat) : Prop :=
  ((sys.disk.view sb).inode i).type = 0 ∧ ((sys.disk.view sb).inode i).nlink = 0 ∧
    ∀ k, 0 < sys.iref k → (sys.inode k).inum ≠ i

/-- The directories are those of `D` but for those that were freed. -/
def Became (sb : Fs.Superblock) (D : Nat → Option (Slots (List UInt8) Nat)) (sys : Sys) : Prop :=
  ∀ i, dirs sb sys.disk i = D i ∨ dirs sb sys.disk i = none ∧ Dropped sb sys i

section

variable {sb : Fs.Superblock} {sys₀ sys sys' : Sys} {c c' : Nat → Nat}
    {D : Nat → Option (Slots (List UInt8) Nat)}
  {k dp ip : Nat}

theorem slot_range {d : Fs.Disk} {i m v : Nat} {name : List UInt8}
    (h : (dirSlots sb d i)[m]? = some (some (name, v))) : 0 < v ∧ v < 2 ^ 16 := by
  unfold dirSlots slots at h
  rw [List.getElem?_map] at h
  obtain ⟨j, -, hj⟩ := Option.map_eq_some_iff.mp h
  unfold slotOf at hj
  split at hj
  · cases hj
  · rename_i h0
    cases hj
    refine ⟨Nat.pos_of_ne_zero h0, ?_⟩
    unfold getDirent
    dsimp only
    have h1 := (List.getD (entryAt ((d.view sb).contents i) j) 0 0).toNat_lt
    have h2 := (List.getD (entryAt ((d.view sb).contents i) j) 1 0).toNat_lt
    omega

theorem Sound.setDisk {d' : Fs.Disk} (h : Sound sb sys) (hdir : DirInv sb d')
    (halloc : ∀ i, (sys.disk.view sb).Allocated sb i → (d'.view sb).Allocated sb i) :
    Sound sb { sys with disk := d' } :=
  ⟨hdir, ⟨h.table.range, h.table.uniq, fun k hk hv => halloc _ (h.table.valid k hk hv)⟩, h.nums⟩

theorem Sound.mid (h : Sound sb sys) : Mid sb sys sys 0 (dirs sb sys.disk) :=
  ⟨h, fun _ => rfl, fun _ _ => rfl, rfl⟩

theorem Mid.pos (h : Mid sb sys₀ sys c D) (hk : 0 < sys₀.iref k) : 0 < sys.iref k := by
  rw [h.refs]
  omega

theorem Mid.holding (h : Mid sb sys₀ sys c D) (hh : Holding sb sys sys' c')
    (hnum : ∀ k, 0 < c' k → 0 < (sys'.inode k).inum ∧ (sys'.inode k).inum < 2 ^ 16) :
    Mid sb sys₀ sys' (c + c') D := by
  refine ⟨⟨?_, hh.table, fun k hk => ?_⟩, fun k => ?_, fun k hk => ?_, ?_⟩
  · rw [hh.disk]
    exact h.sound.dir
  · by_cases hold : 0 < sys.iref k
    · rw [hh.inums k hold]
      exact h.sound.nums k hold
    · rw [hh.refs] at hk
      exact hnum k (by omega)
  · rw [hh.refs, h.refs, Pi.add_apply, Nat.add_assoc]
  · rw [hh.inums k (h.pos hk), h.inums k hk]
  · rw [hh.disk]
    exact h.dirs

theorem Mid.setDisk {d' : Fs.Disk} {D' : Nat → Option (Slots (List UInt8) Nat)}
    (h : Mid sb sys₀ sys c D) (hdir : DirInv sb d')
    (halloc : ∀ i, (sys.disk.view sb).Allocated sb i → (d'.view sb).Allocated sb i)
    (hdirs : Names.dirs sb d' = D') : Mid sb sys₀ { sys with disk := d' } c D' :=
  ⟨h.sound.setDisk hdir halloc, h.refs, h.inums, hdirs⟩

theorem SameLinks.allocated {d d' : Fs.Disk} (h : SameLinks sb d d') {i : Nat}
    (hi : (d.view sb).Allocated sb i) : (d'.view sb).Allocated sb i :=
  ⟨hi.1, by rw [(h i).1]; exact hi.2⟩

theorem Mid.ilock (h : Mid sb sys₀ sys c D) (hk : 0 < sys.iref k) :
    Post (fun _ => ¬ (sys.disk.view sb).Allocated sb (sys.inode k).inum)
    (fun sys' => Mid sb sys₀ sys' c D ∧ sys'.disk = sys.disk ∧
      (∀ j, (sys'.inode j).inum = (sys.inode j).inum) ∧ (sys'.inode k).valid = true ∧
      (sys'.disk.view sb).Allocated sb (sys'.inode k).inum) (Names.ilock sb sys k) := by
  refine ((Holding.refl h.sound.table).ilock hk).imp ?_
  rintro sys' ⟨hh, hnum, hvalid, halloc⟩
  have hmid := h.holding hh fun k hk => absurd hk (Nat.lt_irrefl 0)
  rw [add_zero] at hmid
  refine ⟨hmid, hh.disk, hnum, hvalid, ?_⟩
  rw [hh.disk, hnum]
  exact halloc

/-- A change of the fields `major`, `minor` and `nlink` of an inode. -/
def SetsFields (f : Fs.Dinode → Fs.Dinode) : Prop :=
  ∀ ip : Fs.Dinode, ip.Fits → ∃ major minor nlink, f ip =
    { ip with major := major, minor := minor, nlink := nlink } ∧
    major < 2 ^ 16 ∧ minor < 2 ^ 16 ∧ nlink < 2 ^ 16

theorem setsFields_incNlink : SetsFields incNlink := fun ip hfits =>
  ⟨ip.major, ip.minor, _, rfl, hfits.major, hfits.minor, Nat.mod_lt _ (by decide)⟩

theorem setsFields_decNlink : SetsFields decNlink := fun ip hfits =>
  ⟨ip.major, ip.minor, _, rfl, hfits.major, hfits.minor, Nat.mod_lt _ (by decide)⟩

theorem setsFields_new {major minor : Nat} (hmajor : major < 2 ^ 16) (hminor : minor < 2 ^ 16) :
    SetsFields fun x => { x with major := major, minor := minor, nlink := 1 } :=
  fun _ _ => ⟨major, minor, 1, rfl, hmajor, hminor, by decide⟩

theorem Mid.update {f : Fs.Dinode → Fs.Dinode} (h : Mid sb sys₀ sys c D) (hf : SetsFields f)
    (hk : (sys.disk.view sb).Allocated sb (sys.inode k).inum) :
    Mid sb sys₀ (Names.update sb sys k f) c D ∧ ((Names.update sb sys k f).disk.view sb).inode =
      Function.update (sys.disk.view sb).inode (sys.inode k).inum (f (sys.dinode sb k)) := by
  obtain ⟨major, minor, nlink, heq, hmajor, hminor, hnlink⟩ :=
    hf (sys.dinode sb k) (Fs.view_inode_fits _)
  obtain ⟨hdir, hdirs, hinode, -⟩ := h.sound.dir.setFields hk heq hmajor hminor hnlink
  refine ⟨h.setDisk hdir (fun i hi => ⟨hi.1, ?_⟩) (hdirs.trans h.dirs), hinode⟩
  rw [hinode, Function.update_apply]
  split
  · rename_i hik
    rw [heq]
    rw [hik] at hi
    exact hi.2
  · exact hi.2

/-! ## `dirlookup` and `dirlink` -/

/-- A reference that was just taken is dropped: the table is as before. -/
theorem iget_iput {v : Nat} (htable : Table sb sys) (hget : iget sys v = .ok (k, sys')) :
    ∃ sys'', Names.iput sb sys' k = .ok sys'' ∧ Holding sb sys sys'' 0 := by
  obtain ⟨hh, -, -⟩ := ((Holding.refl htable).iget v).of_ok hget
  have hrefs : sys'.iref k = sys.iref k + 1 := by
    have := hh.refs k
    rwa [add_only_self] at this
  have hpos : 0 < sys'.iref k := by omega
  -- an entry that was not in use has not been read, so its inode is not freed
  have hlast : ¬ ((sys'.inode k).ref = 1 ∧ (sys'.inode k).valid = true ∧
      (sys'.dinode sb k).nlink = 0) := by
    rintro ⟨h1, hv, -⟩
    have h0 : sys.iref k = 0 := by
      change sys'.iref k = 1 at h1
      omega
    unfold iget at hget
    split at hget
    · rename_i j hfind
      obtain ⟨hj, -⟩ : 0 < (sys.inode j).ref ∧ (sys.inode j).inum = v :=
        by simpa using List.find?_some hfind
      cases hget
      exact absurd h0 (Nat.ne_of_gt hj)
    · split at hget
      · cases hget
        rw [inode_setInode_self] at hv
        cases hv
      · cases hget
  unfold Names.iput Kernel.iput
  dsimp only
  rw [if_neg hlast]
  refine ⟨_, rfl, hh.setInode (hh.table.recount hpos _ _ (hh.table.valid k hpos)) ?_
      (fun j hj => ?_) fun hk₀ =>
    ⟨hh.inums k hk₀, hh.kept k hk₀⟩⟩
  · change sys'.iref k - 1 = sys.iref k + 0
    omega
  · exact (add_only_ne 0 hj).symm

/-- The panics of `dirlink`: there is no entry in the inode table for an inode of that name, or no
room for the entry. -/
def LinkPanic (sb : Fs.Superblock) (sys : Sys) (dp : Nat) (name : Nat → UInt8) (f : Panic) : Prop :=
  (f = .kernel .igetNoInodes ∧ (∀ k, k < NINODE → 0 < sys.iref k) ∧ bound sb sys dp name ≠ none) ∨
    (bound sb sys dp name = none ∧
      (dirSlots sb sys.disk (sys.inode dp).inum).free =
      (dirSlots sb sys.disk (sys.inode dp).inum).length ∧
      (f = .dirlink ∧ sizeOf sb sys.disk (sys.inode dp).inum = Fs.MAXFILE * BSIZE ∨
        f = .kernel (.fs .ballocOutOfBlocks) ∧ ((sys.disk.view sb).freeBlocks sb).card <
          Fs.blocksNeeded (sys.disk.view sb).data (sys.dinode sb dp)
            (sizeOf sb sys.disk (sys.inode dp).inum) direntSize))

theorem Sound.dirlink {inum : Nat} (h : Sound sb sys) (hdp : IsDir sb sys.disk (sys.inode dp).inum)
    (hpos : 0 < inum) (hlt : inum < 2 ^ 16) (name : Nat → UInt8) :
    Post (LinkPanic sb sys dp name)
      (fun r => (r.1 = false ∧ bound sb sys dp name ≠ none ∧ Holding sb sys r.2 0) ∨
        (r.1 = true ∧ bound sb sys dp name = none ∧ ∃ d', r.2 = { sys with disk := d' } ∧
          DirInv sb d' ∧
          SameLinks sb sys.disk d' ∧ dirs sb d' = Function.update (dirs sb sys.disk)
          (sys.inode dp).inum
            (some ((dirSlots sb sys.disk (sys.inode dp).inum).put
              (dirSlots sb sys.disk (sys.inode dp).inum).free
              (some (key name, inum))))))
      (Names.dirlink sb sys dp name inum) := by
  have hwhole := h.dir.whole _ hdp
  unfold Names.dirlink
  refine ((dirlookup_post h.dir.fs.alloc hdp name).mono (fun f hf => ?_) fun _ hr => hr).bind ?_
  · rcases hf with ⟨-, hno⟩ | ⟨v, e, hv, hget, rfl⟩
    · exact absurd hwhole hno
    · obtain ⟨rfl, hfull⟩ := ((Holding.refl h.table).iget v).of_error hget
      exact .inl ⟨rfl, hfull, by rw [hv]; exact Option.some_ne_none v⟩
  rintro ⟨r, sys₁⟩ (⟨heq, hnone⟩ | ⟨k, v, m, hr, hget, hv, -⟩)
  · cases heq
    have hloop : Post (LinkPanic sb sys dp name)
        (fun r => r = (direntSize * (dirSlots sb sys.disk (sys.inode dp).inum).free, sys.disk))
        (dirlinkLoop sb (sys.inode dp).inum ((dirSlots sb sys.disk (sys.inode dp).inum).length + 1)
            0 sys.disk) := by
      refine (dirlinkLoop_post h.dir.fs.alloc hdp.allocated (j := 0) (Nat.zero_add _)).mono
        (fun f hf => absurd hwhole hf.2) fun r hr => ?_
      rw [hr, Nat.zero_add]
      rfl
    change Post _ _ (dirlinkLoop sb (sys.inode dp).inum (rounds sb sys.disk (sys.inode dp).inum) 0
      sys.disk >>= _)
    rw [rounds_eq]
    refine hloop.bind ?_
    rintro r rfl
    have hwrite := h.dir.writeDirent hdp (Slots.free_le _) (putDirent_length inum name) .dirlink
    rw [slotOf_putDirent (Nat.ne_of_gt hpos) hlt] at hwrite
    refine (hwrite.mono (fun f hf => .inr ⟨hnone, hf.1, ?_⟩) fun _ hr => hr).bind fun d' hd' =>
      .pure (.inr ⟨rfl, hnone, d', rfl, hd'.1, hd'.2.1, hd'.2.2⟩)
    have hsize : direntSize * (dirSlots sb sys.disk (sys.inode dp).inum).length =
        sizeOf sb sys.disk (sys.inode dp).inum := by
      have := hwhole.length
      rwa [contents_length_eq, ← dirSlots_length] at this
    rw [hf.1, hsize] at hf
    exact hf.2
  · obtain rfl : r = some (k, direntSize * m) := hr
    obtain ⟨sys₂, hput, hh⟩ := iget_iput h.table hget
    refine .bind_of_ok hput (.pure (.inl ⟨rfl, ?_, hh⟩))
    rw [hv]
    exact Option.some_ne_none v

/-! ## Dropping references -/

/-- References were dropped, and what had no link and no reference left was freed. -/
structure Released (sb : Fs.Superblock) (sys sys' : Sys) : Prop where
  refs : ∀ k, sys'.iref k ≤ sys.iref k
  inums : ∀ k, (sys'.inode k).inum = (sys.inode k).inum
  inode : ∀ i, ((sys'.disk.view sb).inode i = (sys.disk.view sb).inode i ∧ dirs sb sys'.disk i =
    dirs sb sys.disk i) ∨ (dirs sb sys'.disk i = none ∧ Dropped sb sys' i)

theorem Released.allocated (h : Released sb sys sys') (hk : 0 < sys'.iref k)
    (ha : (sys.disk.view sb).Allocated sb (sys.inode k).inum) :
    (sys'.disk.view sb).Allocated sb (sys'.inode k).inum := by
  rcases h.inode (sys'.inode k).inum with ⟨heq, -⟩ | ⟨-, -, -, hno⟩
  · refine ⟨by rw [h.inums]; exact ha.1, ?_⟩
    rw [heq, h.inums]
    exact ha.2
  · exact absurd rfl (hno k hk)

theorem Became.released (h : Became sb D sys) (hr : Released sb sys sys') : Became sb D sys' := by
  intro i
  rcases hr.inode i with ⟨hinode, hdirs⟩ | hdrop
  · rw [hdirs]
    refine (h i).imp id fun hdrop => ⟨hdrop.1, ?_⟩
    obtain ⟨htype, hnlink, hno⟩ := hdrop.2
    refine ⟨by rw [hinode]; exact htype, by rw [hinode]; exact hnlink, fun k hk => ?_⟩
    rw [hr.inums]
    exact hno k (Nat.lt_of_lt_of_le hk (hr.refs k))
  · exact .inr hdrop

theorem Became.of_eq (h : dirs sb sys.disk = D) : Became sb D sys := fun i => .inl (congrFun h i)

theorem Sound.iput (h : Sound sb sys) (hk : 0 < sys.iref k) :
    ∃ sys', Names.iput sb sys k = .ok sys' ∧ Sound sb sys' ∧ Released sb sys sys' ∧
      ∀ j, sys'.iref j + only k j = sys.iref j := by
  have hcount : ∀ sys' : Sys, sys'.iref k + 1 = sys.iref k →
      (∀ j, j ≠ k → sys'.iref j = sys.iref j) → ∀ j, sys'.iref j + only k j = sys.iref j := by
    intro sys' hself hne j
    by_cases hj : j = k
    · rw [hj, only_self]
      exact hself
    · rw [only_ne hj, hne j hj, Nat.add_zero]
  have hself : ∀ v, (sys.setInode k ⟨(sys.inode k).inum, (sys.inode k).ref - 1, v⟩).iref k + 1 =
      sys.iref k := by
    intro v
    rw [iref_setInode, if_pos rfl]
    exact Nat.succ_pred_eq_of_pos hk
  have hle : ∀ v j, (sys.setInode k ⟨(sys.inode k).inum, (sys.inode k).ref - 1, v⟩).iref j ≤
      sys.iref j := by
    intro v j
    by_cases hj : j = k
    · have := hself v
      rw [hj]
      omega
    · rw [iref_setInode, if_neg hj]
  have hnums : ∀ v j, ((sys.setInode k ⟨(sys.inode k).inum, (sys.inode k).ref - 1, v⟩).inode j).inum
      = (sys.inode j).inum := fun v j => inum_setInode (x := ⟨_, _, v⟩) rfl j
  unfold Names.iput Kernel.iput
  dsimp only
  by_cases hlast : (sys.inode k).ref = 1 ∧ (sys.inode k).valid = true ∧ (sys.dinode sb k).nlink = 0
  · obtain ⟨h1, hv, h0⟩ := hlast
    obtain ⟨d', hfree, hdir, hdirs, hother, htype, hnlink⟩ := h.dir.ifree (h.table.valid k hk hv)
    have hfree' : Fs.ifree sb sys.disk (sys.inode k).inum (sys.dinode sb k) = .ok d' := hfree
    rw [if_pos ⟨h1, hv, h0⟩, hfree']
    have hin : ∀ j, 0 < (sys.setInode k ⟨(sys.inode k).inum, (sys.inode k).ref - 1, false⟩).iref j →
        j ≠ k ∧ 0 < sys.iref j := by
      intro j hj
      have hjk : j ≠ k := by
        rintro rfl
        rw [iref_setInode, if_pos rfl, h1] at hj
        exact Nat.lt_irrefl 0 hj
      rw [iref_setInode, if_neg hjk] at hj
      exact ⟨hjk, hj⟩
    have hne : ∀ j, 0 < (sys.setInode k ⟨(sys.inode k).inum, (sys.inode k).ref - 1, false⟩).iref j →
        (sys.inode j).inum ≠ (sys.inode k).inum := fun j hj heq =>
      (hin j hj).1 (h.table.uniq j k (hin j hj).2 hk heq)
    refine ⟨_, rfl, ⟨hdir, ⟨fun j hj => h.table.range j (hin j hj).2, fun j j' hj hj' heq => ?_,
      fun j hj hv' => ?_⟩,
      fun j hj => ?_⟩, ⟨hle false, hnums false, fun i => ?_⟩, hcount _ (hself false) fun j hj => ?_⟩
    · exact h.table.uniq j j' (hin j hj).2 (hin j' hj').2
        ((hnums false j).symm.trans (heq.trans (hnums false j')))
    · change (d'.view sb).Allocated sb (((sys.setInode k _).inode j).inum)
      rw [hnums]
      rw [inode_setInode_ne _ (hin j hj).1] at hv'
      have ha := h.table.valid j (hin j hj).2 hv'
      exact ⟨ha.1, by rw [hother _ (hne j hj)]; exact ha.2⟩
    · have hn := h.nums j (hin j hj).2
      rw [← hnums false j] at hn
      exact hn
    · by_cases hi : i = (sys.inode k).inum
      · refine .inr ⟨?_, ?_, ?_, fun j hj => ?_⟩
        · change dirs sb d' i = none
          rw [hdirs, hi, Function.update_self]
        · change ((d'.view sb).inode i).type = 0
          rw [hi, htype]
        · change ((d'.view sb).inode i).nlink = 0
          rw [hi, hnlink]
          exact h0
        · exact fun heq => hne j hj ((hnums false j).symm.trans (heq.trans hi))
      · refine .inl ⟨hother i hi, ?_⟩
        change dirs sb d' i = _
        rw [hdirs, Function.update_of_ne hi]
    · exact (iref_setInode _ _ _ _).trans (if_neg hj)
  · rw [if_neg hlast]
    refine ⟨_, rfl, ⟨h.dir, h.table.recount hk _ _ (h.table.valid k hk), fun j hj => ?_⟩,
      ⟨hle _, hnums _, fun i => .inl ⟨rfl, rfl⟩⟩, hcount _ (hself _) fun j hj => ?_⟩
    · rw [hnums]
      exact h.nums j (Nat.lt_of_lt_of_le hj (hle _ j))
    · exact (iref_setInode _ _ _ _).trans (if_neg hj)

end

end Xv6.Names
