import Xv6.Names.Lookup

/-! # What the inode layer does to directories

`dirs` is what a disk says about directories: which inodes are directories, and their slots. A call
of the inode layer changes it in one place at most.
-/

namespace Xv6.Names

open Lib Kernel

def dirs (sb : Fs.Superblock) (d : Fs.Disk) (i : Nat) : Option (Slots (List UInt8) Nat) :=
  if IsDir sb d i then some (dirSlots sb d i) else none

/-- Directories consist of whole entries. -/
structure DirInv (sb : Fs.Superblock) (d : Fs.Disk) : Prop where
  fs : Fs.FsInv sb d
  whole : ∀ i, IsDir sb d i → WholeAt sb d i

/-- The inodes have the types and the link counts they had. -/
def SameLinks (sb : Fs.Superblock) (d d' : Fs.Disk) : Prop :=
  ∀ i, ((d'.view sb).inode i).type = ((d.view sb).inode i).type ∧
    ((d'.view sb).inode i).nlink = ((d.view sb).inode i).nlink

section

variable {sb : Fs.Superblock} {d d' : Fs.Disk} {i m : Nat} {bs : List UInt8}

theorem dirs_eq_some {t : Slots (List UInt8) Nat} :
    dirs sb d i = some t ↔ IsDir sb d i ∧ dirSlots sb d i = t := by
  unfold dirs
  split
  · rename_i h
    exact ⟨fun ht => ⟨h, Option.some.inj ht⟩, fun ht => congrArg _ ht.2⟩
  · rename_i h
    exact ⟨fun ht => (by cases ht), fun ht => absurd ht.1 h⟩

theorem IsDir.allocated (h : IsDir sb d i) : (d.view sb).Allocated sb i := by
  refine allocated_of_type ?_
  rw [show ((d.view sb).inode i).type = T_DIR from h]
  decide

theorem contents_congr (haddrs : ((d'.view sb).inode i).addrs = ((d.view sb).inode i).addrs)
    (hsize : ((d'.view sb).inode i).size = ((d.view sb).inode i).size)
    (hdata : (d'.view sb).data = (d.view sb).data) :
    (d'.view sb).contents i = (d.view sb).contents i := by
  unfold Fs.View.contents
  rw [hsize, hdata]
  exact List.map_congr_left fun p _ => Fs.fileByte_congr _ haddrs p

theorem DirInv.outside (h : DirInv sb d) (hfs : Fs.FsInv sb d')
    (htype : ∀ j, IsDir sb d' j ↔ IsDir sb d j)
    (hc : ∀ j, IsDir sb d j → (d'.view sb).contents j = (d.view sb).contents j) :
    DirInv sb d' ∧ dirs sb d' = dirs sb d := by
  refine ⟨⟨hfs, fun j hj => ?_⟩, ?_⟩
  · rw [htype] at hj
    unfold WholeAt
    rw [hc j hj]
    exact h.whole j hj
  · funext j
    unfold dirs
    by_cases hj : IsDir sb d j
    · rw [if_pos ((htype j).mpr hj), if_pos hj]
      unfold dirSlots
      rw [hc j hj]
    · rw [if_neg fun h => hj ((htype j).mp h), if_neg hj]

theorem DirInv.inside (h : DirInv sb d) (hfs : Fs.FsInv sb d')
    (hdir : IsDir sb d' i → WholeAt sb d' i) (htype : ∀ j, j ≠ i → (IsDir sb d' j ↔ IsDir sb d j))
    (hc : ∀ j, j ≠ i → IsDir sb d j → (d'.view sb).contents j = (d.view sb).contents j) :
    DirInv sb d' ∧ dirs sb d' = Function.update (dirs sb d) i (dirs sb d' i) := by
  refine ⟨⟨hfs, fun j hj => ?_⟩, ?_⟩
  · by_cases hji : j = i
    · subst hji
      exact hdir hj
    · rw [htype j hji] at hj
      unfold WholeAt
      rw [hc j hji hj]
      exact h.whole j hj
  · funext j
    by_cases hji : j = i
    · rw [hji, Function.update_self]
    · rw [Function.update_of_ne hji]
      unfold dirs
      by_cases hj : IsDir sb d j
      · rw [if_pos ((htype j hji).mpr hj), if_pos hj]
        unfold dirSlots
        rw [hc j hji hj]
      · rw [if_neg fun h => hj ((htype j hji).mp h), if_neg hj]

/-! ## Inodes -/

theorem DirInv.setFields (h : DirInv sb d) (hi : (d.view sb).Allocated sb i) {ip : Fs.Dinode}
    {major minor nlink : Nat}
    (hip : ip = { (d.view sb).inode i with major := major, minor := minor, nlink := nlink })
    (hmajor : major < 2 ^ 16)
    (hminor : minor < 2 ^ 16) (hnlink : nlink < 2 ^ 16) :
    DirInv sb (Fs.iupdate sb d i ip) ∧ dirs sb (Fs.iupdate sb d i ip) = dirs sb d ∧
      ((Fs.iupdate sb d i ip).view sb).inode = Function.update (d.view sb).inode i ip ∧
      ((Fs.iupdate sb d i ip).view sb).data = (d.view sb).data := by
  have hfits : ip.Fits := by
    rw [hip]
    exact (@Fs.view_inode_fits sb d i).withFields hmajor hminor hnlink
  have hfs : Fs.FsInv sb (Fs.iupdate sb d i ip) := by
    rw [hip]
    exact h.fs.setFields hi hmajor hminor hnlink
  have hview := @Fs.view_iupdate sb d i ip hi.1 hfits
  have hinode := congrArg Fs.View.inode hview
  have hdata := congrArg Fs.View.data hview
  dsimp only at hinode hdata
  have hsame : ∀ j, (((Fs.iupdate sb d i ip).view sb).inode j).type = ((d.view sb).inode j).type ∧
      (((Fs.iupdate sb d i ip).view sb).inode j).addrs = ((d.view sb).inode j).addrs ∧
      (((Fs.iupdate sb d i ip).view sb).inode j).size = ((d.view sb).inode j).size := by
    intro j
    rw [hinode, Function.update_apply]
    split
    · rename_i hj
      rw [hj, hip]
      exact ⟨rfl, rfl, rfl⟩
    · exact ⟨rfl, rfl, rfl⟩
  obtain ⟨hinv, hdirs⟩ := h.outside hfs (fun j => by unfold IsDir; rw [(hsame j).1]) fun j _ =>
    contents_congr (hsame j).2.1 (hsame j).2.2 hdata
  exact ⟨hinv, hdirs, hinode, hdata⟩

theorem DirInv.ialloc {type : Nat} (h : DirInv sb d) (htype : type < 2 ^ 16)
    (hr : Fs.ialloc sb d type = .ok (i, d')) : DirInv sb d' ∧ dirs sb d i = none ∧
      dirs sb d' = Function.update (dirs sb d) i (if type = T_DIR then some [] else none) ∧
      (d'.view sb).inode = Function.update (d.view sb).inode i (.zeroed type) ∧ (d'.view sb).data =
      (d.view sb).data ∧ i < sb.ninodes ∧ ((d.view sb).inode i).type = 0 := by
  obtain ⟨hfs, hlt, hfree, hview⟩ := h.fs.ialloc htype hr
  have hinode : (d'.view sb).inode = Function.update (d.view sb).inode i (.zeroed type) := by
    rw [hview]
    rfl
  have hdata : (d'.view sb).data = (d.view sb).data := by
    rw [hview]
    rfl
  have hother : ∀ j, j ≠ i → (d'.view sb).inode j = (d.view sb).inode j := fun j hj => by
    rw [hinode, Function.update_of_ne hj]
  have hself : (d'.view sb).inode i = .zeroed type := by rw [hinode, Function.update_self]
  have hempty : (d'.view sb).contents i = [] := by
    unfold Fs.View.contents
    rw [hself]
    rfl
  have hwhole : WholeAt sb d' i := by
    unfold WholeAt
    rw [hempty]
    rfl
  obtain ⟨hinv, hdirs⟩ := h.inside (i := i) hfs (fun _ => hwhole)
    (fun j hj => by unfold IsDir; rw [hother j hj])
    fun j hj _ => contents_congr (by rw [hother j hj]) (by rw [hother j hj]) hdata
  have hisdir : IsDir sb d' i ↔ type = T_DIR := by
    unfold IsDir
    rw [hself]
    rfl
  refine ⟨hinv, if_neg ?_, ?_, hinode, hdata, hlt, hfree⟩
  · unfold IsDir
    rw [hfree]
    decide
  · rw [hdirs]
    congr 1
    unfold dirs dirSlots
    simp only [hisdir]
    rw [hempty]
    rfl

theorem DirInv.ifree (h : DirInv sb d) (hi : (d.view sb).Allocated sb i) :
    ∃ d', Fs.ifree sb d i ((d.view sb).inode i) = .ok d' ∧ DirInv sb d' ∧
      dirs sb d' = Function.update (dirs sb d) i none ∧
      (∀ j, j ≠ i → (d'.view sb).inode j = (d.view sb).inode j) ∧ ((d'.view sb).inode i).type = 0 ∧
      ((d'.view sb).inode i).nlink = ((d.view sb).inode i).nlink := by
  obtain ⟨d', hr, hfs, hinode, hdata⟩ := h.fs.ifree_view hi
  have hother : ∀ j, j ≠ i → (d'.view sb).inode j = (d.view sb).inode j := fun j hj => by
    rw [hinode, Function.update_of_ne hj]
  have hself := congrFun hinode i
  rw [Function.update_self] at hself
  have hnot : ¬ IsDir sb d' i := by
    unfold IsDir
    rw [hself]
    exact (by decide : ¬ 0 = T_DIR)
  obtain ⟨hinv, hdirs⟩ := h.inside (i := i) hfs (fun hdir => absurd hdir hnot)
    (fun j hj => by unfold IsDir; rw [hother j hj])
    fun j hj _ => contents_congr (by rw [hother j hj]) (by rw [hother j hj]) hdata
  refine ⟨d', hr, hinv, ?_, hother, by rw [hself], by rw [hself]; rfl⟩
  rw [hdirs]
  congr 1
  exact if_neg hnot

/-! ## Files -/

theorem DirInv.writei {off n : Nat} {src : Nat → Option UInt8} (h : DirInv sb d)
    (hi : (d.view sb).Allocated sb i) (hfile : ¬ IsDir sb d i) (hoff : off < 2 ^ 32)
    (hn : n < 2 ^ 32) :
    Post (· = .ballocOutOfBlocks) (fun r => DirInv sb r.2.2 ∧ dirs sb r.2.2 = dirs sb d ∧
      SameLinks sb d r.2.2)
      (Fs.writei sb d i ((d.view sb).inode i) src off n) := by
  obtain ⟨hErr, hOk⟩ := @Fs.AllocInv.writei sb d i off n src h.fs.alloc hi hoff hn
  cases hr : Fs.writei sb d i ((d.view sb).inode i) src off n with
  | error f => exact .error (hErr f hr)
  | ok r =>
    obtain ⟨c, ip', d'⟩ := r
    have hw := hOk _ _ _ hr
    obtain ⟨addrs, size, hfields⟩ := h.fs.alloc.writei_fields hi hoff hn hr
    have hlinks : SameLinks sb d d' := by
      intro j
      by_cases hj : j = i
      · rw [hj, hfields]
        exact ⟨rfl, rfl⟩
      · rw [hw.inodes j hj]
        exact ⟨rfl, rfl⟩
    obtain ⟨hinv, hdirs⟩ := h.outside ⟨hw.alloc, hw.clean h.fs.clean⟩
      (fun j => by unfold IsDir; rw [(hlinks j).1]) fun j hj =>
        hw.others j (fun hji => hfile (hji ▸ hj)) hj.allocated
    exact .ok ⟨hinv, hdirs, hlinks⟩

theorem DirInv.itrunc (h : DirInv sb d) (hi : (d.view sb).Allocated sb i) (hfile : ¬ IsDir sb d i) :
    ∃ ip d', Fs.itrunc sb d i ((d.view sb).inode i) = .ok (ip, d') ∧ DirInv sb d' ∧
    dirs sb d' = dirs sb d ∧
      SameLinks sb d d' := by
  obtain ⟨d', hr, hfs, hinode, hdata⟩ := h.fs.itrunc hi
  have hlinks : SameLinks sb d d' := by
    intro j
    rw [hinode, Function.update_apply]
    split
    · rename_i hj
      rw [hj]
      exact ⟨rfl, rfl⟩
    · exact ⟨rfl, rfl⟩
  obtain ⟨hinv, hdirs⟩ := h.outside hfs (fun j => by unfold IsDir; rw [(hlinks j).1]) fun j hj => by
    have hji : j ≠ i := fun hji => hfile (hji ▸ hj)
    exact contents_congr (by rw [hinode, Function.update_of_ne hji])
      (by rw [hinode, Function.update_of_ne hji]) hdata
  exact ⟨_, d', hr, hinv, hdirs, hlinks⟩

/-! ## Entries -/

theorem writei_error {off n : Nat} {src : Nat → Option UInt8} {f : Fs.Panic}
    (h : Fs.AllocInv sb (d.view sb)) (hi : (d.view sb).Allocated sb i) (hoff : off < 2 ^ 32)
    (hn : n < 2 ^ 32) (hr : Fs.writei sb d i ((d.view sb).inode i) src off n = .error f) :
    f = .ballocOutOfBlocks ∧ ((d.view sb).freeBlocks sb).card < Fs.blocksNeeded (d.view sb).data
    ((d.view sb).inode i) off n := by
  refine ⟨(h.writei hi hoff hn).1 f hr, ?_⟩
  by_contra hle
  by_cases hrej : Fs.Rejected ((d.view sb).inode i).size off n
  · rw [Fs.writei_rejected hoff hn hrej] at hr
    cases hr
  · rw [Fs.writei_accepted hrej] at hr
    simp only [Fs.Rejected, not_or, Nat.not_lt, Nat.not_le] at hrej
    obtain ⟨r, hloop⟩ := @Fs.writeiLoop_total sb d i off n 0 ((d.view sb).inode i) src n
      (h.working hi) (Nat.zero_le _) (by omega) (by rw [Nat.sub_zero]; omega)
    rw [hloop] at hr
    cases hr

theorem blocksNeeded_entry (h : Fs.AllocInv sb (d.view sb)) (hi : (d.view sb).Allocated sb i)
    (hm : direntSize * m < sizeOf sb d i) :
    Fs.blocksNeeded (d.view sb).data ((d.view sb).inode i) (direntSize * m) direntSize = 0 := by
  have hne := (Fs.NoHole.ptr_ne_zero (h.noHole i hi) hm).2
  have hlast : (direntSize * m + direntSize - 1) / BSIZE = direntSize * m / BSIZE := by
    unfold direntSize BSIZE
    omega
  unfold Fs.blocksNeeded Fs.needFrom
  rw [if_neg (by decide), hlast, Nat.add_sub_cancel_left, List.range'_one, List.countP_singleton]
  have hind : ¬ (Fs.NDIRECT < direntSize * m / BSIZE + 1 ∧ ((d.view sb).inode i).addrs Fs.NDIRECT =
      0) := by
    rintro ⟨hge, h0⟩
    refine hne ?_
    have hslot : Fs.fileSlot (direntSize * m / BSIZE) = direntSize * m / BSIZE + 1 :=
      if_neg (by omega)
    unfold Fs.filePtr Fs.slotPtr
    rw [hslot, if_neg (by omega), if_neg (fun hand => hand.2 h0)]
  rw [if_neg hind, decide_eq_false hne]
  rfl

/-- Writing slot `m` of a directory, or adding it; there may be no room to add it. -/
theorem DirInv.writeDirent (h : DirInv sb d) (hi : IsDir sb d i) (hm : m ≤ (dirSlots sb d i).length)
    (hbs : bs.length = direntSize) (e : Panic) :
    Post (fun f => m = (dirSlots sb d i).length ∧ (f = e ∧ sizeOf sb d i = Fs.MAXFILE * BSIZE ∨
        f = .kernel (.fs .ballocOutOfBlocks) ∧ ((d.view sb).freeBlocks sb).card <
          Fs.blocksNeeded (d.view sb).data ((d.view sb).inode i) (direntSize * m) direntSize))
      (fun d' => DirInv sb d' ∧ SameLinks sb d d' ∧
        dirs sb d' = Function.update (dirs sb d) i (some ((dirSlots sb d i).put m (slotOf bs))))
      (Names.writeDirent sb d i (direntSize * m) bs e) := by
  have hal := hi.allocated
  have hwhole : sizeOf sb d i % direntSize = 0 := by
    rw [← contents_length_eq]
    exact h.whole i hi
  have hmax : sizeOf sb d i ≤ Fs.MAXFILE * BSIZE := Fs.size_le_maxfile h.fs.alloc hal
  have hbig : Fs.MAXFILE * BSIZE = 17152 * direntSize := by decide
  have h16 : direntSize = 16 := rfl
  rw [dirSlots_length] at hm ⊢
  have hle : direntSize * m ≤ sizeOf sb d i := by
    rw [h16] at hm ⊢
    omega
  have hend : m ≠ sizeOf sb d i / direntSize → direntSize * m < sizeOf sb d i := by
    rw [h16] at hm ⊢
    omega
  have hoff : direntSize * m < 2 ^ 32 := by
    rw [hbig, h16] at hmax
    omega
  unfold Names.writeDirent
  cases hr : Fs.writei sb d i ((d.view sb).inode i) (fun k => some (bs.getD k 0))
    (direntSize * m) direntSize with
  | error f =>
    obtain ⟨rfl, hfew⟩ := writei_error h.fs.alloc hal hoff (by decide) hr
    refine .error ⟨?_, .inr ⟨rfl, hfew⟩⟩
    by_contra hlt
    rw [blocksNeeded_entry h.fs.alloc hal (hend hlt)] at hfew
    exact Nat.not_lt_zero _ hfew
  | ok r =>
    obtain ⟨r, ip', d'⟩ := r
    have hw := (h.fs.alloc.writei hal hoff (by decide)).2 _ _ _ hr
    change Post _ _ (if r ≠ direntSize then throw e else pure d')
    by_cases hrej : Fs.Rejected ((d.view sb).inode i).size (direntSize * m) direntSize
    · rw [(hw.rejected hrej).1, if_pos (by decide)]
      have hfull : Fs.MAXFILE * BSIZE < direntSize * m + direntSize := by
        unfold sizeOf at hle hmax
        unfold Fs.Rejected at hrej
        omega
      have hsize : direntSize * m = Fs.MAXFILE * BSIZE := by
        rw [hbig, h16] at hfull hmax ⊢
        rw [h16] at hle
        omega
      refine .throw ⟨?_, .inl ⟨rfl, by omega⟩⟩
      by_contra hlt
      have := hend hlt
      omega
    · obtain ⟨rfl, -, hcontents⟩ := hw.accepted hrej fun _ _ => rfl
      rw [if_neg (not_not.mpr rfl)]
      rw [bytes_of_buffer hbs] at hcontents
      obtain ⟨addrs, size, hfields⟩ := h.fs.alloc.writei_fields hal hoff (by decide) hr
      have hlinks : SameLinks sb d d' := by
        intro j
        by_cases hj : j = i
        · rw [hj, hfields]
          exact ⟨rfl, rfl⟩
        · rw [hw.inodes j hj]
          exact ⟨rfl, rfl⟩
      have hlen : direntSize * m ≤ ((d.view sb).contents i).length := by rwa [contents_length_eq]
      have hdir : IsDir sb d' i := (hlinks i).1.trans hi
      have hwhole' : WholeAt sb d' i := by
        unfold WholeAt
        rw [hcontents]
        exact whole_writeRange (h.whole i hi) hbs hlen
      obtain ⟨hinv, hdirs⟩ := h.inside (i := i) ⟨hw.alloc, hw.clean h.fs.clean⟩ (fun _ => hwhole')
        (fun j _ => by unfold IsDir; rw [(hlinks j).1]) fun j hji hj => hw.others j hji hj.allocated
      refine .pure ⟨hinv, hlinks, ?_⟩
      rw [hdirs]
      congr 1
      unfold dirs dirSlots
      rw [if_pos hdir, hcontents, slots_writeRange (h.whole i hi) hbs hlen]

end

end Xv6.Names
