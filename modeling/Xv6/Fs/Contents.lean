import Xv6.Fs.Trunc

/-! # The bytes of a file

What mapping a file block and changing a file's data block do to the bytes of the
file and to every block that does not belong to it.
-/

namespace Xv6.Fs

open Function Lib

variable {sb : Superblock} {d d' : Disk} {i bn b p : Nat} {ip ip' : Dinode} {blk : Block}

/-- Byte `p` of a file; a block that is not there reads as zeroes. -/
def fileByte (data : Nat → Block) (ip : Dinode) (p : Nat) : UInt8 :=
  if filePtr data ip (p / BSIZE) = 0 then 0
  else (data (filePtr data ip (p / BSIZE))).get (p % BSIZE)

def Foreign (sb : Superblock) (d : Disk) (ip : Dinode) (b : Nat) : Prop :=
  (d.view sb).used b = true ∧ ∀ k, slotPtr (d.view sb).data ip k ≠ b

/-- What a call on one inode leaves alone. -/
structure Frame (sb : Superblock) (d : Disk) (ip : Dinode) (d' : Disk) (ip' : Dinode) : Prop where
  inode : (d'.view sb).inode = (d.view sb).inode
  fields : ip' = { ip with addrs := ip'.addrs }
  slots : ∀ k, slotPtr (d.view sb).data ip k ≠ 0 →
    slotPtr (d'.view sb).data ip' k = slotPtr (d.view sb).data ip k
  foreign : ∀ b, Foreign sb d ip b →
    Foreign sb d' ip' b ∧ (d'.view sb).data b = (d.view sb).data b

theorem Frame.refl (sb : Superblock) (d : Disk) (ip : Dinode) : Frame sb d ip d ip :=
  ⟨rfl, rfl, fun _ _ => rfl, fun _ h => ⟨h, rfl⟩⟩

theorem Frame.trans {d₁ : Disk} {ip₁ : Dinode} (h : Frame sb d ip d₁ ip₁)
    (h' : Frame sb d₁ ip₁ d' ip') : Frame sb d ip d' ip' := by
  refine ⟨h'.inode.trans h.inode, ?_, ?_, ?_⟩
  · have h1 := h.fields
    have h2 := h'.fields
    rw [h1] at h2
    exact h2
  · intro k hk
    have hs := h.slots k hk
    rw [← hs] at hk ⊢
    exact h'.slots k hk
  · intro b hb
    obtain ⟨hb₁, hd₁⟩ := h.foreign b hb
    obtain ⟨hb₂, hd₂⟩ := h'.foreign b hb₁
    exact ⟨hb₂, hd₂.trans hd₁⟩

theorem Working.foreign_indirect (h : Working sb d i ip) {j : Nat} (hji : j ≠ i)
    (hj : (d.view sb).Allocated sb j) (ha : ((d.view sb).inode j).addrs NDIRECT ≠ 0) :
    Foreign sb d ip (((d.view sb).inode j).addrs NDIRECT) := by
  have hj' : ((d.view sb).withInode i ip).Allocated sb j := by
    rw [View.Allocated, withInode_ne hji]
    exact hj
  have hown := owner_indirect hj'
  rw [withInode_ne hji] at hown
  refine ⟨?_, fun k hk => ?_⟩
  · rw [← hown]
    exact h.owns.used_own (by rwa [hown])
  · rw [← h.owner, ← hown] at hk
    have := h.owns.inj _ _ (by rw [hk, hown]; exact ha) hk
    exact hji (congrArg Prod.fst this).symm

theorem Frame.slotPtr_other (hf : Frame sb d ip d' ip') (h : Working sb d i ip) {j : Nat}
    (hji : j ≠ i) (hj : (d.view sb).Allocated sb j) (k : Nat) :
    slotPtr (d'.view sb).data ((d.view sb).inode j) k =
      slotPtr (d.view sb).data ((d.view sb).inode j) k :=
  slotPtr_congr rfl fun ha => (hf.foreign _ (h.foreign_indirect hji hj ha)).2

theorem Frame.fileByte_other (hf : Frame sb d ip d' ip') (h : Working sb d i ip) {j : Nat}
    (hji : j ≠ i) (hj : (d.view sb).Allocated sb j) (p : Nat) :
    fileByte (d'.view sb).data ((d.view sb).inode j) p =
      fileByte (d.view sb).data ((d.view sb).inode j) p := by
  have hslot := hf.slotPtr_other h hji hj
  unfold fileByte filePtr
  rw [hslot]
  by_cases h0 : slotPtr (d.view sb).data ((d.view sb).inode j) (fileSlot (p / BSIZE)) = 0
  · rw [if_pos h0, if_pos h0]
  · rw [if_neg h0, if_neg h0]
    have hj' : ((d.view sb).withInode i ip).Allocated sb j := by
      rw [View.Allocated, withInode_ne hji]
      exact hj
    have hown := owner_of_allocated hj' (fileSlot (p / BSIZE))
    rw [withInode_ne hji] at hown
    have hforeign : Foreign sb d ip
        (slotPtr (d.view sb).data ((d.view sb).inode j) (fileSlot (p / BSIZE))) := by
      refine ⟨?_, fun k hk => ?_⟩
      · have := h.owns.used_own (x := (j, fileSlot (p / BSIZE))) (by rw [hown]; exact h0)
        rwa [hown] at this
      · rw [← h.owner] at hk
        have := h.owns.inj (i, k) (j, fileSlot (p / BSIZE)) (by rw [hk]; exact h0)
          (by rw [hown]; exact hk)
        exact hji (congrArg Prod.fst this).symm
    rw [(hf.foreign _ hforeign).2]

/-! ## Mapping a block -/

theorem Mapped.frame (h : Mapped sb i bn d ip b d' ip') : Frame sb d ip d' ip' := by
  refine ⟨h.ext.inode, h.ext.fields, h.ext.slots, fun c hc => ⟨⟨h.ext.used c hc.1, ?_⟩, ?_⟩⟩
  · intro k hk
    by_cases h0 : slotPtr (d.view sb).data ip k = 0
    · by_cases h1 : slotPtr (d'.view sb).data ip' k = 0
      · exact hc.2 k (by rw [h0, ← hk, h1])
      · have hfree := h.ext.filled k h0 h1
        rw [hk, hc.1] at hfree
        cases hfree
    · rw [h.ext.slots k h0] at hk
      exact hc.2 k hk
  · refine h.ext.data c hc.1 fun hcN => hc.2 NDIRECT ?_
    rw [slotPtr_le _ (Nat.le_refl _), hcN]

theorem Mapped.fileByte (hw : Working sb d i ip) (h : Mapped sb i bn d ip b d' ip') (p : Nat) :
    fileByte (d'.view sb).data ip' p = fileByte (d.view sb).data ip p := by
  unfold Fs.fileByte
  by_cases hp : p / BSIZE = bn
  · rw [hp]
    by_cases h0 : filePtr (d.view sb).data ip bn = 0
    · rw [if_pos h0, h.ptr, if_neg h.ne_zero, (h.fresh h0).2, Bytes.get_zero]
    · obtain ⟨rfl, rfl⟩ := h.same h0
      rfl
  · rw [h.others _ hp]
    by_cases h0 : filePtr (d.view sb).data ip (p / BSIZE) = 0
    · rw [if_pos h0, if_pos h0]
    · rw [if_neg h0, if_neg h0]
      congr 1
      refine h.ext.data _ (hw.used h0) fun hN => fileSlot_ne_NDIRECT (p / BSIZE) ?_
      exact hw.slot_inj h0 (by rw [slotPtr_le _ (Nat.le_refl NDIRECT)]; exact hN)

/-! ## Changing a data block -/

theorem Working.not_meta (h : Working sb d i ip) (hne : filePtr (d.view sb).data ip bn ≠ 0) :
    ¬ ((d.view sb).withInode i ip).Meta sb (filePtr (d.view sb).data ip bn) := by
  rintro (hlt | ⟨j, hj, hjb⟩)
  · have := (h.region hne).1
    unfold filePtr at hlt
    omega
  · have hx := h.owner (fileSlot bn)
    have hinj := h.owns.inj (i, fileSlot bn) (j, NDIRECT) (by rw [hx]; exact hne)
      (by rw [hx, owner_indirect hj, hjb]; rfl)
    exact fileSlot_ne_NDIRECT bn (congrArg Prod.snd hinj)

theorem Disk.CleanOn.scribble {P : Nat → Prop} (h : d.CleanOn P) (hb : ¬ P b) :
    (d.scribble b blk).CleanOn P := by
  intro c hc
  have hcb : c ≠ b := fun heq => hb (heq ▸ hc)
  simp only [Disk.scribble]
  rw [update_of_ne hcb]
  exact h c hc

/-- Changing the data block of file block `bn`, logged or not. -/
structure Stored (sb : Superblock) (i bn : Nat) (ip : Dinode) (blk : Block) (d d' : Disk) :
    Prop where
  working : Working sb d' i ip
  frame : Frame sb d ip d' ip
  slots : ∀ k, slotPtr (d'.view sb).data ip k = slotPtr (d.view sb).data ip k
  used : (d'.view sb).used = (d.view sb).used
  fileByte : ∀ p, fileByte (d'.view sb).data ip p =
    if p / BSIZE = bn then blk.get (p % BSIZE) else fileByte (d.view sb).data ip p
  clean : CleanWith sb d i ip → CleanWith sb d' i ip

theorem Working.stored (h : Working sb d i ip) (hne : filePtr (d.view sb).data ip bn ≠ 0)
    (hview : d'.view sb = { d.view sb with
      data := update (d.view sb).data (filePtr (d.view sb).data ip bn) blk })
    (hclean : ∀ P : Nat → Prop, ¬ P (filePtr (d.view sb).data ip bn) → d.CleanOn P →
      d'.CleanOn P) : Stored sb i bn ip blk d d' := by
  have hnm := h.not_meta hne
  have hind : ∀ j, ((d.view sb).withInode i ip).Allocated sb j →
      (((d.view sb).withInode i ip).inode j).addrs NDIRECT ≠ filePtr (d.view sb).data ip bn :=
    fun j hj heq => hnm (Or.inr ⟨j, hj, heq⟩)
  have hself := hind i h.allocated
  rw [withInode_self] at hself
  have hslots : ∀ k, slotPtr (d'.view sb).data ip k = slotPtr (d.view sb).data ip k := by
    intro k
    rw [hview]
    exact slotPtr_congr rfl fun _ => update_of_ne hself _ _
  have hused : (d'.view sb).used = (d.view sb).used := by rw [hview]
  have hinode : (d'.view sb).inode = (d.view sb).inode := by rw [hview]
  refine ⟨⟨h.lt, h.type, h.fits, ?_⟩, ⟨hinode, rfl, fun k _ => hslots k, ?_⟩, hslots, hused, ?_, ?_⟩
  · have howner : ((d'.view sb).withInode i ip).owner sb =
        ((d.view sb).withInode i ip).owner sb := by
      refine owner_congr (by simp only [View.withInode, hinode]) fun j hj _ => ?_
      rw [hview]
      exact update_of_ne (hind j hj) _ _
    rw [howner, hused]
    exact h.owns
  · intro c hc
    refine ⟨⟨by rw [hused]; exact hc.1, fun k => by rw [hslots]; exact hc.2 k⟩, ?_⟩
    rw [hview]
    exact update_of_ne (fun heq => hc.2 (fileSlot bn) heq.symm) _ _
  · intro p
    unfold Fs.fileByte filePtr
    rw [hslots]
    by_cases hp : p / BSIZE = bn
    · have hne' : slotPtr (d.view sb).data ip (fileSlot bn) ≠ 0 := hne
      rw [if_pos hp, hp, if_neg hne', hview]
      exact congrArg (Bytes.get · (p % BSIZE)) (update_self _ _ _)
    · rw [if_neg hp]
      by_cases h0 : slotPtr (d.view sb).data ip (fileSlot (p / BSIZE)) = 0
      · rw [if_pos h0, if_pos h0]
      · rw [if_neg h0, if_neg h0, hview]
        refine congrArg (Bytes.get · (p % BSIZE)) (update_of_ne ?_ _ _)
        intro heq
        exact hp (fileSlot_inj (h.slot_inj h0 heq))
  · intro hcl
    have hmeta : ((d'.view sb).withInode i ip).Meta sb = ((d.view sb).withInode i ip).Meta sb := by
      apply Meta_congr
      simp only [View.withInode, hinode]
    rw [CleanWith, hmeta]
    exact hclean _ hnm hcl

theorem Working.stored_put (h : Working sb d i ip) (hne : filePtr (d.view sb).data ip bn ≠ 0) :
    Stored sb i bn ip blk d (d.put (filePtr (d.view sb).data ip bn) blk) :=
  h.stored hne (view_put (h.region hne).1) fun _ _ hcl => hcl.put fun _ hc => Or.inr hc

theorem Working.stored_scribble (h : Working sb d i ip)
    (hne : filePtr (d.view sb).data ip bn ≠ 0) :
    Stored sb i bn ip blk d (d.scribble (filePtr (d.view sb).data ip bn) blk) :=
  h.stored hne (view_scribble (h.region hne).1) fun _ hnot hcl => hcl.scribble hnot

end Xv6.Fs
