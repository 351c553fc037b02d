import Mathlib.Data.Finset.Card
import Mathlib.Data.Finset.Range
import Xv6.Fs.Owner

/-! # Allocation through `bmap`

While a call works on a locked inode its in-memory copy may be ahead of the inode
block. `Working` is the block-allocation invariant with the copy in place of the
inode; `Extends` says what filling slots leaves alone.
-/

namespace Xv6.Fs

open Function Lib

/-- Blocks whose buffers never differ from what was last logged: the blocks before
the data region and the indirect blocks. -/
def View.Meta (sb : Superblock) (v : View) (b : Nat) : Prop :=
  b < sb.datastart ∨ ∃ j, v.Allocated sb j ∧ (v.inode j).addrs NDIRECT = b

def Disk.CleanOn (d : Disk) (P : Nat → Prop) : Prop := ∀ b, P b → d.cached b = d.logged b

structure Working (sb : Superblock) (d : Disk) (i : Nat) (ip : Dinode) : Prop where
  lt : i < sb.ninodes
  type : ip.type ≠ 0
  fits : ip.Fits
  owns : Owns (((d.view sb).withInode i ip).owner sb) sb.datastart sb.size (d.view sb).used

/-- The metadata buffers are clean, with `ip` for inode `i`. -/
def CleanWith (sb : Superblock) (d : Disk) (i : Nat) (ip : Dinode) : Prop :=
  d.CleanOn (((d.view sb).withInode i ip).Meta sb)

variable {sb : Superblock} {d d' : Disk} {i k b bn : Nat} {ip ip' : Dinode}

theorem Disk.CleanOn.put {P Q : Nat → Prop} {blk : Block} (h : d.CleanOn P)
    (hQ : ∀ c, Q c → c = b ∨ P c) : (d.put b blk).CleanOn Q := by
  intro c hc
  simp only [Disk.put]
  by_cases hcb : c = b
  · subst hcb
    rw [update_self, update_self]
  · rw [update_of_ne hcb, update_of_ne hcb]
    exact h c ((hQ c hc).resolve_left hcb)

namespace Working

theorem allocated (h : Working sb d i ip) : ((d.view sb).withInode i ip).Allocated sb i :=
  ⟨h.lt, by rw [withInode_self]; exact h.type⟩

theorem owner (h : Working sb d i ip) (k : Nat) :
    ((d.view sb).withInode i ip).owner sb (i, k) = slotPtr (d.view sb).data ip k := by
  rw [owner_of_allocated h.allocated, withInode_self]
  rfl

theorem region (h : Working sb d i ip) (hk : slotPtr (d.view sb).data ip k ≠ 0) :
    sb.datastart ≤ slotPtr (d.view sb).data ip k ∧ slotPtr (d.view sb).data ip k < sb.size := by
  rw [← h.owner]
  exact h.owns.region _ (by rwa [h.owner])

theorem used (h : Working sb d i ip) (hk : slotPtr (d.view sb).data ip k ≠ 0) :
    (d.view sb).used (slotPtr (d.view sb).data ip k) = true := by
  rw [← h.owner]
  exact h.owns.used_own (by rwa [h.owner])

theorem slot_inj (h : Working sb d i ip) {l : Nat} (hk : slotPtr (d.view sb).data ip k ≠ 0)
    (hkl : slotPtr (d.view sb).data ip k = slotPtr (d.view sb).data ip l) : k = l := by
  have := h.owns.inj (i, k) (i, l) (by rwa [h.owner]) (by rw [h.owner, h.owner, hkl])
  exact congrArg Prod.snd this

end Working

/-! ## Free blocks -/

def View.freeBlocks (sb : Superblock) (v : View) : Finset Nat :=
  (Finset.range sb.size).filter fun b => v.used b = false

theorem mem_freeBlocks {v : View} : b ∈ v.freeBlocks sb ↔ b < sb.size ∧ v.used b = false := by
  simp [View.freeBlocks]

theorem freeBlocks_congr {v v' : View} (h : v'.used = v.used) :
    v'.freeBlocks sb = v.freeBlocks sb := by
  unfold View.freeBlocks
  rw [h]

theorem freeBlocks_update {v v' : View} (hb : b < sb.size) (hfree : v.used b = false)
    (hused : v'.used = update v.used b true) :
    (v'.freeBlocks sb).card + 1 = (v.freeBlocks sb).card := by
  have herase : v'.freeBlocks sb = (v.freeBlocks sb).erase b := by
    ext c
    rw [Finset.mem_erase, mem_freeBlocks, mem_freeBlocks, hused]
    by_cases hcb : c = b
    · subst hcb
      simp
    · simp [hcb]
  rw [herase, Finset.card_erase_add_one (mem_freeBlocks.mpr ⟨hb, hfree⟩)]

theorem balloc_total (h : 0 < ((d.view sb).freeBlocks sb).card) : ∃ r, balloc sb d = .ok r := by
  cases hb : balloc sb d with
  | ok r => exact ⟨r, rfl⟩
  | error f =>
    obtain ⟨c, hc⟩ := Finset.card_pos.mp h
    obtain ⟨hlt, hfree⟩ := mem_freeBlocks.mp hc
    rw [(balloc_error hb).2 c hlt] at hfree
    cases hfree

/-! ## Filling slots -/

/-- `d'` and `ip'` come from `d` and `ip` by filling empty slots of inode `i`. -/
structure Extends (sb : Superblock) (i : Nat) (d : Disk) (ip : Dinode) (d' : Disk)
    (ip' : Dinode) : Prop where
  inode : (d'.view sb).inode = (d.view sb).inode
  fields : ip' = { ip with addrs := ip'.addrs }
  used : ∀ b, (d.view sb).used b = true → (d'.view sb).used b = true
  slots : ∀ k, slotPtr (d.view sb).data ip k ≠ 0 →
    slotPtr (d'.view sb).data ip' k = slotPtr (d.view sb).data ip k
  filled : ∀ k, slotPtr (d.view sb).data ip k = 0 → slotPtr (d'.view sb).data ip' k ≠ 0 →
    (d.view sb).used (slotPtr (d'.view sb).data ip' k) = false
  data : ∀ b, (d.view sb).used b = true → b ≠ ip.addrs NDIRECT →
    (d'.view sb).data b = (d.view sb).data b

namespace Extends

theorem refl (sb : Superblock) (i : Nat) (d : Disk) (ip : Dinode) : Extends sb i d ip d ip :=
  ⟨rfl, rfl, fun _ h => h, fun _ _ => rfl, fun _ h h' => absurd h h', fun _ _ _ => rfl⟩

theorem indirect {d' : Disk} (h : Extends sb i d ip d' ip') (ha : ip.addrs NDIRECT ≠ 0) :
    ip'.addrs NDIRECT = ip.addrs NDIRECT := by
  have := h.slots NDIRECT (by rwa [slotPtr_le _ (Nat.le_refl _)])
  rwa [slotPtr_le _ (Nat.le_refl _), slotPtr_le _ (Nat.le_refl _)] at this

theorem trans {d₁ : Disk} {ip₁ : Dinode} (h : Extends sb i d ip d₁ ip₁)
    (h' : Extends sb i d₁ ip₁ d' ip')
    (hind : ip.addrs NDIRECT = 0 → ∀ b, (d.view sb).used b = true → b ≠ ip₁.addrs NDIRECT) :
    Extends sb i d ip d' ip' := by
  refine ⟨h'.inode.trans h.inode, ?_, fun b hb => h'.used b (h.used b hb), ?_, ?_, ?_⟩
  · have h1 := h.fields
    have h2 := h'.fields
    rw [h1] at h2
    exact h2
  · intro k hk
    have hs := h.slots k hk
    rw [← hs] at hk ⊢
    exact h'.slots k hk
  · intro k hk hk'
    by_cases hk₁ : slotPtr (d₁.view sb).data ip₁ k = 0
    · have hfree := h'.filled k hk₁ hk'
      by_contra hused
      rw [h.used _ (by simpa using hused)] at hfree
      cases hfree
    · rw [h'.slots k hk₁]
      exact h.filled k hk hk₁
  · intro b hb hne
    rw [h'.data b (h.used b hb), h.data b hb hne]
    by_cases ha : ip.addrs NDIRECT = 0
    · exact hind ha b hb
    · rwa [h.indirect ha]

end Extends

/-- `balloc` during a call: the block is free, in the data region and zeroed. -/
theorem Working.balloc (h : Working sb d i ip) (hb : balloc sb d = .ok (b, d')) :
    sb.datastart ≤ b ∧ b < sb.size ∧ (d.view sb).used b = false ∧
      d' = (d.mark sb b).put b Bytes.zero ∧
      d'.view sb = { d.view sb with
        used := update (d.view sb).used b true
        data := update (d.view sb).data b Bytes.zero } := by
  obtain ⟨hlt, hfree, rfl⟩ := balloc_ok hb
  have hlo := h.owns.free_ge hlt hfree
  exact ⟨hlo, hlt, hfree, rfl, view_balloc hlt hlo⟩

structure Filled (sb : Superblock) (i k : Nat) (d : Disk) (ip : Dinode) (b : Nat) (d' : Disk)
    (ip' : Dinode) : Prop where
  working : Working sb d' i ip'
  ext : Extends sb i d ip d' ip'
  slot : slotPtr (d'.view sb).data ip' k = b
  ne_zero : b ≠ 0
  others : ∀ l, l ≠ k → slotPtr (d'.view sb).data ip' l = slotPtr (d.view sb).data ip l
  fresh : slotPtr (d.view sb).data ip k = 0 →
    (d.view sb).used b = false ∧ (d'.view sb).data b = Bytes.zero
  same : slotPtr (d.view sb).data ip k ≠ 0 → d' = d ∧ ip' = ip
  count : ((d'.view sb).freeBlocks sb).card +
    (if slotPtr (d.view sb).data ip k = 0 then 1 else 0) = ((d.view sb).freeBlocks sb).card
  clean : CleanWith sb d i ip → CleanWith sb d' i ip'

theorem Working.filled_self (h : Working sb d i ip) (hk : slotPtr (d.view sb).data ip k ≠ 0) :
    Filled sb i k d ip (slotPtr (d.view sb).data ip k) d ip :=
  ⟨h, .refl .., rfl, hk, fun _ _ => rfl, fun h0 => absurd h0 hk, fun _ => ⟨rfl, rfl⟩,
    by rw [if_neg hk, Nat.add_zero], id⟩

/-- Filling a slot with a fresh block, when the owners change at that slot only. -/
theorem Working.filled_fresh (h : Working sb d i ip) (hzero : slotPtr (d.view sb).data ip k = 0)
    (hlt : b < sb.size) (hfree : (d.view sb).used b = false)
    (hfits : ip'.Fits) (hfields : ip' = { ip with addrs := ip'.addrs })
    (hinode : (d'.view sb).inode = (d.view sb).inode)
    (hused : (d'.view sb).used = update (d.view sb).used b true)
    (howner : ((d'.view sb).withInode i ip').owner sb =
      update (((d.view sb).withInode i ip).owner sb) (i, k) b)
    (hdata : ∀ c, (d.view sb).used c = true → c ≠ ip.addrs NDIRECT →
      (d'.view sb).data c = (d.view sb).data c)
    (hnew : (d'.view sb).data b = Bytes.zero)
    (hclean : CleanWith sb d i ip → CleanWith sb d' i ip') :
    Filled sb i k d ip b d' ip' := by
  have hb0 : b ≠ 0 := by
    have := h.owns.free_ge hlt hfree
    have := sb.datastart_pos
    omega
  have htype : ip'.type ≠ 0 := by
    rw [hfields]
    exact h.type
  have hwork : Working sb d' i ip' := by
    refine ⟨h.lt, htype, hfits, ?_⟩
    rw [howner, hused]
    exact h.owns.assign (by rw [h.owner, hzero]) hlt hfree
  have hslot : ∀ l, slotPtr (d'.view sb).data ip' l =
      if l = k then b else slotPtr (d.view sb).data ip l := by
    intro l
    rw [← hwork.owner, howner]
    by_cases hl : l = k
    · subst hl
      rw [if_pos rfl, update_self]
    · rw [if_neg hl, update_of_ne (by simp [hl]), h.owner]
  refine ⟨hwork, ⟨hinode, hfields, ?_, ?_, ?_, hdata⟩, ?_, hb0, ?_, fun _ => ⟨hfree, hnew⟩,
    fun hne => absurd hzero hne, ?_, hclean⟩
  · intro c hc
    rw [hused]
    by_cases hcb : c = b
    · rw [hcb, update_self]
    · rwa [update_of_ne hcb]
  · intro l hl
    rw [hslot, if_neg]
    rintro rfl
    exact hl hzero
  · intro l hl hl'
    rw [hslot] at hl' ⊢
    split
    · exact hfree
    · rename_i hlk
      rw [if_neg hlk] at hl'
      exact absurd hl hl'
  · rw [hslot, if_pos rfl]
  · intro l hl
    rw [hslot, if_neg hl]
  · rw [if_pos hzero]
    exact freeBlocks_update hlt hfree hused

theorem withInode_withInode (v : View) (i : Nat) (ip ip' : Dinode) :
    (v.withInode i ip).withInode i ip' = v.withInode i ip' := by
  simp [View.withInode]

theorem Working.addrOf (h : Working sb d i ip) (hk : k ≤ NDIRECT)
    (hr : addrOf sb d ip k = .ok (b, ip', d')) : Filled sb i k d ip b d' ip' := by
  have hslot := @slotPtr_le k ip (d.view sb).data hk
  unfold Fs.addrOf at hr
  split at hr
  · rename_i hzero
    cases hbal : Fs.balloc sb d with
    | error f =>
      rw [hbal] at hr
      cases hr
    | ok r =>
      obtain ⟨c, d₁⟩ := r
      rw [hbal] at hr
      cases hr
      obtain ⟨hlo, hlt, hfree, hd', hview⟩ := h.balloc hbal
      have howner : ((d'.view sb).withInode i (ip.setAddr k b)).owner sb =
          update (((d.view sb).withInode i ip).owner sb) (i, k) b := by
        have := @owner_setAddr sb _ i k b (update (d.view sb).used b true) h.owns
          h.allocated hk (by rwa [withInode_self]) hlt hfree
        rw [withInode_self, withInode_withInode] at this
        rw [← this, hview]
        rfl
      refine h.filled_fresh (by rw [hslot, hzero]) hlt hfree
        (h.fits.setAddr hk (sb.lt_of_lt_size hlt)) rfl (by rw [hview]) (by rw [hview]) howner
        ?_ ?_ ?_
      · intro c hc _
        rw [hview]
        refine update_of_ne ?_ _ _
        rintro rfl
        rw [hfree] at hc
        cases hc
      · rw [hview]
        exact update_self _ _ _
      · intro hclean
        rw [CleanWith, hd']
        refine Disk.CleanOn.put (hclean.put fun c hc => Or.inr hc) fun c hc => ?_
        rcases hc with hc | ⟨j, hj, hjc⟩
        · exact Or.inr (Or.inl hc)
        · by_cases hji : j = i
          · subst hji
            rw [withInode_self] at hjc
            by_cases hkn : k = NDIRECT
            · subst hkn
              rw [Dinode.setAddr_self] at hjc
              exact Or.inl hjc.symm
            · rw [Dinode.setAddr_of_ne (Ne.symm hkn)] at hjc
              exact Or.inr (Or.inr ⟨j, h.allocated, by rwa [withInode_self]⟩)
          · rw [withInode_ne hji] at hjc
            rw [← hd', hview] at hj hjc
            refine Or.inr (Or.inr ⟨j, ?_, by rwa [withInode_ne hji]⟩)
            rw [View.Allocated, withInode_ne hji] at hj ⊢
            exact hj
  · rename_i hne
    cases hr
    rw [← hslot] at hne ⊢
    exact h.filled_self hne

theorem Meta_congr {v v' : View} (h : v'.inode = v.inode) : v'.Meta sb = v.Meta sb := by
  unfold View.Meta View.Allocated
  rw [h]

theorem Working.entryOf {addr e : Nat} (h : Working sb d i ip) (haddr : ip.addrs NDIRECT = addr)
    (ha : addr ≠ 0) (he : e < NINDIRECT) (hr : entryOf sb d addr e = .ok (b, d')) :
    Filled sb i (NDIRECT + 1 + e) d ip b d' ip := by
  subst haddr
  have hslotN := @slotPtr_le NDIRECT ip (d.view sb).data (Nat.le_refl _)
  have haN : slotPtr (d.view sb).data ip NDIRECT ≠ 0 := by rwa [hslotN]
  obtain ⟨hlo, hhi⟩ := h.region haN
  have hauser := h.used haN
  rw [hslotN] at hlo hhi hauser
  have hslot := @slotPtr_entry ip (d.view sb).data e he ha
  have hcached : d.cached (ip.addrs NDIRECT) = (d.view sb).data (ip.addrs NDIRECT) :=
    (view_data hlo).symm
  unfold Fs.entryOf at hr
  rw [hcached, ← hslot] at hr
  split at hr
  · rename_i hzero
    cases hbal : Fs.balloc sb d with
    | error f =>
      rw [hbal] at hr
      cases hr
    | ok r =>
      obtain ⟨c, d₁⟩ := r
      rw [hbal] at hr
      cases hr
      obtain ⟨hblo, hlt, hfree, hd₁, hview⟩ := h.balloc hbal
      have hne : ip.addrs NDIRECT ≠ b := by
        intro heq
        rw [heq, hfree] at hauser
        cases hauser
      have hcached₁ : d₁.cached (ip.addrs NDIRECT) = (d.view sb).data (ip.addrs NDIRECT) := by
        rw [← view_data hlo, hview]
        exact update_of_ne hne _ _
      rw [hcached₁]
      set blk := putEntry ((d.view sb).data (ip.addrs NDIRECT)) e b
      have hview' : (d₁.put (ip.addrs NDIRECT) blk).view sb = { d.view sb with
          used := update (d.view sb).used b true
          data := update (update (d.view sb).data b Bytes.zero)
            (ip.addrs NDIRECT) blk } := by
        rw [view_put hlo, hview]
      have howner : (((d₁.put (ip.addrs NDIRECT) blk).view sb).withInode i ip).owner sb =
          update (((d.view sb).withInode i ip).owner sb) (i, NDIRECT + 1 + e) b := by
        have := @owner_putEntry sb _ i b (update (d.view sb).used b true) e h.owns
          h.allocated (by rwa [withInode_self]) he hlt hfree
        rw [withInode_self] at this
        rw [← this, hview']
        rfl
      refine h.filled_fresh hzero hlt hfree h.fits rfl (by rw [hview']) (by rw [hview']) howner
        ?_ ?_ ?_
      · intro c hc hcn
        rw [hview']
        simp only
        rw [update_of_ne hcn, update_of_ne]
        rintro rfl
        rw [hfree] at hc
        cases hc
      · rw [hview']
        simp only
        rw [update_of_ne (Ne.symm hne), update_self]
      · intro hclean
        have hmeta : (((d₁.put (ip.addrs NDIRECT) blk).view sb).withInode i ip).Meta sb =
            ((d.view sb).withInode i ip).Meta sb := by
          apply Meta_congr
          rw [hview']
          rfl
        rw [CleanWith, hmeta, hd₁]
        exact Disk.CleanOn.put (Disk.CleanOn.put (hclean.put fun c hc => Or.inr hc)
          fun c hc => Or.inr hc) fun c hc => Or.inr hc
  · rename_i hne
    cases hr
    exact h.filled_self hne

/-! ## File blocks -/

theorem fileSlot_ne_NDIRECT (bn : Nat) : fileSlot bn ≠ NDIRECT := by
  unfold fileSlot
  split <;> omega

theorem fileSlot_inj {bn bn' : Nat} (h : fileSlot bn = fileSlot bn') : bn = bn' := by
  unfold fileSlot at h
  split at h <;> split at h <;> omega

/-- How many blocks `bmap` allocates for file block `bn`. -/
def bmapNeed (data : Nat → Block) (ip : Dinode) (bn : Nat) : Nat :=
  if filePtr data ip bn ≠ 0 then 0
  else if bn < NDIRECT ∨ ip.addrs NDIRECT ≠ 0 then 1
  else 2

structure Mapped (sb : Superblock) (i bn : Nat) (d : Disk) (ip : Dinode) (b : Nat) (d' : Disk)
    (ip' : Dinode) : Prop where
  working : Working sb d' i ip'
  ext : Extends sb i d ip d' ip'
  ptr : filePtr (d'.view sb).data ip' bn = b
  ne_zero : b ≠ 0
  others : ∀ bn', bn' ≠ bn →
    filePtr (d'.view sb).data ip' bn' = filePtr (d.view sb).data ip bn'
  fresh : filePtr (d.view sb).data ip bn = 0 →
    (d.view sb).used b = false ∧ (d'.view sb).data b = Bytes.zero
  same : filePtr (d.view sb).data ip bn ≠ 0 → d' = d ∧ ip' = ip
  count : ((d'.view sb).freeBlocks sb).card + bmapNeed (d.view sb).data ip bn =
    ((d.view sb).freeBlocks sb).card
  indirect : ip'.addrs NDIRECT = ip.addrs NDIRECT ∨ NDIRECT ≤ bn
  indirect_ne : NDIRECT ≤ bn → ip'.addrs NDIRECT ≠ 0
  clean : CleanWith sb d i ip → CleanWith sb d' i ip'

theorem Working.bmap (h : Working sb d i ip) (hr : bmap sb d ip bn = .ok (b, ip', d')) :
    Mapped sb i bn d ip b d' ip' := by
  unfold Fs.bmap at hr
  split at hr
  · rename_i hbn
    have hslot : fileSlot bn = bn := if_pos hbn
    have hf := h.addrOf hbn.le hr
    rw [← hslot] at hf
    refine ⟨hf.working, hf.ext, hf.slot, hf.ne_zero,
      fun _ hne => hf.others _ fun heq => hne (fileSlot_inj heq), hf.fresh, hf.same, ?_, ?_,
      fun hle => absurd hbn (Nat.not_lt.mpr hle), hf.clean⟩
    · have hcount := hf.count
      unfold bmapNeed filePtr
      by_cases h0 : slotPtr (d.view sb).data ip (fileSlot bn) = 0
      · simpa [h0, hbn] using hcount
      · simpa [h0] using hcount
    · have hkeep := hf.others NDIRECT (fileSlot_ne_NDIRECT bn).symm
      rw [slotPtr_le _ (Nat.le_refl _), slotPtr_le _ (Nat.le_refl _)] at hkeep
      exact Or.inl hkeep
  · rename_i hbn
    split at hr
    · rename_i he
      cases ha : Fs.addrOf sb d ip NDIRECT with
      | error f =>
        rw [ha] at hr
        cases hr
      | ok r =>
        obtain ⟨addr, ip₁, d₁⟩ := r
        have hf₁ := h.addrOf (Nat.le_refl _) ha
        have haddr : ip₁.addrs NDIRECT = addr := by
          rw [← hf₁.slot, slotPtr_le _ (Nat.le_refl _)]
        cases hb : Fs.entryOf sb d₁ addr (bn - NDIRECT) with
        | error f =>
          simp only [ha, hb, bind, Except.bind] at hr
          cases hr
        | ok r =>
          obtain ⟨c, d₂⟩ := r
          simp only [ha, hb, bind, Except.bind, pure, Except.pure] at hr
          cases hr
          have hf₂ := hf₁.working.entryOf haddr hf₁.ne_zero he hb
          have hslot : NDIRECT + 1 + (bn - NDIRECT) = fileSlot bn := by
            rw [fileSlot, if_neg hbn]
            omega
          rw [hslot] at hf₂
          have hkeep : slotPtr (d₁.view sb).data ip' (fileSlot bn) =
              slotPtr (d.view sb).data ip (fileSlot bn) :=
            hf₁.others _ (fileSlot_ne_NDIRECT bn)
          have hslotN := @slotPtr_le NDIRECT ip (d.view sb).data (Nat.le_refl _)
          refine ⟨hf₂.working, hf₁.ext.trans hf₂.ext ?_, hf₂.slot, hf₂.ne_zero, ?_, ?_, ?_, ?_,
            Or.inr (Nat.not_lt.mp hbn), fun _ => haddr ▸ hf₁.ne_zero,
            fun hclean => hf₂.clean (hf₁.clean hclean)⟩
          · intro h0 c hc hcN
            rw [haddr] at hcN
            rw [hcN, (hf₁.fresh (by rw [hslotN, h0])).1] at hc
            cases hc
          · intro bn' hne
            unfold filePtr
            rw [hf₂.others _ fun heq => hne (fileSlot_inj heq),
              hf₁.others _ (fileSlot_ne_NDIRECT bn')]
          · intro h0
            obtain ⟨hfree, hnew⟩ := hf₂.fresh (by rw [hkeep]; exact h0)
            refine ⟨?_, hnew⟩
            by_contra hused
            rw [hf₁.ext.used b (by simpa using hused)] at hfree
            cases hfree
          · intro hne
            have haN : slotPtr (d.view sb).data ip NDIRECT ≠ 0 := by
              intro h0
              rw [hslotN] at h0
              refine hne (slotPtr_of_no_indirect ?_ h0)
              rw [fileSlot, if_neg hbn]
              omega
            obtain ⟨rfl, rfl⟩ := hf₁.same haN
            exact hf₂.same hne
          · have hc₁ := hf₁.count
            have hc₂ := hf₂.count
            rw [hkeep] at hc₂
            rw [hslotN] at hc₁
            unfold bmapNeed filePtr
            by_cases haN : ip.addrs NDIRECT = 0
            · have h0 : slotPtr (d.view sb).data ip (fileSlot bn) = 0 := by
                refine slotPtr_of_no_indirect ?_ haN
                rw [fileSlot, if_neg hbn]
                omega
              simp only [haN, h0, hbn, if_true, ne_eq, not_true_eq_false, if_false,
                or_self] at hc₁ hc₂ ⊢
              omega
            · by_cases h0 : slotPtr (d.view sb).data ip (fileSlot bn) = 0
              · simp only [haN, h0, if_true, if_false, ne_eq, not_true_eq_false,
                  not_false_eq_true, or_true] at hc₁ hc₂ ⊢
                omega
              · simp only [haN, h0, if_false, ne_eq, not_false_eq_true, if_true] at hc₁ hc₂ ⊢
                omega
    · cases hr

/-! ## When `bmap` fails -/

theorem addrOf_error {f : Panic} (h : addrOf sb d ip k = .error f) : f = .ballocOutOfBlocks := by
  unfold addrOf at h
  split at h
  · cases hb : balloc sb d with
    | error f' =>
      rw [hb] at h
      cases h
      exact (balloc_error hb).1
    | ok r =>
      rw [hb] at h
      cases h
  · cases h

theorem entryOf_error {addr e : Nat} {f : Panic} (h : entryOf sb d addr e = .error f) :
    f = .ballocOutOfBlocks := by
  unfold entryOf at h
  split at h
  · cases hb : balloc sb d with
    | error f' =>
      rw [hb] at h
      cases h
      exact (balloc_error hb).1
    | ok r =>
      rw [hb] at h
      cases h
  · cases h

theorem bmap_error {f : Panic} (hbn : bn < MAXFILE) (h : bmap sb d ip bn = .error f) :
    f = .ballocOutOfBlocks := by
  unfold bmap at h
  split at h
  · exact addrOf_error h
  · rename_i hlt
    split at h
    · cases ha : addrOf sb d ip NDIRECT with
      | error f' =>
        rw [ha] at h
        cases h
        exact addrOf_error ha
      | ok r =>
        obtain ⟨addr, ip₁, d₁⟩ := r
        cases hb : entryOf sb d₁ addr (bn - NDIRECT) with
        | error f' =>
          simp only [ha, hb, bind, Except.bind] at h
          cases h
          exact entryOf_error hb
        | ok r =>
          simp only [ha, hb, bind, Except.bind, pure, Except.pure] at h
          cases h
    · rename_i hbig
      simp only [MAXFILE] at hbn
      omega

theorem addrOf_total
    (h : ip.addrs k = 0 → 0 < ((d.view sb).freeBlocks sb).card) :
    ∃ r, addrOf sb d ip k = .ok r := by
  unfold addrOf
  split
  · rename_i h0
    obtain ⟨⟨b, d'⟩, hb⟩ := balloc_total (h h0)
    exact ⟨_, by rw [hb]; rfl⟩
  · exact ⟨_, rfl⟩

theorem entryOf_total {addr e : Nat}
    (h : getEntry (d.cached addr) e = 0 → 0 < ((d.view sb).freeBlocks sb).card) :
    ∃ r, entryOf sb d addr e = .ok r := by
  unfold entryOf
  split
  · rename_i h0
    obtain ⟨⟨b, d'⟩, hb⟩ := balloc_total (h h0)
    exact ⟨_, by rw [hb]; rfl⟩
  · exact ⟨_, rfl⟩

theorem Working.bmap_total (h : Working sb d i ip) (hbn : bn < MAXFILE)
    (hfree : bmapNeed (d.view sb).data ip bn ≤ ((d.view sb).freeBlocks sb).card) :
    ∃ r, Fs.bmap sb d ip bn = .ok r := by
  unfold Fs.bmap
  split
  · rename_i hlt
    refine addrOf_total fun h0 => ?_
    have hptr : filePtr (d.view sb).data ip bn = 0 := by
      rw [filePtr, fileSlot, if_pos hlt, slotPtr_le _ hlt.le, h0]
    simp only [bmapNeed, hptr, hlt, ne_eq, not_true_eq_false, if_false, true_or, if_true] at hfree
    omega
  · rename_i hlt
    have he : bn - NDIRECT < NINDIRECT := by
      simp only [MAXFILE] at hbn
      omega
    have hgt : NDIRECT < fileSlot bn := by
      rw [fileSlot, if_neg hlt]
      omega
    rw [if_pos he]
    have hneed : ip.addrs NDIRECT = 0 → 2 ≤ ((d.view sb).freeBlocks sb).card := by
      intro h0
      have hptr : filePtr (d.view sb).data ip bn = 0 := slotPtr_of_no_indirect hgt h0
      simpa [bmapNeed, hptr, hlt, h0] using hfree
    obtain ⟨⟨addr, ip₁, d₁⟩, ha⟩ := @addrOf_total sb d NDIRECT ip
      fun h0 => Nat.lt_of_lt_of_le (by decide) (hneed h0)
    have hf := h.addrOf (Nat.le_refl _) ha
    have hslotN := @slotPtr_le NDIRECT ip (d.view sb).data (Nat.le_refl _)
    have hcount := hf.count
    rw [hslotN] at hcount
    obtain ⟨⟨b, d₂⟩, hb⟩ := @entryOf_total sb d₁ addr (bn - NDIRECT) (by
      intro h0
      by_cases haN : ip.addrs NDIRECT = 0
      · have := hneed haN
        rw [if_pos haN] at hcount
        omega
      · obtain ⟨rfl, rfl⟩ := hf.same (by rwa [hslotN])
        have haddr : ip₁.addrs NDIRECT = addr := by rw [← hslotN, hf.slot]
        have hreg := h.region (by rwa [hslotN])
        rw [hslotN] at hreg
        have hptr : filePtr (d₁.view sb).data ip₁ bn = 0 := by
          have hslot : fileSlot bn = NDIRECT + 1 + (bn - NDIRECT) := by
            rw [fileSlot, if_neg hlt]
            omega
          rw [filePtr, hslot, slotPtr_entry he haN, view_data hreg.1, haddr, h0]
        simp only [bmapNeed, hptr, haN, ne_eq, not_true_eq_false, if_false, not_false_eq_true,
          or_true, if_true] at hfree
        omega)
    refine ⟨(b, ip₁, d₂), ?_⟩
    simp only [ha, hb, bind, Except.bind, pure, Except.pure]

end Xv6.Fs
