import Xv6.Fs.Machine

/-! # What the calls log

A call passes blocks behind the log to `log_write`: inode blocks, bitmap blocks and blocks of files.
What is logged of every other block stays, also when a `writei` that could not read its source has
changed the buffer.
-/

namespace Xv6.Fs

open Lib

/-- From `d` to `d'` blocks behind the log were passed to `log_write`, and what is logged of the
others is as it was. -/
def Appends (sb : Superblock) (d d' : Disk) : Prop :=
  ∃ l, d'.trace = d.trace ++ l ∧ (∀ b ∈ l, sb.inodestart ≤ b ∧ b < 2 ^ 32) ∧ ∀ b, b ∉ l →
    d'.logged b = d.logged b

variable {sb : Superblock} {d d₁ d' : Disk} {i b k : Nat} {ip ip' : Dinode}

namespace Appends

/-- Also of a buffer that was changed without `log_write`, and of one that was recycled. -/
theorem refl (sb : Superblock) (d : Disk) : Appends sb d d :=
  ⟨[], (List.append_nil _).symm, fun _ hb => absurd hb List.not_mem_nil, fun _ _ => rfl⟩

theorem trans (h : Appends sb d d₁) (h' : Appends sb d₁ d') : Appends sb d d' := by
  obtain ⟨l, htrace, hregion, hrest⟩ := h
  obtain ⟨l', htrace', hregion', hrest'⟩ := h'
  refine ⟨l ++ l', by rw [htrace', htrace, List.append_assoc], fun b hb => ?_, fun b hb => ?_⟩
  · exact (List.mem_append.mp hb).elim (hregion b) (hregion' b)
  · rw [List.mem_append, not_or] at hb
    rw [hrest' b hb.2, hrest b hb.1]

theorem put (d : Disk) (blk : Block) (hlo : sb.inodestart ≤ b) (hhi : b < 2 ^ 32) :
    Appends sb d (d.put b blk) := by
  refine ⟨[b], rfl, fun c hc => ?_, fun c hc => ?_⟩
  · rw [List.mem_singleton.mp hc]
    exact ⟨hlo, hhi⟩
  · exact Function.update_of_ne (List.ne_of_not_mem_cons hc) _ _

end Appends

/-! ## Inode blocks and bitmap blocks -/

theorem Superblock.IBLOCK_region (hi : i < sb.ninodes) :
    sb.inodestart ≤ sb.IBLOCK i ∧ sb.IBLOCK i < sb.datastart :=
  ⟨Nat.le_add_left _ _, Superblock.IBLOCK_lt_datastart hi⟩

theorem Superblock.datastart_le_size (sb : Superblock) : sb.datastart ≤ sb.size := Nat.sub_le _ _

theorem Superblock.inodestart_le_bmapstart (hi : i < sb.ninodes) : sb.inodestart ≤ sb.bmapstart :=
  (Nat.le_add_left _ _).trans (sb.inodes_fit i hi).le

theorem Superblock.inodestart_le_datastart (hi : i < sb.ninodes) : sb.inodestart ≤ sb.datastart :=
  (Superblock.inodestart_le_bmapstart hi).trans sb.bmapstart_lt.le

theorem Appends.iupdate (d : Disk) (ip : Dinode) (hi : i < sb.ninodes) :
    Appends sb d (iupdate sb d i ip) := by
  obtain ⟨hlo, hhi⟩ := Superblock.IBLOCK_region hi
  have hsize := sb.datastart_le_size
  have hfits := sb.size_fits
  exact .put d _ hlo (by omega)

theorem Appends.putBitmap (d : Disk) (blk : Block) (hi : i < sb.ninodes) (hb : b < 2 ^ 32) :
    Appends sb d (d.put (sb.BBLOCK b) blk) := by
  have hstart := sb.bmapstart_lt
  have hfits := sb.size_fits
  have hdiv : b / BPB ≤ b / 2 := Nat.div_le_div_left (by decide) (by decide)
  refine .put d blk ((Superblock.inodestart_le_bmapstart hi).trans Superblock.bmapstart_le_BBLOCK)
    ?_
  unfold Superblock.BBLOCK
  omega

/-! ## Writing -/

theorem Working.put_appends {d₁ : Disk} (h : Working sb d i ip) (blk : Block)
    (hk : slotPtr (d.view sb).data ip k ≠ 0) :
    Appends sb d₁ (d₁.put (slotPtr (d.view sb).data ip k) blk) := by
  obtain ⟨hlo, hhi⟩ := h.region hk
  exact .put d₁ blk ((Superblock.inodestart_le_datastart h.lt).trans hlo) (sb.lt_of_lt_size hhi)

theorem Working.balloc_appends (h : Working sb d i ip) (hb : Fs.balloc sb d = .ok (b, d')) :
    Appends sb d d' := by
  obtain ⟨hlo, hhi, -, rfl, -⟩ := h.balloc hb
  have hlt := sb.lt_of_lt_size hhi
  exact (Appends.putBitmap d _ h.lt hlt).trans
    (.put _ _ ((Superblock.inodestart_le_datastart h.lt).trans hlo) hlt)

theorem Working.addrOf_appends (h : Working sb d i ip)
    (hr : Fs.addrOf sb d ip k = .ok (b, ip', d')) : Appends sb d d' := by
  unfold Fs.addrOf at hr
  split at hr
  · obtain ⟨r, hb, hr⟩ := bind_eq_ok hr
    cases hr
    exact h.balloc_appends hb
  · cases hr
    exact .refl sb _

theorem Working.entryOf_appends {e : Nat} (h : Working sb d i ip) (ha : ip.addrs NDIRECT ≠ 0)
    (hr : Fs.entryOf sb d (ip.addrs NDIRECT) e = .ok (b, d')) : Appends sb d d' := by
  unfold Fs.entryOf at hr
  split at hr
  · obtain ⟨r, hb, hr⟩ := bind_eq_ok hr
    cases hr
    have hslot := @slotPtr_le NDIRECT ip (d.view sb).data (Nat.le_refl _)
    have hput := fun blk => @Working.put_appends sb d i NDIRECT ip r.2 h blk (by rwa [hslot])
    rw [hslot] at hput
    exact (h.balloc_appends hb).trans (hput _)
  · cases hr
    exact .refl sb _

theorem Working.bmap_appends {bn : Nat} (h : Working sb d i ip)
    (hr : Fs.bmap sb d ip bn = .ok (b, ip', d')) : Appends sb d d' := by
  unfold Fs.bmap at hr
  split at hr
  · exact h.addrOf_appends hr
  · split at hr
    · obtain ⟨⟨addr, ip₁, d₁⟩, ha, hr⟩ := bind_eq_ok hr
      obtain ⟨r, he, hr⟩ := bind_eq_ok hr
      cases hr
      have hf := h.addrOf (Nat.le_refl _) ha
      obtain rfl : ip'.addrs NDIRECT = addr := by
        rw [← hf.slot, slotPtr_le _ (Nat.le_refl _)]
      exact (h.addrOf_appends ha).trans (hf.working.entryOf_appends hf.ne_zero he)
    · cases hr

theorem Working.writeiLoop_appends {src : Nat → Option UInt8} {n fuel tot off tot' off' : Nat}
    (h : Working sb d i ip) (hr : writeiLoop sb src n fuel tot off ip d =
      .ok (tot', off', ip', d')) : Appends sb d d' := by
  induction fuel generalizing tot off ip d with
  | zero =>
    cases hr
    exact .refl sb _
  | succ fuel ih =>
    unfold Fs.writeiLoop at hr
    split at hr
    swap
    · cases hr
      exact .refl sb _
    obtain ⟨⟨addr, ip₁, d₁⟩, hb, hr⟩ := bind_eq_ok hr
    have hm := h.bmap hb
    obtain rfl := hm.ptr
    dsimp only at hr
    split at hr
    · have hs := fun blk => @Working.stored_put sb d₁ i (off / BSIZE) ip₁ blk hm.working hm.ne_zero
      exact (h.bmap_appends hb).trans
        ((hm.working.put_appends _ hm.ne_zero).trans (ih (hs _).working hr))
    · cases hr
      exact (h.bmap_appends hb).trans (.refl sb d₁)

/-! ## Freeing -/

theorem bfree_appends (hi : i < sb.ninodes) (hb : b < 2 ^ 32) (hr : bfree sb d b = .ok d') :
    Appends sb d d' := by
  unfold bfree at hr
  split at hr
  · cases hr
    exact .putBitmap d _ hi hb
  · cases hr

theorem freeDirect_appends {ks : List Nat} (hi : i < sb.ninodes) (hip : ∀ k, ip.addrs k < 2 ^ 32)
    (hr : freeDirect sb ks ip d = .ok (ip', d')) : Appends sb d d' ∧ ∀ k, ip'.addrs k < 2 ^ 32 := by
  induction ks generalizing ip d with
  | nil =>
    cases hr
    exact ⟨.refl sb _, hip⟩
  | cons k ks ih =>
    unfold freeDirect at hr
    split at hr
    · exact ih hip hr
    · obtain ⟨d₁, hf, hr⟩ := bind_eq_ok hr
      have haddrs : ∀ l, (ip.setAddr k 0).addrs l < 2 ^ 32 := by
        intro l
        by_cases hl : l = k
        · rw [hl, show (ip.setAddr k 0).addrs k = 0 from Function.update_self _ _ _]
          decide
        · exact (Dinode.setAddr_of_ne hl).trans_lt (hip l)
      obtain ⟨hrest, hip'⟩ := ih haddrs hr
      exact ⟨(bfree_appends hi (hip k) hf).trans hrest, hip'⟩

theorem freeEntries_appends {blk : Block} {js : List Nat} (hi : i < sb.ninodes)
    (hr : freeEntries sb blk js d = .ok d') : Appends sb d d' := by
  induction js generalizing d with
  | nil =>
    cases hr
    exact .refl sb _
  | cons j js ih =>
    unfold freeEntries at hr
    split at hr
    · exact ih hr
    · obtain ⟨d₁, hf, hr⟩ := bind_eq_ok hr
      exact (bfree_appends hi (Bytes.getLE_lt blk _ 4) hf).trans (ih hr)

theorem itrunc_appends (hi : i < sb.ninodes) (hip : ∀ k, ip.addrs k < 2 ^ 32)
    (hr : itrunc sb d i ip = .ok (ip', d')) : Appends sb d d' := by
  obtain ⟨⟨ip₁, d₁⟩, hdirect, hr⟩ := bind_eq_ok hr
  obtain ⟨⟨ip₂, d₂⟩, hindirect, hr⟩ := bind_eq_ok hr
  cases hr
  obtain ⟨happ, hip₁⟩ := freeDirect_appends hi hip hdirect
  refine happ.trans (Appends.trans ?_ (.iupdate d₂ _ hi))
  unfold freeIndirect at hindirect
  split at hindirect
  · cases hindirect
    exact .refl sb _
  · obtain ⟨d₃, hentries, hr⟩ := bind_eq_ok hindirect
    obtain ⟨d₄, hf, hr⟩ := bind_eq_ok hr
    cases hr
    exact (freeEntries_appends hi hentries).trans (bfree_appends hi (hip₁ _) hf)

/-! ## Every call -/

theorem ilock_bind {α : Type} {a : α} {f : Dinode → Except Panic α}
    (h : (ilock sb d i >>= f) = .ok a) :
    (d.view sb).Allocated sb i ∧ f ((d.view sb).inode i) = .ok a := by
  obtain ⟨ip, hl, hf⟩ := bind_eq_ok h
  obtain ⟨hi, rfl⟩ := ilock_ok hl
  exact ⟨hi, hf⟩

theorem FsInv.call_appends (h : FsInv sb d) {c : Call} (hs : call sb d c = .next d') :
    Appends sb d d' := by
  obtain ⟨hc, hr⟩ := call_next hs
  cases c with
  | recycle b =>
    cases hr
    exact .refl sb _
  | readi i off n dst =>
    obtain ⟨hi, hr⟩ := ilock_bind hr
    obtain ⟨r, bytes, hread, -⟩ := h.alloc.readi hi dst hc.1 hc.2
    rw [hread] at hr
    cases hr
    exact .refl sb _
  | writei i off n src =>
    obtain ⟨hi, hr⟩ := ilock_bind hr
    obtain ⟨⟨r, ip, d₁⟩, hw, hr⟩ := bind_eq_ok hr
    cases hr
    by_cases hrej : Rejected ((d.view sb).inode i).size off n
    · rw [writei_rejected hc.1 hc.2 hrej] at hw
      cases hw
      exact .refl sb _
    · rw [writei_accepted hrej] at hw
      obtain ⟨⟨tot, off', ip₁, d₁⟩, hloop, hw⟩ := bind_eq_ok hw
      cases hw
      exact ((h.alloc.working hi).writeiLoop_appends hloop).trans (.iupdate d₁ _ hi.1)
  | itrunc i =>
    obtain ⟨hi, hr⟩ := ilock_bind hr
    obtain ⟨r, ht, hr⟩ := bind_eq_ok hr
    cases hr
    exact itrunc_appends hi.1 (view_inode_fits i).addrs ht
  | ialloc type =>
    obtain ⟨⟨i, d₁⟩, ha, hr⟩ := bind_eq_ok hr
    cases hr
    obtain ⟨-, hi, -⟩ := h.ialloc hc.2 ha
    unfold Fs.ialloc at ha
    split at ha <;> cases ha
    exact .iupdate d _ hi
  | iupdate i major minor nlink =>
    obtain ⟨hi, hr⟩ := ilock_bind hr
    cases hr
    exact .iupdate d _ hi.1
  | ifree i =>
    obtain ⟨hi, hr⟩ := ilock_bind hr
    obtain ⟨r, ht, hr⟩ := bind_eq_ok hr
    cases hr
    exact (itrunc_appends hi.1 (view_inode_fits i).addrs ht).trans (.iupdate r.2 _ hi.1)

/-! ## What is logged -/

section Agree

variable (hsame : ∀ b, sb.inodestart ≤ b → (d.view sb).Meta sb b → d'.cached b = d.cached b)

include hsame

theorem view_inode_agree : (d'.view sb).inode = (d.view sb).inode := by
  funext i
  unfold Disk.view
  dsimp only
  split
  · rename_i hi
    obtain ⟨hlo, hhi⟩ := Superblock.IBLOCK_region hi
    rw [hsame _ hlo (.inl hhi)]
  · rfl

/-- The inode blocks, the bitmap blocks and the indirect blocks decide. -/
theorem AllocInv.agree (h : AllocInv sb (d.view sb)) (hn : 0 < sb.ninodes) :
    AllocInv sb (d'.view sb) := by
  refine h.setData (view_inode_agree hsame) ?_ fun j hj => ?_
  · funext b
    unfold Disk.view
    dsimp only
    split
    · rename_i hb
      rw [hsame _ ((Superblock.inodestart_le_bmapstart hn).trans Superblock.bmapstart_le_BBLOCK)
        (.inl (Superblock.BBLOCK_lt hb))]
    · rfl
  · by_cases hdata : sb.datastart ≤ ((d.view sb).inode j).addrs NDIRECT
    · rw [view_data hdata, view_data hdata]
      exact hsame _ ((Superblock.inodestart_le_datastart hn).trans hdata) (.inr ⟨j, hj, rfl⟩)
    · exact (if_neg hdata).trans (if_neg hdata).symm

theorem FsInv.agree (h : FsInv sb d) (hn : 0 < sb.ninodes)
    (hclean : ∀ b, (d.view sb).Meta sb b → d'.cached b = d'.logged b) : FsInv sb d' := by
  refine ⟨h.alloc.agree hsame hn, fun b hb => hclean b ?_⟩
  unfold View.Meta View.Allocated at hb ⊢
  rwa [view_inode_agree hsame] at hb

end Agree

theorem FsInv.logged (h : FsInv sb d) (hn : 0 < sb.ninodes) :
    AllocInv sb ((Disk.ofImage d.logged).view sb) :=
  h.alloc.agree (fun b _ hb => (h.clean b hb).symm) hn

end Xv6.Fs
