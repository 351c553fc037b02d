import Xv6.Fs.Bmap

/-! # Truncation and freeing

`itrunc` gives back every block of an inode, `bfree` finding each of them in use,
and leaves the inode with empty slots.
-/

namespace Xv6.Fs

open Function Lib

variable {sb : Superblock} {d d' : Disk} {i k b : Nat} {ip ip' : Dinode}

/-- The invariant of the file system between calls. -/
structure FsInv (sb : Superblock) (d : Disk) : Prop where
  alloc : AllocInv sb (d.view sb)
  clean : d.CleanOn ((d.view sb).Meta sb)

theorem AllocInv.working (h : AllocInv sb (d.view sb)) (hi : (d.view sb).Allocated sb i) :
    Working sb d i ((d.view sb).inode i) := by
  refine ⟨hi.1, hi.2, view_inode_fits i, ?_⟩
  rw [withInode_eq rfl]
  exact h.owns

def NoHole (data : Nat → Block) (ip : Dinode) : Prop :=
  ∀ bn, bn * BSIZE < ip.size → bn < MAXFILE ∧ filePtr data ip bn ≠ 0

theorem Working.finish (h : Working sb d i ip) (hself : NoHole (d.view sb).data ip)
    (hothers : ∀ j, j ≠ i → (d.view sb).Allocated sb j →
      NoHole (d.view sb).data ((d.view sb).inode j)) :
    AllocInv sb ((iupdate sb d i ip).view sb) := by
  have hview : (iupdate sb d i ip).view sb = (d.view sb).withInode i ip := view_iupdate h.lt h.fits
  rw [hview]
  refine ⟨h.owns, fun j hj => ?_⟩
  by_cases hji : j = i
  · subst hji
    rw [withInode_self]
    exact hself
  · rw [withInode_ne hji]
    rw [View.Allocated, withInode_ne hji] at hj
    exact hothers j hji hj

theorem Working.finish_clean (h : Working sb d i ip) (hclean : CleanWith sb d i ip) :
    (iupdate sb d i ip).CleanOn (((iupdate sb d i ip).view sb).Meta sb) := by
  have hview : (iupdate sb d i ip).view sb = (d.view sb).withInode i ip := view_iupdate h.lt h.fits
  rw [hview]
  exact hclean.put fun c hc => Or.inr hc

/-! ## Giving blocks back -/

theorem bfree_used (hb : b < sb.size) (hused : (d.view sb).used b = true) :
    bfree sb d b = .ok (d.unmark sb b) := by
  rw [bfree_eq hb, if_pos hused]

/-- What a sequence of `bfree` calls leaves alone. -/
structure Unmarked (sb : Superblock) (d d' : Disk) : Prop where
  inode : (d'.view sb).inode = (d.view sb).inode
  data : (d'.view sb).data = (d.view sb).data
  clean : ∀ P, d.CleanOn P → d'.CleanOn P

theorem Unmarked.refl (sb : Superblock) (d : Disk) : Unmarked sb d d := ⟨rfl, rfl, fun _ h => h⟩

theorem Unmarked.trans {d₁ : Disk} (h : Unmarked sb d d₁) (h' : Unmarked sb d₁ d') :
    Unmarked sb d d' :=
  ⟨h'.inode.trans h.inode, h'.data.trans h.data, fun P hP => h'.clean P (h.clean P hP)⟩

theorem unmarked_unmark (hb : b < sb.size) : Unmarked sb d (d.unmark sb b) := by
  have hview := @view_unmark sb d b hb
  refine ⟨by rw [hview], by rw [hview], fun P hP => ?_⟩
  exact hP.put fun c hc => Or.inr hc

theorem Working.bfree_direct (h : Working sb d i ip) (hk : k < NDIRECT) (hne : ip.addrs k ≠ 0) :
    bfree sb d (ip.addrs k) = .ok (d.unmark sb (ip.addrs k)) ∧
      Unmarked sb d (d.unmark sb (ip.addrs k)) ∧
      Working sb (d.unmark sb (ip.addrs k)) i (ip.setAddr k 0) := by
  have hslot := @slotPtr_le k ip (d.view sb).data hk.le
  have hne' : slotPtr (d.view sb).data ip k ≠ 0 := by rwa [hslot]
  have hreg := h.region hne'
  have hused := h.used hne'
  rw [hslot] at hreg hused
  have hun := @unmarked_unmark sb d _ hreg.2
  have hview := @view_unmark sb d _ hreg.2
  refine ⟨bfree_used hreg.2 hused, hun, h.lt, h.type, h.fits.setAddr hk.le (by decide), ?_⟩
  · have howner := @owner_clearAddr sb ((d.view sb).withInode i ip) i k
      (update (d.view sb).used (ip.addrs k) false) h.allocated hk
    rw [withInode_self, withInode_withInode] at howner
    have hrel := h.owns.release (x := (i, k)) (by rw [h.owner]; exact hne')
    rw [h.owner, hslot, ← howner] at hrel
    rw [hview]
    exact hrel

/-- The loop of `itrunc` over direct blocks never fails and empties their slots. -/
theorem Working.freeDirect {ks : List Nat} (h : Working sb d i ip) (hks : ∀ k ∈ ks, k < NDIRECT) :
    ∃ ip' d', freeDirect sb ks ip d = .ok (ip', d') ∧ Working sb d' i ip' ∧ Unmarked sb d d' ∧
      ip' = { ip with addrs := ip'.addrs } ∧
      ∀ k, ip'.addrs k = if k ∈ ks then 0 else ip.addrs k := by
  induction ks generalizing ip d with
  | nil => exact ⟨ip, d, rfl, h, .refl .., rfl, by simp⟩
  | cons k ks ih =>
    have hk : k < NDIRECT := hks k (by simp)
    have hks' : ∀ l ∈ ks, l < NDIRECT := fun l hl => hks l (List.mem_cons_of_mem _ hl)
    by_cases h0 : ip.addrs k = 0
    · obtain ⟨ip', d', hr, hw, hun, hf, ha⟩ := ih h hks'
      refine ⟨ip', d', by rw [Fs.freeDirect, if_pos h0, hr], hw, hun, hf, fun l => ?_⟩
      rw [ha]
      by_cases hl : l = k
      · subst hl
        simp [h0]
      · simp [hl]
    · obtain ⟨hfree, hun, hw⟩ := h.bfree_direct hk h0
      obtain ⟨ip', d', hr, hw', hun', hf, ha⟩ := ih hw hks'
      refine ⟨ip', d', ?_, hw', hun.trans hun', hf, fun l => ?_⟩
      · rw [Fs.freeDirect, if_neg h0, hfree]
        exact hr
      · rw [ha]
        by_cases hl : l = k
        · subst hl
          simp
        · simp [hl, Dinode.setAddr_of_ne hl]

/-- The owners once the entries `js` of inode `i`'s indirect block own nothing. -/
def dropEntries (own : Nat × Nat → Nat) (i : Nat) (js : List Nat) (x : Nat × Nat) : Nat :=
  if x.1 = i ∧ ∃ j ∈ js, x.2 = NDIRECT + 1 + j then 0 else own x

theorem dropEntries_cons (own : Nat × Nat → Nat) (i j : Nat) (js : List Nat) :
    dropEntries own i (j :: js) =
      dropEntries (update own (i, NDIRECT + 1 + j) 0) i js := by
  funext x
  obtain ⟨a, l⟩ := x
  unfold dropEntries
  by_cases hal : a = i ∧ l = NDIRECT + 1 + j
  · obtain ⟨rfl, rfl⟩ := hal
    simp
  · rw [update_of_ne (by simpa using hal)]
    have hiff : (a = i ∧ ∃ j' ∈ j :: js, l = NDIRECT + 1 + j') ↔
        (a = i ∧ ∃ j' ∈ js, l = NDIRECT + 1 + j') := by
      simp only [List.mem_cons, exists_eq_or_imp]
      constructor
      · rintro ⟨ha, hl | hl⟩
        · exact absurd ⟨ha, hl⟩ hal
        · exact ⟨ha, hl⟩
      · rintro ⟨ha, hl⟩
        exact ⟨ha, Or.inr hl⟩
    simp only [hiff]

/-- The loop of `itrunc` over the entries of an indirect block never fails when
they are owned, and gives back their blocks. -/
theorem freeEntries_owned {own : Nat × Nat → Nat} {blk : Block} {js : List Nat}
    (hown : Owns own sb.datastart sb.size (d.view sb).used)
    (hjs : ∀ j ∈ js, own (i, NDIRECT + 1 + j) = getEntry blk j) (hnd : js.Nodup) :
    ∃ d', freeEntries sb blk js d = .ok d' ∧ Unmarked sb d d' ∧
      Owns (dropEntries own i js) sb.datastart sb.size (d'.view sb).used := by
  induction js generalizing own d with
  | nil =>
    refine ⟨d, rfl, .refl .., ?_⟩
    have : dropEntries own i [] = own := by
      funext x
      simp [dropEntries]
    rwa [this]
  | cons j js ih =>
    obtain ⟨hj, hnd⟩ := List.nodup_cons.mp hnd
    have hself := hjs j (by simp)
    have htail : ∀ l ∈ js,
        update own (i, NDIRECT + 1 + j) 0 (i, NDIRECT + 1 + l) = getEntry blk l := by
      intro l hl
      have hlj : l ≠ j := fun h => hj (h ▸ hl)
      rw [update_of_ne (by simp [hlj])]
      exact hjs l (List.mem_cons_of_mem _ hl)
    rw [dropEntries_cons]
    by_cases h0 : getEntry blk j = 0
    · have hsame : update own (i, NDIRECT + 1 + j) 0 = own := by
        rw [← h0, ← hself, update_eq_self]
      obtain ⟨d', hr, hun, hown'⟩ := ih (hsame ▸ hown) htail hnd
      exact ⟨d', by rw [freeEntries, if_pos h0, hr], hun, hown'⟩
    · have hne : own (i, NDIRECT + 1 + j) ≠ 0 := by rwa [hself]
      have hreg := hown.region _ hne
      have hused := hown.used_own hne
      have hrel := hown.release hne
      rw [hself] at hreg hused hrel
      have hview := @view_unmark sb d _ hreg.2
      obtain ⟨d', hr, hun, hown'⟩ := @ih (d.unmark sb (getEntry blk j)) _
        (by rw [hview]; exact hrel) htail hnd
      refine ⟨d', ?_, (unmarked_unmark hreg.2).trans hun, hown'⟩
      rw [freeEntries, if_neg h0, bfree_used hreg.2 hused]
      exact hr

theorem Working.freeIndirect (h : Working sb d i ip) :
    ∃ d', freeIndirect sb ip d = .ok (ip.setAddr NDIRECT 0, d') ∧
      Working sb d' i (ip.setAddr NDIRECT 0) ∧ Unmarked sb d d' := by
  have hslotN := @slotPtr_le NDIRECT ip (d.view sb).data (Nat.le_refl _)
  unfold Fs.freeIndirect
  by_cases h0 : ip.addrs NDIRECT = 0
  · have hsame : ip.setAddr NDIRECT 0 = ip := by
      simp only [Dinode.setAddr]
      rw [← h0, update_eq_self]
    rw [if_pos h0, hsame]
    exact ⟨d, rfl, h, .refl ..⟩
  · have hneN : slotPtr (d.view sb).data ip NDIRECT ≠ 0 := by rwa [hslotN]
    have hregN := h.region hneN
    rw [hslotN] at hregN
    set v := (d.view sb).withInode i ip
    have hentry : ∀ j ∈ List.range NINDIRECT,
        v.owner sb (i, NDIRECT + 1 + j) = getEntry (d.cached (ip.addrs NDIRECT)) j := by
      intro j hj
      rw [h.owner, slotPtr_entry (List.mem_range.mp hj) h0, view_data hregN.1]
    obtain ⟨d₁, hr, hun, hown⟩ := freeEntries_owned h.owns hentry List.nodup_range
    -- the slot of the indirect block itself still owns it
    have hkeep : dropEntries (v.owner sb) i (List.range NINDIRECT) (i, NDIRECT) =
        ip.addrs NDIRECT := by
      rw [dropEntries, if_neg, h.owner, hslotN]
      rintro ⟨-, j, -, hj⟩
      simp only at hj
      omega
    have hne : dropEntries (v.owner sb) i (List.range NINDIRECT) (i, NDIRECT) ≠ 0 := by rwa [hkeep]
    have hused := hown.used_own hne
    have hrel := hown.release hne
    rw [hkeep] at hused hrel
    have hview := @view_unmark sb d₁ _ hregN.2
    have hun' := hun.trans (@unmarked_unmark sb d₁ _ hregN.2)
    refine ⟨d₁.unmark sb (ip.addrs NDIRECT), ?_, ?_, hun'⟩
    · rw [if_neg h0, hr]
      simp only [bind, Except.bind, bfree_used hregN.2 hused]
      rfl
    · refine ⟨h.lt, h.type, h.fits.setAddr (Nat.le_refl _) (by decide), ?_⟩
      · have howner := @owner_clearIndirect sb v i
          (update (d₁.view sb).used (ip.addrs NDIRECT) false) h.allocated
        have hown' : update (dropEntries (v.owner sb) i (List.range NINDIRECT))
            (i, NDIRECT) 0 = fun x => if x.1 = i ∧ NDIRECT ≤ x.2 then 0 else v.owner sb x := by
          funext x
          obtain ⟨a, l⟩ := x
          by_cases hal : (a, l) = (i, NDIRECT)
          · rw [hal, update_self]
            simp
          · rw [update_of_ne hal]
            unfold dropEntries
            by_cases ha : a = i
            · subst ha
              have hl : l ≠ NDIRECT := fun hl => hal (by rw [hl])
              by_cases hle : NDIRECT ≤ l
              · rw [if_pos (⟨rfl, hle⟩ : _ ∧ _)]
                by_cases hbig : l < NDIRECT + 1 + NINDIRECT
                · rw [if_pos ⟨rfl, l - (NDIRECT + 1), List.mem_range.mpr (by omega), by
                    simp only
                    omega⟩]
                · split
                  · rfl
                  · rw [h.owner, slotPtr, if_neg (by omega), if_neg (fun hx => hbig hx.1)]
              · rw [if_neg, if_neg (fun hx => hle hx.2)]
                rintro ⟨-, j, -, hj⟩
                simp only at hj
                omega
            · simp [ha]
        rw [withInode_self, withInode_withInode, ← hown'] at howner
        rw [hview]
        simp only
        rw [← howner] at hrel
        convert hrel using 2
        simp only [View.withInode, hun.inode, hun.data]

/-! ## `itrunc`, `iput` and `ialloc` -/

theorem Working.withFields (h : Working sb d i ip) (haddrs : ip'.addrs = ip.addrs)
    (htype : ip'.type ≠ 0) (hfits : ip'.Fits) : Working sb d i ip' := by
  have hall : ∀ j, ((d.view sb).withInode i ip').Allocated sb j ↔
      ((d.view sb).withInode i ip).Allocated sb j := by
    intro j
    by_cases hji : j = i
    · subst hji
      simp [View.Allocated, htype, h.type]
    · simp [View.Allocated, withInode_ne hji]
  refine ⟨h.lt, htype, hfits, ?_⟩
  have howner : ((d.view sb).withInode i ip').owner sb = ((d.view sb).withInode i ip).owner sb := by
    funext x
    obtain ⟨j, k⟩ := x
    unfold View.owner
    simp only [hall j]
    by_cases hji : j = i
    · subst hji
      rw [withInode_self, withInode_self]
      exact if_congr Iff.rfl (slotPtr_congr haddrs fun _ => rfl) rfl
    · rw [withInode_ne hji, withInode_ne hji]
      rfl
  rw [howner]
  exact h.owns

theorem noHole_of_size_eq_zero {data : Nat → Block} (h : ip.size = 0) : NoHole data ip := by
  intro bn hbn
  omega

def Dinode.emptied (ip : Dinode) : Dinode := { ip with size := 0, addrs := fun _ => 0 }

theorem Dinode.Fits.emptied (h : ip.Fits) : ip.emptied.Fits :=
  ⟨h.type, h.major, h.minor, h.nlink, by simp [Dinode.emptied], by simp [Dinode.emptied],
    by simp [Dinode.emptied]⟩

theorem Dinode.emptied_eq (hf : ip' = { ip with addrs := ip'.addrs }) (ha : ∀ k, ip'.addrs k = 0) :
    ({ ip' with size := 0 } : Dinode) = ip.emptied := by
  have ha' : ip'.addrs = fun _ => 0 := funext ha
  rw [ha'] at hf
  rw [hf]
  rfl

/-- `itrunc` never panics; it leaves the inode empty and every other inode as it was. -/
theorem FsInv.itrunc (h : FsInv sb d) (hi : (d.view sb).Allocated sb i) :
    ∃ d', itrunc sb d i ((d.view sb).inode i) = .ok (((d.view sb).inode i).emptied, d') ∧
      FsInv sb d' ∧
      (d'.view sb).inode =
        update (d.view sb).inode i ((d.view sb).inode i).emptied ∧
      (d'.view sb).data = (d.view sb).data := by
  have hfits := (@view_inode_fits sb d i).emptied
  obtain ⟨ip₁, d₁, hr₁, hw₁, hun₁, hf₁, ha₁⟩ :=
    (h.alloc.working hi).freeDirect fun k hk => List.mem_range.mp hk
  obtain ⟨d₂, hr₂, hw₂, hun₂⟩ := hw₁.freeIndirect
  have hun := hun₁.trans hun₂
  have haddrs : ∀ k, (ip₁.setAddr NDIRECT 0).addrs k = 0 := by
    intro k
    by_cases hk : k = NDIRECT
    · subst hk
      exact Dinode.setAddr_self
    · rw [Dinode.setAddr_of_ne hk, ha₁]
      by_cases hlt : k < NDIRECT
      · simp [hlt]
      · rw [if_neg (by simp [hlt])]
        exact (view_inode_fits i).addrs_past k (by omega)
  have hip : ({ ip₁.setAddr NDIRECT 0 with size := 0 } : Dinode) =
      ((d.view sb).inode i).emptied := by
    refine Dinode.emptied_eq ?_ haddrs
    rw [hf₁]
    rfl
  have hw : Working sb d₂ i ((d.view sb).inode i).emptied :=
    hw₂.withFields (funext fun k => (haddrs k).symm) hi.2 hfits
  refine ⟨iupdate sb d₂ i ((d.view sb).inode i).emptied, ?_, ?_, ?_, ?_⟩
  · simp only [Fs.itrunc, hr₁, hr₂, bind, Except.bind, pure, Except.pure, hip]
  · refine ⟨hw.finish (noHole_of_size_eq_zero rfl) fun j hji hj => ?_, hw.finish_clean ?_⟩
    · rw [View.Allocated, hun.inode] at hj
      rw [hun.inode, hun.data]
      exact h.alloc.noHole j hj
    · refine hun.clean _ fun c hc => h.clean c ?_
      rcases hc with hc | ⟨j, hj, hjc⟩
      · exact Or.inl hc
      · by_cases hji : j = i
        · subst hji
          rw [withInode_self] at hjc
          rw [← hjc]
          exact Or.inl sb.datastart_pos
        · rw [View.Allocated, withInode_ne hji, hun.inode] at hj
          rw [withInode_ne hji, hun.inode] at hjc
          exact Or.inr ⟨j, hj, hjc⟩
  · rw [view_iupdate hi.1 hfits, hun.inode]
  · rw [view_iupdate hi.1 hfits, hun.data]

theorem FsInv.iupdate (h : FsInv sb d) (hi : i < sb.ninodes) (hfits : ip.Fits)
    (howner : ((d.view sb).withInode i ip).owner sb = (d.view sb).owner sb)
    (hhole : ip.type ≠ 0 → NoHole (d.view sb).data ip)
    (hmeta : ip.type ≠ 0 → (d.view sb).Meta sb (ip.addrs NDIRECT)) :
    FsInv sb (Fs.iupdate sb d i ip) := by
  have hview : (Fs.iupdate sb d i ip).view sb = (d.view sb).withInode i ip := view_iupdate hi hfits
  refine ⟨⟨?_, ?_⟩, ?_⟩
  · rw [hview, howner]
    exact h.alloc.owns
  · rw [hview]
    intro j hj
    by_cases hji : j = i
    · subst hji
      rw [withInode_self]
      exact hhole (by simpa using hj.2)
    · rw [withInode_ne hji]
      rw [View.Allocated, withInode_ne hji] at hj
      exact h.alloc.noHole j hj
  · rw [hview]
    refine h.clean.put fun c hc => Or.inr ?_
    rcases hc with hc | ⟨j, hj, hjc⟩
    · exact Or.inl hc
    · by_cases hji : j = i
      · subst hji
        rw [withInode_self] at hjc
        rw [← hjc]
        exact hmeta (by simpa using hj.2)
      · rw [withInode_ne hji] at hjc
        rw [View.Allocated, withInode_ne hji] at hj
        exact Or.inr ⟨j, hj, hjc⟩

theorem slotPtr_empty (data : Nat → Block) (h : ∀ k, ip.addrs k = 0) (k : Nat) :
    slotPtr data ip k = 0 := by
  by_cases hk : k ≤ NDIRECT
  · rw [slotPtr_le _ hk, h]
  · exact slotPtr_of_no_indirect (by omega) (h _)

theorem owner_withInode_empty {v : View} (hold : ∀ k, v.owner sb (i, k) = 0)
    (hnew : ∀ k, ip.addrs k = 0) : (v.withInode i ip).owner sb = v.owner sb := by
  funext x
  obtain ⟨j, k⟩ := x
  by_cases hji : j = i
  · subst hji
    rw [hold]
    unfold View.owner
    simp only [withInode_self]
    split
    · exact slotPtr_empty _ hnew k
    · rfl
  · unfold View.owner
    simp only [View.Allocated, withInode_ne hji]
    rfl

theorem meta_zero (v : View) : v.Meta sb 0 := Or.inl sb.datastart_pos

/-- The freeing branch of `iput` never panics; it frees the inode and its blocks. -/
theorem FsInv.ifree_view (h : FsInv sb d) (hi : (d.view sb).Allocated sb i) :
    ∃ d', ifree sb d i ((d.view sb).inode i) = .ok d' ∧ FsInv sb d' ∧
      (d'.view sb).inode =
        update (d.view sb).inode i { ((d.view sb).inode i).emptied with type := 0 } ∧
      (d'.view sb).data = (d.view sb).data := by
  obtain ⟨d₁, hr, hinv, hinode, hdata⟩ := h.itrunc hi
  have hself : (d₁.view sb).inode i = ((d.view sb).inode i).emptied := by
    rw [hinode, update_self]
  have hfits := @view_inode_fits sb d₁ i
  rw [hself] at hfits
  have hfits' : Dinode.Fits { ((d.view sb).inode i).emptied with type := 0 } :=
    ⟨by simp, hfits.major, hfits.minor, hfits.nlink, hfits.size, hfits.addrs, hfits.addrs_past⟩
  refine ⟨Fs.iupdate sb d₁ i { ((d.view sb).inode i).emptied with type := 0 }, ?_, ?_, ?_, ?_⟩
  · simp only [Fs.ifree, hr, bind, Except.bind, pure, Except.pure]
  · refine hinv.iupdate hi.1 hfits' (owner_withInode_empty (fun k => ?_) fun _ => rfl)
      (fun ht => absurd rfl ht) fun ht => absurd rfl ht
    unfold View.owner
    split
    · rw [hself]
      exact slotPtr_empty _ (fun _ => rfl) k
    · rfl
  · rw [view_iupdate hi.1 hfits']
    dsimp only
    rw [hinode, update_idem]
  · rw [view_iupdate hi.1 hfits']
    exact hdata

theorem FsInv.ifree (h : FsInv sb d) (hi : (d.view sb).Allocated sb i) :
    ∃ d', ifree sb d i ((d.view sb).inode i) = .ok d' ∧ FsInv sb d' ∧
      ∀ j, j ≠ i → (d'.view sb).inode j = (d.view sb).inode j := by
  obtain ⟨d', hr, hinv, hinode, -⟩ := h.ifree_view hi
  refine ⟨d', hr, hinv, fun j hji => ?_⟩
  rw [hinode, update_of_ne hji]

theorem ialloc_pos {type : Nat} (hr : ialloc sb d type = .ok (i, d')) : 0 < i := by
  unfold Fs.ialloc at hr
  split at hr
  · rename_i j hfind
    cases hr
    have hmem := List.mem_range'_1.mp (List.mem_of_find?_eq_some hfind)
    omega
  · cases hr

theorem FsInv.ialloc {type : Nat} (h : FsInv sb d) (htype : type < 2 ^ 16)
    (hr : ialloc sb d type = .ok (i, d')) :
    FsInv sb d' ∧ i < sb.ninodes ∧ ((d.view sb).inode i).type = 0 ∧
      d'.view sb = (d.view sb).withInode i (.zeroed type) := by
  unfold Fs.ialloc at hr
  split at hr
  · rename_i j hfind
    cases hr
    have hmem := List.mem_range'_1.mp (List.mem_of_find?_eq_some hfind)
    have hfree : ((d.view sb).inode i).type = 0 := by simpa using List.find?_some hfind
    have hi : i < sb.ninodes := by omega
    have hfits : (Dinode.zeroed type).Fits := by
      refine ⟨htype, ?_, ?_, ?_, ?_, ?_, ?_⟩ <;> simp [Dinode.zeroed]
    refine ⟨?_, hi, hfree, view_iupdate hi hfits⟩
    refine h.iupdate hi hfits (owner_withInode_empty (fun k => ?_) fun _ => rfl)
      (fun _ => noHole_of_size_eq_zero rfl) fun _ => meta_zero _
    exact owner_of_not_allocated (fun ha => ha.2 hfree) k
  · cases hr

end Xv6.Fs
