import Xv6.Fs.ReadWrite

/-! # `readi` and `writei` implement a byte array

The contents of an inode are a list of bytes. Under the block-allocation invariant
`writei` overwrites a range of that list and `readi` returns a range of it, and no
other inode's contents change.
-/

namespace Xv6.Fs

open Function Lib

variable {sb : Superblock} {d d' : Disk} {i bn b p off n tot : Nat} {ip ip' : Dinode}

def View.contents (v : View) (i : Nat) : List UInt8 :=
  (List.range (v.inode i).size).map (fileByte v.data (v.inode i))

/-- The bytes from `off` to `min (off + n) size` of a file. -/
def readRange (c : List UInt8) (off n : Nat) : List UInt8 := (c.drop off).take n

/-- A file in which the bytes from `off` on are replaced by `bytes`. -/
def writeRange (c : List UInt8) (off : Nat) (bytes : List UInt8) : List UInt8 :=
  c.take off ++ bytes ++ c.drop (off + bytes.length)

/-! ## How many blocks a write allocates -/

/-- Blocks that mapping the file blocks `lo ..< hi` allocates. -/
def needFrom (data : Nat → Block) (ip : Dinode) (lo hi : Nat) : Nat :=
  ((List.range' lo (hi - lo)).countP fun bn => filePtr data ip bn = 0) +
    if NDIRECT < hi ∧ ip.addrs NDIRECT = 0 then 1 else 0

def blocksNeeded (data : Nat → Block) (ip : Dinode) (off n : Nat) : Nat :=
  if n = 0 then 0 else needFrom data ip (off / BSIZE) ((off + n - 1) / BSIZE + 1)

theorem needFrom_congr {data data' : Nat → Block} {lo hi : Nat}
    (hptr : ∀ bn, lo ≤ bn → filePtr data' ip' bn = filePtr data ip bn)
    (hind : ip'.addrs NDIRECT = ip.addrs NDIRECT) :
    needFrom data' ip' lo hi = needFrom data ip lo hi := by
  unfold needFrom
  rw [hind]
  congr 1
  apply List.countP_congr
  intro bn hbn
  rw [hptr bn (List.mem_range'_1.mp hbn).1]

theorem bmapNeed_eq (data : Nat → Block) (ip : Dinode) (bn : Nat) :
    bmapNeed data ip bn = (if filePtr data ip bn = 0 then 1 else 0) +
      if NDIRECT ≤ bn ∧ ip.addrs NDIRECT = 0 then 1 else 0 := by
  unfold bmapNeed
  by_cases hN : NDIRECT ≤ bn ∧ ip.addrs NDIRECT = 0
  · have h0 : filePtr data ip bn = 0 := by
      refine slotPtr_of_no_indirect ?_ hN.2
      rw [fileSlot, if_neg (by omega)]
      omega
    have hor : ¬ (bn < NDIRECT ∨ ip.addrs NDIRECT ≠ 0) := by
      rintro (hlt | hne)
      · omega
      · exact hne hN.2
    rw [if_pos hN, if_pos h0, if_neg (not_not.mpr h0), if_neg hor]
  · have hor : bn < NDIRECT ∨ ip.addrs NDIRECT ≠ 0 := by
      by_contra hno
      exact hN ⟨by omega, by omega⟩
    by_cases h0 : filePtr data ip bn = 0
    · rw [if_neg hN, if_pos h0, if_neg (not_not.mpr h0), if_pos hor]
    · rw [if_neg hN, if_neg h0, if_pos h0]

theorem needFrom_succ (data : Nat → Block) (ip : Dinode) {bn hi : Nat} (hlt : bn < hi) :
    needFrom data ip bn hi = (if filePtr data ip bn = 0 then 1 else 0) +
      ((List.range' (bn + 1) (hi - (bn + 1))).countP fun bn => filePtr data ip bn = 0) +
      if NDIRECT < hi ∧ ip.addrs NDIRECT = 0 then 1 else 0 := by
  have hsplit : hi - bn = (hi - (bn + 1)) + 1 := by omega
  unfold needFrom
  rw [hsplit, List.range'_succ, List.countP_cons]
  simp only [decide_eq_true_eq]
  omega

theorem bmapNeed_le_needFrom (data : Nat → Block) (ip : Dinode) {bn hi : Nat} (hlt : bn < hi) :
    bmapNeed data ip bn ≤ needFrom data ip bn hi := by
  rw [bmapNeed_eq, needFrom_succ data ip hlt]
  have : (if NDIRECT ≤ bn ∧ ip.addrs NDIRECT = 0 then 1 else 0) ≤
      if NDIRECT < hi ∧ ip.addrs NDIRECT = 0 then 1 else 0 := by
    by_cases hN : NDIRECT ≤ bn ∧ ip.addrs NDIRECT = 0
    · rw [if_pos hN, if_pos ⟨by omega, hN.2⟩]
    · rw [if_neg hN]
      exact Nat.zero_le _
  omega

/-- Mapping the first block of a range pays for that block. -/
theorem Mapped.needFrom {hi : Nat} (h : Mapped sb i bn d ip b d' ip') (hlt : bn < hi) :
    Fs.needFrom (d.view sb).data ip bn hi =
      bmapNeed (d.view sb).data ip bn + Fs.needFrom (d'.view sb).data ip' (bn + 1) hi := by
  have hcount : ((List.range' (bn + 1) (hi - (bn + 1))).countP
      fun bn' => filePtr (d'.view sb).data ip' bn' = 0) =
      (List.range' (bn + 1) (hi - (bn + 1))).countP
        fun bn' => filePtr (d.view sb).data ip bn' = 0 := by
    apply List.countP_congr
    intro bn' hbn'
    rw [h.others bn' (by have := (List.mem_range'_1.mp hbn').1; omega)]
  have hind : (if NDIRECT < hi ∧ ip.addrs NDIRECT = 0 then 1 else 0) =
      (if NDIRECT ≤ bn ∧ ip.addrs NDIRECT = 0 then 1 else 0) +
        if NDIRECT < hi ∧ ip'.addrs NDIRECT = 0 then 1 else 0 := by
    by_cases hN : NDIRECT ≤ bn
    · have hne := h.indirect_ne hN
      simp [hN, hne, show NDIRECT < hi by omega]
    · rw [h.indirect.resolve_right hN]
      simp [hN]
  rw [bmapNeed_eq, needFrom_succ _ _ hlt, hind, Fs.needFrom, hcount]
  omega

theorem writeiLoop_total {src : Nat → Option UInt8} {fuel : Nat} (h : Working sb d i ip)
    (htot : tot ≤ n) (hend : off + (n - tot) ≤ MAXFILE * BSIZE)
    (hfree : blocksNeeded (d.view sb).data ip off (n - tot) ≤ ((d.view sb).freeBlocks sb).card) :
    ∃ r, writeiLoop sb src n fuel tot off ip d = .ok r := by
  induction fuel generalizing tot off ip d with
  | zero => exact ⟨_, rfl⟩
  | succ fuel ih =>
    unfold writeiLoop
    by_cases hlt : tot < n
    · rw [if_pos hlt]
      have hbn : off / BSIZE < MAXFILE := Nat.div_lt_of_lt_mul (by rw [Nat.mul_comm]; omega)
      have hlast : off / BSIZE < (off + (n - tot) - 1) / BSIZE + 1 :=
        Nat.lt_succ_of_le (Nat.div_le_div_right (by omega))
      rw [blocksNeeded, if_neg (by omega)] at hfree
      obtain ⟨⟨addr, ip₁, d₁⟩, hb⟩ := h.bmap_total hbn
        ((bmapNeed_le_needFrom _ _ hlast).trans hfree)
      have hm := h.bmap hb
      have hneed := hm.needFrom hlast
      have hcount := hm.count
      obtain rfl := hm.ptr
      have hm0 := @chunk_pos off n tot hlt
      rw [hb]
      simp only [bind, Except.bind]
      set m := min (n - tot) (BSIZE - off % BSIZE)
      set c := copied (fun k => (src k).isSome) tot m
      by_cases hc : c = m
      · rw [if_pos hc]
        have hs := @Working.stored_put sb d₁ i (off / BSIZE) ip₁
          ((d₁.cached (filePtr (d₁.view sb).data ip₁ (off / BSIZE))).blit (off % BSIZE) c
            fun k => (src (tot + k)).getD 0) hm.working hm.ne_zero
        refine ih hs.working (by omega) (by omega) ?_
        rw [freeBlocks_congr hs.used]
        unfold blocksNeeded
        by_cases hdone : n - (tot + m) = 0
        · rw [if_pos hdone]
          exact Nat.zero_le _
        · have hnext : (off + m) / BSIZE = off / BSIZE + 1 := chunk_next hdone
          have hsame : off + m + (n - (tot + m)) - 1 = off + (n - tot) - 1 := by omega
          rw [if_neg hdone, hnext, hsame, needFrom_congr (fun bn _ => hs.slots _) rfl]
          omega
      · rw [if_neg hc]
        exact ⟨_, rfl⟩
    · rw [if_neg hlt]
      exact ⟨_, rfl⟩

/-! ## `writei` -/

def Dinode.grow (ip : Dinode) (off : Nat) : Dinode :=
  if off > ip.size then { ip with size := off } else ip

theorem Dinode.grow_addrs (ip : Dinode) (off : Nat) : (ip.grow off).addrs = ip.addrs := by
  unfold Dinode.grow
  split <;> rfl

theorem Dinode.grow_type (ip : Dinode) (off : Nat) : (ip.grow off).type = ip.type := by
  unfold Dinode.grow
  split <;> rfl

theorem Dinode.grow_size (ip : Dinode) (off : Nat) : (ip.grow off).size = max ip.size off := by
  unfold Dinode.grow
  split
  · simp only
    omega
  · omega

theorem Dinode.Fits.grow (h : ip.Fits) (hoff : off < 2 ^ 32) : (ip.grow off).Fits := by
  unfold Dinode.grow
  split
  · exact ⟨h.type, h.major, h.minor, h.nlink, hoff, h.addrs, h.addrs_past⟩
  · exact h

theorem filePtr_congr (data : Nat → Block) (haddrs : ip'.addrs = ip.addrs) (bn : Nat) :
    filePtr data ip' bn = filePtr data ip bn :=
  slotPtr_congr haddrs fun _ => rfl

theorem fileByte_congr (data : Nat → Block) (haddrs : ip'.addrs = ip.addrs) (p : Nat) :
    fileByte data ip' p = fileByte data ip p := by
  unfold fileByte
  rw [filePtr_congr data haddrs]

/-- The arguments on which `writei` returns -1. -/
def Rejected (size off n : Nat) : Prop := size < off ∨ 2 ^ 32 ≤ off + n ∨ MAXFILE * BSIZE < off + n

theorem maxfile_lt : MAXFILE * BSIZE < 2 ^ 32 := by decide

theorem writei_rejected {src : Nat → Option UInt8} (hoff : off < 2 ^ 32) (hn : n < 2 ^ 32)
    (hr : Rejected ip.size off n) : writei sb d i ip src off n = .ok (-1, ip, d) := by
  unfold writei
  by_cases h1 : off > ip.size ∨ (off + n) % 2 ^ 32 < off
  · rw [if_pos h1]
    rfl
  · have hsum : off + n < 2 ^ 32 := by
      by_contra hge
      omega
    have hmod : (off + n) % 2 ^ 32 = off + n := Nat.mod_eq_of_lt hsum
    have hbig : (off + n) % 2 ^ 32 > MAXFILE * BSIZE := by
      rcases hr with hr | hr | hr
      · exact absurd (Or.inl hr) h1
      · omega
      · rwa [hmod]
    rw [if_neg h1, if_pos hbig]
    rfl

theorem writei_accepted {src : Nat → Option UInt8} (hr : ¬ Rejected ip.size off n) :
    writei sb d i ip src off n = do
      let (tot, off, ip, d) ← writeiLoop sb src n n 0 off ip d
      return (tot, ip.grow off, iupdate sb d i (ip.grow off)) := by
  simp only [Rejected, not_or, Nat.not_lt, Nat.not_le] at hr
  obtain ⟨h1, h2, h3⟩ := hr
  have hmod : (off + n) % 2 ^ 32 = off + n := Nat.mod_eq_of_lt h2
  unfold writei
  rw [hmod, if_neg (by omega), if_neg (by omega)]
  rfl

/-- What a `writei` call that does not panic has done to the file system. -/
structure WriteResult (sb : Superblock) (i : Nat) (src : Nat → Option UInt8)
    (off n : Nat) (d : Disk) (r : Int) (d' : Disk) : Prop where
  alloc : AllocInv sb (d'.view sb)
  clean : d.CleanOn ((d.view sb).Meta sb) → d'.CleanOn ((d'.view sb).Meta sb)
  inodes : ∀ j, j ≠ i → (d'.view sb).inode j = (d.view sb).inode j
  type : ((d'.view sb).inode i).type = ((d.view sb).inode i).type
  others : ∀ j, j ≠ i → (d.view sb).Allocated sb j → (d'.view sb).contents j =
    (d.view sb).contents j
  rejected : Rejected ((d.view sb).inode i).size off n → r = -1 ∧ d' = d
  accepted : ¬ Rejected ((d.view sb).inode i).size off n → (∀ k, k < n → (src k).isSome) →
    r = n ∧ ((d'.view sb).inode i).size = max ((d.view sb).inode i).size (off + n) ∧
      (d'.view sb).contents i =
        writeRange ((d.view sb).contents i) off ((List.range n).map fun k => (src k).getD 0)

theorem contents_eq_writeRange {f g : Nat → UInt8} {size : Nat} {bytes : Nat → UInt8}
    (hoff : off ≤ size) (hbefore : ∀ p, p < off → g p = f p)
    (hin : ∀ p, off ≤ p → p < off + n → g p = bytes (p - off))
    (hafter : ∀ p, off + n ≤ p → g p = f p) :
    (List.range (max size (off + n))).map g =
      writeRange ((List.range size).map f) off ((List.range n).map bytes) := by
  apply List.ext_getElem
  · simp only [writeRange, List.length_map, List.length_range, List.length_append, List.length_take,
      List.length_drop]
    omega
  · intro p h1 h2
    simp only [List.length_map, List.length_range] at h1
    simp only [writeRange, List.append_assoc, List.getElem_map, List.getElem_range,
      List.length_map, List.length_range]
    by_cases hp : p < off
    · rw [List.getElem_append_left (by simp; omega)]
      simp [hbefore p hp]
    · rw [List.getElem_append_right (by simp; omega)]
      simp only [List.length_take, List.length_map, List.length_range, Nat.min_eq_left hoff]
      by_cases hp' : p < off + n
      · rw [List.getElem_append_left (by simp; omega)]
        simp [hin p (by omega) hp']
      · rw [List.getElem_append_right (by simp; omega)]
        simp only [List.length_map, List.length_range, List.getElem_drop, List.getElem_map,
          List.getElem_range]
        rw [hafter p (by omega)]
        congr 1
        omega

theorem CleanWith.withFields (h : CleanWith sb d i ip) (haddrs : ip'.addrs = ip.addrs)
    (htype : ip'.type = ip.type) : CleanWith sb d i ip' := by
  intro c hc
  apply h
  rcases hc with hc | ⟨j, hj, hjc⟩
  · exact Or.inl hc
  · refine Or.inr ⟨j, ?_⟩
    by_cases hji : j = i
    · subst hji
      simp only [View.Allocated, withInode_self, haddrs, htype] at hj hjc ⊢
      exact ⟨hj, hjc⟩
    · simp only [View.Allocated, withInode_ne hji] at hj hjc ⊢
      exact ⟨hj, hjc⟩

theorem Written.result {src : Nat → Option UInt8} {tot' off' : Nat} {d₁ : Disk} {ip₁ : Dinode}
    (hwr : Written sb i src n 0 off d ((d.view sb).inode i) tot' off' d₁ ip₁)
    (h : AllocInv sb (d.view sb)) (hi : (d.view sb).Allocated sb i)
    (hrej : off ≤ ((d.view sb).inode i).size ∧ off + n < 2 ^ 32 ∧ off + n ≤ MAXFILE * BSIZE) :
    WriteResult sb i src off n d tot' (iupdate sb d₁ i (ip₁.grow off')) := by
  obtain ⟨hsz, hwrap, hbig⟩ := hrej
  have hw := h.working hi
  have hnh : NoHole (d.view sb).data ((d.view sb).inode i) := h.noHole i hi
  have hoff' := hwr.off_eq
  have hle := hwr.le_n
  have hsize : ip₁.size = ((d.view sb).inode i).size := by rw [hwr.frame.fields]
  have htype : ip₁.type = ((d.view sb).inode i).type := by rw [hwr.frame.fields]
  have haddrs := ip₁.grow_addrs off'
  have hfits := @Dinode.Fits.grow off' ip₁ hwr.working.fits (by omega)
  have hw' : Working sb d₁ i (ip₁.grow off') :=
    hwr.working.withFields haddrs (by rw [Dinode.grow_type]; exact hwr.working.type) hfits
  have hview := @view_iupdate sb d₁ i (ip₁.grow off') hi.1 hfits
  have hinode : ∀ j, j ≠ i → ((iupdate sb d₁ i (ip₁.grow off')).view sb).inode j =
      (d.view sb).inode j := by
    intro j hji
    rw [hview]
    exact (update_of_ne hji _ _).trans (congrFun hwr.frame.inode j)
  have hself : ((iupdate sb d₁ i (ip₁.grow off')).view sb).inode i = ip₁.grow off' := by
    rw [hview]
    exact update_self _ _ _
  have hdata : ((iupdate sb d₁ i (ip₁.grow off')).view sb).data = (d₁.view sb).data := by rw [hview]
  refine ⟨hw'.finish ?_ ?_, fun hcl => hw'.finish_clean ?_, hinode, ?_, ?_, ?_, ?_⟩
  · intro bn hbn
    rw [Dinode.grow_size, hsize] at hbn
    rw [filePtr_congr _ haddrs]
    by_cases hold : bn * BSIZE < ((d.view sb).inode i).size
    · obtain ⟨hlt, hne⟩ := hnh bn hold
      refine ⟨hlt, ?_⟩
      rw [filePtr, hwr.frame.slots _ hne]
      exact hne
    · -- a block that starts inside the written range
      have hne := hwr.mapped (bn * BSIZE) (by omega) (by omega)
      rw [Nat.mul_div_cancel _ (by decide)] at hne
      refine ⟨Nat.lt_of_mul_lt_mul_right (Nat.lt_of_lt_of_le ?_ hbig), hne⟩
      omega
  · intro j hji hj bn hbn
    rw [View.Allocated, hwr.frame.inode] at hj
    rw [hwr.frame.inode] at hbn ⊢
    rw [filePtr, hwr.frame.slotPtr_other hw hji hj]
    exact h.noHole j hj bn hbn
  · refine (hwr.clean ?_).withFields haddrs (Dinode.grow_type _ _)
    rwa [CleanWith, withInode_eq rfl]
  · rw [hself, Dinode.grow_type, htype]
  · intro j hji hj
    unfold View.contents
    rw [hinode j hji, hdata]
    exact List.map_congr_left fun p _ => hwr.frame.fileByte_other hw hji hj p
  · rintro (hr | hr | hr) <;> omega
  · intro _ hsrc
    have hdone := hwr.done hsrc
    have hoffn : off' = off + n := by omega
    subst hoffn
    refine ⟨by rw [hdone], by rw [hself, Dinode.grow_size, hsize], ?_⟩
    unfold View.contents
    rw [hself, hdata, Dinode.grow_size, hsize]
    refine contents_eq_writeRange hsz ?_ ?_ ?_
    · intro p hp
      rw [fileByte_congr _ haddrs, hwr.before p hp]
    · intro p hp hp'
      rw [fileByte_congr _ haddrs, hwr.bytes p hp hp', Nat.zero_add]
    · intro p hp
      rw [fileByte_congr _ haddrs, hwr.after hdone p hp]

theorem AllocInv.writei {src : Nat → Option UInt8} (h : AllocInv sb (d.view sb))
    (hi : (d.view sb).Allocated sb i) (hoff : off < 2 ^ 32) (hn : n < 2 ^ 32) :
    (∀ f, Fs.writei sb d i ((d.view sb).inode i) src off n = .error f → f = .ballocOutOfBlocks) ∧
    ∀ r ip' d', Fs.writei sb d i ((d.view sb).inode i) src off n = .ok (r, ip', d') →
      WriteResult sb i src off n d r d' := by
  have hw := h.working hi
  have hnh : NoHole (d.view sb).data ((d.view sb).inode i) := h.noHole i hi
  by_cases hrej : Rejected ((d.view sb).inode i).size off n
  · rw [writei_rejected hoff hn hrej]
    refine ⟨fun f hf => absurd hf (by simp), fun r ip' d' hr => ?_⟩
    cases hr
    exact ⟨h, id, fun _ _ => rfl, rfl, fun _ _ _ => rfl, fun _ => ⟨rfl, rfl⟩,
      fun hno => absurd hrej hno⟩
  · rw [writei_accepted hrej]
    simp only [Rejected, not_or, Nat.not_lt, Nat.not_le] at hrej
    have hmax := maxfile_lt
    obtain ⟨hErr, hOk⟩ := @writeiLoop_spec sb d i off n 0 ((d.view sb).inode i) src n hw
      (Nat.zero_le _) (by omega) (by omega)
    cases hloop : writeiLoop sb src n n 0 off ((d.view sb).inode i) d with
    | error f =>
      refine ⟨fun f' hf => ?_, fun _ _ _ hr => ?_⟩
      · cases hf
        exact hErr f hloop
      · cases hr
    | ok res =>
      obtain ⟨tot, off', ip₁, d₁⟩ := res
      have hwr := hOk _ _ _ _ hloop
      refine ⟨fun f hf => absurd hf (by simp [bind, Except.bind, pure, Except.pure]), ?_⟩
      intro r ip' d' hr
      simp only [bind, Except.bind, pure, Except.pure] at hr
      cases hr
      exact hwr.result h hi hrej

theorem AllocInv.writei_fields {src : Nat → Option UInt8} {r : Int} (h : AllocInv sb (d.view sb))
    (hi : (d.view sb).Allocated sb i) (hoff : off < 2 ^ 32) (hn : n < 2 ^ 32)
    (hr : Fs.writei sb d i ((d.view sb).inode i) src off n = .ok (r, ip', d')) :
    ∃ addrs size, (d'.view sb).inode i =
    { (d.view sb).inode i with addrs := addrs, size := size } := by
  by_cases hrej : Rejected ((d.view sb).inode i).size off n
  · rw [writei_rejected hoff hn hrej] at hr
    cases hr
    exact ⟨_, _, rfl⟩
  · rw [writei_accepted hrej] at hr
    simp only [Rejected, not_or, Nat.not_lt, Nat.not_le] at hrej
    cases hloop : writeiLoop sb src n n 0 off ((d.view sb).inode i) d with
    | error f =>
      rw [hloop] at hr
      cases hr
    | ok res =>
      obtain ⟨tot, off', ip₁, d₁⟩ := res
      have hwr := (@writeiLoop_spec sb d i off n 0 ((d.view sb).inode i) src n (h.working hi)
        (Nat.zero_le _) (by omega) (by omega)).2 _ _ _ _ hloop
      have hoff' := hwr.off_eq
      have hle := hwr.le_n
      rw [hloop] at hr
      simp only [bind, Except.bind, pure, Except.pure] at hr
      cases hr
      rw [view_iupdate hi.1 (hwr.working.fits.grow (by omega))]
      dsimp only
      rw [update_self]
      unfold Dinode.grow
      rw [hwr.frame.fields]
      split
      · exact ⟨_, _, rfl⟩
      · exact ⟨_, _, rfl⟩

/-! ## `readi` -/

theorem AllocInv.readi (h : AllocInv sb (d.view sb)) (hi : (d.view sb).Allocated sb i)
    (dst : Nat → Bool) (hoff : off < 2 ^ 32) (hn : n < 2 ^ 32) :
    ∃ r bytes, readi sb d ((d.view sb).inode i) dst off n =
        .ok (r, bytes, (d.view sb).inode i, d) ∧
      ((∀ k, k < n → dst k = true) → r = bytes.length ∧
        bytes = if ((d.view sb).inode i).size < off ∨ 2 ^ 32 ≤ off + n then []
          else readRange ((d.view sb).contents i) off n) := by
  have hw := h.working hi
  have hnh : NoHole (d.view sb).data ((d.view sb).inode i) := h.noHole i hi
  unfold Fs.readi
  by_cases hcond : ((d.view sb).inode i).size < off ∨ 2 ^ 32 ≤ off + n
  · rw [if_pos (by omega)]
    exact ⟨0, [], rfl, fun _ => ⟨rfl, by rw [if_pos hcond]⟩⟩
  · have hmod : (off + n) % 2 ^ 32 = off + n := Nat.mod_eq_of_lt (by omega)
    rw [hmod, if_neg (by omega)]
    set m := if off + n > ((d.view sb).inode i).size then ((d.view sb).inode i).size - off else n
      with hm
    have hmn : m = min n (((d.view sb).inode i).size - off) := by
      rw [hm]
      split <;> omega
    obtain ⟨r, bytes, hr, hall⟩ := @readiLoop_spec sb d i off m 0 ((d.view sb).inode i) dst m [] hw
      hnh (Nat.zero_le _) (by omega) (by omega)
    refine ⟨r, bytes, hr, fun hdst => ?_⟩
    obtain ⟨hrm, hbytes⟩ := hall fun k hk => hdst k (by omega)
    have hrange : bytes = readRange ((d.view sb).contents i) off n := by
      rw [hbytes]
      apply List.ext_getElem
      · simp only [readRange, View.contents, List.nil_append, List.length_map, List.length_range,
          List.length_take, List.length_drop]
        omega
      · intro k h1 h2
        simp [readRange, View.contents]
    refine ⟨?_, by rw [if_neg hcond, hrange]⟩
    rw [hrm, hbytes]
    simp

/-! ## The byte array -/

/-- Under the block-allocation invariant, `writei` from a readable source with enough
free blocks returns -1 and changes nothing on the arguments it rejects, and
otherwise returns `n` and replaces the bytes from `off` on; it changes no other
inode's contents and keeps the invariant. From any source it never reaches the
panic of `bmap`. `readi` returns a range of the contents and changes nothing. -/
theorem readi_writei_byte_array (sb : Superblock) (d : Disk) (h : AllocInv sb (d.view sb)) (i : Nat)
    (hi : (d.view sb).Allocated sb i) (off n : Nat) (hoff : off < 2 ^ 32) (hn : n < 2 ^ 32) :
    (∀ src : Nat → Option UInt8, (∀ k, k < n → (src k).isSome) →
      (¬ Rejected ((d.view sb).inode i).size off n →
        blocksNeeded (d.view sb).data ((d.view sb).inode i) off n ≤
          ((d.view sb).freeBlocks sb).card) →
      ∃ r ip' d', writei sb d i ((d.view sb).inode i) src off n = .ok (r, ip', d') ∧
        AllocInv sb (d'.view sb) ∧
        (Rejected ((d.view sb).inode i).size off n →
          r = -1 ∧ (d'.view sb).contents i = (d.view sb).contents i) ∧
        (¬ Rejected ((d.view sb).inode i).size off n →
          r = n ∧ ((d'.view sb).inode i).size = max ((d.view sb).inode i).size (off + n) ∧
          (d'.view sb).contents i =
            writeRange ((d.view sb).contents i) off ((List.range n).map fun k => (src k).getD 0)) ∧
        ∀ j, j ≠ i → (d.view sb).Allocated sb j →
          (d'.view sb).contents j = (d.view sb).contents j) ∧
    (∀ src, writei sb d i ((d.view sb).inode i) src off n ≠ .error .bmapOutOfRange) ∧
    ∀ dst : Nat → Bool, ∃ r bytes, readi sb d ((d.view sb).inode i) dst off n =
        .ok (r, bytes, (d.view sb).inode i, d) ∧
      ((∀ k, k < n → dst k = true) → r = bytes.length ∧
        bytes = if ((d.view sb).inode i).size < off ∨ 2 ^ 32 ≤ off + n then []
          else readRange ((d.view sb).contents i) off n) := by
  refine ⟨?_, ?_, fun dst => h.readi hi dst hoff hn⟩
  · intro src hsrc hfree
    obtain ⟨hErr, hOk⟩ := @AllocInv.writei sb d i off n src h hi hoff hn
    obtain ⟨⟨r, ip', d'⟩, hr⟩ : ∃ res, writei sb d i ((d.view sb).inode i) src off n = .ok res := by
      by_cases hrej : Rejected ((d.view sb).inode i).size off n
      · exact ⟨_, writei_rejected hoff hn hrej⟩
      · have hfree := hfree hrej
        rw [writei_accepted hrej]
        simp only [Rejected, not_or, Nat.not_lt, Nat.not_le] at hrej
        obtain ⟨⟨tot, off', ip₁, d₁⟩, hloop⟩ := @writeiLoop_total sb d i off n 0
          ((d.view sb).inode i) src n (h.working hi) (Nat.zero_le _) (by omega) hfree
        exact ⟨_, by rw [hloop]; rfl⟩
    have hres := hOk r ip' d' hr
    refine ⟨r, ip', d', hr, hres.alloc, fun hrej => ?_, fun hrej => hres.accepted hrej hsrc,
      hres.others⟩
    obtain ⟨hr1, rfl⟩ := hres.rejected hrej
    exact ⟨hr1, rfl⟩
  · intro src hf
    have := (@AllocInv.writei sb d i off n src h hi hoff hn).1 _ hf
    cases this

/-! ## A small image -/

/-- The disk at boot, with nothing cached that differs from it. -/
def Disk.ofImage (img : Nat → Block) : Disk := ⟨img, img, []⟩

/-- One inode block, one bitmap block and thirteen data blocks. -/
def tinySb : Superblock := .layout 1 3 13 Nat.one_pos (by decide)

/-- Inode 1 is an empty directory, inode 2 an empty file, and all data blocks are
free. -/
def tinyImage : Nat → Block :=
  ((((iupdate tinySb (iupdate tinySb (Disk.ofImage fun _ => Bytes.zero) 1 (.zeroed 1)) 2
    (.zeroed 2)).mark tinySb 0).mark tinySb 1).mark tinySb 2).cached

def tinyInode : Nat → Dinode :=
  update (update (fun _ => .zeroed 0) 1 (.zeroed 1)) 2 (.zeroed 2)

theorem view_zero (sb : Superblock) : (Disk.ofImage fun _ => Bytes.zero).view sb =
    ⟨fun _ => .zeroed 0, fun _ => false, fun _ => Bytes.zero⟩ := by
  simp only [Disk.view, Disk.ofImage, View.mk.injEq]
  refine ⟨?_, ?_, ?_⟩
  · funext i
    simp [getDinode, Dinode.zeroed, Bytes.getLE]
  · funext b
    simp [Bytes.getBit]
  · funext b
    simp

theorem tiny_view_layout {n : Nat} (hn : 1 + (3 / IPB + 1) + 1 + n ≤ BPB) :
    (Disk.ofImage tinyImage).view (.layout 1 3 n Nat.one_pos hn) =
      ⟨tinyInode, fun b => decide (b < 3), fun _ => Bytes.zero⟩ := by
  have hfits : ∀ t, t < 65536 → (Dinode.zeroed t).Fits := by
    intro t ht
    constructor
    · exact ht
    all_goals simp [Dinode.zeroed]
  have hsize : ∀ b, b < 3 → b < (Superblock.layout 1 3 n Nat.one_pos hn).size := by
    intro b hb
    exact (hb.trans_le (by decide : 3 ≤ 1 + (3 / IPB + 1) + 1)).trans_le (Nat.le_add_right _ n)
  generalize hsb : Superblock.layout 1 3 n Nat.one_pos hn = sb at hsize
  have hcached : (Disk.ofImage tinyImage).view sb =
      ((((iupdate sb (iupdate sb (Disk.ofImage fun _ => Bytes.zero) 1 (.zeroed 1)) 2
        (.zeroed 2)).mark sb 0).mark sb 1).mark sb 2).view sb := by
    rw [← hsb]
    rfl
  have hinodes : sb.ninodes = 3 := by
    rw [← hsb]
    rfl
  rw [hcached, view_mark (hsize 2 (by decide)), view_mark (hsize 1 (by decide)),
    view_mark (hsize 0 (by decide)), view_iupdate (by rw [hinodes]; decide) (hfits 2 (by decide)),
    view_iupdate (by rw [hinodes]; decide) (hfits 1 (by decide)), view_zero]
  simp only [tinyInode, View.mk.injEq, true_and, and_true]
  funext b
  simp only [update_apply]
  by_cases h2 : b = 2
  · simp [h2]
  · by_cases h1 : b = 1
    · simp [h1]
    · by_cases h0 : b = 0
      · simp [h0]
      · simp [h0, h1, h2, show ¬ b < 3 by omega]

theorem tiny_view : (Disk.ofImage tinyImage).view tinySb =
    ⟨tinyInode, fun b => decide (b < 3), fun _ => Bytes.zero⟩ := tiny_view_layout _

theorem tinyInode_empty (i : Nat) :
    (tinyInode i).addrs = (fun _ => 0) ∧ (tinyInode i).size = 0 := by
  unfold tinyInode
  by_cases h2 : i = 2
  · simp [h2, Dinode.zeroed]
  · by_cases h1 : i = 1 <;> simp [h1, h2, Dinode.zeroed]

theorem allocInv_empty (hinode : ∀ i, ((d.view sb).inode i).addrs = (fun _ => 0) ∧
    ((d.view sb).inode i).size = 0)
    (hused : (d.view sb).used = fun b => decide (b < sb.datastart)) : AllocInv sb (d.view sb) := by
  have hown : ∀ x, (d.view sb).owner sb x = 0 := by
    intro x
    simp [View.owner, slotPtr, hinode]
  refine ⟨⟨sb.datastart_pos, fun x y hx => absurd (hown x) hx, fun x hx => absurd (hown x) hx, ?_,
    ?_⟩, ?_⟩
  · intro b hb _
    rw [hused]
    exact decide_eq_true hb
  · intro b hlo _
    rw [hused]
    constructor
    · intro hu
      exact absurd (of_decide_eq_true hu) (by omega)
    · rintro ⟨x, hx⟩
      have := sb.datastart_pos
      rw [hown x] at hx
      omega
  · intro i _ bn hbn
    rw [(hinode i).2] at hbn
    exact absurd hbn (Nat.not_lt_zero _)

theorem tiny_allocInv_layout {n : Nat} (hn : 1 + (3 / IPB + 1) + 1 + n ≤ BPB) :
    AllocInv (.layout 1 3 n Nat.one_pos hn)
    ((Disk.ofImage tinyImage).view (.layout 1 3 n Nat.one_pos hn)) := by
  refine allocInv_empty ?_ ?_ <;> rw [tiny_view_layout]
  · exact tinyInode_empty
  · have hdata : (Superblock.layout 1 3 n Nat.one_pos hn).datastart = 3 := Nat.add_sub_cancel _ _
    rw [hdata]

theorem tiny_allocInv : AllocInv tinySb ((Disk.ofImage tinyImage).view tinySb) :=
  tiny_allocInv_layout _

/-- Five bytes written to the empty file are its contents. -/
theorem readi_writei_byte_array_tiny :
    ∃ r ip' d', writei tinySb (Disk.ofImage tinyImage) 2
        (((Disk.ofImage tinyImage).view tinySb).inode 2) (fun k => some (.ofNat (k + 1))) 0 5 =
          .ok (r, ip', d') ∧ r = 5 ∧ (d'.view tinySb).contents 2 = [1, 2, 3, 4, 5] := by
  have hview := tiny_view
  have halloc : ((Disk.ofImage tinyImage).view tinySb).Allocated tinySb 2 := by
    rw [hview]
    exact ⟨by decide, by simp [tinyInode, Dinode.zeroed]⟩
  have hsize : (((Disk.ofImage tinyImage).view tinySb).inode 2).size = 0 := by
    rw [hview]
    rfl
  have hrej : ¬ Rejected (((Disk.ofImage tinyImage).view tinySb).inode 2).size 0 5 := by
    rw [hsize]
    simp only [Rejected]
    decide
  obtain ⟨hwrite, -⟩ := readi_writei_byte_array tinySb (Disk.ofImage tinyImage)
    tiny_allocInv 2 halloc 0 5 (by decide) (by decide)
  obtain ⟨r, ip', d', hr, -, -, hacc, -⟩ := hwrite (fun k => some (.ofNat (k + 1)))
    (fun _ _ => rfl) fun _ => by
      rw [hview]
      decide
  obtain ⟨hr5, -, hcont⟩ := hacc hrej
  refine ⟨r, ip', d', hr, hr5, ?_⟩
  rw [hcont, View.contents, hsize]
  decide

end Xv6.Fs
