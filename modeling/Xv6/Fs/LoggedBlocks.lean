import Xv6.Fs.ByteArray
import Xv6.Lib.Post

/-! # The blocks that one write logs

A call of `writei` passes to `log_write` the data blocks it writes, a bitmap block for each block it
allocates, the indirect block when it enters a new block there, and the inode block.
-/

namespace Xv6.Fs

open Lib

/-- The distinct blocks passed to `log_write` between `d` and `d'`. -/
def loggedBlocks (d d' : Disk) : Finset Nat := (d'.trace.drop d.trace.length).toFinset

/-- From `d` to `d'`, only blocks of `S` were passed to `log_write`. -/
def LogsWithin (S : Finset Nat) (d d' : Disk) : Prop :=
  ∃ l, d'.trace = d.trace ++ l ∧ ∀ b ∈ l, b ∈ S

variable {sb : Superblock} {d d₁ d' : Disk} {i b bn off n tot : Nat} {ip ip' : Dinode}
    {S T : Finset Nat}

namespace LogsWithin

theorem refl (S : Finset Nat) (d : Disk) : LogsWithin S d d :=
  ⟨[], (List.append_nil _).symm, fun _ h => absurd h List.not_mem_nil⟩

theorem put (d : Disk) (blk : Block) (hb : b ∈ S) : LogsWithin S d (d.put b blk) :=
  ⟨[b], rfl, fun c hc => by rw [List.mem_singleton.mp hc]; exact hb⟩

theorem scribble (S : Finset Nat) (d : Disk) (b : Nat) (blk : Block) :
    LogsWithin S d (d.scribble b blk) := refl S d

theorem trans (h : LogsWithin S d d₁) (h' : LogsWithin S d₁ d') : LogsWithin S d d' := by
  obtain ⟨l, hl, hS⟩ := h
  obtain ⟨l', hl', hS'⟩ := h'
  refine ⟨l ++ l', by rw [hl', hl, List.append_assoc], fun b hb => ?_⟩
  rcases List.mem_append.mp hb with hb | hb
  · exact hS b hb
  · exact hS' b hb

theorem mono (h : LogsWithin S d d') (hST : S ⊆ T) : LogsWithin T d d' := by
  obtain ⟨l, hl, hS⟩ := h
  exact ⟨l, hl, fun b hb => hST (hS b hb)⟩

theorem card_le (h : LogsWithin S d d') : (loggedBlocks d d').card ≤ S.card := by
  obtain ⟨l, hl, hS⟩ := h
  refine Finset.card_le_card fun b hb => hS b ?_
  unfold loggedBlocks at hb
  rw [hl, List.drop_left] at hb
  exact List.mem_toFinset.mp hb

end LogsWithin

/-! ## Allocation -/

theorem balloc_logs (h : balloc sb d = .ok (b, d')) (hS : sb.BBLOCK b ∈ S) (hb : b ∈ S) :
    LogsWithin S d d' := by
  obtain ⟨-, -, rfl⟩ := balloc_ok h
  exact (LogsWithin.put d _ hS).trans (.put _ _ hb)

theorem addrOf_logs {k : Nat} (h : addrOf sb d ip k = .ok (b, ip', d')) :
    ip'.addrs k = b ∧ (∀ l, l ≠ k → ip'.addrs l = ip.addrs l) ∧ if ip.addrs k =
    0 then LogsWithin {sb.BBLOCK b, b} d d' else d' = d := by
  unfold addrOf at h
  by_cases hzero : ip.addrs k = 0
  · rw [if_pos hzero] at h ⊢
    cases hb : balloc sb d with
    | error f =>
      rw [hb] at h
      cases h
    | ok r =>
      obtain ⟨c, d₁⟩ := r
      rw [hb] at h
      cases h
      exact ⟨Function.update_self _ _ _, fun l hl => Function.update_of_ne hl _ _,
        balloc_logs hb (by simp) (by simp)⟩
  · rw [if_neg hzero] at h ⊢
    cases h
    exact ⟨rfl, fun _ _ => rfl, rfl⟩

theorem entryOf_logs {addr j : Nat} (h : entryOf sb d addr j = .ok (b, d')) :
    if getEntry (d.cached addr) j = 0 then LogsWithin {sb.BBLOCK b, b, addr} d d' else d' = d := by
  unfold entryOf at h
  by_cases hzero : getEntry (d.cached addr) j = 0
  · rw [if_pos hzero] at h ⊢
    cases hb : balloc sb d with
    | error f =>
      rw [hb] at h
      cases h
    | ok r =>
      obtain ⟨c, d₁⟩ := r
      rw [hb] at h
      cases h
      exact (balloc_logs hb (by simp) (by simp)).trans (.put _ _ (by simp))
  · rw [if_neg hzero] at h ⊢
    cases h
    rfl

/-- `bmap` logs the block it returns, a bitmap block for each block it allocates, and the indirect
block. -/
theorem bmap_logs (h : Working sb d i ip) (hr : bmap sb d ip bn = .ok (b, ip', d')) :
    ∃ B : Finset Nat, B.card ≤ bmapNeed (d.view sb).data ip bn ∧
      LogsWithin (B ∪ {b} ∪ if NDIRECT ≤ bn then {ip'.addrs NDIRECT} else ∅) d d' := by
  have hm := h.bmap hr
  by_cases hold : filePtr (d.view sb).data ip bn ≠ 0
  · obtain ⟨rfl, -⟩ := hm.same hold
    exact ⟨∅, Nat.zero_le _, .refl _ _⟩
  · rw [not_not] at hold
    unfold bmap at hr
    by_cases hdir : bn < NDIRECT
    · rw [if_pos hdir] at hr
      obtain ⟨-, -, hlogs⟩ := addrOf_logs hr
      have hzero : ip.addrs bn = 0 := by
        rw [← slotPtr_le (d.view sb).data (Nat.le_of_lt hdir)]
        unfold filePtr fileSlot at hold
        rw [if_pos hdir] at hold
        exact hold
      rw [if_pos hzero] at hlogs
      refine ⟨{sb.BBLOCK b}, ?_, hlogs.mono ?_⟩
      · rw [bmapNeed, if_neg (not_not.mpr hold), if_pos (.inl hdir), Finset.card_singleton]
      · intro x hx
        rw [Finset.mem_insert, Finset.mem_singleton] at hx
        rcases hx with hx | hx <;> simp [hx]
    · rw [if_neg hdir] at hr
      split at hr
      swap
      · cases hr
      cases ha : addrOf sb d ip NDIRECT with
      | error f =>
        rw [ha] at hr
        cases hr
      | ok r =>
        obtain ⟨addr, ip₁, d₁⟩ := r
        rw [ha, ok_bind] at hr
        dsimp only at hr
        cases he : entryOf sb d₁ addr (bn - NDIRECT) with
        | error f =>
          rw [he] at hr
          cases hr
        | ok r =>
          obtain ⟨c, d₂⟩ := r
          rw [he] at hr
          obtain ⟨rfl, rfl, rfl⟩ : c = b ∧ ip₁ = ip' ∧ d₂ = d' := by
            simpa only [pure, Except.pure, Except.ok.injEq, Prod.mk.injEq, ok_bind] using hr
          obtain ⟨rfl, -, haddr⟩ := addrOf_logs ha
          have hentry := entryOf_logs he
          rw [if_pos (Nat.le_of_not_lt hdir)]
          have hsecond : LogsWithin {sb.BBLOCK c, c, ip₁.addrs NDIRECT} d₁ d₂ := by
            split at hentry
            · exact hentry
            · rw [hentry]
              exact .refl _ _
          by_cases hind : ip.addrs NDIRECT = 0
          · rw [if_pos hind] at haddr
            refine ⟨{sb.BBLOCK (ip₁.addrs NDIRECT), sb.BBLOCK c}, ?_,
              (haddr.mono ?_).trans (hsecond.mono ?_)⟩
            · rw [bmapNeed, if_neg (not_not.mpr hold),
                if_neg fun hor => hor.elim hdir fun hne => hne hind]
              exact Finset.card_le_two
            · intro x hx
              rw [Finset.mem_insert, Finset.mem_singleton] at hx
              rcases hx with hx | hx <;> simp [hx]
            · intro x hx
              rw [Finset.mem_insert, Finset.mem_insert, Finset.mem_singleton] at hx
              rcases hx with hx | hx | hx <;> simp [hx]
          · rw [if_neg hind] at haddr
            subst haddr
            refine ⟨{sb.BBLOCK c}, ?_, hsecond.mono fun x hx => ?_⟩
            · rw [bmapNeed, if_neg (not_not.mpr hold), if_pos (.inr hind), Finset.card_singleton]
            · rw [Finset.mem_insert, Finset.mem_insert, Finset.mem_singleton] at hx
              rcases hx with hx | hx | hx <;> simp [hx]

/-! ## The loop -/

/-- File blocks that `n` bytes from `off` on lie in. -/
def blocksTouched (off n : Nat) : Nat :=
  if n = 0 then 0 else (off + n - 1) / BSIZE + 1 - off / BSIZE

theorem writeiLoop_logs {src : Nat → Option UInt8} {fuel tot' off' : Nat} (h : Working sb d i ip)
    (htot : tot ≤ n) (hend : off + (n - tot) ≤ MAXFILE * BSIZE) (hfuel : n - tot ≤ fuel)
    (hr : writeiLoop sb src n fuel tot off ip d = .ok (tot', off', ip', d')) :
    ∃ D B : Finset Nat, D.card ≤ blocksTouched off (n - tot) ∧
      B.card ≤ blocksNeeded (d.view sb).data ip off (n - tot) ∧
      LogsWithin (D ∪ B ∪ {ip'.addrs NDIRECT}) d d' := by
  induction fuel generalizing tot off ip d with
  | zero =>
    cases hr
    exact ⟨∅, ∅, Nat.zero_le _, Nat.zero_le _, .refl _ _⟩
  | succ fuel ih =>
    unfold writeiLoop at hr
    by_cases hlt : tot < n
    swap
    · rw [if_neg hlt] at hr
      cases hr
      exact ⟨∅, ∅, Nat.zero_le _, Nat.zero_le _, .refl _ _⟩
    rw [if_pos hlt] at hr
    have hlast : off / BSIZE < (off + (n - tot) - 1) / BSIZE + 1 :=
      Nat.lt_succ_of_le (Nat.div_le_div_right (by omega))
    cases hb : bmap sb d ip (off / BSIZE) with
    | error f =>
      rw [hb] at hr
      cases hr
    | ok r =>
      obtain ⟨addr, ip₁, d₁⟩ := r
      rw [hb, ok_bind] at hr
      have hm := h.bmap hb
      have hneed := hm.needFrom hlast
      obtain ⟨B₁, hB₁, hlogs₁⟩ := bmap_logs h hb
      obtain rfl := hm.ptr
      have hm0 := @chunk_pos off n tot hlt
      dsimp only at hr
      generalize hmeq : min (n - tot) (BSIZE - off % BSIZE) = m at hr hm0
      unfold blocksNeeded blocksTouched
      rw [if_neg (by omega), if_neg (by omega)]
      by_cases hc : copied (fun k => (src k).isSome) tot m = m
      · rw [if_pos hc] at hr
        have hs := @Working.stored_put sb d₁ i (off / BSIZE) ip₁
          ((d₁.cached (filePtr (d₁.view sb).data ip₁ (off / BSIZE))).blit (off % BSIZE)
            (copied (fun k => (src k).isSome) tot m) fun k => (src (tot + k)).getD 0)
              hm.working hm.ne_zero
        have hspec := (@writeiLoop_spec sb _ i (off + m) n (tot + m) ip₁ src fuel
          hs.working (by omega) (by omega) (by omega)).2 _ _ _ _ hr
        obtain ⟨D, B, hD, hB, hlogs⟩ := ih hs.working (by omega) (by omega) (by omega) hr
        refine ⟨insert (filePtr (d₁.view sb).data ip₁ (off / BSIZE)) D, B₁ ∪ B, ?_, ?_,
          (hlogs₁.mono ?_).trans ((LogsWithin.put _ _ (by simp)).trans (hlogs.mono ?_))⟩
        · refine (Finset.card_insert_le _ _).trans ?_
          unfold blocksTouched at hD
          by_cases hdone : n - (tot + m) = 0
          · rw [if_pos hdone] at hD
            omega
          · have hnext : (off + m) / BSIZE = off / BSIZE + 1 := hmeq ▸ chunk_next (hmeq ▸ hdone)
            rw [if_neg hdone, hnext, show off + m + (n - (tot + m)) - 1 = off + (n - tot) -
              1 by omega] at hD
            omega
        · refine (Finset.card_union_le _ _).trans (le_trans (Nat.add_le_add hB₁ hB) ?_)
          rw [hneed]
          refine Nat.add_le_add_left ?_ _
          unfold blocksNeeded
          by_cases hdone : n - (tot + m) = 0
          · rw [if_pos hdone]
            exact Nat.zero_le _
          · have hnext : (off + m) / BSIZE = off / BSIZE + 1 := hmeq ▸ chunk_next (hmeq ▸ hdone)
            rw [if_neg hdone, hnext, show off + m + (n - (tot + m)) - 1 =
              off + (n - tot) - 1 by omega, needFrom_congr (fun bn _ => hs.slots _) rfl]
        · -- the indirect block stays where it is
          intro c hc
          simp only [Finset.mem_union, Finset.mem_insert, Finset.mem_singleton] at hc ⊢
          rcases hc with (hc | hc) | hc
          · exact .inl (.inr (.inl hc))
          · exact .inl (.inl (.inl hc))
          · split at hc
            · rename_i hge
              have hkeep := hspec.frame.slots NDIRECT (by
                rw [hs.slots, slotPtr_le _ (Nat.le_refl _)]
                exact hm.indirect_ne hge)
              rw [hs.slots, slotPtr_le _ (Nat.le_refl _), slotPtr_le _ (Nat.le_refl _)] at hkeep
              rw [hkeep]
              exact .inr (Finset.mem_singleton.mp hc)
            · cases hc
        · intro x hx
          simp only [Finset.mem_union, Finset.mem_singleton] at hx
          rcases hx with (hx | hx) | hx <;> simp [hx]
      · rw [if_neg hc] at hr
        cases hr
        refine ⟨{filePtr (d₁.view sb).data ip' (off' / BSIZE)}, B₁, ?_, ?_, ?_⟩
        · rw [Finset.card_singleton]
          omega
        · rw [hneed]
          exact hB₁.trans (Nat.le_add_right _ _)
        · refine (hlogs₁.mono fun c hc => ?_).trans (.scribble _ _ _ _)
          simp only [Finset.mem_union, Finset.mem_singleton] at hc ⊢
          rcases hc with (hc | hc) | hc
          · exact .inl (.inr hc)
          · exact .inl (.inl hc)
          · split at hc
            · exact .inr (Finset.mem_singleton.mp hc)
            · cases hc

/-! ## One chunk of `filewrite` -/

/-- Blocks that a write at a position of a file without holes touches and allocates. A write that
begins inside a block finds that block. -/
theorem NoHole.touched_add_needed {data : Nat → Block} (h : NoHole data ip) (hoff : off ≤ ip.size)
    (hn : n ≤ (MAXOPBLOCKS - 1 - 1 - 2) / 2 * BSIZE) :
    blocksTouched off n + blocksNeeded data ip off n + 2 ≤ MAXOPBLOCKS := by
  have hmax : (MAXOPBLOCKS - 1 - 1 - 2) / 2 * BSIZE = 3 * BSIZE := rfl
  have hten : MAXOPBLOCKS = 10 := rfl
  rw [hmax] at hn
  rw [hten]
  unfold blocksTouched blocksNeeded
  by_cases hzero : n = 0
  · rw [if_pos hzero, if_pos hzero]
    omega
  rw [if_neg hzero, if_neg hzero]
  have hlt : off / BSIZE < (off + n - 1) / BSIZE + 1 :=
    Nat.lt_succ_of_le (Nat.div_le_div_right (by omega))
  have hrest : ((List.range' (off / BSIZE + 1)
      ((off + n - 1) / BSIZE + 1 - (off / BSIZE + 1))).countP
      fun bn => filePtr data ip bn = 0) ≤ (off + n - 1) / BSIZE - off / BSIZE := by
    refine List.countP_le_length.trans ?_
    rw [List.length_range']
    omega
  have hind : (if NDIRECT < (off + n - 1) / BSIZE + 1 ∧ ip.addrs NDIRECT = 0 then 1 else 0) ≤
      1 := by
    split <;> omega
  rw [needFrom_succ data ip hlt]
  by_cases hmid : off % BSIZE = 0
  · have hlast : (off + n - 1) / BSIZE ≤ off / BSIZE + 2 := by
      simp only [BSIZE] at *
      omega
    have hfirst : (if filePtr data ip (off / BSIZE) = 0 then 1 else 0) ≤ 1 := by
      split <;> omega
    omega
  · have hlast : (off + n - 1) / BSIZE ≤ off / BSIZE + 3 := by
      simp only [BSIZE] at *
      omega
    have hstart : off / BSIZE * BSIZE < ip.size := by
      have := Nat.div_add_mod off BSIZE
      rw [Nat.mul_comm] at this
      omega
    rw [if_neg (h _ hstart).2]
    omega

/-- One call of `writei` with at most as many bytes as a chunk of `filewrite`, at a position up to
the end of a file without holes, passes at most `MAXOPBLOCKS` blocks to `log_write`. The blocks of
the inodes are their own. -/
theorem write_chunk_fits_reservation (sb : Superblock) (d : Disk)
    (h : Owns ((d.view sb).owner sb) sb.datastart sb.size (d.view sb).used) (i : Nat)
    (hi : (d.view sb).Allocated sb i) (hnh : NoHole (d.view sb).data ((d.view sb).inode i))
    (off n : Nat) (hoff : off ≤ ((d.view sb).inode i).size)
    (hn : n ≤ (MAXOPBLOCKS - 1 - 1 - 2) / 2 * BSIZE) (src : Nat → Option UInt8) (r : Int)
    (ip' : Dinode) (d' : Disk)
    (hw : writei sb d i ((d.view sb).inode i) src off n = .ok (r, ip', d')) :
    (loggedBlocks d d').card ≤ MAXOPBLOCKS := by
  have hwork : Working sb d i ((d.view sb).inode i) :=
    ⟨hi.1, hi.2, view_inode_fits i, by rw [withInode_eq rfl]; exact h⟩
  by_cases hrej : Rejected ((d.view sb).inode i).size off n
  · have hsize : ((d.view sb).inode i).size < 2 ^ 32 := (view_inode_fits i).size
    have hn' : n < 2 ^ 32 := Nat.lt_of_le_of_lt hn (by decide)
    rw [writei_rejected (Nat.lt_of_le_of_lt hoff hsize) hn' hrej] at hw
    cases hw
    exact (LogsWithin.refl ∅ d).card_le.trans (Nat.zero_le _)
  · rw [writei_accepted hrej] at hw
    simp only [Rejected, not_or, Nat.not_lt, Nat.not_le] at hrej
    cases hloop : writeiLoop sb src n n 0 off ((d.view sb).inode i) d with
    | error f =>
      rw [hloop] at hw
      cases hw
    | ok res =>
      obtain ⟨tot, off', ip₁, d₁⟩ := res
      obtain ⟨D, B, hD, hB, hlogs⟩ :=
        writeiLoop_logs hwork (Nat.zero_le _) (by omega) (by omega) hloop
      rw [hloop, ok_bind] at hw
      cases hw
      have hall : LogsWithin (D ∪ B ∪ {ip₁.addrs NDIRECT} ∪ {sb.IBLOCK i}) d
          (iupdate sb d₁ i (ip₁.grow off')) :=
        (hlogs.mono Finset.subset_union_left).trans
          (.put _ _ (Finset.mem_union_right _ (Finset.mem_singleton_self _)))
      calc (loggedBlocks d (iupdate sb d₁ i (ip₁.grow off'))).card
          ≤ (D ∪ B ∪ {ip₁.addrs NDIRECT} ∪ {sb.IBLOCK i}).card := hall.card_le
        _ ≤ D.card + B.card + 1 + 1 := by
            refine (Finset.card_union_le _ _).trans
              (Nat.add_le_add ?_ (Nat.le_of_eq (Finset.card_singleton _)))
            refine (Finset.card_union_le _ _).trans
              (Nat.add_le_add ?_ (Nat.le_of_eq (Finset.card_singleton _)))
            exact Finset.card_union_le _ _
        _ ≤ blocksTouched off n + blocksNeeded (d.view sb).data ((d.view sb).inode i) off n +
            2 := by
            rw [Nat.sub_zero] at hD hB
            omega
        _ ≤ MAXOPBLOCKS := hnh.touched_add_needed hoff hn

/-- Five bytes written to an empty file: a data block, its bitmap block and the inode block are
logged. -/
theorem write_chunk_fits_reservation_tiny : ∃ r ip' d',
    writei tinySb (Disk.ofImage tinyImage) 2 (((Disk.ofImage tinyImage).view tinySb).inode 2)
    (fun _ => some 7) 0 5 =
      .ok (r, ip', d') ∧ loggedBlocks (Disk.ofImage tinyImage) d' = {1, 2, 3} ∧
    (loggedBlocks (Disk.ofImage tinyImage) d').card ≤ MAXOPBLOCKS := by
  have hrun : ((writei tinySb (Disk.ofImage tinyImage) 2
      (((Disk.ofImage tinyImage).view tinySb).inode 2)
      (fun _ => some 7) 0 5).toOption.map fun w => loggedBlocks (Disk.ofImage tinyImage) w.2.2) =
          some {1, 2, 3} := by
    decide +kernel
  obtain ⟨⟨r, ip', d'⟩, hw, hlogged⟩ := Option.map_eq_some_iff.mp hrun
  have halloc : ((Disk.ofImage tinyImage).view tinySb).Allocated tinySb 2 := by
    rw [tiny_view]
    exact ⟨by decide, by simp [tinyInode, Dinode.zeroed]⟩
  have hwrite := eq_ok_of_toOption hw
  exact ⟨r, ip', d', hwrite, hlogged,
    write_chunk_fits_reservation tinySb _ tiny_allocInv.owns 2 halloc
    (tiny_allocInv.noHole 2 halloc) 0 5 (Nat.zero_le _) (by decide) _ r ip' d' hwrite⟩

end Xv6.Fs
