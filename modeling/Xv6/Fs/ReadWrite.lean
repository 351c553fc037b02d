import Xv6.Fs.Contents

/-! # `readi` and `writei`

Both loops handle one file block per iteration. `readi` finds every block it needs
in place; `writei` maps missing blocks and moves its source bytes into the file.
-/

namespace Xv6.Fs

open Lib

variable {sb : Superblock} {d d' : Disk} {i bn b p off n tot : Nat} {ip ip' : Dinode}

theorem copied_le (ok : Nat → Bool) (k m : Nat) : copied ok k m ≤ m := by
  induction m generalizing k with
  | zero => exact Nat.le_refl _
  | succ m ih =>
    have := ih (k + 1)
    unfold copied
    split <;> omega

theorem copied_all {ok : Nat → Bool} {k m : Nat} (h : ∀ j, k ≤ j → j < k + m → ok j = true) :
    copied ok k m = m := by
  induction m generalizing k with
  | zero => rfl
  | succ m ih =>
    rw [copied, if_pos (h k (Nat.le_refl _) (by omega)),
      ih fun j hj hjm => h j (by omega) (by omega)]

theorem fileByte_of_ptr {data : Nat → Block} (h : filePtr data ip (p / BSIZE) = b) (hb : b ≠ 0) :
    fileByte data ip p = (data b).get (p % BSIZE) := by
  rw [fileByte, h, if_neg hb]

theorem div_mod_chunk {k : Nat} (h : off % BSIZE + k < BSIZE) :
    (off + k) / BSIZE = off / BSIZE ∧ (off + k) % BSIZE = off % BSIZE + k := by
  simp only [BSIZE] at h ⊢
  omega

/-! ## `readi` -/

theorem Working.bmap_mapped (h : Working sb d i ip) (hbn : bn < MAXFILE)
    (hne : filePtr (d.view sb).data ip bn ≠ 0) :
    Fs.bmap sb d ip bn = .ok (filePtr (d.view sb).data ip bn, ip, d) := by
  obtain ⟨⟨b, ip', d'⟩, hr⟩ := h.bmap_total hbn (by simp [bmapNeed, hne])
  have hm := h.bmap hr
  obtain ⟨rfl, rfl⟩ := hm.same hne
  rw [hr, hm.ptr]

theorem Working.cached_file (h : Working sb d i ip) (hne : filePtr (d.view sb).data ip bn ≠ 0) :
    d.cached (filePtr (d.view sb).data ip bn) =
      (d.view sb).data (filePtr (d.view sb).data ip bn) :=
  (view_data (h.region hne).1).symm

theorem slice_eq_fileByte (h : Working sb d i ip) {c : Nat}
    (hne : filePtr (d.view sb).data ip (off / BSIZE) ≠ 0) (hc : off % BSIZE + c ≤ BSIZE) :
    slice (d.cached (filePtr (d.view sb).data ip (off / BSIZE))) (off % BSIZE) c =
      (List.range c).map fun k => fileByte (d.view sb).data ip (off + k) := by
  apply List.map_congr_left
  intro k hk
  obtain ⟨hdiv, hmod⟩ := @div_mod_chunk off k (by have := List.mem_range.mp hk; omega)
  rw [h.cached_file hne, fileByte_of_ptr (by rw [hdiv]) hne, hmod]

theorem chunk_pos (h : tot < n) : 0 < min (n - tot) (BSIZE - off % BSIZE) := by
  have : off % BSIZE < BSIZE := Nat.mod_lt _ (by decide)
  omega

theorem chunk_fits (off n tot : Nat) :
    off % BSIZE + min (n - tot) (BSIZE - off % BSIZE) ≤ BSIZE := by
  have : off % BSIZE < BSIZE := Nat.mod_lt _ (by decide)
  omega

theorem chunk_next (h : n - (tot + min (n - tot) (BSIZE - off % BSIZE)) ≠ 0) :
    (off + min (n - tot) (BSIZE - off % BSIZE)) / BSIZE = off / BSIZE + 1 := by
  have hmod := Nat.div_add_mod off BSIZE
  have hlt : off % BSIZE < BSIZE := Nat.mod_lt _ (by decide)
  have hoff : off + min (n - tot) (BSIZE - off % BSIZE) = BSIZE * (off / BSIZE + 1) := by
    rw [Nat.mul_add]
    omega
  rw [hoff, Nat.mul_div_cancel_left _ (by decide)]

theorem NoHole.ptr_ne_zero {data : Nat → Block} (h : NoHole data ip) (hp : p < ip.size) :
    p / BSIZE < MAXFILE ∧ filePtr data ip (p / BSIZE) ≠ 0 := by
  apply h
  have := Nat.div_mul_le_self p BSIZE
  omega

/-- Inside the file, the loop of `readi` never allocates and, when the destination
can be written, delivers the file's bytes. -/
theorem readiLoop_spec {dst : Nat → Bool} {fuel : Nat} {acc : List UInt8}
    (h : Working sb d i ip) (hnh : NoHole (d.view sb).data ip) (htot : tot ≤ n)
    (hend : off + (n - tot) ≤ ip.size) (hfuel : n - tot ≤ fuel) :
    ∃ r bytes, readiLoop sb dst n fuel tot off ip d acc = .ok (r, bytes, ip, d) ∧
      ((∀ k, k < n → dst k = true) → r = n ∧ bytes = acc ++
        (List.range (n - tot)).map fun k => fileByte (d.view sb).data ip (off + k)) := by
  induction fuel generalizing tot off acc with
  | zero =>
    have : tot = n := by omega
    subst this
    exact ⟨tot, acc, rfl, fun _ => ⟨rfl, by simp⟩⟩
  | succ fuel ih =>
    unfold readiLoop
    by_cases hlt : tot < n
    · obtain ⟨hbn, hne⟩ := hnh.ptr_ne_zero (p := off) (by omega)
      have hm0 := @chunk_pos off n tot hlt
      have hslice := @slice_eq_fileByte sb d i off ip h
        (copied dst tot (min (n - tot) (BSIZE - off % BSIZE))) hne (by
          have := copied_le dst tot (min (n - tot) (BSIZE - off % BSIZE))
          have := chunk_fits off n tot
          omega)
      rw [if_pos hlt, h.bmap_mapped hbn hne]
      simp only [bind, Except.bind]
      rw [hslice]
      set m := min (n - tot) (BSIZE - off % BSIZE)
      by_cases hc : copied dst tot m = m
      · rw [if_pos hc, hc]
        obtain ⟨r, bytes, hr, hall⟩ := @ih (off + m) (tot + m)
          (acc ++ (List.range m).map fun k => fileByte (d.view sb).data ip (off + k))
          (by omega) (by omega) (by omega)
        refine ⟨r, bytes, hr, fun hdst => ?_⟩
        obtain ⟨hrn, hbytes⟩ := hall hdst
        refine ⟨hrn, ?_⟩
        have hsplit : n - tot = m + (n - (tot + m)) := by omega
        rw [hbytes, hsplit, List.range_add, List.map_append, List.append_assoc, List.map_map]
        congr 2
        apply List.map_congr_left
        intro k _
        simp only [Function.comp, Nat.add_assoc]
      · rw [if_neg hc]
        exact ⟨_, _, rfl, fun hdst => absurd (copied_all fun j _ _ => hdst j (by omega)) hc⟩
    · rw [if_neg hlt]
      have : tot = n := by omega
      subst this
      exact ⟨tot, acc, rfl, fun _ => ⟨rfl, by simp⟩⟩

/-! ## `writei` -/

theorem Stored.chunk {src : Nat → UInt8} {c : Nat} (h : Working sb d i ip)
    (hne : filePtr (d.view sb).data ip (off / BSIZE) ≠ 0) (hc : off % BSIZE + c ≤ BSIZE)
    (hs : Stored sb i (off / BSIZE) ip
      ((d.cached (filePtr (d.view sb).data ip (off / BSIZE))).blit (off % BSIZE) c src) d d')
    (p : Nat) :
    Fs.fileByte (d'.view sb).data ip p =
      if off ≤ p ∧ p < off + c then src (p - off) else Fs.fileByte (d.view sb).data ip p := by
  rw [hs.fileByte, h.cached_file hne]
  have hoff := Nat.div_add_mod off BSIZE
  have hp := Nat.div_add_mod p BSIZE
  have hpm : p % BSIZE < BSIZE := Nat.mod_lt _ (by decide)
  by_cases hdiv : p / BSIZE = off / BSIZE
  · rw [if_pos hdiv, Bytes.get_blit]
    rw [hdiv] at hp
    by_cases hin : off ≤ p ∧ p < off + c
    · rw [if_pos hin, if_pos ⟨hpm, by omega, by omega⟩]
      congr 1
      omega
    · rw [if_neg hin, if_neg (by omega), fileByte_of_ptr (by rw [hdiv]) hne]
  · rw [if_neg hdiv, if_neg]
    rintro ⟨hle, hlt⟩
    apply hdiv
    have := (@div_mod_chunk off (p - off) (by omega)).1
    rwa [Nat.add_sub_cancel' hle] at this

/-- What the loop of `writei` has done when it stops after `tot'` of `n` bytes. -/
structure Written (sb : Superblock) (i : Nat) (src : Nat → Option UInt8)
    (n tot off : Nat) (d : Disk) (ip : Dinode) (tot' off' : Nat) (d' : Disk) (ip' : Dinode) :
    Prop where
  working : Working sb d' i ip'
  frame : Frame sb d ip d' ip'
  tot_le : tot ≤ tot'
  le_n : tot' ≤ n
  off_eq : off' = off + (tot' - tot)
  mapped : ∀ p, off ≤ p → p < off' → filePtr (d'.view sb).data ip' (p / BSIZE) ≠ 0
  before : ∀ p, p < off → fileByte (d'.view sb).data ip' p = fileByte (d.view sb).data ip p
  bytes : ∀ p, off ≤ p → p < off' →
    fileByte (d'.view sb).data ip' p = (src (tot + (p - off))).getD 0
  after : tot' = n → ∀ p, off' ≤ p →
    fileByte (d'.view sb).data ip' p = fileByte (d.view sb).data ip p
  done : (∀ k, k < n → (src k).isSome) → tot' = n
  clean : CleanWith sb d i ip → CleanWith sb d' i ip'

theorem Working.written_self {src : Nat → Option UInt8} (h : Working sb d i ip) (off : Nat) :
    Written sb i src n n off d ip n off d ip :=
  ⟨h, .refl .., Nat.le_refl _, Nat.le_refl _, by omega, fun p h1 h2 => by omega, fun _ _ => rfl,
    fun p h1 h2 => by omega, fun _ _ _ => rfl, fun _ => rfl, id⟩

theorem writeiLoop_spec {src : Nat → Option UInt8} {fuel : Nat} (h : Working sb d i ip)
    (htot : tot ≤ n) (hend : off + (n - tot) ≤ MAXFILE * BSIZE) (hfuel : n - tot ≤ fuel) :
    (∀ f, writeiLoop sb src n fuel tot off ip d = .error f → f = .ballocOutOfBlocks) ∧
    ∀ tot' off' ip' d', writeiLoop sb src n fuel tot off ip d = .ok (tot', off', ip', d') →
      Written sb i src n tot off d ip tot' off' d' ip' := by
  induction fuel generalizing tot off ip d with
  | zero =>
    have : tot = n := by omega
    subst this
    refine ⟨fun f hf => absurd hf (by simp [writeiLoop, pure, Except.pure]), ?_⟩
    intro tot' off' ip' d' hr
    cases hr
    exact h.written_self off
  | succ fuel ih =>
    unfold writeiLoop
    by_cases hlt : tot < n
    · rw [if_pos hlt]
      have hbn : off / BSIZE < MAXFILE := Nat.div_lt_of_lt_mul (by rw [Nat.mul_comm]; omega)
      cases hb : bmap sb d ip (off / BSIZE) with
      | error f =>
        constructor
        · intro f' hf
          cases hf
          exact bmap_error hbn hb
        · intro _ _ _ _ hr
          cases hr
      | ok r =>
        obtain ⟨addr, ip₁, d₁⟩ := r
        have hm := h.bmap hb
        have hbyte := hm.fileByte h
        obtain rfl := hm.ptr
        have hm0 := @chunk_pos off n tot hlt
        have hfit := chunk_fits off n tot
        simp only [bind, Except.bind]
        set m := min (n - tot) (BSIZE - off % BSIZE)
        set c := copied (fun k => (src k).isSome) tot m
        have hcm : c ≤ m := copied_le _ _ _
        by_cases hc : c = m
        · rw [if_pos hc]
          have hs := @Working.stored_put sb d₁ i (off / BSIZE) ip₁
            ((d₁.cached (filePtr (d₁.view sb).data ip₁ (off / BSIZE))).blit (off % BSIZE) c
              fun k => (src (tot + k)).getD 0) hm.working hm.ne_zero
          have hchunk := hs.chunk hm.working hm.ne_zero (by omega)
          obtain ⟨hErr, hOk⟩ := @ih _ (off + m) (tot + m) ip₁ hs.working (by omega) (by omega)
            (by omega)
          refine ⟨hErr, fun tot' off' ip' d' hr => ?_⟩
          have hw := hOk tot' off' ip' d' hr
          have h1 := hw.tot_le
          have h2 := hw.le_n
          have h3 := hw.off_eq
          refine ⟨hw.working, hm.frame.trans (hs.frame.trans hw.frame), by omega, h2, by omega,
            ?_, ?_, ?_, ?_, hw.done, fun hcl => hw.clean (hs.clean (hm.clean hcl))⟩
          · intro p hp hp'
            by_cases hpm : off + m ≤ p
            · exact hw.mapped p hpm hp'
            · -- the block of this chunk stays mapped
              have hdiv := (@div_mod_chunk off (p - off) (by omega)).1
              rw [Nat.add_sub_cancel' hp] at hdiv
              rw [hdiv, filePtr, hw.frame.slots, hs.slots]
              · exact hm.ne_zero
              · rw [hs.slots]
                exact hm.ne_zero
          · intro p hp
            rw [hw.before p (by omega), hchunk, if_neg (by omega), hbyte]
          · intro p hp hp'
            by_cases hpm : off + m ≤ p
            · rw [hw.bytes p hpm hp']
              congr 2
              omega
            · rw [hw.before p (by omega), hchunk, if_pos (by omega)]
          · intro hn p hp
            rw [hw.after hn p hp, hchunk, if_neg (by omega), hbyte]
        · rw [if_neg hc]
          refine ⟨fun f hf => absurd hf (by simp [pure, Except.pure]), ?_⟩
          intro tot' off' ip' d' hr
          cases hr
          have hs := @Working.stored_scribble sb d₁ i (off / BSIZE) ip₁
            ((d₁.cached (filePtr (d₁.view sb).data ip₁ (off / BSIZE))).blit (off % BSIZE) c
              fun k => (src (tot + k)).getD 0) hm.working hm.ne_zero
          have hchunk := hs.chunk hm.working hm.ne_zero (by omega)
          refine ⟨hs.working, hm.frame.trans hs.frame, Nat.le_refl _, hlt.le, by omega,
            fun p h1 h2 => by omega, ?_, fun p h1 h2 => by omega, fun hn => by omega, ?_,
            fun hcl => hs.clean (hm.clean hcl)⟩
          · intro p hp
            rw [hchunk, if_neg (by omega), hbyte]
          · intro hall
            exact absurd (copied_all fun j _ _ => hall j (by omega)) hc
    · rw [if_neg hlt]
      have : tot = n := by omega
      subst this
      refine ⟨fun f hf => absurd hf (by simp [pure, Except.pure]), ?_⟩
      intro tot' off' ip' d' hr
      cases hr
      exact h.written_self off

end Xv6.Fs
