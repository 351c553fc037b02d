import Xv6.Fs.ReadWrite
import Xv6.Lib.Post

/-! # What `readi` delivers to a partly writable destination

`readi` copies out the bytes of the file up to the first destination address that cannot be written.
What it has copied by then does not depend on the addresses behind that one.
-/

namespace Xv6.Fs

open Lib

section

variable {ok : Nat → Bool} {k a b : Nat}

theorem copied_add (ok : Nat → Bool) (k a b : Nat) :
    copied ok k (a + b) = if copied ok k a = a then a + copied ok (k + a) b else copied ok k a := by
  induction a generalizing k with
  | zero => rw [Nat.zero_add, copied, if_pos rfl, Nat.zero_add, Nat.add_zero]
  | succ a ih =>
    rw [Nat.succ_add, copied, copied]
    by_cases hok : ok k = true
    · rw [if_pos hok, if_pos hok, ih, show k + 1 + a = k + (a + 1) by omega]
      by_cases hall : copied ok (k + 1) a = a
      · rw [if_pos hall, if_pos (by rw [hall])]
        omega
      · rw [if_neg hall, if_neg (by omega)]
    · rw [if_neg hok, if_neg hok, if_neg (by omega)]

theorem copied_shift (ok : Nat → Bool) (k m : Nat) :
    copied ok (k + 1) m = copied (fun j => ok (j + 1)) k m := by
  induction m generalizing k with
  | zero => rfl
  | succ m ih => rw [copied, copied, ih]

theorem copied_lt (k i m : Nat) : copied (fun x => decide (x < k + i)) k m = min i m := by
  induction m generalizing k i with
  | zero => rw [copied, Nat.min_zero]
  | succ m ih =>
    rw [copied]
    cases i with
    | zero => rw [if_neg (by simp), Nat.zero_min]
    | succ i =>
      have hshift : (fun x => decide (x < k + (i + 1))) = fun x => decide (x < k + 1 + i) := by
        funext x
        rw [show k + (i + 1) = k + 1 + i by omega]
      rw [if_pos (by simp), hshift, ih, Nat.succ_min_succ]

theorem slice_take (blk : Block) (o : Nat) {i m : Nat} (h : i ≤ m) :
    (slice blk o m).take i = slice blk o i := by
  unfold slice
  rw [← List.map_take, List.take_range, Nat.min_eq_left h]

theorem slice_length (blk : Block) (o m : Nat) : (slice blk o m).length = m := by
  unfold slice
  rw [List.length_map, List.length_range]

end

variable {sb : Superblock} {dst : Nat → Bool} {n tot off : Nat} {ip ip' : Dinode}
    {d d' : Disk} {r : Int}
  {acc bs : List UInt8}

theorem readiLoop_delivers {fuel : Nat} (htot : tot ≤ n) (hfuel : n - tot ≤ fuel)
    (h : readiLoop sb dst n fuel tot off ip d acc = .ok (r, bs, ip', d')) :
    ∃ new, bs = acc ++ new ∧ new.length = copied dst tot (n - tot) ∧
      r = (if new.length = n - tot then (n : Int) else -1) ∧
      ∀ i, i ≤ new.length → ∃ r₁ ip₁ d₁, readiLoop sb (fun x => decide (x < tot + i)) n fuel tot
      off ip d acc =
        .ok (r₁, acc ++ new.take i, ip₁, d₁) := by
  induction fuel generalizing tot off ip d acc with
  | zero =>
    obtain rfl : tot = n := by omega
    cases h
    refine ⟨[], (List.append_nil _).symm, by rw [Nat.sub_self]; rfl,
      by rw [Nat.sub_self]; rfl, fun i hi => ?_⟩
    exact ⟨tot, _, _, by rw [List.take_nil, List.append_nil]; rfl⟩
  | succ fuel ih =>
    unfold readiLoop at h ⊢
    by_cases hlt : tot < n
    · rw [if_pos hlt] at h
      simp only [if_pos hlt]
      cases hbmap : bmap sb d ip (off / BSIZE) with
      | error e =>
        rw [hbmap] at h
        cases h
      | ok b =>
        obtain ⟨addr, ip₀, d₀⟩ := b
        rw [hbmap, ok_bind] at h
        simp only [ok_bind]
        dsimp only at h
        have hpos := @chunk_pos off n tot hlt
        generalize hm : min (n - tot) (BSIZE - off % BSIZE) = m at h hpos ⊢
        have hsplit : n - tot = m + (n - (tot + m)) := by omega
        by_cases hc : copied dst tot m = m
        · -- the whole chunk is copied and the loop goes on
          rw [if_pos hc, hc] at h
          obtain ⟨new, rfl, hlen, hr, hprefix⟩ := ih (by omega) (by omega) h
          refine ⟨slice (d₀.cached addr) (off % BSIZE) m ++
            new, by rw [List.append_assoc], ?_, ?_, fun i hi => ?_⟩
          · rw [List.length_append, slice_length, hsplit, copied_add, if_pos hc, hlen]
          · rw [List.length_append, slice_length, hr, hsplit]
            exact if_congr (by omega) rfl rfl
          · rw [List.length_append, slice_length] at hi
            rw [copied_lt]
            by_cases him : i < m
            · rw [Nat.min_eq_left (Nat.le_of_lt him), if_neg (Nat.ne_of_lt him),
                List.take_append_of_le_length
                (by rw [slice_length]; exact Nat.le_of_lt him), slice_take _ _ (Nat.le_of_lt him)]
              exact ⟨_, _, _, rfl⟩
            · obtain ⟨j, rfl⟩ := Nat.exists_eq_add_of_le (Nat.le_of_not_lt him)
              obtain ⟨r₁, ip₁, d₁, hnext⟩ := hprefix j (by omega)
              have htake : (slice (d₀.cached addr) (off % BSIZE) m ++ new).take (m + j) =
                  slice (d₀.cached addr) (off % BSIZE) m ++ new.take j := by
                have := @List.take_length_add_append _ (slice (d₀.cached addr) (off % BSIZE) m) new
                  j
                rw [slice_length] at this
                exact this
              rw [Nat.min_eq_right (Nat.le_add_right _ _), if_pos rfl, ← Nat.add_assoc, hnext,
                htake, List.append_assoc]
              exact ⟨_, _, _, rfl⟩
        · have hlt' : copied dst tot m < m := Nat.lt_of_le_of_ne (copied_le _ _ _) hc
          rw [if_neg hc] at h
          cases h
          refine ⟨_, rfl, ?_, ?_, fun i hi => ?_⟩
          · rw [slice_length, hsplit, copied_add, if_neg hc]
          · rw [slice_length, if_neg (by omega)]
          · rw [slice_length] at hi
            rw [copied_lt, Nat.min_eq_left (by omega), if_neg (by omega), slice_take _ _ hi]
            exact ⟨_, _, _, rfl⟩
    · obtain rfl : tot = n := by omega
      rw [if_neg hlt] at h
      simp only [if_neg hlt]
      cases h
      refine ⟨[], (List.append_nil _).symm, by rw [Nat.sub_self]; rfl,
        by rw [Nat.sub_self]; rfl, fun i hi => ?_⟩
      exact ⟨tot, _, _, by rw [List.take_nil, List.append_nil]; rfl⟩

/-- How many bytes a call of `readi` has to deliver. -/
def readLen (ip : Dinode) (off n : Nat) : Nat :=
  if off > ip.size ∨ (off + n) % 2 ^ 32 < off then 0
  else if (off + n) % 2 ^ 32 > ip.size then ip.size - off
  else n

/-- The byte at position `j` of what `readi` delivers. -/
def readByte (sb : Superblock) (d : Disk) (ip : Dinode) (off n j : Nat) : Option UInt8 :=
  (readi sb d ip (fun x => decide (x < j + 1)) off n).toOption.bind fun r => r.2.1[j]?

/-- `readi` delivers as many bytes as the destination takes, and returns -1 if that is not all of
them. -/
theorem readi_delivers (h : readi sb d ip dst off n = .ok (r, bs, ip', d')) :
    bs.length = copied dst 0 (readLen ip off n) ∧
      r = (if bs.length = readLen ip off n then (readLen ip off n : Int) else -1) ∧
      ∀ j, j < bs.length → bs[j]? = readByte sb d ip off n j := by
  unfold readByte
  unfold readi at h ⊢
  unfold readLen
  by_cases hcond : off > ip.size ∨ (off + n) % 2 ^ 32 < off
  · rw [if_pos hcond] at h
    rw [if_pos hcond]
    cases h
    exact ⟨rfl, rfl, fun j hj => absurd hj (Nat.not_lt_zero _)⟩
  · rw [if_neg hcond] at h
    rw [if_neg hcond]
    dsimp only at h
    generalize hlen : (if (off + n) % 2 ^ 32 > ip.size then ip.size - off else n) = len at h ⊢
    obtain ⟨new, rfl, hcount, hr, hprefix⟩ :=
      readiLoop_delivers (Nat.zero_le len) (Nat.sub_le _ _) h
    rw [Nat.sub_zero] at hcount hr
    refine ⟨hcount, hr, fun j hj => ?_⟩
    obtain ⟨r₁, ip₁, d₁, hbyte⟩ := hprefix (j + 1) hj
    rw [Nat.zero_add] at hbyte
    simp only [if_neg hcond]
    rw [hbyte]
    exact (List.getElem?_take_of_lt (Nat.lt_succ_self j)).symm

end Xv6.Fs
