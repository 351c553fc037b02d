import Xv6.Fs.Delivery
import Xv6.Fs.Machine

/-! # Writes that stop early

`writei` counts whole chunks. A chunk whose source cannot be read to its end is not counted, but the
part of it that could be read is in the buffer of the block, where `readi` finds it until the buffer
is recycled.
-/

namespace Xv6.Fs

open Function Lib

/-- How many of `n` source bytes can be read before the first that cannot. -/
def readable (src : Nat → Option UInt8) (n : Nat) : Nat := copied (fun k => (src k).isSome) 0 n

/-- Where the chunk with position `p` of a write at `off` begins. -/
def chunkStart (off p : Nat) : Nat := max off (p / BSIZE * BSIZE)

def counted (src : Nat → Option UInt8) (off n : Nat) : Nat :=
  if readable src n = n then n else chunkStart off (off + readable src n) - off

def CountedIn (off r bn : Nat) : Prop := off / BSIZE ≤ bn ∧ bn * BSIZE < off + r ∧ 0 < r

instance (off r bn : Nat) : Decidable (CountedIn off r bn) := inferInstanceAs (Decidable (_ ∧ _))

/-- The byte at position `p` of a file as it was last logged. -/
def loggedByte (sb : Superblock) (d : Disk) (ip : Dinode) (p : Nat) : UInt8 :=
  (d.logged (filePtr (d.view sb).data ip (p / BSIZE))).get (p % BSIZE)

variable {sb : Superblock} {d d' : Disk} {i off n tot tot' off' : Nat} {ip ip' : Dinode}
    {src : Nat → Option UInt8}

/-! ## The loop -/

theorem Working.balloc_logged {b c : Nat} (h : Working sb d i ip)
    (hb : Fs.balloc sb d = .ok (b, d')) (hc : sb.datastart ≤ c)
    (hused : (d.view sb).used c = true) : d'.logged c = d.logged c := by
  obtain ⟨-, hhi, hfree, rfl, -⟩ := h.balloc hb
  have hbit := @Superblock.BBLOCK_lt sb b hhi
  have hne : c ≠ b := by
    rintro rfl
    rw [hused] at hfree
    cases hfree
  change update (update d.logged (sb.BBLOCK b) _) b _ c = d.logged c
  rw [update_of_ne hne, update_of_ne (by omega)]

theorem Working.bmap_logged {bn b c : Nat} (h : Working sb d i ip)
    (hr : Fs.bmap sb d ip bn = .ok (b, ip', d')) (hc : sb.datastart ≤ c)
    (hused : (d.view sb).used c = true) (hind : c ≠ ip.addrs NDIRECT) :
    d'.logged c = d.logged c := by
  have haddr : ∀ {k b ip' d'}, Fs.addrOf sb d ip k = .ok (b, ip', d') →
      d'.logged c = d.logged c := by
    intro k b ip' d' hr
    unfold Fs.addrOf at hr
    split at hr
    · obtain ⟨r, hb, hr⟩ := bind_eq_ok hr
      cases hr
      exact h.balloc_logged hb hc hused
    · cases hr
      rfl
  unfold Fs.bmap at hr
  split at hr
  · exact haddr hr
  · split at hr
    · obtain ⟨⟨addr, ip₁, d₁⟩, ha, hr⟩ := bind_eq_ok hr
      obtain ⟨r, he, hr⟩ := bind_eq_ok hr
      cases hr
      have hf := h.addrOf (Nat.le_refl _) ha
      have hne : c ≠ addr := by
        rintro rfl
        by_cases h0 : slotPtr (d.view sb).data ip NDIRECT = 0
        · rw [(hf.fresh h0).1] at hused
          cases hused
        · obtain ⟨rfl, rfl⟩ := hf.same h0
          exact hind (by rw [← hf.slot, slotPtr_le _ (Nat.le_refl _)])
      rw [← haddr ha]
      unfold Fs.entryOf at he
      split at he
      · obtain ⟨x, hb, he⟩ := bind_eq_ok he
        cases he
        exact (update_of_ne hne _ _).trans
          (hf.working.balloc_logged hb hc (hf.ext.used c hused))
      · cases he
        rfl
    · cases hr

/-- What the loop of `writei` logs: the blocks of counted chunks as they are in their buffers. Of
the other blocks of the file is logged what was before. -/
structure LoopLogged (sb : Superblock) (n tot off : Nat) (d : Disk) (ip : Dinode)
    (off' : Nat) (d' : Disk) (ip' : Dinode) : Prop where
  le : off ≤ off'
  stop : n ≤ tot → off' = off
  clean : ∀ bn, CountedIn off (off' - off) bn →
    d'.cached (filePtr (d'.view sb).data ip' bn) = d'.logged (filePtr (d'.view sb).data ip' bn)
  ptr : ∀ bn, filePtr (d.view sb).data ip bn ≠ 0 →
    filePtr (d'.view sb).data ip' bn = filePtr (d.view sb).data ip bn
  kept : ∀ bn, filePtr (d.view sb).data ip bn ≠ 0 → ¬ CountedIn off (off' - off) bn →
    d'.logged (filePtr (d.view sb).data ip bn) = d.logged (filePtr (d.view sb).data ip bn)
  before : ∀ bn, filePtr (d.view sb).data ip bn ≠ 0 → bn < off / BSIZE ∨ n ≤ tot →
    d'.cached (filePtr (d.view sb).data ip bn) = d.cached (filePtr (d.view sb).data ip bn)

theorem LoopLogged.refl (sb : Superblock) (n tot off : Nat) (d : Disk) (ip : Dinode) :
    LoopLogged sb n tot off d ip off d ip := by
  refine ⟨Nat.le_refl _, fun _ => rfl, fun bn hbn => ?_, fun _ _ => rfl, fun _ _ _ => rfl,
    fun _ _ _ => rfl⟩
  have := hbn.2.2
  omega

theorem Mapped.kept {bn c addr : Nat} {d₁ : Disk} {ip₁ : Dinode} (h : Working sb d i ip)
    (hb : bmap sb d ip bn = .ok (addr, ip₁, d₁)) (hc : filePtr (d.view sb).data ip c ≠ 0) :
    filePtr (d₁.view sb).data ip₁ c = filePtr (d.view sb).data ip c ∧
      d₁.logged (filePtr (d.view sb).data ip c) = d.logged (filePtr (d.view sb).data ip c) ∧
      d₁.cached (filePtr (d.view sb).data ip c) = d.cached (filePtr (d.view sb).data ip c) := by
  have hm := h.bmap hb
  obtain ⟨hlo, hhi⟩ := h.region hc
  have hused := h.used hc
  have hind : filePtr (d.view sb).data ip c ≠ ip.addrs NDIRECT := by
    intro heq
    rw [← slotPtr_le (d.view sb).data (Nat.le_refl NDIRECT)] at heq
    exact fileSlot_ne_NDIRECT c (h.slot_inj hc heq)
  refine ⟨hm.ext.slots _ hc, h.bmap_logged hb hlo hused hind, ?_⟩
  have hdata := hm.ext.data _ hused hind
  rwa [view_data hlo, view_data hlo] at hdata

theorem contents_length (v : View) (i : Nat) : (v.contents i).length = (v.inode i).size := by
  unfold View.contents
  rw [List.length_map, List.length_range]

theorem size_le_maxfile (h : AllocInv sb (d.view sb)) (hi : (d.view sb).Allocated sb i) :
    ((d.view sb).inode i).size ≤ MAXFILE * BSIZE := by
  by_contra hbig
  exact Nat.lt_irrefl _ (h.noHole i hi MAXFILE (Nat.lt_of_not_le hbig)).1

/-- A file in which the first `r` bytes of a source replace those from `off` on. -/
theorem getElem?_writeRange {old bytes : List UInt8} (hoff : off ≤ old.length) (p : Nat) :
    (writeRange old off bytes)[p]? = if off ≤ p ∧ p < off + bytes.length then bytes[p - off]?
    else old[p]? := by
  unfold writeRange
  rw [List.append_assoc]
  by_cases hp : p < off
  · rw [if_neg (by omega), List.getElem?_append_left (by rw [List.length_take]; omega),
      List.getElem?_take_of_lt hp]
  · rw [List.getElem?_append_right (by rw [List.length_take]; omega), List.length_take,
      Nat.min_eq_left hoff]
    by_cases hin : p < off + bytes.length
    · rw [if_pos ⟨Nat.le_of_not_lt hp, hin⟩, List.getElem?_append_left (by omega)]
    · rw [if_neg (by omega), List.getElem?_append_right (by omega), List.getElem?_drop]
      congr 1
      omega

theorem writeRange_length {c bytes : List UInt8} (hoff : off ≤ c.length) :
    (writeRange c off bytes).length = max c.length (off + bytes.length) := by
  unfold writeRange
  simp only [List.length_append, List.length_take, List.length_drop]
  omega

/-- The bytes of a file after a call of `writei` that returns `r`. -/
structure ShortWrite (sb : Superblock) (i : Nat) (src : Nat → Option UInt8) (off n : Nat) (d : Disk)
    (r : Nat) (d' : Disk) : Prop where
  result : WriteResult sb i src off n d r d'
  off_le : off ≤ ((d.view sb).inode i).size
  le : r ≤ readable src n
  stop : off + r = if readable src n = n then off + n else chunkStart off (off + readable src n)
  size : ((d'.view sb).inode i).size = max ((d.view sb).inode i).size (off + r)
  byte : ∀ p, fileByte (d'.view sb).data ((d'.view sb).inode i) p =
    if off ≤ p ∧ p < off + readable src n then (src (p - off)).getD 0
    else fileByte (d.view sb).data ((d.view sb).inode i) p
  uncounted : ∀ p, p < ((d.view sb).inode i).size → ¬ CountedIn off r (p / BSIZE) →
    loggedByte sb d' ((d'.view sb).inode i) p = loggedByte sb d ((d.view sb).inode i) p
  countedIn : ∀ p, p < ((d'.view sb).inode i).size → CountedIn off r (p / BSIZE) →
    loggedByte sb d' ((d'.view sb).inode i) p = fileByte (d'.view sb).data ((d'.view sb).inode i) p

theorem ShortWrite.counted {r : Nat} (h : ShortWrite sb i src off n d r d') :
    r = counted src off n := by
  have hstop := h.stop
  unfold Fs.counted
  split at hstop
  · rename_i heq
    rw [if_pos heq]
    omega
  · rename_i hne
    rw [if_neg hne]
    omega

namespace ShortWrite

variable {r : Nat} (h : ShortWrite sb i src off n d r d')

include h

end ShortWrite

/-- The file system of `tinyImage` in which inode 2 has the contents 1, 2, 3. -/
def threeBytes : Option Disk :=
  (writei tinySb (Disk.ofImage tinyImage) 2 (((Disk.ofImage tinyImage).view tinySb).inode 2)
    (fun k => some (.ofNat (k + 1))) 0 3).toOption.map fun r => r.2.2

theorem threeBytes_inv {d : Disk} (hd : threeBytes = some d) :
    FsInv tinySb d ∧ (d.view tinySb).Allocated tinySb 2 := by
  obtain ⟨⟨r, ip, d'⟩, hw, rfl⟩ := Option.map_eq_some_iff.mp hd
  have halloc : ((Disk.ofImage tinyImage).view tinySb).Allocated tinySb 2 := by
    rw [tiny_view]
    exact ⟨by decide, by simp [tinyInode, Dinode.zeroed]⟩
  have hres := (tiny_allocInv.writei halloc (by decide) (by decide)).2 _ _ _ (eq_ok_of_toOption hw)
  exact ⟨⟨hres.alloc, hres.clean fun _ _ => rfl⟩, halloc.1, by rw [hres.type]; exact halloc.2⟩

end Xv6.Fs
