import Xv6.Param

/-! # The on-disk log header

The header block holds an `int` count followed by that many block numbers.
`write_head` stores the in-memory header over whatever the header buffer held
before; entries past the count stay stale and `read_head` never looks at them.
-/

namespace Xv6.Log

open Lib

def putBlocks (hb : Block) (i : Nat) : List Nat → Block
  | [] => hb
  | b :: bs => putBlocks (hb.putLE (4 + 4 * i) 4 b) (i + 1) bs

def getBlocks (hb : Block) (i : Nat) : Nat → List Nat
  | 0 => []
  | n + 1 => hb.getLE (4 + 4 * i) 4 :: getBlocks hb (i + 1) n

def encodeHead (lh : List Nat) (hb : Block) : Block :=
  putBlocks (hb.putLE 0 4 lh.length) 0 lh

def decodeHead (hb : Block) : List Nat := getBlocks hb 0 (hb.getLE 0 4)

theorem putBlocks_getLE_of_le {hb : Block} {i off w : Nat} {bs : List Nat}
    (h : off + w ≤ 4 + 4 * i) : (putBlocks hb i bs).getLE off w = hb.getLE off w := by
  induction bs generalizing hb i with
  | nil => rfl
  | cons b bs ih =>
    rw [putBlocks, ih (by omega), Bytes.getLE_putLE_of_disjoint (Or.inl h)]

theorem getBlocks_putBlocks {hb : Block} {i : Nat} {bs : List Nat}
    (hfit : 4 + 4 * (i + bs.length) ≤ BSIZE) (hb32 : ∀ b ∈ bs, b < 2 ^ 32) :
    getBlocks (putBlocks hb i bs) i bs.length = bs := by
  induction bs generalizing hb i with
  | nil => rfl
  | cons b bs ih =>
    simp only [List.length_cons] at hfit
    have hfirst : (putBlocks (hb.putLE (4 + 4 * i) 4 b) (i + 1) bs).getLE (4 + 4 * i) 4 = b := by
      rw [putBlocks_getLE_of_le (by omega)]
      exact Bytes.getLE_putLE_of_lt (by omega) (hb32 b (by simp))
    have hrest := @ih (hb.putLE (4 + 4 * i) 4 b) (i + 1) (by omega)
      (fun c hc => hb32 c (List.mem_cons_of_mem _ hc))
    simp only [putBlocks, List.length_cons, getBlocks, hfirst, hrest]

/-- `sizeof(struct logheader)` is below `BSIZE`: `initlog` never panics. -/
theorem logheader_fits : 4 + 4 * LOGSIZE < BSIZE := by decide

/-- A header that fits `struct logheader` is read back as it was written,
whatever the header buffer held before. -/
theorem decodeHead_encodeHead {lh : List Nat} (hb : Block) (hlen : lh.length ≤ LOGSIZE)
    (hb32 : ∀ b ∈ lh, b < 2 ^ 32) : decodeHead (encodeHead lh hb) = lh := by
  have hsize := logheader_fits
  have hn : (encodeHead lh hb).getLE 0 4 = lh.length := by
    rw [encodeHead, putBlocks_getLE_of_le (by omega)]
    apply Bytes.getLE_putLE_of_lt (by omega)
    have : LOGSIZE = 30 := rfl
    omega
  rw [decodeHead, hn]
  exact getBlocks_putBlocks (by omega) hb32

end Xv6.Log
