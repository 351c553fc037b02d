import Xv6.Grep.Match
import Xv6.Libc.Memmove
import Xv6.Param
import Xv6.Shell.Lexemes

/-! # The lines that grep prints

`grep` of user/grep.c reads its input piece by piece into `buf`, cuts the complete lines
out of it in place, and moves what is left of the last line to the start of the buffer
before it reads on.
-/

namespace Xv6.Grep

open Function

open Libc (Memory)
open Shell (cstring cstring_eq)

def bufsize : Nat := 1024

/-- The address of `buf`, an array of 1024 characters in memory. -/
structure Buffer where
  addr : Nat
  fits : addr + bufsize ≤ 2 ^ 64

def store (p : Nat) (bs : List UInt8) (mem : Memory) : Memory := fun a =>
  if p ≤ a then (bs[a - p]?).getD (mem a) else mem a

def load (p k : Nat) (mem : Memory) : List UInt8 := (List.range k).map fun i => mem (p + i)

/-- `strchr(s, c)`: the first `c` of the string, or nothing if the NUL comes first.  The
string must end within `n` characters. -/
def strchr (mem : Memory) (c : UInt8) : Nat → Nat → Option (Option Nat)
  | 0, _ => none
  | n + 1, s =>
    if mem s = 0 then some none
    else if mem s = c then some (some s)
    else strchr mem c n (s + 1)

/-- What a `read` of at most `k` bytes returns when `rest` is still to come: nothing at the
end of the input or if nothing was asked for, else a piece of the size `piece + 1`, or
shorter if less was asked for or is left. -/
def read (piece k : Nat) (rest : List UInt8) : List UInt8 := rest.take (min (piece + 1) k)

section

variable (buf : Buffer) (pattern : List UInt8)

/-- The inner loop: each line that `strchr` finds is terminated in place, matched, and
written with its newline if it matches.  Returns `p` and the memory as the loop leaves
them, and what has been written. -/
def scan : Nat → Nat → Memory → List (List UInt8) → Option (Nat × Memory × List (List UInt8))
  | 0, _, _, _ => none
  | fuel + 1, p, mem, out => do
    match ← strchr mem newline (buf.addr + bufsize - p) p with
    | none => return (p, mem, out)
    | some q =>
      let mem := update mem q 0
      let text ← cstring mem (buf.addr + bufsize - p) p
      if matchre pattern text then
        let mem := update mem q newline
        scan fuel (q + 1) mem (out ++ [load p (q + 1 - p) mem])
      else scan fuel (q + 1) mem out

/-- The outer loop, with `m` bytes of an unfinished line in the buffer.  The `i`-th call
of `read` returns a piece of the size `pieces i + 1` if it can. -/
def refill (pieces : Nat → Nat) :
    Nat → Nat → Nat → Memory → List UInt8 → List (List UInt8) → Option (List (List UInt8))
  | 0, _, _, _, _, _ => none
  | fuel + 1, i, m, mem, rest, out =>
    let got := read (pieces i) (bufsize - m - 1) rest
    if got.length > 0 then do
      let mem := store (buf.addr + m) got mem
      let m := m + got.length
      let mem := update mem (buf.addr + m) 0
      let (p, mem, out) ← scan buf pattern (bufsize + 1) buf.addr mem out
      let (m, mem) :=
        if m > 0 then
          let m := m - (p - buf.addr)
          (m, (Libc.Ulib.memmove buf.addr p m mem).2)
        else (m, mem)
      refill pieces fuel (i + 1) m mem (rest.drop got.length) out
    else some out

/-- `grep(pattern, fd)` on the input behind `fd`: the strings written, in order. -/
def grep (pieces : Nat → Nat) (fuel : Nat) (mem : Memory) (input : List UInt8) :
    Option (List (List UInt8)) :=
  refill buf pattern pieces fuel 0 0 mem input []

end

/-! ## Lines -/

/-- The newline-terminated lines of a text, without their newlines. -/
def lines (text : List UInt8) : List (List UInt8) := (text.splitOn newline).dropLast

def matching (pattern : List UInt8) (ls : List (List UInt8)) : List (List UInt8) :=
  (ls.filter (matchre pattern)).map (· ++ [newline])

/-- A line that fits into the buffer with its newline and the final NUL. -/
def short (line : List UInt8) : Bool := line.length < bufsize - 1

theorem lines_nil {text : List UInt8} (h : newline ∉ text) : lines text = [] := by
  unfold lines
  rw [List.splitOn_eq_singleton h]
  rfl

theorem lines_cons {line : List UInt8} (h : newline ∉ line) (rest : List UInt8) :
    lines (line ++ newline :: rest) = line :: lines rest := by
  unfold lines
  rw [List.splitOn_append_cons_self_of_not_mem h, List.dropLast_cons_of_ne_nil
    (List.splitOn_ne_nil _ _)]

theorem length_lt_of_mem_lines {text line : List UInt8} (h : line ∈ lines text) :
    line.length < text.length := by
  induction hn : text.length using Nat.strong_induction_on generalizing text with
  | _ n ih =>
    by_cases hnl : newline ∈ text
    · obtain ⟨xs, ys, rfl, hxs⟩ := List.eq_append_cons_of_mem hnl
      rw [List.length_append, List.length_cons] at hn
      rw [lines_cons hxs] at h
      rcases List.mem_cons.mp h with rfl | h
      · omega
      · have := ih ys.length (by omega) h rfl
        omega
    · rw [lines_nil hnl] at h
      cases h

theorem matching_append (pattern : List UInt8) (xs ys : List (List UInt8)) :
    matching pattern (xs ++ ys) = matching pattern xs ++ matching pattern ys := by
  unfold matching
  rw [List.filter_append, List.map_append]

theorem matching_eq_nil {pattern : List UInt8} {ls : List (List UInt8)} :
    matching pattern ls = [] ↔ ∀ line ∈ ls, matchre pattern line = false := by
  unfold matching
  rw [List.map_eq_nil_iff, List.filter_eq_nil_iff]
  simp only [Bool.not_eq_true]

/-! ## Strings in memory -/

def Holds (mem : Memory) (p : Nat) (cs : List UInt8) : Prop :=
  ∀ i c, cs[i]? = some c → mem (p + i) = c

theorem Holds.append {mem : Memory} {p : Nat} {xs ys : List UInt8} :
    Holds mem p (xs ++ ys) ↔ Holds mem p xs ∧ Holds mem (p + xs.length) ys := by
  constructor
  · intro h
    refine ⟨fun i c hc => ?_, fun i c hc => ?_⟩
    · refine h i c ?_
      rw [List.getElem?_append_left (List.getElem?_eq_some_iff.mp hc).1]
      exact hc
    · rw [Nat.add_assoc]
      refine h (xs.length + i) c ?_
      rw [List.getElem?_append_right (Nat.le_add_right _ _), Nat.add_sub_cancel_left]
      exact hc
  · rintro ⟨hx, hy⟩ i c hc
    by_cases hi : i < xs.length
    · rw [List.getElem?_append_left hi] at hc
      exact hx i c hc
    · rw [List.getElem?_append_right (Nat.le_of_not_lt hi)] at hc
      have := hy _ c hc
      rwa [Nat.add_assoc, Nat.add_sub_cancel' (Nat.le_of_not_lt hi)] at this

theorem Holds.cons {mem : Memory} {p : Nat} {c : UInt8} {cs : List UInt8} :
    Holds mem p (c :: cs) ↔ mem p = c ∧ Holds mem (p + 1) cs := by
  rw [← List.singleton_append, Holds.append]
  refine and_congr_left fun _ => ⟨fun h => h 0 c rfl, fun h i d hd => ?_⟩
  obtain ⟨rfl, rfl⟩ : i = 0 ∧ d = c := by
    rcases i with _ | i
    · exact ⟨rfl, (Option.some.inj hd).symm⟩
    · cases hd
  exact h

theorem Holds.congr {mem mem' : Memory} {p : Nat} {cs : List UInt8} (h : Holds mem p cs)
    (heq : ∀ a, p ≤ a → a < p + cs.length → mem' a = mem a) : Holds mem' p cs := by
  intro i c hc
  have hi := (List.getElem?_eq_some_iff.mp hc).1
  rw [heq (p + i) (by omega) (by omega)]
  exact h i c hc

theorem Holds.update {mem : Memory} {p a : Nat} {b : UInt8} {cs : List UInt8} (h : Holds mem p cs)
    (ha : a < p ∨ p + cs.length ≤ a) : Holds (update mem a b) p cs :=
  h.congr fun _ _ _ => update_of_ne (by omega) _ _

theorem Holds.load {mem : Memory} {p : Nat} {cs : List UInt8} (h : Holds mem p cs) :
    load p cs.length mem = cs := by
  refine List.ext_getElem? fun i => ?_
  unfold Grep.load
  rw [List.getElem?_map]
  by_cases hi : i < cs.length
  · rw [List.getElem?_range hi, Option.map_some, h i cs[i] (List.getElem?_eq_getElem hi),
      List.getElem?_eq_getElem hi]
  · rw [List.getElem?_eq_none (by rw [List.length_range]; omega), List.getElem?_eq_none (by omega),
      Option.map_none]

theorem holds_store (p : Nat) (bs : List UInt8) (mem : Memory) : Holds (store p bs mem) p bs := by
  intro i c hc
  unfold store
  rw [if_pos (Nat.le_add_right p i), Nat.add_sub_cancel_left, hc]
  rfl

theorem store_of_lt {p a : Nat} (bs : List UInt8) (mem : Memory) (ha : a < p) :
    store p bs mem a = mem a :=
  if_neg (Nat.not_le.mpr ha)

theorem Holds.moved {mem : Memory} {dst src : Nat} {cs : List UInt8} (h : Holds mem src cs) :
    Holds (Libc.moved dst src cs.length mem) dst cs := by
  intro i c hc
  rw [Libc.moved_add (List.getElem?_eq_some_iff.mp hc).1]
  exact h i c hc

theorem strchr_none {mem : Memory} {c : UInt8} {cs : List UInt8} {n s : Nat} (hn : cs.length < n)
    (h : Holds mem s cs) (hend : mem (s + cs.length) = 0) (hc : c ∉ cs) (h0 : (0 : UInt8) ∉ cs) :
    strchr mem c n s = some none := by
  induction cs generalizing n s with
  | nil =>
    obtain ⟨n, rfl⟩ := Nat.exists_eq_succ_of_ne_zero (Nat.ne_of_gt hn)
    exact if_pos hend
  | cons d cs ih =>
    obtain ⟨n, rfl⟩ := Nat.exists_eq_succ_of_ne_zero
      (Nat.ne_of_gt (Nat.lt_of_le_of_lt (Nat.zero_le _) hn))
    obtain ⟨hd, hrest⟩ := Holds.cons.mp h
    rw [List.mem_cons, not_or] at hc h0
    unfold strchr
    rw [hd, if_neg (Ne.symm h0.1), if_neg (Ne.symm hc.1)]
    refine ih (Nat.lt_of_succ_lt_succ hn) hrest ?_ hc.2 h0.2
    rwa [Nat.add_assoc, Nat.add_comm 1]

theorem strchr_some {mem : Memory} {c : UInt8} {cs : List UInt8} {n s : Nat} (hn : cs.length < n)
    (h : Holds mem s cs) (hend : mem (s + cs.length) = c) (hne : c ≠ 0) (hc : c ∉ cs)
    (h0 : (0 : UInt8) ∉ cs) : strchr mem c n s = some (some (s + cs.length)) := by
  induction cs generalizing n s with
  | nil =>
    obtain ⟨n, rfl⟩ := Nat.exists_eq_succ_of_ne_zero (Nat.ne_of_gt hn)
    unfold strchr
    rw [List.length_nil, Nat.add_zero] at hend
    rw [hend, if_neg hne, if_pos rfl, List.length_nil, Nat.add_zero]
  | cons d cs ih =>
    obtain ⟨n, rfl⟩ := Nat.exists_eq_succ_of_ne_zero
      (Nat.ne_of_gt (Nat.lt_of_le_of_lt (Nat.zero_le _) hn))
    obtain ⟨hd, hrest⟩ := Holds.cons.mp h
    rw [List.mem_cons, not_or] at hc h0
    have hlen : s + (d :: cs).length = s + 1 + cs.length :=
      by rw [List.length_cons, Nat.add_assoc, Nat.add_comm 1]
    rw [hlen] at hend ⊢
    unfold strchr
    rw [hd, if_neg (Ne.symm h0.1), if_neg (Ne.symm hc.1)]
    exact ih (Nat.lt_of_succ_lt_succ hn) hrest hend hc.2 h0.2

/-! ## The loops -/

/-- A text cut into its lines and what is left behind the last of them. -/
structure Cut (text tail : List UInt8) : Prop where
  newline_free : newline ∉ tail
  lines : ∀ rest, Grep.lines (text ++ rest) = Grep.lines text ++ Grep.lines (tail ++ rest)

section

variable (buf : Buffer) (pattern : List UInt8)

theorem Cut.cons {line text tail : List UInt8} (h : Cut text tail) (hline : newline ∉ line) :
    Cut (line ++ newline :: text) tail where
  newline_free := h.newline_free
  lines rest := by
    rw [List.append_assoc, List.cons_append, lines_cons hline, lines_cons hline, h.lines rest,
      List.cons_append]

/-- The inner loop writes the matching lines of the text at `p` and stops at what is left
behind the last line. -/
theorem scan_spec {fuel p : Nat} {text : List UInt8} {mem : Memory} (out : List (List UInt8))
    (hfuel : text.length < fuel) (h0 : (0 : UInt8) ∉ text) (hmem : Holds mem p text)
    (hend : mem (p + text.length) = 0) (hp : p + text.length < buf.addr + bufsize) :
    ∃ p' mem' tail, scan buf pattern fuel p mem out =
    some (p', mem', out ++ matching pattern (lines text)) ∧
      Cut text tail ∧ tail ⊆ text ∧ p ≤ p' ∧ p' + tail.length = p + text.length ∧
      Holds mem' p' tail := by
  induction fuel generalizing p text mem out with
  | zero => exact absurd hfuel (Nat.not_lt_zero _)
  | succ fuel ih =>
    unfold scan
    by_cases hnl : newline ∈ text
    · obtain ⟨xs, ys, rfl, hxs⟩ := List.eq_append_cons_of_mem hnl
      obtain ⟨hx, hy⟩ := Holds.append.mp hmem
      obtain ⟨hq, hy⟩ := Holds.cons.mp hy
      rw [List.length_append, List.length_cons] at hfuel hend hp
      rw [List.mem_append, List.mem_cons, not_or, not_or] at h0
      have hfound := strchr_some (n := buf.addr + bufsize - p) (by omega) hx hq (by decide) hxs h0.1
      have htext : cstring (update mem (p + xs.length) 0) (buf.addr + bufsize - p) p =
          some xs := by
        refine cstring_eq (by omega) (fun j c hc => ?_) (update_self _ _ _)
        have hj := (List.getElem?_eq_some_iff.mp hc).1
        refine ⟨fun hc0 => h0.1 (hc0 ▸ List.mem_of_getElem? hc), ?_⟩
        rw [update_of_ne (by omega), hx j c hc]
      -- Either way the bytes behind the newline are as they were.
      have hrest : ∀ mem' : Memory, (∀ a, p + xs.length < a → mem' a = mem a) →
          ∃ p' mem'' tail, scan buf pattern fuel (p + xs.length + 1) mem'
          (out ++ matching pattern [xs]) =
              some (p', mem'', out ++ matching pattern (lines (xs ++ newline :: ys))) ∧
            Cut (xs ++ newline :: ys) tail ∧ tail ⊆ xs ++ newline :: ys ∧ p ≤ p' ∧
            p' + tail.length = p + (xs ++ newline :: ys).length ∧ Holds mem'' p' tail := by
        intro mem' hsame
        obtain ⟨p', mem'', tail, hscan, hcut, hsub, hle, hlen, hholds⟩ :=
          ih (out ++ matching pattern [xs])
          (by omega) h0.2.2 (hy.congr fun a ha _ => hsame a (by omega))
          ((hsame _ (by omega)).trans (by rw [← hend]; congr 1; omega)) (by omega)
        refine ⟨p', mem'', tail, ?_, hcut.cons hxs, ?_, by omega, ?_, hholds⟩
        · rw [hscan, lines_cons hxs, List.append_assoc, ← matching_append, List.singleton_append]
        · exact fun a ha => List.mem_append_right _ (List.mem_cons_of_mem _ (hsub ha))
        · rw [List.length_append, List.length_cons, hlen]
          omega
      rw [hfound]
      simp only [Option.bind_eq_bind, Option.bind_some, htext]
      by_cases hmatch : matchre pattern xs = true
      · have hwritten : load p (p + xs.length + 1 - p)
            (update (update mem (p + xs.length) 0) (p + xs.length) newline) =
                xs ++ [newline] := by
          have hline : Holds (update (update mem (p + xs.length) 0)
              (p + xs.length) newline) p (xs ++ [newline]) := by
            refine Holds.append.mpr ⟨(hx.update (.inr (Nat.le_refl _))).update
              (.inr (Nat.le_refl _)), ?_⟩
            exact Holds.cons.mpr ⟨update_self _ _ _, fun i c hc => by cases hc⟩
          rw [show p + xs.length + 1 - p = (xs ++ [newline]).length by
            rw [List.length_append, List.length_singleton]; omega]
          exact hline.load
        have hout : matching pattern [xs] = [xs ++ [newline]] := by
          unfold matching
          rw [List.filter_cons_of_pos hmatch]
          rfl
        rw [if_pos hmatch, hwritten, ← hout]
        refine hrest _ fun a ha => ?_
        rw [update_of_ne (by omega), update_of_ne (by omega)]
      · have hout : matching pattern [xs] = [] := by
          unfold matching
          rw [List.filter_cons_of_neg hmatch]
          rfl
        have hskip := hrest (update mem (p + xs.length) 0) fun a ha =>
          update_of_ne (by omega) _ _
        rw [hout, List.append_nil] at hskip
        rw [if_neg hmatch]
        exact hskip
    · rw [strchr_none (by omega) hmem hend hnl h0]
      refine ⟨p, mem, text, ?_, ⟨hnl, fun rest => ?_⟩, List.Subset.refl _, Nat.le_refl _, rfl, hmem⟩
      · rw [lines_nil hnl]
        simp [matching]
      · rw [lines_nil hnl, List.nil_append]

theorem takeWhile_short_of_full {tail : List UInt8} (hnl : newline ∉ tail)
    (hlen : bufsize - 1 ≤ tail.length) (rest : List UInt8) :
    (lines (tail ++ rest)).takeWhile short = [] := by
  by_cases hrest : newline ∈ rest
  · obtain ⟨xs, ys, rfl, hxs⟩ := List.eq_append_cons_of_mem hrest
    have hfirst : newline ∉ tail ++ xs := by
      rw [List.mem_append]
      exact not_or.mpr ⟨hnl, hxs⟩
    rw [← List.append_assoc, lines_cons hfirst]
    refine List.takeWhile_cons_of_neg ?_
    unfold short
    rw [decide_eq_true_eq, List.length_append]
    omega
  · rw [lines_nil (by rw [List.mem_append]; exact not_or.mpr ⟨hnl, hrest⟩)]
    rfl

/-- With an unfinished line in the buffer, the outer loop writes the matching lines of
that line and the rest of the input, up to the first that does not fit. -/
theorem refill_spec {pieces : Nat → Nat} {fuel i : Nat} {tail rest : List UInt8} {mem : Memory}
    (out : List (List UInt8)) (hfuel : rest.length < fuel) (h0 : (0 : UInt8) ∉ tail ++ rest)
    (hnl : newline ∉ tail) (hlen : tail.length < bufsize) (hmem : Holds mem buf.addr tail) :
    refill buf pattern pieces fuel i tail.length mem rest out =
      some (out ++ matching pattern ((lines (tail ++ rest)).takeWhile short)) := by
  induction fuel generalizing i tail rest mem out with
  | zero => exact absurd hfuel (Nat.not_lt_zero _)
  | succ fuel ih =>
    unfold refill
    dsimp only
    generalize hgot : read (pieces i) (bufsize - tail.length - 1) rest = got
    have hsplit : got ++ rest.drop got.length = rest := by
      obtain rfl : got = rest.take (min (pieces i + 1) (bufsize - tail.length - 1)) := hgot.symm
      exact List.prefix_iff_eq_append.mp (List.take_prefix _ _)
    have hroom : tail.length + got.length < bufsize := by
      rw [← hgot]
      unfold read
      rw [List.length_take]
      omega
    by_cases hpos : got.length > 0
    · rw [if_pos hpos]
      have hfits := buf.fits
      have htext : Holds (update (store (buf.addr + tail.length) got mem)
          (buf.addr + (tail.length + got.length)) 0) buf.addr (tail ++ got) := by
        refine Holds.update (Holds.append.mpr ⟨?_, holds_store _ _ _⟩)
          (.inr (by rw [List.length_append]))
        exact hmem.congr fun a _ ha => store_of_lt _ _ ha
      obtain ⟨p', mem', tail', hscan, hcut, hsub, hle, htail, hholds⟩ := scan_spec buf pattern out
        (show (tail ++ got).length < bufsize + 1 by rw [List.length_append]; omega)
        (fun h => h0 (by rw [← hsplit, ← List.append_assoc]; exact List.mem_append_left _ h)) htext
        (by rw [List.length_append]; exact update_self _ _ _)
          (by rw [List.length_append]; omega)
      rw [List.length_append] at htail
      have hm : tail.length + got.length - (p' - buf.addr) = tail'.length := by omega
      rw [hscan]
      simp only [Option.bind_eq_bind, Option.bind_some]
      rw [if_pos (by omega), hm, Libc.Ulib.memmove_eq mem' (by omega) (by omega)]
      dsimp only
      have hall : ∀ line ∈ lines (tail ++ got), short line = true := by
        intro line hline
        have := length_lt_of_mem_lines hline
        rw [List.length_append] at this
        exact decide_eq_true (by omega)
      rw [ih]
      · rw [List.append_assoc, ← matching_append]
        conv_rhs => rw [← hsplit, ← List.append_assoc, hcut.lines,
          List.takeWhile_append_of_pos hall]
      · have hrest := congrArg List.length hsplit
        rw [List.length_append] at hrest
        omega
      · rintro h
        refine h0 ?_
        rw [← hsplit, ← List.append_assoc]
        rcases List.mem_append.mp h with h | h
        · exact List.mem_append_left _ (hsub h)
        · exact List.mem_append_right _ h
      · exact hcut.newline_free
      · omega
      · exact hholds.moved
    · -- The input is at its end, or the buffer is full and nothing was asked for.
      rw [if_neg hpos]
      have hnone : (lines (tail ++ rest)).takeWhile short = [] := by
        by_cases hfull : bufsize - 1 ≤ tail.length
        · exact takeWhile_short_of_full hnl hfull rest
        · have hempty : rest = [] := by
            rw [← hgot] at hpos
            unfold read at hpos
            rw [List.length_take] at hpos
            exact List.eq_nil_of_length_eq_zero (by omega)
          rw [hempty, List.append_nil, lines_nil hnl]
          rfl
      rw [hnone]
      simp [matching]

/-- Whatever the pieces, `grep` writes the matching lines before the first line of 1023
characters or more. -/
theorem grep_output (pieces : Nat → Nat) {fuel : Nat} (mem : Memory) {input : List UInt8}
    (h0 : (0 : UInt8) ∉ input) (hfuel : input.length < fuel) :
    grep buf pattern pieces fuel mem input =
    some (matching pattern ((lines input).takeWhile short)) := by
  have hempty : Holds mem buf.addr [] := fun i c hc => by cases hc
  exact refill_spec buf pattern [] hfuel h0 List.not_mem_nil (by decide) hempty

/-- `grep` writes exactly the matching lines of its input if and only if no line from the
first of 1023 characters or more on matches: a line that fills the buffer before its
newline is read makes `read` return 0, and `grep` takes that for the end of the input. -/
theorem grep_writes_matching_lines_iff (pieces : Nat → Nat) {fuel : Nat} (mem : Memory)
    {input : List UInt8} (h0 : (0 : UInt8) ∉ input) (hfuel : input.length < fuel) :
    grep buf pattern pieces fuel mem input = some (matching pattern (lines input)) ↔
      ∀ line ∈ (lines input).dropWhile (fun line => line.length < 1023),
      matchre pattern line = false := by
  rw [grep_output buf pattern pieces mem h0 hfuel, Option.some.injEq]
  have hsplit : matching pattern (lines input) = matching pattern ((lines input).takeWhile short) ++
      matching pattern ((lines input).dropWhile short) := by
    rw [← matching_append, List.takeWhile_append_dropWhile]
  rw [hsplit, List.self_eq_append_right, matching_eq_nil]
  rfl

end

/-- Two short lines, read one byte at a time. -/
theorem grep_writes_matching_lines_iff_two :
    grep ⟨0, by decide⟩ [97] (fun _ => 0) 5 (fun _ => 0) [97, 10, 98, 10] =
      some (matching [97] (lines [97, 10, 98, 10])) :=
  (grep_writes_matching_lines_iff ⟨0, by decide⟩ [97] (fun _ => 0)
    (fun _ => 0) (by decide) (by decide)).mpr (by decide)

/-! ## A line that fills the buffer -/

/-- 1023 times the letter a, and a newline. -/
def longLine : List UInt8 := List.replicate 1023 97 ++ [newline]

theorem lines_longLine : lines longLine = [List.replicate 1023 97] := by
  have hfirst : newline ∉ List.replicate 1023 (97 : UInt8) :=
    fun h => absurd (List.eq_of_mem_replicate h) (by decide)
  unfold longLine
  rw [lines_cons hfirst, lines_nil List.not_mem_nil]

theorem longLine_nul_free : (0 : UInt8) ∉ longLine := by
  intro h
  rcases List.mem_append.mp h with h | h
  · exact absurd (List.eq_of_mem_replicate h) (by decide)
  · exact absurd (List.mem_singleton.mp h) (by decide)

/-- The only line of the input matches, and `grep` writes nothing. -/
theorem grep_loses_long_line :
    grep ⟨0, by decide⟩ [97] (fun _ => 511) 2000 (fun _ => 0) longLine = some [] ∧
      matching [97] (lines longLine) = [longLine] := by
  have hlength : longLine.length < 2000 := by
    unfold longLine
    rw [List.length_append, List.length_replicate, List.length_singleton]
    omega
  have hshort : ¬short (List.replicate 1023 97) = true := by
    unfold short
    rw [List.length_replicate]
    decide
  have hmatch : matchre [97] (List.replicate 1023 97) = true := by
    rw [List.replicate_succ]
    rfl
  rw [grep_output _ _ _ _ longLine_nul_free hlength, lines_longLine]
  constructor
  · rw [List.takeWhile_cons_of_neg hshort]
    rfl
  · unfold matching
    rw [List.filter_cons_of_pos hmatch]
    rfl

end Xv6.Grep
