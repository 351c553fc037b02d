import Mathlib.Algebra.BigOperators.Group.List.Basic
import Xv6.Lib.Circular
import Xv6.Malloc.Model

/-! # The free list

The free blocks form one ring in the order of their addresses, no two of them adjacent. `free`
puts a block in its place and joins it with its neighbours.
-/

namespace Xv6.Malloc

open Function Lib

structure Block where
  addr : Nat
  size : Nat
deriving DecidableEq

namespace Block

def stop (b : Block) : Nat := b.addr + UNIT * b.size

def Apart (a b : Block) : Prop := a.stop ≤ b.addr ∨ b.stop ≤ a.addr

theorem Apart.symm {a b : Block} (h : a.Apart b) : b.Apart a := Or.symm h

theorem Apart.addr_ne {a b : Block} (ha : 0 < a.size) (hb : 0 < b.size) (h : a.Apart b) :
    a.addr ≠ b.addr := by
  unfold Apart stop UNIT at h
  omega

end Block

def total (l : List Block) : Nat := (l.map Block.size).sum

@[simp] theorem total_nil : total [] = 0 := rfl

@[simp] theorem total_cons (b : Block) (l : List Block) : total (b :: l) = b.size + total l := by
  simp [total]

@[simp] theorem total_append (l₁ l₂ : List Block) : total (l₁ ++ l₂) = total l₁ + total l₂ := by
  simp [total]

/-- Every byte of `b` is one of a block of `l`. -/
def Covered (l : List Block) (b : Block) : Prop :=
  ∀ a, b.addr ≤ a → a < b.stop → ∃ c ∈ l, c.addr ≤ a ∧ a < c.stop

theorem covered_of_mem {l : List Block} {b : Block} (h : b ∈ l) : Covered l b :=
  fun _ hle hlt => ⟨b, h, hle, hlt⟩

theorem Covered.trans {l l' : List Block} {b : Block} (h : Covered l b)
    (hl : ∀ c ∈ l, Covered l' c) : Covered l' b := by
  intro a hle hlt
  obtain ⟨c, hc, hle', hlt'⟩ := h a hle hlt
  exact hl c hc a hle' hlt'

namespace State

/-- The static header, as a block of the ring. -/
def root (s : State) : Block := ⟨s.base, 0⟩

def Within (s : State) (b : Block) : Prop := 0 < b.size ∧ s.base + UNIT ≤ b.addr ∧ b.stop ≤ s.top

/-- The address to which the block in front of `rest` is linked. -/
def front (s : State) (rest : List Block) : Nat := (rest.head?.map Block.addr).getD s.base

end State

/-- The headers of the blocks `ns` form the ring, and `others` are the other blocks of the
heap. -/
structure Heap (s : State) (ns others : List Block) : Prop where
  first : ns.head? = some s.root
  ring : Linked (fun a => (s.mem a).ptr) (ns.map Block.addr ++ [s.base])
  sorted : ns.Pairwise fun a b => a.stop < b.addr
  sizes : ∀ b ∈ ns ++ others, (s.mem b.addr).size = b.size
  apart : others.Pairwise Block.Apart
  away : ∀ b ∈ ns, ∀ c ∈ others, b.Apart c
  within : (∀ b ∈ ns, b = s.root ∨ s.Within b) ∧ ∀ b ∈ others, s.Within b
  freep : s.freep ∈ ns.map Block.addr
  units : total (ns ++ others) = s.units

/-- A call has left the allocations `others` alone. -/
structure Frame (s s' : State) (others : List Block) : Prop where
  base : s'.base = s.base
  top : s.top ≤ s'.top
  live : s'.live = s.live
  mem : ∀ c ∈ others, s'.mem c.addr = s.mem c.addr

theorem Frame.trans {s₁ s₂ s₃ : State} {others : List Block} (h₁ : Frame s₁ s₂ others)
    (h₂ : Frame s₂ s₃ others) : Frame s₁ s₃ others :=
  ⟨h₂.base.trans h₁.base, h₁.top.trans h₂.top, h₂.live.trans h₁.live,
    fun c hc => (h₂.mem c hc).trans (h₁.mem c hc)⟩

variable {s : State} {ns others init rest : List Block} {p nb : Block}

theorem linked_front {next : Nat → Nat} {x : Nat} :
    Linked next (x :: (rest.map Block.addr ++ [s.base])) ↔
      next x = s.front rest ∧ Linked next (rest.map Block.addr ++ [s.base]) := by
  cases rest with
  | nil => exact List.isChain_cons_cons
  | cons r rest => exact List.isChain_cons_cons

namespace Heap

theorem ring_split (h : Heap s (init ++ p :: rest) others) :
    Linked (fun a => (s.mem a).ptr) (init.map Block.addr ++ [p.addr]) ∧ (s.mem p.addr).ptr =
    s.front rest ∧
      Linked (fun a => (s.mem a).ptr) (rest.map Block.addr ++ [s.base]) := by
  have hring := h.ring
  rw [List.map_append, List.append_assoc] at hring
  obtain ⟨hinit, hrest⟩ := Linked.split.mp hring
  exact ⟨hinit, linked_front.mp hrest⟩

theorem before (h : Heap s (init ++ p :: rest) others) : ∀ b ∈ init, b.stop < p.addr := fun b hb =>
  (List.pairwise_append.mp h.sorted).2.2 b hb p List.mem_cons_self

theorem after (h : Heap s (init ++ p :: rest) others) : ∀ b ∈ rest, p.stop < b.addr :=
  (List.pairwise_cons.mp (List.pairwise_append.mp h.sorted).2.1).1

theorem base_le (h : Heap s ns others) {b : Block} (hb : b ∈ ns) : s.base ≤ b.addr := by
  rcases h.within.1 b hb with rfl | hw
  · exact le_rfl
  · exact Nat.le_of_add_right_le hw.2.1

theorem addr_ne (h : Heap s ns others) {b c : Block} (hb : b ∈ ns) (hc : c ∈ others) :
    b.addr ≠ c.addr := by
  have hcw := h.within.2 c hc
  rcases h.within.1 b hb with rfl | hbw
  · have := hcw.2.1
    unfold State.root UNIT at *
    dsimp only
    omega
  · exact (h.away b hb c hc).addr_ne hbw.1 hcw.1

/-! ## Where a block goes -/

theorem place (h : Heap s ns others) {x : Nat} (hx : s.base < x) (hne : ∀ b ∈ ns, b.addr ≠ x) :
    ∃ init p rest, ns = init ++ p :: rest ∧ p.addr < x ∧ ∀ b ∈ rest, x < b.addr := by
  have hsorted := h.sorted
  obtain ⟨l, rfl⟩ := List.head?_eq_some_iff.mp h.first
  have hroot : s.root.addr < x := hx
  -- by induction on the list, whatever the block in front of it
  clear h hx
  generalize s.root = a at *
  induction l generalizing a with
  | nil => exact ⟨[], a, [], rfl, hroot, fun b hb => by cases hb⟩
  | cons b l ih =>
    have hb := hne b (List.mem_cons_of_mem a List.mem_cons_self)
    rw [List.pairwise_cons] at hsorted
    by_cases hlt : x < b.addr
    · refine ⟨[], a, b :: l, rfl, hroot, fun c hc => ?_⟩
      rcases List.mem_cons.mp hc with rfl | hc
      · exact hlt
      · have hstop := (List.pairwise_cons.mp hsorted.2).1 c hc
        unfold Block.stop at hstop
        omega
    · obtain ⟨init, p, rest, heq, hp, hrest⟩ :=
        ih b (fun c hc => hne c (List.mem_cons_of_mem a hc)) hsorted.2 (by omega)
      exact ⟨a :: init, p, rest, by rw [heq]; rfl, hp, hrest⟩

/-- The condition under which the loop of `free` stops at `x`. -/
def stops (s : State) (bp x : Nat) : Bool :=
  decide ((x < bp ∧ bp < (s.mem x).ptr) ∨ ((s.mem x).ptr ≤ x ∧ (x < bp ∨ bp < (s.mem x).ptr)))

theorem findPrev_eq_seek (s : State) (bp fuel x : Nat) :
    s.findPrev bp fuel x = seek (fun a => (s.mem a).ptr) (stops s bp) fuel x := by
  induction fuel generalizing x with
  | zero => rfl
  | succ fuel ih =>
    unfold State.findPrev seek stops
    dsimp only
    rw [ih]
    by_cases h1 : x < bp ∧ bp < (s.mem x).ptr
    · rw [if_pos h1, if_pos (decide_eq_true (.inl h1))]
    · rw [if_neg h1]
      by_cases h2 : (s.mem x).ptr ≤ x ∧ (x < bp ∨ bp < (s.mem x).ptr)
      · rw [if_pos h2, if_pos (decide_eq_true (.inr h2))]
      · rw [if_neg h2, if_neg (by simp only [decide_eq_true_eq]; exact fun hs => hs.elim h1 h2)]
        rfl

theorem stops_place (h : Heap s (init ++ p :: rest) others) {bp : Nat} (hp : p.addr < bp)
    (hrest : ∀ b ∈ rest, bp < b.addr) : stops s bp p.addr = true := by
  refine decide_eq_true ?_
  rw [h.ring_split.2.1]
  cases rest with
  | nil => exact .inr ⟨h.base_le (by simp), .inl hp⟩
  | cons r rest => exact .inl ⟨hp, hrest r List.mem_cons_self⟩

theorem stops_only (h : Heap s (init ++ p :: rest) others) {bp : Nat} (hbp : s.base < bp)
    (hp : p.addr < bp) (hrest : ∀ b ∈ rest, bp < b.addr) {c : Block} (hc : c ∈ init ++ p :: rest)
    (hstop : stops s bp c.addr = true) : c = p := by
  have hsorted := List.pairwise_append.mp h.sorted
  rcases List.mem_append.mp hc with hinit | hc
  · -- the block behind `c` is not behind `p`
    obtain ⟨l₁, l₂, rfl⟩ := List.append_of_mem hinit
    have hsplit : (l₁ ++ c :: l₂) ++ p :: rest = l₁ ++ c :: (l₂ ++ p :: rest) :=
      List.append_assoc _ _ _
    have hs := of_decide_eq_true hstop
    have h' := h
    rw [hsplit] at h'
    rw [h'.ring_split.2.1] at hs
    have hsorted' := (List.pairwise_cons.mp (List.pairwise_append.mp h'.sorted).2.1).1
    have hcp := hsorted' p (by simp)
    have hnext : ∃ d, s.front (l₂ ++ p :: rest) = d ∧ c.addr < d ∧ d ≤ p.addr := by
      cases l₂ with
      | nil => exact ⟨p.addr, rfl, by unfold Block.stop at hcp; omega, le_rfl⟩
      | cons d l₂ =>
        have hcd := hsorted' d (by simp)
        have hdp := hsorted.2.2 d (by simp) p List.mem_cons_self
        refine ⟨d.addr, rfl, ?_, ?_⟩ <;> unfold Block.stop at hcd hdp <;> omega
    obtain ⟨d, hd, hcd, hdp⟩ := hnext
    rw [hd] at hs
    omega
  · rcases List.mem_cons.mp hc with rfl | hc
    · rfl
    · have hbc := hrest c hc
      obtain ⟨l₁, l₂, rfl⟩ := List.append_of_mem hc
      have hsplit : init ++ p :: (l₁ ++ c :: l₂) = (init ++ p :: l₁) ++ c :: l₂ := by simp
      have hs := of_decide_eq_true hstop
      rw [hsplit] at h
      rw [h.ring_split.2.1] at hs
      cases l₂ with
      | nil =>
        change (c.addr < bp ∧ bp < s.base) ∨ (s.base ≤ c.addr ∧ (c.addr < bp ∨ bp < s.base)) at hs
        omega
      | cons d l₂ =>
        change (c.addr < bp ∧ bp < d.addr) ∨ (d.addr ≤ c.addr ∧ (c.addr < bp ∨ bp < d.addr)) at hs
        have hcd := (List.pairwise_cons.mp (List.pairwise_append.mp h.sorted).2.1).1 d
          List.mem_cons_self
        unfold Block.stop at hcd
        omega

theorem from_freep (h : Heap s ns others) : ∃ l, Circular (fun a => (s.mem a).ptr) s.freep l ∧
    (s.freep :: l).Perm (ns.map Block.addr) := by
  obtain ⟨l, rfl⟩ := List.head?_eq_some_iff.mp h.first
  exact Circular.from h.ring h.freep

theorem findPrev_eq (h : Heap s (init ++ p :: rest) others) {bp : Nat} (hbp : s.base < bp)
    (hp : p.addr < bp) (hrest : ∀ b ∈ rest, bp < b.addr) (fuel : Nat)
    (hfuel : (init ++ p :: rest).length ≤ fuel) : s.findPrev bp fuel s.freep = some p.addr := by
  obtain ⟨l, hring, hperm⟩ := h.from_freep
  have hlen : l.length + 1 = (init ++ p :: rest).length := by
    have := hperm.length_eq
    rwa [List.length_map] at this
  have hlinked : Linked (fun a => (s.mem a).ptr) (s.freep :: l) := by
    have hring' : Linked (fun a => (s.mem a).ptr) ((s.freep :: l) ++ [s.freep]) := hring
    exact (List.isChain_append.mp hring').1
  rw [findPrev_eq_seek]
  refine hlinked.seek (hperm.mem_iff.mpr (List.mem_map_of_mem (by simp))) (h.stops_place hp hrest)
    (fun x hx hstop => ?_) (by omega)
  obtain ⟨c, hc, rfl⟩ := List.mem_map.mp (hperm.mem_iff.mp hx)
  rw [h.stops_only hbp hp hrest hc hstop]

/-! ## Changing a part of the ring -/

/-- The blocks `mid` take the place of `p` and of the blocks between `p` and `rest'`. -/
theorem splice (h : Heap s (init ++ p :: rest) others) {s' : State} (mid : List Block)
    {rest' others' : List Block} (hsuffix : rest' <:+ rest) (hbase : s'.base = s.base)
    (htop : s'.top = s.top) (hkeep : ∀ b ∈ init ++ rest', s'.mem b.addr = s.mem b.addr)
    (haddr : mid.head?.map Block.addr = some p.addr) (hroot : p = s.root → mid.head? = some s.root)
    (hlinked : Linked (fun a => (s'.mem a).ptr) (mid.map Block.addr ++ [s.front rest']))
    (hsorted : mid.Pairwise fun a b => a.stop < b.addr)
    (hafter : ∀ b ∈ mid, ∀ c ∈ rest', b.stop < c.addr)
    (hsizes : ∀ b ∈ mid ++ others', (s'.mem b.addr).size = b.size)
    (hapart : others'.Pairwise Block.Apart)
    (haway : ∀ c ∈ others', (∀ b ∈ init ++ rest', b.Apart c) ∧ ∀ b ∈ mid, b.Apart c)
    (hwithin : (∀ b ∈ mid, b = s.root ∨ s.Within b) ∧ ∀ b ∈ others', s.Within b)
    (hfreep : s'.freep ∈ (init ++ mid).map Block.addr)
    (hunits : total (init ++ mid ++ rest') + total others' = s'.units) :
    Heap s' (init ++ mid ++ rest') others' := by
  obtain ⟨hinitring, -, hrestring⟩ := h.ring_split
  obtain ⟨hsinit, hsp, hsacross⟩ := List.pairwise_append.mp h.sorted
  have hin : ∀ b, s'.Within b ↔ s.Within b := fun b => by unfold State.Within; rw [hbase, htop]
  have hsub : ∀ b ∈ rest', b ∈ rest := fun b hb => hsuffix.subset hb
  obtain ⟨m, tl, rfl⟩ : ∃ m tl, mid = m :: tl := by
    cases mid with
    | nil => cases haddr
    | cons m tl => exact ⟨m, tl, rfl⟩
  have haddr' : m.addr = p.addr := Option.some.inj haddr
  have hmid : ∀ c ∈ m :: tl, p.addr ≤ c.addr := fun c hc => by
    rcases List.mem_cons.mp hc with rfl | hc
    · exact haddr'.ge
    · have := (List.pairwise_cons.mp hsorted).1 c hc
      unfold Block.stop at this
      omega
  refine ⟨?_, ?_, ?_, ?_, hapart, ?_, ⟨?_, fun b hb => (hin b).mpr (hwithin.2 b hb)⟩, ?_, ?_⟩
  · have hsame : s'.root = s.root := by unfold State.root; rw [hbase]
    have hfirst := h.first
    cases init with
    | nil =>
      rw [hsame]
      exact hroot (Option.some.inj hfirst)
    | cons a init =>
      rw [hsame]
      exact hfirst
  · -- the links up to `m`, through `mid` and behind it
    rw [List.append_assoc, List.map_append, List.append_assoc]
    refine Linked.split.mpr ⟨?_, ?_⟩
    · rw [haddr']
      refine hinitring.congr fun a ha => ?_
      obtain ⟨b, hb, rfl⟩ := List.mem_map.mp ha
      rw [hkeep b (by simp [hb])]
    · have hrest' : Linked (fun a => (s'.mem a).ptr) (rest'.map Block.addr ++ [s.base]) := by
        obtain ⟨l, rfl⟩ := hsuffix
        rw [List.map_append, List.append_assoc] at hrestring
        have hsuffix : Linked (fun a => (s.mem a).ptr) (rest'.map Block.addr ++ [s.base]) :=
          (List.isChain_append.mp hrestring).2.1
        refine hsuffix.congr fun a ha => ?_
        obtain ⟨b, hb, rfl⟩ := List.mem_map.mp ha
        rw [hkeep b (by simp [hb])]
      have hall : Linked (fun a => (s'.mem a).ptr)
          ((m :: tl).map Block.addr ++ (rest'.map Block.addr ++ [s.base])) := by
        cases rest' with
        | nil => exact hlinked
        | cons r rest' => exact Linked.split.mpr ⟨hlinked, hrest'⟩
      rw [← List.append_assoc, ← List.map_append, ← hbase] at hall
      exact hall
  · refine List.pairwise_append.mpr
      ⟨List.pairwise_append.mpr ⟨hsinit, hsorted, fun b hb c hc => ?_⟩,
      (List.pairwise_cons.mp hsp).2.sublist hsuffix.sublist, fun b hb c hc => ?_⟩
    · exact (hsacross b hb p List.mem_cons_self).trans_le (hmid c hc)
    · rcases List.mem_append.mp hb with hb | hb
      · exact hsacross b hb c (List.mem_cons_of_mem _ (hsub c hc))
      · exact hafter b hb c hc
  · intro b hb
    by_cases hnew : b ∈ m :: tl ++ others'
    · exact hsizes b hnew
    · have hold : b ∈ init ++ rest' := by
        simp only [List.mem_append] at hb hnew ⊢
        tauto
      rw [hkeep b hold]
      refine h.sizes b ?_
      rcases List.mem_append.mp hold with hb | hb
      · simp [hb]
      · simp [hsub b hb]
  · intro b hb c hc
    by_cases hnew : b ∈ m :: tl
    · exact (haway c hc).2 b hnew
    · refine (haway c hc).1 b ?_
      simp only [List.mem_append] at hb hnew ⊢
      tauto
  · intro b hb
    have hsame : s'.root = s.root := by unfold State.root; rw [hbase]
    rw [hin, hsame]
    rcases List.mem_append.mp hb with hb | hb
    · rcases List.mem_append.mp hb with hb | hb
      · exact h.within.1 b (by simp [hb])
      · exact hwithin.1 b hb
    · exact h.within.1 b (by simp [hsub b hb])
  · rw [List.map_append]
    exact List.mem_append_left _ hfreep
  · rw [total_append]
    exact hunits

/-! ## Joining -/

/-- The block `nb` has been joined with the first of `rest` if that is adjacent. -/
structure Joined (s : State) (nb : Block) (rest : List Block) (nb' : Block) (rest' : List Block) :
    Prop where
  addr : nb'.addr = nb.addr
  size : nb.size ≤ nb'.size
  units : total (nb' :: rest') = total (nb :: rest)
  suffix : rest' <:+ rest
  gap : ∀ b ∈ rest', nb'.stop < b.addr
  away : ∀ c, 0 < c.size → (∀ b ∈ nb :: rest, b.Apart c) → nb'.Apart c
  within : s.Within nb'
  covered : Covered (nb :: rest) nb'

variable {nb' : Block} {rest' : List Block}

theorem around (h : Heap s (init ++ p :: rest) (nb :: others)) (hp : p.addr < nb.addr)
    (hrest : ∀ b ∈ rest, nb.addr < b.addr) : p.stop ≤ nb.addr ∧ ∀ r ∈ rest, nb.stop ≤ r.addr := by
  have hnb := h.within.2 nb List.mem_cons_self
  have hpos : nb.addr < nb.stop := by
    have := hnb.1
    unfold Block.stop UNIT
    omega
  constructor
  · rcases h.away p (by simp) nb List.mem_cons_self with hle | hle
    · exact hle
    · omega
  · intro r hr
    have hlt := hrest r hr
    have hle : r.addr ≤ r.stop := Nat.le_add_right _ _
    rcases h.away r (by simp [hr]) nb List.mem_cons_self with hle' | hle'
    · omega
    · exact hle'

theorem joinNext (h : Heap s (init ++ p :: rest) (nb :: others)) (hsmall : s.units < 2 ^ 32)
    (hp : p.addr < nb.addr) (hrest : ∀ b ∈ rest, nb.addr < b.addr) : ∃ nb' rest',
      s.joinNext p.addr nb.addr =
      { s with mem := update s.mem nb.addr ⟨s.front rest', nb'.size⟩ } ∧
      Joined s nb rest nb' rest' := by
  obtain ⟨-, hptr, -⟩ := h.ring_split
  have hsize : (s.mem nb.addr).size = nb.size := h.sizes nb (by simp)
  have hnb := h.within.2 nb List.mem_cons_self
  obtain ⟨-, hnext⟩ := h.around hp hrest
  have hsorted := (List.pairwise_append.mp h.sorted).2.1
  unfold State.joinNext
  rw [hsize, hptr]
  by_cases hadj : nb.addr + UNIT * nb.size = s.front rest
  · rw [if_pos hadj]
    cases rest with
    | nil =>
      -- the ring does not start behind `nb`
      have hbase : nb.addr + UNIT * nb.size = s.base := hadj
      have := hnb.2.1
      unfold UNIT at this
      omega
    | cons r rest =>
      have hadj' : nb.stop = r.addr := hadj
      have hr : (s.mem r.addr).size = r.size := h.sizes r (by simp)
      have hrptr : (s.mem r.addr).ptr = s.front rest := by
        have h' := h
        rw [List.append_cons] at h'
        exact h'.ring_split.2.1
      have hne : r.addr ≠ nb.addr := Nat.ne_of_gt (hrest r List.mem_cons_self)
      have hrw : s.Within r := by
        refine (h.within.1 r (by simp)).resolve_left ?_
        rintro rfl
        have := hnb.2.1
        have := hrest _ List.mem_cons_self
        unfold State.root UNIT at *
        dsimp only at *
        omega
      have hsum : nb.size + r.size < 2 ^ 32 := by
        have hunits := h.units
        simp only [total_append, total_cons] at hunits
        omega
      refine ⟨⟨nb.addr, nb.size + r.size⟩, rest, ?_, rfl, Nat.le_add_right _ _, ?_, ⟨[r], rfl⟩,
        fun b hb => ?_, fun c hc hap => ?_, ?_, fun a hle hlt => ?_⟩
      · have hfront : s.front (r :: rest) = r.addr := rfl
        have hptr' : ((s.setSize nb.addr ((nb.size + r.size) % 2 ^ 32)).mem p.addr).ptr =
            r.addr := by
          simp only [State.setSize]
          rw [update_of_ne (Nat.ne_of_lt hp), hptr, hfront]
        rw [hfront, hr]
        dsimp only
        rw [hptr']
        simp only [State.setSize, State.setPtr, update_of_ne hne,
          update_self, hrptr, update_idem, Nat.mod_eq_of_lt hsum]
      · simp only [total_cons]
        omega
      · have hrb := (List.pairwise_cons.mp (List.pairwise_cons.mp hsorted).2).1 b hb
        unfold Block.stop at hadj' hrb ⊢
        dsimp only
        unfold UNIT at *
        omega
      · have h1 := hap nb List.mem_cons_self
        have h2 := hap r (by simp)
        unfold Block.Apart Block.stop UNIT at *
        dsimp only
        omega
      · have := hrw.2.2
        have hpos := hnb.1
        refine ⟨by dsimp only; omega, hnb.2.1, ?_⟩
        unfold Block.stop UNIT at *
        dsimp only at *
        omega
      · by_cases hin : a < nb.stop
        · exact ⟨nb, List.mem_cons_self, hle, hin⟩
        · refine ⟨r, by simp, by omega, ?_⟩
          unfold Block.stop UNIT at *
          dsimp only at *
          omega
  · rw [if_neg hadj]
    refine ⟨nb, rest, ?_, rfl, le_rfl, rfl, List.suffix_rfl, fun b hb => ?_,
      fun c _ hap => hap nb List.mem_cons_self, hnb, covered_of_mem List.mem_cons_self⟩
    · simp only [State.setPtr, hsize]
    · -- the first of `rest` is not adjacent, and the others are behind it
      cases rest with
      | nil => cases hb
      | cons r rest =>
        have hne : nb.stop ≠ r.addr := hadj
        have hle := hnext r List.mem_cons_self
        rcases List.mem_cons.mp hb with rfl | hb
        · omega
        · have hrb := (List.pairwise_cons.mp (List.pairwise_cons.mp hsorted).2).1 b hb
          have hstop : r.addr ≤ r.stop := Nat.le_add_right _ _
          omega

theorem joinPrev {hdr : Header} {mem : Nat → Header}
    (hmem : s.mem = update mem nb.addr hdr) (hsize : (mem p.addr).size = p.size)
    (hne : p.addr ≠ nb.addr) (hsmall : p.size + hdr.size < 2 ^ 32) :
    (s.joinPrev p.addr nb.addr).mem = update s.mem p.addr
      (if p.stop = nb.addr then ⟨hdr.ptr, p.size + hdr.size⟩ else ⟨nb.addr, p.size⟩) := by
  have hp : s.mem p.addr = mem p.addr := by rw [hmem, update_of_ne hne]
  have hnb : s.mem nb.addr = hdr := by rw [hmem, update_self]
  unfold State.joinPrev Block.stop
  rw [hp, hsize, hnb]
  split
  · simp only [State.setSize, State.setPtr, update_of_ne (Ne.symm hne),
      update_self, update_idem, hnb, Nat.mod_eq_of_lt hsmall]
  · simp only [State.setPtr, hp, hsize]

/-- `free` has written the headers of `p` and `nb` only. -/
structure Relinked (s s' : State) (p nb : Block) : Prop where
  base : s'.base = s.base
  top : s'.top = s.top
  units : s'.units = s.units
  freep : s'.freep = p.addr
  mem : ∀ a, a ≠ p.addr → a ≠ nb.addr → s'.mem a = s.mem a

variable {s' : State}

theorem Relinked.ring (hr : Relinked s s' p nb) (h : Heap s (init ++ p :: rest) (nb :: others))
    (hp : p.addr < nb.addr) (hrest : ∀ b ∈ rest, nb.addr < b.addr) (hsuffix : rest' <:+ rest) :
    ∀ b ∈ init ++ rest', s'.mem b.addr = s.mem b.addr := by
  intro b hb
  rcases List.mem_append.mp hb with hb | hb
  · have hlt := h.before b hb
    unfold Block.stop at hlt
    exact hr.mem _ (by omega) (by omega)
  · have hlt := hrest b (hsuffix.subset hb)
    exact hr.mem _ (by omega) (by omega)

theorem Relinked.kept (hr : Relinked s s' p nb) (h : Heap s (init ++ p :: rest) (nb :: others)) :
    ∀ c ∈ others, s'.mem c.addr = s.mem c.addr := by
  intro c hc
  have hapart := (List.pairwise_cons.mp h.apart).1 c hc
  exact hr.mem _ (h.addr_ne (by simp) (List.mem_cons_of_mem _ hc)).symm (hapart.addr_ne
    (h.within.2 nb List.mem_cons_self).1 (h.within.2 c (List.mem_cons_of_mem _ hc)).1).symm

theorem Relinked.sizes (hr : Relinked s s' p nb) (h : Heap s (init ++ p :: rest) (nb :: others)) :
    ∀ c ∈ others, (s'.mem c.addr).size = c.size := by
  intro c hc
  rw [hr.kept h c hc, h.sizes c (by simp [hc])]

/-- The other blocks of the heap are apart from what is left of the ring and from the joined
block. -/
theorem Joined.apart (hj : Joined s nb rest nb' rest')
    (h : Heap s (init ++ p :: rest) (nb :: others)) :
    ∀ c ∈ others, (∀ b ∈ init ++ rest', b.Apart c) ∧ p.Apart c ∧ nb'.Apart c := by
  intro c hc
  have haway : ∀ b ∈ init ++ p :: rest, b.Apart c :=
    fun b hb => h.away b hb c (List.mem_cons_of_mem _ hc)
  refine ⟨fun b hb => haway b ?_, haway p (by simp), ?_⟩
  · rcases List.mem_append.mp hb with hb | hb
    · simp [hb]
    · simp [hj.suffix.subset hb]
  · refine hj.away c (h.within.2 c (List.mem_cons_of_mem _ hc)).1 fun b hb => ?_
    rcases List.mem_cons.mp hb with rfl | hb
    · exact (List.pairwise_cons.mp h.apart).1 c hc
    · exact haway b (by simp [hb])

theorem Joined.all_covered (hj : Joined s nb rest nb' rest') :
    (∀ b ∈ init ++ p :: rest', Covered (nb :: (init ++ p :: rest)) b) ∧
    Covered (nb :: (init ++ p :: rest)) nb' := by
  refine ⟨fun b hb => covered_of_mem ?_, hj.covered.trans fun c hc => covered_of_mem ?_⟩
  · rcases List.mem_append.mp hb with hb | hb
    · simp [hb]
    · rcases List.mem_cons.mp hb with rfl | hb
      · simp
      · simp [hj.suffix.subset hb]
  · rcases List.mem_cons.mp hc with rfl | hc
    · exact List.mem_cons_self
    · simp [hc]

/-- The blocks of the ring are made of `ns` and `nb`, and one of them has the room of `nb`. -/
def Absorbed (s' : State) (nb : Block) (ns others : List Block) : Prop :=
  ∃ ns', Heap s' ns' others ∧ (∃ b ∈ ns', nb.size ≤ b.size) ∧ ns'.length ≤ ns.length + 1 ∧
    ∀ b ∈ ns', Covered (nb :: ns) b

theorem relink_adjacent (h : Heap s (init ++ p :: rest) (nb :: others)) (hp : p.addr < nb.addr)
    (hrest : ∀ b ∈ rest, nb.addr < b.addr) (hj : Joined s nb rest nb' rest')
    (hr : Relinked s s' p nb) (hadj : p.stop = nb.addr)
    (hmem : s'.mem p.addr = ⟨s.front rest', p.size + nb'.size⟩) :
    Absorbed s' nb (init ++ p :: rest) others := by
  -- `p` is not the static header
  have hpw : s.Within p := by
    refine (h.within.1 p (by simp)).resolve_left ?_
    rintro rfl
    have := (h.within.2 nb List.mem_cons_self).2.1
    unfold State.root Block.stop UNIT at *
    dsimp only at *
    omega
  have haddr := hj.addr
  have hpos := hj.within.1
  have hlen := hj.suffix.length_le
  have htotal := h.units
  have hjunits := hj.units
  simp only [total_append, total_cons] at htotal hjunits
  obtain ⟨hcovered, hnbcovered⟩ := @Joined.all_covered s init rest p nb nb' rest' hj
  refine ⟨_, h.splice [⟨p.addr, p.size + nb'.size⟩] hj.suffix hr.base hr.top
    (hr.ring h hp hrest hj.suffix) rfl ?_
    (List.isChain_pair.mpr (congrArg Header.ptr hmem)) (List.pairwise_singleton _ _) ?_ ?_
    (List.pairwise_cons.mp h.apart).2 ?_ ⟨?_, fun b hb => h.within.2 b (List.mem_cons_of_mem _ hb)⟩
      ?_ ?_,
    ⟨⟨p.addr, p.size + nb'.size⟩, by simp, Nat.le_add_left_of_le hj.size⟩, by simp; omega, ?_⟩
  · rintro rfl
    exact absurd hpw.1 (Nat.lt_irrefl 0)
  · intro b hb c hc
    rw [List.mem_singleton.mp hb]
    have := hj.gap c hc
    unfold Block.stop UNIT at *
    dsimp only
    omega
  · intro b hb
    rcases List.mem_cons.mp hb with rfl | hb
    · exact congrArg Header.size hmem
    · exact hr.sizes h b hb
  · intro c hc
    obtain ⟨hring, h1, h2⟩ := hj.apart h c hc
    refine ⟨hring, fun b hb => ?_⟩
    rw [List.mem_singleton.mp hb]
    have h3 := (h.within.2 c (List.mem_cons_of_mem _ hc)).1
    unfold Block.Apart Block.stop UNIT at *
    dsimp only
    omega
  · intro b hb
    rw [List.mem_singleton.mp hb]
    refine .inr ⟨by dsimp only; omega, hpw.2.1, ?_⟩
    have := hj.within.2.2
    unfold Block.stop UNIT at *
    dsimp only
    omega
  · rw [hr.freep]
    simp
  · rw [hr.units]
    simp only [total_append, total_cons, total_nil]
    omega
  · intro b hb
    simp only [List.append_assoc, List.cons_append, List.nil_append, List.mem_append,
      List.mem_cons] at hb
    rcases hb with hb | rfl | hb
    · exact hcovered b (by simp [hb])
    · intro a hle hlt
      by_cases hin : a < p.stop
      · exact hcovered p (by simp) a hle hin
      · refine hnbcovered a (by omega) ?_
        unfold Block.stop UNIT at *
        dsimp only at *
        omega
    · exact hcovered b (by simp [hb])

theorem relink_behind (h : Heap s (init ++ p :: rest) (nb :: others)) (hp : p.addr < nb.addr)
    (hrest : ∀ b ∈ rest, nb.addr < b.addr) (hj : Joined s nb rest nb' rest')
    (hr : Relinked s s' p nb) (hadj : p.stop ≠ nb.addr) (hmp : s'.mem p.addr = ⟨nb.addr, p.size⟩)
    (hmnb : s'.mem nb'.addr = ⟨s.front rest', nb'.size⟩) :
    Absorbed s' nb (init ++ p :: rest) others := by
  obtain ⟨hpn, -⟩ := h.around hp hrest
  have haddr := hj.addr
  have hlen := hj.suffix.length_le
  have htotal := h.units
  have hjunits := hj.units
  simp only [total_append, total_cons] at htotal hjunits
  obtain ⟨hcovered, hnbcovered⟩ := @Joined.all_covered s init rest p nb nb' rest' hj
  refine ⟨_, h.splice [p, nb'] hj.suffix hr.base hr.top (hr.ring h hp hrest hj.suffix) rfl
    ?_ ?_ ?_ ?_ ?_
    (List.pairwise_cons.mp h.apart).2 ?_ ⟨?_, fun b hb => h.within.2 b (List.mem_cons_of_mem _ hb)⟩
      ?_ ?_,
    ⟨nb', by simp, hj.size⟩, by simp; omega, ?_⟩
  · rintro rfl
    rfl
  · refine List.isChain_cons_cons.mpr ⟨?_, List.isChain_pair.mpr (congrArg Header.ptr hmnb)⟩
    dsimp only
    rw [hmp, haddr]
  · refine List.pairwise_pair.mpr ?_
    rw [haddr]
    omega
  · intro b hb c hc
    rcases List.mem_cons.mp hb with rfl | hb
    · exact h.after c (hj.suffix.subset hc)
    · rw [List.mem_singleton.mp hb]
      exact hj.gap c hc
  · intro b hb
    simp only [List.cons_append, List.nil_append, List.mem_cons] at hb
    rcases hb with rfl | rfl | hb
    · rw [hmp]
    · rw [hmnb]
    · exact hr.sizes h b hb
  · intro c hc
    obtain ⟨hring, h1, h2⟩ := hj.apart h c hc
    refine ⟨hring, fun b hb => ?_⟩
    rcases List.mem_cons.mp hb with rfl | hb
    · exact h1
    · rw [List.mem_singleton.mp hb]
      exact h2
  · intro b hb
    rcases List.mem_cons.mp hb with rfl | hb
    · exact h.within.1 b (by simp)
    · rw [List.mem_singleton.mp hb]
      exact .inr hj.within
  · rw [hr.freep]
    simp
  · rw [hr.units]
    simp only [total_append, total_cons, total_nil]
    omega
  · intro b hb
    simp only [List.append_assoc, List.cons_append, List.nil_append, List.mem_append,
      List.mem_cons] at hb
    rcases hb with hb | rfl | rfl | hb
    · exact hcovered b (by simp [hb])
    · exact hcovered b (by simp)
    · exact hnbcovered
    · exact hcovered b (by simp [hb])

/-- What `free` leaves of the ring: the block is in its place, joined on both sides. -/
theorem relink (h : Heap s (init ++ p :: rest) (nb :: others)) (hp : p.addr < nb.addr)
    (hrest : ∀ b ∈ rest, nb.addr < b.addr) (hj : Joined s nb rest nb' rest') (s' : State)
    (hbase : s'.base = s.base) (htop : s'.top = s.top) (hunits : s'.units = s.units)
    (hfreep : s'.freep = p.addr)
    (hmem : s'.mem = update (update s.mem nb.addr ⟨s.front rest', nb'.size⟩)
      p.addr
      (if p.stop = nb.addr then ⟨s.front rest', p.size + nb'.size⟩ else ⟨nb.addr, p.size⟩)) :
    Absorbed s' nb (init ++ p :: rest) others ∧ ∀ c ∈ others, s'.mem c.addr = s.mem c.addr := by
  have hr : Relinked s s' p nb := by
    refine ⟨hbase, htop, hunits, hfreep, fun a hap han => ?_⟩
    rw [hmem, update_of_ne hap, update_of_ne han]
  have hmp : s'.mem p.addr = if p.stop = nb.addr then ⟨s.front rest', p.size + nb'.size⟩
      else ⟨nb.addr, p.size⟩ := by
    rw [hmem, update_self]
  refine ⟨?_, hr.kept h⟩
  by_cases hadj : p.stop = nb.addr
  · exact h.relink_adjacent hp hrest hj hr hadj (hmp.trans (if_pos hadj))
  · refine h.relink_behind hp hrest hj hr hadj (hmp.trans (if_neg hadj)) ?_
    rw [hj.addr, hmem, update_of_ne (Nat.ne_of_gt hp), update_self]

theorem length_le (h : Heap s ns others) : ns.length ≤ s.units + 1 := by
  have hunits := h.units
  have hwithin := h.within.1
  have hsorted := h.sorted
  obtain ⟨l, rfl⟩ := List.head?_eq_some_iff.mp h.first
  have hpos : ∀ b ∈ l, 1 ≤ b.size := fun b hb => by
    rcases hwithin b (List.mem_cons_of_mem _ hb) with rfl | hw
    · have := (List.pairwise_cons.mp hsorted).1 _ hb
      unfold Block.stop at this
      omega
    · exact hw.1
  have hlen : l.length ≤ total l := by
    have := List.length_le_sum_of_one_le (l.map Block.size) (by simpa using hpos)
    rwa [List.length_map] at this
  simp only [List.cons_append, total_cons, total_append] at hunits
  rw [List.length_cons]
  omega

theorem free (h : Heap s ns (nb :: others)) (hsmall : s.units < 2 ^ 32) :
    ∃ s' ns', s.free nb.addr = some s' ∧ Heap s' ns' others ∧ (∃ b ∈ ns', nb.size ≤ b.size) ∧
      ns'.length ≤ ns.length + 1 ∧ (∀ b ∈ ns', Covered (nb :: ns) b) ∧ Frame s s' others ∧
      s'.units = s.units := by
  have hnb := h.within.2 nb List.mem_cons_self
  have hlt : s.base < nb.addr := by
    have := hnb.2.1
    unfold UNIT at this
    omega
  obtain ⟨init, p, rest, rfl, hp, hrest⟩ := h.place hlt fun b hb => h.addr_ne hb List.mem_cons_self
  have hfind := h.findPrev_eq hlt hp hrest (s.units + 2) (h.length_le.trans (by omega))
  obtain ⟨nb', rest', hnext, hj⟩ := h.joinNext hsmall hp hrest
  have hsum : p.size + nb'.size < 2 ^ 32 := by
    have h1 := h.units
    have h2 := hj.units
    simp only [total_append, total_cons] at h1 h2
    omega
  have hprev := joinPrev (s := s.joinNext p.addr nb.addr) (congrArg State.mem hnext)
    (h.sizes p (by simp)) (Nat.ne_of_lt hp) hsum
  have hsame : ∀ (t : State) x y, (t.joinPrev x y).base = t.base ∧ (t.joinPrev x y).top = t.top ∧
      (t.joinPrev x y).units = t.units ∧ (t.joinPrev x y).live = t.live := fun t x y => by
    unfold State.joinPrev
    split <;> exact ⟨rfl, rfl, rfl, rfl⟩
  obtain ⟨hb, ht, hu, hl⟩ := hsame (s.joinNext p.addr nb.addr) p.addr nb.addr
  obtain ⟨⟨ns', hheap, hroom, hlen, hcovered⟩, hkeep⟩ := h.relink hp hrest hj
    { (s.joinNext p.addr nb.addr).joinPrev p.addr nb.addr with freep := p.addr }
    (hb.trans (by rw [hnext])) (ht.trans (by rw [hnext])) (hu.trans (by rw [hnext])) rfl
    (hprev.trans (by rw [hnext]))
  refine ⟨_, ns', ?_, hheap, hroom, hlen, hcovered,
    ⟨hb.trans (by rw [hnext]), (ht.trans (by rw [hnext])).ge,
    hl.trans (by rw [hnext]), hkeep⟩, hu.trans (by rw [hnext])⟩
  unfold State.free
  rw [hfind]
  rfl

end Heap

end Xv6.Malloc
