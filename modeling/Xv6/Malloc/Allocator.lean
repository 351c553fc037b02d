import Xv6.Malloc.FreeList

/-! # Allocation

`malloc` takes the first block that has room, in the order of the ring behind `freep`, and asks
for more memory when it has been through the ring once. In every run the free blocks are one
ring in the order of their addresses and share no byte with the allocations.
-/

namespace Xv6.Malloc

open Lib

variable {s : State} {ns others init rest : List Block} {x y nb : Block} {n : Nat}

namespace Heap

theorem perm {others' : List Block} (h : Heap s ns others) (hperm : others.Perm others') :
    Heap s ns others' := by
  refine ⟨h.first, h.ring, h.sorted, fun b hb => h.sizes b ?_, ?_,
    fun b hb c hc => h.away b hb c ?_,
    ⟨h.within.1, fun b hb => h.within.2 b (hperm.mem_iff.mpr hb)⟩, h.freep, ?_⟩
  · rw [List.mem_append] at hb ⊢
    exact hb.imp_right hperm.mem_iff.mpr
  · exact h.apart.perm hperm fun hab => hab.symm
  · exact hperm.mem_iff.mpr hc
  · rw [← h.units, total_append, total_append]
    exact congrArg _ (hperm.map Block.size).sum_eq.symm

theorem addrs_nodup (h : Heap s ns others) : (ns.map Block.addr).Nodup := by
  refine List.pairwise_map.mpr (h.sorted.imp fun {a b} hab => ?_)
  unfold Block.stop at hab
  omega

theorem freep_ne_zero (h : Heap s ns others) (hbase : 0 < s.base) : s.freep ≠ 0 := by
  obtain ⟨b, hb, heq⟩ := List.mem_map.mp h.freep
  have := h.base_le hb
  omega

/-! ## Taking a block -/

theorem behind (h : Heap s ns others) (hy : y ∈ ns) (hx : x ∈ ns) (hne : x.addr ≠ s.base)
    (hptr : (s.mem y.addr).ptr = x.addr) : ∃ init rest, ns = init ++ y :: x :: rest := by
  obtain ⟨init, rest, rfl⟩ := List.append_of_mem hy
  rw [h.ring_split.2.1] at hptr
  cases rest with
  | nil => exact absurd hptr.symm hne
  | cons d rest =>
    have hdx : d = x := List.inj_on_of_nodup_map h.addrs_nodup (by simp) hx hptr
    exact ⟨init, rest, by rw [hdx]⟩

/-- The block `nb` has been taken from the ring, and the other allocations are as they were. -/
structure Taken (s s' : State) (ns others : List Block) (nb : Block) : Prop where
  heap : ∃ ns', Heap s' ns' (nb :: others) ∧ ∀ b ∈ nb :: ns', Covered ns b
  frame : Frame s s' others
  units : s'.units = s.units

theorem take_whole (h : Heap s (init ++ y :: x :: rest) others) (hpos : 0 < x.size) :
    Taken s { s.setPtr y.addr (s.mem x.addr).ptr with freep := y.addr }
    (init ++ y :: x :: rest) others x := by
  have h' := h
  rw [List.append_cons] at h'
  have hxw : s.Within x := (h.within.1 x (by simp)).resolve_left fun hx => by
    rw [hx] at hpos
    exact absurd hpos (Nat.lt_irrefl 0)
  have hself : (s.setPtr y.addr (s.mem x.addr).ptr).mem y.addr =
      ⟨s.front rest, (s.mem y.addr).size⟩ := by
    rw [State.setPtr_self, h'.ring_split.2.1]
  have hyx : y.addr < x.addr := (Nat.le_add_right _ _).trans_lt (h.after x List.mem_cons_self)
  have htotal := h.units
  simp only [total_append, total_cons] at htotal
  refine ⟨⟨_, h.splice [y] ⟨[x], rfl⟩ rfl rfl (fun b hb => ?_) rfl (fun hy => by rw [hy]; rfl)
    (List.isChain_pair.mpr (congrArg Header.ptr hself)) (List.pairwise_singleton _ _)
      (fun b hb c hc => ?_)
    (fun b hb => ?_) (List.pairwise_cons.mpr ⟨h.away x (by simp), h.apart⟩) (fun c hc => ?_)
    ⟨fun b hb => ?_, fun b hb => ?_⟩ (by simp) ?_, fun b hb => ?_⟩,
    ⟨rfl, le_rfl, rfl, fun c hc => s.setPtr_ne _ (h.addr_ne (by simp) hc).symm⟩, rfl⟩
  · refine s.setPtr_ne _ ?_
    rcases List.mem_append.mp hb with hb | hb
    · have := h.before b hb
      unfold Block.stop at this
      omega
    · have := h.after b (List.mem_cons_of_mem _ hb)
      unfold Block.stop at this
      omega
  · rw [List.mem_singleton.mp hb]
    exact h.after c (List.mem_cons_of_mem _ hc)
  · simp only [List.cons_append, List.nil_append, List.mem_cons] at hb
    rcases hb with rfl | rfl | hb
    · exact (congrArg Header.size hself).trans (h.sizes b (by simp))
    · exact (congrArg Header.size (s.setPtr_ne _ (Nat.ne_of_gt hyx))).trans (h.sizes b (by simp))
    · exact (congrArg Header.size (s.setPtr_ne _ (h.addr_ne (by simp) hb).symm)).trans
        (h.sizes b (by simp [hb]))
  · rcases List.mem_cons.mp hc with rfl | hc
    · refine ⟨fun b hb => ?_, fun b hb => ?_⟩
      · rcases List.mem_append.mp hb with hb | hb
        · exact .inl (h'.before b (List.mem_append_left _ hb)).le
        · exact .inr (h'.after b hb).le
      · rw [List.mem_singleton.mp hb]
        exact .inl (h.after c List.mem_cons_self).le
    · refine ⟨fun b hb => h.away b ?_ c hc, fun b hb => h.away b ?_ c hc⟩
      · rcases List.mem_append.mp hb with hb | hb <;> simp [hb]
      · simp [List.mem_singleton.mp hb]
  · exact h.within.1 b (by simp [List.mem_singleton.mp hb])
  · rcases List.mem_cons.mp hb with rfl | hb
    · exact hxw
    · exact h.within.2 b hb
  · simp only [total_append, total_cons, total_nil]
    change _ = s.units
    omega
  · refine covered_of_mem ?_
    simp only [List.append_assoc, List.cons_append, List.nil_append, List.mem_append,
      List.mem_cons] at hb ⊢
    tauto

theorem take_end (h : Heap s (init ++ y :: x :: rest) others) (hn : 0 < n)
    (hlt : n < x.size) {a : Nat} (ha : a = x.addr + UNIT * (x.size - n)) :
    Taken s { (s.setSize x.addr (x.size - n)).setSize a n with freep := y.addr }
    (init ++ y :: x :: rest) others
      ⟨a, n⟩ := by
  have hin : x.addr < a ∧ a + UNIT * n = x.stop := by
    unfold Block.stop UNIT at *
    omega
  have hkeep : ∀ c, c ≠ x.addr → c ≠ a → ((s.setSize x.addr (x.size - n)).setSize a n).mem c =
      s.mem c :=
    fun c hcx hca => by rw [State.setSize_ne _ _ hca, State.setSize_ne _ _ hcx]
  have hself : ((s.setSize x.addr (x.size - n)).setSize a n).mem x.addr =
      ⟨(s.mem x.addr).ptr, x.size - n⟩ := by
    rw [State.setSize_ne _ _ (Nat.ne_of_lt hin.1), State.setSize_self]
  have hnew : (((s.setSize x.addr (x.size - n)).setSize a n).mem a).size = n := by
    rw [State.setSize_self]
  have hstop : (⟨x.addr, x.size - n⟩ : Block).stop = a := ha.symm
  rw [List.append_cons] at h
  have hxw : s.Within x := (h.within.1 x (by simp)).resolve_left fun hx => by
    rw [hx] at hlt
    exact absurd hlt (Nat.not_lt_zero n)
  have hkothers : ∀ c ∈ others, c.addr ≠ x.addr ∧ c.addr ≠ a := fun c hc => by
    have hpos := (h.within.2 c hc).1
    have := h.away x (by simp) c hc
    refine ⟨(h.addr_ne (by simp) hc).symm, ?_⟩
    unfold Block.Apart at this
    unfold Block.stop UNIT at *
    omega
  -- what is inside `x` is apart from what `x` is apart from
  have hapart : ∀ b c : Block, x.addr ≤ b.addr → b.stop ≤ x.stop → x.Apart c → b.Apart c :=
      fun b c hle hle' h => by
    unfold Block.Apart at *
    exact h.imp hle'.trans fun hc => hc.trans hle
  have hcovered : ∀ b : Block, x.addr ≤ b.addr → b.stop ≤ x.stop →
      Covered (init ++ y :: x :: rest) b :=
    fun b hle hstop a ha ha' => ⟨x, by simp, hle.trans ha, ha'.trans_le hstop⟩
  have hfront : (⟨x.addr, x.size - n⟩ : Block).stop ≤ x.stop := by
    rw [hstop]
    omega
  have htotal := h.units
  simp only [total_append, total_cons, total_nil] at htotal
  refine ⟨⟨_, h.splice [⟨x.addr, x.size - n⟩] List.suffix_rfl rfl rfl (fun b hb => ?_) rfl
    (fun hx => ?_)
    (List.isChain_pair.mpr ((congrArg Header.ptr hself).trans h.ring_split.2.1))
      (List.pairwise_singleton _ _)
    (fun b hb c hc => ?_) (fun b hb => ?_) (List.pairwise_cons.mpr ⟨fun c hc => ?_, h.apart⟩)
      (fun c hc => ?_)
    ⟨fun b hb => ?_, fun b hb => ?_⟩ (by simp) ?_, fun b hb => ?_⟩,
    ⟨rfl, le_rfl, rfl, fun c hc => hkeep _ (hkothers c hc).1 (hkothers c hc).2⟩, rfl⟩
  · have hne : b.stop < x.addr ∨ x.stop < b.addr :=
      (List.mem_append.mp hb).imp (h.before b) (h.after b)
    have := hin.2
    unfold Block.stop UNIT at *
    exact hkeep _ (by omega) (by omega)
  · rw [hx] at hxw
    exact absurd hxw.1 (Nat.lt_irrefl 0)
  · rw [List.mem_singleton.mp hb]
    exact hfront.trans_lt (h.after c hc)
  · simp only [List.cons_append, List.nil_append, List.mem_cons] at hb
    rcases hb with rfl | rfl | hb
    · exact congrArg Header.size hself
    · exact hnew
    · exact (congrArg Header.size (hkeep _ (hkothers b hb).1 (hkothers b hb).2)).trans
        (h.sizes b (by simp [hb]))
  · exact hapart ⟨a, n⟩ c hin.1.le hin.2.le (h.away x (by simp) c hc)
  · rcases List.mem_cons.mp hc with rfl | hc
    · refine ⟨fun b hb => ?_, fun b hb => ?_⟩
      · rcases List.mem_append.mp hb with hb | hb
        · exact .inl ((h.before b hb).trans hin.1).le
        · exact .inr (hin.2.trans_le (h.after b hb).le)
      · rw [List.mem_singleton.mp hb]
        exact .inl hstop.le
    · refine ⟨fun b hb => h.away b ?_ c hc, fun b hb => ?_⟩
      · rcases List.mem_append.mp hb with hb | hb
        · exact List.mem_append_left _ hb
        · simp [hb]
      · rw [List.mem_singleton.mp hb]
        exact hapart _ c le_rfl hfront (h.away x (by simp) c hc)
  · rw [List.mem_singleton.mp hb]
    exact .inr ⟨Nat.sub_pos_of_lt hlt, hxw.2.1, hfront.trans hxw.2.2⟩
  · rcases List.mem_cons.mp hb with rfl | hb
    · exact ⟨hn, hxw.2.1.trans hin.1.le, hin.2.le.trans hxw.2.2⟩
    · exact h.within.2 b hb
  · simp only [total_append, total_cons, total_nil]
    change _ = s.units
    omega
  · simp only [List.append_assoc, List.cons_append, List.nil_append, List.mem_append,
      List.mem_cons] at hb
    rcases hb with rfl | hb | rfl | rfl | hb
    · exact hcovered _ hin.1.le hin.2.le
    · exact covered_of_mem (by simp [hb])
    · exact covered_of_mem (by simp)
    · exact hcovered _ le_rfl hfront
    · exact covered_of_mem (by simp [hb])

theorem take (h : Heap s (init ++ y :: x :: rest) others) (hn : 0 < n) (hroom : n ≤ x.size) :
    Taken s (s.take n y.addr x.addr).1 (init ++ y :: x :: rest) others
    ⟨(s.take n y.addr x.addr).2, n⟩ := by
  unfold State.take
  rw [h.sizes x (by simp)]
  by_cases hfit : x.size = n
  · rw [if_pos hfit, ← hfit]
    exact h.take_whole (hfit ▸ hn)
  · rw [if_neg hfit]
    refine h.take_end hn (by omega) ?_
    rw [State.setSize_self]

/-! ## The loop -/

/-- One round of `malloc` through the ring: it takes the first block with room, which is one of the
ring, or comes to `freep` again. -/
theorem search {β : Type} {take : State × Nat → β} {more : Nat → β} {loop : Nat → Nat → Nat → β}
    (h : Heap s ns others) (hn : 0 < n)
    (hloop : RoundLoop (fun a => (s.mem a).ptr) (fun a => n ≤ (s.mem a).size) s.freep
      (fun y x => take (s.take n y x)) more loop) (fuel : Nat) :
    (∃ s' a ns', loop (ns.length + fuel) s.freep (s.mem s.freep).ptr = take (s', a) ∧
      (∃ b ∈ ns, n ≤ b.size) ∧
        Heap s' ns' (⟨a, n⟩ :: others) ∧ (∀ b ∈ ⟨a, n⟩ :: ns', Covered ns b) ∧ Frame s s' others ∧
        s'.units = s.units) ∨
      (∀ b ∈ ns, b.size < n) ∧ loop (ns.length + fuel) s.freep (s.mem s.freep).ptr = more fuel := by
  obtain ⟨l, hring, hperm⟩ := h.from_freep
  have hlen : ns.length = l.length + 1 := by
    have := hperm.length_eq
    rw [List.length_map, List.length_cons] at this
    exact this.symm
  have hnodup := List.nodup_cons.mp (hperm.nodup_iff.mpr h.addrs_nodup)
  have hblock : ∀ a ∈ l ++ [s.freep], ∃ b ∈ ns, b.addr = a := fun a ha => by
    refine List.mem_map.mp (hperm.mem_iff.mp ?_)
    rw [List.mem_append, List.mem_singleton] at ha
    exact List.mem_cons.mpr ha.symm
  rw [hlen]
  rcases hloop.round hring hnodup.1 fuel with ⟨y, hy, x, hx, hptr, hroom, heq⟩ | ⟨hnone, heq⟩
  · obtain ⟨y, hymem, rfl⟩ := List.mem_map.mp (hperm.mem_iff.mp hy)
    obtain ⟨x, hxmem, rfl⟩ := hblock x hx
    rw [h.sizes x (by simp [hxmem])] at hroom
    have hne : x.addr ≠ s.base := by
      rcases h.within.1 x hxmem with rfl | hw
      · exact absurd (hn.trans_le hroom) (Nat.lt_irrefl 0)
      · have := hw.2.1
        unfold UNIT at this
        omega
    obtain ⟨init, rest, rfl⟩ := h.behind hymem hxmem hne hptr
    obtain ⟨⟨ns', hheap, hcovered⟩, hframe, hunits⟩ := h.take hn hroom
    exact .inl ⟨_, _, ns', heq, ⟨x, hxmem, hroom⟩, hheap, hcovered, hframe, hunits⟩
  · refine .inr ⟨fun b hb => ?_, heq⟩
    have hmem := hperm.mem_iff.mpr (List.mem_map_of_mem hb)
    rw [← h.sizes b (by simp [hb])]
    refine Nat.lt_of_not_le (hnone _ ?_)
    rw [List.mem_append, List.mem_singleton]
    exact (List.mem_cons.mp hmem).symm

def afterRound (s : State) (n : Nat) (sbrk : Nat → Option Nat) (k fuel : Nat) :
    Option (State × Nat) :=
  match s.morecore n (sbrk k) with
  | none => none
  | some (s, p) =>
    if p = 0 then some (s, 0) else State.mallocLoop n sbrk fuel s (k + 1) p (s.mem p).ptr

theorem mallocLoop_roundLoop (s : State) (n : Nat) (sbrk : Nat → Option Nat) (k : Nat) :
    RoundLoop (fun a => (s.mem a).ptr) (fun a => n ≤ (s.mem a).size) s.freep
    (fun y x => some (s.take n y x))
      (afterRound s n sbrk k) fun fuel => State.mallocLoop n sbrk fuel s k where
  found _ _ _ hroom := if_pos hroom
  around _ _ hroom := (if_neg hroom).trans (if_pos rfl)
  ahead _ _ _ hroom hne := (if_neg hroom).trans (if_neg hne)

theorem grow (h : Heap s ns others) (htop : s.base + UNIT ≤ s.top) (hpos : 0 < n) (gap : Nat) :
    let s' := { s with top := s.top + gap + UNIT * n, units := s.units + n }.setSize (s.top + gap) n
    Heap s' ns (⟨s.top + gap, n⟩ :: others) ∧ Frame s s' others := by
  have hbelow : ∀ b ∈ ns ++ others, b.addr < s.top + gap ∧ b.stop ≤ s.top + gap := fun b hb => by
    have hb' : b = s.root ∨ s.Within b := by
      rcases List.mem_append.mp hb with hb | hb
      · exact h.within.1 b hb
      · exact .inr (h.within.2 b hb)
    rcases hb' with rfl | hw
    · unfold State.root Block.stop UNIT at *
      dsimp only
      omega
    · obtain ⟨h1, -, h3⟩ := hw
      unfold Block.stop UNIT at *
      omega
  intro s'
  have hkeep : ∀ b ∈ ns ++ others, s'.mem b.addr = s.mem b.addr := fun b hb =>
    State.setSize_ne _ _ (Nat.ne_of_lt (hbelow b hb).1)
  have hwithin : ∀ b, s.Within b → s'.Within b := fun b hb => by
    refine ⟨hb.1, hb.2.1, hb.2.2.trans ?_⟩
    change s.top ≤ s.top + gap + UNIT * n
    omega
  refine ⟨⟨h.first, ?_, h.sorted, fun b hb => ?_, ?_, fun b hb c hc => ?_,
    ⟨fun b hb => ?_, fun b hb => ?_⟩, h.freep, ?_⟩,
    rfl, by dsimp only [s', State.setSize]; omega, rfl,
    fun c hc => hkeep c (List.mem_append_right _ hc)⟩
  · refine h.ring.congr fun a ha => ?_
    obtain ⟨b, hb, rfl⟩ := List.mem_map.mp ha
    rw [hkeep b (List.mem_append_left _ hb)]
  · by_cases hold : b ∈ ns ++ others
    · rw [hkeep b hold, h.sizes b hold]
    · have hnew : b = ⟨s.top + gap, n⟩ := by
        rw [List.mem_append, List.mem_cons] at hb
        rw [List.mem_append] at hold
        tauto
      rw [hnew]
      exact congrArg Header.size (State.setSize_self _ _ _)
  · exact List.pairwise_cons.mpr ⟨fun c hc => .inr (hbelow c (List.mem_append_right _ hc)).2,
      h.apart⟩
  · rcases List.mem_cons.mp hc with rfl | hc
    · exact .inl (hbelow b (List.mem_append_left _ hb)).2
    · exact h.away b hb c hc
  · exact (h.within.1 b hb).imp_right (hwithin b)
  · rcases List.mem_cons.mp hb with rfl | hb
    · refine ⟨hpos, ?_, le_rfl⟩
      change s.base + UNIT ≤ s.top + gap
      omega
    · exact hwithin b (h.within.2 b hb)
  · change _ = s.units + n
    rw [← h.units]
    simp only [total_append, total_cons]
    omega

/-- `morecore` where `sbrk` grants the request: the ring has room for `n` units. -/
theorem morecore (h : Heap s ns others) (htop : s.base + UNIT ≤ s.top)
    (hsmall : s.units + max n 4096 < 2 ^ 32) (gap : Nat) :
    ∃ s' ns', s.morecore n (some gap) = some (s', s'.freep) ∧ Heap s' ns' others ∧
      (∃ b ∈ ns', n ≤ b.size) ∧ ns'.length ≤ ns.length + 1 ∧
      (∀ b ∈ ns', Covered (⟨s.top + gap, max n 4096⟩ :: ns) b) ∧ Frame s s' others ∧
      s'.units = s.units + max n 4096 := by
  have hnu : (if n < 4096 then 4096 else n) = max n 4096 := by
    split <;> omega
  have hpos : 0 < max n 4096 := by omega
  obtain ⟨hgrow, hframe₁⟩ := h.grow htop hpos gap
  obtain ⟨s', ns', heq, hheap, ⟨b, hb, hsize⟩, hlen, hcovered, hframe₂, hunits⟩ := hgrow.free hsmall
  refine ⟨s', ns', ?_, hheap, ⟨b, hb, (Nat.le_max_left _ _).trans hsize⟩, hlen, hcovered,
    hframe₁.trans hframe₂, hunits⟩
  unfold State.morecore
  dsimp only at heq ⊢
  rw [hnu, heq]
  rfl

end Heap

/-! ## The calls -/

theorem nunits_pos (nbytes : UInt32) : 0 < nunits nbytes := Nat.succ_pos _

/-- `malloc` ends: it returns 0, or a block of the size asked for that belongs to nobody else. -/
theorem Heap.malloc (h : Heap s ns others) (hbase : 0 < s.base) (htop : s.base + UNIT ≤ s.top)
    (hunits : s.units < 2 ^ 32) {nbytes : UInt32} {sbrk : Nat → Option Nat}
    (hsmall : sbrk 0 = none ∨ s.units + max (nunits nbytes) 4096 < 2 ^ 32) :
    ∃ s' a ns', malloc s nbytes sbrk = some (s', a) ∧ Frame s s' others ∧ s'.units < 2 ^ 32 ∧
      (a = 0 ∧ Heap s' ns' others ∨ Heap s' ns' (⟨a, nunits nbytes⟩ :: others)) := by
  have hstart : s.start = s := if_neg (h.freep_ne_zero hbase)
  have hpos := nunits_pos nbytes
  unfold Malloc.malloc
  rw [hstart]
  dsimp only
  obtain ⟨f, hfuel, hrest⟩ : ∃ f, 2 * s.units + 8 = ns.length + f ∧ ns.length + 1 ≤ f :=
    ⟨2 * s.units + 8 - ns.length, by have := h.length_le; omega, by have := h.length_le; omega⟩
  rw [hfuel]
  rcases h.search hpos (mallocLoop_roundLoop s _ sbrk 0) f with
    ⟨s', a, ns', heq, -, hheap, -, hframe, hsame⟩ | ⟨-, heq⟩
  · exact ⟨s', a, ns', heq, hframe, hsame ▸ hunits, .inr hheap⟩
  · unfold afterRound at heq
    cases hsbrk : sbrk 0 with
    | none =>
      refine ⟨s, 0, ns, ?_, ⟨rfl, le_rfl, rfl, fun _ _ => rfl⟩, hunits, .inl ⟨rfl, h⟩⟩
      rw [heq, hsbrk]
      rfl
    | some gap =>
      have hsmall := hsmall.resolve_left (by simp [hsbrk])
      obtain ⟨s₁, ns₁, hmore, hheap₁, ⟨b, hb, hroom⟩, hlen, -, hframe₁, hunits₁⟩ :=
        h.morecore htop hsmall gap
      have hne : s₁.freep ≠ 0 := hheap₁.freep_ne_zero (hframe₁.base ▸ hbase)
      rw [hsbrk, hmore] at heq
      dsimp only at heq
      rw [if_neg hne] at heq
      obtain ⟨f', rfl⟩ : ∃ f', f = ns₁.length + f' := ⟨f - ns₁.length, by omega⟩
      rcases hheap₁.search hpos (mallocLoop_roundLoop s₁ _ sbrk 1) f' with
        ⟨s', a, ns', heq', -, hheap, -, hframe, hsame⟩ | ⟨hnone, -⟩
      · refine ⟨s', a, ns', heq.trans heq', hframe₁.trans hframe, ?_, .inr hheap⟩
        rw [hsame, hunits₁]
        exact hsmall
      · exact absurd (hnone b hb) (Nat.not_lt.mpr hroom)

end Xv6.Malloc
