import Xv6.Malloc.Allocator

/-! # Runs of a program that allocates

The allocations and the free blocks share the memory that `sbrk` has returned, as long as its
size in units is a value of `uint`.
-/

namespace Xv6.Malloc

open Lib

variable {s s' : State} {ns : List Block}

def Live.block (x : Live) : Block := ⟨x.addr, x.header.size⟩

/-- The header is as `malloc` left it, and there is room for the bytes asked for. -/
def State.Serves (s : State) (x : Live) : Prop :=
  s.mem x.addr = x.header ∧ x.bytes ≤ UNIT * (x.header.size - 1)

/-- The free list before the first call, or the one of all blocks that are not allocated. -/
structure Managed (s : State) : Prop where
  base : 0 < s.base
  top : s.base + UNIT ≤ s.top
  small : s.units < 2 ^ 32
  heap : (s.freep = 0 ∧ s.live = [] ∧ s.units = 0) ∨ ∃ ns, Heap s ns (s.live.map Live.block)
  live : ∀ x ∈ s.live, s.Serves x

/-- `sbrk` refuses what would bring the memory to `2 ^ 32` units. -/
def Granted (s : State) : Action → Prop
  | .malloc nbytes sbrk => sbrk 0 = none ∨ s.units + max (nunits nbytes) 4096 < 2 ^ 32
  | _ => True

instance (s : State) (a : Action) : Decidable (Granted s a) := by
  cases a <;> unfold Granted <;> infer_instance

/-! ## `malloc` -/

theorem Heap.start (hfreep : s.freep = 0) (hunits : s.units = 0) : Heap s.start [s.root] [] := by
  unfold State.start
  rw [if_pos hfreep]
  refine ⟨rfl, List.isChain_pair.mpr ?_, List.pairwise_singleton _ _, fun b hb => ?_,
    List.Pairwise.nil,
    fun _ _ _ hc => (by cases hc),
    ⟨fun b hb => .inl (List.mem_singleton.mp hb), fun _ hc => (by cases hc)⟩,
    by simp [State.root], hunits.symm⟩
  · exact (congrArg Header.ptr (State.setSize_self _ _ _)).trans
      (congrArg Header.ptr (State.setPtr_self _ _ _))
  · rw [List.append_nil, List.mem_singleton] at hb
    rw [hb]
    exact congrArg Header.size (State.setSize_self _ _ _)

theorem malloc_start (hbase : 0 < s.base) (nbytes : UInt32) (sbrk : Nat → Option Nat) :
    malloc s.start nbytes sbrk = malloc s nbytes sbrk := by
  have hidem : s.start.start = s.start := by
    refine if_neg ?_
    unfold State.start
    split
    · exact Nat.ne_of_gt hbase
    · assumption
  unfold malloc
  rw [hidem]

theorem bytes_le (nbytes : UInt32) : nbytes.toNat ≤ UNIT * (nunits nbytes - 1) := by
  unfold nunits UNIT
  omega

/-- What `malloc` makes of the ring is managed, with the new allocation. -/
theorem Managed.after {a : Nat} {nbytes : UInt32} {live : List Live} (hbase : 0 < s'.base)
    (htop : s'.base + UNIT ≤ s'.top) (hsmall : s'.units < 2 ^ 32) (hlive : s'.live = live)
    (hserves : ∀ x ∈ live, s'.Serves x) (hheap : a = 0 ∧ Heap s' ns (live.map Live.block) ∨
      Heap s' ns (⟨a, nunits nbytes⟩ :: live.map Live.block)) :
    Managed (if a = 0 then s' else { s' with live := s'.live ++ [⟨a, s'.mem a, nbytes.toNat⟩] })
    := by
  rcases hheap with ⟨rfl, hheap⟩ | hheap
  · rw [if_pos rfl]
    exact ⟨hbase, htop, hsmall, .inr ⟨ns, hlive ▸ hheap⟩, hlive ▸ hserves⟩
  · have hw := hheap.within.2 _ List.mem_cons_self
    have hsize : (s'.mem a).size = nunits nbytes := hheap.sizes ⟨a, nunits nbytes⟩ (by simp)
    have hne : a ≠ 0 := by
      have hle : s'.base + UNIT ≤ a := hw.2.1
      omega
    rw [if_neg hne]
    refine ⟨hbase, htop, hsmall, .inr ⟨ns, ?_⟩, fun x hx => ?_⟩
    · have hblock : (⟨a, s'.mem a, nbytes.toNat⟩ : Live).block = ⟨a, nunits nbytes⟩ := by
        rw [Live.block, hsize]
      have hperm : ((⟨a, nunits nbytes⟩ : Block) :: live.map Live.block).Perm
          ((s'.live ++ [(⟨a, s'.mem a, nbytes.toNat⟩ : Live)]).map Live.block) := by
        rw [hlive, List.map_append, List.map_singleton, hblock]
        exact (List.perm_append_singleton _ _).symm
      have hheap' := hheap.perm hperm
      exact ⟨hheap'.first, hheap'.ring, hheap'.sorted, hheap'.sizes, hheap'.apart, hheap'.away,
        hheap'.within, hheap'.freep, hheap'.units⟩
    · rcases List.mem_append.mp hx with hx | hx
      · exact hserves x (hlive ▸ hx)
      · rw [List.mem_singleton.mp hx]
        refine ⟨rfl, ?_⟩
        rw [hsize]
        exact bytes_le nbytes

theorem Managed.malloc (h : Managed s) {nbytes : UInt32} {sbrk : Nat → Option Nat}
    (hok : Granted s (.malloc nbytes sbrk)) :
    (step s (.malloc nbytes sbrk)).Sat (fun _ => False) Managed := by
  -- before the first call, `malloc` starts from the ring of the static header alone
  obtain ⟨t, hmalloc, hlive, hserves, ⟨ns, hheap⟩, hbase, htop, hunits⟩ : ∃ t : State,
      Malloc.malloc t nbytes sbrk = Malloc.malloc s nbytes sbrk ∧ t.live = s.live ∧
      (∀ x ∈ s.live, t.Serves x) ∧
      (∃ ns, Heap t ns (s.live.map Live.block)) ∧ 0 < t.base ∧ t.base + UNIT ≤ t.top ∧
          t.units = s.units := by
    rcases h.heap with ⟨hfreep, hlive, hunits⟩ | hheap
    · have hsame : s.start.live = s.live ∧ s.start.base = s.base ∧ s.start.top = s.top ∧
          s.start.units = s.units := by
        unfold State.start
        split <;> exact ⟨rfl, rfl, rfl, rfl⟩
      refine ⟨s.start, malloc_start h.base nbytes sbrk, hsame.1, ?_, ⟨[s.root], ?_⟩, ?_,
        ?_, hsame.2.2.2⟩
      · rw [hlive]
        exact fun _ hx => by cases hx
      · rw [hlive]
        exact Heap.start hfreep hunits
      · rw [hsame.2.1]
        exact h.base
      · rw [hsame.2.1, hsame.2.2.1]
        exact h.top
    · exact ⟨s, rfl, rfl, h.live, hheap, h.base, h.top, rfl⟩
  have hsmall : sbrk 0 = none ∨ t.units + max (nunits nbytes) 4096 < 2 ^ 32 := hunits ▸ hok
  obtain ⟨s', a, ns', heq, hframe, hsmall', hheap'⟩ :=
    hheap.malloc hbase htop (hunits ▸ h.small) hsmall
  unfold step
  dsimp only
  rw [← hmalloc, heq]
  refine .next (Managed.after (hframe.base ▸ hbase) ?_ hsmall' (hframe.live.trans hlive)
    (fun x hx => ?_) hheap')
  · rw [hframe.base]
    exact htop.trans hframe.top
  · obtain ⟨hmem, hbytes⟩ := hserves x hx
    exact ⟨(hframe.mem _ (List.mem_map_of_mem hx)).trans hmem, hbytes⟩

/-! ## `free` and the program's own writes -/

theorem find_live {ap : Nat} {x : Live} (hx : s.live.find? (fun x => x.addr + UNIT = ap) = some x) :
    x ∈ s.live ∧ x.addr + UNIT = ap :=
  ⟨List.mem_of_find?_eq_some hx, by simpa using List.find?_some hx⟩

theorem Heap.front {x : Live} (h : Heap s ns (s.live.map Live.block)) (hx : x ∈ s.live) :
    Heap s ns (x.block :: (s.live.erase x).map Live.block) :=
  h.perm ((List.perm_cons_erase hx).map Live.block)

theorem Managed.free (h : Managed s) (ap : Nat) :
    (step s (.free ap)).Sat (fun _ => False) Managed := by
  unfold step
  dsimp only
  split
  · exact .blocked
  · rename_i x hx
    obtain ⟨hx, -⟩ := find_live hx
    obtain ⟨-, hlive, -⟩ | ⟨ns, hheap⟩ := h.heap
    · rw [hlive] at hx
      cases hx
    · have hf := hheap.front hx
      have hf' : Heap { s with live := s.live.erase x } ns
          (x.block :: (s.live.erase x).map Live.block) :=
        ⟨hf.first, hf.ring, hf.sorted, hf.sizes, hf.apart, hf.away, hf.within, hf.freep, hf.units⟩
      obtain ⟨s', ns', heq, hheap', -, -, -, hframe, hunits⟩ := hf'.free h.small
      have heq' : ({ s with live := s.live.erase x } : State).free x.addr = some s' := heq
      rw [heq']
      refine .next ⟨hframe.base ▸ h.base, ?_, hunits ▸ h.small, .inr ⟨ns', ?_⟩, fun y hy => ?_⟩
      · rw [hframe.base]
        exact h.top.trans hframe.top
      · rw [hframe.live]
        exact hheap'
      · rw [hframe.live] at hy
        obtain ⟨hmem, hbytes⟩ := h.live y (List.mem_of_mem_erase hy)
        exact ⟨(hframe.mem _ (List.mem_map_of_mem hy)).trans hmem, hbytes⟩

theorem Heap.header_out (h : Heap s ns (s.live.map Live.block)) {x : Live}
    (hx : x ∈ s.live) {b : Block} (hb : b ∈ ns ++ s.live.map Live.block) :
    ¬(x.addr + UNIT < b.addr + UNIT ∧ b.addr < x.addr + UNIT * x.header.size) := by
  have hfront := h.front hx
  have hxw := hfront.within.2 _ List.mem_cons_self
  have hcase : b = s.root ∨ b = x.block ∨ 0 < b.size ∧ x.block.Apart b := by
    rcases List.mem_append.mp hb with hb | hb
    · rcases hfront.within.1 b hb with rfl | hw
      · exact .inl rfl
      · exact .inr (.inr ⟨hw.1, (hfront.away b hb _ List.mem_cons_self).symm⟩)
    · rcases List.mem_cons.mp (((List.perm_cons_erase hx).map Live.block).mem_iff.mp hb)
        with rfl | hb
      · exact .inr (.inl rfl)
      · exact .inr (.inr ⟨(hfront.within.2 b (List.mem_cons_of_mem _ hb)).1,
          (List.pairwise_cons.mp hfront.apart).1 b hb⟩)
  rcases hcase with rfl | rfl | ⟨hpos, hapart⟩
  · have hle : s.base + UNIT ≤ x.addr := hxw.2.1
    unfold State.root UNIT at *
    dsimp only
    omega
  · intro hlt
    exact absurd hlt.1 (Nat.lt_irrefl _)
  · unfold Block.Apart Block.stop Live.block UNIT at *
    dsimp only at *
    omega

theorem Managed.write (h : Managed s) (ap : Nat) (f : Nat → Header) :
    (step s (.write ap f)).Sat (fun _ => False) Managed := by
  unfold step
  dsimp only
  split
  · exact .blocked
  · rename_i x hfind
    obtain ⟨hx, rfl⟩ := find_live hfind
    obtain ⟨-, hlive, -⟩ | ⟨ns, hheap⟩ := h.heap
    · rw [hlive] at hx
      cases hx
    · have hkeep : ∀ b ∈ ns ++ s.live.map Live.block,
          (if x.addr + UNIT < b.addr + UNIT ∧ b.addr < x.addr + UNIT * x.header.size then f b.addr
            else s.mem b.addr) = s.mem b.addr := fun b hb => if_neg (hheap.header_out hx hb)
      refine .next ⟨h.base, h.top, h.small,
        .inr ⟨ns, hheap.first, ?_, hheap.sorted, fun b hb => ?_, hheap.apart, hheap.away,
        hheap.within, hheap.freep, hheap.units⟩, fun y hy => ?_⟩
      · refine hheap.ring.congr fun a ha => ?_
        obtain ⟨b, hb, rfl⟩ := List.mem_map.mp ha
        exact congrArg Header.ptr (hkeep b (List.mem_append_left _ hb))
      · exact (congrArg Header.size (hkeep b hb)).trans (hheap.sizes b hb)
      · obtain ⟨hmem, hbytes⟩ := h.live y hy
        exact ⟨(hkeep y.block (List.mem_append_right _ (List.mem_map_of_mem hy))).trans hmem,
          hbytes⟩

/-! ## Runs -/

theorem Managed.step (h : Managed s) (a : Action) (hok : Granted s a) :
    (step s a).Sat (fun _ => False) Managed := by
  cases a with
  | malloc nbytes sbrk => exact h.malloc hok
  | free ap => exact h.free ap
  | write ap f => exact h.write ap f

theorem Managed.started (h : Started s) : Managed s :=
  ⟨h.2.2.2.1, h.2.2.2.2, by rw [h.2.2.1]; decide, .inl ⟨h.1, h.2.1, h.2.2.1⟩,
    by rw [h.2.1]; exact fun _ hx => by cases hx⟩

/-- Both calls end, and leave the free list in the order of the addresses, no two of its blocks
adjacent, and apart from the allocations. -/
theorem allocator_manages_heap (s : State) (hreach : Reach step Granted Started s) :
    Managed s ∧ ∀ a, Granted s a → ∀ f, step s a ≠ .fault f := by
  have h : Managed s :=
    hreach.invariant (fun _ => Managed.started) fun _ a _ hs hok hstep =>
      (hs.step a hok).of_next hstep
  exact ⟨h, fun a hok f hf => (h.step a hok).of_fault hf⟩

def fresh : State := ⟨fun _ => ⟨0, 0⟩, 4096, 0, 8192, [], 0⟩

theorem fresh_started : Started fresh := ⟨rfl, rfl, rfl, by decide, by decide⟩

/-- Three allocations; the middle one is freed, the first one is filled, and the freed block is
cut for a fourth. -/
def mixedRun : List Action :=
  [.malloc 100 (fun _ => some 0), .malloc 200 (fun _ => none), .malloc 300 (fun _ => none),
    .free 73392, .write 73616 (fun _ => ⟨7, 7⟩), .malloc 16 (fun _ => none)]

theorem allocator_manages_heap_mixedRun : ∃ s : State, Reach step Granted Started s ∧
    s.live.map Live.block = [⟨73600, 8⟩, ⟨73056, 20⟩, ⟨73568, 2⟩] ∧ Managed s := by
  have hrun : ((exec step fresh mixedRun).next?.map fun s => s.live.map Live.block) =
      some [⟨73600, 8⟩, ⟨73056, 20⟩, ⟨73568, 2⟩] := by
    decide +kernel
  have hguard : Guarded step Granted fresh mixedRun := by decide +kernel
  obtain ⟨s, hs, heq⟩ := Option.map_eq_some_iff.mp hrun
  have hreach := Reach.of_exec (.start fresh_started) hguard (Outcome.next?_eq_some.mp hs)
  exact ⟨s, hreach, heq, (allocator_manages_heap s hreach).1⟩

/-- Thirty-three allocations of `2 ^ 27 - 1` units each, freed in the order of their addresses. -/
def wrapRun : List Action :=
  List.replicate 33 (.malloc 2147483616 fun _ => some 0) ++
    (List.range 33).map fun k => .free (8208 + k * 2147483632)

/-- The free blocks have been joined to one whose size has wrapped. -/
theorem wrapped_size_loses_units : ∃ s : State, Reach step (fun _ _ => True) Started s ∧
    s.freep ≠ 0 ∧ s.live = [] ∧ ¬∃ ns, Heap s ns (s.live.map Live.block) := by
  have hrun : ((exec step fresh wrapRun).next?.map fun s =>
      (s.live, s.freep, s.base, (s.mem 4096).ptr, s.mem 8192, s.units)) =
        some ([], 8192, 4096, 8192, ⟨4096, 134217695⟩, 4429184991) := by
    decide +kernel
  obtain ⟨s, hs, heq⟩ := Option.map_eq_some_iff.mp hrun
  simp only [Prod.mk.injEq] at heq
  obtain ⟨hlive, hfreep, hbase, hroot, hblock, hunits⟩ := heq
  refine ⟨s, Reach.of_exec (.start fresh_started) (Guarded.of_forall (fun _ _ => trivial) _ _)
    (Outcome.next?_eq_some.mp hs), by rw [hfreep]; decide, hlive, ?_⟩
  rintro ⟨ns, h⟩
  rw [hlive] at h
  -- the ring is the static header and one block, which is too small
  obtain ⟨l, rfl⟩ := List.head?_eq_some_iff.mp h.first
  have hnil : Heap s ([] ++ s.root :: l) [] := h
  have hnext : (s.mem s.base).ptr = s.front l := hnil.ring_split.2.1
  rw [hbase, hroot] at hnext
  have hsorted := h.sorted
  have htotal := h.units
  cases l with
  | nil =>
    have : 8192 = s.base := hnext
    omega
  | cons b l =>
    have hb : b.addr = 8192 := hnext.symm
    have hone : Heap s ([s.root] ++ b :: l) [] := h
    have hlast := hone.ring_split.2.1
    rw [hb, hblock] at hlast
    cases l with
    | nil =>
      have hsize := h.sizes b (by simp)
      rw [hb, hblock] at hsize
      have hsum : s.root.size + (b.size + 0) = s.units := htotal
      have hzero : s.root.size = 0 := rfl
      dsimp only at hsize
      omega
    | cons c l =>
      have hc : (4096 : Nat) = c.addr := hlast
      have hlt : s.base < c.addr := (List.pairwise_cons.mp hsorted).1 c (by simp)
      omega

end Xv6.Malloc
