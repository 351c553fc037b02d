import Mathlib.Data.UInt
import Xv6.Kernel.Sbrk
import Xv6.Malloc.Runs
import Xv6.Vm.UserCopy

/-! # The allocator and the break

`malloc` in a process of the kernel: `morecore` passes a number of bytes to `sbrk`, whose parameter
is an `int`, and takes what it returns for as many bytes of new memory. For every request it is
decided whether the memory that `malloc` returns has been granted.
-/

namespace Xv6.Malloc

open Lib Vm Kernel

/-- A process with its allocator. `granted` are the bytes that calls of `sbrk` have given to it; no
code reads it. -/
structure Process where
  heap : State
  km : Kmem
  proc : Proc
  granted : Nat → Prop

/-- `malloc` does not return. -/
inductive Stop where
  | panic (e : Kernel.Panic)
  /-- a store faults, and the kernel kills the process or lets it fault again -/
  | pageFault
  | endless

/-- The byte at `a` is on a user page with `PTE_W`. -/
def stores (pt : PageTable) (a : Nat) : Bool :=
  decide (a < MAXVA) &&
    match pt.leaf (a / PGSIZE) with
    | some pte => pte.perm.u && pte.perm.w
    | none => false

/-- The two words of a header at `hp` can be stored, at once or after a page fault, which the kernel
serves below the break only; `served` says whether it does. -/
def canStore (p : Proc) (served : Bool) (hp : Nat) : Bool :=
  stores p.pagetable hp && stores p.pagetable (hp + 11) || served && decide (hp + 11 < p.sz)

namespace Process

/-- The process after a call of `sbrk`. What is granted are the bytes from the old to the new break;
none remain above the new one. -/
def sbrk (pr : Process) (km : Kmem) (proc : Proc) : Process :=
  { pr with
    km := km, proc := proc, granted := fun a => (pr.granted a ∨ pr.proc.sz ≤ a) ∧ a < proc.sz }

def morecore (pr : Process) (nu : Nat) (served : Bool) : Outcome Stop (Process × Nat) :=
  let nu := if nu < 4096 then 4096 else nu
  match sysSbrk pr.km pr.proc (UNIT * nu) with
  | .error e => .fault (.panic e)
  | .ok (p, km, proc) =>
    let pr := pr.sbrk km proc
    if p = 2 ^ 64 - 1 then .next (pr, 0)
    else if canStore proc served p then
      match (State.setSize { pr.heap with top := p + UNIT * nu, units := pr.heap.units + nu } p
        nu).free p with
      | none => .fault .endless
      | some s => .next ({ pr with heap := s }, s.freep)
    else .fault .pageFault

def found (pr : Process) (x : State × Nat) : Outcome Stop (Process × Nat) :=
  .next ({ pr with heap := x.1 }, x.2)

/-- The loop of `malloc`. The headers that it reads and writes otherwise are in memory granted
before. -/
def mallocLoop (nunits : Nat) (served : Bool) :
    Nat → Process → Nat → Nat → Outcome Stop (Process × Nat)
  | 0, _, _, _ => .fault .endless
  | fuel + 1, pr, prevp, p =>
    if nunits ≤ (pr.heap.mem p).size then pr.found (pr.heap.take nunits prevp p)
    else if p = pr.heap.freep then
      match pr.morecore nunits served with
      | .next (pr, p) =>
      if p = 0 then .next (pr, 0) else mallocLoop nunits served fuel pr p (pr.heap.mem p).ptr
      | .fault e => .fault e
      | .blocked => .blocked
    else mallocLoop nunits served fuel pr p (pr.heap.mem p).ptr

def malloc (pr : Process) (nbytes : UInt32) (served : Bool) : Outcome Stop (Process × Nat) :=
  let pr := { pr with heap := pr.heap.start }
  mallocLoop (nunits nbytes) served (2 * pr.heap.units + 8) pr pr.heap.freep
    (pr.heap.mem pr.heap.freep).ptr

/-- The allocator has nothing but memory that has been granted. -/
structure Sound (pr : Process) : Prop where
  base : 0 < pr.heap.base
  base_le : pr.heap.base + UNIT ≤ pr.heap.top
  units_le : UNIT * pr.heap.units ≤ pr.heap.top
  top_le : pr.heap.top ≤ pr.proc.sz
  sz_lt : pr.proc.sz < 2 ^ 32
  below : ∀ a, pr.granted a → a < pr.proc.sz
  heap : ∃ ns, Heap pr.heap.start ns (pr.heap.live.map Live.block) ∧
    ∀ b, b ∈ ns ++ pr.heap.live.map Live.block → ∀ a, b.addr ≤ a → a < b.stop → pr.granted a

end Process

/-- The increment that `morecore` asks `sbrk` for, after the conversion to an `int`. -/
def increment (nbytes : UInt32) : Int := argint (UNIT * max (nunits nbytes) 4096)

/-- The states and requests for which `malloc` does what it should. -/
inductive Process.SafeRequest (pr : Process) (nbytes : UInt32) (served : Bool) : Prop
  /-- a free block is large enough -/
  | room (h : ∀ ns, Heap pr.heap.start ns (pr.heap.live.map Live.block) →
      ∃ b, b ∈ ns ∧ nunits nbytes ≤ b.size)
  /-- the increment is an `int`, the break is below `2 ^ 31`, no page is mapped where the break will
  be moved, and a header can be stored at the break -/
  | below (hsmall : nbytes.toNat ≤ 2 ^ 31 - 32) (hsz : pr.proc.sz < 2 ^ 31)
      (hclear : ∀ v, npages pr.proc.sz ≤ v → v < npages (pr.proc.sz + increment nbytes).toNat →
        pr.proc.pagetable.leaf v = none)
      (hstore : pr.proc.sz % PGSIZE = 0 ∨ stores pr.proc.pagetable pr.proc.sz = true ∨
        served = true)
  /-- memory runs out at page `f`, before a page is met that is mapped -/
  | nomem (f : Nat) (hn : 0 < increment nbytes) (hwrap : pr.proc.sz + increment nbytes < 2 ^ 32)
      (hge : npages pr.proc.sz ≤ f) (hlt : f < npages (pr.proc.sz + increment nbytes).toNat)
      (hfails : FailsAt (growPlan (npages pr.proc.sz)) pr.proc.pagetable pr.km f)
      (hclear : ∀ w, npages pr.proc.sz ≤ w → w < f → pr.proc.pagetable.leaf w = none)
  /-- the old break as an `int` is -1 -/
  | top (hsz : pr.proc.sz = 2 ^ 32 - 1) (hn : 0 ≤ increment nbytes)

/-! ## `sbrk` -/

section

variable {km : Kmem} {p : Proc} {pt : PageTable} {n : Int}

/-- How `sbrk(n)` ends in a process whose break is a `uint`. -/
inductive SbrkEnd (km : Kmem) (p : Proc) (n : Int) : Except Kernel.Panic (Nat × Kmem × Proc) → Prop
  | grown {km' : Kmem} {p' : Proc} (hn : 0 < n) (hwrap : p.sz + n < 2 ^ 32)
      (hsz : (p'.sz : Int) = p.sz + n)
      (h : Filling (growPlan (npages p.sz)) p.pagetable km (npages (p.sz + n).toNat) km'
        p'.pagetable) :
      SbrkEnd km p n (.ok (u64 (int32 p.sz), km', p'))
  | remap {e : Kernel.Panic} {v : Nat} (hn : 0 < n) (hwrap : p.sz + n < 2 ^ 32)
      (hge : npages p.sz ≤ v) (hlt : v < npages (p.sz + n).toNat) (hnew : p.pagetable.leaf v ≠ none)
      (henough : demand (growPlan (npages p.sz)) p.pagetable (v + 1) ≤ km.free.length) :
      SbrkEnd km p n (.error e)
  | nomem {f : Nat} {km' : Kmem} {p' : Proc} (hn : 0 < n) (hwrap : p.sz + n < 2 ^ 32)
      (hge : npages p.sz ≤ f) (hlt : f < npages (p.sz + n).toNat)
      (hfails : FailsAt (growPlan (npages p.sz)) p.pagetable km f)
      (hclear : ∀ w, npages p.sz ≤ w → w < f → p.pagetable.leaf w = none) (hsz : p'.sz = p.sz) :
      SbrkEnd km p n (.ok (2 ^ 64 - 1, km', p'))
  /-- the new break wraps, or is the old one -/
  | same {km' : Kmem} {p' : Proc} (hn : n = 0 ∨ 2 ^ 32 ≤ p.sz + n ∨ p.sz + n < 0)
      (hsz : p'.sz = p.sz) : SbrkEnd km p n (.ok (u64 (int32 p.sz), km', p'))
  | shrunk {km' : Kmem} {p' : Proc} (hn : n < 0) (hsz : (p'.sz : Int) = p.sz + n) :
      SbrkEnd km p n (.ok (u64 (int32 p.sz), km', p'))
  | stuck {e : Kernel.Panic} (hn : n < 0) : SbrkEnd km p n (.error e)

theorem sysSbrk_end (r : Nat) (hsz : p.sz < 2 ^ 32) : SbrkEnd km p (argint r) (sysSbrk km p r) := by
  have hrange : -2 ^ 31 ≤ argint r ∧ argint r < 2 ^ 31 := int32_range r
  have hcut : p.sz % 2 ^ 32 = p.sz := Nat.mod_eq_of_lt hsz
  rcases lt_trichotomy (argint r) 0 with hn | hn | hn
  · by_cases hwrap : 0 ≤ p.sz + argint r
    · have hshrink := growproc_shrink km p hn (by rwa [hcut])
      rw [hcut] at hshrink
      cases hx : uvmunmap km p.pagetable (npages ((p.sz : Int) + argint r).toNat * PGSIZE)
          (npages p.sz - npages ((p.sz : Int) + argint r).toNat) true with
      | error e =>
        rw [hx] at hshrink
        rw [sysSbrk_of_error hshrink]
        exact .stuck hn
      | ok x =>
        rw [hx] at hshrink
        rw [sysSbrk_of_ok hshrink, if_pos rfl]
        exact .shrunk hn (Int.toNat_of_nonneg hwrap)
    · obtain ⟨p', hgrow, -, hp'⟩ := growproc_below km p hn hrange.1 (by rw [hcut]; omega)
      rw [sysSbrk_of_ok hgrow, if_pos rfl]
      exact .same (.inr (.inr (by omega))) (hp'.trans hcut)
  · have hgrow : growproc km p (argint r) = .ok (true, km, { p with sz := p.sz % 2 ^ 32 }) := by
      rw [hn]
      exact growproc_zero km p
    rw [sysSbrk_of_ok hgrow, if_pos rfl]
    exact .same (.inl hn) hcut
  · by_cases hwrap : p.sz + argint r < 2 ^ 32
    · have hgrown : GrowEnd p.pagetable km p.sz ((p.sz : Int) + argint r).toNat
          (uvmalloc km p.pagetable p.sz ((p.sz : Int) + argint r).toNat) :=
            uvmalloc_grown (by omega) (by omega)
      have hgrow := growproc_grow km p hn (by rwa [hcut])
      rw [hcut] at hgrow
      generalize uvmalloc km p.pagetable p.sz ((p.sz : Int) + argint r).toNat = x at hgrown hgrow
      cases hgrown with
      | done h =>
        rw [sysSbrk_of_ok (hgrow.trans (if_neg (by omega))), if_pos rfl]
        exact .grown hn hwrap (Int.toNat_of_nonneg (by omega)) h
      | remap hge hlt hnew henough =>
        rw [sysSbrk_of_error hgrow]
        exact .remap hn hwrap hge hlt hnew henough
      | @nomem f km' pt' hge hlt hfails hclear hleaf hkept =>
        have hfailed : growproc km p (argint r) = .ok (false, km', { p with pagetable := pt' }) :=
          hgrow
        rw [sysSbrk_of_ok hfailed, if_neg Bool.false_ne_true]
        exact .nomem hn hwrap hge hlt hfails hclear rfl
    · obtain ⟨p', hgrow, -, hp'⟩ := growproc_wrap km p hn hrange.2 (by rw [hcut]; omega)
      rw [sysSbrk_of_ok hgrow, if_pos rfl]
      exact .same (.inr (.inl (by omega))) (hp'.trans hcut)

/-- What `sbrk` returns and where it leaves a break that is a `uint`. -/
structure SbrkResult (sz : Nat) (n : Int) (ret sz' : Nat) : Prop where
  value : ret = 2 ^ 64 - 1 ∧ sz' = sz ∨ ret = u64 (int32 sz)
  grown : 0 < n → ret ≠ 2 ^ 64 - 1 → sz + n < 2 ^ 32 → (sz' : Int) = sz + n
  le : (sz' : Int) ≤ sz + max n 0
  ge : 0 ≤ n → sz ≤ sz'

theorem SbrkEnd.result {ret : Nat} {km' : Kmem} {p' : Proc}
    (h : SbrkEnd km p n (.ok (ret, km', p'))) : SbrkResult p.sz n ret p'.sz := by
  cases h with
  | grown hn hwrap hsz _ => exact ⟨.inr rfl, fun _ _ _ => hsz, by omega, fun _ => by omega⟩
  | nomem hn hwrap _ _ _ _ hsz =>
    exact ⟨.inl ⟨rfl, hsz⟩, fun _ h => absurd rfl h, by omega, fun _ => hsz.ge⟩
  | same hn hsz => exact ⟨.inr rfl, fun _ _ _ => by omega, by omega, fun _ => hsz.ge⟩
  | shrunk hn hsz => exact ⟨.inr rfl, fun _ => by omega, by omega, fun _ => by omega⟩

/-- Growth that memory does not suffice for does not end otherwise. -/
theorem SbrkEnd.of_failsAt {x : Except Kernel.Panic (Nat × Kmem × Proc)} {f : Nat}
    (h : SbrkEnd km p n x) (hn : 0 < n) (hwrap : p.sz + n < 2 ^ 32)
    (hlt : f < npages (p.sz + n).toNat) (hfails : FailsAt (growPlan (npages p.sz)) p.pagetable km f)
    (hclear : ∀ w, npages p.sz ≤ w → w < f → p.pagetable.leaf w = none) :
    ∃ km' p', x = .ok (2 ^ 64 - 1, km', p') := by
  cases h with
  | grown _ _ _ h => exact absurd ((demand_mono hlt).trans h.enough) (Nat.not_le_of_lt hfails.short)
  | @remap _ v _ _ hge _ hnew henough =>
    by_cases hvf : v < f
    · exact absurd (hclear v hge hvf) hnew
    · exact absurd ((demand_mono (by omega)).trans henough) (Nat.not_le_of_lt hfails.short)
  | nomem => exact ⟨_, _, rfl⟩
  | same h _ => omega
  | shrunk h _ => omega
  | stuck h => omega

theorem stores_eq {pt pt' : PageTable} {a b : Nat} (ha : a < MAXVA) (hb : b < MAXVA)
    (hleaf : pt.leaf (a / PGSIZE) = pt'.leaf (b / PGSIZE)) : stores pt a = stores pt' b := by
  unfold stores
  rw [hleaf, decide_eq_true ha, decide_eq_true hb]

theorem stores_user {pt : PageTable} {a q : Nat} (ha : a < MAXVA)
    (hleaf : pt.leaf (a / PGSIZE) = some ⟨q, .user⟩) : stores pt a = true := by
  unfold stores
  rw [hleaf, decide_eq_true ha]
  rfl

/-- After growth a header can be stored at the old break if the page of the break is new, or could
be written before, or if page faults are served. -/
theorem canStore_grown {p' : Proc} {km' : Kmem} {served : Bool} (hn : PGSIZE ≤ n)
    (hwrap : p.sz + n < 2 ^ 32) (hsz : (p'.sz : Int) = p.sz + n)
    (h : Filling (growPlan (npages p.sz)) p.pagetable km (npages (p.sz + n).toNat) km'
      p'.pagetable) :
    canStore p' served p.sz = true ↔
      p.sz % PGSIZE = 0 ∨ stores p.pagetable p.sz = true ∨ served = true := by
  have hmax : p.sz + 11 < MAXVA := by
    unfold MAXVA
    unfold PGSIZE at hn
    omega
  have hnew : ∀ a, p.sz ≤ a → a < p.sz + n → npages p.sz ≤ a / PGSIZE → a < MAXVA →
      stores p'.pagetable a = true := by
    intro a _ hlt hge ha
    have hpage : a / PGSIZE < npages (p.sz + n).toNat := by
      unfold npages PGSIZE
      omega
    obtain ⟨q, -, hleaf⟩ := h.mapped _ _ hpage (growPlan_some hge)
    exact stores_user ha hleaf
  have hold : ∀ a, a < MAXVA → a / PGSIZE < npages p.sz → p.sz ≤ a →
      stores p'.pagetable a = stores p.pagetable p.sz := by
    intro a ha hlt hle
    refine stores_eq ha (by omega) ?_
    have hsame : a / PGSIZE = p.sz / PGSIZE := by
      unfold npages PGSIZE at hlt
      unfold PGSIZE
      omega
    rw [h.hole _ (.inr (growPlan_eq_none.mpr hlt)), hsame]
  have hserved : decide (p.sz + 11 < p'.sz) = true := by
    unfold PGSIZE at hn
    exact decide_eq_true (by omega)
  unfold PGSIZE at hn
  unfold canStore
  rw [hserved, Bool.and_true, Bool.or_eq_true, Bool.and_eq_true]
  by_cases hfirst : p.sz % PGSIZE = 0
  · have hge : npages p.sz ≤ p.sz / PGSIZE ∧ npages p.sz ≤ (p.sz + 11) / PGSIZE := by
      unfold npages PGSIZE at *
      omega
    refine iff_of_true (.inl ⟨?_, ?_⟩) (.inl hfirst)
    · exact hnew _ (Nat.le_refl _) (by omega) hge.1 (by omega)
    · exact hnew _ (Nat.le_add_right _ _) (by omega) hge.2 hmax
  · have hlt : p.sz / PGSIZE < npages p.sz := by
      unfold npages PGSIZE at *
      omega
    have hlast : stores p'.pagetable (p.sz + 11) = true ∨
        stores p'.pagetable (p.sz + 11) = stores p.pagetable p.sz := by
      by_cases hpage : (p.sz + 11) / PGSIZE < npages p.sz
      · exact .inr (hold _ hmax hpage (Nat.le_add_right _ _))
      · exact .inl (hnew _ (Nat.le_add_right _ _) (by omega) (by omega) hmax)
    rw [hold _ (by omega) hlt (Nat.le_refl _), or_iff_right hfirst]
    refine or_congr_left (and_iff_left_of_imp fun hstores => ?_)
    exact hlast.elim id fun heq => heq.trans hstores

end

namespace Process

variable {pr : Process} {km : Kmem} {proc : Proc} {ns others : List Block} {n p : Nat}
    {served : Bool}

def afterRound (pr : Process) (n : Nat) (served : Bool) (fuel : Nat) :
    Outcome Stop (Process × Nat) :=
  match pr.morecore n served with
  | .next (pr, p) =>
    if p = 0 then .next (pr, 0) else mallocLoop n served fuel pr p (pr.heap.mem p).ptr
  | .fault e => .fault e
  | .blocked => .blocked

theorem mallocLoop_roundLoop (pr : Process) (n : Nat) (served : Bool) :
    RoundLoop (fun a => (pr.heap.mem a).ptr) (fun a => n ≤ (pr.heap.mem a).size) pr.heap.freep
      (fun y x => pr.found (pr.heap.take n y x)) (pr.afterRound n served) fun fuel =>
      mallocLoop n served fuel pr where
  found _ _ _ hroom := if_pos hroom
  around _ _ hroom := (if_neg hroom).trans (if_pos rfl)
  ahead _ _ _ hroom hne := (if_neg hroom).trans (if_neg hne)

theorem search (h : Heap pr.heap ns others) (hn : 0 < n) (fuel : Nat) :
    (∃ s a ns', mallocLoop n served (ns.length + fuel) pr pr.heap.freep
      (pr.heap.mem pr.heap.freep).ptr =
        .next ({ pr with heap := s }, a) ∧ (∃ b ∈ ns, n ≤ b.size) ∧ Heap s ns' (⟨a, n⟩ :: others) ∧
        (∀ b ∈ ⟨a, n⟩ :: ns', Covered ns b) ∧ Frame pr.heap s others ∧ s.units = pr.heap.units) ∨
      (∀ b ∈ ns, b.size < n) ∧
        mallocLoop n served (ns.length + fuel) pr pr.heap.freep (pr.heap.mem pr.heap.freep).ptr =
          pr.afterRound n served fuel :=
  h.search hn (mallocLoop_roundLoop pr n served) fuel

/-- The process when `malloc` enters its loop. -/
def enter (pr : Process) : Process := { pr with heap := pr.heap.start }

/-- The argument of `sbrk` is the number of bytes that `morecore` wants. -/
theorem argint_small {nbytes : UInt32} (hsmall : nbytes.toNat ≤ 2 ^ 31 - 32) :
    argint (UNIT * max (nunits nbytes) 4096) = (UNIT * max (nunits nbytes) 4096 : Nat) ∧
      0 < argint (UNIT * max (nunits nbytes) 4096) ∧ argint (UNIT * max (nunits nbytes) 4096) <
      2 ^ 31 := by
  have hle : UNIT * max (nunits nbytes) 4096 < 2 ^ 31 := by
    unfold nunits UNIT
    omega
  have hpos : 0 < UNIT * max (nunits nbytes) 4096 := by
    unfold UNIT
    omega
  unfold argint
  rw [int32_of_range (by omega) (by omega)]
  omega

/-- A safe request that no free block has room for: `sbrk` refuses without a lower break, or gives
memory in which a header can be stored. -/
theorem SafeRequest.sbrk (h : pr.Sound) {nbytes : UInt32} (hsafe : pr.SafeRequest nbytes served)
    (hheap : Heap pr.heap.start ns (pr.heap.live.map Live.block))
    (hnone : ∀ b ∈ ns, b.size < nunits nbytes) : 0 ≤ increment nbytes ∧ ∃ p km proc,
      sysSbrk pr.km pr.proc (UNIT * max (nunits nbytes) 4096) = .ok (p, km, proc) ∧
      (p = 2 ^ 64 - 1 ∨ nbytes.toNat ≤ 2 ^ 31 - 32 ∧ canStore proc served p = true) := by
  have hend : SbrkEnd pr.km pr.proc (increment nbytes)
      (sysSbrk pr.km pr.proc (UNIT * max (nunits nbytes) 4096)) :=
    sysSbrk_end _ h.sz_lt
  obtain ⟨-, hlow, htop⟩ := sbrk_ret pr.proc.sz
  cases hsafe with
  | room hroom =>
    obtain ⟨b, hb, hsize⟩ := hroom ns hheap
    exact absurd (hnone b hb) (Nat.not_lt.mpr hsize)
  | below hsmall hsz hclear hstore =>
    obtain ⟨harg, hpos, hlt31⟩ := argint_small hsmall
    change increment nbytes = _ at harg
    change 0 < increment nbytes at hpos
    change increment nbytes < 2 ^ 31 at hlt31
    refine ⟨hpos.le, ?_⟩
    generalize sysSbrk pr.km pr.proc (UNIT * max (nunits nbytes) 4096) = x at hend
    cases hend with
    | grown hn hwrap hsz' hfill =>
      refine ⟨_, _, _, rfl, .inr ⟨hsmall, ?_⟩⟩
      have hpage : PGSIZE ≤ increment nbytes := by
        rw [harg]
        unfold PGSIZE UNIT
        omega
      rw [hlow hsz]
      exact (canStore_grown hpage hwrap hsz' hfill).mpr hstore
    | remap hn hwrap hge hlt hnew henough => exact absurd (hclear _ hge hlt) hnew
    | nomem => exact ⟨_, _, _, rfl, .inl rfl⟩
    | same hn _ => omega
    | shrunk hn _ => omega
    | stuck hn => omega
  | nomem f hn hwrap hge hlt hfails hclear =>
    obtain ⟨km, proc, heq⟩ := hend.of_failsAt hn hwrap hlt hfails hclear
    exact ⟨hn.le, _, km, proc, heq, .inl rfl⟩
  | top hsz hn =>
    refine ⟨hn, ?_⟩
    generalize sysSbrk pr.km pr.proc (UNIT * max (nunits nbytes) 4096) = x at hend
    cases hend with
    | same _ _ => exact ⟨_, _, _, rfl, .inl (htop.mpr (by omega))⟩
    | grown hpos hwrap => omega
    | remap hpos hwrap => omega
    | nomem hpos hwrap => omega
    | shrunk hneg => omega
    | stuck hneg => omega

end Process

end Xv6.Malloc
