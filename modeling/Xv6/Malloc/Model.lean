import Xv6.Lib.System

/-! # The memory allocator of `umalloc.c`

`malloc`, `free` and `morecore`, on a memory that holds a header at each address. Addresses
count bytes, sizes count units of `sizeof(Header)`. `sbrk` refuses, or returns any memory
above all that it has returned before; between calls the program writes to what it has been
given. Loops have the number of rounds that the units obtained so far allow, and the fault is
that these do not suffice.
-/

namespace Xv6.Malloc

open Function Lib

def UNIT : Nat := 16

/-- `size` is of type `uint`. -/
structure Header where
  ptr : Nat
  size : Nat
deriving DecidableEq

/-- An allocation that has not been freed: the header as `malloc` left it, and the number
of bytes asked for. The program has the pointer `addr + UNIT`. -/
structure Live where
  addr : Nat
  header : Header
  bytes : Nat
deriving DecidableEq

/-- `base` is the address of the static header, `top` the end of the memory that `sbrk` has
returned, and `units` its size. -/
structure State where
  mem : Nat → Header
  base : Nat
  freep : Nat
  top : Nat
  live : List Live
  units : Nat

namespace State

variable (s : State)

def setPtr (a v : Nat) : State :=
  { s with mem := update s.mem a { s.mem a with ptr := v } }

def setSize (a v : Nat) : State :=
  { s with mem := update s.mem a { s.mem a with size := v } }

theorem setPtr_self (a v : Nat) : (s.setPtr a v).mem a = ⟨v, (s.mem a).size⟩ :=
  update_self _ _ _

theorem setPtr_ne {a c : Nat} (v : Nat) (h : c ≠ a) : (s.setPtr a v).mem c = s.mem c :=
  update_of_ne h _ _

theorem setSize_self (a v : Nat) : (s.setSize a v).mem a = ⟨(s.mem a).ptr, v⟩ :=
  update_self _ _ _

theorem setSize_ne {a c : Nat} (v : Nat) (h : c ≠ a) : (s.setSize a v).mem c = s.mem c :=
  update_of_ne h _ _

/-! ## `free` -/

def findPrev (bp : Nat) : Nat → Nat → Option Nat
  | 0, _ => none
  | fuel + 1, p =>
    let q := (s.mem p).ptr
    if p < bp ∧ bp < q then some p
    else if q ≤ p ∧ (p < bp ∨ bp < q) then some p
    else findPrev bp fuel q

/-- `free` up to the first assignment to `*p`. -/
def joinNext (p bp : Nat) : State :=
  if bp + UNIT * (s.mem bp).size = (s.mem p).ptr then
    let s := s.setSize bp (((s.mem bp).size + (s.mem (s.mem p).ptr).size) % 2 ^ 32)
    s.setPtr bp (s.mem (s.mem p).ptr).ptr
  else s.setPtr bp (s.mem p).ptr

def joinPrev (p bp : Nat) : State :=
  if p + UNIT * (s.mem p).size = bp then
    let s := s.setSize p (((s.mem p).size + (s.mem bp).size) % 2 ^ 32)
    s.setPtr p (s.mem bp).ptr
  else s.setPtr p bp

/-- `free((void*)(bp + 1))`. -/
def free (bp : Nat) : Option State :=
  (s.findPrev bp (s.units + 2) s.freep).map fun p =>
    { (s.joinNext p bp).joinPrev p bp with freep := p }

/-! ## `malloc` -/

/-- `morecore(nu)`, where `sbrk` refuses or skips some bytes. -/
def morecore (nu : Nat) (sbrk : Option Nat) : Option (State × Nat) :=
  let nu := if nu < 4096 then 4096 else nu
  match sbrk with
  | none => some (s, 0)
  | some gap =>
    let hp := s.top + gap
    let s := setSize { s with top := hp + UNIT * nu, units := s.units + nu } hp nu
    (s.free hp).map fun s => (s, s.freep)

/-- `malloc` where it has found room in block `p` behind `prevp`. -/
def take (nunits prevp p : Nat) : State × Nat :=
  if (s.mem p).size = nunits then ({ s.setPtr prevp (s.mem p).ptr with freep := prevp }, p)
  else
    let s := s.setSize p ((s.mem p).size - nunits)
    let p := p + UNIT * (s.mem p).size
    ({ s.setSize p nunits with freep := prevp }, p)

/-- The loop of `malloc`; `sbrk k` is the result of the `k`-th request. The result is a block,
or 0. -/
def mallocLoop (nunits : Nat) (sbrk : Nat → Option Nat) :
    Nat → State → Nat → Nat → Nat → Option (State × Nat)
  | 0, _, _, _, _ => none
  | fuel + 1, s, k, prevp, p =>
    if nunits ≤ (s.mem p).size then some (s.take nunits prevp p)
    else if p = s.freep then
      match s.morecore nunits (sbrk k) with
      | none => none
      | some (s, p) =>
      if p = 0 then some (s, 0) else mallocLoop nunits sbrk fuel s (k + 1) p (s.mem p).ptr
    else mallocLoop nunits sbrk fuel s k p (s.mem p).ptr

def start : State :=
  if s.freep = 0 then { (s.setPtr s.base s.base).setSize s.base 0 with freep := s.base } else s

end State

def nunits (nbytes : UInt32) : Nat := (nbytes.toNat + (UNIT - 1)) / UNIT + 1

def malloc (s : State) (nbytes : UInt32) (sbrk : Nat → Option Nat) : Option (State × Nat) :=
  let s := s.start
  State.mallocLoop (nunits nbytes) sbrk (2 * s.units + 8) s 0 s.freep (s.mem s.freep).ptr

inductive Action where
  | malloc (nbytes : UInt32) (sbrk : Nat → Option Nat)
  | free (ap : Nat)
  /-- the program writes to the bytes of an allocation -/
  | write (ap : Nat) (f : Nat → Header)

/-- A loop has not ended. -/
inductive Fault where
  | endless
deriving DecidableEq

def step (s : State) : Action → Outcome Fault State
  | .malloc nbytes sbrk =>
    match malloc s nbytes sbrk with
    | none => .fault .endless
    | some (s, p) =>
      .next (if p = 0 then s else { s with live := s.live ++ [⟨p, s.mem p, nbytes.toNat⟩] })
  | .free ap =>
    match s.live.find? fun x => x.addr + UNIT = ap with
    | none => .blocked
    | some x =>
      match { s with live := s.live.erase x }.free x.addr with
      | none => .fault .endless
      | some s => .next s
  | .write ap f =>
    match s.live.find? fun x => x.addr + UNIT = ap with
    | none => .blocked
    | some x =>
      -- the headers that share a byte with the allocation
      .next { s with
        mem := fun c => if ap < c + UNIT ∧ c < x.addr + UNIT * x.header.size then f c else s.mem c }

/-- The program has started; the static header is below the heap. -/
def Started (s : State) : Prop :=
  s.freep = 0 ∧ s.live = [] ∧ s.units = 0 ∧ 0 < s.base ∧ s.base + UNIT ≤ s.top

end Xv6.Malloc
