import Xv6.Vm.Spec

/-! # Page tables as words in memory

`walk`, `mappages`, `uvmunmap`, `uvmclear` and `freewalk` of `vm.c` on physical memory:
a page-table page is 512 words of 64 bits, an entry packs a physical page number and
flag bits, and the code follows physical addresses. `decode` reads off the tree that
such a memory holds.
-/

namespace Xv6.Vm.Words

open Lib

/-! ## Entries of `riscv.h` -/

def PTE_V : Nat := 1 <<< 0
def PTE_R : Nat := 1 <<< 1
def PTE_W : Nat := 1 <<< 2
def PTE_X : Nat := 1 <<< 3
def PTE_U : Nat := 1 <<< 4

def PA2PTE (pa : Nat) : Nat := (pa >>> 12) <<< 10

def PTE2PA (pte : Nat) : Nat := ((pte >>> 10) <<< 12) % 2 ^ 64

def PTE_FLAGS (pte : Nat) : Nat := pte &&& 0x3FF

def PX (level va : Nat) : Nat := (va >>> (12 + 9 * level)) &&& 0x1FF

/-- The `perm` argument that a set of permissions is passed as. -/
def bits (p : Perm) : Nat :=
  (if p.r then PTE_R else 0) ||| (if p.w then PTE_W else 0) ||| (if p.x then PTE_X else 0) |||
    (if p.u then PTE_U else 0)

theorem PX_eq (level va : Nat) : PX level va = Vm.PX level va := by
  rw [PX, Vm.PX, Nat.shiftRight_eq_div_pow, show (0x1FF : Nat) = 2 ^ 9 - 1 from rfl,
    Nat.and_two_pow_sub_one_eq_mod]

theorem PX_lt (level va : Nat) : PX level va < 512 := by
  rw [PX_eq]
  exact Vm.PX_lt level va

theorem pack_eq {p f : Nat} (hf : f < 1024) : PA2PTE (p * PGSIZE) ||| f = p * 1024 + f := by
  have hshift : (p * PGSIZE) >>> 12 = p := by
    rw [Nat.shiftRight_eq_div_pow]
    exact Nat.mul_div_cancel _ (by decide)
  rw [PA2PTE, hshift, ← Nat.shiftLeft_add_eq_or_of_lt hf, Nat.shiftLeft_eq]

theorem PTE2PA_pack {p f : Nat} (hp : p < 2 ^ 44) (hf : f < 1024) :
    PTE2PA (p * 1024 + f) = p * PGSIZE := by
  rw [PTE2PA, Nat.shiftRight_eq_div_pow, Nat.shiftLeft_eq]
  simp only [PGSIZE]
  omega

theorem and_pack {p f c : Nat} (hf : f < 1024) (hc : c < 1024) :
    (p * 1024 + f) &&& c = f &&& c := by
  have hle : (p * 1024 + f) &&& c ≤ c := Nat.and_le_right
  have hmod := Nat.and_mod_two_pow (a := p * 1024 + f) (b := c) (n := 10)
  rw [Nat.mod_eq_of_lt (show _ < 2 ^ 10 by omega), Nat.mod_eq_of_lt (show c < 2 ^ 10 by omega),
    show (p * 1024 + f) % 2 ^ 10 = f by omega] at hmod
  exact hmod

theorem forall_perm {P : Perm → Prop} (h : ∀ r w x u, P ⟨r, w, x, u⟩) (perm : Perm) : P perm :=
  h perm.r perm.w perm.x perm.u

theorem bits_lt : ∀ perm, bits perm ||| PTE_V < 1024 := forall_perm (by decide)

theorem bits_valid : ∀ perm, (bits perm ||| PTE_V) &&& PTE_V ≠ 0 := forall_perm (by decide)

theorem bits_perm : ∀ perm,
    (⟨(bits perm ||| PTE_V) &&& PTE_R != 0, (bits perm ||| PTE_V) &&& PTE_W != 0,
    (bits perm ||| PTE_V) &&& PTE_X != 0, (bits perm ||| PTE_V) &&& PTE_U != 0⟩ : Perm) = perm :=
  forall_perm (by decide)

theorem bits_and_not_user : ∀ perm, (bits perm ||| PTE_V) &&& (1023 - PTE_U) =
    bits { perm with u := false } ||| PTE_V := forall_perm (by decide)

theorem bits_flags : ∀ perm : Perm, (bits perm ||| PTE_V) &&& 0x3FF = PTE_V ↔ perm.none = true :=
  forall_perm (by decide)

theorem bits_user : ∀ perm : Perm, (bits perm ||| PTE_V) &&& PTE_U = 0 ↔ perm.u = false :=
  forall_perm (by decide)

def encode : Option Pte → Nat
  | none => 0
  | some pte => PA2PTE (pte.page * PGSIZE) ||| bits pte.perm ||| PTE_V

def decodePte (w : Nat) : Option Pte :=
  if w &&& PTE_V = 0 then none
  else some ⟨PTE2PA w / PGSIZE,
    ⟨w &&& PTE_R != 0, w &&& PTE_W != 0, w &&& PTE_X != 0, w &&& PTE_U != 0⟩⟩

theorem encode_eq (pte : Pte) :
    encode (some pte) = pte.page * 1024 + (bits pte.perm ||| PTE_V) := by
  rw [encode, Nat.or_assoc, pack_eq (bits_lt _)]

theorem encode_and (pte : Pte) {c : Nat} (hc : c < 1024) :
    encode (some pte) &&& c = (bits pte.perm ||| PTE_V) &&& c := by
  rw [encode_eq, and_pack (bits_lt _) hc]

theorem encode_valid (e : Option Pte) : encode e &&& PTE_V = 0 ↔ e = none := by
  cases e with
  | none => exact ⟨fun _ => rfl, fun _ => rfl⟩
  | some pte =>
    rw [encode_and pte (by decide)]
    exact ⟨fun h => absurd h (bits_valid _), fun h => (by cases h)⟩

theorem encode_flags (pte : Pte) :
    PTE_FLAGS (encode (some pte)) = PTE_V ↔ pte.perm.none = true := by
  rw [PTE_FLAGS, encode_and pte (by decide)]
  exact bits_flags pte.perm

theorem PTE2PA_encode {pte : Pte} (hp : pte.page < 2 ^ 44) :
    PTE2PA (encode (some pte)) = pte.page * PGSIZE := by
  rw [encode_eq, PTE2PA_pack hp (bits_lt _)]

theorem decodePte_encode {e : Option Pte} (he : ∀ pte, e = some pte → pte.page < 2 ^ 44) :
    decodePte (encode e) = e := by
  cases e with
  | none => rfl
  | some pte =>
    obtain ⟨page, perm⟩ := pte
    have hpage := PTE2PA_encode (he _ rfl)
    have hvalid : encode (some ⟨page, perm⟩) &&& PTE_V ≠ 0 :=
      fun h => by cases (encode_valid _).mp h
    rw [decodePte, if_neg hvalid, hpage, Nat.mul_div_cancel _ (by decide : 0 < PGSIZE),
      encode_and _ (by decide), encode_and _ (by decide), encode_and _ (by decide),
      encode_and _ (by decide), bits_perm]

/-- `&` with a mask acts on the page number and on the flags separately. -/
theorem pack_and_pack {p f c g : Nat} (hf : f < 1024) (hg : g < 1024) :
    (p * 1024 + f) &&& (c * 1024 + g) = (p &&& c) * 1024 + (f &&& g) := by
  have hfg : f &&& g < 2 ^ 10 := lt_of_le_of_lt Nat.and_le_left hf
  apply Nat.eq_of_testBit_eq
  intro i
  rw [Nat.testBit_and, Nat.mul_comm p, Nat.mul_comm c, Nat.mul_comm (p &&& c),
    show (1024 : Nat) = 2 ^ 10 from rfl, Nat.testBit_two_pow_mul_add _ hf,
    Nat.testBit_two_pow_mul_add _ hg,
    Nat.testBit_two_pow_mul_add _ hfg]
  split
  · rw [Nat.testBit_and]
  · rw [Nat.testBit_and]

theorem encode_and_not_user {e : Option Pte} (he : ∀ pte, e = some pte → pte.page < 2 ^ 44) :
    encode e &&& (2 ^ 64 - 1 - PTE_U) =
      encode (e.map fun pte => { pte with perm := { pte.perm with u := false } }) := by
  cases e with
  | none => exact Nat.zero_and _
  | some pte =>
    have hmask : 2 ^ 64 - 1 - PTE_U = (2 ^ 54 - 1) * 1024 + (1023 - PTE_U) := by decide
    have hpage := he _ rfl
    rw [Option.map_some, encode_eq, encode_eq, hmask, pack_and_pack (bits_lt _) (by decide),
      bits_and_not_user, Nat.and_two_pow_sub_one_eq_mod, Nat.mod_eq_of_lt (by omega)]

/-! ## Memory and its allocator -/

/-- The free pages by number, the 64-bit word at each word address, and the address `end` behind the
kernel. -/
structure Ram where
  free : List Nat
  word : Nat → Nat
  kernelEnd : Nat

/-- Page `p` is one of the allocator's, which begin at `kernelEnd`. -/
def Owned (kernelEnd p : Nat) : Prop := kernelEnd ≤ p * PGSIZE ∧ p * PGSIZE < PHYSTOP

instance (kernelEnd p : Nat) : Decidable (Owned kernelEnd p) := inferInstanceAs (Decidable (_ ∧ _))

theorem Owned.lt {e p : Nat} (h : Owned e p) : p < 2 ^ 44 := by
  have := h.2
  unfold PHYSTOP KERNBASE PGSIZE at this
  omega

def Ram.store (m : Ram) (a w : Nat) : Ram := { m with word := Function.update m.word a w }

def Ram.memset (m : Ram) (pa c : Nat) : Ram :=
  { m with word := fun a => if pa ≤ a ∧ a < pa + PGSIZE then c * 0x0101010101010101 else m.word a }

def kalloc (m : Ram) : Option (Nat × Ram) :=
  match m.free with
  | [] => none
  | p :: free => some (p * PGSIZE, Ram.memset { m with free := free } (p * PGSIZE) 5)

/-- A page in the free list: junk, and a link to the next page. -/
def Ram.release (m : Ram) (pa : Nat) : Ram :=
  { (m.memset pa 1).store pa ((m.free.head?.map (· * PGSIZE)).getD 0) with
    free := pa / PGSIZE :: m.free }

def kfree (m : Ram) (pa : Nat) : Except Panic Ram :=
  if pa % PGSIZE ≠ 0 ∨ pa < m.kernelEnd ∨ pa ≥ PHYSTOP then .error .kfree else .ok (m.release pa)

theorem kfree_ok {m : Ram} {p : Nat} (h : Owned m.kernelEnd p) :
    kfree m (p * PGSIZE) = .ok (m.release (p * PGSIZE)) := by
  refine if_neg ?_
  rw [Nat.mul_mod_left]
  have hlo := h.1
  have hhi := h.2
  omega

/-! ## The functions of `vm.c` -/

/-- The loop of `walk`, and the address of the entry it ends at. -/
def walkLoop (va : Nat) (alloc : Bool) : Nat → Nat → Ram → Option Nat × Ram
  | 0, pagetable, m => (some (pagetable + 8 * PX 0 va), m)
  | level + 1, pagetable, m =>
    let pte := pagetable + 8 * PX (level + 1) va
    if m.word pte &&& PTE_V ≠ 0 then walkLoop va alloc level (PTE2PA (m.word pte)) m
    else if !alloc then (none, m)
    else
      match kalloc m with
      | none => (none, m)
      | some (child, m) =>
        walkLoop va alloc level child ((m.memset child 0).store pte (PA2PTE child ||| PTE_V))

def walk (m : Ram) (pagetable va : Nat) (alloc : Bool) : Except Panic (Option Nat × Ram) :=
  if va ≥ MAXVA then .error .walk else .ok (walkLoop va alloc 2 pagetable m)

/-- The physical address of a user address, or 0. -/
def walkaddr (m : Ram) (pagetable va : Nat) : Nat :=
  if va ≥ MAXVA then 0
  else
    match (walkLoop va false 2 pagetable m).1 with
    | none => 0
    | some pte =>
      if m.word pte &&& PTE_V = 0 then 0
      else if m.word pte &&& PTE_U = 0 then 0
      else PTE2PA (m.word pte)

def mappagesLoop (pagetable : Nat) (perm : Perm) : Nat → Nat → Nat → Ram → Except Panic (Bool × Ram)
  | 0, _, _, m => .ok (true, m)
  | n + 1, a, pa, m => do
    match ← walk m pagetable a true with
    | (none, m) => return (false, m)
    | (some pte, m) =>
      if m.word pte &&& PTE_V ≠ 0 then throw .mappagesRemap
      else
        mappagesLoop pagetable perm n (a + PGSIZE) (pa + PGSIZE)
          (m.store pte (PA2PTE pa ||| bits perm ||| PTE_V))

def mappages (m : Ram) (pagetable va size pa : Nat) (perm : Perm) : Except Panic (Bool × Ram) :=
  if size = 0 then .error .mappagesSize
  else
    let a := PGROUNDDOWN va
    let last := PGROUNDDOWN ((va + size - 1) % 2 ^ 64)
    mappagesLoop pagetable perm ((last + 2 ^ 64 - a) % 2 ^ 64 / PGSIZE + 1) a pa m

def uvmunmapPage (pagetable : Nat) (do_free : Bool) (a : Nat) (m : Ram) : Except Panic Ram := do
  match ← walk m pagetable a false with
  | (none, _) => throw .uvmunmapWalk
  | (some pte, m) =>
    if m.word pte &&& PTE_V = 0 then return m
    else if PTE_FLAGS (m.word pte) = PTE_V then throw .uvmunmapNotLeaf
    else
      let m' ← if do_free then kfree m (PTE2PA (m.word pte)) else pure m
      return m'.store pte 0

def uvmunmap (m : Ram) (pagetable va npages : Nat) (do_free : Bool) : Except Panic Ram :=
  if va % PGSIZE ≠ 0 then .error .uvmunmapNotAligned
  else
    forRange (((va + npages * PGSIZE) % 2 ^ 64 - va) / PGSIZE)
      (fun k => uvmunmapPage pagetable do_free (va + k * PGSIZE)) m

def uvmclear (m : Ram) (pagetable va : Nat) : Except Panic Ram := do
  match ← walk m pagetable va false with
  | (none, _) => throw .uvmclear
  | (some pte, m) => return m.store pte (m.word pte &&& (2 ^ 64 - 1 - PTE_U))

/-- `freewalk` to a recursion depth; deeper than three levels it is inside the data of a
user page. -/
def freewalk : Nat → Ram → Nat → Except Panic Ram
  | 0, _, _ => .error .freewalkData
  | depth + 1, m, pagetable => do
    let m ← forRange 512 (fun i m =>
      let pte := m.word (pagetable + 8 * i)
      if pte &&& PTE_V ≠ 0 ∧ pte &&& (PTE_R ||| PTE_W ||| PTE_X) = 0 then do
        let m ← freewalk depth m (PTE2PA pte)
        return m.store (pagetable + 8 * i) 0
      else if pte &&& PTE_V ≠ 0 then throw .freewalkLeaf
      else return m) m
    kfree m pagetable

def uvmcreate (m : Ram) : Option (Nat × Ram) :=
  match kalloc m with
  | none => none
  | some (pagetable, m) => some (pagetable, m.memset pagetable 0)

end Xv6.Vm.Words
