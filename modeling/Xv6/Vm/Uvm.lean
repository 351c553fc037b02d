import Xv6.Lib.CInt
import Xv6.Lib.Post
import Xv6.Vm.PageTable

/-! # User address spaces

The functions of `vm.c` that build, copy and take apart user page tables, and what
each of them does to the two views of a page table.
-/

namespace Xv6.Vm

open Lib

/-! ## `mappages` and `uvmunmap` -/

def mappagesLoop (perm : Perm) : Nat → Nat → Nat → Kmem → PageTable →
    Except Panic (Bool × Kmem × PageTable)
  | 0, _, _, km, pt => .ok (true, km, pt)
  | n + 1, a, page, km, pt => do
    match ← walkAlloc km pt a with
    | (false, km, pt) => return (false, km, pt)
    | (true, km, pt) =>
      if (pt.leaf (a / PGSIZE)).isSome then throw .mappagesRemap
      else mappagesLoop perm n (a + PGSIZE) (page + 1) km (pt.setPte a (some ⟨page, perm⟩))

def mappages (km : Kmem) (pt : PageTable) (va size page : Nat) (perm : Perm) :
    Except Panic (Bool × Kmem × PageTable) :=
  if size = 0 then .error .mappagesSize
  else
    let a := PGROUNDDOWN va
    let last := PGROUNDDOWN ((va + size - 1) % 2 ^ 64)
    mappagesLoop perm ((last + 2 ^ 64 - a) % 2 ^ 64 / PGSIZE + 1) a page km pt

def uvmunmapPage (do_free : Bool) (a : Nat) : Kmem × PageTable → Except Panic (Kmem × PageTable)
  | (km, pt) => do
    match ← walk pt a with
    | none => throw .uvmunmapWalk
    | some none => return (km, pt)
    | some (some pte) =>
      if pte.perm.none then throw .uvmunmapNotLeaf
      else return (if do_free then kfree km pte.page else km, pt.setPte a none)

/-- `npages` is a `uint64`; `va + npages * PGSIZE` wraps. -/
def uvmunmap (km : Kmem) (pt : PageTable) (va npages : Nat) (do_free : Bool) :
    Except Panic (Kmem × PageTable) :=
  if va % PGSIZE ≠ 0 then .error .uvmunmapNotAligned
  else
    forRange (((va + npages * PGSIZE) % 2 ^ 64 - va) / PGSIZE)
      (fun k => uvmunmapPage do_free (va + k * PGSIZE)) (km, pt)

/-! ## Growing and shrinking -/

def uvmdealloc (km : Kmem) (pt : PageTable) (oldsz newsz : Nat) :
    Except Panic (Nat × Kmem × PageTable) :=
  if newsz ≥ oldsz then .ok (oldsz, km, pt)
  else if PGROUNDUP newsz < PGROUNDUP oldsz then do
    -- `npages` is an `int`
    let npages := int32 ((PGROUNDUP oldsz - PGROUNDUP newsz) / PGSIZE)
    let (km, pt) ← uvmunmap km pt (PGROUNDUP newsz) (u64 npages) true
    return (newsz, km, pt)
  else .ok (newsz, km, pt)

/-- `PTE_W | PTE_X | PTE_R | PTE_U`. -/
def Perm.user : Perm := ⟨true, true, true, true⟩

/-- The loop of `uvmalloc`, with the number of pages left. The result is false when
memory ran out and the pages mapped before are unmapped again. -/
def uvmallocLoop (oldsz : Nat) : Nat → Nat → Kmem → PageTable →
    Except Panic (Bool × Kmem × PageTable)
  | 0, _, km, pt => .ok (true, km, pt)
  | n + 1, a, km, pt =>
    match kalloc km with
    | none => do
      let (_, km, pt) ← uvmdealloc km pt a oldsz
      return (false, km, pt)
    | some (p, km) => do
      match ← mappages (km.clear p) pt a PGSIZE p .user with
      | (true, km, pt) => uvmallocLoop oldsz n (a + PGSIZE) km pt
      | (false, km, pt) =>
        let (_, km, pt) ← uvmdealloc (kfree km p) pt a oldsz
        return (false, km, pt)

/-- The new size, or 0 on error. -/
def uvmalloc (km : Kmem) (pt : PageTable) (oldsz newsz : Nat) :
    Except Panic (Nat × Kmem × PageTable) :=
  if newsz < oldsz then .ok (oldsz, km, pt)
  else do
    let a := PGROUNDUP oldsz
    match ← uvmallocLoop a ((newsz + PGSIZE - 1 - a) / PGSIZE) a km pt with
    | (true, km, pt) => return (newsz, km, pt)
    | (false, km, pt) => return (0, km, pt)

/-! ## Freeing -/

/-- Free the entries of a page-table page, then the page. -/
def freeNode {α : Type} (child : Kmem → α → Except Panic Kmem) (km : Kmem) (n : Node α) :
    Except Panic Kmem := do
  let km ← forRange 512 (fun i km =>
    match n.entry i with
    | none => .ok km
    | some c => child km c) km
  return kfree km n.page

def freeLeaf (_ : Kmem) (pte : Pte) : Except Panic Kmem :=
  .error (if pte.perm.r || pte.perm.w || pte.perm.x then .freewalkLeaf else .freewalkData)

def freewalk (km : Kmem) (pt : PageTable) : Except Panic Kmem :=
  freeNode (freeNode (freeNode freeLeaf)) km pt

def uvmfree (km : Kmem) (pt : PageTable) (sz : Nat) : Except Panic Kmem := do
  let (km, pt) ← if sz > 0 then uvmunmap km pt 0 (PGROUNDUP sz / PGSIZE) true else pure (km, pt)
  freewalk km pt

/-! ## Copying -/

/-- The loop of `uvmcopy`, with the number of pages left. -/
def uvmcopyLoop (old : PageTable) : Nat → Nat → Kmem → PageTable →
    Except Panic (Bool × Kmem × PageTable)
  | 0, _, km, new => .ok (true, km, new)
  | n + 1, i, km, new => do
    match ← walk old i with
    | none => throw .uvmcopyNoPte
    | some none => uvmcopyLoop old n (i + PGSIZE) km new
    | some (some pte) =>
      match kalloc km with
      | none =>
        let (km, new) ← uvmunmap km new 0 (i / PGSIZE) true
        return (false, km, new)
      | some (p, km) =>
        let km := { km with mem := Function.update km.mem p (km.mem pte.page) }
        match ← mappages km new i PGSIZE p pte.perm with
        | (true, km, new) => uvmcopyLoop old n (i + PGSIZE) km new
        | (false, km, new) =>
          let (km, new) ← uvmunmap (kfree km p) new 0 (i / PGSIZE) true
          return (false, km, new)

def uvmcopy (km : Kmem) (old new : PageTable) (sz : Nat) : Except Panic (Bool × Kmem × PageTable) :=
  uvmcopyLoop old ((sz + PGSIZE - 1) / PGSIZE) 0 km new

def uvmclear (pt : PageTable) (va : Nat) : Except Panic PageTable := do
  match ← walk pt va with
  | none => throw .uvmclear
  | some none => return pt
  | some (some pte) => return pt.setPte va (some ⟨pte.page, { pte.perm with u := false }⟩)

/-! ## User memory -/

/-- `walkaddr`: the physical page of a user address. The result 0 is `none`, and a page at physical
address 0 gives it too. -/
def walkaddr (pt : PageTable) (va : Nat) : Option Nat :=
  if va ≥ MAXVA then none
  else
    match pt.leaf (va / PGSIZE) with
    | some pte => if pte.perm.u ∧ pte.page ≠ 0 then some pte.page else none
    | none => none

/-- The byte that `copyin` reads at a user address. -/
def loadByte (km : Kmem) (pt : PageTable) (va : Nat) : Option UInt8 :=
  (walkaddr pt va).map fun p => (km.mem p).get (va % PGSIZE)

def Kmem.store (km : Kmem) (p off : Nat) (b : UInt8) : Kmem :=
  { km with mem := Function.update km.mem p ((km.mem p).blit off 1 fun _ => b) }

/-- `copyout` byte by byte; false when it meets a page it cannot write to. -/
def copyout (pt : PageTable) : Kmem → Nat → List UInt8 → Bool × Kmem
  | km, _, [] => (true, km)
  | km, dstva, b :: bs =>
    match walkaddr pt dstva with
    | none => (false, km)
    | some p => copyout pt (km.store p (dstva % PGSIZE) b) ((dstva + 1) % 2 ^ 64) bs

end Xv6.Vm
