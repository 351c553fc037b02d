import Xv6.Vm.Grow

/-! # User images

A page table that is being filled with a program: its tables and its user memory come from the pages
that were free when it was begun, user memory is dense, and above it there are the trapframe and the
trampoline only. Such a table can be grown, and thrown away, without a panic, also when memory runs
out.
-/

namespace Xv6.Vm

open Lib

/-- The page of the trampoline. -/
def TOPPAGE : Nat := UPAGES + 1

/-- The table `pt` with `k` pages of user memory, begun when memory was `km₀`. -/
structure UserImage (km₀ km : Kmem) (pt : PageTable) (k : Nat) : Prop where
  nodup : km₀.free.Nodup
  bound : km₀.free.length ≤ RAMPAGES
  pages : ∀ q, Vm.pages km pt q = km₀.free.count q
  kept : ∀ q, q ∉ km₀.free → km.mem q = km₀.mem q
  user : ∀ v, v < k → ∃ e, pt.leaf v = some e ∧ e.perm.none = false
  clear : ∀ v, k ≤ v → v < UPAGES → pt.leaf v = none
  top : ∀ v, UPAGES ≤ v → v ≤ TOPPAGE → ∃ e, pt.leaf v = some e ∧ e.perm.u = false ∧
    e.perm.none = false
  above : ∀ v, TOPPAGE < v → pt.leaf v = none

section

variable {km₀ km km' : Kmem} {pt pt' : PageTable} {k v q : Nat}

namespace UserImage

theorem mem (h : UserImage km₀ km pt k) : UserMem pt.leaf k := by
  refine ⟨fun v hv => ?_, h.clear⟩
  obtain ⟨e, he, -⟩ := h.user v hv
  rw [he]
  exact Option.some_ne_none e

theorem fits (h : UserImage km₀ km pt k) : Fits km₀.free km pt :=
  ⟨h.nodup, h.bound, fun q => Nat.le_of_eq (h.pages q)⟩

theorem le (h : UserImage km₀ km pt k) : k ≤ RAMPAGES := h.fits.image_le h.mem

theorem lt_upages (h : UserImage km₀ km pt k) (hv : v < k) : v < UPAGES :=
  lt_of_lt_of_le hv (h.le.trans (by decide))

theorem free_mem (h : UserImage km₀ km pt k) (hq : q ∈ km.free) : q ∈ km₀.free := by
  have hcount := h.pages q
  have hpos := List.count_pos_iff.mpr hq
  unfold Vm.pages at hcount
  exact List.count_pos_iff.mp (by omega)

end UserImage

/-! ## Growing -/

theorem UserImage.filled {N : Nat} (h : UserImage km₀ km pt k)
    (hf : Filling (growPlan k) pt km N km' pt') (hle : k ≤ N) : UserImage km₀ km' pt' N := by
  have hN : N ≤ UPAGES := (h.fits.grow_le h.mem hf.enough).trans (by decide)
  have hsame : ∀ v, N ≤ v → pt'.leaf v = pt.leaf v := fun v hv => hf.hole v (.inl hv)
  refine ⟨h.nodup, h.bound, fun q => ?_, fun q hq => ?_, fun v hv => ?_, fun v hv hlt => ?_,
    fun v hv => ?_, fun v hv => ?_⟩
  · rw [← h.pages q]
    exact hf.count UPAGES q hN
  · rw [hf.kept q fun hfree => hq (h.free_mem hfree)]
    exact h.kept q hq
  · by_cases hold : v < k
    · rw [hf.hole v (.inr (growPlan_eq_none.mpr hold))]
      exact h.user v hold
    · obtain ⟨p, -, hp⟩ := hf.mapped v _ hv (growPlan_some (Nat.le_of_not_lt hold))
      exact ⟨_, hp, rfl⟩
  · rw [hsame v hv]
    exact h.clear v (hle.trans hv) hlt
  · rw [hsame v (hN.trans hv)]
    exact h.top v hv
  · rw [hsame v (hN.trans ((Nat.le_succ _).trans (Nat.le_of_lt hv)))]
    exact h.above v hv

/-- How `uvmalloc` ends on an image. -/
inductive ImageGrown (km₀ km : Kmem) (pt : PageTable) (oldsz newsz : Nat) :
    Except Panic (Nat × Kmem × PageTable) → Prop
  | same (h : newsz < oldsz) : ImageGrown km₀ km pt oldsz newsz (.ok (oldsz, km, pt))
  | grown {km' : Kmem} {pt' : PageTable} (hle : oldsz ≤ newsz)
      (hf : Filling (growPlan (npages oldsz)) pt km (npages newsz) km' pt') :
      ImageGrown km₀ km pt oldsz newsz (.ok (newsz, km', pt'))
  | nomem {km' : Kmem} {pt' : PageTable} (hleaf : pt'.leaf = pt.leaf)
      (h : UserImage km₀ km' pt' (npages oldsz)) :
      ImageGrown km₀ km pt oldsz newsz (.ok (0, km', pt'))

theorem UserImage.uvmalloc {oldsz : Nat} (h : UserImage km₀ km pt (npages oldsz)) (newsz : Nat) :
    ImageGrown km₀ km pt oldsz newsz (uvmalloc km pt oldsz newsz) := by
  by_cases hlt : newsz < oldsz
  · rw [Vm.uvmalloc, if_pos hlt]
    exact .same hlt
  have hle := Nat.le_of_not_lt hlt
  have hend := h.fits.uvmalloc_end h.mem hle
  generalize Vm.uvmalloc km pt oldsz newsz = r at hend
  cases hend with
  | done hf => exact .grown hle hf
  | @remap v hv₀ hv hnew henough =>
    have hup : v < UPAGES := lt_of_lt_of_le (Nat.lt_succ_self v)
      ((h.fits.grow_le h.mem henough).trans (by decide))
    exact absurd (h.clear v hv₀ hup) hnew
  | nomem hv₀ hv hfails _ hleaf hkept hcount =>
    refine .nomem hleaf ⟨h.nodup, h.bound, fun q => ?_, fun q hq => ?_, ?_, ?_, ?_, ?_⟩
    · rw [← h.pages q]
      exact hcount UPAGES q ((h.fits.grow_le h.mem hfails.before).trans (by decide))
    · rw [hkept q fun hfree => hq (h.free_mem hfree)]
      exact h.kept q hq
    all_goals rw [hleaf]
    · exact h.user
    · exact h.clear
    · exact h.top
    · exact h.above

end

end Xv6.Vm
