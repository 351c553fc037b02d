import Xv6.Kernel.Machine
import Xv6.Vm.Copy
import Xv6.Vm.Grow
import Xv6.Vm.UserCopy

/-! # `sbrk`

`growproc` keeps the size of the process in a `uint` and `sys_sbrk` in an `int`, while `mmap` raises
it beyond either. For every state of a process and every increment it is decided whether `sbrk`
moves the break as it should.
-/

namespace Xv6.Kernel

open Lib Vm

def sysSbrk (km : Kmem) (p : Proc) (n : Nat) : Except Panic (Nat × Kmem × Proc) := do
  let addr := int32 p.sz
  let (ok, km, p) ← growproc km p (argint n)
  return (if ok then u64 addr else 2 ^ 64 - 1, km, p)

structure BreakMoved (km : Kmem) (p : Proc) (n : Int) (km' : Kmem) (p' : Proc) : Prop where
  sz : (p'.sz : Int) = p.sz + n
  grown : ∀ v, npages p.sz ≤ v → v < npages p'.sz →
    ∃ q, q ∈ km.free ∧ q ∉ km'.free ∧ p'.pagetable.leaf v = some ⟨q, .user⟩ ∧ km'.mem q = Bytes.zero
  distinct : ∀ v w e, npages p.sz ≤ v → v < npages p'.sz → npages p.sz ≤ w → w < npages p'.sz →
    p'.pagetable.leaf v = some e → p'.pagetable.leaf w = some e → v = w
  above : ∀ v, npages p'.sz ≤ v → v < UPAGES → p'.pagetable.leaf v = none
  freed : ∀ v pte, npages p'.sz ≤ v → v < UPAGES → p.pagetable.leaf v = some pte →
    pte.page ∈ km'.free
  kept : ∀ v, v < npages p.sz → v < npages p'.sz → p'.pagetable.leaf v = p.pagetable.leaf v ∧
    ∀ pte, p.pagetable.leaf v = some pte → km'.mem pte.page = km.mem pte.page

/-- A call of `sbrk` has returned -1 with nothing changed, or the old break with the break moved. -/
def SbrkOk (km : Kmem) (p : Proc) (n : Int) (r : Except Panic (Nat × Kmem × Proc)) : Prop :=
  ∃ ret km' p', r = .ok (ret, km', p') ∧
    (ret = 2 ^ 64 - 1 ∧ p'.sz = p.sz ∧
      (∀ v, v < UPAGES → p'.pagetable.leaf v = p.pagetable.leaf v) ∨
      ret = p.sz ∧ BreakMoved km p n km' p')

/-- The states and increments for which `sbrk` does what it should. -/
inductive SbrkSafe (km : Kmem) (p : Proc) (n : Int) : Prop
  /-- the break is below `2 ^ 31`, nothing is mapped above it, and the pages to be removed have
  tables -/
  | below (hsz : p.sz < 2 ^ 31) (hn : 0 ≤ p.sz + n) (habove : ∀ v, npages p.sz ≤ v → v < UPAGES →
      p.pagetable.leaf v = none)
      (htable : n < 0 → Unmappable p.pagetable (npages (p.sz + n).toNat)
        (npages p.sz - npages (p.sz + n).toNat))
  /-- the old break as an `int` is -1 -/
  | top (hsz : p.sz = 2 ^ 32 - 1) (hn : 0 ≤ n)
  /-- memory runs out before a page is met that is mapped -/
  | nomem (f : Nat) (hn : 0 < n) (hwrap : (p.sz % 2 ^ 32 : Nat) + n < 2 ^ 32)
      (hge : npages (p.sz % 2 ^ 32) ≤ f) (hlt : f < npages ((p.sz % 2 ^ 32 : Nat) + n).toNat)
      (hfails : FailsAt (growPlan (npages (p.sz % 2 ^ 32))) p.pagetable km f)
      (hclear : ∀ w, npages (p.sz % 2 ^ 32) ≤ w → w < f → p.pagetable.leaf w = none)

section

variable {km : Kmem} {p : Proc} {n : Int}

theorem sbrk_ret (sz : Nat) : (u64 (int32 sz) = sz → sz < 2 ^ 31 ∨ 2 ^ 63 ≤ sz) ∧
    (sz < 2 ^ 31 → u64 (int32 sz) = sz) ∧
    (u64 (int32 sz) = 2 ^ 64 - 1 ↔ sz % 2 ^ 32 = 2 ^ 32 - 1) := by
  rw [int32_eq]
  simp only [u64, Int.bmod]
  omega

/-- A process with page table `pt` and size `sz`. -/
def Sized (pt : PageTable) (sz : Nat) (p : Proc) : Prop := p.pagetable = pt ∧ p.sz = sz

variable (km p) in
theorem growproc_zero : growproc km p 0 = .ok (true, km, { p with sz := p.sz % 2 ^ 32 }) := rfl

variable (km p) in
/-- An increment that wraps: `uvmalloc` takes the new size for a smaller one. -/
theorem growproc_wrap (hn : 0 < n) (hlt : n < 2 ^ 31) (hwrap : 2 ^ 32 ≤ (p.sz % 2 ^ 32 : Nat) + n) :
    ∃ p', growproc km p n = .ok (true, km, p') ∧ Sized p.pagetable (p.sz % 2 ^ 32) p' := by
  have hmod : p.sz % 2 ^ 32 < 2 ^ 32 := Nat.mod_lt _ (by decide)
  have hnew : (((p.sz % 2 ^ 32 : Nat) + n) % 2 ^ 32).toNat < p.sz % 2 ^ 32 := by omega
  unfold growproc
  dsimp only
  rw [if_pos hn, uvmalloc, if_pos hnew]
  exact ⟨_, if_neg (show ¬ p.sz % 2 ^ 32 = 0 by omega), rfl, rfl⟩

variable (km p) in
theorem growproc_grow (hn : 0 < n) (hwrap : (p.sz % 2 ^ 32 : Nat) + n < 2 ^ 32) :
    growproc km p n = (do
      let (r, km, pt) ← (uvmalloc km p.pagetable (p.sz % 2 ^ 32)
        ((p.sz % 2 ^ 32 : Nat) + n).toNat).mapError .vm
      if r = 0 then return (false, km, { p with pagetable := pt })
      else
        let own := fun v => p.own v || decide (p.sz % 2 ^ 32 < r ∧ p.sz % 2 ^ 32 / PGSIZE ≤ v ∧
          v * PGSIZE < r)
        return (true, km, { p with pagetable := pt, sz := r, own := own })) := by
  have hnew : (((p.sz % 2 ^ 32 : Nat) + n) % 2 ^ 32).toNat = ((p.sz % 2 ^ 32 : Nat) + n).toNat :=
    by omega
  unfold growproc
  dsimp only
  rw [if_pos hn, hnew]

variable (km p) in
/-- A decrement below zero: `uvmdealloc` takes the new size for a larger one. -/
theorem growproc_below (hn : n < 0) (hge : -2 ^ 31 ≤ n) (hwrap : (p.sz % 2 ^ 32 : Nat) + n < 0) :
    ∃ p', growproc km p n = .ok (true, km, p') ∧ Sized p.pagetable (p.sz % 2 ^ 32) p' := by
  have hnew : (((p.sz % 2 ^ 32 : Nat) + n) % 2 ^ 32).toNat ≥ p.sz % 2 ^ 32 := by omega
  unfold growproc
  dsimp only
  rw [if_neg (by omega), if_pos hn, uvmdealloc, if_pos hnew]
  exact ⟨_, rfl, rfl, rfl⟩

variable (km p) in
theorem growproc_shrink (hn : n < 0) (hwrap : 0 ≤ (p.sz % 2 ^ 32 : Nat) + n) :
    growproc km p n = (do
      let (km, pt) ← (uvmunmap km p.pagetable (npages ((p.sz % 2 ^ 32 : Nat) + n).toNat * PGSIZE)
        (npages (p.sz % 2 ^ 32) - npages ((p.sz % 2 ^ 32 : Nat) + n).toNat) true).mapError .vm
      return (true, km, { p with
        pagetable := pt
        sz := ((p.sz % 2 ^ 32 : Nat) + n).toNat
        own := fun v => p.own v && v * PGSIZE < ((p.sz % 2 ^ 32 : Nat) + n).toNat })) := by
  have hmod : p.sz % 2 ^ 32 < 2 ^ 32 := Nat.mod_lt _ (by decide)
  have hnew : (((p.sz % 2 ^ 32 : Nat) + n) % 2 ^ 32).toNat = ((p.sz % 2 ^ 32 : Nat) + n).toNat :=
    by omega
  unfold growproc
  dsimp only
  rw [if_neg (by omega), if_pos hn, hnew, uvmdealloc_eq (Nat.le_of_lt hmod) (by omega)]
  cases uvmunmap km p.pagetable (npages ((p.sz % 2 ^ 32 : Nat) + n).toNat * PGSIZE)
    (npages (p.sz % 2 ^ 32) - npages ((p.sz % 2 ^ 32 : Nat) + n).toNat) true <;> rfl

/-! ## The outcomes of `growproc` -/

theorem SbrkOk.iff_of_ok {ret : Nat} {km' : Kmem} {p' : Proc} : SbrkOk km p n (.ok (ret, km', p')) ↔
    ret = 2 ^ 64 - 1 ∧ p'.sz = p.sz ∧ (∀ v, v < UPAGES → p'.pagetable.leaf v = p.pagetable.leaf v) ∨
      ret = p.sz ∧ BreakMoved km p n km' p' := by
  constructor
  · rintro ⟨_, _, _, h, hok⟩
    cases h
    exact hok
  · exact fun h => ⟨_, _, _, rfl, h⟩

theorem not_sbrkOk_error {e : Panic} : ¬ SbrkOk km p n (.error e) := by
  rintro ⟨_, _, _, h, -⟩
  cases h

theorem sbrkOk_cut {p' : Proc} (hn : -2 ^ 31 ≤ n ∧ n < 2 ^ 31)
    (hp' : Sized p.pagetable (p.sz % 2 ^ 32) p') :
    SbrkOk km p n (.ok (u64 (int32 p.sz), km, p')) ↔ p.sz = 2 ^ 32 - 1 ∨ n = 0 ∧ p.sz < 2 ^ 31 ∧
      ∀ v, npages p.sz ≤ v → v < UPAGES → p.pagetable.leaf v = none := by
  obtain ⟨hpt, hsz⟩ := hp'
  obtain ⟨hret, hret', htop⟩ := sbrk_ret p.sz
  rw [SbrkOk.iff_of_ok]
  constructor
  · rintro (⟨h, hsame, -⟩ | ⟨h, hmoved⟩)
    · have := htop.mp h
      exact .inl (by omega)
    · have hnew := hmoved.sz
      rw [hsz] at hnew
      have hcut : p.sz % 2 ^ 32 = p.sz ∧ n = 0 := by omega
      have hlow : p.sz < 2 ^ 31 := by
        have := hret h
        omega
      have habove := hmoved.above
      rw [hpt, hsz, hcut.1] at habove
      exact .inr ⟨hcut.2, hlow, habove⟩
  · rintro (h | ⟨rfl, hlow, habove⟩)
    · refine .inl ⟨htop.mpr (by omega), by omega, fun v _ => by rw [hpt]⟩
    · have hcut : p.sz % 2 ^ 32 = p.sz := by omega
      rw [hcut] at hsz
      refine .inr ⟨hret' hlow, by omega, ?_, ?_, ?_, ?_, ?_⟩
      · intro v hle hlt
        rw [hsz] at hlt
        omega
      · intro v w e hle hlt
        rw [hsz] at hlt
        omega
      · rw [hpt, hsz]
        exact habove
      · intro v pte hle hlt hpte
        rw [hsz] at hle
        rw [habove v hle hlt] at hpte
        cases hpte
      · intro v _ _
        rw [hpt]
        exact ⟨rfl, fun _ _ => rfl⟩

theorem sbrkOk_grown {km' : Kmem} {p' : Proc} {pt' : PageTable} (hnd : km.free.Nodup)
    (hun : Unshared km p.pagetable) (hn : 0 < n) (hwrap : (p.sz % 2 ^ 32 : Nat) + n < 2 ^ 32)
    (hp' : Sized pt' ((p.sz % 2 ^ 32 : Nat) + n).toNat p')
    (h : Filling (growPlan (npages (p.sz % 2 ^ 32))) p.pagetable km
      (npages ((p.sz % 2 ^ 32 : Nat) + n).toNat) km' pt') :
    SbrkOk km p n (.ok (u64 (int32 p.sz), km', p')) ↔ p.sz < 2 ^ 31 ∧
      ∀ v, npages p.sz ≤ v → v < UPAGES → p.pagetable.leaf v = none := by
  obtain ⟨hpt, hsz⟩ := hp'
  obtain ⟨hret, hret', htop⟩ := sbrk_ret p.sz
  rw [SbrkOk.iff_of_ok]
  constructor
  · rintro (⟨-, hsame, -⟩ | ⟨hr, hmoved⟩)
    · omega
    · have hnew := hmoved.sz
      rw [hsz] at hnew
      have hcut : p.sz % 2 ^ 32 = p.sz := by omega
      have hlow : p.sz < 2 ^ 31 := by
        have := hret hr
        omega
      refine ⟨hlow, fun v hle hlt => ?_⟩
      rw [hcut] at h
      by_cases hv : v < npages ((p.sz : Int) + n).toNat
      · refine h.clear v hv ?_
        rw [growPlan_some hle]
        exact Option.some_ne_none _
      · rw [← h.hole v (.inl (by omega)), ← hpt]
        refine hmoved.above v ?_ hlt
        rw [hsz, hcut]
        omega
  · rintro ⟨hlow, habove⟩
    have hcut : p.sz % 2 ^ 32 = p.sz := by omega
    rw [hcut] at h hsz
    have hle : npages p.sz ≤ npages p'.sz := npages_mono (by omega)
    have hother : ∀ v, v < npages p.sz ∨ npages p'.sz ≤ v → p'.pagetable.leaf v =
        p.pagetable.leaf v := by
      intro v hv
      rw [hpt, h.hole v (hv.symm.imp (by rw [← hsz]; exact id) growPlan_eq_none.mpr)]
    refine .inr ⟨hret' hlow, by omega, ?_, ?_, ?_, ?_, ?_⟩
    · intro v hge hlt
      rw [hsz] at hlt
      obtain ⟨q, hq, hleaf⟩ := h.mapped v _ hlt (growPlan_some hge)
      have hfree : q ∉ km'.free := by
        rw [h.free]
        have hnd' := hnd
        rw [← List.take_append_drop
          (demand (growPlan (npages p.sz)) p.pagetable (npages ((p.sz : Int) + n).toNat))
          km.free] at hnd'
        exact fun hmem => List.disjoint_of_nodup_append hnd' hq hmem
      refine ⟨q, List.mem_of_mem_take hq, hfree, hpt ▸ hleaf, ?_⟩
      exact h.contents hnd v _ _ hlt (growPlan_some hge) hleaf
    · intro v w e hge hlt hge' hlt' he he'
      rw [hsz] at hlt hlt'
      rw [hpt] at he he'
      refine h.distinct hnd v w e e hlt hlt' ?_ ?_ he he' rfl <;>
        rw [growPlan_some (by assumption)] <;>
        exact Option.some_ne_none _
    · intro v hge hlt
      rw [hother v (.inr hge)]
      exact habove v (by omega) hlt
    · intro v pte hge hlt hpte
      rw [habove v (by omega) hlt] at hpte
      cases hpte
    · intro v hv _
      refine ⟨hother v (.inl hv), fun pte hpte => h.kept _ (hun v pte hpte)⟩

theorem sbrkOk_shrunk {km' : Kmem} {p' : Proc} {pt' : PageTable} (hn : n < 0)
    (hwrap : 0 ≤ (p.sz % 2 ^ 32 : Nat) + n) (hp' : Sized pt' ((p.sz % 2 ^ 32 : Nat) + n).toNat p')
    (h : Unmapped true (npages ((p.sz % 2 ^ 32 : Nat) + n).toNat)
      (npages (p.sz % 2 ^ 32) - npages ((p.sz % 2 ^ 32 : Nat) + n).toNat) km p.pagetable km' pt') :
    SbrkOk km p n (.ok (u64 (int32 p.sz), km', p')) ↔ p.sz < 2 ^ 31 ∧
      ∀ v, npages p.sz ≤ v → v < UPAGES → p.pagetable.leaf v = none := by
  obtain ⟨hpt, hsz⟩ := hp'
  obtain ⟨hret, hret', htop⟩ := sbrk_ret p.sz
  rw [SbrkOk.iff_of_ok]
  constructor
  · rintro (⟨-, hsame, -⟩ | ⟨hr, hmoved⟩)
    · omega
    · have hnew := hmoved.sz
      rw [hsz] at hnew
      have hcut : p.sz % 2 ^ 32 = p.sz := by omega
      have hlow : p.sz < 2 ^ 31 := by
        have := hret hr
        omega
      refine ⟨hlow, fun v hle hlt => ?_⟩
      rw [hcut] at h hsz
      have hmono : npages ((p.sz : Int) + n).toNat ≤ npages p.sz := npages_mono (by omega)
      have hsame : pt'.leaf v = p.pagetable.leaf v := by
        rw [h.leaf, VMap.unmap, if_neg (by omega)]
      rw [← hsame, ← hpt]
      exact hmoved.above v (by rw [hsz]; omega) hlt
  · rintro ⟨hlow, habove⟩
    have hcut : p.sz % 2 ^ 32 = p.sz := by omega
    rw [hcut] at h hsz
    have hle : npages p'.sz ≤ npages p.sz := npages_mono (by omega)
    rw [← hsz] at h
    have hleaf : ∀ v, p'.pagetable.leaf v = if npages p'.sz ≤ v ∧
        v < npages p.sz then none else p.pagetable.leaf v := by
      intro v
      rw [hpt, h.leaf, VMap.unmap, Nat.add_sub_cancel' hle]
    refine .inr ⟨hret' hlow, by omega, ?_, ?_, ?_, ?_, ?_⟩
    · intro v hge hlt
      omega
    · intro v w e hge hlt
      omega
    · intro v hge hlt
      rw [hleaf v]
      split
      · rfl
      · exact habove v (by omega) hlt
    · intro v pte hge hlt hpte
      by_cases hv : v < npages p.sz
      · exact h.mem_free hge (by omega) hpte
      · rw [habove v (by omega) hlt] at hpte
        cases hpte
    · intro v _ hv
      rw [hleaf v, if_neg (by omega), h.mem]
      exact ⟨rfl, fun _ _ => rfl⟩

theorem sysSbrk_of_ok {r : Nat} {ok : Bool} {km' : Kmem} {p' : Proc}
    (h : growproc km p (argint r) = .ok (ok, km', p')) :
    sysSbrk km p r = .ok (if ok then u64 (int32 p.sz) else 2 ^ 64 - 1, km', p') := by
  unfold sysSbrk
  rw [h]
  rfl

theorem sysSbrk_of_error {r : Nat} {e : Panic} (h : growproc km p (argint r) = .error e) :
    sysSbrk km p r = .error e := by
  unfold sysSbrk
  rw [h]
  rfl

/-- Only a state with a low break is safe when nothing wraps and memory suffices. -/
theorem sbrkSafe_grow_iff (hn : 0 < n) (hwrap : (p.sz % 2 ^ 32 : Nat) + n < 2 ^ 32)
    (hmem : ∀ f, npages (p.sz % 2 ^ 32) ≤ f → f < npages ((p.sz % 2 ^ 32 : Nat) + n).toNat →
      FailsAt (growPlan (npages (p.sz % 2 ^ 32))) p.pagetable km f →
      ¬ ∀ w, npages (p.sz % 2 ^ 32) ≤ w → w < f → p.pagetable.leaf w = none) :
    SbrkSafe km p n ↔ p.sz < 2 ^ 31 ∧ ∀ v, npages p.sz ≤ v → v < UPAGES →
    p.pagetable.leaf v = none := by
  constructor
  · rintro (⟨hsz, -, habove, -⟩ | ⟨hsz, -⟩ | ⟨f, -, -, hge, hlt, hfails, hclear⟩)
    · exact ⟨hsz, habove⟩
    · omega
    · exact absurd hclear (hmem f hge hlt hfails)
  · rintro ⟨hsz, habove⟩
    exact .below hsz (by omega) habove fun h => by omega

theorem sbrkOk_grow {r : Nat} (hnd : km.free.Nodup) (hun : Unshared km p.pagetable)
    (hn : 0 < argint r) (hwrap : (p.sz % 2 ^ 32 : Nat) + argint r < 2 ^ 32) :
    SbrkOk km p (argint r) (sysSbrk km p r) ↔ SbrkSafe km p (argint r) := by
  have hgrown : GrowEnd p.pagetable km (p.sz % 2 ^ 32) ((p.sz % 2 ^ 32 : Nat) + argint r).toNat
      (uvmalloc km p.pagetable (p.sz % 2 ^ 32) ((p.sz % 2 ^ 32 : Nat) + argint r).toNat) :=
    uvmalloc_grown (by omega) (by omega)
  have hgrow := growproc_grow km p hn hwrap
  generalize uvmalloc km p.pagetable (p.sz % 2 ^ 32) ((p.sz % 2 ^ 32 : Nat) + argint r).toNat =
    x at hgrown hgrow
  cases hgrown with
  | @done km' pt' h =>
    have hne : ¬ ((p.sz % 2 ^ 32 : Nat) + argint r).toNat = 0 := by omega
    rw [sysSbrk_of_ok (hgrow.trans (if_neg hne)), if_pos rfl, sbrkOk_grown hnd hun hn hwrap
      ⟨rfl, rfl⟩ h]
    refine (sbrkSafe_grow_iff hn hwrap fun f _ hlt hfails _ => ?_).symm
    exact absurd ((demand_mono hlt).trans h.enough) (Nat.not_le_of_lt hfails.short)
  | @remap v hge hlt hnew henough =>
    rw [sysSbrk_of_error hgrow]
    refine iff_of_false not_sbrkOk_error fun hsafe => ?_
    have hclear : ∀ f, npages (p.sz % 2 ^ 32) ≤ f →
        f < npages ((p.sz % 2 ^ 32 : Nat) + argint r).toNat →
        FailsAt (growPlan (npages (p.sz % 2 ^ 32))) p.pagetable km f →
        ¬ ∀ w, npages (p.sz % 2 ^ 32) ≤ w → w < f → p.pagetable.leaf w = none := by
      intro f _ _ hfails hclear
      by_cases hvf : v < f
      · exact hnew (hclear v hge hvf)
      · have hmono : demand (growPlan (npages (p.sz % 2 ^ 32))) p.pagetable (f + 1) ≤
            demand (growPlan (npages (p.sz % 2 ^ 32))) p.pagetable (v + 1) := demand_mono (by omega)
        exact absurd (hmono.trans henough) (Nat.not_le_of_lt hfails.short)
    obtain ⟨hsz, habove⟩ := (sbrkSafe_grow_iff hn hwrap hclear).mp hsafe
    have hcut : p.sz % 2 ^ 32 = p.sz := by omega
    rw [hcut] at hge
    have hup : npages ((p.sz % 2 ^ 32 : Nat) + argint r).toNat ≤ UPAGES :=
      (npages_le (by omega)).trans (by decide)
    exact hnew (habove v hge (by omega))
  | @nomem f km' pt' hge hlt hfails hclear hleaf hkept =>
    have hfailed : growproc km p (argint r) = .ok (false, km', { p with pagetable := pt' }) := hgrow
    rw [sysSbrk_of_ok hfailed, if_neg Bool.false_ne_true]
    refine iff_of_true (SbrkOk.iff_of_ok.mpr (.inl ⟨rfl, rfl, fun v _ => ?_⟩))
      (.nomem f hn hwrap hge hlt hfails hclear)
    rw [hleaf]

theorem sbrkOk_shrink {r : Nat} (hn : argint r < 0) (hwrap : 0 ≤ (p.sz % 2 ^ 32 : Nat) + argint r) :
    SbrkOk km p (argint r) (sysSbrk km p r) ↔ SbrkSafe km p (argint r) := by
  have hsafe : SbrkSafe km p (argint r) ↔
      (p.sz < 2 ^ 31 ∧ ∀ v, npages p.sz ≤ v → v < UPAGES → p.pagetable.leaf v = none) ∧
      Unmappable p.pagetable (npages ((p.sz % 2 ^ 32 : Nat) + argint r).toNat)
        (npages (p.sz % 2 ^ 32) - npages ((p.sz % 2 ^ 32 : Nat) + argint r).toNat) := by
    constructor
    · rintro (⟨hsz, -, habove, htable⟩ | ⟨-, h⟩ | ⟨-, h, -⟩)
      · have hcut : p.sz % 2 ^ 32 = p.sz := by omega
        rw [hcut]
        exact ⟨⟨hsz, habove⟩, htable hn⟩
      · omega
      · omega
    · rintro ⟨⟨hsz, habove⟩, htable⟩
      have hcut : p.sz % 2 ^ 32 = p.sz := by omega
      rw [hcut] at htable hwrap
      exact .below hsz hwrap habove fun _ => htable
  rw [hsafe]
  have hmod : p.sz % 2 ^ 32 < 2 ^ 32 := Nat.mod_lt _ (by decide)
  have hmono : npages ((p.sz % 2 ^ 32 : Nat) + argint r).toNat ≤ npages (p.sz % 2 ^ 32) :=
    npages_mono (by omega)
  have hlt : (npages ((p.sz % 2 ^ 32 : Nat) + argint r).toNat +
      (npages (p.sz % 2 ^ 32) - npages ((p.sz % 2 ^ 32 : Nat) + argint r).toNat)) *
          PGSIZE < 2 ^ 64 := by
    rw [Nat.add_sub_cancel' hmono]
    exact lt_of_le_of_lt (Nat.mul_le_mul_right PGSIZE (npages_le (Nat.le_of_lt hmod))) (by decide)
  have hreturns := uvmunmap_returns km p.pagetable true hlt
  have hpost := uvmunmap_post km p.pagetable true hlt
  have hshrink := growproc_shrink km p hn hwrap
  cases hx : uvmunmap km p.pagetable (npages ((p.sz % 2 ^ 32 : Nat) + argint r).toNat * PGSIZE)
      (npages (p.sz % 2 ^ 32) - npages ((p.sz % 2 ^ 32 : Nat) + argint r).toNat) true with
  | error e =>
    rw [hx] at hshrink hreturns
    rw [sysSbrk_of_error hshrink]
    refine iff_of_false not_sbrkOk_error fun h => ?_
    obtain ⟨x, h⟩ := hreturns.mpr h.2
    cases h
  | ok x =>
    obtain ⟨km', pt'⟩ := x
    rw [hx] at hshrink hreturns
    rw [sysSbrk_of_ok hshrink, if_pos rfl, sbrkOk_shrunk hn hwrap ⟨rfl, rfl⟩ (hpost.of_ok hx),
      and_iff_left (hreturns.mp ⟨_, rfl⟩)]

end

/-- `sbrk` moves the break by `n`, or fails and changes nothing, exactly in the states of
`SbrkSafe`. -/
theorem sbrk_moves_break (km : Kmem) (p : Proc) (r : Nat) (hnd : km.free.Nodup)
    (hun : Unshared km p.pagetable) :
    SbrkOk km p (argint r) (sysSbrk km p r) ↔ SbrkSafe km p (argint r) := by
  have hrange : -2 ^ 31 ≤ argint r ∧ argint r < 2 ^ 31 := int32_range r
  have hmod : p.sz % 2 ^ 32 < 2 ^ 32 := Nat.mod_lt _ (by decide)
  rcases lt_trichotomy (argint r) 0 with hn | hn | hn
  · by_cases hwrap : 0 ≤ (p.sz % 2 ^ 32 : Nat) + argint r
    · exact sbrkOk_shrink hn hwrap
    · obtain ⟨p', hgrow, hp'⟩ := growproc_below km p hn hrange.1 (by omega)
      rw [sysSbrk_of_ok hgrow, if_pos rfl, sbrkOk_cut hrange hp']
      refine iff_of_false (by omega) ?_
      rintro (⟨hsz, h, -⟩ | ⟨-, h⟩ | ⟨-, h, -⟩) <;> omega
  · have hgrow : growproc km p (argint r) = .ok (true, km, { p with sz := p.sz % 2 ^ 32 }) := by
      rw [hn]
      exact growproc_zero km p
    rw [sysSbrk_of_ok hgrow, if_pos rfl,
      sbrkOk_cut hrange (⟨rfl, rfl⟩ : Sized p.pagetable (p.sz % 2 ^ 32)
        { p with sz := p.sz % 2 ^ 32 })]
    constructor
    · rintro (h | ⟨-, hsz, habove⟩)
      · exact .top h (by omega)
      · exact .below hsz (by omega) habove fun h => by omega
    · rintro (⟨hsz, -, habove, -⟩ | ⟨hsz, -⟩ | ⟨-, h, -⟩)
      · exact .inr ⟨hn, hsz, habove⟩
      · exact .inl hsz
      · omega
  · by_cases hwrap : (p.sz % 2 ^ 32 : Nat) + argint r < 2 ^ 32
    · exact sbrkOk_grow hnd hun hn hwrap
    · obtain ⟨p', hgrow, hp'⟩ := growproc_wrap km p hn hrange.2 (by omega)
      rw [sysSbrk_of_ok hgrow, if_pos rfl, sbrkOk_cut hrange hp']
      constructor
      · rintro (h | ⟨h, -⟩)
        · exact .top h (by omega)
        · omega
      · rintro (⟨hsz, -⟩ | ⟨hsz, -⟩ | ⟨-, -, h, -⟩)
        · omega
        · exact .inl hsz
        · omega

/-- The first process maps three regions of a file, which brings its size to `2 ^ 32 + 4096`. -/
def bigMaps : List Action :=
  [.openAlloc 0 1 0, .openFinish 0, .mmap 0 (2 ^ 31 - 4096) 1 2 0 0,
    .mmap 0 (2 ^ 31 - 4096) 1 2 0 0, .mmap 0 8192 1 2 0 0]

/-- `sbrk(0)` then moves its break to 4096. -/
theorem sbrk_zero_cuts_break :
    ∃ s s' km' p', Booted Fs.tinySb s ∧ Lib.exec (step Fs.tinySb) s bigMaps = .next s' ∧
    (s'.proc 0).sz = 2 ^ 32 + 4096 ∧ sysSbrk s'.sys.km (s'.proc 0) 0 = .ok (4096, km', p') ∧
    p'.sz = 4096 ∧ ¬ SbrkOk s'.sys.km (s'.proc 0) 0 (sysSbrk s'.sys.km (s'.proc 0) 0) := by
  have hrun : (tinyBoot.bind fun s => (Lib.exec (step Fs.tinySb) s bigMaps).next?.bind fun s' =>
      (sysSbrk s'.sys.km (s'.proc 0) 0).toOption.map fun r => ((s'.proc 0).sz, r.1, r.2.2.sz)) =
        some (2 ^ 32 + 4096, 4096, 4096) := by
    decide +kernel
  obtain ⟨s, hs, hbind⟩ := Option.bind_eq_some_iff.mp hrun
  obtain ⟨s', hs', hmap⟩ := Option.bind_eq_some_iff.mp hbind
  obtain ⟨⟨ret, km', p'⟩, hsbrk, heq⟩ := Option.map_eq_some_iff.mp hmap
  simp only [Prod.mk.injEq] at heq
  obtain ⟨hsz, rfl, hsz'⟩ := heq
  have hok : sysSbrk s'.sys.km (s'.proc 0) 0 = .ok (4096, km', p') := eq_ok_of_toOption hsbrk
  refine ⟨s, s', km', p', tinyBoot_booted hs, Outcome.next?_eq_some.mp hs', hsz, hok, hsz', ?_⟩
  rw [hok, SbrkOk.iff_of_ok]
  rintro (⟨h, -⟩ | ⟨h, -⟩)
  · exact absurd h (by decide)
  · rw [hsz] at h
    exact absurd h (by decide)

/-- A process with one page, and five free pages. -/
theorem sbrk_moves_break_onePage : SbrkOk ⟨[31, 32, 33, 34, 35], fun _ => Bytes.zero⟩
    { Proc.zero with sz := 4096, pagetable := onePage } (argint 4096)
    (sysSbrk ⟨[31, 32, 33, 34, 35], fun _ => Bytes.zero⟩
        { Proc.zero with sz := 4096, pagetable := onePage } 4096) := by
  refine (sbrk_moves_break ⟨[31, 32, 33, 34, 35], fun _ => Bytes.zero⟩
    { Proc.zero with sz := 4096, pagetable := onePage }
    4096 (by decide) (fun v pte h => ?_)).mpr
      (.below (by decide) (by decide) (fun v hv _ => ?_) fun h => absurd h (by decide))
  · have hv := onePage_leaf (Option.ne_none_iff_exists'.mpr ⟨pte, h⟩)
    rw [hv] at h
    obtain rfl : pte = ⟨7, ⟨true, true, false, true⟩⟩ :=
      Option.some.inj (h.symm.trans (by decide +kernel))
    decide
  · by_contra hleaf
    rw [onePage_leaf hleaf] at hv
    exact absurd hv (by decide)

end Xv6.Kernel
