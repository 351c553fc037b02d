import Xv6.Kernel.Contents
import Xv6.Kernel.Machine
import Xv6.Vm.Space

/-! # `munmap`

`sys_munmap` looks for a slot of `vma` that contains the start of the range and acts only if the
slot starts there. For every state of a process and every range it is decided whether exactly the
range is removed.
-/

namespace Xv6.Kernel

open Function Lib Vm

/-! ## Regions as sets of pages -/

/-- A valid region that page `v` belongs to. -/
def Vma.Covers (m : Vma) (v : Nat) : Prop := m.valid = true ∧ m.contains (v * PGSIZE) = true

/-- Page `v` is one of those from `PGROUNDDOWN(addr)` to `PGROUNDDOWN(addr)+PGROUNDUP(len)`. -/
def InRange (addr len v : Nat) : Prop :=
  argaddr addr / PGSIZE ≤ v ∧ v < argaddr addr / PGSIZE + npages (argint len).toNat

/-- Exactly the range has been removed. -/
structure Removed (sys : Sys) (p : Proc) (addr len : Nat) (sys' : Sys) (p' : Proc) : Prop where
  gone : ∀ v i, InRange addr len v → i < VMASIZE → (p.vma i).Covers v →
    (∀ j, j < VMASIZE → ¬ (p'.vma j).Covers v) ∧ p'.pagetable.leaf v = none
  regions : ∀ v i, ¬ InRange addr len v → i < VMASIZE → ((p'.vma i).Covers v ↔ (p.vma i).Covers v)
  entry : ∀ v, ¬ InRange addr len v → p'.pagetable.leaf v = p.pagetable.leaf v
  contents : ∀ v pte, ¬ InRange addr len v → p.pagetable.leaf v = some pte →
    sys'.km.mem pte.page = sys.km.mem pte.page

/-- The slot that `sys_munmap` finds is a valid region that starts at the range, and no other region
has pages in it. -/
structure StartsAt (p : Proc) (addr len i : Nat) : Prop where
  slot : munmapSlot p (PGROUNDDOWN (argaddr addr)) = some i
  valid : (p.vma i).valid = true
  start : (p.vma i).addr = PGROUNDDOWN (argaddr addr)
  only : ∀ v j, InRange addr len v → j < VMASIZE → (p.vma j).Covers v → j = i

/-- The processes and ranges for which `munmap` removes exactly the range. -/
inductive MunmapSafe (p : Proc) (addr len : Nat) : Prop
  /-- no page of the range belongs to a region -/
  | apart (h : ∀ v i, InRange addr len v → i < VMASIZE → ¬ (p.vma i).Covers v)
  /-- the range begins where a region does; no computation overflows -/
  | front (i : Nat) (hstart : StartsAt p addr len i) (hlen : argint len ≤ 2 ^ 31 - PGSIZE)
      (hend : PGROUNDDOWN (argaddr addr) + npages (argint len).toNat * PGSIZE < 2 ^ 64)
      (hleft : -2 ^ 31 ≤ (p.vma i).len - npages (argint len).toNat * PGSIZE)
  /-- the rounded length overflows, and the region had no page in memory -/
  | overflow (i : Nat) (hstart : StartsAt p addr len i) (hlen : 2 ^ 31 - PGSIZE < argint len)
      (hend : 2 ^ 32 ≤ (p.vma i).addr + (p.vma i).len)
      (hleaf : ∀ v, (p.vma i).Covers v → p.pagetable.leaf v = none)

section

variable {m : Vma} {v w n : Nat}

theorem contains_iff {va : Nat} :
    m.contains va = true ↔ m.addr ≤ va ∧ va < u64 (m.addr + m.len) := by
  unfold Vma.contains
  rw [Bool.and_eq_true, decide_eq_true_iff, decide_eq_true_iff]

/-- A slot after `munmap`, which is no longer valid if nothing is left of it. -/
theorem trim_front (hstart : m.addr = v * PGSIZE) (hlen : -2 ^ 31 ≤ m.len ∧ m.len < 2 ^ 31)
    (hend : (v + n) * PGSIZE < 2 ^ 64) (hn : n * PGSIZE < 2 ^ 31)
    (hleft : -2 ^ 31 ≤ m.len - (n * PGSIZE : Nat)) :
    (m.trim (n * PGSIZE : Nat)).len ≠ 0 ∧ (m.trim (n * PGSIZE : Nat)).contains (w * PGSIZE) = true ↔
      v + n ≤ w ∧ m.contains (w * PGSIZE) = true := by
  have hlen' : int32 (m.len - (n * PGSIZE : Nat)) = m.len - (n * PGSIZE : Nat) :=
    int32_of_range hleft (by omega)
  rw [contains_iff, contains_iff]
  simp only [Vma.trim, hstart, hlen', u64, PGSIZE] at *
  omega

/-- The end of the range is beyond the last address: the start of the region stays in it. -/
theorem trim_wrap (hstart : m.addr = v * PGSIZE) (hn : n * PGSIZE < 2 ^ 31)
    (hv : v * PGSIZE < 2 ^ 64) (hend : 2 ^ 64 ≤ (v + n) * PGSIZE)
    (hmem : m.contains (v * PGSIZE) = true) :
    (m.trim (n * PGSIZE : Nat)).len ≠ 0 ∧ (m.trim (n * PGSIZE : Nat)).contains (v * PGSIZE) =
    true := by
  rw [contains_iff] at hmem ⊢
  simp only [Vma.trim, hstart, int32_eq, Int.bmod, u64, PGSIZE] at *
  omega

theorem trim_low (hstart : m.addr = v * PGSIZE) (hlen : -2 ^ 31 ≤ m.len ∧ m.len < 2 ^ 31)
    (hn : n * PGSIZE < 2 ^ 31) (hleft : m.len - (n * PGSIZE : Nat) < -2 ^ 31)
    (hmem : m.contains (v * PGSIZE) = true) :
    v + n ≤ 2 ^ 21 ∧ m.contains (2 ^ 21 * PGSIZE) = true ∧ (m.trim (n * PGSIZE : Nat)).contains
    (2 ^ 21 * PGSIZE) = false := by
  rw [contains_iff] at hmem
  rw [← Bool.not_eq_true, contains_iff, contains_iff]
  simp only [Vma.trim, hstart, int32_eq, Int.bmod, u64, PGSIZE] at *
  omega

/-- The rounded length overflows, and the end of the region as well: its start stays in it. -/
theorem trim_overflow_kept (hstart : m.addr = v * PGSIZE) (hlen : -2 ^ 31 ≤ m.len ∧ m.len < 2 ^ 31)
    (hv : 2 ^ 31 ≤ v * PGSIZE) (hmem : m.contains (v * PGSIZE) = true)
    (hend : m.addr + m.len < 2 ^ 32) :
    (m.trim (-2 ^ 31)).len ≠ 0 ∧ (m.trim (-2 ^ 31)).contains (v * PGSIZE) = true := by
  rw [contains_iff] at hmem ⊢
  simp only [Vma.trim, hstart, int32_eq, Int.bmod, u64, PGSIZE] at *
  omega

theorem trim_overflow_gone (hstart : m.addr = v * PGSIZE) (hlen : -2 ^ 31 ≤ m.len ∧ m.len < 2 ^ 31)
    (hmem : m.contains (v * PGSIZE) = true) (hend : 2 ^ 32 ≤ m.addr + m.len) :
    (m.trim (-2 ^ 31)).contains (w * PGSIZE) = false ∧
    (m.contains (w * PGSIZE) = true → v ≤ w ∧ w < v + 2 ^ 19) := by
  rw [contains_iff] at hmem
  rw [← Bool.not_eq_true, contains_iff, contains_iff]
  simp only [Vma.trim, hstart, int32_eq, Int.bmod, u64, PGSIZE] at *
  omega

theorem pgRoundUpInt_eq {x : Int} (h : 0 < x) (hlt : x < 2 ^ 31) :
    x ≤ 2 ^ 31 - PGSIZE ∧ pgRoundUpInt x = (npages x.toNat * PGSIZE : Nat) ∧
    npages x.toNat * PGSIZE < 2 ^ 31 ∨
      2 ^ 31 - PGSIZE < x ∧ pgRoundUpInt x = -2 ^ 31 ∧ npages x.toNat = 2 ^ 19 := by
  unfold pgRoundUpInt
  rw [int32_eq]
  simp only [Int.bmod, npages, PGSIZE]
  omega

def unmapCount (v : Nat) (len : Int) : Nat :=
  ((v * PGSIZE + u64 (len.tdiv PGSIZE) * PGSIZE) % 2 ^ 64 - v * PGSIZE) / PGSIZE

theorem unmapCount_front (hv : v * PGSIZE < 2 ^ 64) (hn : n * PGSIZE < 2 ^ 31) :
    unmapCount v (n * PGSIZE : Nat) = if (v + n) * PGSIZE < 2 ^ 64 then n else 0 := by
  have hdiv : ((n * PGSIZE : Nat) : Int).tdiv PGSIZE = n := by
    rw [Int.natCast_mul]
    exact Int.mul_tdiv_cancel _ (by decide)
  unfold unmapCount
  rw [hdiv, u64_natCast (by simp only [PGSIZE] at hn; omega)]
  split <;> simp only [PGSIZE] at * <;> omega

theorem unmapCount_overflow (hv : v * PGSIZE < 2 ^ 64) :
    unmapCount v (-2 ^ 31) = if 2 ^ 31 ≤ v * PGSIZE then 0 else 2 ^ 52 - 2 ^ 19 := by
  have hdiv : u64 ((-2 ^ 31 : Int).tdiv PGSIZE) = 2 ^ 64 - 2 ^ 19 := by decide
  unfold unmapCount
  rw [hdiv]
  split <;> simp only [PGSIZE] at * <;> omega

end

/-! ## What a call does -/

section

variable {sb : Fs.Superblock} {sys sys' : Sys} {p p' : Proc} {addr len i v : Nat} {r : Int}

theorem munmapSlot_some (h : munmapSlot p addr = some i) :
    i < VMASIZE ∧ (p.vma i).contains addr = true := by
  obtain ⟨hi, hmem, -⟩ := List.find?_range_eq_some.mp h
  exact ⟨List.mem_range.mp hmem, hi⟩

/-- The first `r` bytes of region `i` are unmapped. -/
structure Trimmed (sys : Sys) (p : Proc) (i v : Nat) (r : Int) (sys' : Sys) (p' : Proc) : Prop where
  mem : sys'.km.mem = sys.km.mem
  unmappable : Unmappable p.pagetable v (unmapCount v r)
  leaf : p'.pagetable.leaf = VMap.unmap p.pagetable.leaf v (unmapCount v r)
  slot : ∀ w, (p'.vma i).Covers w ↔
    (p.vma i).valid = true ∧ ((p.vma i).trim r).len ≠ 0 ∧ ((p.vma i).trim r).contains (w * PGSIZE) =
    true
  other : ∀ j, j ≠ i → p'.vma j = p.vma j

theorem unmapCount_lt (hv : v * PGSIZE < 2 ^ 64) : (v + unmapCount v r) * PGSIZE < 2 ^ 64 := by
  have hmod : (v * PGSIZE + u64 (r.tdiv PGSIZE) * PGSIZE) % 2 ^ 64 < 2 ^ 64 :=
    Nat.mod_lt _ (by decide)
  have hle := Nat.div_mul_le_self ((v * PGSIZE + u64 (r.tdiv PGSIZE) * PGSIZE) % 2 ^ 64 - v *
    PGSIZE) PGSIZE
  rw [Nat.add_mul, unmapCount]
  omega

/-- `uvmunmap` looks at the number of pages through the end of the range only. -/
theorem uvmunmap_count {km : Kmem} {pt : PageTable} {do_free : Bool} (hv : v * PGSIZE < 2 ^ 64) :
    uvmunmap km pt (v * PGSIZE) (u64 (r.tdiv PGSIZE)) do_free =
      uvmunmap km pt (v * PGSIZE) (unmapCount v r) do_free := by
  have hcount : ((v * PGSIZE + unmapCount v r * PGSIZE) % 2 ^ 64 - v * PGSIZE) / PGSIZE =
      unmapCount v r := by
    rw [← Nat.add_mul, Nat.mod_eq_of_lt (unmapCount_lt hv), Nat.add_mul, Nat.add_sub_cancel_left,
      Nat.mul_div_cancel _ (by decide)]
  unfold uvmunmap
  rw [hcount, unmapCount]

/-- A call that finds no slot, or one that starts elsewhere, does nothing. -/
theorem sysMunmap_missed (hmiss : ∀ i, munmapSlot p (PGROUNDDOWN (argaddr addr)) = some i →
    (p.vma i).addr ≠ PGROUNDDOWN (argaddr addr)) : sysMunmap sb sys p addr len = .ok (sys, p) := by
  unfold sysMunmap
  dsimp only
  cases hslot : munmapSlot p (PGROUNDDOWN (argaddr addr)) with
  | none => rfl
  | some i => exact if_neg (hmiss i hslot)

theorem sysMunmap_trimmed (hslot : munmapSlot p (PGROUNDDOWN (argaddr addr)) = some i)
    (hstart : (p.vma i).addr = PGROUNDDOWN (argaddr addr)) : Post (fun _ => True)
      (fun r => Trimmed sys p i (argaddr addr / PGSIZE) (pgRoundUpInt (argint len)) r.1 r.2)
      (sysMunmap sb sys p addr len) := by
  have hv : argaddr addr / PGSIZE * PGSIZE < 2 ^ 64 :=
    lt_of_le_of_lt (Nat.div_mul_le_self _ _) (Nat.mod_lt _ (by decide))
  unfold sysMunmap
  dsimp only
  rw [hslot]
  dsimp only
  rw [if_pos hstart]
  refine writeback_km.bind fun sys₁ hkm => ?_
  have hunmap : Post (fun _ => True) (fun s => s.1.mem = sys.km.mem ∧
      Unmappable p.pagetable (argaddr addr / PGSIZE)
      (unmapCount (argaddr addr / PGSIZE) (pgRoundUpInt (argint len))) ∧
      s.2.leaf = VMap.unmap p.pagetable.leaf (argaddr addr / PGSIZE)
        (unmapCount (argaddr addr / PGSIZE) (pgRoundUpInt (argint len))))
      (uvmunmap sys₁.km p.pagetable (PGROUNDDOWN (argaddr addr))
          (u64 ((pgRoundUpInt (argint len)).tdiv PGSIZE)) true) := by
    rw [PGROUNDDOWN, uvmunmap_count hv]
    constructor
    · intro s hs
      have hdone := (uvmunmap_post _ _ _ (unmapCount_lt hv)).of_ok hs
      exact ⟨by rw [hdone.mem, hkm], (uvmunmap_returns _ _ _ (unmapCount_lt hv)).mp ⟨s, hs⟩,
        hdone.leaf⟩
    · exact fun _ => trivial
  refine (Post.mapError_iff.mpr hunmap).bind ?_
  rintro ⟨km, pt⟩ ⟨hmem, hmappable, hleaf⟩
  refine Post.ite (fun hzero => ?_) fun hnz =>
    Post.pure ⟨hmem, hmappable, hleaf, fun w => ?_, fun j hj => ?_⟩
  · refine fileclose_mem.bind fun sys₂ hclose =>
      Post.pure ⟨hclose.trans hmem, hmappable, hleaf, fun w => ?_, fun j hj => ?_⟩
    · simp [Proc.setVma, Vma.Covers, hzero]
    · exact update_of_ne hj _ _
  · simp only [Proc.setVma, update_self, Vma.Covers]
    exact ⟨fun h => ⟨h.1, hnz, h.2⟩, fun h => ⟨h.1, h.2.2⟩⟩
  · exact update_of_ne hj _ _

theorem removed_same : Removed sys p addr len sys p ↔ ∀ v i, InRange addr len v → i < VMASIZE →
    ¬ (p.vma i).Covers v := by
  constructor
  · exact fun h v i hv hi hcov => (h.gone v i hv hi hcov).1 i hi hcov
  · intro h
    exact ⟨fun v i hv hi hcov => absurd hcov (h v i hv hi), fun _ _ _ _ => Iff.rfl, fun _ _ => rfl,
      fun _ _ _ _ => rfl⟩

theorem npages_pos {x : Int} (h : 0 < x) : 0 < npages x.toNat := by
  simp only [npages, PGSIZE]
  omega

namespace Trimmed

variable (hlen : 0 < argint len)
    (h : Trimmed sys p i (argaddr addr / PGSIZE) (pgRoundUpInt (argint len)) sys' p')

include hlen h in
/-- How the rounded length and the pages gone through come out in a call that returns. -/
theorem lengths : argint len ≤ 2 ^ 31 - PGSIZE ∧ pgRoundUpInt (argint len) =
    (npages (argint len).toNat * PGSIZE : Nat) ∧
      npages (argint len).toNat * PGSIZE < 2 ^ 31 ∧ unmapCount (argaddr addr / PGSIZE)
      (pgRoundUpInt (argint len)) =
        (if (argaddr addr / PGSIZE + npages (argint len).toNat) * PGSIZE <
          2 ^ 64 then npages (argint len).toNat else 0) ∨
    2 ^ 31 - PGSIZE < argint len ∧ pgRoundUpInt (argint len) = -2 ^ 31 ∧
    npages (argint len).toNat = 2 ^ 19 ∧
      2 ^ 31 ≤ argaddr addr / PGSIZE * PGSIZE ∧ unmapCount (argaddr addr / PGSIZE)
      (pgRoundUpInt (argint len)) = 0 := by
  have hv : argaddr addr / PGSIZE * PGSIZE < 2 ^ 64 :=
    lt_of_le_of_lt (Nat.div_mul_le_self _ _) (Nat.mod_lt _ (by decide))
  obtain ⟨hle, hr, hn⟩ | ⟨hgt, hr, hn⟩ := pgRoundUpInt_eq hlen (int32_range _).2
  · refine .inl ⟨hle, hr, hn, ?_⟩
    rw [hr]
    exact unmapCount_front hv hn
  · have hcount : unmapCount (argaddr addr / PGSIZE) (pgRoundUpInt (argint len)) =
        if 2 ^ 31 ≤ argaddr addr / PGSIZE * PGSIZE then 0 else 2 ^ 52 - 2 ^ 19 := by
      rw [hr]
      exact unmapCount_overflow hv
    by_cases hlow : 2 ^ 31 ≤ argaddr addr / PGSIZE * PGSIZE
    · rw [if_pos hlow] at hcount
      exact .inr ⟨hgt, hr, hn, hlow, hcount⟩
    · -- the loop of `uvmunmap` would go on to `MAXVA`
      rw [if_neg hlow] at hcount
      have hlast := (h.unmappable (2 ^ 26) (by simp only [PGSIZE] at *; omega)
        (hcount ▸ Nat.lt_of_lt_of_le (by decide : 2 ^ 26 < 2 ^ 52 - 2 ^ 19)
          (Nat.le_add_left _ _))).1
      exact absurd hlast (by decide)

include hlen h in
theorem entry {w : Nat} (hw : ¬ InRange addr len w) : p'.pagetable.leaf w = p.pagetable.leaf w := by
  rw [h.leaf]
  refine if_neg fun hin => hw ⟨hin.1, ?_⟩
  obtain ⟨-, -, -, hcount⟩ | ⟨-, -, -, -, hcount⟩ := h.lengths hlen
  · rw [hcount] at hin
    split at hin <;> omega
  · omega

include h in
theorem only (hr : Removed sys p addr len sys' p') {w j : Nat} (hw : InRange addr len w)
    (hj : j < VMASIZE) (hcov : (p.vma j).Covers w) : j = i := by
  by_contra hne
  refine (hr.gone w j hw hj hcov).1 j hj ?_
  rw [h.other j hne]
  exact hcov

include hlen h in
theorem removed_iff_stale (hvalid : (p.vma i).valid = false) :
    Removed sys p addr len sys' p' ↔ ∀ v i, InRange addr len v → i < VMASIZE →
    ¬ (p.vma i).Covers v := by
  have hcovers : ∀ w j, (p'.vma j).Covers w ↔ (p.vma j).Covers w := by
    intro w j
    by_cases hj : j = i
    · rw [hj, h.slot, Vma.Covers, hvalid]
      simp
    · rw [h.other j hj]
  constructor
  · exact fun hr w j hw hj hcov => (hr.gone w j hw hj hcov).1 j hj ((hcovers w j).mpr hcov)
  · intro hapart
    exact ⟨fun w j hw hj hcov => absurd hcov (hapart w j hw hj), fun w j _ _ => hcovers w j,
      fun w hw => h.entry hlen hw, fun _ _ _ _ => by rw [h.mem]⟩

include hlen h in
/-- A valid region whose first pages are removed, and no overflow in the rounded length. -/
theorem removed_iff_front (hi : i < VMASIZE) (hm : -2 ^ 31 ≤ (p.vma i).len ∧ (p.vma i).len < 2 ^ 31)
    (hvalid : (p.vma i).valid = true) (hstart : (p.vma i).addr = argaddr addr / PGSIZE * PGSIZE)
    (hmem : (p.vma i).contains (argaddr addr / PGSIZE * PGSIZE) = true)
    (hle : argint len ≤ 2 ^ 31 - PGSIZE) :
    Removed sys p addr len sys' p' ↔ (argaddr addr / PGSIZE + npages (argint len).toNat) *
    PGSIZE < 2 ^ 64 ∧
      -2 ^ 31 ≤ (p.vma i).len - (npages (argint len).toNat * PGSIZE : Nat) ∧
      ∀ v j, InRange addr len v → j < VMASIZE → (p.vma j).Covers v → j = i := by
  have hv : argaddr addr / PGSIZE * PGSIZE < 2 ^ 64 :=
    lt_of_le_of_lt (Nat.div_mul_le_self _ _) (Nat.mod_lt _ (by decide))
  have hpos : 0 < npages (argint len).toNat := npages_pos hlen
  have hfirst : InRange addr len (argaddr addr / PGSIZE) := ⟨Nat.le_refl _, by omega⟩
  obtain ⟨-, hround, hn, hcount⟩ | ⟨hgt, -⟩ := h.lengths hlen
  · have hslot := h.slot
    rw [hround] at hslot
    constructor
    · intro hr
      have hgone := (hr.gone _ i hfirst hi ⟨hvalid, hmem⟩).1 i hi
      refine ⟨Nat.lt_of_not_le fun hwrap => ?_, Int.not_lt.mp fun hlow => ?_, fun w j => h.only hr⟩
      · exact hgone ((hslot _).mpr ⟨hvalid, trim_wrap hstart hn hv hwrap hmem⟩)
      · obtain ⟨habove, hin, hout⟩ := trim_low hstart hm hn hlow hmem
        have hkept := (hr.regions (2 ^ 21) i (fun hr => by have := hr.2; omega) hi).mpr
          ⟨hvalid, hin⟩
        rw [hslot, hout] at hkept
        exact Bool.false_ne_true hkept.2.2
    · rintro ⟨hend, hleft, honly⟩
      rw [if_pos hend] at hcount
      have hcovers : ∀ w, (p'.vma i).Covers w ↔ argaddr addr / PGSIZE + npages (argint len).toNat ≤
          w ∧ (p.vma i).Covers w := by
        intro w
        rw [hslot, trim_front hstart hm hend hn hleft, Vma.Covers]
        tauto
      refine ⟨fun w j hw hj hcov => ⟨fun k hk hcov' => ?_, ?_⟩, fun w j hw hj => ?_,
        fun w => h.entry hlen, fun _ _ _ _ => by rw [h.mem]⟩
      · by_cases hki : k = i
        · rw [hki, hcovers] at hcov'
          exact absurd hw.2 (Nat.not_lt.mpr hcov'.1)
        · rw [h.other k hki] at hcov'
          exact hki (honly w k hw hk hcov')
      · rw [h.leaf, hcount]
        exact if_pos hw
      · by_cases hji : j = i
        · rw [hji, hcovers]
          refine ⟨And.right, fun hcov => ⟨Nat.le_of_not_lt fun hlt => hw ⟨?_, hlt⟩, hcov⟩⟩
          have := (contains_iff.mp hcov.2).1
          rw [hstart] at this
          exact Nat.le_of_mul_le_mul_right this (by decide)
        · rw [h.other j hji]
  · omega

include hlen h in
/-- A valid region at which a range starts whose rounded length overflows. -/
theorem removed_iff_overflow (hi : i < VMASIZE)
    (hm : -2 ^ 31 ≤ (p.vma i).len ∧ (p.vma i).len < 2 ^ 31) (hvalid : (p.vma i).valid = true)
    (hstart : (p.vma i).addr = argaddr addr / PGSIZE * PGSIZE)
    (hmem : (p.vma i).contains (argaddr addr / PGSIZE * PGSIZE) = true)
    (hgt : 2 ^ 31 - PGSIZE < argint len) :
    Removed sys p addr len sys' p' ↔ 2 ^ 32 ≤ (p.vma i).addr + (p.vma i).len ∧
      (∀ v, (p.vma i).Covers v → p.pagetable.leaf v = none) ∧
      ∀ v j, InRange addr len v → j < VMASIZE → (p.vma j).Covers v → j = i := by
  have hpos : 0 < npages (argint len).toNat := npages_pos hlen
  have hfirst : InRange addr len (argaddr addr / PGSIZE) := ⟨Nat.le_refl _, by omega⟩
  obtain ⟨hle, -⟩ | ⟨-, hround, hn, hge, hcount⟩ := h.lengths hlen
  · omega
  · have hslot := h.slot
    rw [hround] at hslot
    -- nothing is unmapped
    have hleaf : p'.pagetable.leaf = p.pagetable.leaf := by
      rw [h.leaf, hcount]
      funext w
      exact if_neg (by omega)
    have hwithin : 2 ^ 32 ≤ (p.vma i).addr + (p.vma i).len → ∀ w, (p.vma i).Covers w →
        InRange addr len w := by
      intro hend w hcov
      have := (trim_overflow_gone (w := w) hstart hm hmem hend).2 hcov.2
      exact ⟨this.1, hn ▸ this.2⟩
    constructor
    · intro hr
      have hend : 2 ^ 32 ≤ (p.vma i).addr + (p.vma i).len := by
        refine Int.not_lt.mp fun hlt => (hr.gone _ i hfirst hi ⟨hvalid, hmem⟩).1 i hi ?_
        exact (hslot _).mpr ⟨hvalid, trim_overflow_kept hstart hm hge hmem hlt⟩
      refine ⟨hend, fun w hcov => ?_, fun w j => h.only hr⟩
      rw [← hleaf]
      exact (hr.gone w i (hwithin hend w hcov) hi hcov).2
    · rintro ⟨hend, hempty, honly⟩
      have hcovers : ∀ w, ¬ (p'.vma i).Covers w := by
        intro w hcov
        have := ((hslot w).mp hcov).2.2
        rw [(trim_overflow_gone hstart hm hmem hend).1] at this
        exact Bool.false_ne_true this
      refine ⟨fun w j hw hj hcov => ⟨fun k hk hcov' => ?_, ?_⟩, fun w j hw hj => ?_,
        fun w => h.entry hlen, fun _ _ _ _ => by rw [h.mem]⟩
      · by_cases hki : k = i
        · exact hcovers w (hki ▸ hcov')
        · rw [h.other k hki] at hcov'
          exact hki (honly w k hw hk hcov')
      · rw [hleaf]
        exact hempty w (honly w j hw hj hcov ▸ hcov)
      · by_cases hji : j = i
        · rw [hji]
          exact ⟨fun hcov => absurd hcov (hcovers w), fun hcov => absurd (hwithin hend w hcov) hw⟩
        · rw [h.other j hji]

end Trimmed

end

/-- A call of `munmap` that returns has removed exactly the range just in the cases of `MunmapSafe`.
In the others the range starts inside a region and is left alone, or a slot that is not in use is
found before the region, or a second region in the range loses its entries and stays valid. -/
theorem munmap_removes_range (sb : Fs.Superblock) (sys : Sys) (p : Proc) (addr len : Nat)
    (sys' : Sys) (p' : Proc) (hint : ∀ i, i < VMASIZE → -2 ^ 31 ≤ (p.vma i).len ∧ (p.vma i).len <
      2 ^ 31) (hlen : 0 < argint len)
    (hret : sysMunmap sb sys p addr len = .ok (sys', p')) :
    Removed sys p addr len sys' p' ↔ MunmapSafe p addr len := by
  by_cases hmiss : ∀ i, munmapSlot p (PGROUNDDOWN (argaddr addr)) = some i →
      (p.vma i).addr ≠ PGROUNDDOWN (argaddr addr)
  · rw [sysMunmap_missed hmiss] at hret
    cases hret
    rw [removed_same]
    constructor
    · exact .apart
    · rintro (h | ⟨i, hstart, -⟩ | ⟨i, hstart, -⟩)
      · exact h
      · exact absurd hstart.start (hmiss i hstart.slot)
      · exact absurd hstart.start (hmiss i hstart.slot)
  · obtain ⟨i, hfound⟩ := not_forall.mp hmiss
    obtain ⟨hslot, hstart⟩ := Classical.not_imp.mp hfound
    rw [not_not] at hstart
    have htrim := (sysMunmap_trimmed hslot hstart).of_ok hret
    obtain ⟨hi, hmem⟩ := munmapSlot_some hslot
    have hsame : ∀ j, StartsAt p addr len j → j = i :=
      fun j hj => Option.some.inj (hj.slot.symm.trans hslot)
    have hcover : (p.vma i).valid = true → ¬ ∀ v i, InRange addr len v → i < VMASIZE →
        ¬ (p.vma i).Covers v :=
      fun hvalid h => h _ i ⟨Nat.le_refl _, Nat.lt_add_of_pos_right (npages_pos hlen)⟩ hi
        ⟨hvalid, hmem⟩
    cases hvalid : (p.vma i).valid with
    | false =>
      have hnot : ∀ j, ¬ StartsAt p addr len j := by
        intro j hj
        have := hj.valid
        rw [hsame j hj, hvalid] at this
        exact Bool.false_ne_true this
      rw [htrim.removed_iff_stale hlen hvalid]
      constructor
      · exact .apart
      · rintro (h | ⟨j, hj, -⟩ | ⟨j, hj, -⟩)
        · exact h
        · exact absurd hj (hnot j)
        · exact absurd hj (hnot j)
    | true =>
      by_cases hle : argint len ≤ 2 ^ 31 - PGSIZE
      · rw [htrim.removed_iff_front hlen hi (hint i hi) hvalid hstart hmem hle]
        constructor
        · rintro ⟨hend, hleft, honly⟩
          refine .front i ⟨hslot, hvalid, hstart, honly⟩ hle ?_ hleft
          rw [Nat.add_mul] at hend
          exact hend
        · rintro (h | ⟨j, hj, -, hend, hleft⟩ | ⟨j, -, hgt, -⟩)
          · exact absurd h (hcover hvalid)
          · obtain rfl := hsame j hj
            rw [Nat.add_mul]
            exact ⟨hend, hleft, hj.only⟩
          · omega
      · rw [htrim.removed_iff_overflow hlen hi (hint i hi) hvalid hstart hmem (Int.not_le.mp hle)]
        constructor
        · rintro ⟨hend, hleaf, honly⟩
          exact .overflow i ⟨hslot, hvalid, hstart, honly⟩ (Int.not_le.mp hle) hend hleaf
        · rintro (h | ⟨j, -, hle', -⟩ | ⟨j, hj, -, hend, hleaf⟩)
          · exact absurd h (hcover hvalid)
          · exact absurd hle' hle
          · obtain rfl := hsame j hj
            exact ⟨hend, hleaf, hj.only⟩

/-- The only region of a process is that of slot 0, with two pages. -/
structure TwoPages (p : Proc) : Prop where
  slot : munmapSlot p 4096 = some 0 ∧ munmapSlot p 8192 = some 0
  valid : (p.vma 0).valid = true
  addr : (p.vma 0).addr = 4096
  len : (p.vma 0).len = 8192
  idle : ∀ i, i < VMASIZE → i ≠ 0 → (p.vma i).valid = false ∧ (p.vma i).len = 0

theorem twoPages_reached :
    ∃ s s' r, Booted Fs.tinySb s ∧ Lib.exec (step Fs.tinySb) s twoPages = .next s' ∧
    TwoPages (s'.proc 0) ∧ sysMunmap Fs.tinySb s'.sys (s'.proc 0) 4096 8192 = .ok r := by
  have hrun : (tinyBoot.bind fun s => (Lib.exec (step Fs.tinySb) s twoPages).next?.bind fun s' =>
      (sysMunmap Fs.tinySb s'.sys (s'.proc 0) 4096 8192).toOption.map fun _ =>
        ((munmapSlot (s'.proc 0) 4096, munmapSlot (s'.proc 0) 8192), ((s'.proc 0).vma 0).valid,
          ((s'.proc 0).vma 0).addr,
          ((s'.proc 0).vma 0).len, decide (∀ i, i < VMASIZE → i ≠ 0 →
            ((s'.proc 0).vma i).valid = false ∧
            ((s'.proc 0).vma i).len = 0))) = some ((some 0, some 0), true, 4096, 8192, true) := by
    decide +kernel
  obtain ⟨s, hs, hbind⟩ := Option.bind_eq_some_iff.mp hrun
  obtain ⟨s', hs', hmap⟩ := Option.bind_eq_some_iff.mp hbind
  obtain ⟨r, hr, heq⟩ := Option.map_eq_some_iff.mp hmap
  simp only [Prod.mk.injEq, decide_eq_true_iff] at heq
  obtain ⟨hslot, hvalid, haddr, hlen, hidle⟩ := heq
  exact ⟨s, s', r, tinyBoot_booted hs, Outcome.next?_eq_some.mp hs',
    ⟨hslot, hvalid, haddr, hlen, hidle⟩, eq_ok_of_toOption hr⟩

theorem TwoPages.covers {p : Proc} (h : TwoPages p) {i v : Nat} (hi : i < VMASIZE)
    (hcov : (p.vma i).Covers v) : i = 0 := by
  by_contra hne
  exact Bool.false_ne_true ((h.idle i hi hne).1.symm.trans hcov.1)

/-- `munmap` of the second page returns and leaves it mapped. -/
theorem munmap_leaves_suffix :
    ∃ s s' sys' p', Booted Fs.tinySb s ∧ Lib.exec (step Fs.tinySb) s twoPages = .next s' ∧
    TwoPages (s'.proc 0) ∧ sysMunmap Fs.tinySb s'.sys (s'.proc 0) 8192 4096 = .ok (sys', p') ∧
    InRange 8192 4096 2 ∧ (p'.vma 0).Covers 2 ∧ ¬ Removed s'.sys (s'.proc 0) 8192 4096 sys' p' := by
  obtain ⟨s, s', r, hs, hs', htwo, -⟩ := twoPages_reached
  have hcovers : ((s'.proc 0).vma 0).Covers 2 := by
    refine ⟨htwo.valid, contains_iff.mpr ?_⟩
    rw [htwo.addr, htwo.len]
    decide
  have hrange : InRange 8192 4096 2 := ⟨by decide, by decide⟩
  refine ⟨s, s', s'.sys, s'.proc 0, hs, hs', htwo, sysMunmap_missed fun i hi => ?_, hrange, hcovers,
    fun hr => ?_⟩
  · obtain rfl : i = 0 := Option.some.inj (hi.symm.trans htwo.slot.2)
    rw [htwo.addr]
    decide
  · exact (hr.gone 2 0 hrange (by decide) hcovers).1 0 (by decide) hcovers

/-- `munmap` of both pages. -/
theorem munmap_removes_range_twoPages : ∃ s s' sys' p', Booted Fs.tinySb s ∧
    Lib.exec (step Fs.tinySb) s twoPages = .next s' ∧
    Removed s'.sys (s'.proc 0) 4096 8192 sys' p' := by
  obtain ⟨s, s', ⟨sys', p'⟩, hs, hs', htwo, hret⟩ := twoPages_reached
  refine ⟨s, s', sys', p', hs, hs',
    (munmap_removes_range _ _ _ _ _ _ _ (fun i hi => ?_) (by decide) hret).mpr ?_⟩
  · by_cases hne : i = 0
    · rw [hne, htwo.len]
      decide
    · rw [(htwo.idle i hi hne).2]
      decide
  · refine .front 0 ⟨htwo.slot.1, htwo.valid, htwo.addr, fun v j _ hj hcov => htwo.covers hj hcov⟩
      (by decide) (by decide) ?_
    rw [htwo.len]
    decide

end Xv6.Kernel
