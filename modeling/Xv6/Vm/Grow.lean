import Xv6.Vm.Fill

/-! # Growing and shrinking, with memory running out

What `uvmalloc` and `uvmdealloc` do to a page table for sizes below `2 ^ 32`, whatever is mapped in
it: when they panic, when memory runs out, and which pages are mapped afterwards.
-/

namespace Xv6.Vm

open Function Lib

/-- The pages that `uvmalloc` maps from page `v₀` on. -/
def growPlan (v₀ : Nat) : Plan := fun v => if v₀ ≤ v then some (.user, Bytes.zero) else none

section

variable {want : Plan} {pt pt' : PageTable} {km km' km₁ : Kmem} {v₀ v w n p N : Nat}

theorem growPlan_some (h : v₀ ≤ v) : growPlan v₀ v = some (.user, Bytes.zero) := if_pos h

theorem growPlan_eq_none : growPlan v₀ v = none ↔ v < v₀ := by
  unfold growPlan
  split
  · exact iff_of_false (Option.some_ne_none _) (by omega)
  · exact iff_of_true rfl (by omega)

theorem Filling.start (h : ∀ u, u < v → want u = none) : Filling want pt km v km pt := by
  induction v with
  | zero => exact .zero
  | succ v ih => exact (ih fun u hu => h u (by omega)).skip (h v (Nat.lt_succ_self v))

/-- The part of `uvmalloc` that gives the pages below `v` back. -/
def growErr (v₀ v : Nat) (km : Kmem) (pt : PageTable) : Except Panic (Bool × Kmem × PageTable) := do
  let (_, km, pt) ← uvmdealloc km pt (v * PGSIZE) (v₀ * PGSIZE)
  return (false, km, pt)

/-- How the loop of `uvmalloc` over the pages from `v₀` to `N` ends. -/
inductive GrowRun (pt : PageTable) (km : Kmem) (v₀ N : Nat) :
    Except Panic (Bool × Kmem × PageTable) → Prop
  | done {km' : Kmem} {pt' : PageTable} (h : Filling (growPlan v₀) pt km N km' pt') :
      GrowRun pt km v₀ N (.ok (true, km', pt'))
  /-- a page is mapped -/
  | remap {v : Nat} (hv₀ : v₀ ≤ v) (hv : v < N) (hnew : pt.leaf v ≠ none)
      (henough : demand (growPlan v₀) pt (v + 1) ≤ km.free.length) :
      GrowRun pt km v₀ N (.error .mappagesRemap)
  /-- memory has run out at page `v` -/
  | undo {v : Nat} {km' : Kmem} {pt' : PageTable} (hv₀ : v₀ ≤ v) (hv : v < N)
      (hfails : FailsAt (growPlan v₀) pt km v) (h : FilledTo (growPlan v₀) pt km v km' pt') :
      GrowRun pt km v₀ N (growErr v₀ v km' pt')

theorem uvmallocLoop_nomem (hk : kalloc km = none) :
    uvmallocLoop (v₀ * PGSIZE) (n + 1) (v * PGSIZE) km pt = growErr v₀ v km pt := by
  rw [uvmallocLoop, hk]
  rfl

/-- A page for which there is memory, up to what `mappages` does. -/
theorem uvmallocLoop_page (hk : kalloc km = some (p, km₁)) :
    uvmallocLoop (v₀ * PGSIZE) (n + 1) (v * PGSIZE) km pt =
      match mappages ⟨km₁.free, update km₁.mem p Bytes.zero⟩ pt
      (v * PGSIZE) PGSIZE p .user with
      | .error e => .error e
      | .ok (true, km, pt) => uvmallocLoop (v₀ * PGSIZE) n ((v + 1) * PGSIZE) km pt
      | .ok (false, km, pt) => growErr v₀ v (kfree km p) pt := by
  rw [uvmallocLoop, hk]
  dsimp only [Kmem.clear]
  generalize mappages ⟨km₁.free, update km₁.mem p Bytes.zero⟩ pt
    (v * PGSIZE) PGSIZE p .user = r
  obtain e | ⟨_ | _, km₂, pt₂⟩ := r
  · rfl
  · rfl
  · rw [Nat.succ_mul]
    rfl

/-- The pages for which there is memory lie below `MAXVA`. -/
theorem uvmallocLoop_run (hmax : ∀ u, v₀ ≤ u → u < v + n → demand (growPlan v₀) pt u ≤
    km.free.length → u * PGSIZE < MAXVA)
    (hv₀ : v₀ ≤ v) (hc : Filling (growPlan v₀) pt km v km' pt') :
    GrowRun pt km v₀ (v + n) (uvmallocLoop (v₀ * PGSIZE) n (v * PGSIZE) km' pt') := by
  induction n generalizing v km' pt' with
  | zero => exact .done hc
  | succ n ih =>
    have hlast : v < v + (n + 1) := by omega
    have hva : v * PGSIZE < MAXVA := hmax v hv₀ hlast hc.enough
    have hplan : growPlan v₀ v = some (.user, Bytes.zero) := growPlan_some hv₀
    have hsome : growPlan v₀ v ≠ none := by
      rw [hplan]
      exact Option.some_ne_none _
    have hd := hc.demand_succ (page_lt_of_mul hva) hsome
    have hlen := hc.length
    have hfails : km.free.length < demand (growPlan v₀) pt (v + 1) →
        FailsAt (growPlan v₀) pt km v :=
      fun hshort => ⟨hsome, hc.enough, hshort⟩
    cases hk : kalloc km' with
    | none =>
      rw [kalloc_nil hk, List.length_nil, Nat.zero_add] at hlen
      rw [uvmallocLoop_nomem hk]
      exact .undo hv₀ hlast (hfails (by omega)) hc.toFilledTo
    | some r =>
      obtain ⟨p, km₁⟩ := r
      rw [(kalloc_cons hk).1, List.length_cons] at hlen
      rw [uvmallocLoop_page hk]
      by_cases henough : demand (growPlan v₀) pt (v + 1) ≤ km.free.length
      · by_cases hnew : pt.leaf v = none
        · obtain ⟨km₂, pt₂, hmap, hc₂⟩ := hc.take hva hplan hnew hk henough rfl
          dsimp only at hmap
          rw [hmap, show v + (n + 1) = v + 1 + n by omega]
          exact ih (fun u hu hlt => hmax u hu (by omega)) (by omega) hc₂
        · have hnew' : pt'.leaf v ≠ none := by
            rw [hc.hole v (.inl (Nat.le_refl v))]
            exact hnew
          rw [mappages_remap _ p .user hva hnew']
          exact .remap hv₀ hlast hnew henough
      · obtain ⟨km₂, pt₂, hmap, hgrown, hleaf₂, htab₂⟩ := mappages_short
          ⟨km₁.free, update km₁.mem p Bytes.zero⟩ pt' p .user hva
          (show km₁.free.length < pt'.missing v by omega)
        rw [hmap]
        exact .undo hv₀ hlast (hfails (by omega)) (hc.giveBack hk hgrown hleaf₂ htab₂)

/-! ## `uvmdealloc` -/

theorem npages_le {sz : Nat} (h : sz ≤ 2 ^ 32) : npages sz ≤ 2 ^ 20 := by
  simp only [npages, PGSIZE]
  omega

theorem uvmdealloc_eq {oldsz newsz : Nat} (hold : oldsz ≤ 2 ^ 32) (hlt : newsz < oldsz) :
    uvmdealloc km pt oldsz newsz = (do
      let (km, pt) ← uvmunmap km pt (npages newsz * PGSIZE) (npages oldsz - npages newsz) true
      return (newsz, km, pt)) := by
  have hbig : (2 : Nat) ^ 32 ≤ 2 ^ 63 := by decide
  have hle := npages_le hold
  unfold uvmdealloc
  rw [if_neg (by omega), PGROUNDUP_eq (show newsz ≤ 2 ^ 63 by omega),
    PGROUNDUP_eq (show oldsz ≤ 2 ^ 63 by omega)]
  by_cases hpages : npages newsz < npages oldsz
  · have hint : u64 (int32 (((npages oldsz * PGSIZE : Nat) - (npages newsz * PGSIZE : Nat) : Int) /
        PGSIZE)) = npages oldsz - npages newsz := by
      have hdiv : ((npages oldsz * PGSIZE : Nat) - (npages newsz * PGSIZE : Nat) : Int) / PGSIZE =
          ((npages oldsz - npages newsz : Nat) : Int) := by
        rw [Nat.cast_mul, Nat.cast_mul, ← Int.sub_mul, Int.mul_ediv_cancel _ (by decide)]
        omega
      rw [hdiv, int32_of_range (by omega) (by omega), u64_natCast (by omega)]
    rw [if_pos (Nat.mul_lt_mul_of_pos_right hpages (by decide))]
    dsimp only
    rw [hint]
  · have hnone : uvmunmap km pt (npages newsz * PGSIZE) 0 true = .ok (km, pt) := by
      have hlt : npages newsz * PGSIZE < 2 ^ 64 := by
        simp only [npages, PGSIZE]
        omega
      unfold uvmunmap
      rw [if_neg (by rw [Nat.mul_mod_left]; exact not_not.mpr rfl), Nat.zero_mul, Nat.add_zero,
        Nat.mod_eq_of_lt hlt, Nat.sub_self, Nat.zero_div]
      rfl
    rw [if_neg fun h => hpages (Nat.lt_of_mul_lt_mul_right h), show npages oldsz - npages newsz =
      0 by omega, hnone]
    rfl

theorem uvmdealloc_pages {oldsz newsz : Nat} (hold : npages oldsz ≤ RAMPAGES) :
    Post (fun _ => True) (fun r => (∀ q, pages r.2.1 r.2.2 q = pages km pt q) ∧
      r.1 = min newsz oldsz ∧
      r.2.2.leaf = VMap.unmap pt.leaf (npages r.1) (npages oldsz - npages r.1))
    (uvmdealloc km pt oldsz newsz) := by
  by_cases hlt : newsz < oldsz
  · have hsz : oldsz ≤ 2 ^ 32 := by
      simp only [npages, RAMPAGES, PGSIZE] at hold
      omega
    have hup : npages newsz + (npages oldsz - npages newsz) ≤ UPAGES := by
      have hmono := npages_mono (Nat.le_of_lt hlt)
      have hbig : RAMPAGES < UPAGES := by decide
      omega
    rw [uvmdealloc_eq hsz hlt]
    refine (uvmunmap_pages km pt hup).bind fun r hr => Post.pure ⟨hr.1, ?_, hr.2⟩
    exact (Nat.min_eq_left (Nat.le_of_lt hlt)).symm
  · have hge := Nat.le_of_not_lt hlt
    rw [uvmdealloc, if_pos hge]
    refine .ok ⟨fun _ => rfl, (Nat.min_eq_right hge).symm, ?_⟩
    rw [Nat.sub_self, VMap.unmap_zero]

theorem growErr_restores (h : FilledTo (growPlan v₀) pt km v km' pt') (hv₀ : v₀ ≤ v)
    (hv : v * PGSIZE ≤ 2 ^ 32) :
    ∃ km₂ pt₂, growErr v₀ v km' pt' = .ok (false, km₂, pt₂) ∧ pt₂.leaf = pt.leaf ∧
      (∀ p, p ∉ km.free → km₂.mem p = km.mem p) ∧
      ∀ U q, v ≤ U → km₂.free.count q + pt₂.nodes q + VMap.leaves pt₂.leaf U q =
        km.free.count q + pt.nodes q + VMap.leaves pt.leaf U q := by
  unfold growErr
  by_cases heq : v₀ = v
  · refine ⟨km', pt', ?_, funext fun u => h.hole u ?_, h.kept, h.count⟩
    · rw [heq, uvmdealloc, if_pos (Nat.le_refl _)]
      rfl
    · rw [growPlan_eq_none]
      omega
  · have hlt : v₀ < v := Nat.lt_of_le_of_ne hv₀ heq
    have hsz : (v₀ + (v - v₀)) * PGSIZE < 2 ^ 64 := by
      rw [Nat.add_sub_cancel' hv₀]
      exact lt_of_le_of_lt hv (by decide)
    rw [uvmdealloc_eq hv (Nat.mul_lt_mul_of_pos_right hlt (by decide)), npages_mul, npages_mul]
    have hgood : Unmappable pt' v₀ (v - v₀) := by
      intro w hle hw
      have hwv : w < v := by omega
      have hva : w * PGSIZE < MAXVA :=
        lt_of_lt_of_le (Nat.mul_lt_mul_of_pos_right hwv (by decide)) (hv.trans (by decide))
      refine ⟨hva, (h.table w).mpr (.inr ⟨page_lt_of_mul hva, hasMate_iff.mpr ⟨w, hwv, rfl, ?_⟩⟩),
        fun pte hpte => ?_⟩
      · rw [growPlan_some hle]
        exact Option.some_ne_none _
      · obtain ⟨q, -, hq⟩ := h.mapped w _ hwv (growPlan_some hle)
        rw [hq] at hpte
        cases hpte
        rfl
    obtain ⟨⟨km₂, pt₂⟩, hr⟩ := (uvmunmap_returns km' pt' true hsz).mpr hgood
    have hun := (uvmunmap_post km' pt' true hsz).of_ok hr
    refine ⟨km₂, pt₂, by rw [hr]; rfl, funext fun u => ?_, fun p hp => ?_, fun U q hU => ?_⟩
    · rw [hun.leaf, VMap.unmap]
      by_cases hu : v₀ ≤ u ∧ u < v₀ + (v - v₀)
      · rw [if_pos hu, h.clear u (by omega)]
        rw [growPlan_some hu.1]
        exact Option.some_ne_none _
      · rw [if_neg hu]
        refine h.hole u ?_
        rw [growPlan_eq_none]
        omega
    · rw [hun.mem]
      exact h.kept p hp
    · have hnodes := hun.nodes q
      have hfreed := hun.freed rfl U q (by omega)
      dsimp only at hnodes hfreed
      rw [← h.count U q hU]
      omega

/-! ## `uvmalloc` -/

/-- How `uvmalloc` ends. -/
inductive GrowEnd (pt : PageTable) (km : Kmem) (oldsz newsz : Nat) :
    Except Panic (Nat × Kmem × PageTable) → Prop
  | done {km' : Kmem} {pt' : PageTable}
      (h : Filling (growPlan (npages oldsz)) pt km (npages newsz) km' pt') :
      GrowEnd pt km oldsz newsz (.ok (newsz, km', pt'))
  | remap {v : Nat} (hv₀ : npages oldsz ≤ v) (hv : v < npages newsz) (hnew : pt.leaf v ≠ none)
      (henough : demand (growPlan (npages oldsz)) pt (v + 1) ≤ km.free.length) :
      GrowEnd pt km oldsz newsz (.error .mappagesRemap)
  | nomem {f : Nat} {km' : Kmem} {pt' : PageTable} (hv₀ : npages oldsz ≤ f) (hf : f < npages newsz)
      (hfails : FailsAt (growPlan (npages oldsz)) pt km f)
      (hclear : ∀ w, npages oldsz ≤ w → w < f → pt.leaf w = none) (hleaf : pt'.leaf = pt.leaf)
      (hkept : ∀ p, p ∉ km.free → km'.mem p = km.mem p)
      (hcount : ∀ U q, f ≤ U → km'.free.count q + pt'.nodes q + VMap.leaves pt'.leaf U q =
        km.free.count q + pt.nodes q + VMap.leaves pt.leaf U q) :
      GrowEnd pt km oldsz newsz (.ok (0, km', pt'))

/-- The pages for which there is memory lie below `2 ^ 32`. -/
theorem uvmalloc_end {oldsz newsz : Nat} (hold : oldsz ≤ 2 ^ 63) (hle : oldsz ≤ newsz)
    (hmax : ∀ u, u < npages newsz → demand (growPlan (npages oldsz)) pt u ≤ km.free.length →
      u * PGSIZE ≤ 2 ^ 32) :
    GrowEnd pt km oldsz newsz (uvmalloc km pt oldsz newsz) := by
  have hpages : npages oldsz ≤ npages newsz := npages_mono hle
  have hcount : (newsz + PGSIZE - 1 - npages oldsz * PGSIZE) / PGSIZE = npages newsz -
      npages oldsz := by
    simp only [npages, PGSIZE]
    omega
  unfold uvmalloc
  rw [if_neg (by omega)]
  dsimp only
  rw [PGROUNDUP_eq hold, hcount]
  have hrun : GrowRun pt km (npages oldsz) (npages oldsz + (npages newsz - npages oldsz))
      (uvmallocLoop (npages oldsz * PGSIZE) (npages newsz - npages oldsz)
          (npages oldsz * PGSIZE) km pt) :=
    uvmallocLoop_run (fun u _ hu hd => lt_of_le_of_lt (hmax u (by omega) hd) (by decide))
      (Nat.le_refl _) (.start fun u hu => growPlan_eq_none.mpr hu)
  rw [Nat.add_sub_cancel' hpages] at hrun
  generalize uvmallocLoop (npages oldsz * PGSIZE) (npages newsz - npages oldsz)
    (npages oldsz * PGSIZE) km pt = r at hrun
  cases hrun with
  | done h => exact .done h
  | remap hv₀ hv hnew henough => exact .remap hv₀ hv hnew henough
  | @undo f km' pt' hv₀ hf hfails h =>
    obtain ⟨km₂, pt₂, hr, hleaf, hkept, hcount⟩ := growErr_restores h hv₀ (hmax f hf h.enough)
    rw [hr]
    refine .nomem hv₀ hf hfails (fun w hle hw => h.clear w hw ?_) hleaf hkept hcount
    rw [growPlan_some hle]
    exact Option.some_ne_none _

theorem uvmalloc_grown {oldsz newsz : Nat} (hle : oldsz ≤ newsz) (hlt : newsz < 2 ^ 32) :
    GrowEnd pt km oldsz newsz (uvmalloc km pt oldsz newsz) := by
  refine uvmalloc_end (hle.trans ((Nat.le_of_lt hlt).trans (by decide))) hle fun u hu _ => ?_
  simp only [npages, PGSIZE] at hu ⊢
  omega

/-! ## Dense user memory -/

theorem growPlan_demand (v₀ : Nat) (pt : PageTable) (v : Nat) :
    v - v₀ ≤ demand (growPlan v₀) pt v := by
  induction v with
  | zero => exact Nat.le_of_eq (Nat.zero_sub _)
  | succ v ih =>
    rw [demand]
    by_cases hv : v₀ ≤ v
    · rw [growPlan_some hv]
      simp only [Option.isSome_some, if_true]
      omega
    · omega

theorem Fits.grow_le {ram : List Nat} (h : Fits ram km pt) (him : UserMem pt.leaf v₀)
    (hv : demand (growPlan v₀) pt v ≤ km.free.length) : v ≤ RAMPAGES + RAMPAGES := by
  have hdemand := (growPlan_demand v₀ pt v).trans hv
  have hlen := h.free_length
  have hle := h.image_le him
  omega

theorem Fits.uvmalloc_end {ram : List Nat} {oldsz newsz : Nat} (h : Fits ram km pt)
    (him : UserMem pt.leaf (npages oldsz)) (hle : oldsz ≤ newsz) :
    GrowEnd pt km oldsz newsz (uvmalloc km pt oldsz newsz) := by
  refine Vm.uvmalloc_end ?_ hle fun u _ hu =>
    (Nat.mul_le_mul_right _ (h.grow_le him hu)).trans (by decide)
  have hk := h.image_le him
  simp only [npages, RAMPAGES, PGSIZE] at hk
  omega

theorem uvmalloc_pages {ram : List Nat} {oldsz newsz : Nat} (hfits : Fits ram km pt)
    (him : UserMem pt.leaf (npages oldsz)) : Post (fun _ => True)
      (fun r => (∀ q, pages r.2.1 r.2.2 q = pages km pt q) ∧ (r.1 = 0 → r.2.2.leaf = pt.leaf) ∧
        (r.1 ≠ 0 → UserMem r.2.2.leaf (npages r.1)))
      (uvmalloc km pt oldsz newsz) := by
  by_cases hlt : newsz < oldsz
  · rw [uvmalloc, if_pos hlt]
    exact .ok ⟨fun _ => rfl, fun _ => rfl, fun _ => him⟩
  have hle := Nat.le_of_not_lt hlt
  have hend := hfits.uvmalloc_end him hle
  generalize uvmalloc km pt oldsz newsz = r at hend
  cases hend with
  | remap => exact .error trivial
  | nomem _ _ hfails _ hleaf _ hcount =>
    exact .ok ⟨fun q => hcount UPAGES q ((hfits.grow_le him hfails.before).trans (by decide)),
      fun _ => hleaf, fun h => absurd rfl h⟩
  | done hf =>
    refine .ok ⟨fun q => hf.count UPAGES q ((hfits.grow_le him hf.enough).trans (by decide)),
      fun hzero => funext fun u => hf.hole u ?_, fun _ => ⟨fun v hv => ?_, fun v hv hup => ?_⟩⟩
    · -- a size of 0 means that there was nothing to map
      dsimp only at hzero
      rw [hzero]
      exact .inl (Nat.zero_le u)
    · by_cases hold : v < npages oldsz
      · rw [hf.hole v (.inr (growPlan_eq_none.mpr hold))]
        exact him.mapped v hold
      · obtain ⟨p, -, hp⟩ := hf.mapped v _ hv (growPlan_some (Nat.le_of_not_lt hold))
        rw [hp]
        exact Option.some_ne_none _
    · rw [hf.hole v (.inl hv)]
      exact him.unmapped v ((npages_mono hle).trans hv) hup

end

end Xv6.Vm
