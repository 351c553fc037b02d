import Xv6.Vm.Fill

/-! # Copying address spaces with holes

`mmap` and `munmap` leave user memory with holes, which `uvmcopy` skips. When memory runs out it
takes back what it has copied with `uvmunmap`, which does not skip them.
-/

namespace Xv6.Vm

open Function Lib

def copyPlan (km : Kmem) (old : PageTable) : Plan :=
  fun v => (old.leaf v).map fun pte => (pte.perm, km.mem pte.page)

/-- No free page is mapped. -/
def Unshared (km : Kmem) (old : PageTable) : Prop :=
  ∀ u pte, old.leaf u = some pte → pte.page ∉ km.free

/-- The tail of `uvmcopy` behind the label `err`. -/
def copyErr (km : Kmem) (new : PageTable) (v : Nat) : Except Panic (Bool × Kmem × PageTable) := do
  let (km, new) ← uvmunmap km new 0 v true
  return (false, km, new)

/-- How `uvmcopy` of the pages below `N` ends. -/
inductive CopyRun (old new : PageTable) (km : Kmem) (N : Nat) :
    Except Panic (Bool × Kmem × PageTable) → Prop
  | done {km' : Kmem} {new' : PageTable} (h : Filling (copyPlan km old) new km N km' new') :
      CopyRun old new km N (.ok (true, km', new'))
  /-- the entry of a page does not exist -/
  | nopte {v : Nat} {e : Panic} (hv : v < N) (hwalk : ∀ x, walk old (v * PGSIZE) ≠ .ok (some x)) :
      CopyRun old new km N (.error e)
  /-- a page to copy is mapped in the new table -/
  | remap {v : Nat} (hv : v < N) (hold : old.leaf v ≠ none) (hnew : new.leaf v ≠ none)
      (henough : demand (copyPlan km old) new (v + 1) ≤ km.free.length) :
      CopyRun old new km N (.error .mappagesRemap)
  /-- memory has run out at page `v` -/
  | undo {v : Nat} {km' : Kmem} {new' : PageTable} (hv : v < N) (hva : v * PGSIZE < MAXVA)
      (hfails : FailsAt (copyPlan km old) new km v)
      (h : FilledTo (copyPlan km old) new km v km' new') : CopyRun old new km N (copyErr km' new' v)

section

variable {old new new' : PageTable} {km km' km₁ : Kmem} {v n p : Nat} {pte : Pte}

theorem copyPlan_eq_none : copyPlan km old v = none ↔ old.leaf v = none := Option.map_eq_none_iff

theorem copyPlan_some (h : old.leaf v = some pte) :
    copyPlan km old v = some (pte.perm, km.mem pte.page) := by
  rw [copyPlan, h]
  rfl

theorem CopyRun.copied {N : Nat} (h : CopyRun old new km N (.ok (true, km', new'))) :
    Filling (copyPlan km old) new km N km' new' := by
  generalize hr : (Except.ok (true, km', new') : Except Panic (Bool × Kmem × PageTable)) = r at h
  cases h with
  | done h =>
    cases hr
    exact h
  | nopte => cases hr
  | remap => cases hr
  | @undo f km₁ new₁ =>
    unfold copyErr at hr
    cases hunmap : uvmunmap km₁ new₁ 0 f true with
    | error e =>
      rw [hunmap] at hr
      cases hr
    | ok x =>
      rw [hunmap] at hr
      cases hr

theorem walk_found {e : Option Pte} {va : Nat} (h : walk old va = .ok (some e)) :
    va < MAXVA ∧ old.hasTable (va / PGSIZE) = true := by
  have hva : va < MAXVA := by
    by_contra hge
    rw [walk, if_pos (Nat.le_of_not_lt hge)] at h
    cases h
  rw [walk_eq hva] at h
  refine ⟨hva, ?_⟩
  cases htab : old.hasTable (va / PGSIZE) with
  | true => rfl
  | false =>
    rw [htab] at h
    cases h

theorem uvmcopyLoop_nopte (hwalk : ∀ x, walk old (v * PGSIZE) ≠ .ok (some x)) :
    ∃ e, uvmcopyLoop old (n + 1) (v * PGSIZE) km new = .error e := by
  unfold uvmcopyLoop
  cases hw : walk old (v * PGSIZE) with
  | error e => exact ⟨e, rfl⟩
  | ok x =>
    cases x with
    | none => exact ⟨.uvmcopyNoPte, rfl⟩
    | some x => exact absurd hw (hwalk x)

theorem uvmcopyLoop_hole (hwalk : walk old (v * PGSIZE) = .ok (some none)) :
    uvmcopyLoop old (n + 1) (v * PGSIZE) km new = uvmcopyLoop old n ((v + 1) * PGSIZE) km new := by
  rw [Nat.succ_mul, uvmcopyLoop, hwalk]
  rfl

theorem uvmcopyLoop_nomem (hwalk : walk old (v * PGSIZE) = .ok (some (some pte)))
    (hk : kalloc km = none) : uvmcopyLoop old (n + 1) (v * PGSIZE) km new = copyErr km new v := by
  rw [uvmcopyLoop, hwalk, Nat.mul_div_cancel _ (by decide : 0 < PGSIZE), copyErr]
  simp only [bind, Except.bind, hk]

/-- A page for which there is memory, up to what `mappages` does. -/
theorem uvmcopyLoop_page (hwalk : walk old (v * PGSIZE) = .ok (some (some pte)))
    (hk : kalloc km = some (p, km₁)) : uvmcopyLoop old (n + 1) (v * PGSIZE) km new =
      match mappages ⟨km₁.free, update km₁.mem p (km₁.mem pte.page)⟩ new
      (v * PGSIZE) PGSIZE p pte.perm with
      | .error e => .error e
      | .ok (true, km, new) => uvmcopyLoop old n ((v + 1) * PGSIZE) km new
      | .ok (false, km, new) => copyErr (kfree km p) new v := by
  rw [uvmcopyLoop, hwalk, ok_bind]
  dsimp only
  rw [hk]
  dsimp only
  generalize mappages ⟨km₁.free, update km₁.mem p (km₁.mem pte.page)⟩ new
    (v * PGSIZE) PGSIZE p pte.perm = r
  rw [Nat.mul_div_cancel _ (by decide : 0 < PGSIZE)]
  obtain e | ⟨_ | _, km₂, new₂⟩ := r
  · rfl
  · rfl
  · rw [Nat.succ_mul]
    rfl

theorem uvmcopyLoop_run (hun : ∀ u pte, u < v + n → old.leaf u = some pte → pte.page ∉ km.free)
    (hc : Filling (copyPlan km old) new km v km' new') :
    CopyRun old new km (v + n) (uvmcopyLoop old n (v * PGSIZE) km' new') := by
  induction n generalizing v km' new' with
  | zero => exact .done hc
  | succ n ih =>
    have hlast : v < v + (n + 1) := by omega
    by_cases hfound : ∃ x, walk old (v * PGSIZE) = .ok (some x)
    case neg =>
      obtain ⟨e, he⟩ := uvmcopyLoop_nopte (n := n) (not_exists.mp hfound)
      rw [he]
      exact .nopte hlast (not_exists.mp hfound)
    obtain ⟨x, hx⟩ := hfound
    obtain ⟨hva, htab⟩ := walk_found hx
    have hwalk : walk old (v * PGSIZE) = .ok (some (old.leaf v)) := by
      rw [walk_eq hva, htab, Nat.mul_div_cancel _ (by decide : 0 < PGSIZE), if_pos rfl]
    have hrest : ∀ {km₂ new₂}, Filling (copyPlan km old) new km (v + 1) km₂ new₂ →
        CopyRun old new km (v + (n + 1)) (uvmcopyLoop old n ((v + 1) * PGSIZE) km₂ new₂) := by
      intro km₂ new₂ hc₂
      rw [show v + (n + 1) = v + 1 + n by omega] at hun ⊢
      exact ih hun hc₂
    cases hleaf : old.leaf v with
    | none =>
      rw [uvmcopyLoop_hole (hleaf ▸ hwalk)]
      exact hrest (hc.skip (copyPlan_eq_none.mpr hleaf))
    | some pte =>
      have hplan : copyPlan km old v = some (pte.perm, km.mem pte.page) := copyPlan_some hleaf
      have hsome : copyPlan km old v ≠ none := by
        rw [hplan]
        exact Option.some_ne_none _
      rw [hleaf] at hwalk
      have hd := hc.demand_succ (page_lt_of_mul hva) hsome
      have hlen := hc.length
      have hfails : km.free.length < demand (copyPlan km old) new (v + 1) →
          FailsAt (copyPlan km old) new km v :=
        fun hshort => ⟨hsome, hc.enough, hshort⟩
      cases hk : kalloc km' with
      | none =>
        rw [kalloc_nil hk, List.length_nil, Nat.zero_add] at hlen
        rw [uvmcopyLoop_nomem hwalk hk]
        exact .undo hlast hva (hfails (by omega)) hc.toFilledTo
      | some r =>
        obtain ⟨p, km₁⟩ := r
        obtain ⟨hfree, hmem⟩ := kalloc_cons hk
        rw [hfree, List.length_cons] at hlen
        rw [uvmcopyLoop_page hwalk hk]
        by_cases henough : demand (copyPlan km old) new (v + 1) ≤ km.free.length
        · by_cases hnew : new.leaf v = none
          · have hpage : km₁.mem pte.page = km.mem pte.page := by
              rw [hmem]
              exact hc.kept _ (hun v pte hlast hleaf)
            obtain ⟨km₂, new₂, hmap, hc₂⟩ := hc.take hva hplan hnew hk henough hpage
            dsimp only at hmap
            rw [hmap]
            exact hrest hc₂
          · have hnew' : new'.leaf v ≠ none := by
              rw [hc.hole v (.inl (Nat.le_refl v))]
              exact hnew
            rw [mappages_remap _ p pte.perm hva hnew']
            exact .remap hlast (by rw [hleaf]; exact Option.some_ne_none _) hnew henough
        · obtain ⟨km₂, new₂, hmap, hgrown, hleaf₂, htab₂⟩ := mappages_short
            ⟨km₁.free, update km₁.mem p (km₁.mem pte.page)⟩ new' p pte.perm hva
            (show km₁.free.length < new'.missing v by omega)
          rw [hmap]
          exact .undo hlast hva (hfails (by omega)) (hc.giveBack hk hgrown hleaf₂ htab₂)

theorem uvmcopy_run {sz : Nat}
    (hun : ∀ u pte, u < npages sz → old.leaf u = some pte → pte.page ∉ km.free) :
    CopyRun old new km (npages sz) (uvmcopy km old new sz) := by
  rw [← Nat.zero_add (npages sz)] at hun
  have hrun := uvmcopyLoop_run hun (.zero : Filling (copyPlan km old) new km 0 km new)
  rw [Nat.zero_add, Nat.zero_mul] at hrun
  exact hrun

theorem uvmcopy_pages {sz : Nat}
    (hun : ∀ u pte, u < npages sz → old.leaf u = some pte → pte.page ∉ km.free)
    (hold : UserMem old.leaf (npages sz)) (hsz : npages sz ≤ UPAGES) (him : UserMem new.leaf 0) :
    Post (fun _ => True) (fun r => (∀ q, pages r.2.1 r.2.2 q = pages km new q) ∧
      (r.1 = true ∧ UserMem r.2.2.leaf (npages sz) ∨ r.1 = false ∧ UserMem r.2.2.leaf 0))
    (uvmcopy km old new sz) := by
  have hrun : CopyRun old new km (npages sz) (uvmcopy km old new sz) := uvmcopy_run hun
  generalize uvmcopy km old new sz = r at hrun
  cases hrun with
  | nopte => exact .error trivial
  | remap => exact .error trivial
  | done hf =>
    refine .ok ⟨fun q => hf.count UPAGES q hsz, .inl ⟨rfl, fun v hv => ?_, fun v hv hup => ?_⟩⟩
    · obtain ⟨pte, hpte⟩ := Option.ne_none_iff_exists'.mp (hold.mapped v hv)
      obtain ⟨p, -, hp⟩ := hf.mapped v _ hv (copyPlan_some hpte)
      rw [hp]
      exact Option.some_ne_none _
    · rw [hf.hole v (.inl hv)]
      exact him.unmapped v (Nat.zero_le v) hup
  | @undo f km' new' hf _ _ h =>
    have hunmap := uvmunmap_pages km' new' (show 0 + f ≤ UPAGES by omega)
    rw [Nat.zero_mul] at hunmap
    refine hunmap.bind fun r hr => Post.pure ⟨fun q => ?_, .inr ⟨rfl, fun v hv => ?_,
      fun v _ hup => ?_⟩⟩
    · exact (hr.1 q).trans (h.count UPAGES q (by omega))
    · exact absurd hv (Nat.not_lt_zero v)
    · rw [hr.2, VMap.unmap]
      split
      · rfl
      · rw [h.hole v (.inl (by omega))]
        exact him.unmapped v (Nat.zero_le v) hup

end

/-! ## Undoing a copy -/

/-- What `uvmunmap` needs to take the copies of the pages below `f` back, and only these: a table
for each page below `f`, mapped or not. -/
structure Undoable (old new : PageTable) (f : Nat) : Prop where
  clear : ∀ v, v < f → new.leaf v = none
  table : ∀ v, v < f → new.hasTable v = true ∨ ∃ w, w < f ∧ w / 512 = v / 512 ∧ old.leaf w ≠ none
  flags : ∀ v pte, v < f → old.leaf v = some pte → pte.perm.none = false

/-- `uvmcopy` has returned -1 with the source as it was, no user page in the new table, and all
pages free again that have not become page tables. -/
def CleanFailure (old new : PageTable) (km : Kmem) (r : Except Panic (Bool × Kmem × PageTable)) :
    Prop :=
  ∃ km' new', r = .ok (false, km', new') ∧
    (∀ v pte, old.leaf v = some pte → km'.mem pte.page = km.mem pte.page) ∧
    (∀ v, v < UPAGES → new'.leaf v = none) ∧
    ∀ q, km'.free.count q + new'.nodes q = km.free.count q + new.nodes q

section

variable {old new new' : PageTable} {km km' : Kmem} {f v : Nat}

theorem unmappable_iff (h : FilledTo (copyPlan km old) new km f km' new') (hf : f * PGSIZE < MAXVA)
    (hclear : ∀ v, v < f → new.leaf v = none) : Unmappable new' 0 f ↔ Undoable old new f := by
  have hlt : ∀ {v}, v < f → v * PGSIZE < MAXVA := fun hv =>
    lt_of_le_of_lt (Nat.mul_le_mul_right PGSIZE (Nat.le_of_lt hv)) hf
  constructor
  · intro hun
    refine ⟨hclear, fun v hv => ?_, fun v pte hv hpte => ?_⟩
    · obtain ⟨-, htab, -⟩ := hun v (Nat.zero_le _) (by omega)
      refine ((h.table v).mp htab).imp_right fun hmate => ?_
      obtain ⟨u, hu, hgroup, hwant⟩ := hasMate_iff.mp hmate.2
      exact ⟨u, hu, hgroup, fun hnone => hwant (copyPlan_eq_none.mpr hnone)⟩
    · obtain ⟨-, -, hleaf⟩ := hun v (Nat.zero_le _) (by omega)
      obtain ⟨p, -, hp⟩ := h.mapped v _ hv (copyPlan_some hpte)
      exact hleaf ⟨p, pte.perm⟩ hp
  · intro hun w _ hw
    rw [Nat.zero_add] at hw
    refine ⟨hlt hw, (h.table w).mpr ?_, fun pte hpte => ?_⟩
    · refine (hun.table w hw).imp_right fun hmate => ⟨page_lt_of_mul (hlt hw), hasMate_iff.mpr ?_⟩
      obtain ⟨u, hu, hgroup, hmapped⟩ := hmate
      exact ⟨u, hu, hgroup, fun hnone => hmapped (copyPlan_eq_none.mp hnone)⟩
    · cases hold : old.leaf w with
      | none =>
        rw [h.hole w (.inr (copyPlan_eq_none.mpr hold)), hclear w hw] at hpte
        cases hpte
      | some pte' =>
        obtain ⟨p, -, hp⟩ := h.mapped w _ hw (copyPlan_some hold)
        rw [hp] at hpte
        cases hpte
        exact hun.flags w pte' hw hold

theorem copyErr_clean_iff (h : FilledTo (copyPlan km old) new km f km' new')
    (hf : f * PGSIZE < MAXVA) (hfresh : ∀ v, v < UPAGES → new.leaf v = none)
    (hun : Unshared km old) :
    CleanFailure old new km (copyErr km' new' f) ↔ Undoable old new f := by
  have hlt : (0 + f) * PGSIZE < 2 ^ 64 := by
    rw [Nat.zero_add]
    exact lt_of_lt_of_le hf (by decide)
  have hreturns := uvmunmap_returns km' new' true hlt
  have hpost := uvmunmap_post km' new' true hlt
  rw [Nat.zero_mul] at hreturns hpost
  unfold copyErr
  constructor
  · rintro ⟨km₂, new₂, hr, -, -, hcount⟩
    cases hmap : uvmunmap km' new' 0 f true with
    | error e =>
      rw [hmap] at hr
      cases hr
    | ok r =>
      rw [hmap] at hr
      cases hr
      have hrun := hpost.of_ok hmap
      have hclear : ∀ v, v < f → new.leaf v = none := by
        intro v hv
        by_contra hne
        obtain ⟨pte, hpte⟩ := Option.ne_none_iff_exists'.mp hne
        have hleaf : VMap.unmap new'.leaf 0 f = VMap.unmap new.leaf 0 f := by
          funext w
          unfold VMap.unmap
          by_cases hw : 0 ≤ w ∧ w < 0 + f
          · rw [if_pos hw, if_pos hw]
          · rw [if_neg hw, if_neg hw]
            exact h.hole w (.inl (by omega))
        have hlost := leaves_unmap_lt (Nat.zero_le v) (show v < 0 + f by omega)
          (show 0 + f ≤ f by omega) hpte
        have hbefore := h.count f pte.page (Nat.le_refl f)
        have hfreed := hrun.freed rfl f pte.page (by omega)
        have hnodes := hrun.nodes pte.page
        have hafter := hcount pte.page
        rw [hrun.leaf, hleaf] at hfreed
        omega
      exact (unmappable_iff h hf hclear).mp (hreturns.mp ⟨r, hmap⟩)
  · intro hundo
    obtain ⟨⟨km₂, new₂⟩, hr⟩ := hreturns.mpr ((unmappable_iff h hf hundo.clear).mpr hundo)
    have hrun := hpost.of_ok hr
    have hnone : ∀ w, w < f ∨ w < UPAGES → new₂.leaf w = none := by
      intro w hw
      rw [hrun.leaf, VMap.unmap]
      split
      · rfl
      · have hge : f ≤ w := by omega
        rw [h.hole w (.inl hge)]
        exact hfresh w (by omega)
    refine ⟨km₂, new₂, by rw [hr]; rfl, fun v pte hpte => ?_,
      fun v hv => hnone v (.inr hv), fun q => ?_⟩
    · rw [hrun.mem]
      exact h.kept _ (hun v pte hpte)
    · have hbefore := h.count f q (Nat.le_refl f)
      have hfreed := hrun.freed rfl f q (by omega)
      have hnodes := hrun.nodes q
      have hzero₂ : VMap.leaves new₂.leaf f q = 0 := Finset.sum_eq_zero fun w hw => by
        rw [hnone w (.inl (Finset.mem_range.mp hw))]
        rfl
      have hzero : VMap.leaves new.leaf f q = 0 := Finset.sum_eq_zero fun w hw => by
        rw [hundo.clear w (Finset.mem_range.mp hw)]
        rfl
      dsimp only at hfreed hnodes
      omega

end

/-- When memory runs out in `uvmcopy` into a fresh table, it fails cleanly exactly if each group of
512 pages below the page it has come to has a table in the new page table. -/
theorem uvmcopy_failure_clean (old new : PageTable) (km : Kmem) (sz : Nat)
    (hold : ∀ w, w < npages sz → ∃ e, walk old (w * PGSIZE) = .ok (some e))
    (hfresh : ∀ v, v < UPAGES → new.leaf v = none) (hun : Unshared km old)
    (hshort : km.free.length < demand (copyPlan km old) new (npages sz)) :
    CleanFailure old new km (uvmcopy km old new sz) ↔
      ∀ f, f < npages sz → FailsAt (copyPlan km old) new km f → Undoable old new f := by
  have hrun : CopyRun old new km (npages sz) (uvmcopy km old new sz) :=
    uvmcopy_run fun u pte _ => hun u pte
  generalize uvmcopy km old new sz = r at hrun
  cases hrun with
  | done h => exact absurd h.enough (Nat.not_le_of_lt hshort)
  | @nopte v e hv hwalk =>
    obtain ⟨x, hx⟩ := hold v hv
    exact absurd hx (hwalk x)
  | @remap v hv hmapped hnew henough =>
    obtain ⟨f, hvf, hf, hfails⟩ := exists_failsAt henough hshort
    refine iff_of_false ?_ fun hundo => hnew ((hundo f hf hfails).clear v hvf)
    rintro ⟨km', new', hr, -⟩
    cases hr
  | @undo f km' new' hf hva hfails h =>
    rw [copyErr_clean_iff h hva hfresh hun]
    exact ⟨fun hundo g _ hg => hfails.unique hg ▸ hundo, fun hundo => hundo f hf hfails⟩

/-- User memory with a table but no page below page 512, which is mapped; `munmap` of all other
pages leaves it. -/
def holey : PageTable :=
  (Node.empty 1).set 0 (some (((Node.empty 2).set 0 (some (Node.empty 3))).set 1
    (some ((Node.empty 4).set 0 (some ⟨9, .user⟩)))))

/-- Without a free page the copy fails at page 512, and its undo does not find the table of page
0. -/
theorem uvmcopy_undo_panics :
    ((List.range 513).all fun w => holey.hasTable w) = true ∧
      ((uvmcopy ⟨[], fun _ => Bytes.zero⟩ holey (Node.empty 5) (513 * PGSIZE)).map fun _ => ()) =
        .error .uvmunmapWalk := by
  decide +kernel

/-- An empty table with a level-0 table for the first 512 pages. -/
def oneTable : PageTable := (Node.empty 5).set 0 (some ((Node.empty 6).set 0 (some (Node.empty 7))))

theorem holey_leaf {v : Nat} (h : holey.leaf v ≠ none) : v = 512 := by
  have hv := hasTable_lt (hasTable_of_leaf h)
  unfold PageTable.leaf at h
  rw [if_pos hv] at h
  unfold holey PageTable.table? at h
  rw [Node.entry_set] at h
  split at h
  · rename_i n1 h2
    split at h2
    · cases h2
      rw [Node.entry_set] at h
      split at h
      · rw [Option.bind_some, Node.entry_set] at h
        split at h
        · simp only [PX, PGSIZE, NVPAGE] at *
          omega
        · exact absurd rfl h
      · rw [Node.entry_set] at h
        split at h <;> exact absurd rfl h
    · cases h2
  · exact absurd rfl h

theorem oneTable_leaf (v : Nat) : oneTable.leaf v = none := by
  by_contra h
  have hv := hasTable_lt (hasTable_of_leaf h)
  unfold PageTable.leaf at h
  rw [if_pos hv] at h
  unfold oneTable PageTable.table? at h
  rw [Node.entry_set] at h
  split at h
  · rename_i n1 h2
    split at h2
    · cases h2
      rw [Node.entry_set] at h
      split at h <;> exact h rfl
    · cases h2
  · exact h rfl

theorem uvmcopy_failure_clean_holey :
    CleanFailure holey oneTable ⟨[], fun _ => Bytes.zero⟩
      (uvmcopy ⟨[], fun _ => Bytes.zero⟩ holey oneTable (513 * PGSIZE)) := by
  have hpages : npages (513 * PGSIZE) = 513 := npages_mul 513
  have htab : ∀ w, w ∈ List.range 513 → holey.hasTable w = true ∧ w * PGSIZE < MAXVA :=
    by decide +kernel
  have hone : ∀ w, w ∈ List.range 512 → oneTable.hasTable w = true := by decide +kernel
  refine (uvmcopy_failure_clean holey oneTable ⟨[], fun _ => Bytes.zero⟩ (513 * PGSIZE)
    (fun w hw => ?_)
    (fun v _ => oneTable_leaf v)
      (fun u pte _ => List.not_mem_nil) (by rw [hpages]; decide +kernel)).mpr ?_
  · rw [hpages] at hw
    obtain ⟨ht, hva⟩ := htab w (List.mem_range.mpr hw)
    exact ⟨_, by rw [walk_eq hva, Nat.mul_div_cancel _ (by decide : 0 < PGSIZE), ht, if_pos rfl]⟩
  · intro f hf hfails
    obtain rfl := holey_leaf fun hnone => hfails.wanted (copyPlan_eq_none.mpr hnone)
    refine ⟨fun v _ => oneTable_leaf v, fun v hv => .inl (hone v (List.mem_range.mpr hv)),
      fun v pte hv hpte => ?_⟩
    obtain rfl := holey_leaf (v := v) (by rw [hpte]; exact Option.some_ne_none _)
    exact absurd hv (Nat.lt_irrefl _)

end Xv6.Vm
