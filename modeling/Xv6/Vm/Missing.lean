import Xv6.Vm.Space

/-! # When `walk` runs out of memory

`walk` with `alloc` needs a page for each table on its way that is missing. With that many pages
on the free list it reaches the entry, and with fewer it does not; `mappages` of one page fails,
panics or maps the page accordingly.
-/

namespace Xv6.Vm

open Lib

def PageTable.hasDir (pt : PageTable) (v : Nat) : Bool := (pt.entry (PX 2 (v * PGSIZE))).isSome

/-- The tables that `walk` has to make to reach the entry of page `v`. -/
def PageTable.missing (pt : PageTable) (v : Nat) : Nat :=
  (if pt.hasDir v then 0 else 1) + if pt.hasTable v then 0 else 1

section

variable {km : Kmem} {pt : PageTable} {v w page : Nat} {perm : Perm}

theorem page_lt_of_mul (hva : v * PGSIZE < MAXVA) : v < NVPAGE := by
  simp only [NVPAGE, MAXVA, PGSIZE] at *
  omega

/-- Two pages share their level-1 table when they agree in the uppermost index. -/
theorem PX_two (hv : v < NVPAGE) (hw : w < NVPAGE) :
    PX 2 (w * PGSIZE) = PX 2 (v * PGSIZE) ↔ w / (512 * 512) = v / (512 * 512) := by
  simp only [NVPAGE, PGSIZE, PX] at *
  omega

theorem nextTable_of_entry {α : Type} {n : Node (Node α)} {i : Nat} {c : Node α}
    (h : n.entry i = some c) : nextTable km n i = some (c, km) := by
  unfold nextTable
  rw [h]

theorem nextTable_of_free {α : Type} {n : Node (Node α)} {i p : Nat} {rest : List Nat}
    (h : n.entry i = none) (hfree : km.free = p :: rest) :
    nextTable km n i = some (Node.empty p, { km with free := rest }) := by
  unfold nextTable kalloc
  rw [h, hfree]

theorem nextTable_of_empty {α : Type} {n : Node (Node α)} {i : Nat} (h : n.entry i = none)
    (hfree : km.free = []) : nextTable km n i = none := by
  unfold nextTable kalloc
  rw [h, hfree]

theorem missing_of_table (h : pt.hasTable v = true) : pt.missing v = 0 := by
  have hdir : pt.hasDir v = true := by
    simp only [PageTable.hasTable, PageTable.table?, Bool.and_eq_true] at h
    unfold PageTable.hasDir
    cases hd : pt.entry (PX 2 (v * PGSIZE)) with
    | none => simp [hd] at h
    | some n1 => rfl
  rw [PageTable.missing, h, hdir]
  rfl

variable (km pt) in
/-- `walk` takes the missing tables from the free list, if there are enough pages. -/
theorem walkAlloc_missing (hva : v * PGSIZE < MAXVA) : ∃ km' pt',
    walkAlloc km pt (v * PGSIZE) = .ok (decide (pt.missing v ≤ km.free.length), km', pt') ∧
      (pt.missing v ≤ km.free.length → km'.free = km.free.drop (pt.missing v) ∧
        ∀ w, w < NVPAGE → pt'.hasDir w =
        (pt.hasDir w || decide (w / (512 * 512) = v / (512 * 512)))) := by
  have hv := page_lt_of_mul hva
  have hdirs : ∀ (n1 : Node (Node Pte)) w, w < NVPAGE →
      (PageTable.hasDir (pt.set (PX 2 (v * PGSIZE)) n1) w) =
        (pt.hasDir w || decide (w / (512 * 512) = v / (512 * 512))) := by
    intro n1 w hw
    unfold PageTable.hasDir
    rw [Node.entry_set]
    by_cases h : PX 2 (w * PGSIZE) = PX 2 (v * PGSIZE)
    · rw [if_pos h, decide_eq_true ((PX_two hv hw).mp h), Bool.or_true]
      rfl
    · rw [if_neg h, decide_eq_false fun h' => h ((PX_two hv hw).mpr h'), Bool.or_false]
  have htable : ∀ n1, pt.entry (PX 2 (v * PGSIZE)) = some n1 →
      pt.hasTable v = (n1.entry (PX 1 (v * PGSIZE))).isSome := by
    intro n1 h
    simp only [PageTable.hasTable, PageTable.table?, hv, decide_true, Bool.true_and, h]
  unfold walkAlloc
  rw [if_neg (Nat.not_le_of_lt hva)]
  cases hdir : pt.entry (PX 2 (v * PGSIZE)) with
  | some n1 =>
    have hone : pt.hasDir v = true := by
      unfold PageTable.hasDir
      rw [hdir]
      rfl
    rw [nextTable_of_entry hdir]
    dsimp only
    cases htab : n1.entry (PX 1 (v * PGSIZE)) with
    | some n0 =>
      have hm : pt.missing v = 0 := by
        rw [PageTable.missing, hone, htable n1 hdir, htab]
        rfl
      rw [nextTable_of_entry htab, hm, decide_eq_true (Nat.zero_le _)]
      exact ⟨km, _, rfl, fun _ => ⟨rfl, hdirs _⟩⟩
    | none =>
      have hm : pt.missing v = 1 := by
        rw [PageTable.missing, hone, htable n1 hdir, htab]
        rfl
      rw [hm]
      cases hfree : km.free with
      | nil =>
        rw [nextTable_of_empty htab hfree]
        exact ⟨km, _, rfl, fun h => absurd h (by decide)⟩
      | cons p rest =>
        rw [nextTable_of_free htab hfree, decide_eq_true (by rw [List.length_cons]; omega)]
        exact ⟨_, _, rfl, fun _ => ⟨rfl, hdirs _⟩⟩
  | none =>
    have hm : pt.missing v = 2 := by
      have hd : pt.hasDir v = false := by
        unfold PageTable.hasDir
        rw [hdir]
        rfl
      have ht : pt.hasTable v = false := by
        simp only [PageTable.hasTable, PageTable.table?, hdir, Option.isSome_none, Bool.and_false]
      rw [PageTable.missing, hd, ht]
      rfl
    rw [hm]
    cases hfree : km.free with
    | nil =>
      rw [nextTable_of_empty hdir hfree]
      exact ⟨km, pt, rfl, fun h => absurd h (by decide)⟩
    | cons p rest =>
      rw [nextTable_of_free hdir hfree]
      dsimp only
      have hnone : (Node.empty p : Node (Node Pte)).entry (PX 1 (v * PGSIZE)) = none := rfl
      cases rest with
      | nil =>
        rw [nextTable_of_empty hnone rfl]
        exact ⟨_, _, rfl, fun h => absurd h (by rw [List.length_singleton]; decide)⟩
      | cons r rest =>
        rw [@nextTable_of_free ⟨r :: rest, km.mem⟩ _ _ _ _ _ hnone rfl,
          decide_eq_true (by rw [List.length_cons, List.length_cons]; omega)]
        exact ⟨_, _, rfl, fun _ => ⟨rfl, hdirs _⟩⟩

/-- What a `walk` that reaches the entry of page `v` leaves behind. -/
structure Reaches (v : Nat) (km : Kmem) (pt : PageTable) (km' : Kmem) (pt' : PageTable) : Prop where
  grown : Grown km pt km' pt'
  free : km'.free = km.free.drop (pt.missing v)
  table : ∀ w, pt'.hasTable w = true ↔ pt.hasTable w = true ∨ w < NVPAGE ∧ w / 512 = v / 512
  dir : ∀ w, w < NVPAGE → (pt'.hasDir w = true ↔ pt.hasDir w = true ∨ w / (512 * 512) =
    v / (512 * 512))

theorem Reaches.self {km' : Kmem} {pt' : PageTable} (h : Reaches v km pt km' pt')
    (hv : v < NVPAGE) : pt'.hasTable v = true :=
  (h.table v).mpr (.inr ⟨hv, rfl⟩)

variable (km pt) in
theorem walkAlloc_short (hva : v * PGSIZE < MAXVA) (h : km.free.length < pt.missing v) : ∃ km' pt',
    walkAlloc km pt (v * PGSIZE) = .ok (false, km', pt') ∧ Grown km pt km' pt' ∧
    pt'.leaf = pt.leaf ∧
      pt'.hasTable = pt.hasTable := by
  obtain ⟨km₁, pt₁, hwalk, -⟩ := walkAlloc_missing km pt hva
  rw [decide_eq_false (Nat.not_le_of_lt h)] at hwalk
  obtain ⟨found, km', pt', hwalk', hw⟩ := walkAlloc_walked km pt hva
  obtain ⟨found', km'', pt'', hwalk'', hgrown, -⟩ := walkAlloc_grown km pt hva
  rw [hwalk] at hwalk' hwalk''
  cases hwalk'
  cases hwalk''
  refine ⟨km₁, pt₁, hwalk, hgrown, hw.leaf, funext fun w => ?_⟩
  rw [hw.table w, Bool.false_and, Bool.or_false]

variable (km pt) in
theorem walkAlloc_enough (hva : v * PGSIZE < MAXVA) (h : pt.missing v ≤ km.free.length) : ∃ km' pt',
    walkAlloc km pt (v * PGSIZE) = .ok (true, km', pt') ∧ Reaches v km pt km' pt' ∧
    pt'.leaf = pt.leaf := by
  obtain ⟨km₁, pt₁, hwalk, hfree⟩ := walkAlloc_missing km pt hva
  rw [decide_eq_true h] at hwalk
  obtain ⟨found, km', pt', hwalk', hw⟩ := walkAlloc_walked km pt hva
  obtain ⟨found', km'', pt'', hwalk'', hgrown, -⟩ := walkAlloc_grown km pt hva
  rw [hwalk] at hwalk' hwalk''
  cases hwalk'
  cases hwalk''
  refine ⟨km₁, pt₁, hwalk, ⟨hgrown, (hfree h).1, fun w => ?_, fun w hlt => ?_⟩, hw.leaf⟩
  · rw [hw.table w, Bool.true_and, Bool.or_eq_true, decide_eq_true_iff]
  · rw [(hfree h).2 w hlt, Bool.or_eq_true, decide_eq_true_iff]

theorem mappages_one (km : Kmem) (pt : PageTable) (hva : v * PGSIZE < MAXVA) :
    mappages km pt (v * PGSIZE) PGSIZE page perm = mappagesLoop perm 1 (v * PGSIZE) page km pt := by
  unfold mappages
  have hcount : (PGROUNDDOWN ((v * PGSIZE + PGSIZE - 1) % 2 ^ 64) + 2 ^ 64 - PGROUNDDOWN
      (v * PGSIZE)) % 2 ^ 64 / PGSIZE + 1 = 1 := by
    simp only [PGROUNDDOWN, PGSIZE, MAXVA] at *
    omega
  have hdown : PGROUNDDOWN (v * PGSIZE) = v * PGSIZE := by
    unfold PGROUNDDOWN
    rw [Nat.mul_div_cancel _ (by decide)]
  rw [if_neg (by decide)]
  dsimp only
  rw [hcount, hdown]

variable (km pt page perm) in
/-- `mappages` of a page without memory for its tables. -/
theorem mappages_short (hva : v * PGSIZE < MAXVA) (h : km.free.length < pt.missing v) : ∃ km' pt',
    mappages km pt (v * PGSIZE) PGSIZE page perm = .ok (false, km', pt') ∧ Grown km pt km' pt' ∧
      pt'.leaf = pt.leaf ∧ pt'.hasTable = pt.hasTable := by
  obtain ⟨km', pt', hwalk, hrest⟩ := walkAlloc_short km pt hva h
  refine ⟨km', pt', ?_, hrest⟩
  rw [mappages_one km pt hva, mappagesLoop, hwalk]
  rfl

variable (km page perm) in
theorem mappages_remap (hva : v * PGSIZE < MAXVA) (h : pt.leaf v ≠ none) :
    mappages km pt (v * PGSIZE) PGSIZE page perm = .error .mappagesRemap := by
  have hm : pt.missing v ≤ km.free.length := by
    rw [missing_of_table (hasTable_of_leaf h)]
    exact Nat.zero_le _
  obtain ⟨km', pt', hwalk, -, hleaf⟩ := walkAlloc_enough km pt hva hm
  rw [mappages_one km pt hva, mappagesLoop, hwalk]
  have hsome : (pt'.leaf (v * PGSIZE / PGSIZE)).isSome = true := by
    rw [Nat.mul_div_cancel _ (by decide : 0 < PGSIZE), hleaf]
    exact Option.isSome_iff_ne_none.mpr h
  exact if_pos hsome

variable (km page perm) in
/-- `mappages` of a page that is not mapped, with memory for its tables. -/
theorem mappages_fresh (hva : v * PGSIZE < MAXVA) (h : pt.missing v ≤ km.free.length)
    (hnone : pt.leaf v = none) :
    ∃ km' pt', mappages km pt (v * PGSIZE) PGSIZE page perm = .ok (true, km', pt') ∧
    Reaches v km pt km' pt' ∧
      pt'.leaf = Function.update pt.leaf v (some ⟨page, perm⟩) := by
  obtain ⟨km', pt', hwalk, hreach, hleaf⟩ := walkAlloc_enough km pt hva h
  have htab := hreach.self (page_lt_of_mul hva)
  obtain ⟨hset, hsetLeaf⟩ := setPte_views htab (some ⟨page, perm⟩)
  have hdir : ∀ w, PageTable.hasDir (pt'.setPte (v * PGSIZE) (some ⟨page, perm⟩)) w =
      pt'.hasDir w := by
    intro w
    unfold PageTable.hasDir PageTable.setPte
    split
    · rename_i n1 h1
      split
      · rw [Node.entry_set]
        split
        · rename_i heq
          rw [heq, h1]
          rfl
        · rfl
      · rfl
    · rfl
  refine ⟨km', pt'.setPte (v * PGSIZE) (some ⟨page, perm⟩), ?_,
    ⟨?_, hreach.free, fun w => ?_, fun w hw => ?_⟩, ?_⟩
  · rw [mappages_one km pt hva, mappagesLoop, hwalk]
    have hfree : ¬ (pt'.leaf (v * PGSIZE / PGSIZE)).isSome = true := by
      rw [Nat.mul_div_cancel _ (by decide : 0 < PGSIZE), hleaf, hnone]
      exact Bool.false_ne_true
    exact if_neg hfree
  · exact hreach.grown.trans (setPte_grown htab _)
  · rw [hset]
    exact hreach.table w
  · rw [hdir]
    exact hreach.dir w hw
  · rw [hsetLeaf, hleaf]

variable (km pt page perm) in
theorem mappages_beyond (hva : MAXVA ≤ v * PGSIZE) :
    mappages km pt (v * PGSIZE) PGSIZE page perm = .error .walk := by
  have hdown : PGROUNDDOWN (v * PGSIZE) = v * PGSIZE := by
    unfold PGROUNDDOWN
    rw [Nat.mul_div_cancel _ (by decide)]
  have hwalk : walkAlloc km pt (v * PGSIZE) = .error .walk := if_pos hva
  unfold mappages
  rw [if_neg (by decide)]
  dsimp only
  rw [hdown, mappagesLoop, hwalk]
  rfl

end

end Xv6.Vm
