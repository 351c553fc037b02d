import Xv6.Vm.Missing

/-! # Mapping page after page

`uvmalloc` and `uvmcopy` go through the pages of a range and give those that are wanted a fresh
physical page each. The loops are followed page by page: how many physical pages they have taken,
what the page table looks like, and at which page memory runs out.
-/

namespace Xv6.Vm

open Function Lib

/-- The pages to be mapped, each with its permissions and contents. -/
abbrev Plan := Nat → Option (Perm × Page)

/-- A wanted page below `v` is in the same aligned group of `size` pages as `w`. -/
def Plan.hasMate (want : Plan) (size v w : Nat) : Bool :=
  (List.range v).any fun u => u / size == w / size && (want u).isSome

/-- The physical pages that it takes to map the wanted pages below `v`: one for each of them, and
the tables that neither `new` nor a page before brings along. -/
def demand (want : Plan) (new : PageTable) : Nat → Nat
  | 0 => 0
  | v + 1 =>
    demand want new v +
      if (want v).isSome then
        1 + ((if new.hasDir v || want.hasMate (512 * 512) v v then 0 else 1) +
          if new.hasTable v || want.hasMate 512 v v then 0 else 1)
      else 0

/-- The wanted pages below `v` are in the table `new'`, which was `new`, and the others are as they
were. -/
structure FilledTo (want : Plan) (new : PageTable) (km : Kmem) (v : Nat) (km' : Kmem)
    (new' : PageTable) : Prop where
  enough : demand want new v ≤ km.free.length
  clear : ∀ u, u < v → want u ≠ none → new.leaf u = none
  mapped : ∀ u x, u < v → want u = some x →
    ∃ p, p ∈ km.free.take (demand want new v) ∧ new'.leaf u = some ⟨p, x.1⟩
  hole : ∀ u, v ≤ u ∨ want u = none → new'.leaf u = new.leaf u
  table : ∀ w, new'.hasTable w = true ↔ new.hasTable w = true ∨ w < NVPAGE ∧
    want.hasMate 512 v w = true
  kept : ∀ p, p ∉ km.free → km'.mem p = km.mem p
  count : ∀ U q, v ≤ U → km'.free.count q + new'.nodes q + VMap.leaves new'.leaf U q =
    km.free.count q + new.nodes q + VMap.leaves new.leaf U q

/-- The loop has come to page `v`. -/
structure Filling (want : Plan) (new : PageTable) (km : Kmem) (v : Nat) (km' : Kmem)
    (new' : PageTable) : Prop extends FilledTo want new km v km' new' where
  free : km'.free = km.free.drop (demand want new v)
  dir : ∀ w, w < NVPAGE → (new'.hasDir w = true ↔ new.hasDir w = true ∨
    want.hasMate (512 * 512) v w = true)
  contents : km.free.Nodup → ∀ u x e, u < v → want u = some x → new'.leaf u = some e →
    km'.mem e.page = x.2
  distinct : km.free.Nodup → ∀ u w e e', u < v → w < v → want u ≠ none → want w ≠ none →
    new'.leaf u = some e → new'.leaf w = some e' → e.page = e'.page → u = w

section

variable {want : Plan} {new new' : PageTable} {km km' km₁ : Kmem} {v w p : Nat} {x : Perm × Page}

theorem hasMate_iff {size : Nat} :
    want.hasMate size v w = true ↔ ∃ u, u < v ∧ u / size = w / size ∧ want u ≠ none := by
  simp only [Plan.hasMate, List.any_eq_true, List.mem_range, Bool.and_eq_true, beq_iff_eq,
    Option.isSome_iff_ne_none]

theorem hasMate_succ {size : Nat} : want.hasMate size (v + 1) w = true ↔
    want.hasMate size v w = true ∨ v / size = w / size ∧ want v ≠ none := by
  rw [hasMate_iff, hasMate_iff]
  constructor
  · rintro ⟨u, hu, h⟩
    by_cases huv : u = v
    · exact .inr (huv ▸ h)
    · exact .inl ⟨u, by omega, h⟩
  · rintro (⟨u, hu, h⟩ | h)
    · exact ⟨u, by omega, h⟩
    · exact ⟨v, Nat.lt_succ_self v, h⟩

theorem demand_hole (h : want v = none) : demand want new (v + 1) = demand want new v := by
  rw [demand, h]
  rfl

theorem demand_le_succ : demand want new v ≤ demand want new (v + 1) := Nat.le_add_right _ _

theorem demand_mono (h : v ≤ w) : demand want new v ≤ demand want new w := by
  induction h with
  | refl => exact Nat.le_refl _
  | step _ ih => exact ih.trans demand_le_succ

theorem Filling.zero : Filling want new km 0 km new where
  enough := Nat.zero_le _
  clear u hu := absurd hu (Nat.not_lt_zero _)
  mapped u x hu := absurd hu (Nat.not_lt_zero _)
  hole _ _ := rfl
  table w := ⟨.inl, fun h => h.elim id fun h => by simp [Plan.hasMate] at h⟩
  kept _ _ := rfl
  count _ _ _ := rfl
  free := rfl
  dir w _ := ⟨.inl, fun h => h.elim id fun h => by simp [Plan.hasMate] at h⟩
  contents _ u _ _ hu := absurd hu (Nat.not_lt_zero _)
  distinct _ u _ _ _ hu := absurd hu (Nat.not_lt_zero _)

theorem Filling.demand_succ (h : Filling want new km v km' new') (hv : v < NVPAGE)
    (hwant : want v ≠ none) :
    demand want new (v + 1) = demand want new v + (1 + new'.missing v) := by
  have hdir : (new.hasDir v || want.hasMate (512 * 512) v v) = new'.hasDir v := by
    rw [Bool.eq_iff_iff, Bool.or_eq_true, h.dir v hv]
  have htable : (new.hasTable v || want.hasMate 512 v v) = new'.hasTable v := by
    rw [Bool.eq_iff_iff, Bool.or_eq_true, h.table v]
    exact ⟨fun h => h.imp_right fun h => ⟨hv, h⟩, fun h => h.imp_right And.right⟩
  rw [demand, if_pos (Option.isSome_iff_ne_none.mpr hwant), hdir, htable]
  rfl

theorem Filling.length (h : Filling want new km v km' new') :
    km'.free.length + demand want new v = km.free.length := by
  rw [h.free, List.length_drop]
  exact Nat.sub_add_cancel h.enough

theorem Filling.skip (h : Filling want new km v km' new') (hwant : want v = none) :
    Filling want new km (v + 1) km' new' := by
  have hd : demand want new (v + 1) = demand want new v := demand_hole hwant
  have hne : ∀ {u}, u < v + 1 → want u ≠ none → u < v := by
    intro u hu hu'
    rcases Nat.lt_succ_iff_lt_or_eq.mp hu with hlt | rfl
    · exact hlt
    · exact absurd hwant hu'
  have hsome : ∀ {u x}, want u = some x → want u ≠ none := fun hx => by
    rw [hx]
    exact Option.some_ne_none _
  have hmate : ∀ size w, want.hasMate size (v + 1) w = true ↔ want.hasMate size v w = true := by
    intro size w
    rw [hasMate_succ]
    exact ⟨fun h => h.elim id fun h => absurd hwant h.2, .inl⟩
  refine ⟨⟨?_, ?_, ?_, ?_, ?_, h.kept, ?_⟩, ?_, ?_, ?_, ?_⟩
  · rw [hd]
    exact h.enough
  · exact fun u hu hu' => h.clear u (hne hu hu') hu'
  · intro u x hu hx
    rw [hd]
    exact h.mapped u x (hne hu (hsome hx)) hx
  · exact fun u hu => h.hole u (hu.imp_left (by omega))
  · intro w
    rw [h.table w, hmate]
  · exact fun U q hU => h.count U q (by omega)
  · rw [hd]
    exact h.free
  · intro w hw
    rw [h.dir w hw, hmate]
  · exact fun hnd u x e hu hx he => h.contents hnd u x e (hne hu (hsome hx)) hx he
  · exact fun hnd u w e e' hu hw hu' hw' => h.distinct hnd u w e e' (hne hu hu')
      (hne hw hw') hu' hw'

theorem kalloc_cons (h : kalloc km = some (p, km₁)) :
    km.free = p :: km₁.free ∧ km₁.mem = km.mem := by
  unfold kalloc at h
  split at h
  · cases h
  · rename_i q rest hfree
    cases h
    exact ⟨hfree, rfl⟩

theorem kalloc_nil (h : kalloc km = none) : km.free = [] := by
  unfold kalloc at h
  split at h
  · assumption
  · cases h

/-- The wanted page `v` has been mapped to `p`, the first free page. -/
structure Took (want : Plan) (new : PageTable) (v p : Nat) (x : Perm × Page) (km' km₁ : Kmem)
    (new' : PageTable) (km₂ : Kmem) (new₂ : PageTable) : Prop where
  wanted : want v = some x
  clear : new.leaf v = none
  head : km'.free = p :: km₁.free
  mem : ∀ q, km₂.mem q = if q = p then x.2 else km'.mem q
  reach : Reaches v ⟨km₁.free, update km₁.mem p x.2⟩ new' km₂ new₂
  leaf : new₂.leaf = update new'.leaf v (some ⟨p, x.1⟩)

section

variable {km₂ : Kmem} {new₂ : PageTable}

theorem Took.ne_none (ht : Took want new v p x km' km₁ new' km₂ new₂) : want v ≠ none := by
  rw [ht.wanted]
  exact Option.some_ne_none _

theorem Took.self (ht : Took want new v p x km' km₁ new' km₂ new₂) :
    new₂.leaf v = some ⟨p, x.1⟩ := by
  rw [ht.leaf, update_self]

theorem Took.other (ht : Took want new v p x km' km₁ new' km₂ new₂) {u : Nat} (hu : u ≠ v) :
    new₂.leaf u = new'.leaf u := by
  rw [ht.leaf, update_of_ne hu]

theorem Took.takes (ht : Took want new v p x km' km₁ new' km₂ new₂)
    (h : Filling want new km v km' new') (hv : v < NVPAGE) :
    km.free.take (demand want new (v + 1)) =
      km.free.take (demand want new v) ++ p :: km₁.free.take (new'.missing v) := by
  rw [h.demand_succ hv ht.ne_none, List.take_add, ← h.free, ht.head, Nat.add_comm 1,
    List.take_succ_cons]

theorem Took.page_ne (ht : Took want new v p x km' km₁ new' km₂ new₂)
    (h : Filling want new km v km' new') (hnd : km.free.Nodup) {u : Nat} {e : Pte} (hu : u < v)
    (hwant : want u ≠ none) (he : new'.leaf u = some e) : e.page ≠ p := by
  rintro rfl
  obtain ⟨y, hy⟩ := Option.ne_none_iff_exists'.mp hwant
  obtain ⟨q, hq, hq'⟩ := h.mapped u y hu hy
  rw [he] at hq'
  cases hq'
  rw [← List.take_append_drop (demand want new v) km.free, ← h.free, ht.head] at hnd
  exact (List.disjoint_of_nodup_append hnd) hq List.mem_cons_self

theorem Took.count (ht : Took want new v p x km' km₁ new' km₂ new₂)
    (h : Filling want new km v km' new') {U : Nat} (hU : v < U) (q : Nat) :
    km₂.free.count q + new₂.nodes q + VMap.leaves new₂.leaf U q =
      km.free.count q + new.nodes q + VMap.leaves new.leaf U q := by
  have hcount := h.count U q (by omega)
  have hnodes := ht.reach.grown.nodes q
  have htrade := leaves_update (q := q) new'.leaf hU (some ⟨p, x.1⟩)
  rw [ht.head, List.count_cons] at hcount
  rw [(h.hole v (.inl (Nat.le_refl v))).trans ht.clear] at htrade
  simp only [refers, Option.elim_none, Option.elim_some, beq_iff_eq] at htrade hcount
  rw [ht.leaf]
  dsimp only at hnodes
  omega

theorem Filling.took_filledTo (h : Filling want new km v km' new')
    (ht : Took want new v p x km' km₁ new' km₂ new₂) (hv : v < NVPAGE)
    (henough : demand want new (v + 1) ≤ km.free.length) :
    FilledTo want new km (v + 1) km₂ new₂ := by
  have hp : p ∈ km.free.take (demand want new (v + 1)) := by
    rw [ht.takes h hv]
    exact List.mem_append_right _ List.mem_cons_self
  refine ⟨henough, fun u hu hu' => ?_, fun u y hu hy => ?_, fun u hu => ?_, fun w => ?_,
    fun q hq => ?_, fun U q hU => ht.count h (by omega) q⟩
  · rcases Nat.lt_succ_iff_lt_or_eq.mp hu with hlt | rfl
    · exact h.clear u hlt hu'
    · exact ht.clear
  · rcases Nat.lt_succ_iff_lt_or_eq.mp hu with hlt | rfl
    · obtain ⟨q, hq, hq'⟩ := h.mapped u y hlt hy
      refine ⟨q, ?_, (ht.other (by omega)).trans hq'⟩
      rw [ht.takes h hv]
      exact List.mem_append_left _ hq
    · rw [ht.wanted] at hy
      cases hy
      exact ⟨p, hp, ht.self⟩
  · have huv : u ≠ v := by
      rintro rfl
      exact hu.elim (by omega) fun h => ht.ne_none h
    rw [ht.other huv]
    exact h.hole u (hu.imp_left (by omega))
  · rw [ht.reach.table w, h.table w, hasMate_succ]
    constructor
    · rintro ((h | h) | h)
      · exact .inl h
      · exact .inr ⟨h.1, .inl h.2⟩
      · exact .inr ⟨h.1, .inr ⟨h.2.symm, ht.ne_none⟩⟩
    · rintro (h | ⟨hw, h | h⟩)
      · exact .inl (.inl h)
      · exact .inl (.inr ⟨hw, h⟩)
      · exact .inr ⟨hw, h.1.symm⟩
  · have hqp : q ≠ p := fun heq => hq (heq ▸ List.mem_of_mem_take hp)
    rw [ht.mem q, if_neg hqp]
    exact h.kept q hq

theorem Filling.took (h : Filling want new km v km' new')
    (ht : Took want new v p x km' km₁ new' km₂ new₂) (hv : v < NVPAGE)
    (henough : demand want new (v + 1) ≤ km.free.length) :
    Filling want new km (v + 1) km₂ new₂ := by
  refine ⟨h.took_filledTo ht hv henough, ?_, fun w hw => ?_, fun hnd u y e hu hy he => ?_,
    fun hnd u w e e' hu hw hu' hw' he he' heq => ?_⟩
  · rw [ht.reach.free]
    dsimp only
    rw [h.demand_succ hv ht.ne_none, ← List.drop_drop, ← h.free, ht.head, Nat.add_comm 1,
      List.drop_succ_cons]
  · rw [ht.reach.dir w hw, h.dir w hw, hasMate_succ]
    constructor
    · rintro ((h | h) | h)
      · exact .inl h
      · exact .inr (.inl h)
      · exact .inr (.inr ⟨h.symm, ht.ne_none⟩)
    · rintro (h | h | h)
      · exact .inl (.inl h)
      · exact .inl (.inr h)
      · exact .inr h.1.symm
  · rcases Nat.lt_succ_iff_lt_or_eq.mp hu with hlt | rfl
    · rw [ht.other (by omega)] at he
      rw [ht.mem, if_neg (ht.page_ne h hnd hlt (by rw [hy]; exact Option.some_ne_none _) he)]
      exact h.contents hnd u y e hlt hy he
    · rw [ht.self] at he
      rw [ht.wanted] at hy
      cases he
      cases hy
      rw [ht.mem, if_pos rfl]
  · rcases Nat.lt_succ_iff_lt_or_eq.mp hu with hlt | rfl <;>
      rcases Nat.lt_succ_iff_lt_or_eq.mp hw with hlt' | rfl
    · rw [ht.other (by omega)] at he
      rw [ht.other (by omega)] at he'
      exact h.distinct hnd u w e e' hlt hlt' hu' hw' he he' heq
    · rw [ht.other (by omega)] at he
      rw [ht.self] at he'
      cases he'
      exact absurd heq (ht.page_ne h hnd hlt hu' he)
    · rw [ht.other (by omega)] at he'
      rw [ht.self] at he
      cases he
      exact absurd heq.symm (ht.page_ne h hnd hlt' hw' he')
    · rfl

end

theorem Filling.take (h : Filling want new km v km' new') (hva : v * PGSIZE < MAXVA)
    (hwant : want v = some x) (hnew : new.leaf v = none) (hk : kalloc km' = some (p, km₁))
    (henough : demand want new (v + 1) ≤ km.free.length) {page : Page} (hpage : page = x.2) :
    ∃ km₂ new₂, mappages ⟨km₁.free, update km₁.mem p page⟩ new' (v * PGSIZE) PGSIZE p x.1 =
      .ok (true, km₂, new₂) ∧ Filling want new km (v + 1) km₂ new₂ := by
  subst hpage
  obtain ⟨hfree, hmem⟩ := kalloc_cons hk
  have hd := h.demand_succ (page_lt_of_mul hva) (by rw [hwant]; exact Option.some_ne_none _)
  have hlen := h.length
  rw [hfree, List.length_cons] at hlen
  obtain ⟨km₂, new₂, hmap, hreach, hleaf⟩ :=
    mappages_fresh ⟨km₁.free, update km₁.mem p x.2⟩
    p x.1 hva (show new'.missing v ≤ km₁.free.length by omega)
      ((h.hole v (.inl (Nat.le_refl v))).trans hnew)
  refine ⟨km₂, new₂, hmap, h.took ⟨hwant, hnew, hfree, fun q => ?_, hreach, hleaf⟩
    (page_lt_of_mul hva) henough⟩
  rw [hreach.grown.mem, hmem]
  exact update_apply _ _ _ _

/-- Memory for a page, but not for its tables: the page goes back, and the table has its old
leaves. -/
theorem Filling.giveBack (hc : Filling want new km v km' new') (hk : kalloc km' = some (p, km₁))
    {page : Page} {km₂ : Kmem} {new₂ : PageTable}
    (hgrown : Grown ⟨km₁.free, update km₁.mem p page⟩ new' km₂ new₂)
    (hleaf : new₂.leaf = new'.leaf) (htab : new₂.hasTable = new'.hasTable) :
    FilledTo want new km v (kfree km₂ p) new₂ := by
  obtain ⟨hfree, hmem⟩ := kalloc_cons hk
  refine ⟨hc.enough, hc.clear, ?_, ?_, ?_, ?_, ?_⟩
  · rw [hleaf]
    exact hc.mapped
  · rw [hleaf]
    exact hc.hole
  · rw [htab]
    exact hc.table
  · intro q hq
    have hqp : q ≠ p := by
      rintro rfl
      refine hq (List.mem_of_mem_drop (i := demand want new v) ?_)
      rw [← hc.free, hfree]
      exact List.mem_cons_self
    have hkeep : km₂.mem q = km₁.mem q := by
      rw [hgrown.mem]
      exact update_of_ne hqp _ _
    exact hkeep.trans (by rw [hmem]; exact hc.kept q hq)
  · intro U q hU
    have hcount := hc.count U q hU
    have hnodes := hgrown.nodes q
    rw [hfree, List.count_cons] at hcount
    rw [hleaf]
    dsimp only at hnodes
    rw [kfree, List.count_cons]
    omega

end

/-! ## Running out of memory -/

/-- Memory runs out when page `f` is to be mapped. -/
structure FailsAt (want : Plan) (new : PageTable) (km : Kmem) (f : Nat) : Prop where
  wanted : want f ≠ none
  before : demand want new f ≤ km.free.length
  short : km.free.length < demand want new (f + 1)

section

variable {want : Plan} {new : PageTable} {km : Kmem} {f g v N : Nat}

theorem FailsAt.unique (hf : FailsAt want new km f) (hg : FailsAt want new km g) : f = g := by
  have hfg : ¬ f < g := fun h => by
    have hmono : demand want new (f + 1) ≤ demand want new g := demand_mono h
    exact absurd (hmono.trans hg.before) (Nat.not_le_of_lt hf.short)
  have hgf : ¬ g < f := fun h => by
    have hmono : demand want new (g + 1) ≤ demand want new f := demand_mono h
    exact absurd (hmono.trans hf.before) (Nat.not_le_of_lt hg.short)
  omega

theorem exists_failsAt (hv : demand want new v ≤ km.free.length)
    (hshort : km.free.length < demand want new N) : ∃ f, v ≤ f ∧ f < N ∧ FailsAt want new km f := by
  induction N with
  | zero => exact absurd hshort (Nat.not_lt_zero _)
  | succ N ih =>
    by_cases h : km.free.length < demand want new N
    · obtain ⟨f, hvf, hf, hfails⟩ := ih h
      exact ⟨f, hvf, by omega, hfails⟩
    · refine ⟨N, ?_, Nat.lt_succ_self N, fun hnone => ?_, Nat.le_of_not_lt h, hshort⟩
      · by_contra hlt
        have hmono : demand want new (N + 1) ≤ demand want new v :=
          demand_mono (Nat.lt_of_not_le hlt)
        omega
      · rw [demand_hole hnone] at hshort
        exact h hshort

end

end Xv6.Vm
