import Xv6.Lib.System
import Xv6.Vm.Missing
import Xv6.Vm.Simulation

/-! # Page tables are finite maps

A page table in memory, built from `uvmcreate` by the functions of `vm.c` while the
rest of the kernel allocates, frees and writes other pages, is a partial map from
virtual pages to physical pages and permissions.
-/

namespace Xv6.Vm.Words

open Lib

/-! ## `freewalk` -/

/-- Each page `q` went to the free list `cnt q` times, and no other page was written. -/
structure Gone (cnt : Nat → Nat) (m m' : Ram) : Prop where
  free : ∀ q, m'.free.count q = m.free.count q + cnt q
  word : ∀ a, cnt (a / PGSIZE) = 0 → m'.word a = m.word a
  kernelEnd : m'.kernelEnd = m.kernelEnd

section Freewalk

variable {α : Type} {child : Nat → α} {cnt : Nat → α → Nat} {P : Nat → Prop} {m₀ m m' : Ram}
  {p k c depth : Nat}

/-- The state of the loop of `freewalk` after `k` entries of the table `n` at page `p`:
the tables below these are free, what the others link to is as it was in `m₀`. -/
structure Walking (n : Node α) (cnt : Nat → α → Nat) (p : Nat) (m₀ m : Ram) (k : Nat) (m' : Ram) :
    Prop where
  free : ∀ q, m'.free.count q = m.free.count q + ∑ i ∈ Finset.range k, (n.entry i).elim 0 (cnt q)
  outside : ∀ a, n.count (cnt (a / PGSIZE)) (a / PGSIZE) = 0 → m'.word a = m.word a
  links : ∀ j, k ≤ j → j < 512 → m'.word (p * PGSIZE + 8 * j) = m₀.word (p * PGSIZE + 8 * j)
  below : ∀ j a d, k ≤ j → j < 512 → n.entry j = some d → 0 < cnt (a / PGSIZE) d →
    m'.word a = m₀.word a
  kernelEnd : m'.kernelEnd = m.kernelEnd

theorem Walking.skip {n : Node α} (h : Walking n cnt p m₀ m k m') (hentry : n.entry k = none) :
    Walking n cnt p m₀ m (k + 1) m' where
  free q := by
    rw [h.free q, Finset.sum_range_succ, hentry]
    rfl
  outside := h.outside
  links j hj := h.links j (by omega)
  below j a d hj := h.below j a d (by omega)
  kernelEnd := h.kernelEnd

theorem Walking.next {n : Node α} {d : α} {m'' : Ram} (h : Walking n cnt p m₀ m k m')
    (hpage : n.page = p) (hdist : ∀ q, n.count (cnt q) q ≤ 1) (hk : k < 512)
    (hentry : n.entry k = some d) (hgone : Gone (cnt · d) m' m'') :
    Walking n cnt p m₀ m (k + 1) (m''.store (p * PGSIZE + 8 * k) 0) := by
  obtain ⟨hcount, hword, hend⟩ := hgone
  have hstore : ∀ a, a ≠ p * PGSIZE + 8 * k →
      (m''.store (p * PGSIZE + 8 * k) 0).word a = m''.word a :=
      fun a ha => Function.update_of_ne ha _ _
  -- the page of the table is not below one of its entries
  have hself : ∀ {j e}, j < 512 → n.entry j = some e → cnt p e = 0 := by
    intro j e hj he
    have hle := Node.page_add_le_count (q := p) (cnt p) hj he
    rw [if_pos hpage] at hle
    have := hdist p
    omega
  constructor
  · intro q
    have hfree : (m''.store (p * PGSIZE + 8 * k) 0).free = m''.free := rfl
    rw [hfree, hcount q, h.free q, Finset.sum_range_succ, hentry, Option.elim_some]
    omega
  · intro a ha
    have hle := Node.page_add_le_count (q := a / PGSIZE) (cnt (a / PGSIZE)) hk hentry
    rw [hstore, hword a (by omega), h.outside a ha]
    intro heq
    rw [heq, addr_page hk, if_pos hpage] at hle
    rw [heq, addr_page hk] at ha
    omega
  · intro j hj hlt
    rw [hstore, hword, h.links j (by omega) hlt]
    · rw [addr_page hlt]
      exact hself hk hentry
    · intro heq
      have := (addr_inj hlt hk heq).2
      omega
  · intro j a e hj hlt he hpos
    have hpair := Node.pair_le_count (q := a / PGSIZE) (cnt (a / PGSIZE)) hk hlt (by omega)
      hentry he
    have hone := hdist (a / PGSIZE)
    rw [hstore, hword a (by omega), h.below j a e (by omega) hlt he hpos]
    intro heq
    rw [heq, addr_page hk, hself hlt he] at hpos
    exact absurd hpos (lt_irrefl 0)
  · exact hend.trans h.kernelEnd

theorem release_count (q : Nat) :
    (m.release (p * PGSIZE)).free.count q = m.free.count q + if p = q then 1 else 0 := by
  have hfree : (m.release (p * PGSIZE)).free = p :: m.free :=
    congrArg (· :: m.free) (Nat.mul_div_cancel _ (by decide))
  rw [hfree, List.count_cons]
  simp

variable (child cnt) in
/-- `freewalk` of a table whose pages are distinct, given what it does one level below. -/
theorem freewalk_table (hwf : Table (Linked P) m₀ (p * PGSIZE)) (hown : Owned m₀.kernelEnd p)
    (hdist : ∀ q, (decodeNode (decodeLink child) m₀ (p * PGSIZE)).count (cnt q) q ≤ 1)
    (hchild : ∀ c m, P (c * PGSIZE) →
      (∀ a, 0 < cnt (a / PGSIZE) (child (c * PGSIZE)) → m.word a = m₀.word a) →
      m.kernelEnd = m₀.kernelEnd →
      Post (fun _ => False) (Gone (cnt · (child (c * PGSIZE))) m) (freewalk depth m (c * PGSIZE)))
    (hsame : ∀ a, 0 < (decodeNode (decodeLink child) m₀ (p * PGSIZE)).count (cnt (a / PGSIZE))
      (a / PGSIZE) →
      m.word a = m₀.word a) (hend : m.kernelEnd = m₀.kernelEnd) :
    Post (fun _ => False)
      (Gone (fun q => (decodeNode (decodeLink child) m₀ (p * PGSIZE)).count (cnt q) q) m)
      (freewalk (depth + 1) m (p * PGSIZE)) := by
  generalize hn : decodeNode (decodeLink child) m₀ (p * PGSIZE) = n at *
  have hpage : n.page = p := by
    rw [← hn]
    exact Nat.mul_div_cancel _ (by decide)
  have hpos : 0 < n.count (cnt p) p := by
    unfold Node.count
    rw [if_pos hpage]
    omega
  unfold freewalk
  apply Post.bind (Q := Walking n cnt p m₀ m 512)
  · refine Post.forRange (I := Walking n cnt p m₀ m)
      ⟨fun q => by simp, fun _ _ => rfl, ?_, ?_, rfl⟩ ?_
    · intro j _ hj
      apply hsame
      rw [addr_page hj]
      exact hpos
    · intro j a d _ hj hd ha
      have hle := Node.page_add_le_count (q := a / PGSIZE) (cnt (a / PGSIZE)) hj hd
      exact hsame a (by omega)
    · intro k m' hk hwalk
      dsimp only
      rw [hwalk.links k le_rfl hk]
      rcases hwf k hk with hzero | ⟨c, hc, hlink, hP⟩
      · have hentry : n.entry k = none := by
          rw [← hn, decodeNode_entry hk, hzero]
          rfl
        rw [hzero, if_neg (by simp), if_neg (by simp)]
        exact .pure (hwalk.skip hentry)
      · have hentry : n.entry k = some (child (c * PGSIZE)) := by
          rw [← hn, decodeNode_entry hk, hlink, decodeLink_link hc]
        rw [hlink, if_pos ⟨link_valid c, link_no_perm c⟩, PTE2PA_link hc]
        apply Post.bind (hchild c m' hP (fun a ha => hwalk.below k a _ le_rfl hk hentry ha)
          (hwalk.kernelEnd.trans hend))
        intro m'' hgone
        exact .pure (hwalk.next hpage hdist hk hentry hgone)
  · intro m' hwalk
    rw [kfree_ok (by rwa [hwalk.kernelEnd, hend])]
    refine .ok ⟨fun q => ?_, fun a ha => ?_, hwalk.kernelEnd⟩
    · rw [release_count, hwalk.free q]
      unfold Node.count
      rw [hpage]
      omega
    · rw [release_word, hwalk.outside a ha]
      intro heq
      rw [heq] at ha
      exact absurd ha hpos.ne'

theorem freewalk_empty (hzero : ∀ i, i < 512 → m.word (p * PGSIZE + 8 * i) = 0)
    (hown : Owned m.kernelEnd p) :
    Post (fun _ => False) (Gone (fun q => if p = q then 1 else 0) m)
    (freewalk (depth + 1) m (p * PGSIZE)) := by
  unfold freewalk
  apply Post.bind (Q := fun m' => m' = m)
  · refine Post.forRange (I := fun _ m' => m' = m) rfl ?_
    rintro k m' hk rfl
    dsimp only
    rw [hzero k hk, if_neg (by simp), if_neg (by simp)]
    exact .pure rfl
  · rintro m' rfl
    rw [kfree_ok hown]
    refine .ok ⟨fun q => release_count q, fun a ha => release_word fun heq => ?_, rfl⟩
    rw [if_pos heq.symm] at ha
    exact absurd ha one_ne_zero

end Freewalk

section

variable {m m' : Ram} {r va : Nat}

/-- A level-0 table without entries, on a page of the allocator. -/
def Bare0 (m : Ram) (t : Nat) : Prop := Table (· = 0) m t ∧ Owned m.kernelEnd (t / PGSIZE)

/-- A level-1 table without leaves below it, whose pages are distinct. -/
def Bare (m : Ram) (t : Nat) : Prop :=
  Table (Linked (Bare0 m)) m t ∧ (∀ q, count1 q (decode1 m t) ≤ 1) ∧ Owned m.kernelEnd (t / PGSIZE)

theorem Wf.bare (hwf : Wf m r) (hleaf : ∀ v, (decode m (r * PGSIZE)).leaf v = none) :
    Table (Linked (Bare m)) m (r * PGSIZE) := by
  intro i hi
  rcases hwf.tree i hi with h0 | ⟨p1, hp1, hlink1, hwf1⟩
  · exact Or.inl h0
  have hle := count1_le_nodes hi hlink1 hp1
  -- a page below this entry is a page of the tree
  have hown : ∀ p, 0 < count1 p (decode1 m (p1 * PGSIZE)) →
      Owned m.kernelEnd (p * PGSIZE / PGSIZE) := by
    intro p hpos
    rw [Nat.mul_div_cancel _ (by decide : 0 < PGSIZE)]
    exact hwf.owned p (lt_of_lt_of_le hpos ((hle p).trans (Nat.le_add_left _ _)))
  refine Or.inr ⟨p1, hp1, hlink1, fun j hj => ?_, fun q => (hle q).trans (hwf.nodes_le q),
    hown p1 (count1_pos m p1)⟩
  rcases hwf1 j hj with h0 | ⟨p0, hp0, hlink0, hwf0⟩
  · exact Or.inl h0
  have hbelow := Node.page_add_le_count (q := p0) (count0 p0) hj (decode1_entry hj hlink0 hp0)
  have hpos := count0_pos m p0
  refine Or.inr ⟨p0, hp0, hlink0, fun k hk => ?_, hown p0 (by simp only [count1_def]; omega)⟩
  obtain ⟨e, he, hword⟩ := hwf0 k hk
  have hnone := hleaf ((i * 512 + j) * 512 + k)
  rw [leaf_of_entries hi hj hk (decode_entry hi hlink1 hp1) (decode1_entry hj hlink0 hp0), decode0,
    decodeNode_entry hk, hword, decodePte_encode he] at hnone
  rw [hword, hnone]
  rfl

theorem freewalk_leafless (hwf : Wf m r) (hleaf : ∀ v, (decode m (r * PGSIZE)).leaf v = none) :
    ∃ m', freewalk 3 m (r * PGSIZE) = .ok m' ∧ Gone (decode m (r * PGSIZE)).nodes m m' := by
  apply Post.exists_ok
  have hroot : Owned m.kernelEnd r := hwf.owned r (lt_of_lt_of_le nodes_pos (Nat.le_add_left _ _))
  refine freewalk_table (decode1 m) count1 (hwf.bare hleaf) hroot hwf.nodes_le ?_
    (fun _ _ => rfl) rfl
  rintro p1 m₁ ⟨htable, hdist, hown₁⟩ hsame₁ hend₁
  rw [Nat.mul_div_cancel _ (by decide : 0 < PGSIZE)] at hown₁
  refine freewalk_table (decode0 m) count0 htable hown₁ hdist ?_ hsame₁ hend₁
  rintro p0 m₂ ⟨hzero, hown₂⟩ hsame₂ hend₂
  rw [Nat.mul_div_cancel _ (by decide : 0 < PGSIZE)] at hown₂
  have hcount : (count0 · (decode0 m (p0 * PGSIZE))) = fun q => if p0 = q then 1 else 0 := by
    funext q
    have hpage : (decode0 m (p0 * PGSIZE)).page = p0 := Nat.mul_div_cancel _ (by decide)
    rw [count0_eq, hpage]
  rw [hcount]
  refine freewalk_empty (fun k hk => ?_) (by rwa [hend₂])
  rw [hsame₂ _ (by rw [addr_page hk]; exact count0_pos m p0)]
  exact hzero k hk

/-! ## Paths -/

/-- The page-table page that a list of indices leads to. -/
def tableAt (m : Ram) : Nat → List Nat → Option Nat
  | t, [] => some t
  | t, i :: is =>
    if m.word (t + 8 * i) &&& PTE_V = 0 then none else tableAt m (PTE2PA (m.word (t + 8 * i))) is

/-- At most `level` indices, each of an entry of a page. -/
def Path (level : Nat) (is : List Nat) : Prop := is.length ≤ level ∧ ∀ i, i ∈ is → i < 512

/-- Page `q` occurs below the table at `t` at least once exactly if a path leads to it,
and twice if two do. -/
structure Counted (m : Ram) (level t q n : Nat) : Prop where
  one : ∀ is, Path level is → tableAt m t is = some (q * PGSIZE) → 1 ≤ n
  two : ∀ is js, Path level is → Path level js → tableAt m t is = some (q * PGSIZE) →
    tableAt m t js = some (q * PGSIZE) → is ≠ js → 2 ≤ n
  path : 1 ≤ n → ∃ is, Path level is ∧ tableAt m t is = some (q * PGSIZE)

theorem counted_leaf (m : Ram) (p q : Nat) :
    Counted m 0 (p * PGSIZE) q (if p = q then 1 else 0) := by
  have hnil : ∀ is, Path 0 is → is = [] :=
    fun is h => List.length_eq_zero_iff.mp (by have := h.1; omega)
  constructor
  · intro is hpath hat
    rw [hnil is hpath, tableAt, Option.some.injEq] at hat
    simp only [PGSIZE] at hat
    rw [if_pos (by omega)]
  · intro is js his hjs _ _ hne
    exact absurd ((hnil is his).trans (hnil js hjs).symm) hne
  · intro hle
    have heq : p = q := by
      by_contra hne
      rw [if_neg hne] at hle
      omega
    exact ⟨[], ⟨le_rfl, fun i hi => (by cases hi)⟩, by rw [heq]; rfl⟩

theorem counted_table {α : Type} {child : Nat → α} (cnt : Nat → α → Nat) {P : Nat → Prop}
    {level p q : Nat} (hwf : Table (Linked P) m (p * PGSIZE))
    (hchild : ∀ c, P (c * PGSIZE) → Counted m level (c * PGSIZE) q (cnt q (child (c * PGSIZE)))) :
    Counted m (level + 1) (p * PGSIZE) q
      ((decodeNode (decodeLink child) m (p * PGSIZE)).count (cnt q) q) := by
  have hpage : (decodeNode (decodeLink child) m (p * PGSIZE)).page = p :=
    Nat.mul_div_cancel _ (by decide)
  -- a path that starts with `i` enters the table that entry `i` links to
  have henter : ∀ i is, Path (level + 1) (i :: is) → tableAt m (p * PGSIZE) (i :: is) =
      some (q * PGSIZE) →
      i < 512 ∧ Path level is ∧ ∃ c, c < 2 ^ 44 ∧ m.word (p * PGSIZE + 8 * i) = link c ∧
      P (c * PGSIZE) ∧
        tableAt m (c * PGSIZE) is = some (q * PGSIZE) ∧
            (decodeNode (decodeLink child) m (p * PGSIZE)).entry i = some (child (c * PGSIZE)) := by
    intro i is hpath hat
    have hi : i < 512 := hpath.2 i List.mem_cons_self
    refine ⟨hi, ⟨Nat.le_of_succ_le_succ hpath.1, fun j hj => hpath.2 j (List.mem_cons_of_mem _ hj)⟩,
      ?_⟩
    rcases hwf i hi with h0 | ⟨c, hc, hlink, hP⟩
    · rw [tableAt, h0, if_pos (Nat.zero_and _)] at hat
      exact (by cases hat)
    · rw [tableAt, hlink, if_neg (link_valid c), PTE2PA_link hc] at hat
      refine ⟨c, hc, hlink, hP, hat, ?_⟩
      rw [decodeNode_entry hi, hlink, decodeLink_link hc]
  have hroot : tableAt m (p * PGSIZE) [] = some (q * PGSIZE) → p = q := by
    intro hat
    rw [tableAt, Option.some.injEq] at hat
    simp only [PGSIZE] at hat
    omega
  constructor
  · intro is hpath hat
    cases is with
    | nil =>
      rw [← hroot hat]
      exact page_le_count cnt
    | cons i is =>
      obtain ⟨hi, his, c, -, -, hP, hat', hentry⟩ := henter i is hpath hat
      have hone := (hchild c hP).one is his hat'
      have hle := Node.page_add_le_count (q := q) (cnt q) hi hentry
      omega
  · intro is js his hjs hat hat' hne
    cases is with
    | nil =>
      cases js with
      | nil => exact absurd rfl hne
      | cons j js =>
        obtain ⟨hj, hjs, d, -, -, hP, hat', hentry⟩ := henter j js hjs hat'
        have hone := (hchild d hP).one js hjs hat'
        have hle := Node.page_add_le_count (q := q) (cnt q) hj hentry
        rw [if_pos (hpage.trans (hroot hat))] at hle
        omega
    | cons i is =>
      obtain ⟨hi, his, c, hc, hlink, hP, hat, hentry⟩ := henter i is his hat
      have hone := (hchild c hP).one is his hat
      have hle := Node.page_add_le_count (q := q) (cnt q) hi hentry
      cases js with
      | nil =>
        rw [if_pos (hpage.trans (hroot hat'))] at hle
        omega
      | cons j js =>
        obtain ⟨hj, hjs', d, hd, hlink', hP', hat₁, hentry'⟩ := henter j js hjs hat'
        by_cases hij : i = j
        · subst hij
          rw [← link_inj hc hd (hlink.symm.trans hlink')] at hat₁
          have htwo := (hchild c hP).two is js his hjs' hat hat₁ fun heq => hne (by rw [heq])
          omega
        · have hone' := (hchild d hP').one js hjs' hat₁
          have hpair := Node.pair_le_count (q := q) (cnt q) hi hj hij hentry hentry'
          omega
  · intro hle
    by_cases heq : p = q
    · exact ⟨[], ⟨Nat.zero_le _, fun i hi => (by cases hi)⟩, by rw [heq]; rfl⟩
    · unfold Node.count at hle
      rw [hpage, if_neg heq, Nat.zero_add] at hle
      obtain ⟨i, hi, hne⟩ := Finset.exists_ne_zero_of_sum_ne_zero (Nat.pos_iff_ne_zero.mp hle)
      have hi' := Finset.mem_range.mp hi
      rcases hwf i hi' with h0 | ⟨c, hc, hlink, hP⟩
      · rw [decodeNode_entry hi', h0] at hne
        exact absurd rfl hne
      · rw [decodeNode_entry hi', hlink, decodeLink_link hc] at hne
        obtain ⟨is, his, hat⟩ := (hchild c hP).path (Nat.pos_iff_ne_zero.mpr hne)
        refine ⟨i :: is, ⟨Nat.succ_le_succ his.1, fun j hj => ?_⟩, ?_⟩
        · rcases List.mem_cons.mp hj with rfl | hj
          · exact hi'
          · exact his.2 j hj
        · rw [tableAt, hlink, if_neg (link_valid c), PTE2PA_link hc]
          exact hat

theorem Wf.counted (hwf : Wf m r) (q : Nat) :
    Counted m 2 (r * PGSIZE) q ((decode m (r * PGSIZE)).nodes q) := by
  refine counted_table count1 hwf.tree ?_
  intro p1 hwf1
  refine counted_table count0 hwf1 ?_
  intro p0 _
  have hpage : (decode0 m (p0 * PGSIZE)).page = p0 := Nat.mul_div_cancel _ (by decide)
  rw [count0_eq, hpage]
  exact counted_leaf m p0 q

/-! ## Page tables in a running kernel -/

structure State where
  ram : Ram
  root : Nat

namespace State

def pagetable (s : State) : Nat := s.root * PGSIZE

def tree (s : State) : PageTable := decode s.ram s.pagetable

def map (s : State) : VMap := s.tree.leaf

def hasTable (s : State) (v : Nat) : Bool :=
  (walkLoop (v * PGSIZE) false 2 s.pagetable s.ram).1.isSome

end State

/-- The calls on the page table. `other` is what the rest of the kernel does to memory
between them. -/
inductive Action where
  | walk (va : Nat)
  | mappages (va size pa : Nat) (perm : Perm)
  | uvmunmap (va npages : Nat) (do_free : Bool)
  | uvmclear (va : Nat)
  | other (ram : Ram)

/-- Pages that `mappages(va, size)` covers. -/
def npages (va size : Nat) : Nat := (va + size - 1) / PGSIZE - va / PGSIZE + 1

def result (s : State) : Except Panic Ram → Outcome Panic State
  | .ok ram => .next { s with ram := ram }
  | .error e => .fault e

def step (s : State) : Action → Outcome Panic State
  | .walk va => result s ((walk s.ram s.pagetable va true).map Prod.snd)
  | .mappages va size pa perm =>
    result s ((mappages s.ram s.pagetable va size pa perm).map Prod.snd)
  | .uvmunmap va npages do_free => result s (uvmunmap s.ram s.pagetable va npages do_free)
  | .uvmclear va => result s (uvmclear s.ram s.pagetable va)
  | .other ram => .next { s with ram := ram }

/-- How the calls are made: `mappages` on unmapped pages below `MAXVA` with some
permission, `uvmunmap` on pages that have a level-0 table. The rest of the kernel does not write,
free or allocate page-table pages of this table. -/
def Called (s : State) : Action → Prop
  | .walk _ => True
  | .mappages va size pa perm => 0 < size ∧ va + size ≤ MAXVA ∧ pa % PGSIZE = 0 ∧
      pa + npages va size * PGSIZE ≤ 2 ^ 56 ∧ perm.none = false ∧
      ∀ k, k < npages va size → s.map (va / PGSIZE + k) = none
  | .uvmunmap va npages _ => va % PGSIZE = 0 ∧ va + npages * PGSIZE ≤ MAXVA ∧
      ∀ k, k < npages → s.hasTable (va / PGSIZE + k) = true
  | .uvmclear _ => True
  | .other ram => (∀ a, 0 < s.tree.nodes (a / PGSIZE) → ram.word a = s.ram.word a) ∧
      (∀ q, ram.free.count q + s.tree.nodes q ≤ 1) ∧ (∀ q, q ∈ ram.free → Owned ram.kernelEnd q) ∧
      ram.kernelEnd = s.ram.kernelEnd

/-- The entries that `uvmunmap` removes have a permission left: `uvmclear` has not taken the only
one of a page that was mapped with `PTE_U` alone. The pages that it frees are allocated ones. -/
def Permitted (s : State) : Action → Prop
  | .uvmunmap va npages do_free =>
    (∀ k, k < npages → (s.map (va / PGSIZE + k)).all (fun pte => !pte.perm.none) = true) ∧
    (do_free = true → Freeable s.ram s.root (va / PGSIZE) npages)
  | _ => True

def Proper (s : State) (a : Action) : Prop := Called s a ∧ Permitted s a

/-- A page table fresh from `uvmcreate`, on an allocator with distinct pages. -/
def Created (s : State) : Prop :=
  ∃ m : Ram, (∀ q, m.free.count q ≤ 1) ∧ (∀ q, q ∈ m.free → Owned m.kernelEnd q) ∧
    uvmcreate m = some (s.pagetable, s.ram)

variable {s s' : State}

theorem result_next {x : Except Panic Ram} (h : result s x = .next s') :
    x = .ok s'.ram ∧ s'.root = s.root := by
  cases x with
  | ok ram =>
    cases h
    exact ⟨rfl, rfl⟩
  | error e => cases h

theorem Created.wf (h : Created s) : Wf s.ram s.root := by
  obtain ⟨m, hdistinct, hpages, hcreate⟩ := h
  unfold uvmcreate kalloc at hcreate
  cases hfree : m.free with
  | nil => simp [hfree] at hcreate
  | cons p rest =>
    simp only [hfree, Option.some.injEq, Prod.mk.injEq, State.pagetable] at hcreate
    obtain ⟨hroot, hram⟩ := hcreate
    have hp : p = s.root := by
      simp only [PGSIZE] at hroot
      omega
    subst hp
    have hzero : ∀ i, i < 512 → s.ram.word (s.root * PGSIZE + 8 * i) = 0 := by
      intro i hi
      rw [← hram]
      exact (if_pos (in_page.mpr (addr_page hi))).trans (Nat.zero_mul _)
    have hempty : decode s.ram (s.root * PGSIZE) = Node.empty s.root := decodeNode_zero rfl hzero
    have hrest : s.ram.free = rest := by
      rw [← hram]
      rfl
    refine ⟨table_zero (Or.inl rfl) hzero, fun q => ?_, fun q hq => ?_⟩
    · have hle := hdistinct q
      rw [hfree, List.count_cons] at hle
      simp only [beq_iff_eq] at hle
      rw [hempty, hrest]
      unfold PageTable.nodes
      rw [Node.count_empty]
      exact hle
    · have hend : s.ram.kernelEnd = m.kernelEnd := by
        rw [← hram]
        rfl
      rw [hend]
      refine hpages q (List.count_pos_iff.mp (lt_of_lt_of_eq hq ?_))
      rw [hempty, hrest, hfree, List.count_cons]
      unfold PageTable.nodes
      rw [Node.count_empty]
      simp only [beq_iff_eq]

/-! ### What each call does to the map -/

theorem State.hasTable_eq (hwf : Wf s.ram s.root) {v : Nat} (hv : v * PGSIZE < MAXVA) :
    s.hasTable v = s.tree.hasTable v := by
  unfold State.hasTable State.tree State.pagetable
  have hlt := page_lt hv
  rw [Nat.mul_div_cancel _ (by decide : 0 < PGSIZE)] at hlt
  rcases walkLoop_lookup (v * PGSIZE) hwf with ⟨hloop, htab⟩ | ⟨p1, p0, hat, hloop⟩
  · rw [hloop, PageTable.hasTable, htab]
    simp
  · have htab := hat.hasTable hv
    rw [Nat.mul_div_cancel _ (by decide : 0 < PGSIZE)] at htab
    rw [hloop, htab]
    rfl

theorem walk_map (hwf : Wf s.ram s.root) {va : Nat} (hva : va < MAXVA) :
    ∃ res ram, walk s.ram s.pagetable va true = .ok (res, ram) ∧ Wf ram s.root ∧
      State.map ⟨ram, s.root⟩ = s.map ∧ walk ram s.pagetable va false = .ok (res, ram) ∧
      (res = none ↔ s.ram.free.length < s.tree.missing (va / PGSIZE)) ∧
      ∀ pte, res = some pte → ram.word pte = encode (s.map (va / PGSIZE)) := by
  obtain ⟨res, ram, hloop, hwf', htree, hat⟩ := walkAlloc_sim hwf hva
  have hpage : va / PGSIZE * PGSIZE < MAXVA := lt_of_le_of_lt (Nat.div_mul_le_self _ _) hva
  have hwalk : walk s.ram s.pagetable va true = .ok (res, ram) := by
    rw [walk, if_neg (by omega)]
    exact congrArg Except.ok hloop
  rw [walkAlloc_page] at htree
  by_cases hshort : s.ram.free.length < s.tree.missing (va / PGSIZE)
  · obtain ⟨km', pt', htree', -, hleaf, htables⟩ := walkAlloc_short s.ram.kmem s.tree hpage hshort
    have heq := htree'.symm.trans htree
    simp only [Except.ok.injEq, Prod.mk.injEq] at heq
    obtain ⟨hfound, -, rfl⟩ := heq
    obtain rfl : res = none :=
      Option.not_isSome_iff_eq_none.mp (by rw [← hfound]; exact Bool.false_ne_true)
    refine ⟨none, ram, hwalk, hwf', hleaf, ?_, iff_of_true rfl hshort, fun _ h => by cases h⟩
    rcases walk_lookup hwf' hva with ⟨hlookup, -⟩ | ⟨p1, p0, hat', -, -⟩
    · exact hlookup
    · have htab := hat'.hasTable hva
      rw [htables] at htab
      rw [missing_of_table htab] at hshort
      exact absurd hshort (Nat.not_lt_zero _)
  · obtain ⟨km', pt', htree', -, hleaf⟩ :=
      walkAlloc_enough s.ram.kmem s.tree hpage (Nat.le_of_not_lt hshort)
    have heq := htree'.symm.trans htree
    simp only [Except.ok.injEq, Prod.mk.injEq] at heq
    obtain ⟨hfound, -, rfl⟩ := heq
    obtain ⟨pte, rfl⟩ := Option.isSome_iff_exists.mp hfound.symm
    obtain ⟨p1, p0, hat', rfl⟩ := hat _ rfl
    have hlookup : walk ram s.pagetable va false = .ok (some (p0 * PGSIZE + 8 * PX 0 va), ram) := by
      rw [walk, if_neg (by omega), State.pagetable, walkLoop_link hat'.link1 hat'.page1,
        walkLoop_link hat'.link0 hat'.page0]
      rfl
    refine ⟨_, ram, hwalk, hwf', hleaf, hlookup, iff_of_false (Option.some_ne_none _) hshort,
      fun pte hpte => ?_⟩
    cases hpte
    rw [(hat'.word_eq hwf' hva).1, hleaf]
    rfl

theorem mappages_map (hwf : Wf s.ram s.root) {va size pa : Nat} {perm : Perm}
    (h : Called s (.mappages va size pa perm)) :
    ∃ k ram, k ≤ npages va size ∧
      mappages s.ram s.pagetable va size pa perm = .ok (decide (k = npages va size), ram) ∧
      Wf ram s.root ∧ State.map ⟨ram, s.root⟩ = VMap.map s.map (va / PGSIZE) k
      (pa / PGSIZE) perm := by
  obtain ⟨hsize, hmax, haligned, hphys, -, hfree⟩ := h
  have hpa : pa = pa / PGSIZE * PGSIZE := by
    simp only [PGSIZE] at *
    omega
  have hpost := mappages_post s.ram.kmem s.tree (pa / PGSIZE) perm hsize
    (show va + size ≤ 2 ^ 64 by simp only [MAXVA] at hmax; omega)
  have hsim := mappages_sim va size (pa / PGSIZE) perm hwf
    (by unfold npages at hphys; simp only [PGSIZE] at *; omega)
    (by simp only [MAXVA] at hmax; omega)
  rw [← hpa] at hsim
  rcases hsim with ⟨found, ram, hrun, hwf', htree⟩ | ⟨e, -, htree⟩
  · obtain ⟨k, hk, hfound, -, hleaf⟩ := hpost.of_ok htree
    refine ⟨k, ram, hk, ?_, hwf', hleaf⟩
    dsimp only at hfound
    rw [hfound] at hrun
    exact hrun
  · -- the pages are below `MAXVA` and unmapped, so `mappages` does not panic
    rcases hpost.of_error htree with ⟨-, hlt⟩ | ⟨-, w, hw1, hw2, hw⟩
    · simp only [MAXVA, PGSIZE] at *
      omega
    · have hnone := hfree (w - va / PGSIZE) (by unfold npages; omega)
      rw [Nat.add_sub_cancel' hw1] at hnone
      exact absurd hnone hw

theorem uvmunmap_map (hwf : Wf s.ram s.root) {va n : Nat} {do_free : Bool}
    (h : Proper s (.uvmunmap va n do_free)) :
    ∃ ram, uvmunmap s.ram s.pagetable va n do_free = .ok ram ∧ Wf ram s.root ∧
      State.map ⟨ram, s.root⟩ = VMap.unmap s.map (va / PGSIZE) n := by
  obtain ⟨⟨haligned, hmax, htables⟩, hperms, hown⟩ := h
  have hva : va = va / PGSIZE * PGSIZE := by
    simp only [PGSIZE] at *
    omega
  have hlt : (va / PGSIZE + n) * PGSIZE ≤ MAXVA := by rw [Nat.add_mul, ← hva]; exact hmax
  have hlt64 : (va / PGSIZE + n) * PGSIZE < 2 ^ 64 := lt_of_le_of_lt hlt (by decide)
  have hpost := uvmunmap_post s.ram.kmem s.tree do_free hlt64
  have hsim := uvmunmap_sim (m := s.ram) hwf hown hlt64
  rw [← hva] at hsim hpost
  rcases hsim with ⟨ram, hrun, hwf', htree⟩ | ⟨e, -, htree⟩
  · exact ⟨ram, hrun, hwf', (hpost.of_ok htree).leaf⟩
  · rcases hpost.of_error htree with ⟨-, hgt⟩ | ⟨w, hw1, hw2, hw⟩
    · omega
    · have htab := htables (w - va / PGSIZE) (by omega)
      have hperm := hperms (w - va / PGSIZE) (by omega)
      rw [Nat.add_sub_cancel' hw1] at htab hperm
      have hw3 : w * PGSIZE < MAXVA :=
        lt_of_lt_of_le (Nat.mul_lt_mul_of_pos_right hw2 (by decide)) hlt
      rw [s.hasTable_eq hwf hw3] at htab
      rcases hw with ⟨-, hno⟩ | ⟨-, pte, hpte, hnone⟩
      · rw [htab] at hno
        exact absurd hno (by decide)
      · have hmap : s.map w = some pte := hpte
        rw [hmap, Option.all_some, hnone] at hperm
        exact absurd hperm (by decide)

theorem uvmclear_map (hwf : Wf s.ram s.root) {va : Nat} (hva : va < MAXVA) :
    (∃ ram, uvmclear s.ram s.pagetable va = .ok ram ∧ Wf ram s.root ∧
      State.map ⟨ram, s.root⟩ = VMap.clearUser s.map (va / PGSIZE)) ∨
    uvmclear s.ram s.pagetable va = .error .uvmclear ∧ s.tree.hasTable (va / PGSIZE) = false := by
  have hpost := uvmclear_post s.tree hva
  rcases uvmclear_sim hwf hva with ⟨ram, hrun, hwf', -, htree⟩ | ⟨e, hrun, htree⟩
  · exact Or.inl ⟨ram, hrun, hwf', (hpost.of_ok htree).2.2⟩
  · obtain ⟨rfl, htab⟩ := hpost.of_error htree
    exact Or.inr ⟨hrun, htab⟩

theorem Wf.step {act : Action} (hwf : Wf s.ram s.root) (h : Proper s act)
    (hstep : step s act = .next s') : Wf s'.ram s'.root := by
  cases act with
  | walk va =>
    obtain ⟨hrun, hroot⟩ := result_next hstep
    by_cases hva : va < MAXVA
    · obtain ⟨res, ram, hwalk, hwf', -⟩ := walk_map hwf hva
      rw [hwalk] at hrun
      cases hrun
      rw [hroot]
      exact hwf'
    · rw [walk, if_pos (by omega)] at hrun
      cases hrun
  | mappages va size pa perm =>
    obtain ⟨hrun, hroot⟩ := result_next hstep
    obtain ⟨k, ram, -, hmap, hwf', -⟩ := mappages_map hwf h.1
    rw [hmap] at hrun
    cases hrun
    rw [hroot]
    exact hwf'
  | uvmunmap va n do_free =>
    obtain ⟨hrun, hroot⟩ := result_next hstep
    obtain ⟨ram, hunmap, hwf', -⟩ := uvmunmap_map hwf h
    rw [hunmap] at hrun
    cases hrun
    rw [hroot]
    exact hwf'
  | uvmclear va =>
    obtain ⟨hrun, hroot⟩ := result_next hstep
    by_cases hva : va < MAXVA
    · rcases uvmclear_map hwf hva with ⟨ram, hclear, hwf', -⟩ | ⟨hclear, -⟩
      · rw [hclear] at hrun
        cases hrun
        rw [hroot]
        exact hwf'
      · rw [hclear] at hrun
        cases hrun
    · have herr : walk s.ram s.pagetable va false = .error .walk := if_pos (by omega)
      rw [uvmclear, herr] at hrun
      cases hrun
  | other ram =>
    cases hstep
    obtain ⟨hword, hcount, hfree, hend⟩ := h.1
    obtain ⟨hdec, htree⟩ := frame2 _ hwf.tree hword
    refine ⟨htree, fun q => ?_, fun q hq => ?_⟩
    · rw [hdec]
      exact hcount q
    · by_cases hmem : q ∈ ram.free
      · exact hfree q hmem
      · rw [hdec, List.count_eq_zero.mpr hmem, Nat.zero_add] at hq
        exact hend ▸ hwf.owned q (lt_of_lt_of_le hq (Nat.le_add_left _ _))

theorem reach_wf (h : Reach step Proper Created s) : Wf s.ram s.root :=
  h.invariant (I := fun s => Wf s.ram s.root) (fun _ => Created.wf) fun _ _ _ hwf hok hs =>
    hwf.step hok hs

/-- The physical address of an entry that user code may access. -/
def userAddr : Option Pte → Nat
  | some pte => if pte.perm.u then pte.page * PGSIZE else 0
  | none => 0

/-- The tree of a state acts as the partial map `s.map`. -/
structure IsMap (s : State) : Prop where
  /-- `walk` points to the map's entry, or finds no table and then there is none. -/
  walk : ∀ va, va < MAXVA → ∃ res, Words.walk s.ram s.pagetable va false = .ok (res, s.ram) ∧
    res.elim (s.map (va / PGSIZE) = none) fun pte => s.ram.word pte = encode (s.map (va / PGSIZE))
  walkaddr : ∀ va, Words.walkaddr s.ram s.pagetable va =
    if va < MAXVA then userAddr (s.map (va / PGSIZE)) else 0
  /-- `walk` with `alloc` fails when fewer pages are free than tables are missing. Otherwise it
  points to the map's entry, where `walk` finds it from then on. -/
  alloc : ∀ va, va < MAXVA → ∃ res ram, Words.walk s.ram s.pagetable va true = .ok (res, ram) ∧
    State.map ⟨ram, s.root⟩ = s.map ∧ Words.walk ram s.pagetable va false = .ok (res, ram) ∧
    (res = none ↔ s.ram.free.length < s.tree.missing (va / PGSIZE)) ∧
    ∀ pte, res = some pte → ram.word pte = encode (s.map (va / PGSIZE))
  /-- `mappages` returns 0 with all pages mapped, or -1 with a proper prefix of them. -/
  mappages : ∀ va size pa perm, Called s (.mappages va size pa perm) → ∃ k ram, k ≤ npages va size ∧
    Words.mappages s.ram s.pagetable va size pa perm = .ok (decide (k = npages va size), ram) ∧
    State.map ⟨ram, s.root⟩ = VMap.map s.map (va / PGSIZE) k (pa / PGSIZE) perm
  uvmunmap : ∀ va n do_free, Proper s (.uvmunmap va n do_free) → ∃ ram,
    Words.uvmunmap s.ram s.pagetable va n do_free = .ok ram ∧
    State.map ⟨ram, s.root⟩ = VMap.unmap s.map (va / PGSIZE) n
  uvmclear : ∀ va, va < MAXVA → s.hasTable (va / PGSIZE) = true → ∃ ram,
    Words.uvmclear s.ram s.pagetable va = .ok ram ∧
    State.map ⟨ram, s.root⟩ = VMap.clearUser s.map (va / PGSIZE)
  paths : ∀ is js t, Path 2 is → Path 2 js → tableAt s.ram s.pagetable is = some t →
    tableAt s.ram s.pagetable js = some t → is = js
  /-- `freewalk` of an empty map puts each page that a path leads to on the free list
  once more, and no other. -/
  freewalk : (∀ v, s.map v = none) → ∃ ram, Words.freewalk 3 s.ram s.pagetable = .ok ram ∧
    ∀ q, ((∃ is, Path 2 is ∧ tableAt s.ram s.pagetable is = some (q * PGSIZE)) →
        ram.free.count q = s.ram.free.count q + 1) ∧
      ((∀ is, Path 2 is → tableAt s.ram s.pagetable is ≠ some (q * PGSIZE)) →
        ram.free.count q = s.ram.free.count q)

theorem walkaddr_eq (hwf : Wf s.ram s.root) (va : Nat) : walkaddr s.ram s.pagetable va =
    if va < MAXVA then userAddr (s.map (va / PGSIZE)) else 0 := by
  unfold walkaddr
  by_cases hva : va < MAXVA
  · rw [if_neg (by omega), if_pos hva]
    unfold State.map State.tree State.pagetable
    rcases walkLoop_lookup va hwf with ⟨hloop, htab⟩ | ⟨p1, p0, hat, hloop⟩
    · have hnone : (decode s.ram (s.root * PGSIZE)).leaf (va / PGSIZE) = none := by
        unfold PageTable.leaf
        rw [if_pos (page_lt hva), ← table?_page, htab]
        rfl
      rw [hloop, hnone]
      rfl
    · obtain ⟨hword, hpage⟩ := hat.word_eq hwf hva
      rw [hloop]
      dsimp only
      rw [hword]
      cases hleaf : (decode s.ram (s.root * PGSIZE)).leaf (va / PGSIZE) with
      | none => rfl
      | some pte =>
        have hvalid : ¬ encode (some pte) &&& PTE_V = 0 := fun h => by cases (encode_valid _).mp h
        have huser : encode (some pte) &&& PTE_U = 0 ↔ pte.perm.u = false := by
          rw [encode_and pte (by decide)]
          exact bits_user pte.perm
        rw [if_neg hvalid, PTE2PA_encode (hpage pte hleaf), userAddr]
        cases hu : pte.perm.u with
        | false => rw [if_pos (huser.mpr hu), if_neg Bool.false_ne_true]
        | true =>
          have hset : ¬ encode (some pte) &&& PTE_U = 0 := by
            rw [huser, hu]
            exact Bool.true_eq_false_eq_False
          rw [if_neg hset, if_pos rfl]
  · rw [if_pos (by omega), if_neg hva]

theorem tableAt_aligned {t a : Nat} {is : List Nat} (ht : t % PGSIZE = 0)
    (h : tableAt m t is = some a) : a % PGSIZE = 0 := by
  induction is generalizing t with
  | nil =>
    cases h
    exact ht
  | cons i is ih =>
    unfold tableAt at h
    split at h
    · cases h
    · refine ih ?_ h
      rw [PTE2PA, Nat.shiftLeft_eq]
      simp only [PGSIZE]
      omega

/-- In every run of proper calls from `uvmcreate`, the page table is a partial map that
the functions of `vm.c` read and update as such. -/
theorem page_table_refines_map (hs : Reach step Proper Created s) : IsMap s := by
  have hwf := reach_wf hs
  constructor
  · intro va hva
    rcases walk_lookup hwf hva with ⟨hwalk, htree⟩ | ⟨p1, p0, hat, hwalk, -⟩
    · refine ⟨none, hwalk, ?_⟩
      rw [walk_eq hva] at htree
      simp only [Except.ok.injEq] at htree
      by_contra hne
      have htab : (decode s.ram (s.root * PGSIZE)).hasTable (va / PGSIZE) = true :=
        hasTable_of_leaf hne
      rw [if_pos htab] at htree
      exact (by cases htree)
    · exact ⟨_, hwalk, (hat.word_eq hwf hva).1⟩
  · exact walkaddr_eq hwf
  · intro va hva
    obtain ⟨res, ram, hwalk, -, hrest⟩ := walk_map hwf hva
    exact ⟨res, ram, hwalk, hrest⟩
  · intro va size pa perm hcall
    obtain ⟨k, ram, hk, hrun, -, hmap⟩ := mappages_map hwf hcall
    exact ⟨k, ram, hk, hrun, hmap⟩
  · intro va n do_free hcall
    obtain ⟨ram, hrun, -, hmap⟩ := uvmunmap_map hwf hcall
    exact ⟨ram, hrun, hmap⟩
  · intro va hva htab
    have hpage : va / PGSIZE * PGSIZE < MAXVA := lt_of_le_of_lt (Nat.div_mul_le_self _ _) hva
    rcases uvmclear_map hwf hva with ⟨ram, hrun, -, hmap⟩ | ⟨-, hno⟩
    · exact ⟨ram, hrun, hmap⟩
    · rw [s.hasTable_eq hwf hpage, hno] at htab
      exact absurd htab Bool.false_ne_true
  · intro is js t his hjs hat hat'
    have ht : t = t / PGSIZE * PGSIZE := by
      have := tableAt_aligned (Nat.mul_mod_left _ _) hat
      simp only [PGSIZE] at *
      omega
    rw [ht] at hat hat'
    by_contra hne
    have htwo := (hwf.counted (t / PGSIZE)).two is js his hjs hat hat' hne
    have hone := hwf.nodes_le (t / PGSIZE)
    omega
  · intro hempty
    obtain ⟨ram, hrun, hcount, -⟩ := freewalk_leafless hwf hempty
    refine ⟨ram, hrun, fun q => ⟨?_, ?_⟩⟩
    · rintro ⟨is, his, hat⟩
      have hge := (hwf.counted q).one is his hat
      have hle := hwf.nodes_le q
      rw [hcount q]
      omega
    · intro hnot
      have hzero : ¬ 1 ≤ (decode s.ram (s.root * PGSIZE)).nodes q := by
        intro hge
        obtain ⟨is, his, hat⟩ := (hwf.counted q).path hge
        exact hnot is his hat
      rw [hcount q]
      omega

/-! ### Examples of runs -/

/-- Memory with nine free pages behind the kernel. -/
def nineFree : Ram := ⟨List.range' 0x80021 9, fun _ => 0, 0x80021000⟩

def fresh : State :=
  match uvmcreate nineFree with
  | some (pagetable, ram) => ⟨ram, pagetable / PGSIZE⟩
  | none => ⟨nineFree, 0⟩

theorem fresh_created : Created fresh := by
  refine ⟨nineFree, fun q => ?_, by decide, rfl⟩
  exact List.nodup_iff_count_le_one.mp (by decide) q

def ranTo (s : State) (as : List Action) : State := (exec step s as).next?.getD s

theorem exec_ranTo {as : List Action} (h : (exec step s as).next?.isSome = true) :
    exec step s as = .next (ranTo s as) := by
  unfold ranTo
  cases hrun : exec step s as with
  | next s' => rfl
  | blocked => simp [hrun, Outcome.next?] at h
  | fault e => simp [hrun, Outcome.next?] at h

/-- Map page 0 for the user without `PTE_R`, `PTE_W` and `PTE_X`, then take it from the user. -/
def clearRun : List Action :=
  [.mappages 0 PGSIZE (7 * PGSIZE) ⟨false, false, false, true⟩, .uvmclear 0]

/-- Map the registers of the UART. -/
def uartRun : List Action := [.mappages 0 PGSIZE 0x10000000 .user]

theorem called_mappages_fresh {pa : Nat} (haligned : pa % PGSIZE = 0) (hpa : pa + PGSIZE ≤ 2 ^ 56)
    {perm : Perm} (hperm : perm.none = false) : Called fresh (.mappages 0 PGSIZE pa perm) :=
  ⟨by decide, by decide, haligned, hpa, hperm, by decide +kernel⟩

/-- `uvmunmap` panics on the entry that `uvmclear` leaves, which has no permission, and when it is
to free a page that is not the allocator's. -/
theorem uvmunmap_panics :
    (Reach step Called Created (ranTo fresh clearRun) ∧ Called (ranTo fresh clearRun)
      (.uvmunmap 0 1 false) ∧
      step (ranTo fresh clearRun) (.uvmunmap 0 1 false) = .fault .uvmunmapNotLeaf) ∧
    Reach step Called Created (ranTo fresh uartRun) ∧ Called (ranTo fresh uartRun)
    (.uvmunmap 0 1 true) ∧
      step (ranTo fresh uartRun) (.uvmunmap 0 1 true) = .fault .kfree := by
  have hclear : Guarded step Called fresh clearRun := by
    refine ⟨called_mappages_fresh (by decide) (by decide) rfl, ?_⟩
    split
    · exact ⟨trivial, by split <;> trivial⟩
    · trivial
  have huart : Guarded step Called fresh uartRun := by
    refine ⟨called_mappages_fresh (by decide) (by decide) rfl, ?_⟩
    split <;> trivial
  refine ⟨⟨?_, ⟨by decide, by decide, by decide +kernel⟩,
    Outcome.fault?_eq_some.mp (by decide +kernel)⟩,
    ?_, ⟨by decide, by decide, by decide +kernel⟩, Outcome.fault?_eq_some.mp (by decide +kernel)⟩
  · exact Reach.of_exec (.start fresh_created) hclear (exec_ranTo (by decide +kernel))
  · exact Reach.of_exec (.start fresh_created) huart (exec_ranTo (by decide +kernel))

/-- Map two pages, look one up and take the other from the user. -/
def mapRun : List Action := [.mappages 0 (2 * PGSIZE) (7 * PGSIZE) .user, .walk 0, .uvmclear PGSIZE]

theorem page_table_refines_map_mapRun :
    Reach step Proper Created (ranTo fresh mapRun) ∧ IsMap (ranTo fresh mapRun) := by
  have hreach : Reach step Proper Created (ranTo fresh mapRun) := by
    have hcall : Called fresh (.mappages 0 (2 * PGSIZE) (7 * PGSIZE) .user) :=
      ⟨by decide, by decide, by decide, by decide, by decide, by decide +kernel⟩
    have hguard : Guarded step Proper fresh mapRun := by
      refine ⟨⟨hcall, trivial⟩, ?_⟩
      split
      · refine ⟨⟨trivial, trivial⟩, ?_⟩
        split
        · exact ⟨⟨trivial, trivial⟩, by split <;> trivial⟩
        · trivial
      · trivial
    exact Reach.of_exec (.start fresh_created) hguard (exec_ranTo (by decide +kernel))
  exact ⟨hreach, page_table_refines_map hreach⟩

end

end Xv6.Vm.Words
