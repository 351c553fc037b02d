import Xv6.Vm.Refine

/-! # The functions on words do what those on trees do

One lemma for each function of `vm.c`: from a memory that holds a page table it
reaches a memory that holds the page table its counterpart on trees computes.
-/

namespace Xv6.Vm.Words

open Function Lib

def Ram.kmem (m : Ram) : Kmem := ⟨m.free, fun _ => Bytes.zero⟩

theorem Ram.store_kmem (m : Ram) (a w : Nat) : (m.store a w).kmem = m.kmem := rfl

/-- The level-1 and level-0 tables of `va` are the pages `p1` and `p0`. -/
structure At (m : Ram) (r va p1 p0 : Nat) : Prop where
  page1 : p1 < 2 ^ 44
  page0 : p0 < 2 ^ 44
  link1 : m.word (r * PGSIZE + 8 * PX 2 va) = link p1
  link0 : m.word (p1 * PGSIZE + 8 * PX 1 va) = link p0

section

variable {m m' : Ram} {r va p1 p0 w : Nat} {e : Option Pte}

namespace At

theorem entry1 (h : At m r va p1 p0) :
    (decode m (r * PGSIZE)).entry (Vm.PX 2 va) = some (decode1 m (p1 * PGSIZE)) := by
  rw [← PX_eq]
  exact decode_entry (PX_lt 2 va) h.link1 h.page1

theorem entry0 (h : At m r va p1 p0) :
    (decode1 m (p1 * PGSIZE)).entry (Vm.PX 1 va) = some (decode0 m (p0 * PGSIZE)) := by
  rw [← PX_eq]
  exact decode1_entry (PX_lt 1 va) h.link0 h.page0

theorem table? (h : At m r va p1 p0) :
    (decode m (r * PGSIZE)).table? va = some (decode0 m (p0 * PGSIZE)) := by
  unfold PageTable.table?
  rw [h.entry1]
  exact h.entry0

theorem hasTable (h : At m r va p1 p0) (hva : va < MAXVA) :
    (decode m (r * PGSIZE)).hasTable (va / PGSIZE) = true := by
  unfold PageTable.hasTable
  rw [← table?_page, h.table?]
  simp [page_lt hva]

theorem wf0 (h : At m r va p1 p0) (hwf : Wf m r) : Wf0 m (p0 * PGSIZE) := by
  rcases hwf.wf1 (PX_lt 2 va) h.link1 h.page1 _ (PX_lt 1 va) with h0 | ⟨c, hc, hw, hwf0⟩
  · rw [h.link0] at h0
    exact absurd (by rw [h0]; rfl) (link_valid p0)
  · rw [link_inj h.page0 hc (h.link0.symm.trans hw)]
    exact hwf0

theorem word_eq (h : At m r va p1 p0) (hwf : Wf m r) (hva : va < MAXVA) :
    m.word (p0 * PGSIZE + 8 * PX 0 va) = encode ((decode m (r * PGSIZE)).leaf (va / PGSIZE)) ∧
      ∀ pte, (decode m (r * PGSIZE)).leaf (va / PGSIZE) = some pte → pte.page < 2 ^ 44 := by
  obtain ⟨e, he, hword⟩ := h.wf0 hwf _ (PX_lt 0 va)
  have hleaf : (decode m (r * PGSIZE)).leaf (va / PGSIZE) = e := by
    unfold PageTable.leaf
    rw [if_pos (page_lt hva), ← table?_page, h.table?, ← PX_page, ← PX_eq,
      Option.bind_some, decode0, decodeNode_entry (PX_lt 0 va), hword, decodePte_encode he]
  rw [hleaf]
  exact ⟨hword, he⟩

theorem page1_ne (h : At m r va p1 p0) (hwf : Wf m r) : p1 ≠ p0 := by
  intro heq
  have hle := Node.page_add_le_count (q := p1) (count0 p1) (Vm.PX_lt 1 va) h.entry0
  have hpage : (decode1 m (p1 * PGSIZE)).page = p1 := Nat.mul_div_cancel _ (by decide)
  have hcount := count1_le_nodes (PX_lt 2 va) h.link1 h.page1 p1
  have hone := hwf.nodes_le p1
  have hpos := count0_pos m p0
  rw [if_pos hpage] at hle
  rw [← heq] at hpos hle
  simp only [count1_def] at hcount
  omega

theorem store (h : At m r va p1 p0) (hwf : Wf m r) (he : ∀ pte, e = some pte → pte.page < 2 ^ 44) :
    decode (m.store (p0 * PGSIZE + 8 * PX 0 va) (encode e)) (r * PGSIZE) =
        (decode m (r * PGSIZE)).setPte va e ∧
      Wf (m.store (p0 * PGSIZE + 8 * PX 0 va) (encode e)) r := by
  let m' := m.store (p0 * PGSIZE + 8 * PX 0 va) (encode e)
  have hsame : ∀ a, a ≠ p0 * PGSIZE + 8 * PX 0 va → m'.word a = m.word a := fun a ha =>
    update_of_ne ha _ _
  have hself : m'.word (p0 * PGSIZE + 8 * PX 0 va) = encode e := update_self _ _ _
  have hne : ∀ k, k < 512 → k ≠ PX 0 va →
      m'.word (p0 * PGSIZE + 8 * k) = m.word (p0 * PGSIZE + 8 * k) := fun k hk hkne =>
    hsame _ fun heq => hkne (addr_inj hk (PX_lt 0 va) heq).2
  -- the level-0 table
  have hdec0 : decode0 m' (p0 * PGSIZE) = (decode0 m (p0 * PGSIZE)).set (PX 0 va) e := by
    have hupd := decodeNode_update decodePte decodePte m m' (PX_lt 0 va)
      (t := p0 * PGSIZE) (fun k hk hkne => by rw [hne k hk hkne])
    rw [hself, decodePte_encode he] at hupd
    exact hupd
  have hwf0 : Wf0 m' (p0 * PGSIZE) := by
    intro k hk
    by_cases hkne : k = PX 0 va
    · rw [hkne, hself]
      exact ⟨e, he, rfl⟩
    · rw [hne k hk hkne]
      exact h.wf0 hwf k hk
  -- the level-1 table
  have hle := count1_le_nodes (PX_lt 2 va) h.link1 h.page1
  have hlink0 : m'.word (p1 * PGSIZE + 8 * PX 1 va) = link p0 := by
    rw [← h.link0]
    exact hsame _ fun heq => h.page1_ne hwf (addr_inj (PX_lt 1 va) (PX_lt 0 va) heq).1
  obtain ⟨hdec1, hwf1⟩ := table_replace (decode0 m) (decode0 m') count0 (Wf0 m) (Wf0 m') m'
    (PX_lt 1 va) (hwf.wf1 (PX_lt 2 va) h.link1 h.page1) (fun q => (hle q).trans (hwf.nodes_le q))
    (by
      intro a _ _ hzero
      apply hsame
      intro heq
      have hentry := decode1_entry (PX_lt 1 va) h.link0 h.page0
      rw [decode1] at hentry
      rw [hentry, heq, addr_page (PX_lt 0 va)] at hzero
      exact absurd hzero (count0_pos _ _).ne')
    (fun d hd hframe => frame0 hd hframe) hlink0 h.page0 hwf0
  have hn1 : decode1 m' (p1 * PGSIZE) =
      (decode1 m (p1 * PGSIZE)).set (PX 1 va)
          (some ((decode0 m (p0 * PGSIZE)).set (PX 0 va) e)) := by
    rw [← hdec0]
    exact hdec1
  -- the root
  obtain ⟨hdec, hwf2, -⟩ := hwf.lift1 m' (PX_lt 2 va) h.link1 h.page1 hwf1 (by
    intro a _ hzero
    apply hsame
    intro heq
    have hcount := Node.page_add_le_count (q := a / PGSIZE) (count0 (a / PGSIZE))
      (Vm.PX_lt 1 va) h.entry0
    have hpos := count0_pos m p0
    simp only [count1_def] at hzero
    rw [heq, addr_page (PX_lt 0 va)] at hzero hcount
    omega)
  have hset : decode m' (r * PGSIZE) = (decode m (r * PGSIZE)).setPte va e := by
    rw [hdec, hn1, PX_eq, PX_eq, PX_eq]
    simp only [PageTable.setPte, h.entry1, h.entry0]
  refine ⟨hset, hwf2, fun q => ?_, fun q => ?_⟩
  · rw [hset, setPte_nodes]
    exact hwf.distinct q
  · rw [hset, setPte_nodes]
    exact hwf.owned q

end At

/-! ## `walk` -/

section Levels

variable {level t p c : Nat} {alloc : Bool} {rest : List Nat}

theorem walkLoop_link (hlink : m.word (t + 8 * PX (level + 1) va) = link p) (hp : p < 2 ^ 44) :
    walkLoop va alloc (level + 1) t m = walkLoop va alloc level (p * PGSIZE) m := by
  simp only [walkLoop]
  rw [hlink, if_pos (link_valid p), PTE2PA_link hp]

theorem walkLoop_missing (hzero : m.word (t + 8 * PX (level + 1) va) = 0) :
    walkLoop va false (level + 1) t m = (none, m) := by
  simp only [walkLoop]
  rw [hzero, if_neg (by simp)]
  rfl

theorem walkLoop_full (hzero : m.word (t + 8 * PX (level + 1) va) = 0) (hfree : m.free = []) :
    walkLoop va true (level + 1) t m = (none, m) := by
  simp only [walkLoop, kalloc, hfree]
  rw [hzero, if_neg (by simp)]
  rfl

theorem walkLoop_attach (hzero : m.word (t + 8 * PX (level + 1) va) = 0)
    (hfree : m.free = c :: rest) : walkLoop va true (level + 1) t m =
      walkLoop va true level (c * PGSIZE) (attach m rest c (t + 8 * PX (level + 1) va)) := by
  simp only [walkLoop, kalloc, hfree]
  rw [hzero, if_neg (by simp)]
  rfl

end Levels

variable (va) in
/-- `walk` without `alloc` finds the entry, or finds that a table is missing. -/
theorem walkLoop_lookup (hwf : Wf m r) :
    walkLoop va false 2 (r * PGSIZE) m = (none, m) ∧ (decode m (r * PGSIZE)).table? va = none ∨
      ∃ p1 p0, At m r va p1 p0 ∧
        walkLoop va false 2 (r * PGSIZE) m = (some (p0 * PGSIZE + 8 * PX 0 va), m) := by
  rcases hwf.tree _ (PX_lt 2 va) with hzero | ⟨p1, hp1, hlink1, hwf1⟩
  · refine Or.inl ⟨walkLoop_missing hzero, ?_⟩
    unfold PageTable.table?
    rw [← PX_eq, decode, decodeNode_entry (PX_lt 2 va), hzero]
    rfl
  · rw [walkLoop_link hlink1 hp1]
    rcases hwf1 _ (PX_lt 1 va) with hzero | ⟨p0, hp0, hlink0, -⟩
    · refine Or.inl ⟨walkLoop_missing hzero, ?_⟩
      unfold PageTable.table?
      rw [← PX_eq, decode_entry (PX_lt 2 va) hlink1 hp1]
      dsimp only
      rw [← PX_eq, decode1, decodeNode_entry (PX_lt 1 va), hzero]
      rfl
    · refine Or.inr ⟨p1, p0, ⟨hp1, hp0, hlink1, hlink0⟩, ?_⟩
      rw [walkLoop_link hlink0 hp0]
      rfl

theorem walkLoop_level1 (hwf : Wf m r) (hlink : m.word (r * PGSIZE + 8 * PX 2 va) = link p1)
    (hp1 : p1 < 2 ^ 44) :
    nextTable m.kmem (decode1 m (p1 * PGSIZE)) (Vm.PX 1 va) = none ∧
        walkLoop va true 1 (p1 * PGSIZE) m = (none, m) ∨
      ∃ n0 m' p0, nextTable m.kmem (decode1 m (p1 * PGSIZE)) (Vm.PX 1 va) = some (n0, m'.kmem) ∧
        walkLoop va true 1 (p1 * PGSIZE) m = (some (p0 * PGSIZE + 8 * PX 0 va), m') ∧ Wf m' r ∧
        At m' r va p1 p0 ∧ decode m' (r * PGSIZE) = (decode m (r * PGSIZE)).set (Vm.PX 2 va)
          (some ((decode1 m (p1 * PGSIZE)).set (Vm.PX 1 va) (some n0))) := by
  have hentry1 := decode_entry (PX_lt 2 va) hlink hp1
  rcases hwf.wf1 (PX_lt 2 va) hlink hp1 _ (PX_lt 1 va) with hzero | ⟨p0, hp0, hlink0, -⟩
  · have hentry : (decode1 m (p1 * PGSIZE)).entry (Vm.PX 1 va) = none := by
      rw [← PX_eq, decode1, decodeNode_entry (PX_lt 1 va), hzero]
      rfl
    cases hfree : m.free with
    | nil =>
      refine Or.inl ⟨?_, walkLoop_full hzero hfree⟩
      simp only [nextTable, hentry, Vm.kalloc, Ram.kmem, hfree]
    | cons c rest =>
      obtain ⟨hwf', hword, hdec⟩ := hwf.attach1 (PX_lt 2 va) hlink hp1 (PX_lt 1 va) hzero hfree
      refine Or.inr ⟨Node.empty c, _, c, ?_, walkLoop_attach hzero hfree, hwf',
        ⟨hp1, (hwf.fresh hfree).1, hword, attach_self⟩, ?_⟩
      · simp only [nextTable, hentry, Vm.kalloc, Ram.kmem, hfree]
        rfl
      · rw [← PX_eq 2, ← PX_eq 1]
        exact hdec
  · have hentry := decode1_entry (PX_lt 1 va) hlink0 hp0
    rw [PX_eq] at hentry hentry1
    refine Or.inr ⟨decode0 m (p0 * PGSIZE), m, p0, ?_, ?_, hwf, ⟨hp1, hp0, hlink, hlink0⟩, ?_⟩
    · simp only [nextTable, hentry]
    · rw [walkLoop_link hlink0 hp0]
      rfl
    · rw [Node.set_self hentry, Node.set_self hentry1]

variable (va) in
theorem walkLoop_level2 (hwf : Wf m r) :
    nextTable m.kmem (decode m (r * PGSIZE)) (Vm.PX 2 va) = none ∧
        walkLoop va true 2 (r * PGSIZE) m = (none, m) ∨
      ∃ m' p1, nextTable m.kmem (decode m (r * PGSIZE)) (Vm.PX 2 va) =
          some (decode1 m' (p1 * PGSIZE), m'.kmem) ∧
        walkLoop va true 2 (r * PGSIZE) m = walkLoop va true 1 (p1 * PGSIZE) m' ∧ Wf m' r ∧
        p1 < 2 ^ 44 ∧ m'.word (r * PGSIZE + 8 * PX 2 va) = link p1 ∧
        decode m' (r * PGSIZE) =
          (decode m (r * PGSIZE)).set (Vm.PX 2 va) (some (decode1 m' (p1 * PGSIZE))) := by
  rcases hwf.tree _ (PX_lt 2 va) with hzero | ⟨p1, hp1, hlink, -⟩
  · have hentry : (decode m (r * PGSIZE)).entry (Vm.PX 2 va) = none := by
      rw [← PX_eq, decode, decodeNode_entry (PX_lt 2 va), hzero]
      rfl
    cases hfree : m.free with
    | nil =>
      refine Or.inl ⟨?_, walkLoop_full hzero hfree⟩
      simp only [nextTable, hentry, Vm.kalloc, Ram.kmem, hfree]
    | cons c rest =>
      obtain ⟨hwf', hempty, hdec⟩ := hwf.attach2 (PX_lt 2 va) hzero hfree
      refine Or.inr ⟨_, c, ?_, walkLoop_attach hzero hfree, hwf', (hwf.fresh hfree).1,
        attach_self, ?_⟩
      · rw [hempty]
        simp only [nextTable, hentry, Vm.kalloc, Ram.kmem, hfree]
        rfl
      · rw [hempty, ← PX_eq]
        exact hdec
  · have hentry := decode_entry (PX_lt 2 va) hlink hp1
    rw [PX_eq] at hentry
    refine Or.inr ⟨m, p1, ?_, walkLoop_link hlink hp1, hwf, hp1, hlink, (Node.set_self hentry).symm⟩
    simp only [nextTable, hentry]

theorem walkAlloc_sim (hwf : Wf m r) (hva : va < MAXVA) :
    ∃ res m', walkLoop va true 2 (r * PGSIZE) m = (res, m') ∧ Wf m' r ∧
      walkAlloc m.kmem (decode m (r * PGSIZE)) va =
      .ok (res.isSome, m'.kmem, decode m' (r * PGSIZE)) ∧
      ∀ a, res = some a → ∃ p1 p0, At m' r va p1 p0 ∧ a = p0 * PGSIZE + 8 * PX 0 va := by
  unfold walkAlloc
  rw [if_neg (by omega)]
  rcases walkLoop_level2 va hwf with ⟨hnext, hloop⟩ | ⟨m₁, p1, hnext, hloop, hwf₁, hp1, hlink, hdec⟩
  · rw [hnext]
    exact ⟨none, m, hloop, hwf, rfl, fun a ha => (by cases ha)⟩
  · rw [hnext, hloop]
    dsimp only
    rcases walkLoop_level1 hwf₁ hlink hp1 with ⟨hnext₁, hloop₁⟩
      | ⟨n0, m₂, p0, hnext₁, hloop₁, hwf₂, hat, hdec₂⟩
    · rw [hnext₁, ← hdec]
      exact ⟨none, m₁, hloop₁, hwf₁, rfl, fun a ha => (by cases ha)⟩
    · rw [hnext₁]
      refine ⟨_, m₂, hloop₁, hwf₂, ?_, ?_⟩
      · rw [hdec₂, hdec, Node.set_set]
        rfl
      · intro a ha
        cases ha
        exact ⟨p1, p0, hat, rfl⟩

/-! ## `mappages` -/

theorem mappagesLoop_sim {perm : Perm} {n page a : Nat} (hwf : Wf m r) (hpage : page + n ≤ 2 ^ 44) :
    (∃ found m', mappagesLoop (r * PGSIZE) perm n a (page * PGSIZE) m = .ok (found, m') ∧ Wf m' r ∧
      Vm.mappagesLoop perm n a page m.kmem (decode m (r * PGSIZE)) =
        .ok (found, m'.kmem, decode m' (r * PGSIZE))) ∨
    ∃ e, mappagesLoop (r * PGSIZE) perm n a (page * PGSIZE) m = .error e ∧
      Vm.mappagesLoop perm n a page m.kmem (decode m (r * PGSIZE)) = .error e := by
  induction n generalizing page a m with
  | zero => exact Or.inl ⟨true, m, rfl, hwf, rfl⟩
  | succ n ih =>
    by_cases hva : a < MAXVA
    · obtain ⟨res, m₁, hloop, hwf₁, htree, hat⟩ := walkAlloc_sim hwf hva
      have hwalk : walk m (r * PGSIZE) a true = .ok (res, m₁) := by
        rw [walk, if_neg (by omega), hloop]
      cases res with
      | none =>
        refine Or.inl ⟨false, m₁, ?_, hwf₁, ?_⟩
        · rw [mappagesLoop, hwalk]
          rfl
        · rw [Vm.mappagesLoop, htree]
          rfl
      | some pte =>
        obtain ⟨p1, p0, hat₁, rfl⟩ := hat _ rfl
        obtain ⟨hword, -⟩ := hat₁.word_eq hwf₁ hva
        cases hleaf : (decode m₁ (r * PGSIZE)).leaf (a / PGSIZE) with
        | some old =>
          have hvalid : m₁.word (p0 * PGSIZE + 8 * PX 0 a) &&& PTE_V ≠ 0 := by
            rw [hword, hleaf]
            exact fun h => by cases (encode_valid _).mp h
          refine Or.inr ⟨.mappagesRemap, ?_, ?_⟩
          · rw [mappagesLoop, hwalk]
            exact if_pos hvalid
          · rw [Vm.mappagesLoop, htree]
            exact if_pos (by rw [hleaf]; rfl)
        | none =>
          have hinvalid : ¬ m₁.word (p0 * PGSIZE + 8 * PX 0 a) &&& PTE_V ≠ 0 := by
            rw [hword, hleaf]
            exact not_not.mpr rfl
          obtain ⟨hdec, hwf₂⟩ := hat₁.store hwf₁ (e := some ⟨page, perm⟩)
            (fun pte hpte => by cases hpte; dsimp only; omega)
          have hstep := @ih (m₁.store (p0 * PGSIZE + 8 * PX 0 a) (encode (some ⟨page, perm⟩)))
            (page + 1) (a + PGSIZE) hwf₂ (by omega)
          rw [hdec, show (page + 1) * PGSIZE = page * PGSIZE +
            PGSIZE from Nat.succ_mul _ _] at hstep
          have hmap : mappagesLoop (r * PGSIZE) perm (n + 1) a (page * PGSIZE) m =
              mappagesLoop (r * PGSIZE) perm n (a + PGSIZE) (page * PGSIZE + PGSIZE)
                (m₁.store (p0 * PGSIZE + 8 * PX 0 a) (encode (some ⟨page, perm⟩))) := by
            rw [mappagesLoop, hwalk]
            exact if_neg hinvalid
          have htreemap : Vm.mappagesLoop perm (n + 1) a page m.kmem (decode m (r * PGSIZE)) =
              Vm.mappagesLoop perm n (a + PGSIZE) (page + 1) m₁.kmem
                ((decode m₁ (r * PGSIZE)).setPte a (some ⟨page, perm⟩)) := by
            rw [Vm.mappagesLoop, htree]
            exact if_neg (by rw [hleaf]; exact Bool.false_ne_true)
          rw [hmap, htreemap]
          exact hstep
    · have hword : walk m (r * PGSIZE) a true = .error .walk := if_pos (by omega)
      have htree : walkAlloc m.kmem (decode m (r * PGSIZE)) a = .error .walk := if_pos (by omega)
      refine Or.inr ⟨.walk, ?_, ?_⟩
      · rw [mappagesLoop, hword]
        rfl
      · rw [Vm.mappagesLoop, htree]
        rfl

theorem mappages_sim (va size page : Nat) (perm : Perm) (hwf : Wf m r)
    (hpage : page + ((va + size - 1) / PGSIZE - va / PGSIZE + 1) ≤ 2 ^ 44)
    (hlt : va + size ≤ 2 ^ 64) :
    (∃ found m', mappages m (r * PGSIZE) va size (page * PGSIZE) perm = .ok (found, m') ∧ Wf m' r ∧
      Vm.mappages m.kmem (decode m (r * PGSIZE)) va size page perm =
        .ok (found, m'.kmem, decode m' (r * PGSIZE))) ∨
    ∃ e, mappages m (r * PGSIZE) va size (page * PGSIZE) perm = .error e ∧
      Vm.mappages m.kmem (decode m (r * PGSIZE)) va size page perm = .error e := by
  unfold mappages Vm.mappages
  by_cases hsize : size = 0
  · rw [if_pos hsize, if_pos hsize]
    exact Or.inr ⟨_, rfl, rfl⟩
  · rw [if_neg hsize, if_neg hsize]
    have hcount : (PGROUNDDOWN ((va + size - 1) % 2 ^ 64) + 2 ^ 64 - PGROUNDDOWN va) % 2 ^
        64 / PGSIZE = (va + size - 1) / PGSIZE - va / PGSIZE := by
      simp only [PGROUNDDOWN, PGSIZE]
      omega
    simp only [hcount]
    exact mappagesLoop_sim hwf hpage

/-! ## `uvmunmap` and `uvmclear` -/

theorem walk_lookup (hwf : Wf m r) (hva : va < MAXVA) :
    walk m (r * PGSIZE) va false = .ok (none, m) ∧
        Vm.walk (decode m (r * PGSIZE)) va = .ok none ∨
      ∃ p1 p0, At m r va p1 p0 ∧
        walk m (r * PGSIZE) va false = .ok (some (p0 * PGSIZE + 8 * PX 0 va), m) ∧
        Vm.walk (decode m (r * PGSIZE)) va =
        .ok (some ((decode m (r * PGSIZE)).leaf (va / PGSIZE))) := by
  unfold walk
  rw [if_neg (by omega)]
  rcases walkLoop_lookup va hwf with ⟨hloop, htab⟩ | ⟨p1, p0, hat, hloop⟩
  · refine Or.inl ⟨by rw [hloop], ?_⟩
    rw [Vm.walk, if_neg (by omega), htab]
    rfl
  · refine Or.inr ⟨p1, p0, hat, by rw [hloop], ?_⟩
    rw [walk_eq hva, if_pos (hat.hasTable hva)]

theorem release_word {p a : Nat} (ha : a / PGSIZE ≠ p) :
    (m.release (p * PGSIZE)).word a = m.word a := by
  have hne : a ≠ p * PGSIZE := by
    intro heq
    rw [heq, Nat.mul_div_cancel _ (by decide : 0 < PGSIZE)] at ha
    exact ha rfl
  simp only [Ram.release, Ram.store, Ram.memset, update_of_ne hne]
  exact if_neg fun h => ha (in_page.mp h)

/-- To free a page that is neither free nor in the tree leaves the tree alone. -/
theorem release_sim {p : Nat} (hwf : Wf m r) (hp : Owned m.kernelEnd p)
    (hnot : m.free.count p + (decode m (r * PGSIZE)).nodes p = 0) :
    decode (m.release (p * PGSIZE)) (r * PGSIZE) = decode m (r * PGSIZE) ∧
    Wf (m.release (p * PGSIZE)) r ∧
      (m.release (p * PGSIZE)).kmem = Vm.kfree m.kmem p := by
  have hfree : (m.release (p * PGSIZE)).free = p :: m.free :=
    congrArg (· :: m.free) (Nat.mul_div_cancel _ (by decide))
  obtain ⟨hdec, htree⟩ := frame2 (m.release (p * PGSIZE)) hwf.tree
      (fun a ha => release_word fun heq => by
    rw [heq] at ha
    omega)
  refine ⟨hdec, ⟨htree, fun q => ?_, fun q hq => ?_⟩, ?_⟩
  · have hold := hwf.distinct q
    rw [hdec, hfree, List.count_cons]
    simp only [beq_iff_eq]
    split
    · rename_i heq
      subst heq
      omega
    · omega
  · rw [hdec, hfree, List.count_cons] at hq
    by_cases hqp : p = q
    · exact hqp ▸ hp
    · rw [if_neg (by rwa [beq_iff_eq])] at hq
      exact hwf.owned q hq
  · simp only [Ram.kmem, hfree, Vm.kfree]

theorem At.kfree {p : Nat} (h : At m r va p1 p0)
    (hnot : (decode m (r * PGSIZE)).nodes p = 0)
    (hsame : ∀ a, a / PGSIZE ≠ p → m'.word a = m.word a) : At m' r va p1 p0 := by
  have hr : r ≠ p := fun heq => absurd hnot (heq ▸ nodes_pos.ne')
  have hp1 : p1 ≠ p := by
    intro heq
    have hle := count1_le_nodes (PX_lt 2 va) h.link1 h.page1 p
    have hpos := count1_pos m p1
    rw [heq] at hpos hle
    omega
  refine ⟨h.page1, h.page0, ?_, ?_⟩
  · rw [hsame _ (by rw [addr_page (PX_lt 2 va)]; exact hr)]
    exact h.link1
  · rw [hsame _ (by rw [addr_page (PX_lt 1 va)]; exact hp1)]
    exact h.link0

theorem uvmunmapPage_sim (do_free : Bool) {a : Nat} (hwf : Wf m r)
    (hown : do_free = true → ∀ pte, (decode m (r * PGSIZE)).leaf (a / PGSIZE) = some pte →
      Owned m.kernelEnd pte.page ∧ m.free.count pte.page + (decode m (r * PGSIZE)).nodes pte.page =
      0) :
    (∃ m', uvmunmapPage (r * PGSIZE) do_free a m = .ok m' ∧ Wf m' r ∧ m'.kernelEnd = m.kernelEnd ∧
      Vm.uvmunmapPage do_free a (m.kmem, decode m (r * PGSIZE)) =
      .ok (m'.kmem, decode m' (r * PGSIZE))) ∨
    ∃ e, uvmunmapPage (r * PGSIZE) do_free a m = .error e ∧
      Vm.uvmunmapPage do_free a (m.kmem, decode m (r * PGSIZE)) = .error e := by
  simp only [uvmunmapPage, Vm.uvmunmapPage]
  by_cases hva : a < MAXVA
  · rcases walk_lookup hwf hva with ⟨hwalk, htree⟩ | ⟨p1, p0, hat, hwalk, htree⟩
    · rw [hwalk, htree]
      exact Or.inr ⟨_, rfl, rfl⟩
    · rw [hwalk, htree]
      obtain ⟨hword, hpage⟩ := hat.word_eq hwf hva
      cases hleaf : (decode m (r * PGSIZE)).leaf (a / PGSIZE) with
      | none =>
        refine Or.inl ⟨m, if_pos ?_, hwf, rfl, rfl⟩
        rw [hword, hleaf]
        rfl
      | some pte =>
        have hlt := hpage pte hleaf
        have hvalid : ¬ m.word (p0 * PGSIZE + 8 * PX 0 a) &&& PTE_V = 0 := by
          rw [hword, hleaf]
          exact fun h => by cases (encode_valid _).mp h
        have hflags : PTE_FLAGS (m.word (p0 * PGSIZE + 8 * PX 0 a)) = PTE_V ↔
            pte.perm.none = true := by
          rw [hword, hleaf]
          exact encode_flags pte
        by_cases hnone : pte.perm.none = true
        · exact Or.inr ⟨_, (if_neg hvalid).trans (if_pos (hflags.mpr hnone)), if_pos hnone⟩
        · dsimp only [bind, Except.bind]
          rw [if_neg hvalid, if_neg fun h => hnone (hflags.mp h), if_neg hnone]
          cases do_free with
          | false =>
            obtain ⟨hdec, hwf'⟩ := hat.store hwf (e := none) (fun _ h => by cases h)
            refine Or.inl ⟨_, rfl, hwf', rfl, ?_⟩
            rw [← hdec]
            rfl
          | true =>
            obtain ⟨howned, hzero⟩ := hown rfl pte hleaf
            obtain ⟨hdec, hwf₁, hkmem⟩ := release_sim hwf howned hzero
            obtain ⟨hdec', hwf'⟩ := (hat.kfree (by omega) fun _ => release_word).store
              hwf₁ (e := none) (fun _ h => by cases h)
            rw [hdec] at hdec'
            rw [hword, hleaf, PTE2PA_encode hlt, if_pos rfl, kfree_ok howned]
            refine Or.inl ⟨(m.release (pte.page * PGSIZE)).store (p0 * PGSIZE + 8 * PX 0 a)
              (encode none), rfl, hwf', rfl, ?_⟩
            rw [hdec', Ram.store_kmem, hkmem]
            rfl
  · have hword : walk m (r * PGSIZE) a false = .error .walk := if_pos (by omega)
    have htree : Vm.walk (decode m (r * PGSIZE)) a = .error .walk := if_pos (by omega)
    rw [hword, htree]
    exact Or.inr ⟨_, rfl, rfl⟩

/-- The pages that entries `v` to `v + n - 1` refer to are the allocator's, neither free nor
page-table pages, and no page is referred to twice. -/
structure Freeable (m : Ram) (r v n : Nat) : Prop where
  owned : ∀ k pte, k < n → (decode m (r * PGSIZE)).leaf (v + k) = some pte →
    Owned m.kernelEnd pte.page
  once : ∀ q, m.free.count q + (decode m (r * PGSIZE)).nodes q +
    ∑ k ∈ Finset.range n, refers q ((decode m (r * PGSIZE)).leaf (v + k)) ≤ 1

theorem Freeable.page {v n : Nat} (h : Freeable m r v (n + 1)) {pte : Pte}
    (hleaf : (decode m (r * PGSIZE)).leaf v = some pte) :
    Owned m.kernelEnd pte.page ∧ m.free.count pte.page + (decode m (r * PGSIZE)).nodes pte.page =
    0 := by
  refine ⟨h.owned 0 pte (Nat.succ_pos n) hleaf, ?_⟩
  have hle := h.once pte.page
  rw [Finset.sum_range_succ', Nat.add_zero, hleaf] at hle
  have hself : refers pte.page (some pte) = 1 := if_pos rfl
  omega

theorem Freeable.next {v n : Nat} (h : Freeable m r v (n + 1))
    (hun : Unmapped true v 1 m.kmem (decode m (r * PGSIZE)) m'.kmem (decode m' (r * PGSIZE)))
    (hend : m'.kernelEnd = m.kernelEnd) : Freeable m' r (v + 1) n := by
  have hone : VMap.unmap (decode m (r * PGSIZE)).leaf v 1 =
      update (decode m (r * PGSIZE)).leaf v none := by
    rw [VMap.unmap_succ, VMap.unmap_zero, Nat.add_zero]
  have hleaf : ∀ k, (decode m' (r * PGSIZE)).leaf (v + 1 + k) = (decode m (r * PGSIZE)).leaf
      (v + (k + 1)) := by
    intro k
    rw [hun.leaf, hone, update_of_ne (by omega), show v + 1 + k = v + (k + 1) by omega]
  refine ⟨fun k pte hk hpte => ?_, fun q => ?_⟩
  · rw [hleaf k] at hpte
    rw [hend]
    exact h.owned (k + 1) pte (by omega) hpte
  have hle := h.once q
  have hfreed := hun.freed rfl (v + 1) q le_rfl
  have htrade := leaves_update (q := q) (decode m (r * PGSIZE)).leaf (show v < v + 1 by omega) none
  have hrest : ∀ k, refers q ((decode m' (r * PGSIZE)).leaf (v + 1 + k)) =
      refers q ((decode m (r * PGSIZE)).leaf (v + (k + 1))) :=
        fun k => congrArg (refers q) (hleaf k)
  rw [Finset.sum_range_succ', Nat.add_zero] at hle
  rw [hun.leaf, hone] at hfreed
  rw [hun.nodes q, Finset.sum_congr rfl fun k _ => hrest k]
  have hzero : refers q none = 0 := rfl
  simp only [Ram.kmem] at hfreed
  omega

theorem uvmunmap_sim {do_free : Bool} {v n : Nat} (hwf : Wf m r)
    (hown : do_free = true → Freeable m r v n) (hlt : (v + n) * PGSIZE < 2 ^ 64) :
    (∃ m', uvmunmap m (r * PGSIZE) (v * PGSIZE) n do_free = .ok m' ∧ Wf m' r ∧
      Vm.uvmunmap m.kmem (decode m (r * PGSIZE)) (v * PGSIZE) n do_free =
        .ok (m'.kmem, decode m' (r * PGSIZE))) ∨
    ∃ e, uvmunmap m (r * PGSIZE) (v * PGSIZE) n do_free = .error e ∧
      Vm.uvmunmap m.kmem (decode m (r * PGSIZE)) (v * PGSIZE) n do_free = .error e := by
  unfold uvmunmap Vm.uvmunmap
  have haligned : ¬ v * PGSIZE % PGSIZE ≠ 0 := by rw [Nat.mul_mod_left]; exact not_not.mpr rfl
  have hcount : ((v * PGSIZE + n * PGSIZE) % 2 ^ 64 - v * PGSIZE) / PGSIZE = n := by
    simp only [PGSIZE] at *
    omega
  rw [if_neg haligned, if_neg haligned, hcount]
  have hsim := forRange_sim (n := n) (s := m) (t := (m.kmem, decode m (r * PGSIZE)))
    (f := fun k => uvmunmapPage (r * PGSIZE) do_free (v * PGSIZE + k * PGSIZE))
    (g := fun k => Vm.uvmunmapPage do_free (v * PGSIZE + k * PGSIZE))
    (R := fun k m' (t : Kmem × PageTable) => Wf m' r ∧ t = (m'.kmem, decode m' (r * PGSIZE)) ∧
      (do_free = true → Freeable m' r (v + k) (n - k)))
    ⟨hwf, rfl, hown⟩ ?_
  · rcases hsim with ⟨m', t', hm', ht', hwf', rfl, -⟩ | herr
    · exact Or.inl ⟨m', hm', hwf', ht'⟩
    · exact Or.inr herr
  · rintro k m' t hk ⟨hwf', rfl, hown'⟩
    rw [← Nat.add_mul]
    have hsucc : n - k = n - (k + 1) + 1 := by omega
    rcases uvmunmapPage_sim (a := (v + k) * PGSIZE) do_free hwf' (by
      intro hf pte hleaf
      rw [Nat.mul_div_cancel _ (by decide : 0 < PGSIZE)] at hleaf
      have hfree := hown' hf
      rw [hsucc] at hfree
      exact hfree.page hleaf) with ⟨m'', hm'', hwf'', hend, ht''⟩ | herr
    · refine Or.inl ⟨m'', _, hm'', ht'', hwf'', rfl, fun hf => ?_⟩
      have hfree := hown' hf
      rw [hsucc] at hfree
      have hun := uvmunmapPage_post.of_ok ht''
      rw [hf] at hun
      exact hfree.next hun hend
    · exact Or.inr herr

theorem uvmclear_sim (hwf : Wf m r) (hva : va < MAXVA) :
    (∃ m', uvmclear m (r * PGSIZE) va = .ok m' ∧ Wf m' r ∧ m'.free = m.free ∧
      Vm.uvmclear (decode m (r * PGSIZE)) va = .ok (decode m' (r * PGSIZE))) ∨
    ∃ e, uvmclear m (r * PGSIZE) va = .error e ∧ Vm.uvmclear (decode m (r * PGSIZE)) va =
    .error e := by
  unfold uvmclear Vm.uvmclear
  rcases walk_lookup hwf hva with ⟨hwalk, htree⟩ | ⟨p1, p0, hat, hwalk, htree⟩
  · rw [hwalk, htree]
    exact Or.inr ⟨_, rfl, rfl⟩
  · rw [hwalk, htree]
    obtain ⟨hword, hpage⟩ := hat.word_eq hwf hva
    have hcleared := encode_and_not_user hpage
    obtain ⟨hdec, hwf'⟩ := hat.store hwf
      (e := ((decode m (r * PGSIZE)).leaf (va / PGSIZE)).map fun pte =>
        { pte with perm := { pte.perm with u := false } })
      (by
        intro pte hpte
        obtain ⟨old, hold, rfl⟩ := Option.map_eq_some_iff.mp hpte
        exact hpage old hold)
    rw [← hcleared, ← hword] at hdec hwf'
    refine Or.inl ⟨_, rfl, hwf', rfl, ?_⟩
    rw [hdec]
    cases hleaf : (decode m (r * PGSIZE)).leaf (va / PGSIZE) with
    | none =>
      have hsame := setPte_self (decode m (r * PGSIZE)) hva
      rw [hleaf] at hsame
      exact congrArg Except.ok hsame.symm
    | some pte => rfl

end

end Xv6.Vm.Words
