import Xv6.Vm.Words

/-! # The words of a page table refine its tree

`decode` reads the tree that physical memory holds below a root page. In a memory
whose page-table pages are distinct and whose words are links or leaf entries, each
function on words does what its counterpart on trees does.
-/

namespace Xv6.Vm.Words

open Function Lib

/-! ## Reading the tree -/

section Decode

variable {α : Type}

/-- The table that a word links to. -/
def decodeLink (child : Nat → α) (w : Nat) : Option α :=
  if w &&& PTE_V = 0 then none else some (child (PTE2PA w))

/-- The page at address `t`, entry by entry. -/
def decodeNode (entry : Nat → Option α) (m : Ram) (t : Nat) : Node α :=
  ⟨t / PGSIZE, fun i => if i < 512 then entry (m.word (t + 8 * i)) else none⟩

def decode0 (m : Ram) : Nat → Node Pte := decodeNode decodePte m

def decode1 (m : Ram) : Nat → Node (Node Pte) := decodeNode (decodeLink (decode0 m)) m

def decode (m : Ram) : Nat → PageTable := decodeNode (decodeLink (decode1 m)) m

variable {entry entry' : Nat → Option α} {m m' : Ram} {t i : Nat}

theorem decodeNode_entry (hi : i < 512) :
    (decodeNode entry m t).entry i = entry (m.word (t + 8 * i)) :=
  if_pos hi

variable (entry entry' m m') in
theorem decodeNode_update (hi : i < 512)
    (hsame : ∀ j, j < 512 → j ≠ i → entry' (m'.word (t + 8 * j)) = entry (m.word (t + 8 * j))) :
    decodeNode entry' m' t = (decodeNode entry m t).set i (entry' (m'.word (t + 8 * i))) := by
  unfold decodeNode Node.set
  congr 1
  funext j
  by_cases hj : j = i
  · subst hj
    rw [update_self, if_pos hi]
  · rw [update_of_ne hj]
    dsimp only
    by_cases hlt : j < 512
    · rw [if_pos hlt, if_pos hlt, hsame j hlt hj]
    · rw [if_neg hlt, if_neg hlt]

theorem decodeNode_congr
    (hsame : ∀ j, j < 512 → entry' (m'.word (t + 8 * j)) = entry (m.word (t + 8 * j))) :
    decodeNode entry' m' t = decodeNode entry m t := by
  unfold decodeNode
  congr 1
  funext j
  by_cases hlt : j < 512
  · rw [if_pos hlt, if_pos hlt, hsame j hlt]
  · rw [if_neg hlt, if_neg hlt]

end Decode

/-! ## Well-formed tables -/

def link (p : Nat) : Nat := PA2PTE (p * PGSIZE) ||| PTE_V

theorem link_valid (p : Nat) : link p &&& PTE_V ≠ 0 := by
  rw [link, pack_eq (by decide), and_pack (by decide) (by decide)]
  decide

theorem PTE2PA_link {p : Nat} (hp : p < 2 ^ 44) : PTE2PA (link p) = p * PGSIZE := by
  rw [link, pack_eq (by decide), PTE2PA_pack hp (by decide)]

theorem link_inj {p c : Nat} (hp : p < 2 ^ 44) (hc : c < 2 ^ 44) (h : link p = link c) : p = c := by
  have heq := congrArg PTE2PA h
  rw [PTE2PA_link hp, PTE2PA_link hc] at heq
  simp only [PGSIZE] at heq
  omega

theorem link_no_perm (p : Nat) : link p &&& (PTE_R ||| PTE_W ||| PTE_X) = 0 := by
  rw [link, pack_eq (by decide), and_pack (by decide) (by decide)]
  decide

theorem decodeLink_link {α : Type} {child : Nat → α} {p : Nat} (hp : p < 2 ^ 44) :
    decodeLink child (link p) = some (child (p * PGSIZE)) := by
  rw [decodeLink, if_neg (link_valid p), PTE2PA_link hp]

/-- A word that is zero or links to a page that satisfies `P`. -/
def Linked (P : Nat → Prop) (w : Nat) : Prop :=
  w = 0 ∨ ∃ p, p < 2 ^ 44 ∧ w = link p ∧ P (p * PGSIZE)

/-- A word that is a leaf entry. -/
def IsLeaf (w : Nat) : Prop :=
  ∃ e : Option Pte, (∀ pte, e = some pte → pte.page < 2 ^ 44) ∧ w = encode e

/-- Every entry of the page at `t` satisfies `P`. -/
def Table (P : Nat → Prop) (m : Ram) (t : Nat) : Prop := ∀ i, i < 512 → P (m.word (t + 8 * i))

def Wf0 (m : Ram) : Nat → Prop := Table IsLeaf m

def Wf1 (m : Ram) : Nat → Prop := Table (Linked (Wf0 m)) m

def Wf2 (m : Ram) : Nat → Prop := Table (Linked (Wf1 m)) m

theorem addr_page {p i : Nat} (hi : i < 512) : (p * PGSIZE + 8 * i) / PGSIZE = p := by
  simp only [PGSIZE]
  omega

theorem addr_inj {p p' i i' : Nat} (hi : i < 512) (hi' : i' < 512)
    (h : p * PGSIZE + 8 * i = p' * PGSIZE + 8 * i') : p = p' ∧ i = i' := by
  simp only [PGSIZE] at h
  omega

section Frame

variable {α : Type} {child child' : Nat → α} {cnt : Nat → α → Nat} {P P' : Nat → Prop} {m m' : Ram}
  {p i : Nat}

variable (cnt) in
theorem page_le_count {entry : Nat → Option α} :
    0 < (decodeNode entry m (p * PGSIZE)).count (cnt p) p := by
  have hpage : (decodeNode entry m (p * PGSIZE)).page = p := Nat.mul_div_cancel _ (by decide)
  unfold Node.count
  rw [if_pos hpage]
  omega

variable (cnt) in
/-- A table and everything below it is read off the words of its own pages. -/
theorem table_frame (hwf : Table (Linked P) m (p * PGSIZE))
    (hsame : ∀ a, 0 < (decodeNode (decodeLink child) m (p * PGSIZE)).count (cnt (a / PGSIZE))
      (a / PGSIZE) →
      m'.word a = m.word a)
    (hchild : ∀ c, P (c * PGSIZE) →
      (∀ a, 0 < cnt (a / PGSIZE) (child (c * PGSIZE)) → m'.word a = m.word a) →
      child' (c * PGSIZE) = child (c * PGSIZE) ∧ P' (c * PGSIZE)) :
    decodeNode (decodeLink child') m' (p * PGSIZE) = decodeNode (decodeLink child) m (p * PGSIZE) ∧
      Table (Linked P') m' (p * PGSIZE) := by
  have hword : ∀ j, j < 512 → m'.word (p * PGSIZE + 8 * j) = m.word (p * PGSIZE + 8 * j) := by
    intro j hj
    apply hsame
    rw [addr_page hj]
    exact page_le_count cnt
  have hbelow : ∀ j c, j < 512 → m.word (p * PGSIZE + 8 * j) = link c → c < 2 ^ 44 →
      P (c * PGSIZE) → child' (c * PGSIZE) = child (c * PGSIZE) ∧ P' (c * PGSIZE) := by
    intro j c hj hlink hc hP
    apply hchild c hP
    intro a ha
    apply hsame
    have hentry : (decodeNode (decodeLink child) m (p * PGSIZE)).entry j =
        some (child (c * PGSIZE)) := by
      rw [decodeNode_entry hj, hlink, decodeLink_link hc]
    have hle := Node.page_add_le_count (q := a / PGSIZE) (cnt (a / PGSIZE)) hj hentry
    omega
  constructor
  · apply decodeNode_congr
    intro j hj
    rw [hword j hj]
    rcases hwf j hj with h0 | ⟨c, hc, hlink, hP⟩
    · rw [h0]
      rfl
    · rw [hlink, decodeLink_link hc, decodeLink_link hc, (hbelow j c hj hlink hc hP).1]
  · intro j hj
    rw [hword j hj]
    rcases hwf j hj with h0 | ⟨c, hc, hlink, hP⟩
    · exact Or.inl h0
    · exact Or.inr ⟨c, hc, hlink, (hbelow j c hj hlink hc hP).2⟩

theorem frame0 (hwf : Wf0 m (p * PGSIZE))
    (hsame : ∀ a, 0 < count0 (a / PGSIZE) (decode0 m (p * PGSIZE)) → m'.word a = m.word a) :
    decode0 m' (p * PGSIZE) = decode0 m (p * PGSIZE) ∧ Wf0 m' (p * PGSIZE) := by
  have hword : ∀ j, j < 512 → m'.word (p * PGSIZE + 8 * j) = m.word (p * PGSIZE + 8 * j) := by
    intro j hj
    apply hsame
    rw [addr_page hj]
    exact page_le_count (fun _ _ => 0)
  constructor
  · apply decodeNode_congr
    intro j hj
    rw [hword j hj]
  · intro j hj
    rw [hword j hj]
    exact hwf j hj

theorem frame1 (hwf : Wf1 m (p * PGSIZE))
    (hsame : ∀ a, 0 < count1 (a / PGSIZE) (decode1 m (p * PGSIZE)) → m'.word a = m.word a) :
    decode1 m' (p * PGSIZE) = decode1 m (p * PGSIZE) ∧ Wf1 m' (p * PGSIZE) :=
  table_frame count0 hwf hsame fun _ hc => frame0 hc

variable (m') in
theorem frame2 (hwf : Wf2 m (p * PGSIZE))
    (hsame : ∀ a, 0 < (decode m (p * PGSIZE)).nodes (a / PGSIZE) → m'.word a = m.word a) :
    decode m' (p * PGSIZE) = decode m (p * PGSIZE) ∧ Wf2 m' (p * PGSIZE) :=
  table_frame count1 hwf hsame fun _ hc => frame1 hc

variable (child child' cnt P P' m') in
/-- A change at or below entry `i` of a table whose pages are distinct: the other
entries and what they link to stay. -/
theorem table_replace {c : Nat} (hi : i < 512) (hwf : Table (Linked P) m (p * PGSIZE))
    (hdist : ∀ q, (decodeNode (decodeLink child) m (p * PGSIZE)).count (cnt q) q ≤ 1)
    (hout : ∀ a, a ≠ p * PGSIZE + 8 * i →
      0 < (decodeNode (decodeLink child) m (p * PGSIZE)).count (cnt (a / PGSIZE)) (a / PGSIZE) →
      ((decodeNode (decodeLink child) m (p * PGSIZE)).entry i).elim 0 (cnt (a / PGSIZE)) = 0 →
      m'.word a = m.word a)
    (hframe : ∀ d, P (d * PGSIZE) →
      (∀ a, 0 < cnt (a / PGSIZE) (child (d * PGSIZE)) → m'.word a = m.word a) →
      child' (d * PGSIZE) = child (d * PGSIZE) ∧ P' (d * PGSIZE))
    (hword : m'.word (p * PGSIZE + 8 * i) = link c) (hc : c < 2 ^ 44) (hnew : P' (c * PGSIZE)) :
    decodeNode (decodeLink child') m' (p * PGSIZE) =
        (decodeNode (decodeLink child) m (p * PGSIZE)).set i (some (child' (c * PGSIZE))) ∧
      Table (Linked P') m' (p * PGSIZE) := by
  have hpage : (decodeNode (decodeLink child) m (p * PGSIZE)).page = p :=
    Nat.mul_div_cancel _ (by decide)
  have hself : ∀ j, j < 512 → j ≠ i → m'.word (p * PGSIZE + 8 * j) =
      m.word (p * PGSIZE + 8 * j) := by
    intro j hj hne
    apply hout
    · intro heq
      exact hne (addr_inj hj hi heq).2
    · rw [addr_page hj]
      exact page_le_count cnt
    · rw [addr_page hj]
      cases hentry : (decodeNode (decodeLink child) m (p * PGSIZE)).entry i with
      | none => rfl
      | some d =>
        have hle := Node.page_add_le_count (q := p) (cnt p) hi hentry
        rw [if_pos hpage] at hle
        have := hdist p
        simp only [Option.elim_some]
        omega
  have hothers : ∀ j d, j < 512 → j ≠ i → d < 2 ^ 44 → m.word (p * PGSIZE + 8 * j) = link d →
      P (d * PGSIZE) → child' (d * PGSIZE) = child (d * PGSIZE) ∧ P' (d * PGSIZE) := by
    intro j d hj hne hd hlink hP
    have hentry : (decodeNode (decodeLink child) m (p * PGSIZE)).entry j =
        some (child (d * PGSIZE)) := by
      rw [decodeNode_entry hj, hlink, decodeLink_link hd]
    apply hframe d hP
    intro a ha
    have hle := Node.page_add_le_count (q := a / PGSIZE) (cnt (a / PGSIZE)) hj hentry
    have hone := hdist (a / PGSIZE)
    apply hout
    · intro heq
      rw [heq, addr_page hi, if_pos hpage] at hle
      rw [heq, addr_page hi] at ha hone
      omega
    · omega
    · cases hentry' : (decodeNode (decodeLink child) m (p * PGSIZE)).entry i with
      | none => rfl
      | some d' =>
        have hpair := Node.pair_le_count (q := a / PGSIZE) (cnt (a / PGSIZE)) hi hj
          (Ne.symm hne) hentry' hentry
        simp only [Option.elim_some]
        omega
  constructor
  · have hlink : decodeLink child' (m'.word (p * PGSIZE + 8 * i)) = some (child' (c * PGSIZE)) := by
      rw [hword, decodeLink_link hc]
    rw [← hlink]
    apply decodeNode_update _ _ _ _ hi
    intro j hj hne
    rw [hself j hj hne]
    rcases hwf j hj with h0 | ⟨d, hd, hlink, hP⟩
    · rw [h0]
      rfl
    · rw [hlink, decodeLink_link hd, decodeLink_link hd, (hothers j d hj hne hd hlink hP).1]
  · intro j hj
    by_cases hne : j = i
    · subst hne
      exact Or.inr ⟨c, hc, hword, hnew⟩
    · rw [hself j hj hne]
      rcases hwf j hj with h0 | ⟨d, hd, hlink, hP⟩
      · exact Or.inl h0
      · exact Or.inr ⟨d, hd, hlink, (hothers j d hj hne hd hlink hP).2⟩

end Frame

/-! ## Memory that holds a page table -/

/-- The page table with root page `r` in memory `m`: its words are links and leaves, no page is in
it twice, or in it and free, and these pages are the allocator's. -/
structure Wf (m : Ram) (r : Nat) : Prop where
  tree : Wf2 m (r * PGSIZE)
  distinct : ∀ q, m.free.count q + (decode m (r * PGSIZE)).nodes q ≤ 1
  owned : ∀ q, 0 < m.free.count q + (decode m (r * PGSIZE)).nodes q → Owned m.kernelEnd q

section

variable {m m' : Ram} {r p1 p0 i j k c va a : Nat} {rest : List Nat}

theorem nodes_pos : 0 < (decode m (r * PGSIZE)).nodes r := page_le_count count1

variable (m p1) in
theorem count1_pos : 0 < count1 p1 (decode1 m (p1 * PGSIZE)) := page_le_count count0

variable (m p0) in
theorem count0_pos : 0 < count0 p0 (decode0 m (p0 * PGSIZE)) :=
  page_le_count (fun _ _ => 0)

theorem decode_entry (hi : i < 512) (hlink : m.word (r * PGSIZE + 8 * i) = link p1)
    (hp1 : p1 < 2 ^ 44) : (decode m (r * PGSIZE)).entry i = some (decode1 m (p1 * PGSIZE)) := by
  rw [decode, decodeNode_entry hi, hlink, decodeLink_link hp1]

theorem decode1_entry (hj : j < 512) (hlink : m.word (p1 * PGSIZE + 8 * j) = link p0)
    (hp0 : p0 < 2 ^ 44) : (decode1 m (p1 * PGSIZE)).entry j = some (decode0 m (p0 * PGSIZE)) := by
  rw [decode1, decodeNode_entry hj, hlink, decodeLink_link hp0]

theorem Wf.nodes_le (h : Wf m r) (q : Nat) : (decode m (r * PGSIZE)).nodes q ≤ 1 := by
  have := h.distinct q
  omega

theorem Wf.root_count (h : Wf m r) (hi : i < 512) (hlink : m.word (r * PGSIZE + 8 * i) = link p1)
    (hp1 : p1 < 2 ^ 44) (q : Nat) :
    (if r = q then 1 else 0) + count1 q (decode1 m (p1 * PGSIZE)) ≤ 1 := by
  have hle := Node.page_add_le_count (q := q) (count1 q) hi (decode_entry hi hlink hp1)
  have hpage : (decode m (r * PGSIZE)).page = r := Nat.mul_div_cancel _ (by decide)
  rw [hpage] at hle
  exact hle.trans (h.nodes_le q)

theorem Wf.wf1 (h : Wf m r) (hi : i < 512) (hlink : m.word (r * PGSIZE + 8 * i) = link p1)
    (hp1 : p1 < 2 ^ 44) : Wf1 m (p1 * PGSIZE) := by
  rcases h.tree i hi with h0 | ⟨c, hc, hw, hwf⟩
  · rw [hlink] at h0
    exact absurd (by rw [h0]; rfl) (link_valid p1)
  · rw [link_inj hp1 hc (hlink.symm.trans hw)]
    exact hwf

variable (m') in
/-- A change inside the level-1 table at entry `i`, seen from the root. -/
theorem Wf.lift1 (h : Wf m r) (hi : i < 512) (hlink : m.word (r * PGSIZE + 8 * i) = link p1)
    (hp1 : p1 < 2 ^ 44) (hnew : Wf1 m' (p1 * PGSIZE))
    (hout : ∀ a, 0 < (decode m (r * PGSIZE)).nodes (a / PGSIZE) →
      count1 (a / PGSIZE) (decode1 m (p1 * PGSIZE)) = 0 → m'.word a = m.word a) :
    decode m' (r * PGSIZE) = (decode m (r * PGSIZE)).set i (some (decode1 m' (p1 * PGSIZE))) ∧
      Wf2 m' (r * PGSIZE) ∧ m'.word (r * PGSIZE + 8 * i) = link p1 := by
  have hroot : m'.word (r * PGSIZE + 8 * i) = link p1 := by
    rw [← hlink]
    apply hout
    · rw [addr_page hi]
      exact nodes_pos
    · have := h.root_count hi hlink hp1 r
      rw [if_pos rfl] at this
      rw [addr_page hi]
      omega
  have hreplace := table_replace (decode1 m) (decode1 m') count1 (Wf1 m)
    (Wf1 m') m' hi h.tree h.nodes_le ?_ (fun d hd hsame => frame1 hd hsame) hroot hp1 hnew
  · exact ⟨hreplace.1, hreplace.2, hroot⟩
  · intro a _ hin hzero
    apply hout a hin
    have hentry := decode_entry hi hlink hp1
    rw [decode] at hentry
    rw [hentry] at hzero
    exact hzero

/-! ### New tables -/

/-- The memory after `walk` has linked a fresh page `c` at the entry with address `a`. -/
def attach (m : Ram) (rest : List Nat) (c a : Nat) : Ram :=
  (((Ram.memset { m with free := rest } (c * PGSIZE) 5).memset (c * PGSIZE) 0)).store a (link c)

theorem in_page {x c : Nat} : c * PGSIZE ≤ x ∧ x < c * PGSIZE + PGSIZE ↔ x / PGSIZE = c := by
  simp only [PGSIZE]
  omega

theorem attach_self : (attach m rest c a).word a = link c := update_self _ _ _

theorem attach_fresh {x : Nat} (hx : x ≠ a) (hc : x / PGSIZE = c) :
    (attach m rest c a).word x = 0 := by
  simp only [attach, Ram.store, update_of_ne hx, Ram.memset]
  rw [if_pos (in_page.mpr hc), Nat.zero_mul]

theorem attach_other {x : Nat} (hx : x ≠ a) (hc : x / PGSIZE ≠ c) :
    (attach m rest c a).word x = m.word x := by
  simp only [attach, Ram.store, update_of_ne hx, Ram.memset]
  rw [if_neg fun h => hc (in_page.mp h), if_neg fun h => hc (in_page.mp h)]

theorem decodeNode_zero {α : Type} {entry : Nat → Option α} (h0 : entry 0 = none)
    (hzero : ∀ i, i < 512 → m.word (c * PGSIZE + 8 * i) = 0) :
    decodeNode entry m (c * PGSIZE) = Node.empty c := by
  unfold decodeNode Node.empty
  rw [Nat.mul_div_cancel _ (by decide : 0 < PGSIZE)]
  congr 1
  funext i
  by_cases hi : i < 512
  · rw [if_pos hi, hzero i hi, h0]
  · rw [if_neg hi]

theorem table_zero {P : Nat → Prop} (h0 : P 0)
    (hzero : ∀ i, i < 512 → m.word (c * PGSIZE + 8 * i) = 0) : Table P m (c * PGSIZE) := by
  intro i hi
  rw [hzero i hi]
  exact h0

theorem isLeaf_zero : IsLeaf 0 := ⟨none, fun _ h => (by cases h), rfl⟩

variable (rest) in
/-- A page that is in no table below `p` becomes the child at entry `i`. -/
theorem table_attach {α : Type} (child child' : Nat → α) (cnt : Nat → α → Nat) (P P' : Nat → Prop)
    {p : Nat} (hi : i < 512) (hwf : Table (Linked P) m (p * PGSIZE))
    (hdist : ∀ q, (decodeNode (decodeLink child) m (p * PGSIZE)).count (cnt q) q ≤ 1)
    (hnot : (decodeNode (decodeLink child) m (p * PGSIZE)).count (cnt c) c = 0) (hc : c < 2 ^ 44)
    (hframe : ∀ d, P (d * PGSIZE) → (∀ a, 0 < cnt (a / PGSIZE) (child (d * PGSIZE)) →
      (attach m rest c (p * PGSIZE + 8 * i)).word a = m.word a) →
      child' (d * PGSIZE) = child (d * PGSIZE) ∧ P' (d * PGSIZE))
    (hnew : P' (c * PGSIZE)) :
    decodeNode (decodeLink child') (attach m rest c (p * PGSIZE + 8 * i)) (p * PGSIZE) =
        (decodeNode (decodeLink child) m (p * PGSIZE)).set i (some (child' (c * PGSIZE))) ∧
      Table (Linked P') (attach m rest c (p * PGSIZE + 8 * i)) (p * PGSIZE) := by
  refine table_replace _ _ cnt _ _ _ hi hwf hdist ?_ hframe attach_self hc hnew
  intro a ha hin _
  apply attach_other ha
  intro heq
  rw [heq, hnot] at hin
  exact absurd hin (lt_irrefl 0)

theorem attach_page {p : Nat} (hi : i < 512) (hne : p ≠ c) (hk : k < 512) :
    (attach m rest c (p * PGSIZE + 8 * i)).word (c * PGSIZE + 8 * k) = 0 := by
  apply attach_fresh
  · intro heq
    exact hne (addr_inj hk hi heq).1.symm
  · exact addr_page hk

theorem Wf.fresh (h : Wf m r) (hfree : m.free = c :: rest) :
    c < 2 ^ 44 ∧ (decode m (r * PGSIZE)).nodes c = 0 := by
  have hle := h.distinct c
  have howned := h.owned c
  rw [hfree, List.count_cons_self] at hle howned
  exact ⟨(howned (by omega)).lt, by omega⟩

/-- The free page and the tree after `walk` has moved one page into the tree. -/
theorem Wf.of_attach (h : Wf m r) (hfree : m.free = c :: rest) (hrest : m'.free = rest)
    (hend : m'.kernelEnd = m.kernelEnd)
    (hwf : Wf2 m' (r * PGSIZE))
    (hnodes : ∀ q, (decode m' (r * PGSIZE)).nodes q =
      (decode m (r * PGSIZE)).nodes q + if c = q then 1 else 0) : Wf m' r := by
  have hsame : ∀ q, m'.free.count q + (decode m' (r * PGSIZE)).nodes q =
      m.free.count q + (decode m (r * PGSIZE)).nodes q := by
    intro q
    rw [hrest, hnodes q, hfree, List.count_cons]
    simp only [beq_iff_eq]
    omega
  refine ⟨hwf, fun q => ?_, fun q hq => ?_⟩
  · rw [hsame q]
    exact h.distinct q
  · rw [hsame q] at hq
    rw [hend]
    exact h.owned q hq

theorem Wf.attach2 (h : Wf m r) (hi : i < 512) (hzero : m.word (r * PGSIZE + 8 * i) = 0)
    (hfree : m.free = c :: rest) :
    let m' := attach m rest c (r * PGSIZE + 8 * i)
    Wf m' r ∧ decode1 m' (c * PGSIZE) = Node.empty c ∧
      decode m' (r * PGSIZE) = (decode m (r * PGSIZE)).set i (some (Node.empty c)) := by
  intro m'
  obtain ⟨hc, hnot⟩ := h.fresh hfree
  have hne : r ≠ c := fun heq => absurd hnot (heq ▸ nodes_pos.ne')
  have hpage : ∀ k, k < 512 → m'.word (c * PGSIZE + 8 * k) = 0 := fun k hk => attach_page hi hne hk
  have hempty : decode1 m' (c * PGSIZE) = Node.empty c := decodeNode_zero rfl hpage
  have hentry : (decode m (r * PGSIZE)).entry i = none := by
    rw [decode, decodeNode_entry hi, hzero]
    rfl
  obtain ⟨hdec, hwf⟩ := table_attach rest (decode1 m) (decode1 m') count1 (Wf1 m) (Wf1 m') hi h.tree
    h.nodes_le hnot hc (fun d hd hsame => frame1 hd hsame) (table_zero (Or.inl rfl) hpage)
  rw [hempty] at hdec
  refine ⟨h.of_attach hfree rfl rfl hwf fun q => ?_, hempty, hdec⟩
  have hset := Node.count_set (n := decode m (r * PGSIZE)) (q := q) (count1 q) hi
    (some (Node.empty c))
  have hcount : count1 q (Node.empty c) = if c = q then 1 else 0 := Node.count_empty _ _ _
  rw [hentry, Option.elim_none, Option.elim_some, hcount, Nat.add_zero] at hset
  have hdec' : decode m' (r * PGSIZE) = (decode m (r * PGSIZE)).set i (some (Node.empty c)) := hdec
  unfold PageTable.nodes
  rw [hdec']
  exact hset

theorem count1_le_nodes (hi : i < 512) (hlink : m.word (r * PGSIZE + 8 * i) = link p1)
    (hp1 : p1 < 2 ^ 44) (q : Nat) :
    count1 q (decode1 m (p1 * PGSIZE)) ≤ (decode m (r * PGSIZE)).nodes q := by
  have hle := Node.page_add_le_count (q := q) (count1 q) hi (decode_entry hi hlink hp1)
  exact le_trans (Nat.le_add_left _ _) hle

theorem Wf.attach1 (h : Wf m r) (hi : i < 512) (hlink : m.word (r * PGSIZE + 8 * i) = link p1)
    (hp1 : p1 < 2 ^ 44) (hj : j < 512) (hzero : m.word (p1 * PGSIZE + 8 * j) = 0)
    (hfree : m.free = c :: rest) :
    let m' := attach m rest c (p1 * PGSIZE + 8 * j)
    Wf m' r ∧ m'.word (r * PGSIZE + 8 * i) = link p1 ∧
      decode m' (r * PGSIZE) = (decode m (r * PGSIZE)).set i
        (some ((decode1 m (p1 * PGSIZE)).set j (some (Node.empty c)))) := by
  intro m'
  obtain ⟨hc, hnot⟩ := h.fresh hfree
  have hle := count1_le_nodes hi hlink hp1
  have hnot1 : count1 c (decode1 m (p1 * PGSIZE)) = 0 := by
    have := hle c
    omega
  have hne : p1 ≠ c := fun heq => absurd hnot1 (heq ▸ (count1_pos _ _).ne')
  have hpage : ∀ k, k < 512 → m'.word (c * PGSIZE + 8 * k) = 0 := fun k hk => attach_page hj hne hk
  have hempty : decode0 m' (c * PGSIZE) = Node.empty c := decodeNode_zero rfl hpage
  have hentry : (decode1 m (p1 * PGSIZE)).entry j = none := by
    rw [decode1, decodeNode_entry hj, hzero]
    rfl
  obtain ⟨hdec1, hwf1⟩ := table_attach rest (decode0 m) (decode0 m') count0 (Wf0 m) (Wf0 m') hj
    (h.wf1 hi hlink hp1) (fun q => (hle q).trans (h.nodes_le q)) hnot1 hc
    (fun d hd hsame => frame0 hd hsame) (table_zero isLeaf_zero hpage)
  rw [hempty] at hdec1
  have hn1 : decode1 m' (p1 * PGSIZE) = (decode1 m (p1 * PGSIZE)).set j (some (Node.empty c)) :=
    hdec1
  -- outside the level-1 table only the fresh page changes
  obtain ⟨hdec, hwf, hword⟩ := h.lift1 m' hi hlink hp1 hwf1 (by
    intro a hin hzero
    apply attach_other
    · intro heq
      rw [heq, addr_page hj] at hzero
      exact absurd hzero (count1_pos _ _).ne'
    · intro heq
      rw [heq, hnot] at hin
      exact absurd hin (lt_irrefl 0))
  rw [hn1] at hdec
  refine ⟨h.of_attach hfree rfl rfl hwf fun q => ?_, hword, hdec⟩
  have hset0 := Node.count_set (n := decode1 m (p1 * PGSIZE)) (q := q) (count0 q) hj
    (some (Node.empty c))
  have hset := Node.count_set (n := decode m (r * PGSIZE)) (q := q) (count1 q) hi
    (some ((decode1 m (p1 * PGSIZE)).set j (some (Node.empty c))))
  have hcount : count0 q (Node.empty c) = if c = q then 1 else 0 := Node.count_empty _ _ _
  rw [hentry, Option.elim_none, Option.elim_some, hcount] at hset0
  rw [decode_entry hi hlink hp1, Option.elim_some, Option.elim_some] at hset
  rw [hdec]
  simp only [count1_def] at hset
  unfold PageTable.nodes
  simp only [count1_def]
  omega

end

end Xv6.Vm.Words
