import Xv6.Vm.Uvm

/-! # Copying to and from user memory

The loops of `copyout`, `copyin` and `copyinstr`, which go page by page. Each of them is shown to do
the same as a copy that goes byte by byte, and what it does to user memory is read off the bytes.
-/

namespace Xv6.Vm

open Function Lib

namespace UserCopy

/-! ## The loops of `vm.c` -/

/-- `n` in the loops: the rest of the page of `va`, and at most `len`. -/
def chunk (va len : Nat) : Nat := min (PGSIZE - (va - PGROUNDDOWN va)) len

theorem chunk_pos (va : Nat) {len : Nat} (hlen : 0 < len) : 0 < chunk va len := by
  simp only [chunk, PGROUNDDOWN, PGSIZE]
  omega

/-- `memmove` of bytes to offset `off` of physical page `p`. -/
def move (km : Kmem) (p off : Nat) (bs : List UInt8) : Kmem :=
  { km with mem := update km.mem p ((km.mem p).blit off bs.length fun k => bs.getD k 0) }

/-- `copyout` of the bytes `src`; false is the result -1. -/
def copyout (pt : PageTable) (km : Kmem) (dstva : Nat) (src : List UInt8) : Bool × Kmem :=
  if 0 < src.length then
    let va0 := PGROUNDDOWN dstva
    match walkaddr pt va0 with
    | none => (false, km)
    | some p =>
      let n := chunk dstva src.length
      copyout pt (move km p (dstva - va0) (src.take n)) ((va0 + PGSIZE) % 2 ^ 64) (src.drop n)
  else (true, km)
termination_by src.length
decreasing_by
  have := chunk_pos dstva ‹_›
  rw [List.length_drop]
  omega

/-- `copyin` of `len` bytes, with the bytes that are in `dst` so far. -/
def copyin (pt : PageTable) (km : Kmem) (dst : List UInt8) (srcva len : Nat) : Bool × List UInt8 :=
  if 0 < len then
    let va0 := PGROUNDDOWN srcva
    match walkaddr pt va0 with
    | none => (false, dst)
    | some p =>
      let n := chunk srcva len
      let bs := (List.range n).map fun k => (km.mem p).get (srcva - va0 + k)
      copyin pt km (dst ++ bs) ((va0 + PGSIZE) % 2 ^ 64) (len - n)
  else (true, dst)
termination_by len
decreasing_by
  have := chunk_pos srcva ‹_›
  omega

/-- The inner loop of `copyinstr` over `n` bytes of a page from `off` on: `got_null`, `max` and the
bytes in `dst`. -/
def scanPage (page : Page) : Nat → Nat → Nat → List UInt8 → Bool × Nat × List UInt8
  | 0, _, max, dst => (false, max, dst)
  | n + 1, off, max, dst =>
    if page.get off = 0 then (true, max, dst ++ [0])
    else scanPage page n (off + 1) (max - 1) (dst ++ [page.get off])

theorem scanPage_max (page : Page) {n off max : Nat} {dst : List UInt8}
    (h : (scanPage page n off max dst).1 = false) :
    (scanPage page n off max dst).2.1 = max - n := by
  induction n generalizing off max dst with
  | zero => rfl
  | succ n ih =>
    unfold scanPage at h ⊢
    split at h
    · cases h
    · rename_i hne
      rw [if_neg hne, ih h]
      omega

/-- `copyinstr` of at most `max` bytes, with the bytes that are in `dst` so far. -/
def copyinstr (pt : PageTable) (km : Kmem) (dst : List UInt8) (srcva max : Nat) :
    Bool × List UInt8 :=
  if 0 < max then
    let va0 := PGROUNDDOWN srcva
    match walkaddr pt va0 with
    | none => (false, dst)
    | some p =>
      match h : scanPage (km.mem p) (chunk srcva max) (srcva - va0) max dst with
      | (true, _, dst) => (true, dst)
      | (false, left, dst) => copyinstr pt km dst ((va0 + PGSIZE) % 2 ^ 64) left
  else (false, dst)
termination_by max
decreasing_by
  have hn := chunk_pos srcva ‹0 < max›
  have hleft := scanPage_max (km.mem p) (by rw [h])
  rw [h] at hleft
  dsimp only at hleft
  omega

end UserCopy

/-! ## Pages and bytes -/

section

variable {pt : PageTable} {km : Kmem} {va : Nat}

/-- Page `v` is below `MAXVA`, valid and `PTE_U`, and not at physical address 0. -/
def UserPage (pt : PageTable) (v : Nat) : Prop :=
  v * PGSIZE < MAXVA ∧ ∃ pte, pt.leaf v = some pte ∧ pte.perm.u = true ∧ pte.page ≠ 0

theorem walkaddr_isSome : (walkaddr pt va).isSome = true ↔ UserPage pt (va / PGSIZE) := by
  unfold walkaddr UserPage
  have hlt : va / PGSIZE * PGSIZE < MAXVA ↔ va < MAXVA := by
    simp only [PGSIZE, MAXVA]
    omega
  by_cases hva : va < MAXVA
  · rw [if_neg (Nat.not_le_of_lt hva)]
    cases hleaf : pt.leaf (va / PGSIZE) with
    | none => simp
    | some pte =>
      by_cases hu : pte.perm.u = true ∧ pte.page ≠ 0
      · simp only [if_pos hu, Option.isSome_some, hlt, hva, true_and, true_iff]
        exact ⟨pte, rfl, hu⟩
      · simp only [if_neg hu, Option.isSome_none, Bool.false_eq_true, false_iff]
        rintro ⟨-, _, h, hu'⟩
        cases h
        exact hu hu'
  · rw [if_pos (Nat.le_of_not_lt hva)]
    simp [hlt, hva]

theorem walkaddr_lt {p : Nat} (h : walkaddr pt va = some p) : va < MAXVA := by
  unfold walkaddr at h
  split at h
  · cases h
  · omega

theorem walkaddr_page : walkaddr pt (PGROUNDDOWN va) = walkaddr pt va := by
  unfold walkaddr PGROUNDDOWN
  rw [Nat.mul_div_cancel _ (by decide : 0 < PGSIZE)]
  have hle : va / PGSIZE * PGSIZE ≥ MAXVA ↔ va ≥ MAXVA := by
    simp only [PGSIZE, MAXVA]
    omega
  simp only [hle]

theorem walkaddr_congr {wa : Nat} (h : wa / PGSIZE = va / PGSIZE) :
    walkaddr pt wa = walkaddr pt va := by
  rw [← @walkaddr_page pt wa, ← @walkaddr_page pt va, PGROUNDDOWN, PGROUNDDOWN, h]

end

/-! ## The loops byte by byte -/

theorem chunk_eq (va len : Nat) : UserCopy.chunk va len = min (PGSIZE - va % PGSIZE) len := by
  unfold UserCopy.chunk PGROUNDDOWN
  rw [← Nat.mod_eq_sub_div_mul]

section

variable {pt : PageTable} {km : Kmem} {va p : Nat} {bs cs : List UInt8}

theorem move_store (off : Nat) (b : UInt8) (bs : List UInt8) :
    UserCopy.move (km.store p off b) p (off + 1) bs = UserCopy.move km p off (b :: bs) := by
  unfold UserCopy.move Kmem.store
  simp only [update_self, update_idem]
  congr 2
  funext i
  unfold Bytes.blit
  simp only [List.length_cons]
  by_cases hi : off + 1 ≤ i ∧ i < off + 1 + bs.length
  · rw [if_pos hi, if_pos (by omega), show (i : Nat) - off = (i - (off + 1)) +
      1 by omega, List.getD_cons_succ]
  · rw [if_neg hi]
    by_cases hoff : (i : Nat) = off
    · rw [if_pos (by omega), if_pos (by omega), hoff, Nat.sub_self, List.getD_cons_zero]
    · rw [if_neg (by omega), if_neg (by omega)]

theorem move_nil (off : Nat) : UserCopy.move km p off [] = km := by
  have hblit : (km.mem p).blit off 0 (fun k => ([] : List UInt8).getD k 0) = km.mem p := by
    funext i
    exact if_neg (by omega)
  unfold UserCopy.move
  rw [List.length_nil, hblit, update_eq_self]

theorem copyout_page (hp : walkaddr pt va = some p) (hlen : va % PGSIZE + bs.length ≤ PGSIZE) :
    copyout pt km va bs = (true, UserCopy.move km p (va % PGSIZE) bs) := by
  induction bs generalizing km va with
  | nil =>
    rw [move_nil]
    rfl
  | cons b bs ih =>
    have hlt := walkaddr_lt hp
    have hnext : (va + 1) % 2 ^ 64 = va + 1 := Nat.mod_eq_of_lt (by simp only [MAXVA] at hlt; omega)
    unfold copyout
    rw [hp]
    dsimp only
    rw [hnext, ← move_store]
    cases bs with
    | nil =>
      rw [move_nil]
      rfl
    | cons c bs =>
      rw [List.length_cons, List.length_cons] at hlen
      have hpage : (va + 1) / PGSIZE = va / PGSIZE := by
        simp only [PGSIZE] at *
        omega
      have hoff : (va + 1) % PGSIZE = va % PGSIZE + 1 := by
        simp only [PGSIZE] at *
        omega
      rw [ih ((walkaddr_congr hpage).trans hp) (by rw [hoff, List.length_cons]; omega), hoff]

theorem copyout_append (hva : va < 2 ^ 64) {km' : Kmem} (h : copyout pt km va bs = (true, km')) :
    copyout pt km va (bs ++ cs) = copyout pt km' ((va + bs.length) % 2 ^ 64) cs := by
  induction bs generalizing km va with
  | nil =>
    cases h
    rw [List.length_nil, Nat.add_zero, Nat.mod_eq_of_lt hva]
    rfl
  | cons b bs ih =>
    unfold copyout at h
    rw [List.cons_append, copyout]
    split at h
    · cases h
    · rename_i p hp
      rw [ih (Nat.mod_lt _ (by decide)) h, List.length_cons, Nat.mod_add_mod, Nat.add_assoc,
        Nat.add_comm 1]

theorem copyout_eq (hva : va < 2 ^ 64) : UserCopy.copyout pt km va bs = copyout pt km va bs := by
  fun_induction UserCopy.copyout pt km va bs with
  | case1 km va src hlen va0 hnone =>
    rw [walkaddr_page] at hnone
    obtain _ | ⟨b, src⟩ := src
    · cases hlen
    · rw [copyout, hnone]
  | case2 km va src hlen va0 p hp n ih =>
    rw [walkaddr_page] at hp
    have hlt := walkaddr_lt hp
    have hoff : va - va0 = va % PGSIZE := (Nat.mod_eq_sub_div_mul).symm
    have hn : n = min (PGSIZE - va % PGSIZE) src.length := chunk_eq va src.length
    have htake : (src.take n).length = n := by
      rw [List.length_take]
      omega
    have hfirst : copyout pt km va (src.take n) =
        (true, UserCopy.move km p (va % PGSIZE) (src.take n)) := by
      refine copyout_page hp ?_
      rw [htake]
      simp only [PGSIZE] at *
      omega
    have hrest := @copyout_append pt km va (src.take n) (src.drop n) hva _ hfirst
    rw [List.take_append_drop, htake] at hrest
    rw [ih (Nat.mod_lt _ (by decide)), hrest, hoff]
    -- the next page starts behind the chunk, unless the chunk was the last one
    by_cases hend : n = src.length
    · rw [hend, List.drop_length, copyout, copyout]
    · have hva0 : va0 + PGSIZE = va + n := by
        simp only [va0, PGROUNDDOWN, PGSIZE] at *
        omega
      rw [hva0]
  | case3 km va src hlen =>
    obtain rfl := List.eq_nil_of_length_eq_zero (Nat.eq_zero_of_not_pos hlen)
    rfl

end

def copyinBytes (pt : PageTable) (km : Kmem) : Nat → Nat → Bool × List UInt8
  | 0, _ => (true, [])
  | len + 1, va =>
    match loadByte km pt va with
    | none => (false, [])
    | some b =>
      let r := copyinBytes pt km len ((va + 1) % 2 ^ 64)
      (r.1, b :: r.2)

def copyinstrBytes (pt : PageTable) (km : Kmem) : Nat → Nat → Bool × List UInt8
  | 0, _ => (false, [])
  | max + 1, va =>
    match loadByte km pt va with
    | none => (false, [])
    | some b =>
      if b = 0 then (true, [0])
      else
        let r := copyinstrBytes pt km max ((va + 1) % 2 ^ 64)
        (r.1, b :: r.2)

section

variable {pt : PageTable} {km : Kmem} {va p : Nat}

theorem loadByte_of_walkaddr (hp : walkaddr pt va = some p) :
    loadByte km pt va = some ((km.mem p).get (va % PGSIZE)) := by
  unfold loadByte
  rw [hp]
  rfl

theorem walkaddr_succ (hp : walkaddr pt va = some p) (hoff : va % PGSIZE + 1 < PGSIZE) :
    (va + 1) % 2 ^ 64 = va + 1 ∧ walkaddr pt (va + 1) = some p ∧ (va + 1) % PGSIZE =
    va % PGSIZE + 1 := by
  have hlt := walkaddr_lt hp
  have hpage : (va + 1) / PGSIZE = va / PGSIZE := by
    simp only [PGSIZE] at *
    omega
  refine ⟨Nat.mod_eq_of_lt (by simp only [MAXVA] at hlt; omega), (walkaddr_congr hpage).trans hp,
    ?_⟩
  simp only [PGSIZE] at *
  omega

theorem copyinBytes_page {n : Nat} (hp : walkaddr pt va = some p) (hn : va % PGSIZE + n ≤ PGSIZE)
    (m : Nat) : copyinBytes pt km (n + m) va =
      ((copyinBytes pt km m (va + n)).1,
        ((List.range n).map fun k => (km.mem p).get (va % PGSIZE + k)) ++
        (copyinBytes pt km m (va + n)).2) := by
  induction n generalizing va with
  | zero => simp
  | succ n ih =>
    have hlt := walkaddr_lt hp
    have hnext : (va + 1) % 2 ^ 64 = va + 1 := Nat.mod_eq_of_lt (by simp only [MAXVA] at hlt; omega)
    rw [show n + 1 + m = (n + m) + 1 by omega, copyinBytes, loadByte_of_walkaddr hp]
    dsimp only
    rw [hnext]
    cases n with
    | zero => simp
    | succ n =>
      obtain ⟨-, hp', hoff'⟩ := walkaddr_succ hp (by omega)
      rw [ih hp' (by omega), hoff', List.range_succ_eq_map (n := n + 1)]
      simp only [List.map_cons, List.map_map, Nat.add_zero, List.cons_append, Function.comp_def]
      refine Prod.ext (by rw [show va + 1 + (n + 1) = va + (n + 1 + 1) by omega]) ?_
      dsimp only
      rw [show va + 1 + (n + 1) = va + (n + 1 + 1) by omega]
      simp only [Nat.add_assoc, Nat.add_comm 1]

theorem copyin_eq {len : Nat} {dst : List UInt8} :
    UserCopy.copyin pt km dst va len =
    ((copyinBytes pt km len va).1, dst ++ (copyinBytes pt km len va).2) := by
  fun_induction UserCopy.copyin pt km dst va len with
  | case1 dst va len hlen va0 hnone =>
    rw [walkaddr_page] at hnone
    obtain ⟨len, rfl⟩ := Nat.exists_eq_succ_of_ne_zero (Nat.ne_of_gt hlen)
    have hload : loadByte km pt va = none := by rw [loadByte, hnone]; rfl
    rw [copyinBytes, hload, List.append_nil]
  | case2 dst va len hlen va0 p hp n bs ih =>
    rw [walkaddr_page] at hp
    have hlt := walkaddr_lt hp
    have hoff : va - va0 = va % PGSIZE := (Nat.mod_eq_sub_div_mul).symm
    have hn : n = min (PGSIZE - va % PGSIZE) len := chunk_eq va len
    have hpage := @copyinBytes_page pt km va p n hp (by simp only [PGSIZE] at *; omega) (len - n)
    rw [Nat.add_sub_cancel' (by omega)] at hpage
    have hbs : bs = (List.range n).map fun k => (km.mem p).get (va % PGSIZE + k) := by rw [← hoff]
    rw [ih, hpage, ← hbs]
    by_cases hend : n = len
    · rw [hend, Nat.sub_self]
      simp [copyinBytes]
    · have hva0 : (va0 + PGSIZE) % 2 ^ 64 = va + n := by
        simp only [va0, PGROUNDDOWN, PGSIZE, MAXVA] at *
        omega
      rw [hva0, List.append_assoc]
  | case3 dst va len hlen =>
    obtain rfl := Nat.eq_zero_of_not_pos hlen
    rw [copyinBytes, List.append_nil]

theorem scanPage_bytes {n : Nat} (hp : walkaddr pt va = some p) (hn : va % PGSIZE + n ≤ PGSIZE)
    (m : Nat) (dst : List UInt8) :
    ∃ e, (UserCopy.scanPage (km.mem p) n (va % PGSIZE) (n + m) dst).2.2 = dst ++ e ∧
      if (UserCopy.scanPage (km.mem p) n (va % PGSIZE) (n + m) dst).1 then copyinstrBytes pt km
      (n + m) va = (true, e)
      else copyinstrBytes pt km (n + m) va =
        ((copyinstrBytes pt km m (va + n)).1, e ++ (copyinstrBytes pt km m (va + n)).2) := by
  induction n generalizing va dst with
  | zero => exact ⟨[], by simp [UserCopy.scanPage], by simp [UserCopy.scanPage]⟩
  | succ n ih =>
    have hlt := walkaddr_lt hp
    have hnext : (va + 1) % 2 ^ 64 = va + 1 := Nat.mod_eq_of_lt (by simp only [MAXVA] at hlt; omega)
    rw [show n + 1 + m = (n + m) +
      1 by omega, copyinstrBytes, loadByte_of_walkaddr hp, UserCopy.scanPage]
    dsimp only
    by_cases hzero : (km.mem p).get (va % PGSIZE) = 0
    · simp only [if_pos hzero]
      exact ⟨[0], rfl, rfl⟩
    · simp only [if_neg hzero, hnext, Nat.add_sub_cancel]
      cases n with
      | zero =>
        exact ⟨[(km.mem p).get (va % PGSIZE)], by simp [UserCopy.scanPage],
          by simp [UserCopy.scanPage]⟩
      | succ n =>
        obtain ⟨-, hp', hoff'⟩ := walkaddr_succ hp (by omega)
        obtain ⟨e, hdst, hbytes⟩ := ih hp' (by omega) (dst ++ [(km.mem p).get (va % PGSIZE)])
        rw [hoff'] at hdst hbytes
        refine ⟨(km.mem p).get (va % PGSIZE) :: e, by rw [hdst]; simp, ?_⟩
        rw [show va + 1 + (n + 1) = va + (n + 1 + 1) by omega] at hbytes
        split at hbytes
        · rename_i hfound
          rw [if_pos hfound, hbytes]
        · rename_i hfound
          rw [if_neg hfound, hbytes]
          rfl

theorem copyinstr_eq {max : Nat} {dst : List UInt8} :
    UserCopy.copyinstr pt km dst va max =
    ((copyinstrBytes pt km max va).1, dst ++ (copyinstrBytes pt km max va).2) := by
  induction max using Nat.strongRecOn generalizing va dst with
  | _ max ih =>
  unfold UserCopy.copyinstr
  rcases Nat.eq_zero_or_pos max with rfl | hmax
  · simp [copyinstrBytes]
  rw [if_pos hmax]
  dsimp only
  rw [walkaddr_page]
  cases hp : walkaddr pt va with
  | none =>
    obtain ⟨max, rfl⟩ := Nat.exists_eq_succ_of_ne_zero (Nat.ne_of_gt hmax)
    have hload : loadByte km pt va = none := by rw [loadByte, hp]; rfl
    rw [copyinstrBytes, hload, List.append_nil]
  | some p =>
    have hlt := walkaddr_lt hp
    have hoff : va - PGROUNDDOWN va = va % PGSIZE := (Nat.mod_eq_sub_div_mul).symm
    have hn := chunk_eq va max
    have hpos := UserCopy.chunk_pos va hmax
    obtain ⟨e, hdst, hbytes⟩ := @scanPage_bytes pt km va p (UserCopy.chunk va max) hp
      (by simp only [PGSIZE] at *; omega) (max - UserCopy.chunk va max) dst
    rw [Nat.add_sub_cancel' (by omega), ← hoff] at hdst hbytes
    dsimp only
    split
    · rename_i left d hscan
      rw [hscan] at hdst hbytes
      obtain rfl : d = dst ++ e := hdst
      rw [if_pos rfl] at hbytes
      rw [hbytes]
    · rename_i left d hscan
      have hleft := UserCopy.scanPage_max (km.mem p) (by rw [hscan])
      rw [hscan] at hdst hbytes hleft
      obtain rfl : d = dst ++ e := hdst
      obtain rfl : left = max - UserCopy.chunk va max := hleft
      rw [if_neg Bool.false_ne_true] at hbytes
      rw [ih _ (by omega), hbytes]
      by_cases hend : UserCopy.chunk va max = max
      · rw [hend, Nat.sub_self]
        simp [copyinstrBytes]
      · have hva0 : (PGROUNDDOWN va + PGSIZE) % 2 ^ 64 = va + UserCopy.chunk va max := by
          simp only [PGROUNDDOWN, PGSIZE, MAXVA] at *
          omega
        rw [hva0, List.append_assoc]

end

/-! ## What the copies do -/

/-- No two user pages share a physical page. -/
def DistinctPages (pt : PageTable) : Prop :=
  ∀ v w pte pte', pt.leaf v = some pte → pte.perm.u = true → pt.leaf w = some pte' →
    pte'.perm.u = true → pte.page = pte'.page → v = w

/-- A copy of `len` bytes at `va` comes to byte `k`: to the end, or to the first page that is not a
user page. -/
structure Reached (pt : PageTable) (va len k : Nat) : Prop where
  le : k ≤ len
  good : ∀ a, va ≤ a → a < va + k → UserPage pt (a / PGSIZE)
  stop : k < len → (k = 0 ∨ (va + k) % PGSIZE = 0) ∧ ¬ UserPage pt ((va + k) / PGSIZE)

/-- The first NUL of a string at `va` is byte `j`, on user pages. -/
structure NulAt (pt : PageTable) (km : Kmem) (va j : Nat) : Prop where
  good : ∀ a, va ≤ a → a ≤ va + j → UserPage pt (a / PGSIZE)
  nul : loadByte km pt (va + j) = some 0
  first : ∀ i, i < j → loadByte km pt (va + i) ≠ some 0

section

variable {pt : PageTable} {km : Kmem} {va p len k : Nat}

namespace Reached

theorem nil : Reached pt va 0 0 :=
  ⟨Nat.le_refl _, fun a hle hlt => by omega, fun h => absurd h (Nat.lt_irrefl _)⟩

theorem bad (h : ¬ UserPage pt (va / PGSIZE)) : Reached pt va len 0 :=
  ⟨Nat.zero_le _, fun a hle hlt => by omega, fun _ => ⟨.inl rfl, h⟩⟩

theorem succ (hpage : UserPage pt (va / PGSIZE)) (h : Reached pt (va + 1) len k) :
    Reached pt va (len + 1) (k + 1) := by
  refine ⟨Nat.succ_le_succ h.le, fun a hle hlt => ?_, fun hk => ?_⟩
  · by_cases hfirst : a = va
    · rw [hfirst]
      exact hpage
    · exact h.good a (by omega) (by omega)
  · obtain ⟨hstart, hbad⟩ := h.stop (Nat.lt_of_succ_lt_succ hk)
    rw [show va + (k + 1) = va + 1 + k by omega]
    refine ⟨.inr ?_, hbad⟩
    rcases hstart with rfl | hstart
    · by_contra hne
      have hsame : (va + 1 + 0) / PGSIZE = va / PGSIZE := by
        simp only [PGSIZE] at *
        omega
      rw [hsame] at hbad
      exact hbad hpage
    · exact hstart

theorem all_iff (h : Reached pt va len k) :
    k = len ↔ ∀ a, va ≤ a → a < va + len → UserPage pt (a / PGSIZE) := by
  constructor
  · rintro rfl
    exact h.good
  · intro hall
    by_contra hne
    have hlt : k < len := by
      have := h.le
      omega
    exact (h.stop hlt).2 (hall _ (Nat.le_add_right _ _) (by omega))

theorem unique {k' : Nat} (h : Reached pt va len k) (h' : Reached pt va len k') : k = k' := by
  rcases Nat.lt_trichotomy k k' with hlt | heq | hgt
  · exact absurd (h'.good (va + k) (by omega) (by omega)) (h.stop (Nat.lt_of_lt_of_le hlt h'.le)).2
  · exact heq
  · exact absurd (h.good (va + k') (by omega) (by omega)) (h'.stop (Nat.lt_of_lt_of_le hgt h.le)).2

end Reached

theorem userPage_of_walkaddr (hp : walkaddr pt va = some p) : UserPage pt (va / PGSIZE) :=
  walkaddr_isSome.mp (by rw [hp]; rfl)

theorem not_userPage (hp : walkaddr pt va = none) : ¬ UserPage pt (va / PGSIZE) := fun h => by
  have := walkaddr_isSome.mpr h
  rw [hp] at this
  cases this

theorem walkaddr_leaf (hp : walkaddr pt va = some p) :
    ∃ pte, pt.leaf (va / PGSIZE) = some pte ∧ pte.perm.u = true ∧ pte.page = p := by
  unfold walkaddr at hp
  split at hp
  · cases hp
  · split at hp
    · rename_i pte hleaf
      split at hp
      · rename_i hu
        exact ⟨pte, hleaf, hu.1, Option.some.inj hp⟩
      · cases hp
    · cases hp

theorem loadByte_store (hd : DistinctPages pt) (hp : walkaddr pt va = some p)
    (b : UInt8) (a : Nat) :
    loadByte (km.store p (va % PGSIZE) b) pt a = if a = va then some b else loadByte km pt a := by
  by_cases ha : a = va
  · rw [if_pos ha, ha, loadByte_of_walkaddr hp, Kmem.store]
    dsimp only
    rw [update_self, Bytes.get_blit, if_pos ⟨Nat.mod_lt _ (by decide), by omega⟩]
  · rw [if_neg ha]
    cases hq : walkaddr pt a with
    | none => rw [loadByte, loadByte, hq]; rfl
    | some q =>
      rw [loadByte_of_walkaddr hq, loadByte_of_walkaddr hq]
      congr 1
      unfold Kmem.store
      dsimp only
      by_cases hqp : q = p
      · obtain ⟨pte, hleaf, hu, hpage⟩ := walkaddr_leaf hp
        obtain ⟨pte', hleaf', hu', hpage'⟩ := walkaddr_leaf hq
        have hv : a / PGSIZE = va / PGSIZE :=
          hd _ _ _ _ hleaf' hu' hleaf hu (hpage'.trans (hqp.trans hpage.symm))
        rw [hqp, update_self, Bytes.get_blit, if_neg]
        simp only [PGSIZE] at *
        omega
      · rw [update_of_ne hqp]

theorem copyout_reached (hd : DistinctPages pt) (hva : va < 2 ^ 64) (bs : List UInt8) (km : Kmem) :
    ∃ k, Reached pt va bs.length k ∧ ((copyout pt km va bs).1 = true ↔ k = bs.length) ∧
      ∀ a, loadByte (copyout pt km va bs).2 pt a = if va ≤ a ∧
      a < va + k then bs[a - va]? else loadByte km pt a := by
  induction bs generalizing km va with
  | nil => exact ⟨0, .nil, iff_of_true rfl rfl, fun a => (if_neg (by omega)).symm⟩
  | cons b bs ih =>
    unfold copyout
    cases hp : walkaddr pt va with
    | none =>
      refine ⟨0, .bad (not_userPage hp), iff_of_false Bool.false_ne_true ?_,
        fun a => (if_neg (by omega)).symm⟩
      exact fun h => by cases h
    | some p =>
      have hlt := walkaddr_lt hp
      have hnext : (va + 1) % 2 ^ 64 = va + 1 :=
        Nat.mod_eq_of_lt (by simp only [MAXVA] at hlt; omega)
      obtain ⟨k, hreach, hok, hbytes⟩ := @ih (va + 1) (by simp only [MAXVA] at hlt; omega)
        (km.store p (va % PGSIZE) b)
      dsimp only
      rw [hnext]
      refine ⟨k + 1, hreach.succ (userPage_of_walkaddr hp), ?_, fun a => ?_⟩
      · rw [hok, List.length_cons, Nat.add_right_cancel_iff]
      · rw [hbytes a, loadByte_store hd hp]
        by_cases ha : a = va
        · rw [if_neg (by omega), if_pos ha, if_pos (by omega), ha, Nat.sub_self]
          rfl
        · by_cases hin : va + 1 ≤ a ∧ a < va + 1 + k
          · rw [if_pos hin, if_pos (by omega), show a - va = a - (va + 1) + 1 by omega]
            rfl
          · rw [if_neg hin, if_neg ha, if_neg (by omega)]

theorem copyin_reached (hva : va < 2 ^ 64) (len : Nat) :
    ∃ k, Reached pt va len k ∧ ((copyinBytes pt km len va).1 = true ↔ k = len) ∧
      (copyinBytes pt km len va).2.map some = (List.range k).map fun i =>
      loadByte km pt (va + i) := by
  induction len generalizing va with
  | zero => exact ⟨0, .nil, iff_of_true rfl rfl, rfl⟩
  | succ len ih =>
    unfold copyinBytes
    cases hp : walkaddr pt va with
    | none =>
      have hload : loadByte km pt va = none := by rw [loadByte, hp]; rfl
      rw [hload]
      exact ⟨0, .bad (not_userPage hp), iff_of_false Bool.false_ne_true (fun h => by cases h), rfl⟩
    | some p =>
      have hlt := walkaddr_lt hp
      have hnext : (va + 1) % 2 ^ 64 = va + 1 :=
        Nat.mod_eq_of_lt (by simp only [MAXVA] at hlt; omega)
      obtain ⟨k, hreach, hok, hbytes⟩ := @ih (va + 1) (by simp only [MAXVA] at hlt; omega)
      rw [loadByte_of_walkaddr hp]
      dsimp only
      rw [hnext]
      refine ⟨k + 1, hreach.succ (userPage_of_walkaddr hp), ?_, ?_⟩
      · rw [hok, Nat.add_right_cancel_iff]
      · rw [List.map_cons, hbytes, List.range_succ_eq_map, List.map_cons, List.map_map]
        refine congrArg₂ List.cons (loadByte_of_walkaddr hp).symm
          (List.map_congr_left fun i _ => ?_)
        rw [Nat.add_assoc, Nat.add_comm 1]
        rfl

theorem NulAt.zero (hpage : UserPage pt (va / PGSIZE)) (hnul : loadByte km pt va = some 0) :
    NulAt pt km va 0 := by
  refine ⟨fun a hle hlt => ?_, hnul, fun i hi => absurd hi (Nat.not_lt_zero _)⟩
  rw [show a = va by omega]
  exact hpage

theorem NulAt.succ_iff (hpage : UserPage pt (va / PGSIZE)) (hne : loadByte km pt va ≠ some 0)
    {j : Nat} : NulAt pt km va (j + 1) ↔ NulAt pt km (va + 1) j := by
  have hshift : ∀ i, va + (i + 1) = va + 1 + i := fun i => by omega
  constructor
  · intro h
    refine ⟨fun a hle hlt => h.good a (by omega) (by omega), ?_, fun i hi => ?_⟩
    · rw [← hshift]
      exact h.nul
    · rw [← hshift]
      exact h.first (i + 1) (Nat.succ_lt_succ hi)
  · intro h
    refine ⟨fun a hle hlt => ?_, ?_, fun i hi => ?_⟩
    · by_cases ha : a = va
      · rw [ha]
        exact hpage
      · exact h.good a (by omega) (by omega)
    · rw [hshift]
      exact h.nul
    · cases i with
      | zero => exact hne
      | succ i =>
        rw [hshift]
        exact h.first i (Nat.lt_of_succ_lt_succ hi)

theorem copyinstr_nulAt (hva : va < 2 ^ 64) (max : Nat) :
    ((copyinstrBytes pt km max va).1 = true ↔ ∃ j, j < max ∧ NulAt pt km va j) ∧
      (copyinstrBytes pt km max va).2.length ≤ max ∧
      ∀ j, j < max → NulAt pt km va j →
        (copyinstrBytes pt km max va).2.map some = (List.range (j + 1)).map fun i =>
        loadByte km pt (va + i) := by
  induction max generalizing va with
  | zero =>
    refine ⟨iff_of_false Bool.false_ne_true ?_, Nat.le_refl _,
      fun j hj => absurd hj (Nat.not_lt_zero _)⟩
    rintro ⟨j, hj, -⟩
    exact absurd hj (Nat.not_lt_zero _)
  | succ max ih =>
    unfold copyinstrBytes
    cases hp : walkaddr pt va with
    | none =>
      have hload : loadByte km pt va = none := by rw [loadByte, hp]; rfl
      have hnot : ∀ j, ¬ NulAt pt km va j :=
        fun j h => not_userPage hp (h.good va (Nat.le_refl _) (by omega))
      rw [hload]
      refine ⟨iff_of_false Bool.false_ne_true ?_, Nat.zero_le _, fun j _ h => absurd h (hnot j)⟩
      rintro ⟨j, -, h⟩
      exact hnot j h
    | some p =>
      have hload := @loadByte_of_walkaddr pt km va p hp
      have hpage := userPage_of_walkaddr hp
      rw [hload]
      dsimp only
      by_cases hzero : (km.mem p).get (va % PGSIZE) = 0
      · rw [if_pos hzero]
        rw [hzero] at hload
        refine ⟨iff_of_true rfl ⟨0, Nat.zero_lt_succ _, .zero hpage hload⟩,
          Nat.succ_le_succ (Nat.zero_le _), ?_⟩
        intro j _ hj
        obtain rfl : j = 0 := by
          by_contra hne
          exact hj.first 0 (Nat.pos_of_ne_zero hne) hload
        exact congrArg (· :: []) hload.symm
      · rw [if_neg hzero]
        have hne : loadByte km pt va ≠ some 0 :=
          fun h => hzero (Option.some.inj (hload.symm.trans h))
        have hlt := walkaddr_lt hp
        obtain ⟨hok, hlen, hbytes⟩ := @ih (va + 1) (by simp only [MAXVA] at hlt; omega)
        rw [Nat.mod_eq_of_lt (a := va + 1) (by simp only [MAXVA] at hlt; omega)]
        refine ⟨hok.trans ⟨?_, ?_⟩, Nat.succ_le_succ hlen, ?_⟩
        · rintro ⟨j, hj, h⟩
          exact ⟨j + 1, Nat.succ_lt_succ hj, (NulAt.succ_iff hpage hne).mpr h⟩
        · rintro ⟨_ | j, hj, h⟩
          · exact absurd h.nul hne
          · exact ⟨j, Nat.lt_of_succ_lt_succ hj, (NulAt.succ_iff hpage hne).mp h⟩
        · rintro (_ | j) hj h
          · exact absurd h.nul hne
          · rw [List.map_cons, hbytes j (Nat.lt_of_succ_lt_succ hj)
              ((NulAt.succ_iff hpage hne).mp h),
              List.range_succ_eq_map (n := j + 1), List.map_cons, List.map_map]
            refine congrArg₂ List.cons hload.symm (List.map_congr_left fun i _ => ?_)
            rw [Nat.add_assoc, Nat.add_comm 1]
            rfl

end

/-- The three copies of `vm.c`. Both `copyout` and `copyin` succeed when every page that holds a
byte of the range is a user page, and stop in front of the first page that is not; `copyinstr`
succeeds when the first NUL is among the first `max` bytes and on user pages. All of them return
for every address, also for those close to `2 ^ 64`. -/
theorem copies_exact (pt : PageTable) (hd : DistinctPages pt) (km : Kmem) (va : Nat)
    (hva : va < 2 ^ 64) : (∀ src : List UInt8, ∃ k, Reached pt va src.length k ∧
      ((UserCopy.copyout pt km va src).1 = true ↔ ∀ a, va ≤ a → a < va + src.length →
        UserPage pt (a / PGSIZE)) ∧
      ((UserCopy.copyout pt km va src).1 = true ↔ k = src.length) ∧
      ∀ a, loadByte (UserCopy.copyout pt km va src).2 pt a =
        if va ≤ a ∧ a < va + k then src[a - va]? else loadByte km pt a) ∧
    (∀ len, ∃ k, Reached pt va len k ∧
      ((UserCopy.copyin pt km [] va len).1 = true ↔ ∀ a, va ≤ a → a < va + len →
        UserPage pt (a / PGSIZE)) ∧
      ((UserCopy.copyin pt km [] va len).1 = true ↔ k = len) ∧
      (UserCopy.copyin pt km [] va len).2.map some = (List.range k).map fun i =>
      loadByte km pt (va + i)) ∧
    ∀ max,
      ((UserCopy.copyinstr pt km [] va max).1 = true ↔ ∃ j, j < max ∧ NulAt pt km va j) ∧
      (UserCopy.copyinstr pt km [] va max).2.length ≤ max ∧
      ∀ j, j < max → NulAt pt km va j →
        (UserCopy.copyinstr pt km [] va max).2.map some = (List.range (j + 1)).map fun i =>
        loadByte km pt (va + i) := by
  refine ⟨fun src => ?_, fun len => ?_, fun max => ?_⟩
  · obtain ⟨k, hreach, hok, hbytes⟩ := copyout_reached hd hva src km
    rw [copyout_eq hva]
    exact ⟨k, hreach, hok.trans hreach.all_iff, hok, hbytes⟩
  · obtain ⟨k, hreach, hok, hbytes⟩ := @copyin_reached pt km va hva len
    rw [copyin_eq, List.nil_append]
    exact ⟨k, hreach, hok.trans hreach.all_iff, hok, hbytes⟩
  · rw [copyinstr_eq, List.nil_append]
    exact copyinstr_nulAt hva max

/-- A page table whose only level-0 table is that of the lowest addresses. -/
def lowTable (n : Node Pte) : PageTable :=
  (Node.empty 1).set 0 (some ((Node.empty 2).set 0 (some n)))

theorem lowTable_leaf {n : Node Pte} {v : Nat} {pte : Pte} (h : (lowTable n).leaf v = some pte) :
    n.entry v = some pte := by
  have hv := hasTable_lt (hasTable_of_leaf (by rw [h]; exact Option.some_ne_none pte))
  unfold PageTable.leaf at h
  rw [if_pos hv] at h
  unfold lowTable PageTable.table? at h
  rw [Node.entry_set] at h
  split at h
  · rename_i n1 h2
    split at h2
    · cases h2
      rw [Node.entry_set] at h
      split at h
      · have hpx : PX 0 (v * PGSIZE) = v := by
          simp only [PX, PGSIZE, NVPAGE] at *
          omega
        rwa [Option.bind_some, hpx] at h
      · cases h
    · cases h2
  · cases h

/-- A page table with page 0 as its only user page, at physical page `p`. -/
def onePageAt (p : Nat) : PageTable :=
  lowTable ((Node.empty 3).set 0 (some ⟨p, ⟨true, true, false, true⟩⟩))

def onePage : PageTable := onePageAt 7

theorem onePageAt_leaf {p v : Nat} (h : (onePageAt p).leaf v ≠ none) : v = 0 := by
  obtain ⟨pte, hpte⟩ := Option.ne_none_iff_exists'.mp h
  have hentry := lowTable_leaf hpte
  rw [Node.entry_set] at hentry
  by_contra hv
  rw [if_neg hv] at hentry
  cases hentry

theorem onePageAt_distinct (p : Nat) : DistinctPages (onePageAt p) := fun _ _ _ _ hv _ hw _ _ =>
  (onePageAt_leaf (by rw [hv]; exact Option.some_ne_none _)).trans
    (onePageAt_leaf (by rw [hw]; exact Option.some_ne_none _)).symm

theorem onePage_leaf {v : Nat} (h : onePage.leaf v ≠ none) : v = 0 := onePageAt_leaf h

theorem onePage_distinct : DistinctPages onePage := onePageAt_distinct 7

/-- A valid user page at physical address 0: the copies take the result of `walkaddr` for a
failure. -/
theorem copies_fail_at_zero : DistinctPages (onePageAt 0) ∧
    (onePageAt 0).leaf 0 = some ⟨0, ⟨true, true, false, true⟩⟩ ∧
    UserCopy.copyout (onePageAt 0) ⟨[], fun _ => Bytes.zero⟩ 100 [1] =
    (false, ⟨[], fun _ => Bytes.zero⟩) ∧
    UserCopy.copyin (onePageAt 0) ⟨[], fun _ => Bytes.zero⟩ [] 100 1 = (false, []) ∧
    UserCopy.copyinstr (onePageAt 0) ⟨[], fun _ => Bytes.zero⟩ [] 100 1 = (false, []) := by
  have hwalk : walkaddr (onePageAt 0) (PGROUNDDOWN 100) = none := by decide
  refine ⟨onePageAt_distinct 0, by decide, ?_, ?_, ?_⟩
  · rw [UserCopy.copyout, if_pos (by decide)]
    simp only [hwalk]
  · rw [UserCopy.copyin, if_pos (by decide)]
    simp only [hwalk]
  · rw [UserCopy.copyinstr, if_pos (by decide)]
    simp only [hwalk]

theorem copies_exact_onePage :
    DistinctPages onePage ∧ (UserCopy.copyout onePage ⟨[], fun _ => Bytes.zero⟩ 4094 [1, 2]).1 =
    true ∧
      (UserCopy.copyout onePage ⟨[], fun _ => Bytes.zero⟩ 4094 [1, 2, 3]).1 = false := by
  obtain ⟨hout, -⟩ := copies_exact onePage onePage_distinct ⟨[], fun _ => Bytes.zero⟩
    4094 (by decide)
  refine ⟨onePage_distinct, ?_, ?_⟩
  · obtain ⟨k, -, hok, -⟩ := hout [1, 2]
    refine hok.mpr fun a hle hlt => ?_
    rw [show a / PGSIZE = 0 by simp only [PGSIZE, List.length_cons, List.length_nil] at *; omega]
    exact ⟨by decide, ⟨7, ⟨true, true, false, true⟩⟩, by decide, rfl, by decide⟩
  · obtain ⟨k, -, hok, -⟩ := hout [1, 2, 3]
    refine Bool.eq_false_iff.mpr fun h => ?_
    obtain ⟨-, pte, hleaf, -⟩ := hok.mp h 4096 (by decide) (by decide)
    exact absurd (onePage_leaf (v := 4096 / PGSIZE) (by rw [hleaf]; exact Option.some_ne_none _))
      (by decide)

end Xv6.Vm
