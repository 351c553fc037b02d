import Xv6.Bio.Invariant

/-! # The buffer cache in every reachable state

What one step of a process can do to the cache, and from it the representation of the cache
in every run.
-/

namespace Xv6.Bio

open Function Lib

section

variable {δ : Type} {N : Nat} {s s' : State δ} {p b c dev blockno : Nat}

/-- The references to each buffer can be counted, with one more. -/
def Countable (N : Nat) (s : State δ) : Prop := ∀ b, b < NBUF → s.refs N b + 1 < 2 ^ 32

instance (N : Nat) (s : State δ) : Decidable (Countable N s) :=
  inferInstanceAs (Decidable (∀ b, b < NBUF → _))

theorem block_update {x : Buf δ} (hbuf : s'.buf = update s.buf b x)
    (hblock : x.dev = (s.buf b).dev ∧ x.blockno = (s.buf b).blockno) (c : Nat) :
    (s'.buf c).dev = (s.buf c).dev ∧ (s'.buf c).blockno = (s.buf c).blockno := by
  rw [hbuf]
  by_cases hcb : c = b
  · rw [hcb, update_self]
    exact hblock
  · rw [update_of_ne hcb]
    exact ⟨rfl, rfl⟩

/-! ## `bget` -/

theorem Inv.lookup_eq (h : Inv N s) (dev blockno : Nat) : ∃ r, s.lookup dev blockno = some r ∧
    match r with
    | some b => s.Carries (b, dev, blockno)
    | none => ∀ c, c < NBUF → ¬ ((s.buf c).dev = dev ∧ (s.buf c).blockno = blockno) := by
  obtain ⟨l, hperm, hring⟩ := h.ring
  refine ⟨_, hring.walk_next (by rw [hperm.length_eq, List.length_range]; exact Nat.lt_succ_self _),
    ?_⟩
  split
  · rename_i b hfind
    have hb := List.mem_range.mp (hperm.mem_iff.mp (List.mem_of_find?_eq_some hfind))
    have hmatch := List.find?_some hfind
    simp only [Bool.and_eq_true, decide_eq_true_eq] at hmatch
    exact ⟨hb, hmatch⟩
  · rename_i hfind
    intro c hc hmatch
    have hnone := List.find?_eq_none.mp hfind c (hperm.mem_iff.mpr (List.mem_range.mpr hc))
    simp [hmatch] at hnone

theorem Inv.unused_eq (h : Inv N s) : ∃ r, s.unused = some r ∧ ∀ b ∈ r, b < NBUF ∧
    s.refs N b = 0 := by
  obtain ⟨l, hperm, hring⟩ := h.ring
  refine ⟨_, hring.walk_prev (by rw [hperm.length_eq, List.length_range]; exact Nat.lt_succ_self _),
    fun b hfind => ?_⟩
  have hmem := List.mem_reverse.mp (List.mem_of_find?_eq_some hfind)
  have hb := List.mem_range.mp (hperm.mem_iff.mp hmem)
  have hzero := List.find?_some hfind
  rw [decide_eq_true_eq] at hzero
  exact ⟨hb, (h.count b hb).symm.trans hzero⟩

/-- `bget` finds the buffer of the block, takes a buffer without references, or panics. -/
theorem Inv.bget (h : Inv N s) (dev blockno : Nat) (hp : p < N) (hidle : (s.proc p).phase = .idle)
    (hroom : Countable N s) : (s.bget dev blockno).Sat (fun f => f = .bgetNoBuffers)
      (fun r => Inv N (r.1.setProc p { s.proc p with phase := .waiting r.2 dev blockno }) ∧
        ∀ c, c < NBUF → 0 < s.refs N c →
          (r.1.buf c).dev = (s.buf c).dev ∧ (r.1.buf c).blockno = (s.buf c).blockno) := by
  obtain ⟨r, hlookup, hr⟩ := h.lookup_eq dev blockno
  unfold State.bget
  rw [hlookup]
  cases r with
  | some b =>
    exact .next ⟨h.reserve hp hidle hr (hroom b hr.1),
      fun c _ _ => block_update rfl (by exact ⟨rfl, rfl⟩) c⟩
  | none =>
    obtain ⟨u, hunused, hu⟩ := h.unused_eq
    dsimp only
    rw [hunused]
    cases u with
    | none => exact .fault rfl
    | some b =>
      obtain ⟨hb, hfree⟩ := hu b rfl
      have hrefcnt : (s.buf b).refcnt = 0 := (h.count b hb).trans hfree
      have hs₁ := h.rename hb hfree hr
      have hcarries : State.Carries
          (s.setBuf b { s.buf b with dev := dev, blockno := blockno, valid := false })
          (b, dev, blockno) := by
        refine ⟨hb, ?_, ?_⟩ <;> simp [State.setBuf]
      have hres := hs₁.reserve hp hidle hcarries (hroom b hb)
      refine .next ⟨?_, fun c _ hpos => ?_⟩
      · have hstate : s.setBuf b { s.buf b with
          dev := dev, blockno := blockno, valid := false, refcnt := 1 } =
            (s.setBuf b { s.buf b with dev := dev, blockno := blockno, valid := false }).incr
                b := by
          simp [State.incr, State.setBuf, hrefcnt]
        dsimp only
        rw [hstate]
        exact hres
      · have hcb : c ≠ b := by
          rintro rfl
          omega
        simp [State.setBuf, update_of_ne hcb]

/-! ## Steps -/

/-- What one step does: it keeps the invariant, and no buffer with a reference gets another
block. -/
structure Stepped (N : Nat) (s s' : State δ) : Prop where
  inv : Inv N s'
  kept : ∀ b, b < NBUF → 0 < s.refs N b →
    (s'.buf b).dev = (s.buf b).dev ∧ (s'.buf b).blockno = (s.buf b).blockno

theorem Inv.effect (h : Inv N s) (a : Action δ) (hp : a.actor < N) (hroom : Countable N s) :
    (effect s a).Sat (fun f => f = .bgetNoBuffers) (Stepped N s) := by
  cases a with
  | bget p dev blockno =>
    refine .guard fun hidle => ?_
    have hget := h.bget dev blockno hp hidle hroom
    split
    · rename_i s₁ b hs₁
      obtain ⟨hinv, hkept⟩ := hget.of_next hs₁
      exact .next ⟨hinv, hkept⟩
    · rename_i f hf
      exact .fault (hget.of_fault hf)
    · exact .blocked
  | acquiresleep p =>
    unfold Bio.effect
    dsimp only
    split
    · rename_i b dev blockno hphase
      split
      · exact .blocked
      · rename_i hlock
        exact .next ⟨h.acquiresleep hp hphase (by simpa using hlock),
          fun c _ _ => block_update rfl (by exact ⟨rfl, rfl⟩) c⟩
    · exact .blocked
  | bread p =>
    unfold Bio.effect
    dsimp only
    split
    · rename_i b dev blockno hphase
      refine .next ⟨h.bread hp hphase, fun c _ _ => ?_⟩
      change ((s.fill b).buf c).dev = _ ∧ ((s.fill b).buf c).blockno = _
      unfold State.fill
      split
      · exact ⟨rfl, rfl⟩
      · exact block_update rfl (by exact ⟨rfl, rfl⟩) c
    · exact .blocked
  | store p b v =>
    exact .guard fun hhas => .next ⟨h.store hp (h.holding hp hhas).1 v,
      fun c _ _ => block_update rfl (by exact ⟨rfl, rfl⟩) c⟩
  | bwrite p b =>
    change Outcome.Sat _ _ (if s.Has p b then if s.holdingsleep p b then _ else _ else _)
    refine .guard fun hhas => ?_
    have hholding : s.holdingsleep p b = true := (h.holding hp hhas).2.1
    rw [if_pos hholding]
    exact .next ⟨h.setDisk _, fun _ _ _ => ⟨rfl, rfl⟩⟩
  | releasesleep p b =>
    change Outcome.Sat _ _ (if s.Has p b then if s.holdingsleep p b then _ else _ else _)
    refine .guard fun hhas => ?_
    have hholding : s.holdingsleep p b = true := (h.holding hp hhas).2.1
    rw [if_pos hholding]
    exact .next ⟨h.releasesleep hp hhas, fun c _ _ => block_update rfl (by exact ⟨rfl, rfl⟩) c⟩
  | brelse p =>
    unfold Bio.effect
    dsimp only
    split
    · rename_i b hphase
      refine .next ⟨h.release hp hphase, fun c _ _ => ?_⟩
      have hbuf : (s.release b).buf = (s.decr b).buf := by
        unfold State.release
        dsimp only
        split <;> rfl
      change ((s.release b).buf c).dev = _ ∧ ((s.release b).buf c).blockno = _
      rw [hbuf]
      exact block_update rfl (by exact ⟨rfl, rfl⟩) c
    · exact .blocked
  | bpin p b =>
    exact .guard fun hready => .next ⟨h.bpin hp hready.2 (hroom b hready.2),
      fun c _ _ => block_update rfl (by exact ⟨rfl, rfl⟩) c⟩
  | bunpin p b =>
    exact .guard fun hready => .next ⟨h.bunpin hp hready.2.1 hready.2.2,
      fun c _ _ => block_update rfl (by exact ⟨rfl, rfl⟩) c⟩

theorem Inv.step (h : Inv N s) (a : Action δ) (hroom : Countable N s) :
    (step N s a).Sat (fun f => f = .bgetNoBuffers) (Stepped N s) := by
  exact .guard fun hp => h.effect a hp hroom

/-! ## Runs -/

theorem binit_ring (k : Links Nat) {n : Nat} (hn : n ≤ NBUF) :
    Links.Ring ((List.range n).foldl (fun k b => k.insert head b)
      ⟨update k.next head head, update k.prev head head⟩) head
      (List.range n).reverse := by
  induction n with
  | zero => exact ⟨by simp [Links.Path], by simp⟩
  | succ n ih =>
    rw [List.range_succ, List.foldl_append, List.reverse_append]
    refine (ih (Nat.le_of_succ_le hn)).insert ?_
    rw [List.mem_cons, not_or]
    exact ⟨Nat.ne_of_lt hn, by simp⟩

theorem Inv.start (h : Booted s) : Inv N s := by
  obtain ⟨⟨d, hbuf⟩, ⟨k, hlinks⟩, hproc, hpins⟩ := h
  have hrefs : ∀ b, s.refs N b = 0 := by
    intro b
    rw [refs_eq, hproc, hpins]
    simp [Proc.uses, Proc.holds, Phase.locks, Phase.waits, Phase.releases]
  refine ⟨⟨_, List.reverse_perm _, hlinks ▸ binit_ring k le_rfl⟩, fun b c _ _ hdev => ?_,
    fun b _ => ?_, fun b _ => ?_, fun p _ u hu => ?_, fun p _ b hb => ?_, fun p _ b _ => ?_⟩
  · rw [hbuf] at hdev
    exact absurd rfl hdev
  · rw [hrefs, hbuf]
    rfl
  · rw [hbuf]
    exact Nat.two_pow_pos 32
  · rw [hproc] at hu
    cases hu
  · rw [hproc] at hb
    cases hb
  · rw [hproc, hbuf]
    simp [Proc.holds, Phase.locks, Buf.zero]

theorem reach_inv (h : Reach (step N) (fun s _ => Countable N s) Booted s) : Inv N s :=
  h.invariant (fun _ => Inv.start) fun _ a _ hs hroom hstep => ((hs.step a hroom).of_next hstep).inv

/-- As long as no buffer has `2 ^ 32 - 1` references, in every reachable state the links
form one ring of the head and all buffers; no two buffers carry the same block of a device;
each reference count is the number of holders, waiters, processes inside `brelse` and pins, and
it is positive where it will be decremented; a step gives no buffer with a reference
another block, and panics only for want of a buffer; and the buffers that `bread` has
returned carry the blocks that were asked for. -/
theorem buffer_cache_representation (N : Nat) (s : State δ)
    (hreach : Reach (step N) (fun s _ => Countable N s) Booted s) :
    (∃ l, l.Perm (List.range NBUF) ∧ s.links.Ring head l) ∧
    (∀ b c, b < NBUF → c < NBUF → (s.buf b).dev ≠ 0 → (s.buf c).dev = (s.buf b).dev →
      (s.buf c).blockno = (s.buf b).blockno → c = b) ∧
    (∀ b, b < NBUF →
      (s.buf b).refcnt = s.holders N b + s.waiters N b + s.releasers N b + s.pins b ∧
      (0 < s.releasers N b ∨ 0 < s.pins b → 0 < (s.buf b).refcnt)) ∧
    (∀ a, Countable N s → (∀ f, step N s a = .fault f → f = .bgetNoBuffers) ∧
      ∀ s', step N s a = .next s' → ∀ b, b < NBUF → 0 < s.holders N b + s.waiters N b + s.pins b →
        (s'.buf b).dev = (s.buf b).dev ∧ (s'.buf b).blockno = (s.buf b).blockno) ∧
    ∀ p, p < N → ∀ u ∈ (s.proc p).held, u.1 < NBUF ∧ (s.buf u.1).dev = u.2.1 ∧
    (s.buf u.1).blockno = u.2.2 := by
  have h := reach_inv hreach
  refine ⟨h.ring, h.unique, fun b hb => ?_,
    fun a hroom => ⟨fun f hf => ?_, fun s' hs' b hb hpos => ?_⟩, fun p hp u hu => ?_⟩
  · have hcount := h.count b hb
    refine ⟨hcount, fun hpos => ?_⟩
    unfold State.refs at hcount
    omega
  · exact (h.step a hroom).of_fault hf
  · refine ((h.step a hroom).of_next hs').kept b hb ?_
    unfold State.refs
    omega
  · refine h.named p hp u ?_
    unfold Proc.names
    split
    · exact List.mem_cons_of_mem _ hu
    · exact List.mem_cons_of_mem _ hu
    · exact hu
    · exact hu

/-! ## Runs of two processes -/

def fresh : State Nat := ⟨fun _ _ => 0, fun _ => .zero 0, binit ⟨id, id⟩,
    fun _ => ⟨.idle, []⟩, fun _ => 0⟩

theorem fresh_booted : Booted fresh := ⟨⟨0, rfl⟩, ⟨⟨id, id⟩, rfl⟩, rfl, rfl⟩

/-- One process waits for a buffer while the other changes, pins and releases it. -/
def sharedRun : List (Action Nat) :=
  [.bget 0 1 5, .acquiresleep 0, .bread 0, .bget 1 1 5, .store 0 0 7, .bpin 0 0, .releasesleep 0 0,
    .acquiresleep 1, .brelse 0, .bread 1]

theorem buffer_cache_representation_sharedRun :
    ∃ s : State Nat, Reach (step 2) (fun s _ => Countable 2 s) Booted s ∧
    (s.proc 1).held = [(0, 1, 5)] ∧ (s.buf 0).refcnt = 2 ∧
    (s.buf 0).refcnt = s.holders 2 0 + s.waiters 2 0 + s.releasers 2 0 + s.pins 0 := by
  have hrun : ((Lib.exec (step 2) fresh sharedRun).next?.map fun s =>
      (decide (Guarded (step 2) (fun s _ => Countable 2 s) fresh sharedRun), (s.proc 1).held,
        (s.buf 0).refcnt)) = some (true, [(0, 1, 5)], 2) := by
    decide +kernel
  obtain ⟨s, hs, heq⟩ := Option.map_eq_some_iff.mp hrun
  simp only [Prod.mk.injEq, decide_eq_true_eq] at heq
  have hreach := Reach.of_exec (.start fresh_booted) heq.1 (Outcome.next?_eq_some.mp hs)
  exact ⟨s, hreach, heq.2.1, heq.2.2,
    ((buffer_cache_representation 2 s hreach).2.2.1 0 (by decide)).1⟩

/-- Buffer 0 after `n` more calls of `bpin`. -/
def State.pinned (s : State δ) (n : Nat) : State δ :=
  { s.setBuf 0 { s.buf 0 with refcnt := ((s.buf 0).refcnt + n) % 2 ^ 32 } with
    pins := update s.pins 0 (s.pins 0 + n) }

theorem reach_pinned (n : Nat) (hidle : (s.proc 0).phase = .idle) (hN : 0 < N)
    (hsmall : (s.buf 0).refcnt < 2 ^ 32) (h : Reach (step N) (fun _ _ => True) Booted s) :
    Reach (step N) (fun _ _ => True) Booted (s.pinned n) := by
  induction n with
  | zero =>
    have hsame : s.pinned 0 = s := by
      unfold State.pinned State.setBuf
      rw [Nat.add_zero, Nat.mod_eq_of_lt hsmall, Nat.add_zero]
      simp
    rw [hsame]
    exact h
  | succ n ih =>
    refine ih.step (.bpin 0 0) trivial ?_
    have hready : ((s.pinned n).proc 0).phase = .idle ∧ 0 < NBUF := ⟨hidle, by decide⟩
    unfold Bio.step
    rw [if_pos (show Action.actor (Action.bpin (δ := δ) 0 0) < N from hN)]
    change (if ((s.pinned n).proc 0).phase = .idle ∧ 0 < NBUF then _ else _) = _
    rw [if_pos hready]
    simp [State.pinned, State.incr, State.setBuf, Nat.add_assoc]

/-- After `2 ^ 32 - 1` calls of `bpin` the reference count of a buffer that a process holds
is zero, and the next `bget` of another process takes the buffer for another block. -/
theorem refcnt_wraps : ∃ s s' : State Nat, Reach (step 2) (fun _ _ => True) Booted s ∧
    (s.proc 0).held = [(0, 1, 5)] ∧ s.pins 0 = 2 ^ 32 - 1 ∧ (s.buf 0).refcnt = 0 ∧
    step 2 s (.bget 1 1 6) = .next s' ∧ (s'.buf 0).blockno = 6 := by
  have hrun : ((Lib.exec (step 2) fresh [.bget 0 1 5, .acquiresleep 0, .bread 0]).next?.bind
      fun s =>
      (step 2 (s.pinned (2 ^ 32 - 1)) (.bget 1 1 6)).next?.map fun s' =>
        (decide ((s.proc 0).phase = .idle ∧ (s.buf 0).refcnt = 1 ∧ s.pins 0 = 0), (s.proc 0).held,
          (s'.buf 0).blockno)) = some (true, [(0, 1, 5)], 6) := by
    decide +kernel
  obtain ⟨s, hs, hmap⟩ := Option.bind_eq_some_iff.mp hrun
  obtain ⟨s', hs', heq⟩ := Option.map_eq_some_iff.mp hmap
  simp only [Prod.mk.injEq, decide_eq_true_eq] at heq
  obtain ⟨⟨hidle, hrefcnt, hpins⟩, hheld, hblock⟩ := heq
  have hreach := Reach.of_exec (.start fresh_booted) (Guarded.of_forall (fun _ _ => trivial) _ _)
    (Outcome.next?_eq_some.mp hs)
  refine ⟨s.pinned (2 ^ 32 - 1), s', reach_pinned _ hidle (by decide) (by rw [hrefcnt]; decide)
    hreach, hheld, ?_, ?_, Outcome.next?_eq_some.mp hs', hblock⟩
  · simp [State.pinned, hpins]
  · simp [State.pinned, State.setBuf, hrefcnt]

end

end Xv6.Bio
