import Xv6.Log.Protocol

/-! # What the disk and the cache hold

The invariant follows the disk through `commit` and `recover_from_log`. Up to the
header write the home blocks hold the groups already committed; from the header
write on, the log blocks named by the on-disk header hold the new values of every
home block not yet installed. In every phase the disk alone determines the first
`durable` groups, which is all a crash keeps and all that recovery reads.
-/

namespace Xv6.Log

open Lib State

variable {g : Geometry} {d₀ : Nat → Block} {s s' : State}

/-! ## The log's blocks and home blocks -/

theorem Geometry.inLog_start (g : Geometry) : g.InLog g.start := by
  have := g.size_pos
  exact ⟨Nat.le_refl _, by omega⟩

/-- A list of block numbers that `write_head` can store. -/
structure ValidHead (g : Geometry) (l : List Nat) : Prop where
  home : ∀ b ∈ l, g.Home b
  lt : ∀ b ∈ l, b < 2 ^ 32
  nodup : l.Nodup
  le_logsize : l.length ≤ LOGSIZE
  le_size : l.length ≤ g.size - 1

theorem validHead_nil (g : Geometry) : ValidHead g [] :=
  ⟨by simp, by simp, List.nodup_nil, by simp, by simp⟩

theorem ValidHead.inLog {l : List Nat} (h : ValidHead g l) {i : Nat} (hi : i < l.length) :
    g.InLog (g.start + i + 1) := by
  have := h.le_size
  exact ⟨by omega, by omega⟩

theorem ValidHead.absorb {l : List Nat} {b : Nat} (h : ValidHead g l) (hb : g.Home b)
    (hlt : b < 2 ^ 32) (h1 : l.length < LOGSIZE) (h2 : l.length < g.size - 1) :
    ValidHead g (absorb l b) := by
  unfold Log.absorb
  split
  · exact h
  · rename_i hmem
    refine ⟨?_, ?_, ?_, by simp; omega, by simp; omega⟩
    · intro c hc
      rcases List.mem_append.mp hc with hc | hc
      · exact h.home c hc
      · rw [List.mem_singleton.mp hc]; exact hb
    · intro c hc
      rcases List.mem_append.mp hc with hc | hc
      · exact h.lt c hc
      · rw [List.mem_singleton.mp hc]; exact hlt
    · exact List.nodup_append.mpr ⟨h.nodup, List.nodup_singleton b, by
        intro x hx y hy hxy
        rw [List.mem_singleton.mp hy] at hxy
        exact hmem (hxy ▸ hx)⟩

theorem ne_of_home_of_inLog {b c : Nat} (hb : g.Home b) (hc : g.InLog c) : b ≠ c := by
  rintro rfl
  exact hb hc

theorem mem_absorb {l : List Nat} {b c : Nat} : c ∈ absorb l b ↔ c ∈ l ∨ c = b := by
  unfold absorb
  split
  · rename_i h
    constructor
    · exact Or.inl
    · rintro (h' | rfl)
      · exact h'
      · exact h
  · simp

/-! ## Groups of updates -/

theorem writes_append (us vs : List Update) : writes (us ++ vs) = writes us ++ writes vs := by
  simp [writes]

theorem applyGroups_append (d : Nat → Block) (gs : List (List Update)) (us : List Update) :
    applyGroups d (gs ++ [us]) = replay (writes us) (applyGroups d gs) := by
  simp [applyGroups, writes_append, replay_append]

theorem replay_writes_of_not_mem {us : List Update} {b : Nat} (h : ∀ u ∈ us, u.block ≠ b)
    (d : Nat → Block) : replay (writes us) d b = d b := by
  apply replay_of_not_mem
  simp only [writes, List.map_map, List.mem_map, not_exists, not_and]
  intro u hu
  exact h u hu

theorem replay_writes_concat (us : List Update) (u : Update) (d : Nat → Block) :
    replay (writes (us ++ [u])) d = Function.update (replay (writes us) d) u.block u.data := by
  rw [writes_append, replay_append]
  rfl

/-! ## What the disk determines -/

/-- Installing the log entries of disk `d` would make its home blocks equal `t`. -/
structure Recoverable (g : Geometry) (d t : Nat → Block) : Prop where
  valid : ValidHead g (decodeHead (d g.start))
  outside : ∀ b, g.Home b → b ∉ decodeHead (d g.start) → d b = t b
  copied : ∀ i b, (decodeHead (d g.start))[i]? = some b → d (g.start + i + 1) = t b

structure Installing (g : Geometry) (s : State) (t : Nat → Block) (tail : Nat) : Prop where
  head : decodeHead (s.disk g.start) = s.lh
  copied : ∀ i b, s.lh[i]? = some b → s.disk (g.start + i + 1) = t b
  disk : ∀ b, g.Home b → b ∉ s.lh.drop tail → s.disk b = t b

theorem Installing.recoverable {t : Nat → Block} {tail : Nat} (h : Installing g s t tail)
    (hv : ValidHead g s.lh) : Recoverable g s.disk t := by
  refine ⟨by rw [h.head]; exact hv, ?_, ?_⟩
  · rw [h.head]
    intro b hb hmem
    exact h.disk b hb (fun hd => hmem (List.mem_of_mem_drop hd))
  · rw [h.head]
    exact h.copied

theorem recoverable_of_head_nil {d t : Nat → Block} (hh : decodeHead (d g.start) = [])
    (hd : ∀ b, g.Home b → d b = t b) : Recoverable g d t := by
  refine ⟨?_, ?_, ?_⟩
  · rw [hh]; exact validHead_nil g
  · intro b hb _; exact hd b hb
  · rw [hh]; simp

/-- The history the disk must reflect: all closed groups, and the durable ones. -/
def full (d₀ : Nat → Block) (s : State) : Nat → Block := applyGroups d₀ s.hist

def kept (d₀ : Nat → Block) (s : State) : Nat → Block :=
  applyGroups d₀ (s.hist.take s.durable)

/-- What the cached buffer of a home block holds: the open group's updates over the
closed groups while the kernel runs, a copy of the disk while it boots. -/
def current (d₀ : Nat → Block) (s : State) : Nat → Block :=
  match s.phase with
  | .idle => replay (writes s.cur) (full d₀ s)
  | .boot | .recover _ => s.disk
  | _ => full d₀ s

theorem current_idle (hp : s.phase = .idle) :
    current d₀ s = replay (writes s.cur) (full d₀ s) := by
  simp only [current, hp]

/-! ## The invariant, phase by phase -/

/-- No commit is running; the open group is only in the cache. -/
structure IdleInv (g : Geometry) (d₀ : Nat → Block) (s : State) : Prop where
  head : decodeHead (s.disk g.start) = []
  disk : ∀ b, g.Home b → s.disk b = full d₀ s b
  logged : ∀ u ∈ s.cur, u.block ∈ s.lh
  durable : s.durable = s.hist.length

/-- The group is closed and its first `tail` blocks are in the log; the on-disk
header is still empty. -/
structure ClosingInv (g : Geometry) (d₀ : Nat → Block) (s : State) (tail : Nat) : Prop where
  head : decodeHead (s.disk g.start) = []
  disk : ∀ b, g.Home b → s.disk b = kept d₀ s b
  outside : ∀ b, b ∉ s.lh → full d₀ s b = kept d₀ s b
  copied : ∀ i b, i < tail → s.lh[i]? = some b → s.disk (g.start + i + 1) = full d₀ s b
  tail_le : tail ≤ s.lh.length
  durable : s.durable < s.hist.length

structure InstallInv (g : Geometry) (d₀ : Nat → Block) (s : State) (tail : Nat) : Prop where
  installing : Installing g s (full d₀ s) tail
  durable : s.durable = s.hist.length
  returned : s.returned < s.hist.length

structure CommittedInv (g : Geometry) (d₀ : Nat → Block) (s : State) : Prop where
  head : decodeHead (s.disk g.start) = []
  disk : ∀ b, g.Home b → s.disk b = full d₀ s b
  lh : s.lh = []
  durable : s.durable = s.hist.length

def PhaseInv (g : Geometry) (d₀ : Nat → Block) (s : State) : Prop :=
  match s.phase with
  | .idle => IdleInv g d₀ s
  | .commit => ClosingInv g d₀ s 0
  | .writeLog tail => ClosingInv g d₀ s tail
  | .install tail => InstallInv g d₀ s tail
  | .committed => CommittedInv g d₀ s
  | .boot => Recoverable g s.disk (kept d₀ s) ∧ s.lh = []
  | .recover tail => Installing g s (kept d₀ s) tail

theorem phaseInv_idle (hp : s.phase = .idle) : PhaseInv g d₀ s ↔ IdleInv g d₀ s := by
  simp only [PhaseInv, hp]

theorem PhaseInv.with_cache (h : PhaseInv g d₀ s) (c : Nat → Option Block) :
    PhaseInv g d₀ { s with cache := c } := by
  unfold PhaseInv at h ⊢
  simp only
  split at h
  · exact ⟨h.head, h.disk, h.logged, h.durable⟩
  · exact ⟨h.head, h.disk, h.outside, h.copied, h.tail_le, h.durable⟩
  · exact ⟨h.head, h.disk, h.outside, h.copied, h.tail_le, h.durable⟩
  · exact ⟨⟨h.installing.head, h.installing.copied, h.installing.disk⟩, h.durable, h.returned⟩
  · exact ⟨h.head, h.disk, h.lh, h.durable⟩
  · exact h
  · exact ⟨h.head, h.copied, h.disk⟩

structure Inv (g : Geometry) (d₀ : Nat → Block) (s : State) : Prop where
  protocol : Protocol s
  valid : ValidHead g s.lh
  coherent : ∀ b v, g.InLog b → s.cache b = some v → v = s.disk b
  cache : ∀ b v, g.Home b → s.cache b = some v → v = current d₀ s b
  pinned : ∀ b ∈ s.pinned, (s.cache b).isSome
  closed : s.phase ≠ .idle → s.cur = []
  returned_le : s.returned ≤ s.settled
  settled_le : s.settled ≤ s.durable
  durable_le : s.durable ≤ s.hist.length
  phase : PhaseInv g d₀ s

theorem kept_eq_full (hd : s.durable = s.hist.length) : kept d₀ s = full d₀ s := by
  rw [kept, full, hd, List.take_length]

theorem Inv.recoverable (h : Inv g d₀ s) : Recoverable g s.disk (kept d₀ s) := by
  have hp := h.phase
  unfold PhaseInv at hp
  split at hp
  · exact recoverable_of_head_nil hp.head (by rw [kept_eq_full hp.durable]; exact hp.disk)
  · exact recoverable_of_head_nil hp.head hp.disk
  · exact recoverable_of_head_nil hp.head hp.disk
  · rw [kept_eq_full hp.durable]; exact hp.installing.recoverable h.valid
  · exact recoverable_of_head_nil hp.head (by rw [kept_eq_full hp.durable]; exact hp.disk)
  · exact hp.1
  · exact hp.recoverable h.valid

/-- A home block whose buffer the cache may drop has its current value on disk. -/
theorem Inv.disk_of_not_pinned (h : Inv g d₀ s) {b : Nat} (hb : g.Home b) (hpin : b ∉ s.pinned) :
    s.disk b = current d₀ s b := by
  have hp := h.phase
  unfold PhaseInv at hp
  unfold current
  unfold State.pinned at hpin
  split at hp <;> rename_i heq <;> simp only [heq] at hpin ⊢
  · rw [hp.disk b hb]
    refine (replay_writes_of_not_mem ?_ _).symm
    rintro u hu rfl
    exact hpin (hp.logged u hu)
  · rw [hp.disk b hb, hp.outside b hpin]
  · rw [hp.disk b hb, hp.outside b hpin]
  · exact hp.installing.disk b hb hpin
  · exact hp.disk b hb

theorem bread_eq {b : Nat} {x : Block} (hc : ∀ v, s.cache b = some v → v = x)
    (hd : s.cache b = none → s.disk b = x) : s.bread b = x := by
  unfold State.bread
  cases hcb : s.cache b with
  | none => exact hd hcb
  | some v => exact hc v hcb

theorem Inv.bread_inLog (h : Inv g d₀ s) {b : Nat} (hb : g.InLog b) : s.bread b = s.disk b :=
  bread_eq (h.coherent b · hb) (fun _ => rfl)

theorem Inv.bread_home (h : Inv g d₀ s) {b : Nat} (hb : g.Home b) :
    s.bread b = current d₀ s b := by
  refine bread_eq (h.cache b · hb) (fun hnone => h.disk_of_not_pinned hb (fun hpin => ?_))
  simpa [hnone] using h.pinned b hpin

end Xv6.Log
