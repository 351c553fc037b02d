import Mathlib.Algebra.Order.BigOperators.Group.List
import Mathlib.Data.List.Dedup
import Xv6.Log.Crash

/-! # Log reservation

`begin_op` admits an operation when the log could still hold `MAXOPBLOCKS` blocks
for it and for every other open operation, counting on `LOGSIZE` data blocks.
`mkfs` lays out `LOGSIZE` blocks of which one is the header, and `log_write` checks
for room before it looks for a block to absorb into.
-/

namespace Xv6.Log

open Lib State

variable {g : Geometry} {d₀ : Nat → Block} {s s' : State}

def blocks (us : List Update) : List Nat := (us.map (·.block)).dedup

theorem mem_blocks {us : List Update} {b : Nat} : b ∈ blocks us ↔ ∃ u ∈ us, u.block = b := by
  simp [blocks]

/-! ## Guards on `log_write` -/

def opBlocks (us : List Update) (op : Nat) : List Nat := blocks (us.filter fun u => u.op = op)

/-- `log_write` stays within `m` distinct blocks for the operation that calls it. -/
def OpBound (m : Nat) (s : State) : Action → Prop
  | .logWrite op b v => (opBlocks (s.cur ++ [⟨op, b, v⟩]) op).length ≤ m
  | _ => True

instance (m : Nat) (s : State) : (a : Action) → Decidable (OpBound m s a)
  | .logWrite .. => inferInstanceAs (Decidable (_ ≤ _))
  | .beginOp | .endOp _ | .advance | .fill _ | .recycle _ | .crash => isTrue trivial

/-! ## The reservation -/

/-- Blocks that the open operations may still log, of `MAXOPBLOCKS - 1` each. -/
def reserve (s : State) : Nat :=
  (s.active.map fun o => MAXOPBLOCKS - 1 - (opBlocks s.cur o).length).sum

/-- While no commit runs, the header and the reservations together leave room for
one more `log_write`. -/
structure Reserved (s : State) : Prop where
  empty : s.phase = .idle → s.active = [] → s.lh = []
  fits : s.phase = .idle → s.lh.length + reserve s ≤ LOGSIZE - 2

theorem Reserved.of_busy (h : s.phase ≠ .idle) : Reserved s :=
  ⟨fun hi => absurd hi h, fun hi => absurd hi h⟩

theorem Reserved.of_nil (hlh : s.lh = []) (hact : s.active = []) : Reserved s :=
  ⟨fun _ _ => hlh, fun _ => by simp [hlh, reserve, hact]⟩

theorem reserve_le (s : State) : reserve s ≤ s.active.length * (MAXOPBLOCKS - 1) := by
  have := List.sum_le_card_nsmul (s.active.map fun o => MAXOPBLOCKS - 1 - (opBlocks s.cur o).length)
    (MAXOPBLOCKS - 1) (by simp)
  simpa [reserve] using this

theorem Reserved.beginOp (h : Reserved s) (hp : Protocol s) (hs : beginOp s = .next s') :
    Reserved s' := by
  obtain ⟨-, -, hroom, rfl⟩ := beginOp_next hs
  refine ⟨fun _ hnil => absurd hnil (List.cons_ne_nil _ _), fun hidle => ?_⟩
  have hnew : reserve { s with
      outstanding := s.outstanding + 1
      active := s.nextOp :: s.active
      nextOp := s.nextOp + 1 } ≤ (s.outstanding + 1) * (MAXOPBLOCKS - 1) := by
    have := reserve_le { s with
      outstanding := s.outstanding + 1
      active := s.nextOp :: s.active
      nextOp := s.nextOp + 1 }
    simpa [hp.count] using this
  simp only [MAXOPBLOCKS, LOGSIZE] at hroom hnew ⊢
  by_cases hout : s.outstanding = 0
  · -- the first operation of a group finds an empty header
    have hact : s.active = [] := List.eq_nil_of_length_eq_zero (hp.count ▸ hout)
    have hlh := h.empty hidle hact
    simp only [hout, hlh, List.length_nil] at hnew ⊢
    omega
  · omega

theorem opBlocks_concat_of_ne {us : List Update} {u : Update} {o : Nat} (h : u.op ≠ o) :
    opBlocks (us ++ [u]) o = opBlocks us o := by
  simp [opBlocks, List.filter_append, h]

theorem blocks_length_le_concat (us : List Update) (u : Update) :
    (blocks us).length ≤ (blocks (us ++ [u])).length := by
  refine (List.Nodup.subperm (List.nodup_dedup _) fun b hb => ?_).length_le
  obtain ⟨w, hw, hwb⟩ := mem_blocks.mp hb
  exact mem_blocks.mpr ⟨w, List.mem_append_left _ hw, hwb⟩

theorem blocks_concat_of_not_mem {us : List Update} {u : Update} (h : u.block ∉ blocks us) :
    (blocks us).length + 1 ≤ (blocks (us ++ [u])).length := by
  have hnd : (u.block :: blocks us).Nodup := List.nodup_cons.mpr ⟨h, List.nodup_dedup _⟩
  refine (List.Nodup.subperm hnd fun b hb => ?_).length_le
  rcases List.mem_cons.mp hb with rfl | hb
  · exact mem_blocks.mpr ⟨u, by simp, rfl⟩
  · obtain ⟨w, hw, hwb⟩ := mem_blocks.mp hb
    exact mem_blocks.mpr ⟨w, List.mem_append_left _ hw, hwb⟩

theorem opBlocks_concat_self (us : List Update) (u : Update) :
    opBlocks (us ++ [u]) u.op = blocks (us.filter (fun w => w.op = u.op) ++ [u]) := by
  simp [opBlocks, List.filter_append]

theorem Reserved.logWrite {op b : Nat} {v : Block} (h : Reserved s) (hinv : Inv g d₀ s)
    (hbound : OpBound (MAXOPBLOCKS - 1) s (.logWrite op b v))
    (hs : logWrite g s op b v = .next s') : Reserved s' := by
  obtain ⟨⟨hop, -, -⟩, -, -, rfl⟩ := logWrite_next hs
  have hidle := hinv.protocol.idle_of_mem hop
  have hfits := h.fits hidle
  have hp := (phaseInv_idle hidle).mp hinv.phase
  have hself := opBlocks_concat_self s.cur ⟨op, b, v⟩
  simp only at hself
  refine ⟨fun _ hnil => ?_, fun _ => ?_⟩
  · simp only [setBuf] at hnil
    rw [hnil] at hop
    cases hop
  · -- logging can only use up the reservation of the operation that logs
    have hle : ∀ o ∈ s.active, MAXOPBLOCKS - 1 - (opBlocks (s.cur ++ [⟨op, b, v⟩]) o).length ≤
        MAXOPBLOCKS - 1 - (opBlocks s.cur o).length := by
      intro o _
      by_cases ho : op = o
      · subst ho
        have := blocks_length_le_concat (s.cur.filter fun w => w.op = op) ⟨op, b, v⟩
        rw [hself]
        exact Nat.sub_le_sub_left this _
      · rw [opBlocks_concat_of_ne (by exact ho)]
    by_cases hb : b ∈ s.lh
    · have := List.sum_le_sum hle
      simp only [absorb, hb, if_true, reserve, setBuf] at hfits ⊢
      omega
    · -- a block new to the log is new to the operation
      have hnew : b ∉ blocks (s.cur.filter fun w => w.op = op) := by
        intro hmem
        obtain ⟨w, hw, rfl⟩ := mem_blocks.mp hmem
        exact hb (hp.logged w (List.mem_filter.mp hw).1)
      have hgrow := blocks_concat_of_not_mem (u := ⟨op, b, v⟩) hnew
      simp only [OpBound, hself] at hbound
      have hlt := List.sum_lt_sum _ _ hle ⟨op, hop, by
        rw [hself]
        simp only [opBlocks]
        omega⟩
      simp only [absorb, hb, if_false, reserve, setBuf, List.length_append,
        List.length_singleton] at hfits ⊢
      omega

theorem Reserved.endOp {op : Nat} (h : Reserved s) (hp : Protocol s)
    (hs : endOp s op = .next s') : Reserved s' := by
  obtain ⟨hop, -, ⟨-, rfl⟩ | ⟨hne, rfl⟩⟩ := endOp_next hs
  · exact .of_busy (by simp)
  · refine ⟨fun _ hnil => ?_, fun hidle => ?_⟩
    · have hlen := List.length_erase_of_mem hop
      simp only at hnil
      rw [hnil, ← hp.count] at hlen
      exact absurd hlen.symm hne
    · have hsub := ((List.erase_sublist (a := op) (l := s.active)).map fun o =>
        MAXOPBLOCKS - 1 - (opBlocks s.cur o).length).sum_le_sum (by simp)
      have := h.fits hidle
      simp only [reserve] at this ⊢
      omega

theorem Reserved.advance (hinv : Inv g d₀ s) (hs : advance g s = .next s') : Reserved s' := by
  have hp := hinv.phase
  unfold Log.advance at hs
  split at hs <;> rename_i hph
  · cases hs
  · split at hs <;> cases hs <;> exact .of_busy (by simp)
  · split at hs <;> cases hs <;> exact .of_busy (by simp)
  · split at hs <;> cases hs <;> exact .of_busy (by simp)
  · cases hs
    simp only [PhaseInv, hph] at hp
    exact .of_nil hp.lh (hinv.protocol.quiet (by simp [hph]))
  · cases hs
    exact .of_busy (by simp)
  · split at hs <;> cases hs
    · exact .of_busy (by simp)
    · exact .of_nil rfl (hinv.protocol.quiet (by simp [hph]))

theorem Reserved.step {a : Action} (h : Reserved s) (hinv : Inv g d₀ s)
    (hbound : OpBound (MAXOPBLOCKS - 1) s a) (hs : step g s a = .next s') : Reserved s' := by
  cases a with
  | beginOp => exact h.beginOp hinv.protocol hs
  | logWrite op b v => exact h.logWrite hinv hbound hs
  | endOp op => exact h.endOp hinv.protocol hs
  | advance => exact .advance hinv hs
  | fill b =>
    cases hs
    exact ⟨h.empty, h.fits⟩
  | recycle b =>
    simp only [Log.step] at hs
    split at hs <;> cases hs
    exact ⟨h.empty, h.fits⟩
  | crash =>
    cases hs
    exact .of_nil rfl rfl

/-! ## Faults -/

/-- The reservation keeps room for every `log_write` of an open operation. -/
theorem Reserved.logWrite_ne_fault (h : Reserved s) (hp : Protocol s) (op b : Nat) (v : Block)
    (f : Panic) : Log.logWrite mkfsGeometry s op b v ≠ .fault f := by
  unfold Log.logWrite
  by_cases hen : op ∈ s.active ∧ mkfsGeometry.Home b ∧ b < 2 ^ 32
  · have hfits := h.fits (hp.idle_of_mem hen.1)
    have hsize : mkfsGeometry.size = LOGSIZE := rfl
    have hout : ¬ s.outstanding < 1 := by
      have := List.length_pos_of_mem hen.1
      rw [hp.count]
      omega
    have hroom : ¬ (s.lh.length ≥ LOGSIZE ∨ s.lh.length ≥ mkfsGeometry.size - 1) := by
      rw [hsize]
      simp only [LOGSIZE, MAXOPBLOCKS] at hfits ⊢
      omega
    rw [if_neg (not_not.mpr hen), if_neg hroom, if_neg hout]
    exact fun hf => by cases hf
  · rw [if_pos hen]
    exact fun hf => by cases hf

theorem Reserved.step_ne_fault (h : Reserved s) (hp : Protocol s) (a : Action) (f : Panic) :
    Log.step mkfsGeometry s a ≠ .fault f := by
  cases a with
  | beginOp =>
    simp only [Log.step, Log.beginOp]
    split_ifs <;> simp
  | logWrite op b v => exact h.logWrite_ne_fault hp op b v f
  | endOp op => exact hp.endOp_ne_fault op f
  | advance =>
    simp only [Log.step, Log.advance]
    split <;> try split
    all_goals simp
  | fill b => simp [Log.step]
  | recycle b =>
    simp only [Log.step]
    split <;> simp
  | crash => simp [Log.step]

/-- With the log that `mkfs` lays out, no run panics whose operations log at most
`MAXOPBLOCKS - 1` distinct blocks each, any number of times. Whatever the run, `end_op`
does not panic and `log.lh.n` stays within the log's data blocks. -/
theorem log_reservation (d₀ : Nat → Block) (hclean : decodeHead (d₀ mkfsGeometry.start) = []) :
    (∀ as, Guarded (step mkfsGeometry) (OpBound (MAXOPBLOCKS - 1)) (State.init d₀) as →
      ∀ f, exec (step mkfsGeometry) (State.init d₀) as ≠ .fault f) ∧
    ∀ s, Reach (step mkfsGeometry) (fun _ _ => True) (· = State.init d₀) s →
      (∀ op, endOp s op ≠ .fault .logCommitting) ∧ s.lh.length ≤ mkfsGeometry.size - 1 := by
  constructor
  · intro as hbound
    refine hbound.exec_ne_fault (I := fun s => Inv mkfsGeometry d₀ s ∧ Reserved s) ?_ ?_ ?_
    · rintro s a s' ⟨hinv, h⟩ ha hs
      exact ⟨hinv.step hs, h.step hinv ha hs⟩
    · rintro s a ⟨hinv, h⟩ -
      exact h.step_ne_fault hinv.protocol a
    · exact ⟨inv_init hclean, .of_nil rfl rfl⟩
  · intro s hs
    have hinv := reach_inv hclean hs
    exact ⟨fun op => hinv.protocol.endOp_ne_fault op _, hinv.valid.le_size⟩

/-- Three open operations, each of which logs `MAXOPBLOCKS` distinct blocks. -/
def threeOps : List Action :=
  [.advance, .advance, .beginOp, .beginOp, .beginOp] ++
    (List.range (3 * MAXOPBLOCKS)).map fun i => .logWrite (i / MAXOPBLOCKS) (50 + i) Bytes.zero

/-- The operations keep to `MAXOPBLOCKS` blocks, yet the last of their `log_write`
calls panics. -/
theorem threeOps_panics :
    Guarded (step mkfsGeometry) (OpBound MAXOPBLOCKS) (State.init fun _ => Bytes.zero) threeOps ∧
      exec (step mkfsGeometry) (State.init fun _ => Bytes.zero) threeOps =
        .fault .tooBigATransaction := by
  constructor
  · decide
  · rfl

def threeShortOps : List Action :=
  [.advance, .advance, .beginOp, .beginOp, .beginOp] ++
    (List.range (3 * (MAXOPBLOCKS - 1))).map fun i => .logWrite (i / (MAXOPBLOCKS - 1))
    (50 + i) Bytes.zero

theorem log_reservation_three_ops :
    Guarded (step mkfsGeometry) (OpBound (MAXOPBLOCKS - 1)) (State.init fun _ => Bytes.zero)
        (threeShortOps ++ [.logWrite 2 76 Bytes.zero]) ∧
      exec (step mkfsGeometry) (State.init fun _ => Bytes.zero)
        (threeShortOps ++ [.logWrite 2 76 Bytes.zero]) ≠ .fault .tooBigATransaction :=
  ⟨by decide, (log_reservation (fun _ => Bytes.zero) (by decide)).1 _ (by decide) _⟩

end Xv6.Log
