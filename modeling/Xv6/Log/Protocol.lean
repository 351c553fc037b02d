import Xv6.Log.Model

/-! # The `outstanding`/`committing` protocol

What each critical section can do, said once, and the bookkeeping that follows:
`outstanding` counts the open operations, a commit only runs while none is open,
and the updates of an operation never spread over two commit groups.
-/

namespace Xv6.Log

open Lib

variable {g : Geometry} {s s' : State}

/-! ## What the critical sections do -/

theorem beginOp_next (h : beginOp s = .next s') :
    s.phase.booting = false ∧ s.committing = false ∧
      s.lh.length + (s.outstanding + 1) * MAXOPBLOCKS ≤ LOGSIZE ∧
      s' = { s with
        outstanding := s.outstanding + 1
        active := s.nextOp :: s.active
        nextOp := s.nextOp + 1 } := by
  unfold beginOp at h
  split at h
  · cases h
  · split at h
    · cases h
    · split at h
      · cases h
      · cases h
        refine ⟨?_, ?_, ?_, rfl⟩
        · simp_all
        · simp_all
        · omega

theorem logWrite_next {op : Nat} {b : Nat} {v : Block} (h : logWrite g s op b v = .next s') :
    (op ∈ s.active ∧ g.Home b ∧ b < 2 ^ 32) ∧ s.lh.length < LOGSIZE ∧ s.lh.length < g.size - 1 ∧
      s' = { s.setBuf b v with lh := absorb s.lh b, cur := s.cur ++ [⟨op, b, v⟩] } := by
  unfold logWrite at h
  split at h
  · cases h
  · rename_i hen
    split at h
    · cases h
    · split at h
      · cases h
      · cases h
        exact ⟨not_not.mp hen, by omega, by omega, rfl⟩

theorem endOp_next {op : Nat} (h : endOp s op = .next s') :
    op ∈ s.active ∧ s.committing = false ∧
      (s.outstanding - 1 = 0 ∧ s' = { s with
          outstanding := s.outstanding - 1
          active := s.active.erase op
          committing := true
          phase := .commit
          cur := []
          hist := s.hist ++ [s.cur] } ∨
        s.outstanding - 1 ≠ 0 ∧ s' = { s with
          outstanding := s.outstanding - 1
          active := s.active.erase op }) := by
  unfold endOp at h
  split at h
  · cases h
  · split at h
    · cases h
    · split at h
      · cases h
        exact ⟨by simp_all, by simp_all, Or.inl ⟨by assumption, rfl⟩⟩
      · cases h
        exact ⟨by simp_all, by simp_all, Or.inr ⟨by assumption, rfl⟩⟩

def Phase.committing : Phase → Bool
  | .commit | .writeLog _ | .install _ | .committed => true
  | _ => false

theorem Phase.eq_idle {p : Phase} (hb : p.booting = false) (hc : p.committing = false) :
    p = .idle := by
  cases p with
  | idle => rfl
  | commit | writeLog tail | install tail | committed => cases hc
  | boot | recover tail => cases hb

/-! ## Open operations -/

/-- `outstanding` counts the open operations; a commit or a recovery runs only
while there are none. -/
structure Protocol (s : State) : Prop where
  count : s.outstanding = s.active.length
  nodup : s.active.Nodup
  fresh : ∀ o ∈ s.active, o < s.nextOp
  quiet : s.phase ≠ .idle → s.active = []
  committing : s.committing = s.phase.committing

theorem Protocol.idle_of_mem (h : Protocol s) {o : Nat} (ho : o ∈ s.active) : s.phase = .idle := by
  by_contra hne
  rw [h.quiet hne] at ho
  cases ho

theorem protocol_init (d : Nat → Block) : Protocol (State.init d) :=
  ⟨rfl, List.nodup_nil, by simp [State.init], fun _ => rfl, rfl⟩

theorem Protocol.beginOp (h : Protocol s) (hs : beginOp s = .next s') : Protocol s' := by
  obtain ⟨hboot, hcom, -, rfl⟩ := beginOp_next hs
  refine ⟨by simp [h.count], ?_, ?_, ?_, h.committing⟩
  · refine List.nodup_cons.mpr ⟨fun hmem => ?_, h.nodup⟩
    exact Nat.lt_irrefl _ (h.fresh _ hmem)
  · intro o ho
    rcases List.mem_cons.mp ho with rfl | ho
    · exact Nat.lt_succ_self _
    · exact Nat.lt_succ_of_lt (h.fresh o ho)
  · intro hne
    exact absurd (Phase.eq_idle hboot (h.committing ▸ hcom)) hne

theorem Protocol.endOp {op : Nat} (h : Protocol s) (hs : endOp s op = .next s') :
    Protocol s' := by
  obtain ⟨hmem, hcom, hcase⟩ := endOp_next hs
  have hlen := List.length_erase_of_mem hmem
  have hfresh : ∀ o ∈ s.active.erase op, o < s.nextOp := fun o ho =>
    h.fresh o (List.mem_of_mem_erase ho)
  rcases hcase with ⟨hzero, rfl⟩ | ⟨-, rfl⟩
  · refine ⟨by simp [hlen, h.count], h.nodup.erase op, hfresh, fun _ => ?_, rfl⟩
    apply List.eq_nil_of_length_eq_zero
    rw [hlen, ← h.count, hzero]
  · refine ⟨by simp [hlen, h.count], h.nodup.erase op, hfresh, fun hne => ?_, h.committing⟩
    exact absurd (h.idle_of_mem hmem) hne

theorem Protocol.advance (h : Protocol s) (hs : advance g s = .next s') : Protocol s' := by
  have hq : s.phase ≠ .idle := by
    intro hidle
    simp [Log.advance, hidle] at hs
  have hnil := h.quiet hq
  have hcount := h.count
  have hcom := h.committing
  rw [hnil] at hcount
  unfold Log.advance at hs
  -- every branch changes only the phase and, at the two ends, `committing`
  split at hs
  · cases hs
  all_goals
    first
    | split at hs
    | skip
  all_goals
    cases hs
    refine ⟨?_, ?_, ?_, fun _ => hnil, ?_⟩
    all_goals simp_all [State.writeHead, State.writeLogEntry, State.installEntry, State.readHead,
      State.bwrite, State.setBuf, Phase.committing]

theorem Protocol.step {a : Action} (h : Protocol s) (hs : step g s a = .next s') : Protocol s' := by
  cases a with
  | beginOp => exact h.beginOp hs
  | logWrite op b v =>
    obtain ⟨-, -, -, rfl⟩ := logWrite_next hs
    exact ⟨h.count, h.nodup, h.fresh, h.quiet, h.committing⟩
  | endOp op => exact h.endOp hs
  | advance => exact h.advance hs
  | fill b =>
    cases hs
    exact ⟨h.count, h.nodup, h.fresh, h.quiet, h.committing⟩
  | recycle b =>
    simp only [Log.step] at hs
    split at hs
    · cases hs
    · cases hs
      exact ⟨h.count, h.nodup, h.fresh, h.quiet, h.committing⟩
  | crash =>
    cases hs
    exact ⟨rfl, List.nodup_nil, by simp [State.crash], fun _ => rfl, rfl⟩

theorem Protocol.endOp_ne_fault (h : Protocol s) (op : Nat) (f : Panic) :
    Log.endOp s op ≠ .fault f := by
  intro hf
  unfold Log.endOp at hf
  split at hf
  · cases hf
  · rename_i hmem
    have hidle := h.idle_of_mem (not_not.mp hmem)
    have hcom : s.committing = false := by rw [h.committing, hidle]; rfl
    split at hf
    · simp_all
    · split at hf <;> cases hf

end Xv6.Log
