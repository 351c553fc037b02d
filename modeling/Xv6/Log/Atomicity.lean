import Xv6.Log.Crash

/-! # Crash atomicity of the redo log

After a crash at any point, and any further crashes before recovery completes,
the home blocks are those of a whole number of commit groups; and a commit group
holds whole operations.
-/

namespace Xv6.Log

open Lib State

variable {g : Geometry} {d₀ : Nat → Block} {s s' : State}

/-! ## Operations do not spread over commit groups -/

def OpsGrouped (groups : List (List Update)) : Prop :=
  groups.Pairwise fun us vs => ∀ u ∈ us, ∀ v ∈ vs, u.op ≠ v.op

structure Grouping (s : State) : Prop where
  fresh : ∀ us ∈ s.hist ++ [s.cur], ∀ u ∈ us, u.op < s.nextOp
  active : ∀ o ∈ s.active, ∀ us ∈ s.hist, ∀ u ∈ us, u.op ≠ o
  grouped : OpsGrouped (s.hist ++ [s.cur])

theorem grouping_init (d : Nat → Block) : Grouping (State.init d) := by
  refine ⟨by simp [State.init], by simp [State.init], ?_⟩
  simp [OpsGrouped, State.init]

theorem OpsGrouped.concat {us : List Update} {groups : List (List Update)}
    (h : OpsGrouped groups) (hus : ∀ vs ∈ groups, ∀ v ∈ vs, ∀ u ∈ us, v.op ≠ u.op) :
    OpsGrouped (groups ++ [us]) := by
  refine List.pairwise_append.mpr ⟨h, List.pairwise_singleton _ _, ?_⟩
  intro vs hvs ws hws v hv u hu
  rw [List.mem_singleton.mp hws] at hu
  exact hus vs hvs v hv u hu

theorem Grouping.beginOp (h : Grouping s) (hs : beginOp s = .next s') : Grouping s' := by
  obtain ⟨-, -, -, rfl⟩ := beginOp_next hs
  refine ⟨fun us hus u hu => Nat.lt_succ_of_lt (h.fresh us hus u hu), ?_, h.grouped⟩
  intro o ho us hus u hu
  rcases List.mem_cons.mp ho with rfl | ho
  · exact Nat.ne_of_lt (h.fresh us (List.mem_append_left _ hus) u hu)
  · exact h.active o ho us hus u hu

theorem Grouping.logWrite {op b : Nat} {v : Block} (h : Grouping s) (hp : Protocol s)
    (hs : logWrite g s op b v = .next s') : Grouping s' := by
  obtain ⟨⟨hop, -, -⟩, -, -, rfl⟩ := logWrite_next hs
  have hgrp := List.pairwise_append.mp h.grouped
  have hcur : ∀ u ∈ s.cur, u.op < s.nextOp := h.fresh s.cur (by simp)
  refine ⟨?_, h.active, OpsGrouped.concat hgrp.1 ?_⟩
  · intro us hus u hu
    rcases List.mem_append.mp hus with hus | hus
    · exact h.fresh us (List.mem_append_left _ hus) u hu
    · rw [List.mem_singleton.mp hus] at hu
      rcases List.mem_append.mp hu with hu | hu
      · exact hcur u hu
      · rw [List.mem_singleton.mp hu]
        exact hp.fresh op hop
  · intro vs hvs w hw u hu
    rcases List.mem_append.mp hu with hu | hu
    · exact hgrp.2.2 vs hvs s.cur (by simp) w hw u hu
    · rw [List.mem_singleton.mp hu]
      exact h.active op hop vs hvs w hw

theorem Grouping.endOp {op : Nat} (h : Grouping s) (hp : Protocol s)
    (hs : endOp s op = .next s') : Grouping s' := by
  have hprot := hp.endOp hs
  obtain ⟨-, -, ⟨-, rfl⟩ | ⟨-, rfl⟩⟩ := endOp_next hs
  · -- the group closes with no operation left open
    have hnil := hprot.quiet (by simp)
    simp only at hnil
    refine ⟨?_, ?_, h.grouped.concat (by simp)⟩
    · intro us hus u hu
      rcases List.mem_append.mp hus with hus | hus
      · exact h.fresh us hus u hu
      · rw [List.mem_singleton.mp hus] at hu
        cases hu
    · simp [hnil]
  · exact ⟨h.fresh, fun o ho => h.active o (List.mem_of_mem_erase ho), h.grouped⟩

theorem advance_history (hs : advance g s = .next s') :
    s'.cur = s.cur ∧ s'.active = s.active ∧ s'.nextOp = s.nextOp ∧
      (s'.hist = s.hist ∨ s'.hist = s.hist.take s.durable) := by
  unfold advance at hs
  split at hs
  · cases hs
  · split at hs <;> cases hs <;> exact ⟨rfl, rfl, rfl, Or.inl rfl⟩
  · split at hs <;> cases hs <;> exact ⟨rfl, rfl, rfl, Or.inl rfl⟩
  · split at hs <;> cases hs <;> exact ⟨rfl, rfl, rfl, Or.inl rfl⟩
  · cases hs
    exact ⟨rfl, rfl, rfl, Or.inl rfl⟩
  · cases hs
    exact ⟨rfl, rfl, rfl, Or.inl rfl⟩
  · split at hs <;> cases hs
    · exact ⟨rfl, rfl, rfl, Or.inl rfl⟩
    · exact ⟨rfl, rfl, rfl, Or.inr rfl⟩

theorem Grouping.advance (h : Grouping s) (hs : advance g s = .next s') : Grouping s' := by
  obtain ⟨hcur, hact, hnext, hhist⟩ := advance_history hs
  have hsub : List.Sublist (s'.hist ++ [s'.cur]) (s.hist ++ [s.cur]) := by
    rw [hcur]
    rcases hhist with hh | hh <;> rw [hh]
    exact (List.take_sublist _ _).append_right _
  have hmem : ∀ us ∈ s'.hist, us ∈ s.hist := by
    intro us hus
    rcases hhist with hh | hh <;> rw [hh] at hus
    · exact hus
    · exact List.mem_of_mem_take hus
  refine ⟨?_, ?_, h.grouped.sublist hsub⟩
  · rw [hnext]
    exact fun us hus => h.fresh us (hsub.mem hus)
  · rw [hact]
    exact fun o ho us hus => h.active o ho us (hmem us hus)

theorem Grouping.crash (h : Grouping s) : Grouping s.crash := by
  have hgrp := List.pairwise_append.mp h.grouped
  refine ⟨?_, by simp [State.crash], OpsGrouped.concat hgrp.1 (by simp [State.crash])⟩
  intro us hus u hu
  rcases List.mem_append.mp hus with hus | hus
  · exact h.fresh us (List.mem_append_left _ hus) u hu
  · rw [List.mem_singleton.mp hus] at hu
    cases hu

theorem Grouping.step {a : Action} (h : Grouping s) (hp : Protocol s)
    (hs : step g s a = .next s') : Grouping s' := by
  cases a with
  | beginOp => exact h.beginOp hs
  | logWrite op b v => exact h.logWrite hp hs
  | endOp op => exact h.endOp hp hs
  | advance => exact h.advance hs
  | fill b =>
    cases hs
    exact ⟨h.fresh, h.active, h.grouped⟩
  | recycle b =>
    simp only [Log.step] at hs
    split at hs
    · cases hs
    · cases hs
      exact ⟨h.fresh, h.active, h.grouped⟩
  | crash =>
    cases hs
    exact h.crash

theorem reach_grouping {ok : State → Action → Prop}
    (h : Reach (Log.step g) ok (· = State.init d₀) s) : Protocol s ∧ Grouping s := by
  refine h.invariant (I := fun s => Protocol s ∧ Grouping s) ?_ ?_
  · rintro _ rfl
    exact ⟨protocol_init d₀, grouping_init d₀⟩
  · intro s a s' hi _ hs
    exact ⟨hi.1.step hs, hi.2.step hi.1 hs⟩

/-! ## Recovery -/

/-- While booting, a step either leaves the history alone or completes recovery. -/
theorem step_booting {a : Action} (hb : s.phase.booting = true) (hp : Protocol s)
    (hs : step g s a = .next s') :
    s'.phase.booting = true ∧ s'.hist = s.hist ∧ s'.durable = s.durable ∨
      s'.phase = .idle ∧ s'.hist = s.hist.take s.durable := by
  have hidle : s.phase ≠ .idle := by
    intro hi
    simp [hi, Phase.booting] at hb
  cases a with
  | beginOp =>
    obtain ⟨hnb, -⟩ := beginOp_next hs
    rw [hb] at hnb
    cases hnb
  | logWrite op b v =>
    obtain ⟨⟨hop, -⟩, -⟩ := logWrite_next hs
    exact absurd (hp.idle_of_mem hop) hidle
  | endOp op =>
    obtain ⟨hop, -⟩ := endOp_next hs
    exact absurd (hp.idle_of_mem hop) hidle
  | advance =>
    simp only [Log.step, Log.advance] at hs
    split at hs <;> rename_i hph
    all_goals try simp [hph, Phase.booting] at hb
    · cases hs
      exact Or.inl ⟨rfl, rfl, rfl⟩
    · split at hs <;> cases hs
      · exact Or.inl ⟨rfl, rfl, rfl⟩
      · exact Or.inr ⟨rfl, rfl⟩
  | fill b =>
    cases hs
    exact Or.inl ⟨hb, rfl, rfl⟩
  | recycle b =>
    simp only [Log.step] at hs
    split at hs <;> cases hs
    exact Or.inl ⟨hb, rfl, rfl⟩
  | crash =>
    cases hs
    exact Or.inl ⟨rfl, rfl, rfl⟩

/-- However often it is interrupted, a recovery that completes installs the durable
groups and nothing else. -/
theorem recovery_installs {as : List Action} (h : Inv g d₀ s) (hb : s.phase.booting = true)
    (hboot : Guarded (step g) (fun s _ => s.phase.booting = true) s as)
    (hrun : exec (step g) s as = .next s') (hidle : s'.phase = .idle) :
    ∀ b, g.Home b → s'.disk b = applyGroups d₀ (s.hist.take s.durable) b := by
  induction as generalizing s with
  | nil =>
    cases hrun
    simp [hidle, Phase.booting] at hb
  | cons a as ih =>
    cases hstep : step g s a with
    | blocked => simp [exec, hstep] at hrun
    | fault f => simp [exec, hstep] at hrun
    | next s₁ =>
      simp only [exec, hstep] at hrun
      have hrest := hboot.2
      simp only [hstep] at hrest
      have hinv := h.step hstep
      rcases step_booting hb h.protocol hstep with ⟨hb₁, hhist, hdur⟩ | ⟨hi₁, hhist⟩
      · rw [← hhist, ← hdur]
        exact ih hinv hb₁ hrest hrun
      · -- nothing may follow: the guard asks for a booting state
        cases as with
        | nil =>
          cases hrun
          rw [← hhist]
          exact ((phaseInv_idle hidle).mp hinv.phase).disk
        | cons a' as =>
          have := hrest.1
          simp [hi₁, Phase.booting] at this

theorem recover_completes (g : Geometry) {n tail : Nat} (hph : s.phase = .recover tail)
    (hn : s.lh.length - tail = n) :
    Guarded (step g) (fun t _ => t.phase.booting = true) s (List.replicate (n + 1) .advance) ∧
      ∃ s', exec (step g) s (List.replicate (n + 1) .advance) = .next s' ∧ s'.phase = .idle := by
  induction n generalizing s tail with
  | zero =>
    have hnone : s.lh[tail]? = none := List.getElem?_eq_none_iff.mpr (by omega)
    simp [Guarded, exec, step, advance, hph, hnone, Phase.booting]
  | succ n ih =>
    have hlt : tail < s.lh.length := by omega
    obtain ⟨b, hget⟩ : ∃ b, s.lh[tail]? = some b := ⟨_, List.getElem?_eq_getElem hlt⟩
    have hrest :=
      @ih { s.installEntry g tail b with phase := .recover (tail + 1) } (tail + 1) rfl (by
        change s.lh.length - (tail + 1) = n
        omega)
    rw [List.replicate_succ]
    simp only [Guarded, exec, step, advance, hph, hget]
    exact ⟨⟨rfl, hrest.1⟩, hrest.2⟩

theorem crash_recovers (g : Geometry) (s : State) :
    ∃ n s', Guarded (step g) (fun t _ => t.phase.booting = true) s.crash
        (List.replicate n .advance) ∧
      exec (step g) s.crash (List.replicate n .advance) = .next s' ∧ s'.phase = .idle := by
  obtain ⟨hboot, s', hexec, hidle⟩ :=
    @recover_completes { s.crash.readHead g with phase := .recover 0 } g _ 0 rfl rfl
  refine ⟨(s.crash.readHead g).lh.length - 0 + 1 + 1, s', ?_, ?_, hidle⟩
  · rw [List.replicate_succ]
    exact ⟨rfl, hboot⟩
  · rw [List.replicate_succ]
    exact hexec

/-! ## Crash atomicity -/

/-- Let the log run from a disk with an empty log header to any state `s`, crashes
and recoveries included, and let it crash there. No operation's updates spread
over two commit groups. Recovery left alone completes. Whenever recovery completes,
however many crashes interrupted it, the home blocks are those after the first `k`
commit groups closed before the crash, for some `k` that covers every group whose
`commit` had returned. -/
theorem crash_atomicity (g : Geometry) (d₀ : Nat → Block) (s : State)
    (hclean : decodeHead (d₀ g.start) = [])
    (hreach : Reach (step g) (fun _ _ => True) (· = State.init d₀) s) :
    OpsGrouped (s.hist ++ [s.cur]) ∧
    (∃ n s', Guarded (step g) (fun t _ => t.phase.booting = true) s.crash
        (List.replicate n .advance) ∧
      exec (step g) s.crash (List.replicate n .advance) = .next s' ∧ s'.phase = .idle) ∧
    ∀ as s', Guarded (step g) (fun t _ => t.phase.booting = true) s.crash as →
      exec (step g) s.crash as = .next s' → s'.phase = .idle →
      ∃ k, s.returned ≤ k ∧ s.settled ≤ k ∧ k ≤ s.hist.length ∧
        ∀ b, g.Home b → s'.disk b = applyGroups d₀ (s.hist.take k) b := by
  have hinv := reach_inv hclean hreach
  refine ⟨(reach_grouping hreach).2.grouped, crash_recovers g s, ?_⟩
  intro as s' hboot hrun hidle
  refine ⟨s.durable, hinv.returned_le.trans hinv.settled_le, hinv.settled_le, hinv.durable_le, ?_⟩
  exact @recovery_installs g d₀ s.crash s' as hinv.crash rfl hboot hrun hidle

/-- Boot, one committed operation on block 50, and a second operation that has
logged block 51 when the crash comes. -/
def interruptedRun : List Action :=
  [.advance, .advance, .beginOp, .logWrite 0 50 (fun _ => 7), .endOp 0, .advance, .advance,
    .advance, .advance, .advance, .advance, .beginOp, .logWrite 1 51 (fun _ => 9)]

theorem crash_atomicity_interruptedRun :
    ∃ s, exec (step mkfsGeometry) (State.init fun _ => Bytes.zero) interruptedRun = .next s ∧
      ∃ as s', exec (step mkfsGeometry) s.crash as = .next s' ∧ s'.phase = .idle ∧
        s'.disk 50 = (fun _ => 7) ∧ s'.disk 51 = Bytes.zero := by
  obtain ⟨s, hs, hret, hhist⟩ : ∃ s, exec (step mkfsGeometry) (State.init fun _ => Bytes.zero)
      interruptedRun = .next s ∧ s.returned = 1 ∧ s.hist = [[⟨0, 50, fun _ => 7⟩]] :=
    ⟨_, rfl, rfl, rfl⟩
  obtain ⟨-, ⟨n, s', hboot, hrun, hidle⟩, hall⟩ :=
    crash_atomicity mkfsGeometry (fun _ => Bytes.zero) s (by decide)
      (Reach.of_exec (.start rfl) (Guarded.of_forall (fun _ _ => trivial) _ _) hs)
  obtain ⟨k, hk, -, hle, hdisk⟩ := hall _ s' hboot hrun hidle
  have hk1 : k = 1 := by
    rw [hret] at hk
    rw [hhist] at hle
    exact Nat.le_antisymm hle hk
  rw [hk1, hhist] at hdisk
  refine ⟨s, hs, _, s', hrun, hidle, ?_, ?_⟩
  · rw [hdisk 50 (by decide)]
    rfl
  · rw [hdisk 51 (by decide)]
    rfl

end Xv6.Log
