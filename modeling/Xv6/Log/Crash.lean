import Xv6.Log.Invariant

/-! # Every step keeps the log recoverable

One lemma for each action: the critical sections of the operations, the disk
writes of `commit` and of `recover_from_log`, the buffer cache, and a crash.
-/

namespace Xv6.Log

open Function Lib State

variable {g : Geometry} {d₀ : Nat → Block} {s s' : State}

theorem update_eq_some {f : Nat → Option Block} {b c : Nat} {v w : Block}
    (h : update f b (some v) c = some w) : c = b ∧ w = v ∨ c ≠ b ∧ f c = some w := by
  by_cases hcb : c = b
  · subst hcb
    rw [update_self] at h
    exact Or.inl ⟨rfl, (Option.some.inj h).symm⟩
  · rw [update_of_ne hcb] at h
    exact Or.inr ⟨hcb, h⟩

theorem isSome_update {f : Nat → Option Block} {b c : Nat} {v : Block} (h : (f c).isSome) :
    (update f b (some v) c).isSome := by
  by_cases hcb : c = b
  · simp [hcb]
  · rwa [update_of_ne hcb]

/-! ## Operations -/

theorem inv_init (hclean : decodeHead (d₀ g.start) = []) : Inv g d₀ (State.init d₀) := by
  refine ⟨protocol_init d₀, validHead_nil g, by simp [State.init], by simp [State.init],
    by simp [State.init, State.pinned], fun _ => rfl, Nat.le_refl _, Nat.le_refl _,
    Nat.le_refl _, ?_⟩
  refine ⟨recoverable_of_head_nil hclean ?_, rfl⟩
  intro b _
  rfl

theorem Inv.beginOp (h : Inv g d₀ s) (hs : beginOp s = .next s') : Inv g d₀ s' := by
  have hprot := h.protocol.beginOp hs
  obtain ⟨hboot, hcom, -, rfl⟩ := beginOp_next hs
  have hidle : s.phase = .idle := Phase.eq_idle hboot (h.protocol.committing ▸ hcom)
  have hp := (phaseInv_idle hidle).mp h.phase
  refine ⟨hprot, h.valid, h.coherent, h.cache, h.pinned, h.closed, h.returned_le, h.settled_le,
    h.durable_le, (phaseInv_idle ?_).mpr ?_⟩
  · exact hidle
  · exact ⟨hp.head, hp.disk, hp.logged, hp.durable⟩

theorem Inv.logWrite {op b : Nat} {v : Block} (h : Inv g d₀ s)
    (hs : logWrite g s op b v = .next s') : Inv g d₀ s' := by
  obtain ⟨⟨hop, hb, hlt⟩, h1, h2, rfl⟩ := logWrite_next hs
  have hidle := h.protocol.idle_of_mem hop
  have hp := (phaseInv_idle hidle).mp h.phase
  have hcur := @current_idle d₀ s hidle
  refine ⟨⟨h.protocol.count, h.protocol.nodup, h.protocol.fresh, h.protocol.quiet,
    h.protocol.committing⟩, h.valid.absorb hb hlt h1 h2, ?_, ?_, ?_, fun hne => absurd hidle hne,
    h.returned_le, h.settled_le, h.durable_le, (phaseInv_idle ?_).mpr ?_⟩
  · intro c w hc hw
    rcases update_eq_some hw with ⟨rfl, -⟩ | ⟨-, hw⟩
    · exact absurd hc hb
    · exact h.coherent c w hc hw
  · intro c w hc hw
    rw [current_idle (by exact hidle), replay_writes_concat]
    rcases update_eq_some hw with ⟨rfl, rfl⟩ | ⟨hne, hw⟩
    · rw [update_self]
    · rw [update_of_ne hne, h.cache c w hc hw, hcur]
      rfl
  · intro c hc
    simp only [State.pinned, setBuf, hidle] at hc
    rcases mem_absorb.mp hc with hc | rfl
    · exact isSome_update (h.pinned c (by simpa only [State.pinned, hidle] using hc))
    · simp
  · exact hidle
  · refine ⟨hp.head, hp.disk, ?_, hp.durable⟩
    intro u hu
    rw [mem_absorb]
    rcases List.mem_append.mp hu with hu | hu
    · exact Or.inl (hp.logged u hu)
    · rw [List.mem_singleton.mp hu]
      exact Or.inr rfl

theorem Inv.endOp {op : Nat} (h : Inv g d₀ s) (hs : endOp s op = .next s') : Inv g d₀ s' := by
  have hprot := h.protocol.endOp hs
  obtain ⟨hop, -, hcase⟩ := endOp_next hs
  have hidle := h.protocol.idle_of_mem hop
  have hp := (phaseInv_idle hidle).mp h.phase
  rcases hcase with ⟨-, rfl⟩ | ⟨-, rfl⟩
  · -- the group closes: the buffers already hold the new history
    have hkept : applyGroups d₀ ((s.hist ++ [s.cur]).take s.durable) = full d₀ s := by
      rw [hp.durable, List.take_left, full]
    have hfull : applyGroups d₀ (s.hist ++ [s.cur]) = current d₀ s := by
      rw [applyGroups_append, current_idle hidle, full]
    refine ⟨hprot, h.valid, h.coherent, ?_, ?_, fun _ => rfl, h.returned_le, h.settled_le, ?_, ?_⟩
    · intro b v hb hv
      rw [current, full, hfull]
      exact h.cache b v hb hv
    · intro b hb
      exact h.pinned b (by simpa only [State.pinned, hidle] using hb)
    · have := h.durable_le
      simp only [List.length_append]
      omega
    · refine ⟨hp.head, ?_, ?_, by simp, Nat.zero_le _, by simp [hp.durable]⟩
      · intro b hb
        rw [kept, hkept]
        exact hp.disk b hb
      · intro b hb
        rw [full, kept, hfull, hkept, current_idle hidle]
        apply replay_writes_of_not_mem
        rintro u hu rfl
        exact hb (hp.logged u hu)
  · refine ⟨hprot, h.valid, h.coherent, h.cache, h.pinned, h.closed, h.returned_le, h.settled_le,
      h.durable_le, (phaseInv_idle ?_).mpr ?_⟩
    · exact hidle
    · exact ⟨hp.head, hp.disk, hp.logged, hp.durable⟩

/-! ## The cache and a crash -/

theorem Inv.fill (h : Inv g d₀ s) (b : Nat) : Inv g d₀ (s.setBuf b (s.bread b)) := by
  refine ⟨⟨h.protocol.count, h.protocol.nodup, h.protocol.fresh, h.protocol.quiet,
    h.protocol.committing⟩, h.valid, ?_, ?_, fun c hc => isSome_update (h.pinned c hc), h.closed,
    h.returned_le, h.settled_le, h.durable_le, h.phase.with_cache _⟩
  · intro c v hc hv
    rcases update_eq_some hv with ⟨rfl, rfl⟩ | ⟨-, hv⟩
    · exact h.bread_inLog hc
    · exact h.coherent c v hc hv
  · intro c v hc hv
    rcases update_eq_some hv with ⟨rfl, rfl⟩ | ⟨-, hv⟩
    · exact h.bread_home hc
    · exact h.cache c v hc hv

theorem Inv.recycle (h : Inv g d₀ s) {b : Nat} (hb : b ∉ s.pinned) :
    Inv g d₀ { s with cache := update s.cache b none } := by
  have hold : ∀ {c v}, update s.cache b none c = some v → s.cache c = some v := by
    intro c v hv
    by_cases hcb : c = b
    · simp [hcb] at hv
    · rwa [update_of_ne hcb] at hv
  refine ⟨⟨h.protocol.count, h.protocol.nodup, h.protocol.fresh, h.protocol.quiet,
    h.protocol.committing⟩, h.valid, fun c v hc hv => h.coherent c v hc (hold hv),
    fun c v hc hv => h.cache c v hc (hold hv), ?_, h.closed, h.returned_le, h.settled_le,
    h.durable_le, h.phase.with_cache _⟩
  intro c hc
  have hcb : c ≠ b := fun hcb => hb (hcb ▸ hc)
  simpa [update_of_ne hcb] using h.pinned c hc

theorem Inv.crash (h : Inv g d₀ s) : Inv g d₀ s.crash := by
  refine ⟨⟨rfl, List.nodup_nil, by simp [State.crash], fun _ => rfl, rfl⟩, validHead_nil g,
    by simp [State.crash], by simp [State.crash], by simp [State.crash, State.pinned], fun _ => rfl,
    h.returned_le, h.settled_le, h.durable_le, ?_⟩
  exact ⟨h.recoverable, rfl⟩

/-! ## Commit and recovery -/

theorem Installing.installEntry {t : Nat → Block} {tail b : Nat} (h : Installing g s t tail)
    (hv : ValidHead g s.lh) (hb : s.lh[tail]? = some b)
    (hread : s.bread (g.start + tail + 1) = s.disk (g.start + tail + 1)) :
    Installing g (s.installEntry g tail b) t (tail + 1) := by
  have hhome : g.Home b := hv.home b (List.mem_of_getElem? hb)
  have hold : ∀ c, g.InLog c → (s.installEntry g tail b).disk c = s.disk c := fun c hc =>
    update_of_ne (ne_of_home_of_inLog hhome hc).symm _ _
  obtain ⟨hlt, hget⟩ := List.getElem?_eq_some_iff.mp hb
  refine ⟨?_, ?_, ?_⟩
  · rw [hold _ g.inLog_start]
    exact h.head
  · intro i c hc
    rw [hold _ (hv.inLog (List.getElem?_eq_some_iff.mp hc).1)]
    exact h.copied i c hc
  · intro c hc hmem
    by_cases hcb : c = b
    · subst hcb
      simp only [State.installEntry, bwrite_disk, update_self, hread]
      exact h.copied tail c hb
    · simp only [State.installEntry, bwrite_disk, update_of_ne hcb]
      refine h.disk c hc ?_
      rw [List.drop_eq_getElem_cons hlt, hget, List.mem_cons]
      rintro (hc | hc)
      · exact hcb hc
      · exact hmem hc

theorem Installing.done {t : Nat → Block} {tail : Nat} (h : Installing g s t tail)
    (hnone : s.lh[tail]? = none) {b : Nat} (hb : g.Home b) : s.disk b = t b := by
  refine h.disk b hb ?_
  rw [List.drop_eq_nil_of_le (List.getElem?_eq_none_iff.mp hnone)]
  simp

theorem writeHead_head (g : Geometry) (s : State) (hv : ValidHead g s.lh) :
    decodeHead ((s.writeHead g).disk g.start) = s.lh := by
  simp only [State.writeHead, bwrite_disk, update_self]
  exact decodeHead_encodeHead _ hv.le_logsize hv.lt

theorem writeHead_disk {b : Nat} (hb : b ≠ g.start) : (s.writeHead g).disk b = s.disk b :=
  update_of_ne hb _ _

theorem Geometry.Home.ne_start {b : Nat} (hb : g.Home b) : b ≠ g.start :=
  ne_of_home_of_inLog hb g.inLog_start

/-- `bwrite` of one of the log's own blocks keeps it equal to its buffer and leaves
the home blocks alone. -/
theorem Inv.coherent_bwrite (h : Inv g d₀ s) (b : Nat) (v : Block) :
    ∀ c w, g.InLog c → (s.bwrite b v).cache c = some w → w = (s.bwrite b v).disk c := by
  intro c w hc hw
  rcases update_eq_some hw with ⟨rfl, rfl⟩ | ⟨hne, hw⟩
  · rw [bwrite_disk, update_self]
  · rw [bwrite_disk, update_of_ne hne]
    exact h.coherent c w hc hw

theorem Inv.cache_bwrite (h : Inv g d₀ s) {b : Nat} (hb : g.InLog b) (v : Block) :
    ∀ c w, g.Home c → (s.bwrite b v).cache c = some w → w = current d₀ s c := by
  intro c w hc hw
  rcases update_eq_some hw with ⟨rfl, -⟩ | ⟨-, hw⟩
  · exact absurd hb hc
  · exact h.cache c w hc hw

theorem Inv.commit_empty (h : Inv g d₀ s) (hph : s.phase = .commit) (hlh : ¬ 0 < s.lh.length)
    (hs' : s' = { s with
      phase := .committed
      durable := s.hist.length
      settled := s.hist.length
      returned := s.returned + 1 }) (hprot : Protocol s') : Inv g d₀ s' := by
  subst hs'
  have hp := h.phase
  simp only [PhaseInv, hph] at hp
  have hnil : s.lh = [] := List.eq_nil_of_length_eq_zero (Nat.eq_zero_of_not_pos hlh)
  have hret : s.returned < s.hist.length :=
    Nat.lt_of_le_of_lt (h.returned_le.trans h.settled_le) hp.durable
  refine ⟨hprot, h.valid, h.coherent, ?_, ?_, fun _ => h.closed (by simp [hph]), hret,
    Nat.le_refl _, Nat.le_refl _, hp.head, ?_, hnil, rfl⟩
  · intro b v hb hv
    rw [h.cache b v hb hv, current, hph]
    rfl
  · intro b hb
    simp [State.pinned, hnil] at hb
  · intro b hb
    exact (hp.disk b hb).trans (hp.outside b (by simp [hnil])).symm

theorem Inv.commit_writeLog (h : Inv g d₀ s) (hph : s.phase = .commit)
    (hprot : Protocol { s with phase := .writeLog 0 }) :
    Inv g d₀ { s with phase := .writeLog 0 } := by
  have hp := h.phase
  simp only [PhaseInv, hph] at hp
  refine ⟨hprot, h.valid, h.coherent, ?_, ?_, fun _ => h.closed (by simp [hph]), h.returned_le,
    h.settled_le, h.durable_le, hp.head, hp.disk, hp.outside, hp.copied, hp.tail_le, hp.durable⟩
  · intro b v hb hv
    rw [h.cache b v hb hv, current, hph]
    rfl
  · intro b hb
    exact h.pinned b (by simpa only [State.pinned, hph] using hb)

theorem Inv.writeLog_entry {tail b : Nat} (h : Inv g d₀ s) (hph : s.phase = .writeLog tail)
    (hb : s.lh[tail]? = some b)
    (hprot : Protocol { s.writeLogEntry g tail b with phase := .writeLog (tail + 1) }) :
    Inv g d₀ { s.writeLogEntry g tail b with phase := .writeLog (tail + 1) } := by
  have hp := h.phase
  simp only [PhaseInv, hph] at hp
  have hlt := (List.getElem?_eq_some_iff.mp hb).1
  have hlog := h.valid.inLog hlt
  have hcur : current d₀ s = full d₀ s := by simp only [current, hph]
  have hread : s.bread b = full d₀ s b := by
    rw [h.bread_home (h.valid.home b (List.mem_of_getElem? hb)), hcur]
  refine ⟨hprot, h.valid, h.coherent_bwrite _ _, ?_, ?_, fun _ => h.closed (by simp [hph]),
    h.returned_le, h.settled_le, h.durable_le, ?_, ?_, hp.outside, ?_, hlt, hp.durable⟩
  · intro c v hc hv
    have := h.cache_bwrite hlog _ c v hc hv
    rwa [hcur] at this
  · intro c hc
    refine isSome_update (h.pinned c ?_)
    simp only [State.pinned, hph]
    exact hc
  · rw [State.writeLogEntry, bwrite_disk, update_of_ne (by omega)]
    exact hp.head
  · intro c hc
    rw [State.writeLogEntry, bwrite_disk, update_of_ne (ne_of_home_of_inLog hc hlog)]
    exact hp.disk c hc
  · intro i c hi hc
    rw [State.writeLogEntry, bwrite_disk]
    by_cases hit : i = tail
    · subst hit
      rw [update_self, hread]
      exact congrArg _ (Option.some.inj (hb.symm.trans hc))
    · rw [update_of_ne (by omega)]
      exact hp.copied i c (by omega) hc

/-- The commit point: `write_head` after the last iteration of `write_log`. -/
theorem Inv.writeLog_head {tail : Nat} (h : Inv g d₀ s) (hph : s.phase = .writeLog tail)
    (hnone : s.lh[tail]? = none)
    (hprot : Protocol { s.writeHead g with phase := .install 0, durable := s.hist.length }) :
    Inv g d₀ { s.writeHead g with phase := .install 0, durable := s.hist.length } := by
  have hp := h.phase
  simp only [PhaseInv, hph] at hp
  have hcur : current d₀ s = full d₀ s := by simp only [current, hph]
  have hlen : s.lh.length ≤ tail := List.getElem?_eq_none_iff.mp hnone
  have hset : s.settled < s.hist.length := Nat.lt_of_le_of_lt h.settled_le hp.durable
  refine ⟨hprot, h.valid, h.coherent_bwrite _ _, ?_, ?_, fun _ => h.closed (by simp [hph]),
    h.returned_le, hset.le, Nat.le_refl _, ⟨writeHead_head g s h.valid, ?_, ?_⟩, rfl,
    Nat.lt_of_le_of_lt h.returned_le hset⟩
  · intro c v hc hv
    have := h.cache_bwrite g.inLog_start _ c v hc hv
    rwa [hcur] at this
  · intro c hc
    refine isSome_update (h.pinned c ?_)
    simp only [State.pinned, hph]
    exact hc
  · intro i c hc
    have hi := (List.getElem?_eq_some_iff.mp hc).1
    rw [writeHead_disk (by omega)]
    exact hp.copied i c (Nat.lt_of_lt_of_le hi hlen) hc
  · intro c hc hmem
    rw [writeHead_disk hc.ne_start]
    exact (hp.disk c hc).trans (hp.outside c hmem).symm

theorem Inv.install_entry {tail b : Nat} (h : Inv g d₀ s) (hph : s.phase = .install tail)
    (hb : s.lh[tail]? = some b)
    (hprot : Protocol { s.installEntry g tail b with phase := .install (tail + 1) }) :
    Inv g d₀ { s.installEntry g tail b with phase := .install (tail + 1) } := by
  have hp := h.phase
  simp only [PhaseInv, hph] at hp
  have hcur : current d₀ s = full d₀ s := by simp only [current, hph]
  have hread := h.bread_inLog (h.valid.inLog (List.getElem?_eq_some_iff.mp hb).1)
  have hnext := hp.installing.installEntry h.valid hb hread
  refine ⟨hprot, h.valid, h.coherent_bwrite _ _, ?_, ?_, fun _ => h.closed (by simp [hph]),
    h.returned_le, h.settled_le, h.durable_le, ⟨hnext.head, hnext.copied, hnext.disk⟩, hp.durable,
    hp.returned⟩
  · intro c v hc hv
    rcases update_eq_some hv with ⟨rfl, rfl⟩ | ⟨-, hv⟩
    · rw [hread]
      exact hp.installing.copied tail c hb
    · rw [h.cache c v hc hv, hcur]
      rfl
  · intro c hc
    refine isSome_update (h.pinned c ?_)
    simp only [State.pinned, hph]
    exact (List.drop_sublist_drop_left s.lh (Nat.le_succ tail)).mem hc

theorem Inv.install_done {tail : Nat} (h : Inv g d₀ s) (hph : s.phase = .install tail)
    (hnone : s.lh[tail]? = none)
    (hs' : s' = { State.writeHead g { s with lh := [] } with
      phase := .committed
      settled := s.hist.length
      returned := s.returned + 1 }) (hprot : Protocol s') : Inv g d₀ s' := by
  subst hs'
  have hp := h.phase
  simp only [PhaseInv, hph] at hp
  have hcur : current d₀ s = full d₀ s := by simp only [current, hph]
  refine ⟨hprot, validHead_nil g, h.coherent_bwrite _ _, ?_, ?_, fun _ => h.closed (by simp [hph]),
    hp.returned, hp.durable.ge, hp.durable.le, writeHead_head g _ (validHead_nil g), ?_, rfl,
    hp.durable⟩
  · intro c v hc hv
    have := h.cache_bwrite g.inLog_start _ c v hc hv
    rwa [hcur] at this
  · intro c hc
    cases hc
  · intro c hc
    rw [writeHead_disk hc.ne_start]
    exact hp.installing.done hnone hc

theorem Inv.committed_idle (h : Inv g d₀ s) (hph : s.phase = .committed)
    (hprot : Protocol { s with phase := .idle, committing := false }) :
    Inv g d₀ { s with phase := .idle, committing := false } := by
  have hp := h.phase
  simp only [PhaseInv, hph] at hp
  have hnil := h.closed (by simp [hph])
  refine ⟨hprot, h.valid, h.coherent, ?_, ?_, fun _ => hnil, h.returned_le, h.settled_le,
    h.durable_le, hp.head, hp.disk, by simp [hnil], hp.durable⟩
  · intro b v hb hv
    rw [h.cache b v hb hv]
    simp only [current, hph, hnil]
    rfl
  · intro b hb
    simp [State.pinned, hp.lh] at hb

theorem Inv.boot_readHead (h : Inv g d₀ s) (hph : s.phase = .boot)
    (hprot : Protocol { s.readHead g with phase := .recover 0 }) :
    Inv g d₀ { s.readHead g with phase := .recover 0 } := by
  have hp := h.phase
  simp only [PhaseInv, hph] at hp
  have hread := h.bread_inLog g.inLog_start
  have hlh : (s.readHead g).lh = decodeHead (s.disk g.start) := congrArg decodeHead hread
  have hvalid : ValidHead g (s.readHead g).lh := by
    rw [hlh]
    exact hp.1.valid
  refine ⟨hprot, hvalid, ?_, ?_, by simp [State.pinned], fun _ => h.closed (by simp [hph]),
    h.returned_le, h.settled_le, h.durable_le, hlh.symm, ?_, ?_⟩
  · intro c v hc hv
    rcases update_eq_some hv with ⟨rfl, rfl⟩ | ⟨-, hv⟩
    · exact hread
    · exact h.coherent c v hc hv
  · intro c v hc hv
    rcases update_eq_some hv with ⟨rfl, -⟩ | ⟨-, hv⟩
    · exact absurd g.inLog_start hc
    · rw [h.cache c v hc hv, current, hph]
      rfl
  · rw [hlh]
    exact hp.1.copied
  · rw [hlh]
    exact hp.1.outside

theorem Inv.recover_entry {tail b : Nat} (h : Inv g d₀ s) (hph : s.phase = .recover tail)
    (hb : s.lh[tail]? = some b)
    (hprot : Protocol { s.installEntry g tail b with phase := .recover (tail + 1) }) :
    Inv g d₀ { s.installEntry g tail b with phase := .recover (tail + 1) } := by
  have hp := h.phase
  simp only [PhaseInv, hph] at hp
  have hread := h.bread_inLog (h.valid.inLog (List.getElem?_eq_some_iff.mp hb).1)
  have hnext := hp.installEntry h.valid hb hread
  refine ⟨hprot, h.valid, h.coherent_bwrite _ _, ?_, by simp [State.pinned],
    fun _ => h.closed (by simp [hph]), h.returned_le, h.settled_le, h.durable_le,
    hnext.head, hnext.copied, hnext.disk⟩
  intro c v hc hv
  change v = update s.disk b _ c
  rcases update_eq_some hv with ⟨rfl, rfl⟩ | ⟨hne, hv⟩
  · rw [update_self]
  · rw [update_of_ne hne, h.cache c v hc hv, current, hph]

/-- The end of recovery: the durable groups are installed and the header erased. -/
theorem Inv.recover_done {tail : Nat} (h : Inv g d₀ s) (hph : s.phase = .recover tail)
    (hnone : s.lh[tail]? = none)
    (hs' : s' = { State.writeHead g { s with lh := [] } with
      phase := .idle
      hist := s.hist.take s.durable
      settled := s.durable }) (hprot : Protocol s') : Inv g d₀ s' := by
  subst hs'
  have hp := h.phase
  simp only [PhaseInv, hph] at hp
  have hnil := h.closed (by simp [hph])
  have hlen : s.durable = (s.hist.take s.durable).length := by
    rw [List.length_take, Nat.min_eq_left h.durable_le]
  have hdisk : ∀ c, g.Home c → s.disk c = kept d₀ s c := fun c hc => hp.done hnone hc
  refine ⟨hprot, validHead_nil g, h.coherent_bwrite _ _, ?_, ?_, fun _ => hnil,
    h.returned_le.trans h.settled_le, Nat.le_refl _, hlen.le,
    writeHead_head g _ (validHead_nil g), ?_, ?_, hlen⟩
  · intro c v hc hv
    have hcache := h.cache_bwrite g.inLog_start _ c v hc hv
    rw [hcache, current, hph]
    simp only [current, State.writeHead, State.bwrite, State.setBuf, hnil]
    exact hdisk c hc
  · intro c hc
    cases hc
  · intro c hc
    rw [writeHead_disk hc.ne_start]
    exact hdisk c hc
  · intro u hu
    simp [State.writeHead, State.bwrite, State.setBuf, hnil] at hu

theorem Inv.advance (h : Inv g d₀ s) (hs : advance g s = .next s') : Inv g d₀ s' := by
  have hprot := h.protocol.advance hs
  unfold Log.advance at hs
  split at hs <;> rename_i hph
  · cases hs
  · split at hs <;> rename_i hlh <;> cases hs
    · exact h.commit_writeLog hph hprot
    · exact h.commit_empty hph hlh rfl hprot
  · split at hs <;> rename_i hget <;> cases hs
    · exact h.writeLog_entry hph hget hprot
    · exact h.writeLog_head hph hget hprot
  · split at hs <;> rename_i hget <;> cases hs
    · exact h.install_entry hph hget hprot
    · exact h.install_done hph hget rfl hprot
  · cases hs
    exact h.committed_idle hph hprot
  · cases hs
    exact h.boot_readHead hph hprot
  · split at hs <;> rename_i hget <;> cases hs
    · exact h.recover_entry hph hget hprot
    · exact h.recover_done hph hget rfl hprot

theorem Inv.step {a : Action} (h : Inv g d₀ s) (hs : step g s a = .next s') : Inv g d₀ s' := by
  cases a with
  | beginOp => exact h.beginOp hs
  | logWrite op b v => exact h.logWrite hs
  | endOp op => exact h.endOp hs
  | advance => exact h.advance hs
  | fill b =>
    cases hs
    exact h.fill b
  | recycle b =>
    simp only [Log.step] at hs
    split at hs
    · cases hs
    · cases hs
      exact h.recycle (by assumption)
  | crash =>
    cases hs
    exact h.crash

/-- Every state of every run, crashes included, satisfies the invariant. -/
theorem reach_inv {ok : State → Action → Prop} (hclean : decodeHead (d₀ g.start) = [])
    (h : Reach (Log.step g) ok (· = State.init d₀) s) : Inv g d₀ s :=
  h.invariant (fun _ hs => hs ▸ inv_init hclean) (fun _ _ _ hi _ hs => hi.step hs)

end Xv6.Log
