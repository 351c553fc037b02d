import Xv6.Crash.Buffers
import Xv6.Names.Image

/-! # The file system after a crash

While the kernel runs, the blocks that the log has and what is on the disk of the others are what
the file system has logged, and every commit group is closed on a disk whose blocks have one owner
each. So whatever group the recovery finds last, the disk that it leaves is consistent.
-/

namespace Xv6.Crash

open Lib

variable {sb : Fs.Superblock} {g : Log.Geometry} {img : Nat → Block}
    {s s' l l' log log' : Log.State}
  {c : Nat → Option Block}

/-- The log lies before the inodes, as `mkfs` lays it out. -/
structure Fits (g : Log.Geometry) (sb : Fs.Superblock) : Prop where
  log : g.start + g.size ≤ sb.inodestart
  inodes : 0 < sb.ninodes

theorem Fits.home (h : Fits g sb) {b : Nat} (hb : sb.inodestart ≤ b) : g.Home b := by
  rintro ⟨-, hlt⟩
  have := h.log
  omega

/-! ## The log under a call -/

/-- What the home blocks are once the open group is committed. -/
def pending (img : Nat → Block) (log : Log.State) : Nat → Block :=
  replay (Log.writes log.cur) (Log.full img log)

theorem current_eq_pending (h : Log.Inv g img log) (hb : log.phase.booting = false) :
    Log.current img log = pending img log := by
  by_cases hidle : log.phase = .idle
  · exact Log.current_idle hidle
  · unfold pending
    rw [h.closed hidle]
    unfold Log.current
    split
    · exact absurd ‹_› hidle
    · simp [*, Log.Phase.booting] at hb
    · simp [*, Log.Phase.booting] at hb
    · rfl

/-- What the `log_write` calls of a call do. -/
structure LogWritten (img : Nat → Block) (g : Log.Geometry) (l : List Nat) (log log' : Log.State) :
    Prop where
  inv : Log.Inv g img log'
  hist : log'.hist = log.hist
  active : log'.active = log.active
  disk : log'.disk = log.disk
  mem : ∀ b, b ∈ log.lh ∨ b ∈ l → b ∈ log'.lh
  pending : ∀ b, b ∉ log'.lh → pending img log' b = pending img log b

theorem logWritten {l : List Nat} {op : Nat} {v : Nat → Block} (h : Log.Inv g img log)
    (hop : op ∈ log.active) (hl : ∀ b ∈ l, g.Home b ∧ b < 2 ^ 32) :
    exec (Log.step g) log (l.map fun b => .logWrite op b (v b)) ≠ .blocked ∧
      ∀ log', exec (Log.step g) log (l.map fun b => .logWrite op b (v b)) = .next log' →
      LogWritten img g l log log' := by
  induction l generalizing log with
  | nil =>
    refine ⟨fun hs => (by cases hs), fun log' hs => ?_⟩
    cases hs
    exact ⟨h, rfl, rfl, rfl, fun b hb => hb.resolve_right List.not_mem_nil, fun _ _ => rfl⟩
  | cons b l ih =>
    rw [List.map_cons]
    cases hstep : Log.step g log (.logWrite op b (v b)) with
    | fault f => simp [exec, hstep]
    | blocked =>
      change Log.logWrite g log op b (v b) = .blocked at hstep
      unfold Log.logWrite at hstep
      rw [if_neg (not_not.mpr ⟨hop, hl b List.mem_cons_self⟩)] at hstep
      split at hstep
      · cases hstep
      · split at hstep <;> cases hstep
    | next log₁ =>
      simp only [exec, hstep]
      have hinv := h.step hstep
      obtain ⟨-, -, -, rfl⟩ := Log.logWrite_next hstep
      obtain ⟨hne, hrun⟩ := ih hinv hop fun c hc => hl c (List.mem_cons_of_mem _ hc)
      refine ⟨hne, fun log' hs => ?_⟩
      have hrest := hrun log' hs
      have hmem : ∀ c, c ∈ log.lh ∨ c = b → c ∈ log'.lh :=
        fun c hc => hrest.mem c (.inl (Log.mem_absorb.mpr hc))
      refine ⟨hrest.inv, hrest.hist, hrest.active, hrest.disk, fun c hc => ?_, fun c hc => ?_⟩
      · rcases hc with hc | hc
        · exact hmem c (.inl hc)
        · exact (List.mem_cons.mp hc).elim (fun heq => hmem c (.inr heq)) fun hl =>
            hrest.mem c (.inr hl)
      · have hne : c ≠ b := fun heq => hc (hmem c (.inr heq))
        rw [hrest.pending c hc]
        unfold Crash.pending
        rw [Log.replay_writes_concat, Function.update_of_ne hne]
        rfl

/-- The log has the buffers that the call has left of its blocks. -/
def refresh (log : Log.State) (op : Nat) (buf : Nat → Block) : Log.State :=
  { log with
    cache := fun b => if b ∈ log.lh then some (buf b) else log.cache b
    cur := log.cur ++ log.lh.map fun b => ⟨op, b, buf b⟩ }

theorem pending_refresh (log : Log.State) (op : Nat) (buf : Nat → Block) (b : Nat) :
    pending img (refresh log op buf) b = if b ∈ log.lh then buf b else pending img log b := by
  have hmap : Log.writes (log.lh.map fun b => ⟨op, b, buf b⟩) = log.lh.map fun b => (b, buf b) := by
    simp [Log.writes]
  change replay (Log.writes (log.cur ++ log.lh.map fun b => ⟨op, b, buf b⟩)) (Log.full img log) b =
    _
  rw [Log.writes_append, replay_append, hmap, replay_map]
  rfl

theorem inv_refresh {op : Nat} {buf : Nat → Block} (h : Log.Inv g img log) (hop : op ∈ log.active) :
    Log.Inv g img (refresh log op buf) := by
  have hidle := h.protocol.idle_of_mem hop
  have hp := (Log.phaseInv_idle hidle).mp h.phase
  have hcur : Log.current img (refresh log op buf) = pending img (refresh log op buf) :=
    Log.current_idle hidle
  have hold : Log.current img log = pending img log := Log.current_idle hidle
  refine ⟨⟨h.protocol.count, h.protocol.nodup, h.protocol.fresh, h.protocol.quiet,
    h.protocol.committing⟩, h.valid,
    fun b v hb hv => ?_, fun b v hb hv => ?_, fun b hb => ?_, fun hne => absurd hidle hne,
    h.returned_le, h.settled_le,
    h.durable_le,
    (Log.phaseInv_idle (s := refresh log op buf) hidle).mpr
    ⟨hp.head, hp.disk, fun u hu => ?_, hp.durable⟩⟩
  · have hno : b ∉ log.lh := fun hmem => h.valid.home b hmem hb
    rw [show (refresh log op buf).cache b = log.cache b from if_neg hno] at hv
    exact h.coherent b v hb hv
  · rw [hcur, pending_refresh]
    change (if b ∈ log.lh then some (buf b) else log.cache b) = some v at hv
    split at hv
    · rename_i hmem
      rw [if_pos hmem]
      exact (Option.some.inj hv).symm
    · rename_i hmem
      rw [if_neg hmem, ← hold]
      exact h.cache b v hb hv
  · change ((if b ∈ log.lh then some (buf b) else log.cache b).isSome : Bool) = true
    split
    · rfl
    · exact h.pinned b hb
  · change u ∈ log.cur ++ log.lh.map fun b => ⟨op, b, buf b⟩ at hu
    rcases List.mem_append.mp hu with hu | hu
    · exact hp.logged u hu
    · obtain ⟨b, hb, rfl⟩ := List.mem_map.mp hu
      exact hb

/-! ## The invariant -/

/-- A disk on which the block-allocation invariant holds. -/
def Sane (sb : Fs.Superblock) (img : Nat → Block) : Prop :=
  Fs.AllocInv sb ((Fs.Disk.ofImage img).view sb)

structure Inv (sb : Fs.Superblock) (g : Log.Geometry) (img : Nat → Block) (s : Log.State) :
    Prop where
  log : ∃ l c, s = overlay l c ∧ Log.Inv g img l ∧ Agrees g l c
  groups : ∀ k, Sane sb (Log.applyGroups img (s.hist.take k))
  running : s.phase.booting = false → Fs.FsInv sb (fsDisk s)

theorem Sane.congr {img' : Nat → Block} (hfits : Fits g sb) (h : Sane sb img)
    (heq : ∀ b, g.Home b → img' b = img b) : Sane sb img' :=
  @Fs.AllocInv.agree sb (Fs.Disk.ofImage img) (Fs.Disk.ofImage img')
    (fun b hb _ => heq b (hfits.home hb)) h hfits.inodes

theorem Inv.booting (h : Inv sb g img s) (hb : s.phase.booting = true) : Log.Inv g img s := by
  obtain ⟨l, c, rfl, hinv, hagrees⟩ := h.log
  obtain rfl : c = l.cache := funext fun b => (hagrees b).resolve_right fun hloose => by
    cases hloose.2.2.symm.trans hb
  exact hinv

theorem Inv.protocol (h : Inv sb g img s) : Log.Protocol s := by
  obtain ⟨l, c, rfl, hinv, -⟩ := h.log
  exact ⟨hinv.protocol.count, hinv.protocol.nodup, hinv.protocol.fresh, hinv.protocol.quiet,
    hinv.protocol.committing⟩

theorem mem_lh_of_pinned {b : Nat} (h : b ∈ l.pinned) : b ∈ l.lh := by
  unfold Log.State.pinned at h
  split at h
  · exact List.mem_of_mem_drop h
  · cases h
  · cases h
  · exact h

theorem logged_home {b : Nat} (hinv : Log.Inv g img l) (h : Agrees g l c) (hb : g.Home b) :
    (fsDisk (overlay l c)).logged b = Log.current img l b := by
  change (if b ∈ l.lh then (overlay l c).bread b else l.disk b) = _
  split
  · rename_i hmem
    rw [h.bread fun hloose => hloose.2.1 hmem, hinv.bread_home hb]
  · rename_i hmem
    exact hinv.disk_of_not_pinned hb fun hpin => hmem (mem_lh_of_pinned hpin)

theorem logged_inLog {b : Nat} (hinv : Log.Inv g img l) (h : Agrees g l c) (hb : g.InLog b) :
    (fsDisk (overlay l c)).logged b = l.disk b ∧ (overlay l c).bread b = l.disk b := by
  refine ⟨if_neg fun hmem => hinv.valid.home b hmem hb, ?_⟩
  rw [h.bread fun hloose => hloose.1 hb, hinv.bread_inLog hb]

/-! ## Calls -/

theorem sameData_iff {v w : Block} : sameData v w = true ↔ v = w := by
  unfold sameData
  rw [decide_eq_true_iff, funext_iff]

theorem setBufs_cache (op : Nat) (buf : Nat → Block) (s : Log.State) (b : Nat) :
    (setBufs op buf s).cache b = if sameData (s.bread b) (buf b) then s.cache b else some (buf b) :=
    rfl

theorem setBufs_bread (op : Nat) (buf : Nat → Block) (s : Log.State) :
    (setBufs op buf s).bread = buf := by
  funext b
  unfold Log.State.bread
  rw [setBufs_cache]
  split
  · rename_i heq
    exact sameData_iff.mp heq
  · rfl

/-- The log gets the buffers of its blocks, and the buffers of its own blocks stay. -/
theorem Agrees.setBufs {buf : Nat → Block} (op : Nat) (h : Agrees g l c) (hinv : Log.Inv g img l)
    (hidle : l.phase = .idle) (hbuf : ∀ b, g.InLog b → buf b = l.disk b) :
    Crash.setBufs op buf (overlay l c) = overlay (refresh l op buf)
    (Crash.setBufs op buf (overlay l c)).cache ∧
      Agrees g (refresh l op buf) (Crash.setBufs op buf (overlay l c)).cache := by
  refine ⟨rfl, fun b => ?_⟩
  by_cases hmem : b ∈ l.lh
  · left
    have hsome : (l.cache b).isSome = true :=
      hinv.pinned b (by simpa only [Log.State.pinned, hidle] using hmem)
    obtain ⟨v, hv⟩ := Option.isSome_iff_exists.mp hsome
    have hc : c b = some v := ((h b).resolve_right fun hloose => hloose.2.1 hmem).trans hv
    rw [setBufs_cache, show (refresh l op buf).cache b = some (buf b) from if_pos hmem]
    split
    · rename_i heq
      rw [← sameData_iff.mp heq]
      unfold Log.State.bread
      rw [show (overlay l c).cache b = some v from hc]
      rfl
    · rfl
  by_cases hlog : g.InLog b
  · left
    rw [setBufs_cache, if_pos
      (sameData_iff.mpr ((logged_inLog hinv h hlog).2.trans (hbuf b hlog).symm)),
      show (refresh l op buf).cache b = l.cache b from if_neg hmem]
    exact (h b).resolve_right fun hloose => hloose.1 hlog
  · exact .inr ⟨hlog, hmem, by rw [show (refresh l op buf).phase = l.phase from rfl, hidle]; rfl⟩

theorem exec_overlay (hinv : Log.Inv g img l) (h : Agrees g l c) (as : List Log.Action) :
    Outcome.Rel (fun l s => Log.Inv g img l ∧ s = overlay l s.cache ∧ Agrees g l s.cache)
    (exec (Log.step g) l as)
      (exec (Log.step g) (overlay l c) as) := by
  refine Outcome.Rel.exec (fun l s a hls => ?_) ⟨hinv, rfl, h⟩ as
  obtain ⟨hinv, hs, h⟩ := hls
  have hrel := h.step hinv a
  rw [← hs] at hrel
  generalize hl : Log.step g l a = o at hrel ⊢
  generalize Log.step g s a = o' at hrel ⊢
  cases hrel with
  | blocked => exact .blocked
  | fault f => exact .fault f
  | next hf => exact .next ⟨hinv.step hl, hf.rest, hf.agrees⟩

theorem call_next {op : Nat} {c : Fs.Call} (hs : call sb g s op c = .next s') :
    op ∈ s.active ∧ c.Typed := by
  unfold call at hs
  split at hs
  · split at hs
    · cases hs
    · cases hs
    · exact ⟨‹_›, (Fs.call_next ‹_›).1⟩
  · cases hs

theorem Inv.call {op : Nat} {x : Fs.Call} (hfits : Fits g sb) (h : Inv sb g img s)
    (hop : op ∈ s.active) (hx : x.Typed) :
    Crash.call sb g s op x ≠ .blocked ∧ ∀ s', Crash.call sb g s op x = .next s' →
    Inv sb g img s' := by
  have hidle := h.protocol.idle_of_mem hop
  have hfs := h.running (by rw [hidle]; rfl)
  have hgroups := h.groups
  obtain ⟨l, c, rfl, hinv, hagrees⟩ := h.log
  unfold Crash.call
  rw [if_pos hop]
  cases hcall : Fs.call sb (fsDisk (overlay l c)) x with
  | fault f => exact ⟨fun h => (by cases h), fun _ h => by cases h⟩
  | blocked =>
    unfold Fs.call at hcall
    rw [if_pos hx] at hcall
    split at hcall <;> cases hcall
  | next d =>
    have hd := ((hfs.call_run x hx).of_ok (Fs.call_next hcall).2).inv
    obtain ⟨t, htrace, hregion, hrest⟩ := hfs.call_appends hcall
    obtain ⟨hne, hw⟩ := @logWritten g img l t op d.logged hinv hop fun b hb =>
      ⟨hfits.home (hregion b hb).1, (hregion b hb).2⟩
    have hrel := exec_overlay hinv hagrees (logWrites op d)
    dsimp only
    unfold logWrites at hrel ⊢
    rw [show d.trace = t from htrace] at hrel ⊢
    generalize hl : exec (Log.step g) l (t.map fun b => .logWrite op b (d.logged b)) =
      o at hrel hne hw
    generalize exec (Log.step g) (overlay l c) (t.map fun b => .logWrite op b (d.logged b)) =
      o' at hrel
    cases hrel with
    | blocked => exact absurd rfl hne
    | fault f => exact ⟨fun h => (by cases h), fun _ h => by cases h⟩
    | @next l₁ s₁ hls =>
      obtain ⟨hinv₁, hs₁, hagrees₁⟩ := hls
      generalize s₁.cache = c₁ at hs₁ hagrees₁
      subst hs₁
      have hw := hw l₁ rfl
      have hidle₁ := hinv₁.protocol.idle_of_mem (hw.active ▸ hop : op ∈ l₁.active)
      -- what was not logged is as it was on the disk
      have hdisk : ∀ b, (d.view sb).Meta sb b → b ∉ l₁.lh → d.cached b = l.disk b := by
        intro b hb hmem
        rw [hd.clean b hb, hrest b fun ht => hmem (hw.mem b (.inr ht))]
        exact if_neg fun hl => hmem (hw.mem b (.inl hl))
      have hlog : ∀ b, g.InLog b → d.cached b = l₁.disk b := by
        intro b hb
        rw [hw.disk]
        refine hdisk b (.inl ?_) fun hmem => hinv₁.valid.home b hmem hb
        have := hfits.log
        have := Fs.Superblock.inodestart_le_datastart hfits.inodes
        have := hb.2
        omega
      obtain ⟨hover, hagrees'⟩ := hagrees₁.setBufs op hinv₁ hidle₁ hlog
      refine ⟨fun h => (by cases h), fun s' hs => ?_⟩
      cases hs
      refine ⟨⟨_, _, hover, inv_refresh hinv₁ (hw.active ▸ hop), hagrees'⟩,
        fun k => ?_, fun _ => ?_⟩
      · change Sane sb (Log.applyGroups img (l₁.hist.take k))
        rw [hw.hist]
        exact hgroups k
      · refine hd.agree (fun b _ _ => congrFun (setBufs_bread op d.cached _) b) hfits.inodes
          fun b hb => ?_
        by_cases hmem : b ∈ l₁.lh
        · exact (if_pos hmem).symm
        · refine Eq.trans ?_ (if_neg hmem).symm
          exact (congrFun (setBufs_bread op d.cached _) b).trans
            ((hdisk b hb hmem).trans (congrFun hw.disk b).symm)

/-! ## Steps of the log -/

/-- What a step of the log does to the commit groups. -/
inductive LogStep (log log' : Log.State) (a : Log.Action) : Prop where
  /-- the kernel has yet to boot, or the power has failed -/
  | down (hhist : log'.hist = log.hist) (hb : log'.phase.booting = true)
  | up (hhist : log'.hist = log.hist) (hcur : log'.cur = log.cur) (hold : log.phase.booting = false)
      (hb : log'.phase.booting = false)
  | close (hhist : log'.hist = log.hist ++ [log.cur]) (hcur : log'.cur = [])
      (hold : log.phase.booting = false)
  | recover (ha : a = .advance) (hhist : log'.hist = log.hist.take log.durable)
      (hcur : log'.cur = log.cur) (hold : log.phase.booting = true) (hidle : log'.phase = .idle)

theorem LogStep.keep {a : Log.Action} (hhist : log'.hist = log.hist) (hcur : log'.cur = log.cur)
    (hb : log'.phase.booting = log.phase.booting) : LogStep log log' a := by
  cases hboot : log.phase.booting with
  | true => exact .down hhist (hb.trans hboot)
  | false => exact .up hhist hcur hboot (hb.trans hboot)

theorem log_step {a : Log.Action} (h : Log.Inv g img log) (hs : Log.step g log a = .next log')
    (ha : isLogWrite a = false) : LogStep log log' a := by
  cases a with
  | logWrite op b v => cases ha
  | beginOp =>
    obtain ⟨-, -, -, rfl⟩ := Log.beginOp_next hs
    exact .keep rfl rfl rfl
  | endOp op =>
    obtain ⟨hop, -, ⟨-, rfl⟩ | ⟨-, rfl⟩⟩ := Log.endOp_next hs
    · exact .close rfl rfl (by rw [h.protocol.idle_of_mem hop]; rfl)
    · exact .keep rfl rfl rfl
  | advance =>
    change Log.advance g log = .next log' at hs
    unfold Log.advance at hs
    split at hs <;> rename_i hp
    · cases hs
    · split at hs <;> cases hs <;> exact .keep rfl rfl (hp ▸ rfl)
    · split at hs <;> cases hs <;> exact .keep rfl rfl (hp ▸ rfl)
    · split at hs <;> cases hs <;> exact .keep rfl rfl (hp ▸ rfl)
    · cases hs
      exact .keep rfl rfl (hp ▸ rfl)
    · cases hs
      exact .keep rfl rfl (hp ▸ rfl)
    · split at hs <;> cases hs
      · exact .keep rfl rfl (hp ▸ rfl)
      · exact .recover rfl rfl rfl (hp ▸ rfl) rfl
  | fill b =>
    cases hs
    exact .keep rfl rfl rfl
  | recycle b =>
    simp only [Log.step] at hs
    split at hs <;> cases hs
    exact .keep rfl rfl rfl
  | crash =>
    cases hs
    exact .down rfl rfl

theorem step_log {a : Log.Action} (hs : step sb g s (.log a) = .next s') :
    isLogWrite a = false ∧ Log.step g s a = .next s' := by
  simp only [step] at hs
  split at hs
  · cases hs
  · rename_i ha
    refine ⟨eq_false_of_ne_true ha, ?_⟩
    cases hlog : Log.step g s a <;> rw [hlog] at hs <;> cases hs
    rfl

/-- A step that leaves the blocks with what is logged of them leaves the file system. -/
theorem Follows.fsInv (hfits : Fits g sb) (hf : Follows g l c l' s') (hinv : Log.Inv g img l)
    (hinv' : Log.Inv g img l') (hagrees : Agrees g l c)
    (hsame : Log.current img l' = Log.current img l) (h : Fs.FsInv sb (fsDisk (overlay l c))) :
    Fs.FsInv sb (fsDisk s') := by
  obtain ⟨hrest, hagrees', hreads⟩ := hf
  generalize s'.cache = c' at hrest hagrees'
  subst hrest
  have hold : ∀ b, ((fsDisk (overlay l c)).view sb).Meta sb b → g.Home b →
      (overlay l c).bread b = Log.current img l b :=
    fun b hb hhome => (h.clean b hb).trans (logged_home hinv hagrees hhome)
  have hnew : ∀ b, ((fsDisk (overlay l c)).view sb).Meta sb b → g.Home b →
      (overlay l' c').bread b = Log.current img l' b := by
    intro b hb hhome
    rcases hreads b with heq | heq
    · rw [heq, hold b hb hhome, hsame]
    · rw [heq, hinv'.bread_home hhome]
  refine h.agree (fun b hlo hb => ?_) hfits.inodes fun b hb => ?_
  · exact (hnew b hb (hfits.home hlo)).trans
      (by rw [hsame]; exact (hold b hb (hfits.home hlo)).symm)
  · by_cases hlog : g.InLog b
    · obtain ⟨hlogged, hread⟩ := logged_inLog hinv' hagrees' hlog
      exact hread.trans hlogged.symm
    · exact (hnew b hb hlog).trans (logged_home hinv' hagrees' hlog).symm

theorem LogStep.current {a : Log.Action} (hinv : Log.Inv g img l) (hinv' : Log.Inv g img l')
    (h : LogStep l l' a) (hb : l.phase.booting = false) (hb' : l'.phase.booting = false) :
    Log.current img l' = Log.current img l := by
  rw [current_eq_pending hinv hb, current_eq_pending hinv' hb']
  unfold pending Log.full
  cases h with
  | down _ hdown =>
    rw [hb'] at hdown
    cases hdown
  | up hhist hcur => rw [hhist, hcur]
  | close hhist hcur =>
    rw [hhist, hcur, Log.applyGroups_append]
    rfl
  | recover _ _ _ hold =>
    rw [hb] at hold
    cases hold

theorem bread_recovered (h : Log.Inv g img s) (hidle : s.phase = .idle)
    (hcur : s.cur = []) (b : Nat) : s.bread b = s.disk b := by
  by_cases hlog : g.InLog b
  · exact h.bread_inLog hlog
  · rw [h.bread_home hlog, Log.current_idle hidle, hcur,
      ((Log.phaseInv_idle hidle).mp h.phase).disk b hlog]
    rfl

theorem fsDisk_recovered (h : ∀ b, s.bread b = s.disk b) : fsDisk s = Fs.Disk.ofImage s.disk := by
  have hlogged : (fun b => if b ∈ s.lh then s.bread b else s.disk b) = s.disk := by
    funext b
    rw [h b, ite_self]
  unfold fsDisk Fs.Disk.ofImage
  rw [hlogged, funext h]

theorem sane_close (hfits : Fits g sb) (hinv : Log.Inv g img l) (hagrees : Agrees g l c)
    (hfs : Fs.FsInv sb (fsDisk (overlay l c))) (hb : l.phase.booting = false) :
    Sane sb (Log.applyGroups img (l.hist ++ [l.cur])) := by
  refine Sane.congr hfits (hfs.logged hfits.inodes) fun b hhome => ?_
  rw [logged_home hinv hagrees hhome, current_eq_pending hinv hb, Log.applyGroups_append]
  rfl

theorem Inv.log_step {a : Log.Action} (hfits : Fits g sb) (h : Inv sb g img s)
    (hs : step sb g s (.log a) = .next s') : Inv sb g img s' := by
  obtain ⟨ha, hlog⟩ := step_log hs
  have hgroups := h.groups
  by_cases hboot : s.phase.booting = true
  · have hold := h.booting hboot
    have hinv := hold.step hlog
    cases Crash.log_step hold hlog ha with
    | down hhist hb =>
      refine ⟨⟨s', s'.cache, rfl, hinv, fun b => .inl rfl⟩, by rwa [hhist], fun hup => ?_⟩
      rw [hb] at hup
      cases hup
    | up _ _ hup _ | close _ _ hup =>
      rw [hboot] at hup
      cases hup
    | recover _ hhist hcur _ hidle =>
      have hgroups' : ∀ k, Sane sb (Log.applyGroups img (s'.hist.take k)) := by
        intro k
        rw [hhist, List.take_take]
        exact hgroups _
      refine ⟨⟨s', s'.cache, rfl, hinv, fun b => .inl rfl⟩, hgroups', fun _ => ?_⟩
      have hclosed : s'.cur = [] :=
        hcur.trans (hold.closed fun hi => by rw [hi] at hboot; cases hboot)
      rw [fsDisk_recovered (bread_recovered hinv hidle hclosed)]
      refine Fs.FsInv.ofImage (Sane.congr hfits ?_ ((Log.phaseInv_idle hidle).mp hinv.phase).disk)
      have hall := hgroups' s'.hist.length
      rwa [List.take_length] at hall
  · have hb := eq_false_of_ne_true hboot
    have hfs := h.running hb
    obtain ⟨l, c, rfl, hinv, hagrees⟩ := h.log
    have hrel := hagrees.step hinv a
    rw [hlog] at hrel
    generalize hl : Log.step g l a = o at hrel
    cases hrel with
    | @next l' _ hf =>
      have hinv' := hinv.step hl
      have hstep := Crash.log_step hinv hl ha
      have hhist : s'.hist = l'.hist := by rw [hf.rest]; rfl
      have hphase : s'.phase = l'.phase := by rw [hf.rest]; rfl
      refine ⟨⟨l', s'.cache, hf.rest, hinv', hf.agrees⟩, fun k => ?_, fun hup => ?_⟩
      · rw [hhist]
        cases hstep with
        | down hkeep _ | up hkeep _ _ _ =>
          rw [hkeep]
          exact hgroups k
        | close hclose _ _ =>
          rw [hclose]
          by_cases hk : k ≤ l.hist.length
          · rw [List.take_append_of_le_length hk]
            exact hgroups k
          · rw [List.take_of_length_le (by simp; omega)]
            exact sane_close hfits hinv hagrees hfs hb
        | recover _ _ _ hold _ => exact absurd hold hboot
      · rw [hphase] at hup
        exact hf.fsInv hfits hinv hinv' hagrees (hstep.current hinv hinv' hb hup) hfs

theorem Inv.step {a : Action} (hfits : Fits g sb) (h : Inv sb g img s)
    (hs : Crash.step sb g s a = .next s') : Inv sb g img s' := by
  cases a with
  | call op c =>
    obtain ⟨hop, hc⟩ := call_next hs
    exact (h.call hfits hop hc).2 s' hs
  | log a => exact h.log_step hfits hs

theorem reach_inv (hfits : Fits g sb) (himg : Sane sb img)
    (hclean : Log.decodeHead (img g.start) = [])
    (h : Reach (Crash.step sb g) (fun _ _ => True) (· = Log.State.init img) s) :
    Inv sb g img s := by
  refine h.invariant (fun t ht => ?_) fun _ _ _ hi _ hs => hi.step hfits hs
  subst ht
  refine ⟨⟨_, _, rfl, Log.inv_init hclean, fun b => .inl rfl⟩, fun k => ?_, fun hb => by cases hb⟩
  change Sane sb (Log.applyGroups img (List.take k []))
  rw [List.take_nil]
  exact himg

/-! ## Recovery -/

end Xv6.Crash
