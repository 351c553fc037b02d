import Xv6.Bio.Cache
import Xv6.Lib.Counting

/-! # The representation invariant of the buffer cache

The links form one ring, no two buffers carry the same block, and the reference count of
each buffer counts the processes that use it and its pins.
-/

namespace Xv6.Bio

open Function Lib

/-! ## Users of a buffer -/

def Phase.locks (b : Nat) : Phase → Nat
  | .locked c _ _ => if c = b then 1 else 0
  | _ => 0

def Phase.waits (b : Nat) : Phase → Nat
  | .waiting c _ _ => if c = b then 1 else 0
  | _ => 0

def Phase.releases (b : Nat) : Phase → Nat
  | .releasing c => if c = b then 1 else 0
  | _ => 0

namespace Proc

variable (x : Proc)

def holds (b : Nat) : Nat := x.held.countP (fun u => u.1 = b) + x.phase.locks b

def uses (b : Nat) : Nat := x.holds b + x.phase.waits b + x.phase.releases b

/-- The buffers that the process has, or is about to have, and the blocks it asked for. -/
def names : List (Nat × Nat × Nat) :=
  match x.phase with
  | .waiting b dev blockno | .locked b dev blockno => (b, dev, blockno) :: x.held
  | .idle | .releasing _ => x.held

end Proc

section

variable {δ : Type} {N : Nat} {s s' : State δ} {p q b c dev blockno : Nat} {x y : Proc}

namespace State

variable (N s b)

def holders : Nat := ∑ p ∈ Finset.range N, (s.proc p).holds b

def waiters : Nat := ∑ p ∈ Finset.range N, (s.proc p).phase.waits b

def releasers : Nat := ∑ p ∈ Finset.range N, (s.proc p).phase.releases b

def refs : Nat := s.holders N b + s.waiters N b + s.releasers N b + s.pins b

/-- The block that a process asked for is the one its buffer carries. -/
def Carries (u : Nat × Nat × Nat) : Prop :=
  u.1 < NBUF ∧ (s.buf u.1).dev = u.2.1 ∧ (s.buf u.1).blockno = u.2.2

end State

theorem refs_eq : s.refs N b = ∑ p ∈ Finset.range N, (s.proc p).uses b + s.pins b := by
  unfold State.refs State.holders State.waiters State.releasers Proc.uses
  rw [Finset.sum_add_distrib, Finset.sum_add_distrib]

theorem uses_le_refs (hp : p < N) : (s.proc p).uses b + s.pins b ≤ s.refs N b := by
  rw [refs_eq]
  exact Nat.add_le_add_right (Finset.single_le_sum (f := fun p => (s.proc p).uses b)
    (fun _ _ => Nat.zero_le _) (Finset.mem_range.mpr hp)) _

theorem uses_pos {u : Nat × Nat × Nat} (hu : u ∈ x.names) : 0 < x.uses u.1 := by
  have hheld : u ∈ x.held → 0 < x.uses u.1 := by
    intro hmem
    have hcount : 0 < x.held.countP fun v => v.1 = u.1 := List.countP_pos_iff.mpr ⟨u, hmem, by simp⟩
    unfold Proc.uses Proc.holds
    omega
  unfold Proc.names at hu
  split at hu
  · rename_i hphase
    rcases List.mem_cons.mp hu with rfl | hmem
    · simp [Proc.uses, Proc.holds, hphase, Phase.waits]
    · exact hheld hmem
  · rename_i hphase
    rcases List.mem_cons.mp hu with rfl | hmem
    · simp [Proc.uses, Proc.holds, hphase, Phase.locks]
    · exact hheld hmem
  · exact hheld hu
  · exact hheld hu

/-! ## The invariant -/

structure Inv (N : Nat) (s : State δ) : Prop where
  ring : ∃ l, l.Perm (List.range NBUF) ∧ s.links.Ring head l
  unique : ∀ b c, b < NBUF → c < NBUF → (s.buf b).dev ≠ 0 → (s.buf c).dev = (s.buf b).dev →
    (s.buf c).blockno = (s.buf b).blockno → c = b
  count : ∀ b, b < NBUF → (s.buf b).refcnt = s.refs N b
  small : ∀ b, b < NBUF → (s.buf b).refcnt < 2 ^ 32
  named : ∀ p, p < N → ∀ u ∈ (s.proc p).names, s.Carries u
  releasing : ∀ p, p < N → ∀ b, (s.proc p).phase = .releasing b → b < NBUF
  locks : ∀ p, p < N → ∀ b, b < NBUF → (s.proc p).holds b = if (s.buf b).lock =
    ⟨true, p⟩ then 1 else 0

theorem Inv.change (h : Inv N s) (hp : p < N) (hproc : s'.proc = update s.proc p y)
    (hring : ∃ l, l.Perm (List.range NBUF) ∧ s'.links.Ring head l)
    (hdev : ∀ c, (s'.buf c).dev = (s.buf c).dev ∧ (s'.buf c).blockno = (s.buf c).blockno)
    (hnames : ∀ u ∈ y.names, s.Carries u) (hreleasing : ∀ b, y.phase = .releasing b → b < NBUF)
    (hcount : ∀ c, c < NBUF →
      (s'.buf c).refcnt + (s.proc p).uses c + s.pins c = (s.buf c).refcnt + y.uses c + s'.pins c)
    (hsmall : ∀ c, c < NBUF → (s'.buf c).refcnt < 2 ^ 32)
    (hmine : ∀ c, c < NBUF → y.holds c = if (s'.buf c).lock = ⟨true, p⟩ then 1 else 0)
    (hothers : ∀ c, c < NBUF → ∀ q, q ≠ p →
      ((s'.buf c).lock = ⟨true, q⟩ ↔ (s.buf c).lock = ⟨true, q⟩)) :
    Inv N s' := by
  have hself : s'.proc p = y := by rw [hproc, update_self]
  have hother : ∀ q, q ≠ p → s'.proc q = s.proc q :=
    fun q hq => by rw [hproc, update_of_ne hq]
  have hcarries : ∀ u, s.Carries u → s'.Carries u := by
    rintro u ⟨hu, hd, hb⟩
    exact ⟨hu, (hdev u.1).1.trans hd, (hdev u.1).2.trans hb⟩
  refine ⟨hring, fun b c hb hc => ?_, fun c hc => ?_, hsmall, fun q hq u hu => ?_,
    fun q hq b hb => ?_, fun q hq c hc => ?_⟩
  · rw [(hdev b).1, (hdev b).2, (hdev c).1, (hdev c).2]
    exact h.unique b c hb hc
  · have htrade := sum_update_trade (fun x : Proc => x.uses c) s.proc (Finset.mem_range.mpr hp) y
    have hold := h.count c hc
    have hnew := hcount c hc
    rw [refs_eq] at hold ⊢
    rw [hproc]
    omega
  · by_cases hqp : q = p
    · rw [hqp, hself] at hu
      exact hcarries u (hnames u hu)
    · rw [hother q hqp] at hu
      exact hcarries u (h.named q hq u hu)
  · by_cases hqp : q = p
    · rw [hqp, hself] at hb
      exact hreleasing b hb
    · rw [hother q hqp] at hb
      exact h.releasing q hq b hb
  · by_cases hqp : q = p
    · rw [hqp, hself]
      exact hmine c hc
    · rw [hother q hqp, h.locks q hq c hc]
      exact if_congr (hothers c hc q hqp).symm rfl rfl

theorem Inv.rename (h : Inv N s) (hb : b < NBUF) (hfree : s.refs N b = 0)
    (hnew : ∀ c, c < NBUF → ¬ ((s.buf c).dev = dev ∧ (s.buf c).blockno = blockno)) :
    Inv N (s.setBuf b { s.buf b with dev := dev, blockno := blockno, valid := false }) := by
  have hbuf : ∀ c, c ≠ b → (s.setBuf b { s.buf b with
      dev := dev, blockno := blockno, valid := false }).buf c = s.buf c :=
    fun c hc => update_of_ne hc _ _
  have hself : (s.setBuf b { s.buf b with dev := dev, blockno := blockno, valid := false }).buf b =
      { s.buf b with dev := dev, blockno := blockno, valid := false } := update_self _ _ _
  generalize hs' : s.setBuf b { s.buf b with dev := dev, blockno := blockno, valid := false } =
    s' at *
  have hproc : s'.proc = s.proc := hs' ▸ rfl
  have hpins : s'.pins = s.pins := hs' ▸ rfl
  have hlinks : s'.links = s.links := hs' ▸ rfl
  have hrefs : ∀ c, s'.refs N c = s.refs N c := fun c => by rw [refs_eq, refs_eq, hproc, hpins]
  have hrefcnt : ∀ c, (s'.buf c).refcnt = (s.buf c).refcnt := by
    intro c
    by_cases hc : c = b
    · rw [hc, hself]
    · rw [hbuf c hc]
  have hlock : ∀ c, (s'.buf c).lock = (s.buf c).lock := by
    intro c
    by_cases hc : c = b
    · rw [hc, hself]
    · rw [hbuf c hc]
  refine ⟨hlinks ▸ h.ring, fun c d hc hd => ?_, fun c hc => ?_, fun c hc => ?_,
    fun q hq u hu => ?_, ?_, ?_⟩
  · by_cases hcb : c = b
    · by_cases hdb : d = b
      · exact fun _ _ _ => hdb.trans hcb.symm
      · rw [hcb, hself, hbuf d hdb]
        exact fun _ h₁ h₂ => absurd ⟨h₁, h₂⟩ (hnew d hd)
    · by_cases hdb : d = b
      · rw [hdb, hself, hbuf c hcb]
        exact fun _ h₁ h₂ => absurd ⟨h₁.symm, h₂.symm⟩ (hnew c hc)
      · rw [hbuf c hcb, hbuf d hdb]
        exact h.unique c d hc hd
  · rw [hrefcnt, hrefs]
    exact h.count c hc
  · rw [hrefcnt]
    exact h.small c hc
  · rw [hproc] at hu
    obtain ⟨hlt, hd, hn⟩ := h.named q hq u hu
    -- the buffer `b` is named by no process
    have hub : u.1 ≠ b := by
      rintro rfl
      have := uses_pos hu
      have := @uses_le_refs δ N s q u.1 hq
      omega
    exact ⟨hlt, by rw [hbuf _ hub, hd], by rw [hbuf _ hub, hn]⟩
  · rw [hproc]
    exact h.releasing
  · intro q hq c hc
    rw [hproc, hlock]
    exact h.locks q hq c hc

/-! ## Steps -/

/-- A step of process `p` that changes, apart from the process itself, only buffer `b`, its
pins and the disk. -/
theorem Inv.changeBuf {x : Buf δ} (h : Inv N s) (hp : p < N)
    (hproc : s'.proc = update s.proc p y) (hlinks : s'.links = s.links)
    (hbuf : s'.buf = update s.buf b x) (hpins : ∀ c, c ≠ b → s'.pins c = s.pins c)
    (hblock : x.dev = (s.buf b).dev ∧ x.blockno = (s.buf b).blockno)
    (hnames : ∀ u ∈ y.names, s.Carries u) (hreleasing : ∀ b, y.phase = .releasing b → b < NBUF)
    (huses : ∀ c, c ≠ b → y.uses c = (s.proc p).uses c)
    (hcount : b < NBUF → x.refcnt + (s.proc p).uses b + s.pins b = (s.buf b).refcnt +
      y.uses b + s'.pins b)
    (hsmall : x.refcnt < 2 ^ 32) (hholds : ∀ c, c ≠ b → y.holds c = (s.proc p).holds c)
    (hmine : b < NBUF → y.holds b = if x.lock = ⟨true, p⟩ then 1 else 0)
    (hothers : ∀ q, q ≠ p → (x.lock = ⟨true, q⟩ ↔ (s.buf b).lock = ⟨true, q⟩)) : Inv N s' := by
  have hself : s'.buf b = x := by rw [hbuf, update_self]
  have hother : ∀ c, c ≠ b → s'.buf c = s.buf c :=
    fun c hc => by rw [hbuf, update_of_ne hc]
  refine h.change hp hproc (hlinks ▸ h.ring) (fun c => ?_) hnames hreleasing (fun c hc => ?_)
    (fun c hc => ?_) (fun c hc => ?_) fun c hc q hq => ?_
  · by_cases hcb : c = b
    · rw [hcb, hself]
      exact hblock
    · rw [hother c hcb]
      exact ⟨rfl, rfl⟩
  · by_cases hcb : c = b
    · subst hcb
      rw [hself]
      exact hcount hc
    · rw [hother c hcb, huses c hcb, hpins c hcb]
  · by_cases hcb : c = b
    · rw [hcb, hself]
      exact hsmall
    · rw [hother c hcb]
      exact h.small c hc
  · by_cases hcb : c = b
    · subst hcb
      rw [hself]
      exact hmine hc
    · rw [hother c hcb, hholds c hcb]
      exact h.locks p hp c hc
  · by_cases hcb : c = b
    · rw [hcb, hself]
      exact hothers q hq
    · rw [hother c hcb]

theorem Inv.reserve (h : Inv N s) (hp : p < N) (hidle : (s.proc p).phase = .idle)
    (hb : s.Carries (b, dev, blockno)) (hroom : s.refs N b + 1 < 2 ^ 32) :
    Inv N ((s.incr b).setProc p { s.proc p with phase := .waiting b dev blockno }) := by
  have hcount := h.count b hb.1
  have hlocks := h.locks p hp b hb.1
  simp only [Proc.holds, hidle, Phase.locks] at hlocks
  refine h.changeBuf hp rfl rfl rfl (fun _ _ => rfl) ⟨rfl, rfl⟩ (fun u hu => ?_)
    (fun _ hc => by cases hc)
    (fun c hc => ?_) (fun _ => ?_) (Nat.mod_lt _ (by decide)) (fun c hc => ?_)
      (fun _ => ?_) fun _ _ => Iff.rfl
  · rcases List.mem_cons.mp hu with rfl | hmem
    · exact hb
    · refine h.named p hp u ?_
      simpa only [Proc.names, hidle] using hmem
  · simp [Proc.uses, Proc.holds, hidle, Phase.locks, Phase.waits, Phase.releases, Ne.symm hc]
  · simp only [Proc.uses, Proc.holds, hidle, Phase.locks, Phase.waits, Phase.releases, if_true]
    change _ = _ + _ + s.pins b
    omega
  · simp [Proc.holds, hidle, Phase.locks]
  · simpa only [Proc.holds, Phase.locks] using hlocks

theorem names_waiting (h : Inv N s) (hp : p < N)
    (hphase : (s.proc p).phase = .waiting b dev blockno) : s.Carries (b, dev, blockno) := by
  refine h.named p hp _ ?_
  simp [Proc.names, hphase]

theorem Inv.acquiresleep (h : Inv N s) (hp : p < N)
    (hphase : (s.proc p).phase = .waiting b dev blockno) (hlock : (s.buf b).lock.locked = false) :
    Inv N ((s.setBuf b { s.buf b with lock := ⟨true, p⟩ }).setProc p
      { s.proc p with phase := .locked b dev blockno }) := by
  have hb := names_waiting h hp hphase
  have hfree : ∀ q, (s.buf b).lock ≠ ⟨true, q⟩ := by
    intro q heq
    rw [heq] at hlock
    cases hlock
  have hlocks := h.locks p hp b hb.1
  rw [if_neg (hfree p)] at hlocks
  simp only [Proc.holds, hphase, Phase.locks] at hlocks
  refine h.changeBuf hp rfl rfl rfl (fun _ _ => rfl) ⟨rfl, rfl⟩ (fun u hu => ?_)
    (fun _ hc => by cases hc)
    (fun c hc => ?_) (fun hb => ?_) (h.small b hb.1) (fun c hc => ?_) (fun _ => ?_) fun q hq => ?_
  · refine h.named p hp u ?_
    simpa only [Proc.names, hphase] using hu
  · simp [Proc.uses, Proc.holds, hphase, Phase.locks, Phase.waits, Phase.releases, Ne.symm hc]
  · simp only [Proc.uses, Proc.holds, hphase, Phase.locks, Phase.waits, Phase.releases, if_true]
    change _ = _ + _ + s.pins b
    omega
  · simp [Proc.holds, hphase, Phase.locks, Ne.symm hc]
  · simp only [Proc.holds, Phase.locks, if_true]
    omega
  · exact ⟨fun heq => absurd (Sleeplock.mk.inj heq).2.symm hq, fun heq => absurd heq (hfree q)⟩

theorem Inv.bread (h : Inv N s) (hp : p < N) (hphase : (s.proc p).phase = .locked b dev blockno) :
    Inv N ((s.fill b).setProc p ⟨.idle, (b, dev, blockno) :: (s.proc p).held⟩) := by
  have hb : s.Carries (b, dev, blockno) := h.named p hp _ (by simp [Proc.names, hphase])
  have hlocks := h.locks p hp b hb.1
  simp only [Proc.holds, hphase, Phase.locks, if_true] at hlocks
  obtain ⟨x, hbuf, hx⟩ : ∃ x, (s.fill b).buf = update s.buf b x ∧
      (x.dev = (s.buf b).dev ∧ x.blockno = (s.buf b).blockno) ∧ x.refcnt = (s.buf b).refcnt ∧
      x.lock = (s.buf b).lock := by
    unfold State.fill
    split
    · exact ⟨s.buf b, (update_eq_self b s.buf).symm, ⟨rfl, rfl⟩, rfl, rfl⟩
    · exact ⟨_, rfl, ⟨rfl, rfl⟩, rfl, rfl⟩
  have hsame : (s.fill b).proc = s.proc ∧ (s.fill b).links = s.links ∧
      (s.fill b).pins = s.pins := by
    unfold State.fill
    split <;> exact ⟨rfl, rfl, rfl⟩
  have hproc : ((s.fill b).setProc p ⟨.idle, (b, dev, blockno) :: (s.proc p).held⟩).proc =
      update s.proc p ⟨.idle, (b, dev, blockno) :: (s.proc p).held⟩ := by
    rw [State.setProc, hsame.1]
  refine h.changeBuf hp hproc hsame.2.1 hbuf (fun c _ => congrFun hsame.2.2 c) hx.1
    (fun u hu => ?_) (fun _ hc => by cases hc) (fun c hc => ?_)
      (fun _ => ?_) (by rw [hx.2.1]; exact h.small b hb.1)
    (fun c hc => ?_) (fun _ => ?_) fun q _ => by rw [hx.2.2]
  · refine h.named p hp u ?_
    simpa only [Proc.names, hphase] using hu
  · simp [Proc.uses, Proc.holds, hphase, Phase.locks, Phase.waits, Phase.releases, Ne.symm hc]
  · change _ = _ + _ + (s.fill b).pins b
    rw [hx.2.1, hsame.2.2]
    simp only [Proc.uses, Proc.holds, hphase, Phase.locks, Phase.waits, Phase.releases,
      List.countP_cons, decide_true, if_true, Nat.add_zero]
  · simp [Proc.holds, hphase, Phase.locks, Ne.symm hc]
  · rw [hx.2.2, ← hlocks]
    simp [Proc.holds, Phase.locks]

theorem Inv.store (h : Inv N s) (hp : p < N) (hb : b < NBUF) (v : δ) :
    Inv N (s.setBuf b { s.buf b with data := v }) :=
  h.changeBuf hp (update_eq_self p s.proc).symm rfl rfl (fun _ _ => rfl) ⟨rfl, rfl⟩
    (h.named p hp)
    (h.releasing p hp) (fun _ _ => rfl) (fun _ => rfl) (h.small b hb) (fun _ _ => rfl)
      (h.locks p hp b)
    fun _ _ => Iff.rfl

theorem Inv.setDisk (h : Inv N s) (disk : Nat → Nat → δ) : Inv N { s with disk := disk } :=
  ⟨h.ring, h.unique, h.count, h.small, h.named, h.releasing, h.locks⟩

theorem Inv.holding (h : Inv N s) (hp : p < N) (hhas : s.Has p b) :
    b < NBUF ∧ s.holdingsleep p b = true ∧ (s.proc p).holds b = 1 := by
  obtain ⟨hidle, hmem⟩ := hhas
  obtain ⟨u, hu, rfl⟩ := List.mem_map.mp hmem
  have hcarries : s.Carries u := by
    refine h.named p hp u ?_
    simpa only [Proc.names, hidle] using hu
  have hpos : 0 < (s.proc p).held.countP fun v => v.1 = u.1 :=
    List.countP_pos_iff.mpr ⟨u, hu, by simp⟩
  have hlocks := h.locks p hp u.1 hcarries.1
  have hholds : (s.proc p).holds u.1 = (s.proc p).held.countP (fun v => v.1 = u.1) := by
    simp [Proc.holds, hidle, Phase.locks]
  by_cases hlock : (s.buf u.1).lock = ⟨true, p⟩
  · rw [if_pos hlock] at hlocks
    exact ⟨hcarries.1, by simp [State.holdingsleep, hlock], hlocks⟩
  · rw [if_neg hlock] at hlocks
    omega

theorem countP_eraseP (l : List (Nat × Nat × Nat)) (hmem : b ∈ l.map Prod.fst) (c : Nat) :
    (l.eraseP fun u => u.1 = b).countP (fun u => u.1 = c) + (if b = c then 1 else 0) =
      l.countP fun u => u.1 = c := by
  obtain ⟨u, hu, rfl⟩ := List.mem_map.mp hmem
  obtain ⟨v, l₁, l₂, -, hv, hl, herase⟩ :=
    List.exists_of_eraseP (p := fun w : Nat × Nat × Nat => decide (w.1 = u.1)) hu (by simp)
  have hvu : v.1 = u.1 := by simpa using hv
  rw [herase, hl, List.countP_append, List.countP_append, List.countP_cons, hvu]
  simp only [decide_eq_true_eq]
  omega

theorem Inv.releasesleep (h : Inv N s) (hp : p < N) (hhas : s.Has p b) :
    Inv N ((s.setBuf b { s.buf b with lock := ⟨false, 0⟩ }).setProc p
      ⟨.releasing b, (s.proc p).held.eraseP fun u => u.1 = b⟩) := by
  obtain ⟨hb, hholding, hone⟩ := h.holding hp hhas
  obtain ⟨hidle, hmem⟩ := hhas
  have hcount := countP_eraseP (s.proc p).held hmem
  have hlock : (s.buf b).lock = ⟨true, p⟩ := by
    have hlocks := h.locks p hp b hb
    by_contra hne
    rw [if_neg hne] at hlocks
    omega
  have hfree : (⟨false, 0⟩ : Sleeplock) ≠ ⟨true, p⟩ :=
    fun heq => Bool.false_ne_true (Sleeplock.mk.inj heq).1
  simp only [Proc.holds, hidle, Phase.locks, Nat.add_zero] at hone
  refine h.changeBuf hp rfl rfl rfl (fun _ _ => rfl) ⟨rfl, rfl⟩ (fun u hu => ?_) (fun c hc => ?_)
    (fun c hc => ?_) (fun _ => ?_) (h.small b hb) (fun c hc => ?_) (fun _ => ?_) fun q hq => ?_
  · refine h.named p hp u ?_
    simp only [Proc.names, hidle]
    exact List.mem_of_mem_eraseP hu
  · cases hc
    exact hb
  · have := hcount c
    simp only [Proc.uses, Proc.holds, hidle, Phase.locks, Phase.waits, Phase.releases,
      if_neg (Ne.symm hc)] at this ⊢
    omega
  · have := hcount b
    change _ = _ + _ + s.pins b
    simp only [Proc.uses, Proc.holds, hidle, Phase.locks, Phase.waits, Phase.releases,
      if_true] at this ⊢
    omega
  · have := hcount c
    simp only [Proc.holds, hidle, Phase.locks, if_neg (Ne.symm hc)] at this ⊢
    omega
  · have := hcount b
    simp only [Proc.holds, Phase.locks, if_true] at this ⊢
    rw [if_neg hfree]
    omega
  · rw [hlock]
    exact ⟨fun heq => absurd (Sleeplock.mk.inj heq).1 Bool.false_ne_true,
      fun heq => absurd (Sleeplock.mk.inj heq).2.symm hq⟩

/-- Buffer `b` loses a reference of process `p`, or a pin, and moves to the front if it has no
other. -/
theorem Inv.drop (h : Inv N s) (hp : p < N) (hb : b < NBUF)
    (hproc : s'.proc = update s.proc p y) (hbuf : s'.buf = (s.decr b).buf)
    (hlinks : ∃ l, l.Perm (List.range NBUF) ∧ s'.links.Ring head l)
    (hnames : ∀ u ∈ y.names, s.Carries u) (hreleasing : ∀ b, y.phase = .releasing b → b < NBUF)
    (hholds : y.holds = (s.proc p).holds)
    (hone : ∀ c, (s.proc p).uses c + s.pins c = y.uses c + s'.pins c + if c = b then 1 else 0) :
    Inv N s' := by
  have hcount := h.count b hb
  have hpos : 0 < (s.buf b).refcnt := by
    have hle := @uses_le_refs δ N s p b hp
    have hb1 := hone b
    rw [if_pos rfl] at hb1
    omega
  have hsmall := h.small b hb
  have hdecr : ((s.buf b).refcnt + (2 ^ 32 - 1)) % 2 ^ 32 = (s.buf b).refcnt - 1 := by omega
  have hself : s'.buf b = { s.buf b with refcnt := (s.buf b).refcnt - 1 } := by
    rw [← hdecr]
    exact (congrFun hbuf b).trans (update_self _ _ _)
  have hother : ∀ c, c ≠ b → s'.buf c = s.buf c := fun c hc =>
    (congrFun hbuf c).trans (update_of_ne hc _ _)
  refine h.change hp hproc hlinks (fun c => ?_) hnames hreleasing (fun c hc => ?_) (fun c hc => ?_)
    (fun c hc => ?_) fun c hc q _ => ?_
  · by_cases hcb : c = b
    · rw [hcb, hself]
      exact ⟨rfl, rfl⟩
    · rw [hother c hcb]
      exact ⟨rfl, rfl⟩
  · have hc1 := hone c
    by_cases hcb : c = b
    · subst hcb
      rw [if_pos rfl] at hc1
      rw [hself]
      dsimp only
      omega
    · rw [if_neg hcb] at hc1
      rw [hother c hcb]
      omega
  · by_cases hcb : c = b
    · rw [hcb, hself]
      dsimp only
      omega
    · rw [hother c hcb]
      exact h.small c hc
  · rw [hholds, h.locks p hp c hc]
    by_cases hcb : c = b
    · rw [hcb, hself]
    · rw [hother c hcb]
  · by_cases hcb : c = b
    · rw [hcb, hself]
    · rw [hother c hcb]

theorem ring_front {k : Links Nat} {l : List Nat} (hperm : l.Perm (List.range NBUF))
    (hring : k.Ring head l) (hb : b < NBUF) :
    ∃ l, l.Perm (List.range NBUF) ∧ ((k.unlink b).insert head b).Ring head l := by
  obtain ⟨l₁, l₂, rfl⟩ := List.append_of_mem (hperm.mem_iff.mpr (List.mem_range.mpr hb))
  have hout := hring.unlink
  have hnot : b ∉ head :: (l₁ ++ l₂) := by
    have hnodup := (List.nodup_cons.mp hring.nodup).2
    rw [List.nodup_middle, List.nodup_cons] at hnodup
    rw [List.mem_cons, not_or]
    exact ⟨Nat.ne_of_lt hb, hnodup.1⟩
  exact ⟨b :: (l₁ ++ l₂), List.perm_middle.symm.trans hperm, hout.insert hnot⟩

theorem Inv.release (h : Inv N s) (hp : p < N) (hphase : (s.proc p).phase = .releasing b) :
    Inv N ((s.release b).setProc p { s.proc p with phase := .idle }) := by
  have hb := h.releasing p hp b hphase
  obtain ⟨l, hperm, hring⟩ := h.ring
  have hsame : (s.release b).proc = s.proc ∧ (s.release b).pins = s.pins ∧ (s.release b).buf =
      (s.decr b).buf := by
    unfold State.release
    dsimp only
    split <;> exact ⟨rfl, rfl, rfl⟩
  have hlinks : ∃ l, l.Perm (List.range NBUF) ∧ (s.release b).links.Ring head l := by
    unfold State.release
    dsimp only
    split
    · exact ring_front hperm hring hb
    · exact ⟨l, hperm, hring⟩
  have hproc : ((s.release b).setProc p { s.proc p with phase := .idle }).proc =
      update s.proc p { s.proc p with phase := .idle } := by
    rw [State.setProc, hsame.1]
  refine h.drop hp hb hproc hsame.2.2 hlinks (fun u hu => ?_)
    (fun _ hc => by cases hc) ?_ fun c => ?_
  · refine h.named p hp u ?_
    simpa only [Proc.names, hphase] using hu
  · funext c
    simp [Proc.holds, hphase, Phase.locks]
  · change _ = _ + (s.release b).pins c + _
    rw [hsame.2.1]
    by_cases hcb : c = b
    · subst hcb
      simp only [Proc.uses, Proc.holds, hphase, Phase.locks, Phase.waits, Phase.releases, if_true]
      omega
    · simp only [Proc.uses, Proc.holds, hphase, Phase.locks, Phase.waits,
        Phase.releases, if_neg hcb, if_neg (Ne.symm hcb)]
      omega

theorem Inv.bpin (h : Inv N s) (hp : p < N) (hb : b < NBUF) (hroom : s.refs N b + 1 < 2 ^ 32) :
    Inv N { s.incr b with pins := update s.pins b (s.pins b + 1) } := by
  have hcount := h.count b hb
  refine h.changeBuf hp (update_eq_self p s.proc).symm rfl rfl
    (fun c hc => update_of_ne hc _ _) ⟨rfl, rfl⟩ (h.named p hp) (h.releasing p hp)
      (fun _ _ => rfl)
    (fun _ => ?_) (Nat.mod_lt _ (by decide)) (fun _ _ => rfl) (h.locks p hp b) fun _ _ => Iff.rfl
  dsimp only
  rw [update_self]
  omega

theorem Inv.bunpin (h : Inv N s) (hp : p < N) (hb : b < NBUF) (hpins : 0 < s.pins b) :
    Inv N { s.decr b with pins := update s.pins b (s.pins b - 1) } := by
  refine h.drop hp hb (update_eq_self p s.proc).symm rfl h.ring (h.named p hp)
    (h.releasing p hp) rfl ?_
  intro c
  dsimp only
  by_cases hcb : c = b
  · subst hcb
    rw [update_self, if_pos rfl]
    omega
  · rw [update_of_ne hcb, if_neg hcb]
    omega

end

end Xv6.Bio
