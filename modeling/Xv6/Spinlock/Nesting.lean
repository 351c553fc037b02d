import Xv6.Spinlock.Model

/-! # Interrupt nesting is per thread

`noff` and `intena` of a CPU are those of the thread that runs on it; a process that is
switched out keeps its own in `sched`.
-/

namespace Xv6.Spinlock

open Function Lib

/-- A CPU and the thread that runs on it. -/
structure Agrees (k : Cpu) (t : Kthread) : Prop where
  noff : k.noff = t.depth
  off : 0 < t.depth → k.sie = false
  old : ∀ b, t.old = some b → k.sie = b
  nodup : t.held.Nodup
  held : t.held.length ≤ t.depth
  intena : 0 < t.depth → t.switched = false → ∀ b, t.enabled = some b → k.intena = b

/-- A thread that holds the lock of `p` across `swtch`. -/
structure Across (p : Nat) (t : Kthread) : Prop where
  old : t.old = none
  held : t.held = [.proc p]
  depth : t.depth = 1

/-- What a process finds in `intena` when it goes on. -/
def Context.Restores (enabled : Option Bool) : Context → Prop
  | .forkret => enabled = none
  | .sched intena => ∀ b, enabled = some b → intena = b

structure Inv (s : State) : Prop where
  home : ∀ c d, (s.cpu c).cur = .sched d → d = c
  running : ∀ c p, (s.cpu c).cur = .proc p → s.state p = .running
  once : ∀ c d p, (s.cpu c).cur = .proc p → (s.cpu d).cur = .proc p → c = d
  agrees : ∀ c, Agrees (s.cpu c) (s.on c)
  traps : ∀ t b, some b ∈ (s.thread t).traps → b = true
  parked : ∀ p, (s.state p).Waits →
    Across p (s.thread (.proc p)) ∧ (s.thread (.proc p)).context.Restores
    (s.thread (.proc p)).enabled
  away : ∀ c p, (s.cpu c).cur = .proc p → Across p (s.thread (.sched c)) ∧
    (s.thread (.sched c)).switched = true
  process : ∀ p, (s.thread (.proc p)).switched = false
  locks : ∀ c l, s.lock l = some c ↔ l ∈ (s.on c).held

variable {s : State} {c p : Nat}

theorem Inv.cur_ne (h : Inv s) {d : Nat} (hd : d ≠ c) : (s.cpu d).cur ≠ (s.cpu c).cur := by
  intro heq
  cases hc : (s.cpu c).cur with
  | sched e => exact hd ((h.home d e (heq.trans hc)).symm.trans (h.home c e hc))
  | proc p => exact hd (h.once d c p (heq.trans hc) hc)

theorem Inv.cur_ne_proc (h : Inv s) (hp : s.state p ≠ .running) (d : Nat) :
    (s.cpu d).cur ≠ .proc p :=
  fun hcur => hp (h.running d p hcur)

/-- Of the CPUs and threads, `s'` has another CPU `c` than `s`, and another thread where `c`
ran in `s`. -/
structure Changes (s s' : State) (c : Nat) (k : Cpu) (t : Kthread) : Prop where
  cpu : s'.cpu = update s.cpu c k
  thread : s'.thread = update s.thread (s.cpu c).cur t

namespace Changes

variable {s' : State} {k : Cpu} {t : Kthread}

theorem cpu_self (h : Changes s s' c k t) : s'.cpu c = k := by
  rw [h.cpu, update_self]

theorem cpu_of_ne (h : Changes s s' c k t) {d : Nat} (hd : d ≠ c) : s'.cpu d = s.cpu d := by
  rw [h.cpu, update_of_ne hd]

theorem thread_self (h : Changes s s' c k t) : s'.thread (s.cpu c).cur = t := by
  rw [h.thread, update_self]

theorem thread_of_ne (h : Changes s s' c k t) {u : Thread} (hu : u ≠ (s.cpu c).cur) :
    s'.thread u = s.thread u := by
  rw [h.thread, update_of_ne hu]

theorem on_of_ne (h : Changes s s' c k t) (hinv : Inv s) {d : Nat} (hd : d ≠ c) :
    s'.on d = s.on d := by
  unfold State.on
  rw [h.cpu_of_ne hd, h.thread_of_ne (hinv.cur_ne hd)]

theorem traps (h : Changes s s' c k t) (hinv : Inv s) (ht : ∀ b, some b ∈ t.traps → b = true)
    (u : Thread) (b : Bool) (hb : some b ∈ (s'.thread u).traps) : b = true := by
  by_cases hu : u = (s.cpu c).cur
  · rw [hu, h.thread_self] at hb
    exact ht b hb
  · rw [h.thread_of_ne hu] at hb
    exact hinv.traps u b hb

theorem agrees (h : Changes s s' c k t) (hinv : Inv s) (hc : Agrees k (s'.on c)) (d : Nat) :
    Agrees (s'.cpu d) (s'.on d) := by
  by_cases hd : d = c
  · rw [hd, h.cpu_self]
    exact hc
  · rw [h.cpu_of_ne hd, h.on_of_ne hinv hd]
    exact hinv.agrees d

theorem process (h : Changes s s' c k t) (hinv : Inv s)
    (ht : ∀ q, (s.cpu c).cur = .proc q → t.switched = false) (q : Nat) :
    (s'.thread (.proc q)).switched = false := by
  by_cases hq : .proc q = (s.cpu c).cur
  · rw [hq, h.thread_self]
    exact ht q hq.symm
  · rw [h.thread_of_ne hq]
    exact hinv.process q

end Changes

/-- A step of the thread on `c` that leaves it there, and changes no state of a process. -/
structure Acts (s s' : State) (c : Nat) (k : Cpu) (t : Kthread) :
    Prop extends Changes s s' c k t where
  state : s'.state = s.state
  cur : k.cur = (s.cpu c).cur

theorem Acts.cur_eq {s' : State} {k : Cpu} {t : Kthread} (h : Acts s s' c k t) (d : Nat) :
    (s'.cpu d).cur = (s.cpu d).cur := by
  by_cases hd : d = c
  · rw [hd, h.cpu_self, h.cur]
  · rw [h.cpu_of_ne hd]

theorem Acts.on_self {s' : State} {k : Cpu} {t : Kthread} (h : Acts s s' c k t) : s'.on c = t := by
  unfold State.on
  rw [h.cur_eq, h.thread_self]

/-- Such a step keeps the invariant if it keeps what concerns the thread. -/
theorem Inv.acts {s' : State} {k : Cpu} {t : Kthread} (h : Inv s) (ha : Acts s s' c k t)
    (hagrees : Agrees k t) (htraps : ∀ b, some b ∈ t.traps → b = true)
    (hswitched : t.switched = true → (s.on c).switched = true)
    (hlocks : ∀ d l, s'.lock l = some d ↔ l ∈ (s'.on d).held) : Inv s' where
  home d e hd := h.home d e ((ha.cur_eq d).symm.trans hd)
  running d q hd := by
    rw [ha.state]
    exact h.running d q ((ha.cur_eq d).symm.trans hd)
  once d e q hd he := h.once d e q ((ha.cur_eq d).symm.trans hd) ((ha.cur_eq e).symm.trans he)
  agrees := ha.agrees h (by rw [ha.on_self]; exact hagrees)
  traps := ha.traps h htraps
  parked q hq := by
    rw [ha.state] at hq
    rw [ha.thread_of_ne (h.cur_ne_proc hq.ne_running c).symm]
    exact h.parked q hq
  away d q hd := by
    rw [ha.cur_eq d] at hd
    have hne : .sched d ≠ (s.cpu c).cur := by
      intro heq
      rw [h.home c d heq.symm, ← heq] at hd
      cases hd
    rw [ha.thread_of_ne hne]
    exact h.away d q hd
  process := by
    refine ha.process h fun q hq => ?_
    have hold : (s.on c).switched = false := by
      unfold State.on
      rw [hq]
      exact h.process q
    cases hsw : t.switched with
    | false => rfl
    | true => exact absurd (hswitched hsw) (by rw [hold]; decide)
  locks := hlocks

theorem Inv.setOn {k : Cpu} {t : Kthread} (h : Inv s) (hcur : k.cur = (s.cpu c).cur)
    (hagrees : Agrees k t) (htraps : ∀ b, some b ∈ t.traps → b = true)
    (hswitched : t.switched = true → (s.on c).switched = true) (hheld : t.held = (s.on c).held) :
    Inv (s.setOn c k t) := by
  have ha : Acts s (s.setOn c k t) c k t := ⟨⟨rfl, rfl⟩, rfl, hcur⟩
  refine h.acts ha hagrees htraps hswitched fun d l => ?_
  by_cases hd : d = c
  · rw [hd, ha.on_self, hheld]
    exact h.locks c l
  · rw [ha.on_of_ne h hd]
    exact h.locks d l

theorem Inv.traps_on (h : Inv s) (c : Nat) : ∀ b, some b ∈ (s.on c).traps → b = true := h.traps _

/-! ## The steps of one thread -/

theorem Inv.setSie (h : Inv s) (hout : s.Outside c) (b : Bool) :
    Inv (s.setOn c { s.cpu c with sie := b } (s.on c)) := by
  have ha := h.agrees c
  obtain ⟨hold, hdepth⟩ := hout
  refine h.setOn rfl ⟨ha.noff, fun hpos => ?_, fun b hb => ?_, ha.nodup, ha.held, ha.intena⟩
    (h.traps_on c) id rfl
  · omega
  · rw [hold] at hb
    cases hb

theorem Inv.trap (h : Inv s) (hsie : (s.cpu c).sie = true) :
    Inv (s.setOn c { s.cpu c with sie := false }
      { s.on c with old := none, traps := (s.on c).old :: (s.on c).traps }) := by
  have ha := h.agrees c
  refine h.setOn rfl ⟨ha.noff, fun _ => rfl, fun b hb => (by cases hb), ha.nodup,
    ha.held, ha.intena⟩ (fun b hb => ?_) id rfl
  -- A `push_off` that is interrupted has found interrupts enabled.
  rcases List.mem_cons.mp hb with hb | hb
  · exact (ha.old b hb.symm).symm.trans hsie
  · exact h.traps_on c b hb

theorem Inv.sret (h : Inv s) {old : Option Bool} {traps : List (Option Bool)}
    (htraps : (s.on c).traps = old :: traps) (hout : s.Outside c) :
    Inv (s.setOn c { s.cpu c with sie := true } { s.on c with old := old, traps := traps }) := by
  have ha := h.agrees c
  obtain ⟨-, hdepth⟩ := hout
  have hall := h.traps_on c
  rw [htraps] at hall
  refine h.setOn rfl ⟨ha.noff, fun hpos => ?_, fun b hb => ?_, ha.nodup, ha.held, ha.intena⟩
    (fun b hb => hall b (List.mem_cons_of_mem _ hb)) id rfl
  · exact absurd hpos (by rw [hdepth]; decide)
  · exact (hall b (by rw [← hb]; exact List.mem_cons_self)).symm

theorem Inv.intrGet (h : Inv s) :
    Inv (s.setOn c (s.cpu c) { s.on c with old := some (s.cpu c).sie }) := by
  have ha := h.agrees c
  exact h.setOn rfl ⟨ha.noff, ha.off, fun b hb => Option.some.inj hb, ha.nodup, ha.held, ha.intena⟩
    (h.traps_on c) id rfl

theorem Inv.pushOff (h : Inv s) {old : Bool} (hold : (s.on c).old = some old)
    (hdepth : (s.on c).depth + 1 < 2 ^ 31) : Inv (s.pushOff c old) := by
  have ha := h.agrees c
  refine h.setOn rfl ⟨?_, fun _ => rfl, fun b hb => (by cases hb), ha.nodup,
    Nat.le_succ_of_le ha.held, ?_⟩ (h.traps_on c) (fun hsw => ?_) rfl
  · dsimp only
    rw [ha.noff, int32_of_range (by omega) (by omega)]
    rfl
  · intro _ hsw b hb
    dsimp only at hsw hb ⊢
    by_cases hzero : (s.on c).depth = 0
    · have hnoff : (s.cpu c).noff = 0 := by rw [ha.noff, hzero]; rfl
      rw [if_pos hzero] at hb
      rw [if_pos hnoff, ← ha.old old hold]
      exact Option.some.inj hb
    · have hnoff : (s.cpu c).noff ≠ 0 := by rw [ha.noff]; omega
      rw [if_neg hzero] at hb hsw
      rw [if_neg hnoff]
      exact ha.intena (by omega) hsw b hb
  · dsimp only at hsw
    split at hsw
    · cases hsw
    · exact hsw

theorem Inv.popOff_eq (h : Inv s) (hnest : s.Nested c) :
    s.popOff c = .next (s.setOn c
      { s.cpu c with noff := (s.cpu c).noff - 1, sie := (s.on c).depth = 1 ∧ (s.cpu c).intena }
      { s.on c with depth := (s.on c).depth - 1 }) := by
  have ha := h.agrees c
  have hpos : 0 < (s.on c).depth := Nat.lt_of_le_of_lt (Nat.zero_le _) hnest.2
  have hnoff : ¬(s.cpu c).noff < 1 := by rw [ha.noff]; omega
  have hone : (s.cpu c).noff - 1 = 0 ↔ (s.on c).depth = 1 := by rw [ha.noff]; omega
  unfold State.popOff
  dsimp only
  rw [ha.off hpos, if_neg Bool.false_ne_true, if_neg hnoff]
  simp only [hone]

theorem Inv.popOff (h : Inv s) (hnest : s.Nested c) :
    (s.popOff c).Sat (fun e => e = .acquire) Inv := by
  have ha := h.agrees c
  obtain ⟨hold, hlt⟩ := hnest
  rw [h.popOff_eq ⟨hold, hlt⟩]
  refine .next (h.setOn rfl ⟨?_, fun hpos => ?_, fun b hb => ?_, ha.nodup, ?_, fun hpos => ?_⟩
    (h.traps_on c) id rfl)
  · dsimp only
    rw [ha.noff]
    omega
  · dsimp only at hpos ⊢
    rw [decide_eq_false_iff_not]
    omega
  · dsimp only at hb
    rw [hold] at hb
    cases hb
  · dsimp only
    omega
  · exact ha.intena (by dsimp only at hpos; omega)

theorem Inv.acquire (h : Inv s) (hnest : s.Nested c) (l : Lock) :
    (s.acquire c l).Sat (fun e => e = .acquire) Inv := by
  have ha := h.agrees c
  unfold State.acquire
  cases hl : s.lock l with
  | some d =>
    dsimp only
    exact .guard fun _ => .fault rfl
  | none =>
    have hfree : ∀ d, l ∉ (s.on d).held := by
      intro d hd
      rw [(h.locks d l).mpr hd] at hl
      cases hl
    have hacts : Acts s ((s.setOn c (s.cpu c) { s.on c with held := l :: (s.on c).held }).setLock
      l (some c)) c (s.cpu c) { s.on c with held := l :: (s.on c).held } := ⟨⟨rfl, rfl⟩, rfl, rfl⟩
    refine .next (h.acts hacts ⟨ha.noff, ha.off, ha.old, ?_, hnest.2, ha.intena⟩
      (h.traps_on c) id fun d m => ?_)
    · exact List.nodup_cons.mpr ⟨hfree c, ha.nodup⟩
    · show update s.lock l (some c) m = some d ↔ _
      by_cases hd : d = c
      · rw [hd, hacts.on_self, List.mem_cons, ← h.locks c m]
        by_cases hm : m = l
        · rw [hm, update_self]
          exact iff_of_true rfl (.inl rfl)
        · rw [update_of_ne hm, or_iff_right hm]
      · rw [hacts.on_of_ne h hd, ← h.locks d m]
        by_cases hm : m = l
        · rw [hm, update_self, hl]
          exact iff_of_false (fun heq => hd (Option.some.inj heq).symm) (by simp)
        · rw [update_of_ne hm]

theorem Inv.release (h : Inv s) {l : Lock} (hl : l ∈ (s.on c).held) :
    (s.release c l).Sat (fun e => e = .acquire) Inv := by
  have ha := h.agrees c
  have hlock : s.lock l = some c := (h.locks c l).mpr hl
  have hacts : Acts s ((s.setOn c (s.cpu c) { s.on c with held := (s.on c).held.erase l }).setLock l
    none) c (s.cpu c) { s.on c with held := (s.on c).held.erase l } := ⟨⟨rfl, rfl⟩, rfl, rfl⟩
  unfold State.release
  rw [if_pos hlock]
  refine .next (h.acts hacts ⟨ha.noff, ha.off, ha.old, ha.nodup.erase l, ?_, ha.intena⟩
    (h.traps_on c) id fun d m => ?_)
  · exact Nat.le_trans (List.length_erase_le) ha.held
  · show update s.lock l none m = some d ↔ _
    by_cases hd : d = c
    · rw [hd, hacts.on_self, ha.nodup.mem_erase_iff, ← h.locks c m]
      by_cases hm : m = l
      · rw [hm, update_self]
        exact iff_of_false (by simp) (fun hand => hand.1 rfl)
      · rw [update_of_ne hm, and_iff_right hm]
    · rw [hacts.on_of_ne h hd, ← h.locks d m]
      by_cases hm : m = l
      · rw [hm, update_self, hlock]
        exact iff_of_false (by simp) (fun heq => hd (Option.some.inj heq).symm)
      · rw [update_of_ne hm]

/-! ## The process table -/

/-- A process that does not run changes its state, to one in which it can be switched to
only if its thread is ready for that. -/
theorem Inv.setState {st : ProcState} (h : Inv s) (hp : s.state p ≠ .running)
    (hparked : st.Waits → Across p (s.thread (.proc p)) ∧
      (s.thread (.proc p)).context.Restores (s.thread (.proc p)).enabled) : Inv
      (s.setState p st) where
  home := h.home
  running d q hd := by
    have hq : q ≠ p := fun heq => h.cur_ne_proc hp d (heq ▸ hd)
    exact (update_of_ne hq st s.state).trans (h.running d q hd)
  once := h.once
  agrees := h.agrees
  traps := h.traps
  parked q hq := by
    change (update s.state p st q).Waits at hq
    by_cases hqp : q = p
    · rw [hqp, update_self] at hq
      rw [hqp]
      exact hparked hq
    · rw [update_of_ne hqp] at hq
      exact h.parked q hq
  away := h.away
  process := h.process
  locks := h.locks

theorem Inv.allocproc (h : Inv s) (hp : s.state p ≠ .running) :
    Inv (s.setThread (.proc p) (newThread p)) := by
  have hother : ∀ {u}, u ≠ .proc p → (s.setThread (.proc p) (newThread p)).thread u = s.thread u :=
    fun hu => update_of_ne hu _ _
  have hself : (s.setThread (.proc p) (newThread p)).thread (.proc p) = newThread p :=
    update_self _ _ _
  have hon : ∀ d, (s.setThread (.proc p) (newThread p)).on d = s.on d :=
    fun d => hother (h.cur_ne_proc hp d)
  refine ⟨h.home, h.running, h.once, fun d => ?_, fun u b hb => ?_, fun q hq => ?_,
    fun d q hd => ?_, fun q => ?_, fun d l => ?_⟩
  · rw [hon d]
    exact h.agrees d
  · by_cases hu : u = .proc p
    · rw [hu, hself] at hb
      cases hb
    · rw [hother hu] at hb
      exact h.traps u b hb
  · by_cases hqp : q = p
    · rw [hqp, hself]
      exact ⟨⟨rfl, rfl, rfl⟩, rfl⟩
    · rw [hother fun heq => hqp (Thread.proc.inj heq)]
      exact h.parked q hq
  · rw [hother (u := .sched d) fun heq => by cases heq]
    exact h.away d q hd
  · by_cases hqp : q = p
    · rw [hqp, hself]
      rfl
    · rw [hother fun heq => hqp (Thread.proc.inj heq)]
      exact h.process q
  · rw [hon d]
    exact h.locks d l

/-! ## The switches -/

/-- A switch on CPU `c` between its scheduler and process `p`. -/
structure Switches (s s' : State) (c p : Nat) (k : Cpu) (t : Kthread) (st : ProcState) : Prop
    extends Changes s s' c k t where
  state : s'.state = update s.state p st
  lock : s'.lock = s.lock

theorem Switches.state_of_ne {s' : State} {k : Cpu} {t : Kthread} {st : ProcState}
    (h : Switches s s' c p k t st) {q : Nat} (hq : q ≠ p) : s'.state q = s.state q := by
  rw [h.state, update_of_ne hq]

theorem Switches.locks {s' : State} {k : Cpu} {t : Kthread} {st : ProcState}
    (h : Switches s s' c p k t st) (hinv : Inv s) (hheld : (s'.on c).held = (s.on c).held) (d : Nat)
    (l : Lock) : s'.lock l = some d ↔ l ∈ (s'.on d).held := by
  rw [h.lock]
  by_cases hd : d = c
  · rw [hd, hheld]
    exact hinv.locks c l
  · rw [h.on_of_ne hinv hd]
    exact hinv.locks d l

/-- `sched` does not panic, and the scheduler of the CPU goes on with the lock that it took
and the process has kept, or given back and taken again. -/
theorem Inv.sched (h : Inv s) (hcur : (s.cpu c).cur = .proc p) (honly : s.Only c p)
    (st : ProcState) : ((s.setState p st).sched c p).Sat (fun e => e = .acquire) Inv := by
  have ha := h.agrees c
  obtain ⟨hold, hheld, hdepth⟩ := honly
  obtain ⟨haway, hsw⟩ := h.away c p hcur
  have hon : s.on c = s.thread (.proc p) := by
    unfold State.on
    rw [hcur]
  have hlock : s.lock (.proc p) = some c :=
    (h.locks c _).mpr (by rw [hheld]; exact List.mem_singleton_self _)
  have hnoff : (s.cpu c).noff = 1 := by rw [ha.noff, hdepth]; rfl
  have hsie : (s.cpu c).sie = false := ha.off (by omega)
  have hpass : (s.setState p st).sched c p =
      .next ((s.setState p st).setOn c { s.cpu c with cur := .sched c }
      { s.on c with context := .sched (s.cpu c).intena }) := by
    show (if s.lock (.proc p) ≠ some c then _ else if (s.cpu c).noff ≠
      1 then _ else if (s.cpu c).sie then _ else _) = _
    rw [if_neg (not_not.mpr hlock), if_neg (not_not.mpr hnoff), hsie, if_neg Bool.false_ne_true]
    rfl
  rw [hpass]
  generalize hs' : (s.setState p st).setOn c { s.cpu c with cur := .sched c }
      { s.on c with context := .sched (s.cpu c).intena } = s'
  have hsw' : Switches s s' c p { s.cpu c with cur := .sched c }
      { s.on c with context := .sched (s.cpu c).intena } st := by
    rw [← hs']
    exact ⟨⟨rfl, rfl⟩, rfl, rfl⟩
  have hcur' : (s'.cpu c).cur = .sched c := by rw [hsw'.cpu_self]
  have honc : s'.on c = s.thread (.sched c) := by
    unfold State.on
    rw [hcur', hsw'.thread_of_ne (by rw [hcur]; exact fun heq => by cases heq)]
  -- On another CPU nothing changes, and process `p` is not there.
  have hproc : ∀ {d q}, (s'.cpu d).cur = .proc q → d ≠ c ∧ (s.cpu d).cur = .proc q ∧ q ≠ p := by
    intro d q hd
    have hdc : d ≠ c := by
      rintro rfl
      rw [hcur'] at hd
      cases hd
    rw [hsw'.cpu_of_ne hdc] at hd
    exact ⟨hdc, hd, fun hq => hdc (h.once d c p (hq ▸ hd) hcur)⟩
  refine .next
    { home := fun d e hd => ?_
      running := fun d q hd => ?_
      once := fun d e q hd he => h.once d e q (hproc hd).2.1 (hproc he).2.1
      agrees := hsw'.agrees h ?_
      traps := hsw'.traps h (h.traps_on c)
      parked := fun q hq => ?_
      away := fun d q hd => ?_
      process := hsw'.process h fun q hq => ?_
      locks := hsw'.locks h ?_ }
  · by_cases hdc : d = c
    · rw [hdc, hcur'] at hd
      rw [hdc, Thread.sched.inj hd]
    · rw [hsw'.cpu_of_ne hdc] at hd
      exact h.home d e hd
  · obtain ⟨-, hd, hq⟩ := hproc hd
    rw [hsw'.state_of_ne hq]
    exact h.running d q hd
  · rw [honc]
    refine ⟨?_, fun _ => hsie, fun b hb => ?_, ?_, ?_, fun _ hfalse => ?_⟩
    · rw [haway.depth, hnoff]
      rfl
    · rw [haway.old] at hb
      cases hb
    · rw [haway.held]
      exact List.nodup_singleton _
    · rw [haway.held, haway.depth]
      rfl
    · rw [hsw] at hfalse
      cases hfalse
  · by_cases hqp : q = p
    · rw [hqp, ← hcur, hsw'.thread_self]
      exact ⟨⟨hold, hheld, hdepth⟩, ha.intena (by omega) (by rw [hon]; exact h.process p)⟩
    · rw [hsw'.state_of_ne hqp] at hq
      rw [hsw'.thread_of_ne (h.cur_ne_proc hq.ne_running c).symm]
      exact h.parked q hq
  · obtain ⟨-, hd, -⟩ := hproc hd
    rw [hsw'.thread_of_ne (by rw [hcur]; exact fun heq => by cases heq)]
    exact h.away d q hd
  · show (s.on c).switched = false
    rw [hon]
    exact h.process p
  · rw [honc, haway.held, hheld]

/-- A process goes on with the lock that the scheduler took for it, and finds in `intena`
what it left there. -/
theorem Inv.run (h : Inv s) (hcur : (s.cpu c).cur = .sched c) (honly : s.Only c p)
    (hstate : s.state p = .runnable) : Inv (s.run c p) := by
  have ha := h.agrees c
  obtain ⟨hold, hheld, hdepth⟩ := honly
  obtain ⟨hacross, hrestores⟩ := h.parked p (.inr (.inr hstate))
  have hrun : s.state p ≠ .running := by rw [hstate]; decide
  obtain ⟨intena, hintena⟩ : ∃ intena, intena = match (s.thread (.proc p)).context with
    | .forkret => (s.cpu c).intena
    | .sched intena => intena := ⟨_, rfl⟩
  have hsw : Switches s (s.run c p) c p { s.cpu c with cur := .proc p, intena := intena }
      { s.on c with switched := true } .running := by
    rw [hintena]
    exact ⟨⟨rfl, rfl⟩, rfl, rfl⟩
  generalize s.run c p = s' at hsw
  have hcur' : (s'.cpu c).cur = .proc p := by rw [hsw.cpu_self]
  have honc : s'.on c = s.thread (.proc p) := by
    unfold State.on
    rw [hcur', hsw.thread_of_ne (by rw [hcur]; exact fun heq => by cases heq)]
  have hproc : ∀ {d q}, (s'.cpu d).cur = .proc q → (d = c ∧ q = p) ∨
      (d ≠ c ∧ (s.cpu d).cur = .proc q ∧ q ≠ p) := by
    intro d q hd
    by_cases hdc : d = c
    · rw [hdc, hcur'] at hd
      exact .inl ⟨hdc, (Thread.proc.inj hd).symm⟩
    · rw [hsw.cpu_of_ne hdc] at hd
      exact .inr ⟨hdc, hd, fun hq => h.cur_ne_proc hrun d (hq ▸ hd)⟩
  refine
    { home := fun d e hd => ?_
      running := fun d q hd => ?_
      once := fun d e q hd he => ?_
      agrees := hsw.agrees h ?_
      traps := hsw.traps h (h.traps_on c)
      parked := fun q hq => ?_
      away := fun d q hd => ?_
      process := hsw.process h fun q hq => ?_
      locks := hsw.locks h ?_ }
  · by_cases hdc : d = c
    · rw [hdc, hcur'] at hd
      cases hd
    · rw [hsw.cpu_of_ne hdc] at hd
      exact h.home d e hd
  · rcases hproc hd with ⟨-, rfl⟩ | ⟨-, hd, hq⟩
    · rw [hsw.state, update_self]
    · rw [hsw.state_of_ne hq]
      exact h.running d q hd
  · rcases hproc hd with ⟨rfl, rfl⟩ | ⟨-, hd, hq⟩
    · rcases hproc he with ⟨rfl, -⟩ | ⟨-, -, hq⟩
      · rfl
      · exact absurd rfl hq
    · rcases hproc he with ⟨-, rfl⟩ | ⟨-, he, -⟩
      · exact absurd rfl hq
      · exact h.once d e q hd he
  · rw [honc]
    refine ⟨?_, fun _ => ha.off (by omega), fun b hb => ?_, ?_, ?_, fun _ _ b hb => ?_⟩
    · rw [hacross.depth, ha.noff, hdepth]
    · rw [hacross.old] at hb
      cases hb
    · rw [hacross.held]
      exact List.nodup_singleton _
    · rw [hacross.held, hacross.depth]
      rfl
    · cases hctx : (s.thread (.proc p)).context with
      | forkret =>
        rw [hctx] at hrestores
        rw [show (s.thread (.proc p)).enabled = none from hrestores] at hb
        cases hb
      | sched intena' =>
        rw [hctx] at hrestores hintena
        exact hintena.trans (hrestores b hb)
  · have hqp : q ≠ p := by
      rintro rfl
      rw [hsw.state, update_self] at hq
      exact hq.ne_running rfl
    rw [hsw.state_of_ne hqp] at hq
    rw [hsw.thread_of_ne (by rw [hcur]; exact fun heq => by cases heq)]
    exact h.parked q hq
  · rcases hproc hd with ⟨rfl, rfl⟩ | ⟨hdc, hd, -⟩
    · rw [← hcur, hsw.thread_self]
      exact ⟨⟨hold, hheld, hdepth⟩, rfl⟩
    · rw [hsw.thread_of_ne (by rw [hcur]; exact fun heq => hdc (Thread.sched.inj heq))]
      exact h.away d q hd
  · rw [hcur] at hq
    cases hq
  · rw [honc, hacross.held, hheld]

/-! ## Every run -/

/-- Every step keeps the invariant, and the only panic is that of an `acquire` of a lock
that the CPU holds. -/
theorem Inv.step (h : Inv s) {a : Action} (hok : Shallow s a) :
    (step s a).Sat (fun e => e = .acquire) Inv := by
  cases a with
  | intrOn c => exact .guard fun hout => .next (h.setSie hout true)
  | intrOff c => exact .guard fun hout => .next (h.setSie hout false)
  | trap c => exact .guard fun hsie => .next (h.trap hsie)
  | sret c =>
    unfold Spinlock.step
    dsimp only
    split
    · exact .blocked
    · next old traps htraps => exact .guard fun hout => .next (h.sret htraps hout)
  | intrGet c => exact .guard fun _ => .next h.intrGet
  | pushOff c =>
    unfold Spinlock.step
    dsimp only
    split
    · exact .blocked
    · next old hold => exact .next (h.pushOff hold hok)
  | popOff c => exact .guard fun hnest => h.popOff hnest
  | lock c l => exact .guard fun hnest => h.acquire hnest l
  | unlock c l => exact .guard fun hheld => h.release hheld.2
  | wakeup c p =>
    refine .guard fun hfinds => .next (h.setState ?_ fun _ => h.parked p (.inr (.inl hfinds.2)))
    rw [hfinds.2]
    decide
  | allocproc c p =>
    refine .guard fun hfinds => ?_
    have hrun : s.state p ≠ .running := by rw [hfinds.2]; decide
    refine .next ((h.allocproc hrun).setState hrun fun _ => ?_)
    rw [show (s.setThread (.proc p) (newThread p)).thread (.proc p) =
      newThread p from update_self _ _ _]
    exact ⟨⟨rfl, rfl, rfl⟩, rfl⟩
  | ready c p =>
    refine .guard fun hfinds => .next (h.setState ?_ fun _ => h.parked p (.inl hfinds.2))
    rw [hfinds.2]
    decide
  | freeproc c p =>
    refine .guard fun hfinds => .next (h.setState ?_ fun hwaits => ?_)
    · rcases hfinds with hfinds | hfinds <;> rw [hfinds.2] <;> decide
    · rcases hwaits with hw | hw | hw <;> cases hw
  | sched c st =>
    unfold Spinlock.step
    dsimp only
    split
    · exact .blocked
    · next p hcur => exact .guard fun hgo => h.sched hcur hgo.1 st
  | run c p => exact .guard fun hgo => .next (h.run hgo.1 hgo.2.1 hgo.2.2)

theorem Booted.inv (h : Booted s) : Inv s where
  home c d hd := by
    rw [h.cur c] at hd
    exact (Thread.sched.inj hd).symm
  running c p hp := by
    rw [h.cur c] at hp
    cases hp
  once c d p hp := by
    rw [h.cur c] at hp
    cases hp
  agrees c := by
    refine ⟨?_, fun hpos => ?_, fun b hb => ?_, ?_, ?_, fun hpos => ?_⟩
    · rw [h.noff, h.depth]
      rfl
    · rw [h.depth] at hpos
      omega
    · rw [h.old] at hb
      cases hb
    · rw [h.held]
      exact List.nodup_nil
    · rw [h.held]
      exact Nat.zero_le _
    · rw [h.depth] at hpos
      omega
  traps t b hb := by
    rw [h.traps] at hb
    cases hb
  parked p hp := by
    rw [h.state] at hp
    rcases hp with hp | hp | hp <;> cases hp
  away c p hp := by
    rw [h.cur c] at hp
    cases hp
  process := h.switched
  locks c l := by
    rw [h.lock, h.held]
    exact iff_of_false (fun heq => by cases heq) List.not_mem_nil

theorem reach_inv (h : Reach step Shallow Booted s) : Inv s :=
  h.invariant (fun _ => Booted.inv) fun _ _ _ hs hok hstep => (hs.step hok).of_next hstep

/-- In every run, on any number of CPUs, with any nesting of `acquire`, `release`, `push_off`
and `pop_off` less than `2 ^ 31` deep, with interrupts at any point where they are enabled
and with processes that move between the CPUs:

* a CPU whose thread holds a spinlock has interrupts off, and is the one in `lk->cpu`;
* `pop_off` does not panic;
* the outermost `pop_off` of a thread leaves interrupts as they were at its outermost
  `push_off`, except for that of a scheduler which has run a process in between. -/
theorem interrupt_nesting_per_thread (s : State) (h : Reach step Shallow Booted s) :
    (∀ c l, l ∈ (s.on c).held → (s.cpu c).sie = false ∧ s.lock l = some c) ∧
    (∀ c e, step s (.popOff c) ≠ .fault e) ∧
    ∀ c b s', (s.on c).depth = 1 → (s.on c).enabled = some b →
      (∃ p, (s.cpu c).cur = .proc p) ∨ (s.on c).switched = false →
      step s (.popOff c) = .next s' → (s'.cpu c).sie = b := by
  have hinv := reach_inv h
  refine ⟨fun c l hl => ?_, fun c e he => ?_, fun c b s' hdepth hb hthread hstep => ?_⟩
  · have hpos := Nat.lt_of_lt_of_le (List.length_pos_of_mem hl) (hinv.agrees c).held
    exact ⟨(hinv.agrees c).off hpos, (hinv.locks c l).mpr hl⟩
  · unfold step at he
    dsimp only at he
    split at he
    · next hnest =>
        rw [hinv.popOff_eq hnest] at he
        cases he
    · cases he
  · have hswitched : (s.on c).switched = false := by
      rcases hthread with ⟨p, hp⟩ | hswitched
      · unfold State.on
        rw [hp]
        exact hinv.process p
      · exact hswitched
    have hintena := (hinv.agrees c).intena (by omega) hswitched b hb
    unfold step at hstep
    dsimp only at hstep
    split at hstep
    · next hnest =>
        rw [hinv.popOff_eq hnest] at hstep
        cases hstep
        show (update s.cpu c _ c).sie = b
        rw [update_self]
        simp [hdepth, hintena]
    · cases hstep

/-! ## A process that yields in an interrupt -/

/-- After `main`, with no process. -/
def booted : State where
  cpu c := ⟨0, false, false, .sched c⟩
  thread _ := ⟨none, [], .forkret, 0, [], none, false⟩
  lock _ := none
  state _ := .unused

theorem booted_booted : Booted booted :=
  ⟨fun _ => rfl, fun _ => rfl, fun _ => rfl, fun _ => rfl, fun _ => rfl, fun _ => rfl, fun _ => rfl,
    fun _ => rfl, fun _ => rfl⟩

/-- `acquire` and `release` of a lock on CPU 0. -/
def acquire (l : Lock) : List Action := [.intrGet 0, .pushOff 0, .lock 0 l]

def release (l : Lock) : List Action := [.unlock 0 l, .popOff 0]

/-- CPU 0 makes a process, its scheduler enables interrupts and runs the process, and an
interrupt of the process behind `forkret`'s `release` calls `yield`, up to `sched`. -/
def yieldRun : List Action :=
  acquire (.proc 0) ++ [.allocproc 0 0, .ready 0 0] ++ release (.proc 0) ++
    [.intrOn 0] ++ acquire (.proc 0) ++ [.run 0 0] ++ release (.proc 0) ++ [.trap 0] ++
    acquire (.proc 0)

/-- The process that is about to yield holds its lock, and would enable no interrupts by
giving it back. -/
theorem interrupt_nesting_per_thread_yieldRun :
    ∃ s, Reach step Shallow Booted s ∧ (s.on 0).held = [.proc 0] ∧
    (s.cpu 0).sie = false ∧ ∀ c e, step s (.popOff c) ≠ .fault e := by
  have hrun : ((exec step booted yieldRun).next?.map fun s => (s.on 0).held) = some [.proc 0] :=
    by decide +kernel
  obtain ⟨s, hs, hheld⟩ := Option.map_eq_some_iff.mp hrun
  have hguard : Guarded step Shallow booted yieldRun := by decide +kernel
  have hreach := Reach.of_exec (.start booted_booted) hguard (Outcome.next?_eq_some.mp hs)
  obtain ⟨hoff, hpop, -⟩ := interrupt_nesting_per_thread s hreach
  exact ⟨s, hreach, hheld, (hoff 0 (.proc 0) (by rw [hheld]; exact List.mem_singleton_self _)).1,
    hpop⟩

/-- The scheduler took the lock of the process with interrupts enabled; when it gives it
back after the process has yielded, it leaves them disabled. -/
theorem scheduler_pop_off_leaves_interrupts_off :
    ∃ s s', Reach step Shallow Booted s ∧ (s.cpu 0).cur = .sched 0 ∧
    (s.on 0).depth = 1 ∧ (s.on 0).enabled = some true ∧ step s (.popOff 0) = .next s' ∧
    (s'.cpu 0).sie = false := by
  have hrun : ((exec step booted (yieldRun ++ [.sched 0 .runnable, .unlock 0 (.proc 0)])).next?.bind
      fun s =>
      (step s (.popOff 0)).next?.map fun s' =>
        ((s.cpu 0).cur, (s.on 0).depth, (s.on 0).enabled, (s'.cpu 0).sie)) =
            some (.sched 0, 1, some true, false) := by
    decide +kernel
  obtain ⟨s, hs, hrest⟩ := Option.bind_eq_some_iff.mp hrun
  obtain ⟨s', hs', heq⟩ := Option.map_eq_some_iff.mp hrest
  simp only [Prod.mk.injEq] at heq
  have hguard : Guarded step Shallow booted
      (yieldRun ++ [.sched 0 .runnable, .unlock 0 (.proc 0)]) := by decide +kernel
  have hreach := Reach.of_exec (.start booted_booted) hguard (Outcome.next?_eq_some.mp hs)
  exact ⟨s, s', hreach, heq.1, heq.2.1, heq.2.2.1, Outcome.next?_eq_some.mp hs', heq.2.2.2⟩

end Xv6.Spinlock
