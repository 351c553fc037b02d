import Xv6.Procs.Slots

/-! # Sleeping and being killed

A process looks at `p->killed` before it calls `sleep`, and `kill` makes a sleeping process
runnable. A `kill` that comes between the two, before `sleep` has taken `p->lock`, is followed
by the sleep all the same.
-/

namespace Xv6.Procs

open Function Lib

/-! ## The window -/

/-- The process has seen that it is not killed, and sleeps next. -/
def Pc.window : Pc → Bool
  | .alert .. | .sleepLock _ => true
  | _ => false

/-- In `sleep` with `p->lock`, on the way to the scheduler. -/
def Pc.falling : Pc → Bool
  | .sleepRelease _ | .sleepSet _ | .sleepSched _ => true
  | _ => false

/-- Where a process is that is `SLEEPING`. -/
def Pc.sleeps : Pc → Bool
  | .sleepSched _ | .asleep _ => true
  | _ => false

/-- A process that is about to sleep or sleeps is not killed. -/
structure Awake (pc : Pc) (x : Slot) : Prop where
  locked : pc.falling = true → x.locked = true
  sleeps : x.state = .sleeping → pc.sleeps = true
  alive : pc.window = true ∨ pc.falling = true ∨ x.state = .sleeping → x.killed = false

namespace Awake

variable {pc pc' : Pc} {x x' : Slot}

theorem leave (h : Awake pc x) (hpc : pc.sleeps = false) (hw : pc'.window = false)
    (hf : pc'.falling = false) : Awake pc' x := by
  have hstate : x.state ≠ .sleeping := fun hs => by
    rw [h.sleeps hs] at hpc
    cases hpc
  refine ⟨fun hf' => ?_, fun hs => absurd hs hstate, fun hc => ?_⟩
  · rw [hf] at hf'
    cases hf'
  · rw [hw, hf] at hc
    rcases hc with hc | hc | hc
    · cases hc
    · cases hc
    · exact absurd hc hstate

/-- A step of a process that is not killed, to a place in front of `sleep`. -/
theorem toWindow (h : Awake pc x) (hpc : pc.sleeps = false) (hf : pc'.falling = false)
    (hk : x.killed = false) : Awake pc' x := by
  refine ⟨fun hf' => ?_, fun hs => ?_, fun _ => hk⟩
  · rw [hf] at hf'
    cases hf'
  · rw [h.sleeps hs] at hpc
    cases hpc

/-- A process whose state is another one than `SLEEPING`, at a place outside `sleep`. -/
theorem plain (hw : pc.window = false) (hf : pc.falling = false) (hs : x.state ≠ .sleeping) :
    Awake pc x := by
  refine ⟨fun hf' => ?_, fun hs' => absurd hs' hs, fun hc => ?_⟩
  · rw [hf] at hf'
    cases hf'
  · rw [hw, hf] at hc
    rcases hc with hc | hc | hc
    · cases hc
    · cases hc
    · exact absurd hc hs

/-- Another process changes the slot, but not `killed` and not to `SLEEPING`. -/
theorem change (h : Awake pc x) (hl : pc.falling = true → x'.locked = true)
    (hk : x'.killed = x.killed) (hs : x'.state = .sleeping → x.state = .sleeping) :
    Awake pc x' := by
  refine ⟨hl, fun hs' => h.sleeps (hs hs'), fun hc => ?_⟩
  rw [hk]
  exact h.alive (hc.imp_right (Or.imp_right hs))

theorem wakes (h : Awake pc x) : Awake pc { x with state := .runnable } :=
  h.change h.locked rfl fun hs => by cases hs

end Awake

/-- No `kill` finds its victim between the look at `p->killed` and `acquire(&p->lock)` in
`sleep`. -/
def Misses (s : State) : Action → Prop
  | .run p _ =>
    match s.pc p with
    | .killScan q pid => (s.slot q).pid = pid → (s.pc q).window = false
    | _ => True
  | _ => True

instance (s : State) (a : Action) : Decidable (Misses s a) :=
  match a with
  | .run p _ => by
    unfold Misses
    dsimp only
    split <;> infer_instance
  | .fork _ | .exit .. | .wait .. | .kill .. | .call .. | .trap _ | .schedule _ | .yield _
  | .update .. | .interrupt ..
  | .wakeup .. => isTrue trivial

/-! ## Steps -/

section Steps

variable {s : State} {p q r : Nat} {pc : Pc}

theorem Awake.strike (h : s.All Awake) (hunlocked : (s.slot q).locked = false)
    (hmiss : (s.pc q).window = false) (pid : Int) : (s.strike q pid).All Awake := by
  have hfall : (s.pc q).falling = false := by
    by_contra hf
    rw [Bool.not_eq_false] at hf
    rw [(h q).locked hf] at hunlocked
    cases hunlocked
  refine h.setSlot (.plain hmiss hfall ?_)
  dsimp only
  split
  · exact fun hs => by cases hs
  · assumption

theorem Awake.goto (h : s.All Awake) (hs : (s.pc p).sleeps = false) (hw : pc.window = false)
    (hf : pc.falling = false) : (s.setPc p pc).All Awake :=
  h.setPc ((h p).leave hs hw hf)

/-- Where a move that changes only the place leads: outside `sleep`, or in front of it if the
process is not killed. -/
theorem Awake.goes {pc' : Pc} (h : Awake pc (s.slot p)) (hgo : Goes s p pc pc') :
    Awake pc' (s.slot p) := by
  cases hgo with
  | waitSleep hk | testAlert hk | testSleep hk => exact h.toWindow rfl rfl hk
  | _ => exact h.leave rfl rfl rfl

theorem Awake.takes {pc' : Pc} {l : Lock} (h : Awake pc (s.slot p)) (hgo : Takes s l pc pc') :
    Awake pc' (s.slot p) := by
  cases hgo <;> exact h.leave rfl rfl rfl

theorem Awake.drops {pc' : Pc} {l : Lock} (h : Awake pc (s.slot p)) (hgo : Drops l pc pc') :
    Awake pc' (s.slot p) := by
  cases hgo with
  | sleep => exact ⟨h.locked, fun hs => (by cases h.sleeps hs), fun _ => h.alive (.inr (.inl rfl))⟩
  | _ => exact h.leave rfl rfl rfl

theorem Awake.inWakeup {chan : Option Chan} {more done : Pc} (h : Awake pc (s.slot p))
    (hgo : Wakes s p chan r pc more done) : Awake more (s.slot p) ∧ Awake done (s.slot p) := by
  cases hgo with
  | alert =>
    have hk := h.alive (.inl rfl)
    exact ⟨h.toWindow rfl rfl hk, h.toWindow rfl rfl hk⟩
  | _ => exact ⟨h.leave rfl rfl rfl, h.leave rfl rfl rfl⟩

theorem Awake.calls {a : Action} (h : Awake .user (s.slot p)) (hcall : Calls a p pc) :
    Awake pc (s.slot p) := by
  cases hcall <;> exact h.leave rfl rfl rfl

theorem Awake.step {a : Action} {s' : State} (h : s.All Awake) (hok : Misses s a)
    (hmove : Move s a s') : s'.All Awake := by
  cases hmove with
  | @call a p pc _ _ hpc hcall =>
    exact h.setPc ((hpc ▸ h p : Awake .user (s.slot p)).calls hcall)
  | @trap p _ _ hpc =>
    have hp := h p
    rw [hpc] at hp
    refine h.setSlot ?_
    rw [hpc]
    exact .plain rfl rfl fun hs => by cases hp.sleeps hs
  | @goes p _ pc pc' _ _ hpc hgo => exact h.setPc ((hpc ▸ h p).goes hgo)
  | @takes p _ l pc pc' _ _ hpc _ hgo =>
    exact State.All.setPc (s := s.setLock _ _) h ((hpc ▸ h p).takes hgo)
  | @drops p _ l pc pc' _ _ hpc hgo =>
    exact State.All.setPc (s := s.setLock _ _) h ((hpc ▸ h p).drops hgo)
  | @wakeSkip p _ chan r pc more done _ _ hpc hgo _ _ => exact h.setPc ((hpc ▸ h p).inWakeup hgo).1
  | @wake p _ chan r pc more done _ _ hpc hgo _ hne _ =>
    exact h.wakeThen Awake.wakes chan hne ((hpc ▸ h p).inWakeup hgo).1
  | @wakeEnd p _ chan r pc more done _ _ hpc hgo _ => exact h.setPc ((hpc ▸ h p).inWakeup hgo).2
  | @alloc p q _ _ hpc _ _ _ =>
    -- the thread of the child starts at `forkret`
    have halloc : (s.allocproc p q).All Awake := h.setBoth (.plain rfl rfl fun hs => by cases hs)
    refine Awake.goto halloc ?_ rfl rfl
    change (update s.pc q Pc.forkret p).sleeps = false
    by_cases hpq : p = q
    · rw [hpq, update_self]
      rfl
    · rw [update_of_ne hpq, hpc]
      rfl
  | @allocFail p q _ _ hpc _ hunlocked _ =>
    have hfree : Awake (s.pc q) Slot.free :=
      ⟨fun hf => absurd ((h q).locked hf) (by rw [hunlocked]; decide), fun hs => (by cases hs),
        fun _ => rfl⟩
    have hfail : (s.allocFail q).All Awake := h.setSlot hfree
    exact Awake.goto hfail (by change (s.pc p).sleeps = false; rw [hpc]; rfl) rfl rfl
  | @setParent p np _ _ _ hpc _ =>
    exact Awake.goto (h.setSlot ((h np).change (h np).locked rfl id))
      (by change (s.pc p).sleeps = false; rw [hpc]; rfl) rfl rfl
  | @setRunnable p np _ _ _ hpc _ =>
    exact Awake.goto (h.setSlot (h np).wakes) (by change (s.pc p).sleeps = false; rw [hpc]; rfl) rfl
      rfl
  | @reparent p q _ _ _ _ hpc _ _ =>
    exact Awake.goto (h.setSlot ((h q).change (h q).locked rfl id))
      (by change (s.pc p).sleeps = false; rw [hpc]; rfl) rfl rfl
  | zombie => exact h.setBoth (.plain rfl rfl fun hs => by cases hs)
  | @exitSwitch p _ _ _ hpc =>
    have hp := h p
    rw [hpc] at hp
    exact h.setBoth ((hp.leave rfl rfl rfl).change (fun hf => by cases hf) rfl id)
  | @reap p q addr _ _ _ _ hpc _ _ _ _ =>
    have hreap : (s.reap p q addr).All Awake := h.setBoth (.plain rfl rfl fun hs => by cases hs)
    refine Awake.goto hreap ?_ rfl rfl
    change (update s.pc q Pc.idle p).sleeps = false
    by_cases hpq : p = q
    · rw [hpq, update_self]
      rfl
    · rw [update_of_ne hpq, hpc]
      rfl
  | @sleepLock p _ _ _ _ hpc _ =>
    have hp := h p
    rw [hpc] at hp
    exact h.setBoth ⟨fun _ => rfl, fun hs => (by cases hp.sleeps hs), fun _ => hp.alive (.inl rfl)⟩
  | @sleepSet p _ _ _ _ hpc =>
    have hp := h p
    rw [hpc] at hp
    exact h.setBoth ⟨fun _ => hp.locked rfl, fun _ => rfl, fun _ => hp.alive (.inr (.inl rfl))⟩
  | @sleepSwitch p _ _ _ _ hpc =>
    have hp := h p
    rw [hpc] at hp
    exact h.setBoth ⟨fun hf => (by cases hf), fun _ => rfl, fun _ => hp.alive (.inr (.inl rfl))⟩
  | @tidy p _ _ _ _ hpc =>
    have hp := h p
    rw [hpc] at hp
    exact h.setBoth ((hp.leave rfl rfl rfl).change (fun hf => by cases hf) rfl id)
  | @strike p q pid _ _ _ hpc _ hunlocked hpid =>
    have hmiss : (s.pc q).window = false := by
      unfold Misses at hok
      dsimp only at hok
      rw [hpc] at hok
      exact hok hpid
    exact Awake.goto (Awake.strike h hunlocked hmiss pid)
      (by change (s.pc p).sleeps = false; rw [hpc]; rfl) rfl rfl
  | resume => exact h.setBoth (.plain rfl rfl fun hs => by cases hs)
  | start => exact h.setBoth (.plain rfl rfl fun hs => by cases hs)
  | @schedule p => exact h.setSlot ((h p).change (h p).locked rfl fun hs => (by cases hs))
  | @yield p => exact h.setSlot (h p).wakes
  | data => exact h
  | device => exact h.wake Awake.wakes _ _

theorem Awake.booted (h : Booted s) : s.All Awake := fun q => by
  rw [h.1, h.2.1]
  by_cases hq : q = initproc
  · rw [hq, update_self, update_self]
    exact .plain rfl rfl fun hs => by cases hs
  · rw [update_of_ne hq, update_of_ne hq]
    exact .plain rfl rfl fun hs => by cases hs

end Steps

/-! ## Runs -/

/-- If no `kill` comes between the look at `p->killed` and `sleep`, then no process sleeps that
has been killed. -/
theorem killed_process_not_sleeping (s : State) (hreach : Reach step Misses Booted s) (p : Nat)
    (hsleeping : (s.slot p).state = .sleeping) : (s.slot p).killed = false := by
  have h : s.All Awake :=
    hreach.invariant (fun _ => Awake.booted) fun _ _ _ hs hok hstep =>
      Awake.step hs hok (step_move.of_next hstep)
  exact (h p).alive (.inr (.inr hsleeping))

/-- The first process forks the victim, in slot 1. -/
def forkVictim : List Action :=
  [.schedule 0, .fork 0] ++ List.replicate 4 (.run 0 true) ++ [.schedule 1]

/-- The victim calls a wait and comes to `sleep`; `wait` needs a child. -/
def toSleep : Sleeper → List Action
  | .wait addr =>
    [.fork 1] ++ List.replicate 5 (.run 1 true) ++ [.wait 1 addr] ++ List.replicate 67 (.run 1 true)
  | .other w => [.call 1 w] ++ List.replicate (if w.alert.isSome then 67 else 2) (.run 1 true)

/-- The victim sleeps in `piperead`. -/
def sleepRun : List Action :=
  forkVictim ++ toSleep (.other (.piperead 0)) ++ List.replicate 4 (.run 1 true)

theorem killed_process_not_sleeping_sleepRun : ∃ s : State, Reach step Misses Booted s ∧
    (s.slot 1).state = .sleeping ∧ (s.slot 1).killed = false := by
  have hrun : ((exec step fresh sleepRun).next?.map fun s =>
      (decide (Guarded step Misses fresh sleepRun), (s.slot 1).state)) =
          some (true, .sleeping) := by
    decide +kernel
  obtain ⟨s, hs, heq⟩ := Option.map_eq_some_iff.mp hrun
  simp only [Prod.mk.injEq, decide_eq_true_eq] at heq
  have hreach := Reach.of_exec (.start fresh_booted) heq.1 (Outcome.next?_eq_some.mp hs)
  exact ⟨s, hreach, heq.2, killed_process_not_sleeping s hreach 1 heq.2⟩

/-- The first process kills the victim when it is about to call `acquire(&p->lock)`. -/
def lateKill (x : Sleeper) : List Action :=
  forkVictim ++ toSleep x ++ [.kill 0 2, .run 0 true, .run 0 true] ++ List.replicate 4 (.run 1 true)

/-- One call of each of the five waits. -/
def fiveWaits : List Sleeper :=
  [.wait 0, .other (.piperead 0), .other (.pipewrite 1), .other .consoleread, .other (.sleep 1 0)]

/-- In each of the five waits the killed process falls asleep. -/
theorem killed_process_falls_asleep :
    fiveWaits.Forall fun x => ∃ s : State, Reach step (fun _ _ => True) Booted s ∧
    (s.slot 1).state = .sleeping ∧ (s.slot 1).killed = true ∧ s.pc 1 = .asleep x := by
  have hrun : ∀ x ∈ fiveWaits, ((exec step fresh (lateKill x)).next?.map fun s =>
      ((s.slot 1).state, (s.slot 1).killed, s.pc 1)) = some (.sleeping, true, .asleep x) := by
    decide +kernel
  refine List.forall_iff_forall_mem.mpr fun x hx => ?_
  obtain ⟨s, hs, heq⟩ := Option.map_eq_some_iff.mp (hrun x hx)
  simp only [Prod.mk.injEq] at heq
  have hreach := Reach.of_exec (.start fresh_booted) (Guarded.of_forall (fun _ _ => trivial) _ _)
    (Outcome.next?_eq_some.mp hs)
  exact ⟨s, hreach, heq.1, heq.2.1, heq.2.2⟩

end Xv6.Procs
