import Xv6.Procs.Model

/-! # What a step can do

Every step changes the place of one thread, and with it at most one slot, one lock and one other
thread. The steps that change only the place, or also a lock, are listed by their places.
-/

namespace Xv6.Procs

open Lib

section Control

variable (s : State) (p : Nat)

/-- Steps of `p` that change nothing but its place. -/
inductive Goes : Pc → Pc → Prop where
  | scanUsed {q : Nat} : q < NPROC → (s.slot q).state ≠ .unused → Goes (.forkScan q)
      (.forkScan (q + 1))
  | scanEnd {q : Nat} : ¬q < NPROC → Goes (.forkScan q) .user
  | keepParent {status : Int} {q : Nat} : q < NPROC → (s.slot q).parent ≠ some p →
      Goes (.reparent status q) (.reparent status (q + 1))
  | reparentEnd {status : Int} {q : Nat} :
      ¬q < NPROC → Goes (.reparent status q) (.exitWake status 0)
  | waitOther {addr q : Nat} {havekids : Bool} : q < NPROC → (s.slot q).parent ≠ some p →
      Goes (.waitScan addr q havekids) (.waitScan addr (q + 1) havekids)
  | waitAlive {addr q : Nat} {havekids : Bool} : q < NPROC → (s.slot q).parent = some p →
      (s.slot q).locked = false →
      (s.slot q).state ≠ .zombie → Goes (.waitScan addr q havekids) (.waitScan addr (q + 1) true)
  | waitEnd {addr q : Nat} {havekids : Bool} : ¬q < NPROC →
      Goes (.waitScan addr q havekids) (.waitCheck addr havekids)
  | waitSleep {addr : Nat} :
      (s.slot p).killed = false → Goes (.waitCheck addr true) (.sleepLock (.wait addr))
  | testGo {w : Wait} : Goes (.test w) (.inside w)
  | testAlert {w : Wait} : (s.slot p).killed = false → Goes (.test w) (.alert w 0)
  | testSleep {w : Wait} : (s.slot p).killed = false → Goes (.test w) (.sleepLock (.other w))
  | again {w : Wait} : Goes (.inside w) (.test w)
  | killOther {q : Nat} {pid : Int} : q < NPROC → (s.slot q).pid ≠ pid → Goes (.killScan q pid)
      (.killScan (q + 1) pid)
  | killEnd {q : Nat} {pid : Int} : ¬q < NPROC → Goes (.killScan q pid) .user

inductive Takes : Lock → Pc → Pc → Prop where
  | exit {status : Int} : Takes .wait (.exitLock status) (.reparent status 0)
  | wait {addr : Nat} : Takes .wait (.waitLock addr) (.waitScan addr 0 false)
  | enter {w : Wait} : Takes w.lock (.enter w) (.test (w.enter s.shared))
  | rewait {addr : Nat} : Takes .wait (.relock (.wait addr)) (.waitScan addr 0 false)
  | retest {w : Wait} : Takes w.lock (.relock (.other w)) (.test w)

inductive Drops : Lock → Pc → Pc → Prop where
  | exit : Drops .wait .exitRelease .exitSched
  | copyout {addr q : Nat} {havekids : Bool} : Drops .wait (.waitScan addr q havekids) .user
  | childless {addr : Nat} {havekids : Bool} : Drops .wait (.waitCheck addr havekids) .user
  | reaped : Drops .wait .waitRelease .user
  | fail {w : Wait} : Drops w.lock (.test w) .user
  | leave {w : Wait} : Drops w.lock (.inside w) .user
  | sleep {x : Sleeper} : Drops x.lock (.sleepRelease x) (.sleepSet x)

/-- Loops of `wakeup`: the channel, the slot, the place, the next place and the place behind the
loop. -/
inductive Wakes : Option Chan → Nat → Pc → Pc → Pc → Prop where
  | reparent {status : Int} {q r : Nat} :
      Wakes (some (.proc initproc)) r (.reparentWake status q r) (.reparentWake status q (r + 1))
        (.reparent status (q + 1))
  | exit {status : Int} {r : Nat} :
      Wakes ((s.slot p).parent.map .proc) r (.exitWake status r) (.exitWake status (r + 1))
        (.exitZombie status)
  | alert {w : Wait} {r : Nat} :
      Wakes w.alert r (.alert w r) (.alert w (r + 1)) (.sleepLock (.other w))

end Control

/-- Places at which a system call starts. -/
inductive Calls : Action → Nat → Pc → Prop where
  | fork {p : Nat} : Calls (.fork p) p (.forkScan 0)
  | exit {p : Nat} {status : Int} : p ≠ initproc → Calls (.exit p status) p (.exitLock status)
  | wait {p addr : Nat} : Calls (.wait p addr) p (.waitLock addr)
  | kill {p : Nat} {pid : Int} : Calls (.kill p pid) p (.killScan 0 pid)
  | other {p : Nat} {w : Wait} : Calls (.call p w) p (.enter w)

/-- The steps of the system. -/
inductive Move (s : State) : Action → State → Prop where
  | call {a : Action} {p : Nat} {pc : Pc} (hp : p < NPROC) (hcpu : s.cpu p = true)
      (hpc : s.pc p = .user) (hcall : Calls a p pc) : Move s a (s.setPc p pc)
  | trap {p : Nat} (hp : p < NPROC) (hcpu : s.cpu p = true) (hpc : s.pc p = .user) :
      Move s (.trap p) ((s.setSlot p { s.slot p with killed := true }).record (.trapped (s.name p)))
  | goes {p : Nat} {ok : Bool} {pc pc' : Pc} (hp : p < NPROC) (hcpu : s.cpu p = true)
      (hpc : s.pc p = pc) (hgo : Goes s p pc pc') : Move s (.run p ok) (s.setPc p pc')
  | takes {p : Nat} {ok : Bool} {l : Lock} {pc pc' : Pc} (hp : p < NPROC) (hcpu : s.cpu p = true)
      (hpc : s.pc p = pc)
      (hfree : s.lock l = none) (hgo : Takes s l pc pc') :
        Move s (.run p ok) ((s.setLock l (some p)).setPc p pc')
  | drops {p : Nat} {ok : Bool} {l : Lock} {pc pc' : Pc} (hp : p < NPROC) (hcpu : s.cpu p = true)
      (hpc : s.pc p = pc) (hgo : Drops l pc pc') : Move s (.run p ok) (s.release p l pc')
  | wakeSkip {p : Nat} {ok : Bool} {chan : Option Chan} {r : Nat} {pc more done : Pc}
      (hp : p < NPROC)
      (hcpu : s.cpu p = true) (hpc : s.pc p = pc) (hgo : Wakes s p chan r pc more done)
        (hr : r < NPROC)
      (hskip : r = p ∨ chan = none) : Move s (.run p ok) (s.setPc p more)
  | wake {p : Nat} {ok : Bool} {chan : Chan} {r : Nat} {pc more done : Pc} (hp : p < NPROC)
      (hcpu : s.cpu p = true) (hpc : s.pc p = pc) (hgo : Wakes s p (some chan) r pc more done)
        (hr : r < NPROC)
      (hne : r ≠ p) (hunlocked : (s.slot r).locked = false) :
        Move s (.run p ok) ((s.wake chan r).setPc p more)
  | wakeEnd {p : Nat} {ok : Bool} {chan : Option Chan} {r : Nat} {pc more done : Pc}
      (hp : p < NPROC)
      (hcpu : s.cpu p = true) (hpc : s.pc p = pc) (hgo : Wakes s p chan r pc more done)
        (hr : ¬r < NPROC) :
      Move s (.run p ok) (s.setPc p done)
  | alloc {p q : Nat} (hp : p < NPROC) (hcpu : s.cpu p = true) (hpc : s.pc p = .forkScan q)
      (hq : q < NPROC)
      (hunlocked : (s.slot q).locked = false) (hunused : (s.slot q).state = .unused) :
      Move s (.run p true) ((s.allocproc p q).setPc p (.forkParent q))
  | allocFail {p q : Nat} (hp : p < NPROC) (hcpu : s.cpu p = true) (hpc : s.pc p = .forkScan q)
      (hq : q < NPROC)
      (hunlocked : (s.slot q).locked = false) (hunused : (s.slot q).state = .unused) :
      Move s (.run p false) ((s.allocFail q).setPc p .user)
  | setParent {p np : Nat} {ok : Bool} (hp : p < NPROC) (hcpu : s.cpu p = true)
      (hpc : s.pc p = .forkParent np) (hfree : s.lock .wait = none) :
      Move s (.run p ok) ((s.setSlot np { s.slot np with parent := some p }).setPc p (.forkRun np))
  | setRunnable {p np : Nat} {ok : Bool} (hp : p < NPROC) (hcpu : s.cpu p = true)
      (hpc : s.pc p = .forkRun np) (hunlocked : (s.slot np).locked = false) :
      Move s (.run p ok) ((s.setSlot np { s.slot np with state := .runnable }).setPc p .user)
  | reparent {p q : Nat} {status : Int} {ok : Bool} (hp : p < NPROC) (hcpu : s.cpu p = true)
      (hpc : s.pc p = .reparent status q) (hq : q < NPROC) (hparent : (s.slot q).parent = some p) :
      Move s (.run p ok)
        ((s.setSlot q { s.slot q with parent := some initproc }).setPc p (.reparentWake status q 0))
  | zombie {p : Nat} {status : Int} {ok : Bool} (hp : p < NPROC) (hcpu : s.cpu p = true)
      (hpc : s.pc p = .exitZombie status) (hunlocked : (s.slot p).locked = false) :
      Move s (.run p ok) (((s.setSlot p { s.slot p with
        locked := true, xstate := status, state := .zombie }).setPc p .exitRelease).record
          (.exited (s.name p) status))
  | exitSwitch {p : Nat} {ok : Bool} (hp : p < NPROC) (hcpu : s.cpu p = true)
      (hpc : s.pc p = .exitSched) :
      Move s (.run p ok) (((s.setSlot p { s.slot p with locked := false }).setCpu p false).setPc p
        .dead)
  | reap {p q addr : Nat} {havekids ok : Bool} (hp : p < NPROC) (hcpu : s.cpu p = true)
      (hpc : s.pc p = .waitScan addr q havekids) (hq : q < NPROC)
        (hparent : (s.slot q).parent = some p)
      (hunlocked : (s.slot q).locked = false) (hzombie : (s.slot q).state = .zombie) :
      Move s (.run p ok) ((s.reap p q addr).setPc p .waitRelease)
  | sleepLock {p : Nat} {x : Sleeper} {ok : Bool} (hp : p < NPROC) (hcpu : s.cpu p = true)
      (hpc : s.pc p = .sleepLock x) (hunlocked : (s.slot p).locked = false) :
      Move s (.run p ok) ((s.setSlot p { s.slot p with locked := true }).setPc p (.sleepRelease x))
  | sleepSet {p : Nat} {x : Sleeper} {ok : Bool} (hp : p < NPROC) (hcpu : s.cpu p = true)
      (hpc : s.pc p = .sleepSet x) :
      Move s (.run p ok)
        ((s.setSlot p { s.slot p with chan := some (x.chan p), state := .sleeping }).setPc p
          (.sleepSched x))
  | sleepSwitch {p : Nat} {x : Sleeper} {ok : Bool} (hp : p < NPROC) (hcpu : s.cpu p = true)
      (hpc : s.pc p = .sleepSched x) :
      Move s (.run p ok) (((s.setSlot p { s.slot p with locked := false }).setCpu p false).setPc
        p (.asleep x))
  | tidy {p : Nat} {x : Sleeper} {ok : Bool} (hp : p < NPROC) (hcpu : s.cpu p = true)
      (hpc : s.pc p = .tidy x) :
      Move s (.run p ok) ((s.setSlot p { s.slot p with chan := none, locked := false }).setPc
        p (.relock x))
  | strike {p q : Nat} {pid : Int} {ok : Bool} (hp : p < NPROC) (hcpu : s.cpu p = true)
      (hpc : s.pc p = .killScan q pid) (hq : q < NPROC) (hunlocked : (s.slot q).locked = false)
      (hpid : (s.slot q).pid = pid) : Move s (.run p ok) ((s.strike q pid).setPc p .user)
  | resume {p : Nat} {x : Sleeper} (hp : p < NPROC) (hstate : (s.slot p).state = .runnable)
      (hunlocked : (s.slot p).locked = false) (hpc : s.pc p = .asleep x) :
      Move s (.schedule p)
        (((s.setSlot p { s.slot p with state := .running, locked := true }).setCpu p true).setPc p
          (.tidy x))
  | start {p : Nat} (hp : p < NPROC) (hstate : (s.slot p).state = .runnable)
      (hunlocked : (s.slot p).locked = false) (hpc : s.pc p = .forkret) :
      Move s (.schedule p) (((s.setSlot p { s.slot p with state := .running }).setCpu p true).setPc
        p .user)
  | schedule {p : Nat} (hp : p < NPROC) (hstate : (s.slot p).state = .runnable)
      (hunlocked : (s.slot p).locked = false) (hsleep : ∀ x, s.pc p ≠ .asleep x)
        (hpc : s.pc p ≠ .forkret) :
      Move s (.schedule p) ((s.setSlot p { s.slot p with state := .running }).setCpu p true)
  | yield {p : Nat} (hp : p < NPROC) (hcpu : s.cpu p = true) (hpc : (s.pc p).preemptible = true)
      (hunlocked : (s.slot p).locked = false) :
      Move s (.yield p) ((s.setSlot p { s.slot p with state := .runnable }).setCpu p false)
  | data {a : Action} {d : Shared} : Move s a { s with shared := d }
  | device {chan : Chan} {r : Nat} (hchan : ∀ p, chan ≠ .proc p) (hr : r < NPROC)
      (hunlocked : (s.slot r).locked = false) : Move s (.wakeup chan r) (s.wake chan r)

section Inversion

variable {s s' : State} {p : Nat} {ok : Bool} {a : Action}

theorem Wait.alive_of_sleep {w : Wait} {d : Shared} {killed : Bool}
    (h : w.decide d killed = .sleep) : killed = false := by
  have hchecked : ∀ waits : Bool, Wait.checked waits killed = .sleep → killed = false :=
      fun waits h => by
    cases waits <;> cases killed <;> first | rfl | cases h
  cases w with
  | piperead k => exact hchecked _ h
  | pipewrite k =>
    unfold Wait.decide at h
    cases killed with
    | false => rfl
    | true => simp at h
  | consoleread => exact hchecked _ h
  | sleep n ticks0 => exact hchecked _ h

theorem wakeupStep_move {chan : Option Chan} {r : Nat} {pc more done : Pc} (hp : p < NPROC)
    (hcpu : s.cpu p = true) (hpc : s.pc p = pc) (hgo : Wakes s p chan r pc more done) :
    (wakeupStep s p chan r more done).Sat (fun _ => False) (Move s (.run p ok)) := by
  unfold wakeupStep
  split
  · rename_i hr
    split
    · rename_i hself
      exact .next (.wakeSkip hp hcpu hpc hgo hr (.inl hself))
    · rename_i hne
      split
      · exact .blocked
      · rename_i hunlocked
        cases chan with
        | none => exact .next (.wakeSkip hp hcpu hpc hgo hr (.inr rfl))
        | some chan => exact .next (.wake hp hcpu hpc hgo hr hne (by simpa using hunlocked))
  · rename_i hr
    exact .next (.wakeEnd hp hcpu hpc hgo hr)

theorem run_move (hp : p < NPROC) (hcpu : s.cpu p = true) :
    (run s p ok).Sat (fun _ => False) (Move s (.run p ok)) := by
  unfold run
  cases hpc : s.pc p <;> dsimp only
  case idle | forkret | user | dead | asleep => exact .blocked
  case forkScan q =>
    split
    · rename_i hq
      split
      · exact .blocked
      · rename_i hunlocked
        rw [Bool.not_eq_true] at hunlocked
        split
        · rename_i hunused
          cases ok with
          | true => exact .next (.alloc hp hcpu hpc hq hunlocked hunused)
          | false => exact .next (.allocFail hp hcpu hpc hq hunlocked hunused)
        · rename_i hused
          exact .next (.goes hp hcpu hpc (.scanUsed hq hused))
    · rename_i hq
      exact .next (.goes hp hcpu hpc (.scanEnd hq))
  case forkParent np =>
    exact .guard fun hfree => .next (.setParent hp hcpu hpc hfree)
  case forkRun np =>
    split
    · exact .blocked
    · rename_i hunlocked
      exact .next (.setRunnable hp hcpu hpc (by simpa using hunlocked))
  case exitLock status =>
    exact .guard fun hfree => .next (.takes hp hcpu hpc hfree .exit)
  case reparent status q =>
    split
    · rename_i hq
      split
      · rename_i hparent
        exact .next (.reparent hp hcpu hpc hq hparent)
      · rename_i hparent
        exact .next (.goes hp hcpu hpc (.keepParent hq hparent))
    · rename_i hq
      exact .next (.goes hp hcpu hpc (.reparentEnd hq))
  case reparentWake status q r => exact wakeupStep_move hp hcpu hpc .reparent
  case exitWake status r => exact wakeupStep_move hp hcpu hpc .exit
  case exitZombie status =>
    split
    · exact .blocked
    · rename_i hunlocked
      exact .next (.zombie hp hcpu hpc (by simpa using hunlocked))
  case exitRelease => exact .next (.drops hp hcpu hpc .exit)
  case exitSched => exact .next (.exitSwitch hp hcpu hpc)
  case waitLock addr =>
    exact .guard fun hfree => .next (.takes hp hcpu hpc hfree .wait)
  case waitScan addr q havekids =>
    split
    · rename_i hq
      split
      · rename_i hparent
        split
        · exact .blocked
        · rename_i hunlocked
          rw [Bool.not_eq_true] at hunlocked
          split
          · rename_i hzombie
            split
            · exact .next (.drops hp hcpu hpc .copyout)
            · exact .next (.reap hp hcpu hpc hq hparent hunlocked hzombie)
          · rename_i halive
            exact .next (.goes hp hcpu hpc (.waitAlive hq hparent hunlocked halive))
      · rename_i hparent
        exact .next (.goes hp hcpu hpc (.waitOther hq hparent))
    · rename_i hq
      exact .next (.goes hp hcpu hpc (.waitEnd hq))
  case waitCheck addr havekids =>
    split
    · exact .next (.drops hp hcpu hpc .childless)
    · rename_i hcheck
      simp only [Bool.or_eq_true, Bool.not_eq_true', not_or, Bool.not_eq_false,
        Bool.not_eq_true] at hcheck
      obtain ⟨rfl, hk⟩ := hcheck
      exact .next (.goes hp hcpu hpc (.waitSleep hk))
  case waitRelease => exact .next (.drops hp hcpu hpc .reaped)
  case enter w =>
    exact .guard fun hfree => .next (.takes hp hcpu hpc hfree .enter)
  case test w =>
    split
    · exact .next (.drops hp hcpu hpc .fail)
    · exact .next (.goes hp hcpu hpc .testGo)
    · rename_i hdecide
      have hk := Wait.alive_of_sleep hdecide
      split
      · exact .next (.goes hp hcpu hpc (.testAlert hk))
      · exact .next (.goes hp hcpu hpc (.testSleep hk))
  case alert w r => exact wakeupStep_move hp hcpu hpc .alert
  case inside w =>
    split
    · exact .next (.goes hp hcpu hpc .again)
    · exact .next (.drops hp hcpu hpc .leave)
  case sleepLock x =>
    split
    · exact .blocked
    · rename_i hunlocked
      exact .next (.sleepLock hp hcpu hpc (by simpa using hunlocked))
  case sleepRelease x => exact .next (.drops hp hcpu hpc .sleep)
  case sleepSet x => exact .next (.sleepSet hp hcpu hpc)
  case sleepSched x => exact .next (.sleepSwitch hp hcpu hpc)
  case tidy x => exact .next (.tidy hp hcpu hpc)
  case relock x =>
    refine .guard fun hfree => ?_
    cases x with
    | wait addr => exact .next (.takes hp hcpu hpc hfree .rewait)
    | other w => exact .next (.takes hp hcpu hpc hfree .retest)
  case killScan q pid =>
    split
    · rename_i hq
      split
      · exact .blocked
      · rename_i hunlocked
        split
        · rename_i hpid
          exact .next (.strike hp hcpu hpc hq (by simpa using hunlocked) hpid)
        · rename_i hpid
          exact .next (.goes hp hcpu hpc (.killOther hq hpid))
    · rename_i hq
      exact .next (.goes hp hcpu hpc (.killEnd hq))

theorem call_move {pc : Pc} (hcall : Calls a p pc) :
    (call s p pc).Sat (fun _ => True) (Move s a) := by
  unfold call
  exact .guard fun hc => .next (.call hc.1 hc.2.1 hc.2.2 hcall)

theorem step_move : (step s a).Sat (fun _ => True) (Move s a) := by
  unfold step
  cases a <;> dsimp only
  case fork p => exact call_move .fork
  case exit p status =>
    split
    · exact .fault trivial
    · rename_i hinit
      unfold call
      exact .guard fun hc => .next (.call hc.1 hc.2.1 hc.2.2
        (.exit fun hp => hinit ⟨hc.1, hc.2.1, hc.2.2, hp⟩))
  case wait p addr => exact call_move .wait
  case kill p pid => exact call_move .kill
  case call p w => exact call_move .other
  case trap p =>
    exact .guard fun hc => .next (.trap hc.1 hc.2.1 hc.2.2)
  case run p ok =>
    exact .guard fun hc => (run_move hc.1 hc.2).mono (fun _ h => h.elim) fun _ h => h
  case schedule p =>
    refine .guard fun hc => ?_
    have hunlocked : (s.slot p).locked = false := by simpa using hc.2.2
    split
    · rename_i hpc
      exact .next (.resume hc.1 hc.2.1 hunlocked hpc)
    · rename_i hpc
      exact .next (.start hc.1 hc.2.1 hunlocked hpc)
    · rename_i hsleep hpc
      exact .next (.schedule hc.1 hc.2.1 hunlocked hsleep hpc)
  case yield p =>
    exact .guard fun hc => .next (.yield hc.1 hc.2.1 hc.2.2.1 (by simpa using hc.2.2.2))
  case update p d =>
    split
    · split
      · exact .next .data
      · exact .blocked
    · exact .blocked
  case interrupt l d => exact .guard fun _ => .next .data
  case wakeup chan r =>
    split
    · exact .blocked
    · rename_i hchan
      exact .guard fun hc => .next (.device hchan hc.1 (by simpa using hc.2))

/-! ## What a step records -/

/-- The steps that record an event. -/
inductive Records (s : State) : Event → State → Prop where
  | forked {p q : Nat} (hpc : s.pc p = .forkScan q) (hunused : (s.slot q).state = .unused) :
      Records s (.forked (s.name p) s.born) ((s.allocproc p q).setPc p (.forkParent q))
  | exited {p : Nat} {status : Int} (hpc : s.pc p = .exitZombie status) :
      Records s (.exited (s.name p) status)
        (((s.setSlot p { s.slot p with locked := true, xstate := status, state := .zombie }).setPc p
          .exitRelease).record (.exited (s.name p) status))
  | reaped {p q addr : Nat} {havekids : Bool} (hpc : s.pc p = .waitScan addr q havekids)
      (hparent : (s.slot q).parent = some p) (hunlocked : (s.slot q).locked = false)
      (hzombie : (s.slot q).state = .zombie) :
      Records s (.reaped (s.name p) (s.name q) (if addr ≠ 0 then some (s.slot q).xstate else none))
        ((s.reap p q addr).setPc p .waitRelease)
  | killed {p q : Nat} {pid : Int} (hpc : s.pc p = .killScan q pid) (hpid : (s.slot q).pid = pid) :
      Records s (.killed pid (s.name q)) ((s.strike q pid).setPc p .user)
  | trapped {p : Nat} (hpc : s.pc p = .user) :
      Records s (.trapped (s.name p))
        ((s.setSlot p { s.slot p with killed := true }).record (.trapped (s.name p)))

theorem wake_history (chan : Chan) (r : Nat) : (s.wake chan r).history = s.history := by
  unfold State.wake
  split <;> rfl

theorem Move.records (hmove : Move s a s') :
    s'.history = s.history ∨ ∃ e, s'.history = s.history ++ [e] ∧ Records s e s' := by
  cases hmove with
  | trap _ _ hpc => exact .inr ⟨_, rfl, .trapped hpc⟩
  | wake => exact .inl (wake_history _ _)
  | alloc _ _ hpc _ _ hunused => exact .inr ⟨_, rfl, .forked hpc hunused⟩
  | zombie _ _ hpc _ => exact .inr ⟨_, rfl, .exited hpc⟩
  | reap _ _ hpc _ hparent hunlocked hzombie =>
    exact .inr ⟨_, rfl, .reaped hpc hparent hunlocked hzombie⟩
  | strike _ _ hpc _ _ hpid => exact .inr ⟨_, rfl, .killed hpc hpid⟩
  | device => exact .inl (wake_history _ _)
  | _ => exact .inl rfl

theorem Move.records_of_append {e : Event} (hmove : Move s a s')
    (h : s'.history = s.history ++ [e]) : Records s e s' := by
  rcases hmove.records with hsame | ⟨e', he', hrec⟩
  · rw [hsame] at h
    simp at h
  · rw [he', List.append_cancel_left_eq, List.singleton_inj] at h
    exact h ▸ hrec

end Inversion

end Xv6.Procs
