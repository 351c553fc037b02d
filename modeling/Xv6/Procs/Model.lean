import Xv6.Lib.CInt
import Xv6.Lib.System
import Xv6.Param

/-! # The process table of `proc.c`

Processes run `fork`, `exit`, `wait`, `kill` and the killable waits of the kernel. One action is
one critical section of a `p->lock`, one step under `wait_lock` or the lock of another wait, or
one switch between a process and the scheduler. A `p->lock` that its own process takes, in
`sleep` and in `exit`, is held until the scheduler has left the process's stack.
-/

namespace Xv6.Procs

open Lib

def initproc : Nat := 0

/-- A lock that `sleep` releases: `wait_lock`, `pi->lock`, `cons.lock` or `tickslock`. -/
inductive Lock where
  | wait
  | pipe (k : Nat)
  | cons
  | ticks
deriving DecidableEq

inductive Chan where
  | proc (p : Nat)
  | nread (k : Nat)
  | nwrite (k : Nat)
  | cons
  | ticks
deriving DecidableEq

/-- A slot of the table; `locked` says that its own process, or the scheduler that leaves or
enters it, holds `p->lock`. -/
structure Slot where
  locked : Bool
  state : ProcState
  chan : Option Chan
  killed : Bool
  xstate : Int
  pid : Int
  parent : Option Nat
deriving DecidableEq

def Slot.free : Slot := ⟨false, .unused, none, false, 0, 0, none⟩

/-! ## The waits other than `wait` -/

structure Pipe where
  nread : Nat
  nwrite : Nat
  readopen : Bool
  writeopen : Bool
deriving DecidableEq

/-- What the waits are for, of type `uint` where it counts. -/
structure Shared where
  pipe : Nat → Pipe
  r : Nat
  w : Nat
  ticks : Nat

def Shared.assign (d new : Shared) : Lock → Shared
  | .wait => d
  | .pipe k => { d with pipe := Function.update d.pipe k (new.pipe k) }
  | .cons => { d with r := new.r, w := new.w }
  | .ticks => { d with ticks := new.ticks }

/-- `sleep` is `sys_sleep`, whose `n` is compared as a `uint`. -/
inductive Wait where
  | piperead (k : Nat)
  | pipewrite (k : Nat)
  | consoleread
  | sleep (n : Nat) (ticks0 : Nat)
deriving DecidableEq

inductive Decision where
  | fail
  | sleep
  | go
deriving DecidableEq

namespace Wait

def lock : Wait → Lock
  | .piperead k | .pipewrite k => .pipe k
  | .consoleread => .cons
  | .sleep .. => .ticks

def chan : Wait → Chan
  | .piperead k => .nread k
  | .pipewrite k => .nwrite k
  | .consoleread => .cons
  | .sleep .. => .ticks

/-- The channel of the `wakeup` before the `sleep`. -/
def alert : Wait → Option Chan
  | .pipewrite k => some (.nread k)
  | _ => none

/-- `if(killed) fail; sleep`, as long as there is a reason to wait. -/
def checked (waits killed : Bool) : Decision :=
  if waits then if killed then .fail else .sleep else .go

def decide (d : Shared) (killed : Bool) : Wait → Decision
  | .piperead k => checked ((d.pipe k).nread == (d.pipe k).nwrite && (d.pipe k).writeopen) killed
  | .pipewrite k =>
    if !(d.pipe k).readopen || killed then .fail
    else if (d.pipe k).nwrite = ((d.pipe k).nread + PIPESIZE) % 2 ^ 32 then .sleep
    else .go
  | .consoleread => checked (d.r == d.w) killed
  | .sleep n ticks0 => checked ((d.ticks + 2 ^ 32 - ticks0) % 2 ^ 32 < n) killed

/-- The wait after its lock is taken for the first time: `ticks0 = ticks`. -/
def enter (d : Shared) : Wait → Wait
  | .sleep n _ => .sleep n d.ticks
  | w => w

end Wait

/-- A call that sleeps: `wait(addr)` or one of the other waits. -/
inductive Sleeper where
  | wait (addr : Nat)
  | other (w : Wait)
deriving DecidableEq

namespace Sleeper

def lock : Sleeper → Lock
  | .wait _ => .wait
  | .other w => w.lock

def chan (p : Nat) : Sleeper → Chan
  | .wait _ => .proc p
  | .other w => w.chan

end Sleeper

/-! ## Processes -/

/-- Where the kernel thread of a slot is. -/
inductive Pc where
  /-- no thread -/
  | idle
  | forkret
  | user
  /-- `fork`, at slot `q` in the loop of `allocproc` -/
  | forkScan (q : Nat)
  /-- at `acquire(&wait_lock); np->parent = p` -/
  | forkParent (np : Nat)
  /-- at `acquire(&np->lock); np->state = RUNNABLE` -/
  | forkRun (np : Nat)
  /-- `exit(status)` at `acquire(&wait_lock)` -/
  | exitLock (status : Int)
  | reparent (status : Int) (q : Nat)
  /-- in `wakeup(initproc)` of the iteration for `q` -/
  | reparentWake (status : Int) (q r : Nat)
  /-- in `wakeup(p->parent)` -/
  | exitWake (status : Int) (r : Nat)
  /-- at `acquire(&p->lock)` -/
  | exitZombie (status : Int)
  /-- at `release(&wait_lock)` -/
  | exitRelease
  | exitSched
  /-- the scheduler has left the exited process -/
  | dead
  /-- `wait(addr)` at `acquire(&wait_lock)` -/
  | waitLock (addr : Nat)
  | waitScan (addr q : Nat) (havekids : Bool)
  | waitCheck (addr : Nat) (havekids : Bool)
  /-- a child has been freed -/
  | waitRelease
  /-- at the first `acquire` of another wait -/
  | enter (w : Wait)
  /-- at the head of its loop -/
  | test (w : Wait)
  /-- in the `wakeup` before its `sleep` -/
  | alert (w : Wait) (r : Nat)
  /-- behind its loop, with the lock -/
  | inside (w : Wait)
  /-- `sleep` at `acquire(&p->lock)` -/
  | sleepLock (x : Sleeper)
  /-- at `release(lk)` -/
  | sleepRelease (x : Sleeper)
  | sleepSet (x : Sleeper)
  | sleepSched (x : Sleeper)
  /-- the scheduler has left the process -/
  | asleep (x : Sleeper)
  /-- at `p->chan = 0` -/
  | tidy (x : Sleeper)
  /-- at `acquire(lk)` behind `sleep` -/
  | relock (x : Sleeper)
  /-- `kill(pid)` at slot `q` -/
  | killScan (q : Nat) (pid : Int)
deriving DecidableEq

/-- The process holds no spinlock, so that a timer interrupt may take its CPU. -/
def Pc.preemptible : Pc → Bool
  | .user | .forkScan _ | .forkParent _ | .forkRun _ | .exitLock _ | .waitLock _
  | .enter _ | .relock _
  | .killScan .. => true
  | _ => false

/-- Processes are named by their number in the order of creation. -/
inductive Event where
  | forked (parent child : Nat)
  | exited (x : Nat) (status : Int)
  /-- `wait(addr)` of `parent` has returned `child`, with the status that it has copied out -/
  | reaped (parent child : Nat) (status : Option Int)
  /-- `kill(pid)` has returned 0; the slot it found was of process `x` last -/
  | killed (pid : Int) (x : Nat)
  /-- the trap handler has set `p->killed` -/
  | trapped (x : Nat)
deriving DecidableEq

/-- `cpu` says whether the thread of a slot is on a CPU. `name` is the number of the process that
a slot was given to last, `born` the number of processes so far. -/
structure State where
  slot : Nat → Slot
  pc : Nat → Pc
  cpu : Nat → Bool
  nextpid : Int
  lock : Lock → Option Nat
  shared : Shared
  name : Nat → Nat
  born : Nat
  history : List Event

namespace State

variable (s : State)

def setSlot (q : Nat) (x : Slot) : State := { s with slot := Function.update s.slot q x }

def setPc (p : Nat) (pc : Pc) : State := { s with pc := Function.update s.pc p pc }

def setCpu (p : Nat) (on : Bool) : State := { s with cpu := Function.update s.cpu p on }

def setLock (l : Lock) (holder : Option Nat) : State :=
  { s with lock := Function.update s.lock l holder }

def record (e : Event) : State := { s with history := s.history ++ [e] }

def release (p : Nat) (l : Lock) (pc : Pc) : State := (s.setLock l none).setPc p pc

def wake (chan : Chan) (r : Nat) : State :=
  if (s.slot r).state = .sleeping ∧ (s.slot r).chan = some chan then
    s.setSlot r { s.slot r with state := .runnable }
  else s

/-- `allocproc` has found slot `q`, and the child is complete up to `release(&np->lock)`. -/
def allocproc (p q : Nat) : State :=
  { ((s.setSlot q { s.slot q with pid := s.nextpid, state := .used }).setPc q .forkret).record
      (.forked (s.name p) s.born) with
    nextpid := int32 (s.nextpid + 1)
    name := Function.update s.name q s.born
    born := s.born + 1 }

/-- `allocproc` has found slot `q`, and then memory was missing. -/
def allocFail (q : Nat) : State :=
  { s.setSlot q .free with nextpid := int32 (s.nextpid + 1) }

/-- `freeproc(np)` in `wait(addr)`. The status of `np` has been copied out, unless `addr` is 0. -/
def reap (p q addr : Nat) : State :=
  ((s.setSlot q .free).setPc q .idle).record
    (.reaped (s.name p) (s.name q) (if addr ≠ 0 then some (s.slot q).xstate else none))

/-- The part of `kill` under the lock of the slot that it has found. -/
def strike (q : Nat) (pid : Int) : State :=
  (s.setSlot q { s.slot q with
    killed := true
    state := if (s.slot q).state = .sleeping then .runnable else (s.slot q).state }).record
      (.killed pid (s.name q))

end State

inductive Fault where
  /-- `panic("init exiting")` -/
  | initExiting
deriving DecidableEq

/-- One iteration of a loop `wakeup(chan)` by `p` at slot `r`. -/
def wakeupStep (s : State) (p : Nat) (chan : Option Chan) (r : Nat) (more done : Pc) :
    Outcome Fault State :=
  if r < NPROC then
    if r = p then .next (s.setPc p more)
    else if (s.slot r).locked then .blocked
    else
      match chan with
      | none => .next (s.setPc p more)
      | some chan => .next ((s.wake chan r).setPc p more)
  else .next (s.setPc p done)

/-- The next step of the thread of slot `p`; `ok` is the result of the allocations of `fork`, of
`copyout` in `wait`, or whether a wait that has been through its loop starts it again. -/
def run (s : State) (p : Nat) (ok : Bool) : Outcome Fault State :=
  match s.pc p with
  | .idle | .forkret | .user | .dead | .asleep _ => .blocked
  | .forkScan q =>
    if q < NPROC then
      if (s.slot q).locked then .blocked
      else if (s.slot q).state = .unused then
        if ok then .next ((s.allocproc p q).setPc p (.forkParent q))
          else .next ((s.allocFail q).setPc p .user)
      else .next (s.setPc p (.forkScan (q + 1)))
    else .next (s.setPc p .user)
  | .forkParent np =>
    if s.lock .wait = none then
      .next ((s.setSlot np { s.slot np with parent := some p }).setPc p (.forkRun np))
    else .blocked
  | .forkRun np =>
    if (s.slot np).locked then .blocked
    else .next ((s.setSlot np { s.slot np with state := .runnable }).setPc p .user)
  | .exitLock status =>
    if s.lock .wait = none then .next ((s.setLock .wait (some p)).setPc p (.reparent status 0))
      else .blocked
  | .reparent status q =>
    if q < NPROC then
      if (s.slot q).parent = some p then
        .next ((s.setSlot q { s.slot q with parent := some initproc }).setPc p
          (.reparentWake status q 0))
      else .next (s.setPc p (.reparent status (q + 1)))
    else .next (s.setPc p (.exitWake status 0))
  | .reparentWake status q r =>
    wakeupStep s p (some (.proc initproc)) r (.reparentWake status q (r + 1))
      (.reparent status (q + 1))
  | .exitWake status r =>
    wakeupStep s p ((s.slot p).parent.map .proc) r (.exitWake status (r + 1)) (.exitZombie status)
  | .exitZombie status =>
    if (s.slot p).locked then .blocked
    else .next (((s.setSlot p { s.slot p with
      locked := true, xstate := status, state := .zombie }).setPc p .exitRelease).record
        (.exited (s.name p) status))
  | .exitRelease => .next (s.release p .wait .exitSched)
  | .exitSched =>
    .next (((s.setSlot p { s.slot p with locked := false }).setCpu p false).setPc p .dead)
  | .waitLock addr =>
    if s.lock .wait = none then .next ((s.setLock .wait (some p)).setPc p (.waitScan addr 0 false))
      else .blocked
  | .waitScan addr q havekids =>
    if q < NPROC then
      if (s.slot q).parent = some p then
        if (s.slot q).locked then .blocked
        else if (s.slot q).state = .zombie then
          if addr ≠ 0 ∧ !ok then .next (s.release p .wait .user)
          else .next ((s.reap p q addr).setPc p .waitRelease)
        else .next (s.setPc p (.waitScan addr (q + 1) true))
      else .next (s.setPc p (.waitScan addr (q + 1) havekids))
    else .next (s.setPc p (.waitCheck addr havekids))
  | .waitCheck addr havekids =>
    if !havekids || (s.slot p).killed then .next (s.release p .wait .user)
    else .next (s.setPc p (.sleepLock (.wait addr)))
  | .waitRelease => .next (s.release p .wait .user)
  | .enter w =>
    if s.lock w.lock = none then
      .next ((s.setLock w.lock (some p)).setPc p (.test (w.enter s.shared)))
    else .blocked
  | .test w =>
    match w.decide s.shared (s.slot p).killed with
    | .fail => .next (s.release p w.lock .user)
    | .go => .next (s.setPc p (.inside w))
    | .sleep =>
      match w.alert with
      | some _ => .next (s.setPc p (.alert w 0))
      | none => .next (s.setPc p (.sleepLock (.other w)))
  | .alert w r => wakeupStep s p w.alert r (.alert w (r + 1)) (.sleepLock (.other w))
  | .inside w => if ok then .next (s.setPc p (.test w)) else .next (s.release p w.lock .user)
  | .sleepLock x =>
    if (s.slot p).locked then .blocked
    else .next ((s.setSlot p { s.slot p with locked := true }).setPc p (.sleepRelease x))
  | .sleepRelease x => .next (s.release p x.lock (.sleepSet x))
  | .sleepSet x =>
    .next ((s.setSlot p { s.slot p with chan := some (x.chan p), state := .sleeping }).setPc p
      (.sleepSched x))
  | .sleepSched x =>
    .next (((s.setSlot p { s.slot p with locked := false }).setCpu p false).setPc p (.asleep x))
  | .tidy x =>
    .next ((s.setSlot p { s.slot p with chan := none, locked := false }).setPc p (.relock x))
  | .relock x =>
    if s.lock x.lock = none then
      .next ((s.setLock x.lock (some p)).setPc p
        (match x with
        | .wait addr => .waitScan addr 0 false
        | .other w => .test w))
    else .blocked
  | .killScan q pid =>
    if q < NPROC then
      if (s.slot q).locked then .blocked
      else if (s.slot q).pid = pid then .next ((s.strike q pid).setPc p .user)
      else .next (s.setPc p (.killScan (q + 1) pid))
    else .next (s.setPc p .user)

inductive Action where
  | fork (p : Nat)
  | exit (p : Nat) (status : Int)
  | wait (p addr : Nat)
  | kill (p : Nat) (pid : Int)
  /-- a call of one of the other waits -/
  | call (p : Nat) (w : Wait)
  /-- the trap handler sets `p->killed` -/
  | trap (p : Nat)
  /-- the next step of the process's call -/
  | run (p : Nat) (ok : Bool)
  /-- the scheduler switches to the process -/
  | schedule (p : Nat)
  /-- the process gives up its CPU -/
  | yield (p : Nat)
  /-- the process changes what it has locked -/
  | update (p : Nat) (d : Shared)
  /-- a device changes what is not locked -/
  | interrupt (l : Lock) (d : Shared)
  /-- a device, or a process behind its wait, is in `wakeup(chan)` at slot `r` -/
  | wakeup (chan : Chan) (r : Nat)

def call (s : State) (p : Nat) (pc : Pc) : Outcome Fault State :=
  if p < NPROC ∧ s.cpu p ∧ s.pc p = .user then .next (s.setPc p pc) else .blocked

def step (s : State) : Action → Outcome Fault State
  | .fork p => call s p (.forkScan 0)
  | .exit p status =>
    if p < NPROC ∧ s.cpu p ∧ s.pc p = .user ∧ p = initproc then .fault .initExiting
    else call s p (.exitLock status)
  | .wait p addr => call s p (.waitLock addr)
  | .kill p pid => call s p (.killScan 0 pid)
  | .call p w => call s p (.enter w)
  | .trap p =>
    if p < NPROC ∧ s.cpu p ∧ s.pc p = .user then
      .next ((s.setSlot p { s.slot p with killed := true }).record (.trapped (s.name p)))
    else .blocked
  | .run p ok => if p < NPROC ∧ s.cpu p then run s p ok else .blocked
  | .schedule p =>
    if p < NPROC ∧ (s.slot p).state = .runnable ∧ !(s.slot p).locked then
      match s.pc p with
  | .asleep x =>
        .next (((s.setSlot p { s.slot p with state := .running, locked := true }).setCpu p
          true).setPc p (.tidy x))
  | .forkret =>
        .next (((s.setSlot p { s.slot p with state := .running }).setCpu p true).setPc p .user)
      | _ => .next ((s.setSlot p { s.slot p with state := .running }).setCpu p true)
    else .blocked
  | .yield p =>
    if p < NPROC ∧ s.cpu p ∧ (s.pc p).preemptible ∧ !(s.slot p).locked then
      .next ((s.setSlot p { s.slot p with state := .runnable }).setCpu p false)
    else .blocked
  | .update p d =>
    match s.pc p with
    | .inside w =>
      if s.lock w.lock = some p then .next { s with shared := s.shared.assign d w.lock }
        else .blocked
    | _ => .blocked
  | .interrupt l d =>
    if l ≠ .wait ∧ s.lock l = none then .next { s with shared := s.shared.assign d l } else .blocked
  | .wakeup chan r =>
    match chan with
    | .proc _ => .blocked
    | chan => if r < NPROC ∧ !(s.slot r).locked then .next (s.wake chan r) else .blocked

/-- After `userinit`: the first process is ready to run. -/
def Booted (s : State) : Prop :=
  s.slot = Function.update (fun _ => .free) initproc
    { Slot.free with state := .runnable, pid := 1 } ∧
    s.pc = Function.update (fun _ => .idle) initproc .forkret ∧ (∀ p, s.cpu p = false) ∧
    s.nextpid = 2 ∧
    (∀ l, s.lock l = none) ∧ s.name initproc = 0 ∧ s.born = 1 ∧ s.history = []

end Xv6.Procs
