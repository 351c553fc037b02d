import Xv6.Lib.CInt
import Xv6.Lib.System
import Xv6.Param

/-! # Spinlocks and the interrupt flag

`push_off`, `pop_off`, `acquire` and `release` of spinlock.c run on any number of CPUs, by
the kernel threads of processes and by the scheduler of each CPU, which `sched` and
`scheduler` of proc.c switch between.  `noff` and `intena` belong to the CPU.  One action
is a stretch of code that no interrupt and no other CPU can tell from a single step:
`acquire` is the two parts of `push_off` and then `lock`, `release` is `unlock` and then
`popOff`.
-/

namespace Xv6.Spinlock

open Lib

/-- The thread of a CPU's `scheduler`, or the kernel thread of a process. -/
inductive Thread where
  | sched (c : Nat)
  | proc (p : Nat)
deriving DecidableEq

/-- The `p->lock` of a process, or another spinlock. -/
inductive Lock where
  | proc (p : Nat)
  | other (n : Nat)
deriving DecidableEq

/-- `noff` and `intena` of `struct cpu`, the flag `SIE` of `sstatus`, and the thread on whose
stack the CPU runs. -/
structure Cpu where
  noff : Int
  intena : Bool
  sie : Bool
  cur : Thread
deriving DecidableEq

/-- Where `swtch` to a process goes on: in a new process at `forkret`, in one that has run
in `sched`, with its local variable `intena`. -/
inductive Context where
  | forkret
  | sched (intena : Bool)
deriving DecidableEq

/-- A thread.  `old` is the variable of a `push_off` under way that has not yet turned
interrupts off; `traps` has the `old` of the code under each interrupt that the thread is
handling.

The other fields record what the thread has done: `depth` counts its calls of `push_off`
without a `pop_off`, `held` are its locks, `enabled` says whether interrupts were enabled
at the outermost of these calls, and `switched` that a process has run since that call,
which is a scheduler's. -/
structure Kthread where
  old : Option Bool
  traps : List (Option Bool)
  context : Context
  depth : Nat
  held : List Lock
  enabled : Option Bool
  switched : Bool
deriving DecidableEq

/-- `lock l` is the CPU in `lk->cpu` while `lk->locked`. -/
structure State where
  cpu : Nat → Cpu
  thread : Thread → Kthread
  lock : Lock → Option Nat
  state : Nat → ProcState

/-- What `allocproc` sets up.  The process holds its lock as if it had taken it: the
scheduler that starts it has done so. -/
def newThread (p : Nat) : Kthread where
  old := none
  traps := []
  context := .forkret
  depth := 1
  held := [.proc p]
  enabled := none
  switched := false

namespace State

variable (s : State)

def on (c : Nat) : Kthread := s.thread (s.cpu c).cur

def setThread (t : Thread) (k : Kthread) : State :=
  { s with thread := Function.update s.thread t k }

def setLock (l : Lock) (c : Option Nat) : State := { s with lock := Function.update s.lock l c }

def setState (p : Nat) (st : ProcState) : State := { s with state := Function.update s.state p st }

def setOn (c : Nat) (k : Cpu) (t : Kthread) : State :=
  { s with cpu := Function.update s.cpu c k, thread := Function.update s.thread (s.cpu c).cur t }

end State

inductive Action where
  /-- `intr_on()` or `sret` to user mode, outside the sections between `push_off` and `pop_off` -/
  | intrOn (c : Nat)
  /-- `intr_off()` or a trap from user mode, likewise -/
  | intrOff (c : Nat)
  /-- an interrupt of the kernel -/
  | trap (c : Nat)
  /-- the return of `kerneltrap` to the interrupted code -/
  | sret (c : Nat)
  /-- `int old = intr_get()` of `push_off` -/
  | intrGet (c : Nat)
  /-- `push_off` from `intr_off()` on -/
  | pushOff (c : Nat)
  | popOff (c : Nat)
  /-- `acquire(lk)` behind its `push_off` -/
  | lock (c : Nat) (l : Lock)
  /-- `release(lk)` before its `pop_off` -/
  | unlock (c : Nat) (l : Lock)
  /-- `wakeup` or `kill` makes a sleeping process runnable -/
  | wakeup (c p : Nat)
  | allocproc (c p : Nat)
  /-- `fork` or `userinit` makes a new process runnable -/
  | ready (c p : Nat)
  | freeproc (c p : Nat)
  /-- `p->state = st; sched();` up to the switch: `yield`, `sleep` and `exit` -/
  | sched (c : Nat) (st : ProcState)
  /-- `scheduler` finds `p` runnable, switches to it, and `p` goes on behind the `swtch` of
  its `sched` or at `forkret` -/
  | run (c p : Nat)

inductive Panic where
  | acquire
  | release
  | popOffInterruptible
  | popOff
  | schedLock
  | schedLocks
  | schedInterruptible
deriving DecidableEq

namespace State

variable (s : State)

/-- `push_off` behind `intr_get`. -/
def pushOff (c : Nat) (old : Bool) : State :=
  let k := s.cpu c
  let t := s.on c
  s.setOn c
    { k with
      sie := false, intena := if k.noff = 0 then old else k.intena, noff := int32 (k.noff + 1) }
    { t with
      old := none
      depth := t.depth + 1
      enabled := if t.depth = 0 then some k.sie else t.enabled
      switched := if t.depth = 0 then false else t.switched }

def popOff (c : Nat) : Outcome Panic State :=
  let k := s.cpu c
  let t := s.on c
  if k.sie then .fault .popOffInterruptible
  else if k.noff < 1 then .fault .popOff
  else
    .next (s.setOn c { k with noff := k.noff - 1, sie := k.noff - 1 = 0 ∧ k.intena }
      { t with depth := t.depth - 1 })

/-- `acquire` behind its `push_off`; a lock of another CPU is waited for. -/
def acquire (c : Nat) (l : Lock) : Outcome Panic State :=
  match s.lock l with
  | none =>
    .next ((s.setOn c (s.cpu c) { s.on c with held := l :: (s.on c).held }).setLock l (some c))
  | some d => if d = c then .fault .acquire else .blocked

/-- `release` before its `pop_off`. -/
def release (c : Nat) (l : Lock) : Outcome Panic State :=
  if s.lock l = some c then
    .next ((s.setOn c (s.cpu c) { s.on c with held := (s.on c).held.erase l }).setLock l none)
  else .fault .release

/-- `sched` of process `p` on CPU `c`, up to the switch to the CPU's scheduler. -/
def sched (c p : Nat) : Outcome Panic State :=
  let k := s.cpu c
  if s.lock (.proc p) ≠ some c then .fault .schedLock
  else if k.noff ≠ 1 then .fault .schedLocks
  else if k.sie then .fault .schedInterruptible
  else .next (s.setOn c { k with cur := .sched c } { s.on c with context := .sched k.intena })

/-- The switch from the scheduler of CPU `c` to `p`. -/
def run (c p : Nat) : State :=
  let k := s.cpu c
  let intena := match (s.thread (.proc p)).context with
    | .forkret => k.intena
    | .sched intena => intena
  (s.setOn c { k with cur := .proc p, intena := intena } { s.on c with switched := true }).setState
    p .running

/-- Whether a thread is not inside `push_off` and holds fewer locks than it has called
`push_off`: it can take a lock or call `pop_off` in turn. -/
def Nested (c : Nat) : Prop := (s.on c).old = none ∧ (s.on c).held.length < (s.on c).depth

def Outside (c : Nat) : Prop := (s.on c).old = none ∧ (s.on c).depth = 0

/-- Whether the thread on `c` holds the lock of `p` and finds `p` in state `st`. -/
def Finds (c p : Nat) (st : ProcState) : Prop := .proc p ∈ (s.on c).held ∧ s.state p = st

/-- Whether the thread on `c` holds the lock of `p` and no other, and has interrupts off for
it alone. -/
def Only (c p : Nat) : Prop := (s.on c).old = none ∧ (s.on c).held = [.proc p] ∧ (s.on c).depth = 1

instance (c : Nat) : Decidable (s.Nested c) := inferInstanceAs (Decidable (_ ∧ _))
instance (c : Nat) : Decidable (s.Outside c) := inferInstanceAs (Decidable (_ ∧ _))
instance (c p : Nat) (st : ProcState) : Decidable (s.Finds c p st) :=
  inferInstanceAs (Decidable (_ ∧ _))
instance (c p : Nat) : Decidable (s.Only c p) := inferInstanceAs (Decidable (_ ∧ _))

end State

/-- One action.  An action is blocked where a thread that nests its calls does not take it;
what the code checks itself is in the panics. -/
def step (s : State) : Action → Outcome Panic State
  | .intrOn c =>
    if s.Outside c then .next (s.setOn c { s.cpu c with sie := true } (s.on c)) else .blocked
  | .intrOff c =>
    if s.Outside c then .next (s.setOn c { s.cpu c with sie := false } (s.on c)) else .blocked
  | .trap c =>
    if (s.cpu c).sie then
      .next (s.setOn c { s.cpu c with sie := false }
        { s.on c with old := none, traps := (s.on c).old :: (s.on c).traps })
    else .blocked
  | .sret c =>
    match (s.on c).traps with
    | [] => .blocked
    | old :: traps =>
      if s.Outside c then
        .next (s.setOn c { s.cpu c with sie := true } { s.on c with old := old, traps := traps })
      else .blocked
  | .intrGet c =>
    if (s.on c).old = none then
      .next (s.setOn c (s.cpu c) { s.on c with old := some (s.cpu c).sie })
    else .blocked
  | .pushOff c =>
    match (s.on c).old with
    | none => .blocked
    | some old => .next (s.pushOff c old)
  | .popOff c => if s.Nested c then s.popOff c else .blocked
  | .lock c l => if s.Nested c then s.acquire c l else .blocked
  | .unlock c l => if (s.on c).old = none ∧ l ∈ (s.on c).held then s.release c l else .blocked
  | .wakeup c p => if s.Finds c p .sleeping then .next (s.setState p .runnable) else .blocked
  | .allocproc c p =>
    if s.Finds c p .unused then .next ((s.setThread (.proc p) (newThread p)).setState p .used)
      else .blocked
  | .ready c p => if s.Finds c p .used then .next (s.setState p .runnable) else .blocked
  | .freeproc c p =>
    if s.Finds c p .zombie ∨ s.Finds c p .used then .next (s.setState p .unused) else .blocked
  | .sched c st =>
    match (s.cpu c).cur with
    | .sched _ => .blocked
    | .proc p =>
      if s.Only c p ∧ (st = .runnable ∨ st = .sleeping ∨ st = .zombie)
        then (s.setState p st).sched c p
      else .blocked
  | .run c p =>
    if (s.cpu c).cur = .sched c ∧ s.Only c p ∧ s.state p = .runnable then .next (s.run c p)
      else .blocked

/-- Every CPU is in its scheduler, with no lock held and no process yet. -/
structure Booted (s : State) : Prop where
  cur : ∀ c, (s.cpu c).cur = .sched c
  noff : ∀ c, (s.cpu c).noff = 0
  depth : ∀ c, (s.on c).depth = 0
  held : ∀ c, (s.on c).held = []
  old : ∀ c, (s.on c).old = none
  lock : ∀ l, s.lock l = none
  traps : ∀ t, (s.thread t).traps = []
  switched : ∀ p, (s.thread (.proc p)).switched = false
  state : ∀ p, s.state p = .unused

/-- `noff` is an `int`: no thread nests so deep that it overflows. -/
def Shallow (s : State) : Action → Prop
  | .pushOff c => (s.on c).depth + 1 < 2 ^ 31
  | _ => True

instance (s : State) : (a : Action) → Decidable (Shallow s a)
  | .pushOff c => inferInstanceAs (Decidable ((s.on c).depth + 1 < 2 ^ 31))
  | .intrOn _ | .intrOff _ | .trap _ | .sret _ | .intrGet _ | .popOff _ | .lock ..
  | .unlock .. | .wakeup ..
  | .allocproc .. | .ready .. | .freeproc .. | .sched .. | .run .. => isTrue trivial

end Xv6.Spinlock
