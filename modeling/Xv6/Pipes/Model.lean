import Xv6.Lib.System
import Xv6.Param

/-! # Pipes of `pipe.c`

Any number of processes run `pipewrite`, `piperead` and `pipeclose` on one pipe, with the
`sleep`, `wakeup` and `kill` of `proc.c`. One action is one iteration of a loop under
`pi->lock`, one process of the table in the loop of `wakeup`, one of the two halves of
`sleep`, or one `kill`. A process between the halves of `sleep` holds its `p->lock`, for
which `wakeup` and `kill` wait.
-/

namespace Xv6.Pipes

open Function Lib

/-- `nread` and `nwrite` are of type `uint`. -/
structure Pipe where
  data : Nat → UInt8
  nread : Nat
  nwrite : Nat
  readopen : Bool
  writeopen : Bool

inductive Chan where
  | nread
  | nwrite
deriving DecidableEq

/-- A call with its local variables. -/
inductive Call where
  /-- `pipewrite(pi, addr, n)`, which has written `i` bytes; `id` numbers the call -/
  | write (id : Nat) (n : Int) (i : Nat)
  /-- `piperead(pi, addr, n)` in its first loop -/
  | read (n : Int)
  /-- `piperead(pi, addr, n)` in its second loop -/
  | copy (n : Int) (i : Nat)
  | close (writable : Bool)
deriving DecidableEq

inductive After where
  | sleep (c : Call)
  | leave
deriving DecidableEq

inductive Pc where
  | user
  /-- wants `pi->lock`, at the start of the call or after `sleep` -/
  | enter (c : Call)
  /-- holds `pi->lock`, at the head of a loop -/
  | body (c : Call)
  /-- holds `pi->lock`, in the loop of `wakeup(ch)` at process `k` -/
  | wakeup (ch : Chan) (k : Nat) (next : After)
  /-- holds `pi->lock`, at the call of `sleep(ch, &pi->lock)` -/
  | sleep (ch : Chan) (c : Call)
  /-- in `sleep`, holds `p->lock` and has released `pi->lock` -/
  | falling (ch : Chan) (c : Call)
  /-- `SLEEPING` on `ch` -/
  | sleeping (ch : Chan) (c : Call)
deriving DecidableEq

structure Proc where
  pc : Pc
  killed : Bool

/-- `lock` is the holder of `pi->lock`. `source id` is the user memory that `pipewrite` call
`id` reads, `none` where `copyin` fails. The history is in `put`, with the call that each byte
is from, and `taken`. -/
structure State where
  pipe : Pipe
  lock : Option Nat
  proc : Nat → Proc
  calls : Nat
  source : Nat → Nat → Option UInt8
  put : List (Nat × UInt8)
  taken : List UInt8

namespace State

variable (s : State)

def setPc (p : Nat) (pc : Pc) : State :=
  { s with proc := update s.proc p { s.proc p with pc := pc } }

def setKilled (p : Nat) (killed : Bool) : State :=
  { s with proc := update s.proc p { s.proc p with killed := killed } }

/-- `release(&pi->lock)` and the process goes on at `pc`. -/
def release (p : Nat) (pc : Pc) : State := { s with lock := none }.setPc p pc

def Full : Prop := s.pipe.nwrite = (s.pipe.nread + PIPESIZE) % 2 ^ 32

def Empty : Prop := s.pipe.nread = s.pipe.nwrite

instance : Decidable s.Full := inferInstanceAs (Decidable (_ = _))
instance : Decidable s.Empty := inferInstanceAs (Decidable (_ = _))

/-- `pi->data[pi->nwrite++ % PIPESIZE] = ch`. -/
def store (id : Nat) (ch : UInt8) : State :=
  { s with
    pipe := { s.pipe with
      data := update s.pipe.data (s.pipe.nwrite % PIPESIZE) ch
      nwrite := (s.pipe.nwrite + 1) % 2 ^ 32 }
    put := s.put ++ [(id, ch)] }

/-- `ch = pi->data[pi->nread++ % PIPESIZE]`. -/
def fetch : State :=
  { s with
    pipe := { s.pipe with nread := (s.pipe.nread + 1) % 2 ^ 32 }
    taken := s.taken ++ [s.pipe.data (s.pipe.nread % PIPESIZE)] }

def writeLoop (p id : Nat) (n : Int) (i : Nat) : State :=
  if i < n then
    if !s.pipe.readopen || (s.proc p).killed then s.release p .user
    else if s.Full then s.setPc p (.wakeup .nread 0 (.sleep (.write id n i)))
    else
      match s.source id i with
      | none => s.setPc p (.wakeup .nread 0 .leave)
      | some ch => (s.store id ch).setPc p (.body (.write id n (i + 1)))
  else s.setPc p (.wakeup .nread 0 .leave)

def readLoop (p : Nat) (n : Int) : State :=
  if s.Empty ∧ s.pipe.writeopen then
    if (s.proc p).killed then s.release p .user else s.setPc p (.sleep .nread (.read n))
  else s.setPc p (.body (.copy n 0))

/-- One iteration of the second loop of `piperead`; `copyout` says whether that call succeeds. -/
def copyLoop (p : Nat) (n : Int) (i : Nat) (copyout : Bool) : State :=
  if i < n ∧ ¬ s.Empty then
    if copyout then s.fetch.setPc p (.body (.copy n (i + 1))) else s.fetch.setPc p
      (.wakeup .nwrite 0 .leave)
  else s.setPc p (.wakeup .nwrite 0 .leave)

/-- `pipeclose` up to its `wakeup`. -/
def closeEnd (p : Nat) (writable : Bool) : State :=
  if writable then { s with pipe := { s.pipe with writeopen := false } }.setPc p
    (.wakeup .nread 0 .leave)
  else { s with pipe := { s.pipe with readopen := false } }.setPc p (.wakeup .nwrite 0 .leave)

def body (p : Nat) (copyout : Bool) : Call → State
  | .write id n i => s.writeLoop p id n i
  | .read n => s.readLoop p n
  | .copy n i => s.copyLoop p n i copyout
  | .close writable => s.closeEnd p writable

end State

inductive Action where
  /-- a new process takes slot `p` of the table -/
  | spawn (p : Nat)
  | pipewrite (p : Nat) (src : Nat → Option UInt8) (n : Int)
  | piperead (p : Nat) (n : Int)
  | pipeclose (p : Nat) (writable : Bool)
  /-- the next step of the process's call -/
  | run (p : Nat) (copyout : Bool)
  /-- `kill` finds process `p` -/
  | kill (p : Nat)

def Action.actor : Action → Nat
  | .spawn p | .pipewrite p .. | .piperead p _ | .pipeclose p _ | .run p _ | .kill p => p

/-- The next step of process `p`; the table has `N` processes. -/
def run (N : Nat) (s : State) (p : Nat) (copyout : Bool) : Outcome Empty State :=
  match (s.proc p).pc with
  | .user => .blocked
  | .enter c =>
    if s.lock = none then .next ({ s with lock := some p }.setPc p (.body c)) else .blocked
  | .body c => .next (s.body p copyout c)
  | .wakeup ch k next =>
    if k < N then
      match (s.proc k).pc with
      | .falling .. => .blocked
      | .sleeping ch' c =>
        .next (if ch' = ch then (s.setPc k (.enter c)).setPc p (.wakeup ch (k + 1) next)
          else s.setPc p (.wakeup ch (k + 1) next))
      | _ => .next (s.setPc p (.wakeup ch (k + 1) next))
    else
      match next with
      | .sleep c => .next (s.setPc p (.sleep .nwrite c))
      | .leave => .next (s.release p .user)
  | .sleep ch c => .next (s.release p (.falling ch c))
  | .falling ch c => .next (s.setPc p (.sleeping ch c))
  | .sleeping .. => .blocked

def effect (N : Nat) (s : State) : Action → Outcome Empty State
  | .spawn p => if (s.proc p).pc = .user then .next (s.setKilled p false) else .blocked
  | .pipewrite p src n =>
    if (s.proc p).pc = .user then
      .next ({ s with calls := s.calls + 1, source := update s.source s.calls src }.setPc p
        (.enter (.write s.calls n 0)))
    else .blocked
  | .piperead p n =>
    if (s.proc p).pc = .user then .next (s.setPc p (.enter (.read n))) else .blocked
  | .pipeclose p writable =>
    if (s.proc p).pc = .user then .next (s.setPc p (.enter (.close writable))) else .blocked
  | .run p copyout => run N s p copyout
  | .kill p =>
    match (s.proc p).pc with
    | .falling .. => .blocked
    | .sleeping _ c => .next ((s.setKilled p true).setPc p (.enter c))
    | _ => .next (s.setKilled p true)

def step (N : Nat) (s : State) (a : Action) : Outcome Empty State :=
  if a.actor < N then effect N s a else .blocked

def Created (s : State) : Prop :=
  s.pipe.nread = 0 ∧ s.pipe.nwrite = 0 ∧ s.pipe.readopen = true ∧ s.pipe.writeopen = true ∧
    s.lock = none ∧ (∀ p, (s.proc p).pc = .user) ∧ s.calls = 0 ∧ s.put = [] ∧ s.taken = []

end Xv6.Pipes
