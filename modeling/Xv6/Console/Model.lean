import Xv6.Lib.System
import Xv6.Param

/-! # Console input of `console.c`

Characters arrive through `consoleintr` while any number of processes are in `consoleread`.
One action is one call of `consoleintr` or one iteration of the loop of `consoleread`, under
`cons.lock`. A process in `sleep` may come back at any time.
-/

namespace Xv6.Console

open Lib

def INPUT_BUF : Nat := 128

/-- `C('D')`, `C('H')`, `C('P')` and `C('U')`. -/
def ctrlD : UInt8 := 4
def ctrlH : UInt8 := 8
def ctrlP : UInt8 := 16
def ctrlU : UInt8 := 21
def delete : UInt8 := 0x7f
def carriageReturn : UInt8 := 13

/-- `a - b` of type `uint`. -/
def usub (a b : Nat) : Nat := (a + (2 ^ 32 - b)) % 2 ^ 32

/-- `r`, `w` and `e` are of type `uint`. -/
structure Cons where
  buf : Nat → UInt8
  r : Nat
  w : Nat
  e : Nat

/-- A call `consoleread(user_dst, dst, target)` with `n` bytes left to read. -/
structure Call where
  id : Nat
  target : Int
  n : Int
deriving DecidableEq

inductive Pc where
  | user
  /-- wants `cons.lock`, at the start of the call or in `sleep` -/
  | enter (c : Call)
  /-- holds `cons.lock`, at the head of the outer loop -/
  | body (c : Call)
deriving DecidableEq

/-- Why `consoleread` returned. -/
inductive Ending where
  /-- `n` is 0 -/
  | count
  | newline
  /-- at `^D`, which it has taken -/
  | eof
  /-- at `^D`, which it has left for the next read, `pos` characters after the first -/
  | beforeEof (pos : Nat)
  | killed
  /-- `either_copyout` failed -/
  | fault
deriving DecidableEq

structure Ended where
  id : Nat
  target : Int
  how : Ending
  value : Int
deriving DecidableEq

inductive Event where
  /-- `consoleintr(c)` -/
  | typed (c : UInt8)
  /-- call `id` has taken `c` out of the buffer, for the user or as the end of the file -/
  | took (id : Nat) (c : UInt8)
deriving DecidableEq

def Event.isTook : Event → Bool
  | .took .. => true
  | .typed _ => false

/-- `lock` is the process that holds `cons.lock`; `history` and `ended` are for the record. -/
structure State where
  cons : Cons
  lock : Option Nat
  pc : Nat → Pc
  calls : Nat
  history : List Event
  ended : List Ended

/-! ## `consoleintr` -/

namespace Cons

variable (x : Cons)

/-- The loop of kill-line. It ends when `e` has come round to `w`. -/
def killLine : Nat → Cons → Cons
  | 0, x => x
  | fuel + 1, x =>
    if x.e ≠ x.w ∧ x.buf (usub x.e 1 % INPUT_BUF) ≠ newline then
      killLine fuel { x with e := usub x.e 1 }
    else x

def erase : Cons := if x.e ≠ x.w then { x with e := usub x.e 1 } else x

/-- The default case, for `c` after the translation of carriage return. -/
def insert (c : UInt8) : Cons :=
  let x := { x with buf := Function.update x.buf (x.e % INPUT_BUF) c, e := (x.e + 1) % 2 ^ 32 }
  if c = newline ∨ c = ctrlD ∨ x.e = (x.r + INPUT_BUF) % 2 ^ 32 then { x with w := x.e } else x

/-- The effect of `consoleintr` on the buffer. -/
def intr (c : UInt8) : Cons :=
  if c = ctrlP then x
  else if c = ctrlU then killLine (2 ^ 32) x
  else if c = ctrlH ∨ c = delete then x.erase
  else if c ≠ 0 ∧ usub x.e x.r < INPUT_BUF then
    x.insert (if c = carriageReturn then newline else c)
  else x

end Cons

/-! ## `consoleread` -/

namespace State

variable (s : State)

def setPc (p : Nat) (pc : Pc) : State := { s with pc := Function.update s.pc p pc }

def leave (p : Nat) (c : Call) (how : Ending) (value : Int) : State :=
  setPc { s with lock := none, ended := s.ended ++ [⟨c.id, c.target, how, value⟩] } p .user

/-- `c = cons.buf[cons.r++ % INPUT_BUF]`, for good. -/
def take (id : Nat) : State :=
  { s with
    cons := { s.cons with r := (s.cons.r + 1) % 2 ^ 32 }
    history := s.history ++ [.took id (s.cons.buf (s.cons.r % INPUT_BUF))] }

def pushBack : State :=
  { s with cons := { s.cons with r := usub ((s.cons.r + 1) % 2 ^ 32) 1 } }

/-- How many characters have been taken. -/
def pos : Nat := s.history.countP Event.isTook

/-- One iteration of the loop of `consoleread`, for a process whose flag is `killed` and whose
`either_copyout` succeeds or not. -/
def readLoop (p : Nat) (c : Call) (killed copyout : Bool) : State :=
  if 0 < c.n then
    if s.cons.r = s.cons.w then
      if killed then s.leave p c .killed (-1) else { s with lock := none }.setPc p (.enter c)
    else
      let x := s.cons.buf (s.cons.r % INPUT_BUF)
      if x = ctrlD then
        if c.n < c.target then s.pushBack.leave p c (.beforeEof s.pos) (c.target - c.n)
        else (s.take c.id).leave p c .eof (c.target - c.n)
      else if !copyout then (s.take c.id).leave p c .fault (c.target - c.n)
      else if x = newline then (s.take c.id).leave p c .newline (c.target - (c.n - 1))
      else (s.take c.id).setPc p (.body { c with n := c.n - 1 })
  else s.leave p c .count (c.target - c.n)

end State

inductive Action where
  | consoleintr (c : UInt8)
  | consoleread (p : Nat) (n : Int)
  | run (p : Nat) (killed copyout : Bool)

def step (s : State) : Action → Outcome Empty State
  | .consoleintr c =>
    if s.lock = none then .next { s with cons := s.cons.intr c, history := s.history ++ [.typed c] }
    else .blocked
  | .consoleread p n =>
    if s.pc p = .user then
      .next ({ s with calls := s.calls + 1 }.setPc p (.enter ⟨s.calls, n, n⟩))
    else .blocked
  | .run p killed copyout =>
    match s.pc p with
    | .user => .blocked
    | .enter c =>
      if s.lock = none then .next ({ s with lock := some p }.setPc p (.body c)) else .blocked
    | .body c => .next (s.readLoop p c killed copyout)

/-- The calls of `either_copyout` succeed. -/
def Copies : Action → Prop
  | .run _ _ copyout => copyout = true
  | _ => True

instance : (a : Action) → Decidable (Copies a)
  | .run _ _ copyout => inferInstanceAs (Decidable (copyout = true))
  | .consoleintr _ | .consoleread .. => isTrue trivial

def Booted (s : State) : Prop :=
  s.cons.r = 0 ∧ s.cons.w = 0 ∧ s.cons.e = 0 ∧ s.lock = none ∧ (∀ p, s.pc p = .user) ∧ s.calls = 0 ∧
    s.history = [] ∧ s.ended = []

end Xv6.Console
