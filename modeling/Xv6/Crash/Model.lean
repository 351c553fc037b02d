import Xv6.Fs.Logging
import Xv6.Log.Atomicity

/-! # The file system on its log

The calls of the inode layer run inside of operations of the log, on the buffers that the log takes
to the disk. A call passes blocks to `log_write`, and the log remembers their numbers only:
`write_log` copies a buffer as it is when the group commits, also when a later call has changed it
without `log_write`. A buffer that was changed without `log_write` and whose block is not in the
log keeps the change until it is recycled.
-/

namespace Xv6.Crash

open Lib

inductive Panic where
  | log (f : Log.Panic)
  | fs (f : Fs.Panic)
deriving DecidableEq, Repr

inductive Action where
  /-- a call of the inode layer in operation `op` -/
  | call (op : Nat) (c : Fs.Call)
  /-- a step of the log other than `log_write` -/
  | log (a : Log.Action)

/-- The blocks as the inode layer sees them: what `bread` returns, and what it returns once the
buffers that the log has not pinned are recycled. -/
def fsDisk (s : Log.State) : Fs.Disk where
  cached := s.bread
  logged b := if b ∈ s.lh then s.bread b else s.disk b
  trace := []

@[irreducible] def sameData (v w : Block) : Bool := decide (∀ i, v i = w i)

/-- A call of operation `op` has left `buf` in the buffers. Those of the logged blocks count as
updates of the operation. -/
def setBufs (op : Nat) (buf : Nat → Block) (s : Log.State) : Log.State :=
  { s with
    cache := fun b => if sameData (s.bread b) (buf b) then s.cache b else some (buf b)
    cur := s.cur ++ s.lh.map fun b => ⟨op, b, buf b⟩ }

def lift (f : Log.State → Log.State) : Outcome Log.Panic Log.State → Outcome Panic Log.State
  | .blocked => .blocked
  | .fault e => .fault (.log e)
  | .next log => .next (f log)

/-- The blocks that a call has passed to `log_write`. -/
def logWrites (op : Nat) (d : Fs.Disk) : List Log.Action :=
  d.trace.map fun b => .logWrite op b (d.logged b)

def isLogWrite : Log.Action → Bool
  | .logWrite .. => true
  | _ => false

section

variable (sb : Fs.Superblock) (g : Log.Geometry)

def call (s : Log.State) (op : Nat) (c : Fs.Call) : Outcome Panic Log.State :=
  if op ∈ s.active then
    match Fs.call sb (fsDisk s) c with
    | .blocked => .blocked
    | .fault f => .fault (.fs f)
    | .next d => lift (setBufs op d.cached) (exec (Log.step g) s (logWrites op d))
  else .blocked

def step (s : Log.State) : Action → Outcome Panic Log.State
  | .call op c => call sb g s op c
  | .log a => if isLogWrite a then .blocked else lift id (Log.step g s a)

end

end Xv6.Crash
