import Xv6.Lib.Redo
import Xv6.Lib.System
import Xv6.Log.Header

/-! # The redo log of `log.c`

The kernel side is the in-memory `struct log`, the buffer cache and the disk.
One action is one critical section of `begin_op`, `log_write` or `end_op`, one
disk write of `commit` or of `recover_from_log`, a buffer-cache fill or
recycling, or a crash. Single-block writes are atomic and reach the disk in
program order; a crash keeps the disk and loses everything else.

The last five fields of the state are history that no code reads: the updates of
the current commit group, the closed groups, how many of them have reached their
commit record, how many are settled (their `commit` has returned, or a completed
recovery has installed them), and how many `commit` calls have returned.
-/

namespace Xv6.Log

open Function Lib

/-- `log.start` and `log.size`, as `initlog` copies them from the superblock. The
header block is the first of the log's blocks. -/
structure Geometry where
  start : Nat
  size : Nat
  size_pos : 0 < size

def Geometry.InLog (g : Geometry) (b : Nat) : Prop := g.start ≤ b ∧ b < g.start + g.size

instance (g : Geometry) (b : Nat) : Decidable (g.InLog b) :=
  inferInstanceAs (Decidable (_ ∧ _))

/-- Blocks that file-system operations may update. -/
def Geometry.Home (g : Geometry) (b : Nat) : Prop := ¬ g.InLog b

instance (g : Geometry) (b : Nat) : Decidable (g.Home b) :=
  inferInstanceAs (Decidable (¬ _))

/-- One `log_write` call: the `begin_op ... end_op` bracket it belongs to, the
block and the data it logs. Brackets are numbered and numbers never reused. -/
structure Update where
  op : Nat
  block : Nat
  data : Block

def writes (us : List Update) : List (Nat × Block) := us.map fun u => (u.block, u.data)

inductive Panic where
  | tooBigATransaction
  | outsideOfTrans
  | logCommitting
deriving DecidableEq, Repr

/-- Where the kernel is in `commit` or in `recover_from_log`. -/
inductive Phase where
  /-- no commit is running -/
  | idle
  /-- the last `end_op` is about to call `commit` -/
  | commit
  /-- in `write_log`, about to copy log entry `tail` -/
  | writeLog (tail : Nat)
  /-- in `install_trans(0)`, about to install log entry `tail` -/
  | install (tail : Nat)
  /-- `commit` has returned to `end_op` -/
  | committed
  /-- booting, about to run `read_head` -/
  | boot
  /-- in `install_trans(1)`, about to install log entry `tail` -/
  | recover (tail : Nat)
deriving DecidableEq, Repr

structure State where
  disk : Nat → Block
  /-- The data of the cached buffer of a block. -/
  cache : Nat → Option Block
  /-- `log.lh`: the entries `log.lh.block[0 .. log.lh.n)`. -/
  lh : List Nat
  outstanding : Nat
  committing : Bool
  phase : Phase
  /-- Operations between their `begin_op` and their `end_op`. -/
  active : List Nat
  nextOp : Nat
  cur : List Update
  hist : List (List Update)
  durable : Nat
  settled : Nat
  returned : Nat

namespace State

def bread (s : State) (b : Nat) : Block := (s.cache b).getD (s.disk b)

def setBuf (s : State) (b : Nat) (v : Block) : State :=
  { s with cache := update s.cache b (some v) }

def bwrite (s : State) (b : Nat) (v : Block) : State :=
  { s.setBuf b v with disk := update s.disk b v }

@[simp] theorem setBuf_disk (s : State) (b : Nat) (v : Block) : (s.setBuf b v).disk = s.disk := rfl

@[simp] theorem setBuf_cache (s : State) (b : Nat) (v : Block) :
    (s.setBuf b v).cache = update s.cache b (some v) := rfl

@[simp] theorem bwrite_disk (s : State) (b : Nat) (v : Block) :
    (s.bwrite b v).disk = update s.disk b v := rfl

@[simp] theorem bwrite_cache (s : State) (b : Nat) (v : Block) :
    (s.bwrite b v).cache = update s.cache b (some v) := rfl

/-- Blocks whose buffers `log_write` has pinned and `install_trans` has not yet
unpinned; the buffer cache cannot recycle them. -/
def pinned (s : State) : List Nat :=
  match s.phase with
  | .install tail => s.lh.drop tail
  | .recover _ | .boot => []
  | _ => s.lh

def writeHead (g : Geometry) (s : State) : State :=
  s.bwrite g.start (encodeHead s.lh (s.bread g.start))

/-- One iteration of `write_log`: copy entry `tail`, of block `b`, to the log. -/
def writeLogEntry (g : Geometry) (s : State) (tail : Nat) (b : Nat) : State :=
  s.bwrite (g.start + tail + 1) (s.bread b)

def installEntry (g : Geometry) (s : State) (tail : Nat) (b : Nat) : State :=
  s.bwrite b (s.bread (g.start + tail + 1))

def readHead (g : Geometry) (s : State) : State :=
  { s.setBuf g.start (s.bread g.start) with lh := decodeHead (s.bread g.start) }

end State

inductive Action where
  | beginOp
  | logWrite (op : Nat) (b : Nat) (v : Block)
  | endOp (op : Nat)
  /-- the next step of the running `commit` or `recover_from_log` -/
  | advance
  /-- some process reads block `b` into the cache -/
  | fill (b : Nat)
  /-- `bget` recycles the buffer of block `b` -/
  | recycle (b : Nat)
  | crash

/-- Whether `fsinit` has yet to finish recovery; no process runs before that. -/
def Phase.booting : Phase → Bool
  | .boot | .recover _ => true
  | _ => false

/-- One pass of the loop of `begin_op`; it sleeps while a commit runs or while
the operation might exhaust the log. -/
def beginOp (s : State) : Outcome Panic State :=
  if s.phase.booting then .blocked
  else if s.committing then .blocked
  else if s.lh.length + (s.outstanding + 1) * MAXOPBLOCKS > LOGSIZE then .blocked
  else .next { s with
    outstanding := s.outstanding + 1
    active := s.nextOp :: s.active
    nextOp := s.nextOp + 1 }

/-- `log.lh` after `log_write` of block `b`: absorbed when already present. -/
def absorb (lh : List Nat) (b : Nat) : List Nat := if b ∈ lh then lh else lh ++ [b]

def logWrite (g : Geometry) (s : State) (op : Nat) (b : Nat) (v : Block) :
    Outcome Panic State :=
  if ¬ (op ∈ s.active ∧ g.Home b ∧ b < 2 ^ 32) then .blocked
  else if s.lh.length ≥ LOGSIZE ∨ s.lh.length ≥ g.size - 1 then .fault .tooBigATransaction
  else if s.outstanding < 1 then .fault .outsideOfTrans
  else .next { s.setBuf b v with
    lh := absorb s.lh b
    cur := s.cur ++ [⟨op, b, v⟩] }

/-- The critical section of `end_op`. The last outstanding operation closes the
commit group. -/
def endOp (s : State) (op : Nat) : Outcome Panic State :=
  if op ∉ s.active then .blocked
  else if s.committing then .fault .logCommitting
  else if s.outstanding - 1 = 0 then .next { s with
    outstanding := s.outstanding - 1
    active := s.active.erase op
    committing := true
    phase := .commit
    cur := []
    hist := s.hist ++ [s.cur] }
  else .next { s with
    outstanding := s.outstanding - 1
    active := s.active.erase op }

/-- The next disk write (or control step) of `commit`, of the tail of `end_op`,
or of `recover_from_log`. -/
def advance (g : Geometry) (s : State) : Outcome Panic State :=
  match s.phase with
  | .idle => .blocked
  | .commit =>
    if 0 < s.lh.length then .next { s with phase := .writeLog 0 }
    else .next { s with
      phase := .committed
      durable := s.hist.length
      settled := s.hist.length
      returned := s.returned + 1 }
  | .writeLog tail =>
    match s.lh[tail]? with
    | some b => .next { s.writeLogEntry g tail b with phase := .writeLog (tail + 1) }
    | none => .next { s.writeHead g with phase := .install 0, durable := s.hist.length }
  | .install tail =>
    match s.lh[tail]? with
    | some b => .next { s.installEntry g tail b with phase := .install (tail + 1) }
    | none => .next { State.writeHead g { s with lh := [] } with
        phase := .committed
        settled := s.hist.length
        returned := s.returned + 1 }
  | .committed => .next { s with phase := .idle, committing := false }
  | .boot => .next { s.readHead g with phase := .recover 0 }
  | .recover tail =>
    match s.lh[tail]? with
    | some b => .next { s.installEntry g tail b with phase := .recover (tail + 1) }
    | none => .next { State.writeHead g { s with lh := [] } with
        phase := .idle
        hist := s.hist.take s.durable
        settled := s.durable }

def State.crash (s : State) : State :=
  { s with
    cache := fun _ => none
    lh := []
    outstanding := 0
    committing := false
    phase := .boot
    active := []
    cur := [] }

def step (g : Geometry) (s : State) : Action → Outcome Panic State
  | .beginOp => beginOp s
  | .logWrite op b v => logWrite g s op b v
  | .endOp op => endOp s op
  | .advance => advance g s
  | .fill b => .next (s.setBuf b (s.bread b))
  | .recycle b =>
    if b ∈ s.pinned then .blocked
    else .next { s with cache := update s.cache b none }
  | .crash => .next s.crash

def State.init (d : Nat → Block) : State where
  disk := d
  cache := fun _ => none
  lh := []
  outstanding := 0
  committing := false
  phase := .boot
  active := []
  nextOp := 0
  cur := []
  hist := []
  durable := 0
  settled := 0
  returned := 0

/-- The log region that `mkfs` lays out: `nlog = LOGSIZE` blocks after the boot
block and the superblock. -/
def mkfsGeometry : Geometry where
  start := 2
  size := LOGSIZE
  size_pos := by decide

def applyGroups (d : Nat → Block) (groups : List (List Update)) : Nat → Block :=
  replay (writes groups.flatten) d

end Xv6.Log
