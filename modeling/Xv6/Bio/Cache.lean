import Xv6.Lib.Ring
import Xv6.Lib.System
import Xv6.Param

/-! # The buffer cache of `bio.c`

Any number of processes run `bread`, `bwrite`, `brelse`, `bpin` and `bunpin` and change
the data of buffers that they hold. One action is one critical section of `bcache.lock`
or of a buffer's sleep lock, one transfer to or from the disk, or one change of the data.
A process passes to `brelse` and `bwrite` only buffers that `bread` has returned to it, and
a call of `bunpin` follows the call of `bpin` that it undoes.
-/

namespace Xv6.Bio

open Function Lib

structure Sleeplock where
  locked : Bool
  pid : Nat
deriving DecidableEq

structure Buf (δ : Type) where
  valid : Bool
  dev : Nat
  blockno : Nat
  lock : Sleeplock
  /-- a `uint` -/
  refcnt : Nat
  data : δ

inductive Phase where
  | idle
  /-- `bget(dev, blockno)` has chosen buffer `b` and wants its sleep lock -/
  | waiting (b dev blockno : Nat)
  /-- `bget(dev, blockno)` has returned `b` to `bread` -/
  | locked (b dev blockno : Nat)
  /-- `brelse(b)` has released the sleep lock -/
  | releasing (b : Nat)
deriving DecidableEq

structure Proc where
  phase : Phase
  /-- Buffers that `bread` has returned, each with the device and block that it was asked
  for, and that have not been passed to `brelse`. -/
  held : List (Nat × Nat × Nat)

/-- Buffers are numbered from 0; `head` is the list head. `pins` counts calls of `bpin` less
calls of `bunpin`. -/
structure State (δ : Type) where
  disk : Nat → Nat → δ
  buf : Nat → Buf δ
  links : Links Nat
  proc : Nat → Proc
  pins : Nat → Nat

def head : Nat := NBUF

inductive Fault where
  | bgetNoBuffers
  | bwrite
  | brelse
  /-- a loop over the list that does not come back to the head -/
  | endless
deriving DecidableEq

/-! ## Booting -/

def binit (k : Links Nat) : Links Nat :=
  (List.range NBUF).foldl (fun k b => k.insert head b)
    ⟨update k.next head head, update k.prev head head⟩

section

variable {δ : Type}

def Buf.zero (d : δ) : Buf δ := ⟨false, 0, 0, ⟨false, 0⟩, 0, d⟩

/-- The cache after `binit`, whatever the memory of the links holds before. -/
def Booted (s : State δ) : Prop :=
  (∃ d, s.buf = fun _ => .zero d) ∧ (∃ k, s.links = binit k) ∧ (s.proc = fun _ => ⟨.idle, []⟩) ∧
    s.pins = fun _ => 0

namespace State

def setBuf (s : State δ) (b : Nat) (x : Buf δ) : State δ :=
  { s with buf := update s.buf b x }

def setProc (s : State δ) (p : Nat) (x : Proc) : State δ :=
  { s with proc := update s.proc p x }

/-! ## `bget` -/

def incr (s : State δ) (b : Nat) : State δ :=
  s.setBuf b { s.buf b with refcnt := ((s.buf b).refcnt + 1) % 2 ^ 32 }

def decr (s : State δ) (b : Nat) : State δ :=
  s.setBuf b { s.buf b with refcnt := ((s.buf b).refcnt + (2 ^ 32 - 1)) % 2 ^ 32 }

/-- The first loop of `bget`. -/
def lookup (s : State δ) (dev blockno : Nat) : Option (Option Nat) :=
  Links.walk s.links.next head (fun b => (s.buf b).dev = dev && (s.buf b).blockno = blockno)
    (NBUF + 1) (s.links.next head)

/-- The second loop of `bget`. -/
def unused (s : State δ) : Option (Option Nat) :=
  Links.walk s.links.prev head (fun b => (s.buf b).refcnt = 0) (NBUF + 1) (s.links.prev head)

/-- The part of `bget` under `bcache.lock`. -/
def bget (s : State δ) (dev blockno : Nat) : Outcome Fault (State δ × Nat) :=
  match s.lookup dev blockno with
  | none => .fault .endless
  | some (some b) => .next (s.incr b, b)
  | some none =>
    match s.unused with
    | none => .fault .endless
    | some none => .fault .bgetNoBuffers
    | some (some b) =>
      .next (s.setBuf b { s.buf b with
        dev := dev, blockno := blockno, valid := false, refcnt := 1 }, b)

/-! ## The other functions -/

def holdingsleep (s : State δ) (p b : Nat) : Bool :=
  (s.buf b).lock.locked && (s.buf b).lock.pid == p

/-- `bread` after `bget` has returned `b`. -/
def fill (s : State δ) (b : Nat) : State δ :=
  if (s.buf b).valid then s
  else s.setBuf b { s.buf b with data := s.disk (s.buf b).dev (s.buf b).blockno, valid := true }

/-- The transfer of `bwrite`. -/
def flush (s : State δ) (b : Nat) : State δ :=
  let x := s.buf b
  { s with disk := update s.disk x.dev (update (s.disk x.dev) x.blockno x.data) }

/-- The part of `brelse` under `bcache.lock`. -/
def release (s : State δ) (b : Nat) : State δ :=
  let s := s.decr b
  if (s.buf b).refcnt = 0 then { s with links := (s.links.unlink b).insert head b } else s

def Has (s : State δ) (p b : Nat) : Prop :=
  (s.proc p).phase = .idle ∧ b ∈ (s.proc p).held.map Prod.fst

instance (s : State δ) (p b : Nat) : Decidable (s.Has p b) := inferInstanceAs (Decidable (_ ∧ _))

end State

inductive Action (δ : Type) where
  | bget (p dev blockno : Nat)
  | acquiresleep (p : Nat)
  /-- the rest of `bread` -/
  | bread (p : Nat)
  | store (p b : Nat) (v : δ)
  | bwrite (p b : Nat)
  /-- `brelse` up to `releasesleep` -/
  | releasesleep (p b : Nat)
  /-- the rest of `brelse` -/
  | brelse (p : Nat)
  | bpin (p b : Nat)
  | bunpin (p b : Nat)

def Action.actor : Action δ → Nat
  | .bget p .. | .acquiresleep p | .bread p | .store p .. | .bwrite p _
  | .releasesleep p _ | .brelse p
  | .bpin p _ | .bunpin p _ => p

def effect (s : State δ) : Action δ → Outcome Fault (State δ)
  | .bget p dev blockno =>
    if (s.proc p).phase = .idle then
      match s.bget dev blockno with
  | .next (s', b) => .next (s'.setProc p { s.proc p with phase := .waiting b dev blockno })
  | .fault f => .fault f
  | .blocked => .blocked
    else .blocked
  | .acquiresleep p =>
    match (s.proc p).phase with
    | .waiting b dev blockno =>
      if (s.buf b).lock.locked then .blocked
      else .next ((s.setBuf b { s.buf b with lock := ⟨true, p⟩ }).setProc p
        { s.proc p with phase := .locked b dev blockno })
    | _ => .blocked
  | .bread p =>
    match (s.proc p).phase with
    | .locked b dev blockno =>
      .next ((s.fill b).setProc p ⟨.idle, (b, dev, blockno) :: (s.proc p).held⟩)
    | _ => .blocked
  | .store p b v => if s.Has p b then .next (s.setBuf b { s.buf b with data := v }) else .blocked
  | .bwrite p b =>
    if s.Has p b then if s.holdingsleep p b then .next (s.flush b) else .fault .bwrite
    else .blocked
  | .releasesleep p b =>
    if s.Has p b then
      if s.holdingsleep p b then
        .next ((s.setBuf b { s.buf b with lock := ⟨false, 0⟩ }).setProc p
          ⟨.releasing b, (s.proc p).held.eraseP fun u => u.1 = b⟩)
      else .fault .brelse
    else .blocked
  | .brelse p =>
    match (s.proc p).phase with
    | .releasing b => .next ((s.release b).setProc p { s.proc p with phase := .idle })
    | _ => .blocked
  | .bpin p b =>
    if (s.proc p).phase = .idle ∧ b < NBUF then
      .next { s.incr b with pins := update s.pins b (s.pins b + 1) }
    else .blocked
  | .bunpin p b =>
    if (s.proc p).phase = .idle ∧ b < NBUF ∧ 0 < s.pins b then
      .next { s.decr b with pins := update s.pins b (s.pins b - 1) }
    else .blocked

def step (N : Nat) (s : State δ) (a : Action δ) : Outcome Fault (State δ) :=
  if a.actor < N then effect s a else .blocked

end

end Xv6.Bio
