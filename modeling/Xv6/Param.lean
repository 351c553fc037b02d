import Xv6.Lib.Bytes

/-! # Kernel parameters

The constants of `param.h`, `fs.h` and `memlayout.h` that more than one part of the model reads,
under their source names, the disk block type they size, and the states of a process.
-/

namespace Xv6

/-- Maximum number of blocks any file-system operation writes. -/
def MAXOPBLOCKS : Nat := 10

/-- Maximum number of data blocks in the on-disk log. -/
def LOGSIZE : Nat := MAXOPBLOCKS * 3

/-- Size of the disk block cache. -/
def NBUF : Nat := MAXOPBLOCKS * 3

def BSIZE : Nat := 1024

abbrev Block := Lib.Bytes BSIZE

def ROOTINO : Nat := 1

def NPROC : Nat := 64

def PIPESIZE : Nat := 512

def KERNBASE : Nat := 0x80000000

def PHYSTOP : Nat := KERNBASE + 128 * 1024 * 1024

def newline : UInt8 := 10

inductive ProcState where
  | unused
  | used
  | sleeping
  | runnable
  | running
  | zombie
deriving DecidableEq

namespace ProcState

/-- The slot has a process that has been made and has not exited. -/
def live : ProcState → Bool
  | .unused | .used | .zombie => false
  | _ => true

/-- The process can still be switched to. -/
def Waits (st : ProcState) : Prop := st = .used ∨ st = .sleeping ∨ st = .runnable

theorem Waits.ne_running {st : ProcState} (h : st.Waits) : st ≠ .running := by
  rcases h with rfl | rfl | rfl <;> decide

end ProcState

end Xv6
