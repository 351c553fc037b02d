import Xv6.Names.Image
import Xv6.Names.Table

/-! # Path resolution

`namex` looks up the components of a path one by one, from the root or from the current directory,
and keeps a reference to the inode it returns and to no other one.
-/

namespace Xv6.Names

open Lib Kernel

/-! ## The components that `skipelem` finds -/

section

variable {sb : Fs.Superblock} {sys₀ sys : Sys} {c : Nat → Nat} {dp : Nat}

def bound (sb : Fs.Superblock) (sys : Sys) (dp : Nat) (name : Nat → UInt8) : Option Nat :=
  (dirSlots sb sys.disk (sys.inode dp).inum).lookup (key name)

/-- `dirlookup` takes a reference to the inode that the name is bound to. -/
theorem dirlookup_post (hinv : Fs.AllocInv sb (sys.disk.view sb)) (ht : typeOf sb sys dp = T_DIR)
    (name : Nat → UInt8) :
    Post (fun f => f = .dirlookupRead ∧ ¬ WholeAt sb sys.disk (sys.inode dp).inum ∨
        ∃ v e, bound sb sys dp name = some v ∧ iget sys v = .error e ∧ f = .kernel e)
      (fun r => r = (none, sys) ∧ bound sb sys dp name = none ∨ ∃ k v m, r.1 =
        some (k, direntSize * m) ∧
        iget sys v = .ok (k, r.2) ∧ bound sb sys dp name = some v ∧
        (dirSlots sb sys.disk (sys.inode dp).inum)[m]? = some (some (key name, v)))
      (dirlookup sb sys dp name) := by
  have hi : (sys.disk.view sb).Allocated sb (sys.inode dp).inum := by
    apply allocated_of_type
    unfold typeOf at ht
    change (sys.dinode sb dp).type ≠ 0
    rw [ht]
    decide
  have hloop := dirlookupLoop_post hinv hi name (j := 0) (Nat.zero_add _)
  unfold dirlookup
  rw [if_neg (not_not.mpr ht)]
  dsimp only
  rw [rounds_eq]
  refine (hloop.mono (fun f hf => .inl hf) fun _ h => h).bind ?_
  rintro ⟨r, d⟩ ⟨rfl, hmap, hslot⟩
  cases r with
  | none => exact .ok (.inl ⟨rfl, hmap.symm⟩)
  | some r =>
    obtain ⟨v, off⟩ := r
    obtain ⟨m, rfl, hm⟩ := hslot v off rfl
    have hbound : bound sb sys dp name = some v := hmap.symm
    change Post _ _ (kern (iget sys v) >>= fun r => pure (some (r.1, direntSize * m), r.2))
    cases hget : iget sys v with
    | error e => exact .error (.inr ⟨v, e, hbound, hget, rfl⟩)
    | ok r => exact .ok (.inr ⟨r.1, v, m, rfl, hget, hbound, hm⟩)

theorem Holding.dirlookup (h : Holding sb sys₀ sys c) (hinv : Fs.AllocInv sb (sys₀.disk.view sb))
    (ht : typeOf sb sys dp = T_DIR) (name : Nat → UInt8) :
    Post (fun f => f = .dirlookupRead ∧ ¬ WholeAt sb sys.disk (sys.inode dp).inum ∨
        f = .kernel .igetNoInodes ∧ ∀ k, k < NINODE → 0 < sys.iref k)
      (fun r => r = (none, sys) ∧ bound sb sys dp name = none ∨ ∃ k m, r.1 =
        some (k, direntSize * m) ∧
        Holding sb sys₀ r.2 (c + only k) ∧ bound sb sys dp name = some (r.2.inode k).inum ∧
        SameNums sys r.2 ∧
        (dirSlots sb sys.disk (sys.inode dp).inum)[m]? = some (some (key name, (r.2.inode k).inum)))
      (Names.dirlookup sb sys dp name) := by
  refine (dirlookup_post (by rw [h.disk]; exact hinv) ht name).mono ?_ ?_
  · rintro f (hf | ⟨v, e, -, hget, rfl⟩)
    · exact .inl hf
    · obtain ⟨rfl, hfull⟩ := (h.iget v).of_error hget
      exact .inr ⟨rfl, hfull⟩
  · rintro r (hr | ⟨k, v, m, hr, hget, hb, hm⟩)
    · exact .inl hr
    · obtain ⟨hhold, rfl, hsame⟩ := (h.iget v).of_ok hget
      exact .inr ⟨k, m, hr, hhold, hb, hsame, hm⟩

end

/-! ## Resolution -/

section

variable (sb : Fs.Superblock) (d : Fs.Disk)

/-- The inode that the components lead to from inode `i`. -/
def resolve : Nat → List (List UInt8) → Option Nat
  | i, [] => some i
  | i, e :: es =>
    if IsDir sb d i then ((dirSlots sb d i).lookup (e.take DIRSIZ)).bind fun j =>
    resolve j es else none

/-- The directory that all components but the last lead to, and the last component. -/
def resolveParent (i : Nat) (es : List (List UInt8)) : Option (Nat × List UInt8) :=
  es.getLast?.bind fun e => (resolve sb d i es.dropLast).bind fun j =>
    if IsDir sb d j then some (j, e) else none

/-- What `namex` is after, with the last component for `nameiparent`. -/
def target (parent : Bool) (i : Nat) (es : List (List UInt8)) :
    Option (Nat × Option (List UInt8)) :=
  if parent then (resolveParent sb d i es).map fun r => (r.1, some r.2)
  else (resolve sb d i es).map fun j => (j, none)

end

section

variable {sb : Fs.Superblock} {d : Fs.Disk} {parent : Bool} {i : Nat} {e : List UInt8}
    {es : List (List UInt8)}

end

/-! ## `namex` -/

/-- A directory tree and an inode table that goes with it. -/
structure Tree (sb : Fs.Superblock) (sys : Sys) : Prop where
  alloc : Fs.AllocInv sb (sys.disk.view sb)
  whole : ∀ i, IsDir sb sys.disk i → WholeAt sb sys.disk i
  /-- an entry of a directory names an allocated inode -/
  entries : ∀ i, IsDir sb sys.disk i → ∀ name j, (dirSlots sb sys.disk i).lookup name = some j →
    (sys.disk.view sb).Allocated sb j
  root : (sys.disk.view sb).Allocated sb ROOTINO
  noOrphan : NoOrphan sb sys
  table : Table sb sys
  inUse : ∀ k, 0 < sys.iref k → (sys.disk.view sb).Allocated sb (sys.inode k).inum

/-- What a call of `namex` with the given target returns: the references of `sys₀` and one to the
inode it returns. -/
def Walked (sb : Fs.Superblock) (sys₀ : Sys) (goal : Option (Nat × Option (List UInt8)))
    (r : Option (Nat × (Nat → UInt8)) × Sys) : Prop :=
  match goal with
  | none => r.1 = none ∧ Holding sb sys₀ r.2 0
  | some (j, last) =>
    ∃ k name, r.1 = some (k, name) ∧ Holding sb sys₀ r.2 (only k) ∧ (r.2.inode k).inum = j ∧
      ∀ e, last = some e → Holds name e ∧ key name = e.take DIRSIZ

section

variable {sb : Fs.Superblock} {sys₀ sys : Sys} {parent : Bool} {ip fuel : Nat} {path : List UInt8}

end

/-! ## The root directory -/

def dirInode (nlink size addr : Nat) : Fs.Dinode :=
  { Fs.Dinode.zeroed T_DIR with
    nlink := nlink, size := size, addrs := fun k => if k = 0 then addr else 0 }

def entriesBlock (bs : List UInt8) : Block := Bytes.zero.blit 0 bs.length fun k => bs.getD k 0

/-- The directories `/a` and `/a/b`, inodes 2 and 3. -/
def nestedDisk : Fs.Disk :=
  let b := rootSb.datastart
  let d := ((blankDisk rootSb).mark rootSb b).mark rootSb (b + 1) |>.mark rootSb (b + 2)
  let d := Fs.iupdate rootSb d 1 (dirInode 2 48 b)
  let d := Fs.iupdate rootSb d 2 (dirInode 2 48 (b + 1))
  let d := Fs.iupdate rootSb d 3 (dirInode 1 32 (b + 2))
  let d := d.put b (entriesBlock (dots 1 1 ++ putDirent 2 (strncpy (literal [97]) DIRSIZ 0)))
  let d := d.put (b + 1) (entriesBlock (dots 2 1 ++ putDirent 3 (strncpy (literal [98]) DIRSIZ 0)))
  d.put (b + 2) (entriesBlock (dots 3 2))

theorem nestedDisk_slots : (List.range 4).map (dirSlots rootSb nestedDisk) =
    [[], [some ([46], 1), some ([46, 46], 1), some ([97], 2)],
      [some ([46], 2), some ([46, 46], 1), some ([98], 3)],
      [some ([46], 3), some ([46, 46], 2)]] := by
  decide +kernel

end Xv6.Names
