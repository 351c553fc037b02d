import Xv6.Kernel.FileInv
import Xv6.Kernel.Proc

/-! # What a process holds

The references to files and to in-memory inodes that a process holds through its
tables and through a call in progress, and how they change with the tables.
-/

namespace Xv6.Kernel

open Lib Vm

/-- Files of a call in progress that are already open. -/
def Held.piped : Held → Nat → Nat
  | .piping rf wf => only rf + only wf
  | _ => 0

/-- The file of a call in progress that is not open yet. -/
def Held.fresh : Held → Nat → Nat
  | .opening f _ _ => only f
  | _ => 0

def Held.files (x : Held) : Nat → Nat := x.piped + x.fresh

/-- The in-memory inode of a call in progress. -/
def Held.inode : Held → Nat → Nat
  | .opening _ k _ => only k
  | _ => 0

namespace Proc

variable (p : Proc)

@[irreducible] def fds (f : Nat) : Nat :=
  ∑ fd ∈ Finset.range NOFILE, if p.ofile fd = some f then 1 else 0

/-- Valid slots of `vma` that point to `f`. -/
@[irreducible] def maps (f : Nat) : Nat :=
  ∑ i ∈ Finset.range VMASIZE, if (p.vma i).valid = true ∧ (p.vma i).f = f then 1 else 0

def visible : Nat → Nat := p.fds + p.maps + p.held.piped

def holds : Nat → Nat := p.visible + p.held.fresh

def inodes : Nat → Nat := (fun k => if p.cwd = some k then 1 else 0) + p.held.inode

end Proc

/-- A process whose tables are the same; its memory may differ. -/
structure SameTables (p p' : Proc) : Prop where
  ofile : p'.ofile = p.ofile
  vma : p'.vma = p.vma
  held : p'.held = p.held
  cwd : p'.cwd = p.cwd
  state : p'.state = p.state

structure Bare (p : Proc) : Prop where
  ofile : ∀ fd, fd < NOFILE → p.ofile fd = none
  vma : ∀ i, i < VMASIZE → (p.vma i).valid = false
  held : p.held = .nothing
  cwd : p.cwd = none

section

variable {p p' : Proc} {fd f i k : Nat}

theorem fds_congr (h : p'.ofile = p.ofile) : p'.fds = p.fds := by
  funext f
  unfold Proc.fds
  rw [h]

theorem maps_congr (h : p'.vma = p.vma) : p'.maps = p.maps := by
  funext f
  unfold Proc.maps
  rw [h]

theorem visible_congr (hofile : p'.ofile = p.ofile) (hvma : p'.vma = p.vma)
    (hheld : p'.held = p.held) : p'.visible = p.visible := by
  simp only [Proc.visible, fds_congr hofile, maps_congr hvma, hheld]

theorem holds_congr (hofile : p'.ofile = p.ofile) (hvma : p'.vma = p.vma)
    (hheld : p'.held = p.held) : p'.holds = p.holds := by
  simp only [Proc.holds, visible_congr hofile hvma hheld, hheld]

theorem inodes_congr (hcwd : p'.cwd = p.cwd) (hheld : p'.held = p.held) : p'.inodes = p.inodes := by
  simp only [Proc.inodes, hcwd, hheld]

theorem inodes_setOfile (p : Proc) (fd : Nat) (v : Option Nat) :
    (p.setOfile fd v).inodes = p.inodes :=
  inodes_congr rfl rfl

theorem Bare.visible (hb : Bare p) : p.visible = 0 := by
  have hfds : p.fds = 0 := by
    funext f
    unfold Proc.fds
    refine Finset.sum_eq_zero fun fd hfd => if_neg ?_
    rw [hb.ofile fd (Finset.mem_range.mp hfd)]
    exact (Option.some_ne_none f).symm
  have hmaps : p.maps = 0 := by
    funext f
    unfold Proc.maps
    refine Finset.sum_eq_zero fun i hi => if_neg ?_
    rw [hb.vma i (Finset.mem_range.mp hi)]
    simp
  simp only [Proc.visible, hfds, hmaps, hb.held, Held.piped, add_zero]

theorem Bare.holds (hb : Bare p) : p.holds = 0 := by
  simp only [Proc.holds, hb.visible, hb.held, Held.fresh, add_zero]

theorem Bare.inodes (hb : Bare p) : p.inodes = 0 := by
  funext k
  simp [Proc.inodes, hb.cwd, hb.held, Held.inode]

theorem Bare.of_same (hb : Bare p) (h : SameTables p p') : Bare p' :=
  ⟨fun fd hfd => by rw [h.ofile, hb.ofile fd hfd], fun i hi => by rw [h.vma, hb.vma i hi],
    h.held.trans hb.held, h.cwd.trans hb.cwd⟩

/-! ## Changing one entry -/

theorem fds_setOfile (hfd : fd < NOFILE) (v : Option Nat) (g : Nat) :
    (p.setOfile fd v).fds g + (if p.ofile fd = some g then 1 else 0) =
      p.fds g + if v = some g then 1 else 0 := by
  unfold Proc.fds
  exact sum_update_trade (fun x : Option Nat => if x = some g then 1 else 0) p.ofile
    (Finset.mem_range.mpr hfd) v

theorem maps_setVma (hi : i < VMASIZE) (m : Vma) (g : Nat) :
    (p.setVma i m).maps g + (if (p.vma i).valid = true ∧ (p.vma i).f = g then 1 else 0) =
      p.maps g + if m.valid = true ∧ m.f = g then 1 else 0 := by
  unfold Proc.maps
  exact sum_update_trade (fun x : Vma => if x.valid = true ∧ x.f = g then 1 else 0) p.vma
    (Finset.mem_range.mpr hi) m

theorem some_eq_ite (f g : Nat) : (if some f = some g then 1 else 0) = only f g := by
  by_cases h : g = f
  · rw [h, only_self, if_pos rfl]
  · rw [only_ne h, if_neg (by simpa using Ne.symm h)]

theorem visible_close (hfd : fd < NOFILE) (h : p.ofile fd = some f) :
    p.visible = (p.setOfile fd none).visible + only f := by
  have hmaps : (p.setOfile fd none).maps = p.maps := maps_congr rfl
  funext g
  have := @fds_setOfile p fd hfd none g
  rw [h, some_eq_ite, if_neg (Option.some_ne_none g).symm, Nat.add_zero] at this
  simp only [Proc.visible, Pi.add_apply, hmaps, show (p.setOfile fd none).held = p.held from rfl]
  omega

theorem visible_open (hfd : fd < NOFILE) (h : p.ofile fd = none) (f : Nat) :
    (p.setOfile fd (some f)).visible = p.visible + only f := by
  have hmaps : (p.setOfile fd (some f)).maps = p.maps := maps_congr rfl
  funext g
  have := @fds_setOfile p fd hfd (some f) g
  rw [h, some_eq_ite, if_neg (Option.some_ne_none g).symm, Nat.add_zero] at this
  simp only [Proc.visible, Pi.add_apply, hmaps, show (p.setOfile fd (some f)).held =
    p.held from rfl]
  omega

theorem valid_eq_ite {m : Vma} (hm : m.valid = true) (g : Nat) :
    (if m.valid = true ∧ m.f = g then 1 else 0) = only m.f g := by
  by_cases h : g = m.f
  · rw [h, only_self, if_pos ⟨hm, rfl⟩]
  · rw [only_ne h, if_neg fun h' => h h'.2.symm]

theorem invalid_eq_ite {m : Vma} (hm : m.valid = false) (g : Nat) :
    (if m.valid = true ∧ m.f = g then 1 else 0) = 0 :=
  if_neg (by simp [hm])

theorem visible_unmap {m : Vma} (hi : i < VMASIZE) (hv : (p.vma i).valid = true)
    (hm : m.valid = false) : p.visible = (p.setVma i m).visible + only (p.vma i).f := by
  have hfds : (p.setVma i m).fds = p.fds := fds_congr rfl
  funext g
  have := @maps_setVma p i hi m g
  rw [valid_eq_ite hv, invalid_eq_ite hm, Nat.add_zero] at this
  simp only [Proc.visible, Pi.add_apply, hfds, show (p.setVma i m).held = p.held from rfl]
  omega

theorem visible_map {m : Vma} (hi : i < VMASIZE) (hv : (p.vma i).valid = false)
    (hm : m.valid = true) : (p.setVma i m).visible = p.visible + only m.f := by
  have hfds : (p.setVma i m).fds = p.fds := fds_congr rfl
  funext g
  have := @maps_setVma p i hi m g
  rw [valid_eq_ite hm, invalid_eq_ite hv, Nat.add_zero] at this
  simp only [Proc.visible, Pi.add_apply, hfds, show (p.setVma i m).held = p.held from rfl]
  omega

theorem visible_setVma_pagetable (p : Proc) (pt : PageTable) (i : Nat) (m : Vma) :
    ({ p with pagetable := pt }.setVma i m).visible = (p.setVma i m).visible :=
  visible_congr rfl rfl rfl

theorem visible_same {m : Vma} (hi : i < VMASIZE) (hv : m.valid = (p.vma i).valid)
    (hf : m.f = (p.vma i).f) : (p.setVma i m).visible = p.visible := by
  have hfds : (p.setVma i m).fds = p.fds := fds_congr rfl
  funext g
  have := @maps_setVma p i hi m g
  rw [hv, hf] at this
  simp only [Proc.visible, Pi.add_apply, hfds, show (p.setVma i m).held = p.held from rfl]
  omega

end

end Xv6.Kernel
