import Xv6.Kernel.LifecycleAccounts
import Xv6.Kernel.Machine
import Xv6.Kernel.OpenAccounts

/-! # Reference counts in every reachable state

The accounts of the single calls add up: in every state between system calls, the
reference count of a file is the number of references that processes hold.
-/

namespace Xv6.Kernel

open Lib Vm

structure KInv (sb : Fs.Superblock) (s : State) : Prop where
  inv : SysInv sb s.sys
  files : ∀ f, s.sys.ref f = ∑ n ∈ Finset.range NPROC, (s.proc n).holds f
  inodes : ∀ k, s.sys.iref k = s.sys.fileRef k + ∑ n ∈ Finset.range NPROC, (s.proc n).inodes k
  tidy : ∀ n, n < NPROC → Tidy s.sys (s.proc n)
  bare : ∀ n, n < NPROC → (s.proc n).state ≠ .runnable → Bare (s.proc n)
  cwd : ∀ n, n < NPROC → (s.proc n).state = .runnable → (s.proc n).cwd.isSome

/-- Of the process table only entry `x` changes, and the parents; a file that others hold
than process `x` stays the same. -/
structure Moved (s : State) (x : Nat) (s' : State) : Prop where
  others : ∀ m, m ≠ x → { s'.proc m with parent := (s.proc m).parent } = s.proc m
  files : ∀ f, (x < NPROC → (s.proc x).holds f < s.sys.ref f) → (s'.sys.file f).core =
    (s.sys.file f).core

/-- The action can change entry `x` of the process table. -/
def Action.Changes (s : State) : Action → Nat → Prop
  | .fork _, x => x < NPROC → (s.proc x).state = .unused
  | .wait n _, x => x < NPROC → s.zombieChild n = some x
  | .fs _, x => ¬ x < NPROC
  | a, x => ∃ finish, a.actor = some (x, finish)

section

variable {sb : Fs.Superblock} {h h' c c' : Nat → Nat} {s s' s'' : State} {sys' : Sys}
    {p p' : Proc} {n q : Nat}

theorem KInv.pre (hs : KInv sb s) (hn : n < NPROC) :
    Pre sb (s.proc n).holds (s.proc n).inodes s.sys := by
  refine ⟨hs.inv, fun f => ?_, fun k => ?_⟩
  · rw [hs.files f]
    exact Finset.single_le_sum (f := fun n => (s.proc n).holds f) (fun _ _ => Nat.zero_le _)
      (Finset.mem_range.mpr hn)
  · rw [hs.inodes k]
    exact Nat.add_le_add_left (Finset.single_le_sum (f := fun n => (s.proc n).inodes k)
      (fun _ _ => Nat.zero_le _) (Finset.mem_range.mpr hn)) _

theorem Moved.refl (s : State) (x : Nat) : Moved s x s := ⟨fun _ _ => rfl, fun _ _ => rfl⟩

theorem Moved.of_update (hq : q < NPROC)
    (hfiles : ∀ f, (s.proc q).holds f < s.sys.ref f → (sys'.file f).core = (s.sys.file f).core) :
    Moved s q ({ s with sys := sys' }.setProc q p') := by
  refine ⟨fun m hm => ?_, fun f hf => hfiles f (hf hq)⟩
  unfold State.setProc
  dsimp only
  rw [Function.update_of_ne hm]

theorem Moved.trans (h₁ : Moved s n s') (h₂ : Moved s' n s'')
    (href : ∀ f, s'.sys.ref f + (s.proc n).holds f = s.sys.ref f + (s'.proc n).holds f) :
    Moved s n s'' := by
  refine ⟨fun m hm => ?_, fun f hf => ?_⟩
  · have hm₁ := h₁.others m hm
    rw [← h₂.others m hm] at hm₁
    exact hm₁
  · have hf' := href f
    have hless : n < NPROC → (s'.proc n).holds f < s'.sys.ref f := by
      intro hn
      have := hf hn
      omega
    rw [h₂.files f hless, h₁.files f hf]

theorem KInv.room (hs : KInv sb s) (hn : n < NPROC) (hq : q < NPROC) (hne : n ≠ q) (f : Nat) :
    (s.proc n).holds f + (s.proc q).holds f ≤ s.sys.ref f := by
  rw [hs.files f]
  exact pair_le_sum (fun n => (s.proc n).holds f) (Finset.mem_range.mpr hn)
    (Finset.mem_range.mpr hq) hne

theorem Tidy.frame (hc : Called sb h h' c c' s.sys sys')
    (hroom : ∀ f, p.holds f + h f ≤ s.sys.ref f) (ht : Tidy s.sys p) : Tidy sys' p := by
  refine ⟨fun f k omode hheld => ?_, fun f hf => ?_⟩
  · obtain ⟨href, hnone⟩ := ht.opening f k omode hheld
    have hmine : 1 ≤ p.holds f := by
      simp only [Proc.holds, Pi.add_apply, hheld, Held.fresh, only_self]
      omega
    have h0 : h f = 0 := by
      have := hroom f
      omega
    have h0' := hc.own f h0 (by omega)
    have hfiles := hc.files f
    refine ⟨by omega, ?_⟩
    rw [File.type_core (hc.keep f (by omega))]
    exact hnone
  · have hmine := visible_le_holds p f
    have := hroom f
    rw [File.type_core (hc.keep f (by omega))]
    exact ht.opened f hf

theorem KInv.update (hs : KInv sb s) (hq : q < NPROC) (hinv : SysInv sb sys')
    (hfiles : ∀ f, sys'.ref f + (s.proc q).holds f = s.sys.ref f + p'.holds f)
    (hinodes : ∀ k, sys'.iref k + (s.sys.fileRef k + (s.proc q).inodes k) =
      s.sys.iref k + (sys'.fileRef k + p'.inodes k))
    (htidy : Tidy sys' p') (hothers : ∀ m, m < NPROC → m ≠ q → Tidy sys' (s.proc m))
    (hbare : p'.state ≠ .runnable → Bare p') (hcwd : p'.state = .runnable → p'.cwd.isSome) :
    KInv sb ({ s with sys := sys' }.setProc q p') := by
  have hmem := Finset.mem_range.mpr hq
  have hproc : ∀ m, ({ s with sys := sys' }.setProc q p').proc m = if m = q then p' else s.proc m :=
    fun m => Function.update_apply _ _ _ _
  refine ⟨hinv, fun f => ?_, fun k => ?_, fun m hm => ?_, fun m hm => ?_, fun m hm => ?_⟩
  · have htrade := sum_update_trade (fun p : Proc => p.holds f) s.proc hmem p'
    have hold := hs.files f
    have := hfiles f
    show sys'.ref f = ∑ n ∈ Finset.range NPROC, (Function.update s.proc q p' n).holds f
    omega
  · have htrade := sum_update_trade (fun p : Proc => p.inodes k) s.proc hmem p'
    have hold := hs.inodes k
    have := hinodes k
    show sys'.iref k = sys'.fileRef k + ∑ n ∈ Finset.range NPROC,
      (Function.update s.proc q p' n).inodes k
    omega
  · rw [hproc]
    split
    · exact htidy
    · exact hothers m hm ‹_›
  · rw [hproc]
    split
    · exact hbare
    · exact hs.bare m hm
  · rw [hproc]
    split
    · exact hcwd
    · exact hs.cwd m hm

theorem KInv.call (hs : KInv sb s) (hn : n < NPROC) (hlive : (s.proc n).state = .runnable)
    (hpost : CallPost sb s.sys (s.proc n) sys' p') :
    KInv sb ({ s with sys := sys' }.setProc n p') := by
  have hstate : p'.state = .runnable := hpost.state.trans hlive
  refine hs.update hn hpost.called.inv hpost.called.files hpost.called.inodes hpost.tidy
    (fun m hm hmn => ?_) (fun h => absurd hstate h) fun _ => ?_
  · exact Tidy.frame hpost.called (hs.room hm hn hmn) (hs.tidy m hm)
  · rw [hpost.cwd]
    exact hs.cwd n hn hlive

theorem Tidy.congr {sys : Sys} (ht : Tidy sys p) (hfile : sys'.file = sys.file)
    (hsame : SameTables p p') : Tidy sys' p' := by
  refine ⟨fun f k omode hheld => ?_, fun f hf => ?_⟩
  · rw [Sys.ref, hfile]
    exact ht.opening f k omode (hsame.held ▸ hheld)
  · rw [visible_congr hsame.ofile hsame.vma hsame.held] at hf
    rw [hfile]
    exact ht.opened f hf

theorem KInv.of_same (hs : KInv sb s) (hinv : SysInv sb s'.sys) (hfile : s'.sys.file = s.sys.file)
    (hinode : s'.sys.inode = s.sys.inode)
    (hsame : ∀ m, m < NPROC → SameTables (s.proc m) (s'.proc m)) : KInv sb s' := by
  have hholds : ∀ m ∈ Finset.range NPROC, (s'.proc m).holds = (s.proc m).holds := fun m hm =>
    have h := hsame m (Finset.mem_range.mp hm)
    holds_congr h.ofile h.vma h.held
  have hinodes : ∀ m ∈ Finset.range NPROC, (s'.proc m).inodes = (s.proc m).inodes := fun m hm =>
    have h := hsame m (Finset.mem_range.mp hm)
    inodes_congr h.cwd h.held
  refine ⟨hinv, fun f => ?_, fun k => ?_, fun m hm => ?_, fun m hm hstate => ?_,
    fun m hm hstate => ?_⟩
  · rw [Finset.sum_congr rfl fun m hm => congrFun (hholds m hm) f, ← hs.files f, Sys.ref,
      Sys.ref, hfile]
  · rw [Finset.sum_congr rfl fun m hm => congrFun (hinodes m hm) k, fileRef_congr hfile,
      ← hs.inodes k, Sys.iref, Sys.iref, hinode]
  · exact (hs.tidy m hm).congr hfile (hsame m hm)
  · rw [(hsame m hm).state] at hstate
    exact (hs.bare m hm hstate).of_same (hsame m hm)
  · rw [(hsame m hm).state] at hstate
    rw [(hsame m hm).cwd]
    exact hs.cwd m hm hstate

theorem KInv.setKm (hs : KInv sb s) (km : Kmem) :
    KInv sb { s with sys := { s.sys with km := km } } :=
  hs.of_same (hs.inv.setKm km) rfl rfl fun _ _ => ⟨rfl, rfl, rfl, rfl, rfl⟩

theorem Bare.tidy {sys : Sys} (hb : Bare p) : Tidy sys p := by
  refine ⟨fun f k omode hheld => ?_, fun f hf => ?_⟩
  · rw [hb.held] at hheld
    cases hheld
  · rw [hb.visible] at hf
    exact absurd hf (Nat.lt_irrefl 0)

/-! ## `exit` and page faults -/

theorem reparent_eq (n : Nat) (proc : Nat → Proc) (m : Nat) :
    { State.reparent n proc m with parent := (proc m).parent } = proc m := by
  unfold State.reparent
  split
  · rfl
  · rfl

theorem reparent_same (n : Nat) (proc : Nat → Proc) (m : Nat) :
    SameTables (proc m) (State.reparent n proc m) := by
  unfold State.reparent
  split
  · exact ⟨rfl, rfl, rfl, rfl, rfl⟩
  · exact ⟨rfl, rfl, rfl, rfl, rfl⟩

theorem KInv.exitProc {status : Nat} (hs : KInv sb s) (hn : n < NPROC)
    (hlive : (s.proc n).state = .runnable) (hheld : (s.proc n).held = .nothing) :
    Post Panic.Tame (fun s' => KInv sb s' ∧ Moved s n s')
      (State.exitProc sb s.sys s n (s.proc n) status) := by
  unfold State.exitProc
  refine Post.ite (fun _ => .throw trivial) fun _ => ?_
  refine (exit_post (hs.pre hn) hheld (hs.cwd n hn hlive)).bind ?_
  rintro ⟨sys', p'⟩ ⟨ha, hbare, hstate⟩
  refine .pure ?_
  have hsame := reparent_same n s.proc
  have hmoved : Moved s n ⟨sys', Function.update (State.reparent n s.proc) n p'⟩ := by
    refine ⟨fun m hm => ?_, fun f hf => ha.called.keep f (hf hn)⟩
    dsimp only
    rw [Function.update_of_ne hm]
    exact reparent_eq n s.proc m
  refine ⟨?_, hmoved⟩
  clear hmoved
  generalize State.reparent n s.proc = proc at *
  have hs₁ : KInv sb ⟨s.sys, proc⟩ := hs.of_same hs.inv rfl rfl fun m _ => hsame m
  have hholds : (proc n).holds = (s.proc n).holds :=
    holds_congr (hsame n).ofile (hsame n).vma (hsame n).held
  have hinodes : (proc n).inodes = (s.proc n).inodes := inodes_congr (hsame n).cwd (hsame n).held
  refine hs₁.update hn ha.inv (fun f => ?_) (fun k => ?_) hbare.tidy (fun m hm hmn => ?_)
    (fun _ => hbare) fun h => ?_
  · rw [hholds, hbare.holds]
    exact ha.files f
  · rw [hinodes, hbare.inodes]
    exact ha.inodes k
  · refine Tidy.frame (s := ⟨s.sys, proc⟩) ha.called ?_ (hs₁.tidy m hm)
    rw [← hholds]
    exact hs₁.room hm hn hmn
  · rw [hstate] at h
    cases h

theorem exitProc_setProc (sys : Sys) (status : Nat) :
    State.exitProc sb sys s n p status =
      State.exitProc sb sys ({ s with sys := sys }.setProc n p) n p status := by
  have hupdate : ∀ p', Function.update (State.reparent n (Function.update s.proc n p)) n p' =
      Function.update (State.reparent n s.proc) n p' := by
    intro p'
    funext m
    by_cases hm : m = n
    · rw [hm, Function.update_self, Function.update_self]
    · simp only [Function.update_of_ne hm, State.reparent]
  unfold State.exitProc
  simp only [State.setProc, hupdate]

theorem KInv.accessProc {va : Nat} {store : Option UInt8} (hs : KInv sb s) (hn : n < NPROC)
    (hlive : (s.proc n).state = .runnable) (hheld : (s.proc n).held = .nothing) :
    Post (fun e => e.Tame ∨ e = .ilock ∧ ∃ i, faultSlot (s.proc n) va = some i ∧
      (s.sys.file ((s.proc n).vma i).f).type = .pipe) (fun s' => KInv sb s' ∧ Moved s n s')
      (s.accessProc sb n va store) := by
  unfold State.accessProc
  refine Post.ite (fun _ => ?_) fun _ => ?_
  · split
    · exact .pure ⟨hs.setKm _, fun _ _ => rfl, fun _ _ => rfl⟩
    · exact .pure ⟨hs, .refl s n⟩
  · refine (pageFault_post (hs.pre hn) (hs.tidy n hn) hheld).bind ?_
    rintro ⟨killed, sys', p'⟩ ⟨hpost, hsame⟩
    have hs' := hs.call hn hlive hpost
    have hmoved : Moved s n ({ s with sys := sys' }.setProc n p') := .of_update hn hpost.called.keep
    refine Post.ite (fun _ => ?_) fun _ => .pure ⟨hs', hmoved⟩
    have hself : ({ s with sys := sys' }.setProc n p').proc n = p' := Function.update_self _ _ _
    have hexit := @KInv.exitProc sb _ n (2 ^ 32 - 1) hs' hn
    rw [hself] at hexit
    rw [exitProc_setProc]
    refine (hexit (hsame.state.trans hlive) (hsame.held.trans hheld)).mono
      (fun e he => Or.inl he) ?_
    rintro s' ⟨hk, hm⟩
    refine ⟨hk, hmoved.trans hm fun f => ?_⟩
    rw [hself]
    exact hpost.called.files f

/-! ## `fork` and `wait` -/

theorem freeSlot_some (h : s.freeSlot = some q) : q < NPROC ∧ (s.proc q).state = .unused :=
  ⟨List.mem_range.mp (List.mem_of_find?_eq_some h), by simpa using List.find?_some h⟩

/-- Filling the free slot `q` with a process whose references come from process `n`. -/
theorem KInv.adopt (hs : KInv sb s) (hn : n < NPROC) (hq : q < NPROC)
    (hheld : (s.proc n).held = .nothing) (hbare : Bare (s.proc q))
    (ha : Acct sb (s.proc n).holds ((s.proc n).holds + p'.holds) (s.proc n).inodes
      ((s.proc n).inodes + p'.inodes) s.sys sys')
    (htidy : Tidy sys' p') (hbare' : p'.state ≠ .runnable → Bare p')
    (hcwd : p'.state = .runnable → p'.cwd.isSome) :
    KInv sb ({ s with sys := sys' }.setProc q p') ∧
    Moved s q ({ s with sys := sys' }.setProc q p') := by
  have hmoved : Moved s q ({ s with sys := sys' }.setProc q p') := by
    refine .of_update hq fun f hf => (ha.keep f ?_).2
    have hfiles := ha.files f
    rw [Pi.add_apply] at hfiles
    omega
  refine ⟨hs.update hq ha.inv (fun f => ?_) (fun k => ?_) htidy (fun m hm _ => ?_) hbare' hcwd,
    hmoved⟩
  · have := ha.files f
    rw [Pi.add_apply] at this
    rw [hbare.holds, Pi.zero_apply]
    omega
  · have := ha.inodes k
    rw [Pi.add_apply] at this
    rw [hbare.inodes, Pi.zero_apply]
    omega
  · by_cases hmn : m = n
    · subst hmn
      refine ⟨fun f k omode h => ?_, fun f hf => ?_⟩
      · rw [hheld] at h
        cases h
      · have hpos := (ha.pre (hs.pre hn)).files f
        have hmine := visible_le_holds (s.proc m) f
        rw [Pi.add_apply] at hpos
        rw [File.type_core (ha.keep f (by omega)).2]
        exact (hs.tidy m hm).opened f hf
    · exact Tidy.frame ha.called (hs.room hm hn hmn) (hs.tidy m hm)

theorem KInv.forkProc (hs : KInv sb s) (hn : n < NPROC) (hlive : (s.proc n).state = .runnable)
    (hheld : (s.proc n).held = .nothing) :
    Post Panic.Tame (fun s' => KInv sb s' ∧ ∃ x, Action.Changes s (.fork n) x ∧ Moved s x s')
    (s.forkProc n) := by
  unfold State.forkProc
  split
  · exact .ok ⟨hs, NPROC, fun h => absurd h (lt_irrefl _), .refl s _⟩
  · rename_i q hslot
    obtain ⟨hq, hunused⟩ := freeSlot_some hslot
    have hbare : Bare (s.proc q) := hs.bare q hq (by rw [hunused]; decide)
    have hcwd := hs.cwd n hn hlive
    refine (fork_post (hs.pre hn) hcwd hbare hunused).bind ?_
    rintro ⟨ok, sys', np⟩ hpost
    have hchild : KInv sb ({ s with sys := sys' }.setProc q np) ∧
      Moved s q ({ s with sys := sys' }.setProc q np) →
        KInv sb ({ s with sys := sys' }.setProc q np) ∧
          ∃ x, Action.Changes s (.fork n) x ∧ Moved s x ({ s with sys := sys' }.setProc q np) :=
      fun h => ⟨h.1, q, fun _ => hunused, h.2⟩
    refine .pure (hchild ?_)
    cases ok with
    | false =>
      obtain ⟨ha, hsame⟩ := hpost
      have hbare' := hbare.of_same hsame
      refine hs.adopt hn hq hheld hbare ?_ hbare'.tidy (fun _ => hbare') fun h => ?_
      · rw [hbare'.holds, hbare'.inodes, add_zero, add_zero]
        exact ha
      · rw [hsame.state, hunused] at h
        cases h
    | true =>
      have hF : Forked sb s.sys (s.proc n) (s.proc q) sys' np := hpost
      refine hs.adopt hn hq hheld hbare hF.acct ⟨fun f k omode h => ?_, fun f hf => ?_⟩
        (fun h => absurd hF.state h) fun _ => ?_
      · rw [hF.held] at h
        cases h
      · have hpos := (hF.acct.pre (hs.pre hn)).files f
        have hmine := visible_le_holds np f
        rw [Pi.add_apply] at hpos
        rw [File.type_core (hF.acct.keep f (by omega)).2]
        exact (hs.tidy n hn).opened f (hF.sub f hf)
      · rw [hF.cwd]
        exact hcwd

theorem zombieChild_some (h : s.zombieChild n = some q) :
    q < NPROC ∧ (s.proc q).state = .zombie := by
  refine ⟨List.mem_range.mp (List.mem_of_find?_eq_some h), ?_⟩
  have := List.find?_some h
  simp only [decide_eq_true_eq] at this
  exact this.2

theorem KInv.waitProc {addr reg : Nat} (hs : KInv sb s) (hslot : s.zombieChild n = some q) :
    Post Panic.Tame (fun r => KInv sb r.2 ∧ ∃ x, Action.Changes s (.wait n reg) x ∧ Moved s x r.2)
      (s.waitProc n q addr) := by
  obtain ⟨hq, hzombie⟩ := zombieChild_some hslot
  have hbare : Bare (s.proc q) := hs.bare q hq (by rw [hzombie]; decide)
  have hreap : ∀ km, Post Panic.Tame (fun r => KInv sb r.2 ∧ ∃ x, Action.Changes s (.wait n reg) x ∧
      Moved s x r.2)
      (freeproc km (s.proc q) >>= fun r => pure
          (true, { s with sys := { s.sys with km := r.1 } }.setProc q r.2)) := by
    intro km
    refine freeproc_same.bind ?_
    rintro ⟨km', np⟩ hsame
    have hbare' : Bare np :=
      Bare.of_same (p := { s.proc q with state := .unused })
        ⟨hbare.ofile, hbare.vma, hbare.held, hbare.cwd⟩ hsame
    refine .pure ⟨hs.update hq (hs.inv.setKm km') (fun f => ?_) (fun k => ?_) hbare'.tidy
      (fun m hm _ => ?_)
      (fun _ => hbare') fun h => ?_, q, fun _ => hslot, .of_update hq fun _ _ => rfl⟩
    · rw [hbare.holds, hbare'.holds]
      rfl
    · rw [hbare.inodes, hbare'.inodes, @fileRef_congr s.sys { s.sys with km := km' } rfl]
      rfl
    · exact (hs.tidy m hm).congr rfl ⟨rfl, rfl, rfl, rfl, rfl⟩
    · rw [hsame.state] at h
      cases h
  unfold State.waitProc
  refine Post.ite (fun _ => hreap _) fun _ => ?_
  split
  · exact .ok ⟨hs.setKm _, NPROC, fun h => absurd h (lt_irrefl _), fun _ _ => rfl, fun _ _ => rfl⟩
  · exact hreap _

/-! ## Steps -/

theorem inUse_of_iref {k : Nat} (hs : KInv sb s) (hk : 0 < s.sys.iref k) :
    s.inUse (s.sys.inode k).inum = true := by
  unfold State.inUse
  refine List.any_eq_true.mpr ⟨k, List.mem_range.mpr (hs.inv.irange k hk), ?_⟩
  simpa [Sys.iref] using hk

theorem KInv.fsCall (hs : KInv sb s) {c : Fs.Call}
    (hfree : ∀ i, c.freed = some i → s.inUse i = false) :
    (effect.fsCall sb s c).Sat Panic.Tame (fun s' => KInv sb s' ∧ ∃ x, Action.Changes s (.fs c) x ∧
      Moved s x s') := by
  unfold effect.fsCall
  cases hc : Fs.call sb s.sys.disk c with
  | blocked => exact .blocked
  | next disk =>
    obtain ⟨htyped, hrun⟩ := Fs.call_next hc
    have hkept := (hs.inv.fs.call_run c htyped).of_ok hrun
    refine .next ⟨hs.of_same (hs.inv.setDisk hkept.inv fun k hk => ?_) rfl rfl
      fun _ _ => ⟨rfl, rfl, rfl, rfl, rfl⟩, NPROC, lt_irrefl _, fun _ _ => rfl, fun _ _ => rfl⟩
    refine Fs.allocated_of_type (hs.inv.ialloc k hk)
      (hkept.type _ (hs.inv.ialloc k hk) fun hf => ?_)
    exact absurd ((hfree _ hf).symm.trans (inUse_of_iref hs hk)) (by decide)
  | fault f =>
    obtain ⟨htyped, hrun⟩ := Fs.call_fault hc
    have hsafe := (hs.inv.fs.call_run c htyped).of_error hrun
    cases f with
    | ballocOutOfBlocks => exact .fault (Or.inl rfl)
    | iallocNoInodes => exact .fault (Or.inr rfl)
    | ilockNoType => exact .blocked
    | freeingFreeBlock => exact absurd (Or.inl rfl) hsafe
    | bmapOutOfRange => exact absurd (Or.inr rfl) hsafe

/-- `munmap` closes the file of a valid slot only. -/
def ClosesValid (s : State) : Action → Prop
  | .munmap n addr len => ∀ i ∈ closingSlot (s.proc n) addr len, ((s.proc n).vma i).valid = true
  | _ => True

instance (s : State) : (a : Action) → Decidable (ClosesValid s a)
  | .munmap n addr len =>
    inferInstanceAs (Decidable (∀ i ∈ closingSlot (s.proc n) addr len,
      ((s.proc n).vma i).valid = true))
  | .mmap .. | .sbrk .. | .access .. | .fork _ | .exit .. | .wait .. | .exec .. | .openAlloc ..
  | .openFinish _ | .pipeAlloc _ | .pipeFinish .. | .dup .. | .close .. | .read .. | .write ..
  | .chdir .. | .fs _ => isTrue trivial

/-- The access is a page fault on a mapped pipe. -/
def PipeFault (s : State) : Action → Prop
  | .access n va _ => ∃ i, faultSlot (s.proc n) (argaddr va) = some i ∧
      (s.sys.file ((s.proc n).vma i).f).type = .pipe
  | _ => False

theorem ofExcept_sat {α : Type} {E : Panic → Prop} {Q : α → Prop} {x : Except Panic α}
    (h : Post E Q x) : (ofExcept x).Sat E Q := by
  cases x with
  | ok a => exact .next (h.of_ok rfl)
  | error e => exact .fault (h.of_error rfl)

theorem KInv.call_sat (hs : KInv sb s) (hn : n < NPROC) (hlive : (s.proc n).state = .runnable)
    {f : Sys → Proc → Except Panic (Sys × Proc)}
    (hf : Post Panic.Tame (fun r => CallPost sb s.sys (s.proc n) r.1 r.2) (f s.sys (s.proc n))) :
    (ofExcept (s.call n f)).Sat Panic.Tame (fun s' => KInv sb s' ∧ Moved s n s') :=
  ofExcept_sat (hf.bind fun _ hr => .pure ⟨hs.call hn hlive hr, .of_update hn hr.called.keep⟩)

theorem KInv.effect (hs : KInv sb s) (a : Action) (hg : ClosesValid s a) {finish : Bool}
    (hactor : a.actor = some (n, finish)) (hn : n < NPROC) (hlive : (s.proc n).state = .runnable)
    (hheld : finish = true ∨ (s.proc n).held = .nothing) :
    (effect sb s a).Sat (fun e => e.Tame ∨ e = .ilock ∧ PipeFault s a)
      (fun s' => KInv sb s' ∧ ∃ x, a.Changes s x ∧ Moved s x s') := by
  have hp := hs.pre hn
  have ht := hs.tidy n hn
  have hleft : ∀ {o : Outcome Panic State}, a.Changes s n →
      o.Sat Panic.Tame (fun s' => KInv sb s' ∧ Moved s n s') →
      o.Sat (fun e => e.Tame ∨ e = .ilock ∧ PipeFault s a)
      (fun s' => KInv sb s' ∧ ∃ x, a.Changes s x ∧ Moved s x s') :=
    fun hc h => h.mono (fun _ => Or.inl) fun _ h => ⟨h.1, n, hc, h.2⟩
  cases a with
  | mmap m len prot flags fd offset =>
    cases hactor
    have hheld := hheld.resolve_left (by decide)
    exact hleft ⟨_, rfl⟩ (hs.call_sat hn hlive
      ((sysMmap_post hp ht hheld).bind fun r hr => .pure hr))
  | munmap m addr len =>
    cases hactor
    exact hleft ⟨_, rfl⟩ (hs.call_sat hn hlive
      (sysMunmap_post hp ht (hheld.resolve_left (by decide)) hg))
  | sbrk m incr =>
    cases hactor
    have hheld := hheld.resolve_left (by decide)
    exact hleft ⟨_, rfl⟩ (hs.call_sat hn hlive
      ((growproc_post hp ht hheld).bind fun r hr => .pure hr))
  | access m va store =>
    cases hactor
    exact (ofExcept_sat (hs.accessProc hn hlive (hheld.resolve_left (by decide)))).mono
      (fun _ => id) fun _ h => ⟨h.1, n, ⟨_, rfl⟩, h.2⟩
  | fork m =>
    cases hactor
    exact (ofExcept_sat (hs.forkProc hn hlive (hheld.resolve_left (by decide)))).mono
      (fun _ => Or.inl) fun _ => id
  | exit m status =>
    cases hactor
    exact hleft ⟨_, rfl⟩ (ofExcept_sat (hs.exitProc hn hlive (hheld.resolve_left (by decide))))
  | wait m addr =>
    cases hactor
    unfold Kernel.effect
    dsimp only
    split
    · exact (ofExcept_sat (hs.waitProc ‹_›).map).mono (fun _ => Or.inl) fun _ => id
    · split
      · exact .blocked
      · exact .next ⟨hs, NPROC, fun h => absurd h (lt_irrefl _), .refl s _⟩
  | exec m inum argv =>
    cases hactor
    exact .guard fun hnamed => hleft ⟨_, rfl⟩ (hs.call_sat hn hlive
      (exec_post hp ht (hheld.resolve_left (by decide)) hnamed.1))
  | openAlloc m inum omode =>
    cases hactor
    exact .guard fun hnamed => hleft ⟨_, rfl⟩ (hs.call_sat hn hlive
      (openAlloc_post hp ht (hheld.resolve_left (by decide)) hnamed.1))
  | openFinish m =>
    cases hactor
    unfold Kernel.effect
    dsimp only
    split
    · exact hleft ⟨_, rfl⟩ (hs.call_sat hn hlive (openFinish_post hp ht ‹_›))
    · exact .blocked
  | pipeAlloc m =>
    cases hactor
    exact hleft ⟨_, rfl⟩ (hs.call_sat hn hlive
      (pipeAlloc_post hp ht (hheld.resolve_left (by decide))))
  | pipeFinish m fdarray =>
    cases hactor
    unfold Kernel.effect
    dsimp only
    split
    · exact hleft ⟨_, rfl⟩ (hs.call_sat hn hlive (pipeFinish_post hp ht ‹_›).map)
    · exact .blocked
  | dup m fd =>
    cases hactor
    exact hleft ⟨_, rfl⟩ (hs.call_sat hn hlive (sysDup_post hp ht (hheld.resolve_left (by decide))))
  | close m fd =>
    cases hactor
    exact hleft ⟨_, rfl⟩ (hs.call_sat hn hlive
      (sysClose_post hp ht (hheld.resolve_left (by decide))))
  | read m fd addr len =>
    cases hactor
    have hheld := hheld.resolve_left (by decide)
    exact hleft ⟨_, rfl⟩ (hs.call_sat hn hlive
      ((sysRead_post hp ht hheld).bind fun r hr => .pure hr))
  | write m fd addr len =>
    cases hactor
    have hheld := hheld.resolve_left (by decide)
    exact hleft ⟨_, rfl⟩ (hs.call_sat hn hlive
      ((sysWrite_post hp ht hheld).bind fun r hr => .pure hr))
  | chdir m inum =>
    cases hactor
    exact .guard fun hnamed => hleft ⟨_, rfl⟩ (hs.call_sat hn hlive
      (sysChdir_post hp ht (hheld.resolve_left (by decide))
      (hs.cwd n hn hlive) hnamed.1))
  | fs c => cases hactor

/-- Every step keeps the invariant and changes one entry of the process table at most, and
none panics for want of a reference. -/
theorem KInv.step (hs : KInv sb s) (a : Action) (hg : ClosesValid s a) :
    (step sb s a).Sat (fun e => e.Tame ∨ e = .ilock ∧ PipeFault s a)
      (fun s' => KInv sb s' ∧ ∃ x, a.Changes s x ∧ Moved s x s') := by
  unfold Kernel.step
  split
  · rename_i hactor
    cases a with
    | fs c =>
      show Outcome.Sat _ _ (if c.freed.any s.inUse = true then _ else _)
      split
      · exact .blocked
      · rename_i huse
        refine (hs.fsCall fun i hi => ?_).mono (fun _ => Or.inl) fun _ => id
        simpa [hi] using huse
    | _ => cases hactor
  · rename_i n finish hactor
    exact .guard fun hready => hs.effect a hg hactor hready.1 hready.2.1 hready.2.2

/-! ## Runs -/

theorem SysInv.start {km : Kmem} {disk : Fs.Disk} (hfs : Fs.FsInv sb disk) :
    SysInv sb (Sys.start km disk) where
  fs := hfs
  range _ h := absurd h (Nat.lt_irrefl 0)
  off_lt _ := Nat.two_pow_pos 32
  untyped _ _ := rfl
  ipSet _ h := absurd h (by simp [Sys.start])
  serial_lt _ h := absurd h (Nat.lt_irrefl 0)
  serial_inj _ _ h := absurd h (Nat.lt_irrefl 0)
  opened_lt _ h := absurd h (by simp [Sys.start])
  opened_nodup := List.nodup_nil
  closed_nodup := List.nodup_nil
  closed_sub _ h := absurd h (by simp [Sys.start])
  notClosed _ h := absurd h (Nat.lt_irrefl 0)
  isOpen x := by simp [Sys.start]
  irange _ h := absurd h (Nat.lt_irrefl 0)
  iuniq _ _ h := absurd h (Nat.lt_irrefl 0)
  ialloc _ h := absurd h (Nat.lt_irrefl 0)

theorem bare_zero : Bare .zero := ⟨fun _ _ => rfl, fun _ _ => rfl, rfl, rfl⟩

theorem kinv_start {km : Kmem} {disk : Fs.Disk} (hfs : Fs.FsInv sb disk) :
    KInv sb ⟨Sys.start km disk, fun _ => .zero⟩ := by
  refine ⟨SysInv.start hfs, fun f => ?_, fun k => ?_, fun _ _ => bare_zero.tidy,
    fun _ _ _ => bare_zero, fun _ _ h => (by cases h)⟩
  · simp only [bare_zero.holds, Pi.zero_apply, Finset.sum_const_zero]
    rfl
  · have hfile : (Sys.start km disk).fileRef k = 0 := by
      unfold Sys.fileRef
      exact Finset.sum_eq_zero fun f _ => if_neg (by simp [Sys.start, File.keeps])
    simp only [bare_zero.inodes, Pi.zero_apply, Finset.sum_const_zero, hfile]
    rfl

theorem userinit_kinv {km : Kmem} {disk : Fs.Disk} (hfs : Fs.FsInv sb disk)
    (hroot : (disk.view sb).Allocated sb ROOTINO) :
    Post Panic.Tame (fun o => ∀ s, o = some s → KInv sb s) (userinit km disk) := by
  unfold userinit
  refine allocproc_same.bind ?_
  rintro ⟨o, km₁⟩ hsame
  cases o with
  | none => exact .pure fun _ h => by cases h
  | some p =>
    have hp := hsame p rfl
    dsimp only
    split
    · exact .pure fun _ h => by cases h
    · refine Post.bind (Post.mapError_any fun _ => trivial) ?_
      rintro ⟨ok, km₂, pt⟩ -
      cases ok with
      | false => exact .pure fun _ h => by cases h
      | true =>
        have hs₀ : KInv sb ⟨Sys.start km₂ disk, fun _ => .zero⟩ := kinv_start hfs
        refine (iget_tame (h := 0) (c := 0) (hs₀.pre (n := 0) (by decide)).zero hroot).bind ?_
        rintro ⟨k, sys⟩ ⟨ha, -⟩
        refine .pure fun s hs => ?_
        cases hs
        generalize hq : ({ p with
          pagetable := pt
          sz := PGSIZE
          sp := PGSIZE
          cwd := some k
          own := fun v => decide (v = 0)
          state := .runnable } : Proc) = q
        have hofile : q.ofile = Proc.zero.ofile := hq ▸ hp.ofile
        have hvma : q.vma = Proc.zero.vma := hq ▸ hp.vma
        have hheld : q.held = .nothing := hq ▸ hp.held
        have hcwd : q.cwd = some k := hq ▸ rfl
        have hlive : q.state = .runnable := hq ▸ rfl
        have hvis : q.visible = 0 := (visible_congr hofile hvma hheld).trans bare_zero.visible
        refine hs₀.update (by decide) ha.inv (fun f => ?_) (fun j => ?_)
          ⟨fun f i om h => ?_, fun f hf => ?_⟩
          (fun m _ _ => bare_zero.tidy) (fun h => absurd hlive h) fun _ => by rw [hcwd]; rfl
        · rw [bare_zero.holds, holds_of_nothing hheld, hvis]
          exact ha.files f
        · rw [bare_zero.inodes, inodes_of_cwd hheld hcwd, ← zero_add (only k)]
          exact ha.inodes j
        · rw [hheld] at h
          cases h
        · rw [hvis] at hf
          exact absurd hf (Nat.lt_irrefl 0)

theorem Booted.kinv (h : Booted sb s) : KInv sb s := by
  obtain ⟨km, img, halloc, hroot, hinit⟩ := h
  exact (userinit_kinv (.ofImage halloc) hroot).of_ok hinit s rfl

theorem reach_kinv (h : Reach (step sb) ClosesValid (Booted sb) s) : KInv sb s :=
  h.invariant (fun _ => Booted.kinv) fun _ a _ hs hg hstep => ((hs.step a hg).of_next hstep).1

/-- References to `f` that live processes hold: entries of `ofile`, valid slots of
`vma`, and the fresh files of calls in progress. -/
def State.holders (s : State) (f : Nat) : Nat :=
  ∑ n ∈ Finset.range NPROC, if (s.proc n).state = .runnable then
    (s.proc n).fds f + (s.proc n).maps f + (s.proc n).held.files f else 0

theorem KInv.holders (hs : KInv sb s) (f : Nat) : s.holders f = s.sys.ref f := by
  rw [hs.files f]
  refine Finset.sum_congr rfl fun n hn => ?_
  split
  · simp only [Proc.holds, Proc.visible, Held.files, Pi.add_apply]
    omega
  · rw [(hs.bare n (Finset.mem_range.mp hn) ‹_›).holds]
    rfl

/-- If no `munmap` closes the file of a stale slot, then in every reachable state the
reference count of each file is the number of references that live processes hold;
`filedup` and `fileclose` do not panic; each open end has been closed once if no file
stands for it any more, and never otherwise; and no entry of a live process refers to
a free file. -/
theorem open_file_accounting (sb : Fs.Superblock) (s : State)
    (hreach : Reach (step sb) ClosesValid (Booted sb) s) :
    (∀ f, (s.sys.file f).ref = s.holders f) ∧
    (∀ a, ClosesValid s a → step sb s a ≠ .fault .filedup ∧ step sb s a ≠ .fault .fileclose) ∧
    (s.sys.opened.Nodup ∧ s.sys.closed.Nodup ∧ s.sys.closed ⊆ s.sys.opened ∧
      ∀ x ∈ s.sys.opened, x ∉ s.sys.closed ↔
        ∃ f, 0 < (s.sys.file f).ref ∧ (s.sys.file f).type ≠ .none ∧ (s.sys.file f).serial = x) ∧
    ∀ n, n < NPROC → (s.proc n).state = .runnable →
      (∀ fd f, fd < NOFILE → (s.proc n).ofile fd = some f → 0 < (s.sys.file f).ref) ∧
      ∀ i, i < VMASIZE → ((s.proc n).vma i).valid = true →
      0 < (s.sys.file ((s.proc n).vma i).f).ref := by
  have hs := reach_kinv hreach
  refine ⟨fun f => (hs.holders f).symm, fun a hg => ?_, ⟨hs.inv.opened_nodup, hs.inv.closed_nodup,
    hs.inv.closed_sub, fun x hx => ?_⟩, fun n hn _ => ⟨fun fd f hfd hof => ?_, fun i hi hv => ?_⟩⟩
  · have hsafe : ∀ e, step sb s a = .fault e → e.Tame ∨ e = .ilock := fun e he =>
      ((hs.step a hg).of_fault he).imp_right And.left
    constructor <;> intro hf <;> rcases hsafe _ hf with h | h <;> cases h
  · have hopen := hs.inv.isOpen x
    constructor
    · intro hc
      obtain ⟨f, hty, hser⟩ := hopen.mp ⟨hx, hc⟩
      exact ⟨f, hs.inv.typed_pos hty, hty, hser⟩
    · rintro ⟨f, -, hty, hser⟩
      exact (hopen.mpr ⟨f, hty, hser⟩).2
  · exact ref_pos_of_visible (hs.pre hn) (visible_of_ofile hfd hof)
  · exact ref_pos_of_visible (hs.pre hn) (visible_of_vma hi hv)

/-- A child maps a file and exits; its slot of the process table, with the stale slot
of `vma`, goes to a second child, which unmaps the file that it inherited as a
descriptor. -/
def staleRun : List Action :=
  [.fork 0, .openAlloc 1 1 0, .openFinish 1, .mmap 1 4096 1 2 0 0, .exit 1 0, .wait 0 0,
    .openAlloc 0 1 0, .openFinish 0, .fork 0, .munmap 1 4096 4096, .close 1 0]

/-- The first process is left with a descriptor of a free file, and closing it
panics. -/
theorem staleRun_fileclose :
    ∃ s s', Booted Fs.tinySb s ∧ Lib.exec (step Fs.tinySb) s staleRun = .next s' ∧
    (s'.proc 0).state = .runnable ∧ (s'.proc 0).ofile 0 = some 0 ∧ (s'.sys.file 0).ref = 0 ∧
    step Fs.tinySb s' (.close 0 0) = .fault .fileclose := by
  have hrun : (tinyBoot.bind fun s => (Lib.exec (step Fs.tinySb) s staleRun).next?.map fun s' =>
      ((s'.proc 0).state, (s'.proc 0).ofile 0, (s'.sys.file 0).ref,
        (step Fs.tinySb s' (.close 0 0)).fault?)) =
            some (.runnable, some 0, 0, some .fileclose) := by
    decide +kernel
  obtain ⟨s, hs, hmap⟩ := Option.bind_eq_some_iff.mp hrun
  obtain ⟨s', hs', heq⟩ := Option.map_eq_some_iff.mp hmap
  simp only [Prod.mk.injEq, Outcome.fault?_eq_some] at heq
  exact ⟨s, s', tinyBoot_booted hs, Outcome.next?_eq_some.mp hs', heq⟩

/-- A run in which a mapping is inherited and removed twice. -/
def sharedRun : List Action :=
  [.openAlloc 0 1 0, .openFinish 0, .mmap 0 4096 1 2 0 0, .fork 0, .munmap 1 4096 4096, .close 1 0]

theorem open_file_accounting_sharedRun :
    ∃ s, Reach (step Fs.tinySb) ClosesValid (Booted Fs.tinySb) s ∧
    (s.sys.file 0).ref = 2 ∧ s.holders 0 = 2 := by
  have hrun : (tinyBoot.bind fun s => (Lib.exec (step Fs.tinySb) s sharedRun).next?.map fun s' =>
      (decide (Guarded (step Fs.tinySb) ClosesValid s sharedRun), (s'.sys.file 0).ref)) =
        some (true, 2) := by
    decide +kernel
  obtain ⟨s, hs, hmap⟩ := Option.bind_eq_some_iff.mp hrun
  obtain ⟨s', hs', heq⟩ := Option.map_eq_some_iff.mp hmap
  simp only [Prod.mk.injEq, decide_eq_true_eq] at heq
  have hreach := Reach.of_exec (.start (tinyBoot_booted hs)) heq.1 (Outcome.next?_eq_some.mp hs')
  exact ⟨s', hreach, heq.2, ((open_file_accounting Fs.tinySb s' hreach).1 0).symm.trans heq.2⟩

end

end Xv6.Kernel
