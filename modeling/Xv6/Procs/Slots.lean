import Xv6.Procs.Moves

/-! # Properties of a slot and its thread

Most invariants of the table are about one slot and the place of its thread. They are kept by a
step if the slots and threads that it changes satisfy them afterwards.
-/

namespace Xv6.Procs

open Function Lib

/-- Every slot satisfies `P` together with its thread. -/
def State.All (s : State) (P : Pc → Slot → Prop) : Prop := ∀ q, P (s.pc q) (s.slot q)

namespace State.All

variable {s : State} {P : Pc → Slot → Prop} {p q : Nat} {pc : Pc} {x : Slot}

theorem setPc (h : s.All P) (hp : P pc (s.slot p)) : (s.setPc p pc).All P := fun r => by
  by_cases hr : r = p
  · subst hr
    simpa [State.setPc] using hp
  · simpa [State.setPc, hr] using h r

theorem setSlot (h : s.All P) (hq : P (s.pc q) x) : (s.setSlot q x).All P := fun r => by
  by_cases hr : r = q
  · subst hr
    simpa [State.setSlot] using hq
  · simpa [State.setSlot, hr] using h r

theorem setBoth (h : s.All P) (hp : P pc x) : ((s.setSlot p x).setPc p pc).All P := fun r => by
  by_cases hr : r = p
  · subst hr
    simpa [State.setSlot, State.setPc] using hp
  · simpa [State.setSlot, State.setPc, hr] using h r

/-- `P` is kept by the iteration of `wakeup` for slot `r`. -/
theorem wake (h : s.All P) (hwake : ∀ {pc x}, P pc x → P pc { x with state := .runnable })
    (chan : Chan) (r : Nat) :
    (s.wake chan r).All P := by
  unfold State.wake
  split
  · exact h.setSlot (hwake (h r))
  · exact h

theorem slot_wake (chan : Chan) {r : Nat} (hne : q ≠ r) : (s.wake chan r).slot q = s.slot q := by
  unfold State.wake
  split
  · exact update_of_ne hne _ _
  · rfl

theorem wakeThen (h : s.All P) (hwake : ∀ {pc x}, P pc x → P pc { x with state := .runnable })
    (chan : Chan) {r : Nat}
    (hne : r ≠ p) (hp : P pc (s.slot p)) : ((s.wake chan r).setPc p pc).All P := by
  refine (h.wake hwake chan r).setPc ?_
  rw [slot_wake chan (Ne.symm hne)]
  exact hp

end State.All

/-! ## Places -/

def Pc.gone : Pc → Bool
  | .exitRelease | .exitSched | .dead => true
  | _ => false

/-- Where a process is between its start and its exit. -/
def Pc.live : Pc → Bool
  | .idle | .forkret | .exitRelease | .exitSched | .dead => false
  | _ => true

/-- A free slot has no thread, a process that is being made has not started, and that of a zombie
has exited. -/
structure Placed (pc : Pc) (x : Slot) : Prop where
  unused : x.state = .unused → pc = .idle
  used : x.state = .used → pc = .forkret
  zombie : x.state = .zombie → pc.gone = true

namespace Placed

variable {s : State} {p : Nat} {pc pc' : Pc} {x x' : Slot}

theorem alive (hs : x.state.live = true) : Placed pc x := by
  refine ⟨fun h => ?_, fun h => ?_, fun h => ?_⟩ <;> rw [h] at hs <;> cases hs

theorem state_live (h : Placed pc x) (hlive : pc.live = true) : x.state.live = true := by
  cases hs : x.state with
  | unused =>
    rw [h.unused hs] at hlive
    cases hlive
  | used =>
    rw [h.used hs] at hlive
    cases hlive
  | zombie =>
    have hgone := h.zombie hs
    cases pc <;> first | exact absurd hlive (by decide) | exact absurd hgone Bool.false_ne_true
  | _ => rfl

theorem goto (h : Placed pc x) (hlive : pc.live = true) : Placed pc' x :=
  .alive (h.state_live hlive)

theorem change (h : Placed pc x) (hs : x'.state = x.state) : Placed pc x' :=
  ⟨fun hu => h.unused (hs ▸ hu), fun hu => h.used (hs ▸ hu), fun hz => h.zombie (hs ▸ hz)⟩

theorem wakes (_ : Placed pc x) : Placed pc { x with state := .runnable } := .alive rfl

theorem drops {l : Lock} (h : Placed pc x) (hgo : Drops l pc pc') : Placed pc' x := by
  cases hgo with
  | exit => exact ⟨fun hu => (by cases h.unused hu), fun hu => (by cases h.used hu), fun _ => rfl⟩
  | _ => exact h.goto rfl

theorem inWakeup {chan : Option Chan} {r : Nat} {more done : Pc} (h : Placed pc x)
    (hgo : Wakes s p chan r pc more done) : Placed more x ∧ Placed done x := by
  cases hgo <;> exact ⟨h.goto rfl, h.goto rfl⟩

theorem goes (h : Placed pc x) (hgo : Goes s p pc pc') : Placed pc' x := by
  cases hgo <;> exact h.goto rfl

theorem takes {l : Lock} (h : Placed pc x) (hgo : Takes s l pc pc') : Placed pc' x := by
  cases hgo <;> exact h.goto rfl

end Placed

section Steps

variable {s s' : State} {a : Action} {p q : Nat} {pc : Pc}

theorem Placed.setPc {pc' : Pc} (h : s.All Placed) (hpc : s.pc p = pc) (hlive : pc.live = true) :
    (s.setPc p pc').All Placed :=
  State.All.setPc h ((h p).goto (hpc ▸ hlive))

/-- A process does not find itself in a slot that is free, being made, or a zombie. -/
theorem Placed.ne (h : s.All Placed) (hpc : s.pc p = pc) (hlive : pc.live = true)
    (hq : (s.slot q).state.live = false) : p ≠ q := by
  rintro rfl
  rw [(h p).state_live (hpc ▸ hlive)] at hq
  cases hq

theorem Placed.step (h : s.All Placed) (hmove : Move s a s') : s'.All Placed := by
  cases hmove with
  | @call a p pc _ _ hpc _ => exact Placed.setPc h hpc rfl
  | @trap p => exact h.setSlot ((h p).change rfl)
  | @goes p _ pc pc' _ _ hpc hgo => exact State.All.setPc h ((hpc ▸ h p).goes hgo)
  | @takes p _ l pc pc' _ _ hpc _ hgo =>
    exact State.All.setPc (s := s.setLock _ _) h ((hpc ▸ h p).takes hgo)
  | @drops p _ l pc pc' _ _ hpc hgo =>
    exact State.All.setPc (s := s.setLock _ _) h ((hpc ▸ h p).drops hgo)
  | @wakeSkip p _ chan r pc more done _ _ hpc hgo _ _ =>
    exact State.All.setPc h ((hpc ▸ h p).inWakeup hgo).1
  | @wake p _ chan r pc more done _ _ hpc hgo _ hne _ =>
    exact h.wakeThen Placed.wakes chan hne ((hpc ▸ h p).inWakeup hgo).1
  | @wakeEnd p _ chan r pc more done _ _ hpc hgo _ =>
    exact State.All.setPc h ((hpc ▸ h p).inWakeup hgo).2
  | @alloc p q _ _ hpc _ _ hunused =>
    have hpq : p ≠ q := Placed.ne h hpc rfl (by rw [hunused]; rfl)
    have halloc : (s.allocproc p q).All Placed :=
      h.setBoth ⟨fun hs => (by cases hs), fun _ => rfl, fun hs => by cases hs⟩
    exact Placed.setPc halloc ((update_of_ne hpq _ _).trans hpc) rfl
  | @allocFail p q _ _ hpc _ _ hunused =>
    have hfail : (s.allocFail q).All Placed :=
      h.setSlot ⟨fun _ => (h q).unused hunused, fun hs => (by cases hs), fun hs => by cases hs⟩
    exact Placed.setPc hfail hpc rfl
  | @setParent p np _ _ _ hpc _ =>
    exact Placed.setPc (h.setSlot ((h np).change rfl)) hpc rfl
  | @setRunnable p np _ _ _ hpc _ =>
    exact Placed.setPc (h.setSlot (h np).wakes) hpc rfl
  | @reparent p q _ _ _ _ hpc _ _ =>
    exact Placed.setPc (h.setSlot ((h q).change rfl)) hpc rfl
  | zombie => exact h.setBoth ⟨fun hs => (by cases hs), fun hs => (by cases hs), fun _ => rfl⟩
  | @exitSwitch p _ _ _ hpc =>
    have hp := h p
    rw [hpc] at hp
    exact h.setBoth ⟨fun hs => (by cases hp.unused hs), fun hs => (by cases hp.used hs),
      fun _ => rfl⟩
  | @reap p q addr _ _ _ _ hpc _ _ _ hzombie =>
    have hpq : p ≠ q := Placed.ne h hpc rfl (by rw [hzombie]; rfl)
    have hreap : (s.reap p q addr).All Placed :=
      h.setBoth ⟨fun _ => rfl, fun hs => (by cases hs), fun hs => by cases hs⟩
    exact Placed.setPc hreap ((update_of_ne hpq _ _).trans hpc) rfl
  | @sleepLock p _ _ _ _ hpc _ =>
    exact h.setBoth (((hpc ▸ h p).goto rfl).change rfl)
  | sleepSet => exact h.setBoth (.alive rfl)
  | @sleepSwitch p _ _ _ _ hpc => exact h.setBoth (((hpc ▸ h p).goto rfl).change rfl)
  | @tidy p _ _ _ _ hpc => exact h.setBoth (((hpc ▸ h p).goto rfl).change rfl)
  | @strike p q pid _ _ _ hpc _ _ _ =>
    have hset : (s.strike q pid).All Placed := by
      refine h.setSlot ?_
      dsimp only
      split
      · exact .alive rfl
      · exact (h q).change rfl
    exact Placed.setPc hset hpc rfl
  | resume => exact h.setBoth (.alive rfl)
  | start => exact h.setBoth (.alive rfl)
  | schedule => exact h.setSlot (.alive rfl)
  | yield => exact h.setSlot (.alive rfl)
  | data => exact h
  | device => exact h.wake Placed.wakes _ _

theorem Placed.booted (h : Booted s) : s.All Placed := fun q => by
  rw [h.1, h.2.1]
  by_cases hq : q = initproc
  · rw [hq, update_self, update_self]
    exact .alive rfl
  · rw [update_of_ne hq, update_of_ne hq]
    exact ⟨fun _ => rfl, fun hs => (by cases hs), fun hs => by cases hs⟩

/-! ## Children that are being made -/

def Pc.child : Pc → Option Nat
  | .forkParent np | .forkRun np => some np
  | _ => none

theorem Wakes.child {chan : Option Chan} {r : Nat} {more done : Pc}
    (hgo : Wakes s p chan r pc more done) : more.child = none ∧ done.child = none := by
  cases hgo <;> exact ⟨rfl, rfl⟩

/-- A child that is being made is in state `USED`, and only its parent works on it. -/
structure Forking (place : Nat → Pc) (slot : Nat → Slot) : Prop where
  used : ∀ {p np}, (place p).child = some np → (slot np).state = .used
  unique : ∀ {p q np}, (place p).child = some np → (place q).child = some np → p = q

namespace Forking

variable {place : Nat → Pc} {slot : Nat → Slot} {np : Nat} {pc' : Pc} {x : Slot}

theorem setPc (h : Forking place slot) (hchild : pc'.child = none ∨ pc'.child = (place p).child) :
    Forking (update place p pc') slot := by
  have hold : ∀ {q np}, (update place p pc' q).child = some np → (place q).child =
      some np := fun {q np} hc => by
    by_cases hq : q = p
    · rw [hq, update_self] at hc
      rcases hchild with hn | he
      · rw [hn] at hc
        cases hc
      · rw [hq, ← he]
        exact hc
    · rwa [update_of_ne hq] at hc
  exact ⟨fun hc => h.used (hold hc), fun h₁ h₂ => h.unique (hold h₁) (hold h₂)⟩

theorem setSlot (h : Forking place slot) (hused : (slot q).state = .used → x.state = .used) :
    Forking place (update slot q x) := by
  refine ⟨fun {p np} hc => ?_, h.unique⟩
  by_cases hnp : np = q
  · rw [hnp, update_self]
    exact hused (hnp ▸ h.used hc)
  · rw [update_of_ne hnp]
    exact h.used hc

theorem alloc (h : Forking place slot) (hunused : (slot q).state = .unused) (hx : x.state = .used) :
    Forking (update (update place q .forkret) p (.forkParent q))
    (update slot q x) := by
  -- no other process works on a slot that is free
  have hother : ∀ {r np}, r ≠ p →
      (update (update place q .forkret) p (.forkParent q) r).child = some np →
      (place r).child = some np ∧ np ≠ q := fun {r np} hr hc => by
    rw [update_of_ne hr] at hc
    by_cases hrq : r = q
    · rw [hrq, update_self] at hc
      cases hc
    · rw [update_of_ne hrq] at hc
      refine ⟨hc, fun hnp => ?_⟩
      have hused := h.used hc
      rw [hnp, hunused] at hused
      cases hused
  have hself : ∀ {np}, (update (update place q .forkret) p
      (.forkParent q) p).child = some np → np = q :=
    fun {np} hc => by
      rw [update_self] at hc
      exact (Option.some.inj hc).symm
  refine ⟨fun {r np} hc => ?_, fun {r r' np} hc hc' => ?_⟩
  · by_cases hr : r = p
    · rw [hr] at hc
      rw [hself hc, update_self]
      exact hx
    · obtain ⟨hold, hne⟩ := hother hr hc
      rw [update_of_ne hne]
      exact h.used hold
  · by_cases hr : r = p <;> by_cases hr' : r' = p
    · rw [hr, hr']
    · rw [hr] at hc
      exact absurd (hself hc) (hother hr' hc').2
    · rw [hr'] at hc'
      exact absurd (hself hc') (hother hr hc).2
    · exact h.unique (hother hr hc).1 (hother hr' hc').1

theorem finish (h : Forking place slot) (hchild : (place p).child = some np)
    (hpc : pc'.child = none) :
    Forking (update place p pc') (update slot np x) := by
  have hold : ∀ {q n}, (update place p pc' q).child = some n → (place q).child = some n ∧
      n ≠ np := fun {q n} hc => by
    by_cases hq : q = p
    · rw [hq, update_self, hpc] at hc
      cases hc
    · rw [update_of_ne hq] at hc
      refine ⟨hc, fun hn => hq (h.unique hc (hn ▸ hchild))⟩
  refine ⟨fun hc => ?_, fun h₁ h₂ => h.unique (hold h₁).1 (hold h₂).1⟩
  obtain ⟨hc, hne⟩ := hold hc
  rw [update_of_ne hne]
  exact h.used hc

end Forking

def State.Forking (s : State) : Prop := Procs.Forking s.pc s.slot

theorem State.Forking.wake (h : s.Forking) (chan : Chan) (r : Nat) : (s.wake chan r).Forking := by
  unfold State.wake
  split
  · rename_i hc
    refine Forking.setSlot h fun hu => ?_
    rw [hc.1] at hu
    cases hu
  · exact h

theorem State.Forking.step (h : s.Forking) (hplaced : s.All Placed) (hmove : Move s a s') :
    s'.Forking := by
  -- the slot of a process that takes a step is not one that is being made
  have hlive : ∀ {p pc} {x : Slot}, s.pc p = pc → pc.live = true → (s.slot p).state = .used →
      x.state = .used :=
    fun {p pc x} hpc hl hu => by
      rw [← hpc, (hplaced p).used hu] at hl
      cases hl
  have hstate : ∀ {p} {x : Slot}, (s.slot p).state = .runnable → (s.slot p).state = .used →
      x.state = .used :=
    fun hr hu => by
      rw [hr] at hu
      cases hu
  cases hmove with
  | @call a p pc _ _ _ hcall => exact Forking.setPc h (.inl (by cases hcall <;> rfl))
  | trap => exact Forking.setSlot h fun hu => hu
  | @goes p _ pc pc' _ _ _ hgo => exact Forking.setPc h (.inl (by cases hgo <;> rfl))
  | takes _ _ _ _ hgo => exact Forking.setPc h (.inl (by cases hgo <;> rfl))
  | drops _ _ _ hgo => exact Forking.setPc h (.inl (by cases hgo <;> rfl))
  | wakeSkip _ _ _ hgo => exact Forking.setPc h (.inl hgo.child.1)
  | wake _ _ _ hgo => exact Forking.setPc (h.wake _ _) (.inl hgo.child.1)
  | wakeEnd _ _ _ hgo => exact Forking.setPc h (.inl hgo.child.2)
  | alloc _ _ _ _ _ hunused => exact Forking.alloc h hunused rfl
  | allocFail _ _ _ _ _ hunused =>
    refine Forking.setPc (Forking.setSlot h fun hu => ?_) (.inl rfl)
    rw [hunused] at hu
    cases hu
  | @setParent p np _ _ _ hpc _ =>
    exact Forking.setPc (Forking.setSlot h fun hu => hu) (.inr (congrArg Pc.child hpc).symm)
  | @setRunnable p np _ _ _ hpc _ => exact Forking.finish h (congrArg Pc.child hpc) rfl
  | reparent => exact Forking.setPc (Forking.setSlot h fun hu => hu) (.inl rfl)
  | zombie _ _ hpc => exact Forking.setPc (Forking.setSlot h (hlive hpc rfl)) (.inl rfl)
  | exitSwitch => exact Forking.setPc (Forking.setSlot h fun hu => hu) (.inl rfl)
  | @reap p q _ _ _ _ _ _ _ _ _ hzombie =>
    refine Forking.setPc (Forking.setPc (Forking.setSlot h fun hu => ?_) (.inl rfl)) (.inl rfl)
    rw [hzombie] at hu
    cases hu
  | sleepLock => exact Forking.setPc (Forking.setSlot h fun hu => hu) (.inl rfl)
  | sleepSet _ _ hpc => exact Forking.setPc (Forking.setSlot h (hlive hpc rfl)) (.inl rfl)
  | sleepSwitch => exact Forking.setPc (Forking.setSlot h fun hu => hu) (.inl rfl)
  | tidy => exact Forking.setPc (Forking.setSlot h fun hu => hu) (.inl rfl)
  | @strike p q _ _ _ _ _ _ _ _ =>
    refine Forking.setPc (Forking.setSlot h fun hu => ?_) (.inl rfl)
    dsimp only
    rw [hu]
    rfl
  | resume _ hr => exact Forking.setPc (Forking.setSlot h (hstate hr)) (.inl rfl)
  | start _ hr => exact Forking.setPc (Forking.setSlot h (hstate hr)) (.inl rfl)
  | schedule _ hr => exact Forking.setSlot h (hstate hr)
  | @yield p _ _ hpc =>
    refine Forking.setSlot h fun hu => ?_
    rw [(hplaced p).used hu] at hpc
    cases hpc
  | data => exact h
  | device => exact h.wake _ _

theorem State.Forking.booted (h : Booted s) : s.Forking := by
  have hchild : ∀ p, (s.pc p).child = none := fun p => by
    rw [h.2.1]
    by_cases hp : p = initproc
    · rw [hp, update_self]
      rfl
    · rw [update_of_ne hp]
      rfl
  refine ⟨fun {p np} hc => ?_, fun {p q np} hc => ?_⟩ <;> rw [hchild p] at hc <;> cases hc

end Steps

/-! ## A state after `userinit` -/

/-- Pipe 0 is empty and pipe 1 full, both open. -/
def fresh : State where
  slot := update (fun _ => .free) initproc { Slot.free with state := .runnable, pid := 1 }
  pc := update (fun _ => .idle) initproc .forkret
  cpu := fun _ => false
  nextpid := 2
  lock := fun _ => none
  shared := ⟨fun k => ⟨0, k * PIPESIZE, true, true⟩, 0, 0, 0⟩
  name := fun _ => 0
  born := 1
  history := []

theorem fresh_booted : Booted fresh := ⟨rfl, rfl, fun _ => rfl, rfl, fun _ => rfl, rfl, rfl, rfl⟩

end Xv6.Procs
