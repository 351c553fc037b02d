import Mathlib.Data.List.TakeWhile
import Xv6.Procs.Slots

/-! # Who is killed

A process is killed by a call of `kill` with its pid, or by its own trap, after it has been
created. A free slot has pid 0 and `kill` does not look at the state, so that `kill(0)` marks a
free slot and the next process in it is killed from the start.
-/

namespace Xv6.Procs

open Function Lib

section Steps

variable {s s' : State} {a : Action} {p q : Nat} {pc : Pc}

/-! ## Calls of `kill` -/

def NonzeroPid : Action → Prop
  | .kill _ pid => pid ≠ 0
  | _ => True

instance (a : Action) : Decidable (NonzeroPid a) := by
  cases a <;> unfold NonzeroPid <;> infer_instance

/-- A process that is in `kill` looks for another pid than 0. -/
def Aims (pc : Pc) (_ : Slot) : Prop := ∀ q pid, pc = .killScan q pid → pid ≠ 0

/-- The place is not in the loop of `kill`. -/
def Pc.quiet : Pc → Bool
  | .killScan .. => false
  | _ => true

theorem Aims.quiet {x : Slot} (h : pc.quiet = true) : Aims pc x := fun q pid hpc => by
  rw [hpc] at h
  cases h

theorem Aims.inWakeup {x : Slot} {chan : Option Chan} {r : Nat} {more done : Pc}
    (hgo : Wakes s p chan r pc more done) : Aims more x ∧ Aims done x := by
  cases hgo <;> exact ⟨.quiet rfl, .quiet rfl⟩

theorem Aims.step (h : s.All Aims) (hok : NonzeroPid a) (hmove : Move s a s') : s'.All Aims := by
  cases hmove with
  | call _ _ _ hcall =>
    refine h.setPc ?_
    cases hcall with
    | kill => exact fun q pid hpc => by cases hpc; exact hok
    | _ => exact .quiet rfl
  | @trap p => exact h.setSlot (h p)
  | @goes p _ pc pc' _ _ hpc hgo =>
    have hp := h p
    rw [hpc] at hp
    refine h.setPc ?_
    cases hgo with
    | killOther => exact fun q' pid' hpc' => by cases hpc'; exact hp _ _ rfl
    | _ => exact .quiet rfl
  | takes _ _ _ _ hgo =>
    exact State.All.setPc (s := s.setLock _ _) h (by cases hgo <;> exact .quiet rfl)
  | drops _ _ _ hgo =>
    exact State.All.setPc (s := s.setLock _ _) h (by cases hgo <;> exact .quiet rfl)
  | wakeSkip _ _ _ hgo => exact h.setPc (Aims.inWakeup hgo).1
  | wake _ _ _ hgo _ hne _ => exact h.wakeThen (fun h => h) _ hne (Aims.inWakeup hgo).1
  | wakeEnd _ _ _ hgo => exact h.setPc (Aims.inWakeup hgo).2
  | @alloc p q =>
    have halloc : (s.allocproc p q).All Aims := h.setBoth (.quiet rfl)
    exact halloc.setPc (.quiet rfl)
  | @allocFail p q =>
    have hfail : (s.allocFail q).All Aims := h.setSlot (h q)
    exact hfail.setPc (.quiet rfl)
  | @setParent p np => exact (h.setSlot (h np)).setPc (.quiet rfl)
  | @setRunnable p np => exact (h.setSlot (h np)).setPc (.quiet rfl)
  | @reparent p q => exact (h.setSlot (h q)).setPc (.quiet rfl)
  | @reap p q addr =>
    have hreap : (s.reap p q addr).All Aims := h.setBoth (.quiet rfl)
    exact hreap.setPc (.quiet rfl)
  | @strike p q pid =>
    have hset : (s.strike q pid).All Aims := h.setSlot (h q)
    exact hset.setPc (.quiet rfl)
  | @schedule p => exact h.setSlot (h p)
  | @yield p => exact h.setSlot (h p)
  | data => exact h
  | device => exact h.wake (fun h => h) _ _
  | _ => exact h.setBoth (.quiet rfl)

theorem Aims.booted (h : Booted s) : s.All Aims := fun q => by
  rw [h.2.1]
  by_cases hq : q = initproc
  · rw [hq, update_self]
    exact .quiet rfl
  · rw [update_of_ne hq]
    exact .quiet rfl

end Steps

/-! ## The history of a process -/

def Event.creates (x : Nat) : Event → Bool
  | .forked _ child => child == x
  | _ => false

/-- The events since the creation of process `x`; the first process is there from the start. -/
def since (x : Nat) (h : List Event) : List Event :=
  if x = 0 then h else h.dropWhile fun e => !e.creates x

def Created (x : Nat) (h : List Event) : Prop := x = 0 ∨ ∃ y, Event.forked y x ∈ h

theorem Created.append {x : Nat} {h : List Event} (hx : Created x h) (l : List Event) :
    Created x (h ++ l) :=
  hx.imp_right fun h => h.imp fun _ hy => List.mem_append_left _ hy

theorem since_append {x : Nat} {h : List Event} (hx : Created x h) (l : List Event) :
    since x (h ++ l) = since x h ++ l := by
  unfold since
  split
  · rfl
  · rename_i hne
    obtain ⟨y, hy⟩ := hx.resolve_left hne
    rw [List.dropWhile_append, if_neg]
    rw [List.isEmpty_iff, List.dropWhile_eq_nil_iff]
    intro hall
    have hself := hall _ hy
    simp [Event.creates] at hself

/-- A call `kill(pid)` has found process `x`, or its own trap has set the flag, since it was
created. -/
def Guilty (x : Nat) (pid : Int) (h : List Event) : Prop :=
  Event.killed pid x ∈ since x h ∨ Event.trapped x ∈ since x h

instance (x : Nat) (pid : Int) (h : List Event) : Decidable (Guilty x pid h) :=
  inferInstanceAs (Decidable (_ ∨ _))

theorem Guilty.append {x : Nat} {pid : Int} {h : List Event} (hx : Created x h)
    (hg : Guilty x pid h) (l : List Event) : Guilty x pid (h ++ l) := by
  unfold Guilty
  rw [since_append hx]
  exact hg.imp (List.mem_append_left _) (List.mem_append_left _)

/-- The account of a slot in the history; a free slot is as `freeproc` leaves it. -/
structure Accounted (h : List Event) (x : Nat) (sl : Slot) : Prop where
  free : sl.state = .unused → sl.killed = false ∧ sl.pid = 0
  created : sl.state ≠ .unused → Created x h
  guilty : sl.state ≠ .unused → sl.killed = true → Guilty x sl.pid h

namespace Accounted

variable {h : List Event} {x : Nat} {sl sl' : Slot}

theorem append (ha : Accounted h x sl) (l : List Event) : Accounted (h ++ l) x sl :=
  ⟨ha.free, fun hu => (ha.created hu).append l, fun hu hk => (ha.guilty hu hk).append
    (ha.created hu) l⟩

/-- A change of the slot that is not about its use, its pid or its flag. -/
theorem change (ha : Accounted h x sl) (hu : sl'.state = .unused ↔ sl.state = .unused)
    (hk : sl'.killed = sl.killed) (hp : sl'.pid = sl.pid) : Accounted h x sl' := by
  refine ⟨fun hs => ?_, fun hs => ha.created fun hs' => hs (hu.mpr hs'), fun hs hk' => ?_⟩
  · rw [hk, hp]
    exact ha.free (hu.mp hs)
  · rw [hp]
    exact ha.guilty (fun hs' => hs (hu.mpr hs')) (hk ▸ hk')

theorem empty : Accounted h x .free :=
  ⟨fun _ => ⟨rfl, rfl⟩, fun hs => absurd rfl hs, fun hs => absurd rfl hs⟩

end Accounted

structure Accounts (slot : Nat → Slot) (name : Nat → Nat) (history : List Event) (born : Nat) :
    Prop where
  slots : ∀ q, Accounted history (name q) (slot q)
  names : ∀ e ∈ history, ∀ x, e.creates x = true → x < born
  born : 0 < born

namespace Accounts

variable {slot : Nat → Slot} {name : Nat → Nat} {history : List Event} {born q : Nat}
    {x : Slot} {e : Event}

theorem setSlot (h : Accounts slot name history born) (hq : Accounted history (name q) x) :
    Accounts (update slot q x) name history born := by
  refine ⟨fun r => ?_, h.names, h.born⟩
  by_cases hr : r = q
  · rw [hr, update_self]
    exact hq
  · rw [update_of_ne hr]
    exact h.slots r

theorem record (h : Accounts slot name history born) (he : ∀ y, e.creates y = false) :
    Accounts slot name (history ++ [e]) born := by
  refine ⟨fun q => (h.slots q).append [e], fun e' he' y hy => ?_, h.born⟩
  rcases List.mem_append.mp he' with he' | he'
  · exact h.names e' he' y hy
  · rw [List.mem_singleton.mp he', he y] at hy
    cases hy

/-- A process that is found by a call of `kill` with its pid, or traps. -/
theorem mark (h : Accounts slot name history born) (he : ∀ y, e.creates y = false)
    (hused : (slot q).state ≠ .unused) (hx : x.state ≠ .unused) (hpid : x.pid = (slot q).pid)
    (hguilty : e = .killed (slot q).pid (name q) ∨ e = .trapped (name q)) :
    Accounts (update slot q x) name (history ++ [e]) born := by
  refine (h.record he).setSlot ?_
  have hcreated := (h.slots q).created hused
  refine ⟨fun hs => absurd hs hx, fun _ => hcreated.append [e], fun _ _ => ?_⟩
  unfold Guilty
  rw [since_append hcreated, hpid]
  rcases hguilty with rfl | rfl
  · exact .inl (by simp)
  · exact .inr (by simp)

theorem alloc (h : Accounts slot name history born) (hunused : (slot q).state = .unused)
    (hx : x.state ≠ .unused) (hk : x.killed = (slot q).killed) (y : Nat) :
    Accounts (update slot q x) (update name q born) (history ++ [.forked y born])
    (born + 1) := by
  refine ⟨fun r => ?_, fun e he z hz => ?_, Nat.succ_pos _⟩
  · by_cases hr : r = q
    · subst hr
      rw [update_self, update_self]
      refine ⟨fun hs => absurd hs hx, fun _ => .inr ⟨y, by simp⟩, fun _ hk' => ?_⟩
      rw [hk, ((h.slots r).free hunused).1] at hk'
      cases hk'
    · rw [update_of_ne hr, update_of_ne hr]
      exact (h.slots r).append _
  · rcases List.mem_append.mp he with he | he
    · exact Nat.lt_succ_of_lt (h.names e he z hz)
    · rw [List.mem_singleton.mp he] at hz
      have hz : born = z := by simpa [Event.creates] using hz
      omega

end Accounts

section Runs

variable {s s' : State} {a : Action}

def State.Accounts (s : State) : Prop := Procs.Accounts s.slot s.name s.history s.born

theorem State.Accounts.wake (h : s.Accounts) (chan : Chan) (r : Nat) :
    (s.wake chan r).Accounts := by
  unfold State.wake
  split
  · rename_i hc
    refine Accounts.setSlot h ((h.slots r).change ?_ rfl rfl)
    rw [hc.1]
    exact Iff.intro (fun hs => by cases hs) fun hs => by cases hs
  · exact h

theorem State.Accounts.step (h : s.Accounts) (hplaced : s.All Placed) (hforking : s.Forking)
    (haims : s.All Aims) (hmove : Move s a s') : s'.Accounts := by
  -- the slot of a process that takes a step is in use
  have hused : ∀ {p pc}, s.pc p = pc → pc ≠ .idle → (s.slot p).state ≠ .unused :=
      fun hpc hidle hu =>
    hidle (hpc ▸ (hplaced _).unused hu)
  -- so that a change of its state to another one in use is not an allocation
  have hkeep : ∀ {p} {x : Slot}, (s.slot p).state ≠ .unused → x.state ≠ .unused →
      x.killed = (s.slot p).killed →
      x.pid = (s.slot p).pid → Accounted s.history (s.name p) x := fun hu hs hk hp =>
    (h.slots _).change (iff_of_false hs hu) hk hp
  cases hmove with
  | @trap p _ _ hpc =>
    have hu := hused hpc fun he => by cases he
    exact Accounts.mark h (fun _ => rfl) hu hu rfl (.inr rfl)
  | wake => exact h.wake _ _
  | @alloc p q _ _ _ _ _ hunused =>
    exact Accounts.alloc (x := { s.slot q with pid := s.nextpid, state := .used }) h hunused
      (fun hs => by cases hs) rfl (s.name p)
  | allocFail => exact Accounts.setSlot h .empty
  | @setParent p np => exact Accounts.setSlot h ((h.slots np).change Iff.rfl rfl rfl)
  | @setRunnable p np _ _ _ hpc =>
    have hchild : (s.slot np).state = .used := hforking.used (congrArg Pc.child hpc)
    exact Accounts.setSlot h (hkeep (by rw [hchild]; exact fun hs => by cases hs)
      (fun hs => by cases hs) rfl rfl)
  | @reparent p q => exact Accounts.setSlot h ((h.slots q).change Iff.rfl rfl rfl)
  | @zombie p status _ _ _ hpc =>
    have hset : Procs.Accounts
        (update s.slot p { s.slot p with
          locked := true, xstate := status, state := .zombie })
        s.name s.history s.born :=
      Accounts.setSlot h (hkeep (hused hpc fun he => by cases he) (fun hs => by cases hs) rfl rfl)
    exact hset.record fun _ => rfl
  | @exitSwitch p => exact Accounts.setSlot h ((h.slots p).change Iff.rfl rfl rfl)
  | @reap p q addr => exact (Accounts.setSlot h .empty).record fun _ => rfl
  | @sleepLock p => exact Accounts.setSlot h ((h.slots p).change Iff.rfl rfl rfl)
  | @sleepSet p _ _ _ _ hpc =>
    exact Accounts.setSlot h (hkeep (hused hpc fun he => by cases he)
      (fun hs => by cases hs) rfl rfl)
  | @sleepSwitch p => exact Accounts.setSlot h ((h.slots p).change Iff.rfl rfl rfl)
  | @tidy p => exact Accounts.setSlot h ((h.slots p).change Iff.rfl rfl rfl)
  | @strike p q pid _ _ _ hpc _ _ hpid =>
    -- the slot of a pid other than 0 is in use
    have hu : (s.slot q).state ≠ .unused := fun hs => by
      have hzero := ((h.slots q).free hs).2
      exact haims p q pid hpc (hpid ▸ hzero)
    refine Accounts.mark h (fun _ => rfl) hu ?_ rfl (.inl (by rw [hpid]; rfl))
    dsimp only
    split
    · exact fun hs => by cases hs
    · exact hu
  | @resume p _ _ hstate =>
    exact Accounts.setSlot h (hkeep (by rw [hstate]; exact fun hs => by cases hs)
      (fun hs => by cases hs) rfl rfl)
  | @start p _ hstate =>
    exact Accounts.setSlot h (hkeep (by rw [hstate]; exact fun hs => by cases hs)
      (fun hs => by cases hs) rfl rfl)
  | @schedule p _ hstate =>
    exact Accounts.setSlot h (hkeep (by rw [hstate]; exact fun hs => by cases hs)
      (fun hs => by cases hs) rfl rfl)
  | @yield p _ _ hpc =>
    refine Accounts.setSlot h (hkeep (fun hu => ?_) (fun hs => by cases hs) rfl rfl)
    rw [(hplaced p).unused hu] at hpc
    cases hpc
  | device => exact h.wake _ _
  | _ => exact h

theorem State.Accounts.booted (h : Booted s) : s.Accounts := by
  refine ⟨fun q => ?_, by rw [h.2.2.2.2.2.2.2]; exact fun e he => (by cases he),
    by rw [h.2.2.2.2.2.2.1]; decide⟩
  rw [h.1]
  by_cases hq : q = initproc
  · subst hq
    rw [update_self, h.2.2.2.2.2.1]
    exact ⟨fun hs => (by cases hs), fun _ => .inl rfl, fun _ hk => by cases hk⟩
  · rw [update_of_ne hq]
    exact .empty

/-- A process is killed only by a call of `kill` with its pid, or its own trap, since its creation;
a new process has a new name and is not killed; and `kill` returns 0 only if it has found a
process. -/
theorem kill_reaches_its_target (s : State)
    (hreach : Reach step (fun _ a => NonzeroPid a) Booted s) :
    (∀ q, (s.slot q).state ≠ .unused → (s.slot q).killed = true → Guilty (s.name q)
      (s.slot q).pid s.history) ∧
    ∀ a s', NonzeroPid a → step s a = .next s' →
      (∀ x y, s'.history = s.history ++ [.forked x y] → y ≠ 0 ∧
        (∀ e ∈ s.history, e.creates y = false) ∧
        ∃ q, s'.name q = y ∧ (s'.slot q).state = .used ∧ (s'.slot q).killed = false) ∧
      ∀ pid x, s'.history = s.history ++ [.killed pid x] →
        ∃ q, s.name q = x ∧ (s.slot q).state ≠ .unused ∧ (s.slot q).pid = pid := by
  have h : s.All Placed ∧ s.Forking ∧ s.All Aims ∧ s.Accounts := by
    refine hreach.invariant (I := fun s => s.All Placed ∧ s.Forking ∧ s.All Aims ∧ s.Accounts)
      (fun _ hb => ⟨Placed.booted hb, State.Forking.booted hb, Aims.booted hb,
        State.Accounts.booted hb⟩) ?_
    rintro t a t' ⟨hp, hf, ha, hc⟩ hok hstep
    have hmove := step_move.of_next hstep
    exact ⟨Placed.step hp hmove, hf.step hp hmove, Aims.step ha hok hmove, hc.step hp hf ha hmove⟩
  obtain ⟨hplaced, hforking, haims, haccounts⟩ := h
  refine ⟨fun q => (haccounts.slots q).guilty, fun a s' hok hstep => ?_⟩
  have hmove : Move s a s' := step_move.of_next hstep
  refine ⟨fun x y hrec => ?_, fun pid x hrec => ?_⟩
  · cases hmove.records_of_append hrec with
    | @forked p q hpc hunused =>
      refine ⟨Nat.ne_of_gt haccounts.born, fun e he => ?_, q, update_self _ _ _, ?_, ?_⟩
      · by_contra hc
        exact Nat.lt_irrefl _ (haccounts.names e he _ (by simpa using hc))
      · change (update s.slot q _ q).state = .used
        rw [update_self]
      · change (update s.slot q _ q).killed = false
        rw [update_self]
        exact ((haccounts.slots q).free hunused).1
  · cases hmove.records_of_append hrec with
    | @killed p q _ hpc hpid =>
      refine ⟨q, rfl, fun hu => ?_, hpid⟩
      exact haims p q pid hpc (hpid ▸ ((haccounts.slots q).free hu).2)

end Runs

/-! ## `kill(0)` -/

/-- The first process forks, and kills its child. -/
def killRun : List Action :=
  [.schedule 0, .fork 0] ++ List.replicate 4 (.run 0 true) ++ [.kill 0 2, .run 0 true, .run 0 true]

theorem kill_reaches_its_target_killRun :
    ∃ s : State, Reach step (fun _ a => NonzeroPid a) Booted s ∧
    (s.slot 1).state = .runnable ∧ (s.slot 1).killed = true ∧ Guilty (s.name 1)
    (s.slot 1).pid s.history := by
  have hrun : ((exec step fresh killRun).next?.map fun s => ((s.slot 1).state, (s.slot 1).killed)) =
      some (.runnable, true) := by
    decide +kernel
  have hguard : Guarded step (fun _ a => NonzeroPid a) fresh killRun := by decide +kernel
  obtain ⟨s, hs, heq⟩ := Option.map_eq_some_iff.mp hrun
  simp only [Prod.mk.injEq] at heq
  have hreach := Reach.of_exec (.start fresh_booted) hguard (Outcome.next?_eq_some.mp hs)
  exact ⟨s, hreach, heq.1, heq.2,
    (kill_reaches_its_target s hreach).1 1 (by rw [heq.1]; exact fun hs => by cases hs) heq.2⟩

/-- The first process calls `kill(0)` and then forks. -/
def zeroRun : List Action :=
  [.schedule 0, .kill 0 0, .run 0 true, .run 0 true, .fork 0] ++ List.replicate 4 (.run 0 true)

/-- The new process is killed, and nobody has killed it. -/
theorem kill_zero_marks_free_slot : ∃ s : State, Reach step (fun _ _ => True) Booted s ∧
    (s.slot 1).state = .runnable ∧ (s.slot 1).killed = true ∧
    ¬Guilty (s.name 1) (s.slot 1).pid s.history := by
  have hrun : ((exec step fresh zeroRun).next?.map fun s =>
      ((s.slot 1).state, (s.slot 1).killed, (s.slot 1).pid, s.name 1, s.history)) =
        some (.runnable, true, 2, 1, [.killed 0 0, .forked 0 1]) := by
    decide +kernel
  obtain ⟨s, hs, heq⟩ := Option.map_eq_some_iff.mp hrun
  simp only [Prod.mk.injEq] at heq
  obtain ⟨hstate, hkilled, hpid, hname, hhistory⟩ := heq
  have hreach := Reach.of_exec (.start fresh_booted) (Guarded.of_forall (fun _ _ => trivial) _ _)
    (Outcome.next?_eq_some.mp hs)
  refine ⟨s, hreach, hstate, hkilled, ?_⟩
  rw [hpid, hname, hhistory]
  decide

end Xv6.Procs
