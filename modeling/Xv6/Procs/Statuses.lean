import Xv6.Procs.Slots

/-! # Exit statuses

A process that exits leaves its status in its slot, and `wait(addr)` copies it from there to
`addr` and frees the slot, while other processes fork, exit and wait. No status gets changed on the
way, none is delivered twice, also when slots are used again, and none is lost but by `wait(0)`.
-/

namespace Xv6.Procs

open Function Lib

/-! ## What matters to a status -/

def Slot.left (x : Slot) : Option Int := if x.state = .zombie then some x.xstate else none

/-- Whether the slot is free, and the status. -/
def Slot.fate (x : Slot) : Bool × Option Int := (x.state == .unused, x.left)

/-- The two ends of a process: its exit, and its return from `wait`. -/
def Event.ends : Event → Option (Nat × Bool)
  | .exited x _ => some (x, false)
  | .reaped _ x _ => some (x, true)
  | _ => none

/-- The processes so far and their ends. -/
def State.past (s : State) : (Nat → Nat) × Nat × List Event :=
  (s.name, s.born, s.history.filter (·.ends.isSome))

section Steps

variable {s s' : State} {p q : Nat} {pc : Pc} {x y : Slot} {a : Action} {e : Event}

theorem past_mem (h : s'.past = s.past) (he : e.ends.isSome = true) :
    e ∈ s'.history ↔ e ∈ s.history := by
  simpa [State.past, he] using congrArg (fun past => e ∈ past.2.2) h

theorem past_ends (h : s'.past = s.past) :
    s'.history.filterMap Event.ends = s.history.filterMap Event.ends := by
  have hfilter : ∀ l : List Event, (l.filter (·.ends.isSome)).filterMap Event.ends =
      l.filterMap Event.ends := by
    intro l
    rw [List.filterMap_filter]
    congr
    funext e
    cases e <;> rfl
  rw [← hfilter, ← hfilter s.history]
  exact congrArg (fun past => past.2.2.filterMap Event.ends) h

/-- A step that neither makes nor ends a process. -/
structure Aside (s s' : State) : Prop where
  slots : ∀ q, (s'.slot q).fate = (s.slot q).fate
  past : s'.past = s.past

/-- The steps by their effect on the statuses. -/
inductive Turn (s : State) : State → Prop where
  | aside {s' : State} (h : Aside s s') : Turn s s'
  | fork {p q : Nat} {pc : Pc} (hunused : (s.slot q).state = .unused) :
      Turn s ((s.allocproc p q).setPc p pc)
  | exit {p : Nat} {pc : Pc} {status : Int} (hp : p < NPROC)
      (hlive : (s.slot p).state.live = true) :
      Turn s (((s.setSlot p { s.slot p with
        locked := true, xstate := status, state := .zombie }).setPc p pc).record
          (.exited (s.name p) status))
  | reap {p q addr : Nat} {pc : Pc} (hzombie : (s.slot q).state = .zombie) :
      Turn s ((s.reap p q addr).setPc p pc)

theorem fate_update (hx : x.fate = (s.slot q).fate) (r : Nat) :
    (update s.slot q x r).fate = (s.slot r).fate := by
  by_cases hr : r = q
  · rw [hr, update_self, hx]
  · rw [update_of_ne hr]

theorem Turn.slot (hslot : s'.slot = update s.slot q x) (hx : x.fate = (s.slot q).fate)
    (hpast : s'.past = s.past) : Turn s s' :=
  .aside ⟨fun r => by rw [hslot]; exact fate_update hx r, hpast⟩

theorem Turn.same (hslot : s'.slot = s.slot) (hpast : s'.past = s.past) : Turn s s' :=
  .aside ⟨fun r => by rw [hslot], hpast⟩

/-- Each exit and each return from `wait` is recorded once. -/
structure Ledger (s : State) : Prop where
  name : ∀ q, (s.slot q).state ≠ .unused → s.name q < s.born
  distinct : ∀ q r, (s.slot q).state ≠ .unused → (s.slot r).state ≠ .unused →
    s.name q = s.name r → q = r
  here : ∀ q y r, (s.slot q).state ≠ .unused → .reaped y (s.name q) r ∉ s.history
  left : ∀ q st, (s.slot q).state ≠ .unused →
    (.exited (s.name q) st ∈ s.history ↔ (s.slot q).left = some st)
  exited : ∀ x st, .exited x st ∈ s.history →
    x < s.born ∧ ((∃ q, q < NPROC ∧ s.name q = x ∧ (s.slot q).left = some st) ∨
      ∃ y r, .reaped y x r ∈ s.history ∧ (r = some st ∨ r = none))
  reaped : ∀ y x r, .reaped y x r ∈ s.history →
    x < s.born ∧ ∃ st, .exited x st ∈ s.history ∧ (r = some st ∨ r = none)
  once : (s.history.filterMap Event.ends).Nodup

theorem Slot.ne_unused (h : x.state = .zombie) : x.state ≠ .unused := by
  rw [h]
  exact fun hs => by cases hs

theorem Slot.fate_unused (h : x.fate = y.fate) : x.state = .unused ↔ y.state = .unused := by
  simpa [Slot.fate] using congrArg (fun fate => fate.1 = true) h

theorem Event.mem_ends {x : Nat} {b : Bool} {l : List Event} (h : (x, b) ∈ l.filterMap Event.ends) :
    (∃ st, b = false ∧ .exited x st ∈ l) ∨ ∃ y r, .reaped y x r ∈ l := by
  obtain ⟨e, he, hends⟩ := List.mem_filterMap.mp h
  cases e with
  | exited x' st =>
    cases hends
    exact .inl ⟨st, rfl, he⟩
  | reaped y x' r =>
    cases hends
    exact .inr ⟨y, r, he⟩
  | _ => cases hends

theorem Ledger.record_once (h : Ledger s) {e : Event} {x : Nat × Bool} (he : e.ends = some x)
    (hx : x ∉ s.history.filterMap Event.ends) :
    ((s.history ++ [e]).filterMap Event.ends).Nodup := by
  rw [List.filterMap_append, List.nodup_append]
  refine ⟨h.once, by simp [he], fun a ha b hb hab => hx ?_⟩
  rw [List.filterMap_cons_some he, List.filterMap_nil, List.mem_singleton] at hb
  rwa [← hb, ← hab]

theorem Ledger.aside (h : Ledger s) (ha : Aside s s') : Ledger s' := by
  have hunused := fun q => Slot.fate_unused (ha.slots q)
  have hleft : ∀ q, (s'.slot q).left = (s.slot q).left := fun q => congrArg Prod.snd (ha.slots q)
  have hname : s'.name = s.name := congrArg Prod.fst ha.past
  have hborn : s'.born = s.born := congrArg (fun past => past.2.1) ha.past
  have hexit := fun x st => @past_mem s s' (.exited x st) ha.past rfl
  have hreap := fun y x r => @past_mem s s' (.reaped y x r) ha.past rfl
  constructor <;> simp only [ne_eq, hunused, hleft, hname, hborn, hexit, hreap, past_ends ha.past]
  exacts [h.name, h.distinct, h.here, h.left, h.exited, h.reaped, h.once]

theorem Ledger.fork (h : Ledger s) (hunused : (s.slot q).state = .unused) :
    Ledger ((s.allocproc p q).setPc p pc) := by
  constructor
  case exited =>
    intro x st hmem
    simp only [State.allocproc, State.setPc, State.setSlot, State.record] at hmem ⊢
    obtain ⟨hx, hq⟩ := h.exited x st (by grind)
    refine ⟨by omega, hq.imp (Exists.imp fun r hr => ?_)
      (Exists.imp fun y => Exists.imp fun r hr => ?_)⟩ <;> grind [Slot.left]
  all_goals
    simp only [State.allocproc, State.setPc, State.setSlot, State.record]
    grind [Ledger, update_apply, Slot.left, Event.ends]

theorem Ledger.exit {status : Int} (h : Ledger s) (hp : p < NPROC)
    (hlive : (s.slot p).state.live = true) :
    Ledger (((s.setSlot p { s.slot p with
      locked := true, xstate := status, state := .zombie }).setPc p pc).record
      (.exited (s.name p) status)) := by
  have hused : (s.slot p).state ≠ .unused := by
    intro hs
    rw [hs] at hlive
    cases hlive
  have hleft : (s.slot p).left = none := by
    unfold Slot.left
    split
    · rename_i hs
      rw [hs] at hlive
      cases hlive
    · rfl
  have hnot : ∀ st, .exited (s.name p) st ∉ s.history := fun st hmem => by
    have := (h.left p st hused).mp hmem
    rw [hleft] at this
    cases this
  constructor <;> simp only [State.setPc, State.setSlot, State.record]
  case exited =>
    intro x st hmem
    rcases List.mem_append.mp hmem with hmem | hmem
    · obtain ⟨hx, hq⟩ := h.exited x st hmem
      refine ⟨hx, hq.imp (Exists.imp fun r hr => ?_)
        (Exists.imp fun y => Exists.imp fun r hr => ⟨List.mem_append_left _ hr.1, hr.2⟩)⟩
      grind
    · cases List.mem_singleton.mp hmem
      refine ⟨h.name p hused, .inl ⟨p, hp, rfl, ?_⟩⟩
      rw [update_self]
      rfl
  case once =>
    refine h.record_once rfl fun hmem => ?_
    rcases Event.mem_ends hmem with ⟨st, -, hst⟩ | ⟨y, st, hst⟩
    · exact hnot st hst
    · exact h.here p y st hused hst
  all_goals grind [Ledger, Slot.left]

theorem Ledger.reap {addr : Nat} (h : Ledger s) (hzombie : (s.slot q).state = .zombie) :
    Ledger ((s.reap p q addr).setPc p pc) := by
  have hgiven : (if addr ≠ 0 then some (s.slot q).xstate else none) = some (s.slot q).xstate ∨
      (if addr ≠ 0 then some (s.slot q).xstate else none) = none := by
    split
    exacts [.inl rfl, .inr rfl]
  have hused := Slot.ne_unused hzombie
  have hleft : (s.slot q).left = some (s.slot q).xstate := if_pos hzombie
  constructor <;> simp only [State.reap, State.setPc, State.setSlot, State.record]
  case exited =>
    intro x st hmem
    obtain ⟨hx, ⟨r, hr, rfl, hst⟩ | ⟨y, r, hy, hr⟩⟩ := h.exited x st (by grind)
    · refine ⟨hx, ?_⟩
      by_cases hrq : r = q
      · subst hrq
        cases hleft.symm.trans hst
        exact .inr ⟨s.name p, _, List.mem_append_right _ (List.mem_singleton_self _), hgiven⟩
      · exact .inl ⟨r, hr, rfl, by rwa [update_of_ne hrq]⟩
    · exact ⟨hx, .inr ⟨y, r, List.mem_append_left _ hy, hr⟩⟩
  case once =>
    refine h.record_once rfl fun hmem => ?_
    rcases Event.mem_ends hmem with ⟨st, hb, -⟩ | ⟨y, st, hst⟩
    · cases hb
    · exact h.here q y st hused hst
  case reaped =>
    intro y x r hmem
    rcases List.mem_append.mp hmem with hmem | hmem
    · obtain ⟨hx, st, hexited, hr⟩ := h.reaped y x r hmem
      exact ⟨hx, st, List.mem_append_left _ hexited, hr⟩
    · cases List.mem_singleton.mp hmem
      exact ⟨h.name q hused, _, List.mem_append_left _ ((h.left q _ hused).mpr hleft), hgiven⟩
  all_goals grind [Ledger, Slot.left, Slot.free]

theorem Ledger.booted (h : Booted s) : Ledger s := by
  have hslot := congrFun h.1
  obtain ⟨hname, hborn, hhistory⟩ := h.2.2.2.2.2
  constructor <;> grind [Slot.free, Slot.left]

end Steps

end Xv6.Procs
