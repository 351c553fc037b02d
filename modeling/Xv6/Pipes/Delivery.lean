import Xv6.Pipes.Sleepers

/-! # What `piperead` returns

A call of `piperead` takes a byte out of the ring before it knows whether `copyout` can store it.
The machine of `Pipes.Model` is watched here together with the bytes that the calls have stored and
returned.
-/

namespace Xv6.Pipes

open Lib

/-- `stored` is what the call in its second loop has stored at its address so far, `returned` what
the calls of `piperead` that are over have returned, one after the other. -/
structure Watched where
  state : State
  stored : List UInt8
  returned : List UInt8

def State.head (s : State) : UInt8 := s.pipe.data (s.pipe.nread % PIPESIZE)

def State.ring (s : State) : List UInt8 :=
  (List.range ((s.pipe.nwrite + (2 ^ 32 - s.pipe.nread)) % 2 ^ 32)).map fun k =>
    s.pipe.data ((s.pipe.nread + k) % 2 ^ 32 % PIPESIZE)

/-- The state after an action that leads to `s'`. A call whose result is `i` returns the first `i`
bytes that it has stored. -/
def Watched.next (w : Watched) (s' : State) : Action → Watched
  | .run p copyout =>
    match (w.state.proc p).pc with
    | .body (.copy n i) =>
      if i < n ∧ ¬ w.state.Empty ∧ copyout = true then ⟨s', w.stored ++ [w.state.head], w.returned⟩
      else ⟨s', [], w.returned ++ w.stored.take i⟩
    | _ => ⟨s', w.stored, w.returned⟩
  | _ => ⟨s', w.stored, w.returned⟩

def watch (N : Nat) (w : Watched) (a : Action) : Outcome Empty Watched :=
  match step N w.state a with
  | .next s' => .next (w.next s' a)
  | .blocked => .blocked
  | .fault f => .fault f

/-- A new pipe, from which nothing has been read. -/
def WatchCreated (w : Watched) : Prop := Created w.state ∧ w.stored = [] ∧ w.returned = []

/-- An iteration of the second loop of `piperead` that finds a byte has a destination that can be
written. -/
def Storable (w : Watched) : Action → Prop
  | .run p copyout =>
    match (w.state.proc p).pc with
    | .body (.copy n i) => i < n → ¬ w.state.Empty → copyout = true
    | _ => True
  | _ => True

/-! ## One process in the loop -/

/-- Only the holder of `pi->lock` is in a loop, and no call leaves its second loop except to
return. -/
structure Exclusive (N : Nat) (s : State) : Prop where
  holder : ∀ p, p < N → (s.proc p).pc.locks = true → s.lock = some p
  proper : ∀ p n i, (s.proc p).pc.call = some (.copy n i) → (s.proc p).pc = .body (.copy n i)

variable {N p q : Nat} {s s' : State} {w w' : Watched}

namespace Exclusive

theorem single (h : Exclusive N s) (hp : p < N) (hq : q < N) (hpl : (s.proc p).pc.locks = true)
    (hql : (s.proc q).pc.locks = true) : p = q :=
  Option.some.inj ((h.holder p hp hpl).symm.trans (h.holder q hq hql))

/-- A process moves on; `s'` differs from `s` in what no process position depends on. -/
theorem move {pc : Pc} (h : Exclusive N s) (hproc : s'.proc = (s.setPc p pc).proc)
    (hlock : ∀ q, q < N → q ≠ p → s.lock = some q → s'.lock = some q)
    (hlocks : pc.locks = true → s'.lock = some p)
    (hcall : ∀ n i, pc.call = some (.copy n i) → pc = .body (.copy n i)) : Exclusive N s' := by
  refine ⟨fun q hq hl => ?_, fun q n i hc => ?_⟩
  · rw [hproc] at hl
    by_cases hqp : q = p
    · subst hqp
      rw [State.setPc_self] at hl
      exact hlocks hl
    · rw [State.setPc_of_ne _ _ hqp] at hl
      exact hlock q hq hqp (h.holder q hq hl)
  · rw [hproc] at hc ⊢
    by_cases hqp : q = p
    · subst hqp
      rw [State.setPc_self] at hc ⊢
      exact hcall n i hc
    · rw [State.setPc_of_ne _ _ hqp] at hc ⊢
      exact h.proper q n i hc

theorem hold {pc : Pc} (h : Exclusive N s) (hp : p < N) (hmine : (s.proc p).pc.locks = true)
    (hproc : s'.proc = (s.setPc p pc).proc) (hlock : s'.lock = s.lock)
    (hcall : ∀ n i, pc.call = some (.copy n i) → pc = .body (.copy n i)) : Exclusive N s' :=
  h.move hproc (fun _ _ _ hq => hlock.trans hq) (fun _ => hlock.trans (h.holder p hp hmine)) hcall

theorem release {pc : Pc} (h : Exclusive N s) (hp : p < N) (hmine : (s.proc p).pc.locks = true)
    (hlocks : pc.locks = false) (hcall : ∀ n i, pc.call ≠ some (.copy n i)) :
    Exclusive N (s.release p pc) := by
  refine h.move rfl (fun q hq hne hl => ?_) (fun hl => ?_) fun n i hc => absurd hc (hcall n i)
  · rw [h.holder p hp hmine] at hl
    exact absurd (Option.some.inj hl).symm hne
  · rw [hlocks] at hl
    cases hl

theorem setKilled (h : Exclusive N s) (p : Nat) (killed : Bool) :
    Exclusive N (s.setKilled p killed) := by
  refine ⟨fun q hq hl => h.holder q hq ?_, fun q n i hc => ?_⟩
  · rw [State.setKilled_pc] at hl
    exact hl
  · rw [State.setKilled_pc] at hc ⊢
    exact h.proper q n i hc

theorem body {c : Call} (h : Exclusive N s) (hp : p < N) (hpc : (s.proc p).pc = .body c)
    (copyout : Bool) : Exclusive N (s.body p copyout c) := by
  have hmine : (s.proc p).pc.locks = true := by rw [hpc]; rfl
  have hnone : ∀ ch next, (∀ c', next = After.sleep c' → ∀ n i, c' ≠ .copy n i) →
      ∀ n i, (Pc.wakeup ch 0 next).call = some (.copy n i) → Pc.wakeup ch 0 next =
          .body (.copy n i) := by
    rintro ch (c' | _) hnext n i hc
    · exact absurd (Option.some.inj hc) (hnext c' rfl n i)
    · cases hc
  cases c with
  | write id n i =>
    change Exclusive N (s.writeLoop p id n i)
    unfold State.writeLoop
    split
    · split
      · exact h.release hp hmine rfl fun _ _ hc => by cases hc
      · split
        · refine h.hold hp hmine rfl rfl (hnone _ _ ?_)
          rintro c' hc' m j rfl
          cases hc'
        · split
          · exact h.hold hp hmine rfl rfl (hnone _ _ fun _ hc => by cases hc)
          · exact h.hold hp hmine rfl rfl fun _ _ hc => by cases hc
    · exact h.hold hp hmine rfl rfl (hnone _ _ fun _ hc => by cases hc)
  | read n =>
    change Exclusive N (s.readLoop p n)
    unfold State.readLoop
    split
    · split
      · exact h.release hp hmine rfl fun _ _ hc => by cases hc
      · exact h.hold hp hmine rfl rfl fun _ _ hc => by cases hc
    · refine h.hold hp hmine rfl rfl fun m j hc => ?_
      cases hc
      rfl
  | copy n i =>
    change Exclusive N (s.copyLoop p n i copyout)
    unfold State.copyLoop
    split
    · split
      · refine h.hold hp hmine rfl rfl fun m j hc => ?_
        cases hc
        rfl
      · exact h.hold hp hmine rfl rfl (hnone _ _ fun _ hc => by cases hc)
    · exact h.hold hp hmine rfl rfl (hnone _ _ fun _ hc => by cases hc)
  | close writable =>
    change Exclusive N (s.closeEnd p writable)
    unfold State.closeEnd
    split
    · exact h.hold hp hmine rfl rfl (hnone _ _ fun _ hc => by cases hc)
    · exact h.hold hp hmine rfl rfl (hnone _ _ fun _ hc => by cases hc)

theorem not_copy {pc : Pc} (h : Exclusive N s) (hpc : ∀ c, (s.proc p).pc ≠ .body c)
    (hcall : pc.call = (s.proc p).pc.call) (n : Int) (i : Nat) : pc.call ≠ some (.copy n i) :=
    fun hc =>
  hpc _ (h.proper p n i (hcall.symm.trans hc))

theorem run (h : Exclusive N s) (hp : p < N) (copyout : Bool) :
    (run N s p copyout).Sat (fun _ => True) (Exclusive N) := by
  unfold Pipes.run
  split
  · exact .blocked
  · rename_i c hpc
    refine .guard fun hfree => ?_
    refine .next (h.move rfl (fun q _ _ hl => ?_) (fun _ => rfl) fun n i hc => ?_)
    · rw [hfree] at hl
      cases hl
    · cases hc
      rfl
  · rename_i hpc
    exact .next (h.body hp hpc copyout)
  · rename_i ch k next hpc
    have hmine : (s.proc p).pc.locks = true := by rw [hpc]; rfl
    have hnot : ∀ c, (s.proc p).pc ≠ .body c := fun c hc => by
      rw [hpc] at hc
      cases hc
    have hnext : ∀ {t : State}, Exclusive N t → t.proc p = s.proc p →
        Exclusive N (t.setPc p (.wakeup ch (k + 1) next)) := by
      intro t ht hsame
      refine ht.hold hp (by rw [hsame]; exact hmine) rfl rfl fun n i hc =>
        absurd hc (h.not_copy hnot ?_ n i)
      rw [hpc]
      cases next <;> rfl
    split
    · split
      · exact .blocked
      · rename_i ch' c hk
        have hkp : p ≠ k := by
          rintro rfl
          rw [hpc] at hk
          cases hk
        split
        · refine .next (hnext (h.move rfl (fun _ _ _ hl => hl)
            (fun hl => by cases hl) fun n i hc => ?_) (s.setPc_of_ne _ hkp))
          refine absurd hc (@not_copy N k s (.enter c) h (fun c' hc' => ?_) (by rw [hk]; rfl) n i)
          rw [hk] at hc'
          cases hc'
        · exact .next (hnext h rfl)
      · exact .next (hnext h rfl)
    · split
      · exact .next (h.hold hp hmine rfl rfl fun n i hc => absurd hc
          (h.not_copy hnot (by rw [hpc]; rfl) n i))
      · exact .next (h.release hp hmine rfl fun _ _ hc => by cases hc)
  · rename_i hpc
    refine .next (h.release hp (by rw [hpc]; rfl) rfl
      (h.not_copy (fun c hc => ?_) (by rw [hpc]; rfl)))
    rw [hpc] at hc
    cases hc
  · rename_i hpc
    refine .next (h.move rfl (fun _ _ _ hl => hl) (fun hl => by cases hl) fun n i hc =>
      absurd hc (h.not_copy (fun c hc' => ?_) (by rw [hpc]; rfl) n i))
    rw [hpc] at hc'
    cases hc'
  · exact .blocked

theorem step (h : Exclusive N s) (a : Action) : (step N s a).Sat (fun _ => True) (Exclusive N) := by
  -- a new call starts outside the loops
  have hcall : ∀ (t : State) (p : Nat) (c : Call), t.proc = s.proc → t.lock = s.lock →
      (∀ n i, c ≠ .copy n i) → Exclusive N (t.setPc p (.enter c)) := by
    intro t p c hproc hlock hc
    refine @move N p s (t.setPc p (.enter c)) (.enter c) h ?_ (fun _ _ _ hl => hlock.trans hl)
        (fun hl => by cases hl) fun n i heq =>
      absurd (Option.some.inj heq) (hc n i)
    unfold State.setPc
    rw [hproc]
  refine .guard fun hactor => ?_
  cases a with
  | spawn p => exact .guard fun _ => .next (h.setKilled p false)
  | pipewrite p src n =>
    exact .guard fun _ => .next (hcall _ p _ rfl rfl fun _ _ heq => by cases heq)
  | piperead p n => exact .guard fun _ => .next (hcall _ p _ rfl rfl fun _ _ heq => by cases heq)
  | pipeclose p writable =>
    exact .guard fun _ => .next (hcall _ p _ rfl rfl fun _ _ heq => by cases heq)
  | run p copyout => exact h.run hactor copyout
  | kill p =>
    unfold effect
    dsimp only
    split
    · exact .blocked
    · rename_i hpc
      refine .next ((h.setKilled p true).move rfl (fun _ _ _ hl => hl)
          (fun hl => by cases hl) fun n i hc =>
        absurd hc (@not_copy N p s _ h (fun c hc' => ?_) (by rw [hpc]; rfl) n i))
      rw [hpc] at hc'
      cases hc'
    · exact .next (h.setKilled p true)

theorem start (h : Created s) : Exclusive N s := by
  obtain ⟨-, -, -, -, -, huser, -⟩ := h
  refine ⟨fun p _ hl => ?_, fun p n i hc => ?_⟩
  · rw [huser p] at hl
    cases hl
  · rw [huser p] at hc
    cases hc

end Exclusive

/-! ## Steps outside the second loop of `piperead` -/

/-- Process `q` is in the second loop of `piperead` after the step as it was before, or has just
come to it. -/
def Resumes (s s' : State) (q : Nat) : Prop := ∀ n i,
  ((s'.proc q).pc = .body (.copy n i) ↔ (s.proc q).pc = .body (.copy n i)) ∨ i = 0 ∧ (s.proc q).pc =
  .body (.read n)

theorem Resumes.of_eq (h : (s'.proc q).pc = (s.proc q).pc) : Resumes s s' q :=
  fun n i => .inl (by rw [h])

theorem Resumes.setPc {pc : Pc} (hproc : s'.proc = (s.setPc p pc).proc)
    (hold : ∀ n i, (s.proc p).pc ≠ .body (.copy n i))
    (hnew : ∀ n i, pc = .body (.copy n i) → i = 0 ∧ (s.proc p).pc = .body (.read n)) (q : Nat) :
    Resumes s s' q := by
  intro n i
  rw [hproc]
  by_cases hq : q = p
  · subst hq
    rw [State.setPc_self]
    by_cases hpc : pc = .body (.copy n i)
    · exact .inr (hnew n i hpc)
    · exact .inl (iff_of_false hpc (hold n i))
  · rw [State.setPc_of_ne _ _ hq]
    exact .inl Iff.rfl

theorem Resumes.trans {t : State} (h : Resumes s t q) (h' : Resumes t s' q)
    (hsame : (t.proc q).pc = (s.proc q).pc ∨ (s'.proc q).pc = (t.proc q).pc) : Resumes s s' q := by
  rcases hsame with hsame | hsame
  · intro n i
    rw [← hsame]
    exact h' n i
  · intro n i
    rw [hsame]
    exact h n i

theorem body_other {c : Call} (hpc : (s.proc p).pc = .body c) (hc : ∀ n i, c ≠ .copy n i)
    (copyout : Bool) :
    (s.body p copyout c).taken = s.taken ∧ ∀ q, Resumes s (s.body p copyout c) q := by
  have hold : ∀ n i, (s.proc p).pc ≠ .body (.copy n i) := by
    intro n i heq
    rw [hpc] at heq
    exact hc n i (Pc.body.inj heq)
  have hmove : ∀ {t : State} {pc : Pc}, t.taken = s.taken → t.proc = (s.setPc p pc).proc →
      (∀ n i, pc ≠ .body (.copy n i)) →
      t.taken = s.taken ∧ ∀ q, Resumes s t q := fun ht hproc hnew =>
    ⟨ht, Resumes.setPc hproc hold fun n i heq => absurd heq (hnew n i)⟩
  cases c with
  | write id n i =>
    change (s.writeLoop p id n i).taken = s.taken ∧ ∀ q, Resumes s (s.writeLoop p id n i) q
    unfold State.writeLoop
    split
    · split
      · exact hmove rfl rfl fun _ _ h => by cases h
      · split
        · exact hmove rfl rfl fun _ _ h => by cases h
        · split
          · exact hmove rfl rfl fun _ _ h => by cases h
          · exact hmove rfl rfl fun _ _ h => by cases h
    · exact hmove rfl rfl fun _ _ h => by cases h
  | read n =>
    change (s.readLoop p n).taken = s.taken ∧ ∀ q, Resumes s (s.readLoop p n) q
    unfold State.readLoop
    split
    · split
      · exact hmove rfl rfl fun _ _ h => by cases h
      · exact hmove rfl rfl fun _ _ h => by cases h
    · refine ⟨rfl, Resumes.setPc rfl hold fun m i heq => ?_⟩
      cases heq
      exact ⟨rfl, hpc⟩
  | copy n i => exact absurd rfl (hc n i)
  | close writable =>
    change (s.closeEnd p writable).taken = s.taken ∧ ∀ q, Resumes s (s.closeEnd p writable) q
    unfold State.closeEnd
    split
    · exact hmove rfl rfl fun _ _ h => by cases h
    · exact hmove rfl rfl fun _ _ h => by cases h

theorem run_other (hx : Exclusive N s) (copyout : Bool)
    (hc : ∀ n i, (s.proc p).pc ≠ .body (.copy n i)) :
    (run N s p copyout).Sat (fun _ => True) fun s' => s'.taken = s.taken ∧ ∀ q, Resumes s s' q := by
  have hmove : ∀ {t : State} {pc : Pc}, t.taken = s.taken → t.proc = (s.setPc p pc).proc →
      (∀ n i, pc ≠ .body (.copy n i)) →
      t.taken = s.taken ∧ ∀ q, Resumes s t q := fun ht hproc hnew =>
    ⟨ht, Resumes.setPc hproc hc fun n i heq => absurd heq (hnew n i)⟩
  unfold Pipes.run
  split
  · exact .blocked
  · rename_i c hpc
    refine .guard fun _ => ?_
    refine .next (hmove rfl rfl fun n i heq => ?_)
    -- a call that waits for the lock is not in its second loop
    have hcall : (s.proc p).pc.call = some (.copy n i) := by
      rw [hpc, ← Pc.body.inj heq]
      rfl
    exact hc n i (hx.proper p n i hcall)
  · rename_i c hpc
    exact .next (body_other hpc (fun n i heq => hc n i (by rw [hpc, heq])) copyout)
  · rename_i ch k next hpc
    split
    · split
      · exact .blocked
      · rename_i ch' c hk
        have hkp : k ≠ p := by
          rintro rfl
          rw [hpc] at hk
          cases hk
        split
        · refine .next ⟨rfl, fun q => ?_⟩
          have hwoken : Resumes s (s.setPc k (.enter c)) q :=
            Resumes.setPc rfl (fun n i heq => by rw [hk] at heq; cases heq)
              (fun n i heq => by cases heq) q
          have hpast : Resumes (s.setPc k (.enter c))
              ((s.setPc k (.enter c)).setPc p (.wakeup ch (k + 1) next)) q :=
            Resumes.setPc rfl (fun n i heq => hc n
              i (by rw [State.setPc_of_ne _ _ hkp.symm] at heq; exact heq))
              (fun n i heq => by cases heq) q
          refine hwoken.trans hpast ?_
          by_cases hq : q = p
          · subst hq
            exact .inl (by rw [State.setPc_of_ne _ _ hkp.symm])
          · exact .inr (by rw [State.setPc_of_ne _ _ hq])
        · exact .next (hmove rfl rfl fun _ _ h => by cases h)
      · exact .next (hmove rfl rfl fun _ _ h => by cases h)
    · split
      · exact .next (hmove rfl rfl fun _ _ h => by cases h)
      · exact .next (hmove rfl rfl fun _ _ h => by cases h)
  · exact .next (hmove rfl rfl fun _ _ h => by cases h)
  · exact .next (hmove rfl rfl fun _ _ h => by cases h)
  · exact .blocked

theorem step_other (hx : Exclusive N s) {a : Action}
    (ha : ∀ p b, a = .run p b → ∀ n i, (s.proc p).pc ≠ .body (.copy n i)) :
    (step N s a).Sat (fun _ => True) fun s' => s'.taken = s.taken ∧ ∀ q, Resumes s s' q := by
  have hcall : ∀ {t : State} {c : Call} {p : Nat}, (s.proc p).pc = .user → t.taken = s.taken →
      t.proc = (s.setPc p (.enter c)).proc → t.taken = s.taken ∧ ∀ q, Resumes s t q := by
    intro t c p hpc ht hproc
    refine ⟨ht, Resumes.setPc hproc (fun n i heq => ?_) fun n i heq => by cases heq⟩
    rw [hpc] at heq
    cases heq
  refine .guard fun _ => ?_
  cases a with
  | spawn p => exact .guard fun _ => .next ⟨rfl, fun q => .of_eq (State.setKilled_pc _ _ _ _)⟩
  | pipewrite p src n => exact .guard fun hpc => .next (hcall hpc rfl rfl)
  | piperead p n => exact .guard fun hpc => .next (hcall hpc rfl rfl)
  | pipeclose p writable => exact .guard fun hpc => .next (hcall hpc rfl rfl)
  | run p copyout => exact run_other hx copyout (ha p copyout rfl)
  | kill p =>
    unfold effect
    dsimp only
    split
    · exact .blocked
    · rename_i hpc
      refine .next ⟨rfl, fun q => ?_⟩
      have hflag : Resumes s (s.setKilled p true) q := .of_eq (State.setKilled_pc _ _ _ _)
      refine hflag.trans (Resumes.setPc rfl (fun n i heq => ?_) (fun n i heq => by cases heq) q)
        (.inl (State.setKilled_pc _ _ _ _))
      rw [State.setKilled_pc, hpc] at heq
      cases heq
    · exact .next ⟨rfl, fun q => .of_eq (State.setKilled_pc _ _ _ _)⟩

/-! ## The bytes of the calls -/

/-- The bytes stored are those of the process in its second loop. -/
structure Counted (N : Nat) (w : Watched) : Prop where
  exclusive : Exclusive N w.state
  fifo : Fifo w.state
  count : ∀ p n i, p < N → (w.state.proc p).pc = .body (.copy n i) → w.stored.length = i
  idle : (∀ p n i, p < N → (w.state.proc p).pc ≠ .body (.copy n i)) → w.stored = []

/-- No byte has been taken out of the ring that was not stored. -/
def Lossless (w : Watched) : Prop := w.returned ++ w.stored = w.state.taken

namespace Counted

variable {n : Int} {i : Nat} {copyout : Bool}

/-- An iteration of the second loop: it goes on with one more byte, or the call is over. -/
theorem copy (h : Counted N w) (hp : p < N) (hpc : (w.state.proc p).pc = .body (.copy n i)) :
    Counted N (w.next (w.state.copyLoop p n i copyout) (.run p copyout)) ∧
      (Lossless w → (Lossless (w.next (w.state.copyLoop p n i copyout) (.run p copyout)) ↔
        (i < n → ¬ w.state.Empty → copyout = true))) := by
  have hcount := h.count p n i hp hpc
  have hexcl : Exclusive N (w.state.copyLoop p n i copyout) := h.exclusive.body hp hpc copyout
  have hfifo : Fifo (w.state.copyLoop p n i copyout) := h.fifo.body copyout hpc
  have hmine : (w.state.proc p).pc.locks = true := by rw [hpc]; rfl
  -- the other processes are in no loop
  have hothers : ∀ q m j, q < N → q ≠ p → (w.state.proc q).pc ≠ .body (.copy m j) := by
    intro q m j hq hne heq
    exact hne (h.exclusive.single hq hp (by rw [heq]; rfl) hmine)
  have hover : ∀ {t : State} {pc : Pc}, t = w.state.copyLoop p n i copyout →
      t.proc = (w.state.setPc p pc).proc →
      (∀ m j, pc ≠ .body (.copy m j)) → Counted N ⟨t, [], w.returned ++ w.stored.take i⟩ := by
    rintro t pc rfl hproc hnot
    refine ⟨hexcl, hfifo, fun q m j hq heq => ?_, fun _ => rfl⟩
    rw [hproc] at heq
    by_cases hqp : q = p
    · subst hqp
      rw [State.setPc_self] at heq
      exact absurd heq (hnot m j)
    · rw [State.setPc_of_ne _ _ hqp] at heq
      exact absurd heq (hothers q m j hq hqp)
  have hall : w.stored.take i = w.stored := by rw [← hcount, List.take_length]
  unfold Watched.next
  simp only [hpc]
  by_cases hmore : i < n ∧ ¬ w.state.Empty
  · cases copyout with
    | true =>
      rw [if_pos ⟨hmore.1, hmore.2, rfl⟩]
      have hloop : w.state.copyLoop p n i true = w.state.fetch.setPc p
          (.body (.copy n (i + 1))) := by
        unfold State.copyLoop
        rw [if_pos hmore, if_pos rfl]
      refine ⟨⟨hexcl, hfifo, fun q m j hq heq => ?_, fun hidle => ?_⟩,
        fun hl => iff_of_true ?_ fun _ _ => rfl⟩
      · rw [List.length_append, List.length_singleton, hcount]
        rw [hloop] at heq
        by_cases hqp : q = p
        · subst hqp
          rw [State.setPc_self] at heq
          cases heq
          rfl
        · rw [State.setPc_of_ne _ _ hqp] at heq
          exact absurd heq (hothers q m j hq hqp)
      · refine absurd ?_ (hidle p n (i + 1) hp)
        rw [hloop, State.setPc_self]
      · unfold Lossless at hl ⊢
        rw [hloop, ← List.append_assoc, hl]
        rfl
    | false =>
      have hloop : w.state.copyLoop p n i false = w.state.fetch.setPc p
          (.wakeup .nwrite 0 .leave) := by
        unfold State.copyLoop
        rw [if_pos hmore, if_neg Bool.false_ne_true]
      rw [if_neg (by simp)]
      refine ⟨hover rfl (by rw [hloop]; rfl) (fun _ _ heq => by cases heq),
        fun hl => iff_of_false (fun hl' => ?_) fun hgood => ?_⟩
      · -- one byte is gone
        unfold Lossless at hl hl'
        rw [hloop, hall, List.append_nil, hl] at hl'
        exact absurd (congrArg List.length hl') (by simp [State.setPc, State.fetch])
      · exact absurd (hgood hmore.1 hmore.2) Bool.false_ne_true
  · have hloop : w.state.copyLoop p n i copyout = w.state.setPc p (.wakeup .nwrite 0 .leave) := by
      unfold State.copyLoop
      rw [if_neg hmore]
    rw [if_neg fun hc => hmore ⟨hc.1, hc.2.1⟩]
    refine ⟨hover rfl (by rw [hloop]) (fun _ _ heq => by cases heq),
      fun hl => iff_of_true ?_ fun h₁ h₂ => absurd ⟨h₁, h₂⟩ hmore⟩
    unfold Lossless at hl ⊢
    rw [hloop, hall, List.append_nil, hl]
    rfl

theorem other (h : Counted N w) (hfifo : Fifo s') (hexcl : Exclusive N s')
    (htaken : s'.taken = w.state.taken) (hres : ∀ q, Resumes w.state s' q) :
    Counted N ⟨s', w.stored, w.returned⟩ ∧
      (Lossless w → Lossless ⟨s', w.stored, w.returned⟩) := by
  refine ⟨⟨hexcl, hfifo, fun q n i hq heq => ?_, fun hidle => h.idle fun q n i hq heq => ?_⟩,
    fun hl => ?_⟩
  · rcases hres q n i with hsame | ⟨rfl, hread⟩
    · exact h.count q n i hq (hsame.mp heq)
    · -- a process that comes to the loop is the only one
      rw [h.idle fun r m j hr hcopy => ?_]
      · rfl
      · obtain rfl := h.exclusive.single hr hq (by rw [hcopy]; rfl) (by rw [hread]; rfl)
        rw [hread] at hcopy
        cases hcopy
  · rcases hres q n i with hsame | ⟨-, hread⟩
    · exact hidle q n i hq (hsame.mpr heq)
    · rw [hread] at heq
      cases heq
  · unfold Lossless at hl ⊢
    rw [htaken]
    exact hl

end Counted

theorem watch_step (h : Counted N w) {a : Action} (hstep : watch N w a = .next w') :
    Counted N w' ∧ (Lossless w → (Lossless w' ↔ Storable w a)) := by
  unfold watch at hstep
  cases hs : step N w.state a with
  | blocked =>
    rw [hs] at hstep
    cases hstep
  | fault f => exact by cases f
  | next s' =>
    rw [hs] at hstep
    obtain rfl := Outcome.next.inj hstep
    have hexcl := (h.exclusive.step a).of_next hs
    have hfifo := (h.fifo.step a).of_next hs
    by_cases hcopy : ∃ p b n i, a = .run p b ∧ (w.state.proc p).pc = .body (.copy n i)
    · obtain ⟨p, b, n, i, rfl, hpc⟩ := hcopy
      have hp : p < N := by
        unfold step at hs
        split at hs
        · assumption
        · cases hs
      have hs' : s' = w.state.copyLoop p n i b := by
        have hrun : step N w.state (.run p b) = run N w.state p b := if_pos hp
        rw [hrun] at hs
        unfold run at hs
        simp only [hpc] at hs
        exact (Outcome.next.inj hs).symm
      subst hs'
      have hst : Storable w (.run p b) = (i < n → ¬ w.state.Empty → b = true) := by
        unfold Storable
        simp only [hpc]
      rw [hst]
      exact h.copy hp hpc
    · have hnot : ∀ p b, a = .run p b → ∀ n i, (w.state.proc p).pc ≠ .body (.copy n i) :=
        fun p b ha n i hpc => hcopy ⟨p, b, n, i, ha, hpc⟩
      obtain ⟨htaken, hres⟩ := (step_other h.exclusive hnot).of_next hs
      obtain ⟨hc, hl⟩ := h.other hfifo hexcl htaken hres
      cases a with
      | run p b =>
        have hpc := hnot p b rfl
        have hst : Storable w (.run p b) := by
          unfold Storable
          dsimp only
          split
          · rename_i heq
            exact absurd heq (hpc _ _)
          · trivial
        have hnext : w.next s' (.run p b) = ⟨s', w.stored, w.returned⟩ := by
          unfold Watched.next
          dsimp only
          split
          · rename_i heq
            exact absurd heq (hpc _ _)
          · rfl
        rw [hnext]
        exact ⟨hc, fun h' => iff_of_true (hl h') hst⟩
      | spawn p => exact ⟨hc, fun h' => iff_of_true (hl h') trivial⟩
      | pipewrite p src n => exact ⟨hc, fun h' => iff_of_true (hl h') trivial⟩
      | piperead p n => exact ⟨hc, fun h' => iff_of_true (hl h') trivial⟩
      | pipeclose p writable => exact ⟨hc, fun h' => iff_of_true (hl h') trivial⟩
      | kill p => exact ⟨hc, fun h' => iff_of_true (hl h') trivial⟩

theorem Counted.start (h : WatchCreated w) : Counted N w ∧ Lossless w := by
  obtain ⟨hcreated, hstored, hreturned⟩ := h
  refine ⟨⟨.start hcreated, .start hcreated, fun p n i _ heq => ?_, fun _ => hstored⟩, ?_⟩
  · obtain ⟨-, -, -, -, -, huser, -⟩ := hcreated
    rw [huser p] at heq
    cases heq
  · obtain ⟨-, -, -, -, -, -, -, -, htaken⟩ := hcreated
    unfold Lossless
    rw [hstored, hreturned, htaken]
    rfl

theorem Fifo.put_eq (h : Fifo s) : s.put.map Prod.snd = s.taken ++ s.ring := by
  obtain ⟨-, rest, hrest, hlen, hcell⟩ := h.waiting
  have hring : rest = s.ring := by
    unfold State.ring
    refine List.ext_getElem ?_ fun k h₁ h₂ => ?_
    · rw [List.length_map, List.length_range, hlen]
    · rw [List.getElem_map, List.getElem_range, hcell k h₁]
  rw [hrest, hring]

/-- In every run in which each byte that a call of `piperead` takes has a destination that can be
written, the bytes that the calls have returned, those stored by a call that is still in its loop,
and the bytes in the ring are together the bytes that `pipewrite` has put in. In such a run the step
that loses a byte is exactly one without a writable destination. -/
theorem piperead_loses_nothing (N : Nat) (w : Watched)
    (hreach : Reach (watch N) Storable WatchCreated w) :
    w.returned ++ w.stored ++ w.state.ring = w.state.put.map Prod.snd ∧
    ((∀ p, p < N → (w.state.proc p).pc.locks = false) → w.stored = []) ∧
    ∀ a w', watch N w a = .next w' →
      (w'.returned ++ w'.stored ++ w'.state.ring = w'.state.put.map Prod.snd ↔ Storable w a) := by
  have hiff : ∀ v, Counted N v →
      (v.returned ++ v.stored ++ v.state.ring = v.state.put.map Prod.snd ↔ Lossless v) := by
    intro v hv
    rw [hv.fifo.put_eq]
    exact ⟨List.append_cancel_right, fun hl => congrArg (· ++ v.state.ring) hl⟩
  have h : Counted N w ∧ Lossless w := by
    refine hreach.invariant (fun _ => Counted.start) fun v a v' hv hok hstep => ?_
    obtain ⟨hc, hl⟩ := watch_step hv.1 hstep
    exact ⟨hc, (hl hv.2).mpr hok⟩
  refine ⟨(hiff w h.1).mpr h.2, fun hfree => h.1.idle fun p n i hp heq => ?_, fun a w' hstep => ?_⟩
  · have hl := hfree p hp
    rw [heq] at hl
    cases hl
  · obtain ⟨hc, hl⟩ := watch_step h.1 hstep
    exact (hiff w' hc).trans (hl h.2)

def watched : Watched := ⟨fresh, [], []⟩

theorem watched_created : WatchCreated watched := ⟨fresh_created, rfl, rfl⟩

instance (w : Watched) : (a : Action) → Decidable (Storable w a)
  | .run p copyout => by
    unfold Storable
    dsimp only
    split <;> infer_instance
  | .spawn _ | .pipewrite .. | .piperead .. | .pipeclose .. | .kill _ => isTrue trivial

/-- Process 0 writes the byte 7 and process 1 reads one byte; `copyout` says whether its address is
good. -/
def byteRun (copyout : Bool) : List Action :=
  [.pipewrite 0 (fun _ => some 7) 1] ++ List.replicate 6 (.run 0 true) ++ [.piperead 1 1] ++
    List.replicate 2 (.run 1 true) ++ List.replicate (if copyout then 5 else 4) (.run 1 copyout)

theorem piperead_loses_nothing_byteRun : ∃ w, Reach (watch 2) Storable WatchCreated w ∧
    w.returned = [7] ∧ w.returned ++ w.stored ++ w.state.ring = w.state.put.map Prod.snd := by
  have hrun : ((exec (watch 2) watched (byteRun true)).next?.map fun w => w.returned) =
      some [7] := by
    decide +kernel
  obtain ⟨w, hw, heq⟩ := Option.map_eq_some_iff.mp hrun
  have hguard : Guarded (watch 2) Storable watched (byteRun true) := by decide +kernel
  have hreach := Reach.of_exec (.start watched_created) hguard (Outcome.next?_eq_some.mp hw)
  exact ⟨w, hreach, heq, (piperead_loses_nothing 2 w hreach).1⟩

/-- A read with a bad address returns 0 bytes and takes one out of the pipe: it is neither returned
nor in the ring. -/
theorem piperead_bad_address_loses_byte : ∃ w, Reach (watch 2) (fun _ _ => True) WatchCreated w ∧
    (w.state.proc 0).pc = .user ∧ (w.state.proc 1).pc = .user ∧ w.state.put.map Prod.snd = [7] ∧
    w.returned = [] ∧ w.stored = [] ∧ w.state.ring = [] ∧
    w.returned ++ w.stored ++ w.state.ring ≠ w.state.put.map Prod.snd := by
  have hrun : ((exec (watch 2) watched (byteRun false)).next?.map fun w =>
      (decide ((w.state.proc 0).pc = .user ∧ (w.state.proc 1).pc = .user), w.state.put.map Prod.snd,
        w.returned, w.stored, w.state.ring)) = some (true, [7], [], [], []) := by
    decide +kernel
  obtain ⟨w, hw, heq⟩ := Option.map_eq_some_iff.mp hrun
  simp only [Prod.mk.injEq] at heq
  obtain ⟨huser, hput, hret, hst, hring⟩ := heq
  obtain ⟨h₀, h₁⟩ := of_decide_eq_true huser
  have hreach := Reach.of_exec (.start watched_created) (Guarded.of_forall (fun _ _ => trivial) _ _)
    (Outcome.next?_eq_some.mp hw)
  refine ⟨w, hreach, h₀, h₁, hput, hret, hst, hring, ?_⟩
  rw [hret, hst, hring, hput]
  decide

end Xv6.Pipes
