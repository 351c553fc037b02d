import Xv6.Pipes.Fifo

/-! # Sleepers of a pipe

A process that sleeps on a pipe has its reason in the state of the pipe, or the holder of
`pi->lock` is going to wake it. A writer whose `killed` flag is set after it has put bytes in
leaves without a `wakeup`; for every other run the invariant holds.
-/

namespace Xv6.Pipes

open Function Lib

variable {s s' : State} {p q N : Nat} {ch : Chan} {pc : Pc}

def Pc.locks : Pc → Bool
  | .body _ | .wakeup .. | .sleep .. => true
  | .user | .enter _ | .falling .. | .sleeping .. => false

/-- The process is `SLEEPING` on `ch`, or will be when it releases its `p->lock`. -/
def Pc.waits (ch : Chan) : Pc → Bool
  | .falling ch' _ | .sleeping ch' _ => ch' = ch
  | _ => false

namespace State

/-- The reason to sleep on `ch`. -/
def Quiet (s : State) : Chan → Prop
  | .nread => s.Empty ∧ s.pipe.writeopen = true
  | .nwrite => s.Full ∧ s.pipe.readopen = true

/-- Process `p`, which holds `pi->lock`, will call `wakeup(ch)` and come to process `q`. -/
def Owes (s : State) (p : Nat) (ch : Chan) (q : Nat) : Prop :=
  match (s.proc p).pc with
  | .wakeup ch' k _ => ch' = ch ∧ k ≤ q
  | .body (.write _ n i) =>
    ch = .nread ∧ s.pipe.writeopen = true ∧
      (n ≤ i ∨ ((s.proc p).killed = false ∧ s.pipe.readopen = true))
  | .body (.copy _ _) => ch = .nwrite
  | _ => False

/-- What the holder of `pi->lock` has checked. -/
def Checked (s : State) : Pc → Prop
  | .wakeup _ _ (.sleep _) => s.Quiet .nwrite
  | .sleep ch _ => s.Quiet ch
  | _ => True

end State

structure Attended (N : Nat) (s : State) : Prop where
  holder : ∀ p, s.lock = some p ↔ p < N ∧ (s.proc p).pc.locks = true
  checked : ∀ p, s.lock = some p → s.Checked (s.proc p).pc
  waits : ∀ q, q < N → ∀ ch, (s.proc q).pc.waits ch = true → s.Quiet ch ∨ ∃ p, s.lock = some p ∧
    s.Owes p ch q

namespace Attended

theorem quiet (h : Attended N s) (hfree : s.lock = none) (hq : q < N)
    (hwaits : (s.proc q).pc.waits ch = true) : s.Quiet ch := by
  rcases h.waits q hq ch hwaits with hquiet | ⟨p, hp, -⟩
  · exact hquiet
  · rw [hfree] at hp
    cases hp

theorem owed (h : Attended N s) (hlock : s.lock = some p) (hq : q < N)
    (hwaits : (s.proc q).pc.waits ch = true) : s.Quiet ch ∨ s.Owes p ch q := by
  refine (h.waits q hq ch hwaits).imp_right ?_
  rintro ⟨r, hr, howes⟩
  rw [hlock] at hr
  cases hr
  exact howes

theorem unlocked (h : Attended N s) (hlock : s.lock = some p) (hq : q < N) (hne : q ≠ p) :
    (s.proc q).pc.locks = false := by
  by_contra hlocks
  have hmine := (h.holder q).mpr ⟨hq, by simpa using hlocks⟩
  rw [hlock] at hmine
  exact hne (Option.some.inj hmine).symm

/-! ## Kinds of steps -/

theorem hold (h : Attended N s) (hlock : s.lock = some p) (hproc : s'.proc = (s.setPc p pc).proc)
    (hlock' : s'.lock = s.lock) (hlocks : pc.locks = true) (hchecked : s'.Checked pc)
    (hwaits : ∀ q, q < N → q ≠ p → ∀ ch, (s.proc q).pc.waits ch = true → s.Quiet ch ∨
      s.Owes p ch q →
      s'.Quiet ch ∨ s'.Owes p ch q) : Attended N s' := by
  have hp : p < N := ((h.holder p).mp hlock).1
  have hself : (s'.proc p).pc = pc := by rw [hproc]; exact s.setPc_self p pc
  have hother : ∀ q, q ≠ p → s'.proc q = s.proc q :=
    fun q hq => by rw [hproc]; exact s.setPc_of_ne pc hq
  have hnot : ∀ ch, pc.waits ch = false := by
    intro ch
    cases pc <;> first | rfl | cases hlocks
  refine ⟨fun q => ?_, fun q hq => ?_, fun q hq ch hw => ?_⟩
  · rw [hlock', hlock]
    by_cases hqp : q = p
    · rw [hqp, hself]
      simp [hp, hlocks]
    · rw [hother q hqp]
      constructor
      · intro heq
        exact absurd (Option.some.inj heq).symm hqp
      · rintro ⟨hlt, hl⟩
        rw [h.unlocked hlock hlt hqp] at hl
        cases hl
  · rw [hlock', hlock] at hq
    cases hq
    rw [hself]
    exact hchecked
  · by_cases hqp : q = p
    · rw [hqp, hself, hnot ch] at hw
      cases hw
    · rw [hother q hqp] at hw
      refine (hwaits q hq hqp ch hw (h.owed hlock hq hw)).imp_right fun howes => ⟨p, ?_, howes⟩
      rw [hlock', hlock]

theorem release (h : Attended N s) (hlock : s.lock = some p) (hlocks : pc.locks = false)
    (hmine : ∀ ch, pc.waits ch = true → s.Quiet ch)
    (hnone : ∀ q, q < N → q ≠ p → ∀ ch, (s.proc q).pc.waits ch = true → ¬ s.Quiet ch →
      ¬ s.Owes p ch q) :
    Attended N (s.release p pc) := by
  have hself : ((s.release p pc).proc p).pc = pc := State.setPc_self _ p pc
  have hother : ∀ q, q ≠ p → (s.release p pc).proc q = s.proc q :=
    fun q hq => State.setPc_of_ne _ pc hq
  refine ⟨fun q => ?_, fun q hq => ?_, fun q hq ch hw => .inl ?_⟩
  · change none = some q ↔ _
    by_cases hqp : q = p
    · rw [hqp, hself, hlocks]
      simp
    · rw [hother q hqp]
      constructor
      · intro heq
        cases heq
      · rintro ⟨hlt, hl⟩
        rw [h.unlocked hlock hlt hqp] at hl
        cases hl
  · cases hq
  · change s.Quiet ch
    by_cases hqp : q = p
    · rw [hqp, hself] at hw
      exact hmine ch hw
    · rw [hother q hqp] at hw
      rcases h.owed hlock hq hw with hquiet | howes
      · exact hquiet
      · by_contra hquiet
        exact hnone q hq hqp ch hw hquiet howes

theorem move (h : Attended N s) (hproc : s'.proc = (s.setPc p pc).proc) (hlock : s'.lock = s.lock)
    (hpipe : s'.pipe = s.pipe) (hlocks : (s.proc p).pc.locks = false) (hlocks' : pc.locks = false)
    (hwaits : ∀ ch, pc.waits ch = true → (s.proc p).pc.waits ch = true) : Attended N s' := by
  have hself : (s'.proc p).pc = pc := by rw [hproc]; exact s.setPc_self p pc
  have hother : ∀ q, q ≠ p → s'.proc q = s.proc q :=
    fun q hq => by rw [hproc]; exact s.setPc_of_ne pc hq
  have hnot : ∀ q, s.lock = some q → q ≠ p := by
    rintro q hq rfl
    have := ((h.holder q).mp hq).2
    rw [hlocks] at this
    cases this
  have hquiet : ∀ ch, s'.Quiet ch ↔ s.Quiet ch := by
    intro ch
    cases ch <;> simp [State.Quiet, State.Empty, State.Full, hpipe]
  refine ⟨fun q => ?_, fun q hq => ?_, fun q hq ch hw => ?_⟩
  · rw [hlock, h.holder q]
    by_cases hqp : q = p
    · rw [hqp, hself, hlocks, hlocks']
    · rw [hother q hqp]
  · rw [hlock] at hq
    rw [hother q (hnot q hq)]
    have hchecked := h.checked q hq
    unfold State.Checked at hchecked ⊢
    split at hchecked <;> simp_all
  · have hw' : (s.proc q).pc.waits ch = true := by
      by_cases hqp : q = p
      · subst hqp
        rw [hself] at hw
        exact hwaits ch hw
      · rwa [hother q hqp] at hw
    rw [hquiet ch]
    refine (h.waits q hq ch hw').imp_right ?_
    rintro ⟨r, hr, howes⟩
    refine ⟨r, hlock.trans hr, ?_⟩
    unfold State.Owes at howes ⊢
    rw [hother r (hnot r hr), hpipe]
    exact howes

theorem flag (h : Attended N s) (killed : Bool)
    (hkept : ∀ q, q < N → ∀ ch, (s.proc q).pc.waits ch = true → s.Owes p ch q →
      s.Quiet ch ∨ (s.setKilled p killed).Owes p ch q) : Attended N (s.setKilled p killed) := by
  have hpc : ∀ q, ((s.setKilled p killed).proc q).pc = (s.proc q).pc := by
    intro q
    by_cases hqp : q = p
    · rw [hqp]
      simp [State.setKilled]
    · simp [State.setKilled, update_of_ne hqp]
  refine ⟨fun q => ?_, fun q hq => ?_, fun q hq ch hw => ?_⟩
  · rw [hpc]
    exact h.holder q
  · rw [hpc]
    exact h.checked q hq
  · rw [hpc] at hw
    rcases h.waits q hq ch hw with hquiet | ⟨r, hr, howes⟩
    · exact .inl hquiet
    · by_cases hrp : r = p
      · subst hrp
        exact (hkept q hq ch hw howes).imp_right fun howes' => ⟨r, hr, howes'⟩
      · refine .inr ⟨r, hr, ?_⟩
        have hsame : (s.setKilled p killed).proc r = s.proc r := update_of_ne hrp _ _
        unfold State.Owes at howes ⊢
        rw [hsame]
        exact howes

/-! ## Loops -/

/-- The holder goes on to `wakeup(ch)`, which it owes to every sleeper that has no reason. -/
theorem toWakeup (h : Attended N s) (t : State) (hlock : s.lock = some p) (hproc : t.proc = s.proc)
    (hlock' : t.lock = s.lock) {next : After} (hchecked : t.Checked (.wakeup ch 0 next))
    (hwaits : ∀ q, q < N → ∀ c, c ≠ ch → s.Quiet c ∨ s.Owes p c q → t.Quiet c) :
    Attended N (t.setPc p (.wakeup ch 0 next)) := by
  refine h.hold hlock ?_ hlock' rfl hchecked fun q hq _ c _ hold => ?_
  · unfold State.setPc
    rw [hproc]
  · by_cases hc : c = ch
    · refine .inr ?_
      unfold State.Owes
      rw [State.setPc_self]
      exact ⟨hc.symm, Nat.zero_le _⟩
    · exact .inl (hwaits q hq c hc hold)

theorem writeLoop (h : Attended N s) (hlock : s.lock = some p) {id i : Nat} {n : Int}
    (hpc : (s.proc p).pc = .body (.write id n i)) : Attended N (s.writeLoop p id n i) := by
  have howes : ∀ ch q, s.Owes p ch q → ch = .nread ∧ s.pipe.writeopen = true ∧
      (n ≤ i ∨ ((s.proc p).killed = false ∧ s.pipe.readopen = true)) := by
    intro ch q ho
    unfold State.Owes at ho
    rw [hpc] at ho
    exact ho
  have hrest : ∀ q, q < N → ∀ c, c ≠ Chan.nread → s.Quiet c ∨ s.Owes p c q → s.Quiet c := by
    intro q _ c hc hold
    exact hold.resolve_right fun ho => hc (howes c q ho).1
  unfold State.writeLoop
  split
  · rename_i hi
    split
    · rename_i hstop
      refine h.release hlock rfl (fun _ hw => by cases hw) fun q _ _ ch _ _ ho => ?_
      obtain ⟨-, -, hle | ⟨hkilled, hopen⟩⟩ := howes ch q ho
      · omega
      · rw [hkilled, hopen] at hstop
        cases hstop
    · rename_i hgo
      have hgo : s.pipe.readopen = true ∧ (s.proc p).killed = false := by simpa using hgo
      split
      · rename_i hfull
        exact h.toWakeup s hlock rfl rfl ⟨hfull, hgo.1⟩ hrest
      · rename_i hfull
        split
        · exact h.toWakeup s hlock rfl rfl (by exact trivial) hrest
        · refine h.hold hlock rfl rfl rfl trivial fun q _ _ ch _ hold => .inr ?_
          -- the byte that went in is for the readers
          have hread : ch = .nread ∧ s.pipe.writeopen = true := by
            rcases hold with hquiet | ho
            · cases ch with
              | nread => exact ⟨rfl, hquiet.2⟩
              | nwrite => exact absurd hquiet.1 hfull
            · exact ⟨(howes ch q ho).1, (howes ch q ho).2.1⟩
          unfold State.Owes
          rw [State.setPc_self]
          refine ⟨hread.1, hread.2, .inr ⟨?_, hgo.1⟩⟩
          simp only [State.setPc, State.store, update_self]
          exact hgo.2
  · exact h.toWakeup s hlock rfl rfl (by exact trivial) hrest

theorem readLoop (h : Attended N s) (hlock : s.lock = some p) {n : Int}
    (hpc : (s.proc p).pc = .body (.read n)) : Attended N (s.readLoop p n) := by
  have howes : ∀ ch q, ¬ s.Owes p ch q := by
    intro ch q ho
    unfold State.Owes at ho
    rw [hpc] at ho
    exact ho
  unfold State.readLoop
  split
  · rename_i hempty
    split
    · exact h.release hlock rfl (fun _ hw => by cases hw) fun q _ _ ch _ _ => howes ch q
    · exact h.hold hlock rfl rfl rfl hempty fun q _ _ ch _ hold =>
        .inl (hold.resolve_right (howes ch q))
  · exact h.hold hlock rfl rfl rfl trivial fun q _ _ ch _ hold =>
      .inl (hold.resolve_right (howes ch q))

theorem copyLoop (h : Attended N s) (hlock : s.lock = some p) {n : Int} {i : Nat}
    (hpc : (s.proc p).pc = .body (.copy n i)) (copyout : Bool) :
    Attended N (s.copyLoop p n i copyout) := by
  have howes : ∀ ch q, s.Owes p ch q → ch = .nwrite := by
    intro ch q ho
    unfold State.Owes at ho
    rw [hpc] at ho
    exact ho
  unfold State.copyLoop
  split
  · rename_i hmore
    -- a reader that sleeps would have an empty pipe for its reason
    have hwrite : ∀ ch q, s.Quiet ch ∨ s.Owes p ch q → ch = .nwrite := by
      intro ch q hold
      rcases hold with hquiet | ho
      · cases ch with
        | nread => exact absurd hquiet.1 hmore.2
        | nwrite => rfl
      · exact howes ch q ho
    split
    · refine h.hold hlock rfl rfl rfl trivial fun q _ _ ch _ hold => .inr ?_
      unfold State.Owes
      rw [State.setPc_self]
      exact hwrite ch q hold
    · exact h.toWakeup s.fetch hlock rfl rfl (by exact trivial) fun q _ c hc hold =>
        absurd (hwrite c q hold) hc
  · exact h.toWakeup s hlock rfl rfl (by exact trivial) fun q _ c hc hold =>
      hold.resolve_right fun ho => hc (howes c q ho)

theorem closeEnd (h : Attended N s) (hlock : s.lock = some p) {writable : Bool}
    (hpc : (s.proc p).pc = .body (.close writable)) : Attended N (s.closeEnd p writable) := by
  have howes : ∀ ch q, ¬ s.Owes p ch q := by
    intro ch q ho
    unfold State.Owes at ho
    rw [hpc] at ho
    exact ho
  unfold State.closeEnd
  split
  · refine h.toWakeup { s with pipe := { s.pipe with writeopen := false } } hlock rfl
      rfl (by exact trivial) fun q _ c hc hold => ?_
    have hquiet := hold.resolve_right (howes c q)
    cases c with
    | nread => exact absurd rfl hc
    | nwrite => exact hquiet
  · refine h.toWakeup { s with pipe := { s.pipe with readopen := false } } hlock rfl
      rfl (by exact trivial) fun q _ c hc hold => ?_
    have hquiet := hold.resolve_right (howes c q)
    cases c with
    | nread => exact hquiet
    | nwrite => exact absurd rfl hc

theorem body (h : Attended N s) (hlock : s.lock = some p) {c : Call} (hpc : (s.proc p).pc = .body c)
    (copyout : Bool) : Attended N (s.body p copyout c) := by
  cases c with
  | write id n i => exact h.writeLoop hlock hpc
  | read n => exact h.readLoop hlock hpc
  | copy n i => exact h.copyLoop hlock hpc copyout
  | close writable => exact h.closeEnd hlock hpc

/-! ## Steps -/

/-- The loop of `wakeup` passes a process that does not sleep on its channel. -/
theorem pass (h : Attended N s) (hlock : s.lock = some p) {k : Nat} {next : After}
    (hpc : (s.proc p).pc = .wakeup ch k next) (hk : (s.proc k).pc.waits ch = false) :
    Attended N (s.setPc p (.wakeup ch (k + 1) next)) := by
  refine h.hold hlock rfl rfl rfl ?_ fun q _ _ c hw hold => hold.imp_right fun ho => ?_
  · have hchecked := h.checked p hlock
    rw [hpc] at hchecked
    cases next <;> exact hchecked
  · unfold State.Owes at ho ⊢
    rw [hpc] at ho
    rw [State.setPc_self]
    refine ⟨ho.1, Nat.lt_of_le_of_ne ho.2 ?_⟩
    rintro rfl
    rw [← ho.1, hk] at hw
    cases hw

theorem run (h : Attended N s) (hp : p < N) (copyout : Bool) :
    (run N s p copyout).Sat (fun _ => True) (Attended N) := by
  have hmine : (s.proc p).pc.locks = true → s.lock = some p := fun hl => (h.holder p).mpr ⟨hp, hl⟩
  unfold Pipes.run
  split
  · exact .blocked
  · rename_i c hpc
    refine .guard fun hfree => ?_
    refine .next ⟨fun q => ?_, fun q hq => ?_, fun q hq ch hw => .inl ?_⟩
    · change some p = some q ↔ _
      by_cases hqp : q = p
      · rw [hqp, State.setPc_self]
        simp [hp, Pc.locks]
      · rw [State.setPc_of_ne _ _ hqp]
        have hq := h.holder q
        rw [hfree] at hq
        constructor
        · intro heq
          exact absurd (Option.some.inj heq).symm hqp
        · intro hl
          cases hq.mpr hl
    · cases hq
      rw [State.setPc_self]
      trivial
    · change s.Quiet ch
      by_cases hqp : q = p
      · rw [hqp, State.setPc_self] at hw
        cases hw
      · rw [State.setPc_of_ne _ _ hqp] at hw
        exact h.quiet hfree hq hw
  · rename_i c hpc
    exact .next (h.body (hmine (by rw [hpc]; rfl)) hpc copyout)
  · rename_i ch k next hpc
    have hlock := hmine (by rw [hpc]; rfl)
    split
    · split
      · exact .blocked
      · rename_i ch' c hk
        have hkp : k ≠ p := by
          rintro rfl
          rw [hpc] at hk
          cases hk
        split
        · have hwoken : Attended N (s.setPc k (.enter c)) :=
            h.move rfl rfl rfl (by rw [hk]; rfl) rfl fun _ hw => by cases hw
          refine .next (hwoken.pass hlock ?_ ?_)
          · rw [State.setPc_of_ne _ _ hkp.symm, hpc]
          · rw [State.setPc_self]
            rfl
        · rename_i hne
          refine .next (h.pass hlock hpc ?_)
          rw [hk]
          simpa [Pc.waits] using hne
      · rename_i hfalling hsleeping
        refine .next (h.pass hlock hpc ?_)
        cases hk : (s.proc k).pc <;>
          first | rfl | exact absurd hk (hfalling _ _) | exact absurd hk (hsleeping _ _)
    · rename_i hend
      -- the loop has come to every process
      have howes : ∀ q, q < N → ∀ c, ¬ s.Owes p c q := by
        intro q hq c ho
        unfold State.Owes at ho
        rw [hpc] at ho
        omega
      split
      · have hchecked := h.checked p hlock
        rw [hpc] at hchecked
        exact .next (h.hold hlock rfl rfl rfl hchecked fun q hq _ c _ hold =>
          .inl (hold.resolve_right (howes q hq c)))
      · exact .next (h.release hlock rfl (fun _ hw => by cases hw) fun q hq _ c _ _ => howes q hq c)
  · rename_i ch c hpc
    have hlock := hmine (by rw [hpc]; rfl)
    have hchecked := h.checked p hlock
    rw [hpc] at hchecked
    refine .next (h.release hlock rfl (fun ch' hw => ?_) fun q _ _ c _ _ ho => ?_)
    · have heq : ch = ch' := by simpa [Pc.waits] using hw
      exact heq ▸ hchecked
    · unfold State.Owes at ho
      rw [hpc] at ho
      exact ho
  · rename_i ch c hpc
    exact .next (h.move rfl rfl rfl (by rw [hpc]; rfl) rfl fun _ hw => by rw [hpc]; exact hw)
  · exact .blocked

end Attended

def State.Unannounced (N : Nat) (s : State) (p : Nat) : Prop :=
  (match (s.proc p).pc with
    | .body (.write _ n i) => (i : Int) < n
    | _ => False) ∧ ¬ s.Empty ∧ ∃ q, q < N ∧ (s.proc q).pc.waits .nread = true

instance (N : Nat) (s : State) (p : Nat) : Decidable (s.Unannounced N p) :=
  have : Decidable (match (s.proc p).pc with
      | .body (.write _ n i) => (i : Int) < n
      | _ => False) := by
    split <;> infer_instance
  inferInstanceAs (Decidable (_ ∧ ¬ s.Empty ∧ ∃ q, q < N ∧ (s.proc q).pc.waits .nread = true))

/-- A call of `kill` does not hit a writer that has bytes to announce. -/
def Spares (N : Nat) (s : State) : Action → Prop
  | .kill p => ¬ s.Unannounced N p
  | _ => True

instance (N : Nat) (s : State) : (a : Action) → Decidable (Spares N s a)
  | .kill p => inferInstanceAs (Decidable (¬ s.Unannounced N p))
  | .spawn _ | .pipewrite .. | .piperead .. | .pipeclose .. | .run .. => isTrue trivial

namespace Attended

theorem start (h : Created s) : Attended N s := by
  obtain ⟨-, -, -, -, hlock, huser, -⟩ := h
  refine ⟨fun p => ?_, fun p hp => ?_, fun q _ ch hw => ?_⟩
  · rw [hlock, huser p]
    simp [Pc.locks]
  · rw [hlock] at hp
    cases hp
  · rw [huser q] at hw
    cases hw

theorem kill (h : Attended N s) (hspares : ¬ s.Unannounced N p) :
    Attended N (s.setKilled p true) := by
  refine h.flag true fun q hq ch hw ho => ?_
  unfold State.Owes at ho ⊢
  simp only [State.setKilled, update_self]
  split at ho
  · exact .inr ho
  · rename_i id n i hpc
    obtain ⟨rfl, hopen, hle | -⟩ := ho
    · exact .inr ⟨rfl, hopen, .inl hle⟩
    · by_cases hle : n ≤ i
      · exact .inr ⟨rfl, hopen, .inl hle⟩
      · -- the writer has put no byte in yet
        refine .inl ⟨?_, hopen⟩
        by_contra hempty
        refine hspares ⟨?_, hempty, q, hq, hw⟩
        rw [hpc]
        exact Int.not_le.mp hle
  · exact .inr ho
  · exact ho.elim

theorem step (h : Attended N s) (a : Action) (hspares : Spares N s a) :
    (step N s a).Sat (fun _ => True) (Attended N) := by
  refine .guard fun hactor => ?_
  cases a with
  | spawn p =>
    refine .guard fun hpc => ?_
    refine .next (h.flag false fun q _ ch _ ho => ?_)
    unfold State.Owes at ho
    rw [hpc] at ho
    exact ho.elim
  | pipewrite p src n =>
    exact .guard fun hpc => .next (h.move rfl rfl rfl (by rw [hpc]; rfl) rfl
      fun _ hw => by cases hw)
  | piperead p n =>
    exact .guard fun hpc => .next (h.move rfl rfl rfl (by rw [hpc]; rfl) rfl
      fun _ hw => by cases hw)
  | pipeclose p writable =>
    exact .guard fun hpc => .next (h.move rfl rfl rfl (by rw [hpc]; rfl) rfl
      fun _ hw => by cases hw)
  | run p copyout => exact h.run hactor copyout
  | kill p =>
    have hk := h.kill hspares
    unfold effect
    dsimp only
    split
    · exact .blocked
    · rename_i hpc
      refine .next (hk.move rfl rfl rfl ?_ rfl fun _ hw => by cases hw)
      simp only [State.setKilled, update_self, hpc]
      rfl
    · exact .next hk

end Attended

/-- In every run in which no `kill` hits a writer that has bytes to announce, in every state
where `pi->lock` is free a process sleeps on `&pi->nread` only beside an empty pipe with an
open write end, and on `&pi->nwrite` only beside a full pipe with an open read end. -/
theorem pipe_sleepers_attended (N : Nat) (s : State) (hreach : Reach (step N) (Spares N) Created s)
    (hfree : s.lock = none) (q : Nat) (hq : q < N) (c : Call) :
    ((s.proc q).pc = .sleeping .nread c → s.pipe.nread = s.pipe.nwrite ∧ s.pipe.writeopen = true) ∧
    ((s.proc q).pc = .sleeping .nwrite c →
      s.pipe.nwrite = (s.pipe.nread + PIPESIZE) % 2 ^ 32 ∧ s.pipe.readopen = true) := by
  have h : Attended N s :=
    hreach.invariant (fun _ => Attended.start) fun _ a _ hs hok hstep =>
      (hs.step a hok).of_next hstep
  constructor
  · intro hpc
    have hquiet : s.Quiet .nread := h.quiet hfree hq (by rw [hpc]; rfl)
    exact hquiet
  · intro hpc
    have hquiet : s.Quiet .nwrite := h.quiet hfree hq (by rw [hpc]; rfl)
    exact hquiet

/-- Process 1 sleeps in `piperead`; process 0 starts to write and is killed before its first
byte. -/
def readerRun : List Action :=
  [.piperead 1 1, .run 1 true, .run 1 true, .run 1 true, .run 1 true,
    .pipewrite 0 (fun _ => some 7) 2, .run 0 true, .kill 0, .run 0 true]

theorem pipe_sleepers_attended_readerRun : ∃ s : State, Reach (step 2) (Spares 2) Created s ∧
    s.lock = none ∧
    (s.proc 1).pc = .sleeping .nread (.read 1) ∧ s.pipe.nread = s.pipe.nwrite ∧
    s.pipe.writeopen = true := by
  have hrun : ((exec (step 2) fresh readerRun).next?.map fun s =>
      (decide (Guarded (step 2) (Spares 2) fresh readerRun), s.lock, (s.proc 1).pc)) =
        some (true, none, .sleeping .nread (.read 1)) := by
    decide +kernel
  obtain ⟨s, hs, heq⟩ := Option.map_eq_some_iff.mp hrun
  simp only [Prod.mk.injEq, decide_eq_true_eq] at heq
  have hreach := Reach.of_exec (.start fresh_created) heq.1 (Outcome.next?_eq_some.mp hs)
  exact ⟨s, hreach, heq.2.1, heq.2.2,
    (pipe_sleepers_attended 2 s hreach heq.2.1 1 (by decide) (.read 1)).1 heq.2.2⟩

/-- Process 0 puts one of its two bytes in and is killed before the next iteration. -/
def killedRun : List Action :=
  [.piperead 1 1, .run 1 true, .run 1 true, .run 1 true, .run 1 true,
    .pipewrite 0 (fun _ => some 7) 2, .run 0 true, .run 0 true, .kill 0, .run 0 true]

/-- The killed writer has left without a `wakeup`, and the reader sleeps beside its byte. -/
theorem killed_writer_leaves_reader_asleep :
    ∃ s : State, Reach (step 2) (fun _ _ => True) Created s ∧
    s.lock = none ∧ (s.proc 1).pc = .sleeping .nread (.read 1) ∧ s.pipe.nread ≠ s.pipe.nwrite := by
  have hrun : ((exec (step 2) fresh killedRun).next?.map fun s =>
      (s.lock, (s.proc 1).pc, decide (s.pipe.nread = s.pipe.nwrite))) =
        some (none, .sleeping .nread (.read 1), false) := by
    decide +kernel
  obtain ⟨s, hs, heq⟩ := Option.map_eq_some_iff.mp hrun
  simp only [Prod.mk.injEq, decide_eq_false_iff_not] at heq
  have hreach := Reach.of_exec (.start fresh_created) (Guarded.of_forall (fun _ _ => trivial) _ _)
    (Outcome.next?_eq_some.mp hs)
  exact ⟨s, hreach, heq.1, heq.2.1, heq.2.2⟩

end Xv6.Pipes
