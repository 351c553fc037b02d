import Xv6.Lib.RingBuffer
import Xv6.Pipes.Model

/-! # A pipe is a bounded queue

The bytes taken out of the ring are a prefix of the bytes put in, and the two counters count
them modulo `2 ^ 32`.
-/

namespace Xv6.Pipes

open Function Lib

def Pc.call : Pc → Option Call
  | .enter c | .body c | .wakeup _ _ (.sleep c) | .sleep _ c | .falling _ c | .sleeping _ c =>
    some c
  | .user | .wakeup _ _ .leave => none

variable {s s' : State} {p q id i N : Nat}

namespace State

/-- Process `p` is in `pipewrite` call `id`, which has written `i` bytes. -/
def Writes (s : State) (p id i : Nat) : Prop := ∃ n, (s.proc p).pc.call = some (.write id n i)

/-- The bytes that `pipewrite` call `id` has put in. -/
def bytesOf (s : State) (id : Nat) : List UInt8 := (s.put.filter fun e => e.1 = id).map Prod.snd

theorem setPc_self (s : State) (p : Nat) (pc : Pc) : ((s.setPc p pc).proc p).pc = pc := by
  simp [setPc]

theorem setPc_of_ne (s : State) (pc : Pc) (hq : q ≠ p) : (s.setPc p pc).proc q = s.proc q :=
  update_of_ne hq _ _

theorem setKilled_pc (s : State) (p : Nat) (killed : Bool) (q : Nat) :
    ((s.setKilled p killed).proc q).pc = (s.proc q).pc := by
  by_cases hq : q = p
  · subst hq
    simp [setKilled]
  · simp [setKilled, update_of_ne hq]

theorem Writes.of_setPc {pc : Pc} (h : (s.setPc p pc).Writes q id i) :
    (q = p ∧ ∃ n, pc.call = some (.write id n i)) ∨ (q ≠ p ∧ s.Writes q id i) := by
  by_cases hq : q = p
  · subst hq
    unfold Writes at h
    rw [setPc_self] at h
    exact .inl ⟨rfl, h⟩
  · unfold Writes at h
    rw [setPc_of_ne s pc hq] at h
    exact .inr ⟨hq, h⟩

/-- A process that stays in its call, or leaves it, writes no more than before. -/
theorem Writes.kept {pc : Pc} (h : (s.setPc p pc).Writes q id i)
    (hpc : ∀ c, pc.call = some c → (s.proc p).pc.call = some c ∨ ∀ id n i, c ≠ .write id n i) :
    s.Writes q id i := by
  rcases h.of_setPc with ⟨rfl, n, hcall⟩ | ⟨-, h⟩
  · rcases hpc _ hcall with hsame | hnot
    · exact ⟨n, hsame⟩
    · exact absurd rfl (hnot id n i)
  · exact h

end State

/-! ## The invariant -/

structure Fifo (s : State) : Prop where
  ring : RingHolds PIPESIZE s.pipe.data (s.put.map Prod.snd) s.taken.length
  nread : s.pipe.nread = s.taken.length % 2 ^ 32
  nwrite : s.pipe.nwrite = s.put.length % 2 ^ 32
  taken : s.taken <+: s.put.map Prod.snd
  order : ∀ id, (s.bytesOf id).map some = (List.range (s.bytesOf id).length).map (s.source id)
  known : ∀ e ∈ s.put, e.1 < s.calls
  progress : ∀ p id i, s.Writes p id i → id < s.calls ∧ (s.bytesOf id).length = i
  single : ∀ p q id i j, s.Writes p id i → s.Writes q id j → p = q

namespace Fifo

variable (h : Fifo s)
include h

theorem used_le : s.put.length ≤ s.taken.length + PIPESIZE := by
  simpa using h.ring.room

theorem taken_le : s.taken.length ≤ s.put.length := by
  simpa using h.ring.le

theorem full_iff : s.Full ↔ s.put.length = s.taken.length + PIPESIZE := by
  have hle := h.used_le
  have hge := h.taken_le
  unfold State.Full
  rw [h.nread, h.nwrite]
  unfold PIPESIZE at *
  omega

theorem empty_iff : s.Empty ↔ s.put.length = s.taken.length := by
  have hle := h.used_le
  have hge := h.taken_le
  unfold State.Empty
  rw [h.nread, h.nwrite]
  unfold PIPESIZE at *
  omega

/-- A step that leaves the ring alone, in which no call of `pipewrite` starts or gets on. -/
theorem quiet (hdata : s'.pipe.data = s.pipe.data) (hread : s'.pipe.nread = s.pipe.nread)
    (hwrite : s'.pipe.nwrite = s.pipe.nwrite) (hput : s'.put = s.put) (htaken : s'.taken = s.taken)
    (hcalls : s'.calls = s.calls) (hsource : s'.source = s.source)
    (hwrites : ∀ q id i, s'.Writes q id i → s.Writes q id i) : Fifo s' := by
  have hbytes : s'.bytesOf = s.bytesOf := by
    funext id
    rw [State.bytesOf, hput]
    rfl
  refine ⟨?_, ?_, ?_, ?_, fun id => ?_, fun e he => ?_, fun p id i hw => ?_,
    fun p q id i j hp hq => ?_⟩
  · rw [hdata, hput, htaken]
    exact h.ring
  · rw [hread, htaken]
    exact h.nread
  · rw [hwrite, hput]
    exact h.nwrite
  · rw [htaken, hput]
    exact h.taken
  · rw [hbytes, hsource]
    exact h.order id
  · rw [hcalls]
    exact h.known e (hput ▸ he)
  · rw [hcalls, hbytes]
    exact h.progress p id i (hwrites p id i hw)
  · exact h.single p q id i j (hwrites p id i hp) (hwrites q id j hq)

theorem move {pc : Pc} (hpc : ∀ c, pc.call = some c → (s.proc p).pc.call = some c ∨ ∀ id n i,
    c ≠ .write id n i) :
    Fifo (s.setPc p pc) :=
  h.quiet rfl rfl rfl rfl rfl rfl rfl fun _ _ _ hw => hw.kept hpc

theorem setLock (lock : Option Nat) : Fifo { s with lock := lock } :=
  h.quiet rfl rfl rfl rfl rfl rfl rfl fun _ _ _ hw => hw

theorem setKilled (p : Nat) (killed : Bool) : Fifo (s.setKilled p killed) := by
  refine h.quiet rfl rfl rfl rfl rfl rfl rfl fun q id i hw => ?_
  unfold State.Writes at hw
  rw [State.setKilled_pc] at hw
  exact hw

theorem setOpen (readopen writeopen : Bool) :
    Fifo { s with pipe := { s.pipe with readopen := readopen, writeopen := writeopen } } :=
  h.quiet rfl rfl rfl rfl rfl rfl rfl fun _ _ _ hw => hw

theorem store {n : Int} {ch : UInt8} (hpc : (s.proc p).pc = .body (.write id n i))
    (hfull : ¬ s.Full) (hsource : s.source id i = some ch) :
    Fifo ((s.store id ch).setPc p (.body (.write id n (i + 1)))) := by
  have hw : s.Writes p id i := ⟨n, by rw [hpc]; rfl⟩
  obtain ⟨hid, hlen⟩ := h.progress p id i hw
  have hroom : (s.put.map Prod.snd).length < s.taken.length + PIPESIZE := by
    have hle := h.used_le
    rw [h.full_iff] at hfull
    rw [List.length_map]
    omega
  have hcell : s.pipe.nwrite % PIPESIZE = (s.put.map Prod.snd).length % PIPESIZE := by
    rw [h.nwrite, List.length_map]
    exact Nat.mod_mod_of_dvd _ ⟨2 ^ 23, rfl⟩
  have hbytes : ∀ id', ((s.store id ch).setPc p (.body (.write id n (i + 1)))).bytesOf id' =
      s.bytesOf id' ++ if id = id' then [ch] else [] := by
    intro id'
    change ((s.put ++ [(id, ch)]).filter fun e => e.1 = id').map Prod.snd = _
    rw [List.filter_append, List.map_append]
    by_cases heq : id = id' <;> simp [State.bytesOf, heq]
  have hwrites : ∀ q id' j, ((s.store id ch).setPc p (.body (.write id n (i + 1)))).Writes q id' j →
      (q = p ∧ id' = id ∧ j = i + 1) ∨ (q ≠ p ∧ s.Writes q id' j) := by
    intro q id' j hw'
    rcases hw'.of_setPc with ⟨rfl, m, hcall⟩ | ⟨hq, hw'⟩
    · cases hcall
      exact .inl ⟨rfl, rfl, rfl⟩
    · exact .inr ⟨hq, hw'⟩
  refine ⟨?_, h.nread, ?_, ?_, fun id' => ?_, fun e he => ?_, fun q id' j hq => ?_,
    fun q r id' j k hq hr => ?_⟩
  · change RingHolds PIPESIZE (update s.pipe.data (s.pipe.nwrite % PIPESIZE) ch)
      ((s.put ++ [(id, ch)]).map Prod.snd) s.taken.length
    rw [hcell, List.map_append]
    exact h.ring.push hroom ch
  · change (s.pipe.nwrite + 1) % 2 ^ 32 = (s.put ++ [(id, ch)]).length % 2 ^ 32
    rw [h.nwrite, List.length_append, Nat.mod_add_mod]
    rfl
  · change s.taken <+: (s.put ++ [(id, ch)]).map Prod.snd
    rw [List.map_append]
    exact h.taken.trans (List.prefix_append _ _)
  · rw [hbytes id']
    change _ = List.map (s.source id') _
    by_cases heq : id = id'
    · subst heq
      rw [if_pos rfl, List.map_append, List.length_append, List.length_singleton, List.range_succ,
        List.map_append, h.order id, hlen]
      simp [hsource]
    · rw [if_neg heq, List.append_nil]
      exact h.order id'
  · rcases List.mem_append.mp he with he | he
    · exact h.known e he
    · rw [List.mem_singleton.mp he]
      exact hid
  · rw [hbytes id']
    rcases hwrites q id' j hq with ⟨-, rfl, rfl⟩ | ⟨hne, hq'⟩
    · rw [if_pos rfl, List.length_append, hlen]
      exact ⟨hid, rfl⟩
    · have hid' : id ≠ id' := fun heq => hne (h.single q p id' j i hq' (heq ▸ hw))
      rw [if_neg hid', List.append_nil]
      exact h.progress q id' j hq'
  · rcases hwrites q id' j hq with ⟨rfl, rfl, -⟩ | ⟨hne, hq'⟩
    · rcases hwrites r id' k hr with ⟨rfl, -, -⟩ | ⟨-, hr'⟩
      · rfl
      · exact h.single q r id' i k hw hr'
    · rcases hwrites r id' k hr with ⟨rfl, rfl, -⟩ | ⟨-, hr'⟩
      · exact h.single q r id' j i hq' hw
      · exact h.single q r id' j k hq' hr'

theorem fetch (hempty : ¬ s.Empty) : Fifo s.fetch := by
  have hlt : s.taken.length < (s.put.map Prod.snd).length := by
    have hge := h.taken_le
    rw [h.empty_iff] at hempty
    rw [List.length_map]
    omega
  have hcell : s.pipe.nread % PIPESIZE = s.taken.length % PIPESIZE := by
    rw [h.nread]
    exact Nat.mod_mod_of_dvd _ ⟨2 ^ 23, rfl⟩
  have hlen : s.fetch.taken.length = s.taken.length + 1 := by
    simp [State.fetch]
  refine ⟨?_, ?_, h.nwrite, ?_, h.order, h.known, h.progress, h.single⟩
  · rw [hlen]
    exact h.ring.take hlt
  · change (s.pipe.nread + 1) % 2 ^ 32 = _
    rw [hlen, h.nread, Nat.mod_add_mod]
  · change s.taken ++ [s.pipe.data (s.pipe.nread % PIPESIZE)] <+: s.put.map Prod.snd
    rw [hcell, h.ring.cell _ le_rfl hlt]
    exact List.concat_get_prefix h.taken hlt

theorem call (src : Nat → Option UInt8) (n : Int) :
    Fifo ({ s with calls := s.calls + 1, source := update s.source s.calls src }.setPc p
      (.enter (.write s.calls n 0))) := by
  -- no byte is from the new call
  have hnone : s.bytesOf s.calls = [] := by
    unfold State.bytesOf
    rw [List.map_eq_nil_iff, List.filter_eq_nil_iff]
    intro e he
    have := h.known e he
    simp
    omega
  have hwrites : ∀ q id j, (({ s with
    calls := s.calls + 1, source := update s.source s.calls src } : State).setPc p
      (.enter (.write s.calls n 0))).Writes q id j → (q = p ∧ id = s.calls ∧ j = 0) ∨
          (q ≠ p ∧ s.Writes q id j) := by
    intro q id j hw
    rcases hw.of_setPc with ⟨rfl, m, hcall⟩ | ⟨hq, hw⟩
    · cases hcall
      exact .inl ⟨rfl, rfl, rfl⟩
    · exact .inr ⟨hq, hw⟩
  refine ⟨h.ring, h.nread, h.nwrite, h.taken, fun id => ?_, fun e he => ?_, fun q id j hq => ?_,
    fun q r id j k hq hr => ?_⟩
  · change (s.bytesOf id).map some = (List.range (s.bytesOf id).length).map
      (update s.source s.calls src id)
    by_cases hid : id = s.calls
    · subst hid
      rw [hnone]
      rfl
    · rw [update_of_ne hid]
      exact h.order id
  · exact Nat.lt_succ_of_lt (h.known e he)
  · change id < s.calls + 1 ∧ (s.bytesOf id).length = j
    rcases hwrites q id j hq with ⟨-, rfl, rfl⟩ | ⟨-, hq⟩
    · exact ⟨Nat.lt_succ_self _, by rw [hnone]; rfl⟩
    · obtain ⟨hid, hlen⟩ := h.progress q id j hq
      exact ⟨Nat.lt_succ_of_lt hid, hlen⟩
  · rcases hwrites q id j hq with ⟨rfl, rfl, -⟩ | ⟨-, hq⟩
    · rcases hwrites r _ k hr with ⟨rfl, -, -⟩ | ⟨-, hr⟩
      · rfl
      · exact absurd (h.progress r _ k hr).1 (Nat.lt_irrefl _)
    · rcases hwrites r id k hr with ⟨-, rfl, -⟩ | ⟨-, hr⟩
      · exact absurd (h.progress q _ j hq).1 (Nat.lt_irrefl _)
      · exact h.single q r id j k hq hr

/-! ## Steps -/

theorem body (copyout : Bool) {c : Call} (hpc : (s.proc p).pc = .body c) :
    Fifo (s.body p copyout c) := by
  have hcall : (s.proc p).pc.call = some c := by rw [hpc]; rfl
  cases c with
  | write id n i =>
    change Fifo (s.writeLoop p id n i)
    unfold State.writeLoop
    split
    · split
      · exact (h.setLock none).move fun _ hc => by cases hc
      · split
        · exact h.move fun c hc => .inl (hc ▸ hcall)
        · rename_i hfull
          split
          · exact h.move fun _ hc => by cases hc
          · exact h.store hpc hfull ‹_›
    · exact h.move fun _ hc => by cases hc
  | read n =>
    change Fifo (s.readLoop p n)
    unfold State.readLoop
    split
    · split
      · exact (h.setLock none).move fun _ hc => by cases hc
      · exact h.move fun c hc => .inl (hc ▸ hcall)
    · refine h.move fun c hc => .inr fun _ _ _ heq => ?_
      rw [heq] at hc
      cases hc
  | copy n i =>
    change Fifo (s.copyLoop p n i copyout)
    unfold State.copyLoop
    split
    · rename_i hmore
      have hf := h.fetch hmore.2
      split
      · refine hf.move fun c hc => .inr fun _ _ _ heq => ?_
        rw [heq] at hc
        cases hc
      · exact hf.move fun _ hc => by cases hc
    · exact h.move fun _ hc => by cases hc
  | close writable =>
    change Fifo (s.closeEnd p writable)
    unfold State.closeEnd
    split
    · exact (h.setOpen s.pipe.readopen false).move fun _ hc => by cases hc
    · exact (h.setOpen false s.pipe.writeopen).move fun _ hc => by cases hc

theorem run (copyout : Bool) : (run N s p copyout).Sat (fun _ => True) Fifo := by
  unfold Pipes.run
  split
  · exact .blocked
  · rename_i c hpc
    exact .guard fun _ => .next ((h.setLock (some p)).move fun c hc => .inl (hc ▸ hpc ▸ rfl))
  · rename_i hpc
    exact .next (h.body copyout hpc)
  · rename_i ch k next hpc
    -- the rest of the call is the same at the next process
    have hnext : ∀ {t : State}, Fifo t → t.proc p = s.proc p →
        Fifo (t.setPc p (.wakeup ch (k + 1) next)) := by
      intro t ht hsame
      refine ht.move fun c hc => .inl ?_
      rw [hsame, hpc]
      cases next <;> exact hc
    split
    · split
      · exact .blocked
      · rename_i ch' c hk
        have hkp : p ≠ k := by
          rintro rfl
          rw [hpc] at hk
          cases hk
        split
        · refine .next (hnext (h.move fun c hc => .inl (hc ▸ hk ▸ rfl)) (s.setPc_of_ne _ hkp))
        · exact .next (hnext h rfl)
      · exact .next (hnext h rfl)
    · split
      · exact .next (h.move fun c hc => .inl (hc ▸ hpc ▸ rfl))
      · exact .next ((h.setLock none).move fun _ hc => by cases hc)
  · rename_i hpc
    exact .next ((h.setLock none).move fun c hc => .inl (hc ▸ hpc ▸ rfl))
  · rename_i hpc
    exact .next (h.move fun c hc => .inl (hc ▸ hpc ▸ rfl))
  · exact .blocked

theorem step (a : Action) : (step N s a).Sat (fun _ => True) Fifo := by
  refine .guard fun _ => ?_
  cases a with
  | spawn p => exact .guard fun _ => .next (h.setKilled p false)
  | pipewrite p src n => exact .guard fun _ => .next (h.call src n)
  | piperead p n =>
    exact .guard fun _ => .next (h.move fun c hc =>
      .inr (by cases hc; exact fun _ _ _ heq => by cases heq))
  | pipeclose p writable =>
    exact .guard fun _ => .next (h.move fun c hc =>
      .inr (by cases hc; exact fun _ _ _ heq => by cases heq))
  | run p copyout => exact h.run copyout
  | kill p =>
    unfold effect
    dsimp only
    split
    · exact .blocked
    · rename_i hpc
      refine .next ((h.setKilled p true).move fun c hc => .inl ?_)
      simp only [State.setKilled, update_self, hpc]
      exact hc
    · exact .next (h.setKilled p true)

end Fifo

theorem Fifo.start (h : Created s) : Fifo s := by
  obtain ⟨hread, hwrite, -, -, -, huser, hcalls, hput, htaken⟩ := h
  have hnone : ∀ p id i, ¬ s.Writes p id i := by
    rintro p id i ⟨n, hcall⟩
    rw [huser p] at hcall
    cases hcall
  have hbytes : ∀ id, s.bytesOf id = [] := by
    intro id
    rw [State.bytesOf, hput]
    rfl
  refine ⟨?_, ?_, ?_, ?_, fun id => ?_, fun e he => ?_, fun p id i hw => absurd hw (hnone p id i),
    fun p _ id i _ hw => absurd hw (hnone p id i)⟩
  · rw [hput, htaken]
    exact .empty
  · rw [hread, htaken]
    rfl
  · rw [hwrite, hput]
    rfl
  · rw [htaken]
    exact List.nil_prefix
  · rw [hbytes]
    rfl
  · rw [hput] at he
    cases he

theorem Fifo.waiting (h : Fifo s) : (s.pipe.nwrite + (2 ^ 32 - s.pipe.nread)) % 2 ^ 32 ≤ PIPESIZE ∧
    ∃ rest, s.put.map Prod.snd = s.taken ++ rest ∧
      rest.length = (s.pipe.nwrite + (2 ^ 32 - s.pipe.nread)) % 2 ^ 32 ∧
      ∀ k (hk : k < rest.length), s.pipe.data ((s.pipe.nread + k) % 2 ^ 32 % PIPESIZE) =
      rest[k] := by
  have hle := h.used_le
  have hge := h.taken_le
  have hused : (s.pipe.nwrite + (2 ^ 32 - s.pipe.nread)) % 2 ^ 32 = s.put.length -
      s.taken.length := by
    rw [h.nread, h.nwrite]
    unfold PIPESIZE at hle
    omega
  obtain ⟨rest, hrest⟩ := h.taken
  have hlen : rest.length = s.put.length - s.taken.length := by
    have := congrArg List.length hrest
    simp only [List.length_append, List.length_map] at this
    omega
  refine ⟨by omega, rest, hrest.symm, hlen.trans hused.symm, fun k hk => ?_⟩
  have hlt : s.taken.length + k < (s.put.map Prod.snd).length := by
    rw [List.length_map]
    omega
  have hcell : (s.pipe.nread + k) % 2 ^ 32 % PIPESIZE = (s.taken.length + k) % PIPESIZE := by
    rw [h.nread, Nat.mod_add_mod]
    exact Nat.mod_mod_of_dvd _ ⟨2 ^ 23, rfl⟩
  rw [hcell, h.ring.cell _ (Nat.le_add_right _ _) hlt]
  simp [← hrest]

/-- In every reachable state the bytes taken out are a prefix of the bytes put in, what remains
of these is in the ring from `nread` on, `nwrite - nread` bytes and at most `PIPESIZE`, and
the bytes of each call of `pipewrite` are the first bytes of its memory in their order. -/
theorem pipe_ring_is_fifo (N : Nat) (s : State)
    (hreach : Reach (step N) (fun _ _ => True) Created s) :
    (s.pipe.nwrite + (2 ^ 32 - s.pipe.nread)) % 2 ^ 32 ≤ PIPESIZE ∧
    (∃ rest, s.put.map Prod.snd = s.taken ++ rest ∧
      rest.length = (s.pipe.nwrite + (2 ^ 32 - s.pipe.nread)) % 2 ^ 32 ∧
      ∀ k (hk : k < rest.length), s.pipe.data ((s.pipe.nread + k) % 2 ^ 32 % PIPESIZE) = rest[k]) ∧
    ∀ id, ∃ k, (s.bytesOf id).map some = (List.range k).map (s.source id) := by
  have h : Fifo s := hreach.invariant (fun _ => Fifo.start) fun _ a _ hs _ hstep =>
    (hs.step a).of_next hstep
  obtain ⟨hused, hrest⟩ := h.waiting
  exact ⟨hused, hrest, fun id => ⟨_, h.order id⟩⟩

/-! ## A run of a writer and a reader -/

def fresh : State :=
  ⟨⟨fun _ => 0, 0, 0, true, true⟩, none, fun _ => ⟨.user, false⟩, 0, fun _ _ => none, [], []⟩

theorem fresh_created : Created fresh := ⟨rfl, rfl, rfl, rfl, rfl, fun _ => rfl, rfl, rfl, rfl⟩

/-- Process 0 has written two bytes and process 1 has taken one. -/
def sharedRun : List Action :=
  [.pipewrite 0 (fun i => some (UInt8.ofNat (i + 7))) 2, .run 0 true, .run 0 true,
    .run 0 true, .run 0 true,
    .run 0 true, .run 0 true, .run 0 true, .piperead 1 1, .run 1 true, .run 1 true, .run 1 true]

theorem pipe_ring_is_fifo_sharedRun : ∃ s : State, Reach (step 2) (fun _ _ => True) Created s ∧
    s.taken = [7] ∧ s.pipe.nwrite = 2 ∧ ∃ rest, s.put.map Prod.snd = s.taken ++ rest ∧
      rest.length = (s.pipe.nwrite + (2 ^ 32 - s.pipe.nread)) % 2 ^ 32 := by
  have hrun : ((exec (step 2) fresh sharedRun).next?.map fun s => (s.taken, s.pipe.nwrite)) =
      some ([7], 2) := by
    decide +kernel
  obtain ⟨s, hs, heq⟩ := Option.map_eq_some_iff.mp hrun
  simp only [Prod.mk.injEq] at heq
  have hreach := Reach.of_exec (.start fresh_created) (Guarded.of_forall (fun _ _ => trivial) _ _)
    (Outcome.next?_eq_some.mp hs)
  obtain ⟨-, ⟨rest, hrest, hlen, -⟩, -⟩ := pipe_ring_is_fifo 2 s hreach
  exact ⟨s, hreach, heq.1, heq.2, rest, hrest, hlen⟩

end Xv6.Pipes
