import Xv6.Console.LineDiscipline

/-! # Reads from the console

The characters that readers take are the finished ones, in their order and once each, and
every read ends at a newline, at `^D`, or at its count.
-/

namespace Xv6.Console

open Function Lib

def Event.char : Event → Option UInt8
  | .took _ c => some c
  | .typed _ => none

def Event.byteOf (id : Nat) : Event → Option UInt8
  | .took j c => if j = id ∧ c ≠ ctrlD then some c else none
  | .typed _ => none

def Event.eofOf (id : Nat) : Event → Bool
  | .took j c => j = id ∧ c = ctrlD
  | .typed _ => false

def bytesOf (h : List Event) (id : Nat) : List UInt8 := h.filterMap (Event.byteOf id)

def eofsOf (h : List Event) (id : Nat) : Nat := h.countP (Event.eofOf id)

def Pc.call : Pc → Option Call
  | .user => none
  | .enter c | .body c => some c

variable {s s' : State} {h : List Event} {y : Ended} {c : Call} {p id : Nat}

/-! ## Where a read ends -/

/-- The read gave its bytes to the user, no newline before the last of them, and stopped for
its reason: it has as many as it asked for, a newline, a `^D` that it has taken before any
byte, or bytes before a `^D` that it has left. -/
structure Cut (h : List Event) (y : Ended) : Prop where
  value : y.how ≠ .killed → y.value = (bytesOf h y.id).length
  line : ∀ k (hk : k < (bytesOf h y.id).length), (bytesOf h y.id)[k] = newline →
    k + 1 = (bytesOf h y.id).length ∧ y.how = .newline
  eofs : eofsOf h y.id = if y.how = .eof then 1 else 0
  reason : match y.how with
    | .count => ((bytesOf h y.id).length : Int) = max y.target 0
    | .newline =>
      (bytesOf h y.id).getLast? = some newline ∧ ((bytesOf h y.id).length : Int) ≤ y.target
    | .eof => bytesOf h y.id = []
    | .beforeEof k => bytesOf h y.id ≠ [] ∧ ((bytesOf h y.id).length : Int) < y.target ∧
        (Editor.run h).done[k]? = some ctrlD
    | .killed => y.value = -1
    | .fault => False

/-- A call that has not returned. -/
structure Reading (h : List Event) (c : Call) : Prop where
  got : ((bytesOf h c.id).length : Int) = c.target - c.n
  line : newline ∉ bytesOf h c.id
  eofs : eofsOf h c.id = 0
  left : c.n = c.target ∨ 0 ≤ c.n

def Apart (id : Nat) (l : List Event) : Prop := ∀ a ∈ l, a.byteOf id = none ∧ a.eofOf id = false

theorem bytesOf_append {l : List Event} (hl : Apart id l) : bytesOf (h ++ l) id = bytesOf h id := by
  have hnone : bytesOf l id = [] := List.filterMap_eq_nil_iff.mpr fun a ha => (hl a ha).1
  unfold bytesOf at *
  rw [List.filterMap_append, hnone, List.append_nil]

theorem eofsOf_append {l : List Event} (hl : Apart id l) : eofsOf (h ++ l) id = eofsOf h id := by
  have hnone : eofsOf l id = 0 := List.countP_eq_zero.mpr fun a ha => by simp [(hl a ha).2]
  unfold eofsOf at *
  rw [List.countP_append, hnone, Nat.add_zero]

theorem apart_typed (c : UInt8) : Apart id [.typed c] := by
  intro a ha
  rw [List.mem_singleton.mp ha]
  exact ⟨rfl, rfl⟩

theorem apart_took {j : Nat} (hj : j ≠ id) (c : UInt8) : Apart id [.took j c] := by
  intro a ha
  rw [List.mem_singleton.mp ha]
  simp [Event.byteOf, Event.eofOf, hj]

theorem Reading.append {l : List Event} (hr : Reading h c) (hl : Apart c.id l) :
    Reading (h ++ l) c := by
  have hb := bytesOf_append (h := h) hl
  have he := eofsOf_append (h := h) hl
  exact ⟨by rw [hb]; exact hr.got, by rw [hb]; exact hr.line, by rw [he]; exact hr.eofs, hr.left⟩

theorem Cut.append {a : Event} (hc : Cut h y) (hl : Apart y.id [a]) : Cut (h ++ [a]) y := by
  obtain ⟨hvalue, hline, heofs, hreason⟩ := hc
  have hb := bytesOf_append (h := h) hl
  refine ⟨by rw [hb]; exact hvalue, by rw [hb]; exact hline,
    by rw [eofsOf_append hl]; exact heofs, ?_⟩
  rw [hb]
  split at hreason
  · exact hreason
  · exact hreason
  · exact hreason
  · rename_i k hhow
    refine ⟨hreason.1, hreason.2.1, ?_⟩
    obtain ⟨rest, hrest⟩ := (Editor.run h).done_grows a
    rw [Editor.run_append, ← hrest]
    obtain ⟨hk, -⟩ := List.getElem?_eq_some_iff.mp hreason.2.2
    rw [List.getElem?_append_left hk]
    exact hreason.2.2
  · exact hreason
  · exact hreason

/-! ## The history -/

/-- The console follows the editor, and what has been taken are the first finished
characters. -/
structure Recorded (h : List Event) (x : Cons) : Prop where
  follows : Follows (Editor.run h) x
  chars : h.filterMap Event.char <+: (Editor.run h).done
  taken : (h.filterMap Event.char).length = (Editor.run h).taken
  pos : h.countP Event.isTook = (Editor.run h).taken

theorem Recorded.typed {x : Cons} (hr : Recorded h x) (c : UInt8) :
    Recorded (h ++ [.typed c]) (x.intr c) := by
  have hrun := Editor.run_append h (.typed c)
  have htaken : (Editor.run (h ++ [.typed c])).taken = (Editor.run h).taken := by
    rw [hrun]
    exact Editor.typed_taken _ c
  have hsame : (h ++ [Event.typed c]).filterMap Event.char = h.filterMap Event.char := by
    rw [List.filterMap_append]
    exact List.append_nil _
  refine ⟨?_, ?_, ?_, ?_⟩
  · rw [hrun]
    exact hr.follows.intr c
  · rw [hrun, hsame]
    exact hr.chars.trans ((Editor.run h).done_grows _)
  · rw [hsame, htaken]
    exact hr.taken
  · rw [List.countP_append, htaken]
    exact hr.pos

theorem Recorded.take {x : Cons} (hr : Recorded h x) (hne : x.r ≠ x.w) (id : Nat) :
    Recorded (h ++ [.took id (x.buf (x.r % INPUT_BUF))]) { x with r := (x.r + 1) % 2 ^ 32 } := by
  obtain ⟨hlt, hnext⟩ := hr.follows.next hne
  have hrun := Editor.run_append h (.took id (x.buf (x.r % INPUT_BUF)))
  have hmap : (h ++ [Event.took id (x.buf (x.r % INPUT_BUF))]).filterMap Event.char =
      h.filterMap Event.char ++ [x.buf (x.r % INPUT_BUF)] := by
    rw [List.filterMap_append]
    rfl
  rw [← hr.taken] at hlt
  refine ⟨?_, ?_, ?_, ?_⟩
  · rw [hrun]
    exact hr.follows.take hne
  · rw [hrun, hmap, hnext]
    simp only [← hr.taken]
    exact List.concat_get_prefix hr.chars hlt
  · rw [hrun, hmap, List.length_append, hr.taken]
    rfl
  · rw [hrun, List.countP_append, hr.pos]
    rfl

/-! ## Sessions -/

structure Session (s : State) : Prop where
  recorded : Recorded s.history s.cons
  known : ∀ id c, .took id c ∈ s.history → id < s.calls
  active : ∀ p c, (s.pc p).call = some c → c.id < s.calls ∧ Reading s.history c
  single : ∀ p q c d, (s.pc p).call = some c → (s.pc q).call = some d → c.id = d.id → p = q
  gone : ∀ y ∈ s.ended, y.id < s.calls ∧ ∀ p c, (s.pc p).call = some c → c.id ≠ y.id
  cuts : ∀ y ∈ s.ended, Cut s.history y

namespace Session

/-- A step of process `p` in its call `c`: it stays in the call at `pc`, or returns. -/
theorem act {pc : Pc} {l : List Event} {ys : List Ended} (hs : Session s)
    (hcall : (s.pc p).call = some c) (hpc : s'.pc = update s.pc p pc)
    (hcalls : s'.calls = s.calls) (hhistory : s'.history = s.history ++ l)
    (hended : s'.ended = s.ended ++ ys) (hl : l = [] ∨ ∃ x, l = [.took c.id x])
    (hrec : Recorded s'.history s'.cons) (hstay : ∀ d, pc.call = some d → d.id = c.id ∧
      Reading s'.history d) (hleave : ∀ y ∈ ys, pc.call = none ∧ y.id = c.id ∧ Cut s'.history y) :
      Session s' := by
  have hself : s'.pc p = pc := by rw [hpc, update_self]
  have hother : ∀ q, q ≠ p → s'.pc q = s.pc q := fun q hq => by rw [hpc, update_of_ne hq]
  have hid := (hs.active p c hcall).1
  have hapart : ∀ id, id ≠ c.id → Apart id l := by
    intro id hne
    rcases hl with rfl | ⟨x, rfl⟩
    · exact fun a ha => (by cases ha)
    · exact apart_took (Ne.symm hne) x
  have hcut : ∀ y, y.id ≠ c.id → Cut s.history y → Cut s'.history y := by
    intro y hne hy
    rw [hhistory]
    rcases hl with rfl | ⟨x, rfl⟩
    · rw [List.append_nil]
      exact hy
    · exact hy.append (apart_took (Ne.symm hne) x)
  -- the call of a process after the step has the number that it had before
  have hbefore : ∀ q d, (s'.pc q).call = some d → ∃ d', (s.pc q).call = some d' ∧ d'.id = d.id := by
    intro q d hd
    by_cases hqp : q = p
    · rw [hqp, hself] at hd
      exact ⟨c, hqp ▸ hcall, (hstay d hd).1.symm⟩
    · rw [hother q hqp] at hd
      exact ⟨d, hd, rfl⟩
  refine ⟨hrec, fun id x hx => ?_, fun q d hd => ?_, fun q r d d' hd hd' heq => ?_, fun y hy => ?_,
    fun y hy => ?_⟩
  · rw [hcalls]
    rw [hhistory] at hx
    rcases List.mem_append.mp hx with hx | hx
    · exact hs.known id x hx
    · rcases hl with rfl | ⟨z, rfl⟩
      · cases hx
      · rw [List.mem_singleton] at hx
        cases hx
        exact hid
  · rw [hcalls]
    by_cases hqp : q = p
    · rw [hqp, hself] at hd
      obtain ⟨heq, hread⟩ := hstay d hd
      exact ⟨heq ▸ hid, hread⟩
    · rw [hother q hqp] at hd
      obtain ⟨hlt, hread⟩ := hs.active q d hd
      refine ⟨hlt, ?_⟩
      rw [hhistory]
      exact hread.append (hapart d.id fun heq => hqp (hs.single q p d c hd hcall heq))
  · obtain ⟨e, he, heid⟩ := hbefore q d hd
    obtain ⟨e', he', heid'⟩ := hbefore r d' hd'
    exact hs.single q r e e' he he' (by rw [heid, heid', heq])
  · rw [hcalls]
    rw [hended] at hy
    rcases List.mem_append.mp hy with hy | hy
    · obtain ⟨hlt, hne⟩ := hs.gone y hy
      refine ⟨hlt, fun q d hd => ?_⟩
      obtain ⟨e, he, heid⟩ := hbefore q d hd
      rw [← heid]
      exact hne q e he
    · obtain ⟨hnone, hyid, -⟩ := hleave y hy
      refine ⟨hyid ▸ hid, fun q d hd heq => ?_⟩
      obtain ⟨e, he, heid⟩ := hbefore q d hd
      have hqp := hs.single q p e c he hcall (by rw [heid, heq, hyid])
      rw [hqp, hself, hnone] at hd
      cases hd
  · rw [hended] at hy
    rcases List.mem_append.mp hy with hy | hy
    · exact hcut y (fun heq => (hs.gone y hy).2 p c hcall heq.symm) (hs.cuts y hy)
    · exact (hleave y hy).2.2

theorem stay {pc : Pc} (hs : Session s) (hcall : (s.pc p).call = some c) (hpc : pc.call = some c)
    (lock : Option Nat) : Session ({ s with lock := lock }.setPc p pc) := by
  refine hs.act hcall rfl rfl (List.append_nil _).symm (List.append_nil _).symm
    (.inl rfl) hs.recorded (fun d hd => ?_) fun y hy => by cases hy
  rw [hpc] at hd
  cases hd
  exact ⟨rfl, (hs.active p c hcall).2⟩

theorem leave (hs : Session s) (hcall : (s.pc p).call = some c) {how : Ending} {value : Int}
    (hcut : Cut s.history ⟨c.id, c.target, how, value⟩) : Session (s.leave p c how value) := by
  refine hs.act hcall rfl rfl (List.append_nil _).symm rfl (.inl rfl) hs.recorded
    (fun d hd => by cases hd) fun y hy => ?_
  rw [List.mem_singleton.mp hy]
  exact ⟨rfl, rfl, hcut⟩

theorem takeLeave (hs : Session s) (hcall : (s.pc p).call = some c) (hne : s.cons.r ≠ s.cons.w)
    {how : Ending} {value : Int} (hcut : Cut (s.take c.id).history ⟨c.id, c.target, how, value⟩) :
    Session ((s.take c.id).leave p c how value) := by
  refine hs.act hcall rfl rfl rfl rfl (.inr ⟨_, rfl⟩) (hs.recorded.take hne c.id)
    (fun d hd => by cases hd) fun y hy => ?_
  rw [List.mem_singleton.mp hy]
  exact ⟨rfl, rfl, hcut⟩

end Session

/-! ## One iteration -/

theorem Reading.noNewline (hr : Reading h c) (k : Nat) (hk : k < (bytesOf h c.id).length) :
    (bytesOf h c.id)[k] ≠ newline := fun heq => hr.line (heq ▸ List.getElem_mem hk)

theorem Reading.cutCount (hr : Reading h c) (hn : ¬ 0 < c.n) :
    Cut h ⟨c.id, c.target, .count, c.target - c.n⟩ := by
  refine ⟨fun _ => hr.got.symm, fun k hk heq => absurd heq (hr.noNewline k hk), hr.eofs, ?_⟩
  change ((bytesOf h c.id).length : Int) = max c.target 0
  have hgot := hr.got
  rcases hr.left with heq | hle <;> omega

theorem Reading.cutKilled (hr : Reading h c) : Cut h ⟨c.id, c.target, .killed, -1⟩ :=
  ⟨fun hne => absurd rfl hne, fun k hk heq => absurd heq (hr.noNewline k hk), hr.eofs, rfl⟩

theorem Reading.cutBeforeEof (hr : Reading h c) (hn : c.n < c.target) {k : Nat} (hpos : 0 < c.n)
    (hk : (Editor.run h).done[k]? = some ctrlD) :
    Cut h ⟨c.id, c.target, .beforeEof k, c.target - c.n⟩ := by
  have hgot := hr.got
  refine ⟨fun _ => hgot.symm, fun k hk heq => absurd heq (hr.noNewline k hk), hr.eofs, ?_, ?_, hk⟩
  · intro hnil
    change bytesOf h c.id = [] at hnil
    rw [hnil] at hgot
    simp only [List.length_nil] at hgot
    omega
  · change ((bytesOf h c.id).length : Int) < c.target
    omega

theorem bytesOf_took {x : UInt8} (hx : x ≠ ctrlD) :
    bytesOf (h ++ [.took id x]) id = bytesOf h id ++ [x] := by
  unfold bytesOf
  rw [List.filterMap_append]
  simp [Event.byteOf, hx]

theorem eofsOf_took {x : UInt8} (hx : x ≠ ctrlD) : eofsOf (h ++ [.took id x]) id = eofsOf h id := by
  unfold eofsOf
  rw [List.countP_append]
  simp [Event.eofOf, hx]

theorem Reading.cutEof (hr : Reading h c) (hn : ¬ c.n < c.target) :
    Cut (h ++ [.took c.id ctrlD]) ⟨c.id, c.target, .eof, c.target - c.n⟩ := by
  have hgot := hr.got
  have hbytes : bytesOf (h ++ [.took c.id ctrlD]) c.id = [] := by
    have hnil : bytesOf h c.id = [] := List.length_eq_zero_iff.mp (by omega)
    unfold bytesOf at hnil ⊢
    rw [List.filterMap_append, hnil]
    simp [Event.byteOf]
  refine ⟨fun _ => ?_, fun k hk => ?_, ?_, hbytes⟩
  · rw [hbytes]
    change c.target - c.n = 0
    omega
  · rw [hbytes] at hk
    cases hk
  · change eofsOf (h ++ [.took c.id ctrlD]) c.id = 1
    have heofs := hr.eofs
    unfold eofsOf at heofs ⊢
    rw [List.countP_append, heofs]
    simp [Event.eofOf]

theorem Reading.cutNewline (hr : Reading h c) (hpos : 0 < c.n) :
    Cut (h ++ [.took c.id newline]) ⟨c.id, c.target, .newline, c.target - (c.n - 1)⟩ := by
  have hgot := hr.got
  have hbytes : bytesOf (h ++ [.took c.id newline]) c.id = bytesOf h c.id ++ [newline] :=
    bytesOf_took (by decide)
  refine ⟨fun _ => ?_, fun k hk heq => ⟨?_, rfl⟩, ?_, ?_⟩
  · rw [hbytes, List.length_append, List.length_singleton]
    change c.target - (c.n - 1) = _
    push_cast
    omega
  · simp only [hbytes, List.length_append, List.length_singleton] at hk heq ⊢
    by_contra hlast
    have hlt : k < (bytesOf h c.id).length := by omega
    rw [List.getElem_append_left hlt] at heq
    exact hr.noNewline k hlt heq
  · rw [eofsOf_took (by decide)]
    exact hr.eofs
  · change (bytesOf (h ++ [.took c.id newline]) c.id).getLast? = some newline ∧
      ((bytesOf (h ++ [.took c.id newline]) c.id).length : Int) ≤ c.target
    rw [hbytes, List.getLast?_concat, List.length_append, List.length_singleton]
    refine ⟨rfl, ?_⟩
    push_cast
    omega

theorem Reading.more (hr : Reading h c) (hpos : 0 < c.n) {x : UInt8} (hx : x ≠ ctrlD)
    (hline : x ≠ newline) : Reading (h ++ [.took c.id x]) { c with n := c.n - 1 } := by
  have hgot := hr.got
  refine ⟨?_, ?_, ?_, .inr (by change 0 ≤ c.n - 1; omega)⟩
  · change ((bytesOf (h ++ [.took c.id x]) c.id).length : Int) = c.target - (c.n - 1)
    rw [bytesOf_took hx, List.length_append, List.length_singleton]
    push_cast
    omega
  · change newline ∉ bytesOf (h ++ [.took c.id x]) c.id
    rw [bytesOf_took hx, List.mem_append, List.mem_singleton, not_or]
    exact ⟨hr.line, Ne.symm hline⟩
  · change eofsOf (h ++ [.took c.id x]) c.id = 0
    rw [eofsOf_took hx]
    exact hr.eofs

theorem Session.readLoop (hs : Session s) (hpc : s.pc p = .body c) (killed : Bool) :
    Session (s.readLoop p c killed true) := by
  have hcall : (s.pc p).call = some c := by rw [hpc]; rfl
  have hr := (hs.active p c hcall).2
  have hfollows := hs.recorded.follows
  unfold State.readLoop
  split
  · rename_i hpos
    split
    · split
      · exact hs.leave hcall hr.cutKilled
      · exact hs.stay hcall rfl none
    · rename_i hne
      obtain ⟨hlt, hnext⟩ := hfollows.next hne
      dsimp only
      split
      · rename_i heof
        split
        · rename_i hless
          -- the position goes forward and back
          have hsame : s.pushBack = s := by
            have hlt : s.cons.r < 2 ^ 32 := by
              rw [hfollows.r]
              exact Nat.mod_lt _ (by decide)
            have hr : usub ((s.cons.r + 1) % 2 ^ 32) 1 = s.cons.r := by
              unfold usub
              omega
            unfold State.pushBack
            rw [hr]
          rw [hsame]
          refine hs.leave hcall (hr.cutBeforeEof hless hpos ?_)
          unfold State.pos
          rw [hs.recorded.pos, List.getElem?_eq_getElem hlt, ← hnext, heof]
        · rename_i hall
          refine hs.takeLeave hcall hne ?_
          change Cut (s.history ++ [.took c.id (s.cons.buf (s.cons.r % INPUT_BUF))]) _
          rw [heof]
          exact hr.cutEof hall
      · rename_i hbyte
        rw [if_neg (by decide)]
        split
        · rename_i hnewline
          refine hs.takeLeave hcall hne ?_
          change Cut (s.history ++ [.took c.id (s.cons.buf (s.cons.r % INPUT_BUF))]) _
          rw [hnewline]
          exact hr.cutNewline hpos
        · rename_i hline
          refine hs.act hcall rfl rfl rfl (List.append_nil _).symm (.inr ⟨_, rfl⟩)
            (hs.recorded.take hne c.id) (fun d hd => ?_) fun y hy => by cases hy
          cases hd
          exact ⟨rfl, hr.more hpos hbyte hline⟩
  · rename_i hn
    exact hs.leave hcall (hr.cutCount hn)

/-! ## Runs -/

theorem Session.start (h : Booted s) : Session s := by
  obtain ⟨hr, hw, he, -, huser, -, hhistory, hended⟩ := h
  have hnone : ∀ p c, (s.pc p).call ≠ some c := by
    intro p c hc
    rw [huser p] at hc
    cases hc
  refine ⟨?_, fun id x hx => ?_, fun p c hc => absurd hc (hnone p c),
    fun p _ c _ hc => absurd hc (hnone p c), fun y hy => ?_, fun y hy => ?_⟩
  · rw [hhistory]
    exact ⟨⟨.empty, hr, hw, he, le_rfl, fun _ hc => (by cases hc), fun _ => rfl⟩,
      List.prefix_rfl, rfl, rfl⟩
  · rw [hhistory] at hx
    cases hx
  · rw [hended] at hy
    cases hy
  · rw [hended] at hy
    cases hy

theorem Session.typed (hs : Session s) (c : UInt8) :
    Session { s with cons := s.cons.intr c, history := s.history ++ [.typed c] } := by
  refine ⟨hs.recorded.typed c, fun id x hx => ?_, fun p d hd => ?_, hs.single, hs.gone,
    fun y hy => ?_⟩
  · rcases List.mem_append.mp hx with hx | hx
    · exact hs.known id x hx
    · rw [List.mem_singleton] at hx
      cases hx
  · obtain ⟨hlt, hr⟩ := hs.active p d hd
    exact ⟨hlt, hr.append (apart_typed c)⟩
  · exact (hs.cuts y hy).append (apart_typed c)

theorem Session.call (hs : Session s) (hpc : s.pc p = .user) (n : Int) :
    Session ({ s with calls := s.calls + 1 }.setPc p (.enter ⟨s.calls, n, n⟩)) := by
  have hnone : Apart s.calls s.history := by
    intro a ha
    cases a with
    | typed c => exact ⟨rfl, rfl⟩
    | took j c =>
      have hne : j ≠ s.calls := Nat.ne_of_lt (hs.known j c ha)
      simp [Event.byteOf, Event.eofOf, hne]
  have hnew : Reading s.history ⟨s.calls, n, n⟩ := by
    have hbytes : bytesOf s.history s.calls = [] :=
      List.filterMap_eq_nil_iff.mpr fun a ha => (hnone a ha).1
    refine ⟨?_, ?_, List.countP_eq_zero.mpr fun a ha => by simp [(hnone a ha).2], .inl rfl⟩
    · change ((bytesOf s.history s.calls).length : Int) = n - n
      rw [hbytes]
      simp
    · change newline ∉ bytesOf s.history s.calls
      rw [hbytes]
      exact List.not_mem_nil
  have hother : ∀ q, q ≠ p → update s.pc p (.enter ⟨s.calls, n, n⟩) q = s.pc q :=
    fun q hq => update_of_ne hq _ _
  have hcalls : ∀ q d, (update s.pc p (.enter ⟨s.calls, n, n⟩) q).call = some d →
      (q = p ∧ d = ⟨s.calls, n, n⟩) ∨ (q ≠ p ∧ (s.pc q).call = some d) := by
    intro q d hd
    by_cases hq : q = p
    · subst hq
      rw [update_self] at hd
      cases hd
      exact .inl ⟨rfl, rfl⟩
    · rw [hother q hq] at hd
      exact .inr ⟨hq, hd⟩
  refine ⟨hs.recorded, fun id x hx => Nat.lt_succ_of_lt (hs.known id x hx), fun q d hd => ?_,
    fun q r d e hd he heq => ?_, fun y hy => ?_, hs.cuts⟩
  · change d.id < s.calls + 1 ∧ Reading s.history d
    rcases hcalls q d hd with ⟨-, rfl⟩ | ⟨-, hd⟩
    · exact ⟨Nat.lt_succ_self _, hnew⟩
    · exact ⟨Nat.lt_succ_of_lt (hs.active q d hd).1, (hs.active q d hd).2⟩
  · rcases hcalls q d hd with ⟨rfl, rfl⟩ | ⟨-, hd⟩
    · rcases hcalls r e he with ⟨rfl, -⟩ | ⟨-, he⟩
      · rfl
      · exact absurd (hs.active r e he).1 (heq ▸ Nat.lt_irrefl _)
    · rcases hcalls r e he with ⟨-, rfl⟩ | ⟨-, he⟩
      · exact absurd (hs.active q d hd).1 (heq ▸ Nat.lt_irrefl _)
      · exact hs.single q r d e hd he heq
  · obtain ⟨hlt, hne⟩ := hs.gone y hy
    refine ⟨Nat.lt_succ_of_lt hlt, fun q d hd => ?_⟩
    rcases hcalls q d hd with ⟨-, rfl⟩ | ⟨-, hd⟩
    · exact Nat.ne_of_gt hlt
    · exact hne q d hd

theorem Session.step (hs : Session s) (a : Action) (hcopies : Copies a) :
    (step s a).Sat (fun _ => True) Session := by
  cases a with
  | consoleintr c =>
    exact .guard fun _ => .next (hs.typed c)
  | consoleread p n =>
    exact .guard fun hpc => .next (hs.call hpc n)
  | run p killed copyout =>
    cases hcopies
    change Outcome.Sat _ _ (match s.pc p with | .user => _ | .enter c => _ | .body c => _)
    split
    · exact .blocked
    · rename_i c hpc
      exact .guard fun _ => .next (hs.stay (by rw [hpc]; rfl) rfl (some p))
    · rename_i c hpc
      exact .next (hs.readLoop hpc killed)

/-- Cells before `w` hold the finished characters that have not been taken. -/
theorem Follows.finished {x : Editor} {y : Cons} (h : Follows x y) {k : Nat}
    (hk : k < usub y.w y.r) :
    ∃ hlt : x.taken + k < x.done.length, y.buf ((y.r + k) % 2 ^ 32 % INPUT_BUF) =
    x.done[x.taken + k] := by
  rw [h.w_sub_r] at hk
  have hlt : x.taken + k < x.done.length := by omega
  refine ⟨hlt, ?_⟩
  rw [h.cell (k := x.taken + k) ?_ (Nat.le_add_right _ _) (by rw [Follows.length_eq]; omega),
    List.getElem_append_left hlt]
  rw [h.r, Nat.mod_add_mod]

/-- For every sequence of characters and reads whose `either_copyout` succeeds: the indices stay in
order within `INPUT_BUF`; the line that is being edited has no newline and no `^D`, and is
finished when the buffer is full; `consoleintr` leaves the finished characters alone; the
characters taken are the first that the editor has finished, in order, and the rest of these are
in the buffer from `r` to `w`; and every read has ended at its count, at a newline, at a `^D`,
before a `^D`, or by `kill`. -/
theorem console_line_discipline (s : State) (hreach : Reach step (fun _ a => Copies a) Booted s) :
    (usub s.cons.w s.cons.r ≤ usub s.cons.e s.cons.r ∧ usub s.cons.e s.cons.r ≤ INPUT_BUF) ∧
    (∀ k, k < usub s.cons.e s.cons.w → s.cons.buf ((s.cons.w + k) % 2 ^ 32 % INPUT_BUF) ≠ newline ∧
      s.cons.buf ((s.cons.w + k) % 2 ^ 32 % INPUT_BUF) ≠ ctrlD) ∧
    (usub s.cons.e s.cons.r = INPUT_BUF → s.cons.w = s.cons.e) ∧
    (∀ c s', step s (.consoleintr c) = .next s' → s'.cons.r = s.cons.r ∧
      usub s.cons.w s.cons.r ≤ usub s'.cons.w s'.cons.r ∧
      ∀ k, k < usub s.cons.w s.cons.r → s'.cons.buf ((s.cons.r + k) % 2 ^ 32 % INPUT_BUF) =
        s.cons.buf ((s.cons.r + k) % 2 ^ 32 % INPUT_BUF)) ∧
    (∃ rest, (Editor.run s.history).done = s.history.filterMap Event.char ++ rest ∧
      rest.length = usub s.cons.w s.cons.r ∧
      ∀ k (hk : k < rest.length), s.cons.buf ((s.cons.r + k) % 2 ^ 32 % INPUT_BUF) = rest[k]) ∧
    ∀ y ∈ s.ended, Cut s.history y := by
  have hs : Session s :=
    hreach.invariant (fun _ => Session.start) fun _ a _ ht hok hstep =>
      (ht.step a hok).of_next hstep
  have h := hs.recorded.follows
  have hroom := h.room
  have hle := h.le
  refine ⟨?_, fun k hk => ?_, fun hfull => ?_, fun c s' hstep => ?_, ?_, hs.cuts⟩
  · rw [h.w_sub_r, h.e_sub_r]
    omega
  · rw [h.e_sub_w] at hk
    have hidx : (Editor.run s.history).done.length + k <
        ((Editor.run s.history).done ++ (Editor.run s.history).line).length := by
      rw [Follows.length_eq]
      omega
    have hcell := h.cell (i := (s.cons.w + k) % 2 ^ 32) (by rw [h.w, Nat.mod_add_mod])
      (Nat.le_add_right_of_le hle) hidx
    rw [hcell, List.getElem_append_right (Nat.le_add_right _ _)]
    exact h.unfinished _ (List.getElem_mem _)
  · refine (h.e_eq_w.mpr (h.full ?_)).symm
    rw [h.e_sub_r] at hfull
    rw [Follows.length_eq]
    omega
  · have hs' : Session s' := (hs.step (.consoleintr c) trivial).of_next hstep
    have h' := hs'.recorded.follows
    have hhistory : s'.history = s.history ++ [.typed c] := by
      change (if s.lock = none then _ else _) = _ at hstep
      split at hstep
      · cases hstep
        rfl
      · cases hstep
    have htaken : (Editor.run s'.history).taken = (Editor.run s.history).taken := by
      rw [hhistory, Editor.run_append]
      exact Editor.typed_taken _ c
    obtain ⟨rest, hrest⟩ : (Editor.run s.history).done <+: (Editor.run s'.history).done := by
      rw [hhistory, Editor.run_append]
      exact Editor.done_grows _ _
    have hlen : (Editor.run s.history).done.length ≤ (Editor.run s'.history).done.length := by
      rw [← hrest, List.length_append]
      exact Nat.le_add_right _ _
    have hsame : s'.cons.r = s.cons.r := by rw [h.r, h'.r, htaken]
    have hmore : usub s.cons.w s.cons.r ≤ usub s'.cons.w s'.cons.r := by
      rw [h.w_sub_r, h'.w_sub_r, htaken]
      omega
    refine ⟨hsame, hmore, fun k hk => ?_⟩
    obtain ⟨hlt, hcell⟩ := h.finished hk
    obtain ⟨hlt', hcell'⟩ := h'.finished (Nat.lt_of_lt_of_le hk hmore)
    rw [hsame] at hcell'
    rw [hcell, hcell']
    simp only [htaken, ← hrest]
    rw [List.getElem_append_left hlt]
  · obtain ⟨rest, hrest⟩ := hs.recorded.chars
    have hlen : (s.history.filterMap Event.char).length + rest.length =
        (Editor.run s.history).done.length := by
      rw [← hrest, List.length_append]
    have htaken := hs.recorded.taken
    have hrl : rest.length = usub s.cons.w s.cons.r := by
      rw [h.w_sub_r]
      omega
    refine ⟨rest, hrest.symm, hrl, fun k hk => ?_⟩
    obtain ⟨hlt, hcell⟩ := h.finished (hrl ▸ hk)
    rw [hcell]
    simp only [← htaken, ← hrest]
    rw [List.getElem_append_right (Nat.le_add_right _ _)]
    simp

/-! ## A run -/

def fresh : State := ⟨⟨fun _ => 0, 0, 0, 0⟩, none, fun _ => .user, 0, [], []⟩

theorem fresh_booted : Booted fresh := ⟨rfl, rfl, rfl, rfl, fun _ => rfl, rfl, rfl, rfl⟩

/-- `x`, kill-line, `a`, `b`, delete, return and `^D` are typed, and read in two calls. -/
def typingRun : List Action :=
  [.consoleread 0 10, .run 0 false true, .run 0 false true, .consoleintr 120, .consoleintr ctrlU,
    .consoleintr 97,
    .consoleintr 98, .consoleintr delete, .consoleintr carriageReturn, .consoleintr ctrlD,
    .run 0 false true,
    .run 0 false true, .run 0 false true, .consoleread 0 5, .run 0 false true, .run 0 false true]

theorem console_line_discipline_typingRun : ∃ s : State, Reach step (fun _ a => Copies a) Booted s ∧
    s.ended = [⟨0, 10, .newline, 2⟩, ⟨1, 5, .eof, 0⟩] ∧ s.history.filterMap Event.char =
    [97, newline, ctrlD] ∧ ∀ y ∈ s.ended, Cut s.history y := by
  have hrun : ((exec step fresh typingRun).next?.map fun s => (s.ended,
      s.history.filterMap Event.char)) =
      some ([⟨0, 10, .newline, 2⟩, ⟨1, 5, .eof, 0⟩], [97, newline, ctrlD]) := by
    decide +kernel
  have hguard : Guarded step (fun _ a => Copies a) fresh typingRun := by decide +kernel
  obtain ⟨s, hs, heq⟩ := Option.map_eq_some_iff.mp hrun
  simp only [Prod.mk.injEq] at heq
  have hreach := Reach.of_exec (.start fresh_booted) hguard (Outcome.next?_eq_some.mp hs)
  exact ⟨s, hreach, heq.1, heq.2, (console_line_discipline s hreach).2.2.2.2.2⟩

end Xv6.Console
