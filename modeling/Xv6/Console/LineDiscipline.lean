import Xv6.Console.Model
import Xv6.Lib.RingBuffer

/-! # The line discipline of the console

An editor without a ring: lines that are done, the line that is being edited, and the number
of characters that have been read. The console follows it through every run.
-/

namespace Xv6.Console

open Lib

/-- What the console is for. The characters of finished lines are in `done`, of which the
first `taken` have been read; `line` can still be edited. -/
structure Editor where
  done : List UInt8
  line : List UInt8
  taken : Nat

namespace Editor

variable (x : Editor)

def translate (c : UInt8) : UInt8 := if c = carriageReturn then newline else c

/-- A character after translation, for which there is room. -/
def add (c : UInt8) : Editor :=
  if c = newline ∨ c = ctrlD ∨ (x.done ++ (x.line ++ [c])).length = x.taken + INPUT_BUF then
    ⟨x.done ++ (x.line ++ [c]), [], x.taken⟩
  else { x with line := x.line ++ [c] }

def typed (c : UInt8) : Editor :=
  if c = ctrlP then x
  else if c = ctrlU then { x with line := [] }
  else if c = ctrlH ∨ c = delete then { x with line := x.line.dropLast }
  else if c ≠ 0 ∧ (x.done ++ x.line).length < x.taken + INPUT_BUF then x.add (translate c)
  else x

def after : Event → Editor
  | .typed c => x.typed c
  | .took .. => { x with taken := x.taken + 1 }

def run (h : List Event) : Editor := h.foldl after ⟨[], [], 0⟩

theorem run_append (h : List Event) (a : Event) : run (h ++ [a]) = (run h).after a := by
  simp [run, List.foldl_append]

theorem done_grows (a : Event) : x.done <+: (x.after a).done := by
  cases a with
  | took id c => exact List.prefix_rfl
  | typed c =>
    change _ <+: (x.typed c).done
    unfold typed add
    split_ifs <;> first | exact List.prefix_rfl | exact List.prefix_append _ _

theorem typed_taken (c : UInt8) : (x.typed c).taken = x.taken := by
  unfold typed add
  split_ifs <;> rfl

end Editor

variable {x : Editor} {y : Cons} {c : UInt8}

/-- The ring and its three indices stand for the editor. -/
structure Follows (x : Editor) (y : Cons) : Prop where
  ring : RingHolds INPUT_BUF y.buf (x.done ++ x.line) x.taken
  r : y.r = x.taken % 2 ^ 32
  w : y.w = x.done.length % 2 ^ 32
  e : y.e = (x.done ++ x.line).length % 2 ^ 32
  le : x.taken ≤ x.done.length
  unfinished : ∀ c ∈ x.line, c ≠ newline ∧ c ≠ ctrlD
  full : (x.done ++ x.line).length = x.taken + INPUT_BUF → x.line = []

namespace Follows

theorem room (h : Follows x y) : x.done.length + x.line.length ≤ x.taken + INPUT_BUF := by
  simpa using h.ring.room

theorem length_eq : (x.done ++ x.line).length = x.done.length + x.line.length := List.length_append

theorem w_sub_r (h : Follows x y) : usub y.w y.r = x.done.length - x.taken := by
  have hroom := h.room
  have hle := h.le
  unfold usub INPUT_BUF at *
  rw [h.w, h.r]
  omega

theorem e_sub_r (h : Follows x y) : usub y.e y.r = x.done.length + x.line.length - x.taken := by
  have hroom := h.room
  have hle := h.le
  unfold usub INPUT_BUF at *
  rw [h.e, h.r, length_eq]
  omega

theorem e_sub_w (h : Follows x y) : usub y.e y.w = x.line.length := by
  have hroom := h.room
  have hle := h.le
  unfold usub INPUT_BUF at *
  rw [h.e, h.w, length_eq]
  omega

theorem e_eq_w (h : Follows x y) : y.e = y.w ↔ x.line = [] := by
  have hroom := h.room
  have hle := h.le
  unfold INPUT_BUF at hroom
  rw [h.e, h.w, length_eq, ← List.length_eq_zero_iff]
  omega

theorem r_eq_w (h : Follows x y) : y.r = y.w ↔ x.taken = x.done.length := by
  have hroom := h.room
  have hle := h.le
  unfold INPUT_BUF at hroom
  rw [h.r, h.w]
  omega

theorem cell (h : Follows x y) {i k : Nat} (hi : i = k % 2 ^ 32) (hlo : x.taken ≤ k)
    (hk : k < (x.done ++ x.line).length) : y.buf (i % INPUT_BUF) = (x.done ++ x.line)[k] := by
  have hmod : i % INPUT_BUF = k % INPUT_BUF := by
    rw [hi]
    exact Nat.mod_mod_of_dvd _ ⟨2 ^ 25, rfl⟩
  rw [hmod]
  exact h.ring.cell k hlo hk

/-! ## Editing -/

theorem eraseLast (h : Follows x y) (hline : x.line ≠ []) :
    Follows { x with line := x.line.dropLast } { y with e := usub y.e 1 } := by
  obtain ⟨l, c, hl⟩ := (List.eq_nil_or_concat' x.line).resolve_left hline
  have hring := h.ring
  have hroom := h.room
  have he := h.e
  rw [hl, ← List.append_assoc] at hring
  have hle : x.taken ≤ (x.done ++ l).length := by
    rw [List.length_append]
    exact Nat.le_add_right_of_le h.le
  refine ⟨?_, h.r, h.w, ?_, h.le, fun d hd => h.unfinished d (List.mem_of_mem_dropLast hd),
    fun hfull => ?_⟩
  · change RingHolds INPUT_BUF y.buf (x.done ++ x.line.dropLast) x.taken
    rw [hl, List.dropLast_concat]
    exact hring.pop hle
  · change usub y.e 1 = (x.done ++ x.line.dropLast).length % 2 ^ 32
    rw [hl] at he ⊢
    rw [List.dropLast_concat]
    simp only [List.length_append, List.length_singleton] at he ⊢
    unfold usub
    omega
  · change x.line.dropLast = []
    rw [hl] at hroom
    change (x.done ++ x.line.dropLast).length = _ at hfull
    rw [hl, List.dropLast_concat] at hfull
    simp only [List.length_append, List.length_singleton] at hroom hfull
    omega

theorem erase (h : Follows x y) : Follows { x with line := x.line.dropLast } y.erase := by
  unfold Cons.erase
  split
  · rename_i hne
    exact h.eraseLast fun hline => hne (h.e_eq_w.mpr hline)
  · rename_i heq
    have hline : x.line = [] := h.e_eq_w.mp (not_not.mp heq)
    have hsame : ({ x with line := x.line.dropLast } : Editor) = x := by
      rw [hline]
      cases x
      cases hline
      rfl
    rw [hsame]
    exact h

/-- The loop of kill-line stops at `w`, for the line has no newline. -/
theorem killLine (h : Follows x y) {fuel : Nat} (hfuel : x.line.length ≤ fuel) :
    Follows { x with line := [] } (Cons.killLine fuel y) := by
  induction fuel generalizing x y with
  | zero =>
    have hline : x.line = [] := List.length_eq_zero_iff.mp (Nat.le_zero.mp hfuel)
    cases x
    cases hline
    exact h
  | succ fuel ih =>
    unfold Cons.killLine
    by_cases hline : x.line = []
    · rw [if_neg fun hne => hne.1 (h.e_eq_w.mpr hline)]
      cases x
      cases hline
      exact h
    · have hpos := List.length_pos_iff.mpr hline
      have hlast : y.buf (usub y.e 1 % INPUT_BUF) ≠ newline := by
        have hk : (x.done ++ x.line).length - 1 < (x.done ++ x.line).length := by
          rw [length_eq]
          omega
        have hcell := h.cell (i := usub y.e 1) (k := (x.done ++ x.line).length - 1) ?_ ?_ hk
        · rw [hcell, ← List.getLast_eq_getElem (List.append_ne_nil_of_right_ne_nil _ hline),
            List.getLast_append_of_ne_nil _ hline]
          exact (h.unfinished _ (List.getLast_mem hline)).1
        · have he := h.e
          rw [length_eq] at he ⊢
          unfold usub
          omega
        · have hle := h.le
          rw [length_eq]
          omega
      rw [if_pos ⟨fun heq => hline (h.e_eq_w.mp heq), hlast⟩]
      have hless : x.line.dropLast.length ≤ fuel := by
        rw [List.length_dropLast]
        omega
      have hrest := ih (h.eraseLast hline) hless
      exact hrest

theorem insert (h : Follows x y) (hroom : (x.done ++ x.line).length < x.taken + INPUT_BUF)
    (c : UInt8) : Follows (x.add c) (y.insert c) := by
  have hmod : y.e % INPUT_BUF = (x.done ++ x.line).length % INPUT_BUF := by
    rw [h.e]
    exact Nat.mod_mod_of_dvd _ ⟨2 ^ 25, rfl⟩
  have hring : RingHolds INPUT_BUF (Function.update y.buf (y.e % INPUT_BUF) c)
      (x.done ++ (x.line ++ [c])) x.taken := by
    rw [hmod, ← List.append_assoc]
    exact h.ring.push hroom c
  have hlen : (x.done ++ (x.line ++ [c])).length = (x.done ++ x.line).length + 1 := by
    simp only [List.length_append, List.length_singleton]
    omega
  have he : (y.e + 1) % 2 ^ 32 = (x.done ++ (x.line ++ [c])).length % 2 ^ 32 := by
    rw [h.e, hlen, Nat.mod_add_mod]
  have hfull : (y.e + 1) % 2 ^ 32 = (y.r + INPUT_BUF) % 2 ^ 32 ↔
      (x.done ++ (x.line ++ [c])).length = x.taken + INPUT_BUF := by
    have hle := h.le
    rw [he, hlen, h.r]
    rw [length_eq] at hroom ⊢
    unfold INPUT_BUF at *
    omega
  unfold Editor.add Cons.insert
  dsimp only
  by_cases hend : c = newline ∨ c = ctrlD ∨ (x.done ++ (x.line ++ [c])).length = x.taken + INPUT_BUF
  · rw [if_pos hend, if_pos (by rw [hfull]; exact hend)]
    refine ⟨?_, h.r, he, ?_, ?_, fun d hd => (by cases hd), fun _ => rfl⟩
    · change RingHolds _ _ (x.done ++ (x.line ++ [c]) ++ []) _
      rw [List.append_nil]
      exact hring
    · change _ = (x.done ++ (x.line ++ [c]) ++ []).length % 2 ^ 32
      rw [List.append_nil]
      exact he
    · exact hring.le
  · rw [if_neg hend, if_neg (by rw [hfull]; exact hend)]
    rw [not_or, not_or] at hend
    refine ⟨hring, h.r, h.w, he, h.le, fun d hd => ?_, fun hall => absurd hall hend.2.2⟩
    rcases List.mem_append.mp hd with hd | hd
    · exact h.unfinished d hd
    · rw [List.mem_singleton.mp hd]
      exact ⟨hend.1, hend.2.1⟩

theorem intr (h : Follows x y) (c : UInt8) : Follows (x.typed c) (y.intr c) := by
  have hroom := h.room
  unfold Editor.typed Cons.intr
  split
  · exact h
  · split
    · refine h.killLine ?_
      have hle := h.le
      have hsub := h.e_sub_w
      rw [← hsub]
      exact Nat.le_of_lt (Nat.mod_lt _ (by decide))
    · split
      · exact h.erase
      · have hiff : usub y.e y.r < INPUT_BUF ↔ (x.done ++ x.line).length < x.taken + INPUT_BUF := by
          have hle := h.le
          rw [h.e_sub_r, length_eq]
          unfold INPUT_BUF at *
          omega
        by_cases hadd : c ≠ 0 ∧ (x.done ++ x.line).length < x.taken + INPUT_BUF
        · rw [if_pos hadd, if_pos (by rw [hiff]; exact hadd)]
          exact h.insert hadd.2 _
        · rw [if_neg hadd, if_neg (by rw [hiff]; exact hadd)]
          exact h

/-! ## Reading -/

/-- The next character for a reader is the next one that is done. -/
theorem next (h : Follows x y) (hne : y.r ≠ y.w) :
    ∃ hlt : x.taken < x.done.length, y.buf (y.r % INPUT_BUF) = x.done[x.taken] := by
  have hlt : x.taken < x.done.length := Nat.lt_of_le_of_ne h.le fun heq => hne (h.r_eq_w.mpr heq)
  refine ⟨hlt, ?_⟩
  rw [h.cell h.r le_rfl (by rw [length_eq]; omega), List.getElem_append_left hlt]

theorem take (h : Follows x y) (hne : y.r ≠ y.w) :
    Follows { x with taken := x.taken + 1 } { y with r := (y.r + 1) % 2 ^ 32 } := by
  obtain ⟨hlt, -⟩ := h.next hne
  have hroom := h.room
  refine ⟨h.ring.take (by rw [length_eq]; omega), ?_, h.w, h.e, hlt, h.unfinished, fun hall => ?_⟩
  · change (y.r + 1) % 2 ^ 32 = (x.taken + 1) % 2 ^ 32
    rw [h.r, Nat.mod_add_mod]
  · change (x.done ++ x.line).length = x.taken + 1 + INPUT_BUF at hall
    rw [length_eq] at hall
    omega

end Follows

end Xv6.Console
