import Mathlib.Data.List.Basic
import Mathlib.Logic.Function.Basic

/-! # Replaying a list of writes

A store is a function from addresses to values, a redo log a list of
address-value pairs applied in order. A replay changes the store only at the
addresses that the log names.
-/

namespace Xv6.Lib

open Function

variable {α β : Type*} [DecidableEq α]

def replay : List (α × β) → (α → β) → (α → β)
  | [], d => d
  | w :: ws, d => replay ws (update d w.1 w.2)

@[simp] theorem replay_cons (w : α × β) (ws : List (α × β)) (d : α → β) :
    replay (w :: ws) d = replay ws (update d w.1 w.2) := rfl

theorem replay_append (ws vs : List (α × β)) (d : α → β) :
    replay (ws ++ vs) d = replay vs (replay ws d) := by
  induction ws generalizing d with
  | nil => rfl
  | cons w ws ih => simp [ih]

theorem replay_of_not_mem {ws : List (α × β)} {a : α} (h : a ∉ ws.map Prod.fst) (d : α → β) :
    replay ws d a = d a := by
  induction ws generalizing d with
  | nil => rfl
  | cons w ws ih =>
    simp only [List.map_cons, List.mem_cons, not_or] at h
    rw [replay_cons, ih h.2, update_of_ne h.1]

theorem replay_map (v : α → β) (l : List α) (d : α → β) (a : α) :
    replay (l.map fun a => (a, v a)) d a = if a ∈ l then v a else d a := by
  induction l generalizing d with
  | nil => rfl
  | cons b l ih =>
    rw [List.map_cons, replay_cons, ih]
    by_cases hl : a ∈ l
    · rw [if_pos hl, if_pos (List.mem_cons_of_mem _ hl)]
    · rw [if_neg hl]
      by_cases hab : a = b
      · rw [hab, if_pos List.mem_cons_self, update_self]
      · rw [if_neg (List.not_mem_cons_of_ne_of_not_mem hab hl), update_of_ne hab]

end Xv6.Lib
