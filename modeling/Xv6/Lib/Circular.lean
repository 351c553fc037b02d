import Mathlib.Data.List.Chain
import Mathlib.Data.List.Nodup

/-! # Circular lists

A list that is linked by one pointer for each element and closes on its first one. A ring can
be read from any of its elements, and a search along it finds the element it is for.
-/

namespace Xv6.Lib

variable {α : Type*} {next : α → α} {a b x y z : α} {l l₁ l₂ : List α}

/-- The links lead from each element to the one behind it. -/
def Linked (next : α → α) (l : List α) : Prop := l.IsChain fun x y => next x = y

/-- From `a` the links lead through `l` back to `a`. -/
def Circular (next : α → α) (a : α) (l : List α) : Prop := Linked next (a :: (l ++ [a]))

namespace Linked

theorem congr {next' : α → α} (h : Linked next (l ++ [z])) (hnext : ∀ x ∈ l, next' x = next x) :
    Linked next' (l ++ [z]) := by
  induction l with
  | nil => exact List.isChain_singleton z
  | cons a l ih =>
    have htail : Linked next' (l ++ [z]) :=
      ih (List.IsChain.tail h) fun x hx => hnext x (List.mem_cons_of_mem a hx)
    cases l with
    | nil =>
      refine List.isChain_cons_cons.mpr ⟨?_, htail⟩
      rw [hnext a (by simp)]
      exact (List.isChain_cons_cons.mp h).1
    | cons b l =>
      refine List.isChain_cons_cons.mpr ⟨?_, htail⟩
      rw [hnext a (by simp)]
      exact (List.isChain_cons_cons.mp h).1

theorem split : Linked next (l₁ ++ b :: l₂) ↔ Linked next (l₁ ++ [b]) ∧ Linked next (b :: l₂) :=
  List.isChain_split

end Linked

theorem Circular.rotate (h : Circular next a (l₁ ++ b :: l₂)) :
    Circular next b (l₂ ++ a :: l₁) := by
  have hsplit : Linked next ((a :: l₁) ++ b :: (l₂ ++ [a])) := by
    unfold Circular at h
    rw [List.append_assoc] at h
    exact h
  obtain ⟨h₁, h₂⟩ := Linked.split.mp hsplit
  have hjoin : Linked next ((b :: l₂) ++ a :: (l₁ ++ [b])) := Linked.split.mpr ⟨h₂, h₁⟩
  unfold Circular
  rw [List.append_assoc]
  exact hjoin

theorem Circular.from (h : Circular next a l) (hb : b ∈ a :: l) :
    ∃ l', Circular next b l' ∧ (b :: l').Perm (a :: l) := by
  rcases List.mem_cons.mp hb with rfl | hmem
  · exact ⟨l, h, .refl _⟩
  · obtain ⟨l₁, l₂, rfl⟩ := List.append_of_mem hmem
    refine ⟨_, h.rotate, ?_⟩
    have hperm : ((b :: l₂) ++ (a :: l₁)).Perm ((a :: l₁) ++ (b :: l₂)) := List.perm_append_comm
    exact hperm

/-- The loop `for(; !p(a); a = next(a))`, for at most the given number of rounds. -/
def seek (next : α → α) (p : α → Bool) : Nat → α → Option α
  | 0, _ => none
  | n + 1, a => if p a then some a else seek next p n (next a)

theorem Linked.seek {p : α → Bool} {n : Nat} (h : Linked next (a :: l)) (hz : z ∈ a :: l)
    (hp : p z = true) (honly : ∀ x ∈ a :: l, p x = true → x = z) (hn : l.length < n) :
    seek next p n a = some z := by
  induction l generalizing a n with
  | nil =>
    obtain ⟨n, rfl⟩ : ∃ m, n = m + 1 := ⟨n - 1, by simp at hn; omega⟩
    rw [List.mem_singleton] at hz
    subst hz
    simp [Lib.seek, hp]
  | cons b l ih =>
    obtain ⟨n, rfl⟩ : ∃ m, n = m + 1 := ⟨n - 1, by simp at hn; omega⟩
    unfold Lib.seek
    by_cases hpa : p a = true
    · rw [if_pos hpa, honly a List.mem_cons_self hpa]
    · obtain ⟨hab, hrest⟩ := List.isChain_cons_cons.mp h
      rw [if_neg hpa, hab]
      refine ih hrest ?_ (fun x hx => honly x (List.mem_cons_of_mem a hx)) (by simp at hn; omega)
      rcases List.mem_cons.mp hz with rfl | hmem
      · exact absurd hp hpa
      · exact hmem

/-- A loop along the links with the element before the one that it looks at: it takes the first
element with room, and goes on with `more` when it has come to `stop` without one. -/
structure RoundLoop {β : Type*} (next : α → α) (room : α → Prop) (stop : α) (take : α → α → β)
    (more : Nat → β) (loop : Nat → α → α → β) : Prop where
  found : ∀ fuel y x, room x → loop (fuel + 1) y x = take y x
  around : ∀ fuel y, ¬ room stop → loop (fuel + 1) y stop = more fuel
  ahead : ∀ fuel y x, ¬ room x → x ≠ stop → loop (fuel + 1) y x = loop fuel x (next x)

theorem RoundLoop.round {β : Type*} {room : α → Prop} {stop : α} {take : α → α → β} {more : Nat → β}
    {loop : Nat → α → α → β} (h : RoundLoop next room stop take more loop)
    (hlinked : Linked next (a :: (l ++ [stop]))) (hstop : stop ∉ l) (fuel : Nat) :
    (∃ y ∈ a :: l, ∃ x ∈ l ++ [stop], next y = x ∧ room x ∧ loop (l.length + 1 + fuel) a (next a) =
      take y x) ∨
      (∀ x ∈ l ++ [stop], ¬ room x) ∧ loop (l.length + 1 + fuel) a (next a) = more fuel := by
  induction l generalizing a with
  | nil =>
    have hnext : next a = stop := (List.isChain_cons_cons.mp hlinked).1
    rw [List.length_nil, Nat.zero_add, Nat.add_comm 1 fuel, hnext]
    by_cases hroom : room stop
    · exact .inl ⟨a, by simp, stop, by simp, hnext, hroom, h.found fuel a stop hroom⟩
    · refine .inr ⟨fun x hx => ?_, h.around fuel a hroom⟩
      rw [List.mem_singleton.mp hx]
      exact hroom
  | cons b l ih =>
    obtain ⟨hnext, hrest⟩ := List.isChain_cons_cons.mp hlinked
    have hne : b ≠ stop := fun hb => hstop (by simp [hb])
    rw [hnext, List.length_cons, Nat.add_right_comm _ 1 1, Nat.add_right_comm _ 1 fuel]
    by_cases hroom : room b
    · exact .inl ⟨a, by simp, b, by simp, hnext, hroom, h.found _ a b hroom⟩
    · rw [h.ahead _ a b hroom hne]
      rcases ih hrest fun hb => hstop (List.mem_cons_of_mem _ hb) with
        ⟨y, hy, x, hx, hyx, hroom', heq⟩ | ⟨hnone, heq⟩
      · exact .inl ⟨y, List.mem_cons_of_mem _ hy, x, List.mem_cons_of_mem _ hx, hyx, hroom', heq⟩
      · refine .inr ⟨fun x hx => ?_, heq⟩
        rcases List.mem_cons.mp hx with rfl | hx
        · exact hroom
        · exact hnone x hx

end Xv6.Lib
