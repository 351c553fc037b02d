import Mathlib.Data.List.Nodup
import Mathlib.Logic.Function.Basic

/-! # Doubly linked rings

Lists that are linked by hand through `next` and `prev`, with a head that closes the
ring. Inserting and unlinking are the usual four and two assignments, in their order;
loops over the ring visit exactly its elements.
-/

namespace Xv6.Lib

open Function

structure Links (α : Type*) where
  next : α → α
  prev : α → α

namespace Links

variable {α : Type*}

/-- From `a` the links lead through `l` to `z`, and back. -/
def Path (k : Links α) : α → List α → α → Prop
  | a, [], z => k.next a = z ∧ k.prev z = a
  | a, b :: l, z => (k.next a = b ∧ k.prev b = a) ∧ k.Path b l z

/-- The ring with head `h` and elements `l`, each once. -/
structure Ring (k : Links α) (h : α) (l : List α) : Prop where
  path : k.Path h l h
  nodup : (h :: l).Nodup

/-- The same list, read backwards. -/
def flip (k : Links α) : Links α := ⟨k.prev, k.next⟩

section

variable [DecidableEq α]

def unlink (k : Links α) (b : α) : Links α :=
  let k := { k with prev := update k.prev (k.next b) (k.prev b) }
  { k with next := update k.next (k.prev b) (k.next b) }

def insert (k : Links α) (h b : α) : Links α :=
  let k := { k with next := update k.next b (k.next h) }
  let k := { k with prev := update k.prev b h }
  let k := { k with prev := update k.prev (k.next h) b }
  { k with next := update k.next h b }

/-- The loop `for(; b != stop; b = next b)` up to the first element with `p`, for at most
the given number of rounds. -/
def walk (next : α → α) (stop : α) (p : α → Bool) : Nat → α → Option (Option α)
  | 0, _ => none
  | n + 1, b =>
    if b = stop then some none else if p b then some (some b) else walk next stop p n (next b)

end

variable {k k' : Links α} {a b h z : α} {l l₁ l₂ : List α}

theorem Path.congr (hpath : k.Path a l z) (hnext : ∀ x ∈ a :: l, k'.next x = k.next x)
    (hprev : ∀ x ∈ l ++ [z], k'.prev x = k.prev x) : k'.Path a l z := by
  induction l generalizing a with
  | nil =>
    obtain ⟨hn, hp⟩ := hpath
    refine ⟨?_, ?_⟩
    · rw [hnext a (by simp), hn]
    · rw [hprev z (by simp), hp]
  | cons b l ih =>
    obtain ⟨⟨hn, hp⟩, hrest⟩ := hpath
    refine ⟨⟨?_, ?_⟩, ih hrest (fun x hx => ?_) fun x hx => ?_⟩
    · rw [hnext a (by simp), hn]
    · rw [hprev b (by simp), hp]
    · exact hnext x (List.mem_cons_of_mem a hx)
    · exact hprev x (List.mem_cons_of_mem b hx)

theorem path_append : k.Path a (l₁ ++ b :: l₂) z ↔ k.Path a l₁ b ∧ k.Path b l₂ z := by
  induction l₁ generalizing a with
  | nil => rfl
  | cons c l₁ ih =>
    change (_ ∧ k.Path c (l₁ ++ b :: l₂) z) ↔ (_ ∧ k.Path c l₁ b) ∧ _
    rw [ih, and_assoc (c := k.Path b l₂ z)]

theorem Path.next_mem (hpath : k.Path a l z) : k.next a ∈ l ++ [z] := by
  cases l with
  | nil => simp [hpath.1]
  | cons b l => simp [hpath.1.1]

theorem Path.prev_mem (hpath : k.Path a l z) : k.prev z ∈ a :: l := by
  induction l generalizing a with
  | nil => simp [hpath.2]
  | cons b l ih => exact List.mem_cons_of_mem a (ih hpath.2)

theorem Path.flip (hpath : k.Path a l z) : k.flip.Path z l.reverse a := by
  induction l generalizing a with
  | nil => exact ⟨hpath.2, hpath.1⟩
  | cons b l ih =>
    rw [List.reverse_cons, path_append]
    exact ⟨ih hpath.2, hpath.1.2, hpath.1.1⟩

theorem Ring.flip (hring : k.Ring h l) : k.flip.Ring h l.reverse := by
  refine ⟨hring.path.flip, ?_⟩
  have hnodup := hring.nodup
  rw [List.nodup_cons] at hnodup ⊢
  exact ⟨by simpa using hnodup.1, List.nodup_reverse.mpr hnodup.2⟩

variable [DecidableEq α]

theorem Path.unlink (h₁ : k.Path a l₁ b) (h₂ : k.Path b l₂ z)
    (hnodup : (a :: (l₁ ++ b :: l₂)).Nodup) (hz : z ∉ l₁ ++ b :: l₂) :
    (k.unlink b).Path a (l₁ ++ l₂) z := by
  have hnext : k.next b ∈ l₂ ∨ k.next b = z := by simpa using h₂.next_mem
  have hb : b ∉ l₂ := by
    have hsuffix := (List.nodup_append.mp (List.nodup_cons.mp hnodup).2).2.1
    exact (List.nodup_cons.mp hsuffix).1
  have hzb : z ≠ b := fun heq => hz (by simp [heq])
  have hunlink : k.unlink b = ⟨update k.next (k.prev b) (k.next b),
      update k.prev (k.next b) (k.prev b)⟩ := by
    have hself : b ≠ k.next b := by
      rintro heq
      rcases hnext with hmem | hmem
      · exact hb (heq ▸ hmem)
      · exact hzb (hmem.symm.trans heq.symm)
    unfold Links.unlink
    dsimp only
    rw [update_of_ne hself]
  rw [hunlink]
  clear hunlink
  -- by induction on the part before `b`; its last element is the one whose `next` changes
  induction l₁ generalizing a with
  | nil =>
    obtain ⟨-, hba⟩ := h₁
    rw [hba]
    cases l₂ with
    | nil =>
      rw [h₂.1]
      exact ⟨update_self _ _ _, update_self _ _ _⟩
    | cons y m =>
      obtain ⟨⟨hby, -⟩, hrest⟩ := h₂
      rw [hby]
      simp only [List.nil_append, List.nodup_cons, List.mem_cons, not_or] at hnodup hz
      refine ⟨⟨update_self _ _ _, update_self _ _ _⟩, hrest.congr ?_ ?_⟩
      · intro x hx
        refine update_of_ne ?_ _ _
        rintro rfl
        exact (List.mem_cons.mp hx).elim hnodup.1.2.1 hnodup.1.2.2
      · intro x hx
        refine update_of_ne ?_ _ _
        rintro rfl
        exact (List.mem_append.mp hx).elim hnodup.2.2.1 fun h =>
          hz.2.1 (List.mem_singleton.mp h).symm
  | cons c l₁ ih =>
    obtain ⟨⟨hac, hca⟩, hrest⟩ := h₁
    have hlast := hrest.prev_mem
    rw [List.cons_append, List.nodup_cons] at hnodup
    rw [List.cons_append, List.mem_cons, not_or] at hz
    refine ⟨⟨?_, ?_⟩, ih hrest hnodup.2 hz.2⟩
    · rw [← hac]
      refine update_of_ne ?_ _ _
      rintro rfl
      refine hnodup.1 ?_
      rcases List.mem_cons.mp hlast with h | h
      · exact h ▸ List.mem_cons_self
      · exact List.mem_cons_of_mem c (List.mem_append_left _ h)
    · rw [← hca]
      refine update_of_ne ?_ _ _
      rintro rfl
      rcases hnext with h | h
      · exact (List.nodup_cons.mp hnodup.2).1 (List.mem_append_right _ (List.mem_cons_of_mem b h))
      · exact hz.1 h.symm

theorem Ring.unlink (hring : k.Ring h (l₁ ++ b :: l₂)) : (k.unlink b).Ring h (l₁ ++ l₂) := by
  obtain ⟨h₁, h₂⟩ := path_append.mp hring.path
  have hnot := (List.nodup_cons.mp hring.nodup).1
  refine ⟨h₁.unlink h₂ hring.nodup hnot, hring.nodup.sublist ?_⟩
  exact ((List.sublist_cons_self b l₂).append_left l₁).cons_cons h

theorem Ring.insert (hring : k.Ring h l) (hb : b ∉ h :: l) : (k.insert h b).Ring h (b :: l) := by
  obtain ⟨hbh, hbl⟩ := not_or.mp (mt List.mem_cons.mpr hb)
  have hhl := (List.nodup_cons.mp hring.nodup).1
  have hmem : k.next h ∈ l ∨ k.next h = h := by simpa using hring.path.next_mem
  have hne : k.next h ≠ b := by
    rintro rfl
    exact hmem.elim hbl hbh
  have hnext : ∀ x, (k.insert h b).next x = if x = h then b else if x =
      b then k.next h else k.next x := by
    intro x
    unfold Links.insert
    dsimp only
    rw [update_apply, update_apply]
  have hprev : ∀ x, (k.insert h b).prev x = if x = k.next h then b else if x =
      b then h else k.prev x := by
    intro x
    unfold Links.insert
    dsimp only
    rw [update_of_ne (Ne.symm hbh), update_apply, update_apply]
  refine ⟨⟨⟨by simp [hnext], ?_⟩, ?_⟩, ?_⟩
  · rw [hprev, if_neg (Ne.symm hne), if_pos rfl]
  · cases l with
    | nil =>
      obtain ⟨hself, -⟩ := hring.path
      refine ⟨?_, ?_⟩
      · rw [hnext, if_neg hbh, if_pos rfl, hself]
      · rw [hprev, if_pos hself.symm]
    | cons c l =>
      obtain ⟨⟨hhc, -⟩, hrest⟩ := hring.path
      have hcl := (List.nodup_cons.mp (List.nodup_cons.mp hring.nodup).2).1
      refine ⟨⟨?_, ?_⟩, hrest.congr ?_ ?_⟩
      · rw [hnext, if_neg hbh, if_pos rfl, hhc]
      · rw [hprev, if_pos hhc.symm]
      · intro x hx
        have hxh : x ≠ h := by
          rintro rfl
          exact hhl hx
        have hxb : x ≠ b := by
          rintro rfl
          exact hbl hx
        rw [hnext, if_neg hxh, if_neg hxb]
      · intro x hx
        have hx' : x ∈ l ∨ x = h := by simpa using hx
        have hxc : x ≠ c := by
          rintro rfl
          exact hx'.elim hcl fun h => hhl (h ▸ List.mem_cons_self)
        have hxb : x ≠ b := by
          rintro rfl
          exact hx'.elim (fun h => hbl (List.mem_cons_of_mem c h)) hbh
        rw [hprev, hhc, if_neg hxc, if_neg hxb]
  · rw [List.nodup_cons, List.mem_cons, not_or, List.nodup_cons]
    exact ⟨⟨Ne.symm hbh, hhl⟩, hbl, (List.nodup_cons.mp hring.nodup).2⟩

theorem walk_path {p : α → Bool} {n : Nat} (hpath : k.Path a l z) (hz : z ∉ l) (hn : l.length < n) :
    walk k.next z p n (k.next a) = some (l.find? p) := by
  induction l generalizing a n with
  | nil =>
    obtain ⟨n, rfl⟩ := Nat.exists_eq_add_of_lt hn
    rw [hpath.1]
    simp [walk]
  | cons b l ih =>
    obtain ⟨⟨hab, -⟩, hrest⟩ := hpath
    rw [List.mem_cons, not_or] at hz
    cases n with
    | zero => cases hn
    | succ n =>
      rw [hab, walk, if_neg (Ne.symm hz.1), List.find?_cons]
      cases hp : p b with
      | true => rfl
      | false => exact ih hrest hz.2 (Nat.lt_of_succ_lt_succ hn)

theorem Ring.walk_next {p : α → Bool} {n : Nat} (hring : k.Ring h l) (hn : l.length < n) :
    walk k.next h p n (k.next h) = some (l.find? p) :=
  walk_path hring.path (List.nodup_cons.mp hring.nodup).1 hn

theorem Ring.walk_prev {p : α → Bool} {n : Nat} (hring : k.Ring h l) (hn : l.length < n) :
    walk k.prev h p n (k.prev h) = some (l.reverse.find? p) :=
  hring.flip.walk_next (by simpa using hn)

end Links

end Xv6.Lib
