import Mathlib.Data.List.Basic

/-! # Postconditions of code that can fail

`Post E Q x` says of a computation `x` in `Except` that its result satisfies `Q` if
it returns one and its error satisfies `E` if it fails. The rules compose such
statements along `bind` and along counted loops.
-/

namespace Xv6.Lib

variable {ε α β σ : Type}

structure Post (E : ε → Prop) (Q : α → Prop) (x : Except ε α) : Prop where
  of_ok : ∀ {a}, x = .ok a → Q a
  of_error : ∀ {e}, x = .error e → E e

namespace Post

variable {E E' : ε → Prop} {Q R : α → Prop} {x : Except ε α}

theorem ok {a : α} (h : Q a) : Post E Q (.ok a) :=
  ⟨fun ha => (Except.ok.inj ha) ▸ h, fun he => (by cases he)⟩

theorem error {e : ε} (h : E e) : Post E Q (.error e) :=
  ⟨fun ha => (by cases ha), fun he => (Except.error.inj he) ▸ h⟩

theorem pure {a : α} (h : Q a) : Post E Q (pure a) := ok h

theorem throw {e : ε} (h : E e) : Post E Q (throw e) := error h

theorem mono (h : Post E Q x) (hE : ∀ e, E e → E' e) (hQ : ∀ a, Q a → R a) : Post E' R x := by
  cases x with
  | ok a => exact ok (hQ a (h.of_ok rfl))
  | error e => exact error (hE e (h.of_error rfl))

theorem imp (h : Post E Q x) (hQ : ∀ a, Q a → R a) : Post E R x := h.mono (fun _ => id) hQ

theorem and (h : Post E Q x) (h' : Post E' R x) : Post E (fun a => Q a ∧ R a) x :=
  ⟨fun ha => ⟨h.of_ok ha, h'.of_ok ha⟩, h.of_error⟩

theorem bind {k : α → Except ε β} {S : β → Prop} (h : Post E Q x)
    (hk : ∀ a, Q a → Post E S (k a)) : Post E S (x >>= k) := by
  cases x with
  | ok a => exact hk a (h.of_ok rfl)
  | error e => exact error (h.of_error rfl)

theorem bind_of_ok {k : α → Except ε β} {S : β → Prop} {a : α} (hx : x = .ok a)
    (hk : Post E S (k a)) : Post E S (x >>= k) := by
  rw [hx]
  exact hk

theorem ite {c : Prop} [Decidable c] {y : Except ε α} (ht : c → Post E Q x)
    (hf : ¬ c → Post E Q y) : Post E Q (if c then x else y) := by
  split
  · exact ht ‹c›
  · exact hf ‹¬ c›

theorem ite_bind {c : Prop} [Decidable c] {y : Except ε α} {k : α → Except ε β} {S : β → Prop}
    (h : Post E Q (if c then x else y)) (hk : ∀ a, Q a → Post E S (k a)) :
    Post E S (if c then x >>= k else y >>= k) := by
  by_cases hc : c
  · rw [if_pos hc] at h ⊢
    exact h.bind hk
  · rw [if_neg hc] at h ⊢
    exact h.bind hk

theorem exists_ok (h : Post (fun _ => False) Q x) : ∃ a, x = .ok a ∧ Q a := by
  cases x with
  | ok a => exact ⟨a, rfl, h.of_ok rfl⟩
  | error e => exact (h.of_error rfl).elim

theorem mapError_iff {ε' : Type} {g : ε → ε'} {E : ε' → Prop} :
    Post E Q (x.mapError g) ↔ Post (fun e => E (g e)) Q x := by
  cases x with
  | ok a => exact ⟨fun h => ok (h.of_ok rfl), fun h => ok (h.of_ok rfl)⟩
  | error e => exact ⟨fun h => error (h.of_error rfl), fun h => error (h.of_error rfl)⟩

theorem map {g : α → β} {S : β → Prop} (h : Post E (fun a => S (g a)) x) : Post E S (x.map g) := by
  cases x with
  | ok a => exact ok (h.of_ok rfl)
  | error e => exact error (h.of_error rfl)

theorem any (h : ∀ e, E e) (x : Except ε α) : Post E (fun _ => True) x := by
  cases x with
  | ok a => exact ok trivial
  | error e => exact error (h e)

theorem mapError_any {ε' : Type} {g : ε → ε'} {E : ε' → Prop} (h : ∀ e, E (g e)) :
    Post E (fun _ => True) (x.mapError g) :=
  mapError_iff.mpr (any h x)

end Post

theorem ok_bind (a : α) (k : α → Except ε β) : (Except.ok a >>= k) = k a := rfl

theorem bind_eq_ok {x : Except ε α} {k : α → Except ε β} {b : β} (h : (x >>= k) = .ok b) :
    ∃ a, x = .ok a ∧ k a = .ok b := by
  cases x with
  | error e => cases h
  | ok a => exact ⟨a, rfl, h⟩

theorem eq_ok_of_toOption {x : Except ε α} {a : α} (h : x.toOption = some a) : x = .ok a := by
  cases x with
  | ok b =>
    cases h
    rfl
  | error e => cases h

/-- `for (k = 0; k < n; k++) s = f(k, s)`. -/
def forRange (n : Nat) (f : Nat → σ → Except ε σ) (s : σ) : Except ε σ :=
  (List.range n).foldlM (fun s k => f k s) s

theorem forRange_succ (n : Nat) (f : Nat → σ → Except ε σ) (s : σ) :
    forRange (n + 1) f s = forRange n f s >>= f n := by
  simp [forRange, List.range_succ]

theorem forRange_const {f : Nat → σ → Except ε σ} {s : σ} (h : ∀ i, f i s = .ok s) (n : Nat) :
    forRange n f s = .ok s := by
  induction n with
  | zero => rfl
  | succ n ih =>
    rw [forRange_succ, ih]
    exact h n

theorem Post.forRange {E : ε → Prop} {I : Nat → σ → Prop} {f : Nat → σ → Except ε σ}
    {n : Nat} {s : σ} (h0 : I 0 s) (hstep : ∀ k s, k < n → I k s → Post E (I (k + 1)) (f k s)) :
    Post E (I n) (Lib.forRange n f s) := by
  induction n with
  | zero => exact .pure h0
  | succ n ih =>
    rw [forRange_succ]
    exact Post.bind (ih fun k s hk => hstep k s (by omega)) fun t ht => hstep n t (by omega) ht

/-- Two counted loops in step: related states stay related, or both loops fail alike. -/
theorem forRange_sim {τ : Type} {R : Nat → σ → τ → Prop} {f : Nat → σ → Except ε σ}
    {g : Nat → τ → Except ε τ} {n : Nat} {s : σ} {t : τ} (h0 : R 0 s t)
    (hstep : ∀ k s t, k < n → R k s t →
      (∃ s' t', f k s = .ok s' ∧ g k t = .ok t' ∧ R (k + 1) s' t') ∨
        ∃ e, f k s = .error e ∧ g k t = .error e) :
    (∃ s' t', forRange n f s = .ok s' ∧ forRange n g t = .ok t' ∧ R n s' t') ∨
      ∃ e, forRange n f s = .error e ∧ forRange n g t = .error e := by
  induction n with
  | zero => exact Or.inl ⟨s, t, rfl, rfl, h0⟩
  | succ n ih =>
    rw [forRange_succ, forRange_succ]
    rcases ih fun k s t hk => hstep k s t (by omega) with ⟨s₁, t₁, hs, ht, hR⟩ | ⟨e, hs, ht⟩
    · rw [hs, ht]
      exact hstep n s₁ t₁ (by omega) hR
    · rw [hs, ht]
      exact Or.inr ⟨e, rfl, rfl⟩

end Xv6.Lib
