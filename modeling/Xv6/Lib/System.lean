import Mathlib.Algebra.Ring.Nat
import Mathlib.Data.Finset.Card
import Mathlib.Logic.Function.Basic

/-! # Systems that step, wait or stop with a fault

An attempted action either cannot be taken now, stops the system with a fault,
or leads to a next state. Runs are lists of actions; reachability carries a
guard on each step, so that a statement about every run and one about every run
whose steps meet a condition are instances of the same induction.
-/

namespace Xv6.Lib

/-- The result of attempting one action. -/
inductive Outcome (φ σ : Type*) where
  | blocked
  | fault (f : φ)
  | next (s : σ)

namespace Outcome

variable {φ σ τ : Type*}

/-- The fault an outcome stops with, if it does. -/
def fault? : Outcome φ σ → Option φ
  | .fault f => some f
  | _ => none

def next? : Outcome φ σ → Option σ
  | .next s => some s
  | _ => none

@[simp] theorem fault?_eq_some {o : Outcome φ σ} {f : φ} : o.fault? = some f ↔ o = .fault f := by
  cases o <;> simp [fault?]

@[simp] theorem next?_eq_some {o : Outcome φ σ} {s : σ} : o.next? = some s ↔ o = .next s := by
  cases o <;> simp [next?]

/-- The fault satisfies `E`, or the next state satisfies `Q`. -/
structure Sat (E : φ → Prop) (Q : σ → Prop) (o : Outcome φ σ) : Prop where
  of_next : ∀ {s}, o = .next s → Q s
  of_fault : ∀ {f}, o = .fault f → E f

theorem Sat.blocked {E : φ → Prop} {Q : σ → Prop} : Sat E Q (.blocked : Outcome φ σ) :=
  ⟨fun h => (by cases h), fun h => (by cases h)⟩

theorem Sat.next {E : φ → Prop} {Q : σ → Prop} {s : σ} (h : Q s) : Sat E Q (.next s) :=
  ⟨fun hs => next.inj hs ▸ h, fun h => (by cases h)⟩

theorem Sat.fault {E : φ → Prop} {Q : σ → Prop} {f : φ} (h : E f) :
    Sat E Q (.fault f : Outcome φ σ) :=
  ⟨fun h => (by cases h), fun hf => fault.inj hf ▸ h⟩

theorem Sat.guard {E : φ → Prop} {Q : σ → Prop} {P : Prop} [Decidable P] {o : Outcome φ σ}
    (h : P → Sat E Q o) : Sat E Q (if P then o else .blocked) := by
  split
  · next hP => exact h hP
  · exact .blocked

theorem Sat.mono {E E' : φ → Prop} {Q Q' : σ → Prop} {o : Outcome φ σ} (h : Sat E Q o)
    (hE : ∀ f, E f → E' f) (hQ : ∀ s, Q s → Q' s) : Sat E' Q' o :=
  ⟨fun hs => hQ _ (h.of_next hs), fun hf => hE _ (h.of_fault hf)⟩

/-- Outcomes of one kind, with the same fault or with related states. -/
inductive Rel (R : σ → τ → Prop) : Outcome φ σ → Outcome φ τ → Prop where
  | blocked : Rel R .blocked .blocked
  | fault (f : φ) : Rel R (.fault f) (.fault f)
  | next {s : σ} {t : τ} (h : R s t) : Rel R (.next s) (.next t)

theorem Rel.ite {R : σ → τ → Prop} {P : Prop} {i j : Decidable P} {o₁ o₂ : Outcome φ σ}
    {o₁' o₂' : Outcome φ τ} (h₁ : P → Rel R o₁ o₁') (h₂ : ¬ P → Rel R o₂ o₂') :
    Rel R (@ite _ P i o₁ o₂) (@ite _ P j o₁' o₂') := by
  by_cases hP : P
  · rw [if_pos hP, if_pos hP]
    exact h₁ hP
  · rw [if_neg hP, if_neg hP]
    exact h₂ hP

end Outcome

variable {φ σ τ α : Type*}

/-- States reached from `init` by steps that each satisfy `ok` in the state they
are taken from. -/
inductive Reach (step : σ → α → Outcome φ σ) (ok : σ → α → Prop) (init : σ → Prop) : σ → Prop where
  | start {s : σ} : init s → Reach step ok init s
  | step {s s' : σ} (a : α) : Reach step ok init s → ok s a → step s a = .next s' →
      Reach step ok init s'

section Reach

variable {step : σ → α → Outcome φ σ} {ok : σ → α → Prop} {init : σ → Prop}

/-- A property of the initial states that every guarded step keeps holds in every
reachable state. -/
theorem Reach.invariant {I : σ → Prop} (h0 : ∀ s, init s → I s)
    (hstep : ∀ s a s', I s → ok s a → step s a = .next s' → I s')
    {s : σ} (h : Reach step ok init s) : I s := by
  induction h with
  | start hs => exact h0 _ hs
  | step a _ hok hs ih => exact hstep _ a _ ih hok hs

theorem Reach.mono {ok' : σ → α → Prop} (hok : ∀ s a, ok s a → ok' s a)
    {s : σ} (h : Reach step ok init s) : Reach step ok' init s := by
  induction h with
  | start hs => exact .start hs
  | step a _ ha hs ih => exact .step a ih (hok _ a ha) hs

end Reach

/-- Run a list of actions, stopping at the first one that does not lead on. -/
def exec (step : σ → α → Outcome φ σ) : σ → List α → Outcome φ σ
  | s, [] => .next s
  | s, a :: as =>
    match step s a with
    | .next s' => exec step s' as
    | .blocked => .blocked
    | .fault f => .fault f

/-- Every action of the list satisfies the guard where the run takes it. -/
def Guarded (step : σ → α → Outcome φ σ) (ok : σ → α → Prop) : σ → List α → Prop
  | _, [] => True
  | s, a :: as =>
    ok s a ∧
      match step s a with
      | .next s' => Guarded step ok s' as
      | _ => True

section Exec

variable {step : σ → α → Outcome φ σ} {ok : σ → α → Prop} {init : σ → Prop}

instance Guarded.decidable [∀ s a, Decidable (ok s a)] :
    (s : σ) → (as : List α) → Decidable (Guarded step ok s as)
  | _, [] => isTrue trivial
  | s, a :: as =>
    have : Decidable (match step s a with | .next s' => Guarded step ok s' as | _ => True) :=
      match step s a with
      | .next s' => Guarded.decidable s' as
      | .blocked => isTrue trivial
      | .fault _ => isTrue trivial
    inferInstanceAs (Decidable (_ ∧ _))

theorem Guarded.of_forall (h : ∀ s a, ok s a) (s : σ) (as : List α) : Guarded step ok s as := by
  induction as generalizing s with
  | nil => trivial
  | cons a as ih =>
    refine ⟨h s a, ?_⟩
    cases step s a with
    | next s' => exact ih s'
    | blocked => trivial
    | fault f => trivial

theorem Reach.of_exec {s s' : σ} {as : List α} (hs : Reach step ok init s)
    (hg : Guarded step ok s as) (he : exec step s as = .next s') : Reach step ok init s' := by
  induction as generalizing s with
  | nil => cases he; exact hs
  | cons a as ih =>
    obtain ⟨hok, hrest⟩ := hg
    cases hstep : step s a with
    | next s₁ =>
      simp only [exec, hstep] at he hrest
      exact ih (hs.step a hok hstep) hrest he
    | blocked => simp [exec, hstep] at he
    | fault f => simp [exec, hstep] at he

theorem Outcome.Rel.exec {step' : τ → α → Outcome φ τ} {R : σ → τ → Prop}
    (hstep : ∀ s t a, R s t → Outcome.Rel R (step s a) (step' t a)) {s : σ} {t : τ} (h : R s t)
    (as : List α) : Outcome.Rel R (Lib.exec step s as) (Lib.exec step' t as) := by
  induction as generalizing s t with
  | nil => exact .next h
  | cons a as ih =>
    have ha := hstep s t a h
    unfold Lib.exec
    generalize step s a = o at ha ⊢
    generalize step' t a = o' at ha ⊢
    cases ha with
    | blocked => exact .blocked
    | fault f => exact .fault f
    | next h => exact ih h

/-- Where an invariant and the guard exclude faults, no guarded run stops with one. -/
theorem Guarded.exec_ne_fault {I : σ → Prop}
    (hstep : ∀ s a s', I s → ok s a → step s a = .next s' → I s')
    (hok : ∀ s a, I s → ok s a → ∀ f, step s a ≠ .fault f) {s : σ} {as : List α} (hs : I s)
    (h : Guarded step ok s as) (f : φ) : Lib.exec step s as ≠ .fault f := by
  induction as generalizing s with
  | nil => exact fun hf => by cases hf
  | cons a as ih =>
    obtain ⟨ha, hrest⟩ := h
    cases hsa : step s a with
    | next s' =>
      simp only [hsa] at hrest
      simp only [exec, hsa]
      exact ih (hstep s a s' hs ha hsa) hrest
    | blocked => simp [exec, hsa]
    | fault g => exact absurd hsa (hok s a hs ha g)

end Exec

end Xv6.Lib
