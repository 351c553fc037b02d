import Xv6.Shell.Tokens
import Mathlib.Data.List.Flatten
import Mathlib.Logic.Function.Iterate

/-! # The grammar of command lines

```
line  ::= pipe '&'* [';' line]
pipe  ::= exec ['|' pipe]
exec  ::= '(' line ')' redir* | redir* (word redir*)*
redir ::= ('<' | '>' | '>>') word
```

A `Tree` is a derivation: every token in it has the kind that its place asks for. The tokens that
may follow a nonterminal tell where it ends, so that a sequence of tokens has one derivation at
most.
-/

namespace Xv6.Shell

inductive Nonterminal where
  | line
  | pipe
  | exec

abbrev Terminal (k : Kind) : Type := { t : Token // t.kind = k }

/-- The mode and the descriptor that a redirection symbol stands for. -/
def Kind.mode : Kind → Option (Nat × Nat)
  | .lt => some (O_RDONLY, 0)
  | .gt => some (O_WRONLY ||| O_CREATE ||| O_TRUNC, 1)
  | .append => some (O_WRONLY ||| O_CREATE, 1)
  | _ => none

structure Redirection where
  op : Token
  opens : op.kind.mode.isSome
  file : Terminal .word

/-- A word of a simple command and the redirections behind it. -/
structure Word where
  word : Terminal .word
  redirs : List Redirection

inductive Tree : Nonterminal → Type where
  | line (p : Tree .pipe) (amps : List (Terminal .amp)) : Tree .line
  | list (p : Tree .pipe) (amps : List (Terminal .amp)) (semi : Terminal .semi) (l : Tree .line) :
      Tree .line
  | exec (e : Tree .exec) : Tree .pipe
  | pipe (e : Tree .exec) (bar : Terminal .bar) (p : Tree .pipe) : Tree .pipe
  | block (lparen : Terminal .lparen) (l : Tree .line) (rparen : Terminal .rparen)
      (rs : List Redirection) : Tree .exec
  | simple (rs : List Redirection) (ws : List Word) : Tree .exec

/-! ## The tokens and the command of a derivation -/

def Redirection.yield (r : Redirection) : List Token := [r.op, r.file.1]

def Word.yield (w : Word) : List Token := w.word.1 :: w.redirs.flatMap Redirection.yield

def Tree.yield {n : Nonterminal} : Tree n → List Token
  | .line p amps => p.yield ++ amps.map Subtype.val
  | .list p amps semi l => p.yield ++ (amps.map Subtype.val ++ semi.1 :: l.yield)
  | .exec e => e.yield
  | .pipe e bar p => e.yield ++ bar.1 :: p.yield
  | .block lparen l rparen rs => lparen.1 :: (l.yield ++ rparen.1 :: rs.flatMap Redirection.yield)
  | .simple rs ws => rs.flatMap Redirection.yield ++ ws.flatMap Word.yield

def Redirection.redir (r : Redirection) : Redir :=
  let (mode, fd) := r.op.kind.mode.get r.opens
  ⟨r.file.1.q, r.file.1.eq, mode, fd⟩

def Word.arg (w : Word) : Nat × Nat := (w.word.1.q, w.word.1.eq)

def Tree.cmd {n : Nonterminal} : Tree n → Cmd
  | .line p amps => Cmd.back^[amps.length] p.cmd
  | .list p amps _ l => .list (Cmd.back^[amps.length] p.cmd) l.cmd
  | .exec e => e.cmd
  | .pipe e _ p => .pipe e.cmd p.cmd
  | .block _ l _ rs => l.cmd.wrap (rs.map Redirection.redir)
  | .simple rs ws =>
    (Cmd.exec (ws.map Word.arg)).wrap ((rs ++ ws.flatMap Word.redirs).map Redirection.redir)

/-- Every simple command has fewer words than `maxargs`. -/
def Tree.Fits (maxargs : Nat) {n : Nonterminal} : Tree n → Prop
  | .line p _ => p.Fits maxargs
  | .list p _ _ l => p.Fits maxargs ∧ l.Fits maxargs
  | .exec e => e.Fits maxargs
  | .pipe e _ p => e.Fits maxargs ∧ p.Fits maxargs
  | .block _ l _ _ => l.Fits maxargs
  | .simple _ ws => ws.length < maxargs

/-! ## One derivation at most -/

/-- The next token, if there is one, is of a kind in `P`. -/
def Next (P : Kind → Prop) (r : List Token) : Prop := ∀ k ∈ r.head?, P k.kind

/-- The kinds that may follow. -/
def Nonterminal.follow : Nonterminal → List Kind
  | .line => [.rparen]
  | .pipe => [.rparen, .semi, .amp]
  | .exec => [.rparen, .semi, .amp, .bar]

def Nonterminal.Ends (n : Nonterminal) : List Token → Prop := Next (· ∈ n.follow)

section

variable {P Q : Kind → Prop} {r r' : List Token}

theorem Next.nil : Next P [] := fun _ hk => by cases hk

theorem Next.cons {k : Token} (h : P k.kind) : Next P (k :: r) := by
  intro k' hk'
  cases hk'
  exact h

theorem Next.head {k : Token} (h : Next P (k :: r)) : P k.kind := h k rfl

theorem Next.mono (h : Next P r) (hPQ : ∀ k, P k → Q k) : Next Q r := fun k hk => hPQ _ (h k hk)

theorem Next.append {l : List Token} (hl : ∀ k ∈ l, P k.kind) (h : Next P r) : Next P (l ++ r) := by
  cases l with
  | nil => exact h
  | cons k l => exact Next.cons (hl k List.mem_cons_self)

theorem terminals_cut {k : Kind} {xs ys : List (Terminal k)} (hr : Next (· ≠ k) r)
    (hr' : Next (· ≠ k) r') (h : xs.map Subtype.val ++ r = ys.map Subtype.val ++ r') :
    xs = ys ∧ r = r' := by
  induction xs generalizing ys with
  | nil =>
    cases ys with
    | nil => exact ⟨rfl, h⟩
    | cons y ys =>
      subst h
      exact absurd y.2 hr.head
  | cons x xs ih =>
    cases ys with
    | nil =>
      subst h
      exact absurd x.2 hr'.head
    | cons y ys =>
      obtain ⟨hxy, h⟩ := List.cons.inj h
      obtain ⟨rfl, hrest⟩ := ih h
      obtain rfl := Subtype.ext hxy
      exact ⟨rfl, hrest⟩

theorem Redirection.ext_yield {x y : Redirection} (hop : x.op = y.op)
    (hfile : x.file.1 = y.file.1) : x = y := by
  obtain ⟨op, opens, file⟩ := x
  obtain ⟨op', opens', file'⟩ := y
  obtain rfl : op = op' := hop
  obtain rfl : file = file' := Subtype.ext hfile
  rfl

theorem redirs_cut {xs ys : List Redirection} (hr : Next (·.mode = none) r)
    (hr' : Next (·.mode = none) r')
    (h : xs.flatMap Redirection.yield ++ r = ys.flatMap Redirection.yield ++ r') :
    xs = ys ∧ r = r' := by
  induction xs generalizing ys with
  | nil =>
    cases ys with
    | nil => exact ⟨rfl, h⟩
    | cons y ys =>
      subst h
      have := y.opens
      rw [hr.head] at this
      cases this
  | cons x xs ih =>
    cases ys with
    | nil =>
      subst h
      have := x.opens
      rw [hr'.head] at this
      cases this
    | cons y ys =>
      obtain ⟨hop, h⟩ := List.cons.inj h
      obtain ⟨hfile, h⟩ := List.cons.inj h
      obtain ⟨rfl, hrest⟩ := ih h
      obtain rfl := Redirection.ext_yield hop hfile
      exact ⟨rfl, hrest⟩

theorem Next.words {ws : List Word} (hr : Next (·.mode = none) r) :
    Next (·.mode = none) (ws.flatMap Word.yield ++ r) := by
  cases ws with
  | nil => exact hr
  | cons w ws =>
    refine Next.cons ?_
    rw [w.word.2]
    rfl

theorem words_cut {xs ys : List Word} (hr : Next (fun k => k ≠ .word ∧ k.mode = none) r)
    (hr' : Next (fun k => k ≠ .word ∧ k.mode = none) r')
    (h : xs.flatMap Word.yield ++ r = ys.flatMap Word.yield ++ r') : xs = ys ∧ r = r' := by
  induction xs generalizing ys with
  | nil =>
    cases ys with
    | nil => exact ⟨rfl, h⟩
    | cons y ys =>
      subst h
      exact absurd y.word.2 hr.head.1
  | cons x xs ih =>
    cases ys with
    | nil =>
      subst h
      exact absurd x.word.2 hr'.head.1
    | cons y ys =>
      simp only [List.flatMap_cons, Word.yield, List.cons_append, List.append_assoc] at h
      obtain ⟨hword, h⟩ := List.cons.inj h
      obtain ⟨hredirs, h⟩ := redirs_cut (Next.words (hr.mono fun _ => And.right))
        (Next.words (hr'.mono fun _ => And.right)) h
      obtain ⟨rfl, hrest⟩ := ih h
      obtain ⟨word, redirs⟩ := x
      obtain ⟨word', redirs'⟩ := y
      obtain rfl : word = word' := Subtype.ext hword
      obtain rfl : redirs = redirs' := hredirs
      exact ⟨rfl, hrest⟩

/-! ### What follows inside a derivation -/

theorem ends_cons {n : Nonterminal} {k : Kind} (x : Terminal k) (h : k ∈ n.follow) :
    n.Ends (x.1 :: r) := by
  refine Next.cons ?_
  rw [x.2]
  exact h

theorem ends_amps {amps : List (Terminal .amp)} (hr : Nonterminal.pipe.Ends r) :
    Nonterminal.pipe.Ends (amps.map Subtype.val ++ r) := by
  refine Next.append ?_ hr
  intro k hk
  obtain ⟨x, -, rfl⟩ := List.mem_map.mp hk
  rw [x.2]
  decide

theorem ends_pipe (hr : Nonterminal.line.Ends r) : Nonterminal.pipe.Ends r := hr.mono (by decide)

theorem ends_exec (hr : Nonterminal.pipe.Ends r) : Nonterminal.exec.Ends r := hr.mono (by decide)

theorem ends_not {n : Nonterminal} {k : Kind} (h : k ∉ n.follow) (hr : n.Ends r) : Next (· ≠ k) r :=
  hr.mono fun _ hk hkk => h (hkk ▸ hk)

theorem ends_words (hr : Nonterminal.exec.Ends r) : Next (fun k => k ≠ .word ∧ k.mode = none) r :=
  hr.mono (by decide)

theorem next_simple (rs : List Redirection) (ws : List Word) (hr : Nonterminal.exec.Ends r) :
    Next (· ≠ .lparen) ((rs.flatMap Redirection.yield ++ ws.flatMap Word.yield) ++ r) := by
  cases rs with
  | nil =>
    cases ws with
    | nil => exact ends_not (by decide) hr
    | cons w ws =>
      refine Next.cons ?_
      rw [w.word.2]
      decide
  | cons x rs =>
    refine Next.cons fun h => ?_
    have := x.opens
    rw [h] at this
    cases this

end

theorem Tree.unambiguous {n : Nonterminal} (d d' : Tree n) {r r' : List Token} (hr : n.Ends r)
    (hr' : n.Ends r') (h : d.yield ++ r = d'.yield ++ r') : d = d' ∧ r = r' := by
  induction d generalizing r r' with
  | line p amps ih =>
    cases d' with
    | line p' amps' =>
      simp only [Tree.yield, List.append_assoc] at h
      obtain ⟨rfl, h₁⟩ := ih p' (ends_amps (ends_pipe hr)) (ends_amps (ends_pipe hr')) h
      obtain ⟨rfl, h₂⟩ := terminals_cut (ends_not (by decide) hr) (ends_not (by decide) hr') h₁
      exact ⟨rfl, h₂⟩
    | list p' amps' semi l =>
      simp only [Tree.yield, List.append_assoc, List.cons_append] at h
      have hsemi : Nonterminal.pipe.Ends (semi.1 :: (l.yield ++ r')) := ends_cons semi (by decide)
      obtain ⟨rfl, h₁⟩ := ih p' (ends_amps (ends_pipe hr)) (ends_amps hsemi) h
      obtain ⟨rfl, rfl⟩ := terminals_cut (ends_not (by decide) hr)
        (Next.cons (by rw [semi.2]; decide)) h₁
      exact absurd semi.2 (ends_not (by decide) hr).head
  | list p amps semi l ihp ihl =>
    have hsemi {r : List Token} : Nonterminal.pipe.Ends (semi.1 :: r) := ends_cons semi (by decide)
    have hamp {r : List Token} : Next (· ≠ .amp) (semi.1 :: r) := Next.cons (by rw [semi.2]; decide)
    cases d' with
    | line p' amps' =>
      simp only [Tree.yield, List.append_assoc, List.cons_append] at h
      obtain ⟨rfl, h₁⟩ := ihp p' (ends_amps hsemi) (ends_amps (ends_pipe hr')) h
      obtain ⟨rfl, rfl⟩ := terminals_cut hamp (ends_not (by decide) hr') h₁
      exact absurd semi.2 (ends_not (by decide) hr').head
    | list p' amps' semi' l' =>
      simp only [Tree.yield, List.append_assoc, List.cons_append] at h
      obtain ⟨rfl, h₁⟩ := ihp p' (ends_amps hsemi) (ends_amps (ends_cons semi' (by decide))) h
      obtain ⟨rfl, h₂⟩ := terminals_cut hamp (Next.cons (by rw [semi'.2]; decide)) h₁
      obtain ⟨hs, h₃⟩ := List.cons.inj h₂
      obtain ⟨rfl, h₄⟩ := ihl l' hr hr' h₃
      obtain rfl := Subtype.ext hs
      exact ⟨rfl, h₄⟩
  | exec e ih =>
    cases d' with
    | exec e' =>
      obtain ⟨rfl, h₁⟩ := ih e' (ends_exec hr) (ends_exec hr') h
      exact ⟨rfl, h₁⟩
    | pipe e' bar p =>
      simp only [Tree.yield, List.append_assoc, List.cons_append] at h
      obtain ⟨rfl, rfl⟩ := ih e' (ends_exec hr) (ends_cons bar (by decide)) h
      exact absurd bar.2 (ends_not (by decide) hr).head
  | pipe e bar p ihe ihp =>
    have hbar {r : List Token} : Nonterminal.exec.Ends (bar.1 :: r) := ends_cons bar (by decide)
    cases d' with
    | exec e' =>
      simp only [Tree.yield, List.append_assoc, List.cons_append] at h
      obtain ⟨rfl, rfl⟩ := ihe e' hbar (ends_exec hr') h
      exact absurd bar.2 (ends_not (by decide) hr').head
    | pipe e' bar' p' =>
      simp only [Tree.yield, List.append_assoc, List.cons_append] at h
      obtain ⟨rfl, h₁⟩ := ihe e' hbar (ends_cons bar' (by decide)) h
      obtain ⟨hb, h₂⟩ := List.cons.inj h₁
      obtain ⟨rfl, h₃⟩ := ihp p' hr hr' h₂
      obtain rfl := Subtype.ext hb
      exact ⟨rfl, h₃⟩
  | block lparen l rparen rs ih =>
    cases d' with
    | block lparen' l' rparen' rs' =>
      simp only [Tree.yield, List.append_assoc, List.cons_append] at h
      obtain ⟨hl, h₁⟩ := List.cons.inj h
      obtain ⟨rfl, h₂⟩ := ih l' (ends_cons rparen (by decide)) (ends_cons rparen' (by decide)) h₁
      obtain ⟨hp, h₃⟩ := List.cons.inj h₂
      obtain ⟨rfl, h₄⟩ := redirs_cut ((ends_words hr).mono fun _ => And.right)
        ((ends_words hr').mono fun _ => And.right) h₃
      obtain rfl := Subtype.ext hl
      obtain rfl := Subtype.ext hp
      exact ⟨rfl, h₄⟩
    | simple rs' ws' =>
      have hnext := next_simple rs' ws' hr'
      rw [← show _ = (rs'.flatMap Redirection.yield ++ ws'.flatMap Word.yield) ++
        r' from h] at hnext
      exact absurd lparen.2 hnext.head
  | simple rs ws =>
    cases d' with
    | block lparen l rparen rs' =>
      have hnext := next_simple rs ws hr
      rw [show (rs.flatMap Redirection.yield ++ ws.flatMap Word.yield) ++ r = _ from h] at hnext
      exact absurd lparen.2 hnext.head
    | simple rs' ws' =>
      simp only [Tree.yield, List.append_assoc] at h
      obtain ⟨rfl, h₁⟩ := redirs_cut (Next.words ((ends_words hr).mono fun _ => And.right))
        (Next.words ((ends_words hr').mono fun _ => And.right)) h
      obtain ⟨rfl, h₂⟩ := words_cut (ends_words hr) (ends_words hr') h₁
      exact ⟨rfl, h₂⟩

end Xv6.Shell
