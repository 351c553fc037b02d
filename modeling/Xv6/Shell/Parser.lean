import Xv6.Lib.Post
import Xv6.Shell.Grammar

/-! # The parser accepts its grammar

Each function of the parser is read through the tokens it stands at. A derivation in front of the
parser, followed by a token that may follow it, is what the parser returns; and whatever the parser
returns has a derivation. Between them, the parser stops with a panic and in no other way.
-/

namespace Xv6.Shell

open Lib (Post)

section

variable {t : Text} {s f : Nat} {ks : List Token} {E : Stop → Prop}

/-! ## Looking at one token -/

/-- The kinds that the parser looks for one at a time. -/
def punctuation : List Kind := [.amp, .semi, .bar, .lparen, .rparen]

theorem begins_code {kind : Kind} (hkind : kind ∈ punctuation) (k : Kind) :
    k.begins [kind.code] = decide (k = kind) := by
  revert kind
  cases k <;> decide

theorem code_symbol {kind : Kind} (hkind : kind ∈ punctuation) : [kind.code] ⊆ symbols := by
  revert kind
  decide

theorem next_cases (kind : Kind) (ks : List Token) :
    (∃ x : Terminal kind, ∃ ks', ks = x.1 :: ks') ∨ Next (· ≠ kind) ks := by
  cases ks with
  | nil => exact Or.inr Next.nil
  | cons k ks =>
    by_cases hk : k.kind = kind
    · exact Or.inl ⟨⟨k, hk⟩, ks, rfl⟩
    · exact Or.inr (Next.cons hk)

theorem At.accept {kind : Kind} (x : Terminal kind) (h : At t s (x.1 :: ks))
    (hkind : kind ∈ punctuation) :
    ∃ s₁ tok s₂, peek t s [kind.code] = .ok (true, s₁) ∧ At t s₁ (x.1 :: ks) ∧
      gettoken t s₁ = .ok (tok, x.1.q, x.1.eq, s₂) ∧ At t s₂ ks := by
  obtain ⟨s₁, hpeek, h₁, -⟩ := peek_at _ (code_symbol hkind) h
  obtain ⟨s₂, hget, h₂⟩ := gettoken_cons h₁
  refine ⟨s₁, _, s₂, ?_, h₁, hget, h₂⟩
  rw [hpeek, heads, begins_code hkind, decide_eq_true x.2]

theorem At.decline {kind : Kind} (h : At t s ks) (hks : Next (· ≠ kind) ks)
    (hkind : kind ∈ punctuation) : ∃ s₁, peek t s [kind.code] = .ok (false, s₁) ∧ At t s₁ ks := by
  obtain ⟨s₁, hpeek, h₁, -⟩ := peek_at _ (code_symbol hkind) h
  refine ⟨s₁, ?_, h₁⟩
  rw [hpeek]
  cases ks with
  | nil => rfl
  | cons k ks => rw [heads, begins_code hkind, decide_eq_false hks.head]

/-! ## The loops -/

theorem split_terminals (kind : Kind) (ks : List Token) :
    ∃ xs : List (Terminal kind), ∃ ks', ks = xs.map Subtype.val ++ ks' ∧ Next (· ≠ kind) ks' := by
  induction ks with
  | nil => exact ⟨[], [], rfl, Next.nil⟩
  | cons k ks ih =>
    by_cases hk : k.kind = kind
    · obtain ⟨xs, ks', rfl, hks'⟩ := ih
      exact ⟨⟨k, hk⟩ :: xs, ks', rfl, hks'⟩
    · exact ⟨[], k :: ks, rfl, Next.cons hk⟩

theorem parsebacks_post {amps : List (Terminal .amp)} (hks : Next (· ≠ .amp) ks)
    (h : At t s (amps.map Subtype.val ++ ks)) (hf : amps.length < f) (cmd : Cmd) :
    Post E (fun r => r.1 = Cmd.back^[amps.length] cmd ∧ At t r.2 ks) (parsebacks t f cmd s) := by
  induction amps generalizing s f cmd with
  | nil =>
    obtain ⟨f, rfl⟩ := Nat.exists_eq_succ_of_ne_zero (Nat.ne_of_gt hf)
    obtain ⟨s₁, hpeek, h₁⟩ := h.decline hks (by decide)
    exact Post.bind_of_ok hpeek (Post.ok ⟨rfl, h₁⟩)
  | cons x amps ih =>
    obtain ⟨f, rfl⟩ := Nat.exists_eq_succ_of_ne_zero (Nat.ne_of_gt (Nat.zero_lt_of_lt hf))
    obtain ⟨s₁, tok, s₂, hpeek, -, hget, h₂⟩ := At.accept x h (by decide)
    refine Post.bind_of_ok hpeek (Post.bind_of_ok hget ?_)
    exact ih h₂ (Nat.lt_of_succ_lt_succ hf) _

theorem begins_mode (k : Kind) : k.begins [60, 62] = k.mode.isSome := by
  cases k <;> decide

theorem redircmd_redir (r : Redirection) :
    redircmd r.op.kind.code r.file.1.q r.file.1.eq = [r.redir] := by
  obtain ⟨⟨kind, q, eq⟩, opens, file⟩ := r
  cases kind
  case lt => rfl
  case gt => rfl
  case append => rfl
  all_goals cases opens

theorem code_eq_word (k : Kind) : k.code = 97 ↔ k = .word := by
  cases k <;> decide

theorem code_ne_zero (k : Kind) : k.code ≠ 0 := by
  cases k <;> decide

theorem At.redirects {op : Token} (hop : op.kind.mode.isSome) (h : At t s (op :: ks)) :
    ∃ s₁ s₂, peek t s [60, 62] = .ok (true, s₁) ∧ gettoken t s₁ =
    .ok (op.kind.code, op.q, op.eq, s₂) ∧
      At t s₂ ks := by
  obtain ⟨s₁, hpeek, h₁, -⟩ := peek_at [60, 62] (by decide) h
  obtain ⟨s₂, hget, h₂⟩ := gettoken_cons h₁
  refine ⟨s₁, s₂, ?_, hget, h₂⟩
  rw [hpeek, heads, begins_mode, hop]

theorem At.no_redirects (h : At t s ks) (hks : Next (·.mode = none) ks) :
    ∃ s₁, peek t s [60, 62] = .ok (false, s₁) ∧ At t s₁ ks := by
  obtain ⟨s₁, hpeek, h₁, -⟩ := peek_at [60, 62] (by decide) h
  refine ⟨s₁, ?_, h₁⟩
  rw [hpeek]
  cases ks with
  | nil => rfl
  | cons k ks =>
    rw [heads, begins_mode, hks.head]
    rfl

theorem parseredirs_round {Q : List Redir × Nat → Prop} (r : Redirection)
    (h : At t s (r.op :: r.file.1 :: ks))
    (hrest : ∀ s', At t s' ks → Post E (fun rs => Q (r.redir :: rs.1, rs.2)) (parseredirs t f s')) :
    Post E Q (parseredirs t (f + 1) s) := by
  obtain ⟨s₁, s₂, hpeek, hop, h₂⟩ := h.redirects r.opens
  obtain ⟨s₃, hfile, h₃⟩ := gettoken_cons h₂
  refine Post.bind_of_ok hpeek (Post.bind_of_ok hop (Post.bind_of_ok hfile ?_))
  have hword : ¬ r.file.1.kind.code ≠ 97 := not_not_intro ((code_eq_word _).mpr r.file.2)
  simp only [if_neg hword, redircmd_redir]
  exact (hrest s₃ h₃).bind fun rs hrs => Post.ok hrs

theorem parseredirs_complete {rs : List Redirection} (hks : Next (·.mode = none) ks)
    (h : At t s (rs.flatMap Redirection.yield ++ ks))
    (hf : (rs.flatMap Redirection.yield).length < f) :
    Post E (fun r => r.1 = rs.map Redirection.redir ∧ At t r.2 ks) (parseredirs t f s) := by
  induction rs generalizing s f with
  | nil =>
    obtain ⟨f, rfl⟩ := Nat.exists_eq_succ_of_ne_zero (Nat.ne_of_gt hf)
    obtain ⟨s₁, hpeek, h₁⟩ := h.no_redirects hks
    exact Post.bind_of_ok hpeek (Post.ok ⟨rfl, h₁⟩)
  | cons x rs ih =>
    obtain ⟨f, rfl⟩ := Nat.exists_eq_succ_of_ne_zero (Nat.ne_of_gt (Nat.zero_lt_of_lt hf))
    refine parseredirs_round x h fun s' h' => ?_
    simp only [List.flatMap_cons, List.length_append, Redirection.yield, List.length_cons,
      List.length_nil] at hf
    refine (ih h' (by omega)).imp fun r hr => ?_
    exact ⟨congrArg (x.redir :: ·) hr.1, hr.2⟩

/-- The way the parser may stop. -/
def Refused (e : Stop) : Prop := ∃ msg, e = .panic msg

theorem parseredirs_sound (h : At t s ks) (hf : ks.length < f) :
    Post Refused (fun r => ∃ rs : List Redirection, ∃ ks',
      ks = rs.flatMap Redirection.yield ++ ks' ∧
      r.1 = rs.map Redirection.redir ∧ At t r.2 ks') (parseredirs t f s) := by
  induction f generalizing s ks with
  | zero => exact absurd hf (Nat.not_lt_zero _)
  | succ f ih =>
    by_cases hks : Next (·.mode = none) ks
    · obtain ⟨s₁, hpeek, h₁⟩ := h.no_redirects hks
      exact Post.bind_of_ok hpeek (Post.ok ⟨[], ks, rfl, rfl, h₁⟩)
    · obtain _ | ⟨op, ks⟩ := ks
      · exact absurd Next.nil hks
      have hop : op.kind.mode.isSome := Option.isSome_iff_ne_none.mpr fun hn => hks (Next.cons hn)
      obtain ⟨s₁, s₂, hpeek, hget, h₂⟩ := h.redirects hop
      -- without a word behind the symbol this is the panic
      rcases next_cases .word ks with ⟨x, ks, rfl⟩ | hnext
      · refine parseredirs_round ⟨op, hop, x⟩ h fun s' h' => ?_
        have hlen : ks.length < f := by
          simp only [List.length_cons] at hf
          omega
        refine (ih h' hlen).imp ?_
        rintro ⟨rs, s''⟩ ⟨xs, ks', rfl, rfl, hat⟩
        exact ⟨⟨op, hop, x⟩ :: xs, ks', rfl, rfl, hat⟩
      · have hnot : ∃ tok q eq s₃, gettoken t s₂ = .ok (tok, q, eq, s₃) ∧ tok ≠ 97 := by
          cases ks with
          | nil =>
            obtain ⟨q, eq, s₃, hend, -⟩ := gettoken_end h₂
            exact ⟨0, q, eq, s₃, hend, by decide⟩
          | cons k ks =>
            obtain ⟨s₃, hk, -⟩ := gettoken_cons h₂
            exact ⟨_, _, _, s₃, hk, fun hc => hnext.head ((code_eq_word _).mp hc)⟩
        obtain ⟨tok, q, eq, s₃, hfile, htok⟩ := hnot
        refine Post.bind_of_ok hpeek (Post.bind_of_ok hget (Post.bind_of_ok hfile ?_))
        exact Post.ite (fun _ => Post.error ⟨_, rfl⟩) fun hc => absurd htok hc

/-! ## Words -/

section

variable {maxargs : Nat} {argv : List (Nat × Nat)} {rs : List Redir}

theorem begins_follow (k : Kind) :
    k.begins [124, 41, 38, 59] = decide (k ∈ Nonterminal.exec.follow) := by
  cases k <;> decide

theorem parsewords_stop (hargv : argv.length < maxargs) (hks : Nonterminal.exec.Ends ks)
    (h : At t s ks) :
    Post E (fun r => r.1 = (Cmd.exec argv).wrap rs ∧ At t r.2 ks)
    (parsewords t maxargs (f + 1) argv rs s) := by
  obtain ⟨s₁, hpeek, h₁, -⟩ := peek_at [124, 41, 38, 59] (by decide) h
  have hstore : storable maxargs argv.length = .ok () := if_pos hargv
  refine Post.bind_of_ok hpeek ?_
  cases ks with
  | nil =>
    obtain ⟨q, eq, s₂, hget, h₂⟩ := gettoken_end h₁
    exact Post.bind_of_ok hget (Post.bind_of_ok hstore (Post.ok ⟨rfl, h₂⟩))
  | cons k ks =>
    have hstop : heads [124, 41, 38, 59] (k :: ks) = true := by
      rw [heads, begins_follow, decide_eq_true hks.head]
    simp only [hstop]
    exact Post.bind_of_ok hstore (Post.ok ⟨rfl, h₁⟩)

theorem parsewords_round {Q : Cmd × Nat → Prop} (hargv : argv.length < maxargs) (x : Terminal .word)
    (h : At t s (x.1 :: ks)) (hmany : maxargs ≤ argv.length + 1 → E (.panic "too many args"))
    (hrest : ∀ s', At t s' ks → argv.length + 1 < maxargs →
      Post E (fun r => Post E Q (parsewords t maxargs f (argv ++ [(x.1.q, x.1.eq)])
        (rs ++ r.1) r.2))
        (parseredirs t f s')) :
    Post E Q (parsewords t maxargs (f + 1) argv rs s) := by
  obtain ⟨s₁, hpeek, h₁, -⟩ := peek_at [124, 41, 38, 59] (by decide) h
  obtain ⟨s₂, hget, h₂⟩ := gettoken_cons h₁
  have hword := (code_eq_word _).mpr x.2
  have hnot : heads [124, 41, 38, 59] (x.1 :: ks) = false := by
    rw [heads, x.2]
    decide
  refine Post.bind_of_ok hpeek ?_
  simp only [hnot]
  refine Post.bind_of_ok hget ?_
  simp only [hword]
  refine Post.bind_of_ok (if_pos hargv : storable maxargs argv.length = .ok ()) ?_
  refine Post.ite (fun hlen => ?_) fun hlen => ?_
  · exact .error (hmany (by simpa using hlen))
  · have hlen' : argv.length + 1 < maxargs := by simpa using hlen
    exact (hrest s₂ h₂ hlen').bind fun r hr => hr

theorem parsewords_complete {ws : List Word} (hks : Nonterminal.exec.Ends ks)
    (h : At t s (ws.flatMap Word.yield ++ ks)) (hargv : argv.length + ws.length < maxargs)
    (hf : (ws.flatMap Word.yield).length < f) :
    Post E (fun r => r.1 = (Cmd.exec (argv ++ ws.map Word.arg)).wrap
      (rs ++ (ws.flatMap Word.redirs).map Redirection.redir) ∧ At t r.2 ks)
      (parsewords t maxargs f argv rs s) := by
  induction ws generalizing s f argv rs with
  | nil =>
    obtain ⟨f, rfl⟩ := Nat.exists_eq_succ_of_ne_zero (Nat.ne_of_gt hf)
    simpa using parsewords_stop hargv hks h
  | cons w ws ih =>
    obtain ⟨f, rfl⟩ := Nat.exists_eq_succ_of_ne_zero (Nat.ne_of_gt (Nat.zero_lt_of_lt hf))
    simp only [List.flatMap_cons, Word.yield, List.cons_append, List.append_assoc] at h
    simp only [List.flatMap_cons, Word.yield, List.cons_append, List.length_cons,
      List.length_append] at hf hargv
    refine parsewords_round (by omega) w.word h (fun hmany => by omega) fun s' h' _ => ?_
    have hnext : Next (·.mode = none) (ws.flatMap Word.yield ++ ks) :=
      Next.words ((ends_words hks).mono fun _ => And.right)
    refine (parseredirs_complete hnext h' (by omega)).imp ?_
    rintro ⟨rs', s''⟩ ⟨rfl, h''⟩
    refine (ih h'' ?_ (by omega)).imp ?_
    · simp only [List.length_append, List.length_singleton]
      omega
    · rintro ⟨cmd, s₃⟩ ⟨rfl, h₃⟩
      exact ⟨by simp [Word.arg], h₃⟩

theorem parsewords_sound (h : At t s ks) (hargv : argv.length < maxargs) (hf : ks.length < f) :
    Post Refused (fun r => ∃ ws : List Word, ∃ ks', ks = ws.flatMap Word.yield ++ ks' ∧
      argv.length + ws.length < maxargs ∧ r.1 = (Cmd.exec (argv ++ ws.map Word.arg)).wrap
        (rs ++ (ws.flatMap Word.redirs).map Redirection.redir) ∧ At t r.2 ks')
        (parsewords t maxargs f argv rs s) := by
  induction f generalizing s ks argv rs with
  | zero => exact absurd hf (Nat.not_lt_zero _)
  | succ f ih =>
    by_cases hends : Nonterminal.exec.Ends ks
    · refine (parsewords_stop hargv hends h).imp ?_
      rintro ⟨cmd, s'⟩ ⟨rfl, h'⟩
      exact ⟨[], ks, rfl, hargv, by simp, h'⟩
    obtain _ | ⟨k, ks⟩ := ks
    · exact absurd Next.nil hends
    by_cases hk : k.kind = .word
    · refine parsewords_round hargv ⟨k, hk⟩ h (fun _ => ⟨_, rfl⟩) fun s' h' hlen => ?_
      have hf' : ks.length < f := Nat.lt_of_succ_lt_succ hf
      refine (parseredirs_sound h' hf').imp ?_
      rintro ⟨rs', s''⟩ ⟨xs, ks', rfl, rfl, h''⟩
      rw [List.length_append] at hf'
      refine (ih h'' (by simpa using hlen) (by omega)).imp ?_
      rintro ⟨cmd, s₃⟩ ⟨ws, ks₂, rfl, hmax, rfl, h₃⟩
      refine ⟨⟨⟨k, hk⟩, xs⟩ :: ws, ks₂, ?_, ?_, ?_, h₃⟩
      · simp [Word.yield]
      · simp only [List.length_append, List.length_singleton] at hmax
        simp only [List.length_cons]
        omega
      · simp [Word.arg]
    · obtain ⟨s₁, hpeek, h₁, -⟩ := peek_at [124, 41, 38, 59] (by decide) h
      obtain ⟨s₂, hget, -⟩ := gettoken_cons h₁
      have hstop : heads [124, 41, 38, 59] (k :: ks) = false := by
        rw [heads, begins_follow]
        exact decide_eq_false fun hc => hends (Next.cons hc)
      refine Post.bind_of_ok hpeek ?_
      simp only [hstop]
      refine Post.bind_of_ok hget (Post.ite (fun hzero => ?_) fun _ => ?_)
      · exact absurd hzero (code_ne_zero k.kind)
      · refine Post.ite (fun _ => Post.error ⟨_, rfl⟩) fun hc => ?_
        exact absurd (not_not.mp hc) fun hc => hk ((code_eq_word _).mp hc)

end

/-! ## Lines, pipelines and commands -/

def Nonterminal.parse (t : Text) (maxargs : Nat) : Nonterminal → Nat → Nat → Except Stop (Cmd × Nat)
  | .line => parseline t maxargs
  | .pipe => parsepipe t maxargs
  | .exec => parseexec t maxargs

/-- The rounds that the recursion takes from one token to the next. -/
def Nonterminal.rounds : Nonterminal → Nat
  | .line => 4
  | .pipe => 3
  | .exec => 2

section

variable {maxargs : Nat}

theorem parse_complete {n : Nonterminal} (d : Tree n) (hfits : d.Fits maxargs) (hks : n.Ends ks)
    (h : At t s (d.yield ++ ks)) (hf : 4 * d.yield.length + n.rounds ≤ f) :
    Post E (fun r => r.1 = d.cmd ∧ At t r.2 ks) (n.parse t maxargs f s) := by
  induction d generalizing s f ks with
  | line p amps ih =>
    simp only [Tree.yield, List.append_assoc, List.length_append, List.length_map,
      Nonterminal.rounds] at h hf
    obtain ⟨f, rfl⟩ := Nat.exists_eq_add_of_le' (show 1 ≤ f by omega)
    rw [Nonterminal.parse, parseline]
    refine (ih (f := f) hfits (ends_amps (ends_pipe hks))
      h (by simp only [Nonterminal.rounds]; omega)).bind ?_
    rintro ⟨cmd, s₁⟩ ⟨rfl, h₁⟩
    refine (parsebacks_post (ends_not (by decide) hks) h₁ (by omega) _).bind ?_
    rintro ⟨cmd, s₂⟩ ⟨rfl, h₂⟩
    obtain ⟨s₃, hpeek, h₃⟩ := h₂.decline (ends_not (k := .semi) (by decide) hks) (by decide)
    exact Post.bind_of_ok hpeek (Post.ok ⟨rfl, h₃⟩)
  | list p amps semi l ihp ihl =>
    simp only [Tree.yield, List.append_assoc, List.cons_append, List.length_append,
      List.length_cons, List.length_map, Nonterminal.rounds] at h hf
    obtain ⟨f, rfl⟩ := Nat.exists_eq_add_of_le' (show 1 ≤ f by omega)
    rw [Nonterminal.parse, parseline]
    refine (ihp (f := f) hfits.1 (ends_amps (ends_cons semi (by decide)))
      h (by simp only [Nonterminal.rounds]; omega)).bind ?_
    rintro ⟨cmd, s₁⟩ ⟨rfl, h₁⟩
    refine (parsebacks_post (Next.cons (by rw [semi.2]; decide)) h₁ (by omega) _).bind ?_
    rintro ⟨cmd, s₂⟩ ⟨rfl, h₂⟩
    obtain ⟨s₃, tok, s₄, hpeek, -, hget, h₄⟩ := At.accept semi h₂ (by decide)
    refine Post.bind_of_ok hpeek (Post.bind_of_ok hget ?_)
    refine (ihl (f := f) hfits.2 hks h₄ (by simp only [Nonterminal.rounds]; omega)).bind ?_
    rintro ⟨right, s₅⟩ ⟨rfl, h₅⟩
    exact .ok ⟨rfl, h₅⟩
  | exec e ih =>
    simp only [Tree.yield, Nonterminal.rounds] at h hf
    obtain ⟨f, rfl⟩ := Nat.exists_eq_add_of_le' (show 1 ≤ f by omega)
    rw [Nonterminal.parse, parsepipe]
    refine (ih (f := f) hfits (ends_exec hks) h (by simp only [Nonterminal.rounds]; omega)).bind ?_
    rintro ⟨cmd, s₁⟩ ⟨rfl, h₁⟩
    obtain ⟨s₂, hpeek, h₂⟩ := h₁.decline (ends_not (k := .bar) (by decide) hks) (by decide)
    exact Post.bind_of_ok hpeek (Post.ok ⟨rfl, h₂⟩)
  | pipe e bar p ihe ihp =>
    simp only [Tree.yield, List.append_assoc, List.cons_append, List.length_append,
      List.length_cons, Nonterminal.rounds] at h hf
    obtain ⟨f, rfl⟩ := Nat.exists_eq_add_of_le' (show 1 ≤ f by omega)
    rw [Nonterminal.parse, parsepipe]
    refine (ihe (f := f) hfits.1 (ends_cons bar (by decide))
      h (by simp only [Nonterminal.rounds]; omega)).bind ?_
    rintro ⟨cmd, s₁⟩ ⟨rfl, h₁⟩
    obtain ⟨s₂, tok, s₃, hpeek, -, hget, h₃⟩ := At.accept bar h₁ (by decide)
    refine Post.bind_of_ok hpeek (Post.bind_of_ok hget ?_)
    refine (ihp (f := f) hfits.2 hks h₃ (by simp only [Nonterminal.rounds]; omega)).bind ?_
    rintro ⟨right, s₄⟩ ⟨rfl, h₄⟩
    exact .ok ⟨rfl, h₄⟩
  | block lparen l rparen rs ih =>
    simp only [Tree.yield, List.append_assoc, List.cons_append, List.length_append,
      List.length_cons, Nonterminal.rounds] at h hf
    obtain ⟨f, rfl⟩ : ∃ g, f = g + 1 + 1 := ⟨f - 2, by omega⟩
    rw [Nonterminal.parse, parseexec]
    -- `parseexec` and `parseblock` both look for the parenthesis
    obtain ⟨s₁, -, -, hpeek, h₁, -, -⟩ := At.accept lparen h (by decide)
    refine Post.bind_of_ok hpeek ?_
    change Post E _ (parseblock t maxargs (f + 1) s₁)
    rw [parseblock]
    obtain ⟨s₂, tok, s₃, hpeek₂, -, hget, h₃⟩ := At.accept lparen h₁ (by decide)
    refine Post.bind_of_ok hpeek₂ (Post.bind_of_ok hget ?_)
    refine (ih (f := f) hfits (ends_cons rparen (by decide))
      h₃ (by simp only [Nonterminal.rounds]; omega)).bind ?_
    rintro ⟨cmd, s₄⟩ ⟨rfl, h₄⟩
    obtain ⟨s₅, tok, s₆, hpeek₅, -, hget₅, h₆⟩ := At.accept rparen h₄ (by decide)
    refine Post.bind_of_ok hpeek₅ (Post.bind_of_ok hget₅ ?_)
    refine (parseredirs_complete ((ends_words hks).mono fun _ => And.right) h₆ (by omega)).bind ?_
    rintro ⟨rs', s₇⟩ ⟨rfl, h₇⟩
    exact .ok ⟨rfl, h₇⟩
  | simple rs ws =>
    simp only [List.length_append, Tree.yield, Nonterminal.rounds] at hf
    obtain ⟨f, rfl⟩ := Nat.exists_eq_add_of_le' (show 1 ≤ f by omega)
    rw [Nonterminal.parse, parseexec]
    obtain ⟨s₁, hpeek, h₁⟩ := h.decline (next_simple rs ws hks) (by decide)
    refine Post.bind_of_ok hpeek ?_
    rw [Tree.yield, List.append_assoc] at h₁
    refine (parseredirs_complete (Next.words ((ends_words hks).mono fun _ => And.right))
      h₁ (by omega)).bind ?_
    rintro ⟨rs', s₂⟩ ⟨rfl, h₂⟩
    have hargv : 0 + ws.length < maxargs := by
      rw [Nat.zero_add]
      exact hfits
    refine (parsewords_complete hks h₂ hargv (by omega)).imp ?_
    rintro ⟨cmd, s₃⟩ ⟨rfl, h₃⟩
    exact ⟨by simp [Tree.cmd], h₃⟩

/-- What the parser returns has a derivation. -/
def Parsed (t : Text) (maxargs : Nat) (n : Nonterminal) (ks : List Token) (r : Cmd × Nat) : Prop :=
  ∃ d : Tree n, ∃ ks', ks = d.yield ++ ks' ∧ d.Fits maxargs ∧ r.1 = d.cmd ∧ At t r.2 ks'

theorem parse_sound (hmax : 0 < maxargs) (n : Nonterminal) (h : At t s ks)
    (hf : 4 * ks.length + n.rounds ≤ f) :
    Post Refused (Parsed t maxargs n ks) (n.parse t maxargs f s) := by
  induction f using Nat.strongRecOn generalizing n s ks with
  | _ f ih =>
  cases n with
  | line =>
    simp only [Nonterminal.rounds] at hf
    obtain ⟨f, rfl⟩ := Nat.exists_eq_add_of_le' (show 1 ≤ f by omega)
    rw [Nonterminal.parse, parseline]
    refine (ih f (Nat.lt_succ_self f) .pipe h (by simp only [Nonterminal.rounds]; omega)).bind ?_
    rintro ⟨cmd, s₁⟩ ⟨p, ks₁, rfl, hfits, rfl, h₁⟩
    obtain ⟨amps, ks₂, rfl, hks₂⟩ := split_terminals .amp ks₁
    simp only [List.length_append, List.length_map] at hf
    refine (parsebacks_post hks₂ h₁ (by omega) _).bind ?_
    rintro ⟨cmd, s₂⟩ ⟨rfl, h₂⟩
    rcases next_cases .semi ks₂ with ⟨semi, ks₃, rfl⟩ | hnext
    · obtain ⟨s₃, tok, s₄, hpeek, -, hget, h₄⟩ := At.accept semi h₂ (by decide)
      rw [List.length_cons] at hf
      refine Post.bind_of_ok hpeek (Post.bind_of_ok hget ?_)
      refine (ih f (Nat.lt_succ_self f) .line h₄ (by simp only [Nonterminal.rounds]; omega)).bind ?_
      rintro ⟨right, s₅⟩ ⟨l, ks₅, rfl, hfits', rfl, h₅⟩
      exact .ok ⟨.list p amps semi l, ks₅, by simp [Tree.yield], ⟨hfits, hfits'⟩, rfl, h₅⟩
    · obtain ⟨s₃, hpeek, h₃⟩ := h₂.decline hnext (by decide)
      exact Post.bind_of_ok hpeek
        (Post.ok ⟨.line p amps, ks₂, by simp [Tree.yield], hfits, rfl, h₃⟩)
  | pipe =>
    simp only [Nonterminal.rounds] at hf
    obtain ⟨f, rfl⟩ := Nat.exists_eq_add_of_le' (show 1 ≤ f by omega)
    rw [Nonterminal.parse, parsepipe]
    refine (ih f (Nat.lt_succ_self f) .exec h (by simp only [Nonterminal.rounds]; omega)).bind ?_
    rintro ⟨cmd, s₁⟩ ⟨e, ks₁, rfl, hfits, rfl, h₁⟩
    rcases next_cases .bar ks₁ with ⟨bar, ks₂, rfl⟩ | hnext
    · obtain ⟨s₂, tok, s₃, hpeek, -, hget, h₃⟩ := At.accept bar h₁ (by decide)
      rw [List.length_append, List.length_cons] at hf
      refine Post.bind_of_ok hpeek (Post.bind_of_ok hget ?_)
      refine (ih f (Nat.lt_succ_self f) .pipe h₃ (by simp only [Nonterminal.rounds]; omega)).bind ?_
      rintro ⟨right, s₄⟩ ⟨p, ks₄, rfl, hfits', rfl, h₄⟩
      exact .ok ⟨.pipe e bar p, ks₄, by simp [Tree.yield], ⟨hfits, hfits'⟩, rfl, h₄⟩
    · obtain ⟨s₂, hpeek, h₂⟩ := h₁.decline hnext (by decide)
      exact Post.bind_of_ok hpeek (Post.ok ⟨.exec e, ks₁, rfl, hfits, rfl, h₂⟩)
  | exec =>
    simp only [Nonterminal.rounds] at hf
    obtain ⟨f, rfl⟩ : ∃ g, f = g + 1 + 1 := ⟨f - 2, by omega⟩
    rw [Nonterminal.parse, parseexec]
    rcases next_cases .lparen ks with ⟨lparen, ks₀, rfl⟩ | hnext
    · obtain ⟨s₁, -, -, hpeek, h₁, -, -⟩ := At.accept lparen h (by decide)
      refine Post.bind_of_ok hpeek ?_
      change Post Refused _ (parseblock t maxargs (f + 1) s₁)
      rw [parseblock]
      obtain ⟨s₂, tok, s₃, hpeek₂, -, hget, h₃⟩ := At.accept lparen h₁ (by decide)
      refine Post.bind_of_ok hpeek₂ (Post.bind_of_ok hget ?_)
      rw [List.length_cons] at hf
      refine (ih f (by omega) .line h₃ (by simp only [Nonterminal.rounds]; omega)).bind ?_
      rintro ⟨cmd, s₄⟩ ⟨l, ks₄, rfl, hfits, rfl, h₄⟩
      rcases next_cases .rparen ks₄ with ⟨rparen, ks₅, rfl⟩ | hnext
      · obtain ⟨s₅, tok, s₆, hpeek₅, -, hget₅, h₆⟩ := At.accept rparen h₄ (by decide)
        rw [List.length_append, List.length_cons] at hf
        refine Post.bind_of_ok hpeek₅ (Post.bind_of_ok hget₅ ?_)
        refine (parseredirs_sound h₆ (by omega)).bind ?_
        rintro ⟨rs', s₇⟩ ⟨rs, ks₇, rfl, rfl, h₇⟩
        exact .ok ⟨.block lparen l rparen rs, ks₇, by simp [Tree.yield], hfits, rfl, h₇⟩
      · obtain ⟨s₅, hpeek₅, -⟩ := h₄.decline hnext (by decide)
        exact Post.bind_of_ok hpeek₅ (Post.error ⟨_, rfl⟩)
    · obtain ⟨s₁, hpeek, h₁⟩ := h.decline hnext (by decide)
      refine Post.bind_of_ok hpeek ?_
      refine (parseredirs_sound h₁ (by omega)).bind ?_
      rintro ⟨rs', s₂⟩ ⟨rs, ks₂, rfl, rfl, h₂⟩
      rw [List.length_append] at hf
      refine (parsewords_sound h₂ hmax (by omega)).imp ?_
      rintro ⟨cmd, s₃⟩ ⟨ws, ks₃, rfl, hargv, rfl, h₃⟩
      refine ⟨.simple rs ws, ks₃, by simp [Tree.yield], ?_, by simp [Tree.cmd], h₃⟩
      rw [List.length_nil, Nat.zero_add] at hargv
      exact hargv

end

/-! ## `nulterminate` -/

/-- The command points into the line. -/
def Cmd.Within (len : Nat) : Cmd → Prop
  | .exec argv => ∀ a ∈ argv, a.2 ≤ len
  | .redir cmd r => cmd.Within len ∧ r.efile ≤ len
  | .pipe left right => left.Within len ∧ right.Within len
  | .list left right => left.Within len ∧ right.Within len
  | .back cmd => cmd.Within len

theorem terminate_post (buf : Nat → UInt8) {p : Nat} (hp : p ≤ t.len) :
    Post E (fun _ => True) (terminate t buf p) := by
  unfold terminate
  rw [if_pos hp]
  exact .ok trivial

theorem nulterminate_post {cmd : Cmd} (h : cmd.Within t.len) (buf : Nat → UInt8) :
    Post E (fun _ => True) (nulterminate t buf cmd) := by
  induction cmd generalizing buf with
  | exec argv =>
    unfold nulterminate
    induction argv generalizing buf with
    | nil => exact .ok trivial
    | cons a argv ih =>
      obtain ⟨ha, hargv⟩ := List.forall_mem_cons.mp h
      rw [List.foldlM_cons]
      exact (terminate_post buf ha).bind fun buf _ => ih hargv buf
  | redir cmd r ih => exact (ih h.1 buf).bind fun buf _ => terminate_post buf h.2
  | pipe left right ihl ihr => exact (ihl h.1 buf).bind fun buf _ => ihr h.2 buf
  | list left right ihl ihr => exact (ihl h.1 buf).bind fun buf _ => ihr h.2 buf
  | back cmd ih => exact ih h buf

theorem Cmd.within_wrap {cmd : Cmd} {len : Nat} {rs : List Redirection} (h : cmd.Within len)
    (hrs : ∀ k ∈ rs.flatMap Redirection.yield, k.eq ≤ len) :
    (cmd.wrap (rs.map Redirection.redir)).Within len := by
  induction rs generalizing cmd with
  | nil => exact h
  | cons r rs ih =>
    simp only [List.flatMap_cons, Redirection.yield, List.forall_mem_append,
      List.forall_mem_cons] at hrs
    exact ih ⟨h, hrs.1.2.1⟩ hrs.2

theorem Cmd.within_back {cmd : Cmd} {len : Nat} (h : cmd.Within len) (n : Nat) :
    (Cmd.back^[n] cmd).Within len := by
  induction n with
  | zero => exact h
  | succ n ih =>
    rw [Function.iterate_succ_apply']
    exact ih

theorem Tree.cmd_within {n : Nonterminal} {len : Nat} (d : Tree n) (h : ∀ k ∈ d.yield, k.eq ≤ len) :
    d.cmd.Within len := by
  induction d with
  | line p amps ih =>
    rw [Tree.yield, List.forall_mem_append] at h
    exact Cmd.within_back (ih h.1) _
  | list p amps semi l ihp ihl =>
    rw [Tree.yield, List.forall_mem_append, List.forall_mem_append, List.forall_mem_cons] at h
    exact ⟨Cmd.within_back (ihp h.1) _, ihl h.2.2.2⟩
  | exec e ih => exact ih h
  | pipe e bar p ihe ihp =>
    rw [Tree.yield, List.forall_mem_append, List.forall_mem_cons] at h
    exact ⟨ihe h.1, ihp h.2.2⟩
  | block lparen l rparen rs ih =>
    rw [Tree.yield, List.forall_mem_cons, List.forall_mem_append, List.forall_mem_cons] at h
    exact Cmd.within_wrap (ih h.2.1) h.2.2.2
  | simple rs ws =>
    rw [Tree.yield, List.forall_mem_append] at h
    refine Cmd.within_wrap ?_ ?_
    · intro a ha
      obtain ⟨w, hw, rfl⟩ := List.mem_map.mp ha
      exact h.2 _ (List.mem_flatMap.mpr ⟨w, hw, List.mem_cons_self⟩)
    · rw [List.flatMap_append, List.forall_mem_append]
      refine ⟨h.1, fun k hk => h.2 k ?_⟩
      obtain ⟨r, hr, hk⟩ := List.mem_flatMap.mp hk
      obtain ⟨w, hw, hr⟩ := List.mem_flatMap.mp hr
      exact List.mem_flatMap.mpr ⟨w, hw, List.mem_cons_of_mem _ (List.mem_flatMap.mpr ⟨r, hr, hk⟩)⟩

end

/-! ## `parsecmd` -/

def Text.tokens (t : Text) : List Token := Shell.tokens 0 t.chars

theorem Text.at_start (t : Text) : At t 0 t.tokens := ⟨Nat.zero_le _, rfl⟩

theorem parsecmd_post {t : Text} {E : Stop → Prop} {Q : Cmd × (Nat → UInt8) → Prop}
    (h : Post E (fun r => ∃ d : Tree .line, ∃ ks', t.tokens = d.yield ++ ks' ∧ r.1 = d.cmd ∧
      At t r.2 ks' ∧
      (ks' ≠ [] → E (.panic "syntax")) ∧ (ks' = [] → ∀ buf, Q (r.1, buf)))
      (parseline t MAXARGS (4 * t.len + 4) 0)) :
    Post E Q (parsecmd t) := by
  refine h.bind ?_
  rintro ⟨cmd, s⟩ ⟨d, ks', htok, rfl, hat, herr, hok⟩
  obtain ⟨s', hpeek, -, hend⟩ := peek_at [] (List.nil_subset _) hat
  refine Post.bind_of_ok hpeek (Post.ite (fun hne => ?_) fun heq => ?_)
  · exact .error (herr fun hnil => hne (hend.mp hnil))
  · obtain rfl := hend.mpr (not_not.mp heq)
    have hwithin : d.cmd.Within t.len := by
      refine d.cmd_within fun k hk => ?_
      have hmem : k ∈ t.tokens := by
        rw [htok]
        exact List.mem_append_left _ hk
      simpa [Text.len] using (tokens_bounds 0 t.chars k hmem).2
    exact (nulterminate_post hwithin _).bind fun buf _ => Post.ok (hok rfl buf)

theorem parsecmd_sound (t : Text) :
    Post Refused (fun r => ∃ d : Tree .line, d.yield = t.tokens ∧ d.Fits MAXARGS ∧ d.cmd = r.1)
    (parsecmd t) := by
  have hlen : t.tokens.length ≤ t.len := tokens_length_le 0 t.chars
  have hline : Post Refused (Parsed t MAXARGS .line t.tokens)
      (parseline t MAXARGS (4 * t.len + 4) 0) :=
    parse_sound (by decide) .line t.at_start (by simp only [Nonterminal.rounds]; omega)
  refine parsecmd_post (hline.imp ?_)
  rintro ⟨cmd, s⟩ ⟨d, ks', htok, hfits, rfl, hat⟩
  refine ⟨d, ks', htok, rfl, hat, fun _ => ⟨_, rfl⟩, ?_⟩
  rintro rfl buf
  exact ⟨d, (List.append_nil _).symm.trans htok.symm, hfits, rfl⟩

theorem parsecmd_complete {t : Text} {d : Tree .line} (hd : d.yield = t.tokens)
    (hfits : d.Fits MAXARGS) : ∃ buf, parsecmd t = .ok (d.cmd, buf) := by
  have hlen : t.tokens.length ≤ t.len := tokens_length_le 0 t.chars
  have hat : At t 0 (d.yield ++ []) := by
    rw [List.append_nil, hd]
    exact t.at_start
  have hline : Post (fun _ => False) (fun r => r.1 = d.cmd ∧ At t r.2 [])
      (parseline t MAXARGS (4 * t.len + 4) 0) :=
    parse_complete d hfits Next.nil hat (by rw [hd]; simp only [Nonterminal.rounds]; omega)
  have hpost : Post (fun _ => False) (fun r => r.1 = d.cmd) (parsecmd t) := by
    refine parsecmd_post (hline.imp ?_)
    rintro ⟨cmd, s⟩ ⟨rfl, hend⟩
    exact ⟨d, [], hd.symm.trans (List.append_nil _).symm, rfl, hend, fun h => absurd rfl h,
      fun _ _ => rfl⟩
  obtain ⟨⟨cmd, buf⟩, hok, rfl⟩ := hpost.exists_ok
  exact ⟨buf, hok⟩

/-- `parsecmd` returns a command exactly for the lines that the grammar derives with fewer than
`MAXARGS` words in each simple command. The command is that of the derivation, of which there is
one. On every other line it panics: it does not read behind the NUL, does not store out of bounds
and does not run forever. -/
theorem parsecmd_accepts_grammar (t : Text) :
    (∀ c, (∃ buf, parsecmd t = .ok (c, buf)) ↔
      ∃ d : Tree .line, d.yield = t.tokens ∧ d.Fits MAXARGS ∧ d.cmd = c) ∧
    (∀ d d' : Tree .line, d.yield = t.tokens → d'.yield = t.tokens → d = d') ∧
    ((∃ c buf, parsecmd t = .ok (c, buf)) ∨ ∃ msg, parsecmd t = .error (.panic msg)) := by
  have hsound := parsecmd_sound t
  refine ⟨fun c => ⟨?_, ?_⟩, ?_, ?_⟩
  · rintro ⟨buf, hok⟩
    exact hsound.of_ok hok
  · rintro ⟨d, hd, hfits, rfl⟩
    exact parsecmd_complete hd hfits
  · intro d d' hd hd'
    exact (d.unambiguous d' Next.nil Next.nil (by rw [hd, hd'])).1
  · cases hrun : parsecmd t with
    | ok r => exact Or.inl ⟨r.1, r.2, rfl⟩
    | error e =>
      obtain ⟨msg, rfl⟩ := hsound.of_error hrun
      exact Or.inr ⟨msg, rfl⟩

end Xv6.Shell
