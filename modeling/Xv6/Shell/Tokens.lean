import Xv6.Shell.Model

/-! # Tokens of a line

The tokens of a line are `>>`, the other symbols, and the longest runs of characters that are
neither white space nor symbols. `gettoken` returns them one after the other, and `peek` looks at
the first character of the next one.
-/

namespace Xv6.Shell

inductive Kind where
  | word
  | lt
  | gt
  | append
  | bar
  | lparen
  | rparen
  | semi
  | amp
deriving DecidableEq

/-- What `gettoken` returns. -/
def Kind.code : Kind → UInt8
  | .word => 97
  | .lt => 60
  | .gt => 62
  | .append => 43
  | .bar => 124
  | .lparen => 40
  | .rparen => 41
  | .semi => 59
  | .amp => 38

def Kind.first : Kind → Option UInt8
  | .word => none
  | .append => some 62
  | k => some k.code

/-- The kind is a symbol that starts with one of `toks`. -/
def Kind.begins (toks : List UInt8) (k : Kind) : Bool := k.first.any (strchr toks)

structure Token where
  kind : Kind
  q : Nat
  eq : Nat
deriving DecidableEq

def wordChar (c : UInt8) : Bool := !strchr whitespace c && !strchr symbols c

def symbolKind (c : UInt8) : Kind :=
  if c = 124 then .bar
  else if c = 40 then .lparen
  else if c = 41 then .rparen
  else if c = 59 then .semi
  else if c = 38 then .amp
  else if c = 60 then .lt
  else .gt

/-- The tokens of the characters from index `i` on. -/
def tokens (i : Nat) (cs : List UInt8) : List Token :=
  match cs with
  | [] => []
  | c :: cs =>
    if strchr whitespace c then tokens (i + 1) cs
    else if strchr symbols c then
      if c = 62 ∧ cs.head? = some 62 then ⟨.append, i, i + 2⟩ :: tokens (i + 2) cs.tail
      else ⟨symbolKind c, i, i + 1⟩ :: tokens (i + 1) cs
    else
      ⟨.word, i, i + 1 + (cs.takeWhile wordChar).length⟩ ::
        tokens (i + 1 + (cs.takeWhile wordChar).length) (cs.dropWhile wordChar)
termination_by cs.length
decreasing_by
  · exact Nat.lt_succ_self _
  · rw [List.length_tail, List.length_cons]
    omega
  · exact Nat.lt_succ_self _
  · exact Nat.lt_succ_of_le (List.dropWhile_suffix wordChar).length_le

theorem tokens_length_le (i : Nat) (cs : List UInt8) : (tokens i cs).length ≤ cs.length := by
  fun_induction tokens i cs with
  | case1 => exact Nat.le_refl _
  | case2 i c cs hw ih => exact Nat.le_succ_of_le ih
  | case3 i c cs hw hs ha ih =>
    rw [List.length_tail] at ih
    rw [List.length_cons, List.length_cons]
    omega
  | case4 i c cs hw hs ha ih => exact Nat.succ_le_succ ih
  | case5 i c cs hw hs ih =>
    exact Nat.succ_le_succ (Nat.le_trans ih (List.dropWhile_suffix wordChar).length_le)

theorem tokens_bounds (i : Nat) (cs : List UInt8) :
    ∀ k ∈ tokens i cs, k.q ≤ k.eq ∧ k.eq ≤ i + cs.length := by
  fun_induction tokens i cs with
  | case1 => exact fun k hk => by cases hk
  | case2 i c cs hw ih =>
    intro k hk
    have := ih k hk
    rw [List.length_cons]
    omega
  | case3 i c cs hw hs ha ih =>
    have hlen : 0 < cs.length := by
      cases cs with
      | nil => cases ha.2
      | cons d cs => exact Nat.succ_pos _
    intro k hk
    rw [List.length_cons]
    rcases List.mem_cons.mp hk with rfl | hk
    · dsimp only
      omega
    · have := ih k hk
      rw [List.length_tail] at this
      omega
  | case4 i c cs hw hs ha ih =>
    intro k hk
    rw [List.length_cons]
    rcases List.mem_cons.mp hk with rfl | hk
    · dsimp only
      omega
    · have := ih k hk
      omega
  | case5 i c cs hw hs ih =>
    have hsplit : (cs.takeWhile wordChar).length + (cs.dropWhile wordChar).length = cs.length := by
      rw [← List.length_append, List.takeWhile_append_dropWhile]
    intro k hk
    rw [List.length_cons]
    rcases List.mem_cons.mp hk with rfl | hk
    · dsimp only
      omega
    · have := ih k hk
      omega

theorem tokens_skip (i : Nat) (cs : List UInt8) :
    tokens i cs = tokens (i + (cs.takeWhile (strchr whitespace)).length)
    (cs.dropWhile (strchr whitespace)) := by
  induction cs generalizing i with
  | nil => rfl
  | cons c cs ih =>
    by_cases hw : strchr whitespace c
    · rw [tokens, if_pos hw, ih, List.takeWhile_cons_of_pos hw, List.dropWhile_cons_of_pos hw,
        List.length_cons]
      congr 1
      omega
    · rw [List.takeWhile_cons_of_neg hw, List.dropWhile_cons_of_neg hw]
      rfl

section

variable {t : Text} {s : Nat}

/-- The tokens of a line from an index on. -/
def Text.tokensFrom (t : Text) (s : Nat) : List Token := tokens s (t.chars.drop s)

theorem read_lt (hs : s < t.chars.length) : read t s = .ok t.chars[s] := dif_pos hs

theorem read_len : read t t.len = .ok 0 := by
  unfold read Text.len
  rw [dif_neg (Nat.lt_irrefl _), if_pos rfl]

theorem scanLoop_eq (p : UInt8 → Bool) (n : Nat) (hs : s + n = t.len) :
    scanLoop t p n s = .ok (s + ((t.chars.drop s).takeWhile p).length) := by
  induction n generalizing s with
  | zero =>
    have hnil : t.chars.drop s = [] := List.drop_eq_nil_iff.mpr (by unfold Text.len at hs; omega)
    rw [hnil]
    rfl
  | succ n ih =>
    have hlt : s < t.chars.length := by
      unfold Text.len at hs
      omega
    rw [scanLoop, read_lt hlt, List.drop_eq_getElem_cons hlt]
    by_cases hp : p t.chars[s]
    · rw [List.takeWhile_cons_of_pos hp, List.length_cons]
      refine (if_pos hp).trans ((ih (by omega)).trans ?_)
      congr 1
      omega
    · rw [List.takeWhile_cons_of_neg hp]
      exact if_neg hp

theorem scan_eq (p : UInt8 → Bool) (hs : s ≤ t.len) :
    scan t p s = .ok (s + ((t.chars.drop s).takeWhile p).length) :=
  scanLoop_eq p _ (Nat.add_sub_cancel' hs)

theorem drop_takeWhile (p : UInt8 → Bool) (cs : List UInt8) :
    cs.drop (cs.takeWhile p).length = cs.dropWhile p := by
  have h := List.takeWhile_append_dropWhile (p := p) (l := cs)
  calc cs.drop (cs.takeWhile p).length
      = (cs.takeWhile p ++ cs.dropWhile p).drop (cs.takeWhile p).length := by rw [h]
    _ = cs.dropWhile p := List.drop_left

theorem drop_scan (p : UInt8 → Bool) :
    t.chars.drop (s + ((t.chars.drop s).takeWhile p).length) = (t.chars.drop s).dropWhile p := by
  rw [← List.drop_drop]
  exact drop_takeWhile p _

theorem scan_le (p : UInt8 → Bool) (hs : s ≤ t.len) :
    s + ((t.chars.drop s).takeWhile p).length ≤ t.len := by
  have h1 := (List.takeWhile_prefix (p := p) (l := t.chars.drop s)).length_le
  rw [List.length_drop] at h1
  unfold Text.len at *
  omega

/-- The parser stands in front of the tokens `ks`. -/
structure At (t : Text) (s : Nat) (ks : List Token) : Prop where
  le : s ≤ t.len
  tokens : t.tokensFrom s = ks

/-- Where the white space from `s` on ends. -/
def Text.skip (t : Text) (s : Nat) : Nat :=
  s + ((t.chars.drop s).takeWhile (strchr whitespace)).length

theorem At.skip {ks : List Token} (h : At t s ks) : At t (t.skip s) ks := by
  refine ⟨scan_le _ h.le, ?_⟩
  rw [← h.tokens, Text.tokensFrom, Text.tokensFrom, tokens_skip s, Text.skip, drop_scan]

theorem skip_cases (hs : s ≤ t.len) :
    t.skip s = t.len ∨ ∃ c cs, t.chars.drop (t.skip s) = c :: cs ∧ strchr whitespace c = false := by
  have hd : t.chars.drop (t.skip s) = (t.chars.drop s).dropWhile (strchr whitespace) := drop_scan _
  have hle : t.skip s ≤ t.len := scan_le _ hs
  cases hc : t.chars.drop (t.skip s) with
  | nil =>
    have := List.drop_eq_nil_iff.mp hc
    exact Or.inl (Nat.le_antisymm hle this)
  | cons c cs =>
    have hne : (t.chars.drop s).dropWhile (strchr whitespace) ≠ [] := by
      rw [← hd, hc]
      exact List.cons_ne_nil c cs
    have hhead := List.head_dropWhile_not (strchr whitespace) hne
    refine Or.inr ⟨c, cs, rfl, ?_⟩
    rw [← hhead]
    congr 1
    simp only [← hd, hc, List.head_cons]

theorem tokensFrom_len : t.tokensFrom t.len = [] := by
  unfold Text.tokensFrom Text.len
  rw [List.drop_length]
  exact tokens.eq_1 _

theorem symbol_single {c : UInt8} (hs : strchr symbols c) (h : c ≠ 62) :
    single c ∧ (symbolKind c).code = c ∧ (symbolKind c).first = some c := by
  have hc : c ∈ symbols := List.contains_iff_mem.mp hs
  simp only [symbols, List.mem_cons, List.not_mem_nil, or_false] at hc
  rcases hc with rfl | rfl | rfl | rfl | rfl | rfl | rfl
  · decide
  · decide
  · exact absurd rfl h
  all_goals decide

theorem not_single {c : UInt8} (hs : ¬ strchr symbols c) : ¬ single c := by
  intro hc
  unfold single at hc
  simp only [Bool.or_eq_true, decide_eq_true_eq] at hc
  rcases hc with ((((rfl | rfl) | rfl) | rfl) | rfl) | rfl <;> exact hs (by decide)

theorem ne_gt_of_not_symbol {c : UInt8} (hs : ¬ strchr symbols c) : c ≠ 62 := by
  rintro rfl
  exact hs (by decide)

section character

variable {c : UInt8} {cs : List UInt8} (hd : t.chars.drop s = c :: cs)

include hd

theorem lt_of_drop_cons : s < t.chars.length := by
  refine Nat.lt_of_not_le fun hle => ?_
  rw [List.drop_eq_nil_of_le hle] at hd
  cases hd

theorem read_drop : read t s = .ok c := by
  have hlt := lt_of_drop_cons hd
  rw [List.drop_eq_getElem_cons hlt] at hd
  rw [read_lt hlt, (List.cons.inj hd).1]

theorem drop_succ : t.chars.drop (s + 1) = cs := by
  have hlt := lt_of_drop_cons hd
  rw [List.drop_eq_getElem_cons hlt] at hd
  exact (List.cons.inj hd).2

theorem drop_ne_zero : c ≠ 0 := by
  refine t.nul_free c (List.mem_of_mem_drop (i := s) ?_)
  rw [hd]
  exact List.mem_cons_self

theorem read_succ : read t (s + 1) = .ok (cs.head?.getD 0) := by
  have hlt := lt_of_drop_cons hd
  have hcs := drop_succ hd
  cases cs with
  | nil =>
    have hlen : s + 1 = t.len := Nat.le_antisymm hlt (List.drop_eq_nil_iff.mp hcs)
    rw [hlen, read_len]
    rfl
  | cons d ds => exact read_drop hcs

theorem tokenAt_drop (hw : strchr whitespace c = false) :
    ∃ k e, tokenAt t s = .ok (k.code, e) ∧ At t e (t.tokensFrom e) ∧
      t.tokensFrom s = ⟨k, s, e⟩ :: t.tokensFrom e ∧
        k.first = if strchr symbols c then some c else none := by
  have hlt := lt_of_drop_cons hd
  have hcs := drop_succ hd
  have hw' : ¬ strchr whitespace c := by
    rw [hw]
    exact Bool.false_ne_true
  unfold tokenAt
  simp only [read_drop hd, bind, Except.bind, if_neg (drop_ne_zero hd)]
  unfold Text.tokensFrom
  rw [hd, tokens, if_neg hw']
  by_cases hsym : strchr symbols c
  · rw [if_pos hsym, if_pos hsym]
    by_cases h62 : c = 62
    · subst h62
      by_cases hh : cs.head? = some 62
      · have htail : t.chars.drop (s + 2) = cs.tail := by
          rw [← List.drop_one, ← hcs, List.drop_drop]
        refine ⟨.append, s + 2, ?_, ⟨?_, rfl⟩, ?_, rfl⟩
        · simp only [read_succ hd, hh]
          rfl
        · have : 0 < cs.length := by
            cases cs with
            | nil => cases hh
            | cons d ds => exact Nat.succ_pos _
          have hlen := congrArg List.length hcs
          rw [List.length_drop] at hlen
          unfold Text.len
          omega
        · rw [if_pos ⟨rfl, hh⟩, htail]
      · refine ⟨.gt, s + 1, ?_, ⟨hlt, rfl⟩, ?_, rfl⟩
        · simp only [read_succ hd]
          have hne : cs.head?.getD 0 ≠ 62 := by
            cases cs with
            | nil => decide
            | cons d ds => exact fun h => hh (congrArg some h)
          exact if_neg hne
        · rw [if_neg (fun h => hh h.2), hcs]
          rfl
    · refine ⟨symbolKind c, s + 1, ?_, ⟨hlt, rfl⟩, ?_, ?_⟩
      · obtain ⟨hsingle, hcode, -⟩ := symbol_single hsym h62
        rw [if_pos hsingle, hcode]
      · rw [if_neg (fun h => h62 h.1), hcs]
      · exact (symbol_single hsym h62).2.2
  · rw [if_neg hsym, if_neg hsym]
    have hword : wordChar c := by
      unfold wordChar
      rw [hw, eq_false_of_ne_true hsym]
      rfl
    have hscan := scan_eq wordChar (Nat.le_of_lt hlt)
    have hdrop := @drop_scan t s wordChar
    have hle := scan_le wordChar (Nat.le_of_lt hlt)
    rw [hd, List.takeWhile_cons_of_pos hword, List.length_cons, Nat.add_comm _ 1,
      ← Nat.add_assoc] at hscan hdrop hle
    rw [List.dropWhile_cons_of_pos hword] at hdrop
    refine ⟨.word, _, ?_, ⟨hle, rfl⟩, ?_, rfl⟩
    · rw [if_neg (not_single hsym), if_neg (ne_gt_of_not_symbol hsym)]
      change (scan t wordChar s >>= fun s => Except.ok (97, s)) = _
      rw [hscan]
      rfl
    · rw [hdrop]

end character

variable {ks : List Token}

theorem gettoken_end (h : At t s []) : ∃ q eq s', gettoken t s = .ok (0, q, eq, s') ∧
    At t s' [] := by
  have hend : t.skip s = t.len := by
    rcases skip_cases h.le with he | ⟨c, cs, hd, hw⟩
    · exact he
    · obtain ⟨k, e, -, -, htok, -⟩ := tokenAt_drop hd hw
      cases htok.symm.trans h.skip.tokens
  have hskip := h.skip
  rw [hend] at hskip
  have hscan : scan t (strchr whitespace) s = .ok t.len :=
    (scan_eq _ h.le).trans (congrArg Except.ok hend)
  refine ⟨t.len, t.len, t.skip t.len, ?_, hskip.skip⟩
  unfold gettoken tokenAt
  rw [hscan]
  change (read t t.len >>= _) >>= _ = _
  rw [read_len]
  change (scan t (strchr whitespace) t.len >>= _) = _
  rw [scan_eq _ (Nat.le_refl _)]
  rfl

theorem gettoken_cons {k : Token} (h : At t s (k :: ks)) :
    ∃ s', gettoken t s = .ok (k.kind.code, k.q, k.eq, s') ∧ At t s' ks := by
  rcases skip_cases h.le with he | ⟨c, cs, hd, hw⟩
  · have := h.skip.tokens
    rw [he, tokensFrom_len] at this
    cases this
  · obtain ⟨kind, e, htok, hat, hcons, -⟩ := tokenAt_drop hd hw
    obtain ⟨rfl, rfl⟩ := List.cons.inj (hcons.symm.trans h.skip.tokens)
    refine ⟨t.skip e, ?_, hat.skip⟩
    unfold gettoken
    rw [scan_eq _ h.le]
    change tokenAt t (t.skip s) >>= _ = _
    rw [htok]
    change scan t (strchr whitespace) e >>= _ = _
    rw [scan_eq _ hat.le]
    rfl

/-- The next token starts with one of `toks`. -/
def heads (toks : List UInt8) : List Token → Bool
  | [] => false
  | k :: _ => k.kind.begins toks

theorem peek_at (toks : List UInt8) (htoks : toks ⊆ symbols) (h : At t s ks) :
    ∃ s', peek t s toks = .ok (heads toks ks, s') ∧ At t s' ks ∧ (ks = [] ↔ s' = t.len) := by
  refine ⟨t.skip s, ?_, h.skip, ?_⟩
  · unfold peek
    rw [scan_eq _ h.le]
    change read t (t.skip s) >>= _ = _
    rcases skip_cases h.le with he | ⟨c, cs, hd, hw⟩
    · have hnil := h.skip.tokens
      rw [he, tokensFrom_len] at hnil
      rw [← hnil, he, read_len, ← he]
      rfl
    · obtain ⟨kind, e, -, -, hcons, hfirst⟩ := tokenAt_drop hd hw
      rw [← h.skip.tokens, hcons, read_drop hd]
      change Except.ok (decide (c ≠ 0) && strchr toks c, t.skip s) =
        .ok (kind.first.any (strchr toks), _)
      rw [decide_eq_true (drop_ne_zero hd), Bool.true_and, hfirst]
      split
      · rfl
      · rename_i hsym
        have : strchr toks c = false := by
          refine eq_false_of_ne_true fun hc => hsym ?_
          exact List.contains_iff_mem.mpr (htoks (List.contains_iff_mem.mp hc))
        rw [this]
        rfl
  · rcases skip_cases h.le with he | ⟨c, cs, hd, hw⟩
    · have hnil := h.skip.tokens
      rw [he, tokensFrom_len] at hnil
      exact iff_of_true hnil.symm he
    · obtain ⟨kind, e, -, -, hcons, -⟩ := tokenAt_drop hd hw
      have hlt := lt_of_drop_cons hd
      refine iff_of_false ?_ (Nat.ne_of_lt hlt)
      rw [← h.skip.tokens, hcons]
      exact List.cons_ne_nil _ _

end

end Xv6.Shell
