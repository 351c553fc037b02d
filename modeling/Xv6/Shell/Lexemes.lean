import Xv6.Shell.Parser
import Mathlib.Data.List.Nodup
import Mathlib.Data.List.TakeWhile

/-! # Termination in place

`nulterminate` writes a NUL over the character behind each word of the command. No word has such a
character, since a word is followed by white space, a symbol or the end of the line: so every string
of the command, read from the buffer up to its NUL, is its token.
-/

namespace Xv6.Shell

open Lib

def cstring (buf : Nat → UInt8) : Nat → Nat → Option (List UInt8)
  | 0, _ => none
  | n + 1, p => if buf p = 0 then some [] else (cstring buf n (p + 1)).map (buf p :: ·)

/-- The characters of a token. -/
def Text.lexeme (t : Text) (k : Token) : List UInt8 := (t.chars.drop k.q).take (k.eq - k.q)

/-- The strings of a command with their ends: `argv` and `eargv` of its simple commands, `file` and
`efile` of its redirections. -/
def Cmd.strings : Cmd → List (Nat × Nat)
  | .exec argv => argv
  | .redir cmd r => cmd.strings ++ [(r.file, r.efile)]
  | .pipe left right | .list left right => left.strings ++ right.strings
  | .back cmd => cmd.strings

/-! ## The nodes of a command -/

/-- The pointers of a node to its children. -/
inductive Branch where
  | cmd
  | left
  | right
deriving DecidableEq

/-- The node at the end of a path. -/
def Cmd.node : Cmd → List Branch → Option Cmd
  | cmd, [] => some cmd
  | .redir cmd _, .cmd :: path | .back cmd, .cmd :: path => cmd.node path
  | .pipe left _, .left :: path | .list left _, .left :: path => left.node path
  | .pipe _ right, .right :: path | .list _ right, .right :: path => right.node path
  | _, _ :: _ => none

/-- `nulterminate` that records the nodes it is called for, as paths from the root. -/
def nulterminateVisits (t : Text) (buf : Nat → UInt8) :
    Cmd → Except Stop (List (List Branch) × (Nat → UInt8))
  | .exec argv => do
    let buf ← argv.foldlM (fun buf a => terminate t buf a.2) buf
    .ok ([[]], buf)
  | .redir cmd r => do
    let (visits, buf) ← nulterminateVisits t buf cmd
    let buf ← terminate t buf r.efile
    .ok ([] :: visits.map (.cmd :: ·), buf)
  | .pipe left right | .list left right => do
    let (visits, buf) ← nulterminateVisits t buf left
    let (visits', buf) ← nulterminateVisits t buf right
    .ok ([] :: (visits.map (.left :: ·) ++ visits'.map (.right :: ·)), buf)
  | .back cmd => do
    let (visits, buf) ← nulterminateVisits t buf cmd
    .ok ([] :: visits.map (.cmd :: ·), buf)

def Cmd.nodes : Cmd → List (List Branch)
  | .exec _ => [[]]
  | .redir cmd _ | .back cmd => [] :: cmd.nodes.map (.cmd :: ·)
  | .pipe left right | .list left right =>
    [] :: (left.nodes.map (.left :: ·) ++ right.nodes.map (.right :: ·))

section

variable {t : Text} {cmd left right : Cmd}

theorem nulterminateVisits_eq (buf : Nat → UInt8) (cmd : Cmd) :
    nulterminateVisits t buf cmd = (nulterminate t buf cmd).map fun buf => (cmd.nodes, buf) := by
  have hpair : ∀ {buf : Nat → UInt8} {left right : Cmd},
      (∀ buf, nulterminateVisits t buf left =
        (nulterminate t buf left).map fun buf => (left.nodes, buf)) →
      (∀ buf, nulterminateVisits t buf right =
        (nulterminate t buf right).map fun buf => (right.nodes, buf)) →
      (nulterminateVisits t buf left >>= fun x => nulterminateVisits t x.2 right >>= fun y =>
        Except.ok ([] :: (x.1.map (Branch.left :: ·) ++ y.1.map (Branch.right :: ·)), y.2)) =
      (nulterminate t buf left >>= fun buf => nulterminate t buf right).map fun buf =>
        ([] :: (left.nodes.map (Branch.left :: ·) ++ right.nodes.map (Branch.right :: ·)),
            buf) := by
    intro buf left right hl hr
    rw [hl]
    cases nulterminate t buf left with
    | error e => rfl
    | ok mid =>
      change (nulterminateVisits t mid right >>= _) = (nulterminate t mid right).map _
      rw [hr]
      cases nulterminate t mid right with
      | error e => rfl
      | ok buf' => rfl
  induction cmd generalizing buf with
  | exec argv =>
    unfold nulterminateVisits nulterminate
    cases argv.foldlM (fun buf a => terminate t buf a.2) buf with
    | error e => rfl
    | ok buf' => rfl
  | redir cmd r ih =>
    unfold nulterminateVisits nulterminate
    rw [ih]
    cases nulterminate t buf cmd with
    | error e => rfl
    | ok mid =>
      change (terminate t mid r.efile >>= _) = (terminate t mid r.efile).map _
      cases terminate t mid r.efile with
      | error e => rfl
      | ok buf' => rfl
  | pipe left right ihl ihr => exact hpair ihl ihr
  | list left right ihl ihr => exact hpair ihl ihr
  | back cmd ih =>
    unfold nulterminateVisits nulterminate
    rw [ih]
    cases nulterminate t buf cmd with
    | error e => rfl
    | ok buf' => rfl

theorem nodup_branch (b : Branch) {paths : List (List Branch)} (h : paths.Nodup) :
    (paths.map (b :: ·)).Nodup :=
  h.map fun _ _ heq => (List.cons.inj heq).2

theorem nodup_children {lefts rights : List (List Branch)} (hl : lefts.Nodup) (hr : rights.Nodup) :
    ([] :: (lefts.map (Branch.left :: ·) ++ rights.map (Branch.right :: ·))).Nodup := by
  refine List.nodup_cons.mpr ⟨by simp, ?_⟩
  refine List.nodup_append.mpr ⟨nodup_branch _ hl, nodup_branch _ hr, ?_⟩
  intro a ha b hb heq
  obtain ⟨x, -, rfl⟩ := List.mem_map.mp ha
  obtain ⟨y, -, rfl⟩ := List.mem_map.mp hb
  cases heq

theorem Cmd.nodes_nodup (cmd : Cmd) : cmd.nodes.Nodup := by
  induction cmd with
  | exec argv => exact List.nodup_singleton _
  | redir cmd r ih => exact List.nodup_cons.mpr ⟨by simp, nodup_branch _ ih⟩
  | pipe left right ihl ihr => exact nodup_children ihl ihr
  | list left right ihl ihr => exact nodup_children ihl ihr
  | back cmd ih => exact List.nodup_cons.mpr ⟨by simp, nodup_branch _ ih⟩

theorem Cmd.mem_nodes (cmd : Cmd) (path : List Branch) :
    path ∈ cmd.nodes ↔ (cmd.node path).isSome := by
  induction cmd generalizing path with
  | exec argv => cases path <;> simp [Cmd.nodes, Cmd.node]
  | redir cmd r ih => rcases path with _ | ⟨_ | _ | _, path⟩ <;> simp [Cmd.nodes, Cmd.node, ih]
  | pipe left right ihl ihr =>
    rcases path with _ | ⟨_ | _ | _, path⟩ <;> simp [Cmd.nodes, Cmd.node, ihl, ihr]
  | list left right ihl ihr =>
    rcases path with _ | ⟨_ | _ | _, path⟩ <;> simp [Cmd.nodes, Cmd.node, ihl, ihr]
  | back cmd ih => rcases path with _ | ⟨_ | _ | _, path⟩ <;> simp [Cmd.nodes, Cmd.node, ih]

/-! ## What is cut -/

/-- `nulterminate` writes a NUL at the end of each string of the command and nothing else. -/
theorem nulterminate_cuts {E : Stop → Prop} {cmd : Cmd} (h : cmd.Within t.len) (buf : Nat → UInt8) :
    Post E (fun buf' => ∀ i, buf' i = if i ∈ cmd.strings.map Prod.snd then 0 else buf i)
    (nulterminate t buf cmd) := by
  have hcut : ∀ (buf : Nat → UInt8) {p : Nat}, p ≤ t.len →
      Post E (fun buf' => ∀ i, buf' i = if i = p then 0 else buf i) (terminate t buf p) := by
    intro buf p hp
    unfold terminate
    rw [if_pos hp]
    exact .ok fun i => Function.update_apply buf p 0 i
  have hseq : ∀ {buf mid last : Nat → UInt8} {xs ys : List Nat},
      (∀ i, mid i = if i ∈ xs then 0 else buf i) →
      (∀ i, last i = if i ∈ ys then 0 else mid i) → ∀ i, last i = if i ∈
          xs ++ ys then 0 else buf i := by
    intro buf mid last xs ys hmid hlast i
    rw [hlast, hmid]
    simp only [List.mem_append]
    by_cases hx : i ∈ xs <;> by_cases hy : i ∈ ys <;> simp [hx, hy]
  induction cmd generalizing buf with
  | exec argv =>
    unfold nulterminate Cmd.strings
    induction argv generalizing buf with
    | nil => exact .ok fun i => (if_neg List.not_mem_nil).symm
    | cons a argv ih =>
      obtain ⟨ha, hargv⟩ := List.forall_mem_cons.mp h
      rw [List.foldlM_cons]
      refine (hcut buf ha).bind fun mid hmid => (ih hargv mid).imp fun last hlast => ?_
      exact @hseq _ _ _ [a.2] _ (fun i => by simpa using hmid i) hlast
  | redir cmd r ih =>
    refine (ih h.1 buf).bind fun mid hmid => (hcut mid h.2).imp fun last hlast => ?_
    simp only [Cmd.strings, List.map_append, List.map_cons, List.map_nil]
    exact hseq hmid fun i => by simpa using hlast i
  | pipe left right ihl ihr =>
    simp only [Cmd.strings, List.map_append]
    exact (ihl h.1 buf).bind fun mid hmid => (ihr h.2 mid).imp fun last hlast => hseq hmid hlast
  | list left right ihl ihr =>
    simp only [Cmd.strings, List.map_append]
    exact (ihl h.1 buf).bind fun mid hmid => (ihr h.2 mid).imp fun last hlast => hseq hmid hlast
  | back cmd ih => exact ih h buf

/-! ## Where the words are -/

/-- A token of the kind `word` consists of characters of words, and the character behind it is
none. -/
structure IsWord (chars : List UInt8) (k : Token) : Prop where
  le : k.q ≤ k.eq
  inside : ∀ j, k.q ≤ j → j < k.eq → ∃ c, chars[j]? = some c ∧ wordChar c = true
  behind : ∀ c, chars[k.eq]? = some c → wordChar c = false

theorem symbolKind_ne_word (c : UInt8) : symbolKind c ≠ .word := by
  unfold symbolKind
  split_ifs <;> decide

theorem isWord_run {chars cs : List UInt8} {i : Nat} {c : UInt8} (hd : chars.drop i = c :: cs)
    (hc : wordChar c = true) : IsWord chars ⟨.word, i, i + 1 + (cs.takeWhile wordChar).length⟩ := by
  have hsplit : chars.drop i = (c :: cs.takeWhile wordChar) ++ cs.dropWhile wordChar := by
    rw [hd, List.cons_append, List.takeWhile_append_dropWhile]
  have hget : ∀ j, chars[i + j]? = ((c :: cs.takeWhile wordChar) ++ cs.dropWhile wordChar)[j]? :=
      fun j => by
    rw [← hsplit, List.getElem?_drop]
  constructor
  · dsimp only
    omega
  · intro j hge hlt
    dsimp only at hge hlt
    obtain ⟨n, rfl⟩ := Nat.exists_eq_add_of_le hge
    have hn : n < (c :: cs.takeWhile wordChar).length := by
      rw [List.length_cons]
      omega
    refine ⟨_, (hget n).trans ((List.getElem?_append_left hn).trans (List.getElem?_eq_getElem hn)),
      ?_⟩
    rcases List.mem_cons.mp (List.getElem_mem hn) with heq | hmem
    · rw [heq]
      exact hc
    · exact List.mem_takeWhile_imp hmem
  · intro d hbehind
    dsimp only at hbehind
    rw [Nat.add_assoc, hget, List.getElem?_append_right (by rw [List.length_cons]; omega),
      List.length_cons, Nat.add_comm 1, Nat.sub_self, ← List.head?_eq_getElem?] at hbehind
    have hhead := List.head?_dropWhile_not wordChar cs
    rw [hbehind] at hhead
    simpa using hhead

theorem tokens_word {chars : List UInt8} (i : Nat) (cs : List UInt8) (hd : chars.drop i = cs) :
    ∀ k ∈ tokens i cs, k.kind = .word → IsWord chars k := by
  have hnext : ∀ {i : Nat} {c : UInt8} {cs : List UInt8} (n : Nat), chars.drop i = c :: cs →
      chars.drop (i + 1 + n) = cs.drop n := by
    intro i c cs n hd
    rw [← List.drop_drop, ← List.drop_drop, hd]
    rfl
  fun_induction tokens i cs with
  | case1 => exact fun k hk => by cases hk
  | case2 i c cs hw ih => exact ih (hnext 0 hd)
  | case3 i c cs hw hs ha ih =>
    intro k hk hkind
    rcases List.mem_cons.mp hk with rfl | hk
    · cases hkind
    · exact ih ((hnext 1 hd).trans List.drop_one) k hk hkind
  | case4 i c cs hw hs ha ih =>
    intro k hk hkind
    rcases List.mem_cons.mp hk with rfl | hk
    · exact absurd hkind (symbolKind_ne_word c)
    · exact ih (hnext 0 hd) k hk hkind
  | case5 i c cs hw hs ih =>
    intro k hk hkind
    rcases List.mem_cons.mp hk with rfl | hk
    · refine isWord_run hd ?_
      unfold wordChar
      simp [hw, hs]
    · exact ih ((hnext _ hd).trans (drop_takeWhile wordChar cs)) k hk hkind

theorem Cmd.strings_wrap (cmd : Cmd) (rs : List Redir) :
    (cmd.wrap rs).strings = cmd.strings ++ rs.map fun r => (r.file, r.efile) := by
  induction rs generalizing cmd with
  | nil => exact (List.append_nil _).symm
  | cons r rs ih =>
    change ((Cmd.redir cmd r).wrap rs).strings = _
    rw [ih, Cmd.strings, List.append_assoc]
    rfl

theorem Cmd.strings_back (cmd : Cmd) (n : Nat) : (Cmd.back^[n] cmd).strings = cmd.strings := by
  induction n with
  | zero => rfl
  | succ n ih =>
    rw [Function.iterate_succ_apply', Cmd.strings]
    exact ih

/-- The token is a word, and `x` points to it. -/
def Token.Names (k : Token) (x : Nat × Nat) : Prop := k.kind = .word ∧ x = (k.q, k.eq)

theorem Redirection.names (r : Redirection) : r.file.1.Names (r.redir.file, r.redir.efile) :=
  ⟨r.file.2, rfl⟩

theorem names_redirs {rs : List Redirection} {x : Nat × Nat}
    (hx : x ∈ (rs.map Redirection.redir).map fun r => (r.file, r.efile)) :
    ∃ k ∈ rs.flatMap Redirection.yield, k.Names x := by
  rw [List.map_map] at hx
  obtain ⟨r, hr, rfl⟩ := List.mem_map.mp hx
  exact ⟨r.file.1, List.mem_flatMap.mpr ⟨r, hr, List.mem_cons_of_mem _ List.mem_cons_self⟩, r.names⟩

theorem Tree.strings_words {n : Nonterminal} (d : Tree n) :
    ∀ x ∈ d.cmd.strings, ∃ k ∈ d.yield, k.Names x := by
  induction d with
  | line p amps ih =>
    intro x hx
    rw [Tree.cmd, Cmd.strings_back] at hx
    obtain ⟨k, hk, hnames⟩ := ih x hx
    exact ⟨k, List.mem_append_left _ hk, hnames⟩
  | list p amps semi l ihp ihl =>
    intro x hx
    rw [Tree.cmd, Cmd.strings, Cmd.strings_back] at hx
    rcases List.mem_append.mp hx with hx | hx
    · obtain ⟨k, hk, hnames⟩ := ihp x hx
      exact ⟨k, List.mem_append_left _ hk, hnames⟩
    · obtain ⟨k, hk, hnames⟩ := ihl x hx
      exact ⟨k, List.mem_append_right _ (List.mem_append_right _ (List.mem_cons_of_mem _ hk)),
        hnames⟩
  | exec e ih => exact ih
  | pipe e bar p ihe ihp =>
    intro x hx
    rcases List.mem_append.mp hx with hx | hx
    · obtain ⟨k, hk, hnames⟩ := ihe x hx
      exact ⟨k, List.mem_append_left _ hk, hnames⟩
    · obtain ⟨k, hk, hnames⟩ := ihp x hx
      exact ⟨k, List.mem_append_right _ (List.mem_cons_of_mem _ hk), hnames⟩
  | block lparen l rparen rs ih =>
    intro x hx
    rw [Tree.cmd, Cmd.strings_wrap] at hx
    rcases List.mem_append.mp hx with hx | hx
    · obtain ⟨k, hk, hnames⟩ := ih x hx
      exact ⟨k, List.mem_cons_of_mem _ (List.mem_append_left _ hk), hnames⟩
    · obtain ⟨k, hk, hnames⟩ := names_redirs hx
      exact ⟨k, List.mem_cons_of_mem _ (List.mem_append_right _ (List.mem_cons_of_mem _ hk)),
        hnames⟩
  | simple rs ws =>
    intro x hx
    rw [Tree.cmd, Cmd.strings_wrap] at hx
    rcases List.mem_append.mp hx with hx | hx
    · obtain ⟨w, hw, rfl⟩ := List.mem_map.mp hx
      refine ⟨w.word.1, List.mem_append_right _ ?_, w.word.2, rfl⟩
      exact List.mem_flatMap.mpr ⟨w, hw, List.mem_cons_self⟩
    · obtain ⟨k, hk, hnames⟩ := names_redirs hx
      refine ⟨k, ?_, hnames⟩
      rw [List.flatMap_append] at hk
      rcases List.mem_append.mp hk with hk | hk
      · exact List.mem_append_left _ hk
      · obtain ⟨r, hr, hk⟩ := List.mem_flatMap.mp hk
        obtain ⟨w, hw, hr⟩ := List.mem_flatMap.mp hr
        refine List.mem_append_right _ (List.mem_flatMap.mpr ⟨w, hw, List.mem_cons_of_mem _ ?_⟩)
        exact List.mem_flatMap.mpr ⟨r, hr, hk⟩

/-! ## Reading a string -/

theorem cstring_eq {buf : Nat → UInt8} {cs : List UInt8} {p n : Nat} (hn : cs.length < n)
    (hin : ∀ j c, cs[j]? = some c → c ≠ 0 ∧ buf (p + j) = c) (hend : buf (p + cs.length) = 0) :
    cstring buf n p = some cs := by
  induction cs generalizing p n with
  | nil =>
    obtain ⟨n, rfl⟩ := Nat.exists_eq_succ_of_ne_zero (Nat.ne_of_gt hn)
    exact if_pos hend
  | cons c cs ih =>
    obtain ⟨n, rfl⟩ := Nat.exists_eq_succ_of_ne_zero
      (Nat.ne_of_gt (Nat.lt_of_le_of_lt (Nat.zero_le _) hn))
    obtain ⟨hne, hc⟩ := hin 0 c rfl
    rw [Nat.add_zero] at hc
    have hrest : cstring buf n (p + 1) = some cs := by
      refine ih (Nat.lt_of_succ_lt_succ hn) (fun j d hd => ?_) ?_
      · rw [Nat.add_assoc, Nat.add_comm 1]
        exact hin (j + 1) d hd
      · rw [Nat.add_assoc, Nat.add_comm 1]
        exact hend
    unfold cstring
    rw [hc, if_neg hne, hrest]
    rfl

theorem buffer_of_getElem? {i : Nat} {c : UInt8} (h : t.chars[i]? = some c) : t.buffer i = c := by
  unfold Text.buffer
  rw [List.getD_eq_getElem?_getD, h]
  rfl

theorem cstring_word {buf : Nat → UInt8} {k : Token} (hk : IsWord t.chars k) (hlen : k.eq ≤ t.len)
    (hcut : buf k.eq = 0) (hsame : ∀ i c, t.chars[i]? = some c → wordChar c = true → buf i = c) :
    cstring buf (t.len + 1 - k.q) k.q = some (t.lexeme k) := by
  have hle := hk.le
  have hlength : (t.lexeme k).length = k.eq - k.q := by
    unfold Text.lexeme
    rw [List.length_take, List.length_drop]
    unfold Text.len at hlen
    omega
  refine cstring_eq (by omega) (fun j c hc => ?_) ?_
  · have hj : j < k.eq - k.q := by
      rw [← hlength]
      exact (List.getElem?_eq_some_iff.mp hc).1
    unfold Text.lexeme at hc
    rw [List.getElem?_take_of_lt hj, List.getElem?_drop] at hc
    obtain ⟨d, hd, hword⟩ := hk.inside (k.q + j) (by omega) (by omega)
    obtain rfl := Option.some.inj (hc.symm.trans hd)
    exact ⟨t.nul_free c (List.mem_of_getElem? hc), hsame _ c hc hword⟩
  · rw [hlength, Nat.add_sub_cancel' hle]
    exact hcut

theorem parsecmd_buffer (t : Text) :
    Post (fun _ => True) (fun r => nulterminate t t.buffer r.1 = .ok r.2) (parsecmd t) := by
  unfold parsecmd
  refine (Post.any (fun _ => trivial) _).bind fun x _ =>
    (Post.any (fun _ => trivial) _).bind fun y _ => ?_
  refine Post.ite (fun _ => Post.error trivial) fun _ => ?_
  cases hend : nulterminate t t.buffer x.1 with
  | error e => exact .error trivial
  | ok buf => exact .ok hend

end

/-- After `parsecmd`, every `argv[i]` and every file of a redirection is the C string of a word of
the line, and `nulterminate` has been called for every node of the command, once. -/
theorem nulterminate_lexemes (t : Text) (cmd : Cmd) (buf : Nat → UInt8)
    (h : parsecmd t = .ok (cmd, buf)) :
    (∀ x ∈ cmd.strings, ∃ k ∈ t.tokens, k.Names x ∧ cstring buf (t.len + 1 - x.1) x.1 =
      some (t.lexeme k)) ∧
    ∃ visits, nulterminateVisits t t.buffer cmd = .ok (visits, buf) ∧ visits.Nodup ∧
      ∀ path, path ∈ visits ↔ (cmd.node path).isSome := by
  obtain ⟨d, hyield, -, rfl⟩ := (parsecmd_sound t).of_ok h
  have hbuf : nulterminate t t.buffer d.cmd = .ok buf := (parsecmd_buffer t).of_ok h
  have hlen : ∀ k ∈ t.tokens, k.eq ≤ t.len := fun k hk => by
    simpa [Text.len] using (tokens_bounds 0 t.chars k hk).2
  have hword : ∀ k ∈ t.tokens, k.kind = .word → IsWord t.chars k := tokens_word 0 t.chars rfl
  have hcuts := (nulterminate_cuts (E := fun _ => True)
    (d.cmd_within (hyield ▸ hlen)) t.buffer).of_ok hbuf
  -- no cut falls on a character of a word
  have hsame : ∀ i c, t.chars[i]? = some c → wordChar c = true → buf i = c := by
    intro i c hc hchar
    rw [hcuts, if_neg ?_]
    · exact buffer_of_getElem? hc
    · intro hmem
      obtain ⟨x, hx, rfl⟩ := List.mem_map.mp hmem
      obtain ⟨k, hk, hkind, rfl⟩ := d.strings_words x hx
      rw [hyield] at hk
      have hnot := (hword k hk hkind).behind c hc
      rw [hchar] at hnot
      cases hnot
  constructor
  · intro x hx
    obtain ⟨k, hk, hkind, rfl⟩ := d.strings_words x hx
    rw [hyield] at hk
    refine ⟨k, hk, ⟨hkind, rfl⟩, cstring_word (hword k hk hkind) (hlen k hk) ?_ hsame⟩
    rw [hcuts, if_pos (List.mem_map.mpr ⟨_, hx, rfl⟩)]
  · refine ⟨d.cmd.nodes, ?_, d.cmd.nodes_nodup, d.cmd.mem_nodes⟩
    rw [nulterminateVisits_eq, hbuf]
    rfl

/-- The line `a>b|c<d`. -/
def adjacent : Text := ⟨[97, 62, 98, 124, 99, 60, 100], by simp⟩

theorem nulterminate_lexemes_adjacent : ∃ cmd buf, parsecmd adjacent = .ok (cmd, buf) ∧
    cmd.strings = [(0, 1), (2, 3), (4, 5), (6, 7)] ∧
    ∀ x ∈ cmd.strings, ∃ k ∈ adjacent.tokens, k.Names x ∧ cstring buf (8 - x.1) x.1 =
    some (adjacent.lexeme k) := by
  have hrun : (parsecmd adjacent).toOption.map (fun r => r.1.strings) =
      some [(0, 1), (2, 3), (4, 5), (6, 7)] := by
    decide +kernel
  obtain ⟨⟨cmd, buf⟩, hok, hstrings⟩ := Option.map_eq_some_iff.mp hrun
  have hcmd : parsecmd adjacent = .ok (cmd, buf) := eq_ok_of_toOption hok
  exact ⟨cmd, buf, hcmd, hstrings, (nulterminate_lexemes adjacent cmd buf hcmd).1⟩

end Xv6.Shell
