import Mathlib.Computability.Language

/-! # grep's matcher

`match`, `matchhere` and `matchstar` of user/grep.c, and the language that a pattern
denotes.  A C string is the list of its characters; the terminating NUL is the end of the
list.
-/

namespace Xv6.Grep

open scoped Computability

def hat : UInt8 := 94

def star : UInt8 := 42

def dollar : UInt8 := 36

def dot : UInt8 := 46

/-- `matchstar(c, re, text)`, with `here` for `matchhere(re, ·)`. -/
def matchstar (here : List UInt8 → Bool) (c : UInt8) : List UInt8 → Bool
  | [] => here []
  | t :: text => here (t :: text) || ((t == c || c == dot) && matchstar here c text)

/-- The last test of `matchhere`: one character of the text against `re[0]`, then the
rest, with `here` for `matchhere(re + 1, ·)`. -/
def matchchar (here : List UInt8 → Bool) (c : UInt8) : List UInt8 → Bool
  | [] => false
  | t :: text => (c == dot || c == t) && here text

/-- `matchhere(re, text)`: a match of `re` at the start of `text`. -/
def matchhere : List UInt8 → List UInt8 → Bool
  | [], _ => true
  | [c], text => if c = dollar then text.isEmpty else matchchar (matchhere []) c text
  | c :: d :: re, text =>
    if d = star then matchstar (matchhere re) c text
    else matchchar (matchhere (d :: re)) c text

/-- The loop of `match`: a match at the start of some suffix, the empty one included. -/
def matchsuffix (here : List UInt8 → Bool) : List UInt8 → Bool
  | [] => here []
  | t :: text => here (t :: text) || matchsuffix here text

def matchre (re text : List UInt8) : Bool :=
  if re.head? = some hat then matchhere re.tail text else matchsuffix (matchhere re) text

/-! ## What a pattern denotes -/

/-- The character `c` in a pattern: itself, or any character for a dot. -/
def atom (c : UInt8) : Language UInt8 := {w | ∃ t, w = [t] ∧ (c = dot ∨ c = t)}

/-- A character of the pattern, alone or followed by a star. -/
inductive Item
  | one (c : UInt8)
  | many (c : UInt8)
  deriving DecidableEq, Repr

def Item.language : Item → Language UInt8
  | .one c => atom c
  | .many c => (atom c)∗

/-- A pattern: whether it is anchored at the start and at the end of the text, and the
items between. -/
structure Regex where
  start : Bool
  items : List Item
  finish : Bool
  deriving DecidableEq, Repr

/-- The items from left to right: a star belongs to the character before it, unless that
character is a star that belongs to an item already. -/
def readItems : List UInt8 → List Item
  | [] => []
  | [c] => [.one c]
  | c :: d :: re => if d = star then .many c :: readItems re else .one c :: readItems (d :: re)

/-- Whether a pattern ends in a dollar.  Nothing follows it there, so no star does. -/
def finishes (re : List UInt8) : Bool := re.getLast? = some dollar

def stem (re : List UInt8) : List UInt8 := if finishes re then re.dropLast else re

def body (re : List UInt8) : List UInt8 := if re.head? = some hat then re.tail else re

def Regex.read (re : List UInt8) : Regex where
  start := re.head? = some hat
  items := readItems (stem (body re))
  finish := finishes (body re)

/-- The strings that a sequence of items denotes. -/
def language (items : List Item) : Language UInt8 := (items.map Item.language).prod

/-- The text has a substring that the items denote, at its start and at its end where the
pattern is anchored. -/
def Regex.Matches (r : Regex) (text : List UInt8) : Prop :=
  ∃ pre mid post, text = pre ++ mid ++ post ∧ mid ∈ language r.items ∧
    (r.start = true → pre = []) ∧ (r.finish = true → post = [])

/-- A starred star, a starred dollar and a star that follows the hat. -/
example : readItems [star, star] = [.many star] ∧ Regex.read [dollar, star] =
    ⟨false, [.many dollar], false⟩ ∧
    Regex.read [hat, star, 97, dollar] = ⟨true, [.one star, .one 97], true⟩ := by decide

/-! ## The parts of a pattern -/

theorem finishes_cons {c : UInt8} {re : List UInt8} (h : re ≠ [] ∨ c ≠ dollar) :
    finishes (c :: re) = finishes re := by
  unfold finishes
  rcases re with _ | ⟨d, re⟩
  · simpa using h
  · rw [List.getLast?_cons_cons]

theorem stem_cons {c : UInt8} {re : List UInt8} (h : re ≠ [] ∨ c ≠ dollar) :
    stem (c :: re) = c :: stem re := by
  have hfin := finishes_cons h
  unfold stem
  rw [hfin]
  rcases re with _ | ⟨d, re⟩
  · rfl
  · split <;> rfl

theorem head?_stem_cons {d : UInt8} {re : List UInt8} (hd : d ≠ star) :
    (stem (d :: re)).head? ≠ some star := by
  by_cases h : re ≠ [] ∨ d ≠ dollar
  · rw [stem_cons h, List.head?_cons]
    exact fun heq => hd (Option.some.inj heq)
  · obtain ⟨hre, hdollar⟩ := not_or.mp h
    rw [not_not.mp hre, not_not.mp hdollar]
    decide

theorem readItems_one {c : UInt8} {re : List UInt8} (h : re.head? ≠ some star) :
    readItems (c :: re) = .one c :: readItems re := by
  rcases re with _ | ⟨d, re⟩
  · rfl
  · exact if_neg fun hd => h (congrArg some hd)

theorem readItems_many (c : UInt8) (re : List UInt8) :
    readItems (c :: star :: re) = .many c :: readItems re :=
  if_pos rfl

theorem language_cons (i : Item) (items : List Item) :
    language (i :: items) = i.language * language items := by
  unfold language
  rw [List.map_cons, List.prod_cons]

/-! ## The loops -/

theorem mem_kstar_atom {c : UInt8} {w : List UInt8} : w ∈ (atom c)∗ ↔ ∀ t ∈ w, c = dot ∨ c = t := by
  rw [Language.mem_kstar]
  constructor
  · rintro ⟨L, rfl, hL⟩ t ht
    obtain ⟨y, hy, hty⟩ := List.mem_flatten.mp ht
    obtain ⟨t', rfl, ht'⟩ := hL y hy
    rw [List.mem_singleton.mp hty]
    exact ht'
  · intro hall
    refine ⟨w.map fun t => [t], ?_, ?_⟩
    · exact (List.flatMap_singleton' w).symm
    · intro y hy
      obtain ⟨t, ht, rfl⟩ := List.mem_map.mp hy
      exact ⟨t, rfl, hall t ht⟩

theorem eq_or_dot {c t : UInt8} : (t == c || c == dot) = true ↔ c = dot ∨ c = t := by
  rw [Bool.or_eq_true, beq_iff_eq, beq_iff_eq, or_comm, eq_comm (a := t)]

theorem matchstar_iff {here : List UInt8 → Bool} {c : UInt8} {text : List UInt8} :
    matchstar here c text = true ↔ ∃ u v, text = u ++ v ∧ u ∈ (atom c)∗ ∧ here v = true := by
  induction text with
  | nil =>
    constructor
    · intro h
      exact ⟨[], [], rfl, Language.nil_mem_kstar _, h⟩
    · rintro ⟨u, v, huv, -, hv⟩
      obtain ⟨rfl, rfl⟩ := List.append_eq_nil_iff.mp huv.symm
      exact hv
  | cons t text ih =>
    unfold matchstar
    rw [Bool.or_eq_true, Bool.and_eq_true, ih]
    constructor
    · rintro (hhere | ⟨hc, u, v, rfl, hu, hv⟩)
      · exact ⟨[], t :: text, rfl, Language.nil_mem_kstar _, hhere⟩
      · refine ⟨t :: u, v, rfl, ?_, hv⟩
        rw [mem_kstar_atom] at hu ⊢
        exact List.forall_mem_cons.mpr ⟨eq_or_dot.mp hc, hu⟩
    · rintro ⟨u, v, huv, hu, hv⟩
      rcases u with _ | ⟨t', u⟩
      · left
        rw [huv]
        exact hv
      · right
        obtain ⟨rfl, rfl⟩ := List.cons.inj huv
        rw [mem_kstar_atom] at hu
        obtain ⟨hc, hu⟩ := List.forall_mem_cons.mp hu
        exact ⟨eq_or_dot.mpr hc, u, v, rfl, mem_kstar_atom.mpr hu, hv⟩

theorem matchchar_iff {here : List UInt8 → Bool} {c : UInt8} {text : List UInt8} :
    matchchar here c text = true ↔ ∃ u v, text = u ++ v ∧ u ∈ atom c ∧ here v = true := by
  constructor
  · intro h
    rcases text with _ | ⟨t, text⟩
    · cases h
    · unfold matchchar at h
      rw [Bool.and_eq_true] at h
      exact ⟨[t], text, rfl, ⟨t, rfl, by simpa using h.1⟩, h.2⟩
  · rintro ⟨-, v, rfl, ⟨t, rfl, hc⟩, hv⟩
    simp [matchchar, hc, hv]

theorem matchsuffix_iff {here : List UInt8 → Bool} {text : List UInt8} :
    matchsuffix here text = true ↔ ∃ u v, text = u ++ v ∧ here v = true := by
  induction text with
  | nil =>
    constructor
    · intro h
      exact ⟨[], [], rfl, h⟩
    · rintro ⟨u, v, huv, hv⟩
      obtain ⟨rfl, rfl⟩ := List.append_eq_nil_iff.mp huv.symm
      exact hv
  | cons t text ih =>
    unfold matchsuffix
    rw [Bool.or_eq_true, ih]
    constructor
    · rintro (hhere | ⟨u, v, rfl, hv⟩)
      · exact ⟨[], t :: text, rfl, hhere⟩
      · exact ⟨t :: u, v, rfl, hv⟩
    · rintro ⟨u, v, huv, hv⟩
      rcases u with _ | ⟨t', u⟩
      · left
        rw [huv]
        exact hv
      · obtain ⟨rfl, rfl⟩ := List.cons.inj huv
        exact .inr ⟨u, v, rfl, hv⟩

/-! ## The language of a pattern -/

/-- `text` starts with a string of `l`, and with nothing behind it if `fin`. -/
def Begins (l : Language UInt8) (fin : Bool) (text : List UInt8) : Prop :=
  ∃ u v, text = u ++ v ∧ u ∈ l ∧ (fin = true → v = [])

theorem begins_mul {l m : Language UInt8} {fin : Bool} {text : List UInt8} :
    Begins (l * m) fin text ↔ ∃ u v, text = u ++ v ∧ u ∈ l ∧ Begins m fin v := by
  constructor
  · rintro ⟨-, w, rfl, ⟨u, hu, v, hv, rfl⟩, hfin⟩
    exact ⟨u, v ++ w, List.append_assoc u v w, hu, v, w, rfl, hv, hfin⟩
  · rintro ⟨u, -, rfl, hu, v, w, rfl, hv, hfin⟩
    exact ⟨u ++ v, w, (List.append_assoc u v w).symm, Language.mem_mul.mpr ⟨u, hu, v, hv, rfl⟩,
      hfin⟩

theorem begins_one {fin : Bool} {text : List UInt8} :
    Begins 1 fin text ↔ (fin = true → text = []) := by
  constructor
  · rintro ⟨u, v, rfl, hu, hfin⟩
    rw [(Language.mem_one u).mp hu]
    exact hfin
  · intro hfin
    exact ⟨[], text, rfl, Language.nil_mem_one, hfin⟩

-- The induction follows the pattern as it is read, one character or one character with
-- its star at a time.
theorem matchhere_iff (re text : List UInt8) :
    matchhere re text = true ↔ Begins (language (readItems (stem re))) (finishes re) text := by
  induction re using readItems.induct generalizing text with
  | case1 => exact iff_of_true rfl (begins_one.mpr fun h => absurd h (by decide))
  | case2 c =>
    by_cases hc : c = dollar
    · subst hc
      rw [show matchhere [dollar] text = text.isEmpty from if_pos rfl, List.isEmpty_iff]
      exact (begins_one.trans (forall_prop_of_true (by decide))).symm
    · rw [show matchhere [c] text = matchchar (matchhere []) c text from if_neg hc, matchchar_iff,
        stem_cons (.inr hc), finishes_cons (.inr hc), readItems_one (by decide),
        language_cons, begins_mul]
      have hrest : ∀ v, matchhere [] v = true ↔ Begins (language (readItems (stem [])))
          (finishes []) v :=
        fun v => iff_of_true rfl (begins_one.mpr fun h => absurd h (by decide))
      simp only [hrest, Item.language]
  | case3 c re ih =>
    rw [show matchhere (c :: star :: re) text = matchstar (matchhere re) c text from if_pos rfl,
      matchstar_iff,
      stem_cons (.inl (List.cons_ne_nil _ _)), finishes_cons (.inl (List.cons_ne_nil _ _)),
      stem_cons (.inr (by decide)), finishes_cons (.inr (by decide)), readItems_many,
      language_cons, begins_mul]
    simp only [ih, Item.language]
  | case4 c d re hd ih =>
    rw [show matchhere (c :: d :: re) text = matchchar (matchhere (d :: re)) c text from if_neg hd,
      matchchar_iff,
      stem_cons (.inl (List.cons_ne_nil _ _)), finishes_cons (.inl (List.cons_ne_nil _ _)),
      readItems_one (head?_stem_cons hd), language_cons, begins_mul]
    simp only [ih, Item.language]

/-- `match` returns 1 exactly on the texts that the pattern matches: those with a
substring in the language of its items, at the start after a leading hat and at the end
before a final dollar. -/
theorem matchre_iff_matches (re text : List UInt8) :
    matchre re text = true ↔ (Regex.read re).Matches text := by
  unfold matchre Regex.read Regex.Matches body
  by_cases hhat : re.head? = some hat
  · simp only [if_pos hhat]
    rw [matchhere_iff]
    constructor
    · rintro ⟨u, v, rfl, hu, hfin⟩
      exact ⟨[], u, v, rfl, hu, fun _ => rfl, hfin⟩
    · rintro ⟨pre, mid, post, rfl, hmid, hstart, hfin⟩
      rw [hstart (decide_eq_true hhat)]
      exact ⟨mid, post, rfl, hmid, hfin⟩
  · simp only [if_neg hhat]
    rw [matchsuffix_iff]
    constructor
    · rintro ⟨pre, v, rfl, hv⟩
      obtain ⟨mid, post, rfl, hmid, hfin⟩ := (matchhere_iff re v).mp hv
      exact ⟨pre, mid, post, (List.append_assoc pre mid post).symm, hmid,
        fun h => absurd (of_decide_eq_true h) hhat, hfin⟩
    · rintro ⟨pre, mid, post, rfl, hmid, -, hfin⟩
      exact ⟨pre, mid ++ post, List.append_assoc pre mid post,
        (matchhere_iff re _).mpr ⟨mid, post, rfl, hmid, hfin⟩⟩

end Xv6.Grep
