import Xv6.Fs.ShortWrite
import Xv6.Lib.SlotMap
import Xv6.Names.Model

/-! # A directory as a table of slots

The contents of a directory are entries of `direntSize` bytes. An entry with inode number 0 is a
free slot; another one binds the key of its name. The loops of `dirlookup`, `dirlink` and
`isdirempty` over the entries are searches in that table, and `writei` of an entry writes one of its
slots.
-/

namespace Xv6.Names

open Lib Kernel

/-- The slot that the bytes of an entry stand for. -/
def slotOf (bs : List UInt8) : Option (List UInt8 × Nat) :=
  if (getDirent bs).inum = 0 then none else some (key (getDirent bs).name, (getDirent bs).inum)

/-- Entry `j` of the contents of a directory. -/
def entryAt (cs : List UInt8) (j : Nat) : List UInt8 := Fs.readRange cs (direntSize * j) direntSize

/-- The slots of the contents of a directory. -/
def slots (cs : List UInt8) : Slots (List UInt8) Nat :=
  (List.range (cs.length / direntSize)).map fun j => slotOf (entryAt cs j)

def Whole (cs : List UInt8) : Prop := cs.length % direntSize = 0

/-! ## Slots and bytes -/

section

variable {cs bs : List UInt8} {i j : Nat}

theorem slots_length (cs : List UInt8) : (slots cs).length = cs.length / direntSize := by
  unfold slots
  rw [List.length_map, List.length_range]

theorem slots_getElem? (hj : j < cs.length / direntSize) :
    (slots cs)[j]? = some (slotOf (entryAt cs j)) := by
  unfold slots
  rw [List.getElem?_map, List.getElem?_range hj]
  rfl

theorem entryAt_getElem? (cs : List UInt8) (j k : Nat) :
    (entryAt cs j)[k]? = if k < direntSize then cs[direntSize * j + k]? else none := by
  unfold entryAt Fs.readRange
  by_cases hk : k < direntSize
  · rw [List.getElem?_take_of_lt hk, List.getElem?_drop, if_pos hk]
  · rw [if_neg hk, List.getElem?_eq_none]
    rw [List.length_take]
    omega

theorem Whole.length (h : Whole cs) : direntSize * (cs.length / direntSize) = cs.length := by
  have := Nat.div_add_mod cs.length direntSize
  unfold Whole at h
  omega

theorem entryAt_writeRange (hbs : bs.length = direntSize) (hi : direntSize * i ≤ cs.length)
    (j : Nat) :
    entryAt (Fs.writeRange cs (direntSize * i) bs) j = if j = i then bs else entryAt cs j := by
  apply List.ext_getElem?
  intro k
  rw [entryAt_getElem?, Fs.getElem?_writeRange hi, hbs]
  by_cases hj : j = i
  · subst hj
    rw [if_pos rfl]
    by_cases hk : k < direntSize
    · rw [if_pos hk, if_pos (by omega)]
      congr 1
      omega
    · rw [if_neg hk, List.getElem?_eq_none (by omega)]
  · rw [if_neg hj, entryAt_getElem?]
    by_cases hk : k < direntSize
    · rw [if_pos hk, if_pos hk, if_neg (by unfold direntSize at *; omega)]
    · rw [if_neg hk, if_neg hk]

theorem whole_writeRange (h : Whole cs) (hbs : bs.length = direntSize)
    (hi : direntSize * i ≤ cs.length) : Whole (Fs.writeRange cs (direntSize * i) bs) := by
  unfold Whole at *
  rw [Fs.writeRange_length hi, hbs]
  unfold direntSize at *
  omega

theorem slots_writeRange (h : Whole cs) (hbs : bs.length = direntSize)
    (hi : direntSize * i ≤ cs.length) :
    slots (Fs.writeRange cs (direntSize * i) bs) = (slots cs).put i (slotOf bs) := by
  have hle : i ≤ (slots cs).length := by
    rw [slots_length]
    unfold direntSize at *
    omega
  have hlen : (slots (Fs.writeRange cs (direntSize * i) bs)).length =
      ((slots cs).put i (slotOf bs)).length := by
    rw [slots_length, Slots.length_put hle, slots_length, Fs.writeRange_length hi, hbs]
    unfold Whole direntSize at *
    omega
  apply List.ext_getElem?
  intro j
  by_cases hj : j < (slots (Fs.writeRange cs (direntSize * i) bs)).length
  · have hj' := hj
    rw [slots_length] at hj'
    rw [slots_getElem? hj', entryAt_writeRange hbs hi, Slots.getElem?_put hle]
    split
    · rfl
    · rw [hlen, Slots.length_put hle, slots_length] at hj
      rw [slots_length] at hle
      rw [slots_getElem? (by omega)]
  · rw [List.getElem?_eq_none (Nat.le_of_not_lt hj),
      List.getElem?_eq_none (by rw [← hlen]; exact Nat.le_of_not_lt hj)]

theorem bytes_of_buffer {bs : List UInt8} {n : Nat} (h : bs.length = n) :
    ((List.range n).map fun k => (some (bs.getD k 0)).getD 0) = bs := by
  apply List.ext_getElem
  · rw [List.length_map, List.length_range, h]
  · intro k hk hk'
    rw [List.getElem_map, List.getElem_range, Option.getD_some, List.getD_eq_getElem?_getD,
      List.getElem?_eq_getElem hk', Option.getD_some]

theorem putDirent_length (inum : Nat) (name : Nat → UInt8) :
    (putDirent inum (strncpy name DIRSIZ 0)).length = direntSize := by
  unfold putDirent
  rw [List.length_cons, List.length_cons, strncpy_length]
  rfl

theorem getDirent_putDirent (inum : Nat) (name : Nat → UInt8) :
    (getDirent (putDirent inum (strncpy name DIRSIZ 0))).inum = inum % 2 ^ 16 ∧
      key (getDirent (putDirent inum (strncpy name DIRSIZ 0))).name = key name := by
  constructor
  · unfold getDirent putDirent
    simp only [List.getD_cons_zero, List.getD_cons_succ, UInt8.toNat_ofNat']
    omega
  · unfold key
    rw [← cstr_strncpy name DIRSIZ 0]
    exact cstr_congr fun m _ => by
      unfold getDirent putDirent
      dsimp only
      rw [Nat.zero_add, Nat.add_comm 2]
      rfl

theorem slotOf_putDirent {inum : Nat} (h0 : inum ≠ 0) (hlt : inum < 2 ^ 16) (name : Nat → UInt8) :
    slotOf (putDirent inum (strncpy name DIRSIZ 0)) = some (key name, inum) := by
  obtain ⟨hinum, hkey⟩ := getDirent_putDirent inum name
  unfold slotOf
  rw [hinum, hkey, Nat.mod_eq_of_lt hlt, if_neg h0]

theorem slotOf_zero : slotOf zeroDirent = none := by decide

end

/-! ## The loops -/

def dirSlots (sb : Fs.Superblock) (d : Fs.Disk) (i : Nat) : Slots (List UInt8) Nat :=
  slots ((d.view sb).contents i)

/-- The contents of inode `i` are whole entries. -/
def WholeAt (sb : Fs.Superblock) (d : Fs.Disk) (i : Nat) : Prop := Whole ((d.view sb).contents i)

def IsDir (sb : Fs.Superblock) (d : Fs.Disk) (i : Nat) : Prop := ((d.view sb).inode i).type = T_DIR

instance (sb : Fs.Superblock) (d : Fs.Disk) (i : Nat) : Decidable (IsDir sb d i) :=
  inferInstanceAs (Decidable (_ = _))

section

variable {sb : Fs.Superblock} {d : Fs.Disk} {i j : Nat}

theorem allocated_of_type (h : ((d.view sb).inode i).type ≠ 0) : (d.view sb).Allocated sb i := by
  refine ⟨?_, h⟩
  by_contra hlt
  exact h (by simp [Fs.Disk.view, hlt, Fs.Dinode.zeroed])

theorem contents_length_eq : ((d.view sb).contents i).length = sizeOf sb d i :=
  Fs.contents_length _ _

theorem dirSlots_length : (dirSlots sb d i).length = sizeOf sb d i / direntSize := by
  unfold dirSlots
  rw [slots_length, contents_length_eq]

theorem rounds_eq : rounds sb d i = (dirSlots sb d i).length + 1 := by
  rw [dirSlots_length]
  rfl

variable (hinv : Fs.AllocInv sb (d.view sb)) (hi : (d.view sb).Allocated sb i)

include hinv hi

theorem readDirent_post (hj : direntSize * j < sizeOf sb d i) (e : Panic) :
    Post (fun f => f = e ∧ ¬ WholeAt sb d i)
      (fun r => r.2 = d ∧ ∃ rest, (dirSlots sb d i).drop j =
        (if r.1.inum = 0 then none else some (key r.1.name, r.1.inum)) :: rest ∧
        rest = (dirSlots sb d i).drop (j + 1))
      (readDirent sb d i (direntSize * j) e) := by
  have hmax : sizeOf sb d i ≤ Fs.MAXFILE * BSIZE := Fs.size_le_maxfile hinv hi
  have hlt : Fs.MAXFILE * BSIZE + direntSize < 2 ^ 32 := by decide
  have h16 : direntSize = 16 := rfl
  obtain ⟨r, bytes, hr, hread⟩ :=
    @Fs.AllocInv.readi sb d i (direntSize * j) direntSize hinv hi (fun _ => true)
    (by omega) (by decide)
  obtain ⟨hlen, hbytes⟩ := hread fun _ _ => rfl
  have hin : ¬ (((d.view sb).inode i).size < direntSize * j ∨ 2 ^ 32 ≤ direntSize * j +
      direntSize) := by
    unfold sizeOf at hj hmax
    omega
  rw [if_neg hin] at hbytes
  have hcount : r = min direntSize (sizeOf sb d i - direntSize * j) := by
    rw [hlen, hbytes]
    unfold Fs.readRange
    rw [List.length_take, List.length_drop, contents_length_eq]
  unfold readDirent
  rw [hr]
  change Post _ _ (if r ≠ direntSize then throw e else pure (getDirent bytes, d))
  by_cases hfits : direntSize * j + direntSize ≤ sizeOf sb d i
  · have hlen : j < (dirSlots sb d i).length := by
      rw [h16] at hfits
      rw [dirSlots_length, h16]
      omega
    rw [if_neg (by omega)]
    refine .pure ⟨rfl, _, ?_, rfl⟩
    rw [List.drop_eq_getElem_cons hlen]
    congr 1
    have hslot : (dirSlots sb d i)[j]? = some (slotOf bytes) := by
      unfold dirSlots at hlen ⊢
      rw [slots_length] at hlen
      rw [slots_getElem? hlen, hbytes]
      rfl
    rw [List.getElem?_eq_getElem hlen] at hslot
    exact Option.some.inj hslot
  · rw [if_pos (by omega)]
    refine .throw ⟨rfl, fun hwhole => ?_⟩
    unfold WholeAt Whole at hwhole
    rw [contents_length_eq, h16] at hwhole
    rw [h16] at hfits hj
    omega

/-- The loop of `dirlookup` looks the name up in the slots from `j` on. -/
theorem dirlookupLoop_post (name : Nat → UInt8) {n : Nat} (hn : j + n = (dirSlots sb d i).length) :
    Post (fun f => f = .dirlookupRead ∧ ¬ WholeAt sb d i)
      (fun r => r.2 = d ∧ r.1.map Prod.fst = Slots.lookup ((dirSlots sb d i).drop j) (key name) ∧
        ∀ v off, r.1 = some (v, off) → ∃ m, off = direntSize * m ∧ (dirSlots sb d i)[m]? =
        some (some (key name, v)))
      (dirlookupLoop sb i name (n + 1) (direntSize * j) d) := by
  -- induction on the slots that are left
  induction n generalizing j with
  | zero =>
    unfold dirlookupLoop
    refine .ite (fun hlt => (readDirent_post hinv hi hlt _).bind ?_) fun _ =>
      .ok ⟨rfl, ?_, fun _ _ h => by cases h⟩
    · rintro r ⟨-, rest, hdrop, -⟩
      rw [List.drop_eq_nil_of_le (by omega)] at hdrop
      cases hdrop
    · rw [List.drop_eq_nil_of_le (by omega)]
      rfl
  | succ n ih =>
    unfold dirlookupLoop
    have hlt : direntSize * j < sizeOf sb d i := by
      rw [dirSlots_length] at hn
      unfold direntSize at *
      omega
    rw [if_pos hlt]
    refine (readDirent_post hinv hi hlt _).bind ?_
    rintro ⟨de, d'⟩ ⟨rfl, rest, hdrop, hrest⟩
    dsimp only at hdrop ⊢
    rw [hdrop, Slots.lookup_cons, hrest]
    by_cases hmatch : de.inum ≠ 0 ∧ namecmp name de.name = 0
    · have hkey := namecmp_eq_zero.mp hmatch.2
      rw [if_pos hmatch, if_neg hmatch.1, if_pos (Slots.has_some.mpr ⟨_, by rw [hkey]⟩)]
      refine .pure ⟨rfl, rfl, fun v off hr => ?_⟩
      cases hr
      refine ⟨j, rfl, ?_⟩
      have hslot : ((dirSlots sb d' i).drop j)[0]? = (dirSlots sb d' i)[j + 0]? :=
        List.getElem?_drop
      rw [hdrop, if_neg hmatch.1, Nat.add_zero] at hslot
      rw [← hslot, hkey]
      rfl
    · rw [if_neg hmatch, if_neg]
      · exact ih (j := j + 1) (by omega)
      · intro hhas
        obtain ⟨v, hv⟩ := Slots.has_some.mp hhas
        split at hv
        · cases hv
        · rename_i h0
          exact hmatch ⟨h0, namecmp_eq_zero.mpr (Prod.mk.inj (Option.some.inj hv)).1.symm⟩

theorem dirlinkLoop_post {n : Nat} (hn : j + n = (dirSlots sb d i).length) :
    Post (fun f => f = .dirlinkRead ∧ ¬ WholeAt sb d i)
      (fun r => r = (direntSize * (j + Slots.free ((dirSlots sb d i).drop j)), d))
      (dirlinkLoop sb i (n + 1) (direntSize * j) d) := by
  induction n generalizing j with
  | zero =>
    unfold dirlinkLoop
    refine .ite (fun hlt => (readDirent_post hinv hi hlt _).bind ?_) fun _ => .ok ?_
    · rintro r ⟨-, rest, hdrop, -⟩
      rw [List.drop_eq_nil_of_le (by omega)] at hdrop
      cases hdrop
    · rw [List.drop_eq_nil_of_le (by omega)]
      rfl
  | succ n ih =>
    unfold dirlinkLoop
    have hlt : direntSize * j < sizeOf sb d i := by
      rw [dirSlots_length] at hn
      unfold direntSize at *
      omega
    rw [if_pos hlt]
    refine (readDirent_post hinv hi hlt _).bind ?_
    rintro ⟨de, d'⟩ ⟨rfl, rest, hdrop, hrest⟩
    dsimp only at hdrop ⊢
    unfold Slots.free
    rw [hdrop, List.findIdx_cons, hrest]
    by_cases h0 : de.inum = 0
    · rw [if_pos h0, if_pos h0]
      exact .pure rfl
    · rw [if_neg h0, if_neg h0]
      refine (ih (j := j + 1) (by omega)).imp fun r hr => hr.trans ?_
      congr 2
      exact Nat.add_right_comm j 1 _

/-- The loop of `isdirempty` tells whether the slots from `j` on are free. -/
theorem isdiremptyLoop_post {fuel : Nat} (hfuel : (dirSlots sb d i).length - j < fuel) :
    Post (fun f => f = .isdiremptyReadi ∧ ¬ WholeAt sb d i)
      (fun r => r = (((dirSlots sb d i).drop j).all Option.isNone, d))
      (isdiremptyLoop sb i fuel (direntSize * j) d) := by
  induction fuel generalizing j with
  | zero => exact absurd hfuel (Nat.not_lt_zero _)
  | succ fuel ih =>
    unfold isdiremptyLoop
    refine .ite (fun hlt => (readDirent_post hinv hi hlt _).bind ?_) fun hge => .ok ?_
    · rintro ⟨de, d'⟩ ⟨hd, rest, hdrop, hrest⟩
      obtain rfl : d' = d := hd
      dsimp only at hdrop ⊢
      have hj : j < (dirSlots sb d' i).length := by
        by_contra hle
        rw [List.drop_eq_nil_of_le (Nat.le_of_not_lt hle)] at hdrop
        cases hdrop
      rw [hdrop, List.all_cons, hrest]
      by_cases h0 : de.inum = 0
      · rw [if_neg (not_not.mpr h0), if_pos h0]
        exact ih (j := j + 1) (by omega)
      · rw [if_pos h0, if_neg h0]
        exact .pure rfl
    · have hj : (dirSlots sb d i).length ≤ j := by
        rw [dirSlots_length]
        unfold direntSize at *
        omega
      rw [List.drop_eq_nil_of_le hj]
      rfl

end

end Xv6.Names
