import Xv6.Names.Sections

/-! # Directories as finite maps under the calls

`create`, `link` and `unlink` on the directories of the disk, from one lock of the directory to its
release. In between a call adds or drops one entry. A directory that is well formed keeps its
entries `.` and `..` where they are and no two of its entries have the same name.
-/

namespace Xv6.Names

open Lib Kernel

/-- The entries of the directories, by inode. -/
abbrev Dirs := Nat → Option (Slots (List UInt8) Nat)

def Dirs.add (D : Dirs) (i : Nat) (name : List UInt8) (inum : Nat) : Dirs :=
  Function.update D i ((D i).map fun t => t.put t.free (some (name, inum)))

def Dirs.drop (D : Dirs) (i m : Nat) : Dirs := Function.update D i ((D i).map fun t => t.put m none)

def dotKey : List UInt8 := [46]

def dotdotKey : List UInt8 := [46, 46]

/-- Directory `i`: its first two entries are `.` and `..`, and no two entries have the same name. -/
structure WellFormed (i : Nat) (t : Slots (List UInt8) Nat) : Prop where
  dot : t[0]? = some (some (dotKey, i))
  dotdot : ∃ p, t[1]? = some (some (dotdotKey, p))
  distinct : t.Distinct

def newDir (i p : Nat) : Slots (List UInt8) Nat := [some (dotKey, i), some (dotdotKey, p)]

theorem key_dot : key dot = dotKey := by decide

theorem key_dotdot : key dotdot = dotdotKey := by decide

namespace WellFormed

variable {i m v : Nat} {t : Slots (List UInt8) Nat} {name : List UInt8}

theorem new (i p : Nat) : WellFormed i (newDir i p) := by
  refine ⟨rfl, ⟨p, rfl⟩, fun x y a b hx hy hab => ?_⟩
  have hslot : ∀ {x : Nat} {a : List UInt8 × Nat}, (newDir i p)[x]? = some (some a) →
      x = 0 ∧ a.1 = dotKey ∨ x = 1 ∧ a.1 = dotdotKey := by
    intro x a hx
    obtain _ | _ | x := x
    · cases hx
      exact .inl ⟨rfl, rfl⟩
    · cases hx
      exact .inr ⟨rfl, rfl⟩
    · cases hx
  have hne : dotKey ≠ dotdotKey := by decide
  rcases hslot hx with ⟨hx, ha⟩ | ⟨hx, ha⟩ <;> rcases hslot hy with ⟨hy, hb⟩ | ⟨hy, hb⟩
  · rw [hx, hy]
  · exact absurd (ha.symm.trans (hab.trans hb)) hne
  · exact absurd (hb.symm.trans (hab.symm.trans ha)) hne
  · rw [hx, hy]

theorem two_le_free (h : WellFormed i t) : 2 ≤ t.free := by
  obtain ⟨p, hp⟩ := h.dotdot
  have h0 : t.free ≠ 0 := fun h0 => Slots.getElem?_free t _ (h0 ▸ h.dot)
  have h1 : t.free ≠ 1 := fun h1 => Slots.getElem?_free t _ (h1 ▸ hp)
  omega

theorem put (h : WellFormed i t) {s : Option (List UInt8 × Nat)} (hm : 2 ≤ m) (hle : m ≤ t.length)
    (hd : (t.put m s).Distinct) : WellFormed i (t.put m s) := by
  obtain ⟨p, hp⟩ := h.dotdot
  refine ⟨?_, ⟨p, ?_⟩, hd⟩
  · rw [Slots.getElem?_put hle, if_neg (by omega)]
    exact h.dot
  · rw [Slots.getElem?_put hle, if_neg (by omega)]
    exact hp

theorem add (h : WellFormed i t) (hnew : t.lookup name = none) :
    WellFormed i (t.put t.free (some (name, v))) :=
  h.put h.two_le_free (Slots.free_le t) (h.distinct.put_some (Slots.free_le t) hnew)

theorem two_le (h : WellFormed i t) (hslot : t[m]? = some (some (name, v))) (hdot : name ≠ dotKey)
    (hdotdot : name ≠ dotdotKey) : 2 ≤ m := by
  obtain ⟨p, hp⟩ := h.dotdot
  have h0 : m ≠ 0 := by
    rintro rfl
    cases h.dot.symm.trans hslot
    exact hdot rfl
  have h1 : m ≠ 1 := by
    rintro rfl
    cases hp.symm.trans hslot
    exact hdotdot rfl
  omega

theorem drop (h : WellFormed i t) (hslot : t[m]? = some (some (name, v))) (hdot : name ≠ dotKey)
    (hdotdot : name ≠ dotdotKey) : WellFormed i (t.put m none) := by
  have hlt := (List.getElem?_eq_some_iff.mp hslot).1
  exact h.put (h.two_le hslot hdot hdotdot) (Nat.le_of_lt hlt)
    (h.distinct.put_none (Nat.le_of_lt hlt))

/-- The slots behind the first two are free if nothing but `.` and `..` is bound. -/
theorem empty_iff (h : WellFormed i t) : (t.drop 2).all Option.isNone = true ↔
    ∀ name, t.lookup name ≠ none → name = dotKey ∨ name = dotdotKey := by
  obtain ⟨p, hp⟩ := h.dotdot
  rw [List.all_eq_true]
  constructor
  · intro hall name hbound
    obtain ⟨v, hv⟩ := Option.ne_none_iff_exists'.mp hbound
    obtain ⟨m, hm⟩ := (Slots.lookup_eq_some h.distinct).mp hv
    obtain _ | _ | m := m
    · cases h.dot.symm.trans hm
      exact .inl rfl
    · cases hp.symm.trans hm
      exact .inr rfl
    · have hslot : (t.drop 2)[m]? = some (some (name, v)) := by
        rw [List.getElem?_drop, Nat.add_comm 2 m]
        exact hm
      cases hall _ (List.mem_of_getElem? hslot)
  · intro honly s hs
    obtain ⟨m, hm⟩ := List.mem_iff_getElem?.mp hs
    rw [List.getElem?_drop] at hm
    cases s with
    | none => rfl
    | some a =>
      have hbound : t.lookup a.1 ≠ none := by
        rw [(Slots.lookup_eq_some h.distinct).mpr ⟨2 + m, hm⟩]
        exact Option.some_ne_none _
      rcases honly _ hbound with hname | hname
      · have := h.distinct _ _ _ _ hm h.dot hname
        omega
      · have := h.distinct _ _ _ _ hm hp hname
        omega

end WellFormed

/-! ## Looking up and linking -/

section

variable {sb : Fs.Superblock} {sys₀ sys sys' : Sys} {c : Nat → Nat} {D : Dirs}
    {t : Slots (List UInt8) Nat}
  {k dp ip : Nat}

theorem Mid.isDir {i : Nat} (h : Mid sb sys₀ sys c D) (ht : D i = some t) :
    IsDir sb sys.disk i ∧ dirSlots sb sys.disk i = t :=
  dirs_eq_some.mp (by rw [h.dirs]; exact ht)

theorem Mid.bound_eq (h : Mid sb sys₀ sys c D) (ht : D (sys.inode dp).inum = some t)
    (name : Nat → UInt8) : bound sb sys dp name = t.lookup (key name) := by
  unfold bound
  rw [(h.isDir ht).2]

theorem Sound.dirlookup (h : Sound sb sys) (hdp : IsDir sb sys.disk (sys.inode dp).inum)
    (name : Nat → UInt8) :
    Post (fun f => f = .kernel .igetNoInodes ∧ (∀ k, k < NINODE → 0 < sys.iref k) ∧
      bound sb sys dp name ≠ none)
      (fun r => r = (none, sys) ∧ bound sb sys dp name = none ∨ ∃ k m, r.1 =
        some (k, direntSize * m) ∧
        Mid sb sys r.2 (only k) (dirs sb sys.disk) ∧ bound sb sys dp name =
        some (r.2.inode k).inum ∧ r.2.disk = sys.disk ∧
        (dirSlots sb sys.disk (sys.inode dp).inum)[m]? = some (some (key name, (r.2.inode k).inum)))
      (Names.dirlookup sb sys dp name) := by
  refine (dirlookup_post h.dir.fs.alloc hdp name).mono ?_ ?_
  · rintro f (⟨-, hno⟩ | ⟨v, e, hv, hget, rfl⟩)
    · exact absurd (h.dir.whole _ hdp) hno
    · obtain ⟨rfl, hfull⟩ := ((Holding.refl h.table).iget v).of_error hget
      refine ⟨rfl, hfull, ?_⟩
      rw [hv]
      exact Option.some_ne_none v
  · rintro r (hr | ⟨k, v, m, hr, hget, hb, hm⟩)
    · exact .inl hr
    · obtain ⟨hhold, rfl, -⟩ := ((Holding.refl h.table).iget v).of_ok hget
      have hmid := h.mid.holding (zero_add (only k) ▸ hhold) fun j hj => ?_
      · exact .inr ⟨k, m, hr, zero_add (only k) ▸ hmid, hb, hhold.disk, hm⟩
      · rw [eq_of_only_pos hj]
        exact slot_range hm

/-- The panics for want of room: an entry of the inode table, an inode, a block, or the size of the
directory. -/
def OutOfRoom (f : Panic) : Prop :=
  f = .kernel .igetNoInodes ∨ f = .kernel (.fs .iallocNoInodes) ∨
    f = .kernel (.fs .ballocOutOfBlocks) ∨ f = .dirlink

theorem Mid.dirlink {inum : Nat} (h : Mid sb sys₀ sys c D) (ht : D (sys.inode dp).inum = some t)
    (hpos : 0 < inum) (hlt : inum < 2 ^ 16) (name : Nat → UInt8) :
    Post OutOfRoom
      (fun r => (r.1 = false ∧ t.lookup (key name) ≠ none ∧ Mid sb sys₀ r.2 c D ∧
        Holding sb sys r.2 0) ∨
        (r.1 = true ∧ t.lookup (key name) = none ∧
          Mid sb sys₀ r.2 c (D.add (sys.inode dp).inum (key name) inum) ∧
          r.2.inode = sys.inode ∧ SameLinks sb sys.disk r.2.disk))
      (Names.dirlink sb sys dp name inum) := by
  obtain ⟨hdir, hslots⟩ := h.isDir ht
  refine (h.sound.dirlink hdir hpos hlt name).mono ?_ ?_
  · rintro f (⟨rfl, -⟩ | ⟨-, -, ⟨rfl, -⟩ | ⟨rfl, -⟩⟩)
    · exact .inl rfl
    · exact .inr (.inr (.inr rfl))
    · exact .inr (.inr (.inl rfl))
  · rw [h.bound_eq ht]
    rintro ⟨ok, sys'⟩ (⟨hok, hbound, hh⟩ | ⟨hok, hnone, d', rfl, hdir', hlinks, hdirs⟩)
    · have hmid := h.holding hh fun k hk => absurd hk (Nat.lt_irrefl 0)
      rw [add_zero] at hmid
      exact .inl ⟨hok, hbound, hmid, hh⟩
    · refine .inr ⟨hok, hnone, h.setDisk hdir' (fun i hi => hlinks.allocated hi) ?_, rfl, hlinks⟩
      rw [hdirs, h.dirs, hslots]
      unfold Dirs.add
      rw [ht]
      rfl

/-! ## `create` -/

theorem Mid.allocated {i : Nat} (h : Mid sb sys₀ sys c D) (ht : D i = some t) :
    (sys.disk.view sb).Allocated sb i :=
  (h.isDir ht).1.allocated

theorem Mid.dirlink_new {inum : Nat} (h : Mid sb sys₀ sys c D) (dp : Nat) (name : Nat → UInt8)
    (ht : D (sys.inode dp).inum = some t) (hpos : 0 < inum) (hlt : inum < 2 ^ 16)
    (hnew : t.lookup (key name) = none) :
    Post OutOfRoom (fun r => r.1 = true ∧
      Mid sb sys₀ r.2 c (D.add (sys.inode dp).inum (key name) inum) ∧
      r.2.inode = sys.inode) (Names.dirlink sb sys dp name inum) := by
  refine (h.dirlink ht hpos hlt name).imp ?_
  rintro r (⟨-, hbound, -⟩ | ⟨hok, -, hmid, hinode, -⟩)
  · exact absurd hnew hbound
  · exact ⟨hok, hmid, hinode⟩

theorem Mid.createDots (h : Mid sb sys₀ sys c D) (ht : D (sys.inode dp).inum = some t)
    (hempty : D (sys.inode ip).inum = some []) (hdp : 0 < sys.iref dp) (hip : 0 < sys.iref ip) :
    Post OutOfRoom (fun sys' => Mid sb sys₀ sys' c
        (Function.update D (sys.inode ip).inum
          (some (newDir (sys.inode ip).inum (sys.inode dp).inum))) ∧
      sys'.inode = sys.inode) (Names.createDots sb sys dp ip) := by
  unfold Names.createDots
  obtain ⟨hup, -⟩ := h.update (k := dp) setsFields_incNlink (h.allocated ht)
  have hnumi := h.sound.nums ip hip
  have hnump := h.sound.nums dp hdp
  refine Post.bind (hup.dirlink_new ip dot hempty hnumi.1 hnumi.2 rfl) ?_
  rintro ⟨ok, sys₁⟩ ⟨rfl, hmid₁, hinode₁⟩
  dsimp only at hmid₁ hinode₁ ⊢
  have hone : D.add (sys.inode ip).inum (key dot) (sys.inode ip).inum =
      Function.update D (sys.inode ip).inum (some [some (dotKey, (sys.inode ip).inum)]) := by
    unfold Dirs.add
    rw [hempty, key_dot]
    rfl
  change Mid sb sys₀ sys₁ c (D.add (sys.inode ip).inum (key dot) (sys.inode ip).inum) at hmid₁
  change sys₁.inode = sys.inode at hinode₁
  rw [hone] at hmid₁
  rw [hinode₁]
  have hslots : Function.update D (sys.inode ip).inum (some [some (dotKey, (sys.inode ip).inum)])
      (sys₁.inode ip).inum = some [some (dotKey, (sys.inode ip).inum)] := by
    rw [hinode₁, Function.update_self]
  have hnew : Slots.lookup [some (dotKey, (sys.inode ip).inum)] (key dotdot) = none := by
    rw [key_dotdot]
    rfl
  refine Post.bind (hmid₁.dirlink_new ip dotdot hslots hnump.1 hnump.2 hnew) ?_
  rintro ⟨ok, sys₂⟩ ⟨rfl, hmid₂, hinode₂⟩
  dsimp only at hmid₂ hinode₂ ⊢
  refine .pure ⟨?_, hinode₂.trans hinode₁⟩
  have htwo : Dirs.add (Function.update D (sys.inode ip).inum
      (some [some (dotKey, (sys.inode ip).inum)]))
      (sys₁.inode ip).inum (key dotdot) (sys.inode dp).inum =
      Function.update D (sys.inode ip).inum
          (some (newDir (sys.inode ip).inum (sys.inode dp).inum)) := by
    unfold Dirs.add
    rw [hslots, hinode₁, Function.update_idem, key_dotdot]
    rfl
  rwa [htwo] at hmid₂

/-- The types that `create` is called with. -/
def CreateType (type : Nat) : Prop := type = T_DIR ∨ type = T_FILE ∨ type = T_DEVICE

theorem CreateType.range {type : Nat} (h : CreateType type) : type ≠ 0 ∧ type < 2 ^ 16 := by
  rcases h with rfl | rfl | rfl <;> decide

theorem Mid.ialloc {type : Nat} (h : Mid sb sys₀ sys c D) (htype : CreateType type) :
    Post OutOfRoom (fun r => 0 < r.1 ∧ r.1 < sb.ninodes ∧ D r.1 = none ∧
      (r.2.view sb).Allocated sb r.1 ∧
        Mid sb sys₀ { sys with disk := r.2 } c
        (Function.update D r.1 (if type = T_DIR then some [] else none)))
      (fsys (Fs.ialloc sb sys.disk type)) := by
  cases hr : Fs.ialloc sb sys.disk type with
  | error f =>
    obtain rfl : f = .iallocNoInodes := by
      unfold Fs.ialloc at hr
      split at hr
      · cases hr
      · cases hr
        rfl
    exact .error (.inr (.inl rfl))
  | ok r =>
    obtain ⟨i, d'⟩ := r
    obtain ⟨hdir, hnone, hdirs, hinode, -, hlt, hfree⟩ := h.sound.dir.ialloc htype.range.2 hr
    have hself : ((d'.view sb).inode i).type = type := by
      rw [hinode, Function.update_self]
      rfl
    refine .ok ⟨Fs.ialloc_pos hr, hlt, h.dirs ▸ hnone,
      allocated_of_type (by rw [hself]; exact htype.range.1),
      h.setDisk hdir (fun j hj => ⟨hj.1, ?_⟩) (h.dirs ▸ hdirs)⟩
    rw [hinode, Function.update_apply]
    split
    · exact htype.range.1
    · exact hj.2

/-- A new entry in use for an inode. -/
theorem Mid.iget {i : Nat} (h : Mid sb sys₀ sys c D) (hpos : 0 < i) (hlt : i < 2 ^ 16) :
    Post OutOfRoom (fun r => Mid sb sys₀ r.2 (c + only r.1) D ∧ r.2.disk = sys.disk ∧
      (r.2.inode r.1).inum = i ∧
      0 < r.2.iref r.1 ∧ SameNums sys r.2) (kern (Kernel.iget sys i)) := by
  refine Post.mapError_iff.mpr
    (((Holding.refl h.sound.table).iget i).mono (fun f hf => .inl (by rw [hf.1])) ?_)
  rintro ⟨k, sys'⟩ ⟨hh, hnum, hsame⟩
  dsimp only at hh hnum hsame ⊢
  rw [zero_add] at hh
  refine ⟨h.holding hh fun j hj => ?_, hh.disk, hnum, ?_, hsame⟩
  · rw [eq_of_only_pos hj, hnum]
    exact ⟨hpos, hlt⟩
  · rw [hh.refs, only_self]
    exact Nat.succ_pos _

theorem Mid.createNew {type major minor : Nat} {name : Nat → UInt8} (hn : sb.ninodes ≤ 2 ^ 16)
    (h : Mid sb sys₀ sys c D) (ht : D (sys.inode dp).inum = some t) (hdp : 0 < sys.iref dp)
    (hnew : t.lookup (key name) = none) (htype : CreateType type) (hmajor : major < 2 ^ 16)
    (hminor : minor < 2 ^ 16) :
    Post OutOfRoom (fun r => 0 < r.2.iref r.1 ∧ D (r.2.inode r.1).inum = none ∧ Sound sb r.2 ∧
        Became sb (Dirs.add (Function.update D (r.2.inode r.1).inum
          (if type = T_DIR then some (newDir (r.2.inode r.1).inum (sys.inode dp).inum) else none))
          (sys.inode dp).inum (key name) (r.2.inode r.1).inum) r.2)
      (Names.createNew sb sys dp name type major minor) := by
  unfold Names.createNew
  refine Post.bind (h.ialloc htype) ?_
  rintro ⟨i, d₁⟩ ⟨hpos, hlt, hnone, halloc, hmid₁⟩
  dsimp only at hpos hlt hnone halloc hmid₁ ⊢
  refine Post.bind (hmid₁.iget hpos (Nat.lt_of_lt_of_le hlt hn)) ?_
  rintro ⟨ip, sys₂⟩ ⟨hmid₂, hdisk₂, hnum₂, hip, hsame₂⟩
  dsimp only at hmid₂ hdisk₂ hnum₂ hip hsame₂ ⊢
  have hdp₂ : (sys₂.inode dp).inum = (sys.inode dp).inum := hsame₂ dp hdp
  have hal₂ : (sys₂.disk.view sb).Allocated sb (sys₂.inode ip).inum := by
    rw [hdisk₂, hnum₂]
    exact halloc
  refine Post.bind ((hmid₂.ilock hip).mono (fun _ hno => absurd hal₂ hno) fun _ hq => hq) ?_
  rintro sys₃ ⟨hmid₃, -, hnum₃, -, hal₃⟩
  obtain ⟨hmid₄, -⟩ := hmid₃.update (k := ip) (setsFields_new hmajor hminor) hal₃
  generalize hsys₄ : Names.update sb sys₃ ip
    (fun x => { x with major := major, minor := minor, nlink := 1 }) = sys₄ at hmid₄
  have hinode₄ : sys₄.inode = sys₃.inode := by
    rw [← hsys₄]
    rfl
  have hnumi : (sys₄.inode ip).inum = i := by rw [hinode₄, hnum₃, hnum₂]
  have hnump : (sys₄.inode dp).inum = (sys.inode dp).inum := by rw [hinode₄, hnum₃, hdp₂]
  have hne : (sys.inode dp).inum ≠ i := by
    intro heq
    rw [heq, hnone] at ht
    cases ht
  have hip₄ : 0 < sys₄.iref ip := by
    rw [hmid₄.refs, Pi.add_apply, only_self]
    omega
  have hdp₄ : 0 < sys₄.iref dp := by
    have := h.refs dp
    rw [hmid₄.refs, Pi.add_apply]
    omega
  have hdots : Post OutOfRoom (fun sys' => Mid sb sys₀ sys' (c + only ip) (Function.update D i
      (if type = T_DIR then some (newDir i (sys.inode dp).inum) else none)) ∧
        sys'.inode = sys₄.inode)
      (if type = T_DIR then Names.createDots sb sys₄ dp ip else .ok sys₄) := by
    refine .ite (fun hdir => ?_) fun hfile => .ok ⟨?_, rfl⟩
    · rw [if_pos hdir] at hmid₄ ⊢
      refine (hmid₄.createDots (t := t) ?_ ?_ hdp₄ hip₄).imp ?_
      · rw [hnump, Function.update_of_ne hne]
        exact ht
      · rw [hnumi, Function.update_self]
      · rintro sys' ⟨hmid, hinode⟩
        rw [hnumi, hnump, Function.update_idem] at hmid
        exact ⟨hmid, hinode⟩
    · rw [if_neg hfile] at hmid₄ ⊢
      exact hmid₄
  refine hdots.ite_bind ?_
  rintro sys₅ ⟨hmid₅, hinode₅⟩
  have ht₅ : Function.update D i
      (if type = T_DIR then some (newDir i (sys.inode dp).inum) else none)
      (sys₅.inode dp).inum = some t := by
    rw [hinode₅, hnump, Function.update_of_ne hne]
    exact ht
  have hnum₅ : (sys₅.inode ip).inum = i := by rw [hinode₅, hnumi]
  rw [hnum₅]
  refine Post.bind (hmid₅.dirlink_new dp name ht₅ hpos (Nat.lt_of_lt_of_le hlt hn) hnew) ?_
  rintro ⟨ok, sys₆⟩ ⟨rfl, hmid₆, hinode₆⟩
  dsimp only at hmid₆ hinode₆ ⊢
  have hpos₆ : ∀ j, sys₆.iref j = sys₄.iref j := fun j => by
    unfold Sys.iref
    rw [hinode₆, hinode₅]
  obtain ⟨sys₇, hput, hsound, hrel, hrefs⟩ := hmid₆.sound.iput (k := dp) (by rw [hpos₆]; exact hdp₄)
  refine .bind_of_ok hput (.pure ?_)
  have hnum₇ : (sys₇.inode ip).inum = i := by rw [hrel.inums, hinode₆, hnum₅]
  have hipdp : ip ≠ dp := by
    rintro rfl
    exact hne (hnump.symm.trans hnumi)
  refine ⟨?_, ?_, hsound, ?_⟩
  · have := hrefs ip
    rw [only_ne hipdp, hpos₆] at this
    dsimp only
    omega
  · dsimp only
    rw [hnum₇]
    exact hnone
  · dsimp only
    rw [hnum₇]
    rw [hinode₅, hnump] at hmid₆
    exact (Became.of_eq hmid₆.dirs).released hrel

theorem Sound.lockDir (h : Sound sb sys) (hdp : 0 < sys.iref dp)
    (hdir : IsDir sb sys.disk (sys.inode dp).inum) :
    Post (fun _ => False) (fun sys' => Mid sb sys sys' 0 (dirs sb sys.disk) ∧ sys'.disk = sys.disk ∧
      (∀ j, (sys'.inode j).inum = (sys.inode j).inum) ∧ 0 < sys'.iref dp ∧
      IsDir sb sys'.disk (sys'.inode dp).inum) (Names.ilock sb sys dp) := by
  refine (h.mid.ilock hdp).mono (fun _ hno => hno hdir.allocated) ?_
  rintro sys' ⟨hmid, hdisk, hnum, -, -⟩
  refine ⟨hmid, hdisk, hnum, hmid.pos hdp, ?_⟩
  rw [hdisk, hnum]
  exact hdir

/-- The directory that entry `dp` is a copy of. -/
def slotsOf (sb : Fs.Superblock) (sys : Sys) (dp : Nat) : Slots (List UInt8) Nat :=
  dirSlots sb sys.disk (sys.inode dp).inum

theorem dirs_slotsOf (hdir : IsDir sb sys.disk (sys.inode dp).inum) :
    dirs sb sys.disk (sys.inode dp).inum = some (slotsOf sb sys dp) := if_pos hdir

theorem Sound.createLocked {type major minor : Nat} (hn : sb.ninodes ≤ 2 ^ 16) (h : Sound sb sys)
    (hdp : 0 < sys.iref dp) (hdir : IsDir sb sys.disk (sys.inode dp).inum) (htype : CreateType type)
    (hmajor : major < 2 ^ 16) (hminor : minor < 2 ^ 16) (name : Nat → UInt8) :
    Post OutOfRoom (fun r => Sound sb r.2.2 ∧
        ((r.1 = false ∧ (slotsOf sb sys dp).lookup (key name) = some (r.2.2.inode r.2.1).inum ∧
            Became sb (dirs sb sys.disk) r.2.2) ∨
          (r.1 = true ∧ (slotsOf sb sys dp).lookup (key name) = none ∧
            dirs sb sys.disk (r.2.2.inode r.2.1).inum = none ∧
            Became sb (Dirs.add (Function.update (dirs sb sys.disk) (r.2.2.inode r.2.1).inum
              (if type = T_DIR then some (newDir (r.2.2.inode r.2.1).inum (sys.inode dp).inum)
                else none))
              (sys.inode dp).inum (key name) (r.2.2.inode r.2.1).inum) r.2.2)))
      (Names.createLocked sb sys dp name type major minor) := by
  unfold Names.createLocked
  refine Post.bind ((h.lockDir hdp hdir).mono (fun _ hf => hf.elim) fun _ hq => hq) ?_
  rintro sys₁ ⟨hmid₁, hdisk₁, hnum₁, hdp₁, hdir₁⟩
  have ht₁ : dirs sb sys.disk (sys₁.inode dp).inum = some (slotsOf sb sys dp) := by
    rw [hnum₁]
    exact dirs_slotsOf hdir
  have hbound := hmid₁.bound_eq ht₁ name
  refine Post.bind ((hmid₁.sound.dirlookup hdir₁ name).mono (fun f hf => .inl hf.1) fun _ hq => hq)
    ?_
  rw [hbound]
  rintro ⟨r, sys₂⟩ (⟨heq, hnone⟩ | ⟨ip, m, hr, hmid₂, hsome, -, -⟩)
  · cases heq
    refine Post.bind (hmid₁.createNew hn ht₁ hdp₁ hnone htype hmajor hminor) ?_
    rintro ⟨ip, sys₃⟩ ⟨-, hfree, hsound, hbecame⟩
    rw [hnum₁] at hbecame
    exact .pure ⟨hsound, .inr ⟨rfl, hnone, hfree, hbecame⟩⟩
  · obtain rfl : r = some (ip, direntSize * m) := hr
    obtain ⟨sys₃, hput, hsound, hrel, -⟩ := hmid₂.sound.iput (k := dp) (hmid₂.pos hdp₁)
    refine .bind_of_ok hput (.pure ⟨hsound, .inl ⟨rfl, ?_, ?_⟩⟩)
    · dsimp only
      rw [hrel.inums]
      exact hsome
    · refine (Became.of_eq ?_).released hrel
      rw [hmid₂.dirs, hmid₁.dirs]

/-! ## `link` -/

theorem Sound.linkAt (h : Sound sb sys) (hdp : 0 < sys.iref dp) (hip : 0 < sys.iref ip)
    (hdir : IsDir sb sys.disk (sys.inode dp).inum) (name : Nat → UInt8) :
    Post OutOfRoom (fun r => Sound sb r.2 ∧
        ((r.1 = false ∧ (slotsOf sb sys dp).lookup (key name) ≠ none ∧
          Became sb (dirs sb sys.disk) r.2) ∨
          (r.1 = true ∧ (slotsOf sb sys dp).lookup (key name) = none ∧
            Became sb (Dirs.add (dirs sb sys.disk) (sys.inode dp).inum (key name)
              (sys.inode ip).inum) r.2)))
      (Names.linkAt sb sys dp name ip) := by
  unfold Names.linkAt
  refine Post.bind ((h.lockDir hdp hdir).mono (fun _ hf => hf.elim) fun _ hq => hq) ?_
  rintro sys₁ ⟨hmid₁, hdisk₁, hnum₁, hdp₁, hdir₁⟩
  have ht₁ : dirs sb sys.disk (sys₁.inode dp).inum = some (slotsOf sb sys dp) := by
    rw [hnum₁]
    exact dirs_slotsOf hdir
  have hrange := hmid₁.sound.nums ip (hmid₁.pos hip)
  refine Post.bind (hmid₁.dirlink ht₁ hrange.1 hrange.2 name) ?_
  rintro ⟨ok, sys₂⟩ (⟨rfl, hbound, hmid₂, -⟩ | ⟨rfl, hnone, hmid₂, -, -⟩)
  · obtain ⟨sys₃, hput, hsound, hrel, -⟩ := hmid₂.sound.iput (k := dp) (hmid₂.pos hdp)
    exact .bind_of_ok hput (.pure ⟨hsound,
      .inl ⟨rfl, hbound, (Became.of_eq hmid₂.dirs).released hrel⟩⟩)
  · obtain ⟨sys₃, hput, hsound, hrel, -⟩ := hmid₂.sound.iput (k := dp) (hmid₂.pos hdp)
    have hdirs := hmid₂.dirs
    rw [hnum₁, hnum₁] at hdirs
    exact .bind_of_ok hput (.pure ⟨hsound, .inr ⟨rfl, hnone, (Became.of_eq hdirs).released hrel⟩⟩)

/-! ## `unlink` -/

theorem Sound.isdirempty (h : Sound sb sys) (hdir : IsDir sb sys.disk (sys.inode dp).inum) :
    Post (fun _ => False) (fun r => r = (((slotsOf sb sys dp).drop 2).all Option.isNone, sys))
      (Names.isdirempty sb sys dp) := by
  unfold Names.isdirempty
  dsimp only
  rw [rounds_eq, show 2 * direntSize = direntSize * 2 from rfl]
  have hloop : Post _ _ (isdiremptyLoop sb (sys.inode dp).inum
      ((dirSlots sb sys.disk (sys.inode dp).inum).length + 1)
      (direntSize * 2) sys.disk) := isdiremptyLoop_post h.dir.fs.alloc hdir.allocated (by omega)
  refine (hloop.mono (fun f hf => hf.2 (h.dir.whole _ hdir)) fun _ hq => hq).bind ?_
  rintro r rfl
  exact .pure rfl

theorem Became.update {f : Fs.Dinode → Fs.Dinode} (h : Became sb D sys) (hsound : Sound sb sys)
    (hf : SetsFields f) (hk : 0 < sys.iref k)
    (ha : (sys.disk.view sb).Allocated sb (sys.inode k).inum) :
    Became sb D (Names.update sb sys k f) ∧ Sound sb (Names.update sb sys k f) := by
  obtain ⟨hmid, hinode⟩ := hsound.mid.update hf ha
  refine ⟨fun i => ?_, hmid.sound⟩
  rw [hmid.dirs]
  refine (h i).imp id fun hdrop => ⟨hdrop.1, ?_⟩
  obtain ⟨htype, hnlink, hno⟩ := hdrop.2
  have hne : i ≠ (sys.inode k).inum := fun heq => hno k hk heq.symm
  refine ⟨?_, ?_, hno⟩
  · rw [hinode, Function.update_of_ne hne]
    exact htype
  · rw [hinode, Function.update_of_ne hne]
    exact hnlink

theorem Sound.iput_two {j : Nat} (h : Sound sb sys) (hk : 0 < sys.iref k) (hj : 0 < sys.iref j)
    (hne : j ≠ k) :
    ∃ sys', Names.iput sb sys k = .ok sys' ∧ Sound sb sys' ∧ Released sb sys sys' ∧
    0 < sys'.iref j := by
  obtain ⟨sys', hput, hsound, hrel, hrefs⟩ := h.iput hk
  have := hrefs j
  rw [only_ne hne] at this
  exact ⟨sys', hput, hsound, hrel, by omega⟩

/-- An entry of directory `i` for inode `v` that `unlink` does not survive: it waits for a lock that
it holds, or it panics on a free inode or on a count of links that is not positive. -/
def BadEntry (sb : Fs.Superblock) (d : Fs.Disk) (i v : Nat) : Prop :=
  v = i ∨ ¬ (d.view sb).Allocated sb v ∨ ((d.view sb).inode v).nlink = 0 ∨
    2 ^ 15 ≤ ((d.view sb).inode v).nlink

theorem Mid.unlinkEntry {m : Nat} {name : List UInt8} (h : Mid sb sys₀ sys c D)
    (ht : D (sys.inode dp).inum = some t) (hslot : t[m]? = some (some (name, (sys.inode ip).inum)))
    (hdp : 0 < sys.iref dp) (hip : 0 < sys.iref ip) :
    Post (fun _ => BadEntry sb sys.disk (sys.inode dp).inum (sys.inode ip).inum)
      (fun r => Sound sb r.2 ∧
        ((r.1 = false ∧ (∃ t', D (sys.inode ip).inum = some t' ∧
          (t'.drop 2).all Option.isNone = false) ∧
            Became sb D r.2) ∨
          (r.1 = true ∧ (∀ t', D (sys.inode ip).inum = some t' →
            (t'.drop 2).all Option.isNone = true) ∧
            Became sb (D.drop (sys.inode dp).inum m) r.2)))
      (Names.unlinkEntry sb sys dp ip (direntSize * m)) := by
  unfold Names.unlinkEntry
  refine .ite (fun heq => .throw (.inl (by rw [heq]))) fun hne => ?_
  refine Post.bind ((h.ilock hip).mono (fun _ hno => .inr (.inl hno)) fun _ hq => hq) ?_
  rintro sys₁ ⟨hmid₁, hdisk₁, hnum₁, hvalid₁, -⟩
  have hdp₁ : 0 < sys₁.iref dp := by
    rw [hmid₁.refs, ← h.refs]
    exact hdp
  have hip₁ : 0 < sys₁.iref ip := by
    rw [hmid₁.refs, ← h.refs]
    exact hip
  have hlinks : sys₁.dinode sb ip = (sys.disk.view sb).inode (sys.inode ip).inum := by
    unfold Sys.dinode
    rw [hdisk₁, hnum₁]
  refine .ite (fun hbad => .throw (.inr (.inr (by rw [← hlinks]; exact hbad)))) fun _ => ?_
  have hdirs₁ : D (sys.inode ip).inum = Names.dirs sb sys₁.disk (sys₁.inode ip).inum :=
    by rw [hmid₁.dirs, hnum₁]
  have hempty : Post (fun _ => BadEntry sb sys.disk (sys.inode dp).inum (sys.inode ip).inum)
      (fun r => r.2 = sys₁ ∧
        (r.1 = false → ∃ t', D (sys.inode ip).inum = some t' ∧
          (t'.drop 2).all Option.isNone = false) ∧
        (r.1 = true → ∀ t', D (sys.inode ip).inum = some t' → (t'.drop 2).all Option.isNone = true))
      (if decide (typeOf sb sys₁ ip = T_DIR) = true then Names.isdirempty sb sys₁ ip
          else .ok (true, sys₁)) := by
    rw [hdirs₁]
    refine .ite (fun hdir => ?_) fun hfile => .ok ⟨rfl, fun hf => (by cases hf), fun _ t' ht' => ?_⟩
    · have hdir₁ : IsDir sb sys₁.disk (sys₁.inode ip).inum := of_decide_eq_true hdir
      rw [dirs_slotsOf hdir₁]
      refine (hmid₁.sound.isdirempty hdir₁).mono (fun _ hf => hf.elim) ?_
      rintro r rfl
      exact ⟨rfl, fun hf => ⟨_, rfl, hf⟩, fun he t' ht' => Option.some.inj ht' ▸ he⟩
    · exact absurd (decide_eq_true (dirs_eq_some.mp ht').1) hfile
  refine hempty.ite_bind ?_
  rintro ⟨empty, sys₂⟩ ⟨hsys₂, hfull, hnone⟩
  obtain rfl : sys₂ = sys₁ := hsys₂
  have ht₂ : D (sys₂.inode dp).inum = some t := by
    rw [hnum₁]
    exact ht
  cases empty with
  | false =>
    obtain ⟨sys₃, hput₃, hsound₃, hrel₃, hdp₃⟩ := hmid₁.sound.iput_two hip₁ hdp₁ (Ne.symm hne)
    obtain ⟨sys₄, hput₄, hsound₄, hrel₄, -⟩ := hsound₃.iput hdp₃
    refine .bind_of_ok hput₃ (.bind_of_ok hput₄ (.pure ⟨hsound₄, .inl ⟨rfl, hfull rfl, ?_⟩⟩))
    exact ((Became.of_eq hmid₁.dirs).released hrel₃).released hrel₄
  | true =>
    have hlt := (List.getElem?_eq_some_iff.mp hslot).1
    obtain ⟨hdir₂, hslots₂⟩ := hmid₁.isDir ht₂
    have hwrite := hmid₁.sound.dir.writeDirent hdir₂ (m := m) (by rw [hslots₂]; omega)
      (show zeroDirent.length = direntSize from rfl) .unlinkWritei
    rw [hslots₂, slotOf_zero] at hwrite
    refine Post.bind (hwrite.mono (fun f hf => absurd hf.1 (Nat.ne_of_lt hlt)) fun _ hq => hq) ?_
    rintro d₃ ⟨hdir₃, hlinks₃, hdirs₃⟩
    have hmid₃ : Mid sb sys₀ { sys₂ with disk := d₃ } c (D.drop (sys.inode dp).inum m) := by
      refine hmid₁.setDisk hdir₃ (fun i hi => hlinks₃.allocated hi) ?_
      rw [hdirs₃, hmid₁.dirs, hnum₁]
      unfold Dirs.drop
      rw [ht]
      rfl
    -- the link that the directory had from `..` in the directory that goes
    have hcount : ∀ dir : Bool,
        Mid sb sys₀ (if dir = true then Names.update sb { sys₂ with disk := d₃ } dp decNlink
        else { sys₂ with disk := d₃ }) c (D.drop (sys.inode dp).inum m) := by
      intro dir
      cases dir with
      | false => exact hmid₃
      | true =>
        exact (hmid₃.update (k := dp) setsFields_decNlink
          (hlinks₃.allocated (hmid₁.allocated ht₂))).1
    have hnode : ∀ dir : Bool,
        (if dir = true then Names.update sb { sys₂ with disk := d₃ } dp decNlink
        else { sys₂ with disk := d₃ } : Sys).inode = sys₂.inode := fun dir => by cases dir <;> rfl
    dsimp only
    generalize decide (typeOf sb sys₂ ip = T_DIR) = dir
    have hmid₄ := hcount dir
    have hnode₄ := hnode dir
    revert hmid₄ hnode₄
    generalize (if dir = true then Names.update sb { sys₂ with disk := d₃ } dp decNlink
      else { sys₂ with disk := d₃ }) = sys₄
    intro hmid₄ hnode₄
    have hrefs₄ : ∀ j, sys₄.iref j = sys₂.iref j := fun j => by
      unfold Sys.iref
      rw [hnode₄]
    have hip₄ : 0 < sys₄.iref ip := by rwa [hrefs₄]
    have hal₄ := hmid₄.sound.table.valid ip hip₄ (by rw [hnode₄]; exact hvalid₁)
    obtain ⟨sys₅, hput₅, hsound₅, hrel₅, hip₅⟩ := hmid₄.sound.iput_two (by rwa [hrefs₄]) hip₄ hne
    obtain ⟨hbecame₆, hsound₆⟩ :=
      ((Became.of_eq hmid₄.dirs).released hrel₅).update hsound₅ setsFields_decNlink hip₅
      (hrel₅.allocated hip₅ hal₄)
    obtain ⟨sys₇, hput₇, hsound₇, hrel₇, -⟩ := hsound₆.iput hip₅
    exact .bind_of_ok hput₅ (.bind_of_ok hput₇
      (.pure ⟨hsound₇, .inr ⟨rfl, hnone rfl, hbecame₆.released hrel₇⟩⟩))

theorem isDot_iff {name : Nat → UInt8} :
    (namecmp name dot = 0 ∨ namecmp name dotdot = 0) ↔ key name = dotKey ∨
    key name = dotdotKey := by
  rw [namecmp_eq_zero, namecmp_eq_zero, key_dot, key_dotdot]

theorem Sound.unlinkAt (h : Sound sb sys) (hdp : 0 < sys.iref dp)
    (hdir : IsDir sb sys.disk (sys.inode dp).inum) (name : Nat → UInt8) :
    Post (fun _ => ∃ v, (slotsOf sb sys dp).lookup (key name) = some v ∧
        ((∀ k, k < NINODE → 0 < sys.iref k) ∨ BadEntry sb sys.disk (sys.inode dp).inum v))
      (fun r => Sound sb r.2 ∧
        ((r.1 = false ∧ (key name = dotKey ∨ key name = dotdotKey ∨
          (slotsOf sb sys dp).lookup (key name) = none ∨
            ∃ v t, (slotsOf sb sys dp).lookup (key name) = some v ∧ dirs sb sys.disk v = some t ∧
              (t.drop 2).all Option.isNone = false) ∧ Became sb (dirs sb sys.disk) r.2) ∨
          (r.1 = true ∧ key name ≠ dotKey ∧ key name ≠ dotdotKey ∧ ∃ v m,
            (slotsOf sb sys dp)[m]? = some (some (key name, v)) ∧
            (∀ t, dirs sb sys.disk v = some t → (t.drop 2).all Option.isNone = true) ∧
            Became sb (Dirs.drop (dirs sb sys.disk) (sys.inode dp).inum m) r.2)))
      (Names.unlinkAt sb sys dp name) := by
  unfold Names.unlinkAt
  refine Post.bind ((h.lockDir hdp hdir).mono (fun _ hf => hf.elim) fun _ hq => hq) ?_
  rintro sys₁ ⟨hmid₁, hdisk₁, hnum₁, hdp₁, hdir₁⟩
  have ht₁ : dirs sb sys.disk (sys₁.inode dp).inum = some (slotsOf sb sys dp) := by
    rw [hnum₁]
    exact dirs_slotsOf hdir
  have hput : ∀ {sys₂ : Sys} {c : Nat → Nat}, Mid sb sys sys₂ c (dirs sb sys.disk) →
      ∃ sys₃, Names.iput sb sys₂ dp = .ok sys₃ ∧ Sound sb sys₃ ∧
          Became sb (dirs sb sys.disk) sys₃ := by
    intro sys₂ c hmid₂
    obtain ⟨sys₃, hput, hsound, hrel, -⟩ := hmid₂.sound.iput (hmid₂.pos hdp)
    exact ⟨sys₃, hput, hsound, (Became.of_eq hmid₂.dirs).released hrel⟩
  refine .ite (fun hdot => ?_) fun hdot => ?_
  · obtain ⟨sys₂, hput₂, hsound₂, hbecame₂⟩ := hput hmid₁
    exact .bind_of_ok hput₂ (.pure ⟨hsound₂, .inl ⟨rfl, (isDot_iff.mp hdot).imp id .inl, hbecame₂⟩⟩)
  rw [isDot_iff, not_or] at hdot
  refine Post.bind ((hmid₁.sound.dirlookup hdir₁ name).mono ?_ fun _ hq => hq) ?_
  · rintro f ⟨-, hfull, hbound⟩
    rw [hmid₁.bound_eq ht₁] at hbound
    obtain ⟨v, hv⟩ := Option.ne_none_iff_exists'.mp hbound
    exact ⟨v, hv, .inl fun k hk => (hmid₁.refs k).subst (hfull k hk)⟩
  rw [hmid₁.bound_eq ht₁]
  rintro ⟨r, sys₂⟩ (⟨heq, hnone⟩ | ⟨ip, m, hr, hmid₂, hsome, hdisk₂, hslot⟩)
  · cases heq
    obtain ⟨sys₂, hput₂, hsound₂, hbecame₂⟩ := hput hmid₁
    exact .bind_of_ok hput₂ (.pure ⟨hsound₂, .inl ⟨rfl, .inr (.inr (.inl hnone)), hbecame₂⟩⟩)
  · obtain rfl : r = some (ip, direntSize * m) := hr
    dsimp only at hmid₂ hsome hdisk₂ hslot ⊢
    have hdp₂ : (sys₂.inode dp).inum = (sys.inode dp).inum := (hmid₂.inums dp hdp₁).trans (hnum₁ dp)
    rw [hmid₁.dirs] at hmid₂
    have ht₂ : dirs sb sys.disk (sys₂.inode dp).inum = some (slotsOf sb sys dp) := by
      rw [hdp₂]
      exact dirs_slotsOf hdir
    have hslot₂ : (slotsOf sb sys dp)[m]? = some (some (key name, (sys₂.inode ip).inum)) := by
      rw [← (hmid₁.isDir ht₁).2]
      exact hslot
    have hip₂ : 0 < sys₂.iref ip := by
      rw [hmid₂.refs, only_self]
      exact Nat.succ_pos _
    refine (hmid₂.unlinkEntry ht₂ hslot₂ (hmid₂.pos hdp₁) hip₂).mono
      (fun f hf => ⟨_, hsome, .inr ?_⟩) ?_
    · rw [hdisk₂, hdisk₁, hdp₂] at hf
      exact hf
    · rintro r ⟨hsound, ⟨hr, ⟨t, ht, hfull⟩, hbecame⟩ | ⟨hr, hempty, hbecame⟩⟩
      · exact ⟨hsound, .inl ⟨hr, .inr (.inr (.inr ⟨_, t, hsome, ht, hfull⟩)), hbecame⟩⟩
      · rw [hdp₂] at hbecame
        exact ⟨hsound, .inr ⟨hr, hdot.1, hdot.2, _, m, hslot₂, hempty, hbecame⟩⟩

end

end Xv6.Names
