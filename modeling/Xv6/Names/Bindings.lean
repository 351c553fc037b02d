import Xv6.Names.Updates

/-! # Directories as finite maps in every run

What processes do to directories, one locked section at a time: a call takes references to entries
of the inode table, and each of its sections locks an entry to which it has one. Sections of
different calls come in any order, so two calls can both find a name unbound before one of them
enters it.
-/

namespace Xv6.Names

open Lib Kernel

/-! ## The machine -/

/-- The sections of the calls. `k`, `dp` and `ip` are entries of the inode table. -/
inductive Action where
  /-- a path starts at the root directory -/
  | root
  /-- a path starts at the current directory, or a file is shared -/
  | idup (k : Nat)
  /-- one round of `namex` -/
  | lookup (dp : Nat) (name : Nat → UInt8)
  /-- an inode is locked and read -/
  | ilock (k : Nat)
  | iput (k : Nat)
  /-- `create` under the lock of the directory -/
  | create (dp : Nat) (name : Nat → UInt8) (type major minor : Nat)
  /-- `sys_link`: the inode gets a link more -/
  | addLink (ip : Nat)
  /-- `sys_link`: the entry -/
  | link (dp : Nat) (name : Nat → UInt8) (ip : Nat)
  /-- `sys_link`: the entry was not made -/
  | linkBad (ip : Nat)
  /-- `sys_unlink` behind `nameiparent` -/
  | unlink (dp : Nat) (name : Nat → UInt8)
  /-- `writei` from `filewrite` -/
  | write (ip : Nat) (src : Nat → Option UInt8) (off n : Nat)
  /-- `itrunc` from `sys_open` -/
  | trunc (ip : Nat)

instance (type : Nat) : Decidable (CreateType type) := inferInstanceAs (Decidable (_ ∨ _ ∨ _))

def ofExcept : Except Panic Sys → Outcome Panic Sys
  | .ok sys => .next sys
  | .error f => .fault f

section

variable (sb : Fs.Superblock)

/-- One round of `namex` on a name that is not the last. -/
def lookupNext (sys : Sys) (dp : Nat) (name : Nat → UInt8) : Except Panic Sys := do
  let sys ← ilock sb sys dp
  if typeOf sb sys dp ≠ T_DIR then iput sb sys dp
  else
    let r ← dirlookup sb sys dp name
    iput sb r.2 dp

/-- The first locked section of `sys_link`. -/
def addLink (sys : Sys) (ip : Nat) : Except Panic Sys := do
  let sys ← ilock sb sys ip
  if typeOf sb sys ip = T_DIR then iput sb sys ip else return update sb sys ip incNlink

def writeLocked (sys : Sys) (ip : Nat) (src : Nat → Option UInt8) (off n : Nat) :
    Except Panic Sys := do
  let sys ← ilock sb sys ip
  let r ← fsys (Fs.writei sb sys.disk (sys.inode ip).inum (sys.dinode sb ip) src off n)
  return { sys with disk := r.2.2 }

def truncLocked (sys : Sys) (ip : Nat) : Except Panic Sys := do
  let sys ← ilock sb sys ip
  let r ← fsys (Fs.itrunc sb sys.disk (sys.inode ip).inum (sys.dinode sb ip))
  return { sys with disk := r.2 }

/-- A call has a reference to what it locks. `nameiparent` returns directories only, and no
directory is open for writing. -/
def step (sys : Sys) : Action → Outcome Panic Sys
  | .root => ofExcept ((kern (iget sys ROOTINO)).map Prod.snd)
  | .idup k => if 0 < sys.iref k then .next (idup sys k) else .blocked
  | .lookup dp name => if 0 < sys.iref dp then ofExcept (lookupNext sb sys dp name) else .blocked
  | .ilock k => if 0 < sys.iref k then ofExcept (ilock sb sys k) else .blocked
  | .iput k => if 0 < sys.iref k then ofExcept (iput sb sys k) else .blocked
  | .create dp name type major minor =>
    if 0 < sys.iref dp ∧ typeOf sb sys dp = T_DIR ∧ CreateType type then
      -- `major` and `minor` are `short`s
      ofExcept ((createLocked sb sys dp name type (major % 2 ^ 16) (minor % 2 ^ 16)).map
        fun r => r.2.2)
    else .blocked
  | .addLink ip => if 0 < sys.iref ip then ofExcept (addLink sb sys ip) else .blocked
  | .link dp name ip =>
    if 0 < sys.iref dp ∧ typeOf sb sys dp = T_DIR ∧ 0 < sys.iref ip then
      ofExcept ((linkAt sb sys dp name ip).map Prod.snd)
    else .blocked
  | .linkBad ip => if 0 < sys.iref ip then ofExcept (linkBad sb sys ip) else .blocked
  | .unlink dp name =>
    if 0 < sys.iref dp ∧ typeOf sb sys dp =
    T_DIR then ofExcept ((unlinkAt sb sys dp name).map Prod.snd)
    else .blocked
  | .write ip src off n =>
    if 0 < sys.iref ip ∧ typeOf sb sys ip ≠ T_DIR then
      -- `off` and `n` are `uint`s
      ofExcept (writeLocked sb sys ip src (off % 2 ^ 32) (n % 2 ^ 32))
    else .blocked
  | .trunc ip =>
    if 0 < sys.iref ip ∧ typeOf sb sys ip ≠ T_DIR then ofExcept (truncLocked sb sys ip)
    else .blocked

/-- A consistent image, and no inode in use. -/
structure Consistent (sys : Sys) : Prop where
  dir : DirInv sb sys.disk
  good : ∀ i, IsDir sb sys.disk i → WellFormed i (dirSlots sb sys.disk i)
  /-- a directory entry has room for every number -/
  inums : sb.ninodes ≤ 2 ^ 16
  unused : ∀ k, sys.iref k = 0

end

/-! ## What a step does to the directories -/

/-- A section leaves the directories as they are, or enters a name, which may be that of a new
inode, or drops one. -/
inductive Change (D : Dirs) : Dirs → Prop where
  | same : Change D D
  | enter {i : Nat} {t : Slots (List UInt8) Nat} (name : List UInt8) (v : Nat) (ht : D i = some t)
      (hnew : t.lookup name = none) : Change D (D.add i name v)
  | create {i v : Nat} {t : Slots (List UInt8) Nat} (name : List UInt8) (dir : Bool)
      (ht : D i = some t) (hnew : t.lookup name = none) (hv : D v = none) :
      Change D (Dirs.add (Function.update D v (if dir then some (newDir v i) else none)) i name v)
  | leave {i m v : Nat} {t : Slots (List UInt8) Nat} {name : List UInt8} (ht : D i = some t)
      (hslot : t[m]? = some (some (name, v))) (hdot : name ≠ dotKey) (hdotdot : name ≠ dotdotKey) :
      Change D (D.drop i m)

def AllWellFormed (D : Dirs) : Prop := ∀ i t, D i = some t → WellFormed i t

section

variable {D D' : Dirs} {i m v : Nat} {t : Slots (List UInt8) Nat} {name : List UInt8}

theorem AllWellFormed.update (h : AllWellFormed D) (hi : ∀ t, D' i = some t → WellFormed i t)
    (hne : ∀ j, j ≠ i → D' j = D j) : AllWellFormed D' := by
  intro j t ht
  by_cases hj : j = i
  · subst hj
    exact hi t ht
  · exact h j t (hne j hj ▸ ht)

theorem Dirs.add_self (ht : D i = some t) :
    D.add i name v i = some (t.put t.free (some (name, v))) := by
  unfold Dirs.add
  rw [Function.update_self, ht]
  rfl

theorem Dirs.add_ne {j : Nat} (hj : j ≠ i) : D.add i name v j = D j := Function.update_of_ne hj _ _

theorem Dirs.drop_self (ht : D i = some t) : D.drop i m i = some (t.put m none) := by
  unfold Dirs.drop
  rw [Function.update_self, ht]
  rfl

theorem Dirs.drop_ne {j : Nat} (hj : j ≠ i) : D.drop i m j = D j := Function.update_of_ne hj _ _

theorem AllWellFormed.add (h : AllWellFormed D) (ht : D i = some t) (hnew : t.lookup name = none) :
    AllWellFormed (D.add i name v) := by
  refine h.update (fun t' ht' => ?_) fun j hj => Dirs.add_ne hj
  rw [Dirs.add_self ht] at ht'
  exact Option.some.inj ht' ▸ (h i t ht).add hnew

theorem update_new {x : Option (Slots (List UInt8) Nat)} (ht : D i = some t) (hv : D v = none) :
    Function.update D v x i = some t := by
  rw [Function.update_of_ne, ht]
  rintro rfl
  rw [ht] at hv
  cases hv

theorem AllWellFormed.change (h : AllWellFormed D) (hc : Change D D') : AllWellFormed D' := by
  cases hc with
  | same => exact h
  | enter name v ht hnew => exact h.add ht hnew
  | @create i v t name dir ht hnew hv =>
    refine AllWellFormed.add (h.update (i := v)
      (fun t' ht' => ?_) fun j hj => Function.update_of_ne hj _ _) (update_new ht hv) hnew
    rw [Function.update_self] at ht'
    cases dir with
    | false => cases ht'
    | true => exact Option.some.inj ht' ▸ WellFormed.new v i
  | @leave i m v t name ht hslot hdot hdotdot =>
    refine h.update (fun t' ht' => ?_) fun j hj => Dirs.drop_ne hj
    rw [Dirs.drop_self ht] at ht'
    exact Option.some.inj ht' ▸ (h i t ht).drop hslot hdot hdotdot

theorem put_first {s : Option (List UInt8 × Nat)} (hm : 2 ≤ m) (hle : m ≤ t.length) {j : Nat}
    (hj : j < 2) : (t.put m s)[j]? = t[j]? := by
  rw [Slots.getElem?_put hle, if_neg (by omega)]

theorem Change.first {t' : Slots (List UInt8) Nat} (h : AllWellFormed D) (hc : Change D D')
    (ht : D i = some t) (ht' : D' i = some t') {j : Nat} (hj : j < 2) : t'[j]? = t[j]? := by
  have hadd : ∀ {D : Dirs} {k : Nat} {u : Slots (List UInt8) Nat} {name v}, WellFormed k u →
      D k = some u → D i = some t → D.add k name v i = some t' → t'[j]? = t[j]? := by
    intro D k u name v hwf hu ht ht'
    by_cases hik : i = k
    · subst hik
      obtain rfl : u = t := Option.some.inj (hu.symm.trans ht)
      rw [Dirs.add_self hu] at ht'
      exact Option.some.inj ht' ▸ put_first hwf.two_le_free (Slots.free_le u) hj
    · rw [Dirs.add_ne hik, ht] at ht'
      exact Option.some.inj ht' ▸ rfl
  cases hc with
  | same => rw [Option.some.inj (ht.symm.trans ht')]
  | enter name v hu hnew => exact hadd (h _ _ hu) hu ht ht'
  | create name dir hu hnew hv => exact hadd (h _ _ hu) (update_new hu hv) (update_new ht hv) ht'
  | @leave k m v u name hu hslot hdot hdotdot =>
    by_cases hik : i = k
    · subst hik
      obtain rfl : u = t := Option.some.inj (hu.symm.trans ht)
      rw [Dirs.drop_self hu] at ht'
      have hlt := (List.getElem?_eq_some_iff.mp hslot).1
      exact Option.some.inj ht' ▸ put_first ((h i u hu).two_le hslot hdot hdotdot)
        (Nat.le_of_lt hlt) hj
    · rw [Dirs.drop_ne hik, ht] at ht'
      exact Option.some.inj ht' ▸ rfl

end

section

variable {sb : Fs.Superblock} {sys₀ sys sys' : Sys} {c : Nat → Nat} {k dp ip : Nat}

/-- What a section leaves. -/
structure Stepped (sb : Fs.Superblock) (sys sys' : Sys) : Prop where
  sound : Sound sb sys'
  dirs : ∃ D, Change (dirs sb sys.disk) D ∧ Became sb D sys'

theorem Mid.stepped (h : Mid sb sys sys' c (Names.dirs sb sys.disk)) : Stepped sb sys sys' :=
  ⟨h.sound, _, .same, .of_eq h.dirs⟩

theorem Mid.iput (h : Mid sb sys sys' c (Names.dirs sb sys.disk)) (hk : 0 < sys.iref k) :
    Post (fun _ => True) (Stepped sb sys) (Names.iput sb sys' k) := by
  obtain ⟨sys'', hput, hsound, hrel, -⟩ := h.sound.iput (h.pos hk)
  rw [hput]
  exact .ok ⟨hsound, _, .same, (Became.of_eq h.dirs).released hrel⟩

theorem Sound.lookupNext (h : Sound sb sys) (hdp : 0 < sys.iref dp) (name : Nat → UInt8) :
    Post (fun _ => True) (Stepped sb sys) (Names.lookupNext sb sys dp name) := by
  unfold Names.lookupNext
  refine Post.bind ((h.mid.ilock hdp).mono (fun _ _ => trivial) fun _ hq => hq) ?_
  rintro sys₁ ⟨hmid₁, -⟩
  refine .ite (fun _ => hmid₁.iput hdp) fun hdir => ?_
  refine Post.bind ((hmid₁.sound.dirlookup (not_not.mp hdir) name).mono (fun _ _ => trivial)
    fun _ hq => hq) ?_
  rintro ⟨r, sys₂⟩ (⟨heq, -⟩ | ⟨k, m, -, hmid₂, -⟩)
  · cases heq
    exact hmid₁.iput hdp
  · obtain ⟨sys₃, hput, hsound, hrel, -⟩ := hmid₂.sound.iput (hmid₂.pos (hmid₁.pos hdp))
    dsimp only
    rw [hput]
    refine .ok ⟨hsound, _, .same, (Became.of_eq ?_).released hrel⟩
    rw [hmid₂.dirs, hmid₁.dirs]

theorem Sound.addLink (h : Sound sb sys) (hip : 0 < sys.iref ip) :
    Post (fun _ => True) (Stepped sb sys) (Names.addLink sb sys ip) := by
  unfold Names.addLink
  refine Post.bind ((h.mid.ilock hip).mono (fun _ _ => trivial) fun _ hq => hq) ?_
  rintro sys₁ ⟨hmid₁, -, -, -, hal₁⟩
  exact .ite (fun _ => hmid₁.iput hip) fun _ =>
    .pure (hmid₁.update setsFields_incNlink hal₁).1.stepped

theorem Sound.linkBad (h : Sound sb sys) (hip : 0 < sys.iref ip) :
    Post (fun _ => True) (Stepped sb sys) (Names.linkBad sb sys ip) := by
  unfold Names.linkBad
  refine Post.bind ((h.mid.ilock hip).mono (fun _ _ => trivial) fun _ hq => hq) ?_
  rintro sys₁ ⟨hmid₁, -, -, -, hal₁⟩
  exact (hmid₁.update setsFields_decNlink hal₁).1.iput hip

theorem Sound.writeLocked {src : Nat → Option UInt8} {off n : Nat} (h : Sound sb sys)
    (hip : 0 < sys.iref ip) (hfile : typeOf sb sys ip ≠ T_DIR) (hoff : off < 2 ^ 32)
    (hn : n < 2 ^ 32) :
    Post (fun _ => True) (Stepped sb sys) (Names.writeLocked sb sys ip src off n) := by
  unfold Names.writeLocked
  refine Post.bind ((h.mid.ilock hip).mono (fun _ _ => trivial) fun _ hq => hq) ?_
  rintro sys₁ ⟨hmid₁, hdisk₁, hnum₁, -, hal₁⟩
  have hfile₁ : ¬ IsDir sb sys₁.disk (sys₁.inode ip).inum := by
    rw [hdisk₁, hnum₁]
    exact hfile
  have hwrite : Post _ _ (Fs.writei sb sys₁.disk (sys₁.inode ip).inum (sys₁.dinode sb ip)
      src off n) :=
    hmid₁.sound.dir.writei hal₁ hfile₁ hoff hn
  refine Post.bind (Post.mapError_iff.mpr
    (Post.mapError_iff.mpr (hwrite.mono (fun _ _ => trivial) fun _ hq => hq))) ?_
  rintro r ⟨hdir, hdirs, hlinks⟩
  exact .pure (hmid₁.setDisk hdir (fun i hi => hlinks.allocated hi)
    (hdirs.trans hmid₁.dirs)).stepped

theorem Sound.truncLocked (h : Sound sb sys) (hip : 0 < sys.iref ip)
    (hfile : typeOf sb sys ip ≠ T_DIR) :
    Post (fun _ => True) (Stepped sb sys) (Names.truncLocked sb sys ip) := by
  unfold Names.truncLocked
  refine Post.bind ((h.mid.ilock hip).mono (fun _ _ => trivial) fun _ hq => hq) ?_
  rintro sys₁ ⟨hmid₁, hdisk₁, hnum₁, -, hal₁⟩
  have hfile₁ : ¬ IsDir sb sys₁.disk (sys₁.inode ip).inum := by
    rw [hdisk₁, hnum₁]
    exact hfile
  obtain ⟨ip', d', hr, hdir, hdirs, hlinks⟩ := hmid₁.sound.dir.itrunc hal₁ hfile₁
  have hr' : fsys (Fs.itrunc sb sys₁.disk (sys₁.inode ip).inum (sys₁.dinode sb ip)) =
      .ok (ip', d') := by
    change fsys (Fs.itrunc sb sys₁.disk (sys₁.inode ip).inum
      ((sys₁.disk.view sb).inode (sys₁.inode ip).inum)) = _
    rw [hr]
    rfl
  exact .bind_of_ok hr'
    (.pure (hmid₁.setDisk hdir (fun i hi => hlinks.allocated hi) (hdirs.trans hmid₁.dirs)).stepped)

theorem ofExcept_sat {E : Panic → Prop} {Q : Sys → Prop} {x : Except Panic Sys} (h : Post E Q x) :
    Outcome.Sat E Q (ofExcept x) := by
  cases x with
  | ok sys => exact .next (h.of_ok rfl)
  | error f => exact .fault (h.of_error rfl)

theorem ofExcept_map_sat {α : Type} {E : Panic → Prop} {Q : Sys → Prop} {x : Except Panic α}
    {f : α → Sys} (h : Post E (fun a => Q (f a)) x) : Outcome.Sat E Q (ofExcept (x.map f)) := by
  cases x with
  | ok a => exact .next (h.of_ok rfl)
  | error e => exact .fault (h.of_error rfl)

theorem step_spec (hn : sb.ninodes ≤ 2 ^ 16) (h : Sound sb sys) (a : Action) :
    Outcome.Sat (fun _ => True) (Stepped sb sys) (step sb sys a) := by
  cases a with
  | root =>
    refine ofExcept_map_sat ((h.mid.iget (by decide) (by decide)).mono (fun _ _ => trivial) ?_)
    rintro r ⟨hmid, -⟩
    exact hmid.stepped
  | idup k =>
    refine .guard fun hk => .next ?_
    have hh := (Holding.refl h.table).idup hk
    rw [zero_add] at hh
    refine (h.mid.holding hh fun j hj => ?_).stepped
    rw [eq_of_only_pos hj, hh.inums k hk]
    exact h.nums k hk
  | lookup dp name => exact .guard fun hdp => ofExcept_sat (h.lookupNext hdp name)
  | ilock k =>
    exact .guard fun hk => ofExcept_sat
      ((h.mid.ilock hk).mono (fun _ _ => trivial) fun _ hq => hq.1.stepped)
  | iput k => exact .guard fun hk => ofExcept_sat (h.mid.iput hk)
  | create dp name type major minor =>
    refine .guard fun hen => ofExcept_map_sat ?_
    obtain ⟨hdp, hdir, htype⟩ := hen
    refine (h.createLocked hn hdp hdir htype (Nat.mod_lt _ (by decide))
      (Nat.mod_lt _ (by decide)) name).mono (fun _ _ => trivial) ?_
    rintro r ⟨hsound, ⟨-, -, hbecame⟩ | ⟨-, hnew, hv, hbecame⟩⟩
    · exact ⟨hsound, _, .same, hbecame⟩
    · have hc := Change.create (key name) (decide (type = T_DIR)) (dirs_slotsOf hdir) hnew hv
      simp only [decide_eq_true_eq] at hc
      exact ⟨hsound, _, hc, hbecame⟩
  | addLink ip => exact .guard fun hip => ofExcept_sat (h.addLink hip)
  | link dp name ip =>
    refine .guard fun hen => ofExcept_map_sat ?_
    obtain ⟨hdp, hdir, hip⟩ := hen
    refine (h.linkAt hdp hip hdir name).mono (fun _ _ => trivial) ?_
    rintro r ⟨hsound, ⟨-, -, hbecame⟩ | ⟨-, hnew, hbecame⟩⟩
    · exact ⟨hsound, _, .same, hbecame⟩
    · exact ⟨hsound, _, .enter _ _ (dirs_slotsOf hdir) hnew, hbecame⟩
  | linkBad ip => exact .guard fun hip => ofExcept_sat (h.linkBad hip)
  | unlink dp name =>
    refine .guard fun hen => ofExcept_map_sat ?_
    obtain ⟨hdp, hdir⟩ := hen
    refine (h.unlinkAt hdp hdir name).mono (fun _ _ => trivial) ?_
    rintro r ⟨hsound, ⟨-, -, hbecame⟩ | ⟨-, hdot, hdotdot, v, m, hslot, -, hbecame⟩⟩
    · exact ⟨hsound, _, .same, hbecame⟩
    · exact ⟨hsound, _, .leave (dirs_slotsOf hdir) hslot hdot hdotdot, hbecame⟩
  | write ip src off n =>
    refine .guard fun hen => ofExcept_sat ?_
    exact h.writeLocked hen.1 hen.2 (Nat.mod_lt _ (by decide)) (Nat.mod_lt _ (by decide))
  | trunc ip => exact .guard fun hen => ofExcept_sat (h.truncLocked hen.1 hen.2)

end

/-! ## Directories as maps -/

/-- What the directories bind: a map from names to inode numbers for each. -/
def maps (D : Dirs) (i : Nat) : Option (List UInt8 → Option Nat) := (D i).map Slots.lookup

def Leaves (sb : Fs.Superblock) (M : Nat → Option (List UInt8 → Option Nat)) (sys : Sys) : Prop :=
  ∀ i, maps (dirs sb sys.disk) i = M i ∨ dirs sb sys.disk i = none ∧ Dropped sb sys i

section

variable {D : Dirs} {i m v : Nat} {t : Slots (List UInt8) Nat} {name : List UInt8}

theorem Became.leaves {sb : Fs.Superblock} {sys : Sys} (h : Became sb D sys) :
    Leaves sb (maps D) sys := by
  intro i
  refine (h i).imp (fun heq => ?_) id
  unfold maps
  rw [heq]

end

section

variable {sb : Fs.Superblock} {sys : Sys} {dp : Nat}

/-- The directories are in order in every state. -/
structure Inv (sb : Fs.Superblock) (sys : Sys) : Prop where
  sound : Sound sb sys
  good : AllWellFormed (dirs sb sys.disk)
  inums : sb.ninodes ≤ 2 ^ 16

theorem Became.good {D : Dirs} (h : Became sb D sys) (hD : AllWellFormed D) :
    AllWellFormed (dirs sb sys.disk) := by
  intro i t ht
  rcases h i with heq | ⟨hnone, -⟩
  · exact hD i t (heq ▸ ht)
  · rw [hnone] at ht
    cases ht

theorem Consistent.inv (h : Consistent sb sys) : Inv sb sys := by
  have hunused : ∀ k, ¬ 0 < sys.iref k := fun k hk => Nat.ne_of_gt hk (h.unused k)
  refine ⟨⟨h.dir, ⟨fun k hk => absurd hk (hunused k), fun k _ hk => absurd hk (hunused k),
    fun k hk => absurd hk (hunused k)⟩, fun k hk => absurd hk (hunused k)⟩,
    fun i t ht => ?_, h.inums⟩
  obtain ⟨hdir, rfl⟩ := dirs_eq_some.mp ht
  exact h.good i hdir

theorem Inv.step {sys' : Sys} {a : Action} (h : Inv sb sys) (hs : step sb sys a = .next sys') :
    Inv sb sys' := by
  obtain ⟨hsound, D, hchange, hbecame⟩ := (step_spec h.inums h.sound a).of_next hs
  exact ⟨hsound, hbecame.good (h.good.change hchange), h.inums⟩

theorem reach_inv (h : Reach (step sb) (fun _ _ => True) (Consistent sb) sys) : Inv sb sys :=
  h.invariant (fun _ hs => hs.inv) fun _ _ _ hi _ hs => hi.step hs

end

/-! ## A full disk -/

/-- Five inode blocks, one bitmap block and one data block. -/
def crammedSb : Fs.Superblock := .layout 1 64 1 Nat.one_pos (by decide)

/-- The file with inode number `i` has a name of one letter. -/
def letter (i : Nat) : Nat → UInt8 := literal [.ofNat (63 + i)]

/-- A root directory with sixty-two files, in one block. -/
def crammedEntries : List UInt8 :=
  dots ROOTINO ROOTINO ++ (List.range' 2 62).flatMap fun i =>
    putDirent i (strncpy (letter i) DIRSIZ 0)

@[irreducible] def crammedDisk : Fs.Disk :=
  match Fs.writei crammedSb (emptyFiles crammedSb 62) ROOTINO
    (((emptyFiles crammedSb 62).view crammedSb).inode ROOTINO)
      (fun k => some (crammedEntries.getD k 0)) 0 (64 * direntSize) with
  | .ok (_, _, d) => d
  | .error _ => emptyFiles crammedSb 62

set_option maxRecDepth 100000 in
theorem crammedDisk_written : ∃ ip, Fs.writei crammedSb (emptyFiles crammedSb 62) ROOTINO
    (((emptyFiles crammedSb 62).view crammedSb).inode ROOTINO)
    (fun k => some (crammedEntries.getD k 0)) 0
      (64 * direntSize) = .ok (1024, ip, crammedDisk) := by
  have hok : (Fs.writei crammedSb (emptyFiles crammedSb 62) ROOTINO
      (((emptyFiles crammedSb 62).view crammedSb).inode ROOTINO)
        (fun k => some (crammedEntries.getD k 0)) 0
        (64 * direntSize)).toOption.map (fun r => r.1) = some 1024 := by
    decide +kernel
  unfold crammedDisk
  revert hok
  cases Fs.writei crammedSb (emptyFiles crammedSb 62) ROOTINO
      (((emptyFiles crammedSb 62).view crammedSb).inode ROOTINO)
        (fun k => some (crammedEntries.getD k 0)) 0 (64 * direntSize) with
  | error f => exact fun h => by cases h
  | ok r =>
    intro h
    obtain ⟨n, ip, d⟩ := r
    obtain rfl : n = 1024 := Option.some.inj h
    exact ⟨ip, rfl⟩

/-- The slots of the root directory. -/
def crammedSlots : Slots (List UInt8) Nat := some (dotKey, ROOTINO) :: some (dotdotKey, ROOTINO) ::
  (List.range' 2 62).map fun i => some ([.ofNat (63 + i)], i)

set_option maxRecDepth 100000 in
theorem slots_crammedEntries : slots crammedEntries = crammedSlots ∧ crammedEntries.length =
    64 * direntSize := by
  decide +kernel

set_option maxRecDepth 100000 in
theorem crammedSlots_wellFormed : WellFormed ROOTINO crammedSlots := by
  refine ⟨rfl, ⟨_, rfl⟩, Slots.distinct_of_pairwise ?_⟩
  decide +kernel

theorem crammedDisk_dirInv : DirInv crammedSb crammedDisk ∧
    ∀ i, IsDir crammedSb crammedDisk i → i = ROOTINO ∧ dirSlots crammedSb crammedDisk i =
    crammedSlots := by
  obtain ⟨ip, hr⟩ := crammedDisk_written
  obtain ⟨halloc, hclean, hother, -, -, hcontents⟩ :=
    written_root (by decide) (by decide) slots_crammedEntries.2 hr
  have hroot : ∀ i, IsDir crammedSb crammedDisk i → i = ROOTINO := by
    intro i hi
    by_contra hne
    unfold IsDir at hi
    rw [hother i hne] at hi
    exact hne (emptyInode_dir hi)
  refine ⟨⟨⟨halloc, hclean⟩, fun i hi => ?_⟩, fun i hi => ⟨hroot i hi, ?_⟩⟩
  · rw [hroot i hi]
    unfold WholeAt Whole
    rw [hcontents, slots_crammedEntries.2]
    rfl
  · rw [hroot i hi]
    unfold dirSlots
    rw [hcontents, slots_crammedEntries.1]

def crammedStart : Sys := Sys.start ⟨[], fun _ => Bytes.zero⟩ crammedDisk

theorem crammedStart_consistent : Consistent crammedSb crammedStart := by
  obtain ⟨hdir, hslots⟩ := crammedDisk_dirInv
  refine ⟨hdir, fun i hi => ?_, by decide, fun _ => rfl⟩
  obtain ⟨hroot, hslots⟩ := hslots i hi
  change WellFormed i (dirSlots crammedSb crammedDisk i)
  rw [hslots, hroot]
  exact crammedSlots_wellFormed

/-- In every state that processes reach from a consistent image, the entries of the inode table that
are in use lie in the table, no two of them are copies of the same inode, and a copy that was read
is of an allocated inode. -/
theorem inode_has_one_table_entry (sb : Fs.Superblock) (sys : Sys)
    (hreach : Reach (step sb) (fun _ _ => True) (Consistent sb) sys) (k : Nat)
    (hk : 0 < sys.iref k) : k < NINODE ∧ 0 < (sys.inode k).inum ∧
    (∀ k', 0 < sys.iref k' → (sys.inode k').inum = (sys.inode k).inum → k' = k) ∧
    ((sys.inode k).valid = true → (sys.disk.view sb).Allocated sb (sys.inode k).inum) := by
  have hsound := (reach_inv hreach).sound
  exact ⟨hsound.table.range k hk, (hsound.nums k hk).1, fun k' hk' => hsound.table.uniq k' k hk' hk,
    hsound.table.valid k hk⟩

/-- A path starts at the root directory and looks up `A`, inode 2. -/
def crammedLookup : List Action := [.root, .idup 0, .lookup 0 (literal [65])]

theorem inode_has_one_table_entry_crammed :
    ∃ sys, Lib.exec (step crammedSb) crammedStart crammedLookup = .next sys ∧
    0 < sys.iref 0 ∧ 0 < sys.iref 1 ∧ (sys.disk.view crammedSb).Allocated crammedSb
    (sys.inode 0).inum ∧ (sys.inode 0).inum ≠ (sys.inode 1).inum := by
  have hrun : (Lib.exec (step crammedSb) crammedStart crammedLookup).next?.map
      (fun sys => (sys.iref 0, sys.iref 1, (sys.inode 0).valid)) = some (1, 1, true) := by
    decide +kernel
  obtain ⟨sys, hsys, heq⟩ := Option.map_eq_some_iff.mp hrun
  simp only [Prod.mk.injEq] at heq
  obtain ⟨h0, h1, hvalid⟩ := heq
  have hexec := Outcome.next?_eq_some.mp hsys
  have h0 : 0 < sys.iref 0 := by rw [h0]; decide
  have h1 : 0 < sys.iref 1 := by rw [h1]; decide
  have hreach : Reach (step crammedSb) (fun _ _ => True) (Consistent crammedSb) sys :=
    Reach.of_exec (.start crammedStart_consistent)
      (Guarded.of_forall (fun _ _ => trivial) _ _) hexec
  obtain ⟨-, -, huniq, halloc⟩ := inode_has_one_table_entry crammedSb sys hreach 0 h0
  exact ⟨sys, hexec, h0, h1, halloc hvalid, fun heq => absurd (huniq 1 h1 heq.symm) (by decide)⟩

end Xv6.Names
