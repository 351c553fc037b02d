import Xv6.Kernel.Accounts

/-! # The accounts of `open` and `pipe`

The first part of each call takes fresh files, which no table shows. The second part
opens them and enters them in `ofile`, or gives them back.
-/

namespace Xv6.Kernel

open Function Lib Vm

section

variable {sb : Fs.Superblock} {h h' c c' a b : Nat → Nat} {sys sys' : Sys} {p p' : Proc} {f k : Nat}

/-! ## What a call in progress adds -/

theorem visible_hold (hheld : p.held = .nothing) (x : Held) :
    ({ p with held := x } : Proc).visible = p.visible + x.piped := by
  have hfds : ({ p with held := x } : Proc).fds = p.fds := fds_congr rfl
  have hmaps : ({ p with held := x } : Proc).maps = p.maps := maps_congr rfl
  simp only [Proc.visible, hfds, hmaps, hheld, Held.piped, add_zero]

theorem holds_hold (hheld : p.held = .nothing) (x : Held) :
    ({ p with held := x } : Proc).holds = p.holds + (x.piped + x.fresh) := by
  rw [holds_of_nothing hheld, ← add_assoc, ← visible_hold hheld]
  rfl

theorem holds_opening (hheld : p.held = .nothing) (f k : Nat) (omode : BitVec 32) :
    ({ p with held := .opening f k omode } : Proc).holds = p.holds + only f := by
  rw [holds_hold hheld]
  simp only [Held.piped, Held.fresh, zero_add]

theorem holds_piping (hheld : p.held = .nothing) (rf wf : Nat) :
    ({ p with held := .piping rf wf } : Proc).holds = p.holds + (only rf + only wf) := by
  rw [holds_hold hheld]
  simp only [Held.piped, Held.fresh, add_zero]

theorem inodes_hold (hheld : p.held = .nothing) (x : Held) :
    ({ p with held := x } : Proc).inodes = p.inodes + x.inode := by
  simp only [Proc.inodes, hheld, Held.inode, add_zero]

/-- A process in the middle of a call is one outside it, with the call added. -/
theorem eq_hold {x : Held} (hheld : p.held = x) :
    p = { ({ p with held := .nothing } : Proc) with held := x } := by
  cases p
  cases hheld
  rfl

theorem Pre.zero (hp : Pre sb h c sys) : Pre sb 0 0 sys :=
  ⟨hp.inv, fun _ => Nat.zero_le _, fun k => Nat.le_of_add_right_le (hp.inodes k)⟩

theorem CallPost.of_called (hc : Called sb h h' c c' sys sys') (hh : p.holds = a + h)
    (hh' : p'.holds = a + h') (hi : p.inodes = b + c) (hi' : p'.inodes = b + c')
    (hroom : ∀ g, 0 < p.visible g → h g < sys.ref g) (htidy : Tidy sys' p')
    (hstate : p'.state = p.state) (hcwd : p'.cwd = p.cwd) : CallPost sb sys p sys' p' := by
  refine ⟨?_, fun g hg _ => hc.keep g (hroom g hg), htidy, hstate, by rw [hcwd]⟩
  rw [hh, hh', hi, hi']
  exact hc.frame a b

theorem Called.opened (hc : Called sb h h' c c' sys sys') (ht : Tidy sys p)
    (hroom : ∀ g, 0 < p.visible g → h g < sys.ref g) {g : Nat} (hg : 0 < p.visible g) :
    (sys'.file g).type ≠ .none := by
  rw [File.type_core (hc.keep g (hroom g hg))]
  exact ht.opened g hg

theorem ref_pos_of_visible (hp : Pre sb p.holds c sys) {g : Nat} (hg : 0 < p.visible g) :
    0 < sys.ref g :=
  Nat.lt_of_lt_of_le hg ((visible_le_holds p g).trans (hp.files g))

/-! ## `open` -/

theorem openAlloc_post {inum : Nat} {omode : BitVec 32} (hp : Pre sb p.holds p.inodes sys)
    (ht : Tidy sys p) (hheld : p.held = .nothing) (hname : (sys.disk.view sb).Allocated sb inum) :
    Post Panic.Tame (fun r => CallPost sb sys p r.1 r.2) (openAlloc sb sys p inum omode) := by
  unfold openAlloc
  refine (iget_tame hp hname).bind ?_
  rintro ⟨k, sys₁⟩ ⟨ha₁, hk⟩
  obtain ⟨sys₂, hr, ha₂, -⟩ := @ilock_acct sb p.holds (p.inodes + only k) sys₁ k ha₁.inv hk
  have ha := ha₁.trans ha₂
  have hreject : Post Panic.Tame (fun r => CallPost sb sys p r.1 r.2)
      (iput sb sys₂ k >>= fun sys => pure (sys, p)) := by
    obtain ⟨sys₃, hr₃, ha₃, -⟩ := iput_acct (ha.pre hp)
    exact Post.bind_of_ok hr₃ (.pure (.quiet hp ht hheld (ha.trans ha₃) ⟨rfl, rfl, rfl, rfl, rfl⟩))
  refine Post.bind_of_ok hr (Post.ite (fun _ => hreject) fun _ => ?_)
  split
  · exact hreject
  · rename_i f sys₃ hfa
    obtain ⟨hlt, href, rfl⟩ := filealloc_some hfa
    have hsame : ∀ g, 0 < p.visible g → ((sys₂.take f).file g).core = (sys.file g).core := by
      intro g hg
      have hpos := ref_pos_of_visible (ha.pre hp) hg
      have hgf : g ≠ f := fun h0 => by
        rw [h0, href] at hpos
        exact Nat.lt_irrefl 0 hpos
      rw [file_take_ne sys₂ hgf]
      exact (ha.keep g hpos).2
    have hvis := visible_hold hheld (.opening f k omode)
    have hholds := holds_opening hheld f k omode
    have hinodes := inodes_hold hheld (.opening f k omode)
    refine .pure ⟨?_, fun g hg _ => hsame g hg, ⟨fun f' k' om heq => ?_, fun g hg => ?_⟩, rfl, rfl⟩
    · rw [hholds, hinodes]
      exact ha.called.trans (.take ha.inv hlt href)
    · cases heq
      rw [Sys.ref, type_take, file_take_self]
      exact ⟨rfl, ha.inv.untyped f href⟩
    · rw [hvis] at hg
      rw [File.type_core (hsame g hg)]
      exact ht.opened g hg

theorem openedFile_keeps (ip : Fs.Dinode) (k : Nat) (omode : BitVec 32) (x : File) :
    (openedFile ip k omode x).keeps = some k ∧ (openedFile ip k omode x).type ≠ .none ∧
      (openedFile ip k omode x).ip = some k := by
  unfold openedFile File.keeps
  dsimp only
  split <;> simp

theorem openedFile_same (ip : Fs.Dinode) (k : Nat) (omode : BitVec 32) {x : File}
    (hoff : x.off < 2 ^ 32) :
    (openedFile ip k omode x).ref = x.ref ∧ (openedFile ip k omode x).serial = x.serial ∧
      (openedFile ip k omode x).off < 2 ^ 32 := by
  unfold openedFile
  dsimp only
  split
  · exact ⟨rfl, rfl, hoff⟩
  · exact ⟨rfl, rfl, Nat.two_pow_pos 32⟩

theorem openFinish_post {omode : BitVec 32} (hp : Pre sb p.holds p.inodes sys) (ht : Tidy sys p)
    (hheld : p.held = .opening f k omode) :
    Post Panic.Tame (fun r => CallPost sb sys p r.1 r.2) (openFinish sb sys p f k omode) := by
  obtain ⟨href, hnone⟩ := ht.opening f k omode hheld
  obtain ⟨q, hq, hqp⟩ : ∃ q : Proc, q.held = .nothing ∧ q = { p with held := .nothing } :=
    ⟨_, rfl, rfl⟩
  have hpq : p = { q with held := .opening f k omode } := hqp ▸ eq_hold hheld
  have hvis : p.visible = q.visible := by
    rw [hpq]
    exact visible_hold hq _
  have hholds : p.holds = q.visible + only f := by
    rw [hpq, holds_opening hq, holds_of_nothing hq]
  have hinodes : p.inodes = q.inodes + only k := by
    rw [hpq]
    exact inodes_hold hq _
  unfold openFinish
  rw [← hqp]
  dsimp only
  rw [hholds, hinodes] at hp
  split
  · obtain ⟨sys₁, hr₁, ha₁⟩ := fileclose_acct hp
    obtain ⟨sys₂, hr₂, ha₂, -⟩ := iput_acct (ha₁.pre hp)
    refine Post.bind_of_ok hr₁ (Post.bind_of_ok hr₂
      (.pure (.of_acct (hholds ▸ hinodes ▸ hp) ht ?_ hq ?_ ?_ ?_)))
    · rw [hholds, hinodes, holds_of_nothing hq]
      exact ha₁.trans ha₂
    · intro g hg
      rwa [hvis]
    · rw [hqp]
    · rw [hqp]
  · rename_i fd p' hnew
    obtain ⟨hlt, hfree, rfl⟩ := fdalloc_some hnew
    have hvis' := visible_open hlt hfree f
    have hheld' : (q.setOfile fd (some f)).held = .nothing := hq
    obtain ⟨hkeeps, hty, hip⟩ := openedFile_keeps (sys.dinode sb k) k omode (sys.file f)
    obtain ⟨hxref, hserial, hoff⟩ := openedFile_same (sys.dinode sb k) k omode (hp.inv.off_lt f)
    generalize openedFile (sys.dinode sb k) k omode (sys.file f) = x at *
    have hself : only f f = 1 := only_self f
    have hc : Called sb (only f) (only f) (only k) 0 sys (sys.install f x) := by
      refine .install hp.inv href (by omega) hnone hxref hty hserial hoff
        (fun _ => by simp [hip]) fun j => ?_
      rw [hkeeps, some_eq_ite]
      exact (Nat.zero_add _).symm
    have hdone : ∀ sys', Called sb (only f) (only f) 0 0 (sys.install f x) sys' →
        (sys'.file f).type ≠ .none → CallPost sb sys p sys' (q.setOfile fd (some f)) := by
      intro sys' hc' hty'
      have hall := hc.trans hc'
      have hroom : ∀ g, 0 < p.visible g → only f g < sys.ref g := by
        intro g hg
        have hgty := ht.opened g hg
        have hgf : g ≠ f := fun h0 => hgty (by rw [h0, hnone])
        rw [only_ne hgf]
        exact hp.inv.typed_pos hgty
      refine .of_called hall hholds ?_ hinodes ?_ hroom ⟨fun _ _ _ h => ?_, fun g hg => ?_⟩ ?_ ?_
      · rw [holds_of_nothing hheld', hvis']
      · rw [inodes_setOfile, add_zero]
      · rw [hheld'] at h
        cases h
      · by_cases hgf : g = f
        · rw [hgf]
          exact hty'
        · rw [hvis', Pi.add_apply, only_ne hgf, ← hvis] at hg
          exact hall.opened ht hroom hg
      · rw [hqp]
        rfl
      · rw [hqp]
        rfl
    have hxtype : ((sys.install f x).file f).type ≠ .none := by rwa [file_install_self]
    refine Post.ite (fun _ => ?_) fun _ => .pure (hdone _ (Acct.refl hc.inv).called hxtype)
    have hk : 0 < sys.iref k := by
      have := hp.inodes k
      simp only [Pi.add_apply, only_self] at this
      omega
    obtain ⟨d, hd, hfs, hinode, -⟩ := hp.inv.fs.itrunc (hp.inv.ialloc k hk)
    have hinv' : SysInv sb { sys.install f x with disk := d } := by
      refine hc.inv.setDisk_of_type hfs fun j => ?_
      rw [hinode]
      by_cases hj : j = (sys.inode k).inum
      · rw [hj, update_self]
        rfl
      · rw [update_of_ne hj]
        rfl
    have ha : Acct sb (only f) (only f) 0 0 (sys.install f x) { sys.install f x with disk := d } :=
      .of_file_eq hinv' rfl fun _ => rfl
    exact Post.bind_of_ok (a := (_, d)) (congrArg (Except.mapError Panic.fs) hd)
      (.pure (hdone _ ha.called hxtype))

/-! ## `pipe` -/

theorem Called.install_pipe (hinv : SysInv sb sys) (hf : sys.ref f = 1) (hh : 0 < h f)
    (hnone : (sys.file f).type = .none) (readable writable : Bool) (pi : Nat) :
    Called sb h h c c sys (sys.install f
      { sys.file f with type := .pipe, readable := readable, writable := writable, pipe := pi })
      := by
  refine .install hinv hf hh hnone rfl (by simp) rfl (hinv.off_lt f) (by simp) fun k => ?_
  simp [File.keeps]

theorem Called.install_pipes {f0 f1 : Nat} {x0 x1 : File} (hinv : SysInv sb sys) (hne : f0 ≠ f1)
    (h0 : sys.ref f0 = 1 ∧ (sys.file f0).type = .none)
    (h1 : sys.ref f1 = 1 ∧ (sys.file f1).type = .none) (pi : Nat)
    (hx0 : x0 = { sys.file f0 with type := .pipe, readable := true, writable := false, pipe := pi })
    (hx1 : x1 = { (sys.install f0 x0).file f1 with
      type := .pipe, readable := false, writable := true, pipe := pi }) :
    Called sb (only f0 + only f1) (only f0 + only f1) c c sys ((sys.install f0 x0).install f1 x1) ∧
      (((sys.install f0 x0).install f1 x1).file f0).type = .pipe ∧
      (((sys.install f0 x0).install f1 x1).file f1).type = .pipe := by
  have hself0 : (only f0 + only f1) f0 = 1 := by
    rw [Pi.add_apply, only_self, only_ne hne]
  have hself1 : (only f0 + only f1) f1 = 1 := by
    rw [Pi.add_apply, only_self, only_ne hne.symm]
  have hc0 : Called sb (only f0 + only f1) (only f0 + only f1) c c sys (sys.install f0 x0) := by
    rw [hx0]
    exact .install_pipe hinv h0.1 (by omega) h0.2 true false pi
  have hkeep : (sys.install f0 x0).file f1 = sys.file f1 := file_install_ne _ _ hne.symm
  refine ⟨hc0.trans ?_, ?_, ?_⟩
  · rw [hx1]
    refine .install_pipe hc0.inv ?_ (by omega) ?_ false true pi
    · rw [Sys.ref, hkeep]
      exact h1.1
    · rw [hkeep]
      exact h1.2
  · rw [file_install_ne _ _ hne, file_install_self, hx0]
  · rw [file_install_self, hx1]

theorem pipeAlloc_post (hp : Pre sb p.holds p.inodes sys) (ht : Tidy sys p)
    (hheld : p.held = .nothing) :
    Post Panic.Tame (fun r => CallPost sb sys p r.1 r.2) (pipeAlloc sb sys p) := by
  have hroom : ∀ g, 0 < p.visible g → (0 : Nat → Nat) g < sys.ref g :=
    fun g => ref_pos_of_visible hp
  have hback : ∀ sys', Called sb 0 0 0 0 sys sys' → CallPost sb sys p sys' p := fun sys' hc =>
    .of_called hc (add_zero _).symm (add_zero _).symm (add_zero _).symm (add_zero _).symm hroom
      ⟨fun _ _ _ h => (by rw [hheld] at h; cases h), fun g => hc.opened ht hroom⟩ rfl rfl
  unfold pipeAlloc
  split
  · exact .ok (.refl hp ht hheld)
  · rename_i f0 sys₁ hfa₀
    obtain ⟨hlt₀, href₀, rfl⟩ := filealloc_some hfa₀
    have hc₀ : Called sb 0 (0 + only f0) 0 0 sys (sys.take f0) := .take hp.inv hlt₀ href₀
    split
    · obtain ⟨sys₂, hr₂, ha₂⟩ := fileclose_acct (hc₀.pre hp.zero)
      exact Post.bind_of_ok hr₂ (.pure (hback _ (hc₀.trans ha₂.called)))
    · rename_i f1 sys₂ hfa₁
      obtain ⟨hlt₁, href₁, rfl⟩ := filealloc_some hfa₁
      have hc₁ : Called sb 0 (0 + only f0 + only f1) 0 0 sys ((sys.take f0).take f1) :=
        hc₀.trans (.take hc₀.inv hlt₁ href₁)
      have hp₁ := hc₁.pre hp.zero
      split
      · rw [add_right_comm] at hp₁ hc₁
        obtain ⟨sys₃, hr₃, ha₃⟩ := fileclose_acct hp₁
        obtain ⟨sys₄, hr₄, ha₄⟩ := fileclose_acct (ha₃.pre hp₁)
        exact Post.bind_of_ok hr₃ (Post.bind_of_ok hr₄
          (.pure (hback _ ((hc₁.trans ha₃.called).trans ha₄.called))))
      · rename_i pi km hkalloc
        rw [zero_add] at hc₁ hp₁
        have hne : f0 ≠ f1 := by
          rintro rfl
          rw [Sys.ref, file_take_self] at href₁
          cases href₁
        have hfile₀ : (((sys.take f0).take f1).file f0).ref = 1 ∧
            (((sys.take f0).take f1).file f0).type = .none := by
          rw [type_take, type_take, file_take_ne _ hne, file_take_self]
          exact ⟨rfl, hp.inv.untyped f0 href₀⟩
        have hfile₁ : (((sys.take f0).take f1).file f1).ref = 1 ∧
            (((sys.take f0).take f1).file f1).type = .none := by
          refine ⟨by rw [file_take_self], ?_⟩
          rw [type_take]
          exact hc₀.inv.untyped f1 href₁
        generalize hs : { (sys.take f0).take f1 with
          km := km, pipe := update ((sys.take f0).take f1).pipe pi ⟨true, true⟩ } = s
        have hfile : s.file = ((sys.take f0).take f1).file := by rw [← hs]
        have hc₂ : Called sb 0 (only f0 + only f1) 0 0 sys s := by
          refine hc₁.trans (Acct.called ?_)
          rw [← hs]
          exact .of_file_eq { hc₁.inv with fs := hc₁.inv.fs } rfl fun _ => rfl
        rw [← hfile] at hfile₀ hfile₁
        obtain ⟨hc₃, hty₀, hty₁⟩ :=
          @Called.install_pipes sb 0 s f0 f1 _ _ hc₂.inv hne hfile₀ hfile₁ pi rfl rfl
        have hc := hc₂.trans hc₃
        have hvis := visible_hold hheld (.piping f0 f1)
        have hholds := holds_piping hheld f0 f1
        have hinodes := inodes_hold hheld (.piping f0 f1)
        refine .ok (.of_called hc (add_zero _).symm hholds (add_zero _).symm hinodes hroom
          ⟨fun _ _ _ h => (by cases h), fun g hg => ?_⟩ rfl rfl)
        rw [hvis] at hg
        by_cases hg0 : g = f0
        · rw [hg0, hty₀]
          decide
        · by_cases hg1 : g = f1
          · rw [hg1, hty₁]
            decide
          · simp only [Held.piped, Pi.add_apply, only_ne hg0, only_ne hg1, add_zero] at hg
            exact hc.opened ht hroom hg

theorem fileclose_both {rf wf : Nat} (hp : Pre sb (h + (only rf + only wf)) c sys) :
    ∃ sys₁ sys₂, fileclose sb sys rf = .ok sys₁ ∧ fileclose sb sys₁ wf = .ok sys₂ ∧
      Acct sb (h + (only rf + only wf)) h c c sys sys₂ := by
  rw [add_comm (only rf), ← add_assoc] at hp ⊢
  obtain ⟨sys₁, hr₁, ha₁⟩ := fileclose_acct hp
  obtain ⟨sys₂, hr₂, ha₂⟩ := fileclose_acct (ha₁.pre hp)
  exact ⟨sys₁, sys₂, hr₁, hr₂, ha₁.trans ha₂⟩

theorem pipeFinish_post {rf wf fdarray : Nat} (hp : Pre sb p.holds p.inodes sys) (ht : Tidy sys p)
    (hheld : p.held = .piping rf wf) :
    Post Panic.Tame (fun r => CallPost sb sys p r.2.1 r.2.2)
    (pipeFinish sb sys p rf wf fdarray) := by
  obtain ⟨q, hq, hqp⟩ : ∃ q : Proc, q.held = .nothing ∧ q = { p with held := .nothing } :=
    ⟨_, rfl, rfl⟩
  have hpq : p = { q with held := .piping rf wf } := hqp ▸ eq_hold hheld
  have hvis : p.visible = q.visible + (only rf + only wf) := by
    rw [hpq]
    exact visible_hold hq _
  have hholds : p.holds = q.visible + (only rf + only wf) := by
    rw [hpq, holds_piping hq, holds_of_nothing hq]
  have hinodes : p.inodes = q.inodes := by
    rw [hpq]
    exact inodes_hold hq _
  -- whatever the two entries of `ofile` were set to, they are clear again
  have hfail : ∀ km q', SameTables q q' → Post Panic.Tame (fun r => CallPost sb sys p r.2.1 r.2.2)
        (fileclose sb { sys with km := km } rf >>= fun sys => fileclose sb sys wf >>= fun sys =>
          pure (false, sys, q')) := by
    intro km q' hsame
    have ha₀ : Acct sb p.holds p.holds p.inodes p.inodes sys { sys with km := km } :=
      .setKm hp.inv km
    have hvis' : q'.visible = q.visible := visible_congr hsame.ofile hsame.vma hsame.held
    have hp₀ := ha₀.pre hp
    rw [hholds] at hp₀
    obtain ⟨sys₁, sys₂, hr₁, hr₂, ha⟩ := fileclose_both hp₀
    rw [← hholds] at ha
    refine Post.bind_of_ok hr₁
      (Post.bind_of_ok hr₂ (.pure (.of_acct hp ht ?_ (hsame.held.trans hq) ?_ ?_ ?_)))
    · rw [holds_of_nothing (hsame.held.trans hq), hvis', inodes_congr hsame.cwd hsame.held,
        ← hinodes]
      exact ha₀.trans ha
    · intro g hg
      rw [hvis'] at hg
      rw [hvis, Pi.add_apply]
      omega
    · rw [hsame.state, hqp]
    · rw [hsame.cwd, hqp]
  unfold pipeFinish
  rw [← hqp]
  dsimp only
  split
  · exact hfail sys.km q ⟨rfl, rfl, rfl, rfl, rfl⟩
  · rename_i fd0 p0 hnew₀
    obtain ⟨hlt₀, hfree₀, rfl⟩ := fdalloc_some hnew₀
    have hclear : ((q.setOfile fd0 (some rf)).setOfile fd0 none).ofile = q.ofile := by
      simp only [Proc.setOfile, update_idem]
      rw [← hfree₀, update_eq_self]
    split
    · exact hfail sys.km _ ⟨hclear, rfl, rfl, rfl, rfl⟩
    · rename_i fd1 p1 hnew₁
      obtain ⟨hlt₁, hfree₁, rfl⟩ := fdalloc_some hnew₁
      have hne : fd0 ≠ fd1 := by
        rintro rfl
        simp [Proc.setOfile] at hfree₁
      split
      · rename_i km hcopy
        have hopen : ((q.setOfile fd0 (some rf)).setOfile fd1 (some wf)).visible = p.visible := by
          rw [visible_open hlt₁ hfree₁, visible_open hlt₀ hfree₀, hvis, add_assoc]
        have hheld' : ((q.setOfile fd0 (some rf)).setOfile fd1 (some wf)).held = .nothing := hq
        refine .pure (.of_acct hp ht ?_ hq (fun g hg => ?_) ?_ ?_)
        · rw [holds_of_nothing hheld', hopen, inodes_setOfile, inodes_setOfile, ← hinodes,
            hvis, ← hholds]
          exact .setKm hp.inv km
        · rwa [hopen] at hg
        · rw [hqp]
          rfl
        · rw [hqp]
          rfl
      · rename_i km hcopy
        refine hfail km _ ⟨?_, rfl, rfl, rfl, rfl⟩
        have hlast : q.ofile fd1 = none := by
          simpa [Proc.setOfile, update_of_ne hne.symm] using hfree₁
        funext fd
        simp only [Proc.setOfile, update_apply]
        split_ifs with h1 h0
        · rw [h1, hlast]
        · rw [h0, hfree₀]
        · rfl

end

end Xv6.Kernel
