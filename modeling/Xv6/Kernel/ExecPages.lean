import Xv6.Kernel.ProcPages

/-! # Pages during `exec`

`exec` builds the new address space next to the old one and frees one of the two. Until
then the pages of the new one, together with the free pages, are those that were free
before the call.
-/

namespace Xv6.Kernel

open Lib Vm

structure Loaded (P : Nat → Nat) (im : Image) : Prop where
  pages : ∀ q, Vm.pages im.km im.pagetable q = P q
  mem : UserMem im.pagetable.leaf (npages im.sz)

section

variable {ram : List Nat} {P : Nat → Nat} {sb : Fs.Superblock} {sys sys' : Sys} {im im' : Image}
    {km km' : Kmem}
  {pt : PageTable} {ip : Fs.Dinode} {p : Proc} {k : Nat}

theorem pages_of_free {q : Nat} (h : km'.free = km.free) :
    Vm.pages km' pt q = Vm.pages km pt q := by
  unfold Vm.pages
  rw [h]

theorem Loaded.congr (h : Loaded P im) (hfree : im'.km.free = im.km.free)
    (hpt : im'.pagetable = im.pagetable) (hsz : im'.sz = im.sz) : Loaded P im' := by
  refine ⟨fun q => ?_, ?_⟩
  · rw [pages_of_free hfree, hpt]
    exact h.pages q
  · rw [hpt, hsz]
    exact h.mem

theorem Loaded.fits (h : Loaded P im) (hnodup : ram.Nodup) (hlen : ram.length ≤ RAMPAGES)
    (hP : ∀ q, P q ≤ ram.count q) : Fits ram im.km im.pagetable :=
  ⟨hnodup, hlen, fun q => by rw [h.pages q]; exact hP q⟩

/-! ## Loading the program -/

theorem loadseg_free {va offset sz : Nat} {disk : Fs.Disk} (n i : Nat) : Post (fun _ => True)
    (fun r => r.2.1.free = km.free) (loadseg sb pt ip va offset sz n i km disk) := by
  induction n generalizing i km disk with
  | zero => exact .ok rfl
  | succ n ih =>
    unfold loadseg
    split
    · exact .error trivial
    · refine (Post.any (fun _ => trivial) _).bind ?_
      rintro ⟨bytes, disk'⟩ _
      cases bytes with
      | none => exact .pure rfl
      | some bs => exact (ih _).imp fun r hr => hr

theorem loadHeader_pages {off : Nat} (hnodup : ram.Nodup) (hlen : ram.length ≤ RAMPAGES)
    (hP : ∀ q, P q ≤ ram.count q) (h : Loaded P im) :
    Post (fun _ => True) (fun r => Loaded P r.2) (loadHeader sb ip off im) := by
  unfold loadHeader
  refine (Post.any (fun _ => trivial) _).bind ?_
  rintro ⟨bytes, disk⟩ _
  cases bytes with
  | none => exact .pure (h.congr rfl rfl rfl)
  | some bs =>
    dsimp only
    refine Post.ite (fun _ => Post.pure (h.congr rfl rfl rfl)) fun _ => ?_
    refine Post.ite (fun _ => Post.pure (h.congr rfl rfl rfl)) fun _ => ?_
    refine Post.ite (fun _ => Post.pure (h.congr rfl rfl rfl)) fun _ => ?_
    refine (Post.mapError_iff.mpr (uvmalloc_pages (h.fits hnodup hlen hP) h.mem)).bind ?_
    rintro ⟨sz1, km₁, pt₁⟩ ⟨hp, hzero, hmem⟩
    dsimp only at hp hzero hmem
    have hp' : ∀ q, Vm.pages km₁ pt₁ q = P q := fun q => (hp q).trans (h.pages q)
    apply Post.ite
    · intro hsz
      refine .pure ⟨hp', ?_⟩
      dsimp only
      rw [hzero hsz]
      exact h.mem
    · intro hsz
      have hloaded : Loaded P ⟨km₁, disk, pt₁, sz1⟩ := ⟨hp', hmem hsz⟩
      refine Post.ite (fun _ => Post.pure (hloaded.congr rfl rfl rfl)) fun _ => ?_
      refine (loadseg_free _ _).bind ?_
      rintro ⟨ok, km₂, disk₂⟩ hfree
      exact .pure (hloaded.congr hfree rfl rfl)

theorem loadHeaders_pages (hnodup : ram.Nodup) (hlen : ram.length ≤ RAMPAGES)
    (hP : ∀ q, P q ≤ ram.count q) (h : Loaded P im) (n off : Nat) :
    Post (fun _ => True) (fun r => Loaded P r.2) (loadHeaders sb ip n off im) := by
  induction n generalizing off im with
  | zero => exact .ok h
  | succ n ih =>
    unfold loadHeaders
    refine (loadHeader_pages hnodup hlen hP h).bind ?_
    rintro ⟨ok, im₁⟩ h₁
    cases ok with
    | false => exact .pure h₁
    | true => exact ih h₁ _

/-! ## The stack -/

theorem pushArg_free {stackbase sp : Nat} {s : List UInt8} :
    (pushArg pt stackbase s km sp).2.free = km.free := by
  unfold pushArg
  dsimp only
  split
  · rfl
  · split
    · rename_i km₁ hout
      rw [← copyout_free pt km ((sp - s.length) / 16 * 16) s, hout]
    · rename_i km₁ hout
      rw [← copyout_free pt km ((sp - s.length) / 16 * 16) s, hout]

theorem pushArgs_free {stackbase sp : Nat} {argv : List (List UInt8)} {ustack : List Nat} :
    (pushArgs pt stackbase argv ustack km sp).2.free = km.free := by
  induction argv generalizing ustack km sp with
  | nil => rfl
  | cons s argv ih =>
    unfold pushArgs
    split
    · rfl
    · have hfree : (pushArg pt stackbase (s ++ [0]) km sp).2.free = km.free := pushArg_free
      split
      · rename_i km₁ hpush
        rw [hpush] at hfree
        exact hfree
      · rename_i sp₁ km₁ hpush
        rw [hpush] at hfree
        rw [ih]
        exact hfree

theorem Loaded.pushed {stackbase sp sz : Nat} {s : List UInt8} {disk : Fs.Disk}
    (h : Loaded P ⟨km, disk, pt, sz⟩) (hfree : km'.free = km.free) :
    Loaded P ⟨(pushArg pt stackbase s km' sp).2, disk, pt, sz⟩ :=
  h.congr (pushArg_free.trans hfree) rfl rfl

theorem setupStack_pages {argv : List (List UInt8)} (hnodup : ram.Nodup)
    (hlen : ram.length ≤ RAMPAGES) (hP : ∀ q, P q ≤ ram.count q) (h : Loaded P im) :
    Post (fun _ => True) (fun r => Loaded P r.2) (setupStack im argv) := by
  have hle := (h.fits hnodup hlen hP).image_le h.mem
  have hround : npages (PGROUNDUP im.sz) = npages im.sz := by
    have hsz : im.sz ≤ 2 ^ 63 := by
      simp only [npages, RAMPAGES, PGSIZE] at hle
      omega
    rw [PGROUNDUP_eq hsz, npages_mul]
  have hmem₀ : UserMem im.pagetable.leaf (npages (PGROUNDUP im.sz)) := by
    rw [hround]
    exact h.mem
  unfold setupStack
  refine Post.bind (Post.mapError_iff.mpr (uvmalloc_pages (h.fits hnodup hlen hP) hmem₀)) ?_
  rintro ⟨sz1, km₁, pt₁⟩ ⟨hp, hzero, hmem⟩
  dsimp only at hp hzero hmem
  have hp' : ∀ q, Vm.pages km₁ pt₁ q = P q := fun q => (hp q).trans (h.pages q)
  apply Post.ite
  · intro hsz
    refine .pure ⟨hp', ?_⟩
    dsimp only
    rw [hzero hsz]
    exact hmem₀
  · intro hsz
    have hfits : Fits ram km₁ pt₁ := ⟨hnodup, hlen, fun q => by rw [hp' q]; exact hP q⟩
    have hlt : sz1 - 2 * PGSIZE < MAXVA := by
      have := hfits.image_le (hmem hsz)
      simp only [npages, RAMPAGES, PGSIZE] at this
      simp only [PGSIZE, MAXVA]
      omega
    refine (Post.mapError_iff.mpr (uvmclear_pages km₁ hlt (hmem hsz))).bind ?_
    rintro pt₂ ⟨hp₂, hmem₂⟩
    have hloaded : Loaded P ⟨km₁, im.disk, pt₂, sz1⟩ := ⟨fun q => (hp₂ q).trans (hp' q), hmem₂⟩
    have hargs : (pushArgs pt₂ (sz1 - PGSIZE) argv [] km₁ sz1).2.free = km₁.free := pushArgs_free
    generalize sz1 - PGSIZE = stackbase at hargs ⊢
    dsimp only
    generalize pushArgs pt₂ stackbase argv [] km₁ sz1 = r at hargs
    obtain ⟨res, km₃⟩ := r
    cases res with
    | none => exact .pure (hloaded.congr hargs rfl rfl)
    | some res =>
      obtain ⟨ustack, sp⟩ := res
      exact .pure (hloaded.pushed hargs)

/-! ## `exec` -/

/-- What `exec` returns; a failed call leaves the process as it was. -/
structure ExecPages (sys : Sys) (p : Proc) (ok : Bool) (sys' : Sys) (p' : Proc) : Prop where
  inv : PipeInv sys'
  pipe : sys'.pipe = sys.pipe
  pages : ∀ q, sys'.km.free.count q + p'.pages q = sys.km.free.count q + p.pages q
  proc : ProcInv p'
  state : p'.state = p.state
  failed : ok = false → p' = p

theorem ExecPages.of_quiet {sys₁ sys₂ : Sys} {p' : Proc} {ok : Bool} (hinv : PipeInv sys)
    (h₁ : Quiet sys sys₁) (h₂ : Quiet { sys₁ with km := km } sys₂)
    (hpages : ∀ q, km.free.count q + p'.pages q = sys.km.free.count q + p.pages q)
      (hproc : ProcInv p')
    (hstate : p'.state = p.state) (hfailed : ok = false → p' = p) : ExecPages sys p ok sys₂ p' where
  inv := (h₂.kept ((h₁.kept hinv).inv.setKm km)).inv
  pipe := h₂.pipe.trans h₁.pipe
  pages q := by
    rw [h₂.free]
    exact hpages q
  proc := hproc
  state := hstate
  failed := hfailed

theorem exec_pages {argv : List (List UInt8)} (hinv : PipeInv sys) (hroom : Room ram sys p)
    (hp : ProcInv p) (hused : p.state ≠ .unused) :
    Post (fun _ => True) (fun r => ExecPages sys p r.1 r.2.1 r.2.2) (exec sb sys p k argv) := by
  have hold := hp.mem hused
  have hle := (hroom.fits hused).image_le hold
  have hP : ∀ q, sys.km.free.count q ≤ ram.count q := by
    intro q
    have := hroom.count q
    unfold Sys.pages at this
    omega
  have hfailed : ∀ {sys₁ sys₂ : Sys} {km : Kmem}, Quiet sys sys₁ →
      Quiet { sys₁ with km := km } sys₂ →
      (∀ q, km.free.count q = sys.km.free.count q) → ExecPages sys p false sys₂ p := by
    intro sys₁ sys₂ km h₁ h₂ hcount
    exact .of_quiet hinv h₁ h₂ (fun q => by rw [hcount q]) hp rfl fun _ => rfl
  unfold exec
  refine ilock_quiet.bind ?_
  rintro ⟨k, sys₁⟩ h₁
  dsimp only at h₁ ⊢
  refine (Post.any (fun _ => trivial) _).bind ?_
  rintro ⟨bytes, disk⟩ _
  have h₂ : Quiet sys { sys₁ with disk := disk } := h₁.trans (.of_eq rfl rfl rfl)
  have hsame : ∀ q, sys₁.km.free.count q = sys.km.free.count q := fun q => by rw [h₁.free]
  cases bytes with
  | none =>
    refine iput_quiet.bind ?_
    intro sys₃ h₃
    exact .pure (hfailed h₂ h₃ hsame)
  | some elf =>
    dsimp only
    apply Post.ite
    · intro _
      refine iput_quiet.bind ?_
      intro sys₃ h₃
      exact .pure (hfailed h₂ h₃ hsame)
    · intro _
      refine (Post.mapError_iff.mpr procPagetable_pages).bind ?_
      rintro ⟨table, km₃⟩ htable
      cases table with
      | none =>
        refine iput_quiet.bind ?_
        intro sys₄ h₄
        exact .pure (hfailed h₂ h₄ fun q => (htable q).trans (hsame q))
      | some pt =>
        obtain ⟨hp₃, him₃⟩ := htable
        have hloaded : Loaded (fun q => sys.km.free.count q) ⟨km₃, disk, pt, 0⟩ := by
          refine ⟨fun q => (hp₃ q).trans (hsame q), ?_⟩
          dsimp only
          rw [npages_zero]
          exact him₃
        refine (loadHeaders_pages hroom.nodup hroom.length hP hloaded _ _).bind ?_
        rintro ⟨ok, im⟩ him
        dsimp only at him ⊢
        have hsz := (him.fits hroom.nodup hroom.length hP).image_le him.mem
        apply Post.ite
        · intro _
          refine (Post.mapError_iff.mpr (procFreepagetable_pages him.mem hsz)).bind ?_
          intro km₅ hcount
          refine iput_quiet.bind ?_
          intro sys₆ h₆
          have h₅ : Quiet sys { sys₁ with disk := im.disk } := h₁.trans (.of_eq rfl rfl rfl)
          exact .pure (hfailed h₅ h₆ fun q => (hcount q).trans (him.pages q))
        · intro _
          refine iput_quiet.bind ?_
          intro sys₅ h₅
          have him₅ : Loaded (fun q => sys.km.free.count q)
              { im with disk := sys₅.disk, km := sys₅.km } :=
            him.congr h₅.free rfl rfl
          have h₀ : Quiet sys { sys₁ with disk := im.disk } := h₁.trans (.of_eq rfl rfl rfl)
          have hpipe : sys₅.pipe = sys.pipe := h₅.pipe.trans h₁.pipe
          have hinv₅ : PipeInv sys₅ := (h₅.kept ((h₀.kept hinv).inv.setKm im.km)).inv
          refine (setupStack_pages hroom.nodup hroom.length hP him₅).bind ?_
          rintro ⟨sp, im₆⟩ him₆
          have hsz₆ := (him₆.fits hroom.nodup hroom.length hP).image_le him₆.mem
          cases sp with
          | none =>
            refine (Post.mapError_iff.mpr (procFreepagetable_pages him₆.mem hsz₆)).bind ?_
            intro km₇ hcount
            refine .pure ⟨hinv₅.setKm km₇, hpipe, fun q => ?_, hp, rfl, fun _ => rfl⟩
            have hq := hcount q
            rw [him₆.pages q] at hq
            exact congrArg (· + p.pages q) hq
          | some sp =>
            refine (Post.mapError_iff.mpr (procFreepagetable_pages hold hle)).bind ?_
            intro km₇ hcount
            refine .pure ⟨hinv₅.setKm km₇, hpipe, fun q => ?_,
              ⟨hp.vma, fun _ => him₆.mem, fun h => ?_⟩, rfl, fun h => by cases h⟩
            · have hq := hcount q
              have h₆ := him₆.pages q
              rw [pages_used hused, pages_used (p := { p with
                pagetable := im₆.pagetable, sz := im₆.sz, sp := sp,
                own := fun v => decide (v * PGSIZE < im₆.sz) }) hused]
              unfold Vm.pages at hq h₆
              dsimp only at h₆ ⊢
              omega
            · exact absurd h hused

end

end Xv6.Kernel
