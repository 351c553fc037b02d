import Xv6.Fs.ShortWrite
import Xv6.Kernel.FileInv
import Xv6.Kernel.UserStores

/-! # The count of `read`

`fileread` with the count that it returns. The three back ends treat the requested count in their
own way: the loops of `piperead` and `consoleread` do nothing for a negative one, `readi` takes it
as an unsigned number. It is decided for every file, offset and count whether the call stays within
the count.
-/

namespace Xv6.Kernel

open Function Lib Vm

section

variable {pt : PageTable}

theorem pipereadLoop_le (n : Nat) (data : List UInt8) (km : Kmem) (addr i : Nat) :
    (pipereadLoop pt n data km addr i).1 ≤ i + n := by
  induction n generalizing data km addr i with
  | zero => exact Nat.le_refl _
  | succ n ih =>
    cases data with
    | nil => exact Nat.le_add_right _ _
    | cons ch data =>
      rw [pipereadLoop]
      obtain ⟨_ | _, km₁⟩ := copyout pt km addr [ch]
      · exact Nat.le_add_right _ _
      · exact (ih data km₁ _ (i + 1)).trans (by omega)

theorem consolereadLoop_le (n : Nat) (input : List UInt8) (km : Kmem) (dst i : Nat) :
    (consolereadLoop pt n input km dst i).1 = -1 ∨
      0 ≤ (consolereadLoop pt n input km dst i).1 ∧ (consolereadLoop pt n input km dst i).1 ≤
      i + n := by
  induction n generalizing input km dst i with
  | zero =>
    right
    simp only [consolereadLoop]
    omega
  | succ n ih =>
    cases input with
    | nil => exact .inl rfl
    | cons c input =>
      have hstop : (i : Int) = -1 ∨ 0 ≤ (i : Int) ∧ (i : Int) ≤ i + (n + 1 : Nat) := .inr (by omega)
      rw [consolereadLoop]
      by_cases heof : c = Console.ctrlD
      · rw [if_pos heof]
        exact hstop
      · rw [if_neg heof]
        obtain ⟨_ | _, km₁⟩ := copyout pt km dst [c]
        · exact hstop
        · dsimp only
          by_cases hnl : c = newline
          · rw [if_pos hnl]
            right
            dsimp only
            omega
          · rw [if_neg hnl]
            have := ih input km₁ ((dst + 1) % 2 ^ 64) (i + 1)
            omega

end

/-! ## What the call does -/

/-- File `f` is open; what `readi` and `writei` need of the inode of a regular file or directory. -/
structure OpenFile (sb : Fs.Superblock) (sys : Sys) (f : Nat) : Prop where
  type : (sys.file f).type ≠ .none
  off_lt : (sys.file f).off < 2 ^ 32
  inode : (sys.file f).type = .inode → ∃ k, (sys.file f).ip = some k ∧ 0 < (sys.inode k).ref ∧
    (sys.disk.view sb).Allocated sb (sys.inode k).inum

def Sys.contents (sb : Fs.Superblock) (sys : Sys) (k : Nat) : List UInt8 :=
  (sys.disk.view sb).contents (sys.inode k).inum

section

variable {sb : Fs.Superblock} {sys : Sys} {pt : PageTable} {f k addr : Nat} {n : Int}

theorem readLen_eq {ip : Fs.Dinode} {off m : Nat} (hoff : off < 2 ^ 32) (hm : m < 2 ^ 32) :
    Fs.readLen ip off m = if ip.size < off ∨ 2 ^ 32 ≤ off + m then 0 else min m
    (ip.size - off) := by
  unfold Fs.readLen
  by_cases hcond : ip.size < off ∨ 2 ^ 32 ≤ off + m
  · rw [if_pos hcond, if_pos (by omega)]
  · have hmod : (off + m) % 2 ^ 32 = off + m := Nat.mod_eq_of_lt (by omega)
    rw [if_neg hcond, hmod, if_neg (by omega)]
    split <;> omega

theorem readByte_contents {d : Fs.Disk} {i off m j : Nat} (h : Fs.AllocInv sb (d.view sb))
    (hi : (d.view sb).Allocated sb i) (hoff : off < 2 ^ 32) (hm : m < 2 ^ 32)
    (hj : j < Fs.readLen ((d.view sb).inode i) off m) :
    Fs.readByte sb d ((d.view sb).inode i) off m j = ((d.view sb).contents i)[off + j]? := by
  obtain ⟨r, bytes, hread, hall⟩ := h.readi hi (fun _ => true) hoff hm
  obtain ⟨hlen, -, hbytes⟩ := Fs.readi_delivers hread
  rw [Fs.copied_all fun _ _ _ => rfl] at hlen
  rw [← hbytes j (by omega), (hall fun _ _ => rfl).2]
  rw [readLen_eq hoff hm] at hj
  by_cases hcond : ((d.view sb).inode i).size < off ∨ 2 ^ 32 ≤ off + m
  · rw [if_pos hcond] at hj
    exact absurd hj (Nat.not_lt_zero j)
  · rw [if_neg hcond] at hj
    rw [if_neg hcond, Fs.readRange, List.getElem?_take_of_lt (by omega), List.getElem?_drop]

/-- How many bytes `readi` has to deliver when `fileread` of `n` bytes calls it. -/
def filereadLen (sb : Fs.Superblock) (sys : Sys) (f k : Nat) (n : Int) : Nat :=
  Fs.readLen (sys.dinode sb k) (sys.file f).off (n % 2 ^ 32).toNat

/-- What `fileread` does on a file of the disk: the first `c` bytes of those to be delivered are
stored. -/
structure InodeRead (sb : Fs.Superblock) (sys : Sys) (pt : PageTable) (f k addr : Nat) (n : Int)
    (r : Int) (sys' : Sys) (c : Nat) : Prop where
  reached : Reached pt addr (filereadLen sb sys f k n) c
  result : r = if c = filereadLen sb sys f k n then (filereadLen sb sys f k n : Int) else -1
  bytes : ∀ a, loadByte sys'.km pt a =
    if addr ≤ a ∧ a < addr + c then (sys.contents sb k)[(sys.file f).off + (a - addr)]?
      else loadByte sys.km pt a
  files : sys'.file = update sys.file f
    { sys.file f with off := (sys.file f).off + r.toNat }
  disk : sys'.disk = sys.disk
  entries : ∀ j, (sys'.inode j).inum = (sys.inode j).inum ∧ (sys'.inode j).ref = (sys.inode j).ref

theorem count_lt (n : Int) : (n % 2 ^ 32).toNat < 2 ^ 32 := by omega

theorem filereadLen_le (hoff : (sys.file f).off < 2 ^ 32) :
    filereadLen sb sys f k n = 0 ∨ (sys.file f).off + filereadLen sb sys f k n ≤
    (sys.dinode sb k).size := by
  unfold filereadLen
  rw [readLen_eq hoff (count_lt n)]
  split
  · exact .inl rfl
  · right
    omega

theorem fileread_inode (h : Fs.AllocInv sb (sys.disk.view sb)) (ho : OpenFile sb sys f)
    (hd : DistinctPages pt) (haddr : addr < 2 ^ 64) (hread : (sys.file f).readable = true)
    (htype : (sys.file f).type = .inode) (hip : (sys.file f).ip = some k) (n : Int)
    (input : List UInt8) (killed : Bool) :
    ∃ r sys' c, fileread sb sys pt f addr n input killed = .ok (r, sys') ∧
    InodeRead sb sys pt f k addr n r sys' c := by
  obtain ⟨k', hk', href, halloc⟩ := ho.inode htype
  obtain rfl : k' = k := Option.some.inj (hk'.symm.trans hip)
  obtain ⟨valid, hilock⟩ := ilock_total href halloc
  have hentries : ∀ j, ((sys.setInode k' { sys.inode k' with valid := valid }).inode j).inum =
    (sys.inode j).inum ∧
      ((sys.setInode k' { sys.inode k' with valid := valid }).inode j).ref = (sys.inode j).ref := by
    intro j
    by_cases hj : j = k'
    · subst hj
      simp [Sys.setInode]
    · simp [Sys.setInode, update_of_ne hj]
  have hdinode : (sys.setInode k' { sys.inode k' with valid := valid }).dinode sb k' =
      sys.dinode sb k' :=
    congrArg ((sys.disk.view sb).inode) (hentries k').1
  obtain ⟨r, bs, hreadi, -⟩ :=
    h.readi halloc (fun j => (walkaddr pt ((addr + j) % 2 ^ 64)).isSome) ho.off_lt (count_lt n)
  obtain ⟨hlen, hr, hbytes⟩ := Fs.readi_delivers hreadi
  have hreach : Reached pt addr (filereadLen sb sys f k' n) bs.length := by
    rw [hlen]
    exact reached_copied haddr _
  have hstored : ∀ a, loadByte (copyout pt sys.km addr bs).2 pt a =
      if addr ≤ a ∧ a < addr + bs.length then (sys.contents sb k')[(sys.file f).off + (a - addr)]?
          else loadByte sys.km pt a := by
    intro a
    rw [copyout_bytes hd haddr hreach]
    by_cases hin : addr ≤ a ∧ a < addr + bs.length
    · have hle := hreach.le
      rw [if_pos hin, if_pos hin, hbytes _ (by omega),
        readByte_contents h halloc ho.off_lt (count_lt n)
        (show _ < filereadLen sb sys f k' n by omega)]
      rfl
    · rw [if_neg hin, if_neg hin]
  have hoff : (sys.file f).off + r.toNat < 2 ^ 32 := by
    have hsize := Fs.size_le_maxfile h halloc
    have hmax := Fs.maxfile_lt
    have hlt := ho.off_lt
    have hsize' : (sys.dinode sb k').size ≤ Fs.MAXFILE * BSIZE := hsize
    have hrle : r.toNat ≤ filereadLen sb sys f k' n := by
      rw [hr]
      split
      · exact Nat.le_of_eq (Int.toNat_natCast _)
      · exact Nat.zero_le _
    rcases @filereadLen_le sb sys f k' n hlt with hzero | hle <;> omega
  have hcall : fileread sb sys pt f addr n input killed = .ok (r,
      { sys.setInode k' { sys.inode k' with valid := valid } with
        km := (copyout pt sys.km addr bs).2,
        file := update sys.file f { sys.file f with off := (sys.file f).off + r.toNat } })
            := by
    unfold fileread
    rw [if_neg (by rw [hread]; decide), htype]
    dsimp only
    unfold filereadInode
    rw [show ilock sb sys (sys.file f).ip = _ from (congrArg _ hip).trans hilock, ok_bind]
    dsimp only
    rw [hdinode, show Fs.readi sb (sys.setInode k' { sys.inode k' with valid := valid }).disk
      (sys.dinode sb k') _
      ((sys.setInode k' { sys.inode k' with valid := valid }).file f).off _ = _ from hreadi]
    dsimp only [Except.mapError]
    rw [ok_bind]
    dsimp only
    by_cases hpos : r > 0
    · rw [if_pos hpos, show ((sys.setInode k' { sys.inode k' with valid := valid }).file f).off =
        (sys.file f).off from rfl, Nat.mod_eq_of_lt hoff]
      rfl
    · have hnone : r.toNat = 0 := by omega
      have hsame : update sys.file f
          { sys.file f with off := (sys.file f).off + r.toNat } = sys.file := by
        rw [hnone]
        exact update_eq_self f sys.file
      rw [if_neg hpos, hsame]
      rfl
  exact ⟨r, _, bs.length, hcall, hreach, hr, hstored, rfl, rfl, hentries⟩

/-! ## Staying within the count -/

/-- A call of `fileread` has kept to its count: it has changed no user memory but the `n` bytes at
`addr`, has returned -1 or at most `n`, and a count that it returned for a file of the disk is how
far the offset has advanced and how many bytes of the file have been stored. -/
structure WithinCount (sb : Fs.Superblock) (sys : Sys) (pt : PageTable) (f addr : Nat) (n : Int)
    (r : Int) (sys' : Sys) : Prop where
  memory : ∀ a, ¬ (addr ≤ a ∧ a < addr + (max n 0).toNat) → loadByte sys'.km pt a =
    loadByte sys.km pt a
  result : r = -1 ∨ 0 ≤ r ∧ r ≤ max n 0
  inode : (sys.file f).type = .inode → 0 ≤ r → (sys'.file f).off = (sys.file f).off + r.toNat ∧
    ∀ k, (sys.file f).ip = some k → ∀ j, j < r.toNat →
      ∃ b, (sys.contents sb k)[(sys.file f).off + j]? = some b ∧
      loadByte sys'.km pt (addr + j) = some b

/-- A negative count does no harm to a file of the disk: the offset is at its end or the sum with
the count wraps around, or the copy fails and the bytes before are in user memory already. -/
def CountHarmless (sb : Fs.Superblock) (sys : Sys) (pt : PageTable) (f addr : Nat) (n : Int) :
    Prop :=
  (sys.file f).readable = true → (sys.file f).type = .inode → n < 0 →
    ∀ k, (sys.file f).ip = some k →
    (sys.dinode sb k).size ≤ (sys.file f).off ∨ 0 ≤ (sys.file f).off + n ∨
    ∃ j, (sys.file f).off + j < (sys.dinode sb k).size ∧ ¬ UserPage pt ((addr + j) / PGSIZE) ∧
      ∀ i, i < j → loadByte sys.km pt (addr + i) = (sys.contents sb k)[(sys.file f).off + i]?

theorem consoleBytes_length (n : Nat) (input : List UInt8) : (consoleBytes n input).length ≤ n := by
  induction n generalizing input with
  | zero => exact Nat.le_refl _
  | succ n ih =>
    cases input with
    | nil => exact Nat.zero_le _
    | cons c input =>
      unfold consoleBytes
      by_cases heof : c = Console.ctrlD
      · rw [if_pos heof]
        exact Nat.zero_le _
      · rw [if_neg heof]
        by_cases hnl : c = newline
        · rw [if_pos hnl]
          exact Nat.succ_le_succ (Nat.zero_le _)
        · rw [if_neg hnl]
          exact Nat.succ_le_succ (ih input)

theorem Stored.outside {km km' : Kmem} {st : Store} {ok : Bool} {k m : Nat}
    (h : Stored pt km st ok km' k) (hst : st.len = 0 ∨ st.dst = addr ∧ st.len ≤ m) {a : Nat}
    (ha : ¬ (addr ≤ a ∧ a < addr + m)) : loadByte km' pt a = loadByte km pt a := by
  have hle := h.reached.le
  rw [h.bytes, if_neg ?_]
  rcases hst with hzero | ⟨rfl, hlen⟩ <;> omega

theorem withinCount_of_not_inode {input : List UInt8} {killed : Bool} {r : Int} {sys' : Sys}
    (hd : DistinctPages pt) (haddr : addr < 2 ^ 64) (htype : (sys.file f).type ≠ .inode)
    (hr : fileread sb sys pt f addr n input killed = .ok (r, sys')) :
    WithinCount sb sys pt f addr n r sys' := by
  have hmax : (max n 0).toNat = n.toNat := by omega
  obtain ⟨k, hk⟩ := (fileread_stored hd haddr).of_ok hr
  refine ⟨fun a ha => hk.outside ?_ ha, ?_, fun h => absurd h htype⟩
  · rw [hmax]
    unfold filereadStore
    by_cases hread : (sys.file f).readable = false
    · rw [if_pos hread]
      exact .inl rfl
    · rw [if_neg hread]
      cases htype' : (sys.file f).type with
      | none => exact .inl rfl
      | inode => exact absurd htype' htype
      | pipe =>
        dsimp only
        split
        · exact .inl rfl
        · exact .inr ⟨rfl, List.length_take_le _ _⟩
      | device =>
        dsimp only
        split
        · exact .inr ⟨rfl, consoleBytes_length _ _⟩
        · exact .inl rfl
  · unfold fileread at hr
    by_cases hread : (sys.file f).readable = false
    · rw [if_pos hread] at hr
      cases hr
      exact .inl rfl
    · rw [if_neg hread] at hr
      cases htype' : (sys.file f).type with
      | none =>
        rw [htype'] at hr
        cases hr
      | inode => exact absurd htype' htype
      | pipe =>
        rw [htype'] at hr
        dsimp only [piperead] at hr
        have hle := @pipereadLoop_le pt n.toNat input sys.km addr 0
        split at hr
        · cases hr
          exact .inl rfl
        · cases hr
          right
          omega
      | device =>
        rw [htype'] at hr
        dsimp only at hr
        have hle := @consolereadLoop_le pt n.toNat input sys.km addr 0
        split at hr
        · cases hr
          omega
        · cases hr
          exact .inl rfl

section

variable {r : Int} {sys' : Sys} {c : Nat}

theorem InodeRead.inode (hc : InodeRead sb sys pt f k addr n r sys' c)
    (hoff : (sys.file f).off < 2 ^ 32) (hip : (sys.file f).ip = some k) (hr : 0 ≤ r) :
    (sys'.file f).off = (sys.file f).off + r.toNat ∧
    ∀ k, (sys.file f).ip = some k → ∀ j, j < r.toNat →
      ∃ b, (sys.contents sb k)[(sys.file f).off + j]? = some b ∧
      loadByte sys'.km pt (addr + j) = some b := by
  refine ⟨by rw [hc.files, update_self], fun k' hk' j hj => ?_⟩
  obtain rfl : k = k' := Option.some.inj (hip.symm.trans hk')
  have hall : c = filereadLen sb sys f k n := by
    by_contra hne
    have := hc.result
    rw [if_neg hne] at this
    omega
  have hlen : r.toNat = c := by
    rw [hc.result, if_pos hall, Int.toNat_natCast, hall]
  have hlt : (sys.file f).off + j < (sys.contents sb k).length := by
    have hsize : (sys.contents sb k).length = (sys.dinode sb k).size := Fs.contents_length _ _
    rcases @filereadLen_le sb sys f k n hoff with hzero | hle <;> omega
  refine ⟨_, List.getElem?_eq_getElem hlt, ?_⟩
  rw [hc.bytes, if_pos (by omega), Nat.add_sub_cancel_left, List.getElem?_eq_getElem hlt]

theorem InodeRead.withinCount_iff (hc : InodeRead sb sys pt f k addr n r sys' c)
    (hoff : (sys.file f).off < 2 ^ 32) (hsize : (sys.dinode sb k).size ≤ Fs.MAXFILE * BSIZE)
    (hlow : -2 ^ 31 ≤ n) (hhigh : n < 2 ^ 31) (hread : (sys.file f).readable = true)
    (htype : (sys.file f).type = .inode) (hip : (sys.file f).ip = some k) :
    WithinCount sb sys pt f addr n r sys' ↔ CountHarmless sb sys pt f addr n := by
  have hlen : filereadLen sb sys f k n = if (sys.dinode sb k).size < (sys.file f).off ∨
      2 ^ 32 ≤ (sys.file f).off + (n % 2 ^ 32).toNat then 0
      else min (n % 2 ^ 32).toNat ((sys.dinode sb k).size - (sys.file f).off) :=
        readLen_eq hoff (count_lt n)
  have hle := hc.reached.le
  have hresult := hc.result
  -- a call that has no more to deliver than it may
  have hwithin : filereadLen sb sys f k n ≤ (max n 0).toNat →
      WithinCount sb sys pt f addr n r sys' := by
    intro hmax
    refine ⟨fun a ha => ?_, ?_, fun _ => hc.inode hoff hip⟩
    · rw [hc.bytes, if_neg (by omega)]
    · rw [hresult]
      split
      · right
        omega
      · exact .inl rfl
  by_cases hneg : n < 0
  · have hcount : ((n % 2 ^ 32).toNat : Int) = n + 2 ^ 32 := by omega
    by_cases hzero : (sys.dinode sb k).size ≤ (sys.file f).off ∨ 0 ≤ (sys.file f).off + n
    · refine iff_of_true (hwithin ?_) fun _ _ _ k' hk' => ?_
      · rw [hlen]
        split <;> omega
      · obtain rfl : k = k' := Option.some.inj (hip.symm.trans hk')
        exact hzero.imp_right .inl
    · -- all the rest of the file is to be delivered
      have hmaxfile := Fs.maxfile_lt
      have hrest : filereadLen sb sys f k n = (sys.dinode sb k).size - (sys.file f).off := by
        rw [hlen, if_neg (by omega)]
        have : Fs.MAXFILE * BSIZE < 2 ^ 31 := by decide
        omega
      constructor
      · intro hw _ _ _ k' hk'
        obtain rfl : k = k' := Option.some.inj (hip.symm.trans hk')
        have hshort : c ≠ filereadLen sb sys f k n := by
          intro hall
          rw [if_pos hall] at hresult
          have := hw.result
          omega
        refine .inr (.inr ⟨c, by omega, (hc.reached.stop (by omega)).2, fun i hi => ?_⟩)
        rw [← hw.memory _ (by omega), hc.bytes, if_pos (by omega), Nat.add_sub_cancel_left]
      · intro hh
        obtain ⟨j, hj, hbad, hsame⟩ : ∃ j, (sys.file f).off + j < (sys.dinode sb k).size ∧
            ¬ UserPage pt ((addr + j) / PGSIZE) ∧
            ∀ i, i < j → loadByte sys.km pt (addr + i) =
                (sys.contents sb k)[(sys.file f).off + i]? := by
          have := hh hread htype hneg k hip
          rw [← or_assoc] at this
          exact this.resolve_left hzero
        have hcj : c ≤ j := by
          by_contra hlt
          exact hbad (hc.reached.good _ (Nat.le_add_right _ _) (by omega))
        rw [if_neg (by omega)] at hresult
        refine ⟨fun a _ => ?_, .inl hresult, fun _ hr => by omega⟩
        rw [hc.bytes]
        by_cases hin : addr ≤ a ∧ a < addr + c
        · rw [if_pos hin, ← hsame _ (by omega), Nat.add_sub_cancel' hin.1]
        · rw [if_neg hin]
  · refine iff_of_true (hwithin ?_) fun _ _ h => absurd h hneg
    rw [hlen]
    split <;> omega

end

end

/-- `fileread` on an open file returns, and keeps to its count exactly if the count, where it is
negative and the file is one of the disk, is harmless. -/
theorem fileread_within_count (sb : Fs.Superblock) (sys : Sys)
    (h : Fs.AllocInv sb (sys.disk.view sb)) (f : Nat) (ho : OpenFile sb sys f) (pt : PageTable)
    (hd : DistinctPages pt) (addr : Nat) (haddr : addr < 2 ^ 64) (n : Int) (hlow : -2 ^ 31 ≤ n)
    (hhigh : n < 2 ^ 31) (input : List UInt8) (killed : Bool) :
    ∃ r sys', fileread sb sys pt f addr n input killed = .ok (r, sys') ∧
      (WithinCount sb sys pt f addr n r sys' ↔ CountHarmless sb sys pt f addr n) := by
  by_cases hinode : (sys.file f).readable = true ∧ (sys.file f).type = .inode
  · obtain ⟨k, hip, -, halloc⟩ := ho.inode hinode.2
    obtain ⟨r, sys', c, hr, hc⟩ := fileread_inode h ho hd haddr hinode.1 hinode.2 hip n input killed
    exact ⟨r, sys', hr, hc.withinCount_iff ho.off_lt (Fs.size_le_maxfile h halloc) hlow hhigh
      hinode.1 hinode.2 hip⟩
  · have hharmless : CountHarmless sb sys pt f addr n :=
      fun hread htype => absurd ⟨hread, htype⟩ hinode
    obtain ⟨r, sys', hr⟩ : ∃ r sys', fileread sb sys pt f addr n input killed = .ok (r, sys') := by
      unfold fileread
      by_cases hread : (sys.file f).readable = false
      · exact ⟨_, _, if_pos hread⟩
      · rw [if_neg hread]
        cases htype : (sys.file f).type with
        | none => exact absurd htype ho.type
        | inode => exact absurd ⟨Bool.eq_true_of_not_eq_false hread, htype⟩ hinode
        | pipe => exact ⟨_, _, rfl⟩
        | device =>
          dsimp only
          split <;> exact ⟨_, _, rfl⟩
    refine ⟨r, sys', hr, iff_of_true ?_ hharmless⟩
    by_cases hread : (sys.file f).readable = false
    · unfold fileread at hr
      rw [if_pos hread] at hr
      cases hr
      exact ⟨fun _ _ => rfl, .inl rfl, fun _ hr => absurd hr (by decide)⟩
    · exact withinCount_of_not_inode hd haddr
        (fun htype => hinode ⟨Bool.eq_true_of_not_eq_false hread, htype⟩) hr

/-- A kernel in which file 0 is inode 2 of the disk `d`, open at its start. -/
def oneFile (d : Fs.Disk) : Sys :=
  { Sys.start ⟨[], fun _ => Bytes.zero⟩ d with
    file := fun _ => ⟨.inode, 1, true, true, 0, some 0, 0, 0, 0⟩, inode := fun _ => ⟨2, 1, true⟩ }

theorem oneFile_open {d : Fs.Disk} (halloc : (d.view Fs.tinySb).Allocated Fs.tinySb 2) :
    OpenFile Fs.tinySb (oneFile d) 0 :=
  ⟨fun h => (by cases h), show 0 < 2 ^ 32 by decide, fun _ => ⟨0, rfl, Nat.one_pos, halloc⟩⟩

/-- A read of -1 bytes from a file of three bytes stores them all and returns 3. -/
theorem fileread_negative_count_reads : ∃ d sys', Fs.AllocInv Fs.tinySb (d.view Fs.tinySb) ∧
    OpenFile Fs.tinySb (oneFile d) 0 ∧ (oneFile d).contents Fs.tinySb 0 = [1, 2, 3] ∧
    fileread Fs.tinySb (oneFile d) onePage 0 100 (-1) [] false = .ok (3, sys') ∧
    loadByte (oneFile d).km onePage 102 = some 0 ∧ loadByte sys'.km onePage 102 = some 3 ∧
    ¬ WithinCount Fs.tinySb (oneFile d) onePage 0 100 (-1) 3 sys' := by
  have hrun : (Fs.threeBytes.bind fun d =>
      (fileread Fs.tinySb (oneFile d) onePage 0 100 (-1) [] false).toOption.map fun r =>
        (r.1, (oneFile d).contents Fs.tinySb 0, loadByte (oneFile d).km onePage 102,
          loadByte r.2.km onePage 102)) =
      some (3, [1, 2, 3], some 0, some 3) := by
    decide +kernel
  obtain ⟨d, hd, hrun⟩ := Option.bind_eq_some_iff.mp hrun
  obtain ⟨⟨r, sys'⟩, hr, heq⟩ := Option.map_eq_some_iff.mp hrun
  simp only [Prod.mk.injEq] at heq
  obtain ⟨rfl, hcont, hbefore, hafter⟩ := heq
  obtain ⟨hinv, halloc⟩ := Fs.threeBytes_inv hd
  refine ⟨d, sys', hinv.alloc, oneFile_open halloc, hcont, eq_ok_of_toOption hr, hbefore, hafter,
    fun hw => ?_⟩
  exact absurd hw.result (by decide)

/-- Two bytes of the same file. -/
theorem fileread_within_count_threeBytes : ∃ d r sys', Fs.threeBytes = some d ∧
    fileread Fs.tinySb (oneFile d) onePage 0 100 2 [] false = .ok (r, sys') ∧
    WithinCount Fs.tinySb (oneFile d) onePage 0 100 2 r sys' := by
  have hsome : Fs.threeBytes.isSome = true := by decide +kernel
  obtain ⟨d, hd⟩ := Option.isSome_iff_exists.mp hsome
  obtain ⟨hinv, halloc⟩ := Fs.threeBytes_inv hd
  obtain ⟨r, sys', hr, hiff⟩ :=
    fileread_within_count Fs.tinySb (oneFile d) hinv.alloc 0 (oneFile_open halloc) onePage
    onePage_distinct 100 (by decide) 2 (by decide) (by decide) [] false
  exact ⟨d, r, sys', hd, hr, hiff.mpr fun _ _ hneg => absurd hneg (by decide)⟩

end Xv6.Kernel
