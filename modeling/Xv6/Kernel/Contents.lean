import Xv6.Kernel.Lifecycle
import Xv6.Lib.Post

/-! # Contents of physical memory

What the calls on open files leave alone of the page allocator and of the contents of pages, and
that removing a process leaves the contents of pages alone.
-/

namespace Xv6.Kernel

open Lib Vm

section

variable {sb : Fs.Superblock} {sys : Sys} {f k : Nat} {pt : PageTable} {addr : Nat} {n : Int}

theorem ilock_same : Post (fun _ => True)
    (fun r => r.1 = k ∧ r.2.km = sys.km ∧ r.2.file = sys.file ∧
    r.2.dinode sb k = sys.dinode sb k ∧ r.2.disk = sys.disk ∧ (r.2.inode k).inum =
    (sys.inode k).inum) (ilock sb sys (some k)) := by
  refine Post.ite (fun _ => Post.error trivial) fun _ =>
    Post.ite (fun _ => Post.ok ⟨rfl, rfl, rfl, rfl, rfl, rfl⟩) fun _ => ?_
  refine Post.ite (fun _ => Post.error trivial) fun _ => Post.ok ?_
  have hinum : (Function.update sys.inode k { sys.inode k with valid := true } k).inum =
      (sys.inode k).inum := by
    rw [Function.update_self]
  exact ⟨rfl, rfl, rfl, congrArg ((sys.disk.view sb).inode) hinum, rfl, hinum⟩

theorem ilock_km {ip : Option Nat} :
    Post (fun _ => True) (fun r => r.2.km = sys.km) (ilock sb sys ip) := by
  cases ip with
  | none => exact .error trivial
  | some k => exact ilock_same.imp fun r hr => hr.2.1

theorem writeChunk_km {n1 : Nat} :
    Post (fun _ => True) (fun r => r.2.km = sys.km) (writeChunk sb pt f addr n1 sys) := by
  refine ilock_km.bind ?_
  rintro ⟨k, sys₁⟩ hkm
  refine (Post.mapError_any fun _ => trivial).bind ?_
  rintro ⟨r, d, disk⟩ -
  exact Post.ite (fun _ => Post.pure hkm) fun _ => Post.pure hkm

theorem filewriteLoop_km {n fuel : Nat} (i : Nat) :
    Post (fun _ => True) (fun s => s.km = sys.km) (filewriteLoop sb pt f addr n fuel i sys) := by
  induction fuel generalizing i sys with
  | zero => exact .ok rfl
  | succ fuel ih =>
    refine Post.ite (fun _ => ?_) fun _ => Post.ok rfl
    refine writeChunk_km.bind ?_
    rintro ⟨r, sys₁⟩ hkm
    exact Post.ite (fun _ => Post.pure hkm) fun _ => (ih _).imp fun s hs => hs.trans hkm

theorem filewrite_km : Post (fun _ => True) (fun s => s.km = sys.km)
    (filewrite sb pt sys f addr n) := by
  refine Post.ite (fun _ => Post.ok rfl) fun _ => ?_
  split
  · exact .ok rfl
  · exact .ok rfl
  · exact filewriteLoop_km 0
  · exact .error trivial

theorem writeback_km {m : Vma} :
    Post (fun _ => True) (fun s => s.km = sys.km) (writeback sb pt sys m addr n) :=
  Post.ite (fun _ => filewrite_km) fun _ => Post.ok rfl

theorem iput_km : Post (fun _ => True) (fun s => s.km = sys.km) (iput sb sys k) := by
  refine Post.ite (fun _ => ?_) fun _ => Post.pure rfl
  refine (Post.mapError_any fun _ => trivial).bind ?_
  exact fun disk _ => Post.pure rfl

theorem pipeclose_mem (sys : Sys) (pi : Nat) (w : Bool) :
    (pipeclose sys pi w).km.mem = sys.km.mem := by
  unfold pipeclose
  dsimp only
  split <;> split <;> rfl

theorem fileclose_mem : Post (fun _ => True) (fun s => s.km.mem = sys.km.mem)
    (fileclose sb sys f) := by
  have hiput : ∀ (ip : Option Nat) (sys₁ : Sys), sys₁.km = sys.km →
      Post (fun _ => True) (fun s => s.km.mem = sys.km.mem) (iputPtr sb sys₁ ip) := by
    rintro (_ | k) sys₁ hkm
    · exact .error trivial
    · exact iput_km.imp fun s hs => by rw [hs, hkm]
  refine Post.ite (fun _ => Post.error trivial) fun _ => Post.ite (fun _ => Post.ok rfl) fun _ => ?_
  split
  · exact .ok rfl
  · exact .ok (pipeclose_mem _ _ _)
  · exact hiput _ _ rfl
  · exact hiput _ _ rfl

end

/-! ## Removing a process -/

section

variable {km : Kmem} {pt : PageTable}

theorem uvmunmap_mem (va n : Nat) (do_free : Bool) :
    Post (fun _ => True) (fun r => r.1.mem = km.mem) (uvmunmap km pt va n do_free) := by
  refine Post.ite (fun _ => Post.error trivial) fun _ => ?_
  refine Post.forRange (I := fun _ (r : Kmem × PageTable) => r.1.mem = km.mem) rfl ?_
  rintro k ⟨km₁, pt₁⟩ - hmem
  refine (Post.any (fun _ => trivial) _).bind ?_
  rintro (_ | _ | pte) -
  · exact .throw trivial
  · exact .pure hmem
  · refine Post.ite (fun _ => Post.throw trivial) fun _ => Post.pure ?_
    cases do_free <;> exact hmem

theorem freeNode_mem {α : Type} {child : Kmem → α → Except Vm.Panic Kmem}
    (hchild : ∀ km c, Post (fun _ => True) (fun r => r.mem = km.mem) (child km c)) (km : Kmem)
    (n : Node α) : Post (fun _ => True) (fun r => r.mem = km.mem) (freeNode child km n) := by
  refine (Post.forRange (I := fun _ (r : Kmem) => r.mem = km.mem) rfl fun i km₁ _ hmem => ?_).bind
    fun r hr => Post.pure hr
  split
  · exact .ok hmem
  · exact (hchild _ _).imp fun r hr => hr.trans hmem

theorem uvmfree_mem (sz : Nat) :
    Post (fun _ => True) (fun r => r.mem = km.mem) (uvmfree km pt sz) := by
  have hfree : ∀ (km : Kmem) (pt : PageTable), Post (fun _ => True) (fun r => r.mem = km.mem)
      (freewalk km pt) :=
    freeNode_mem (freeNode_mem (freeNode_mem fun _ _ => Post.error trivial))
  refine Post.ite (fun _ => ?_) fun _ => ?_
  · exact (uvmunmap_mem _ _ _).bind fun r hr => (hfree _ _).imp fun _ h => h.trans hr
  · exact (Post.pure rfl : Post _ (fun r => r.1.mem = km.mem) (pure (km, pt))).bind fun r hr =>
      (hfree _ _).imp fun _ h => h.trans hr

theorem procFreepagetable_mem (sz : Nat) :
    Post (fun _ => True) (fun r => r.mem = km.mem) (procFreepagetable km pt sz) := by
  refine (uvmunmap_mem _ _ _).bind fun r hr => (uvmunmap_mem _ _ _).bind fun r' hr' => ?_
  exact (uvmfree_mem _).imp fun _ h => h.trans (hr'.trans hr)

theorem freeproc_mem (p : Proc) :
    Post (fun _ => True) (fun r => r.1.mem = km.mem) (freeproc km p) := by
  have hfree : Post (fun _ => True) (fun r => r.mem = km.mem)
      (procFreepagetable (kfree km p.trapframe) p.pagetable p.sz) :=
    (procFreepagetable_mem _).imp fun _ h => h
  exact (Post.mapError_iff.mpr hfree).bind fun km' h => Post.pure h

end

end Xv6.Kernel
