import Tsukasa.Proc.Context
import Tsukasa.Proc.SchedCalls
import Tsukasa.Fs.VfsRun
import Tsukasa.Mm.VmSpace
import Tsukasa.Mm.Isolation

/-!
# Creating a process

`create_kernel_process_locked` with what it takes from other parts: a slot of the process table, references to the open files of the parent, an address space and a kernel stack. The descriptors are inherited before the memory is asked for. The two exits behind a failed allocation give the address space back, and nothing else.
-/

namespace Tsukasa

open Lib (Memory)

def processStackPages : Nat := (processStackSize + pageSize - 1) / pageSize

/-- The memory that belongs to a slot of the process table. -/
structure ProcMemory where
  vmSpace : VmSpace
  kernelStack : Nat
  kernelStackPhys : Nat
  kernelStackFromPmm : Bool
  kernelRsp : Nat
  threadKernelRsp : Nat
  threadKernelStack : Nat

def ProcMemory.zeroed : ProcMemory := ⟨⟨0, 0, 0, 0, 0, 0, false⟩, 0, 0, false, 0, 0, 0⟩

structure ProcKernel (φ β : Type) where
  sched : Sched
  vfs : Vfs φ β
  vmm : Vmm
  hhdmOffset : Nat
  memory : Memory
  ctxWarned : Bool
  slots : Nat → ProcMemory

/-- The descriptor part of `process_init_io_state`: row `i + 1` is that of slot `i`. -/
def initIoState {φ β : Type} (s : Vfs φ β) (i : Nat) : Vfs φ β :=
  { s with fds := fun k => if k.1 = i + 1 ∧ k.2 < processMaxOpenFiles then none else s.fds k }

/-- The address space of a new process: that of the template, or one of its own. -/
def initSpace (template : Option VmSpace) (pid : Nat) (v : Vmm) : Option VmSpace × Vmm :=
  match template with
  | none => VmSpace.create v
  | some t =>
      if t.pml4Phys ≠ 0 then (some ⟨t.pml4Phys, t.userMin, t.userMax, vmSpaceShmBase + pid % 64 * 0x01000000, 0, 0, false⟩, v)
      else VmSpace.create v

namespace ProcKernel

variable {φ β : Type}

def setSlot (k : ProcKernel φ β) (i : Nat) (m : ProcMemory) : ProcKernel φ β := { k with slots := Function.update k.slots i m }

/-- The parent's address space, or that of the current process. -/
def template (k : ProcKernel φ β) (parent : Option Nat) : Option VmSpace := (parent.or k.sched.current).map fun q => (k.slots q).vmSpace

def allocProcessStack (k : ProcKernel φ β) (i : Nat) : Int × ProcKernel φ β :=
  let (stackPhys, pmm) := pmmAllocPages k.vmm.pmm processStackPages
  let k := { k with vmm := { k.vmm with pmm := pmm } }
  if stackPhys = 0 then (-1, k)
  else
    let stackVirt := vmmPhysToVirt k.hhdmOffset stackPhys
    if stackVirt = 0 then (-1, k)
    else
      (0, k.setSlot i { k.slots i with
        kernelStack := stackVirt, kernelStackPhys := stackPhys, kernelStackFromPmm := true, threadKernelStack := stackVirt })

def setupContext (processEntryResume : Nat) (k : ProcKernel φ β) (i : Nat) : Int × ProcKernel φ β :=
  let m := k.slots i
  let c : SavedContext := ⟨m.kernelStack, m.kernelRsp, m.threadKernelRsp, m.threadKernelStack, k.memory, k.ctxWarned⟩
  let (ret, c) := c.setupInitialContext processEntryResume
  (ret, { k with memory := c.memory }.setSlot i { m with
    kernelRsp := c.kernelRsp, threadKernelRsp := c.threadKernelRsp, threadKernelStack := c.threadKernelStack })

def destroySpace (k : ProcKernel φ β) (i : Nat) : ProcKernel φ β :=
  let (space, vmm) := (k.slots i).vmSpace.destroy k.vmm
  { k with vmm := vmm }.setSlot i { k.slots i with vmSpace := space }

/-- `free_process_resources_locked` for a process with a new pid, which has no windows and no shared memory. -/
def freeProcessResources (B : Backends φ β) (k : ProcKernel φ β) (i : Nat) : ProcKernel φ β :=
  let k := { k with vfs := vfsProcessCleanup B k.vfs (i + 1) }.destroySpace i
  let m := k.slots i
  if m.kernelStack ≠ 0 then
    let pmm := if m.kernelStackFromPmm then pmmFreePages k.vmm.pmm m.kernelStackPhys processStackPages else k.vmm.pmm
    { k with vmm := { k.vmm with pmm := pmm } }.setSlot i { m with kernelStack := 0, kernelStackPhys := 0, kernelStackFromPmm := false }
  else k

/-- The slot is cleared, with its row of descriptors, and then the parent's descriptors are inherited. -/
def prepareSlot (B : Backends φ β) (k : ProcKernel φ β) (parent : Option Nat) (i : Nat) : ProcKernel φ β :=
  let k := { k with vfs := initIoState k.vfs i }.setSlot i ProcMemory.zeroed
  parent.elim k fun q => { k with vfs := vfsProcessInherit B k.vfs (i + 1) (some (q + 1)) }

/-- The address space, the stack and the first frame, with what each exit gives back. -/
def obtainMemory (B : Backends φ β) (processEntryResume : Nat) (k : ProcKernel φ β) (parent : Option Nat) (i : Nat) : Bool × ProcKernel φ β :=
  match initSpace (k.template parent) k.sched.nextPid k.vmm with
  | (none, vmm) => (false, { k with vmm := vmm })
  | (some space, vmm) =>
      let k := { k with vmm := vmm }.setSlot i { k.slots i with vmSpace := space }
      let (ret, k) := k.allocProcessStack i
      if ret ≠ 0 then (false, k.destroySpace i)
      else
        let (ret, k) := k.setupContext processEntryResume i
        if ret ≠ 0 then (false, k.freeProcessResources B i) else (true, k)

/-- `create_kernel_process_locked`. What it does to the process table depends only on whether the memory is obtained. -/
def createKernelProcessLocked (B : Backends φ β) (processEntryResume : Nat) (k : ProcKernel φ β) (parent : Option Nat) :
    Option Nat × ProcKernel φ β :=
  match allocProcessSlot k.sched with
  | none => (none, k)
  | some i =>
      let (ok, k) := (k.prepareSlot B parent i).obtainMemory B processEntryResume parent i
      let (p, sched) := createKernelProcess k.sched parent ok
      (p, { k with sched := sched })

/-- What a creation that fails has to leave as it was. -/
structure NothingLeaked (parent : Option Nat) (k k' : ProcKernel φ β) : Prop where
  refcount : ∀ f, (k'.vfs.openFiles f).refcount = (k.vfs.openFiles f).refcount
  pipes : ∀ p, (k'.vfs.pipes p).readers = (k.vfs.pipes p).readers ∧ (k'.vfs.pipes p).writers = (k.vfs.pipes p).writers
  bitmap : k'.vmm.pmm.bitmap = k.vmm.pmm.bitmap
  freeFrames : k'.vmm.pmm.freeFrames = k.vmm.pmm.freeFrames
  runqHead : k'.sched.runqHead = k.sched.runqHead
  runqTail : k'.sched.runqTail = k.sched.runqTail
  rqNext : ∀ j, (k'.sched.processes j).rqNext = (k.sched.processes j).rqNext
  childrenHead : ∀ q, parent = some q → (k'.sched.processes q).childrenHead = (k.sched.processes q).childrenHead
  parentNextChild : ∀ j, (k'.sched.processes j).parentNextChild = (k.sched.processes j).parentNextChild

end ProcKernel

/-! ### The address space -/

section Space

open Vmm

variable {v w : Vmm} {sp : VmSpace} {template : Option VmSpace} {pid : Nat}

/-- The frames that `initSpace` takes are the ones that a destroy gives back, whatever has been allocated in between. -/
structure SpaceTaken (v w : Vmm) (sp : VmSpace) : Prop where
  inv : w.pmm.Inv
  fewer : ∀ frame, bitmapGet w.pmm.bitmap frame = true → bitmapGet v.pmm.bitmap frame = true
  back : ∀ pmm : Pmm, pmm.Inv → (∀ frame, bitmapGet pmm.bitmap frame = true → bitmapGet w.pmm.bitmap frame = true) →
    (sp.destroy { w with pmm := pmm }).2.pmm.Inv ∧ ∀ frame, bitmapGet (sp.destroy { w with pmm := pmm }).2.pmm.bitmap frame = true ↔
      bitmapGet pmm.bitmap frame = true ∨ bitmapGet v.pmm.bitmap frame = true ∧ bitmapGet w.pmm.bitmap frame = false

theorem create_taken (hinv : v.pmm.Inv) (hcurrent : ∀ frame, bitmapGet v.pmm.bitmap frame = true → v.currentPml4 ≠ frame * pageSize)
    (hspace : VmSpace.create v = (some sp, w)) : SpaceTaken v w sp := by
  rcases vmmCreateAddressSpace_cases hinv with ⟨hnone, -⟩ | ⟨start, hpos, hrun, hcreate⟩
  · rcases hres : vmmCreateAddressSpace v with ⟨_ | root, w'⟩
    · simp [VmSpace.create, hres] at hspace
    · rw [hres] at hnone
      cases hnone
  · obtain ⟨htree, howned⟩ := created_userTree hpos hrun (tableVirt (BitVec.ofNat 64 v.currentPml4))
    obtain ⟨hpmm, hcur, -⟩ := copyKernelHalf_spec (v.fresh start) (start * pageSize) (tableVirt (BitVec.ofNat 64 v.currentPml4))
    simp only [VmSpace.create, hcreate, Prod.mk.injEq, Option.some.injEq] at hspace
    obtain ⟨rfl, hw⟩ := hspace
    rw [hw] at htree howned hpmm hcur
    have hbit : ∀ frame, bitmapGet w.pmm.bitmap frame = if frame = start then false else bitmapGet v.pmm.bitmap frame := by
      intro frame
      rw [hpmm, fresh, Pmm.bitmapGet_take]
      exact if_congr (by omega) rfl rfl
    have hinvw : w.pmm.Inv := by
      rw [hpmm]
      exact hinv.take hrun
    have hfewer : ∀ frame, bitmapGet w.pmm.bitmap frame = true → bitmapGet v.pmm.bitmap frame = true := by
      intro frame hframe
      rw [hbit] at hframe
      split at hframe
      · cases hframe
      · exact hframe
    refine ⟨hinvw, hfewer, fun pmm hpmm' hsub => ?_⟩
    have hsame : SameTree (start * pageSize) w { w with pmm := pmm } := by
      intro p hp table htable
      have htaken := htree.taken p hp table htable
      refine ⟨⟨htaken.aligned, htaken.pos, ?_, ?_⟩, fun _ _ => rfl⟩
      · have htracked := htaken.tracked
        rwa [hinvw.total, ← hpmm'.total] at htracked
      · rw [Bool.eq_false_iff]
        intro hfree
        exact absurd ((hsub _ hfree).symm.trans htaken.taken) (by decide)
    have hne : start * pageSize ≠ 0 := by
      rw [pageSize]
      omega
    have hactive : w.currentPml4 ≠ start * pageSize := by
      rw [hcur]
      exact hcurrent start (by simpa using hrun.2 0 (by decide))
    have hdestroy : ((VmSpace.owned (start * pageSize) pagingUserVaMin pagingUserVaMax).destroy { w with pmm := pmm }).2 =
        (vmmDestroyAddressSpace { w with pmm := pmm } (start * pageSize)).2 := if_pos ⟨rfl, hne⟩
    obtain ⟨hinv', hbits⟩ := vmmDestroyAddressSpace_spec (v := { w with pmm := pmm }) hpmm' (hsame.userTree htree) hactive
    rw [hdestroy]
    refine ⟨hinv', fun frame => (hbits frame).trans (or_congr Iff.rfl ?_)⟩
    -- the tables of the tree are what is free in `v` and taken in `w`
    have htables : (∃ p ∈ UserPath, Vmm.tableAt { w with pmm := pmm } (start * pageSize) p = some (frame * pageSize)) ↔
        ∃ p ∈ UserPath, w.tableAt (start * pageSize) p = some (frame * pageSize) :=
      exists_congr fun p => and_congr_right fun hp => by rw [hsame.tableAt_eq hp]
    rw [htables]
    constructor
    · rintro ⟨p, hp, htable⟩
      have htaken := (htree.taken p hp _ htable).taken
      rw [addrToFrame, Nat.mul_div_cancel _ (by decide)] at htaken
      exact ⟨(howned frame).mp (Or.inr ⟨p, hp, htable⟩), htaken⟩
    · rintro ⟨hfree, htaken⟩
      rcases (howned frame).mpr hfree with hbit' | htable
      · exact absurd (hbit'.symm.trans htaken) (by decide)
      · exact htable

/-- Sharing a space takes nothing. -/
theorem shared_taken (hinv : v.pmm.Inv) (hnot : sp.ownsPml4 = false) : SpaceTaken v v sp := by
  refine ⟨hinv, fun _ h => h, fun pmm hpmm _ => ?_⟩
  have hdestroy : (sp.destroy { v with pmm := pmm }).2 = { v with pmm := pmm } := by simp [VmSpace.destroy, hnot]
  rw [hdestroy]
  refine ⟨hpmm, fun frame => ⟨Or.inl, ?_⟩⟩
  rintro (hfree | ⟨hfree, htaken⟩)
  · exact hfree
  · exact absurd (hfree.symm.trans htaken) (by decide)

theorem initSpace_taken (hinv : v.pmm.Inv) (hcurrent : ∀ frame, bitmapGet v.pmm.bitmap frame = true → v.currentPml4 ≠ frame * pageSize)
    (hspace : initSpace template pid v = (some sp, w)) : SpaceTaken v w sp := by
  cases template with
  | none => exact create_taken hinv hcurrent hspace
  | some t =>
      rw [initSpace] at hspace
      split at hspace
      · obtain ⟨hshared, rfl⟩ := Prod.mk.inj hspace
        rw [← Option.some.inj hshared]
        exact shared_taken hinv rfl
      · exact create_taken hinv hcurrent hspace

theorem initSpace_none (hinv : v.pmm.Inv) (hspace : initSpace template pid v = (none, w)) :
    w.pmm.bitmap = v.pmm.bitmap ∧ w.pmm.freeFrames = v.pmm.freeFrames := by
  have hcreate : VmSpace.create v = (none, w) := by
    cases template with
    | none => exact hspace
    | some t =>
        rw [initSpace] at hspace
        split at hspace
        · cases hspace
        · exact hspace
  rcases vmmCreateAddressSpace_cases hinv with ⟨hnone, hnot⟩ | ⟨start, -, -, hsome⟩
  · rcases hres : vmmCreateAddressSpace v with ⟨_ | root, w'⟩
    · rw [hres] at hnot
      simp only [VmSpace.create, hres, Prod.mk.injEq, true_and] at hcreate
      rw [← hcreate]
      exact hinv.eq_of_bits hnot.inv hnot.bits
    · rw [hres] at hnone
      cases hnone
  · simp [VmSpace.create, hsome] at hcreate

/-- Without a stack everything is as before; with one its frames are missing. -/
theorem SpaceTaken.after_stack (h : SpaceTaken v w sp) (hinv : v.pmm.Inv) :
    ((sp.destroy { w with pmm := (pmmAllocPages w.pmm processStackPages).2 }).2.pmm.bitmap = v.pmm.bitmap ∧
      (sp.destroy { w with pmm := (pmmAllocPages w.pmm processStackPages).2 }).2.pmm.freeFrames = v.pmm.freeFrames) ↔
      (pmmAllocPages w.pmm processStackPages).1 = 0 := by
  rcases pmmAllocPages_cases h.inv (show 0 < processStackPages by decide) (by decide) with ⟨start, hpos, hrun, -, hres⟩ | ⟨-, hres⟩
  · have hne : start * pageSize ≠ 0 := by
      rw [pageSize]
      omega
    simp only [hres, hne, iff_false]
    rintro ⟨hbitmap, -⟩
    have hsub : ∀ frame, bitmapGet (w.pmm.take start processStackPages).bitmap frame = true → bitmapGet w.pmm.bitmap frame = true := by
      intro frame hframe
      rw [Pmm.bitmapGet_take] at hframe
      split at hframe
      · cases hframe
      · exact hframe
    have hfirst : bitmapGet w.pmm.bitmap start = true := by simpa using hrun.2 0 (by decide)
    have hback := ((h.back _ (h.inv.take hrun) hsub).2 start).mp (by rw [hbitmap]; exact h.fewer start hfirst)
    rw [Pmm.bitmapGet_take, if_pos ⟨Nat.le_refl _, Nat.lt_add_of_pos_right (by decide)⟩, hfirst] at hback
    simp at hback
  · obtain ⟨hinv', hbits⟩ := h.back w.pmm h.inv fun _ hframe => hframe
    simp only [hres, iff_true]
    refine hinv.eq_of_bits hinv' fun frame => (hbits frame).trans ⟨?_, fun hfree => ?_⟩
    · rintro (hfree | ⟨hfree, -⟩)
      · exact h.fewer frame hfree
      · exact hfree
    · cases hw : bitmapGet w.pmm.bitmap frame with
      | true => exact Or.inl rfl
      | false => exact Or.inr ⟨hfree, rfl⟩

end Space

/-! ### The descriptors -/

section Inherit

variable {φ β : Type} {s : Vfs φ β}

theorem closeAll_of_empty (B : Backends φ β) {proc : Nat} (hempty : ∀ fd < processMaxOpenFiles, s.fds (proc, fd) = none) :
    closeAll B s proc = s := by
  rw [closeAll]
  have hrange : ∀ fd ∈ List.range processMaxOpenFiles, fd < processMaxOpenFiles := fun fd => List.mem_range.mp
  generalize List.range processMaxOpenFiles = fds at hrange ⊢
  induction fds with
  | nil => rfl
  | cons fd fds ih =>
      have hnone : s.fds (proc, fd) = none := hempty fd (hrange fd List.mem_cons_self)
      have hstep : fdCloseOnTable B s proc fd = s := by
        rw [fdCloseOnTable, fdLookup]
        simp [hnone]
      rw [List.foldl_cons, hstep]
      exact ih fun fd' hfd' => hrange fd' (List.mem_cons_of_mem fd hfd')

/-- Each descriptor of the parent adds a reference to its file, and no pipe is touched. -/
theorem inheritAll_spec {dst src : Nat} (hne : dst ≠ src) (s : Vfs φ β) :
    (∀ f, ((inheritAll s dst src).openFiles f).refcount =
      (s.openFiles f).refcount + (List.range processMaxOpenFiles).countP fun fd => s.fds (src, fd) = some f) ∧
      (inheritAll s dst src).pipes = s.pipes := by
  rw [inheritAll]
  generalize List.range processMaxOpenFiles = fds
  induction fds generalizing s with
  | nil => exact ⟨fun _ => rfl, rfl⟩
  | cons fd fds ih =>
      simp only [List.foldl_cons, List.countP_cons]
      cases hslot : s.fds (src, fd) with
      | none => simpa using ih s
      | some i =>
          obtain ⟨hcount, hpipes⟩ := ih ((s.addRef i).setFd dst fd (some i))
          have hfds : ∀ fd', ((s.addRef i).setFd dst fd (some i)).fds (src, fd') = s.fds (src, fd') :=
            fun fd' => Function.update_of_ne (fun heq => hne (congrArg Prod.fst heq).symm) _ _
          refine ⟨fun f => ?_, hpipes⟩
          rw [hcount f]
          simp only [hfds]
          have hfile : (((s.addRef i).setFd dst fd (some i)).openFiles f).refcount = (s.openFiles f).refcount + if i = f then 1 else 0 := by
            simp only [Vfs.setFd, Vfs.addRef, Vfs.setFile, Function.update_apply]
            by_cases heq : f = i
            · rw [if_pos heq, if_pos heq.symm, heq]
            · rw [if_neg heq, if_neg (Ne.symm heq), Nat.add_zero]
          rw [hfile]
          simp only [decide_eq_true_eq, Option.some.injEq]
          omega

/-- The references are as before exactly when there was nothing to inherit. -/
theorem inheritAll_same {dst src : Nat} (hne : dst ≠ src) (s : Vfs φ β) :
    (∀ f, ((inheritAll s dst src).openFiles f).refcount = (s.openFiles f).refcount) ↔
      ∀ fd < processMaxOpenFiles, s.fds (src, fd) = none := by
  obtain ⟨hcount, -⟩ := inheritAll_spec hne s
  constructor
  · intro hsame fd hfd
    cases hslot : s.fds (src, fd) with
    | none => rfl
    | some i =>
        have hpos : 0 < (List.range processMaxOpenFiles).countP fun fd => s.fds (src, fd) = some i :=
          List.countP_pos_iff.mpr ⟨fd, List.mem_range.mpr hfd, by simpa using hslot⟩
        have := hsame i
        rw [hcount i] at this
        omega
  · intro hempty f
    rw [hcount f, List.countP_eq_zero.mpr, Nat.add_zero]
    intro fd hfd
    simp [hempty fd (List.mem_range.mp hfd)]

end Inherit

namespace ProcKernel

variable {φ β : Type} {B : Backends φ β} {processEntryResume : Nat} {k : ProcKernel φ β} {parent : Option Nat} {i : Nat}

/-! ### The stages of a creation -/

/-- The address space that a creation in slot `i` gets. -/
def space (k : ProcKernel φ β) (parent : Option Nat) (i : Nat) : Option VmSpace × Vmm :=
  initSpace ((k.setSlot i ProcMemory.zeroed).template parent) k.sched.nextPid k.vmm

/-- The frames of its stack, or 0. -/
def stackPhys (k : ProcKernel φ β) (parent : Option Nat) (i : Nat) : Nat := (pmmAllocPages (k.space parent i).2.pmm processStackPages).1

/-- It gets both, and the stack has an address. -/
def Obtained (k : ProcKernel φ β) (parent : Option Nat) (i : Nat) : Prop :=
  (k.space parent i).1 ≠ none ∧ k.stackPhys parent i ≠ 0 ∧ vmmPhysToVirt k.hhdmOffset (k.stackPhys parent i) ≠ 0

def NoOpenFiles (k : ProcKernel φ β) (parent : Option Nat) : Prop :=
  ∀ q, parent = some q → ∀ fd < processMaxOpenFiles, k.vfs.fds (q + 1, fd) = none

/-- The slot is in no list. -/
def Unlinked (k : ProcKernel φ β) (i : Nat) : Prop :=
  (k.sched.processes i).rqNext = none ∧ (k.sched.processes i).parentNextChild = none

/-- A creation that gets a slot gets its memory too, or there is nothing it could leak: no descriptor to inherit, no link in the slot, and no stack without an address. -/
def CreationClean (k : ProcKernel φ β) (parent : Option Nat) : Prop :=
  ∀ i, allocProcessSlot k.sched = some i → k.Obtained parent i ∨
    k.NoOpenFiles parent ∧ k.Unlinked i ∧ ((k.space parent i).1 ≠ none → k.stackPhys parent i = 0)

theorem allocProcessStack_spec (k : ProcKernel φ β) (i : Nat) :
    let r := pmmAllocPages k.vmm.pmm processStackPages
    (r.1 ≠ 0 ∧ vmmPhysToVirt k.hhdmOffset r.1 ≠ 0 ∧ (k.allocProcessStack i).1 = 0 ∧ (k.allocProcessStack i).2.sched = k.sched ∧
      ((k.allocProcessStack i).2.slots i).kernelStack = vmmPhysToVirt k.hhdmOffset r.1) ∨
    (¬(r.1 ≠ 0 ∧ vmmPhysToVirt k.hhdmOffset r.1 ≠ 0) ∧
      k.allocProcessStack i = (-1, { k with vmm := { k.vmm with pmm := r.2 } })) := by
  by_cases hphys : (pmmAllocPages k.vmm.pmm processStackPages).1 = 0
  · exact Or.inr ⟨fun h => h.1 hphys, by simp only [allocProcessStack, if_pos hphys]⟩
  · by_cases hvirt : vmmPhysToVirt k.hhdmOffset (pmmAllocPages k.vmm.pmm processStackPages).1 = 0
    · exact Or.inr ⟨fun h => h.2 hvirt, by simp only [allocProcessStack, if_neg hphys, if_pos hvirt]⟩
    · refine Or.inl ⟨hphys, hvirt, ?_, ?_, ?_⟩
      · simp only [allocProcessStack, if_neg hphys, if_neg hvirt]
      · simp only [allocProcessStack, if_neg hphys, if_neg hvirt, setSlot]
      · simp only [allocProcessStack, if_neg hphys, if_neg hvirt, setSlot, Function.update_self]

/-- `setup_initial_context_locked` does not fail on a stack. -/
theorem setupContext_ret (hstack : (k.slots i).kernelStack ≠ 0) : (k.setupContext processEntryResume i).1 = 0 := by
  simp only [setupContext, SavedContext.setupInitialContext, if_neg hstack]

/-- The memory after the exit that a failed creation takes: without an address space, or with it destroyed again. -/
def memoryAfter (space : Option VmSpace × Vmm) : Vmm :=
  match space with
  | (none, v) => v
  | (some sp, v) => (sp.destroy { v with pmm := (pmmAllocPages v.pmm processStackPages).2 }).2

/-- The memory is obtained or one of the two exits behind it is taken; nothing else changes. -/
theorem obtainMemory_cases (B : Backends φ β) (processEntryResume : Nat) (k : ProcKernel φ β) (parent : Option Nat) (i : Nat) :
    let space := initSpace (k.template parent) k.sched.nextPid k.vmm
    let phys := (pmmAllocPages space.2.pmm processStackPages).1
    let r := k.obtainMemory B processEntryResume parent i
    r.2.sched = k.sched ∧
      ((space.1 ≠ none ∧ phys ≠ 0 ∧ vmmPhysToVirt k.hhdmOffset phys ≠ 0) ∧ r.1 = true ∨
        ¬(space.1 ≠ none ∧ phys ≠ 0 ∧ vmmPhysToVirt k.hhdmOffset phys ≠ 0) ∧ r.1 = false ∧ r.2.vfs = k.vfs ∧ r.2.vmm = memoryAfter space) := by
  rw [obtainMemory]
  rcases initSpace (k.template parent) k.sched.nextPid k.vmm with ⟨_ | sp, w⟩
  · exact ⟨rfl, Or.inr ⟨fun h => h.1 rfl, rfl, rfl, rfl⟩⟩
  · simp only
    generalize hk' : ({ k with vmm := w }.setSlot i { k.slots i with vmSpace := sp } : ProcKernel φ β) = k'
    have hvmm : k'.vmm = w := by rw [← hk']; rfl
    have hhhdm : k'.hhdmOffset = k.hhdmOffset := by rw [← hk']; rfl
    have hsched : k'.sched = k.sched := by rw [← hk']; rfl
    have hvfs : k'.vfs = k.vfs := by rw [← hk']; rfl
    have hspace : (k'.slots i).vmSpace = sp := by
      rw [← hk']
      simp only [setSlot, Function.update_self]
    have hstack := k'.allocProcessStack_spec i
    rw [hvmm, hhhdm] at hstack
    rcases hstack with ⟨hphys, hvirt, hret, hsame, hat⟩ | ⟨hnot, hfail⟩
    · rw [if_neg (not_not.mpr hret), setupContext_ret (by rw [hat]; exact hvirt)]
      exact ⟨hsame.trans hsched, Or.inl ⟨⟨Option.some_ne_none sp, hphys, hvirt⟩, rfl⟩⟩
    · rw [hfail]
      refine ⟨hsched, Or.inr ⟨fun h => hnot h.2, rfl, hvfs, ?_⟩⟩
      simp only [ne_eq, Int.reduceNeg, neg_eq_zero, one_ne_zero, not_false_eq_true, if_true, destroySpace, hspace]
      rfl

theorem prepareSlot_sched (B : Backends φ β) (k : ProcKernel φ β) (parent : Option Nat) (i : Nat) :
    (k.prepareSlot B parent i).sched = k.sched ∧ (k.prepareSlot B parent i).vmm = k.vmm ∧
      (k.prepareSlot B parent i).hhdmOffset = k.hhdmOffset ∧ (k.prepareSlot B parent i).slots = (k.setSlot i ProcMemory.zeroed).slots := by
  cases parent <;> exact ⟨rfl, rfl, rfl, rfl⟩

/-- A creation that has a slot succeeds with its memory, or fails without it. -/
theorem create_cases (B : Backends φ β) (processEntryResume : Nat) (parent : Option Nat) (hslot : allocProcessSlot k.sched = some i) :
    let r := k.createKernelProcessLocked B processEntryResume parent
    k.Obtained parent i ∧ r.1 = some i ∨
      ¬k.Obtained parent i ∧ r.1 = none ∧ r.2.vfs = (k.prepareSlot B parent i).vfs ∧ r.2.vmm = memoryAfter (k.space parent i) ∧
        r.2.sched = (createKernelProcess k.sched parent false).2 := by
  obtain ⟨hsched, hvmm, hhhdm, hslots⟩ := prepareSlot_sched B k parent i
  have hspace : initSpace ((k.prepareSlot B parent i).template parent) k.sched.nextPid k.vmm = k.space parent i := by
    rw [space, template, template, hsched, hslots]
    rfl
  have hcases := (k.prepareSlot B parent i).obtainMemory_cases B processEntryResume parent i
  simp only [hsched, hvmm, hhhdm, hspace] at hcases
  obtain ⟨hsame, hcases⟩ := hcases
  simp only [createKernelProcessLocked, hslot, hsame]
  rcases hcases with ⟨hok, htrue⟩ | ⟨hnot, hfalse, hvfs, hmemory⟩
  · refine Or.inl ⟨hok, ?_⟩
    rw [htrue, createKernelProcess_of_slot parent true hslot]
    rfl
  · refine Or.inr ⟨hnot, ?_, hvfs, hmemory, ?_⟩
    · rw [hfalse, createKernelProcess_of_slot parent false hslot]
      rfl
    · rw [hfalse]

/-! ### What a failure leaves -/

/-- Inheriting the parent's descriptors touches no pipe, and no file when there are none. -/
theorem prepareSlot_files (B : Backends φ β) (hparent : ∀ q, parent = some q → q ≠ i) :
    (∀ p, (k.prepareSlot B parent i).vfs.pipes p = k.vfs.pipes p) ∧
      ((∀ f, ((k.prepareSlot B parent i).vfs.openFiles f).refcount = (k.vfs.openFiles f).refcount) ↔ k.NoOpenFiles parent) := by
  cases parent with
  | none => exact ⟨fun _ => rfl, fun _ q hq => absurd hq.symm (Option.some_ne_none q), fun _ _ => rfl⟩
  | some q =>
      have hne : i + 1 ≠ q + 1 := fun heq => hparent q rfl (Nat.succ.inj heq).symm
      have hclosed : closeAll B (initIoState k.vfs i) (i + 1) = initIoState k.vfs i :=
        closeAll_of_empty B fun fd hfd => if_pos ⟨rfl, hfd⟩
      have hvfs : (k.prepareSlot B (some q) i).vfs = inheritAll (initIoState k.vfs i) (i + 1) (q + 1) := by
        change inheritAll (closeAll B (initIoState k.vfs i) (i + 1)) (i + 1) (q + 1) = _
        rw [hclosed]
      have hrow : ∀ fd, (initIoState k.vfs i).fds (q + 1, fd) = k.vfs.fds (q + 1, fd) :=
        fun fd => if_neg fun h => hne h.1.symm
      rw [hvfs]
      refine ⟨fun p => congrFun (inheritAll_spec hne _).2 p, (inheritAll_same hne _).trans ?_⟩
      simp only [hrow, NoOpenFiles, Option.some.injEq, forall_eq']

/-- The links of the process table are as before when the slot had none. -/
theorem failed_links (hslot : allocProcessSlot k.sched = some i) (hparent : ∀ q, parent = some q → q ≠ i) :
    let s := (createKernelProcess k.sched parent false).2
    s.runqHead = k.sched.runqHead ∧ s.runqTail = k.sched.runqTail ∧
      (∀ q, parent = some q → (s.processes q).childrenHead = (k.sched.processes q).childrenHead) ∧
      (((∀ j, (s.processes j).rqNext = (k.sched.processes j).rqNext) ∧
        ∀ j, (s.processes j).parentNextChild = (k.sched.processes j).parentNextChild) ↔ k.Unlinked i) := by
  rw [createKernelProcess_of_slot parent false hslot]
  simp only [Bool.false_eq_true, if_false]
  refine ⟨rfl, rfl, fun q hq => ?_, fun h => ?_, fun h => ⟨fun j => ?_, fun j => ?_⟩⟩
  · rw [set_processes_of_ne (hparent q hq)]
  · have hnext := h.1 i
    have hchild := h.2 i
    rw [set_processes_self] at hnext hchild
    exact ⟨hnext.symm, hchild.symm⟩
  · by_cases hj : j = i
    · rw [hj, set_processes_self, h.1]
      rfl
    · rw [set_processes_of_ne hj]
  · by_cases hj : j = i
    · rw [hj, set_processes_self, h.2]
      rfl
    · rw [set_processes_of_ne hj]

/-- The frames are as before when no stack has been taken. -/
theorem failed_frames (parent : Option Nat) (i : Nat) (hinv : k.vmm.pmm.Inv)
    (hcurrent : ∀ frame, bitmapGet k.vmm.pmm.bitmap frame = true → k.vmm.currentPml4 ≠ frame * pageSize) :
    ((memoryAfter (k.space parent i)).pmm.bitmap = k.vmm.pmm.bitmap ∧
      (memoryAfter (k.space parent i)).pmm.freeFrames = k.vmm.pmm.freeFrames) ↔ ((k.space parent i).1 ≠ none → k.stackPhys parent i = 0) := by
  rw [stackPhys]
  rcases hspace : k.space parent i with ⟨_ | sp, w⟩
  · exact ⟨fun _ h => absurd rfl h, fun _ => initSpace_none hinv hspace⟩
  · refine ((initSpace_taken hinv hcurrent hspace).after_stack hinv).trans ⟨fun h _ => h, fun h => h (Option.some_ne_none sp)⟩

end ProcKernel

open ProcKernel

/-- A creation that fails leaves everything as it was exactly when it had nothing it could leak. -/
theorem create_leaks_iff {φ β : Type} (B : Backends φ β) (processEntryResume : Nat) (k : ProcKernel φ β) (parent : Option Nat)
    (hinv : k.vmm.pmm.Inv) (hcurrent : ∀ frame, bitmapGet k.vmm.pmm.bitmap frame = true → k.vmm.currentPml4 ≠ frame * pageSize)
    (hparent : ∀ q, parent = some q → (k.sched.processes q).used = true) :
    ((k.createKernelProcessLocked B processEntryResume parent).1 = none →
      NothingLeaked parent k (k.createKernelProcessLocked B processEntryResume parent).2) ↔ k.CreationClean parent := by
  cases hslot : allocProcessSlot k.sched with
  | none =>
      have hfail : k.createKernelProcessLocked B processEntryResume parent = (none, k) := by
        simp only [createKernelProcessLocked, hslot]
      rw [hfail]
      refine ⟨fun _ i hi => ?_, fun _ _ => ⟨fun _ => rfl, fun _ => ⟨rfl, rfl⟩, rfl, rfl, rfl, rfl, fun _ => rfl, fun _ _ => rfl, fun _ => rfl⟩⟩
      rw [hslot] at hi
      cases hi
  | some i =>
      have hne : ∀ q, parent = some q → q ≠ i := by
        intro q hq heq
        have hused := hparent q hq
        rw [heq, (allocProcessSlot_some hslot).2] at hused
        cases hused
      obtain ⟨hpipes, hfiles⟩ := prepareSlot_files (k := k) B hne
      obtain ⟨hhead, htail, hchildren, hlinks⟩ := failed_links (k := k) hslot hne
      have hframes := failed_frames parent i hinv hcurrent
      have hclean : k.CreationClean parent ↔ k.Obtained parent i ∨
          k.NoOpenFiles parent ∧ k.Unlinked i ∧ ((k.space parent i).1 ≠ none → k.stackPhys parent i = 0) := by
        simp only [CreationClean, hslot, Option.some.injEq, forall_eq']
      rw [hclean]
      rcases create_cases B processEntryResume parent hslot with ⟨hok, hsome⟩ | ⟨hnot, hnone, hvfs, hvmm, hsched⟩
      · exact ⟨fun _ => Or.inl hok, fun _ hnone => by rw [hsome] at hnone; cases hnone⟩
      · constructor
        · intro h
          have hleft := h hnone
          refine Or.inr ⟨hfiles.mp ?_, hlinks.mp ⟨?_, ?_⟩, hframes.mp ⟨?_, ?_⟩⟩
          · rw [← hvfs]
            exact hleft.refcount
          · rw [← hsched]
            exact hleft.rqNext
          · rw [← hsched]
            exact hleft.parentNextChild
          · rw [← hvmm]
            exact hleft.bitmap
          · rw [← hvmm]
            exact hleft.freeFrames
        · rintro (hok | ⟨hfd, hunlinked, hstack⟩) _
          · exact absurd hok hnot
          · obtain ⟨hbitmap, hfree⟩ := hframes.mpr hstack
            obtain ⟨hnext, hsibling⟩ := hlinks.mpr hunlinked
            constructor
            case refcount =>
              rw [hvfs]
              exact hfiles.mpr hfd
            case pipes =>
              intro p
              rw [hvfs, hpipes]
              exact ⟨rfl, rfl⟩
            case bitmap => rw [hvmm, hbitmap]
            case freeFrames => rw [hvmm, hfree]
            case runqHead => rw [hsched, hhead]
            case runqTail => rw [hsched, htail]
            case rqNext =>
              rw [hsched]
              exact hnext
            case childrenHead =>
              rw [hsched]
              exact hchildren
            case parentNextChild =>
              rw [hsched]
              exact hsibling

/-! ### A machine without free memory -/

/-- A process in slot 0 with a page table, no free frame, and the descriptors given. -/
def fullMachine (fds : Nat × Nat → Option Nat) : ProcKernel Unit Unit where
  sched :=
    { processes := fun j => if j = 0 then { Process.zeroed with used := true, pid := 1, state := .running, priority := 128 } else Process.zeroed
      current := some 0
      idle := none
      runqHead := fun _ => none
      runqTail := fun _ => none
      nextPid := 2 }
  vfs := { blankVfs with openFiles := fun _ => freshFile, fds := fds }
  vmm := { pmm := Pmm.exhausted, tables := fun _ _ => 0#64, currentPml4 := 0x1000 }
  hhdmOffset := 0xFFFF800000000000
  memory := fun _ => 0
  ctxWarned := false
  slots := fun j => if j = 0 then { ProcMemory.zeroed with vmSpace := VmSpace.owned 0x1000 pagingUserVaMin pagingUserVaMax } else ProcMemory.zeroed

theorem fullMachine_slot (fds : Nat × Nat → Option Nat) : allocProcessSlot (fullMachine fds).sched = some 1 := rfl

/-- It shares the page table of its parent, and there is no stack for it. -/
theorem fullMachine_stack (fds : Nat × Nat → Option Nat) : (fullMachine fds).stackPhys (some 0) 1 = 0 := by
  have hsame : ((fullMachine fds).space (some 0) 1).2.pmm = Pmm.exhausted := rfl
  rw [stackPhys, hsame]
  rcases pmmAllocPages_cases Pmm.exhausted_inv (show 0 < processStackPages by decide) (by decide) with ⟨start, -, hrun, -⟩ | ⟨-, hres⟩
  · have hfree := hrun.2 0 (by decide)
    rw [Pmm.exhausted_taken] at hfree
    cases hfree
  · rw [hres]

theorem fullMachine_fails (fds : Nat × Nat → Option Nat) : ¬(fullMachine fds).Obtained (some 0) 1 :=
  fun h => h.2.1 (fullMachine_stack fds)

theorem create_leaks_iff_noFiles :
    NothingLeaked (some 0) (fullMachine fun _ => none) ((fullMachine fun _ => none).createKernelProcessLocked noFiles 0x1000 (some 0)).2 := by
  refine (create_leaks_iff noFiles 0x1000 (fullMachine fun _ => none) (some 0) Pmm.exhausted_inv (fun frame hfree => ?_) (fun q hq => ?_)).mpr
    (fun i hi => Or.inr ?_) ?_
  · exact absurd ((Pmm.exhausted_taken frame).symm.trans hfree) (by decide)
  · cases hq
    rfl
  · cases (fullMachine_slot _).symm.trans hi
    exact ⟨fun _ _ _ _ => rfl, ⟨rfl, rfl⟩, fun _ => fullMachine_stack _⟩
  · rcases create_cases noFiles 0x1000 (some 0) (fullMachine_slot fun _ => none) with ⟨hok, -⟩ | ⟨-, hnone, -⟩
    · exact absurd hok (fullMachine_fails _)
    · exact hnone

/-- The parent has descriptor 0 open. -/
def oneOpenFile : ProcKernel Unit Unit := fullMachine fun key => if key = (1, 0) then some 0 else none

theorem oneOpenFile_inherited : ((oneOpenFile.prepareSlot noFiles (some 0) 1).vfs.openFiles 0).refcount = 2 := by decide

/-- After the failure the file has two references, and no process has the second one. -/
theorem failed_creation_keeps_reference :
    ¬((oneOpenFile.createKernelProcessLocked noFiles 0x1000 (some 0)).1 = none →
      NothingLeaked (some 0) oneOpenFile (oneOpenFile.createKernelProcessLocked noFiles 0x1000 (some 0)).2) := by
  intro hleft
  have hslot : allocProcessSlot oneOpenFile.sched = some 1 := fullMachine_slot _
  rcases create_cases noFiles 0x1000 (some 0) hslot with ⟨hok, -⟩ | ⟨-, hnone, hvfs, -⟩
  · exact absurd hok (fullMachine_fails _)
  · have hkept := (hleft hnone).refcount 0
    rw [hvfs, oneOpenFile_inherited] at hkept
    exact absurd hkept (by decide)

end Tsukasa
