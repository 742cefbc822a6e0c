import Tsukasa.Mm.KernelCalls
import Tsukasa.Mm.Isolation

/-!
# Coherence of the kernel halves

Address spaces share their kernel half because `vmm_create_address_space` and `vmm_clone_address_space` copy the top-level entries of another one. Later calls reach every address space as long as they write below these entries. A call that needs a new top-level entry writes it into the current table only, so the halves stay the same in every run whose calls find their top-level entries present or run while there is one address space.
-/

namespace Tsukasa

open Lib.Radix

namespace Vmm

variable {roots : List Nat} {v v' : Vmm}

/-! ### Steps that write free frames only -/

section Unchanged

variable (htree : v.KernelTree roots)
  (hwrites : ∀ table i, v'.tables table i ≠ v.tables table i → ∃ frame, table = frame * pageSize ∧ bitmapGet v.pmm.bitmap frame = true)
include htree hwrites

theorem KernelTree.tables_eq {root : Nat} (hroot : root ∈ roots) {p : List Nat} (hp : p ∈ KernelPath) {table : Nat}
    (htable : v.tableAt root p = some table) (i : Nat) : v'.tables table i = v.tables table i := by
  by_contra hne
  obtain ⟨frame, rfl, hfree⟩ := hwrites table i hne
  rw [htree.taken root hroot p hp frame htable] at hfree
  simp at hfree

theorem KernelTree.tableAt_eq {root : Nat} (hroot : root ∈ roots) {p : List Nat} (hp : p ∈ KernelPath) :
    v'.tableAt root p = v.tableAt root p := by
  apply descend_congr tableBelow
  intro before i hpre node hnode
  have hbefore := mem_kernelPath_of_concat (kernelPath_prefixClosed _ _ hpre hp)
  exact htree.tables_eq hwrites hroot hbefore hnode i

theorem KernelTree.of_unchanged (hinv : v'.pmm.Inv)
    (hbits : ∀ frame, bitmapGet v'.pmm.bitmap frame = true → bitmapGet v.pmm.bitmap frame = true) : v'.KernelTree roots where
  pmm := hinv
  root := htree.root
  taken root hroot p hp frame htable := by
    rw [htree.tableAt_eq hwrites hroot hp] at htable
    have htaken := htree.taken root hroot p hp frame htable
    rw [Bool.eq_false_iff] at htaken ⊢
    exact fun hbit => htaken (hbits frame hbit)
  layered r hr o ho p hp q hq t hrt hot := by
    rw [htree.tableAt_eq hwrites hr hp] at hrt
    rw [htree.tableAt_eq hwrites ho hq] at hot
    exact htree.layered r hr o ho p hp q hq t hrt hot

end Unchanged

/-! ### A copied kernel half -/

theorem copyKernelHalf_copied (v : Vmm) {dst src : Nat} (hne : src ≠ dst) {i : Nat} (hlo : 256 ≤ i) (hhi : i < 512) :
    (copyKernelHalf v dst src).tables dst i = v.tables src i := by
  have hfold : ∀ (l : List Nat) (w : Vmm), (l.foldl (fun v i => v.setEntry dst i (v.tables src i)) w).tables dst i =
      if i ∈ l then w.tables src i else w.tables dst i := by
    intro l
    induction l with
    | nil => intro w; simp
    | cons j l ih =>
        intro w
        have hsrc : (w.setEntry dst j (w.tables src j)).tables src i = w.tables src i := write_of_ne (Or.inl hne)
        rw [List.foldl_cons, ih, hsrc]
        by_cases hij : i = j
        · subst hij
          simp [setEntry]
        · have hdst : (w.setEntry dst j (w.tables src j)).tables dst i = w.tables dst i := write_of_ne (Or.inr hij)
          simp [hij, hdst]
  rw [copyKernelHalf, hfold, if_pos (List.mem_range'_1.mpr ⟨hlo, by omega⟩)]

theorem KernelTree.ne_new {start : Nat} (htree : v.KernelTree roots) (hrun : FreeRun v.pmm start 1) {root : Nat}
    (hroot : root ∈ roots) : root ≠ start * pageSize :=
  fun h => htree.ne_fresh hrun hroot nil_mem_kernelPath (congrArg some h)

section Created

variable {start src : Nat} (htree : v.KernelTree roots) (hrun : FreeRun v.pmm start 1) (hsrc : src ∈ roots)
include htree hrun hsrc

theorem created_entry {i : Nat} (hi : [i] ∈ KernelPath) :
    (copyKernelHalf (v.fresh start) (start * pageSize) src).tables (start * pageSize) i = v.tables src i := by
  have hne := htree.ne_new hrun hsrc
  rw [copyKernelHalf_copied _ hne (hi.2.1 i rfl) (hi.2.2 i (by simp))]
  exact congrFun (Function.update_of_ne hne _ _) i

/-- Below its top-level table, the new kernel half is that of the source. -/
theorem created_tableAt {p : List Nat} (hp : p ∈ KernelPath) (hne : p ≠ []) :
    (copyKernelHalf (v.fresh start) (start * pageSize) src).tableAt (start * pageSize) p = v.tableAt src p := by
  have hwrites := created_writes hrun src
  cases p with
  | nil => exact absurd rfl hne
  | cons i p =>
      have hi : [i] ∈ KernelPath := kernelPath_prefixClosed _ _ ⟨p, rfl⟩ hp
      rw [← htree.tableAt_eq hwrites hsrc hp]
      simp only [tableAt, descend, created_entry htree hrun hsrc hi,
        htree.tables_eq hwrites hsrc nil_mem_kernelPath (show v.tableAt src [] = some src from rfl) i]

theorem created_kernelTree :
    (copyKernelHalf (v.fresh start) (start * pageSize) src).KernelTree (start * pageSize :: roots) := by
  have hwrites := created_writes hrun src
  have hnew := fun {p : List Nat} => @created_tableAt _ _ _ _ htree hrun hsrc p
  have hpmm := (copyKernelHalf_spec (v.fresh start) (start * pageSize) src).1
  have hold := fun {r : Nat} (hr : r ∈ roots) {p : List Nat} (hp : p ∈ KernelPath) => htree.tableAt_eq hwrites hr hp
  have hfresh := fun {r : Nat} (hr : r ∈ roots) {p : List Nat} (hp : p ∈ KernelPath) => htree.ne_fresh hrun hr hp
  generalize copyKernelHalf (v.fresh start) (start * pageSize) src = w at *
  have hbit : ∀ frame, bitmapGet w.pmm.bitmap frame = if frame = start then false else bitmapGet v.pmm.bitmap frame := by
    intro frame
    rw [hpmm, fresh, Pmm.bitmapGet_take]
    exact if_congr (by omega) rfl rfl
  -- every path below a top-level table is a path below an old one
  have hbelow : ∀ root ∈ start * pageSize :: roots, ∃ old ∈ roots, ∀ p ∈ KernelPath, p ≠ [] → w.tableAt root p = v.tableAt old p := by
    intro root hroot
    rcases List.mem_cons.mp hroot with rfl | hroot
    · exact ⟨src, hsrc, fun p hp hne => hnew hp hne⟩
    · exact ⟨root, hroot, fun p hp _ => hold hroot hp⟩
  have hroots : ∀ root ∈ start * pageSize :: roots, ∀ other ∈ start * pageSize :: roots, ∀ q ∈ KernelPath,
      w.tableAt other q = some root → q = [] := by
    intro root hroot other hother q hq htable
    by_contra hne
    obtain ⟨old, hmem, heq⟩ := hbelow other hother
    rw [heq q hq hne] at htable
    rcases List.mem_cons.mp hroot with rfl | hroot
    · exact hfresh hmem hq htable
    · have hlen := htree.layered root hroot old hmem [] nil_mem_kernelPath q hq root rfl htable
      exact hne (List.length_eq_zero_iff.mp hlen.symm)
  refine ⟨by rw [hpmm]; exact htree.pmm.take hrun, fun root hroot => ?_, fun root hroot p hp frame htable => ?_,
    fun r hr o ho p hp q hq t hrt hot => ?_⟩
  · rcases List.mem_cons.mp hroot with rfl | hroot
    · have hlt := page_lt_of_freeRun htree.pmm hrun
      refine ⟨Nat.mul_mod_left _ _, ?_, hlt⟩
      intro hzero
      have hfree : bitmapGet v.pmm.bitmap start = true := by simpa using hrun.2 0 (by omega)
      rw [(Nat.mul_eq_zero.mp hzero).resolve_right (by decide), htree.pmm.zero] at hfree
      simp at hfree
    · exact htree.root root hroot
  · rw [hbit]
    split
    · rfl
    rename_i hframe
    by_cases hnil : p = []
    · subst hnil
      obtain rfl : root = frame * pageSize := Option.some.inj htable
      have hmem := (List.mem_cons.mp hroot).resolve_left fun h => hframe (Nat.eq_of_mul_eq_mul_right (by decide) h)
      exact htree.taken _ hmem [] nil_mem_kernelPath frame rfl
    · obtain ⟨old, hmem, heq⟩ := hbelow root hroot
      rw [heq p hp hnil] at htable
      exact htree.taken old hmem p hp frame htable
  · by_cases hp' : p = []
    · subst hp'
      obtain rfl : r = t := Option.some.inj hrt
      rw [hroots r hr o ho q hq hot]
    · by_cases hq' : q = []
      · subst hq'
        obtain rfl : o = t := Option.some.inj hot
        rw [hroots o ho r hr p hp hrt]
      · obtain ⟨old, hmem, heq⟩ := hbelow r hr
        obtain ⟨old', hmem', heq'⟩ := hbelow o ho
        rw [heq p hp hp'] at hrt
        rw [heq' q hq hq'] at hot
        exact htree.layered old hmem old' hmem' p hp q hq t hrt hot

end Created

end Vmm

open Vmm

/-! ### The machine -/

/-- The calls on the kernel half. All but the first three are made on the current address space. -/
inductive KernelCall where
  | create
  | clone (srcPml4Phys : Nat)
  | switch (pml4Phys : Nat)
  | map (virtAddr physAddr pageCount : Nat) (mapFlags : BitVec 64)
  | unmap (virtAddr pageCount : Nat)
  | mapIo (physBase size : Nat)

/-- A range whose size does not wrap and that is no user range: a kernel range, or one that every call refuses. -/
def NoUserRange (virtAddr pageCount : Nat) : Prop :=
  virtAddr < 2 ^ 64 ∧ pageCount < 2 ^ 52 ∧ pagingRangeIsUser virtAddr (wrap64 (pageCount * pageSize)) = false

namespace KernelCall

def step (hhdmOffset : Nat) (s : Spaces) : KernelCall → Spaces
  | create => s.add (vmmCreateAddressSpace s.vmm)
  | clone srcPml4Phys => s.add (vmmCloneAddressSpace s.vmm srcPml4Phys)
  | switch pml4Phys => { s with vmm := vmmSwitchPml4 s.vmm pml4Phys }
  | map virtAddr physAddr pageCount mapFlags =>
      { s with vmm := (vmmMapPages s.vmm s.vmm.currentPml4 virtAddr physAddr pageCount mapFlags).2 }
  | unmap virtAddr pageCount => { s with vmm := (vmmUnmapPages s.vmm s.vmm.currentPml4 virtAddr pageCount).2 }
  | mapIo physBase size => { s with vmm := (vmmMapIoRegion hhdmOffset s.vmm physBase size).2 }

/-- The calls go to live address spaces and to kernel ranges. -/
def Legal (s : Spaces) : KernelCall → Prop
  | create => True
  | clone srcPml4Phys => srcPml4Phys ∈ s.live
  | switch pml4Phys => pml4Phys ∈ s.live
  | map virtAddr _ pageCount _ => NoUserRange virtAddr pageCount
  | unmap virtAddr pageCount => NoUserRange virtAddr pageCount
  | mapIo physBase _ => physBase < 2 ^ 64

/-- There is one address space, or the current one has the top-level entries of all pages of the range. -/
def SlotsShared (s : Spaces) (virtAddr pageCount : Nat) : Prop :=
  (∀ root ∈ s.live, root = s.vmm.currentPml4) ∨
    ∀ i < pageCount, s.vmm.tables s.vmm.currentPml4 (pml4Idx (virtAddr + i * pageSize)) &&& ptePresent ≠ 0#64

/-- A call that may map pages needs no new top-level entry while there are several address spaces. -/
def NoNewSlot (hhdmOffset : Nat) (s : Spaces) : KernelCall → Prop
  | map virtAddr physAddr pageCount mapFlags =>
      validateMapRequest virtAddr physAddr pageCount mapFlags = true → SlotsShared s virtAddr pageCount
  | mapIo physBase size =>
      pagingRangeIsKernel (ioVirtPage hhdmOffset physBase) (wrap64 (ioPageCount physBase size * pageSize)) = true →
        SlotsShared s (ioVirtPage hhdmOffset physBase) (ioPageCount physBase size)
  | _ => True

end KernelCall

/-- The kernel half below every live top-level table is well formed, and it is the same half. -/
structure Spaces.Coherent (s : Spaces) : Prop where
  tree : s.vmm.KernelTree s.live
  current : s.vmm.currentPml4 ∈ s.live
  same : ∀ root ∈ s.live, ∀ other ∈ s.live, ∀ i, [i] ∈ KernelPath → s.vmm.tables root i = s.vmm.tables other i

namespace Spaces.Coherent

variable {hhdmOffset : Nat} {s : Spaces} {v' : Vmm}

theorem tableAt_eq (hs : s.Coherent) {root other : Nat} (hroot : root ∈ s.live) (hother : other ∈ s.live) {p : List Nat}
    (hp : p ∈ KernelPath) (hne : p ≠ []) : s.vmm.tableAt root p = s.vmm.tableAt other p := by
  cases p with
  | nil => exact absurd rfl hne
  | cons i p =>
      have hi : [i] ∈ KernelPath := kernelPath_prefixClosed _ _ ⟨p, rfl⟩ hp
      simp only [Vmm.tableAt, descend, hs.same root hroot other hother i hi]

theorem query_eq (hs : s.Coherent) {root other : Nat} (hroot : root ∈ s.live) (hother : other ∈ s.live) {va : Nat}
    (hpage : KernelPage va) : vmmQueryPage s.vmm root va = vmmQueryPage s.vmm other va := by
  rw [hs.tree.query_eq hroot hpage, hs.tree.query_eq hother hpage, pteAt, pteAt,
    hs.tableAt_eq hroot hother (pathOf_mem_kernelPath hpage) (by simp [pathOf])]

/-- A call that writes no top-level entry, or runs while there is one address space, keeps the halves the same. -/
theorem of_kernelStep (hs : s.Coherent) {slots : Set Nat} (hstep : KernelStep s.live s.vmm.currentPml4 slots s.vmm v')
    (hshared : (∀ root ∈ s.live, root = s.vmm.currentPml4) ∨
      ∀ slot ∈ slots, s.vmm.tables s.vmm.currentPml4 slot &&& ptePresent ≠ 0#64) :
    Spaces.Coherent ⟨v', s.live⟩ := by
  refine ⟨hstep.tree, by rw [hstep.current]; exact hs.current, fun root hroot other hother i hi => ?_⟩
  rcases hshared with hone | hpresent
  · rw [hone root hroot, hone other hother]
  · have hkeep : ∀ r ∈ s.live, v'.tables r i = s.vmm.tables r i := by
      intro r hr
      by_contra hne
      obtain ⟨p, hp, htable, hnil⟩ := hstep.frame r i hne
      have hlen := hstep.tree.layered r hr _ hs.current [] nil_mem_kernelPath p hp r rfl htable
      have hp' : p = [] := List.length_eq_zero_iff.mp hlen.symm
      obtain ⟨hslot, -, habsent⟩ := hnil hp'
      subst hp'
      obtain rfl : s.vmm.currentPml4 = r := Option.some.inj htable
      exact hpresent i hslot habsent
    rw [hkeep root hroot, hkeep other hother]
    exact hs.same root hroot other hother i hi

theorem of_notCreated (hs : s.Coherent) (hnot : NotCreated s.vmm v') (hcurrent : v'.currentPml4 = s.vmm.currentPml4) :
    Spaces.Coherent ⟨v', s.live⟩ := by
  have hkeep : ∀ r ∈ s.live, ∀ i, v'.tables r i = s.vmm.tables r i := fun r hr i =>
    hs.tree.tables_eq hnot.frame hr nil_mem_kernelPath rfl i
  refine ⟨hs.tree.of_unchanged hnot.frame hnot.inv fun frame => (hnot.bits frame).mp, ?_, fun root hroot other hother i hi => ?_⟩
  · rw [hcurrent]
    exact hs.current
  · rw [hkeep root hroot, hkeep other hother]
    exact hs.same root hroot other hother i hi

theorem of_created (hs : s.Coherent) {start src : Nat} (hrun : FreeRun s.vmm.pmm start 1) (hsrc : src ∈ s.live) :
    Spaces.Coherent ⟨copyKernelHalf (s.vmm.fresh start) (start * pageSize) src, start * pageSize :: s.live⟩ := by
  have hwrites := Vmm.created_writes hrun src
  have hentry : ∀ root ∈ start * pageSize :: s.live, ∀ i, [i] ∈ KernelPath →
      (copyKernelHalf (s.vmm.fresh start) (start * pageSize) src).tables root i = s.vmm.tables src i := by
    intro root hroot i hi
    rcases List.mem_cons.mp hroot with rfl | hroot
    · exact created_entry hs.tree hrun hsrc hi
    · rw [hs.tree.tables_eq hwrites hroot nil_mem_kernelPath rfl i]
      exact hs.same root hroot src hsrc i hi
  have htree := created_kernelTree hs.tree hrun hsrc
  have hcurrent := (copyKernelHalf_spec (s.vmm.fresh start) (start * pageSize) src).2.1
  generalize copyKernelHalf (s.vmm.fresh start) (start * pageSize) src = w at *
  refine ⟨htree, ?_, fun root hroot other hother i hi => ?_⟩
  · rw [hcurrent]
    exact List.mem_cons_of_mem _ hs.current
  · rw [hentry root hroot i hi, hentry other hother i hi]

/-! ### The steps -/

theorem create (hs : s.Coherent) : ((KernelCall.create).step hhdmOffset s).Coherent := by
  rw [KernelCall.step]
  have hzero : s.vmm.currentPml4 ≠ 0 := (hs.tree.root _ hs.current).2.1
  rcases vmmCreateAddressSpace_cases hs.tree.pmm with ⟨hfail, hnot⟩ | ⟨start, -, hrun, hcreate⟩
  · rw [← Prod.eta (vmmCreateAddressSpace s.vmm), hfail, Spaces.add_none]
    exact hs.of_notCreated hnot (vmmCreateAddressSpace_current s.vmm)
  · rw [hcreate, Spaces.add_some, hs.tree.tableVirt_root hs.current]
    exact hs.of_created hrun hs.current

theorem clone (hs : s.Coherent) {src : Nat} (hsrc : src ∈ s.live) : ((KernelCall.clone src).step hhdmOffset s).Coherent := by
  rw [KernelCall.step]
  rcases vmmCloneAddressSpace_cases hs.tree.pmm src with ⟨hfail, hnot⟩ | ⟨start, -, hrun, hclone⟩
  · rw [← Prod.eta (vmmCloneAddressSpace s.vmm src), hfail, Spaces.add_none]
    exact hs.of_notCreated hnot (vmmCloneAddressSpace_current s.vmm src)
  · rw [hclone, Spaces.add_some, hs.tree.tableVirt_root hsrc]
    exact hs.of_created hrun hsrc

theorem switch (hs : s.Coherent) {root : Nat} (hroot : root ∈ s.live) : ((KernelCall.switch root).step hhdmOffset s).Coherent := by
  rw [KernelCall.step, vmmSwitchPml4, hs.tree.tableVirt_root hroot]
  split
  · exact hs
  · refine ⟨⟨hs.tree.pmm, hs.tree.root, hs.tree.taken, hs.tree.layered⟩, hroot, hs.same⟩

theorem map (hs : s.Coherent) {va pa count : Nat} {flags : BitVec 64} (hrange : NoUserRange va count)
    (hslots : (KernelCall.map va pa count flags).NoNewSlot hhdmOffset s) :
    ((KernelCall.map va pa count flags).step hhdmOffset s).Coherent := by
  rw [KernelCall.step]
  by_cases hvalid : validateMapRequest va pa count flags = true
  · apply hs.of_kernelStep (vmmMapPages_kernel hrange.1 hrange.2.1 hrange.2.2 hs.current hs.tree pa flags)
    apply (hslots hvalid).imp_right
    intro hpresent slot hslot
    obtain ⟨i, hi, rfl⟩ := hslot
    exact hpresent i hi
  · have hzero := (hs.tree.root _ hs.current).2.1
    simp only [vmmMapPages, if_neg hzero, hvalid, Bool.not_false, if_true]
    exact hs

theorem unmap (hs : s.Coherent) {va count : Nat} (hrange : NoUserRange va count) :
    ((KernelCall.unmap va count).step hhdmOffset s).Coherent := by
  have hstep : KernelStep s.live s.vmm.currentPml4 ∅ s.vmm (vmmUnmapPages s.vmm s.vmm.currentPml4 va count).2 :=
    vmmUnmapPages_kernel hrange.1 hrange.2.1 hrange.2.2 hs.current hs.tree
  apply hs.of_kernelStep hstep
  exact Or.inr fun slot hslot => absurd hslot (Set.notMem_empty slot)

theorem mapIo (hs : s.Coherent) {physBase size : Nat} (hbase : physBase < 2 ^ 64)
    (hslots : (KernelCall.mapIo physBase size).NoNewSlot hhdmOffset s) :
    ((KernelCall.mapIo physBase size).step hhdmOffset s).Coherent := by
  rw [KernelCall.step]
  by_cases hkernel : pagingRangeIsKernel (ioVirtPage hhdmOffset physBase) (wrap64 (ioPageCount physBase size * pageSize)) = true
  · apply hs.of_kernelStep (vmmMapIoRegion_kernel hhdmOffset physBase size hbase hs.current hs.tree)
    apply (hslots hkernel).imp_right
    intro hpresent slot hslot
    obtain ⟨i, hi, rfl⟩ := hslot
    exact hpresent i hi
  · have hsame : (vmmMapIoRegion hhdmOffset s.vmm physBase size).2 = s.vmm := by
      simp only [vmmMapIoRegion, hkernel, Bool.not_false, if_true]
      split_ifs <;> rfl
    rw [hsame]
    exact hs

theorem step (hs : s.Coherent) {call : KernelCall} (hlegal : call.Legal s) (hslots : call.NoNewSlot hhdmOffset s) :
    (call.step hhdmOffset s).Coherent := by
  cases call with
  | create => exact hs.create
  | clone src => exact hs.clone hlegal
  | switch root => exact hs.switch hlegal
  | map va pa count flags => exact hs.map hlegal hslots
  | unmap va count => exact hs.unmap hlegal
  | mapIo physBase size => exact hs.mapIo hlegal hslots

end Spaces.Coherent

/-- The machine after the bootloader: one address space, the one it runs on. -/
def bootSpaces (boot : Vmm) : Spaces := ⟨boot, [boot.currentPml4]⟩

theorem bootSpaces_coherent {boot : Vmm} (hboot : boot.KernelTree [boot.currentPml4]) : (bootSpaces boot).Coherent := by
  refine ⟨hboot, List.mem_singleton_self _, fun root hroot other hother i _ => ?_⟩
  rw [List.mem_singleton.mp hroot, List.mem_singleton.mp hother]

/-- In every run whose mapping calls need no new top-level entry while there are several address spaces, a kernel page has the same mapping in all of them. -/
theorem kernel_half_coherent (hhdmOffset : Nat) (boot : Vmm) (hboot : boot.KernelTree [boot.currentPml4]) (calls : List KernelCall)
    (hcalls : Lib.Allowed (fun s call => call.Legal s ∧ call.NoNewSlot hhdmOffset s) (KernelCall.step hhdmOffset) (bootSpaces boot) calls) :
    let s := Lib.run (KernelCall.step hhdmOffset) (bootSpaces boot) calls
    ∀ P ∈ s.live, ∀ Q ∈ s.live, ∀ va, KernelPage va → vmmQueryPage s.vmm P va = vmmQueryPage s.vmm Q va := by
  intro s P hP Q hQ va hpage
  have hstep : ∀ s call, Spaces.Coherent s → KernelCall.Legal s call ∧ KernelCall.NoNewSlot hhdmOffset s call →
      Spaces.Coherent (KernelCall.step hhdmOffset s call) := fun s call hs hcall => hs.step hcall.1 hcall.2
  have hs : s.Coherent := Lib.run_invariant hstep (bootSpaces_coherent hboot) hcalls
  exact hs.query_eq hP hQ hpage

/-- An empty top-level table has no tables below it. -/
theorem tenFrameMachine_kernelTree : tenFrameMachine.KernelTree [tenFrameMachine.currentPml4] := by
  have honly : ∀ root p table, tenFrameMachine.tableAt root p = some table → p = [] ∧ root = table := by
    intro root p table htable
    cases p with
    | nil => exact ⟨rfl, Option.some.inj htable⟩
    | cons i p => simp [Vmm.tableAt, descend, tenFrameMachine, tableBelow] at htable
  refine ⟨tenFrameMachine_inv, by decide, fun root hroot p _ frame htable => ?_, fun r _ o _ p _ q _ t hr ho => ?_⟩
  · obtain ⟨-, heq⟩ := honly _ _ _ htable
    rw [List.mem_singleton.mp hroot] at heq
    have hframe : frame = 1 := by
      simp only [tenFrameMachine, pageSize] at heq
      omega
    rw [hframe]
    decide
  · rw [(honly _ _ _ hr).1, (honly _ _ _ ho).1]

/-- A first mapping makes the top-level entry 256, an address space is made, and a second mapping goes below that entry. -/
theorem kernel_half_coherent_sharedSlot :
    let calls : List KernelCall := [.map 0xFFFF800000000000 0x200000 1 pagingMapRead, .create, .map 0xFFFF800000001000 0x300000 1 pagingMapRead]
    let s := Lib.run (KernelCall.step 0) (bootSpaces tenFrameMachine) calls
    s.live.length = 2 ∧ ∀ P ∈ s.live, ∀ Q ∈ s.live, ∀ va, KernelPage va → vmmQueryPage s.vmm P va = vmmQueryPage s.vmm Q va := by
  refine ⟨by decide +kernel, kernel_half_coherent 0 tenFrameMachine tenFrameMachine_kernelTree _ ?_⟩
  refine ⟨⟨⟨by decide, by decide, by decide⟩, fun _ => Or.inl (by decide)⟩, ⟨trivial, trivial⟩,
    ⟨⟨by decide, by decide, by decide⟩, fun _ => Or.inr fun i hi => ?_⟩, trivial⟩
  rw [Nat.lt_one_iff.mp hi]
  decide +kernel

/-- Without the condition the halves come apart: the address space is made first, and the mapping enters its new top-level entry into the current table only. -/
theorem kernel_map_misses_other_space :
    ¬ ∀ (hhdmOffset : Nat) (boot : Vmm), boot.KernelTree [boot.currentPml4] → ∀ calls : List KernelCall,
      Lib.Allowed (fun s call => call.Legal s) (KernelCall.step hhdmOffset) (bootSpaces boot) calls →
      let s := Lib.run (KernelCall.step hhdmOffset) (bootSpaces boot) calls
      ∀ P ∈ s.live, ∀ Q ∈ s.live, ∀ va, KernelPage va → vmmQueryPage s.vmm P va = vmmQueryPage s.vmm Q va := by
  intro hclaim
  have h := hclaim 0 tenFrameMachine tenFrameMachine_kernelTree [.create, .map 0xFFFF800000000000 0x200000 1 pagingMapRead]
    ⟨trivial, ⟨by decide, by decide, by decide⟩, trivial⟩ 0x1000 (by decide +kernel) 0x5000 (by decide +kernel) 0xFFFF800000000000
    ⟨by decide, by decide, by decide⟩
  exact absurd h (by decide +kernel)

end Tsukasa
