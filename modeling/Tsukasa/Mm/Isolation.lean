import Tsukasa.Mm.AddressSpace

/-!
# Isolation of user halves

All trees take their tables from one frame pool. The machine here has any number of address spaces alive at once, made by `vmm_create_address_space` and `vmm_clone_address_space` and changed by calls on their user ranges. Across every run the tables of different trees are different allocated frames, so a call on one of them, its destroy included, changes no entry that a query of another reads.
-/

namespace Tsukasa

open Lib.Radix

namespace Vmm

variable {root other : Nat} {v v' : Vmm}

/-! ### A tree that is left alone -/

/-- From `v` to `v'` no entry of the user half has changed and every table of it is still allocated. -/
def SameTree (root : Nat) (v v' : Vmm) : Prop :=
  ∀ p ∈ UserPath, ∀ table, v.tableAt root p = some table →
    v'.TakenFrame table ∧ ∀ i, (p = [] → i < 256) → v'.tables table i = v.tables table i

theorem SameTree.tableAt_eq (h : SameTree root v v') {p : List Nat} (hp : p ∈ UserPath) :
    v'.tableAt root p = v.tableAt root p := by
  apply descend_congr tableBelow
  intro before i hpre node hnode
  have hmem : before ++ [i] ∈ UserPath := userPath_prefixClosed _ _ hpre hp
  have hbefore : before ∈ UserPath := userPath_prefixClosed _ _ (List.prefix_append before [i]) hmem
  apply (h before hbefore node hnode).2 i
  intro hnil
  subst hnil
  exact hmem.2.1 i rfl

theorem SameTree.pteAt_eq (h : SameTree root v v') {p : List Nat} (hp : p ∈ UserPath) (hne : p ≠ []) (i : Nat) :
    v'.pteAt root p i = v.pteAt root p i := by
  simp only [pteAt, h.tableAt_eq hp]
  cases htable : v.tableAt root p with
  | none => rfl
  | some table => exact (h p hp table htable).2 i fun hnil => absurd hnil hne

theorem SameTree.userTree (h : SameTree root v v') (htree : v.UserTree root) : v'.UserTree root := by
  refine ⟨fun p hp q hq node hnode hnode' => ?_, fun p hp table htable => ?_, fun p i hpi table htable hpresent => ?_⟩
  · rw [← tableAt, h.tableAt_eq hp] at hnode
    rw [← tableAt, h.tableAt_eq hq] at hnode'
    exact htree.separate p hp q hq node hnode hnode'
  · rw [h.tableAt_eq hp] at htable
    exact (h p hp table htable).1
  · have hp : p ∈ UserPath := userPath_prefixClosed _ _ (List.prefix_append p [i]) hpi
    rw [h.tableAt_eq hp] at htable
    have hentry : v'.tables table i = v.tables table i := by
      apply (h p hp table htable).2 i
      intro hnil
      subst hnil
      exact hpi.2.1 i rfl
    rw [hentry] at hpresent ⊢
    exact htree.flags p i hpi table htable hpresent

/-- A query of a user address reads only the user half. -/
theorem SameTree.query_eq (h : SameTree root v v') (hinv : v.pmm.Inv) (hinv' : v'.pmm.Inv) (htree : v.UserTree root)
    {va : Nat} (hva : va < pagingUserVaMax) : vmmQueryPage v' root va = vmmQueryPage v root va := by
  have hlt : va < 2 ^ 64 := lt_trans hva (by decide)
  by_cases hpage : UserPage va
  · rw [vmmQueryPage_user hinv' (h.userTree htree) hpage, vmmQueryPage_user hinv htree hpage,
      h.pteAt_eq (pathOf_mem_userPath hpage.lt) (by simp [pathOf])]
  · have hkernel : ¬ KernelPage va := by
      intro hkernel
      have hlo := hkernel.2.1
      simp only [pagingKernelVaMin, pagingUserVaMax] at hlo hva
      omega
    rw [vmmQueryPage_neither hlt hpage hkernel, vmmQueryPage_neither hlt hpage hkernel]

/-- The frames of `S` are no tables of the tree. -/
def TreeApart (v : Vmm) (root : Nat) (S : Set Nat) : Prop :=
  ∀ p ∈ UserPath, ∀ frame ∈ S, v.tableAt root p ≠ some (frame * pageSize)

/-- A step that writes and gives back frames of `S` only leaves a tree apart from `S` alone. -/
theorem sameTree_of_apart {S : Set Nat} (hinv : v.pmm.Inv) (hinv' : v'.pmm.Inv) (htree : v.UserTree root)
    (hapart : v.TreeApart root S) (hfree : ∀ frame, bitmapGet v'.pmm.bitmap frame = true → frame ∈ S)
    (hwrites : ∀ table i, v'.tables table i ≠ v.tables table i → ∃ frame ∈ S, table = frame * pageSize) :
    SameTree root v v' := by
  intro p hp table htable
  have htaken := htree.taken p hp table htable
  have hout : addrToFrame table ∉ S := by
    intro hin
    apply hapart p hp _ hin
    rw [← htaken.eq_mul, htable]
  refine ⟨⟨htaken.aligned, htaken.pos, ?_, ?_⟩, fun i _ => ?_⟩
  · rw [hinv'.total, ← hinv.total]
    exact htaken.tracked
  · rw [Bool.eq_false_iff]
    exact fun hbit => hout (hfree _ hbit)
  · by_contra hne
    obtain ⟨frame, hframe, heq⟩ := hwrites table i hne
    apply hapart p hp frame hframe
    rw [← heq, htable]

/-- The free frames are apart from every tree. -/
theorem UserTree.apart_free (htree : v.UserTree root) : v.TreeApart root {frame | bitmapGet v.pmm.bitmap frame = true} :=
  fun p hp _ hframe => htree.ne_of_free hframe p hp

/-- A tree is apart from what another tree owns as soon as the two have no table in common. -/
theorem UserTree.apart_owned (htree : v.UserTree root)
    (hdisjoint : ∀ p ∈ UserPath, ∀ q ∈ UserPath, ∀ table, v.tableAt root p = some table → v.tableAt other q ≠ some table) :
    v.TreeApart root {frame | v.Owned other frame} := by
  intro p hp frame hframe htable
  rcases hframe with hfree | ⟨q, hq, htable'⟩
  · exact htree.ne_of_free hfree p hp htable
  · exact hdisjoint p hp q hq _ htable htable'

/-- Every table of a tree is owned by it. -/
theorem UserTree.owned_of_tableAt (htree : v.UserTree root) {p : List Nat} (hp : p ∈ UserPath) {table : Nat}
    (htable : v.tableAt root p = some table) : ∃ frame, table = frame * pageSize ∧ v.Owned root frame := by
  have heq := (htree.taken p hp table htable).eq_mul
  exact ⟨addrToFrame table, heq, Or.inr ⟨p, hp, heq ▸ htable⟩⟩

end Vmm

open Vmm

/-! ### The machine -/

/-- The virtual memory manager with the address spaces that have been made and not destroyed. -/
structure Spaces where
  vmm : Vmm
  live : List Nat

inductive SpaceStep where
  | create
  | clone (srcPml4Phys : Nat)
  | call (pml4Phys : Nat) (call : VmmCall)
  | destroy (pml4Phys : Nat)
  | switch (pml4Phys : Nat)
  /-- What the rest of the kernel does: it allocates and frees frames, maps kernel ranges and writes memory. -/
  | other (vmm : Vmm)

namespace Spaces

/-- The new address space, if there is one, is alive from now on. -/
def add (s : Spaces) (result : Option Nat × Vmm) : Spaces := ⟨result.2, result.1.toList ++ s.live⟩

@[simp] theorem add_none (s : Spaces) (v : Vmm) : s.add (none, v) = ⟨v, s.live⟩ := rfl

@[simp] theorem add_some (s : Spaces) (root : Nat) (v : Vmm) : s.add (some root, v) = ⟨v, root :: s.live⟩ := rfl

def step (s : Spaces) : SpaceStep → Spaces
  | .create => s.add (vmmCreateAddressSpace s.vmm)
  | .clone srcPml4Phys => s.add (vmmCloneAddressSpace s.vmm srcPml4Phys)
  | .call pml4Phys call => { s with vmm := call.step pml4Phys s.vmm }
  | .destroy pml4Phys =>
      let (ret, vmm) := vmmDestroyAddressSpace s.vmm pml4Phys
      ⟨vmm, if ret = 0 then s.live.filter (· ≠ pml4Phys) else s.live⟩
  | .switch pml4Phys => { s with vmm := vmmSwitchPml4 s.vmm pml4Phys }
  | .other vmm => { s with vmm := vmm }

/-- A process calls on user ranges of its own address space, an address space is destroyed while it is alive, and the rest of the kernel neither writes nor frees a table of a user half. -/
def Legal (s : Spaces) : SpaceStep → Prop
  | .create => True
  | .clone _ => True
  | .call pml4Phys call => pml4Phys ∈ s.live ∧ call.OnUserRange
  | .destroy pml4Phys => pml4Phys ∈ s.live
  | .switch _ => True
  | .other vmm => vmm.pmm.Inv ∧ ∀ root ∈ s.live, SameTree root s.vmm vmm

structure Inv (s : Spaces) : Prop where
  pmm : s.vmm.pmm.Inv
  tree : ∀ root ∈ s.live, s.vmm.UserTree root
  disjoint : ∀ root ∈ s.live, ∀ other ∈ s.live, root ≠ other → ∀ p ∈ UserPath, ∀ q ∈ UserPath, ∀ table,
    s.vmm.tableAt root p = some table → s.vmm.tableAt other q ≠ some table

variable {s : Spaces}

/-- Trees that are left alone stay well formed and disjoint. -/
theorem Inv.of_sameTree (hs : s.Inv) {v' : Vmm} (hinv : v'.pmm.Inv) {live : List Nat} (hsub : ∀ root ∈ live, root ∈ s.live)
    (hsame : ∀ root ∈ live, SameTree root s.vmm v') : Inv ⟨v', live⟩ where
  pmm := hinv
  tree root hroot := (hsame root hroot).userTree (hs.tree root (hsub root hroot))
  disjoint root hroot other hother hne p hp q hq table htable := by
    rw [(hsame root hroot).tableAt_eq hp] at htable
    rw [(hsame other hother).tableAt_eq hq]
    exact hs.disjoint root (hsub root hroot) other (hsub other hother) hne p hp q hq table htable

/-- One tree changes within the frames of `S`, and the other trees, apart from `S`, are left alone. -/
theorem Inv.of_changed (hs : s.Inv) {v' : Vmm} (hinv : v'.pmm.Inv) {root : Nat} {live : List Nat} {S : Set Nat}
    (htree : v'.UserTree root)
    (hwithin : ∀ p ∈ UserPath, ∀ table, v'.tableAt root p = some table → ∃ frame ∈ S, table = frame * pageSize)
    (hsub : ∀ other ∈ live, other ≠ root → other ∈ s.live ∧ s.vmm.TreeApart other S ∧ SameTree other s.vmm v') :
    Inv ⟨v', live⟩ := by
  have hapart : ∀ other ∈ live, other ≠ root → ∀ p ∈ UserPath, ∀ q ∈ UserPath, ∀ table,
      v'.tableAt root p = some table → v'.tableAt other q ≠ some table := by
    intro other hother hne p hp q hq table htable
    obtain ⟨-, hout, hsame⟩ := hsub other hother hne
    obtain ⟨frame, hframe, rfl⟩ := hwithin p hp table htable
    rw [hsame.tableAt_eq hq]
    exact hout q hq frame hframe
  refine ⟨hinv, fun other hother => ?_, fun r hr o ho hne p hp q hq table htable => ?_⟩
  · by_cases heq : other = root
    · rw [heq]
      exact htree
    · obtain ⟨hlive, -, hsame⟩ := hsub other hother heq
      exact hsame.userTree (hs.tree other hlive)
  · by_cases hroot : r = root
    · subst hroot
      exact hapart o ho (Ne.symm hne) p hp q hq table htable
    · by_cases hother : o = root
      · subst hother
        exact fun h => hapart r hr hroot q hq p hp table h htable
      · obtain ⟨hlive, -, hsame⟩ := hsub r hr hroot
        obtain ⟨hlive', -, hsame'⟩ := hsub o ho hother
        rw [hsame.tableAt_eq hp] at htable
        rw [hsame'.tableAt_eq hq]
        exact hs.disjoint r hlive o hlive' hne p hp q hq table htable

/-! ### The steps -/

/-- A call that fails to make an address space leaves every tree alone. -/
theorem Inv.sameTree_of_notCreated (hs : s.Inv) {v' : Vmm} (hnot : NotCreated s.vmm v') {root : Nat} (hroot : root ∈ s.live) :
    SameTree root s.vmm v' := by
  have htree := hs.tree root hroot
  apply sameTree_of_apart hs.pmm hnot.inv htree htree.apart_free
  · exact fun frame hbit => (hnot.bits frame).mp hbit
  · intro table i hne
    obtain ⟨frame, heq, hfree⟩ := hnot.frame table i hne
    exact ⟨frame, hfree, heq⟩

/-- A new address space takes one free frame and leaves every tree alone. -/
theorem Inv.sameTree_of_created (hs : s.Inv) {start : Nat} (hrun : FreeRun s.vmm.pmm start 1) (src : Nat) {root : Nat}
    (hroot : root ∈ s.live) : SameTree root s.vmm (copyKernelHalf (s.vmm.fresh start) (start * pageSize) src) := by
  have htree := hs.tree root hroot
  have hpmm := (copyKernelHalf_spec (s.vmm.fresh start) (start * pageSize) src).1
  apply sameTree_of_apart hs.pmm (by rw [hpmm]; exact hs.pmm.take hrun) htree htree.apart_free
  · intro frame hbit
    rw [hpmm, fresh, Pmm.bitmapGet_take] at hbit
    split at hbit
    · simp at hbit
    · exact hbit
  · intro table i hne
    obtain ⟨frame, heq, hfree⟩ := created_writes hrun src table i hne
    exact ⟨frame, hfree, heq⟩

theorem Inv.of_created (hs : s.Inv) {start : Nat} (hpos : 0 < start) (hrun : FreeRun s.vmm.pmm start 1) (src : Nat) :
    Inv ⟨copyKernelHalf (s.vmm.fresh start) (start * pageSize) src, start * pageSize :: s.live⟩ := by
  obtain ⟨hpmm, -, -⟩ := copyKernelHalf_spec (s.vmm.fresh start) (start * pageSize) src
  obtain ⟨htree, howned⟩ := created_userTree hpos hrun src
  apply hs.of_changed (S := {frame | bitmapGet s.vmm.pmm.bitmap frame = true}) (by rw [hpmm]; exact hs.pmm.take hrun) htree
  · intro p hp table htable
    obtain ⟨frame, heq, hown⟩ := htree.owned_of_tableAt hp htable
    exact ⟨frame, (howned frame).mp hown, heq⟩
  · intro other hother hne
    have hlive : other ∈ s.live := (List.mem_cons.mp hother).resolve_left hne
    exact ⟨hlive, (hs.tree other hlive).apart_free, hs.sameTree_of_created hrun src hlive⟩

theorem Inv.create (hs : s.Inv) : (s.step .create).Inv := by
  rw [step]
  rcases vmmCreateAddressSpace_cases hs.pmm with ⟨hfail, hnot⟩ | ⟨start, hpos, hrun, hcreate⟩
  · rw [← Prod.eta (vmmCreateAddressSpace s.vmm), hfail, add_none]
    exact hs.of_sameTree hnot.inv (fun _ h => h) fun root hroot => hs.sameTree_of_notCreated hnot hroot
  · rw [hcreate, add_some]
    exact hs.of_created hpos hrun _

theorem Inv.clone (hs : s.Inv) (src : Nat) : (s.step (.clone src)).Inv := by
  rw [step]
  rcases vmmCloneAddressSpace_cases hs.pmm src with ⟨hfail, hnot⟩ | ⟨start, hpos, hrun, hclone⟩
  · rw [← Prod.eta (vmmCloneAddressSpace s.vmm src), hfail, add_none]
    exact hs.of_sameTree hnot.inv (fun _ h => h) fun root hroot => hs.sameTree_of_notCreated hnot hroot
  · rw [hclone, add_some]
    exact hs.of_created hpos hrun _

theorem Inv.apart_owned (hs : s.Inv) {root other : Nat} (hroot : root ∈ s.live) (hother : other ∈ s.live) (hne : other ≠ root) :
    s.vmm.TreeApart other {frame | s.vmm.Owned root frame} :=
  (hs.tree other hother).apart_owned (hs.disjoint other hother root hroot hne)

/-- A call on the user half of one address space leaves the other trees alone. -/
theorem Inv.sameTree_call (hs : s.Inv) {root other : Nat} (hroot : root ∈ s.live) (hother : other ∈ s.live)
    (hne : other ≠ root) {call : VmmCall} (hcall : call.OnUserRange) : SameTree other s.vmm (call.step root s.vmm) := by
  have hstep := VmmCall.step_userStep hs.pmm (hs.tree root hroot) hcall
  apply sameTree_of_apart hs.pmm hstep.inv (hs.tree other hother) (hs.apart_owned hroot hother hne)
  · exact fun frame hbit => (hstep.owned frame).mp (Or.inl hbit)
  · intro table i hchanged
    obtain ⟨p, hp, htable, -⟩ := hstep.frame table i hchanged
    obtain ⟨frame, heq, hown⟩ := hstep.tree.owned_of_tableAt hp htable
    exact ⟨frame, (hstep.owned frame).mp hown, heq⟩

theorem Inv.call (hs : s.Inv) {root : Nat} (hroot : root ∈ s.live) {call : VmmCall} (hcall : call.OnUserRange) :
    (s.step (.call root call)).Inv := by
  have hstep := VmmCall.step_userStep hs.pmm (hs.tree root hroot) hcall
  apply hs.of_changed (S := {frame | s.vmm.Owned root frame}) hstep.inv hstep.tree
  · intro p hp table htable
    obtain ⟨frame, heq, hown⟩ := hstep.tree.owned_of_tableAt hp htable
    exact ⟨frame, (hstep.owned frame).mp hown, heq⟩
  · intro other hother hne
    exact ⟨hother, hs.apart_owned hroot hother hne, hs.sameTree_call hroot hother hne hcall⟩

/-- A destroy refuses the current address space and changes nothing, or succeeds. -/
theorem Inv.destroy_cases (hs : s.Inv) {root : Nat} (hroot : root ∈ s.live) :
    (s.vmm.currentPml4 = root ∧ vmmDestroyAddressSpace s.vmm root = (-1, s.vmm)) ∨
      (s.vmm.currentPml4 ≠ root ∧ (vmmDestroyAddressSpace s.vmm root).1 = 0 ∧
        (vmmDestroyAddressSpace s.vmm root).2.tables = s.vmm.tables) := by
  have htaken := (hs.tree root hroot).root_taken
  have haligned : pagingIsPageAligned root = true := (pagingIsPageAligned_iff root).mpr htaken.aligned
  by_cases hcurrent : s.vmm.currentPml4 = root
  · refine Or.inl ⟨hcurrent, ?_⟩
    simp [vmmDestroyAddressSpace, htaken.ne_zero, haligned, htaken.tableVirt hs.pmm, hcurrent]
  · refine Or.inr ⟨hcurrent, ?_⟩
    simp [vmmDestroyAddressSpace, htaken.ne_zero, haligned, htaken.tableVirt hs.pmm, Ne.symm hcurrent]

theorem Inv.sameTree_destroy (hs : s.Inv) {root other : Nat} (hroot : root ∈ s.live) (hother : other ∈ s.live)
    (hne : other ≠ root) : SameTree other s.vmm (vmmDestroyAddressSpace s.vmm root).2 := by
  have htree := hs.tree other hother
  rcases hs.destroy_cases hroot with ⟨-, heq⟩ | ⟨hcurrent, -, htables⟩
  · rw [heq]
    exact fun p hp table htable => ⟨htree.taken p hp table htable, fun _ _ => rfl⟩
  · obtain ⟨hinv, hbits⟩ := vmmDestroyAddressSpace_spec hs.pmm (hs.tree root hroot) hcurrent
    apply sameTree_of_apart hs.pmm hinv htree (hs.apart_owned hroot hother hne)
    · exact fun frame hbit => (hbits frame).mp hbit
    · intro table i hchanged
      rw [htables] at hchanged
      exact absurd rfl hchanged

theorem Inv.destroy (hs : s.Inv) {root : Nat} (hroot : root ∈ s.live) : (s.step (.destroy root)).Inv := by
  rcases hs.destroy_cases hroot with ⟨-, heq⟩ | ⟨hcurrent, hret, -⟩
  · simp only [step, heq]
    exact hs
  · obtain ⟨hinv, -⟩ := vmmDestroyAddressSpace_spec hs.pmm (hs.tree root hroot) hcurrent
    simp only [step, hret, if_true]
    apply hs.of_sameTree hinv
    · exact fun other hother => (List.mem_filter.mp hother).1
    · intro other hother
      obtain ⟨hlive, hne⟩ := List.mem_filter.mp hother
      exact hs.sameTree_destroy hroot hlive (by simpa using hne)

theorem Inv.switch (hs : s.Inv) (root : Nat) : (s.step (.switch root)).Inv := by
  have hsame : (vmmSwitchPml4 s.vmm root).pmm = s.vmm.pmm ∧ (vmmSwitchPml4 s.vmm root).tables = s.vmm.tables := by
    rw [vmmSwitchPml4]
    split <;> exact ⟨rfl, rfl⟩
  rw [step]
  apply hs.of_sameTree (by rw [hsame.1]; exact hs.pmm) (fun _ h => h)
  intro other hother p hp table htable
  have htaken := (hs.tree other hother).taken p hp table htable
  exact ⟨⟨htaken.aligned, htaken.pos, by rw [hsame.1]; exact htaken.tracked, by rw [hsame.1]; exact htaken.taken⟩,
    fun _ _ => by rw [hsame.2]⟩

theorem Inv.step (hs : s.Inv) {label : SpaceStep} (hlegal : s.Legal label) : (s.step label).Inv := by
  cases label with
  | create => exact hs.create
  | clone src => exact hs.clone src
  | call root call => exact hs.call hlegal.1 hlegal.2
  | destroy root => exact hs.destroy hlegal
  | switch root => exact hs.switch root
  | other v' => exact hs.of_sameTree hlegal.1 (fun _ h => h) hlegal.2

/-! ### Whole runs -/

/-- The steps that concern the user half of one address space only. -/
def SpaceStep.On (root : Nat) (label : SpaceStep) : Prop := (∃ call, label = .call root call) ∨ label = .destroy root

/-- A step on one address space keeps every other alive and leaves its tree alone. -/
theorem Inv.step_on (hs : s.Inv) {root other : Nat} (hother : other ∈ s.live) (hne : other ≠ root) {label : SpaceStep}
    (hon : SpaceStep.On root label) (hlegal : s.Legal label) :
    other ∈ (s.step label).live ∧ SameTree other s.vmm (s.step label).vmm := by
  rcases hon with ⟨call, rfl⟩ | rfl
  · exact ⟨hother, hs.sameTree_call hlegal.1 hother hne hlegal.2⟩
  · refine ⟨?_, hs.sameTree_destroy hlegal hother hne⟩
    simp only [Spaces.step]
    split
    · exact List.mem_filter.mpr ⟨hother, by simpa using hne⟩
    · exact hother

theorem Inv.query_run (hs : s.Inv) {root other : Nat} (hother : other ∈ s.live) (hne : other ≠ root) {labels : List SpaceStep}
    (hon : ∀ label ∈ labels, SpaceStep.On root label) (hlegal : Lib.Allowed Legal Spaces.step s labels) {va : Nat}
    (hva : va < pagingUserVaMax) :
    vmmQueryPage (Lib.run Spaces.step s labels).vmm other va = vmmQueryPage s.vmm other va := by
  induction labels generalizing s with
  | nil => rfl
  | cons label labels ih =>
      obtain ⟨hfirst, hrest⟩ := hlegal
      obtain ⟨hlive, hsame⟩ := hs.step_on hother hne (hon label List.mem_cons_self) hfirst
      have hnext := hs.step hfirst
      rw [Lib.run_cons, ih hnext hlive (fun l hl => hon l (List.mem_cons_of_mem label hl)) hrest]
      exact hsame.query_eq hs.pmm hnext.pmm (hs.tree other hother) hva

end Spaces

open Spaces

/-- After any history, calls on the user ranges of one address space and its destroy change no query of a user address in another. -/
theorem user_half_isolation (boot : Vmm) (hboot : boot.pmm.Inv) (history calls : List SpaceStep) (A B va : Nat) :
    let s := Lib.run Spaces.step ⟨boot, []⟩ history
    Lib.Allowed Legal Spaces.step ⟨boot, []⟩ history → A ∈ s.live → B ∈ s.live → A ≠ B →
    (∀ label ∈ calls, SpaceStep.On A label) → Lib.Allowed Legal Spaces.step s calls → va < pagingUserVaMax →
    vmmQueryPage (Lib.run Spaces.step s calls).vmm B va = vmmQueryPage s.vmm B va := by
  intro s hhistory hA hB hne hon hcalls hva
  have hinit : Spaces.Inv ⟨boot, []⟩ := ⟨hboot, by simp, by simp⟩
  have hstep : ∀ s label, Spaces.Inv s → Legal s label → Spaces.Inv (s.step label) := fun s label hs hlegal => hs.step hlegal
  have hs : s.Inv := Lib.run_invariant hstep hinit hhistory
  exact hs.query_run hB hne.symm hon hcalls hva

/-- A machine with ten free frames from `0x5000` on, running on the top-level table at `0x1000`. -/
def tenFrameMachine : Vmm where
  pmm := Pmm.exhausted.giveBack 5 10
  tables _ _ := 0#64
  currentPml4 := 0x1000

theorem tenFrameMachine_inv : tenFrameMachine.pmm.Inv :=
  Pmm.exhausted_inv.giveBack (by decide) (by decide) fun _ _ => Pmm.exhausted_taken _

/-- An address space is created and a second one cloned from it, and each maps a page at 1 MiB. -/
def twoSpaces : List SpaceStep :=
  [.create, .clone 0x5000, .call 0x6000 (.map 0x100000 0x200000 1 (pagingMapRead ||| pagingMapUser)),
    .call 0x5000 (.map 0x100000 0x300000 1 (pagingMapRead ||| pagingMapUser))]

/-- The first one's page is unmapped and the whole of it is destroyed: the second one still has its page. -/
theorem user_half_isolation_twoSpaces :
    let s := Lib.run Spaces.step ⟨tenFrameMachine, []⟩ twoSpaces
    let s' := Lib.run Spaces.step s [.call 0x5000 (.unmap 0x100000 1), .destroy 0x5000]
    s'.live = [0x6000] ∧ (vmmQueryPage s.vmm 0x6000 0x100000).isSome ∧
      vmmQueryPage s'.vmm 0x6000 0x100000 = vmmQueryPage s.vmm 0x6000 0x100000 := by
  refine ⟨by decide +kernel, by decide +kernel, user_half_isolation tenFrameMachine tenFrameMachine_inv twoSpaces _ 0x5000 0x6000
    0x100000 ?_ (by decide +kernel) (by decide +kernel) (by decide) ?_ ?_ (by decide)⟩
  · exact ⟨trivial, trivial, ⟨by decide +kernel, by decide, by decide, by decide⟩, ⟨by decide +kernel, by decide, by decide, by decide⟩, trivial⟩
  · intro label hlabel
    rcases List.mem_cons.mp hlabel with rfl | hlabel
    · exact Or.inl ⟨_, rfl⟩
    · exact Or.inr (List.mem_singleton.mp hlabel)
  · exact ⟨⟨by decide +kernel, by decide, by decide, by decide⟩, show (0x5000 : Nat) ∈ _ by decide +kernel, trivial⟩

end Tsukasa
