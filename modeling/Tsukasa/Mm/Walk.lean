import Tsukasa.Mm.PageTree

/-!
# The walk and the leaf write

What `walk_to_pt` does to a well-formed user half. Without `create` it reads the tree and changes nothing. With `create` it grows the tree along the path of the address and leaves every page-table entry as it was, also when it runs out of frames half way. A write to a page-table entry changes that entry only.
-/

namespace Tsukasa

open Lib.Radix

namespace Vmm

variable {root : Nat} {v v' : Vmm}

theorem UserTree.root_taken (htree : v.UserTree root) : v.TakenFrame root :=
  htree.taken [] nil_mem_userPath root rfl

theorem TakenFrame.lt (hinv : v.pmm.Inv) {table : Nat} (h : v.TakenFrame table) : table < 2 ^ 52 := by
  have := hinv.total_lt
  have := h.tracked
  rw [h.eq_mul]
  simp only [pageSize]
  omega

theorem TakenFrame.ne_zero {table : Nat} (h : v.TakenFrame table) : table ≠ 0 := by
  rintro rfl
  exact absurd h.pos (by decide)

theorem TakenFrame.tableVirt (hinv : v.pmm.Inv) {table : Nat} (h : v.TakenFrame table) :
    tableVirt (BitVec.ofNat 64 table) = table :=
  tableVirt_page h.aligned (h.lt hinv)

/-! ### Fresh tables -/

/-- The state after a fresh frame has been taken and zeroed. -/
def fresh (v : Vmm) (start : Nat) : Vmm :=
  { v with
    pmm := v.pmm.take start 1
    tables := Function.update v.tables (start * pageSize) fun _ => 0#64 }

theorem allocTablePhys_cases (hinv : v.pmm.Inv) :
    (∃ start, 0 < start ∧ FreeRun v.pmm start 1 ∧ allocTablePhys v = (start * pageSize, v.fresh start)) ∨
      allocTablePhys v = (0, v) := by
  rcases pmmAllocPages_cases hinv (show 0 < 1 by decide) (by decide) with ⟨start, hpos, hrun, -, heq⟩ | ⟨-, heq⟩
  · refine Or.inl ⟨start, hpos, hrun, ?_⟩
    have hne : start * pageSize ≠ 0 := by simp only [pageSize]; omega
    have hvirt : tableVirt (BitVec.ofNat 64 (start * pageSize)) = start * pageSize :=
      tableVirt_page (Nat.mul_mod_left _ _) (page_lt_of_freeRun hinv hrun)
    simp only [allocTablePhys, heq, if_neg hne, hvirt, fresh]
  · refine Or.inr ?_
    simp only [allocTablePhys, heq, if_true]

/-! ### One level -/

/-- A walk that may not create tables leaves the state alone, and one for the kernel follows every present entry. -/
theorem walkLevel_read (v : Vmm) (table i : Nat) :
    walkLevel v table i false false = (tableBelow (v.tables table i), v) := by
  by_cases hpresent : v.tables table i &&& ptePresent = 0#64
  · simp [walkLevel, tableBelow, hpresent]
  · simp [walkLevel, tableBelow, hpresent]

/-- A walk for user mode follows the same entries when they carry the user bit. -/
theorem walkLevel_read_user {table i : Nat}
    (hflag : v.tables table i &&& ptePresent ≠ 0#64 → v.tables table i &&& pteUser ≠ 0#64) :
    walkLevel v table i false true = (tableBelow (v.tables table i), v) := by
  by_cases hpresent : v.tables table i &&& ptePresent = 0#64
  · simp [walkLevel, tableBelow, hpresent]
  · simp [walkLevel, tableBelow, hpresent, hflag hpresent]

/-- One level of a creating walk: the tree may grow by the table asked for, and nothing else changes. -/
theorem walkLevel_create (hinv : v.pmm.Inv) (htree : v.UserTree root) {path : List Nat} {table i : Nat}
    (hmem : path ++ [i] ∈ UserPath) (htable : v.tableAt root path = some table) :
    UserStep root v (walkLevel v table i true true).2 ∧ SamePtes root v (walkLevel v table i true true).2 ∧
      ∀ next, (walkLevel v table i true true).1 = some next →
        (walkLevel v table i true true).2.tableAt root (path ++ [i]) = some next := by
  by_cases hpresent : v.tables table i &&& ptePresent = 0#64
  · rcases allocTablePhys_cases hinv with ⟨start, hpos, hrun, heq⟩ | heq
    · have hne : start * pageSize ≠ 0 := by simp only [pageSize]; omega
      have hvirt : tableVirt (BitVec.ofNat 64 (start * pageSize) ||| tableFlags true) = start * pageSize :=
        tableVirt_entry (Nat.mul_mod_left _ _) (page_lt_of_freeRun hinv hrun) true
      have hlevel : walkLevel v table i true true = (some (start * pageSize), v.graft start table i) := by
        simp only [walkLevel, BitVec.ofNat_eq_ofNat, hpresent, heq, if_neg hne, if_true, hvirt]
        rfl
      rw [hlevel]
      refine ⟨graft_userStep hinv htree hmem htable hpresent hpos hrun,
        graft_samePtes hinv htree hmem htable hpresent hrun, fun next hnext => ?_⟩
      rw [tableAt_graft hinv htree hmem htable hpresent hrun hmem, if_pos rfl]
      exact hnext
    · have hlevel : walkLevel v table i true true = (none, v) := by
        simp only [walkLevel, BitVec.ofNat_eq_ofNat, hpresent, heq, if_true]
      rw [hlevel]
      exact ⟨UserStep.refl hinv htree, SamePtes.refl root v, fun next hnext => by simp at hnext⟩
  · have huser := (htree.flags path i hmem table htable hpresent).1
    have hlevel : walkLevel v table i true true = (some (tableVirt (v.tables table i)), v) := by
      simp [walkLevel, hpresent, huser]
    rw [hlevel]
    refine ⟨UserStep.refl hinv htree, SamePtes.refl root v, fun next hnext => ?_⟩
    rw [tableAt_concat, htable, Option.bind_some, tableBelow_of_present hpresent]
    exact hnext

/-! ### The whole walk -/

/-- The reading walk for the kernel follows the path of the address. -/
theorem walkToPt_read {pml4 : Nat} (hpml4 : pml4 ≠ 0) (va : Nat) :
    walkToPt v pml4 va false false = (v.tableAt (tableVirt (BitVec.ofNat 64 pml4)) (pathOf va), v) := by
  simp only [walkToPt, if_neg hpml4, walkLevel_read, tableAt, pathOf, descend]
  cases tableBelow (v.tables (tableVirt (BitVec.ofNat 64 pml4)) (pml4Idx va)) with
  | none => rfl
  | some pdpt =>
      simp only [Option.bind_some]
      cases tableBelow (v.tables pdpt (pdptIdx va)) with
      | none => rfl
      | some pd =>
          simp only [Option.bind_some]
          cases tableBelow (v.tables pd (pdIdx va)) <;> rfl

/-- The reading walk for user mode follows the path of a user address. -/
theorem walkToPt_read_user (hinv : v.pmm.Inv) (htree : v.UserTree root) {va : Nat} (hva : va < 2 ^ 47) :
    walkToPt v root va false true = (v.tableAt root (pathOf va), v) := by
  have hmem := pathOf_mem_userPath hva
  have hflag : ∀ path i, path ++ [i] <+: pathOf va → ∀ table, v.tableAt root path = some table →
      walkLevel v table i false true = (tableBelow (v.tables table i), v) := by
    intro path i hpre table htable
    exact walkLevel_read_user fun h => (htree.flags path i (userPath_prefixClosed _ _ hpre hmem) table htable h).1
  have hroot := htree.root_taken
  have hfirst := hflag [] (pml4Idx va) ⟨[pdptIdx va, pdIdx va], rfl⟩ root rfl
  simp only [walkToPt, if_neg hroot.ne_zero, hroot.tableVirt hinv, hfirst]
  have htop : v.tableAt root [pml4Idx va] = tableBelow (v.tables root (pml4Idx va)) := tableAt_concat v root [] _
  have hpdpt : v.tableAt root [pml4Idx va, pdptIdx va] = _ := tableAt_concat v root [pml4Idx va] _
  have hpt : v.tableAt root (pathOf va) = _ := tableAt_concat v root [pml4Idx va, pdptIdx va] _
  cases hbelow : tableBelow (v.tables root (pml4Idx va)) with
  | none => simp only [hpt, hpdpt, htop, hbelow, Option.bind_none]
  | some pdpt =>
      rw [hbelow] at htop
      rw [htop, Option.bind_some] at hpdpt
      simp only [hflag [pml4Idx va] (pdptIdx va) ⟨[pdIdx va], rfl⟩ pdpt htop]
      cases hbelow' : tableBelow (v.tables pdpt (pdptIdx va)) with
      | none => simp only [hpt, hpdpt, hbelow', Option.bind_none]
      | some pd =>
          rw [hbelow'] at hpdpt
          rw [hpdpt, Option.bind_some] at hpt
          simp only [hflag [pml4Idx va, pdptIdx va] (pdIdx va) ⟨[], rfl⟩ pd hpdpt, hpt]

/-- The creating walk grows the tree along the path of the address, whether or not it gets to the end of it. -/
theorem walkToPt_create (hinv : v.pmm.Inv) (htree : v.UserTree root) {va : Nat} (hva : va < 2 ^ 47) :
    UserStep root v (walkToPt v root va true true).2 ∧ SamePtes root v (walkToPt v root va true true).2 ∧
      ∀ pt, (walkToPt v root va true true).1 = some pt →
        (walkToPt v root va true true).2.tableAt root (pathOf va) = some pt := by
  have hmem := pathOf_mem_userPath hva
  have hroot := htree.root_taken
  have hmem₁ : [] ++ [pml4Idx va] ∈ UserPath := userPath_prefixClosed _ _ ⟨[pdptIdx va, pdIdx va], rfl⟩ hmem
  have hmem₂ : [pml4Idx va] ++ [pdptIdx va] ∈ UserPath := userPath_prefixClosed _ _ ⟨[pdIdx va], rfl⟩ hmem
  obtain ⟨hstep₁, hsame₁, hnext₁⟩ := walkLevel_create hinv htree hmem₁ rfl
  rcases hlevel₁ : walkLevel v root (pml4Idx va) true true with ⟨_ | pdpt, v₁⟩ <;> rw [hlevel₁] at hstep₁ hsame₁ hnext₁
  · simp only [walkToPt, if_neg hroot.ne_zero, hroot.tableVirt hinv, hlevel₁]
    exact ⟨hstep₁, hsame₁, fun pt hpt => by simp at hpt⟩
  obtain ⟨hstep₂, hsame₂, hnext₂⟩ := walkLevel_create hstep₁.inv hstep₁.tree hmem₂ (hnext₁ pdpt rfl)
  rcases hlevel₂ : walkLevel v₁ pdpt (pdptIdx va) true true with ⟨_ | pd, v₂⟩ <;> rw [hlevel₂] at hstep₂ hsame₂ hnext₂
  · simp only [walkToPt, if_neg hroot.ne_zero, hroot.tableVirt hinv, hlevel₁, hlevel₂]
    exact ⟨hstep₁.trans hstep₂, hsame₁.trans hsame₂, fun pt hpt => by simp at hpt⟩
  obtain ⟨hstep₃, hsame₃, hnext₃⟩ :=
    walkLevel_create (i := pdIdx va) hstep₂.inv hstep₂.tree hmem (hnext₂ pd rfl)
  simp only [walkToPt, if_neg hroot.ne_zero, hroot.tableVirt hinv, hlevel₁, hlevel₂]
  exact ⟨hstep₁.trans (hstep₂.trans hstep₃), hsame₁.trans (hsame₂.trans hsame₃), hnext₃⟩

/-! ### Writing a page-table entry -/

section Leaf

variable {path : List Nat} {pt i : Nat} {entry : BitVec 64}

theorem tableAt_leaf (i : Nat) (entry : BitVec 64) (htree : v.UserTree root) (hpath : path ∈ UserPath) (hlen : path.length = 3)
    (htable : v.tableAt root path = some pt) {q : List Nat} (hq : q ∈ UserPath) :
    (v.setEntry pt i entry).tableAt root q = v.tableAt root q := by
  refine descend_write_of_elsewhere tableBelow userPath_prefixClosed htree.separate hpath htable hq fun hpre => ?_
  have hle := hpre.length_le
  have := hq.1
  simp only [List.length_append, List.length_singleton] at hle
  omega

/-- Writing an entry of a page table changes that entry and keeps the tree. -/
theorem leaf_pteAt (htree : v.UserTree root) (hpath : path ∈ UserPath) (hlen : path.length = 3)
    (htable : v.tableAt root path = some pt) {q : List Nat} (hq : q ∈ UserPath) (j : Nat) :
    (v.setEntry pt i entry).pteAt root q j = if q = path ∧ j = i then entry else v.pteAt root q j := by
  simp only [pteAt, tableAt_leaf i entry htree hpath hlen htable hq]
  cases ht : v.tableAt root q with
  | none =>
      rw [if_neg]
      rintro ⟨rfl, -⟩
      rw [htable] at ht
      simp at ht
  | some t =>
      have hiff : t = pt ↔ q = path :=
        ⟨fun h => htree.separate q hq path hpath t ht (h ▸ htable), fun h => by subst h; exact Option.some.inj (ht.symm.trans htable)⟩
      simp only [setEntry, write_apply, hiff]

theorem leaf_userStep (i : Nat) (entry : BitVec 64) (hinv : v.pmm.Inv) (htree : v.UserTree root) (hpath : path ∈ UserPath) (hlen : path.length = 3)
    (htable : v.tableAt root path = some pt) : UserStep root v (v.setEntry pt i entry) := by
  have hkeep := fun {q : List Nat} (hq : q ∈ UserPath) =>
    tableAt_leaf i entry htree hpath hlen htable hq
  refine ⟨hinv, ⟨fun p hp q hq node hnode hnode' => ?_, fun p hp t ht => ?_, fun p j hpj t ht hpresent => ?_⟩,
    fun frame => ?_, rfl, fun p hp t ht => by rw [hkeep hp, ht], fun t j hne => ?_⟩
  · rw [← tableAt, hkeep hp] at hnode
    rw [← tableAt, hkeep hq] at hnode'
    exact htree.separate p hp q hq node hnode hnode'
  · rw [hkeep hp] at ht
    obtain ⟨haligned, hpos, htracked, htaken⟩ := htree.taken p hp t ht
    exact ⟨haligned, hpos, htracked, htaken⟩
  · -- an intermediate entry is in a table that no path of length three leads to
    have hp : p ∈ UserPath := userPath_prefixClosed _ _ (List.prefix_append p [j]) hpj
    rw [hkeep hp] at ht
    have hother : t ≠ pt := by
      rintro rfl
      have := htree.separate p hp path hpath t ht htable
      have hshort := hpj.1
      simp only [List.length_append, List.length_singleton] at hshort
      subst this
      omega
    simp only [setEntry, write_of_ne (Or.inl hother)] at hpresent ⊢
    exact htree.flags p j hpj t ht hpresent
  · refine or_congr Iff.rfl (exists_congr fun p => and_congr_right fun hp => ?_)
    rw [hkeep hp]
  · have hslot : t = pt ∧ j = i := by
      by_contra hcon
      exact hne (write_of_ne (by tauto))
    refine ⟨path, hpath, by rw [hkeep hpath, htable, hslot.1], ?_⟩
    rintro rfl
    simp at hlen

end Leaf

/-! ### Queries -/

/-- What `vmm_query_page` reports of a page-table entry. -/
def decodePte (entry : BitVec 64) : Option (BitVec 64 × BitVec 64) :=
  if entry &&& ptePresent = 0#64 then none else some (entry &&& vmmAddrMask, entry &&& ~~~vmmAddrMask)

theorem decodePte_eq_none {entry : BitVec 64} : decodePte entry = none ↔ entry &&& ptePresent = 0#64 := by
  rw [decodePte]
  split <;> simp_all

/-- A query whose walk follows the path of the address decodes the entry at the end of it. -/
theorem vmmQueryPage_of_walk {va : Nat} (hroot : root ≠ 0) (haligned : pagingIsPageAligned va = true)
    (hwindow : pagingRangeIsUser va pageSize = true ∨ pagingRangeIsKernel va pageSize = true)
    (hwalk : (walkToPt v root va false (pagingRangeIsUser va pageSize)).1 = v.tableAt root (pathOf va)) :
    vmmQueryPage v root va = decodePte (v.pteAt root (pathOf va) (ptIdx va)) := by
  have hguard : (!pagingRangeIsUser va pageSize && !pagingRangeIsKernel va pageSize) = false := by
    rcases hwindow with h | h <;> simp [h]
  simp only [vmmQueryPage, hroot, haligned, hguard, hwalk, pteAt]
  cases v.tableAt root (pathOf va) with
  | none => simp [decodePte]
  | some pt => simp [decodePte]

/-- A page of the user window. -/
def UserPage (va : Nat) : Prop := va % 4096 = 0 ∧ pagingUserVaMin ≤ va ∧ va < pagingUserVaMax

/-- A page of the kernel window. -/
def KernelPage (va : Nat) : Prop := va % 4096 = 0 ∧ pagingKernelVaMin ≤ va ∧ va < pagingKernelVaMax

theorem UserPage.lt {va : Nat} (h : UserPage va) : va < 2 ^ 47 := lt_of_lt_of_le h.2.2 (by decide)

theorem KernelPage.pml4Idx_ge {va : Nat} (h : KernelPage va) : 256 ≤ pml4Idx va := by
  obtain ⟨-, hlo, hhi⟩ := h
  simp only [pagingKernelVaMin, pagingKernelVaMax] at hlo hhi
  rw [pml4Idx_eq]
  omega

theorem pagingRangeIsUser_page {va : Nat} (hva : va < 2 ^ 64) (haligned : va % 4096 = 0) :
    pagingRangeIsUser va pageSize = true ↔ UserPage va := by
  rw [pagingRangeIsUser_iff hva (by decide)]
  simp only [UserPage, pageSize, pagingUserVaMin, pagingUserVaMax]
  omega

theorem pagingRangeIsKernel_page {va : Nat} (hva : va < 2 ^ 64) (haligned : va % 4096 = 0) :
    pagingRangeIsKernel va pageSize = true ↔ KernelPage va := by
  rw [pagingRangeIsKernel_iff hva (by decide)]
  simp only [KernelPage, pageSize, pagingKernelVaMin, pagingKernelVaMax]
  omega

theorem vmmQueryPage_user (hinv : v.pmm.Inv) (htree : v.UserTree root) {va : Nat} (hpage : UserPage va) :
    vmmQueryPage v root va = decodePte (v.pteAt root (pathOf va) (ptIdx va)) := by
  have hlt := hpage.lt
  have haligned : pagingIsPageAligned va = true := (pagingIsPageAligned_iff va).mpr hpage.1
  have huser : pagingRangeIsUser va pageSize = true := (pagingRangeIsUser_page (by omega) hpage.1).mpr hpage
  refine vmmQueryPage_of_walk htree.root_taken.ne_zero haligned (Or.inl huser) ?_
  rw [huser, walkToPt_read_user hinv htree hlt]

theorem KernelPage.not_userPage {va : Nat} (hpage : KernelPage va) : ¬ UserPage va := by
  intro h
  have hlo := hpage.2.1
  have := h.lt
  simp only [pagingKernelVaMin] at hlo
  omega

/-- A query of a kernel page needs no more of the top-level table than that its address is one. -/
theorem vmmQueryPage_root (hroot : root ≠ 0) (hvirt : tableVirt (BitVec.ofNat 64 root) = root) {va : Nat} (hpage : KernelPage va) :
    vmmQueryPage v root va = decodePte (v.pteAt root (pathOf va) (ptIdx va)) := by
  have hlt : va < 2 ^ 64 := lt_of_lt_of_le hpage.2.2 (by decide)
  have haligned : pagingIsPageAligned va = true := (pagingIsPageAligned_iff va).mpr hpage.1
  have hkernel : pagingRangeIsKernel va pageSize = true := (pagingRangeIsKernel_page hlt hpage.1).mpr hpage
  have huser : pagingRangeIsUser va pageSize = false := by
    rw [Bool.eq_false_iff, ne_eq, pagingRangeIsUser_page hlt hpage.1]
    exact hpage.not_userPage
  refine vmmQueryPage_of_walk hroot haligned (Or.inr hkernel) ?_
  rw [huser, walkToPt_read hroot, hvirt]

theorem vmmQueryPage_kernel (hinv : v.pmm.Inv) (htree : v.UserTree root) {va : Nat} (hpage : KernelPage va) :
    vmmQueryPage v root va = decodePte (v.pteAt root (pathOf va) (ptIdx va)) :=
  vmmQueryPage_root htree.root_taken.ne_zero (htree.root_taken.tableVirt hinv) hpage

/-- A page outside both windows, or an unaligned address, is never mapped. -/
theorem vmmQueryPage_neither {va : Nat} (hva : va < 2 ^ 64) (huser : ¬ UserPage va) (hkernel : ¬ KernelPage va) (root : Nat) :
    vmmQueryPage v root va = none := by
  by_cases haligned : va % 4096 = 0
  · have huser' : pagingRangeIsUser va pageSize = false := by
      rwa [Bool.eq_false_iff, ne_eq, pagingRangeIsUser_page hva haligned]
    have hkernel' : pagingRangeIsKernel va pageSize = false := by
      rwa [Bool.eq_false_iff, ne_eq, pagingRangeIsKernel_page hva haligned]
    simp [vmmQueryPage, huser', hkernel']
  · have haligned' : pagingIsPageAligned va = false := by
      rwa [Bool.eq_false_iff, ne_eq, pagingIsPageAligned_iff]
    simp [vmmQueryPage, haligned']

end Vmm

end Tsukasa
