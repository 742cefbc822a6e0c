import Tsukasa.Mm.AddressSpace

/-!
# The kernel half

The kernel halves of all address spaces are reached through entries that were copied from one top-level table into another, so below the top level they share their tables. What the bootloader leaves there is not a tree of frames that the allocator has handed out, and one table may hang below several entries. What the calls on kernel ranges rely on is weaker: no table is a free frame, and a table is on one level only.
-/

namespace Tsukasa

open Lib.Radix

/-- A path of the kernel half: at most three levels down, starting in the upper half of the top-level table. -/
def KernelPath : Set (List Nat) := {p | p.length ≤ 3 ∧ (∀ i ∈ p.head?, 256 ≤ i) ∧ ∀ i ∈ p, i < 512}

theorem kernelPath_prefixClosed : PrefixClosed KernelPath := by
  rintro p q ⟨rest, rfl⟩ ⟨hlen, hhead, hall⟩
  refine ⟨by simp only [List.length_append] at hlen; omega, ?_, fun i hi => hall i (List.mem_append_left _ hi)⟩
  cases p with
  | nil => simp
  | cons i p => simpa using hhead

theorem nil_mem_kernelPath : [] ∈ KernelPath := ⟨by simp, by simp, by simp⟩

theorem mem_kernelPath_of_concat {p : List Nat} {i : Nat} (h : p ++ [i] ∈ KernelPath) : p ∈ KernelPath :=
  kernelPath_prefixClosed _ _ (List.prefix_append p [i]) h

theorem length_le_of_concat {p : List Nat} {i : Nat} (h : p ++ [i] ∈ KernelPath) : p.length ≤ 2 := by
  have hlen := h.1
  simp only [List.length_append, List.length_singleton] at hlen
  omega

namespace Vmm

theorem pathOf_mem_kernelPath {va : Nat} (hpage : KernelPage va) : pathOf va ∈ KernelPath := by
  refine ⟨by simp [pathOf], by simpa [pathOf] using hpage.pml4Idx_ge, ?_⟩
  intro i hi
  simp only [pathOf, List.mem_cons, List.not_mem_nil, or_false, pml4Idx_eq, pdptIdx_eq, pdIdx_eq] at hi
  omega

/-- The kernel halves below a list of top-level tables. -/
structure KernelTree (v : Vmm) (roots : List Nat) : Prop where
  pmm : v.pmm.Inv
  root : ∀ root ∈ roots, root % 4096 = 0 ∧ root ≠ 0 ∧ root < 2 ^ 52
  taken : ∀ root ∈ roots, ∀ p ∈ KernelPath, ∀ frame, v.tableAt root p = some (frame * pageSize) →
    bitmapGet v.pmm.bitmap frame = false
  layered : ∀ root ∈ roots, ∀ other ∈ roots, ∀ p ∈ KernelPath, ∀ q ∈ KernelPath, ∀ table,
    v.tableAt root p = some table → v.tableAt other q = some table → p.length = q.length

/-- No present entry above the page tables has the page-size bit. -/
def Small (v : Vmm) (roots : List Nat) : Prop :=
  ∀ root ∈ roots, ∀ p i, p ++ [i] ∈ KernelPath → ∀ table, v.tableAt root p = some table →
    v.tables table i &&& ptePresent ≠ 0#64 → v.tables table i &&& ptePageSize = 0#64

/-- What a call on a kernel range of the address space at `root` does. An entry that it writes is in a table of the kernel half, and one of the top-level table was absent before and belongs to one of the `slots`. -/
structure KernelStep (roots : List Nat) (root : Nat) (slots : Set Nat) (v v' : Vmm) : Prop where
  tree : v'.KernelTree roots
  current : v'.currentPml4 = v.currentPml4
  grows : ∀ other ∈ roots, ∀ p ∈ KernelPath, ∀ table, v.tableAt other p = some table → v'.tableAt other p = some table
  frame : ∀ table i, v'.tables table i ≠ v.tables table i → ∃ p ∈ KernelPath, v'.tableAt root p = some table ∧
    (p = [] → i ∈ slots ∧ [i] ∈ KernelPath ∧ v.tables table i &&& ptePresent = 0#64)
  small : v.Small roots → v'.Small roots

variable {roots : List Nat} {root : Nat} {slots slots' : Set Nat} {v v' v'' : Vmm}

theorem KernelStep.refl (htree : v.KernelTree roots) : KernelStep roots root slots v v :=
  ⟨htree, rfl, fun _ _ _ _ _ h => h, fun _ _ h => absurd rfl h, fun h => h⟩

theorem KernelStep.mono (h : KernelStep roots root slots v v') (hsub : slots ⊆ slots') : KernelStep roots root slots' v v' where
  tree := h.tree
  current := h.current
  grows := h.grows
  frame table i hne := by
    obtain ⟨p, hp, htable, hroot⟩ := h.frame table i hne
    exact ⟨p, hp, htable, fun hnil => ⟨hsub (hroot hnil).1, (hroot hnil).2⟩⟩
  small := h.small

theorem KernelStep.trans (hroot : root ∈ roots) (h : KernelStep roots root slots v v')
    (h' : KernelStep roots root slots v' v'') : KernelStep roots root slots v v'' where
  tree := h'.tree
  current := h'.current.trans h.current
  grows other hother p hp table htable := h'.grows other hother p hp table (h.grows other hother p hp table htable)
  frame table i hne := by
    by_cases hsame : v''.tables table i = v'.tables table i
    · obtain ⟨p, hp, htable, hnil⟩ := h.frame table i (hsame ▸ hne)
      exact ⟨p, hp, h'.grows root hroot p hp table htable, hnil⟩
    · obtain ⟨p, hp, htable, hnil⟩ := h'.frame table i hsame
      refine ⟨p, hp, htable, fun hp' => ?_⟩
      obtain ⟨hslot, hmem, habsent⟩ := hnil hp'
      refine ⟨hslot, hmem, ?_⟩
      -- an entry that was present before the first step has led somewhere ever since
      by_contra hpresent
      subst hp'
      obtain rfl : root = table := Option.some.inj htable
      have hbelow := h.grows root hroot [i] hmem _ (tableAt_of_present (p := []) rfl hpresent)
      have hnone : v'.tableAt root ([] ++ [i]) = none := by
        rw [tableAt_concat, show v'.tableAt root [] = some root from rfl, Option.bind_some, tableBelow_eq_none.mpr habsent]
      rw [List.nil_append, hbelow] at hnone
      simp at hnone
  small hsmall := h'.small (h.small hsmall)

theorem KernelTree.tableVirt_root (htree : v.KernelTree roots) (hroot : root ∈ roots) :
    tableVirt (BitVec.ofNat 64 root) = root := by
  obtain ⟨haligned, -, hlt⟩ := htree.root root hroot
  exact tableVirt_page haligned hlt

theorem KernelTree.ne_fresh (htree : v.KernelTree roots) {start : Nat} (hrun : FreeRun v.pmm start 1) (hroot : root ∈ roots)
    {p : List Nat} (hp : p ∈ KernelPath) : v.tableAt root p ≠ some (start * pageSize) := by
  intro htable
  have hfree : bitmapGet v.pmm.bitmap start = true := by simpa using hrun.2 0 (by omega)
  rw [htree.taken root hroot p hp start htable] at hfree
  simp at hfree

/-- A kernel page is found by its path. -/
theorem KernelTree.query_eq (htree : v.KernelTree roots) (hroot : root ∈ roots) {va : Nat} (hpage : KernelPage va) :
    vmmQueryPage v root va = decodePte (v.pteAt root (pathOf va) (ptIdx va)) :=
  vmmQueryPage_root (htree.root root hroot).2.1 (htree.tableVirt_root hroot) hpage

/-! ### A new table -/

/-- The state after a fresh frame has been entered as the table below entry `i` of `table`. -/
def extend (v : Vmm) (start table i : Nat) : Vmm :=
  (v.fresh start).setEntry table i (BitVec.ofNat 64 (start * pageSize) ||| tableFlags false)

section Extend

variable {path : List Nat} {start table i : Nat}

theorem tables_extend (other j : Nat) :
    (v.extend start table i).tables other j =
      if other = table ∧ j = i then BitVec.ofNat 64 (start * pageSize) ||| tableFlags false
      else if other = start * pageSize then 0#64 else v.tables other j := by
  simp only [extend, setEntry, fresh, write_apply]
  split
  · rfl
  · by_cases hother : other = start * pageSize
    · rw [if_pos hother, hother, Function.update_self]
    · rw [if_neg hother, Function.update_of_ne hother]

/-- The entry of a fresh table leads to it. -/
theorem tableBelow_fresh (hinv : v.pmm.Inv) (hrun : FreeRun v.pmm start 1) (user : Bool) :
    tableBelow (BitVec.ofNat 64 (start * pageSize) ||| tableFlags user) = some (start * pageSize) := by
  rw [tableBelow_of_present (tableEntry_present _ _)]
  exact congrArg some (tableVirt_entry (Nat.mul_mod_left _ _) (page_lt_of_freeRun hinv hrun) user)

theorem bitmapGet_extend (frame : Nat) : bitmapGet (v.extend start table i).pmm.bitmap frame = false ↔
    frame = start ∨ bitmapGet v.pmm.bitmap frame = false := by
  show bitmapGet (v.pmm.take start 1).bitmap frame = false ↔ _
  rw [Pmm.bitmapGet_take]
  by_cases heq : frame = start
  · rw [if_pos (by omega)]
    simp [heq]
  · rw [if_neg (by omega)]
    simp [heq]

theorem extend_grows (htree : v.KernelTree roots) (habsent : v.tables table i &&& ptePresent = 0#64)
    (hrun : FreeRun v.pmm start 1) {other : Nat} (hother : other ∈ roots) {q : List Nat} (hq : q ∈ KernelPath) {t : Nat}
    (ht : v.tableAt other q = some t) : (v.extend start table i).tableAt other q = some t := by
  induction q using List.reverseRecOn generalizing t with
  | nil => exact ht
  | append_singleton q j ih =>
      have hq' := mem_kernelPath_of_concat hq
      rw [tableAt_concat] at ht ⊢
      obtain ⟨node, hnode, hbelow⟩ := Option.bind_eq_some_iff.mp ht
      have hne : node ≠ start * pageSize := fun h => htree.ne_fresh hrun hother hq' (h ▸ hnode)
      have hold : ¬ (node = table ∧ j = i) := by
        rintro ⟨rfl, rfl⟩
        rw [tableBelow_eq_none.mpr habsent] at hbelow
        simp at hbelow
      rw [ih hq' hnode, Option.bind_some, tables_extend, if_neg hold, if_neg hne, hbelow]

variable (htree : v.KernelTree roots) (hroot : root ∈ roots) (hmem : path ++ [i] ∈ KernelPath)
  (htable : v.tableAt root path = some table) (hrun : FreeRun v.pmm start 1)
include htree hroot hmem htable hrun

/-- Every table was there before or is the new one, one level below the table it was entered in. -/
theorem tableAt_extend {other : Nat} (hother : other ∈ roots) {q : List Nat} (hq : q ∈ KernelPath) {t : Nat}
    (ht : (v.extend start table i).tableAt other q = some t) :
    v.tableAt other q = some t ∨ (t = start * pageSize ∧ q.length = path.length + 1) := by
  induction q using List.reverseRecOn generalizing t with
  | nil => exact Or.inl ht
  | append_singleton q j ih =>
      have hq' := mem_kernelPath_of_concat hq
      rw [tableAt_concat] at ht
      obtain ⟨node, hnode, hbelow⟩ := Option.bind_eq_some_iff.mp ht
      rw [tables_extend] at hbelow
      rcases ih hq' hnode with hold | ⟨rfl, -⟩
      · have hne : node ≠ start * pageSize := fun h => htree.ne_fresh hrun hother hq' (h ▸ hold)
        split at hbelow
        · rename_i hnew
          rw [tableBelow_fresh htree.pmm hrun] at hbelow
          have hlen := htree.layered other hother root hroot q hq' path (mem_kernelPath_of_concat hmem) table (hnew.1 ▸ hold) htable
          refine Or.inr ⟨(Option.some.inj hbelow).symm, ?_⟩
          rw [List.length_append, List.length_singleton, hlen]
        · refine Or.inl ?_
          rw [tableAt_concat, hold, Option.bind_some]
          simpa [hne] using hbelow
      · -- the new table is empty
        have hne : ¬ (start * pageSize = table ∧ j = i) := fun h =>
          htree.ne_fresh hrun hroot (mem_kernelPath_of_concat hmem) (h.1 ▸ htable)
        rw [if_neg hne, if_pos rfl] at hbelow
        simp [tableBelow] at hbelow

theorem extend_kernelTree : (v.extend start table i).KernelTree roots where
  pmm := htree.pmm.take hrun
  root := htree.root
  taken other hother p hp frame ht := by
    rw [bitmapGet_extend]
    rcases tableAt_extend htree hroot hmem htable hrun hother hp ht with hold | ⟨heq, -⟩
    · exact Or.inr (htree.taken other hother p hp frame hold)
    · simp only [pageSize] at heq
      exact Or.inl (by omega)
  layered r hr o ho p hp q hq t hrt hot := by
    rcases tableAt_extend htree hroot hmem htable hrun hr hp hrt with hold | ⟨rfl, hlen⟩
    · rcases tableAt_extend htree hroot hmem htable hrun ho hq hot with hold' | ⟨rfl, -⟩
      · exact htree.layered r hr o ho p hp q hq t hold hold'
      · exact absurd hold (htree.ne_fresh hrun hr hp)
    · rcases tableAt_extend htree hroot hmem htable hrun ho hq hot with hold' | ⟨-, hlen'⟩
      · exact absurd hold' (htree.ne_fresh hrun ho hq)
      · rw [hlen, hlen']

theorem extend_small (hsmall : v.Small roots) : (v.extend start table i).Small roots := by
  intro other hother p j hpj t ht hpresent
  have hp := mem_kernelPath_of_concat hpj
  rw [tables_extend] at hpresent ⊢
  split at hpresent
  · rename_i hnew
    rw [if_pos hnew]
    exact tableEntry_pageSize (Nat.mul_mod_left _ _) (page_lt_of_freeRun htree.pmm hrun) false
  · rename_i hnew
    rw [if_neg hnew]
    split at hpresent
    · exact absurd BitVec.zero_and hpresent
    · rename_i hne
      rw [if_neg hne]
      rcases tableAt_extend htree hroot hmem htable hrun hother hp ht with hold | ⟨heq, -⟩
      · exact hsmall other hother p j hpj t hold hpresent
      · exact absurd heq hne

theorem extend_kernelStep (habsent : v.tables table i &&& ptePresent = 0#64) (hslot : path = [] → i ∈ slots) :
    KernelStep roots root slots v (v.extend start table i) where
  tree := extend_kernelTree htree hroot hmem htable hrun
  current := rfl
  grows _ hother _ hq _ ht := extend_grows htree habsent hrun hother hq ht
  frame t j hne := by
    rw [tables_extend] at hne
    have hgrown := extend_grows htree habsent hrun hroot (mem_kernelPath_of_concat hmem) htable
    split at hne
    · rename_i hnew
      obtain ⟨rfl, rfl⟩ := hnew
      refine ⟨path, mem_kernelPath_of_concat hmem, hgrown, fun hnil => ⟨hslot hnil, ?_, habsent⟩⟩
      rw [hnil, List.nil_append] at hmem
      exact hmem
    · split at hne
      · rename_i hfresh
        refine ⟨path ++ [i], hmem, ?_, fun h => by simp at h⟩
        rw [tableAt_concat, hgrown, Option.bind_some, tables_extend, if_pos ⟨rfl, rfl⟩,
          tableBelow_fresh htree.pmm hrun, hfresh]
      · exact absurd rfl hne
  small hsmall := extend_small htree hroot hmem htable hrun hsmall

end Extend

/-! ### A page-table entry -/

section Leaf

variable {path : List Nat} {pt i : Nat} {entry : BitVec 64}
variable (htree : v.KernelTree roots) (hroot : root ∈ roots) (hpath : path ∈ KernelPath) (hlen : path.length = 3)
  (htable : v.tableAt root path = some pt)
include htree hroot hpath hlen htable

/-- A page table is never read as a table of a higher level. -/
theorem KernelTree.tables_setEntry {other : Nat} (hother : other ∈ roots) {q : List Nat} {j node : Nat}
    (hq : q ++ [j] ∈ KernelPath) (hnode : v.tableAt other q = some node) :
    (v.setEntry pt i entry).tables node j = v.tables node j := by
  apply write_of_ne
  refine Or.inl fun heq => ?_
  subst heq
  have := htree.layered other hother root hroot q (mem_kernelPath_of_concat hq) path hpath node hnode htable
  have := length_le_of_concat hq
  omega

theorem KernelTree.tableAt_setEntry {other : Nat} (hother : other ∈ roots) {q : List Nat} (hq : q ∈ KernelPath) :
    (v.setEntry pt i entry).tableAt other q = v.tableAt other q := by
  apply descend_congr tableBelow
  intro before j hpre node hnode
  exact htree.tables_setEntry hroot hpath hlen htable hother (kernelPath_prefixClosed _ _ hpre hq) hnode

theorem leaf_kernelStep : KernelStep roots root slots v (v.setEntry pt i entry) where
  tree := by
    refine ⟨htree.pmm, htree.root, fun other hother p hp frame ht => ?_, fun r hr o ho p hp q hq t hrt hot => ?_⟩
    · rw [htree.tableAt_setEntry hroot hpath hlen htable hother hp] at ht
      exact htree.taken other hother p hp frame ht
    · rw [htree.tableAt_setEntry hroot hpath hlen htable hr hp] at hrt
      rw [htree.tableAt_setEntry hroot hpath hlen htable ho hq] at hot
      exact htree.layered r hr o ho p hp q hq t hrt hot
  current := rfl
  grows other hother q hq t ht := by rw [htree.tableAt_setEntry hroot hpath hlen htable hother hq, ht]
  frame t j hne := by
    refine ⟨path, hpath, ?_, fun hnil => by simp [hnil] at hlen⟩
    rw [htree.tableAt_setEntry hroot hpath hlen htable hroot hpath, htable]
    by_contra hcon
    exact hne (write_of_ne (Or.inl fun h => hcon (by rw [h])))
  small hsmall other hother p j hpj t ht hpresent := by
    have hp := mem_kernelPath_of_concat hpj
    rw [htree.tableAt_setEntry hroot hpath hlen htable hother hp] at ht
    rw [htree.tables_setEntry hroot hpath hlen htable hother hpj ht] at hpresent ⊢
    exact hsmall other hother p j hpj t ht hpresent

end Leaf

/-! ### The walk -/

section Walk

variable (htree : v.KernelTree roots) (hroot : root ∈ roots)
include htree hroot

/-- One level of a creating walk: the table asked for is there, and it may be new. -/
theorem walkLevel_extend (slots : Set Nat) {path : List Nat} {table i : Nat} (hmem : path ++ [i] ∈ KernelPath)
    (htable : v.tableAt root path = some table) (hslot : path = [] → i ∈ slots) :
    KernelStep roots root slots v (walkLevel v table i true false).2 ∧
      ∀ next, (walkLevel v table i true false).1 = some next →
        (walkLevel v table i true false).2.tableAt root (path ++ [i]) = some next := by
  by_cases hpresent : v.tables table i &&& ptePresent = 0#64
  · rcases allocTablePhys_cases htree.pmm with ⟨start, hpos, hrun, heq⟩ | heq
    · have hne : start * pageSize ≠ 0 := by simp only [pageSize]; omega
      have hvirt : tableVirt (BitVec.ofNat 64 (start * pageSize) ||| tableFlags false) = start * pageSize :=
        tableVirt_entry (Nat.mul_mod_left _ _) (page_lt_of_freeRun htree.pmm hrun) false
      have hlevel : walkLevel v table i true false = (some (start * pageSize), v.extend start table i) := by
        simp only [walkLevel, BitVec.ofNat_eq_ofNat, hpresent, heq, if_neg hne, if_true, hvirt]
        rfl
      rw [hlevel]
      have hstep : KernelStep roots root slots v (v.extend start table i) :=
        extend_kernelStep htree hroot hmem htable hrun hpresent hslot
      refine ⟨hstep, fun next hnext => ?_⟩
      rw [tableAt_concat, hstep.grows root hroot path (mem_kernelPath_of_concat hmem) table htable, Option.bind_some,
        tables_extend, if_pos ⟨rfl, rfl⟩, tableBelow_fresh htree.pmm hrun]
      exact hnext
    · have hlevel : walkLevel v table i true false = (none, v) := by
        simp only [walkLevel, BitVec.ofNat_eq_ofNat, hpresent, heq, if_true]
      rw [hlevel]
      exact ⟨KernelStep.refl htree, fun next hnext => by simp at hnext⟩
  · have hlevel : walkLevel v table i true false = (some (tableVirt (v.tables table i)), v) := by
      simp [walkLevel, hpresent]
    rw [hlevel]
    refine ⟨KernelStep.refl htree, fun next hnext => ?_⟩
    rw [tableAt_of_present htable hpresent]
    exact hnext

theorem walkToPt_extend {va : Nat} (hpage : KernelPage va) :
    KernelStep roots root {pml4Idx va} v (walkToPt v root va true false).2 ∧
      ∀ pt, (walkToPt v root va true false).1 = some pt →
        (walkToPt v root va true false).2.tableAt root (pathOf va) = some pt := by
  have hmem := pathOf_mem_kernelPath hpage
  have hne := (htree.root root hroot).2.1
  have hmem₁ : [] ++ [pml4Idx va] ∈ KernelPath := kernelPath_prefixClosed _ _ ⟨[pdptIdx va, pdIdx va], rfl⟩ hmem
  have hmem₂ : [pml4Idx va] ++ [pdptIdx va] ∈ KernelPath := kernelPath_prefixClosed _ _ ⟨[pdIdx va], rfl⟩ hmem
  obtain ⟨hstep₁, hnext₁⟩ :=
    walkLevel_extend htree hroot {pml4Idx va} hmem₁ (show v.tableAt root [] = some root from rfl) fun _ => rfl
  rcases hlevel₁ : walkLevel v root (pml4Idx va) true false with ⟨_ | pdpt, v₁⟩ <;> rw [hlevel₁] at hstep₁ hnext₁
  · simp only [walkToPt, if_neg hne, htree.tableVirt_root hroot, hlevel₁]
    exact ⟨hstep₁, fun pt hpt => by simp at hpt⟩
  obtain ⟨hstep₂, hnext₂⟩ :=
    walkLevel_extend hstep₁.tree hroot {pml4Idx va} hmem₂ (hnext₁ pdpt rfl) fun h => by simp at h
  rcases hlevel₂ : walkLevel v₁ pdpt (pdptIdx va) true false with ⟨_ | pd, v₂⟩ <;> rw [hlevel₂] at hstep₂ hnext₂
  · simp only [walkToPt, if_neg hne, htree.tableVirt_root hroot, hlevel₁, hlevel₂]
    exact ⟨hstep₁.trans hroot hstep₂, fun pt hpt => by simp at hpt⟩
  obtain ⟨hstep₃, hnext₃⟩ :=
    walkLevel_extend (i := pdIdx va) hstep₂.tree hroot {pml4Idx va} hmem (hnext₂ pd rfl) fun h => by simp at h
  simp only [walkToPt, if_neg hne, htree.tableVirt_root hroot, hlevel₁, hlevel₂]
  exact ⟨hstep₁.trans hroot (hstep₂.trans hroot hstep₃), hnext₃⟩

end Walk

end Vmm

/-! ### Kernel ranges -/

/-- An aligned range of the kernel window. -/
structure KernelRange (va count : Nat) : Prop where
  aligned : va % 4096 = 0
  lo : pagingKernelVaMin ≤ va
  hi : va + count * 4096 ≤ pagingKernelVaMax

namespace KernelRange

variable {va count : Nat}

theorem pageAt_eq (hrange : KernelRange va count) {i : Nat} (hi : i ≤ count) : pageAt va i = va + i * 4096 := by
  have hhi := hrange.hi
  have : i * 4096 ≤ count * 4096 := Nat.mul_le_mul_right _ hi
  simp only [pagingKernelVaMax] at hhi
  exact pageAt_of_lt (by omega)

theorem kernelPage (hrange : KernelRange va count) {i : Nat} (hi : i < count) : Vmm.KernelPage (va + i * 4096) := by
  have hhi := hrange.hi
  have haligned := hrange.aligned
  have hlo := hrange.lo
  have : (i + 1) * 4096 ≤ count * 4096 := Nat.mul_le_mul_right _ hi
  exact ⟨by omega, by omega, by omega⟩

theorem first (hrange : KernelRange va count) {n : Nat} (hn : n ≤ count) : KernelRange va n :=
  ⟨hrange.aligned, hrange.lo, le_trans (Nat.add_le_add_left (Nat.mul_le_mul_right _ hn) _) hrange.hi⟩

/-- The range of one page. -/
theorem single (hrange : KernelRange va count) {i : Nat} (hi : i < count) : KernelRange (va + i * 4096) 1 := by
  have hpage := hrange.kernelPage hi
  have hhi := hpage.2.2
  have haligned := hpage.1
  simp only [pagingKernelVaMax] at hhi
  exact ⟨haligned, hpage.2.1, by simp only [pagingKernelVaMax]; omega⟩

theorem span_lt (hrange : KernelRange va count) : va < 2 ^ 64 ∧ count * pageSize < 2 ^ 64 := by
  have hhi := hrange.hi
  simp only [pagingKernelVaMax] at hhi
  simp only [pageSize]
  omega

/-- No part of the kernel window is a user range. -/
theorem not_user (hrange : KernelRange va count) : pagingRangeIsUser va (wrap64 (count * pageSize)) = false := by
  obtain ⟨hva, hspan⟩ := hrange.span_lt
  rw [wrap64_of_lt hspan, Bool.eq_false_iff, ne_eq, pagingRangeIsUser_iff hva hspan]
  intro h
  have hlo := hrange.lo
  have hhi := h.2.2
  simp only [pagingKernelVaMin, pagingUserVaMax] at hlo hhi
  omega

/-- The top-level entries of the pages of the range. -/
def slots (va count : Nat) : Set Nat := {slot | ∃ i < count, slot = pml4Idx (va + i * 4096)}

end KernelRange

/-- A span that passes `validate_span` and is no user range is a kernel range. -/
theorem kernelRange_of_validateSpan {va count : Nat} {phys : Option Nat} (hva : va < 2 ^ 64) (hcount : count < 2 ^ 52)
    (huser : pagingRangeIsUser va (wrap64 (count * pageSize)) = false) (h : validateSpan va phys count = true) :
    KernelRange va count := by
  have hspan : count * pageSize < 2 ^ 64 := by simp only [pageSize]; omega
  rw [wrap64_of_lt hspan] at huser
  by_cases haligned : pagingIsPageAligned va = true
  · have hkernel : pagingRangeIsKernel va (count * pageSize) = true := by
      simp only [validateSpan, wrap64_of_lt hspan, huser, Bool.false_or] at h
      split_ifs at h
      exact h
    rw [pagingRangeIsKernel_iff hva hspan] at hkernel
    have hmod := (pagingIsPageAligned_iff va).mp haligned
    obtain ⟨-, hlo, hhi⟩ := hkernel
    simp only [pageSize, pagingKernelVaMax] at hhi
    exact ⟨hmod, hlo, by simp only [pagingKernelVaMax]; omega⟩
  · simp [validateSpan, haligned] at h

end Tsukasa
