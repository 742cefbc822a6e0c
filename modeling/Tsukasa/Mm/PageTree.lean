import Tsukasa.Mm.Vmm
import Tsukasa.Mm.PmmSpec

/-!
# The user half as a radix tree

The page tables of a user half are the nodes of a radix tree three levels deep below its top-level table, and a page-table entry is read at the end of a path. What the rest of the proof knows of the walk is stated here: a walk that creates tables grows the tree by fresh frames and changes no page-table entry, and an entry write changes that one entry.
-/

namespace Tsukasa

open Lib.Radix

/-! ### Entry bits -/

theorem vmmAddrMask_getLsbD (i : Nat) (hi : i < 64) :
    vmmAddrMask.getLsbD i = (decide (12 ≤ i) && decide (i < 52)) := by
  have h : ∀ i : Fin 64, vmmAddrMask.getLsbD i.val = (decide (12 ≤ i.val) && decide (i.val < 52)) := by decide
  exact h ⟨i, hi⟩

/-- The address mask keeps a page-aligned address below `2 ^ 52`. -/
theorem and_vmmAddrMask_of_page {x : BitVec 64} (haligned : x.toNat % 4096 = 0) (hlt : x.toNat < 2 ^ 52) :
    x &&& vmmAddrMask = x := by
  apply BitVec.eq_of_getLsbD_eq
  intro i hi
  rw [BitVec.getLsbD_and, vmmAddrMask_getLsbD i hi]
  by_cases hin : 12 ≤ i ∧ i < 52
  · simp [hin]
  · have hbit : x.getLsbD i = false := by
      rw [BitVec.getLsbD]
      by_cases hlow : i < 12
      · have hmod : x.toNat % 2 ^ 12 = 0 := haligned
        have := Nat.testBit_mod_two_pow x.toNat 12 i
        rw [hmod, Nat.zero_testBit] at this
        simpa [hlow] using this.symm
      · have hge : 52 ≤ i := by omega
        exact Nat.testBit_lt_two_pow (lt_of_lt_of_le hlt (Nat.pow_le_pow_right (by decide) hge))
    simp [hbit]

theorem toNat_page {x : Nat} (hlt : x < 2 ^ 52) : (BitVec.ofNat 64 x).toNat = x := by
  rw [BitVec.toNat_ofNat, Nat.mod_eq_of_lt (by omega)]

theorem tableVirt_page {x : Nat} (haligned : x % 4096 = 0) (hlt : x < 2 ^ 52) : tableVirt (BitVec.ofNat 64 x) = x := by
  rw [tableVirt, and_vmmAddrMask_of_page (by rw [toNat_page hlt]; exact haligned) (by rw [toNat_page hlt]; exact hlt),
    toNat_page hlt]

theorem tableFlags_and_mask (user : Bool) : tableFlags user &&& vmmAddrMask = 0#64 := by
  cases user <;> decide

/-- An entry pointing to a fresh table refers to that table. -/
theorem tableVirt_entry {x : Nat} (haligned : x % 4096 = 0) (hlt : x < 2 ^ 52) (user : Bool) :
    tableVirt (BitVec.ofNat 64 x ||| tableFlags user) = x := by
  rw [tableVirt, BitVec.and_or_distrib_right, tableFlags_and_mask, BitVec.or_zero]
  exact tableVirt_page haligned hlt

/-- A bit set in one operand of an `or` is set in the result. -/
theorem or_and_ne_zero {x y bit : BitVec 64} (h : y &&& bit ≠ 0#64) : (x ||| y) &&& bit ≠ 0#64 := by
  intro hzero
  apply h
  apply BitVec.eq_of_getLsbD_eq
  intro i hi
  have := congrArg (fun z => z.getLsbD i) hzero
  simp only [BitVec.getLsbD_and, BitVec.getLsbD_or, BitVec.getLsbD_zero, Bool.and_eq_false_iff, Bool.or_eq_false_iff] at this
  simp only [BitVec.getLsbD_and, BitVec.getLsbD_zero, Bool.and_eq_false_iff]
  tauto

/-- A bit below the page offset is clear in an aligned address. -/
theorem and_low_of_page {x : Nat} (haligned : x % 4096 = 0) (hlt : x < 2 ^ 52) {bit : BitVec 64}
    (hbit : bit &&& vmmAddrMask = 0#64) : BitVec.ofNat 64 x &&& bit = 0#64 := by
  have hx := and_vmmAddrMask_of_page (x := BitVec.ofNat 64 x) (by rw [toNat_page hlt]; exact haligned)
    (by rw [toNat_page hlt]; exact hlt)
  rw [← hx, BitVec.and_assoc, BitVec.and_comm vmmAddrMask, hbit, BitVec.and_zero]

theorem tableEntry_present (x : BitVec 64) (user : Bool) : (x ||| tableFlags user) &&& ptePresent ≠ 0#64 :=
  or_and_ne_zero (by cases user <;> decide)

theorem tableEntry_user (x : BitVec 64) : (x ||| tableFlags true) &&& pteUser ≠ 0#64 :=
  or_and_ne_zero (by decide)

theorem tableEntry_pageSize {x : Nat} (haligned : x % 4096 = 0) (hlt : x < 2 ^ 52) (user : Bool) :
    (BitVec.ofNat 64 x ||| tableFlags user) &&& ptePageSize = 0#64 := by
  rw [BitVec.and_or_distrib_right, and_low_of_page haligned hlt (by decide)]
  cases user <;> decide

/-! ### Indices -/

theorem pml4Idx_eq (va : Nat) : pml4Idx va = va / 2 ^ 39 % 512 := by
  rw [pml4Idx, show (0x1FF : Nat) = 2 ^ 9 - 1 by decide, Nat.and_two_pow_sub_one_eq_mod, Nat.shiftRight_eq_div_pow]

theorem pdptIdx_eq (va : Nat) : pdptIdx va = va / 2 ^ 30 % 512 := by
  rw [pdptIdx, show (0x1FF : Nat) = 2 ^ 9 - 1 by decide, Nat.and_two_pow_sub_one_eq_mod, Nat.shiftRight_eq_div_pow]

theorem pdIdx_eq (va : Nat) : pdIdx va = va / 2 ^ 21 % 512 := by
  rw [pdIdx, show (0x1FF : Nat) = 2 ^ 9 - 1 by decide, Nat.and_two_pow_sub_one_eq_mod, Nat.shiftRight_eq_div_pow]

theorem ptIdx_eq (va : Nat) : ptIdx va = va / 2 ^ 12 % 512 := by
  rw [ptIdx, show (0x1FF : Nat) = 2 ^ 9 - 1 by decide, Nat.and_two_pow_sub_one_eq_mod, Nat.shiftRight_eq_div_pow]

/-- The path to the page table of an address. -/
def pathOf (va : Nat) : List Nat := [pml4Idx va, pdptIdx va, pdIdx va]

/-- A path of the user half: at most three levels down, starting in the lower half of the top-level table. -/
def UserPath : Set (List Nat) := {p | p.length ≤ 3 ∧ (∀ i ∈ p.head?, i < 256) ∧ ∀ i ∈ p, i < 512}

theorem userPath_prefixClosed : PrefixClosed UserPath := by
  rintro p q ⟨rest, rfl⟩ ⟨hlen, hhead, hall⟩
  refine ⟨by simp only [List.length_append] at hlen; omega, ?_, fun i hi => hall i (List.mem_append_left _ hi)⟩
  cases p with
  | nil => simp
  | cons i p => simpa using hhead

theorem nil_mem_userPath : [] ∈ UserPath := ⟨by simp, by simp, by simp⟩

theorem pathOf_mem_userPath {va : Nat} (hva : va < 2 ^ 47) : pathOf va ∈ UserPath := by
  refine ⟨by simp [pathOf], ?_, ?_⟩
  · simp only [pathOf, List.head?_cons, Option.mem_some_iff, forall_eq', pml4Idx_eq]
    omega
  · intro i hi
    simp only [pathOf, List.mem_cons, List.not_mem_nil, or_false, pml4Idx_eq, pdptIdx_eq, pdIdx_eq] at hi
    omega

/-- A page of the lower half is determined by its path and its index in the page table. -/
theorem page_ext {va va' : Nat} (hva : va < 2 ^ 47) (hva' : va' < 2 ^ 47) (haligned : va % 4096 = 0)
    (haligned' : va' % 4096 = 0) (hpath : pathOf va = pathOf va') (hidx : ptIdx va = ptIdx va') : va = va' := by
  simp only [pathOf, List.cons.injEq, and_true, pml4Idx_eq, pdptIdx_eq, pdIdx_eq] at hpath
  simp only [ptIdx_eq] at hidx
  omega

/-! ### The tree -/

/-- The table an entry points to, if it is present. -/
def tableBelow (entry : BitVec 64) : Option Nat := if entry &&& ptePresent = 0#64 then none else some (tableVirt entry)

theorem tableBelow_eq_none {entry : BitVec 64} : tableBelow entry = none ↔ entry &&& ptePresent = 0#64 := by
  rw [tableBelow]
  split <;> simp_all

theorem tableBelow_of_present {entry : BitVec 64} (h : entry &&& ptePresent ≠ 0#64) : tableBelow entry = some (tableVirt entry) := by
  rw [tableBelow, if_neg h]

namespace Vmm

/-- The table a path leads to from a top-level table. -/
def tableAt (v : Vmm) (root : Nat) (path : List Nat) : Option Nat := descend tableBelow v.tables root path

theorem tableAt_concat (v : Vmm) (root : Nat) (path : List Nat) (i : Nat) :
    v.tableAt root (path ++ [i]) = (v.tableAt root path).bind fun table => tableBelow (v.tables table i) :=
  descend_concat _ _ _ _ _

/-- The page-table entry a path and an index lead to; a page without a page table has the entry 0. -/
def pteAt (v : Vmm) (root : Nat) (path : List Nat) (i : Nat) : BitVec 64 :=
  match v.tableAt root path with
  | some table => v.tables table i
  | none => 0#64

/-- A page-aligned tracked frame that the frame allocator has handed out. -/
structure TakenFrame (v : Vmm) (table : Nat) : Prop where
  aligned : table % pageSize = 0
  pos : 0 < addrToFrame table
  tracked : addrToFrame table < v.pmm.totalFrames
  taken : bitmapGet v.pmm.bitmap (addrToFrame table) = false

/-- A well-formed user half: its tables are distinct allocated frames, and its intermediate entries carry the user bit and no page-size bit. -/
structure UserTree (v : Vmm) (root : Nat) : Prop where
  separate : Separate tableBelow v.tables root UserPath
  taken : ∀ p ∈ UserPath, ∀ table, v.tableAt root p = some table → v.TakenFrame table
  flags : ∀ p i, p ++ [i] ∈ UserPath → ∀ table, v.tableAt root p = some table → v.tables table i &&& ptePresent ≠ 0#64 →
    v.tables table i &&& pteUser ≠ 0#64 ∧ v.tables table i &&& ptePageSize = 0#64

/-- The frames the allocator would have free if the tree were taken down. -/
def Owned (v : Vmm) (root frame : Nat) : Prop :=
  bitmapGet v.pmm.bitmap frame = true ∨ ∃ p ∈ UserPath, v.tableAt root p = some (frame * pageSize)

/-- An entry of a table of the user half that belongs to the user half. -/
def UserSlot (v : Vmm) (root table i : Nat) : Prop :=
  ∃ p ∈ UserPath, v.tableAt root p = some table ∧ (p = [] → i < 256)

/-- What every operation on user ranges of one address space keeps. -/
structure UserStep (root : Nat) (v v' : Vmm) : Prop where
  inv : v'.pmm.Inv
  tree : v'.UserTree root
  owned : ∀ frame, v'.Owned root frame ↔ v.Owned root frame
  current : v'.currentPml4 = v.currentPml4
  grows : ∀ p ∈ UserPath, ∀ table, v.tableAt root p = some table → v'.tableAt root p = some table
  frame : ∀ table i, v'.tables table i ≠ v.tables table i → v'.UserSlot root table i

/-- Every page-table entry of the user half is the same in both states. -/
def SamePtes (root : Nat) (v v' : Vmm) : Prop := ∀ p ∈ UserPath, p.length = 3 → ∀ i, v'.pteAt root p i = v.pteAt root p i

variable {root : Nat} {v v' v'' : Vmm}

theorem UserStep.refl (hinv : v.pmm.Inv) (htree : v.UserTree root) : UserStep root v v :=
  ⟨hinv, htree, fun _ => Iff.rfl, rfl, fun _ _ _ h => h, fun _ _ h => absurd rfl h⟩

theorem UserStep.trans (h : UserStep root v v') (h' : UserStep root v' v'') : UserStep root v v'' where
  inv := h'.inv
  tree := h'.tree
  owned frame := (h'.owned frame).trans (h.owned frame)
  current := h'.current.trans h.current
  grows p hp table htable := h'.grows p hp table (h.grows p hp table htable)
  frame table i hne := by
    by_cases hsame : v''.tables table i = v'.tables table i
    · obtain ⟨p, hp, htable, hroot⟩ := h.frame table i (hsame ▸ hne)
      exact ⟨p, hp, h'.grows p hp table htable, hroot⟩
    · exact h'.frame table i hsame

theorem SamePtes.refl (root : Nat) (v : Vmm) : SamePtes root v v := fun _ _ _ _ => rfl

theorem SamePtes.trans (h : SamePtes root v v') (h' : SamePtes root v' v'') : SamePtes root v v'' :=
  fun p hp hlen i => (h' p hp hlen i).trans (h p hp hlen i)

theorem TakenFrame.eq_mul {table : Nat} (h : v.TakenFrame table) : table = addrToFrame table * pageSize :=
  (Nat.div_mul_cancel (Nat.dvd_of_mod_eq_zero h.aligned)).symm

/-- A frame the allocator still has free is no table of the tree. -/
theorem UserTree.ne_of_free (htree : v.UserTree root) {frame : Nat} (hfree : bitmapGet v.pmm.bitmap frame = true) :
    ∀ p ∈ UserPath, v.tableAt root p ≠ some (frame * pageSize) := by
  intro p hp htable
  have htaken := (htree.taken p hp _ htable).taken
  rw [addrToFrame, Nat.mul_div_cancel frame (by decide), hfree] at htaken
  simp at htaken

/-! ### Growing the tree -/

/-- The state after a fresh frame has been zeroed and entered as the table below entry `i` of `table`. -/
def graft (v : Vmm) (start table i : Nat) : Vmm :=
  setEntry { v with
    pmm := v.pmm.take start 1
    tables := Function.update v.tables (start * pageSize) fun _ => 0#64 } table i
    (BitVec.ofNat 64 (start * pageSize) ||| tableFlags true)

section Graft

variable {path : List Nat} {start table i : Nat}

theorem page_lt_of_freeRun (hinv : v.pmm.Inv) (hrun : FreeRun v.pmm start 1) : start * pageSize < 2 ^ 52 := by
  have := hrun.1
  have := hinv.total_lt
  simp only [pageSize]
  omega

theorem tableAt_graft (hinv : v.pmm.Inv) (htree : v.UserTree root) (hmem : path ++ [i] ∈ UserPath)
    (htable : v.tableAt root path = some table) (habsent : v.tables table i &&& ptePresent = 0#64)
    (hrun : FreeRun v.pmm start 1) {q : List Nat} (hq : q ∈ UserPath) :
    (v.graft start table i).tableAt root q = if q = path ++ [i] then some (start * pageSize) else v.tableAt root q := by
  have haligned : start * pageSize % 4096 = 0 := Nat.mul_mod_left _ _
  have hlt := page_lt_of_freeRun hinv hrun
  have hpath : path ∈ UserPath := userPath_prefixClosed _ _ (List.prefix_append path [i]) hmem
  have hfree : bitmapGet v.pmm.bitmap start = true := by simpa using hrun.2 0 (by omega)
  refine descend_graft tableBelow userPath_prefixClosed htree.separate hpath htable (htree.ne_of_free hfree)
    (tableBelow_eq_none.mpr habsent) ?_ (fun _ => by decide) hq
  rw [tableBelow_of_present (tableEntry_present _ _), tableVirt_entry haligned hlt]

/-- An entry of the grown tree is the new one, an entry of the fresh table, or an old one. -/
theorem tables_graft (other j : Nat) :
    (v.graft start table i).tables other j =
      if other = table ∧ j = i then BitVec.ofNat 64 (start * pageSize) ||| tableFlags true
      else if other = start * pageSize then 0#64 else v.tables other j := by
  simp only [graft, setEntry, write_apply]
  split
  · rfl
  · by_cases hother : other = start * pageSize
    · rw [if_pos hother, hother, Function.update_self]
    · rw [if_neg hother, Function.update_of_ne hother]

theorem graft_userTree (hinv : v.pmm.Inv) (htree : v.UserTree root) (hmem : path ++ [i] ∈ UserPath)
    (htable : v.tableAt root path = some table) (habsent : v.tables table i &&& ptePresent = 0#64) (hpos : 0 < start)
    (hrun : FreeRun v.pmm start 1) : (v.graft start table i).UserTree root := by
  have haligned : start * pageSize % 4096 = 0 := Nat.mul_mod_left _ _
  have hlt := page_lt_of_freeRun hinv hrun
  have hfree : bitmapGet v.pmm.bitmap start = true := by simpa using hrun.2 0 (by omega)
  have hfresh := htree.ne_of_free hfree
  have htables := fun {q : List Nat} (hq : q ∈ UserPath) => tableAt_graft hinv htree hmem htable habsent hrun hq
  refine ⟨fun p hp q hq node hnode hnode' => ?_, fun p hp t ht => ?_, fun p j hpj t ht hpresent => ?_⟩
  · rw [← tableAt, htables hp] at hnode
    rw [← tableAt, htables hq] at hnode'
    split at hnode <;> split at hnode'
    · simp_all
    · exact absurd (hnode'.trans hnode.symm) (hfresh q hq)
    · exact absurd (hnode.trans hnode'.symm) (hfresh p hp)
    · exact htree.separate p hp q hq node hnode hnode'
  · rw [htables hp] at ht
    split at ht
    · obtain rfl := Option.some.inj ht
      have hframe : addrToFrame (start * pageSize) = start := Nat.mul_div_cancel _ (by decide)
      refine ⟨Nat.mul_mod_left _ _, by rw [hframe]; exact hpos, ?_, ?_⟩
      · rw [hframe]
        exact hrun.1
      · rw [hframe]
        show bitmapGet (v.pmm.take start 1).bitmap start = false
        rw [Pmm.bitmapGet_take, if_pos (by omega)]
    · have hold := htree.taken p hp t ht
      refine ⟨hold.aligned, hold.pos, hold.tracked, ?_⟩
      show bitmapGet (v.pmm.take start 1).bitmap _ = false
      rw [Pmm.bitmapGet_take, hold.taken, ite_self]
  · rw [tables_graft] at hpresent ⊢
    split at hpresent
    · rename_i hnew
      rw [if_pos hnew]
      exact ⟨tableEntry_user _, tableEntry_pageSize haligned hlt true⟩
    · rename_i hnew
      rw [if_neg hnew]
      split at hpresent
      · exact absurd BitVec.zero_and hpresent
      · rename_i hother
        rw [if_neg hother]
        have hp : p ∈ UserPath := userPath_prefixClosed _ _ (List.prefix_append p [j]) hpj
        rw [htables hp] at ht
        split at ht
        · exact absurd (Option.some.inj ht).symm hother
        · exact htree.flags p j hpj t ht hpresent

theorem graft_userStep (hinv : v.pmm.Inv) (htree : v.UserTree root) (hmem : path ++ [i] ∈ UserPath)
    (htable : v.tableAt root path = some table) (habsent : v.tables table i &&& ptePresent = 0#64) (hpos : 0 < start)
    (hrun : FreeRun v.pmm start 1) : UserStep root v (v.graft start table i) := by
  have hfree : bitmapGet v.pmm.bitmap start = true := by simpa using hrun.2 0 (by omega)
  have hfresh := htree.ne_of_free hfree
  have hpath : path ∈ UserPath := userPath_prefixClosed _ _ (List.prefix_append path [i]) hmem
  have htables := fun {q : List Nat} (hq : q ∈ UserPath) => tableAt_graft hinv htree hmem htable habsent hrun hq
  have hnone : v.tableAt root (path ++ [i]) = none := by
    rw [tableAt_concat, htable, Option.bind_some, tableBelow_eq_none.mpr habsent]
  have hgrows : ∀ p ∈ UserPath, ∀ t, v.tableAt root p = some t → (v.graft start table i).tableAt root p = some t := by
    intro p hp t ht
    rw [htables hp, if_neg, ht]
    rintro rfl
    rw [hnone] at ht
    simp at ht
  have hbit : ∀ frame, bitmapGet (v.graft start table i).pmm.bitmap frame =
      if frame = start then false else bitmapGet v.pmm.bitmap frame := by
    intro frame
    show bitmapGet (v.pmm.take start 1).bitmap frame = _
    rw [Pmm.bitmapGet_take]
    by_cases heq : frame = start
    · rw [if_pos heq, if_pos (by omega)]
    · rw [if_neg heq, if_neg (by omega)]
  refine ⟨hinv.take hrun, graft_userTree hinv htree hmem htable habsent hpos hrun, fun frame => ?_, rfl, hgrows, fun t j hne => ?_⟩
  · -- the frame leaves the bitmap and enters the tree
    simp only [Owned, hbit]
    by_cases heq : frame = start
    · subst heq
      refine ⟨fun _ => Or.inl hfree, fun _ => Or.inr ⟨path ++ [i], hmem, ?_⟩⟩
      rw [htables hmem, if_pos rfl]
    · rw [if_neg heq]
      refine or_congr Iff.rfl ⟨fun ⟨p, hp, ht⟩ => ⟨p, hp, ?_⟩, fun ⟨p, hp, ht⟩ => ⟨p, hp, hgrows p hp _ ht⟩⟩
      rw [htables hp] at ht
      split at ht
      · have := Option.some.inj ht
        simp only [pageSize] at this
        omega
      · exact ht
  · rw [tables_graft] at hne
    split at hne
    · rename_i hnew
      refine ⟨path, hpath, by rw [hgrows path hpath table htable, hnew.1], fun hroot => ?_⟩
      subst hroot
      rw [hnew.2]
      exact hmem.2.1 i (by simp)
    · split at hne
      · rename_i hother
        refine ⟨path ++ [i], hmem, by rw [htables hmem, if_pos rfl, hother], fun h => ?_⟩
        simp at h
      · exact absurd rfl hne

theorem graft_samePtes (hinv : v.pmm.Inv) (htree : v.UserTree root) (hmem : path ++ [i] ∈ UserPath)
    (htable : v.tableAt root path = some table) (habsent : v.tables table i &&& ptePresent = 0#64)
    (hrun : FreeRun v.pmm start 1) : SamePtes root v (v.graft start table i) := by
  have hfree : bitmapGet v.pmm.bitmap start = true := by simpa using hrun.2 0 (by omega)
  have hfresh := htree.ne_of_free hfree
  have hpath : path ∈ UserPath := userPath_prefixClosed _ _ (List.prefix_append path [i]) hmem
  intro p hp hlen j
  have hnone : v.tableAt root (path ++ [i]) = none := by
    rw [tableAt_concat, htable, Option.bind_some, tableBelow_eq_none.mpr habsent]
  have hne : p ≠ path := by
    rintro rfl
    have := hmem.1
    simp only [List.length_append, List.length_singleton] at this
    omega
  simp only [pteAt, tableAt_graft hinv htree hmem htable habsent hrun hp]
  by_cases hnew : p = path ++ [i]
  · -- a fresh page table holds no mapping
    subst hnew
    have htableNe : start * pageSize ≠ table := fun h => hfresh path hpath (h ▸ htable)
    simp only [if_true, hnone, tables_graft, htableNe, false_and, if_false]
  · rw [if_neg hnew]
    cases ht : v.tableAt root p with
    | none => rfl
    | some t =>
        have hstart : t ≠ start * pageSize := fun h => hfresh p hp (h ▸ ht)
        have hother : t ≠ table := fun h => hne (htree.separate p hp path hpath t ht (h ▸ htable))
        simp only [tables_graft, hother, false_and, if_false, hstart]

end Graft

end Vmm

end Tsukasa
