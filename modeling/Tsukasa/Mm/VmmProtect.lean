import Tsukasa.Mm.MapExact

/-!
# Protecting a range page by page

`vmm_protect_pages` rewrites the entries of a range one after the other and gives up at the first page that is not mapped. Unlike `vmm_map_pages` it takes nothing back, and unlike `vmm_unmap_pages` it does not look at the whole range first. What it leaves behind is the rewritten entries of the pages in front of the unmapped one, in either half of the address space.
-/

namespace Tsukasa

open Lib.Radix

/-- A path that a walk can take, in either half. -/
def WalkPath : Set (List Nat) := {p | p.length ≤ 3 ∧ ∀ i ∈ p, i < 512}

theorem pathOf_mem_walkPath (va : Nat) : pathOf va ∈ WalkPath := by
  refine ⟨by simp [pathOf], fun i hi => ?_⟩
  simp only [pathOf, List.mem_cons, List.not_mem_nil, or_false, pml4Idx_eq, pdptIdx_eq, pdIdx_eq] at hi
  omega

/-- One level of a reading walk: the table an entry leads to. -/
def walkBelow (user : Bool) (entry : BitVec 64) : Option Nat :=
  if entry &&& ptePresent = 0 then none else if user && decide (entry &&& pteUser = 0) then none else some (tableVirt entry)

theorem tableBelow_of_walkBelow {user : Bool} {entry : BitVec 64} {table : Nat} (h : walkBelow user entry = some table) :
    tableBelow entry = some table := by
  rw [walkBelow] at h
  split_ifs at h with hpresent
  rw [tableBelow_of_present hpresent, h]

namespace Vmm

/-- An address space that a walk can follow: its top-level table is a page, and no table is on two levels of it. -/
structure Walkable (v : Vmm) (root : Nat) : Prop where
  pos : root ≠ 0
  page : tableVirt (BitVec.ofNat 64 root) = root
  layered : ∀ p ∈ WalkPath, ∀ q ∈ WalkPath, ∀ table, v.tableAt root p = some table → v.tableAt root q = some table → p.length = q.length

variable {root : Nat} {v v' : Vmm} {va count : Nat} {user : Bool}

/-! ### The entry at the end of a walk -/

theorem walkLevel_reads (v : Vmm) (table i : Nat) (user : Bool) : walkLevel v table i false user = (walkBelow user (v.tables table i), v) := by
  simp only [walkLevel, walkBelow, Bool.false_eq_true, if_false]
  split_ifs <;> rfl

theorem walkToPt_reads (hpos : root ≠ 0) (hpage : tableVirt (BitVec.ofNat 64 root) = root) (va : Nat) (user : Bool) :
    walkToPt v root va false user = (descend (walkBelow user) v.tables root (pathOf va), v) := by
  simp only [walkToPt, if_neg hpos, hpage, walkLevel_reads, pathOf, descend]
  cases walkBelow user (v.tables root (pml4Idx va)) with
  | none => rfl
  | some pdpt =>
      simp only [Option.bind_some]
      cases walkBelow user (v.tables pdpt (pdptIdx va)) with
      | none => rfl
      | some pd =>
          simp only [Option.bind_some]
          cases walkBelow user (v.tables pd (pdIdx va)) <;> rfl

/-- A walk goes nowhere but where the tables lead. -/
theorem tableAt_of_walk {path : List Nat} {table : Nat} (h : descend (walkBelow user) v.tables root path = some table) :
    v.tableAt root path = some table := by
  induction path using List.reverseRecOn generalizing table with
  | nil => exact h
  | append_singleton path i ih =>
      rw [descend_concat] at h
      obtain ⟨node, hnode, hbelow⟩ := Option.bind_eq_some_iff.mp h
      rw [tableAt_concat, ih hnode, Option.bind_some, tableBelow_of_walkBelow hbelow]

/-- The present page-table entry that a walk ends at, by its table and index. -/
def leafSlot (v : Vmm) (root : Nat) (user : Bool) (va : Nat) : Option (Nat × Nat) :=
  match (walkToPt v root va false user).1 with
  | none => none
  | some pt => if v.tables pt (ptIdx va) &&& ptePresent = 0 then none else some (pt, ptIdx va)

/-- The entry that `vmm_query_page` reads. -/
def querySlot (v : Vmm) (root va : Nat) : Option (Nat × Nat) :=
  if pagingIsPageAligned va = false then none
  else if !pagingRangeIsUser va pageSize && !pagingRangeIsKernel va pageSize then none
  else v.leafSlot root (pagingRangeIsUser va pageSize) va

theorem vmmQueryPage_eq (hpos : root ≠ 0) (va : Nat) :
    vmmQueryPage v root va = (v.querySlot root va).map fun slot =>
      (v.tables slot.1 slot.2 &&& vmmAddrMask, v.tables slot.1 slot.2 &&& ~~~vmmAddrMask) := by
  rw [vmmQueryPage, querySlot, leafSlot]
  simp only [hpos, false_or]
  split_ifs
  · rfl
  · rfl
  · cases (walkToPt v root va false (pagingRangeIsUser va pageSize)).1 with
    | none => rfl
    | some pt =>
        dsimp only
        split_ifs <;> rfl

theorem leafSlot_table (h : v.Walkable root) {slot : Nat × Nat} (hslot : v.leafSlot root user va = some slot) :
    v.tableAt root (pathOf va) = some slot.1 ∧ v.tables slot.1 slot.2 &&& ptePresent ≠ 0#64 := by
  rw [leafSlot, walkToPt_reads h.pos h.page] at hslot
  cases hwalk : descend (walkBelow user) v.tables root (pathOf va) with
  | none => simp [hwalk] at hslot
  | some pt =>
      simp only [hwalk] at hslot
      split_ifs at hslot with hpresent
      obtain rfl := Option.some.inj hslot
      exact ⟨tableAt_of_walk hwalk, hpresent⟩

/-! ### Rewriting page-table entries -/

/-- The tables of `v'` are those of `v` with some present page-table entries rewritten into other present ones. -/
structure LeafWrite (root : Nat) (S : Set (Nat × Nat)) (f : BitVec 64 → BitVec 64) (v v' : Vmm) : Prop where
  leaf : ∀ slot ∈ S, ∃ user va, v.leafSlot root user va = some slot
  inside : ∀ slot ∈ S, v'.tables slot.1 slot.2 = f (v.tables slot.1 slot.2)
  outside : ∀ slot, slot ∉ S → v'.tables slot.1 slot.2 = v.tables slot.1 slot.2

variable {S T : Set (Nat × Nat)} {f : BitVec 64 → BitVec 64}

namespace LeafWrite

theorem refl : LeafWrite root ∅ f v v := ⟨fun _ h => absurd h (Set.notMem_empty _), fun _ h => absurd h (Set.notMem_empty _), fun _ _ => rfl⟩

/-- The tables above the page tables stay as they are. -/
theorem inner (hwrite : LeafWrite root S f v v') (h : v.Walkable root) {p : List Nat} (hp : p ∈ WalkPath) (hlen : p.length < 3) {table : Nat}
    (htable : v.tableAt root p = some table) (i : Nat) : v'.tables table i = v.tables table i := by
  refine hwrite.outside (table, i) fun hslot => ?_
  obtain ⟨user, va, hleaf⟩ := hwrite.leaf _ hslot
  have hlayer := h.layered p hp (pathOf va) (pathOf_mem_walkPath va) table htable (leafSlot_table h hleaf).1
  rw [hlayer] at hlen
  exact absurd hlen (by simp [pathOf])

theorem tableAt_eq (hwrite : LeafWrite root S f v v') (h : v.Walkable root) {p : List Nat} (hp : p ∈ WalkPath) :
    v'.tableAt root p = v.tableAt root p := by
  refine descend_congr tableBelow fun before i hpre node hnode => ?_
  have hlen := hpre.length_le
  rw [List.length_append, List.length_singleton] at hlen
  have hp3 := hp.1
  exact hwrite.inner h ⟨by omega, fun j hj => hp.2 j (hpre.subset (List.mem_append_left _ hj))⟩ (by omega) hnode i

theorem walkable (hwrite : LeafWrite root S f v v') (h : v.Walkable root) : v'.Walkable root := by
  refine ⟨h.pos, h.page, fun p hp q hq table hptable hqtable => ?_⟩
  rw [hwrite.tableAt_eq h hp] at hptable
  rw [hwrite.tableAt_eq h hq] at hqtable
  exact h.layered p hp q hq table hptable hqtable

theorem walk_eq (hwrite : LeafWrite root S f v v') (h : v.Walkable root) (user : Bool) (va : Nat) :
    (walkToPt v' root va false user).1 = (walkToPt v root va false user).1 := by
  rw [walkToPt_reads h.pos h.page, walkToPt_reads h.pos h.page]
  refine descend_congr (walkBelow user) fun before i hpre node hnode => ?_
  have hlen := hpre.length_le
  rw [List.length_append, List.length_singleton] at hlen
  have hp := pathOf_mem_walkPath va
  have hp3 := hp.1
  exact hwrite.inner h ⟨by omega, fun j hj => hp.2 j (hpre.subset (List.mem_append_left _ hj))⟩ (by omega) (tableAt_of_walk hnode) i

/-- Every walk still ends at the same entry. -/
theorem leafSlot_eq (hwrite : LeafWrite root S f v v') (h : v.Walkable root) (hpresent : ∀ entry, f entry &&& ptePresent ≠ 0#64) (user : Bool)
    (va : Nat) : v'.leafSlot root user va = v.leafSlot root user va := by
  rw [leafSlot, leafSlot, hwrite.walk_eq h]
  cases hwalk : (walkToPt v root va false user).1 with
  | none => rfl
  | some pt =>
      dsimp only
      by_cases hslot : (pt, ptIdx va) ∈ S
      · obtain ⟨user', va', hleaf⟩ := hwrite.leaf _ hslot
        have hold : ¬v.tables pt (ptIdx va) &&& ptePresent = 0 := (leafSlot_table h hleaf).2
        have hnew : v'.tables pt (ptIdx va) = f (v.tables pt (ptIdx va)) := hwrite.inside _ hslot
        have hpresent' : ¬f (v.tables pt (ptIdx va)) &&& ptePresent = 0 := hpresent _
        rw [if_neg hold, hnew, if_neg hpresent']
      · have hsame : v'.tables pt (ptIdx va) = v.tables pt (ptIdx va) := hwrite.outside _ hslot
        rw [hsame]

theorem querySlot_eq (hwrite : LeafWrite root S f v v') (h : v.Walkable root) (hpresent : ∀ entry, f entry &&& ptePresent ≠ 0#64) (va : Nat) :
    v'.querySlot root va = v.querySlot root va := by
  rw [querySlot, querySlot, hwrite.leafSlot_eq h hpresent]

theorem single {slot : Nat × Nat} (hslot : v.leafSlot root user va = some slot) :
    LeafWrite root {slot} f v (v.setEntry slot.1 slot.2 (f (v.tables slot.1 slot.2))) := by
  refine ⟨fun other hother => ?_, fun other hother => ?_, fun other hother => ?_⟩
  · rw [Set.mem_singleton_iff.mp hother]
    exact ⟨user, va, hslot⟩
  · rw [Set.mem_singleton_iff.mp hother]
    exact write_self ..
  · refine write_of_ne ?_
    rw [Set.mem_singleton_iff, Prod.ext_iff, not_and_or] at hother
    exact hother

/-- Rewriting an entry that has been rewritten already changes nothing, so the order does not matter. -/
theorem trans {v'' : Vmm} (h : v.Walkable root) (hpresent : ∀ entry, f entry &&& ptePresent ≠ 0#64) (hidem : ∀ entry, f (f entry) = f entry)
    (hfirst : LeafWrite root S f v v') (hsecond : LeafWrite root T f v' v'') : LeafWrite root (S ∪ T) f v v'' := by
  refine ⟨fun slot hslot => ?_, fun slot hslot => ?_, fun slot hslot => ?_⟩
  · rcases hslot with hslot | hslot
    · exact hfirst.leaf slot hslot
    · obtain ⟨user, va, hleaf⟩ := hsecond.leaf slot hslot
      exact ⟨user, va, by rwa [hfirst.leafSlot_eq h hpresent] at hleaf⟩
  · by_cases hS : slot ∈ S
    · by_cases hT : slot ∈ T
      · rw [hsecond.inside slot hT, hfirst.inside slot hS, hidem]
      · rw [hsecond.outside slot hT, hfirst.inside slot hS]
    · rw [hsecond.inside slot (hslot.resolve_left hS), hfirst.outside slot hS]
  · rw [Set.mem_union, not_or] at hslot
    rw [hsecond.outside slot hslot.2, hfirst.outside slot hslot.1]

end LeafWrite

/-! ### The loop -/

/-- The entry that `vmm_protect_pages` makes of an entry. -/
def protectedEntry (flags entry : BitVec 64) : BitVec 64 := entry &&& vmmAddrMask ||| pteFlagsFromMap flags ||| ptePresent

theorem protectedEntry_present (flags entry : BitVec 64) : protectedEntry flags entry &&& ptePresent ≠ 0#64 := or_and_ne_zero (by decide)

theorem protectedEntry_address (flags entry : BitVec 64) : protectedEntry flags entry &&& vmmAddrMask = entry &&& vmmAddrMask := by
  rw [protectedEntry, BitVec.or_assoc, BitVec.and_or_distrib_right, pteFlags_and_mask, BitVec.or_zero, BitVec.and_assoc, BitVec.and_self]

theorem protectedEntry_flags (flags entry : BitVec 64) :
    protectedEntry flags entry &&& ~~~vmmAddrMask = pteFlagsFromMap flags ||| ptePresent := by
  have hmask := pteFlags_and_mask flags
  rw [protectedEntry, BitVec.or_assoc]
  generalize pteFlagsFromMap flags ||| ptePresent = bits at hmask
  apply BitVec.eq_of_getLsbD_eq
  intro i hi
  have hbit := congrArg (fun x => x.getLsbD i) hmask
  simp only [BitVec.getLsbD_and, BitVec.getLsbD_zero] at hbit
  simp only [BitVec.getLsbD_and, BitVec.getLsbD_or, BitVec.getLsbD_not, hi, decide_true, Bool.true_and]
  cases hm : vmmAddrMask.getLsbD i
  · simp
  · rw [hm, Bool.and_true] at hbit
    simp [hbit]

theorem protectedEntry_idem (flags entry : BitVec 64) : protectedEntry flags (protectedEntry flags entry) = protectedEntry flags entry := by
  rw [protectedEntry, protectedEntry_address, protectedEntry]

/-- The entries of the `remaining` pages from the `i`-th on that the loop comes to: those in front of the first page that is not mapped. -/
def Reached (v : Vmm) (root va : Nat) (user : Bool) (i remaining : Nat) : Set (Nat × Nat) :=
  {slot | ∃ k, i ≤ k ∧ k < i + remaining ∧ (∀ j, i ≤ j → j < k → v.leafSlot root user (pageAt va j) ≠ none) ∧
    v.leafSlot root user (pageAt va k) = some slot}

theorem reached_zero {i : Nat} : v.Reached root va user i 0 = ∅ := by
  ext slot
  refine iff_of_false ?_ (Set.notMem_empty _)
  rintro ⟨k, hle, hlt, -⟩
  omega

theorem reached_none {i remaining : Nat} (hnone : v.leafSlot root user (pageAt va i) = none) : v.Reached root va user i remaining = ∅ := by
  ext slot
  refine iff_of_false ?_ (Set.notMem_empty _)
  rintro ⟨k, hle, -, hbefore, hslot⟩
  rcases Nat.eq_or_lt_of_le hle with rfl | hlt
  · rw [hnone] at hslot
    simp at hslot
  · exact hbefore i (Nat.le_refl i) hlt hnone

theorem reached_some {i remaining : Nat} {slot : Nat × Nat} (hslot : v.leafSlot root user (pageAt va i) = some slot) :
    v.Reached root va user i (remaining + 1) = {slot} ∪ v.Reached root va user (i + 1) remaining := by
  ext other
  rw [Set.mem_union, Set.mem_singleton_iff]
  constructor
  · rintro ⟨k, hle, hlt, hbefore, hother⟩
    rcases Nat.eq_or_lt_of_le hle with rfl | hgt
    · exact Or.inl (Option.some.inj (hother.symm.trans hslot))
    · exact Or.inr ⟨k, hgt, by omega, fun j hj hjk => hbefore j (by omega) hjk, hother⟩
  · rintro (rfl | ⟨k, hle, hlt, hbefore, hother⟩)
    · exact ⟨i, Nat.le_refl i, by omega, fun j hj hjk => by omega, hslot⟩
    · refine ⟨k, by omega, by omega, fun j hj hjk => ?_, hother⟩
      rcases Nat.eq_or_lt_of_le hj with rfl | hgt
      · rw [hslot]
        exact Option.some_ne_none _
      · exact hbefore j hgt hjk

/-- One round of the loop, by the entry that the walk ends at. -/
theorem protectLoop_succ (h : v.Walkable root) (flags : BitVec 64) (remaining i : Nat) :
    protectLoop root va (pteFlagsFromMap flags) user (remaining + 1) i v =
      match v.leafSlot root user (pageAt va i) with
      | none => (-1, v)
      | some slot => protectLoop root va (pteFlagsFromMap flags) user remaining (i + 1)
          (v.setEntry slot.1 slot.2 (protectedEntry flags (v.tables slot.1 slot.2))) := by
  rw [protectLoop, leafSlot, walkToPt_reads h.pos h.page]
  cases descend (walkBelow user) v.tables root (pathOf (pageAt va i)) with
  | none => rfl
  | some pt =>
      dsimp only
      split_ifs <;> rfl

/-- The loop rewrites what it reaches, and succeeds when it reaches every page. -/
theorem protectLoop_reached (h : v.Walkable root) (va : Nat) (user : Bool) (flags : BitVec 64) (remaining i : Nat) :
    LeafWrite root (v.Reached root va user i remaining) (protectedEntry flags) v
        (protectLoop root va (pteFlagsFromMap flags) user remaining i v).2 ∧
      (protectLoop root va (pteFlagsFromMap flags) user remaining i v).1 =
        if ∀ k, i ≤ k → k < i + remaining → v.leafSlot root user (pageAt va k) ≠ none then 0 else -1 := by
  classical
  induction remaining generalizing i v with
  | zero =>
      rw [reached_zero, if_pos fun k hle hlt => absurd hlt (by omega)]
      exact ⟨LeafWrite.refl, rfl⟩
  | succ remaining ih =>
      rw [protectLoop_succ h]
      cases hslot : v.leafSlot root user (pageAt va i) with
      | none =>
          rw [reached_none hslot, if_neg fun hall => hall i (Nat.le_refl i) (by omega) hslot]
          exact ⟨LeafWrite.refl, rfl⟩
      | some slot =>
          have hfirst := LeafWrite.single (f := protectedEntry flags) hslot
          have hkeep := fun va => hfirst.leafSlot_eq h (protectedEntry_present flags) user va
          obtain ⟨hrest, hret⟩ := ih (hfirst.walkable h) (i + 1)
          simp only [Reached, hkeep] at hrest hret
          rw [reached_some hslot]
          refine ⟨LeafWrite.trans h (protectedEntry_present flags) (protectedEntry_idem flags) hfirst hrest, hret.trans (if_congr ?_ rfl rfl)⟩
          constructor
          · intro hall k hle hlt
            rcases Nat.eq_or_lt_of_le hle with rfl | hgt
            · rw [hslot]
              exact Option.some_ne_none _
            · exact hall k hgt (by omega)
          · exact fun hall k hle hlt => hall k (by omega) (by omega)

/-! ### The call -/

/-- The checks of `vmm_protect_pages` on its arguments. -/
def protectAccepts (virtAddr pageCount : Nat) (mapFlags : BitVec 64) : Bool :=
  decide (mapFlags &&& pagingMapRead ≠ 0) && validateSpan virtAddr none pageCount &&
    if mapFlags &&& pagingMapUser ≠ 0 then pagingRangeIsUser virtAddr (wrap64 (pageCount * pageSize))
    else pagingRangeIsKernel virtAddr (wrap64 (pageCount * pageSize))

theorem vmmProtectPages_eq (hpos : root ≠ 0) (flags : BitVec 64) :
    vmmProtectPages v root va count flags =
      if protectAccepts va count flags then
        protectLoop root va (pteFlagsFromMap flags) (decide (flags &&& pagingMapUser ≠ 0)) count 0 v
      else (-1, v) := by
  rw [vmmProtectPages, protectAccepts, if_neg hpos]
  by_cases hread : flags &&& pagingMapRead = 0#64
  · simp [hread]
  · by_cases hvalid : validateSpan va none count = true
    · by_cases huser : flags &&& pagingMapUser = 0#64
      · by_cases hin : pagingRangeIsKernel va (wrap64 (count * pageSize)) = true <;> simp [hread, hvalid, huser, hin]
      · by_cases hin : pagingRangeIsUser va (wrap64 (count * pageSize)) = true <;> simp [hread, hvalid, huser, hin]
    · simp [hread, hvalid]

/-- A failure leaves no trace: the call is refused, or every page is mapped, or every entry that the loop reaches has the flags already, as far as a query sees it. -/
def ProtectHarmless (v : Vmm) (root va count : Nat) (flags : BitVec 64) : Prop :=
  protectAccepts va count flags = false ∨
    (∀ k < count, v.leafSlot root (decide (flags &&& pagingMapUser ≠ 0)) (pageAt va k) ≠ none) ∨
    ∀ page < 2 ^ 64, ∀ slot ∈ v.Reached root va (decide (flags &&& pagingMapUser ≠ 0)) 0 count, v.querySlot root page = some slot →
      v.tables slot.1 slot.2 &&& ~~~vmmAddrMask = pteFlagsFromMap flags ||| ptePresent

end Vmm

open Vmm

/-- A `vmm_protect_pages` that fails changes nothing exactly when the pages that it comes to before the unmapped one have the flags already. -/
theorem vmm_protect_fail_iff (v : Vmm) (root va count : Nat) (flags : BitVec 64) (hwalk : v.Walkable root) :
    ((vmmProtectPages v root va count flags).1 = -1 →
        ∀ page < 2 ^ 64, vmmQueryPage (vmmProtectPages v root va count flags).2 root page = vmmQueryPage v root page) ↔
      ProtectHarmless v root va count flags := by
  rw [vmmProtectPages_eq hwalk.pos, ProtectHarmless]
  cases haccepts : protectAccepts va count flags with
  | false => simp
  | true =>
      obtain ⟨hwrite, hret⟩ := protectLoop_reached hwalk va (decide (flags &&& pagingMapUser ≠ 0)) flags count 0
      simp only [if_true, Bool.true_eq_false, false_or, Nat.zero_add, Nat.zero_le, true_implies] at hret ⊢
      rw [hret]
      generalize (protectLoop root va (pteFlagsFromMap flags) (decide (flags &&& pagingMapUser ≠ 0)) count 0 v).2 = v' at hwrite
      split
      · next hall => exact iff_of_true (fun h => absurd h (by decide)) (Or.inl hall)
      · next hsome =>
          simp only [true_implies, hsome, false_or]
          refine forall₂_congr fun page hpage => ?_
          rw [vmmQueryPage_eq hwalk.pos, vmmQueryPage_eq hwalk.pos, hwrite.querySlot_eq hwalk (protectedEntry_present flags)]
          cases hquery : v.querySlot root page with
          | none => simp
          | some slot =>
              simp only [Option.map_some, Option.some.injEq, Prod.mk.injEq]
              by_cases hslot : slot ∈ v.Reached root va (decide (flags &&& pagingMapUser ≠ 0)) 0 count
              · rw [hwrite.inside slot hslot, protectedEntry_address, protectedEntry_flags]
                constructor
                · rintro ⟨-, hflags⟩ other - rfl
                  exact hflags.symm
                · exact fun hall => ⟨rfl, (hall slot hslot rfl).symm⟩
              · rw [hwrite.outside slot hslot]
                refine iff_of_true ⟨rfl, rfl⟩ ?_
                rintro other hother rfl
                exact absurd hother hslot

/-! ### One page, and the unmapped one behind it -/

/-- A space with one page, at the start of the user window, that may be read and executed. -/
def onePage : Vmm where
  pmm := Pmm.exhausted
  tables table i :=
    if table = 0x1000 ∧ i = 0 then 0x2007#64
    else if table = 0x2000 ∧ i = 0 then 0x3007#64
    else if table = 0x3000 ∧ i = 0 then 0x4007#64
    else if table = 0x4000 ∧ i = 256 then 0x200005#64
    else 0#64
  currentPml4 := 0x1000

theorem onePage_below {table i next : Nat} (h : tableBelow (onePage.tables table i) = some next) :
    (table = 0x1000 ∧ next = 0x2000) ∨ (table = 0x2000 ∧ next = 0x3000) ∨ (table = 0x3000 ∧ next = 0x4000) ∨
      (table = 0x4000 ∧ next = 0x200000) := by
  simp only [onePage] at h
  split_ifs at h with h₁ h₂ h₃ h₄
  · exact Or.inl ⟨h₁.1, Option.some.inj h.symm⟩
  · exact Or.inr (Or.inl ⟨h₂.1, Option.some.inj h.symm⟩)
  · exact Or.inr (Or.inr (Or.inl ⟨h₃.1, Option.some.inj h.symm⟩))
  · exact Or.inr (Or.inr (Or.inr ⟨h₄.1, Option.some.inj h.symm⟩))
  · simp [tableBelow] at h

/-- Every table is on the level its address gives. -/
theorem onePage_level {p : List Nat} {table : Nat} (h : onePage.tableAt 0x1000 p = some table) :
    (p.length = 0 ∧ table = 0x1000) ∨ (p.length = 1 ∧ table = 0x2000) ∨ (p.length = 2 ∧ table = 0x3000) ∨
      (p.length = 3 ∧ table = 0x4000) ∨ (p.length = 4 ∧ table = 0x200000) := by
  induction p using List.reverseRecOn generalizing table with
  | nil => exact Or.inl ⟨rfl, (Option.some.inj h).symm⟩
  | append_singleton p i ih =>
      rw [tableAt_concat] at h
      obtain ⟨node, hnode, hbelow⟩ := Option.bind_eq_some_iff.mp h
      have hlevel := ih hnode
      have hnext := onePage_below hbelow
      rw [List.length_append, List.length_singleton]
      omega

theorem onePage_walkable : onePage.Walkable 0x1000 := by
  refine ⟨by decide, by decide, fun p _ q _ table hp hq => ?_⟩
  have hplevel := onePage_level hp
  have hqlevel := onePage_level hq
  omega

/-- The flags asked for are those of the page, so the failure at the page behind it changes nothing. -/
theorem vmm_protect_fail_iff_onePage :
    vmmQueryPage (vmmProtectPages onePage 0x1000 0x100000 2 (pagingMapRead ||| pagingMapExec ||| pagingMapUser)).2 0x1000 0x100000 =
      vmmQueryPage onePage 0x1000 0x100000 := by
  refine (vmm_protect_fail_iff onePage 0x1000 0x100000 2 _ onePage_walkable).mpr (Or.inr (Or.inr fun page _ slot hslot _ => ?_)) (by decide)
    0x100000 (by decide)
  obtain ⟨k, -, hk, hbefore, hleaf⟩ := hslot
  have hcases : k = 0 ∨ k = 1 := by omega
  rcases hcases with rfl | rfl
  · obtain rfl := Option.some.inj (hleaf.symm.trans (by decide : _ = some (0x4000, 256)))
    decide
  · exact absurd (hleaf.symm.trans (by decide : _ = none)) (by simp)

/-- Asked for two writable pages, the call fails at the second, and the first can then be written and no longer executed. -/
theorem vmm_protect_fails_half_done :
    ¬∀ (v : Vmm) (root va count : Nat) (flags : BitVec 64), v.Walkable root → (vmmProtectPages v root va count flags).1 = -1 →
      ∀ page < 2 ^ 64, vmmQueryPage (vmmProtectPages v root va count flags).2 root page = vmmQueryPage v root page := by
  intro hall
  have hsame := hall onePage 0x1000 0x100000 2 (pagingMapRead ||| pagingMapWrite ||| pagingMapUser) onePage_walkable (by decide) 0x100000 (by decide)
  exact absurd hsame (by decide)

end Tsukasa
