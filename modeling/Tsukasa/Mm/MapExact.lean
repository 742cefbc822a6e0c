import Tsukasa.Mm.VmmRange

/-!
# Map and unmap are exact

What `vmm_query_page` reports after `vmm_map_pages` and `vmm_unmap_pages` on a user range. Within the user half the calls are exact for every well-formed tree. The kernel half is shared and not part of that tree, so a page of it keeps its mapping as long as the tables of its own walk are neither tables of the user half nor free frames that the walk may take.
-/

namespace Tsukasa

open Lib.Radix

namespace Vmm

variable {root : Nat} {v v' : Vmm}

/-- Below the top-level table, the walk of an address reads no table of the user half and no free frame. -/
def WalkApart (v : Vmm) (root va : Nat) : Prop :=
  ∀ before i, before ≠ [] → before ++ [i] <+: pathOf va ++ [ptIdx va] →
    ∀ frame, v.tableAt root before = some (frame * pageSize) → ¬ v.Owned root frame

theorem UserSlot.owned (htree : v.UserTree root) {table i : Nat} (hslot : v.UserSlot root table i) :
    v.Owned root (addrToFrame table) ∧ table = addrToFrame table * pageSize := by
  obtain ⟨p, hp, htable, -⟩ := hslot
  have heq := (htree.taken p hp table htable).eq_mul
  exact ⟨Or.inr ⟨p, hp, heq ▸ htable⟩, heq⟩

/-- A call on the user half changes no entry that the walk of a kernel page apart from it reads. -/
theorem UserStep.entry_eq (hstep : UserStep root v v') {va : Nat} (hpage : KernelPage va) (hapart : v.WalkApart root va)
    {before : List Nat} {i table : Nat} (hpre : before ++ [i] <+: pathOf va ++ [ptIdx va])
    (htable : v.tableAt root before = some table) : v'.tables table i = v.tables table i := by
  by_contra hne
  have hslot := hstep.frame table i hne
  cases before with
  | nil =>
      obtain rfl : root = table := Option.some.inj htable
      obtain ⟨p, hp, hp', hroot⟩ := hslot
      have hnil : p = [] := hstep.tree.separate p hp [] nil_mem_userPath root hp' rfl
      have hidx : i = pml4Idx va := by
        obtain ⟨rest, hrest⟩ := hpre
        simpa [pathOf] using congrArg List.head? hrest
      have := hpage.pml4Idx_ge
      have := hroot hnil
      omega
  | cons j before =>
      obtain ⟨howned, heq⟩ := hslot.owned hstep.tree
      rw [heq] at htable
      exact hapart (j :: before) i (by simp) hpre _ htable ((hstep.owned _).mp howned)

theorem UserStep.pageEntry_kernel (hstep : UserStep root v v') {va : Nat} (hpage : KernelPage va)
    (hapart : v.WalkApart root va) : v'.pageEntry root va = v.pageEntry root va := by
  have hpath : v'.tableAt root (pathOf va) = v.tableAt root (pathOf va) :=
    descend_congr tableBelow fun before i hpre node hnode =>
      hstep.entry_eq hpage hapart (hpre.trans (List.prefix_append _ _)) hnode
  simp only [pageEntry, pteAt, hpath]
  cases htable : v.tableAt root (pathOf va) with
  | none => rfl
  | some pt => exact hstep.entry_eq hpage hapart (List.prefix_refl _) htable

/-- A query whose entry is the same in both states has the same answer. -/
theorem UserStep.query_eq (hinv : v.pmm.Inv) (htree : v.UserTree root) (hstep : UserStep root v v') {page : Nat} (hpage : page < 2 ^ 64)
    (huser : UserPage page → v'.pageEntry root page = v.pageEntry root page)
    (hkernel : KernelPage page → v.WalkApart root page) :
    vmmQueryPage v' root page = vmmQueryPage v root page := by
  by_cases hup : UserPage page
  · rw [vmmQueryPage_user hstep.inv hstep.tree hup, vmmQueryPage_user hinv htree hup]
    exact congrArg decodePte (huser hup)
  · by_cases hkp : KernelPage page
    · rw [vmmQueryPage_kernel hstep.inv hstep.tree hkp, vmmQueryPage_kernel hinv htree hkp]
      exact congrArg decodePte (hstep.pageEntry_kernel hkp (hkernel hkp))
    · rw [vmmQueryPage_neither hpage hup hkp, vmmQueryPage_neither hpage hup hkp]

/-! ### The entry a mapping writes -/

theorem pteFlags_and_mask (flags : BitVec 64) : (pteFlagsFromMap flags ||| ptePresent) &&& vmmAddrMask = 0#64 := by
  simp only [pteFlagsFromMap]
  split_ifs <;> decide

theorem decodePte_newEntry {pa : Nat} (haligned : pa % 4096 = 0) (hlt : pa < 2 ^ 52) (flags : BitVec 64) :
    decodePte (BitVec.ofNat 64 pa &&& vmmAddrMask ||| pteFlagsFromMap flags ||| ptePresent) =
      some (BitVec.ofNat 64 pa, pteFlagsFromMap flags ||| ptePresent) := by
  have haddr : BitVec.ofNat 64 pa &&& vmmAddrMask = BitVec.ofNat 64 pa :=
    and_vmmAddrMask_of_page (by rw [toNat_page hlt]; exact haligned) (by rw [toNat_page hlt]; exact hlt)
  have hmask := pteFlags_and_mask flags
  rw [BitVec.or_assoc, haddr]
  generalize hbits : pteFlagsFromMap flags ||| ptePresent = bits at hmask
  have hpresent : bits &&& ptePresent ≠ 0#64 := by
    rw [← hbits]
    exact or_and_ne_zero (by decide)
  have hbit : ∀ i, i < 64 → (BitVec.ofNat 64 pa).getLsbD i = ((BitVec.ofNat 64 pa).getLsbD i && vmmAddrMask.getLsbD i) ∧
      (bits.getLsbD i && vmmAddrMask.getLsbD i) = false := by
    intro i hi
    have h₁ := congrArg (fun x => x.getLsbD i) haddr
    have h₂ := congrArg (fun x => x.getLsbD i) hmask
    simp only [BitVec.getLsbD_and, BitVec.getLsbD_zero] at h₁ h₂
    exact ⟨h₁.symm, h₂⟩
  rw [decodePte, if_neg (or_and_ne_zero hpresent)]
  congr 2
  · apply BitVec.eq_of_getLsbD_eq
    intro i hi
    obtain ⟨h₁, h₂⟩ := hbit i hi
    rw [BitVec.getLsbD_and, BitVec.getLsbD_or, Bool.and_or_distrib_right, h₂, Bool.or_false, ← h₁]
  · apply BitVec.eq_of_getLsbD_eq
    intro i hi
    obtain ⟨h₁, h₂⟩ := hbit i hi
    rw [BitVec.getLsbD_and, BitVec.getLsbD_or, BitVec.getLsbD_not, h₁]
    cases hm : vmmAddrMask.getLsbD i
    · simp [hi]
    · rw [hm] at h₂
      simpa using h₂.symm

/-! ### The calls -/

/-- The pages of a range. -/
def InRange (va count page : Nat) : Prop := ∃ i < count, page = va + i * pageSize

/-- After the call, the pages of the range are mapped to consecutive frames with the requested flags, and every other page is as before. -/
structure MapExact (v : Vmm) (root va pa count : Nat) (flags : BitVec 64) (v' : Vmm) : Prop where
  mapped : ∀ i < count, vmmQueryPage v' root (va + i * pageSize) =
    some (BitVec.ofNat 64 (pa + i * pageSize), pteFlagsFromMap flags ||| ptePresent)
  others : ∀ page < 2 ^ 64, ¬ InRange va count page → (KernelPage page → v.WalkApart root page) →
    vmmQueryPage v' root page = vmmQueryPage v root page
  tree : v'.UserTree root

/-- After the call, the pages of the range, all mapped before, are unmapped, and every other page is as before. -/
structure UnmapExact (v : Vmm) (root va count : Nat) (v' : Vmm) : Prop where
  before : ∀ i < count, (vmmQueryPage v root (va + i * pageSize)).isSome
  unmapped : ∀ i < count, vmmQueryPage v' root (va + i * pageSize) = none
  others : ∀ page < 2 ^ 64, ¬ InRange va count page → (KernelPage page → v.WalkApart root page) →
    vmmQueryPage v' root page = vmmQueryPage v root page
  tree : v'.UserTree root

theorem RangeWritten.others {va count : Nat} {entry : Nat → BitVec 64} (hinv : v.pmm.Inv) (htree : v.UserTree root)
    (hstep : UserStep root v v') (hwritten : RangeWritten root va 0 count entry v v') {page : Nat} (hpage : page < 2 ^ 64)
    (hout : ¬ InRange va count page) (hapart : KernelPage page → v.WalkApart root page) :
    vmmQueryPage v' root page = vmmQueryPage v root page :=
  hstep.query_eq hinv htree hpage
    (fun huser => hwritten.outside page huser fun k _ hk heq => hout ⟨k, by omega, heq⟩) hapart

end Vmm

open Vmm

/-- On a well-formed user half, a successful `vmm_map_pages` or `vmm_unmap_pages` of a user range changes the mapping of exactly the pages of the range, as far as the user half and the kernel pages walked apart from it go. -/
theorem vmm_map_unmap_exact (v : Vmm) (root va count : Nat) (hinv : v.pmm.Inv) (htree : v.UserTree root) (hva : va < 2 ^ 64)
    (hcount : count < 2 ^ 52) (huser : pagingRangeIsUser va (count * pageSize) = true) :
    (∀ (pa : Nat) (flags : BitVec 64), pa + count * pageSize ≤ 2 ^ 52 → (vmmMapPages v root va pa count flags).1 = 0 →
      MapExact v root va pa count flags (vmmMapPages v root va pa count flags).2) ∧
    ((vmmUnmapPages v root va count).1 = 0 → UnmapExact v root va count (vmmUnmapPages v root va count).2) := by
  have hspan : count * pageSize < 2 ^ 64 := by simp only [pageSize]; omega
  have hkernel : pagingRangeIsKernel va (wrap64 (count * pageSize)) = false := by
    rw [wrap64_of_lt hspan, Bool.eq_false_iff, ne_eq, pagingRangeIsKernel_iff hva hspan]
    have := (pagingRangeIsUser_iff hva hspan).mp huser
    simp only [pagingUserVaMax, pagingKernelVaMin] at this ⊢
    omega
  refine ⟨fun pa flags hphys hret => ?_, fun hret => ?_⟩
  · obtain ⟨hstep, hdone⟩ := vmmMapPages_spec hva hcount hkernel hinv htree pa flags
    obtain ⟨hrange, haligned, hwritten⟩ := hdone hret
    refine ⟨fun i hi => ?_, fun page hpage hout hapart => hwritten.others hinv htree hstep hpage hout hapart, hstep.tree⟩
    have hle : (i + 1) * 4096 ≤ count * 4096 := Nat.mul_le_mul_right _ hi
    simp only [pageSize] at hphys hspan
    clear hret
    have hpa : pageAt pa i = pa + i * 4096 := pageAt_of_lt (by omega)
    have hentry := hwritten.inside i (by omega) (by omega)
    simp only [hpa] at hentry
    rw [pageSize, vmmQueryPage_user hstep.inv hstep.tree (hrange.userPage hi), ← pageEntry, hentry,
      decodePte_newEntry (by omega) (by omega)]
  · obtain ⟨hstep, hdone⟩ := vmmUnmapPages_spec hva hcount hkernel hinv htree
    obtain ⟨hrange, hbefore, hwritten⟩ := hdone hret
    refine ⟨hbefore, fun i hi => ?_, fun page hpage hout hapart => hwritten.others hinv htree hstep hpage hout hapart, hstep.tree⟩
    have hentry := hwritten.inside i (by omega) (by omega)
    rw [pageSize, vmmQueryPage_user hstep.inv hstep.tree (hrange.userPage hi), ← pageEntry, hentry]
    decide

/-! ### A kernel half that shares the user half's tables -/

/-- An address space whose top-level entry 256 points to the same table as its entry 0: the path `[0, 0, 0]` of the user half leads to an empty page table, and so does `[256, 0, 0]`. -/
def aliasedSpace : Vmm where
  pmm := { bitmap := fun _ => 0#8, totalFrames := pmmFrameCount, firstUsable := 0, freeFrames := 0 }
  tables table i :=
    if table = 0x1000 ∧ (i = 0 ∨ i = 256) then 0x2007#64
    else if table = 0x2000 ∧ i = 0 then 0x3007#64
    else if table = 0x3000 ∧ i = 0 then 0x4007#64
    else 0#64
  currentPml4 := 0

theorem aliasedSpace_inv : aliasedSpace.pmm.Inv := by
  have hzero : ∀ frame, bitmapGet aliasedSpace.pmm.bitmap frame = false := by
    intro frame
    simp [aliasedSpace, bitmapGet]
  refine ⟨rfl, Nat.zero_le _, fun frame _ => hzero frame, hzero 0, ?_⟩
  exact (List.countP_eq_zero.mpr fun frame _ => by simp [hzero]).symm

theorem aliasedSpace_below {table i next : Nat} (h : tableBelow (aliasedSpace.tables table i) = some next) :
    (table = 0x1000 ∧ (i = 0 ∨ i = 256) ∧ next = 0x2000) ∨ (table = 0x2000 ∧ i = 0 ∧ next = 0x3000) ∨
      (table = 0x3000 ∧ i = 0 ∧ next = 0x4000) := by
  simp only [aliasedSpace] at h
  split_ifs at h with h₁ h₂ h₃
  · exact Or.inl ⟨h₁.1, h₁.2, Option.some.inj h.symm⟩
  · exact Or.inr (Or.inl ⟨h₂.1, h₂.2, Option.some.inj h.symm⟩)
  · exact Or.inr (Or.inr ⟨h₃.1, h₃.2, Option.some.inj h.symm⟩)
  · simp [tableBelow] at h

/-- The user half has one table on each level. -/
theorem aliasedSpace_tableAt {p : List Nat} (hp : p ∈ UserPath) {table : Nat} (h : aliasedSpace.tableAt 0x1000 p = some table) :
    (p = [] ∧ table = 0x1000) ∨ (p = [0] ∧ table = 0x2000) ∨ (p = [0, 0] ∧ table = 0x3000) ∨
      (p = [0, 0, 0] ∧ table = 0x4000) := by
  obtain ⟨hlen, hhead, -⟩ := hp
  rcases p with _ | ⟨i, p⟩
  · exact Or.inl ⟨rfl, (Option.some.inj h).symm⟩
  obtain ⟨pdpt, hpdpt, h⟩ := Option.bind_eq_some_iff.mp h
  have hi : i < 256 := hhead i rfl
  obtain ⟨rfl, rfl⟩ : i = 0 ∧ pdpt = 0x2000 := by
    have := aliasedSpace_below hpdpt
    omega
  rcases p with _ | ⟨i, p⟩
  · exact Or.inr (Or.inl ⟨rfl, (Option.some.inj h).symm⟩)
  obtain ⟨pd, hpd, h⟩ := Option.bind_eq_some_iff.mp h
  obtain ⟨rfl, rfl⟩ : i = 0 ∧ pd = 0x3000 := by
    have := aliasedSpace_below hpd
    omega
  rcases p with _ | ⟨i, p⟩
  · exact Or.inr (Or.inr (Or.inl ⟨rfl, (Option.some.inj h).symm⟩))
  obtain ⟨pt, hpt, h⟩ := Option.bind_eq_some_iff.mp h
  obtain ⟨rfl, rfl⟩ : i = 0 ∧ pt = 0x4000 := by
    have := aliasedSpace_below hpt
    omega
  rcases p with _ | ⟨i, p⟩
  · exact Or.inr (Or.inr (Or.inr ⟨rfl, (Option.some.inj h).symm⟩))
  · simp only [List.length_cons] at hlen
    omega

theorem aliasedSpace_userTree : aliasedSpace.UserTree 0x1000 := by
  have htaken : ∀ table, table = 0x1000 ∨ table = 0x2000 ∨ table = 0x3000 ∨ table = 0x4000 → aliasedSpace.TakenFrame table := by
    intro table h
    rcases h with rfl | rfl | rfl | rfl <;> exact ⟨by decide, by decide, by decide, by decide⟩
  refine ⟨fun p hp q hq node hnode hnode' => ?_, fun p hp table htable => ?_, fun p i hpi table htable hpresent => ?_⟩
  · rcases aliasedSpace_tableAt hp hnode with ⟨rfl, rfl⟩ | ⟨rfl, rfl⟩ | ⟨rfl, rfl⟩ | ⟨rfl, rfl⟩ <;>
      rcases aliasedSpace_tableAt hq hnode' with ⟨rfl, h⟩ | ⟨rfl, h⟩ | ⟨rfl, h⟩ | ⟨rfl, h⟩ <;> first | rfl | (exact absurd h (by decide))
  · rcases aliasedSpace_tableAt hp htable with ⟨-, h⟩ | ⟨-, h⟩ | ⟨-, h⟩ | ⟨-, h⟩ <;> exact htaken table (by tauto)
  · simp only [aliasedSpace] at hpresent ⊢
    split_ifs at hpresent ⊢ <;> first | decide | (exact absurd rfl hpresent)

/-- On that space a successful `vmm_map_pages` of one user page also maps a page of the kernel half. -/
theorem vmm_map_changes_aliased_kernel_page :
    ¬ ∀ (v : Vmm) (root va pa count : Nat) (flags : BitVec 64), v.pmm.Inv → v.UserTree root → va < 2 ^ 64 → count < 2 ^ 52 →
      pagingRangeIsUser va (count * pageSize) = true → pa + count * pageSize ≤ 2 ^ 52 →
      (vmmMapPages v root va pa count flags).1 = 0 → ∀ page < 2 ^ 64, ¬ InRange va count page →
        vmmQueryPage (vmmMapPages v root va pa count flags).2 root page = vmmQueryPage v root page := by
  intro hclaim
  have h := hclaim aliasedSpace 0x1000 0x100000 0x200000 1 (pagingMapRead ||| pagingMapUser) aliasedSpace_inv
    aliasedSpace_userTree (by decide) (by decide) (by decide) (by decide) (by decide) 0xFFFF800000100000 (by decide)
    (by rintro ⟨i, hi, heq⟩; simp only [pageSize] at heq; omega)
  exact absurd h (by decide)

/-- That space after its user page at 1 MiB has been mapped to the frame at 2 MiB. -/
def aliasedSpaceMapped : Vmm := (vmmMapPages aliasedSpace 0x1000 0x100000 0x200000 1 (pagingMapRead ||| pagingMapUser)).2

theorem vmm_map_unmap_exact_aliasedSpace :
    MapExact aliasedSpace 0x1000 0x100000 0x200000 1 (pagingMapRead ||| pagingMapUser) aliasedSpaceMapped ∧
      UnmapExact aliasedSpaceMapped 0x1000 0x100000 1 (vmmUnmapPages aliasedSpaceMapped 0x1000 0x100000 1).2 :=
  have hmap := (vmm_map_unmap_exact aliasedSpace 0x1000 0x100000 1 aliasedSpace_inv aliasedSpace_userTree (by decide)
    (by decide) (by decide)).1 0x200000 (pagingMapRead ||| pagingMapUser) (by decide) (by decide)
  ⟨hmap, (vmm_map_unmap_exact aliasedSpaceMapped 0x1000 0x100000 1 aliasedSpace_inv hmap.tree (by decide) (by decide)
    (by decide)).2 (by decide)⟩

end Tsukasa
