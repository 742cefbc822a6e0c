import Tsukasa.Mm.Vmm

/-!
# Address spaces of processes

`mm/vm_space.c`: what a process knows about its address space, and the checks in front of the page-table code. The byte span of a request is a product in 64 bits. It is tested after it has been formed, in `validate_span` and in each call here, so all the tests see the wrapped value.
-/

namespace Tsukasa

def vmSpaceShmBase : Nat := 0x40000000
def vmSpaceShmLimit : Nat := 0x80000000

structure VmSpace where
  pml4Phys : Nat
  userMin : Nat
  userMax : Nat
  shmCursor : Nat
  mappedPages : Nat
  shmPages : Nat
  ownsPml4 : Bool
deriving DecidableEq

def alignUpPage (v : Nat) : Nat := wrap64 (v + 4095) / 4096 * 4096

/-- `vm_space_reserve_shm_range`: the address, or 0, and the cursor after it. -/
def vmSpaceReserveShmRange (cursor pageCount : Nat) : Nat × Nat :=
  if pageCount = 0 then (0, cursor)
  else
    let span := wrap64 (pageCount * 4096)
    if span = 0 then (0, cursor)
    else
      let base := alignUpPage cursor
      let next := wrap64 (base + span)
      if next < base then (0, cursor)
      else if base < vmSpaceShmBase ∨ vmSpaceShmLimit < next then (0, cursor)
      else (base, next)

namespace VmSpace

/-- The space of a process with a top-level table of its own. -/
def owned (pml4Phys userMin userMax : Nat) : VmSpace := ⟨pml4Phys, userMin, userMax, vmSpaceShmBase, 0, 0, true⟩

def initKernel (v : Vmm) : Option VmSpace :=
  if v.currentPml4 = 0 then none else some { owned v.currentPml4 pagingUserVaMin pagingUserVaMax with ownsPml4 := false }

def create (v : Vmm) : Option VmSpace × Vmm :=
  match vmmCreateAddressSpace v with
  | (none, v) => (none, v)
  | (some pml4Phys, v) => (some (owned pml4Phys pagingUserVaMin pagingUserVaMax), v)

def clone (src : Option VmSpace) (v : Vmm) : Option VmSpace × Vmm :=
  match src with
  | none => create v
  | some src =>
      if src.pml4Phys = 0 then create v
      else
        match vmmCloneAddressSpace v src.pml4Phys with
        | (none, v) => (none, v)
        | (some pml4Phys, v) => (some (owned pml4Phys src.userMin src.userMax), v)

def destroy (space : VmSpace) (v : Vmm) : VmSpace × Vmm :=
  ({ space with pml4Phys := 0, mappedPages := 0, shmPages := 0, shmCursor := vmSpaceShmBase, ownsPml4 := false },
    if space.ownsPml4 = true ∧ space.pml4Phys ≠ 0 then (vmmDestroyAddressSpace v space.pml4Phys).2 else v)

def containsUserRange (space : VmSpace) (base size : Nat) : Bool :=
  if size = 0 then false
  else if !pagingIsPageAligned base then false
  else if size &&& (pageSize - 1) ≠ 0 then false
  else if !pagingRangeIsUser base size then false
  else decide (space.userMin ≤ base) && decide (wrap64 (base + size - 1) ≤ space.userMax)

def reserveShmRange (space : VmSpace) (pageCount : Nat) : Nat × VmSpace :=
  let r := vmSpaceReserveShmRange space.shmCursor pageCount
  (r.1, { space with shmCursor := r.2 })

/-- The checks of `vm_space_map_user_pages`. -/
def mapAccepts (space : VmSpace) (virtAddr physAddr pageCount : Nat) (mapFlags : BitVec 64) : Bool :=
  if pageCount = 0 then false
  else if mapFlags &&& pagingMapUser = 0 then false
  else if !space.containsUserRange virtAddr (wrap64 (pageCount * pageSize)) then false
  else pagingIsPageAligned physAddr

def mapUserPages (space : VmSpace) (v : Vmm) (virtAddr physAddr pageCount : Nat) (mapFlags : BitVec 64) : Int × VmSpace × Vmm :=
  if !space.mapAccepts virtAddr physAddr pageCount mapFlags then (-1, space, v)
  else
    let (ret, v) := vmmMapPages v space.pml4Phys virtAddr physAddr pageCount mapFlags
    if ret ≠ 0 then (-1, space, v) else (0, { space with mappedPages := wrap32 (space.mappedPages + pageCount) }, v)

/-- The checks of `vm_space_unmap_user_pages`. -/
def unmapAccepts (space : VmSpace) (virtAddr pageCount : Nat) : Bool :=
  if pageCount = 0 then false else space.containsUserRange virtAddr (wrap64 (pageCount * pageSize))

def unmapUserPages (space : VmSpace) (v : Vmm) (virtAddr pageCount : Nat) : Int × VmSpace × Vmm :=
  if !space.unmapAccepts virtAddr pageCount then (-1, space, v)
  else
    let (ret, v) := vmmUnmapPages v space.pml4Phys virtAddr pageCount
    if ret ≠ 0 then (-1, space, v)
    else
      let mapped := if pageCount < space.mappedPages then wrap32 (space.mappedPages + 2 ^ 32 - wrap32 pageCount) else 0
      (0, { space with mappedPages := mapped }, v)

/-- The checks of `vm_space_protect_user_pages`. -/
def protectAccepts (space : VmSpace) (virtAddr pageCount : Nat) (mapFlags : BitVec 64) : Bool :=
  if pageCount = 0 then false
  else if mapFlags &&& pagingMapUser = 0 then false
  else space.containsUserRange virtAddr (wrap64 (pageCount * pageSize))

def protectUserPages (space : VmSpace) (v : Vmm) (virtAddr pageCount : Nat) (mapFlags : BitVec 64) : Int × Vmm :=
  if !space.protectAccepts virtAddr pageCount mapFlags then (-1, v) else vmmProtectPages v space.pml4Phys virtAddr pageCount mapFlags

def noteShmAttach (space : VmSpace) (pageCount : Nat) : VmSpace :=
  if pageCount = 0 then space else { space with shmPages := wrap32 (space.shmPages + pageCount) }

def noteShmDetach (space : VmSpace) (pageCount : Nat) : VmSpace :=
  if pageCount = 0 then space
  else { space with shmPages := if pageCount < space.shmPages then wrap32 (space.shmPages + 2 ^ 32 - wrap32 pageCount) else 0 }

end VmSpace

/-! ### Ranges as they are meant -/

/-- Every byte of the pages lies in the window. -/
def InsideWindow (lo hi va count : Nat) : Prop := ∀ y, va ≤ y → y < va + count * pageSize → lo ≤ y ∧ y ≤ hi

/-- The range lies in the user window or in the kernel window. -/
def InsideHalf (va count : Nat) : Prop :=
  InsideWindow pagingUserVaMin pagingUserVaMax va count ∨ InsideWindow pagingKernelVaMin pagingKernelVaMax va count

/-- One of the three calls takes the range for a proper one. -/
def SpanAccepted (space : VmSpace) (va pa count : Nat) (flags : BitVec 64) : Prop :=
  validateSpan va none count = true ∨ validateSpan va (some pa) count = true ∨ space.mapAccepts va pa count flags = true ∨
    space.unmapAccepts va count = true

/-- The span of the pages does not wrap, or what is left of it is refused. -/
def SpanFits (va count : Nat) : Prop :=
  count < 2 ^ 52 ∨ va % pageSize ≠ 0 ∨ count % 2 ^ 52 = 0 ∨ ¬InsideHalf va (count % 2 ^ 52)

variable {va count : Nat} {space : VmSpace}

theorem insideWindow_iff {lo hi : Nat} (hcount : 0 < count) : InsideWindow lo hi va count ↔ lo ≤ va ∧ va + count * pageSize ≤ hi + 1 := by
  have hpos : 0 < count * pageSize := Nat.mul_pos hcount (by decide)
  constructor
  · intro h
    have hlast := h (va + count * pageSize - 1) (by omega) (by omega)
    have hfirst := h va (Nat.le_refl va) (by omega)
    omega
  · intro h y hlo hhi
    omega

theorem wrap64_span (count : Nat) : wrap64 (count * pageSize) = count % 2 ^ 52 * pageSize := by
  rw [wrap64, pageSize]
  omega

theorem insideHalf_iff (hva : va < 2 ^ 64) (hcount : count ≠ 0) (hlt : count < 2 ^ 52) :
    InsideHalf va count ↔ (pagingRangeIsUser va (count * pageSize) || pagingRangeIsKernel va (count * pageSize)) = true := by
  have hspan : count * pageSize < 2 ^ 64 := by
    rw [pageSize]
    omega
  have hpos : 0 < count * pageSize := Nat.mul_pos (Nat.pos_of_ne_zero hcount) (by decide)
  rw [InsideHalf, insideWindow_iff (Nat.pos_of_ne_zero hcount), insideWindow_iff (Nat.pos_of_ne_zero hcount), Bool.or_eq_true,
    pagingRangeIsUser_iff hva hspan, pagingRangeIsKernel_iff hva hspan]
  simp only [hpos, true_and]

/-- What `validate_span` accepts: the range that is left when the span has wrapped. -/
theorem validateSpan_iff (hva : va < 2 ^ 64) :
    validateSpan va none count = true ↔ va % pageSize = 0 ∧ count % 2 ^ 52 ≠ 0 ∧ InsideHalf va (count % 2 ^ 52) := by
  have hlt : count % 2 ^ 52 < 2 ^ 52 := Nat.mod_lt _ (by decide)
  have hne : count % 2 ^ 52 ≠ 0 → count ≠ 0 := by omega
  rw [validateSpan, wrap64_span]
  generalize count % 2 ^ 52 = rest at *
  by_cases hzero : rest = 0
  · simp [hzero]
  · have hspan : rest * pageSize ≠ 0 := Nat.mul_ne_zero hzero (by decide)
    rw [insideHalf_iff hva hzero hlt]
    by_cases haligned : va % pageSize = 0
    · have haligned' : pagingIsPageAligned va = true := (pagingIsPageAligned_iff va).mpr haligned
      simp only [hne hzero, haligned', haligned, hspan, hzero, Option.all_none, if_false, Bool.not_true, Bool.false_eq_true, ne_eq,
        not_false_eq_true, true_and]
    · have hunaligned : pagingIsPageAligned va = false := by
        rw [Bool.eq_false_iff, ne_eq, pagingIsPageAligned_iff]
        exact haligned
      simp [hne hzero, hunaligned, haligned]

theorem containsUserRange_validates (hspan : space.containsUserRange va (wrap64 (count * pageSize)) = true) (hcount : count ≠ 0) :
    validateSpan va none count = true := by
  rw [VmSpace.containsUserRange] at hspan
  split_ifs at hspan with hzero haligned hmask huser
  simp only [Bool.not_eq_true', Bool.not_eq_false] at haligned huser
  simp [validateSpan, hcount, hzero, haligned, huser]

theorem spanAccepted_validates {pa : Nat} {flags : BitVec 64} (h : SpanAccepted space va pa count flags) : validateSpan va none count = true := by
  rcases h with hspan | hspan | hmap | hunmap
  · exact hspan
  · rw [validateSpan] at hspan ⊢
    split_ifs at hspan with hcount haligned hphys
    rw [if_neg hcount, if_neg haligned, if_neg (by simp)]
    exact hspan
  · rw [VmSpace.mapAccepts] at hmap
    split_ifs at hmap with hcount huser hcontains
    exact containsUserRange_validates (by simpa using hcontains) hcount
  · rw [VmSpace.unmapAccepts] at hunmap
    split_ifs at hunmap with hcount
    exact containsUserRange_validates hunmap hcount

/-- The range that is accepted lies in one half exactly when its span does not wrap into one that would be accepted. -/
theorem span_accepted_iff (space : VmSpace) (va pa count : Nat) (flags : BitVec 64) (hva : va < 2 ^ 64) :
    (SpanAccepted space va pa count flags → InsideHalf va count) ↔ SpanFits va count := by
  constructor
  · intro hinside
    by_contra hnot
    simp only [SpanFits, not_or, not_lt, not_not] at hnot
    obtain ⟨hlarge, haligned, hzero, hrest⟩ := hnot
    have hpos : 0 < count := by omega
    have hhalf := hinside (Or.inl ((validateSpan_iff hva).mpr ⟨haligned, hzero, hrest⟩))
    rw [InsideHalf, insideWindow_iff hpos, insideWindow_iff hpos, pageSize, pagingUserVaMax, pagingKernelVaMax] at hhalf
    omega
  · intro hfits haccepted
    obtain ⟨haligned, hzero, hrest⟩ := (validateSpan_iff hva).mp (spanAccepted_validates haccepted)
    rcases hfits with hlt | hunaligned | hmultiple | hout
    · rwa [Nat.mod_eq_of_lt hlt] at hrest
    · exact absurd haligned hunaligned
    · exact absurd hmultiple hzero
    · exact absurd hrest hout

theorem span_accepted_iff_page : InsideHalf 0x100000 1 :=
  (span_accepted_iff (VmSpace.owned 0x1000 pagingUserVaMin pagingUserVaMax) 0x100000 0x200000 1 (pagingMapRead ||| pagingMapUser) (by decide)).mpr
    (Or.inl (by decide)) (Or.inl (by decide))

/-- 2^52 + 1 pages are 4096 bytes in 64 bits, and all three calls accept them. -/
theorem wrapped_span_accepted :
    let space := VmSpace.owned 0x1000 pagingUserVaMin pagingUserVaMax
    validateSpan 0x100000 none (2 ^ 52 + 1) = true ∧
      space.mapAccepts 0x100000 0x200000 (2 ^ 52 + 1) (pagingMapRead ||| pagingMapUser) = true ∧
      space.unmapAccepts 0x100000 (2 ^ 52 + 1) = true ∧ ¬InsideHalf 0x100000 (2 ^ 52 + 1) := by
  refine ⟨by decide, by decide, by decide, ?_⟩
  rw [InsideHalf, insideWindow_iff (by decide), insideWindow_iff (by decide)]
  decide

end Tsukasa
