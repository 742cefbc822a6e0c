import Tsukasa.Mm.Pmm
import Tsukasa.Mm.Paging
import Tsukasa.Lib.Radix

/-!
# The virtual memory manager

`mm/vmm_x64.c`: four-level page tables in physical frames, walked and extended through the kernel's direct map. A table is named by its physical address, so `tables` is the part of physical memory that holds page tables, and the direct-map offset does not appear. The TLB is not modelled: `tlb_flush_range` touches no table.
-/

namespace Tsukasa

structure Vmm where
  pmm : Pmm
  tables : Nat → Nat → BitVec 64
  /-- `read_cr3() & VMM_X64_ADDR_MASK`. -/
  currentPml4 : Nat

/-- The table an address or an entry refers to: its address bits. -/
def tableVirt (phys : BitVec 64) : Nat := (phys &&& vmmAddrMask).toNat

def Vmm.setEntry (v : Vmm) (table idx : Nat) (entry : BitVec 64) : Vmm :=
  { v with tables := Lib.Radix.write v.tables table idx entry }

def allocTablePhys (v : Vmm) : Nat × Vmm :=
  let (phys, pmm) := pmmAllocPages v.pmm 1
  if phys = 0 then (0, { v with pmm := pmm })
  else (phys, { v with pmm := pmm, tables := Function.update v.tables (tableVirt (BitVec.ofNat 64 phys)) fun _ => 0#64 })

/-- `validate_span`; `physAddr` is `none` for the callers that pass `has_phys = 0`. -/
def validateSpan (virtAddr : Nat) (physAddr : Option Nat) (pageCount : Nat) : Bool :=
  if pageCount = 0 then false
  else if !pagingIsPageAligned virtAddr then false
  else if !(physAddr.all pagingIsPageAligned) then false
  else
    let span := wrap64 (pageCount * pageSize)
    if span = 0 then false
    else pagingRangeIsUser virtAddr span || pagingRangeIsKernel virtAddr span

def validateMapRequest (virtAddr physAddr pageCount : Nat) (mapFlags : BitVec 64) : Bool :=
  if mapFlags &&& pagingMapRead = 0 then false
  else if !validateSpan virtAddr (some physAddr) pageCount then false
  else
    let isUser := pagingRangeIsUser virtAddr (wrap64 (pageCount * pageSize))
    if isUser && decide (mapFlags &&& pagingMapUser = 0) then false
    else if !isUser && decide (mapFlags &&& pagingMapUser ≠ 0) then false
    else true

/-! ### The walk -/

def pml4Idx (virtAddr : Nat) : Nat := virtAddr >>> 39 &&& 0x1FF
def pdptIdx (virtAddr : Nat) : Nat := virtAddr >>> 30 &&& 0x1FF
def pdIdx (virtAddr : Nat) : Nat := virtAddr >>> 21 &&& 0x1FF
def ptIdx (virtAddr : Nat) : Nat := virtAddr >>> 12 &&& 0x1FF

def tableFlags (user : Bool) : BitVec 64 :=
  let flags := ptePresent ||| pteWritable
  if user then flags ||| pteUser else flags

/-- One level of `walk_to_pt`, which the source writes out three times: the table below entry `idx`, created when it is missing and the caller wants it. -/
def walkLevel (v : Vmm) (table idx : Nat) (create user : Bool) : Option Nat × Vmm :=
  let entry := v.tables table idx
  if entry &&& ptePresent = 0 then
    if create then
      let (phys, v) := allocTablePhys v
      if phys = 0 then (none, v)
      else
        let entry := BitVec.ofNat 64 phys ||| tableFlags user
        (some (tableVirt entry), v.setEntry table idx entry)
    else (none, v)
  else if user && decide (entry &&& pteUser = 0) then (none, v)
  else (some (tableVirt entry), v)

def walkToPt (v : Vmm) (pml4Phys virtAddr : Nat) (create user : Bool) : Option Nat × Vmm :=
  if pml4Phys = 0 then (none, v)
  else
    match walkLevel v (tableVirt (BitVec.ofNat 64 pml4Phys)) (pml4Idx virtAddr) create user with
    | (none, v) => (none, v)
    | (some pdpt, v) =>
        match walkLevel v pdpt (pdptIdx virtAddr) create user with
        | (none, v) => (none, v)
        | (some pd, v) => walkLevel v pd (pdIdx virtAddr) create user

/-- `vmm_query_page`: the physical address and the flag bits of a mapped page. -/
def vmmQueryPage (v : Vmm) (pml4Phys virtAddr : Nat) : Option (BitVec 64 × BitVec 64) :=
  if pml4Phys = 0 ∨ pagingIsPageAligned virtAddr = false then none
  else if !pagingRangeIsUser virtAddr pageSize && !pagingRangeIsKernel virtAddr pageSize then none
  else
    match (walkToPt v pml4Phys virtAddr false (pagingRangeIsUser virtAddr pageSize)).1 with
    | none => none
    | some pt =>
        let entry := v.tables pt (ptIdx virtAddr)
        if entry &&& ptePresent = 0 then none else some (entry &&& vmmAddrMask, entry &&& ~~~vmmAddrMask)

/-! ### Unmapping, mapping and protecting -/

/-- The `i`-th page of a range, as the loops compute it. -/
def pageAt (virtAddr i : Nat) : Nat := wrap64 (virtAddr + wrap64 (i * pageSize))

/-- The first loop of `vmm_unmap_pages`: are the `remaining` pages from the `i`-th on all mapped? -/
def queryLoop (v : Vmm) (pml4Phys virtAddr : Nat) : Nat → Nat → Bool
  | 0, _ => true
  | remaining + 1, i =>
      if (vmmQueryPage v pml4Phys (pageAt virtAddr i)).isNone then false
      else queryLoop v pml4Phys virtAddr remaining (i + 1)

/-- The second loop of `vmm_unmap_pages`. -/
def unmapLoop (pml4Phys virtAddr : Nat) (user : Bool) : Nat → Nat → Vmm → Int × Vmm
  | 0, _, v => (0, v)
  | remaining + 1, i, v =>
      match walkToPt v pml4Phys (pageAt virtAddr i) false user with
      | (none, v) => (-1, v)
      | (some pt, v) => unmapLoop pml4Phys virtAddr user remaining (i + 1) (v.setEntry pt (ptIdx (pageAt virtAddr i)) 0#64)

def vmmUnmapPages (v : Vmm) (pml4Phys virtAddr pageCount : Nat) : Int × Vmm :=
  if pml4Phys = 0 then (-1, v)
  else if !validateSpan virtAddr none pageCount then (-1, v)
  else if !queryLoop v pml4Phys virtAddr pageCount 0 then (-1, v)
  else unmapLoop pml4Phys virtAddr (pagingRangeIsUser virtAddr (wrap64 (pageCount * pageSize))) pageCount 0 v

/-- The loop of `vmm_map_pages`. A failure at page `i` unmaps the pages before it, ignoring the result. -/
def mapLoop (pml4Phys virtAddr physAddr : Nat) (pteFlags : BitVec 64) (user : Bool) : Nat → Nat → Vmm → Int × Vmm
  | 0, _, v => (0, v)
  | remaining + 1, i, v =>
      match walkToPt v pml4Phys (pageAt virtAddr i) true user with
      | (none, v) => (-1, if 0 < i then (vmmUnmapPages v pml4Phys virtAddr i).2 else v)
      | (some pt, v) =>
          if v.tables pt (ptIdx (pageAt virtAddr i)) &&& ptePresent ≠ 0 then
            (-1, if 0 < i then (vmmUnmapPages v pml4Phys virtAddr i).2 else v)
          else
            mapLoop pml4Phys virtAddr physAddr pteFlags user remaining (i + 1)
              (v.setEntry pt (ptIdx (pageAt virtAddr i))
                (BitVec.ofNat 64 (pageAt physAddr i) &&& vmmAddrMask ||| pteFlags ||| ptePresent))

def vmmMapPages (v : Vmm) (pml4Phys virtAddr physAddr pageCount : Nat) (mapFlags : BitVec 64) : Int × Vmm :=
  if pml4Phys = 0 then (-1, v)
  else if !validateMapRequest virtAddr physAddr pageCount mapFlags then (-1, v)
  else mapLoop pml4Phys virtAddr physAddr (pteFlagsFromMap mapFlags) (decide (mapFlags &&& pagingMapUser ≠ 0)) pageCount 0 v

/-- The loop of `vmm_protect_pages`, which has no rollback. -/
def protectLoop (pml4Phys virtAddr : Nat) (pteFlags : BitVec 64) (user : Bool) : Nat → Nat → Vmm → Int × Vmm
  | 0, _, v => (0, v)
  | remaining + 1, i, v =>
      match walkToPt v pml4Phys (pageAt virtAddr i) false user with
      | (none, v) => (-1, v)
      | (some pt, v) =>
          let entry := v.tables pt (ptIdx (pageAt virtAddr i))
          if entry &&& ptePresent = 0 then (-1, v)
          else
            protectLoop pml4Phys virtAddr pteFlags user remaining (i + 1)
              (v.setEntry pt (ptIdx (pageAt virtAddr i)) (entry &&& vmmAddrMask ||| pteFlags ||| ptePresent))

def vmmProtectPages (v : Vmm) (pml4Phys virtAddr pageCount : Nat) (mapFlags : BitVec 64) : Int × Vmm :=
  if pml4Phys = 0 then (-1, v)
  else if mapFlags &&& pagingMapRead = 0 then (-1, v)
  else if !validateSpan virtAddr none pageCount then (-1, v)
  else
    let user := decide (mapFlags &&& pagingMapUser ≠ 0)
    let span := wrap64 (pageCount * pageSize)
    if user && !pagingRangeIsUser virtAddr span then (-1, v)
    else if !user && !pagingRangeIsKernel virtAddr span then (-1, v)
    else protectLoop pml4Phys virtAddr (pteFlagsFromMap mapFlags) user pageCount 0 v

/-! ### Device memory -/

/-- `vmm_phys_to_virt`, with `g_hhdm_offset` as an argument. -/
def vmmPhysToVirt (hhdmOffset physAddr : Nat) : Nat :=
  if hhdmOffset ≠ 0 then wrap64 (physAddr + hhdmOffset) else physAddr

/-- The loop of `vmm_map_io_region`: a page that is mapped already must be mapped to the same frame. -/
def ioLoop (pml4Phys virtPage physPage : Nat) : Nat → Nat → Vmm → Int × Vmm
  | 0, _, v => (0, v)
  | remaining + 1, i, v =>
      match vmmQueryPage v pml4Phys (pageAt virtPage i) with
      | some (existing, _) =>
          if existing &&& vmmAddrMask ≠ BitVec.ofNat 64 (pageAt physPage i) &&& vmmAddrMask then (-1, v)
          else ioLoop pml4Phys virtPage physPage remaining (i + 1) v
      | none =>
          let (ret, v) := vmmMapPages v pml4Phys (pageAt virtPage i) (pageAt physPage i) 1
            (pagingMapRead ||| pagingMapWrite ||| pagingMapGlobal ||| pagingMapDevice)
          if ret ≠ 0 then (-1, v) else ioLoop pml4Phys virtPage physPage remaining (i + 1) v

/-- The page of the direct map where the region begins. -/
def ioVirtPage (hhdmOffset physBase : Nat) : Nat := vmmPhysToVirt hhdmOffset (physBase / pageSize * pageSize)

/-- The number of pages the region touches. -/
def ioPageCount (physBase size : Nat) : Nat :=
  wrap64 ((wrap64 (physBase + size - 1) - physBase / pageSize * pageSize) / pageSize + 1)

/-- `vmm_map_io_region`: the virtual address of the region, or `none` on failure. -/
def vmmMapIoRegion (hhdmOffset : Nat) (v : Vmm) (physBase size : Nat) : Option Nat × Vmm :=
  if size = 0 then (none, v)
  else if wrap64 (physBase + size - 1) < physBase then (none, v)
  else
    let physPage := physBase / pageSize * pageSize
    let pageOffset := physBase - physPage
    let pageCount := ioPageCount physBase size
    let virtPage := ioVirtPage hhdmOffset physBase
    if v.currentPml4 = 0 ∨ pageCount = 0 then (none, v)
    else if !pagingRangeIsKernel virtPage (wrap64 (pageCount * pageSize)) then (none, v)
    else
      let (ret, v) := ioLoop v.currentPml4 virtPage physPage pageCount 0 v
      if ret ≠ 0 then (none, v) else (some (wrap64 (virtPage + pageOffset)), v)

/-! ### Address spaces -/

/-- Copying the kernel half of one top-level table into another. -/
def copyKernelHalf (v : Vmm) (dst src : Nat) : Vmm :=
  (List.range' 256 256).foldl (fun v i => v.setEntry dst i (v.tables src i)) v

/-- `vmm_create_address_space`: the new top-level table, or `none` on failure. -/
def vmmCreateAddressSpace (v : Vmm) : Option Nat × Vmm :=
  let (phys, v) := allocTablePhys v
  if phys = 0 then (none, v)
  else if v.currentPml4 = 0 then (none, { v with pmm := pmmFreePages v.pmm phys 1 })
  else (some phys, copyKernelHalf v (tableVirt (BitVec.ofNat 64 phys)) (tableVirt (BitVec.ofNat 64 v.currentPml4)))

def vmmCloneAddressSpace (v : Vmm) (srcPml4Phys : Nat) : Option Nat × Vmm :=
  if srcPml4Phys = 0 then (none, v)
  else
    let (phys, v) := allocTablePhys v
    if phys = 0 then (none, v)
    else (some phys, copyKernelHalf v (tableVirt (BitVec.ofNat 64 phys)) (tableVirt (BitVec.ofNat 64 srcPml4Phys)))

/-- The innermost loop of `vmm_destroy_address_space`: the page tables below one page directory. -/
def destroyPd (tables : Nat → Nat → BitVec 64) (pd : Nat) (pmm : Pmm) : Pmm :=
  (List.range 512).foldl (fun pmm i =>
    let entry := tables pd i
    if entry &&& ptePresent = 0 then pmm
    else if entry &&& ptePageSize ≠ 0 then pmm
    else if tableVirt entry = 0 then pmm
    else pmmFreePages pmm (tableVirt entry) 1) pmm

/-- The middle loop: the page directories below one page-directory-pointer table. -/
def destroyPdpt (tables : Nat → Nat → BitVec 64) (pdpt : Nat) (pmm : Pmm) : Pmm :=
  (List.range 512).foldl (fun pmm i =>
    let entry := tables pdpt i
    if entry &&& ptePresent = 0 then pmm
    else pmmFreePages (destroyPd tables (tableVirt entry) pmm) (tableVirt entry) 1) pmm

/-- The outer loop: the user half of the top-level table. -/
def destroyPml4 (tables : Nat → Nat → BitVec 64) (pml4 : Nat) (pmm : Pmm) : Pmm :=
  (List.range 256).foldl (fun pmm i =>
    let entry := tables pml4 i
    if entry &&& ptePresent = 0 then pmm
    else pmmFreePages (destroyPdpt tables (tableVirt entry) pmm) (tableVirt entry) 1) pmm

def vmmDestroyAddressSpace (v : Vmm) (pml4Phys : Nat) : Int × Vmm :=
  if pml4Phys = 0 ∨ pagingIsPageAligned pml4Phys = false then (-1, v)
  else if tableVirt (BitVec.ofNat 64 pml4Phys) = v.currentPml4 then (-1, v)
  else
    let pmm := destroyPml4 v.tables (tableVirt (BitVec.ofNat 64 pml4Phys)) v.pmm
    (0, { v with pmm := pmmFreePages pmm pml4Phys 1 })

def vmmSwitchPml4 (v : Vmm) (pml4Phys : Nat) : Vmm :=
  if pml4Phys = 0 ∨ pagingIsPageAligned pml4Phys = false then v
  else { v with currentPml4 := tableVirt (BitVec.ofNat 64 pml4Phys) }

end Tsukasa
