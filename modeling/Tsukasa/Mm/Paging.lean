import Tsukasa.Base.Word
import Mathlib.Data.BitVec

/-!
# Paging contracts

`include/paging.h` and the constants of `mm/vmm_x64.h`: the architecture-neutral map flags, the page-table entry bits, and the address windows of the two halves.
-/

namespace Tsukasa

def pagingMapRead : BitVec 64 := 0x01#64
def pagingMapWrite : BitVec 64 := 0x02#64
def pagingMapExec : BitVec 64 := 0x04#64
def pagingMapUser : BitVec 64 := 0x08#64
def pagingMapGlobal : BitVec 64 := 0x10#64
def pagingMapDevice : BitVec 64 := 0x20#64

def pagingUserVaMin : Nat := 0x0000000000100000
def pagingUserVaMax : Nat := 0x00007FFFFFFFF000
def pagingKernelVaMin : Nat := 0xFFFF800000000000
def pagingKernelVaMax : Nat := 0xFFFFFFFFFFFFF000

def ptePresent : BitVec 64 := 0x001#64
def pteWritable : BitVec 64 := 0x002#64
def pteUser : BitVec 64 := 0x004#64
def pteWriteThrough : BitVec 64 := 0x008#64
def pteCacheDisable : BitVec 64 := 0x010#64
def ptePageSize : BitVec 64 := 0x080#64
def pteGlobal : BitVec 64 := 0x100#64
def pteNoExec : BitVec 64 := 0x8000000000000000#64

/-- `VMM_X64_ADDR_MASK`. -/
def vmmAddrMask : BitVec 64 := 0x000FFFFFFFFFF000#64

def pagingIsPageAligned (addr : Nat) : Bool := addr &&& 4095 == 0

/-- The range lies in the window `[lo, hi]`: the common body of `paging_range_is_user` and `paging_range_is_kernel`. -/
def pagingRangeIn (lo hi addr size : Nat) : Bool :=
  if size = 0 then false
  else
    let stop := wrap64 (addr + size - 1)
    if stop < addr then false else decide (lo ≤ addr) && decide (stop ≤ hi)

def pagingRangeIsUser (addr size : Nat) : Bool := pagingRangeIn pagingUserVaMin pagingUserVaMax addr size

def pagingRangeIsKernel (addr size : Nat) : Bool := pagingRangeIn pagingKernelVaMin pagingKernelVaMax addr size

def pteFlagsFromMap (mapFlags : BitVec 64) : BitVec 64 :=
  let pte := 0#64
  let pte := if mapFlags &&& pagingMapWrite ≠ 0 then pte ||| pteWritable else pte
  let pte := if mapFlags &&& pagingMapUser ≠ 0 then pte ||| pteUser else pte
  let pte := if mapFlags &&& pagingMapGlobal ≠ 0 then pte ||| pteGlobal else pte
  let pte := if mapFlags &&& pagingMapDevice ≠ 0 then pte ||| (pteCacheDisable ||| pteWriteThrough) else pte
  if mapFlags &&& pagingMapExec = 0 then pte ||| pteNoExec else pte

def mapFlagsFromLegacy (legacyFlags : BitVec 64) : BitVec 64 :=
  let map := pagingMapRead
  let map := if legacyFlags &&& pteWritable ≠ 0 then map ||| pagingMapWrite else map
  let map := if legacyFlags &&& pteUser ≠ 0 then map ||| pagingMapUser else map
  let map := if legacyFlags &&& pteNoExec = 0 then map ||| pagingMapExec else map
  let map := if legacyFlags &&& pteGlobal ≠ 0 then map ||| pagingMapGlobal else map
  if legacyFlags &&& (pteCacheDisable ||| pteWriteThrough) ≠ 0 then map ||| pagingMapDevice else map

/-! ### Ranges -/

theorem pagingIsPageAligned_iff (addr : Nat) : pagingIsPageAligned addr = true ↔ addr % 4096 = 0 := by
  have h := Nat.and_two_pow_sub_one_eq_mod addr 12
  simp only [pagingIsPageAligned, beq_iff_eq]
  rw [show (4095 : Nat) = 2 ^ 12 - 1 by decide, h]

theorem pagingRangeIn_iff {lo hi addr size : Nat} (haddr : addr < 2 ^ 64) (hsize : size < 2 ^ 64) (hhi : hi < 2 ^ 64 - 1) :
    pagingRangeIn lo hi addr size = true ↔ 0 < size ∧ addr + size ≤ 2 ^ 64 ∧ lo ≤ addr ∧ addr + size ≤ hi + 1 := by
  rw [pagingRangeIn]
  by_cases hzero : size = 0
  · simp only [if_pos hzero, Bool.false_eq_true, false_iff]
    omega
  · rw [if_neg hzero]
    by_cases hwrap : wrap64 (addr + size - 1) < addr
    · simp only [if_pos hwrap, Bool.false_eq_true, false_iff]
      simp only [wrap64] at hwrap
      omega
    · simp only [if_neg hwrap, Bool.and_eq_true, decide_eq_true_eq]
      simp only [wrap64] at hwrap ⊢
      omega

theorem pagingRangeIsUser_iff {addr size : Nat} (haddr : addr < 2 ^ 64) (hsize : size < 2 ^ 64) :
    pagingRangeIsUser addr size = true ↔ 0 < size ∧ pagingUserVaMin ≤ addr ∧ addr + size ≤ pagingUserVaMax + 1 := by
  rw [pagingRangeIsUser, pagingRangeIn_iff haddr hsize (by decide)]
  simp only [pagingUserVaMin, pagingUserVaMax]
  omega

theorem pagingRangeIsKernel_iff {addr size : Nat} (haddr : addr < 2 ^ 64) (hsize : size < 2 ^ 64) :
    pagingRangeIsKernel addr size = true ↔ 0 < size ∧ pagingKernelVaMin ≤ addr ∧ addr + size ≤ pagingKernelVaMax + 1 := by
  rw [pagingRangeIsKernel, pagingRangeIn_iff haddr hsize (by decide)]
  simp only [pagingKernelVaMin, pagingKernelVaMax]
  omega

end Tsukasa
