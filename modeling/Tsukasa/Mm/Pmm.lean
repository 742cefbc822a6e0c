import Tsukasa.Base.Word
import Tsukasa.Lib.Bytes
import Mathlib.Data.List.Count
import Mathlib.Logic.Function.Basic
import Mathlib.Tactic.Common

/-!
# The physical memory manager

`mm/pmm.c`: one bit per 4 KiB frame, set when the frame is free, with a cached lower bound for the scan and a separate count of free frames. The boot memory map reaches `pmmInit` either as a Tsukasa boot-info block or as a Multiboot structure lying in memory.
-/

namespace Tsukasa

def pageSize : Nat := 4096

def pmmMaxMemMb : Nat := 65536

def pmmFrameCount : Nat := pmmMaxMemMb * 1024 * 1024 / pageSize

/-- The bytes of `pmm_bitmap`. -/
abbrev Bitmap := Nat → BitVec 8

structure Pmm where
  bitmap : Bitmap
  totalFrames : Nat
  firstUsable : Nat
  freeFrames : Nat

def addrToFrame (addr : Nat) : Nat := addr / pageSize

def frameToAddr (frame : Nat) : Nat := wrap64 (frame * pageSize)

def bitmapSet (b : Bitmap) (frame : Nat) (free : Bool) : Bitmap :=
  Function.update b (frame / 8)
    (if free then b (frame / 8) ||| (1#8 <<< (frame % 8)) else b (frame / 8) &&& ~~~(1#8 <<< (frame % 8)))

def bitmapGet (b : Bitmap) (frame : Nat) : Bool :=
  b (frame / 8) &&& (1#8 <<< (frame % 8)) != 0#8

/-- The frames `first .. last`, in the order `mark_region` visits them. -/
def markFrames (b : Bitmap) (free : Bool) (frames : List Nat) : Bitmap :=
  frames.foldl (fun b frame => bitmapSet b frame free) b

def markRegion (b : Bitmap) (start stop : Nat) (free : Bool) : Bitmap :=
  if stop ≤ start then b
  else
    let first := addrToFrame start
    let last := addrToFrame (stop - 1)
    if pmmFrameCount ≤ first then b
    else
      let last := if pmmFrameCount ≤ last then pmmFrameCount - 1 else last
      markFrames b free (List.range' first (last + 1 - first))

def refreshFirstUsable (s : Pmm) : Pmm :=
  let first := addrToFrame 0x100000
  let first := if s.totalFrames ≤ first then 0 else first
  { s with firstUsable := ((List.range' first (s.totalFrames - first)).find? (bitmapGet s.bitmap)).getD s.totalFrames }

/-- The number of set bits among the first `n` frames. -/
def freeCount (b : Bitmap) (n : Nat) : Nat := (List.range n).countP (bitmapGet b)

def recomputeFreeFrames (s : Pmm) : Pmm := { s with freeFrames := freeCount s.bitmap s.totalFrames }

/-! ### The boot memory map -/

structure MemmapEntry where
  base : Nat
  length : Nat
  type : Nat

structure BootModule where
  address : Nat
  size : Nat

/-- What `pmm_init` reads of `struct tsukasa_boot_info`. A null array is `none`. -/
structure TsukasaBootInfo where
  hhdmOffset : Nat
  memmapEntries : Option (List MemmapEntry)
  modules : Option (List BootModule)

/-- What `pmm_init` reads of `struct multiboot_info`, with the memory its addresses point into. -/
structure MultibootInfo where
  flags : Nat
  modsCount : Nat
  modsAddr : Nat
  mmapLength : Nat
  mmapAddr : Nat
  memory : Lib.Memory

/-- The opaque pointer handed to `pmm_init`: null, a block with the Tsukasa magic, or a Multiboot structure. -/
inductive BootInfo where
  | null
  | tsukasa (bi : TsukasaBootInfo)
  | multiboot (mb : MultibootInfo)

/-- The linker's `_kernel_start` and `_kernel_end`. -/
structure KernelImage where
  start : Nat
  stop : Nat

def tsukasaVaKernelBase : Nat := 0xFFFFFFFF80000000

def tsukasaBootMemUsable : Nat := 1

def multibootMemoryAvailable : Nat := 1

def bootAddrToPhys (bi : TsukasaBootInfo) (addr : Nat) : Nat :=
  if bi.hhdmOffset ≠ 0 ∧ bi.hhdmOffset ≤ addr then addr - bi.hhdmOffset
  else if tsukasaVaKernelBase ≤ addr then addr - tsukasaVaKernelBase
  else addr

/-- `x & ~(uint64_t)(PAGE_SIZE - 1)`. -/
def pageDown (x : Nat) : Nat := x - x % pageSize

/-- `(x + PAGE_SIZE - 1) & ~(uint64_t)(PAGE_SIZE - 1)` in 64 bits. -/
def pageUp (x : Nat) : Nat := pageDown (wrap64 (x + pageSize - 1))

def markUsableEntry (b : Bitmap) (ent : MemmapEntry) : Bitmap :=
  if ent.type = tsukasaBootMemUsable then markRegion b ent.base (wrap64 (ent.base + ent.length)) true else b

def reserveModule (bi : TsukasaBootInfo) (b : Bitmap) (m : BootModule) : Bitmap :=
  let mstart := bootAddrToPhys bi m.address
  let mend := wrap64 (mstart + m.size)
  markRegion b (pageDown mstart) (pageUp mend) false

/-- The walk over the Multiboot map. The map ends below `2 ^ 32` and each step moves at least 24 bytes, so the fuel never runs out. -/
def markMmapEntries (mem : Lib.Memory) (mmapEnd : Nat) : Nat → Nat → Bitmap → Bitmap
  | 0, _, b => b
  | fuel + 1, ptr, b =>
      if wrap64 (ptr + 24) ≤ mmapEnd then
        let size := mem.load ptr 4
        let base := mem.load (ptr + 4) 8
        let len := mem.load (ptr + 12) 8
        let type := mem.load (ptr + 20) 4
        let b := if type = multibootMemoryAvailable ∧ 0 < len then markRegion b base (wrap64 (base + len)) true else b
        markMmapEntries mem mmapEnd fuel (wrap64 (ptr + if 24 ≤ size then size else 24)) b
      else b

def reserveMultibootModule (mb : MultibootInfo) (b : Bitmap) (i : Nat) : Bitmap :=
  let mstart := mb.memory.load (mb.modsAddr + 16 * i) 4
  let mend := mb.memory.load (mb.modsAddr + 16 * i + 4) 4
  -- `mod_end + PAGE_SIZE - 1` is computed in 32 bits
  markRegion b (pageDown mstart) (pageDown (wrap32 (mend + pageSize - 1))) false

/-- The frame map of a Tsukasa boot-info block. -/
def tsukasaBitmap (kernel : KernelImage) (bi : TsukasaBootInfo) (entries : List MemmapEntry) (b : Bitmap) : Bitmap :=
  let b := entries.foldl markUsableEntry b
  let b := markRegion b 0 0x100000 false
  let b := markRegion b (bootAddrToPhys bi kernel.start) (pageUp (bootAddrToPhys bi kernel.stop)) false
  (bi.modules.getD []).foldl (reserveModule bi) b

/-- The frame map of a Multiboot structure. -/
def multibootBitmap (kernel : KernelImage) (mb : MultibootInfo) (b : Bitmap) : Bitmap :=
  let b := markMmapEntries mb.memory (wrap32 (mb.mmapAddr + mb.mmapLength)) (2 ^ 32) mb.mmapAddr b
  let b := markRegion b 0 0x100000 false
  let b := markRegion b kernel.start (pageUp kernel.stop) false
  if mb.flags &&& 0x8 ≠ 0 ∧ 0 < mb.modsCount then (List.range mb.modsCount).foldl (reserveMultibootModule mb) b else b

/-- `pmm_init`, with its return code. A failing call leaves the cleared map behind. -/
def pmmInit (kernel : KernelImage) (info : BootInfo) (s : Pmm) : Int × Pmm :=
  let s : Pmm :=
    { bitmap := markFrames s.bitmap false (List.range pmmFrameCount)
      totalFrames := pmmFrameCount
      firstUsable := pmmFrameCount
      freeFrames := s.freeFrames }
  match info with
  | .null => (-1, s)
  | .tsukasa bi =>
      match bi.memmapEntries with
      | none | some [] => (-1, s)
      | some entries => (0, recomputeFreeFrames (refreshFirstUsable { s with bitmap := tsukasaBitmap kernel bi entries s.bitmap }))
  | .multiboot mb =>
      if mb.flags &&& 0x40 = 0 ∨ mb.mmapAddr = 0 then (-1, s)
      else (0, recomputeFreeFrames (refreshFirstUsable { s with bitmap := multibootBitmap kernel mb s.bitmap }))

/-! ### Allocation -/

/-- The inner loop of `pmm_alloc_pages`: the first of the `remaining` offsets from `i` on whose frame is taken. -/
def firstTaken (b : Bitmap) (start : Nat) : Nat → Nat → Option Nat
  | 0, _ => none
  | remaining + 1, i => if bitmapGet b (start + i) then firstTaken b start remaining (i + 1) else some i

/-- The outer loop of `pmm_alloc_pages`, whose counter the inner loop moves past the taken frame it met. -/
def allocScan (s : Pmm) (count : Nat) : Nat → Nat → Option Nat
  | 0, _ => none
  | fuel + 1, start =>
      if wrap64 (start + count) ≤ s.totalFrames then
        match firstTaken s.bitmap start count 0 with
        | none => some start
        | some i => allocScan s count fuel (start + i + 1)
      else none

def pmmAllocPages (s : Pmm) (count : Nat) : Nat × Pmm :=
  if count = 0 then (0, s)
  else
    match allocScan s count (2 ^ 64) s.firstUsable with
    | none => (0, s)
    | some start =>
        (frameToAddr start,
          { s with
            bitmap := markFrames s.bitmap false (List.range' start count)
            freeFrames := if count ≤ s.freeFrames then s.freeFrames - count else 0 })

def pmmAlloc (s : Pmm) : Nat × Pmm := pmmAllocPages s 1

/-- The loop of `pmm_free_pages` over the `remaining` frames from `frame` on. -/
def freeLoop : Nat → Nat → Pmm → Pmm
  | 0, _, s => s
  | remaining + 1, frame, s =>
      if frame < s.totalFrames then
        freeLoop remaining (frame + 1)
          (if bitmapGet s.bitmap frame then s
            else { s with bitmap := bitmapSet s.bitmap frame true, freeFrames := s.freeFrames + 1 })
      else s

def pmmFreePages (s : Pmm) (phys count : Nat) : Pmm :=
  if phys = 0 ∨ count = 0 then s
  else if phys % pageSize ≠ 0 then s
  else
    let start := addrToFrame phys
    let s := freeLoop count start s
    if start < s.firstUsable then { s with firstUsable := start } else s

def pmmFree (s : Pmm) (phys : Nat) : Pmm := pmmFreePages s phys 1

end Tsukasa
