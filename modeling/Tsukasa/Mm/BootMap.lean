import Tsukasa.Mm.PmmRun

/-!
# The frame map after boot

`pmm_init` frees the frames that usable map entries touch and takes back the first megabyte, the kernel image and the modules. What it leaves free is stated exactly. A frame that is touched by a usable entry is freed whole, entries of other types are never looked at, the kernel image is translated through the direct map first, and the entries of a Multiboot map are taken to be `size` bytes apart where they are `size + 4` apart, so whether what is left free is sound depends on the map.
-/

namespace Tsukasa

/-! ### Ranges of bytes and frames -/

/-- The range `[start, stop)` has a byte in the frame. -/
def Touches (start stop frame : Nat) : Prop := ∃ byte, start ≤ byte ∧ byte < stop ∧ byte / pageSize = frame

/-- The entry at an address of a Multiboot map. -/
def mmapEntryAt (mem : Lib.Memory) (ptr : Nat) : MemmapEntry := ⟨mem.load (ptr + 4) 8, mem.load (ptr + 12) 8, mem.load (ptr + 20) 4⟩

/-- The entries `pmm_init` visits in a Multiboot map. -/
def walkedEntries (mem : Lib.Memory) (mmapEnd : Nat) : Nat → Nat → List MemmapEntry
  | 0, _ => []
  | fuel + 1, ptr =>
      if wrap64 (ptr + 24) ≤ mmapEnd then
        mmapEntryAt mem ptr :: walkedEntries mem mmapEnd fuel (wrap64 (ptr + if 24 ≤ mem.load ptr 4 then mem.load ptr 4 else 24))
      else []

/-- The map entries as the code reads them. -/
def BootInfo.visited : BootInfo → List MemmapEntry
  | .null => []
  | .tsukasa bi => bi.memmapEntries.getD []
  | .multiboot mb => walkedEntries mb.memory (wrap32 (mb.mmapAddr + mb.mmapLength)) (2 ^ 32) mb.mmapAddr

/-- The frame is touched by a usable entry. -/
def BootInfo.Freed (info : BootInfo) (frame : Nat) : Prop :=
  ∃ ent ∈ info.visited, ent.type = tsukasaBootMemUsable ∧ Touches ent.base (wrap64 (ent.base + ent.length)) frame

/-- The entries of a Multiboot map, each `size + 4` bytes after the one before. -/
def mmapEntries (mem : Lib.Memory) (mmapEnd : Nat) : Nat → Nat → List MemmapEntry
  | 0, _ => []
  | fuel + 1, ptr =>
      if ptr < mmapEnd then mmapEntryAt mem ptr :: mmapEntries mem mmapEnd fuel (ptr + mem.load ptr 4 + 4) else []

namespace BootInfo

/-- The memory map; a Multiboot map has at most one entry for every four of its bytes. -/
def entries : BootInfo → List MemmapEntry
  | .null => []
  | .tsukasa bi => bi.memmapEntries.getD []
  | .multiboot mb => mmapEntries mb.memory (mb.mmapAddr + mb.mmapLength) mb.mmapLength mb.mmapAddr

end BootInfo

open BootInfo

end Tsukasa
