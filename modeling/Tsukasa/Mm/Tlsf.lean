import Tsukasa.Base.Word
import Tsukasa.Lib.Bytes
import Mathlib.Data.List.Basic

/-!
# The TLSF allocator

`mm/tlsf.c` over the bytes it manages. A heap is a control structure at `t` and the blocks of its pools; both lie in memory, and every function reads and writes them there. Pointers are addresses, and 0 is the null pointer.
-/

namespace Tsukasa

open Lib (Memory)

def flIndexMax : Nat := 28

def slIndexBits : Nat := 4

def slIndexCount : Nat := 2 ^ slIndexBits

def flIndexCount : Nat := flIndexMax - slIndexBits + 1

def blockAlign : Nat := 8

/-- `sizeof(block_t)`. -/
def blockMin : Nat := 24

def hdrSize : Nat := 8

/-- `sizeof(footer_t)`. -/
def footerSize : Nat := 8

/-! ### Blocks -/

def blockSize (m : Memory) (b : Nat) : Nat := m.load b 4 / 4 * 4

def blockIsFree (m : Memory) (b : Nat) : Bool := m.load b 4 % 2 == 1

def blockPrevFree (m : Memory) (b : Nat) : Bool := m.load b 4 / 2 % 2 == 1

def blockSetSize (b sz : Nat) (m : Memory) : Memory := m.store b 4 (m.load b 4 % 4 + wrap32 sz / 4 * 4)

def blockSetFree (b : Nat) (f : Bool) (m : Memory) : Memory := m.store b 4 (m.load b 4 / 2 * 2 + f.toNat)

def blockSetPrevFree (b : Nat) (f : Bool) (m : Memory) : Memory :=
  m.store b 4 (m.load b 4 / 4 * 4 + 2 * f.toNat + m.load b 4 % 2)

/-- The link `b->prev_free`, in the first 8 bytes of the payload. -/
def prevFreeLink (m : Memory) (b : Nat) : Nat := m.load (b + 8) 8

def nextFreeLink (m : Memory) (b : Nat) : Nat := m.load (b + 16) 8

def blockToPtr (b : Nat) : Nat := b + hdrSize

def ptrToBlock (p : Nat) : Nat := p - hdrSize

def blockPhysNext (m : Memory) (b : Nat) : Nat := b + hdrSize + blockSize m b

def blockPhysPrev (m : Memory) (b : Nat) : Nat := m.load (b - footerSize) 8

def blockFooter (m : Memory) (b : Nat) : Nat := b + hdrSize + blockSize m b - footerSize

def blockWriteFooter (b : Nat) (m : Memory) : Memory := m.store (blockFooter m b) 8 b

/-! ### Find-first-bit helpers -/

def fls (v : Nat) : Nat := Nat.log2 v

def ffs (v : BitVec 32) : Nat := ((List.range 32).find? v.getLsbD).getD 0

/-! ### The control structure -/

/-- `&c->free_lists[fl][sl]`. -/
def freeListAt (t fl sl : Nat) : Nat := t + 8 * (slIndexCount * fl + sl)

def flBitmapAt (t : Nat) : Nat := t + 3200

def slBitmapAt (t fl : Nat) : Nat := t + 3204 + 4 * fl

/-- `sizeof(control_t)`, with the `sentinel` at its end that no function touches. -/
def controlSize : Nat := 3328

/-- The 32-bit word at `a` as a bitmap. -/
def bitsAt (m : Memory) (a : Nat) : BitVec 32 := BitVec.ofNat 32 (m.load a 4)

/-! ### Mapping -/

def mappingInsert (size : Nat) : Nat × Nat :=
  if size < 2 ^ slIndexBits then (0, size)
  else (fls size, size / 2 ^ (fls size - slIndexBits) % slIndexCount)

def mappingSearch (size : Nat) : Nat × Nat :=
  mappingInsert (if 2 ^ slIndexBits ≤ size then wrap32 (size + (2 ^ (fls size - slIndexBits) - 1)) else size)

/-! ### Free list management -/

def flSlSet (t fl sl : Nat) (m : Memory) : Memory :=
  let m := m.store (slBitmapAt t fl) 4 (bitsAt m (slBitmapAt t fl) ||| 1#32 <<< sl).toNat
  m.store (flBitmapAt t) 4 (bitsAt m (flBitmapAt t) ||| 1#32 <<< fl).toNat

def flSlClear (t fl sl : Nat) (m : Memory) : Memory :=
  let m := m.store (slBitmapAt t fl) 4 (bitsAt m (slBitmapAt t fl) &&& ~~~(1#32 <<< sl)).toNat
  if bitsAt m (slBitmapAt t fl) = 0 then m.store (flBitmapAt t) 4 (bitsAt m (flBitmapAt t) &&& ~~~(1#32 <<< fl)).toNat
  else m

/-- What `insert_block` does to the links: `b` becomes the head of the list at `slot`. -/
def linkFront (slot b : Nat) (m : Memory) : Memory :=
  let m := m.store (b + 16) 8 (m.load slot 8)
  let m := m.store (b + 8) 8 0
  let m := if m.load slot 8 ≠ 0 then m.store (m.load slot 8 + 8) 8 b else m
  m.store slot 8 b

def insertBlock (t b : Nat) (m : Memory) : Memory :=
  let c := mappingInsert (blockSize m b)
  flSlSet t c.1 c.2 (linkFront (freeListAt t c.1 c.2) b m)

/-- What `remove_block` does to the links: the neighbours of `b` are linked to each other. -/
def unlinkBlock (slot b : Nat) (m : Memory) : Memory :=
  let m := if prevFreeLink m b ≠ 0 then m.store (prevFreeLink m b + 16) 8 (nextFreeLink m b) else m.store slot 8 (nextFreeLink m b)
  if nextFreeLink m b ≠ 0 then m.store (nextFreeLink m b + 8) 8 (prevFreeLink m b) else m

def removeBlock (t b : Nat) (m : Memory) : Memory :=
  let c := mappingInsert (blockSize m b)
  let m := unlinkBlock (freeListAt t c.1 c.2) b m
  if m.load (freeListAt t c.1 c.2) 8 = 0 then flSlClear t c.1 c.2 m else m

/-- The list `find_suitable` takes its block from, the `fl` and `sl` of its last line. -/
def suitableList (m : Memory) (t size : Nat) : Option (Nat × Nat) :=
  let c := mappingSearch size
  let slMap := bitsAt m (slBitmapAt t c.1) &&& BitVec.allOnes 32 <<< c.2
  if slMap = 0 then
    -- the count of a 32-bit shift is taken modulo 32
    let flMap := bitsAt m (flBitmapAt t) &&& BitVec.allOnes 32 <<< ((c.1 + 1) % 32)
    if flMap = 0 then none else some (ffs flMap, ffs (bitsAt m (slBitmapAt t (ffs flMap))))
  else some (c.1, ffs slMap)

def findSuitable (m : Memory) (t size : Nat) : Nat :=
  match suitableList m t size with
  | none => 0
  | some (fl, sl) => m.load (freeListAt t fl sl) 8

/-! ### Merge and split -/

def coalescePrev (t b : Nat) (m : Memory) : Nat × Memory :=
  if blockPrevFree m b then
    let prev := blockPhysPrev m b
    let m := removeBlock t prev m
    (prev, blockSetSize prev (blockSize m prev + hdrSize + blockSize m b) m)
  else (b, m)

def coalesceNext (t b : Nat) (m : Memory) : Memory :=
  let next := blockPhysNext m b
  if blockIsFree m next then
    let m := removeBlock t next m
    blockSetSize b (blockSize m b + hdrSize + blockSize m next) m
  else m

/-- The `remain` of `split_block`, in 32 bits. -/
def splitRemain (bs size : Nat) : Nat := wrap32 (bs + 2 ^ 33 - size - hdrSize)

def splitBlock (b size : Nat) (m : Memory) : Nat × Memory :=
  let remain := splitRemain (blockSize m b) size
  if remain < blockMin then (0, m)
  else
    let rest := b + hdrSize + size
    let m := m.store rest 4 remain
    let m := blockSetFree rest false m
    let m := blockSetPrevFree rest false m
    (rest, blockSetSize b size m)

/-! ### Pool bootstrap -/

/-- `HDR_SIZE + BLOCK_MIN + HDR_SIZE + sizeof(footer_t) + 4`. -/
def poolMin : Nat := hdrSize + blockMin + hdrSize + footerSize + 4

def poolBlockSize (size : Nat) : Nat := wrap32 (size - hdrSize - hdrSize - footerSize) / 4 * 4

def poolAdd (t mem size : Nat) (m : Memory) : Memory :=
  if size < poolMin then m
  else
    let m := m.store mem 4 0
    let m := blockSetSize mem (poolBlockSize size) m
    let m := blockSetFree mem true m
    let m := blockSetPrevFree mem false m
    let m := blockWriteFooter mem m
    let sent := blockPhysNext m mem
    let m := m.store sent 4 0
    let m := blockSetPrevFree sent true m
    insertBlock t mem m

/-! ### Public API -/

def controlClear (t : Nat) (m : Memory) : Memory :=
  (List.range flIndexCount).foldl
    (fun m f => (List.range slIndexCount).foldl (fun m s => m.store (freeListAt t f s) 8 0) (m.store (slBitmapAt t f) 4 0))
    (m.store (flBitmapAt t) 4 0)

def tlsfCreate (mem size : Nat) (m : Memory) : Nat × Memory :=
  if mem = 0 ∨ size < controlSize + 64 then (0, m)
  else (mem, poolAdd mem (mem + controlSize) (size - controlSize) (controlClear mem m))

def tlsfAddPool (t mem size : Nat) (m : Memory) : Memory :=
  if t = 0 ∨ mem = 0 then m else poolAdd t mem size m

/-- The aligned and clamped size of a request, still a 64-bit word. -/
def requestSize (size : Nat) : Nat :=
  let size := wrap64 (size + blockAlign - 1) / blockAlign * blockAlign
  if size < blockMin then blockMin else size

/-- The part of `tlsf_malloc` behind the search. -/
def takeBlock (t b size : Nat) (m : Memory) : Nat × Memory :=
  let m := removeBlock t b m
  let m := blockSetFree b false m
  let split := splitBlock b size m
  if split.1 ≠ 0 then
    let m := blockSetFree split.1 true split.2
    let m := blockWriteFooter split.1 m
    let m := blockSetPrevFree (blockPhysNext m split.1) true m
    (blockToPtr b, insertBlock t split.1 m)
  else (blockToPtr b, blockSetPrevFree (blockPhysNext split.2 b) false split.2)

def tlsfMalloc (t size : Nat) (m : Memory) : Nat × Memory :=
  if t = 0 ∨ size = 0 then (0, m)
  else
    let size := wrap32 (requestSize size)
    let b := findSuitable m t size
    if b = 0 then (0, m) else takeBlock t b size m

def tlsfFree (t ptr : Nat) (m : Memory) : Memory :=
  if t = 0 ∨ ptr = 0 then m
  else
    let b := ptrToBlock ptr
    let m := blockSetFree b true m
    let m := blockWriteFooter b m
    let merged := coalescePrev t b m
    let m := coalesceNext t merged.1 merged.2
    let m := blockSetPrevFree (blockPhysNext m merged.1) true m
    let m := blockWriteFooter merged.1 m
    insertBlock t merged.1 m

end Tsukasa
