import Tsukasa.Fs.Fat12
import Tsukasa.Fs.Fat32
import Tsukasa.Fs.Vfs

/-!
# Files of FAT volumes behind descriptors

The FAT branches of `fs/vfs.c`. Opening a file reads all of it into a block of the heap, reads and writes go to this private buffer, and the release of the open-file entry writes the buffer back as a whole. The branches of the other file systems are left out.

What the heap grants is an arbitrary sequence of answers. A driver call that does not come back leaves the volumes `hung`.
-/

namespace Tsukasa

open Lib (Memory)

/-- The `u.regular` of a file on a FAT volume; `none` is a null buffer. -/
structure RegularFile where
  buf : Option Memory
  size : Nat
  capacity : Nat

def RegularFile.bytes (r : RegularFile) : List UInt8 := r.buf.elim [] fun m => m.bytes 0 r.size

structure FatVolumes where
  fat12 : Fat12
  fat32 : Fat32
  /-- Whether the `n`-th call of `kmalloc` to come finds a block of a size. -/
  heap : Nat → Nat → Bool
  hung : Bool

namespace FatVolumes

def kmalloc (vol : FatVolumes) (size : Nat) : Bool × FatVolumes := (vol.heap 0 size, { vol with heap := fun n => vol.heap (n + 1) })

def hang (vol : FatVolumes) : FatVolumes := { vol with hung := true }

end FatVolumes

/-! ### Opening -/

/-- The fields that `open_regular_buffered` sets at its end. -/
def openedRegular (flags : BitVec 32) (buf : Option Memory) (fileSize : Nat) : Opened RegularFile where
  mode := flagsToMode flags
  dirty := flags &&& vfsOTrunc ≠ 0
  pos := if flags &&& vfsOAppend ≠ 0 then fileSize else 0
  data := ⟨buf, fileSize, fileSize⟩

/-- The file is read into a new block, by the driver's `read` of at most that many bytes. -/
def loadRegular (vol : FatVolumes) (flags : BitVec 32) (fileSize : Nat) (read : FatVolumes → Nat → Option (FatVolumes × Int × List UInt8)) :
    Option (Opened RegularFile) × FatVolumes :=
  let fileSize := if flags &&& vfsOTrunc ≠ 0 then 0 else fileSize
  if fileSize = 0 then (some (openedRegular flags none 0), vol)
  else
    let (granted, vol) := vol.kmalloc fileSize
    if !granted then (none, vol)
    else
      match read vol fileSize with
      | none => (none, vol.hang)
      | some (vol, readBytes, bytes) => (some (openedRegular flags (some fun i => bytes.getD i 0) readBytes.toNat), vol)

def readFat12 (sub : List UInt8) (vol : FatVolumes) (max : Nat) : Option (FatVolumes × Int × List UInt8) :=
  (fat12ReadFile vol.fat12 sub max).map fun r => (vol, r.1, r.2)

def readFat32 (sub : List UInt8) (vol : FatVolumes) (max : Nat) : Option (FatVolumes × Int × List UInt8) :=
  (fat32ReadFile vol.fat32 sub max).map fun r => ({ vol with fat32 := r.1 }, r.2.1, r.2.2)

def openRegularBuffered (vol : FatVolumes) (backend : VfsBackend) (sub : List UInt8) (flags : BitVec 32) : Option (Opened RegularFile) × FatVolumes :=
  match backend with
  | .fat12 =>
      match fat12Stat vol.fat12 sub with
      | none =>
          if flags &&& vfsOCreat = 0 then (none, vol)
          else
            match fat12WriteFile vol.fat12 sub [] with
            | none => (none, vol.hang)
            | some (ret, v) =>
                if ret ≠ 0 then (none, { vol with fat12 := v }) else loadRegular { vol with fat12 := v } flags 0 (readFat12 sub)
      | some de => if de.isDir then (none, vol) else loadRegular vol flags de.size (readFat12 sub)
  | .fat32 =>
      match fat32Stat vol.fat32 sub with
      | none => (none, vol.hang)
      | some (v, none) => (none, { vol with fat32 := v })
      | some (v, some de) =>
          if de.isDir then (none, { vol with fat32 := v }) else loadRegular { vol with fat32 := v } flags de.size (readFat32 sub)
  | _ => (none, vol)

/-! ### Reading, writing and flushing -/

/-- The doubling of `ensure_regular_capacity`; buffers are far from half of the address space. -/
def growCapacity (need : Nat) : Nat → Nat → Nat
  | 0, cap => cap
  | fuel + 1, cap => if cap < need then growCapacity need fuel (cap * 2) else cap

/-- What the new block holds behind the file's bytes is never read. -/
def ensureRegularCapacity (vol : FatVolumes) (r : RegularFile) (need : Nat) : Option RegularFile × FatVolumes :=
  if need ≤ r.capacity then (some r, vol)
  else
    let newCap := growCapacity need need (if r.capacity = 0 then 64 else r.capacity)
    let (granted, vol) := vol.kmalloc newCap
    if granted then (some { r with buf := some fun i => if i < r.size then r.buf.elim 0 fun m => m i else 0, capacity := newCap }, vol) else (none, vol)

def readRegular (f : VfsFile RegularFile) (r : RegularFile) (count : Nat) : List UInt8 × Nat :=
  match r.buf with
  | none => ([], f.pos)
  | some m => if r.size ≤ f.pos then ([], f.pos) else (m.bytes f.pos (min count (r.size - f.pos)), f.pos + min count (r.size - f.pos))

/-- The count, and the new position, dirty flag and data. -/
def writeRegular (vol : FatVolumes) (f : VfsFile RegularFile) (r : RegularFile) (src : List UInt8) : Nat × Nat × Bool × RegularFile × FatVolumes :=
  let pos := if f.flags &&& vfsOAppend ≠ 0 then r.size else f.pos
  match ensureRegularCapacity vol r (pos + src.length) with
  | (none, vol) => (0, pos, f.dirty, r, vol)
  | (some r, vol) =>
      let buf := r.buf.map fun m => m.blit pos src.length fun i => src.getD i 0
      (src.length, pos + src.length, true, { r with buf := buf, size := max r.size (pos + src.length) }, vol)

/-- The write of `flush_regular_file`. `fat12_write_file` refuses a null buffer. -/
def flushRegular (vol : FatVolumes) (f : VfsFile RegularFile) (r : RegularFile) : Bool × FatVolumes :=
  match f.backend with
  | .fat12 =>
      if r.buf.isNone then (false, vol)
      else
        match fat12WriteFile vol.fat12 f.path r.bytes with
        | none => (false, vol.hang)
        | some (ret, v) => (ret = 0, { vol with fat12 := v })
  | .fat32 =>
      match fat32WriteFile vol.fat32 f.path r.bytes with
      | none => (false, vol.hang)
      | some (v, ret) => (0 ≤ ret, { vol with fat32 := v })
  | _ => (true, vol)

/-- An entry with no buffer yet is as it was allocated. -/
def VfsFile.regular (f : VfsFile RegularFile) : RegularFile :=
  match f.u with
  | .backed r => r
  | _ => ⟨none, 0, 0⟩

/-- The FAT volumes as `vfs.c` uses them, with the mounts' way from a path to a volume as a parameter. -/
def fatBackends (resolve : Nat → List UInt8 → Option (VfsMount × List UInt8)) : Backends FatVolumes RegularFile where
  resolve _ := resolve
  openFile := openRegularBuffered
  writeBack vol f := flushRegular vol f f.regular
  readFile vol f count := let r := readRegular f f.regular count; (r.1, r.2, vol)
  writeFile vol f src := writeRegular vol f f.regular src

/-! ### Seeking -/

variable {φ β : Type}

def vfsSeekSet : Int := 0
def vfsSeekCur : Int := 1
def vfsSeekEnd : Int := 2

/-- `vfs_seek`, for the size that the file's backend gives; all ones is an error. -/
def vfsSeek (sizeOf : φ → VfsFile β → Nat) (s : Vfs φ β) (proc : Nat) (fd : Int) (offset : Nat) (whence : Int) : Nat × Vfs φ β :=
  match fdLookup s proc fd with
  | none => (2 ^ 64 - 1, s)
  | some i =>
      let f := s.openFiles i
      if f.backend = .pipe then (2 ^ 64 - 1, s)
      else
        let size := sizeOf s.fs f
        let pos :=
          if whence = vfsSeekSet then some (wrap64 offset)
          else if whence = vfsSeekCur then some (wrap64 (f.pos + offset))
          else if whence = vfsSeekEnd then some (wrap64 (size + offset))
          else none
        match pos with
        | none => (2 ^ 64 - 1, s)
        | some pos => (min pos size, s.setFile i { f with pos := min pos size })

def vfsTell (s : Vfs φ β) (proc : Nat) (fd : Int) : Nat :=
  match fdLookup s proc fd with
  | none => 2 ^ 64 - 1
  | some i => (s.openFiles i).pos

def regularSize (_ : FatVolumes) (f : VfsFile RegularFile) : Nat := f.regular.size

end Tsukasa
