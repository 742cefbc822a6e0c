import Tsukasa.Base.Word
import Tsukasa.Fs.Mount
import Tsukasa.Lib.Blocks

/-!
# The FAT12 driver

`fs/fat12.c` on an image in memory. The values that `fat12_init` takes from the boot sector stay cached, so a later write to the image does not change them. Offsets into the image are 32-bit and wrap.

A loop over a chain runs on fuel, and `none` is a call that does not come back.
-/

namespace Tsukasa

/-- The first FAT value that ends a chain. -/
def fat12Eoc : Nat := 0xFF8
def fatAttrVolumeId : UInt8 := 0x08
def fatAttrDirectory : UInt8 := 0x10
def fatAttrArchive : UInt8 := 0x20
def fatAttrLfn : UInt8 := 0x0F

structure Fat12Geometry where
  bytesPerSec : Nat
  secsPerClus : Nat
  reservedSecs : Nat
  numFats : Nat
  rootEntryCnt : Nat
  fatSz16 : Nat
  fatOffset : Nat
  rootDirOffset : Nat
  dataOffset : Nat
  totalClusters : Nat
deriving DecidableEq

structure Fat12 where
  /-- `g_disk` is set. -/
  mounted : Bool
  size : Nat
  geometry : Fat12Geometry
  disk : Lib.Memory

/-! ### FAT12 cluster chain helpers -/

def getNextCluster (v : Fat12) (clus : Nat) : Nat :=
  if !v.mounted ∨ clus < 2 then 0xFFF
  else
    let fatByte := wrap32 (v.geometry.fatOffset + clus * 3 / 2)
    if v.size ≤ wrap32 (fatByte + 1) then 0xFFF
    else
      let val := (v.disk fatByte).toNat + 256 * (v.disk (wrap32 (fatByte + 1))).toNat
      if clus % 2 = 1 then val / 16 else val % 4096

/-- The body of the loop of `fat12_set_cluster`, for the FAT copy `fi`. -/
def setFatCopy (clus val : Nat) (v : Fat12) (fi : Nat) : Fat12 :=
  let foff := wrap32 (v.geometry.fatOffset + wrap32 (fi * v.geometry.fatSz16 * v.geometry.bytesPerSec))
  let byte := wrap32 (foff + clus * 3 / 2)
  let next := wrap32 (byte + 1)
  if v.size ≤ next then v
  else
    let low := if clus % 2 = 1 then (v.disk byte).toNat % 16 + val % 16 * 16 else val % 256
    let high := if clus % 2 = 1 then val / 16 else (v.disk next).toNat / 16 * 16 + val / 256 % 16
    { v with disk := Function.update (Function.update v.disk byte (UInt8.ofNat low)) next (UInt8.ofNat high) }

def setCluster (v : Fat12) (clus val : Nat) : Fat12 :=
  if !v.mounted ∨ clus < 2 then v else (List.range v.geometry.numFats).foldl (setFatCopy clus val) v

/-- The bound of the search in `fat12_alloc_cluster`. -/
def allocBound (g : Fat12Geometry) : Nat := wrap32 (g.totalClusters + 2)

/-- `fat12_alloc_cluster`: the cluster, 0 on a full disk. Its counter has 16 bits, so it does not reach a bound of 65536 or more and starts again from 0. -/
def allocCluster (v : Fat12) : Option (Nat × Fat12) :=
  match (List.range' 2 (min (allocBound v.geometry) 65536 - 2)).find? fun c => getNextCluster v c = 0 with
  | some c => some (c, setCluster v c 0xFFF)
  | none => if allocBound v.geometry < 65536 then some (0, v) else none

def clusterBytes (g : Fat12Geometry) : Nat := g.secsPerClus * g.bytesPerSec

def clusterToOffset (g : Fat12Geometry) (clus : Nat) : Nat :=
  if clus < 2 then g.dataOffset else wrap32 (g.dataOffset + (clus - 2) * clusterBytes g)

/-! ### 8.3 names -/

def toUpper (c : UInt8) : UInt8 := if 97 ≤ c ∧ c ≤ 122 then c - 32 else c

def padSpaces (n : Nat) (s : List UInt8) : List UInt8 := s ++ List.replicate (n - s.length) 32

def strToFat83 (name : List UInt8) : List UInt8 :=
  let base := (name.takeWhile (· ≠ dot)).take 8
  let rest := name.drop base.length
  let ext := if rest.head? = some dot then rest.tail.take 3 else []
  padSpaces 8 (base.map toUpper) ++ padSpaces 3 (ext.map toUpper)

def fat83Match (v : Fat12) (off : Nat) (name : List UInt8) : Bool := v.disk.bytes off 11 = strToFat83 name

/-! ### Initialization -/

def fat12Init (v : Fat12) (disk : Lib.Memory) (size : Nat) : Int × Fat12 :=
  if size < 512 then (-1, v)
  else if disk 510 ≠ 0x55 ∨ disk 511 ≠ 0xAA then (-1, v)
  else
    let g := { v.geometry with
      bytesPerSec := disk.load 11 2
      secsPerClus := (disk 13).toNat
      reservedSecs := disk.load 14 2
      numFats := (disk 16).toNat
      rootEntryCnt := disk.load 17 2
      fatSz16 := disk.load 22 2 }
    if g.bytesPerSec = 0 ∨ g.secsPerClus = 0 then (-1, ⟨true, size, g, disk⟩)
    else
      let fatOffset := wrap32 (g.reservedSecs * g.bytesPerSec)
      let rootDirOffset := wrap32 (fatOffset + g.numFats * g.fatSz16 * g.bytesPerSec)
      let rootDirSectors := (g.rootEntryCnt * 32 + g.bytesPerSec - 1) / g.bytesPerSec
      let dataOffset := wrap32 (rootDirOffset + rootDirSectors * g.bytesPerSec)
      let totalSectors := if disk.load 19 2 = 0 then disk.load 32 4 % 2 ^ 16 else disk.load 19 2
      let totalClusters := wrap32 (totalSectors + 2 ^ 32 - dataOffset / g.bytesPerSec) / g.secsPerClus
      (0, ⟨true, size, { g with
        fatOffset := fatOffset, rootDirOffset := rootDirOffset, dataOffset := dataOffset, totalClusters := totalClusters }, disk⟩)

/-! ### File lookup -/

/-- The offsets of the root directory slots that lie inside the image. Where the end of the directory has wrapped, it is in front of the first slot. -/
def rootSlots (v : Fat12) : List Nat :=
  if v.geometry.rootDirOffset + v.geometry.rootEntryCnt * 32 < 2 ^ 32 then
    ((List.range v.geometry.rootEntryCnt).map fun i => v.geometry.rootDirOffset + i * 32).takeWhile fun off => off + 32 ≤ v.size
  else []

/-- A slot that `find_dirent` compares with the name. -/
def direntShown (v : Fat12) (off : Nat) : Bool :=
  v.disk off ≠ 0xE5 ∧ v.disk (off + 11) &&& fatAttrVolumeId = 0 ∧ v.disk (off + 11) ≠ fatAttrLfn

/-- `find_dirent`: the offset of the entry, 0 when there is none. -/
def findDirent (v : Fat12) (name : List UInt8) : Nat :=
  (((rootSlots v).takeWhile fun off => v.disk off ≠ 0).find? fun off => direntShown v off && fat83Match v off name).getD 0

/-- The text of an 8.3 name. -/
def fat83ToStr (raw : List UInt8) : List UInt8 :=
  let base := (raw.take 8).takeWhile (· ≠ 32)
  let ext := ((raw.drop 8).take 3).takeWhile (· ≠ 32)
  if raw.getD 8 0 ≠ 32 then base ++ dot :: ext else base

structure Fat12Dirent where
  name : List UInt8
  size : Nat
  firstCluster : Nat
  attr : UInt8
  isDir : Bool
deriving DecidableEq

def fat12DirentAt (v : Fat12) (off : Nat) : Fat12Dirent where
  name := fat83ToStr (v.disk.bytes off 11)
  size := v.disk.load (off + 28) 4
  firstCluster := v.disk.load (off + 26) 2
  attr := v.disk (off + 11)
  isDir := v.disk (off + 11) &&& fatAttrDirectory ≠ 0

def pathToName (path : List UInt8) : List UInt8 := path.dropWhile (· = slash)

def fat12Stat (v : Fat12) (path : List UInt8) : Option Fat12Dirent :=
  let name := pathToName path
  if name = [] then none
  else if findDirent v name = 0 then none
  else some (fat12DirentAt v (findDirent v name))

/-! ### File read -/

/-- `to_copy`, when `done` bytes have been copied. -/
def copyLength (v : Fat12) (max done clus : Nat) : Nat :=
  let srcOff := clusterToOffset v.geometry clus
  let toCopy := clusterBytes v.geometry
  let toCopy := if max < done + toCopy then max - done else toCopy
  if v.size < wrap32 (srcOff + toCopy) then wrap32 (v.size + 2 ^ 64 - srcOff) else toCopy

def copyOffsets (off n : Nat) : List Nat := (List.range n).map fun i => wrap32 (off + i)

def readLoop (v : Fat12) (max : Nat) : Nat → Nat → List UInt8 → Option (List UInt8)
  | 0, _, _ => none
  | fuel + 1, clus, dst =>
      if 2 ≤ clus ∧ clus < fat12Eoc ∧ dst.length < max then
        let offsets := copyOffsets (clusterToOffset v.geometry clus) (copyLength v max dst.length clus)
        readLoop v max fuel (getNextCluster v clus) (dst ++ offsets.map v.disk)
      else some dst

/-- `fat12_read_file`: the return value and what is put into the buffer. -/
def fat12ReadFile (v : Fat12) (path : List UInt8) (max : Nat) : Option (Int × List UInt8) :=
  if !v.mounted then some (-1, [])
  else
    let name := pathToName path
    if name = [] then some (-1, [])
    else
      let doff := findDirent v name
      if doff = 0 then some (-1, [])
      else if v.disk (doff + 11) &&& fatAttrDirectory ≠ 0 then some (-1, [])
      else
        let max := min (v.disk.load (doff + 28) 4) max
        -- a cluster adds to the buffer, or the chain has left the image for good
        (readLoop v max ((max + 1) * fat12Eoc + 1) (v.disk.load (doff + 26) 2) []).map fun dst => (toInt32 dst.length, dst)

/-! ### File write -/

/-- A new entry for `name` in the slot at `off`. -/
def newDirent (v : Fat12) (off : Nat) (name : List UInt8) : Fat12 :=
  let entry := strToFat83 name ++ [fatAttrArchive]
  { v with disk := v.disk.blit off 32 fun i => entry.getD i 0 }

/-- The first step of `fat12_write_file`: the entry of the name, found or created. -/
def findOrCreate (v : Fat12) (name : List UInt8) : Option (Nat × Fat12) :=
  if findDirent v name ≠ 0 then some (findDirent v name, v)
  else
    match (rootSlots v).find? fun off => v.disk off = 0 ∨ v.disk off = 0xE5 with
    | none => none
    | some off => if off = 0 then none else some (off, newDirent v off name)

/-- The chain from `clus` on is freed; a cluster that comes up again is free by then and ends the loop. -/
def freeChain : Nat → Nat → Fat12 → Option Fat12
  | 0, _, _ => none
  | fuel + 1, clus, v =>
      if 2 ≤ clus ∧ clus < fat12Eoc then freeChain fuel (getNextCluster v clus) (setCluster v clus 0) else some v

def setDirent (v : Fat12) (off firstClus size : Nat) : Fat12 :=
  { v with disk := (v.disk.store (off + 26) 2 firstClus).store (off + 28) 4 size }

/-- The copy of data into a cluster; it stops at the first offset behind the image. -/
def copyToImage (v : Fat12) (dstOff toWrite : Nat) (src : List UInt8) : Lib.Memory :=
  ((List.range toWrite).takeWhile fun i => wrap32 (dstOff + i) < v.size).foldl
    (fun m i => Function.update m (wrap32 (dstOff + i)) (src.getD i 0)) v.disk

/-- Clusters are allocated and filled until nothing of `src` remains; the inner `none` is a full disk. -/
def writeLoop : Nat → Fat12 → Nat → Nat → List UInt8 → Option (Fat12 × Option Nat)
  | 0, v, firstClus, _, src => if src = [] then some (v, some firstClus) else none
  | fuel + 1, v, firstClus, prevClus, src =>
      if src = [] then some (v, some firstClus)
      else
        match allocCluster v with
        | none => none
        | some (c, v) =>
            if c = 0 then some (v, none)
            else
              let v := if prevClus ≠ 0 then setCluster v prevClus c else v
              let firstClus := if prevClus ≠ 0 then firstClus else c
              let dstOff := clusterToOffset v.geometry c
              let toWrite := min src.length (clusterBytes v.geometry)
              let v := { v with disk := copyToImage v dstOff toWrite src }
              writeLoop fuel v firstClus c (src.drop toWrite)

def fat12WriteFile (v : Fat12) (path data : List UInt8) : Option (Int × Fat12) :=
  if !v.mounted then some (-1, v)
  else
    let name := pathToName path
    if name = [] then some (-1, v)
    else
      match findOrCreate v name with
      | none => some (-1, v)
      | some (doff, v) =>
          match freeChain (fat12Eoc + 1) (v.disk.load (doff + 26) 2) v with
          | none => none
          | some v =>
              let v := setDirent v doff 0 0
              if data = [] then some (0, v)
              else
                match writeLoop data.length v 0 0 data with
                | none => none
                | some (v, none) => some (-1, v)
                | some (v, some firstClus) => some (0, setDirent v doff firstClus data.length)

end Tsukasa
