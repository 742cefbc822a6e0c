import Tsukasa.Base.Word
import Tsukasa.Fs.Mount
import Tsukasa.Lib.Blocks

/-!
# The FAT32 driver

The read and write paths of `fs/fat32.c`. The disk is a flat byte memory, sector `lba` being the 512 bytes at `512 * lba`, and its reads and writes succeed. The scratch sector `g_sector`, which the FAT lookups share with the directory scanners, is part of the state.

A directory or a chain may run in a circle, and then the loops of the driver do not end. They run here on fuel that no chain of distinct clusters uses up, and `none` is a call that does not come back. It is also the outcome of a scan that leaves the long-name buffer or reads a byte of it that was never written.
-/

namespace Tsukasa

def fat32NameMax : Nat := 256
/-- The first FAT value that ends a chain. -/
def fat32Eoc : Nat := 0x0FFFFFF8
def attrDir : UInt8 := 0x10
def attrLfn : UInt8 := 0x0F
def attrVolumeId : UInt8 := 0x08

/-- What `fat32_init` takes from the BPB. -/
structure Fat32Geometry where
  fatLba : Nat
  dataLba : Nat
  rootCluster : Nat
  sectorsPerCluster : Nat
  fatSize : Nat
  bytesPerSector : Nat
deriving DecidableEq

structure Fat32 where
  ready : Bool
  geometry : Fat32Geometry
  /-- `g_sector` -/
  sector : Lib.Memory
  disk : Lib.Memory

/-- The 512 bytes that a read of one sector puts into its buffer. -/
def ataReadSector (disk : Lib.Memory) (lba : Nat) : Lib.Memory := fun i => if i < 512 then disk (512 * lba + i) else 0

def ataWriteSector (disk : Lib.Memory) (lba : Nat) (buf : Lib.Memory) : Lib.Memory := disk.blit (512 * lba) 512 buf

/-- A read into `g_sector`. -/
def Fat32.load (v : Fat32) (lba : Nat) : Fat32 := { v with sector := ataReadSector v.disk lba }

/-! ### Helpers -/

def toLower (c : UInt8) : UInt8 := if 65 ≤ c ∧ c ≤ 90 then c + 32 else c

/-- `k_strncmpi` on C strings, given as the bytes before a terminator. -/
def kStrncmpi : Nat → List UInt8 → List UInt8 → Nat
  | 0, _, _ => 0
  | n + 1, a, b =>
      if toLower (a.headD 0) ≠ toLower (b.headD 0) then 1
      else if toLower (a.headD 0) = 0 then 0
      else kStrncmpi n a.tail b.tail

def kStrcpy (src : List UInt8) (max : Nat) : List UInt8 := (src.takeWhile (· ≠ 0)).take (max - 1)

def clusterToLba (g : Fat32Geometry) (cluster : Nat) : Nat :=
  wrap32 (g.dataLba + wrap32 (cluster + (2 ^ 32 - 2)) * g.sectorsPerCluster)

/-- `fat_next`; the lookup goes through `g_sector`. -/
def fatNext (v : Fat32) (cluster : Nat) : Nat × Fat32 :=
  let fatOffset := wrap32 (cluster * 4)
  let v := v.load (wrap32 (v.geometry.fatLba + fatOffset / v.geometry.bytesPerSector))
  (v.sector.load (fatOffset % v.geometry.bytesPerSector) 4 % 2 ^ 28, v)

def parse83name (src : List UInt8) (dstlen : Nat) : List UInt8 :=
  let base := (src.take 8).takeWhile (· ≠ 32)
  let ext := ((src.drop 8).take 3).takeWhile (· ≠ 32)
  (if src.getD 8 0 ≠ 32 then base ++ dot :: ext else base).take (dstlen - 2)

/-! ### Directory entries -/

structure DirEntry where
  name : List UInt8
  attr : UInt8
  firstClusHi : Nat
  firstClusLo : Nat
  fileSize : Nat

def dirEntryAt (sec : Lib.Memory) (off : Nat) : DirEntry where
  name := sec.bytes off 11
  attr := sec (off + 11)
  firstClusHi := sec.load (off + 20) 2
  firstClusLo := sec.load (off + 26) 2
  fileSize := sec.load (off + 28) 4

def DirEntry.firstCluster (e : DirEntry) : Nat := e.firstClusHi * 2 ^ 16 + e.firstClusLo

/-- The long name under construction: `lfn_buf`, `lfn_len` and `has_lfn`. A byte of the buffer is `none` until it is written. -/
structure LfnState where
  buf : Nat → Option UInt8
  len : Nat
  has : Bool

def LfnState.empty : LfnState := ⟨fun _ => none, 0, false⟩

def LfnState.reset (l : LfnState) : LfnState := { l with len := 0, has := false }

/-- `lfn_buf[pos] = b`; `none` is a store outside the buffer. -/
def LfnState.store (l : LfnState) (pos : Int) (b : UInt8) : Option LfnState :=
  if 0 ≤ pos ∧ pos < fat32NameMax then some { l with buf := Function.update l.buf pos.toNat (some b) } else none

/-- A character at `pos`, and the length with it. -/
def LfnState.put (l : LfnState) (pos : Int) (wc : Nat) : Option LfnState :=
  (l.store pos (UInt8.ofNat wc)).map fun l => { l with len := max l.len (pos + 1).toNat }

/-- `lfn_buf[lfn_len] = '\0'; has_lfn = 1` -/
def LfnState.finish (l : LfnState) : Option LfnState := (l.store l.len 0).map fun l => { l with has := true }

/-- The C string in the buffer from `i` on, when the terminator behind the name is `n` bytes away. -/
def LfnState.textFrom (l : LfnState) : Nat → Nat → Option (List UInt8)
  | 0, _ => some []
  | n + 1, i =>
      match l.buf i with
      | none => none
      | some b => if b = 0 then some [] else (l.textFrom n (i + 1)).map (b :: ·)

def LfnState.text (l : LfnState) : Option (List UInt8) := l.textFrom l.len 0

/-- One of the three loops over the characters of a long-name entry, and whether it met a terminator. -/
def putChars (pos : Int) : List Nat → LfnState → Option (Bool × LfnState)
  | [], l => some (false, l)
  | wc :: wcs, l =>
      if pos < fat32NameMax - 1 then
        if wc = 0xFFFF ∨ wc = 0 then some (true, l) else (l.put pos wc).bind (putChars (pos + 1) wcs)
      else some (false, l)

def wideChars (sec : Lib.Memory) (at' n : Nat) : List Nat := (List.range n).map fun k => sec.load (at' + 2 * k) 2

def lfnName1 (sec : Lib.Memory) (off : Nat) : List Nat := wideChars sec (off + 1) 5
def lfnName2 (sec : Lib.Memory) (off : Nat) : List Nat := wideChars sec (off + 14) 6
def lfnName3 (sec : Lib.Memory) (off : Nat) : List Nat := wideChars sec (off + 28) 2

/-- `seq * 13`; the sequence number of an order without one is -1. -/
def lfnOffset (order : UInt8) : Int := ((order &&& 0x1F).toNat - 1 : Int) * 13

/-- The long-name part of `iterate_dir`: a terminator ends all three loops. -/
def iterateLfn (sec : Lib.Memory) (off : Nat) (l : LfnState) : Option LfnState :=
  let pos := lfnOffset (sec off)
  (putChars pos (lfnName1 sec off) l).bind fun r1 =>
    (if r1.1 then some r1 else putChars (pos + 5) (lfnName2 sec off) r1.2).bind fun r2 =>
      (if r2.1 then some r2 else putChars (pos + 11) (lfnName3 sec off) r2.2).bind fun r3 => r3.2.finish

/-- The long-name part of `find_entry_raw`: a terminator ends only the loop that meets it. -/
def findLfn (sec : Lib.Memory) (off : Nat) (l : LfnState) : Option LfnState :=
  let pos := lfnOffset (sec off)
  (putChars pos (lfnName1 sec off) l).bind fun r1 =>
    (putChars (pos + 5) (lfnName2 sec off) r1.2).bind fun r2 =>
      (putChars (pos + 11) (lfnName3 sec off) r2.2).bind fun r3 => r3.2.finish

/-! ### The directory scanners -/

/-- What the two scanners do their own way: a long-name entry, and an entry that is shown under its name. A visit gets the entry, the sector and the offset it is at, and its name, and says whether to stop. -/
structure DirScan (σ : Type) where
  lfn : Lib.Memory → Nat → LfnState → Option LfnState
  visit : DirEntry → Nat → Nat → List UInt8 → σ → σ × Bool

inductive Scan (σ : Type) where
  | more (l : LfnState) (ctx : σ)
  | done (ctx : σ)

/-- The loop body of the scanners, for the entry at `off` of the sector in `sec`, which was read from `lba`. -/
def scanEntry {σ : Type} (k : DirScan σ) (sec : Lib.Memory) (lba off : Nat) (l : LfnState) (ctx : σ) : Option (Scan σ) :=
  let e := dirEntryAt sec off
  let first := sec off
  if first = 0x00 then some (.done ctx)
  else if first = 0xE5 then some (.more l.reset ctx)
  else if e.attr = attrLfn then (k.lfn sec off l).map fun l => .more l ctx
  else if e.attr &&& attrVolumeId ≠ 0 then some (.more l.reset ctx)
  else if first = dot then some (.more l.reset ctx)
  else
    (if l.has then l.text else some (parse83name e.name 13)).map fun name =>
      match k.visit e lba off name ctx with
      | (ctx, true) => .done ctx
      | (ctx, false) => .more l.reset ctx

def scanEntries {σ : Type} (k : DirScan σ) (sec : Lib.Memory) (lba : Nat) : List Nat → LfnState → σ → Option (Scan σ)
  | [], l, ctx => some (.more l ctx)
  | i :: is, l, ctx =>
      match scanEntry k sec lba (i * 32) l ctx with
      | none => none
      | some (.done ctx) => some (.done ctx)
      | some (.more l ctx) => scanEntries k sec lba is l ctx

/-- The sectors of a cluster that starts at `lba`. -/
def scanSectors {σ : Type} (k : DirScan σ) (lba : Nat) : List Nat → Fat32 → LfnState → σ → Option (Fat32 × Scan σ)
  | [], v, l, ctx => some (v, .more l ctx)
  | s :: ss, v, l, ctx =>
      let v := v.load (wrap32 (lba + s))
      match scanEntries k v.sector (wrap32 (lba + s)) (List.range (v.geometry.bytesPerSector / 32)) l ctx with
      | none => none
      | some (.done ctx) => some (v, .done ctx)
      | some (.more l ctx) => scanSectors k lba ss v l ctx

def scanClusters {σ : Type} (k : DirScan σ) : Nat → Nat → Fat32 → LfnState → σ → Option (Fat32 × σ)
  | 0, _, _, _, _ => none
  | fuel + 1, cluster, v, l, ctx =>
      if cluster < fat32Eoc then
        match scanSectors k (clusterToLba v.geometry cluster) (List.range v.geometry.sectorsPerCluster) v l ctx with
        | none => none
        | some (v, .done ctx) => some (v, ctx)
        | some (v, .more l ctx) =>
            let next := fatNext v cluster
            scanClusters k fuel next.1 next.2 l ctx
      else some (v, ctx)

def fat32Fuel : Nat := fat32Eoc + 1

def iterateDir {σ : Type} (v : Fat32) (startCluster : Nat) (cb : DirEntry → List UInt8 → σ → σ × Bool) (ctx : σ) : Option (Fat32 × σ) :=
  scanClusters ⟨iterateLfn, fun e _ _ name ctx => cb e name ctx⟩ fat32Fuel startCluster v .empty ctx

structure RawEntry where
  out : DirEntry
  lba : Nat
  entryOff : Nat

def findEntryRaw (v : Fat32) (startCluster : Nat) (target : List UInt8) : Option (Fat32 × Option RawEntry) :=
  let visit : DirEntry → Nat → Nat → List UInt8 → Option RawEntry → Option RawEntry × Bool := fun e lba off name ctx =>
    if kStrncmpi fat32NameMax name target ≠ 0 then (ctx, false) else (some ⟨e, lba, off⟩, true)
  scanClusters ⟨findLfn, visit⟩ fat32Fuel startCluster v .empty none

/-! ### Paths -/

/-- `normalize_path` into a buffer of `outCap` bytes; the segments are cut to `FAT32_NAME_MAX - 1` bytes. -/
def fat32NormalizePath (path : List UInt8) (outCap : Nat) : Option (List UInt8) :=
  if outCap ≤ 1 ∨ path.head? ≠ some slash then none
  else
    match ((path.splitOn slash).map (List.take (fat32NameMax - 1))).foldlM pushSegment [] with
    | none => none
    | some segs =>
        let out := if segs = [] then [slash] else segs.flatMap (slash :: ·)
        if out.length ≤ outCap - 1 then some out else none

def findDirCb (root : Nat) (target : List UInt8) (e : DirEntry) (name : List UInt8) (ctx : Option Nat) : Option Nat × Bool :=
  if e.attr &&& attrDir ≠ 0 ∧ kStrncmpi fat32NameMax name target = 0 then
    (some (if e.firstCluster = 0 then root else e.firstCluster), true)
  else (ctx, false)

/-- The components `resolve_parent` collects, `n` at most. -/
def pathComponents : Nat → List UInt8 → List (List UInt8)
  | 0, _ => []
  | n + 1, path =>
      let p := path.dropWhile (· = slash)
      if p = [] then []
      else
        let comp := (p.takeWhile (· ≠ slash)).take (fat32NameMax - 1)
        comp :: pathComponents n (p.drop comp.length)

/-- The walk of `resolve_parent` down the directories; 0 is a component that was not found. -/
def walkDirs : List (List UInt8) → Fat32 → Nat → Option (Fat32 × Nat)
  | [], v, cur => some (v, cur)
  | comp :: comps, v, cur =>
      match iterateDir v cur (findDirCb v.geometry.rootCluster comp) none with
      | none => none
      | some (v, none) => some (v, 0)
      | some (v, some found) => walkDirs comps v found

/-- `resolve_parent`: the parent's cluster and the leaf. -/
def resolveParent (v : Fat32) (path : List UInt8) : Option (Fat32 × Nat × Option (List UInt8)) :=
  let comps := pathComponents 32 path
  match comps.getLast? with
  | none => some (v, v.geometry.rootCluster, none)
  | some leaf =>
      match walkDirs comps.dropLast v v.geometry.rootCluster with
      | none => none
      | some (v, parent) => some (v, parent, some leaf)

/-! ### The calls -/

def fat32Init (v : Fat32) : Int × Fat32 :=
  let v := { v with ready := false }
  let v := v.load 0
  let bpb := v.sector
  if bpb 510 ≠ 0x55 ∨ bpb 511 ≠ 0xAA then (-1, v)
  else if bpb.load 11 2 = 0 then (-1, v)
  else if bpb.load 17 2 ≠ 0 ∨ bpb.load 22 2 ≠ 0 then (-1, v)
  else if bpb.load 36 4 = 0 then (-1, v)
  else
    let fatLba := wrap32 (bpb.load 28 4 + bpb.load 14 2)
    (0, { v with
      ready := true
      geometry := {
        bytesPerSector := bpb.load 11 2
        sectorsPerCluster := (bpb 13).toNat
        fatSize := bpb.load 36 4
        rootCluster := bpb.load 44 4
        fatLba := fatLba
        dataLba := wrap32 (fatLba + (bpb 16).toNat * bpb.load 36 4) } })

structure Fat32Dirent where
  name : List UInt8
  size : Nat
  isDir : Bool
  firstCluster : Nat
deriving DecidableEq

def statCb (target : List UInt8) (e : DirEntry) (name : List UInt8) (ctx : Option Fat32Dirent) : Option Fat32Dirent × Bool :=
  if kStrncmpi fat32NameMax name target = 0 then
    (some ⟨kStrcpy name fat32NameMax, e.fileSize, e.attr &&& attrDir ≠ 0, e.firstCluster⟩, true)
  else (ctx, false)

/-- `fat32_stat`; the inner `none` is its error return. -/
def fat32Stat (v : Fat32) (path : List UInt8) : Option (Fat32 × Option Fat32Dirent) :=
  if !v.ready then some (v, none)
  else
    match fat32NormalizePath path fat32NameMax with
    | none => some (v, none)
    | some norm =>
        if norm = [slash] then some (v, some ⟨[slash], 0, true, v.geometry.rootCluster⟩)
        else
          match resolveParent v norm with
          | none => none
          | some (v, _, none) => some (v, none)
          | some (v, parent, some leaf) =>
              if parent = 0 then some (v, none) else iterateDir v parent (statCb leaf) none

/-- The loop of `fat32_read_file` over the sectors of a cluster that starts at `lba`; `dst` is what has been copied. -/
def readSectors (v : Fat32) (lba toRead : Nat) : List Nat → List UInt8 → List UInt8
  | [], dst => dst
  | s :: ss, dst =>
      if dst.length < toRead then
        let secBuf := ataReadSector v.disk (wrap32 (lba + s))
        let chunk := min v.geometry.bytesPerSector (toRead - dst.length)
        readSectors v lba toRead ss (dst ++ secBuf.bytes 0 chunk)
      else dst

def readClusters (toRead : Nat) : Nat → Nat → Fat32 → List UInt8 → Option (Fat32 × List UInt8)
  | 0, _, _, _ => none
  | fuel + 1, cluster, v, dst =>
      if cluster < fat32Eoc ∧ dst.length < toRead then
        let dst := readSectors v (clusterToLba v.geometry cluster) toRead (List.range v.geometry.sectorsPerCluster) dst
        let next := fatNext v cluster
        readClusters toRead fuel next.1 next.2 dst
      else some (v, dst)

/-- `fat32_read_file`: its return value and what it puts into the buffer. -/
def fat32ReadFile (v : Fat32) (path : List UInt8) (maxBytes : Nat) : Option (Fat32 × Int × List UInt8) :=
  if !v.ready then some (v, -1, [])
  else
    match fat32NormalizePath path fat32NameMax with
    | none => some (v, -1, [])
    | some norm =>
        match fat32Stat v norm with
        | none => none
        | some (v, none) => some (v, -1, [])
        | some (v, some de) =>
            if de.isDir then some (v, -1, [])
            else
              match readClusters (min de.size maxBytes) fat32Fuel de.firstCluster v [] with
              | none => none
              | some (v, dst) => some (v, toInt32 dst.length, dst)

/-- The capacity of a chain, as the first loop of `fat32_write_file` adds it up. -/
def chainCapacity : Nat → Nat → Fat32 → Nat → Option (Fat32 × Nat)
  | 0, _, _, _ => none
  | fuel + 1, c, v, capacity =>
      if 2 ≤ c ∧ c < fat32Eoc then
        let next := fatNext v c
        chainCapacity fuel next.1 next.2 (wrap64 (capacity + v.geometry.sectorsPerCluster * v.geometry.bytesPerSector))
      else some (v, capacity)

/-- The sectors of a cluster that starts at `lba`, written from `src` at `done` on and with zeros behind its end. -/
def writeSectors (lba : Nat) (src : List UInt8) : List Nat → Fat32 → Nat → Fat32 × Nat
  | [], v, done => (v, done)
  | s :: ss, v, done =>
      let chunk := if done < src.length then min v.geometry.bytesPerSector (src.length - done) else 0
      let secBuf : Lib.Memory := fun i => if i < chunk then src.getD (done + i) 0 else 0
      writeSectors lba src ss { v with disk := ataWriteSector v.disk (wrap32 (lba + s)) secBuf } (done + chunk)

def writeClusters (src : List UInt8) : Nat → Nat → Fat32 → Nat → Option (Fat32 × Nat)
  | 0, _, _, _ => none
  | fuel + 1, cluster, v, done =>
      if 2 ≤ cluster ∧ cluster < fat32Eoc then
        let w := writeSectors (clusterToLba v.geometry cluster) src (List.range v.geometry.sectorsPerCluster) v done
        let next := fatNext w.1 cluster
        writeClusters src fuel next.1 next.2 w.2
      else some (v, done)

/-- The last step of `fat32_write_file`: the directory sector is read again, and the size put into it. -/
def updateFileSize (v : Fat32) (raw : RawEntry) (size : Nat) : Fat32 :=
  let v := v.load raw.lba
  let sector := v.sector.store (raw.entryOff + 28) 4 size
  { v with sector := sector, disk := ataWriteSector v.disk raw.lba sector }

def fat32WriteFile (v : Fat32) (path src : List UInt8) : Option (Fat32 × Int) :=
  if !v.ready then some (v, -1)
  else
    match fat32NormalizePath path fat32NameMax with
    | none => some (v, -1)
    | some norm =>
        match resolveParent v norm with
        | none => none
        | some (v, _, none) => some (v, -1)
        | some (v, parent, some leaf) =>
            if parent = 0 then some (v, -1)
            else
              match findEntryRaw v parent leaf with
              | none => none
              | some (v, none) => some (v, -1)
              | some (v, some raw) =>
                  if raw.out.attr &&& attrDir ≠ 0 then some (v, -1)
                  else if raw.out.firstCluster = 0 ∧ 0 < src.length then some (v, -1)
                  else
                    match chainCapacity fat32Fuel raw.out.firstCluster v 0 with
                    | none => none
                    | some (v, capacity) =>
                        if capacity < src.length then some (v, -1)
                        else
                          match writeClusters src fat32Fuel raw.out.firstCluster v 0 with
                          | none => none
                          | some (v, done) =>
                              if done ≠ src.length then some (v, -1) else some (updateFileSize v raw src.length, 0)

end Tsukasa
