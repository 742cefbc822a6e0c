import Mathlib.Logic.Function.Basic
import Mathlib.Data.BitVec

/-!
# Open files, descriptors and pipes

The core of `fs/vfs.c`: the pool of open-file entries, the pool of pipes, the per-process descriptor tables, and the calls that move references between them. A pointer into a pool is an index, and a descriptor table is a row of `fds`, row 0 being the kernel's own table and row `k + 1` that of process slot `k`.

The file systems behind the mounts are a parameter, `Backends`: path resolution, opening, and the reads and writes of files that are not pipes go through it. A call with a null buffer does nothing and is left out. The heap blocks of buffered files are part of what a backend keeps.
-/

namespace Tsukasa

def vfsMaxOpenGlobal : Nat := 128
def vfsMaxPipes : Nat := 16
def vfsPipeCapacity : Nat := 4096
def processMaxOpenFiles : Nat := 32

def vfsORdonly : BitVec 32 := 0x0001#32
def vfsOWronly : BitVec 32 := 0x0002#32
def vfsOAppend : BitVec 32 := 0x0004#32
def vfsOCreat : BitVec 32 := 0x0008#32
def vfsOTrunc : BitVec 32 := 0x0010#32

def vfsModeRead : BitVec 32 := 0x01#32
def vfsModeWrite : BitVec 32 := 0x02#32

inductive VfsBackend where
  | none
  | initrd
  | fat12
  | memfs
  | fat32
  | procfs
  | sysfs
  | bootfs
  | devfs
  | pipe
  deriving DecidableEq

structure VfsPipe where
  used : Bool
  data : Nat → UInt8
  readPos : Nat
  writePos : Nat
  size : Nat
  readers : Nat
  writers : Nat

/-- The union of `vfs_file_t`. `β` is what the backends other than pipes keep for an open file. -/
inductive FileUnion (β : Type) where
  | zeroed
  | backed (data : β)
  | pipe (pipe : Nat) (canRead canWrite : Bool)

structure VfsFile (β : Type) where
  used : Bool
  refcount : Nat
  flags : BitVec 32
  mode : BitVec 32
  dirty : Bool
  backend : VfsBackend
  pos : Nat
  path : List UInt8
  u : FileUnion β

structure VfsMount where
  backend : VfsBackend
  readOnly : Bool

/-- What the branch of a backend writes into the entry that `vfs_open_flags` has allocated. -/
structure Opened (β : Type) where
  mode : BitVec 32
  dirty : Bool
  pos : Nat
  data : β

/-- The file systems as `vfs.c` uses them. `φ` is their joint state. -/
structure Backends (φ β : Type) where
  /-- `normalize_path_for_process`, `mount_lookup` and `mount_subpath`, for the process of a descriptor table. -/
  resolve : φ → Nat → List UInt8 → Option (VfsMount × List UInt8)
  openFile : φ → VfsBackend → List UInt8 → BitVec 32 → Option (Opened β) × φ
  /-- The write of `flush_regular_file`: does it succeed? -/
  writeBack : φ → VfsFile β → Bool × φ
  /-- A read from a file that is no pipe: the bytes and the new position. -/
  readFile : φ → VfsFile β → Nat → List UInt8 × Nat × φ
  /-- A write to a file that is no pipe: the count, and the new position, dirty flag and data. -/
  writeFile : φ → VfsFile β → List UInt8 → Nat × Nat × Bool × β × φ

structure Vfs (φ β : Type) where
  openFiles : Nat → VfsFile β
  pipes : Nat → VfsPipe
  fds : Nat × Nat → Option Nat
  fs : φ

variable {φ β : Type}

namespace Vfs

def setFile (s : Vfs φ β) (i : Nat) (f : VfsFile β) : Vfs φ β := { s with openFiles := Function.update s.openFiles i f }

def setPipe (s : Vfs φ β) (p : Nat) (pipe : VfsPipe) : Vfs φ β := { s with pipes := Function.update s.pipes p pipe }

def setFd (s : Vfs φ β) (proc fd : Nat) (entry : Option Nat) : Vfs φ β :=
  { s with fds := Function.update s.fds (proc, fd) entry }

end Vfs

def fdValid (fd : Int) : Bool := decide (0 ≤ fd) && decide (fd < processMaxOpenFiles)

def flagsToMode (flags : BitVec 32) : BitVec 32 :=
  let hasRd := decide (flags &&& vfsORdonly ≠ 0)
  let hasWr := decide (flags &&& vfsOWronly ≠ 0)
  let hasRd := if !hasRd && !hasWr then true else hasRd
  let mode := 0#32
  let mode := if hasRd then mode ||| vfsModeRead else mode
  if hasWr then mode ||| vfsModeWrite else mode

/-! ### The pools -/

/-- The state `file_pool_reset` leaves, with empty process tables. -/
def filePoolReset (s : Vfs φ β) : Vfs φ β where
  openFiles i := { s.openFiles i with used := false, refcount := 0 }
  pipes p := { s.pipes p with used := false, readPos := 0, writePos := 0, size := 0, readers := 0, writers := 0 }
  fds _ := none
  fs := s.fs

def freshFile : VfsFile β where
  used := true
  refcount := 1
  flags := 0#32
  mode := 0#32
  dirty := false
  backend := .none
  pos := 0
  path := []
  u := .zeroed

def fileAlloc (s : Vfs φ β) : Option Nat × Vfs φ β :=
  match (List.range vfsMaxOpenGlobal).find? fun i => !(s.openFiles i).used with
  | some i => (some i, s.setFile i freshFile)
  | none => (none, s)

def pipeAlloc (s : Vfs φ β) : Option Nat × Vfs φ β :=
  match (List.range vfsMaxPipes).find? fun p => !(s.pipes p).used with
  | some p =>
      (some p, s.setPipe p { s.pipes p with used := true, readPos := 0, writePos := 0, size := 0, readers := 0, writers := 0 })
  | none => (none, s)

def flushRegularFile (B : Backends φ β) (s : Vfs φ β) (i : Nat) : Vfs φ β :=
  let f := s.openFiles i
  if !f.dirty then s
  else if f.mode &&& vfsModeWrite = 0 then s
  else if f.backend = .fat12 ∨ f.backend = .fat32 then
    let (ok, fs) := B.writeBack s.fs f
    if ok then { s.setFile i { f with dirty := false } with fs := fs } else { s with fs := fs }
  else s.setFile i { f with dirty := false }

/-- The pipe part of `file_release`: one end of the pipe goes away. -/
def dropEnd (pipe : VfsPipe) (canRead canWrite : Bool) : VfsPipe :=
  let pipe := if canRead && decide (0 < pipe.readers) then { pipe with readers := pipe.readers - 1 } else pipe
  let pipe := if canWrite && decide (0 < pipe.writers) then { pipe with writers := pipe.writers - 1 } else pipe
  if pipe.readers = 0 ∧ pipe.writers = 0 then { pipe with used := false } else pipe

def fileRelease (B : Backends φ β) (s : Vfs φ β) (i : Nat) : Vfs φ β :=
  let f := s.openFiles i
  if !f.used then s
  else if 1 < f.refcount then s.setFile i { f with refcount := f.refcount - 1 }
  else
    let s := flushRegularFile B s i
    let s :=
      match f.backend, f.u with
      | .pipe, .pipe p canRead canWrite => s.setPipe p (dropEnd (s.pipes p) canRead canWrite)
      | _, _ => s
    s.setFile i { s.openFiles i with used := false, refcount := 0 }

/-! ### Descriptors -/

def processFdAlloc (s : Vfs φ β) (proc : Nat) : Option Nat :=
  (List.range processMaxOpenFiles).find? fun fd => (s.fds (proc, fd)).isNone

/-- `fd_lookup` and `fd_lookup_on_table`. -/
def fdLookup (s : Vfs φ β) (proc : Nat) (fd : Int) : Option Nat :=
  if fdValid fd then s.fds (proc, fd.toNat) else none

def fdCloseOnTable (B : Backends φ β) (s : Vfs φ β) (proc : Nat) (fd : Int) : Vfs φ β :=
  match fdLookup s proc fd with
  | none => s
  | some i => fileRelease B (s.setFd proc fd.toNat none) i

def vfsClose (B : Backends φ β) (s : Vfs φ β) (proc : Nat) (fd : Int) : Vfs φ β := fdCloseOnTable B s proc fd

/-- Taking one more reference to an entry: `f->refcount++`. -/
def Vfs.addRef (s : Vfs φ β) (i : Nat) : Vfs φ β :=
  s.setFile i { s.openFiles i with refcount := (s.openFiles i).refcount + 1 }

/-! ### Opening -/

def vfsOpenFlags (B : Backends φ β) (s : Vfs φ β) (proc : Nat) (path : Option (List UInt8)) (flags : BitVec 32) :
    Int × Vfs φ β :=
  match path.bind (B.resolve s.fs proc) with
  | none => (-1, s)
  | some (m, sub) =>
      if m.readOnly && (decide (flags &&& vfsOWronly ≠ 0) || decide (flags &&& vfsOCreat ≠ 0) || decide (flags &&& vfsOTrunc ≠ 0))
      then (-1, s)
      else
        match fileAlloc s with
        | (none, s) => (-1, s)
        | (some i, s) =>
            let s := s.setFile i { s.openFiles i with flags := flags, mode := flagsToMode flags, path := sub }
            if m.backend = .none ∨ m.backend = .pipe then (-1, fileRelease B s i)
            else
              match B.openFile s.fs m.backend sub flags with
              | (none, fs) => (-1, fileRelease B { s with fs := fs } i)
              | (some opened, fs) =>
                  let s := { s with fs := fs }
                  let s := s.setFile i { s.openFiles i with
                    backend := m.backend, mode := opened.mode, dirty := opened.dirty, pos := opened.pos, u := .backed opened.data }
                  match processFdAlloc s proc with
                  | none => (-1, fileRelease B s i)
                  | some fd => (fd, s.setFd proc fd (some i))

/-! ### Duplicating -/

def vfsDup (s : Vfs φ β) (proc : Nat) (oldfd : Int) : Int × Vfs φ β :=
  match fdLookup s proc oldfd, processFdAlloc s proc with
  | some i, some newfd => (newfd, (s.addRef i).setFd proc newfd (some i))
  | _, _ => (-1, s)

def vfsDup2 (B : Backends φ β) (s : Vfs φ β) (proc : Nat) (oldfd newfd : Int) : Int × Vfs φ β :=
  match fdLookup s proc oldfd with
  | none => (-1, s)
  | some i =>
      if !fdValid newfd then (-1, s)
      else if oldfd = newfd then (newfd, s)
      else (newfd, ((fdCloseOnTable B s proc newfd).addRef i).setFd proc newfd.toNat (some i))

def vfsProcessDup2 (B : Backends φ β) (s : Vfs φ β) (dst : Nat) (dstFd : Int) (src : Nat) (srcFd : Int) : Int × Vfs φ β :=
  if !fdValid dstFd || !fdValid srcFd then (-1, s)
  else
    match fdLookup s src srcFd with
    | none => (-1, s)
    | some i => (0, ((fdCloseOnTable B s dst dstFd).addRef i).setFd dst dstFd.toNat (some i))

/-- The loop of `vfs_process_cleanup`, and the first loop of `vfs_process_inherit`. -/
def closeAll (B : Backends φ β) (s : Vfs φ β) (proc : Nat) : Vfs φ β :=
  (List.range processMaxOpenFiles).foldl (fun s (fd : Nat) => fdCloseOnTable B s proc fd) s

def vfsProcessCleanup (B : Backends φ β) (s : Vfs φ β) (proc : Nat) : Vfs φ β := closeAll B s proc

/-- The second loop of `vfs_process_inherit`. -/
def inheritAll (s : Vfs φ β) (dst src : Nat) : Vfs φ β :=
  (List.range processMaxOpenFiles).foldl (fun s fd =>
    match s.fds (src, fd) with
    | none => s
    | some i => (s.addRef i).setFd dst fd (some i)) s

def vfsProcessInherit (B : Backends φ β) (s : Vfs φ β) (dst : Nat) (src : Option Nat) : Vfs φ β :=
  match src with
  | none => closeAll B s dst
  | some src => inheritAll (closeAll B s dst) dst src

/-! ### Pipes -/

/-- What stands for `(void *)1` in a reserved slot: an index past the pool. -/
def reservedEntry : Nat := vfsMaxOpenGlobal

/-- The part of `vfs_pipe` that works on the pools: the pipe and its two entries, or `none` with everything given back. -/
def makePipe (B : Backends φ β) (s : Vfs φ β) : Option (Nat × Nat) × Vfs φ β :=
  let (p, s) := pipeAlloc s
  let (fr, s) := fileAlloc s
  let (fw, s) := fileAlloc s
  match p, fr, fw with
  | some p, some fr, some fw =>
      let s := s.setFile fr { s.openFiles fr with
        backend := .pipe, mode := vfsModeRead, flags := vfsORdonly, u := .pipe p true false }
      let s := s.setFile fw { s.openFiles fw with
        backend := .pipe, mode := vfsModeWrite, flags := vfsOWronly, u := .pipe p false true }
      (some (fr, fw), s.setPipe p { s.pipes p with readers := 1, writers := 1 })
  | p, fr, fw =>
      let s := fr.elim s (fileRelease B s)
      let s := fw.elim s (fileRelease B s)
      (none, p.elim s fun p => s.setPipe p { s.pipes p with used := false })

/-- `vfs_pipe`: the read and the write descriptor, or `none` on failure. -/
def vfsPipe (B : Backends φ β) (s : Vfs φ β) (proc : Nat) : Option (Nat × Nat) × Vfs φ β :=
  match processFdAlloc s proc with
  | none => (none, s)
  | some fdR =>
      let s := s.setFd proc fdR (some reservedEntry)
      match processFdAlloc s proc with
      | none => (none, s.setFd proc fdR none)
      | some fdW =>
          match makePipe B (s.setFd proc fdW (some reservedEntry)) with
          | (some (fr, fw), s) => (some (fdR, fdW), (s.setFd proc fdR (some fr)).setFd proc fdW (some fw))
          | (none, s) => (none, (s.setFd proc fdR none).setFd proc fdW none)

/-- The loop of the pipe branch of `vfs_read`: the bytes taken and the pipe after it. -/
def pipeRead : Nat → VfsPipe → List UInt8 × VfsPipe
  | 0, pipe => ([], pipe)
  | count + 1, pipe =>
      if 0 < pipe.size then
        let (bytes, pipe') :=
          pipeRead count { pipe with readPos := (pipe.readPos + 1) % vfsPipeCapacity, size := pipe.size - 1 }
        (pipe.data pipe.readPos :: bytes, pipe')
      else ([], pipe)

/-- The loop of the pipe branch of `vfs_write`: the number of bytes accepted and the pipe after it. -/
def pipeWrite : List UInt8 → VfsPipe → Nat × VfsPipe
  | [], pipe => (0, pipe)
  | byte :: src, pipe =>
      if pipe.size < vfsPipeCapacity then
        let (wr, pipe') := pipeWrite src { pipe with
          data := Function.update pipe.data pipe.writePos byte
          writePos := (pipe.writePos + 1) % vfsPipeCapacity
          size := pipe.size + 1 }
        (wr + 1, pipe')
      else (0, pipe)

/-! ### Reading and writing -/

/-- `vfs_read` into a buffer of `count` bytes: the bytes it stores there. -/
def vfsRead (B : Backends φ β) (s : Vfs φ β) (proc : Nat) (fd : Int) (count : Nat) : List UInt8 × Vfs φ β :=
  match fdLookup s proc fd with
  | none => ([], s)
  | some i =>
      let f := s.openFiles i
      if f.mode &&& vfsModeRead = 0 then ([], s)
      else if f.backend = .pipe then
        match f.u with
        | .pipe p canRead _ =>
            if canRead then
              let (bytes, pipe) := pipeRead count (s.pipes p)
              (bytes, s.setPipe p pipe)
            else ([], s)
        | _ => ([], s)
      else
        let (bytes, pos, fs) := B.readFile s.fs f count
        (bytes, { s.setFile i { f with pos := pos } with fs := fs })

/-- `vfs_write` of the bytes of a buffer: how many it accepts. -/
def vfsWrite (B : Backends φ β) (s : Vfs φ β) (proc : Nat) (fd : Int) (src : List UInt8) : Nat × Vfs φ β :=
  match fdLookup s proc fd with
  | none => (0, s)
  | some i =>
      let f := s.openFiles i
      if f.mode &&& vfsModeWrite = 0 then (0, s)
      else if f.backend = .pipe then
        match f.u with
        | .pipe p _ canWrite =>
            if canWrite && decide ((s.pipes p).readers ≠ 0) then
              let (wr, pipe) := pipeWrite src (s.pipes p)
              (wr, s.setPipe p pipe)
            else (0, s)
        | _ => (0, s)
      else
        let (wr, pos, dirty, data, fs) := B.writeFile s.fs f src
        (wr, { s.setFile i { f with pos := pos, dirty := dirty, u := .backed data } with fs := fs })

end Tsukasa
