import Tsukasa.Fs.Mount
import Tsukasa.Fs.VfsSim
import Tsukasa.Fs.WriteBounds
import Mathlib.Data.List.Find

/-!
# Files of the in-memory file system as byte arrays

The memfs branches of `fs/vfs.c`, against files that are byte arrays. The two answer alike as long as no write brings bytes of the buffer into the file that were never written: `memfs_truncate` leaves the bytes where they are, and a write behind the end of the file does not clear what lies between.
-/

namespace Tsukasa

open Lib (Memory overlay)

structure MemfsFs extends Memfs where
  /-- A call has not come back. -/
  hung : Bool

/-! ### The memfs branches -/

/-- `open_memfs_file`. -/
def openMemfsFile (m : Memfs) (subpath : List UInt8) (flags : BitVec 32) : Option (Opened Nat) × Memfs :=
  let name := subpath.dropWhile (· == slash)
  if name = [] then (none, m)
  else
    let (inode, m) :=
      match memfsOpen m name with
      | some inode => (some inode, m)
      | none => if flags &&& vfsOCreat ≠ 0 then memfsCreate m name else (none, m)
    match inode with
    | none => (none, m)
    | some inode =>
        let m := if flags &&& vfsOTrunc ≠ 0 then (memfsTruncate m inode).2 else m
        (some ⟨flagsToMode flags, false, if flags &&& vfsOAppend ≠ 0 then memfsSize m inode else 0, inode⟩, m)

/-- The inode of an open file; an entry without one is as it was allocated. -/
def VfsFile.inode (f : VfsFile Nat) : Nat :=
  match f.u with
  | .backed inode => inode
  | _ => 0

/-- The memfs branch of `vfs_write`; the doubling ends within 64 steps or never. -/
def writeMemfs (fs : MemfsFs) (f : VfsFile Nat) (src : List UInt8) : Nat × Nat × Bool × Nat × MemfsFs :=
  let pos := if f.flags &&& vfsOAppend ≠ 0 then memfsSize fs.toMemfs f.inode else f.pos
  match memfsWrite 64 fs.toMemfs f.inode pos (some fun i => src.getD i 0) src.length with
  | none => (0, pos, f.dirty, f.inode, { fs with hung := true })
  | some (w, m) => (w.ret, wrap64 (pos + w.ret), f.dirty, f.inode, { fs with toMemfs := m })

/-- memfs as `vfs.c` uses it, with the mounts' way from a path to it as a parameter. -/
def memfsBackends (resolve : Nat → List UInt8 → Option (VfsMount × List UInt8)) : Backends MemfsFs Nat where
  resolve _ := resolve
  openFile fs backend sub flags :=
    if backend = .memfs then let r := openMemfsFile fs.toMemfs sub flags; (r.1, { fs with toMemfs := r.2 }) else (none, fs)
  writeBack fs _ := (true, fs)
  readFile fs f count := let bytes := memfsRead fs.toMemfs f.inode f.pos count; (bytes, f.pos + bytes.length, fs)
  writeFile := writeMemfs

def memfsSizeOf (fs : MemfsFs) (f : VfsFile Nat) : Nat := memfsSize fs.toMemfs f.inode

/-! ### Byte arrays -/

/-- A file as it should be: an array of bytes under a name. -/
structure ByteFile where
  name : List UInt8
  bytes : List UInt8

abbrev ByteFiles := Nat → Option ByteFile

def ByteFiles.find (a : ByteFiles) (name : List UInt8) : Option Nat :=
  (List.range memfsMaxFiles).find? fun i => (a i).any fun file => file.name == name

/-- A new file is empty. -/
def ByteFiles.create (a : ByteFiles) (name : List UInt8) : Option Nat × ByteFiles :=
  match (List.range memfsMaxFiles).find? fun i => (a i).isNone with
  | none => (none, a)
  | some i => (some i, Function.update a i (some ⟨name.take (memfsMaxName - 1), []⟩))

def ByteFiles.size (a : ByteFiles) (i : Nat) : Nat := (a i).elim 0 fun file => file.bytes.length

/-- A file that is opened with `O_TRUNC` becomes empty. -/
def ByteFiles.open (a : ByteFiles) (subpath : List UInt8) (flags : BitVec 32) : Option (Opened Nat) × ByteFiles :=
  let name := subpath.dropWhile (· == slash)
  if name = [] then (none, a)
  else
    let (i, a) :=
      match a.find name with
      | some i => (some i, a)
      | none => if flags &&& vfsOCreat ≠ 0 then a.create name else (none, a)
    match i with
    | none => (none, a)
    | some i =>
        let a := if flags &&& vfsOTrunc ≠ 0 then Function.update a i ((a i).map fun file => { file with bytes := [] }) else a
        (some ⟨flagsToMode flags, false, if flags &&& vfsOAppend ≠ 0 then ByteFiles.size a i else 0, i⟩, a)

/-- The bytes of an array after a write: zeros up to the position, if it is behind the end, and the new bytes there. -/
def writeBytes (c : List UInt8) (pos : Nat) (src : List UInt8) : List UInt8 := overlay (c ++ List.replicate (pos - c.length) 0) pos src

def ByteFiles.write (a : ByteFiles) (f : VfsFile Nat) (src : List UInt8) : Nat × Nat × Bool × Nat × ByteFiles :=
  let pos := if f.flags &&& vfsOAppend ≠ 0 then a.size f.inode else f.pos
  match a f.inode with
  | none => (0, pos, f.dirty, f.inode, a)
  | some file =>
      (src.length, pos + src.length, f.dirty, f.inode, Function.update a f.inode (some { file with bytes := writeBytes file.bytes pos src }))

/-- Byte arrays behind the same descriptors. -/
def byteArrayBackends (resolve : Nat → List UInt8 → Option (VfsMount × List UInt8)) : Backends ByteFiles Nat where
  resolve _ := resolve
  openFile a backend sub flags := if backend = .memfs then a.open sub flags else (none, a)
  writeBack a _ := (true, a)
  readFile a f count := let bytes := (a f.inode).elim [] fun file => (file.bytes.drop f.pos).take count; (bytes, f.pos + bytes.length, a)
  writeFile := ByteFiles.write

/-! ### What an inode stands for -/

def MemfsInode.bytes (n : MemfsInode) : List UInt8 := (n.data.getD fun _ => 0).bytes 0 n.size

/-- The byte arrays that the inodes stand for. -/
def Memfs.files (m : Memfs) : ByteFiles := fun i => if memfsValid m i then some ⟨(m.inodes i).name, (m.inodes i).bytes⟩ else none

/-- The buffers fit, a null buffer has no capacity, and the allocations succeed. -/
structure MemfsSound (m : Memfs) : Prop where
  fits : m.Fits
  null : ∀ i, (m.inodes i).data = none → (m.inodes i).capacity = 0
  granted : ∀ n size, (m.heap n size).isSome = true

/-- The file system stands for the arrays. -/
def StandsFor (fs : MemfsFs) (a : ByteFiles) : Prop := MemfsSound fs.toMemfs ∧ fs.files = a

variable {fs : MemfsFs} {a : ByteFiles} {m : Memfs} {name : List UInt8} {i : Nat}

theorem files_of_lt (m : Memfs) (hi : i < memfsMaxFiles) : m.files i = if (m.inodes i).used then some ⟨(m.inodes i).name, (m.inodes i).bytes⟩ else none := by
  rw [Memfs.files, memfsValid, decide_eq_true hi, Bool.true_and]

theorem files_of_valid (h : memfsValid m i = true) : m.files i = some ⟨(m.inodes i).name, (m.inodes i).bytes⟩ := if_pos h

theorem find_files (m : Memfs) (name : List UInt8) : m.files.find name = memfsOpen m name := by
  rw [ByteFiles.find, memfsOpen]
  apply List.find?_congr
  intro i hi
  rw [files_of_lt m (List.mem_range.mp hi)]
  cases (m.inodes i).used <;> rfl

theorem size_files (m : Memfs) (i : Nat) : m.files.size i = memfsSize m i := by
  rw [ByteFiles.size, Memfs.files, memfsSize]
  split
  · simp [MemfsInode.bytes]
  · rfl

theorem valid_of_open (h : memfsOpen m name = some i) : memfsValid m i = true := by
  obtain ⟨hi, hused, -⟩ := memfsOpen_some h
  rw [memfsValid, decide_eq_true hi, hused]
  rfl

/-- Storing an inode in use changes its file and no other. -/
theorem files_setInode (m : Memfs) (hi : i < memfsMaxFiles) {n : MemfsInode} (hused : n.used = true) :
    (m.setInode i n).files = Function.update m.files i (some ⟨n.name, n.bytes⟩) := by
  funext j
  by_cases hj : j = i
  · rw [hj, files_of_lt _ hi, Memfs.setInode_self, hused, Function.update_self]
    rfl
  · rw [Function.update_of_ne hj, Memfs.files, Memfs.files, memfsValid, memfsValid, Memfs.setInode_of_ne m n hj]

theorem read_files (m : Memfs) (i pos count : Nat) : memfsRead m i pos count = (m.files i).elim [] fun file => (file.bytes.drop pos).take count := by
  rw [memfsRead, Memfs.files]
  cases memfsValid m i with
  | false => rfl
  | true =>
      simp only [Bool.not_true, Bool.false_eq_true, if_false, if_true, Option.elim_some, MemfsInode.bytes]
      split
      · rename_i hend
        rw [List.drop_eq_nil_of_le (by rw [Memory.length_bytes]; exact hend), List.take_nil]
      · rename_i hlt
        rw [Lib.bytes_drop, Nat.zero_add]
        by_cases hle : count ≤ (m.inodes i).size - pos
        · rw [Nat.min_eq_left hle, Lib.bytes_take _ _ hle]
        · rw [Nat.min_eq_right (by omega), List.take_of_length_le (by rw [Memory.length_bytes]; omega)]

/-! ### Opening -/

theorem MemfsSound.setInode (h : MemfsSound m) {n : MemfsInode} (hfits : n.toGrowBuffer.Fits) (hnull : n.data = none → n.capacity = 0) (i : Nat) :
    MemfsSound (m.setInode i n) where
  fits := h.fits.setInode hfits i
  null j hj := by
    by_cases hji : j = i
    · rw [hji, Memfs.setInode_self] at hj ⊢
      exact hnull hj
    · rw [Memfs.setInode_of_ne m n hji] at hj ⊢
      exact h.null j hj
  granted := h.granted

theorem memfsTruncate_files (hvalid : memfsValid m i = true) :
    (memfsTruncate m i).2.files = Function.update m.files i (some ⟨(m.inodes i).name, []⟩) := by
  have hused := hvalid
  rw [memfsValid, Bool.and_eq_true, decide_eq_true_eq] at hused
  rw [memfsTruncate, if_pos hvalid]
  exact files_setInode m hused.1 (n := { m.inodes i with size := 0 }) hused.2

theorem memfsTruncate_sound (h : MemfsSound m) (hvalid : memfsValid m i = true) : MemfsSound (memfsTruncate m i).2 ∧
    (memfsTruncate m i).2.files = Function.update m.files i ((m.files i).map fun file => { file with bytes := [] }) := by
  constructor
  · rw [memfsTruncate, if_pos hvalid]
    exact MemfsSound.setInode h (n := { m.inodes i with size := 0 }) ⟨Nat.zero_le _, (h.fits i).2⟩ (h.null i) i
  · rw [memfsTruncate_files hvalid, files_of_valid hvalid]
    rfl

theorem memfsCreate_sound (h : MemfsSound m) (hne : name ≠ []) (hopen : memfsOpen m name = none) : MemfsSound (memfsCreate m name).2 ∧
    (memfsCreate m name).1 = (m.files.create name).1 ∧ (memfsCreate m name).2.files = (m.files.create name).2 ∧
      ∀ i, (memfsCreate m name).1 = some i → memfsValid (memfsCreate m name).2 i = true := by
  have hfree : ((List.range memfsMaxFiles).find? fun i => (m.files i).isNone) = (List.range memfsMaxFiles).find? fun i => !(m.inodes i).used := by
    apply List.find?_congr
    intro i hi
    rw [files_of_lt m (List.mem_range.mp hi)]
    cases (m.inodes i).used <;> rfl
  rw [memfsCreate, if_neg hne, hopen, ByteFiles.create, hfree]
  cases hfind : (List.range memfsMaxFiles).find? fun i => !(m.inodes i).used with
  | none => exact ⟨h, rfl, rfl, fun i hi => by cases hi⟩
  | some i =>
      have hi := List.mem_range.mp (List.mem_of_find?_eq_some hfind)
      obtain ⟨block, hblock⟩ := Option.isSome_iff_exists.mp (h.granted 0 memfsInitCap)
      have hkmalloc : m.kmalloc memfsInitCap = (some block, { m with heap := fun n => m.heap (n + 1) }) := by rw [Memfs.kmalloc, hblock]
      have hshift : MemfsSound { m with heap := fun n => m.heap (n + 1) } := ⟨h.fits, h.null, fun n => h.granted (n + 1)⟩
      simp only [hkmalloc, Option.isSome_some, if_true]
      refine ⟨hshift.setInode ⟨Nat.zero_le _, (by decide : memfsInitCap < 2 ^ 64)⟩ (fun hnull => by cases hnull) i, trivial, ?_, ?_⟩
      · exact files_setInode _ hi rfl
      · rintro j hj
        cases hj
        rw [memfsValid, Memfs.setInode_self, decide_eq_true hi]
        rfl

/-- Looking a name up, or creating it. -/
theorem lookup_sound (h : MemfsSound m) (hne : name ≠ []) (flags : BitVec 32) :
    ∃ inode m', (match memfsOpen m name with
        | some inode => (some inode, m)
        | none => if flags &&& vfsOCreat ≠ 0 then memfsCreate m name else (none, m)) = (inode, m') ∧
      (match m.files.find name with
        | some i => (some i, m.files)
        | none => if flags &&& vfsOCreat ≠ 0 then m.files.create name else (none, m.files)) = (inode, m'.files) ∧
      MemfsSound m' ∧ ∀ i, inode = some i → memfsValid m' i = true := by
  rw [find_files]
  cases hopen : memfsOpen m name with
  | some i =>
      refine ⟨some i, m, rfl, rfl, h, fun j hj => ?_⟩
      cases hj
      exact valid_of_open hopen
  | none =>
      by_cases hcreat : flags &&& vfsOCreat ≠ 0
      · obtain ⟨hsound, hret, hfiles, hvalid⟩ := memfsCreate_sound h hne hopen
        refine ⟨(memfsCreate m name).1, (memfsCreate m name).2, if_pos hcreat, ?_, hsound, hvalid⟩
        rw [if_pos hcreat, hret, hfiles]
      · exact ⟨none, m, if_neg hcreat, if_neg hcreat, h, fun i hi => by cases hi⟩

theorem openMemfsFile_sound (h : MemfsSound m) (sub : List UInt8) (flags : BitVec 32) : MemfsSound (openMemfsFile m sub flags).2 ∧
    (openMemfsFile m sub flags).1 = (m.files.open sub flags).1 ∧ (openMemfsFile m sub flags).2.files = (m.files.open sub flags).2 := by
  rw [openMemfsFile, ByteFiles.open]
  generalize sub.dropWhile (· == slash) = name
  by_cases hne : name = []
  · rw [if_pos hne, if_pos hne]
    exact ⟨h, rfl, rfl⟩
  rw [if_neg hne, if_neg hne]
  obtain ⟨inode, m', hlookup, hlookup', hsound, hvalid⟩ := lookup_sound h hne flags
  rw [hlookup, hlookup']
  cases inode with
  | none => exact ⟨hsound, rfl, rfl⟩
  | some i =>
      simp only
      by_cases htrunc : flags &&& vfsOTrunc ≠ 0
      · obtain ⟨hempty, hfiles⟩ := memfsTruncate_sound hsound (hvalid i rfl)
        simp only [if_pos htrunc, ← size_files, hfiles]
        exact ⟨hempty, trivial, trivial⟩
      · simp only [if_neg htrunc, ← size_files]
        exact ⟨hsound, trivial, trivial⟩

/-! ### Writing -/

/-- What the buffer holds at an index when the bytes of a write are stored, for a write whose end is `needed`. -/
def bufferByte (m : Memfs) (n : MemfsInode) (needed x : Nat) : UInt8 :=
  if needed ≤ n.capacity then (n.data.getD fun _ => 0) x
  else ((Lib.doubleUntil 64 needed 64 (memfsGrowStart n)).bind (m.heap 0)).elim 0 fun block => block x

/-- Where a write through an open file starts. -/
def memfsWritePos (m : Memfs) (f : VfsFile Nat) : Nat := if f.flags &&& vfsOAppend ≠ 0 then memfsSize m f.inode else f.pos

/-- The write ends in the lower half of the words, and brings no byte into the file that is not zero, other than its own. -/
def GapClear (fs : MemfsFs) (f : VfsFile Nat) (src : List UInt8) : Prop :=
  memfsWritePos fs.toMemfs f + src.length < 2 ^ 63 ∧
    ∀ x, (fs.inodes f.inode).size ≤ x → x < memfsWritePos fs.toMemfs f →
      bufferByte fs.toMemfs (fs.inodes f.inode) (memfsWritePos fs.toMemfs f + src.length) x = 0

/-- Bytes stored over a buffer that is clear between its end and their position. -/
theorem bytes_storeLoop {d old : Memory} {size pos : Nat} {src : List UInt8} (hsum : pos + src.length ≤ 2 ^ 64) (hold : ∀ x < size, d x = old x)
    (hclear : ∀ x, size ≤ x → x < pos → d x = 0) :
    (storeLoop d pos src.length fun i => src.getD i 0).bytes 0 (max size (pos + src.length)) = writeBytes (old.bytes 0 size) pos src := by
  have hmax : max size (pos + src.length) = max (max size pos) (pos + src.length) := by omega
  have hzeros : d.bytes size (max size pos - size) = List.replicate (pos - size) 0 := by
    rw [List.eq_replicate_iff, Memory.length_bytes]
    refine ⟨by omega, fun byte hbyte => ?_⟩
    obtain ⟨k, hk, rfl⟩ := List.mem_map.mp hbyte
    rw [List.mem_range] at hk
    exact hclear _ (Nat.le_add_right _ _) (by omega)
  have hbuffer : d.bytes 0 (max size pos) = old.bytes 0 size ++ List.replicate (pos - size) 0 := by
    conv_lhs => rw [← Nat.add_sub_cancel' (Nat.le_max_left size pos)]
    rw [Lib.bytes_append, Nat.zero_add, hzeros, Memory.bytes_congr fun x _ hx => hold x (by omega)]
  rw [storeLoop_eq_blit d _ hsum, hmax, Lib.bytes_blit d (Nat.le_max_right _ _), hbuffer, writeBytes, Memory.length_bytes]

/-- A buffer that has been given room. -/
structure Roomy (m : Memfs) (n : MemfsInode) (needed : Nat) (g : Grown) : Prop where
  copied : g.copied ≠ none
  size : g.buffer.size = n.size
  room : needed ≤ g.buffer.capacity
  fits : g.buffer.Fits
  null : g.buffer.data = none → g.buffer.capacity = 0
  granted : ∀ k size, (g.heap k size).isSome = true
  kept : ∀ x < n.size, (g.buffer.data.getD fun _ => 0) x = (n.data.getD fun _ => 0) x
  behind : ∀ x, n.size ≤ x → (g.buffer.data.getD fun _ => 0) x = bufferByte m n needed x

theorem growBuffer_roomy (h : MemfsSound m) (i : Nat) {needed : Nat} (hneeded : needed < 2 ^ 63) :
    ∃ g, growBuffer 64 m.heap (memfsGrowStart (m.inodes i)) (m.inodes i).toGrowBuffer needed = some g ∧ Roomy m (m.inodes i) needed g := by
  obtain ⟨hsize, hsmall⟩ := h.fits i
  by_cases hroom : needed ≤ (m.inodes i).capacity
  · refine ⟨_, if_pos hroom, Option.some_ne_none _, rfl, hroom, h.fits i, h.null i, h.granted, fun _ _ => rfl, fun x _ => ?_⟩
    rw [bufferByte, if_pos hroom]
  · have hpos : 0 < memfsGrowStart (m.inodes i) := by
      rw [memfsGrowStart]
      split
      · decide
      · rw [wrap64, Nat.mod_eq_of_lt (by omega)]
        omega
    have hends : Lib.DoublingEnds 64 needed (memfsGrowStart (m.inodes i)) :=
      Lib.doublingEnds_of_le_half hpos (memfsGrowStart_lt (m.inodes i)) (by omega)
    obtain ⟨k, hdouble, -, hmet⟩ := Lib.doubleUntil_of_ends (memfsGrowStart_lt (m.inodes i)) hends le_rfl
    obtain ⟨block, hblock⟩ := Option.isSome_iff_exists.mp (h.granted 0 (Lib.doubled 64 (memfsGrowStart (m.inodes i)) k))
    have hblit : storeLoop block 0 (m.inodes i).size ((m.inodes i).data.getD fun _ => 0) =
        block.blit 0 (m.inodes i).size ((m.inodes i).data.getD fun _ => 0) := storeLoop_eq_blit block _ (by omega)
    refine ⟨⟨some (List.range (m.inodes i).size), ⟨some (storeLoop block 0 (m.inodes i).size ((m.inodes i).data.getD fun _ => 0)), (m.inodes i).size,
      Lib.doubled 64 (memfsGrowStart (m.inodes i)) k⟩, fun n => m.heap (n + 1)⟩, ?_, ?_⟩
    · simp only [growBuffer, if_neg hroom, hdouble, Option.map_some, hblock]
    · refine ⟨Option.some_ne_none _, rfl, hmet, ⟨by simp only; omega, Lib.doubled_lt _ _ _⟩, fun hnull => absurd hnull (Option.some_ne_none _),
        fun n => h.granted (n + 1), fun x hx => ?_, fun x hx => ?_⟩
      · simp only [Option.getD_some, hblit, Memory.blit]
        rw [if_pos (by omega), Nat.sub_zero]
      · simp only [Option.getD_some, hblit, bufferByte, if_neg hroom, hdouble, Option.bind_some, hblock, Option.elim_some]
        exact Memory.blit_apply_of_outside _ _ (Or.inr (by omega))

/-- The inode with the bytes of a write stored in the buffer it has then. -/
def storedInode (n : MemfsInode) (b : GrowBuffer) (pos : Nat) (src : List UInt8) : MemfsInode :=
  { n with toGrowBuffer := ⟨b.data.map fun data => storeLoop data pos src.length fun k => src.getD k 0, max n.size (pos + src.length), b.capacity⟩ }

theorem bytes_storedInode {n : MemfsInode} {g : Grown} {pos : Nat} {src : List UInt8} (hroomy : Roomy m n (pos + src.length) g)
    (hsum : pos + src.length < 2 ^ 63) (hclear : ∀ x, n.size ≤ x → x < pos → bufferByte m n (pos + src.length) x = 0) :
    (storedInode n g.buffer pos src).bytes = writeBytes n.bytes pos src := by
  cases hdata : g.buffer.data with
  | none =>
      have hempty := hroomy.null hdata
      have hroom := hroomy.room
      have hsize := hroomy.fits.1
      rw [hroomy.size] at hsize
      have hnil : src = [] := List.eq_nil_of_length_eq_zero (by omega)
      have hpos : pos = 0 := by omega
      have hnone : n.size = 0 := by omega
      simp [storedInode, MemfsInode.bytes, writeBytes, overlay, hnil, hpos, hnone, Memory.bytes]
  | some d =>
      have hkept := hroomy.kept
      have hbehind := hroomy.behind
      rw [hdata] at hkept hbehind
      rw [storedInode, MemfsInode.bytes, hdata]
      exact bytes_storeLoop (by omega) hkept fun x hx hxpos => (hbehind x hx).trans (hclear x hx hxpos)

/-- A write that has room and leaves no gap does to the file what it does to the array. -/
theorem memfsWrite_sound (h : MemfsSound m) (hvalid : memfsValid m i = true) {pos : Nat} {src : List UInt8} (hsum : pos + src.length < 2 ^ 63)
    (hclear : ∀ x, (m.inodes i).size ≤ x → x < pos → bufferByte m (m.inodes i) (pos + src.length) x = 0) :
    ∃ w m', memfsWrite 64 m i pos (some fun k => src.getD k 0) src.length = some (w, m') ∧ w.ret = src.length ∧ MemfsSound m' ∧
      m'.files = Function.update m.files i (some ⟨(m.inodes i).name, writeBytes (m.inodes i).bytes pos src⟩) := by
  obtain ⟨g, hgrow, hroomy⟩ := growBuffer_roomy h i hsum
  obtain ⟨copied, hcopied⟩ := Option.ne_none_iff_exists'.mp hroomy.copied
  have hwrap : wrap64 (pos + src.length) = pos + src.length := Nat.mod_eq_of_lt (by omega)
  have hlt : i < memfsMaxFiles ∧ (m.inodes i).used = true := by
    rw [memfsValid, Bool.and_eq_true, decide_eq_true_eq] at hvalid
    exact hvalid
  have hwrite : bufferWrite 64 m.heap (memfsGrowStart (m.inodes i)) (m.inodes i).toGrowBuffer pos (some fun k => src.getD k 0) src.length =
      some ⟨true, src.length, copied ++ storeIndices pos src.length, (storedInode (m.inodes i) g.buffer pos src).toGrowBuffer, g.heap⟩ := by
    rw [bufferWrite, hwrap, hgrow, Option.map_some]
    simp [hcopied, hroomy.size, storedInode]
  refine ⟨⟨true, src.length, copied ++ storeIndices pos src.length, (storedInode (m.inodes i) g.buffer pos src).toGrowBuffer, g.heap⟩,
    { m.setInode i (storedInode (m.inodes i) g.buffer pos src) with heap := g.heap }, ?_, rfl, ?_, ?_⟩
  · rw [memfsWrite, hvalid, Bool.not_true, if_neg Bool.false_ne_true, hwrite, Option.map_some]
    rfl
  · have hsize := hroomy.fits.1
    rw [hroomy.size] at hsize
    have hstored := MemfsSound.setInode h (n := storedInode (m.inodes i) g.buffer pos src) ⟨Nat.max_le.mpr ⟨hsize, hroomy.room⟩, hroomy.fits.2⟩
      (fun hnull => hroomy.null (Option.map_eq_none_iff.mp hnull)) i
    exact ⟨hstored.fits, hstored.null, hroomy.granted⟩
  · rw [← bytes_storedInode hroomy hsum hclear]
    exact files_setInode m hlt.1 (n := storedInode (m.inodes i) g.buffer pos src) hlt.2

/-! ### Runs -/

variable {resolve : Nat → List UInt8 → Option (VfsMount × List UInt8)}

/-- memfs and the byte arrays answer alike, to writes as long as they leave no gap. -/
theorem memfs_alike (resolve : Nat → List UInt8 → Option (VfsMount × List UInt8)) :
    Backends.Alike StandsFor GapClear (memfsBackends resolve) (byteArrayBackends resolve) where
  resolve _ _ _ := rfl
  openFile backend sub flags h := by
    obtain ⟨hsound, rfl⟩ := h
    by_cases hmemfs : backend = .memfs
    · obtain ⟨hafter, hopened, hfiles⟩ := openMemfsFile_sound hsound sub flags
      simp only [memfsBackends, byteArrayBackends, if_pos hmemfs]
      exact ⟨hopened, hafter, hfiles⟩
    · simp only [memfsBackends, byteArrayBackends, if_neg hmemfs]
      exact ⟨trivial, hsound, rfl⟩
  writeBack _ h := ⟨rfl, h⟩
  readFile f count h := by
    obtain ⟨hsound, rfl⟩ := h
    simp only [memfsBackends, byteArrayBackends, read_files]
    exact ⟨trivial, trivial, hsound, rfl⟩
  writeFile {fs a} f src h hok := by
    obtain ⟨hsound, rfl⟩ := h
    obtain ⟨hsum, hclear⟩ := hok
    have hpos : (if f.flags &&& vfsOAppend ≠ 0 then fs.files.size f.inode else f.pos) = memfsWritePos fs.toMemfs f := by
      rw [size_files, memfsWritePos]
    cases hvalid : memfsValid fs.toMemfs f.inode with
    | false =>
        have hnone : fs.files f.inode = none := by rw [Memfs.files, hvalid, if_neg Bool.false_ne_true]
        have hrefused : memfsWrite 64 fs.toMemfs f.inode (memfsWritePos fs.toMemfs f) (some fun k => src.getD k 0) src.length =
            some (⟨false, 0, [], (fs.inodes f.inode).toGrowBuffer, fs.heap⟩, fs.toMemfs) := by simp [memfsWrite, hvalid]
        have hsame : wrap64 (memfsWritePos fs.toMemfs f + 0) = memfsWritePos fs.toMemfs f := Nat.mod_eq_of_lt (by omega)
        refine ⟨0, memfsWritePos fs.toMemfs f, f.dirty, f.inode, fs, fs.files, ?_, ?_, hsound, rfl⟩
        · simp only [memfsBackends, writeMemfs]
          rw [← memfsWritePos, hrefused]
          simp only [hsame]
        · simp only [byteArrayBackends, ByteFiles.write, hpos, hnone]
    | true =>
        obtain ⟨w, m', hwrite, hret, hafter, hfiles⟩ := memfsWrite_sound hsound hvalid hsum hclear
        have hend : wrap64 (memfsWritePos fs.toMemfs f + src.length) = memfsWritePos fs.toMemfs f + src.length := Nat.mod_eq_of_lt (by omega)
        refine ⟨src.length, memfsWritePos fs.toMemfs f + src.length, f.dirty, f.inode, { fs with toMemfs := m' }, _, ?_, ?_, hafter, rfl⟩
        · simp only [memfsBackends, writeMemfs]
          rw [← memfsWritePos, hwrite]
          simp only [hret, hend]
        · simp only [byteArrayBackends, ByteFiles.write, hpos, files_of_valid hvalid, hfiles]

/-- The calls on open files, each by a process. -/
inductive DescriptorCall where
  | open (path : Option (List UInt8)) (flags : BitVec 32)
  | read (fd : Int) (count : Nat)
  | write (fd : Int) (src : List UInt8)
  | seek (fd : Int) (offset : Nat) (whence : Int)
  | close (fd : Int)

/-- What a call returns: a descriptor, bytes, or a size. -/
inductive CallResult where
  | fd (fd : Int)
  | bytes (bytes : List UInt8)
  | size (size : Nat)
  | done
  deriving DecidableEq

variable {φ ψ : Type}

def callStep (B : Backends φ Nat) (sizeOf : φ → VfsFile Nat → Nat) (s : Vfs φ Nat) (call : Nat × DescriptorCall) : CallResult × Vfs φ Nat :=
  match call with
  | (proc, .open path flags) => let r := vfsOpenFlags B s proc path flags; (.fd r.1, r.2)
  | (proc, .read fd count) => let r := vfsRead B s proc fd count; (.bytes r.1, r.2)
  | (proc, .write fd src) => let r := vfsWrite B s proc fd src; (.size r.1, r.2)
  | (proc, .seek fd offset whence) => let r := vfsSeek sizeOf s proc fd offset whence; (.size r.1, r.2)
  | (proc, .close fd) => (.done, vfsClose B s proc fd)

/-- The call is no write behind the end of a file, other than over bytes of the buffer that are zero. -/
def NoGap (s : Vfs MemfsFs Nat) (call : Nat × DescriptorCall) : Prop :=
  match call with
  | (proc, .write fd src) => Vfs.Over.WriteOk GapClear s proc fd src
  | _ => True

/-- Descriptors on memfs after the start, with these answers of `kmalloc`. -/
def memfsStart (heap : KmallocAnswers) (s : Vfs MemfsFs Nat) : Vfs MemfsFs Nat := { filePoolReset s with fs := ⟨memfsInit heap, false⟩ }

/-- Descriptors on byte arrays after the start. -/
def byteArrayStart (s : Vfs MemfsFs Nat) : Vfs ByteFiles Nat := ⟨(filePoolReset s).openFiles, (filePoolReset s).pipes, (filePoolReset s).fds, fun _ => none⟩

def byteArraySizeOf (a : ByteFiles) (f : VfsFile Nat) : Nat := a.size f.inode

/-- Along every run in which no write leaves a gap of old bytes, memfs returns what byte arrays return. -/
theorem memfs_refines_byte_arrays (resolve : Nat → List UInt8 → Option (VfsMount × List UInt8)) (heap : KmallocAnswers)
    (hgranted : ∀ n size, (heap n size).isSome = true) (s : Vfs MemfsFs Nat) (calls : List (Nat × DescriptorCall))
    (hnogap : Lib.Allowed NoGap (fun s call => (callStep (memfsBackends resolve) memfsSizeOf s call).2) (memfsStart heap s) calls) :
    Lib.outputs (callStep (memfsBackends resolve) memfsSizeOf) (memfsStart heap s) calls =
      Lib.outputs (callStep (byteArrayBackends resolve) byteArraySizeOf) (byteArrayStart s) calls := by
  have hB := memfs_alike resolve
  have hsize : ∀ {fs a} f, StandsFor fs a → memfsSizeOf fs f = byteArraySizeOf a f := by
    rintro fs a f ⟨-, rfl⟩
    exact (size_files fs.toMemfs f.inode).symm
  refine Lib.outputs_eq_of_simulation (R := Vfs.Over StandsFor) ?_ ?_ hnogap
  · rintro s t ⟨proc, call⟩ h hok
    cases call with
    | «open» path flags =>
        obtain ⟨hret, hover⟩ := h.openFlags hB proc path flags
        exact ⟨congrArg CallResult.fd hret, hover⟩
    | read fd count =>
        obtain ⟨hret, hover⟩ := h.read hB proc fd count
        exact ⟨congrArg CallResult.bytes hret, hover⟩
    | write fd src =>
        obtain ⟨hret, hover⟩ := h.write hB hok
        exact ⟨congrArg CallResult.size hret, hover⟩
    | seek fd offset whence =>
        obtain ⟨hret, hover⟩ := h.seek hsize proc fd offset whence
        exact ⟨congrArg CallResult.size hret, hover⟩
    | close fd => exact ⟨rfl, h.close hB proc fd⟩
  · refine ⟨rfl, rfl, rfl, ⟨memfsInit_fits heap, fun _ _ => rfl, hgranted⟩, ?_⟩
    change (memfsInit heap).files = fun _ => none
    funext i
    rw [Memfs.files, memfsValid, memfsInit, Bool.and_false, if_neg Bool.false_ne_true]

/-- `/tmp/a`, for every process and path. -/
def resolveA (_ : Nat) (_ : List UInt8) : Option (VfsMount × List UInt8) := some (⟨.memfs, false⟩, [47, 97])

/-- Blocks of zeros. -/
def zeroBlocks : KmallocAnswers := fun _ _ => some fun _ => 0

def unusedVfs : Vfs MemfsFs Nat := ⟨fun _ => freshFile, fun _ => ⟨false, fun _ => 0, 0, 0, 0, 0, 0⟩, fun _ => none, ⟨memfsInit zeroBlocks, false⟩⟩

/-- A file is written through one descriptor and truncated through another; then the first one goes on where it was. -/
def truncatedRun : List (Nat × DescriptorCall) :=
  [(0, .open (some [97]) 0xB#32), (0, .write 0 [1, 2, 3]), (0, .open (some [97]) 0x12#32), (0, .write 0 [4]), (0, .seek 0 0 0), (0, .read 0 9)]

theorem memfs_refines_byte_arrays_small :
    Lib.outputs (callStep (memfsBackends resolveA) memfsSizeOf) (memfsStart zeroBlocks unusedVfs) (truncatedRun.take 2) =
      Lib.outputs (callStep (byteArrayBackends resolveA) byteArraySizeOf) (byteArrayStart unusedVfs) (truncatedRun.take 2) := by
  refine memfs_refines_byte_arrays resolveA zeroBlocks (fun _ _ => rfl) unusedVfs (truncatedRun.take 2) ⟨trivial, ?_, trivial⟩
  intro i hi _ _
  have hfirst : fdLookup (vfsOpenFlags (memfsBackends resolveA) (memfsStart zeroBlocks unusedVfs) 0 (some [97]) 0xB#32).2 0 0 = some 0 := by
    decide +kernel
  obtain rfl : 0 = i := Option.some.inj (hfirst.symm.trans hi)
  exact ⟨by decide +kernel, fun x _ hx => absurd hx (Nat.not_lt_zero x)⟩

/-- The bytes from before the truncation are read again. -/
theorem memfs_keeps_old_bytes :
    ¬∀ (resolve : Nat → List UInt8 → Option (VfsMount × List UInt8)) (heap : KmallocAnswers) (s : Vfs MemfsFs Nat) (calls : List (Nat × DescriptorCall)),
      (∀ n size, (heap n size).isSome = true) → Lib.outputs (callStep (memfsBackends resolve) memfsSizeOf) (memfsStart heap s) calls =
        Lib.outputs (callStep (byteArrayBackends resolve) byteArraySizeOf) (byteArrayStart s) calls := by
  intro hall
  exact absurd (hall resolveA zeroBlocks unusedVfs truncatedRun fun _ _ => rfl) (by decide +kernel)

end Tsukasa
