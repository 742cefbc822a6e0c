import Tsukasa.Fs.Fat12Fail
import Tsukasa.Fs.Fat32Empty
import Tsukasa.Fs.FatClose
import Tsukasa.Fs.MemfsFiles

/-!
# An open that fails

`vfs_open_flags` lets the backend create and truncate before it looks for a descriptor. When the table is full, what it has created stays, what it has truncated in memfs stays so, and the release of the entry flushes the truncation of a FAT32 file to the disk. A call that fails before the backend has an entry to hand on changes nothing.
-/

namespace Tsukasa

open Lib (Memory)

section calls

variable {φ β : Type} {B : Backends φ β} {s : Vfs φ β} {i proc : Nat} {path : Option (List UInt8)} {flags : BitVec 32} {m : VfsMount} {sub : List UInt8}

/-! ### How far an open gets -/

/-- The file systems once an entry has been flushed. -/
def flushedFs (B : Backends φ β) (fs : φ) (f : VfsFile β) : φ :=
  if f.dirty = true ∧ f.mode &&& vfsModeWrite ≠ 0 ∧ (f.backend = .fat12 ∨ f.backend = .fat32) then (B.writeBack fs f).2 else fs

theorem flushRegularFile_fs (B : Backends φ β) (s : Vfs φ β) (i : Nat) : (flushRegularFile B s i).fs = flushedFs B s.fs (s.openFiles i) := by
  rw [flushRegularFile, flushedFs]
  simp only
  split
  · rename_i hclean
    rw [if_neg fun h => by simp [h.1] at hclean]
  rename_i hdirty
  split
  · rename_i hreadOnly
    rw [if_neg fun h => h.2.1 hreadOnly]
  rename_i hmode
  split
  · rename_i hfat
    have hflushed : (s.openFiles i).dirty = true ∧ (s.openFiles i).mode &&& vfsModeWrite ≠ 0 ∧
        ((s.openFiles i).backend = .fat12 ∨ (s.openFiles i).backend = .fat32) := ⟨by simpa using hdirty, hmode, hfat⟩
    rw [if_pos hflushed]
    split
    · rfl
    · rfl
  · rename_i hfat
    rw [if_neg fun h => hfat h.2.2]
    rfl

/-- The release of the only reference to an entry flushes it. -/
theorem fileRelease_fs (B : Backends φ β) (hused : (s.openFiles i).used = true) (hlast : ¬ 1 < (s.openFiles i).refcount) :
    (fileRelease B s i).fs = flushedFs B s.fs (s.openFiles i) := by
  rw [← flushRegularFile_fs]
  simp only [fileRelease, hused, Bool.not_true, Bool.false_eq_true, if_false, hlast]
  split
  · rfl
  · rfl

/-- The entry that `vfs_open_flags` has filled in when it looks for a descriptor. -/
def filledEntry (m : VfsMount) (sub : List UInt8) (flags : BitVec 32) (o : Opened β) : VfsFile β :=
  { (freshFile : VfsFile β) with
    flags := flags, mode := o.mode, dirty := o.dirty, backend := m.backend, pos := o.pos, path := sub, u := .backed o.data }

/-- The path leads to a mount that allows the flags, and there is an open-file entry: the call gets to the backend. -/
structure Reaches (B : Backends φ β) (s : Vfs φ β) (proc : Nat) (path : Option (List UInt8)) (flags : BitVec 32) (m : VfsMount) (sub : List UInt8) :
    Prop where
  resolved : path.bind (B.resolve s.fs proc) = some (m, sub)
  allowed : m.readOnly = true → flags &&& vfsOWronly = 0 ∧ flags &&& vfsOCreat = 0 ∧ flags &&& vfsOTrunc = 0
  entry : ∃ i < vfsMaxOpenGlobal, (s.openFiles i).used = false
  backend : m.backend ≠ .none ∧ m.backend ≠ .pipe

/-- The process has no free descriptor. -/
def TableFull (s : Vfs φ β) (proc : Nat) : Prop := ∀ fd < processMaxOpenFiles, s.fds (proc, fd) ≠ none

theorem processFdAlloc_eq_none : processFdAlloc s proc = none ↔ TableFull s proc := by
  constructor
  · intro hnone fd hfd hfree
    obtain ⟨j, hj⟩ := processFdAlloc_succeeds hfd hfree
    rw [hnone] at hj
    cases hj
  · intro hfull
    cases halloc : processFdAlloc s proc with
    | none => rfl
    | some fd =>
        obtain ⟨hfd, hfree⟩ := processFdAlloc_eq_some halloc
        exact absurd hfree (hfull fd hfd)

/-- A call that does not get to the backend fails and leaves the file systems alone. -/
theorem vfsOpenFlags_of_not_reaches (hnot : ∀ m sub, ¬ Reaches B s proc path flags m sub) :
    ∃ s', vfsOpenFlags B s proc path flags = (-1, s') ∧ s'.fs = s.fs := by
  rw [vfsOpenFlags]
  split
  · exact ⟨s, rfl, rfl⟩
  rename_i m sub hresolved
  split
  · exact ⟨s, rfl, rfl⟩
  rename_i hallowed
  rcases fileAlloc_cases s with ⟨i, hi, hunused, halloc⟩ | halloc
  · rw [halloc]
    simp only
    split
    · refine ⟨_, rfl, ?_⟩
      rw [fileRelease_fs B (by simp [Vfs.setFile, freshFile]) (by simp [Vfs.setFile, freshFile]), flushedFs, if_neg (by simp [Vfs.setFile, freshFile])]
      rfl
    · rename_i hbackend
      refine absurd ⟨hresolved, fun hreadOnly => ?_, ⟨i, hi, hunused⟩, not_or.mp hbackend⟩ (hnot m sub)
      simpa [hreadOnly, and_assoc] using hallowed
  · rw [halloc]
    exact ⟨s, rfl, rfl⟩

/-- The three ways a call goes on from the backend. -/
theorem Reaches.cases (h : Reaches B s proc path flags m sub) :
    ((B.openFile s.fs m.backend sub flags).1 = none ∧
      ∃ s', vfsOpenFlags B s proc path flags = (-1, s') ∧ s'.fs = (B.openFile s.fs m.backend sub flags).2) ∨
    ∃ o, (B.openFile s.fs m.backend sub flags).1 = some o ∧
      (TableFull s proc ∧ (∃ s', vfsOpenFlags B s proc path flags = (-1, s') ∧
          s'.fs = flushedFs B (B.openFile s.fs m.backend sub flags).2 (filledEntry m sub flags o)) ∨
        ¬ TableFull s proc ∧ 0 ≤ (vfsOpenFlags B s proc path flags).1) := by
  obtain ⟨i, hi, hunused⟩ := h.entry
  obtain ⟨j, halloc⟩ := fileAlloc_succeeds hi hunused
  have hallowed : ¬ (m.readOnly &&
      (decide (flags &&& vfsOWronly ≠ 0) || decide (flags &&& vfsOCreat ≠ 0) || decide (flags &&& vfsOTrunc ≠ 0))) = true := by
    simpa [and_assoc] using h.allowed
  rw [vfsOpenFlags, h.resolved]
  simp only [if_neg hallowed, halloc, if_neg (not_or.mpr h.backend)]
  rw [show ((s.setFile j freshFile).setFile j { (s.setFile j freshFile).openFiles j with flags := flags, mode := flagsToMode flags, path := sub }).fs =
    s.fs from rfl]
  rcases hopened : B.openFile s.fs m.backend sub flags with ⟨opened, fs⟩
  cases opened with
  | none =>
      refine Or.inl ⟨rfl, _, rfl, ?_⟩
      rw [fileRelease_fs B (by simp [Vfs.setFile, freshFile]) (by simp [Vfs.setFile, freshFile]), flushedFs, if_neg (by simp [Vfs.setFile, freshFile])]
  | some o =>
      refine Or.inr ⟨o, rfl, ?_⟩
      simp only [Vfs.setFile, Function.update_self, Function.update_idem]
      -- the entry is complete when the call looks for a descriptor
      have hfilled : (⟨freshFile.used, freshFile.refcount, flags, o.mode, o.dirty, m.backend, o.pos, sub, .backed o.data⟩ : VfsFile β) =
        filledEntry m sub flags o := rfl
      rw [hfilled]
      cases hfd : processFdAlloc ⟨Function.update s.openFiles j (filledEntry m sub flags o), s.pipes, s.fds, fs⟩ proc with
      | none =>
          refine Or.inl ⟨processFdAlloc_eq_none.mp hfd, _, rfl, ?_⟩
          have hentry : Function.update s.openFiles j (filledEntry m sub flags o) j = filledEntry m sub flags o := Function.update_self ..
          rw [fileRelease_fs B (by simp only [hentry]; rfl) (by simp only [hentry]; exact Nat.lt_irrefl 1)]
          simp only [hentry]
      | some fd =>
          have hfree := processFdAlloc_eq_some hfd
          exact Or.inr ⟨fun hfull => hfull fd hfree.1 hfree.2, Int.natCast_nonneg fd⟩

/-- A failing call keeps a relation when the backend keeps it in a failure of its own, and else the flush of the entry when there is no descriptor. -/
theorem failing_open_iff {P : φ → φ → Prop} (hrefl : ∀ fs, P fs fs) :
    (∀ s', vfsOpenFlags B s proc path flags = (-1, s') → P s.fs s'.fs) ↔
      ∀ m sub, Reaches B s proc path flags m sub →
        ((B.openFile s.fs m.backend sub flags).1 = none → P s.fs (B.openFile s.fs m.backend sub flags).2) ∧
          ∀ o, (B.openFile s.fs m.backend sub flags).1 = some o → TableFull s proc →
            P s.fs (flushedFs B (B.openFile s.fs m.backend sub flags).2 (filledEntry m sub flags o)) := by
  constructor
  · intro hspares m sub hreach
    rcases hreach.cases with ⟨hnone, s', hcall, hfs⟩ | ⟨o, hsome, ⟨hfull, s', hcall, hfs⟩ | ⟨hroom, -⟩⟩
    · refine ⟨fun _ => hfs ▸ hspares s' hcall, fun o hsome => ?_⟩
      rw [hnone] at hsome
      cases hsome
    · refine ⟨fun hnone => ?_, fun o' hsome' _ => ?_⟩
      · rw [hnone] at hsome
        cases hsome
      · obtain rfl : o = o' := Option.some.inj (hsome.symm.trans hsome')
        exact hfs ▸ hspares s' hcall
    · refine ⟨fun hnone => ?_, fun _ _ hfull => absurd hfull hroom⟩
      rw [hnone] at hsome
      cases hsome
  · intro hbackend s' hcall
    by_cases hreach : ∃ m sub, Reaches B s proc path flags m sub
    · obtain ⟨m, sub, hreach⟩ := hreach
      obtain ⟨hfailed, hopened⟩ := hbackend m sub hreach
      rcases hreach.cases with ⟨hnone, t, ht, hfs⟩ | ⟨o, hsome, ⟨hfull, t, ht, hfs⟩ | ⟨-, hfd⟩⟩
      · obtain ⟨-, rfl⟩ := Prod.mk.inj (ht.symm.trans hcall)
        exact hfs ▸ hfailed hnone
      · obtain ⟨-, rfl⟩ := Prod.mk.inj (ht.symm.trans hcall)
        exact hfs ▸ hopened o hsome hfull
      · rw [hcall] at hfd
        exact absurd hfd (not_le.mpr (Int.negSucc_lt_zero 0))
    · obtain ⟨t, ht, hfs⟩ := vfsOpenFlags_of_not_reaches fun m sub h => hreach ⟨m, sub, h⟩
      obtain ⟨-, rfl⟩ := Prod.mk.inj (ht.symm.trans hcall)
      exact hfs ▸ hrefl s.fs

end calls

/-! ### The file systems that hold files -/

/-- What the backends other than pipes keep for an open file. -/
inductive FileData where
  | memfs (inode : Nat)
  | regular (r : RegularFile)
  | device (kind index : Int)

structure FileSystems where
  memfs : Memfs
  fat : FatVolumes

def Opened.map {α β : Type} (f : α → β) (o : Opened α) : Opened β := ⟨o.mode, o.dirty, o.pos, f o.data⟩

/-- An entry as the FAT branches see it. -/
def fatEntryOf (f : VfsFile FileData) : VfsFile RegularFile :=
  ⟨f.used, f.refcount, f.flags, f.mode, f.dirty, f.backend, f.pos, f.path,
    match f.u with
    | .backed (.regular r) => .backed r
    | _ => .zeroed⟩

/-- The branches of memfs and the FAT volumes; the others, which hold none of their files, are those of `B`. -/
def fsBackends (B : Backends FileSystems FileData) : Backends FileSystems FileData where
  resolve := B.resolve
  openFile fs backend sub flags :=
    match backend with
    | .memfs => let r := openMemfsFile fs.memfs sub flags; (r.1.map (Opened.map .memfs), { fs with memfs := r.2 })
    | .fat12 => let r := openRegularBuffered fs.fat .fat12 sub flags; (r.1.map (Opened.map .regular), { fs with fat := r.2 })
    | .fat32 => let r := openRegularBuffered fs.fat .fat32 sub flags; (r.1.map (Opened.map .regular), { fs with fat := r.2 })
    | backend => ((B.openFile fs backend sub flags).1, fs)
  writeBack fs f := let r := flushRegular fs.fat (fatEntryOf f) (fatEntryOf f).regular; (r.1, { fs with fat := r.2 })
  readFile := B.readFile
  writeFile := B.writeFile

/-- Paths show the same entries of the volume, and the same bytes are read from them. -/
structure Fat12.SameShown (v w : Fat12) : Prop where
  stat : ∀ path, fat12Stat w path = fat12Stat v path
  read : ∀ path max, fat12ReadFile w path max = fat12ReadFile v path max

/-- The names of all files and what is in them. -/
structure SameFiles (fs fs' : FileSystems) : Prop where
  memfs : fs'.memfs.files = fs.memfs.files
  fat12 : fs.fat.fat12.SameShown fs'.fat.fat12
  fat32 : fs.fat.fat32.SameShown fs'.fat.fat32

theorem Fat12.SameShown.refl (v : Fat12) : v.SameShown v := ⟨fun _ => rfl, fun _ _ => rfl⟩

theorem SameFiles.refl (fs : FileSystems) : SameFiles fs fs := ⟨rfl, Fat12.SameShown.refl _, (Fat32.Buffered.refl _).shown⟩

/-! ### memfs -/

/-- Opening creates a file, or truncates one that has bytes. -/
def MemfsChanges (m : Memfs) (sub : List UInt8) (flags : BitVec 32) : Prop :=
  sub.dropWhile (· == slash) ≠ [] ∧
    match memfsOpen m (sub.dropWhile (· == slash)) with
    | none => flags &&& vfsOCreat ≠ 0 ∧ ∃ i < memfsMaxFiles, (m.inodes i).used = false
    | some i => flags &&& vfsOTrunc ≠ 0 ∧ (m.inodes i).size ≠ 0

section memfs

variable {m : Memfs} {sub : List UInt8} {flags : BitVec 32} {i : Nat}

/-- Truncating shows when there was something to lose. -/
theorem memfsTruncate_same (hvalid : memfsValid m i = true) : (memfsTruncate m i).2.files = m.files ↔ (m.inodes i).size = 0 := by
  rw [memfsTruncate_files hvalid]
  constructor
  · intro hsame
    have hfile := congrFun hsame i
    rw [Function.update_self, files_of_valid hvalid] at hfile
    have hbytes := congrArg ByteFile.bytes (Option.some.inj hfile)
    have hlength := congrArg List.length hbytes
    rw [MemfsInode.bytes, Memory.length_bytes] at hlength
    exact hlength.symm
  · intro hempty
    have hbytes : (m.inodes i).bytes = [] := by
      rw [MemfsInode.bytes, hempty]
      rfl
    rw [← hbytes, ← files_of_valid hvalid, Function.update_eq_self]

/-- A failure of memfs itself leaves it as it was, and otherwise the files stay unless one is created or truncated. -/
theorem openMemfsFile_same (m : Memfs) (sub : List UInt8) (flags : BitVec 32) :
    ((openMemfsFile m sub flags).1 = none ∧ (openMemfsFile m sub flags).2 = m ∧ ¬ MemfsChanges m sub flags) ∨
      ∃ o, (openMemfsFile m sub flags).1 = some o ∧ o.dirty = false ∧ ((openMemfsFile m sub flags).2.files = m.files ↔ ¬ MemfsChanges m sub flags) := by
  rw [openMemfsFile, MemfsChanges]
  by_cases hname : sub.dropWhile (· == slash) = []
  · simp only [if_pos hname]
    exact Or.inl ⟨trivial, trivial, fun h => h.1 hname⟩
  simp only [if_neg hname]
  cases hopen : memfsOpen m (sub.dropWhile (· == slash)) with
  | some i =>
      refine Or.inr ⟨_, rfl, rfl, ?_⟩
      simp only
      split
      · rename_i htrunc
        rw [memfsTruncate_same (valid_of_open hopen)]
        exact ⟨fun hempty h => h.2.2 hempty, fun hnot => by_contra fun hsize => hnot ⟨hname, htrunc, hsize⟩⟩
      · rename_i htrunc
        exact ⟨fun _ h => htrunc h.2.1, fun _ => rfl⟩
  | none =>
      by_cases hcreat : flags &&& vfsOCreat ≠ 0
      · simp only [if_pos hcreat]
        rw [memfsCreate, if_neg hname, hopen]
        cases hfind : (List.range memfsMaxFiles).find? fun i => !(m.inodes i).used with
        | none =>
            refine Or.inl ⟨rfl, rfl, ?_⟩
            rintro ⟨-, -, i, hi, hunused⟩
            simpa [hunused] using List.find?_eq_none.mp hfind i (List.mem_range.mpr hi)
        | some i =>
            have hi := List.mem_range.mp (List.mem_of_find?_eq_some hfind)
            have hunused : (m.inodes i).used = false := by simpa using List.find?_some hfind
            refine Or.inr ⟨_, rfl, rfl, fun hsame => ?_, fun hnot => absurd ⟨hname, hcreat, i, hi, hunused⟩ hnot⟩
            -- the inode has a file now
            exfalso
            have hfile := congrFun hsame i
            rw [files_of_lt m hi, hunused] at hfile
            simp only [Memfs.kmalloc] at hfile
            split at hfile
            · rw [memfsTruncate_files (by simp [memfsValid, hi]), Function.update_self] at hfile
              cases hfile
            · rw [files_of_lt _ hi, Memfs.setInode_self] at hfile
              cases hfile
      · simp only [if_neg hcreat]
        exact Or.inl ⟨trivial, trivial, fun h => hcreat h.2.1⟩

end memfs

/-! ### What an open does to the FAT volumes -/

section fat

variable {B : Backends FileSystems FileData} {fs : FileSystems} {vol : FatVolumes} {m : VfsMount} {v : Fat12} {sub path name : List UInt8}
  {flags : BitVec 32} {o : Opened RegularFile} {off : Nat} {others before behind : List Nat}

theorem flagsToMode_readOnly (hread : flags &&& vfsOWronly = 0) : flagsToMode flags &&& vfsModeWrite = 0 := by
  simp only [flagsToMode, hread, ne_eq, not_true_eq_false, decide_false, Bool.not_false, Bool.and_true, Bool.false_eq_true, if_false]
  split <;> split <;> decide

/-- The volumes differ in the heap and in the scratch sector of the FAT32 driver, or a call hangs. -/
structure SameVolumes (vol vol' : FatVolumes) : Prop where
  fat12 : vol'.fat12 = vol.fat12
  fat32 : vol.fat32.Buffered vol'.fat32

/-- What `open_regular_buffered` hands on; a file that is to be truncated has no buffer yet. -/
structure LoadedAs (flags : BitVec 32) (o : Opened RegularFile) : Prop where
  mode : o.mode = flagsToMode flags
  dirty : o.dirty = true ↔ flags &&& vfsOTrunc ≠ 0
  empty : flags &&& vfsOTrunc ≠ 0 → o.data = ⟨none, 0, 0⟩

theorem openedRegular_loaded (flags : BitVec 32) (buf : Option Memory) (size : Nat) (h : flags &&& vfsOTrunc ≠ 0 → buf = none ∧ size = 0) :
    LoadedAs flags (openedRegular flags buf size) := by
  refine ⟨rfl, by simp [openedRegular], fun htrunc => ?_⟩
  obtain ⟨rfl, rfl⟩ := h htrunc
  rfl

theorem loadRegular_trunc {read : FatVolumes → Nat → Option (FatVolumes × Int × List UInt8)} (htrunc : flags &&& vfsOTrunc ≠ 0) (vol : FatVolumes)
    (size : Nat) : loadRegular vol flags size read = (some (openedRegular flags none 0), vol) := by
  rw [loadRegular, if_pos htrunc]
  rfl

theorem loadRegular_same {read : FatVolumes → Nat → Option (FatVolumes × Int × List UInt8)} (vol : FatVolumes) (flags : BitVec 32) (size : Nat)
    (hread : ∀ u max u' r, read u max = some (u', r) → SameVolumes u u') :
    SameVolumes vol (loadRegular vol flags size read).2 ∧ ∀ o, (loadRegular vol flags size read).1 = some o → LoadedAs flags o := by
  have hself : SameVolumes vol vol := ⟨rfl, Fat32.Buffered.refl _⟩
  by_cases htrunc : flags &&& vfsOTrunc ≠ 0
  · rw [loadRegular_trunc htrunc]
    refine ⟨hself, fun o ho => ?_⟩
    obtain rfl := Option.some.inj ho
    exact openedRegular_loaded flags none 0 fun _ => ⟨rfl, rfl⟩
  have hloaded : ∀ buf size, LoadedAs flags (openedRegular flags buf size) :=
    fun buf size => openedRegular_loaded flags buf size fun h => absurd h htrunc
  rw [loadRegular, if_neg htrunc]
  simp only
  split
  · refine ⟨hself, fun o ho => ?_⟩
    obtain rfl := Option.some.inj ho
    exact hloaded none 0
  have hnever : ∀ o : Opened RegularFile, none = some o → LoadedAs flags o := fun o ho => by cases ho
  rcases hmalloc : vol.kmalloc size with ⟨granted, vol'⟩
  obtain ⟨rfl, rfl⟩ := Prod.mk.inj hmalloc
  cases hgranted : vol.heap 0 size with
  | false => exact ⟨⟨rfl, Fat32.Buffered.refl _⟩, hnever⟩
  | true =>
      simp only [Bool.not_true, Bool.false_eq_true, if_false]
      cases hresult : read { vol with heap := fun n => vol.heap (n + 1) } size with
      | none => exact ⟨⟨rfl, Fat32.Buffered.refl _⟩, hnever⟩
      | some r =>
          obtain ⟨u, count, bytes⟩ := r
          obtain ⟨hfat12, hfat32⟩ := hread _ _ _ _ hresult
          refine ⟨⟨hfat12, hfat32⟩, fun o ho => ?_⟩
          obtain rfl := Option.some.inj ho
          exact hloaded _ _

theorem readFat12_same (sub : List UInt8) (u : FatVolumes) (max : Nat) (u' : FatVolumes) (r : Int × List UInt8)
    (h : readFat12 sub u max = some (u', r)) : SameVolumes u u' := by
  obtain ⟨a, -, heq⟩ := Option.map_eq_some_iff.mp h
  cases heq
  exact ⟨rfl, Fat32.Buffered.refl _⟩

theorem readFat32_same (sub : List UInt8) (u : FatVolumes) (max : Nat) (u' : FatVolumes) (r : Int × List UInt8)
    (h : readFat32 sub u max = some (u', r)) : SameVolumes u u' := by
  obtain ⟨a, hread, heq⟩ := Option.map_eq_some_iff.mp h
  cases heq
  exact ⟨rfl, fat32ReadFile_buffered hread⟩

/-- There is no entry of the name, and a slot for one. -/
def CreatesDirent (v : Fat12) (sub : List UInt8) (flags : BitVec 32) : Prop :=
  flags &&& vfsOCreat ≠ 0 ∧ v.mounted = true ∧ pathToName sub ≠ [] ∧ findDirent v (pathToName sub) = 0 ∧ ¬ RootFull v (pathToName sub)

theorem FreeSlot.not_full (h : FreeSlot v off before behind) : ¬ RootFull v name := fun hfull => absurd h.free (not_or.mpr (hfull.2 off h.mem))

theorem fat12WriteFile_new (hmounted : v.mounted = true) (hname : pathToName path ≠ [])
    (hopen : findOrCreate v (pathToName path) = some (off, newDirent v off (pathToName path))) :
    fat12WriteFile v path [] = some (0, newDirent v off (pathToName path)) := by
  obtain ⟨hfirst, hsize⟩ := @newDirent_fields v off (pathToName path)
  have hfree : freeChain (fat12Eoc + 1) ((newDirent v off (pathToName path)).disk.load (off + 26) 2) (newDirent v off (pathToName path)) =
      some (newDirent v off (pathToName path)) := by
    rw [hfirst]
    rfl
  simp only [fat12WriteFile, hmounted, Bool.not_true, Bool.false_eq_true, if_false, hname, hopen, hfree, setDirent_self hfirst hsize, if_true]

/-- A write of nothing to a name without an entry fails and changes nothing, or makes a new entry. -/
theorem fat12WriteFile_absent (habsent : findDirent v (pathToName path) = 0) :
    fat12WriteFile v path [] = some (-1, v) ∧ (v.mounted = true → pathToName path ≠ [] → findOrCreate v (pathToName path) = none) ∨
      v.mounted = true ∧ pathToName path ≠ [] ∧ (∃ off before behind, FreeSlot v off before behind ∧
        fat12WriteFile v path [] = some (0, newDirent v off (pathToName path))) := by
  by_cases hmounted : v.mounted = true
  · by_cases hname : pathToName path = []
    · exact Or.inl ⟨by simp [fat12WriteFile, hmounted, hname], fun _ hne => absurd hname hne⟩
    · cases hopen : findOrCreate v (pathToName path) with
      | none => exact Or.inl ⟨by simp [fat12WriteFile, hmounted, hname, hopen], fun _ _ => rfl⟩
      | some opened =>
          obtain ⟨off, u⟩ := opened
          rcases findOrCreate_cases hopen with ⟨hfound, -⟩ | ⟨-, ⟨before, behind, hslot⟩, rfl⟩
          · exact absurd habsent hfound
          · exact Or.inr ⟨hmounted, hname, off, before, behind, hslot, fat12WriteFile_new hmounted hname hopen⟩
  · exact Or.inl ⟨by simp [fat12WriteFile, hmounted], fun h => absurd h hmounted⟩

/-- Opening a FAT12 file creates an entry, or changes nothing. -/
theorem openFat12_cases (vol : FatVolumes) (sub : List UInt8) (flags : BitVec 32) :
    (∀ o, (openRegularBuffered vol .fat12 sub flags).1 = some o → LoadedAs flags o) ∧
      (SameVolumes vol (openRegularBuffered vol .fat12 sub flags).2 ∧ (Fat12Layout vol.fat12 → ¬ CreatesDirent vol.fat12 sub flags) ∨
        CreatesDirent vol.fat12 sub flags ∧ (openRegularBuffered vol .fat12 sub flags).1 ≠ none ∧
          ∃ off before behind, FreeSlot vol.fat12 off before behind ∧
            (openRegularBuffered vol .fat12 sub flags).2 = { vol with fat12 := newDirent vol.fat12 off (pathToName sub) }) := by
  have hself : SameVolumes vol vol := ⟨rfl, Fat32.Buffered.refl _⟩
  have hnever : ∀ o : Opened RegularFile, none = some o → LoadedAs flags o := fun o ho => by cases ho
  simp only [openRegularBuffered]
  cases hstat : fat12Stat vol.fat12 sub with
  | some de =>
      have hfound : ¬ CreatesDirent vol.fat12 sub flags := by
        rintro ⟨-, -, hname, hnone, -⟩
        simp [fat12Stat, hnone] at hstat
      simp only
      split
      · exact ⟨hnever, Or.inl ⟨hself, fun _ => hfound⟩⟩
      · obtain ⟨hsame, hloaded⟩ := loadRegular_same vol flags de.size (readFat12_same sub)
        exact ⟨hloaded, Or.inl ⟨hsame, fun _ => hfound⟩⟩
  | none =>
      simp only
      split
      · rename_i hcreat
        exact ⟨hnever, Or.inl ⟨hself, fun _ h => h.1 hcreat⟩⟩
      rename_i hcreat
      by_cases hname : pathToName sub = []
      · have hwrite : fat12WriteFile vol.fat12 sub [] = some (-1, vol.fat12) := by
          rw [fat12WriteFile]
          simp [hname]
        rw [hwrite]
        exact ⟨hnever, Or.inl ⟨hself, fun _ h => h.2.2.1 hname⟩⟩
      have habsent : findDirent vol.fat12 (pathToName sub) = 0 := by
        by_contra hfound
        simp [fat12Stat, hname, hfound] at hstat
      rcases fat12WriteFile_absent habsent with ⟨hwrite, hopen⟩ | ⟨hmounted, -, off, before, behind, hslot, hwrite⟩
      · rw [hwrite]
        refine ⟨hnever, Or.inl ⟨hself, fun hlayout h => ?_⟩⟩
        exact h.2.2.2.2 ((findOrCreate_eq_none hlayout).mp (hopen h.2.1 hname))
      · rw [hwrite]
        have hload : ∀ u : FatVolumes, loadRegular u flags 0 (readFat12 sub) = (some (openedRegular flags none 0), u) := by
          intro u
          rw [loadRegular]
          simp
        simp only [ne_eq, not_true_eq_false, if_false, hload]
        have hcreates : CreatesDirent vol.fat12 sub flags := ⟨hcreat, hmounted, hname, habsent, hslot.not_full⟩
        refine ⟨fun o ho => ?_, Or.inr ⟨hcreates, Option.some_ne_none _, off, before, behind, hslot, rfl⟩⟩
        obtain rfl := Option.some.inj ho
        exact openedRegular_loaded flags none 0 fun _ => ⟨rfl, rfl⟩

theorem openFat32_cases (vol : FatVolumes) (sub : List UInt8) (flags : BitVec 32) :
    (∀ o, (openRegularBuffered vol .fat32 sub flags).1 = some o → LoadedAs flags o ∧
        ∃ u de, fat32Stat vol.fat32 sub = some (u, some de) ∧ de.isDir = false) ∧
      SameVolumes vol (openRegularBuffered vol .fat32 sub flags).2 := by
  have hnever : ∀ {p : Opened RegularFile → Prop} (o : Opened RegularFile), none = some o → p o := fun o ho => by cases ho
  simp only [openRegularBuffered]
  cases hstat : fat32Stat vol.fat32 sub with
  | none => exact ⟨hnever, rfl, Fat32.Buffered.refl _⟩
  | some r =>
      obtain ⟨u, de⟩ := r
      have hbuf := fat32Stat_buffered hstat
      cases de with
      | none => exact ⟨hnever, rfl, hbuf⟩
      | some de =>
          simp only
          split
          · exact ⟨hnever, rfl, hbuf⟩
          · rename_i hdir
            obtain ⟨hsame, hloaded⟩ := loadRegular_same { vol with fat32 := u } flags de.size (readFat32_same sub)
            exact ⟨fun o ho => ⟨hloaded o ho, u, de, rfl, by simpa using hdir⟩, hsame.fat12, hbuf.trans hsame.fat32⟩

end fat

/-! ### What a failing open changes -/

/-- The new entry is marked as deleted, so that no lookup finds it. -/
def HiddenDirent (v : Fat12) (sub : List UInt8) : Prop :=
  (pathToName sub).head? = some 0xE5 ∧ ∃ others, Fat12Layout v ∧ Fat12WellFormed v others

/-- The file is truncated on the disk, and it had bytes, or another file may have lost some with it. -/
def EmptiesFile (v : Fat32) (sub : List UInt8) (flags : BitVec 32) : Prop :=
  flags &&& vfsOTrunc ≠ 0 ∧ flags &&& vfsOWronly ≠ 0 ∧
    ∃ u de, fat32Stat v sub = some (u, some de) ∧ de.isDir = false ∧ ¬ (de.size = 0 ∧ ∃ sectors, Fat32Sound v sectors)

def BackendHarms (fs : FileSystems) (backend : VfsBackend) (sub : List UInt8) (flags : BitVec 32) : Prop :=
  match backend with
  | .memfs => MemfsChanges fs.memfs sub flags
  | .fat12 => CreatesDirent fs.fat.fat12 sub flags ∧ ¬ HiddenDirent fs.fat.fat12 sub
  | .fat32 => EmptiesFile fs.fat.fat32 sub flags
  | _ => False

/-- The call gets to a backend that creates or truncates, and there is no descriptor. -/
def OpenHarms (B : Backends FileSystems FileData) (s : Vfs FileSystems FileData) (proc : Nat) (path : Option (List UInt8)) (flags : BitVec 32) : Prop :=
  TableFull s proc ∧ ∃ m sub, Reaches (fsBackends B) s proc path flags m sub ∧ BackendHarms s.fs m.backend sub flags

/-- If the call fails, all files are as before. -/
def FailingOpenSpares (B : Backends FileSystems FileData) (s : Vfs FileSystems FileData) (proc : Nat) (path : Option (List UInt8))
    (flags : BitVec 32) : Prop := ∀ s', vfsOpenFlags (fsBackends B) s proc path flags = (-1, s') → SameFiles s.fs s'.fs

/-- The volumes that are mounted are well-formed. -/
structure VolumesSound (vol : FatVolumes) (others : List Nat) (sectors : Nat) : Prop where
  fat12 : vol.fat12.mounted = true → Fat12Layout vol.fat12 ∧ Fat12WellFormed vol.fat12 others
  fat32 : vol.fat32.ready = true → Fat32Sound vol.fat32 sectors

section harms

variable {B : Backends FileSystems FileData} {fs fs' : FileSystems} {m : VfsMount} {v w : Fat12} {sub : List UInt8} {flags : BitVec 32}
  {o : Opened RegularFile} {off sectors : Nat} {others before behind : List Nat}

theorem SameVolumes.sameFiles {vol : FatVolumes} (h : SameVolumes fs.fat vol) : SameFiles fs { fs with fat := vol } := by
  refine ⟨rfl, ?_, h.fat32.shown⟩
  simp only [h.fat12]
  exact Fat12.SameShown.refl _

theorem fat12DirentAt_congr (h : w.disk.bytes off 32 = v.disk.bytes off 32) : fat12DirentAt w off = fat12DirentAt v off := by
  have hbyte : ∀ i < 32, w.disk (off + i) = v.disk (off + i) := fun i hi => List.map_inj_left.mp h i (List.mem_range.mpr hi)
  have hname : w.disk.bytes off 11 = v.disk.bytes off 11 :=
    List.map_congr_left fun i hi => hbyte i ((List.mem_range.mp hi).trans (by decide))
  rw [fat12DirentAt, fat12DirentAt, hname, Memory.load_of_agree hbyte (by decide : 28 + 4 ≤ 32), Memory.load_of_agree hbyte (by decide : 26 + 2 ≤ 32),
    hbyte 11 (by decide)]

theorem newDirent_hidden (h : HiddenDirent v sub) (hslot : FreeSlot v off before behind) : v.SameShown (newDirent v off (pathToName sub)) := by
  obtain ⟨hmark, others, hlayout, hwf⟩ := h
  obtain ⟨howns, hfind⟩ := newDirent_marked hlayout hwf.ended hslot hmark
  have hunchanged : VolumeUnchanged v (newDirent v off (pathToName sub)) others :=
    VolumeUnchanged.of_slot hlayout hwf ⟨_, rfl⟩ hslot.mem (fun x => newDirent_apply_of_outside) hslot.absent howns hfind
  refine ⟨fun path => ?_, hunchanged.contents⟩
  rw [fat12Stat, fat12Stat, hfind]
  split
  · rfl
  split
  · rfl
  · rename_i hfound
    rw [fat12DirentAt_congr (hunchanged.entries _ (findDirent_owns hfound).1)]

/-- A new entry that is not marked is found. -/
theorem newDirent_seen (hlayout : Fat12Layout v) (hwf : Fat12WellFormed v others) (hstring : (0 : UInt8) ∉ sub) (hname : pathToName sub ≠ [])
    (habsent : findDirent v (pathToName sub) = 0) (hmark : (pathToName sub).head? ≠ some 0xE5) (hslot : FreeSlot v off before behind) :
    ¬ v.SameShown (newDirent v off (pathToName sub)) := by
  intro hshown
  have hzero : (pathToName sub).head? ≠ some 0 := fun hhead => hstring ((List.dropWhile_suffix _).subset (List.mem_of_head? hhead))
  have hnew := @newDirent_entry v off (pathToName sub) hlayout hwf.ended before behind hslot
    ⟨strToFat83_head (by decide) hzero, strToFat83_head (by decide) hmark⟩
  have hstat := hshown.stat sub
  rw [fat12Stat, fat12Stat, if_neg hname, if_neg hname, if_pos habsent, hnew.found habsent, if_neg (rootSlot_place hlayout hslot.mem).2.2] at hstat
  cases hstat

/-! ### The flush of the entry -/

/-- The null buffer of a truncated file is not written to FAT12. -/
theorem flushedFs_fat12 (h : LoadedAs flags o) (hm : m.backend = .fat12) :
    flushedFs (fsBackends B) fs (filledEntry m sub flags (o.map .regular)) = fs := by
  rw [flushedFs]
  split
  · rename_i hflush
    have hempty := h.empty (h.dirty.mp hflush.1)
    simp [fsBackends, flushRegular, fatEntryOf, filledEntry, VfsFile.regular, Opened.map, hm, hempty]
  · rfl

/-- To FAT32 it is, when the file was opened for writing. -/
theorem flushedFs_fat32 (h : LoadedAs flags o) (hm : m.backend = .fat32) :
    flushedFs (fsBackends B) fs (filledEntry m sub flags (o.map .regular)) =
      if flags &&& vfsOTrunc ≠ 0 ∧ flags &&& vfsOWronly ≠ 0 then
        { fs with fat := match fat32WriteFile fs.fat.fat32 sub [] with
          | none => fs.fat.hang
          | some (v, _) => { fs.fat with fat32 := v } }
      else fs := by
  have hmode : o.mode &&& vfsModeWrite ≠ 0 ↔ flags &&& vfsOWronly ≠ 0 := by
    rw [h.mode]
    exact ⟨fun hwrite hread => hwrite (flagsToMode_readOnly hread), flagsToMode_write⟩
  have hiff : ((filledEntry m sub flags (o.map FileData.regular)).dirty = true ∧
      (filledEntry m sub flags (o.map FileData.regular)).mode &&& vfsModeWrite ≠ 0 ∧
      ((filledEntry m sub flags (o.map FileData.regular)).backend = .fat12 ∨
        (filledEntry m sub flags (o.map FileData.regular)).backend = .fat32)) ↔
        flags &&& vfsOTrunc ≠ 0 ∧ flags &&& vfsOWronly ≠ 0 := by
    rw [← hmode, ← h.dirty]
    simp [filledEntry, Opened.map, hm]
  rw [flushedFs]
  simp only [hiff]
  split
  · rename_i hflush
    have hempty := h.empty hflush.1
    simp only [fsBackends, flushRegular, fatEntryOf, filledEntry, VfsFile.regular, Opened.map, hm, hempty, RegularFile.bytes, Option.elim_none]
    cases fat32WriteFile fs.fat.fat32 sub [] with
    | none => rfl
    | some r => rfl
  · rfl

theorem flushedFs_other (f : VfsFile FileData) (h12 : f.backend ≠ .fat12) (h32 : f.backend ≠ .fat32) : flushedFs (fsBackends B) fs f = fs :=
  if_neg fun h => h.2.2.elim h12 h32

/-! ### Backend by backend -/

theorem openFile_memfs (B : Backends FileSystems FileData) (fs : FileSystems) (sub : List UInt8) (flags : BitVec 32) :
    (fsBackends B).openFile fs .memfs sub flags =
      ((openMemfsFile fs.memfs sub flags).1.map (Opened.map .memfs), { fs with memfs := (openMemfsFile fs.memfs sub flags).2 }) := rfl

theorem openFile_fat12 (B : Backends FileSystems FileData) (fs : FileSystems) (sub : List UInt8) (flags : BitVec 32) :
    (fsBackends B).openFile fs .fat12 sub flags =
      ((openRegularBuffered fs.fat .fat12 sub flags).1.map (Opened.map .regular), { fs with fat := (openRegularBuffered fs.fat .fat12 sub flags).2 }) :=
  rfl

theorem openFile_fat32 (B : Backends FileSystems FileData) (fs : FileSystems) (sub : List UInt8) (flags : BitVec 32) :
    (fsBackends B).openFile fs .fat32 sub flags =
      ((openRegularBuffered fs.fat .fat32 sub flags).1.map (Opened.map .regular), { fs with fat := (openRegularBuffered fs.fat .fat32 sub flags).2 }) :=
  rfl

/-- A backend that fails itself has changed no file. -/
theorem backend_failed (B : Backends FileSystems FileData) (fs : FileSystems) (backend : VfsBackend) (sub : List UInt8) (flags : BitVec 32)
    (hnone : ((fsBackends B).openFile fs backend sub flags).1 = none) : SameFiles fs ((fsBackends B).openFile fs backend sub flags).2 := by
  cases backend with
  | memfs =>
      rw [openFile_memfs] at hnone ⊢
      rcases openMemfsFile_same fs.memfs sub flags with ⟨-, hsame, -⟩ | ⟨o, hsome, -⟩
      · simp only [hsame]
        exact SameFiles.refl fs
      · rw [hsome] at hnone
        cases hnone
  | fat12 =>
      rw [openFile_fat12] at hnone ⊢
      obtain ⟨-, ⟨hsame, -⟩ | ⟨-, hsome, -⟩⟩ := openFat12_cases fs.fat sub flags
      · exact hsame.sameFiles
      · exact absurd (Option.map_eq_none_iff.mp hnone) hsome
  | fat32 => exact (openFat32_cases fs.fat sub flags).2.sameFiles
  | none | initrd | procfs | sysfs | bootfs | devfs | pipe => exact SameFiles.refl fs

/-- One that hands on an entry without harm has changed none either, and the flush of the entry changes none. -/
theorem backend_opened (m : VfsMount) (hspares : ¬ BackendHarms fs m.backend sub flags) {o : Opened FileData}
    (hsome : ((fsBackends B).openFile fs m.backend sub flags).1 = some o) :
    SameFiles fs (flushedFs (fsBackends B) ((fsBackends B).openFile fs m.backend sub flags).2 (filledEntry m sub flags o)) := by
  obtain ⟨backend, readOnly⟩ := m
  cases backend with
  | memfs =>
      rw [flushedFs_other _ (by simp [filledEntry]) (by simp [filledEntry])]
      rcases openMemfsFile_same fs.memfs sub flags with ⟨hnone, -⟩ | ⟨o', -, -, hsame⟩
      · rw [openFile_memfs, hnone] at hsome
        cases hsome
      · exact ⟨hsame.mpr hspares, Fat12.SameShown.refl _, (Fat32.Buffered.refl _).shown⟩
  | fat12 =>
      rw [openFile_fat12] at hsome
      obtain ⟨hloaded, hcases⟩ := openFat12_cases fs.fat sub flags
      obtain ⟨o', ho', rfl⟩ := Option.map_eq_some_iff.mp hsome
      rw [flushedFs_fat12 (hloaded o' ho') rfl, openFile_fat12]
      rcases hcases with ⟨hsame, -⟩ | ⟨hcreates, -, off, before, behind, hslot, hvol⟩
      · exact hsame.sameFiles
      · have hhidden : HiddenDirent fs.fat.fat12 sub := by_contra fun hnot => hspares ⟨hcreates, hnot⟩
        rw [hvol]
        exact ⟨rfl, newDirent_hidden hhidden hslot, (Fat32.Buffered.refl _).shown⟩
  | fat32 =>
      rw [openFile_fat32] at hsome
      obtain ⟨hloaded, hsame⟩ := openFat32_cases fs.fat sub flags
      obtain ⟨o', ho', rfl⟩ := Option.map_eq_some_iff.mp hsome
      obtain ⟨hloaded', u, de, hstat, hfile⟩ := hloaded o' ho'
      rw [flushedFs_fat32 hloaded' rfl, openFile_fat32]
      split
      · rename_i hflush
        obtain ⟨hempty, sectors, hsound⟩ : de.size = 0 ∧ ∃ sectors, Fat32Sound fs.fat.fat32 sectors :=
          by_contra fun hnot => hspares ⟨hflush.1, hflush.2, u, de, hstat, hfile, hnot⟩
        obtain ⟨w, hwrite, hiff⟩ := fat32WriteFile_nil_buffered hsound hsame.fat32 hstat hfile
        simp only [hwrite]
        refine ⟨rfl, ?_, hiff.mpr hempty⟩
        simp only [hsame.fat12]
        exact Fat12.SameShown.refl _
      · exact hsame.sameFiles
  | none | initrd | procfs | sysfs | bootfs | devfs | pipe =>
      rw [flushedFs_other _ (by simp [filledEntry]) (by simp [filledEntry])]
      exact SameFiles.refl fs

theorem openFat32_trunc {vol : FatVolumes} {u : Fat32} {de : Fat32Dirent} (htrunc : flags &&& vfsOTrunc ≠ 0)
    (hstat : fat32Stat vol.fat32 sub = some (u, some de)) (hfile : de.isDir = false) :
    openRegularBuffered vol .fat32 sub flags = (some (openedRegular flags none 0), { vol with fat32 := u }) := by
  simp only [openRegularBuffered, hstat, hfile, Bool.false_eq_true, if_false]
  exact loadRegular_trunc htrunc _ _

/-- On well-formed volumes the harm is done, and shows behind the release of the entry. -/
theorem backend_harms (m : VfsMount) (hsound : VolumesSound fs.fat others sectors) (hstring : (0 : UInt8) ∉ sub)
    (hharms : BackendHarms fs m.backend sub flags) : ∃ o, ((fsBackends B).openFile fs m.backend sub flags).1 = some o ∧
      ¬ SameFiles fs (flushedFs (fsBackends B) ((fsBackends B).openFile fs m.backend sub flags).2 (filledEntry m sub flags o)) := by
  obtain ⟨backend, readOnly⟩ := m
  cases backend with
  | memfs =>
      rcases openMemfsFile_same fs.memfs sub flags with ⟨-, -, hspares⟩ | ⟨o, hsome, -, hsame⟩
      · exact absurd hharms hspares
      · refine ⟨o.map .memfs, by rw [openFile_memfs, hsome]; rfl, fun hfiles => ?_⟩
        rw [flushedFs_other _ (by simp [filledEntry]) (by simp [filledEntry])] at hfiles
        exact hsame.mp hfiles.memfs hharms
  | fat12 =>
      obtain ⟨hcreates, hshown⟩ := hharms
      obtain ⟨hlayout, hwf⟩ := hsound.fat12 hcreates.2.1
      obtain ⟨hloaded, ⟨-, hnot⟩ | ⟨-, hopened, off, before, behind, hslot, hvol⟩⟩ := openFat12_cases fs.fat sub flags
      · exact absurd hcreates (hnot hlayout)
      · obtain ⟨o, ho⟩ := Option.ne_none_iff_exists'.mp hopened
        refine ⟨o.map .regular, by rw [openFile_fat12, ho]; rfl, fun hfiles => ?_⟩
        rw [flushedFs_fat12 (hloaded o ho) rfl, openFile_fat12, hvol] at hfiles
        have hmark : (pathToName sub).head? ≠ some 0xE5 := fun hmark => hshown ⟨hmark, others, hlayout, hwf⟩
        exact newDirent_seen hlayout hwf hstring hcreates.2.2.1 hcreates.2.2.2.1 hmark hslot hfiles.fat12
  | fat32 =>
      obtain ⟨htrunc, hwrite, u, de, hstat, hfile, hsize⟩ := hharms
      have hvolume := hsound.fat32 (fat32Stat_file hstat hfile).1
      have hopen := openFat32_trunc htrunc hstat hfile
      refine ⟨(openedRegular flags none 0).map .regular, by rw [openFile_fat32, hopen]; rfl, fun hfiles => ?_⟩
      rw [flushedFs_fat32 (openedRegular_loaded flags none 0 fun _ => ⟨rfl, rfl⟩) rfl, if_pos ⟨htrunc, hwrite⟩, openFile_fat32, hopen] at hfiles
      obtain ⟨w, hflush, hiff⟩ := fat32WriteFile_nil_buffered hvolume (fat32Stat_buffered hstat) hstat hfile
      simp only [hflush] at hfiles
      exact hsize ⟨hiff.mp hfiles.fat32, sectors, hvolume⟩
  | none | initrd | procfs | sysfs | bootfs | devfs | pipe => exact hharms.elim

end harms

/-- A failing open changes no file unless it gets to a backend that creates or truncates and there is no descriptor. On well-formed volumes it does then. -/
theorem failing_open_spares_iff (B : Backends FileSystems FileData) (s : Vfs FileSystems FileData) (proc : Nat) (path : Option (List UInt8))
    (flags : BitVec 32) :
    (¬ OpenHarms B s proc path flags → FailingOpenSpares B s proc path flags) ∧
      ∀ others sectors, VolumesSound s.fs.fat others sectors → (∀ m sub, path.bind (B.resolve s.fs proc) = some (m, sub) → (0 : UInt8) ∉ sub) →
        (FailingOpenSpares B s proc path flags ↔ ¬ OpenHarms B s proc path flags) := by
  have hspares : ¬ OpenHarms B s proc path flags → FailingOpenSpares B s proc path flags := by
    intro hharms
    refine (failing_open_iff SameFiles.refl).mpr fun m sub hreach => ⟨backend_failed B s.fs m.backend sub flags, fun o hsome hfull => ?_⟩
    exact backend_opened m (fun hbackend => hharms ⟨hfull, m, sub, hreach, hbackend⟩) hsome
  refine ⟨hspares, fun others sectors hsound hstring => ⟨?_, hspares⟩⟩
  rintro hopen ⟨hfull, m, sub, hreach, hbackend⟩
  obtain ⟨o, hsome, hchanged⟩ := backend_harms (B := B) m hsound (hstring m sub hreach.resolved) hbackend
  exact hchanged (((failing_open_iff SameFiles.refl).mp hopen m sub hreach).2 o hsome hfull)

/-! ### A process with 32 descriptors -/

/-- memfs is mounted at the root. -/
def memfsAtRoot : Backends FileSystems FileData where
  resolve _ _ path := some (⟨.memfs, false⟩, path)
  openFile fs _ _ _ := (none, fs)
  writeBack fs _ := (true, fs)
  readFile fs f _ := ([], f.pos, fs)
  writeFile fs f _ := (0, f.pos, f.dirty, .device 0 0, fs)

/-- All descriptors of process 0 refer to one entry. -/
def fullTable : Vfs FileSystems FileData where
  openFiles i := if i = 0 then { (freshFile : VfsFile FileData) with refcount := 32 } else { (freshFile : VfsFile FileData) with used := false }
  pipes _ := ⟨false, fun _ => 0, 0, 0, 0, 0, 0⟩
  fds k := if k.1 = 0 ∧ k.2 < processMaxOpenFiles then some 0 else none
  fs := ⟨memfsInit zeroBlocks, smallVolume, largeVolume, fun _ _ => true, false⟩

theorem fullTable_sound : VolumesSound fullTable.fs.fat [] largeSectors := by
  have hinit : fat12Init ⟨false, 0, ⟨0, 0, 0, 0, 0, 0, 0, 0, 0, 0⟩, fun _ => 0⟩ smallImage 768 = (0, smallVolume) := rfl
  refine ⟨fun _ => ⟨fat12Init_layout hinit smallVolume_wellFormed.areas, smallVolume_wellFormed⟩, fun _ => ⟨largeVolume_wellFormed, ?_, ?_⟩⟩
  · change largeVolume.geometry.sectorsPerCluster < 256
    rw [largeVolume_geometry]
    decide
  · intro slot slot' cs cs' hslot hslot' hne
    change FileSlot largeVolume.geometry largeVolume.disk largeSectors slot at hslot
    change FileSlot largeVolume.geometry largeVolume.disk largeSectors slot' at hslot'
    rw [largeVolume_geometry] at hslot hslot'
    exact absurd ((largeSlot_eq hslot'.volume).trans (largeSlot_eq hslot.volume).symm) hne

theorem failing_open_spares_full : FailingOpenSpares memfsAtRoot fullTable 0 (some [slash, 97]) vfsORdonly ∧
    ¬ FailingOpenSpares memfsAtRoot fullTable 0 (some [slash, 97]) (vfsOWronly ||| vfsOCreat) := by
  constructor
  · apply (failing_open_spares_iff memfsAtRoot fullTable 0 (some [slash, 97]) vfsORdonly).1
    rintro ⟨-, m, sub, hreach, hharms⟩
    obtain ⟨rfl, rfl⟩ := Prod.mk.inj (Option.some.inj hreach.resolved)
    have hcreat : vfsORdonly &&& vfsOCreat ≠ 0 := hharms.2.1
    exact absurd hcreat (by decide)
  · intro hspares
    have hreach : Reaches (fsBackends memfsAtRoot) fullTable 0 (some [slash, 97]) (vfsOWronly ||| vfsOCreat) ⟨.memfs, false⟩ [slash, 97] :=
      ⟨rfl, (fun hreadOnly => by cases hreadOnly), ⟨1, by decide, rfl⟩, by decide⟩
    refine ((failing_open_spares_iff memfsAtRoot fullTable 0 (some [slash, 97]) (vfsOWronly ||| vfsOCreat)).2 [] largeSectors
      fullTable_sound ?_).mp hspares ⟨?_, _, _, hreach, by decide, ?_⟩
    · intro m sub hresolved
      obtain ⟨rfl, rfl⟩ := Prod.mk.inj (Option.some.inj hresolved)
      decide
    · intro fd hfd
      simp [fullTable, hfd]
    · exact ⟨by decide, 0, by decide, rfl⟩

/-- The open returns -1, and `a` is there afterwards. -/
theorem failing_open_creates :
    ¬∀ (B : Backends FileSystems FileData) (s : Vfs FileSystems FileData) (proc : Nat) (path : Option (List UInt8)) (flags : BitVec 32),
      FailingOpenSpares B s proc path flags := by
  intro hall
  have hret : (vfsOpenFlags (fsBackends memfsAtRoot) fullTable 0 (some [slash, 97]) (vfsOWronly ||| vfsOCreat)).1 = -1 := by decide +kernel
  have hfiles := hall memfsAtRoot fullTable 0 (some [slash, 97]) (vfsOWronly ||| vfsOCreat) _ (Prod.ext hret rfl)
  have hfile := congrArg Option.isSome (congrFun hfiles.memfs 0)
  exact absurd hfile (by decide +kernel)

end Tsukasa
