import Tsukasa.Fs.FatBuffer
import Tsukasa.Fs.Fat12Space
import Tsukasa.Fs.Fat32Space

/-!
# What a volume shows of a file

An open shows the contents of a file, up to what an `int` counts. A flush makes the volume show the buffer, as long as it fits; behind a flush that fails, an open shows something shorter. The flush of a null buffer to FAT12 does nothing.
-/

namespace Tsukasa

open Lib (Memory)

variable {vol vol' : FatVolumes} {sub path c content : List UInt8} {flags : BitVec 32} {backend : VfsBackend} {sectors room : Nat}
  {slot : Nat × Nat} {cs others : List Nat} {v : Fat32}

/-! ### Opening -/

/-- The bytes of a file that an open finds. -/
def openContents (flags : BitVec 32) (c : List UInt8) : List UInt8 := if flags &&& vfsOTrunc ≠ 0 then [] else c

/-- The file is opened with contents `c`, or the heap has no block. -/
def LoadsAs (vol : FatVolumes) (flags : BitVec 32) (c : List UInt8) (result : Option (Opened RegularFile) × FatVolumes) : Prop :=
  ∃ buf vol', vol.SameDisks vol' ∧ RegularFile.Holds ⟨buf, (openContents flags c).length, (openContents flags c).length⟩ (openContents flags c) ∧
    (flags &&& vfsOTrunc ≠ 0 → buf = none) ∧
    (result = (some (openedRegular flags buf (openContents flags c).length), vol') ∨ result = (none, vol') ∧ ∃ size, vol.heap 0 size = false)

theorem LoadsAs.of_same {result : Option (Opened RegularFile) × FatVolumes} (hdisks : vol.SameDisks vol') (hheap : vol'.heap = vol.heap)
    (h : LoadsAs vol' flags c result) : LoadsAs vol flags c result := by
  obtain ⟨buf, vol'', hdisks', hholds, hnull, hresult⟩ := h
  exact ⟨buf, vol'', hdisks.trans hdisks', hholds, hnull, hheap ▸ hresult⟩

theorem loadRegular_loads {fileSize : Nat} {read : FatVolumes → Nat → Option (FatVolumes × Int × List UInt8)} (hzero : fileSize = 0 → c = [])
    (hread : ∀ vol1, vol.SameDisks vol1 → ∃ vol2 n bytes, vol1.SameDisks vol2 ∧ read vol1 fileSize = some (vol2, n, bytes) ∧
      n.toNat = c.length ∧ bytes.take c.length = c) : LoadsAs vol flags c (loadRegular vol flags fileSize read) := by
  by_cases htrunc : flags &&& vfsOTrunc ≠ 0
  · refine ⟨none, vol, FatVolumes.SameDisks.refl vol, ?_, fun _ => rfl, Or.inl ?_⟩
    · rw [openContents, if_pos htrunc]
      exact RegularFile.holds_null
    · rw [loadRegular, openContents, if_pos htrunc, if_pos htrunc]
      rfl
  have hcontents : openContents flags c = c := if_neg htrunc
  rw [LoadsAs, hcontents]
  rw [loadRegular, if_neg htrunc]
  by_cases hempty : fileSize = 0
  · rw [hzero hempty]
    refine ⟨none, vol, FatVolumes.SameDisks.refl vol, RegularFile.holds_null, fun _ => rfl, Or.inl ?_⟩
    simp only [hempty, if_true]
    rfl
  obtain ⟨vol2, n, bytes, hdisks, heq, hn, hbytes⟩ := hread (vol.kmalloc fileSize).2 (FatVolumes.SameDisks.kmalloc vol fileSize)
  have hholds : RegularFile.Holds ⟨some fun i => bytes.getD i 0, c.length, c.length⟩ c := by
    refine ⟨rfl, ?_, le_rfl, fun hnone => absurd hnone (Option.some_ne_none _)⟩
    have hlength : c.length ≤ bytes.length := by
      conv_lhs => rw [← hbytes]
      rw [List.length_take]
      exact Nat.min_le_right _ _
    simp only [RegularFile.bytes, Option.elim_some]
    rw [Lib.bytes_getD, hbytes, Nat.sub_eq_zero_of_le hlength, List.replicate_zero, List.append_nil]
  by_cases hgranted : vol.heap 0 fileSize = true
  · refine ⟨_, vol2, (FatVolumes.SameDisks.kmalloc vol fileSize).trans hdisks, hholds, fun h => absurd h htrunc, Or.inl ?_⟩
    have hfst : (vol.kmalloc fileSize).1 = true := hgranted
    simp only [if_neg hempty, hfst, Bool.not_true, Bool.false_eq_true, if_false, heq, hn]
  · refine ⟨_, (vol.kmalloc fileSize).2, FatVolumes.SameDisks.kmalloc vol fileSize, hholds, fun h => absurd h htrunc, Or.inr ⟨?_, fileSize, ?_⟩⟩
    · have hfst : (vol.kmalloc fileSize).1 = false := Bool.eq_false_iff.mpr hgranted
      simp only [if_neg hempty, hfst, Bool.not_false, if_true]
    · exact Bool.eq_false_iff.mpr hgranted

/-- Every open of the file finds these contents, until a disk changes. -/
def Shows (vol : FatVolumes) (backend : VfsBackend) (sub c : List UInt8) : Prop :=
  ∀ vol', vol.SameDisks vol' → ∀ flags, LoadsAs vol' flags c (openRegularBuffered vol' backend sub flags)

theorem Shows.same (h : Shows vol backend sub c) (hdisks : vol.SameDisks vol') : Shows vol' backend sub c :=
  fun vol'' hdisks' flags => h vol'' (hdisks.trans hdisks') flags

theorem Fat12FileAt.shows (h : Fat12FileAt vol.fat12 others path cs content) : Shows vol .fat12 path content := by
  intro vol' hdisks flags
  rw [openRegularBuffered]
  simp only [hdisks.fat12, h.stat, h.isFile, Bool.false_eq_true, if_false]
  apply loadRegular_loads
  · intro hzero
    rw [h.content, show vol.fat12.disk.load _ 4 = 0 from hzero, List.take_zero]
  · intro vol1 hdisks1
    refine ⟨vol1, content.length, content, FatVolumes.SameDisks.refl vol1, ?_, Int.toNat_natCast _, List.take_length⟩
    have hread := h.read (le_refl (fat12DirentAt vol.fat12 (findDirent vol.fat12 (pathToName path))).size)
    rw [readFat12, (hdisks.trans hdisks1).fat12, hread]
    rfl

/-- A file of size zero shows nothing, whatever its clusters are. -/
theorem shows_emptied (vol : FatVolumes) {de : Fat12Dirent} (hstat : fat12Stat vol.fat12 path = some de) (hfile : de.isDir = false) (hsize : de.size = 0) :
    Shows vol .fat12 path [] := by
  intro vol' hdisks flags
  rw [openRegularBuffered]
  simp only [hdisks.fat12, hstat, hfile, Bool.false_eq_true, if_false, hsize]
  refine ⟨none, vol', FatVolumes.SameDisks.refl vol', ?_, fun _ => rfl, Or.inl ?_⟩
  · rw [openContents, ite_self]
    exact RegularFile.holds_null
  · rw [loadRegular, openContents, ite_self, ite_self]
    rfl

/-- The bytes that a read can count in an `int`. -/
def intSized (c : List UInt8) : List UInt8 := if c.length < 2 ^ 31 then c else []

theorem length_intSized_lt (c : List UInt8) : (intSized c).length < 2 ^ 31 := by
  rw [intSized]
  split
  · assumption
  · decide

/-- The `int` a read returns, for a size of 32 bits. -/
theorem toNat_toInt32 {n : Nat} (hn : n < 2 ^ 32) : (toInt32 n).toNat = if n < 2 ^ 31 then n else 0 := by
  have hwrap : wrap32 n = n := Nat.mod_eq_of_lt hn
  rw [toInt32, hwrap]
  split
  · exact Int.toNat_natCast n
  · exact Int.toNat_of_nonpos (by omega)

theorem FileOf.shows (h : FileOf sectors v path slot) (hsame : SameDirs sectors v vol.fat32)
    (hchain : FileChain vol.fat32.geometry vol.fat32.disk sectors (slotEntry v.disk slot).firstCluster cs)
    (hfits : (slotEntry vol.fat32.disk slot).fileSize ≤ chainBytes vol.fat32.geometry cs) : Shows vol .fat32 path
      (intSized ((Lib.readBlocks 512 vol.fat32.disk (chainBlocks vol.fat32.geometry cs)).take (slotEntry vol.fat32.disk slot).fileSize)) := by
  intro vol' hdisks flags
  obtain ⟨norm, u, parent, leaf, hnorm, hroot, hresolve, hbuf, hparent, hlocated⟩ := h.way
  have hready : ∀ {w}, vol.fat32.Buffered w → w.ready = true := by
    rintro w ⟨sec, rfl⟩
    exact hsame.ready.trans h.ready
  have hsame' := hsame.buffered (Fat32.Buffered.refl v) hdisks.fat32
  obtain ⟨w1, name, hbuf1, hagree, hstat⟩ := fat32Stat_located hsame' (hready hdisks.fat32) hnorm hroot hresolve hparent hlocated
  have hisDir : (direntOf (slotEntry vol'.fat32.disk slot) name).isDir = false := by simp [direntOf, hagree.attr, h.slot.file]
  have hdisk : ∀ {w}, vol.fat32.Buffered w → w.disk = vol.fat32.disk ∧ w.geometry = vol.fat32.geometry := by
    rintro w ⟨sec, rfl⟩
    exact ⟨rfl, rfl⟩
  have hsize : (direntOf (slotEntry vol'.fat32.disk slot) name).size = (slotEntry vol.fat32.disk slot).fileSize := by
    rw [(hdisk hdisks.fat32).1]
    rfl
  have hdisks1 : vol'.SameDisks { vol' with fat32 := w1 } := ⟨rfl, hbuf1, rfl⟩
  rw [openRegularBuffered]
  simp only [hstat, hisDir, Bool.false_eq_true, if_false, hsize]
  have hbound : (slotEntry vol.fat32.disk slot).fileSize < 2 ^ 32 := Memory.load_lt _ _ _
  generalize hn : (slotEntry vol.fat32.disk slot).fileSize = n at hbound hfits ⊢
  have hlength : ((Lib.readBlocks 512 vol.fat32.disk (chainBlocks vol.fat32.geometry cs)).take n).length = n := by
    rw [List.length_take, Lib.length_readBlocks, length_chainBlocks, Nat.min_eq_left hfits]
  refine LoadsAs.of_same hdisks1 rfl (loadRegular_loads ?_ ?_)
  · intro hzero
    rw [hzero, List.take_zero]
    rfl
  · intro vol2 hdisks2
    have hbuf2 := (hdisks.trans (hdisks1.trans hdisks2)).fat32
    have hwhole : min (slotEntry vol2.fat32.disk slot).fileSize n = n := by rw [(hdisk hbuf2).1, hn, Nat.min_self]
    obtain ⟨w3, hbuf3, hread⟩ := fat32ReadFile_located (hsame.buffered (Fat32.Buffered.refl v) hbuf2) (hready hbuf2) n hnorm hroot hresolve hparent
      hlocated h.slot.file ((hdisk hbuf2).1 ▸ (hdisk hbuf2).2 ▸ hchain) (by rw [hwhole, (hdisk hbuf2).2]; exact hfits)
    rw [hwhole, (hdisk hbuf2).1, (hdisk hbuf2).2] at hread
    refine ⟨{ vol2 with fat32 := w3 }, _, _, ⟨rfl, hbuf3, rfl⟩, by rw [readFat32, hread]; rfl, ?_, ?_⟩
    · simp only
      rw [toNat_toInt32 hbound, intSized, hlength]
      split
      · exact hlength.symm
      · rfl
    · simp only
      rw [intSized, hlength]
      split
      · exact List.take_length
      · rfl

/-! ### Flushing -/

/-- The bytes a FAT32 file can hold, up to what an `int` counts. -/
def fat32Room (v : Fat32) (cs : List Nat) : Nat := min (chainBytes v.geometry cs) (2 ^ 31 - 1)

/-- A file of one of the volumes, with what an open finds in it and the bytes a flush can take. -/
inductive FileKept (vol : FatVolumes) : VfsBackend → List UInt8 → List UInt8 → Nat → Prop
  | fat12 {others cs : List Nat} {path content : List UInt8} (h : Fat12FileAt vol.fat12 others path cs content) :
      FileKept vol .fat12 path content (fat12Room vol.fat12 cs)
  | fat32 {sectors : Nat} {cs : List Nat} {path content : List UInt8} (h : Fat32FileAt vol.fat32 sectors path cs content) :
      FileKept vol .fat32 path (intSized content) (fat32Room vol.fat32 cs)

namespace FileKept

variable {shown : List UInt8}

theorem shows (h : FileKept vol backend sub shown room) : Shows vol backend sub shown := by
  cases h with
  | fat12 h => exact h.shows
  | fat32 h =>
      obtain ⟨v', de, hstat, hisDir, hchain, rfl⟩ := h.file
      obtain ⟨slot, name, hfile, -, rfl⟩ := fileOf_of_stat h.wellFormed hstat hisDir
      obtain ⟨cs', hchain', hsize⟩ := h.wellFormed.files slot hfile.slot
      obtain rfl := FileChain.unique hchain hchain'
      exact hfile.shows (SameDirs.refl h.wellFormed) hchain hsize

theorem length_le (h : FileKept vol backend sub shown room) : shown.length ≤ room := by
  cases h with
  | fat12 h =>
      rw [h.content, List.length_take, Lib.length_readBlocks, blocksOf, List.length_map, fat12Room]
      exact (Nat.min_le_right _ _).trans (Nat.mul_le_mul_left _ (Nat.le_add_left _ _))
  | fat32 h =>
      refine Nat.le_min_of_le_of_le ?_ (Nat.le_sub_one_of_lt (length_intSized_lt _))
      rw [intSized]
      split
      · exact h.length_le
      · exact Nat.zero_le _

theorem same (h : FileKept vol backend sub shown room) (hdisks : vol.SameDisks vol') : FileKept vol' backend sub shown room := by
  cases h with
  | fat12 h =>
      rw [← hdisks.fat12] at h ⊢
      exact .fat12 h
  | @fat32 sectors cs path content h =>
      have hroom : fat32Room vol'.fat32 cs = fat32Room vol.fat32 cs := by
        obtain ⟨sec, hsec⟩ := hdisks.fat32
        rw [hsec, fat32Room, fat32Room]
      exact hroom ▸ .fat32 (h.same hdisks.fat32)

end FileKept

/-- What becomes of a file that showed `shown` and has room for `room` bytes, behind the flush of a buffer with the contents `c`. -/
structure Flushed (vol : FatVolumes) (backend : VfsBackend) (sub shown : List UInt8) (room : Nat) (buf : Option Memory) (c : List UInt8) : Prop where
  null : backend = .fat12 → buf = none → FileKept vol backend sub shown room
  fits : (backend = .fat12 → buf ≠ none) → c.length ≤ room → FileKept vol backend sub c room
  long : room < c.length → ∃ d, d.length < c.length ∧ Shows vol backend sub d

theorem Fat12FileAt.flush {f : VfsFile RegularFile} (h : Fat12FileAt vol.fat12 others f.path cs content) (hbackend : f.backend = .fat12)
    (hholds : f.regular.Holds c) : ∃ ok vol', flushRegular vol f f.regular = (ok, vol') ∧ vol'.hung = vol.hung ∧
      Flushed vol' .fat12 f.path content (fat12Room vol.fat12 cs) f.regular.buf c := by
  simp only [flushRegular, hbackend, hholds.bytes]
  by_cases hbuf : f.regular.buf = none
  · have hnil := hholds.nil_of_null hbuf
    refine ⟨false, vol, by rw [if_pos (by rw [hbuf]; rfl)], rfl, fun _ _ => .fat12 h, fun hsome => absurd hbuf (hsome rfl), fun hlt => ?_⟩
    rw [hnil] at hlt
    exact absurd hlt (Nat.not_lt_zero _)
  · obtain ⟨ret, u, hwrite, hfits, hlong⟩ := h.write c
    have hsome : f.regular.buf.isNone = false := by
      rw [Option.isNone_eq_false_iff]
      exact Option.isSome_iff_ne_none.mpr hbuf
    refine ⟨ret = 0, { vol with fat12 := u }, by simp only [hsome, Bool.false_eq_true, if_false, hwrite], rfl, fun _ hnone => absurd hnone hbuf,
      fun _ hle => ?_, fun hlt => ⟨[], Nat.zero_lt_of_lt hlt, ?_⟩⟩
    · obtain ⟨-, cs', hwritten, hroom⟩ := hfits hle
      rw [← hroom]
      exact .fat12 hwritten
    · obtain ⟨-, de, hstat, hfile, hsize⟩ := hlong hlt
      exact shows_emptied { vol with fat12 := u } hstat hfile hsize

theorem Fat32FileAt.flush {f : VfsFile RegularFile} (h : Fat32FileAt vol.fat32 sectors f.path cs content) (hbackend : f.backend = .fat32)
    (hholds : f.regular.Holds c) : ∃ ok vol', flushRegular vol f f.regular = (ok, vol') ∧ vol'.hung = vol.hung ∧
      Flushed vol' .fat32 f.path (intSized content) (fat32Room vol.fat32 cs) f.regular.buf c := by
  have hkept : FileKept vol .fat32 f.path (intSized content) (fat32Room vol.fat32 cs) := .fat32 h
  simp only [flushRegular, hbackend, hholds.bytes]
  by_cases hfits : c.length ≤ chainBytes vol.fat32.geometry cs
  · obtain ⟨w, hwrite, hgeometry, hwritten⟩ := h.write hfits
    have hkept' : FileKept { vol with fat32 := w } .fat32 f.path _ _ := .fat32 hwritten
    have hroom : fat32Room w cs = fat32Room vol.fat32 cs := by rw [fat32Room, fat32Room, hgeometry]
    simp only [hwrite]
    refine ⟨_, _, rfl, rfl, fun hne => absurd hne (by decide), fun _ hle => ?_, fun hlt => ⟨_, ?_, hkept'.shows⟩⟩
    · have hint : c.length < 2 ^ 31 := Nat.lt_of_le_pred (by decide) (hle.trans (Nat.min_le_right _ _))
      simp only [hroom] at hkept'
      rwa [Nat.mod_eq_of_lt (by omega), List.take_length, intSized, if_pos hint] at hkept'
    · have hlong : 2 ^ 31 ≤ c.length := by
        rw [fat32Room] at hlt
        omega
      exact (length_intSized_lt _).trans_le hlong
  · obtain ⟨w, hwrite, hbuf⟩ := h.write_long (Nat.lt_of_not_le hfits)
    simp only [hwrite]
    refine ⟨_, _, rfl, rfl, fun hne => absurd hne (by decide), fun _ hle => absurd (hle.trans (Nat.min_le_left _ _)) hfits, fun hlt => ?_⟩
    exact ⟨intSized content, hkept.length_le.trans_lt hlt, hkept.shows.same ⟨rfl, hbuf, rfl⟩⟩

theorem FileKept.flush {shown : List UInt8} {f : VfsFile RegularFile} (h : FileKept vol backend sub shown room) (hbackend : f.backend = backend)
    (hpath : f.path = sub) (hholds : f.regular.Holds c) : ∃ ok vol', flushRegular vol f f.regular = (ok, vol') ∧ vol'.hung = vol.hung ∧
      Flushed vol' backend sub shown room f.regular.buf c := by
  subst hpath
  cases h with
  | fat12 h => exact h.flush hbackend hholds
  | fat32 h => exact h.flush hbackend hholds

/-! ### Files that are opened -/

/-- A file that can be opened, with its contents and the bytes it can take; the second is one that `VFS_O_CREAT` is about to create. -/
inductive FatFileAt (vol : FatVolumes) : VfsBackend → List UInt8 → List UInt8 → Nat → Prop
  | fat12 {others cs : List Nat} {path content : List UInt8} (h : Fat12FileAt vol.fat12 others path cs content) :
      FatFileAt vol .fat12 path content (fat12Room vol.fat12 cs)
  | created {others : List Nat} {path : List UInt8} (layout : Fat12Layout vol.fat12) (wellFormed : Fat12WellFormed vol.fat12 others)
      (name : pathToName path ≠ []) (string : (0 : UInt8) ∉ path) (mark : (pathToName path).head? ≠ some 0xE5)
      (new : findDirent vol.fat12 (pathToName path) = 0) :
      FatFileAt vol .fat12 path [] (clusterBytes vol.fat12.geometry * (freeClusters vol.fat12).card)
  | fat32 {sectors : Nat} {cs : List Nat} {path content : List UInt8} (h : Fat32FileAt vol.fat32 sectors path cs content) :
      FatFileAt vol .fat32 path content (fat32Room vol.fat32 cs)

/-- The fields an open gives to the entry, for a file that shows `shown`. -/
structure OpenedAs (flags : BitVec 32) (shown : List UInt8) (o : Opened RegularFile) : Prop where
  mode : o.mode = flagsToMode flags
  dirty : o.dirty = decide (flags &&& vfsOTrunc ≠ 0)
  pos : o.pos = if flags &&& vfsOAppend ≠ 0 then (openContents flags shown).length else 0
  holds : o.data.Holds (openContents flags shown)
  null : flags &&& vfsOTrunc ≠ 0 → o.data.buf = none

theorem Shows.opened {shown : List UInt8} {o : Opened RegularFile} (h : Shows vol backend path shown)
    (hopen : openRegularBuffered vol backend path flags = (some o, vol')) : vol.SameDisks vol' ∧ OpenedAs flags shown o := by
  obtain ⟨buf, vol'', hdisks, hholds, hnull, hresult⟩ := h vol (FatVolumes.SameDisks.refl vol) flags
  rw [hopen] at hresult
  obtain hresult | ⟨hresult, -⟩ := hresult
  · obtain ⟨ho, rfl⟩ := Prod.mk.inj hresult
    rw [Option.some.inj ho]
    exact ⟨hdisks, rfl, rfl, rfl, hholds, hnull⟩
  · exact absurd (Prod.mk.inj hresult).1.symm (Option.some_ne_none _).symm

/-- The contents that an open finds are those of the file, unless there are too many for an `int`. -/
theorem FatFileAt.opened {o : Opened RegularFile} (h : FatFileAt vol backend path content room)
    (hopen : openRegularBuffered vol backend path flags = (some o, vol')) :
    ∃ shown, OpenedAs flags shown o ∧ FileKept vol' backend path shown room ∧ vol'.hung = vol.hung ∧
      (shown = content ∨ backend = .fat32 ∧ room < content.length) := by
  cases h with
  | fat12 h =>
      have hkept := FileKept.fat12 h
      obtain ⟨hdisks, hopened⟩ := hkept.shows.opened hopen
      exact ⟨_, hopened, hkept.same hdisks, hdisks.hung, Or.inl rfl⟩
  | fat32 h =>
      have hkept := FileKept.fat32 h
      obtain ⟨hdisks, hopened⟩ := hkept.shows.opened hopen
      refine ⟨_, hopened, hkept.same hdisks, hdisks.hung, ?_⟩
      rw [intSized, fat32Room]
      split
      · exact Or.inl rfl
      · exact Or.inr ⟨rfl, by omega⟩
  | created layout wellFormed name string mark new =>
      have hstat : fat12Stat vol.fat12 path = none := by simp only [fat12Stat, name, new, if_false, if_true]
      obtain ⟨ret, u, hwrite, hcreated⟩ := fat12_create layout wellFormed name string mark new
      simp only [openRegularBuffered, hstat, hwrite] at hopen
      split at hopen
      · exact absurd (Prod.mk.inj hopen).1.symm (Option.some_ne_none _)
      split at hopen
      · exact absurd (Prod.mk.inj hopen).1.symm (Option.some_ne_none _)
      rename_i hret
      obtain ⟨cs, hfile, hroom⟩ := hcreated (not_not.mp hret)
      have hkept : FileKept { vol with fat12 := u } .fat12 path [] (fat12Room u cs) := .fat12 hfile
      rw [hroom] at hkept
      rw [loadRegular, ite_self, if_pos rfl] at hopen
      obtain ⟨ho, rfl⟩ := Prod.mk.inj hopen
      refine ⟨[], ?_, hkept, rfl, Or.inl rfl⟩
      have hcontents : openContents flags [] = [] := ite_self _
      rw [← Option.some.inj ho]
      refine ⟨rfl, rfl, ?_, ?_, fun _ => rfl⟩
      all_goals rw [hcontents]
      · rfl
      · exact RegularFile.holds_null

end Tsukasa
