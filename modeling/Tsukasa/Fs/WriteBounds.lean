import Tsukasa.Fs.FatFiles
import Tsukasa.Fs.Memfs

/-!
# Writes at every position and count

`memfs_write` and the buffered branch of `vfs_write` on 64-bit words. Neither checks that the position plus the count is a word, and the system call hands the count on as it comes.
-/

namespace Tsukasa

open Lib (Memory doubleUntil)

def RegularFile.toBuffer (r : RegularFile) : GrowBuffer := ⟨r.buf, r.size, r.capacity⟩

def regularGrowStart (r : RegularFile) : Nat := if r.capacity = 0 then 64 else r.capacity

/-- `vfs_write` on a file with a private buffer, with words that wrap; `none` when the doubling of `ensure_regular_capacity` does not end within `fuel` steps. -/
def vfsWriteBuffered (fuel : Nat) (heap : KmallocAnswers) (f : VfsFile RegularFile) (buf : Option Memory) (count : Nat) :
    Option (BufferWritten × VfsFile RegularFile) :=
  let r := f.regular
  if buf = none ∨ f.mode &&& vfsModeWrite = 0 then some (⟨false, 0, [], r.toBuffer, heap⟩, f)
  else
    let pos := if f.flags &&& vfsOAppend ≠ 0 then r.size else f.pos
    (bufferWrite fuel heap (regularGrowStart r) r.toBuffer pos buf count).map fun w =>
      (w, { f with
        pos := if w.accepted then wrap64 (pos + count) else pos
        dirty := w.accepted || f.dirty
        u := .backed ⟨w.buffer.data, w.buffer.size, w.buffer.capacity⟩ })

/-- Needs up to half of the words are met before the doubling wraps, as the model of the buffer without words has it. -/
theorem growCapacity_eq {need fuel cap r : Nat} (hneed : need ≤ 2 ^ 63) (h : doubleUntil 64 need fuel cap = some r) :
    growCapacity need fuel cap = r := by
  induction fuel generalizing cap with
  | zero => exact Option.some.inj (Option.ite_none_left_eq_some.mp h).2
  | succ fuel ih =>
      rw [doubleUntil] at h
      rw [growCapacity]
      split at h
      · rename_i hlt
        rw [Nat.mod_eq_of_lt (by omega)] at h
        rw [if_pos hlt, ih h]
      · rename_i hge
        rw [if_neg hge, Option.some.inj h]

/-! ### The buffers always fit -/

def Memfs.Fits (m : Memfs) : Prop := ∀ i, (m.inodes i).toGrowBuffer.Fits

theorem memfsInit_fits (heap : KmallocAnswers) : (memfsInit heap).Fits := fun _ => ⟨le_rfl, Nat.two_pow_pos 64⟩

theorem Memfs.Fits.setInode {m : Memfs} {n : MemfsInode} (h : m.Fits) (hn : n.toGrowBuffer.Fits) (i : Nat) : (m.setInode i n).Fits := by
  intro j
  by_cases hj : j = i
  · rw [hj, Memfs.setInode_self]
    exact hn
  · rw [Memfs.setInode_of_ne m n hj]
    exact h j

theorem memfsCreate_fits {m : Memfs} (h : m.Fits) (name : List UInt8) : (memfsCreate m name).2.Fits := by
  rw [memfsCreate]
  split
  · exact h
  split
  · exact h
  split
  · exact h
  · rename_i i _
    exact Memfs.Fits.setInode (m := (m.kmalloc memfsInitCap).2) h ⟨Nat.zero_le _, by simp only; split <;> decide⟩ i

theorem memfsTruncate_fits {m : Memfs} (h : m.Fits) (inode : Nat) : (memfsTruncate m inode).2.Fits := by
  rw [memfsTruncate]
  split
  · exact Memfs.Fits.setInode h (n := { m.inodes inode with size := 0 }) ⟨Nat.zero_le _, (h inode).2⟩ inode
  · exact h

theorem memfsGrowStart_lt (n : MemfsInode) : memfsGrowStart n < 2 ^ 64 := by
  rw [memfsGrowStart]
  split
  · decide
  · exact Nat.mod_lt _ (by decide)

theorem memfsWrite_fits {m : Memfs} (h : m.Fits) {fuel inode pos count : Nat} {buf : Option Memory} {r : BufferWritten × Memfs}
    (hwrite : memfsWrite fuel m inode pos buf count = some r) : r.2.Fits := by
  simp only [memfsWrite] at hwrite
  split at hwrite
  · rw [← Option.some.inj hwrite]
    exact h
  · obtain ⟨w, hw, rfl⟩ := Option.map_eq_some_iff.mp hwrite
    have hfits := bufferWrite_fits (memfsGrowStart_lt (m.inodes inode)) (h inode) hw
    exact Memfs.Fits.setInode h (n := { m.inodes inode with toGrowBuffer := w.buffer }) hfits inode

/-- The buffer that an open call leaves is as large as the file, and every write keeps it fitting. -/
theorem openedRegular_fits (flags : BitVec 32) (buf : Option Memory) {fileSize : Nat} (hsize : fileSize < 2 ^ 64) :
    (openedRegular flags buf fileSize).data.toBuffer.Fits := ⟨le_rfl, hsize⟩

theorem regularGrowStart_lt {r : RegularFile} (h : r.toBuffer.Fits) : regularGrowStart r < 2 ^ 64 := by
  rw [regularGrowStart]
  split
  · decide
  · exact h.2

theorem vfsWriteBuffered_fits {f : VfsFile RegularFile} (h : f.regular.toBuffer.Fits) {fuel count : Nat} {heap : KmallocAnswers}
    {buf : Option Memory} {r : BufferWritten × VfsFile RegularFile} (hwrite : vfsWriteBuffered fuel heap f buf count = some r) :
    r.2.regular.toBuffer.Fits := by
  simp only [vfsWriteBuffered] at hwrite
  split at hwrite
  · rw [← Option.some.inj hwrite]
    exact h
  · obtain ⟨w, hw, rfl⟩ := Option.map_eq_some_iff.mp hwrite
    exact bufferWrite_fits (regularGrowStart_lt h) h hw

/-! ### When they end inside the buffer -/

theorem memfsWrite_bounded_iff {m : Memfs} (hm : m.Fits) {pos : Nat} (hpos : pos < 2 ^ 64) (inode count : Nat) (buf : Option Memory) :
    WriteBounded (fun fuel => (memfsWrite fuel m inode pos buf count).map Prod.fst) ↔
      memfsValid m inode = false ∨ WriteSafe m.heap (memfsGrowStart (m.inodes inode)) (m.inodes inode).toGrowBuffer pos buf count := by
  cases hvalid : memfsValid m inode with
  | false =>
      have hwrite : memfsWrite 0 m inode pos buf count = some (⟨false, 0, [], (m.inodes inode).toGrowBuffer, m.heap⟩, m) := by
        simp [memfsWrite, hvalid]
      exact iff_of_true ⟨0, _, congrArg (Option.map Prod.fst) hwrite, nofun⟩ (Or.inl rfl)
  | true =>
      have hwrite : (fun fuel => (memfsWrite fuel m inode pos buf count).map Prod.fst) = fun fuel =>
          bufferWrite fuel m.heap (memfsGrowStart (m.inodes inode)) (m.inodes inode).toGrowBuffer pos buf count := by
        funext fuel
        rw [memfsWrite, hvalid, Bool.not_true, if_neg Bool.false_ne_true, Option.map_map]
        exact Option.map_id'
      rw [hwrite, writeBounded_iff (memfsGrowStart_lt _) (hm inode) hpos, or_iff_right (by simp)]

/-- The position at which a write starts. -/
def writePos (f : VfsFile RegularFile) : Nat := if f.flags &&& vfsOAppend ≠ 0 then f.regular.size else f.pos

theorem vfsWriteBuffered_bounded_iff {f : VfsFile RegularFile} (hf : f.regular.toBuffer.Fits) (hpos : f.pos < 2 ^ 64) (count : Nat)
    (heap : KmallocAnswers) (buf : Option Memory) :
    WriteBounded (fun fuel => (vfsWriteBuffered fuel heap f buf count).map Prod.fst) ↔
      (buf = none ∨ f.mode &&& vfsModeWrite = 0) ∨ WriteSafe heap (regularGrowStart f.regular) f.regular.toBuffer (writePos f) buf count := by
  by_cases hrefused : buf = none ∨ f.mode &&& vfsModeWrite = 0
  · have hwrite : vfsWriteBuffered 0 heap f buf count = some (⟨false, 0, [], f.regular.toBuffer, heap⟩, f) := if_pos hrefused
    exact iff_of_true ⟨0, _, congrArg (Option.map Prod.fst) hwrite, nofun⟩ (Or.inl hrefused)
  · have hwrite : (fun fuel => (vfsWriteBuffered fuel heap f buf count).map Prod.fst) = fun fuel =>
        bufferWrite fuel heap (regularGrowStart f.regular) f.regular.toBuffer (writePos f) buf count := by
      funext fuel
      rw [vfsWriteBuffered, if_neg hrefused, Option.map_map]
      exact Option.map_id'
    have hstart : writePos f < 2 ^ 64 := by
      rw [writePos]
      split
      · exact lt_of_le_of_lt hf.1 hf.2
      · exact hpos
    rw [hwrite, writeBounded_iff (regularGrowStart_lt hf) hf hstart, or_iff_right hrefused]

/-- Both writes, each in any state, come back with their stores inside the buffer exactly when they are refused at once or the sizes are safe. -/
theorem growable_writes_bounded_iff {m : Memfs} (hm : m.Fits) {f : VfsFile RegularFile} (hf : f.regular.toBuffer.Fits) {pos : Nat}
    (hpos : pos < 2 ^ 64) (hfpos : f.pos < 2 ^ 64) (inode count : Nat) (heap : KmallocAnswers) (buf : Option Memory) :
    (WriteBounded (fun fuel => (memfsWrite fuel m inode pos buf count).map Prod.fst) ↔
      memfsValid m inode = false ∨ WriteSafe m.heap (memfsGrowStart (m.inodes inode)) (m.inodes inode).toGrowBuffer pos buf count) ∧
    (WriteBounded (fun fuel => (vfsWriteBuffered fuel heap f buf count).map Prod.fst) ↔
      (buf = none ∨ f.mode &&& vfsModeWrite = 0) ∨ WriteSafe heap (regularGrowStart f.regular) f.regular.toBuffer (writePos f) buf count) := by
  exact ⟨memfsWrite_bounded_iff hm hpos inode count buf, vfsWriteBuffered_bounded_iff hf hfpos count heap buf⟩

/-- A table with one file of one byte. -/
def oneByteMemfs : Memfs where
  inodes i := if i = 0 then ⟨⟨some fun _ => 7, 1, 4096⟩, [120], true⟩ else ⟨⟨none, 0, 0⟩, [], false⟩
  heap _ _ := none

/-- An empty file that is open for writing, with a buffer of 64 bytes. -/
def emptyRegular : VfsFile RegularFile :=
  { (freshFile : VfsFile RegularFile) with mode := vfsModeWrite, backend := .fat12, u := .backed ⟨some fun _ => 7, 0, 64⟩ }

theorem oneByteMemfs_fits : oneByteMemfs.Fits := by
  intro i
  by_cases hi : i = 0
  · simp only [oneByteMemfs, if_pos hi]
    exact ⟨by decide, by decide⟩
  · simp only [oneByteMemfs, if_neg hi]
    exact ⟨le_rfl, by decide⟩

theorem emptyRegular_fits : emptyRegular.regular.toBuffer.Fits := ⟨by decide, by decide⟩

theorem growable_writes_bounded_iff_small :
    WriteBounded (fun fuel => (memfsWrite fuel oneByteMemfs 0 1 (some fun _ => 0) 10).map Prod.fst) ∧
      WriteBounded (fun fuel => (vfsWriteBuffered fuel (fun _ _ => none) emptyRegular (some fun _ => 0) 10).map Prod.fst) := by
  have hiff := growable_writes_bounded_iff oneByteMemfs_fits emptyRegular_fits (by decide : 1 < 2 ^ 64) (by decide) 0 10
    (fun _ _ => none) (some fun _ => 0)
  exact ⟨hiff.1.mpr (Or.inr ⟨Or.inl (by decide), Or.inl (by decide)⟩), hiff.2.mpr (Or.inr ⟨Or.inl (by decide), Or.inl (by decide)⟩)⟩

/-- A count of `2 ^ 64 - 1` at position 1 wraps to a need of nothing, and `memfs_write` stores behind the buffer; a count of `2 ^ 63 + 1` is never met by the doubling, and `vfs_write` does not come back. -/
theorem growable_writes_escape :
    (¬∀ (m : Memfs) (inode pos count : Nat) (buf : Memory), m.Fits → pos < 2 ^ 64 → count < 2 ^ 64 →
        WriteBounded fun fuel => (memfsWrite fuel m inode pos (some buf) count).map Prod.fst) ∧
      ¬∀ (f : VfsFile RegularFile) (heap : KmallocAnswers) (count : Nat) (buf : Memory), f.regular.toBuffer.Fits → f.pos < 2 ^ 64 → count < 2 ^ 64 →
        WriteBounded fun fuel => (vfsWriteBuffered fuel heap f (some buf) count).map Prod.fst := by
  constructor
  · intro hall
    have hbounded := hall oneByteMemfs 0 1 (2 ^ 64 - 1) (fun _ => 0) oneByteMemfs_fits (by decide) (by decide)
    obtain ⟨-, hsafe⟩ := ((memfsWrite_bounded_iff oneByteMemfs_fits (by decide) _ _ _).mp hbounded).resolve_left (by decide)
    rcases hsafe with hsum | hnull | ⟨hmore, -⟩
    · exact absurd hsum (by decide)
    · cases hnull
    · exact absurd hmore (by decide)
  · intro hall
    have hbounded := hall emptyRegular (fun _ _ => none) (2 ^ 63 + 1) (fun _ => 0) emptyRegular_fits (by decide) (by decide)
    obtain ⟨hends, -⟩ := ((vfsWriteBuffered_bounded_iff emptyRegular_fits (by decide) _ _ _).mp hbounded).resolve_left (by
      rintro (hnull | hmode)
      · cases hnull
      · exact absurd hmode (by decide))
    rcases hends with hroom | hdoubling
    · exact absurd hroom (by decide)
    · have hhalf := (Lib.doublingEnds_pow_iff (m := 6) (w := 64) (by decide)).mp hdoubling
      exact absurd hhalf.2 (by decide)

end Tsukasa
