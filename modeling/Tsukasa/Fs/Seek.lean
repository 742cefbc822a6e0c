import Tsukasa.Fs.FatFiles

/-!
# Signed seeks

`lseek` of the user library takes a signed offset and hands it to `vfs_seek` as an unsigned word. The kernel adds it to the base modulo `2 ^ 64` and then looks at the upper bound only, so a target before the start of the file is taken for one behind its end.
-/

namespace Tsukasa

variable {φ β : Type} {sizeOf : φ → VfsFile β → Nat} {s : Vfs φ β} {proc i base : Nat} {fd whence : Int}

/-- `lseek`, through the system call. -/
def lseek (sizeOf : φ → VfsFile β → Nat) (s : Vfs φ β) (proc : Nat) (fd : Int) (offset : BitVec 64) (whence : Int) : Int × Vfs φ β :=
  let (rc, s) := vfsSeek sizeOf s proc fd offset.toNat whence
  (if rc = 2 ^ 64 - 1 then -1 else (BitVec.ofNat 64 rc).toInt, s)

/-- What an offset is relative to. -/
def seekBase (whence : Int) (pos size : Nat) : Option Nat :=
  if whence = vfsSeekSet then some 0
  else if whence = vfsSeekCur then some pos
  else if whence = vfsSeekEnd then some size
  else none

/-- The target, moved into the file. -/
def clampSeek (size : Nat) (target : Int) : Nat := (max 0 (min target size)).toNat

/-- The position is set to the wrapped sum, and at most to the size. -/
theorem lseek_pos (hlookup : fdLookup s proc fd = some i) (hseekable : (s.openFiles i).backend ≠ .pipe)
    (hbase : seekBase whence (s.openFiles i).pos (sizeOf s.fs (s.openFiles i)) = some base) (offset : BitVec 64) :
    ((lseek sizeOf s proc fd offset whence).2.openFiles i).pos = min (wrap64 (base + offset.toNat)) (sizeOf s.fs (s.openFiles i)) := by
  have hsum : (if whence = vfsSeekSet then some (wrap64 offset.toNat)
      else if whence = vfsSeekCur then some (wrap64 ((s.openFiles i).pos + offset.toNat))
      else if whence = vfsSeekEnd then some (wrap64 (sizeOf s.fs (s.openFiles i) + offset.toNat))
      else none) = some (wrap64 (base + offset.toNat)) := by
    rw [seekBase] at hbase
    by_cases hset : whence = vfsSeekSet
    · rw [if_pos hset] at hbase ⊢
      rw [← Option.some.inj hbase, Nat.zero_add]
    rw [if_neg hset] at hbase ⊢
    by_cases hcur : whence = vfsSeekCur
    · rw [if_pos hcur] at hbase ⊢
      rw [← Option.some.inj hbase]
    rw [if_neg hcur] at hbase ⊢
    by_cases hend : whence = vfsSeekEnd
    · rw [if_pos hend] at hbase ⊢
      rw [← Option.some.inj hbase]
    · rw [if_neg hend] at hbase
      cases hbase
  simp only [lseek, vfsSeek, hlookup, if_neg hseekable, hsum, Vfs.setFile, Function.update_self]

/-- The wrapped sum gives the clamped target unless the target is before the start of a file that is not empty, or past all words. -/
theorem min_wrap64_eq_clampSeek_iff {size : Nat} (hbase : base ≤ size) (hsize : size < 2 ^ 64) (offset : BitVec 64) :
    min (wrap64 (base + offset.toNat)) size = clampSeek size (base + offset.toInt) ↔
      size = 0 ∨ 0 ≤ base + offset.toInt ∧ base + offset.toInt < 2 ^ 64 := by
  have hlt := offset.isLt
  rw [clampSeek, wrap64, BitVec.toInt_eq_toNat_cond]
  split <;> omega

/-- The position is the clamped target, and a negative offset leaves it at the base or before. -/
def SeekClamps (pos size base : Nat) (offset : BitVec 64) : Prop :=
  pos = clampSeek size (base + offset.toInt) ∧ (offset.toInt < 0 → pos ≤ base)

theorem lseek_clamps_iff (hlookup : fdLookup s proc fd = some i) (hseekable : (s.openFiles i).backend ≠ .pipe)
    (hpos : (s.openFiles i).pos ≤ sizeOf s.fs (s.openFiles i)) (hsize : sizeOf s.fs (s.openFiles i) < 2 ^ 64)
    (hbase : seekBase whence (s.openFiles i).pos (sizeOf s.fs (s.openFiles i)) = some base) (offset : BitVec 64) :
    SeekClamps ((lseek sizeOf s proc fd offset whence).2.openFiles i).pos (sizeOf s.fs (s.openFiles i)) base offset ↔
      sizeOf s.fs (s.openFiles i) = 0 ∨ 0 ≤ base + offset.toInt ∧ base + offset.toInt < 2 ^ 64 := by
  have hle : base ≤ sizeOf s.fs (s.openFiles i) := by
    rw [seekBase] at hbase
    split at hbase
    · rw [← Option.some.inj hbase]
      exact Nat.zero_le _
    split at hbase
    · rwa [← Option.some.inj hbase]
    split at hbase
    · rw [← Option.some.inj hbase]
    · cases hbase
  rw [SeekClamps, lseek_pos hlookup hseekable hbase, min_wrap64_eq_clampSeek_iff hle hsize]
  apply and_iff_left_of_imp
  intro hok hneg
  rw [(min_wrap64_eq_clampSeek_iff hle hsize offset).mpr hok, clampSeek]
  omega

/-- Descriptor 0 of the kernel's table is a file of ten bytes, at position 5. -/
def tenBytes : Vfs Unit Unit where
  openFiles _ := { (freshFile : VfsFile Unit) with backend := .memfs, pos := 5 }
  pipes _ := ⟨false, fun _ => 0, 0, 0, 0, 0, 0⟩
  fds entry := if entry = (0, 0) then some 0 else none
  fs := ()

theorem lseek_clamps_iff_tenBytes :
    SeekClamps ((lseek (fun _ _ => 10) tenBytes 0 0 (BitVec.ofInt 64 (-3)) vfsSeekEnd).2.openFiles 0).pos 10 10 (BitVec.ofInt 64 (-3)) := by
  have hlookup : fdLookup tenBytes 0 0 = some 0 := by decide
  exact (@lseek_clamps_iff _ _ (fun _ _ => 10) tenBytes 0 0 10 0 vfsSeekEnd hlookup (by decide) (by decide) (by decide) (by decide) _).mpr
    (by decide)

/-- From position 5, an offset of -6 leads to the end of the file. -/
theorem lseek_passes_start :
    ¬∀ (size : Nat) (s : Vfs Unit Unit) (proc i base : Nat) (fd whence : Int) (offset : BitVec 64), fdLookup s proc fd = some i →
      (s.openFiles i).backend ≠ .pipe → (s.openFiles i).pos ≤ size → size < 2 ^ 64 → seekBase whence (s.openFiles i).pos size = some base →
      SeekClamps ((lseek (fun _ _ => size) s proc fd offset whence).2.openFiles i).pos size base offset := by
  intro hall
  obtain ⟨hclamped, -⟩ := hall 10 tenBytes 0 0 5 0 vfsSeekCur (BitVec.ofInt 64 (-6)) (by decide) (by decide) (by decide) (by decide) (by decide)
  exact absurd hclamped (by decide)

end Tsukasa
