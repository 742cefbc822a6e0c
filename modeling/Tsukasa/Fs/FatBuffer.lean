import Tsukasa.Fs.FatFiles
import Tsukasa.Fs.Fat32Dir

/-!
# The private buffer of an open file

Reads see the bytes of the buffer at the position, writes overlay them there, and the position never gets behind their end. None of this touches the disks.
-/

namespace Tsukasa

open Lib (Memory overlay)

variable {vol vol' : FatVolumes} {f : VfsFile RegularFile} {r r' : RegularFile} {c : List UInt8}

/-- The volumes differ in the heap and in the scratch sector of the FAT32 driver only. -/
structure FatVolumes.SameDisks (vol vol' : FatVolumes) : Prop where
  fat12 : vol'.fat12 = vol.fat12
  fat32 : vol.fat32.Buffered vol'.fat32
  hung : vol'.hung = vol.hung

theorem FatVolumes.SameDisks.refl (vol : FatVolumes) : vol.SameDisks vol := ⟨rfl, Fat32.Buffered.refl _, rfl⟩

theorem FatVolumes.SameDisks.trans {vol'' : FatVolumes} (h : vol.SameDisks vol') (h' : vol'.SameDisks vol'') : vol.SameDisks vol'' :=
  ⟨h'.fat12.trans h.fat12, h.fat32.trans h'.fat32, h'.hung.trans h.hung⟩

theorem FatVolumes.SameDisks.kmalloc (vol : FatVolumes) (size : Nat) : vol.SameDisks (vol.kmalloc size).2 := ⟨rfl, Fat32.Buffered.refl _, rfl⟩

/-- The buffer holds these bytes; the null buffer is that of an empty file. -/
structure RegularFile.Holds (r : RegularFile) (c : List UInt8) : Prop where
  size : r.size = c.length
  bytes : r.bytes = c
  capacity : c.length ≤ r.capacity
  null : r.buf = none → r.capacity = 0

theorem RegularFile.Holds.memory (h : r.Holds c) {m : Memory} (hm : r.buf = some m) : m.bytes 0 c.length = c := by
  have hbytes := h.bytes
  rw [RegularFile.bytes, hm, h.size] at hbytes
  exact hbytes

theorem RegularFile.Holds.nil_of_null (h : r.Holds c) (hbuf : r.buf = none) : c = [] := by
  have hcapacity := h.capacity
  rw [h.null hbuf] at hcapacity
  exact List.eq_nil_of_length_eq_zero (Nat.le_zero.mp hcapacity)

theorem RegularFile.holds_null : RegularFile.Holds ⟨none, 0, 0⟩ [] := ⟨rfl, rfl, le_rfl, fun _ => rfl⟩

/-! ### Growing -/

theorem le_growCapacity {need fuel cap : Nat} (hcap : 0 < cap) (hfuel : need ≤ cap + fuel) : need ≤ growCapacity need fuel cap := by
  induction fuel generalizing cap with
  | zero => exact hfuel
  | succ fuel ih =>
      rw [growCapacity]
      split
      · exact ih (by omega) (by omega)
      · omega

/-- A buffer that has been grown holds what it held, and has room. -/
theorem ensureRegularCapacity_spec (h : r.Holds c) (vol : FatVolumes) (need : Nat) : vol.SameDisks (ensureRegularCapacity vol r need).2 ∧
    ∀ r', (ensureRegularCapacity vol r need).1 = some r' → r'.bytes = c ∧ r'.size = c.length ∧ c.length ≤ r'.capacity ∧ need ≤ r'.capacity ∧
      (r'.buf = none → r'.capacity = 0) ∧ (r'.buf.isSome → r.buf.isSome ∨ 0 < need) := by
  rw [ensureRegularCapacity]
  split
  · rename_i hroom
    refine ⟨FatVolumes.SameDisks.refl vol, fun r' hr' => ?_⟩
    rw [← Option.some.inj hr']
    exact ⟨h.bytes, h.size, h.capacity, hroom, h.null, Or.inl⟩
  rename_i hroom
  have hgrown : need ≤ growCapacity need need (if r.capacity = 0 then 64 else r.capacity) := by
    apply le_growCapacity
    · split <;> omega
    · omega
  generalize growCapacity need need (if r.capacity = 0 then 64 else r.capacity) = newCap at hgrown ⊢
  simp only
  split
  · refine ⟨FatVolumes.SameDisks.kmalloc vol newCap, fun r' hr' => ?_⟩
    have hcapacity := h.capacity
    rw [← Option.some.inj hr']
    refine ⟨?_, h.size, ?_, hgrown, fun hnone => absurd hnone (Option.some_ne_none _), fun _ => Or.inr (by omega)⟩
    · cases hbuf : r.buf with
      | none =>
          have hnil := h.nil_of_null hbuf
          have hsize := h.size
          rw [hnil] at hsize ⊢
          simp only [RegularFile.bytes, Option.elim_some, hsize]
          rfl
      | some m =>
          simp only [RegularFile.bytes, Option.elim_some]
          rw [← h.memory hbuf, ← h.size]
          exact Memory.bytes_congr fun x _ hx => if_pos (by omega)
    · exact hcapacity.trans ((Nat.le_of_not_le hroom).trans hgrown)
  · exact ⟨FatVolumes.SameDisks.kmalloc vol newCap, fun r' hr' => absurd hr'.symm (Option.some_ne_none _)⟩

/-! ### Reading and writing -/

theorem readRegular_eq (h : f.regular.Holds c) (count : Nat) :
    readRegular f f.regular count = ((c.drop f.pos).take count, f.pos + ((c.drop f.pos).take count).length) := by
  rw [readRegular]
  split
  · rename_i hbuf
    rw [h.nil_of_null hbuf, List.drop_nil, List.take_nil]
    rfl
  · rename_i m hbuf
    rw [h.size]
    split
    · rename_i hend
      rw [List.drop_eq_nil_of_le hend, List.take_nil]
      rfl
    · have hread : m.bytes f.pos (min count (c.length - f.pos)) = (c.drop f.pos).take count := by
        conv_rhs => rw [← h.memory hbuf]
        rw [Lib.bytes_drop, Nat.zero_add]
        by_cases hle : count ≤ c.length - f.pos
        · rw [Nat.min_eq_left hle, Lib.bytes_take _ _ hle]
        · rw [Nat.min_eq_right (by omega), List.take_of_length_le (by rw [Memory.length_bytes]; omega)]
      rw [← hread, Memory.length_bytes]

/-- The position a write starts at: the end in append mode. -/
def writeStart (f : VfsFile RegularFile) (c : List UInt8) : Nat := if f.flags &&& vfsOAppend ≠ 0 then c.length else f.pos

theorem writeStart_le (hpos : f.pos ≤ c.length) : writeStart f c ≤ c.length := by
  rw [writeStart]
  split
  · exact le_rfl
  · exact hpos

/-- The outcome of a write: nothing is accepted, or all of it. -/
structure WriteRegular (f : VfsFile RegularFile) (c src : List UInt8) (wr pos : Nat) (dirty : Bool) (r : RegularFile) : Prop where
  count : wr = 0 ∧ dirty = f.dirty ∨ wr = src.length ∧ dirty = true
  pos : pos = writeStart f c + wr
  holds : r.Holds (overlay c (writeStart f c) (src.take wr))
  grown : r.buf.isSome → f.regular.buf.isSome ∨ overlay c (writeStart f c) (src.take wr) ≠ []

theorem WriteRegular.length {src : List UInt8} {wr pos : Nat} {dirty : Bool} (h : WriteRegular f c src wr pos dirty r) : (src.take wr).length = wr := by
  obtain ⟨rfl, -⟩ | ⟨rfl, -⟩ := h.count
  · rfl
  · rw [List.take_length]

theorem writeRegular_spec (h : f.regular.Holds c) (hpos : f.pos ≤ c.length) (vol : FatVolumes) (src : List UInt8) :
    ∃ wr pos dirty r vol', writeRegular vol f f.regular src = (wr, pos, dirty, r, vol') ∧ vol.SameDisks vol' ∧ WriteRegular f c src wr pos dirty r := by
  have hstart : (if f.flags &&& vfsOAppend ≠ 0 then f.regular.size else f.pos) = writeStart f c := by rw [writeStart, h.size]
  have hle := writeStart_le hpos
  obtain ⟨hdisks, hgrown⟩ := ensureRegularCapacity_spec h vol (writeStart f c + src.length)
  simp only [writeRegular, hstart]
  split
  · rename_i vol' heq
    rw [heq] at hdisks
    refine ⟨_, _, _, _, _, rfl, hdisks, Or.inl ⟨rfl, rfl⟩, rfl, ?_, Or.inl⟩
    rw [List.take_zero, Lib.overlay_nil]
    exact h
  · rename_i r' vol' heq
    rw [heq] at hdisks hgrown
    obtain ⟨hbytes, hsize, hcapacity, hroom, hnull, hsome⟩ := hgrown r' rfl
    have hlength := Lib.length_overlay hle src
    refine ⟨_, _, _, _, _, rfl, hdisks, Or.inr ⟨rfl, rfl⟩, rfl, ?_, ?_⟩
    all_goals rw [List.take_length]
    refine ⟨?_, ?_, ?_, ?_⟩
    · simp only
      rw [hsize, hlength]
    · cases hbuf : r'.buf with
      | none =>
          have hzero := hnull hbuf
          have hnil : src = [] := List.eq_nil_of_length_eq_zero (by omega)
          have hc : c = [] := List.eq_nil_of_length_eq_zero (by omega)
          simp only [RegularFile.bytes, Option.map_none, Option.elim_none, hnil, Lib.overlay_nil, hc]
      | some m =>
          rw [RegularFile.bytes, hbuf, hsize] at hbytes
          simp only [Option.elim_some] at hbytes
          simp only [RegularFile.bytes, Option.map_some, Option.elim_some, hsize]
          rw [Lib.bytes_blit m hle, hbytes]
    · simp only
      rw [hlength]
      omega
    · intro hnone
      exact hnull (Option.map_eq_none_iff.mp hnone)
    · intro hmap
      rw [Option.isSome_map] at hmap
      refine (hsome hmap).imp_right fun hpos => List.ne_nil_of_length_pos ?_
      rw [hlength]
      omega

end Tsukasa
