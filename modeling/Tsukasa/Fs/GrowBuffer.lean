import Tsukasa.Base.Word
import Tsukasa.Lib.Blocks
import Tsukasa.Lib.Doubling

/-!
# Buffers that grow under writes

The common part of `memfs_write` and of `vfs_write` on a buffered file. The buffer is first made large enough for the position plus the count, a sum of 64-bit words, by a loop that doubles its capacity; then the bytes are stored at the position. Both the sum and the doubling wrap. `start` is the capacity the doubling starts from, which is all the two writes differ in.
-/

namespace Tsukasa

open Lib (Memory doubleUntil doubled DoublingEnds)

/-- A buffer from the heap, the number of its bytes in use, and its size; `none` is a null pointer. -/
structure GrowBuffer where
  data : Option Memory
  size : Nat
  capacity : Nat

/-- What the `n`-th call of `kmalloc` to come returns for a size: null, or a block with the bytes that happen to be in it. -/
abbrev KmallocAnswers := Nat → Nat → Option Memory

/-- The stores of `for (i = 0; i < count; i++) dst[pos + i] = src[i]`. -/
def storeLoop (dst : Memory) (pos count : Nat) (src : Memory) : Memory :=
  (List.range count).foldl (fun dst i => Function.update dst (wrap64 (pos + i)) (src i)) dst

/-- The indices of `storeLoop`. -/
def storeIndices (pos count : Nat) : List Nat := (List.range count).map fun i => wrap64 (pos + i)

/-- The outcome of making room: the indices of the new block that were copied to, or `none` when there is no block. -/
structure Grown where
  copied : Option (List Nat)
  buffer : GrowBuffer
  heap : KmallocAnswers

/-- Making room for `needed` bytes; `none` when the doubling does not end within `fuel` steps. -/
def growBuffer (fuel : Nat) (heap : KmallocAnswers) (start : Nat) (b : GrowBuffer) (needed : Nat) : Option Grown :=
  if needed ≤ b.capacity then some ⟨some [], b, heap⟩
  else
    (doubleUntil 64 needed fuel start).map fun newCap =>
      match heap 0 newCap with
      | none => ⟨none, b, fun n => heap (n + 1)⟩
      | some block =>
          ⟨some (List.range b.size), ⟨some (storeLoop block 0 b.size (b.data.getD fun _ => 0)), b.size, newCap⟩, fun n => heap (n + 1)⟩

/-- The outcome of a write: whether it got as far as storing, the count, and the indices of the buffer that were stored to. -/
structure BufferWritten where
  accepted : Bool
  ret : Nat
  stores : List Nat
  buffer : GrowBuffer
  heap : KmallocAnswers

/-- A write of `count` bytes from `src`, which may be a null pointer. -/
def bufferWrite (fuel : Nat) (heap : KmallocAnswers) (start : Nat) (b : GrowBuffer) (pos : Nat) (src : Option Memory) (count : Nat) :
    Option BufferWritten :=
  (growBuffer fuel heap start b (wrap64 (pos + count))).map fun g =>
    match g.copied with
    | none => ⟨false, 0, [], g.buffer, g.heap⟩
    | some copied =>
        if 0 < count ∧ src = none then ⟨false, 0, copied, g.buffer, g.heap⟩
        else
          ⟨true, count, copied ++ storeIndices pos count,
            ⟨g.buffer.data.map fun data => storeLoop data pos count (src.getD fun _ => 0), max g.buffer.size (wrap64 (pos + count)), g.buffer.capacity⟩,
            g.heap⟩

/-- The bytes in use fit. -/
def GrowBuffer.Fits (b : GrowBuffer) : Prop := b.size ≤ b.capacity ∧ b.capacity < 2 ^ 64

variable {fuel start pos count needed : Nat} {heap : KmallocAnswers} {b : GrowBuffer} {src : Option Memory}

/-! ### The loops -/

theorem mem_storeIndices {i : Nat} : i ∈ storeIndices pos count ↔ ∃ j < count, i = wrap64 (pos + j) := by
  simp only [storeIndices, List.mem_map, List.mem_range, eq_comm]

theorem storeLoop_succ (dst : Memory) (pos count : Nat) (src : Memory) :
    storeLoop dst pos (count + 1) src = Function.update (storeLoop dst pos count src) (wrap64 (pos + count)) (src count) := by
  rw [storeLoop, List.range_succ, List.foldl_append, List.foldl_cons, List.foldl_nil, storeLoop]

/-- As long as the sum does not wrap, the loop copies a block. -/
theorem storeLoop_eq_blit (dst src : Memory) (hsum : pos + count ≤ 2 ^ 64) : storeLoop dst pos count src = dst.blit pos count src := by
  induction count with
  | zero =>
      funext x
      rw [Memory.blit_apply_of_outside dst src (by omega)]
      rfl
  | succ count ih =>
      have hindex : wrap64 (pos + count) = pos + count := Nat.mod_eq_of_lt (by omega)
      rw [storeLoop_succ, ih (by omega), hindex]
      funext x
      by_cases hx : x = pos + count
      · rw [hx, Function.update_self, Memory.blit_apply_of_inside dst src (Nat.lt_succ_self count)]
      · rw [Function.update_of_ne hx, Memory.blit, Memory.blit]
        by_cases hin : pos ≤ x ∧ x < pos + count
        · rw [if_pos hin, if_pos (by omega)]
        · rw [if_neg hin, if_neg (by omega)]

/-! ### Growing -/

/-- The two ways in which room can be made. -/
theorem growBuffer_some {g : Grown} (hstart : start < 2 ^ 64) (h : growBuffer fuel heap start b needed = some g) :
    (needed ≤ b.capacity ∧ g = ⟨some [], b, heap⟩) ∨
      b.capacity < needed ∧ ∃ newCap, needed ≤ newCap ∧ newCap < 2 ^ 64 ∧ doubleUntil 64 needed fuel start = some newCap ∧
        ((heap 0 newCap = none ∧ g.copied = none ∧ g.buffer = b) ∨
          ∃ block, heap 0 newCap = some block ∧ g.copied = some (List.range b.size) ∧
            g.buffer = ⟨some (storeLoop block 0 b.size (b.data.getD fun _ => 0)), b.size, newCap⟩) := by
  rw [growBuffer] at h
  split at h
  · rename_i hroom
    exact Or.inl ⟨hroom, (Option.some.inj h).symm⟩
  · rename_i hroom
    obtain ⟨newCap, hdouble, rfl⟩ := Option.map_eq_some_iff.mp h
    obtain ⟨hge, hlt⟩ := Lib.doubleUntil_ge hstart hdouble
    refine Or.inr ⟨Nat.not_le.mp hroom, newCap, hge, hlt, hdouble, ?_⟩
    cases hheap : heap 0 newCap with
    | none => exact Or.inl ⟨rfl, rfl, rfl⟩
    | some block => exact Or.inr ⟨block, rfl, rfl, rfl⟩

/-- The buffer keeps its bytes in use, gets room, and only bytes of the new block below its capacity are stored to. -/
theorem growBuffer_spec {g : Grown} (hstart : start < 2 ^ 64) (hfits : b.Fits) (h : growBuffer fuel heap start b needed = some g) :
    g.buffer.Fits ∧ g.buffer.size = b.size ∧ ∀ copied, g.copied = some copied →
      needed ≤ g.buffer.capacity ∧ ∀ i ∈ copied, i < g.buffer.capacity := by
  rcases growBuffer_some hstart h with ⟨hroom, rfl⟩ | ⟨hmore, newCap, hge, hlt, -, ⟨-, hcopied, hbuffer⟩ | ⟨block, -, hcopied, hbuffer⟩⟩
  · refine ⟨hfits, rfl, fun copied hcopied => ⟨hroom, ?_⟩⟩
    rw [← Option.some.inj hcopied]
    exact nofun
  · rw [hbuffer]
    refine ⟨hfits, rfl, fun copied hsome => ?_⟩
    rw [hcopied] at hsome
    cases hsome
  · have hsize : b.size ≤ newCap := hfits.1.trans (hmore.le.trans hge)
    rw [hbuffer]
    refine ⟨⟨hsize, hlt⟩, rfl, fun copied hsome => ⟨hge, fun i hi => ?_⟩⟩
    rw [hcopied] at hsome
    rw [← Option.some.inj hsome, List.mem_range] at hi
    exact hi.trans_le hsize

theorem bufferWrite_fits {w : BufferWritten} (hstart : start < 2 ^ 64) (hfits : b.Fits)
    (h : bufferWrite fuel heap start b pos src count = some w) : w.buffer.Fits := by
  obtain ⟨g, hgrow, rfl⟩ := Option.map_eq_some_iff.mp h
  obtain ⟨hgfits, -, hroom⟩ := growBuffer_spec hstart hfits hgrow
  split
  · exact hgfits
  · rename_i copied hcopied
    split
    · exact hgfits
    · exact ⟨Nat.max_le.mpr ⟨hgfits.1, (hroom copied hcopied).1⟩, hgfits.2⟩

/-! ### When a write is safe -/

/-- The write comes back, and what it stores lies inside the buffer. -/
def WriteBounded (write : Nat → Option BufferWritten) : Prop := ∃ fuel w, write fuel = some w ∧ ∀ i ∈ w.stores, i < w.buffer.capacity

/-- The first capacity in the doubling that is large enough is refused by the heap. -/
def GrowthRefused (heap : KmallocAnswers) (start needed : Nat) : Prop :=
  ∃ k, (∀ j < k, doubled 64 start j < needed) ∧ needed ≤ doubled 64 start k ∧ heap 0 (doubled 64 start k) = none

/-- The capacity is enough or the doubling ends, and if the end of the write wraps, it stops before it stores. -/
def WriteSafe (heap : KmallocAnswers) (start : Nat) (b : GrowBuffer) (pos : Nat) (src : Option Memory) (count : Nat) : Prop :=
  (wrap64 (pos + count) ≤ b.capacity ∨ DoublingEnds 64 (wrap64 (pos + count)) start) ∧
    (pos + count < 2 ^ 64 ∨ src = none ∨ b.capacity < wrap64 (pos + count) ∧ GrowthRefused heap start (wrap64 (pos + count)))

theorem growBuffer_isSome_iff (hstart : start < 2 ^ 64) :
    (∃ fuel g, growBuffer fuel heap start b needed = some g) ↔ needed ≤ b.capacity ∨ DoublingEnds 64 needed start := by
  constructor
  · rintro ⟨fuel, g, hgrow⟩
    rcases growBuffer_some hstart hgrow with ⟨hroom, -⟩ | ⟨-, newCap, -, -, hdouble, -⟩
    · exact Or.inl hroom
    · exact Or.inr (Lib.ends_of_doubleUntil hstart hdouble)
  · intro hends
    by_cases hroom : needed ≤ b.capacity
    · exact ⟨0, _, if_pos hroom⟩
    · obtain ⟨k, hdouble, -⟩ := Lib.doubleUntil_of_ends hstart (hends.resolve_left hroom) le_rfl
      exact ⟨64, _, by rw [growBuffer, if_neg hroom, hdouble, Option.map_some]⟩

/-- The index of the last word is among the stores of a write whose end wraps. -/
theorem last_mem_storeIndices (hpos : pos < 2 ^ 64) (hwrap : 2 ^ 64 ≤ pos + count) : 2 ^ 64 - 1 ∈ storeIndices pos count := by
  refine mem_storeIndices.mpr ⟨2 ^ 64 - 1 - pos, by omega, ?_⟩
  rw [wrap64, Nat.add_sub_cancel' (by omega), Nat.mod_eq_of_lt (by omega)]

/-- The growth is refused exactly when it comes to its end without a block. -/
theorem growthRefused_iff {g : Grown} (hstart : start < 2 ^ 64) (hmore : b.capacity < needed)
    (h : growBuffer fuel heap start b needed = some g) : GrowthRefused heap start needed ↔ g.copied = none := by
  rcases growBuffer_some hstart h with ⟨hroom, -⟩ | ⟨-, newCap, -, -, hdouble, hheap⟩
  · omega
  obtain ⟨k, -, hbefore, hmet, hcap⟩ := (Lib.doubleUntil_eq_some_iff hstart).mp hdouble
  have honly : GrowthRefused heap start needed ↔ heap 0 newCap = none := by
    constructor
    · rintro ⟨j, hbefore', hmet', hnone⟩
      have hjk : j = k := by
        apply le_antisymm
        · by_contra hlt
          exact absurd hmet (Nat.not_le.mpr (hbefore' k (by omega)))
        · by_contra hlt
          exact absurd hmet' (Nat.not_le.mpr (hbefore j (by omega)))
      rw [hcap, ← hjk]
      exact hnone
    · intro hnone
      exact ⟨k, hbefore, hmet, hcap ▸ hnone⟩
  rw [honly]
  rcases hheap with ⟨hnone, hcopied, -⟩ | ⟨block, hsome, hcopied, -⟩
  · exact iff_of_true hnone hcopied
  · rw [hsome, hcopied]
    exact iff_of_false nofun nofun

/-- A write comes back with its stores inside the buffer exactly when it is safe. -/
theorem writeBounded_iff (hstart : start < 2 ^ 64) (hfits : b.Fits) (hpos : pos < 2 ^ 64) :
    WriteBounded (fun fuel => bufferWrite fuel heap start b pos src count) ↔ WriteSafe heap start b pos src count := by
  constructor
  · rintro ⟨fuel, w, hwrite, hbound⟩
    obtain ⟨g, hgrow, rfl⟩ := Option.map_eq_some_iff.mp hwrite
    refine ⟨(growBuffer_isSome_iff hstart).mp ⟨fuel, g, hgrow⟩, ?_⟩
    by_contra hoverrun
    obtain ⟨hwrap, hsrc, hrefused⟩ : 2 ^ 64 ≤ pos + count ∧ src ≠ none ∧ ¬(b.capacity < wrap64 (pos + count) ∧ _) := by
      push Not at hoverrun
      exact ⟨hoverrun.1, hoverrun.2.1, fun hboth => hoverrun.2.2 hboth.1 hboth.2⟩
    obtain ⟨hgfits, -, -⟩ := growBuffer_spec hstart hfits hgrow
    split at hbound
    · rename_i hnone
      rcases growBuffer_some hstart hgrow with ⟨-, rfl⟩ | ⟨hmore, -⟩
      · cases hnone
      · exact hrefused ⟨hmore, (growthRefused_iff hstart hmore hgrow).mpr hnone⟩
    · rename_i copied hcopied
      rw [if_neg fun hnull => hsrc hnull.2] at hbound
      have hlast := hbound _ (List.mem_append_right copied (last_mem_storeIndices hpos hwrap))
      have hsmall := hgfits.2
      simp only at hlast
      omega
  · rintro ⟨hends, hsafe⟩
    obtain ⟨fuel, g, hgrow⟩ := (growBuffer_isSome_iff hstart).mpr hends
    obtain ⟨-, -, hroom⟩ := growBuffer_spec hstart hfits hgrow
    refine ⟨fuel, _, Option.map_eq_some_iff.mpr ⟨g, hgrow, rfl⟩, ?_⟩
    split
    · exact nofun
    rename_i copied hcopied
    obtain ⟨hneeded, hcopy⟩ := hroom copied hcopied
    split
    · exact hcopy
    rename_i hstores
    have hsum : pos + count < 2 ^ 64 := by
      rcases hsafe with hsum | hnull | ⟨hmore, hrefused⟩
      · exact hsum
      · by_contra hwrap
        exact hstores ⟨by omega, hnull⟩
      · rw [(growthRefused_iff hstart hmore hgrow).mp hrefused] at hcopied
        cases hcopied
    intro i hi
    rcases List.mem_append.mp hi with hi | hi
    · exact hcopy i hi
    · obtain ⟨j, hj, rfl⟩ := mem_storeIndices.mp hi
      have hindex : wrap64 (pos + j) = pos + j := Nat.mod_eq_of_lt (by omega)
      have hneed : wrap64 (pos + count) = pos + count := Nat.mod_eq_of_lt hsum
      rw [hneed] at hneeded
      rw [hindex]
      exact lt_of_lt_of_le (by omega) hneeded

end Tsukasa
