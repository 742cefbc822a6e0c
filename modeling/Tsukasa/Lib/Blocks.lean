import Tsukasa.Lib.Bytes
import Mathlib.Data.List.Basic

/-!
# Files as lists of blocks

A file in a byte memory is a list of block addresses, all blocks of one size. Its contents are the bytes of the blocks in order, and writing it fills the blocks from the data, with zeros once the data has run out. Reading back what was written needs only that the blocks do not overlap.
-/

namespace Lib

namespace Memory

/-- The memory with `n` bytes of `src` copied to `a`. -/
def blit (m : Memory) (a n : Nat) (src : Memory) : Memory :=
  fun x => if a ≤ x ∧ x < a + n then src (x - a) else m x

/-- The `n` bytes at `a`. -/
def bytes (m : Memory) (a n : Nat) : List UInt8 := (List.range n).map fun i => m (a + i)

@[simp] theorem length_bytes (m : Memory) (a n : Nat) : (m.bytes a n).length = n := by
  simp [bytes]

theorem bytes_congr {m m' : Memory} {a n : Nat} (h : ∀ x, a ≤ x → x < a + n → m x = m' x) : m.bytes a n = m'.bytes a n := by
  apply List.map_congr_left
  intro i hi
  exact h (a + i) (Nat.le_add_right a i) (Nat.add_lt_add_left (List.mem_range.mp hi) a)

theorem blit_apply_of_outside (m src : Memory) {a n x : Nat} (h : x < a ∨ a + n ≤ x) : m.blit a n src x = m x := by
  rw [blit, if_neg (by omega)]

theorem blit_apply_of_inside (m src : Memory) {a n i : Nat} (h : i < n) : m.blit a n src (a + i) = src i := by
  rw [blit, if_pos (by omega), Nat.add_sub_cancel_left]

theorem blit_congr (m : Memory) {src src' : Memory} {a n : Nat} (h : ∀ i < n, src i = src' i) : m.blit a n src = m.blit a n src' := by
  funext x
  rw [blit, blit]
  split
  · rw [h (x - a) (by omega)]
  · rfl

theorem bytes_blit_self (m src : Memory) (a n : Nat) : (m.blit a n src).bytes a n = src.bytes 0 n := by
  apply List.map_congr_left
  intro i hi
  rw [blit_apply_of_inside m src (List.mem_range.mp hi), Nat.zero_add]

end Memory

open Memory

/-- The bytes of a list of blocks of size `b`. -/
def readBlocks (b : Nat) (m : Memory) (as : List Nat) : List UInt8 := as.flatMap fun a => m.bytes a b

/-- The blocks filled from `data`, and with zeros behind it. -/
def writeBlocks (b : Nat) (m : Memory) : List Nat → List UInt8 → Memory
  | [], _ => m
  | a :: as, data => writeBlocks b (m.blit a b fun i => data.getD i 0) as (data.drop b)

/-- Blocks of size `b` that do not overlap. -/
def Apart (b : Nat) (as : List Nat) : Prop := as.Pairwise fun a a' => a + b ≤ a' ∨ a' + b ≤ a

variable {b : Nat} {m m' : Memory} {as : List Nat} {data : List UInt8}

theorem length_readBlocks (b : Nat) (m : Memory) (as : List Nat) : (readBlocks b m as).length = b * as.length := by
  simp [readBlocks, List.length_flatMap, Nat.mul_comm]

theorem readBlocks_congr (h : ∀ a ∈ as, ∀ x, a ≤ x → x < a + b → m x = m' x) : readBlocks b m as = readBlocks b m' as :=
  List.flatMap_congr fun a ha => bytes_congr (h a ha)

theorem bytes_take (m : Memory) (a : Nat) {n k : Nat} (h : k ≤ n) : (m.bytes a n).take k = m.bytes a k := by
  rw [bytes, bytes, ← List.map_take, List.take_range, Nat.min_eq_left h]

/-- The step of a read loop: a block is appended to what has been read, and the first `max` bytes are kept. -/
theorem take_append_bytes {before : List UInt8} {max : Nat} (hroom : (before.take max).length < max) (m : Memory) (a b : Nat) :
    before.take max ++ m.bytes a (min b (max - (before.take max).length)) = (before ++ m.bytes a b).take max := by
  rw [List.length_take] at hroom ⊢
  rw [List.take_append, ← bytes_take m a (Nat.min_le_left b _), List.append_right_inj, List.take_eq_take_iff, length_bytes]
  omega

/-- Only the blocks themselves are written. -/
theorem writeBlocks_apply_of_outside {x : Nat} (h : ∀ a ∈ as, x < a ∨ a + b ≤ x) : writeBlocks b m as data x = m x := by
  induction as generalizing m data with
  | nil => rfl
  | cons a as ih =>
      rw [writeBlocks, ih fun a' ha' => h a' (List.mem_cons_of_mem a ha')]
      exact blit_apply_of_outside m _ (h a List.mem_cons_self)

theorem bytes_getD (data : List UInt8) (b : Nat) :
    bytes (fun i => data.getD i 0) 0 b = data.take b ++ List.replicate (b - data.length) 0 := by
  apply List.ext_getElem
  · simp
    omega
  · intro i hi hi'
    simp only [bytes, List.getElem_map, List.getElem_range, Nat.zero_add, List.getElem_append, List.length_take]
    split
    · rename_i h
      rw [List.getElem_take, List.getD_eq_getElem?_getD, List.getElem?_eq_getElem (by omega), Option.getD_some]
    · rename_i h
      simp only [length_bytes] at hi
      rw [List.getElem_replicate, List.getD_eq_getElem?_getD, List.getElem?_eq_none (by omega), Option.getD_none]

/-- What was written is read back, as long as it fits. -/
theorem readBlocks_writeBlocks (hapart : Apart b as) (hfits : data.length ≤ b * as.length) :
    data <+: readBlocks b (writeBlocks b m as data) as := by
  induction as generalizing m data with
  | nil =>
      have hnil : data = [] := List.eq_nil_of_length_eq_zero (by simpa using hfits)
      rw [hnil]
      exact List.nil_prefix
  | cons a as ih =>
      obtain ⟨hhead, htail⟩ := List.pairwise_cons.mp hapart
      have hfirst : (writeBlocks b m (a :: as) data).bytes a b = data.take b ++ List.replicate (b - data.length) 0 := by
        rw [← bytes_getD, ← bytes_blit_self m _ a b, writeBlocks]
        apply bytes_congr
        intro x hlo hhi
        apply writeBlocks_apply_of_outside
        intro a' ha'
        have := hhead a' ha'
        omega
      have hrest : data.drop b <+: readBlocks b (writeBlocks b m (a :: as) data) as := by
        rw [writeBlocks]
        apply ih htail
        rw [List.length_cons, Nat.mul_succ] at hfits
        rw [List.length_drop]
        omega
      rw [readBlocks, List.flatMap_cons, hfirst]
      by_cases hlong : b ≤ data.length
      · rw [Nat.sub_eq_zero_of_le hlong, List.replicate_zero, List.append_nil]
        nth_rewrite 1 [← List.take_append_drop b data]
        exact (List.prefix_append_right_inj _).mpr hrest
      · rw [List.take_of_length_le (by omega), List.append_assoc]
        exact List.prefix_append data _

/-! ### Overlays -/

/-- The bytes with some of them, from a position on, replaced by others; they grow where these reach behind their end. -/
def overlay (c : List UInt8) (pos : Nat) (src : List UInt8) : List UInt8 := c.take pos ++ src ++ c.drop (pos + src.length)

theorem length_overlay {c : List UInt8} {pos : Nat} (hpos : pos ≤ c.length) (src : List UInt8) :
    (overlay c pos src).length = max c.length (pos + src.length) := by
  rw [overlay, List.length_append, List.length_append, List.length_take, List.length_drop]
  omega

theorem overlay_nil (c : List UInt8) (pos : Nat) : overlay c pos [] = c := by
  rw [overlay, List.append_nil, List.length_nil, Nat.add_zero, List.take_append_drop]

theorem bytes_append (m : Memory) (a n k : Nat) : m.bytes a (n + k) = m.bytes a n ++ m.bytes (a + n) k := by
  simp only [Memory.bytes, List.range_add, List.map_append, List.map_map]
  congr 1
  exact List.map_congr_left fun i _ => by rw [Function.comp_apply, Nat.add_assoc]

theorem bytes_drop (m : Memory) (a n k : Nat) : (m.bytes a n).drop k = m.bytes (a + k) (n - k) := by
  by_cases hk : k ≤ n
  · obtain ⟨j, rfl⟩ := Nat.exists_eq_add_of_le hk
    rw [bytes_append, List.drop_left' (Memory.length_bytes m a k), Nat.add_sub_cancel_left]
  · rw [Nat.sub_eq_zero_of_le (by omega), List.drop_eq_nil_of_le (by rw [Memory.length_bytes]; omega)]
    rfl

/-- A write to the middle or the end of a buffer overlays what is in it. -/
theorem bytes_blit (m : Memory) {k pos : Nat} (hpos : pos ≤ k) (src : List UInt8) :
    (m.blit pos src.length fun i => src.getD i 0).bytes 0 (max k (pos + src.length)) = overlay (m.bytes 0 k) pos src := by
  have hsrc : Memory.bytes (fun i => src.getD i 0) 0 src.length = src := by
    rw [bytes_getD, List.take_length, Nat.sub_self, List.replicate_zero, List.append_nil]
  obtain ⟨rest, hrest⟩ := Nat.exists_eq_add_of_le (Nat.le_max_right k (pos + src.length))
  rw [hrest, bytes_append, bytes_append, Nat.zero_add, Nat.zero_add, Memory.bytes_blit_self, hsrc, overlay, bytes_take _ _ hpos, bytes_drop, Nat.zero_add]
  have htail : rest = k - (pos + src.length) := by omega
  rw [htail]
  congr 1
  · congr 1
    exact Memory.bytes_congr fun x _ hx => Memory.blit_apply_of_outside _ _ (by omega)
  · exact Memory.bytes_congr fun x hx _ => Memory.blit_apply_of_outside _ _ (by omega)

end Lib
