import Tsukasa.Mm.Pmm
import Mathlib.Data.BitVec
import Mathlib.Data.List.Pairwise

/-!
# What each frame-allocator call does

The bit operations read as a map from frames to booleans, the scan of `pmmAllocPages` as a search for the lowest run of free frames, and one specification per call. Nothing above this module unfolds a scan or a bit mask.
-/

namespace Tsukasa

/-! ### The bitmap as a set of frames -/

theorem bitmapGet_eq_getLsbD (b : Bitmap) (frame : Nat) :
    bitmapGet b frame = (b (frame / 8)).getLsbD (frame % 8) := by
  have hbit : frame % 8 < 8 := Nat.mod_lt _ (by decide)
  rw [bitmapGet, ← BitVec.twoPow_eq, BitVec.and_twoPow]
  cases hget : (b (frame / 8)).getLsbD (frame % 8) with
  | false => simp
  | true =>
      have hne : BitVec.twoPow 8 (frame % 8) ≠ 0#8 := by
        intro hzero
        have := congrArg (fun x => x.getLsbD (frame % 8)) hzero
        simp [hbit] at this
      simpa using hne

@[simp] theorem bitmapGet_bitmapSet (b : Bitmap) (frame other : Nat) (free : Bool) :
    bitmapGet (bitmapSet b frame free) other = if other = frame then free else bitmapGet b other := by
  have hbit : other % 8 < 8 := Nat.mod_lt _ (by decide)
  rw [bitmapGet_eq_getLsbD, bitmapGet_eq_getLsbD, bitmapSet]
  by_cases hbyte : other / 8 = frame / 8
  · rw [hbyte, Function.update_self]
    have hsame : other = frame ↔ frame % 8 = other % 8 := by omega
    simp only [hsame]
    cases free with
    | false =>
        simp only [← BitVec.twoPow_eq, Bool.false_eq_true, if_false, BitVec.getLsbD_and, BitVec.getLsbD_not,
          BitVec.getLsbD_twoPow, hbit, decide_true, Bool.true_and]
        by_cases heq : frame % 8 = other % 8 <;> simp [heq, hbit]
    | true =>
        simp only [← BitVec.twoPow_eq, if_true, BitVec.getLsbD_or, BitVec.getLsbD_twoPow]
        by_cases heq : frame % 8 = other % 8 <;> simp [heq, hbit]
  · rw [Function.update_of_ne hbyte, if_neg]
    intro heq
    exact hbyte (by rw [heq])

theorem bitmapGet_markFrames (b : Bitmap) (free : Bool) (frames : List Nat) (frame : Nat) :
    bitmapGet (markFrames b free frames) frame = if frame ∈ frames then free else bitmapGet b frame := by
  induction frames generalizing b with
  | nil => simp [markFrames]
  | cons head rest ih =>
      have hstep : markFrames b free (head :: rest) = markFrames (bitmapSet b head free) free rest := rfl
      rw [hstep, ih, bitmapGet_bitmapSet]
      by_cases hrest : frame ∈ rest <;> by_cases hhead : frame = head <;> simp [hrest, hhead]

/-- A region marked allocated never frees a frame. -/
theorem bitmapGet_markRegion_false {b : Bitmap} {start stop frame : Nat} (h : bitmapGet b frame = false) :
    bitmapGet (markRegion b start stop false) frame = false := by
  simp only [markRegion]
  split
  · exact h
  · split
    · exact h
    · rw [bitmapGet_markFrames, h, ite_self]

/-! ### Runs of free frames -/

/-- The `count` frames from `start` on are tracked and free. -/
def FreeRun (s : Pmm) (start count : Nat) : Prop :=
  start + count ≤ s.totalFrames ∧ ∀ i < count, bitmapGet s.bitmap (start + i) = true

theorem firstTaken_eq_none {b : Bitmap} {start remaining i : Nat} (h : firstTaken b start remaining i = none) :
    ∀ j < remaining, bitmapGet b (start + (i + j)) = true := by
  induction remaining generalizing i with
  | zero => intro j hj; omega
  | succ remaining ih =>
      intro j hj
      rw [firstTaken] at h
      split at h
      · rename_i hfree
        cases j with
        | zero => exact hfree
        | succ j =>
            have := ih h j (by omega)
            rwa [show i + 1 + j = i + (j + 1) by omega] at this
      · simp at h

theorem firstTaken_eq_some {b : Bitmap} {start remaining i k : Nat} (h : firstTaken b start remaining i = some k) :
    i ≤ k ∧ k < i + remaining ∧ bitmapGet b (start + k) = false := by
  induction remaining generalizing i with
  | zero => simp [firstTaken] at h
  | succ remaining ih =>
      rw [firstTaken] at h
      split at h
      · obtain ⟨hlo, hhi, htaken⟩ := ih h
        exact ⟨by omega, by omega, htaken⟩
      · rename_i htaken
        obtain rfl := Option.some.inj h
        exact ⟨Nat.le_refl _, by omega, by simpa using htaken⟩

/-- The scan returns a free run, and no free run begins between where it started and where it stopped. -/
theorem allocScan_eq_some {s : Pmm} {count fuel start found : Nat}
    (htotal : s.totalFrames < 2 ^ 63) (hbound : start + count < 2 ^ 64)
    (h : allocScan s count fuel start = some found) :
    start ≤ found ∧ FreeRun s found count ∧ ∀ lower, start ≤ lower → lower < found → ¬ FreeRun s lower count := by
  induction fuel generalizing start with
  | zero => simp [allocScan] at h
  | succ fuel ih =>
      rw [allocScan, wrap64_of_lt hbound] at h
      split at h
      · rename_i hfits
        split at h
        · rename_i hnone
          obtain rfl := Option.some.inj h
          refine ⟨Nat.le_refl _, ⟨hfits, fun i hi => ?_⟩, fun lower hlo hhi => by omega⟩
          simpa using firstTaken_eq_none hnone i hi
        · rename_i i hsome
          obtain ⟨_, hi, htaken⟩ := firstTaken_eq_some hsome
          obtain ⟨hle, hrun, hlower⟩ := ih (show start + i + 1 + count < 2 ^ 64 by omega) h
          refine ⟨by omega, hrun, fun lower hlo hhi hfree => ?_⟩
          -- a run that begins at or before the taken frame would have to contain it
          by_cases hpast : start + i + 1 ≤ lower
          · exact hlower lower hpast hhi hfree
          · have hin := hfree.2 (start + i - lower) (by omega)
            rw [show lower + (start + i - lower) = start + i by omega, htaken] at hin
            simp at hin
      · simp at h

/-- A scan that fails, with enough fuel to reach the end, has passed no free run. -/
theorem allocScan_eq_none {s : Pmm} {count fuel start : Nat} (hcount : 0 < count)
    (htotal : s.totalFrames < 2 ^ 63) (hsmall : count ≤ 2 ^ 52) (hfuel : s.totalFrames < start + fuel)
    (h : allocScan s count fuel start = none) :
    ∀ lower, start ≤ lower → ¬ FreeRun s lower count := by
  induction fuel generalizing start with
  | zero =>
      intro lower hlo hfree
      have := hfree.1
      omega
  | succ fuel ih =>
      intro lower hlo hfree
      have hin := hfree.1
      have hfits : wrap64 (start + count) ≤ s.totalFrames := by
        rw [wrap64_of_lt (by omega)]
        omega
      rw [allocScan, if_pos hfits] at h
      split at h
      · simp at h
      · rename_i i hsome
        obtain ⟨_, hi, htaken⟩ := firstTaken_eq_some hsome
        by_cases hpast : start + i + 1 ≤ lower
        · exact ih (by omega) h lower hpast hfree
        · have hmem := hfree.2 (start + i - lower) (by omega)
          rw [show lower + (start + i - lower) = start + i by omega, htaken] at hmem
          simp at hmem

/-! ### Counting the free frames -/

theorem freeCount_congr {b b' : Bitmap} {n : Nat} (h : ∀ frame < n, bitmapGet b frame = bitmapGet b' frame) :
    freeCount b n = freeCount b' n :=
  List.countP_congr fun frame hmem => by rw [h frame (List.mem_range.mp hmem)]

theorem freeCount_bitmapSet_true {b : Bitmap} {n frame : Nat} (hframe : frame < n) (htaken : bitmapGet b frame = false) :
    freeCount (bitmapSet b frame true) n = freeCount b n + 1 := by
  induction n with
  | zero => omega
  | succ n ih =>
      simp only [freeCount, List.range_succ, List.countP_append, List.countP_cons, List.countP_nil] at ih ⊢
      by_cases hlast : frame = n
      · subst hlast
        have hrest : (List.range frame).countP (bitmapGet (bitmapSet b frame true)) = (List.range frame).countP (bitmapGet b) := by
          refine freeCount_congr fun other hother => ?_
          rw [bitmapGet_bitmapSet, if_neg (by omega)]
        rw [hrest]
        simp [htaken]
      · have hn : n ≠ frame := fun h => hlast h.symm
        rw [ih (by omega), bitmapGet_bitmapSet, if_neg hn]
        omega

theorem freeCount_bitmapSet_false {b : Bitmap} {n frame : Nat} (hframe : frame < n) (hfree : bitmapGet b frame = true) :
    freeCount (bitmapSet b frame false) n + 1 = freeCount b n := by
  have htaken : bitmapGet (bitmapSet b frame false) frame = false := by simp
  rw [← freeCount_bitmapSet_true hframe htaken]
  refine freeCount_congr fun other _ => ?_
  by_cases heq : other = frame
  · simp [heq, hfree]
  · simp [heq]

theorem freeCount_markFrames_false {b : Bitmap} {n start count : Nat} (hbound : start + count ≤ n)
    (hfree : ∀ i < count, bitmapGet b (start + i) = true) :
    freeCount (markFrames b false (List.range' start count)) n + count = freeCount b n := by
  induction count generalizing b start with
  | zero => simp [markFrames]
  | succ count ih =>
      have hstep : markFrames b false (List.range' start (count + 1)) =
          markFrames (bitmapSet b start false) false (List.range' (start + 1) count) := by
        rw [List.range'_succ]
        rfl
      have hrest : ∀ i < count, bitmapGet (bitmapSet b start false) (start + 1 + i) = true := by
        intro i hi
        rw [bitmapGet_bitmapSet, if_neg (by omega), show start + 1 + i = start + (i + 1) by omega]
        exact hfree (i + 1) (by omega)
      have hhead := freeCount_bitmapSet_false (show start < n by omega) (by simpa using hfree 0 (by omega))
      have := ih (show start + 1 + count ≤ n by omega) hrest
      rw [hstep]
      omega

/-! ### The allocator's invariant and its calls -/

/-- What every call relies on and keeps: the hint is a lower bound of the free frames, frame 0 is never handed out, and the counter counts. -/
structure Pmm.Inv (s : Pmm) : Prop where
  total : s.totalFrames = pmmFrameCount
  first_le : s.firstUsable ≤ s.totalFrames
  below : ∀ frame < s.firstUsable, bitmapGet s.bitmap frame = false
  zero : bitmapGet s.bitmap 0 = false
  count : s.freeFrames = freeCount s.bitmap s.totalFrames

/-- An allocator without a free frame. -/
def Pmm.exhausted : Pmm where
  bitmap _ := 0#8
  totalFrames := pmmFrameCount
  firstUsable := 0
  freeFrames := 0

theorem Pmm.exhausted_taken (frame : Nat) : bitmapGet Pmm.exhausted.bitmap frame = false := by
  simp [Pmm.exhausted, bitmapGet]

theorem Pmm.exhausted_inv : Pmm.exhausted.Inv := by
  refine ⟨rfl, Nat.zero_le _, fun frame _ => Pmm.exhausted_taken frame, Pmm.exhausted_taken 0, ?_⟩
  exact (List.countP_eq_zero.mpr fun frame _ => by simp [Pmm.exhausted_taken]).symm

theorem Pmm.Inv.total_lt {s : Pmm} (hs : s.Inv) : s.totalFrames < 2 ^ 25 := by
  rw [hs.total]
  decide

/-- The state after the frames of a free run have been taken. -/
def Pmm.take (s : Pmm) (start count : Nat) : Pmm :=
  { s with
    bitmap := markFrames s.bitmap false (List.range' start count)
    freeFrames := s.freeFrames - count }

/-- The state after the frames of a taken range have been given back. -/
def Pmm.giveBack (s : Pmm) (start count : Nat) : Pmm :=
  { s with
    bitmap := markFrames s.bitmap true (List.range' start count)
    firstUsable := min s.firstUsable start
    freeFrames := s.freeFrames + count }

theorem Pmm.bitmapGet_take (s : Pmm) (start count frame : Nat) :
    bitmapGet (s.take start count).bitmap frame =
      if start ≤ frame ∧ frame < start + count then false else bitmapGet s.bitmap frame := by
  simp only [Pmm.take, bitmapGet_markFrames, List.mem_range'_1]

theorem Pmm.bitmapGet_giveBack (s : Pmm) (start count frame : Nat) :
    bitmapGet (s.giveBack start count).bitmap frame =
      if start ≤ frame ∧ frame < start + count then true else bitmapGet s.bitmap frame := by
  simp only [Pmm.giveBack, bitmapGet_markFrames, List.mem_range'_1]

theorem count_le_freeFrames {s : Pmm} (hs : s.Inv) {start count : Nat} (hrun : FreeRun s start count) :
    count ≤ s.freeFrames := by
  have := freeCount_markFrames_false hrun.1 hrun.2
  have := hs.count
  omega

/-- `pmm_alloc_pages` takes the lowest free run, or fails when there is none. -/
theorem pmmAllocPages_cases {s : Pmm} (hs : s.Inv) {count : Nat} (hcount : 0 < count) (hsmall : count ≤ 2 ^ 52) :
    (∃ start, 0 < start ∧ FreeRun s start count ∧ (∀ lower < start, ¬ FreeRun s lower count) ∧
      pmmAllocPages s count = (start * pageSize, s.take start count)) ∨
    ((∀ start, ¬ FreeRun s start count) ∧ pmmAllocPages s count = (0, s)) := by
  have htotal := hs.total_lt
  have hfirst := hs.first_le
  -- below the hint no frame is free, so no run begins there
  have hbelow : ∀ lower < s.firstUsable, ¬ FreeRun s lower count := by
    intro lower hlower hfree
    have hbit := hfree.2 0 hcount
    rw [Nat.add_zero, hs.below lower hlower] at hbit
    simp at hbit
  cases hscan : allocScan s count (2 ^ 64) s.firstUsable with
  | none =>
      refine Or.inr ⟨fun start hfree => ?_, ?_⟩
      · by_cases hlow : start < s.firstUsable
        · exact hbelow start hlow hfree
        · exact allocScan_eq_none hcount (by omega) hsmall (by omega) hscan start (by omega) hfree
      · simp only [pmmAllocPages, hscan, show count ≠ 0 by omega, if_false]
  | some start =>
      obtain ⟨hle, hrun, hlower⟩ := allocScan_eq_some (by omega) (by omega) hscan
      have hpos : 0 < start := by
        rcases Nat.eq_zero_or_pos start with rfl | hpos
        · have hbit := hrun.2 0 hcount
          rw [Nat.add_zero, hs.zero] at hbit
          simp at hbit
        · exact hpos
      refine Or.inl ⟨start, hpos, hrun, fun lower hlt hfree => ?_, ?_⟩
      · by_cases hlow : lower < s.firstUsable
        · exact hbelow lower hlow hfree
        · exact hlower lower (by omega) hlt hfree
      · have haddr : start * pageSize < 2 ^ 64 := by
          have := hrun.1
          simp only [pageSize]
          omega
        simp only [pmmAllocPages, hscan, show count ≠ 0 by omega, if_false, frameToAddr, wrap64_of_lt haddr,
          if_pos (count_le_freeFrames hs hrun), Pmm.take]

theorem freeLoop_eq_of_taken {s : Pmm} {start count : Nat} (hbound : start + count ≤ s.totalFrames)
    (htaken : ∀ i < count, bitmapGet s.bitmap (start + i) = false) :
    freeLoop count start s =
      { s with
        bitmap := markFrames s.bitmap true (List.range' start count)
        freeFrames := s.freeFrames + count } := by
  induction count generalizing start s with
  | zero => rfl
  | succ count ih =>
      have hhead : bitmapGet s.bitmap start = false := by simpa using htaken 0 (by omega)
      rw [freeLoop, if_pos (show start < s.totalFrames by omega), hhead]
      have hrest : ∀ i < count, bitmapGet (bitmapSet s.bitmap start true) (start + 1 + i) = false := by
        intro i hi
        rw [bitmapGet_bitmapSet, if_neg (by omega), show start + 1 + i = start + (i + 1) by omega]
        exact htaken (i + 1) (by omega)
      simp only [Bool.false_eq_true, if_false]
      rw [ih (by simpa using (by omega : start + 1 + count ≤ s.totalFrames)) hrest, List.range'_succ]
      simp only [markFrames, List.foldl_cons, Pmm.mk.injEq, true_and]
      omega

/-- `pmm_free_pages` of a taken range gives exactly that range back. -/
theorem pmmFreePages_of_taken {s : Pmm} {start count : Nat} (hpos : 0 < start) (hcount : 0 < count)
    (hbound : start + count ≤ s.totalFrames) (htaken : ∀ i < count, bitmapGet s.bitmap (start + i) = false) :
    pmmFreePages s (start * pageSize) count = s.giveBack start count := by
  have hne : start * pageSize ≠ 0 := by simp only [pageSize]; omega
  have hframe : addrToFrame (start * pageSize) = start := Nat.mul_div_cancel _ (by decide)
  have haligned : start * pageSize % pageSize = 0 := Nat.mul_mod_left _ _
  simp only [pmmFreePages, hne, show count ≠ 0 by omega, or_self, if_false, haligned, ne_eq, not_true_eq_false,
    hframe, freeLoop_eq_of_taken hbound htaken, Pmm.giveBack]
  split
  · rw [Nat.min_eq_right (by omega)]
  · rw [Nat.min_eq_left (by omega)]

theorem Pmm.Inv.take {s : Pmm} (hs : s.Inv) {start count : Nat} (hrun : FreeRun s start count) :
    (s.take start count).Inv where
  total := hs.total
  first_le := hs.first_le
  below frame hframe := by
    rw [Pmm.bitmapGet_take]
    split
    · rfl
    · exact hs.below frame hframe
  zero := by
    rw [Pmm.bitmapGet_take]
    split
    · rfl
    · exact hs.zero
  count := by
    have hcount := freeCount_markFrames_false hrun.1 hrun.2
    have := hs.count
    simp only [Pmm.take]
    omega

theorem Pmm.Inv.giveBack {s : Pmm} (hs : s.Inv) {start count : Nat} (hpos : 0 < start)
    (hbound : start + count ≤ s.totalFrames) (htaken : ∀ i < count, bitmapGet s.bitmap (start + i) = false) :
    (s.giveBack start count).Inv where
  total := hs.total
  first_le := le_trans (Nat.min_le_left _ _) hs.first_le
  below frame hframe := by
    have hlt : frame < min s.firstUsable start := hframe
    rw [Pmm.bitmapGet_giveBack, if_neg (by omega)]
    exact hs.below frame (by omega)
  zero := by
    rw [Pmm.bitmapGet_giveBack, if_neg (by omega)]
    exact hs.zero
  count := by
    -- taking the returned frames again is the identity on the bits
    have hrun : ∀ i < count, bitmapGet (s.giveBack start count).bitmap (start + i) = true := by
      intro i hi
      rw [Pmm.bitmapGet_giveBack, if_pos (by omega)]
    have hcount := freeCount_markFrames_false (b := (s.giveBack start count).bitmap) hbound hrun
    have hsame : freeCount (markFrames (s.giveBack start count).bitmap false (List.range' start count)) s.totalFrames
        = freeCount s.bitmap s.totalFrames := by
      refine freeCount_congr fun frame _ => ?_
      simp only [bitmapGet_markFrames, List.mem_range'_1, Pmm.bitmapGet_giveBack]
      split
      · rename_i hin
        have := htaken (frame - start) (by omega)
        rw [show start + (frame - start) = frame by omega] at this
        exact this.symm
      · rfl
    have := hs.count
    show s.freeFrames + count = freeCount (s.giveBack start count).bitmap s.totalFrames
    omega

end Tsukasa
