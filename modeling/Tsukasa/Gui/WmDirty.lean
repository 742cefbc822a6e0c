import Tsukasa.Gui.Wm
import Tsukasa.Lib.Run
import Mathlib.Data.Set.Basic

/-!
# Dirty regions

What has been marked since the last collect, as a set of pixels, and the queue that has to cover it. The screen is what the code takes it to be: its width and its height are read as an `int`.
-/

namespace Tsukasa

def WmDirtyRect.pixels (r : WmDirtyRect) : Set (Int × Int) := {p | r.x ≤ p.1 ∧ p.1 < r.x + r.w ∧ r.y ≤ p.2 ∧ p.2 < r.y + r.h}

def FbInfo.screen (fb : FbInfo) : Set (Int × Int) := {p | 0 ≤ p.1 ∧ p.1 < toInt32 fb.width ∧ 0 ≤ p.2 ∧ p.2 < toInt32 fb.height}

/-- The pixels of some rectangles. -/
def area (rects : List WmDirtyRect) : Set (Int × Int) := {p | ∃ r ∈ rects, p ∈ r.pixels}

variable {fb : FbInfo} {dirty marked : List WmDirtyRect} {r : WmDirtyRect} {x y w h : Int}

theorem WmDirtyRect.mem_pixels {r : WmDirtyRect} {p : Int × Int} :
    p ∈ r.pixels ↔ r.x ≤ p.1 ∧ p.1 < r.x + r.w ∧ r.y ≤ p.2 ∧ p.2 < r.y + r.h := Iff.rfl

theorem FbInfo.mem_screen {p : Int × Int} : p ∈ fb.screen ↔ 0 ≤ p.1 ∧ p.1 < toInt32 fb.width ∧ 0 ≤ p.2 ∧ p.2 < toInt32 fb.height := Iff.rfl

theorem mem_area {rects : List WmDirtyRect} {p : Int × Int} : p ∈ area rects ↔ ∃ r ∈ rects, p ∈ r.pixels := Iff.rfl

theorem area_append (rects rects' : List WmDirtyRect) : area (rects ++ rects') = area rects ∪ area rects' := by
  ext p
  simp only [mem_area, List.mem_append, Set.mem_union, or_and_right, exists_or]

theorem area_singleton (r : WmDirtyRect) : area [r] = r.pixels := by
  ext p
  simp [mem_area]

/-- A region that a collect may return. -/
structure WmDirtyRect.OnScreen (fb : FbInfo) (r : WmDirtyRect) : Prop where
  nonempty : r.pixels.Nonempty
  inside : r.pixels ⊆ fb.screen

theorem WmDirtyRect.onScreen_of (hx : 0 ≤ r.x) (hw : 0 < r.w) (hright : r.x + r.w ≤ toInt32 fb.width) (hy : 0 ≤ r.y) (hh : 0 < r.h)
    (hbottom : r.y + r.h ≤ toInt32 fb.height) : r.OnScreen fb where
  nonempty := by
    refine ⟨(r.x, r.y), mem_pixels.mpr ?_⟩
    simp only
    omega
  inside := by
    intro p hp
    rw [mem_pixels] at hp
    rw [FbInfo.mem_screen]
    omega

/-! ### Clipping -/

/-- One side of a rectangle, clipped to the screen: the clipped length is positive only on the screen, and the pixels of the side that are on the screen remain. -/
theorem clip_side (x w side : Int) (hside : -2 ^ 31 ≤ side ∧ side < 2 ^ 31) (hw : 0 < w) :
    int32 (clampi (x + w) 0 side - clampi x 0 side) = clampi (x + w) 0 side - clampi x 0 side ∧
      (0 < clampi (x + w) 0 side - clampi x 0 side → 0 ≤ clampi x 0 side ∧ clampi (x + w) 0 side ≤ side) ∧
      ∀ p, 0 ≤ p → p < side → x ≤ p → p < x + w → clampi x 0 side ≤ p ∧ p < clampi (x + w) 0 side := by
  simp only [clampi]
  refine ⟨int32_eq_self ?_ ?_, ?_, ?_⟩
  · grind
  · grind
  · grind
  · grind

/-! ### The calls -/

/-- The queue covers what has been marked, and each region in it may be returned. -/
structure DirtyOk (fb : FbInfo) (dirty marked : List WmDirtyRect) : Prop where
  covers : area marked ∩ fb.screen ⊆ area dirty
  onScreen : ∀ r ∈ dirty, r.OnScreen fb
  room : dirty.length ≤ wmDirtyMax

theorem DirtyOk.nil (fb : FbInfo) : DirtyOk fb [] [] where
  covers _ hp := hp.1
  onScreen _ hr := absurd hr List.not_mem_nil
  room := Nat.zero_le _

/-- A rectangle enters the queue if its part on the screen does. -/
theorem DirtyOk.push (hok : DirtyOk fb dirty marked) (hcovers : (⟨x, y, w, h⟩ : WmDirtyRect).pixels ∩ fb.screen ⊆ r.pixels)
    (hscreen : r.OnScreen fb) (hroom : dirty.length < wmDirtyMax) : DirtyOk fb (dirty ++ [r]) (marked ++ [⟨x, y, w, h⟩]) where
  covers := by
    rw [area_append, area_append, area_singleton, area_singleton, Set.union_inter_distrib_right]
    exact Set.union_subset_union hok.covers hcovers
  onScreen := by
    intro r' hr'
    rcases List.mem_append.mp hr' with hold | hnew
    · exact hok.onScreen r' hold
    · rw [List.mem_singleton.mp hnew]
      exact hscreen
  room := by
    rw [List.length_append, List.length_singleton]
    exact hroom

/-- Nothing of the rectangle is on the screen. -/
theorem DirtyOk.skip (hok : DirtyOk fb dirty marked) (hempty : (⟨x, y, w, h⟩ : WmDirtyRect).pixels ∩ fb.screen = ∅) :
    DirtyOk fb dirty (marked ++ [⟨x, y, w, h⟩]) where
  covers := by
    rw [area_append, area_singleton, Set.union_inter_distrib_right, hempty, Set.union_empty]
    exact hok.covers
  onScreen := hok.onScreen
  room := hok.room

/-- One region for the whole screen. -/
theorem DirtyOk.collapse (hwidth : 0 < toInt32 fb.width) (hheight : 0 < toInt32 fb.height) (marked : List WmDirtyRect) :
    DirtyOk fb [⟨0, 0, toInt32 fb.width, toInt32 fb.height⟩] marked where
  covers := by
    rintro p ⟨-, hp⟩
    rw [area_singleton]
    simpa only [WmDirtyRect.mem_pixels, FbInfo.mem_screen, Int.zero_add] using hp
  onScreen r hr := by
    rw [List.mem_singleton.mp hr]
    exact WmDirtyRect.onScreen_of le_rfl hwidth (Int.zero_add _).le le_rfl hheight (Int.zero_add _).le
  room := Nat.le_of_ble_eq_true rfl

theorem wmMarkDirtyRect_ok (hok : DirtyOk fb dirty marked) (hwidth : fb.width ≠ 0) (hheight : fb.height ≠ 0) (hx : int32 (x + w) = x + w)
    (hy : int32 (y + h) = y + h) : DirtyOk fb (wmMarkDirtyRect fb dirty x y w h) (marked ++ [⟨x, y, w, h⟩]) := by
  rw [wmMarkDirtyRect]
  by_cases hempty : w ≤ 0 ∨ h ≤ 0
  · rw [if_pos hempty]
    refine hok.skip (Set.eq_empty_of_forall_notMem ?_)
    rintro p ⟨hp, -⟩
    simp only [WmDirtyRect.mem_pixels] at hp
    omega
  obtain ⟨hcw, hinx, hkeepx⟩ := clip_side x w (toInt32 fb.width) (toInt32_bounds _) (by omega)
  obtain ⟨hch, hiny, hkeepy⟩ := clip_side y h (toInt32 fb.height) (toInt32_bounds _) (by omega)
  simp only [if_neg hempty, if_pos (And.intro hwidth hheight), hx, hy, hcw, hch]
  generalize clampi x 0 (toInt32 fb.width) = cx at *
  generalize clampi y 0 (toInt32 fb.height) = cy at *
  generalize clampi (x + w) 0 (toInt32 fb.width) = cx1 at *
  generalize clampi (y + h) 0 (toInt32 fb.height) = cy1 at *
  -- what is marked on the screen is in the clipped rectangle
  have hclipped : (⟨x, y, w, h⟩ : WmDirtyRect).pixels ∩ fb.screen ⊆ (⟨cx, cy, cx1 - cx, cy1 - cy⟩ : WmDirtyRect).pixels := by
    rintro p ⟨hp, hscreen⟩
    simp only [WmDirtyRect.mem_pixels] at hp ⊢
    rw [FbInfo.mem_screen] at hscreen
    have hpx := hkeepx p.1 hscreen.1 hscreen.2.1 hp.1 hp.2.1
    have hpy := hkeepy p.2 hscreen.2.2.1 hscreen.2.2.2 hp.2.2.1 hp.2.2.2
    omega
  by_cases hnone : cx1 - cx ≤ 0 ∨ cy1 - cy ≤ 0
  · rw [if_pos hnone]
    refine hok.skip (Set.eq_empty_of_forall_notMem ?_)
    intro p hp
    have hin := hclipped hp
    simp only [WmDirtyRect.mem_pixels] at hin
    omega
  rw [if_neg hnone]
  have hx0 := hinx (by omega)
  have hy0 := hiny (by omega)
  split
  · exact DirtyOk.collapse (by omega) (by omega) _
  · refine hok.push hclipped (WmDirtyRect.onScreen_of hx0.1 ?_ ?_ hy0.1 ?_ ?_) (by omega)
    all_goals simp only
    all_goals omega

theorem wmCollectDirtyRegions_eq (hroom : dirty.length ≤ wmDirtyMax) {max : Int} (hmax : (wmDirtyMax : Int) ≤ max) :
    wmCollectDirtyRegions dirty max = (dirty, []) := by
  have hpos : ¬max ≤ 0 := by
    have : (0 : Int) < wmDirtyMax := by decide
    omega
  rw [wmCollectDirtyRegions, if_neg hpos, List.take_of_length_le]
  omega

/-! ### Runs -/

inductive DirtyStep where
  | mark (x y w h : Int)
  | collect (max : Int)

/-- The queue, and the rectangles marked since the last collect. -/
structure DirtyState where
  dirty : List WmDirtyRect
  marked : List WmDirtyRect

namespace DirtyStep

def step (fb : FbInfo) (s : DirtyState) : DirtyStep → DirtyState
  | mark x y w h => ⟨wmMarkDirtyRect fb s.dirty x y w h, s.marked ++ [⟨x, y, w, h⟩]⟩
  | collect max => ⟨(wmCollectDirtyRegions s.dirty max).2, []⟩

/-- The far corner of a marked rectangle is representable, and a collect has room for a full queue. -/
def Proper (_ : DirtyState) : DirtyStep → Prop
  | mark x y w h => int32 (x + w) = x + w ∧ int32 (y + h) = y + h
  | collect max => (wmDirtyMax : Int) ≤ max

instance (s : DirtyState) : (a : DirtyStep) → Decidable (a.Proper s)
  | mark x y w h => inferInstanceAs (Decidable (int32 (x + w) = x + w ∧ int32 (y + h) = y + h))
  | collect max => inferInstanceAs (Decidable ((wmDirtyMax : Int) ≤ max))

/-- A collect returns every pixel of the screen that has been marked, in regions that are on the screen. -/
def Complete (fb : FbInfo) (s : DirtyState) : DirtyStep → Prop
  | mark _ _ _ _ => True
  | collect max =>
      area s.marked ∩ fb.screen ⊆ area (wmCollectDirtyRegions s.dirty max).1 ∧ ∀ r ∈ (wmCollectDirtyRegions s.dirty max).1, r.OnScreen fb

theorem step_ok (hwidth : fb.width ≠ 0) (hheight : fb.height ≠ 0) {s : DirtyState} (a : DirtyStep) (hok : DirtyOk fb s.dirty s.marked)
    (hproper : a.Proper s) : DirtyOk fb (a.step fb s).dirty (a.step fb s).marked := by
  cases a with
  | mark x y w h => exact wmMarkDirtyRect_ok hok hwidth hheight hproper.1 hproper.2
  | collect max =>
      simp only [step, wmCollectDirtyRegions_eq hok.room hproper]
      exact DirtyOk.nil fb

theorem complete_of_ok {s : DirtyState} (a : DirtyStep) (hok : DirtyOk fb s.dirty s.marked) (hproper : a.Proper s) : a.Complete fb s := by
  cases a with
  | mark => trivial
  | collect max =>
      simp only [Complete, wmCollectDirtyRegions_eq hok.room hproper]
      exact ⟨hok.covers, hok.onScreen⟩

end DirtyStep

/-- No damage is lost: from an empty queue on, every collect is complete. -/
theorem no_damage_lost (fb : FbInfo) (hwidth : fb.width ≠ 0) (hheight : fb.height ≠ 0) (steps : List DirtyStep)
    (hproper : Lib.Allowed DirtyStep.Proper (DirtyStep.step fb) ⟨[], []⟩ steps) :
    Lib.Allowed (DirtyStep.Complete fb) (DirtyStep.step fb) ⟨[], []⟩ steps :=
  Lib.allowed_of_invariant (fun _ (a : DirtyStep) hok ha => a.step_ok hwidth hheight hok ha) (fun _ (a : DirtyStep) hok ha => a.complete_of_ok hok ha)
    (DirtyOk.nil fb) hproper

/-- More marks than the queue holds, one of them across the upper left corner, then a collect. -/
def manyMarks : List DirtyStep :=
  (List.range 130).map (fun i => .mark i 0 5 5) ++ [.mark (-5) (-5) 20 20, .collect 128]

theorem no_damage_lost_many :
    Lib.Allowed (DirtyStep.Complete ⟨0xE0000000, 4096, 1024, 768, 32⟩) (DirtyStep.step ⟨0xE0000000, 4096, 1024, 768, 32⟩) ⟨[], []⟩ manyMarks :=
  no_damage_lost _ (by decide) (by decide) manyMarks (by decide +kernel)

end Tsukasa
