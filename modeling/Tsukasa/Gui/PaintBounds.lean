import Tsukasa.Gui.GuiPaint
import Tsukasa.Gui.WmDirty
import Tsukasa.Lib.Grid

/-!
# Painting inside client buffers

Which pixels a call paints is a set of places in the client area. The code numbers them row after row in an `int`, so a place comes out inside the buffer as long as its number does not get into the upper half of the 32 bits. The clipping keeps rectangles and texts to the client area; an image whose right or lower end is beyond the `int`s is not clipped.
-/

namespace Tsukasa

open Lib (gridNumber gridNumber_nonneg gridNumber_lt gridNumber_mod_lt_iff)

variable {gw : GuiWindow} {color : BitVec 32} {ps : List ClientStore} {A B : Set (Int × Int)} {x y w h client : Int} {r : WmDirtyRect}

/-! ### Numbers of pixels -/

theorem pixelIndex_eq (width row col : Int) : pixelIndex width row col = int32 (gridNumber width row col) := int32_int32_add _ _

theorem pixelIndex_int32 (width row col : Int) : pixelIndex width (int32 row) (int32 col) = int32 (gridNumber width row col) := by
  rw [pixelIndex, int32_int32_mul, int32_int32_add, int32_add_int32]
  rfl

/-- An index is inside a buffer when the number is, in the lower half of its block. -/
theorem int32_inside_iff (v size : Int) : 0 ≤ int32 v ∧ int32 v < size ↔ v % 2 ^ 32 < min (2 ^ 31) size := by
  rw [int32, Int.bmod_def]
  split <;> omega

/-- A window with its client area; the sides are `int`s. -/
structure GuiWindow.Sized (gw : GuiWindow) : Prop where
  width : 0 ≤ gw.clientW ∧ gw.clientW < 2 ^ 31
  height : 0 ≤ gw.clientH ∧ gw.clientH < 2 ^ 31

def GuiWindow.clientPixels (gw : GuiWindow) : Set (Int × Int) := {p | 0 ≤ p.1 ∧ p.1 < gw.clientW ∧ 0 ≤ p.2 ∧ p.2 < gw.clientH}

/-- The number that a pixel `(x, y)` has in the client buffer. -/
def GuiWindow.number (gw : GuiWindow) (p : Int × Int) : Int := gridNumber gw.clientW p.2 p.1

theorem GuiWindow.number_bounds {p : Int × Int} (hp : p ∈ gw.clientPixels) : 0 ≤ gw.number p ∧ gw.number p < gw.clientW * gw.clientH := by
  obtain ⟨hleft, hright, htop, hbottom⟩ := hp
  exact ⟨gridNumber_nonneg (by omega) htop hleft, gridNumber_lt (by omega) hbottom hright⟩

/-! ### Painting a set of pixels -/

/-- The stores go to the pixels of a set and to no others, and read no image. -/
structure Paints (gw : GuiWindow) (ps : List ClientStore) (A : Set (Int × Int)) : Prop where
  sound : ∀ p ∈ ps, p.read = none ∧ ∃ q ∈ A, p.index = int32 (gw.number q)
  complete : ∀ q ∈ A, ∃ p ∈ ps, p.index = int32 (gw.number q)

theorem Paints.congr (h : Paints gw ps A) (heq : A = B) : Paints gw ps B := heq ▸ h

theorem Paints.nil : Paints gw [] ∅ := ⟨fun _ hp => absurd hp List.not_mem_nil, fun _ hq => absurd hq (Set.notMem_empty _)⟩

/-- A loop paints what its rounds paint. -/
theorem Paints.flatMap {β : Type} {l : List β} {round : β → List ClientStore} {A : β → Set (Int × Int)} (h : ∀ b ∈ l, Paints gw (round b) (A b)) :
    Paints gw (l.flatMap round) {q | ∃ b ∈ l, q ∈ A b} where
  sound p hp := by
    obtain ⟨b, hb, hp⟩ := List.mem_flatMap.mp hp
    obtain ⟨hread, q, hq, hindex⟩ := (h b hb).sound p hp
    exact ⟨hread, q, ⟨b, hb, hq⟩, hindex⟩
  complete q hq := by
    obtain ⟨b, hb, hq⟩ := hq
    obtain ⟨p, hp, hindex⟩ := (h b hb).complete q hq
    exact ⟨p, List.mem_flatMap.mpr ⟨b, hb, hp⟩, hindex⟩

theorem Paints.map {β : Type} {l : List β} {store : β → ClientStore} (place : β → Int × Int)
    (h : ∀ b ∈ l, (store b).read = none ∧ (store b).index = int32 (gw.number (place b))) : Paints gw (l.map store) {q | ∃ b ∈ l, q = place b} where
  sound p hp := by
    obtain ⟨b, hb, rfl⟩ := List.mem_map.mp hp
    exact ⟨(h b hb).1, place b, ⟨b, hb, rfl⟩, (h b hb).2⟩
  complete q hq := by
    obtain ⟨b, hb, rfl⟩ := hq
    exact ⟨store b, List.mem_map_of_mem hb, (h b hb).2⟩

/-- A store inside the client buffer, which reads inside an image of `size` pixels. -/
structure ClientStore.Inside (gw : GuiWindow) (size : Int) (p : ClientStore) : Prop where
  index : 0 ≤ p.index ∧ p.index < gw.clientW * gw.clientH
  read : ∀ j ∈ p.read, 0 ≤ j ∧ j < size

/-- What is painted of the client area comes out inside exactly when no number gets into the upper half. -/
theorem Paints.inside_iff (h : Paints gw ps A) (hA : A ⊆ gw.clientPixels) (size : Int) :
    (∀ p ∈ ps, p.Inside gw size) ↔ ∀ q ∈ A, gw.number q % 2 ^ 32 < 2 ^ 31 := by
  constructor
  · intro hinside q hq
    obtain ⟨p, hp, hindex⟩ := h.complete q hq
    have hin := (hinside p hp).index
    rw [hindex, int32_inside_iff] at hin
    omega
  · intro hlow p hp
    obtain ⟨hread, q, hq, hindex⟩ := h.sound p hp
    have hbounds := GuiWindow.number_bounds (hA hq)
    have hq := hlow q hq
    refine ⟨?_, fun j hj => ?_⟩
    · rw [hindex, int32_inside_iff]
      omega
    · rw [hread] at hj
      cases hj

/-! ### Rectangles -/

/-- The part of a rectangle that is in the client area. -/
def visibleRect (gw : GuiWindow) (x y w h : Int) : WmDirtyRect :=
  ⟨max x 0, max y 0, min (x + w) gw.clientW - max x 0, min (y + h) gw.clientH - max y 0⟩

/-- One side of a rectangle that is clipped to the client area. -/
theorem clipSide_eq (hx : -2 ^ 31 ≤ x ∧ x < 2 ^ 31) (hw : 0 < w ∧ w < 2 ^ 31) (hclient : 0 ≤ client ∧ client < 2 ^ 31) :
    let x₀ := if x < 0 then 0 else x
    let x₁ := if client < int32 (x + w) then client else int32 (x + w)
    (¬ x₁ ≤ x₀ ↔ x + w < 2 ^ 31 ∧ 0 < min (x + w) client - max x 0) ∧
      (¬ x₁ ≤ x₀ → x₀ = max x 0 ∧ int32 (x₁ - x₀) = min (x + w) client - max x 0) := by
  dsimp only
  have hstart : (if x < 0 then 0 else x) = max x 0 := by split <;> omega
  rw [hstart]
  by_cases hend : x + w < 2 ^ 31
  · have hlimit : (if client < int32 (x + w) then client else int32 (x + w)) = min (x + w) client := by
      rw [int32_eq_self (by omega) hend]
      split <;> omega
    rw [hlimit, int32_eq_self (by omega) (by omega)]
    omega
  · have hwrap : int32 (x + w) < 0 := by
      rw [int32, Int.bmod_def]
      split <;> omega
    rw [if_neg (by omega)]
    omega

/-- The clipping gives this part, or nothing when there is none or when an end of the rectangle is beyond the `int`s. -/
theorem clipRectToClient_eq (hgw : gw.Sized) (hx : -2 ^ 31 ≤ x ∧ x < 2 ^ 31) (hy : -2 ^ 31 ≤ y ∧ y < 2 ^ 31) (hw : w < 2 ^ 31) (hh : h < 2 ^ 31) :
    clipRectToClient gw x y w h =
      if x + w < 2 ^ 31 ∧ y + h < 2 ^ 31 ∧ 0 < (visibleRect gw x y w h).w ∧ 0 < (visibleRect gw x y w h).h then some (visibleRect gw x y w h)
      else none := by
  rw [clipRectToClient, visibleRect]
  dsimp only
  split
  · rw [if_neg (by omega)]
  · rename_i hpos
    obtain ⟨hcols, hcols'⟩ := clipSide_eq hx ⟨by omega, hw⟩ hgw.width
    obtain ⟨hrows, hrows'⟩ := clipSide_eq hy ⟨by omega, hh⟩ hgw.height
    generalize (if gw.clientW < int32 (x + w) then gw.clientW else int32 (x + w)) = x₁ at hcols hcols' ⊢
    generalize (if gw.clientH < int32 (y + h) then gw.clientH else int32 (y + h)) = y₁ at hrows hrows' ⊢
    generalize (if x < 0 then 0 else x) = x₀ at hcols hcols' ⊢
    generalize (if y < 0 then 0 else y) = y₀ at hrows hrows' ⊢
    split
    · rename_i hempty
      rw [if_neg]
      rintro ⟨hright, hbottom, hwidth, hheight⟩
      rcases hempty with hempty | hempty
      · exact absurd hempty (hcols.mpr ⟨hright, hwidth⟩)
      · exact absurd hempty (hrows.mpr ⟨hbottom, hheight⟩)
    · rename_i hempty
      obtain ⟨hcol, hrow⟩ := not_or.mp hempty
      obtain ⟨hright, hwidth⟩ := hcols.mp hcol
      obtain ⟨hbottom, hheight⟩ := hrows.mp hrow
      obtain ⟨hx₀, hlen⟩ := hcols' hcol
      obtain ⟨hy₀, hlen'⟩ := hrows' hrow
      rw [if_pos ⟨hright, hbottom, hwidth, hheight⟩, hx₀, hy₀]
      rw [hx₀] at hlen
      rw [hy₀] at hlen'
      rw [hlen, hlen']

theorem visibleRect_client (x y w h : Int) : (visibleRect gw x y w h).pixels ⊆ gw.clientPixels := by
  intro q hq
  rw [WmDirtyRect.mem_pixels, visibleRect] at hq
  dsimp only at hq
  exact ⟨by omega, by omega, by omega, by omega⟩

theorem visibleRect_end (hgw : gw.Sized) (hw : 0 < (visibleRect gw x y w h).w) (hh : 0 < (visibleRect gw x y w h).h) :
    int32 ((visibleRect gw x y w h).x + (visibleRect gw x y w h).w) = (visibleRect gw x y w h).x + (visibleRect gw x y w h).w ∧
      int32 ((visibleRect gw x y w h).y + (visibleRect gw x y w h).h) = (visibleRect gw x y w h).y + (visibleRect gw x y w h).h := by
  have hwidth := hgw.width
  have hheight := hgw.height
  rw [visibleRect] at hw hh ⊢
  dsimp only at hw hh ⊢
  exact ⟨int32_eq_self (by omega) (by omega), int32_eq_self (by omega) (by omega)⟩

/-- A place is a column and a row of the loops over a rectangle. -/
theorem mem_pixels_iff_loops {q : Int × Int} :
    q ∈ r.pixels ↔ ∃ row ∈ List.range r.h.toNat, ∃ col ∈ List.range r.w.toNat, q = (r.x + (col : Int), r.y + (row : Int)) := by
  rw [WmDirtyRect.mem_pixels]
  constructor
  · rintro ⟨hleft, hright, htop, hbottom⟩
    refine ⟨(q.2 - r.y).toNat, List.mem_range.mpr (by omega), (q.1 - r.x).toNat, List.mem_range.mpr (by omega), Prod.ext ?_ ?_⟩
    · dsimp only
      omega
    · dsimp only
      omega
  · rintro ⟨row, hrow, col, hcol, rfl⟩
    rw [List.mem_range] at hrow hcol
    dsimp only
    omega

theorem rectLoops_paints (gw : GuiWindow) (r : WmDirtyRect) (color : BitVec 32) : Paints gw (rectLoops gw r color) r.pixels := by
  have hrows : ∀ row ∈ List.range r.h.toNat, Paints gw ((List.range r.w.toNat).map fun (col : Nat) =>
      (⟨pixelIndex gw.clientW (int32 (r.y + row)) (int32 (r.x + col)), none, color ||| alphaOpaque⟩ : ClientStore))
      {q | ∃ col ∈ List.range r.w.toNat, q = (r.x + (col : Int), r.y + (row : Int))} :=
    fun row _ => Paints.map _ fun col _ => ⟨rfl, pixelIndex_int32 _ _ _⟩
  refine (Paints.flatMap hrows).congr ?_
  ext q
  exact mem_pixels_iff_loops.symm

/-- The pixels of a rounded rectangle: the corners that the test finds are left out. -/
def roundedPixels (r : WmDirtyRect) (radius : Int) : Set (Int × Int) := {q | q ∈ r.pixels ∧ inRounded r (clampRadius r radius) q.1 q.2 = true}

theorem roundedLoops_paints (gw : GuiWindow) (hx : int32 (r.x + r.w) = r.x + r.w) (hy : int32 (r.y + r.h) = r.y + r.h) (radius : Int) (color : BitVec 32) :
    Paints gw (roundedLoops gw r radius color) (roundedPixels r radius) := by
  have hwidth : int32 (r.x + r.w) - r.x = r.w := by omega
  have hheight : int32 (r.y + r.h) - r.y = r.h := by omega
  rw [roundedLoops, hwidth, hheight]
  have hrows : ∀ row ∈ List.range r.h.toNat, Paints gw
      (((List.range r.w.toNat).filter fun (col : Nat) => inRounded r (clampRadius r radius) (r.x + col) (r.y + row)).map fun (col : Nat) =>
        (⟨pixelIndex gw.clientW (r.y + row) (r.x + col), none, color ||| alphaOpaque⟩ : ClientStore))
      {q | ∃ col ∈ (List.range r.w.toNat).filter fun (col : Nat) => inRounded r (clampRadius r radius) (r.x + col) (r.y + row),
        q = (r.x + (col : Int), r.y + (row : Int))} :=
    fun row _ => Paints.map _ fun col _ => ⟨rfl, pixelIndex_eq _ _ _⟩
  refine (Paints.flatMap hrows).congr ?_
  ext q
  constructor
  · rintro ⟨row, hrow, col, hcol, rfl⟩
    obtain ⟨hcol, hin⟩ := List.mem_filter.mp hcol
    exact ⟨mem_pixels_iff_loops.mpr ⟨row, hrow, col, hcol, rfl⟩, hin⟩
  · rintro ⟨hq, hin⟩
    obtain ⟨row, hrow, col, hcol, rfl⟩ := mem_pixels_iff_loops.mp hq
    exact ⟨row, hrow, col, List.mem_filter.mpr ⟨hcol, hin⟩, rfl⟩

/-! ### Texts -/

/-- The pixels of a character, where the client area has them: the bits of its glyph. -/
def glyphPixels (gw : GuiWindow) (x y : Int) (c : UInt8) : Set (Int × Int) :=
  {q | gw.pixels ≠ 0 ∧ c.toNat < 128 ∧ q ∈ gw.clientPixels ∧ ∃ row < fontHeight, ∃ col < fontWidth,
    (glyphRow c row).testBit (7 - col) = true ∧ q = (int32 (x + (col : Int)), int32 (y + (row : Int)))}

/-- The pixels of a text: each character has its place, counted in `int`s. -/
def textPixels (gw : GuiWindow) (x y : Int) (text : List UInt8) : Set (Int × Int) :=
  {q | ∃ (i : Nat) (c : UInt8), text[i]? = some c ∧ q ∈ glyphPixels gw (x + i * fontWidth) y c}

theorem glyphPixels_int32 (gw : GuiWindow) (x y : Int) (c : UInt8) : glyphPixels gw (int32 x) y c = glyphPixels gw x y c := by
  simp only [glyphPixels, int32_int32_add]

theorem drawCharToBuffer_paints (gw : GuiWindow) (x y : Int) (c : UInt8) (color : BitVec 32) :
    Paints gw (drawCharToBuffer gw x y c color) (glyphPixels gw x y c) := by
  rw [drawCharToBuffer]
  split
  · rename_i hnone
    refine Paints.nil.congr ?_
    ext q
    refine ⟨fun hq => absurd hq (Set.notMem_empty q), ?_⟩
    rintro ⟨hpixels, hc, -⟩
    exact absurd hnone (not_or.mpr ⟨hpixels, Nat.not_le.mpr hc⟩)
  rename_i hdraw
  obtain ⟨hpixels, hc⟩ := not_or.mp hdraw
  have hrow : ∀ row ∈ List.range fontHeight, Paints gw
      (if int32 (y + row) < 0 ∨ gw.clientH ≤ int32 (y + row) then []
        else
          ((List.range fontWidth).filter fun (col : Nat) =>
            ¬ (int32 (x + col) < 0 ∨ gw.clientW ≤ int32 (x + col)) ∧ (glyphRow c row).testBit (7 - col)).map
              fun (col : Nat) => ⟨pixelIndex gw.clientW (int32 (y + row)) (int32 (x + col)), none, color ||| alphaOpaque⟩)
      {q | q ∈ gw.clientPixels ∧ ∃ col < fontWidth, (glyphRow c row).testBit (7 - col) = true ∧ q = (int32 (x + (col : Int)), int32 (y + (row : Int)))} := by
    intro row _
    split
    · rename_i hout
      refine Paints.nil.congr ?_
      ext q
      refine ⟨fun hq => absurd hq (Set.notMem_empty q), ?_⟩
      rintro ⟨⟨-, -, htop, hbottom⟩, col, -, -, rfl⟩
      exact absurd hout (not_or.mpr ⟨Int.not_lt.mpr htop, Int.not_le.mpr hbottom⟩)
    · rename_i hin
      obtain ⟨htop, hbottom⟩ := not_or.mp hin
      refine (Paints.map (fun (col : Nat) => (int32 (x + col), int32 (y + row))) fun col _ => ⟨rfl, pixelIndex_eq _ _ _⟩).congr ?_
      ext q
      constructor
      · rintro ⟨col, hcol, rfl⟩
        obtain ⟨hcol, hbit⟩ := List.mem_filter.mp hcol
        rw [decide_eq_true_eq] at hbit
        obtain ⟨hleft, hright⟩ := not_or.mp hbit.1
        exact ⟨⟨Int.not_lt.mp hleft, Int.not_le.mp hright, Int.not_lt.mp htop, Int.not_le.mp hbottom⟩, col, List.mem_range.mp hcol, hbit.2, rfl⟩
      · rintro ⟨⟨hleft, hright, -, -⟩, col, hcol, hbit, rfl⟩
        refine ⟨col, List.mem_filter.mpr ⟨List.mem_range.mpr hcol, ?_⟩, rfl⟩
        rw [decide_eq_true_eq]
        exact ⟨not_or.mpr ⟨Int.not_lt.mpr hleft, Int.not_le.mpr hright⟩, hbit⟩
  refine (Paints.flatMap hrow).congr ?_
  ext q
  constructor
  · rintro ⟨row, hrow, hq, col, hcol, hbit, rfl⟩
    exact ⟨hpixels, Nat.not_le.mp hc, hq, row, List.mem_range.mp hrow, col, hcol, hbit, rfl⟩
  · rintro ⟨-, -, hq, row, hrow, col, hcol, hbit, rfl⟩
    exact ⟨row, List.mem_range.mpr hrow, hq, col, hcol, hbit, rfl⟩

theorem textLoop_paints (gw : GuiWindow) (x y : Int) (text : List UInt8) (color : BitVec 32) :
    Paints gw (textLoop gw x y text color) (textPixels gw x y text) := by
  have hchar : ∀ e ∈ text.zipIdx, Paints gw (drawCharToBuffer gw (int32 (x + int32 (e.2 * fontWidth))) y e.1 color)
      (glyphPixels gw (x + e.2 * fontWidth) y e.1) := by
    intro e _
    rw [int32_add_int32, ← glyphPixels_int32]
    exact drawCharToBuffer_paints gw _ y e.1 color
  refine (Paints.flatMap hchar).congr ?_
  ext q
  constructor
  · rintro ⟨e, he, hq⟩
    exact ⟨e.2, e.1, List.mem_zipIdx_iff_getElem?.mp he, hq⟩
  · rintro ⟨i, c, hc, hq⟩
    exact ⟨(c, i), List.mem_zipIdx_iff_getElem?.mpr hc, hq⟩

/-! ### Images -/

/-- All the places from one corner to the other have numbers in the lower half of one block, and inside the grid. -/
def GridFits (width height r₀ r₁ c₀ c₁ : Int) : Prop :=
  gridNumber width r₀ c₀ / 2 ^ 32 = gridNumber width r₁ c₁ / 2 ^ 32 ∧ gridNumber width r₁ c₁ % 2 ^ 32 < min (2 ^ 31) (width * height)

/-- The first row or column of an image that is drawn at `x`. -/
def imageStart (x : Int) : Int := max 0 (-x)

/-- The end of the rows or columns that are drawn. An image that ends beyond the `int`s is not clipped. -/
def imageEnd (x w client : Int) : Int := if x + w < 2 ^ 31 then min w (client - x) else w

theorem clipImageSide_eq (hx : -2 ^ 31 ≤ x ∧ x < 2 ^ 31) (hw : 0 < w ∧ w < 2 ^ 31) (hclient : 0 ≤ client ∧ client < 2 ^ 31) :
    (0 < (clipImageSide x w client).len ↔ imageStart x < imageEnd x w client) ∧
      (imageStart x < imageEnd x w client → clipImageSide x w client =
        ⟨x + imageStart x, imageEnd x w client - imageStart x, imageStart x⟩) := by
  rw [clipImageSide, imageStart, imageEnd]
  by_cases hneg : x < 0
  · have hlen : int32 (w + x) = w + x := int32_eq_self (by omega) (by omega)
    rw [if_pos hneg, if_pos (show x + w < 2 ^ 31 by omega)]
    dsimp only
    rw [hlen, Int.zero_add, hlen]
    split
    · rw [Int.sub_zero, int32_eq_self (by omega) hclient.2]
      dsimp only
      refine ⟨by omega, fun hsome => ?_⟩
      rw [int32_eq_self (by omega) (by omega), ImageSide.mk.injEq]
      omega
    · dsimp only
      refine ⟨by omega, fun hsome => ?_⟩
      rw [int32_eq_self (by omega) (by omega), ImageSide.mk.injEq]
      omega
  · rw [if_neg hneg]
    dsimp only
    by_cases hend : x + w < 2 ^ 31
    · rw [if_pos hend, int32_eq_self (by omega) hend]
      split
      · rw [int32_eq_self (by omega) (by omega), ImageSide.mk.injEq]
        dsimp only
        omega
      · rw [ImageSide.mk.injEq]
        dsimp only
        omega
    · have hwrap : int32 (x + w) < 0 := by
        rw [int32, Int.bmod_def]
        split <;> omega
      rw [if_neg hend, if_neg (show ¬ client < int32 (x + w) by omega), ImageSide.mk.injEq]
      dsimp only
      omega

theorem gridFits_iff {width height r₀ r₁ c₀ c₁ : Int} (hwidth : 0 ≤ width ∧ width < 2 ^ 31) (hr : r₀ ≤ r₁) (hc : c₀ ≤ c₁) :
    GridFits width height r₀ r₁ c₀ c₁ ↔
      ∀ r c, r₀ ≤ r → r ≤ r₁ → c₀ ≤ c → c ≤ c₁ → 0 ≤ int32 (gridNumber width r c) ∧ int32 (gridNumber width r c) < width * height := by
  simp only [int32_inside_iff]
  exact (gridNumber_mod_lt_iff (by decide) (by omega) hwidth.1 (by omega) hr hc).symm

theorem mem_imageLoops {cols rows : ImageSide} {pixels : Int → BitVec 32} {p : ClientStore} : p ∈ imageLoops gw w cols rows pixels ↔
    ∃ row col : Nat, row < rows.len.toNat ∧ col < cols.len.toNat ∧ p = ⟨int32 (gridNumber gw.clientW (rows.draw + row) (cols.draw + col)),
      some (int32 (gridNumber w (rows.src + row) (cols.src + col))), pixels (int32 (gridNumber w (rows.src + row) (cols.src + col))) ||| alphaOpaque⟩ := by
  simp only [imageLoops, List.mem_flatMap, List.mem_range, List.mem_map, pixelIndex_int32]
  constructor
  · rintro ⟨row, hrow, col, hcol, rfl⟩
    exact ⟨row, col, hrow, hcol, rfl⟩
  · rintro ⟨row, col, hrow, hcol, rfl⟩
    exact ⟨row, hrow, col, hcol, rfl⟩

/-- The part of an image from row `r₀` to `r₁` and column `c₀` to `c₁`, drawn at `(x, y)`. -/
theorem imageLoops_inside_iff {r₀ r₁ c₀ c₁ : Int} {pixels : Int → BitVec 32} (hgw : gw.Sized) (hw : 0 ≤ w ∧ w < 2 ^ 31) (hr : r₀ < r₁) (hc : c₀ < c₁) :
    (∀ p ∈ imageLoops gw w ⟨x + c₀, c₁ - c₀, c₀⟩ ⟨y + r₀, r₁ - r₀, r₀⟩ pixels, p.Inside gw (w * h)) ↔
      GridFits gw.clientW gw.clientH (y + r₀) (y + r₁ - 1) (x + c₀) (x + c₁ - 1) ∧ GridFits w h r₀ (r₁ - 1) c₀ (c₁ - 1) := by
  rw [gridFits_iff hgw.width (by omega) (by omega), gridFits_iff hw (by omega) (by omega)]
  constructor
  · intro hinside
    refine ⟨fun r c hr₀ hr₁ hc₀ hc₁ => ?_, fun r c hr₀ hr₁ hc₀ hc₁ => ?_⟩
    · have hplace := (hinside _ (mem_imageLoops.mpr ⟨(r - (y + r₀)).toNat, (c - (x + c₀)).toNat, by dsimp only; omega, by dsimp only; omega, rfl⟩)).index
      have hrow : y + r₀ + ((r - (y + r₀)).toNat : Int) = r := by omega
      have hcol : x + c₀ + ((c - (x + c₀)).toNat : Int) = c := by omega
      dsimp only at hplace
      rwa [hrow, hcol] at hplace
    · have hplace := (hinside _ (mem_imageLoops.mpr ⟨(r - r₀).toNat, (c - c₀).toNat, by dsimp only; omega, by dsimp only; omega, rfl⟩)).read _ rfl
      have hrow : r₀ + ((r - r₀).toNat : Int) = r := by omega
      have hcol : c₀ + ((c - c₀).toNat : Int) = c := by omega
      rwa [hrow, hcol] at hplace
  · rintro ⟨hindex, hread⟩ p hp
    obtain ⟨row, col, hrow, hcol, rfl⟩ := mem_imageLoops.mp hp
    dsimp only at hrow hcol
    refine ⟨hindex (y + r₀ + row) (x + c₀ + col) (by omega) (by omega) (by omega) (by omega), fun j hj => ?_⟩
    cases hj
    exact hread (r₀ + row) (c₀ + col) (by omega) (by omega) (by omega) (by omega)

/-! ### The calls -/

/-- The drawing calls, with the arguments they get from a process. -/
inductive DrawCall where
  | rect (x y w h color : BitVec 32)
  | roundedRect (x y w h radius color : BitVec 32)
  | text (x y : BitVec 32) (text : List UInt8) (color : BitVec 32)
  | image (x y w h : BitVec 32) (pixels : Int → BitVec 32)

namespace DrawCall

/-- What the call stores in the client buffer of a window. -/
def stores (gw : GuiWindow) : DrawCall → List ClientStore
  | rect x y w h color =>
      match clipRectToClient gw x.toInt y.toInt w.toInt h.toInt with
      | none => []
      | some r => rectLoops gw r color
  | roundedRect x y w h radius color =>
      match clipRectToClient gw x.toInt y.toInt w.toInt h.toInt with
      | none => []
      | some r => roundedLoops gw r radius.toInt color
  | text x y s color => textLoop gw x.toInt y.toInt s color
  | image x y w h pixels =>
      let cols := clipImageSide x.toInt w.toInt gw.clientW
      let rows := clipImageSide y.toInt h.toInt gw.clientH
      if w.toInt ≤ 0 ∨ h.toInt ≤ 0 ∨ cols.len ≤ 0 ∨ rows.len ≤ 0 then [] else imageLoops gw w.toInt cols rows pixels

/-- The number of pixels of the image that is read. -/
def imageSize : DrawCall → Int
  | image _ _ w h _ => w.toInt * h.toInt
  | _ => 0

/-- Every store goes to a pixel of the client buffer, and every read to one of the image. -/
def Inside (gw : GuiWindow) (c : DrawCall) : Prop := ∀ p ∈ c.stores gw, p.Inside gw c.imageSize

/-- Nothing is painted of a rectangle with an end beyond the `int`s. -/
def EndsInRange (x y w h : Int) : Prop := x + w < 2 ^ 31 ∧ y + h < 2 ^ 31

/-- The pixels that a rectangle or a text covers. -/
def covered (gw : GuiWindow) : DrawCall → Set (Int × Int)
  | rect x y w h _ => {q | EndsInRange x.toInt y.toInt w.toInt h.toInt ∧ q ∈ (visibleRect gw x.toInt y.toInt w.toInt h.toInt).pixels}
  | roundedRect x y w h radius _ =>
      {q | EndsInRange x.toInt y.toInt w.toInt h.toInt ∧ q ∈ roundedPixels (visibleRect gw x.toInt y.toInt w.toInt h.toInt) radius.toInt}
  | text x y s _ => textPixels gw x.toInt y.toInt s
  | image _ _ _ _ _ => ∅

/-- The part of an image that is drawn has its numbers in range, in the client buffer and in the image. -/
def ImageFits (gw : GuiWindow) (x y w h : Int) : Prop :=
  imageStart x < imageEnd x w gw.clientW → imageStart y < imageEnd y h gw.clientH →
    GridFits gw.clientW gw.clientH (y + imageStart y) (y + imageEnd y h gw.clientH - 1) (x + imageStart x) (x + imageEnd x w gw.clientW - 1) ∧
    GridFits w h (imageStart y) (imageEnd y h gw.clientH - 1) (imageStart x) (imageEnd x w gw.clientW - 1)

/-- The condition for a call to stay inside. In a window of up to `2 ^ 31` pixels all rectangles and texts do. -/
def Fits (gw : GuiWindow) : DrawCall → Prop
  | image x y w h _ => ImageFits gw x.toInt y.toInt w.toInt h.toInt
  | c => gw.clientW * gw.clientH ≤ 2 ^ 31 ∨ ∀ q ∈ c.covered gw, gw.number q % 2 ^ 32 < 2 ^ 31

theorem toInt_bounds (x : BitVec 32) : -2 ^ 31 ≤ x.toInt ∧ x.toInt < 2 ^ 31 := ⟨x.le_toInt, x.toInt_lt⟩

theorem rect_paints (hgw : gw.Sized) (x y w h color : BitVec 32) : Paints gw ((rect x y w h color).stores gw) ((rect x y w h color).covered gw) := by
  rw [stores, covered, clipRectToClient_eq hgw (toInt_bounds x) (toInt_bounds y) (toInt_bounds w).2 (toInt_bounds h).2]
  split_ifs with hclip
  · refine (rectLoops_paints gw _ color).congr ?_
    ext q
    exact ⟨fun hq => ⟨⟨hclip.1, hclip.2.1⟩, hq⟩, fun hq => hq.2⟩
  · refine Paints.nil.congr ?_
    ext q
    refine ⟨fun hq => absurd hq (Set.notMem_empty q), ?_⟩
    rintro ⟨⟨hright, hbottom⟩, hq⟩
    rw [WmDirtyRect.mem_pixels] at hq
    exact absurd ⟨hright, hbottom, by omega, by omega⟩ hclip

theorem roundedRect_paints (hgw : gw.Sized) (x y w h radius color : BitVec 32) :
    Paints gw ((roundedRect x y w h radius color).stores gw) ((roundedRect x y w h radius color).covered gw) := by
  rw [stores, covered, clipRectToClient_eq hgw (toInt_bounds x) (toInt_bounds y) (toInt_bounds w).2 (toInt_bounds h).2]
  split_ifs with hclip
  · obtain ⟨hright, hbottom⟩ := visibleRect_end hgw hclip.2.2.1 hclip.2.2.2
    refine (roundedLoops_paints gw hright hbottom radius.toInt color).congr ?_
    ext q
    exact ⟨fun hq => ⟨⟨hclip.1, hclip.2.1⟩, hq⟩, fun hq => hq.2⟩
  · refine Paints.nil.congr ?_
    ext q
    refine ⟨fun hq => absurd hq (Set.notMem_empty q), ?_⟩
    rintro ⟨⟨hright, hbottom⟩, hq, -⟩
    rw [WmDirtyRect.mem_pixels] at hq
    exact absurd ⟨hright, hbottom, by omega, by omega⟩ hclip

theorem fits_of_paints {size : Int} (h : Paints gw ps A) (hA : A ⊆ gw.clientPixels) :
    (∀ p ∈ ps, p.Inside gw size) ↔ gw.clientW * gw.clientH ≤ 2 ^ 31 ∨ ∀ q ∈ A, gw.number q % 2 ^ 32 < 2 ^ 31 := by
  rw [h.inside_iff hA, or_iff_right_of_imp]
  intro hsmall q hq
  have hbounds := GuiWindow.number_bounds (hA hq)
  omega

theorem image_inside_iff (hgw : gw.Sized) (x y w h : BitVec 32) (pixels : Int → BitVec 32) :
    (image x y w h pixels).Inside gw ↔ ImageFits gw x.toInt y.toInt w.toInt h.toInt := by
  have hx := toInt_bounds x
  have hy := toInt_bounds y
  have hw := toInt_bounds w
  have hh := toInt_bounds h
  have hwidth := hgw.width
  have hheight := hgw.height
  rw [Inside, stores, ImageFits]
  by_cases hpos : 0 < w.toInt ∧ 0 < h.toInt
  · obtain ⟨hcols, hcols'⟩ := clipImageSide_eq hx ⟨hpos.1, hw.2⟩ hwidth
    obtain ⟨hrows, hrows'⟩ := clipImageSide_eq hy ⟨hpos.2, hh.2⟩ hheight
    by_cases hdrawn : imageStart x.toInt < imageEnd x.toInt w.toInt gw.clientW ∧ imageStart y.toInt < imageEnd y.toInt h.toInt gw.clientH
    · have hsome : ¬ (w.toInt ≤ 0 ∨ h.toInt ≤ 0 ∨ (clipImageSide x.toInt w.toInt gw.clientW).len ≤ 0 ∨
          (clipImageSide y.toInt h.toInt gw.clientH).len ≤ 0) := by
        have := hcols.mpr hdrawn.1
        have := hrows.mpr hdrawn.2
        omega
      rw [if_neg hsome, hcols' hdrawn.1, hrows' hdrawn.2, imageSize, imageLoops_inside_iff hgw ⟨by omega, hw.2⟩ hdrawn.2 hdrawn.1]
      exact ⟨fun hfits _ _ => hfits, fun hfits => hfits hdrawn.1 hdrawn.2⟩
    · have hnone : w.toInt ≤ 0 ∨ h.toInt ≤ 0 ∨ (clipImageSide x.toInt w.toInt gw.clientW).len ≤ 0 ∨
          (clipImageSide y.toInt h.toInt gw.clientH).len ≤ 0 := by
        rw [← hcols, ← hrows] at hdrawn
        omega
      rw [if_pos hnone]
      exact ⟨fun _ hleft htop => absurd ⟨hleft, htop⟩ hdrawn, fun _ p hp => absurd hp List.not_mem_nil⟩
  · rw [if_pos (by omega)]
    refine ⟨fun _ hleft htop => ?_, fun _ p hp => absurd hp List.not_mem_nil⟩
    rw [imageStart, imageEnd] at hleft htop
    split at hleft <;> split at htop <;> omega

/-- The number of the place in row and column `2 ^ 31 - 1`. -/
theorem lastNumber_mod {width : Int} (h₀ : 0 ≤ width) (h₁ : width < 2 ^ 31) :
    2 ^ 31 - 1 - width ≤ ((2 ^ 31 - 1) * width + (2 ^ 31 - 1)) % 2 ^ 32 := by
  have hsplit : (2 ^ 31 - 1) * width + (2 ^ 31 - 1) = (2 ^ 31 - 1 - width + width % 2 * 2 ^ 31) + 2 ^ 32 * (width / 2) := by omega
  rw [hsplit, Int.add_mul_emod_self_left, Int.emod_eq_of_lt (by omega) (by omega)]
  omega

/-- A column, or a row, of the part drawn: in the client area, or the last `int`. -/
theorem exists_drawn (hx : -2 ^ 31 ≤ x ∧ x < 2 ^ 31) (hdrawn : imageStart x < imageEnd x w client) :
    ∃ c, x + imageStart x ≤ c ∧ c ≤ x + imageEnd x w client - 1 ∧ if x + w < 2 ^ 31 then 0 ≤ c ∧ c < client else c = 2 ^ 31 - 1 := by
  rw [imageStart, imageEnd] at hdrawn ⊢
  by_cases hend : x + w < 2 ^ 31
  · simp only [if_pos hend] at hdrawn ⊢
    exact ⟨x + max 0 (-x), by omega, by omega, by omega, by omega⟩
  · simp only [if_neg hend] at hdrawn ⊢
    exact ⟨2 ^ 31 - 1, by omega, by omega, rfl⟩

/-- A place of a grid of up to `2 ^ 31` places has its index inside. -/
theorem gridNumber_inside {width height r c : Int} (hsize : width * height ≤ 2 ^ 31) (hwidth : 0 ≤ width) (hr : 0 ≤ r ∧ r < height) (hc : 0 ≤ c ∧ c < width) :
    0 ≤ int32 (gridNumber width r c) ∧ int32 (gridNumber width r c) < width * height := by
  have hnonneg := gridNumber_nonneg hwidth hr.1 hc.1
  have hlt := gridNumber_lt hwidth hr.2 hc.2
  rw [int32_inside_iff]
  omega

/-- A place in the last row or in the last column of the `int`s comes out beyond a small window. -/
theorem lastPlace_outside (hgw : gw.Sized) (hsmall : gw.clientW * gw.clientH < 2 ^ 30) {r c : Int} (hr : 0 ≤ r ∧ r < gw.clientH ∨ r = 2 ^ 31 - 1)
    (hc : 0 ≤ c ∧ c < gw.clientW ∨ c = 2 ^ 31 - 1) (hlast : r = 2 ^ 31 - 1 ∨ c = 2 ^ 31 - 1) :
    ¬ gridNumber gw.clientW r c % 2 ^ 32 < min (2 ^ 31) (gw.clientW * gw.clientH) := by
  have hwidth := hgw.width
  have hheight := hgw.height
  rcases hr with hr | hr
  · -- the row is of the window, and the column is the last
    have hlt := gridNumber_lt (c := gw.clientW - 1) hwidth.1 hr.2 (by omega)
    have hnonneg := gridNumber_nonneg (c := 0) hwidth.1 hr.1 (Int.le_refl 0)
    rw [gridNumber] at hlt hnonneg ⊢
    generalize r * gw.clientW = t at hlt hnonneg ⊢
    omega
  · have hsize : gw.clientW ≤ gw.clientW * gw.clientH ∨ gw.clientW * gw.clientH = 0 := by
      rcases Int.lt_or_le 0 gw.clientH with hpos | hzero
      · exact Or.inl (le_mul_of_one_le_right hwidth.1 hpos)
      · refine Or.inr ?_
        rw [Int.le_antisymm hzero hheight.1, Int.mul_zero]
    rw [gridNumber, hr]
    generalize gw.clientW * gw.clientH = size at hsmall hsize ⊢
    rcases hc with hc | hc
    · omega
    · have hmod := lastNumber_mod hwidth.1 hwidth.2
      rw [hc]
      omega

/-- In a window of fewer than `2 ^ 30` pixels an image of at most `2 ^ 31` fits exactly when its ends are not beyond the `int`s, or nothing of it is drawn. -/
theorem imageFits_iff_small (hgw : gw.Sized) (hsmall : gw.clientW * gw.clientH < 2 ^ 30) (hx : -2 ^ 31 ≤ x ∧ x < 2 ^ 31) (hy : -2 ^ 31 ≤ y ∧ y < 2 ^ 31)
    (hw : 0 ≤ w ∧ w < 2 ^ 31) (himage : w * h ≤ 2 ^ 31) :
    ImageFits gw x y w h ↔ (imageStart x < imageEnd x w gw.clientW → imageStart y < imageEnd y h gw.clientH → EndsInRange x y w h) := by
  have hwidth := hgw.width
  have hheight := hgw.height
  rw [ImageFits, EndsInRange]
  refine forall₂_congr fun hcols hrows => ?_
  rw [gridFits_iff hwidth (by omega) (by omega), gridFits_iff hw (by omega) (by omega)]
  constructor
  · rintro ⟨hindex, -⟩
    obtain ⟨c, hc₀, hc₁, hc⟩ := exists_drawn hx hcols
    obtain ⟨r, hr₀, hr₁, hr⟩ := exists_drawn hy hrows
    have hplace := (int32_inside_iff _ _).mp (hindex r c hr₀ hr₁ hc₀ hc₁)
    by_contra hends
    refine lastPlace_outside hgw hsmall ?_ ?_ ?_ hplace
    · split at hr
      · exact Or.inl hr
      · exact Or.inr hr
    · split at hc
      · exact Or.inl hc
      · exact Or.inr hc
    · rcases not_and_or.mp hends with hright | hbottom
      · rw [if_neg hright] at hc
        exact Or.inr hc
      · rw [if_neg hbottom] at hr
        exact Or.inl hr
  · rintro ⟨hright, hbottom⟩
    simp only [imageStart, imageEnd, if_pos hright, if_pos hbottom] at hcols hrows ⊢
    exact ⟨fun r c hr₀ hr₁ hc₀ hc₁ => gridNumber_inside (by omega) hwidth.1 ⟨by omega, by omega⟩ ⟨by omega, by omega⟩,
      fun r c hr₀ hr₁ hc₀ hc₁ => gridNumber_inside himage hw.1 ⟨by omega, by omega⟩ ⟨by omega, by omega⟩⟩

/-! ### The desktop -/

/-- The call of a process. -/
def run (fb : FbInfo) (s : GuiDesk) (pid handle : Int) : DrawCall → Int × GuiDesk
  | rect x y w h color => guiSrvDrawRect fb s pid handle x.toInt y.toInt w.toInt h.toInt color
  | roundedRect x y w h radius color => guiSrvDrawRoundedRect fb s pid handle x.toInt y.toInt w.toInt h.toInt radius.toInt color
  | text x y t color => guiSrvDrawText fb s pid handle x.toInt y.toInt (some t) color
  | image x y w h pixels => guiSrvDrawImage fb s pid handle x.toInt y.toInt w.toInt h.toInt (some pixels)

variable {fb : FbInfo} {s : GuiDesk} {pid handle : Int}

theorem guiSrvMarkDirty_contents (fb : FbInfo) (s : GuiDesk) (pid handle x y w h : Int) :
    (guiSrvMarkDirty fb s pid handle x y w h).2.contents = s.contents := by
  rw [guiSrvMarkDirty, withOwnWindow]
  split
  · rfl
  split
  · rfl
  split <;> rfl

theorem withOwnWindow_contents {call call' : Nat → GuiWindow → Int × GuiDesk} (h : ∀ i gw, (call i gw).2.contents = (call' i gw).2.contents) :
    (withOwnWindow s pid handle call).2.contents = (withOwnWindow s pid handle call').2.contents := by
  rw [withOwnWindow, withOwnWindow]
  split
  · rfl
  split
  · rfl
  · exact h _ _

theorem withOwnWindow_same (s : GuiDesk) (pid handle : Int) : (withOwnWindow s pid handle fun _ _ => (guiOk, s)).2.contents = s.contents := by
  rw [withOwnWindow]
  split
  · rfl
  split <;> rfl

theorem paint_nil (s : GuiDesk) (i : Nat) : s.paint i [] = s := by
  rw [GuiDesk.paint, List.foldl_nil, Function.update_eq_self]

/-- What a call does to the client buffers: its stores reach the buffer of the window. -/
theorem run_contents (c : DrawCall) : (c.run fb s pid handle).2.contents =
    (withOwnWindow s pid handle fun i gw => (guiOk, s.paint i (c.stores gw))).2.contents := by
  cases c with
  | rect x y w h color =>
      apply withOwnWindow_contents
      intro i gw
      rw [stores]
      cases clipRectToClient gw x.toInt y.toInt w.toInt h.toInt with
      | none => exact congrArg GuiDesk.contents (paint_nil s i).symm
      | some r => exact guiSrvMarkDirty_contents _ _ _ _ _ _ _ _
  | roundedRect x y w h radius color =>
      apply withOwnWindow_contents
      intro i gw
      rw [stores]
      cases clipRectToClient gw x.toInt y.toInt w.toInt h.toInt with
      | none => exact congrArg GuiDesk.contents (paint_nil s i).symm
      | some r => exact guiSrvMarkDirty_contents _ _ _ _ _ _ _ _
  | text x y t color =>
      apply withOwnWindow_contents
      intro i gw
      exact guiSrvMarkDirty_contents _ _ _ _ _ _ _ _
  | image x y w h pixels =>
      rw [run, guiSrvDrawImage]
      dsimp only
      split
      · rename_i hempty
        rw [← withOwnWindow_same s pid handle]
        apply withOwnWindow_contents
        intro i gw
        rw [stores]
        dsimp only
        rw [if_pos (by omega), paint_nil]
      · rename_i hpos
        apply withOwnWindow_contents
        intro i gw
        rw [stores]
        dsimp only
        split
        · rw [if_pos (by omega), paint_nil]
        · rw [if_neg (by omega)]
          exact guiSrvMarkDirty_contents _ _ _ _ _ _ _ _

theorem foldl_update_of_ne {k : Int} (pixels : Int → BitVec 32) (h : ∀ p ∈ ps, p.index ≠ k) :
    ps.foldl (fun pixels p => Function.update pixels p.index p.value) pixels k = pixels k := by
  induction ps generalizing pixels with
  | nil => rfl
  | cons p ps ih =>
      obtain ⟨hp, hps⟩ := List.forall_mem_cons.mp h
      rw [List.foldl_cons, ih _ hps, Function.update_of_ne hp.symm]

/-- A call that stays inside changes pixels of the client buffer of its window, and nothing else. -/
theorem run_changes (c : DrawCall) (h : ∀ i, findSlotByHandle s.srv handle = some i → c.Inside (s.srv.windows i)) {j : Nat} {k : Int}
    (hchange : (c.run fb s pid handle).2.contents j k ≠ s.contents j k) :
    findSlotByHandle s.srv handle = some j ∧ 0 ≤ k ∧ k < (s.srv.windows j).clientW * (s.srv.windows j).clientH := by
  rw [run_contents, withOwnWindow] at hchange
  cases hfind : findSlotByHandle s.srv handle with
  | none =>
      rw [hfind] at hchange
      exact absurd rfl hchange
  | some i =>
      rw [hfind] at hchange
      dsimp only at hchange
      split at hchange
      · exact absurd rfl hchange
      dsimp only [GuiDesk.paint] at hchange
      by_cases hij : j = i
      · subst hij
        rw [Function.update_self] at hchange
        by_contra hout
        refine hchange (foldl_update_of_ne _ fun p hp hindex => hout ⟨rfl, ?_⟩)
        exact hindex ▸ (h j hfind p hp).index
      · rw [Function.update_of_ne hij] at hchange
        exact absurd rfl hchange

end DrawCall

/-- A call stays inside exactly when it fits. -/
theorem gui_draw_inside_iff (hgw : gw.Sized) (c : DrawCall) : c.Inside gw ↔ c.Fits gw := by
  cases c with
  | rect x y w h color => exact DrawCall.fits_of_paints (DrawCall.rect_paints hgw x y w h color) fun q hq => visibleRect_client _ _ _ _ hq.2
  | roundedRect x y w h radius color =>
      exact DrawCall.fits_of_paints (DrawCall.roundedRect_paints hgw x y w h radius color) fun q hq => visibleRect_client _ _ _ _ hq.2.1
  | text x y text color =>
      refine DrawCall.fits_of_paints (textLoop_paints gw x.toInt y.toInt text color) ?_
      rintro q ⟨i, c, -, -, -, hq, -⟩
      exact hq
  | image x y w h pixels => exact DrawCall.image_inside_iff hgw x y w h pixels

/-- A window of 4 by 2 pixels. -/
def smallWindow : GuiWindow := { GuiSrv.zeroed.windows 0 with used := 1, handle := 1, ownerPid := 1, wmWin := 1, pixels := 0x300000, clientW := 4, clientH := 2 }

theorem smallWindow_sized : smallWindow.Sized := ⟨by decide, by decide⟩

/-- An `A` that hangs out of the window stays inside. -/
theorem gui_draw_inside_small : (DrawCall.text 2 (-1) [65] 0x00FFFFFF#32).Inside smallWindow :=
  (gui_draw_inside_iff smallWindow_sized _).mpr (Or.inl (by decide))

/-- An image of one pixel at the last `int` is not clipped. -/
theorem gui_image_outside : ((DrawCall.image 0x7FFFFFFF#32 0 1 1 fun _ => 0).stores smallWindow).map ClientStore.index = [2 ^ 31 - 1] ∧
    ¬ (DrawCall.image 0x7FFFFFFF#32 0 1 1 fun _ => 0).Inside smallWindow := by
  have hstores : ((DrawCall.image 0x7FFFFFFF#32 0 1 1 fun _ => 0).stores smallWindow).map ClientStore.index = [2 ^ 31 - 1] := by decide +kernel
  refine ⟨hstores, fun hinside => ?_⟩
  obtain ⟨p, hp, hindex⟩ := List.mem_map.mp (hstores ▸ List.mem_singleton_self (2 ^ 31 - 1 : Int))
  have hin := (hinside p hp).index.2
  rw [hindex] at hin
  exact absurd hin (by decide)

end Tsukasa
