import Tsukasa.Gui.GuiDraw

/-!
# Painting in client buffers

`gui_srv_draw_rect`, `gui_srv_draw_rounded_rect`, `gui_srv_draw_text` and `gui_srv_draw_image` of `gfx/gui_srv.c`, with the font of `gfx/font_8x8.c`. They count in `int`s that wrap. What they store is a list of stores to the client buffer, and an index may lie outside the buffer.
-/

namespace Tsukasa

/-- The glyphs, a byte for each of their 8 rows. The last one, of 128, has no initializer. -/
def font8x8 : List Nat :=
  [0x0000000000000000, 0x7E81A581BD99817E, 0x7EFFDBFFC3E7FF7E, 0x6CFEFEFE7C381000, 0x10387CFE7C381000, 0x387C38FEFE10107C, 0x0010387CFE7C387C,
    0x0000183C3C180000, 0xFFFFE7C3C3E7FFFF, 0x003C664242663C00, 0xFFC399BDBD99C3FF, 0x0F070F7DCCCCCC78, 0x3C6666663C187E18, 0x3F333F303070F0E0,
    0x7F637F636367E6C0, 0x995A3CE7E73C5A99, 0x80E0F8FEF8E08000, 0x020E3EFE3E0E0200, 0x183C7E18187E3C18, 0x6666666666006600, 0x7FDBDB7B1B1B1B00,
    0x3E63386C6C38CC78, 0x000000007E7E7E00, 0x183C7E187E3C18FF, 0x183C7E1818181800, 0x181818187E3C1800, 0x00180CFE0C180000, 0x003060FE60300000,
    0x0000C0C0C0FE0000, 0x002466FF66240000, 0x00183C7EFFFF0000, 0x00FFFF7E3C180000, 0x0000000000000000, 0x3078783030003000, 0x6C6C6C0000000000,
    0x6C6CFE6CFE6C6C00, 0x307CC0780CF83000, 0x00C6CC183066C600, 0x386C3876DCCC7600, 0x6060C00000000000, 0x1830606060301800, 0x6030181818306000,
    0x00663CFF3C660000, 0x003030FC30300000, 0x0000000000303060, 0x000000FC00000000, 0x0000000000303000, 0x060C183060C08000, 0x7CC6CEDEF6E67C00,
    0x307030303030FC00, 0x78CC0C3860CCFC00, 0x78CC0C380CCC7800, 0x1C3C6CCCFE0C1E00, 0xFCC0F80C0CCC7800, 0x3860C0F8CCCC7800, 0xFCCC0C1830303000,
    0x78CCCC78CCCC7800, 0x78CCCC7C0C187000, 0x0030300000303000, 0x0030300000303060, 0x183060C060301800, 0x0000FC0000FC0000, 0x6030180C18306000,
    0x78CC0C1830003000, 0x7CC6DEDEDEC07800, 0x3078CCCCFCCCCC00, 0xFC66667C6666FC00, 0x3C66C0C0C0663C00, 0xF86C6666666CF800, 0xFE6268786862FE00,
    0xFE6268786860F000, 0x3C66C0C0CE663E00, 0xCCCCCCFCCCCCCC00, 0x7830303030307800, 0x1E0C0C0CCCCC7800, 0xE6666C786C66E600, 0xF06060606266FE00,
    0xC6EEFEFED6C6C600, 0xC6E6F6DECEC6C600, 0x386CC6C6C66C3800, 0xFC66667C6060F000, 0x78CCCCCCDC781C00, 0xFC66667C6C66E600, 0x78CCE0701CCC7800,
    0xFCB4303030307800, 0xCCCCCCCCCCCCFC00, 0xCCCCCCCCCC783000, 0xC6C6C6D6FEEEC600, 0xC6C66C38386CC600, 0xCCCCCC7830307800, 0xFEC68C183266FE00,
    0x7860606060607800, 0xC06030180C060200, 0x7818181818187800, 0x10386CC600000000, 0x00000000000000FF, 0x3030180000000000, 0x0000780C7CCC7600,
    0xE060607C6666DC00, 0x000078CCC0CC7800, 0x1C0C0C7CCCCC7600, 0x000078CCFCC07800, 0x386C60F06060F000, 0x000076CCCC7C0CF8, 0xE0606C766666E600,
    0x3000703030307800, 0x0C000C0C0CCCCC78, 0xE060666C786CE600, 0x7030303030307800, 0x0000CCFEFED6C600, 0x0000F8CCCCCCCC00, 0x000078CCCCCC7800,
    0x0000DC66667C60F0, 0x000076CCCC7C0C1E, 0x0000DC766660F000, 0x00007CC0780CF800, 0x10307C3030341800, 0x0000CCCCCCCC7600, 0x0000CCCCCC783000,
    0x0000C6D6FEFE6C00, 0x0000C66C386CC600, 0x0000CCCCCC7C0CF8, 0x0000FC983064FC00, 0x1C3030E030301C00, 0x1818180018181800, 0xE030301C3030E000,
    0x76DC000000000000]

def fontWidth : Nat := 8
def fontHeight : Nat := 8

def glyphRow (c : UInt8) (row : Nat) : Nat := (font8x8.getD c.toNat 0 >>> (8 * (7 - row))) % 256

/-- A store to a client buffer, for an image with the index that is read. -/
structure ClientStore where
  index : Int
  read : Option Int
  value : BitVec 32

/-- `row * width + col` as an `int`. -/
def pixelIndex (width row col : Int) : Int := int32 (int32 (row * width) + col)

/-! ### Rectangles -/

def clipRectToClient (gw : GuiWindow) (x y w h : Int) : Option WmDirtyRect :=
  if w ≤ 0 ∨ h ≤ 0 then none
  else
    let x1 := int32 (x + w)
    let y1 := int32 (y + h)
    let x0 := if x < 0 then 0 else x
    let y0 := if y < 0 then 0 else y
    let x1 := if gw.clientW < x1 then gw.clientW else x1
    let y1 := if gw.clientH < y1 then gw.clientH else y1
    if x1 ≤ x0 ∨ y1 ≤ y0 then none else some ⟨x0, y0, int32 (x1 - x0), int32 (y1 - y0)⟩

/-- The loops of `gui_srv_draw_rect`. -/
def rectLoops (gw : GuiWindow) (r : WmDirtyRect) (color : BitVec 32) : List ClientStore :=
  (List.range r.h.toNat).flatMap fun (row : Nat) => (List.range r.w.toNat).map fun (col : Nat) =>
    ⟨pixelIndex gw.clientW (int32 (r.y + row)) (int32 (r.x + col)), none, color ||| alphaOpaque⟩

def clampRadius (r : WmDirtyRect) (radius : Int) : Int :=
  let radius := if radius < 0 then 0 else radius
  let radius := if r.w / 2 < radius then r.w / 2 else radius
  if r.h / 2 < radius then r.h / 2 else radius

/-- `dx` and `dy` of `gui_srv_draw_rounded_rect`: how far a place is in the corners at the two ends of a side. -/
def cornerDist (start len radius p : Int) : Int :=
  if p < int32 (start + radius) then int32 (int32 (start + radius) - p)
  else if int32 (int32 (start + len) - radius) ≤ p then int32 (p - int32 (int32 (int32 (start + len) - radius) - 1))
  else 0

/-- The test that leaves the corners out; the squares of a large radius wrap. -/
def inRounded (r : WmDirtyRect) (radius px py : Int) : Bool :=
  let dx := cornerDist r.x r.w radius px
  let dy := cornerDist r.y r.h radius py
  dx = 0 ∨ dy = 0 ∨ int32 (int32 (dx * dx) + int32 (dy * dy)) ≤ int32 (radius * radius)

/-- The loops of `gui_srv_draw_rounded_rect`. -/
def roundedLoops (gw : GuiWindow) (r : WmDirtyRect) (radius : Int) (color : BitVec 32) : List ClientStore :=
  (List.range (int32 (r.y + r.h) - r.y).toNat).flatMap fun (row : Nat) =>
    ((List.range (int32 (r.x + r.w) - r.x).toNat).filter fun (col : Nat) => inRounded r (clampRadius r radius) (r.x + col) (r.y + row)).map
      fun (col : Nat) => ⟨pixelIndex gw.clientW (r.y + row) (r.x + col), none, color ||| alphaOpaque⟩

/-! ### Texts -/

def drawCharToBuffer (gw : GuiWindow) (x y : Int) (c : UInt8) (color : BitVec 32) : List ClientStore :=
  if gw.pixels = 0 ∨ 128 ≤ c.toNat then []
  else
    (List.range fontHeight).flatMap fun (row : Nat) =>
      let py := int32 (y + row)
      if py < 0 ∨ gw.clientH ≤ py then []
      else
        ((List.range fontWidth).filter fun (col : Nat) =>
          let px := int32 (x + col)
          ¬ (px < 0 ∨ gw.clientW ≤ px) ∧ (glyphRow c row).testBit (7 - col)).map
            fun (col : Nat) => ⟨pixelIndex gw.clientW py (int32 (x + col)), none, color ||| alphaOpaque⟩

/-- The loop of `gui_srv_draw_text`. -/
def textLoop (gw : GuiWindow) (x y : Int) (text : List UInt8) (color : BitVec 32) : List ClientStore :=
  text.zipIdx.flatMap fun (c, i) => drawCharToBuffer gw (int32 (x + int32 (i * fontWidth))) y c color

/-! ### Images -/

/-- `draw_x`, `draw_w` and `src_x` of `gui_srv_draw_image`, or the same for `y`. -/
structure ImageSide where
  draw : Int
  len : Int
  src : Int

def clipImageSide (x w client : Int) : ImageSide :=
  let side : ImageSide := if x < 0 then ⟨0, int32 (w + x), int32 (-x)⟩ else ⟨x, w, 0⟩
  if client < int32 (side.draw + side.len) then { side with len := int32 (client - side.draw) } else side

/-- The loops of `gui_srv_draw_image` behind the clipping. -/
def imageLoops (gw : GuiWindow) (w : Int) (cols rows : ImageSide) (pixels : Int → BitVec 32) : List ClientStore :=
  (List.range rows.len.toNat).flatMap fun (row : Nat) => (List.range cols.len.toNat).map fun (col : Nat) =>
    let src := pixelIndex w (int32 (rows.src + row)) (int32 (cols.src + col))
    ⟨pixelIndex gw.clientW (int32 (rows.draw + row)) (int32 (cols.draw + col)), some src, pixels src ||| alphaOpaque⟩

/-! ### Calls -/

/-- The stores reach the client buffer of a slot. -/
def GuiDesk.paint (s : GuiDesk) (i : Nat) (stores : List ClientStore) : GuiDesk :=
  { s with contents := Function.update s.contents i (stores.foldl (fun pixels p => Function.update pixels p.index p.value) (s.contents i)) }

/-- How the calls begin: the window is found by its handle and belongs to the process. -/
def withOwnWindow (s : GuiDesk) (pid handle : Int) (call : Nat → GuiWindow → Int × GuiDesk) : Int × GuiDesk :=
  match findSlotByHandle s.srv handle with
  | none => (guiErrNotfound, s)
  | some i => if (s.srv.windows i).ownerPid ≠ pid then (guiErrPerm, s) else call i (s.srv.windows i)

def guiSrvMarkDirty (fb : FbInfo) (s : GuiDesk) (pid handle x y w h : Int) : Int × GuiDesk :=
  withOwnWindow s pid handle fun i gw =>
    match clipRectToClient gw x y w h with
    | none => (guiOk, s)
    | some r =>
        let client := wmClientRect (s.wm.windows (gw.wmWin - 1))
        (guiOk, { s with
          srv := s.srv.setWindow i { gw with dirtyPending := true }
          wm := s.wm.markRect fb (int32 (client.cx + r.x)) (int32 (client.cy + r.y)) r.w r.h })

def guiSrvDrawRect (fb : FbInfo) (s : GuiDesk) (pid handle x y w h : Int) (color : BitVec 32) : Int × GuiDesk :=
  withOwnWindow s pid handle fun i gw =>
    match clipRectToClient gw x y w h with
    | none => (guiOk, s)
    | some r => guiSrvMarkDirty fb (s.paint i (rectLoops gw r color)) pid handle r.x r.y r.w r.h

def guiSrvDrawRoundedRect (fb : FbInfo) (s : GuiDesk) (pid handle x y w h radius : Int) (color : BitVec 32) : Int × GuiDesk :=
  withOwnWindow s pid handle fun i gw =>
    match clipRectToClient gw x y w h with
    | none => (guiOk, s)
    | some r => guiSrvMarkDirty fb (s.paint i (roundedLoops gw r radius color)) pid handle r.x r.y r.w r.h

/-- A text of `none` is a null pointer. -/
def guiSrvDrawText (fb : FbInfo) (s : GuiDesk) (pid handle x y : Int) (text : Option (List UInt8)) (color : BitVec 32) : Int × GuiDesk :=
  match text with
  | none => (guiErrInvalid, s)
  | some text =>
      withOwnWindow s pid handle fun i gw =>
        guiSrvMarkDirty fb (s.paint i (textLoop gw x y text color)) pid handle x y (int32 (text.length * fontWidth)) fontHeight

/-- An image of `none` is a null pointer. -/
def guiSrvDrawImage (fb : FbInfo) (s : GuiDesk) (pid handle x y w h : Int) (pixels : Option (Int → BitVec 32)) : Int × GuiDesk :=
  match pixels with
  | none => (guiErrInvalid, s)
  | some pixels =>
      if w ≤ 0 ∨ h ≤ 0 then (guiErrInvalid, s)
      else
        withOwnWindow s pid handle fun i gw =>
          let cols := clipImageSide x w gw.clientW
          let rows := clipImageSide y h gw.clientH
          if cols.len ≤ 0 ∨ rows.len ≤ 0 then (guiOk, s)
          else guiSrvMarkDirty fb (s.paint i (imageLoops gw w cols rows pixels)) pid handle cols.draw rows.draw cols.len rows.len

end Tsukasa
