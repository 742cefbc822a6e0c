import Tsukasa.Gui.Wm
import Tsukasa.Lib.Run

/-!
# Drawing the windows of applications

`gui_window_draw` and the calls of `gfx/gui_srv.c` and `gfx/wm.c` that move and size what it draws, with the contents of the client buffers. The window `win` of the pool is the pointer `win + 1`, and the pixel at an index of a buffer may lie outside the buffer.

An address in the framebuffer is its offset from `fb_info.addr`.
-/

namespace Tsukasa

/-- The value of an `int` as a `uint32_t`. -/
def uint32 (x : Int) : Nat := (x % 2 ^ 32).toNat

def alphaOpaque : BitVec 32 := 0xFF000000#32
def clientBackground : BitVec 32 := 0xFF202226#32

/-- The window service, the window manager, and the client buffer of each slot. -/
structure GuiDesk where
  srv : GuiSrv
  wm : Wm
  contents : Nat → Int → BitVec 32

def findSlotByWm (s : GuiSrv) (win : Nat) : Option Nat := (List.range guiSrvMaxWindows).find? fun i => (s.windows i).used ≠ 0 ∧ (s.windows i).wmWin = win

/-! ### Drawing -/

/-- A pixel that `gui_window_draw` stores: where its loops are, the address, the index in the client buffer that is read, and the value. -/
structure PixelStore where
  row : Nat
  col : Nat
  offset : Nat
  src : Int
  value : BitVec 32

def drawW (gw : GuiWindow) (rect : ClientRect) : Int := if gw.clientW < rect.cw then gw.clientW else rect.cw

def drawH (gw : GuiWindow) (rect : ClientRect) : Int := if gw.clientH < rect.ch then gw.clientH else rect.ch

/-- The loops of `gui_window_draw`. -/
def drawLoops (fb : FbInfo) (gw : GuiWindow) (rect : ClientRect) (pixels : Int → BitVec 32) : List PixelStore :=
  (List.range (drawH gw rect).toNat).flatMap fun (row : Nat) =>
    let dst := wrap32 (uint32 (rect.cy + row) * fb.pitch) + wrap32 (uint32 rect.cx * 4)
    let src := int32 (row * gw.clientW)
    (List.range (drawW gw rect).toNat).map fun (col : Nat) => ⟨row, col, dst + 4 * col, src + col, pixels (src + col) ||| alphaOpaque⟩

def guiWindowDraw (fb : FbInfo) (s : GuiDesk) (win : Nat) : List PixelStore :=
  if fb.addr = 0 ∨ fb.bpp ≠ 32 then []
  else
    match findSlotByWm s.srv (win + 1) with
    | none => []
    | some i =>
        let gw := s.srv.windows i
        let rect := wmClientRect (s.wm.windows win)
        if gw.pixels = 0 ∨ drawW gw rect ≤ 0 ∨ drawH gw rect ≤ 0 then [] else drawLoops fb gw rect (s.contents i)

/-! ### Client buffers -/

/-- The first loop of `reallocate_client_buffer`. -/
def fillBackground (pixels : Int → BitVec 32) (w h : Int) : Int → BitVec 32 := fun i => if 0 ≤ i ∧ i < int32 (w * h) then clientBackground else pixels i

/-- The loops that copy what the new buffer has room for. -/
def copyClient (old pixels : Int → BitVec 32) (oldW newW copyW copyH : Int) : Int → BitVec 32 :=
  (List.range copyH.toNat).foldl (fun pixels row =>
    (List.range copyW.toNat).foldl (fun pixels col =>
      Function.update pixels (int32 (int32 (row * newW) + col)) (old (int32 (int32 (row * oldW) + col)))) pixels) pixels

/-- The contents that `reallocate_client_buffer` gives the new buffer, which comes as `fresh`. -/
def clientContents (gw : GuiWindow) (old fresh : Int → BitVec 32) (w h : Int) : Int → BitVec 32 :=
  if gw.pixels = 0 then fillBackground fresh w h
  else
    copyClient old (fillBackground fresh w h) gw.clientW w (if w < gw.clientW then w else gw.clientW) (if h < gw.clientH then h else gw.clientH)

/-- What `kmalloc` gives for a client buffer: the pointer, 0 when there is no memory, and what the memory holds. -/
structure NewBuffer where
  pixels : Nat
  fresh : Int → BitVec 32

/-! ### Calls -/

/-- `gui_window_draw` and `gui_window_event` as the callbacks of a window; all that is asked of them is whether they are there. -/
def guiCallback : Nat := 1

structure GuiCreate where
  pid : Int
  title : Option (List UInt8)
  x : Int
  y : Int
  clientW : Int
  clientH : Int

def guiSrvWindowCreate (fb : FbInfo) (s : GuiDesk) (c : GuiCreate) (buffer : NewBuffer) : Int × GuiDesk :=
  if c.clientW ≤ 0 ∨ c.clientH ≤ 0 then (guiErrInvalid, s)
  else
    match reserveSlot s.srv with
    | none => (guiErrFull, s)
    | some (i, srv) =>
        let outerW := int32 (c.clientW + 2 * wmBorderPx)
        let outerH := int32 (c.clientH + 2 * wmBorderPx + wmTitleBarH)
        match wmCreateWindow fb s.wm ⟨c.x, c.y, outerW, outerH, c.title.getD [65, 112, 112], guiCallback, guiCallback, 0⟩ with
        | (none, wm) => (guiErrFull, { s with srv := releaseSlot srv i, wm := wm })
        | (some win, wm) =>
            let (handle, srv) := installWindow srv i c.pid (win + 1) c.title c.clientW c.clientH buffer.pixels
            if buffer.pixels = 0 then (handle, { s with srv := srv, wm := wmDestroyWindow fb wm win })
            else
              let wm := wmSetAutoclose wm win (srv.windows i).closePolicyAutoclose
              let wm := wmSetResizable fb wm win (srv.windows i).resizable
              let w := wm.windows win
              (handle, {
                srv := srv
                wm := wm.markRect fb w.x w.y w.w w.h
                contents := Function.update s.contents i (fillBackground buffer.fresh c.clientW c.clientH) })

def guiSrvDestroy (fb : FbInfo) (s : GuiDesk) (pid handle : Int) : GuiDesk :=
  match guiSrvWindowDestroy s.srv pid handle with
  | (_, some (win + 1, _), srv) => { s with srv := srv, wm := wmDestroyWindow fb s.wm win }
  | (_, _, srv) => { s with srv := srv }

/-- `gui_window_event` for an event of the mouse. -/
def guiWindowEvent (s : GuiDesk) (buffer : NewBuffer) (ev : WmEvent) : GuiDesk :=
  match findSlotByWm s.srv (ev.win + 1) with
  | none => s
  | some i =>
      let gw := s.srv.windows i
      let out : TsukasaGuiEvent := ⟨ev.eventId, gw.handle, ev.x, ev.y, ev.keycode.toInt, 0, 0⟩
      if ev.eventId = inputEventResize ∧ 0 < ev.x ∧ 0 < ev.y ∧ buffer.pixels ≠ 0 then
        let srv := s.srv.setWindow i { (reallocateClientBuffer gw buffer.pixels ev.x ev.y).2 with dirtyPending := true }
        let srv := queuePaintEvent srv i 0 0 ev.x ev.y
        { s with
          srv := evtEnqueue srv i { out with x := 0, y := 0, data1 := ev.x, data2 := ev.y }
          contents := Function.update s.contents i (clientContents gw (s.contents i) buffer.fresh ev.x ev.y) }
      else
        let srv := if ev.eventId = inputEventClose then s.srv.setWindow i { gw with closeRequested := true } else s.srv
        { s with srv := evtEnqueue srv i out }

/-- `wm_handle_mouse` with the callbacks of the windows. -/
def guiHandleMouse (fb : FbInfo) (s : GuiDesk) (m : WmMouse) (buffer : NewBuffer) : GuiDesk :=
  let (_, wm, events) := wmHandleMouse fb s.wm m
  events.foldl (fun s ev => guiWindowEvent s buffer ev) { s with wm := wm }

/-! ### The places drawn -/

/-- The pixel of the client area goes to its place on the screen. -/
structure PixelStore.Composited (fb : FbInfo) (gw : GuiWindow) (rect : ClientRect) (pixels : Int → BitVec 32) (p : PixelStore) : Prop where
  col : 0 ≤ rect.cx + p.col ∧ rect.cx + p.col < fb.width
  row : 0 ≤ rect.cy + p.row ∧ rect.cy + p.row < fb.height
  offset : (p.offset : Int) = (rect.cy + p.row) * fb.pitch + 4 * (rect.cx + p.col)
  src : p.src = p.row * gw.clientW + p.col
  value : p.value = pixels (p.row * gw.clientW + p.col) ||| alphaOpaque

/-- What is drawn of the client area lies on the screen, with offsets and indices in range. -/
structure DrawFits (fb : FbInfo) (gw : GuiWindow) (rect : ClientRect) : Prop where
  left : 0 ≤ rect.cx
  right : rect.cx + drawW gw rect ≤ fb.width
  top : 0 ≤ rect.cy
  bottom : rect.cy + drawH gw rect ≤ fb.height
  leftOffset : 4 * rect.cx < 2 ^ 32
  lastOffset : (rect.cy + drawH gw rect - 1) * fb.pitch < 2 ^ 32
  lastSrc : (drawH gw rect - 1) * gw.clientW < 2 ^ 31

variable {fb : FbInfo} {gw : GuiWindow} {rect : ClientRect} {pixels : Int → BitVec 32}

theorem mem_drawLoops {p : PixelStore} : p ∈ drawLoops fb gw rect pixels ↔
    ∃ row col : Nat, row < (drawH gw rect).toNat ∧ col < (drawW gw rect).toNat ∧
      p = ⟨row, col, wrap32 (uint32 (rect.cy + row) * fb.pitch) + wrap32 (uint32 rect.cx * 4) + 4 * col, int32 (row * gw.clientW) + col,
        pixels (int32 (row * gw.clientW) + col) ||| alphaOpaque⟩ := by
  simp only [drawLoops, List.mem_flatMap, List.mem_range, List.mem_map]
  constructor
  · rintro ⟨row, hrow, col, hcol, rfl⟩
    exact ⟨row, col, hrow, hcol, rfl⟩
  · rintro ⟨row, col, hrow, hcol, rfl⟩
    exact ⟨row, hrow, col, hcol, rfl⟩

theorem wrap32_uint32_mul (x : Int) (k : Nat) : (wrap32 (uint32 x * k) : Int) = x * k % 2 ^ 32 := by
  have huint : (uint32 x : Int) = x % 2 ^ 32 := Int.toNat_of_nonneg (Int.emod_nonneg x (by decide))
  have hmod : (wrap32 (uint32 x * k) : Int) = (uint32 x : Int) * k % 2 ^ 32 := by
    rw [wrap32]
    norm_cast
  rw [hmod, huint, Int.mul_emod, Int.emod_emod_of_dvd x dvd_rfl, ← Int.mul_emod]

theorem int32_eq_self_iff {v : Int} (hv : 0 ≤ v) : int32 v = v ↔ v < 2 ^ 31 := by
  rw [int32, Int.bmod_def]
  split <;> omega

/-- Two offsets add up without a wrap. -/
theorem offset_eq_iff {a b : Int} (ha : 0 ≤ a) (hb : 0 ≤ b) : a % 2 ^ 32 + b % 2 ^ 32 = a + b ↔ a < 2 ^ 32 ∧ b < 2 ^ 32 := by
  omega

/-- One pixel is composited if the loops are on the screen and neither the offsets nor the index of its row wrap. -/
theorem composited_iff {row col : Nat} (hw : 0 ≤ gw.clientW) :
    PixelStore.Composited fb gw rect pixels ⟨row, col, wrap32 (uint32 (rect.cy + row) * fb.pitch) + wrap32 (uint32 rect.cx * 4) + 4 * col,
        int32 (row * gw.clientW) + col, pixels (int32 (row * gw.clientW) + col) ||| alphaOpaque⟩ ↔
      (0 ≤ rect.cx + col ∧ rect.cx + col < fb.width) ∧ (0 ≤ rect.cy + row ∧ rect.cy + row < fb.height) ∧
        (rect.cy + row) * fb.pitch % 2 ^ 32 + rect.cx * 4 % 2 ^ 32 = (rect.cy + row) * fb.pitch + rect.cx * 4 ∧ row * gw.clientW < 2 ^ 31 := by
  have hoffset : ((wrap32 (uint32 (rect.cy + row) * fb.pitch) + wrap32 (uint32 rect.cx * 4) + 4 * col : Nat) : Int) =
      (rect.cy + row) * fb.pitch % 2 ^ 32 + rect.cx * 4 % 2 ^ 32 + 4 * col := by
    have hx := wrap32_uint32_mul rect.cx 4
    rw [Int.natCast_add, Int.natCast_add, wrap32_uint32_mul, hx]
    norm_cast
  have hsrc := int32_eq_self_iff (v := row * gw.clientW) (Int.mul_nonneg (Int.natCast_nonneg row) hw)
  constructor
  · intro h
    have hrow := h.offset
    simp only [hoffset] at hrow
    have hindex : int32 (row * gw.clientW) = row * gw.clientW := by
      have := h.src
      simp only at this
      omega
    refine ⟨h.col, h.row, ?_, hsrc.mp hindex⟩
    generalize (rect.cy + row) * (fb.pitch : Int) = a at hrow ⊢
    omega
  · rintro ⟨hcol, hrow, heq, hlt⟩
    have hindex := hsrc.mpr hlt
    refine ⟨hcol, hrow, ?_, ?_, ?_⟩
    · rw [hoffset, heq]
      simp only
      omega
    · simp only [hindex]
    · simp only [hindex]

theorem drawLoops_composited (hw : 0 < drawW gw rect) (hh : 0 < drawH gw rect) :
    (∀ p ∈ drawLoops fb gw rect pixels, p.Composited fb gw rect pixels) ↔ DrawFits fb gw rect := by
  have hclient : drawW gw rect ≤ gw.clientW := by
    rw [drawW]
    split <;> omega
  constructor
  · intro h
    -- the first pixel of the first row, and the last pixel of the last row
    have hfirst := (composited_iff (by omega)).mp (h _ (mem_drawLoops.mpr ⟨0, 0, by omega, by omega, rfl⟩))
    have hlast := (composited_iff (by omega)).mp
      (h _ (mem_drawLoops.mpr ⟨(drawH gw rect).toNat - 1, (drawW gw rect).toNat - 1, by omega, by omega, rfl⟩))
    have hrow : (((drawH gw rect).toNat - 1 : Nat) : Int) = drawH gw rect - 1 := by omega
    have hcol : (((drawW gw rect).toNat - 1 : Nat) : Int) = drawW gw rect - 1 := by omega
    rw [hrow, hcol] at hlast
    obtain ⟨⟨hleft, -⟩, ⟨htop, -⟩, -, -⟩ := hfirst
    obtain ⟨⟨-, hright⟩, ⟨hbottom, hbottom'⟩, hoffset, hsrc⟩ := hlast
    have hnonneg : 0 ≤ (rect.cy + (drawH gw rect - 1)) * (fb.pitch : Int) := Int.mul_nonneg hbottom (Int.natCast_nonneg _)
    rw [offset_eq_iff hnonneg (by omega)] at hoffset
    have hassoc : rect.cy + (drawH gw rect - 1) = rect.cy + drawH gw rect - 1 := by omega
    rw [hassoc] at hoffset
    refine ⟨by omega, by omega, by omega, by omega, by omega, hoffset.1, hsrc⟩
  · intro h p hp
    obtain ⟨row, col, hrow, hcol, rfl⟩ := mem_drawLoops.mp hp
    have hrow' : (row : Int) ≤ drawH gw rect - 1 := by omega
    have hleft := h.left
    have hright := h.right
    have htop := h.top
    have hbottom := h.bottom
    rw [composited_iff (by omega), offset_eq_iff (Int.mul_nonneg (by omega) (Int.natCast_nonneg _)) (by omega)]
    have hrowOffset : (rect.cy + row) * (fb.pitch : Int) ≤ (rect.cy + drawH gw rect - 1) * fb.pitch :=
      Int.mul_le_mul_of_nonneg_right (by omega) (Int.natCast_nonneg _)
    have hrowSrc : row * gw.clientW ≤ (drawH gw rect - 1) * gw.clientW := Int.mul_le_mul_of_nonneg_right hrow' (by omega)
    have hlastOffset := h.lastOffset
    have hlastSrc := h.lastSrc
    have hleftOffset := h.leftOffset
    refine ⟨⟨by omega, by omega⟩, ⟨by omega, by omega⟩, ⟨by omega, by omega⟩, by omega⟩

/-! ### Runs -/

/-- What happens on the desktop: calls of applications, the mouse, an application's drawing in the client buffer of a slot, and the drawing of a window. -/
inductive DeskStep where
  | create (c : GuiCreate) (buffer : NewBuffer)
  | destroy (pid handle : Int)
  | mouse (m : WmMouse) (buffer : NewBuffer)
  | paint (slot : Nat) (pixels : Int → BitVec 32)
  | draw (win : Nat)

namespace DeskStep

def step (fb : FbInfo) (s : GuiDesk) : DeskStep → GuiDesk
  | create c buffer => (guiSrvWindowCreate fb s c buffer).2
  | destroy pid handle => guiSrvDestroy fb s pid handle
  | mouse m buffer => guiHandleMouse fb s m buffer
  | paint slot pixels => { s with contents := Function.update s.contents slot pixels }
  | draw _ => s

/-- Every pixel that a draw stores is a pixel of the client area, at its place on the screen. -/
def Composites (fb : FbInfo) (s : GuiDesk) : DeskStep → Prop
  | draw win => ∀ p ∈ guiWindowDraw fb s win, ∃ i, findSlotByWm s.srv (win + 1) = some i ∧
      p.Composited fb (s.srv.windows i) (wmClientRect (s.wm.windows win)) (s.contents i)
  | _ => True

/-- What a draw has to draw fits. -/
def Fits (fb : FbInfo) (s : GuiDesk) : DeskStep → Prop
  | draw win => fb.addr ≠ 0 → fb.bpp = 32 → ∀ i, findSlotByWm s.srv (win + 1) = some i → (s.srv.windows i).pixels ≠ 0 →
      0 < drawW (s.srv.windows i) (wmClientRect (s.wm.windows win)) → 0 < drawH (s.srv.windows i) (wmClientRect (s.wm.windows win)) →
      DrawFits fb (s.srv.windows i) (wmClientRect (s.wm.windows win))
  | _ => True

theorem composites_iff (fb : FbInfo) (s : GuiDesk) (a : DeskStep) : a.Composites fb s ↔ a.Fits fb s := by
  cases a with
  | draw win =>
      simp only [Composites, Fits, guiWindowDraw]
      by_cases hfb : fb.addr = 0 ∨ fb.bpp ≠ 32
      · rw [if_pos hfb]
        constructor
        · intro _ haddr hbpp
          exact absurd hfb (by tauto)
        · intro _ p hp
          exact absurd hp List.not_mem_nil
      rw [if_neg hfb]
      push Not at hfb
      cases hfind : findSlotByWm s.srv (win + 1) with
      | none => simp
      | some i =>
          simp only [Option.some.injEq, exists_eq_left', forall_eq']
          by_cases hnothing : (s.srv.windows i).pixels = 0 ∨ drawW (s.srv.windows i) (wmClientRect (s.wm.windows win)) ≤ 0 ∨
              drawH (s.srv.windows i) (wmClientRect (s.wm.windows win)) ≤ 0
          · rw [if_pos hnothing]
            constructor
            · intro _ _ _ hpixels hw hh
              omega
            · intro _ p hp
              exact absurd hp List.not_mem_nil
          · rw [if_neg hnothing]
            push Not at hnothing
            obtain ⟨hpixels, hw, hh⟩ := hnothing
            rw [drawLoops_composited hw hh]
            simp only [hfb.1, hfb.2, hpixels, hw, hh, ne_eq, not_false_eq_true, forall_true_left]
  | _ => exact Iff.rfl

end DeskStep

/-- The desktop after `gui_srv_init` and `wm_init`. -/
def GuiDesk.start (srv : GuiSrv) (wm : Wm) (contents : Nat → Int → BitVec 32) : GuiDesk := ⟨guiSrvInit srv, wmInit wm, contents⟩

/-- Compositing stays inside the framebuffer exactly as long as what is drawn fits. -/
theorem compositing_iff_fits (fb : FbInfo) (srv : GuiSrv) (wm : Wm) (contents : Nat → Int → BitVec 32) (steps : List DeskStep) :
    Lib.Allowed (DeskStep.Composites fb) (DeskStep.step fb) (GuiDesk.start srv wm contents) steps ↔
      Lib.Allowed (DeskStep.Fits fb) (DeskStep.step fb) (GuiDesk.start srv wm contents) steps := by
  constructor
  · exact fun h => h.mono fun s a => (a.composites_iff fb s).mp
  · exact fun h => h.mono fun s a => (a.composites_iff fb s).mpr

/-- Memory of the window service that is all zeros. -/
def GuiSrv.zeroed : GuiSrv where
  windows _ := ⟨0, 0, 0, 0, 0, 0, 0, [], false, false, false, false, 0, 0, 0, 0, ⟨fun _ => ⟨0, 0, 0, 0, 0, 0, 0⟩, 0, 0, 0⟩⟩
  nextHandle := 0
  drops := ⟨0, 0, 0⟩

/-- A window whose left side is beyond the left side of the screen. -/
def createLeft : List DeskStep := [.create ⟨1, none, -100, 100, 1, 1⟩ ⟨0x300000, fun _ => 0⟩, .draw 0]

/-- The pixel goes about 4 GiB behind the framebuffer. -/
theorem compositing_outside :
    ¬∀ (fb : FbInfo) (srv : GuiSrv) (wm : Wm) (contents : Nat → Int → BitVec 32) (steps : List DeskStep), fb.addr ≠ 0 → fb.bpp = 32 →
      4 * fb.width ≤ fb.pitch → fb.height * fb.pitch < 2 ^ 32 →
      Lib.Allowed (DeskStep.Composites fb) (DeskStep.step fb) (GuiDesk.start srv wm contents) steps := by
  intro hclaim
  have hrun := hclaim ⟨0xE0000000, 4096, 1024, 768, 32⟩ GuiSrv.zeroed Wm.zeroed (fun _ _ => 0) createLeft (by decide) rfl (by decide) (by decide)
  have hfits := (DeskStep.composites_iff _ _ _).mp hrun.2.1
  have hdraw := hfits (by decide) rfl 0 (by decide +kernel) (by decide +kernel) (by decide +kernel) (by decide +kernel)
  exact absurd hdraw.left (by decide +kernel)

end Tsukasa
