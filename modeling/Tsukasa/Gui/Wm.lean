import Tsukasa.Base.Word
import Tsukasa.Gui.GuiSrv
import Mathlib.Data.BitVec

/-!
# The window manager

`gfx/wm.c`. A pointer to a window is its index in `win_pool`, and a pointer to something else a number with 0 for a null pointer. An `int` is an integer, and a sum of two is taken back into the 32-bit range.

A callback of an application does not call back into the window manager; the events it is given are listed beside the new state. The queue of dirty regions is the list of the rectangles in it.
-/

namespace Tsukasa

def wmResizeGrip : Int := 12
def wmDirtyMax : Nat := 128
def wmMinW : Int := 140
def wmMinH : Int := 90
def wmTitleBarH : Int := 28
def wmBorderPx : Int := 2
def uiShadowR : Int := 6
def uiTbtnR : Int := 7
def uiTbtnYOff : Int := 14

def wmFlagVisible : BitVec 32 := 1#32
def wmFlagActive : BitVec 32 := 2#32
def wmFlagDragging : BitVec 32 := 4#32
def wmFlagClosable : BitVec 32 := 8#32
def wmFlagResizable : BitVec 32 := 16#32
def wmFlagAutoclose : BitVec 32 := 32#32

def mouseMove : Nat := 2
def mouseBtnDown : Nat := 3
def mouseBtnUp : Nat := 4
def mouseButtonLeft : BitVec 32 := 1#32
def mouseButtonRight : BitVec 32 := 2#32

def inputEventClick : Int := 2
def inputEventRightClick : Int := 3
def inputEventClose : Int := 4
def inputEventMouseDown : Int := 6
def inputEventMouseUp : Int := 7
def inputEventResize : Int := 11

/-- `struct fb_info`; `addr` is 0 without a framebuffer. -/
structure FbInfo where
  addr : Nat
  pitch : Nat
  width : Nat
  height : Nat
  bpp : Nat

structure WmDirtyRect where
  x : Int
  y : Int
  w : Int
  h : Int
deriving DecidableEq

structure WmWindow where
  x : Int
  y : Int
  w : Int
  h : Int
  minW : Int
  minH : Int
  title : List UInt8
  flags : BitVec 32
  opacity : Nat
  accent : Nat
  drawContent : Nat
  handleEvent : Nat
  appData : Nat
  prev : Option Nat
  next : Option Nat

/-- An event that `dispatch_to_window` hands to the window `win`. -/
structure WmEvent where
  win : Nat
  eventId : Int
  subtype : Nat
  keycode : BitVec 32
  x : Int
  y : Int
deriving DecidableEq

structure Wm where
  windows : Nat → WmWindow
  /-- `win_pool_used` -/
  used : Nat → Bool
  zlistHead : Option Nat
  zlistTail : Option Nat
  dragWin : Option Nat
  resizeWin : Option Nat
  dragOffsetX : Int
  dragOffsetY : Int
  resizeStartW : Int
  resizeStartH : Int
  resizeStartMx : Int
  resizeStartMy : Int
  prevButtons : BitVec 32
  dirty : List WmDirtyRect

namespace Wm

def setWindow (s : Wm) (i : Nat) (w : WmWindow) : Wm := { s with windows := Function.update s.windows i w }

theorem setWindow_windows (s : Wm) (i j : Nat) (w : WmWindow) : (s.setWindow i w).windows j = if j = i then w else s.windows j :=
  Function.update_apply s.windows i w j

def setFlag (s : Wm) (i : Nat) (flag : BitVec 32) : Wm := s.setWindow i { s.windows i with flags := (s.windows i).flags ||| flag }

def clearFlag (s : Wm) (i : Nat) (flag : BitVec 32) : Wm := s.setWindow i { s.windows i with flags := (s.windows i).flags &&& ~~~flag }

end Wm

def WmWindow.has (w : WmWindow) (flag : BitVec 32) : Bool := w.flags &&& flag ≠ 0

/-! ### Dirty queue -/

def clampi (v lo hi : Int) : Int := if v < lo then lo else if hi < v then hi else v

/-- `wm_mark_dirty_rect` on the queue. -/
def wmMarkDirtyRect (fb : FbInfo) (dirty : List WmDirtyRect) (x y w h : Int) : List WmDirtyRect :=
  if w ≤ 0 ∨ h ≤ 0 then dirty
  else
    let r : WmDirtyRect :=
      if fb.width ≠ 0 ∧ fb.height ≠ 0 then
        let x1 := int32 (x + w)
        let y1 := int32 (y + h)
        let x := clampi x 0 (toInt32 fb.width)
        let y := clampi y 0 (toInt32 fb.height)
        let x1 := clampi x1 0 (toInt32 fb.width)
        let y1 := clampi y1 0 (toInt32 fb.height)
        ⟨x, y, int32 (x1 - x), int32 (y1 - y)⟩
      else ⟨x, y, w, h⟩
    if r.w ≤ 0 ∨ r.h ≤ 0 then dirty
    else if wmDirtyMax ≤ dirty.length then [⟨0, 0, toInt32 fb.width, toInt32 fb.height⟩]
    else dirty ++ [r]

/-- `wm_collect_dirty_regions` with a buffer: what it copies, and the queue. -/
def wmCollectDirtyRegions (dirty : List WmDirtyRect) (max : Int) : List WmDirtyRect × List WmDirtyRect :=
  if max ≤ 0 then ([], dirty) else (dirty.take max.toNat, [])

def Wm.markRect (fb : FbInfo) (s : Wm) (x y w h : Int) : Wm := { s with dirty := wmMarkDirtyRect fb s.dirty x y w h }

def wmMarkWindowDirty (fb : FbInfo) (s : Wm) (i : Nat) : Wm :=
  let w := s.windows i
  let margin := uiShadowR + 2
  s.markRect fb (int32 (w.x - margin)) (int32 (w.y - margin)) (int32 (w.w + margin * 2)) (int32 (w.h + margin * 2))

/-! ### Z-list manipulation -/

def zlistRemove (s : Wm) (i : Nat) : Wm :=
  let s :=
    match (s.windows i).prev with
    | some p => s.setWindow p { s.windows p with next := (s.windows i).next }
    | none => { s with zlistHead := (s.windows i).next }
  let s :=
    match (s.windows i).next with
    | some n => s.setWindow n { s.windows n with prev := (s.windows i).prev }
    | none => { s with zlistTail := (s.windows i).prev }
  s.setWindow i { s.windows i with prev := none, next := none }

def zlistPushTop (s : Wm) (i : Nat) : Wm :=
  let s := s.setWindow i { s.windows i with prev := s.zlistTail, next := none }
  let s :=
    match s.zlistTail with
    | some t => s.setWindow t { s.windows t with next := some i }
    | none => { s with zlistHead := some i }
  { s with zlistTail := some i }

/-! ### Event dispatch -/

/-- `dispatch_to_window` without a source event. -/
def dispatchToWindow (fb : FbInfo) (s : Wm) (ev : WmEvent) : Wm × List WmEvent :=
  if (s.windows ev.win).handleEvent = 0 then (s, []) else (wmMarkWindowDirty fb s ev.win, [ev])

/-! ### Calls -/

def wmInit (s : Wm) : Wm :=
  { s with
    used := fun i => if i < wmMaxWindows then false else s.used i
    zlistHead := none
    zlistTail := none
    dragWin := none
    resizeWin := none
    dragOffsetX := 0
    dragOffsetY := 0
    resizeStartW := 0
    resizeStartH := 0
    resizeStartMx := 0
    resizeStartMy := 0
    prevButtons := 0
    dirty := [] }

/-- Memory that is all zeros. -/
def Wm.zeroed : Wm where
  windows _ := ⟨0, 0, 0, 0, 0, 0, [], 0, 0, 0, 0, 0, 0, none, none⟩
  used _ := false
  zlistHead := none
  zlistTail := none
  dragWin := none
  resizeWin := none
  dragOffsetX := 0
  dragOffsetY := 0
  resizeStartW := 0
  resizeStartH := 0
  resizeStartMx := 0
  resizeStartMy := 0
  prevButtons := 0
  dirty := []

/-- What a call of `wm_create_window` is given. -/
structure WmCreate where
  x : Int
  y : Int
  w : Int
  h : Int
  title : List UInt8
  drawContent : Nat
  handleEvent : Nat
  appData : Nat

def wmCreateWindow (fb : FbInfo) (s : Wm) (c : WmCreate) : Option Nat × Wm :=
  match (List.range wmMaxWindows).find? fun i => !s.used i with
  | none => (none, s)
  | some slot =>
      let w := if c.w < wmMinW then wmMinW else c.w
      let h := if c.h < wmMinH then wmMinH else c.h
      let s := { s with used := Function.update s.used slot true }
      let s := s.setWindow slot {
        x := c.x
        y := c.y
        w := w
        h := h
        minW := wmMinW
        minH := wmMinH
        title := c.title.take (wmTitleMax - 1)
        flags := wmFlagVisible ||| wmFlagClosable ||| wmFlagResizable ||| wmFlagAutoclose
        opacity := 245
        accent := 0
        drawContent := c.drawContent
        handleEvent := c.handleEvent
        appData := c.appData
        prev := none
        next := none }
      let s :=
        match s.zlistTail with
        | some t => s.clearFlag t wmFlagActive
        | none => s
      let s := zlistPushTop s slot
      let s := s.setFlag slot wmFlagActive
      (some slot, wmMarkWindowDirty fb s slot)

/-- The pointers of the mouse are reset if they are to the window. -/
def releaseHeld (s : Wm) (win : Nat) : Wm :=
  { s with
    dragWin := if s.dragWin = some win then none else s.dragWin
    resizeWin := if s.resizeWin = some win then none else s.resizeWin }

def freeAppData (s : Wm) (win : Nat) : Wm :=
  if (s.windows win).appData ≠ 0 then s.setWindow win { s.windows win with appData := 0 } else s

def wmDestroyWindow (fb : FbInfo) (s : Wm) (win : Nat) : Wm :=
  let s := releaseHeld (wmMarkWindowDirty fb s win) win
  let s := freeAppData (zlistRemove s win) win
  let s := if win < wmMaxWindows then { s with used := Function.update s.used win false } else s
  match s.zlistTail with
  | some t => wmMarkWindowDirty fb (s.setFlag t wmFlagActive) t
  | none => s

def wmBringToFront (fb : FbInfo) (s : Wm) (win : Nat) : Wm :=
  if s.zlistTail = some win then s
  else
    let s :=
      match s.zlistTail with
      | some t => wmMarkWindowDirty fb (s.clearFlag t wmFlagActive) t
      | none => s
    let s := zlistRemove s win
    let s := zlistPushTop s win
    let s := s.setFlag win wmFlagActive
    wmMarkWindowDirty fb s win

/-- The test of `wm_find_window_at` on one window. -/
def WmWindow.at (w : WmWindow) (px py : Int) : Bool :=
  w.has wmFlagVisible && decide (w.x ≤ px) && decide (px < int32 (w.x + w.w)) && decide (w.y ≤ py) && decide (py < int32 (w.y + w.h))

/-- The loop of `wm_find_window_at`, from the window `cur` down. -/
def findWindowLoop (s : Wm) (px py : Int) : Nat → Option Nat → Option Nat
  | 0, _ => none
  | _ + 1, none => none
  | fuel + 1, some i => if (s.windows i).at px py then some i else findWindowLoop s px py fuel (s.windows i).prev

/-- `wm_find_window_at`; a list of windows of the pool does not use up the fuel. -/
def wmFindWindowAt (s : Wm) (px py : Int) : Option Nat := findWindowLoop s px py (wmMaxWindows + 1) s.zlistTail

structure ClientRect where
  cx : Int
  cy : Int
  cw : Int
  ch : Int
deriving DecidableEq

def wmClientRect (w : WmWindow) : ClientRect where
  cx := int32 (w.x + wmBorderPx)
  cy := int32 (w.y + wmBorderPx + wmTitleBarH)
  cw := int32 (w.w - 2 * wmBorderPx)
  ch := int32 (w.h - 2 * wmBorderPx - wmTitleBarH)

def hitCloseBtn (w : WmWindow) (px py : Int) : Bool :=
  let bx := int32 (w.x + wmBorderPx + 14)
  let bTop := int32 (w.y + wmBorderPx + uiTbtnYOff)
  let dx := int32 (px - bx)
  let dy := int32 (py - bTop)
  let r := uiTbtnR + 4
  int32 (dx * dx + dy * dy) ≤ r * r

def hitTitleBar (w : WmWindow) (px py : Int) : Bool :=
  w.x ≤ px ∧ px < int32 (w.x + w.w) ∧ w.y ≤ py ∧ py < int32 (w.y + wmBorderPx + wmTitleBarH)

def hitResizeGrip (w : WmWindow) (px py : Int) : Bool :=
  int32 (w.x + w.w - wmResizeGrip) ≤ px ∧ px < int32 (w.x + w.w) ∧ int32 (w.y + w.h - wmResizeGrip) ≤ py ∧ py < int32 (w.y + w.h)

/-- What a call of `wm_handle_mouse` is given. -/
structure WmMouse where
  mx : Int
  my : Int
  buttons : BitVec 32
  btnChanged : BitVec 32

namespace WmMouse

def leftPressed (m : WmMouse) : Bool := m.buttons &&& mouseButtonLeft ≠ 0

def rightPressed (m : WmMouse) : Bool := m.buttons &&& mouseButtonRight ≠ 0

def leftDownEdge (m : WmMouse) : Bool := m.leftPressed && decide (m.btnChanged &&& mouseButtonLeft ≠ 0)

def leftUpEdge (m : WmMouse) : Bool := !m.leftPressed && decide (m.btnChanged &&& mouseButtonLeft ≠ 0)

def rightDownEdge (m : WmMouse) : Bool := m.rightPressed && decide (m.btnChanged &&& mouseButtonRight ≠ 0)

def rightUpEdge (m : WmMouse) : Bool := !m.rightPressed && decide (m.btnChanged &&& mouseButtonRight ≠ 0)

end WmMouse

/-- The return value of a call, the state, and the events dispatched. -/
abbrev WmResult := Int × Wm × List WmEvent

/-- The old place of a window that a drag or a resize has changed, with its shadow, and the new one are dirty. -/
def markMoved (fb : FbInfo) (s : Wm) (i : Nat) (x y w h : Int) : Wm :=
  let margin := uiShadowR + 2
  wmMarkWindowDirty fb (s.markRect fb (int32 (x - margin)) (int32 (y - margin)) (int32 (w + margin * 2)) (int32 (h + margin * 2))) i

/-- The part of `wm_handle_mouse` for a resize in progress. -/
def handleResize (fb : FbInfo) (s : Wm) (i : Nat) (m : WmMouse) : Wm × List WmEvent :=
  if m.leftPressed then
    let w := s.windows i
    let newW := int32 (s.resizeStartW + int32 (m.mx - s.resizeStartMx))
    let newH := int32 (s.resizeStartH + int32 (m.my - s.resizeStartMy))
    let newW := if newW < w.minW then w.minW else newW
    let newH := if newH < w.minH then w.minH else newH
    let s := s.setWindow i { w with w := newW, h := newH }
    let s := markMoved fb s i w.x w.y w.w w.h
    let client := wmClientRect (s.windows i)
    dispatchToWindow fb s ⟨i, inputEventResize, mouseMove, m.buttons, client.cw, client.ch⟩
  else ({ s with resizeWin := none }, [])

/-- The part for a drag in progress. -/
def handleDrag (fb : FbInfo) (s : Wm) (i : Nat) (m : WmMouse) : Wm :=
  if m.leftPressed then
    let w := s.windows i
    let y := int32 (m.my - s.dragOffsetY)
    let s := s.setWindow i { w with x := int32 (m.mx - s.dragOffsetX), y := if y < 0 then 0 else y }
    markMoved fb s i w.x w.y w.w w.h
  else { s.clearFlag i wmFlagDragging with dragWin := none }

/-- The part for a button that goes down over the window `hit`, which has been brought to the front. -/
def handlePress (fb : FbInfo) (s : Wm) (hit : Nat) (m : WmMouse) : Wm × List WmEvent :=
  let w := s.windows hit
  if m.leftDownEdge && w.has wmFlagClosable && hitCloseBtn w m.mx m.my then
    let (s, events) := dispatchToWindow fb s ⟨hit, inputEventClose, mouseBtnDown, m.buttons, m.mx, m.my⟩
    (if (s.windows hit).has wmFlagAutoclose then wmDestroyWindow fb s hit else s, events)
  else if m.leftDownEdge && w.has wmFlagResizable && hitResizeGrip w m.mx m.my then
    ({ s with resizeWin := some hit, resizeStartW := w.w, resizeStartH := w.h, resizeStartMx := m.mx, resizeStartMy := m.my }, [])
  else if m.leftDownEdge && hitTitleBar w m.mx m.my then
    ({ s with dragWin := some hit, dragOffsetX := int32 (m.mx - w.x), dragOffsetY := int32 (m.my - w.y) }.setFlag hit wmFlagDragging, [])
  else
    let (s, down) :=
      if m.leftDownEdge then
        let (s, first) := dispatchToWindow fb s ⟨hit, inputEventMouseDown, mouseBtnDown, m.buttons, m.mx, m.my⟩
        let (s, second) := dispatchToWindow fb s ⟨hit, inputEventClick, mouseBtnDown, m.buttons, m.mx, m.my⟩
        (s, first ++ second)
      else (s, [])
    if m.rightDownEdge then
      let (s, right) := dispatchToWindow fb s ⟨hit, inputEventRightClick, mouseBtnDown, m.buttons, m.mx, m.my⟩
      (s, down ++ right)
    else (s, down)

/-- The parts for a button that goes up and for a move. -/
def handleHover (fb : FbInfo) (s : Wm) (m : WmMouse) : WmResult :=
  match if m.leftUpEdge || m.rightUpEdge then wmFindWindowAt s m.mx m.my else none with
  | some hit => (1, dispatchToWindow fb s ⟨hit, inputEventMouseUp, mouseBtnUp, m.buttons, m.mx, m.my⟩)
  | none =>
      match if m.btnChanged = 0 then wmFindWindowAt s m.mx m.my else none with
      | some hit => (1, dispatchToWindow fb s ⟨hit, inputEventMouseMove, mouseMove, m.buttons, m.mx, m.my⟩)
      | none => (0, s, [])

def wmHandleMouse (fb : FbInfo) (s : Wm) (m : WmMouse) : WmResult :=
  let (res, s, events) : WmResult :=
    match s.resizeWin with
    | some i => (1, handleResize fb s i m)
    | none =>
        match s.dragWin with
        | some i => (1, handleDrag fb s i m, [])
        | none =>
            match if m.leftDownEdge || m.rightDownEdge then wmFindWindowAt s m.mx m.my else none with
            | some hit => (1, handlePress fb (wmBringToFront fb s hit) hit m)
            | none => handleHover fb s m
  (res, { s with prevButtons := m.buttons }, events)

def wmSetResizable (fb : FbInfo) (s : Wm) (win : Nat) (resizable : Bool) : Wm :=
  wmMarkWindowDirty fb (if resizable then s.setFlag win wmFlagResizable else s.clearFlag win wmFlagResizable) win

def wmSetTitle (fb : FbInfo) (s : Wm) (win : Nat) (title : List UInt8) : Wm :=
  wmMarkWindowDirty fb (s.setWindow win { s.windows win with title := title.take (wmTitleMax - 1) }) win

def wmSetAutoclose (s : Wm) (win : Nat) (autoclose : Bool) : Wm :=
  if autoclose then s.setFlag win wmFlagAutoclose else s.clearFlag win wmFlagAutoclose

end Tsukasa
