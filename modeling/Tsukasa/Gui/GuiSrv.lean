import Tsukasa.Base.Word
import Tsukasa.Gui.EventRing

/-!
# The window service

`gfx/gui_srv.c`: the table of windows behind `g_gui_lock`, the event queue of a window, and the creation, the destruction and the cleanup of windows. A definition here is what happens under one hold of the lock; a call that drops the lock in between is a sequence of them.

Pointers are numbers with 0 for a null pointer, and the contents of pixel buffers are left out.
-/

namespace Tsukasa

def guiSrvMaxWindows : Nat := 32
def guiSrvEventQ : Nat := 128
def wmTitleMax : Nat := 48
def wmMaxWindows : Nat := 16

def guiOk : Int := 0
def guiErrInvalid : Int := -1
def guiErrNotfound : Int := -2
def guiErrNomem : Int := -3
def guiErrPerm : Int := -4
def guiErrFull : Int := -5
def guiErrAgain : Int := -6

structure TsukasaGuiEvent where
  type : Int
  window : Int
  x : Int
  y : Int
  keycode : Int
  data1 : Int
  data2 : Int
deriving DecidableEq

def guiEventKind : EventKind TsukasaGuiEvent := ⟨TsukasaGuiEvent.type, TsukasaGuiEvent.window⟩

structure GuiWindow where
  /-- 0 for a free slot, 1 for a window, 2 for a slot that a create has reserved. -/
  used : Nat
  handle : Int
  ownerPid : Int
  wmWin : Nat
  pixels : Nat
  clientW : Int
  clientH : Int
  title : List UInt8
  resizable : Bool
  dirtyPending : Bool
  closePolicyAutoclose : Bool
  closeRequested : Bool
  droppedEvents : Nat
  droppedLowPriority : Nat
  droppedOldest : Nat
  enqueuedEvents : Nat
  /-- `events`, `ev_head`, `ev_tail` and `ev_count`. -/
  queue : EventRing TsukasaGuiEvent

/-- The totals over all windows. -/
structure GuiDrops where
  events : Nat
  lowPriority : Nat
  oldest : Nat

structure GuiSrv where
  windows : Nat → GuiWindow
  nextHandle : Int
  drops : GuiDrops

def GuiSrv.setWindow (s : GuiSrv) (i : Nat) (gw : GuiWindow) : GuiSrv := { s with windows := Function.update s.windows i gw }

/-! ### Events -/

/-- `evt_enqueue` on the window in slot `i`. -/
def evtEnqueue (s : GuiSrv) (i : Nat) (ev : TsukasaGuiEvent) : GuiSrv :=
  let gw := s.windows i
  match tryCoalesceTail guiEventKind guiSrvEventQ gw.queue ev with
  | some queue => s.setWindow i { gw with queue := queue }
  | none =>
      let s :=
        if guiSrvEventQ ≤ gw.queue.count then
          match tryDropLowPriority guiEventKind guiSrvEventQ gw.queue with
          | some queue =>
              { s.setWindow i { gw with
                  queue := queue
                  droppedEvents := wrap32 (gw.droppedEvents + 1)
                  droppedLowPriority := wrap32 (gw.droppedLowPriority + 1) } with
                drops := { s.drops with events := wrap64 (s.drops.events + 1), lowPriority := wrap64 (s.drops.lowPriority + 1) } }
          | none =>
              { s.setWindow i { gw with
                  queue := dropOldest guiSrvEventQ gw.queue
                  droppedEvents := wrap32 (gw.droppedEvents + 1)
                  droppedOldest := wrap32 (gw.droppedOldest + 1) } with
                drops := { s.drops with events := wrap64 (s.drops.events + 1), oldest := wrap64 (s.drops.oldest + 1) } }
        else s
      let gw := s.windows i
      s.setWindow i { gw with queue := appendEvent guiSrvEventQ gw.queue ev, enqueuedEvents := wrap32 (gw.enqueuedEvents + 1) }

def findSlotByHandle (s : GuiSrv) (handle : Int) : Option Nat :=
  (List.range guiSrvMaxWindows).find? fun i => (s.windows i).used ≠ 0 ∧ (s.windows i).handle = handle

def queuePaintEvent (s : GuiSrv) (i : Nat) (x y w h : Int) : GuiSrv :=
  let gw := s.windows i
  evtEnqueue (s.setWindow i { gw with dirtyPending := true }) i ⟨inputEventPaint, gw.handle, x, y, 0, w, h⟩

/-- `gui_srv_get_event` with a buffer for the event. -/
def guiSrvGetEvent (s : GuiSrv) (pid handle : Int) : Int × Option TsukasaGuiEvent × GuiSrv :=
  match findSlotByHandle s handle with
  | none => (guiErrNotfound, none, s)
  | some i =>
      let gw := s.windows i
      if gw.ownerPid ≠ pid then (guiErrPerm, none, s)
      else if gw.queue.count = 0 then (guiErrAgain, none, s)
      else
        let out := gw.queue.buf gw.queue.head
        let gw := { gw with queue := dropOldest guiSrvEventQ gw.queue }
        (guiOk, some out, s.setWindow i { gw with dirtyPending := if out.type = inputEventPaint then false else gw.dirtyPending })

/-! ### Windows -/

def guiSrvInit (s : GuiSrv) : GuiSrv :=
  { windows := fun i =>
      if i < guiSrvMaxWindows then
        { s.windows i with
          used := 0
          handle := 0
          ownerPid := -1
          wmWin := 0
          pixels := 0
          clientW := 0
          clientH := 0
          title := []
          resizable := true
          dirtyPending := false
          closePolicyAutoclose := false
          closeRequested := false
          droppedEvents := 0
          droppedLowPriority := 0
          droppedOldest := 0
          enqueuedEvents := 0
          queue := { (s.windows i).queue with head := 0, tail := 0, count := 0 } }
      else s.windows i
    nextHandle := 1
    drops := ⟨0, 0, 0⟩ }

/-- The search of `gui_srv_process_cleanup`: the handle of a window of `pid`, −1 when there is none. -/
def cleanupScan (s : GuiSrv) (pid : Int) : Int :=
  match (List.range guiSrvMaxWindows).find? fun i => (s.windows i).used ≠ 0 ∧ (s.windows i).ownerPid = pid with
  | some i => (s.windows i).handle
  | none => -1

/-- The first part of `gui_srv_window_create`: a free slot is reserved. -/
def reserveSlot (s : GuiSrv) : Option (Nat × GuiSrv) :=
  ((List.range guiSrvMaxWindows).find? fun i => (s.windows i).used = 0).map fun i => (i, s.setWindow i { s.windows i with used := 2 })

/-- The slot of a create whose window could not be made. -/
def releaseSlot (s : GuiSrv) (i : Nat) : GuiSrv := s.setWindow i { s.windows i with used := 0 }

/-- `reallocate_client_buffer` on a window without a buffer, where `kmalloc` has given `pixels`. -/
def reallocateClientBuffer (gw : GuiWindow) (pixels : Nat) (w h : Int) : Int × GuiWindow :=
  if w ≤ 0 ∨ h ≤ 0 then (guiErrInvalid, gw)
  else if pixels = 0 then (guiErrNomem, gw)
  else (guiOk, { gw with pixels := pixels, clientW := w, clientH := h })

/-- The last part of `gui_srv_window_create`: the reserved slot `i` becomes the window `win`. -/
def installWindow (s : GuiSrv) (i : Nat) (pid : Int) (win : Nat) (title : Option (List UInt8)) (w h : Int) (pixels : Nat) : Int × GuiSrv :=
  let handle := s.nextHandle
  let gw := { s.windows i with
    used := 1
    handle := handle
    ownerPid := pid
    wmWin := win
    pixels := 0
    clientW := 0
    clientH := 0
    title := (title.getD [65, 112, 112]).take (wmTitleMax - 1)
    resizable := true
    dirtyPending := false
    closePolicyAutoclose := false
    closeRequested := false
    droppedEvents := 0
    droppedLowPriority := 0
    droppedOldest := 0
    enqueuedEvents := 0
    queue := { (s.windows i).queue with head := 0, tail := 0, count := 0 } }
  let s := { s with nextHandle := (handle + 1).bmod (2 ^ 32) }
  let (err, gw) := reallocateClientBuffer gw pixels w h
  if err ≠ guiOk then (guiErrNomem, s.setWindow i { gw with used := 0, wmWin := 0 })
  else (handle, queuePaintEvent (s.setWindow i gw) i 0 0 w h)

/-- `gui_srv_window_destroy` under the lock, with the window and the buffer that it goes on to free. -/
def guiSrvWindowDestroy (s : GuiSrv) (pid handle : Int) : Int × Option (Nat × Nat) × GuiSrv :=
  match findSlotByHandle s handle with
  | none => (guiErrNotfound, none, s)
  | some i =>
      let gw := s.windows i
      if gw.ownerPid ≠ pid then (guiErrPerm, none, s)
      else
        (guiOk, some (gw.wmWin, gw.pixels), s.setWindow i { gw with
          used := 0
          wmWin := 0
          pixels := 0
          clientW := 0
          clientH := 0
          title := []
          resizable := true
          dirtyPending := false
          closePolicyAutoclose := false
          closeRequested := false
          droppedEvents := 0
          droppedLowPriority := 0
          droppedOldest := 0
          enqueuedEvents := 0
          queue := { gw.queue with count := 0 } })

end Tsukasa
