import Tsukasa.Gui.Event
import Tsukasa.Gui.Wm
import Tsukasa.Lib.Edges
import Tsukasa.Lib.Run

/-!
# The mouse

`drv/ps2mouse.c` and the position of `gfx/cursor.c`. A packet is three bytes, one with each interrupt: buttons and signs, and the two displacements. The first byte has bit 3 set, and bytes without it are skipped where a packet may begin. A packet moves the cursor, which stays on the screen, and makes an event for a movement and one for every button that has changed.
-/

namespace Tsukasa

open Lib

/-! ### The cursor -/

structure CursorPos where
  x : Int
  y : Int

/-- One coordinate of `cursor_move`, along a side of the screen. -/
def cursorClamp (side : Nat) (z : Int) : Int :=
  let z := if z < 0 then 0 else z
  if side ≠ 0 ∧ toInt32 side ≤ z then toInt32 side - 1 else z

def cursorMove (fb : FbInfo) (c : CursorPos) (dx dy : Int) : CursorPos := ⟨cursorClamp fb.width (c.x + dx), cursorClamp fb.height (c.y + dy)⟩

/-! ### The driver -/

inductive MouseButton where
  | left
  | right
  | middle
deriving DecidableEq

/-- `MOUSE_BUTTON_LEFT` and so on: the bit of the button in the status byte. -/
def MouseButton.mask : MouseButton → UInt8
  | left => 1
  | right => 2
  | middle => 4

/-- The type of the event when the button goes down. -/
def MouseButton.down : MouseButton → Int
  | left => inputEventMouseDown
  | right => inputEventRightClick
  | middle => inputEventMouseDown

/-- The state of a button in a status byte. -/
def MouseButton.held (button : MouseButton) (buttons : UInt8) : Bool := decide (buttons &&& button.mask ≠ 0)

/-- The driver, the cursor and the input queue. `sent` are the events that have been put into the queue. -/
structure Mouse where
  cycle : Nat
  bytes : Nat → UInt8
  buttonsPrev : UInt8
  cursor : CursorPos
  queue : EventRing InputEvent
  sent : List InputEvent

/-- A displacement: the byte as an `int8_t`, with ones above it if the sign bit of the status is set. -/
def mouseDelta (sign : Bool) (b : UInt8) : Int := if sign || decide (128 ≤ b.toNat) then b.toNat - 256 else b.toNat

/-- An event of the mouse, with the type, the subtype and the modifiers it has. -/
def mouseEvent (id : Int) (subtype : Nat) (modifiers : UInt8) (c : CursorPos) (buttons : UInt8) : InputEvent where
  eventId := UInt16.ofInt id
  type := 1
  subtype := UInt8.ofNat subtype
  keycode := buttons.toUInt32
  x := c.x
  y := c.y
  wheelDelta := 0
  width := 0
  height := 0
  modifiers := modifiers.toUInt32
  windowId := -1

def moveEvent (c : CursorPos) (buttons : UInt8) : InputEvent := mouseEvent inputEventMouseMove mouseMove 0 c buttons

def buttonEvent (button : MouseButton) (c : CursorPos) (buttons : UInt8) : InputEvent :=
  if button.held buttons then mouseEvent button.down mouseBtnDown button.mask c buttons else mouseEvent inputEventMouseUp mouseBtnUp button.mask c buttons

/-- The event of a button, if its bit differs from the last packet's. -/
def buttonChange (button : MouseButton) (c : CursorPos) (buttons prev : UInt8) : List InputEvent :=
  if (buttons ^^^ prev) &&& button.mask ≠ 0 then [buttonEvent button c buttons] else []

/-- The events of a packet, in the order they are enqueued. -/
def packetEvents (c : CursorPos) (dx dy : Int) (buttons prev : UInt8) : List InputEvent :=
  (if dx ≠ 0 ∨ dy ≠ 0 then [moveEvent c buttons] else []) ++
    buttonChange .left c buttons prev ++ buttonChange .right c buttons prev ++ buttonChange .middle c buttons prev

/-- The third byte: a packet is decoded. -/
def mousePacket (fb : FbInfo) (m : Mouse) : Mouse :=
  let status := m.bytes 0
  let dx := mouseDelta (decide (status &&& 0x10 ≠ 0)) (m.bytes 1)
  let dy := -mouseDelta (decide (status &&& 0x20 ≠ 0)) (m.bytes 2)
  let cursor := cursorMove fb m.cursor dx dy
  let buttons := status &&& 0x07
  let events := packetEvents cursor dx dy buttons m.buttonsPrev
  { m with
    cursor := cursor
    queue := events.foldl (fun q e => (eventEnqueue q (some e)).2) m.queue
    sent := m.sent ++ events
    buttonsPrev := buttons }

/-- `ps2mouse_handler` with the byte that it reads from the port. -/
def ps2mouseHandler (fb : FbInfo) (m : Mouse) (data : UInt8) : Mouse :=
  match m.cycle with
  | 0 =>
      let m := { m with bytes := Function.update m.bytes 0 data }
      if data &&& 0x08 ≠ 0 then { m with cycle := 1 } else m
  | 1 => { m with bytes := Function.update m.bytes 1 data, cycle := 2 }
  | 2 => mousePacket fb { m with bytes := Function.update m.bytes 2 data, cycle := 0 }
  | _ => m

/-- The driver after `ps2mouse_init`, with a cursor that has been set. -/
def mouseBoot (bytes : Nat → UInt8) (cursor : CursorPos) (queue : EventRing InputEvent) : Mouse where
  cycle := 0
  bytes := bytes
  buttonsPrev := 0
  cursor := cursor
  queue := queue
  sent := []

def mouseRun (fb : FbInfo) (m : Mouse) (stream : List UInt8) : Mouse := run (ps2mouseHandler fb) m stream

/-! ### Reports of the buttons -/

/-- What an event says of a button. -/
def buttonReport (button : MouseButton) (e : InputEvent) : Option Bool :=
  if e.modifiers = button.mask.toUInt32 then some (decide (e.subtype = UInt8.ofNat mouseBtnDown)) else none

theorem held_cases (button : MouseButton) (b : UInt8) : b &&& button.mask = if button.held b then button.mask else 0 := by
  cases button with
  | left => exact @forall_byte (fun b => b &&& MouseButton.left.mask = if MouseButton.left.held b then MouseButton.left.mask else 0) (by decide +kernel) b
  | right => exact @forall_byte (fun b => b &&& MouseButton.right.mask = if MouseButton.right.held b then MouseButton.right.mask else 0) (by decide +kernel) b
  | middle => exact @forall_byte (fun b => b &&& MouseButton.middle.mask = if MouseButton.middle.held b then MouseButton.middle.mask else 0) (by decide +kernel) b

theorem held_zero (button : MouseButton) : button.held 0 = false := by cases button <;> decide

/-- The test of the source finds the buttons whose state has changed. -/
theorem changed_iff (button : MouseButton) (buttons prev : UInt8) : (buttons ^^^ prev) &&& button.mask ≠ 0 ↔ button.held buttons ≠ button.held prev := by
  have hxor : (buttons ^^^ prev) &&& button.mask = (buttons &&& button.mask) ^^^ (prev &&& button.mask) := by
    apply UInt8.eq_of_toBitVec_eq
    ext i hi
    simp [Bool.and_xor_distrib_right]
  rw [hxor, held_cases button buttons, held_cases button prev]
  cases button <;> cases MouseButton.held _ buttons <;> cases MouseButton.held _ prev <;> decide

theorem buttonReport_event (button other : MouseButton) (c : CursorPos) (buttons : UInt8) :
    buttonReport button (buttonEvent other c buttons) = if button = other then some (button.held buttons) else none := by
  rw [buttonEvent]
  by_cases heq : button = other
  · rw [if_pos heq, ← heq]
    cases button.held buttons with
    | true =>
        rw [if_pos rfl, buttonReport, mouseEvent, if_pos rfl]
        rfl
    | false =>
        rw [if_neg (by decide), buttonReport, mouseEvent, if_pos rfl]
        rfl
  · rw [if_neg heq]
    have hmask : other.mask.toUInt32 ≠ button.mask.toUInt32 := by
      cases button <;> cases other <;> first | exact absurd rfl heq | decide
    cases other.held buttons with
    | true => exact if_neg hmask
    | false => exact if_neg hmask

theorem buttonReport_change (button other : MouseButton) (c : CursorPos) (buttons prev : UInt8) :
    (buttonChange other c buttons prev).filterMap (buttonReport button) =
      if button = other ∧ button.held buttons ≠ button.held prev then [button.held buttons] else [] := by
  rw [buttonChange]
  by_cases heq : button = other
  · by_cases hchanged : button.held buttons = button.held prev
    · rw [if_neg fun h => (changed_iff other buttons prev).mp h (heq ▸ hchanged), if_neg fun h => h.2 hchanged, List.filterMap_nil]
    · rw [if_pos ((changed_iff other buttons prev).mpr (heq ▸ hchanged)), if_pos ⟨heq, hchanged⟩, List.filterMap_cons, buttonReport_event, if_pos heq]
      rfl
  · have hnone : ¬ (button = other ∧ button.held buttons ≠ button.held prev) := fun h => heq h.1
    rw [if_neg hnone]
    split
    · rw [List.filterMap_cons, buttonReport_event, if_neg heq]
      rfl
    · rfl

theorem buttonReport_move (button : MouseButton) (c : CursorPos) (buttons : UInt8) : buttonReport button (moveEvent c buttons) = none := by
  cases button <;> rfl

/-- A packet reports a button exactly when its state has changed. -/
theorem buttonReport_packet (button : MouseButton) (c : CursorPos) (dx dy : Int) (buttons prev : UInt8) :
    (packetEvents c dx dy buttons prev).filterMap (buttonReport button) = if button.held buttons = button.held prev then [] else [button.held buttons] := by
  have hmove : (if dx ≠ 0 ∨ dy ≠ 0 then [moveEvent c buttons] else []).filterMap (buttonReport button) = [] := by
    split
    · rw [List.filterMap_cons, buttonReport_move]
      rfl
    · rfl
  rw [packetEvents, List.filterMap_append, List.filterMap_append, List.filterMap_append, hmove, buttonReport_change, buttonReport_change,
    buttonReport_change]
  by_cases hchanged : button.held buttons = button.held prev
  · simp [hchanged]
  · cases button <;> simp [hchanged]

/-! ### On the screen -/

def CursorPos.OnScreen (fb : FbInfo) (c : CursorPos) : Prop := (0 ≤ c.x ∧ c.x < fb.width) ∧ 0 ≤ c.y ∧ c.y < fb.height

/-- A side of the screen that an `int` can count. -/
def SideOk (side : Nat) : Prop := 0 < side ∧ side < 2 ^ 31

instance (side : Nat) : Decidable (SideOk side) := inferInstanceAs (Decidable (_ ∧ _))

theorem cursorClamp_range {side : Nat} (h : SideOk side) (z : Int) : 0 ≤ cursorClamp side z ∧ cursorClamp side z < side := by
  have hint : toInt32 side = side := toInt32_eq_self.mpr h.2
  have hpos := h.1
  simp only [cursorClamp, hint]
  split <;> split <;> omega

theorem cursorMove_onScreen {fb : FbInfo} (hw : SideOk fb.width) (hh : SideOk fb.height) (c : CursorPos) (dx dy : Int) :
    (cursorMove fb c dx dy).OnScreen fb :=
  ⟨cursorClamp_range hw _, cursorClamp_range hh _⟩

theorem packetEvents_at {c : CursorPos} {dx dy : Int} {buttons prev : UInt8} {e : InputEvent} (he : e ∈ packetEvents c dx dy buttons prev) :
    e.x = c.x ∧ e.y = c.y := by
  have hbutton : ∀ button, e ∈ buttonChange button c buttons prev → e.x = c.x ∧ e.y = c.y := by
    intro button hmem
    rw [buttonChange] at hmem
    split at hmem
    · rw [List.mem_singleton.mp hmem, buttonEvent]
      split <;> exact ⟨rfl, rfl⟩
    · exact absurd hmem List.not_mem_nil
  rw [packetEvents] at he
  rcases List.mem_append.mp he with he | he
  · rcases List.mem_append.mp he with he | he
    · rcases List.mem_append.mp he with he | he
      · split at he
        · rw [List.mem_singleton.mp he]
          exact ⟨rfl, rfl⟩
        · exact absurd he List.not_mem_nil
      · exact hbutton _ he
    · exact hbutton _ he
  · exact hbutton _ he

/-- What the readers can rely on: positions are on the screen, each button goes down and up in turn, and its last report is its state. -/
structure MouseReports (fb : FbInfo) (q : EventRing InputEvent) (m : Mouse) : Prop where
  cursor : m.cursor.OnScreen fb
  onScreen : ∀ e ∈ m.sent, CursorPos.OnScreen fb ⟨e.x, e.y⟩
  alternate : ∀ button, (false :: m.sent.filterMap (buttonReport button)).IsChain (· ≠ ·)
  last : ∀ button, level false (m.sent.filterMap (buttonReport button)) = button.held m.buttonsPrev
  queued : m.queue = m.sent.foldl (fun q e => (eventEnqueue q (some e)).2) q

variable {fb : FbInfo} {q : EventRing InputEvent} {m : Mouse}

/-- The reports are the changes of the state of a button, packet by packet. -/
def ReportsChanges (m : Mouse) : Prop :=
  ∀ button, ∃ states, m.sent.filterMap (buttonReport button) = edges false states ∧ level false states = button.held m.buttonsPrev

theorem ReportsChanges.packet (h : ReportsChanges m) : ReportsChanges (mousePacket fb m) := by
  intro button
  obtain ⟨states, hreports, hlevel⟩ := h button
  refine ⟨states ++ [button.held (m.bytes 0 &&& 0x07)], ?_, ?_⟩
  · rw [edges_concat, hlevel, ← hreports]
    simp only [mousePacket, List.filterMap_append, buttonReport_packet]
  · rw [level_concat]
    rfl

/-- The parts of the invariant that a packet keeps. -/
structure MouseInv (fb : FbInfo) (q : EventRing InputEvent) (m : Mouse) : Prop where
  cursor : m.cursor.OnScreen fb
  onScreen : ∀ e ∈ m.sent, CursorPos.OnScreen fb ⟨e.x, e.y⟩
  changes : ReportsChanges m
  queued : m.queue = m.sent.foldl (fun q e => (eventEnqueue q (some e)).2) q

theorem MouseInv.packet (hw : SideOk fb.width) (hh : SideOk fb.height) (h : MouseInv fb q m) : MouseInv fb q (mousePacket fb m) where
  cursor := cursorMove_onScreen hw hh _ _ _
  onScreen e he := by
    rcases List.mem_append.mp he with hold | hnew
    · exact h.onScreen e hold
    · obtain ⟨hx, hy⟩ := packetEvents_at hnew
      rw [hx, hy]
      exact cursorMove_onScreen hw hh _ _ _
  changes := h.changes.packet
  queued := by
    simp only [mousePacket, List.foldl_append]
    rw [h.queued]

theorem MouseInv.byte (hw : SideOk fb.width) (hh : SideOk fb.height) (h : MouseInv fb q m) (data : UInt8) : MouseInv fb q (ps2mouseHandler fb m data) := by
  rw [ps2mouseHandler]
  split
  · simp only
    split
    · exact ⟨h.cursor, h.onScreen, h.changes, h.queued⟩
    · exact ⟨h.cursor, h.onScreen, h.changes, h.queued⟩
  · exact ⟨h.cursor, h.onScreen, h.changes, h.queued⟩
  · have hsame : MouseInv fb q { m with bytes := Function.update m.bytes 2 data, cycle := 0 } := ⟨h.cursor, h.onScreen, h.changes, h.queued⟩
    exact hsame.packet hw hh
  · exact h

theorem MouseInv.reports (h : MouseInv fb q m) : MouseReports fb q m where
  cursor := h.cursor
  onScreen := h.onScreen
  alternate button := by
    obtain ⟨states, hreports, -⟩ := h.changes button
    rw [hreports]
    exact edges_alternate false states
  last button := by
    obtain ⟨states, hreports, hlevel⟩ := h.changes button
    rw [hreports, level_edges, hlevel]
  queued := h.queued

/-- Whatever bytes come in, cut off or out of step, the events are sound. -/
theorem mouse_events_sound (hw : SideOk fb.width) (hh : SideOk fb.height) (bytes : Nat → UInt8) {cursor : CursorPos} (hcursor : cursor.OnScreen fb)
    (q : EventRing InputEvent) (stream : List UInt8) : MouseReports fb q (mouseRun fb (mouseBoot bytes cursor q) stream) := by
  have hboot : MouseInv fb q (mouseBoot bytes cursor q) := by
    refine ⟨hcursor, fun e he => absurd he List.not_mem_nil, fun button => ⟨[], rfl, ?_⟩, rfl⟩
    exact (held_zero button).symm
  have hstep : ∀ m data, MouseInv fb q m → True → MouseInv fb q (ps2mouseHandler fb m data) := fun _ data h _ => h.byte hw hh data
  have hall : Allowed (fun _ _ => True) (ps2mouseHandler fb) (mouseBoot bytes cursor q) stream := allowed_of_forall fun _ _ _ => trivial
  exact (run_invariant hstep hboot hall).reports

theorem mouse_events_sound_cut : MouseReports ⟨0, 0, 640, 480, 32⟩ ⟨fun _ => moveEvent ⟨0, 0⟩ 0, 0, 0, 0⟩
    (mouseRun ⟨0, 0, 640, 480, 32⟩ (mouseBoot (fun _ => 0) ⟨0, 0⟩ ⟨fun _ => moveEvent ⟨0, 0⟩ 0, 0, 0, 0⟩) [0x02, 0x09, 0x05, 0xFB, 0x38]) :=
  mouse_events_sound (show SideOk 640 by decide) (show SideOk 480 by decide) _ ⟨by decide, by decide⟩ _ _

/-! ### Packets -/

/-- What the mouse reports: buttons, displacements of nine bits, upwards being positive, and the overflow bits. -/
structure MousePacket where
  left : Bool
  right : Bool
  middle : Bool
  xOverflow : Bool
  yOverflow : Bool
  dx : Int
  dy : Int
  dx_range : -256 ≤ dx ∧ dx < 256
  dy_range : -256 ≤ dy ∧ dy < 256

namespace MousePacket

def bit (b : Bool) (mask : UInt8) : UInt8 := if b then mask else 0

def buttons (p : MousePacket) : UInt8 := bit p.left 1 ||| bit p.right 2 ||| bit p.middle 4

def status (p : MousePacket) : UInt8 :=
  p.buttons ||| 0x08 ||| bit (decide (p.dx < 0)) 0x10 ||| bit (decide (p.dy < 0)) 0x20 ||| bit p.xOverflow 0x40 ||| bit p.yOverflow 0x80

/-- The three bytes of the packet. -/
def bytes (p : MousePacket) : List UInt8 := [p.status, UInt8.ofNat (p.dx % 256).toNat, UInt8.ofNat (p.dy % 256).toNat]

end MousePacket

/-- What the driver takes a displacement for: from 128 on, the sign bit of the byte counts as well as that of the status. -/
def driverDelta (d : Int) : Int := if d < 128 then d else d - 256

theorem mouseDelta_byte {d : Int} (h : -256 ≤ d ∧ d < 256) : mouseDelta (decide (d < 0)) (UInt8.ofNat (d % 256).toNat) = driverDelta d := by
  have hbyte : (UInt8.ofNat (d % 256).toNat).toNat = (d % 256).toNat := by
    rw [UInt8.toNat_ofNat']
    omega
  have hnat : ((d % 256).toNat : Int) = d % 256 := by omega
  rw [mouseDelta, hbyte, driverDelta]
  by_cases hneg : d < 0
  · rw [decide_eq_true hneg, Bool.true_or, if_pos rfl, if_pos (by omega)]
    omega
  · rw [decide_eq_false hneg, Bool.false_or]
    by_cases hbig : d < 128
    · rw [if_neg (by rw [decide_eq_true_eq]; omega), if_pos hbig]
      omega
    · rw [if_pos (by rw [decide_eq_true_eq]; omega), if_neg hbig]
      omega

theorem status_bits (l r m xs ys xo yo : Bool) :
    let s : UInt8 := (MousePacket.bit l 1 ||| MousePacket.bit r 2 ||| MousePacket.bit m 4) ||| 0x08 ||| MousePacket.bit xs 0x10 ||| MousePacket.bit ys 0x20 |||
      MousePacket.bit xo 0x40 ||| MousePacket.bit yo 0x80
    s &&& 0x08 ≠ 0 ∧ s &&& 0x07 = (MousePacket.bit l 1 ||| MousePacket.bit r 2 ||| MousePacket.bit m 4) ∧ decide (s &&& 0x10 ≠ 0) = xs ∧
      decide (s &&& 0x20 ≠ 0) = ys := by
  revert l r m xs ys xo yo
  decide +kernel

/-- What a packet does to the driver. -/
def packetStep (fb : FbInfo) (m : Mouse) (p : MousePacket) : Mouse :=
  let cursor := cursorMove fb m.cursor (driverDelta p.dx) (-driverDelta p.dy)
  let events := packetEvents cursor (driverDelta p.dx) (-driverDelta p.dy) p.buttons m.buttonsPrev
  { m with
    bytes := Function.update (Function.update (Function.update m.bytes 0 p.status) 1 (UInt8.ofNat (p.dx % 256).toNat)) 2 (UInt8.ofNat (p.dy % 256).toNat)
    cursor := cursor
    queue := events.foldl (fun q e => (eventEnqueue q (some e)).2) m.queue
    sent := m.sent ++ events
    buttonsPrev := p.buttons }

theorem run_packet (hcycle : m.cycle = 0) (p : MousePacket) : run (ps2mouseHandler fb) m p.bytes = packetStep fb m p := by
  obtain ⟨hsync, hbuttons, hx, hy⟩ := status_bits p.left p.right p.middle (decide (p.dx < 0)) (decide (p.dy < 0)) p.xOverflow p.yOverflow
  have hsync' : p.status &&& 0x08 ≠ 0 := hsync
  have hbuttons' : p.status &&& 0x07 = p.buttons := hbuttons
  have hx' : decide (p.status &&& 0x10 ≠ 0) = decide (p.dx < 0) := hx
  have hy' : decide (p.status &&& 0x20 ≠ 0) = decide (p.dy < 0) := hy
  obtain ⟨cycle, mbytes, prev, cursor, queue, sent⟩ := m
  obtain rfl : cycle = 0 := hcycle
  have hzero : ∀ a b c : UInt8, Function.update (Function.update (Function.update mbytes 0 a) 1 b) 2 c 0 = a := fun a b c => rfl
  have hone : ∀ a b c : UInt8, Function.update (Function.update (Function.update mbytes 0 a) 1 b) 2 c 1 = b := fun a b c => rfl
  have htwo : ∀ a b c : UInt8, Function.update (Function.update (Function.update mbytes 0 a) 1 b) 2 c 2 = c := fun a b c => rfl
  simp only [MousePacket.bytes, run_cons, run_nil, ps2mouseHandler, if_pos hsync', mousePacket, packetStep, hzero, hone, htwo, hx', hy', hbuttons',
    mouseDelta_byte p.dx_range, mouseDelta_byte p.dy_range]

/-- Bytes that cannot begin a packet are skipped between packets. -/
theorem run_noise (hcycle : m.cycle = 0) {noise : List UInt8} (hnoise : ∀ b ∈ noise, b &&& 0x08 = 0) :
    ∃ bytes, run (ps2mouseHandler fb) m noise = { m with bytes := bytes } := by
  induction noise generalizing m with
  | nil => exact ⟨m.bytes, rfl⟩
  | cons b noise ih =>
      have hb : ¬ b &&& 0x08 ≠ 0 := fun h => h (hnoise b List.mem_cons_self)
      have hskip : ps2mouseHandler fb m b = { m with bytes := Function.update m.bytes 0 b } := by
        rw [ps2mouseHandler, hcycle]
        simp only [if_neg hb]
      obtain ⟨bytes, hrest⟩ := @ih { m with bytes := Function.update m.bytes 0 b } hcycle fun b' hb' => hnoise b' (List.mem_cons_of_mem b hb')
      refine ⟨bytes, ?_⟩
      rw [run_cons, hskip, hrest]

/-! ### Streams of packets -/

def packetCursor (fb : FbInfo) (c : CursorPos) (p : MousePacket) : CursorPos := cursorMove fb c (driverDelta p.dx) (-driverDelta p.dy)

/-- Where the cursor is after each packet that moves it. -/
def packetMoves (fb : FbInfo) : CursorPos → List MousePacket → List CursorPos
  | _, [] => []
  | c, p :: packets =>
      if p.dx ≠ 0 ∨ p.dy ≠ 0 then packetCursor fb c p :: packetMoves fb (packetCursor fb c p) packets
      else packetMoves fb (packetCursor fb c p) packets

/-- What an event says of the cursor. -/
def moveReport (e : InputEvent) : Option CursorPos := if e.subtype = UInt8.ofNat mouseMove then some ⟨e.x, e.y⟩ else none

theorem driverDelta_eq_zero {d : Int} (h : -256 ≤ d ∧ d < 256) : driverDelta d ≠ 0 ↔ d ≠ 0 := by
  rw [driverDelta]
  split <;> omega

theorem moveReport_packet (c : CursorPos) (dx dy : Int) (buttons prev : UInt8) :
    (packetEvents c dx dy buttons prev).filterMap moveReport = if dx ≠ 0 ∨ dy ≠ 0 then [c] else [] := by
  have hbutton : ∀ button, (buttonChange button c buttons prev).filterMap moveReport = [] := by
    intro button
    have hevent : moveReport (buttonEvent button c buttons) = none := by
      rw [buttonEvent]
      split <;> rfl
    rw [buttonChange]
    split
    · rw [List.filterMap_cons, hevent]
      rfl
    · rfl
  rw [packetEvents, List.filterMap_append, List.filterMap_append, List.filterMap_append, hbutton, hbutton, hbutton, List.append_nil, List.append_nil,
    List.append_nil]
  split
  · rfl
  · rfl

theorem packetStep_moves (fb : FbInfo) (m : Mouse) (p : MousePacket) : (packetStep fb m p).sent.filterMap moveReport =
    m.sent.filterMap moveReport ++ if p.dx ≠ 0 ∨ p.dy ≠ 0 then [packetCursor fb m.cursor p] else [] := by
  have hmoves : driverDelta p.dx ≠ 0 ∨ -driverDelta p.dy ≠ 0 ↔ p.dx ≠ 0 ∨ p.dy ≠ 0 := by
    rw [neg_ne_zero]
    exact or_congr (driverDelta_eq_zero p.dx_range) (driverDelta_eq_zero p.dy_range)
  simp only [packetStep, List.filterMap_append, moveReport_packet, hmoves]
  rfl

/-- The driver `m` has reported the packets, from the cursor `c` and the buttons `prev` on; `sent` is what had been sent before. -/
structure PacketsReported (fb : FbInfo) (c : CursorPos) (prev : UInt8) (sent : List InputEvent) (packets : List MousePacket) (m : Mouse) : Prop where
  cycle : m.cycle = 0
  cursor : m.cursor = packets.foldl (packetCursor fb) c
  moves : m.sent.filterMap moveReport = sent.filterMap moveReport ++ packetMoves fb c packets
  buttons : ∀ button, m.sent.filterMap (buttonReport button) =
    sent.filterMap (buttonReport button) ++ edges (button.held prev) (packets.map fun p => button.held p.buttons)

theorem packets_reported (hcycle : m.cycle = 0) {stream : List (List UInt8 × MousePacket)} (hnoise : ∀ s ∈ stream, ∀ b ∈ s.1, b &&& 0x08 = 0) :
    PacketsReported fb m.cursor m.buttonsPrev m.sent (stream.map Prod.snd) (mouseRun fb m (stream.flatMap fun s => s.1 ++ s.2.bytes)) := by
  induction stream generalizing m with
  | nil =>
      refine ⟨hcycle, rfl, ?_, fun button => ?_⟩
      · rw [List.map_nil, packetMoves, List.append_nil]
        rfl
      · rw [List.map_nil, List.map_nil, edges, List.append_nil]
        rfl
  | cons s stream ih =>
      obtain ⟨noise, p⟩ := s
      obtain ⟨bytes, hskip⟩ := @run_noise fb m hcycle noise (hnoise (noise, p) List.mem_cons_self)
      have hpacket : run (ps2mouseHandler fb) { m with bytes := bytes } p.bytes = packetStep fb { m with bytes := bytes } p :=
        @run_packet fb { m with bytes := bytes } hcycle p
      have hrest := @ih (packetStep fb { m with bytes := bytes } p) hcycle fun s hs => hnoise s (List.mem_cons_of_mem _ hs)
      rw [mouseRun, List.flatMap_cons, run_append, run_append, hskip, hpacket, List.map_cons]
      refine ⟨hrest.cycle, hrest.cursor, ?_, fun button => ?_⟩
      · rw [mouseRun] at hrest
        rw [hrest.moves, packetMoves]
        have hmove := packetStep_moves fb { m with bytes := bytes } p
        rw [hmove]
        split
        · rw [List.append_assoc]
          rfl
        · rw [List.append_nil]
          rfl
      · have hbuttons := hrest.buttons button
        rw [mouseRun] at hbuttons
        rw [hbuttons, List.map_cons, edges]
        simp only [packetStep, List.filterMap_append, buttonReport_packet]
        by_cases hsame : button.held p.buttons = button.held m.buttonsPrev
        · rw [if_pos hsame, if_pos hsame, List.append_nil, hsame]
        · rw [if_neg hsame, if_neg hsame, List.append_assoc]
          rfl

/-- A stream of packets, with bytes between them that cannot begin one, is reported packet by packet: the cursor follows the displacements, and the events are its positions and the changes of each button. -/
theorem mouse_packets_decoded (fb : FbInfo) (bytes : Nat → UInt8) (cursor : CursorPos) (q : EventRing InputEvent)
    {stream : List (List UInt8 × MousePacket)} (hnoise : ∀ s ∈ stream, ∀ b ∈ s.1, b &&& 0x08 = 0) :
    let m := mouseRun fb (mouseBoot bytes cursor q) (stream.flatMap fun s => s.1 ++ s.2.bytes)
    let packets := stream.map Prod.snd
    m.cursor = packets.foldl (packetCursor fb) cursor ∧ m.sent.filterMap moveReport = packetMoves fb cursor packets ∧
      ∀ button, m.sent.filterMap (buttonReport button) = edges false (packets.map fun p => button.held p.buttons) := by
  intro m packets
  have hreported := @packets_reported fb (mouseBoot bytes cursor q) rfl stream hnoise
  refine ⟨hreported.cursor, hreported.moves, fun button => ?_⟩
  have hbuttons := hreported.buttons button
  rwa [show (mouseBoot bytes cursor q).buttonsPrev = 0 from rfl, held_zero] at hbuttons

/-- A byte out of step, then the left button goes down while the mouse moves, and up again. -/
theorem mouse_packets_decoded_click :
    let m := mouseRun ⟨0, 0, 640, 480, 32⟩ (mouseBoot (fun _ => 0) ⟨10, 10⟩ ⟨fun _ => moveEvent ⟨0, 0⟩ 0, 0, 0, 0⟩) [0x02, 0x09, 0x05, 0x03, 0x08, 0x00, 0x00]
    m.cursor = ⟨15, 7⟩ ∧ m.sent.filterMap moveReport = [⟨15, 7⟩] ∧ m.sent.filterMap (buttonReport .left) = [true, false] := by
  obtain ⟨hcursor, hmoves, hbuttons⟩ := @mouse_packets_decoded ⟨0, 0, 640, 480, 32⟩ (fun _ => 0) ⟨10, 10⟩ ⟨fun _ => moveEvent ⟨0, 0⟩ 0, 0, 0, 0⟩
    [([0x02], ⟨true, false, false, false, false, 5, 3, by decide, by decide⟩), ([], ⟨false, false, false, false, false, 0, 0, by decide, by decide⟩)]
    (by simpa using (show (0x02 : UInt8) &&& 0x08 = 0 from rfl))
  exact ⟨hcursor, hmoves, hbuttons .left⟩

end Tsukasa
