import Tsukasa.Gui.Event
import Tsukasa.Tty.Tty
import Tsukasa.Lib.Latch

/-!
# The keyboard

`drv/ps2kbd.c`: the bytes of the keyboard, set 1, come one with each interrupt. A key is a make code and, with the high bit, a break code, and the byte 0xE0 announces a key of the second block. A stroke becomes an event for the readers of the input queue, and is shown to the terminal.
-/

namespace Tsukasa

/-- `scan_to_key`: the character of a make code, 0 for none. -/
def scanToKey : List UInt8 :=
  [0, 0x1B, 0x31, 0x32, 0x33, 0x34, 0x35, 0x36, 0x37, 0x38, 0x39, 0x30, 0x2D, 0x3D, 0x08,
   0x09, 0x71, 0x77, 0x65, 0x72, 0x74, 0x79, 0x75, 0x69, 0x6F, 0x70, 0x5B, 0x5D, 0x0A, 0,
   0x61, 0x73, 0x64, 0x66, 0x67, 0x68, 0x6A, 0x6B, 0x6C, 0x3B, 0x27, 0x60, 0, 0x5C,
   0x7A, 0x78, 0x63, 0x76, 0x62, 0x6E, 0x6D, 0x2C, 0x2E, 0x2F, 0, 0x2A, 0, 0x20]

def inputEventKey : UInt16 := 5
def inputEventKeyup : UInt16 := 10
def inputKeyPrintscreen : UInt32 := 0xE037

/-- The key code of an event: PrintScreen, or the character of the code, or else the code itself. -/
def keycodeOf (ext : Bool) (code : UInt8) : UInt32 :=
  if ext && decide (code = 0x37) then inputKeyPrintscreen
  else
    let key := scanToKey.getD code.toNat 0
    if key ≠ 0 then key.toUInt32 else if ext then 0xE000 ||| code.toUInt32 else code.toUInt32

def keyEvent (ext : Bool) (code : UInt8) (press : Bool) : InputEvent where
  eventId := if press then inputEventKey else inputEventKeyup
  type := 0
  subtype := if press then 1 else 0
  keycode := keycodeOf ext code
  x := 0
  y := 0
  wheelDelta := 0
  width := 0
  height := 0
  modifiers := 0
  windowId := -1

/-- What the keyboard interrupt works on: the prefix of the driver, the terminals, the processes and the input queue. `taken` are the events that have been handed to a reader. -/
structure Console where
  extPrefix : Bool
  ttys : Ttys
  sched : Sched
  queue : EventRing InputEvent
  taken : List InputEvent

/-- `ps2kbd_handler` with the byte that it reads from the port. -/
def ps2kbdHandler (c : Console) (sc : UInt8) : Console :=
  if sc = 0xE0 then { c with extPrefix := true }
  else
    let press := decide (sc &&& 0x80 = 0)
    let code := sc &&& 0x7F
    if c.extPrefix && decide (code = 0x2A) then { c with extPrefix := false }
    else
      let shown := if c.extPrefix then (c.ttys, c.sched) else ttyHandleScancode c.ttys c.sched code press
      { c with
        extPrefix := false
        ttys := shown.1
        sched := shown.2
        queue := (eventEnqueue c.queue (some (keyEvent c.extPrefix code press))).2 }

/-! ### Strokes -/

/-- A key of one of the two blocks going down or up. -/
structure KeyStroke where
  extended : Bool
  code : UInt8
  press : Bool
  make : code < 0x80

/-- The last byte of a stroke. -/
def KeyStroke.byte (k : KeyStroke) : UInt8 := if k.press then k.code else k.code ||| 0x80

/-- What the keyboard sends. -/
def KeyStroke.bytes (k : KeyStroke) : List UInt8 := if k.extended then [0xE0, k.byte] else [k.byte]

theorem code_lt (b : UInt8) : b &&& 0x7F < 0x80 := @forall_byte (fun b => b &&& 0x7F < 0x80) (by decide +kernel) b

theorem code_of_byte (c : UInt8) : c < 0x80 → c &&& 0x7F = c ∧ (c ||| 0x80) &&& 0x7F = c ∧ c &&& 0x80 = 0 ∧ (c ||| 0x80) &&& 0x80 ≠ 0 :=
  @forall_byte (fun c => c < 0x80 → c &&& 0x7F = c ∧ (c ||| 0x80) &&& 0x7F = c ∧ c &&& 0x80 = 0 ∧ (c ||| 0x80) &&& 0x80 ≠ 0) (by decide +kernel) c

def strokeOf (ext : Bool) (b : UInt8) : KeyStroke := ⟨ext, b &&& 0x7F, decide (b &&& 0x80 = 0), code_lt b⟩

/-- The strokes that a stream of bytes is about; `ext` says that the byte before it was the prefix. -/
def decodeScan : Bool → List UInt8 → List KeyStroke
  | _, [] => []
  | ext, b :: bytes => if b = 0xE0 then decodeScan true bytes else strokeOf ext b :: decodeScan false bytes

/-- The stream ends in the prefix. -/
def endsInPrefix (ext : Bool) (bytes : List UInt8) : Bool := bytes.getLast?.elim ext fun b => decide (b = 0xE0)

/-- The pseudo shift around the keys of the second block makes no event. -/
def KeyStroke.event (k : KeyStroke) : Option InputEvent :=
  if k.extended && decide (k.code = 0x2A) then none else some (keyEvent k.extended k.code k.press)

theorem strokeOf_byte (k : KeyStroke) : strokeOf k.extended k.byte = k := by
  obtain ⟨ext, code, press, hmake⟩ := k
  obtain ⟨hmakeCode, hbreakCode, hmakeBit, hbreakBit⟩ := code_of_byte code hmake
  cases press with
  | true => simp [strokeOf, KeyStroke.byte, hmakeCode, hmakeBit]
  | false => simp [strokeOf, KeyStroke.byte, hbreakCode, hbreakBit]

/-- The strokes of a keyboard are read back from its bytes, as long as no break code is the prefix. -/
theorem decodeScan_bytes {strokes : List KeyStroke} (hclear : ∀ k ∈ strokes, k.byte ≠ 0xE0) :
    decodeScan false (strokes.flatMap KeyStroke.bytes) = strokes := by
  induction strokes with
  | nil => rfl
  | cons k strokes ih =>
      have hk := hclear k List.mem_cons_self
      have hrest := ih fun k' hk' => hclear k' (List.mem_cons_of_mem k hk')
      have hread := strokeOf_byte k
      rw [List.flatMap_cons, KeyStroke.bytes]
      cases hext : k.extended with
      | true =>
          rw [hext] at hread
          rw [if_pos rfl, List.cons_append, List.cons_append, List.nil_append, decodeScan, if_pos rfl, decodeScan, if_neg hk, hread, hrest]
      | false =>
          rw [hext] at hread
          rw [if_neg (by decide), List.cons_append, List.nil_append, decodeScan, if_neg hk, hread, hrest]

theorem endsInPrefix_concat (ext : Bool) (bytes : List UInt8) (b : UInt8) : endsInPrefix ext (bytes ++ [b]) = decide (b = 0xE0) := by
  rw [endsInPrefix, List.getLast?_concat]
  rfl

theorem decodeScan_concat (ext : Bool) (bytes : List UInt8) (b : UInt8) : decodeScan ext (bytes ++ [b]) =
    decodeScan ext bytes ++ if b = 0xE0 then [] else [strokeOf (endsInPrefix ext bytes) b] := by
  induction bytes generalizing ext with
  | nil =>
      rw [List.nil_append, decodeScan]
      rfl
  | cons b' bytes ih =>
      have hlast : ∀ ext', endsInPrefix (decide (b' = 0xE0)) bytes = endsInPrefix ext' (b' :: bytes) := by
        intro ext'
        rw [endsInPrefix, endsInPrefix, List.getLast?_cons]
        cases bytes.getLast? <;> rfl
      rw [List.cons_append, decodeScan, decodeScan]
      by_cases hb' : b' = 0xE0
      · rw [if_pos hb', if_pos hb', ih true, ← hlast, decide_eq_true hb']
      · rw [if_neg hb', if_neg hb', ih false, ← hlast ext, decide_eq_false hb', List.cons_append]

end Tsukasa
