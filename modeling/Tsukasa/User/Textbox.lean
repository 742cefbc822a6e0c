import Tsukasa.Base.Word
import Tsukasa.Lib.LineEditor

/-!
# Text boxes

`user/lib/libwidget.c`, of a box that is there, with a buffer that is there. A buffer is known by its bytes and by the indices that have been stored to, which may be negative. The loop over the string takes fuel. The length stays below `max_len`, so no `int` that counts characters leaves its range.
-/

namespace Tsukasa

namespace Textbox

open Lib (Line Terminated)

structure TextBuf where
  bytes : Int → UInt8
  stores : List Int

def TextBuf.store (b : TextBuf) (i : Int) (c : UInt8) : TextBuf := ⟨Function.update b.bytes i c, i :: b.stores⟩

/-- `widget_textbox_t`; the callback is known by the number of its calls. -/
structure Widget where
  x : Int
  y : Int
  w : Int
  h : Int
  text : TextBuf
  maxLen : Int
  cursorPos : Int
  focused : Bool
  onChange : Bool
  changes : Nat

def strLen (s : Int → UInt8) : Nat → Int → Option Int
  | 0, _ => none
  | fuel + 1, n => if s n ≠ 0 then strLen s fuel (n + 1) else some n

/-- `widget_textbox_init` -/
def init (fuel : Nat) (x y w h : Int) (buffer : TextBuf) (maxLen : Int) : Option Widget :=
  (strLen buffer.bytes fuel 0).map fun len => ⟨x, y, w, h, buffer, maxLen, len, false, false, 0⟩

/-- `widget_textbox_handle_mouse` -/
def handleMouse (tb : Widget) (mx my : Int) (mouseClicked : Bool) : Bool × Widget :=
  let inBounds : Bool := tb.x ≤ mx ∧ mx < int32 (tb.x + tb.w) ∧ tb.y ≤ my ∧ my < int32 (tb.y + tb.h)
  (inBounds, if mouseClicked then { tb with focused := inBounds } else tb)

/-- The loop that moves characters down, for its remaining rounds. -/
def moveDown (text : TextBuf) : Nat → Int → TextBuf
  | 0, _ => text
  | rounds + 1, i => moveDown (text.store i (text.bytes (i + 1))) rounds (i + 1)

/-- The loop that moves characters up. -/
def moveUp (text : TextBuf) : Nat → Int → TextBuf
  | 0, _ => text
  | rounds + 1, i => moveUp (text.store (i + 1) (text.bytes i)) rounds (i - 1)

def notify (tb : Widget) : Widget := if tb.onChange then { tb with changes := tb.changes + 1 } else tb

/-- `widget_textbox_handle_key`. A `char` from 128 on is negative in the source, and is turned down there by the comparison with 32. -/
def handleKey (fuel : Nat) (tb : Widget) (c : UInt8) : Option (Bool × Widget) :=
  if !tb.focused then some (false, tb)
  else (strLen tb.text.bytes fuel 0).map fun len =>
    if c = 8 then
      if tb.cursorPos ≤ 0 ∨ len ≤ 0 then (true, tb)
      else (true, notify { tb with text := moveDown tb.text (len - (tb.cursorPos - 1)).toNat (tb.cursorPos - 1), cursorPos := tb.cursorPos - 1 })
    else if c < 32 ∨ 126 < c then (false, tb)
    else if tb.maxLen - 1 ≤ len then (true, tb)
    else (true, notify { tb with text := (moveUp tb.text (len - tb.cursorPos + 1).toNat len).store tb.cursorPos c, cursorPos := tb.cursorPos + 1 })

inductive Event where
  | key (c : UInt8)
  | mouse (mx my : Int) (clicked : Bool)

def handle (fuel : Nat) (tb : Widget) : Event → Option Widget
  | .key c => (handleKey fuel tb c).map Prod.snd
  | .mouse mx my clicked => some (handleMouse tb mx my clicked).2

/-- The events that follow the initialisation. -/
def run (fuel : Nat) (tb : Widget) (events : List Event) : Option Widget := events.foldlM (handle fuel) tb

/-! ### What the box is for -/

/-- A line that is edited while the box has the focus. -/
structure Editor where
  line : Line UInt8
  focused : Bool

/-- A backspace deletes the character before the cursor, and a printable character is inserted at it. A click gives or takes the focus. -/
def Editor.edit (room : Nat) (inside : Int → Int → Bool) (e : Editor) : Event → Editor
  | .key c =>
      if e.focused ∧ c = 8 then { e with line := e.line.backspace }
      else if e.focused ∧ 32 ≤ c ∧ c ≤ 126 then { e with line := e.line.insert room c }
      else e
  | .mouse mx my clicked => if clicked then { e with focused := inside mx my } else e

/-- The points of a box. -/
def inside (x y w h mx my : Int) : Bool := x ≤ mx ∧ mx < int32 (x + w) ∧ y ≤ my ∧ my < int32 (y + h)

/-! ### The loops -/

variable {b text : TextBuf} {tb : Widget} {e : Editor} {s : List UInt8} {fuel rounds : Nat} {i : Int} {c : UInt8}

theorem strLen_eq (h : Terminated 0 b.bytes s) {n : Nat} (hn : n ≤ s.length) (hfuel : s.length < n + fuel) :
    strLen b.bytes fuel n = some (s.length : Int) := by
  induction fuel generalizing n with
  | zero => omega
  | succ fuel ih =>
      rw [strLen]
      by_cases hend : n = s.length
      · rw [if_neg (by rw [hend, h.stop]; decide), hend]
      · rw [if_pos (h.ne_stop (by omega))]
        exact ih (n := n + 1) (by omega) (by omega)

theorem TextBuf.store_bytes (b : TextBuf) (i : Int) (c : UInt8) (x : Int) : (b.store i c).bytes x = if x = i then c else b.bytes x :=
  Function.update_apply _ _ _ _

theorem moveDown_bytes (text : TextBuf) (rounds : Nat) (i x : Int) :
    (moveDown text rounds i).bytes x = if i ≤ x ∧ x < i + rounds then text.bytes (x + 1) else text.bytes x := by
  induction rounds generalizing text i with
  | zero => rw [moveDown, if_neg (by omega)]
  | succ rounds ih =>
      rw [moveDown, ih, TextBuf.store_bytes, TextBuf.store_bytes]
      by_cases hx : x = i
      · rw [if_neg (by omega), if_pos hx, if_pos (by omega), hx]
      · rw [if_neg hx]
        by_cases hmoved : i ≤ x ∧ x < i + ((rounds + 1 : Nat) : Int)
        · rw [if_pos hmoved, if_pos (by omega), if_neg (by omega)]
        · rw [if_neg hmoved, if_neg (by omega)]

theorem moveUp_bytes (text : TextBuf) (rounds : Nat) (i x : Int) :
    (moveUp text rounds i).bytes x = if i + 1 - rounds < x ∧ x ≤ i + 1 then text.bytes (x - 1) else text.bytes x := by
  induction rounds generalizing text i with
  | zero => rw [moveUp, if_neg (by omega)]
  | succ rounds ih =>
      rw [moveUp, ih, TextBuf.store_bytes, TextBuf.store_bytes]
      by_cases hx : x = i + 1
      · rw [if_neg (by omega), if_pos hx, if_pos (by omega), hx, Int.add_sub_cancel]
      · rw [if_neg hx]
        by_cases hmoved : i + 1 - ((rounds + 1 : Nat) : Int) < x ∧ x ≤ i + 1
        · rw [if_pos hmoved, if_pos (by omega), if_neg (by omega)]
        · rw [if_neg hmoved, if_neg (by omega)]

/-- All stores have gone to indices from `lo` up to `hi`. -/
def TextBuf.StoresIn (b : TextBuf) (lo hi : Int) : Prop := ∀ i ∈ b.stores, lo ≤ i ∧ i < hi

theorem TextBuf.StoresIn.store {lo hi : Int} (h : b.StoresIn lo hi) (hlo : lo ≤ i) (hhi : i < hi) : (b.store i c).StoresIn lo hi := by
  intro j hj
  cases List.mem_cons.mp hj with
  | inl heq =>
      rw [heq]
      exact ⟨hlo, hhi⟩
  | inr hold => exact h j hold

theorem moveDown_stores {lo hi : Int} (h : text.StoresIn lo hi) (hlo : lo ≤ i) (hhi : i + rounds ≤ hi) : (moveDown text rounds i).StoresIn lo hi := by
  induction rounds generalizing text i with
  | zero => exact h
  | succ rounds ih =>
      rw [moveDown]
      apply ih
      · exact h.store hlo (by omega)
      · omega
      · omega

theorem moveUp_stores {lo hi : Int} (h : text.StoresIn lo hi) (hlo : lo + rounds ≤ i + 2) (hhi : i + 1 < hi) : (moveUp text rounds i).StoresIn lo hi := by
  induction rounds generalizing text i with
  | zero => exact h
  | succ rounds ih =>
      rw [moveUp]
      apply ih
      · exact h.store (by omega) hhi
      · omega
      · omega

/-! ### The invariant -/

/-- The box shows the line of the editor, and has stored to nothing outside its buffer. -/
structure Shows (x y w h maxLen : Int) (tb : Widget) (e : Editor) : Prop where
  place : tb.x = x ∧ tb.y = y ∧ tb.w = w ∧ tb.h = h
  capacity : tb.maxLen = maxLen
  text : Terminated 0 tb.text.bytes e.line.text
  room : (e.line.text.length : Int) ≤ maxLen - 1
  cursor : tb.cursorPos = e.line.cursor
  cursor_le : e.line.cursor ≤ e.line.text.length
  stores : tb.text.StoresIn 0 maxLen
  focused : tb.focused = e.focused

variable {x y w h maxLen : Int}

theorem Shows.notify (hs : Shows x y w h maxLen tb e) : Shows x y w h maxLen (notify tb) e := by
  rw [Textbox.notify]
  split
  · exact ⟨hs.place, hs.capacity, hs.text, hs.room, hs.cursor, hs.cursor_le, hs.stores, hs.focused⟩
  · exact hs

theorem Shows.backspace (hs : Shows x y w h maxLen tb e) (hcursor : e.line.cursor ≠ 0) :
    Shows x y w h maxLen { tb with text := moveDown tb.text (e.line.text.length - (tb.cursorPos - 1)).toNat (tb.cursorPos - 1), cursorPos := tb.cursorPos - 1 }
      { e with line := e.line.backspace } := by
  have hcur := hs.cursor
  have hle := hs.cursor_le
  have hroom := hs.room
  have hline : e.line.backspace = ⟨e.line.text.eraseIdx (e.line.cursor - 1), e.line.cursor - 1⟩ := if_neg hcursor
  have hlength : (e.line.text.eraseIdx (e.line.cursor - 1)).length = e.line.text.length - 1 := List.length_eraseIdx_of_lt (by omega)
  rw [hline]
  refine ⟨hs.place, hs.capacity, ?_, ?_, ?_, ?_, ?_, hs.focused⟩
  · apply hs.text.eraseIdx (by omega)
    intro k
    dsimp only
    rw [moveDown_bytes]
    congr 1
    apply propext
    omega
  · dsimp only
    omega
  · dsimp only
    omega
  · dsimp only
    omega
  · exact moveDown_stores hs.stores (by omega) (by omega)

theorem Shows.insert (hs : Shows x y w h maxLen tb e) (hc : c ≠ 0) (hroom : e.line.text.length < maxLen - 1) :
    Shows x y w h maxLen
      { tb with text := (moveUp tb.text (e.line.text.length - tb.cursorPos + 1).toNat e.line.text.length).store tb.cursorPos c, cursorPos := tb.cursorPos + 1 }
      { e with line := e.line.insert (maxLen - 1).toNat c } := by
  have hcur := hs.cursor
  have hle := hs.cursor_le
  have hline : e.line.insert (maxLen - 1).toNat c = ⟨e.line.text.insertIdx e.line.cursor c, e.line.cursor + 1⟩ := if_neg (by omega)
  have hlength : (e.line.text.insertIdx e.line.cursor c).length = e.line.text.length + 1 := List.length_insertIdx_of_le_length hle c
  rw [hline]
  refine ⟨hs.place, hs.capacity, ?_, ?_, ?_, ?_, ?_, hs.focused⟩
  · apply hs.text.insertIdx hc hle
    intro k
    dsimp only
    rw [TextBuf.store_bytes, moveUp_bytes, hcur]
    congr 2
    apply propext
    omega
  · dsimp only
    omega
  · dsimp only
    omega
  · dsimp only
    omega
  · apply TextBuf.StoresIn.store
    · exact moveUp_stores hs.stores (by omega) (by omega)
    · omega
    · omega

/-- One key. -/
theorem Shows.key (hs : Shows x y w h maxLen tb e) (hfuel : maxLen ≤ fuel) (c : UInt8) :
    ∃ r, handleKey fuel tb c = some r ∧ Shows x y w h maxLen r.2 (e.edit (maxLen - 1).toNat (inside x y w h) (.key c)) := by
  have hroom := hs.room
  have hcur := hs.cursor
  have hfocused := hs.focused
  rw [handleKey]
  by_cases hfocus : e.focused = true
  · have hlen : strLen tb.text.bytes fuel 0 = some (e.line.text.length : Int) := strLen_eq hs.text (Nat.zero_le _) (by omega)
    rw [if_neg (by rw [hfocused, hfocus]; decide), hlen, Option.map_some]
    refine ⟨_, rfl, ?_⟩
    by_cases hback : c = 8
    · have hedit : e.edit (maxLen - 1).toNat (inside x y w h) (.key c) = { e with line := e.line.backspace } := if_pos ⟨hfocus, hback⟩
      rw [if_pos hback, hedit]
      by_cases hzero : e.line.cursor = 0
      · have hline : e.line.backspace = e.line := if_pos hzero
        rw [if_pos (Or.inl (by omega)), hline]
        exact hs
      · have hle := hs.cursor_le
        rw [if_neg (by omega)]
        exact (hs.backspace hzero).notify
    · rw [if_neg hback]
      by_cases hprint : c < 32 ∨ 126 < c
      · have hedit : e.edit (maxLen - 1).toNat (inside x y w h) (.key c) = e := by
          rw [Editor.edit, if_neg (fun hboth => hback hboth.2), if_neg (by grind)]
        rw [if_pos hprint, hedit]
        exact hs
      · have hedit : e.edit (maxLen - 1).toNat (inside x y w h) (.key c) = { e with line := e.line.insert (maxLen - 1).toNat c } := by
          rw [Editor.edit, if_neg (fun hboth => hback hboth.2), if_pos (by grind)]
        have hmax := hs.capacity
        rw [if_neg hprint, hedit]
        by_cases hfull : tb.maxLen - 1 ≤ e.line.text.length
        · have hline : e.line.insert (maxLen - 1).toNat c = e.line := if_pos (by omega)
          rw [if_pos hfull, hline]
          exact hs
        · have hc : c ≠ 0 := by
            intro hzero
            exact hprint (Or.inl (by rw [hzero]; decide))
          rw [if_neg hfull]
          exact (hs.insert hc (by omega)).notify
  · have hedit : e.edit (maxLen - 1).toNat (inside x y w h) (.key c) = e := by
      rw [Editor.edit, if_neg (fun hboth => hfocus hboth.1), if_neg (fun hboth => hfocus hboth.1)]
    rw [if_pos (by rw [hfocused]; simpa using hfocus), hedit]
    exact ⟨_, rfl, hs⟩

theorem Shows.mouse (hs : Shows x y w h maxLen tb e) (mx my : Int) (clicked : Bool) :
    Shows x y w h maxLen (handleMouse tb mx my clicked).2 (e.edit (maxLen - 1).toNat (inside x y w h) (.mouse mx my clicked)) := by
  rw [handleMouse, Editor.edit]
  cases clicked with
  | false => exact hs
  | true =>
      obtain ⟨hx, hy, hw, hh⟩ := hs.place
      refine ⟨hs.place, hs.capacity, hs.text, hs.room, hs.cursor, hs.cursor_le, hs.stores, ?_⟩
      dsimp only
      rw [if_pos rfl, hx, hy, hw, hh]
      rfl

/-- Every event. -/
theorem Shows.handle (hs : Shows x y w h maxLen tb e) (hfuel : maxLen ≤ fuel) (event : Event) :
    ∃ tb', handle fuel tb event = some tb' ∧ Shows x y w h maxLen tb' (e.edit (maxLen - 1).toNat (inside x y w h) event) := by
  cases event with
  | key c =>
      obtain ⟨r, hkey, hshows⟩ := hs.key hfuel c
      refine ⟨r.2, ?_, hshows⟩
      rw [Textbox.handle, hkey]
      rfl
  | mouse mx my clicked => exact ⟨_, rfl, hs.mouse mx my clicked⟩

theorem Shows.run (hs : Shows x y w h maxLen tb e) (hfuel : maxLen ≤ fuel) (events : List Event) :
    ∃ tb', run fuel tb events = some tb' ∧ Shows x y w h maxLen tb' (events.foldl (Editor.edit (maxLen - 1).toNat (inside x y w h)) e) := by
  induction events generalizing tb e with
  | nil => exact ⟨tb, rfl, hs⟩
  | cons event events ih =>
      obtain ⟨tb', hevent, hshows⟩ := hs.handle hfuel event
      obtain ⟨tb'', hrest, hend⟩ := ih hshows
      refine ⟨tb'', ?_, hend⟩
      rw [Textbox.run, List.foldlM_cons, hevent]
      exact hrest

/-- Every run of a text box edits a line: its buffer stays terminated and within `max_len`, its cursor stays in the text, and its text and cursor are those of the line editor. -/
theorem run_edits (x y w h : Int) {maxLen : Int} {buffer : Int → UInt8} (htext : Terminated 0 buffer s) (hroom : s.length < maxLen)
    {fuel : Nat} (hfuel : maxLen ≤ fuel) (events : List Event) :
    ∃ tb, ((init fuel x y w h ⟨buffer, []⟩ maxLen).bind fun tb => run fuel tb events) = some tb ∧
      Shows x y w h maxLen tb (events.foldl (Editor.edit (maxLen - 1).toNat (inside x y w h)) ⟨⟨s, s.length⟩, false⟩) := by
  have hlen : strLen buffer fuel 0 = some (s.length : Int) := strLen_eq (b := ⟨buffer, []⟩) htext (Nat.zero_le _) (by omega)
  have hstart : Shows x y w h maxLen ⟨x, y, w, h, ⟨buffer, []⟩, maxLen, s.length, false, false, 0⟩ ⟨⟨s, s.length⟩, false⟩ :=
    ⟨⟨rfl, rfl, rfl, rfl⟩, rfl, htext, by dsimp only; omega, rfl, Nat.le_refl _, fun i hi => absurd hi List.not_mem_nil, rfl⟩
  rw [init, hlen]
  exact hstart.run hfuel events

/-- A click into the box, a `b` behind its `a`, and a backspace. -/
theorem run_edits_three : ∃ tb, ((init 4 0 0 100 20 ⟨fun i => if i = 0 then 97 else 0, []⟩ 4).bind fun tb => run 4 tb [.mouse 1 1 true, .key 98, .key 8]) = some tb ∧
    Shows 0 0 100 20 4 tb ⟨⟨[97], 1⟩, true⟩ :=
  run_edits 0 0 100 20 (s := [97]) ⟨by decide, by decide, by decide⟩ (by decide) (by decide) _

end Textbox

end Tsukasa
