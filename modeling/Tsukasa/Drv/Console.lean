import Tsukasa.Drv.Ps2Kbd

/-!
# Runs of the console

Interrupts of the keyboard come between the calls of the terminals and of the scheduler and between the reads of the input queue, in any order. What the readers are given are the strokes of the keyboard, and control and C reach the foreground group of the terminal that is active then, and nobody else.
-/

namespace Tsukasa

open Lib

inductive TtyCall where
  | create
  | destroy (id : Int)
  | setActive (id : Int)
  | setForegroundPgid (id pgid : Int)
  | killForeground (id sig : Int)

inductive ConsoleOp where
  | key (sc : UInt8)
  | tty (call : TtyCall)
  | sched (call : SchedCall)
  | dequeue

def TtyCall.step (t : Ttys) (s : Sched) : TtyCall → Ttys × Sched
  | create => ((ttyCreate t).2, s)
  | destroy id => ((ttyDestroy t id).2, s)
  | setActive id => ((ttySetActive t id).2, s)
  | setForegroundPgid id pgid => ((ttySetForegroundPgid t id pgid).2, s)
  | killForeground id sig => (t, (ttyKillForeground t s id sig).2)

def Console.step (c : Console) : ConsoleOp → Console
  | .key sc => ps2kbdHandler c sc
  | .tty call =>
      let r := call.step c.ttys c.sched
      { c with ttys := r.1, sched := r.2 }
  | .sched call => { c with sched := call.step c.sched }
  | .dequeue =>
      let r := eventDequeue c.queue
      { c with queue := r.2.2, taken := c.taken ++ r.2.1.toList }

/-- The machine after `event_init`, `process_init` and `tty_init`. -/
def Console.boot (q : EventRing InputEvent) (vmOk idleOk : Bool) : Console where
  extPrefix := false
  ttys := ttyInit
  sched := processInit vmOk idleOk
  queue := eventInit q
  taken := []

def consoleRun (q : EventRing InputEvent) (vmOk idleOk : Bool) (ops : List ConsoleOp) : Console := run Console.step (Console.boot q vmOk idleOk) ops

/-- The bytes of the keyboard in a run. -/
def scanBytes (ops : List ConsoleOp) : List UInt8 :=
  ops.filterMap fun
    | .key sc => some sc
    | _ => none

theorem scanBytes_append (ops ops' : List ConsoleOp) : scanBytes (ops ++ ops') = scanBytes ops ++ scanBytes ops' := List.filterMap_append

theorem scanBytes_key (sc : UInt8) : scanBytes [.key sc] = [sc] := rfl

/-- What is no byte of the keyboard. -/
theorem scanBytes_other (ops : List ConsoleOp) {op : ConsoleOp} (hop : scanBytes [op] = []) : scanBytes (ops ++ [op]) = scanBytes ops := by
  rw [scanBytes_append, hop, List.append_nil]

theorem consoleRun_concat (q : EventRing InputEvent) (vmOk idleOk : Bool) (ops : List ConsoleOp) (op : ConsoleOp) :
    consoleRun q vmOk idleOk (ops ++ [op]) = Console.step (consoleRun q vmOk idleOk ops) op := by
  rw [consoleRun, run_append]
  rfl

/-! ### The handler -/

/-- What a byte makes of the control key. -/
def KeyStroke.control (k : KeyStroke) : Option Bool := if !k.extended && decide (k.code = 29) then some k.press else none

variable {c : Console} {sc : UInt8}

/-- What the handler does with the last byte of a stroke. -/
structure StrokeHandled (c c' : Console) (k : KeyStroke) : Prop where
  extPrefix : c'.extPrefix = false
  slots : c'.ttys.slots = c.ttys.slots
  active : c'.ttys.activeTty = c.ttys.activeTty
  ctrlDown : c'.ttys.ctrlDown = k.control.getD c.ttys.ctrlDown
  taken : c'.taken = c.taken
  queue : c'.queue = k.event.elim c.queue fun e => (eventEnqueue c.queue (some e)).2
  sched : c'.sched = if k.extended = false ∧ k.press = true ∧ k.code = 46 ∧ c.ttys.ctrlDown = true then
    (ttyKillForeground c.ttys c.sched (ttyGetActive c.ttys) processSigint).2 else c.sched

theorem ps2kbdHandler_stroke (c : Console) (hsc : sc ≠ 0xE0) : StrokeHandled c (ps2kbdHandler c sc) (strokeOf c.extPrefix sc) := by
  rw [ps2kbdHandler, if_neg hsc]
  by_cases hext : c.extPrefix = true
  · by_cases hshift : sc &&& 0x7F = 0x2A
    · constructor <;> simp [hext, hshift, strokeOf, KeyStroke.control, KeyStroke.event]
    · constructor <;> simp [hext, hshift, strokeOf, KeyStroke.control, KeyStroke.event]
  · rw [Bool.not_eq_true] at hext
    by_cases hctrl : sc &&& 0x7F = 29
    · constructor <;> simp [hext, hctrl, strokeOf, KeyStroke.control, KeyStroke.event, ttyHandleScancode]
    · by_cases hpress : sc &&& 0x80 = 0
      · by_cases hkill : c.ttys.ctrlDown = true ∧ sc &&& 0x7F = 46
        · constructor <;> simp [hext, hpress, hkill.1, hkill.2, strokeOf, KeyStroke.control, KeyStroke.event, ttyHandleScancode]
        · have hcond : (c.ttys.ctrlDown && decide (sc &&& 0x7F = 46)) = false := by
            rw [Bool.eq_false_iff]
            intro hboth
            rw [Bool.and_eq_true, decide_eq_true_eq] at hboth
            exact hkill hboth
          constructor <;> simp [hext, hctrl, hpress, hcond, strokeOf, KeyStroke.control, KeyStroke.event, ttyHandleScancode]
          intro hcode hdown
          exact absurd ⟨hdown, hcode⟩ hkill
      · constructor <;> simp [hext, hctrl, hpress, strokeOf, KeyStroke.control, KeyStroke.event, ttyHandleScancode]

theorem ps2kbdHandler_prefix (c : Console) : ps2kbdHandler c 0xE0 = { c with extPrefix := true } := if_pos rfl

/-! ### Terminals -/

theorem TtyCall.step_sound {t : Ttys} (h : t.Sound) (s : Sched) (call : TtyCall) : (call.step t s).1.Sound := by
  cases call with
  | create => exact ttyCreate_sound h
  | destroy id => exact ttyDestroy_sound h id
  | setActive id => exact ttySetActive_sound h id
  | setForegroundPgid id pgid => exact ttySetForegroundPgid_sound h id pgid
  | killForeground id sig => exact h

theorem TtyCall.step_ctrlDown (t : Ttys) (s : Sched) (call : TtyCall) : (call.step t s).1.ctrlDown = t.ctrlDown := by
  cases call with
  | create =>
      simp only [step, ttyCreate]
      split <;> rfl
  | destroy id =>
      simp only [step, ttyDestroy]
      split
      · rfl
      · split
        · rfl
        · split <;> rfl
  | setActive id =>
      simp only [step, ttySetActive]
      split
      · rfl
      · split <;> rfl
  | setForegroundPgid id pgid =>
      simp only [step, ttySetForegroundPgid]
      split
      · rfl
      · split <;> rfl
  | killForeground id sig => rfl

/-- The state of the driver and of the terminals behind the bytes of a run. -/
structure Console.Follows (bytes : List UInt8) (c : Console) : Prop where
  extPrefix : c.extPrefix = endsInPrefix false bytes
  ctrlDown : c.ttys.ctrlDown = latch KeyStroke.control false (decodeScan false bytes)
  sound : c.ttys.Sound

theorem Console.Follows.key {bytes : List UInt8} (h : Console.Follows bytes c) (sc : UInt8) : Console.Follows (bytes ++ [sc]) (ps2kbdHandler c sc) := by
  by_cases hsc : sc = 0xE0
  · rw [hsc, ps2kbdHandler_prefix]
    refine ⟨?_, ?_, h.sound⟩
    · rw [endsInPrefix_concat]
      rfl
    · rw [decodeScan_concat, if_pos rfl, List.append_nil]
      exact h.ctrlDown
  · have hstroke := ps2kbdHandler_stroke c hsc
    refine ⟨?_, ?_, ?_⟩
    · rw [hstroke.extPrefix, endsInPrefix_concat, decide_eq_false hsc]
    · rw [hstroke.ctrlDown, decodeScan_concat, if_neg hsc, latch_concat, ← h.ctrlDown, ← h.extPrefix]
    · refine ⟨?_, ?_, ?_⟩
      · rw [hstroke.slots]
        exact h.sound.first
      · rw [hstroke.active]
        exact h.sound.bound
      · rw [hstroke.slots, hstroke.active]
        exact h.sound.active

theorem consoleRun_follows (q : EventRing InputEvent) (vmOk idleOk : Bool) (ops : List ConsoleOp) :
    Console.Follows (scanBytes ops) (consoleRun q vmOk idleOk ops) := by
  induction ops using List.reverseRecOn with
  | nil => exact ⟨rfl, rfl, ttyInit_sound⟩
  | append_singleton ops op ih =>
      rw [consoleRun_concat]
      cases op with
      | key sc =>
          rw [scanBytes_append, scanBytes_key]
          exact ih.key sc
      | tty call =>
          rw [scanBytes_other ops rfl]
          exact ⟨ih.extPrefix, (TtyCall.step_ctrlDown _ _ call).trans ih.ctrlDown, TtyCall.step_sound ih.sound _ call⟩
      | sched call =>
          rw [scanBytes_other ops rfl]
          exact ⟨ih.extPrefix, ih.ctrlDown, ih.sound⟩
      | dequeue =>
          rw [scanBytes_other ops rfl]
          exact ⟨ih.extPrefix, ih.ctrlDown, ih.sound⟩

/-! ### Control and C -/

/-- The next byte is the make code of C, not behind the prefix, and the control key was last seen going down. -/
def InterruptKey (bytes : List UInt8) (sc : UInt8) : Prop :=
  endsInPrefix false bytes = false ∧ sc = 46 ∧ LastSet KeyStroke.control true (decodeScan false bytes)

/-- The foreground group of the active terminal. -/
def Console.foreground (c : Console) : Int := ttyGetForegroundPgid c.ttys (ttyGetActive c.ttys)

theorem make_46 (b : UInt8) : b &&& 0x80 = 0 ∧ b &&& 0x7F = 46 ↔ b = 46 :=
  @forall_byte (fun b => b &&& 0x80 = 0 ∧ b &&& 0x7F = 46 ↔ b = 46) (by decide +kernel) b

/-- The handler signals the foreground group, on control and C only. -/
theorem ps2kbdHandler_sched {bytes : List UInt8} (h : Console.Follows bytes c) (sc : UInt8) :
    (InterruptKey bytes sc → (ps2kbdHandler c sc).sched = (ttyKillForeground c.ttys c.sched (ttyGetActive c.ttys) processSigint).2) ∧
      (¬ InterruptKey bytes sc → (ps2kbdHandler c sc).sched = c.sched) := by
  have hkey : InterruptKey bytes sc ↔ sc ≠ 0xE0 ∧ (strokeOf c.extPrefix sc).extended = false ∧ (strokeOf c.extPrefix sc).press = true ∧
      (strokeOf c.extPrefix sc).code = 46 ∧ c.ttys.ctrlDown = true := by
    have hdown : c.ttys.ctrlDown = true ↔ LastSet KeyStroke.control true (decodeScan false bytes) := by
      rw [h.ctrlDown]
      exact latch_eq_iff (by decide)
    have hcode := make_46 sc
    simp only [strokeOf, decide_eq_true_eq, hdown, h.extPrefix, InterruptKey]
    constructor
    · intro hint
      obtain ⟨hext, hsc, hctrl⟩ := hint
      obtain ⟨hpress, hc⟩ := hcode.mpr hsc
      exact ⟨by rw [hsc]; decide, hext, hpress, hc, hctrl⟩
    · intro hint
      obtain ⟨-, hext, hpress, hc, hctrl⟩ := hint
      exact ⟨hext, hcode.mp ⟨hpress, hc⟩, hctrl⟩
  by_cases hsc : sc = 0xE0
  · refine ⟨fun hint => absurd hsc (hkey.mp hint).1, fun _ => ?_⟩
    rw [hsc, ps2kbdHandler_prefix]
  · have hstroke := ps2kbdHandler_stroke c hsc
    constructor
    · intro hint
      rw [hstroke.sched, if_pos (hkey.mp hint).2]
    · intro hint
      rw [hstroke.sched, if_neg fun hall => hint (hkey.mpr ⟨hsc, hall⟩)]

/-- The active terminal is in use, so its group is signalled, if it has one. -/
theorem ttyKillForeground_active {t : Ttys} (h : t.Sound) (s : Sched) :
    Posted s (ttyKillForeground t s (ttyGetActive t) processSigint).2 processSigint fun i =>
      0 < ttyGetForegroundPgid t (ttyGetActive t) ∧ i < processMaxCount ∧ inGroup s (ttyGetForegroundPgid t (ttyGetActive t)) i = true := by
  have hnumber : ttyNumber (ttyGetActive t) = some t.activeTty := ttyNumber_natCast h.bound
  rw [ttyKillForeground, ttyGetForegroundPgid, hnumber]
  simp only [h.active, if_true]
  by_cases hnone : (t.slots t.activeTty).fgPgid ≤ 0
  · rw [if_pos hnone]
    exact (Posted.refl s processSigint).congr fun i => ⟨fun hfalse => hfalse.elim, fun hmember => absurd hmember.1 (not_lt.mpr hnone)⟩
  · rw [if_neg hnone, processKillPgid, if_neg]
    · have hsig : ((processSigint : Nat) : Int).toNat = processSigint := rfl
      rw [hsig]
      exact (killPgid_posted s _ (by decide) processMaxCount).congr fun i => ⟨fun hmember => ⟨not_le.mp hnone, hmember⟩, fun hmember => hmember.2⟩
    · simp only [processSigint, processMaxSignals]
      omega

/-- Whatever has happened, control and C send `SIGINT` to the living members of the foreground group of the active terminal and wake those that are blocked. No other byte of the keyboard touches a process. -/
theorem ctrl_c_interrupts_foreground (q : EventRing InputEvent) (vmOk idleOk : Bool) (ops : List ConsoleOp) (sc : UInt8) :
    let c := consoleRun q vmOk idleOk ops
    c.ttys.Sound ∧
      (InterruptKey (scanBytes ops) sc → Posted c.sched (ps2kbdHandler c sc).sched processSigint fun i =>
        0 < c.foreground ∧ i < processMaxCount ∧ inGroup c.sched c.foreground i = true) ∧
      (¬ InterruptKey (scanBytes ops) sc → (ps2kbdHandler c sc).sched = c.sched) := by
  intro c
  have hfollows : Console.Follows (scanBytes ops) c := consoleRun_follows q vmOk idleOk ops
  obtain ⟨hint, hother⟩ := ps2kbdHandler_sched hfollows sc
  refine ⟨hfollows.sound, fun hkey => ?_, hother⟩
  rw [hint hkey]
  exact ttyKillForeground_active hfollows.sound c.sched

/-! ### What the readers are given -/

/-- A key comes while there is room in the queue. -/
def KeyFits (c : Console) : ConsoleOp → Prop
  | .key _ => c.queue.count < eventBufSize
  | _ => True

theorem keyEvent_high (ext : Bool) (code : UInt8) (press : Bool) : isLowPriority inputEventKind (keyEvent ext code press) = false := by
  cases press <;> rfl

/-- A key is put behind what waits. -/
theorem enqueue_key (l : List InputEvent) (ext : Bool) (code : UInt8) (press : Bool) :
    ListQueue.enqueue inputEventKind eventBufSize l (keyEvent ext code press) =
      (if eventBufSize ≤ l.length then ListQueue.dropOne inputEventKind l else l) ++ [keyEvent ext code press] := by
  rw [ListQueue.enqueue, if_neg]
  rw [ListQueue.coalesces, keyEvent_high, Bool.false_and]
  decide

/-- The events of a stream of bytes. -/
def scanEvents (bytes : List UInt8) : List InputEvent := (decodeScan false bytes).filterMap KeyStroke.event

theorem scanEvents_concat (bytes : List UInt8) (b : UInt8) : scanEvents (bytes ++ [b]) =
    scanEvents bytes ++ if b = 0xE0 then [] else (strokeOf (endsInPrefix false bytes) b).event.toList := by
  rw [scanEvents, decodeScan_concat, List.filterMap_append, scanEvents]
  by_cases hb : b = 0xE0
  · rw [if_pos hb, if_pos hb]
    rfl
  · rw [if_neg hb, if_neg hb, List.filterMap_cons, List.filterMap_nil]
    cases (strokeOf (endsInPrefix false bytes) b).event <;> rfl

/-- What has been read and what waits are events of the bytes, in their order, and all of them if `full`. -/
structure Console.Delivers (c : Console) (full : Prop) (events waiting : List InputEvent) : Prop where
  holds : c.queue.Holds eventBufSize waiting
  ordered : (c.taken ++ waiting).Sublist events
  complete : full → c.taken ++ waiting = events

variable {full : Prop} {events waiting : List InputEvent}

theorem Console.Delivers.mono (h : Console.Delivers c full events waiting) {full' : Prop} (hfull : full' → full) : Console.Delivers c full' events waiting :=
  ⟨h.holds, h.ordered, fun hall => h.complete (hfull hall)⟩

theorem Console.Delivers.congr {c' : Console} (h : Console.Delivers c full events waiting) (hqueue : c'.queue = c.queue) (htaken : c'.taken = c.taken) :
    Console.Delivers c' full events waiting := by
  refine ⟨?_, ?_, ?_⟩
  · rw [hqueue]
    exact h.holds
  · rw [htaken]
    exact h.ordered
  · rw [htaken]
    exact h.complete

theorem Console.Delivers.enqueue {c' : Console} (h : Console.Delivers c full events waiting) {k : KeyStroke} (hfits : full → c.queue.count < eventBufSize)
    (hqueue : c'.queue = k.event.elim c.queue fun e => (eventEnqueue c.queue (some e)).2) (htaken : c'.taken = c.taken) :
    ∃ waiting', Console.Delivers c' full (events ++ k.event.toList) waiting' := by
  rw [KeyStroke.event] at hqueue ⊢
  by_cases hshift : (k.extended && decide (k.code = 0x2A)) = true
  · rw [if_pos hshift] at hqueue ⊢
    rw [Option.toList_none, List.append_nil]
    exact ⟨waiting, h.congr hqueue htaken⟩
  · rw [if_neg hshift] at hqueue ⊢
    rw [Option.elim_some] at hqueue
    have hholds := (eventEnqueue_holds h.holds (keyEvent k.extended k.code k.press)).2
    rw [enqueue_key] at hholds
    refine ⟨_, hqueue ▸ hholds, ?_, fun hfull => ?_⟩
    · rw [htaken, ← List.append_assoc, Option.toList_some]
      apply List.Sublist.append_right
      apply List.Sublist.trans _ h.ordered
      apply List.Sublist.append_left
      split
      · exact ListQueue.dropOne_sublist inputEventKind waiting
      · exact List.Sublist.refl waiting
    · have hroom := hfits hfull
      rw [← h.holds.length] at hroom
      rw [if_neg (not_le.mpr hroom), htaken, ← List.append_assoc, h.complete hfull, Option.toList_some]

theorem Console.Delivers.dequeue (h : Console.Delivers c full events waiting) : ∃ waiting', Console.Delivers (Console.step c .dequeue) full events waiting' := by
  rcases eventDequeue_holds h.holds with hempty | hevent
  · obtain ⟨-, heq⟩ := hempty
    refine ⟨waiting, ?_⟩
    apply h.congr
    · rw [Console.step, heq]
    · rw [Console.step, heq, Option.toList_none, List.append_nil]
  · obtain ⟨e, rest, rfl, -, hout, hholds⟩ := hevent
    have htaken : (Console.step c .dequeue).taken = c.taken ++ [e] := by rw [Console.step, hout, Option.toList_some]
    refine ⟨rest, hholds, ?_, fun hfull => ?_⟩
    · rw [htaken, List.append_assoc, List.singleton_append]
      exact h.ordered
    · rw [htaken, List.append_assoc, List.singleton_append]
      exact h.complete hfull

theorem consoleRun_delivers (q : EventRing InputEvent) (vmOk idleOk : Bool) (ops : List ConsoleOp) :
    ∃ waiting, Console.Delivers (consoleRun q vmOk idleOk ops) (Allowed KeyFits Console.step (Console.boot q vmOk idleOk) ops)
      (scanEvents (scanBytes ops)) waiting := by
  induction ops using List.reverseRecOn with
  | nil => exact ⟨[], eventInit_holds q, List.Sublist.refl [], fun _ => rfl⟩
  | append_singleton ops op ih =>
      obtain ⟨waiting, hbefore⟩ := ih
      have hfollows := consoleRun_follows q vmOk idleOk ops
      have hdelivers : Console.Delivers _ (Allowed KeyFits Console.step (Console.boot q vmOk idleOk) (ops ++ [op])) _ waiting :=
        hbefore.mono fun hall => (allowed_append.mp hall).1
      rw [consoleRun_concat]
      cases op with
      | key sc =>
          rw [scanBytes_append, scanBytes_key, scanEvents_concat, ← hfollows.extPrefix]
          by_cases hsc : sc = 0xE0
          · rw [if_pos hsc, List.append_nil, Console.step, hsc, ps2kbdHandler_prefix]
            exact ⟨waiting, hsc ▸ hdelivers.congr rfl rfl⟩
          · rw [if_neg hsc]
            have hstroke := ps2kbdHandler_stroke (consoleRun q vmOk idleOk ops) hsc
            exact hdelivers.enqueue (fun hall => (allowed_append.mp hall).2.1) hstroke.queue hstroke.taken
      | tty call =>
          rw [scanBytes_other ops rfl]
          exact ⟨waiting, hdelivers.congr rfl rfl⟩
      | sched call =>
          rw [scanBytes_other ops rfl]
          exact ⟨waiting, hdelivers.congr rfl rfl⟩
      | dequeue =>
          rw [scanBytes_other ops rfl]
          exact hdelivers.dequeue

/-- The readers are given the strokes of the keyboard, in their order. None is lost as long as no key comes while 128 events wait. -/
theorem key_strokes_delivered (q : EventRing InputEvent) (vmOk idleOk : Bool) (ops : List ConsoleOp) {strokes : List KeyStroke}
    (hclear : ∀ k ∈ strokes, k.byte ≠ 0xE0) (hbytes : scanBytes ops = strokes.flatMap KeyStroke.bytes) :
    ∃ waiting, (consoleRun q vmOk idleOk ops).queue.Holds eventBufSize waiting ∧
      ((consoleRun q vmOk idleOk ops).taken ++ waiting).Sublist (strokes.filterMap KeyStroke.event) ∧
      (Allowed KeyFits Console.step (Console.boot q vmOk idleOk) ops →
        (consoleRun q vmOk idleOk ops).taken ++ waiting = strokes.filterMap KeyStroke.event) := by
  obtain ⟨waiting, hdelivers⟩ := consoleRun_delivers q vmOk idleOk ops
  have hevents : scanEvents (scanBytes ops) = strokes.filterMap KeyStroke.event := by
    rw [hbytes, scanEvents, decodeScan_bytes hclear]
  rw [hevents] at hdelivers
  exact ⟨waiting, hdelivers.holds, hdelivers.ordered, hdelivers.complete⟩

/-- The letter A goes down and up, and the right arrow of the second block goes down. The reader gets the first event before the prefix comes. -/
theorem key_strokes_delivered_three :
    let c := consoleRun ⟨fun _ => keyEvent false 0 true, 0, 0, 0⟩ true true [.key 0x1E, .key 0x9E, .dequeue, .key 0xE0, .sched .yield, .key 0x4D]
    ∃ waiting, c.queue.Holds eventBufSize waiting ∧ c.taken ++ waiting = [keyEvent false 0x1E true, keyEvent false 0x1E false, keyEvent true 0x4D true] := by
  have hclear : ∀ k ∈ ([⟨false, 0x1E, true, by decide⟩, ⟨false, 0x1E, false, by decide⟩, ⟨true, 0x4D, true, by decide⟩] : List KeyStroke), k.byte ≠ 0xE0 := by
    decide
  obtain ⟨waiting, hholds, -, hall⟩ := key_strokes_delivered ⟨fun _ => keyEvent false 0 true, 0, 0, 0⟩ true true
    [.key 0x1E, .key 0x9E, .dequeue, .key 0xE0, .sched .yield, .key 0x4D] hclear rfl
  refine ⟨waiting, hholds, hall ⟨?_, ?_, trivial, ?_, trivial, ?_, trivial⟩⟩
  all_goals
    rw [KeyFits]
    decide

/-! ### The run queues -/

/-- The calls from which the run queues stay exact. A key is one in every state. -/
def ConsoleSafe (c : Console) : ConsoleOp → Prop
  | .sched call => RunqSafe c.sched call
  | .tty (.killForeground id sig) => sig = processSigkill → GroupOut c.sched (ttyGetForegroundPgid c.ttys id)
  | _ => True

theorem ttyKillForeground_schedInv {t : Ttys} {s : Sched} (h : SchedInv s) {id sig : Int}
    (hout : sig = processSigkill → GroupOut s (ttyGetForegroundPgid t id)) : SchedInv (ttyKillForeground t s id sig).2 := by
  rw [ttyGetForegroundPgid] at hout
  rw [ttyKillForeground]
  cases hnumber : ttyNumber id with
  | none => exact h
  | some i =>
      rw [hnumber] at hout
      simp only at hout ⊢
      by_cases hused : (t.slots i).used = true
      · rw [if_pos hused]
        by_cases hnone : (t.slots i).fgPgid ≤ 0
        · rw [if_pos hnone]
          exact h
        · rw [if_neg hnone]
          apply processKillPgid_schedInv h
          intro hsig
          have hgroup := hout hsig
          rwa [if_pos hused] at hgroup
      · rw [if_neg hused]
        exact h

theorem Console.step_schedInv {c : Console} (h : SchedInv c.sched) {op : ConsoleOp} (hsafe : ConsoleSafe c op) : SchedInv (Console.step c op).sched := by
  cases op with
  | key sc =>
      by_cases hsc : sc = 0xE0
      · rw [Console.step, hsc, ps2kbdHandler_prefix]
        exact h
      · rw [Console.step, (ps2kbdHandler_stroke c hsc).sched]
        split
        · apply ttyKillForeground_schedInv h
          intro hsig
          exact absurd hsig (by decide)
        · exact h
  | tty call =>
      cases call with
      | create => exact h
      | destroy id => exact h
      | setActive id => exact h
      | setForegroundPgid id pgid => exact h
      | killForeground id sig => exact ttyKillForeground_schedInv h hsafe
  | sched call => exact SchedCall.step_schedInv h hsafe
  | dequeue => exact h

/-- The run queues agree with the states of the processes, whatever is typed and whenever the keys come. -/
theorem console_run_runQueuesAgree (q : EventRing InputEvent) (vmOk idleOk : Bool) (ops : List ConsoleOp)
    (hsafe : Allowed ConsoleSafe Console.step (Console.boot q vmOk idleOk) ops) : RunQueuesAgree (consoleRun q vmOk idleOk ops).sched := by
  have hstep : ∀ c op, SchedInv (Console.sched c) → ConsoleSafe c op → SchedInv (Console.step c op).sched := fun _ _ h hok => Console.step_schedInv h hok
  have hinit : SchedInv (Console.boot q vmOk idleOk).sched := processInit_schedInv vmOk idleOk
  exact (run_invariant hstep hinit hsafe).runQueuesAgree

/-- A process is started, its group is put in the foreground, and control and C are typed. -/
theorem console_run_runQueuesAgree_typed :
    RunQueuesAgree (consoleRun ⟨fun _ => keyEvent false 0 true, 0, 0, 0⟩ true true
      [.sched (.spawnKernel true), .tty (.setForegroundPgid 0 3), .key 29, .sched .yield, .key 46]).sched :=
  console_run_runQueuesAgree _ true true _ ⟨trivial, trivial, trivial, trivial, trivial, trivial⟩

end Tsukasa
