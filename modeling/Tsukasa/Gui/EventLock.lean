import Tsukasa.Gui.Event
import Tsukasa.Lib.SpinLock

/-!
# The input queue under its spinlock

`input/event.c` as it runs: drivers and readers on any number of CPUs call `event_enqueue` and `event_dequeue`, whose bodies between `spin_lock` and `spin_unlock` read and write the queue one access at a time, where a cell of the buffer is one access. Done without interruption a body is the critical section of the sequential model, so whatever the order of the accesses, the calls come back with what a list queue returns.
-/

namespace Tsukasa

open Lib

abbrev EventBody := Body (EventRing InputEvent) (Int × Option InputEvent)

namespace EventBody

def readCount (k : Nat → EventBody) : EventBody := Body.read EventRing.count k

def readHead (k : Nat → EventBody) : EventBody := Body.read EventRing.head k

def readTail (k : Nat → EventBody) : EventBody := Body.read EventRing.tail k

def readCell (i : Nat) (k : InputEvent → EventBody) : EventBody := Body.read (fun q => q.buf i) k

def writeCell (i : Nat) (e : InputEvent) (k : EventBody) : EventBody := Body.write (fun q => { q with buf := Function.update q.buf i e }) k

def writeHead (i : Nat) (k : EventBody) : EventBody := Body.write (fun q => { q with head := i }) k

def writeTail (i : Nat) (k : EventBody) : EventBody := Body.write (fun q => { q with tail := i }) k

def writeCount (n : Nat) (k : EventBody) : EventBody := Body.write (fun q => { q with count := n }) k

/-- `event_count--`. -/
def decrementCount (k : EventBody) : EventBody := readCount fun n => writeCount (n - 1) k

/-- `event_head = (event_head + 1) % EVENT_BUF_SIZE`. -/
def advanceHead (k : EventBody) : EventBody := readHead fun h => writeHead ((h + 1) % eventBufSize) k

/-- `queue_idx_from_head`. -/
def queueIdxFromHead (rel : Nat) (k : Nat → EventBody) : EventBody := readHead fun h => k ((h + rel) % eventBufSize)

/-- The inner loop of `try_drop_low_priority_locked`. The fuel is the number of cells. -/
def shiftLoop (k : EventBody) : Nat → Nat → EventBody
  | 0, _ => k
  | fuel + 1, i =>
      readCount fun n =>
        if i + 1 < n then
          queueIdxFromHead i fun dst => queueIdxFromHead (i + 1) fun src => readCell src fun e => writeCell dst e (shiftLoop k fuel (i + 1))
        else k

/-- The outer loop of `try_drop_low_priority_locked`, with what follows when it finds an event to drop and when it finds none. -/
def dropLoop (found none : EventBody) : Nat → Nat → EventBody
  | 0, _ => none
  | fuel + 1, rel =>
      readCount fun n =>
        if rel < n then
          queueIdxFromHead rel fun idx => readCell idx fun e =>
            if isLowPriority inputEventKind e then
              shiftLoop (readTail fun t => writeTail ((t + eventBufSize - 1) % eventBufSize) (decrementCount found)) eventBufSize rel
            else dropLoop found none fuel (rel + 1)
        else none

/-- `try_coalesce_tail_locked`, with what follows when it replaces the last event and when it does not. -/
def coalesce (e : InputEvent) (replaced kept : EventBody) : EventBody :=
  readCount fun n =>
    if n = 0 then kept
    else if isLowPriority inputEventKind e then
      readTail fun t => readCell ((t + eventBufSize - 1) % eventBufSize) fun last =>
        if sameTarget inputEventKind last e then writeCell ((t + eventBufSize - 1) % eventBufSize) e replaced else kept
    else kept

/-- The end of `event_enqueue`. -/
def append (e : InputEvent) : EventBody :=
  readTail fun t => writeCell t e (readTail fun t => writeTail ((t + 1) % eventBufSize) (readCount fun n => writeCount (n + 1) (Body.done (0, none))))

/-- `event_enqueue` between its lock and its release. -/
def enqueue (e : InputEvent) : EventBody :=
  coalesce e (Body.done (0, none))
    (readCount fun n =>
      if eventBufSize ≤ n then dropLoop (append e) (advanceHead (decrementCount (append e))) (eventBufSize + 1) 0 else append e)

/-- `event_dequeue` between its lock and its release. -/
def dequeue : EventBody :=
  readCount fun n =>
    if n = 0 then Body.done (0, none)
    else readHead fun h => readCell h fun e => advanceHead (decrementCount (Body.done (1, some e)))

end EventBody

def eventBody : QueueCall InputEvent → EventBody
  | .enqueue e => EventBody.enqueue e
  | .dequeue => EventBody.dequeue

namespace EventBody

variable {q : EventRing InputEvent}

/-! ### The bodies without interruption -/

theorem exec_shiftLoop (k : EventBody) {fuel : Nat} (i : Nat) (q : EventRing InputEvent) (hfuel : q.count - (i + 1) ≤ fuel) :
    (shiftLoop k fuel i).exec q = k.exec { q with buf := closeGap eventBufSize q.head (q.count - (i + 1)) i q.buf } := by
  induction fuel generalizing i q with
  | zero =>
      rw [Nat.le_zero.mp hfuel]
      rfl
  | succ fuel ih =>
      rw [shiftLoop, readCount, Body.exec_read]
      by_cases hmore : i + 1 < q.count
      · obtain ⟨n, hn⟩ : ∃ n, q.count - (i + 1) = n + 1 := ⟨q.count - (i + 1) - 1, by omega⟩
        have hrest : q.count - (i + 1 + 1) = n := by omega
        rw [if_pos hmore]
        simp only [queueIdxFromHead, readHead, readCell, writeCell, Body.exec_read, Body.exec_write]
        rw [ih (i + 1) _ (by simp only; omega)]
        simp only [hrest, hn, closeGap]
      · have hnone : q.count - (i + 1) = 0 := by omega
        rw [if_neg hmore, hnone]
        rfl

/-- The loop drops the first event of low priority from the `rel`th on. -/
theorem exec_dropLoop (found none : EventBody) {fuel : Nat} (rel : Nat) (q : EventRing InputEvent) (hfuel : q.count - rel < fuel) (hcount : q.count ≤ eventBufSize) :
    (dropLoop found none fuel rel).exec q =
      match (List.range' rel (q.count - rel)).find? fun rel => isLowPriority inputEventKind (q.buf ((q.head + rel) % eventBufSize)) with
      | Option.none => none.exec q
      | some rel => found.exec
          { q with
            buf := closeGap eventBufSize q.head (q.count - (rel + 1)) rel q.buf
            tail := (q.tail + eventBufSize - 1) % eventBufSize
            count := q.count - 1 } := by
  induction fuel generalizing rel with
  | zero => exact absurd hfuel (Nat.not_lt_zero _)
  | succ fuel ih =>
      rw [dropLoop, readCount, Body.exec_read]
      by_cases hmore : rel < q.count
      · obtain ⟨n, hn⟩ : ∃ n, q.count - rel = n + 1 := ⟨q.count - rel - 1, by omega⟩
        have hrest : q.count - (rel + 1) = n := by omega
        rw [if_pos hmore, hn, List.range'_succ]
        simp only [queueIdxFromHead, readHead, readCell, Body.exec_read]
        by_cases hlow : isLowPriority inputEventKind (q.buf ((q.head + rel) % eventBufSize)) = true
        · rw [if_pos hlow, List.find?_cons, hlow, exec_shiftLoop _ rel q (by omega)]
          rfl
        · rw [if_neg hlow, List.find?_cons, Bool.eq_false_iff.mpr hlow, ih (rel + 1) (by omega), hrest]
      · have hnone : q.count - rel = 0 := by omega
        rw [if_neg hmore, hnone]
        rfl

theorem exec_coalesce (e : InputEvent) (replaced kept : EventBody) (q : EventRing InputEvent) :
    (coalesce e replaced kept).exec q =
      match tryCoalesceTail inputEventKind eventBufSize q e with
      | some q => replaced.exec q
      | none => kept.exec q := by
  rw [coalesce, readCount, Body.exec_read, tryCoalesceTail]
  by_cases hempty : q.count = 0
  · rw [if_pos hempty, if_neg (fun h => h.1 hempty)]
  · rw [if_neg hempty]
    by_cases hlow : isLowPriority inputEventKind e = true
    · rw [if_pos hlow]
      simp only [readTail, readCell, Body.exec_read]
      by_cases hsame : sameTarget inputEventKind (q.buf ((q.tail + eventBufSize - 1) % eventBufSize)) e = true
      · rw [if_pos hsame, if_pos ⟨hempty, hlow, hsame⟩]
        rfl
      · rw [if_neg hsame, if_neg (fun h => hsame h.2.2)]
    · rw [if_neg hlow, if_neg (fun h => hlow h.2.1)]

/-- The body of `event_enqueue` is the sequential function. -/
theorem exec_enqueue (e : InputEvent) (hcount : q.count ≤ eventBufSize) :
    (enqueue e).exec q = ((eventEnqueue q (some e)).2, (eventEnqueue q (some e)).1, Option.none) := by
  rw [enqueue, exec_coalesce, eventEnqueue]
  cases tryCoalesceTail inputEventKind eventBufSize q e with
  | some q' => rfl
  | none =>
      simp only [readCount, Body.exec_read]
      by_cases hfull : eventBufSize ≤ q.count
      · rw [if_pos hfull, if_pos hfull, exec_dropLoop _ _ 0 q (by omega) hcount, Nat.sub_zero, ← List.range_eq_range', tryDropLowPriority]
        cases (List.range q.count).find? fun rel => isLowPriority inputEventKind (q.buf ((q.head + rel) % eventBufSize)) with
        | none => rfl
        | some rel => rfl
      · rw [if_neg hfull, if_neg hfull]
        rfl

/-- The body of `event_dequeue` is the sequential function. -/
theorem exec_dequeue (q : EventRing InputEvent) : dequeue.exec q = ((eventDequeue q).2.2, (eventDequeue q).1, (eventDequeue q).2.1) := by
  rw [dequeue, readCount, Body.exec_read, eventDequeue]
  by_cases hempty : q.count = 0
  · rw [if_pos hempty, if_pos hempty]
    rfl
  · rw [if_neg hempty, if_neg hempty]
    rfl

end EventBody

/-- The calls made one after the other are the sequential model, and leave a queue that holds the events of the list queue. -/
theorem inSequence_eventRun (q : EventRing InputEvent) (calls : List (QueueCall InputEvent)) :
    run (inSequence eventBody) (eventInit q, []) calls = eventRun q calls := by
  induction calls using List.reverseRecOn with
  | nil => rfl
  | append_singleton calls call ih =>
      have hcount := (eventRun_refines q calls).1.count
      have hconcat : eventRun q (calls ++ [call]) = eventStep (eventRun q calls) call := by
        rw [eventRun, run_append]
        rfl
      rw [run_append, ih, hconcat, run_cons, run_nil, inSequence]
      cases call with
      | enqueue e => rw [eventBody, EventBody.exec_enqueue e hcount, eventStep]
      | dequeue => rw [eventBody, EventBody.exec_dequeue, eventStep]

/-- However the CPUs take turns, at most one of them is in the queue, which it leaves by its own accesses. The calls that have released the lock have returned what a list queue returns when they are made in the order of their releases, in which a call that begins later comes later, and a free lock has the events of that list queue behind it. -/
theorem event_calls_atomic (q : EventRing InputEvent) (turns : List (SpinTurn (QueueCall InputEvent))) :
    let s := run (Spin.step eventBody) (Spin.start (eventInit q)) turns
    (∀ c d, s.Inside c → s.Inside d → c = d) ∧
      s.results = (ListQueue.run inputEventKind eventBufSize s.calls).2.map eventResult ∧
      (s.word = 0 → s.mem.Holds eventBufSize (ListQueue.run inputEventKind eventBufSize s.calls).1) ∧
      (∀ before after, turns = before ++ after → (run (Spin.step eventBody) (Spin.start (eventInit q)) before).log <+: s.log) ∧
      ∀ c, s.Inside c → ∃ n, (run (Spin.step eventBody) s (List.replicate n (.next c))).word = 0 := by
  intro s
  have hinv : Spin.Inv eventBody (eventInit q) s := Spin.run_inv eventBody (eventInit q) turns
  have hmodel := inSequence_eventRun q s.calls
  obtain ⟨hholds, hresults⟩ := eventRun_refines q s.calls
  refine ⟨fun c d hc hd => hinv.exclusive hc hd, ?_, fun hfree => ?_, fun before after hturns => ?_, fun c hc => ?_⟩
  · rw [← hinv.results, hmodel, hresults]
  · cases hinv.holder with
    | inl hnone =>
        rw [hnone.2.2, hmodel]
        exact hholds
    | inr hheld =>
        rw [hfree] at hheld
        exact absurd hheld.1 (by decide)
  · have hsplit : s = run (Spin.step eventBody) (run (Spin.step eventBody) (Spin.start (eventInit q)) before) after := by
      rw [← run_append, ← hturns]
    rw [hsplit]
    exact Spin.run_log eventBody _ after
  · obtain ⟨k, rest, hcpu⟩ := hc
    obtain ⟨n, hfree, -⟩ := Spin.release eventBody rest hcpu
    exact ⟨n, hfree⟩

end Tsukasa
