import Tsukasa.Gui.EventRing

/-!
# The input queue of the kernel

`input/event.c`. The queue is one circular buffer behind one lock, and a call is its critical section.
-/

namespace Tsukasa

def eventBufSize : Nat := 128

structure InputEvent where
  eventId : UInt16
  type : UInt8
  subtype : UInt8
  keycode : UInt32
  x : Int
  y : Int
  wheelDelta : Int
  width : Int
  height : Int
  modifiers : UInt32
  windowId : Int
deriving DecidableEq

def inputEventKind : EventKind InputEvent := ⟨fun e => e.eventId.toNat, InputEvent.windowId⟩

def eventInit (q : EventRing InputEvent) : EventRing InputEvent := { q with head := 0, tail := 0, count := 0 }

/-- `event_enqueue`; `none` is a null pointer. -/
def eventEnqueue (q : EventRing InputEvent) : Option InputEvent → Int × EventRing InputEvent
  | none => (-1, q)
  | some e =>
      match tryCoalesceTail inputEventKind eventBufSize q e with
      | some q => (0, q)
      | none =>
          let q :=
            if eventBufSize ≤ q.count then
              match tryDropLowPriority inputEventKind eventBufSize q with
              | some q => q
              | none => dropOldest eventBufSize q
            else q
          (0, appendEvent eventBufSize q e)

/-- `event_dequeue` with a buffer for the event. -/
def eventDequeue (q : EventRing InputEvent) : Int × Option InputEvent × EventRing InputEvent :=
  if q.count = 0 then (0, none, q) else (1, some (q.buf q.head), dropOldest eventBufSize q)

/-! ### Runs -/

/-- A call and what it returns, behind the results of the calls before it. -/
def eventStep (s : EventRing InputEvent × List (Int × Option InputEvent)) : QueueCall InputEvent → EventRing InputEvent × List (Int × Option InputEvent)
  | .enqueue e =>
      let r := eventEnqueue s.1 (some e)
      (r.2, s.2 ++ [(r.1, none)])
  | .dequeue =>
      let r := eventDequeue s.1
      (r.2.2, s.2 ++ [(r.1, r.2.1)])

def eventRun (q : EventRing InputEvent) (calls : List (QueueCall InputEvent)) : EventRing InputEvent × List (Int × Option InputEvent) :=
  Lib.run eventStep (eventInit q, []) calls

/-- How the calls report a result. -/
def eventResult : QueueResult InputEvent → Int × Option InputEvent
  | .accepted => (0, none)
  | .empty => (0, none)
  | .event e => (1, some e)

variable {q : EventRing InputEvent} {l : List InputEvent}

theorem eventInit_holds (q : EventRing InputEvent) : (eventInit q).Holds eventBufSize [] :=
  ⟨show 0 < eventBufSize by decide, Nat.zero_le _, rfl, rfl⟩

theorem eventEnqueue_holds (h : q.Holds eventBufSize l) (e : InputEvent) :
    (eventEnqueue q (some e)).1 = 0 ∧ (eventEnqueue q (some e)).2.Holds eventBufSize (ListQueue.enqueue inputEventKind eventBufSize l e) := by
  rw [eventEnqueue, ListQueue.enqueue]
  rcases h.coalesce (K := inputEventKind) e with ⟨hnone, hcoalesces⟩ | ⟨q', hsome, hcoalesces, hholds⟩
  · have hroom : (if eventBufSize ≤ q.count then
          match tryDropLowPriority inputEventKind eventBufSize q with
          | some q => q
          | none => dropOldest eventBufSize q
        else q) = makeRoom inputEventKind eventBufSize q := by
      rw [makeRoom]
      cases tryDropLowPriority inputEventKind eventBufSize q <;> rfl
    have hlength : l.length ≤ eventBufSize := by
      rw [h.length]
      exact h.count
    have hkeeps : ¬ ListQueue.coalesces inputEventKind l e = true := by simp [hcoalesces]
    rw [hnone, if_neg hkeeps]
    simp only [hroom]
    exact ⟨trivial, h.makeRoom.append (ListQueue.length_room (by decide) hlength) e⟩
  · rw [hsome, if_pos hcoalesces]
    exact ⟨rfl, hholds⟩

theorem eventDequeue_holds (h : q.Holds eventBufSize l) :
    (l = [] ∧ eventDequeue q = (0, none, q)) ∨ ∃ e l', l = e :: l' ∧ (eventDequeue q).1 = 1 ∧ (eventDequeue q).2.1 = some e ∧
      (eventDequeue q).2.2.Holds eventBufSize l' := by
  have hlength := h.length
  rw [eventDequeue]
  cases l with
  | nil => exact Or.inl ⟨rfl, if_pos hlength.symm⟩
  | cons e l =>
      rw [List.length_cons] at hlength
      rw [if_neg (by omega)]
      exact Or.inr ⟨e, l, rfl, rfl, by rw [h.head_eq], h.dropOldest⟩

/-- The buffer and the results follow those of the list queue. -/
theorem eventRun_refines (q : EventRing InputEvent) (calls : List (QueueCall InputEvent)) :
    (eventRun q calls).1.Holds eventBufSize (ListQueue.run inputEventKind eventBufSize calls).1 ∧
      (eventRun q calls).2 = (ListQueue.run inputEventKind eventBufSize calls).2.map eventResult := by
  induction calls using List.reverseRecOn with
  | nil => exact ⟨eventInit_holds q, rfl⟩
  | append_singleton calls call ih =>
      obtain ⟨hholds, hresults⟩ := ih
      have hconcat : eventRun q (calls ++ [call]) = eventStep (eventRun q calls) call := by
        rw [eventRun, Lib.run_append]
        rfl
      rw [hconcat, ListQueue.run_concat]
      generalize eventRun q calls = s at hholds hresults ⊢
      generalize ListQueue.run inputEventKind eventBufSize calls = a at hholds hresults ⊢
      obtain ⟨l, results⟩ := a
      cases call with
      | enqueue e =>
          obtain ⟨hret, hnext⟩ := eventEnqueue_holds hholds e
          refine ⟨hnext, ?_⟩
          simp only [eventStep, ListQueue.step, hret, hresults, List.map_append]
          rfl
      | dequeue =>
          rcases eventDequeue_holds hholds with ⟨rfl, heq⟩ | ⟨e, l', rfl, hret, hout, hnext⟩
          · refine ⟨?_, ?_⟩
            · simp only [eventStep, ListQueue.step, heq]
              exact hholds
            · simp only [eventStep, ListQueue.step, heq, hresults, List.map_append]
              rfl
          · refine ⟨hnext, ?_⟩
            simp only [eventStep, ListQueue.step, hret, hout, hresults, List.map_append]
            rfl

end Tsukasa
