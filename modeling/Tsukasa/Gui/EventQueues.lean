import Tsukasa.Gui.Event
import Tsukasa.Gui.GuiSrv

/-!
# Both event queues are one list queue

The queue of a window sits in a table of windows, so its calls are those of a whole run that are addressed to it: an event put into its slot, or a request by the owner for its handle.
-/

namespace Tsukasa

variable {s : GuiSrv} {i j : Nat} {l : List TsukasaGuiEvent} {ev : TsukasaGuiEvent} {pid handle : Int}

/-! ### The fields of a slot that queue calls leave alone -/

/-- What tells a slot's window from others. -/
def GuiWindow.ident (gw : GuiWindow) : Nat × Int × Int × Nat × Nat := (gw.used, gw.handle, gw.ownerPid, gw.wmWin, gw.pixels)

def SameIdent (s s' : GuiSrv) : Prop := ∀ i, (s'.windows i).ident = (s.windows i).ident

theorem SameIdent.trans {s' s'' : GuiSrv} (h : SameIdent s s') (h' : SameIdent s' s'') : SameIdent s s'' := fun i => (h' i).trans (h i)

theorem setWindow_self (s : GuiSrv) (i : Nat) (gw : GuiWindow) : (s.setWindow i gw).windows i = gw := Function.update_self _ _ _

theorem setWindow_of_ne (s : GuiSrv) (gw : GuiWindow) (h : j ≠ i) : (s.setWindow i gw).windows j = s.windows j := Function.update_of_ne h _ _

theorem SameIdent.find {s' : GuiSrv} (h : SameIdent s s') (handle : Int) : findSlotByHandle s' handle = findSlotByHandle s handle := by
  rw [findSlotByHandle, findSlotByHandle]
  congr 1
  funext i
  have hident := h i
  simp only [GuiWindow.ident, Prod.mk.injEq] at hident
  rw [hident.1, hident.2.1]

theorem SameIdent.owner {s' : GuiSrv} (h : SameIdent s s') (i : Nat) : (s'.windows i).ownerPid = (s.windows i).ownerPid := by
  have hident := h i
  simp only [GuiWindow.ident, Prod.mk.injEq] at hident
  exact hident.2.2.1

/-! ### The queue calls of a window -/

/-- From `s` to `s'` only the queue, the flags and the counters of window `i` have changed. -/
structure OnlyQueue (s s' : GuiSrv) (i : Nat) : Prop where
  ident : SameIdent s s'
  others : ∀ j, j ≠ i → s'.windows j = s.windows j

theorem OnlyQueue.refl (s : GuiSrv) (i : Nat) : OnlyQueue s s i := ⟨fun _ => rfl, fun _ _ => rfl⟩

theorem OnlyQueue.trans {s' s'' : GuiSrv} (h : OnlyQueue s s' i) (h' : OnlyQueue s' s'' i) : OnlyQueue s s'' i :=
  ⟨h.ident.trans h'.ident, fun j hj => (h'.others j hj).trans (h.others j hj)⟩

theorem OnlyQueue.of_update {s' : GuiSrv} {gw : GuiWindow} (hwindows : s'.windows = Function.update s.windows i gw)
    (hident : gw.ident = (s.windows i).ident) : OnlyQueue s s' i := by
  constructor
  · intro j
    rw [hwindows]
    by_cases heq : j = i
    · rw [heq, Function.update_self, hident]
    · rw [Function.update_of_ne heq]
  · intro j hj
    rw [hwindows, Function.update_of_ne hj]

theorem evtEnqueue_only (s : GuiSrv) (i : Nat) (ev : TsukasaGuiEvent) : OnlyQueue s (evtEnqueue s i ev) i := by
  rw [evtEnqueue]
  split
  · exact .of_update rfl rfl
  · refine OnlyQueue.trans ?_ (.of_update rfl rfl)
    split
    · split
      · exact .of_update rfl rfl
      · exact .of_update rfl rfl
    · exact .refl s i

theorem evtEnqueue_holds (h : (s.windows i).queue.Holds guiSrvEventQ l) (ev : TsukasaGuiEvent) :
    ((evtEnqueue s i ev).windows i).queue.Holds guiSrvEventQ (ListQueue.enqueue guiEventKind guiSrvEventQ l ev) := by
  rw [ListQueue.enqueue]
  rcases h.coalesce (K := guiEventKind) ev with ⟨hnone, hcoalesces⟩ | ⟨q', hsome, hcoalesces, hholds⟩
  · have hlength : l.length ≤ guiSrvEventQ := by
      rw [h.length]
      exact h.count
    have hqueue : ((evtEnqueue s i ev).windows i).queue = appendEvent guiSrvEventQ (makeRoom guiEventKind guiSrvEventQ (s.windows i).queue) ev := by
      rw [evtEnqueue, hnone, makeRoom]
      simp only [setWindow_self]
      congr 1
      split
      · cases tryDropLowPriority guiEventKind guiSrvEventQ (s.windows i).queue with
        | none => simp only [setWindow_self, Option.getD_none]
        | some q => simp only [setWindow_self, Option.getD_some]
      · rfl
    have hkeeps : ¬ ListQueue.coalesces guiEventKind l ev = true := by simp [hcoalesces]
    rw [hqueue, if_neg hkeeps]
    exact h.makeRoom.append (ListQueue.length_room (by decide) hlength) ev
  · rw [if_pos hcoalesces, evtEnqueue, hsome]
    simp only [setWindow_self]
    exact hholds

/-- The slot whose queue a request is for. -/
def eventSlot (s : GuiSrv) (pid handle : Int) : Option Nat :=
  (findSlotByHandle s handle).filter fun i => (s.windows i).ownerPid = pid

theorem guiSrvGetEvent_only (s : GuiSrv) (pid handle : Int) :
    (eventSlot s pid handle = none ∧ (guiSrvGetEvent s pid handle).2.2 = s) ∨
      ∃ i, eventSlot s pid handle = some i ∧ OnlyQueue s (guiSrvGetEvent s pid handle).2.2 i := by
  rw [guiSrvGetEvent, eventSlot]
  cases findSlotByHandle s handle with
  | none => exact Or.inl ⟨rfl, rfl⟩
  | some i =>
      simp only [Option.filter_some, decide_eq_true_eq]
      by_cases howner : (s.windows i).ownerPid = pid
      · right
        refine ⟨i, if_pos howner, ?_⟩
        rw [if_neg (not_not.mpr howner)]
        split
        · exact .refl s i
        · exact .of_update rfl rfl
      · left
        exact ⟨if_neg howner, by rw [if_pos howner]⟩

theorem guiSrvGetEvent_holds (hslot : eventSlot s pid handle = some i) (h : (s.windows i).queue.Holds guiSrvEventQ l) :
    (l = [] ∧ guiSrvGetEvent s pid handle = (guiErrAgain, none, s)) ∨ ∃ e l', l = e :: l' ∧ (guiSrvGetEvent s pid handle).1 = guiOk ∧
      (guiSrvGetEvent s pid handle).2.1 = some e ∧ ((guiSrvGetEvent s pid handle).2.2.windows i).queue.Holds guiSrvEventQ l' := by
  obtain ⟨hfound, howner⟩ := Option.filter_eq_some_iff.mp hslot
  have hlength := h.length
  rw [guiSrvGetEvent, hfound]
  simp only [decide_eq_true_eq] at howner
  simp only [howner, ne_eq, not_true_eq_false, if_false]
  cases l with
  | nil => exact Or.inl ⟨rfl, if_pos hlength.symm⟩
  | cons e l =>
      rw [List.length_cons] at hlength
      rw [if_neg (by omega)]
      refine Or.inr ⟨e, l, rfl, rfl, by rw [h.head_eq], ?_⟩
      simp only [setWindow_self]
      exact h.dropOldest

/-! ### Runs -/

inductive GuiQueueCall where
  | enqueue (i : Nat) (ev : TsukasaGuiEvent)
  | getEvent (pid handle : Int)

/-- A call as one of the queue in slot `i`. -/
def GuiQueueCall.callTo (s : GuiSrv) (i : Nat) : GuiQueueCall → Option (QueueCall TsukasaGuiEvent)
  | .enqueue j ev => if j = i then some (.enqueue ev) else none
  | .getEvent pid handle => if eventSlot s pid handle = some i then some .dequeue else none

/-- A call, and what it returns behind the results of the calls before it to the same queue. -/
def guiQueueStep (t : GuiSrv × (Nat → List (Int × Option TsukasaGuiEvent))) :
    GuiQueueCall → GuiSrv × (Nat → List (Int × Option TsukasaGuiEvent))
  | .enqueue i ev => (evtEnqueue t.1 i ev, Function.update t.2 i (t.2 i ++ [(guiOk, none)]))
  | .getEvent pid handle =>
      let r := guiSrvGetEvent t.1 pid handle
      (r.2.2, match eventSlot t.1 pid handle with
        | some i => Function.update t.2 i (t.2 i ++ [(r.1, r.2.1)])
        | none => t.2)

def guiQueueRun (s : GuiSrv) (calls : List GuiQueueCall) : GuiSrv × (Nat → List (Int × Option TsukasaGuiEvent)) :=
  Lib.run guiQueueStep (s, fun _ => []) calls

def guiResult : QueueResult TsukasaGuiEvent → Int × Option TsukasaGuiEvent
  | .accepted => (guiOk, none)
  | .empty => (guiErrAgain, none)
  | .event e => (guiOk, some e)

theorem SameIdent.eventSlot {s' : GuiSrv} (h : SameIdent s s') (pid handle : Int) : eventSlot s' pid handle = eventSlot s pid handle := by
  rw [Tsukasa.eventSlot, Tsukasa.eventSlot, h.find handle]
  congr 1
  funext i
  rw [h.owner i]

theorem guiQueueRun_concat (s : GuiSrv) (calls : List GuiQueueCall) (call : GuiQueueCall) :
    guiQueueRun s (calls ++ [call]) = guiQueueStep (guiQueueRun s calls) call := by
  rw [guiQueueRun, Lib.run_append]
  rfl

theorem guiQueueRun_sameIdent (s : GuiSrv) (calls : List GuiQueueCall) : SameIdent s (guiQueueRun s calls).1 := by
  induction calls using List.reverseRecOn with
  | nil => exact fun _ => rfl
  | append_singleton calls call ih =>
      rw [guiQueueRun_concat]
      cases call with
      | enqueue i ev => exact ih.trans (evtEnqueue_only _ i ev).ident
      | getEvent pid handle =>
          rcases guiSrvGetEvent_only (guiQueueRun s calls).1 pid handle with ⟨-, heq⟩ | ⟨i, -, honly⟩
          · simp only [guiQueueStep, heq]
            exact ih
          · exact ih.trans honly.ident

/-- The queue of a slot and the results follow those of the list queue for the calls to that slot. -/
theorem guiQueueRun_refines (hempty : (s.windows i).queue.Holds guiSrvEventQ []) (calls : List GuiQueueCall) :
    ((guiQueueRun s calls).1.windows i).queue.Holds guiSrvEventQ
        (ListQueue.run guiEventKind guiSrvEventQ (calls.filterMap (GuiQueueCall.callTo s i))).1 ∧
      (guiQueueRun s calls).2 i = (ListQueue.run guiEventKind guiSrvEventQ (calls.filterMap (GuiQueueCall.callTo s i))).2.map guiResult := by
  induction calls using List.reverseRecOn with
  | nil => exact ⟨hempty, rfl⟩
  | append_singleton calls call ih =>
      obtain ⟨hholds, hresults⟩ := ih
      have hident := guiQueueRun_sameIdent s calls
      rw [guiQueueRun_concat, List.filterMap_append]
      generalize guiQueueRun s calls = t at hholds hresults hident ⊢
      generalize calls.filterMap (GuiQueueCall.callTo s i) = mine at hholds hresults ⊢
      cases call with
      | enqueue j ev =>
          by_cases hj : j = i
          · subst hj
            have hcall : [GuiQueueCall.enqueue j ev].filterMap (GuiQueueCall.callTo s j) = [.enqueue ev] := by simp [GuiQueueCall.callTo]
            rw [hcall, ListQueue.run_concat]
            refine ⟨evtEnqueue_holds hholds ev, ?_⟩
            simp only [guiQueueStep, ListQueue.step, Function.update_self, hresults, List.map_append]
            rfl
          · have hcall : [GuiQueueCall.enqueue j ev].filterMap (GuiQueueCall.callTo s i) = [] := by simp [GuiQueueCall.callTo, hj]
            have hne : i ≠ j := fun heq => hj heq.symm
            rw [hcall, List.append_nil]
            simp only [guiQueueStep, (evtEnqueue_only t.1 j ev).others i hne, Function.update_of_ne hne]
            exact ⟨hholds, hresults⟩
      | getEvent pid handle =>
          have hslot := hident.eventSlot pid handle
          by_cases hmine : eventSlot s pid handle = some i
          · have hcall : [GuiQueueCall.getEvent pid handle].filterMap (GuiQueueCall.callTo s i) = [.dequeue] := by simp [GuiQueueCall.callTo, hmine]
            rw [hmine] at hslot
            rw [hcall, ListQueue.run_concat]
            generalize ListQueue.run guiEventKind guiSrvEventQ mine = a at hholds hresults ⊢
            obtain ⟨l, results⟩ := a
            rcases guiSrvGetEvent_holds hslot hholds with ⟨rfl, heq⟩ | ⟨e, l', rfl, hret, hout, hnext⟩
            · simp only [guiQueueStep, ListQueue.step, heq, hslot, Function.update_self, hresults, List.map_append]
              exact ⟨hholds, rfl⟩
            · refine ⟨hnext, ?_⟩
              simp only [guiQueueStep, ListQueue.step, hslot, hret, hout, Function.update_self, hresults, List.map_append]
              rfl
          · have hcall : [GuiQueueCall.getEvent pid handle].filterMap (GuiQueueCall.callTo s i) = [] := by simp [GuiQueueCall.callTo, hmine]
            rw [hcall, List.append_nil]
            rcases guiSrvGetEvent_only t.1 pid handle with ⟨hnone, heq⟩ | ⟨j, hj, honly⟩
            · simp only [guiQueueStep, hnone, heq]
              exact ⟨hholds, hresults⟩
            · have hne : i ≠ j := fun heq => hmine (by rw [← hslot, hj, heq])
              simp only [guiQueueStep, hj, honly.others i hne, Function.update_of_ne hne]
              exact ⟨hholds, hresults⟩

/-- The input queue of the kernel and the queue of every window are the list queue with the laws of one: the buffer holds its events, every call returns what it returns. -/
theorem event_queues_refine_list (q : EventRing InputEvent) (calls : List (QueueCall InputEvent))
    (hempty : (s.windows i).queue.Holds guiSrvEventQ []) (guiCalls : List GuiQueueCall) :
    ((eventRun q calls).1.Holds eventBufSize (ListQueue.run inputEventKind eventBufSize calls).1 ∧
      (eventRun q calls).2 = (ListQueue.run inputEventKind eventBufSize calls).2.map eventResult ∧
      ListQueue.Laws inputEventKind eventBufSize calls) ∧
    let mine := guiCalls.filterMap (GuiQueueCall.callTo s i)
    ((guiQueueRun s guiCalls).1.windows i).queue.Holds guiSrvEventQ (ListQueue.run guiEventKind guiSrvEventQ mine).1 ∧
      (guiQueueRun s guiCalls).2 i = (ListQueue.run guiEventKind guiSrvEventQ mine).2.map guiResult ∧
      ListQueue.Laws guiEventKind guiSrvEventQ mine := by
  obtain ⟨hholds, hresults⟩ := eventRun_refines q calls
  obtain ⟨hguiHolds, hguiResults⟩ := guiQueueRun_refines hempty guiCalls
  exact ⟨⟨hholds, hresults, ListQueue.laws _ (by decide) calls⟩, hguiHolds, hguiResults, ListQueue.laws _ (by decide) _⟩

/-- One window, in slot 0 with handle 1 and owner 7. -/
def oneWindow : GuiSrv :=
  (installWindow (guiSrvInit ⟨fun _ => ⟨0, 0, 0, 0, 0, 0, 0, [], true, false, false, false, 0, 0, 0, 0, ⟨fun _ => ⟨0, 0, 0, 0, 0, 0, 0⟩, 0, 0, 0⟩⟩, 0, ⟨0, 0, 0⟩⟩)
    0 7 1 none 10 10 4096).2

theorem event_queues_refine_list_oneWindow :
    let s := (guiSrvGetEvent oneWindow 7 1).2.2
    let calls := [.enqueue 0 ⟨8, 1, 3, 4, 0, 0, 0⟩, .enqueue 0 ⟨8, 1, 5, 6, 0, 0, 0⟩, .getEvent 8 1, .getEvent 7 1]
    (guiQueueRun s calls).2 0 = [(0, none), (0, none), (0, some ⟨8, 1, 5, 6, 0, 0, 0⟩)] := by
  intro s calls
  have hempty : (s.windows 0).queue.Holds guiSrvEventQ [] := by
    have hpositions : (s.windows 0).queue.head = 1 ∧ (s.windows 0).queue.tail = 1 ∧ (s.windows 0).queue.count = 0 := by decide
    obtain ⟨hhead, htail, hcount⟩ := hpositions
    exact ⟨by rw [hhead]; decide, by rw [hcount]; decide, by rw [htail, hhead, hcount]; rfl, by rw [hcount]; rfl⟩
  have hrefines := (event_queues_refine_list ⟨fun _ => ⟨0, 0, 0, 0, 0, 0, 0, 0, 0, 0, 0⟩, 0, 0, 0⟩ [] hempty calls).2.2.1
  have hmine : calls.filterMap (GuiQueueCall.callTo s 0) = [.enqueue ⟨8, 1, 3, 4, 0, 0, 0⟩, .enqueue ⟨8, 1, 5, 6, 0, 0, 0⟩, .dequeue] := rfl
  rw [hrefines, hmine]
  rfl

end Tsukasa
