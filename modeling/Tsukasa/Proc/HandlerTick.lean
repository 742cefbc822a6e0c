import Tsukasa.Proc.Signals
import Tsukasa.Mm.PageTree

/-!
# The process a handler runs in

`process_schedule_tick` with the active page table. It consumes a signal of the current process before it schedules, and calls the handler at its end, on the early return as well as after the switch. There `g_current` and the page table are those of the process that has been picked.
-/

namespace Tsukasa

structure TickState where
  sched : Sched
  vmm : Vmm
  /-- `vm_space.pml4_phys` of each slot. -/
  pml4Phys : Nat → Nat

/-- The test of the early return: the process has time left, and no queue is better than its own priority. -/
def runsOn (s : Sched) (c : Nat) : Bool :=
  let p := s.processes c
  let slice := if !p.isIdle && decide (0 < p.timeSlice) then p.timeSlice - 1 else p.timeSlice
  !p.isIdle && decide (0 < slice) && (runqBestPriority s).all fun best => decide (p.priority ≤ best)

/-- The tick returns before the switch. -/
def returnsEarly (s : Sched) : Bool := s.current.any fun c => decide ((s.processes c).state = .running) && runsOn s c

namespace TickState

/-- `vmm_switch_pml4` to the process that has become current. -/
def switchSpace (t : TickState) (current : Option Nat) : Vmm :=
  match current with
  | none => t.vmm
  | some next => if t.pml4Phys next ≠ 0 then vmmSwitchPml4 t.vmm (t.pml4Phys next) else t.vmm

/-- `process_schedule_tick`: the handler, and the state in which it is called. -/
def tick (t : TickState) : Option (Nat × Nat) × TickState :=
  let (handler, s) := deliverSignal t.sched
  let vmm := if returnsEarly s then t.vmm else t.switchSpace (schedule s).current
  (handler, { t with sched := schedule s, vmm := vmm })

/-- The handler of a signal that the tick consumes runs while the process it was pending for is current and its page table is active. -/
def HandlerAtHome (t : TickState) : Prop :=
  ∀ handler sig, t.tick.1 = some (handler, sig) → ∀ c, t.sched.Pending c sig → ¬t.tick.2.sched.Pending c sig →
    t.tick.2.sched.current = some c ∧ t.tick.2.vmm.currentPml4 = t.pml4Phys c

end TickState

/-- The process that a tick picks when it does not return early: the first of the best queue, with the running process as the last of its own; without one the idle process. -/
def picked (s : Sched) (c : Nat) : Option Nat :=
  let p := s.processes c
  match runqBestPriority s with
  | some best => if !p.isIdle && decide (clampPriority p.priority < best) then some c else s.runqHead best
  | none => if p.isIdle then s.idle.or (some c) else some c

namespace TickState

/-- The tick stays with the process, and its page table is active or becomes so. -/
def StaysHome (t : TickState) (c : Nat) : Prop :=
  runsOn t.sched c = true ∧ t.vmm.currentPml4 = t.pml4Phys c ∨
    runsOn t.sched c = false ∧ picked t.sched c = some c ∧ (t.switchSpace (some c)).currentPml4 = t.pml4Phys c

/-- A running process that is due a handler keeps the processor. -/
def HandlersStayHome (t : TickState) : Prop :=
  ∀ c, t.sched.current = some c → (deliverSignal t.sched).1 ≠ none → t.StaysHome c

/-- The tick is that of the scheduler. -/
theorem tick_sched (t : TickState) : (t.tick.1, t.tick.2.sched) = processScheduleTick t.sched := rfl

end TickState

/-! ### Who is picked -/

section Pick

variable {s : Sched} {c pri : Nat}

theorem runqPop_fst (s : Sched) : (runqPop s).1 = (runqBestPriority s).bind s.runqHead := by
  rw [runqPop, runqBestPriority]
  cases hbest : (List.range processPriorityLevels).find? fun pri => (s.runqHead pri).isSome with
  | none => rfl
  | some best =>
      simp only [Option.bind_some]
      cases hhead : s.runqHead best with
      | none => rfl
      | some i =>
          simp only
          cases (s.processes i).rqNext <;> rfl

theorem switchNext_picks (s : Sched) (cur : Option Nat) : (switchNext s cur).current = (((runqPop s).1.or s.idle).or cur) := by
  have hidle := (runqPop_linksOnly s).idle
  rcases hpop : runqPop s with ⟨popped, s'⟩
  rw [hpop] at hidle
  simp only at hidle
  simp only [switchNext, hpop, hidle]
  cases (popped.or s.idle).or cur <;> rfl

/-- A push fills the process's queue if it was empty; the other heads stay. -/
theorem runqPush_head (s : Sched) (c pri : Nat) :
    (runqPush s c).runqHead pri =
      if pri = clampPriority (s.processes c).priority ∧ s.runqHead pri = none then some c else s.runqHead pri := by
  simp only [runqPush]
  generalize clampPriority (s.processes c).priority = own
  have hhead : ∀ p : Process, (s.set c p).runqHead own = s.runqHead own := fun _ => rfl
  have htail : ∀ p : Process, (s.set c p).runqTail own = s.runqTail own := fun _ => rfl
  rw [hhead, htail]
  cases hown : s.runqHead own with
  | none =>
      simp only [Function.update_apply]
      by_cases hpri : pri = own
      · rw [if_pos hpri, if_pos ⟨hpri, hpri ▸ hown⟩]
      · rw [if_neg hpri, if_neg fun h => hpri h.1]
        rfl
  | some i =>
      have hfull : ¬(pri = own ∧ s.runqHead pri = none) := by
        rintro ⟨rfl, hnone⟩
        rw [hown] at hnone
        cases hnone
      rw [if_neg hfull]
      cases s.runqTail own <;> rfl

theorem runqBestPriority_eq_some {best : Nat} :
    runqBestPriority s = some best ↔ s.runqHead best ≠ none ∧ best < processPriorityLevels ∧ ∀ pri < best, s.runqHead pri = none := by
  rw [runqBestPriority, List.find?_range_eq_some]
  simp [Option.isSome_iff_ne_none]

theorem runqBestPriority_eq_none : runqBestPriority s = none ↔ ∀ pri < processPriorityLevels, s.runqHead pri = none := by
  rw [runqBestPriority, List.find?_range_eq_none]
  simp

/-- What a pop gives after the process has been pushed. -/
theorem pop_of_push (s : Sched) (c : Nat) :
    (runqPop (runqPush s c)).1 =
      match runqBestPriority s with
      | some best => if clampPriority (s.processes c).priority < best then some c else s.runqHead best
      | none => some c := by
  rw [runqPop_fst]
  generalize hown : clampPriority (s.processes c).priority = own
  have hlt : own < processPriorityLevels := hown ▸ clampPriority_lt _
  have hpush := fun pri => runqPush_head s c pri
  rw [hown] at hpush
  -- an empty queue of its own becomes the best one
  have hfirst : (∀ pri ≤ own, s.runqHead pri = none) → (runqBestPriority (runqPush s c)).bind (runqPush s c).runqHead = some c := by
    intro hempty
    have hself : (runqPush s c).runqHead own = some c := by rw [hpush, if_pos ⟨rfl, hempty own (Nat.le_refl own)⟩]
    have hbest : runqBestPriority (runqPush s c) = some own := by
      refine runqBestPriority_eq_some.mpr ⟨by simp [hself], hlt, fun pri hpri => ?_⟩
      rw [hpush, if_neg fun h => Nat.ne_of_lt hpri h.1]
      exact hempty pri (Nat.le_of_lt hpri)
    rw [hbest, Option.bind_some, hself]
  cases hbest : runqBestPriority s with
  | none => exact hfirst fun pri hpri => runqBestPriority_eq_none.mp hbest pri (Nat.lt_of_le_of_lt hpri hlt)
  | some best =>
      obtain ⟨hhead, hbound, hbelow⟩ := runqBestPriority_eq_some.mp hbest
      simp only
      split
      · next hless => exact hfirst fun pri hpri => hbelow pri (Nat.lt_of_le_of_lt hpri hless)
      · next hge =>
          have hsame : (runqPush s c).runqHead best = s.runqHead best := by rw [hpush, if_neg fun h => hhead h.2]
          have hbest' : runqBestPriority (runqPush s c) = some best := by
            refine runqBestPriority_eq_some.mpr ⟨by rwa [hsame], hbound, fun pri hpri => ?_⟩
            rw [hpush, if_neg fun h => by omega]
            exact hbelow pri hpri
          rw [hbest', Option.bind_some, hsame]

theorem head_or {best : Nat} (hbest : runqBestPriority s = some best) (o o' : Option Nat) :
    ((s.runqHead best).or o).or o' = s.runqHead best := by
  obtain ⟨i, hi⟩ := Option.ne_none_iff_exists'.mp (runqBestPriority_eq_some.mp hbest).1
  rw [hi]
  rfl

/-- A running process stays current, or the second half of the tick picks. -/
theorem schedule_picks (hcurrent : s.current = some c) (hrunning : (s.processes c).state = .running) :
    (schedule s).current = if runsOn s c then some c else picked s c := by
  rw [schedule, hcurrent]
  simp only [hrunning, if_true]
  have hruns : (!(s.processes c).isIdle && decide (0 < if (!(s.processes c).isIdle && decide (0 < (s.processes c).timeSlice)) = true then
      (s.processes c).timeSlice - 1 else (s.processes c).timeSlice) &&
        (runqBestPriority s).all fun best => decide ((s.processes c).priority ≤ best)) = runsOn s c := rfl
  rw [hruns]
  split
  · exact hcurrent
  · split
    · next hidle =>
        rw [switchNext_picks, runqPop_fst, picked, hidle]
        change (((runqBestPriority s).bind s.runqHead).or s.idle).or (some c) = _
        cases hbest : runqBestPriority s with
        | none => rfl
        | some best =>
            rw [Option.bind_some, head_or hbest]
            rfl
    · next hidle =>
        have hnot : (s.processes c).isIdle = false := Bool.eq_false_iff.mpr hidle
        generalize hp : ({ s.processes c with timeSlice := processDefaultTimeslice, state := .ready } : Process) = p
        have hpri : p.priority = (s.processes c).priority := by rw [← hp]
        rw [switchNext_picks, pop_of_push, (runqPush_linksOnly _ c).idle, set_processes_self, picked, hnot, hpri]
        change (Option.or (Option.or (match runqBestPriority s with
          | some best => if clampPriority (s.processes c).priority < best then some c else s.runqHead best
          | none => some c) s.idle) (some c)) = _
        cases hbest : runqBestPriority s with
        | none => rfl
        | some best =>
            by_cases hless : clampPriority (s.processes c).priority < best
            · simp [hless]
            · simp only [hless, if_false, head_or hbest, Bool.not_false, decide_false, Bool.and_false, Bool.false_eq_true]

end Pick

/-! ### The signal that is consumed -/

section Deliver

variable {s : Sched} {handler sig : Nat}

/-- A handler is due to the running process, for its lowest pending signal, and only the bit of that signal is cleared. -/
theorem deliverSignal_some (h : (deliverSignal s).1 = some (handler, sig)) :
    ∃ c, s.current = some c ∧ (s.processes c).state = .running ∧ s.Lowest c sig ∧
      (deliverSignal s).2 = s.set c { s.processes c with
        signalPending := (s.processes c).signalPending &&& ~~~(BitVec.twoPow 64 sig) } := by
  rw [deliverSignal] at h ⊢
  cases hcurrent : s.current with
  | none => simp [hcurrent] at h
  | some c =>
      simp only [hcurrent] at h ⊢
      split at h
      · next hrunning =>
          refine ⟨c, rfl, hrunning, ?_⟩
          rw [if_pos hrunning]
          simp only [prepareSignalAction] at h ⊢
          split at h
          · cases h
          next hstate =>
            rw [if_neg hstate]
            split at h
            · cases h
            next k hpick =>
              split_ifs at h ⊢ with hign hfatal
              obtain ⟨-, rfl⟩ := Prod.mk.inj (Option.some.inj h)
              exact ⟨lowest_of_pick hpick, rfl⟩
      · cases h

end Deliver

namespace TickState

variable {t : TickState} {handler sig c : Nat}

/-- Where a tick with a handler ends. -/
theorem tick_of_handler (hcurrent : t.sched.current = some c) (h : (deliverSignal t.sched).1 = some (handler, sig)) :
    t.tick.2.sched.current = (if runsOn t.sched c then some c else picked t.sched c) ∧
      t.tick.2.vmm = (if runsOn t.sched c then t.vmm else t.switchSpace (picked t.sched c)) ∧
      t.sched.Pending c sig ∧ ¬t.tick.2.sched.Pending c sig := by
  obtain ⟨c', hcurrent', hrunning, hlowest, hstate⟩ := deliverSignal_some h
  obtain rfl : c = c' := Option.some.inj (hcurrent.symm.trans hcurrent')
  have hruns : runsOn (deliverSignal t.sched).2 c = runsOn t.sched c := by
    rw [hstate]
    simp only [runsOn, set_processes_self]
    rfl
  have hpicked : picked (deliverSignal t.sched).2 c = picked t.sched c := by
    rw [hstate]
    simp only [picked, set_processes_self]
    rfl
  have hcur : (deliverSignal t.sched).2.current = some c := by
    rw [hstate]
    exact hcurrent
  have hrun : ((deliverSignal t.sched).2.processes c).state = .running := by
    rw [hstate, set_processes_self]
    exact hrunning
  have hpicks := schedule_picks hcur hrun
  rw [hruns, hpicked] at hpicks
  have hearly : returnsEarly (deliverSignal t.sched).2 = runsOn t.sched c := by
    rw [returnsEarly, hcur, Option.any_some, hrun, hruns]
    rfl
  refine ⟨hpicks, ?_, hlowest.pending, ?_⟩
  · simp only [tick, hearly, hpicks]
    split <;> rfl
  · have hafter : t.tick.2.sched = schedule (deliverSignal t.sched).2 := rfl
    rw [hafter, Sched.Pending, (schedule_schedOnly _).sameSignals.pending, hstate, set_processes_self]
    have hlt : sig < 64 := hlowest.lt
    simp [hlt]

end TickState

open TickState

/-- A handler runs in its own process exactly when the process that is due one keeps the processor in that tick. -/
theorem handler_at_home_iff (t : TickState) : t.HandlerAtHome ↔ t.HandlersStayHome := by
  constructor
  · intro hhome c hcurrent hdue
    obtain ⟨⟨handler, sig⟩, hsome⟩ := Option.ne_none_iff_exists'.mp hdue
    obtain ⟨hcur, hvmm, hbefore, hafter⟩ := tick_of_handler hcurrent hsome
    obtain ⟨hsame, hactive⟩ := hhome handler sig hsome c hbefore hafter
    rw [hcur] at hsame
    rw [hvmm] at hactive
    cases hruns : runsOn t.sched c with
    | true =>
        rw [hruns] at hactive
        exact Or.inl ⟨hruns, hactive⟩
    | false =>
        rw [hruns] at hsame hactive
        simp only [Bool.false_eq_true, if_false] at hsame hactive
        rw [hsame] at hactive
        exact Or.inr ⟨hruns, hsame, hactive⟩
  · intro hstay handler sig hsome c hbefore hafter
    have hcurrent := ((processScheduleTick_tickSignals t.sched).clears hbefore hafter).1
    obtain ⟨hcur, hvmm, -, -⟩ := tick_of_handler hcurrent hsome
    have hdue : (deliverSignal t.sched).1 ≠ none := by
      intro hnone
      cases hnone.symm.trans hsome
    rcases hstay c hcurrent hdue with ⟨hruns, hactive⟩ | ⟨hruns, hpicked, hactive⟩
    · rw [hcur, hvmm, hruns]
      exact ⟨rfl, hactive⟩
    · rw [hcur, hvmm, hruns, hpicked]
      exact ⟨rfl, hactive⟩

/-- Slot 0 runs at the end of its time slice with signal 10 pending and a handler for it, and slot 1 waits in the same queue. -/
def preempted : TickState where
  sched :=
    { processes := fun i =>
        if i = 0 then
          { Process.zeroed with
            used := true, pid := 1, state := .running, priority := 128, timeSlice := 1, signalPending := BitVec.twoPow 64 10
            signalHandlers := fun sig => if sig = 10 then 0x400000 else processSigDfl }
        else if i = 1 then { Process.zeroed with used := true, pid := 2, state := .ready, priority := 128, timeSlice := 4 }
        else Process.zeroed
      current := some 0
      idle := none
      runqHead := fun pri => if pri = 128 then some 1 else none
      runqTail := fun pri => if pri = 128 then some 1 else none
      nextPid := 3 }
  vmm := ⟨Pmm.exhausted, fun _ _ => 0#64, 0x1000⟩
  pml4Phys i := if i = 0 then 0x1000 else 0x2000

/-- The handler of slot 0 is called while slot 1 is current. -/
theorem preempted_handler_elsewhere : ¬preempted.HandlerAtHome := by
  intro hhome
  have hcalled : preempted.tick.1 = some (0x400000, 10) := by decide
  have hcleared : ¬preempted.tick.2.sched.Pending 0 10 := by decide
  have hcurrent : preempted.tick.2.sched.current = some 1 := by decide
  have hsame := (hhome 0x400000 10 hcalled 0 (by decide) hcleared).1
  rw [hcurrent] at hsame
  cases hsame

/-! ### The active page table -/

namespace TickState

/-- The page table of the current process is active. -/
def ActiveOwn (t : TickState) : Prop := ∀ c, t.sched.current = some c → t.vmm.currentPml4 = t.pml4Phys c

/-- Every process has a page table, at the address of a page. -/
def ProperTables (t : TickState) : Prop := ∀ c, t.pml4Phys c ≠ 0 ∧ t.pml4Phys c % 4096 = 0 ∧ t.pml4Phys c < 2 ^ 52

theorem switchSpace_active {t : TickState} (hproper : t.ProperTables) (next : Nat) : (t.switchSpace (some next)).currentPml4 = t.pml4Phys next := by
  obtain ⟨hne, haligned, hlt⟩ := hproper next
  have hpage : pagingIsPageAligned (t.pml4Phys next) = true := (pagingIsPageAligned_iff _).mpr haligned
  simp only [switchSpace, if_pos hne, vmmSwitchPml4, hpage, Bool.true_eq_false, or_false, if_neg hne]
  exact tableVirt_page haligned hlt

theorem schedule_early {s : Sched} (hearly : returnsEarly s = true) : (schedule s).current = s.current := by
  rw [returnsEarly, Option.any_eq_true] at hearly
  obtain ⟨c, hcurrent, hstays⟩ := hearly
  rw [Bool.and_eq_true, decide_eq_true_eq] at hstays
  rw [schedule_picks hcurrent hstays.1, hstays.2, if_pos rfl, hcurrent]

/-- A tick keeps the page table of the current process active. -/
theorem tick_activeOwn {t : TickState} (hproper : t.ProperTables) (hactive : t.ActiveOwn) : t.tick.2.ActiveOwn := by
  intro c hcurrent
  change (if returnsEarly (deliverSignal t.sched).2 = true then t.vmm
    else t.switchSpace (schedule (deliverSignal t.sched).2).current).currentPml4 = t.pml4Phys c
  change (schedule (deliverSignal t.sched).2).current = some c at hcurrent
  split
  · next hearly =>
      rw [schedule_early hearly, (deliverSignal_kept t.sched).current] at hcurrent
      exact hactive c hcurrent
  · rw [hcurrent]
    exact switchSpace_active hproper c

/-- With proper page tables a handler runs at home exactly when its process is picked again. -/
theorem handlersStayHome_iff {t : TickState} (hproper : t.ProperTables) (hactive : t.ActiveOwn) :
    t.HandlersStayHome ↔
      ∀ c, t.sched.current = some c → (deliverSignal t.sched).1 ≠ none → runsOn t.sched c = true ∨ picked t.sched c = some c := by
  refine forall_congr' fun c => forall_congr' fun hcurrent => forall_congr' fun _ => ?_
  rw [StaysHome, hactive c hcurrent, switchSpace_active hproper]
  cases runsOn t.sched c <;> simp

end TickState

end Tsukasa
