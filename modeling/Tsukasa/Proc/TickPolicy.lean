import Tsukasa.Proc.Children
import Tsukasa.Proc.HandlerTick

/-!
# The policy of a scheduler tick

What `process_schedule_tick` does to the run queues as lists. Whatever it does with the current process first, by a signal, by its time slice or by preemption, it ends in the same switch, which takes the first process of the best queue, or the idle process when all queues are empty. Nothing keeps a signal from terminating the idle process, and the policy fails where that shows.
-/

namespace Tsukasa

open Lib.Linked

/-- The run queues are the lists `q`, which hold exactly the ready processes of each priority but the idle one. Every process has a kernel stack, and there is one idle process. -/
structure QueuesExact (s : Sched) (q : Nat → List Nat) : Prop where
  queued : Queued s q
  holds : ∀ pri < processPriorityLevels, ∀ i < processMaxCount, i ∈ q pri ↔ (s.processes i).Runnable ∧ (s.processes i).priority = pri
  priority : ∀ i < processMaxCount, (s.processes i).used = true → (s.processes i).priority < processPriorityLevels
  stack : ∀ i < processMaxCount, (s.processes i).used = true → (s.processes i).kernelStack = true
  idle : ∃ d < processMaxCount, s.idle = some d ∧ (s.processes d).used = true ∧ (s.processes d).isIdle = true ∧
    ∀ i < processMaxCount, (s.processes i).used = true → (s.processes i).isIdle = true → i = d

/-- A consistent state of the scheduler. A process that is not ready is in no queue. -/
structure TickConsistent (s : Sched) (q : Nat → List Nat) : Prop extends QueuesExact s q where
  current : ∃ c < processMaxCount, s.current = some c ∧ (s.processes c).used = true ∧
    ((s.processes c).state = .running ∨ (s.processes c).state = .blocked ∨ (s.processes c).state = .zombie ∨
      ∃ pri < processPriorityLevels, c ∈ q pri)
  idleAlive : ∀ d, s.idle = some d → (s.processes d).state.Alive

/-- The process is queued, or it is running and not the idle one. -/
def Sched.Active (s : Sched) (q : Nat → List Nat) (i : Nat) : Prop :=
  (∃ pri < processPriorityLevels, i ∈ q pri) ∨ s.current = some i ∧ (s.processes i).state = .running ∧ (s.processes i).isIdle = false

/-- The tick from `s` to `s'` terminates the process. -/
def TickKills (s s' : Sched) (c : Nat) : Prop :=
  s.current = some c ∧ (s.processes c).state = .running ∧ (s'.processes c).state = .zombie

/-- The parent that waits for the process, blocked. -/
def Sched.waitingParent (s : Sched) (c : Nat) : Option Nat :=
  if (s.processes c).ppid = 0 then none
  else (findByPid s (asInt (s.processes c).ppid)).filter fun i => decide ((s.processes i).state = .blocked)

/-- What a tick from `s` to `s'` should do to the queues `q`. -/
structure TickPolicy (s s' : Sched) (q q' : Nat → List Nat) : Prop where
  consistent : TickConsistent s' q'
  best : (∃ c, s'.current = some c ∧ ∀ pri < processPriorityLevels, q' pri ≠ [] → (s'.processes c).priority ≤ pri) ∨
    s'.current = s'.idle ∧ ∀ pri < processPriorityLevels, q' pri = []
  members : ∀ i, s'.Active q' i ↔ s.Active q i ∧ ¬TickKills s s' i ∨ ∃ c, TickKills s s' c ∧ s.waitingParent c = some i
  requeued : ∀ c, s.current = some c → (s.processes c).state = .running → (s.processes c).isIdle = false → ¬TickKills s s' c →
    s'.current ≠ some c → (q' (s.processes c).priority).getLast? = some c
  order : ∀ pri < processPriorityLevels, ((q' pri).filter fun i => decide (i ∈ q pri)).Sublist (q pri)

/-- No signal that is due wakes the idle process as a parent, and one that terminates the idle process finds nobody to run instead. -/
def SparesIdle (s : Sched) (q : Nat → List Nat) : Prop :=
  ∀ c, s.current = some c → (s.processes c).state = .running → s.Fatal c →
    s.waitingParent c ≠ s.idle ∧ ((s.processes c).isIdle = true → s.waitingParent c = none ∧ ∀ pri < processPriorityLevels, q pri = [])

/-! ### The queues under updates -/

theorem Queued.set_same {s : Sched} {q : Nat → List Nat} {i : Nat} {p : Process} (h : Queued s q) (hnext : p.rqNext = (s.processes i).rqNext)
    (hprio : p.priority = (s.processes i).priority) : Queued (s.set i p) q := by
  have hnextOf : (s.set i p).nextOf = s.nextOf := by
    rw [nextOf_set, hnext]
    exact Function.update_eq_self i _
  have hprios : ∀ j, ((s.set i p).processes j).priority = (s.processes j).priority := set_field Process.priority hprio
  refine ⟨fun pri hpri => ?_, h.tail, fun pri hpri j hj => ?_⟩
  · rw [hnextOf]
    exact h.list pri hpri
  · rw [hprios]
    exact h.home pri hpri j hj

/-- The fields of a process that the queues and the idle process depend on, but for the state. -/
def Process.queueKey (p : Process) : Bool × Bool × Bool × Nat := (p.used, p.isIdle, p.kernelStack, p.priority)

namespace QueuesExact

variable {s s' : Sched} {q q' : Nat → List Nat} {i : Nat} {p : Process}

theorem of_kept (h : QueuesExact s q) (hidle : s'.idle = s.idle) (hkept : ∀ j, (s'.processes j).queueKey = (s.processes j).queueKey)
    (hqueued : Queued s' q')
    (hholds : ∀ pri < processPriorityLevels, ∀ j < processMaxCount, j ∈ q' pri ↔ (s'.processes j).Runnable ∧ (s.processes j).priority = pri) :
    QueuesExact s' q' := by
  have hused : ∀ j, (s'.processes j).used = (s.processes j).used := fun j => congrArg (·.1) (hkept j)
  have hidles : ∀ j, (s'.processes j).isIdle = (s.processes j).isIdle := fun j => congrArg (·.2.1) (hkept j)
  have hstack : ∀ j, (s'.processes j).kernelStack = (s.processes j).kernelStack := fun j => congrArg (·.2.2.1) (hkept j)
  have hprio : ∀ j, (s'.processes j).priority = (s.processes j).priority := fun j => congrArg (·.2.2.2) (hkept j)
  refine ⟨hqueued, fun pri hpri j hj => ?_, fun j hj hu => ?_, fun j hj hu => ?_, ?_⟩
  · rw [hprio]
    exact hholds pri hpri j hj
  · rw [hprio]
    exact h.priority j hj ((hused j).symm.trans hu)
  · rw [hstack]
    exact h.stack j hj ((hused j).symm.trans hu)
  · obtain ⟨d, hd, hsome, hu, hi, honly⟩ := h.idle
    refine ⟨d, hd, hidle.trans hsome, (hused d).trans hu, (hidles d).trans hi, fun j hj hju hji => ?_⟩
    exact honly j hj ((hused j).symm.trans hju) ((hidles j).symm.trans hji)

/-- A process that is in no queue, and does not get into one, is changed. -/
theorem set_out (h : QueuesExact s q) (hkept : p.queueKey = (s.processes i).queueKey) (hnext : p.rqNext = (s.processes i).rqNext)
    (hold : ¬(s.processes i).Runnable) (hnew : ¬p.Runnable) : QueuesExact (s.set i p) q := by
  refine h.of_kept rfl (set_field Process.queueKey hkept) (h.queued.set_same hnext (congrArg (·.2.2.2) hkept)) fun pri hpri j hj => ?_
  rw [h.holds pri hpri j hj]
  by_cases heq : j = i
  · rw [heq, set_processes_self]
    exact iff_of_false (fun hrun => hold hrun.1) fun hrun => hnew hrun.1
  · rw [set_processes_of_ne heq]

/-- Nothing about the process is changed that makes it belong in a queue. -/
theorem set_quiet (h : QueuesExact s q) (hkept : p.queueKey = (s.processes i).queueKey) (hnext : p.rqNext = (s.processes i).rqNext)
    (hstate : p.state = (s.processes i).state) : QueuesExact (s.set i p) q := by
  have hused := set_field (s := s) Process.used (congrArg (·.1) hkept : p.used = _)
  have hidle := set_field (s := s) Process.isIdle (congrArg (·.2.1) hkept : p.isIdle = _)
  refine h.of_kept rfl (set_field Process.queueKey hkept) (h.queued.set_same hnext (congrArg (·.2.2.2) hkept)) fun pri hpri j hj => ?_
  rw [h.holds pri hpri j hj, Process.Runnable, Process.Runnable, hused j, hidle j, set_field Process.state hstate j]

theorem not_mem (h : QueuesExact s q) (hout : ¬(s.processes i).Runnable) {pri : Nat} (hpri : pri < processPriorityLevels) : i ∉ q pri := by
  intro hmem
  exact hout ((h.holds pri hpri i (h.queued.home pri hpri i hmem).1).mp hmem).1

/-- A process that was in no queue becomes ready and is pushed. -/
theorem push_ready (h : QueuesExact s q) (hlt : i < processMaxCount) (hkept : p.queueKey = (s.processes i).queueKey)
    (hnext : p.rqNext = (s.processes i).rqNext) (hold : ¬(s.processes i).Runnable) (hnew : p.Runnable) :
    QueuesExact (runqPush (s.set i p) i) (Function.update q (s.processes i).priority (q (s.processes i).priority ++ [i])) := by
  have hprio : p.priority = (s.processes i).priority := congrArg (·.2.2.2) hkept
  have hlevel := h.priority i hlt ((congrArg (·.1) hkept).symm.trans hnew.1)
  have hlinks := runqPush_linksOnly (s.set i p) i
  have hqueued := runqPush_queued (h.queued.set_same hnext hprio) hlt (i := i)
    (by rw [set_processes_self, hprio]; exact hlevel) (by rw [set_processes_self, hprio]; exact h.not_mem hold hlevel)
  rw [set_processes_self, hprio] at hqueued
  refine h.of_kept hlinks.idle (fun j => ?_) hqueued fun pri hpri j hj => ?_
  · rw [hlinks.field Process.queueKey fun _ => rfl]
    exact set_field Process.queueKey hkept j
  · rw [hlinks.field Process.Runnable fun _ => rfl]
    by_cases hpeq : pri = (s.processes i).priority
    · rw [hpeq, Function.update_self, List.mem_append, List.mem_singleton, h.holds _ hlevel j hj]
      by_cases heq : j = i
      · rw [heq, set_processes_self]
        exact iff_of_true (Or.inr rfl) ⟨hnew, rfl⟩
      · rw [set_processes_of_ne heq]
        exact or_iff_left heq
    · rw [Function.update_of_ne hpeq, h.holds pri hpri j hj]
      by_cases heq : j = i
      · rw [heq]
        exact iff_of_false (fun hrun => hpeq hrun.2.symm) fun hrun => hpeq hrun.2.symm
      · rw [set_processes_of_ne heq]

end QueuesExact

/-! ### The switch -/

/-- The switch from `s` runs `next`, which is the first process of the best queue, or the idle process. -/
structure Switched (s s' : Sched) (q q' : Nat → List Nat) (next : Nat) : Prop where
  current : s'.current = some next
  idle : s'.idle = s.idle
  key : ∀ j, (s'.processes j).queueKey = (s.processes j).queueKey
  state : ∀ j, (s'.processes j).state = if j = next then .running else (s.processes j).state
  queues : QueuesExact s' q'
  picks : s.idle = some next ∧ (∀ pri < processPriorityLevels, q pri = []) ∧ q' = q ∨
    ∃ pri < processPriorityLevels, ∃ rest, q pri = next :: rest ∧ (∀ p < pri, q p = []) ∧ q' = Function.update q pri rest

/-- The popped process leaves its queue and runs. -/
theorem switched_of_next {s s₁ : Sched} {q q' : Nat → List Nat} {next : Nat} (h : QueuesExact s q) (hlinks : LinksOnly s s₁) (hqueued : Queued s₁ q')
    (hpicks : s.idle = some next ∧ (∀ pri < processPriorityLevels, q pri = []) ∧ q' = q ∨
      ∃ pri < processPriorityLevels, ∃ rest, q pri = next :: rest ∧ (∀ p < pri, q p = []) ∧ q' = Function.update q pri rest) :
    Switched s { s₁.setState next .running with current := some next } q q' next := by
  have hkey : ∀ j, ((s₁.setState next .running).processes j).queueKey = (s.processes j).queueKey := by
    intro j
    rw [Sched.setState]
    by_cases heq : j = next
    · rw [heq, set_processes_self]
      exact hlinks.field Process.queueKey (fun _ => rfl) next
    · rw [set_processes_of_ne heq]
      exact hlinks.field Process.queueKey (fun _ => rfl) j
  have hstate : ∀ j, ((s₁.setState next .running).processes j).state = if j = next then .running else (s.processes j).state := by
    intro j
    rw [Sched.setState]
    by_cases heq : j = next
    · rw [heq, set_processes_self, if_pos rfl]
    · rw [set_processes_of_ne heq, if_neg heq]
      exact hlinks.field Process.state (fun _ => rfl) j
  have hset : Queued (s₁.setState next .running) q' := hqueued.set_same rfl rfl
  have hqueued' : Queued { s₁.setState next .running with current := some next } q' := ⟨hset.list, hset.tail, hset.home⟩
  refine ⟨rfl, hlinks.idle, hkey, hstate, h.of_kept hlinks.idle hkey hqueued' fun pri hpri j hj => ?_, hpicks⟩
  have hused : ∀ j, ((s₁.setState next .running).processes j).used = (s.processes j).used := fun j => congrArg (·.1) (hkey j)
  have hidle : ∀ j, ((s₁.setState next .running).processes j).isIdle = (s.processes j).isIdle := fun j => congrArg (·.2.1) (hkey j)
  have hrun : ((s₁.setState next .running).processes j).Runnable ↔ (s.processes j).Runnable ∧ j ≠ next := by
    rw [Process.Runnable, Process.Runnable, hused, hidle, hstate]
    by_cases heq : j = next
    · simp [heq]
    · simp [heq]
  change j ∈ q' pri ↔ ((s₁.setState next .running).processes j).Runnable ∧ _
  rw [hrun]
  obtain ⟨-, hempty, rfl⟩ | ⟨best, hbest, rest, hcons, -, rfl⟩ := hpicks
  · have hnone := h.holds pri hpri j hj
    rw [hempty pri hpri] at hnone ⊢
    exact iff_of_false List.not_mem_nil fun hin => absurd (hnone.mpr ⟨hin.1.1, hin.2⟩) List.not_mem_nil
  · have hnodup := (h.queued.list best hbest).nodup
    rw [hcons, List.nodup_cons] at hnodup
    by_cases heq : pri = best
    · rw [heq, Function.update_self]
      have hold := h.holds best hbest j hj
      rw [hcons, List.mem_cons] at hold
      constructor
      · intro hin
        obtain ⟨hready, hprio⟩ := hold.mp (Or.inr hin)
        exact ⟨⟨hready, fun hnext => hnodup.1 (hnext ▸ hin)⟩, hprio⟩
      · rintro ⟨⟨hready, hne⟩, hprio⟩
        exact (hold.mpr ⟨hready, hprio⟩).resolve_left hne
    · rw [Function.update_of_ne heq, h.holds pri hpri j hj]
      have hhome := (h.queued.home best hbest next (by simp [hcons])).2
      constructor
      · rintro ⟨hready, hprio⟩
        refine ⟨⟨hready, ?_⟩, hprio⟩
        rintro rfl
        exact heq (hprio.symm.trans hhome)
      · rintro ⟨⟨hready, -⟩, hprio⟩
        exact ⟨hready, hprio⟩

theorem switchNext_switched {s : Sched} {q : Nat → List Nat} (h : QueuesExact s q) (cur : Option Nat) :
    ∃ q' next, Switched s (switchNext s cur) q q' next := by
  obtain ⟨d, -, hidle, -⟩ := h.idle
  have hlinks := runqPop_linksOnly s
  rcases runqPop_queued h.queued with ⟨hempty, hnone, hsame⟩ | ⟨pri, hpri, i, rest, hcons, hbest, hsome, hqueued⟩
  · refine ⟨q, d, ?_⟩
    simp only [switchNext, hnone, hsame, Option.none_or, hidle, Option.some_or]
    exact switched_of_next h (LinksOnly.refl s) h.queued (Or.inl ⟨hidle, hempty, rfl⟩)
  · refine ⟨Function.update q pri rest, i, ?_⟩
    simp only [switchNext, hsome, Option.some_or]
    exact switched_of_next h hlinks hqueued (Or.inr ⟨pri, hpri, rest, hcons, hbest, rfl⟩)

namespace Switched

variable {s s' : Sched} {q q' : Nat → List Nat} {next : Nat}

/-- The process that the switch runs was ready in a queue, or is the idle one. -/
theorem next_ok (h : Switched s s' q q' next) (hexact : QueuesExact s q) :
    next < processMaxCount ∧ (s.processes next).used = true ∧ ((s.processes next).Runnable ∨ s.idle = some next) := by
  obtain ⟨hidle, -, -⟩ | ⟨pri, hpri, rest, hcons, -, -⟩ := h.picks
  · obtain ⟨d, hd, hsome, hused, -⟩ := hexact.idle
    rw [hidle, Option.some.injEq] at hsome
    rw [hsome]
    exact ⟨hd, hused, Or.inr (hsome ▸ hidle)⟩
  · have hmem : next ∈ q pri := by simp [hcons]
    have hlt := (hexact.queued.home pri hpri next hmem).1
    have hready := ((hexact.holds pri hpri next hlt).mp hmem).1
    exact ⟨hlt, hready.1, Or.inl hready⟩

theorem consistent (h : Switched s s' q q' next) (hexact : QueuesExact s q)
    (halive : ∀ d, s.idle = some d → d ≠ next → (s.processes d).state.Alive) : TickConsistent s' q' := by
  obtain ⟨hlt, hused, -⟩ := h.next_ok hexact
  refine ⟨h.queues, ⟨next, hlt, h.current, (congrArg (·.1) (h.key next)).trans hused, Or.inl ?_⟩, fun d hd => ?_⟩
  · rw [h.state, if_pos rfl]
  · rw [h.idle] at hd
    rw [h.state]
    split
    · decide
    · next hne => exact halive d hd hne

theorem best (h : Switched s s' q q' next) (hexact : QueuesExact s q) :
    (∃ c, s'.current = some c ∧ ∀ pri < processPriorityLevels, q' pri ≠ [] → (s'.processes c).priority ≤ pri) ∨
      s'.current = s'.idle ∧ ∀ pri < processPriorityLevels, q' pri = [] := by
  obtain ⟨hidle, hempty, rfl⟩ | ⟨pri, hpri, rest, hcons, hbelow, rfl⟩ := h.picks
  · exact Or.inr ⟨h.current.trans (h.idle.trans hidle).symm, hempty⟩
  · refine Or.inl ⟨next, h.current, fun p hp hne => ?_⟩
    have hprio : (s'.processes next).priority = pri := by
      rw [← (hexact.queued.home pri hpri next (by simp [hcons])).2]
      exact congrArg (·.2.2.2) (h.key next)
    rw [hprio]
    by_contra hless
    rw [Nat.not_le] at hless
    rw [Function.update_of_ne (Nat.ne_of_lt hless)] at hne
    exact hne (hbelow p hless)

/-- The switch loses nobody: who was queued is queued or runs. -/
theorem active_iff (h : Switched s s' q q' next) (hexact : QueuesExact s q) (i : Nat) :
    s'.Active q' i ↔ ∃ pri < processPriorityLevels, i ∈ q pri := by
  have hidles : (s'.processes next).isIdle = (s.processes next).isIdle := congrArg (·.2.1) (h.key next)
  obtain ⟨hidle, hempty, rfl⟩ | ⟨best, hbest, rest, hcons, -, rfl⟩ := h.picks
  · obtain ⟨d, -, hsome, -, hflag, -⟩ := hexact.idle
    rw [hidle, Option.some.injEq] at hsome
    refine or_iff_left ?_
    rintro ⟨hcurrent, -, hnot⟩
    rw [h.current, Option.some.injEq] at hcurrent
    rw [← hcurrent, hidles, hsome, hflag] at hnot
    cases hnot
  · have hmem : next ∈ q best := by simp [hcons]
    have hflag := ((hexact.holds best hbest next (hexact.queued.home best hbest next hmem).1).mp hmem).1.2.1
    constructor
    · rintro (⟨p, hp, hin⟩ | ⟨hcurrent, -, -⟩)
      · by_cases heq : p = best
        · rw [heq, Function.update_self] at hin
          exact ⟨best, hbest, by simp [hcons, hin]⟩
        · rw [Function.update_of_ne heq] at hin
          exact ⟨p, hp, hin⟩
      · rw [h.current, Option.some.injEq] at hcurrent
        exact ⟨best, hbest, hcurrent ▸ hmem⟩
    · rintro ⟨p, hp, hin⟩
      by_cases hnext : i = next
      · rw [hnext]
        refine Or.inr ⟨h.current, ?_, hidles.trans hflag⟩
        rw [h.state, if_pos rfl]
      · refine Or.inl ⟨p, hp, ?_⟩
        by_cases heq : p = best
        · rw [heq, hcons, List.mem_cons] at hin
          rw [heq, Function.update_self]
          exact hin.resolve_left hnext
        · rwa [Function.update_of_ne heq]

theorem sublist (h : Switched s s' q q' next) (pri : Nat) : (q' pri).Sublist (q pri) := by
  obtain ⟨-, -, rfl⟩ | ⟨best, -, rest, hcons, -, rfl⟩ := h.picks
  · exact List.Sublist.refl _
  · by_cases heq : pri = best
    · rw [heq, Function.update_self, hcons]
      exact List.sublist_cons_self next rest
    · rw [Function.update_of_ne heq]

/-- The last process of a queue stays its last, unless it is the one that runs. -/
theorem last (h : Switched s s' q q' next) {pri c : Nat} {l : List Nat} (hlast : q pri = l ++ [c]) (hne : c ≠ next) :
    (q' pri).getLast? = some c := by
  obtain ⟨-, -, rfl⟩ | ⟨best, -, rest, hcons, -, rfl⟩ := h.picks
  · rw [hlast, List.getLast?_concat]
  · by_cases heq : pri = best
    · rw [heq, Function.update_self]
      rw [heq, hcons] at hlast
      cases l with
      | nil =>
          rw [List.nil_append, List.cons.injEq] at hlast
          exact absurd hlast.1.symm hne
      | cons x l =>
          rw [List.cons_append, List.cons.injEq] at hlast
          rw [hlast.2, List.getLast?_concat]
    · rw [Function.update_of_ne heq, hlast, List.getLast?_concat]

end Switched

/-- A queue with at most a newcomer behind it, and possibly fewer processes, keeps the order. -/
theorem filter_old_sublist {l l₁ l' : List Nat} (hsub : l'.Sublist l₁) (hgrown : l₁ = l ∨ ∃ x, x ∉ l ∧ l₁ = l ++ [x]) :
    (l'.filter fun i => decide (i ∈ l)).Sublist l := by
  have hfilter := hsub.filter fun i => decide (i ∈ l)
  have hself : l.filter (fun i => decide (i ∈ l)) = l := List.filter_eq_self.mpr fun i hi => decide_eq_true hi
  obtain rfl | ⟨x, hx, rfl⟩ := hgrown
  · rwa [hself] at hfilter
  · rwa [List.filter_append, hself, List.filter_cons_of_neg (by simpa using hx), List.filter_nil, List.append_nil] at hfilter

/-! ### The signal -/

section Signal

variable {s : Sched} {c : Nat}

/-- A tick that terminates nobody changes at most the pending signals of the current process first. -/
theorem deliverSignal_spared (hcurrent : s.current = some c) (hspared : (s.processes c).state = .running → ¬s.Fatal c) :
    ∃ p : Process, (deliverSignal s).2 = s.set c p ∧ p.queueKey = (s.processes c).queueKey ∧ p.rqNext = (s.processes c).rqNext ∧
      p.state = (s.processes c).state := by
  have hsame : ∃ p : Process, s = s.set c p ∧ p.queueKey = (s.processes c).queueKey ∧ p.rqNext = (s.processes c).rqNext ∧
      p.state = (s.processes c).state := by
    refine ⟨s.processes c, ?_, rfl, rfl, rfl⟩
    rw [Sched.set, Function.update_eq_self]
  simp only [deliverSignal, hcurrent]
  split
  · next hrunning =>
      simp only [prepareSignalAction]
      split
      · exact hsame
      split
      · exact hsame
      next sig hpick =>
        split_ifs with hign hfatal
        · exact ⟨_, rfl, rfl, rfl, rfl⟩
        · exact absurd ⟨sig, hpick, hign, hfatal⟩ (hspared hrunning)
        · exact ⟨_, rfl, rfl, rfl, rfl⟩
  · exact hsame

/-- A tick that terminates the current process wakes the parent that waits for it. -/
theorem deliverSignal_killed (hcurrent : s.current = some c) (hrunning : (s.processes c).state = .running) (hfatal : s.Fatal c) :
    ∃ p : Process, p.queueKey = (s.processes c).queueKey ∧ p.rqNext = (s.processes c).rqNext ∧ p.state = .zombie ∧
      (deliverSignal s).2 = match s.waitingParent c with
        | none => s.set c p
        | some i => runqPush ((s.set c p).setState i .ready) i := by
  obtain ⟨sig, hpick, hign, hdeadly⟩ := hfatal
  have hbefore : ¬((s.processes c).state = .zombie ∨ (s.processes c).state = .dead) := by simp [hrunning]
  refine ⟨{ s.processes c with
    signalPending := (s.processes c).signalPending &&& ~~~(BitVec.twoPow 64 sig), waitStatus := waitStatusSignal sig, state := .zombie },
    rfl, rfl, rfl, ?_⟩
  simp only [deliverSignal, hcurrent, if_pos hrunning, prepareSignalAction, if_neg hbefore, hpick, if_neg hign, if_pos hdeadly, markZombie,
    set_processes_self]
  have hset : ∀ p p' : Process, (s.set c p).set c p' = s.set c p' := fun p p' => by
    simp only [Sched.set, Function.update_idem]
  rw [hset]
  generalize hp : ({ s.processes c with
    signalPending := (s.processes c).signalPending &&& ~~~(BitVec.twoPow 64 sig), waitStatus := waitStatusSignal sig,
    state := .zombie } : Process) = p
  have hppid : p.ppid = (s.processes c).ppid := by rw [← hp]
  have hkept : Kept s (s.set c p) := Kept.set (by rw [← hp]; rfl)
  simp only [wakeParentIfWaiting, set_processes_self, hppid, Sched.waitingParent, hkept.findByPid]
  by_cases hzero : (s.processes c).ppid = 0
  · rw [if_pos hzero, if_pos hzero]
  · rw [if_neg hzero, if_neg hzero]
    cases hfind : findByPid s (asInt (s.processes c).ppid) with
    | none => rfl
    | some i =>
        have hblocked : ((s.set c p).processes i).state = .blocked ↔ (s.processes i).state = .blocked := by
          by_cases heq : i = c
          · rw [heq, set_processes_self, hrunning, ← hp]
            simp
          · rw [set_processes_of_ne heq]
        simp only [wake, hblocked, Option.filter_some, decide_eq_true_eq]
        split <;> rfl

end Signal

theorem waitingParent_some {s : Sched} {c i : Nat} (h : s.waitingParent c = some i) :
    i < processMaxCount ∧ (s.processes i).used = true ∧ (s.processes i).state = .blocked := by
  rw [Sched.waitingParent] at h
  split at h
  · cases h
  · obtain ⟨hfind, hblocked⟩ := Option.filter_eq_some_iff.mp h
    obtain ⟨hlt, hused, -⟩ := findByPid_some hfind
    exact ⟨hlt, hused, of_decide_eq_true hblocked⟩

/-! ### The tick -/

section Tick

variable {s s₁ s' : Sched} {q q₁ q' : Nat → List Nat} {c : Nat}

/-- The queues behind the first part of a tick: some process may have been pushed. -/
def GrownBy (q q₁ : Nat → List Nat) (pushed : Option Nat) : Prop :=
  (∀ i, (∃ pri < processPriorityLevels, i ∈ q₁ pri) ↔ (∃ pri < processPriorityLevels, i ∈ q pri) ∨ pushed = some i) ∧
    ∀ pri, q₁ pri = q pri ∨ ∃ x, x ∉ q pri ∧ q₁ pri = q pri ++ [x]

theorem GrownBy.refl (q : Nat → List Nat) : GrownBy q q none := by
  refine ⟨fun i => ?_, fun pri => Or.inl rfl⟩
  simp

theorem GrownBy.push {pri i : Nat} (hpri : pri < processPriorityLevels) (hout : i ∉ q pri) :
    GrownBy q (Function.update q pri (q pri ++ [i])) (some i) := by
  constructor
  · intro j
    rw [Option.some.injEq]
    constructor
    · rintro ⟨p, hp, hin⟩
      by_cases heq : p = pri
      · rw [heq, Function.update_self, List.mem_append, List.mem_singleton] at hin
        exact hin.imp (fun hold => ⟨pri, hpri, hold⟩) Eq.symm
      · rw [Function.update_of_ne heq] at hin
        exact Or.inl ⟨p, hp, hin⟩
    · rintro (⟨p, hp, hin⟩ | rfl)
      · refine ⟨p, hp, ?_⟩
        by_cases heq : p = pri
        · rw [heq, Function.update_self]
          exact List.mem_append_left _ (heq ▸ hin)
        · rwa [Function.update_of_ne heq]
      · refine ⟨pri, hpri, ?_⟩
        rw [Function.update_self]
        exact List.mem_append_right _ List.mem_cons_self
  · intro p
    by_cases heq : p = pri
    · rw [heq, Function.update_self]
      exact Or.inr ⟨i, hout, rfl⟩
    · rw [Function.update_of_ne heq]
      exact Or.inl rfl

/-- The policy of a tick that ends in a switch. -/
theorem policy_of_switch (hexact : QueuesExact s₁ q₁) {next : Nat} (hswitch : Switched s₁ s' q₁ q' next) {pushed : Option Nat}
    (hgrown : GrownBy q q₁ pushed) (halive : ∀ d, s₁.idle = some d → d ≠ next → (s₁.processes d).state.Alive)
    (hmembers : ∀ i, (∃ pri < processPriorityLevels, i ∈ q pri) ∨ pushed = some i ↔
      s.Active q i ∧ ¬TickKills s s' i ∨ ∃ c, TickKills s s' c ∧ s.waitingParent c = some i)
    (hrequeued : ∀ c, s.current = some c → (s.processes c).state = .running → (s.processes c).isIdle = false → ¬TickKills s s' c →
      next ≠ c → ∃ l, q₁ (s.processes c).priority = l ++ [c]) : TickPolicy s s' q q' := by
  refine ⟨hswitch.consistent hexact halive, hswitch.best hexact, fun i => ?_, fun c hcurrent hrunning hidle hkept hne => ?_, fun pri _ => ?_⟩
  · rw [hswitch.active_iff hexact, hgrown.1]
    exact hmembers i
  · have hnext : next ≠ c := fun heq => hne (hswitch.current.trans (congrArg some heq))
    obtain ⟨l, hl⟩ := hrequeued c hcurrent hrunning hidle hkept hnext
    exact hswitch.last hl hnext.symm
  · exact filter_old_sublist (hswitch.sublist pri) (hgrown.2 pri)

/-- The members of the queues when nobody is terminated, and the process that was running is pushed unless it is the idle one. -/
theorem members_spared (hno : ∀ i, ¬TickKills s s' i) (hcurrent : s.current = some c) {pushed : Option Nat}
    (hpushed : ∀ i, pushed = some i ↔ i = c ∧ (s.processes c).state = .running ∧ (s.processes c).isIdle = false) (i : Nat) :
    (∃ pri < processPriorityLevels, i ∈ q pri) ∨ pushed = some i ↔
      s.Active q i ∧ ¬TickKills s s' i ∨ ∃ c, TickKills s s' c ∧ s.waitingParent c = some i := by
  have hnone : ¬∃ c, TickKills s s' c ∧ s.waitingParent c = some i := by
    rintro ⟨c, hkill, -⟩
    exact hno c hkill
  rw [hpushed, or_iff_left hnone, and_iff_left (hno i), Sched.Active, hcurrent, Option.some.injEq]
  refine or_congr_right ?_
  constructor
  · rintro ⟨rfl, hrunning, hidle⟩
    exact ⟨rfl, hrunning, hidle⟩
  · rintro ⟨rfl, hrunning, hidle⟩
    exact ⟨rfl, hrunning, hidle⟩

/-- What the scheduling part of a tick does with a running process. -/
theorem schedule_running (hcurrent : s.current = some c) (hrunning : (s.processes c).state = .running) :
    ∃ slice, runsOn s c = true ∧ schedule s = s.set c { s.processes c with timeSlice := slice } ∨
      (s.processes c).isIdle = true ∧ schedule s = switchNext (s.set c { s.processes c with timeSlice := slice, state := .ready }) (some c) ∨
      (s.processes c).isIdle = false ∧
        schedule s = switchNext (runqPush (s.set c { s.processes c with timeSlice := slice, state := .ready }) c) (some c) := by
  rw [schedule, hcurrent]
  simp only [hrunning, if_true]
  have hruns : (!(s.processes c).isIdle && decide (0 < if (!(s.processes c).isIdle && decide (0 < (s.processes c).timeSlice)) = true then
      (s.processes c).timeSlice - 1 else (s.processes c).timeSlice) &&
        (runqBestPriority s).all fun best => decide ((s.processes c).priority ≤ best)) = runsOn s c := rfl
  rw [hruns]
  split
  · next hstays => exact ⟨_, Or.inl ⟨hstays, rfl⟩⟩
  split
  · next hidle => exact ⟨_, Or.inr (Or.inl ⟨hidle, rfl⟩)⟩
  · next hidle => exact ⟨_, Or.inr (Or.inr ⟨Bool.eq_false_iff.mpr hidle, rfl⟩)⟩

theorem runsOn_best (hqueued : Queued s q) (hruns : runsOn s c = true) :
    (s.processes c).isIdle = false ∧ ∀ pri < processPriorityLevels, q pri ≠ [] → (s.processes c).priority ≤ pri := by
  simp only [runsOn, Bool.and_eq_true, Bool.not_eq_true', Option.all_eq_true_iff_get, decide_eq_true_eq] at hruns
  obtain ⟨⟨hidle, -⟩, hbest⟩ := hruns
  refine ⟨hidle, fun pri hpri hne => ?_⟩
  have hhead : s.runqHead pri ≠ none := by
    rw [(hqueued.list pri hpri).head_eq]
    exact fun hnone => hne (List.head?_eq_none_iff.mp hnone)
  cases hfind : runqBestPriority s with
  | none => exact absurd (runqBestPriority_eq_none.mp hfind pri hpri) hhead
  | some best =>
      have hle : (s.processes c).priority ≤ best := by
        have hget := hbest (by rw [hfind]; rfl)
        simpa [hfind] using hget
      refine hle.trans (Nat.not_lt.mp fun hless => ?_)
      exact hhead ((runqBestPriority_eq_some.mp hfind).2.2 pri hless)

/-- A process that is ready before the switch is not terminated by it. -/
theorem Switched.spares {next : Nat} (hswitch : Switched s₁ s' q₁ q' next) (hcurrent : s.current = some c)
    (hready : (s₁.processes c).state = .ready) (i : Nat) : ¬TickKills s s' i := by
  rintro ⟨hi, -, hzombie⟩
  rw [hcurrent, Option.some.injEq] at hi
  rw [hswitch.state, ← hi, hready] at hzombie
  split at hzombie <;> cases hzombie

/-- The policy of a tick that returns early, as the running process keeps the processor. -/
theorem policy_of_stays (h : TickConsistent s q) (hcurrent : s.current = some c) (hexact : QueuesExact s' q)
    (hidle : s'.idle = s.idle) (hcurrent' : s'.current = some c) (hkept : ∀ j, (s'.processes j).queueKey = (s.processes j).queueKey)
    (hstate : ∀ j, (s'.processes j).state = (s.processes j).state)
    (hbest : ∀ pri < processPriorityLevels, q pri ≠ [] → (s'.processes c).priority ≤ pri) : TickPolicy s s' q q := by
  have hno : ∀ i, ¬TickKills s s' i := by
    rintro i ⟨-, hbefore, hzombie⟩
    rw [hstate, hbefore] at hzombie
    cases hzombie
  refine ⟨⟨hexact, ?_, fun d hd => ?_⟩, Or.inl ⟨c, hcurrent', hbest⟩, fun i => ?_, ?_, fun pri _ => List.filter_sublist⟩
  · obtain ⟨c', hlt, hsome, hused, hstates⟩ := h.current
    rw [hcurrent, Option.some.injEq] at hsome
    rw [← hsome] at hlt hused hstates
    refine ⟨c, hlt, hcurrent', (congrArg (·.1) (hkept c)).trans hused, ?_⟩
    rwa [hstate]
  · rw [hstate]
    exact h.idleAlive d (hidle ▸ hd)
  · have hnone : ¬∃ c', TickKills s s' c' ∧ s.waitingParent c' = some i := by
      rintro ⟨c', hkill, -⟩
      exact hno c' hkill
    have hidles : (s'.processes i).isIdle = (s.processes i).isIdle := congrArg (·.2.1) (hkept i)
    rw [or_iff_left hnone, and_iff_left (hno i), Sched.Active, Sched.Active, hcurrent', hcurrent, hstate, hidles]
  · intro c' hc' _ _ _ hne
    exact absurd (hcurrent'.trans (hcurrent.symm.trans hc')) hne

/-- The policy of a tick in which the running process, the idle one, gives way. -/
theorem policy_of_yield (h : TickConsistent s q) (hcurrent : s.current = some c) (hflag : (s.processes c).isIdle = true)
    (hexact : QueuesExact s₁ q) (hidle : s₁.idle = s.idle)
    (hstate : ∀ j, (s₁.processes j).state = if j = c then .ready else (s.processes j).state) :
    ∃ q', TickPolicy s (switchNext s₁ (some c)) q q' := by
  obtain ⟨q', next, hswitch⟩ := switchNext_switched hexact (some c)
  have hno := hswitch.spares hcurrent ((hstate c).trans (if_pos rfl))
  have hpushed : ∀ i, none = some i ↔ i = c ∧ (s.processes c).state = .running ∧ (s.processes c).isIdle = false := by
    intro i
    simp [hflag]
  refine ⟨q', policy_of_switch hexact hswitch (GrownBy.refl q) (fun d hd _ => ?_) (members_spared hno hcurrent hpushed) ?_⟩
  · rw [hstate]
    split
    · exact ⟨by simp, by simp⟩
    · exact h.idleAlive d (hidle ▸ hd)
  · intro c' hc' _ hbusy
    rw [hcurrent, Option.some.injEq] at hc'
    rw [← hc', hflag] at hbusy
    cases hbusy

/-- The policy of a tick in which the running process has gone behind its queue. -/
theorem policy_of_requeue (h : TickConsistent s q) (hcurrent : s.current = some c) (hrunning : (s.processes c).state = .running)
    (hflag : (s.processes c).isIdle = false) (hlevel : (s.processes c).priority < processPriorityLevels)
    (hexact : QueuesExact s₁ (Function.update q (s.processes c).priority (q (s.processes c).priority ++ [c]))) (hidle : s₁.idle = s.idle)
    (hstate : ∀ j, (s₁.processes j).state = if j = c then .ready else (s.processes j).state) :
    ∃ q', TickPolicy s (switchNext s₁ (some c)) q q' := by
  have hnot : ¬(s.processes c).Runnable := not_runnable_of_state (by simp [hrunning])
  obtain ⟨q', next, hswitch⟩ := switchNext_switched hexact (some c)
  have hno := hswitch.spares hcurrent ((hstate c).trans (if_pos rfl))
  have hpushed : ∀ i, some c = some i ↔ i = c ∧ (s.processes c).state = .running ∧ (s.processes c).isIdle = false := by
    intro i
    simp [hflag, hrunning, eq_comm]
  have hgrown := GrownBy.push hlevel (h.toQueuesExact.not_mem hnot hlevel)
  refine ⟨q', policy_of_switch hexact hswitch hgrown (fun d hd _ => ?_) (members_spared hno hcurrent hpushed) ?_⟩
  · rw [hstate]
    split
    · exact ⟨by simp, by simp⟩
    · exact h.idleAlive d (hidle ▸ hd)
  · intro c' hc' _ _ _ _
    rw [hcurrent, Option.some.injEq] at hc'
    rw [← hc', Function.update_self]
    exact ⟨_, rfl⟩

/-- A running process goes back behind its queue, unless it is the idle one, or keeps the processor. -/
theorem schedule_policy_running (h : TickConsistent s q) (hcurrent : s.current = some c) (hrunning : (s.processes c).state = .running)
    {p : Process} (hkey : p.queueKey = (s.processes c).queueKey) (hnext : p.rqNext = (s.processes c).rqNext)
    (hstate : p.state = (s.processes c).state) : ∃ q', TickPolicy s (schedule (s.set c p)) q q' := by
  obtain ⟨hlt, hused⟩ : c < processMaxCount ∧ (s.processes c).used = true := by
    obtain ⟨c', hlt, hsome, hused, -⟩ := h.current
    rw [hcurrent, Option.some.injEq] at hsome
    exact hsome ▸ ⟨hlt, hused⟩
  have hself : (s.set c p).processes c = p := set_processes_self s c p
  have hidle : p.isIdle = (s.processes c).isIdle := congrArg (·.2.1) hkey
  have hnot : ¬(s.processes c).Runnable := not_runnable_of_state (by simp [hrunning])
  have hset : ∀ p', (s.set c p).set c p' = s.set c p' := fun p' => by simp only [Sched.set, Function.update_idem]
  obtain ⟨slice, hcases⟩ := schedule_running (s := s.set c p) hcurrent (by rw [hself]; exact hstate.trans hrunning)
  rw [hself, hset, hset] at hcases
  have hready : ∀ j, ((s.set c { p with timeSlice := slice, state := .ready }).processes j).state =
      if j = c then .ready else (s.processes j).state := by
    intro j
    by_cases hj : j = c
    · rw [hj, set_processes_self, if_pos rfl]
    · rw [set_processes_of_ne hj, if_neg hj]
  obtain ⟨hstays, heq⟩ | ⟨hflag, heq⟩ | ⟨hflag, heq⟩ := hcases
  · rw [heq]
    have hexact : QueuesExact (s.set c { p with timeSlice := slice }) q := h.toQueuesExact.set_quiet hkey hnext hstate
    obtain ⟨-, hbest⟩ := runsOn_best (h.toQueuesExact.set_quiet hkey hnext hstate).queued hstays
    rw [hself] at hbest
    refine ⟨q, policy_of_stays h hcurrent hexact rfl hcurrent (set_field Process.queueKey hkey) (set_field Process.state hstate) ?_⟩
    rwa [set_processes_self]
  · rw [heq]
    have hexact : QueuesExact (s.set c { p with timeSlice := slice, state := .ready }) q :=
      h.toQueuesExact.set_out (p := { p with timeSlice := slice, state := .ready }) hkey hnext hnot fun hrun => by
        rw [Process.Runnable, hflag] at hrun
        cases hrun.2.1
    exact policy_of_yield h hcurrent (hidle ▸ hflag) hexact rfl hready
  · rw [heq]
    have hrunnable : ({ p with timeSlice := slice, state := .ready } : Process).Runnable := ⟨(congrArg (·.1) hkey).trans hused, hflag, rfl⟩
    have hexact := h.toQueuesExact.push_ready (p := { p with timeSlice := slice, state := .ready }) hlt hkey hnext hnot hrunnable
    have hlinks := runqPush_linksOnly (s.set c { p with timeSlice := slice, state := .ready }) c
    refine policy_of_requeue h hcurrent hrunning (hidle ▸ hflag) (h.priority c hlt hused) hexact hlinks.idle fun j => ?_
    rw [hlinks.field Process.state fun _ => rfl]
    exact hready j

/-- A current process that does not run only gives way. -/
theorem schedule_policy_waiting (h : TickConsistent s q) (hcurrent : s.current = some c) (hwaiting : (s.processes c).state ≠ .running)
    {p : Process} (hkey : p.queueKey = (s.processes c).queueKey) (hnext : p.rqNext = (s.processes c).rqNext)
    (hstate : p.state = (s.processes c).state) : ∃ q', TickPolicy s (schedule (s.set c p)) q q' := by
  have hexact : QueuesExact (s.set c p) q := h.toQueuesExact.set_quiet hkey hnext hstate
  have hschedule : schedule (s.set c p) = switchNext (s.set c p) (some c) := by
    rw [schedule, show (s.set c p).current = some c from hcurrent]
    simp only [set_processes_self, hstate, if_neg hwaiting]
  obtain ⟨q', next, hswitch⟩ := switchNext_switched hexact (some c)
  have hno : ∀ i, ¬TickKills s (switchNext (s.set c p) (some c)) i := by
    rintro i ⟨hi, hrunning, -⟩
    rw [hcurrent, Option.some.injEq] at hi
    exact hwaiting (hi ▸ hrunning)
  have hpushed : ∀ i, none = some i ↔ i = c ∧ (s.processes c).state = .running ∧ (s.processes c).isIdle = false := by
    intro i
    simp [hwaiting]
  rw [hschedule]
  refine ⟨q', policy_of_switch hexact hswitch (GrownBy.refl q) (fun d hd _ => ?_) (members_spared hno hcurrent hpushed) ?_⟩
  · rw [set_field Process.state hstate]
    exact h.idleAlive d hd
  · intro c' hc' hrunning
    rw [hcurrent, Option.some.injEq] at hc'
    exact absurd hrunning (hc' ▸ hwaiting)

theorem idle_flag (h : QueuesExact s q) (hidle : s.idle = some c) : (s.processes c).isIdle = true := by
  obtain ⟨d, -, hsome, -, hflag, -⟩ := h.idle
  rw [hidle, Option.some.injEq] at hsome
  rwa [hsome]

/-- The policy when the idle process has been terminated, and goes on as there is nobody to run instead. -/
theorem policy_of_fallback (hcurrent : s.current = some c) (hflag : (s.processes c).isIdle = true) (hexact : QueuesExact s₁ q₁)
    (hself : s₁.idle = some c) (hall : ∀ pri < processPriorityLevels, q₁ pri = []) (hswitch : Switched s₁ s' q₁ q' c)
    (hgrown : GrownBy q q₁ (s.waitingParent c)) : TickPolicy s s' q q' := by
  have hno : ∀ i, ¬TickKills s s' i := by
    rintro i ⟨hi, -, hafter⟩
    rw [hcurrent, Option.some.injEq] at hi
    rw [hswitch.state, if_pos hi.symm] at hafter
    cases hafter
  have hnobody : ∀ i, ¬((∃ pri < processPriorityLevels, i ∈ q pri) ∨ s.waitingParent c = some i) := by
    intro i hin
    obtain ⟨pri, hpri, hmem⟩ := (hgrown.1 i).mpr hin
    rw [hall pri hpri] at hmem
    exact List.not_mem_nil hmem
  refine policy_of_switch hexact hswitch hgrown (fun d hd hne => ?_) (fun i => iff_of_false (hnobody i) ?_) ?_
  · rw [hself, Option.some.injEq] at hd
    exact absurd hd.symm hne
  · rintro (⟨hin | ⟨hi, -, hbusy⟩, -⟩ | ⟨c', hkill, -⟩)
    · exact hnobody i (Or.inl hin)
    · rw [hcurrent, Option.some.injEq] at hi
      rw [← hi, hflag] at hbusy
      cases hbusy
    · exact hno c' hkill
  · intro c' hc' _ hbusy
    rw [hcurrent, Option.some.injEq] at hc'
    rw [← hc', hflag] at hbusy
    cases hbusy

/-- The members of the queues when the running process is terminated and not picked again. -/
theorem members_killed (h : QueuesExact s q) (hcurrent : s.current = some c) (hrunning : (s.processes c).state = .running)
    (hkills : ∀ i, TickKills s s' i ↔ i = c) (i : Nat) :
    (∃ pri < processPriorityLevels, i ∈ q pri) ∨ s.waitingParent c = some i ↔
      s.Active q i ∧ ¬TickKills s s' i ∨ ∃ c, TickKills s s' c ∧ s.waitingParent c = some i := by
  have hwoken : (∃ c', TickKills s s' c' ∧ s.waitingParent c' = some i) ↔ s.waitingParent c = some i := by
    constructor
    · rintro ⟨c', hkill, hwait⟩
      rwa [(hkills c').mp hkill] at hwait
    · exact fun hwait => ⟨c, (hkills c).mpr rfl, hwait⟩
  rw [hwoken, hkills]
  refine or_congr_left ?_
  constructor
  · rintro ⟨pri, hpri, hin⟩
    refine ⟨Or.inl ⟨pri, hpri, hin⟩, ?_⟩
    rintro rfl
    exact h.not_mem (not_runnable_of_state (by simp [hrunning])) hpri hin
  · rintro ⟨hin | ⟨hi, -⟩, hne⟩
    · exact hin
    · rw [hcurrent, Option.some.injEq] at hi
      exact absurd hi.symm hne

/-- The policy when the current process has been terminated, and its parent pushed if it waited. -/
theorem policy_of_kill (h : TickConsistent s q) (hcurrent : s.current = some c) (hrunning : (s.processes c).state = .running)
    (hexact : QueuesExact s₁ q₁) (hidle : s₁.idle = s.idle) (hzombie : (s₁.processes c).state = .zombie)
    (hothers : ∀ d, s.idle = some d → d ≠ c → (s₁.processes d).state.Alive) (hgrown : GrownBy q q₁ (s.waitingParent c))
    (hempty : (s.processes c).isIdle = true → ∀ pri < processPriorityLevels, q₁ pri = []) :
    ∃ q', TickPolicy s (switchNext s₁ (some c)) q q' := by
  obtain ⟨q', next, hswitch⟩ := switchNext_switched hexact (some c)
  by_cases hnext : next = c
  · rw [hnext] at hswitch
    obtain ⟨hself, hall, -⟩ | ⟨best, hbest, rest, hcons, -, -⟩ := hswitch.picks
    · have hflag := idle_flag h.toQueuesExact (hidle ▸ hself)
      exact ⟨q', policy_of_fallback hcurrent hflag hexact hself hall hswitch hgrown⟩
    · have hqueued : c ∈ q₁ best := by simp [hcons]
      exact absurd hqueued (hexact.not_mem (not_runnable_of_state (by simp [hzombie])) hbest)
  · have hkills : ∀ i, TickKills s (switchNext s₁ (some c)) i ↔ i = c := by
      intro i
      rw [TickKills, hcurrent, Option.some.injEq]
      constructor
      · exact fun hkill => hkill.1.symm
      · rintro rfl
        refine ⟨rfl, hrunning, ?_⟩
        rw [hswitch.state, if_neg (Ne.symm hnext), hzombie]
    have hbusy : (s.processes c).isIdle = false := by
      by_contra hflag
      rw [Bool.not_eq_false] at hflag
      obtain ⟨hself, -, -⟩ | ⟨best, hbest, rest, hcons, -, -⟩ := hswitch.picks
      · obtain ⟨c', hlt, hsome, hused, -⟩ := h.current
        rw [hcurrent, Option.some.injEq] at hsome
        obtain ⟨d, -, hd, -, -, honly⟩ := h.idle
        rw [hidle, hd, Option.some.injEq] at hself
        exact hnext (hself.symm.trans (honly c (hsome ▸ hlt) (hsome ▸ hused) hflag).symm)
      · rw [hempty hflag best hbest] at hcons
        cases hcons
    have hmembers := members_killed h.toQueuesExact hcurrent hrunning hkills
    refine ⟨q', policy_of_switch hexact hswitch hgrown (fun d hd _ => hothers d (hidle ▸ hd) ?_) hmembers ?_⟩
    · rintro rfl
      rw [idle_flag h.toQueuesExact (hidle ▸ hd)] at hbusy
      cases hbusy
    · intro c' hc' _ _ hkept
      rw [hcurrent, Option.some.injEq] at hc'
      exact absurd ((hkills c').mpr hc'.symm) hkept

/-- The state behind the termination of the current process, before the switch. -/
theorem killed_state (hcurrent : s.current = some c) (hrunning : (s.processes c).state = .running) {p : Process}
    (hzombie : p.state = .zombie) {s₁ : Sched}
    (hs₁ : s₁ = match s.waitingParent c with
      | none => s.set c p
      | some i => runqPush ((s.set c p).setState i .ready) i) :
    s₁.current = some c ∧ s₁.idle = s.idle ∧ (∀ d, (s₁.processes d).state = if d = c then .zombie else
      if s.waitingParent c = some d then .ready else (s.processes d).state) ∧ c ∉ s.waitingParent c := by
  have hself : c ∉ s.waitingParent c := by
    intro hmem
    rw [(waitingParent_some hmem).2.2] at hrunning
    cases hrunning
  have hset : ∀ d, ((s.set c p).processes d).state = if d = c then .zombie else (s.processes d).state := by
    intro d
    by_cases hd : d = c
    · rw [hd, set_processes_self, if_pos rfl, hzombie]
    · rw [set_processes_of_ne hd, if_neg hd]
  cases hparent : s.waitingParent c with
  | none =>
      rw [hparent] at hs₁
      rw [hs₁]
      refine ⟨hcurrent, rfl, fun d => ?_, by simp⟩
      rw [hset]
      simp
  | some i =>
      have hci : c ≠ i := fun heq => hself (heq ▸ hparent)
      rw [hparent] at hs₁
      have hlinks := runqPush_linksOnly ((s.set c p).setState i .ready) i
      rw [hs₁]
      refine ⟨hlinks.current.trans hcurrent, hlinks.idle, fun d => ?_, by simpa using hci.symm⟩
      rw [hlinks.field Process.state fun _ => rfl, Sched.setState]
      by_cases hd : d = i
      · rw [hd, set_processes_self, if_neg hci.symm, if_pos rfl]
      · rw [set_processes_of_ne hd, hset, if_neg fun heq => hd (Option.some.inj heq).symm]

theorem schedule_policy_killed (h : TickConsistent s q) (hcurrent : s.current = some c) (hrunning : (s.processes c).state = .running)
    (hfatal : s.Fatal c) (hspares : SparesIdle s q) : ∃ q', TickPolicy s (schedule (deliverSignal s).2) q q' := by
  obtain ⟨p, hkey, hnext, hzombie, heq⟩ := deliverSignal_killed hcurrent hrunning hfatal
  obtain ⟨hcurrent₁, hidle₁, hstate₁, hself⟩ := killed_state hcurrent hrunning hzombie heq
  obtain ⟨hparent, hempty⟩ := hspares c hcurrent hrunning hfatal
  have hnot : ¬(s.processes c).Runnable := not_runnable_of_state (by simp [hrunning])
  have hschedule : schedule (deliverSignal s).2 = switchNext (deliverSignal s).2 (some c) := by
    rw [schedule, hcurrent₁]
    simp [hstate₁]
  have hzombie₁ : ((deliverSignal s).2.processes c).state = .zombie := by
    rw [hstate₁, if_pos rfl]
  have hothers : ∀ d, s.idle = some d → d ≠ c → ((deliverSignal s).2.processes d).state.Alive := by
    intro d hd hne
    rw [hstate₁, if_neg hne]
    split
    · exact ⟨by simp, by simp⟩
    · exact h.idleAlive d hd
  have hexact₀ : QueuesExact (s.set c p) q := h.toQueuesExact.set_out hkey hnext hnot (not_runnable_of_state (by simp [hzombie]))
  rw [hschedule]
  cases hwait : s.waitingParent c with
  | none =>
      rw [hwait] at heq
      have hexact : QueuesExact (deliverSignal s).2 q := by
        rw [heq]
        exact hexact₀
      exact policy_of_kill h hcurrent hrunning hexact hidle₁ hzombie₁ hothers (hwait ▸ GrownBy.refl q) fun hflag => (hempty hflag).2
  | some i =>
      obtain ⟨hlt, hused, hblocked⟩ := waitingParent_some hwait
      have hci : i ≠ c := fun heq => hself (heq ▸ hwait)
      have hslot : (s.set c p).processes i = s.processes i := set_processes_of_ne hci p
      have hbusy : (s.processes i).isIdle = false := by
        by_contra hflag
        rw [Bool.not_eq_false] at hflag
        obtain ⟨d, -, hd, -, -, honly⟩ := h.idle
        exact hparent (hwait.trans (hd.trans (congrArg some (honly i hlt hused hflag).symm)).symm)
      have hlevel := h.priority i hlt hused
      have hout : ¬(s.processes i).Runnable := not_runnable_of_state (by simp [hblocked])
      have hexact := hexact₀.push_ready (i := i) (p := { (s.set c p).processes i with state := .ready }) hlt rfl rfl (by rw [hslot]; exact hout)
        (by rw [hslot]; exact ⟨hused, hbusy, rfl⟩)
      rw [hslot] at hexact
      simp only [hwait] at heq
      have hgrown := GrownBy.push hlevel (h.toQueuesExact.not_mem hout hlevel)
      have hexact₁ : QueuesExact (deliverSignal s).2 (Function.update q (s.processes i).priority (q (s.processes i).priority ++ [i])) := by
        rw [heq, Sched.setState, hslot]
        exact hexact
      refine policy_of_kill h hcurrent hrunning hexact₁ hidle₁ hzombie₁ hothers (hwait ▸ hgrown) fun hflag => ?_
      rw [(hempty hflag).1] at hwait
      cases hwait

/-- With anybody queued the switch leaves a process alone that is in no queue. -/
theorem switchNext_others {pri : Nat} (hqueued : Queued s q) (hpri : pri < processPriorityLevels) (hne : q pri ≠ [])
    (hout : ∀ p < processPriorityLevels, c ∉ q p) (cur : Option Nat) : ((switchNext s cur).processes c).state = (s.processes c).state := by
  rcases runqPop_queued hqueued with ⟨hempty, -, -⟩ | ⟨best, hbest, i, rest, hcons, -, hsome, -⟩
  · exact absurd (hempty pri hpri) hne
  · have hci : c ≠ i := by
      rintro rfl
      exact hout best hbest (by simp [hcons])
    simp only [switchNext, hsome, Option.some_or, Sched.setState]
    rw [set_processes_of_ne hci]
    exact (runqPop_linksOnly s).field Process.state (fun _ => rfl) c

/-- A process that a tick terminates stays terminated when there is anybody else to run. -/
theorem tickKills_of_fatal (h : TickConsistent s q) (hcurrent : s.current = some c) (hrunning : (s.processes c).state = .running)
    (hfatal : s.Fatal c) (hsome : s.waitingParent c ≠ none ∨ ∃ pri < processPriorityLevels, q pri ≠ []) :
    TickKills s (processScheduleTick s).2 c := by
  obtain ⟨p, hkey, hnext, hzombie, heq⟩ := deliverSignal_killed hcurrent hrunning hfatal
  obtain ⟨hcurrent₁, -, hstate₁, hself⟩ := killed_state hcurrent hrunning hzombie heq
  have hnot : ¬(s.processes c).Runnable := not_runnable_of_state (by simp [hrunning])
  have hout : ∀ pri < processPriorityLevels, c ∉ q pri := fun pri hpri => h.toQueuesExact.not_mem hnot hpri
  have hzombie₁ : ((deliverSignal s).2.processes c).state = .zombie := by
    rw [hstate₁, if_pos rfl]
  have hqueued₀ : Queued (s.set c p) q := h.queued.set_same hnext (congrArg (·.2.2.2) hkey)
  refine ⟨hcurrent, hrunning, ?_⟩
  have hschedule : (processScheduleTick s).2 = switchNext (deliverSignal s).2 (some c) := by
    rw [processScheduleTick, schedule, hcurrent₁]
    simp [hstate₁]
  rw [hschedule]
  cases hwait : s.waitingParent c with
  | none =>
      obtain ⟨pri, hpri, hne⟩ := hsome.resolve_left fun hwaits => hwaits hwait
      simp only [hwait] at heq
      rw [← hzombie₁]
      exact switchNext_others (heq ▸ hqueued₀) hpri hne hout _
  | some i =>
      obtain ⟨hlt, hused, hblocked⟩ := waitingParent_some hwait
      have hci : i ≠ c := fun heq => hself (heq ▸ hwait)
      have hlevel := h.priority i hlt hused
      have hslot : ((s.set c p).setState i .ready).processes i = { s.processes i with state := .ready } := by
        rw [Sched.setState, set_processes_self, set_processes_of_ne hci]
      have hiout := h.toQueuesExact.not_mem (not_runnable_of_state (p := s.processes i) (by simp [hblocked])) hlevel
      have hpushed := runqPush_queued (s := (s.set c p).setState i .ready) (q := q) (i := i)
        (hqueued₀.set_same rfl rfl) hlt (by rw [hslot]; exact hlevel) (by rw [hslot]; exact hiout)
      rw [hslot] at hpushed
      simp only [hwait] at heq
      rw [← hzombie₁]
      refine switchNext_others (heq ▸ hpushed) hlevel ?_ (fun pri hpri => ?_) _
      · rw [Function.update_self]
        simp
      · by_cases hp : pri = (s.processes i).priority
        · rw [hp, Function.update_self, List.mem_append, List.mem_singleton]
          exact not_or.mpr ⟨hout _ hlevel, hci.symm⟩
        · rw [Function.update_of_ne hp]
          exact hout pri hpri

theorem processScheduleTick_idle (s : Sched) : (processScheduleTick s).2.idle = s.idle := by
  have hswitch : ∀ (t : Sched) cur, (switchNext t cur).idle = t.idle := by
    intro t cur
    have hidle := (runqPop_linksOnly t).idle
    rcases hpop : runqPop t with ⟨popped, t'⟩
    rw [hpop] at hidle
    simp only [switchNext, hpop]
    split <;> exact hidle
  have hdeliver := (deliverSignal_kept s).idle
  rw [processScheduleTick]
  rcases schedule_cases (deliverSignal s).2 with ⟨-, heq⟩ | ⟨c, -, ⟨-, heq⟩ | ⟨-, slice, heq | ⟨-, heq⟩ | ⟨-, heq⟩⟩⟩
  · rw [heq, hswitch, hdeliver]
  · rw [heq, hswitch, hdeliver]
  · rw [heq]
    exact hdeliver
  · rw [heq, hswitch]
    exact hdeliver
  · rw [heq, hswitch, (runqPush_linksOnly _ c).idle]
    exact hdeliver

end Tick

/-- In a consistent state a tick keeps to the policy exactly when no signal gets at the idle process. -/
theorem tick_policy_iff {s : Sched} {q : Nat → List Nat} (h : TickConsistent s q) :
    (∃ q', TickPolicy s (processScheduleTick s).2 q q') ↔ SparesIdle s q := by
  constructor
  · rintro ⟨q', hpolicy⟩ c hcurrent hrunning hfatal
    have hexact' := hpolicy.consistent.toQueuesExact
    obtain ⟨d, hd, hidle, hdused, hdflag, honly⟩ := h.idle
    have hidle' : (processScheduleTick s).2.idle = some d := (processScheduleTick_idle s).trans hidle
    have hdflag' := idle_flag hexact' hidle'
    constructor
    · intro hparent
      have hkill := tickKills_of_fatal h hcurrent hrunning hfatal (Or.inl (by rw [hparent, hidle]; exact nofun))
      obtain ⟨pri, hpri, hin⟩ | ⟨-, -, hbusy⟩ := (hpolicy.members d).mpr (Or.inr ⟨c, hkill, hparent.trans hidle⟩)
      · have hready := ((hexact'.holds pri hpri d hd).mp hin).1
        rw [hready.2.1] at hdflag'
        cases hdflag'
      · rw [hbusy] at hdflag'
        cases hdflag'
    · intro hflag
      obtain ⟨c', hlt, hsome, hused, -⟩ := h.current
      rw [hcurrent, Option.some.injEq] at hsome
      have hcd : c = d := honly c (hsome ▸ hlt) (hsome ▸ hused) hflag
      by_contra hfound
      have hkill := tickKills_of_fatal h hcurrent hrunning hfatal (by
        by_contra hnobody
        push Not at hnobody
        exact hfound hnobody)
      exact (hpolicy.consistent.idleAlive d hidle').1 (hcd ▸ hkill.2.2)
  · intro hspares
    obtain ⟨c, -, hcurrent, -, -⟩ := h.current
    by_cases hkilled : (s.processes c).state = .running ∧ s.Fatal c
    · exact schedule_policy_killed h hcurrent hkilled.1 hkilled.2 hspares
    · obtain ⟨p, heq, hkey, hnext, hstate⟩ := deliverSignal_spared hcurrent fun hrunning hfatal => hkilled ⟨hrunning, hfatal⟩
      rw [processScheduleTick, heq]
      by_cases hrunning : (s.processes c).state = .running
      · exact schedule_policy_running h hcurrent hrunning hkey hnext hstate
      · exact schedule_policy_waiting h hcurrent hrunning hkey hnext hstate

/-- Slot 1, the idle process, runs with these signals pending, and slot 0 waits in the queue of priority 128. -/
def idleRuns (pending : BitVec 64) : Sched where
  processes i :=
    if i = 0 then { Process.zeroed with used := true, pid := 1, state := .ready, kernelStack := true, priority := 128, timeSlice := 4 }
    else if i = 1 then
      { Process.zeroed with
        used := true, pid := 2, state := .running, isIdle := true, kernelStack := true, priority := 128, signalPending := pending }
    else Process.zeroed
  current := some 1
  idle := some 1
  runqHead pri := if pri = 128 then some 0 else none
  runqTail pri := if pri = 128 then some 0 else none
  nextPid := 3

theorem idleRuns_consistent (pending : BitVec 64) : TickConsistent (idleRuns pending) fun pri => if pri = 128 then [0] else [] := by
  have hfree : ∀ n, (idleRuns pending).processes (n + 2) = Process.zeroed := fun n => rfl
  refine ⟨⟨⟨fun pri _ => ?_, fun pri _ => ?_, fun pri _ i hi => ?_⟩, fun pri _ i _ => ?_, fun i _ hi => ?_, fun i _ hi => ?_,
    1, by decide, rfl, rfl, rfl, fun i _ hi hflag => ?_⟩, ⟨1, by decide, rfl, rfl, Or.inl rfl⟩, fun d hd => ?_⟩
  · by_cases hpri : pri = 128
    · simp only [if_pos hpri, isList_cons, isList_nil, idleRuns]
      exact ⟨trivial, rfl⟩
    · simp only [if_neg hpri, isList_nil, idleRuns]
  · by_cases hpri : pri = 128
    · simp [idleRuns, hpri]
    · simp [idleRuns, hpri]
  · by_cases hpri : pri = 128
    · rw [if_pos hpri, List.mem_singleton] at hi
      rw [hi]
      exact ⟨by decide, hpri.symm⟩
    · rw [if_neg hpri] at hi
      cases hi
  · obtain _ | _ | n := i
    · by_cases hpri : pri = 128
      · simp [idleRuns, Process.Runnable, Process.zeroed, hpri]
      · simp [idleRuns, Process.Runnable, hpri, Ne.symm hpri]
    · simp [idleRuns, Process.Runnable]
    · simp [hfree, Process.Runnable, Process.zeroed]
  · obtain _ | _ | n := i
    · exact (by decide : 128 < processPriorityLevels)
    · exact (by decide : 128 < processPriorityLevels)
    · cases hi
  · obtain _ | _ | n := i
    · rfl
    · rfl
    · cases hi
  · obtain _ | _ | n := i
    · cases hflag
    · rfl
    · cases hi
  · cases hd
    constructor
    · intro hzombie
      cases hzombie
    · intro hdead
      cases hdead

theorem tick_policy_iff_quiet : ∃ q', TickPolicy (idleRuns 0#64) (processScheduleTick (idleRuns 0#64)).2 (fun pri => if pri = 128 then [0] else []) q' := by
  refine (tick_policy_iff (idleRuns_consistent 0#64)).mpr fun c hcurrent _ hfatal => ?_
  cases hcurrent
  obtain ⟨sig, hpick, -⟩ := hfatal
  have hnone : signalPickLowest ((idleRuns 0#64).processes 1).signalPending = none := by decide
  rw [show ((idleRuns 0#64).processes 1).signalPending &&& ~~~((idleRuns 0#64).processes 1).signalMask =
    ((idleRuns 0#64).processes 1).signalPending by decide, hnone] at hpick
  cases hpick

/-- Signal 15 terminates the idle process, which is left a zombie. -/
theorem tick_terminates_idle :
    ¬∀ (s : Sched) (q : Nat → List Nat), TickConsistent s q → ∃ q', TickPolicy s (processScheduleTick s).2 q q' := by
  intro hall
  obtain ⟨q', hpolicy⟩ := hall _ _ (idleRuns_consistent (BitVec.twoPow 64 15))
  have hidle : (processScheduleTick (idleRuns (BitVec.twoPow 64 15))).2.idle = some 1 := processScheduleTick_idle _
  have hzombie : ((processScheduleTick (idleRuns (BitVec.twoPow 64 15))).2.processes 1).state = .zombie := by decide
  exact (hpolicy.consistent.idleAlive 1 hidle).1 hzombie

end Tsukasa
