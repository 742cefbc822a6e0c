import Tsukasa.Proc.SchedInv

/-!
# The calls and the scheduler's invariant

Each critical section of `proc/process.c` keeps the scheduler's invariant from the states in which it does not go wrong: a process in a run queue is not terminated or blocked, the idle process is not queued or blocked, and the process a tick queues again is in use.
-/

namespace Tsukasa

/-! ### Creation -/

/-- The new process as it is before it is linked and queued. -/
def newProcess (s : Sched) (parent : Option Nat) (i : Nat) : Process :=
  let zeroed := { Process.zeroed with used := true, pid := s.nextPid }
  { zeroed with
    ppid := parent.elim 0 fun q => if q = i then s.nextPid else (s.processes q).pid
    pgid := s.nextPid
    state := .ready
    priority := parent.elim processDefaultPriority fun q => if q = i then 0 else (s.processes q).priority
    timeSlice := processDefaultTimeslice }

theorem createKernelProcess_of_slot {s : Sched} {i : Nat} (parent : Option Nat) (ok : Bool) (h : allocProcessSlot s = some i) :
    createKernelProcess s parent ok =
      (let s' := { s with nextPid := wrap32 (s.nextPid + 1) }
      if ok then
        (some i, runqPush (parent.elim (s'.set i { newProcess s parent i with kernelStack := true })
          fun q => parentLinkChild (s'.set i { newProcess s parent i with kernelStack := true }) q i) i)
      else (none, s'.set i { newProcess s parent i with used := false })) := by
  have hset : ∀ (s : Sched) (p p' : Process), (s.set i p).set i p' = s.set i p' := by
    intro s p p'
    simp only [Sched.set, Function.update_idem]
  have hnew : ∀ pid : Nat, ({ s.set i { Process.zeroed with used := true, pid := s.nextPid } with nextPid := pid } : Sched) =
      ({ s with nextPid := pid } : Sched).set i { Process.zeroed with used := true, pid := s.nextPid } := fun _ => rfl
  simp only [createKernelProcess, h]
  rw [hnew]
  simp only [hset, set_processes_self]
  have hparent : ∀ {α : Type} (f : Process → α) (q : Nat),
      f ((s.set i { Process.zeroed with used := true, pid := s.nextPid }).processes q) =
        if q = i then f { Process.zeroed with used := true, pid := s.nextPid } else f (s.processes q) := by
    intro α f q
    by_cases heq : q = i
    · rw [heq, set_processes_self, if_pos rfl]
    · rw [set_processes_of_ne heq, if_neg heq]
  simp only [hparent Process.pid, hparent Process.priority]
  rfl

theorem allocProcessSlot_some {s : Sched} {i : Nat} (h : allocProcessSlot s = some i) :
    i < processMaxCount ∧ (s.processes i).used = false := by
  have hmem := List.mem_of_find?_eq_some h
  have hfound := List.find?_some h
  exact ⟨List.mem_range.mp hmem, by simpa using hfound⟩

theorem newProcess_priority {s : Sched} (h : SchedInv s) (parent : Option Nat) (i : Nat) :
    (newProcess s parent i).priority < processPriorityLevels := by
  cases parent with
  | none => exact Nat.lt_of_sub_eq_succ rfl
  | some q =>
      simp only [newProcess, Option.elim_some]
      split
      · decide
      · exact h.holds.priority q

theorem createKernelProcess_schedInv {s : Sched} (h : SchedInv s) (parent : Option Nat) (ok : Bool) :
    SchedInv (createKernelProcess s parent ok).2 := by
  cases hslot : allocProcessSlot s with
  | none => simpa only [createKernelProcess, hslot] using h
  | some i =>
      obtain ⟨hlt, hunused⟩ := allocProcessSlot_some hslot
      have hout : ¬(s.processes i).Runnable := by simp [Process.Runnable, hunused]
      have hprio := newProcess_priority h parent i
      have hpid : SchedInv { s with nextPid := wrap32 (s.nextPid + 1) } := ⟨h.holds.of_same (fun _ => rfl) (fun _ => rfl) rfl rfl,
        h.current, h.idle, h.idleAwake⟩
      rw [createKernelProcess_of_slot parent ok hslot]
      cases ok with
      | false => exact hpid.set_out hout (by simp [Process.Runnable]) hprio (by simp [newProcess])
      | true =>
          refine hpid.set_push (p := { newProcess s parent i with kernelStack := true }) hlt hout ⟨rfl, rfl, rfl⟩ hprio ?_
          cases parent with
          | none => exact ChildLinks.refl _
          | some q => exact parentLinkChild_childLinks _ q i

/-- A process without any links. -/
def Process.bare (p : Process) : Process := { p.core with childrenHead := none, parentNextChild := none }

/-- The processes after a creation, links aside. -/
theorem createKernelProcess_bare {s : Sched} {i : Nat} (parent : Option Nat) (ok : Bool) (hslot : allocProcessSlot s = some i) (j : Nat) :
    ((createKernelProcess s parent ok).2.processes j).bare =
      if j = i then { newProcess s parent i with used := ok, kernelStack := ok }.bare else (s.processes j).bare := by
  have hset : ∀ (s : Sched) (p : Process), ((s.set i p).processes j).bare = if j = i then p.bare else (s.processes j).bare := by
    intro s p
    by_cases heq : j = i
    · rw [heq, set_processes_self, if_pos rfl]
    · rw [set_processes_of_ne heq, if_neg heq]
  rw [createKernelProcess_of_slot parent ok hslot]
  cases ok with
  | false => exact hset _ _
  | true =>
      refine ((runqPush_linksOnly _ i).field Process.bare (fun _ => rfl) j).trans ?_
      cases parent with
      | none => exact hset _ _
      | some q => exact ((parentLinkChild_childLinks _ q i).field Process.bare (fun _ _ _ => rfl) j).trans (hset _ _)

theorem createKernelProcess_some {s s' : Sched} {i : Nat} {parent : Option Nat} {ok : Bool}
    (h : createKernelProcess s parent ok = (some i, s')) : allocProcessSlot s = some i := by
  cases hslot : allocProcessSlot s with
  | none => simp [createKernelProcess, hslot] at h
  | some k =>
      rw [createKernelProcess_of_slot parent ok hslot] at h
      cases ok with
      | false => simp at h
      | true => exact (Prod.mk.inj h).1

/-- What `process_init` does to make the process it has created the idle process. -/
theorem retire_schedInv {s : Sched} {i : Nat} (h : SchedInv s) (hlt : i < processMaxCount)
    (hstate : (s.processes i).state ≠ .blocked) :
    SchedInv (runqRemove { s.set i { s.processes i with isIdle := true } with idle := some i } i) := by
  have hholds : Holds { s.set i { s.processes i with isIdle := true } with idle := some i } s.runnable :=
    (h.holds.set_same (i := i) (p := { s.processes i with isIdle := true }) rfl rfl).of_same (fun _ => rfl) (fun _ => rfl) rfl rfl
  have hlinks := runqRemove_linksOnly { s.set i { s.processes i with isIdle := true } with idle := some i } i
  refine ⟨(hholds.remove i).congr fun j _ => ?_, ?_, ?_, fun j hj => ?_⟩
  · rw [hlinks.runnable, Set.mem_sdiff, Set.mem_singleton_iff]
    change _ ↔ j ∈ (s.set i { s.processes i with isIdle := true }).runnable
    rw [runnable_set_mem]
    split
    · rename_i heq
      simp [heq, Process.Runnable]
    · rename_i hne
      exact and_iff_left hne
  · rw [hlinks.current]
    exact h.current
  · rw [hlinks.idle]
    rintro j hj
    cases hj
    exact hlt
  · rw [hlinks.field Process.isIdle fun _ => rfl] at hj
    rw [hlinks.field Process.state fun _ => rfl]
    change ((s.set i { s.processes i with isIdle := true }).processes j).state ≠ .blocked
    change ((s.set i { s.processes i with isIdle := true }).processes j).isIdle = true at hj
    by_cases heq : j = i
    · rw [heq, set_processes_self]
      exact hstate
    · rw [set_processes_of_ne heq] at hj ⊢
      exact h.idleAwake j hj

theorem processInit_schedInv (vmOk idleOk : Bool) : SchedInv (processInit vmOk idleOk) := by
  have hempty : SchedInv
      { processes := fun _ => Process.zeroed, current := none, idle := none, runqHead := fun _ => none, runqTail := fun _ => none,
        nextPid := 1 } := by
    refine ⟨⟨⟨fun _ => [], ⟨fun _ _ => Lib.Linked.isList_nil.mpr rfl, fun _ _ => rfl, by simp⟩, fun i _ => ?_⟩, fun i => ?_⟩,
      by simp, by simp, fun i hi => ?_⟩
    · simp [Sched.runnable, Process.Runnable, Process.zeroed]
    · simp [Process.zeroed, processPriorityLevels]
    · simp [Process.zeroed] at hi
  have hfirst := hempty.set_out (i := 0) (p := { Process.zeroed with
    used := true, pid := 1, pgid := 1, state := .blocked, priority := processDefaultPriority,
    timeSlice := processDefaultTimeslice }) (by simp [Process.Runnable, Process.zeroed]) (by simp [Process.Runnable])
    (by simp [processDefaultPriority, processPriorityLevels]) (by simp [Process.zeroed])
  simp only [processInit]
  generalize Sched.set _ 0 _ = s at hfirst
  cases vmOk with
  | false => exact ⟨hfirst.holds.of_same (fun _ => rfl) (fun _ => rfl) rfl rfl, hfirst.current, hfirst.idle, hfirst.idleAwake⟩
  | true =>
      have hcurrent : SchedInv { s with current := some 0, nextPid := 2 } := by
        refine ⟨hfirst.holds.of_same (fun _ => rfl) (fun _ => rfl) rfl rfl, fun c hc => ?_, hfirst.idle, hfirst.idleAwake⟩
        cases hc
        decide
      have hcreated := createKernelProcess_schedInv hcurrent none idleOk
      rw [if_pos rfl]
      split
      · rename_i i s' heq
        have hslot := createKernelProcess_some heq
        have hbare := createKernelProcess_bare none idleOk hslot i
        rw [heq] at hcreated hbare
        rw [if_pos rfl] at hbare
        have hstate : (s'.processes i).state = .ready := (congrArg Process.state hbare :)
        exact retire_schedInv hcreated (allocProcessSlot_some hslot).1 (by simp [hstate])
      · rename_i s' heq
        rwa [heq] at hcreated

/-! ### Calls -/

section Calls

variable {s : Sched}

theorem processExec_schedInv (h : SchedInv s) (pid : Int) : SchedInv (processExec s pid).2 := by
  simp only [processExec]
  split
  · exact h
  split
  · exact h
  split
  · exact h
  · exact h.set_quiet rfl rfl rfl rfl rfl

theorem processSignalRegister_schedInv (h : SchedInv s) (pid sig : Int) (handler : Nat) :
    SchedInv (processSignalRegister s pid sig handler).2 := by
  simp only [processSignalRegister]
  split
  · exact h
  split
  · exact h
  split
  · exact h
  · exact h.set_quiet rfl rfl rfl rfl rfl

theorem processSignalMask_schedInv (h : SchedInv s) (pid : Int) (how : MaskHow) (set : BitVec 64) :
    SchedInv (processSignalMask s pid how set).2 := by
  simp only [processSignalMask]
  split
  · exact h
  · exact h.set_quiet rfl rfl rfl rfl rfl

theorem processYield_schedInv (h : SchedInv s) : SchedInv (processYield s) := by
  rw [processYield]
  split
  · exact h
  · exact h.set_quiet rfl rfl rfl rfl rfl

theorem processExitCurrent_schedInv (h : SchedInv s) (code : BitVec 32)
    (hout : ∀ c, s.current = some c → ¬(s.processes c).Runnable) : SchedInv (processExitCurrent s code).2 := by
  rw [processExitCurrent]
  split
  · exact h
  · rename_i c hc
    exact markZombie_schedInv h (hout c hc) _

theorem processKill_schedInv (h : SchedInv s) {pid sig : Int}
    (hout : sig = processSigkill → ∀ i, findByPid s pid = some i → ¬(s.processes i).Runnable) :
    SchedInv (processKill s pid sig).2 := by
  simp only [processKill]
  split
  · exact h
  split
  · exact h
  rename_i i hi
  split
  · exact h
  split
  · exact h
  split
  · exact h
  · obtain ⟨hlt, hused, -⟩ := findByPid_some hi
    refine postSignal_schedInv h hlt hused fun hsig => hout ?_ i hi
    simp only [processSigkill] at hsig ⊢
    omega

theorem processSetPriority_schedInv (h : SchedInv s) {pid : Int} {priority : Nat}
    (hidle : ∀ i, findByPid s pid = some i → (s.processes i).state = .ready → (s.processes i).isIdle = false) :
    SchedInv (processSetPriority s pid priority).2 := by
  simp only [processSetPriority]
  split
  · exact h
  rename_i hargs
  have hprio : priority < processPriorityLevels := by omega
  split
  · exact h
  rename_i i hi
  obtain ⟨hlt, hused, -⟩ := findByPid_some hi
  split
  · exact h
  by_cases hready : (s.processes i).state = .ready
  · have hlinks := runqRemove_linksOnly s i
    have hstate : ((runqRemove s i).processes i).state = .ready := by rw [hlinks.field Process.state fun _ => rfl, hready]
    have hnot : i ∉ s.runnable \ {i} := by simp
    simp only [hready, if_pos, set_processes_self, hstate]
    refine SchedInv.push ((h.holds.remove i).set_out hnot hprio) hlt hnot (fun j => ?_) ?_ ?_ fun j hj => ?_
    · rw [runnable_set_mem, hlinks.runnable, Set.mem_sdiff, Set.mem_singleton_iff]
      split
      · rename_i heq
        refine iff_of_true ⟨?_, ?_, rfl⟩ (Or.inl heq)
        · rw [← hused]
          exact hlinks.field Process.used (fun _ => rfl) i
        · rw [← hidle i hi hready]
          exact hlinks.field Process.isIdle (fun _ => rfl) i
      · rename_i hne
        exact ⟨fun hrun => Or.inr ⟨hrun, hne⟩, fun hrun => (hrun.resolve_left hne).1⟩
    · exact hlinks.current ▸ h.current
    · exact hlinks.idle ▸ h.idle
    · by_cases heq : j = i
      · rw [heq, set_processes_self]
        simp
      · rw [set_processes_of_ne heq, hlinks.field Process.isIdle fun _ => rfl] at hj
        rw [set_processes_of_ne heq, hlinks.field Process.state fun _ => rfl]
        exact h.idleAwake j hj
  · simp only [if_neg hready, set_processes_self]
    exact h.set_out (not_runnable_of_state hready) (not_runnable_of_state hready) hprio (h.idleAwake i)

theorem waitScan_zombie {caller : Nat} {target : Int} {fuel : Nat} {next : Option Nat} {matched : Bool} {child : Nat}
    (h : (waitScan s caller target fuel next matched).1 = some child) : (s.processes child).state = .zombie := by
  induction fuel generalizing next matched with
  | zero => simp [waitScan] at h
  | succ fuel ih =>
      cases next with
      | none => simp [waitScan] at h
      | some c =>
          simp only [waitScan] at h
          split at h
          · rename_i hhit
            simp only [Bool.and_eq_true, decide_eq_true_eq] at hhit
            cases h
            exact hhit.2
          · exact ih h

theorem processWaitpid_schedInv (h : SchedInv s) {callerPid targetPid : Int} {nohang : Bool}
    (hblock : nohang = false → ∀ c, s.current = some c → asInt (s.processes c).pid = callerPid →
      (s.processes c).state ≠ .ready ∧ (s.processes c).isIdle = false) :
    SchedInv (processWaitpid s callerPid targetPid nohang).2 := by
  simp only [processWaitpid]
  split
  · exact h
  rename_i caller hcaller
  split
  · rename_i child _ hscan
    have hzombie : (s.processes child).state = .zombie := waitScan_zombie (congrArg Prod.fst hscan)
    have hlinks := parentUnlinkChild_childLinks s caller child
    have hinv := hlinks.schedInv h
    refine hinv.set_out ?_ (by simp [Process.Runnable]) (hinv.holds.priority child) (by simp)
    rw [hlinks.field Process.Runnable fun _ _ _ => rfl]
    exact not_runnable_of_state (by simp [hzombie])
  · exact h
  split
  · exact h
  rename_i hnohang
  split
  · rename_i c hc
    split
    · rename_i hpid
      have hcond := hblock (by simpa using hnohang) c hc (by rw [hpid]; exact (findByPid_some hcaller).2.2)
      refine h.set_out (not_runnable_of_state hcond.1) (by simp [Process.Runnable]) (h.holds.priority c) fun hidle => ?_
      simp [hcond.2] at hidle
    · exact h
  · exact h

/-! ### The tick -/

/-- The process taken to be run next, from a state whose queues no longer hold it. -/
theorem makeCurrent_schedInv {s' : Sched} {next : Nat} {R : Set Nat} (h : SchedInv s) (hlinks : LinksOnly s s') (hholds : Holds s' R)
    (hnext : next ∉ R) (hlt : next < processMaxCount) (hR : ∀ j < processMaxCount, j ∈ R ↔ j ∈ s.runnable ∧ j ≠ next) :
    SchedInv { s'.setState next .running with current := some next } := by
  have hset : Holds (s'.setState next .running) R := hholds.set_out hnext (hholds.priority next)
  have hrun : ∀ j, j ∈ (s'.setState next .running).runnable ↔ j ∈ s.runnable ∧ j ≠ next := by
    intro j
    rw [Sched.setState, runnable_set_mem, hlinks.runnable]
    split
    · rename_i heq
      simp [heq, Process.Runnable]
    · rename_i hne
      exact (and_iff_left hne).symm
  have hholds' : Holds { s'.setState next .running with current := some next } R := hset.of_same (fun _ => rfl) (fun _ => rfl) rfl rfl
  refine ⟨hholds'.congr fun j hj => (hR j hj).trans (hrun j).symm, fun c hc => Option.some.inj hc ▸ hlt, ?_, fun j => ?_⟩
  · intro j hj
    exact h.idle j (hlinks.idle ▸ hj)
  · change ((s'.setState next .running).processes j).isIdle = true → ((s'.setState next .running).processes j).state ≠ .blocked
    rw [Sched.setState]
    by_cases heq : j = next
    · rw [heq, set_processes_self]
      simp
    · rw [set_processes_of_ne heq, hlinks.field Process.isIdle fun _ => rfl, hlinks.field Process.state fun _ => rfl]
      exact h.idleAwake j

theorem switchNext_schedInv (h : SchedInv s) {cur : Option Nat} (hcur : ∀ c, cur = some c → c < processMaxCount) :
    SchedInv (switchNext s cur) := by
  simp only [switchNext]
  rcases h.holds.pop with ⟨hnone, hempty, hsame⟩ | ⟨i, hlt, hmem, hsome, hpopped⟩
  · rw [hnone, hsame, Option.none_or]
    split
    · exact ⟨h.holds.of_same (fun _ => rfl) (fun _ => rfl) rfl rfl, by simp, h.idle, h.idleAwake⟩
    · rename_i next hnext
      have hlt : next < processMaxCount := by
        cases hidle : s.idle with
        | none => exact hcur next (by simpa [hidle] using hnext)
        | some i =>
            rw [hidle, Option.some_or] at hnext
            exact h.idle next (by rw [hidle, hnext])
      refine makeCurrent_schedInv h (LinksOnly.refl s) h.holds (hempty next hlt) hlt fun j hj => ?_
      exact iff_of_false (hempty j hj) fun hrun => hempty j hj hrun.1
  · rw [hsome, Option.some_or, Option.some_or]
    refine makeCurrent_schedInv h (runqPop_linksOnly s) hpopped (by simp) hlt fun j _ => ?_
    rw [Set.mem_sdiff, Set.mem_singleton_iff]

/-- What the scheduling part of a tick can do. -/
theorem schedule_cases (s : Sched) :
    (s.current = none ∧ schedule s = switchNext s none) ∨
      ∃ c, s.current = some c ∧
        (((s.processes c).state ≠ .running ∧ schedule s = switchNext s (some c)) ∨
          (s.processes c).state = .running ∧ ∃ slice,
            schedule s = s.set c { s.processes c with timeSlice := slice } ∨
            (s.processes c).isIdle = true ∧
              schedule s = switchNext (s.set c { s.processes c with timeSlice := slice, state := .ready }) (some c) ∨
            (s.processes c).isIdle = false ∧
              schedule s = switchNext (runqPush (s.set c { s.processes c with timeSlice := slice, state := .ready }) c) (some c)) := by
  unfold schedule
  cases hc : s.current with
  | none => exact Or.inl ⟨rfl, rfl⟩
  | some c =>
      refine Or.inr ⟨c, rfl, ?_⟩
      by_cases hrunning : (s.processes c).state = .running
      · refine Or.inr ⟨hrunning, ?_⟩
        simp only [if_pos hrunning]
        generalize (if (!(s.processes c).isIdle && decide (0 < (s.processes c).timeSlice)) then (s.processes c).timeSlice - 1
          else (s.processes c).timeSlice) = slice
        split
        · exact ⟨slice, Or.inl rfl⟩
        split
        · rename_i hidle
          exact ⟨slice, Or.inr (Or.inl ⟨hidle, rfl⟩)⟩
        · rename_i hidle
          exact ⟨processDefaultTimeslice, Or.inr (Or.inr ⟨by simpa using hidle, rfl⟩)⟩
      · exact Or.inl ⟨hrunning, by simp only [if_neg hrunning]⟩

theorem preemptIdle_schedInv (h : SchedInv s) {c : Nat} (hrunning : (s.processes c).state = .running)
    (hidle : (s.processes c).isIdle = true) (slice : Nat) :
    SchedInv (s.set c { s.processes c with timeSlice := slice, state := .ready }) := by
  refine h.set_out ?_ ?_ (h.holds.priority c) (by simp)
  · exact not_runnable_of_state (by simp [hrunning])
  · simp [Process.Runnable, hidle]

theorem preempt_schedInv (h : SchedInv s) {c : Nat} (hlt : c < processMaxCount) (hrunning : (s.processes c).state = .running)
    (hused : (s.processes c).used = true) (hidle : (s.processes c).isIdle = false) (slice : Nat) :
    SchedInv (runqPush (s.set c { s.processes c with timeSlice := slice, state := .ready }) c) :=
  h.set_push (p := { s.processes c with timeSlice := slice, state := .ready }) hlt
    (not_runnable_of_state (by simp [hrunning])) ⟨hused, hidle, rfl⟩ (h.holds.priority c) (ChildLinks.refl _)

theorem schedule_schedInv (h : SchedInv s)
    (hused : ∀ c, s.current = some c → (s.processes c).state = .running → (s.processes c).used = true) : SchedInv (schedule s) := by
  rcases schedule_cases s with ⟨-, heq⟩ | ⟨c, hc, hcases⟩
  · rw [heq]
    exact switchNext_schedInv h (by simp)
  have hlt := h.current c hc
  have hsome : ∀ d, some c = some d → d < processMaxCount := fun d hd => Option.some.inj hd ▸ hlt
  rcases hcases with ⟨-, heq⟩ | ⟨hrunning, slice, heq | ⟨hidle, heq⟩ | ⟨hidle, heq⟩⟩
  · rw [heq]
    exact switchNext_schedInv h hsome
  · rw [heq]
    exact h.set_quiet rfl rfl rfl rfl rfl
  · rw [heq]
    exact switchNext_schedInv (preemptIdle_schedInv h hrunning hidle slice) hsome
  · rw [heq]
    exact switchNext_schedInv (preempt_schedInv h hlt hrunning (hused c hc hrunning) hidle slice) hsome

theorem deliverSignal_schedInv (h : SchedInv s) : SchedInv (deliverSignal s).2 := by
  rw [deliverSignal]
  split
  · exact h
  split
  · rename_i hrunning
    exact prepareSignalAction_schedInv h (not_runnable_of_state (by simp [hrunning]))
  · exact h

theorem processScheduleTick_schedInv (h : SchedInv s)
    (hused : ∀ c, s.current = some c → (s.processes c).state = .running → (s.processes c).used = true) :
    SchedInv (processScheduleTick s).2 := by
  have hkept := deliverSignal_kept s
  refine schedule_schedInv (deliverSignal_schedInv h) fun c hc hrunning => ?_
  rw [hkept.current] at hc
  rw [hkept.used]
  by_cases hbefore : (s.processes c).state = .running
  · exact hused c hc hbefore
  · simp only [deliverSignal, hc, if_neg hbefore] at hrunning
    exact absurd hrunning hbefore

end Calls

end Tsukasa
