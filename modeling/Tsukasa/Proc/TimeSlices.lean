import Tsukasa.Proc.SchedRun

/-!
# Time slices

No call gives a process more than the default slice, whatever state it is called in, so in every run from `process_init` no slice is ever longer than that.
-/

namespace Tsukasa

open Lib

/-- No slice has grown beyond the default. -/
def SlicesCapped (s s' : Sched) : Prop := ∀ i, (s'.processes i).timeSlice ≤ max (s.processes i).timeSlice processDefaultTimeslice

/-- No slice is longer than the default. -/
def Capped (s : Sched) : Prop := ∀ i, (s.processes i).timeSlice ≤ processDefaultTimeslice

namespace SlicesCapped

variable {s s' s'' : Sched}

theorem refl (s : Sched) : SlicesCapped s s := fun _ => le_max_left _ _

theorem trans (h : SlicesCapped s s') (h' : SlicesCapped s' s'') : SlicesCapped s s'' := by
  intro i
  have hfirst := h i
  have hsecond := h' i
  omega

theorem of_eq (h : ∀ i, (s'.processes i).timeSlice = (s.processes i).timeSlice) : SlicesCapped s s' := by
  intro i
  rw [h]
  exact le_max_left _ _

theorem of_linksOnly (h : LinksOnly s s') : SlicesCapped s s' := of_eq (h.field Process.timeSlice fun _ => rfl)

theorem of_childLinks (h : ChildLinks s s') : SlicesCapped s s' := of_eq (h.field Process.timeSlice fun _ _ _ => rfl)

/-- A process is written with no more than the default. -/
theorem set {i : Nat} {p : Process} (hp : p.timeSlice ≤ max (s.processes i).timeSlice processDefaultTimeslice) : SlicesCapped s (s.set i p) := by
  intro j
  by_cases heq : j = i
  · rw [heq, set_processes_self]
    exact hp
  · rw [set_processes_of_ne heq]
    exact le_max_left _ _

/-- A process is written with the slice it had. -/
theorem set_same {i : Nat} {p : Process} (hp : p.timeSlice = (s.processes i).timeSlice) : SlicesCapped s (s.set i p) :=
  of_eq (set_field Process.timeSlice hp)

theorem capped (h : SlicesCapped s s') (hcapped : Capped s) : Capped s' := by
  intro i
  have hgrown := h i
  have hbefore := hcapped i
  omega

end SlicesCapped

/-! ### Helpers -/

theorem wake_slicesCapped (s : Sched) (i : Nat) : SlicesCapped s (wake s i) := by
  rw [wake]
  split
  · have hset : SlicesCapped s (s.setState i .ready) := SlicesCapped.set_same rfl
    exact hset.trans (SlicesCapped.of_linksOnly (runqPush_linksOnly _ i))
  · exact SlicesCapped.refl s

theorem markZombie_slicesCapped (s : Sched) (i : Nat) (status : BitVec 32) : SlicesCapped s (markZombie s i status) := by
  have hwake : ∀ w : Sched, SlicesCapped w (wakeParentIfWaiting w i) := by
    intro w
    rw [wakeParentIfWaiting]
    split
    · exact SlicesCapped.refl w
    split
    · exact SlicesCapped.refl w
    · exact wake_slicesCapped w _
  rw [markZombie]
  split
  · exact SlicesCapped.refl s
  · have hset : SlicesCapped s (s.set i { s.processes i with waitStatus := status, state := .zombie }) := SlicesCapped.set_same rfl
    exact hset.trans (hwake _)

theorem postSignal_slicesCapped (s : Sched) (i sig : Nat) : SlicesCapped s (postSignal s i sig) := by
  rw [postSignal]
  split
  · exact markZombie_slicesCapped s i _
  · have hset : SlicesCapped s (s.set i { s.processes i with signalPending := (s.processes i).signalPending ||| BitVec.twoPow 64 sig }) :=
      SlicesCapped.set_same rfl
    exact hset.trans (wake_slicesCapped _ i)

theorem deliverSignal_slicesCapped (s : Sched) : SlicesCapped s (deliverSignal s).2 := by
  rw [deliverSignal]
  split
  · exact SlicesCapped.refl s
  next c _ =>
  split
  · simp only [prepareSignalAction]
    split
    · exact SlicesCapped.refl s
    split
    · exact SlicesCapped.refl s
    next sig _ =>
    have hset : SlicesCapped s (s.set c { s.processes c with
        signalPending := (s.processes c).signalPending &&& ~~~(BitVec.twoPow 64 sig) }) := SlicesCapped.set_same rfl
    split
    · exact hset
    split
    · exact hset.trans (markZombie_slicesCapped _ c _)
    · exact hset
  · exact SlicesCapped.refl s

theorem createKernelProcess_slicesCapped (s : Sched) (parent : Option Nat) (ok : Bool) : SlicesCapped s (createKernelProcess s parent ok).2 := by
  cases hslot : allocProcessSlot s with
  | none =>
      rw [createKernelProcess, hslot]
      exact SlicesCapped.refl s
  | some i =>
      intro j
      have hbare := congrArg Process.timeSlice (createKernelProcess_bare parent ok hslot j)
      have hslice : ((createKernelProcess s parent ok).2.processes j).timeSlice = if j = i then processDefaultTimeslice else (s.processes j).timeSlice := by
        refine hbare.trans ?_
        split
        · rfl
        · rfl
      rw [hslice]
      split
      · exact le_max_right _ _
      · exact le_max_left _ _

theorem switchNext_slicesCapped (s : Sched) (cur : Option Nat) : SlicesCapped s (switchNext s cur) := by
  have hpop := SlicesCapped.of_linksOnly (runqPop_linksOnly s)
  rw [switchNext]
  generalize runqPop s = result at hpop
  obtain ⟨popped, s'⟩ := result
  simp only
  split
  · exact hpop
  · next next _ =>
      have hset : SlicesCapped s' (s'.setState next .running) := SlicesCapped.set_same rfl
      exact hpop.trans hset

theorem schedule_slicesCapped (s : Sched) : SlicesCapped s (schedule s) := by
  rw [schedule]
  split
  · exact switchNext_slicesCapped s none
  next c _ =>
  generalize hslice : (if !(s.processes c).isIdle && decide (0 < (s.processes c).timeSlice) then (s.processes c).timeSlice - 1
    else (s.processes c).timeSlice) = slice
  have hless : slice ≤ (s.processes c).timeSlice := by
    rw [← hslice]
    split
    · exact Nat.sub_le _ _
    · exact le_rfl
  simp only [hslice]
  split
  · split
    · exact SlicesCapped.set (hless.trans (le_max_left _ _))
    split
    · have hset : SlicesCapped s (s.set c { s.processes c with timeSlice := slice, state := .ready }) :=
        SlicesCapped.set (hless.trans (le_max_left _ _))
      exact hset.trans (switchNext_slicesCapped _ (some c))
    · have hset : SlicesCapped s (s.set c { s.processes c with timeSlice := processDefaultTimeslice, state := .ready }) :=
        SlicesCapped.set (le_max_right _ _)
      exact (hset.trans (SlicesCapped.of_linksOnly (runqPush_linksOnly _ c))).trans (switchNext_slicesCapped _ (some c))
  · exact switchNext_slicesCapped s (some c)

/-! ### Calls -/

theorem processKill_slicesCapped (s : Sched) (pid sig : Int) : SlicesCapped s (processKill s pid sig).2 := by
  simp only [processKill]
  split
  · exact SlicesCapped.refl s
  split
  · exact SlicesCapped.refl s
  split
  · exact SlicesCapped.refl s
  split
  · exact SlicesCapped.refl s
  split
  · exact SlicesCapped.refl s
  · exact postSignal_slicesCapped s _ _

theorem processKillPgid_slicesCapped (s : Sched) (pgid sig : Int) : SlicesCapped s (processKillPgid s pgid sig).2 := by
  have hloop : ∀ (slots : List Nat) (acc : Int × Sched), SlicesCapped acc.2 (slots.foldl (killPgidStep pgid sig.toNat) acc).2 := by
    intro slots
    induction slots with
    | nil => exact fun acc => SlicesCapped.refl acc.2
    | cons i slots ih =>
        intro acc
        have hstep : SlicesCapped acc.2 (killPgidStep pgid sig.toNat acc i).2 := by
          rw [killPgidStep]
          split
          · exact postSignal_slicesCapped acc.2 i _
          · exact SlicesCapped.refl acc.2
        exact hstep.trans (ih _)
  rw [processKillPgid]
  split
  · exact SlicesCapped.refl s
  · exact hloop _ (0, s)

theorem processSetPriority_slicesCapped (s : Sched) (pid : Int) (priority : Nat) : SlicesCapped s (processSetPriority s pid priority).2 := by
  have hrequeue : ∀ (w : Sched) (i : Nat), SlicesCapped w
      (if ((w.set i { w.processes i with priority := priority }).processes i).state = .ready then
        runqPush (w.set i { w.processes i with priority := priority }) i
      else w.set i { w.processes i with priority := priority }) := by
    intro w i
    have hset : SlicesCapped w (w.set i { w.processes i with priority := priority }) := SlicesCapped.set_same rfl
    split
    · exact hset.trans (SlicesCapped.of_linksOnly (runqPush_linksOnly _ i))
    · exact hset
  simp only [processSetPriority]
  split
  · exact SlicesCapped.refl s
  split
  · exact SlicesCapped.refl s
  next i _ =>
  split
  · exact SlicesCapped.refl s
  by_cases hready : (s.processes i).state = .ready
  · rw [if_pos hready]
    exact (SlicesCapped.of_linksOnly (runqRemove_linksOnly s i)).trans (hrequeue _ i)
  · rw [if_neg hready]
    exact hrequeue s i

theorem processWaitpid_slicesCapped (s : Sched) (callerPid targetPid : Int) (nohang : Bool) :
    SlicesCapped s (processWaitpid s callerPid targetPid nohang).2 := by
  simp only [processWaitpid]
  split
  · exact SlicesCapped.refl s
  next caller _ =>
  split
  · next child _ _ =>
      have hreset : ∀ w : Sched, SlicesCapped w (resetProcessSlot w child) := fun w => SlicesCapped.set_same rfl
      exact (SlicesCapped.of_childLinks (parentUnlinkChild_childLinks s caller child)).trans (hreset _)
  · exact SlicesCapped.refl s
  split
  · exact SlicesCapped.refl s
  split
  · split
    · exact SlicesCapped.set_same rfl
    · exact SlicesCapped.refl s
  · exact SlicesCapped.refl s

/-- No call lets a slice grow beyond the default. -/
theorem SchedCall.step_slicesCapped (s : Sched) (call : SchedCall) : SlicesCapped s (call.step s) := by
  cases call with
  | spawnKernel ok => exact createKernelProcess_slicesCapped s s.current ok
  | exec pid =>
      simp only [SchedCall.step, processExec]
      split_ifs
      · exact SlicesCapped.refl s
      split
      · exact SlicesCapped.refl s
      split
      · exact SlicesCapped.refl s
      · exact SlicesCapped.set_same rfl
  | exitCurrent code =>
      simp only [SchedCall.step, processExitCurrent]
      split
      · exact SlicesCapped.refl s
      · exact markZombie_slicesCapped s _ _
  | kill pid sig => exact processKill_slicesCapped s pid sig
  | killPgid pgid sig => exact processKillPgid_slicesCapped s pgid sig
  | setPriority pid priority => exact processSetPriority_slicesCapped s pid priority
  | signalRegister pid sig handler =>
      simp only [SchedCall.step, processSignalRegister]
      split_ifs
      · exact SlicesCapped.refl s
      · exact SlicesCapped.refl s
      split
      · exact SlicesCapped.refl s
      · exact SlicesCapped.set_same rfl
  | signalMask pid how set =>
      simp only [SchedCall.step, processSignalMask]
      split
      · exact SlicesCapped.refl s
      · exact SlicesCapped.set_same rfl
  | waitpid callerPid targetPid nohang => exact processWaitpid_slicesCapped s callerPid targetPid nohang
  | yield =>
      simp only [SchedCall.step, processYield]
      split
      · exact SlicesCapped.refl s
      · exact SlicesCapped.set (Nat.zero_le _)
  | scheduleTick => exact (deliverSignal_slicesCapped s).trans (schedule_slicesCapped _)

theorem processInit_capped (vmOk idleOk : Bool) : Capped (processInit vmOk idleOk) := by
  have hempty : Capped
      { processes := fun _ => Process.zeroed, current := none, idle := none, runqHead := fun _ => none, runqTail := fun _ => none,
        nextPid := 1 } := fun _ => Nat.zero_le _
  have hfirst : Capped (Sched.set
      { processes := fun _ => Process.zeroed, current := none, idle := none, runqHead := fun _ => none, runqTail := fun _ => none, nextPid := 1 } 0
      { Process.zeroed with
        used := true, pid := 1, pgid := 1, state := .blocked, priority := processDefaultPriority,
        timeSlice := processDefaultTimeslice }) := (SlicesCapped.set (le_max_right _ _)).capped hempty
  simp only [processInit]
  generalize Sched.set _ 0 _ = s at hfirst
  split
  · have hcurrent : Capped { s with current := some 0, nextPid := 2 } := hfirst
    have hcreated := (createKernelProcess_slicesCapped _ none idleOk).capped hcurrent
    split
    · next i s' heq =>
        rw [heq] at hcreated
        have hretired : SlicesCapped s' (s'.set i { s'.processes i with isIdle := true }) := SlicesCapped.set_same rfl
        have hidle : Capped { s'.set i { s'.processes i with isIdle := true } with idle := some i } := hretired.capped hcreated
        exact (SlicesCapped.of_linksOnly (runqRemove_linksOnly _ i)).capped hidle
    · next s' heq =>
        rw [heq] at hcreated
        exact hcreated
  · exact hfirst

/-- In every run no slice is longer than the default. -/
theorem run_capped (vmOk idleOk : Bool) (calls : List SchedCall) : Capped (run SchedCall.step (processInit vmOk idleOk) calls) := by
  have hall : Allowed (fun _ _ => True) SchedCall.step (processInit vmOk idleOk) calls := allowed_of_forall fun _ _ _ => trivial
  exact run_invariant (fun s call hcapped _ => (SchedCall.step_slicesCapped s call).capped hcapped) (processInit_capped vmOk idleOk) hall

end Tsukasa
