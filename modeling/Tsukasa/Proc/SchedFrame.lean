import Tsukasa.Proc.SchedRun

/-!
# What scheduling leaves alone

Scheduling moves processes through states and queues. `SchedOnly s s'` says that nothing else differs between two states, and it holds of every helper that wakes, terminates, queues or switches, from any state: nothing is assumed of the queues.
-/

namespace Tsukasa

/-- A process without what scheduling changes. -/
def Process.lasting (p : Process) : Process :=
  { p with rqNext := none, nextQueue := none, prevQueue := none, state := .created, waitStatus := 0#32, priority := 0, timeSlice := 0 }

/-- Nothing but states, wait statuses, priorities, time slices and run queues differs between the states. -/
def SchedOnly (s s' : Sched) : Prop := ∀ i, (s'.processes i).lasting = (s.processes i).lasting

namespace SchedOnly

variable {s s' s'' : Sched}

theorem refl (s : Sched) : SchedOnly s s := fun _ => rfl

theorem trans (h : SchedOnly s s') (h' : SchedOnly s' s'') : SchedOnly s s'' := fun i => (h' i).trans (h i)

theorem set {i : Nat} {p : Process} (hp : p.lasting = (s.processes i).lasting) : SchedOnly s (s.set i p) :=
  set_field Process.lasting hp

theorem of_linksOnly (h : LinksOnly s s') : SchedOnly s s' := h.field Process.lasting fun _ => rfl

/-- A field that scheduling does not change is the same. -/
theorem field {α : Sort*} (h : SchedOnly s s') (f : Process → α) (hf : ∀ p, f p.lasting = f p) (i : Nat) :
    f (s'.processes i) = f (s.processes i) := by
  rw [← hf, h i, hf]

end SchedOnly

/-- `runq_remove_locked` relinks queues, whatever it finds in them. -/
theorem runqRemoveLoop_linksOnly (s : Sched) (pri target fuel : Nat) (prev cur : Option Nat) :
    LinksOnly s (runqRemoveLoop s pri target fuel prev cur) := by
  induction fuel generalizing prev cur with
  | zero => exact LinksOnly.refl s
  | succ fuel ih =>
      cases cur with
      | none => exact LinksOnly.refl s
      | some cur =>
          rw [runqRemoveLoop]
          split
          · exact runqUnlink_linksOnly s pri prev cur
          · exact ih _ _

theorem runqRemove_schedOnly (s : Sched) (i : Nat) : SchedOnly s (runqRemove s i) :=
  SchedOnly.of_linksOnly (runqRemoveLoop_linksOnly s _ i _ _ _)

theorem runqPush_schedOnly (s : Sched) (i : Nat) : SchedOnly s (runqPush s i) := SchedOnly.of_linksOnly (runqPush_linksOnly s i)

theorem setState_schedOnly (s : Sched) (i : Nat) (state : ProcessState) : SchedOnly s (s.setState i state) := SchedOnly.set rfl

theorem wake_schedOnly (s : Sched) (i : Nat) : SchedOnly s (wake s i) := by
  rw [wake]
  split
  · exact (setState_schedOnly s i .ready).trans (runqPush_schedOnly _ i)
  · exact SchedOnly.refl s

theorem wakeParentIfWaiting_schedOnly (s : Sched) (i : Nat) : SchedOnly s (wakeParentIfWaiting s i) := by
  rw [wakeParentIfWaiting]
  split
  · exact SchedOnly.refl s
  split
  · exact SchedOnly.refl s
  · exact wake_schedOnly s _

theorem markZombie_schedOnly (s : Sched) (i : Nat) (status : BitVec 32) : SchedOnly s (markZombie s i status) := by
  rw [markZombie]
  split
  · exact SchedOnly.refl s
  · have hset : SchedOnly s (s.set i { s.processes i with waitStatus := status, state := .zombie }) := SchedOnly.set rfl
    exact hset.trans (wakeParentIfWaiting_schedOnly _ i)

theorem switchNext_schedOnly (s : Sched) (cur : Option Nat) : SchedOnly s (switchNext s cur) := by
  have hpop := SchedOnly.of_linksOnly (runqPop_linksOnly s)
  rw [switchNext]
  rcases hres : runqPop s with ⟨popped, s'⟩
  rw [hres] at hpop
  simp only
  split
  · exact hpop
  · rename_i next _
    exact hpop.trans (setState_schedOnly s' next .running)

theorem schedule_schedOnly (s : Sched) : SchedOnly s (schedule s) := by
  have hslice : ∀ c slice state, SchedOnly s (s.set c { s.processes c with timeSlice := slice, state := state }) :=
    fun _ _ _ => SchedOnly.set rfl
  rcases schedule_cases s with ⟨-, heq⟩ | ⟨c, -, ⟨-, heq⟩ | ⟨-, slice, heq | ⟨-, heq⟩ | ⟨-, heq⟩⟩⟩
  · rw [heq]
    exact switchNext_schedOnly s none
  · rw [heq]
    exact switchNext_schedOnly s (some c)
  · rw [heq]
    exact SchedOnly.set rfl
  · rw [heq]
    exact (hslice c slice .ready).trans (switchNext_schedOnly _ (some c))
  · rw [heq]
    exact (hslice c slice .ready).trans ((runqPush_schedOnly _ c).trans (switchNext_schedOnly _ (some c)))

theorem processExitCurrent_schedOnly (s : Sched) (code : BitVec 32) : SchedOnly s (processExitCurrent s code).2 := by
  rw [processExitCurrent]
  split
  · exact SchedOnly.refl s
  · exact markZombie_schedOnly s _ _

theorem processSetPriority_schedOnly (s : Sched) (pid : Int) (priority : Nat) : SchedOnly s (processSetPriority s pid priority).2 := by
  -- the new priority, and the queue it belongs to
  have hrequeue : ∀ (w : Sched) (i : Nat), SchedOnly w
      (if ((w.set i { w.processes i with priority := priority }).processes i).state = .ready then
        runqPush (w.set i { w.processes i with priority := priority }) i
      else w.set i { w.processes i with priority := priority }) := by
    intro w i
    have hset : SchedOnly w (w.set i { w.processes i with priority := priority }) := SchedOnly.set rfl
    split
    · exact hset.trans (runqPush_schedOnly _ i)
    · exact hset
  rw [processSetPriority]
  split
  · exact SchedOnly.refl s
  split
  · exact SchedOnly.refl s
  rename_i i _
  split
  · exact SchedOnly.refl s
  by_cases hready : (s.processes i).state = .ready
  · simp only [if_pos hready]
    exact (runqRemove_schedOnly s i).trans (hrequeue _ i)
  · simp only [if_neg hready]
    exact hrequeue s i

theorem processYield_schedOnly (s : Sched) : SchedOnly s (processYield s) := by
  rw [processYield]
  split
  · exact SchedOnly.refl s
  · exact SchedOnly.set rfl

end Tsukasa
