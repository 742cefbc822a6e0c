import Tsukasa.Proc.SchedCalls
import Tsukasa.Lib.Run

/-!
# Runs of the scheduler

After any run from `process_init` whose steps meet `RunqSafe`, the run queues hold exactly the processes that are ready to run. `RunqSafe` speaks of the state before each call; without it a process is terminated or blocked while it stays linked in a run queue.
-/

namespace Tsukasa

open Lib Lib.Linked

/-! ### Killing a group -/

theorem wake_state (s : Sched) (i j : Nat) :
    ((wake s i).processes j).state = if j = i ∧ (s.processes i).state = .blocked then .ready else (s.processes j).state := by
  rw [wake]
  by_cases hblocked : (s.processes i).state = .blocked
  · rw [if_pos hblocked, (runqPush_linksOnly _ i).field Process.state fun _ => rfl, Sched.setState]
    by_cases heq : j = i
    · rw [heq, set_processes_self, if_pos ⟨rfl, hblocked⟩]
    · rw [set_processes_of_ne heq, if_neg fun h => heq h.1]
  · rw [if_neg hblocked, if_neg fun h => hblocked h.2]

/-- Terminating a process changes the state of no other but the parent that waits for it. -/
theorem markZombie_state_of_ne {s : Sched} {i j : Nat} (hne : j ≠ i) (status : BitVec 32) :
    ((markZombie s i status).processes j).state = (s.processes j).state ∨
      (s.processes j).state = .blocked ∧ ((markZombie s i status).processes j).state = .ready ∧
        findByPid s (asInt (s.processes i).ppid) = some j := by
  rw [markZombie]
  split
  · exact Or.inl rfl
  have hkept : Kept s (s.set i { s.processes i with waitStatus := status, state := .zombie }) := Kept.set rfl
  rw [wakeParentIfWaiting, hkept.findByPid, hkept.ppid]
  have hset : ∀ p, (s.set i p).processes j = s.processes j := set_processes_of_ne hne
  split
  · rw [hset]
    exact Or.inl rfl
  split
  · rw [hset]
    exact Or.inl rfl
  rename_i parent hparent
  rw [wake_state, hset]
  split
  · rename_i hwoken
    obtain ⟨rfl, hblocked⟩ := hwoken
    rw [hset] at hblocked
    exact Or.inr ⟨hblocked, rfl, hparent⟩
  · exact Or.inl rfl

/-- The states from which killing a group does not terminate a process that is in a run queue: no member is in one, and none is put in one by the death of a member in a lower slot. -/
def GroupOut (s : Sched) (pgid : Int) : Prop :=
  ∀ j, inGroup s pgid j = true → ¬(s.processes j).Runnable ∧
    ((s.processes j).state = .blocked → ∀ i < j, inGroup s pgid i = true → findByPid s (asInt (s.processes i).ppid) ≠ some j)

theorem inGroup_iff {s : Sched} {pgid : Int} {i : Nat} :
    inGroup s pgid i = true ↔ (s.processes i).used = true ∧ (s.processes i).state ≠ .dead ∧ (s.processes i).state ≠ .zombie ∧
      asInt (s.processes i).pgid = pgid := by
  simp [inGroup, and_assoc]

section KillPgid

variable {s : Sched} {pgid : Int}

/-- The loop up to slot `n`: a process in a slot not yet reached has its old state, or has been woken by a member's death. -/
theorem killPgid_loop (h : SchedInv s) {sig : Nat} (hout : sig = processSigkill → GroupOut s pgid) (n : Nat) (hn : n ≤ processMaxCount) :
    let s' := ((List.range n).foldl (killPgidStep pgid sig) (0, s)).2
    SchedInv s' ∧ Kept s s' ∧ (sig = processSigkill → ∀ j, n ≤ j → (s'.processes j).state = (s.processes j).state ∨
      (s.processes j).state = .blocked ∧ (s'.processes j).state = .ready ∧
        ∃ i < n, inGroup s pgid i = true ∧ findByPid s (asInt (s.processes i).ppid) = some j) := by
  induction n with
  | zero => exact ⟨h, Kept.refl s, fun _ _ _ => Or.inl rfl⟩
  | succ n ih =>
      obtain ⟨hinv, hkept, hstates⟩ := ih (by omega)
      rw [List.range_succ, List.foldl_append, List.foldl_cons, List.foldl_nil]
      generalize (List.range n).foldl (killPgidStep pgid sig) (0, s) = acc at hinv hkept hstates
      rw [killPgidStep]
      split
      · rename_i hgroup
        obtain ⟨hused, hdead, hzombie, hpgid⟩ := inGroup_iff.mp hgroup
        rw [hkept.pgid] at hpgid
        -- the member reached has not been woken by this loop, so it was a member to begin with
        have hmember : sig = processSigkill → (acc.2.processes n).state = (s.processes n).state ∧ inGroup s pgid n = true := by
          intro hsig
          rcases hstates hsig n le_rfl with hsame | ⟨hblocked, -, i, hi, hgroup, hparent⟩
          · rw [hsame] at hdead hzombie
            exact ⟨hsame, inGroup_iff.mpr ⟨hkept.used n ▸ hused, hdead, hzombie, hpgid⟩⟩
          · have hin : inGroup s pgid n = true :=
              inGroup_iff.mpr ⟨hkept.used n ▸ hused, by simp [hblocked], by simp [hblocked], hpgid⟩
            exact absurd hparent ((hout hsig n hin).2 hblocked i hi hgroup)
        refine ⟨postSignal_schedInv hinv (by omega) hused fun hsig => ?_, hkept.trans (postSignal_kept _ n sig), fun hsig j hj => ?_⟩
        · obtain ⟨hsame, hin⟩ := hmember hsig
          have hnot := (hout hsig n hin).1
          rwa [Process.Runnable, hsame, hkept.used, hkept.isIdle]
        · obtain ⟨-, hin⟩ := hmember hsig
          have hstep := markZombie_state_of_ne (s := acc.2) (i := n) (j := j) (by omega) (waitStatusSignal sig)
          rw [hkept.findByPid, hkept.ppid] at hstep
          simp only [postSignal, if_pos hsig]
          rcases hstep with hsame | ⟨hblocked, hready, hparent⟩
          · rw [hsame]
            rcases hstates hsig j (by omega) with hold | ⟨hblocked, hready, i, hi, hwaker⟩
            · exact Or.inl hold
            · exact Or.inr ⟨hblocked, hready, i, by omega, hwaker⟩
          · refine Or.inr ⟨?_, hready, n, by omega, hin, hparent⟩
            rcases hstates hsig j (by omega) with hold | ⟨-, hready', -⟩
            · rw [← hold, hblocked]
            · rw [hblocked] at hready'
              cases hready'
      · refine ⟨hinv, hkept, fun hsig j hj => ?_⟩
        rcases hstates hsig j (by omega) with hsame | ⟨hblocked, hready, i, hi, hmember⟩
        · exact Or.inl hsame
        · exact Or.inr ⟨hblocked, hready, i, by omega, hmember⟩

theorem processKillPgid_schedInv (h : SchedInv s) {sig : Int} (hout : sig = processSigkill → GroupOut s pgid) :
    SchedInv (processKillPgid s pgid sig).2 := by
  rw [processKillPgid]
  split
  · exact h
  · refine (@killPgid_loop _ _ h sig.toNat (fun hsig => hout ?_) processMaxCount le_rfl).1
    simp only [processSigkill] at hsig ⊢
    omega

end KillPgid

/-! ### The machine -/

/-- The calls of the process module, each a critical section. -/
inductive SchedCall where
  | spawnKernel (ok : Bool)
  | exec (pid : Int)
  | exitCurrent (code : BitVec 32)
  | kill (pid sig : Int)
  | killPgid (pgid sig : Int)
  | setPriority (pid : Int) (priority : Nat)
  | signalRegister (pid sig : Int) (handler : Nat)
  | signalMask (pid : Int) (how : MaskHow) (set : BitVec 64)
  | waitpid (callerPid targetPid : Int) (nohang : Bool)
  | yield
  | scheduleTick

def SchedCall.step (s : Sched) : SchedCall → Sched
  | spawnKernel ok => (processSpawnKernel s ok).2
  | exec pid => (processExec s pid).2
  | exitCurrent code => (processExitCurrent s code).2
  | kill pid sig => (processKill s pid sig).2
  | killPgid pgid sig => (processKillPgid s pgid sig).2
  | setPriority pid priority => (processSetPriority s pid priority).2
  | signalRegister pid sig handler => (processSignalRegister s pid sig handler).2
  | signalMask pid how set => (processSignalMask s pid how set).2
  | waitpid callerPid targetPid nohang => (processWaitpid s callerPid targetPid nohang).2
  | yield => processYield s
  | scheduleTick => (processScheduleTick s).2

/-- The states from which a call leaves no process in a run queue that is not to be there: a process that is terminated is in no queue, a process that waits is in no queue and not the idle process, the priority of a ready idle process is not set, and the process that a tick finds running is in use. -/
def RunqSafe (s : Sched) : SchedCall → Prop
  | .exitCurrent _ => ∀ c, s.current = some c → ¬(s.processes c).Runnable
  | .kill pid sig => sig = processSigkill → ∀ i, findByPid s pid = some i → ¬(s.processes i).Runnable
  | .killPgid pgid sig => sig = processSigkill → GroupOut s pgid
  | .setPriority pid _ => ∀ i, findByPid s pid = some i → (s.processes i).state = .ready → (s.processes i).isIdle = false
  | .waitpid callerPid _ nohang => nohang = false → ∀ c, s.current = some c → asInt (s.processes c).pid = callerPid →
      (s.processes c).state ≠ .ready ∧ (s.processes c).isIdle = false
  | .scheduleTick => ∀ c, s.current = some c → (s.processes c).state = .running → (s.processes c).used = true
  | _ => True

theorem SchedCall.step_schedInv {s : Sched} (h : SchedInv s) {call : SchedCall} (hsafe : RunqSafe s call) :
    SchedInv (call.step s) := by
  cases call with
  | spawnKernel ok => exact createKernelProcess_schedInv h s.current ok
  | exec pid => exact processExec_schedInv h pid
  | exitCurrent code => exact processExitCurrent_schedInv h code hsafe
  | kill pid sig => exact processKill_schedInv h hsafe
  | killPgid pgid sig => exact processKillPgid_schedInv h hsafe
  | setPriority pid priority => exact processSetPriority_schedInv h hsafe
  | signalRegister pid sig handler => exact processSignalRegister_schedInv h pid sig handler
  | signalMask pid how set => exact processSignalMask_schedInv h pid how set
  | waitpid callerPid targetPid nohang => exact processWaitpid_schedInv h hsafe
  | yield => exact processYield_schedInv h
  | scheduleTick => exact processScheduleTick_schedInv h hsafe

/-- Run queues and states agree: every queue is a list that ends at the queue's tail and holds used, non-idle, ready processes only, and every such process is once in the queue of its own priority and in no other. -/
def RunQueuesAgree (s : Sched) : Prop :=
  ∃ q : Nat → List Nat,
    (∀ pri < processPriorityLevels, IsList s.nextOf (s.runqHead pri) (q pri) ∧ s.runqTail pri = (q pri).getLast? ∧
      ∀ i ∈ q pri, i < processMaxCount ∧ (s.processes i).Runnable) ∧
    ∀ i < processMaxCount, (s.processes i).Runnable → (s.processes i).priority < processPriorityLevels ∧
      ∀ pri < processPriorityLevels, (q pri).count i = if pri = (s.processes i).priority then 1 else 0

theorem SchedInv.runQueuesAgree {s : Sched} (h : SchedInv s) : RunQueuesAgree s := by
  obtain ⟨q, hq, hmem⟩ := h.holds.queues
  refine ⟨q, fun pri hpri => ⟨hq.list pri hpri, hq.tail pri hpri, fun i hi => ?_⟩, fun i hi hrun => ⟨h.holds.priority i, fun pri hpri => ?_⟩⟩
  · obtain ⟨hlt, hhome⟩ := hq.home pri hpri i hi
    exact ⟨hlt, (hmem i hlt).mp (hhome ▸ hi)⟩
  · split
    · rename_i heq
      rw [heq]
      exact List.count_eq_one_of_mem (hq.list _ (h.holds.priority i)).nodup ((hmem i hi).mpr hrun)
    · rename_i hne
      exact List.count_eq_zero.mpr (hq.not_mem_other hpri (Ne.symm hne))

/-- In every run from `process_init` whose steps are safe, the run queues agree with the states. -/
theorem sched_run_runQueuesAgree (vmOk idleOk : Bool) (calls : List SchedCall)
    (hsafe : Allowed RunqSafe SchedCall.step (processInit vmOk idleOk) calls) :
    RunQueuesAgree (run SchedCall.step (processInit vmOk idleOk) calls) := by
  have hstep : ∀ s call, SchedInv s → RunqSafe s call → SchedInv (call.step s) := fun _ _ h hok => SchedCall.step_schedInv h hok
  exact (run_invariant hstep (processInit_schedInv vmOk idleOk) hsafe).runQueuesAgree

/-- A process is started, scheduled and exits. -/
theorem sched_run_runQueuesAgree_oneProcess :
    Allowed RunqSafe SchedCall.step (processInit true true) [.spawnKernel true, .scheduleTick, .exitCurrent 7#32] ∧
      RunQueuesAgree (run SchedCall.step (processInit true true) [.spawnKernel true, .scheduleTick, .exitCurrent 7#32]) := by
  have hsafe : Allowed RunqSafe SchedCall.step (processInit true true) [.spawnKernel true, .scheduleTick, .exitCurrent 7#32] := by
    refine ⟨trivial, fun c hc => ?_, fun c hc => ?_, trivial⟩
    · have hcurrent : (SchedCall.step (processInit true true) (.spawnKernel true)).current = some 0 := by decide
      cases hcurrent.symm.trans hc
      decide
    · have hcurrent : (SchedCall.step (SchedCall.step (processInit true true) (.spawnKernel true)) .scheduleTick).current = some 2 := by
        decide
      cases hcurrent.symm.trans hc
      decide
  exact ⟨hsafe, sched_run_runQueuesAgree true true _ hsafe⟩

/-- A process that is killed before it has run stays in its run queue, as a zombie. -/
theorem sched_kill_leaves_zombie_queued :
    ¬RunQueuesAgree (run SchedCall.step (processInit true true) [.spawnKernel true, .kill 3 9]) := by
  rintro ⟨q, hqueues, -⟩
  obtain ⟨hlist, -, hentries⟩ := hqueues 128 (by decide)
  have hhead : (run SchedCall.step (processInit true true) [.spawnKernel true, .kill 3 9]).runqHead 128 = some 2 := by decide
  have hzombie : ((run SchedCall.step (processInit true true) [.spawnKernel true, .kill 3 9]).processes 2).state = .zombie := by decide
  rw [hhead] at hlist
  have hmem : 2 ∈ q 128 := List.mem_of_head? hlist.head_eq.symm
  have hready := (hentries 2 hmem).2.2.2
  rw [hzombie] at hready
  cases hready

end Tsukasa
