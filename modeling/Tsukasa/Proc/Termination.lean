import Tsukasa.Proc.SchedRun
import Mathlib.Data.List.Nodup

/-!
# Termination is final and reported once

A history keeps beside the scheduler the processes that have been terminated, with the status they were terminated with, and what the waits have reported. Over a run whose steps are safe a process ages in one direction only: alive, zombie, dead, and its pid is never given out again.
-/

namespace Tsukasa

open Lib

def ProcessState.Alive (state : ProcessState) : Prop := state ≠ .zombie ∧ state ≠ .dead

instance (state : ProcessState) : Decidable state.Alive := inferInstanceAs (Decidable (_ ∧ _))

theorem alive_ready : ProcessState.ready.Alive := by decide

theorem alive_running : ProcessState.running.Alive := by decide

theorem alive_blocked : ProcessState.blocked.Alive := by decide

/-! ### Ageing -/

/-- What a step other than a creation and a reaping may do to a slot. -/
structure Process.Ages (p p' : Process) : Prop where
  used : p'.used = p.used
  pid : p'.pid = p.pid
  fate : p'.waitStatus = p.waitStatus ∧ (p'.state = p.state ∨ p.state.Alive ∧ p'.state.Alive) ∨
    p.pid ≠ 0 ∧ p.state.Alive ∧ p'.state = .zombie

namespace Process.Ages

variable {p p' p'' : Process}

theorem of_fields (hused : p'.used = p.used) (hpid : p'.pid = p.pid) (hstatus : p'.waitStatus = p.waitStatus)
    (hstate : p'.state = p.state) : Ages p p' :=
  ⟨hused, hpid, Or.inl ⟨hstatus, Or.inl hstate⟩⟩

theorem refl (p : Process) : Ages p p := of_fields rfl rfl rfl rfl

theorem trans (h : Ages p p') (h' : Ages p' p'') : Ages p p'' := by
  refine ⟨h'.used.trans h.used, h'.pid.trans h.pid, ?_⟩
  rcases h.fate with ⟨hstatus, hstate⟩ | ⟨hpid, halive, hzombie⟩
  · rcases h'.fate with ⟨hstatus', hstate'⟩ | ⟨hpid', halive', hzombie'⟩
    · refine Or.inl ⟨hstatus'.trans hstatus, ?_⟩
      rcases hstate with hsame | ⟨halive, hbetween⟩
      · rw [← hsame]
        exact hstate'
      · rcases hstate' with hsame' | ⟨-, hafter⟩
        · exact Or.inr ⟨halive, hsame' ▸ hbetween⟩
        · exact Or.inr ⟨halive, hafter⟩
    · refine Or.inr ⟨h.pid ▸ hpid', ?_, hzombie'⟩
      rcases hstate with hsame | ⟨halive, -⟩
      · exact hsame ▸ halive'
      · exact halive
  · have hdead : ¬p'.state.Alive := by simp [ProcessState.Alive, hzombie]
    rcases h'.fate with ⟨hstatus', hsame' | ⟨halive', -⟩⟩ | ⟨-, halive', -⟩
    · exact Or.inr ⟨hpid, halive, hsame'.trans hzombie⟩
    · exact absurd halive' hdead
    · exact absurd halive' hdead

/-- A process that is not alive keeps its state and its status. -/
theorem of_not_alive (h : Ages p p') (hdead : ¬p.state.Alive) : p'.state = p.state ∧ p'.waitStatus = p.waitStatus := by
  rcases h.fate with ⟨hstatus, hsame | ⟨halive, -⟩⟩ | ⟨-, halive, -⟩
  · exact ⟨hsame, hstatus⟩
  · exact absurd halive hdead
  · exact absurd halive hdead

/-- A process that becomes a zombie was alive. -/
theorem of_new_zombie (h : Ages p p') (hbefore : p.state ≠ .zombie) (hafter : p'.state = .zombie) :
    p.pid ≠ 0 ∧ p.state.Alive := by
  rcases h.fate with ⟨-, hsame | ⟨-, halive⟩⟩ | ⟨hpid, halive, -⟩
  · exact absurd (hsame.symm.trans hafter) hbefore
  · exact absurd hafter halive.1
  · exact ⟨hpid, halive⟩

end Process.Ages

/-- Every slot ages, and a process that becomes current is in use or the idle process. -/
structure Ageing (s s' : Sched) : Prop where
  slot : ∀ i, (s.processes i).Ages (s'.processes i)
  nextPid : s'.nextPid = s.nextPid
  idle : s'.idle = s.idle
  current : ∀ c, s'.current = some c → s.current = some c ∨ s.idle = some c ∨ (s.processes c).used = true

namespace Ageing

variable {s s' s'' : Sched} {i : Nat}

theorem refl (s : Sched) : Ageing s s := ⟨fun _ => Process.Ages.refl _, rfl, rfl, fun _ hc => Or.inl hc⟩

theorem trans (h : Ageing s s') (h' : Ageing s' s'') : Ageing s s'' := by
  refine ⟨fun i => (h.slot i).trans (h'.slot i), h'.nextPid.trans h.nextPid, h'.idle.trans h.idle, fun c hc => ?_⟩
  rcases h'.current c hc with hbefore | hidle | hused
  · exact h.current c hbefore
  · exact Or.inr (Or.inl (h.idle.symm.trans hidle))
  · exact Or.inr (Or.inr ((h.slot c).used.symm.trans hused))

theorem set {p : Process} (hp : (s.processes i).Ages p) : Ageing s (s.set i p) := by
  refine ⟨fun j => ?_, rfl, rfl, fun _ hc => Or.inl hc⟩
  by_cases heq : j = i
  · rw [heq, set_processes_self]
    exact hp
  · rw [set_processes_of_ne heq]
    exact Process.Ages.refl _

theorem of_linksOnly (h : LinksOnly s s') : Ageing s s' := by
  refine ⟨fun j => Process.Ages.of_fields ?_ ?_ ?_ ?_, h.nextPid, h.idle, fun c hc => Or.inl (h.current.symm.trans hc)⟩
  · exact h.field Process.used (fun _ => rfl) j
  · exact h.field Process.pid (fun _ => rfl) j
  · exact h.field Process.waitStatus (fun _ => rfl) j
  · exact h.field Process.state (fun _ => rfl) j

end Ageing

/-- A live process is given another live state. -/
theorem setState_ageing {s : Sched} {i : Nat} {state : ProcessState} (hbefore : (s.processes i).state.Alive) (hafter : state.Alive) :
    Ageing s (s.setState i state) :=
  Ageing.set ⟨rfl, rfl, Or.inl ⟨rfl, Or.inr ⟨hbefore, hafter⟩⟩⟩

section Signals

variable {s : Sched} {i : Nat}

theorem wake_ageing (s : Sched) (i : Nat) : Ageing s (wake s i) := by
  rw [wake]
  split
  · rename_i hblocked
    have halive : (s.processes i).state.Alive := by simp [hblocked, ProcessState.Alive]
    exact (setState_ageing halive (by decide)).trans (Ageing.of_linksOnly (runqPush_linksOnly _ i))
  · exact Ageing.refl s

theorem wakeParentIfWaiting_ageing (s : Sched) (i : Nat) : Ageing s (wakeParentIfWaiting s i) := by
  rw [wakeParentIfWaiting]
  split
  · exact Ageing.refl s
  · split
    · exact Ageing.refl s
    · exact wake_ageing s _

theorem markZombie_ageing (hpid : (s.processes i).pid ≠ 0) (status : BitVec 32) : Ageing s (markZombie s i status) := by
  rw [markZombie]
  split
  · exact Ageing.refl s
  · rename_i halive
    have hset : Ageing s (s.set i { s.processes i with waitStatus := status, state := .zombie }) :=
      Ageing.set ⟨rfl, rfl, Or.inr ⟨hpid, not_or.mp halive, rfl⟩⟩
    exact hset.trans (wakeParentIfWaiting_ageing _ i)

theorem postSignal_ageing (hpid : (s.processes i).pid ≠ 0) (sig : Nat) : Ageing s (postSignal s i sig) := by
  rw [postSignal]
  split
  · exact markZombie_ageing hpid _
  · have hset : Ageing s (s.set i { s.processes i with signalPending := (s.processes i).signalPending ||| BitVec.twoPow 64 sig }) :=
      Ageing.set (Process.Ages.of_fields rfl rfl rfl rfl)
    exact hset.trans (wake_ageing _ i)

theorem prepareSignalAction_ageing (hpid : (s.processes i).pid ≠ 0) : Ageing s (prepareSignalAction s i).2 := by
  simp only [prepareSignalAction]
  split
  · exact Ageing.refl s
  split
  · exact Ageing.refl s
  rename_i sig _
  have hset : Ageing s (s.set i { s.processes i with
      signalPending := (s.processes i).signalPending &&& ~~~(BitVec.twoPow 64 sig) }) :=
    Ageing.set (Process.Ages.of_fields rfl rfl rfl rfl)
  split
  · exact hset
  split
  · refine hset.trans (markZombie_ageing ?_ _)
    rwa [set_processes_self]
  · exact hset

theorem deliverSignal_ageing (hcurrent : ∀ c, s.current = some c → (s.processes c).pid ≠ 0) : Ageing s (deliverSignal s).2 := by
  rw [deliverSignal]
  split
  · exact Ageing.refl s
  rename_i c hc
  split
  · exact prepareSignalAction_ageing (hcurrent c hc)
  · exact Ageing.refl s

theorem processExitCurrent_ageing (hcurrent : ∀ c, s.current = some c → (s.processes c).pid ≠ 0) (code : BitVec 32) :
    Ageing s (processExitCurrent s code).2 := by
  rw [processExitCurrent]
  split
  · exact Ageing.refl s
  · rename_i c hc
    exact markZombie_ageing (hcurrent c hc) _

theorem processKill_ageing (hused : ∀ i, (s.processes i).used = true → (s.processes i).pid ≠ 0) (pid sig : Int) :
    Ageing s (processKill s pid sig).2 := by
  simp only [processKill]
  split
  · exact Ageing.refl s
  split
  · exact Ageing.refl s
  rename_i i hi
  split
  · exact Ageing.refl s
  split
  · exact Ageing.refl s
  split
  · exact Ageing.refl s
  · exact postSignal_ageing (hused i (findByPid_some hi).2.1) _

theorem processKillPgid_ageing (hused : ∀ i, (s.processes i).used = true → (s.processes i).pid ≠ 0) (pgid sig : Int) :
    Ageing s (processKillPgid s pgid sig).2 := by
  have hloop : ∀ n, Ageing s ((List.range n).foldl (killPgidStep pgid sig.toNat) (0, s)).2 := by
    intro n
    induction n with
    | zero => exact Ageing.refl s
    | succ n ih =>
        rw [List.range_succ, List.foldl_append, List.foldl_cons, List.foldl_nil]
        generalize (List.range n).foldl (killPgidStep pgid sig.toNat) (0, s) = acc at ih
        rw [killPgidStep]
        split
        · rename_i hgroup
          refine ih.trans (postSignal_ageing ?_ _)
          rw [(ih.slot n).pid]
          exact hused n ((ih.slot n).used ▸ (inGroup_iff.mp hgroup).1)
        · exact ih
  rw [processKillPgid]
  split
  · exact Ageing.refl s
  · exact hloop processMaxCount

end Signals

/-! ### The other calls -/

section Calls

variable {s : Sched}

theorem processExec_ageing (s : Sched) (pid : Int) : Ageing s (processExec s pid).2 := by
  simp only [processExec]
  split
  · exact Ageing.refl s
  split
  · exact Ageing.refl s
  split
  · exact Ageing.refl s
  · exact Ageing.set (Process.Ages.of_fields rfl rfl rfl rfl)

theorem processSignalRegister_ageing (s : Sched) (pid sig : Int) (handler : Nat) :
    Ageing s (processSignalRegister s pid sig handler).2 := by
  simp only [processSignalRegister]
  split
  · exact Ageing.refl s
  split
  · exact Ageing.refl s
  split
  · exact Ageing.refl s
  · exact Ageing.set (Process.Ages.of_fields rfl rfl rfl rfl)

theorem processSignalMask_ageing (s : Sched) (pid : Int) (how : MaskHow) (set : BitVec 64) :
    Ageing s (processSignalMask s pid how set).2 := by
  simp only [processSignalMask]
  split
  · exact Ageing.refl s
  · exact Ageing.set (Process.Ages.of_fields rfl rfl rfl rfl)

theorem processYield_ageing (s : Sched) : Ageing s (processYield s) := by
  rw [processYield]
  split
  · exact Ageing.refl s
  · exact Ageing.set (Process.Ages.of_fields rfl rfl rfl rfl)

theorem processSetPriority_ageing (pid : Int) (priority : Nat) : Ageing s (processSetPriority s pid priority).2 := by
  simp only [processSetPriority]
  split
  · exact Ageing.refl s
  split
  · exact Ageing.refl s
  rename_i i hi
  split
  · exact Ageing.refl s
  have hremove : Ageing s (if (s.processes i).state = .ready then runqRemove s i else s) := by
    split
    · exact Ageing.of_linksOnly (runqRemove_linksOnly s i)
    · exact Ageing.refl s
  generalize (if (s.processes i).state = .ready then runqRemove s i else s) = s₁ at hremove
  have hset : Ageing s (s₁.set i { s₁.processes i with priority := priority }) :=
    hremove.trans (Ageing.set (Process.Ages.of_fields rfl rfl rfl rfl))
  split
  · exact hset.trans (Ageing.of_linksOnly (runqPush_linksOnly _ i))
  · exact hset

/-- The process a tick falls back to when no other is ready. -/
def fallback (s : Sched) : Option Nat := s.idle.or s.current

/-- The process that is run next was alive. -/
theorem makeCurrent_ageing {next : Nat} (halive : (s.processes next).state.Alive)
    (hnext : s.current = some next ∨ s.idle = some next ∨ (s.processes next).used = true) :
    Ageing s { s.setState next .running with current := some next } := by
  have hset : Ageing s (s.setState next .running) := setState_ageing halive (by decide)
  refine ⟨hset.slot, rfl, rfl, fun c hc => ?_⟩
  cases hc
  exact hnext

theorem switchNext_ageing (h : SchedInv s) {cur : Option Nat} (hcur : ∀ c, cur = some c → s.current = some c)
    (hnext : (∃ i < processMaxCount, (s.processes i).Runnable) ∨ ∀ f, s.idle.or cur = some f → (s.processes f).state.Alive) :
    Ageing s (switchNext s cur) := by
  have hlinks := runqPop_linksOnly s
  simp only [switchNext]
  rcases h.holds.pop with ⟨hnone, hempty, hsame⟩ | ⟨i, -, hrunnable, hsome, -⟩
  · rw [hnone, hsame, Option.none_or]
    split
    · exact ⟨fun _ => Process.Ages.refl _, rfl, rfl, by simp⟩
    · rename_i f hf
      rcases hnext with ⟨i, hlt, hrunnable⟩ | hfallback
      · exact absurd hrunnable (hempty i hlt)
      · refine makeCurrent_ageing (hfallback f hf) ?_
        cases hidle : s.idle with
        | none => exact Or.inl (hcur f (by simpa [hidle] using hf))
        | some k => exact Or.inr (Or.inl (by simpa [hidle] using hf))
  · rw [hsome, Option.some_or, Option.some_or]
    have hstate : ((runqPop s).2.processes i).state = .ready := by
      rw [hlinks.field Process.state fun _ => rfl]
      exact hrunnable.2.2
    have hused : ((runqPop s).2.processes i).used = true := by
      rw [hlinks.field Process.used fun _ => rfl]
      exact hrunnable.1
    refine (Ageing.of_linksOnly hlinks).trans (makeCurrent_ageing ?_ (Or.inr (Or.inr hused)))
    rw [hstate]
    exact alive_ready

theorem schedule_ageing (h : SchedInv s)
    (hused : ∀ c, s.current = some c → (s.processes c).state = .running → (s.processes c).used = true)
    (hnext : (∃ i < processMaxCount, (s.processes i).Runnable) ∨ ∀ f, fallback s = some f → (s.processes f).state.Alive) :
    Ageing s (schedule s) := by
  rcases schedule_cases s with ⟨hnone, heq⟩ | ⟨c, hc, hcases⟩
  · rw [heq]
    refine switchNext_ageing h (by simp) (hnext.imp_right fun hfallback f hf => hfallback f ?_)
    rw [fallback, hnone, hf]
  have hfallback : fallback s = s.idle.or (some c) := by rw [fallback, hc]
  have hcur : ∀ d, some c = some d → s.current = some d := fun d hd => hc.trans hd
  have hready : ∀ slice, (s.processes c).state = .running →
      Ageing s (s.set c { s.processes c with timeSlice := slice, state := .ready }) := by
    intro slice hrunning
    refine Ageing.set ⟨rfl, rfl, Or.inl ⟨rfl, Or.inr ⟨?_, alive_ready⟩⟩⟩
    simp [hrunning, ProcessState.Alive]
  rcases hcases with ⟨-, heq⟩ | ⟨hrunning, slice, heq | ⟨hidle, heq⟩ | ⟨hidle, heq⟩⟩
  · rw [heq]
    exact switchNext_ageing h hcur (hfallback ▸ hnext)
  · rw [heq]
    exact Ageing.set (Process.Ages.of_fields rfl rfl rfl rfl)
  · rw [heq]
    refine (hready slice hrunning).trans (switchNext_ageing (preemptIdle_schedInv h hrunning hidle slice) hcur ?_)
    -- the idle process goes back to ready, the others are as they were
    rcases hnext with ⟨i, hlt, hrunnable⟩ | halive
    · have hic : i ≠ c := by
        rintro rfl
        exact not_runnable_of_state (by simp [hrunning]) hrunnable
      exact Or.inl ⟨i, hlt, by rwa [set_processes_of_ne hic]⟩
    · refine Or.inr fun f hf => ?_
      by_cases hfc : f = c
      · rw [hfc, set_processes_self]
        exact alive_ready
      · rw [set_processes_of_ne hfc]
        exact halive f (hfallback.trans hf)
  · rw [heq]
    have hlt := h.current c hc
    have hpush := runqPush_linksOnly (s.set c { s.processes c with timeSlice := slice, state := .ready }) c
    have hinv := preempt_schedInv h hlt hrunning (hused c hc hrunning) hidle slice
    have hcur' := hpush.current.symm ▸ hcur
    refine ((hready slice hrunning).trans (Ageing.of_linksOnly hpush)).trans (switchNext_ageing hinv hcur' (Or.inl ⟨c, hlt, ?_⟩))
    rw [hpush.field Process.Runnable fun _ => rfl, set_processes_self]
    exact ⟨hused c hc hrunning, hidle, rfl⟩

theorem prepareSignalAction_state_of_ne {i j : Nat} (hne : j ≠ i) :
    ((prepareSignalAction s i).2.processes j).state = (s.processes j).state ∨
      (s.processes j).state = .blocked ∧ ((prepareSignalAction s i).2.processes j).state = .ready := by
  simp only [prepareSignalAction]
  split
  · exact Or.inl rfl
  split
  · exact Or.inl rfl
  split
  · rw [set_processes_of_ne hne]
    exact Or.inl rfl
  split
  · rename_i sig _ _ _
    have hmark := markZombie_state_of_ne (s := s.set i { s.processes i with
      signalPending := (s.processes i).signalPending &&& ~~~(BitVec.twoPow 64 sig) }) hne (waitStatusSignal sig)
    rw [set_processes_of_ne hne] at hmark
    exact hmark.imp_right fun h => ⟨h.1, h.2.1⟩
  · rw [set_processes_of_ne hne]
    exact Or.inl rfl

theorem deliverSignal_state_of_ne {j : Nat} (hne : s.current ≠ some j) :
    ((deliverSignal s).2.processes j).state = (s.processes j).state ∨
      (s.processes j).state = .blocked ∧ ((deliverSignal s).2.processes j).state = .ready := by
  rw [deliverSignal]
  split
  · exact Or.inl rfl
  rename_i c hc
  split
  · refine prepareSignalAction_state_of_ne ?_
    rintro rfl
    exact hne hc
  · exact Or.inl rfl

theorem deliverSignal_of_no_signal {c : Nat} (hc : s.current = some c)
    (hsignals : (s.processes c).signalPending &&& ~~~(s.processes c).signalMask = 0#64) : (deliverSignal s).2 = s := by
  have hpick : signalPickLowest 0#64 = none := by decide
  simp only [deliverSignal, hc, prepareSignalAction, hsignals, hpick]
  split
  · split
    · rfl
    · rfl
  · rfl

/-- The states from which a tick does not run a terminated process: one is ready, or the fallback is alive and no signal is about to be delivered to it. -/
def FallbackAlive (s : Sched) : Prop :=
  (∃ i < processMaxCount, (s.processes i).Runnable) ∨
    ∀ f, fallback s = some f → (s.processes f).state.Alive ∧
      (s.current = some f → (s.processes f).signalPending &&& ~~~(s.processes f).signalMask = 0#64)

theorem FallbackAlive.deliverSignal (h : FallbackAlive s) :
    (∃ i < processMaxCount, ((deliverSignal s).2.processes i).Runnable) ∨
      ∀ f, fallback (deliverSignal s).2 = some f → ((deliverSignal s).2.processes f).state.Alive := by
  have hkept := deliverSignal_kept s
  have hfallback : fallback (Tsukasa.deliverSignal s).2 = fallback s := by rw [fallback, hkept.idle, hkept.current, fallback]
  rcases h with ⟨i, hlt, hrunnable⟩ | halive
  · refine Or.inl ⟨i, hlt, ?_⟩
    rw [Process.Runnable, hkept.used, hkept.isIdle]
    refine ⟨hrunnable.1, hrunnable.2.1, ?_⟩
    have hready := hrunnable.2.2
    by_cases hcur : s.current = some i
    · simp only [Tsukasa.deliverSignal, hcur, hready]
      simp [hready]
    · rcases deliverSignal_state_of_ne hcur with hsame | ⟨-, hwoken⟩
      · rw [hsame, hready]
      · exact hwoken
  · refine Or.inr fun f hf => ?_
    obtain ⟨hf, hsignals⟩ := halive f (hfallback ▸ hf)
    by_cases hcur : s.current = some f
    · rwa [deliverSignal_of_no_signal hcur (hsignals hcur)]
    · rcases deliverSignal_state_of_ne hcur with hsame | ⟨-, hwoken⟩
      · rwa [hsame]
      · rw [hwoken]
        exact alive_ready

/-- After a tick the current process is running. -/
theorem switchNext_current {cur : Option Nat} {c : Nat} (h : (switchNext s cur).current = some c) :
    ((switchNext s cur).processes c).state = .running := by
  simp only [switchNext] at h ⊢
  split at h
  · cases h
  · cases h
    simp only [Sched.setState, set_processes_self]

theorem schedule_current {c : Nat} (h : (schedule s).current = some c) : ((schedule s).processes c).state = .running := by
  rcases schedule_cases s with ⟨-, heq⟩ | ⟨d, hd, ⟨-, heq⟩ | ⟨hrunning, slice, heq | ⟨-, heq⟩ | ⟨-, heq⟩⟩⟩
  · rw [heq] at h ⊢
    exact switchNext_current h
  · rw [heq] at h ⊢
    exact switchNext_current h
  · rw [heq] at h ⊢
    cases hd.symm.trans h
    rw [set_processes_self]
    exact hrunning
  · rw [heq] at h ⊢
    exact switchNext_current h
  · rw [heq] at h ⊢
    exact switchNext_current h

end Calls

theorem createKernelProcess_frame {s : Sched} {i : Nat} (parent : Option Nat) (ok : Bool) (hslot : allocProcessSlot s = some i) :
    (createKernelProcess s parent ok).2.current = s.current ∧ (createKernelProcess s parent ok).2.idle = s.idle ∧
      (createKernelProcess s parent ok).2.nextPid = wrap32 (s.nextPid + 1) := by
  rw [createKernelProcess_of_slot parent ok hslot]
  cases ok with
  | false => exact ⟨rfl, rfl, rfl⟩
  | true =>
      have hlinks := fun s' => runqPush_linksOnly s' i
      simp only [if_pos, (hlinks _).current, (hlinks _).idle, (hlinks _).nextPid]
      cases parent with
      | none => exact ⟨rfl, rfl, rfl⟩
      | some q =>
          have hfamily := parentLinkChild_childLinks (Sched.set { s with nextPid := wrap32 (s.nextPid + 1) } i
            { newProcess s (some q) i with kernelStack := true }) q i
          exact ⟨hfamily.current, hfamily.idle, hfamily.nextPid⟩

/-! ### Histories -/

structure History where
  sched : Sched
  /-- The pids of the processes terminated so far, with the status each was terminated with. -/
  terminated : List (Nat × BitVec 32)
  /-- What `process_waitpid` has returned so far. -/
  reported : List (Nat × BitVec 32)

/-- The processes that are zombies in the second state and not in the first. -/
def newZombies (s s' : Sched) : List (Nat × BitVec 32) :=
  ((List.range processMaxCount).filter fun i =>
    decide ((s.processes i).state ≠ .zombie) && decide ((s'.processes i).state = .zombie)).map
      fun i => ((s'.processes i).pid, (s'.processes i).waitStatus)

def History.observe (g : History) (s : Sched) : History :=
  { g with sched := s, terminated := g.terminated ++ newZombies g.sched s }

/-- One call. A tick is looked at between its signal part, which may terminate the current process, and its scheduling part. -/
def History.step (g : History) : SchedCall → History
  | .scheduleTick => (g.observe (deliverSignal g.sched).2).observe (processScheduleTick g.sched).2
  | .waitpid callerPid targetPid nohang =>
      match processWaitpid g.sched callerPid targetPid nohang with
      | (.reaped pid status, s) => { g.observe s with reported := g.reported ++ [(pid, status)] }
      | (_, s) => g.observe s
  | call => g.observe (call.step g.sched)

/-- The start of a history, at a state in which no process has been terminated. -/
def History.start (s : Sched) : History := ⟨s, [], []⟩

structure History.Inv (g : History) : Prop where
  sched : SchedInv g.sched
  nextPid_lt : g.sched.nextPid < 2 ^ 32
  pid_lt : ∀ i, (g.sched.processes i).pid < g.sched.nextPid
  outside : ∀ i, processMaxCount ≤ i → (g.sched.processes i).pid = 0
  usedPid : ∀ i, (g.sched.processes i).used = true → (g.sched.processes i).pid ≠ 0
  currentPid : ∀ c, g.sched.current = some c → (g.sched.processes c).pid ≠ 0
  idlePid : ∀ i, g.sched.idle = some i → (g.sched.processes i).pid ≠ 0
  unique : ∀ i j, (g.sched.processes i).pid = (g.sched.processes j).pid → (g.sched.processes i).pid ≠ 0 → i = j
  zombiePid : ∀ i, (g.sched.processes i).state = .zombie → (g.sched.processes i).pid ≠ 0
  zombie : ∀ i, (g.sched.processes i).state = .zombie →
    ((g.sched.processes i).pid, (g.sched.processes i).waitStatus) ∈ g.terminated ∧
      (g.sched.processes i).pid ∉ g.reported.map Prod.fst
  terminated_lt : ∀ e ∈ g.terminated, e.1 < g.sched.nextPid
  gone : ∀ e ∈ g.terminated, ∀ i, (g.sched.processes i).pid = e.1 → ¬(g.sched.processes i).state.Alive
  once : (g.terminated.map Prod.fst).Nodup
  reported_sub : ∀ e ∈ g.reported, e ∈ g.terminated
  reported_once : (g.reported.map Prod.fst).Nodup

theorem mem_newZombies {s s' : Sched} {e : Nat × BitVec 32} :
    e ∈ newZombies s s' ↔ ∃ i < processMaxCount, (s.processes i).state ≠ .zombie ∧ (s'.processes i).state = .zombie ∧
      e = ((s'.processes i).pid, (s'.processes i).waitStatus) := by
  simp only [newZombies, List.mem_map, List.mem_filter, List.mem_range, Bool.and_eq_true, decide_eq_true_eq]
  constructor
  · rintro ⟨i, ⟨hlt, hbefore, hafter⟩, rfl⟩
    exact ⟨i, hlt, hbefore, hafter, rfl⟩
  · rintro ⟨i, hlt, hbefore, hafter, rfl⟩
    exact ⟨i, ⟨hlt, hbefore, hafter⟩, rfl⟩

theorem newZombies_eq_nil {s s' : Sched}
    (h : ∀ i, (s'.processes i).state = .zombie → (s.processes i).state = .zombie) : newZombies s s' = [] := by
  rw [List.eq_nil_iff_forall_not_mem]
  intro e he
  obtain ⟨i, -, hbefore, hafter, -⟩ := mem_newZombies.mp he
  exact hbefore (h i hafter)

namespace History.Inv

variable {g : History} {s : Sched}

/-- A step that only ages the slots. -/
theorem observe (h : g.Inv) (hageing : Ageing g.sched s) (hsched : SchedInv s) : (g.observe s).Inv := by
  have hages := hageing.slot
  have hnew : ∀ e ∈ newZombies g.sched s, ∃ i < processMaxCount, (g.sched.processes i).pid = e.1 ∧ (g.sched.processes i).pid ≠ 0 ∧
      (g.sched.processes i).state.Alive ∧ (s.processes i).state = .zombie ∧ e.2 = (s.processes i).waitStatus := by
    intro e he
    obtain ⟨i, hlt, hbefore, hafter, rfl⟩ := mem_newZombies.mp he
    obtain ⟨hpid, halive⟩ := (hages i).of_new_zombie hbefore hafter
    exact ⟨i, hlt, (hages i).pid.symm, hpid, halive, hafter, rfl⟩
  refine ⟨hsched, ?_, ?_, ?_, ?_, ?_, ?_, ?_, ?_, ?_, ?_, ?_, ?_, ?_, h.reported_once⟩
  · exact hageing.nextPid ▸ h.nextPid_lt
  · intro i
    rw [History.observe, hageing.nextPid, (hages i).pid]
    exact h.pid_lt i
  · intro i hi
    exact (hages i).pid.trans (h.outside i hi)
  · intro i hi
    rw [History.observe, (hages i).pid]
    exact h.usedPid i ((hages i).used ▸ hi)
  · intro c hc
    rw [History.observe, (hages c).pid]
    rcases hageing.current c hc with hbefore | hidle | hused
    · exact h.currentPid c hbefore
    · exact h.idlePid c hidle
    · exact h.usedPid c hused
  · intro i hi
    rw [History.observe, (hages i).pid]
    exact h.idlePid i (hageing.idle ▸ hi)
  · intro i j heq hne
    rw [History.observe, (hages i).pid] at heq hne
    rw [(hages j).pid] at heq
    exact h.unique i j heq hne
  · intro i hi
    rw [History.observe, (hages i).pid]
    by_cases hbefore : (g.sched.processes i).state = .zombie
    · exact h.zombiePid i hbefore
    · exact ((hages i).of_new_zombie hbefore hi).1
  · intro i hi
    simp only [History.observe, List.mem_append]
    by_cases hbefore : (g.sched.processes i).state = .zombie
    · have hkeep := (hages i).of_not_alive (by simp [hbefore, ProcessState.Alive])
      rw [(hages i).pid, hkeep.2]
      exact ⟨Or.inl (h.zombie i hbefore).1, (h.zombie i hbefore).2⟩
    · obtain ⟨hpid, halive⟩ := (hages i).of_new_zombie hbefore hi
      have hlt : i < processMaxCount := by
        by_contra hge
        exact hpid (h.outside i (not_lt.mp hge))
      refine ⟨Or.inr (mem_newZombies.mpr ⟨i, hlt, hbefore, hi, rfl⟩), fun hmem => ?_⟩
      obtain ⟨e, he, heq⟩ := List.mem_map.mp hmem
      rw [(hages i).pid] at heq
      exact h.gone e (h.reported_sub e he) i heq.symm halive
  · intro e he
    rw [History.observe, hageing.nextPid]
    rcases List.mem_append.mp he with hold | hfresh
    · exact h.terminated_lt e hold
    · obtain ⟨i, -, hpid, -⟩ := hnew e hfresh
      exact hpid ▸ h.pid_lt i
  · intro e he i hi
    rw [History.observe, (hages i).pid] at hi
    rcases List.mem_append.mp he with hold | hfresh
    · have hdead := h.gone e hold i hi
      rw [History.observe, ((hages i).of_not_alive hdead).1]
      exact hdead
    · obtain ⟨j, -, hpid, hne, -, hzombie, -⟩ := hnew e hfresh
      have heq : j = i := h.unique j i (hpid.trans hi.symm) hne
      rw [← heq, History.observe, hzombie]
      decide
  · rw [History.observe, List.map_append, List.nodup_append]
    refine ⟨h.once, ?_, ?_⟩
    · rw [newZombies, List.map_map]
      refine List.Nodup.map_on ?_ (List.nodup_range.filter _)
      intro i hi j hj heq
      simp only [List.mem_filter, Bool.and_eq_true, decide_eq_true_eq] at hi
      simp only [Function.comp_apply, (hages i).pid, (hages j).pid] at heq
      exact h.unique i j heq ((hages i).of_new_zombie hi.2.1 hi.2.2).1
    · intro pid hold pid' hfresh heq
      obtain ⟨e, he, rfl⟩ := List.mem_map.mp hold
      obtain ⟨e', he', rfl⟩ := List.mem_map.mp hfresh
      obtain ⟨i, -, hpid, -, halive, -⟩ := hnew e' he'
      exact h.gone e he i (hpid.trans heq.symm) halive
  · intro e he
    exact List.mem_append_left _ (h.reported_sub e he)

/-- A step after which no process is newly a zombie, and which gives at most one slot a new pid. -/
theorem create (h : g.Inv) (parent : Option Nat) (ok : Bool) (hpid : g.sched.nextPid + 1 < 2 ^ 32) :
    (g.observe (createKernelProcess g.sched parent ok).2).Inv := by
  have hsched := createKernelProcess_schedInv h.sched parent ok
  cases hslot : allocProcessSlot g.sched with
  | none =>
      have hsame : (createKernelProcess g.sched parent ok).2 = g.sched := by simp only [createKernelProcess, hslot]
      rw [hsame] at hsched ⊢
      exact h.observe (Ageing.refl _) hsched
  | some k =>
      obtain ⟨hlt, -⟩ := allocProcessSlot_some hslot
      obtain ⟨hcurrent, hidle, hnext⟩ := createKernelProcess_frame parent ok hslot
      have hbare := createKernelProcess_bare parent ok hslot
      rw [wrap32_of_lt hpid] at hnext
      generalize (createKernelProcess g.sched parent ok).2 = s at hsched hcurrent hidle hnext hbare
      have hself := hbare k
      rw [if_pos rfl] at hself
      have hselfPid : (s.processes k).pid = g.sched.nextPid := (congrArg Process.pid hself :)
      have hselfState : (s.processes k).state = .ready := (congrArg Process.state hself :)
      have hother : ∀ i ≠ k, (s.processes i).bare = (g.sched.processes i).bare := by
        intro i hi
        rw [hbare i, if_neg hi]
      have hotherPid : ∀ i ≠ k, (s.processes i).pid = (g.sched.processes i).pid := fun i hi => (congrArg Process.pid (hother i hi) :)
      have hotherState : ∀ i ≠ k, (s.processes i).state = (g.sched.processes i).state :=
        fun i hi => (congrArg Process.state (hother i hi) :)
      have hpos : g.sched.nextPid ≠ 0 := Nat.ne_zero_of_lt (h.pid_lt k)
      have hquiet : newZombies g.sched s = [] := by
        refine newZombies_eq_nil fun i hi => ?_
        by_cases hik : i = k
        · rw [hik, hselfState] at hi
          cases hi
        · exact hotherState i hik ▸ hi
      have hpidNe : ∀ i, (i ≠ k → (g.sched.processes i).pid ≠ 0) → (s.processes i).pid ≠ 0 := by
        intro i hi
        by_cases hik : i = k
        · rw [hik, hselfPid]
          exact hpos
        · rw [hotherPid i hik]
          exact hi hik
      have hzombieNe : ∀ i, (s.processes i).state = .zombie → i ≠ k := by
        rintro i hi rfl
        rw [hselfState] at hi
        cases hi
      have hobserve : g.observe s = { g with sched := s } := by rw [History.observe, hquiet, List.append_nil]
      rw [hobserve]
      refine ⟨hsched, hnext ▸ hpid, ?_, ?_, ?_, ?_, ?_, ?_, ?_, ?_, ?_, ?_, h.once, h.reported_sub, h.reported_once⟩
      · intro i
        rw [hnext]
        by_cases hik : i = k
        · rw [hik, hselfPid]
          exact Nat.lt_succ_self _
        · rw [hotherPid i hik]
          exact Nat.lt_succ_of_lt (h.pid_lt i)
      · intro i hi
        rw [hotherPid i (by omega)]
        exact h.outside i hi
      · intro i hi
        refine hpidNe i fun hik => h.usedPid i ?_
        have hused : (s.processes i).used = (g.sched.processes i).used := (congrArg Process.used (hother i hik) :)
        exact hused ▸ hi
      · intro c hc
        exact hpidNe c fun _ => h.currentPid c (hcurrent ▸ hc)
      · intro i hi
        exact hpidNe i fun _ => h.idlePid i (hidle ▸ hi)
      · intro i j heq hne
        by_cases hik : i = k
        · by_cases hjk : j = k
          · rw [hik, hjk]
          · rw [hik, hselfPid, hotherPid j hjk] at heq
            exact absurd heq (Nat.ne_of_gt (h.pid_lt j))
        · by_cases hjk : j = k
          · rw [hjk, hselfPid, hotherPid i hik] at heq
            exact absurd heq (Nat.ne_of_lt (h.pid_lt i))
          · rw [hotherPid i hik] at heq hne
            rw [hotherPid j hjk] at heq
            exact h.unique i j heq hne
      · intro i hi
        have hik := hzombieNe i hi
        rw [hotherPid i hik]
        exact h.zombiePid i (hotherState i hik ▸ hi)
      · intro i hi
        have hik := hzombieNe i hi
        have hstatus : (s.processes i).waitStatus = (g.sched.processes i).waitStatus := (congrArg Process.waitStatus (hother i hik) :)
        rw [hotherPid i hik, hstatus]
        exact h.zombie i (hotherState i hik ▸ hi)
      · intro e he
        rw [hnext]
        exact Nat.lt_succ_of_lt (h.terminated_lt e he)
      · intro e he i hi
        -- the new pid is above every pid given out before
        by_cases hik : i = k
        · rw [hik, hselfPid] at hi
          exact absurd hi (Nat.ne_of_gt (h.terminated_lt e he))
        · rw [hotherPid i hik] at hi
          rw [hotherState i hik]
          exact h.gone e he i hi

/-- A zombie is reaped: its slot is freed and its pid and status are reported. -/
theorem reap (h : g.Inv) {child : Nat} (hzombie : (g.sched.processes child).state = .zombie) {s₁ : Sched} (hlinks : ChildLinks g.sched s₁)
    (hsched : SchedInv (resetProcessSlot s₁ child)) :
    { g.observe (resetProcessSlot s₁ child) with
      reported := g.reported ++ [((g.sched.processes child).pid, (g.sched.processes child).waitStatus)] }.Inv := by
  have hpid : ∀ i, ((resetProcessSlot s₁ child).processes i).pid = (g.sched.processes i).pid := by
    intro i
    rw [← hlinks.field Process.pid (fun _ _ _ => rfl) i, resetProcessSlot]
    by_cases hic : i = child
    · rw [hic, set_processes_self]
    · rw [set_processes_of_ne hic]
  have hstatus : ∀ i, ((resetProcessSlot s₁ child).processes i).waitStatus = (g.sched.processes i).waitStatus := by
    intro i
    rw [← hlinks.field Process.waitStatus (fun _ _ _ => rfl) i, resetProcessSlot]
    by_cases hic : i = child
    · rw [hic, set_processes_self]
    · rw [set_processes_of_ne hic]
  have hstate : ∀ i, ((resetProcessSlot s₁ child).processes i).state = if i = child then .dead else (g.sched.processes i).state := by
    intro i
    rw [← hlinks.field Process.state (fun _ _ _ => rfl) i, resetProcessSlot]
    by_cases hic : i = child
    · rw [hic, set_processes_self, if_pos rfl]
    · rw [set_processes_of_ne hic, if_neg hic]
  have hold : ∀ i, ((resetProcessSlot s₁ child).processes i).state = .zombie → i ≠ child ∧ (g.sched.processes i).state = .zombie := by
    intro i hi
    rw [hstate] at hi
    split at hi
    · cases hi
    · rename_i hic
      exact ⟨hic, hi⟩
  have hquiet : newZombies g.sched (resetProcessSlot s₁ child) = [] := newZombies_eq_nil fun i hi => (hold i hi).2
  have hnext : (resetProcessSlot s₁ child).nextPid = g.sched.nextPid := hlinks.nextPid
  simp only [History.observe, hquiet, List.append_nil]
  refine ⟨hsched, hnext ▸ h.nextPid_lt, ?_, ?_, ?_, ?_, ?_, ?_, ?_, ?_, ?_, ?_, h.once, ?_, ?_⟩
  · intro i
    rw [hnext, hpid]
    exact h.pid_lt i
  · intro i hi
    rw [hpid]
    exact h.outside i hi
  · intro i hi
    rw [hpid]
    refine h.usedPid i ?_
    rw [← hlinks.field Process.used (fun _ _ _ => rfl) i]
    by_cases hic : i = child
    · rw [hic, resetProcessSlot, set_processes_self] at hi
      cases hi
    · rwa [resetProcessSlot, set_processes_of_ne hic] at hi
  · intro c hc
    rw [hpid]
    exact h.currentPid c (hlinks.current.symm.trans hc)
  · intro i hi
    rw [hpid]
    exact h.idlePid i (hlinks.idle.symm.trans hi)
  · intro i j heq hne
    rw [hpid] at heq hne
    rw [hpid] at heq
    exact h.unique i j heq hne
  · intro i hi
    rw [hpid]
    exact h.zombiePid i (hold i hi).2
  · intro i hi
    obtain ⟨hic, hzombie'⟩ := hold i hi
    obtain ⟨hmem, hnew⟩ := h.zombie i hzombie'
    rw [hpid, hstatus]
    refine ⟨hmem, ?_⟩
    rw [List.map_append, List.mem_append, not_or]
    refine ⟨hnew, fun heq => hic (h.unique i child ?_ (h.zombiePid i hzombie'))⟩
    simpa using heq
  · intro e he
    rw [hnext]
    exact h.terminated_lt e he
  · intro e he i hi
    rw [hpid] at hi
    rw [hstate]
    split
    · decide
    · exact h.gone e he i hi
  · intro e he
    rcases List.mem_append.mp he with hbefore | hnow
    · exact h.reported_sub e hbefore
    · rw [List.mem_singleton.mp hnow]
      exact (h.zombie child hzombie).1
  · rw [List.map_append, List.nodup_append]
    refine ⟨h.reported_once, by simp, ?_⟩
    intro pid hbefore pid' hnow heq
    rw [List.map_singleton, List.mem_singleton] at hnow
    rw [heq, hnow] at hbefore
    exact (h.zombie child hzombie).2 hbefore

end History.Inv

/-! ### Safe steps -/

/-- The states from which a call leaves the terminated processes terminated: besides `RunqSafe`, a process that waits is alive, a tick does not fall back to a terminated process, and the pids have not run out. -/
def TerminationSafe (s : Sched) (call : SchedCall) : Prop :=
  RunqSafe s call ∧
    match call with
    | .spawnKernel _ => s.nextPid + 1 < 2 ^ 32
    | .waitpid callerPid _ nohang => nohang = false → ∀ c, s.current = some c → asInt (s.processes c).pid = callerPid →
        (s.processes c).state.Alive
    | .scheduleTick => FallbackAlive s
    | _ => True

theorem History.step_sched (g : History) (call : SchedCall) : (g.step call).sched = call.step g.sched := by
  cases call with
  | waitpid callerPid targetPid nohang =>
      simp only [History.step, SchedCall.step]
      split
      · rename_i heq
        simp only [History.observe, heq]
      · rename_i heq
        simp only [History.observe, heq]
  | _ => rfl

theorem History.Inv.tick {g : History} (h : g.Inv) (hsafe : TerminationSafe g.sched .scheduleTick) :
    (g.step .scheduleTick).Inv := by
  obtain ⟨hused, hfallback⟩ := hsafe
  have hkept := deliverSignal_kept g.sched
  have hmiddle : (g.observe (deliverSignal g.sched).2).Inv :=
    h.observe (deliverSignal_ageing h.currentPid) (deliverSignal_schedInv h.sched)
  have hused' : ∀ c, (deliverSignal g.sched).2.current = some c → ((deliverSignal g.sched).2.processes c).state = .running →
      ((deliverSignal g.sched).2.processes c).used = true := by
    intro c hc hrunning
    rw [hkept.current] at hc
    rw [hkept.used]
    by_cases hbefore : (g.sched.processes c).state = .running
    · exact hused c hc hbefore
    · simp only [deliverSignal, hc, if_neg hbefore] at hrunning
      exact absurd hrunning hbefore
  exact hmiddle.observe (schedule_ageing hmiddle.sched hused' hfallback.deliverSignal) (processScheduleTick_schedInv h.sched hused)

theorem History.Inv.waitpid {g : History} (h : g.Inv) {callerPid targetPid : Int} {nohang : Bool}
    (hsafe : TerminationSafe g.sched (.waitpid callerPid targetPid nohang)) : (g.step (.waitpid callerPid targetPid nohang)).Inv := by
  obtain ⟨hrunq, halive⟩ := hsafe
  have hsched : SchedInv (processWaitpid g.sched callerPid targetPid nohang).2 := processWaitpid_schedInv h.sched hrunq
  have hsame : (g.observe g.sched).Inv := h.observe (Ageing.refl _) h.sched
  rw [History.step]
  simp only [processWaitpid] at hsched ⊢
  cases hcaller : findByPid g.sched callerPid with
  | none => exact hsame
  | some caller =>
      simp only [hcaller] at hsched ⊢
      rcases hscan : waitScan g.sched caller targetPid (processMaxCount + 1) (g.sched.processes caller).childrenHead false with
        ⟨_ | child, matched⟩
      · cases matched with
        | false => exact hsame
        | true =>
            simp only [hscan] at hsched ⊢
            cases nohang with
            | true => exact hsame
            | false =>
                simp only [Bool.false_eq_true, if_false] at hsched ⊢
                cases hc : g.sched.current with
                | none => exact hsame
                | some c =>
                    simp only [hc] at hsched ⊢
                    by_cases hpid : (g.sched.processes c).pid = (g.sched.processes caller).pid
                    · rw [if_pos hpid] at hsched ⊢
                      have hcallerPid : asInt (g.sched.processes c).pid = callerPid := by
                        rw [hpid]
                        exact (findByPid_some hcaller).2.2
                      exact h.observe (setState_ageing (halive rfl c hc hcallerPid) (by decide)) hsched
                    · rw [if_neg hpid]
                      exact hsame
      · simp only [hscan] at hsched ⊢
        exact h.reap (waitScan_zombie (congrArg Prod.fst hscan)) (parentUnlinkChild_childLinks g.sched caller child) hsched

theorem History.step_inv {g : History} (h : g.Inv) {call : SchedCall} (hsafe : TerminationSafe g.sched call) : (g.step call).Inv := by
  have hsched : SchedInv (call.step g.sched) := SchedCall.step_schedInv h.sched hsafe.1
  cases call with
  | spawnKernel ok => exact h.create g.sched.current ok hsafe.2
  | exec pid => exact h.observe (processExec_ageing g.sched pid) hsched
  | exitCurrent code => exact h.observe (processExitCurrent_ageing h.currentPid code) hsched
  | kill pid sig => exact h.observe (processKill_ageing h.usedPid pid sig) hsched
  | killPgid pgid sig => exact h.observe (processKillPgid_ageing h.usedPid pgid sig) hsched
  | setPriority pid priority => exact h.observe (processSetPriority_ageing pid priority) hsched
  | signalRegister pid sig handler => exact h.observe (processSignalRegister_ageing g.sched pid sig handler) hsched
  | signalMask pid how set => exact h.observe (processSignalMask_ageing g.sched pid how set) hsched
  | waitpid callerPid targetPid nohang => exact h.waitpid hsafe
  | yield => exact h.observe (processYield_ageing g.sched) hsched
  | scheduleTick => exact h.tick hsafe

/-- The process table `process_init` leaves: the first process, and the idle process if there is one. -/
theorem processInit_table (vmOk idleOk : Bool) (i : Nat) :
    ((processInit vmOk idleOk).processes i).pid = (if i = 0 then 1 else if i = 1 ∧ vmOk = true then 2 else 0) ∧
      (((processInit vmOk idleOk).processes i).used = true → ((processInit vmOk idleOk).processes i).pid ≠ 0) ∧
      ((processInit vmOk idleOk).processes i).state ≠ .zombie := by
  cases vmOk with
  | false =>
      match i with
      | 0 => decide +revert
      | 1 => decide +revert
      | _ + 2 => exact ⟨rfl, nofun, nofun⟩
  | true =>
      cases idleOk with
      | false =>
          match i with
          | 0 => decide
          | 1 => decide
          | _ + 2 => exact ⟨rfl, nofun, nofun⟩
      | true =>
          match i with
          | 0 => decide
          | 1 => decide
          | _ + 2 => exact ⟨rfl, nofun, nofun⟩

theorem processInit_owners (vmOk idleOk : Bool) :
    (processInit vmOk idleOk).nextPid = (if vmOk then 3 else 2) ∧
      (∀ c, (processInit vmOk idleOk).current = some c → c = 0) ∧
      ∀ i, (processInit vmOk idleOk).idle = some i → i = 1 ∧ vmOk = true := by
  cases vmOk with
  | false => exact ⟨rfl, nofun, nofun⟩
  | true =>
      cases idleOk with
      | false => exact ⟨rfl, fun c hc => (Option.some.inj hc).symm, nofun⟩
      | true => exact ⟨rfl, fun c hc => (Option.some.inj hc).symm, fun i hi => ⟨(Option.some.inj hi).symm, rfl⟩⟩

theorem History.start_inv (vmOk idleOk : Bool) : (History.start (processInit vmOk idleOk)).Inv := by
  have htable := processInit_table vmOk idleOk
  obtain ⟨hnext, hcurrent, hidle⟩ := processInit_owners vmOk idleOk
  have hpid := fun i => (htable i).1
  refine ⟨processInit_schedInv vmOk idleOk, ?_, ?_, ?_, fun i => (htable i).2.1, ?_, ?_, ?_, ?_, ?_, ?_, ?_, ?_, ?_, ?_⟩ <;>
    simp only [History.start]
  · rw [hnext]
    split <;> decide
  · intro i
    rw [hpid, hnext]
    split
    · split <;> decide
    · cases vmOk with
      | false => simp
      | true => split <;> decide
  · intro i hi
    rw [hpid, if_neg (by simp only [processMaxCount] at hi; omega), if_neg (by simp only [processMaxCount] at hi; omega)]
  · intro c hc
    rw [hpid, if_pos (hcurrent c hc)]
    decide
  · intro i hi
    obtain ⟨rfl, hvm⟩ := hidle i hi
    rw [hpid, if_neg (by decide), if_pos ⟨rfl, hvm⟩]
    decide
  · intro i j heq hne
    rw [hpid] at heq hne
    rw [hpid] at heq
    split_ifs at heq hne <;> omega
  · exact fun i hi => absurd hi (htable i).2.2
  · exact fun i hi => absurd hi (htable i).2.2
  · exact nofun
  · exact nofun
  · exact List.nodup_nil
  · exact nofun
  · exact List.nodup_nil

/-! ### Runs -/

/-- A process that has been terminated is never again in a state in which it could run. -/
def History.Final (g : History) : Prop :=
  ∀ e ∈ g.terminated, ∀ i < processMaxCount, (g.sched.processes i).pid = e.1 →
    (g.sched.processes i).state ≠ .running ∧ (g.sched.processes i).state ≠ .ready ∧ (g.sched.processes i).state ≠ .blocked

/-- Every pid is reported at most once, with the status it was first terminated with. -/
def History.ReportedOnce (g : History) : Prop :=
  (g.reported.map Prod.fst).Nodup ∧ ∀ e ∈ g.reported, g.terminated.find? (fun d => d.1 == e.1) = some e

theorem History.Inv.final {g : History} (h : g.Inv) : g.Final := by
  intro e he i _ hi
  have hdead := h.gone e he i hi
  refine ⟨fun hstate => hdead ?_, fun hstate => hdead ?_, fun hstate => hdead ?_⟩ <;> rw [hstate] <;> decide

theorem History.Inv.reportedOnce {g : History} (h : g.Inv) : g.ReportedOnce := by
  refine ⟨h.reported_once, fun e he => ?_⟩
  have hmem := h.reported_sub e he
  cases hfind : g.terminated.find? (fun d => d.1 == e.1) with
  | none => exact absurd (List.find?_eq_none.mp hfind e hmem) (by simp)
  | some d =>
      have hd : d ∈ g.terminated := List.mem_of_find?_eq_some hfind
      have heq : d.1 = e.1 := by simpa using List.find?_some hfind
      rw [List.inj_on_of_nodup_map h.once hd hmem heq]

/-- In every run from `process_init` whose steps are safe, a terminated process stays terminated, a tick makes no terminated process current, and no process is reported twice or with another status than the one it was terminated with. -/
theorem sched_run_termination_final (vmOk idleOk : Bool) (calls : List SchedCall)
    (hsafe : Allowed (fun g => TerminationSafe g.sched) History.step (History.start (processInit vmOk idleOk)) calls) :
    let g := run History.step (History.start (processInit vmOk idleOk)) calls
    g.Final ∧ g.ReportedOnce ∧ ∀ before, calls = before ++ [.scheduleTick] →
      ∀ c, g.sched.current = some c → (g.sched.processes c).pid ∉ g.terminated.map Prod.fst := by
  intro g
  have hstep : ∀ (g : History) (call : SchedCall), g.Inv → TerminationSafe g.sched call → (g.step call).Inv :=
    fun _ _ h hok => History.step_inv h hok
  have hinv : g.Inv := run_invariant hstep (History.start_inv vmOk idleOk) hsafe
  refine ⟨hinv.final, hinv.reportedOnce, fun before hlast c hc hmem => ?_⟩
  obtain ⟨e, he, heq⟩ := List.mem_map.mp hmem
  have hrunning : (g.sched.processes c).state = .running := by
    have hsched : g.sched = schedule (deliverSignal (run History.step (History.start (processInit vmOk idleOk)) before).sched).2 := by
      simp only [g, hlast, run_append, run_cons, run_nil, History.step_sched]
      rfl
    rw [hsched] at hc ⊢
    exact schedule_current hc
  exact hinv.gone e he c heq.symm (by rw [hrunning]; decide)

/-- A process is started, runs, exits with code 7 and is waited for by its parent. -/
def oneExit : List SchedCall := [.spawnKernel true, .scheduleTick, .exitCurrent 7#32, .scheduleTick, .waitpid 1 (-1) false]

theorem sched_run_termination_final_oneExit :
    (run History.step (History.start (processInit true true)) oneExit).reported = [(3, 0x700#32)] ∧
      (run History.step (History.start (processInit true true)) oneExit).Final ∧
      (run History.step (History.start (processInit true true)) oneExit).ReportedOnce := by
  have hsafe : Allowed (fun g => TerminationSafe g.sched) History.step (History.start (processInit true true)) oneExit := by
    have hcurrent₁ : (run History.step (History.start (processInit true true)) (oneExit.take 1)).sched.current = some 0 := by decide
    have hcurrent₂ : (run History.step (History.start (processInit true true)) (oneExit.take 2)).sched.current = some 2 := by decide
    have hcurrent₃ : (run History.step (History.start (processInit true true)) (oneExit.take 3)).sched.current = some 2 := by decide
    have hcurrent₄ : (run History.step (History.start (processInit true true)) (oneExit.take 4)).sched.current = some 0 := by decide
    refine ⟨⟨trivial, by decide⟩, ⟨fun c hc => ?_, Or.inl ⟨2, by decide, by decide⟩⟩, ⟨fun c hc => ?_, trivial⟩,
      ⟨fun c hc => ?_, Or.inl ⟨0, by decide, by decide⟩⟩, ⟨fun _ c hc _ => ?_, fun _ c hc _ => ?_⟩, trivial⟩
    · cases hcurrent₁.symm.trans hc
      decide
    · cases hcurrent₂.symm.trans hc
      decide
    · cases hcurrent₃.symm.trans hc
      decide
    · cases hcurrent₄.symm.trans hc
      decide
    · cases hcurrent₄.symm.trans hc
      decide
  have hrun := sched_run_termination_final true true oneExit hsafe
  exact ⟨by decide, hrun.1, hrun.2.1⟩

/-- A process that is killed while it waits in its run queue is run by the next tick. -/
theorem sched_tick_runs_killed_process :
    ¬(run History.step (History.start (processInit true true)) [.spawnKernel true, .kill 3 9, .scheduleTick]).Final := by
  intro hfinal
  have hkilled : (3, 9#32) ∈
      (run History.step (History.start (processInit true true)) [.spawnKernel true, .kill 3 9, .scheduleTick]).terminated := by decide
  exact (hfinal _ hkilled 2 (by decide) (by decide)).1 (by decide)

end Tsukasa
