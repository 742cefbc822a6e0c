import Tsukasa.Proc.SchedFrame
import Tsukasa.Proc.Termination

/-!
# Signal delivery

Which step of which call clears a pending signal. Posting sets one bit, a tick clears at most the lowest unmasked bit of the running process, `process_exec` and the reuse of a slot clear all bits of theirs, and no other call touches a pending set. The proofs need nothing of the run queues, so the results hold along every run.
-/

namespace Tsukasa

open Lib

namespace Sched

def Pending (s : Sched) (i sig : Nat) : Prop := (s.processes i).signalPending.getLsbD sig = true

def Masked (s : Sched) (i sig : Nat) : Prop := (s.processes i).signalMask.getLsbD sig = true

instance (s : Sched) (i sig : Nat) : Decidable (s.Pending i sig) := inferInstanceAs (Decidable (_ = true))

instance (s : Sched) (i sig : Nat) : Decidable (s.Masked i sig) := inferInstanceAs (Decidable (_ = true))

/-- The lowest-numbered signal of the process that is pending and not masked. -/
structure Lowest (s : Sched) (i sig : Nat) : Prop where
  pos : 1 ≤ sig
  lt : sig < processMaxSignals
  pending : s.Pending i sig
  unmasked : ¬ s.Masked i sig
  least : ∀ lower, 1 ≤ lower → lower < sig → s.Pending i lower → s.Masked i lower

/-- `SIGKILL` is in no mask and has the default handler everywhere. -/
def KillSafe (s : Sched) : Prop :=
  ∀ i, ¬ s.Masked i processSigkill ∧ (s.processes i).signalHandlers processSigkill = processSigDfl

end Sched

/-- The pending set, the mask and the handlers of a process. -/
def Process.signals (p : Process) : BitVec 64 × BitVec 64 × (Nat → Nat) := (p.signalPending, p.signalMask, p.signalHandlers)

/-- No signal data differs between the states. -/
def SameSignals (s s' : Sched) : Prop := ∀ i, (s'.processes i).signals = (s.processes i).signals

/-- Masks and handlers are the same, and nothing pending has been cleared. -/
structure OnlyPosts (s s' : Sched) : Prop where
  mask : ∀ i, (s'.processes i).signalMask = (s.processes i).signalMask
  handlers : ∀ i, (s'.processes i).signalHandlers = (s.processes i).signalHandlers
  pending : ∀ i sig, s.Pending i sig → s'.Pending i sig

variable {s s' s'' : Sched}

theorem SchedOnly.sameSignals (h : SchedOnly s s') : SameSignals s s' := h.field Process.signals fun _ => rfl

namespace SameSignals

theorem pending (h : SameSignals s s') (i : Nat) : (s'.processes i).signalPending = (s.processes i).signalPending :=
  congrArg (·.1) (h i)

theorem mask (h : SameSignals s s') (i : Nat) : (s'.processes i).signalMask = (s.processes i).signalMask :=
  congrArg (·.2.1) (h i)

theorem handlers (h : SameSignals s s') (i : Nat) : (s'.processes i).signalHandlers = (s.processes i).signalHandlers :=
  congrArg (·.2.2) (h i)

theorem onlyPosts (h : SameSignals s s') : OnlyPosts s s' where
  mask := h.mask
  handlers := h.handlers
  pending i sig hpending := by
    rw [Sched.Pending, h.pending]
    exact hpending

end SameSignals

namespace OnlyPosts

theorem refl (s : Sched) : OnlyPosts s s := ⟨fun _ => rfl, fun _ => rfl, fun _ _ h => h⟩

theorem trans (h : OnlyPosts s s') (h' : OnlyPosts s' s'') : OnlyPosts s s'' :=
  ⟨fun i => (h'.mask i).trans (h.mask i), fun i => (h'.handlers i).trans (h.handlers i),
    fun i sig hpending => h'.pending i sig (h.pending i sig hpending)⟩

theorem killSafe (h : OnlyPosts s s') (hs : s.KillSafe) : s'.KillSafe := by
  intro i
  rw [Sched.Masked, h.mask, h.handlers]
  exact hs i

end OnlyPosts

/-! ### Posting -/

theorem postSignal_onlyPosts (s : Sched) (i sig : Nat) : OnlyPosts s (postSignal s i sig) := by
  rw [postSignal]
  split
  · exact (markZombie_schedOnly s i _).sameSignals.onlyPosts
  · have hset : OnlyPosts s (s.set i { s.processes i with signalPending := (s.processes i).signalPending ||| BitVec.twoPow 64 sig }) := by
      refine ⟨fun j => ?_, fun j => ?_, fun j k hpending => ?_⟩
      all_goals by_cases heq : j = i
      · rw [heq, set_processes_self]
      · rw [set_processes_of_ne heq]
      · rw [heq, set_processes_self]
      · rw [set_processes_of_ne heq]
      · subst heq
        rw [Sched.Pending] at hpending
        rw [Sched.Pending, set_processes_self, BitVec.getLsbD_or, hpending, Bool.true_or]
      · rw [Sched.Pending, set_processes_of_ne heq]
        exact hpending
    exact hset.trans (wake_schedOnly _ i).sameSignals.onlyPosts

theorem processKill_onlyPosts (s : Sched) (pid sig : Int) : OnlyPosts s (processKill s pid sig).2 := by
  rw [processKill]
  split
  · exact OnlyPosts.refl s
  split
  · exact OnlyPosts.refl s
  split_ifs
  · exact OnlyPosts.refl s
  · exact OnlyPosts.refl s
  · exact OnlyPosts.refl s
  · exact postSignal_onlyPosts s _ _

theorem processKillPgid_onlyPosts (s : Sched) (pgid sig : Int) : OnlyPosts s (processKillPgid s pgid sig).2 := by
  rw [processKillPgid]
  split
  · exact OnlyPosts.refl s
  generalize List.range processMaxCount = slots
  have hloop : ∀ acc : Int × Sched, OnlyPosts acc.2 (slots.foldl (killPgidStep pgid sig.toNat) acc).2 := by
    induction slots with
    | nil => exact fun acc => OnlyPosts.refl acc.2
    | cons i slots ih =>
        intro acc
        rw [List.foldl_cons]
        refine OnlyPosts.trans ?_ (ih _)
        rw [killPgidStep]
        split
        · exact postSignal_onlyPosts acc.2 i _
        · exact OnlyPosts.refl acc.2
  exact hloop (0, s)

/-- A signal other than `SIGKILL` that `process_kill` accepts is pending afterwards. -/
theorem processKill_posts {pid sig : Int} {i : Nat} (hpid : 0 < pid) (hfound : findByPid s pid = some i)
    (hstate : (s.processes i).state ≠ .dead) (hpos : 0 < sig) (hlt : sig < processMaxSignals) (hkill : sig ≠ processSigkill) :
    (processKill s pid sig).1 = 0 ∧ (processKill s pid sig).2.Pending i sig.toNat := by
  have hnat : sig.toNat ≠ processSigkill := by
    simp only [processSigkill] at hkill ⊢
    omega
  have hbound : sig.toNat < 64 := by
    simp only [processMaxSignals] at hlt
    omega
  have hrun : processKill s pid sig = (0, postSignal s i sig.toNat) := by
    rw [processKill, if_neg (by omega), hfound]
    simp only [if_neg hstate]
    rw [if_neg (by omega), if_neg (by omega)]
  refine ⟨by rw [hrun], ?_⟩
  rw [hrun, postSignal, if_neg hnat, Sched.Pending, (wake_schedOnly _ i).sameSignals.pending, set_processes_self,
    BitVec.getLsbD_or, BitVec.getLsbD_twoPow]
  simp [hbound]

/-- `SIGKILL` makes every live process a zombie that reports the signal. -/
theorem processKill_sigkill {pid : Int} {i : Nat} (hpid : 0 < pid) (hfound : findByPid s pid = some i)
    (halive : (s.processes i).state.Alive) :
    (processKill s pid processSigkill).1 = 0 ∧ ((processKill s pid processSigkill).2.processes i).state = .zombie ∧
      ((processKill s pid processSigkill).2.processes i).waitStatus = waitStatusSignal processSigkill := by
  obtain ⟨hzombie, hdead⟩ := halive
  have hrun : processKill s pid processSigkill =
      (0, wakeParentIfWaiting (s.set i { s.processes i with
        waitStatus := waitStatusSignal processSigkill, state := .zombie }) i) := by
    rw [processKill, if_neg (by omega), hfound]
    simp only [if_neg hdead]
    rw [if_neg (by decide), if_neg (by decide), postSignal, Int.toNat_natCast, if_pos rfl, markZombie,
      if_neg (not_or.mpr ⟨hzombie, hdead⟩)]
  have hwake := (wakeParentIfWaiting_ageing (s.set i { s.processes i with
    waitStatus := waitStatusSignal processSigkill, state := .zombie }) i).slot i
  rw [set_processes_self] at hwake
  obtain ⟨hstate, hstatus⟩ := hwake.of_not_alive (fun h => h.1 rfl)
  rw [hrun]
  exact ⟨rfl, hstate, hstatus⟩

/-! ### The tick -/

theorem signalPickLowest_some {mask : BitVec 64} {sig : Nat} (h : signalPickLowest mask = some sig) :
    1 ≤ sig ∧ sig < processMaxSignals ∧ mask.getLsbD sig = true ∧ ∀ lower, 1 ≤ lower → lower < sig → mask.getLsbD lower = false := by
  obtain ⟨hbit, hmem, hleast⟩ := List.find?_range'_eq_some.mp h
  rw [List.mem_range'_1] at hmem
  refine ⟨hmem.1, hmem.2, hbit, fun lower hlo hhi => ?_⟩
  simpa using hleast lower hlo hhi

/-- What a tick may clear: the lowest unmasked signal of the process it finds running. -/
def TickClears (s : Sched) (i sig : Nat) : Prop :=
  s.current = some i ∧ (s.processes i).state = .running ∧ s.Lowest i sig

theorem lowest_of_pick {i sig : Nat}
    (h : signalPickLowest ((s.processes i).signalPending &&& ~~~(s.processes i).signalMask) = some sig) : s.Lowest i sig := by
  obtain ⟨hpos, hlt, hbit, hleast⟩ := signalPickLowest_some h
  have hlt' : sig < 64 := hlt
  rw [BitVec.getLsbD_and, BitVec.getLsbD_not, Bool.and_eq_true] at hbit
  refine ⟨hpos, hlt, hbit.1, ?_, fun lower hlo hhi hpending => ?_⟩
  · rw [Sched.Masked]
    simpa [hlt'] using hbit.2
  · have hlower := hleast lower hlo hhi
    rw [Sched.Pending] at hpending
    rw [BitVec.getLsbD_and, BitVec.getLsbD_not, hpending] at hlower
    rw [Sched.Masked]
    simpa [show lower < 64 by omega] using hlower

/-- What the delivery leaves in the pending set of each process. -/
theorem prepareSignalAction_signals (s : Sched) (c : Nat) :
    SameSignals s (prepareSignalAction s c).2 ∨
      ∃ sig, s.Lowest c sig ∧ SameSignals (s.set c { s.processes c with
        signalPending := (s.processes c).signalPending &&& ~~~(BitVec.twoPow 64 sig) }) (prepareSignalAction s c).2 := by
  simp only [prepareSignalAction]
  split
  · exact Or.inl (SchedOnly.refl s).sameSignals
  split
  · exact Or.inl (SchedOnly.refl s).sameSignals
  rename_i sig hpick
  refine Or.inr ⟨sig, lowest_of_pick hpick, ?_⟩
  split
  · exact (SchedOnly.refl _).sameSignals
  split
  · exact (markZombie_schedOnly _ c _).sameSignals
  · exact (SchedOnly.refl _).sameSignals

/-- A tick changes no mask and no handler, and of one pending set at most one bit. -/
structure TickSignals (s s' : Sched) : Prop where
  mask : ∀ i, (s'.processes i).signalMask = (s.processes i).signalMask
  handlers : ∀ i, (s'.processes i).signalHandlers = (s.processes i).signalHandlers
  pending : ∀ i, (s'.processes i).signalPending = (s.processes i).signalPending ∨
    ∃ sig, TickClears s i sig ∧ (s'.processes i).signalPending = (s.processes i).signalPending &&& ~~~(BitVec.twoPow 64 sig)

theorem SameSignals.tickSignals (h : SameSignals s s') : TickSignals s s' := ⟨h.mask, h.handlers, fun i => Or.inl (h.pending i)⟩

theorem deliverSignal_tickSignals (s : Sched) : TickSignals s (deliverSignal s).2 := by
  rw [deliverSignal]
  split
  · exact (SchedOnly.refl s).sameSignals.tickSignals
  rename_i c hcurrent
  split
  · rename_i hrunning
    rcases prepareSignalAction_signals s c with hsame | ⟨sig, hlowest, hsame⟩
    · exact hsame.tickSignals
    · refine ⟨fun i => ?_, fun i => ?_, fun i => ?_⟩
      all_goals by_cases heq : i = c
      · rw [hsame.mask, heq, set_processes_self]
      · rw [hsame.mask, set_processes_of_ne heq]
      · rw [hsame.handlers, heq, set_processes_self]
      · rw [hsame.handlers, set_processes_of_ne heq]
      · subst heq
        refine Or.inr ⟨sig, ⟨hcurrent, hrunning, hlowest⟩, ?_⟩
        rw [hsame.pending, set_processes_self]
      · exact Or.inl (by rw [hsame.pending, set_processes_of_ne heq])
  · exact (SchedOnly.refl s).sameSignals.tickSignals

theorem processScheduleTick_tickSignals (s : Sched) : TickSignals s (processScheduleTick s).2 := by
  have hdeliver := deliverSignal_tickSignals s
  have hsame := (schedule_schedOnly (deliverSignal s).2).sameSignals
  refine ⟨fun i => ?_, fun i => ?_, fun i => ?_⟩
  · exact (hsame.mask i).trans (hdeliver.mask i)
  · exact (hsame.handlers i).trans (hdeliver.handlers i)
  · have hpending : ((processScheduleTick s).2.processes i).signalPending = ((deliverSignal s).2.processes i).signalPending :=
      hsame.pending i
    rw [hpending]
    exact hdeliver.pending i

namespace TickSignals

variable {i sig : Nat}

theorem killSafe (h : TickSignals s s') (hs : s.KillSafe) : s'.KillSafe := by
  intro i
  rw [Sched.Masked, h.mask, h.handlers]
  exact hs i

theorem clears (h : TickSignals s s') (hpending : s.Pending i sig) (hcleared : ¬ s'.Pending i sig) : TickClears s i sig := by
  rw [Sched.Pending] at hpending hcleared
  rcases h.pending i with hsame | ⟨k, hclears, hbit⟩
  · rw [hsame] at hcleared
    exact absurd hpending hcleared
  · -- the bit that is gone is the one the tick removed
    have hlt : sig < 64 := by
      by_contra hge
      rw [BitVec.getLsbD_of_ge _ _ (by omega)] at hpending
      simp at hpending
    rw [hbit, BitVec.getLsbD_and, hpending, BitVec.getLsbD_not, BitVec.getLsbD_twoPow] at hcleared
    have hsig : k < 64 ∧ k = sig := by simpa [hlt] using hcleared
    rw [← hsig.2]
    exact hclears

end TickSignals

/-! ### The calls that change signal data of one process -/

/-- A step that may rewrite the signal data of one slot only. -/
def SignalsBut (i : Nat) (s s' : Sched) : Prop := ∀ j, j ≠ i → (s'.processes j).signals = (s.processes j).signals

theorem signalsBut_set (s : Sched) (i : Nat) (p : Process) : SignalsBut i s (s.set i p) := by
  intro j hne
  rw [set_processes_of_ne hne]

theorem SignalsBut.pending {i j sig : Nat} (h : SignalsBut i s s') (hne : j ≠ i) : s'.Pending j sig ↔ s.Pending j sig := by
  have hsame : (s'.processes j).signalPending = (s.processes j).signalPending := congrArg (·.1) (h j hne)
  rw [Sched.Pending, Sched.Pending, hsame]

theorem SignalsBut.killSafe {i : Nat} (h : SignalsBut i s s') (hs : s.KillSafe)
    (hi : ¬ s'.Masked i processSigkill ∧ (s'.processes i).signalHandlers processSigkill = processSigDfl) : s'.KillSafe := by
  intro j
  by_cases heq : j = i
  · rw [heq]
    exact hi
  · have hmask : (s'.processes j).signalMask = (s.processes j).signalMask := congrArg (·.2.1) (h j heq)
    have hhandlers : (s'.processes j).signalHandlers = (s.processes j).signalHandlers := congrArg (·.2.2) (h j heq)
    rw [Sched.Masked, hmask, hhandlers]
    exact hs j

/-- `process_exec` clears the pending set of the process it finds, and no other. -/
theorem processExec_pending {pid : Int} {i sig : Nat} (hpending : s.Pending i sig) (hcleared : ¬ (processExec s pid).2.Pending i sig) :
    findByPid s pid = some i := by
  rw [processExec] at hcleared
  split at hcleared
  · exact absurd hpending hcleared
  split at hcleared
  · exact absurd hpending hcleared
  rename_i k hfound
  simp only at hcleared
  split at hcleared
  · exact absurd hpending hcleared
  rw [hfound]
  by_contra hne
  apply hcleared
  rw [(signalsBut_set s k _).pending fun h => hne (congrArg some h.symm)]
  exact hpending

theorem processExec_killSafe (hs : s.KillSafe) (pid : Int) : (processExec s pid).2.KillSafe := by
  rw [processExec]
  split
  · exact hs
  split
  · exact hs
  rename_i k _
  simp only
  split
  · exact hs
  · refine (signalsBut_set s k _).killSafe hs ?_
    rw [Sched.Masked, set_processes_self]
    exact ⟨by simp, rfl⟩

theorem processSignalRegister_pending (s : Sched) (pid sig : Int) (handler i k : Nat) :
    (processSignalRegister s pid sig handler).2.Pending i k ↔ s.Pending i k := by
  rw [processSignalRegister]
  split_ifs
  · exact Iff.rfl
  · exact Iff.rfl
  split
  · exact Iff.rfl
  rename_i slot _
  by_cases heq : i = slot
  · rw [heq, Sched.Pending, set_processes_self, Sched.Pending]
  · exact (signalsBut_set s slot _).pending heq

/-- The handler of `SIGKILL` cannot be replaced. -/
theorem processSignalRegister_killSafe (hs : s.KillSafe) (pid sig : Int) (handler : Nat) :
    (processSignalRegister s pid sig handler).2.KillSafe := by
  rw [processSignalRegister]
  split_ifs with hrange hkill
  · exact hs
  · exact hs
  split
  · exact hs
  rename_i slot _
  refine (signalsBut_set s slot _).killSafe hs ?_
  rw [Sched.Masked, set_processes_self]
  refine ⟨(hs slot).1, ?_⟩
  by_cases hsig : processSigkill = sig.toNat
  · have hdfl : handler = processSigDfl := by
      by_contra hne
      refine hkill ⟨?_, hne⟩
      simp only [processSigkill] at hsig ⊢
      omega
    simp only [← hsig, Function.update_self, hdfl]
  · simp only [Function.update_of_ne hsig]
    exact (hs slot).2

theorem processSignalMask_pending (s : Sched) (pid : Int) (how : MaskHow) (set : BitVec 64) (i k : Nat) :
    (processSignalMask s pid how set).2.Pending i k ↔ s.Pending i k := by
  rw [processSignalMask]
  split
  · exact Iff.rfl
  rename_i slot _
  by_cases heq : i = slot
  · rw [heq, Sched.Pending, set_processes_self, Sched.Pending]
  · exact (signalsBut_set s slot _).pending heq

/-- `SIGKILL` is taken out of every mask that is set. -/
theorem processSignalMask_killSafe (hs : s.KillSafe) (pid : Int) (how : MaskHow) (set : BitVec 64) :
    (processSignalMask s pid how set).2.KillSafe := by
  rw [processSignalMask]
  split
  · exact hs
  rename_i slot _
  refine (signalsBut_set s slot _).killSafe hs ?_
  rw [Sched.Masked, set_processes_self]
  refine ⟨?_, (hs slot).2⟩
  rw [BitVec.getLsbD_and, BitVec.getLsbD_not, BitVec.getLsbD_twoPow]
  simp [processSigkill]

/-- A creation rewrites the slot it takes. -/
theorem createKernelProcess_signals {i : Nat} (parent : Option Nat) (ok : Bool) (hslot : allocProcessSlot s = some i) (j : Nat) :
    ((createKernelProcess s parent ok).2.processes j).signals = if j = i then (0#64, 0#64, fun _ => 0) else (s.processes j).signals := by
  have hbare := congrArg Process.signals (createKernelProcess_bare parent ok hslot j)
  rw [apply_ite Process.signals] at hbare
  exact hbare

theorem createKernelProcess_of_full (parent : Option Nat) (ok : Bool) (hslot : allocProcessSlot s = none) :
    createKernelProcess s parent ok = (none, s) := by
  simp only [createKernelProcess, hslot]

theorem createKernelProcess_pending {parent : Option Nat} {ok : Bool} {i sig : Nat} (hpending : s.Pending i sig)
    (hcleared : ¬ (createKernelProcess s parent ok).2.Pending i sig) : allocProcessSlot s = some i := by
  cases hslot : allocProcessSlot s with
  | none =>
      rw [createKernelProcess_of_full parent ok hslot] at hcleared
      exact absurd hpending hcleared
  | some k =>
      by_contra hne
      apply hcleared
      have hbut : SignalsBut k s (createKernelProcess s parent ok).2 := by
        intro j hj
        rw [createKernelProcess_signals parent ok hslot, if_neg hj]
      rw [hbut.pending fun h => hne (congrArg some h.symm)]
      exact hpending

theorem createKernelProcess_killSafe (hs : s.KillSafe) (parent : Option Nat) (ok : Bool) :
    (createKernelProcess s parent ok).2.KillSafe := by
  cases hslot : allocProcessSlot s with
  | none =>
      rw [createKernelProcess_of_full parent ok hslot]
      exact hs
  | some k =>
      have hbut : SignalsBut k s (createKernelProcess s parent ok).2 := by
        intro j hj
        rw [createKernelProcess_signals parent ok hslot, if_neg hj]
      have hnew := createKernelProcess_signals parent ok hslot k
      rw [if_pos rfl] at hnew
      have hmask : ((createKernelProcess s parent ok).2.processes k).signalMask = 0#64 := congrArg (·.2.1) hnew
      have hhandlers : ((createKernelProcess s parent ok).2.processes k).signalHandlers = fun _ => 0 := congrArg (·.2.2) hnew
      refine hbut.killSafe hs ?_
      rw [Sched.Masked, hmask, hhandlers]
      exact ⟨by simp, rfl⟩

theorem processWaitpid_sameSignals (s : Sched) (callerPid targetPid : Int) (nohang : Bool) :
    SameSignals s (processWaitpid s callerPid targetPid nohang).2 := by
  have hrefl := (SchedOnly.refl s).sameSignals
  rw [processWaitpid]
  split
  · exact hrefl
  rename_i caller _
  split
  · rename_i child _ _
    have hunlink := (parentUnlinkChild_childLinks s caller child).field Process.signals fun _ _ _ => rfl
    intro j
    rw [resetProcessSlot]
    by_cases heq : j = child
    · subst heq
      rw [set_processes_self]
      exact hunlink j
    · rw [set_processes_of_ne heq]
      exact hunlink j
  · exact hrefl
  · split
    · exact hrefl
    split
    · split
      · exact (setState_schedOnly s _ .blocked).sameSignals
      · exact hrefl
    · exact hrefl

/-! ### The discipline -/

/-- The call may clear the signal: a tick that finds the process running with this its lowest unmasked signal, an exec of the process, or a creation that takes its slot. -/
def Clears (s : Sched) (i sig : Nat) : SchedCall → Prop
  | .scheduleTick => TickClears s i sig
  | .exec pid => findByPid s pid = some i
  | .spawnKernel _ => allocProcessSlot s = some i
  | _ => False

theorem SchedCall.step_cleared {call : SchedCall} {i sig : Nat} (hpending : s.Pending i sig)
    (hcleared : ¬ (call.step s).Pending i sig) : Clears s i sig call := by
  have hkept : OnlyPosts s (call.step s) → Clears s i sig call := fun h => absurd (h.pending i sig hpending) hcleared
  cases call with
  | spawnKernel ok => exact createKernelProcess_pending hpending hcleared
  | exec pid => exact processExec_pending hpending hcleared
  | exitCurrent code => exact hkept (processExitCurrent_schedOnly s code).sameSignals.onlyPosts
  | kill pid k => exact hkept (processKill_onlyPosts s pid k)
  | killPgid pgid k => exact hkept (processKillPgid_onlyPosts s pgid k)
  | setPriority pid priority => exact hkept (processSetPriority_schedOnly s pid priority).sameSignals.onlyPosts
  | signalRegister pid k handler => exact absurd ((processSignalRegister_pending s pid k handler i sig).mpr hpending) hcleared
  | signalMask pid how set => exact absurd ((processSignalMask_pending s pid how set i sig).mpr hpending) hcleared
  | waitpid callerPid targetPid nohang => exact hkept (processWaitpid_sameSignals s callerPid targetPid nohang).onlyPosts
  | yield => exact hkept (processYield_schedOnly s).sameSignals.onlyPosts
  | scheduleTick => exact (processScheduleTick_tickSignals s).clears hpending hcleared

theorem SchedCall.step_killSafe (hs : s.KillSafe) (call : SchedCall) : (call.step s).KillSafe := by
  cases call with
  | spawnKernel ok => exact createKernelProcess_killSafe hs s.current ok
  | exec pid => exact processExec_killSafe hs pid
  | exitCurrent code => exact (processExitCurrent_schedOnly s code).sameSignals.onlyPosts.killSafe hs
  | kill pid k => exact (processKill_onlyPosts s pid k).killSafe hs
  | killPgid pgid k => exact (processKillPgid_onlyPosts s pgid k).killSafe hs
  | setPriority pid priority => exact (processSetPriority_schedOnly s pid priority).sameSignals.onlyPosts.killSafe hs
  | signalRegister pid k handler => exact processSignalRegister_killSafe hs pid k handler
  | signalMask pid how set => exact processSignalMask_killSafe hs pid how set
  | waitpid callerPid targetPid nohang => exact (processWaitpid_sameSignals s callerPid targetPid nohang).onlyPosts.killSafe hs
  | yield => exact (processYield_schedOnly s).sameSignals.onlyPosts.killSafe hs
  | scheduleTick => exact (processScheduleTick_tickSignals s).killSafe hs

/-- `process_init` leaves every mask empty and every handler the default one. -/
theorem processInit_killSafe (vmOk idleOk : Bool) : (processInit vmOk idleOk).KillSafe := by
  have hsafe : ∀ i, ((processInit vmOk idleOk).processes i).signalMask = 0#64 ∧
      ((processInit vmOk idleOk).processes i).signalHandlers processSigkill = processSigDfl := by
    intro i
    cases vmOk with
    | false =>
        match i with
        | 0 => decide +revert
        | _ + 1 => exact ⟨rfl, rfl⟩
    | true =>
        cases idleOk with
        | false =>
            match i with
            | 0 => decide
            | 1 => decide
            | _ + 2 => exact ⟨rfl, rfl⟩
        | true =>
            match i with
            | 0 => decide
            | 1 => decide
            | _ + 2 => exact ⟨rfl, rfl⟩
  intro i
  rw [Sched.Masked, (hsafe i).1]
  exact ⟨by simp, (hsafe i).2⟩

/-- A signal that no call of a run may clear is pending at its end. -/
theorem run_pending {i sig : Nat} {calls : List SchedCall} (hpending : s.Pending i sig)
    (hkeeps : Allowed (fun s call => ¬ Clears s i sig call) SchedCall.step s calls) : (run SchedCall.step s calls).Pending i sig := by
  have hstep : ∀ (s : Sched) (call : SchedCall), s.Pending i sig → ¬ Clears s i sig call → (call.step s).Pending i sig := by
    intro s call hpending hclears
    by_contra hcleared
    exact hclears (SchedCall.step_cleared hpending hcleared)
  exact run_invariant hstep hpending hkeeps

theorem run_killSafe (hs : s.KillSafe) (calls : List SchedCall) : (run SchedCall.step s calls).KillSafe := by
  have hstep : ∀ (s : Sched) (call : SchedCall), s.KillSafe → True → (call.step s).KillSafe :=
    fun s call hs _ => SchedCall.step_killSafe hs call
  exact run_invariant hstep hs (allowed_of_forall fun _ _ _ => trivial)

/-- The discipline in every state a run reaches. A pending bit is cleared only by a tick that finds its process running, by an exec of the process or by the reuse of its slot. A tick clears at most one bit, the lowest unmasked one, and no masked one. What has been posted stays pending until such a call, and `SIGKILL` can be neither masked nor handled, so it terminates every live process. -/
theorem signal_discipline (vmOk idleOk : Bool) (calls : List SchedCall) :
    let s := run SchedCall.step (processInit vmOk idleOk) calls
    (∀ call i sig, s.Pending i sig → ¬ (call.step s).Pending i sig → Clears s i sig call) ∧
      (∀ i, ((SchedCall.scheduleTick.step s).processes i).signalPending = (s.processes i).signalPending ∨
        ∃ sig, TickClears s i sig ∧
          ((SchedCall.scheduleTick.step s).processes i).signalPending = (s.processes i).signalPending &&& ~~~(BitVec.twoPow 64 sig)) ∧
      (∀ i sig, s.Pending i sig → s.Masked i sig → (SchedCall.scheduleTick.step s).Pending i sig) ∧
      (∀ (pid sig : Int) (i : Nat), 0 < pid → findByPid s pid = some i → (s.processes i).state ≠ .dead → 0 < sig → sig < processMaxSignals →
        sig ≠ processSigkill → (processKill s pid sig).1 = 0 ∧ (processKill s pid sig).2.Pending i sig.toNat) ∧
      (∀ i sig, s.Pending i sig → ∀ later, Allowed (fun s call => ¬ Clears s i sig call) SchedCall.step s later →
        (run SchedCall.step s later).Pending i sig) ∧
      s.KillSafe ∧
      ∀ (pid : Int) (i : Nat), 0 < pid → findByPid s pid = some i → (s.processes i).state.Alive →
        (processKill s pid processSigkill).1 = 0 ∧ ((processKill s pid processSigkill).2.processes i).state = .zombie ∧
          ((processKill s pid processSigkill).2.processes i).waitStatus = waitStatusSignal processSigkill := by
  intro s
  have htick : TickSignals s (SchedCall.scheduleTick.step s) := processScheduleTick_tickSignals s
  refine ⟨fun call i sig => SchedCall.step_cleared, htick.pending, fun i sig hpending hmasked => ?_,
    fun pid sig i => processKill_posts, fun i sig hpending later => run_pending hpending,
    run_killSafe (processInit_killSafe vmOk idleOk) calls, fun pid i => processKill_sigkill⟩
  by_contra hcleared
  exact (htick.clears hpending hcleared).2.2.unmasked hmasked

/-- A signal posted to a process that waits for its first turn stays pending while it is masked and given a handler, and through a tick of another process. -/
theorem signal_discipline_maskedInTurn :
    let s := run SchedCall.step (processInit true true) [.spawnKernel true, .kill 3 10]
    s.Pending 2 10 ∧ (run SchedCall.step s [.signalMask 3 .block 0x400#64, .signalRegister 3 10 4096, .scheduleTick]).Pending 2 10 ∧
      ((processKill s 3 processSigkill).2.processes 2).state = .zombie := by
  intro s
  obtain ⟨-, -, -, -, hstays, -, hkill⟩ := signal_discipline true true [.spawnKernel true, .kill 3 10]
  have hpending : s.Pending 2 10 := by decide
  have hother : (run SchedCall.step s [.signalMask 3 .block 0x400#64, .signalRegister 3 10 4096]).current = some 0 := by decide
  refine ⟨hpending, hstays 2 10 hpending _ ⟨not_false, not_false, ?_, trivial⟩, ?_⟩
  · intro hclears
    exact absurd (hother.symm.trans hclears.1) (by decide)
  · have hfound : findByPid s 3 = some 2 := by decide +kernel
    have halive : (s.processes 2).state.Alive := by decide +kernel
    rw [(hkill 3 2 (by decide) hfound halive).2.1]

end Tsukasa
