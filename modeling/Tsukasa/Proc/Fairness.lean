import Tsukasa.Proc.TickPolicy
import Tsukasa.Proc.TimeSlices
import Tsukasa.Lib.Progress
import Mathlib.Algebra.Order.BigOperators.Group.List

/-!
# A ready process runs

How long a process waits in its run queue. The wait is measured in ticks: what is left of the current process's slice, and the slices of the processes ahead of it. No call makes it longer, and a tick that runs neither the process nor one of better priority makes it shorter. So in every run a ready process is run after at most four ticks for each process ahead of it and four for the current one, unless a process of better priority is run.
-/

namespace Tsukasa

open Lib

/-- The ticks that a process keeps the processor for. -/
def Process.rounds (p : Process) : Nat := max p.timeSlice 1

/-- The ticks until the current process is put aside. -/
def Sched.turn (s : Sched) : Nat :=
  match s.current with
  | none => 1
  | some c => if (s.processes c).state = .running then (s.processes c).rounds else 1

/-- The ticks until the processes of a list have all been put aside. -/
def Sched.roundsOf (s : Sched) (l : List Nat) : Nat := (l.map fun j => (s.processes j).rounds).sum

/-- The process is in the queue of its priority, behind `ahead`. -/
def Behind (s : Sched) (i pri : Nat) (ahead : List Nat) : Prop :=
  (s.processes i).priority = pri ∧ ∃ q behind, Queued s q ∧ q pri = ahead ++ i :: behind

/-- The process is queued, and `n` ticks put aside the current process and those ahead of it. -/
def WaitsTicks (i pri : Nat) (s : Sched) (n : Nat) : Prop := ∃ ahead, Behind s i pri ahead ∧ s.turn + s.roundsOf ahead ≤ n

/-- The process runs, or one of better priority does. -/
def Served (i pri : Nat) (s : Sched) : Prop :=
  s.current = some i ∧ (s.processes i).state = .running ∨ ∃ c, s.current = some c ∧ (s.processes c).priority < pri

theorem Process.one_le_rounds (p : Process) : 1 ≤ p.rounds := le_max_right _ _

theorem Process.rounds_mono {p p' : Process} (h : p'.timeSlice ≤ p.timeSlice) : p'.rounds ≤ p.rounds := max_le_max_right 1 h

theorem Sched.one_le_turn (s : Sched) : 1 ≤ s.turn := by
  rw [Sched.turn]
  split
  · exact le_rfl
  split
  · exact Process.one_le_rounds _
  · exact le_rfl

/-- The current process is the same, and no longer running or with no more left of its slice. -/
theorem turn_mono {s s' : Sched} (hcurrent : s'.current = s.current)
    (hslot : ∀ c, s.current = some c → (s'.processes c).state = .running →
      (s.processes c).state = .running ∧ (s'.processes c).timeSlice ≤ (s.processes c).timeSlice) : s'.turn ≤ s.turn := by
  cases hc : s.current with
  | none => simp only [Sched.turn, hcurrent, hc, le_refl]
  | some c =>
      simp only [Sched.turn, hcurrent, hc]
      by_cases hrunning : (s'.processes c).state = .running
      · obtain ⟨hbefore, hslice⟩ := hslot c hc hrunning
        rw [if_pos hrunning, if_pos hbefore]
        exact Process.rounds_mono hslice
      · rw [if_neg hrunning]
        split
        · exact Process.one_le_rounds _
        · exact le_rfl

theorem turn_congr {s s' : Sched} (hcurrent : s'.current = s.current) (hstate : ∀ c, (s'.processes c).state = (s.processes c).state)
    (hslice : ∀ c, (s'.processes c).timeSlice = (s.processes c).timeSlice) : s'.turn = s.turn := by
  simp only [Sched.turn, Process.rounds, hcurrent, hstate, hslice]

theorem roundsOf_mono {s s' : Sched} {l l' : List Nat} (hsub : l'.Sublist l)
    (hslice : ∀ j ∈ l', (s'.processes j).timeSlice ≤ (s.processes j).timeSlice) : s'.roundsOf l' ≤ s.roundsOf l := by
  have hpoint : s'.roundsOf l' ≤ s.roundsOf l' := List.sum_le_sum fun j hj => Process.rounds_mono (hslice j hj)
  have hless : s.roundsOf l' ≤ s.roundsOf l := (hsub.map _).sum_le_sum fun _ _ => Nat.zero_le _
  exact hpoint.trans hless

theorem Holds.not_mem {s : Sched} {R : Set Nat} {j : Nat} (h : Holds s R) (hj : j ∉ R) {q : Nat → List Nat} (hq : Queued s q) :
    ∀ pri < processPriorityLevels, j ∉ q pri := by
  obtain ⟨q', hq', hmem⟩ := h.queues
  intro pri hpri hin
  have hsame : q pri = q' pri := (hq.list pri hpri).unique (hq'.list pri hpri)
  exact Holds.not_mem_queue hq' hmem hj hpri (hsame ▸ hin)

/-- A process that is in no queue is changed. -/
theorem Queued.set_out {s : Sched} {q : Nat → List Nat} {j : Nat} (h : Queued s q) (hout : ∀ pri < processPriorityLevels, j ∉ q pri) (p : Process) :
    Queued (s.set j p) q := by
  have hne : ∀ pri < processPriorityLevels, ∀ k ∈ q pri, (s.set j p).processes k = s.processes k := by
    intro pri hpri k hk
    have hkj : k ≠ j := fun heq => hout pri hpri (heq ▸ hk)
    exact set_processes_of_ne hkj p
  refine ⟨fun pri hpri => (h.list pri hpri).congr fun k hk => ?_, h.tail, fun pri hpri k hk => ?_⟩
  · simp only [Sched.nextOf, hne pri hpri k hk]
  · rw [hne pri hpri k hk]
    exact h.home pri hpri k hk

/-! ### What leaves the wait as it is -/

namespace WaitsTicks

variable {s s' : Sched} {i pri n j : Nat} {p : Process} {R : Set Nat}

theorem pos (h : WaitsTicks i pri s n) : 0 < n := by
  obtain ⟨ahead, -, hle⟩ := h
  have hturn := s.one_le_turn
  omega

theorem priority (h : WaitsTicks i pri s n) : (s.processes i).priority = pri := by
  obtain ⟨_, hbehind, -⟩ := h
  exact hbehind.1

/-- Who waits is runnable. -/
theorem runnable (h : WaitsTicks i pri s n) (hinv : SchedInv s) : (s.processes i).Runnable := by
  obtain ⟨ahead, ⟨hprio, q, behind, hq, hline⟩, -⟩ := h
  have hpri : pri < processPriorityLevels := hprio ▸ hinv.holds.priority i
  by_contra hnot
  apply hinv.holds.not_mem hnot hq pri hpri
  rw [hline]
  exact List.mem_append_right ahead List.mem_cons_self

theorem ne_of_not_runnable (h : WaitsTicks i pri s n) (hinv : SchedInv s) (hout : ¬(s.processes j).Runnable) : j ≠ i := by
  intro heq
  exact hout (heq ▸ h.runnable hinv)

/-- The queues are the same lists, and no slice has grown that counts. -/
theorem of_queues (h : WaitsTicks i pri s n) (hqueued : ∀ q, Queued s q → Queued s' q) (hprio : (s'.processes i).priority = (s.processes i).priority)
    (hslice : ∀ q, Queued s q → ∀ k ∈ q pri, (s'.processes k).timeSlice ≤ (s.processes k).timeSlice) (hturn : s'.turn ≤ s.turn) :
    WaitsTicks i pri s' n := by
  obtain ⟨ahead, ⟨hpri, q, behind, hq, hline⟩, hle⟩ := h
  refine ⟨ahead, ⟨hprio.trans hpri, q, behind, hqueued q hq, hline⟩, ?_⟩
  have hahead : s'.roundsOf ahead ≤ s.roundsOf ahead := by
    apply roundsOf_mono (List.Sublist.refl ahead)
    intro k hk
    apply hslice q hq
    rw [hline]
    exact List.mem_append_left _ hk
  omega

/-- Fields that neither the queues nor the wait depend on are changed. -/
theorem set_same (h : WaitsTicks i pri s n) (hnext : p.rqNext = (s.processes j).rqNext) (hprio : p.priority = (s.processes j).priority)
    (hslice : p.timeSlice ≤ (s.processes j).timeSlice) (hstate : p.state = .running → (s.processes j).state = .running) :
    WaitsTicks i pri (s.set j p) n := by
  have hslices : ∀ k, ((s.set j p).processes k).timeSlice ≤ (s.processes k).timeSlice := by
    intro k
    by_cases heq : k = j
    · rw [heq, set_processes_self]
      exact hslice
    · rw [set_processes_of_ne heq]
  apply h.of_queues (fun q hq => hq.set_same hnext hprio) (set_field Process.priority hprio i) (fun _ _ k _ => hslices k)
  refine turn_mono rfl fun c _ hrunning => ⟨?_, hslices c⟩
  by_cases heq : c = j
  · rw [heq, set_processes_self] at hrunning
    rw [heq]
    exact hstate hrunning
  · rwa [set_processes_of_ne heq] at hrunning

/-- A process that is in no queue is changed, and is not made to run longer. -/
theorem set_out (h : WaitsTicks i pri s n) (hholds : Holds s R) (hj : j ∉ R) (hne : j ≠ i)
    (hstate : p.state = .running → (s.processes j).state = .running ∧ p.timeSlice ≤ (s.processes j).timeSlice) :
    WaitsTicks i pri (s.set j p) n := by
  have hpri : pri < processPriorityLevels := h.priority ▸ hholds.priority i
  have hsame : (s.set j p).processes i = s.processes i := set_processes_of_ne hne.symm p
  apply h.of_queues (fun q hq => hq.set_out (hholds.not_mem hj hq) p) (congrArg Process.priority hsame)
  · intro q hq k hk
    have hkj : k ≠ j := fun heq => hholds.not_mem hj hq pri hpri (heq ▸ hk)
    rw [set_processes_of_ne hkj]
  · refine turn_mono rfl fun c _ hrunning => ?_
    by_cases heq : c = j
    · rw [heq, set_processes_self] at hrunning
      rw [heq, set_processes_self]
      exact hstate hrunning
    · rw [set_processes_of_ne heq] at hrunning ⊢
      exact ⟨hrunning, le_rfl⟩

/-- Nothing but queue links differs, and the process is behind no others than before. -/
theorem of_linksOnly (h : WaitsTicks i pri s n) (hlinks : LinksOnly s s')
    (hline : ∀ q ahead behind, Queued s q → q pri = ahead ++ i :: behind →
      ∃ q' ahead' behind', Queued s' q' ∧ q' pri = ahead' ++ i :: behind' ∧ ahead'.Sublist ahead) : WaitsTicks i pri s' n := by
  obtain ⟨ahead, ⟨hpri, q, behind, hq, hold⟩, hle⟩ := h
  obtain ⟨q', ahead', behind', hq', hnew, hsub⟩ := hline q ahead behind hq hold
  have hprio : (s'.processes i).priority = (s.processes i).priority := hlinks.field Process.priority (fun _ => rfl) i
  refine ⟨ahead', ⟨hprio.trans hpri, q', behind', hq', hnew⟩, ?_⟩
  have hslices : ∀ k, (s'.processes k).timeSlice = (s.processes k).timeSlice := hlinks.field Process.timeSlice fun _ => rfl
  have hahead : s'.roundsOf ahead' ≤ s.roundsOf ahead := roundsOf_mono hsub fun k _ => (hslices k).le
  have hturn : s'.turn = s.turn := turn_congr hlinks.current (hlinks.field Process.state fun _ => rfl) hslices
  omega

/-- A newcomer is queued behind everyone. -/
theorem push (h : WaitsTicks i pri s n) (hholds : Holds s R) (hlt : j < processMaxCount) (hj : j ∉ R) : WaitsTicks i pri (runqPush s j) n := by
  apply h.of_linksOnly (runqPush_linksOnly s j)
  intro q ahead behind hq hline
  have hlevel := hholds.priority j
  have hpushed := runqPush_queued hq hlt hlevel (hholds.not_mem hj hq _ hlevel)
  by_cases heq : pri = (s.processes j).priority
  · refine ⟨_, ahead, behind ++ [j], hpushed, ?_, List.Sublist.refl ahead⟩
    rw [heq, Function.update_self, ← heq, hline, List.append_assoc, List.cons_append]
  · refine ⟨_, ahead, behind, hpushed, ?_, List.Sublist.refl ahead⟩
    rw [Function.update_of_ne heq, hline]

/-- Another process leaves its queue. -/
theorem remove (h : WaitsTicks i pri s n) (hlevel : (s.processes j).priority < processPriorityLevels) (hne : j ≠ i) : WaitsTicks i pri (runqRemove s j) n := by
  apply h.of_linksOnly (runqRemove_linksOnly s j)
  intro q ahead behind hq hline
  have hremoved := runqRemove_queued hq hlevel
  by_cases heq : pri = (s.processes j).priority
  · by_cases hin : j ∈ ahead
    · refine ⟨_, ahead.erase j, behind, hremoved, ?_, List.erase_sublist⟩
      rw [heq, Function.update_self, ← heq, hline, List.erase_append_left _ hin]
    · refine ⟨_, ahead, behind.erase j, hremoved, ?_, List.Sublist.refl ahead⟩
      have hnot : (i == j) = false := beq_eq_false_iff_ne.mpr hne.symm
      rw [heq, Function.update_self, ← heq, hline, List.erase_append_right _ hin, List.erase_cons, hnot]
      rfl
  · refine ⟨_, ahead, behind, hremoved, ?_, List.Sublist.refl ahead⟩
    rw [Function.update_of_ne heq, hline]

theorem childLinks (h : WaitsTicks i pri s n) (hlinks : ChildLinks s s') : WaitsTicks i pri s' n := by
  have hnext : s'.nextOf = s.nextOf := funext (hlinks.field Process.rqNext fun _ _ _ => rfl)
  have hprio : ∀ k, (s'.processes k).priority = (s.processes k).priority := hlinks.field Process.priority fun _ _ _ => rfl
  have hslices : ∀ k, (s'.processes k).timeSlice = (s.processes k).timeSlice := hlinks.field Process.timeSlice fun _ _ _ => rfl
  have hqueued : ∀ q, Queued s q → Queued s' q := by
    intro q hq
    refine ⟨?_, ?_, fun p hp k hk => ?_⟩
    · rw [hnext, hlinks.runqHead]
      exact hq.list
    · rw [hlinks.runqTail]
      exact hq.tail
    · rw [hprio]
      exact hq.home p hp k hk
  have hturn : s'.turn = s.turn := turn_congr hlinks.current (hlinks.field Process.state fun _ _ _ => rfl) hslices
  exact h.of_queues hqueued (hprio i) (fun _ _ k _ => (hslices k).le) hturn.le

/-! ### Waking and terminating others -/

theorem wake (h : WaitsTicks i pri s n) (hinv : SchedInv s) (hlt : j < processMaxCount) : WaitsTicks i pri (Tsukasa.wake s j) n := by
  rw [Tsukasa.wake]
  by_cases hblocked : (s.processes j).state = .blocked
  · rw [if_pos hblocked]
    have hout : j ∉ s.runnable := not_runnable_of_state (by simp [hblocked])
    have hready : WaitsTicks i pri (s.setState j .ready) n := h.set_same rfl rfl le_rfl (by simp)
    exact hready.push (hinv.holds.set_same rfl rfl) hlt hout
  · rwa [if_neg hblocked]

theorem wakeParentIfWaiting (h : WaitsTicks i pri s n) (hinv : SchedInv s) : WaitsTicks i pri (Tsukasa.wakeParentIfWaiting s j) n := by
  rw [Tsukasa.wakeParentIfWaiting]
  split
  · exact h
  split
  · exact h
  · next parent hparent => exact h.wake hinv (findByPid_some hparent).1

theorem markZombie (h : WaitsTicks i pri s n) (hinv : SchedInv s) (hout : ¬(s.processes j).Runnable) (status : BitVec 32) :
    WaitsTicks i pri (Tsukasa.markZombie s j status) n := by
  rw [Tsukasa.markZombie]
  split
  · exact h
  · have hzombie : SchedInv (s.set j { s.processes j with waitStatus := status, state := .zombie }) :=
      hinv.set_out hout (not_runnable_of_state (by simp)) (hinv.holds.priority j) (by simp)
    have hset : WaitsTicks i pri (s.set j { s.processes j with waitStatus := status, state := .zombie }) n :=
      h.set_same rfl rfl le_rfl (by simp)
    exact hset.wakeParentIfWaiting hzombie

theorem postSignal (h : WaitsTicks i pri s n) (hinv : SchedInv s) (hlt : j < processMaxCount) {sig : Nat}
    (hkill : sig = processSigkill → ¬(s.processes j).Runnable) : WaitsTicks i pri (Tsukasa.postSignal s j sig) n := by
  rw [Tsukasa.postSignal]
  by_cases hsig : sig = processSigkill
  · rw [if_pos hsig]
    exact h.markZombie hinv (hkill hsig) _
  · rw [if_neg hsig]
    have hset : WaitsTicks i pri (s.set j { s.processes j with
        signalPending := (s.processes j).signalPending ||| BitVec.twoPow 64 sig }) n := h.set_same rfl rfl le_rfl id
    exact hset.wake (hinv.set_quiet rfl rfl rfl rfl rfl) hlt

theorem deliverSignal (h : WaitsTicks i pri s n) (hinv : SchedInv s) : WaitsTicks i pri (Tsukasa.deliverSignal s).2 n := by
  rw [Tsukasa.deliverSignal]
  split
  · exact h
  next c _ =>
  by_cases hrunning : (s.processes c).state = .running
  · simp only [if_pos hrunning, prepareSignalAction]
    split
    · exact h
    split
    · exact h
    next sig _ =>
    have hset : WaitsTicks i pri (s.set c { s.processes c with
        signalPending := (s.processes c).signalPending &&& ~~~(BitVec.twoPow 64 sig) }) n := h.set_same rfl rfl le_rfl id
    split
    · exact hset
    split
    · refine hset.markZombie (hinv.set_quiet rfl rfl rfl rfl rfl) ?_ _
      rw [set_processes_self]
      exact not_runnable_of_state (by simp [hrunning])
    · exact hset
  · rwa [if_neg hrunning]

/-! ### Calls -/

theorem createKernelProcess (h : WaitsTicks i pri s n) (hinv : SchedInv s) (parent : Option Nat) (ok : Bool) :
    WaitsTicks i pri (Tsukasa.createKernelProcess s parent ok).2 n := by
  cases hslot : allocProcessSlot s with
  | none => simpa only [Tsukasa.createKernelProcess, hslot] using h
  | some k =>
      obtain ⟨hlt, hunused⟩ := allocProcessSlot_some hslot
      have hout : ¬(s.processes k).Runnable := by simp [Process.Runnable, hunused]
      have hne := h.ne_of_not_runnable hinv hout
      have hprio := newProcess_priority hinv parent k
      have hpid : WaitsTicks i pri { s with nextPid := wrap32 (s.nextPid + 1) } n :=
        h.of_queues (fun _ hq => ⟨hq.list, hq.tail, hq.home⟩) rfl (fun _ _ _ _ => le_rfl) le_rfl
      have hholds : Holds { s with nextPid := wrap32 (s.nextPid + 1) } s.runnable := hinv.holds.of_same (fun _ => rfl) (fun _ => rfl) rfl rfl
      rw [createKernelProcess_of_slot parent ok hslot]
      cases ok with
      | false => exact hpid.set_out hholds hout hne (by simp [newProcess])
      | true =>
          have hset : WaitsTicks i pri (({ s with nextPid := wrap32 (s.nextPid + 1) } : Sched).set k { newProcess s parent k with kernelStack := true }) n :=
            hpid.set_out hholds hout hne (by simp [newProcess])
          have hnew : Holds (({ s with nextPid := wrap32 (s.nextPid + 1) } : Sched).set k { newProcess s parent k with kernelStack := true }) s.runnable :=
            hholds.set_out hout hprio
          cases parent with
          | none => exact hset.push hnew hlt hout
          | some r =>
              have hlinks := parentLinkChild_childLinks
                (({ s with nextPid := wrap32 (s.nextPid + 1) } : Sched).set k { newProcess s (some r) k with kernelStack := true }) r k
              exact (hset.childLinks hlinks).push (hlinks.holds hnew) hlt hout

theorem processExec (h : WaitsTicks i pri s n) (pid : Int) : WaitsTicks i pri (Tsukasa.processExec s pid).2 n := by
  simp only [Tsukasa.processExec]
  split
  · exact h
  split
  · exact h
  split
  · exact h
  · exact h.set_same rfl rfl le_rfl id

theorem processExitCurrent (h : WaitsTicks i pri s n) (hinv : SchedInv s) (code : BitVec 32)
    (hout : ∀ c, s.current = some c → ¬(s.processes c).Runnable) : WaitsTicks i pri (Tsukasa.processExitCurrent s code).2 n := by
  rw [Tsukasa.processExitCurrent]
  split
  · exact h
  · next c hc => exact h.markZombie hinv (hout c hc) _

theorem processKill (h : WaitsTicks i pri s n) (hinv : SchedInv s) {pid sig : Int}
    (hout : sig = processSigkill → ∀ k, findByPid s pid = some k → ¬(s.processes k).Runnable) : WaitsTicks i pri (Tsukasa.processKill s pid sig).2 n := by
  simp only [Tsukasa.processKill]
  split
  · exact h
  split
  · exact h
  next k hk =>
  split
  · exact h
  split
  · exact h
  split
  · exact h
  · refine h.postSignal hinv (findByPid_some hk).1 fun hsig => hout ?_ k hk
    simp only [processSigkill] at hsig ⊢
    omega

/-- Killing a group terminates nobody who waits. -/
theorem processKillPgid (h : WaitsTicks i pri s n) (hinv : SchedInv s) {pgid sig : Int} (hout : sig = processSigkill → GroupOut s pgid) :
    WaitsTicks i pri (Tsukasa.processKillPgid s pgid sig).2 n := by
  rw [Tsukasa.processKillPgid]
  split
  · exact h
  have hout' : sig.toNat = processSigkill → GroupOut s pgid := by
    intro hsig
    apply hout
    simp only [processSigkill] at hsig ⊢
    omega
  have hloop : ∀ m ≤ processMaxCount, WaitsTicks i pri ((List.range m).foldl (killPgidStep pgid sig.toNat) (0, s)).2 n := by
    intro m
    induction m with
    | zero => exact fun _ => h
    | succ m ih =>
        intro hm
        obtain ⟨hinv', hkept, hstates⟩ := killPgid_loop hinv hout' m (by omega)
        have hwaits := ih (by omega)
        rw [List.range_succ, List.foldl_append, List.foldl_cons, List.foldl_nil]
        generalize (List.range m).foldl (killPgidStep pgid sig.toNat) (0, s) = acc at hinv' hkept hstates hwaits
        rw [killPgidStep]
        split
        · next hgroup =>
            refine hwaits.postSignal hinv' (by omega) fun hsig => ?_
            obtain ⟨hused, hdead, hzombie, hpgid⟩ := inGroup_iff.mp hgroup
            rw [hkept.pgid] at hpgid
            rw [hkept.used] at hused
            -- the member reached has its old state: a member whose death would have woken it was excluded
            cases hstates hsig m le_rfl with
            | inl hsame =>
                rw [hsame] at hdead hzombie
                have hnot := (hout' hsig m (inGroup_iff.mpr ⟨hused, hdead, hzombie, hpgid⟩)).1
                rwa [Process.Runnable, hsame, hkept.used, hkept.isIdle]
            | inr hwoken =>
                obtain ⟨hblocked, -, k, hk, hmember, hparent⟩ := hwoken
                have hin : inGroup s pgid m = true := inGroup_iff.mpr ⟨hused, by simp [hblocked], by simp [hblocked], hpgid⟩
                exact absurd hparent ((hout' hsig m hin).2 hblocked k hk hmember)
        · exact hwaits
  exact hloop processMaxCount le_rfl

theorem processSetPriority (h : WaitsTicks i pri s n) (hinv : SchedInv s) {pid : Int} {priority : Nat} (hspared : findByPid s pid ≠ some i) :
    WaitsTicks i pri (Tsukasa.processSetPriority s pid priority).2 n := by
  simp only [Tsukasa.processSetPriority]
  split
  · exact h
  next hargs =>
  have hprio : priority < processPriorityLevels := by omega
  split
  · exact h
  next k hk =>
  have hne : k ≠ i := fun heq => hspared (heq ▸ hk)
  split
  · exact h
  by_cases hready : (s.processes k).state = .ready
  · have hlinks := runqRemove_linksOnly s k
    have hstate : ((runqRemove s k).processes k).state = .ready := by rw [hlinks.field Process.state fun _ => rfl, hready]
    have hnot : k ∉ s.runnable \ {k} := by simp
    have hremoved := hinv.holds.remove k
    simp only [hready, if_pos, set_processes_self, hstate]
    have hset : WaitsTicks i pri ((runqRemove s k).set k { (runqRemove s k).processes k with priority := priority, state := .ready }) n :=
      (h.remove (hinv.holds.priority k) hne).set_out hremoved hnot hne (by simp)
    exact hset.push (hremoved.set_out hnot hprio) (findByPid_some hk).1 hnot
  · simp only [if_neg hready, set_processes_self]
    exact h.set_out hinv.holds (not_runnable_of_state hready) hne fun hrunning => ⟨hrunning, le_rfl⟩

theorem processSignalRegister (h : WaitsTicks i pri s n) (pid sig : Int) (handler : Nat) :
    WaitsTicks i pri (Tsukasa.processSignalRegister s pid sig handler).2 n := by
  simp only [Tsukasa.processSignalRegister]
  split
  · exact h
  split
  · exact h
  split
  · exact h
  · exact h.set_same rfl rfl le_rfl id

theorem processSignalMask (h : WaitsTicks i pri s n) (pid : Int) (how : MaskHow) (set : BitVec 64) :
    WaitsTicks i pri (Tsukasa.processSignalMask s pid how set).2 n := by
  simp only [Tsukasa.processSignalMask]
  split
  · exact h
  · exact h.set_same rfl rfl le_rfl id

theorem processWaitpid (h : WaitsTicks i pri s n) (hinv : SchedInv s) {callerPid targetPid : Int} {nohang : Bool} :
    WaitsTicks i pri (Tsukasa.processWaitpid s callerPid targetPid nohang).2 n := by
  simp only [Tsukasa.processWaitpid]
  split
  · exact h
  next caller _ =>
  split
  · next child _ hscan =>
      have hzombie : (s.processes child).state = .zombie := waitScan_zombie (congrArg Prod.fst hscan)
      have hlinks := parentUnlinkChild_childLinks s caller child
      have hout : ¬(s.processes child).Runnable := not_runnable_of_state (by simp [hzombie])
      exact (h.childLinks hlinks).set_out (hlinks.holds hinv.holds) hout (h.ne_of_not_runnable hinv hout) (by simp)
  · exact h
  split
  · exact h
  split
  · split
    · exact h.set_same rfl rfl le_rfl (by simp)
    · exact h
  · exact h

theorem processYield (h : WaitsTicks i pri s n) : WaitsTicks i pri (Tsukasa.processYield s) n := by
  rw [Tsukasa.processYield]
  split
  · exact h
  · exact h.set_same rfl rfl (Nat.zero_le _) id

end WaitsTicks

/-- The call does not change the priority of the process. -/
def KeepsPriority (i : Nat) (s : Sched) : SchedCall → Prop
  | .setPriority pid _ => findByPid s pid ≠ some i
  | _ => True

/-- A call that is no tick makes the wait no longer. -/
theorem SchedCall.step_waitsTicks {s : Sched} {i pri n : Nat} (h : WaitsTicks i pri s n) (hinv : SchedInv s) {call : SchedCall} (hsafe : RunqSafe s call)
    (hkeeps : KeepsPriority i s call) (hcall : call ≠ .scheduleTick) : WaitsTicks i pri (call.step s) n := by
  cases call with
  | spawnKernel ok => exact h.createKernelProcess hinv s.current ok
  | exec pid => exact h.processExec pid
  | exitCurrent code => exact h.processExitCurrent hinv code hsafe
  | kill pid sig => exact h.processKill hinv hsafe
  | killPgid pgid sig => exact h.processKillPgid hinv hsafe
  | setPriority pid priority => exact h.processSetPriority hinv hkeeps
  | signalRegister pid sig handler => exact h.processSignalRegister pid sig handler
  | signalMask pid how set => exact h.processSignalMask pid how set
  | waitpid callerPid targetPid nohang => exact h.processWaitpid hinv
  | yield => exact h.processYield
  | scheduleTick => exact absurd rfl hcall

/-! ### The tick -/

section Tick

variable {s : Sched} {i pri n c : Nat}

/-- The switch serves the process, or takes one of those ahead of it. -/
theorem switchNext_shortens (h : WaitsTicks i pri s n) (hinv : SchedInv s) (cur : Option Nat) :
    Served i pri (switchNext s cur) ∨ ∃ m < n, WaitsTicks i pri (switchNext s cur) m := by
  obtain ⟨ahead, ⟨hprio, q, behind, hq, hline⟩, hle⟩ := h
  have hpri : pri < processPriorityLevels := hprio ▸ hinv.holds.priority i
  have hnonempty : q pri ≠ [] := by simp [hline]
  have hlinks := runqPop_linksOnly s
  cases runqPop_queued hq with
  | inl hempty => exact absurd (hempty.1 pri hpri) hnonempty
  | inr htaken =>
      obtain ⟨best, hbest, x, rest, hcons, hbelow, hpop, hpopped⟩ := htaken
      have hswitch : switchNext s cur = { (runqPop s).2.setState x .running with current := some x } := by
        simp only [switchNext, hpop, Option.some_or]
      have hprios : ∀ k, ((switchNext s cur).processes k).priority = (s.processes k).priority := by
        intro k
        rw [hswitch]
        have hset : ∀ w : Sched, ((w.setState x .running).processes k).priority = (w.processes k).priority := by
          intro w
          apply set_field Process.priority
          rfl
        exact (hset (runqPop s).2).trans (hlinks.field Process.priority (fun _ => rfl) k)
      have hslices : ∀ k, ((switchNext s cur).processes k).timeSlice = (s.processes k).timeSlice := by
        intro k
        rw [hswitch]
        have hset : ∀ w : Sched, ((w.setState x .running).processes k).timeSlice = (w.processes k).timeSlice := by
          intro w
          apply set_field Process.timeSlice
          rfl
        exact (hset (runqPop s).2).trans (hlinks.field Process.timeSlice (fun _ => rfl) k)
      have hcurrent : (switchNext s cur).current = some x := by rw [hswitch]
      have hrunning : ((switchNext s cur).processes x).state = .running := by
        rw [hswitch]
        exact congrArg Process.state (set_processes_self _ x _)
      by_cases heq : best = pri
      · rw [heq, hline] at hcons
        cases ahead with
        | nil =>
            rw [List.nil_append, List.cons.injEq] at hcons
            exact Or.inl (Or.inl ⟨hcurrent.trans (congrArg some hcons.1.symm), hcons.1 ▸ hrunning⟩)
        | cons y ahead =>
            rw [List.cons_append, List.cons.injEq] at hcons
            obtain ⟨hyx, hrest⟩ := hcons
            have hstill : Queued (switchNext s cur) (Function.update q best rest) := by
              have hset : Queued ((runqPop s).2.setState x .running) (Function.update q best rest) := hpopped.set_same rfl rfl
              rw [hswitch]
              exact ⟨hset.list, hset.tail, hset.home⟩
            have hbehind : Behind (switchNext s cur) i pri ahead := by
              refine ⟨(hprios i).trans hprio, _, behind, hstill, ?_⟩
              rw [heq, Function.update_self, hrest]
            have hturn : (switchNext s cur).turn = (s.processes y).rounds := by
              simp only [Sched.turn, hcurrent, hrunning, if_true, Process.rounds, hslices, hyx]
            have hrounds : (switchNext s cur).roundsOf ahead = s.roundsOf ahead := by simp only [Sched.roundsOf, Process.rounds, hslices]
            have hsplit : s.roundsOf (y :: ahead) = (s.processes y).rounds + s.roundsOf ahead := by simp [Sched.roundsOf]
            have hone := s.one_le_turn
            exact Or.inr ⟨s.roundsOf (y :: ahead), by omega, ahead, hbehind, by omega⟩
      · -- a queue is better than the one of the process
        have hless : best < pri := by
          by_contra hnot
          exact hnonempty (hbelow pri (by omega))
        have hhome := (hq.home best hbest x (by simp [hcons])).2
        exact Or.inl (Or.inr ⟨x, hcurrent, by rw [hprios, hhome]; exact hless⟩)

/-- The process that stays uses up one tick of its slice, and has one left. -/
theorem schedule_stays (hcurrent : s.current = some c) (hrunning : (s.processes c).state = .running) (hruns : runsOn s c = true) :
    schedule s = s.set c { s.processes c with timeSlice := (s.processes c).timeSlice - 1 } ∧ 1 < (s.processes c).timeSlice := by
  have hidle : (s.processes c).isIdle = false := by
    simp only [runsOn, Bool.and_eq_true, Bool.not_eq_true'] at hruns
    exact hruns.1.1
  have hslice : 1 < (s.processes c).timeSlice := by
    simp only [runsOn, hidle, Bool.not_false, Bool.true_and, decide_eq_true_eq, Bool.and_eq_true] at hruns
    have hpositive := hruns.1
    split at hpositive
    · omega
    · omega
  simp only [runsOn, hidle, Bool.not_false, Bool.true_and, decide_eq_true_eq] at hruns
  refine ⟨?_, hslice⟩
  simp only [schedule, hcurrent, hrunning, if_true, hidle, Bool.not_false, Bool.true_and, decide_eq_true_eq, if_pos hruns]
  rw [if_pos (by omega)]

/-- The current process has used up one tick of its slice. -/
theorem WaitsTicks.spend (h : WaitsTicks i pri s n) (hinv : SchedInv s) (hcurrent : s.current = some c) (hrunning : (s.processes c).state = .running)
    (hslice : 1 < (s.processes c).timeSlice) :
    ∃ m < n, WaitsTicks i pri (s.set c { s.processes c with timeSlice := (s.processes c).timeSlice - 1 }) m := by
  generalize hspent : s.set c { s.processes c with timeSlice := (s.processes c).timeSlice - 1 } = s'
  obtain ⟨ahead, ⟨hprio, q, behind, hq, hline⟩, hle⟩ := h
  have hpri : pri < processPriorityLevels := hprio ▸ hinv.holds.priority i
  have hout : ¬(s.processes c).Runnable := not_runnable_of_state (by simp [hrunning])
  have hqueued : Queued s' q := by
    rw [← hspent]
    exact hq.set_same rfl rfl
  have hprio' : (s'.processes i).priority = pri := by
    rw [← hprio, ← hspent]
    apply set_field Process.priority
    rfl
  have hbefore : s.turn = (s.processes c).timeSlice := by
    simp only [Sched.turn, hcurrent, hrunning, if_true, Process.rounds]
    omega
  have hafter : s'.turn = (s.processes c).timeSlice - 1 := by
    have hcurrent' : s'.current = some c := by rw [← hspent]; exact hcurrent
    have hslot : s'.processes c = { s.processes c with timeSlice := (s.processes c).timeSlice - 1 } := by rw [← hspent, set_processes_self]
    simp only [Sched.turn, hcurrent', hslot, hrunning, if_true, Process.rounds]
    omega
  have hrounds : s'.roundsOf ahead ≤ s.roundsOf ahead := by
    apply roundsOf_mono (List.Sublist.refl ahead)
    intro k hk
    have hkc : k ≠ c := by
      intro heq
      apply hinv.holds.not_mem hout hq pri hpri
      rw [hline, ← heq]
      exact List.mem_append_left _ hk
    rw [← hspent, set_processes_of_ne hkc]
  exact ⟨n - 1, by omega, ahead, ⟨hprio', q, behind, hqueued, hline⟩, by omega⟩

/-- The scheduling part of a tick serves the process, or shortens its wait. -/
theorem schedule_shortens (h : WaitsTicks i pri s n) (hinv : SchedInv s)
    (hused : ∀ c, s.current = some c → (s.processes c).state = .running → (s.processes c).used = true) :
    Served i pri (schedule s) ∨ ∃ m < n, WaitsTicks i pri (schedule s) m := by
  cases hc : s.current with
  | none =>
      have hnone : schedule s = switchNext s none := by rw [schedule, hc]
      rw [hnone]
      exact switchNext_shortens h hinv none
  | some c =>
      by_cases hrunning : (s.processes c).state = .running
      · have hout : ¬(s.processes c).Runnable := not_runnable_of_state (by simp [hrunning])
        have hne := h.ne_of_not_runnable hinv hout
        have hset : ∀ slice, WaitsTicks i pri (s.set c { s.processes c with timeSlice := slice, state := .ready }) n := by
          intro slice
          exact h.set_out hinv.holds hout hne (by simp)
        cases hruns : runsOn s c with
        | true =>
            obtain ⟨hstays, hslice⟩ := schedule_stays hc hrunning hruns
            rw [hstays]
            exact Or.inr (h.spend hinv hc hrunning hslice)
        | false =>
            rcases schedule_running hc hrunning with ⟨slice, ⟨hstays, -⟩ | ⟨hflag, hidle⟩ | ⟨hflag, hrequeue⟩⟩
            · rw [hruns] at hstays
              cases hstays
            · rw [hidle]
              exact switchNext_shortens (hset slice) (preemptIdle_schedInv hinv hrunning hflag slice) (some c)
            · rw [hrequeue]
              have hlt := hinv.current c hc
              have hready : Holds (s.set c { s.processes c with timeSlice := slice, state := .ready }) s.runnable :=
                hinv.holds.set_out hout (hinv.holds.priority c)
              have hinv' := preempt_schedInv hinv hlt hrunning (hused c hc hrunning) hflag slice
              exact switchNext_shortens ((hset slice).push hready hlt hout) hinv' (some c)
      · have hother : schedule s = switchNext s (some c) := by
          rw [schedule, hc]
          simp only [if_neg hrunning]
        rw [hother]
        exact switchNext_shortens h hinv (some c)

/-- A tick serves the process, or shortens its wait. -/
theorem processScheduleTick_shortens (h : WaitsTicks i pri s n) (hinv : SchedInv s)
    (hused : ∀ c, s.current = some c → (s.processes c).state = .running → (s.processes c).used = true) :
    Served i pri (processScheduleTick s).2 ∨ ∃ m < n, WaitsTicks i pri (processScheduleTick s).2 m := by
  have hkept := deliverSignal_kept s
  apply schedule_shortens (h.deliverSignal hinv) (deliverSignal_schedInv hinv)
  intro c hc hrunning
  rw [hkept.current] at hc
  rw [hkept.used]
  by_cases hbefore : (s.processes c).state = .running
  · exact hused c hc hbefore
  · simp only [deliverSignal, hc, if_neg hbefore] at hrunning
    exact absurd hrunning hbefore

end Tick

/-! ### Runs -/

/-- A runnable process is somewhere in the queue of its priority. -/
theorem SchedInv.behind {s : Sched} {i : Nat} (h : SchedInv s) (hlt : i < processMaxCount) (hready : (s.processes i).Runnable) :
    ∃ ahead, Behind s i (s.processes i).priority ahead ∧ ahead.length < processMaxCount := by
  obtain ⟨q, hq, hmem⟩ := h.holds.queues
  obtain ⟨ahead, behind, hline⟩ := List.append_of_mem ((hmem i hlt).mpr hready)
  have hlength := hq.runQueues.length_le (h.holds.priority i)
  rw [hline, List.length_append, List.length_cons] at hlength
  exact ⟨ahead, ⟨rfl, q, behind, hq, hline⟩, by omega⟩

/-- Whether the call is a tick. -/
def SchedCall.isTick : SchedCall → Bool
  | .scheduleTick => true
  | _ => false

/-- With no slice beyond the default, the wait is at most that many ticks for the current process and for each process ahead. -/
theorem Behind.waitsTicks {s : Sched} {i pri : Nat} {ahead : List Nat} (h : Behind s i pri ahead) (hcapped : Capped s) :
    WaitsTicks i pri s (processDefaultTimeslice * (ahead.length + 1)) := by
  have hrounds : ∀ j, (s.processes j).rounds ≤ processDefaultTimeslice := fun j => max_le (hcapped j) (by decide)
  have hturn : s.turn ≤ processDefaultTimeslice := by
    rw [Sched.turn]
    split
    · decide
    split
    · exact hrounds _
    · decide
  have hahead : s.roundsOf ahead ≤ ahead.length * processDefaultTimeslice := by
    have hsum := List.sum_le_card_nsmul (ahead.map fun j => (s.processes j).rounds) processDefaultTimeslice (by simpa using fun j _ => hrounds j)
    rwa [List.length_map, nsmul_eq_mul] at hsum
  refine ⟨ahead, h, ?_⟩
  rw [Nat.mul_add, Nat.mul_comm processDefaultTimeslice ahead.length]
  omega

/-- From a state in which the scheduler is consistent, the process at hand is served within the ticks that those ahead of it and the current one may take. -/
theorem reaches_of_behind {s : Sched} {calls : List SchedCall} {i pri : Nat} {ahead : List Nat} (hinv : SchedInv s) (hcapped : Capped s)
    (hbehind : Behind s i pri ahead) (hcalls : Allowed (fun s call => RunqSafe s call ∧ KeepsPriority i s call) SchedCall.step s calls)
    (henough : processDefaultTimeslice * (ahead.length + 1) ≤ calls.countP SchedCall.isTick) :
    Lib.Reaches (Served i pri) SchedCall.isTick SchedCall.step s calls := by
  have hwaits := hbehind.waitsTicks hcapped
  refine reaches_of_waits (fun s n => SchedInv s ∧ WaitsTicks i pri s n) (fun s n h => h.2.pos) ?_ ?_ ⟨hinv, hwaits⟩ hcalls henough
  · intro s n call h hok hquiet
    have hcall : call ≠ .scheduleTick := by
      intro heq
      rw [heq] at hquiet
      cases hquiet
    exact ⟨SchedCall.step_schedInv h.1 hok.1, SchedCall.step_waitsTicks h.2 h.1 hok.1 hok.2 hcall⟩
  · intro s n call h hok htick
    cases call with
    | scheduleTick =>
        have hinv' := SchedCall.step_schedInv h.1 hok.1
        cases processScheduleTick_shortens h.2 h.1 hok.1 with
        | inl hserved => exact Or.inl hserved
        | inr hless =>
            obtain ⟨m, hm, hwaits'⟩ := hless
            exact Or.inr ⟨m, hm, hinv', hwaits'⟩
    | _ => cases htick

/-- A bound that holds whoever waits: four ticks for each slot of the table. -/
theorem runnable_process_served (vmOk idleOk : Bool) (before calls : List SchedCall) {i : Nat} (hlt : i < processMaxCount)
    (hbefore : Allowed RunqSafe SchedCall.step (processInit vmOk idleOk) before)
    (hready : ((run SchedCall.step (processInit vmOk idleOk) before).processes i).Runnable)
    (hcalls : Allowed (fun s call => RunqSafe s call ∧ KeepsPriority i s call) SchedCall.step (run SchedCall.step (processInit vmOk idleOk) before) calls)
    (henough : processDefaultTimeslice * processMaxCount ≤ calls.countP SchedCall.isTick) :
    Lib.Reaches (Served i ((run SchedCall.step (processInit vmOk idleOk) before).processes i).priority) SchedCall.isTick SchedCall.step
      (run SchedCall.step (processInit vmOk idleOk) before) calls := by
  have hstep : ∀ s call, SchedInv s → RunqSafe s call → SchedInv (call.step s) := fun _ _ h hok => SchedCall.step_schedInv h hok
  have hinv := run_invariant hstep (processInit_schedInv vmOk idleOk) hbefore
  obtain ⟨ahead, hbehind, hlength⟩ := hinv.behind hlt hready
  have hless : processDefaultTimeslice * (ahead.length + 1) ≤ processDefaultTimeslice * processMaxCount := Nat.mul_le_mul_left _ hlength
  exact reaches_of_behind hinv (run_capped vmOk idleOk before) hbehind hcalls (hless.trans henough)

end Tsukasa
