import Tsukasa.Proc.RunQueue
import Mathlib.Data.Set.Insert

/-!
# The scheduler's invariant

`Holds s R` says that the run queues hold exactly the processes of `R`, each in the queue of its priority. The invariant of the scheduler is this with `R` the runnable processes: used, not the idle process, and ready. Each helper of `proc/process.c` that changes a process keeps it, under what the helper's callers must see to.
-/

namespace Tsukasa

/-- The process belongs in a run queue. -/
def Process.Runnable (p : Process) : Prop := p.used = true ∧ p.isIdle = false ∧ p.state = .ready

instance (p : Process) : Decidable p.Runnable := inferInstanceAs (Decidable (_ ∧ _ ∧ _))

def Sched.runnable (s : Sched) : Set Nat := { i | (s.processes i).Runnable }

/-- The run queues hold exactly the processes of `R`. -/
structure Holds (s : Sched) (R : Set Nat) : Prop where
  queues : ∃ q, Queued s q ∧ ∀ i < processMaxCount, i ∈ q (s.processes i).priority ↔ i ∈ R
  priority : ∀ i, (s.processes i).priority < processPriorityLevels

structure SchedInv (s : Sched) : Prop where
  holds : Holds s s.runnable
  current : ∀ c, s.current = some c → c < processMaxCount
  idle : ∀ i, s.idle = some i → i < processMaxCount
  idleAwake : ∀ i, (s.processes i).isIdle = true → (s.processes i).state ≠ .blocked

theorem findByPid_some {s : Sched} {pid : Int} {i : Nat} (h : findByPid s pid = some i) :
    i < processMaxCount ∧ (s.processes i).used = true ∧ asInt (s.processes i).pid = pid := by
  have hmem := List.mem_of_find?_eq_some h
  have hfound := List.find?_some h
  simp only [Bool.and_eq_true, decide_eq_true_eq] at hfound
  exact ⟨List.mem_range.mp hmem, hfound⟩

/-! ### The queues under updates -/

namespace Holds

variable {s s' : Sched} {R R' : Set Nat} {i : Nat} {p : Process}

theorem congr (h : Holds s R) (hR : ∀ i < processMaxCount, i ∈ R ↔ i ∈ R') : Holds s R' := by
  obtain ⟨q, hq, hmem⟩ := h.queues
  exact ⟨⟨q, hq, fun i hi => (hmem i hi).trans (hR i hi)⟩, h.priority⟩

/-- Nothing that the queues depend on is changed. -/
theorem of_same (h : Holds s R) (hnext : ∀ j, (s'.processes j).rqNext = (s.processes j).rqNext)
    (hprio : ∀ j, (s'.processes j).priority = (s.processes j).priority)
    (hhead : s'.runqHead = s.runqHead) (htail : s'.runqTail = s.runqTail) : Holds s' R := by
  obtain ⟨q, hq, hmem⟩ := h.queues
  have hnextOf : s'.nextOf = s.nextOf := funext hnext
  refine ⟨⟨q, ⟨?_, ?_, ?_⟩, ?_⟩, ?_⟩
  · rw [hnextOf, hhead]
    exact hq.list
  · rw [htail]
    exact hq.tail
  · intro pri hpri j hj
    rw [hprio]
    exact hq.home pri hpri j hj
  · intro j hj
    rw [hprio]
    exact hmem j hj
  · intro j
    rw [hprio]
    exact h.priority j

theorem set_same (h : Holds s R) (hnext : p.rqNext = (s.processes i).rqNext)
    (hprio : p.priority = (s.processes i).priority) : Holds (s.set i p) R :=
  h.of_same (set_field Process.rqNext hnext) (set_field Process.priority hprio) rfl rfl

theorem not_mem_queue {q : Nat → List Nat} (hq : Queued s q) (hmem : ∀ i < processMaxCount, i ∈ q (s.processes i).priority ↔ i ∈ R)
    (hi : i ∉ R) {pri : Nat} (hpri : pri < processPriorityLevels) : i ∉ q pri := by
  intro hin
  obtain ⟨hlt, heq⟩ := hq.home pri hpri i hin
  exact hi ((hmem i hlt).mp (heq ▸ hin))

/-- A process in no queue may be changed at will. -/
theorem set_out (h : Holds s R) (hi : i ∉ R) (hprio : p.priority < processPriorityLevels) : Holds (s.set i p) R := by
  obtain ⟨q, hq, hmem⟩ := h.queues
  have hout : ∀ pri < processPriorityLevels, i ∉ q pri := fun pri hpri => not_mem_queue hq hmem hi hpri
  have hne : ∀ pri < processPriorityLevels, ∀ j ∈ q pri, (s.set i p).processes j = s.processes j := by
    intro pri hpri j hj
    have hji : j ≠ i := fun heq => hout pri hpri (heq ▸ hj)
    exact set_processes_of_ne hji p
  refine ⟨⟨q, ⟨?_, hq.tail, ?_⟩, ?_⟩, ?_⟩
  · intro pri hpri
    refine (hq.list pri hpri).congr fun j hj => ?_
    simp only [Sched.nextOf, hne pri hpri j hj]
  · intro pri hpri j hj
    rw [hne pri hpri j hj]
    exact hq.home pri hpri j hj
  · intro j hj
    by_cases heq : j = i
    · rw [heq, set_processes_self]
      exact iff_of_false (hout _ hprio) hi
    · rw [set_processes_of_ne heq]
      exact hmem j hj
  · intro j
    by_cases heq : j = i
    · rwa [heq, set_processes_self]
    · rw [set_processes_of_ne heq]
      exact h.priority j

theorem of_queued {q : Nat → List Nat} (h : Holds s R) (hlinks : LinksOnly s s') (hq : Queued s' q)
    (hmem : ∀ i < processMaxCount, i ∈ q (s.processes i).priority ↔ i ∈ R') : Holds s' R' := by
  have hprio : ∀ j, (s'.processes j).priority = (s.processes j).priority := hlinks.field Process.priority fun _ => rfl
  refine ⟨⟨q, hq, fun j hj => ?_⟩, fun j => ?_⟩
  · rw [hprio]
    exact hmem j hj
  · rw [hprio]
    exact h.priority j

theorem push (h : Holds s R) (hlt : i < processMaxCount) (hi : i ∉ R) : Holds (runqPush s i) (insert i R) := by
  obtain ⟨q, hq, hmem⟩ := h.queues
  have hpri := h.priority i
  have hout := not_mem_queue hq hmem hi hpri
  refine h.of_queued (runqPush_linksOnly s i) (runqPush_queued hq hlt hpri hout) fun j hj => ?_
  rw [Set.mem_insert_iff, ← hmem j hj]
  by_cases heq : (s.processes j).priority = (s.processes i).priority
  · rw [heq, Function.update_self, List.mem_append, List.mem_singleton, or_comm]
  · have hji : j ≠ i := fun hji => heq (hji ▸ rfl)
    simp [Function.update_of_ne heq, hji]

theorem remove (h : Holds s R) (i : Nat) : Holds (runqRemove s i) (R \ {i}) := by
  obtain ⟨q, hq, hmem⟩ := h.queues
  have hpri := h.priority i
  refine h.of_queued (runqRemove_linksOnly s i) (runqRemove_queued hq hpri) fun j hj => ?_
  rw [Set.mem_sdiff, Set.mem_singleton_iff, ← hmem j hj]
  by_cases heq : (s.processes j).priority = (s.processes i).priority
  · rw [heq, Function.update_self, (hq.list _ hpri).nodup.mem_erase_iff, and_comm]
  · have hji : j ≠ i := fun hji => heq (hji ▸ rfl)
    simp [Function.update_of_ne heq, hji]

theorem pop (h : Holds s R) :
    ((runqPop s).1 = none ∧ (∀ i < processMaxCount, i ∉ R) ∧ (runqPop s).2 = s) ∨
      ∃ i < processMaxCount, i ∈ R ∧ (runqPop s).1 = some i ∧ Holds (runqPop s).2 (R \ {i}) := by
  obtain ⟨q, hq, hmem⟩ := h.queues
  rcases runqPop_queued hq with ⟨hempty, hnone, hsame⟩ | ⟨pri, hpri, i, rest, hcons, -, hsome, hpopped⟩
  · refine Or.inl ⟨hnone, fun i hi => ?_, hsame⟩
    rw [← hmem i hi, hempty _ (h.priority i)]
    exact List.not_mem_nil
  · have hin : i ∈ q pri := by simp [hcons]
    obtain ⟨hlt, hhome⟩ := hq.home pri hpri i hin
    have hnodup := (hq.list pri hpri).nodup
    rw [hcons, List.nodup_cons] at hnodup
    refine Or.inr ⟨i, hlt, (hmem i hlt).mp (hhome ▸ hin), hsome, ?_⟩
    refine h.of_queued (runqPop_linksOnly s) hpopped fun j hj => ?_
    rw [Set.mem_sdiff, Set.mem_singleton_iff, ← hmem j hj]
    by_cases heq : (s.processes j).priority = pri
    · rw [heq, Function.update_self, hcons, List.mem_cons]
      constructor
      · intro hrest
        exact ⟨Or.inr hrest, fun hji => hnodup.1 (hji ▸ hrest)⟩
      · rintro ⟨hji | hrest, hne⟩
        · exact absurd hji hne
        · exact hrest
    · have hji : j ≠ i := fun hji => heq (hji ▸ hhome)
      simp [Function.update_of_ne heq, hji]

end Holds

/-! ### What a signal or a wake-up leaves alone -/

/-- The fields that only a creation and a reaping change. -/
def Process.identity (p : Process) : Bool × Nat × Nat × Nat × Bool := (p.used, p.pid, p.ppid, p.pgid, p.isIdle)

structure Kept (s s' : Sched) : Prop where
  identity : ∀ j, (s'.processes j).identity = (s.processes j).identity
  current : s'.current = s.current
  idle : s'.idle = s.idle
  nextPid : s'.nextPid = s.nextPid

namespace Kept

variable {s s' s'' : Sched}

theorem refl (s : Sched) : Kept s s := ⟨fun _ => rfl, rfl, rfl, rfl⟩

theorem trans (h : Kept s s') (h' : Kept s' s'') : Kept s s'' :=
  ⟨fun i => (h'.identity i).trans (h.identity i), h'.current.trans h.current, h'.idle.trans h.idle, h'.nextPid.trans h.nextPid⟩

theorem of_linksOnly (h : LinksOnly s s') : Kept s s' :=
  ⟨h.field Process.identity fun _ => rfl, h.current, h.idle, h.nextPid⟩

theorem set {i : Nat} {p : Process} (hp : p.identity = (s.processes i).identity) : Kept s (s.set i p) :=
  ⟨set_field Process.identity hp, rfl, rfl, rfl⟩

theorem used (h : Kept s s') (j : Nat) : (s'.processes j).used = (s.processes j).used := congrArg (·.1) (h.identity j)

theorem pid (h : Kept s s') (j : Nat) : (s'.processes j).pid = (s.processes j).pid := congrArg (·.2.1) (h.identity j)

theorem ppid (h : Kept s s') (j : Nat) : (s'.processes j).ppid = (s.processes j).ppid := congrArg (·.2.2.1) (h.identity j)

theorem pgid (h : Kept s s') (j : Nat) : (s'.processes j).pgid = (s.processes j).pgid := congrArg (·.2.2.2.1) (h.identity j)

theorem isIdle (h : Kept s s') (j : Nat) : (s'.processes j).isIdle = (s.processes j).isIdle :=
  congrArg (·.2.2.2.2) (h.identity j)

theorem findByPid (h : Kept s s') (pid : Int) : findByPid s' pid = findByPid s pid := by
  simp only [Tsukasa.findByPid, h.used, h.pid]

end Kept

theorem wake_kept (s : Sched) (i : Nat) : Kept s (wake s i) := by
  rw [wake]
  split
  · have hset : Kept s (s.setState i .ready) := Kept.set rfl
    exact hset.trans (Kept.of_linksOnly (runqPush_linksOnly _ i))
  · exact Kept.refl s

theorem wakeParentIfWaiting_kept (s : Sched) (i : Nat) : Kept s (wakeParentIfWaiting s i) := by
  rw [wakeParentIfWaiting]
  split
  · exact Kept.refl s
  · split
    · exact Kept.refl s
    · exact wake_kept s _

theorem markZombie_kept (s : Sched) (i : Nat) (status : BitVec 32) : Kept s (markZombie s i status) := by
  rw [markZombie]
  split
  · exact Kept.refl s
  · have hset : Kept s (s.set i { s.processes i with waitStatus := status, state := .zombie }) := Kept.set rfl
    exact hset.trans (wakeParentIfWaiting_kept _ i)

theorem postSignal_kept (s : Sched) (i sig : Nat) : Kept s (postSignal s i sig) := by
  rw [postSignal]
  split
  · exact markZombie_kept s i _
  · have hset : Kept s (s.set i { s.processes i with signalPending := (s.processes i).signalPending ||| BitVec.twoPow 64 sig }) :=
      Kept.set rfl
    exact hset.trans (wake_kept _ i)

theorem prepareSignalAction_kept (s : Sched) (i : Nat) : Kept s (prepareSignalAction s i).2 := by
  simp only [prepareSignalAction]
  split
  · exact Kept.refl s
  split
  · exact Kept.refl s
  rename_i sig _
  have hset : Kept s (s.set i { s.processes i with
      signalPending := (s.processes i).signalPending &&& ~~~(BitVec.twoPow 64 sig) }) := Kept.set rfl
  split
  · exact hset
  split
  · exact hset.trans (markZombie_kept _ i _)
  · exact hset

theorem deliverSignal_kept (s : Sched) : Kept s (deliverSignal s).2 := by
  rw [deliverSignal]
  split
  · exact Kept.refl s
  split
  · exact prepareSignalAction_kept s _
  · exact Kept.refl s

/-! ### Children -/

/-- Nothing but the links between parents and children differs between the states. -/
structure ChildLinks (s s' : Sched) : Prop where
  slot : ∀ j, ∃ head next, s'.processes j = { s.processes j with childrenHead := head, parentNextChild := next }
  runqHead : s'.runqHead = s.runqHead
  runqTail : s'.runqTail = s.runqTail
  current : s'.current = s.current
  idle : s'.idle = s.idle
  nextPid : s'.nextPid = s.nextPid

namespace ChildLinks

variable {s s' s'' : Sched}

theorem refl (s : Sched) : ChildLinks s s := ⟨fun _ => ⟨_, _, rfl⟩, rfl, rfl, rfl, rfl, rfl⟩

theorem trans (h : ChildLinks s s') (h' : ChildLinks s' s'') : ChildLinks s s'' := by
  refine ⟨fun j => ?_, h'.runqHead.trans h.runqHead, h'.runqTail.trans h.runqTail, h'.current.trans h.current,
    h'.idle.trans h.idle, h'.nextPid.trans h.nextPid⟩
  obtain ⟨head, next, hslot⟩ := h.slot j
  obtain ⟨head', next', hslot'⟩ := h'.slot j
  exact ⟨head', next', by rw [hslot', hslot]⟩

theorem set (s : Sched) (i : Nat) (head next : Option Nat) :
    ChildLinks s (s.set i { s.processes i with childrenHead := head, parentNextChild := next }) := by
  refine ⟨fun j => ?_, rfl, rfl, rfl, rfl, rfl⟩
  by_cases heq : j = i
  · rw [heq, set_processes_self]
    exact ⟨_, _, rfl⟩
  · rw [set_processes_of_ne heq]
    exact ⟨_, _, rfl⟩

theorem field {α : Sort*} (h : ChildLinks s s') (f : Process → α)
    (hf : ∀ p head next, f { p with childrenHead := head, parentNextChild := next } = f p) (j : Nat) :
    f (s'.processes j) = f (s.processes j) := by
  obtain ⟨head, next, hslot⟩ := h.slot j
  rw [hslot, hf]

theorem runnable (h : ChildLinks s s') : s'.runnable = s.runnable := by
  ext j
  have hfield := h.field Process.Runnable (fun _ _ _ => rfl) j
  simp only [Sched.runnable, Set.mem_ofPred_eq, hfield]

theorem holds (h : ChildLinks s s') {R : Set Nat} (hholds : Holds s R) : Holds s' R :=
  hholds.of_same (h.field Process.rqNext fun _ _ _ => rfl) (h.field Process.priority fun _ _ _ => rfl) h.runqHead h.runqTail

theorem schedInv (h : ChildLinks s s') (hinv : SchedInv s) : SchedInv s' := by
  refine ⟨?_, h.current ▸ hinv.current, h.idle ▸ hinv.idle, fun j => ?_⟩
  · rw [h.runnable]
    exact h.holds hinv.holds
  · rw [h.field Process.isIdle fun _ _ _ => rfl, h.field Process.state fun _ _ _ => rfl]
    exact hinv.idleAwake j

end ChildLinks

theorem parentLinkChild_childLinks (s : Sched) (parent child : Nat) : ChildLinks s (parentLinkChild s parent child) :=
  (ChildLinks.set s child _ _).trans (ChildLinks.set _ parent _ _)

theorem parentUnlinkLoop_childLinks (s : Sched) (parent child fuel : Nat) (prev cur : Option Nat) :
    ChildLinks s (parentUnlinkLoop s parent child fuel prev cur) := by
  induction fuel generalizing prev cur with
  | zero => exact ChildLinks.refl s
  | succ fuel ih =>
      cases cur with
      | none => exact ChildLinks.refl s
      | some cur =>
          simp only [parentUnlinkLoop]
          split
          · refine ChildLinks.trans ?_ (ChildLinks.set _ child _ _)
            cases prev with
            | none => exact ChildLinks.set s parent _ _
            | some q => exact ChildLinks.set s q _ _
          · exact ih _ _

theorem parentUnlinkChild_childLinks (s : Sched) (parent child : Nat) : ChildLinks s (parentUnlinkChild s parent child) :=
  parentUnlinkLoop_childLinks s parent child _ _ _

/-! ### One slot changed -/

theorem runnable_set_mem {s : Sched} {i : Nat} {p : Process} (j : Nat) :
    j ∈ (s.set i p).runnable ↔ if j = i then p.Runnable else j ∈ s.runnable := by
  by_cases heq : j = i
  · simp [Sched.runnable, heq]
  · simp [Sched.runnable, heq, set_processes_of_ne heq]

theorem LinksOnly.runnable {s s' : Sched} (h : LinksOnly s s') : s'.runnable = s.runnable := by
  ext i
  have hfield := h.field Process.Runnable (fun _ => rfl) i
  simp only [Sched.runnable, Set.mem_ofPred_eq, hfield]

namespace SchedInv

variable {s s' : Sched} {i : Nat} {p : Process}

/-- A field the scheduler's queues do not depend on is changed. -/
theorem set_quiet (h : SchedInv s) (hused : p.used = (s.processes i).used) (hidle : p.isIdle = (s.processes i).isIdle)
    (hstate : p.state = (s.processes i).state) (hprio : p.priority = (s.processes i).priority)
    (hnext : p.rqNext = (s.processes i).rqNext) : SchedInv (s.set i p) := by
  refine ⟨(h.holds.set_same hnext hprio).congr fun j _ => ?_, h.current, h.idle, fun j hj => ?_⟩
  · rw [runnable_set_mem]
    split
    · rename_i heq
      simp only [Sched.runnable, Set.mem_ofPred_eq, Process.Runnable, heq, hused, hidle, hstate]
    · rfl
  · by_cases heq : j = i
    · rw [heq, set_processes_self] at hj ⊢
      rw [hstate]
      exact h.idleAwake i (hidle ▸ hj)
    · rw [set_processes_of_ne heq] at hj ⊢
      exact h.idleAwake j hj

/-- A process that is in no queue and is to be in none is changed. -/
theorem set_out (h : SchedInv s) (hold : ¬(s.processes i).Runnable) (hnew : ¬p.Runnable)
    (hprio : p.priority < processPriorityLevels) (hawake : p.isIdle = true → p.state ≠ .blocked) : SchedInv (s.set i p) := by
  refine ⟨(h.holds.set_out hold hprio).congr fun j _ => ?_, h.current, h.idle, fun j hj => ?_⟩
  · rw [runnable_set_mem]
    split
    · rename_i heq
      rw [heq]
      exact iff_of_false hold hnew
    · rfl
  · by_cases heq : j = i
    · rw [heq, set_processes_self] at hj ⊢
      exact hawake hj
    · rw [set_processes_of_ne heq] at hj ⊢
      exact h.idleAwake j hj

/-- The one runnable process that is in no queue is queued. -/
theorem push {R : Set Nat} (hholds : Holds s R) (hlt : i < processMaxCount) (hi : i ∉ R)
    (hrun : ∀ j, j ∈ s.runnable ↔ j = i ∨ j ∈ R) (hcurrent : ∀ c, s.current = some c → c < processMaxCount)
    (hidle : ∀ j, s.idle = some j → j < processMaxCount)
    (hawake : ∀ j, (s.processes j).isIdle = true → (s.processes j).state ≠ .blocked) : SchedInv (runqPush s i) := by
  have hlinks := runqPush_linksOnly s i
  refine ⟨(hholds.push hlt hi).congr fun j _ => ?_, ?_, ?_, fun j hj => ?_⟩
  · rw [hlinks.runnable, hrun, Set.mem_insert_iff]
  · rwa [hlinks.current]
  · rwa [hlinks.idle]
  · rw [hlinks.field Process.isIdle fun _ => rfl] at hj
    rw [hlinks.field Process.state fun _ => rfl]
    exact hawake j hj

/-- A process that is in no queue becomes ready and is queued, after its family has been linked. -/
theorem set_push (h : SchedInv s) (hlt : i < processMaxCount) (hold : ¬(s.processes i).Runnable) (hnew : p.Runnable)
    (hprio : p.priority < processPriorityLevels) (hlinks : ChildLinks (s.set i p) s') : SchedInv (runqPush s' i) := by
  have hholds := hlinks.holds (h.holds.set_out hold hprio)
  refine push hholds hlt hold (fun j => ?_) (hlinks.current ▸ h.current) (hlinks.idle ▸ h.idle) fun j hj => ?_
  · rw [hlinks.runnable, runnable_set_mem]
    split
    · rename_i heq
      exact iff_of_true hnew (Or.inl heq)
    · rename_i hne
      exact (or_iff_right hne).symm
  · rw [hlinks.field Process.isIdle fun _ _ _ => rfl] at hj
    rw [hlinks.field Process.state fun _ _ _ => rfl]
    by_cases heq : j = i
    · rw [heq, set_processes_self] at hj
      exact absurd hj (by simp [hnew.2.1])
    · rw [set_processes_of_ne heq] at hj ⊢
      exact h.idleAwake j hj

end SchedInv

/-! ### Waking and terminating -/

section Wake

variable {s : Sched} {i : Nat}

theorem not_runnable_of_state {p : Process} (h : p.state ≠ .ready) : ¬p.Runnable := fun hrun => h hrun.2.2

theorem wake_schedInv (h : SchedInv s) (hlt : i < processMaxCount) (hused : (s.processes i).used = true) :
    SchedInv (wake s i) := by
  rw [wake]
  split
  · rename_i hblocked
    have hidle : (s.processes i).isIdle = false := by
      by_contra hne
      exact h.idleAwake i (by simpa using hne) hblocked
    exact h.set_push (p := { s.processes i with state := .ready }) hlt (not_runnable_of_state (by simp [hblocked]))
      ⟨hused, hidle, rfl⟩ (h.holds.priority i) (ChildLinks.refl _)
  · exact h

theorem wakeParentIfWaiting_schedInv (h : SchedInv s) : SchedInv (wakeParentIfWaiting s i) := by
  rw [wakeParentIfWaiting]
  split
  · exact h
  · split
    · exact h
    · rename_i parent hparent
      obtain ⟨hlt, hused, -⟩ := findByPid_some hparent
      exact wake_schedInv h hlt hused

theorem markZombie_schedInv (h : SchedInv s) (hout : ¬(s.processes i).Runnable) (status : BitVec 32) :
    SchedInv (markZombie s i status) := by
  rw [markZombie]
  split
  · exact h
  · apply wakeParentIfWaiting_schedInv
    exact h.set_out hout (not_runnable_of_state (by simp)) (h.holds.priority i) (by simp)

theorem postSignal_schedInv (h : SchedInv s) (hlt : i < processMaxCount) (hused : (s.processes i).used = true) {sig : Nat}
    (hkill : sig = processSigkill → ¬(s.processes i).Runnable) : SchedInv (postSignal s i sig) := by
  rw [postSignal]
  split
  · rename_i hsig
    exact markZombie_schedInv h (hkill hsig) _
  · apply wake_schedInv _ hlt
    · simpa using hused
    · exact h.set_quiet rfl rfl rfl rfl rfl

theorem prepareSignalAction_schedInv (h : SchedInv s) (hout : ¬(s.processes i).Runnable) :
    SchedInv (prepareSignalAction s i).2 := by
  simp only [prepareSignalAction]
  split
  · exact h
  split
  · exact h
  rename_i sig _
  have hset : SchedInv (s.set i { s.processes i with
      signalPending := (s.processes i).signalPending &&& ~~~(BitVec.twoPow 64 sig) }) := h.set_quiet rfl rfl rfl rfl rfl
  split
  · exact hset
  split
  · apply markZombie_schedInv hset
    simpa [Process.Runnable] using hout
  · exact hset

end Wake

end Tsukasa
