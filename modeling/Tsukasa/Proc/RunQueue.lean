import Tsukasa.Proc.Process
import Tsukasa.Lib.Linked

/-!
# The run queues as lists

Each priority has a queue linked through `rq_next`. `RunQueues s q` says that the queues of a state are the lists `q`, and the three queue operations are then the operations of first-in first-out queues on `q`. They change no field of a process but its links. Where the priority of a process does not change while it waits, as in the scheduler, each queue holds the processes of its own priority, and `Queued s q` says this too.
-/

namespace Tsukasa

open Lib.Linked

/-- A process without its run-queue links. -/
def Process.core (p : Process) : Process := { p with rqNext := none, nextQueue := none, prevQueue := none }

/-- The run-queue link of every slot. -/
def Sched.nextOf (s : Sched) (i : Nat) : Option Nat := (s.processes i).rqNext

/-- Nothing but run-queue links and the queues' ends differs between the states. -/
structure LinksOnly (s s' : Sched) : Prop where
  core : ∀ i, (s'.processes i).core = (s.processes i).core
  current : s'.current = s.current
  idle : s'.idle = s.idle
  nextPid : s'.nextPid = s.nextPid

/-- The queues of `s` are the lists `q`, and no process is in two places. -/
structure RunQueues (s : Sched) (q : Nat → List Nat) : Prop where
  list : ∀ pri < processPriorityLevels, IsList s.nextOf (s.runqHead pri) (q pri)
  tail : ∀ pri < processPriorityLevels, s.runqTail pri = (q pri).getLast?
  slots : ∀ pri < processPriorityLevels, ∀ i ∈ q pri, i < processMaxCount
  apart : ∀ pri < processPriorityLevels, ∀ other < processPriorityLevels, other ≠ pri → ∀ i ∈ q pri, i ∉ q other

/-- The queues of `s` are the lists `q`, each holding processes of its own priority. -/
structure Queued (s : Sched) (q : Nat → List Nat) : Prop where
  list : ∀ pri < processPriorityLevels, IsList s.nextOf (s.runqHead pri) (q pri)
  tail : ∀ pri < processPriorityLevels, s.runqTail pri = (q pri).getLast?
  home : ∀ pri < processPriorityLevels, ∀ i ∈ q pri, i < processMaxCount ∧ (s.processes i).priority = pri

namespace LinksOnly

variable {s s' s'' : Sched}

theorem refl (s : Sched) : LinksOnly s s := ⟨fun _ => rfl, rfl, rfl, rfl⟩

theorem trans (h : LinksOnly s s') (h' : LinksOnly s' s'') : LinksOnly s s'' :=
  ⟨fun i => (h'.core i).trans (h.core i), h'.current.trans h.current, h'.idle.trans h.idle, h'.nextPid.trans h.nextPid⟩

/-- A field that is no link is the same. -/
theorem field {α : Sort*} (h : LinksOnly s s') (f : Process → α) (hf : ∀ p, f p.core = f p) (i : Nat) :
    f (s'.processes i) = f (s.processes i) := by
  rw [← hf, h.core, hf]

theorem set {i : Nat} {p : Process} (hp : p.core = (s.processes i).core) : LinksOnly s (s.set i p) := by
  refine ⟨fun j => ?_, rfl, rfl, rfl⟩
  simp only [Sched.set, Function.update_apply]
  split
  · rename_i heq
    rw [heq, hp]
  · rfl

end LinksOnly

@[simp] theorem nextOf_set (s : Sched) (i : Nat) (p : Process) : (s.set i p).nextOf = Function.update s.nextOf i p.rqNext := by
  funext j
  simp only [Sched.nextOf, Sched.set, Function.update_apply]
  split <;> rfl

@[simp] theorem set_runqHead (s : Sched) (i : Nat) (p : Process) : (s.set i p).runqHead = s.runqHead := rfl

@[simp] theorem set_runqTail (s : Sched) (i : Nat) (p : Process) : (s.set i p).runqTail = s.runqTail := rfl

@[simp] theorem set_processes_self (s : Sched) (i : Nat) (p : Process) : (s.set i p).processes i = p := Function.update_self _ _ _

theorem set_processes_of_ne {s : Sched} {i j : Nat} (h : j ≠ i) (p : Process) : (s.set i p).processes j = s.processes j :=
  Function.update_of_ne h _ _

/-- A field of the process that is written with the value it had is the same everywhere. -/
theorem set_field {s : Sched} {i : Nat} {p : Process} {α : Type} (f : Process → α) (h : f p = f (s.processes i)) (j : Nat) :
    f ((s.set i p).processes j) = f (s.processes j) := by
  by_cases heq : j = i
  · rw [heq, set_processes_self, h]
  · rw [set_processes_of_ne heq]

theorem clampPriority_of_lt {pri : Nat} (h : pri < processPriorityLevels) : clampPriority pri = pri := by
  rw [clampPriority, if_neg (by omega)]

theorem clampPriority_lt (pri : Nat) : clampPriority pri < processPriorityLevels := by
  rw [clampPriority]
  split
  · decide
  · omega

namespace RunQueues

variable {s s' : Sched} {q : Nat → List Nat} {pri : Nat}

theorem length_le (h : RunQueues s q) (hpri : pri < processPriorityLevels) : (q pri).length ≤ processMaxCount := by
  have hle := (h.list pri hpri).length_le (s := Finset.range processMaxCount) fun j hj => Finset.mem_range.mpr (h.slots pri hpri j hj)
  rwa [Finset.card_range] at hle

/-- An empty queue has no ends, and every other one has two. -/
theorem ends (h : RunQueues s q) (hpri : pri < processPriorityLevels) :
    (q pri = [] ∧ s.runqHead pri = none ∧ s.runqTail pri = none) ∨
      ∃ l t head, q pri = l ++ [t] ∧ s.runqHead pri = some head ∧ s.runqTail pri = some t := by
  have hhead := (h.list pri hpri).head_eq
  have htail := h.tail pri hpri
  rcases List.eq_nil_or_concat' (q pri) with hnil | ⟨l, t, hl⟩
  · left
    rw [hnil] at hhead htail
    exact ⟨hnil, hhead, htail⟩
  · right
    rw [hl, List.getLast?_concat] at htail
    rw [hl] at hhead
    cases l with
    | nil => exact ⟨[], t, t, hl, hhead, htail⟩
    | cons x l => exact ⟨x :: l, t, x, hl, hhead, htail⟩

/-- One queue is replaced, by changes to links of processes that are in no other queue. -/
theorem replace (h : RunQueues s q) {l : List Nat} (hlist : IsList s'.nextOf (s'.runqHead pri) l) (htail : s'.runqTail pri = l.getLast?)
    (hheads : ∀ p ≠ pri, s'.runqHead p = s.runqHead p) (htails : ∀ p ≠ pri, s'.runqTail p = s.runqTail p)
    (hnext : ∀ p < processPriorityLevels, p ≠ pri → ∀ j ∈ q p, s'.nextOf j = s.nextOf j)
    (hmem : ∀ j ∈ l, j < processMaxCount ∧ ∀ p < processPriorityLevels, p ≠ pri → j ∉ q p) : RunQueues s' (Function.update q pri l) := by
  refine ⟨?_, ?_, ?_, ?_⟩
  · intro p hp
    by_cases heq : p = pri
    · rw [heq, Function.update_self]
      exact hlist
    · rw [hheads p heq, Function.update_of_ne heq]
      exact (h.list p hp).congr (hnext p hp heq)
  · intro p hp
    by_cases heq : p = pri
    · rw [heq, Function.update_self, htail]
    · rw [htails p heq, Function.update_of_ne heq, h.tail p hp]
  · intro p hp j hj
    by_cases heq : p = pri
    · rw [heq, Function.update_self] at hj
      exact (hmem j hj).1
    · rw [Function.update_of_ne heq] at hj
      exact h.slots p hp j hj
  · intro p hp other hother hne j hj
    by_cases heq : p = pri
    · rw [heq, Function.update_self] at hj
      rw [Function.update_of_ne (heq ▸ hne)]
      exact (hmem j hj).2 other hother (heq ▸ hne)
    · rw [Function.update_of_ne heq] at hj
      by_cases heq' : other = pri
      · rw [heq', Function.update_self]
        exact fun hmem' => (hmem j hmem').2 p hp heq hj
      · rw [Function.update_of_ne heq']
        exact h.apart p hp other hother hne j hj

end RunQueues

namespace Queued

variable {s s' : Sched} {q : Nat → List Nat} {i pri : Nat}

theorem runQueues (h : Queued s q) : RunQueues s q :=
  ⟨h.list, h.tail, fun pri hpri i hi => (h.home pri hpri i hi).1,
    fun pri hpri other hother hne i hi hi' => hne ((h.home other hother i hi').2.symm.trans (h.home pri hpri i hi).2)⟩

/-- A process is in the queue of its own priority or in none. -/
theorem not_mem_other (h : Queued s q) (hpri : pri < processPriorityLevels) (hne : (s.processes i).priority ≠ pri) : i ∉ q pri :=
  fun hmem => hne (h.home pri hpri i hmem).2

/-- Queues of processes that keep their priority, one of them replaced. -/
theorem of_runQueues (h : Queued s q) {l : List Nat} (hqueues : RunQueues s' (Function.update q pri l)) (hlinks : LinksOnly s s')
    (hl : ∀ j ∈ l, (s.processes j).priority = pri) : Queued s' (Function.update q pri l) := by
  refine ⟨hqueues.list, hqueues.tail, fun p hp j hj => ⟨hqueues.slots p hp j hj, ?_⟩⟩
  rw [hlinks.field Process.priority fun _ => rfl]
  by_cases heq : p = pri
  · rw [heq, Function.update_self] at hj
    rw [heq, hl j hj]
  · rw [Function.update_of_ne heq] at hj
    exact (h.home p hp j hj).2

end Queued

/-! ### Push -/

section Push

variable {s : Sched} {q : Nat → List Nat} {i t : Nat}

theorem runqPush_of_empty (hhead : s.runqHead (clampPriority (s.processes i).priority) = none) :
    runqPush s i =
      { s.set i { s.processes i with
          rqNext := none, nextQueue := none, prevQueue := s.runqTail (clampPriority (s.processes i).priority) } with
        runqHead := Function.update s.runqHead (clampPriority (s.processes i).priority) (some i)
        runqTail := Function.update s.runqTail (clampPriority (s.processes i).priority) (some i) } := by
  simp only [runqPush, set_runqHead, hhead, set_runqTail]

theorem runqPush_of_tail {head : Nat} (hhead : s.runqHead (clampPriority (s.processes i).priority) = some head)
    (htail : s.runqTail (clampPriority (s.processes i).priority) = some t) :
    runqPush s i =
      (let s' := s.set i { s.processes i with
        rqNext := none, nextQueue := none, prevQueue := s.runqTail (clampPriority (s.processes i).priority) }
      { s'.set t { s'.processes t with rqNext := some i, nextQueue := some i } with
        runqTail := Function.update s.runqTail (clampPriority (s.processes i).priority) (some i) }) := by
  simp only [runqPush, set_runqHead, hhead, set_runqTail, htail]

theorem runqPush_linksOnly (s : Sched) (i : Nat) : LinksOnly s (runqPush s i) := by
  simp only [runqPush]
  have hfirst : LinksOnly s (s.set i { s.processes i with
      rqNext := none, nextQueue := none, prevQueue := s.runqTail (clampPriority (s.processes i).priority) }) := LinksOnly.set rfl
  generalize s.set i _ = s₁ at hfirst
  split
  · exact ⟨hfirst.core, hfirst.current, hfirst.idle, hfirst.nextPid⟩
  · rename_i t _ _
    have hsecond : LinksOnly s₁ (s₁.set t { s₁.processes t with rqNext := some i, nextQueue := some i }) := LinksOnly.set rfl
    have hboth := hfirst.trans hsecond
    exact ⟨hboth.core, hboth.current, hboth.idle, hboth.nextPid⟩
  · exact hfirst

/-- The links and the ends of the queues after a push behind `t`. -/
theorem runqPush_links {head : Nat} (hhead : s.runqHead (clampPriority (s.processes i).priority) = some head)
    (htail : s.runqTail (clampPriority (s.processes i).priority) = some t) :
    (runqPush s i).nextOf = Function.update (Function.update s.nextOf i none) t (some i) ∧ (runqPush s i).runqHead = s.runqHead ∧
      (runqPush s i).runqTail = Function.update s.runqTail (clampPriority (s.processes i).priority) (some i) := by
  rw [runqPush_of_tail hhead htail]
  refine ⟨?_, rfl, rfl⟩
  change (Sched.set _ _ _).nextOf = _
  simp only [nextOf_set]

/-- Pushing a process that is in no queue appends it to the queue of its priority. -/
theorem runqPush_runQueues (h : RunQueues s q) (hi : i < processMaxCount) (hnew : ∀ pri < processPriorityLevels, i ∉ q pri) :
    RunQueues (runqPush s i)
      (Function.update q (clampPriority (s.processes i).priority) (q (clampPriority (s.processes i).priority) ++ [i])) := by
  have hpri := clampPriority_lt (s.processes i).priority
  have hlist := h.list _ hpri
  have hmem : ∀ j ∈ q (clampPriority (s.processes i).priority) ++ [i],
      j < processMaxCount ∧ ∀ p < processPriorityLevels, p ≠ clampPriority (s.processes i).priority → j ∉ q p := by
    intro j hj
    cases List.mem_append.mp hj with
    | inl hold => exact ⟨h.slots _ hpri j hold, fun p hp hne => h.apart _ hpri p hp hne j hold⟩
    | inr hji =>
        rw [List.mem_singleton.mp hji]
        exact ⟨hi, fun p hp _ => hnew p hp⟩
  have hother : ∀ p < processPriorityLevels, ∀ j ∈ q p, j ≠ i := fun p hp j hj heq => hnew p hp (heq ▸ hj)
  rcases h.ends hpri with ⟨hnil, hhead, -⟩ | ⟨l, t, head, hl, hhead, htail⟩
  · have hpush := runqPush_of_empty hhead
    refine h.replace ?_ ?_ (fun p hp => ?_) (fun p hp => ?_) (fun p hp _ j hj => ?_) hmem
    · simp [hpush, Sched.nextOf, hnil]
    · simp [hpush, hnil]
    · simp [hpush, hp]
    · simp [hpush, hp]
    · simp [hpush, Sched.nextOf, set_processes_of_ne (hother p hp j hj)]
  · have ht : t ∈ q (clampPriority (s.processes i).priority) := by simp [hl]
    obtain ⟨hnext, hheads, htails⟩ := runqPush_links hhead htail
    refine h.replace ?_ ?_ (fun p hp => ?_) (fun p hp => ?_) (fun p hp hne j hj => ?_) hmem
    · have hnew' := hnew _ hpri
      rw [hl] at hlist hnew' ⊢
      rw [hnext, hheads]
      exact hlist.push hnew'
    · rw [htails, Function.update_self, List.getLast?_concat]
    · rw [hheads]
    · rw [htails, Function.update_of_ne hp]
    · have hjt : j ≠ t := fun hjt => h.apart _ hpri p hp hne t ht (hjt ▸ hj)
      rw [hnext, Function.update_of_ne hjt, Function.update_of_ne (hother p hp j hj)]

theorem runqPush_queued (h : Queued s q) (hi : i < processMaxCount) (hpri : (s.processes i).priority < processPriorityLevels)
    (hnew : i ∉ q (s.processes i).priority) :
    Queued (runqPush s i)
      (Function.update q (s.processes i).priority (q (s.processes i).priority ++ [i])) := by
  have hnone : ∀ pri < processPriorityLevels, i ∉ q pri := by
    intro pri hlt
    by_cases heq : (s.processes i).priority = pri
    · exact heq ▸ hnew
    · exact h.not_mem_other hlt heq
  have hqueues := runqPush_runQueues h.runQueues hi hnone
  rw [clampPriority_of_lt hpri] at hqueues
  apply h.of_runQueues hqueues (runqPush_linksOnly s i)
  intro j hj
  cases List.mem_append.mp hj with
  | inl hold => exact (h.home _ hpri j hold).2
  | inr hji => rw [List.mem_singleton.mp hji]

end Push

/-! ### Pop -/

section Pop

variable {s : Sched} {q : Nat → List Nat}

theorem runqPop_linksOnly (s : Sched) : LinksOnly s (runqPop s).2 := by
  simp only [runqPop]
  split
  · exact LinksOnly.refl s
  rename_i pri _
  split
  · exact LinksOnly.refl s
  rename_i i _
  split
  · have hends : LinksOnly s { s with
        runqHead := Function.update s.runqHead pri (s.processes i).rqNext
        runqTail := Function.update s.runqTail pri none } := ⟨fun _ => rfl, rfl, rfl, rfl⟩
    exact hends.trans (LinksOnly.set rfl)
  · rename_i j _
    have hhead : LinksOnly s { s with runqHead := Function.update s.runqHead pri (s.processes i).rqNext } :=
      ⟨fun _ => rfl, rfl, rfl, rfl⟩
    have hset : ∀ s₁ : Sched, LinksOnly s₁ (s₁.set j { s₁.processes j with prevQueue := none }) := fun s₁ => LinksOnly.set rfl
    exact (hhead.trans (hset _)).trans (LinksOnly.set rfl)

/-- The links and the ends of the queues after a pop. -/
theorem runqPop_links {pri i : Nat} (hbest : runqBestPriority s = some pri) (hhead : s.runqHead pri = some i) :
    (runqPop s).1 = some i ∧ (runqPop s).2.nextOf = Function.update s.nextOf i none ∧
      (runqPop s).2.runqHead = Function.update s.runqHead pri (s.nextOf i) ∧
      (runqPop s).2.runqTail = if s.nextOf i = none then Function.update s.runqTail pri none else s.runqTail := by
  have hfind : (List.range processPriorityLevels).find? (fun pri => (s.runqHead pri).isSome) = some pri := hbest
  simp only [runqPop, hfind, hhead]
  cases hnext : (s.processes i).rqNext with
  | none =>
      have hnone : s.nextOf i = none := hnext
      rw [if_pos hnone, hnone]
      exact ⟨rfl, nextOf_set _ _ _, rfl, rfl⟩
  | some j =>
      have hsome : s.nextOf i = some j := hnext
      have hsame : Function.update s.nextOf j (s.processes j).rqNext = s.nextOf := Function.update_eq_self j _
      rw [if_neg (by rw [hsome]; exact Option.some_ne_none j), hsome]
      refine ⟨rfl, ?_, rfl, rfl⟩
      simp only [nextOf_set]
      exact congrArg (fun f => Function.update f i none) hsame

/-- Popping takes the first process of the first queue that has one. -/
theorem runqPop_runQueues (h : RunQueues s q) :
    ((∀ pri < processPriorityLevels, q pri = []) ∧ runqPop s = (none, s)) ∨
      ∃ pri < processPriorityLevels, ∃ i rest, q pri = i :: rest ∧ (∀ p < pri, q p = []) ∧ runqBestPriority s = some pri ∧ s.runqHead pri = some i ∧
        RunQueues (runqPop s).2 (Function.update q pri rest) := by
  have hempty : ∀ p < processPriorityLevels, s.runqHead p = none → q p = [] := by
    intro p hp hnone
    rw [(h.list p hp).head_eq] at hnone
    exact List.head?_eq_none_iff.mp hnone
  cases hbest : runqBestPriority s with
  | none =>
      left
      have hfind : (List.range processPriorityLevels).find? (fun pri => (s.runqHead pri).isSome) = none := hbest
      refine ⟨fun pri hpri => hempty pri hpri ?_, by simp only [runqPop, hfind]⟩
      exact Option.not_isSome_iff_eq_none.mp (List.find?_eq_none.mp hfind pri (List.mem_range.mpr hpri))
  | some pri =>
      right
      obtain ⟨hsome, hpri, hbelow⟩ := List.find?_range_eq_some.mp hbest
      have hpri : pri < processPriorityLevels := List.mem_range.mp hpri
      have hlist := h.list pri hpri
      have htail := h.tail pri hpri
      have hmem := h.slots pri hpri
      have hapart := h.apart pri hpri
      cases hq : q pri with
      | nil => simp [isList_nil.mp (hq ▸ hlist)] at hsome
      | cons i rest =>
          rw [hq] at hlist htail hmem hapart
          have hnodup := List.nodup_cons.mp hlist.nodup
          obtain ⟨hhead, hrest⟩ := isList_cons.mp hlist
          obtain ⟨-, hnext, hheads, htails⟩ := runqPop_links hbest hhead
          refine ⟨pri, hpri, i, rest, hq, fun p hp => hempty p (hp.trans hpri) (by simpa using hbelow p hp), rfl, hhead, ?_⟩
          refine h.replace ?_ ?_ (fun p hp => ?_) (fun p hp => ?_) (fun p hp hne j hj => ?_) fun j hj =>
            ⟨hmem j (List.mem_cons_of_mem i hj), fun p hp hne => hapart p hp hne j (List.mem_cons_of_mem i hj)⟩
          · rw [hnext, hheads, Function.update_self]
            refine hrest.congr fun x hx => ?_
            have hxi : x ≠ i := fun heq => hnodup.1 (heq ▸ hx)
            exact Function.update_of_ne hxi _ _
          · rw [htails, hrest.head_eq]
            cases rest with
            | nil => rw [List.head?_nil, if_pos rfl, Function.update_self, List.getLast?_nil]
            | cons x rest => rw [List.head?_cons, if_neg (Option.some_ne_none x), htail, List.getLast?_cons_cons]
          · rw [hheads, Function.update_of_ne hp]
          · rw [htails]
            split
            · rw [Function.update_of_ne hp]
            · rfl
          · have hji : j ≠ i := fun heq => hapart p hp hne i List.mem_cons_self (heq ▸ hj)
            rw [hnext, Function.update_of_ne hji]

theorem runqPop_queued (h : Queued s q) :
    ((∀ pri < processPriorityLevels, q pri = []) ∧ (runqPop s).1 = none ∧ (runqPop s).2 = s) ∨
      ∃ pri < processPriorityLevels, ∃ i rest, q pri = i :: rest ∧ (∀ p < pri, q p = []) ∧ (runqPop s).1 = some i ∧
        Queued (runqPop s).2 (Function.update q pri rest) := by
  rcases runqPop_runQueues h.runQueues with ⟨hempty, hpop⟩ | ⟨pri, hpri, i, rest, hq, hbelow, hbest, hhead, hqueues⟩
  · left
    rw [hpop]
    exact ⟨hempty, rfl, rfl⟩
  · right
    refine ⟨pri, hpri, i, rest, hq, hbelow, (runqPop_links hbest hhead).1, h.of_runQueues hqueues (runqPop_linksOnly s) fun j hj => ?_⟩
    exact (h.home pri hpri j (hq ▸ List.mem_cons_of_mem i hj)).2

end Pop

/-! ### Remove -/

section Remove

variable {s : Sched} {q : Nat → List Nat} {pri i : Nat} {prev : Option Nat}

theorem runqUnlink_linksOnly (s : Sched) (pri : Nat) (prev : Option Nat) (cur : Nat) :
    LinksOnly s (runqUnlink s pri prev cur) := by
  unfold runqUnlink
  extract_lets next s₁ s₂ s₃ s₄
  have h₁ : LinksOnly s s₁ := by
    simp only [s₁]
    split
    · exact LinksOnly.set rfl
    · exact ⟨fun _ => rfl, rfl, rfl, rfl⟩
  have h₂ : LinksOnly s s₂ := by
    simp only [s₂]
    split
    · exact ⟨h₁.core, h₁.current, h₁.idle, h₁.nextPid⟩
    · exact h₁
  have h₃ : LinksOnly s s₃ := by
    simp only [s₃, next]
    split
    · exact h₂.trans (LinksOnly.set rfl)
    · exact h₂
  have h₄ : LinksOnly s s₄ := by
    simp only [s₄]
    split
    · exact h₃.trans (LinksOnly.set rfl)
    · exact h₃
  exact h₄.trans (LinksOnly.set rfl)

/-- The links and the ends of the queues after the unlinking. -/
theorem runqUnlink_links (s : Sched) (pri : Nat) (prev : Option Nat) (cur : Nat) :
    (runqUnlink s pri prev cur).nextOf =
        Function.update (prev.elim s.nextOf fun y => Function.update s.nextOf y (s.nextOf cur)) cur none ∧
      (runqUnlink s pri prev cur).runqHead = prev.elim (Function.update s.runqHead pri (s.nextOf cur)) (fun _ => s.runqHead) ∧
      (runqUnlink s pri prev cur).runqTail =
        if s.runqTail pri = some cur then Function.update s.runqTail pri prev else s.runqTail := by
  have hset : ∀ (s₁ : Sched) (j : Nat) (p : Process), p.rqNext = (s₁.processes j).rqNext → (s₁.set j p).nextOf = s₁.nextOf := by
    intro s₁ j p hp
    rw [nextOf_set, hp]
    exact Function.update_eq_self j _
  unfold runqUnlink
  extract_lets next s₁ s₂ s₃ s₄
  have h₁ : s₁.nextOf = prev.elim s.nextOf (fun y => Function.update s.nextOf y (s.nextOf cur)) ∧
      s₁.runqHead = prev.elim (Function.update s.runqHead pri (s.nextOf cur)) (fun _ => s.runqHead) ∧ s₁.runqTail = s.runqTail := by
    cases prev with
    | none => exact ⟨rfl, rfl, rfl⟩
    | some y => exact ⟨nextOf_set s y _, rfl, rfl⟩
  have h₂ : s₂.nextOf = s₁.nextOf ∧ s₂.runqHead = s₁.runqHead ∧
      s₂.runqTail = if s.runqTail pri = some cur then Function.update s.runqTail pri prev else s.runqTail := by
    have htail : s₁.runqTail = s.runqTail := h₁.2.2
    simp only [s₂]
    split
    · rename_i hlast
      rw [htail] at hlast
      exact ⟨rfl, rfl, by rw [if_pos hlast, htail]⟩
    · rename_i hlast
      rw [htail] at hlast
      exact ⟨rfl, rfl, by rw [if_neg hlast, htail]⟩
  have h₃ : s₃.nextOf = s₂.nextOf ∧ s₃.runqHead = s₂.runqHead ∧ s₃.runqTail = s₂.runqTail := by
    simp only [s₃, next]
    split
    · exact ⟨hset _ _ _ rfl, rfl, rfl⟩
    · exact ⟨rfl, rfl, rfl⟩
  have h₄ : s₄.nextOf = s₃.nextOf ∧ s₄.runqHead = s₃.runqHead ∧ s₄.runqTail = s₃.runqTail := by
    simp only [s₄]
    split
    · exact ⟨hset _ _ _ rfl, rfl, rfl⟩
    · exact ⟨rfl, rfl, rfl⟩
  refine ⟨?_, ?_, ?_⟩
  · rw [nextOf_set, h₄.1, h₃.1, h₂.1, h₁.1]
  · rw [set_runqHead, h₄.2.1, h₃.2.1, h₂.2.1, h₁.2.1]
  · rw [set_runqTail, h₄.2.2, h₃.2.2, h₂.2.2]

/-- Unlinking a process takes it out of the queue it is in. -/
theorem runqUnlink_runQueues (h : RunQueues s q) (hpri : pri < processPriorityLevels) {before after : List Nat}
    (hq : q pri = before ++ i :: after) : RunQueues (runqUnlink s pri before.getLast? i) (Function.update q pri (before ++ after)) := by
  obtain ⟨hnext, hheads, htails⟩ := runqUnlink_links s pri before.getLast? i
  have hlist := h.list pri hpri
  have htail := h.tail pri hpri
  have hslots := h.slots pri hpri
  have hapart := h.apart pri hpri
  rw [hq] at hlist htail hslots hapart
  have hi : i ∉ before ++ after := (List.nodup_middle.mp hlist.nodup).notMem
  have hkeep : ∀ j ∈ before ++ after, j ∈ before ++ i :: after := by
    intro j hj
    simp only [List.mem_append, List.mem_cons] at hj ⊢
    exact hj.imp_right Or.inr
  refine h.replace ?_ ?_ (fun p hp => ?_) (fun p hp => ?_) (fun p hp hne j hj => ?_) fun j hj =>
    ⟨hslots j (hkeep j hj), fun p hp hne => hapart p hp hne j (hkeep j hj)⟩
  · rw [hnext, hheads]
    have hlinked : IsList (before.getLast?.elim s.nextOf fun y => Function.update s.nextOf y (s.nextOf i))
        (before.getLast?.elim (Function.update s.runqHead pri (s.nextOf i)) (fun _ => s.runqHead) pri) (before ++ after) := by
      rcases List.eq_nil_or_concat' before with rfl | ⟨before, y, rfl⟩
      · simpa using (isList_cons.mp hlist).2
      · simpa using hlist.remove
    refine hlinked.congr fun x hx => ?_
    have hxi : x ≠ i := fun heq => hi (heq ▸ hx)
    exact Function.update_of_ne hxi _ _
  · rw [htails, htail]
    cases after with
    | nil => simp
    | cons z after =>
        have hlast : (before ++ i :: z :: after).getLast? = (before ++ z :: after).getLast? := by simp
        rw [hlast, if_neg, htail, hlast]
        intro heq
        exact hi (List.mem_of_getLast? heq)
  · rw [hheads]
    cases before.getLast? with
    | none => exact Function.update_of_ne hp _ _
    | some y => rfl
  · rw [htails]
    split
    · exact Function.update_of_ne hp _ _
    · rfl
  · have hji : j ≠ i := fun heq => hapart p hp hne i (by simp) (heq ▸ hj)
    rw [hnext, Function.update_of_ne hji]
    cases hlast : before.getLast? with
    | none => rfl
    | some y =>
        refine Function.update_of_ne (fun heq => ?_) _ _
        exact hapart p hp hne y (List.mem_append_left _ (List.mem_of_getLast? hlast)) (heq ▸ hj)

/-- The loop ends at the process, or at the end of a queue without it. -/
theorem runqRemoveLoop_eq (before : List Nat) {next : Option Nat} {after : List Nat} (hlist : IsList s.nextOf next after) {fuel : Nat}
    (hfuel : after.length < fuel) :
    runqRemoveLoop s pri i fuel before.getLast? next =
      if i ∈ after then runqUnlink s pri (before ++ after.takeWhile (· ≠ i)).getLast? i else s := by
  induction after generalizing next before fuel with
  | nil =>
      obtain ⟨fuel, rfl⟩ : ∃ n, fuel = n + 1 := ⟨fuel - 1, by omega⟩
      rw [isList_nil.mp hlist]
      rfl
  | cons x after ih =>
      obtain ⟨fuel, rfl⟩ : ∃ n, fuel = n + 1 := ⟨fuel - 1, by omega⟩
      obtain ⟨rfl, hrest⟩ := isList_cons.mp hlist
      simp only [runqRemoveLoop]
      by_cases heq : x = i
      · simp [heq]
      · have hstep := ih (before ++ [x]) hrest (show after.length < fuel by simpa using hfuel)
        rw [List.getLast?_concat] at hstep
        rw [if_neg heq, show (s.processes x).rqNext = s.nextOf x from rfl, hstep]
        simp [heq, Ne.symm heq]

theorem runqRemove_linksOnly (s : Sched) (i : Nat) : LinksOnly s (runqRemove s i) := by
  have hloop : ∀ fuel prev cur, LinksOnly s (runqRemoveLoop s (clampPriority (s.processes i).priority) i fuel prev cur) := by
    intro fuel
    induction fuel with
    | zero => exact fun _ _ => LinksOnly.refl s
    | succ fuel ih =>
        intro prev cur
        cases cur with
        | none => exact LinksOnly.refl s
        | some x =>
            rw [runqRemoveLoop]
            split
            · exact runqUnlink_linksOnly s _ _ _
            · exact ih _ _
  exact hloop _ _ _

/-- Removing finds the process in the queue of its priority and unlinks it there. -/
theorem runqRemove_cases (h : RunQueues s q) (i : Nat) :
    (i ∉ q (clampPriority (s.processes i).priority) ∧ runqRemove s i = s) ∨
      ∃ before after, q (clampPriority (s.processes i).priority) = before ++ i :: after ∧
        (q (clampPriority (s.processes i).priority)).erase i = before ++ after ∧
        runqRemove s i = runqUnlink s (clampPriority (s.processes i).priority) before.getLast? i := by
  have hpri := clampPriority_lt (s.processes i).priority
  have hloop := @runqRemoveLoop_eq s (clampPriority (s.processes i).priority) i [] _ _ (h.list _ hpri) _
    (Nat.lt_succ_of_le (h.length_le hpri))
  rw [List.getLast?_nil] at hloop
  rw [runqRemove, hloop]
  by_cases hmem : i ∈ q (clampPriority (s.processes i).priority)
  · right
    obtain ⟨before, after, hbefore, hq, herase⟩ := List.exists_erase_eq hmem
    have htake : (q (clampPriority (s.processes i).priority)).takeWhile (· ≠ i) = before := by
      rw [hq, List.takeWhile_append_of_pos (fun x hx => by simpa using fun heq : x = i => hbefore (heq ▸ hx))]
      simp
    exact ⟨before, after, hq, herase, by rw [if_pos hmem, List.nil_append, htake]⟩
  · left
    exact ⟨hmem, if_neg hmem⟩

/-- Removing a process takes it out of the queue of its priority. -/
theorem runqRemove_runQueues (h : RunQueues s q) (i : Nat) :
    RunQueues (runqRemove s i)
      (Function.update q (clampPriority (s.processes i).priority) ((q (clampPriority (s.processes i).priority)).erase i)) := by
  rcases runqRemove_cases h i with ⟨hmem, hremove⟩ | ⟨before, after, hq, herase, hremove⟩
  · rw [hremove, List.erase_of_not_mem hmem, Function.update_eq_self]
    exact h
  · rw [hremove, herase]
    exact runqUnlink_runQueues h (clampPriority_lt _) hq

theorem runqRemove_queued (h : Queued s q) (hpri : (s.processes i).priority < processPriorityLevels) :
    Queued (runqRemove s i) (Function.update q (s.processes i).priority ((q (s.processes i).priority).erase i)) := by
  have hqueues := runqRemove_runQueues h.runQueues i
  rw [clampPriority_of_lt hpri] at hqueues
  exact h.of_runQueues hqueues (runqRemove_linksOnly s i) fun j hj => (h.home _ hpri j (List.mem_of_mem_erase hj)).2

end Remove

end Tsukasa
