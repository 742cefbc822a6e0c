import Tsukasa.Proc.RunQueue
import Tsukasa.Lib.DoublyLinked
import Tsukasa.Lib.Fifo

/-!
# The run queues as first-in first-out queues

What the three queue operations do to queues of any length, whatever the priorities of the processes in them have become. Beside `rq_next` a process has the links `next_queue` and `prev_queue`, which no operation reads. They follow `rq_next` in both directions when they have done so before.
-/

namespace Tsukasa

open Lib.Linked

/-! ### The links that no operation reads -/

def Sched.prevOf (s : Sched) (i : Nat) : Option Nat := (s.processes i).prevQueue

def Sched.nextQueueOf (s : Sched) (i : Nat) : Option Nat := (s.processes i).nextQueue

/-- In a queue `next_queue` is `rq_next`, and `prev_queue` leads back from its tail. -/
structure LinksMatch (s : Sched) (q : Nat → List Nat) : Prop where
  next : ∀ pri < processPriorityLevels, ∀ i ∈ q pri, s.nextQueueOf i = s.nextOf i
  prev : ∀ pri < processPriorityLevels, IsList s.prevOf (s.runqTail pri) (q pri).reverse

@[simp] theorem prevOf_set (s : Sched) (i : Nat) (p : Process) : (s.set i p).prevOf = Function.update s.prevOf i p.prevQueue := by
  funext j
  simp only [Sched.prevOf, Sched.set, Function.update_apply]
  split <;> rfl

@[simp] theorem nextQueueOf_set (s : Sched) (i : Nat) (p : Process) : (s.set i p).nextQueueOf = Function.update s.nextQueueOf i p.nextQueue := by
  funext j
  simp only [Sched.nextQueueOf, Sched.set, Function.update_apply]
  split <;> rfl

namespace LinksMatch

variable {s s' : Sched} {q : Nat → List Nat} {pri : Nat}

theorem dlist (h : LinksMatch s q) (hqueues : RunQueues s q) (hpri : pri < processPriorityLevels) :
    IsDList s.nextOf s.prevOf (s.runqHead pri) (s.runqTail pri) (q pri) :=
  ⟨hqueues.list pri hpri, h.prev pri hpri⟩

/-- One queue is replaced, and the links of all others are as they were. -/
theorem replace (h : LinksMatch s q) {l : List Nat} (hprev : IsList s'.prevOf (s'.runqTail pri) l.reverse) (hnext : ∀ i ∈ l, s'.nextQueueOf i = s'.nextOf i)
    (htails : ∀ p ≠ pri, s'.runqTail p = s.runqTail p)
    (hothers : ∀ p < processPriorityLevels, p ≠ pri → ∀ j ∈ q p, s'.prevOf j = s.prevOf j ∧ s'.nextOf j = s.nextOf j ∧ s'.nextQueueOf j = s.nextQueueOf j) :
    LinksMatch s' (Function.update q pri l) := by
  constructor
  · intro p hp j hj
    by_cases heq : p = pri
    · rw [heq, Function.update_self] at hj
      exact hnext j hj
    · rw [Function.update_of_ne heq] at hj
      obtain ⟨-, hsame, hsame'⟩ := hothers p hp heq j hj
      rw [hsame, hsame', h.next p hp j hj]
  · intro p hp
    by_cases heq : p = pri
    · rw [heq, Function.update_self]
      exact hprev
    · rw [Function.update_of_ne heq, htails p heq]
      exact (h.prev p hp).congr fun j hj => (hothers p hp heq j (List.mem_reverse.mp hj)).1

end LinksMatch

variable {s s' : Sched} {q : Nat → List Nat} {pri i t : Nat} {prev : Option Nat}

/-! ### Push -/

/-- What a push does to the links. -/
theorem runqPush_allLinks (h : RunQueues s q) (i : Nat) :
    (runqPush s i).prevOf = Function.update s.prevOf i (s.runqTail (clampPriority (s.processes i).priority)) ∧
      (runqPush s i).nextOf = (s.runqTail (clampPriority (s.processes i).priority)).elim (Function.update s.nextOf i none)
        (fun t => Function.update (Function.update s.nextOf i none) t (some i)) ∧
      (runqPush s i).nextQueueOf = (s.runqTail (clampPriority (s.processes i).priority)).elim (Function.update s.nextQueueOf i none)
        (fun t => Function.update (Function.update s.nextQueueOf i none) t (some i)) ∧
      (runqPush s i).runqTail = Function.update s.runqTail (clampPriority (s.processes i).priority) (some i) := by
  rcases h.ends (clampPriority_lt (s.processes i).priority) with ⟨-, hhead, htail⟩ | ⟨l, t, head, -, hhead, htail⟩
  · rw [runqPush_of_empty hhead, htail]
    exact ⟨prevOf_set s i _, nextOf_set s i _, nextQueueOf_set s i _, rfl⟩
  · rw [runqPush_of_tail hhead htail, htail]
    refine ⟨?_, ?_, ?_, rfl⟩
    · change (Sched.set _ t _).prevOf = _
      rw [prevOf_set, prevOf_set]
      have hsame : ∀ s₁ : Sched, Function.update s₁.prevOf t (s₁.processes t).prevQueue = s₁.prevOf := fun s₁ => Function.update_eq_self t _
      rw [← prevOf_set s i { s.processes i with rqNext := none, nextQueue := none, prevQueue := some t }]
      exact hsame _
    · change (Sched.set _ t _).nextOf = _
      rw [nextOf_set, nextOf_set]
      rfl
    · change (Sched.set _ t _).nextQueueOf = _
      rw [nextQueueOf_set, nextQueueOf_set]
      rfl

theorem runqPush_linksMatch (h : RunQueues s q) (hm : LinksMatch s q) (hnew : ∀ pri < processPriorityLevels, i ∉ q pri) :
    LinksMatch (runqPush s i) (Lib.Fifo.push q (clampPriority (s.processes i).priority) i) := by
  have hpri := clampPriority_lt (s.processes i).priority
  obtain ⟨hprev, hnext, hnextQueue, htail⟩ := runqPush_allLinks h i
  have hne : ∀ p < processPriorityLevels, ∀ j ∈ q p, j ≠ i := fun p hp j hj heq => hnew p hp (heq ▸ hj)
  have hlast : ∀ p < processPriorityLevels, p ≠ clampPriority (s.processes i).priority → ∀ j ∈ q p,
      s.runqTail (clampPriority (s.processes i).priority) ≠ some j := by
    intro p hp hpne j hj heq
    rw [h.tail _ hpri] at heq
    exact h.apart p hp _ hpri hpne.symm j hj (List.mem_of_getLast? heq)
  -- both links to the next process change alike
  have hboth : ∀ j, (j ≠ i → s.nextQueueOf j = s.nextOf j) → (runqPush s i).nextQueueOf j = (runqPush s i).nextOf j := by
    intro j hj
    rw [hnextQueue, hnext]
    by_cases heq : j = i
    · cases s.runqTail (clampPriority (s.processes i).priority) with
      | none => simp [heq]
      | some t => simp [heq, Function.update_apply]
    · cases s.runqTail (clampPriority (s.processes i).priority) with
      | none => simp [heq, hj heq]
      | some t => simp [heq, hj heq, Function.update_apply]
  apply hm.replace
  · rw [hprev, htail, Function.update_self, List.reverse_append, List.reverse_singleton, List.singleton_append, isList_cons, Function.update_self]
    refine ⟨rfl, (hm.prev _ hpri).congr fun j hj => ?_⟩
    exact Function.update_of_ne (hne _ hpri j (List.mem_reverse.mp hj)) _ _
  · intro j hj
    cases List.mem_append.mp hj with
    | inl hold => exact hboth j fun _ => hm.next _ hpri j hold
    | inr hji => exact hboth j fun hne => absurd (List.mem_singleton.mp hji) hne
  · intro p hp
    rw [htail, Function.update_of_ne hp]
  · intro p hp hpne j hj
    have hji := hne p hp j hj
    have hjt := hlast p hp hpne j hj
    rw [hprev, hnext, hnextQueue, Function.update_of_ne hji]
    cases hcase : s.runqTail (clampPriority (s.processes i).priority) with
    | none => exact ⟨rfl, Function.update_of_ne hji _ _, Function.update_of_ne hji _ _⟩
    | some t =>
        have hjt' : j ≠ t := fun heq => hjt (by rw [hcase, heq])
        refine ⟨rfl, ?_, ?_⟩
        · exact (Function.update_of_ne hjt' _ _).trans (Function.update_of_ne hji _ _)
        · exact (Function.update_of_ne hjt' _ _).trans (Function.update_of_ne hji _ _)

/-! ### Unlinking -/

/-- A process is unlinked from its queue: the links of its neighbours are set past it. -/
theorem unlinked_linksMatch (h : RunQueues s q) (hm : LinksMatch s q) (hpri : pri < processPriorityLevels) {before after : List Nat}
    (hq : q pri = before ++ i :: after) (htails : ∀ p ≠ pri, s'.runqTail p = s.runqTail p) (htail : s'.runqTail pri = (before ++ after).getLast?)
    (hprev : ∀ j ≠ i, s'.prevOf j = if s.nextOf i = some j then before.getLast? else s.prevOf j)
    (hnext : ∀ j ≠ i, s'.nextOf j = if before.getLast? = some j then s.nextOf i else s.nextOf j)
    (hnextQueue : ∀ j ≠ i, s'.nextQueueOf j = if before.getLast? = some j then s.nextOf i else s.nextQueueOf j) :
    LinksMatch s' (Function.update q pri (before ++ after)) := by
  have hdlist := hm.dlist h hpri
  rw [hq] at hdlist
  have hi : i ∉ before ++ after := (List.nodup_middle.mp hdlist.nodup).notMem
  have hmem : ∀ j ∈ before ++ after, j ∈ q pri := by
    intro j hj
    rw [hq]
    simp only [List.mem_append, List.mem_cons] at hj ⊢
    exact hj.imp_right Or.inr
  apply hm.replace
  · have herase : IsDList s'.nextOf s'.prevOf _ _ (before ++ after) := hdlist.erase
      (fun j hj => by rw [hdlist.prev_eq, hnext j fun heq => hi (heq ▸ hj)])
      (fun j hj => by rw [hdlist.prev_eq, hprev j fun heq => hi (heq ▸ hj)])
    rw [htail, ← herase.tail_eq]
    exact herase.backward
  · intro j hj
    have hji : j ≠ i := fun heq => hi (heq ▸ hj)
    rw [hnext j hji, hnextQueue j hji, hm.next pri hpri j (hmem j hj)]
  · exact htails
  · intro p hp hpne j hj
    have hout := h.apart p hp pri hpri hpne.symm j hj
    have hji : j ≠ i := by
      intro heq
      exact hout (by rw [hq, heq]; simp)
    have hbefore : before.getLast? ≠ some j := by
      intro heq
      exact hout (hq ▸ List.mem_append_left _ (List.mem_of_getLast? heq))
    have hafter : s.nextOf i ≠ some j := by
      intro heq
      rw [hdlist.next_eq] at heq
      exact hout (hq ▸ List.mem_append_right _ (List.mem_cons_of_mem i (List.mem_of_head? heq)))
    rw [hprev j hji, hnext j hji, hnextQueue j hji, if_neg hafter, if_neg hbefore, if_neg hbefore]
    exact ⟨rfl, rfl, rfl⟩

/-- What a pop does to the links that it does not read. -/
theorem runqPop_otherLinks (hbest : runqBestPriority s = some pri) (hhead : s.runqHead pri = some i) {j : Nat} (hj : j ≠ i) :
    (runqPop s).2.prevOf j = (if s.nextOf i = some j then none else s.prevOf j) ∧ (runqPop s).2.nextQueueOf j = s.nextQueueOf j := by
  have hfind : (List.range processPriorityLevels).find? (fun pri => (s.runqHead pri).isSome) = some pri := hbest
  simp only [runqPop, hfind, hhead]
  cases hnext : (s.processes i).rqNext with
  | none =>
      have hnone : s.nextOf i = none := hnext
      rw [hnone, if_neg (Option.some_ne_none j).symm]
      dsimp only
      rw [prevOf_set, nextQueueOf_set, Function.update_of_ne hj, Function.update_of_ne hj]
      exact ⟨rfl, rfl⟩
  | some k =>
      have hsome : s.nextOf i = some k := hnext
      have hsame : ∀ s₁ : Sched, Function.update s₁.nextQueueOf k (s₁.processes k).nextQueue = s₁.nextQueueOf := fun s₁ => Function.update_eq_self k _
      rw [hsome]
      dsimp only
      rw [prevOf_set, nextQueueOf_set, Function.update_of_ne hj, Function.update_of_ne hj, prevOf_set, nextQueueOf_set, hsame, Function.update_apply]
      refine ⟨?_, rfl⟩
      by_cases heq : j = k
      · rw [if_pos heq, if_pos (by rw [heq])]
      · rw [if_neg heq, if_neg fun h => heq (Option.some.inj h).symm]
        rfl

theorem runqPop_linksMatch (h : RunQueues s q) (hm : LinksMatch s q) (hpri : pri < processPriorityLevels) {rest : List Nat} (hq : q pri = i :: rest)
    (hbest : runqBestPriority s = some pri) (hhead : s.runqHead pri = some i)
    (hpopped : RunQueues (runqPop s).2 (Function.update q pri rest)) : LinksMatch (runqPop s).2 (Function.update q pri rest) := by
  obtain ⟨-, hnext, -, htails⟩ := runqPop_links hbest hhead
  have hq' : q pri = [] ++ i :: rest := hq
  apply unlinked_linksMatch h hm hpri hq'
  · intro p hp
    rw [htails]
    split
    · exact Function.update_of_ne hp _ _
    · rfl
  · have htail := hpopped.tail pri hpri
    rwa [Function.update_self] at htail
  · intro j hj
    exact (runqPop_otherLinks hbest hhead hj).1
  · intro j hj
    rw [hnext, Function.update_of_ne hj, List.getLast?_nil, if_neg (Option.some_ne_none j).symm]
  · intro j hj
    rw [(runqPop_otherLinks hbest hhead hj).2, List.getLast?_nil, if_neg (Option.some_ne_none j).symm]

/-- What the unlinking does to the links that it does not read. -/
theorem runqUnlink_otherLinks (s : Sched) (pri : Nat) (prev : Option Nat) {cur j : Nat} (hj : j ≠ cur) :
    (runqUnlink s pri prev cur).prevOf j = (if s.nextOf cur = some j then prev else s.prevOf j) ∧
      (runqUnlink s pri prev cur).nextQueueOf j = if prev = some j then s.nextOf cur else s.nextQueueOf j := by
  have hprev : ∀ (s₁ : Sched) (k : Nat) (p : Process), p.prevQueue = (s₁.processes k).prevQueue → (s₁.set k p).prevOf = s₁.prevOf := by
    intro s₁ k p hp
    rw [prevOf_set, hp]
    exact Function.update_eq_self k _
  have hnextQueue : ∀ (s₁ : Sched) (k : Nat) (p : Process), p.nextQueue = (s₁.processes k).nextQueue → (s₁.set k p).nextQueueOf = s₁.nextQueueOf := by
    intro s₁ k p hp
    rw [nextQueueOf_set, hp]
    exact Function.update_eq_self k _
  unfold runqUnlink
  extract_lets next s₁ s₂ s₃ s₄
  have h₁ : s₁.prevOf = s.prevOf ∧ s₁.nextQueueOf = s.nextQueueOf := by
    cases prev with
    | none => exact ⟨rfl, rfl⟩
    | some y => exact ⟨hprev s y _ rfl, hnextQueue s y _ rfl⟩
  have h₂ : s₂.prevOf = s₁.prevOf ∧ s₂.nextQueueOf = s₁.nextQueueOf := by
    simp only [s₂]
    split
    · exact ⟨rfl, rfl⟩
    · exact ⟨rfl, rfl⟩
  have h₃ : s₃.prevOf j = (if s.nextOf cur = some j then prev else s₂.prevOf j) ∧ s₃.nextQueueOf = s₂.nextQueueOf := by
    have hnext : s.nextOf cur = next := rfl
    rw [hnext]
    simp only [s₃]
    cases next with
    | none => exact ⟨(if_neg (Option.some_ne_none j).symm).symm, rfl⟩
    | some k =>
        refine ⟨?_, hnextQueue _ _ _ rfl⟩
        rw [prevOf_set, Function.update_apply]
        simp only [Option.some.injEq, eq_comm]
  have h₄ : s₄.prevOf = s₃.prevOf ∧ s₄.nextQueueOf j = if prev = some j then s.nextOf cur else s₃.nextQueueOf j := by
    have hnext : s.nextOf cur = next := rfl
    rw [hnext]
    simp only [s₄]
    cases prev with
    | none => exact ⟨rfl, (if_neg (Option.some_ne_none j).symm).symm⟩
    | some y =>
        refine ⟨hprev _ _ _ rfl, ?_⟩
        rw [nextQueueOf_set, Function.update_apply]
        simp only [Option.some.injEq, eq_comm]
  rw [prevOf_set, nextQueueOf_set, Function.update_of_ne hj, Function.update_of_ne hj, h₄.1, h₄.2, h₃.1, h₃.2, h₂.1, h₂.2, h₁.1, h₁.2]
  exact ⟨rfl, rfl⟩

theorem runqRemove_linksMatch (h : RunQueues s q) (hm : LinksMatch s q) (i : Nat) :
    LinksMatch (runqRemove s i) (Lib.Fifo.remove q (clampPriority (s.processes i).priority) i) := by
  have hpri := clampPriority_lt (s.processes i).priority
  have hremoved := runqRemove_runQueues h i
  rw [Lib.Fifo.remove]
  rcases runqRemove_cases h i with ⟨hmem, hremove⟩ | ⟨before, after, hq, herase, hremove⟩
  · rw [hremove, List.erase_of_not_mem hmem, Function.update_eq_self]
    exact hm
  · rw [hremove, herase] at hremoved ⊢
    obtain ⟨hnext, -, htails⟩ := runqUnlink_links s (clampPriority (s.processes i).priority) before.getLast? i
    apply unlinked_linksMatch h hm hpri hq
    · intro p hp
      rw [htails]
      split
      · exact Function.update_of_ne hp _ _
      · rfl
    · have htail := hremoved.tail _ hpri
      rwa [Function.update_self] at htail
    · intro j hj
      exact (runqUnlink_otherLinks s _ _ hj).1
    · intro j hj
      rw [hnext, Function.update_of_ne hj]
      cases before.getLast? with
      | none => rfl
      | some y =>
          change Function.update s.nextOf y (s.nextOf i) j = _
          rw [Function.update_apply]
          simp only [Option.some.injEq, eq_comm]
    · intro j hj
      exact (runqUnlink_otherLinks s _ _ hj).2

/-! ### The refinement -/

/-- A step of the queues: the well-formed queues `q` have become the well-formed queues `q'`, nothing but links has changed, and the other links match where they have matched before. -/
structure QueueStep (s : Sched) (q : Nat → List Nat) (s' : Sched) (q' : Nat → List Nat) : Prop where
  queues : RunQueues s' q'
  links : LinksMatch s q → LinksMatch s' q'
  frame : LinksOnly s s'

/-- Runs of the queue operations from empty queues. In between anything may change but the queues' ends and the links of the processes in them. -/
inductive QueueRun : Sched → (Nat → List Nat) → Prop
  | start (s : Sched) (hhead : ∀ pri < processPriorityLevels, s.runqHead pri = none) (htail : ∀ pri < processPriorityLevels, s.runqTail pri = none) :
      QueueRun s fun _ => []
  | push {s : Sched} {q : Nat → List Nat} {i : Nat} (hrun : QueueRun s q) (hi : i < processMaxCount) (hnew : ∀ pri < processPriorityLevels, i ∉ q pri) :
      QueueRun (runqPush s i) (Lib.Fifo.push q (clampPriority (s.processes i).priority) i)
  | pop {s : Sched} {q q' : Nat → List Nat} (hrun : QueueRun s q) (hpops : Lib.Fifo.Pops processPriorityLevels q (runqPop s).1 q') : QueueRun (runqPop s).2 q'
  | remove {s : Sched} {q : Nat → List Nat} (hrun : QueueRun s q) (i : Nat) :
      QueueRun (runqRemove s i) (Lib.Fifo.remove q (clampPriority (s.processes i).priority) i)
  | other {s s' : Sched} {q : Nat → List Nat} (hrun : QueueRun s q) (hhead : s'.runqHead = s.runqHead) (htail : s'.runqTail = s.runqTail)
      (hlinks : ∀ pri < processPriorityLevels, ∀ i ∈ q pri, s'.nextOf i = s.nextOf i ∧ s'.prevOf i = s.prevOf i ∧ s'.nextQueueOf i = s.nextQueueOf i) :
      QueueRun s' q

theorem runqPush_step (h : RunQueues s q) (hi : i < processMaxCount) (hnew : ∀ pri < processPriorityLevels, i ∉ q pri) :
    QueueStep s q (runqPush s i) (Lib.Fifo.push q (clampPriority (s.processes i).priority) i) :=
  ⟨runqPush_runQueues h hi hnew, fun hm => runqPush_linksMatch h hm hnew, runqPush_linksOnly s i⟩

theorem runqRemove_step (h : RunQueues s q) (i : Nat) : QueueStep s q (runqRemove s i) (Lib.Fifo.remove q (clampPriority (s.processes i).priority) i) :=
  ⟨runqRemove_runQueues h i, fun hm => runqRemove_linksMatch h hm i, runqRemove_linksOnly s i⟩

/-- A pop takes out the first process of the best queue, and leaves everything as it is where there is none. -/
theorem runqPop_step (h : RunQueues s q) : ∃ q', Lib.Fifo.Pops processPriorityLevels q (runqPop s).1 q' ∧ QueueStep s q (runqPop s).2 q' ∧
    ((runqPop s).1 = none → (runqPop s).2 = s) := by
  rcases runqPop_runQueues h with ⟨hempty, hpop⟩ | ⟨pri, hpri, i, rest, hq, hbelow, hbest, hhead, hqueues⟩
  · rw [hpop]
    exact ⟨q, Or.inl ⟨hempty, rfl, rfl⟩, ⟨h, id, LinksOnly.refl s⟩, fun _ => rfl⟩
  · have hsome := (runqPop_links hbest hhead).1
    refine ⟨Function.update q pri rest, Or.inr ⟨pri, hpri, i, rest, hq, hbelow, hsome, rfl⟩, ⟨hqueues, ?_, runqPop_linksOnly s⟩, ?_⟩
    · exact fun hm => runqPop_linksMatch h hm hpri hq hbest hhead hqueues
    · intro hnone
      rw [hsome] at hnone
      exact absurd hnone (Option.some_ne_none i)

theorem QueueRun.wellFormed (h : QueueRun s q) : RunQueues s q ∧ LinksMatch s q := by
  induction h with
  | start s hhead htail =>
      refine ⟨⟨?_, ?_, ?_, ?_⟩, ?_, ?_⟩
      · exact fun pri hpri => isList_nil.mpr (hhead pri hpri)
      · exact fun pri hpri => htail pri hpri
      · exact fun pri _ i hi => absurd hi List.not_mem_nil
      · exact fun pri _ other _ _ i hi => absurd hi List.not_mem_nil
      · exact fun pri _ i hi => absurd hi List.not_mem_nil
      · exact fun pri hpri => isList_nil.mpr (htail pri hpri)
  | push hrun hi hnew ih =>
      have hstep := runqPush_step ih.1 hi hnew
      exact ⟨hstep.queues, hstep.links ih.2⟩
  | pop hrun hpops ih =>
      obtain ⟨q', hpops', hstep, -⟩ := runqPop_step ih.1
      rw [hpops.unique hpops']
      exact ⟨hstep.queues, hstep.links ih.2⟩
  | remove hrun i ih =>
      have hstep := runqRemove_step ih.1 i
      exact ⟨hstep.queues, hstep.links ih.2⟩
  | other hrun hhead htail hlinks ih =>
      obtain ⟨hqueues, hmatch⟩ := ih
      refine ⟨⟨?_, ?_, hqueues.slots, hqueues.apart⟩, ?_, ?_⟩
      · intro pri hpri
        rw [hhead]
        exact (hqueues.list pri hpri).congr fun i hi => (hlinks pri hpri i hi).1
      · intro pri hpri
        rw [htail, hqueues.tail pri hpri]
      · intro pri hpri i hi
        obtain ⟨hnext, -, hnextQueue⟩ := hlinks pri hpri i hi
        rw [hnext, hnextQueue, hmatch.next pri hpri i hi]
      · intro pri hpri
        rw [htail]
        exact (hmatch.prev pri hpri).congr fun i hi => (hlinks pri hpri i (List.mem_reverse.mp hi)).2.1

/-- The queue operations refine first-in first-out queues, one for each priority, from all well-formed queues. The links that they do not read match in every run, and an operation keeps them so. -/
theorem runq_refines_fifo :
    (∀ s q, RunQueues s q →
      (∀ i < processMaxCount, (∀ pri < processPriorityLevels, i ∉ q pri) →
        QueueStep s q (runqPush s i) (Lib.Fifo.push q (clampPriority (s.processes i).priority) i)) ∧
      (∃ q', Lib.Fifo.Pops processPriorityLevels q (runqPop s).1 q' ∧ QueueStep s q (runqPop s).2 q' ∧ ((runqPop s).1 = none → (runqPop s).2 = s)) ∧
      ∀ i, QueueStep s q (runqRemove s i) (Lib.Fifo.remove q (clampPriority (s.processes i).priority) i) ∧
        (i ∉ q (clampPriority (s.processes i).priority) → runqRemove s i = s)) ∧
    ∀ s q, QueueRun s q → RunQueues s q ∧ LinksMatch s q := by
  refine ⟨?_, fun s q h => h.wellFormed⟩
  intro s q h
  refine ⟨fun i hi hnew => runqPush_step h hi hnew, runqPop_step h, fun i => ⟨runqRemove_step h i, fun hout => ?_⟩⟩
  rcases runqRemove_cases h i with ⟨-, hsame⟩ | ⟨before, after, hq, -, -⟩
  · exact hsame
  · exact absurd (by rw [hq]; simp) hout

/-- Two processes, each alone in its queue. `link` is a link of the second one. -/
def twoQueues (link : Option Nat) : Sched where
  processes i := { Process.zeroed with priority := i, nextQueue := if i = 1 then link else none }
  current := none
  idle := none
  runqHead pri := if pri ≤ 1 then some pri else none
  runqTail pri := if pri ≤ 1 then some pri else none
  nextPid := 1

def twoLists (pri : Nat) : List Nat := if pri ≤ 1 then [pri] else []

theorem twoQueues_wellFormed (link : Option Nat) : RunQueues (twoQueues link) twoLists := by
  refine ⟨?_, ?_, ?_, ?_⟩
  · intro pri _
    rw [twoQueues, twoLists]
    dsimp only
    split
    · exact isList_cons.mpr ⟨rfl, isList_nil.mpr rfl⟩
    · exact isList_nil.mpr rfl
  · intro pri _
    rw [twoQueues, twoLists]
    dsimp only
    split <;> rfl
  · intro pri hpri i hi
    rw [twoLists] at hi
    split at hi
    · rw [List.mem_singleton.mp hi]
      exact hpri
    · exact absurd hi List.not_mem_nil
  · intro pri _ other _ hne i hi hi'
    rw [twoLists] at hi hi'
    split at hi
    · split at hi'
      · exact hne ((List.mem_singleton.mp hi').symm.trans (List.mem_singleton.mp hi))
      · exact absurd hi' List.not_mem_nil
    · exact absurd hi List.not_mem_nil

theorem runq_refines_fifo_two : QueueStep (twoQueues none) twoLists (runqPush (twoQueues none) 7) (Lib.Fifo.push twoLists 7 7) := by
  apply (runq_refines_fifo.1 (twoQueues none) twoLists (twoQueues_wellFormed none)).1 7 (by decide)
  intro pri _
  rw [twoLists]
  split
  · rw [List.mem_singleton]
    omega
  · exact List.not_mem_nil

/-- A link that is not read and does not match stays so through a pop. -/
theorem twoQueues_stale : RunQueues (twoQueues (some 5)) twoLists ∧ (runqPop (twoQueues (some 5))).1 = some 0 ∧
    RunQueues (runqPop (twoQueues (some 5))).2 (Function.update twoLists 0 []) ∧ 1 ∈ Function.update twoLists 0 [] 1 ∧
      (runqPop (twoQueues (some 5))).2.nextQueueOf 1 ≠ (runqPop (twoQueues (some 5))).2.nextOf 1 := by
  refine ⟨twoQueues_wellFormed _, rfl, ?_, by decide, by decide⟩
  rcases runqPop_runQueues (twoQueues_wellFormed (some 5)) with ⟨hempty, -⟩ | ⟨pri, -, i, rest, hq, hbelow, -, -, hqueues⟩
  · exact absurd (hempty 0 (by decide)) (by decide)
  · have hzero : pri = 0 := by
      by_contra hne
      exact absurd (hbelow 0 (by omega)) (by decide)
    rw [hzero] at hq hqueues
    have hrest : rest = [] := (List.cons.inj hq).2.symm
    rwa [hrest] at hqueues

end Tsukasa
