import Tsukasa.Lib.Ring
import Tsukasa.Lib.Run
import Mathlib.Data.List.Induction

/-!
# The circular event buffer

The buffer behind both event queues, the one of the kernel in `input/event.c` and the one of a window in `gfx/gui_srv.c`. An event of low priority replaces the last one when both have one type and one window. A full buffer loses its oldest event of low priority, whose gap is closed by moving the later ones up, and without such an event its oldest one.

Over the buffer stands the list it holds, with the same moves as moves on lists.
-/

namespace Tsukasa

def inputEventPaint : Int := 1
def inputEventMouseMove : Int := 8

/-- The fields of an event that decide what becomes of it. -/
structure EventKind (ε : Type) where
  type : ε → Int
  window : ε → Int

structure EventRing (ε : Type) where
  buf : Nat → ε
  head : Nat
  tail : Nat
  count : Nat

variable {ε : Type}

def isLowPriority (K : EventKind ε) (e : ε) : Bool := K.type e = inputEventMouseMove ∨ K.type e = inputEventPaint

/-- Two events of one type and one window. -/
def sameTarget (K : EventKind ε) (e e' : ε) : Bool := K.type e = K.type e' ∧ K.window e = K.window e'

/-- The loop that moves `n` cells up by one, from the `i`th on. -/
def closeGap (cap head : Nat) : Nat → Nat → (Nat → ε) → Nat → ε
  | 0, _, buf => buf
  | n + 1, i, buf => closeGap cap head n (i + 1) (Function.update buf ((head + i) % cap) (buf ((head + (i + 1)) % cap)))

def tryDropLowPriority (K : EventKind ε) (cap : Nat) (q : EventRing ε) : Option (EventRing ε) :=
  ((List.range q.count).find? fun rel => isLowPriority K (q.buf ((q.head + rel) % cap))).map fun rel =>
    { q with
      buf := closeGap cap q.head (q.count - (rel + 1)) rel q.buf
      tail := (q.tail + cap - 1) % cap
      count := q.count - 1 }

def tryCoalesceTail (K : EventKind ε) (cap : Nat) (q : EventRing ε) (e : ε) : Option (EventRing ε) :=
  let tailIdx := (q.tail + cap - 1) % cap
  if q.count ≠ 0 ∧ isLowPriority K e ∧ sameTarget K (q.buf tailIdx) e then some { q with buf := Function.update q.buf tailIdx e } else none

def dropOldest (cap : Nat) (q : EventRing ε) : EventRing ε := { q with head := (q.head + 1) % cap, count := q.count - 1 }

def appendEvent (cap : Nat) (q : EventRing ε) (e : ε) : EventRing ε :=
  { q with buf := Function.update q.buf q.tail e, tail := (q.tail + 1) % cap, count := q.count + 1 }

/-! ### The queue as a list -/

namespace ListQueue

def coalesces (K : EventKind ε) (l : List ε) (e : ε) : Bool := isLowPriority K e && l.getLast?.any fun last => sameTarget K last e

/-- The oldest event of low priority is dropped, or the oldest one when there is none. -/
def dropOne (K : EventKind ε) (l : List ε) : List ε := if l.any (isLowPriority K) then l.eraseP (isLowPriority K) else l.tail

def enqueue (K : EventKind ε) (cap : Nat) (l : List ε) (e : ε) : List ε :=
  if coalesces K l e then l.dropLast ++ [e] else (if cap ≤ l.length then dropOne K l else l) ++ [e]

end ListQueue

/-- The calls of a queue, and what they come back with. -/
inductive QueueCall (ε : Type) where
  | enqueue (e : ε)
  | dequeue

inductive QueueResult (ε : Type) where
  | accepted
  | empty
  | event (e : ε)

namespace ListQueue

def step (K : EventKind ε) (cap : Nat) (s : List ε × List (QueueResult ε)) : QueueCall ε → List ε × List (QueueResult ε)
  | .enqueue e => (enqueue K cap s.1 e, s.2 ++ [.accepted])
  | .dequeue =>
      match s.1 with
      | [] => (s.1, s.2 ++ [.empty])
      | e :: l => (l, s.2 ++ [.event e])

/-- The queue and the results after a list of calls, from an empty queue on. -/
def run (K : EventKind ε) (cap : Nat) (calls : List (QueueCall ε)) : List ε × List (QueueResult ε) := Lib.run (step K cap) ([], []) calls

/-- The events that have been put in. -/
def arrivals (calls : List (QueueCall ε)) : List ε :=
  calls.filterMap fun
    | .enqueue e => some e
    | .dequeue => none

/-- The events that have come out. -/
def delivered (results : List (QueueResult ε)) : List ε :=
  results.filterMap fun
    | .event e => some e
    | _ => none

end ListQueue

/-! ### The buffer holds the list -/

/-- The buffer holds the events of `l`, the oldest at its head. -/
structure EventRing.Holds (cap : Nat) (q : EventRing ε) (l : List ε) : Prop where
  head : q.head < cap
  count : q.count ≤ cap
  tail : q.tail = (q.head + q.count) % cap
  contents : Lib.Ring.contents cap q.buf q.head q.count = l

variable {K : EventKind ε} {cap : Nat} {q q' : EventRing ε} {l : List ε} {e : ε}

theorem EventRing.Holds.length (h : q.Holds cap l) : l.length = q.count := by
  rw [← h.contents, Lib.Ring.length_contents]

/-- The cell before the tail is the last one in use. -/
theorem EventRing.Holds.last (h : q.Holds cap l) {n : Nat} (hcount : q.count = n + 1) : (q.tail + cap - 1) % cap = (q.head + n) % cap := by
  have hcap : 0 < cap := Nat.lt_of_le_of_lt (Nat.zero_le _) h.head
  have hsub : q.tail + cap - 1 = q.tail + (cap - 1) := by omega
  rw [hsub, h.tail, hcount, Nat.mod_add_mod, show q.head + (n + 1) + (cap - 1) = q.head + n + cap by omega, Nat.add_mod_right]

theorem closeGap_apply {n i : Nat} {buf : Nat → ε} {head : Nat} (hroom : i + n < cap) :
    (∀ j < i, closeGap cap head n i buf ((head + j) % cap) = buf ((head + j) % cap)) ∧
      ∀ j, i ≤ j → j < i + n → closeGap cap head n i buf ((head + j) % cap) = buf ((head + (j + 1)) % cap) := by
  induction n generalizing i buf with
  | zero => exact ⟨fun _ _ => rfl, fun j hlo hhi => absurd hhi (by omega)⟩
  | succ n ih =>
      obtain ⟨hbefore, hbehind⟩ := @ih (i + 1) (Function.update buf ((head + i) % cap) (buf ((head + (i + 1)) % cap))) (by omega)
      -- the cells the loop reads from are behind the one it has just written
      have hne : ∀ j < cap, j ≠ i → (head + j) % cap ≠ (head + i) % cap := fun j hj hji heq => hji (Lib.Ring.cell_inj hj (by omega) heq)
      constructor
      · intro j hj
        rw [closeGap, hbefore j (by omega), Function.update_of_ne (hne j (by omega) (by omega))]
      · intro j hlo hhi
        rw [closeGap]
        rcases Nat.eq_or_lt_of_le hlo with rfl | hlt
        · rw [hbefore i (by omega), Function.update_self]
        · rw [hbehind j hlt (by omega), Function.update_of_ne (hne (j + 1) (by omega) (by omega))]

theorem EventRing.Holds.coalesce (h : q.Holds cap l) (e : ε) :
    (tryCoalesceTail K cap q e = none ∧ ListQueue.coalesces K l e = false) ∨
      ∃ q', tryCoalesceTail K cap q e = some q' ∧ ListQueue.coalesces K l e = true ∧ q'.Holds cap (l.dropLast ++ [e]) := by
  rw [tryCoalesceTail, ListQueue.coalesces]
  cases hcount : q.count with
  | zero =>
      left
      have hnil : l = [] := List.eq_nil_of_length_eq_zero (h.length.trans hcount)
      simp [hnil]
  | succ n =>
      have hcontents := h.contents
      rw [hcount, Lib.Ring.contents_append] at hcontents
      have hroom : n < cap := by
        have := h.count
        omega
      have hlast : l.getLast? = some (q.buf ((q.head + n) % cap)) := by
        rw [← hcontents, List.getLast?_concat]
      simp only [h.last hcount, hlast, Option.any_some, ne_eq, Nat.succ_ne_zero, not_false_eq_true, true_and, Bool.and_eq_true]
      by_cases hboth : isLowPriority K e = true ∧ sameTarget K (q.buf ((q.head + n) % cap)) e = true
      · right
        refine ⟨_, if_pos hboth, hboth, h.head, hcount ▸ h.count, h.tail.trans (by rw [hcount]), ?_⟩
        rw [Lib.Ring.contents_update_last hroom, ← h.contents, hcount]
      · left
        exact ⟨if_neg hboth, by simpa using hboth⟩

theorem EventRing.Holds.dropOldest (h : q.Holds cap (e :: l)) : (Tsukasa.dropOldest cap q).Holds cap l := by
  have hcap : 0 < cap := Nat.lt_of_le_of_lt (Nat.zero_le _) h.head
  have hlength := h.length
  obtain ⟨n, hcount⟩ := Nat.exists_eq_add_one_of_ne_zero (show q.count ≠ 0 by rw [← hlength]; simp)
  have hcontents := h.contents
  rw [hcount, Lib.Ring.contents_succ h.head, List.cons.injEq] at hcontents
  have hbound := h.count
  refine ⟨Nat.mod_lt _ hcap, ?_, ?_, ?_⟩
  · simp only [Tsukasa.dropOldest]
    omega
  · simp only [Tsukasa.dropOldest]
    rw [h.tail, hcount, Nat.add_sub_cancel, Nat.mod_add_mod, Nat.add_right_comm, Nat.add_assoc]
  · simp only [Tsukasa.dropOldest, hcount, Nat.add_sub_cancel]
    exact hcontents.2

theorem EventRing.Holds.head_eq (h : q.Holds cap (e :: l)) : q.buf q.head = e := by
  have hlength := h.length
  obtain ⟨n, hcount⟩ := Nat.exists_eq_add_one_of_ne_zero (show q.count ≠ 0 by rw [← hlength]; simp)
  have hcontents := h.contents
  rw [hcount, Lib.Ring.contents_succ h.head, List.cons.injEq] at hcontents
  exact hcontents.1

theorem EventRing.Holds.append (h : q.Holds cap l) (hroom : l.length < cap) (e : ε) : (appendEvent cap q e).Holds cap (l ++ [e]) := by
  rw [h.length] at hroom
  refine ⟨h.head, hroom, ?_, ?_⟩
  · simp only [appendEvent]
    rw [h.tail, Nat.mod_add_mod, Nat.add_assoc]
  · simp only [appendEvent]
    rw [h.tail, Lib.Ring.contents_push hroom, h.contents]

/-- The search for an event of low priority. -/
theorem EventRing.Holds.find (h : q.Holds cap l) (p : ε → Bool) :
    ((List.range q.count).find? fun rel => p (q.buf ((q.head + rel) % cap))) = l.findIdx? p := by
  rw [← h.contents]
  cases hfind : (List.range q.count).find? fun rel => p (q.buf ((q.head + rel) % cap)) with
  | some rel =>
      obtain ⟨hrel, hmem, hbefore⟩ := List.find?_range_eq_some.mp hfind
      symm
      refine List.findIdx?_eq_some_iff_getElem.mpr ⟨?_, ?_, ?_⟩
      · rw [Lib.Ring.length_contents]
        exact List.mem_range.mp hmem
      · rwa [Lib.Ring.getElem_contents]
      · intro j hj
        rw [Lib.Ring.getElem_contents]
        simpa using hbefore j hj
  | none =>
      have hnone := List.find?_range_eq_none.mp hfind
      symm
      rw [List.findIdx?_eq_none_iff]
      intro e he
      obtain ⟨i, hi, rfl⟩ := List.mem_map.mp he
      simpa using hnone i (List.mem_range.mp hi)

theorem EventRing.Holds.dropLow (h : q.Holds cap l) :
    (tryDropLowPriority K cap q = none ∧ l.any (isLowPriority K) = false) ∨
      ∃ q', tryDropLowPriority K cap q = some q' ∧ l.any (isLowPriority K) = true ∧ q'.Holds cap (l.eraseP (isLowPriority K)) := by
  rw [tryDropLowPriority, h.find (isLowPriority K)]
  cases hidx : l.findIdx? (isLowPriority K) with
  | none =>
      left
      refine ⟨rfl, ?_⟩
      rw [List.any_eq_false]
      intro e he
      simpa using List.findIdx?_eq_none_iff.mp hidx e he
  | some rel =>
      right
      obtain ⟨hrel, hlow, -⟩ := List.findIdx?_eq_some_iff_getElem.mp hidx
      have hlength := h.length
      obtain ⟨n, hcount⟩ := Nat.exists_eq_add_one_of_ne_zero (show q.count ≠ 0 by omega)
      have hbound := h.count
      have hsteps : q.count - (rel + 1) = n - rel := by omega
      obtain ⟨hbefore, hbehind⟩ := @closeGap_apply ε cap (n - rel) rel q.buf q.head (by omega)
      refine ⟨_, rfl, List.any_eq_true.mpr ⟨l[rel], List.getElem_mem hrel, hlow⟩, h.head, ?_, ?_, ?_⟩
      · simp only
        omega
      · simp only [h.last hcount, hcount, Nat.add_sub_cancel]
      · simp only
        rw [List.eraseP_eq_eraseIdx, hidx, ← h.contents, hsteps, hcount, Nat.add_sub_cancel]
        exact Lib.Ring.contents_eraseIdx (by omega) hbefore fun i hlo hhi => hbehind i hlo (by omega)

/-- A buffer that is full loses an event before the next one is appended. -/
def makeRoom (K : EventKind ε) (cap : Nat) (q : EventRing ε) : EventRing ε :=
  if cap ≤ q.count then (tryDropLowPriority K cap q).getD (dropOldest cap q) else q

theorem EventRing.Holds.makeRoom (h : q.Holds cap l) :
    (Tsukasa.makeRoom K cap q).Holds cap (if cap ≤ l.length then ListQueue.dropOne K l else l) := by
  rw [Tsukasa.makeRoom, h.length, ListQueue.dropOne]
  split
  · rename_i hfull
    rcases h.dropLow (K := K) with ⟨hnone, hany⟩ | ⟨q', hsome, hany, hholds⟩
    · rw [hnone, if_neg (by simp [hany]), Option.getD_none]
      have hcap := h.head
      have hlength := h.length
      cases l with
      | nil =>
          rw [List.length_nil] at hlength
          omega
      | cons e l => exact h.dropOldest
    · rw [hsome, if_pos hany]
      exact hholds
  · exact h

/-! ### Laws of the list queue -/

namespace ListQueue

theorem length_room (hcap : 0 < cap) (hlength : l.length ≤ cap) : (if cap ≤ l.length then dropOne K l else l).length < cap := by
  split
  · rename_i hfull
    have hpos : 0 < l.length := by omega
    rw [dropOne]
    split
    · rename_i hany
      obtain ⟨e, he, hlow⟩ := List.any_eq_true.mp hany
      rw [List.length_eraseP_of_mem he hlow]
      omega
    · rw [List.length_tail]
      omega
  · omega

theorem length_enqueue (hcap : 0 < cap) (hlength : l.length ≤ cap) (e : ε) : (enqueue K cap l e).length ≤ cap := by
  rw [enqueue]
  split
  · rename_i hcoalesces
    have hpos : l ≠ [] := by
      rintro rfl
      simp [coalesces] at hcoalesces
    have := List.length_pos_iff.mpr hpos
    rw [List.length_append, List.length_dropLast, List.length_singleton]
    omega
  · have := length_room (K := K) hcap hlength
    rw [List.length_append, List.length_singleton]
    omega

/-- Dropping an event keeps the order of the others. -/
theorem dropOne_sublist (K : EventKind ε) (l : List ε) : (dropOne K l).Sublist l := by
  rw [dropOne]
  split
  · exact List.eraseP_sublist
  · exact List.tail_sublist l

theorem enqueue_sublist (K : EventKind ε) (cap : Nat) (l : List ε) (e : ε) : (enqueue K cap l e).Sublist (l ++ [e]) := by
  rw [enqueue]
  split
  · exact (List.dropLast_sublist l).append (List.Sublist.refl [e])
  · apply List.Sublist.append _ (List.Sublist.refl [e])
    split
    · exact dropOne_sublist K l
    · exact List.Sublist.refl l

/-- What an enqueue loses of the events of high priority. -/
def Loses (K : EventKind ε) (cap : Nat) (l : List ε) (e : ε) : Prop :=
  (enqueue K cap l e).filter (fun x => !isLowPriority K x) ≠ (l ++ [e]).filter fun x => !isLowPriority K x

theorem filter_eraseP {p : ε → Bool} (l : List ε) : (l.eraseP p).filter (fun x => !p x) = l.filter fun x => !p x := by
  induction l with
  | nil => rfl
  | cons x l ih =>
      by_cases hx : p x = true
      · rw [List.eraseP_cons_of_pos hx, List.filter_cons_of_neg (by simp [hx])]
      · rw [List.eraseP_cons_of_neg hx, List.filter_cons, List.filter_cons, ih]

/-- An event of high priority is lost only when there is nothing else to lose. -/
theorem all_high_of_loses (h : Loses K cap l e) : cap ≤ l.length ∧ ∀ x ∈ l, isLowPriority K x = false := by
  by_contra hneg
  apply h
  rw [enqueue]
  split
  · rename_i hcoalesces
    rw [coalesces, Bool.and_eq_true] at hcoalesces
    rcases List.eq_nil_or_concat l with rfl | ⟨before, last, rfl⟩
    · simp at hcoalesces
    · rw [List.concat_eq_append] at hcoalesces ⊢
      simp only [List.getLast?_concat, Option.any_some, sameTarget, decide_eq_true_eq] at hcoalesces
      -- the event that is replaced has the type of the new one
      have hlast : isLowPriority K last = isLowPriority K e := by
        rw [isLowPriority, isLowPriority, hcoalesces.2.1]
      rw [List.dropLast_concat, List.filter_append, List.filter_append, List.filter_append, List.filter_cons_of_neg (by simp [hcoalesces.1]),
        List.filter_cons_of_neg (by simp [hlast, hcoalesces.1])]
      simp
  · split
    · rename_i hfull
      rw [dropOne]
      split
      · rw [List.filter_append, List.filter_append, filter_eraseP]
      · rename_i hany
        exact absurd ⟨hfull, fun x hx => by simpa using fun hlow => hany (List.any_eq_true.mpr ⟨x, hx, hlow⟩)⟩ hneg
    · rfl

@[simp] theorem arrivals_append (before after : List (QueueCall ε)) : arrivals (before ++ after) = arrivals before ++ arrivals after :=
  List.filterMap_append

@[simp] theorem delivered_append (before after : List (QueueResult ε)) : delivered (before ++ after) = delivered before ++ delivered after :=
  List.filterMap_append

theorem run_concat (K : EventKind ε) (cap : Nat) (calls : List (QueueCall ε)) (call : QueueCall ε) :
    run K cap (calls ++ [call]) = step K cap (run K cap calls) call := by
  rw [run, Lib.run_append]
  rfl

/-- A run keeps to the capacity, and what has come out and what is left is what has been put in, in its order. -/
theorem run_order (hcap : 0 < cap) (calls : List (QueueCall ε)) :
    (run K cap calls).1.length ≤ cap ∧ (delivered (run K cap calls).2 ++ (run K cap calls).1).Sublist (arrivals calls) := by
  induction calls using List.reverseRecOn with
  | nil => exact ⟨Nat.zero_le cap, List.Sublist.refl _⟩
  | append_singleton calls call ih =>
      obtain ⟨hlength, hsublist⟩ := ih
      rw [run_concat]
      generalize run K cap calls = s at hlength hsublist ⊢
      obtain ⟨l, results⟩ := s
      cases call with
      | enqueue e =>
          refine ⟨length_enqueue hcap hlength e, ?_⟩
          simp only [step, delivered_append, arrivals_append]
          have hnone : delivered [(.accepted : QueueResult ε)] = [] := rfl
          have hone : arrivals [(.enqueue e : QueueCall ε)] = [e] := rfl
          rw [hnone, List.append_nil, hone]
          calc (delivered results ++ enqueue K cap l e).Sublist (delivered results ++ (l ++ [e])) := (enqueue_sublist K cap l e).append_left _
            _ = delivered results ++ l ++ [e] := (List.append_assoc _ _ _).symm
            List.Sublist _ (arrivals calls ++ [e]) := hsublist.append_right _
      | dequeue =>
          have hnone : arrivals [(.dequeue : QueueCall ε)] = [] := rfl
          rw [arrivals_append, hnone, List.append_nil]
          cases l with
          | nil =>
              refine ⟨hlength, ?_⟩
              simpa [step, delivered] using hsublist
          | cons e l =>
              refine ⟨Nat.le_of_succ_le hlength, ?_⟩
              have hone : delivered [(.event e : QueueResult ε)] = [e] := rfl
              simp only [step, delivered_append, hone, List.append_assoc, List.singleton_append]
              exact hsublist

/-- The laws of a bounded list queue after a list of calls. -/
structure Laws (K : EventKind ε) (cap : Nat) (calls : List (QueueCall ε)) : Prop where
  bounded : (run K cap calls).1.length ≤ cap
  ordered : (delivered (run K cap calls).2 ++ (run K cap calls).1).Sublist (arrivals calls)
  losses : ∀ e, Loses K cap (run K cap calls).1 e → cap ≤ (run K cap calls).1.length ∧ ∀ x ∈ (run K cap calls).1, isLowPriority K x = false

theorem laws (K : EventKind ε) (hcap : 0 < cap) (calls : List (QueueCall ε)) : Laws K cap calls :=
  ⟨(run_order hcap calls).1, (run_order hcap calls).2, fun _ => all_high_of_loses⟩

end ListQueue

end Tsukasa
