import Tsukasa.Lib.Linked

/-!
# Doubly linked lists in a node store

A list that is linked in both directions. The nodes of an edit are named by where they stand in the list, and the links behind the edit are given node by node, so that a store may change its links in any way that comes to the same.
-/

namespace Lib.Linked

variable {ν : Type*} {next prev next' prev' : ν → Option ν} {head tail : Option ν} {x y : ν} {l before after : List ν}

theorem isList_iff : IsList next head l ↔ head = l.head? ∧ ∀ before x after, l = before ++ x :: after → next x = after.head? := by
  induction l generalizing head with
  | nil => simp
  | cons y l ih =>
      rw [isList_cons, ih, List.head?_cons]
      constructor
      · rintro ⟨hhead, hnext, hrest⟩
        refine ⟨hhead, fun before x after heq => ?_⟩
        rw [List.cons_eq_append_iff] at heq
        rcases heq with ⟨-, heq⟩ | ⟨front, -, heq⟩
        · rw [List.cons.injEq] at heq
          rw [heq.1, heq.2, hnext]
        · exact hrest front x after heq
      · rintro ⟨hhead, hlinks⟩
        exact ⟨hhead, hlinks [] y l rfl, fun front x after heq => hlinks (y :: front) x after (by rw [heq, List.cons_append])⟩

theorem IsList.next_eq (h : IsList next head (before ++ x :: after)) : next x = after.head? := (isList_iff.mp h).2 before x after rfl

/-- The nodes of `l`, followed from the head along `next` and from the tail along `prev`. -/
structure IsDList (next prev : ν → Option ν) (head tail : Option ν) (l : List ν) : Prop where
  forward : IsList next head l
  backward : IsList prev tail l.reverse

namespace IsDList

theorem nodup (h : IsDList next prev head tail l) : l.Nodup := h.forward.nodup

theorem head_eq (h : IsDList next prev head tail l) : head = l.head? := h.forward.head_eq

theorem tail_eq (h : IsDList next prev head tail l) : tail = l.getLast? := by
  rw [h.backward.head_eq, List.head?_reverse]

theorem next_eq (h : IsDList next prev head tail (before ++ x :: after)) : next x = after.head? := h.forward.next_eq

theorem prev_eq (h : IsDList next prev head tail (before ++ x :: after)) : prev x = before.getLast? := by
  have hbackward := h.backward
  rw [List.reverse_append, List.reverse_cons, List.append_assoc, List.singleton_append] at hbackward
  have hx := hbackward.next_eq
  rwa [List.head?_reverse] at hx

theorem of_links (hhead : head = l.head?) (htail : tail = l.getLast?)
    (hlinks : ∀ before x after, l = before ++ x :: after → next x = after.head? ∧ prev x = before.getLast?) : IsDList next prev head tail l := by
  refine ⟨isList_iff.mpr ⟨hhead, fun before x after heq => (hlinks before x after heq).1⟩, isList_iff.mpr ⟨?_, fun before x after heq => ?_⟩⟩
  · rw [htail, List.head?_reverse]
  · have hsplit : l = after.reverse ++ x :: before.reverse := by
      rw [← List.reverse_reverse l, heq]
      simp
    rw [(hlinks _ x _ hsplit).2, List.getLast?_reverse]

theorem reverse (h : IsDList next prev head tail l) : IsDList prev next tail head l.reverse := by
  refine ⟨h.backward, ?_⟩
  rw [List.reverse_reverse]
  exact h.forward

theorem congr (h : IsDList next prev head tail l) (hnext : ∀ y ∈ l, next' y = next y) (hprev : ∀ y ∈ l, prev' y = prev y) :
    IsDList next' prev' head tail l := by
  refine ⟨h.forward.congr hnext, h.backward.congr fun y hy => hprev y ?_⟩
  rwa [List.mem_reverse] at hy

theorem nil : IsDList next prev none none [] := ⟨trivial, trivial⟩

theorem getLast?_ne_of_mem {y : ν} (h : (before ++ x :: after).Nodup) (hy : y ∈ after) : before.getLast? ≠ some y := by
  intro hlast
  have hmem : y ∈ before := List.mem_of_getLast? hlast
  rw [List.nodup_append] at h
  exact h.2.2 y hmem y (List.mem_cons_of_mem x hy) rfl

variable [DecidableEq ν]

/-- The node `x` is taken out, its neighbours being linked to each other. -/
theorem erase (h : IsDList next prev head tail (before ++ x :: after))
    (hnext : ∀ y ∈ before ++ after, next' y = if prev x = some y then next x else next y)
    (hprev : ∀ y ∈ before ++ after, prev' y = if next x = some y then prev x else prev y) :
    IsDList next' prev' (if prev x = none then next x else head) (if next x = none then prev x else tail) (before ++ after) := by
  have hnodup := h.nodup
  have hx := h.next_eq
  have hx' := h.prev_eq
  rw [hx, hx'] at hnext hprev ⊢
  refine of_links ?_ ?_ ?_
  · cases before with
    | nil => simp
    | cons z before => simp [h.head_eq, List.getLast?_cons]
  · cases hafter : after with
    | nil => simp
    | cons z rest => simp [h.tail_eq, hafter, List.getLast?_append, List.getLast?_cons]
  · intro front y behind heq
    have hy : y ∈ before ++ after := by
      rw [heq]
      simp
    rw [hnext y hy, hprev y hy]
    rcases List.append_eq_append_iff.mp heq with ⟨middle, hfront, hafter⟩ | ⟨middle, hbefore, hbehind⟩
    · -- the node stands behind `x`
      have hlast : before.getLast? ≠ some y := by
        apply getLast?_ne_of_mem hnodup
        rw [hafter]
        simp
      have hold : before ++ x :: after = (before ++ x :: middle) ++ y :: behind := by
        rw [hafter]
        simp
      rw [hold] at h
      rw [if_neg hlast]
      refine ⟨h.next_eq, ?_⟩
      cases middle with
      | nil =>
          rw [hafter, hfront]
          simp
      | cons z middle =>
          have hne : after.head? ≠ some y := by
            intro heq
            rw [hafter, List.cons_append, List.head?_cons, Option.some.injEq] at heq
            rw [hafter, heq, List.cons_append, List.nodup_append, List.nodup_cons, List.nodup_cons] at hnodup
            exact hnodup.2.1.2.1 (by simp)
          rw [if_neg hne, h.prev_eq, hfront]
          simp [List.getLast?_append, List.getLast?_cons]
    · cases middle with
      | nil =>
          -- the node is the first behind `x`
          rw [List.nil_append] at hbehind
          rw [List.append_nil] at hbefore
          have hlast : before.getLast? ≠ some y := by
            apply getLast?_ne_of_mem hnodup
            rw [← hbehind]
            exact List.mem_cons_self
          have hold : before ++ x :: after = (before ++ [x]) ++ y :: behind := by
            rw [← hbehind]
            simp
          rw [hold] at h
          rw [if_neg hlast, ← hbehind, if_pos (List.head?_cons ..), hbefore]
          exact ⟨h.next_eq, rfl⟩
      | cons z middle =>
          -- the node stands in front of `x`
          rw [List.cons_append, List.cons.injEq] at hbehind
          obtain ⟨rfl, hbehind⟩ := hbehind
          have hne : after.head? ≠ some y := by
            intro heq
            have hmem : y ∈ after := List.mem_of_head? heq
            rw [hbefore, List.nodup_append] at hnodup
            exact hnodup.2.2 y (by simp) y (List.mem_cons_of_mem x hmem) rfl
          have hold : before ++ x :: after = front ++ y :: (middle ++ x :: after) := by
            rw [hbefore]
            simp
          rw [hold] at h
          rw [if_neg hne]
          refine ⟨?_, h.prev_eq⟩
          cases middle with
          | nil =>
              rw [hbefore, if_pos (by simp), hbehind, List.nil_append]
          | cons w middle =>
              have hlast : before.getLast? ≠ some y := by
                rw [hbefore]
                intro heq
                have hmem : y ∈ w :: middle := by
                  apply List.mem_of_getLast?
                  rwa [List.getLast?_append, List.getLast?_cons_cons, List.getLast?_cons, Option.some_or, ← List.getLast?_cons] at heq
                have hfrontnodup := (List.nodup_append.mp hnodup).1
                rw [hbefore, List.nodup_append] at hfrontnodup
                exact (List.nodup_cons.mp hfrontnodup.2.1).1 hmem
              rw [if_neg hlast, h.next_eq, hbehind]
              simp

/-- A new last node. -/
theorem pushBack (h : IsDList next prev head tail l) (hx : x ∉ l) (hnext : ∀ y ∈ l, next' y = if tail = some y then some x else next y)
    (hprev : ∀ y ∈ l, prev' y = prev y) (hxnext : next' x = none) (hxprev : prev' x = tail) :
    IsDList next' prev' (if tail = none then some x else head) (some x) (l ++ [x]) := by
  have hnodup := h.nodup
  have htail := h.tail_eq
  refine of_links ?_ (by simp) ?_
  · rw [htail, h.head_eq]
    cases l <;> simp
  · intro before y after heq
    rcases List.append_eq_append_iff.mp heq with ⟨middle, hbefore, hlast⟩ | ⟨middle, hl, hafter⟩
    · cases middle with
      | nil =>
          rw [List.nil_append, List.cons.injEq] at hlast
          rw [← hlast.1, ← hlast.2, hxnext, hxprev, htail, hbefore, List.append_nil]
          exact ⟨rfl, rfl⟩
      | cons z middle => simp at hlast
    · cases middle with
      | nil =>
          rw [List.nil_append, List.cons.injEq] at hafter
          rw [hafter.1, hafter.2, hxnext, hxprev, htail, hl, List.append_nil]
          exact ⟨rfl, rfl⟩
      | cons z middle =>
          rw [List.cons_append, List.cons.injEq] at hafter
          obtain ⟨rfl, hafter⟩ := hafter
          rw [hl] at h
          have hy : y ∈ l := by
            rw [hl]
            simp
          rw [hnext y hy, hprev y hy, htail, h.prev_eq]
          refine ⟨?_, rfl⟩
          rw [hafter, h.next_eq]
          cases hmiddle : middle.getLast? with
          | none =>
              rw [List.getLast?_eq_none_iff] at hmiddle
              rw [if_pos (by rw [hl, hmiddle]; simp), hmiddle]
              simp
          | some z =>
              have hmem : z ∈ middle := List.mem_of_getLast? hmiddle
              have hne : l.getLast? ≠ some y := by
                rw [hl, List.getLast?_append, List.getLast?_cons, hmiddle]
                intro heq
                have hzy : z = y := by simpa using heq
                rw [hl, List.nodup_append, List.nodup_cons] at hnodup
                exact hnodup.2.1.1 (hzy ▸ hmem)
              rw [if_neg hne]
              cases middle with
              | nil => simp at hmem
              | cons w middle => simp

/-- A new first node. -/
theorem pushFront (h : IsDList next prev head tail l) (hx : x ∉ l) (hnext : ∀ y ∈ l, next' y = next y)
    (hprev : ∀ y ∈ l, prev' y = if head = some y then some x else prev y) (hxnext : next' x = head) (hxprev : prev' x = none) :
    IsDList next' prev' (some x) (if head = none then some x else tail) (x :: l) := by
  have hpush : IsDList prev' next' (if head = none then some x else tail) (some x) (l.reverse ++ [x]) :=
    h.reverse.pushBack (by simpa using hx) (fun y hy => hprev y (List.mem_reverse.mp hy)) (fun y hy => hnext y (List.mem_reverse.mp hy))
      hxprev hxnext
  simpa using hpush.reverse

end IsDList

end Lib.Linked
