import Mathlib.Data.List.Basic
import Mathlib.Data.List.Perm.Basic
import Mathlib.Order.Defs.Unbundled

/-!
# Sorting by exchanges of neighbours

A pass compares neighbours from the front and exchanges those that are out of order, so what it carries along is the greatest element so far. Each pass stops one place earlier than the one before. Neighbours that are equal in the order are never exchanged.
-/

namespace Lib

variable {α : Type*} {le : α → α → Prop} [DecidableRel le] {l f front tail t : List α} {a b cur x : α} {j k n : Nat}

/-- Exchanges the first two elements when they are out of order. -/
def exchange (le : α → α → Prop) [DecidableRel le] : List α → List α
  | a :: b :: t => if le a b then a :: b :: t else b :: a :: t
  | t => t

/-- The step of a pass at the places `j` and `j + 1`. -/
def exchangeAt (le : α → α → Prop) [DecidableRel le] (l : List α) (j : Nat) : List α := l.take j ++ exchange le (l.drop j)

/-- A pass of `k` steps. -/
def bubblePass (le : α → α → Prop) [DecidableRel le] (k : Nat) (l : List α) : List α := (List.range k).foldl (exchangeAt le) l

/-- The first `n` passes over a list of `size` elements. -/
def bubblePasses (le : α → α → Prop) [DecidableRel le] (size n : Nat) (l : List α) : List α :=
  (List.range n).foldl (fun l i => bubblePass le (size - i - 1) l) l

/-- Equal in the order. -/
def Tied (le : α → α → Prop) (x y : α) : Prop := le x y ∧ le y x

instance (x y : α) : Decidable (Tied le x y) := inferInstanceAs (Decidable (le x y ∧ le y x))

/-- The elements that are tied with some `x` come in the same order. -/
def SameTies (le : α → α → Prop) [DecidableRel le] (l l' : List α) : Prop := ∀ x, l.filter (Tied le x ·) = l'.filter (Tied le x ·)

theorem SameTies.append {l₁ l₁' l₂ l₂' : List α} (h₁ : SameTies le l₁ l₁') (h₂ : SameTies le l₂ l₂') : SameTies le (l₁ ++ l₂) (l₁' ++ l₂') := by
  intro x
  rw [List.filter_append, List.filter_append, h₁ x, h₂ x]

theorem SameTies.trans {l₁ l₂ l₃ : List α} (h₁ : SameTies le l₁ l₂) (h₂ : SameTies le l₂ l₃) : SameTies le l₁ l₃ := fun x => (h₁ x).trans (h₂ x)

theorem SameTies.refl (l : List α) : SameTies le l l := fun _ => rfl

/-- Elements that are out of order are not tied, so they may be exchanged. -/
theorem SameTies.swap [IsTrans α le] (hab : ¬ le a b) : SameTies le [b, a] [a, b] := by
  intro x
  have hone : ¬ (Tied le x a ∧ Tied le x b) := fun h => hab (IsTrans.trans a x b h.1.2 h.2.1)
  by_cases ha : Tied le x a
  · have hb : ¬ Tied le x b := fun hb => hone ⟨ha, hb⟩
    simp [ha, hb]
  · simp [List.filter_cons, ha]

theorem exchangeAt_append (hlen : f.length = j) (t : List α) : exchangeAt le (f ++ t) j = f ++ exchange le t := by
  rw [exchangeAt, List.take_left' hlen, List.drop_left' hlen]

/-- What a pass of `k` steps leaves: it has the greatest of the first elements in hand, with the others before it. -/
structure Carried (le : α → α → Prop) [DecidableRel le] (l front : List α) (cur : α) : Prop where
  perm : (front ++ [cur]).Perm l
  greatest : ∀ z ∈ front, le z cur
  ties : SameTies le (front ++ [cur]) l

/-- One step takes the next element in. -/
theorem Carried.step [Std.Total le] [IsTrans α le] (h : Carried le l front cur) (b : α) (t : List α) :
    ∃ front' cur', front ++ exchange le (cur :: b :: t) = front' ++ cur' :: t ∧ front'.length = front.length + 1 ∧
      Carried le (l ++ [b]) front' cur' := by
  by_cases hle : le cur b
  · refine ⟨front ++ [cur], b, ?_, List.length_append, ?_, ?_, ?_⟩
    · rw [exchange, if_pos hle, List.append_assoc]
      rfl
    · exact h.perm.append_right [b]
    · intro z hz
      rcases List.mem_append.mp hz with hz | hz
      · exact IsTrans.trans z cur b (h.greatest z hz) hle
      · rw [List.mem_singleton.mp hz]
        exact hle
    · exact h.ties.append (SameTies.refl [b])
  · have hge : le b cur := (Std.Total.total cur b).resolve_left hle
    refine ⟨front ++ [b], cur, ?_, List.length_append, ?_, ?_, ?_⟩
    · rw [exchange, if_neg hle, List.append_assoc]
      rfl
    · rw [List.append_assoc]
      apply List.Perm.trans _ (h.perm.append_right [b])
      rw [List.append_assoc]
      exact (List.Perm.swap cur b []).append_left front
    · intro z hz
      rcases List.mem_append.mp hz with hz | hz
      · exact h.greatest z hz
      · rw [List.mem_singleton.mp hz]
        exact hge
    · rw [List.append_assoc]
      apply SameTies.trans _ (h.ties.append (SameTies.refl [b]))
      rw [List.append_assoc]
      exact (SameTies.refl front).append (SameTies.swap hle)

variable (le) in
/-- A pass over the first `k + 1` elements. -/
theorem bubblePass_spec [Std.Total le] [IsTrans α le] (hk : k < l.length) :
    ∃ front cur, bubblePass le k l = front ++ cur :: l.drop (k + 1) ∧ front.length = k ∧ Carried le (l.take (k + 1)) front cur := by
  induction k with
  | zero =>
      obtain ⟨x, rest, rfl⟩ := List.exists_cons_of_length_pos hk
      exact ⟨[], x, rfl, rfl, List.Perm.refl _, nofun, SameTies.refl _⟩
  | succ k ih =>
      obtain ⟨front, cur, hpass, hlen, hcarried⟩ := ih (Nat.lt_of_succ_lt hk)
      obtain ⟨front', cur', hstep, hlen', hnext⟩ := hcarried.step l[k + 1] (l.drop (k + 2))
      refine ⟨front', cur', ?_, by omega, ?_⟩
      · rw [bubblePass, List.range_succ, List.foldl_append, ← bubblePass, hpass, List.foldl_cons, List.foldl_nil, exchangeAt_append hlen,
          List.drop_eq_getElem_cons hk]
        exact hstep
      · rw [List.take_succ_eq_append_getElem hk]
        exact hnext

/-- After `n` passes the last `n` elements are where they belong. -/
structure Settled (le : α → α → Prop) [DecidableRel le] (l front tail : List α) : Prop where
  perm : (front ++ tail).Perm l
  sorted : tail.Pairwise le
  above : ∀ z ∈ front, ∀ w ∈ tail, le z w
  ties : SameTies le (front ++ tail) l

variable (le) in
theorem bubblePasses_spec [Std.Total le] [IsTrans α le] (hn : n < l.length) :
    ∃ front tail, bubblePasses le l.length n l = front ++ tail ∧ tail.length = n ∧ Settled le l front tail := by
  induction n with
  | zero =>
      refine ⟨l, [], (List.append_nil l).symm, rfl, ?_, .nil, fun _ _ => nofun, ?_⟩
      · rw [List.append_nil]
      · rw [List.append_nil]
        exact SameTies.refl l
  | succ n ih =>
      obtain ⟨front, tail, hpasses, hlen, h⟩ := ih (Nat.lt_of_succ_lt hn)
      have hlength := h.perm.length_eq
      rw [List.length_append] at hlength
      obtain ⟨front', cur, hpass, hfront, hcarried⟩ := bubblePass_spec le
        (show l.length - n - 1 < (front ++ tail).length by rw [List.length_append]; omega)
      rw [List.take_left' (show front.length = l.length - n - 1 + 1 by omega)] at hcarried
      rw [List.drop_left' (show front.length = l.length - n - 1 + 1 by omega)] at hpass
      have hmem : ∀ z, z ∈ front' ++ [cur] → z ∈ front := fun z hz => hcarried.perm.mem_iff.mp hz
      refine ⟨front', cur :: tail, ?_, ?_, ?_, ?_, ?_, ?_⟩
      · rw [bubblePasses, List.range_succ, List.foldl_append, ← bubblePasses, hpasses]
        exact hpass
      · rw [List.length_cons, hlen]
      · rw [List.append_cons]
        exact (hcarried.perm.append_right tail).trans h.perm
      · exact h.sorted.cons fun w hw => h.above cur (hmem cur (List.mem_append_right front' List.mem_cons_self)) w hw
      · intro z hz w hw
        rcases List.mem_cons.mp hw with rfl | hw
        · exact hcarried.greatest z hz
        · exact h.above z (hmem z (List.mem_append_left _ hz)) w hw
      · rw [List.append_cons]
        exact (hcarried.ties.append (SameTies.refl tail)).trans h.ties

variable (le) in
/-- All passes sort the list, and keep the order of tied elements. -/
theorem bubblePasses_sorts [Std.Total le] [IsTrans α le] (l : List α) :
    (bubblePasses le l.length (l.length - 1) l).Perm l ∧ (bubblePasses le l.length (l.length - 1) l).Pairwise le ∧
      SameTies le (bubblePasses le l.length (l.length - 1) l) l := by
  cases l with
  | nil => exact ⟨List.Perm.refl _, .nil, SameTies.refl _⟩
  | cons x rest =>
      obtain ⟨front, tail, hpasses, hlen, h⟩ := bubblePasses_spec le
        (show (x :: rest).length - 1 < (x :: rest).length by rw [List.length_cons]; omega)
      have hlength := h.perm.length_eq
      rw [List.length_append, hlen, List.length_cons, Nat.add_sub_cancel] at hlength
      obtain ⟨y, rfl⟩ := List.length_eq_one_iff.mp (show front.length = 1 by omega)
      rw [hpasses]
      exact ⟨h.perm, h.sorted.cons fun w hw => h.above y List.mem_cons_self w hw, h.ties⟩

end Lib
