import Mathlib.Data.List.DropRight
import Mathlib.Data.List.TakeWhile

/-!
# Trimming

A list without the marked elements at both of its ends. Cutting a list first changes what trimming leaves of it just when something of the rest is behind the cut.
-/

namespace Lib

variable {α : Type*} {p : α → Bool} {a b c l : List α} {n : Nat}

def trim (p : α → Bool) (l : List α) : List α := (l.dropWhile p).rdropWhile p

theorem rdropWhile_append_of_pos (hb : ∀ x ∈ b, p x) : (l ++ b).rdropWhile p = l.rdropWhile p := by
  rw [List.rdropWhile, List.reverse_append, List.dropWhile_append_of_pos fun x hx => hb x (List.mem_reverse.mp hx)]
  rfl

theorem rdropWhile_append_of_ne (hc : c.rdropWhile p ≠ []) : (a ++ c).rdropWhile p = a ++ c.rdropWhile p := by
  rw [List.rdropWhile, List.reverse_append, List.dropWhile_append, if_neg, List.reverse_append, List.reverse_reverse]
  · rfl
  · rw [List.isEmpty_iff, ← List.reverse_eq_nil_iff]
    exact hc

theorem trim_eq_nil_iff : trim p l = [] ↔ ∀ x ∈ l, p x := by
  rw [trim, List.rdropWhile_eq_nil_iff]
  constructor
  · intro h
    cases hdrop : l.dropWhile p with
    | nil => exact List.dropWhile_eq_nil_iff.mp hdrop
    | cons x rest =>
        have hhead := List.head_dropWhile_not p (l := l) (by rw [hdrop]; exact List.cons_ne_nil x rest)
        have hx := h x (by rw [hdrop]; exact List.mem_cons_self)
        simp only [hdrop, List.head_cons] at hhead
        rw [hx] at hhead
        cases hhead
  · exact fun h x hx => h x ((List.dropWhile_sublist p).mem hx)

/-- Marked elements around a list that is trimmed do not matter. -/
theorem trim_append (ha : ∀ x ∈ a, p x) (hb : ∀ x ∈ b, p x) : trim p (a ++ l ++ b) = trim p l := by
  rw [trim, List.append_assoc, List.dropWhile_append_of_pos ha, List.dropWhile_append]
  split
  · rename_i hnil
    rw [List.isEmpty_iff] at hnil
    rw [trim, hnil, List.dropWhile_eq_nil_iff.mpr hb]
  · exact rdropWhile_append_of_pos hb

/-- What trimming takes away is marked. -/
theorem exists_trim (p : α → Bool) (l : List α) : ∃ a b, l = a ++ trim p l ++ b ∧ (∀ x ∈ a, p x) ∧ ∀ x ∈ b, p x := by
  refine ⟨l.takeWhile p, (l.dropWhile p).rtakeWhile p, ?_, fun x hx => List.mem_takeWhile_imp hx, fun x hx => List.mem_rtakeWhile_imp hx⟩
  rw [trim, List.append_assoc, List.rdropWhile_append_rtakeWhile, List.takeWhile_append_dropWhile]

theorem trim_trim (p : α → Bool) (l : List α) : trim p (trim p l) = trim p l := by
  obtain ⟨a, b, hl, ha, hb⟩ := exists_trim p l
  have htrim := trim_append (l := trim p l) ha hb
  rw [← hl] at htrim
  exact htrim.symm

theorem length_trim_le (p : α → Bool) (l : List α) : (trim p l).length ≤ (l.dropWhile p).length := (List.rdropWhile_prefix p _).length_le

theorem length_dropWhile_take_le (ha : ∀ x ∈ a, p x) : (((a ++ c).take n).dropWhile p).length ≤ n - a.length := by
  rw [List.take_append, List.dropWhile_append_of_pos fun x hx => ha x (List.mem_of_mem_take hx)]
  exact Nat.le_trans (List.dropWhile_sublist p).length_le (List.length_take_le _ _)

/-- A cut leaves the trimmed list as it is just when it is behind its last element. -/
theorem trim_take_iff (p : α → Bool) (l : List α) (n : Nat) : trim p (l.take n) = trim p l ↔ (l.rdropWhile p).length ≤ n := by
  obtain ⟨a, b, hl, ha, hb⟩ := exists_trim p l
  by_cases hnil : trim p l = []
  · have hall := trim_eq_nil_iff.mp hnil
    rw [hnil, List.rdropWhile_eq_nil_iff.mpr hall, trim_eq_nil_iff]
    exact ⟨fun _ => Nat.zero_le n, fun _ x hx => hall x (List.mem_of_mem_take hx)⟩
  · have hlast : (trim p l).rdropWhile p = trim p l := List.rdropWhile_idempotent p _
    have hstrip : l.rdropWhile p = a ++ trim p l := by
      rw [hl, rdropWhile_append_of_pos hb, ← hl, rdropWhile_append_of_ne (by rw [hlast]; exact hnil), hlast]
    rw [hstrip, List.length_append]
    constructor
    · intro htrim
      have hshort : (trim p (l.take n)).length ≤ n - a.length := by
        rw [hl, List.append_assoc]
        exact Nat.le_trans (length_trim_le p _) (length_dropWhile_take_le ha)
      have hpos := List.length_pos_iff.mpr hnil
      rw [htrim] at hshort
      omega
    · intro hlen
      have htake : l.take n = a ++ trim p l ++ b.take (n - (a ++ trim p l).length) := by
        rw [hl, List.take_append, ← hl, List.take_of_length_le (by rw [List.length_append]; exact hlen)]
      rw [htake, trim_append ha fun x hx => hb x (List.mem_of_mem_take hx), trim_trim]

end Lib
