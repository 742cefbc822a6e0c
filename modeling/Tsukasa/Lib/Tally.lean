import Mathlib.Algebra.BigOperators.Group.Finset.Basic
import Mathlib.Algebra.BigOperators.Group.Finset.Piecewise

/-!
# Counting the cells of a table

How many cells of a table satisfy a predicate, and how that number moves when one cell is written. Reference counts are such numbers, kept beside the table they count.
-/

namespace Lib

variable {κ α : Type*} {s : Finset κ} {P : α → Prop} [DecidablePred P] {g : κ → α} {k : κ}

/-- The number of cells in `s` whose content satisfies `P`. -/
def tally (s : Finset κ) (P : α → Prop) [DecidablePred P] (g : κ → α) : Nat := (s.filter fun k => P (g k)).card

theorem tally_update [DecidableEq κ] (hk : k ∈ s) (x : α) :
    tally s P (Function.update g k x) + (if P (g k) then 1 else 0) = tally s P g + (if P x then 1 else 0) := by
  have hrest : ∑ j ∈ s.erase k, (if P (Function.update g k x j) then 1 else 0) = ∑ j ∈ s.erase k, (if P (g j) then 1 else 0) := by
    apply Finset.sum_congr rfl
    intro j hj
    rw [Function.update_of_ne (Finset.ne_of_mem_erase hj)]
  simp only [tally, Finset.card_filter]
  rw [← Finset.add_sum_erase s _ hk, ← Finset.add_sum_erase s (fun j => if P (g j) then 1 else 0) hk, hrest,
    Function.update_self]
  omega

theorem tally_pos_iff : 0 < tally s P g ↔ ∃ k ∈ s, P (g k) := by
  rw [tally, Finset.card_pos]
  simp only [Finset.Nonempty, Finset.mem_filter]

theorem tally_congr {g' : κ → α} (h : ∀ k ∈ s, P (g k) ↔ P (g' k)) : tally s P g = tally s P g' := by
  rw [tally, tally, Finset.filter_congr h]

theorem tally_eq_zero (h : ∀ k ∈ s, ¬ P (g k)) : tally s P g = 0 := by
  rw [tally, Finset.card_eq_zero, Finset.filter_eq_empty_iff]
  exact h

/-! ### The occupied cells -/

section Occupied

variable {n k : Nat} {occ : α → Bool} {g : Nat → α}

/-- The contents of the occupied ones among the first `n` cells. -/
def occupied (n : Nat) (occ : α → Bool) (g : Nat → α) : List α := ((List.range n).map g).filter occ

theorem mem_occupied {x : α} : x ∈ occupied n occ g ↔ ∃ k < n, g k = x ∧ occ x = true := by
  simp only [occupied, List.mem_filter, List.mem_map, List.mem_range]
  constructor
  · rintro ⟨⟨k, hk, heq⟩, hocc⟩
    exact ⟨k, hk, heq, hocc⟩
  · rintro ⟨k, hk, heq, hocc⟩
    exact ⟨⟨k, hk, heq⟩, hocc⟩

/-- One cell is written: the others stay. -/
theorem occupied_update (hk : k < n) (x : α) :
    ∃ rest, (occupied n occ g).Perm ([g k].filter occ ++ rest) ∧ (occupied n occ (Function.update g k x)).Perm ([x].filter occ ++ rest) := by
  have hperm := List.perm_cons_erase (List.mem_range.mpr hk)
  have hrest : ((List.range n).erase k).map (Function.update g k x) = ((List.range n).erase k).map g := by
    apply List.map_congr_left
    intro j hj
    exact Function.update_of_ne (List.nodup_range.mem_erase_iff.mp hj).1 _ _
  refine ⟨(((List.range n).erase k).map g).filter occ, ?_, ?_⟩
  · have h := (hperm.map g).filter occ
    rw [List.map_cons, ← List.singleton_append, List.filter_append] at h
    exact h
  · have h := (hperm.map (Function.update g k x)).filter occ
    rw [List.map_cons, hrest, Function.update_self, ← List.singleton_append, List.filter_append] at h
    exact h

end Occupied

end Lib
