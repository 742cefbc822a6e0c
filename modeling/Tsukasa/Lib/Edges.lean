import Mathlib.Data.List.Chain
import Mathlib.Data.List.Induction

/-!
# Changes of a signal

A signal is sampled again and again, and only its changes are reported. The reports alternate with what was reported before, and the last one is the present value.
-/

namespace Lib

variable {α : Type*}

/-- The present value of a signal that was `a` before its samples. -/
def level (a : α) (l : List α) : α := l.getLast?.getD a

@[simp] theorem level_nil (a : α) : level a [] = a := rfl

@[simp] theorem level_concat (a : α) (l : List α) (x : α) : level a (l ++ [x]) = x := by
  rw [level, List.getLast?_concat, Option.getD_some]

theorem level_cons (a x : α) (l : List α) : level a (x :: l) = level x l := by
  rw [level, level, List.getLast?_cons]
  rfl

variable [DecidableEq α]

/-- The samples that differ from the one before, the first of them from `a`. -/
def edges (a : α) : List α → List α
  | [] => []
  | x :: l => if x = a then edges a l else x :: edges x l

/-- Another sample is reported if it is a change. -/
theorem edges_concat (a : α) (l : List α) (x : α) : edges a (l ++ [x]) = edges a l ++ if x = level a l then [] else [x] := by
  induction l generalizing a with
  | nil => rfl
  | cons y l ih =>
      rw [List.cons_append, edges, edges, level_cons]
      by_cases hy : y = a
      · rw [if_pos hy, if_pos hy, ih a, hy]
      · rw [if_neg hy, if_neg hy, ih y, List.cons_append]

/-- The reports tell the present value. -/
theorem level_edges (a : α) (l : List α) : level a (edges a l) = level a l := by
  induction l generalizing a with
  | nil => rfl
  | cons y l ih =>
      rw [edges, level_cons]
      by_cases hy : y = a
      · rw [if_pos hy, ih a, hy]
      · rw [if_neg hy, level_cons, ih y]

theorem edges_alternate (a : α) (l : List α) : (a :: edges a l).IsChain (· ≠ ·) := by
  induction l generalizing a with
  | nil => exact List.isChain_singleton a
  | cons y l ih =>
      rw [edges]
      by_cases hy : y = a
      · rw [if_pos hy]
        exact ih a
      · rw [if_neg hy]
        exact List.isChain_cons_cons.mpr ⟨Ne.symm hy, ih y⟩

end Lib
