import Mathlib.Logic.Function.Basic
import Mathlib.Data.List.Basic
import Mathlib.Data.Nat.ModEq

/-!
# Ring buffers

The queue a ring holds: `size` cells from `start` on, modulo the capacity. Taking the first cell and filling the next free one are the two moves of a queue; a ring may also change its last cell and close the gap of a cell taken from the middle.
-/

namespace Lib.Ring

variable {α : Type*} {cap start size : Nat} {data : Nat → α}

/-- The cells in use, oldest first. -/
def contents (cap : Nat) (data : Nat → α) (start size : Nat) : List α :=
  (List.range size).map fun i => data ((start + i) % cap)

@[simp] theorem contents_zero (cap : Nat) (data : Nat → α) (start : Nat) : contents cap data start 0 = [] := rfl

@[simp] theorem length_contents (cap : Nat) (data : Nat → α) (start size : Nat) :
    (contents cap data start size).length = size := by
  simp [contents]

/-- Taking the first cell leaves the rest. -/
theorem contents_succ (hstart : start < cap) :
    contents cap data start (size + 1) = data start :: contents cap data ((start + 1) % cap) size := by
  simp only [contents, List.range_succ_eq_map, List.map_cons, List.map_map, Nat.add_zero, Nat.mod_eq_of_lt hstart]
  congr 1
  apply List.map_congr_left
  intro i _
  simp only [Function.comp_apply]
  congr 1
  rw [Nat.mod_add_mod]
  congr 1
  omega

/-- Two offsets below the capacity name different cells. -/
theorem cell_inj {i j : Nat} (hi : i < cap) (hj : j < cap) (h : (start + i) % cap = (start + j) % cap) : i = j :=
  (Nat.ModEq.add_left_cancel' start h).eq_of_lt_of_lt hi hj

/-- Filling the next free cell appends to the queue. -/
theorem contents_push (hroom : size < cap) (x : α) :
    contents cap (Function.update data ((start + size) % cap) x) start (size + 1) = contents cap data start size ++ [x] := by
  simp only [contents, List.range_succ, List.map_append, List.map_cons, List.map_nil, Function.update_self]
  congr 1
  apply List.map_congr_left
  intro i hi
  have hlt : i < size := List.mem_range.mp hi
  exact Function.update_of_ne (fun heq => absurd (cell_inj (hlt.trans hroom) hroom heq) (Nat.ne_of_lt hlt)) _ _

theorem contents_congr {data' : Nat → α} {start' : Nat} (h : ∀ i < size, data' ((start' + i) % cap) = data ((start + i) % cap)) :
    contents cap data' start' size = contents cap data start size :=
  List.map_congr_left fun i hi => h i (List.mem_range.mp hi)

theorem contents_append (cap : Nat) (data : Nat → α) (start size : Nat) :
    contents cap data start (size + 1) = contents cap data start size ++ [data ((start + size) % cap)] := by
  simp only [contents, List.range_succ, List.map_append, List.map_cons, List.map_nil]

/-- Changing the last cell changes the last one of the queue. -/
theorem contents_update_last (hroom : size < cap) (x : α) :
    contents cap (Function.update data ((start + size) % cap) x) start (size + 1) = (contents cap data start (size + 1)).dropLast ++ [x] := by
  rw [contents_push hroom, contents_append, List.dropLast_concat]

@[simp] theorem getElem_contents {i : Nat} (hi : i < (contents cap data start size).length) :
    (contents cap data start size)[i] = data ((start + i) % cap) := by
  simp [contents]

/-- The cells behind the gap have moved up by one. -/
theorem contents_eraseIdx {data' : Nat → α} {gap : Nat} (hgap : gap ≤ size) (hbefore : ∀ i < gap, data' ((start + i) % cap) = data ((start + i) % cap))
    (hbehind : ∀ i, gap ≤ i → i < size → data' ((start + i) % cap) = data ((start + (i + 1)) % cap)) :
    contents cap data' start size = (contents cap data start (size + 1)).eraseIdx gap := by
  apply List.ext_getElem
  · rw [List.length_eraseIdx, length_contents, length_contents, if_pos (Nat.lt_succ_of_le hgap)]
    rfl
  · intro i hi hi'
    rw [length_contents] at hi
    rw [List.getElem_eraseIdx]
    split
    · rename_i hlt
      rw [getElem_contents, getElem_contents, hbefore i hlt]
    · rename_i hge
      rw [getElem_contents, getElem_contents, hbehind i (Nat.le_of_not_lt hge) hi]

end Lib.Ring
