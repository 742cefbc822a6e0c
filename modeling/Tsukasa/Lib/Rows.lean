import Mathlib.Data.List.Basic

/-!
# Rows one after another

A list that is put together from rows of one length, as a picture or a table is: entry `i` of row `k` is found at `k * n + i`.
-/

namespace Lib

variable {α β : Type*} {n : Nat}

theorem length_flatMap_rows {l : List α} {row : α → List β} (hrow : ∀ a ∈ l, (row a).length = n) : (l.flatMap row).length = l.length * n := by
  induction l with
  | nil => simp
  | cons a l ih =>
      rw [List.flatMap_cons, List.length_append, hrow a List.mem_cons_self, ih fun b hb => hrow b (List.mem_cons_of_mem a hb), List.length_cons,
        Nat.add_mul, Nat.one_mul, Nat.add_comm]

theorem getElem?_flatMap_rows {l : List α} {row : α → List β} (hrow : ∀ a ∈ l, (row a).length = n) (k : Nat) {i : Nat} (hi : i < n) :
    (l.flatMap row)[k * n + i]? = l[k]?.bind fun a => (row a)[i]? := by
  induction l generalizing k with
  | nil => simp
  | cons a l ih =>
      have hfirst := hrow a List.mem_cons_self
      rw [List.flatMap_cons]
      cases k with
      | zero => simp [List.getElem?_append_left (show i < (row a).length by omega)]
      | succ k =>
          have hindex : (k + 1) * n + i = (row a).length + (k * n + i) := by
            rw [hfirst, Nat.add_mul, Nat.one_mul]
            omega
          rw [hindex, List.getElem?_append_right (by omega), Nat.add_sub_cancel_left, ih (fun b hb => hrow b (List.mem_cons_of_mem a hb)),
            List.getElem?_cons_succ]

/-- The numbers below `n`, counted down. -/
def downFrom : Nat → List Nat
  | 0 => []
  | n + 1 => n :: downFrom n

@[simp] theorem length_downFrom (n : Nat) : (downFrom n).length = n := by
  induction n with
  | zero => rfl
  | succ n ih => simp [downFrom, ih]

theorem getElem?_downFrom {n k : Nat} (hk : k < n) : (downFrom n)[k]? = some (n - 1 - k) := by
  induction n generalizing k with
  | zero => omega
  | succ n ih =>
      cases k with
      | zero => simp [downFrom]
      | succ k =>
          rw [downFrom, List.getElem?_cons_succ, ih (by omega), Nat.add_sub_cancel]
          congr 1
          omega

end Lib
