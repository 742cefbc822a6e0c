import Mathlib.Logic.Function.Basic

/-!
# First-in first-out queues with priorities

A family of queues, one for each of the priorities below `n`. A pop looks for the smallest priority whose queue has an element.
-/

namespace Lib.Fifo

variable {α : Type*}

/-- A new last element of one queue. -/
def push (q : Nat → List α) (pri : Nat) (x : α) : Nat → List α := Function.update q pri (q pri ++ [x])

def remove [DecidableEq α] (q : Nat → List α) (pri : Nat) (x : α) : Nat → List α := Function.update q pri ((q pri).erase x)

/-- The first element of the non-empty queue with the smallest number is taken out, if there is one. -/
def Pops (n : Nat) (q : Nat → List α) (x : Option α) (q' : Nat → List α) : Prop :=
  (∀ pri < n, q pri = []) ∧ x = none ∧ q' = q ∨
    ∃ pri < n, ∃ first rest, q pri = first :: rest ∧ (∀ p < pri, q p = []) ∧ x = some first ∧ q' = Function.update q pri rest

theorem Pops.unique {n : Nat} {q q' q'' : Nat → List α} {x : Option α} (h : Pops n q x q') (h' : Pops n q x q'') : q' = q'' := by
  rcases h with ⟨-, hnone, hq⟩ | ⟨pri, hpri, first, rest, hcons, hbelow, hsome, hq⟩
  · rcases h' with ⟨-, -, hq'⟩ | ⟨_, _, _, _, _, _, hsome, _⟩
    · rw [hq, hq']
    · rw [hnone] at hsome
      cases hsome
  · rcases h' with ⟨hempty, -, -⟩ | ⟨pri', hpri', first', rest', hcons', hbelow', -, hq'⟩
    · rw [hempty pri hpri] at hcons
      cases hcons
    · have hle : ∀ a b, (∀ p < a, q p = []) → q b ≠ [] → a ≤ b := fun a b hall hne => Nat.not_lt.mp fun hlt => hne (hall b hlt)
      have hsame : pri = pri' :=
        Nat.le_antisymm (hle pri pri' hbelow (hcons' ▸ List.cons_ne_nil _ _)) (hle pri' pri hbelow' (hcons ▸ List.cons_ne_nil _ _))
      rw [← hsame, hcons] at hcons'
      rw [hq, hq', ← hsame, (List.cons.inj hcons').2]

end Lib.Fifo
