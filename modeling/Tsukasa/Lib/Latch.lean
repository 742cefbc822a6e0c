import Mathlib.Data.List.Induction

/-!
# Latches

A latch keeps the value of the last label that sets it. `f` says what a label sets the latch to, if anything.
-/

namespace Lib

variable {α β : Type*} {f : α → Option β} {b x : β} {l : List α}

def latch (f : α → Option β) (b : β) (l : List α) : β := l.foldl (fun b a => (f a).getD b) b

@[simp] theorem latch_nil (f : α → Option β) (b : β) : latch f b [] = b := rfl

@[simp] theorem latch_concat (f : α → Option β) (b : β) (l : List α) (a : α) : latch f b (l ++ [a]) = (f a).getD (latch f b l) := by
  rw [latch, List.foldl_append]
  rfl

/-- The last label that sets the latch has set it to `x`. -/
def LastSet (f : α → Option β) (x : β) (l : List α) : Prop := ∃ before a after, l = before ++ a :: after ∧ f a = some x ∧ ∀ a' ∈ after, f a' = none

theorem latch_of_unset (h : ∀ a ∈ l, f a = none) : latch f b l = b := by
  induction l using List.reverseRecOn with
  | nil => rfl
  | append_singleton l a ih =>
      rw [latch_concat, h a (by simp), Option.getD_none]
      exact ih fun a' ha' => h a' (by simp [ha'])

theorem latch_of_lastSet (h : LastSet f x l) : latch f b l = x := by
  obtain ⟨before, a, after, rfl, hset, hunset⟩ := h
  rw [latch, List.foldl_append, List.foldl_cons, hset]
  exact latch_of_unset hunset

theorem lastSet_or_unset (f : α → Option β) (l : List α) : (∃ x, LastSet f x l) ∨ ∀ a ∈ l, f a = none := by
  induction l using List.reverseRecOn with
  | nil => exact Or.inr fun a ha => absurd ha List.not_mem_nil
  | append_singleton l a ih =>
      cases hset : f a with
      | some x => exact Or.inl ⟨x, l, a, [], rfl, hset, fun a' ha' => absurd ha' List.not_mem_nil⟩
      | none =>
          have hlast : ∀ a' ∈ [a], f a' = none := by
            intro a' ha'
            rw [List.mem_singleton.mp ha']
            exact hset
          cases ih with
          | inl hold =>
              obtain ⟨x, before, b, after, rfl, hb, hunset⟩ := hold
              refine Or.inl ⟨x, before, b, after ++ [a], by simp, hb, fun a' ha' => ?_⟩
              cases List.mem_append.mp ha' with
              | inl hin => exact hunset a' hin
              | inr hin => exact hlast a' hin
          | inr hunset =>
              refine Or.inr fun a' ha' => ?_
              cases List.mem_append.mp ha' with
              | inl hin => exact hunset a' hin
              | inr hin => exact hlast a' hin

/-- What differs from the first value has been set. -/
theorem latch_eq_iff (hne : x ≠ b) : latch f b l = x ↔ LastSet f x l := by
  constructor
  · intro h
    cases lastSet_or_unset f l with
    | inl hset =>
        obtain ⟨y, hy⟩ := hset
        rw [latch_of_lastSet hy] at h
        rw [← h]
        exact hy
    | inr hunset =>
        rw [latch_of_unset hunset] at h
        exact absurd h.symm hne
  · exact latch_of_lastSet

end Lib
