import Mathlib.Logic.Function.Basic
import Mathlib.Data.List.Basic
import Mathlib.Data.Finset.Prod

/-!
# Linked lists in a node store

`IsList next head l` says that following `next` from `head` visits exactly the nodes of `l` and then ends. A node store that forms such a list has no cycle through it, and the moves on linked lists are facts about `l`.
-/

namespace Lib.Linked

variable {ν : Type*}

def IsList (next : ν → Option ν) : Option ν → List ν → Prop
  | none, [] => True
  | some x, y :: l => x = y ∧ IsList next (next x) l
  | none, _ :: _ => False
  | some _, [] => False

variable {next next' : ν → Option ν} {head : Option ν} {x y t : ν} {l l' before after : List ν}

@[simp] theorem isList_nil : IsList next head [] ↔ head = none := by
  cases head <;> simp [IsList]

@[simp] theorem isList_cons : IsList next head (x :: l) ↔ head = some x ∧ IsList next (next x) l := by
  cases head with
  | none => simp [IsList]
  | some y =>
      simp only [IsList, Option.some.injEq]
      constructor
      · rintro ⟨rfl, h⟩
        exact ⟨rfl, h⟩
      · rintro ⟨rfl, h⟩
        exact ⟨rfl, h⟩

theorem IsList.head_eq (h : IsList next head l) : head = l.head? := by
  cases l with
  | nil => exact isList_nil.mp h
  | cons x l => exact (isList_cons.mp h).1

/-- The list is determined by its head. -/
theorem IsList.unique (h : IsList next head l) (h' : IsList next head l') : l = l' := by
  induction l generalizing head l' with
  | nil =>
      rw [isList_nil] at h
      subst h
      cases l' with
      | nil => rfl
      | cons y l' => simp at h'
  | cons x l ih =>
      rw [isList_cons] at h
      obtain ⟨rfl, h⟩ := h
      cases l' with
      | nil => simp at h'
      | cons y l' =>
          rw [isList_cons, Option.some.injEq] at h'
          obtain ⟨rfl, h'⟩ := h'
          rw [ih h h']

/-- The list depends on the links of its own nodes only. -/
theorem IsList.congr (h : IsList next head l) (hsame : ∀ x ∈ l, next' x = next x) : IsList next' head l := by
  induction l generalizing head with
  | nil => exact isList_nil.mpr (isList_nil.mp h)
  | cons x l ih =>
      obtain ⟨hhead, hrest⟩ := isList_cons.mp h
      refine isList_cons.mpr ⟨hhead, ?_⟩
      rw [hsame x List.mem_cons_self]
      exact ih hrest fun y hy => hsame y (List.mem_cons_of_mem x hy)

theorem IsList.drop_before (h : IsList next head (before ++ l)) : ∃ head', IsList next head' l := by
  induction before generalizing head with
  | nil => exact ⟨head, h⟩
  | cons x before ih => exact ih (isList_cons.mp h).2

/-- A list that ends visits no node twice. -/
theorem IsList.nodup (h : IsList next head l) : l.Nodup := by
  induction l generalizing head with
  | nil => exact List.nodup_nil
  | cons x l ih =>
      obtain ⟨hhead, hrest⟩ := isList_cons.mp h
      refine List.nodup_cons.mpr ⟨fun hmem => ?_, ih hrest⟩
      -- the second visit would start the same list again, inside itself
      obtain ⟨before, after, rfl⟩ := List.append_of_mem hmem
      obtain ⟨head', htail⟩ := hrest.drop_before
      have hsame : IsList next head (x :: after) := by
        rw [isList_cons] at htail ⊢
        exact ⟨hhead, htail.2⟩
      have := congrArg List.length (h.unique hsame)
      simp only [List.length_cons, List.length_append] at this
      omega

/-- What holds of the head and of every node that a link leads to holds of the whole list. -/
theorem IsList.forall_mem {P : ν → Prop} (h : IsList next head l) (hhead : ∀ x, head = some x → P x) (hnext : ∀ x y, next x = some y → P y) :
    ∀ x ∈ l, P x := by
  induction l generalizing head with
  | nil => exact fun x hx => absurd hx List.not_mem_nil
  | cons x l ih =>
      obtain ⟨hx, hrest⟩ := isList_cons.mp h
      intro y hy
      rcases List.mem_cons.mp hy with rfl | hy
      · exact hhead y hx
      · exact ih hrest (hnext x) y hy

/-- A list that ends is no longer than there are nodes it may visit. -/
theorem IsList.length_le (h : IsList next head l) {s : Finset ν} (hs : ∀ x ∈ l, x ∈ s) : l.length ≤ s.card := by
  classical
  rw [← List.toFinset_card_of_nodup h.nodup]
  apply Finset.card_le_card
  intro x hx
  exact hs x (List.mem_toFinset.mp hx)

theorem IsList.length_le_mul {next : Nat × Nat → Option (Nat × Nat)} {head : Option (Nat × Nat)} {l : List (Nat × Nat)} (h : IsList next head l)
    {m n : Nat} (hs : ∀ x ∈ l, x.1 < m ∧ x.2 < n) : l.length ≤ m * n := by
  have hmem : ∀ x ∈ l, x ∈ Finset.range m ×ˢ Finset.range n := by
    intro x hx
    exact Finset.mem_product.mpr ((hs x hx).imp Finset.mem_range.mpr Finset.mem_range.mpr)
  have hle := h.length_le hmem
  rwa [Finset.card_product, Finset.card_range, Finset.card_range] at hle

variable [DecidableEq ν]

/-- Appending a node behind the last one. -/
theorem IsList.push (h : IsList next head (l ++ [t])) (hx : x ∉ l ++ [t]) :
    IsList (Function.update (Function.update next x none) t (some x)) head (l ++ [t] ++ [x]) := by
  have hnodup := h.nodup
  induction l generalizing head with
  | nil =>
      obtain ⟨hhead, -⟩ := isList_cons.mp h
      have hne : x ≠ t := by simpa using hx
      simp [hhead, hne]
  | cons y l ih =>
      rw [List.cons_append, isList_cons] at h
      rw [List.cons_append, List.nodup_cons] at hnodup
      simp only [List.cons_append, List.mem_cons, not_or] at hx
      rw [List.cons_append, List.cons_append, isList_cons]
      have hyt : y ≠ t := fun heq => hnodup.1 (heq ▸ List.mem_append_right l List.mem_cons_self)
      rw [Function.update_of_ne hyt, Function.update_of_ne (Ne.symm hx.1)]
      exact ⟨h.1, ih h.2 hx.2 hnodup.2⟩

/-- Unlinking a node behind another one. -/
theorem IsList.remove (h : IsList next head (before ++ [y] ++ x :: after)) :
    IsList (Function.update next y (next x)) head (before ++ [y] ++ after) := by
  have hnodup := h.nodup
  induction before generalizing head with
  | nil =>
      simp only [List.nil_append, List.cons_append, isList_cons] at h ⊢
      simp only [List.nil_append, List.cons_append, List.nodup_cons, List.mem_cons, not_or] at hnodup
      refine ⟨h.1, ?_⟩
      rw [Function.update_self]
      refine h.2.2.congr fun z hz => Function.update_of_ne ?_ _ _
      rintro rfl
      exact hnodup.1.2 hz
  | cons z before ih =>
      simp only [List.cons_append, isList_cons] at h ⊢
      simp only [List.cons_append, List.nodup_cons] at hnodup
      have hzy : z ≠ y := by
        rintro rfl
        exact hnodup.1 (by simp)
      rw [Function.update_of_ne hzy]
      exact ⟨h.1, ih h.2 hnodup.2⟩

end Lib.Linked
