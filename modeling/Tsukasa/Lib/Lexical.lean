import Mathlib.Data.List.Infix

/-!
# Lexical resolution of paths

A path is a list of characters, split at a separator into parts. Resolution reads the parts from left to right onto a stack: an empty part and a single dot are dropped, two dots take the top off, and at the bottom they do nothing. Nothing here knows a length limit, so this is what a bounded implementation is compared with.
-/

namespace Lib.Lexical

variable {α : Type*} [DecidableEq α] {sep dot : α}

/-- What one part does to the stack of parts. -/
def push (dot : α) (stack : List (List α)) (part : List α) : List (List α) :=
  if part = [] ∨ part = [dot] then stack else if part = [dot, dot] then stack.dropLast else stack ++ [part]

/-- The parts that a path comes to. -/
def resolve (sep dot : α) (path : List α) : List (List α) := (path.splitOn sep).foldl (push dot) []

/-- The absolute path with these parts. -/
def render (sep : α) (parts : List (List α)) : List α := if parts = [] then [sep] else parts.flatMap (sep :: ·)

/-- A part that stays on the stack. -/
structure Plain (sep dot : α) (part : List α) : Prop where
  ne_nil : part ≠ []
  ne_dot : part ≠ [dot]
  ne_dots : part ≠ [dot, dot]
  free : sep ∉ part

theorem plain_of_push {stack : List (List α)} {part : List α} (hstack : ∀ p ∈ stack, Plain sep dot p) (hpart : sep ∉ part) :
    ∀ p ∈ push dot stack part, Plain sep dot p := by
  intro p hp
  rw [push] at hp
  split at hp
  · exact hstack p hp
  rename_i hkept
  split at hp
  · exact hstack p (List.mem_of_mem_dropLast hp)
  rename_i hdots
  rcases List.mem_append.mp hp with hp | hp
  · exact hstack p hp
  · rw [List.mem_singleton.mp hp]
    exact ⟨fun hnil => hkept (Or.inl hnil), fun hdot => hkept (Or.inr hdot), hdots, hpart⟩

theorem plain_of_foldl {parts stack : List (List α)} (hstack : ∀ p ∈ stack, Plain sep dot p) (hparts : ∀ p ∈ parts, sep ∉ p) :
    ∀ p ∈ parts.foldl (push dot) stack, Plain sep dot p := by
  induction parts generalizing stack with
  | nil => exact hstack
  | cons part parts ih =>
      exact ih (plain_of_push hstack (hparts part List.mem_cons_self)) fun p hp => hparts p (List.mem_cons_of_mem part hp)

/-- No part contains the separator. -/
theorem sep_not_mem_splitOn (path : List α) : ∀ p ∈ path.splitOn sep, sep ∉ p := by
  induction path with
  | nil => simp
  | cons c path ih =>
      intro p hp
      rw [List.splitOn_cons_eq_if_modifyHead] at hp
      obtain ⟨first, rest, hsplit⟩ := List.exists_cons_of_ne_nil (List.splitOn_ne_nil sep path)
      rw [hsplit] at hp ih
      by_cases hc : c = sep
      · rw [if_pos (by simpa using hc)] at hp
        rcases List.mem_cons.mp hp with rfl | hp
        · exact List.not_mem_nil
        · exact ih p hp
      · rw [if_neg (by simpa using hc), List.modifyHead_cons] at hp
        rcases List.mem_cons.mp hp with rfl | hp
        · rw [List.mem_cons, not_or]
          exact ⟨Ne.symm hc, ih first List.mem_cons_self⟩
        · exact ih p (List.mem_cons_of_mem first hp)

theorem resolve_plain (path : List α) : ∀ p ∈ resolve sep dot path, Plain sep dot p :=
  plain_of_foldl (fun _ hp => absurd hp List.not_mem_nil) (sep_not_mem_splitOn path)

/-- The parts of a rendered path. -/
theorem splitOn_render {parts : List (List α)} (h : ∀ p ∈ parts, sep ∉ p) (hne : parts ≠ []) :
    (render sep parts).splitOn sep = [] :: parts := by
  rw [render, if_neg hne]
  clear hne
  induction parts with
  | nil => rfl
  | cons part parts ih =>
      have hpart := h part List.mem_cons_self
      have hrest := ih fun p hp => h p (List.mem_cons_of_mem part hp)
      cases parts with
      | nil => simp [List.splitOn_cons_eq_if_modifyHead, List.splitOn_eq_singleton hpart]
      | cons next parts =>
          rw [List.flatMap_cons, List.cons_append, List.splitOn_cons_eq_if_modifyHead, if_pos (by simp), List.flatMap_cons,
            List.cons_append, List.splitOn_append_cons_self_of_not_mem hpart]
          rw [List.flatMap_cons, List.cons_append, List.splitOn_cons_eq_if_modifyHead, if_pos (by simp), List.cons.injEq] at hrest
          rw [hrest.2]

end Lib.Lexical
