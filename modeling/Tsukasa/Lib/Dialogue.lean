import Mathlib.Logic.Basic

/-!
# Dialogues

A program that asks questions and goes on by the answers. What it does is judged by a record that grows with each question and its answer, whatever the answers are.
-/

namespace Lib

inductive Dialogue (κ α ρ : Type*) where
  | done (r : ρ)
  | ask (question : κ) (next : α → Dialogue κ α ρ)

end Lib
