import Mathlib.Data.List.Basic

/-!
# Computations with a log

A computation that logs what it touches and may not come back. The log is kept either way, so that it says what happens up to the point where a computation gets stuck, and a prefix of an endless one is a computation too.
-/

namespace Lib

structure Traced (ι α : Type) where
  log : List ι
  result : Option α

namespace Traced

variable {ι α β : Type} {i : ι} {a : α} {x : Traced ι α} {f : α → Traced ι β} {p : ι → Prop}

instance : Monad (Traced ι) where
  pure a := ⟨[], some a⟩
  bind x f :=
    match x.result with
    | none => ⟨x.log, none⟩
    | some a => ⟨x.log ++ (f a).log, (f a).result⟩

/-- Touches these and does nothing else. -/
def touch (log : List ι) : Traced ι Unit := ⟨log, some ()⟩

/-- Does not come back. -/
def stuck : Traced ι α := ⟨[], none⟩

/-- Everything in the log satisfies `p`. -/
def All (p : ι → Prop) (x : Traced ι α) : Prop := ∀ i ∈ x.log, p i

theorem bind_eq : x >>= f = match x.result with
    | none => ⟨x.log, none⟩
    | some a => ⟨x.log ++ (f a).log, (f a).result⟩ := rfl

@[simp] theorem bind_result (x : Traced ι α) (f : α → Traced ι β) : (x >>= f).result = x.result.bind fun a => (f a).result := by
  rw [bind_eq]
  cases x.result with
  | none => rfl
  | some a => rfl

theorem bind_result_of (hx : x.result = some a) : (x >>= f).result = (f a).result := by
  rw [bind_result, hx, Option.bind_some]

/-- A check that gives up with `a`. -/
theorem result_check {c : Prop} [Decidable c] {b : α} (hx : ¬ c → x.result = some b) : (if c then pure a else x).result = some (if c then a else b) := by
  split
  · rfl
  · rename_i h
    exact hx h

theorem all_check {c : Prop} [Decidable c] : (if c then pure a else x).All p ↔ (¬ c → x.All p) := by
  split
  · rename_i h
    exact ⟨fun _ hc => absurd h hc, fun _ => fun _ hi => absurd hi List.not_mem_nil⟩
  · rename_i h
    exact ⟨fun hx _ => hx, fun hx => hx h⟩

theorem all_pure (a : α) : (pure a : Traced ι α).All p := fun _ hi => absurd hi List.not_mem_nil

theorem all_stuck : (stuck : Traced ι α).All p := fun _ hi => absurd hi List.not_mem_nil

theorem All.bind (hx : x.All p) (hf : ∀ a, x.result = some a → (f a).All p) : (x >>= f).All p := by
  intro i hi
  rw [bind_eq] at hi
  cases hr : x.result with
  | none =>
      rw [hr] at hi
      exact hx i hi
  | some a =>
      rw [hr] at hi
      rcases List.mem_append.mp hi with hi | hi
      · exact hx i hi
      · exact hf a hr i hi

theorem all_bind_iff (hx : x.result = some a) : (x >>= f).All p ↔ x.All p ∧ (f a).All p := by
  rw [bind_eq, hx]
  exact List.forall_mem_append

/-- What a computation touches stays touched, whatever comes behind it. -/
theorem mem_bind_left (hi : i ∈ x.log) : i ∈ (x >>= f).log := by
  rw [bind_eq]
  cases x.result with
  | none => exact hi
  | some a => exact List.mem_append_left _ hi

theorem mem_bind_right (hx : x.result = some a) (hi : i ∈ (f a).log) : i ∈ (x >>= f).log := by
  rw [bind_eq, hx]
  exact List.mem_append_right _ hi

/-! ### Enough fuel -/

/-- With enough fuel the computation comes back, with the same result from there on, and this satisfies `P`. -/
def Finishes (x : Nat → Traced ι α) (P : α → Prop) : Prop := ∃ N a, P a ∧ ∀ n, N ≤ n → (x n).result = some a

section finishes

variable {y z : Nat → Traced ι α} {h : Nat → α → Traced ι β} {P P' : α → Prop} {Q : β → Prop}

theorem Finishes.pure (ha : P a) : Finishes (fun _ => (Pure.pure a : Traced ι α)) P := ⟨0, a, ha, fun _ _ => rfl⟩

theorem Finishes.mono (hy : Finishes y P) (himp : ∀ a, P a → P' a) : Finishes y P' := by
  obtain ⟨N, a, ha, hresult⟩ := hy
  exact ⟨N, a, himp a ha, hresult⟩

theorem Finishes.bind (hy : Finishes y P) (hh : ∀ a, P a → Finishes (fun n => h n a) Q) : Finishes (fun n => y n >>= h n) Q := by
  obtain ⟨N, a, ha, hresult⟩ := hy
  obtain ⟨M, b, hb, hresult'⟩ := hh a ha
  refine ⟨max N M, b, hb, fun n hn => ?_⟩
  rw [bind_result, hresult n (by omega), Option.bind_some]
  exact hresult' n (by omega)

theorem Finishes.touch {log : List ι} (hy : Finishes y P) : Finishes (fun n => touch log >>= fun _ => y n) P := by
  obtain ⟨N, a, ha, hresult⟩ := hy
  exact ⟨N, a, ha, hresult⟩

/-- One round of a loop: with one more unit of fuel it gets to where `y` goes on. -/
theorem Finishes.round (hy : Finishes y P) (hround : ∀ n, (z (n + 1)).result = (y n).result) : Finishes z P := by
  obtain ⟨N, a, ha, hresult⟩ := hy
  refine ⟨N + 1, a, ha, fun n hn => ?_⟩
  obtain ⟨n, rfl⟩ := Nat.exists_eq_add_one_of_ne_zero (show n ≠ 0 by omega)
  rw [hround]
  exact hresult n (Nat.le_of_succ_le_succ hn)

end finishes

end Traced

end Lib
