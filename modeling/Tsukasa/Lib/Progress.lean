import Tsukasa.Lib.Run
import Mathlib.Data.List.Basic

/-!
# Bounded waiting

A rule for "something good happens soon" over runs. `Waits s n` says that in `s` at most `n` more steps of progress are waited for. Other steps may not make the wait longer, and a step of progress ends the wait or makes it shorter, so the wait is over when `n` steps of progress have been taken, wherever they stand in the run.
-/

namespace Lib

variable {σ α : Type*}

/-- The run takes a step of progress that leads to a state with `Goal`. -/
def Reaches (Goal : σ → Prop) (progress : α → Bool) (step : σ → α → σ) (s : σ) (labels : List α) : Prop :=
  ∃ before a after, labels = before ++ a :: after ∧ progress a = true ∧ Goal (step (run step s before) a)

theorem Reaches.cons {Goal : σ → Prop} {progress : α → Bool} {step : σ → α → σ} {s : σ} {a : α} {labels : List α}
    (h : Reaches Goal progress step (step s a) labels) : Reaches Goal progress step s (a :: labels) := by
  obtain ⟨before, b, after, hlabels, hprogress, hgoal⟩ := h
  exact ⟨a :: before, b, after, by rw [hlabels, List.cons_append], hprogress, hgoal⟩

/-- A wait of at most `n` steps of progress ends in a run that takes as many. -/
theorem reaches_of_waits (Waits : σ → Nat → Prop) {ok : σ → α → Prop} {step : σ → α → σ} {Goal : σ → Prop} {progress : α → Bool}
    (hpos : ∀ s n, Waits s n → 0 < n)
    (hquiet : ∀ s n a, Waits s n → ok s a → progress a = false → Waits (step s a) n)
    (hprogress : ∀ s n a, Waits s n → ok s a → progress a = true → Goal (step s a) ∨ ∃ m < n, Waits (step s a) m)
    {labels : List α} {s : σ} {n : Nat} (hwaits : Waits s n) (hallowed : Allowed ok step s labels) (henough : n ≤ labels.countP progress) :
    Reaches Goal progress step s labels := by
  induction labels generalizing s n with
  | nil =>
      have hzero := hpos s n hwaits
      rw [List.countP_nil] at henough
      omega
  | cons a labels ih =>
      cases hkind : progress a with
      | false =>
          rw [List.countP_cons_of_neg (by simp [hkind])] at henough
          exact (ih (hquiet s n a hwaits hallowed.1 hkind) hallowed.2 henough).cons
      | true =>
          rw [List.countP_cons_of_pos hkind] at henough
          cases hprogress s n a hwaits hallowed.1 hkind with
          | inl hgoal => exact ⟨[], a, labels, rfl, hkind, hgoal⟩
          | inr hless =>
              obtain ⟨m, hm, hwaits'⟩ := hless
              exact (ih hwaits' hallowed.2 (by omega)).cons

end Lib
