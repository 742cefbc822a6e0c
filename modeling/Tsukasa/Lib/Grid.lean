import Mathlib.Algebra.Order.Ring.Int

/-!
# Places in rows

Places are numbered row after row, and the numbers are kept modulo `M`. They come out below `m`, as long as no step from a place to the next one leads over the numbers from `m` to `M`.
-/

namespace Lib

variable {M m a b s w r r₀ r₁ c c₀ c₁ : Int}

/-- The number of the place in row `r` and column `c`, where a row has `w` places. -/
def gridNumber (w r c : Int) : Int := r * w + c

theorem gridNumber_nonneg (hw : 0 ≤ w) (hr : 0 ≤ r) (hc : 0 ≤ c) : 0 ≤ gridNumber w r c := Int.add_nonneg (Int.mul_nonneg hr hw) hc

/-- A place of a grid of `n` rows has one of the first `w * n` numbers. -/
theorem gridNumber_lt {n : Int} (hw : 0 ≤ w) (hr : r < n) (hc : c < w) : gridNumber w r c < w * n := by
  have hrow : (r + 1) * w ≤ n * w := Int.mul_le_mul_of_nonneg_right hr hw
  rw [Int.add_mul, Int.one_mul] at hrow
  rw [gridNumber, Int.mul_comm w n]
  omega

theorem gridNumber_mono (hw : 0 ≤ w) (hr : r₀ ≤ r₁) (hc : c₀ ≤ c₁) : gridNumber w r₀ c₀ ≤ gridNumber w r₁ c₁ :=
  Int.add_le_add (Int.mul_le_mul_of_nonneg_right hr hw) hc

/-- A step that does not lead over the gap stays in its block. -/
theorem ediv_eq_of_step (ha : a % M < m) (hs : 0 ≤ s) (hgap : s ≤ M - m) (hM : 0 < M) : (a + s) / M = a / M := by
  have hdiv := Int.emod_add_mul_ediv a M
  have hnonneg := Int.emod_nonneg a (Int.ne_of_gt hM)
  have hsplit : a + s = (a % M + s) + M * (a / M) := by omega
  rw [hsplit, Int.add_mul_ediv_left _ _ (Int.ne_of_gt hM), Int.ediv_eq_zero_of_lt (by omega) (by omega), Int.zero_add]

theorem ediv_eq_of_steps (n : Nat) (hs : 0 ≤ s) (hgap : s ≤ M - m) (hM : 0 < M) (h : ∀ k : Nat, k < n → (a + k * s) % M < m) :
    (a + n * s) / M = a / M := by
  induction n with
  | zero => simp
  | succ n ih =>
      have hlast := ediv_eq_of_step (h n (Nat.lt_succ_self n)) hs hgap hM
      rw [← ih fun k hk => h k (Nat.lt_succ_of_lt hk), ← hlast, Int.natCast_succ, Int.add_mul, Int.one_mul, Int.add_assoc]

/-- All places from one corner to the other have numbers below `m` exactly when the two corners lie in one block and the last one has. -/
theorem gridNumber_mod_lt_iff (hM : 0 < M) (hm : m < M) (hw : 0 ≤ w) (hgap : w ≤ M - m) (hr : r₀ ≤ r₁) (hc : c₀ ≤ c₁) :
    (∀ r c, r₀ ≤ r → r ≤ r₁ → c₀ ≤ c → c ≤ c₁ → gridNumber w r c % M < m) ↔
      gridNumber w r₀ c₀ / M = gridNumber w r₁ c₁ / M ∧ gridNumber w r₁ c₁ % M < m := by
  constructor
  · intro h
    refine ⟨?_, h r₁ c₁ hr (Int.le_refl _) hc (Int.le_refl _)⟩
    -- along the first row, then down the last column
    obtain ⟨cols, hcols⟩ := Int.le.dest hc
    obtain ⟨rows, hrows⟩ := Int.le.dest hr
    have hright := ediv_eq_of_steps (a := gridNumber w r₀ c₀) (s := 1) cols (by decide) (show 1 ≤ M - m by omega) hM fun k hk => by
      have hplace := h r₀ (c₀ + k) (Int.le_refl _) hr (by omega) (by omega)
      rwa [gridNumber, ← Int.add_assoc, ← gridNumber, ← Int.mul_one (k : Int)] at hplace
    have hdown := ediv_eq_of_steps (a := gridNumber w r₀ c₁) rows hw hgap hM fun k hk => by
      have hplace := h (r₀ + k) c₁ (by omega) (by omega) hc (Int.le_refl _)
      rwa [gridNumber, Int.add_mul, Int.add_right_comm, ← gridNumber] at hplace
    have hcorner : gridNumber w r₀ c₀ + cols * 1 = gridNumber w r₀ c₁ := by
      rw [gridNumber, gridNumber, ← hcols, Int.mul_one, Int.add_assoc]
    have hlast : gridNumber w r₀ c₁ + rows * w = gridNumber w r₁ c₁ := by
      rw [gridNumber, gridNumber, ← hrows, Int.add_mul, Int.add_right_comm]
    rw [← hlast, hdown, ← hcorner, hright]
  · rintro ⟨hblock, hlast⟩ r c hr₀ hr₁ hc₀ hc₁
    have hlow := gridNumber_mono hw hr₀ hc₀
    have hhigh := gridNumber_mono hw hr₁ hc₁
    have hsame : gridNumber w r c / M = gridNumber w r₁ c₁ / M :=
      Int.le_antisymm (Int.ediv_le_ediv hM hhigh) (hblock ▸ Int.ediv_le_ediv hM hlow)
    have hdiv := Int.emod_add_mul_ediv (gridNumber w r c) M
    have hdiv' := Int.emod_add_mul_ediv (gridNumber w r₁ c₁) M
    rw [hsame] at hdiv
    omega

end Lib
