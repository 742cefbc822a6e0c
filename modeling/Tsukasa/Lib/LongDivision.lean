import Mathlib.Algebra.Group.Nat.Defs
import Mathlib.Algebra.GroupWithZero.Nat
import Mathlib.Data.Int.Basic

/-!
# Long division by shifting and subtracting

The divisor is shifted up until the dividend is less than twice the shifted one. Each round then subtracts it where it fits, which gives one bit of the quotient, and shifts it back down.
-/

namespace Lib

variable {n d k num den q : Nat}

/-- The state of a division of `n` by `d` with the shift `k`: `q` counts doubled shifted divisors, and `num` is left. -/
structure Dividing (n d k num den q : Nat) : Prop where
  shifted : den = d * 2 ^ k
  small : num < 2 * den
  split : n = q * (2 * den) + num

namespace Dividing

/-- Before the first round. -/
theorem start (hshifted : den = d * 2 ^ k) (hsmall : n < 2 * den) : Dividing n d k n den 0 := ⟨hshifted, hsmall, by omega⟩

/-- What a round leaves, in the units that the next one has. -/
theorem subtract_split (h : Dividing n d k num den q) (hle : den ≤ num) : n = (2 * q + 1) * den + (num - den) ∧ num - den < den := by
  obtain ⟨-, hsmall, hsplit⟩ := h
  rw [← Nat.mul_assoc, Nat.mul_comm q 2] at hsplit
  rw [Nat.add_mul, Nat.one_mul]
  omega

theorem keep_split (h : Dividing n d k num den q) (hlt : num < den) : n = 2 * q * den + num ∧ num < den := by
  have hsplit := h.split
  rw [← Nat.mul_assoc, Nat.mul_comm q 2] at hsplit
  exact ⟨hsplit, hlt⟩

theorem half (h : Dividing n d (k + 1) num den q) : 2 * (den / 2) = den ∧ den / 2 = d * 2 ^ k := by
  have hshifted := h.shifted
  rw [Nat.pow_succ, ← Nat.mul_assoc] at hshifted
  omega

/-- A round in which the divisor fits. -/
theorem subtract (h : Dividing n d (k + 1) num den q) (hle : den ≤ num) : Dividing n d k (num - den) (den / 2) (2 * q + 1) := by
  obtain ⟨hdouble, hhalf⟩ := h.half
  obtain ⟨hsplit, hlt⟩ := h.subtract_split hle
  refine ⟨hhalf, ?_, ?_⟩
  · rwa [hdouble]
  · rwa [hdouble]

/-- A round in which it does not. -/
theorem keep (h : Dividing n d (k + 1) num den q) (hlt : num < den) : Dividing n d k num (den / 2) (2 * q) := by
  obtain ⟨hdouble, hhalf⟩ := h.half
  obtain ⟨hsplit, hlt⟩ := h.keep_split hlt
  refine ⟨hhalf, ?_, ?_⟩
  · rwa [hdouble]
  · rwa [hdouble]

/-- The quotient has no more bits than the dividend. -/
theorem double_le (h : Dividing n d k num den q) (hden : 0 < den) : 2 * q ≤ n := by
  have hle : q * 2 ≤ q * (2 * den) := Nat.mul_le_mul_left q (by omega)
  have hsplit := h.split
  omega

/-- The last round divides by the divisor itself. -/
theorem unshifted (h : Dividing n d 0 num den q) : den = d := by
  rw [h.shifted, Nat.pow_zero, Nat.mul_one]

end Dividing

/-! ### Signs -/

/-- A division of integers that rounds toward zero, by magnitudes. -/
theorem tdiv_signs (a b : Int) : a.tdiv b = if (a < 0) ≠ (b < 0) then -((a.natAbs / b.natAbs : Nat) : Int) else (a.natAbs / b.natAbs : Nat) := by
  rw [Int.ofNat_tdiv]
  by_cases ha : a < 0
  · have hneg : (a.natAbs : Int) = -a := by omega
    by_cases hb : b < 0
    · have hneg' : (b.natAbs : Int) = -b := by omega
      simp [ha, hb, hneg, hneg']
    · have hpos' : (b.natAbs : Int) = b := by omega
      simp [ha, hb, hneg, hpos']
  · have hpos : (a.natAbs : Int) = a := by omega
    by_cases hb : b < 0
    · have hneg' : (b.natAbs : Int) = -b := by omega
      simp [ha, hb, hpos, hneg']
    · have hpos' : (b.natAbs : Int) = b := by omega
      simp [ha, hb, hpos, hpos']

/-- The remainder has the sign of the dividend. -/
theorem tmod_signs (a b : Int) : a.tmod b = if a < 0 then -((a.natAbs % b.natAbs : Nat) : Int) else (a.natAbs % b.natAbs : Nat) := by
  have hmod : a.tmod b = a.tmod b.natAbs := by
    obtain hb | hb := Int.natAbs_eq b
    · rw [← hb]
    · rw [← Int.tmod_neg a b.natAbs, ← hb]
  rw [hmod, Int.ofNat_tmod]
  by_cases ha : a < 0
  · have hneg : (a.natAbs : Int) = -a := by omega
    rw [if_pos ha, hneg, Int.neg_tmod, Int.neg_neg]
  · have hpos : (a.natAbs : Int) = a := by omega
    rw [if_neg ha, hpos]

end Lib
