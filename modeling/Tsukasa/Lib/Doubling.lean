import Mathlib.Algebra.Group.Nat.Defs
import Mathlib.Data.Nat.Find
import Mathlib.Data.Nat.Log
import Mathlib.Data.Option.Basic

/-!
# Doubling until there is room

The loop that doubles a capacity until it is at least what is needed, on words of `w` bits. The doubling wraps, so the loop may miss a large need on its way to zero and then never ends. It either ends within `w` doublings or not at all.
-/

namespace Lib

/-- The capacity after `k` doublings. -/
def doubled (w cap k : Nat) : Nat := cap * 2 ^ k % 2 ^ w

/-- The loop with at most `fuel` doublings; `none` when it would go on. -/
def doubleUntil (w need : Nat) : Nat → Nat → Option Nat
  | 0, cap => if cap < need then none else some cap
  | fuel + 1, cap => if cap < need then doubleUntil w need fuel (cap * 2 % 2 ^ w) else some cap

/-- The need is met after some doublings. -/
def DoublingEnds (w need cap : Nat) : Prop := ∃ k, need ≤ doubled w cap k

variable {w need fuel cap r k : Nat}

theorem doubled_zero (hcap : cap < 2 ^ w) : doubled w cap 0 = cap := by
  rw [doubled, Nat.pow_zero, Nat.mul_one, Nat.mod_eq_of_lt hcap]

theorem doubled_lt (w cap k : Nat) : doubled w cap k < 2 ^ w := Nat.mod_lt _ (Nat.two_pow_pos w)

theorem doubled_succ (w cap k : Nat) : doubled w (cap * 2 % 2 ^ w) k = doubled w cap (k + 1) := by
  rw [doubled, doubled, Nat.mod_mul_mod, Nat.mul_assoc, ← Nat.pow_succ']

theorem doubled_of_le (cap : Nat) (hk : w ≤ k) : doubled w cap k = 0 := by
  obtain ⟨d, rfl⟩ := Nat.exists_eq_add_of_le hk
  rw [doubled, Nat.pow_add, Nat.mul_left_comm, Nat.mul_mod_right]

/-- The loop ends at the first capacity that meets the need. -/
theorem doubleUntil_eq_some_iff (hcap : cap < 2 ^ w) : doubleUntil w need fuel cap = some r ↔
    ∃ k ≤ fuel, (∀ j < k, doubled w cap j < need) ∧ need ≤ doubled w cap k ∧ r = doubled w cap k := by
  induction fuel generalizing cap with
  | zero =>
      rw [doubleUntil, Option.ite_none_left_eq_some, Nat.not_lt]
      constructor
      · rintro ⟨hmet, hr⟩
        refine ⟨0, le_rfl, nofun, ?_, ?_⟩
        · rwa [doubled_zero hcap]
        · rw [doubled_zero hcap]
          exact (Option.some.inj hr).symm
      · rintro ⟨k, hk, -, hmet, rfl⟩
        rw [Nat.le_zero.mp hk, doubled_zero hcap] at hmet ⊢
        exact ⟨hmet, rfl⟩
  | succ fuel ih =>
      rw [doubleUntil]
      split
      · rename_i hlt
        rw [ih (Nat.mod_lt _ (Nat.two_pow_pos w))]
        constructor
        · rintro ⟨k, hk, hbefore, hmet, hr⟩
          rw [doubled_succ] at hmet hr
          refine ⟨k + 1, Nat.succ_le_succ hk, fun j hj => ?_, hmet, hr⟩
          cases j with
          | zero => rwa [doubled_zero hcap]
          | succ j =>
              rw [← doubled_succ]
              exact hbefore j (Nat.lt_of_succ_lt_succ hj)
        · rintro ⟨k, hk, hbefore, hmet, hr⟩
          cases k with
          | zero =>
              rw [doubled_zero hcap] at hmet
              omega
          | succ k =>
              refine ⟨k, Nat.le_of_succ_le_succ hk, fun j hj => ?_, ?_, ?_⟩
              · rw [doubled_succ]
                exact hbefore (j + 1) (Nat.succ_lt_succ hj)
              · rwa [doubled_succ]
              · rwa [doubled_succ]
      · rename_i hge
        constructor
        · intro hr
          refine ⟨0, Nat.zero_le _, nofun, ?_, ?_⟩
          · rw [doubled_zero hcap]
            omega
          · rw [doubled_zero hcap]
            exact (Option.some.inj hr).symm
        · rintro ⟨k, -, hbefore, -, rfl⟩
          cases k with
          | zero => rw [doubled_zero hcap]
          | succ k =>
              have hfirst := hbefore 0 (Nat.succ_pos k)
              rw [doubled_zero hcap] at hfirst
              omega

theorem doubleUntil_ge (hcap : cap < 2 ^ w) (h : doubleUntil w need fuel cap = some r) : need ≤ r ∧ r < 2 ^ w := by
  obtain ⟨k, -, -, hmet, rfl⟩ := (doubleUntil_eq_some_iff hcap).mp h
  exact ⟨hmet, doubled_lt w cap k⟩

/-- A loop that ends at all ends within `w` doublings. -/
theorem DoublingEnds.within (h : DoublingEnds w need cap) :
    ∃ k ≤ w, (∀ j < k, doubled w cap j < need) ∧ need ≤ doubled w cap k := by
  have hmet := Nat.find_spec h
  have hfirst : ∀ j < Nat.find h, doubled w cap j < need := fun j hj => Nat.not_le.mp (Nat.find_min h hj)
  refine ⟨Nat.find h, ?_, hfirst, hmet⟩
  by_contra hlong
  -- behind `w` doublings the capacity is zero, which meets no need that was not met at the start
  rw [doubled_of_le cap (by omega)] at hmet
  have hstart := hfirst 0 (by omega)
  omega

theorem doubleUntil_of_ends (hcap : cap < 2 ^ w) (h : DoublingEnds w need cap) (hfuel : w ≤ fuel) :
    ∃ k, doubleUntil w need fuel cap = some (doubled w cap k) ∧ (∀ j < k, doubled w cap j < need) ∧ need ≤ doubled w cap k := by
  obtain ⟨k, hk, hbefore, hmet⟩ := h.within
  exact ⟨k, (doubleUntil_eq_some_iff hcap).mpr ⟨k, hk.trans hfuel, hbefore, hmet, rfl⟩, hbefore, hmet⟩

theorem ends_of_doubleUntil (hcap : cap < 2 ^ w) (h : doubleUntil w need fuel cap = some r) : DoublingEnds w need cap := by
  obtain ⟨k, -, -, hmet, -⟩ := (doubleUntil_eq_some_iff hcap).mp h
  exact ⟨k, hmet⟩

/-- The capacity gets into the upper half of the words without wrapping, so a need of at most half of them is met. -/
theorem doublingEnds_of_le_half (hpos : 0 < cap) (hcap : cap < 2 ^ w) (hneed : 2 * need ≤ 2 ^ w) : DoublingEnds w need cap := by
  have hlog : Nat.log 2 cap < w := Nat.log_lt_of_lt_pow (Nat.pos_iff_ne_zero.mp hpos) hcap
  obtain ⟨k, hk⟩ := Nat.exists_eq_add_of_lt hlog
  have hlow := Nat.pow_log_le_self 2 (Nat.pos_iff_ne_zero.mp hpos)
  have hhigh := Nat.lt_pow_succ_log_self (by decide : 1 < 2) cap
  have hsplit : 2 ^ w = 2 ^ (Nat.log 2 cap + 1) * 2 ^ k := by rw [hk, Nat.add_right_comm, Nat.pow_add]
  have hhalf : 2 ^ w = 2 * (2 ^ Nat.log 2 cap * 2 ^ k) := by rw [hsplit, Nat.pow_succ', Nat.mul_assoc]
  have hfits : cap * 2 ^ k < 2 ^ w := by
    rw [hsplit]
    exact Nat.mul_lt_mul_of_pos_right hhigh (Nat.two_pow_pos k)
  have hreach : 2 ^ Nat.log 2 cap * 2 ^ k ≤ cap * 2 ^ k := Nat.mul_le_mul_right _ hlow
  refine ⟨k, ?_⟩
  rw [doubled, Nat.mod_eq_of_lt hfits]
  omega

/-- From a power of two only needs up to half of the words are ever met. -/
theorem doublingEnds_pow_iff {m : Nat} (hneed : 0 < need) : DoublingEnds w need (2 ^ m % 2 ^ w) ↔ m < w ∧ 2 * need ≤ 2 ^ w := by
  constructor
  · rintro ⟨k, hmet⟩
    rw [doubled, Nat.mod_mul_mod, ← Nat.pow_add] at hmet
    have hshort : m + k < w := by
      by_contra hlong
      rw [Nat.mod_eq_zero_of_dvd (Nat.pow_dvd_pow 2 (Nat.not_lt.mp hlong))] at hmet
      omega
    rw [Nat.mod_eq_of_lt (Nat.pow_lt_pow_right (by decide) hshort)] at hmet
    refine ⟨by omega, (Nat.mul_le_mul_left 2 hmet).trans ?_⟩
    rw [← Nat.pow_succ']
    exact Nat.pow_le_pow_right (by decide) hshort
  · rintro ⟨hm, hhalf⟩
    have hlt : 2 ^ m < 2 ^ w := Nat.pow_lt_pow_right (by decide) hm
    rw [Nat.mod_eq_of_lt hlt]
    exact doublingEnds_of_le_half (Nat.two_pow_pos m) hlt hhalf

end Lib
