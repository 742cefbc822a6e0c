import Tsukasa.Lib.Bytes
import Mathlib.Logic.Function.Basic

/-!
# Packed twelve-bit entries

A table of twelve-bit entries in a byte memory, two entries in three bytes. An even entry has the first byte and the low half of the second, an odd one the high half of the second and the third. A write to one entry leaves its neighbour in the shared byte alone.
-/

namespace Lib.Memory

/-- The byte at which entry `c` of the table at `base` starts. -/
def at12 (base c : Nat) : Nat := base + c * 3 / 2

def get12 (m : Memory) (base c : Nat) : Nat :=
  let word := (m (at12 base c)).toNat + 256 * (m (at12 base c + 1)).toNat
  if c % 2 = 1 then word / 16 else word % 4096

def set12 (m : Memory) (base c val : Nat) : Memory :=
  let low := if c % 2 = 1 then (m (at12 base c)).toNat % 16 + val % 16 * 16 else val % 256
  let high := if c % 2 = 1 then val / 16 else (m (at12 base c + 1)).toNat / 16 * 16 + val / 256 % 16
  Function.update (Function.update m (at12 base c) (UInt8.ofNat low)) (at12 base c + 1) (UInt8.ofNat high)

variable {m : Memory} {base c c' val : Nat}

theorem set12_apply_of_outside {x : Nat} (h : x < at12 base c ∨ at12 base c + 2 ≤ x) : set12 m base c val x = m x := by
  rw [set12, Function.update_of_ne (by omega), Function.update_of_ne (by omega)]

theorem set12_apply_low (m : Memory) (base c val : Nat) :
    (set12 m base c val (at12 base c)).toNat =
      if c % 2 = 1 then (m (at12 base c)).toNat % 16 + val % 16 * 16 else val % 256 := by
  rw [set12, Function.update_of_ne (by omega), Function.update_self, UInt8.toNat_ofNat']
  split <;> omega

theorem set12_apply_high (m : Memory) (base c : Nat) {val : Nat} (hval : val < 4096) :
    (set12 m base c val (at12 base c + 1)).toNat =
      if c % 2 = 1 then val / 16 else (m (at12 base c + 1)).toNat / 16 * 16 + val / 256 % 16 := by
  have hhigh := (m (at12 base c + 1)).toNat_lt
  rw [set12, Function.update_self, UInt8.toNat_ofNat']
  split <;> omega

theorem get12_set12_self (m : Memory) (base c : Nat) {val : Nat} (hval : val < 4096) : get12 (set12 m base c val) base c = val := by
  have hlow := (m (at12 base c)).toNat_lt
  simp only [get12, set12_apply_low, set12_apply_high m base c hval]
  split <;> omega

theorem get12_congr {m' : Memory} (hlow : m' (at12 base c) = m (at12 base c)) (hhigh : m' (at12 base c + 1) = m (at12 base c + 1)) :
    get12 m' base c = get12 m base c := by
  rw [get12, get12, hlow, hhigh]

/-- A write leaves every other entry, also the one that shares a byte with it. -/
theorem get12_set12_of_ne (m : Memory) (base : Nat) {val : Nat} (hval : val < 4096) (hne : c' ≠ c) :
    get12 (set12 m base c val) base c' = get12 m base c' := by
  by_cases hnext : c' = c + 1 ∧ c % 2 = 0
  · -- the entry above an even one: its first byte is the second byte of that
    obtain ⟨rfl, heven⟩ := hnext
    have hat : at12 base (c + 1) = at12 base c + 1 := by
      rw [at12, at12]
      omega
    have hbyte := set12_apply_high m base c hval
    rw [if_neg (by omega)] at hbyte
    have hold := (m (at12 base c + 1)).toNat_lt
    simp only [get12, hat, hbyte, if_pos (show (c + 1) % 2 = 1 by omega)]
    rw [set12_apply_of_outside (by omega)]
    omega
  · by_cases hprev : c = c' + 1 ∧ c' % 2 = 0
    · obtain ⟨rfl, heven⟩ := hprev
      have hat : at12 base (c' + 1) = at12 base c' + 1 := by
        rw [at12, at12]
        omega
      have hbyte := set12_apply_low m base (c' + 1) val
      rw [if_pos (by omega), hat] at hbyte
      have hold := (m (at12 base c' + 1)).toNat_lt
      simp only [get12, if_neg (show ¬ c' % 2 = 1 by omega), hbyte]
      rw [set12_apply_of_outside (by omega)]
      omega
    · have hfar : at12 base c' + 2 ≤ at12 base c ∨ at12 base c + 2 ≤ at12 base c' := by
        rw [at12, at12]
        omega
      apply get12_congr
      · exact set12_apply_of_outside (by omega)
      · exact set12_apply_of_outside (by omega)

/-- A write does the same to two tables that are the same, whatever their places. -/
theorem set12_copy {m' : Memory} {base' n i : Nat} (hsame : ∀ i < n, m' (base' + i) = m (base + i)) (hroom : c * 3 / 2 + 2 ≤ n) (hi : i < n) :
    set12 m' base' c val (base' + i) = set12 m base c val (base + i) := by
  have hlow := hsame (c * 3 / 2) (by omega)
  have hhigh := hsame (c * 3 / 2 + 1) (by omega)
  rw [← Nat.add_assoc, ← Nat.add_assoc] at hhigh
  simp only [set12, at12, hlow, hhigh]
  by_cases hsecond : i = c * 3 / 2 + 1
  · rw [hsecond, ← Nat.add_assoc, ← Nat.add_assoc, Function.update_self, Function.update_self]
  · have hsecond₁ : base' + i ≠ base' + c * 3 / 2 + 1 := by omega
    have hsecond₂ : base + i ≠ base + c * 3 / 2 + 1 := by omega
    rw [Function.update_of_ne hsecond₁, Function.update_of_ne hsecond₂]
    by_cases hfirst : i = c * 3 / 2
    · rw [hfirst, Function.update_self, Function.update_self]
    · have hfirst₁ : base' + i ≠ base' + c * 3 / 2 := by omega
      have hfirst₂ : base + i ≠ base + c * 3 / 2 := by omega
      rw [Function.update_of_ne hfirst₁, Function.update_of_ne hfirst₂]
      exact hsame i hi

end Lib.Memory
