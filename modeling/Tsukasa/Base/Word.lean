import Mathlib.Algebra.Group.Int.Defs
import Mathlib.Algebra.Group.Nat.Defs

/-!
# Machine words

Unsigned words are natural numbers, and an operation that may leave its width is written with the wrap it has in the source.
-/

namespace Tsukasa

def wrap16 (n : Nat) : Nat := n % 2 ^ 16

def wrap32 (n : Nat) : Nat := n % 2 ^ 32

def wrap64 (n : Nat) : Nat := n % 2 ^ 64

/-- The `int` a cast gives. -/
def toInt32 (n : Nat) : Int := if wrap32 n < 2 ^ 31 then wrap32 n else wrap32 n - 2 ^ 32

/-- The value of an `int` sum. -/
def int32 (x : Int) : Int := x.bmod (2 ^ 32)

/-- A property of bytes is checked byte by byte. -/
theorem forall_byte {P : UInt8 → Prop} (h : ∀ n < 256, P (UInt8.ofNat n)) (c : UInt8) : P c := by
  have hc := h c.toNat (UInt8.toNat_lt c)
  rwa [UInt8.ofNat_toNat] at hc

theorem wrap32_lt (n : Nat) : wrap32 n < 2 ^ 32 := Nat.mod_lt _ (by decide)

theorem wrap64_lt (n : Nat) : wrap64 n < 2 ^ 64 := Nat.mod_lt _ (by decide)

theorem wrap32_of_lt {n : Nat} (h : n < 2 ^ 32) : wrap32 n = n := Nat.mod_eq_of_lt h

theorem toInt32_eq_self {n : Nat} : toInt32 n = n ↔ n < 2 ^ 31 := by
  have hlt := wrap32_lt n
  have hle : wrap32 n ≤ n := Nat.mod_le n _
  have hsmall : n < 2 ^ 31 → wrap32 n = n := fun h => wrap32_of_lt (by omega)
  rw [toInt32]
  split <;> omega

theorem toInt32_bounds (n : Nat) : -2 ^ 31 ≤ toInt32 n ∧ toInt32 n < 2 ^ 31 := by
  rw [toInt32, wrap32]
  split <;> omega

theorem wrap64_of_lt {n : Nat} (h : n < 2 ^ 64) : wrap64 n = n := Nat.mod_eq_of_lt h

theorem int32_eq_self {v : Int} (hlow : -2 ^ 31 ≤ v) (hhigh : v < 2 ^ 31) : int32 v = v := by
  rw [int32, Int.bmod_eq_of_le] <;> omega

theorem int32_add_int32 (a b : Int) : int32 (a + int32 b) = int32 (a + b) := Int.add_bmod_bmod

theorem int32_int32_add (a b : Int) : int32 (int32 a + b) = int32 (a + b) := Int.bmod_add_bmod

theorem int32_int32_mul (a b : Int) : int32 (int32 a * b) = int32 (a * b) := Int.bmod_mul_bmod

end Tsukasa
