import Tsukasa.Lib.LongDivision
import Mathlib.Algebra.Group.Int.Defs
import Mathlib.Data.Int.Basic

/-!
# Division of 64-bit words

`lib/compiler_rt.c`: the functions that a compiler calls for a division of 64-bit integers. A negation wraps.
-/

namespace Tsukasa

namespace CompilerRt

open Lib (Dividing)

/-- The loop that shifts the divisor up to the dividend. -/
def alignLoop (num : UInt64) : Nat → UInt64 → Nat → Option (UInt64 × Nat)
  | 0, _, _ => none
  | fuel + 1, den, shift => if den ≤ num >>> 1 then alignLoop num fuel (den <<< 1) (shift + 1) else some (den, shift)

/-- The loop down to the shift 0; the first argument is `shift + 1`. It leaves the quotient and the remainder. -/
def subtractLoop : Nat → UInt64 → UInt64 → UInt64 → UInt64 × UInt64
  | 0, num, _, q => (q, num)
  | shift + 1, num, den, q =>
      let q := q <<< 1
      if den ≤ num then subtractLoop shift (num - den) (den >>> 1) (q ||| 1) else subtractLoop shift num (den >>> 1) q

def udivmod64 (fuel : Nat) (num den : UInt64) : Option (UInt64 × UInt64) :=
  if den = 0 then some (0, 0)
  else if num < den then some (0, num)
  else (alignLoop num fuel den 0).map fun r => subtractLoop (r.2 + 1) num r.1 0

def udivmoddi4 (fuel : Nat) (num den : UInt64) : Option (UInt64 × UInt64) := udivmod64 fuel num den

def udivdi3 (fuel : Nat) (num den : UInt64) : Option UInt64 := (udivmod64 fuel num den).map Prod.fst

def umoddi3 (fuel : Nat) (num den : UInt64) : Option UInt64 := (udivmod64 fuel num den).map Prod.snd

def absS64ToU64 (v : Int64) : UInt64 := if 0 ≤ v then v.toUInt64 else ~~~v.toUInt64 + 1

def divdi3 (fuel : Nat) (num den : Int64) : Option Int64 :=
  (udivmod64 fuel (absS64ToU64 num) (absS64ToU64 den)).map fun r =>
    let q := r.1.toInt64
    if (num < 0) ≠ (den < 0) then -q else q

def moddi3 (fuel : Nat) (num den : Int64) : Option Int64 :=
  (udivmod64 fuel (absS64ToU64 num) (absS64ToU64 den)).map fun r => if num < 0 then -r.2.toInt64 else r.2.toInt64

variable {num den q x : UInt64} {fuel shift n d : Nat}

/-! ### Shifts by one bit -/

theorem toNat_double (h : 2 * x.toNat < 2 ^ 64) : (x <<< 1).toNat = 2 * x.toNat := by
  have hshift : (x <<< 1).toNat = x.toNat <<< 1 % 2 ^ 64 := UInt64.toNat_shiftLeft x 1
  rw [hshift, Nat.shiftLeft_eq, Nat.pow_one, Nat.mul_comm, Nat.mod_eq_of_lt h]

theorem toNat_half (x : UInt64) : (x >>> 1).toNat = x.toNat / 2 := UInt64.toNat_shiftRight x 1

theorem toNat_double_or (h : 2 * x.toNat < 2 ^ 64) : (x <<< 1 ||| 1).toNat = 2 * x.toNat + 1 := by
  rw [UInt64.toNat_or, toNat_double h]
  exact (Nat.two_pow_add_eq_or_of_lt (show 1 < 2 ^ 1 by decide) x.toNat).symm

/-! ### Unsigned words -/

/-- The shifts end below twice the dividend and do not overflow. -/
theorem alignLoop_spec (shift : Nat) (hle : den.toNat ≤ num.toNat) (hfuel : num.toNat < den.toNat * 2 ^ fuel) :
    ∃ aligned k, alignLoop num fuel den shift = some (aligned, shift + k) ∧ aligned.toNat = den.toNat * 2 ^ k ∧ num.toNat < 2 * aligned.toNat := by
  induction fuel generalizing den shift with
  | zero =>
      rw [Nat.pow_zero, Nat.mul_one] at hfuel
      omega
  | succ fuel ih =>
      have hnum := num.toNat_lt
      rw [alignLoop]
      by_cases hfits : den ≤ num >>> 1
      · rw [if_pos hfits]
        rw [UInt64.le_iff_toNat_le, toNat_half] at hfits
        have hdouble : (den <<< 1).toNat = 2 * den.toNat := toNat_double (by omega)
        have hrest : num.toNat < (den <<< 1).toNat * 2 ^ fuel := by
          rw [hdouble, Nat.mul_comm 2, Nat.mul_assoc, ← Nat.pow_succ']
          exact hfuel
        obtain ⟨aligned, k, hloop, haligned, hsmall⟩ := @ih (den <<< 1) (shift + 1) (by omega) hrest
        refine ⟨aligned, k + 1, ?_, ?_, hsmall⟩
        · rw [hloop, Nat.add_assoc, Nat.add_comm 1 k]
        · rw [haligned, hdouble, Nat.pow_succ', ← Nat.mul_assoc, Nat.mul_comm 2]
      · rw [if_neg hfits]
        rw [UInt64.le_iff_toNat_le, toNat_half] at hfits
        exact ⟨den, 0, rfl, by rw [Nat.pow_zero, Nat.mul_one], by omega⟩

/-- The quotient has room for another bit. -/
theorem toNat_quotient (hd : 0 < d) (hn : n < 2 ^ 64) (h : Dividing n d shift num.toNat den.toNat q.toNat) :
    (q <<< 1).toNat = 2 * q.toNat ∧ (q <<< 1 ||| 1).toNat = 2 * q.toNat + 1 := by
  have hden : 0 < den.toNat := by
    rw [h.shifted]
    exact Nat.mul_pos hd (Nat.two_pow_pos shift)
  have hroom : 2 * q.toNat < 2 ^ 64 := Nat.lt_of_le_of_lt (h.double_le hden) hn
  exact ⟨toNat_double hroom, toNat_double_or hroom⟩

/-- The loop over the shift is a long division. -/
theorem subtractLoop_spec (hd : 0 < d) (hn : n < 2 ^ 64) (h : Dividing n d shift num.toNat den.toNat q.toNat) :
    n = (subtractLoop (shift + 1) num den q).1.toNat * d + (subtractLoop (shift + 1) num den q).2.toNat ∧
      (subtractLoop (shift + 1) num den q).2.toNat < d := by
  induction shift generalizing num den q with
  | zero =>
      obtain ⟨hdouble, hbit⟩ := toNat_quotient hd hn h
      rw [subtractLoop, ← h.unshifted]
      by_cases hfits : den ≤ num
      · rw [if_pos hfits, subtractLoop, hbit, UInt64.toNat_sub_of_le num den hfits]
        exact h.subtract_split (UInt64.le_iff_toNat_le.mp hfits)
      · rw [if_neg hfits, subtractLoop, hdouble]
        exact h.keep_split (Nat.not_le.mp (mt UInt64.le_iff_toNat_le.mpr hfits))
  | succ shift ih =>
      obtain ⟨hdouble, hbit⟩ := toNat_quotient hd hn h
      rw [subtractLoop]
      by_cases hfits : den ≤ num
      · rw [if_pos hfits]
        apply ih
        rw [hbit, toNat_half, UInt64.toNat_sub_of_le num den hfits]
        exact h.subtract (UInt64.le_iff_toNat_le.mp hfits)
      · rw [if_neg hfits]
        apply ih
        rw [hdouble, toNat_half]
        exact h.keep (Nat.not_le.mp (mt UInt64.le_iff_toNat_le.mpr hfits))

theorem toNat_pos (h : x ≠ 0) : 0 < x.toNat := Nat.pos_of_ne_zero fun hzero => h (UInt64.toNat_inj.mp hzero)

/-- Both loops end, and leave the quotient and the remainder. -/
theorem udivmod64_spec (num : UInt64) (hden : den ≠ 0) (hfuel : 64 ≤ fuel) :
    udivmod64 fuel num den = some (num / den, num % den) := by
  have hpos := toNat_pos hden
  rw [udivmod64, if_neg hden]
  by_cases hlt : num < den
  · rw [if_pos hlt]
    have hsmall : num.toNat < den.toNat := UInt64.lt_iff_toNat_lt.mp hlt
    have hq : num / den = 0 := by
      apply UInt64.toNat_inj.mp
      rw [UInt64.toNat_div, Nat.div_eq_of_lt hsmall]
      rfl
    have hr : num % den = num := by
      apply UInt64.toNat_inj.mp
      rw [UInt64.toNat_mod, Nat.mod_eq_of_lt hsmall]
    rw [hq, hr]
  · rw [if_neg hlt]
    have hle : den.toNat ≤ num.toNat := Nat.not_lt.mp (mt UInt64.lt_iff_toNat_lt.mpr hlt)
    have hbound : num.toNat < den.toNat * 2 ^ fuel := by
      have hword : num.toNat < 2 ^ fuel := Nat.lt_of_lt_of_le num.toNat_lt (Nat.pow_le_pow_right (by decide) hfuel)
      exact Nat.lt_of_lt_of_le hword (Nat.le_mul_of_pos_left _ hpos)
    obtain ⟨aligned, k, hloop, haligned, htwice⟩ := alignLoop_spec 0 hle hbound
    have hstart : Dividing num.toNat den.toNat k num.toNat aligned.toNat (0 : UInt64).toNat := Dividing.start haligned htwice
    obtain ⟨hsplit, hrem⟩ := subtractLoop_spec hpos num.toNat_lt hstart
    rw [Nat.mul_comm, Nat.add_comm] at hsplit
    obtain ⟨hdiv, hmod⟩ := (Nat.div_mod_unique hpos).mpr ⟨hsplit.symm, hrem⟩
    rw [hloop, Option.map_some, Nat.zero_add]
    congr 1
    apply Prod.ext
    · exact UInt64.toNat_inj.mp (by rw [UInt64.toNat_div, hdiv])
    · exact UInt64.toNat_inj.mp (by rw [UInt64.toNat_mod, hmod])

theorem udivdi3_spec (num : UInt64) (hden : den ≠ 0) (hfuel : 64 ≤ fuel) :
    udivmoddi4 fuel num den = some (num / den, num % den) ∧ udivdi3 fuel num den = some (num / den) ∧ umoddi3 fuel num den = some (num % den) := by
  rw [udivmoddi4, udivdi3, umoddi3, udivmod64_spec num hden hfuel]
  exact ⟨rfl, rfl, rfl⟩

/-! ### Signed words -/

/-- A signed word is its bits, less 2⁶⁴ where the top one is set. -/
theorem toInt_toInt64 (x : UInt64) : x.toInt64.toInt = if x.toNat < 2 ^ 63 then (x.toNat : Int) else (x.toNat : Int) - 2 ^ 64 := by
  have hcond : x.toInt64.toInt = if 2 * x.toNat < 2 ^ 64 then (x.toNat : Int) else (x.toNat : Int) - (2 ^ 64 : Nat) :=
    BitVec.toInt_eq_toNat_cond x.toBitVec
  rw [hcond]
  split <;> split <;> omega

/-- The magnitude, also of -2⁶³. -/
theorem absS64ToU64_toNat (v : Int64) : (absS64ToU64 v).toNat = v.toInt.natAbs := by
  have hbits : v.toInt = if v.toUInt64.toNat < 2 ^ 63 then (v.toUInt64.toNat : Int) else (v.toUInt64.toNat : Int) - 2 ^ 64 :=
    toInt_toInt64 v.toUInt64
  have hword := v.toUInt64.toNat_lt
  rw [absS64ToU64]
  by_cases hneg : 0 ≤ v
  · rw [if_pos hneg]
    rw [Int64.le_iff_toInt_le, Int64.toInt_zero] at hneg
    split at hbits <;> omega
  · rw [if_neg hneg]
    rw [Int64.le_iff_toInt_le, Int64.toInt_zero] at hneg
    have hsum : (~~~v.toUInt64 + 1).toNat = (2 ^ 64 - 1 - v.toUInt64.toNat + 1) % 2 ^ 64 := by
      rw [UInt64.toNat_add, UInt64.toNat_not]
      rfl
    rw [hsum]
    split at hbits <;> omega

theorem toInt_of_small (h : x.toNat < 2 ^ 63) : x.toInt64.toInt = x.toNat := by
  rw [toInt_toInt64, if_pos h]

/-- A negation is right up to 2⁶³ itself. -/
theorem toInt_neg_of_le (h : x.toNat ≤ 2 ^ 63) : (-x.toInt64).toInt = -(x.toNat : Int) := by
  rw [Int64.toInt_neg, toInt_toInt64]
  split
  · rw [Int.bmod_eq_of_le (by omega) (by omega)]
  · have hmin : x.toNat = 2 ^ 63 := by omega
    rw [hmin]
    decide

theorem toInt_eq_zero (v : Int64) : v.toInt = 0 ↔ v = 0 := by
  rw [← Int64.toInt_zero, Int64.toInt_inj]

theorem natAbs_toInt_le (v : Int64) : v.toInt.natAbs ≤ 2 ^ 63 := by
  have hlow := v.le_toInt
  have hhigh := v.toInt_lt
  omega

theorem natAbs_toInt_pos {v : Int64} (h : v ≠ 0) : 0 < v.toInt.natAbs := Int.natAbs_pos.mpr (mt (toInt_eq_zero v).mp h)

/-- Both functions divide the magnitudes. -/
theorem udivmod64_abs (num : Int64) {den : Int64} (hden : den ≠ 0) (hfuel : 64 ≤ fuel) :
    ∃ q rem, udivmod64 fuel (absS64ToU64 num) (absS64ToU64 den) = some (q, rem) ∧
      q.toNat = num.toInt.natAbs / den.toInt.natAbs ∧ rem.toNat = num.toInt.natAbs % den.toInt.natAbs := by
  have hne : absS64ToU64 den ≠ 0 := by
    intro h
    have hzero : (absS64ToU64 den).toNat = 0 := by rw [h]; rfl
    rw [absS64ToU64_toNat, Int.natAbs_eq_zero, toInt_eq_zero] at hzero
    exact hden hzero
  refine ⟨_, _, udivmod64_spec _ hne hfuel, ?_, ?_⟩
  · rw [UInt64.toNat_div, absS64ToU64_toNat, absS64ToU64_toNat]
  · rw [UInt64.toNat_mod, absS64ToU64_toNat, absS64ToU64_toNat]

/-- A quotient of equal signs has room, except for the one of -2⁶³ by -1. -/
theorem quotient_lt (num den : Int64) (hfits : ¬(num = Int64.minValue ∧ den = -1)) (hden : den ≠ 0)
    (hsigns : ¬(num.toInt < 0) ≠ (den.toInt < 0)) : num.toInt.natAbs / den.toInt.natAbs < 2 ^ 63 := by
  have hpos := natAbs_toInt_pos hden
  have hnum := natAbs_toInt_le num
  rw [Nat.div_lt_iff_lt_mul hpos]
  by_cases hmin : num.toInt.natAbs = 2 ^ 63
  · have hleast : num.toInt = -2 ^ 63 := by
      have hhigh := num.toInt_lt
      omega
    have hneg : den.toInt < 0 := by
      have hlt : num.toInt < 0 := by rw [hleast]; decide
      exact (Eq.mp (not_not.mp hsigns) hlt)
    have hone : den.toInt ≠ -1 := by
      intro h
      apply hfits
      exact ⟨Int64.toInt_inj.mp hleast, Int64.toInt_inj.mp h⟩
    omega
  · omega

/-- The quotient is truncated toward zero. -/
theorem divdi3_spec (num : Int64) {den : Int64} (hden : den ≠ 0) (hfits : ¬(num = Int64.minValue ∧ den = -1)) (hfuel : 64 ≤ fuel) :
    ∃ q, divdi3 fuel num den = some q ∧ q.toInt = num.toInt.tdiv den.toInt := by
  obtain ⟨q, rem, hudiv, hq, -⟩ := udivmod64_abs num hden hfuel
  rw [divdi3, hudiv, Option.map_some, Lib.tdiv_signs, ← hq]
  refine ⟨_, rfl, ?_⟩
  simp only [Int64.lt_iff_toInt_lt, Int64.toInt_zero]
  by_cases hsigns : (num.toInt < 0) ≠ (den.toInt < 0)
  · rw [if_pos hsigns, if_pos hsigns]
    apply toInt_neg_of_le
    rw [hq]
    exact Nat.le_trans (Nat.div_le_self _ _) (natAbs_toInt_le num)
  · rw [if_neg hsigns, if_neg hsigns]
    apply toInt_of_small
    rw [hq]
    exact quotient_lt num den hfits hden hsigns

/-- The remainder has the sign of the dividend. -/
theorem moddi3_spec (num : Int64) {den : Int64} (hden : den ≠ 0) (hfuel : 64 ≤ fuel) :
    ∃ rem, moddi3 fuel num den = some rem ∧ rem.toInt = num.toInt.tmod den.toInt := by
  obtain ⟨q, rem, hudiv, -, hrem⟩ := udivmod64_abs num hden hfuel
  have hsmall : rem.toNat < 2 ^ 63 := by
    have hlt := Nat.mod_lt num.toInt.natAbs (natAbs_toInt_pos hden)
    have hden' := natAbs_toInt_le den
    omega
  rw [moddi3, hudiv, Option.map_some, Lib.tmod_signs, ← hrem]
  refine ⟨_, rfl, ?_⟩
  simp only [Int64.lt_iff_toInt_lt, Int64.toInt_zero]
  by_cases hneg : num.toInt < 0
  · rw [if_pos hneg, if_pos hneg]
    exact toInt_neg_of_le (Nat.le_of_lt hsmall)
  · rw [if_neg hneg, if_neg hneg]
    exact toInt_of_small hsmall

/-- The helpers end and are exact, for unsigned and for signed words. -/
theorem division_exact (fuel : Nat) (hfuel : 64 ≤ fuel) :
    (∀ num den : UInt64, den ≠ 0 → ∃ q rem, udivmod64 fuel num den = some (q, rem) ∧
      num.toNat = q.toNat * den.toNat + rem.toNat ∧ rem.toNat < den.toNat) ∧
    ∀ num den : Int64, den ≠ 0 → ¬(num = Int64.minValue ∧ den = -1) → ∃ q rem, divdi3 fuel num den = some q ∧ moddi3 fuel num den = some rem ∧
      q.toInt = num.toInt.tdiv den.toInt ∧ rem.toInt = num.toInt.tmod den.toInt := by
  refine ⟨?_, ?_⟩
  · intro num den hden
    have hpos := toNat_pos hden
    refine ⟨num / den, num % den, udivmod64_spec num hden hfuel, ?_, ?_⟩
    · rw [UInt64.toNat_div, UInt64.toNat_mod]
      exact (Nat.div_add_mod' num.toNat den.toNat).symm
    · rw [UInt64.toNat_mod]
      exact Nat.mod_lt _ hpos
  · intro num den hden hfits
    obtain ⟨q, hdiv, hq⟩ := divdi3_spec num hden hfits hfuel
    obtain ⟨rem, hmod, hrem⟩ := moddi3_spec num hden hfuel
    exact ⟨q, rem, hdiv, hmod, hq, hrem⟩

/-- A quotient of -2⁶³, which is negated without a change. -/
theorem division_exact_at_least : ∃ q rem, divdi3 64 Int64.minValue 1 = some q ∧ moddi3 64 Int64.minValue 1 = some rem ∧
    q.toInt = Int64.minValue.toInt.tdiv 1 ∧ rem.toInt = Int64.minValue.toInt.tmod 1 :=
  (division_exact 64 (by decide)).2 Int64.minValue 1 (by decide) (by decide)

end CompilerRt

end Tsukasa
