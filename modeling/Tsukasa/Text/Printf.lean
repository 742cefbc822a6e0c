import Tsukasa.Text.Kprintf
import Mathlib.Data.Nat.Digits.Lemmas

/-!
# Kernel printf against the standard one

A format is spelled from its directives: literal characters, `%%`, and conversions with an optional `0` flag and a decimal width. The standard says what each of them prints. `do_fmt` reads a width only up to its first digit 0, puts the sign of a negative number in front of its padding without counting it, and does not pad a character; where none of these matters, it prints what the standard says.
-/

namespace Tsukasa

namespace Kprintf

/-! ### Formats -/

inductive Spec where
  | d
  | i
  | u
  | x
  | upperX
  | s
  | c

def Spec.char : Spec → UInt8
  | .d => 100
  | .i => 105
  | .u => 117
  | .x => 120
  | .upperX => 88
  | .s => 115
  | .c => 99

/-- A directive of a format. A width of 0 stands for none. -/
inductive Directive where
  | lit (c : UInt8) (h : c ≠ 0 ∧ c ≠ 37)
  | percent
  | conv (zero : Bool) (width : Nat) (spec : Spec)

/-- The digits of a width, the highest first. -/
def widthDigits (width : Nat) : List Nat := (Nat.digits 10 width).reverse

def digitText (d : Nat) : UInt8 := UInt8.ofNat (48 + d)

def Directive.spell : Directive → List UInt8
  | .lit c _ => [c]
  | .percent => [37, 37]
  | .conv zero width spec => 37 :: ((if zero then [48] else []) ++ (widthDigits width).map digitText ++ [spec.char])

def spell (f : List Directive) : List UInt8 := f.flatMap Directive.spell

/-! ### The standard -/

def digitChar (upper : Bool) (d : Nat) : UInt8 := UInt8.ofNat (if d < 10 then 48 + d else if upper then 55 + d else 87 + d)

def numeral (base : Nat) (upper : Bool) (v : Nat) : List UInt8 := if v = 0 then [48] else (Nat.digits base v).reverse.map (digitChar upper)

/-- A number: the padding counts the sign, and zeros go behind it. -/
def standardInt (zero : Bool) (width : Nat) (negative : Bool) (digits : List UInt8) : List UInt8 :=
  let sign := if negative then [45] else []
  let pad := width - (sign ++ digits).length
  if zero then sign ++ List.replicate pad 48 ++ digits else List.replicate pad 32 ++ sign ++ digits

/-- What a conversion prints of its argument. The `0` flag is defined for numbers only, and a null pointer is no string. -/
def standardConv (zero : Bool) (width : Nat) : Spec → VaArg → Option (List UInt8)
  | .d, .num val => some (standardInt zero width (toInt32 val < 0) (numeral 10 false (toInt32 val).natAbs))
  | .i, .num val => some (standardInt zero width (toInt32 val < 0) (numeral 10 false (toInt32 val).natAbs))
  | .u, .num val => some (standardInt zero width false (numeral 10 false (wrap32 val)))
  | .x, .num val => some (standardInt zero width false (numeral 16 false (wrap32 val)))
  | .upperX, .num val => some (standardInt zero width false (numeral 16 true (wrap32 val)))
  | .s, .str (some s) => if zero then none else some (List.replicate (width - s.length) 32 ++ s)
  | .c, .num val => if zero then none else some (List.replicate (width - 1) 32 ++ [UInt8.ofNat val])
  | _, _ => none

/-- What the standard says that a format prints, where it defines it. -/
def standard : List Directive → List VaArg → Option (List UInt8)
  | [], _ => some []
  | .lit c _ :: f, args => (standard f args).map (c :: ·)
  | .percent :: f, args => (standard f args).map (37 :: ·)
  | .conv zero width spec :: f, arg :: args => (standardConv zero width spec arg).bind fun t => (standard f args).map (t ++ ·)
  | .conv _ _ _ :: _, [] => none

/-! ### Where both agree -/

/-- A conversion whose width means the same to `do_fmt`. -/
def Plain (width : Nat) : Spec → VaArg → Prop
  | .d, .num val => toInt32 val < 0 → width ≤ (numeral 10 false (toInt32 val).natAbs).length
  | .i, .num val => toInt32 val < 0 → width ≤ (numeral 10 false (toInt32 val).natAbs).length
  | .c, _ => width ≤ 1
  | _, _ => True

/-- Every width is without a digit 0, and means the same to `do_fmt`. -/
def AllPlain : List Directive → List VaArg → Prop
  | [], _ => True
  | .lit _ _ :: f, args => AllPlain f args
  | .percent :: f, args => AllPlain f args
  | .conv _ width spec :: f, arg :: args => 0 ∉ widthDigits width ∧ Plain width spec arg ∧ AllPlain f args
  | .conv _ _ _ :: _, [] => False

/-- The first width with a digit 0 is that of a string which starts with a percent sign, as does what `do_fmt` makes of the directive. -/
def Disguised : List Directive → List VaArg → Prop
  | [], _ => False
  | .lit _ _ :: f, args => Disguised f args
  | .percent :: f, args => Disguised f args
  | .conv _ width spec :: f, arg :: args =>
      (0 ∈ widthDigits width ∧ spec = .s ∧ ∃ s, arg = .str (some (37 :: s))) ∨ (0 ∉ widthDigits width ∧ Disguised f args)
  | .conv _ _ _ :: _, [] => False

/-! ### Reading a width -/

variable {f : List Directive} {fmt text rest t u s : List UInt8} {args : List VaArg} {arg : VaArg} {width k d v : Nat} {zero : Bool} {spec : Spec} {pad c : UInt8}

theorem widthDigits_lt (hd : d ∈ widthDigits width) : d < 10 := Nat.digits_lt_base (by decide) (List.mem_reverse.mp hd)

theorem widthDigits_foldl (width : Nat) : (widthDigits width).foldl (fun v d => v * 10 + d) 0 = width := by
  rw [widthDigits, List.foldl_reverse]
  have hdigits := Nat.ofDigits_digits 10 width
  rw [Nat.ofDigits_eq_foldr] at hdigits
  apply Eq.trans _ hdigits
  congr 1
  funext d v
  rw [Nat.mul_comm, Nat.add_comm]
  rfl

theorem digitText_toNat (hd : d < 10) : (digitText d).toNat = 48 + d := by
  rw [digitText, UInt8.toNat_ofNat']
  omega

theorem isWidthDigit_iff (hd : d < 10) : isWidthDigit (digitText d) ↔ d ≠ 0 := by
  have htoNat := digitText_toNat hd
  rw [isWidthDigit, UInt8.le_iff_toNat_le, UInt8.le_iff_toNat_le, htoNat]
  change 49 ≤ 48 + d ∧ 48 + d ≤ 57 ↔ d ≠ 0
  omega

theorem Spec.not_width (spec : Spec) : ¬ isWidthDigit spec.char ∧ spec.char ≠ 48 ∧ spec.char ≠ 37 := by
  cases spec <;> decide

/-- Digits other than 0 are read into the width. -/
theorem fmtText_digits (pad : UInt8) (l : List Nat) (hl : ∀ d ∈ l, d < 10) (hzero : 0 ∉ l) (v : Nat) (rest : List UInt8) (args : List VaArg) :
    fmtText (.width pad (int32 v)) (l.map digitText ++ rest) args =
      fmtText (.width pad (int32 (l.foldl (fun v d => v * 10 + d) v : Nat))) rest args := by
  induction l generalizing v with
  | nil => rfl
  | cons d l ih =>
      have hd := hl d List.mem_cons_self
      have hne : d ≠ 0 := fun h => hzero (h ▸ List.mem_cons_self)
      have hstep : int32 (int32 (int32 v * 10) + ((digitText d).toNat - 48)) = int32 ((v * 10 + d : Nat) : Int) := by
        rw [digitText_toNat hd, int32_int32_mul, int32_int32_add]
        congr 1
        push_cast
        omega
      rw [List.map_cons, List.cons_append, fmtText, if_pos ((isWidthDigit_iff hd).mpr hne), hstep,
        ih (fun d h => hl d (List.mem_cons_of_mem _ h)) (fun h => hzero (List.mem_cons_of_mem _ h)), List.foldl_cons]

/-- Behind a percent sign the width is still 0. -/
theorem fmtText_flag (hc : c ≠ 48) (fmt : List UInt8) (args : List VaArg) : fmtText .flag (c :: fmt) args = fmtText (.width 32 0) (c :: fmt) args := by
  rw [fmtText, if_neg hc, fmtText]
  split
  · rename_i hdigit
    have hlow : 49 ≤ c.toNat := UInt8.le_iff_toNat_le.mp hdigit.1
    have hhigh : c.toNat ≤ 57 := UInt8.le_iff_toNat_le.mp hdigit.2
    have hwidth : int32 (int32 (0 * 10) + (c.toNat - 48)) = c.toNat - 48 := by
      rw [show int32 (0 * 10) = 0 from rfl, Int.zero_add]
      exact int32_eq_self (by omega) (by omega)
    rw [hwidth]
  · rfl

/-- The padding character of a conversion. -/
def padOf (zero : Bool) : UInt8 := if zero then 48 else 32

theorem widthDigits_head {l : List Nat} (h : widthDigits width = d :: l) : d ≠ 0 := by
  have hne : width ≠ 0 := by
    intro hzero
    rw [hzero, widthDigits, Nat.digits_zero] at h
    cases h
  have hlast := Nat.getLast_digit_ne_zero 10 hne
  have hhead : (Nat.digits 10 width).getLast? = some d := by
    rw [← List.head?_reverse]
    exact congrArg List.head? h
  rw [List.getLast?_eq_some_getLast (Nat.digits_ne_nil_iff_ne_zero.mpr hne)] at hhead
  exact Option.some.inj hhead ▸ hlast

/-- A directive up to the width. -/
theorem fmtText_width (zero : Bool) (width : Nat) (hc : c ≠ 48) (rest : List UInt8) (args : List VaArg) :
    fmtText .flag ((if zero then [48] else []) ++ (widthDigits width).map digitText ++ c :: rest) args =
      fmtText (.width (padOf zero) (int32 (0 : Nat))) ((widthDigits width).map digitText ++ c :: rest) args := by
  cases zero with
  | true =>
      change fmtText .flag (48 :: ((widthDigits width).map digitText ++ c :: rest)) args = _
      rw [fmtText, if_pos rfl]
      rfl
  | false =>
      change fmtText .flag ((widthDigits width).map digitText ++ c :: rest) args = _
      cases hdigits : widthDigits width with
      | nil => exact fmtText_flag hc rest args
      | cons d l =>
          have hd : d < 10 := widthDigits_lt (hdigits ▸ List.mem_cons_self)
          have hne : digitText d ≠ 48 := by
            intro heq
            have htoNat := digitText_toNat hd
            rw [heq] at htoNat
            have := widthDigits_head hdigits
            change 48 = 48 + d at htoNat
            omega
          exact fmtText_flag hne _ args

/-- A conversion whose width has no digit 0 is read as it is. -/
theorem fmtText_conv (hwidth : 0 ∉ widthDigits width) (zero : Bool) (spec : Spec) (rest : List UInt8) (args : List VaArg) :
    fmtText .text ((Directive.conv zero width spec).spell ++ rest) args =
      (specText spec.char (padOf zero) (int32 width) args).bind fun r => (fmtText .text rest r.2).map (r.1 ++ ·) := by
  obtain ⟨hdigit, hne, -⟩ := spec.not_width
  have hspell : (Directive.conv zero width spec).spell ++ rest =
      37 :: ((if zero then [48] else []) ++ (widthDigits width).map digitText ++ spec.char :: rest) := by
    rw [Directive.spell, List.cons_append, List.append_assoc, List.singleton_append]
  rw [hspell, fmtText, if_pos rfl, fmtText_width zero width hne, fmtText_digits _ _ (fun d hd => widthDigits_lt hd) hwidth, widthDigits_foldl,
    fmtText, if_neg hdigit]

/-- Characters without a percent sign are put out as they are. -/
theorem fmtText_literal (hs : 37 ∉ s) (rest : List UInt8) (args : List VaArg) :
    fmtText .text (s ++ rest) args = (fmtText .text rest args).map (s ++ ·) := by
  induction s with
  | nil =>
      rw [List.nil_append]
      cases fmtText .text rest args with
      | error fault => rfl
      | ok text => rfl
  | cons c s ih =>
      obtain ⟨hc, hs⟩ := not_or.mp (List.mem_cons.not.mp hs)
      rw [List.cons_append, fmtText, if_neg (Ne.symm hc), ih hs]
      cases fmtText .text rest args with
      | error fault => rfl
      | ok text => rfl

/-- One whose width has a digit 0 ends there for `do_fmt`, which puts a percent sign, the 0 and what is left of the directive out. -/
theorem fmtText_conv_cut (hwidth : 0 ∈ widthDigits width) (zero : Bool) (spec : Spec) (args : List VaArg) :
    ∃ left, ∀ rest, fmtText .text ((Directive.conv zero width spec).spell ++ rest) args = (fmtText .text rest args).map ((37 :: left) ++ ·) := by
  obtain ⟨-, hne, hpercent⟩ := spec.not_width
  obtain ⟨before, after, hsplit, hbefore⟩ := List.eq_append_cons_of_mem hwidth
  have hlt : ∀ d ∈ before ++ 0 :: after, d < 10 := fun d hd => widthDigits_lt (hsplit ▸ hd)
  have hleft : 37 ∉ after.map digitText ++ [spec.char] := by
    intro hmem
    rcases List.mem_append.mp hmem with hmem | hmem
    · obtain ⟨d, hd, heq⟩ := List.mem_map.mp hmem
      have htoNat := digitText_toNat (hlt d (List.mem_append_right _ (List.mem_cons_of_mem _ hd)))
      rw [heq] at htoNat
      change 37 = 48 + d at htoNat
      omega
    · exact hpercent (List.mem_singleton.mp hmem).symm
  refine ⟨48 :: (after.map digitText ++ [spec.char]), fun rest => ?_⟩
  have hspell : (Directive.conv zero width spec).spell ++ rest =
      37 :: ((if zero then [48] else []) ++ (widthDigits width).map digitText ++ spec.char :: rest) := by
    rw [Directive.spell, List.cons_append, List.append_assoc, List.singleton_append]
  have hdigits : (widthDigits width).map digitText ++ spec.char :: rest =
      before.map digitText ++ 48 :: (after.map digitText ++ [spec.char] ++ rest) := by
    rw [hsplit, List.map_append, List.map_cons, List.append_assoc, List.cons_append, List.append_assoc, List.singleton_append]
    rfl
  rw [hspell, fmtText, if_pos rfl, fmtText_width zero width hne, hdigits,
    fmtText_digits _ _ (fun d hd => hlt d (List.mem_append_left _ hd)) hbefore, fmtText, if_neg (by decide)]
  change (fmtText .text (after.map digitText ++ [spec.char] ++ rest) args).map ([37, 48] ++ ·) = _
  rw [fmtText_literal hleft]
  cases fmtText .text rest args with
  | error fault => rfl
  | ok text => rfl

/-! ### Numerals -/

theorem uintLoop_eq {base fuel : Nat} (hbase : 1 < base) (digits : List UInt8) (hv : v < base ^ fuel) :
    uintLoop base digits fuel v = (Nat.digits base v).map fun d => digits.getD d 0 := by
  induction fuel generalizing v with
  | zero =>
      rw [Nat.pow_zero, Nat.lt_one_iff] at hv
      rw [hv, Nat.digits_zero]
      rfl
  | succ fuel ih =>
      rw [uintLoop]
      split
      · rename_i hzero
        rw [hzero, Nat.digits_zero]
        rfl
      · rename_i hne
        have hdiv : v / base < base ^ fuel := by
          rw [Nat.pow_succ'] at hv
          exact Nat.div_lt_of_lt_mul hv
        rw [ih hdiv, Nat.digits_def' hbase (Nat.pos_of_ne_zero hne), List.map_cons]

theorem uintToBuf_eq {base : Nat} (hbase : 1 < base) (hlt : base ≤ 16) {digits : List UInt8} {upper : Bool}
    (hdigits : ∀ d < 16, digits.getD d 0 = digitChar upper d) (hv : v < 2 ^ 32) : uintToBuf v base digits = numeral base upper v := by
  rw [uintToBuf, numeral]
  split
  · rfl
  · rw [uintLoop_eq hbase digits (Nat.lt_of_lt_of_le hv (Nat.pow_le_pow_left hbase 32)), List.map_reverse]
    congr 1
    apply List.map_congr_left
    intro d hd
    exact hdigits d (Nat.lt_of_lt_of_le (Nat.digits_lt_base hbase hd) hlt)

theorem hexLower_getD : ∀ d < 16, hexLower.getD d 0 = digitChar false d := by decide +kernel

theorem hexUpper_getD : ∀ d < 16, hexUpper.getD d 0 = digitChar true d := by decide +kernel

theorem digitChar_ne (upper : Bool) (hd : d < 16) :
    digitChar upper d ≠ 32 ∧ digitChar upper d ≠ 37 ∧ (d ≠ 0 → digitChar upper d ≠ 48) := by
  have hall : ∀ upper : Bool, ∀ d < 16, digitChar upper d ≠ 32 ∧ digitChar upper d ≠ 37 ∧ (d ≠ 0 → digitChar upper d ≠ 48) := by decide +kernel
  exact hall upper d hd

/-- A numeral starts with a digit, which is a 0 for the number 0 only. -/
theorem numeral_cons {base : Nat} (hbase : 1 < base) (hlt : base ≤ 16) (upper : Bool) (v : Nat) :
    ∃ c l, numeral base upper v = c :: l ∧ c ≠ 32 ∧ c ≠ 37 ∧ (v ≠ 0 → c ≠ 48) := by
  rw [numeral]
  split
  · rename_i hzero
    exact ⟨48, [], rfl, by decide, by decide, fun hne => absurd hzero hne⟩
  · rename_i hne
    have hnil : Nat.digits base v ≠ [] := Nat.digits_ne_nil_iff_ne_zero.mpr hne
    obtain ⟨d, l, hl⟩ := List.exists_cons_of_ne_nil (List.reverse_ne_nil_iff.mpr hnil)
    have hmem : d ∈ Nat.digits base v := List.mem_reverse.mp (hl ▸ List.mem_cons_self)
    have hd : d ≠ 0 := by
      have hlast := Nat.getLast_digit_ne_zero base hne
      have hhead : (Nat.digits base v).getLast? = some d := by
        rw [← List.head?_reverse, hl]
        rfl
      rw [List.getLast?_eq_some_getLast hnil] at hhead
      exact Option.some.inj hhead ▸ hlast
    obtain ⟨hspace, hpercent, hzero⟩ := digitChar_ne upper (Nat.lt_of_lt_of_le (Nat.digits_lt_base hbase hmem) hlt)
    refine ⟨digitChar upper d, l.map (digitChar upper), ?_, hspace, hpercent, fun _ => hzero hd⟩
    rw [hl, List.map_cons]

/-! ### One conversion -/

/-- What `do_fmt` prints for a conversion. -/
def Spec.prints (pad : UInt8) (width : Int) : Spec → VaArg → Option (List UInt8)
  | .d, .num val => some (intText (toInt32 val) width pad)
  | .i, .num val => some (intText (toInt32 val) width pad)
  | .u, .num val => some (numText (uintToBuf (wrap32 val) 10 hexLower) width pad)
  | .x, .num val => some (numText (uintToBuf (wrap32 val) 16 hexLower) width pad)
  | .upperX, .num val => some (numText (uintToBuf (wrap32 val) 16 hexUpper) width pad)
  | .s, .str s => some (strText s width pad)
  | .c, .num val => some [UInt8.ofNat val]
  | _, _ => none

theorem specText_some {w : Int} (h : spec.prints pad w arg = some t) : specText spec.char pad w (arg :: args) = .ok (t, args) := by
  cases spec <;> cases arg <;> cases h <;> rfl

theorem specText_none {w : Int} (h : spec.prints pad w arg = none) : specText spec.char pad w (arg :: args) = .error .badArg := by
  cases spec <;> cases arg <;> first | rfl | cases h

theorem specText_nil {w : Int} : specText spec.char pad w [] = .error .badArg := by cases spec <;> rfl

theorem int32_width (hwidth : width < 2 ^ 31) : int32 width = width := int32_eq_self (by omega) (by exact_mod_cast hwidth)

theorem numText_width (hwidth : width < 2 ^ 31) (digits : List UInt8) (zero : Bool) :
    numText digits (int32 width) (padOf zero) = standardInt zero width false digits := by
  rw [numText, int32_width hwidth, standardInt, Int.toNat_sub]
  cases zero with
  | true => rfl
  | false =>
      change List.replicate (width - digits.length) 32 ++ digits = List.replicate (width - digits.length) 32 ++ [] ++ digits
      rw [List.append_nil]

/-- A number without a sign is padded as it should be. -/
theorem intText_nonneg (hwidth : width < 2 ^ 31) {val : Int} (hval : 0 ≤ val) (hlt : val < 2 ^ 31) (zero : Bool) :
    intText val (int32 width) (padOf zero) = standardInt zero width (val < 0) (numeral 10 false val.natAbs) := by
  have hnum : (val % 2 ^ 32).toNat = val.natAbs := by omega
  rw [intText, if_neg (by omega), hnum, uintToBuf_eq (by decide) (by decide) hexLower_getD (by omega), numText_width hwidth,
    decide_eq_false (by omega)]

/-- One with a sign gets the sign in front of its padding. -/
theorem intText_neg (hwidth : width < 2 ^ 31) {val : Int} (hval : val < 0) (hge : -2 ^ 31 ≤ val) (zero : Bool) :
    intText val (int32 width) (padOf zero) = 45 :: (List.replicate (width - (numeral 10 false val.natAbs).length) (padOf zero) ++ numeral 10 false val.natAbs) := by
  have hnum : (int32 (-val) % 2 ^ 32).toNat = val.natAbs := by
    rw [int32, Int.bmod_def]
    split <;> omega
  rw [intText, if_pos hval, hnum, uintToBuf_eq (by decide) (by decide) hexLower_getD (by omega), numText, int32_width hwidth, Int.toNat_sub]

theorem strText_width (hwidth : width < 2 ^ 31) (hs : s.length < 2 ^ 31) (pad : UInt8) :
    strText (some s) (int32 width) pad = List.replicate (width - s.length) pad ++ s := by
  have hlen : int32 s.length = s.length := int32_width hs
  rw [strText, int32_width hwidth]
  simp only [Option.getD_some, hlen]
  split
  · rw [int32_eq_self (by omega) (by omega), Int.toNat_sub]
  · rw [show width - s.length = 0 by omega, List.replicate_zero, List.nil_append]

theorem standardInt_zeros (width : Nat) (digits : List UInt8) :
    standardInt true width true digits = 45 :: (List.replicate (width - (digits.length + 1)) 48 ++ digits) := rfl

theorem standardInt_spaces (width : Nat) (digits : List UInt8) :
    standardInt false width true digits = List.replicate (width - (digits.length + 1)) 32 ++ 45 :: digits := by
  change List.replicate (width - (digits.length + 1)) 32 ++ [45] ++ digits = _
  rw [List.append_assoc, List.singleton_append]

/-- What the standard defines: signed numbers, unsigned numbers, strings and characters. -/
theorem standardConv_cases (hstd : standardConv zero width spec arg = some t) :
    (∃ val, arg = .num val ∧ (spec = .d ∨ spec = .i) ∧ t = standardInt zero width (toInt32 val < 0) (numeral 10 false (toInt32 val).natAbs)) ∨
    (∃ v base upper, 1 < base ∧ base ≤ 16 ∧ t = standardInt zero width false (numeral base upper v) ∧ (∀ w, Plain w spec arg) ∧
      ∀ pad w, spec.prints pad w arg = some (numText (numeral base upper v) w pad)) ∨
    (∃ s, arg = .str (some s) ∧ spec = .s ∧ zero = false ∧ t = List.replicate (width - s.length) 32 ++ s) ∨
    ∃ val, arg = .num val ∧ spec = .c ∧ zero = false ∧ t = List.replicate (width - 1) 32 ++ [UInt8.ofNat val] := by
  have hunsigned : ∀ val base upper digits, 1 < base → base ≤ 16 → (∀ d < 16, digits.getD d 0 = digitChar upper d) →
      t = standardInt zero width false (numeral base upper (wrap32 val)) → (∀ w, Plain w spec arg) →
      (∀ pad w, spec.prints pad w arg = some (numText (uintToBuf (wrap32 val) base digits) w pad)) →
      ∃ v base upper, 1 < base ∧ base ≤ 16 ∧ t = standardInt zero width false (numeral base upper v) ∧ (∀ w, Plain w spec arg) ∧
        ∀ pad w, spec.prints pad w arg = some (numText (numeral base upper v) w pad) := by
    intro val base upper digits hbase hlt hdigits htext hplain hprints
    refine ⟨wrap32 val, base, upper, hbase, hlt, htext, hplain, fun pad w => ?_⟩
    rw [hprints, uintToBuf_eq hbase hlt hdigits (wrap32_lt val)]
  cases arg with
  | num val =>
      cases spec with
      | d => exact Or.inl ⟨val, rfl, Or.inl rfl, (Option.some.inj hstd).symm⟩
      | i => exact Or.inl ⟨val, rfl, Or.inr rfl, (Option.some.inj hstd).symm⟩
      | u =>
          exact Or.inr (Or.inl (hunsigned val 10 false hexLower (by decide) (by decide) hexLower_getD (Option.some.inj hstd).symm
            (fun _ => trivial) fun _ _ => rfl))
      | x =>
          exact Or.inr (Or.inl (hunsigned val 16 false hexLower (by decide) (by decide) hexLower_getD (Option.some.inj hstd).symm
            (fun _ => trivial) fun _ _ => rfl))
      | upperX =>
          exact Or.inr (Or.inl (hunsigned val 16 true hexUpper (by decide) (by decide) hexUpper_getD (Option.some.inj hstd).symm
            (fun _ => trivial) fun _ _ => rfl))
      | s => cases hstd
      | c =>
          cases zero with
          | true => cases hstd
          | false => exact Or.inr (Or.inr (Or.inr ⟨val, rfl, rfl, rfl, (Option.some.inj hstd).symm⟩))
  | str s =>
      cases s with
      | none => cases spec <;> cases hstd
      | some s =>
          cases spec with
          | s =>
              cases zero with
              | true => cases hstd
              | false => exact Or.inr (Or.inr (Or.inl ⟨s, rfl, rfl, rfl, (Option.some.inj hstd).symm⟩))
          | _ => cases hstd

/-- `do_fmt` prints a signed number with its sign in front of the padding. -/
theorem prints_int (hspec : spec = .d ∨ spec = .i) (val : Nat) (pad : UInt8) (w : Int) :
    spec.prints pad w (.num val) = some (intText (toInt32 val) w pad) := by
  rcases hspec with rfl | rfl <;> rfl

theorem plain_int (hspec : spec = .d ∨ spec = .i) (val width : Nat) :
    Plain width spec (.num val) ↔ (toInt32 val < 0 → width ≤ (numeral 10 false (toInt32 val).natAbs).length) := by
  rcases hspec with rfl | rfl <;> rfl

/-- A width that means the same to both gives the same. -/
theorem prints_standard (hstd : standardConv zero width spec arg = some t) (hplain : Plain width spec arg) (hwidth : width < 2 ^ 31)
    (hlen : t.length < 2 ^ 31) : spec.prints (padOf zero) (int32 width) arg = some t := by
  rcases standardConv_cases hstd with ⟨val, rfl, hspec, rfl⟩ | ⟨v, base, upper, -, -, rfl, -, hprints⟩ | ⟨s, rfl, rfl, rfl, rfl⟩ | ⟨val, rfl, rfl, rfl, rfl⟩
  · obtain ⟨hlow, hhigh⟩ := toInt32_bounds val
    rw [prints_int hspec]
    apply congrArg some
    by_cases hneg : toInt32 val < 0
    · have hfits := (plain_int hspec val width).mp hplain hneg
      rw [intText_neg hwidth hneg hlow, decide_eq_true hneg, Nat.sub_eq_zero_of_le hfits]
      cases zero with
      | true =>
          rw [standardInt_zeros, Nat.sub_eq_zero_of_le (Nat.le_succ_of_le hfits)]
          rfl
      | false =>
          rw [standardInt_spaces, Nat.sub_eq_zero_of_le (Nat.le_succ_of_le hfits)]
          rfl
    · exact intText_nonneg hwidth (Int.not_lt.mp hneg) hhigh zero
  · rw [hprints, numText_width hwidth]
  · rw [List.length_append] at hlen
    exact congrArg some (strText_width hwidth (by omega) 32)
  · rw [Nat.sub_eq_zero_of_le hplain]
    rfl

/-- Text behind equal text, or behind spaces in front of it. -/
theorem append_eq_spaces (h : s ++ t = List.replicate k 32 ++ (s ++ u)) : t = List.replicate k 32 ++ u := by
  induction s with
  | nil => exact h
  | cons c s ih =>
      cases k with
      | zero => exact List.append_cancel_left h
      | succ k =>
          have hhead : c = 32 := (List.cons.inj h).1
          have htail : s ++ t = List.replicate k 32 ++ (c :: s ++ u) := (List.cons.inj h).2
          apply ih
          rw [htail, hhead, List.replicate_succ', List.append_assoc]
          rfl

/-- A sign in front of its padding does not come out right, whatever follows, not even behind more spaces. -/
theorem neg_ne_spaces {digits : List UInt8} {l : List UInt8} (hdigits : digits = c :: l) (hspace : c ≠ 32) (hzero : c ≠ 48)
    (hwidth : digits.length < width) (zero : Bool) :
    45 :: (List.replicate (width - digits.length) (padOf zero) ++ digits) ++ t ≠ List.replicate k 32 ++ (standardInt zero width true digits ++ u) := by
  intro h
  have hpad : width - digits.length = (width - (digits.length + 1)) + 1 := by omega
  rw [hpad, List.replicate_succ'] at h
  cases k with
  | succ k => exact absurd (List.cons.inj h).1 (by decide)
  | zero =>
      rw [List.replicate_zero, List.nil_append] at h
      cases zero with
      | true =>
          -- the digits start where the last 0 of the padding stands
          rw [standardInt_zeros, List.cons_append, List.cons_append] at h
          have htail := (List.cons.inj h).2
          rw [padOf, if_pos rfl, List.append_assoc, List.append_assoc, List.append_assoc, hdigits] at htail
          exact hzero (List.cons.inj (List.append_cancel_left htail)).1.symm
      | false =>
          rw [standardInt_spaces] at h
          cases hn : width - (digits.length + 1) with
          | succ n =>
              rw [hn] at h
              exact absurd (List.cons.inj h).1 (by decide)
          | zero =>
              rw [hn, hdigits] at h
              exact hspace (List.cons.inj (List.cons.inj h).2).1.symm

/-! ### A width with a digit 0 -/

theorem ten_le_of_zero_mem (h : 0 ∈ widthDigits width) : 10 ≤ width := by
  by_contra hlt
  rcases Nat.eq_zero_or_pos width with rfl | hpos
  · rw [widthDigits, Nat.digits_zero] at h
    exact absurd h List.not_mem_nil
  · rw [widthDigits, Nat.digits_of_lt 10 width (by omega) (by omega), List.reverse_singleton, List.mem_singleton] at h
    omega

theorem standardInt_head (zero : Bool) (width : Nat) (negative : Bool) {digits l : List UInt8} (hdigits : digits = c :: l) (hc : c ≠ 37) :
    ∃ c l, standardInt zero width negative digits = c :: l ∧ c ≠ 37 := by
  cases negative with
  | true =>
      cases zero with
      | true => exact ⟨45, _, standardInt_zeros width digits, by decide⟩
      | false =>
          rw [standardInt_spaces]
          cases width - (digits.length + 1) with
          | zero => exact ⟨45, digits, rfl, by decide⟩
          | succ n => exact ⟨32, _, rfl, by decide⟩
  | false =>
      have hplain : ∀ n (pad : UInt8), pad ≠ 37 → ∃ c l, List.replicate n pad ++ digits = c :: l ∧ c ≠ 37 := by
        intro n pad hpad
        cases n with
        | zero => exact ⟨c, l, hdigits, hc⟩
        | succ n => exact ⟨pad, _, rfl, hpad⟩
      cases zero with
      | true => exact hplain (width - digits.length) 48 (by decide)
      | false =>
          change ∃ c l, List.replicate (width - digits.length) 32 ++ [] ++ digits = c :: l ∧ c ≠ 37
          rw [List.append_nil]
          exact hplain (width - digits.length) 32 (by decide)

/-- Where the width has a digit 0, the standard does not start with a percent sign, unless the argument does. -/
theorem standardConv_head (hstd : standardConv zero width spec arg = some t) (hwidth : 0 ∈ widthDigits width)
    (harg : ¬ (spec = .s ∧ ∃ s, arg = .str (some (37 :: s)))) : ∃ c l, t = c :: l ∧ c ≠ 37 := by
  have hten := ten_le_of_zero_mem hwidth
  rcases standardConv_cases hstd with ⟨val, -, -, rfl⟩ | ⟨v, base, upper, hbase, hlt, rfl, -, -⟩ | ⟨s, rfl, rfl, rfl, rfl⟩ | ⟨val, rfl, rfl, rfl, rfl⟩
  · obtain ⟨c, l, hdigits, -, hc, -⟩ := numeral_cons (show 1 < 10 by decide) (by decide) false (toInt32 val).natAbs
    exact standardInt_head zero width _ hdigits hc
  · obtain ⟨c, l, hdigits, -, hc, -⟩ := numeral_cons hbase hlt upper v
    exact standardInt_head zero width _ hdigits hc
  · cases hpad : width - s.length with
    | succ n => exact ⟨32, _, rfl, by decide⟩
    | zero =>
        cases s with
        | nil =>
            rw [List.length_nil] at hpad
            omega
        | cons c s =>
            refine ⟨c, s, rfl, fun hc => harg ⟨rfl, s, ?_⟩⟩
            rw [hc]
  · obtain ⟨n, hn⟩ := Nat.exists_eq_succ_of_ne_zero (show width - 1 ≠ 0 by omega)
    rw [hn]
    exact ⟨32, _, rfl, by decide⟩

/-! ### Formats -/

theorem spell_cons (d : Directive) (f : List Directive) : spell (d :: f) = d.spell ++ spell f := rfl

/-- A text is at least as long as its width. -/
theorem width_le_length (hstd : standardConv zero width spec arg = some t) : width ≤ t.length := by
  have hint : ∀ negative digits, width ≤ (standardInt zero width negative digits).length := by
    intro negative digits
    rw [standardInt]
    cases zero <;> simp only [if_true, Bool.false_eq_true, if_false, List.length_append, List.length_replicate] <;> omega
  rcases standardConv_cases hstd with ⟨val, -, -, rfl⟩ | ⟨v, base, upper, -, -, rfl, -, -⟩ | ⟨s, -, -, -, rfl⟩ | ⟨val, -, -, -, rfl⟩
  · exact hint _ _
  · exact hint _ _
  · rw [List.length_append, List.length_replicate]
    omega
  · rw [List.length_append, List.length_replicate, List.length_singleton]
    omega

/-- Where the width means something else to `do_fmt`, its text is not the one of the standard, whatever follows, not even behind more spaces or with less of them. -/
theorem prints_ne (hstd : standardConv zero width spec arg = some t) (hplain : ¬ Plain width spec arg) (hwidth : width < 2 ^ 31) :
    ∃ s, spec.prints (padOf zero) (int32 width) arg = some s ∧
      ∀ k text rest, s ++ text = List.replicate k 32 ++ (t ++ rest) → ∃ n, 0 < n ∧ text = List.replicate (k + n) 32 ++ rest := by
  rcases standardConv_cases hstd with ⟨val, rfl, hspec, rfl⟩ | ⟨v, base, upper, -, -, -, hall, -⟩ | ⟨s, rfl, rfl, rfl, rfl⟩ | ⟨val, rfl, rfl, rfl, rfl⟩
  · rw [plain_int hspec] at hplain
    obtain ⟨hneg, hlong⟩ := Classical.not_imp.mp hplain
    obtain ⟨c, l, hdigits, hspace, -, hzero⟩ := numeral_cons (show 1 < 10 by decide) (by decide) false (toInt32 val).natAbs
    rw [prints_int hspec, intText_neg hwidth hneg (toInt32_bounds val).1, decide_eq_true hneg]
    refine ⟨_, rfl, fun k text rest h => ?_⟩
    exact absurd h (neg_ne_spaces hdigits hspace (hzero (by omega)) (by omega) zero)
  · exact absurd (hall width) hplain
  · exact absurd trivial hplain
  · refine ⟨_, rfl, fun k text rest h => ⟨width - 1, Nat.sub_pos_of_lt (Nat.not_le.mp hplain), ?_⟩⟩
    rw [List.append_assoc, ← List.append_assoc, List.replicate_append_replicate] at h
    exact append_eq_spaces h

theorem map_eq_ok {α β : Type} {x : Except FmtFault α} {g : α → β} {b : β} : x.map g = .ok b ↔ ∃ a, x = .ok a ∧ b = g a := by
  cases x with
  | error fault => exact ⟨nofun, fun h => nomatch h.choose_spec.1⟩
  | ok a =>
      constructor
      · intro h
        exact ⟨a, rfl, (Except.ok.inj h).symm⟩
      · intro h
        obtain ⟨a', ha, hb⟩ := h
        rw [hb, ← Except.ok.inj ha]
        rfl

theorem map_append_ok {x : Except FmtFault (List UInt8)} (h : x.map (s ++ ·) = .ok t) : ∃ u, x = .ok u ∧ t = s ++ u := map_eq_ok.mp h

/-- The formatter prints what the standard says for a format of plain conversions. -/
theorem fmtText_standard {f : List Directive} (hstd : standard f args = some t) (hplain : AllPlain f args) (hlen : t.length < 2 ^ 31) :
    fmtText .text (spell f) args = .ok t := by
  induction f generalizing args t with
  | nil =>
      cases hstd
      rfl
  | cons d f ih =>
      cases d with
      | lit c hc =>
          obtain ⟨u, hu, rfl⟩ := Option.map_eq_some_iff.mp hstd
          rw [List.length_cons] at hlen
          rw [spell_cons, Directive.spell, fmtText_literal (fun h => hc.2 (List.mem_singleton.mp h).symm), ih hu hplain (by omega)]
          rfl
      | percent =>
          obtain ⟨u, hu, rfl⟩ := Option.map_eq_some_iff.mp hstd
          rw [List.length_cons] at hlen
          change (fmtText .text (spell f) args).map ([37] ++ ·) = _
          rw [ih hu hplain (by omega)]
          rfl
      | conv zero width spec =>
          cases args with
          | nil => cases hstd
          | cons arg args =>
              obtain ⟨w, hw, hstd⟩ := Option.bind_eq_some_iff.mp hstd
              obtain ⟨u, hu, rfl⟩ := Option.map_eq_some_iff.mp hstd
              obtain ⟨hdigits, hconv, hrest⟩ := hplain
              have hwidth := width_le_length hw
              rw [List.length_append] at hlen
              rw [spell_cons, fmtText_conv hdigits, specText_some (prints_standard hw hconv (by omega) (by omega))]
              change (fmtText .text (spell f) args).map (w ++ ·) = _
              rw [ih hu hrest (by omega)]
              rfl

/-- What it prints is what the standard says only for plain conversions, and does not have more spaces in front either. -/
theorem allPlain_of_fmtText {f : List Directive} (hstd : standard f args = some u) (hlen : u.length < 2 ^ 31) (hdisguised : ¬ Disguised f args)
    (htext : fmtText .text (spell f) args = .ok t) (hspaces : t = List.replicate k 32 ++ u) : k = 0 ∧ AllPlain f args := by
  induction f generalizing args t u k with
  | nil =>
      cases hstd
      cases htext
      have hlength := congrArg List.length hspaces
      rw [List.length_append, List.length_replicate, List.length_nil] at hlength
      exact ⟨by omega, trivial⟩
  | cons d f ih =>
      cases d with
      | lit c hc =>
          obtain ⟨u, hu, rfl⟩ := Option.map_eq_some_iff.mp hstd
          rw [List.length_cons] at hlen
          rw [spell_cons, Directive.spell, fmtText_literal (fun h => hc.2 (List.mem_singleton.mp h).symm)] at htext
          obtain ⟨s, hrest, rfl⟩ := map_append_ok htext
          exact ih hu (by omega) hdisguised hrest (append_eq_spaces (s := [c]) hspaces)
      | percent =>
          obtain ⟨u, hu, rfl⟩ := Option.map_eq_some_iff.mp hstd
          rw [List.length_cons] at hlen
          change (fmtText .text (spell f) args).map ([37] ++ ·) = _ at htext
          obtain ⟨s, hrest, rfl⟩ := map_append_ok htext
          exact ih hu (by omega) hdisguised hrest (append_eq_spaces (s := [37]) hspaces)
      | conv zero width spec =>
          cases args with
          | nil => cases hstd
          | cons arg args =>
              obtain ⟨w, hw, hstd⟩ := Option.bind_eq_some_iff.mp hstd
              obtain ⟨u, hu, rfl⟩ := Option.map_eq_some_iff.mp hstd
              have hwidth := width_le_length hw
              rw [List.length_append] at hlen
              obtain ⟨hfirst, hrestdisguised⟩ := not_or.mp hdisguised
              by_cases hdigits : 0 ∈ widthDigits width
              · -- `do_fmt` starts with a percent sign here
                obtain ⟨c, l, rfl, hc⟩ := standardConv_head hw hdigits fun harg => hfirst ⟨hdigits, harg⟩
                obtain ⟨left, hcut⟩ := fmtText_conv_cut hdigits zero spec (arg :: args)
                rw [spell_cons, hcut] at htext
                obtain ⟨s, hrest, rfl⟩ := map_append_ok htext
                cases k with
                | zero => exact absurd (List.cons.inj hspaces).1.symm hc
                | succ k => exact absurd (List.cons.inj hspaces).1 (by decide)
              · rw [spell_cons, fmtText_conv hdigits] at htext
                have hrestdisguised : ¬ Disguised f args := fun h => hrestdisguised ⟨hdigits, h⟩
                by_cases hplain : Plain width spec arg
                · rw [specText_some (prints_standard hw hplain (by omega) (by omega))] at htext
                  change (fmtText .text (spell f) args).map (w ++ ·) = _ at htext
                  obtain ⟨s, hrest, rfl⟩ := map_append_ok htext
                  obtain ⟨hk, hall⟩ := ih hu (by omega) hrestdisguised hrest (append_eq_spaces hspaces)
                  exact ⟨hk, hdigits, hplain, hall⟩
                · obtain ⟨s, hprints, hne⟩ := prints_ne hw hplain (by omega)
                  rw [specText_some hprints] at htext
                  change (fmtText .text (spell f) args).map (s ++ ·) = _ at htext
                  obtain ⟨text, hrest, rfl⟩ := map_append_ok htext
                  obtain ⟨n, hn, heq⟩ := hne k text u hspaces
                  have hzero := (ih hu (by omega) hrestdisguised hrest heq).1
                  omega

/-- The formatter does not read on behind the end of a format that is spelled from directives. -/
theorem fmtText_spell_ne (f : List Directive) (args : List VaArg) : fmtText .text (spell f) args ≠ .error .pastEnd := by
  have hmap : ∀ {x : Except FmtFault (List UInt8)} (s : List UInt8), x ≠ .error .pastEnd → x.map (s ++ ·) ≠ .error .pastEnd := by
    intro x s hx h
    cases x with
    | error fault => exact hx h
    | ok u => cases h
  induction f generalizing args with
  | nil => exact nofun
  | cons d f ih =>
      cases d with
      | lit c hc =>
          rw [spell_cons, Directive.spell, fmtText_literal fun h => hc.2 (List.mem_singleton.mp h).symm]
          exact hmap [c] (ih args)
      | percent => exact hmap [37] (ih args)
      | conv zero width spec =>
          by_cases hdigits : 0 ∈ widthDigits width
          · obtain ⟨left, hcut⟩ := fmtText_conv_cut hdigits zero spec args
            rw [spell_cons, hcut]
            exact hmap _ (ih args)
          · rw [spell_cons, fmtText_conv hdigits]
            cases args with
            | nil =>
                rw [specText_nil]
                exact nofun
            | cons arg args =>
                cases hprints : spec.prints (padOf zero) (int32 width) arg with
                | none =>
                    rw [specText_none hprints]
                    exact nofun
                | some s =>
                    rw [specText_some hprints]
                    exact hmap s (ih args)

/-- What `kprintf` puts out, and what it returns. -/
theorem kprintf_eq_ok {fmt : List UInt8} {full : FmtCtx (List UInt8)} :
    kprintf fmt args = .ok full ↔ ∃ t, fmtText .text fmt args = .ok t ∧ full.ctx = t ∧ full.count = int32 t.length := by
  rw [kprintf_eq, map_eq_ok]
  simp only [FmtCtx.ext_iff]

/-- The kernel's `printf` prints the text, and returns the number of its characters. -/
def Prints (f : List Directive) (args : List VaArg) (text : List UInt8) : Prop :=
  ∃ full, kprintf (spell f) args = .ok full ∧ full.ctx = text ∧ full.count = text.length

theorem prints_iff {f : List Directive} : Prints f args text ↔ fmtText .text (spell f) args = .ok text ∧ text.length < 2 ^ 31 := by
  constructor
  · intro h
    obtain ⟨full, hfull, htext, hcount⟩ := h
    obtain ⟨t, ht, hctx, hint⟩ := kprintf_eq_ok.mp hfull
    rw [hcount, ← hctx, htext, int32, Int.bmod_def] at hint
    refine ⟨by rw [ht, ← hctx, htext], ?_⟩
    split at hint <;> omega
  · intro h
    exact ⟨⟨text, int32 text.length⟩, kprintf_eq_ok.mpr ⟨text, h.1, by simp only, by simp only⟩, by simp only, by simp only [int32_width h.2]⟩

/-- For a format of literal text and conversions the formatter does not read behind the end and counts every character. Where the standard defines the text, it prints this text when every conversion is plain and the number of the characters is an `int`, and only then unless a string looks like the rest of its directive. -/
theorem doFmt_standard_iff (f : List Directive) (args : List VaArg) :
    kprintf (spell f) args ≠ .error .pastEnd ∧ (∀ full, kprintf (spell f) args = .ok full → full.count = int32 full.ctx.length) ∧
    ∀ text, standard f args = some text →
      (AllPlain f args ∧ text.length < 2 ^ 31 → Prints f args text) ∧
      (¬ Disguised f args → Prints f args text → AllPlain f args ∧ text.length < 2 ^ 31) := by
  refine ⟨?_, ?_, ?_⟩
  · rw [kprintf_eq]
    have hne := fmtText_spell_ne f args
    cases hrest : fmtText .text (spell f) args with
    | error fault =>
        rw [hrest] at hne
        exact fun h => hne (congrArg Except.error (Except.error.inj h))
    | ok t => exact nofun
  · intro full hfull
    obtain ⟨t, -, hctx, hcount⟩ := kprintf_eq_ok.mp hfull
    rw [hcount, hctx]
  · intro text hstd
    rw [prints_iff]
    constructor
    · intro h
      exact ⟨fmtText_standard hstd h.1 h.2, h.2⟩
    · intro hdisguised h
      exact ⟨(allPlain_of_fmtText (k := 0) hstd h.2 hdisguised h.1 rfl).2, h.2⟩

theorem doFmt_standard_five : Prints [.conv true 5 .d] [.num 42] (ascii "00042") := by
  have hval : toInt32 42 = 42 := by decide
  have hstd : standard [.conv true 5 .d] [.num 42] = some (ascii "00042") := by
    simp [standard, standardConv, standardInt, numeral, hval]
    decide
  have hplain : AllPlain [.conv true 5 .d] [.num 42] := by
    simp [AllPlain, Plain, widthDigits, hval]
  exact ((doFmt_standard_iff [.conv true 5 .d] [.num 42]).2.2 _ hstd).1 ⟨hplain, by decide⟩

/-- The sign goes in front of the padding, and the padding does not count it. -/
theorem doFmt_sign_first : ∃ f args text, standard f args = some text ∧ ¬ Prints f args text := by
  have hval : toInt32 (2 ^ 32 - 5) = -5 := by decide
  have hstd : standard [.conv false 5 .d] [.num (2 ^ 32 - 5)] = some (ascii "   -5") := by
    simp only [standard, standardConv, standardInt, numeral, hval]
    simp
    decide
  refine ⟨_, _, _, hstd, fun h => ?_⟩
  have htext := (prints_iff.mp h).1
  have hplain := (allPlain_of_fmtText (k := 0) hstd (by decide) (by simp [Disguised, widthDigits]) htext rfl).2
  simp only [AllPlain, Plain, numeral, hval] at hplain
  simp at hplain

-- a string that looks like the rest of its directive can make up for it
example : Prints [.conv false 10 .s, .conv false 0 .s] [.str (some (ascii "%0s%0s%0s%0s")), .str (some (ascii "%0s"))] (ascii "%0s%0s%0s%0s%0s") := by
  have hspell : spell [.conv false 10 .s, .conv false 0 .s] = ascii "%10s%s" := by
    simp [spell, Directive.spell, widthDigits]
    decide
  rw [prints_iff, hspell]
  exact ⟨rfl, by decide⟩

/-! ### The formats of the configuration -/

/-- An argument of `doFmt`, as the call passes it. -/
def vaArg : FmtArg → VaArg
  | .num val => .num val
  | .str s => .str (some s)

/-- Both formatters are at the same place, where `k` digits of the width have been read. -/
inductive SameMode : Nat → Tsukasa.FmtMode → FmtMode → Prop where
  | text (k : Nat) : SameMode k .text .text
  | flag : SameMode 0 .flag .flag
  | width {k w : Nat} (pad : UInt8) (hk : k ≤ 9) (hw : w < 10 ^ k) : SameMode k (.width pad w) (.width pad w)

/-- There are at most nine digits in a row, of which `k` have been read. -/
def ShortWidths : Nat → List UInt8 → Prop
  | _, [] => True
  | k, c :: fmt => if isWidthDigit c then k < 9 ∧ ShortWidths (k + 1) fmt else ShortWidths 0 fmt

def ShortStrings (args : List FmtArg) : Prop := ∀ s, .str s ∈ args → s.length < 2 ^ 31

theorem numText_eq_fmtPad (tmp : List UInt8) (w : Nat) (pad : UInt8) : numText tmp w pad = Tsukasa.fmtPad pad w tmp := by
  rw [numText, Tsukasa.fmtPad, Int.toNat_sub]

theorem intText_eq_fmtPad (val w : Nat) (pad : UInt8) :
    intText (toInt32 val) w pad = if toInt32 val < 0 then 45 :: Tsukasa.fmtPad pad w (uintToBuf (2 ^ 32 - wrap32 val) 10 hexLower)
      else Tsukasa.fmtPad pad w (uintToBuf (wrap32 val) 10 hexLower) := by
  have hbounds := toInt32_bounds val
  have hlt := wrap32_lt val
  have hval : toInt32 val = wrap32 val ∨ toInt32 val = wrap32 val - 2 ^ 32 := by
    rw [toInt32]
    split
    · exact .inl rfl
    · exact .inr rfl
  rw [intText]
  split
  · have hneg : (int32 (-toInt32 val) % 2 ^ 32).toNat = 2 ^ 32 - wrap32 val := by
      rw [int32, Int.bmod_def]
      split <;> omega
    rw [hneg, numText_eq_fmtPad]
  · have hpos : (toInt32 val % 2 ^ 32).toNat = wrap32 val := by omega
    rw [hpos, numText_eq_fmtPad]

/-- Both put out the same, and leave the same arguments. -/
structure SameOut (r : List UInt8 × List VaArg) (out : List UInt8 × List FmtArg) : Prop where
  text : r.1 = out.1
  args : r.2 = out.2.map vaArg
  short : ShortStrings out.2

theorem fmtSpec_none {spec pad : UInt8} {w : Nat} {r : List UInt8 × List VaArg} (h : specText spec pad w [] = .ok r) :
    SameOut r (Tsukasa.fmtSpec spec pad w []) := by
  have hshort : ShortStrings [] := fun s hs => absurd hs List.not_mem_nil
  rw [specText] at h
  split_ifs at h with hd hu hx hX hs hc hp
  -- the conversions with an argument have none
  all_goals cases h
  · rw [Tsukasa.fmtSpec, if_pos hp]
    exact ⟨rfl, rfl, hshort⟩
  · rw [Tsukasa.fmtSpec, if_neg hp]
    exact ⟨rfl, rfl, hshort⟩

theorem fmtSpec_num {spec pad : UInt8} {w val : Nat} {args : List FmtArg} {r : List UInt8 × List VaArg} (hargs : ShortStrings (.num val :: args))
    (h : specText spec pad w (.num val :: args.map vaArg) = .ok r) : SameOut r (Tsukasa.fmtSpec spec pad w (.num val :: args)) := by
  have hrest : ShortStrings args := fun s hs => hargs s (List.mem_cons_of_mem _ hs)
  rw [specText] at h
  split_ifs at h with hd hu hx hX hs hc hp
  all_goals cases h
  · have hne : spec ≠ 117 ∧ spec ≠ 120 ∧ spec ≠ 88 := by
      cases hd with
      | inl h => rw [h]; decide
      | inr h => rw [h]; decide
    have hint := intText_eq_fmtPad val w pad
    rw [Tsukasa.fmtSpec, if_neg hne.1, if_neg hne.2.1, if_neg hne.2.2, if_pos hd]
    split
    · rename_i hneg
      rw [if_pos hneg] at hint
      exact ⟨hint, rfl, hrest⟩
    · rename_i hpos
      rw [if_neg hpos] at hint
      exact ⟨hint, rfl, hrest⟩
  · rw [Tsukasa.fmtSpec, if_pos hu]
    exact ⟨numText_eq_fmtPad _ w pad, rfl, hrest⟩
  · rw [Tsukasa.fmtSpec, if_neg hu, if_pos hx]
    exact ⟨numText_eq_fmtPad _ w pad, rfl, hrest⟩
  · rw [Tsukasa.fmtSpec, if_neg hu, if_neg hx, if_pos hX]
    exact ⟨numText_eq_fmtPad _ w pad, rfl, hrest⟩
  · rw [Tsukasa.fmtSpec, if_neg hu, if_neg hx, if_neg hX, if_neg hd, if_pos hc]
    exact ⟨rfl, rfl, hrest⟩
  · rw [Tsukasa.fmtSpec, if_neg hu, if_neg hx, if_neg hX, if_neg hd, if_neg hc, if_pos hp]
    exact ⟨rfl, rfl, hargs⟩
  · rw [Tsukasa.fmtSpec, if_neg hu, if_neg hx, if_neg hX, if_neg hd, if_neg hc, if_neg hp]
    exact ⟨rfl, rfl, hargs⟩

theorem fmtSpec_str {spec pad : UInt8} {s : List UInt8} {w : Nat} {args : List FmtArg} {r : List UInt8 × List VaArg} (hw : w < 2 ^ 31)
    (hargs : ShortStrings (.str s :: args)) (h : specText spec pad w (.str (some s) :: args.map vaArg) = .ok r) :
    SameOut r (Tsukasa.fmtSpec spec pad w (.str s :: args)) := by
  rw [specText] at h
  by_cases hs : spec = 115
  · have hne : ¬ (spec = 100 ∨ spec = 105) ∧ spec ≠ 117 ∧ spec ≠ 120 ∧ spec ≠ 88 := by
      rw [hs]
      decide
    have htext := strText_width hw (hargs s List.mem_cons_self) pad
    rw [int32_width hw] at htext
    rw [if_neg hne.1, if_neg hne.2.1, if_neg hne.2.2.1, if_neg hne.2.2.2, if_pos hs, vaStr, Except.ok.injEq] at h
    rw [← h, Tsukasa.fmtSpec, if_pos hs, htext]
    exact ⟨rfl, rfl, fun s hs => hargs s (List.mem_cons_of_mem _ hs)⟩
  · rw [if_neg hs] at h
    split_ifs at h with hd hu hx hX hc hp
    -- the conversions of a number have none
    all_goals cases h
    · rw [Tsukasa.fmtSpec, if_neg hs, if_pos hp]
      exact ⟨rfl, rfl, hargs⟩
    · rw [Tsukasa.fmtSpec, if_neg hs, if_neg hp]
      exact ⟨rfl, rfl, hargs⟩

/-- A conversion that has its argument puts out the same. -/
theorem fmtSpec_of_specText {spec pad : UInt8} {w : Nat} {args : List FmtArg} {r : List UInt8 × List VaArg} (hw : w < 2 ^ 31)
    (hargs : ShortStrings args) (h : specText spec pad w (args.map vaArg) = .ok r) : SameOut r (Tsukasa.fmtSpec spec pad w args) := by
  cases args with
  | nil => exact fmtSpec_none h
  | cons arg args =>
      cases arg with
      | num val => exact fmtSpec_num hargs h
      | str s => exact fmtSpec_str hw hargs h

theorem widthDigit_bounds {c : UInt8} (h : isWidthDigit c) : 49 ≤ c.toNat ∧ c.toNat ≤ 57 :=
  ⟨UInt8.le_iff_toNat_le.mp h.1, UInt8.le_iff_toNat_le.mp h.2⟩

/-- A width of at most nine digits does not overflow. -/
theorem width_step {c : UInt8} {k w : Nat} (hdigit : isWidthDigit c) (hk : k < 9) (hw : w < 10 ^ k) :
    int32 (int32 ((w : Int) * 10) + ((c.toNat : Int) - 48)) = (w * 10 + (c.toNat - 48) : Nat) ∧ w * 10 + (c.toNat - 48) < 10 ^ (k + 1) := by
  obtain ⟨hlow, hhigh⟩ := widthDigit_bounds hdigit
  have hpow : 10 ^ (k + 1) ≤ 10 ^ 9 := Nat.pow_le_pow_right (by decide) hk
  have hnext : w * 10 + (c.toNat - 48) < 10 ^ (k + 1) := by
    rw [Nat.pow_succ]
    omega
  refine ⟨?_, hnext⟩
  rw [int32_int32_add, show (w : Int) * 10 + ((c.toNat : Int) - 48) = (w * 10 + (c.toNat - 48) : Nat) by omega, int32_width (by omega)]

/-- Where the formatter has a defined result, `doFmt` gives its text. -/
theorem fmtText_eq_doFmt {k : Nat} {mode : Tsukasa.FmtMode} {mode' : FmtMode} {fmt text : List UInt8} {args : List FmtArg} (hmode : SameMode k mode mode')
    (hwidths : ShortWidths k fmt) (hargs : ShortStrings args) (h : fmtText mode' fmt (args.map vaArg) = .ok text) :
    Tsukasa.doFmt mode fmt args = text := by
  induction fmt generalizing k mode mode' args text with
  | nil =>
      cases hmode with
      | text => exact Except.ok.inj h
      | flag => cases h
      | width pad hk hw => cases h
  | cons c fmt ih =>
      -- the characters of a conversion, and the rest of the format
      have hspec : ∀ (pad : UInt8) (w : Nat), w < 2 ^ 31 → ¬ isWidthDigit c →
          ((specText c pad w (args.map vaArg)).bind fun r => (fmtText .text fmt r.2).map (r.1 ++ ·)) = .ok text →
          (Tsukasa.fmtSpec c pad w args).1 ++ Tsukasa.doFmt .text fmt (Tsukasa.fmtSpec c pad w args).2 = text := by
        intro pad w hw hdigit hbind
        cases hspec : specText c pad w (args.map vaArg) with
        | error fault =>
            rw [hspec] at hbind
            cases hbind
        | ok r =>
            have hsame := fmtSpec_of_specText hw hargs hspec
            rw [hspec] at hbind
            obtain ⟨s, hs, rfl⟩ := map_append_ok hbind
            rw [ShortWidths, if_neg hdigit] at hwidths
            rw [hsame.args] at hs
            rw [ih (.text 0) hwidths hsame.short hs, hsame.text]
      cases hmode with
      | text =>
          rw [fmtText] at h
          rw [Tsukasa.doFmt]
          rw [ShortWidths] at hwidths
          by_cases hc : c = 37
          · rw [if_pos hc] at h ⊢
            rw [if_neg (by rw [hc]; decide)] at hwidths
            exact ih .flag hwidths hargs h
          · rw [if_neg hc] at h ⊢
            obtain ⟨s, hs, rfl⟩ := map_eq_ok.mp h
            split at hwidths
            · rw [ih (.text (k + 1)) hwidths.2 hargs hs]
            · rw [ih (.text 0) hwidths hargs hs]
      | flag =>
          rw [fmtText] at h
          rw [Tsukasa.doFmt]
          by_cases hzero : c = 48
          · rw [if_pos hzero] at h ⊢
            rw [ShortWidths, if_neg (by rw [hzero]; decide)] at hwidths
            exact ih (.width 48 (by decide) (by decide)) hwidths hargs h
          · rw [if_neg hzero] at h ⊢
            by_cases hdigit : isWidthDigit c
            · obtain ⟨hlow, hhigh⟩ := widthDigit_bounds hdigit
              rw [if_pos hdigit, show (c.toNat : Int) - 48 = (c.toNat - 48 : Nat) by omega] at h
              rw [if_pos (show 49 ≤ c ∧ c ≤ 57 from hdigit)]
              rw [ShortWidths, if_pos hdigit] at hwidths
              exact ih (.width 32 hwidths.1 (by omega)) hwidths.2 hargs h
            · rw [if_neg hdigit] at h
              rw [if_neg (show ¬ (49 ≤ c ∧ c ≤ 57) from hdigit)]
              exact hspec 32 0 (by decide) hdigit h
      | @width _ w pad hk hw =>
          have hpow : 10 ^ k ≤ 10 ^ 9 := Nat.pow_le_pow_right (by decide) hk
          rw [fmtText] at h
          rw [Tsukasa.doFmt]
          by_cases hdigit : isWidthDigit c
          · rw [ShortWidths, if_pos hdigit] at hwidths
            obtain ⟨hint, hnext⟩ := width_step hdigit hwidths.1 hw
            rw [if_pos hdigit, hint] at h
            rw [if_pos (show 49 ≤ c ∧ c ≤ 57 from hdigit)]
            exact ih (.width pad hwidths.1 hnext) hwidths.2 hargs h
          · rw [if_neg hdigit] at h
            rw [if_neg (show ¬ (49 ≤ c ∧ c ≤ 57) from hdigit)]
            exact hspec pad w (by omega) hdigit h

/-- Where the formatter has a defined result, the buffer gets the string of the simpler model. -/
theorem ksprintf_agrees {n : Nat} (hn : 1 ≤ n) (bytes : Nat → UInt8) {fmt text : List UInt8} {args : List FmtArg} (hwidths : ShortWidths 0 fmt)
    (hargs : ShortStrings args) (h : fmtText .text fmt (args.map vaArg) = .ok text) :
    ∃ buf, ksprintf bytes n fmt (args.map vaArg) = .ok (int32 (Tsukasa.ksprintf n fmt args).1, buf) ∧
      buf.string (Tsukasa.ksprintf n fmt args).2.length = (Tsukasa.ksprintf n fmt args).2 := by
  obtain ⟨buf, hret, hholds⟩ := ksprintf_eq hn bytes h
  rw [Tsukasa.ksprintf]
  dsimp only
  rw [fmtText_eq_doFmt (.text 0) hwidths hargs h, List.length_take, Nat.min_comm]
  exact ⟨buf, hret, hholds.chars⟩

end Kprintf

end Tsukasa
