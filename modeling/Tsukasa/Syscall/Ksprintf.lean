import Tsukasa.Base.Word
import Mathlib.Data.List.Basic

/-!
# Formatted text

`ksprintf` of `lib/kprintf.c`. A C string is the list of its bytes before the terminator, and a format is read one character at a time.
-/

namespace Tsukasa

/-- The bytes of a string literal of the source. -/
def ascii (s : String) : List UInt8 := s.toList.map fun c => UInt8.ofNat c.toNat

def hexLower : List UInt8 := ascii "0123456789abcdef"
def hexUpper : List UInt8 := ascii "0123456789ABCDEF"

/-- The loop of `uint_to_buf`, the lowest digit first; a 32-bit value has at most 32 digits. -/
def uintLoop (base : Nat) (digits : List UInt8) : Nat → Nat → List UInt8
  | 0, _ => []
  | fuel + 1, val => if val = 0 then [] else digits.getD (val % base) 0 :: uintLoop base digits fuel (val / base)

def uintToBuf (val base : Nat) (digits : List UInt8) : List UInt8 :=
  if val = 0 then [48] else (uintLoop base digits 32 val).reverse

inductive FmtArg where
  | num (val : Nat)
  | str (s : List UInt8)

/-- `fmt_pad` in front of some text. -/
def fmtPad (pad : UInt8) (width : Nat) (text : List UInt8) : List UInt8 := List.replicate (width - text.length) pad ++ text

/-- Where `do_fmt` is: in the text, behind a percent sign, or in the width behind it. -/
inductive FmtMode where
  | text
  | flag
  | width (pad : UInt8) (width : Nat)

/-- What one conversion of `do_fmt` puts out, and the arguments left. -/
def fmtSpec (spec pad : UInt8) (width : Nat) (args : List FmtArg) : List UInt8 × List FmtArg :=
  match args with
  | .num val :: rest =>
      if spec = 117 then (fmtPad pad width (uintToBuf (wrap32 val) 10 hexLower), rest)
      else if spec = 120 then (fmtPad pad width (uintToBuf (wrap32 val) 16 hexLower), rest)
      else if spec = 88 then (fmtPad pad width (uintToBuf (wrap32 val) 16 hexUpper), rest)
      else if spec = 100 ∨ spec = 105 then
        if toInt32 val < 0 then (45 :: fmtPad pad width (uintToBuf (2 ^ 32 - wrap32 val) 10 hexLower), rest)
        else (fmtPad pad width (uintToBuf (wrap32 val) 10 hexLower), rest)
      else if spec = 99 then ([UInt8.ofNat val], rest)
      else if spec = 37 then ([37], args)
      else ([37, spec], args)
  | .str s :: rest =>
      if spec = 115 then (fmtPad pad width s, rest)
      else if spec = 37 then ([37], args)
      else ([37, spec], args)
  | [] => if spec = 37 then ([37], []) else ([37, spec], [])

/-- `do_fmt`: the characters that it puts out. -/
def doFmt : FmtMode → List UInt8 → List FmtArg → List UInt8
  | _, [], _ => []
  | .text, c :: fmt, args => if c = 37 then doFmt .flag fmt args else c :: doFmt .text fmt args
  | .flag, c :: fmt, args =>
      if c = 48 then doFmt (.width 48 0) fmt args
      else if 49 ≤ c ∧ c ≤ 57 then doFmt (.width 32 (c.toNat - 48)) fmt args
      else (fmtSpec c 32 0 args).1 ++ doFmt .text fmt (fmtSpec c 32 0 args).2
  | .width pad width, c :: fmt, args =>
      if 49 ≤ c ∧ c ≤ 57 then doFmt (.width pad (width * 10 + (c.toNat - 48))) fmt args
      else (fmtSpec c pad width args).1 ++ doFmt .text fmt (fmtSpec c pad width args).2

/-- `ksprintf` into a buffer of `n` bytes: the return value, and the string in the buffer. -/
def ksprintf (n : Nat) (fmt : List UInt8) (args : List FmtArg) : Nat × List UInt8 :=
  let out := doFmt .text fmt args
  (out.length, out.take (n - 1))

/-! ### Hexadecimal words -/

/-- The lowest `n` hexadecimal digits of a value. -/
def hexDigits : Nat → Nat → List UInt8
  | 0, _ => []
  | n + 1, val => hexDigits n (val / 16) ++ [hexUpper.getD (val % 16) 0]

theorem hexDigits_length (n val : Nat) : (hexDigits n val).length = n := by
  induction n generalizing val with
  | zero => rfl
  | succ n ih => rw [hexDigits, List.length_append, ih, List.length_singleton]

theorem hexDigits_zero (n : Nat) : hexDigits n 0 = List.replicate n 48 := by
  induction n with
  | zero => rfl
  | succ n ih =>
      rw [hexDigits, Nat.zero_div, ih, List.replicate_succ']
      rfl

theorem uintLoop_pad (n fuel val : Nat) (hval : val < 16 ^ n) (hfuel : n ≤ fuel) :
    List.replicate (n - (uintLoop 16 hexUpper fuel val).length) 48 ++ (uintLoop 16 hexUpper fuel val).reverse = hexDigits n val := by
  induction n generalizing fuel val with
  | zero =>
      have hzero : val = 0 := by omega
      subst hzero
      cases fuel with
      | zero => rfl
      | succ fuel => rfl
  | succ n ih =>
      obtain ⟨fuel, rfl⟩ := Nat.exists_eq_succ_of_ne_zero (Nat.ne_of_gt (Nat.lt_of_lt_of_le (Nat.succ_pos n) hfuel))
      by_cases hzero : val = 0
      · subst hzero
        rw [hexDigits_zero, uintLoop, if_pos rfl]
        simp
      · have hdiv : val / 16 < 16 ^ n := by
          rw [Nat.pow_succ] at hval
          exact Nat.div_lt_of_lt_mul (by omega)
        have hrest := ih fuel (val / 16) hdiv (by omega)
        rw [uintLoop, if_neg hzero, hexDigits, ← hrest]
        simp [Nat.add_sub_add_right]

/-- A word with the conversion `%08X`. -/
theorem fmtPad_hex (val : Nat) : fmtPad 48 8 (uintToBuf (wrap32 val) 16 hexUpper) = hexDigits 8 (wrap32 val) := by
  have hlt : wrap32 val < 16 ^ 8 := wrap32_lt val
  rw [uintToBuf]
  split
  · rename_i hzero
    rw [hzero, hexDigits_zero]
    rfl
  · have hpad := uintLoop_pad 8 32 (wrap32 val) hlt (by decide)
    rw [fmtPad, List.length_reverse]
    exact hpad

end Tsukasa
