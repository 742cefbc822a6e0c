import Tsukasa.Text.Printf
import Tsukasa.Text.Stdio
import Tsukasa.Lib.CString

/-!
# Decimal numbers as text

`k_atoi` and `k_itoa` of `lib/kutils.c`, and `strtol` and `atoi` of `user/lib/stdlib.c`. Sums and negations of an `int` or a `long` wrap. A loop over a string takes fuel, and comes back where there is a character to stop at.

Both parsers read the digits from the highest down, so what they have read so far is the number of these digits, up to the wrap.
-/

namespace Tsukasa

namespace Atoi

open Lib (Memory CString scan)
open Kprintf (digitText digitText_toNat uintLoop_eq)
open Stdio (vsnprintf vsnprintf_eq vfmtText outIText)

/-- The value of a `long` sum. -/
def int64 (x : Int) : Int := x.bmod (2 ^ 64)

def isSpace (c : UInt8) : Bool := c = 32 || c = 9 || c = 10 || c = 13

def isDigit (c : UInt8) : Prop := 48 ≤ c ∧ c ≤ 57

instance (c : UInt8) : Decidable (isDigit c) := inferInstanceAs (Decidable (48 ≤ c ∧ c ≤ 57))

/-- The loop of `k_atoi` over the digits. -/
def kAtoiLoop (m : Memory) : Nat → Nat → Int → Option Int
  | 0, _, _ => none
  | fuel + 1, str, value => if isDigit (m str) then kAtoiLoop m fuel (str + 1) (int32 (int32 (value * 10) + ((m str).toNat - 48))) else some value

def kAtoi (fuel : Nat) (m : Memory) (str : Nat) : Option Int :=
  (scan (fun c => !isSpace c) m fuel str).bind fun str =>
    let sign : Int := if m str = 45 then -1 else 1
    let str := if m str = 43 ∨ m str = 45 then str + 1 else str
    (kAtoiLoop m fuel str 0).map fun value => int32 (value * sign)

/-- The loop that leaves the digits in `tmp`. -/
def kItoaLoop : Nat → Int → List UInt8 → Option (List UInt8)
  | 0, _, _ => none
  | fuel + 1, n, tmp => if 0 < n then kItoaLoop fuel (n.tdiv 10) (tmp ++ [UInt8.ofNat (n.tmod 10 + 48).toNat]) else some tmp

/-- The loop that stores characters one behind the other. -/
def copyOut (m : Memory) (buf : Nat) : List UInt8 → Memory
  | [] => m
  | c :: s => copyOut (Function.update m buf c) (buf + 1) s

/-- `k_itoa`: the memory behind it. -/
def kItoa (fuel : Nat) (m : Memory) (n : Int) (buf : Nat) : Option Memory :=
  if n = 0 then some (Function.update (Function.update m buf 48) (buf + 1) 0)
  else (kItoaLoop fuel (if n < 0 then int32 (-n) else n) []).map fun tmp =>
    let tmp := if n < 0 then tmp ++ [45] else tmp
    Function.update (copyOut m buf tmp.reverse) (buf + tmp.length) 0

/-- The value of a digit or letter. -/
def digitOf (c : UInt8) : Option Int :=
  if isDigit c then some (c.toNat - 48)
  else if 97 ≤ c ∧ c ≤ 122 then some (c.toNat - 97 + 10)
  else if 65 ≤ c ∧ c ≤ 90 then some (c.toNat - 65 + 10)
  else none

/-- The loop of `strtol` over the digits: the value, and where it stops. -/
def strtolLoop (m : Memory) (base : Int) : Nat → Nat → Int → Option (Int × Nat)
  | 0, _, _ => none
  | fuel + 1, p, v =>
      if m p = 0 then some (v, p)
      else match digitOf (m p) with
        | none => some (v, p)
        | some d => if base ≤ d then some (v, p) else strtolLoop m base fuel (p + 1) (int64 (int64 (v * base) + d))

/-- The base, and where the digits start. -/
def strtolBase (m : Memory) (base : Int) (p : Nat) : Int × Nat :=
  if base = 0 then
    if m p = 48 ∧ (m (p + 1) = 120 ∨ m (p + 1) = 88) then (16, p + 2)
    else if m p = 48 then (8, p + 1)
    else (10, p)
  else (base, p)

/-- `strtol`: the value, and what it stores to `endptr`. A null pointer is `none`. -/
def strtol (fuel : Nat) (m : Memory) (nptr : Option Nat) (base : Int) : Option (Int × Option Nat) :=
  match nptr with
  | none => some (0, none)
  | some p => (scan (fun c => !isSpace c) m fuel p).bind fun p =>
      let start := strtolBase m base (if m p = 45 ∨ m p = 43 then p + 1 else p)
      (strtolLoop m start.1 fuel start.2 0).map fun r => (if m p = 45 then int64 (-r.1) else r.1, some r.2)

def atoi (fuel : Nat) (m : Memory) (nptr : Option Nat) : Option Int := (strtol fuel m nptr 10).map fun r => int32 r.1

def snprintf (bytes : Nat → UInt8) (size : Nat) (fmt : List UInt8) (args : List Kprintf.VaArg) : Except Kprintf.FmtFault (Int × Kprintf.Buf) :=
  vsnprintf bytes size fmt args

variable {m : Memory} {p q fuel v d : Nat} {n : Int} {ds : List Nat} {s : List UInt8}

/-! ### Digits -/

/-- The decimal digits of a number, the highest first. -/
def decimal (v : Nat) : List Nat := if v = 0 then [0] else (Nat.digits 10 v).reverse

/-- The number that digits make. -/
def value (ds : List Nat) : Int := ds.foldl (fun (v : Int) (d : Nat) => v * 10 + d) 0

theorem value_append (ds : List Nat) (d : Nat) : value (ds ++ [d]) = value ds * 10 + d := by
  rw [value, List.foldl_append]
  rfl

theorem value_decimal (v : Nat) : value (decimal v) = v := by
  rw [decimal]
  split
  · rename_i hzero
    rw [hzero]
    rfl
  · rw [value, List.foldl_reverse]
    have hfold : ∀ ds : List Nat, ds.foldr (fun (d : Nat) (v : Int) => v * 10 + d) 0 = (Nat.ofDigits 10 ds : Nat) := by
      intro ds
      induction ds with
      | nil => rfl
      | cons d ds ih =>
          rw [List.foldr_cons, ih, Nat.ofDigits_cons]
          push_cast
          ring
    rw [hfold, Nat.ofDigits_digits]

theorem decimal_lt (hd : d ∈ decimal v) : d < 10 := by
  rw [decimal] at hd
  split at hd
  · rw [List.mem_singleton.mp hd]
    decide
  · exact Nat.digits_lt_base (by decide) (List.mem_reverse.mp hd)

theorem decimal_ne_nil (v : Nat) : decimal v ≠ [] := by
  rw [decimal]
  split
  · exact List.cons_ne_nil _ _
  · rename_i hne
    exact List.reverse_ne_nil_iff.mpr (Nat.digits_ne_nil_iff_ne_zero.mpr hne)

theorem length_decimal (hv : v < 10 ^ 10) : (decimal v).length ≤ 10 := by
  rw [decimal]
  split
  · decide
  · rw [List.length_reverse]
    exact (Nat.digits_length_le_iff (by decide) v).mpr hv

theorem hexLower_digit (hd : d < 10) : hexLower.getD d 0 = digitText d := by
  have hall : ∀ d < 10, hexLower.getD d 0 = digitText d := by decide
  exact hall d hd

theorem uintToBuf_decimal (hv : v < 10 ^ 32) : uintToBuf v 10 hexLower = (decimal v).map digitText := by
  rw [uintToBuf, decimal]
  split
  · rfl
  · rw [uintLoop_eq (by decide) hexLower hv, List.map_reverse]
    congr 1
    apply List.map_congr_left
    intro d hd
    exact hexLower_digit (Nat.digits_lt_base (by decide) hd)

theorem isDigit_digitText (hd : d < 10) : isDigit (digitText d) := by
  rw [isDigit, UInt8.le_iff_toNat_le, UInt8.le_iff_toNat_le, digitText_toNat hd]
  exact ⟨Nat.le_add_right 48 d, by change 48 + d ≤ 57; omega⟩

/-- The text of a number: its sign, and its digits. -/
theorem outIText_decimal (hn : n.natAbs < 10 ^ 32) : outIText n = (if n < 0 then [45] else []) ++ (decimal n.natAbs).map digitText := by
  rw [outIText]
  split
  · rw [show (-n).toNat = n.natAbs by omega, uintToBuf_decimal hn]
    rfl
  · rw [show n.toNat = n.natAbs by omega, uintToBuf_decimal hn, List.nil_append]

theorem length_outIText (hn : n.natAbs < 10 ^ 10) : (outIText n).length ≤ 11 := by
  have hlength := length_decimal hn
  rw [outIText_decimal (by omega), List.length_append, List.length_map]
  split
  · rw [List.length_singleton]
    omega
  · rw [List.length_nil]
    omega

/-! ### Reading -/

/-- What the text of a number looks like to a parser: no white space, the sign, and the digits. -/
theorem read_outIText (h : CString m p (outIText n)) (hn : n.natAbs < 10 ^ 10) :
    isSpace (m p) = false ∧ m p ≠ 43 ∧ (m p = 45 ↔ n < 0) ∧ CString m (if n < 0 then p + 1 else p) ((decimal n.natAbs).map digitText) := by
  rw [outIText_decimal (by omega)] at h
  by_cases hneg : n < 0
  · rw [if_pos hneg] at h ⊢
    rw [h.head]
    exact ⟨by decide, by decide, iff_of_true rfl hneg, h.tail⟩
  · rw [if_neg hneg, List.nil_append] at h
    rw [if_neg hneg]
    obtain ⟨d, ds, hds⟩ := List.exists_cons_of_ne_nil (decimal_ne_nil n.natAbs)
    have hdigit : m p = digitText d := by
      rw [hds, List.map_cons] at h
      exact h.head
    have hd : d < 10 := decimal_lt (hds ▸ List.mem_cons_self)
    have hplain : ∀ d < 10, isSpace (digitText d) = false ∧ digitText d ≠ 43 ∧ digitText d ≠ 45 := by decide
    obtain ⟨hspace, hplus, hminus⟩ := hplain d hd
    rw [hdigit]
    exact ⟨hspace, hplus, iff_of_false hminus hneg, h⟩

theorem scan_stop {stop : UInt8 → Bool} (hstop : stop (m p) = true) (hfuel : 0 < fuel) : scan stop m fuel p = some p := by
  obtain ⟨fuel, rfl⟩ := Nat.exists_eq_add_one_of_ne_zero (Nat.ne_of_gt hfuel)
  rw [scan, if_pos hstop]

theorem kAtoiLoop_eq (done : List Nat) (hds : ∀ d ∈ ds, d < 10) (h : CString m p (ds.map digitText)) (hfuel : ds.length < fuel) :
    kAtoiLoop m fuel p (int32 (value done)) = some (int32 (value (done ++ ds))) := by
  induction ds generalizing p fuel done with
  | nil =>
      obtain ⟨fuel, rfl⟩ := Nat.exists_eq_add_one_of_ne_zero (Nat.ne_of_gt hfuel)
      have hnul : m p = 0 := h.nul
      rw [kAtoiLoop, if_neg (by rw [hnul]; decide), List.append_nil]
  | cons d ds ih =>
      obtain ⟨fuel, rfl⟩ := Nat.exists_eq_add_one_of_ne_zero (show fuel ≠ 0 by omega)
      have hd : d < 10 := hds d List.mem_cons_self
      have hrest := ih (done ++ [d]) (fun e he => hds e (List.mem_cons_of_mem d he)) h.tail (Nat.lt_of_succ_lt_succ hfuel)
      rw [kAtoiLoop, h.head, if_pos (isDigit_digitText hd), digitText_toNat hd]
      have hstep : int32 (int32 (int32 (value done) * 10) + (((48 + d : Nat) : Int) - 48)) = int32 (value (done ++ [d])) := by
        rw [int32_int32_mul, int32_int32_add, value_append]
        congr 1
        omega
      rw [hstep, hrest, List.append_assoc]
      rfl

/-- Parsing gives back the number, up to the wrap. -/
theorem kAtoi_eq (h : CString m p (outIText n)) (hn : n.natAbs < 10 ^ 10) (hfuel : 11 ≤ fuel) : kAtoi fuel m p = some (int32 n) := by
  obtain ⟨hspace, hplus, hminus, hdigits⟩ := read_outIText h hn
  have hloop := kAtoiLoop_eq [] (fun d => decimal_lt) hdigits (Nat.lt_of_le_of_lt (length_decimal hn) hfuel)
  rw [List.nil_append, value_decimal] at hloop
  rw [kAtoi, scan_stop (by rw [hspace]; rfl) (by omega), Option.bind_some]
  dsimp only
  simp only [hplus, hminus, false_or]
  change (kAtoiLoop m fuel _ (int32 (value []))).map _ = _
  rw [hloop, Option.map_some, int32_int32_mul]
  congr 2
  split <;> omega

theorem digitOf_digitText (hd : d < 10) : digitOf (digitText d) = some (d : Int) := by
  rw [digitOf, if_pos (isDigit_digitText hd), digitText_toNat hd]
  congr 1
  omega

theorem strtolLoop_eq (done : List Nat) (hds : ∀ d ∈ ds, d < 10) (h : CString m p (ds.map digitText)) (hfuel : ds.length < fuel) :
    strtolLoop m 10 fuel p (int64 (value done)) = some (int64 (value (done ++ ds)), p + ds.length) := by
  induction ds generalizing p fuel done with
  | nil =>
      obtain ⟨fuel, rfl⟩ := Nat.exists_eq_add_one_of_ne_zero (Nat.ne_of_gt hfuel)
      have hnul : m p = 0 := h.nul
      rw [strtolLoop, if_pos hnul, List.append_nil]
      rfl
  | cons d ds ih =>
      obtain ⟨fuel, rfl⟩ := Nat.exists_eq_add_one_of_ne_zero (show fuel ≠ 0 by omega)
      have hd : d < 10 := hds d List.mem_cons_self
      have hnonzero : digitText d ≠ 0 := by
        have hall : ∀ d < 10, digitText d ≠ 0 := by decide
        exact hall d hd
      have hrest := ih (done ++ [d]) (fun e he => hds e (List.mem_cons_of_mem d he)) h.tail (Nat.lt_of_succ_lt_succ hfuel)
      have hstep : int64 (int64 (int64 (value done) * 10) + (d : Int)) = int64 (value (done ++ [d])) := by
        rw [value_append, int64, int64, int64, Int.bmod_mul_bmod, Int.bmod_add_bmod, int64]
      rw [strtolLoop, h.head, if_neg hnonzero, digitOf_digitText hd]
      dsimp only
      rw [if_neg (by omega), hstep, hrest, List.append_assoc, List.length_cons, Nat.add_assoc, Nat.add_comm 1]
      rfl

theorem int32_int64 (v : Int) : int32 (int64 v) = int32 v := Int.bmod_bmod_of_dvd (by decide)

theorem int64_neg (v : Int) : int64 (-int64 v) = int64 (-v) := Int.bmod_neg_bmod

/-- `atoi` gives back the number, up to the wrap. -/
theorem atoi_eq (h : CString m p (outIText n)) (hn : n.natAbs < 10 ^ 10) (hfuel : 11 ≤ fuel) : atoi fuel m (some p) = some (int32 n) := by
  obtain ⟨hspace, hplus, hminus, hdigits⟩ := read_outIText h hn
  have hloop := strtolLoop_eq [] (fun d => decimal_lt) hdigits (Nat.lt_of_le_of_lt (length_decimal hn) hfuel)
  rw [List.nil_append, value_decimal] at hloop
  have hbase : ∀ p, strtolBase m 10 p = (10, p) := fun p => rfl
  rw [atoi, strtol]
  dsimp only
  rw [scan_stop (by rw [hspace]; rfl) (by omega), Option.bind_some]
  simp only [hplus, hminus, or_false, hbase]
  change ((strtolLoop m 10 fuel _ (int64 (value []))).map _).map _ = _
  rw [hloop, Option.map_some, Option.map_some]
  dsimp only
  split
  · rename_i hneg
    rw [int64_neg, int32_int64]
    congr 2
    omega
  · rename_i hpos
    rw [int32_int64]
    congr 2
    omega

/-! ### Writing -/

theorem copyOut_of_lt {x : Nat} (h : x < p) : copyOut m p s x = m x := by
  induction s generalizing m p with
  | nil => rfl
  | cons c s ih => rw [copyOut, ih (Nat.lt_succ_of_lt h), Function.update_of_ne (Nat.ne_of_lt h)]

theorem copyOut_chars (m : Memory) (p : Nat) (s : List UInt8) : (copyOut m p s).bytes p s.length = s := by
  induction s generalizing m p with
  | nil => rfl
  | cons c s ih => rw [List.length_cons, Lib.bytes_succ, copyOut, ih, copyOut_of_lt (Nat.lt_succ_self p), Function.update_self]

/-- A copied string with its terminator. -/
theorem copyOut_string (hs : 0 ∉ s) : CString (Function.update (copyOut m p s) (p + s.length) 0) p s := by
  refine ⟨?_, Function.update_self _ _ _, hs⟩
  rw [Memory.bytes_congr fun x _ hx => Function.update_of_ne (Nat.ne_of_lt hx) _ _]
  exact copyOut_chars m p s

theorem kItoaLoop_eq {tmp : List UInt8} (hv : v < 10 ^ fuel) : kItoaLoop (fuel + 1) v tmp = some (tmp ++ (Nat.digits 10 v).map digitText) := by
  induction fuel generalizing v tmp with
  | zero =>
      rw [Nat.pow_zero, Nat.lt_one_iff] at hv
      rw [hv, Nat.digits_zero, List.map_nil, List.append_nil]
      rfl
  | succ fuel ih =>
      rw [kItoaLoop]
      by_cases hpos : 0 < v
      · have hdiv : v / 10 < 10 ^ fuel := by
          rw [Nat.pow_succ'] at hv
          exact Nat.div_lt_of_lt_mul hv
        have hdigit : UInt8.ofNat ((v : Int).tmod 10 + 48).toNat = digitText (v % 10) := by
          have hmod : (v : Int).tmod 10 = (v % 10 : Nat) := rfl
          rw [digitText, hmod]
          congr 1
          omega
        have hrest : (v : Int).tdiv 10 = (v / 10 : Nat) := rfl
        rw [if_pos (by omega), hdigit, hrest, ih hdiv, Nat.digits_def' (by decide) hpos, List.map_cons, List.append_assoc]
        rfl
      · have hzero : v = 0 := by omega
        rw [if_neg (by omega), hzero, Nat.digits_zero, List.map_nil, List.append_nil]

theorem zero_not_mem_outIText (hn : n.natAbs < 10 ^ 32) : 0 ∉ outIText n := by
  have hplain : ∀ d < 10, digitText d ≠ 0 := by decide
  rw [outIText_decimal hn, List.mem_append, List.mem_map]
  intro hmem
  cases hmem with
  | inl hsign =>
      split at hsign
      · exact absurd (List.mem_singleton.mp hsign) (by decide)
      · exact absurd hsign List.not_mem_nil
  | inr hdigit =>
      obtain ⟨d, hd, hzero⟩ := hdigit
      exact hplain d (decimal_lt hd) hzero

/-- But for the least `int`, `k_itoa` writes the text of the number. -/
theorem kItoa_string (m : Memory) (p : Nat) (hlow : -2 ^ 31 < n) (hhigh : n < 2 ^ 31) (hfuel : 11 ≤ fuel) :
    ∃ m', kItoa fuel m n p = some m' ∧ CString m' p (outIText n) := by
  rw [kItoa]
  by_cases hzero : n = 0
  · rw [if_pos hzero, hzero]
    exact ⟨_, rfl, copyOut_string (show (0 : UInt8) ∉ [48] by decide)⟩
  · have hmag : (if n < 0 then int32 (-n) else n) = (n.natAbs : Int) := by
      split
      · rw [int32_eq_self (by omega) (by omega)]
        omega
      · omega
    obtain ⟨fuel, rfl⟩ := Nat.exists_eq_add_of_le' hfuel
    have hbound : n.natAbs < 10 ^ (fuel + 10) := Nat.lt_of_lt_of_le (show n.natAbs < 10 ^ 10 by omega) (Nat.pow_le_pow_right (by decide) (by omega))
    rw [if_neg hzero, hmag, kItoaLoop_eq hbound, Option.map_some, List.nil_append]
    refine ⟨_, rfl, ?_⟩
    have htext : (if n < 0 then (Nat.digits 10 n.natAbs).map digitText ++ [45] else (Nat.digits 10 n.natAbs).map digitText).reverse = outIText n := by
      have hdigits : decimal n.natAbs = (Nat.digits 10 n.natAbs).reverse := if_neg (by omega)
      rw [outIText_decimal (by omega), hdigits, List.map_reverse]
      split
      · rw [List.reverse_append]
        rfl
      · rfl
    dsimp only
    rw [← List.length_reverse, htext]
    exact copyOut_string (zero_not_mem_outIText (by omega))

/-- The negation of the least `int` is negative, so no digit is written. -/
theorem kItoa_least (m : Memory) (p : Nat) (hfuel : 1 ≤ fuel) : ∃ m', kItoa fuel m (-2 ^ 31) p = some m' ∧ CString m' p [45] := by
  obtain ⟨fuel, rfl⟩ := Nat.exists_eq_add_of_le' hfuel
  exact ⟨_, rfl, copyOut_string (show (0 : UInt8) ∉ [45] by decide)⟩

theorem kAtoi_sign (h : CString m p [45]) (hfuel : 1 ≤ fuel) : kAtoi fuel m p = some 0 := by
  obtain ⟨fuel, rfl⟩ := Nat.exists_eq_add_of_le' hfuel
  have hnul : m (p + 1) = 0 := h.nul
  rw [kAtoi, scan_stop (by rw [h.head]; rfl) hfuel, Option.bind_some]
  dsimp only
  rw [h.head, if_pos rfl, if_pos (Or.inr rfl), kAtoiLoop, hnul]
  rfl

/-- What `snprintf` leaves in a buffer of twelve bytes or more. -/
theorem snprintf_string (bytes : Nat → UInt8) {size : Nat} (val : Nat) (hsize : 12 ≤ size) :
    ∃ ret buf, snprintf bytes size (ascii "%d") [.num val] = .ok (ret, buf) ∧ CString buf.bytes 0 (outIText (toInt32 val)) := by
  obtain ⟨hlow, hhigh⟩ := toInt32_bounds val
  have htext : vfmtText (ascii "%d") [.num val] = .ok (outIText (toInt32 val)) := by
    change Except.ok (outIText (toInt32 val) ++ []) = _
    rw [List.append_nil]
  have hlength : (outIText (toInt32 val)).length ≤ 11 := length_outIText (by omega)
  obtain ⟨buf, hret, hholds⟩ := vsnprintf_eq (show 1 ≤ size by omega) bytes htext
  have hchars := hholds.chars
  have hnul := hholds.nul
  rw [Nat.min_eq_left (by omega)] at hchars hnul
  rw [List.take_of_length_le (by omega)] at hchars
  refine ⟨_, buf, hret, ?_, ?_, zero_not_mem_outIText (by omega)⟩
  · have hstring : Memory.bytes buf.bytes 0 (outIText (toInt32 val)).length = buf.string (outIText (toInt32 val)).length := by
      apply List.map_congr_left
      intro i _
      rw [Nat.zero_add]
    rw [hstring, hchars]
  · rw [Nat.zero_add]
    exact hnul

/-! ### Round trips -/

/-- `k_itoa` into memory at `buf`, and `k_atoi` of what it has written there. -/
def KernelRound (m : Memory) (buf : Nat) (n : Int) : Prop := ∃ N, ∀ fuel, N ≤ fuel → ((kItoa fuel m n buf).bind fun m' => kAtoi fuel m' buf) = some n

/-- `snprintf` with `%d` into a buffer, and `atoi` of what it has left there. -/
def UserRound (bytes : Nat → UInt8) (size val : Nat) (n : Int) : Prop :=
  ∃ N ret buf, snprintf bytes size (ascii "%d") [.num val] = .ok (ret, buf) ∧ ∀ fuel, N ≤ fuel → atoi fuel buf.bytes (some 0) = some n

theorem kernelRound_iff (m : Memory) (buf : Nat) (hlow : -2 ^ 31 ≤ n) (hhigh : n < 2 ^ 31) : KernelRound m buf n ↔ n ≠ -2 ^ 31 := by
  constructor
  · intro h hleast
    obtain ⟨N, hround⟩ := h
    have hrun := hround (N + 1) (Nat.le_succ N)
    obtain ⟨m', hwrite, hstring⟩ := kItoa_least m buf (Nat.le_add_left 1 N)
    rw [hleast, hwrite, Option.bind_some, kAtoi_sign hstring (Nat.le_add_left 1 N)] at hrun
    exact absurd (Option.some.inj hrun) (by decide)
  · intro hne
    refine ⟨11, fun fuel hfuel => ?_⟩
    obtain ⟨m', hwrite, hstring⟩ := kItoa_string m buf (lt_of_le_of_ne hlow hne.symm) hhigh hfuel
    rw [hwrite, Option.bind_some, kAtoi_eq hstring (by omega) hfuel, int32_eq_self hlow hhigh]

theorem userRound (bytes : Nat → UInt8) {size val : Nat} (hsize : 12 ≤ size) (hval : toInt32 val = n) : UserRound bytes size val n := by
  obtain ⟨hlow, hhigh⟩ := toInt32_bounds val
  rw [hval] at hlow hhigh
  obtain ⟨ret, buf, hprint, hstring⟩ := snprintf_string bytes val hsize
  rw [hval] at hstring
  refine ⟨11, ret, buf, hprint, fun fuel hfuel => ?_⟩
  rw [atoi_eq hstring (by omega) hfuel, int32_eq_self hlow hhigh]

/-- Printing and parsing are inverse for every `int` in the library of the applications, and for every one but the least in the kernel. `val` is the slot of the argument. -/
theorem decimal_roundTrips_iff (m : Memory) (buf : Nat) (bytes : Nat → UInt8) {size val : Nat} (hlow : -2 ^ 31 ≤ n) (hhigh : n < 2 ^ 31) (hsize : 12 ≤ size)
    (hval : toInt32 val = n) : UserRound bytes size val n ∧ (KernelRound m buf n ∧ UserRound bytes size val n ↔ n ≠ -2 ^ 31) := by
  have huser := userRound bytes hsize hval
  exact ⟨huser, (and_iff_left huser).trans (kernelRound_iff m buf hlow hhigh)⟩

theorem decimal_roundTrips_negative : UserRound (fun _ => 255) 12 (2 ^ 32 - 120) (-120) ∧
    (KernelRound (fun _ => 255) 16 (-120) ∧ UserRound (fun _ => 255) 12 (2 ^ 32 - 120) (-120) ↔ (-120 : Int) ≠ -2 ^ 31) :=
  decimal_roundTrips_iff (fun _ => 255) 16 (fun _ => 255) (by decide) (by decide) (by decide) (by decide)

/-- The least `int` is written as a sign without digits, which is read as 0. -/
theorem least_lost : (∃ m', kItoa 11 (fun _ => 255) (-2 ^ 31) 16 = some m' ∧ CString m' 16 [45] ∧ kAtoi 11 m' 16 = some 0) ∧
    ¬ KernelRound (fun _ => 255) 16 (-2 ^ 31) := by
  constructor
  · obtain ⟨m', hwrite, hstring⟩ := kItoa_least (fun _ => 255) 16 (show 1 ≤ 11 by decide)
    exact ⟨m', hwrite, hstring, kAtoi_sign hstring (by decide)⟩
  · exact fun h => (kernelRound_iff _ 16 (by decide) (by decide)).mp h rfl

end Atoi

end Tsukasa
