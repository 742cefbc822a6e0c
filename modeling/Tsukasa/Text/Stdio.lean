import Tsukasa.Text.Kprintf

/-!
# Formatted output of the applications

`user/lib/stdio.c`. The formatter writes each character to a file, or keeps what fits of them in a buffer that is terminated all the time.
-/

namespace Tsukasa

namespace Stdio

open Kprintf (VaArg FmtFault Buf vaNum vaStr vaNum_map vaStr_map kprintf kprintf_eq ksprintf_eq fmtText)

/-- `fmt_out_t`; `written` is what has been handed to `write`. -/
structure FmtOut where
  buf : Buf
  cap : Nat
  len : Nat
  toBuf : Bool
  count : Int
  written : List UInt8

variable {o : FmtOut} {fmt text : List UInt8} {args : List VaArg}

def outChar (o : FmtOut) (c : UInt8) : FmtOut :=
  let o := { o with count := int32 (o.count + 1) }
  if o.toBuf then
    if 0 < o.cap ∧ o.len + 1 < o.cap then { o with buf := (o.buf.store o.len c).store (o.len + 1) 0, len := o.len + 1 }
    else if 0 < o.cap ∧ o.len + 1 = o.cap then { o with buf := o.buf.store o.len 0 }
    else o
  else { o with written := o.written ++ [c] }

def outStr (o : FmtOut) (s : Option (List UInt8)) : FmtOut := (s.getD (ascii "(null)")).foldl outChar o

def outU (o : FmtOut) (v base : Nat) (upper : Bool) : FmtOut :=
  (uintToBuf v base (if upper then hexUpper else hexLower)).foldl outChar o

def outI (o : FmtOut) (v : Int) : FmtOut := if v < 0 then outU (outChar o 45) (-v).toNat 10 false else outU o v.toNat 10 false

/-- The cases of `vfmt` for a conversion. -/
def vfmtSpec (o : FmtOut) (spec : UInt8) (args : List VaArg) : Except FmtFault (FmtOut × List VaArg) :=
  if spec = 37 then .ok (outChar o 37, args)
  else if spec = 99 then vaNum args fun val => outChar o (UInt8.ofNat val)
  else if spec = 115 then vaStr args fun s => outStr o s
  else if spec = 100 ∨ spec = 105 then vaNum args fun val => outI o (toInt32 val)
  else if spec = 117 then vaNum args fun val => outU o (wrap32 val) 10 false
  else if spec = 120 then vaNum args fun val => outU o (wrap32 val) 16 false
  else if spec = 88 then vaNum args fun val => outU o (wrap32 val) 16 true
  else if spec = 112 then vaNum args fun val => outU (outStr o (some (ascii "0x"))) (wrap64 val) 16 false
  else .ok (outChar (outChar o 37) spec, args)

def vfmt : FmtOut → List UInt8 → List VaArg → Except FmtFault FmtOut
  | o, [], _ => .ok o
  | o, [c], _ => .ok (if c ≠ 37 then outChar o c else o)
  | o, c :: spec :: fmt, args =>
      if c ≠ 37 then vfmt (outChar o c) (spec :: fmt) args
      else (vfmtSpec o spec args).bind fun r => vfmt r.1 fmt r.2

/-- `vdprintf`: the state behind it, with the return value as its `count`. -/
def vdprintf (fmt : List UInt8) (args : List VaArg) : Except FmtFault FmtOut := vfmt ⟨⟨fun _ => 0, []⟩, 0, 0, false, 0, []⟩ fmt args

/-- `vsnprintf` into a buffer that is there: the return value, and the buffer. -/
def vsnprintf (bytes : Nat → UInt8) (size : Nat) (fmt : List UInt8) (args : List VaArg) : Except FmtFault (Int × Buf) :=
  if size = 0 then .ok (0, ⟨bytes, []⟩)
  else (vfmt ⟨Buf.store ⟨bytes, []⟩ 0 0, size, 0, true, 0, []⟩ fmt args).map fun o => (o.count, o.buf)

/-! ### The text -/

def outIText (v : Int) : List UInt8 := if v < 0 then 45 :: uintToBuf (-v).toNat 10 hexLower else uintToBuf v.toNat 10 hexLower

/-- What a conversion puts out, and the arguments that are left. -/
def vfmtSpecText (spec : UInt8) (args : List VaArg) : Except FmtFault (List UInt8 × List VaArg) :=
  if spec = 37 then .ok ([37], args)
  else if spec = 99 then vaNum args fun val => [UInt8.ofNat val]
  else if spec = 115 then vaStr args fun s => s.getD (ascii "(null)")
  else if spec = 100 ∨ spec = 105 then vaNum args fun val => outIText (toInt32 val)
  else if spec = 117 then vaNum args fun val => uintToBuf (wrap32 val) 10 hexLower
  else if spec = 120 then vaNum args fun val => uintToBuf (wrap32 val) 16 hexLower
  else if spec = 88 then vaNum args fun val => uintToBuf (wrap32 val) 16 hexUpper
  else if spec = 112 then vaNum args fun val => ascii "0x" ++ uintToBuf (wrap64 val) 16 hexLower
  else .ok ([37, spec], args)

/-- What `vfmt` puts out. -/
def vfmtText : List UInt8 → List VaArg → Except FmtFault (List UInt8)
  | [], _ => .ok []
  | [c], _ => .ok (if c ≠ 37 then [c] else [])
  | c :: spec :: fmt, args =>
      if c ≠ 37 then (vfmtText (spec :: fmt) args).map (c :: ·)
      else (vfmtSpecText spec args).bind fun r => (vfmtText fmt r.2).map (r.1 ++ ·)

def outChars (o : FmtOut) (text : List UInt8) : FmtOut := text.foldl outChar o

theorem outChars_append (o : FmtOut) (s t : List UInt8) : outChars o (s ++ t) = outChars (outChars o s) t := List.foldl_append

theorem vfmtSpec_eq (o : FmtOut) (spec : UInt8) (args : List VaArg) :
    vfmtSpec o spec args = (vfmtSpecText spec args).map (Prod.map (outChars o) id) := by
  have hint : ∀ v : Int, outI o v = outChars o (outIText v) := by
    intro v
    rw [outI, outIText]
    split <;> rfl
  have hptr : ∀ val : Nat, outU (outStr o (some (ascii "0x"))) (wrap64 val) 16 false = outChars o (ascii "0x" ++ uintToBuf (wrap64 val) 16 hexLower) :=
    fun val => (outChars_append o _ _).symm
  rw [vfmtSpec, vfmtSpecText]
  split_ifs
  · rfl
  · rw [vaNum_map]
    rfl
  · rw [vaStr_map]
    rfl
  · rw [vaNum_map]
    simp only [hint]
  · rw [vaNum_map]
    rfl
  · rw [vaNum_map]
    rfl
  · rw [vaNum_map]
    rfl
  · rw [vaNum_map]
    simp only [hptr]
  · rfl

/-- The formatter puts its text out, wherever it goes. -/
theorem vfmt_eq (o : FmtOut) (fmt : List UInt8) (args : List VaArg) : vfmt o fmt args = (vfmtText fmt args).map (outChars o) := by
  induction fmt, args using vfmtText.induct generalizing o with
  | case1 args => rfl
  | case2 c args =>
      rw [vfmt, vfmtText]
      split <;> rfl
  | case3 c spec fmt args hc ih =>
      rw [vfmt, vfmtText, if_pos hc, if_pos hc, ih]
      cases vfmtText (spec :: fmt) args with
      | error fault => rfl
      | ok text => rfl
  | case4 c spec fmt args hc ih =>
      rw [vfmt, vfmtText, if_neg hc, if_neg hc, vfmtSpec_eq]
      cases vfmtSpecText spec args with
      | error fault => rfl
      | ok r =>
          change vfmt (outChars o r.1) fmt r.2 = ((vfmtText fmt r.2).map (r.1 ++ ·)).map (outChars o)
          rw [ih]
          cases vfmtText fmt r.2 with
          | error fault => rfl
          | ok text => exact congrArg Except.ok (outChars_append o r.1 text).symm

/-! ### Into a file -/

theorem outChars_count (o : FmtOut) (text : List UInt8) (hcount : int32 o.count = o.count) :
    (outChars o text).count = int32 (o.count + text.length) := by
  induction text generalizing o with
  | nil =>
      rw [List.length_nil, Int.natCast_zero, Int.add_zero, hcount]
      rfl
  | cons c text ih =>
      have hchar : (outChar o c).count = int32 (o.count + 1) := by
        rw [outChar]
        split_ifs <;> rfl
      have hrest := ih (outChar o c) (hchar ▸ Int.bmod_bmod)
      rw [hchar, int32_int32_add] at hrest
      rw [List.length_cons, Int.natCast_succ, Int.add_comm (text.length : Int) 1, ← Int.add_assoc]
      exact hrest

theorem outChars_written (o : FmtOut) (text : List UInt8) (hfile : o.toBuf = false) : (outChars o text).written = o.written ++ text := by
  induction text generalizing o with
  | nil => exact (List.append_nil _).symm
  | cons c text ih =>
      have hchar : outChar o c = { o with count := int32 (o.count + 1), written := o.written ++ [c] } := by
        rw [outChar]
        dsimp only
        rw [if_neg (by rw [hfile]; decide)]
      have hrest := ih (outChar o c) (by rw [hchar]; exact hfile)
      rw [hchar] at hrest
      change (outChars (outChar o c) text).written = _
      rw [hchar, hrest]
      exact List.append_assoc _ _ _

/-- `vdprintf` writes the whole text. -/
theorem vdprintf_written (h : vfmtText fmt args = .ok text) : ∃ o, vdprintf fmt args = .ok o ∧ o.written = text ∧ o.count = int32 text.length := by
  refine ⟨_, ?_, outChars_written ⟨⟨fun _ => 0, []⟩, 0, 0, false, 0, []⟩ text rfl, ?_⟩
  · rw [vdprintf, vfmt_eq, h]
    rfl
  · rw [outChars_count _ _ rfl, Int.zero_add]

/-! ### Into a buffer -/

/-- What the buffer of `n` bytes holds after a text has been put into it. -/
structure FmtOut.After (o : FmtOut) (n : Nat) (text : List UInt8) : Prop where
  toBuf : o.toBuf = true
  cap : o.cap = n
  len : o.len = min text.length (n - 1)
  holds : o.buf.Holds n text

theorem FmtOut.After.char {n : Nat} (h : o.After n text) (hn : 1 ≤ n) (c : UInt8) : (outChar o c).After n (text ++ [c]) := by
  have hcap := h.cap
  have hlen := h.len
  have hlength : (text ++ [c]).length = text.length + 1 := by rw [List.length_append, List.length_singleton]
  rw [outChar]
  dsimp only
  rw [if_pos h.toBuf]
  split
  · rename_i hroom
    have hend : o.len = text.length := by omega
    have hkeeps := (h.holds.toKeeps.push (c := c) (by omega)).terminate hn
    rw [hlength, show min (text.length + 1) (n - 1) = text.length + 1 by omega] at hkeeps
    refine ⟨h.toBuf, hcap, ?_, ?_⟩
    · dsimp only
      omega
    · dsimp only
      rw [hend]
      exact hkeeps
  · rename_i hroom
    have hkeeps := (h.holds.toKeeps.full (c := c) (by omega)).terminate hn
    rw [hlength, show min (text.length + 1) (n - 1) = o.len by omega] at hkeeps
    rw [if_pos (by omega)]
    refine ⟨h.toBuf, hcap, ?_, hkeeps⟩
    dsimp only
    omega

theorem FmtOut.After.chars {n : Nat} (h : o.After n text) (hn : 1 ≤ n) (more : List UInt8) : (outChars o more).After n (text ++ more) := by
  induction more generalizing o text with
  | nil =>
      rw [List.append_nil]
      exact h
  | cons c more ih =>
      rw [← List.singleton_append, ← List.append_assoc]
      exact ih (h.char hn c)

/-- `vsnprintf` leaves the prefix that fits, and returns the length of the whole text. -/
theorem vsnprintf_eq {n : Nat} (hn : 1 ≤ n) (bytes : Nat → UInt8) (htext : vfmtText fmt args = .ok text) :
    ∃ buf, vsnprintf bytes n fmt args = .ok (int32 text.length, buf) ∧ buf.Holds n text := by
  have hstart : FmtOut.After ⟨Buf.store ⟨bytes, []⟩ 0 0, n, 0, true, 0, []⟩ n [] :=
    ⟨rfl, rfl, (Nat.zero_min _).symm, (Buf.Keeps.nil bytes n).terminate hn⟩
  have hafter := hstart.chars hn text
  rw [List.nil_append] at hafter
  refine ⟨_, ?_, hafter.holds⟩
  rw [vsnprintf, if_neg (by omega), vfmt_eq, htext]
  change Except.ok ((outChars _ text).count, _) = _
  rw [outChars_count _ text rfl, Int.zero_add]

/-- Where the unbounded output is defined, `ksprintf` and `vsnprintf` leave the longest prefix of it that fits into the buffer with its terminator, store to nothing behind the buffer, and return the length of the whole. -/
theorem bounded_text (bytes : Nat → UInt8) {n : Nat} (hn : 1 ≤ n) (fmt : List UInt8) (args : List VaArg) :
    (∀ full, kprintf fmt args = .ok full → ∃ ret buf, Kprintf.ksprintf bytes n fmt args = .ok (ret, buf) ∧ buf.Holds n full.ctx ∧
      (full.ctx.length < 2 ^ 31 → ret = full.ctx.length)) ∧
    ∀ full, vdprintf fmt args = .ok full → ∃ ret buf, vsnprintf bytes n fmt args = .ok (ret, buf) ∧ buf.Holds n full.written ∧
      (full.written.length < 2 ^ 31 → ret = full.written.length) := by
  constructor
  · intro full hfull
    rw [kprintf_eq] at hfull
    cases htext : fmtText .text fmt args with
    | error fault =>
        rw [htext] at hfull
        cases hfull
    | ok text =>
        rw [htext] at hfull
        cases hfull
        obtain ⟨buf, hret, hholds⟩ := ksprintf_eq hn bytes htext
        exact ⟨_, buf, hret, hholds, fun hlt => int32_eq_self (by omega) (by exact_mod_cast hlt)⟩
  · intro full hfull
    cases htext : vfmtText fmt args with
    | error fault =>
        rw [vdprintf, vfmt_eq, htext] at hfull
        cases hfull
    | ok text =>
        obtain ⟨o, hwritten, htext', -⟩ := vdprintf_written htext
        obtain ⟨buf, hret, hholds⟩ := vsnprintf_eq hn bytes htext
        have hsame : o = full := Except.ok.inj (hwritten.symm.trans hfull)
        rw [← hsame, htext']
        exact ⟨_, buf, hret, hholds, fun hlt => int32_eq_self (by omega) (by exact_mod_cast hlt)⟩

/-- `%d` of 12345 in four bytes. -/
theorem bounded_text_four : ∃ ret buf, Kprintf.ksprintf (fun _ => 255) 4 [37, 100] [.num 12345] = .ok (ret, buf) ∧ buf.Holds 4 (ascii "12345") ∧
    ((ascii "12345").length < 2 ^ 31 → ret = (ascii "12345").length) := by
  have hfull : kprintf [37, 100] [.num 12345] = .ok ⟨ascii "12345", 5⟩ := rfl
  exact (bounded_text (fun _ => 255) (by decide) [37, 100] [.num 12345]).1 _ hfull

end Stdio

end Tsukasa
