import Tsukasa.Syscall.Ksprintf
import Mathlib.Logic.Function.Basic

/-!
# Kernel printf

`lib/kprintf.c`. The formatter puts its characters out one by one through a function of its caller, and counts them in an `int`. A format is the list of its characters before the terminator. A formatter that reads on behind the terminator, or takes an argument that is not there or has another type, has no defined result.

What the formatter puts out does not depend on where it goes, so the rest speaks of the text that is put out.
-/

namespace Tsukasa

namespace Kprintf

variable {σ : Type} {put : σ → UInt8 → σ}

/-- An argument of a variadic call: a number in its slot of 64 bits, or a string, which may be a null pointer. -/
inductive VaArg where
  | num (val : Nat)
  | str (s : Option (List UInt8))

inductive FmtFault where
  | pastEnd
  | badArg

/-- `fmt_ctx_t`: the state of `put`, and the number of characters so far. -/
@[ext] structure FmtCtx (σ : Type) where
  ctx : σ
  count : Int

def fmtPutc (put : σ → UInt8 → σ) (f : FmtCtx σ) (c : UInt8) : FmtCtx σ := ⟨put f.ctx c, int32 (f.count + 1)⟩

def fmtPad (put : σ → UInt8 → σ) (pad : UInt8) : Nat → FmtCtx σ → FmtCtx σ
  | 0, f => f
  | width + 1, f => fmtPad put pad width (fmtPutc put f pad)

/-- The loops over a string and over `tmp`. -/
def fmtChars (put : σ → UInt8 → σ) (f : FmtCtx σ) (s : List UInt8) : FmtCtx σ := s.foldl (fmtPutc put) f

def fmtStr (put : σ → UInt8 → σ) (f : FmtCtx σ) (s : Option (List UInt8)) (width : Int) (pad : UInt8) : FmtCtx σ :=
  let s := s.getD (ascii "(null)")
  let len := int32 s.length
  fmtChars put (if len < width then fmtPad put pad (int32 (width - len)).toNat f else f) s

/-- What the integer conversions do with their digits. -/
def fmtNum (put : σ → UInt8 → σ) (f : FmtCtx σ) (tmp : List UInt8) (width : Int) (pad : UInt8) : FmtCtx σ :=
  fmtChars put (if tmp.length < width then fmtPad put pad (width - tmp.length).toNat f else f) tmp

/-- `va_arg` for a number. -/
def vaNum {α : Type} (args : List VaArg) (k : Nat → α) : Except FmtFault (α × List VaArg) :=
  match args with
  | .num val :: args => .ok (k val, args)
  | _ => .error .badArg

/-- `va_arg` for a string. -/
def vaStr {α : Type} (args : List VaArg) (k : Option (List UInt8) → α) : Except FmtFault (α × List VaArg) :=
  match args with
  | .str s :: args => .ok (k s, args)
  | _ => .error .badArg

/-- The cases of `do_fmt` for a conversion. -/
def fmtSpec (put : σ → UInt8 → σ) (f : FmtCtx σ) (spec pad : UInt8) (width : Int) (args : List VaArg) : Except FmtFault (FmtCtx σ × List VaArg) :=
  if spec = 100 ∨ spec = 105 then
    vaNum args fun arg =>
      let val := toInt32 arg
      if val < 0 then fmtNum put (fmtPutc put f 45) (uintToBuf (int32 (-val) % 2 ^ 32).toNat 10 hexLower) width pad
      else fmtNum put f (uintToBuf (val % 2 ^ 32).toNat 10 hexLower) width pad
  else if spec = 117 then vaNum args fun val => fmtNum put f (uintToBuf (wrap32 val) 10 hexLower) width pad
  else if spec = 120 then vaNum args fun val => fmtNum put f (uintToBuf (wrap32 val) 16 hexLower) width pad
  else if spec = 88 then vaNum args fun val => fmtNum put f (uintToBuf (wrap32 val) 16 hexUpper) width pad
  else if spec = 115 then vaStr args fun s => fmtStr put f s width pad
  else if spec = 99 then vaNum args fun val => fmtPutc put f (UInt8.ofNat val)
  else if spec = 37 then .ok (fmtPutc put f 37, args)
  else .ok (fmtPutc put (fmtPutc put f 37) spec, args)

/-- Where `do_fmt` is: at the head of its loop, behind a percent sign, or in the width behind it. -/
inductive FmtMode where
  | text
  | flag
  | width (pad : UInt8) (width : Int)

def isWidthDigit (c : UInt8) : Prop := 49 ≤ c ∧ c ≤ 57

instance (c : UInt8) : Decidable (isWidthDigit c) := inferInstanceAs (Decidable (49 ≤ c ∧ c ≤ 57))

/-- `do_fmt` -/
def doFmt (put : σ → UInt8 → σ) : FmtMode → FmtCtx σ → List UInt8 → List VaArg → Except FmtFault (FmtCtx σ)
  | .text, f, [], _ => .ok f
  -- the terminator is taken for the conversion, and the loop goes on behind it
  | .flag, _, [], _ => .error .pastEnd
  | .width _ _, _, [], _ => .error .pastEnd
  | .text, f, c :: fmt, args => if c = 37 then doFmt put .flag f fmt args else doFmt put .text (fmtPutc put f c) fmt args
  | .flag, f, c :: fmt, args =>
      if c = 48 then doFmt put (.width 48 0) f fmt args
      else if isWidthDigit c then doFmt put (.width 32 (c.toNat - 48)) f fmt args
      else (fmtSpec put f c 32 0 args).bind fun r => doFmt put .text r.1 fmt r.2
  | .width pad width, f, c :: fmt, args =>
      if isWidthDigit c then doFmt put (.width pad (int32 (int32 (width * 10) + (c.toNat - 48)))) f fmt args
      else (fmtSpec put f c pad width args).bind fun r => doFmt put .text r.1 fmt r.2

/-- `kprintf`: what goes to the serial port, and the return value. -/
def kprintf (fmt : List UInt8) (args : List VaArg) : Except FmtFault (FmtCtx (List UInt8)) :=
  doFmt (fun serial c => serial ++ [c]) .text ⟨[], 0⟩ fmt args

/-! ### The text -/

def strText (s : Option (List UInt8)) (width : Int) (pad : UInt8) : List UInt8 :=
  let s := s.getD (ascii "(null)")
  let len := int32 s.length
  if len < width then List.replicate (int32 (width - len)).toNat pad ++ s else s

def numText (tmp : List UInt8) (width : Int) (pad : UInt8) : List UInt8 := List.replicate (width - tmp.length).toNat pad ++ tmp

def intText (val : Int) (width : Int) (pad : UInt8) : List UInt8 :=
  if val < 0 then 45 :: numText (uintToBuf (int32 (-val) % 2 ^ 32).toNat 10 hexLower) width pad
  else numText (uintToBuf (val % 2 ^ 32).toNat 10 hexLower) width pad

/-- What a conversion puts out, and the arguments that are left. -/
def specText (spec pad : UInt8) (width : Int) (args : List VaArg) : Except FmtFault (List UInt8 × List VaArg) :=
  if spec = 100 ∨ spec = 105 then vaNum args fun val => intText (toInt32 val) width pad
  else if spec = 117 then vaNum args fun val => numText (uintToBuf (wrap32 val) 10 hexLower) width pad
  else if spec = 120 then vaNum args fun val => numText (uintToBuf (wrap32 val) 16 hexLower) width pad
  else if spec = 88 then vaNum args fun val => numText (uintToBuf (wrap32 val) 16 hexUpper) width pad
  else if spec = 115 then vaStr args fun s => strText s width pad
  else if spec = 99 then vaNum args fun val => [UInt8.ofNat val]
  else if spec = 37 then .ok ([37], args)
  else .ok ([37, spec], args)

/-- What `do_fmt` puts out. -/
def fmtText : FmtMode → List UInt8 → List VaArg → Except FmtFault (List UInt8)
  | .text, [], _ => .ok []
  | .flag, [], _ => .error .pastEnd
  | .width _ _, [], _ => .error .pastEnd
  | .text, c :: fmt, args => if c = 37 then fmtText .flag fmt args else (fmtText .text fmt args).map (c :: ·)
  | .flag, c :: fmt, args =>
      if c = 48 then fmtText (.width 48 0) fmt args
      else if isWidthDigit c then fmtText (.width 32 (c.toNat - 48)) fmt args
      else (specText c 32 0 args).bind fun r => (fmtText .text fmt r.2).map (r.1 ++ ·)
  | .width pad width, c :: fmt, args =>
      if isWidthDigit c then fmtText (.width pad (int32 (int32 (width * 10) + (c.toNat - 48)))) fmt args
      else (specText c pad width args).bind fun r => (fmtText .text fmt r.2).map (r.1 ++ ·)

variable {f : FmtCtx σ} {fmt text : List UInt8} {args : List VaArg} {width : Int} {pad spec : UInt8}

theorem fmtChars_append (put : σ → UInt8 → σ) (f : FmtCtx σ) (s t : List UInt8) : fmtChars put f (s ++ t) = fmtChars put (fmtChars put f s) t :=
  List.foldl_append

theorem fmtPad_eq (put : σ → UInt8 → σ) (pad : UInt8) (n : Nat) (f : FmtCtx σ) : fmtPad put pad n f = fmtChars put f (List.replicate n pad) := by
  induction n generalizing f with
  | zero => rfl
  | succ n ih =>
      rw [fmtPad, ih]
      rfl

theorem fmtNum_eq (put : σ → UInt8 → σ) (f : FmtCtx σ) (tmp : List UInt8) (width : Int) (pad : UInt8) :
    fmtNum put f tmp width pad = fmtChars put f (numText tmp width pad) := by
  rw [fmtNum, numText, fmtChars_append, fmtPad_eq]
  split
  · rfl
  · rename_i hlong
    rw [show (width - tmp.length).toNat = 0 by omega]
    rfl

theorem fmtStr_eq (put : σ → UInt8 → σ) (f : FmtCtx σ) (s : Option (List UInt8)) (width : Int) (pad : UInt8) :
    fmtStr put f s width pad = fmtChars put f (strText s width pad) := by
  rw [fmtStr, strText]
  split
  · rw [fmtChars_append, fmtPad_eq]
  · rfl

theorem vaNum_map {α β : Type} (args : List VaArg) (k : Nat → α) (g : α → β) : (vaNum args k).map (Prod.map g id) = vaNum args fun val => g (k val) := by
  cases args with
  | nil => rfl
  | cons arg args => cases arg <;> rfl

theorem vaStr_map {α β : Type} (args : List VaArg) (k : Option (List UInt8) → α) (g : α → β) :
    (vaStr args k).map (Prod.map g id) = vaStr args fun s => g (k s) := by
  cases args with
  | nil => rfl
  | cons arg args => cases arg <;> rfl

theorem fmtSpec_eq (put : σ → UInt8 → σ) (f : FmtCtx σ) (spec pad : UInt8) (width : Int) (args : List VaArg) :
    fmtSpec put f spec pad width args = (specText spec pad width args).map (Prod.map (fmtChars put f) id) := by
  have hint : ∀ val : Int, (if val < 0 then fmtNum put (fmtPutc put f 45) (uintToBuf (int32 (-val) % 2 ^ 32).toNat 10 hexLower) width pad
      else fmtNum put f (uintToBuf (val % 2 ^ 32).toNat 10 hexLower) width pad) = fmtChars put f (intText val width pad) := by
    intro val
    rw [intText]
    split
    · rw [fmtNum_eq]
      rfl
    · exact fmtNum_eq put f _ width pad
  rw [fmtSpec, specText]
  dsimp only
  split_ifs
  · rw [vaNum_map]
    simp only [hint]
  · rw [vaNum_map]
    simp only [fmtNum_eq]
  · rw [vaNum_map]
    simp only [fmtNum_eq]
  · rw [vaNum_map]
    simp only [fmtNum_eq]
  · rw [vaStr_map]
    simp only [fmtStr_eq]
  · rw [vaNum_map]
    rfl
  · rfl
  · rfl

/-- The formatter puts its text out, wherever it goes. -/
theorem doFmt_eq (put : σ → UInt8 → σ) (mode : FmtMode) (f : FmtCtx σ) (fmt : List UInt8) (args : List VaArg) :
    doFmt put mode f fmt args = (fmtText mode fmt args).map (fmtChars put f) := by
  induction fmt generalizing mode f args with
  | nil =>
      cases mode with
      | text => rfl
      | flag => rfl
      | width pad width => rfl
  | cons c fmt ih =>
      have hrest : ∀ spec pad width, ((fmtSpec put f spec pad width args).bind fun r => doFmt put .text r.1 fmt r.2) =
          ((specText spec pad width args).bind fun r => (fmtText .text fmt r.2).map (r.1 ++ ·)).map (fmtChars put f) := by
        intro spec pad width
        rw [fmtSpec_eq]
        cases specText spec pad width args with
        | error fault => rfl
        | ok r =>
            change doFmt put .text (fmtChars put f r.1) fmt r.2 = ((fmtText .text fmt r.2).map (r.1 ++ ·)).map (fmtChars put f)
            rw [ih]
            cases fmtText .text fmt r.2 with
            | error fault => rfl
            | ok text => exact congrArg Except.ok (fmtChars_append put f r.1 text).symm
      cases mode with
      | text =>
          rw [doFmt, fmtText]
          split
          · exact ih _ _ _
          · rw [ih]
            cases fmtText .text fmt args with
            | error fault => rfl
            | ok text => rfl
      | flag =>
          rw [doFmt, fmtText]
          split_ifs
          · exact ih _ _ _
          · exact ih _ _ _
          · exact hrest c 32 0
      | width pad width =>
          rw [doFmt, fmtText]
          split
          · exact ih _ _ _
          · exact hrest c pad width

theorem fmtChars_ctx (put : σ → UInt8 → σ) (f : FmtCtx σ) (s : List UInt8) : (fmtChars put f s).ctx = s.foldl put f.ctx := by
  induction s generalizing f with
  | nil => rfl
  | cons c s ih => exact ih (fmtPutc put f c)

/-- Every character is counted. -/
theorem fmtChars_count (put : σ → UInt8 → σ) (f : FmtCtx σ) (s : List UInt8) (hcount : int32 f.count = f.count) :
    (fmtChars put f s).count = int32 (f.count + s.length) := by
  induction s generalizing f with
  | nil =>
      rw [List.length_nil, Int.natCast_zero, Int.add_zero, hcount]
      rfl
  | cons c s ih =>
      have hstep : int32 (fmtPutc put f c).count = (fmtPutc put f c).count := Int.bmod_bmod
      have hrest := ih (fmtPutc put f c) hstep
      rw [fmtPutc, int32_int32_add] at hrest
      rw [List.length_cons, Int.natCast_succ, Int.add_comm (s.length : Int) 1, ← Int.add_assoc]
      exact hrest

/-! ### Buffers -/

/-- A buffer of the caller, and the indices that have been stored to. -/
structure Buf where
  bytes : Nat → UInt8
  stores : List Nat

namespace Buf

variable {b : Buf} {c : UInt8} {i k n : Nat}

def store (b : Buf) (i : Nat) (c : UInt8) : Buf := ⟨Function.update b.bytes i c, i :: b.stores⟩

/-- The first `len` bytes. -/
def string (b : Buf) (len : Nat) : List UInt8 := (List.range len).map b.bytes

theorem string_store_of_le (h : k ≤ i) : (b.store i c).string k = b.string k := by
  apply List.map_congr_left
  intro j hj
  rw [List.mem_range] at hj
  exact Function.update_of_ne (by omega) _ _

theorem string_store_self (b : Buf) (k : Nat) (c : UInt8) : (b.store k c).string (k + 1) = b.string k ++ [c] := by
  rw [string, List.range_succ, List.map_append, List.map_singleton]
  change (b.store k c).string k ++ [Function.update b.bytes k c k] = _
  rw [string_store_of_le (Nat.le_refl k), Function.update_self]

/-- All stores have gone to the first `n` bytes, and the buffer starts with the characters of the text that fit into `n` bytes with a terminator. -/
structure Keeps (b : Buf) (n : Nat) (text : List UInt8) : Prop where
  stores : ∀ i ∈ b.stores, i < n
  chars : b.string (min text.length (n - 1)) = text.take (n - 1)

/-- The terminator follows. -/
structure Holds (b : Buf) (n : Nat) (text : List UInt8) : Prop extends b.Keeps n text where
  nul : b.bytes (min text.length (n - 1)) = 0

variable {text : List UInt8}

theorem Keeps.nil (bytes : Nat → UInt8) (n : Nat) : Keeps ⟨bytes, []⟩ n [] := by
  constructor
  · exact fun i hi => absurd hi List.not_mem_nil
  · rw [List.length_nil, Nat.zero_min, List.take_nil]
    rfl

/-- A character that still fits is stored behind the others. -/
theorem Keeps.push (h : b.Keeps n text) (hroom : text.length + 1 < n) : (b.store text.length c).Keeps n (text ++ [c]) := by
  have hchars := h.chars
  rw [Nat.min_eq_left (by omega), List.take_of_length_le (by omega)] at hchars
  constructor
  · intro i hi
    rcases List.mem_cons.mp hi with rfl | hi
    · omega
    · exact h.stores i hi
  · rw [List.length_append, List.length_singleton, Nat.min_eq_left (by omega), string_store_self, hchars,
      List.take_of_length_le (by rw [List.length_append, List.length_singleton]; omega)]

/-- One that does not fit changes nothing. -/
theorem Keeps.full (h : b.Keeps n text) (hroom : ¬ text.length + 1 < n) : b.Keeps n (text ++ [c]) := by
  have hchars := h.chars
  constructor
  · exact h.stores
  · rw [List.length_append, List.length_singleton, List.take_append_of_le_length (by omega), ← hchars,
      show min (text.length + 1) (n - 1) = min text.length (n - 1) by omega]

theorem Keeps.terminate (h : b.Keeps n text) (hn : 1 ≤ n) : (b.store (min text.length (n - 1)) 0).Holds n text := by
  refine ⟨⟨?_, ?_⟩, Function.update_self _ _ _⟩
  · intro i hi
    rcases List.mem_cons.mp hi with rfl | hi
    · omega
    · exact h.stores i hi
  · rw [string_store_of_le (Nat.le_refl _)]
    exact h.chars

end Buf

/-- `sbuf_t` -/
structure SBuf where
  buf : Buf
  cap : Nat
  pos : Nat

def sbufPut (s : SBuf) (c : UInt8) : SBuf := if s.pos + 1 < s.cap then { s with buf := s.buf.store s.pos c, pos := s.pos + 1 } else s

/-- `ksprintf` into a buffer that is there: the return value, and the buffer. -/
def ksprintf (bytes : Nat → UInt8) (n : Nat) (fmt : List UInt8) (args : List VaArg) : Except FmtFault (Int × Buf) :=
  if n = 0 then .ok (0, ⟨bytes, []⟩)
  else (doFmt sbufPut .text ⟨⟨⟨bytes, []⟩, n, 0⟩, 0⟩ fmt args).map fun f => (f.count, f.ctx.buf.store f.ctx.pos 0)

/-- What the buffer holds after a text has been put into it. -/
structure SBuf.After (s : SBuf) (n : Nat) (text : List UInt8) : Prop where
  cap : s.cap = n
  pos : s.pos = min text.length (n - 1)
  keeps : s.buf.Keeps n text

theorem SBuf.After.char {s : SBuf} {n : Nat} {text : List UInt8} (h : s.After n text) (c : UInt8) : (sbufPut s c).After n (text ++ [c]) := by
  have hcap := h.cap
  have hpos := h.pos
  have hlength : (text ++ [c]).length = text.length + 1 := by rw [List.length_append, List.length_singleton]
  rw [sbufPut]
  split
  · rename_i hroom
    have hend : s.pos = text.length := by omega
    refine ⟨hcap, ?_, ?_⟩
    · dsimp only
      omega
    · dsimp only
      rw [hend]
      exact h.keeps.push (by omega)
  · rename_i hroom
    exact ⟨hcap, by omega, h.keeps.full (by omega)⟩

theorem SBuf.After.foldl {s : SBuf} {n : Nat} {text : List UInt8} (h : s.After n text) (more : List UInt8) :
    (more.foldl sbufPut s).After n (text ++ more) := by
  induction more generalizing s text with
  | nil =>
      rw [List.append_nil]
      exact h
  | cons c more ih =>
      rw [← List.singleton_append, ← List.append_assoc]
      exact ih (h.char c)

/-- `ksprintf` leaves the prefix that fits, and returns the length of the whole text. -/
theorem ksprintf_eq {n : Nat} (hn : 1 ≤ n) (bytes : Nat → UInt8) {fmt text : List UInt8} {args : List VaArg} (htext : fmtText .text fmt args = .ok text) :
    ∃ buf, ksprintf bytes n fmt args = .ok (int32 text.length, buf) ∧ buf.Holds n text := by
  have hstart : SBuf.After ⟨⟨bytes, []⟩, n, 0⟩ n [] := ⟨rfl, (Nat.zero_min _).symm, Buf.Keeps.nil bytes n⟩
  have hafter := hstart.foldl text
  rw [List.nil_append] at hafter
  refine ⟨_, ?_, hafter.keeps.terminate hn⟩
  rw [ksprintf, if_neg (by omega), doFmt_eq, htext, ← hafter.pos, ← fmtChars_ctx sbufPut ⟨⟨⟨bytes, []⟩, n, 0⟩, 0⟩ text]
  change Except.ok ((fmtChars sbufPut ⟨⟨⟨bytes, []⟩, n, 0⟩, 0⟩ text).count, _) = _
  rw [fmtChars_count sbufPut _ text rfl, Int.zero_add]

theorem fmtChars_serial (text : List UInt8) : fmtChars (fun serial c => serial ++ [c]) ⟨[], 0⟩ text = ⟨text, int32 text.length⟩ := by
  have hctx := fmtChars_ctx (fun serial c => serial ++ [c]) ⟨[], 0⟩ text
  have hcount := fmtChars_count (fun serial c => serial ++ [c]) ⟨[], 0⟩ text rfl
  rw [List.foldl_append_eq_append, List.nil_append, ← List.flatMap_def, List.flatMap_singleton'] at hctx
  dsimp only at hcount
  rw [Int.zero_add] at hcount
  apply FmtCtx.ext
  · exact hctx
  · rw [hcount]

/-- `kprintf` puts the whole text out. -/
theorem kprintf_eq (fmt : List UInt8) (args : List VaArg) : kprintf fmt args = (fmtText .text fmt args).map fun text => ⟨text, int32 text.length⟩ := by
  rw [kprintf, doFmt_eq, funext fmtChars_serial]

end Kprintf

end Tsukasa
