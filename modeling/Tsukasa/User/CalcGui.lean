import Tsukasa.Text.Stdio
import Mathlib.Data.List.Induction

/-!
# The calculator

`user/apps/calc_gui.c`. The keys that have been pressed are a tape of entries: the digits of an operand, and the key that closed them. What the calculator holds is the total of the tape from left to right, in the arithmetic of an `int`. It keeps away from a division by zero, but not from the one quotient that is no `int`.
-/

namespace Tsukasa

namespace CalcGui

open Stdio (vsnprintf vsnprintf_eq outIText)
open Kprintf (Buf)

structure CalcState where
  acc : Int
  cur : Int
  op : UInt8
  display : Nat → UInt8

/-- A division of `int`s, where the processor traps on a quotient that does not exist or is no `int`. -/
def intDiv (a b : Int) : Option Int := if b = 0 ∨ (a = -2 ^ 31 ∧ b = -1) then none else some (a.tdiv b)

def calcUpdate (st : CalcState) : CalcState :=
  match vsnprintf st.display 64 (ascii "%d") [.num (st.cur % 2 ^ 32).toNat] with
  | .ok r => { st with display := r.2.bytes }
  | .error _ => st

/-- The new `acc` of `calc_apply_pending`. -/
def pendingAcc (st : CalcState) : Option Int :=
  if st.op = 43 then some (int32 (st.acc + st.cur))
  else if st.op = 45 then some (int32 (st.acc - st.cur))
  else if st.op = 42 then some (int32 (st.acc * st.cur))
  else if st.op = 47 ∧ st.cur ≠ 0 then intDiv st.acc st.cur
  else if st.op = 0 then some st.cur
  else some st.acc

/-- `calc_apply_pending`, unless its division traps. -/
def calcApplyPending (st : CalcState) : Option CalcState := (pendingAcc st).map fun acc => calcUpdate { st with acc := acc, cur := acc }

def isDigit (c : UInt8) : Prop := 48 ≤ c ∧ c ≤ 57

def isClear (c : UInt8) : Prop := c = 99 ∨ c = 67

def isOperator (c : UInt8) : Prop := c = 43 ∨ c = 45 ∨ c = 42 ∨ c = 47

def isEnter (c : UInt8) : Prop := c = 61 ∨ c = 10 ∨ c = 13

instance (c : UInt8) : Decidable (isDigit c) := inferInstanceAs (Decidable (48 ≤ c ∧ c ≤ 57))

instance (c : UInt8) : Decidable (isClear c) := inferInstanceAs (Decidable (c = 99 ∨ c = 67))

instance (c : UInt8) : Decidable (isOperator c) := inferInstanceAs (Decidable (c = 43 ∨ c = 45 ∨ c = 42 ∨ c = 47))

instance (c : UInt8) : Decidable (isEnter c) := inferInstanceAs (Decidable (c = 61 ∨ c = 10 ∨ c = 13))

def calcInput (st : CalcState) (c : UInt8) : Option CalcState :=
  if isDigit c then some (calcUpdate { st with cur := int32 (int32 (st.cur * 10) + (c.toNat - 48)) })
  else if isClear c then some (calcUpdate { st with acc := 0, cur := 0, op := 0 })
  else if isOperator c then (calcApplyPending st).map fun st => { st with op := c, cur := 0 }
  else if isEnter c then (calcApplyPending st).map fun st => { st with op := 0 }
  else some st

/-- What `calc_main` starts from. -/
def calcInit : CalcState := calcUpdate ⟨0, 0, 0, fun _ => 0⟩

/-- The keys one after the other; there is no state behind a trap. -/
def calcRun (keys : List UInt8) : Option CalcState := keys.foldlM calcInput calcInit

/-! ### The tape -/

structure Entry where
  digits : List Nat
  key : UInt8

structure Tape where
  entries : List Entry
  digits : List Nat

def Tape.press (t : Tape) (c : UInt8) : Tape :=
  if isDigit c then { t with digits := t.digits ++ [c.toNat - 48] }
  else if isClear c ∨ isOperator c ∨ isEnter c then ⟨t.entries ++ [⟨t.digits, c⟩], []⟩
  else t

def tape (keys : List UInt8) : Tape := keys.foldl Tape.press ⟨[], []⟩

/-- The number that the digits make when they are typed behind another one. -/
def number (start : Int) (digits : List Nat) : Int := digits.foldl (fun (v : Int) (d : Nat) => v * 10 + d) start

/-- A total, and the operation that waits for its second operand; 0 stands for none. -/
structure Total where
  value : Int
  op : UInt8

/-- The digits of an entry start a new operand behind an operation. Behind a result they go on with it. -/
def Total.operand (t : Total) (digits : List Nat) : Int := int32 (number (if t.op = 0 then t.value else 0) digits)

/-- Quotients are cut towards zero, and there is none by zero. -/
def Total.apply (t : Total) (b : Int) : Int :=
  if t.op = 43 then int32 (t.value + b)
  else if t.op = 45 then int32 (t.value - b)
  else if t.op = 42 then int32 (t.value * b)
  else if t.op = 47 then if b = 0 then t.value else int32 (t.value.tdiv b)
  else b

def Total.enter (t : Total) (e : Entry) : Total :=
  if isClear e.key then ⟨0, 0⟩ else ⟨t.apply (t.operand e.digits), if isOperator e.key then e.key else 0⟩

def total (entries : List Entry) : Total := entries.foldl Total.enter ⟨0, 0⟩

/-- The entry divides the least `int` by a number of the residue class of -1. -/
def Overflows (t : Total) (e : Entry) : Prop := t = ⟨-2 ^ 31, 47⟩ ∧ ¬ isClear e.key ∧ number 0 e.digits % 2 ^ 32 = 2 ^ 32 - 1

/-- What the display shows: the digits as they are typed, or the total. -/
def Tape.shown (t : Tape) : Int := if t.digits = [] then (total t.entries).value else (total t.entries).operand t.digits

/-! ### Arithmetic -/

variable {st : CalcState} {t : Tape} {entries : List Entry} {c : UInt8} {v : Int}

theorem int32_bounds (v : Int) : -2 ^ 31 ≤ int32 v ∧ int32 v < 2 ^ 31 := by
  rw [int32, Int.bmod_def]
  split <;> omega

theorem int32_eq_neg_one : int32 v = -1 ↔ v % 2 ^ 32 = 2 ^ 32 - 1 := by
  rw [int32, Int.bmod_def]
  split <;> omega

theorem number_append (start : Int) (digits : List Nat) (d : Nat) : number start (digits ++ [d]) = number start digits * 10 + d := by
  rw [number, List.foldl_append]
  rfl

/-- The quotient of two `int`s is an `int`, the one case apart. -/
theorem tdiv_bounds {a b : Int} (hlow : -2 ^ 31 ≤ a) (hhigh : a < 2 ^ 31) (hfits : ¬ (a = -2 ^ 31 ∧ b = -1)) :
    -2 ^ 31 ≤ a.tdiv b ∧ a.tdiv b < 2 ^ 31 := by
  have habs : (a.tdiv b).natAbs = a.natAbs / b.natAbs := Int.natAbs_tdiv a b
  rcases Nat.lt_or_ge b.natAbs 2 with hsmall | hlarge
  · have hcases : b = 0 ∨ b = 1 ∨ b = -1 := by omega
    rcases hcases with rfl | rfl | rfl
    · rw [Int.tdiv_zero]
      omega
    · rw [Int.tdiv_one]
      exact ⟨hlow, hhigh⟩
    · rw [Int.tdiv_neg, Int.tdiv_one]
      omega
  · have hhalf : a.natAbs / b.natAbs ≤ a.natAbs / 2 := Nat.div_le_div_left hlarge (by decide)
    omega

/-! ### The total -/

theorem total_append (entries : List Entry) (e : Entry) : total (entries ++ [e]) = (total entries).enter e := by
  rw [total, List.foldl_append]
  rfl

/-- The total is an `int`, and what waits is an operation of the calculator. -/
theorem total_bounds (entries : List Entry) :
    -2 ^ 31 ≤ (total entries).value ∧ (total entries).value < 2 ^ 31 ∧ ((total entries).op = 0 ∨ isOperator (total entries).op) := by
  induction entries using List.reverseRecOn with
  | nil => exact ⟨by decide, by decide, .inl rfl⟩
  | append_singleton entries e ih =>
      rw [total_append, Total.enter]
      split
      · exact ⟨by decide, by decide, .inl rfl⟩
      · have hvalue : ∀ b, -2 ^ 31 ≤ (total entries).apply (int32 b) ∧ (total entries).apply (int32 b) < 2 ^ 31 := by
          intro b
          rw [Total.apply]
          split_ifs
          · exact int32_bounds _
          · exact int32_bounds _
          · exact int32_bounds _
          · exact ⟨ih.1, ih.2.1⟩
          · exact int32_bounds _
          · exact int32_bounds _
        refine ⟨(hvalue _).1, (hvalue _).2, ?_⟩
        by_cases hop : isOperator e.key
        · dsimp only
          rw [if_pos hop]
          exact .inr hop
        · dsimp only
          rw [if_neg hop]
          exact .inl rfl

theorem operand_nil (entries : List Entry) : (total entries).operand [] = if (total entries).op = 0 then (total entries).value else 0 := by
  have hbounds := total_bounds entries
  rw [Total.operand, number, List.foldl_nil]
  split
  · exact int32_eq_self hbounds.1 hbounds.2.1
  · rfl

theorem operand_append (t : Total) (digits : List Nat) (d : Nat) :
    t.operand (digits ++ [d]) = int32 (int32 (t.operand digits * 10) + d) := by
  rw [Total.operand, Total.operand, number_append, int32_int32_add, ← int32_int32_add (int32 _ * 10), int32_int32_mul, int32_int32_add]

/-! ### The display -/

/-- The display holds the number, with its terminator. -/
def Shows (display : Nat → UInt8) (v : Int) : Prop :=
  Buf.string ⟨display, []⟩ (outIText v).length = outIText v ∧ display (outIText v).length = 0

theorem uintToBuf_length_le (val base : Nat) (digits : List UInt8) : (uintToBuf val base digits).length ≤ 32 := by
  have hloop : ∀ fuel val, (uintLoop base digits fuel val).length ≤ fuel := by
    intro fuel
    induction fuel with
    | zero => exact fun _ => Nat.le_refl 0
    | succ fuel ih =>
        intro val
        rw [uintLoop]
        split
        · exact Nat.zero_le _
        · exact Nat.succ_le_succ (ih _)
  rw [uintToBuf]
  split
  · decide
  · rw [List.length_reverse]
    exact hloop 32 val

theorem calcUpdate_eq {cur : Int} (hlow : -2 ^ 31 ≤ cur) (hhigh : cur < 2 ^ 31) (acc : Int) (op : UInt8) (before : Nat → UInt8) :
    ∃ display, calcUpdate ⟨acc, cur, op, before⟩ = ⟨acc, cur, op, display⟩ ∧ Shows display cur := by
  have hval : toInt32 (cur % 2 ^ 32).toNat = cur := by
    rw [toInt32, wrap32]
    split <;> omega
  have htext : Stdio.vfmtText (ascii "%d") [.num (cur % 2 ^ 32).toNat] = .ok (outIText cur) := by
    change Except.ok (outIText (toInt32 (cur % 2 ^ 32).toNat) ++ []) = _
    rw [hval, List.append_nil]
  have hlength : (outIText cur).length ≤ 63 := by
    rw [outIText]
    split
    · exact Nat.succ_le_succ (Nat.le_trans (uintToBuf_length_le _ _ _) (by decide))
    · exact Nat.le_trans (uintToBuf_length_le _ _ _) (by decide)
  obtain ⟨buf, hret, hholds⟩ := vsnprintf_eq (show 1 ≤ 64 by decide) before htext
  have hchars := hholds.chars
  have hnul := hholds.nul
  rw [Nat.min_eq_left hlength] at hchars hnul
  rw [List.take_of_length_le hlength] at hchars
  refine ⟨buf.bytes, ?_, hchars, hnul⟩
  rw [calcUpdate, hret]

/-! ### The calculator holds the total -/

structure CalcState.Matches (st : CalcState) (t : Tape) : Prop where
  acc : st.acc = (total t.entries).value
  op : st.op = (total t.entries).op
  cur : st.cur = (total t.entries).operand t.digits
  display : Shows st.display t.shown

theorem isClear.not_digit (h : isClear c) : ¬ isDigit c := by
  rcases h with rfl | rfl <;> decide

theorem isOperator.not_digit (h : isOperator c) : ¬ isDigit c := by
  rcases h with rfl | rfl | rfl | rfl <;> decide

theorem isOperator.not_clear (h : isOperator c) : ¬ isClear c := by
  rcases h with rfl | rfl | rfl | rfl <;> decide

theorem isEnter.not_digit (h : isEnter c) : ¬ isDigit c := by
  rcases h with rfl | rfl | rfl <;> decide

theorem isEnter.not_clear (h : isEnter c) : ¬ isClear c := by
  rcases h with rfl | rfl | rfl <;> decide

theorem isEnter.not_operator (h : isEnter c) : ¬ isOperator c := by
  rcases h with rfl | rfl | rfl <;> decide

/-- The operation that waits is carried out as the total says, and traps only on the one quotient. -/
theorem CalcState.Matches.pending (hm : st.Matches t) :
    (pendingAcc st = none ∧ st.op = 47 ∧ st.acc = -2 ^ 31 ∧ st.cur = -1) ∨
    (pendingAcc st = some ((total t.entries).apply st.cur) ∧ ¬ (st.op = 47 ∧ st.acc = -2 ^ 31 ∧ st.cur = -1)) := by
  obtain ⟨hlow, hhigh, hop⟩ := total_bounds t.entries
  rw [← hm.acc] at hlow hhigh
  rw [← hm.op] at hop
  rw [pendingAcc, Total.apply, ← hm.acc, ← hm.op]
  rcases hop with hnone | hadd | hsub | hmul | hdiv
  · rw [hnone]
    exact .inr ⟨rfl, fun h => absurd h.1 (by decide)⟩
  · rw [hadd]
    exact .inr ⟨rfl, fun h => absurd h.1 (by decide)⟩
  · rw [hsub]
    exact .inr ⟨rfl, fun h => absurd h.1 (by decide)⟩
  · rw [hmul]
    exact .inr ⟨rfl, fun h => absurd h.1 (by decide)⟩
  · rw [hdiv]
    by_cases hzero : st.cur = 0
    · refine .inr ⟨?_, fun h => absurd (hzero.symm.trans h.2.2) (by decide)⟩
      rw [hzero]
      rfl
    · by_cases htrap : st.acc = -2 ^ 31 ∧ st.cur = -1
      · refine .inl ⟨?_, rfl, htrap⟩
        rw [htrap.1, htrap.2]
        rfl
      · refine .inr ⟨?_, fun h => htrap h.2⟩
        have hbounds := tdiv_bounds hlow hhigh htrap
        rw [if_neg (by decide), if_neg (by decide), if_neg (by decide), if_pos ⟨rfl, hzero⟩, intDiv, if_neg (by tauto),
          if_neg (by decide), if_neg (by decide), if_neg (by decide), if_pos rfl, if_neg hzero, int32_eq_self hbounds.1 hbounds.2]

/-- A digit goes on with the operand. -/
theorem calcInput_digit (hm : st.Matches t) (hc : isDigit c) : ∃ st', calcInput st c = some st' ∧ st'.Matches (t.press c) := by
  have hpress : t.press c = { t with digits := t.digits ++ [c.toNat - 48] } := if_pos hc
  have hdigit : ((c.toNat - 48 : Nat) : Int) = c.toNat - 48 := Int.ofNat_sub (UInt8.le_iff_toNat_le.mp hc.1)
  have hcur : int32 (int32 (st.cur * 10) + (c.toNat - 48)) = (total t.entries).operand (t.digits ++ [c.toNat - 48]) := by
    rw [operand_append, ← hm.cur, hdigit]
  have hbounds := int32_bounds (int32 (st.cur * 10) + (c.toNat - 48))
  obtain ⟨display, hupdate, hshows⟩ := calcUpdate_eq hbounds.1 hbounds.2 st.acc st.op st.display
  refine ⟨_, if_pos hc, ?_⟩
  rw [hupdate, hpress]
  refine ⟨hm.acc, hm.op, hcur, ?_⟩
  rw [Tape.shown, if_neg (List.concat_ne_nil _ _), ← hcur]
  exact hshows

theorem press_close (hdigit : ¬ isDigit c) (hclose : isClear c ∨ isOperator c ∨ isEnter c) :
    t.press c = ⟨t.entries ++ [⟨t.digits, c⟩], []⟩ := by
  rw [Tape.press, if_neg hdigit, if_pos hclose]

theorem calcInput_clear (st : CalcState) (hc : isClear c) : ∃ st', calcInput st c = some st' ∧ st'.Matches (t.press c) := by
  obtain ⟨display, hupdate, hshows⟩ := calcUpdate_eq (show -2 ^ 31 ≤ (0 : Int) by decide) (by decide) 0 0 st.display
  have htotal : total (t.entries ++ [⟨t.digits, c⟩]) = ⟨0, 0⟩ := by
    rw [total_append, Total.enter]
    exact if_pos hc
  refine ⟨⟨0, 0, 0, display⟩, ?_, ?_⟩
  · rw [calcInput, if_neg hc.not_digit, if_pos hc]
    exact congrArg some hupdate
  · rw [press_close hc.not_digit (.inl hc)]
    refine ⟨?_, ?_, ?_, ?_⟩
    · rw [htotal]
    · rw [htotal]
    · rw [htotal]
      rfl
    · rw [Tape.shown, if_pos rfl, htotal]
      exact hshows

/-- The entry that a key closes overflows just where the division traps. -/
theorem CalcState.Matches.overflows_iff (hm : st.Matches t) (hclear : ¬ isClear c) :
    Overflows (total t.entries) ⟨t.digits, c⟩ ↔ st.op = 47 ∧ st.acc = -2 ^ 31 ∧ st.cur = -1 := by
  have hcur : st.op = 47 → (st.cur = -1 ↔ number 0 t.digits % 2 ^ 32 = 2 ^ 32 - 1) := by
    intro hop
    rw [hm.cur, Total.operand, if_neg (by rw [← hm.op, hop]; decide)]
    exact int32_eq_neg_one
  rw [hm.op] at hcur ⊢
  rw [hm.acc]
  constructor
  · intro h
    obtain ⟨htotal, -, hnumber⟩ := h
    rw [htotal] at hcur ⊢
    exact ⟨rfl, rfl, (hcur rfl).mpr hnumber⟩
  · intro h
    obtain ⟨hop, hacc, hneg⟩ := h
    refine ⟨?_, hclear, (hcur hop).mp hneg⟩
    rw [← hop, ← hacc]

/-- An operation and the end of an expression carry out what waits. -/
theorem calcInput_close (hm : st.Matches t) (hdigit : ¬ isDigit c) (hclear : ¬ isClear c) (hclose : isOperator c ∨ isEnter c) :
    (calcInput st c = none ∧ Overflows (total t.entries) ⟨t.digits, c⟩) ∨
    ∃ st', calcInput st c = some st' ∧ st'.Matches (t.press c) ∧ ¬ Overflows (total t.entries) ⟨t.digits, c⟩ := by
  rw [hm.overflows_iff hclear, press_close hdigit (.inr hclose), calcInput, if_neg hdigit, if_neg hclear]
  rcases hm.pending with ⟨hnone, htrap⟩ | ⟨hsome, htrap⟩
  · have happly : calcApplyPending st = none := by
      rw [calcApplyPending, hnone]
      rfl
    rw [happly]
    refine .inl ⟨?_, htrap⟩
    rcases hclose with hop | henter
    · rw [if_pos hop]
      rfl
    · rw [if_neg henter.not_operator, if_pos henter]
      rfl
  · have htotal : total (t.entries ++ [⟨t.digits, c⟩]) = ⟨(total t.entries).apply st.cur, if isOperator c then c else 0⟩ := by
      rw [total_append, Total.enter, hm.cur]
      exact if_neg hclear
    have hbounds := total_bounds (t.entries ++ [⟨t.digits, c⟩])
    have hoperand := operand_nil (t.entries ++ [⟨t.digits, c⟩])
    have hshown : Tape.shown ⟨t.entries ++ [⟨t.digits, c⟩], []⟩ = (total t.entries).apply st.cur := by
      rw [Tape.shown, if_pos rfl, htotal]
    rw [htotal] at hbounds hoperand
    obtain ⟨display, hupdate, hshows⟩ := calcUpdate_eq hbounds.1 hbounds.2.1 ((total t.entries).apply st.cur) st.op st.display
    have happly : calcApplyPending st = some ⟨(total t.entries).apply st.cur, (total t.entries).apply st.cur, st.op, display⟩ := by
      rw [calcApplyPending, hsome]
      exact congrArg some hupdate
    rw [happly]
    rcases hclose with hop | henter
    · rw [if_pos hop] at htotal hoperand ⊢
      rw [if_neg (show ¬ c = 0 by rintro rfl; exact absurd hop (by decide))] at hoperand
      refine .inr ⟨_, rfl, ⟨?_, ?_, ?_, ?_⟩, htrap⟩
      · rw [htotal]
      · rw [htotal]
      · rw [htotal, hoperand]
      · rw [hshown]
        exact hshows
    · rw [if_neg henter.not_operator] at htotal hoperand ⊢
      rw [if_pos henter]
      refine .inr ⟨_, rfl, ⟨?_, ?_, ?_, ?_⟩, htrap⟩
      · rw [htotal]
      · rw [htotal]
      · rw [htotal, hoperand]
        rfl
      · rw [hshown]
        exact hshows

/-! ### Any keys -/

/-- Some entry of the tape overflows behind the entries before it. -/
def HasOverflow (entries : List Entry) : Prop := ∃ before e after, entries = before ++ e :: after ∧ Overflows (total before) e

theorem hasOverflow_append {e : Entry} : HasOverflow (entries ++ [e]) ↔ HasOverflow entries ∨ Overflows (total entries) e := by
  constructor
  · intro h
    obtain ⟨before, e', after, hsplit, hover⟩ := h
    rcases List.eq_nil_or_concat after with rfl | ⟨after, e'', rfl⟩
    · obtain ⟨rfl, he⟩ := List.append_inj' hsplit rfl
      rw [← (List.cons.inj he).1] at hover
      exact .inr hover
    · rw [List.concat_eq_append, ← List.cons_append, ← List.append_assoc] at hsplit
      obtain ⟨rfl, -⟩ := List.append_inj' hsplit rfl
      exact .inl ⟨before, e', after, rfl, hover⟩
  · intro h
    rcases h with ⟨before, e', after, rfl, hover⟩ | hover
    · exact ⟨before, e', after ++ [e], by rw [List.append_assoc, List.cons_append], hover⟩
    · exact ⟨entries, e, [], rfl, hover⟩

theorem calcRun_append (keys : List UInt8) (c : UInt8) : calcRun (keys ++ [c]) = (calcRun keys).bind fun st => calcInput st c := by
  rw [calcRun, List.foldlM_append]
  cases hrun : keys.foldlM calcInput calcInit with
  | none =>
      rw [calcRun, hrun]
      rfl
  | some st =>
      rw [calcRun, hrun]
      change (calcInput st c).bind some = _
      rw [Option.bind_fun_some]
      rfl

theorem tape_append (keys : List UInt8) (c : UInt8) : tape (keys ++ [c]) = (tape keys).press c := by
  rw [tape, List.foldl_append]
  rfl

/-- After any keys the calculator holds what the tape says, or has come to an overflow. -/
theorem calcRun_spec (keys : List UInt8) :
    (calcRun keys = none ∧ HasOverflow (tape keys).entries) ∨
    ∃ st, calcRun keys = some st ∧ st.Matches (tape keys) ∧ ¬ HasOverflow (tape keys).entries := by
  induction keys using List.reverseRecOn with
  | nil =>
      obtain ⟨display, hupdate, hshows⟩ := calcUpdate_eq (show -2 ^ 31 ≤ (0 : Int) by decide) (by decide) 0 0 fun _ => 0
      refine .inr ⟨_, rfl, ?_, ?_⟩
      · rw [calcInit, hupdate]
        exact ⟨rfl, rfl, rfl, hshows⟩
      · intro h
        obtain ⟨before, e, after, hsplit, -⟩ := h
        exact List.append_ne_nil_of_right_ne_nil before (List.cons_ne_nil e after) hsplit.symm
  | append_singleton keys c ih =>
      rw [calcRun_append, tape_append]
      rcases ih with ⟨hnone, hover⟩ | ⟨st, hsome, hm, hover⟩
      · refine .inl ⟨by rw [hnone, Option.bind_none], ?_⟩
        rw [Tape.press]
        split_ifs
        · exact hover
        · exact hasOverflow_append.mpr (.inl hover)
        · exact hover
      · rw [hsome, Option.bind_some]
        by_cases hdigit : isDigit c
        · obtain ⟨st', hinput, hm'⟩ := calcInput_digit hm hdigit
          refine .inr ⟨st', hinput, hm', ?_⟩
          rw [Tape.press, if_pos hdigit]
          exact hover
        · by_cases hclear : isClear c
          · obtain ⟨st', hinput, hm'⟩ := calcInput_clear (t := tape keys) st hclear
            refine .inr ⟨st', hinput, hm', ?_⟩
            rw [press_close hdigit (.inl hclear), hasOverflow_append]
            exact fun h => h.elim hover fun h => h.2.1 hclear
          · by_cases hclose : isOperator c ∨ isEnter c
            · rcases calcInput_close hm hdigit hclear hclose with ⟨hinput, hentry⟩ | ⟨st', hinput, hm', hentry⟩
              · refine .inl ⟨hinput, ?_⟩
                rw [press_close hdigit (.inr hclose), hasOverflow_append]
                exact .inr hentry
              · refine .inr ⟨st', hinput, hm', ?_⟩
                rw [press_close hdigit (.inr hclose), hasOverflow_append]
                exact fun h => h.elim hover hentry
            · obtain ⟨hop, henter⟩ := not_or.mp hclose
              have hpress : (tape keys).press c = tape keys := by
                rw [Tape.press, if_neg hdigit, if_neg (not_or.mpr ⟨hclear, hclose⟩)]
              rw [hpress]
              refine .inr ⟨st, ?_, hm, hover⟩
              rw [calcInput, if_neg hdigit, if_neg hclear, if_neg hop, if_neg henter]

/-- No division traps just when no entry divides the least `int` by a number of the residue class of -1. -/
theorem calcRun_isSome_iff (keys : List UInt8) :
    (calcRun keys).isSome ↔ ∀ before e after, (tape keys).entries = before ++ e :: after → ¬ Overflows (total before) e := by
  rcases calcRun_spec keys with ⟨hnone, before, e, after, hsplit, hover⟩ | ⟨st, hsome, -, hover⟩
  · rw [hnone]
    exact ⟨nofun, fun h => absurd hover (h before e after hsplit)⟩
  · rw [hsome]
    exact ⟨fun _ before e after hsplit h => hover ⟨before, e, after, hsplit, h⟩, fun _ => rfl⟩

/-- Every digit of a tape is one. -/
theorem tape_digits_lt (keys : List UInt8) : (∀ e ∈ (tape keys).entries, ∀ d ∈ e.digits, d < 10) ∧ ∀ d ∈ (tape keys).digits, d < 10 := by
  induction keys using List.reverseRecOn with
  | nil => exact ⟨nofun, nofun⟩
  | append_singleton keys c ih =>
      rw [tape_append, Tape.press]
      split_ifs with hdigit hclose
      · refine ⟨ih.1, List.forall_mem_append.mpr ⟨ih.2, List.forall_mem_singleton.mpr ?_⟩⟩
        have hle := UInt8.le_iff_toNat_le.mp hdigit.2
        change c.toNat ≤ 57 at hle
        omega
      · exact ⟨List.forall_mem_append.mpr ⟨ih.1, List.forall_mem_singleton.mpr ih.2⟩, nofun⟩
      · exact ih

theorem number_bounds {digits : List Nat} (h : ∀ d ∈ digits, d < 10) : 0 ≤ number 0 digits ∧ number 0 digits < 10 ^ digits.length := by
  induction digits using List.reverseRecOn with
  | nil => exact ⟨by decide, by decide⟩
  | append_singleton digits d ih =>
      obtain ⟨hinit, hlast⟩ := List.forall_mem_append.mp h
      have hd := hlast d (List.mem_singleton_self d)
      have hbounds := ih hinit
      rw [number_append, List.length_append, List.length_singleton, pow_succ]
      omega

/-- As long as no operand has more than nine digits, no division traps. -/
theorem calcRun_isSome_of_short {keys : List UInt8} (h : ∀ e ∈ (tape keys).entries, e.digits.length ≤ 9) : (calcRun keys).isSome := by
  rcases calcRun_spec keys with ⟨-, before, e, after, hsplit, -, -, hnumber⟩ | ⟨st, hsome, -, -⟩
  · have he : e ∈ (tape keys).entries := by
      rw [hsplit]
      exact List.mem_append_right before List.mem_cons_self
    obtain ⟨hlow, hhigh⟩ := number_bounds ((tape_digits_lt keys).1 e he)
    have hpow : (10 : Int) ^ e.digits.length ≤ 10 ^ 9 := by exact_mod_cast Nat.pow_le_pow_right (by decide) (h e he)
    omega
  · rw [hsome]
    rfl

/-- "2147483648/4294967295=" divides the least `int` by -1. -/
theorem calcRun_traps : calcRun (ascii "2147483648/4294967295=") = none := by
  rcases calcRun_spec (ascii "2147483648/4294967295=") with h | ⟨st, -, -, hover⟩
  · exact h.1
  · exact absurd ⟨[⟨[2, 1, 4, 7, 4, 8, 3, 6, 4, 8], 47⟩], ⟨[4, 2, 9, 4, 9, 6, 7, 2, 9, 5], 61⟩, [], rfl, rfl, by decide, rfl⟩ hover

end CalcGui

end Tsukasa
