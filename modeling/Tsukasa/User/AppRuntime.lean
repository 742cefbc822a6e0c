import Tsukasa.Lib.CString
import Mathlib.Data.List.Forall2

/-!
# The arguments of an application

`app_tokenize` of `user/lib/app_runtime.c` cuts a line into arguments where it stands: it writes terminators over separators and closing quotes, and leaves pointers into the line. A loop over the line takes fuel, and comes back where there is a terminator.
-/

namespace Tsukasa

namespace AppRuntime

open Lib (Memory CString scan scan_eq)

def isWs (c : UInt8) : Bool := c = 32 || c = 9 || c = 10 || c = 13

/-- The loop of `trim_ws` back from `end` to `s`. -/
def trimEnd (m : Memory) (s : Nat) : Nat → Nat
  | 0 => 0
  | last + 1 => if s < last + 1 ∧ isWs (m last) then trimEnd m s last else last + 1

/-- `trim_ws` of a string that is there: the memory behind it, and the pointer that it returns. -/
def trimWs (fuel : Nat) (m : Memory) (s : Nat) : Option (Memory × Nat) :=
  (scan (fun c => !isWs c) m fuel s).bind fun s =>
    (scan (· = 0) m fuel s).map fun last => (Function.update m (trimEnd m s last) 0, s)

/-- The loop over the separators behind an argument. -/
def blankOut : Nat → Memory → Nat → Option (Memory × Nat)
  | 0, _, _ => none
  | fuel + 1, m, p => if m p = 32 ∨ m p = 9 then blankOut fuel (Function.update m p 0) (p + 1) else some (m, p)

/-- What comes of one argument: its pointer, the memory, and where it ends. -/
def takeArg (fuel : Nat) (m : Memory) (p : Nat) : Option (Nat × Memory × Nat) :=
  if m p = 34 then
    (scan (fun c => c = 0 || c = 34) m fuel (p + 1)).map fun q =>
      (p + 1, if m q = 34 then (Function.update m q 0, q + 1) else (m, q))
  else (scan (fun c => c = 0 || c = 32 || c = 9) m fuel p).map fun q => (p, m, q)

/-- The loop of `app_tokenize`; `rounds` bounds its rounds, and `fuel` the loops in it. -/
def tokenLoop (fuel : Nat) (maxArgs : Int) : Nat → Memory → Nat → List Nat → Option (Memory × List Nat)
  | 0, _, _, _ => none
  | rounds + 1, m, p, argv =>
      if m p ≠ 0 ∧ argv.length < maxArgs then
        (takeArg fuel m p).bind fun r => (blankOut fuel r.2.1 r.2.2).bind fun b => tokenLoop fuel maxArgs rounds b.1 b.2 (argv ++ [r.1])
      else some (m, argv)

structure Tokens where
  argc : Int
  argv : List Nat
  mem : Memory

/-- `app_tokenize` of a line that is there, into an array that is there. -/
def appTokenize (fuel : Nat) (m : Memory) (line : Nat) (maxArgs : Int) : Option Tokens :=
  (trimWs fuel m line).bind fun r =>
    if maxArgs ≤ 0 ∨ r.1 r.2 = 0 then some ⟨0, [], r.1⟩
    else (tokenLoop fuel maxArgs fuel r.1 r.2 []).map fun t => ⟨t.2.length, t.2, t.1⟩

/-- A string in double quotes. -/
def quoted (s : List UInt8) : List UInt8 := 34 :: s ++ [34]

/-- The line of some strings: each in double quotes, joined with single spaces. -/
def quotedLine (words : List (List UInt8)) : List UInt8 := [32].intercalate (words.map quoted)

/-! ### What the loop leaves -/

/-- Where the arguments of a line at `p` start. -/
def argStarts : Nat → List (List UInt8) → List Nat
  | _, [] => []
  | p, w :: words => (p + 1) :: argStarts (p + 1 + w.length + 2) words

/-- The memory with terminators over the closing quotes and the spaces behind them. -/
def cleared : Memory → Nat → List (List UInt8) → Memory
  | m, _, [] => m
  | m, p, w :: words =>
      let q := p + 1 + w.length
      let m := Function.update m q 0
      cleared (if words = [] then m else Function.update m (q + 1) 0) (q + 2) words

variable {m : Memory} {p q fuel rounds : Nat} {w : List UInt8} {words : List (List UInt8)} {argv : List Nat} {maxArgs : Int}

/-- What follows a closing quote. -/
def lineRest (words : List (List UInt8)) : List UInt8 := if words = [] then [] else 32 :: quotedLine words

theorem quotedLine_cons (w : List UInt8) (words : List (List UInt8)) : quotedLine (w :: words) = 34 :: (w ++ 34 :: lineRest words) := by
  rw [quotedLine, List.map_cons, lineRest]
  cases words with
  | nil =>
      rw [List.map_nil, List.intercalate_singleton, if_pos rfl]
      rfl
  | cons v words =>
      rw [List.map_cons, List.intercalate_cons_cons, if_neg (List.cons_ne_nil v words), quotedLine, List.map_cons, quoted, List.append_assoc,
        List.append_assoc]
      rfl

/-- A line ends with a quote. -/
theorem quotedLine_last (hne : words ≠ []) : ∃ init, quotedLine words = init ++ [34] := by
  induction words with
  | nil => exact absurd rfl hne
  | cons w words ih =>
      rw [quotedLine_cons, lineRest]
      by_cases hnil : words = []
      · rw [if_pos hnil]
        exact ⟨34 :: w, rfl⟩
      · obtain ⟨init, hinit⟩ := ih hnil
        rw [if_neg hnil, hinit]
        refine ⟨34 :: (w ++ 34 :: 32 :: init), ?_⟩
        rw [List.cons_append, List.append_assoc]
        rfl

/-- What `cleared` does not touch. -/
theorem cleared_of_outside {x : Nat} (h : x < p ∨ p + (quotedLine words).length ≤ x) : cleared m p words x = m x := by
  induction words generalizing m p with
  | nil => rfl
  | cons w words ih =>
      rw [quotedLine_cons, lineRest, List.length_cons, List.length_append, List.length_cons] at h
      by_cases hnil : words = []
      · rw [hnil, if_pos rfl, List.length_nil] at h
        rw [hnil, cleared, if_pos rfl]
        exact Function.update_of_ne (by omega) _ _
      · rw [if_neg hnil, List.length_cons] at h
        rw [cleared, if_neg hnil, ih (by omega), Function.update_of_ne (by omega), Function.update_of_ne (by omega)]

/-- The arguments are the strings: later writes go behind them. -/
theorem cleared_strings (h : CString m p (quotedLine words)) : List.Forall₂ (CString (cleared m p words)) (argStarts p words) words := by
  induction words generalizing m p with
  | nil => exact .nil
  | cons w words ih =>
      have hplain := h.plain
      rw [quotedLine_cons] at h hplain
      have hword := h.tail.left
      have hrest := h.tail.right.tail
      have hbehind : ∀ x, x < p + 1 + w.length + 1 → cleared m p (w :: words) x = Function.update m (p + 1 + w.length) 0 x := by
        intro x hx
        rw [cleared]
        rw [cleared_of_outside (by omega)]
        split
        · rfl
        · exact Function.update_of_ne (by omega) _ _
      constructor
      · refine ⟨?_, ?_, fun hmem => hplain (List.mem_cons_of_mem _ (List.mem_append_left _ hmem))⟩
        · apply Eq.trans _ hword
          apply Lib.Memory.bytes_congr
          intro x _ hx
          rw [hbehind x (by omega), Function.update_of_ne (by omega)]
        · rw [hbehind _ (by omega), Function.update_self]
      · rw [cleared]
        by_cases hnil : words = []
        · rw [hnil]
          exact .nil
        · rw [lineRest, if_neg hnil] at hrest
          apply ih
          rw [if_neg hnil]
          apply hrest.tail.congr
          intro x hx _
          rw [Function.update_of_ne (by omega), Function.update_of_ne (by omega)]

/-! ### The loops -/

theorem blankOut_stop (hp : m p ≠ 32 ∧ m p ≠ 9) (hfuel : 1 ≤ fuel) : blankOut fuel m p = some (m, p) := by
  obtain ⟨fuel, rfl⟩ := Nat.exists_eq_add_one_of_ne_zero (show fuel ≠ 0 by omega)
  rw [blankOut, if_neg (not_or.mpr hp)]

/-- The separator between two arguments is one space. -/
theorem blankOut_rest (h : CString m p (lineRest words)) (hfuel : 2 ≤ fuel) :
    blankOut fuel m p = some (if words = [] then (m, p) else (Function.update m p 0, p + 1)) := by
  by_cases hnil : words = []
  · rw [lineRest, if_pos hnil] at h
    have hend : m p = 0 := h.nul
    rw [if_pos hnil]
    exact blankOut_stop ⟨by rw [hend]; decide, by rw [hend]; decide⟩ (by omega)
  · obtain ⟨v, rest, rfl⟩ := List.exists_cons_of_ne_nil hnil
    rw [lineRest, if_neg hnil, quotedLine_cons] at h
    obtain ⟨fuel, rfl⟩ := Nat.exists_eq_add_one_of_ne_zero (show fuel ≠ 0 by omega)
    have hnext : Function.update m p 0 (p + 1) = 34 := by
      rw [Function.update_of_ne (by omega)]
      exact h.tail.head
    rw [blankOut, if_pos (.inl h.head), if_neg hnil]
    exact blankOut_stop ⟨by rw [hnext]; decide, by rw [hnext]; decide⟩ (by omega)

theorem takeArg_quoted (hquote : 34 ∉ w) (h : CString m p (quotedLine (w :: words))) (hfuel : w.length < fuel) :
    takeArg fuel m p = some (p + 1, Function.update m (p + 1 + w.length) 0, p + 1 + w.length + 1) := by
  rw [quotedLine_cons] at h
  have hclose : m (p + 1 + w.length) = 34 := h.tail.right.head
  have hgo : ∀ c ∈ w, (decide (c = 0) || decide (c = 34)) = false := by
    intro c hc
    have hzero : c ≠ 0 := fun hz => h.plain (hz ▸ List.mem_cons_of_mem _ (List.mem_append_left _ hc))
    have hquotec : c ≠ 34 := fun hq => hquote (hq ▸ hc)
    rw [decide_eq_false hzero, decide_eq_false hquotec]
    rfl
  rw [takeArg, if_pos h.head, scan_eq h.tail.left hgo (by rw [hclose]; rfl) hfuel, Option.map_some, if_pos hclose]

theorem tokenLoop_eq (hquote : ∀ w ∈ words, 34 ∉ w) (h : CString m p (quotedLine words)) (hargs : argv.length + words.length ≤ maxArgs)
    (hrounds : words.length < rounds) (hfuel : (quotedLine words).length + 2 ≤ fuel) :
    tokenLoop fuel maxArgs rounds m p argv = some (cleared m p words, argv ++ argStarts p words) := by
  induction words generalizing m p argv rounds with
  | nil =>
      obtain ⟨rounds, rfl⟩ := Nat.exists_eq_add_one_of_ne_zero (show rounds ≠ 0 by omega)
      have hend : m p = 0 := h.nul
      rw [tokenLoop, if_neg fun hgo => hgo.1 hend, argStarts, List.append_nil]
      rfl
  | cons w words ih =>
      rw [List.length_cons] at hargs hrounds
      obtain ⟨rounds, rfl⟩ := Nat.exists_eq_add_one_of_ne_zero (show rounds ≠ 0 by omega)
      have hhead : m p = 34 := by
        rw [quotedLine_cons] at h
        exact h.head
      have hlength : (quotedLine (w :: words)).length = w.length + (lineRest words).length + 2 := by
        rw [quotedLine_cons, List.length_cons, List.length_append, List.length_cons]
        omega
      have hrest : CString (Function.update m (p + 1 + w.length) 0) (p + 1 + w.length + 1) (lineRest words) := by
        have hold := h
        rw [quotedLine_cons] at hold
        exact hold.tail.right.tail.congr fun x hx _ => Function.update_of_ne (by omega) _ _
      rw [tokenLoop, if_pos ⟨by rw [hhead]; decide, by omega⟩, takeArg_quoted (hquote w List.mem_cons_self) h (by omega), Option.bind_some,
        blankOut_rest hrest (by omega), Option.bind_some]
      by_cases hnil : words = []
      · have hempty : CString (Function.update m (p + 1 + w.length) 0) (p + 1 + w.length + 1) (quotedLine words) := by
          rw [lineRest, if_pos hnil] at hrest
          rw [hnil]
          exact hrest
        rw [if_pos hnil, ih (fun v hv => hquote v (List.mem_cons_of_mem w hv)) hempty (by rw [List.length_append, List.length_singleton]; omega)
          (by omega) (by rw [hnil]; change 0 + 2 ≤ fuel; omega), hnil, List.append_assoc]
        rfl
      · rw [lineRest, if_neg hnil] at hrest hlength
        rw [List.length_cons] at hlength
        rw [if_neg hnil, ih (fun v hv => hquote v (List.mem_cons_of_mem w hv))
          (hrest.tail.congr fun x hx _ => Function.update_of_ne (by omega) _ _) (by rw [List.length_append, List.length_singleton]; omega)
          (by omega) (by omega), cleared, if_neg hnil, argStarts, List.append_assoc]
        rfl

/-- A line begins and ends with a quote, so there is nothing to trim. -/
theorem trimWs_quotedLine (hne : words ≠ []) (h : CString m p (quotedLine words)) (hfuel : (quotedLine words).length + 2 ≤ fuel) :
    trimWs fuel m p = some (m, p) := by
  obtain ⟨w, rest, hwords⟩ := List.exists_cons_of_ne_nil hne
  have hhead : m p = 34 := by
    rw [hwords, quotedLine_cons] at h
    exact h.head
  have hstart : scan (fun c => !isWs c) m fuel p = some p :=
    scan_eq (s := []) rfl nofun (by rw [List.length_nil, Nat.add_zero, hhead]; rfl) (by rw [List.length_nil]; omega)
  have hend : scan (· = 0) m fuel p = some (p + (quotedLine words).length) :=
    scan_eq h.chars (fun c hc => decide_eq_false fun hz => h.plain (hz ▸ hc)) (by rw [h.nul]; rfl) (by omega)
  obtain ⟨init, hinit⟩ := quotedLine_last hne
  have hlast : m (p + init.length) = 34 := by
    rw [hinit] at h
    exact h.right.head
  have htrim : trimEnd m p (p + (quotedLine words).length) = p + (quotedLine words).length := by
    rw [hinit, List.length_append, List.length_singleton, ← Nat.add_assoc, trimEnd, hlast, if_neg fun h => absurd h.2 (by decide)]
  rw [trimWs, hstart, Option.bind_some, hend, Option.map_some, htrim, Function.update_eq_self_iff.mpr h.nul.symm]

/-- Tokenising the line of some strings, each in double quotes, gives back these strings. -/
theorem appTokenize_quotedLine {line : Nat} (hne : words ≠ []) (hwords : ∀ w ∈ words, 34 ∉ w ∧ 0 ∉ w) (hmax : words.length ≤ maxArgs)
    (hline : CString m line (quotedLine words)) :
    ∃ N t, (∀ fuel, N ≤ fuel → appTokenize fuel m line maxArgs = some t) ∧ t.argc = words.length ∧ List.Forall₂ (CString t.mem) t.argv words := by
  refine ⟨(quotedLine words).length + words.length + 2, ⟨words.length, argStarts line words, cleared m line words⟩, ?_, rfl, cleared_strings hline⟩
  intro fuel hfuel
  obtain ⟨w, rest, rfl⟩ := List.exists_cons_of_ne_nil hne
  have hhead : m line = 34 := by
    rw [quotedLine_cons] at hline
    exact hline.head
  have hpos : 0 < (w :: rest).length := Nat.succ_pos _
  have hgo : ¬ (maxArgs ≤ 0 ∨ m line = 0) := by
    rw [hhead]
    exact not_or.mpr ⟨by omega, by decide⟩
  rw [appTokenize, trimWs_quotedLine hne hline (by omega), Option.bind_some, if_neg hgo,
    tokenLoop_eq (fun v hv => (hwords v hv).1) hline (by rw [List.length_nil, Int.natCast_zero, Int.zero_add]; exact hmax) (by omega) (by omega),
    Option.map_some, List.nil_append, ← (cleared_strings hline).length_eq]

/-- `"a b" ""` in memory. -/
def twoArgs (x : Nat) : UInt8 := [34, 97, 32, 98, 34, 32, 34, 34].getD (x - 16) 0

theorem appTokenize_quotedLine_two : ∃ N t, (∀ fuel, N ≤ fuel → appTokenize fuel twoArgs 16 2 = some t) ∧ t.argc = 2 ∧
    List.Forall₂ (CString t.mem) t.argv [[97, 32, 98], []] :=
  appTokenize_quotedLine (show [[97, 32, 98], ([] : List UInt8)] ≠ [] by decide) (by decide) (by decide) ⟨by decide, by decide, by decide⟩

end AppRuntime

end Tsukasa
