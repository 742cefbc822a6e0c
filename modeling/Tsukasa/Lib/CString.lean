import Tsukasa.Lib.Blocks
import Mathlib.Logic.Function.Basic

/-!
# Terminated strings in a byte memory

A string is the bytes up to a zero byte. A loop over a string goes on while it finds a byte of some kind, so it takes fuel and does not come back where there is none to stop at.
-/

namespace Lib

variable {m m' : Memory} {p q n : Nat} {c : UInt8} {s t : List UInt8} {stop : UInt8 → Bool}

/-- The string at `p` is `s`. -/
structure CString (m : Memory) (p : Nat) (s : List UInt8) : Prop where
  chars : m.bytes p s.length = s
  nul : m (p + s.length) = 0
  plain : 0 ∉ s

theorem bytes_succ (m : Memory) (p n : Nat) : m.bytes p (n + 1) = m p :: m.bytes (p + 1) n := by
  rw [Memory.bytes, List.range_succ_eq_map, List.map_cons, List.map_map]
  refine congrArg _ (List.map_congr_left fun i _ => ?_)
  exact congrArg m (by rw [Nat.add_assoc, Nat.add_comm 1 i])

theorem bytes_left (h : m.bytes p (s ++ t).length = s ++ t) : m.bytes p s.length = s := by
  rw [List.length_append, bytes_append] at h
  exact (List.append_inj h (Memory.length_bytes m p _)).1

theorem bytes_right (h : m.bytes p (s ++ t).length = s ++ t) : m.bytes (p + s.length) t.length = t := by
  rw [List.length_append, bytes_append] at h
  exact (List.append_inj h (Memory.length_bytes m p _)).2

namespace CString

theorem left (h : CString m p (s ++ t)) : m.bytes p s.length = s := bytes_left h.chars

theorem right (h : CString m p (s ++ t)) : CString m (p + s.length) t := by
  refine ⟨bytes_right h.chars, ?_, fun hmem => h.plain (List.mem_append_right s hmem)⟩
  rw [Nat.add_assoc, ← List.length_append]
  exact h.nul

theorem head (h : CString m p (c :: s)) : m p = c := by
  have hchars := h.chars
  rw [List.length_cons, bytes_succ] at hchars
  exact (List.cons.inj hchars).1

theorem tail (h : CString m p (c :: s)) : CString m (p + 1) s := right (s := [c]) h

theorem congr (h : CString m p s) (heq : ∀ x, p ≤ x → x ≤ p + s.length → m' x = m x) : CString m' p s := by
  refine ⟨?_, ?_, h.plain⟩
  · rw [Memory.bytes_congr fun x hlow hhigh => heq x hlow (Nat.le_of_lt hhigh)]
    exact h.chars
  · rw [heq _ (Nat.le_add_right p _) (Nat.le_refl _)]
    exact h.nul

end CString

/-- Goes on to the first byte that `stop` accepts. -/
def scan (stop : UInt8 → Bool) (m : Memory) : Nat → Nat → Option Nat
  | 0, _ => none
  | fuel + 1, p => if stop (m p) then some p else scan stop m fuel (p + 1)

theorem scan_eq (hs : m.bytes p s.length = s) (hgo : ∀ c ∈ s, stop c = false) (hstop : stop (m (p + s.length)) = true) (hfuel : s.length < n) :
    scan stop m n p = some (p + s.length) := by
  induction s generalizing p n with
  | nil =>
      obtain ⟨n, rfl⟩ := Nat.exists_eq_add_one_of_ne_zero (show n ≠ 0 by omega)
      rw [List.length_nil, Nat.add_zero] at hstop ⊢
      rw [scan, if_pos hstop, Nat.add_zero]
  | cons c s ih =>
      rw [List.length_cons] at hs hstop hfuel ⊢
      obtain ⟨n, rfl⟩ := Nat.exists_eq_add_one_of_ne_zero (show n ≠ 0 by omega)
      rw [bytes_succ] at hs
      obtain ⟨hc, hs⟩ := List.cons.inj hs
      have hrest := ih hs (fun d hd => hgo d (List.mem_cons_of_mem c hd)) (by rwa [Nat.add_right_comm]) (show s.length < n by omega)
      rw [scan, hc, if_neg (by rw [hgo c List.mem_cons_self]; decide), hrest, Nat.add_right_comm]
      rfl

end Lib
