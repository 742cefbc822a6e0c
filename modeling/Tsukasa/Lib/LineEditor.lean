import Mathlib.Data.List.InsertIdx

/-!
# Editing a line

A line is a text with a cursor, which stands before one of its characters or at its end. In memory the text is the characters before a terminator, and an edit moves everything behind the cursor, the terminator included.
-/

namespace Lib

variable {α : Type*} {z c : α} {b b' : Int → α} {s : List α} {i : Nat}

@[ext] structure Line (α : Type*) where
  text : List α
  cursor : Nat

namespace Line

/-- Deletes the character before the cursor. -/
def backspace (l : Line α) : Line α := if l.cursor = 0 then l else ⟨l.text.eraseIdx (l.cursor - 1), l.cursor - 1⟩

/-- Inserts a character at the cursor where the text has less than `room`. -/
def insert (room : Nat) (c : α) (l : Line α) : Line α := if room ≤ l.text.length then l else ⟨l.text.insertIdx l.cursor c, l.cursor + 1⟩

end Line

/-- The characters from 0 up to the terminator `z` are `s`. -/
structure Terminated (z : α) (b : Int → α) (s : List α) : Prop where
  chars : ∀ k, k < s.length → s[k]? = some (b k)
  stop : b s.length = z
  plain : z ∉ s

namespace Terminated

theorem ne_stop (h : Terminated z b s) {k : Nat} (hk : k < s.length) : b k ≠ z := by
  intro hz
  have hmem := List.mem_of_getElem? (h.chars k hk)
  rw [hz] at hmem
  exact h.plain hmem

/-- What follows a deleted character has moved down by one. -/
theorem eraseIdx (h : Terminated z b s) (hi : i < s.length) (hb : ∀ x : Int, b' x = if (i : Int) ≤ x ∧ x < s.length then b (x + 1) else b x) :
    Terminated z b' (s.eraseIdx i) := by
  have hlength : (s.eraseIdx i).length = s.length - 1 := List.length_eraseIdx_of_lt hi
  refine ⟨?_, ?_, fun hz => h.plain (List.mem_of_mem_eraseIdx hz)⟩
  · intro k hk
    rw [List.getElem?_eraseIdx, hb]
    split
    · rw [if_neg (by omega)]
      exact h.chars k (by omega)
    · rw [if_pos (by omega)]
      exact h.chars (k + 1) (by omega)
  · rw [hlength, hb, if_pos (by omega), show ((s.length - 1 : Nat) : Int) + 1 = s.length by omega]
    exact h.stop

/-- What follows an inserted character has moved up by one. -/
theorem insertIdx (h : Terminated z b s) (hc : c ≠ z) (hi : i ≤ s.length)
    (hb : ∀ x : Int, b' x = if x = i then c else if (i : Int) < x ∧ x ≤ s.length + 1 then b (x - 1) else b x) : Terminated z b' (s.insertIdx i c) := by
  have hlength : (s.insertIdx i c).length = s.length + 1 := List.length_insertIdx_of_le_length hi c
  refine ⟨?_, ?_, ?_⟩
  · intro k hk
    rw [List.getElem?_insertIdx, hb]
    split
    · rw [if_neg (by omega), if_neg (by omega)]
      exact h.chars k (by omega)
    · split
      · rename_i hki
        rw [if_pos (by omega), if_pos (by omega)]
      · rw [if_neg (by omega), if_pos (by omega), show ((k : Int) - 1) = ((k - 1 : Nat) : Int) by omega]
        exact h.chars (k - 1) (by omega)
  · rw [hlength, hb, if_neg (by omega), if_pos (by omega), show ((s.length + 1 : Nat) : Int) - 1 = s.length by omega]
    exact h.stop
  · rw [List.mem_insertIdx hi]
    exact not_or.mpr ⟨hc.symm, h.plain⟩

end Terminated

end Lib
