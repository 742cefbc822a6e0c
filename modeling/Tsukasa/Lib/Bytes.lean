import Mathlib.Data.Nat.Basic
import Mathlib.Tactic.Ring

/-!
# Little-endian words in a byte memory

A memory is a total function from addresses to bytes. A word of `n` bytes is loaded and stored little-endian, and its value is a natural number below `256 ^ n`. Two facts are all a program proof needs of it: a load sees the last store to its range, and a store elsewhere does not disturb it.
-/

namespace Lib

abbrev Memory := Nat → UInt8

namespace Memory

/-- The little-endian value of the `n` bytes at `a`. -/
def load (m : Memory) (a : Nat) : Nat → Nat
  | 0 => 0
  | n + 1 => (m a).toNat + 256 * load m (a + 1) n

/-- The memory with the `n` low bytes of `v` at `a`, least significant first. -/
def store (m : Memory) (a n v : Nat) : Memory :=
  fun x => if a ≤ x ∧ x < a + n then UInt8.ofNat (v / 256 ^ (x - a)) else m x

theorem load_lt (m : Memory) (a n : Nat) : m.load a n < 256 ^ n := by
  induction n generalizing a with
  | zero => simp [load]
  | succ n ih =>
      have hbyte := (m a).toNat_lt
      have hrest := ih (a + 1)
      simp only [load, Nat.pow_succ]
      omega

theorem load_congr {m m' : Memory} {a n : Nat} (h : ∀ x, a ≤ x → x < a + n → m x = m' x) :
    m.load a n = m'.load a n := by
  induction n generalizing a with
  | zero => rfl
  | succ n ih =>
      simp only [load]
      rw [h a (Nat.le_refl a) (by omega), ih fun x hlo hhi => h x (by omega) (by omega)]

/-- Memories that agree on a record load the same fields of it. -/
theorem load_of_agree {m m' : Memory} {off n a k : Nat} (h : ∀ i < n, m (off + i) = m' (off + i)) (hin : a + k ≤ n) :
    m.load (off + a) k = m'.load (off + a) k := by
  apply load_congr
  intro x hlo hhi
  have hx := h (x - off) (by omega)
  rwa [Nat.add_sub_cancel' (by omega)] at hx

theorem load_eq_zero {m : Memory} {a n : Nat} (h : ∀ x, a ≤ x → x < a + n → m x = 0) : m.load a n = 0 := by
  induction n generalizing a with
  | zero => rfl
  | succ n ih =>
      simp only [load]
      rw [h a (Nat.le_refl a) (by omega), ih fun x hlo hhi => h x (by omega) (by omega)]
      rfl

theorem store_apply_of_outside (m : Memory) {a n v x : Nat} (h : x < a ∨ a + n ≤ x) :
    m.store a n v x = m x := by
  rw [store, if_neg (by omega)]

theorem store_apply_of_inside (m : Memory) {a n v x : Nat} (hlo : a ≤ x) (hhi : x < a + n) :
    m.store a n v x = UInt8.ofNat (v / 256 ^ (x - a)) := by
  rw [store, if_pos ⟨hlo, hhi⟩]

/-- A store does not disturb a load of a range disjoint from its own. -/
theorem load_store_of_disjoint (m : Memory) {a n v b k : Nat} (h : b + k ≤ a ∨ a + n ≤ b) :
    (m.store a n v).load b k = m.load b k :=
  load_congr fun _ hlo hhi => store_apply_of_outside m (by omega)

/-- A load of the range just stored to gives the stored value back, cut to its width. -/
theorem load_store_self (m : Memory) (a n v : Nat) : (m.store a n v).load a n = v % 256 ^ n := by
  induction n generalizing m a v with
  | zero => simp [load, Nat.mod_one]
  | succ n ih =>
      have hhead : (m.store a (n + 1) v) a = UInt8.ofNat v := by
        rw [store_apply_of_inside m (Nat.le_refl a) (by omega), Nat.sub_self, Nat.pow_zero, Nat.div_one]
      have htail : (m.store a (n + 1) v).load (a + 1) n = (m.store (a + 1) n (v / 256)).load (a + 1) n := by
        apply load_congr
        intro x hlo hhi
        rw [store_apply_of_inside m (by omega) (by omega), store_apply_of_inside m hlo hhi,
          Nat.div_div_eq_div_mul, ← Nat.pow_succ', show (x - (a + 1)).succ = x - a by omega]
      rw [load, hhead, htail, ih, Nat.pow_succ', Nat.mod_mul]
      simp [UInt8.toNat_ofNat']

/-- A load of the first bytes just stored gives the value cut to their width. -/
theorem load_store_low (m : Memory) {a n k v : Nat} (h : n ≤ k) : (m.store a k v).load a n = v % 256 ^ n := by
  rw [← load_store_self m a n v]
  refine load_congr fun x hlo hhi => ?_
  rw [store_apply_of_inside m hlo (by omega), store_apply_of_inside m hlo hhi]

/-- The bytes of a word in memory. -/
theorem ofNat_load_div (m : Memory) {a n i : Nat} (hi : i < n) : UInt8.ofNat (m.load a n / 256 ^ i) = m (a + i) := by
  induction n generalizing a i with
  | zero => exact absurd hi (Nat.not_lt_zero i)
  | succ n ih =>
      have hbyte := (m a).toNat_lt
      cases i with
      | zero =>
          rw [load, Nat.pow_zero, Nat.div_one, show a + 0 = a from rfl]
          apply UInt8.toNat_inj.mp
          rw [UInt8.toNat_ofNat']
          omega
      | succ i =>
          have htail : m.load a (n + 1) / 256 = m.load (a + 1) n := by
            rw [load]
            omega
          rw [Nat.pow_succ', ← Nat.div_div_eq_div_mul, htail, ih (Nat.lt_of_succ_lt_succ hi), Nat.add_assoc, Nat.add_comm 1 i]

/-- A word that is stored where it has been loaded changes nothing. -/
theorem store_load_self (m : Memory) (a n : Nat) : m.store a n (m.load a n) = m := by
  funext x
  rw [store]
  split
  · rename_i hx
    rw [ofNat_load_div m (by omega), Nat.add_sub_cancel' hx.1]
  · rfl

/-! ### Consecutive stores of words -/

/-- The memory after eight-byte words have been stored one after the other, word `i` at `addr i`. -/
def storeWords (m : Memory) (addr value : Nat → Nat) : Nat → Memory
  | 0 => m
  | n + 1 => (storeWords m addr value n).store (addr n) 8 (value n)

theorem storeWords_of_outside (m : Memory) {addr value : Nat → Nat} {n x : Nat} (h : ∀ i < n, x < addr i ∨ addr i + 8 ≤ x) :
    m.storeWords addr value n x = m x := by
  induction n with
  | zero => rfl
  | succ n ih =>
      rw [storeWords, store_apply_of_outside _ (h n (Nat.lt_succ_self n)), ih fun i hi => h i (Nat.lt_succ_of_lt hi)]

/-- Words that do not overlap are all there at the end. -/
theorem load_storeWords (m : Memory) {addr value : Nat → Nat} {n i : Nat}
    (h : ∀ i j, i < j → j < n → addr i + 8 ≤ addr j ∨ addr j + 8 ≤ addr i) (hi : i < n) :
    (m.storeWords addr value n).load (addr i) 8 = value i % 2 ^ 64 := by
  induction n with
  | zero => exact absurd hi (Nat.not_lt_zero i)
  | succ n ih =>
      rw [storeWords]
      rcases Nat.lt_succ_iff_lt_or_eq.mp hi with hlt | rfl
      · rw [load_store_of_disjoint _ (h i n hlt (Nat.lt_succ_self n))]
        exact ih (fun j k hjk hk => h j k hjk (Nat.lt_succ_of_lt hk)) hlt
      · rw [load_store_self]
        norm_num

end Memory

end Lib
