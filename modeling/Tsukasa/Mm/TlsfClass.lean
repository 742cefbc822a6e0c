import Tsukasa.Mm.Tlsf

/-!
# Size classes of the allocator

A size of at least 16 bytes is filed by its leading bit and the four bits below it. `mapping_search` starts at the first class all of whose blocks are large enough, as long as rounding up does not wrap.
-/

namespace Tsukasa

variable {size s fl sl : Nat}

theorem fls_bounds (h : 16 ≤ s) : 4 ≤ fls s ∧ 16 * 2 ^ (fls s - 4) ≤ s ∧ s < 32 * 2 ^ (fls s - 4) := by
  have hne : s ≠ 0 := by omega
  have hfour : 4 ≤ fls s := (Nat.le_log2 hne).mpr h
  obtain ⟨k, hk⟩ := Nat.exists_eq_add_of_le hfour
  have hlow : 2 ^ fls s ≤ s := Nat.log2_self_le hne
  have hhigh : s < 2 ^ (fls s + 1) := (Nat.log2_lt hne).mp (Nat.lt_succ_self _)
  rw [hk, Nat.pow_add] at hlow
  rw [hk, Nat.add_assoc, Nat.pow_add, Nat.pow_succ] at hhigh
  rw [hk, Nat.add_sub_cancel_left]
  refine ⟨Nat.le_add_right 4 k, ?_, ?_⟩ <;> omega

theorem mappingInsert_of_le (h : 16 ≤ s) : mappingInsert s = (fls s, s / 2 ^ (fls s - 4) % 16) := by
  rw [mappingInsert, if_neg (by simp only [slIndexBits]; omega)]
  rfl

theorem mappingInsert_of_lt (h : s < 16) : mappingInsert s = (0, s) := by
  rw [mappingInsert, if_pos (by simp only [slIndexBits]; omega)]

theorem mappingInsert_sl_lt (s : Nat) : (mappingInsert s).2 < slIndexCount := by
  rcases Nat.lt_or_ge s 16 with h | h
  · rwa [mappingInsert_of_lt h]
  · rw [mappingInsert_of_le h]
    exact Nat.mod_lt _ (by decide)

theorem mappingInsert_fl_lt_iff : (mappingInsert s).1 < flIndexCount ↔ s < 2 ^ 25 := by
  rcases Nat.lt_or_ge s 16 with h | h
  · rw [mappingInsert_of_lt h]
    exact iff_of_true (show 0 < flIndexCount by decide) (Nat.lt_of_lt_of_le h (by decide))
  · rw [mappingInsert_of_le h]
    exact Nat.log2_lt (by omega)

theorem four_le_mappingInsert_fl (h : 16 ≤ s) : 4 ≤ (mappingInsert s).1 := by
  rw [mappingInsert_of_le h]
  exact (fls_bounds h).1

/-- The smallest size of a class, for the classes of at least 16 bytes. -/
def classFloor (c : Nat × Nat) : Nat := (16 + c.2) * 2 ^ (c.1 - 4)

theorem classFloor_mappingInsert (h : 16 ≤ s) :
    classFloor (mappingInsert s) ≤ s ∧ s < classFloor (mappingInsert s) + 2 ^ ((mappingInsert s).1 - 4) := by
  obtain ⟨-, hlow, hhigh⟩ := fls_bounds h
  rw [mappingInsert_of_le h, classFloor]
  have hu : 0 < 2 ^ (fls s - 4) := Nat.two_pow_pos _
  generalize 2 ^ (fls s - 4) = u at *
  have hquot : 16 + s / u % 16 = s / u := by
    have hge : 16 ≤ s / u := (Nat.le_div_iff_mul_le hu).mpr hlow
    have hlt : s / u < 32 := (Nat.div_lt_iff_lt_mul hu).mpr hhigh
    omega
  rw [hquot]
  exact ⟨Nat.div_mul_le_self s u, Nat.lt_div_mul_add hu⟩

/-- A block filed at or above a class has at least the size the class begins with. -/
theorem classFloor_le (hfl : 4 ≤ fl) (hsl : sl < 16)
    (h : fl < (mappingInsert s).1 ∨ fl = (mappingInsert s).1 ∧ sl ≤ (mappingInsert s).2) : classFloor (fl, sl) ≤ s := by
  have hs : 16 ≤ s := by
    by_contra hlt
    rw [mappingInsert_of_lt (by omega)] at h
    omega
  have hfloor := (classFloor_mappingInsert hs).1
  refine Nat.le_trans ?_ hfloor
  rw [classFloor, classFloor]
  rcases h with habove | ⟨hsame, hle⟩
  · have hpow : 2 ^ (fl - 4 + 1) ≤ 2 ^ ((mappingInsert s).1 - 4) := Nat.pow_le_pow_right (by decide) (by omega)
    calc (16 + sl) * 2 ^ (fl - 4) ≤ 32 * 2 ^ (fl - 4) := Nat.mul_le_mul_right _ (by omega)
      _ = 16 * 2 ^ (fl - 4 + 1) := by rw [Nat.pow_succ]; omega
      _ ≤ (16 + (mappingInsert s).2) * 2 ^ ((mappingInsert s).1 - 4) := Nat.mul_le_mul (by omega) hpow
  · rw [← hsame]
    exact Nat.mul_le_mul_right _ (by omega)

/-! ### The class a search starts at -/

/-- The size `mapping_search` looks up, before it is cut to 32 bits. -/
def searchSize (size : Nat) : Nat := size + (2 ^ (fls size - 4) - 1)

theorem mappingSearch_of_le (h : 16 ≤ size) : mappingSearch size = mappingInsert (wrap32 (searchSize size)) := by
  rw [mappingSearch, if_pos (by rw [slIndexBits]; omega)]
  rfl

theorem le_classFloor_search (h : 16 ≤ size) (hwrap : searchSize size < 2 ^ 32) : size ≤ classFloor (mappingSearch size) := by
  obtain ⟨-, hlow, hhigh⟩ := fls_bounds h
  rw [mappingSearch_of_le h, wrap32_of_lt hwrap]
  have hle : size ≤ searchSize size := Nat.le_add_right _ _
  obtain ⟨hfour, hlow', hhigh'⟩ := fls_bounds (Nat.le_trans h hle)
  have hclass := (classFloor_mappingInsert (Nat.le_trans h hle)).2
  have hfl : (mappingInsert (searchSize size)).1 = fls (searchSize size) := by rw [mappingInsert_of_le (Nat.le_trans h hle)]
  rcases Nat.lt_trichotomy (fls (searchSize size)) (fls size) with hlt | heq | hgt
  · have hpow : 2 ^ (fls (searchSize size) - 4 + 1) ≤ 2 ^ (fls size - 4) :=
      Nat.pow_le_pow_right (by decide) (by have := (fls_bounds h).1; omega)
    rw [Nat.pow_succ] at hpow
    omega
  · rw [hfl, heq, searchSize] at hclass
    rw [searchSize]
    omega
  · -- rounding up crossed a power of two, and the class begins there
    have hpow : 2 ^ (fls size - 4 + 1) ≤ 2 ^ (fls (searchSize size) - 4) :=
      Nat.pow_le_pow_right (by decide) (by have := (fls_bounds h).1; omega)
    rw [Nat.pow_succ] at hpow
    have hfloor : 16 * 2 ^ (fls (searchSize size) - 4) ≤ classFloor (mappingInsert (searchSize size)) := by
      rw [classFloor, hfl]
      exact Nat.mul_le_mul_right _ (Nat.le_add_right _ _)
    omega

/-- The smallest size of the class a search starts at: the size rounded up to a multiple of the width of its class. -/
def classCeil (size : Nat) : Nat := searchSize size / 2 ^ (fls size - 4) * 2 ^ (fls size - 4)

theorem classFloor_mappingSearch (h : 16 ≤ size) (hwrap : searchSize size < 2 ^ 32) : classFloor (mappingSearch size) = classCeil size := by
  obtain ⟨hfour, hlow, hhigh⟩ := fls_bounds h
  have hle : size ≤ searchSize size := Nat.le_add_right _ _
  have hsearch := Nat.le_trans h hle
  obtain ⟨-, hlow', hhigh'⟩ := fls_bounds hsearch
  rw [mappingSearch_of_le h, wrap32_of_lt hwrap, mappingInsert_of_le hsearch, classFloor, classCeil]
  dsimp only
  have hu : 0 < 2 ^ (fls size - 4) := Nat.two_pow_pos _
  have hx : searchSize size = size + (2 ^ (fls size - 4) - 1) := rfl
  have hmono : fls size ≤ fls (searchSize size) := (Nat.le_log2 (by omega)).mpr (Nat.le_trans (Nat.log2_self_le (by omega)) hle)
  rcases Nat.eq_or_lt_of_le hmono with heq | hlt
  · rw [← heq] at hlow' hhigh' ⊢
    generalize 2 ^ (fls size - 4) = u at *
    have hge : 16 ≤ searchSize size / u := (Nat.le_div_iff_mul_le hu).mpr hlow'
    have hlt : searchSize size / u < 32 := (Nat.div_lt_iff_lt_mul hu).mpr hhigh'
    rw [show 16 + searchSize size / u % 16 = searchSize size / u by omega]
  · -- rounding up crossed a power of two, and both are that power
    have hnext : fls (searchSize size) = fls size + 1 := by
      by_contra hne
      have hpow : 2 ^ (fls size - 4 + 2) ≤ 2 ^ (fls (searchSize size) - 4) := Nat.pow_le_pow_right (by decide) (by omega)
      rw [Nat.pow_add] at hpow
      omega
    rw [hnext, show fls size + 1 - 4 = fls size - 4 + 1 by omega, Nat.pow_succ] at hlow' hhigh' ⊢
    generalize 2 ^ (fls size - 4) = u at *
    have hfirst : searchSize size / u = 32 := Nat.div_eq_of_lt_le (by omega) (by omega)
    have hsecond : searchSize size / (u * 2) = 16 := Nat.div_eq_of_lt_le (by omega) (by omega)
    rw [hfirst, hsecond]
    omega

/-- The largest request whose search stays inside the table. -/
def requestMax : Nat := 2 ^ 25 - 2 ^ 20

theorem searchSize_lt_of_le (h : 16 ≤ size) (hmax : size ≤ requestMax) : searchSize size < 2 ^ 25 := by
  obtain ⟨hfour, hlow, hhigh⟩ := fls_bounds h
  have hfl : fls size < 25 := (Nat.log2_lt (by omega)).mpr (Nat.lt_of_le_of_lt hmax (by decide))
  rw [searchSize]
  rw [requestMax] at hmax
  rcases Nat.lt_or_ge (fls size) 24 with hsmall | hlarge
  · have hpow : 2 ^ (fls size - 4) ≤ 2 ^ 19 := Nat.pow_le_pow_right (by decide) (by omega)
    omega
  · have heq : fls size = 24 := by omega
    rw [heq]
    omega

theorem searchSize_lt_iff (h : 16 ≤ size) : searchSize size < 2 ^ 25 ↔ size ≤ requestMax := by
  constructor
  · intro hlt
    by_contra hgt
    obtain ⟨hfour, hlow, hhigh⟩ := fls_bounds h
    rw [requestMax] at hgt
    rw [searchSize] at hlt
    have hfl : 24 ≤ fls size := (Nat.le_log2 (by omega)).mpr (by omega)
    have hpow : 2 ^ 20 ≤ 2 ^ (fls size - 4) := Nat.pow_le_pow_right (by decide) (by omega)
    omega
  · exact searchSize_lt_of_le h

/-- The search of a 32-bit size stays inside the table when the size is small enough, or when rounding up wraps it into a small one. -/
theorem mappingSearch_fl_lt_iff (h : 16 ≤ size) (hword : size < 2 ^ 32) :
    (mappingSearch size).1 < flIndexCount ↔ size ≤ requestMax ∨ 2 ^ 32 - 2 ^ 27 < size ∧ size ≤ 2 ^ 32 - 2 ^ 27 + 2 ^ 25 := by
  obtain ⟨hfour, hlow, hhigh⟩ := fls_bounds h
  rw [mappingSearch_of_le h, mappingInsert_fl_lt_iff, wrap32]
  have hle : size ≤ searchSize size := Nat.le_add_right _ _
  rcases Nat.lt_or_ge (searchSize size) (2 ^ 32) with hsmall | hlarge
  · rw [Nat.mod_eq_of_lt hsmall, searchSize_lt_iff h]
    refine ⟨Or.inl, fun hor => hor.resolve_right fun hwrap => ?_⟩
    have hfl : 31 ≤ fls size := (Nat.le_log2 (by omega)).mpr (by omega)
    have hpow : 2 ^ 27 ≤ 2 ^ (fls size - 4) := Nat.pow_le_pow_right (by decide) (by omega)
    rw [searchSize] at hsmall
    omega
  · have hfl : fls size < 32 := (Nat.log2_lt (by omega)).mpr hword
    have htop : fls size = 31 := by
      by_contra hne
      have hpow : 2 ^ (fls size - 4) ≤ 2 ^ 26 := Nat.pow_le_pow_right (by decide) (by omega)
      rw [searchSize] at hlarge
      omega
    rw [searchSize, htop] at hlarge ⊢
    rw [requestMax]
    omega

theorem mappingSearch_sl_lt (size : Nat) : (mappingSearch size).2 < slIndexCount := mappingInsert_sl_lt _

/-! ### Requests -/

theorem requestSize_eq (n : Nat) : requestSize n = max blockMin ((n + 7) % 2 ^ 64 / 8 * 8) := by
  show (if (n + 7) % 2 ^ 64 / 8 * 8 < blockMin then blockMin else (n + 7) % 2 ^ 64 / 8 * 8) = _
  split <;> omega

theorem requestSize_mod (n : Nat) : requestSize n % 8 = 0 := by
  rw [requestSize_eq, blockMin]
  omega

/-- Rounding up keeps a request, unless it wraps. -/
theorem le_requestSize {n : Nat} (h : n + 7 < 2 ^ 64) : n ≤ requestSize n := by
  rw [requestSize_eq, Nat.mod_eq_of_lt h]
  omega

theorem requestSize_of_wrap {n : Nat} (h : 2 ^ 64 ≤ n + 7) (hn : n < 2 ^ 64) : requestSize n = blockMin := by
  rw [requestSize_eq, blockMin]
  omega

end Tsukasa
