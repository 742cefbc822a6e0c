import Tsukasa.Lib.CString
import Tsukasa.Lib.BubbleSort

/-!
# Sorting and searching

`qsort` and `bsearch` of `user/lib/stdlib.c`. An array is a piece of memory with `nmemb` elements of `size` bytes each, and a comparator sees the bytes of the elements it is given. `qsort` exchanges neighbours that are out of order byte by byte, so what it does to the memory is what passes of exchanges do to the list of the elements.
-/

namespace Tsukasa

namespace Stdlib

open Lib (Memory exchange exchangeAt bubblePass bubblePasses bubblePasses_sorts SameTies)

/-- The value of an element of `size` bytes. -/
abbrev Elem (size : Nat) : Type := {v : List UInt8 // v.length = size}

/-- What a comparator reads at a pointer. -/
def elemAt (m : Memory) (size p : Nat) : Elem size := ⟨m.bytes p size, Memory.length_bytes m p size⟩

/-- A round of the loop of `swap_bytes`. -/
def swapByte (a b : Nat) (m : Memory) (i : Nat) : Memory := Function.update (Function.update m (a + i) (m (b + i))) (b + i) (m (a + i))

def swapBytes (m : Memory) (a b size : Nat) : Memory := (List.range size).foldl (swapByte a b) m

/-- A round of the inner loop of `qsort`. -/
def qsortStep (base size : Nat) (compar : Elem size → Elem size → Int) (m : Memory) (j : Nat) : Memory :=
  let a := base + j * size
  let b := base + (j + 1) * size
  if 0 < compar (elemAt m size a) (elemAt m size b) then swapBytes m a b size else m

/-- `qsort` of an array that is there. -/
def qsort (m : Memory) (base nmemb size : Nat) (compar : Elem size → Elem size → Int) : Memory :=
  if size = 0 ∨ nmemb < 2 then m
  else (List.range (nmemb - 1)).foldl (fun m i => (List.range (nmemb - i - 1)).foldl (qsortStep base size compar) m) m

/-- The loop of `bsearch`; `compar` compares the key with an element. -/
def bsearchLoop (m : Memory) (base size : Nat) (compar : Elem size → Int) (lo hi : Nat) : Option Nat :=
  if lo < hi then
    let mid := lo + (hi - lo) / 2
    let slot := base + mid * size
    let cmp := compar (elemAt m size slot)
    if cmp = 0 then some slot
    else if cmp < 0 then bsearchLoop m base size compar lo mid
    else bsearchLoop m base size compar (mid + 1) hi
  else none
termination_by hi - lo

/-- `bsearch` of a key and an array that are there. -/
def bsearch {κ : Type} (m : Memory) (key : κ) (base nmemb size : Nat) (compar : κ → Elem size → Int) : Option Nat :=
  if size = 0 then none else bsearchLoop m base size (compar key) 0 nmemb

/-- The elements of an array. -/
def elements (m : Memory) (base size n : Nat) : List (Elem size) := (List.range n).map fun j => elemAt m size (base + j * size)

/-- The comparator puts any two elements in an order. -/
structure TotalPreorder {size : Nat} (compar : Elem size → Elem size → Int) : Prop where
  total : ∀ a b, compar a b ≤ 0 ∨ compar b a ≤ 0
  trans : ∀ a b c, compar a b ≤ 0 → compar b c ≤ 0 → compar a c ≤ 0

/-- The order of a comparator. -/
def Le {size : Nat} (compar : Elem size → Elem size → Int) (a b : Elem size) : Prop := compar a b ≤ 0

instance {size : Nat} (compar : Elem size → Elem size → Int) : DecidableRel (Le compar) := fun a b => inferInstanceAs (Decidable (compar a b ≤ 0))

/-- Comparing a key with the elements agrees with their order: what is above an element above the key is above the key too, and the same below. -/
structure Consistent {size : Nat} (compar : Elem size → Elem size → Int) (keyCompar : Elem size → Int) : Prop where
  above : ∀ a b, compar a b ≤ 0 → keyCompar a < 0 → keyCompar b < 0
  below : ∀ a b, compar a b ≤ 0 → 0 < keyCompar b → 0 < keyCompar a

variable {m m' : Memory} {base size n j k : Nat} {compar : Elem size → Elem size → Int}

/-! ### Exchanging -/

theorem swapBytes_apply {a b : Nat} (hapart : a + size ≤ b) (x : Nat) : swapBytes m a b size x =
    if a ≤ x ∧ x < a + size then m (b + (x - a)) else if b ≤ x ∧ x < b + size then m (a + (x - b)) else m x := by
  induction size generalizing x with
  | zero =>
      rw [if_neg (by omega), if_neg (by omega)]
      rfl
  | succ size ih =>
      have hprev := ih (by omega)
      have hleft := hprev (a + size)
      have hright := hprev (b + size)
      rw [if_neg (by omega), if_neg (by omega)] at hleft hright
      rw [swapBytes, List.range_succ, List.foldl_append, ← swapBytes, List.foldl_cons, List.foldl_nil, swapByte, hleft, hright]
      by_cases hb : x = b + size
      · rw [hb, Function.update_self, if_neg (by omega), if_pos (by omega), Nat.add_sub_cancel_left]
      · rw [Function.update_of_ne hb]
        by_cases ha : x = a + size
        · rw [ha, Function.update_self, if_pos (by omega), Nat.add_sub_cancel_left]
        · rw [Function.update_of_ne ha, hprev]
          by_cases hin : a ≤ x ∧ x < a + size
          · rw [if_pos hin, if_pos (by omega)]
          · rw [if_neg hin, if_neg (show ¬ (a ≤ x ∧ x < a + (size + 1)) by omega)]
            by_cases hin' : b ≤ x ∧ x < b + size
            · rw [if_pos hin', if_pos (by omega)]
            · rw [if_neg hin', if_neg (by omega)]

theorem elemAt_congr {p q : Nat} (h : ∀ i < size, m' (p + i) = m (q + i)) : elemAt m' size p = elemAt m size q := by
  apply Subtype.ext
  apply List.map_congr_left
  exact fun i hi => h i (List.mem_range.mp hi)

theorem elements_congr (h : ∀ x, base ≤ x → x < base + n * size → m' x = m x) : elements m' base size n = elements m base size n := by
  apply List.map_congr_left
  intro j hj
  have hend : (j + 1) * size ≤ n * size := Nat.mul_le_mul_right size (List.mem_range.mp hj)
  rw [Nat.succ_mul] at hend
  exact elemAt_congr fun i hi => h _ (by omega) (by omega)

theorem length_elements (m : Memory) (base size n : Nat) : (elements m base size n).length = n := by
  rw [elements, List.length_map, List.length_range]

theorem elements_append (m : Memory) (base size n k : Nat) :
    elements m base size (n + k) = elements m base size n ++ elements m (base + n * size) size k := by
  simp only [elements, List.range_add, List.map_append, List.map_map]
  congr 1
  apply List.map_congr_left
  intro j _
  simp only [Function.comp_apply, Nat.add_mul, Nat.add_assoc]

/-- The elements around two neighbours. -/
theorem elements_split (m : Memory) (base size j k : Nat) : elements m base size (j + (2 + k)) = elements m base size j ++
    elemAt m size (base + j * size) :: elemAt m size (base + (j + 1) * size) :: elements m (base + (j + 2) * size) size k := by
  rw [elements_append, elements_append, Nat.add_assoc base, ← Nat.add_mul]
  congr 1
  change [elemAt m size (base + j * size + 0 * size), elemAt m size (base + j * size + 1 * size)] ++ _ = _
  rw [Nat.zero_mul, Nat.add_zero, Nat.add_assoc base, ← Nat.add_mul]
  rfl

/-- A round of the inner loop is an exchange in the list of the elements. -/
theorem qsortStep_elements (hj : j + 1 < n) :
    elements (qsortStep base size compar m j) base size n = exchangeAt (Le compar) (elements m base size n) j := by
  obtain ⟨k, rfl⟩ := Nat.exists_eq_add_of_le (show j + 2 ≤ n by omega)
  rw [Nat.add_assoc, elements_split m, Lib.exchangeAt_append (length_elements m base size j), qsortStep, exchange]
  by_cases hle : compar (elemAt m size (base + j * size)) (elemAt m size (base + (j + 1) * size)) ≤ 0
  · rw [if_pos (show Le compar _ _ from hle), if_neg (Int.not_lt.mpr hle), elements_split]
  · rw [if_neg (show ¬ Le compar _ _ from hle), if_pos (Int.not_le.mp hle), elements_split]
    have hnext : base + (j + 1) * size = base + j * size + size := by rw [Nat.succ_mul, Nat.add_assoc]
    have hlast : base + (j + 2) * size = base + j * size + size + size := by rw [Nat.add_mul, Nat.two_mul]; omega
    have hswap := swapBytes_apply (m := m) (show base + j * size + size ≤ base + (j + 1) * size by omega)
    congr 1
    · apply elements_congr
      intro x _ hx
      rw [hswap, if_neg (by omega), if_neg (by omega)]
    · congr 1
      · apply elemAt_congr
        intro i hi
        rw [hswap, if_pos (by omega), Nat.add_sub_cancel_left]
      · congr 1
        · apply elemAt_congr
          intro i hi
          rw [hswap, if_neg (by omega), if_pos (by omega), Nat.add_sub_cancel_left]
        · apply elements_congr
          intro x hx _
          rw [hswap, if_neg (by omega), if_neg (by omega)]

/-- And it touches nothing else. -/
theorem qsortStep_of_outside (hj : j + 1 < n) {x : Nat} (hx : x < base ∨ base + n * size ≤ x) : qsortStep base size compar m j x = m x := by
  have hnext : base + (j + 1) * size = base + j * size + size := by rw [Nat.succ_mul, Nat.add_assoc]
  have hend : (j + 2) * size ≤ n * size := Nat.mul_le_mul_right size hj
  rw [Nat.add_mul, Nat.two_mul] at hend
  rw [qsortStep]
  split
  · rw [swapBytes_apply (by omega), if_neg (by omega), if_neg (by omega)]
  · rfl

/-! ### The passes -/

/-- What every round of a loop over places does to the elements, the loop does too. -/
theorem elements_foldl {step : Memory → Nat → Memory} {step' : List (Elem size) → Nat → List (Elem size)} {js : List Nat}
    (h : ∀ j ∈ js, ∀ m, elements (step m j) base size n = step' (elements m base size n) j) (m : Memory) :
    elements (js.foldl step m) base size n = js.foldl step' (elements m base size n) := by
  induction js generalizing m with
  | nil => rfl
  | cons j js ih =>
      rw [List.foldl_cons, List.foldl_cons, ih (fun i hi => h i (List.mem_cons_of_mem j hi)), h j List.mem_cons_self]

theorem foldl_of_outside {step : Memory → Nat → Memory} {js : List Nat} {x : Nat} (h : ∀ j ∈ js, ∀ m, step m j x = m x) (m : Memory) :
    js.foldl step m x = m x := by
  induction js generalizing m with
  | nil => rfl
  | cons j js ih => rw [List.foldl_cons, ih (fun i hi => h i (List.mem_cons_of_mem j hi)), h j List.mem_cons_self]

theorem qsort_elements (m : Memory) (base nmemb : Nat) (hsize : 1 ≤ size) :
    elements (qsort m base nmemb size compar) base size nmemb = bubblePasses (Le compar) nmemb (nmemb - 1) (elements m base size nmemb) := by
  rw [qsort]
  by_cases hfew : nmemb < 2
  · rw [if_pos (.inr hfew), show nmemb - 1 = 0 by omega]
    rfl
  · rw [if_neg (by omega), bubblePasses]
    apply elements_foldl
    intro i _ m
    rw [bubblePass]
    apply elements_foldl
    intro j hj m
    rw [List.mem_range] at hj
    exact qsortStep_elements (by omega)

theorem qsort_of_outside {nmemb x : Nat} (hx : x < base ∨ base + nmemb * size ≤ x) : qsort m base nmemb size compar x = m x := by
  rw [qsort]
  split
  · rfl
  · apply foldl_of_outside
    intro i _ m
    apply foldl_of_outside
    intro j hj m
    rw [List.mem_range] at hj
    exact qsortStep_of_outside (by omega) hx

/-! ### Searching -/

/-- The elements from `lo` to `hi` are those that are left: before them the key is above, behind them below. -/
theorem bsearchLoop_spec {keyCompar : Elem size → Int} {lo hi : Nat} (hcons : Consistent compar keyCompar)
    (hsorted : (elements m base size n).Pairwise (Le compar)) (hle : hi ≤ n)
    (hbelow : ∀ i < lo, 0 < keyCompar (elemAt m size (base + i * size)))
    (habove : ∀ i, hi ≤ i → i < n → keyCompar (elemAt m size (base + i * size)) < 0) :
    (∃ i < n, bsearchLoop m base size keyCompar lo hi = some (base + i * size) ∧ keyCompar (elemAt m size (base + i * size)) = 0) ∨
    (bsearchLoop m base size keyCompar lo hi = none ∧ ∀ i < n, keyCompar (elemAt m size (base + i * size)) ≠ 0) := by
  have horder : ∀ i k, i < k → k < n → compar (elemAt m size (base + i * size)) (elemAt m size (base + k * size)) ≤ 0 := by
    intro i k hik hk
    have hpair := List.pairwise_iff_getElem.mp hsorted i k (by rw [length_elements]; omega) (by rw [length_elements]; omega) hik
    simp only [elements, List.getElem_map, List.getElem_range] at hpair
    exact hpair
  induction hgap : hi - lo using Nat.strongRecOn generalizing lo hi with
  | ind gap ih =>
      rw [bsearchLoop]
      by_cases hlt : lo < hi
      · rw [if_pos hlt]
        dsimp only
        generalize hmid : lo + (hi - lo) / 2 = mid
        by_cases heq : keyCompar (elemAt m size (base + mid * size)) = 0
        · rw [if_pos heq]
          exact .inl ⟨mid, by omega, rfl, heq⟩
        · rw [if_neg heq]
          by_cases hneg : keyCompar (elemAt m size (base + mid * size)) < 0
          · rw [if_pos hneg]
            refine ih (mid - lo) (by omega) (by omega) hbelow (fun i hi hi' => ?_) rfl
            rcases Nat.eq_or_lt_of_le hi with rfl | hlater
            · exact hneg
            · exact hcons.above _ _ (horder mid i hlater hi') hneg
          · rw [if_neg hneg]
            have hpos : 0 < keyCompar (elemAt m size (base + mid * size)) := by omega
            refine ih (hi - (mid + 1)) (by omega) hle (fun i hi => ?_) habove rfl
            rcases Nat.eq_or_lt_of_le (Nat.le_of_lt_succ hi) with rfl | hearlier
            · exact hpos
            · exact hcons.below _ _ (horder i mid hearlier (by omega)) hpos
      · rw [if_neg hlt]
        refine .inr ⟨rfl, fun i hi hzero => ?_⟩
        rcases Nat.lt_or_ge i lo with hfront | hback
        · have hpos := hbelow i hfront
          omega
        · have hneg := habove i (by omega) hi
          omega

/-- A comparator whose sign turns round with its arguments is consistent with itself. -/
theorem consistent_self (h : TotalPreorder compar) (hturn : ∀ a b, compar a b < 0 ↔ 0 < compar b a) (key : Elem size) : Consistent compar (compar key) := by
  constructor
  · intro a b hab hkey
    rw [hturn] at hkey ⊢
    apply Int.not_le.mp
    intro hle
    have htrans := h.trans a b key hab hle
    omega
  · intro a b hab hkey
    apply Int.not_le.mp
    intro hle
    have htrans := h.trans key a b hle hab
    omega

/-- `qsort` leaves the elements of the array in order, with tied ones in their order, and nothing else changed. `bsearch` finds an element that is equal to the key in an array in order, or there is none. -/
theorem qsort_bsearch (hsize : 1 ≤ size) (hcompar : TotalPreorder compar) :
    (∀ m base nmemb, (elements (qsort m base nmemb size compar) base size nmemb).Perm (elements m base size nmemb) ∧
      (elements (qsort m base nmemb size compar) base size nmemb).Pairwise (Le compar) ∧
      SameTies (Le compar) (elements (qsort m base nmemb size compar) base size nmemb) (elements m base size nmemb) ∧
      ∀ x, x < base ∨ base + nmemb * size ≤ x → qsort m base nmemb size compar x = m x) ∧
    ∀ (m : Memory) (base nmemb : Nat) (κ : Type) (key : κ) (keyCompar : κ → Elem size → Int),
      (elements m base size nmemb).Pairwise (Le compar) → Consistent compar (keyCompar key) →
        (∃ i < nmemb, bsearch m key base nmemb size keyCompar = some (base + i * size) ∧ keyCompar key (elemAt m size (base + i * size)) = 0) ∨
        (bsearch m key base nmemb size keyCompar = none ∧ ∀ i < nmemb, keyCompar key (elemAt m size (base + i * size)) ≠ 0) := by
  have : Std.Total (Le compar) := ⟨hcompar.total⟩
  have : IsTrans (Elem size) (Le compar) := ⟨hcompar.trans⟩
  constructor
  · intro m base nmemb
    have hsorts := bubblePasses_sorts (Le compar) (elements m base size nmemb)
    rw [length_elements, ← qsort_elements m base nmemb hsize] at hsorts
    exact ⟨hsorts.1, hsorts.2.1, hsorts.2.2, fun x hx => qsort_of_outside hx⟩
  · intro m base nmemb κ key keyCompar hsorted hcons
    rw [bsearch, if_neg (by omega)]
    exact bsearchLoop_spec hcons hsorted (Nat.le_refl nmemb) (fun i hi => absurd hi (Nat.not_lt_zero i)) fun i hi hi' => absurd hi' (Nat.not_lt.mpr hi)

/-- Bytes as numbers. -/
def byteCompar (a b : Elem 1) : Int := (a.val.headD 0).toNat - (b.val.headD 0).toNat

theorem byteCompar_total : TotalPreorder byteCompar := by
  constructor
  · intro a b
    rw [byteCompar, byteCompar]
    omega
  · intro a b c hab hbc
    rw [byteCompar] at hab hbc ⊢
    omega

def threeBytes (x : Nat) : UInt8 := [3, 1, 2].getD x 0

/-- Three bytes, in order behind `qsort`, and what `bsearch` says of the first of them. -/
theorem qsort_bsearch_three : (elements (qsort threeBytes 0 3 1 byteCompar) 0 1 3).Pairwise (Le byteCompar) ∧
    ((∃ i < 3, bsearch (qsort threeBytes 0 3 1 byteCompar) (elemAt threeBytes 1 0) 0 3 1 byteCompar = some (0 + i * 1) ∧
        byteCompar (elemAt threeBytes 1 0) (elemAt (qsort threeBytes 0 3 1 byteCompar) 1 (0 + i * 1)) = 0) ∨
      (bsearch (qsort threeBytes 0 3 1 byteCompar) (elemAt threeBytes 1 0) 0 3 1 byteCompar = none ∧
        ∀ i < 3, byteCompar (elemAt threeBytes 1 0) (elemAt (qsort threeBytes 0 3 1 byteCompar) 1 (0 + i * 1)) ≠ 0)) := by
  have hturn : ∀ a b, byteCompar a b < 0 ↔ 0 < byteCompar b a := by
    intro a b
    rw [byteCompar, byteCompar]
    omega
  have hcontract := qsort_bsearch (by decide) byteCompar_total
  have hsorted := (hcontract.1 threeBytes 0 3).2.1
  exact ⟨hsorted, hcontract.2 _ 0 3 (Elem 1) _ byteCompar hsorted (consistent_self byteCompar_total hturn _)⟩

end Stdlib

end Tsukasa
