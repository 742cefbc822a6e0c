import Tsukasa.Mm.TlsfClass
import Tsukasa.Lib.DoublyLinked

/-!
# The index of free blocks

The control structure at `t` files blocks under their size classes: a doubly linked list for each class, through the payloads of its blocks, and two levels of bitmaps that say which lists are not empty. `insert_block` and `remove_block` keep that, and they write to the control structure and to the links of filed blocks only.
-/

namespace Tsukasa

open Lib (Memory)
open Lib.Linked (IsDList)

variable {m m' : Memory} {t b y fl sl size : Nat} {lists : Nat → Nat → List Nat}

/-! ### Bitmaps -/

theorem ffs_spec {v : BitVec 32} (h : v ≠ 0) : v.getLsbD (ffs v) = true := by
  rw [ffs]
  cases hfind : (List.range 32).find? v.getLsbD with
  | some i => exact List.find?_some hfind
  | none =>
      rw [List.find?_eq_none] at hfind
      refine absurd (BitVec.eq_of_getLsbD_eq fun i hi => ?_) h
      simpa using hfind i (List.mem_range.mpr hi)

theorem exists_bit {v : BitVec 32} (h : v ≠ 0) : ∃ i, v.getLsbD i = true := ⟨ffs v, ffs_spec h⟩

theorem bitsAt_store_self (a : Nat) (v : BitVec 32) : bitsAt (m.store a 4 v.toNat) a = v := by
  rw [bitsAt, Memory.load_store_self]
  exact BitVec.eq_of_toNat_eq (by rw [BitVec.toNat_ofNat]; omega)

theorem bitsAt_store_of_disjoint {a c n v : Nat} (h : c + 4 ≤ a ∨ a + n ≤ c) : bitsAt (m.store a n v) c = bitsAt m c := by
  rw [bitsAt, bitsAt, Memory.load_store_of_disjoint m h]

theorem getLsbD_oneShift {i j : Nat} (hi : i < 32) : (1#32 <<< i).getLsbD j = decide (j = i) := by
  rw [BitVec.getLsbD_shiftLeft, BitVec.getLsbD_one]
  by_cases h : j = i
  · subst h
    simp [hi]
  · by_cases hlt : j < i
    · simp [h, hlt]
    · have hsub : j - i ≠ 0 := by omega
      simp [h, hsub]

theorem getLsbD_set (v : BitVec 32) {i j : Nat} (hi : i < 32) : (v ||| 1#32 <<< i).getLsbD j = (v.getLsbD j || decide (j = i)) := by
  rw [BitVec.getLsbD_or, getLsbD_oneShift hi]

theorem getLsbD_clear (v : BitVec 32) {i j : Nat} (hi : i < 32) :
    (v &&& ~~~(1#32 <<< i)).getLsbD j = (v.getLsbD j && !decide (j = i)) := by
  rw [BitVec.getLsbD_and, BitVec.getLsbD_not, getLsbD_oneShift hi]
  by_cases hj : j < 32
  · simp [hj]
  · simp [BitVec.getLsbD_of_ge v j (by omega)]

theorem getLsbD_from (v : BitVec 32) {i j : Nat} :
    (v &&& BitVec.allOnes 32 <<< i).getLsbD j = (v.getLsbD j && decide (i ≤ j)) := by
  rw [BitVec.getLsbD_and, BitVec.getLsbD_shiftLeft, BitVec.getLsbD_allOnes]
  by_cases hj : j < 32
  · by_cases hij : i ≤ j
    · have hsub : j - i < 32 := by omega
      simp [hj, hij, hsub]
    · simp [hij, Nat.lt_of_not_le hij]
  · simp [BitVec.getLsbD_of_ge v j (by omega)]

/-! ### Nodes of the lists -/

theorem mod_word {v : Nat} (h : v < 2 ^ 64) : v % 256 ^ 8 = v := Nat.mod_eq_of_lt h

/-- A link field as a reference to another block. -/
def linkTo (v : Nat) : Option Nat := if v = 0 then none else some v

theorem linkTo_eq_some {v x : Nat} (hx : x ≠ 0) : linkTo v = some x ↔ v = x := by
  rw [linkTo]
  split
  · simp
    omega
  · simp

theorem linkTo_eq_none {v : Nat} : linkTo v = none ↔ v = 0 := by
  rw [linkTo]
  split <;> simp_all

theorem linkTo_self {x : Nat} (hx : x ≠ 0) : linkTo x = some x := if_neg hx

def nextLinks (m : Memory) (y : Nat) : Option Nat := linkTo (nextFreeLink m y)

def prevLinks (m : Memory) (y : Nat) : Option Nat := linkTo (prevFreeLink m y)

/-- Block addresses whose link fields lie apart from each other and from the control structure. -/
structure Spaced (t : Nat) (nodes : Nat → Prop) : Prop where
  pos : ∀ y, nodes y → 0 < y ∧ y < 2 ^ 64
  control : ∀ y, nodes y → y + 24 ≤ t ∨ t + controlSize ≤ y + 8
  apart : ∀ y z, nodes y → nodes z → y ≠ z → y + 16 ≤ z ∨ z + 16 ≤ y

/-- An address that is neither in the control structure nor in a link field. -/
def OffIndex (t : Nat) (nodes : Nat → Prop) (x : Nat) : Prop :=
  (x < t ∨ t + controlSize ≤ x) ∧ ∀ y, nodes y → x < y + 8 ∨ y + 24 ≤ x

/-- The lists and bitmaps at `t` hold exactly the blocks of `lists`, class by class. -/
structure Indexed (m : Memory) (t : Nat) (lists : Nat → Nat → List Nat) : Prop where
  range : ∀ fl sl, lists fl sl ≠ [] → fl < flIndexCount ∧ sl < slIndexCount
  disjoint : ∀ fl sl fl' sl' y, y ∈ lists fl sl → y ∈ lists fl' sl' → fl = fl' ∧ sl = sl'
  linked : ∀ fl sl, fl < flIndexCount → sl < slIndexCount →
    IsDList (nextLinks m) (prevLinks m) (linkTo (m.load (freeListAt t fl sl) 8)) (lists fl sl).getLast? (lists fl sl)
  slBit : ∀ fl sl, fl < flIndexCount → ((bitsAt m (slBitmapAt t fl)).getLsbD sl = true ↔ lists fl sl ≠ [])
  flBit : ∀ fl, (bitsAt m (flBitmapAt t)).getLsbD fl = true ↔ ∃ sl, lists fl sl ≠ []

theorem freeListAt_le (hfl : fl < flIndexCount) (hsl : sl < slIndexCount) : freeListAt t fl sl + 8 ≤ t + 3200 := by
  simp only [flIndexCount, flIndexMax, slIndexCount, slIndexBits, freeListAt] at *
  omega

theorem freeListAt_apart {fl' sl' : Nat} (hsl : sl < slIndexCount) (hsl' : sl' < slIndexCount) (hne : ¬(fl' = fl ∧ sl' = sl)) :
    freeListAt t fl' sl' + 8 ≤ freeListAt t fl sl ∨ freeListAt t fl sl + 8 ≤ freeListAt t fl' sl' := by
  simp only [slIndexCount, slIndexBits, freeListAt] at *
  omega

theorem le_freeListAt (t fl sl : Nat) : t ≤ freeListAt t fl sl := Nat.le_add_right _ _

theorem slBitmapAt_le (hfl : fl < flIndexCount) : slBitmapAt t fl + 4 ≤ t + controlSize := by
  simp only [flIndexCount, flIndexMax, slIndexBits, slBitmapAt, controlSize] at *
  omega

namespace Indexed

theorem congr (h : Indexed m t lists) (hcontrol : ∀ x, t ≤ x → x < t + controlSize → m' x = m x)
    (hlinks : ∀ fl sl y, y ∈ lists fl sl → ∀ x, y + 8 ≤ x → x < y + 24 → m' x = m x) : Indexed m' t lists := by
  refine ⟨h.range, h.disjoint, fun fl sl hfl hsl => ?_, fun fl sl hfl => ?_, fun fl => ?_⟩
  · have hhead : m'.load (freeListAt t fl sl) 8 = m.load (freeListAt t fl sl) 8 := by
      apply Memory.load_congr
      intro x hlo hhi
      have hle := freeListAt_le (t := t) hfl hsl
      have hge := le_freeListAt t fl sl
      exact hcontrol x (by omega) (by rw [controlSize]; omega)
    rw [hhead]
    refine (h.linked fl sl hfl hsl).congr (fun y hy => ?_) fun y hy => ?_
    · rw [nextLinks, nextLinks, nextFreeLink, nextFreeLink, Memory.load_congr fun x hlo hhi => hlinks fl sl y hy x (by omega) (by omega)]
    · rw [prevLinks, prevLinks, prevFreeLink, prevFreeLink, Memory.load_congr fun x hlo hhi => hlinks fl sl y hy x (by omega) (by omega)]
  · have hle := slBitmapAt_le (t := t) hfl
    rw [bitsAt, Memory.load_congr fun x hlo hhi => hcontrol x (by simp only [slBitmapAt] at hlo; omega) (by omega)]
    exact h.slBit fl sl hfl
  · rw [bitsAt, Memory.load_congr fun x hlo hhi => hcontrol x (by simp only [flBitmapAt] at hlo; omega)
      (by simp only [flBitmapAt] at hhi; rw [controlSize]; omega)]
    exact h.flBit fl

/-- A cleared control structure files nothing. -/
theorem empty (hzero : ∀ x, t ≤ x → x < t + 3304 → m x = 0) : Indexed m t fun _ _ => [] := by
  have hbits : ∀ a, t ≤ a → a + 4 ≤ t + 3304 → ∀ i, (bitsAt m a).getLsbD i = false := by
    intro a hlo hhi i
    rw [bitsAt, Memory.load_eq_zero fun x hx hx' => hzero x (by omega) (by omega)]
    exact BitVec.getLsbD_zero
  refine ⟨fun _ _ hne => absurd rfl hne, fun _ _ _ _ _ hy => absurd hy List.not_mem_nil, fun fl sl hfl hsl => ?_, fun fl sl hfl => ?_,
    fun fl => ?_⟩
  · have hle := freeListAt_le (t := t) hfl hsl
    have hge := le_freeListAt t fl sl
    rw [Memory.load_eq_zero fun x hx hx' => hzero x (by omega) (by omega)]
    exact IsDList.nil
  · rw [hbits _ (by rw [slBitmapAt]; omega) (by simp only [slBitmapAt, flIndexCount, flIndexMax, slIndexBits] at *; omega)]
    simp
  · rw [hbits _ (by rw [flBitmapAt]; omega) (by rw [flBitmapAt]; omega)]
    simp

end Indexed

/-! ### Setting and clearing bits -/

theorem flSlSet_apply {x : Nat} (hfl : fl < flIndexCount) (hx : x < t + 3200 ∨ t + controlSize ≤ x) : flSlSet t fl sl m x = m x := by
  have hle := slBitmapAt_le (t := t) hfl
  simp only [controlSize, slBitmapAt] at *
  rw [flSlSet, Memory.store_apply_of_outside _ (by rw [flBitmapAt]; omega), Memory.store_apply_of_outside _ (by rw [slBitmapAt]; omega)]

theorem bitsAt_flSlSet_sl {f : Nat} :
    bitsAt (flSlSet t fl sl m) (slBitmapAt t f) = if f = fl then bitsAt m (slBitmapAt t f) ||| 1#32 <<< sl else bitsAt m (slBitmapAt t f) := by
  rw [flSlSet, bitsAt_store_of_disjoint (by simp only [flBitmapAt, slBitmapAt]; omega)]
  split
  · subst f
    rw [bitsAt_store_self]
  · rw [bitsAt_store_of_disjoint (by simp only [slBitmapAt]; omega)]

theorem bitsAt_flSlSet_fl : bitsAt (flSlSet t fl sl m) (flBitmapAt t) = bitsAt m (flBitmapAt t) ||| 1#32 <<< fl := by
  rw [flSlSet, bitsAt_store_self, bitsAt_store_of_disjoint (by simp only [flBitmapAt, slBitmapAt]; omega)]

theorem flSlClear_apply {x : Nat} (hfl : fl < flIndexCount) (hx : x < t + 3200 ∨ t + controlSize ≤ x) : flSlClear t fl sl m x = m x := by
  have hle := slBitmapAt_le (t := t) hfl
  simp only [controlSize, slBitmapAt] at *
  rw [flSlClear]
  split
  · rw [Memory.store_apply_of_outside _ (by rw [flBitmapAt]; omega), Memory.store_apply_of_outside _ (by rw [slBitmapAt]; omega)]
  · rw [Memory.store_apply_of_outside _ (by rw [slBitmapAt]; omega)]

theorem bitsAt_flSlClear_sl {f : Nat} :
    bitsAt (flSlClear t fl sl m) (slBitmapAt t f) =
      if f = fl then bitsAt m (slBitmapAt t f) &&& ~~~(1#32 <<< sl) else bitsAt m (slBitmapAt t f) := by
  have hsl : ∀ v : BitVec 32, bitsAt (m.store (slBitmapAt t fl) 4 v.toNat) (slBitmapAt t f) =
      if f = fl then v else bitsAt m (slBitmapAt t f) := by
    intro v
    split
    · subst f
      rw [bitsAt_store_self]
    · rw [bitsAt_store_of_disjoint (by simp only [slBitmapAt]; omega)]
  rw [flSlClear]
  split
  · rw [bitsAt_store_of_disjoint (by simp only [flBitmapAt, slBitmapAt]; omega), hsl]
    split <;> simp_all
  · rw [hsl]
    split <;> simp_all

theorem bitsAt_flSlClear_fl :
    bitsAt (flSlClear t fl sl m) (flBitmapAt t) =
      if bitsAt m (slBitmapAt t fl) &&& ~~~(1#32 <<< sl) = 0 then bitsAt m (flBitmapAt t) &&& ~~~(1#32 <<< fl)
      else bitsAt m (flBitmapAt t) := by
  have hfl : ∀ v, bitsAt (m.store (slBitmapAt t fl) 4 v) (flBitmapAt t) = bitsAt m (flBitmapAt t) := by
    intro v
    rw [bitsAt_store_of_disjoint (by simp only [flBitmapAt, slBitmapAt]; omega)]
  rw [flSlClear]
  rw [bitsAt_store_self, hfl]
  split
  · rw [bitsAt_store_self]
  · rw [hfl]

/-! ### Filing a block -/

/-- The lists with `b` at the front of the list of its class. -/
def insertList (lists : Nat → Nat → List Nat) (fl sl b : Nat) : Nat → Nat → List Nat :=
  fun f s => if f = fl ∧ s = sl then b :: lists f s else lists f s

/-- The lists with `b` taken out of the list of its class. -/
def removeList (lists : Nat → Nat → List Nat) (fl sl b : Nat) : Nat → Nat → List Nat :=
  fun f s => if f = fl ∧ s = sl then (lists f s).erase b else lists f s

section Front

variable {slot h : Nat} {nodes : Nat → Prop}

theorem linkFront_eq (hlinks : b + 24 ≤ slot ∨ slot + 8 ≤ b + 8) (hhead : m.load slot 8 = h) :
    linkFront slot b m =
      (if h ≠ 0 then ((m.store (b + 16) 8 h).store (b + 8) 8 0).store (h + 8) 8 b else (m.store (b + 16) 8 h).store (b + 8) 8 0).store slot 8 b := by
  have hload : ((m.store (b + 16) 8 h).store (b + 8) 8 0).load slot 8 = h := by
    rw [Memory.load_store_of_disjoint _ (by omega), Memory.load_store_of_disjoint _ (by omega), hhead]
  rw [linkFront, hhead, hload]

theorem linkFront_apply {x : Nat} (hlinks : b + 24 ≤ slot ∨ slot + 8 ≤ b + 8) (hhead : m.load slot 8 = h)
    (hslot : x < slot ∨ slot + 8 ≤ x) (hb : x < b + 8 ∨ b + 24 ≤ x) (hh : h ≠ 0 → x < h + 8 ∨ h + 24 ≤ x) :
    linkFront slot b m x = m x := by
  rw [linkFront_eq hlinks hhead, Memory.store_apply_of_outside _ hslot]
  split
  · next hne =>
      have hx := hh hne
      rw [Memory.store_apply_of_outside _ (by omega), Memory.store_apply_of_outside _ (by omega), Memory.store_apply_of_outside _ (by omega)]
  · rw [Memory.store_apply_of_outside _ (by omega), Memory.store_apply_of_outside _ (by omega)]

variable (hs : Spaced t nodes) (hb : nodes b) (hslot : t ≤ slot ∧ slot + 8 ≤ t + controlSize) (hhead : m.load slot 8 = h)
  (hh : h ≠ 0 → nodes h ∧ h ≠ b)

include hs hb hslot hhead hh

omit hh in
theorem linkFront_head : (linkFront slot b m).load slot 8 = b := by
  have hcontrol := hs.control b hb
  rw [linkFront_eq (by omega) hhead, Memory.load_store_self, mod_word (hs.pos b hb).2]

theorem linkFront_next_self : nextFreeLink (linkFront slot b m) b = h := by
  have hcontrol := hs.control b hb
  have hlt : h < 2 ^ 64 := by
    rw [← hhead]
    exact Memory.load_lt m slot 8
  rw [nextFreeLink, linkFront_eq (by omega) hhead, Memory.load_store_of_disjoint _ (by omega)]
  split
  · next hne =>
      have hapart := hs.apart h b (hh hne).1 hb (hh hne).2
      rw [Memory.load_store_of_disjoint _ (by omega), Memory.load_store_of_disjoint _ (by omega), Memory.load_store_self, mod_word hlt]
  · rw [Memory.load_store_of_disjoint _ (by omega), Memory.load_store_self, mod_word hlt]

theorem linkFront_prev_self : prevFreeLink (linkFront slot b m) b = 0 := by
  have hcontrol := hs.control b hb
  rw [prevFreeLink, linkFront_eq (by omega) hhead, Memory.load_store_of_disjoint _ (by omega)]
  split
  · next hne =>
      have hapart := hs.apart h b (hh hne).1 hb (hh hne).2
      rw [Memory.load_store_of_disjoint _ (by omega), Memory.load_store_self, Nat.zero_mod]
  · rw [Memory.load_store_self, Nat.zero_mod]

theorem linkFront_next (hy : nodes y) (hne : y ≠ b) : nextFreeLink (linkFront slot b m) y = nextFreeLink m y := by
  have hcontrol := hs.control b hb
  have hcontrol' := hs.control y hy
  have hyb := hs.apart y b hy hb hne
  rw [nextFreeLink, linkFront_eq (by omega) hhead, Memory.load_store_of_disjoint _ (by omega)]
  split
  · next hhead' =>
      have hhy : h = y ∨ h + 16 ≤ y ∨ y + 16 ≤ h := by
        rcases eq_or_ne h y with heq | hne'
        · exact Or.inl heq
        · exact Or.inr (hs.apart h y (hh hhead').1 hy hne')
      rw [Memory.load_store_of_disjoint _ (by omega), Memory.load_store_of_disjoint _ (by omega), Memory.load_store_of_disjoint _ (by omega)]
      rfl
  · rw [Memory.load_store_of_disjoint _ (by omega), Memory.load_store_of_disjoint _ (by omega)]
    rfl

theorem linkFront_prev (hy : nodes y) (hne : y ≠ b) :
    prevFreeLink (linkFront slot b m) y = if h = y then b else prevFreeLink m y := by
  have hcontrol := hs.control b hb
  have hcontrol' := hs.control y hy
  have hyb := hs.apart y b hy hb hne
  have hpos := (hs.pos y hy).1
  rw [prevFreeLink, linkFront_eq (by omega) hhead, Memory.load_store_of_disjoint _ (by omega)]
  by_cases heq : h = y
  · subst heq
    rw [if_pos (by omega), if_pos rfl, Memory.load_store_self, mod_word (hs.pos b hb).2]
  · rw [if_neg heq]
    split
    · next hne' =>
        have hapart := hs.apart h y (hh hne').1 hy heq
        rw [Memory.load_store_of_disjoint _ (by omega), Memory.load_store_of_disjoint _ (by omega), Memory.load_store_of_disjoint _ (by omega)]
        rfl
    · rw [Memory.load_store_of_disjoint _ (by omega), Memory.load_store_of_disjoint _ (by omega)]
      rfl

end Front

section Insert

variable {nodes : Nat → Prop} (hx : Indexed m t lists) (hs : Spaced t nodes) (hnodes : ∀ fl sl y, y ∈ lists fl sl → nodes y)
  (hb : nodes b) (hnew : ∀ fl sl, b ∉ lists fl sl) (hfl : fl < flIndexCount) (hsl : sl < slIndexCount)

include hx in
/-- The head of a list is one of the blocks filed. -/
theorem Indexed.head_mem (h : m.load (freeListAt t fl sl) 8 ≠ 0) (hfl : fl < flIndexCount) (hsl : sl < slIndexCount) :
    m.load (freeListAt t fl sl) 8 ∈ lists fl sl := by
  have hhead := (hx.linked fl sl hfl hsl).head_eq
  rw [linkTo_self h] at hhead
  exact List.mem_of_head? hhead.symm

include hx hs hnodes hb hnew hfl hsl

theorem linkFront_linked (f s : Nat) (hf : f < flIndexCount) (hs' : s < slIndexCount) :
    IsDList (nextLinks (linkFront (freeListAt t fl sl) b m)) (prevLinks (linkFront (freeListAt t fl sl) b m))
      (linkTo ((linkFront (freeListAt t fl sl) b m).load (freeListAt t f s) 8))
      (insertList lists fl sl b f s).getLast? (insertList lists fl sl b f s) := by
  have hle := freeListAt_le (t := t) hfl hsl
  have hslot : t ≤ freeListAt t fl sl ∧ freeListAt t fl sl + 8 ≤ t + controlSize := ⟨le_freeListAt t fl sl, by rw [controlSize]; omega⟩
  have hmem := fun hne => hx.head_mem hne hfl hsl
  have hh : m.load (freeListAt t fl sl) 8 ≠ 0 → nodes (m.load (freeListAt t fl sl) 8) ∧ m.load (freeListAt t fl sl) 8 ≠ b :=
    fun hne => ⟨hnodes _ _ _ (hmem hne), fun heq => hnew fl sl (heq ▸ hmem hne)⟩
  have hold := hx.linked f s hf hs'
  have hcontrol := hs.control b hb
  by_cases heq : f = fl ∧ s = sl
  · obtain ⟨rfl, rfl⟩ := heq
    rw [insertList, if_pos ⟨rfl, rfl⟩, linkFront_head hs hb hslot rfl, linkTo_self (by have := (hs.pos b hb).1; omega)]
    have hne : ∀ y ∈ lists f s, y ≠ b := fun y hy heq => hnew f s (heq ▸ hy)
    have hnext : ∀ y ∈ lists f s, nextLinks (linkFront (freeListAt t f s) b m) y = nextLinks m y := by
      intro y hy
      rw [nextLinks, nextLinks, linkFront_next hs hb hslot rfl hh (hnodes f s y hy) (hne y hy)]
    have hprev : ∀ y ∈ lists f s, prevLinks (linkFront (freeListAt t f s) b m) y =
        if linkTo (m.load (freeListAt t f s) 8) = some y then some b else prevLinks m y := by
      intro y hy
      have hpos := (hs.pos y (hnodes f s y hy)).1
      rw [prevLinks, prevLinks, linkFront_prev hs hb hslot rfl hh (hnodes f s y hy) (hne y hy)]
      simp only [linkTo_eq_some (by omega : y ≠ 0)]
      split
      · rw [linkTo_self (by have := (hs.pos b hb).1; omega)]
      · rfl
    have hnextb : nextLinks (linkFront (freeListAt t f s) b m) b = linkTo (m.load (freeListAt t f s) 8) := by
      rw [nextLinks, linkFront_next_self hs hb hslot rfl hh]
    have hprevb : prevLinks (linkFront (freeListAt t f s) b m) b = none := by
      rw [prevLinks, linkFront_prev_self hs hb hslot rfl hh]
      rfl
    have hpush := hold.pushFront (hnew f s) hnext hprev hnextb hprevb
    have htail := hpush.tail_eq
    rwa [htail] at hpush
  · -- another list: its nodes are not the head that is linked back to `b`
    rw [insertList, if_neg heq]
    have hle' := freeListAt_le (t := t) hf hs'
    have hapart := freeListAt_apart (t := t) hsl hs' heq
    have hload : (linkFront (freeListAt t fl sl) b m).load (freeListAt t f s) 8 = m.load (freeListAt t f s) 8 := by
      apply Memory.load_congr
      intro x hlo hhi
      have hge := le_freeListAt t f s
      refine linkFront_apply (by omega) rfl (by omega) (by rw [controlSize] at hcontrol; omega) fun hne => ?_
      have hhead := hs.control _ (hh hne).1
      rw [controlSize] at hhead
      omega
    rw [hload]
    refine hold.congr (fun y hy => ?_) fun y hy => ?_
    · rw [nextLinks, nextLinks, linkFront_next hs hb hslot rfl hh (hnodes f s y hy) fun h => hnew f s (h ▸ hy)]
    · have hother : m.load (freeListAt t fl sl) 8 ≠ y := by
        intro hy'
        have hne : m.load (freeListAt t fl sl) 8 ≠ 0 := by
          have hpos := (hs.pos y (hnodes f s y hy)).1
          omega
        exact heq (hx.disjoint f s fl sl y hy (hy' ▸ hmem hne))
      rw [prevLinks, prevLinks, linkFront_prev hs hb hslot rfl hh (hnodes f s y hy) fun h => hnew f s (h ▸ hy), if_neg hother]

/-- `insert_block` files the block under the class of its size. -/
theorem insertBlock_indexed (hclass : mappingInsert (blockSize m b) = (fl, sl)) : Indexed (insertBlock t b m) t (insertList lists fl sl b) := by
  have hle := freeListAt_le (t := t) hfl hsl
  have hge := le_freeListAt t fl sl
  have hcontrol := hs.control b hb
  have hflt : fl < 32 := Nat.lt_of_lt_of_le hfl (by decide)
  have hslt : sl < 32 := Nat.lt_of_lt_of_le hsl (by decide)
  have hcell : ∀ x, t + 3200 ≤ x → x < t + controlSize → linkFront (freeListAt t fl sl) b m x = m x := by
    intro x hlo hhi
    refine linkFront_apply (by omega) rfl (by omega) (by omega) fun hne => ?_
    have hhead := hs.control _ (hnodes _ _ _ (hx.head_mem hne hfl hsl))
    omega
  have hsl' : ∀ f, f < flIndexCount → bitsAt (linkFront (freeListAt t fl sl) b m) (slBitmapAt t f) = bitsAt m (slBitmapAt t f) := by
    intro f hf
    have hle' := slBitmapAt_le (t := t) hf
    rw [bitsAt, bitsAt, Memory.load_congr fun x hlo hhi => hcell x (by simp only [slBitmapAt] at hlo; omega) (by omega)]
  have hfl' : bitsAt (linkFront (freeListAt t fl sl) b m) (flBitmapAt t) = bitsAt m (flBitmapAt t) := by
    rw [bitsAt, bitsAt, Memory.load_congr fun x hlo hhi => hcell x (by simpa only [flBitmapAt] using hlo)
      (by simp only [flBitmapAt] at hhi; rw [controlSize]; omega)]
  rw [insertBlock, hclass]
  refine ⟨fun f s hne => ?_, fun f s f' s' y hy hy' => ?_, fun f s hf hs' => ?_, fun f s hf => ?_, fun f => ?_⟩
  · rw [insertList] at hne
    split at hne
    · next heq => exact ⟨heq.1 ▸ hfl, heq.2 ▸ hsl⟩
    · exact hx.range f s hne
  · have hmem : ∀ f s, y ∈ insertList lists fl sl b f s → y = b ∧ f = fl ∧ s = sl ∨ y ∈ lists f s := by
      intro f s hy
      rw [insertList] at hy
      split at hy
      · next heq => exact (List.mem_cons.mp hy).imp_left fun h => ⟨h, heq⟩
      · exact Or.inr hy
    rcases hmem f s hy with ⟨rfl, rfl, rfl⟩ | hold
    · rcases hmem f' s' hy' with ⟨-, rfl, rfl⟩ | hold'
      · exact ⟨rfl, rfl⟩
      · exact absurd hold' (hnew f' s')
    · rcases hmem f' s' hy' with ⟨rfl, -, -⟩ | hold'
      · exact absurd hold (hnew f s)
      · exact hx.disjoint f s f' s' y hold hold'
  · have hlinked := linkFront_linked hx hs hnodes hb hnew hfl hsl f s hf hs'
    have hsame : ∀ x, x < t + 3200 ∨ t + controlSize ≤ x →
        flSlSet t fl sl (linkFront (freeListAt t fl sl) b m) x = linkFront (freeListAt t fl sl) b m x := fun x hx => flSlSet_apply hfl hx
    have hle' := freeListAt_le (t := t) hf hs'
    rw [Memory.load_congr fun x hlo hhi => hsame x (by omega)]
    refine hlinked.congr (fun y hy => ?_) fun y hy => ?_
    all_goals
      have hy' : nodes y := by
        rw [insertList] at hy
        split at hy
        · rcases List.mem_cons.mp hy with rfl | hold
          · exact hb
          · exact hnodes _ _ _ hold
        · exact hnodes _ _ _ hy
      have hcontrol' := hs.control y hy'
    · rw [nextLinks, nextLinks, nextFreeLink, nextFreeLink, Memory.load_congr fun x hlo hhi => hsame x (by omega)]
    · rw [prevLinks, prevLinks, prevFreeLink, prevFreeLink, Memory.load_congr fun x hlo hhi => hsame x (by omega)]
  · rw [bitsAt_flSlSet_sl, hsl' f hf, insertList]
    have hold := hx.slBit f s hf
    by_cases hfeq : f = fl
    · subst f
      rw [if_pos rfl, getLsbD_set _ hslt]
      by_cases hseq : s = sl
      · simp [hseq]
      · simp only [hseq, decide_false, Bool.or_false, and_false, if_false]
        exact hold
    · rw [if_neg hfeq, if_neg fun h => hfeq h.1]
      exact hold
  · rw [bitsAt_flSlSet_fl, hfl', getLsbD_set _ hflt, Bool.or_eq_true, hx.flBit f, decide_eq_true_eq]
    constructor
    · rintro (⟨s, hs'⟩ | rfl)
      · refine ⟨s, ?_⟩
        rw [insertList]
        split
        · exact List.cons_ne_nil _ _
        · exact hs'
      · exact ⟨sl, by rw [insertList, if_pos ⟨rfl, rfl⟩]; exact List.cons_ne_nil _ _⟩
    · rintro ⟨s, hs'⟩
      rw [insertList] at hs'
      split at hs'
      · next heq => exact Or.inr heq.1
      · exact Or.inl ⟨s, hs'⟩

omit hnew in
theorem insertBlock_apply (hclass : mappingInsert (blockSize m b) = (fl, sl)) {x : Nat} (hoff : OffIndex t nodes x) :
    insertBlock t b m x = m x := by
  have hle := freeListAt_le (t := t) hfl hsl
  have hge := le_freeListAt t fl sl
  have hcontrol := hs.control b hb
  obtain ⟨hout, hlinks⟩ := hoff
  have hsize : t + 3200 ≤ t + controlSize := Nat.add_le_add_left (by decide) t
  rw [insertBlock, hclass]
  dsimp only
  rw [flSlSet_apply hfl (by omega)]
  exact linkFront_apply (by omega) rfl (by omega) (hlinks b hb) fun hne => hlinks _ (hnodes _ _ _ (hx.head_mem hne hfl hsl))

end Insert

/-! ### Taking a block out -/

section Unlink

variable {slot p n : Nat} {nodes : Nat → Prop} (hs : Spaced t nodes) (hb : nodes b) (hslot : t ≤ slot ∧ slot + 8 ≤ t + controlSize)
  (hprev : prevFreeLink m b = p) (hnext : nextFreeLink m b = n) (hp : p ≠ 0 → nodes p ∧ p ≠ b) (hn : n ≠ 0 → nodes n ∧ n ≠ b)

include hs hb hslot hprev hnext hp

theorem unlinkBlock_eq :
    unlinkBlock slot b m =
      if n ≠ 0 then (if p ≠ 0 then m.store (p + 16) 8 n else m.store slot 8 n).store (n + 8) 8 p
      else if p ≠ 0 then m.store (p + 16) 8 n else m.store slot 8 n := by
  have hcontrol := hs.control b hb
  have hsame : ∀ c, b + 8 ≤ c → c + 8 ≤ b + 24 → (if p ≠ 0 then m.store (p + 16) 8 n else m.store slot 8 n).load c 8 = m.load c 8 := by
    intro c hlo hhi
    split
    · next hne =>
        have hapart := hs.apart p b (hp hne).1 hb (hp hne).2
        exact Memory.load_store_of_disjoint _ (by omega)
    · exact Memory.load_store_of_disjoint _ (by omega)
  have hnext' : nextFreeLink (if p ≠ 0 then m.store (p + 16) 8 n else m.store slot 8 n) b = n := (hsame _ (by omega) (by omega)).trans hnext
  have hprev' : prevFreeLink (if p ≠ 0 then m.store (p + 16) 8 n else m.store slot 8 n) b = p := (hsame _ (by omega) (by omega)).trans hprev
  rw [unlinkBlock, hprev, hnext, hnext', hprev']

theorem unlinkBlock_apply {x : Nat} (hx : x < slot ∨ slot + 8 ≤ x) (hxp : p ≠ 0 → x < p + 8 ∨ p + 24 ≤ x)
    (hxn : n ≠ 0 → x < n + 8 ∨ n + 24 ≤ x) : unlinkBlock slot b m x = m x := by
  have hfirst : (if p ≠ 0 then m.store (p + 16) 8 n else m.store slot 8 n) x = m x := by
    split
    · next hne =>
        have hout := hxp hne
        exact Memory.store_apply_of_outside _ (by omega)
    · exact Memory.store_apply_of_outside _ hx
  rw [unlinkBlock_eq hs hb hslot hprev hnext hp]
  split
  · next hne =>
      have hout := hxn hne
      rw [Memory.store_apply_of_outside _ (by omega), hfirst]
  · exact hfirst

include hn

theorem unlinkBlock_head : (unlinkBlock slot b m).load slot 8 = if p = 0 then n else m.load slot 8 := by
  have hlt : n < 2 ^ 64 := by
    rw [← hnext]
    exact Memory.load_lt m (b + 16) 8
  have hfirst : (if p ≠ 0 then m.store (p + 16) 8 n else m.store slot 8 n).load slot 8 = if p = 0 then n else m.load slot 8 := by
    by_cases hzero : p = 0
    · rw [if_neg (not_not.mpr hzero), if_pos hzero, Memory.load_store_self, mod_word hlt]
    · have hcontrol := hs.control p (hp hzero).1
      rw [if_pos hzero, if_neg hzero, Memory.load_store_of_disjoint _ (by omega)]
  rw [unlinkBlock_eq hs hb hslot hprev hnext hp]
  split
  · next hne =>
      have hcontrol := hs.control n (hn hne).1
      rw [Memory.load_store_of_disjoint _ (by omega), hfirst]
  · exact hfirst

theorem unlinkBlock_next (hy : nodes y) : nextFreeLink (unlinkBlock slot b m) y = if p = y then n else nextFreeLink m y := by
  have hcontrol := hs.control y hy
  have hpos := (hs.pos y hy).1
  have hlt : n < 2 ^ 64 := by
    rw [← hnext]
    exact Memory.load_lt m (b + 16) 8
  have hfirst : nextFreeLink (if p ≠ 0 then m.store (p + 16) 8 n else m.store slot 8 n) y = if p = y then n else nextFreeLink m y := by
    by_cases heq : p = y
    · subst heq
      rw [if_pos (by omega), if_pos rfl, nextFreeLink, Memory.load_store_self, mod_word hlt]
    · rw [if_neg heq]
      split
      · next hne =>
          have hapart := hs.apart p y (hp hne).1 hy heq
          exact Memory.load_store_of_disjoint _ (by omega)
      · exact Memory.load_store_of_disjoint _ (by omega)
  rw [unlinkBlock_eq hs hb hslot hprev hnext hp]
  split
  · next hne =>
      have hny : n = y ∨ n + 16 ≤ y ∨ y + 16 ≤ n := by
        rcases eq_or_ne n y with heq | hne'
        · exact Or.inl heq
        · exact Or.inr (hs.apart n y (hn hne).1 hy hne')
      rw [← hfirst, nextFreeLink, Memory.load_store_of_disjoint _ (by omega)]
      rfl
  · exact hfirst

theorem unlinkBlock_prev (hy : nodes y) : prevFreeLink (unlinkBlock slot b m) y = if n = y then p else prevFreeLink m y := by
  have hcontrol := hs.control y hy
  have hpos := (hs.pos y hy).1
  have hlt : p < 2 ^ 64 := by
    rw [← hprev]
    exact Memory.load_lt m (b + 8) 8
  have hfirst : prevFreeLink (if p ≠ 0 then m.store (p + 16) 8 n else m.store slot 8 n) y = prevFreeLink m y := by
    split
    · next hne =>
        have hpy : p = y ∨ p + 16 ≤ y ∨ y + 16 ≤ p := by
          rcases eq_or_ne p y with heq | hne'
          · exact Or.inl heq
          · exact Or.inr (hs.apart p y (hp hne).1 hy hne')
        exact Memory.load_store_of_disjoint _ (by omega)
    · exact Memory.load_store_of_disjoint _ (by omega)
  rw [unlinkBlock_eq hs hb hslot hprev hnext hp]
  by_cases heq : n = y
  · subst heq
    rw [if_pos (by omega), if_pos rfl, prevFreeLink, Memory.load_store_self, mod_word hlt]
  · rw [if_neg heq]
    split
    · next hne =>
        have hapart := hs.apart n y (hn hne).1 hy heq
        rw [← hfirst, prevFreeLink, Memory.load_store_of_disjoint _ (by omega)]
        rfl
    · exact hfirst

end Unlink

section Remove

variable {nodes : Nat → Prop} (hx : Indexed m t lists) (hs : Spaced t nodes) (hnodes : ∀ fl sl y, y ∈ lists fl sl → nodes y)
  (hmem : b ∈ lists fl sl)

include hx hs hnodes hmem

omit hs hnodes in
/-- The links of a filed block lead to other filed blocks. -/
theorem Indexed.neighbours :
    (prevFreeLink m b ≠ 0 → prevFreeLink m b ∈ lists fl sl ∧ prevFreeLink m b ≠ b) ∧
      (nextFreeLink m b ≠ 0 → nextFreeLink m b ∈ lists fl sl ∧ nextFreeLink m b ≠ b) := by
  obtain ⟨hfl, hsl⟩ := hx.range fl sl (List.ne_nil_of_mem hmem)
  have hlinked := hx.linked fl sl hfl hsl
  obtain ⟨before, after, heq⟩ := List.append_of_mem hmem
  have hnodup := hlinked.nodup
  rw [heq] at hlinked hnodup
  rw [List.nodup_append] at hnodup
  have hp := hlinked.prev_eq
  have hn := hlinked.next_eq
  refine ⟨fun hne => ?_, fun hne => ?_⟩
  · rw [prevLinks, linkTo_self hne] at hp
    have hin : prevFreeLink m b ∈ before := List.mem_of_getLast? hp.symm
    rw [heq]
    exact ⟨List.mem_append_left _ hin, hnodup.2.2 _ hin b List.mem_cons_self⟩
  · rw [nextLinks, linkTo_self hne] at hn
    have hin : nextFreeLink m b ∈ after := List.mem_of_head? hn.symm
    rw [heq]
    refine ⟨List.mem_append_right _ (List.mem_cons_of_mem _ hin), fun h => ?_⟩
    rw [h] at hin
    exact (List.nodup_cons.mp hnodup.2.1).1 hin

theorem unlinkBlock_linked (f s : Nat) (hf : f < flIndexCount) (hs' : s < slIndexCount) :
    IsDList (nextLinks (unlinkBlock (freeListAt t fl sl) b m)) (prevLinks (unlinkBlock (freeListAt t fl sl) b m))
      (linkTo ((unlinkBlock (freeListAt t fl sl) b m).load (freeListAt t f s) 8))
      (removeList lists fl sl b f s).getLast? (removeList lists fl sl b f s) := by
  obtain ⟨hfl, hsl⟩ := hx.range fl sl (List.ne_nil_of_mem hmem)
  have hle := freeListAt_le (t := t) hfl hsl
  have hslot : t ≤ freeListAt t fl sl ∧ freeListAt t fl sl + 8 ≤ t + controlSize := ⟨le_freeListAt t fl sl, by rw [controlSize]; omega⟩
  obtain ⟨hp, hn⟩ := hx.neighbours hmem
  have hb := hnodes _ _ _ hmem
  have hp' := fun hne => And.intro (hnodes _ _ _ (hp hne).1) (hp hne).2
  have hn' := fun hne => And.intro (hnodes _ _ _ (hn hne).1) (hn hne).2
  have hold := hx.linked f s hf hs'
  have hpos := fun y hy => (hs.pos y (hnodes f s y hy)).1
  by_cases heq : f = fl ∧ s = sl
  · obtain ⟨rfl, rfl⟩ := heq
    obtain ⟨before, after, hsplit⟩ := List.append_of_mem hmem
    have hnodup := hold.nodup
    rw [hsplit, List.nodup_append] at hnodup
    have hnotin : b ∉ before := fun hin => hnodup.2.2 b hin b List.mem_cons_self rfl
    have herase : removeList lists f s b f s = before ++ after := by
      rw [removeList, if_pos ⟨rfl, rfl⟩, hsplit, List.erase_append_right _ hnotin, List.erase_cons_head]
    have hin : ∀ y ∈ before ++ after, y ∈ lists f s := by
      intro y hy
      rw [hsplit]
      rcases List.mem_append.mp hy with h | h
      · exact List.mem_append_left _ h
      · exact List.mem_append_right _ (List.mem_cons_of_mem _ h)
    rw [hsplit] at hold
    have hnext : ∀ y ∈ before ++ after, nextLinks (unlinkBlock (freeListAt t f s) b m) y =
        if prevLinks m b = some y then nextLinks m b else nextLinks m y := by
      intro y hy
      have hy' := hin y hy
      simp only [nextLinks, prevLinks]
      rw [unlinkBlock_next hs hb hslot rfl rfl hp' hn' (hnodes f s y hy')]
      simp only [linkTo_eq_some (by have := hpos y hy'; omega : y ≠ 0)]
      split <;> rfl
    have hprev : ∀ y ∈ before ++ after, prevLinks (unlinkBlock (freeListAt t f s) b m) y =
        if nextLinks m b = some y then prevLinks m b else prevLinks m y := by
      intro y hy
      have hy' := hin y hy
      simp only [nextLinks, prevLinks]
      rw [unlinkBlock_prev hs hb hslot rfl rfl hp' hn' (hnodes f s y hy')]
      simp only [linkTo_eq_some (by have := hpos y hy'; omega : y ≠ 0)]
      split <;> rfl
    have hcut := hold.erase hnext hprev
    have htail := hcut.tail_eq
    rw [htail] at hcut
    rw [herase, unlinkBlock_head hs hb hslot rfl rfl hp' hn']
    simp only [prevLinks, linkTo_eq_none] at hcut
    rwa [apply_ite linkTo]
  · -- another list: none of its nodes is a neighbour of `b`
    rw [removeList, if_neg heq]
    have hother : ∀ y ∈ lists f s, y ∉ lists fl sl := fun y hy hy' => heq (hx.disjoint f s fl sl y hy hy')
    have hle' := freeListAt_le (t := t) hf hs'
    have hapart := freeListAt_apart (t := t) hsl hs' heq
    have hload : (unlinkBlock (freeListAt t fl sl) b m).load (freeListAt t f s) 8 = m.load (freeListAt t f s) 8 := by
      apply Memory.load_congr
      intro x hlo hhi
      have hge := le_freeListAt t f s
      refine unlinkBlock_apply hs hb hslot rfl rfl hp' (by omega) (fun hne => ?_) fun hne => ?_
      · have hcontrol := hs.control _ (hp' hne).1
        rw [controlSize] at hcontrol
        omega
      · have hcontrol := hs.control _ (hn' hne).1
        rw [controlSize] at hcontrol
        omega
    rw [hload]
    refine hold.congr (fun y hy => ?_) fun y hy => ?_
    · have hne : prevFreeLink m b ≠ y := fun h => hother y hy (h ▸ (hp (by have := hpos y hy; omega)).1)
      rw [nextLinks, nextLinks, unlinkBlock_next hs hb hslot rfl rfl hp' hn' (hnodes f s y hy), if_neg hne]
    · have hne : nextFreeLink m b ≠ y := fun h => hother y hy (h ▸ (hn (by have := hpos y hy; omega)).1)
      rw [prevLinks, prevLinks, unlinkBlock_prev hs hb hslot rfl rfl hp' hn' (hnodes f s y hy), if_neg hne]

theorem unlinkBlock_cell {x : Nat} (hlo : t + 3200 ≤ x) (hhi : x < t + controlSize) : unlinkBlock (freeListAt t fl sl) b m x = m x := by
  obtain ⟨hfl, hsl⟩ := hx.range fl sl (List.ne_nil_of_mem hmem)
  have hle := freeListAt_le (t := t) hfl hsl
  have hslot : t ≤ freeListAt t fl sl ∧ freeListAt t fl sl + 8 ≤ t + controlSize := ⟨le_freeListAt t fl sl, by rw [controlSize]; omega⟩
  obtain ⟨hp, hn⟩ := hx.neighbours hmem
  have hp' := fun hne => And.intro (hnodes _ _ _ (hp hne).1) (hp hne).2
  refine unlinkBlock_apply hs (hnodes _ _ _ hmem) hslot rfl rfl hp' (by omega) (fun hne => ?_) fun hne => ?_
  · have hcontrol := hs.control _ (hp' hne).1
    omega
  · have hcontrol := hs.control _ (hnodes _ _ _ (hn hne).1)
    omega

variable (hclass : mappingInsert (blockSize m b) = (fl, sl))

include hclass

theorem removeBlock_apply {x : Nat} (hoff : OffIndex t nodes x) : removeBlock t b m x = m x := by
  obtain ⟨hfl, hsl⟩ := hx.range fl sl (List.ne_nil_of_mem hmem)
  have hle := freeListAt_le (t := t) hfl hsl
  have hge := le_freeListAt t fl sl
  have hslot : t ≤ freeListAt t fl sl ∧ freeListAt t fl sl + 8 ≤ t + controlSize := ⟨le_freeListAt t fl sl, by rw [controlSize]; omega⟩
  have hsize : t + 3200 ≤ t + controlSize := Nat.add_le_add_left (by decide) t
  obtain ⟨hp, hn⟩ := hx.neighbours hmem
  obtain ⟨hout, hlinks⟩ := hoff
  have hp' := fun hne => And.intro (hnodes _ _ _ (hp hne).1) (hp hne).2
  have hunlink : unlinkBlock (freeListAt t fl sl) b m x = m x :=
    unlinkBlock_apply hs (hnodes _ _ _ hmem) hslot rfl rfl hp' (by omega) (fun hne => hlinks _ (hp' hne).1)
      fun hne => hlinks _ (hnodes _ _ _ (hn hne).1)
  rw [removeBlock, hclass]
  dsimp only
  split
  · rw [flSlClear_apply hfl (by omega), hunlink]
  · exact hunlink

omit hclass in
/-- The list of the class becomes empty when the block is the last one on it. -/
theorem unlinkBlock_empty : (unlinkBlock (freeListAt t fl sl) b m).load (freeListAt t fl sl) 8 = 0 ↔ removeList lists fl sl b fl sl = [] := by
  obtain ⟨hfl, hsl⟩ := hx.range fl sl (List.ne_nil_of_mem hmem)
  have hhead := (unlinkBlock_linked hx hs hnodes hmem fl sl hfl hsl).head_eq
  rw [← linkTo_eq_none, hhead, List.head?_eq_none_iff]

theorem removeBlock_sl {f : Nat} (hf : f < flIndexCount) :
    bitsAt (removeBlock t b m) (slBitmapAt t f) =
      if f = fl ∧ removeList lists fl sl b fl sl = [] then bitsAt m (slBitmapAt t f) &&& ~~~(1#32 <<< sl)
      else bitsAt m (slBitmapAt t f) := by
  have hle := slBitmapAt_le (t := t) hf
  have hbits : bitsAt (unlinkBlock (freeListAt t fl sl) b m) (slBitmapAt t f) = bitsAt m (slBitmapAt t f) := by
    rw [bitsAt, bitsAt, Memory.load_congr fun x hlo hhi => unlinkBlock_cell hx hs hnodes hmem
      (by simp only [slBitmapAt] at hlo; omega) (by omega)]
  have hempty := unlinkBlock_empty hx hs hnodes hmem
  rw [removeBlock, hclass]
  dsimp only
  split
  · next hzero =>
      rw [bitsAt_flSlClear_sl, hbits]
      simp only [hempty.mp hzero, and_true]
  · next hzero =>
      rw [hempty] at hzero
      rw [hbits, if_neg fun h => hzero h.2]

/-- The first-level bit goes with the last block of all the lists below it. -/
theorem removeBlock_fl :
    bitsAt (removeBlock t b m) (flBitmapAt t) = bitsAt m (flBitmapAt t) &&& ~~~(1#32 <<< fl) ∧ (∀ s, removeList lists fl sl b fl s = []) ∨
      bitsAt (removeBlock t b m) (flBitmapAt t) = bitsAt m (flBitmapAt t) ∧ ∃ s, removeList lists fl sl b fl s ≠ [] := by
  obtain ⟨hfl, hsl⟩ := hx.range fl sl (List.ne_nil_of_mem hmem)
  have hslt : sl < 32 := Nat.lt_of_lt_of_le hsl (by decide)
  have hle := slBitmapAt_le (t := t) hfl
  have hslbits : bitsAt (unlinkBlock (freeListAt t fl sl) b m) (slBitmapAt t fl) = bitsAt m (slBitmapAt t fl) := by
    rw [bitsAt, bitsAt, Memory.load_congr fun x hlo hhi => unlinkBlock_cell hx hs hnodes hmem
      (by simp only [slBitmapAt] at hlo; omega) (by omega)]
  have hflbits : bitsAt (unlinkBlock (freeListAt t fl sl) b m) (flBitmapAt t) = bitsAt m (flBitmapAt t) := by
    rw [bitsAt, bitsAt, Memory.load_congr fun x hlo hhi => unlinkBlock_cell hx hs hnodes hmem
      (by simpa only [flBitmapAt] using hlo) (by simp only [flBitmapAt] at hhi; rw [controlSize]; omega)]
  have hother : ∀ s, s ≠ sl → removeList lists fl sl b fl s = lists fl s := fun s hne => if_neg fun h => hne h.2
  have hempty := unlinkBlock_empty hx hs hnodes hmem
  rw [removeBlock, hclass]
  dsimp only
  split
  · next hzero =>
      rw [hempty] at hzero
      rw [bitsAt_flSlClear_fl, hslbits, hflbits]
      split
      · next hword =>
          refine Or.inl ⟨rfl, fun s => ?_⟩
          by_contra hne
          have hseq : s ≠ sl := fun h => hne (h ▸ hzero)
          rw [hother s hseq] at hne
          have hbit := getLsbD_clear (bitsAt m (slBitmapAt t fl)) (j := s) hslt
          rw [hword, (hx.slBit fl s hfl).mpr hne] at hbit
          simp [hseq] at hbit
      · next hword =>
          obtain ⟨i, hi⟩ := exists_bit hword
          rw [getLsbD_clear _ hslt, Bool.and_eq_true] at hi
          have hiseq : i ≠ sl := by simpa using hi.2
          refine Or.inr ⟨rfl, i, ?_⟩
          rw [hother i hiseq]
          exact (hx.slBit fl i hfl).mp hi.1
  · next hzero =>
      rw [hempty] at hzero
      exact Or.inr ⟨hflbits, sl, hzero⟩

/-- `remove_block` takes the block out of the list of its class. -/
theorem removeBlock_indexed : Indexed (removeBlock t b m) t (removeList lists fl sl b) := by
  obtain ⟨hfl, hsl⟩ := hx.range fl sl (List.ne_nil_of_mem hmem)
  have hflt : fl < 32 := Nat.lt_of_lt_of_le hfl (by decide)
  have hslt : sl < 32 := Nat.lt_of_lt_of_le hsl (by decide)
  have hsub : ∀ f s y, y ∈ removeList lists fl sl b f s → y ∈ lists f s := by
    intro f s y hy
    rw [removeList] at hy
    split at hy
    · exact List.mem_of_mem_erase hy
    · exact hy
  have hother : ∀ f s, ¬(f = fl ∧ s = sl) → removeList lists fl sl b f s = lists f s := fun f s hne => if_neg hne
  have hlists : ∀ x, x < t + 3200 ∨ t + controlSize ≤ x → removeBlock t b m x = unlinkBlock (freeListAt t fl sl) b m x := by
    intro x hout
    rw [removeBlock, hclass]
    dsimp only
    split
    · rw [flSlClear_apply hfl hout]
    · rfl
  refine ⟨fun f s hne => ?_, fun f s f' s' y hy hy' => hx.disjoint f s f' s' y (hsub f s y hy) (hsub f' s' y hy'), fun f s hf hs' => ?_,
    fun f s hf => ?_, fun f => ?_⟩
  · obtain ⟨y, hy⟩ := List.exists_mem_of_ne_nil _ hne
    exact hx.range f s (List.ne_nil_of_mem (hsub f s y hy))
  · have hle' := freeListAt_le (t := t) hf hs'
    rw [Memory.load_congr fun x hlo hhi => hlists x (by omega)]
    refine (unlinkBlock_linked hx hs hnodes hmem f s hf hs').congr (fun y hy => ?_) fun y hy => ?_
    all_goals have hcontrol := hs.control y (hnodes f s y (hsub f s y hy))
    · rw [nextLinks, nextLinks, nextFreeLink, nextFreeLink, Memory.load_congr fun x hlo hhi => hlists x (by omega)]
    · rw [prevLinks, prevLinks, prevFreeLink, prevFreeLink, Memory.load_congr fun x hlo hhi => hlists x (by omega)]
  · have hold := hx.slBit f s hf
    rw [removeBlock_sl hx hs hnodes hmem hclass hf]
    split
    · next heq =>
        obtain ⟨rfl, hempty⟩ := heq
        rw [getLsbD_clear _ hslt]
        by_cases hseq : s = sl
        · simp [hseq, hempty]
        · simp only [hseq, decide_false, Bool.not_false, Bool.and_true]
          rw [hother f s fun h => hseq h.2, hold]
    · next hne =>
        rw [hold]
        by_cases heq : f = fl ∧ s = sl
        · obtain ⟨rfl, rfl⟩ := heq
          exact iff_of_true (List.ne_nil_of_mem hmem) fun hempty => hne ⟨rfl, hempty⟩
        · rw [hother f s heq]
  · have hold := hx.flBit f
    have hkeep : f ≠ fl → ((∃ s, lists f s ≠ []) ↔ ∃ s, removeList lists fl sl b f s ≠ []) := by
      intro hne
      exact exists_congr fun s => by rw [hother f s fun h => hne h.1]
    rcases removeBlock_fl hx hs hnodes hmem hclass with ⟨hbits, hall⟩ | ⟨hbits, hsome⟩
    · rw [hbits, getLsbD_clear _ hflt]
      by_cases hfeq : f = fl
      · simp [hfeq, hall]
      · simp only [hfeq, decide_false, Bool.not_false, Bool.and_true]
        rw [hold, hkeep hfeq]
    · rw [hbits, hold]
      by_cases hfeq : f = fl
      · subst f
        exact iff_of_true ⟨sl, List.ne_nil_of_mem hmem⟩ hsome
      · exact hkeep hfeq

end Remove

/-! ### Searching -/

/-- The class `(f, s)` is not below the class `c`. -/
def AtOrAbove (c : Nat × Nat) (f s : Nat) : Prop := c.1 < f ∨ c.1 = f ∧ c.2 ≤ s

/-- What a search relies on: the entries of the table are the heads of the lists, and the bitmaps mark the lists that are not empty. -/
structure Marked (m : Memory) (t : Nat) (lists : Nat → Nat → List Nat) : Prop where
  range : ∀ fl sl, lists fl sl ≠ [] → fl < flIndexCount ∧ sl < slIndexCount
  head : ∀ fl sl, fl < flIndexCount → sl < slIndexCount → linkTo (m.load (freeListAt t fl sl) 8) = (lists fl sl).head?
  slBit : ∀ fl sl, fl < flIndexCount → ((bitsAt m (slBitmapAt t fl)).getLsbD sl = true ↔ lists fl sl ≠ [])
  flBit : ∀ fl, (bitsAt m (flBitmapAt t)).getLsbD fl = true ↔ ∃ sl, lists fl sl ≠ []

theorem Indexed.marked (h : Indexed m t lists) : Marked m t lists :=
  ⟨h.range, fun fl sl hfl hsl => (h.linked fl sl hfl hsl).head_eq, h.slBit, h.flBit⟩

section Search

variable (hx : Marked m t lists) (hfl : (mappingSearch size).1 < flIndexCount)

include hx hfl

/-- The list that is searched in is the first one at or above the class of the search that has blocks. -/
theorem suitableList_some {f s : Nat} (h : suitableList m t size = some (f, s)) : AtOrAbove (mappingSearch size) f s ∧ lists f s ≠ [] := by
  rw [suitableList] at h
  generalize mappingSearch size = c at *
  have hmod : (c.1 + 1) % 32 = c.1 + 1 := Nat.mod_eq_of_lt (Nat.lt_of_le_of_lt hfl (by decide))
  dsimp only at h
  split at h
  · rw [hmod] at h
    split at h
    · simp at h
    · next hmap =>
        rw [Option.some.injEq, Prod.mk.injEq] at h
        obtain ⟨rfl, rfl⟩ := h
        have hbit := ffs_spec hmap
        rw [getLsbD_from, Bool.and_eq_true, decide_eq_true_eq] at hbit
        obtain ⟨s, hs⟩ := (hx.flBit _).mp hbit.1
        have hf := (hx.range _ s hs).1
        refine ⟨Or.inl hbit.2, (hx.slBit _ _ hf).mp (ffs_spec fun hzero => ?_)⟩
        rw [← hx.slBit _ s hf, hzero] at hs
        simp at hs
  · next hmap =>
      rw [Option.some.injEq, Prod.mk.injEq] at h
      obtain ⟨rfl, rfl⟩ := h
      have hbit := ffs_spec hmap
      rw [getLsbD_from, Bool.and_eq_true, decide_eq_true_eq] at hbit
      exact ⟨Or.inr ⟨rfl, hbit.2⟩, (hx.slBit _ _ hfl).mp hbit.1⟩

/-- A search that finds nothing leaves nothing out. -/
theorem suitableList_none (h : suitableList m t size = none) {f s : Nat} (habove : AtOrAbove (mappingSearch size) f s) : lists f s = [] := by
  rw [suitableList] at h
  generalize mappingSearch size = c at *
  have hmod : (c.1 + 1) % 32 = c.1 + 1 := Nat.mod_eq_of_lt (Nat.lt_of_le_of_lt hfl (by decide))
  dsimp only at h
  split at h
  · next hlow =>
      rw [hmod] at h
      split at h
      · next hhigh =>
          by_contra hne
          rcases habove with hlt | ⟨rfl, hle⟩
          · have hbit := getLsbD_from (bitsAt m (flBitmapAt t)) (i := c.1 + 1) (j := f)
            rw [hhigh, (hx.flBit f).mpr ⟨s, hne⟩, decide_eq_true (by omega : c.1 + 1 ≤ f)] at hbit
            simp at hbit
          · have hbit := getLsbD_from (bitsAt m (slBitmapAt t c.1)) (i := c.2) (j := s)
            rw [hlow, (hx.slBit c.1 s hfl).mpr hne, decide_eq_true hle] at hbit
            simp at hbit
      · simp at h
  · simp at h

theorem findSuitable_mem (h : findSuitable m t size ≠ 0) :
    ∃ f s, AtOrAbove (mappingSearch size) f s ∧ findSuitable m t size ∈ lists f s := by
  rw [findSuitable] at h ⊢
  cases hlist : suitableList m t size with
  | none => simp [hlist] at h
  | some c =>
      obtain ⟨f, s⟩ := c
      rw [hlist] at h
      obtain ⟨habove, hne⟩ := suitableList_some hx hfl hlist
      obtain ⟨hf, hs⟩ := hx.range f s hne
      have hhead := hx.head f s hf hs
      rw [linkTo, if_neg h] at hhead
      exact ⟨f, s, habove, List.mem_of_mem_head? hhead.symm⟩

theorem findSuitable_eq_zero (h : findSuitable m t size = 0) {f s : Nat}
    (habove : AtOrAbove (mappingSearch size) f s) : lists f s = [] := by
  rw [findSuitable] at h
  cases hlist : suitableList m t size with
  | none => exact suitableList_none hx hfl hlist habove
  | some c =>
      obtain ⟨f', s'⟩ := c
      rw [hlist] at h
      obtain ⟨-, hne⟩ := suitableList_some hx hfl hlist
      obtain ⟨hf, hs⟩ := hx.range f' s' hne
      have hhead := hx.head f' s' hf hs
      dsimp only at h
      rw [h, linkTo, if_pos rfl] at hhead
      exact absurd (List.head?_eq_none_iff.mp hhead.symm) hne

end Search

end Tsukasa
