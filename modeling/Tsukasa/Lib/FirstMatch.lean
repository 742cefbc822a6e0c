import Mathlib.Data.List.Basic
import Mathlib.Data.List.Nodup

/-!
# First matches

Two lists of entries with keys, over the same places. A search for a key stops at its first entry. The searches in the two lists stop at the same place for every key exactly when the keys are the same at every place, up to places where both keys have come before.
-/

namespace Lib.FirstMatch

variable {α κ : Type*} {A B : List (α × κ)} {K K' : List κ} {k x x' : κ} {i : Nat}

/-- The keys are the same, up to places where both keys have come before. -/
def KeysAgree (K K' : List κ) : Prop := ∀ i x x', K[i]? = some x → K'[i]? = some x' → x = x' ∨ x ∈ K.take i ∧ x' ∈ K'.take i

theorem KeysAgree.symm (h : KeysAgree K K') : KeysAgree K' K := by
  intro i x' x hx' hx
  rcases h i x x' hx hx' with heq | ⟨hmem, hmem'⟩
  · exact Or.inl heq.symm
  · exact Or.inr ⟨hmem', hmem⟩

variable [BEq κ] [LawfulBEq κ]

/-- What the first entry with the key is about. -/
def first (entries : List (α × κ)) (k : κ) : Option α := (entries.find? fun e => e.2 == k).map (·.1)

theorem idxOf_le_of_getElem? (h : K[i]? = some k) : K.idxOf k ≤ i := by
  have hmem : k ∈ K.take (i + 1) := by
    rw [List.take_add_one, h]
    exact List.mem_append_right _ List.mem_cons_self
  exact Nat.le_of_lt_succ ((List.mem_take_iff_idxOf_lt (List.mem_of_getElem? h)).mp hmem)

theorem KeysAgree.idxOf_le (h : KeysAgree K K') (hlen : K.length = K'.length) (hk : k ∈ K) : K'.idxOf k ≤ K.idxOf k := by
  have hlt : K.idxOf k < K'.length := hlen ▸ List.idxOf_lt_length_of_mem hk
  rcases h (K.idxOf k) k _ (List.getElem?_idxOf hk) (List.getElem?_eq_getElem hlt) with heq | ⟨hmem, -⟩
  · exact idxOf_le_of_getElem? (by rw [List.getElem?_eq_getElem hlt, ← heq])
  · exact absurd ((List.mem_take_iff_idxOf_lt hk).mp hmem) (Nat.lt_irrefl _)

theorem KeysAgree.idxOf_eq (h : KeysAgree K K') (hlen : K.length = K'.length) (k : κ) : K.idxOf k = K'.idxOf k := by
  by_cases hk : k ∈ K
  · have hle := h.idxOf_le hlen hk
    have hk' : k ∈ K' := List.idxOf_lt_length_iff.mp (Nat.lt_of_le_of_lt hle (hlen ▸ List.idxOf_lt_length_of_mem hk))
    exact Nat.le_antisymm (h.symm.idxOf_le hlen.symm hk') hle
  · have hk' : k ∉ K' := fun hk' =>
      hk (List.idxOf_lt_length_iff.mp (Nat.lt_of_le_of_lt (h.symm.idxOf_le hlen.symm hk') (hlen ▸ List.idxOf_lt_length_of_mem hk')))
    rw [List.idxOf_eq_length hk, List.idxOf_eq_length hk', hlen]

/-- A key that the other list does not have at its place has come before. -/
theorem mem_take_of_idxOf_eq (h : K.idxOf x = K'.idxOf x) (hx : K[i]? = some x) (hx' : K'[i]? = some x') (hne : x ≠ x') : x ∈ K.take i := by
  by_contra hfirst
  have hge : i ≤ K.idxOf x := Nat.not_lt.mp fun hlt => hfirst ((List.mem_take_iff_idxOf_lt (List.mem_of_getElem? hx)).mpr hlt)
  have hi : K'.idxOf x = i := h ▸ Nat.le_antisymm (idxOf_le_of_getElem? hx) hge
  have hlt : i < K'.length := (List.getElem?_eq_some_iff.mp hx').1
  have hmem : x ∈ K' := List.idxOf_lt_length_iff.mp (hi ▸ hlt)
  have heq := List.getElem?_idxOf hmem
  rw [hi, hx'] at heq
  exact hne (Option.some.inj heq).symm

theorem keysAgree_of_idxOf_eq (h : ∀ k ∈ K ++ K', K.idxOf k = K'.idxOf k) : KeysAgree K K' := by
  intro i x x' hx hx'
  by_cases hne : x = x'
  · exact Or.inl hne
  · have hmem := h x (List.mem_append_left _ (List.mem_of_getElem? hx))
    have hmem' := h x' (List.mem_append_right _ (List.mem_of_getElem? hx'))
    exact Or.inr ⟨mem_take_of_idxOf_eq hmem hx hx' hne, mem_take_of_idxOf_eq hmem'.symm hx' hx (Ne.symm hne)⟩

theorem first_eq_getElem? (A : List (α × κ)) (k : κ) : first A k = (A.map (·.1))[(A.map (·.2)).idxOf k]? := by
  induction A with
  | nil => rfl
  | cons e A ih =>
      rw [first, List.map_cons, List.map_cons]
      by_cases he : e.2 = k
      · rw [List.find?_cons_of_pos (by simpa using he), List.idxOf_cons_eq _ he]
        rfl
      · rw [List.find?_cons_of_neg (by simpa using he), List.idxOf_cons_ne _ he]
        exact ih

theorem first_eq_of_idxOf (hplaces : A.map (·.1) = B.map (·.1)) (h : (A.map (·.2)).idxOf k = (B.map (·.2)).idxOf k) : first A k = first B k := by
  rw [first_eq_getElem?, first_eq_getElem?, hplaces, h]

/-- When no place comes twice, the place of the first entry says where the key is. -/
theorem idxOf_eq_of_first (hplaces : A.map (·.1) = B.map (·.1)) (hnodup : (A.map (·.1)).Nodup) (h : first A k = first B k) :
    (A.map (·.2)).idxOf k = (B.map (·.2)).idxOf k := by
  have hlen : (A.map (·.2)).length = (A.map (·.1)).length := by rw [List.length_map, List.length_map]
  have hlen' : (B.map (·.2)).length = (A.map (·.1)).length := by rw [hplaces, List.length_map, List.length_map]
  rw [first_eq_getElem?, first_eq_getElem?, ← hplaces] at h
  have hle := List.idxOf_le_length (a := k) (l := A.map (·.2))
  have hle' := List.idxOf_le_length (a := k) (l := B.map (·.2))
  by_cases hin : (A.map (·.2)).idxOf k < (A.map (·.1)).length
  · exact (List.getElem?_inj hin hnodup).mp h
  · by_cases hin' : (B.map (·.2)).idxOf k < (A.map (·.1)).length
    · exact ((List.getElem?_inj hin' hnodup).mp h.symm).symm
    · omega

theorem first_append_of_notMem (h : k ∉ A.map (·.2)) : first (A ++ B) k = first B k := by
  have hnone : A.find? (fun e => e.2 == k) = none := by
    rw [List.find?_eq_none]
    intro e he heq
    exact h (List.mem_map.mpr ⟨e, he, by simpa using heq⟩)
  rw [first, List.find?_append, hnone, Option.none_or, first]

/-- Searches that have gone the same way so far stay together when the places that are added differ among themselves. -/
theorem idxOf_append_eq {A' B' : List (α × κ)} (hlen : A.length = B.length) (hplaces : A'.map (·.1) = B'.map (·.1)) (hnodup : (A'.map (·.1)).Nodup)
    (hsofar : (A.map (·.2)).idxOf k = (B.map (·.2)).idxOf k) (h : first (A ++ A') k = first (B ++ B') k) :
    ((A ++ A').map (·.2)).idxOf k = ((B ++ B').map (·.2)).idxOf k := by
  have hlength : (A.map (·.2)).length = (B.map (·.2)).length := by rw [List.length_map, List.length_map, hlen]
  have hmem : k ∈ A.map (·.2) ↔ k ∈ B.map (·.2) := by rw [← List.idxOf_lt_length_iff, ← List.idxOf_lt_length_iff, hsofar, hlength]
  rw [List.map_append, List.map_append]
  by_cases hk : k ∈ A.map (·.2)
  · rw [List.idxOf_append_of_mem hk, List.idxOf_append_of_mem (hmem.mp hk), hsofar]
  · have hk' : k ∉ B.map (·.2) := mt hmem.mpr hk
    rw [first_append_of_notMem hk, first_append_of_notMem hk'] at h
    rw [List.idxOf_append_of_notMem hk, List.idxOf_append_of_notMem hk', hlength, idxOf_eq_of_first hplaces hnodup h]

end Lib.FirstMatch
