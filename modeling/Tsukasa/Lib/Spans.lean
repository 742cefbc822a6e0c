import Mathlib.Algebra.BigOperators.Intervals
import Mathlib.Algebra.Order.BigOperators.Group.Finset

/-!
# Spans

Numbered spans of given lengths lie one behind the other. Every position before the end is in one of them, at one place, and taking the lengths off from the front leads there.
-/

namespace Lib

open Finset (Ico sum_Ico_consecutive sum_Ico_succ_top)

variable {len : Nat → Nat} {a b b' c t r r' : Nat}

/-- Position `t` behind the start of span `a` is `r` places into span `b`. -/
structure InSpan (len : Nat → Nat) (a t b r : Nat) : Prop where
  le : a ≤ b
  split : t = ∑ i ∈ Ico a b, len i + r
  lt : r < len b

theorem sum_Ico_mono (len : Nat → Nat) (a : Nat) (h : b ≤ c) : ∑ i ∈ Ico a b, len i ≤ ∑ i ∈ Ico a c, len i :=
  Finset.sum_le_sum_of_subset (Finset.Ico_subset_Ico_right h)

theorem InSpan.end_le (h : InSpan len a t b r) (hbc : b < c) : t < ∑ i ∈ Ico a c, len i := by
  have hmono := sum_Ico_mono len a (Nat.succ_le_of_lt hbc)
  rw [sum_Ico_succ_top h.le] at hmono
  have hsplit := h.split
  have hlt := h.lt
  omega

theorem InSpan.lt_of_lt (h : InSpan len a t b r) (ht : t < ∑ i ∈ Ico a c, len i) : b < c := by
  rcases Nat.lt_or_ge b c with hlt | hge
  · exact hlt
  · have hmono := sum_Ico_mono len a hge
    have hsplit := h.split
    omega

theorem InSpan.unique (h : InSpan len a t b r) (h' : InSpan len a t b' r') : b = b' ∧ r = r' := by
  have heq : b = b' := by
    rcases Nat.lt_trichotomy b b' with hlt | heq | hgt
    · have hend := h.end_le hlt
      have hsplit := h'.split
      omega
    · exact heq
    · have hend := h'.end_le hgt
      have hsplit := h.split
      omega
  have hsplit := h.split
  have hsplit' := h'.split
  rw [heq] at hsplit ⊢
  exact ⟨rfl, by omega⟩

theorem exists_inSpan (hac : a ≤ c) (ht : t < ∑ i ∈ Ico a c, len i) : ∃ b r, InSpan len a t b r := by
  induction c, hac using Nat.le_induction with
  | base =>
      rw [Finset.Ico_self, Finset.sum_empty] at ht
      omega
  | succ c hac ih =>
      rcases Nat.lt_or_ge t (∑ i ∈ Ico a c, len i) with hlt | hge
      · exact ih hlt
      · rw [sum_Ico_succ_top hac] at ht
        exact ⟨c, t - ∑ i ∈ Ico a c, len i, hac, by omega, by omega⟩

/-- In the first span, or behind it. -/
theorem InSpan.step (h : InSpan len a t b r) : (t < len a ∧ b = a ∧ r = t) ∨ (len a ≤ t ∧ a < b ∧ InSpan len (a + 1) (t - len a) b r) := by
  have hsplit := h.split
  rcases Nat.eq_or_lt_of_le h.le with heq | hlt
  · have hlast := h.lt
    rw [← heq, Finset.Ico_self, Finset.sum_empty, Nat.zero_add] at hsplit
    rw [← heq, ← hsplit] at hlast
    exact .inl ⟨hlast, heq.symm, hsplit.symm⟩
  · rw [Finset.sum_eq_sum_Ico_succ_bot hlt] at hsplit
    exact .inr ⟨by omega, hlt, hlt, by omega, h.lt⟩

/-- Spans between `m` and `n` that do not overlap, each by its start and its length, have no more places together than there are. -/
theorem sum_lengths_le {m n : Nat} {l : List (Nat × Nat)} (hapart : l.Pairwise fun s s' => s.1 + s.2 ≤ s'.1 ∨ s'.1 + s'.2 ≤ s.1)
    (hin : ∀ s ∈ l, m ≤ s.1 ∧ s.1 + s.2 ≤ n) : (l.map Prod.snd).sum ≤ n - m := by
  have hcount : ∀ l : List (Nat × Nat), (l.Pairwise fun s s' => s.1 + s.2 ≤ s'.1 ∨ s'.1 + s'.2 ≤ s.1) → (∀ s ∈ l, m ≤ s.1 ∧ s.1 + s.2 ≤ n) →
      ∃ covered ⊆ Ico m n, covered.card = (l.map Prod.snd).sum ∧ ∀ y ∈ covered, ∃ s ∈ l, s.1 ≤ y ∧ y < s.1 + s.2 := by
    intro l
    induction l with
    | nil => exact fun _ _ => ⟨∅, Finset.empty_subset _, rfl, fun y hy => absurd hy (Finset.notMem_empty y)⟩
    | cons s l ih =>
        intro hapart hin
        obtain ⟨hfirst, hrest⟩ := List.pairwise_cons.mp hapart
        obtain ⟨covered, hsub, hcard, hspan⟩ := ih hrest fun s' hs' => hin s' (List.mem_cons_of_mem s hs')
        have hdisjoint : Disjoint (Ico s.1 (s.1 + s.2)) covered := by
          rw [Finset.disjoint_left]
          intro y hy hcovered
          obtain ⟨s', hs', hlo, hhi⟩ := hspan y hcovered
          have hy' := Finset.mem_Ico.mp hy
          have hapart' := hfirst s' hs'
          omega
        have hend := hin s List.mem_cons_self
        refine ⟨Ico s.1 (s.1 + s.2) ∪ covered, Finset.union_subset (fun y hy => ?_) hsub, ?_, fun y hy => ?_⟩
        · have hy' := Finset.mem_Ico.mp hy
          exact Finset.mem_Ico.mpr (by omega)
        · rw [Finset.card_union_of_disjoint hdisjoint, hcard, Nat.card_Ico, List.map_cons, List.sum_cons, Nat.add_sub_cancel_left]
        · cases Finset.mem_union.mp hy with
          | inl hown =>
              have hy' := Finset.mem_Ico.mp hown
              exact ⟨s, List.mem_cons_self, hy'.1, hy'.2⟩
          | inr hcovered =>
              obtain ⟨s', hs', hlo, hhi⟩ := hspan y hcovered
              exact ⟨s', List.mem_cons_of_mem s hs', hlo, hhi⟩
  obtain ⟨covered, hsub, hcard, -⟩ := hcount l hapart hin
  have hle := Finset.card_le_card hsub
  rwa [hcard, Nat.card_Ico] at hle

end Lib
