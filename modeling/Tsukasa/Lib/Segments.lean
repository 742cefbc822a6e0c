import Mathlib.Data.List.Chain
import Mathlib.Data.List.Pairwise

/-!
# Replacing a segment of a list

A list stands in some order, its neighbours are related by `R`, and all its elements are related pairwise. When a segment is replaced, what has to be shown again is confined to the new segment and its two borders.
-/

namespace Lib.Segments

variable {β : Type*} {R : β → β → Prop} {before g g' after : List β}

theorem isChain_replace (h : (before ++ (g ++ after)).IsChain R) (hg : g ≠ []) (hg' : g' ≠ []) (hchain : g'.IsChain R)
    (hleft : ∀ a ∈ before.getLast?, ∀ b ∈ g.head?, R a b → ∀ b' ∈ g'.head?, R a b')
    (hright : ∀ c ∈ after.head?, ∀ b ∈ g.getLast?, R b c → ∀ b' ∈ g'.getLast?, R b' c) : (before ++ (g' ++ after)).IsChain R := by
  rw [List.isChain_append, List.isChain_append] at h ⊢
  obtain ⟨hbefore, ⟨-, hafter, hborder⟩, hborder'⟩ := h
  refine ⟨hbefore, ⟨hchain, hafter, fun b' hb' c hc => ?_⟩, fun a ha b' hb' => ?_⟩
  · have hlast : g.getLast hg ∈ g.getLast? := List.getLast?_eq_some_getLast hg
    exact hright c hc _ hlast (hborder _ hlast c hc) b' hb'
  · have hhead : g.head hg ∈ g.head? := List.head?_eq_some_head hg
    rw [List.head?_append_of_ne_nil _ hg] at hborder'
    rw [List.head?_append_of_ne_nil _ hg'] at hb'
    exact hleft a ha _ hhead (hborder' a ha _ hhead) b' hb'

theorem pairwise_replace (h : (before ++ (g ++ after)).Pairwise R) (hpair : g'.Pairwise R)
    (hleft : ∀ a, (∀ b ∈ g, R a b) → ∀ b' ∈ g', R a b') (hright : ∀ c, (∀ b ∈ g, R b c) → ∀ b' ∈ g', R b' c) :
    (before ++ (g' ++ after)).Pairwise R := by
  simp only [List.pairwise_append, List.mem_append] at h ⊢
  obtain ⟨hbefore, ⟨-, hafter, hga⟩, hcross⟩ := h
  refine ⟨hbefore, ⟨hpair, hafter, fun b' hb' c hc => hright c (fun b hb => hga b hb c hc) b' hb'⟩, fun a ha x hx => ?_⟩
  rcases hx with hx | hx
  · exact hleft a (fun b hb => hcross a ha b (Or.inl hb)) x hx
  · exact hcross a ha x (Or.inr hx)

end Lib.Segments
