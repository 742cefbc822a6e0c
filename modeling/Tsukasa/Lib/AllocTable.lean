import Mathlib.Data.Finset.Card
import Tsukasa.Lib.Linked

/-!
# Allocation tables

A table gives for each unit of storage, numbered from 2 on, the unit that follows it, 0 for a free unit, or a value from `stop` on at the end of a chain. Owners hold the first unit of their chain. The table is sound when the chains of different owners are disjoint and every unit in use is on one of them, except for the ones marked as reserved: no unit is shared and none is lost. Releasing a chain, putting a free unit on one and handing one over keep this.
-/

namespace Lib.AllocTable

open Linked (IsList)

/-- A value of the table as a link. -/
def link (stop x : Nat) : Option Nat := if 2 ≤ x ∧ x < stop then some x else none

/-- The units from `first` on; the value of the last one ends a chain. -/
structure Chain (fat : Nat → Nat) (stop lim first : Nat) (cs : List Nat) : Prop where
  links : IsList (fun c => link stop (fat c)) (link stop first) cs
  range : ∀ c ∈ cs, 2 ≤ c ∧ c < lim
  used : ∀ c ∈ cs, 2 ≤ fat c

structure Sound {ι : Type*} (fat : Nat → Nat) (stop lim : Nat) (reserved : Nat → Prop) (first : ι → Option Nat) (chain : ι → List Nat) :
    Prop where
  chains : ∀ i f, first i = some f → Chain fat stop lim f (chain i)
  absent : ∀ i, first i = none → chain i = []
  disjoint : ∀ i j, i ≠ j → (chain i).Disjoint (chain j)
  owned : ∀ c, 2 ≤ c → c < lim → fat c ≠ 0 → reserved (fat c) ∨ ∃ i, c ∈ chain i

variable {ι : Type*} {fat fat' : Nat → Nat} {stop lim c f : Nat} {reserved : Nat → Prop} {first : ι → Option Nat} {chain : ι → List Nat}
  {cs : List Nat}

theorem link_eq_some {x : Nat} (hlo : 2 ≤ x) (hhi : x < stop) : link stop x = some x := if_pos ⟨hlo, hhi⟩

theorem link_eq_none {x : Nat} (h : x < 2 ∨ stop ≤ x) : link stop x = none := if_neg (by omega)

theorem Chain.nil (h : link stop f = none) : Chain fat stop lim f [] :=
  ⟨Linked.isList_nil.mpr h, fun _ hc => absurd hc List.not_mem_nil, fun _ hc => absurd hc List.not_mem_nil⟩

theorem Chain.congr (h : Chain fat stop lim f cs) (hsame : ∀ c ∈ cs, fat' c = fat c) : Chain fat' stop lim f cs := by
  refine ⟨h.links.congr fun c hc => by rw [hsame c hc], h.range, ?_⟩
  intro c hc
  rw [hsame c hc]
  exact h.used c hc

theorem Chain.tail (h : Chain fat stop lim f (c :: cs)) : f = c ∧ 2 ≤ c ∧ c < stop ∧ Chain fat stop lim (fat c) cs := by
  obtain ⟨hhead, hrest⟩ := Linked.isList_cons.mp h.links
  rw [link] at hhead
  split at hhead
  · rename_i hrange
    obtain rfl : f = c := Option.some.inj hhead
    exact ⟨rfl, hrange.1, hrange.2, hrest, fun x hx => h.range x (List.mem_cons_of_mem f hx), fun x hx => h.used x (List.mem_cons_of_mem f hx)⟩
  · cases hhead

theorem Chain.head_none (h : Chain fat stop lim f []) : ¬ (2 ≤ f ∧ f < stop) := by
  intro hrange
  have hnone := Linked.isList_nil.mp h.links
  rw [link_eq_some hrange.1 hrange.2] at hnone
  cases hnone

/-- A chain does not come near a free unit. -/
theorem Sound.notMem_of_free (h : Sound fat stop lim reserved first chain) (hfree : fat c = 0) (i : ι) : c ∉ chain i := by
  intro hmem
  cases hfirst : first i with
  | none =>
      rw [h.absent i hfirst] at hmem
      exact List.not_mem_nil hmem
  | some f =>
      have := (h.chains i f hfirst).used c hmem
      omega

variable [DecidableEq ι] {i j : ι}

/-- A change of the table and of the chain of one owner. -/
theorem Sound.replace (h : Sound fat stop lim reserved first chain) {first' : ι → Option Nat} (hothers : ∀ k, k ≠ i → first' k = first k)
    (hfirst : first' i = some f) (hchain : Chain fat' stop lim f cs) (hsame : ∀ c, c ∉ chain i → c ∉ cs → fat' c = fat c)
    (hcs : ∀ c ∈ cs, c ∈ chain i ∨ fat c = 0) (hgone : ∀ c ∈ chain i, c ∉ cs → fat' c = 0) :
    Sound fat' stop lim reserved first' (Function.update chain i cs) := by
  have hapart : ∀ k, k ≠ i → (chain k).Disjoint cs := by
    intro k hk c hc hcs'
    rcases hcs c hcs' with hmem | hfree
    · exact h.disjoint k i hk hc hmem
    · exact h.notMem_of_free hfree k hc
  refine ⟨?_, ?_, ?_, ?_⟩
  · intro k f' hk
    by_cases hki : k = i
    · subst hki
      rw [hfirst] at hk
      rw [Function.update_self, ← Option.some.inj hk]
      exact hchain
    · rw [Function.update_of_ne hki]
      rw [hothers k hki] at hk
      apply (h.chains k f' hk).congr
      intro c hc
      exact hsame c (fun hmem => h.disjoint k i hki hc hmem) fun hmem => hapart k hki hc hmem
  · intro k hk
    have hki : k ≠ i := by
      intro heq
      rw [heq, hfirst] at hk
      cases hk
    rw [Function.update_of_ne hki]
    exact h.absent k (by rw [← hothers k hki, hk])
  · intro k k' hne
    by_cases hki : k = i
    · subst hki
      rw [Function.update_self, Function.update_of_ne hne.symm]
      exact fun c hc hc' => hapart k' hne.symm hc' hc
    · rw [Function.update_of_ne hki]
      by_cases hki' : k' = i
      · subst hki'
        rw [Function.update_self]
        exact hapart k hki
      · rw [Function.update_of_ne hki']
        exact h.disjoint k k' hne
  · intro c hlo hhi hused
    by_cases hmem : c ∈ cs
    · exact Or.inr ⟨i, by rwa [Function.update_self]⟩
    · have hnot : c ∉ chain i := fun hold => hused (hgone c hold hmem)
      rw [hsame c hnot hmem] at hused ⊢
      refine (h.owned c hlo hhi hused).imp id ?_
      rintro ⟨k, hk⟩
      have hki : k ≠ i := fun heq => hnot (heq ▸ hk)
      exact ⟨k, by rwa [Function.update_of_ne hki]⟩

/-- A new owner, without a unit. -/
theorem Sound.add (h : Sound fat stop lim reserved first chain) (hi : first i = none) (hf : link stop f = none) :
    Sound fat stop lim reserved (Function.update first i (some f)) chain := by
  have hnil := h.absent i hi
  have hnew := h.replace (fun k hk => Function.update_of_ne hk (some f) first) (Function.update_self i (some f) first)
    (Chain.nil hf : Chain fat stop lim f []) (fun _ _ _ => rfl) (fun _ hc => absurd hc List.not_mem_nil)
    (fun c hc => by rw [hnil] at hc; exact absurd hc List.not_mem_nil)
  rwa [← hnil, Function.update_eq_self] at hnew

/-- The units of an owner are free again. -/
theorem Sound.release (h : Sound fat stop lim reserved first chain) (hf : link stop f = none)
    (hzero : ∀ c, fat' c = if c ∈ chain i then 0 else fat c) :
    Sound fat' stop lim reserved (Function.update first i (some f)) (Function.update chain i []) := by
  apply h.replace (fun k hk => Function.update_of_ne hk (some f) first) (Function.update_self i (some f) first) (Chain.nil hf)
  · intro c hnot _
    rw [hzero, if_neg hnot]
  · exact fun _ hc => absurd hc List.not_mem_nil
  · intro c hc _
    rw [hzero, if_pos hc]

/-- A free unit becomes the first one of an owner without any. -/
theorem Sound.start (h : Sound fat stop lim reserved first chain) (hnil : chain i = []) (hfree : fat c = 0) (hlo : 2 ≤ c)
    (hhi : c < lim) (hlim : lim ≤ stop) {e : Nat} (he : stop ≤ e) (htwo : 2 ≤ e) :
    Sound (Function.update fat c e) stop lim reserved (Function.update first i (some c)) (Function.update chain i [c]) := by
  apply h.replace (fun k hk => Function.update_of_ne hk (some c) first) (Function.update_self i (some c) first)
  · refine ⟨?_, ?_, ?_⟩
    · rw [Linked.isList_cons, Linked.isList_nil, Function.update_self]
      exact ⟨link_eq_some hlo (by omega), link_eq_none (Or.inr he)⟩
    · intro x hx
      rw [List.mem_singleton.mp hx]
      exact ⟨hlo, hhi⟩
    · intro x hx
      rwa [List.mem_singleton.mp hx, Function.update_self]
  · intro x _ hx
    have hne : x ≠ c := fun heq => hx (List.mem_singleton.mpr heq)
    exact Function.update_of_ne hne e fat
  · intro x hx
    rw [List.mem_singleton.mp hx]
    exact Or.inr hfree
  · intro x hx
    rw [hnil] at hx
    exact absurd hx List.not_mem_nil

/-- A free unit is put behind the last one of an owner. -/
theorem Sound.extend (h : Sound fat stop lim reserved first chain) (hf : first i = some f) {l : List Nat} {t : Nat} (hlast : chain i = l ++ [t])
    (hfree : fat c = 0) (hlo : 2 ≤ c) (hhi : c < lim) (hlim : lim ≤ stop) {e : Nat} (he : stop ≤ e) (htwo : 2 ≤ e) :
    Sound (Function.update (Function.update fat c e) t c) stop lim reserved first (Function.update chain i (l ++ [t] ++ [c])) := by
  have hold := h.chains i f hf
  have hnot : c ∉ l ++ [t] := hlast ▸ h.notMem_of_free hfree i
  have hct : c ≠ t := fun heq => hnot (by simp [heq])
  rw [hlast] at hold
  apply h.replace (fun _ _ => rfl) hf
  · refine ⟨?_, ?_, ?_⟩
    · have hpush := hold.links.push hnot
      apply hpush.congr
      intro x hx
      by_cases hxt : x = t
      · subst hxt
        rw [Function.update_self, Function.update_self, link_eq_some hlo (by omega)]
      · rw [Function.update_of_ne hxt, Function.update_of_ne hxt]
        by_cases hxc : x = c
        · subst hxc
          rw [Function.update_self, Function.update_self, link_eq_none (Or.inr he)]
        · rw [Function.update_of_ne hxc, Function.update_of_ne hxc]
    · intro x hx
      rcases List.mem_append.mp hx with hx | hx
      · exact hold.range x hx
      · rw [List.mem_singleton.mp hx]
        exact ⟨hlo, hhi⟩
    · intro x hx
      by_cases hxt : x = t
      · rw [hxt, Function.update_self]
        exact hlo
      · rw [Function.update_of_ne hxt]
        rcases List.mem_append.mp hx with hx | hx
        · have hxc : x ≠ c := fun heq => hnot (heq ▸ hx)
          rw [Function.update_of_ne hxc]
          exact hold.used x hx
        · rw [List.mem_singleton.mp hx, Function.update_self]
          exact htwo
  · intro x hx hx'
    simp only [List.mem_append, List.mem_singleton, not_or] at hx'
    rw [Function.update_of_ne hx'.1.2, Function.update_of_ne hx'.2]
  · intro x hx
    rcases List.mem_append.mp hx with hx | hx
    · exact Or.inl (hlast ▸ hx)
    · rw [List.mem_singleton.mp hx]
      exact Or.inr hfree
  · intro x hx hx'
    rw [hlast] at hx
    exact absurd (List.mem_append_left [c] hx) hx'

/-- A chain is handed over to an owner without any. -/
theorem Sound.move (h : Sound fat stop lim reserved first chain) (hij : i ≠ j) (hi : first i = some f) (hj : chain j = []) :
    Sound fat stop lim reserved (Function.update (Function.update first j (some f)) i none)
      (Function.update (Function.update chain j (chain i)) i []) := by
  have hother : ∀ k, k ≠ i → k ≠ j → Function.update (Function.update chain j (chain i)) i [] k = chain k := by
    intro k hki hkj
    rw [Function.update_of_ne hki, Function.update_of_ne hkj]
  have hnew : Function.update (Function.update chain j (chain i)) i [] j = chain i := by
    rw [Function.update_of_ne hij.symm, Function.update_self]
  refine ⟨?_, ?_, ?_, ?_⟩
  · intro k f' hk
    by_cases hki : k = i
    · rw [hki, Function.update_self] at hk
      cases hk
    · rw [Function.update_of_ne hki] at hk
      by_cases hkj : k = j
      · rw [hkj, Function.update_self] at hk
        rw [hkj, hnew, ← Option.some.inj hk]
        exact h.chains i f hi
      · rw [Function.update_of_ne hkj] at hk
        rw [hother k hki hkj]
        exact h.chains k f' hk
  · intro k hk
    by_cases hki : k = i
    · rw [hki, Function.update_self]
    · rw [Function.update_of_ne hki] at hk
      by_cases hkj : k = j
      · rw [hkj, Function.update_self] at hk
        cases hk
      · rw [Function.update_of_ne hkj] at hk
        rw [hother k hki hkj]
        exact h.absent k hk
  · intro k k' hne
    by_cases hki : k = i
    · rw [hki, Function.update_self]
      exact List.disjoint_nil_left _
    · by_cases hki' : k' = i
      · rw [hki', Function.update_self]
        exact List.disjoint_nil_right _
      · by_cases hkj : k = j
        · rw [hkj] at hne ⊢
          rw [hnew, hother k' hki' hne.symm]
          exact h.disjoint i k' (Ne.symm hki')
        · rw [hother k hki hkj]
          by_cases hkj' : k' = j
          · rw [hkj', hnew]
            exact h.disjoint k i hki
          · rw [hother k' hki' hkj']
            exact h.disjoint k k' hne
  · intro c hlo hhi hused
    refine (h.owned c hlo hhi hused).imp id ?_
    rintro ⟨k, hk⟩
    by_cases hki : k = i
    · exact ⟨j, by rwa [hnew, ← hki]⟩
    · by_cases hkj : k = j
      · rw [hkj, hj] at hk
        exact absurd hk List.not_mem_nil
      · exact ⟨k, by rwa [hother k hki hkj]⟩

/-! ### Free units -/

/-- The free units of a table of `lim` units. -/
def freeUnits (fat : Nat → Nat) (lim : Nat) : Finset Nat := (Finset.range lim).filter fun c => 2 ≤ c ∧ fat c = 0

theorem mem_freeUnits : c ∈ freeUnits fat lim ↔ c < lim ∧ 2 ≤ c ∧ fat c = 0 := by
  rw [freeUnits, Finset.mem_filter, Finset.mem_range]

/-- Units that are free in one table and used in the other are the difference in free units. -/
theorem card_freeUnits_taken (hnodup : cs.Nodup) (hrange : ∀ c ∈ cs, 2 ≤ c ∧ c < lim) (hfree : ∀ c ∈ cs, fat c = 0) (hused : ∀ c ∈ cs, fat' c ≠ 0)
    (hsame : ∀ c, c ∉ cs → fat' c = fat c) : (freeUnits fat lim).card = (freeUnits fat' lim).card + cs.length := by
  have hunion : freeUnits fat lim = freeUnits fat' lim ∪ cs.toFinset := by
    ext c
    rw [Finset.mem_union, List.mem_toFinset, mem_freeUnits, mem_freeUnits]
    by_cases hc : c ∈ cs
    · simp [hc, hfree c hc, hrange c hc]
    · simp [hc, hsame c hc]
  have hdisjoint : Disjoint (freeUnits fat' lim) cs.toFinset := by
    rw [Finset.disjoint_left]
    intro c hc hmem
    exact hused c (List.mem_toFinset.mp hmem) (mem_freeUnits.mp hc).2.2
  rw [hunion, Finset.card_union_of_disjoint hdisjoint, List.toFinset_card_of_nodup hnodup]

end Lib.AllocTable
