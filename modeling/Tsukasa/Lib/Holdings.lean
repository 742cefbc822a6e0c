import Mathlib.Logic.Function.Basic
import Mathlib.Data.Option.Basic

/-!
# Ranges of pages in shared tables

Owners hold ranges of pages, each in the table of its owner, and several owners may have one table. A page of a table carries the owner that mapped it. An owner may have reserved a range that it has not mapped yet. As long as a new range is apart from all ranges of its table, a mapped page lies in a mapped range of its owner, and every mapped range is whole.
-/

namespace Lib

structure PageRange (α : Type*) where
  owner : α
  first : Nat
  count : Nat

def PageRange.Covers {α : Type*} (r : PageRange α) (page : Nat) : Prop := r.first ≤ page ∧ page < r.first + r.count

@[ext] structure Holdings (κ α τ : Type*) where
  range : κ → Option (PageRange α)
  /-- The first page of the range that an owner has reserved and not mapped. -/
  reserving : α → Option Nat
  table : α → τ
  page : τ → Nat → Option α

namespace Holdings

variable {κ α τ : Type*} {h h' : Holdings κ α τ} {k l : κ} {r : PageRange α} {p : α}

structure Sound (h : Holdings κ α τ) : Prop where
  nonempty : ∀ k r, h.range k = some r → r.count ≠ 0
  apart : ∀ k l r q, k ≠ l → h.range k = some r → h.range l = some q → h.table r.owner = h.table q.owner → ∀ page, r.Covers page → ¬ q.Covers page
  mapped : ∀ k r, h.range k = some r → h.reserving r.owner ≠ some r.first → ∀ page, r.Covers page → h.page (h.table r.owner) page = some r.owner
  tagged : ∀ t page p, h.page t page = some p → t = h.table p ∧
    ∃ k r, h.range k = some r ∧ r.owner = p ∧ r.Covers page ∧ h.reserving p ≠ some r.first

theorem covers_first (hcount : r.count ≠ 0) : r.Covers r.first := ⟨Nat.le_refl _, Nat.lt_add_of_pos_right (Nat.pos_of_ne_zero hcount)⟩

/-- Two ranges of an owner begin at different pages. -/
theorem Sound.first_ne (hs : h.Sound) {q : PageRange α} (hkl : k ≠ l) (hr : h.range k = some r) (hq : h.range l = some q) (howner : r.owner = q.owner) :
    r.first ≠ q.first := by
  intro heq
  apply hs.apart k l r q hkl hr hq (by rw [howner]) r.first (covers_first (hs.nonempty k r hr))
  rw [heq]
  exact covers_first (hs.nonempty l q hq)

/-- No page of a range in reservation is mapped. -/
theorem Sound.unmapped (hs : h.Sound) (hr : h.range k = some r) (hreserving : h.reserving r.owner = some r.first) {page : Nat} (hpage : r.Covers page) :
    h.page (h.table r.owner) page = none := by
  cases hmapped : h.page (h.table r.owner) page with
  | none => rfl
  | some p =>
      obtain ⟨htable, l, q, hq, rfl, hcovers, hne⟩ := hs.tagged _ page p hmapped
      by_cases hkl : k = l
      · rw [hkl, hq] at hr
        obtain rfl := Option.some.inj hr
        exact absurd hreserving hne
      · exact absurd hcovers (hs.apart k l r q hkl hr hq htable page hpage)

/-- An owner reserves a range apart from all others of its table. -/
theorem Sound.reserve (hs : h.Sound) (hfree : h.range k = none) (hidle : h.reserving r.owner = none) (hcount : r.count ≠ 0)
    (hfar : ∀ l q, h.range l = some q → h.table q.owner = h.table r.owner → ∀ page, q.Covers page → ¬ r.Covers page)
    (hself : h'.range k = some r) (hkeep : ∀ l, l ≠ k → h'.range l = h.range l) (hnew : h'.reserving r.owner = some r.first)
    (hothers : ∀ p, p ≠ r.owner → h'.reserving p = h.reserving p) (htable : h'.table = h.table) (hpage : h'.page = h.page) : h'.Sound := by
  refine ⟨fun l q hq => ?_, fun l m q q' hlm hq hq' hsame => ?_, fun l q hq hne => ?_, fun t page p hmapped => ?_⟩
  · by_cases hlk : l = k
    · rw [hlk, hself] at hq
      exact Option.some.inj hq ▸ hcount
    · rw [hkeep l hlk] at hq
      exact hs.nonempty l q hq
  · rw [htable] at hsame
    by_cases hlk : l = k
    · have hmk : m ≠ k := fun hmk => hlm (hlk.trans hmk.symm)
      rw [hlk, hself] at hq
      obtain rfl := Option.some.inj hq
      rw [hkeep m hmk] at hq'
      exact fun page hcovers hcovers' => hfar m q' hq' hsame.symm page hcovers' hcovers
    · rw [hkeep l hlk] at hq
      by_cases hmk : m = k
      · rw [hmk, hself] at hq'
        obtain rfl := Option.some.inj hq'
        exact hfar l q hq hsame
      · rw [hkeep m hmk] at hq'
        exact hs.apart l m q q' hlm hq hq' hsame
  · rw [htable, hpage]
    by_cases hlk : l = k
    · rw [hlk, hself] at hq
      obtain rfl := Option.some.inj hq
      exact absurd hnew hne
    · rw [hkeep l hlk] at hq
      refine hs.mapped l q hq ?_
      by_cases howner : q.owner = r.owner
      · rw [howner, hidle]
        exact (Option.some_ne_none _).symm
      · rwa [hothers _ howner] at hne
  · rw [hpage] at hmapped
    obtain ⟨hin, l, q, hq, howner, hcovers, hne⟩ := hs.tagged t page p hmapped
    have hlk : l ≠ k := by
      rintro rfl
      rw [hfree] at hq
      exact Option.some_ne_none _ hq.symm
    refine ⟨by rw [htable]; exact hin, l, q, (hkeep l hlk).trans hq, howner, hcovers, ?_⟩
    by_cases hp : p = r.owner
    · rw [hp, hnew]
      intro heq
      apply hfar l q hq (by rw [howner, hp]) q.first (covers_first (hs.nonempty l q hq))
      rw [← Option.some.inj heq]
      exact covers_first hcount
    · rw [hothers p hp]
      exact hne

/-- The reserved range is mapped. -/
theorem Sound.map (hs : h.Sound) (hr : h.range k = some r) (hreserving : h.reserving r.owner = some r.first) (hrange : h'.range = h.range)
    (hnone : h'.reserving r.owner = none) (hothers : ∀ p, p ≠ r.owner → h'.reserving p = h.reserving p) (htable : h'.table = h.table)
    (hin : ∀ page, r.Covers page → h'.page (h.table r.owner) page = some r.owner)
    (hout : ∀ t page, ¬ (t = h.table r.owner ∧ r.Covers page) → h'.page t page = h.page t page) : h'.Sound := by
  refine ⟨by rw [hrange]; exact hs.nonempty, by rw [hrange, htable]; exact hs.apart, fun l q hq hne page hcovers => ?_, fun t page p hmapped => ?_⟩
  · rw [hrange] at hq
    rw [htable]
    by_cases hlk : l = k
    · rw [hlk, hr] at hq
      obtain rfl := Option.some.inj hq
      exact hin page hcovers
    · have hold : h.page (h.table q.owner) page = some q.owner := by
        refine hs.mapped l q hq ?_ page hcovers
        by_cases howner : q.owner = r.owner
        · rw [howner, hreserving]
          exact fun heq => hs.first_ne hlk hq hr howner (Option.some.inj heq).symm
        · rwa [hothers _ howner] at hne
      rw [hout _ _ fun hboth => hs.apart l k q r hlk hq hr hboth.1 page hcovers hboth.2]
      exact hold
  · by_cases hboth : t = h.table r.owner ∧ r.Covers page
    · rw [hboth.1, hin page hboth.2] at hmapped
      obtain rfl := Option.some.inj hmapped
      refine ⟨by rw [htable]; exact hboth.1, k, r, by rw [hrange]; exact hr, rfl, hboth.2, ?_⟩
      rw [hnone]
      exact (Option.some_ne_none _).symm
    · rw [hout t page hboth] at hmapped
      obtain ⟨htp, l, q, hq, howner, hcovers, hne⟩ := hs.tagged t page p hmapped
      refine ⟨by rw [htable]; exact htp, l, q, by rw [hrange]; exact hq, howner, hcovers, ?_⟩
      by_cases hp : p = r.owner
      · rw [hp, hnone]
        exact (Option.some_ne_none _).symm
      · rwa [hothers p hp]

/-- The reserved range is given up before it is mapped. -/
theorem Sound.cancel (hs : h.Sound) (hr : h.range k = some r) (hreserving : h.reserving r.owner = some r.first) (hgone : h'.range k = none)
    (hkeep : ∀ l, l ≠ k → h'.range l = h.range l) (hnone : h'.reserving r.owner = none) (hothers : ∀ p, p ≠ r.owner → h'.reserving p = h.reserving p)
    (htable : h'.table = h.table) (hpage : h'.page = h.page) : h'.Sound := by
  have hold : ∀ l q, h'.range l = some q → l ≠ k ∧ h.range l = some q := by
    intro l q hq
    have hlk : l ≠ k := by
      rintro rfl
      rw [hgone] at hq
      exact Option.some_ne_none _ hq.symm
    exact ⟨hlk, (hkeep l hlk).symm.trans hq⟩
  refine ⟨fun l q hq => hs.nonempty l q (hold l q hq).2, fun l m q q' hlm hq hq' => ?_, fun l q hq _ page hcovers => ?_, fun t page p hmapped => ?_⟩
  · rw [htable]
    exact hs.apart l m q q' hlm (hold l q hq).2 (hold m q' hq').2
  · obtain ⟨hlk, hq⟩ := hold l q hq
    rw [htable, hpage]
    refine hs.mapped l q hq ?_ page hcovers
    intro heq
    by_cases howner : q.owner = r.owner
    · rw [howner, hreserving] at heq
      exact hs.first_ne hlk hq hr howner (Option.some.inj heq).symm
    · rename_i hne
      rw [hothers _ howner] at hne
      exact hne heq
  · rw [hpage] at hmapped
    obtain ⟨htp, l, q, hq, howner, hcovers, hne⟩ := hs.tagged t page p hmapped
    have hlk : l ≠ k := by
      rintro rfl
      rw [hr] at hq
      obtain rfl := Option.some.inj hq
      exact hne (howner ▸ hreserving)
    refine ⟨by rw [htable]; exact htp, l, q, (hkeep l hlk).trans hq, howner, hcovers, ?_⟩
    by_cases hp : p = r.owner
    · rw [hp, hnone]
      exact (Option.some_ne_none _).symm
    · rwa [hothers p hp]

/-- A range is entered under another key. -/
theorem Sound.move (hs : h.Sound) (hkl : k ≠ l) (hr : h.range k = some r) (hfree : h.range l = none) (hgone : h'.range k = none)
    (hnew : h'.range l = some r) (hkeep : ∀ m, m ≠ k → m ≠ l → h'.range m = h.range m) (hreserving : h'.reserving = h.reserving)
    (htable : h'.table = h.table) (hpage : h'.page = h.page) : h'.Sound := by
  have hold : ∀ m q, h'.range m = some q → ∃ n, h.range n = some q ∧ (m = l ∧ n = k ∨ m ≠ l ∧ m ≠ k ∧ n = m) := by
    intro m q hq
    by_cases hml : m = l
    · refine ⟨k, ?_, Or.inl ⟨hml, rfl⟩⟩
      rw [hml, hnew] at hq
      rw [hr, hq]
    · have hmk : m ≠ k := by
        rintro rfl
        rw [hgone] at hq
        exact Option.some_ne_none _ hq.symm
      exact ⟨m, (hkeep m hmk hml).symm.trans hq, Or.inr ⟨hml, hmk, rfl⟩⟩
  refine ⟨fun m q hq => ?_, fun m m' q q' hmm hq hq' => ?_, fun m q hq => ?_, fun t page p hmapped => ?_⟩
  · obtain ⟨n, hn, -⟩ := hold m q hq
    exact hs.nonempty n q hn
  · obtain ⟨n, hn, hcase⟩ := hold m q hq
    obtain ⟨n', hn', hcase'⟩ := hold m' q' hq'
    rw [htable]
    refine hs.apart n n' q q' ?_ hn hn'
    rcases hcase with ⟨rfl, rfl⟩ | ⟨hml, hmk, rfl⟩
    · rcases hcase' with ⟨rfl, rfl⟩ | ⟨_, hmk', rfl⟩
      · exact absurd rfl hmm
      · exact hmk'.symm
    · rcases hcase' with ⟨rfl, rfl⟩ | ⟨_, _, rfl⟩
      · exact hmk
      · exact hmm
  · obtain ⟨n, hn, -⟩ := hold m q hq
    rw [htable, hpage, hreserving]
    exact hs.mapped n q hn
  · rw [hpage] at hmapped
    obtain ⟨htp, m, q, hq, howner, hcovers, hne⟩ := hs.tagged t page p hmapped
    rw [htable, hreserving]
    by_cases hmk : m = k
    · rw [hmk, hr] at hq
      obtain rfl := Option.some.inj hq
      exact ⟨htp, l, r, hnew, howner, hcovers, hne⟩
    · have hml : m ≠ l := by
        rintro rfl
        rw [hfree] at hq
        exact Option.some_ne_none _ hq.symm
      exact ⟨htp, m, q, (hkeep m hmk hml).trans hq, howner, hcovers, hne⟩

/-- An owner gives up all its ranges; of the pages only those in them change, and none is left with its tag. -/
theorem Sound.release (hs : h.Sound) (gone : κ → Prop) (howner : ∀ k r, h.range k = some r → gone k → h.reserving r.owner ≠ some r.first → r.owner = p)
    (hold : ∀ k r, h'.range k = some r → h.range k = some r ∧ ¬ gone k) (hkeep : ∀ k r, h.range k = some r → ¬ gone k → h'.range k = some r)
    (hreserving : ∀ k r, h'.range k = some r → h'.reserving r.owner = h.reserving r.owner) (htable : h'.table = h.table)
    (hsub : ∀ t page x, h'.page t page = some x → h.page t page = some x)
    (hclear : ∀ k r, h.range k = some r → gone k → h.reserving r.owner ≠ some r.first → ∀ page, r.Covers page → h'.page (h.table p) page = none)
    (hout : ∀ t page, (∀ k r, h.range k = some r → gone k → t = h.table r.owner → ¬ r.Covers page) → h'.page t page = h.page t page) : h'.Sound := by
  refine ⟨fun l q hq => hs.nonempty l q (hold l q hq).1, fun l m q q' hlm hq hq' => ?_, fun l q hq hne page hcovers => ?_, fun t page x hmapped => ?_⟩
  · rw [htable]
    exact hs.apart l m q q' hlm (hold l q hq).1 (hold m q' hq').1
  · obtain ⟨hq', hstays⟩ := hold l q hq
    rw [hreserving l q hq] at hne
    rw [htable, hout, hs.mapped l q hq' hne page hcovers]
    intro k r hr hgone hsame
    exact fun hboth => hs.apart l k q r (fun heq => hstays (heq ▸ hgone)) hq' hr hsame page hcovers hboth
  · obtain ⟨htx, l, q, hq, hqx, hcovers, hne⟩ := hs.tagged t page x (hsub t page x hmapped)
    have hstays : ¬ gone l := by
      intro hgone
      have hqp := howner l q hq hgone (hqx ▸ hne)
      have hnone := hclear l q hq hgone (hqx ▸ hne) page hcovers
      rw [← hqp, hqx, ← htx, hmapped] at hnone
      exact Option.some_ne_none _ hnone
    have hq' := hkeep l q hq hstays
    refine ⟨by rw [htable]; exact htx, l, q, hq', hqx, hcovers, ?_⟩
    have hsame := hreserving l q hq'
    rw [hqx] at hsame
    rwa [hsame]

/-- An owner without ranges gets another table, or begins again. -/
theorem Sound.enroll (hs : h.Sound) (hnone : ∀ k r, h.range k = some r → r.owner ≠ p) (hrange : h'.range = h.range)
    (hreserving : ∀ q, q ≠ p → h'.reserving q = h.reserving q) (htable : ∀ q, q ≠ p → h'.table q = h.table q) (hpage : h'.page = h.page) :
    h'.Sound := by
  refine ⟨by rw [hrange]; exact hs.nonempty, fun l m q q' hlm hq hq' => ?_, fun l q hq => ?_, fun t page x hmapped => ?_⟩
  · rw [hrange] at hq hq'
    rw [htable _ (hnone l q hq), htable _ (hnone m q' hq')]
    exact hs.apart l m q q' hlm hq hq'
  · rw [hrange] at hq
    rw [hreserving _ (hnone l q hq), htable _ (hnone l q hq), hpage]
    exact hs.mapped l q hq
  · rw [hpage] at hmapped
    obtain ⟨htx, l, q, hq, hqx, hcovers, hne⟩ := hs.tagged t page x hmapped
    have hx : x ≠ p := hqx ▸ hnone l q hq
    rw [htable x hx, hreserving x hx]
    exact ⟨htx, l, q, by rw [hrange]; exact hq, hqx, hcovers, hne⟩

end Holdings

end Lib
