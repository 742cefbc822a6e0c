import Tsukasa.Mm.MapExact

/-!
# A mapping that fails

When `vmm_map_pages` meets a page that is mapped already, or finds no frame for a table, it unmaps the pages it has mapped so far. The unmapping checks and walks the range again, in the tree as it is then; since every page mapped so far is present in it, the unmapping always goes through, and it touches no other page.
-/

namespace Tsukasa

open Lib.Radix

namespace Vmm

variable {root : Nat} {v v₀ v' : Vmm} {va count : Nat}

/-- The entry says that the page is mapped. -/
def Mapped (v : Vmm) (root va : Nat) : Prop := v.pageEntry root va &&& ptePresent ≠ 0#64

theorem Mapped.table {page : Nat} (h : v.Mapped root page) :
    ∃ pt, v.tableAt root (pathOf page) = some pt ∧ v.tables pt (ptIdx page) = v.pageEntry root page := by
  rw [Mapped, pageEntry, pteAt] at h
  cases htable : v.tableAt root (pathOf page) with
  | none => simp [htable] at h
  | some pt => exact ⟨pt, rfl, by simp only [pageEntry, pteAt, htable]⟩

theorem mapped_iff_query (hinv : v.pmm.Inv) (htree : v.UserTree root) {page : Nat} (hpage : UserPage page) :
    v.Mapped root page ↔ (vmmQueryPage v root page).isSome := by
  rw [vmmQueryPage_user hinv htree hpage, Option.isSome_iff_ne_none, ne_eq, decodePte_eq_none]
  rfl

section Unmap

variable (hrange : UserRange va count)
include hrange

/-- The first loop of `vmm_unmap_pages` finds every page mapped. -/
theorem queryLoop_mapped (hinv : v.pmm.Inv) (htree : v.UserTree root) (remaining i : Nat) (hbound : i + remaining ≤ count)
    (hmapped : ∀ k, i ≤ k → k < i + remaining → v.Mapped root (va + k * 4096)) : queryLoop v root va remaining i = true := by
  induction remaining generalizing i with
  | zero => rfl
  | succ remaining ih =>
      have hsome := (mapped_iff_query hinv htree (hrange.userPage (show i < count by omega))).mp (hmapped i (Nat.le_refl i) (by omega))
      rw [queryLoop, hrange.pageAt_eq (by omega), Option.isNone_eq_false_iff.mpr hsome]
      exact ih (i + 1) (by omega) fun k hle hlt => hmapped k (by omega) (by omega)

/-- The second loop finds the page table of every page. -/
theorem unmapLoop_mapped (hinv : v.pmm.Inv) (htree : v.UserTree root) (remaining i : Nat) (hbound : i + remaining ≤ count)
    (hmapped : ∀ k, i ≤ k → k < i + remaining → v.Mapped root (va + k * 4096)) : (unmapLoop root va true remaining i v).1 = 0 := by
  induction remaining generalizing i v with
  | zero => rfl
  | succ remaining ih =>
      have hpage := hrange.userPage (show i < count by omega)
      obtain ⟨pt, htable, -⟩ := (hmapped i (Nat.le_refl i) (by omega)).table
      have hstep := leaf_userStep (ptIdx (va + i * 4096)) 0#64 hinv htree (pathOf_mem_userPath hpage.lt) rfl htable
      simp only [unmapLoop, hrange.pageAt_eq (show i ≤ count by omega), walkToPt_read_user hinv htree hpage.lt, htable]
      refine ih hstep.inv hstep.tree (i + 1) (by omega) fun k hle hlt => ?_
      rw [Mapped, leaf_pageEntry htree hpage (hrange.userPage (by omega)) htable, if_neg (by omega)]
      exact hmapped k (by omega) (by omega)

theorem validateSpan_first {n : Nat} (hpos : 0 < n) (hn : n ≤ count) :
    validateSpan va none n = true ∧ pagingRangeIsUser va (wrap64 (n * pageSize)) = true := by
  have hle : n * 4096 ≤ count * 4096 := Nat.mul_le_mul_right _ hn
  have hhi := hrange.hi
  have hlo := hrange.lo
  simp only [pagingUserVaMax] at hhi
  have hspan : n * pageSize < 2 ^ 64 := by
    rw [pageSize]
    omega
  have huser : pagingRangeIsUser va (n * pageSize) = true := by
    rw [pagingRangeIsUser_iff (by omega) hspan]
    simp only [pageSize, pagingUserVaMax]
    omega
  rw [validateSpan, wrap64_of_lt hspan, huser, (pagingIsPageAligned_iff va).mpr hrange.aligned, if_neg (by omega)]
  have hne : ¬n * pageSize = 0 := by
    rw [pageSize]
    omega
  simp [hne, huser]

/-- The pages of the range are unmapped again, and no other page is. -/
theorem vmmUnmapPages_mapped (hcount : count < 2 ^ 52) (hinv : v.pmm.Inv) (htree : v.UserTree root) {n : Nat} (hpos : 0 < n) (hn : n ≤ count)
    (hmapped : ∀ k < n, v.Mapped root (va + k * 4096)) : RangeWritten root va 0 n (fun _ => 0#64) v (vmmUnmapPages v root va n).2 := by
  refine ((vmmUnmapPages_range hrange hcount hinv htree hn).2 ?_).2
  obtain ⟨hvalid, huser⟩ := validateSpan_first hrange hpos hn
  have hquery := queryLoop_mapped hrange hinv htree n 0 (by omega) fun k _ hlt => hmapped k (by omega)
  rw [vmmUnmapPages, if_neg htree.root_taken.ne_zero, hvalid, hquery, huser]
  exact unmapLoop_mapped hrange hinv htree n 0 (by omega) fun k _ hlt => hmapped k (by omega)

end Unmap

/-! ### The loop -/

/-- The first `i` pages of the range, none of them mapped in `v₀`, are mapped in `v`, and no other page has changed. -/
structure Attempted (root va i : Nat) (v₀ v : Vmm) : Prop where
  fresh : ∀ k < i, ¬v₀.Mapped root (va + k * 4096)
  mapped : ∀ k < i, v.Mapped root (va + k * 4096)
  outside : ∀ page, UserPage page → (∀ k < i, page ≠ va + k * 4096) → v.pageEntry root page = v₀.pageEntry root page

theorem Attempted.refl : Attempted root va 0 v v :=
  ⟨fun _ hk => absurd hk (Nat.not_lt_zero _), fun _ hk => absurd hk (Nat.not_lt_zero _), fun _ _ _ => rfl⟩

/-- What the rollback leaves: what is mapped is what was mapped. -/
def SameMapping (root : Nat) (v v' : Vmm) : Prop :=
  ∀ page, UserPage page → decodePte (v'.pageEntry root page) = decodePte (v.pageEntry root page)

section Map

variable (hrange : UserRange va count) (hcount : count < 2 ^ 52)
include hrange hcount

theorem Attempted.rollback {i : Nat} (h : Attempted root va i v₀ v) (hi : i ≤ count) (hinv : v.pmm.Inv) (htree : v.UserTree root) :
    SameMapping root v₀ (if 0 < i then (vmmUnmapPages v root va i).2 else v) := by
  intro page hpage
  split
  · next hpos =>
      have hwritten := vmmUnmapPages_mapped hrange hcount hinv htree hpos hi h.mapped
      by_cases hin : ∃ k < i, page = va + k * 4096
      · obtain ⟨k, hk, rfl⟩ := hin
        rw [hwritten.inside k (Nat.zero_le k) (by omega), decodePte_eq_none.mpr (not_not.mp (h.fresh k hk))]
        rfl
      · have hout : ∀ k < i, page ≠ va + k * 4096 := fun k hk heq => hin ⟨k, hk, heq⟩
        rw [hwritten.outside page hpage fun k _ hk => hout k (by omega), h.outside page hpage hout]
  · next hzero => rw [h.outside page hpage fun k hk => absurd hk (by omega)]

/-- Wherever the loop fails, what is mapped is what was mapped before it. -/
theorem mapLoop_fails (pa : Nat) (pteFlags : BitVec 64) (remaining i : Nat) (hbound : i + remaining ≤ count) (hinv : v.pmm.Inv)
    (htree : v.UserTree root) (hattempted : Attempted root va i v₀ v) (hfail : (mapLoop root va pa pteFlags true remaining i v).1 ≠ 0) :
    SameMapping root v₀ (mapLoop root va pa pteFlags true remaining i v).2 := by
  induction remaining generalizing i v with
  | zero => exact absurd rfl hfail
  | succ remaining ih =>
      have hpage := hrange.userPage (show i < count by omega)
      obtain ⟨hwalk, hsame, htable⟩ := walkToPt_create hinv htree hpage.lt
      simp only [mapLoop, hrange.pageAt_eq (show i ≤ count by omega)] at hfail ⊢
      rcases hres : walkToPt v root (va + i * 4096) true true with ⟨_ | pt, w⟩ <;> rw [hres] at hwalk hsame htable
      all_goals
        -- the walk may have added tables, but no page
        have hgrown : Attempted root va i v₀ w := by
          refine ⟨hattempted.fresh, fun k hk => ?_, fun page hpage' hout => ?_⟩
          · rw [Mapped, hsame.pageEntry_eq (hrange.userPage (by omega))]
            exact hattempted.mapped k hk
          · rw [hsame.pageEntry_eq hpage', hattempted.outside page hpage' hout]
      · exact hgrown.rollback hrange hcount (by omega) hwalk.inv hwalk.tree
      · have htable' := htable pt rfl
        have hentry : w.tables pt (ptIdx (va + i * 4096)) = w.pageEntry root (va + i * 4096) := by
          simp only [pageEntry, pteAt, htable']
        simp only [hres] at hfail ⊢
        split
        · exact hgrown.rollback hrange hcount (by omega) hwalk.inv hwalk.tree
        · next habsent =>
            rw [if_neg habsent] at hfail
            rw [hentry, hgrown.outside _ hpage fun k hk => by omega] at habsent
            have hstep := leaf_userStep (ptIdx (va + i * 4096))
              (BitVec.ofNat 64 (pageAt pa i) &&& vmmAddrMask ||| pteFlags ||| ptePresent) hwalk.inv hwalk.tree
              (pathOf_mem_userPath hpage.lt) rfl htable'
            refine ih (i + 1) (by omega) hstep.inv hstep.tree ⟨fun k hk => ?_, fun k hk => ?_, fun page hpage' hout => ?_⟩ hfail
            · rcases Nat.lt_succ_iff_lt_or_eq.mp hk with hlt | rfl
              · exact hattempted.fresh k hlt
              · exact habsent
            · rw [Mapped, leaf_pageEntry hwalk.tree hpage (hrange.userPage (by omega)) htable']
              rcases Nat.lt_succ_iff_lt_or_eq.mp hk with hlt | rfl
              · rw [if_neg (by omega)]
                exact hgrown.mapped k hlt
              · rw [if_pos rfl]
                exact or_and_ne_zero (by decide)
            · rw [leaf_pageEntry hwalk.tree hpage hpage' htable', if_neg (hout i (by omega))]
              exact hgrown.outside page hpage' fun k hk => hout k (by omega)

end Map

/-- A call that is not for the kernel half and fails leaves every user page as it was. -/
theorem vmmMapPages_fails (hva : va < 2 ^ 64) (hcount : count < 2 ^ 52) (hkernel : pagingRangeIsKernel va (wrap64 (count * pageSize)) = false)
    (hinv : v.pmm.Inv) (htree : v.UserTree root) {pa : Nat} {flags : BitVec 64} (hfail : (vmmMapPages v root va pa count flags).1 ≠ 0) :
    UserStep root v (vmmMapPages v root va pa count flags).2 ∧ SameMapping root v (vmmMapPages v root va pa count flags).2 := by
  refine ⟨(vmmMapPages_spec hva hcount hkernel hinv htree pa flags).1, ?_⟩
  rcases vmmMapPages_cases hva hcount hkernel htree pa flags with hrefused | ⟨hrange, -, hloop⟩
  · rw [hrefused]
    exact fun _ _ => rfl
  · rw [hloop] at hfail ⊢
    exact mapLoop_fails hrange hcount pa _ count 0 (by omega) hinv htree Attempted.refl hfail

/-- What the queries say of an address space whose user pages are as they were. -/
theorem SameMapping.query_eq (hsame : SameMapping root v v') (hinv : v.pmm.Inv) (htree : v.UserTree root) (hstep : UserStep root v v') {page : Nat}
    (hlt : page < 2 ^ 64) (hapart : KernelPage page → v.WalkApart root page) : vmmQueryPage v' root page = vmmQueryPage v root page := by
  by_cases hpage : UserPage page
  · rw [vmmQueryPage_user hstep.inv hstep.tree hpage, vmmQueryPage_user hinv htree hpage]
    exact hsame page hpage
  · exact hstep.query_eq hinv htree hlt (fun huser => absurd huser hpage) hapart

end Vmm

open Vmm

/-- A `vmm_map_pages` outside the kernel half that fails changes the mapping of no page, as far as the user half and the kernel pages walked apart from it go. -/
theorem vmm_map_fail_no_effect (v : Vmm) (root va pa count : Nat) (flags : BitVec 64) (hinv : v.pmm.Inv) (htree : v.UserTree root)
    (hva : va < 2 ^ 64) (hcount : count < 2 ^ 52) (hkernel : pagingRangeIsKernel va (wrap64 (count * pageSize)) = false)
    (hfail : (vmmMapPages v root va pa count flags).1 = -1) :
    ∀ page < 2 ^ 64, (KernelPage page → v.WalkApart root page) →
      vmmQueryPage (vmmMapPages v root va pa count flags).2 root page = vmmQueryPage v root page := by
  intro page hlt hapart
  obtain ⟨hstep, hsame⟩ := vmmMapPages_fails hva hcount hkernel hinv htree (by rw [hfail]; decide)
  exact hsame.query_eq hinv htree hstep hlt hapart

/-- The space of `aliasedSpace` with the second page of its window mapped. -/
def secondMapped : Vmm := (vmmMapPages aliasedSpace 0x1000 0x101000 0x200000 1 (pagingMapRead ||| pagingMapUser)).2

/-- Mapping both pages fails at the second one, and the first is unmapped again. -/
theorem vmm_map_fail_no_effect_second :
    vmmQueryPage (vmmMapPages secondMapped 0x1000 0x100000 0x300000 2 (pagingMapRead ||| pagingMapUser)).2 0x1000 0x100000 =
      vmmQueryPage secondMapped 0x1000 0x100000 := by
  have hpage : UserPage 0x100000 := ⟨by decide, by decide, by decide⟩
  have hstep := (@vmmMapPages_spec 0x1000 aliasedSpace 0x101000 1 (by decide) (by decide) (by decide)
    aliasedSpace_inv aliasedSpace_userTree 0x200000 (pagingMapRead ||| pagingMapUser)).1
  exact vmm_map_fail_no_effect secondMapped 0x1000 0x100000 0x300000 2 (pagingMapRead ||| pagingMapUser) hstep.inv hstep.tree (by decide)
    (by decide) (by decide) (by decide) 0x100000 (by decide) fun hkernel => absurd hpage hkernel.not_userPage

end Tsukasa
