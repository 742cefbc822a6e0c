import Tsukasa.Mm.Walk

/-!
# Mapping, unmapping and protecting a user range

Each loop of `mm/vmm_x64.c` goes over the pages of a range and writes one entry of each. Run on a well-formed user half, a loop that succeeds has written exactly the entries of its range, and one that fails has still kept the tree.
-/

namespace Tsukasa

open Lib.Radix

theorem pageAt_of_lt {va i : Nat} (h : va + i * 4096 < 2 ^ 64) : pageAt va i = va + i * 4096 := by
  rw [pageAt, pageSize, wrap64_of_lt (show i * 4096 < 2 ^ 64 by omega), wrap64_of_lt h]

/-- An aligned range of the user window. -/
structure UserRange (va count : Nat) : Prop where
  aligned : va % 4096 = 0
  lo : pagingUserVaMin ≤ va
  hi : va + count * 4096 ≤ pagingUserVaMax

namespace UserRange

variable {va count : Nat}

theorem pageAt_eq (hrange : UserRange va count) {i : Nat} (hi : i ≤ count) : pageAt va i = va + i * 4096 := by
  have hhi := hrange.hi
  have : i * 4096 ≤ count * 4096 := Nat.mul_le_mul_right _ hi
  simp only [pagingUserVaMax] at hhi
  exact pageAt_of_lt (by omega)

theorem userPage (hrange : UserRange va count) {i : Nat} (hi : i < count) : Vmm.UserPage (va + i * 4096) := by
  have hhi := hrange.hi
  have haligned := hrange.aligned
  have hlo := hrange.lo
  have : (i + 1) * 4096 ≤ count * 4096 := Nat.mul_le_mul_right _ hi
  exact ⟨by omega, by omega, by omega⟩

end UserRange

/-- A span that passes `validate_span` and is no kernel range is a user range. -/
theorem userRange_of_validateSpan {va count : Nat} {phys : Option Nat} (hva : va < 2 ^ 64) (hcount : count < 2 ^ 52)
    (hkernel : pagingRangeIsKernel va (wrap64 (count * pageSize)) = false) (h : validateSpan va phys count = true) :
    UserRange va count ∧ pagingRangeIsUser va (wrap64 (count * pageSize)) = true := by
  have hspan : count * pageSize < 2 ^ 64 := by simp only [pageSize]; omega
  rw [wrap64_of_lt hspan] at hkernel ⊢
  by_cases haligned : pagingIsPageAligned va = true
  · have huser : pagingRangeIsUser va (count * pageSize) = true := by
      simp only [validateSpan, wrap64_of_lt hspan, hkernel, Bool.or_false] at h
      split_ifs at h
      exact h
    refine ⟨?_, huser⟩
    rw [pagingRangeIsUser_iff hva hspan] at huser
    have hmod := (pagingIsPageAligned_iff va).mp haligned
    obtain ⟨-, hlo, hhi⟩ := huser
    simp only [pageSize, pagingUserVaMax] at hhi
    exact ⟨hmod, hlo, by simp only [pagingUserVaMax]; omega⟩
  · simp [validateSpan, haligned] at h

namespace Vmm

/-- The page-table entry of a page. -/
def pageEntry (v : Vmm) (root va : Nat) : BitVec 64 := v.pteAt root (pathOf va) (ptIdx va)

variable {root : Nat} {v v' v'' : Vmm}

theorem SamePtes.pageEntry_eq (h : SamePtes root v v') {page : Nat} (hpage : UserPage page) :
    v'.pageEntry root page = v.pageEntry root page :=
  h (pathOf page) (pathOf_mem_userPath hpage.lt) rfl (ptIdx page)

/-- Writing the entry of one page changes the entry of no other page. -/
theorem leaf_pageEntry (htree : v.UserTree root) {va page pt : Nat} {entry : BitVec 64} (hva : UserPage va) (hpage : UserPage page)
    (htable : v.tableAt root (pathOf va) = some pt) :
    (v.setEntry pt (ptIdx va) entry).pageEntry root page = if page = va then entry else v.pageEntry root page := by
  rw [pageEntry, leaf_pteAt htree (pathOf_mem_userPath hva.lt) rfl htable (pathOf_mem_userPath hpage.lt), pageEntry]
  by_cases heq : page = va
  · simp [heq]
  · rw [if_neg heq, if_neg]
    rintro ⟨hpath, hidx⟩
    exact heq (page_ext hpage.lt hva.lt hpage.1 hva.1 hpath hidx)

/-- From `v` to `v'` the entries of the pages `i, …, i + n - 1` of a range have been written, and those of no other page. -/
structure RangeWritten (root va i n : Nat) (entry : Nat → BitVec 64) (v v' : Vmm) : Prop where
  inside : ∀ k, i ≤ k → k < i + n → v'.pageEntry root (va + k * 4096) = entry k
  outside : ∀ page, UserPage page → (∀ k, i ≤ k → k < i + n → page ≠ va + k * 4096) →
    v'.pageEntry root page = v.pageEntry root page

theorem RangeWritten.refl {va i : Nat} {entry : Nat → BitVec 64} : RangeWritten root va i 0 entry v v :=
  ⟨fun k hle hlt => by omega, fun _ _ _ => rfl⟩

/-- One page written, then the pages after it. -/
theorem RangeWritten.cons {va i n : Nat} {entry : Nat → BitVec 64} (hpage : UserPage (va + i * 4096))
    (hhead : ∀ page, UserPage page →
      v'.pageEntry root page = if page = va + i * 4096 then entry i else v.pageEntry root page)
    (htail : RangeWritten root va (i + 1) n entry v' v'') : RangeWritten root va i (n + 1) entry v v'' where
  inside k hle hlt := by
    rcases Nat.eq_or_lt_of_le hle with rfl | hgt
    · rw [htail.outside _ hpage fun k hk _ => by omega, hhead _ hpage, if_pos rfl]
    · exact htail.inside k hgt (by omega)
  outside page hpage' hne := by
    rw [htail.outside page hpage' fun k hk hlt => hne k (by omega) (by omega), hhead page hpage',
      if_neg (hne i le_rfl (by omega))]

section Loops

variable {va count : Nat} (hrange : UserRange va count)
include hrange

/-- The entries `vmm_unmap_pages` writes are 0. -/
theorem unmapLoop_spec (remaining i : Nat) (hbound : i + remaining ≤ count) (hinv : v.pmm.Inv) (htree : v.UserTree root) :
    UserStep root v (unmapLoop root va true remaining i v).2 ∧
      ((unmapLoop root va true remaining i v).1 = 0 →
        RangeWritten root va i remaining (fun _ => 0#64) v (unmapLoop root va true remaining i v).2) := by
  induction remaining generalizing i v with
  | zero => exact ⟨UserStep.refl hinv htree, fun _ => RangeWritten.refl⟩
  | succ remaining ih =>
      have hpage := hrange.userPage (show i < count by omega)
      simp only [unmapLoop, hrange.pageAt_eq (show i ≤ count by omega), walkToPt_read_user hinv htree hpage.lt]
      cases htable : v.tableAt root (pathOf (va + i * 4096)) with
      | none => exact ⟨UserStep.refl hinv htree, fun h => by simp at h⟩
      | some pt =>
          have hstep := leaf_userStep (ptIdx (va + i * 4096)) 0#64 hinv htree
            (pathOf_mem_userPath hpage.lt) rfl htable
          obtain ⟨hrest, hwritten⟩ := ih (i + 1) (by omega) hstep.inv hstep.tree
          exact ⟨hstep.trans hrest, fun h =>
            (hwritten h).cons hpage fun page hpage' => leaf_pageEntry htree hpage hpage' htable⟩

/-- The entries `vmm_protect_pages` writes keep the address and replace the flags. -/
theorem protectLoop_spec (pteFlags : BitVec 64) (remaining i : Nat) (hbound : i + remaining ≤ count) (hinv : v.pmm.Inv)
    (htree : v.UserTree root) :
    UserStep root v (protectLoop root va pteFlags true remaining i v).2 ∧
      ((protectLoop root va pteFlags true remaining i v).1 = 0 →
        RangeWritten root va i remaining
          (fun k => v.pageEntry root (va + k * 4096) &&& vmmAddrMask ||| pteFlags ||| ptePresent) v
          (protectLoop root va pteFlags true remaining i v).2) := by
  induction remaining generalizing i v with
  | zero => exact ⟨UserStep.refl hinv htree, fun _ => RangeWritten.refl⟩
  | succ remaining ih =>
      have hpage := hrange.userPage (show i < count by omega)
      simp only [protectLoop, hrange.pageAt_eq (show i ≤ count by omega), walkToPt_read_user hinv htree hpage.lt]
      cases htable : v.tableAt root (pathOf (va + i * 4096)) with
      | none => exact ⟨UserStep.refl hinv htree, fun h => by simp at h⟩
      | some pt =>
          have hentry : v.tables pt (ptIdx (va + i * 4096)) = v.pageEntry root (va + i * 4096) := by
            simp only [pageEntry, pteAt, htable]
          simp only [hentry]
          split
          · exact ⟨UserStep.refl hinv htree, fun h => by simp at h⟩
          · have hstep := leaf_userStep (ptIdx (va + i * 4096))
              (v.pageEntry root (va + i * 4096) &&& vmmAddrMask ||| pteFlags ||| ptePresent) hinv htree
              (pathOf_mem_userPath hpage.lt) rfl htable
            obtain ⟨hrest, hwritten⟩ := ih (i + 1) (by omega) hstep.inv hstep.tree
            refine ⟨hstep.trans hrest, fun h => RangeWritten.cons hpage
              (fun page hpage' => leaf_pageEntry htree hpage hpage' htable) ⟨fun k hle hlt => ?_, (hwritten h).outside⟩⟩
            rw [(hwritten h).inside k hle hlt, leaf_pageEntry htree hpage (hrange.userPage (by omega)) htable,
              if_neg (by omega)]

/-- The first loop of `vmm_unmap_pages` passes only when every page is mapped. -/
theorem queryLoop_isSome {remaining i : Nat} (hbound : i + remaining ≤ count) (hloop : queryLoop v root va remaining i = true) :
    ∀ k, i ≤ k → k < i + remaining → (vmmQueryPage v root (va + k * 4096)).isSome := by
  induction remaining generalizing i with
  | zero => intro k hle hlt; omega
  | succ remaining ih =>
      intro k hle hlt
      rw [queryLoop, hrange.pageAt_eq (by omega)] at hloop
      split at hloop
      · simp at hloop
      · rename_i hsome
        rcases Nat.eq_or_lt_of_le hle with rfl | hgt
        · exact Option.isSome_iff_ne_none.mpr (by simpa using hsome)
        · exact ih (by omega) hloop k hgt (by omega)

/-- Every call of `vmm_unmap_pages` on the range, as the rollback of `vmm_map_pages` makes it, keeps the tree. -/
theorem vmmUnmapPages_range (hcount : count < 2 ^ 52) (hinv : v.pmm.Inv) (htree : v.UserTree root) {n : Nat} (hn : n ≤ count) :
    UserStep root v (vmmUnmapPages v root va n).2 ∧
      ((vmmUnmapPages v root va n).1 = 0 →
        (∀ i < n, (vmmQueryPage v root (va + i * 4096)).isSome) ∧
          RangeWritten root va 0 n (fun _ => 0#64) v (vmmUnmapPages v root va n).2) := by
  have hsub : UserRange va n :=
    ⟨hrange.aligned, hrange.lo, le_trans (Nat.add_le_add_left (Nat.mul_le_mul_right _ hn) _) hrange.hi⟩
  have hhi := hsub.hi
  have hspan : n * pageSize < 2 ^ 64 := by simp only [pageSize]; omega
  have hrefl := UserStep.refl hinv htree
  simp only [vmmUnmapPages, if_neg htree.root_taken.ne_zero]
  by_cases hvalid : validateSpan va none n = true
  · simp only [hvalid, Bool.not_true, Bool.false_eq_true, if_false]
    by_cases hloop : queryLoop v root va n 0 = true
    · simp only [hloop, Bool.not_true, Bool.false_eq_true, if_false]
      have huser : pagingRangeIsUser va (wrap64 (n * pageSize)) = true := by
        have hzero : n ≠ 0 := by
          rintro rfl
          simp [validateSpan] at hvalid
        rw [wrap64_of_lt hspan, pagingRangeIsUser_iff (by simp only [pagingUserVaMax] at hhi; omega) hspan]
        exact ⟨by simp only [pageSize]; omega, hsub.lo, by simp only [pageSize]; omega⟩
      rw [huser]
      obtain ⟨hstep, hwritten⟩ := unmapLoop_spec hsub n 0 (by omega) hinv htree
      exact ⟨hstep, fun h => ⟨fun i hi => queryLoop_isSome hsub (by omega) hloop i (by omega) (by omega), hwritten h⟩⟩
    · simp only [hloop, Bool.not_false, if_true]
      exact ⟨hrefl, fun h => by simp at h⟩
  · simp only [hvalid, Bool.not_false, if_true]
    exact ⟨hrefl, fun h => by simp at h⟩

/-- The entries `vmm_map_pages` writes hold the address and the flags of their pages. -/
theorem mapLoop_spec (hcount : count < 2 ^ 52) (pa : Nat) (pteFlags : BitVec 64) (remaining i : Nat) (hbound : i + remaining ≤ count)
    (hinv : v.pmm.Inv) (htree : v.UserTree root) :
    UserStep root v (mapLoop root va pa pteFlags true remaining i v).2 ∧
      ((mapLoop root va pa pteFlags true remaining i v).1 = 0 →
        RangeWritten root va i remaining
          (fun k => BitVec.ofNat 64 (pageAt pa k) &&& vmmAddrMask ||| pteFlags ||| ptePresent) v
          (mapLoop root va pa pteFlags true remaining i v).2) := by
  induction remaining generalizing i v with
  | zero => exact ⟨UserStep.refl hinv htree, fun _ => RangeWritten.refl⟩
  | succ remaining ih =>
      have hpage := hrange.userPage (show i < count by omega)
      obtain ⟨hwalk, hsame, htable⟩ := walkToPt_create hinv htree hpage.lt
      simp only [mapLoop, hrange.pageAt_eq (show i ≤ count by omega)]
      -- a failure leaves the grown tree, with the pages before it unmapped again
      have hrollback : ∀ w : Vmm, UserStep root v w → UserStep root v (if 0 < i then (vmmUnmapPages w root va i).2 else w) := by
        intro w hw
        split
        · exact hw.trans (vmmUnmapPages_range hrange hcount hw.inv hw.tree (by omega)).1
        · exact hw
      rcases hres : walkToPt v root (va + i * 4096) true true with ⟨_ | pt, w⟩ <;> rw [hres] at hwalk hsame htable
      · exact ⟨hrollback w hwalk, fun h => by simp at h⟩
      · simp only
        split
        · exact ⟨hrollback w hwalk, fun h => by simp at h⟩
        · have htable' := htable pt rfl
          have hstep := leaf_userStep (ptIdx (va + i * 4096))
            (BitVec.ofNat 64 (pageAt pa i) &&& vmmAddrMask ||| pteFlags ||| ptePresent) hwalk.inv hwalk.tree
            (pathOf_mem_userPath hpage.lt) rfl htable'
          obtain ⟨hrest, hwritten⟩ := ih (i + 1) (by omega) hstep.inv hstep.tree
          refine ⟨hwalk.trans (hstep.trans hrest), fun h => (hwritten h).cons hpage fun page hpage' => ?_⟩
          rw [leaf_pageEntry hwalk.tree hpage hpage' htable']
          exact if_congr Iff.rfl rfl (hsame.pageEntry_eq hpage')

end Loops

/-! ### The calls -/

section Calls

variable {va count : Nat} (hva : va < 2 ^ 64) (hcount : count < 2 ^ 52)
  (hkernel : pagingRangeIsKernel va (wrap64 (count * pageSize)) = false) (hinv : v.pmm.Inv) (htree : v.UserTree root)
include hva hcount hkernel hinv htree

omit hinv in
/-- A request that is not for the kernel half is refused, or runs the loop in user mode. -/
theorem vmmMapPages_cases (pa : Nat) (flags : BitVec 64) :
    vmmMapPages v root va pa count flags = (-1, v) ∨ UserRange va count ∧ pa % 4096 = 0 ∧
      vmmMapPages v root va pa count flags = mapLoop root va pa (pteFlagsFromMap flags) true count 0 v := by
  simp only [vmmMapPages, if_neg htree.root_taken.ne_zero]
  by_cases hvalid : validateMapRequest va pa count flags = true
  · have hspan : validateSpan va (some pa) count = true := by
      simp only [validateMapRequest] at hvalid
      by_contra hcon
      simp [hcon] at hvalid
    obtain ⟨hrange, huser⟩ := userRange_of_validateSpan hva hcount hkernel hspan
    have haligned : pa % 4096 = 0 := by
      rw [← pagingIsPageAligned_iff]
      by_contra hcon
      simp [validateSpan, hcon] at hspan
    have hflag : decide (flags &&& pagingMapUser ≠ 0) = true := by
      simp only [validateMapRequest, hspan, huser] at hvalid
      by_contra hcon
      simp only [ne_eq, decide_not, Bool.not_eq_true', decide_eq_false_iff_not, not_not] at hcon
      simp [hcon] at hvalid
    simp only [hvalid, hflag, Bool.not_true, Bool.false_eq_true, if_false]
    exact Or.inr ⟨hrange, haligned, trivial⟩
  · simp only [hvalid, Bool.not_false, if_true]
    exact Or.inl trivial

theorem vmmMapPages_spec (pa : Nat) (flags : BitVec 64) :
    UserStep root v (vmmMapPages v root va pa count flags).2 ∧
      ((vmmMapPages v root va pa count flags).1 = 0 → UserRange va count ∧ pa % 4096 = 0 ∧
        RangeWritten root va 0 count
          (fun k => BitVec.ofNat 64 (pageAt pa k) &&& vmmAddrMask ||| pteFlagsFromMap flags ||| ptePresent) v
          (vmmMapPages v root va pa count flags).2) := by
  rcases vmmMapPages_cases hva hcount hkernel htree pa flags with hrefused | ⟨hrange, haligned, hloop⟩
  · rw [hrefused]
    exact ⟨UserStep.refl hinv htree, fun h => by simp at h⟩
  · rw [hloop]
    obtain ⟨hstep, hwritten⟩ := mapLoop_spec hrange hcount pa (pteFlagsFromMap flags) count 0 (by omega) hinv htree
    exact ⟨hstep, fun h => ⟨hrange, haligned, hwritten h⟩⟩

theorem vmmUnmapPages_spec :
    UserStep root v (vmmUnmapPages v root va count).2 ∧
      ((vmmUnmapPages v root va count).1 = 0 → UserRange va count ∧
        (∀ i < count, (vmmQueryPage v root (va + i * 4096)).isSome) ∧
          RangeWritten root va 0 count (fun _ => 0#64) v (vmmUnmapPages v root va count).2) := by
  by_cases hvalid : validateSpan va none count = true
  · obtain ⟨hrange, -⟩ := userRange_of_validateSpan hva hcount hkernel hvalid
    obtain ⟨hstep, hwritten⟩ := vmmUnmapPages_range hrange hcount hinv htree le_rfl
    exact ⟨hstep, fun h => ⟨hrange, hwritten h⟩⟩
  · simp only [vmmUnmapPages, if_neg htree.root_taken.ne_zero, hvalid, Bool.not_false, if_true]
    exact ⟨UserStep.refl hinv htree, fun h => by simp at h⟩

theorem vmmProtectPages_spec (flags : BitVec 64) : UserStep root v (vmmProtectPages v root va count flags).2 := by
  have hrefl := UserStep.refl hinv htree
  simp only [vmmProtectPages, if_neg htree.root_taken.ne_zero]
  split
  · exact hrefl
  split
  · exact hrefl
  split
  · exact hrefl
  split
  · exact hrefl
  rename_i hvalid huser hker
  have hflag : decide (flags &&& pagingMapUser ≠ 0) = true := by
    simpa [hkernel] using hker
  have hspan : validateSpan va none count = true := by simpa using hvalid
  rw [hflag]
  exact (protectLoop_spec (userRange_of_validateSpan hva hcount hkernel hspan).1 _ _ _ (by omega) hinv htree).1

end Calls

end Vmm

end Tsukasa
