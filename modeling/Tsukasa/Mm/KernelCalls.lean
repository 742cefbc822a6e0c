import Tsukasa.Mm.KernelHalf

/-!
# Calls on kernel ranges

What `vmm_map_pages`, `vmm_unmap_pages` and `vmm_map_io_region` do to the kernel half, whether they succeed or fail: one step lemma for each loop, and one for each call.
-/

namespace Tsukasa

namespace Vmm

variable {roots : List Nat} {root : Nat} {slots : Set Nat} {v : Vmm}

section Loops

variable {va count : Nat} (hrange : KernelRange va count) (hroot : root ∈ roots)
include hrange hroot

theorem unmapLoop_kernel (remaining i : Nat) (hbound : i + remaining ≤ count) (htree : v.KernelTree roots) :
    KernelStep roots root slots v (unmapLoop root va false remaining i v).2 := by
  induction remaining generalizing i v with
  | zero => exact KernelStep.refl htree
  | succ remaining ih =>
      have hpage := hrange.kernelPage (show i < count by omega)
      simp only [unmapLoop, hrange.pageAt_eq (show i ≤ count by omega), walkToPt_read (htree.root root hroot).2.1,
        htree.tableVirt_root hroot]
      cases htable : v.tableAt root (pathOf (va + i * 4096)) with
      | none => exact KernelStep.refl htree
      | some pt =>
          have hstep : KernelStep roots root slots v (v.setEntry pt (ptIdx (va + i * 4096)) 0#64) :=
            leaf_kernelStep htree hroot (pathOf_mem_kernelPath hpage) rfl htable
          exact hstep.trans hroot (ih (i + 1) (by omega) hstep.tree)

/-- Every call of `vmm_unmap_pages` on the beginning of the range, as the rollback of `vmm_map_pages` makes it. -/
theorem vmmUnmapPages_range_kernel (htree : v.KernelTree roots) {n : Nat} (hn : n ≤ count) :
    KernelStep roots root slots v (vmmUnmapPages v root va n).2 := by
  have hfirst := hrange.first hn
  simp only [vmmUnmapPages, if_neg (htree.root root hroot).2.1, hfirst.not_user]
  split
  · exact KernelStep.refl htree
  split
  · exact KernelStep.refl htree
  · exact unmapLoop_kernel hfirst hroot n 0 (by omega) htree

theorem mapLoop_kernel (pa : Nat) (pteFlags : BitVec 64) (remaining i : Nat) (hbound : i + remaining ≤ count)
    (htree : v.KernelTree roots) :
    KernelStep roots root (KernelRange.slots va count) v (mapLoop root va pa pteFlags false remaining i v).2 := by
  induction remaining generalizing i v with
  | zero => exact KernelStep.refl htree
  | succ remaining ih =>
      have hpage := hrange.kernelPage (show i < count by omega)
      obtain ⟨hwalk, htable⟩ := walkToPt_extend htree hroot hpage
      have hsub : {pml4Idx (va + i * 4096)} ⊆ KernelRange.slots va count := by
        intro slot hslot
        exact ⟨i, by omega, hslot⟩
      have hwalk' := hwalk.mono hsub
      simp only [mapLoop, hrange.pageAt_eq (show i ≤ count by omega)]
      -- a failure leaves the tables that were created, with the pages before it unmapped again
      have hrollback : ∀ w : Vmm, KernelStep roots root (KernelRange.slots va count) v w →
          KernelStep roots root (KernelRange.slots va count) v (if 0 < i then (vmmUnmapPages w root va i).2 else w) := by
        intro w hw
        split
        · exact hw.trans hroot (vmmUnmapPages_range_kernel hrange hroot hw.tree (by omega))
        · exact hw
      rcases hres : walkToPt v root (va + i * 4096) true false with ⟨_ | pt, w⟩ <;> rw [hres] at hwalk' htable
      · exact hrollback w hwalk'
      · simp only
        split
        · exact hrollback w hwalk'
        · have hstep : KernelStep roots root (KernelRange.slots va count) w (w.setEntry pt (ptIdx (va + i * 4096))
              (BitVec.ofNat 64 (pageAt pa i) &&& vmmAddrMask ||| pteFlags ||| ptePresent)) :=
            leaf_kernelStep hwalk'.tree hroot (pathOf_mem_kernelPath hpage) rfl (htable pt rfl)
          exact hwalk'.trans hroot (hstep.trans hroot (ih (i + 1) (by omega) hstep.tree))

end Loops

/-! ### The calls -/

section Calls

variable {va count : Nat} (hva : va < 2 ^ 64) (hcount : count < 2 ^ 52)
  (huser : pagingRangeIsUser va (wrap64 (count * pageSize)) = false) (hroot : root ∈ roots) (htree : v.KernelTree roots)
include hva hcount huser hroot htree

theorem vmmUnmapPages_kernel : KernelStep roots root slots v (vmmUnmapPages v root va count).2 := by
  by_cases hvalid : validateSpan va none count = true
  · exact vmmUnmapPages_range_kernel (kernelRange_of_validateSpan hva hcount huser hvalid) hroot htree le_rfl
  · simp only [vmmUnmapPages, if_neg (htree.root root hroot).2.1, hvalid, Bool.not_false, if_true]
    exact KernelStep.refl htree

theorem vmmMapPages_kernel (pa : Nat) (flags : BitVec 64) :
    KernelStep roots root (KernelRange.slots va count) v (vmmMapPages v root va pa count flags).2 := by
  simp only [vmmMapPages, if_neg (htree.root root hroot).2.1]
  by_cases hvalid : validateMapRequest va pa count flags = true
  · have hspan : validateSpan va (some pa) count = true := by
      simp only [validateMapRequest] at hvalid
      by_contra hcon
      simp [hcon] at hvalid
    have hrange := kernelRange_of_validateSpan hva hcount huser hspan
    have hflag : decide (flags &&& pagingMapUser ≠ 0) = false := by
      simp only [validateMapRequest, hspan, huser] at hvalid
      have hclear : flags &&& pagingMapRead ≠ 0#64 ∧ flags &&& pagingMapUser = 0#64 := by simpa using hvalid
      simpa using hclear.2
    simp only [hvalid, hflag, Bool.not_true, Bool.false_eq_true, if_false]
    exact mapLoop_kernel hrange hroot pa (pteFlagsFromMap flags) count 0 (by omega) htree
  · simp only [hvalid, Bool.not_false, if_true]
    exact KernelStep.refl htree

end Calls

theorem ioLoop_kernel {va count : Nat} (hrange : KernelRange va count) (hroot : root ∈ roots) (pa remaining i : Nat)
    (hbound : i + remaining ≤ count) (htree : v.KernelTree roots) :
    KernelStep roots root (KernelRange.slots va count) v (ioLoop root va pa remaining i v).2 := by
  induction remaining generalizing i v with
  | zero => exact KernelStep.refl htree
  | succ remaining ih =>
      simp only [ioLoop, hrange.pageAt_eq (show i ≤ count by omega)]
      split
      · split
        · exact KernelStep.refl htree
        · exact ih (i + 1) (by omega) htree
      · have hsingle := hrange.single (show i < count by omega)
        have hsub : KernelRange.slots (va + i * 4096) 1 ⊆ KernelRange.slots va count := by
          intro slot hslot
          obtain ⟨k, hk, heq⟩ := hslot
          rw [Nat.lt_one_iff.mp hk, Nat.zero_mul, Nat.add_zero] at heq
          exact ⟨i, by omega, heq⟩
        have hmap := (vmmMapPages_kernel hsingle.span_lt.1 (by decide) hsingle.not_user hroot htree (pageAt pa i)
          (pagingMapRead ||| pagingMapWrite ||| pagingMapGlobal ||| pagingMapDevice)).mono hsub
        split
        · exact hmap
        · exact hmap.trans hroot (ih (i + 1) (by omega) hmap.tree)

/-- An unaligned range is refused at its first page. -/
theorem ioLoop_unaligned {va pa count : Nat} (haligned : pagingIsPageAligned (pageAt va 0) = false) (hcount : count ≠ 0) :
    ioLoop root va pa count 0 v = (-1, v) := by
  obtain ⟨remaining, rfl⟩ := Nat.exists_eq_succ_of_ne_zero hcount
  have hquery : vmmQueryPage v root (pageAt va 0) = none := by simp [vmmQueryPage, haligned]
  have hmap : ∀ flags, vmmMapPages v root (pageAt va 0) (pageAt pa 0) 1 flags = (-1, v) := by
    intro flags
    simp [vmmMapPages, validateMapRequest, validateSpan, haligned]
  simp [ioLoop, hquery, hmap]

theorem ioPageCount_le (physBase size : Nat) : ioPageCount physBase size ≤ 2 ^ 52 := by
  have := wrap64_lt (physBase + size - 1)
  simp only [ioPageCount, pageSize]
  have hquot : (wrap64 (physBase + size - 1) - physBase / 4096 * 4096) / 4096 + 1 ≤ 2 ^ 52 := by omega
  rw [wrap64_of_lt (by omega)]
  exact hquot

theorem vmmMapIoRegion_kernel (hhdmOffset physBase size : Nat) (hbase : physBase < 2 ^ 64)
    (hroot : v.currentPml4 ∈ roots) (htree : v.KernelTree roots) :
    KernelStep roots v.currentPml4 (KernelRange.slots (ioVirtPage hhdmOffset physBase) (ioPageCount physBase size)) v
      (vmmMapIoRegion hhdmOffset v physBase size).2 := by
  have hvirt : ioVirtPage hhdmOffset physBase < 2 ^ 64 := by
    simp only [ioVirtPage, vmmPhysToVirt]
    split
    · exact wrap64_lt _
    · simp only [pageSize]
      omega
  have hloop : pagingRangeIsKernel (ioVirtPage hhdmOffset physBase) (wrap64 (ioPageCount physBase size * pageSize)) = true →
      ioPageCount physBase size ≠ 0 →
      KernelStep roots v.currentPml4 (KernelRange.slots (ioVirtPage hhdmOffset physBase) (ioPageCount physBase size)) v
        (ioLoop v.currentPml4 (ioVirtPage hhdmOffset physBase) (physBase / pageSize * pageSize) (ioPageCount physBase size) 0 v).2 := by
    intro hkernel hcount
    by_cases haligned : pagingIsPageAligned (pageAt (ioVirtPage hhdmOffset physBase) 0) = true
    · refine ioLoop_kernel ?_ hroot _ _ _ (by omega) htree
      have hle := ioPageCount_le physBase size
      generalize ioVirtPage hhdmOffset physBase = va at *
      generalize ioPageCount physBase size = count at *
      have hlt : count ≠ 2 ^ 52 := by
        rintro rfl
        simp [pagingRangeIsKernel, pagingRangeIn, wrap64, pageSize] at hkernel
      have hspan : count * pageSize < 2 ^ 64 := by simp only [pageSize]; omega
      rw [wrap64_of_lt hspan, pagingRangeIsKernel_iff hvirt hspan] at hkernel
      rw [pageAt_of_lt (by omega), pagingIsPageAligned_iff] at haligned
      obtain ⟨-, hlo, hhi⟩ := hkernel
      simp only [pageSize, pagingKernelVaMax] at hhi
      exact ⟨by omega, hlo, by simp only [pagingKernelVaMax]; omega⟩
    · rw [Bool.not_eq_true] at haligned
      rw [ioLoop_unaligned haligned hcount]
      exact KernelStep.refl htree
  simp only [vmmMapIoRegion]
  split
  · exact KernelStep.refl htree
  split
  · exact KernelStep.refl htree
  split
  · exact KernelStep.refl htree
  rename_i hzero
  split
  · exact KernelStep.refl htree
  rename_i hkernel
  have hstep := hloop (by simpa using hkernel) (fun h => hzero (Or.inr h))
  split
  · exact hstep
  · exact hstep

end Vmm

end Tsukasa
