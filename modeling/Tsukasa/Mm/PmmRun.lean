import Tsukasa.Mm.PmmSpec
import Tsukasa.Lib.Run

/-!
# Whole runs of the frame allocator

The allocator together with the list of allocations its callers hold. The invariant of `PmmSpec` is established by `pmmInit` and kept by every call, and from it every reachable state answers the next call correctly.
-/

namespace Tsukasa

/-! ### The state after `pmmInit` -/

/-- Reserving more regions keeps a reserved frame reserved. -/
theorem bitmapGet_foldl_reserve {α : Type} {reserve : Bitmap → α → Bitmap} {frame : Nat}
    (hreserve : ∀ b x, bitmapGet b frame = false → bitmapGet (reserve b x) frame = false) {b : Bitmap} {regions : List α}
    (h : bitmapGet b frame = false) : bitmapGet (regions.foldl reserve b) frame = false := by
  induction regions generalizing b with
  | nil => exact h
  | cons x rest ih =>
      rw [List.foldl_cons]
      exact ih (hreserve b x h)

theorem bitmapGet_lowMemory (b : Bitmap) {frame : Nat} (hlow : frame < 256) :
    bitmapGet (markRegion b 0 0x100000 false) frame = false := by
  have hfirst : ¬ pmmFrameCount ≤ addrToFrame 0 := by decide
  have hlast : ¬ pmmFrameCount ≤ addrToFrame (0x100000 - 1) := by decide
  have hmem : frame ∈ List.range' (addrToFrame 0) (addrToFrame (0x100000 - 1) + 1 - addrToFrame 0) := by
    rw [show addrToFrame (0x100000 - 1) + 1 - addrToFrame 0 = 256 by decide, List.mem_range'_1]
    exact ⟨Nat.zero_le _, hlow⟩
  rw [markRegion, if_neg (by decide)]
  simp only [if_neg hfirst, if_neg hlast]
  rw [bitmapGet_markFrames, if_pos hmem]

theorem bitmapGet_tsukasaBitmap_low (kernel : KernelImage) (bi : TsukasaBootInfo) (entries : List MemmapEntry)
    (b : Bitmap) {frame : Nat} (hlow : frame < 256) :
    bitmapGet (tsukasaBitmap kernel bi entries b) frame = false := by
  rw [tsukasaBitmap]
  refine bitmapGet_foldl_reserve (fun b m h => ?_) (bitmapGet_markRegion_false (bitmapGet_lowMemory _ hlow))
  rw [reserveModule]
  exact bitmapGet_markRegion_false h

theorem bitmapGet_multibootBitmap_low (kernel : KernelImage) (mb : MultibootInfo) (b : Bitmap) {frame : Nat}
    (hlow : frame < 256) : bitmapGet (multibootBitmap kernel mb b) frame = false := by
  have hkernel := @bitmapGet_markRegion_false _ kernel.start (pageUp kernel.stop) _
    (bitmapGet_lowMemory (markMmapEntries mb.memory (wrap32 (mb.mmapAddr + mb.mmapLength)) (2 ^ 32) mb.mmapAddr b) hlow)
  simp only [multibootBitmap]
  split
  · refine bitmapGet_foldl_reserve (fun b m h => ?_) hkernel
    rw [reserveMultibootModule]
    exact bitmapGet_markRegion_false h
  · exact hkernel

/-- Whatever the frame map is, as long as low memory is reserved in it, the cached bound and the counter are right. -/
theorem inv_of_low_reserved {s : Pmm} (htotal : s.totalFrames = pmmFrameCount)
    (hlow : ∀ frame < 256, bitmapGet s.bitmap frame = false) : (recomputeFreeFrames (refreshFirstUsable s)).Inv := by
  have hfirst : (if s.totalFrames ≤ addrToFrame 0x100000 then 0 else addrToFrame 0x100000) = 256 := by
    rw [htotal]
    decide
  have hlarge : 256 ≤ s.totalFrames := by
    rw [htotal]
    decide
  refine ⟨htotal, ?_, ?_, hlow 0 (by omega), rfl⟩
  · simp only [recomputeFreeFrames, refreshFirstUsable, hfirst]
    cases hfind : (List.range' 256 (s.totalFrames - 256)).find? (bitmapGet s.bitmap) with
    | none => simp
    | some frame =>
        have hmem := List.mem_range'_1.mp (List.mem_of_find?_eq_some hfind)
        simp only [Option.getD_some]
        omega
  · intro frame hframe
    simp only [recomputeFreeFrames, refreshFirstUsable, hfirst] at hframe ⊢
    by_cases hbit : frame < 256
    · exact hlow frame hbit
    · cases hfind : (List.range' 256 (s.totalFrames - 256)).find? (bitmapGet s.bitmap) with
      | none =>
          rw [hfind, Option.getD_none] at hframe
          have := List.find?_eq_none.mp hfind frame (List.mem_range'_1.mpr (by omega))
          simpa using this
      | some first =>
          rw [hfind, Option.getD_some] at hframe
          obtain ⟨_, before, after, hsplit, hbefore⟩ := List.find?_eq_some_iff_append.mp hfind
          have hmem : frame ∈ before := by
            have hall : frame ∈ before ++ first :: after := by
              rw [← hsplit, List.mem_range'_1]
              have := List.mem_range'_1.mp (List.mem_of_find?_eq_some hfind)
              omega
            rcases List.mem_append.mp hall with h | h
            · exact h
            · -- the list is increasing, so nothing from `first` on is below it
              exfalso
              have hsorted : (before ++ first :: after).Pairwise (· < ·) := by
                rw [← hsplit]
                exact List.pairwise_lt_range'
              have hafter := (List.pairwise_append.mp hsorted).2.1
              rcases List.mem_cons.mp h with rfl | h
              · omega
              · have := (List.pairwise_cons.mp hafter).1 frame h
                omega
          simpa using hbefore frame hmem

/-- A successful `pmm_init` establishes the invariant, whatever the boot memory map says. -/
theorem pmmInit_inv {kernel : KernelImage} {info : BootInfo} {s : Pmm} (h : (pmmInit kernel info s).1 = 0) :
    (pmmInit kernel info s).2.Inv := by
  cases info with
  | null => simp [pmmInit] at h
  | tsukasa bi =>
      simp only [pmmInit] at h ⊢
      split at h
      · simp at h
      · simp at h
      · exact inv_of_low_reserved rfl fun frame hlow => bitmapGet_tsukasaBitmap_low _ _ _ _ hlow
  | multiboot mb =>
      simp only [pmmInit] at h ⊢
      split at h
      · simp at h
      · rename_i hvalid
        rw [if_neg hvalid]
        exact inv_of_low_reserved rfl fun frame hlow => bitmapGet_multibootBitmap_low _ _ _ hlow

/-! ### Runs -/

/-- An allocation: the address returned and the number of pages asked for. -/
structure Extent where
  phys : Nat
  pages : Nat
  deriving DecidableEq

namespace Extent

def first (e : Extent) : Nat := addrToFrame e.phys

def Holds (e : Extent) (frame : Nat) : Prop := e.first ≤ frame ∧ frame < e.first + e.pages

def Disjoint (a b : Extent) : Prop := ∀ frame, ¬ (a.Holds frame ∧ b.Holds frame)

end Extent

/-- The allocator and the allocations that have been returned and not yet freed. -/
structure TrackedPmm where
  pmm : Pmm
  live : List Extent

inductive PmmCall where
  | alloc (count : Nat)
  | free (e : Extent)

def TrackedPmm.step (t : TrackedPmm) : PmmCall → TrackedPmm
  | .alloc count =>
      let (phys, pmm) := pmmAllocPages t.pmm count
      { pmm := pmm, live := if phys = 0 then t.live else ⟨phys, count⟩ :: t.live }
  | .free e => { pmm := pmmFreePages t.pmm e.phys e.pages, live := t.live.erase e }

/-- Callers ask for at most `2 ^ 52` pages and free only what they hold. -/
def TrackedPmm.Legal (t : TrackedPmm) : PmmCall → Prop
  | .alloc count => count ≤ 2 ^ 52
  | .free e => e ∈ t.live

/-- A live allocation is a page-aligned range of tracked frames, all of them taken. -/
structure TrackedPmm.Backed (t : TrackedPmm) (e : Extent) : Prop where
  aligned : e.phys % pageSize = 0
  pos : 0 < e.first
  pages : 0 < e.pages
  tracked : e.first + e.pages ≤ t.pmm.totalFrames
  taken : ∀ frame, e.Holds frame → bitmapGet t.pmm.bitmap frame = false

structure TrackedPmm.Inv (t : TrackedPmm) : Prop where
  pmm : t.pmm.Inv
  backed : ∀ e ∈ t.live, t.Backed e
  disjoint : t.live.Pairwise Extent.Disjoint

instance : Std.Symm Extent.Disjoint := ⟨fun _ _ h frame hboth => h frame hboth.symm⟩

theorem Extent.not_disjoint_self {e : Extent} (hpages : 0 < e.pages) : ¬ e.Disjoint e :=
  fun h => h e.first ⟨⟨Nat.le_refl _, by omega⟩, Nat.le_refl _, by omega⟩

theorem TrackedPmm.Backed.phys_eq {t : TrackedPmm} {e : Extent} (he : t.Backed e) : e.phys = e.first * pageSize :=
  (Nat.div_mul_cancel (Nat.dvd_of_mod_eq_zero he.aligned)).symm

theorem TrackedPmm.Backed.taken_offset {t : TrackedPmm} {e : Extent} (he : t.Backed e) :
    ∀ i < e.pages, bitmapGet t.pmm.bitmap (e.first + i) = false :=
  fun i hi => he.taken (e.first + i) ⟨by omega, by omega⟩

theorem TrackedPmm.Inv.perm {pmm : Pmm} {live live' : List Extent} (h : TrackedPmm.Inv ⟨pmm, live⟩) (hperm : live.Perm live') :
    TrackedPmm.Inv ⟨pmm, live'⟩ := by
  refine ⟨h.pmm, fun e he => ?_, ?_⟩
  · obtain ⟨haligned, hpos, hpages, htracked, htaken⟩ := h.backed e (hperm.mem_iff.mpr he)
    exact ⟨haligned, hpos, hpages, htracked, htaken⟩
  · exact h.disjoint.perm hperm fun hdisj => fun frame hboth => hdisj frame hboth.symm

theorem TrackedPmm.Inv.nodup {t : TrackedPmm} (ht : t.Inv) : t.live.Nodup := by
  refine ht.disjoint.imp_of_mem fun {a b} ha _ hdisj heq => ?_
  subst heq
  exact Extent.not_disjoint_self (ht.backed a ha).pages hdisj

/-- A freed allocation shares no frame with any other live one. -/
theorem TrackedPmm.Inv.disjoint_of_mem_erase {t : TrackedPmm} (ht : t.Inv) {e other : Extent} (he : e ∈ t.live)
    (hother : other ∈ t.live.erase e) : other.Disjoint e := by
  have hmem := (ht.nodup.mem_erase_iff).mp hother
  exact ht.disjoint.forall hmem.2 he hmem.1

theorem TrackedPmm.Inv.free {t : TrackedPmm} (ht : t.Inv) {e : Extent} (he : e ∈ t.live) : (t.step (.free e)).Inv := by
  have hback := ht.backed e he
  have hstep : t.step (.free e) = { pmm := t.pmm.giveBack e.first e.pages, live := t.live.erase e } := by
    simp only [TrackedPmm.step]
    rw [hback.phys_eq, pmmFreePages_of_taken hback.pos hback.pages hback.tracked hback.taken_offset]
  rw [hstep]
  refine ⟨ht.pmm.giveBack hback.pos hback.tracked hback.taken_offset, fun other hother => ?_, ?_⟩
  · have hold := ht.backed other (List.mem_of_mem_erase hother)
    have hdisj := ht.disjoint_of_mem_erase he hother
    refine ⟨hold.aligned, hold.pos, hold.pages, hold.tracked, fun frame hframe => ?_⟩
    rw [Pmm.bitmapGet_giveBack, if_neg]
    · exact hold.taken frame hframe
    · exact fun hin => hdisj frame ⟨hframe, hin⟩
  · exact ht.disjoint.sublist List.erase_sublist

/-- The state after a successful allocation. -/
theorem TrackedPmm.Inv.hold {t : TrackedPmm} (ht : t.Inv) {start count : Nat} (hpos : 0 < start) (hcount : 0 < count)
    (hrun : FreeRun t.pmm start count) :
    TrackedPmm.Inv { pmm := t.pmm.take start count, live := ⟨start * pageSize, count⟩ :: t.live } := by
  have hfirst : Extent.first ⟨start * pageSize, count⟩ = start := Nat.mul_div_cancel _ (by decide)
  refine ⟨ht.pmm.take hrun, fun e he => ?_, List.pairwise_cons.mpr ⟨fun e he frame hboth => ?_, ht.disjoint⟩⟩
  · rcases List.mem_cons.mp he with rfl | he
    · refine ⟨Nat.mul_mod_left _ _, by rw [hfirst]; exact hpos, hcount, by rw [hfirst]; exact hrun.1, fun frame hframe => ?_⟩
      rw [Extent.Holds, hfirst] at hframe
      rw [Pmm.bitmapGet_take, if_pos hframe]
    · have hold := ht.backed e he
      refine ⟨hold.aligned, hold.pos, hold.pages, hold.tracked, fun frame hframe => ?_⟩
      rw [Pmm.bitmapGet_take, hold.taken frame hframe, ite_self]
  · -- the frames of the new allocation were free, those of a live one taken
    obtain ⟨⟨hlo, hhi⟩, hold⟩ := hboth
    rw [hfirst] at hlo hhi
    have hfree := hrun.2 (frame - start) (by simp only at hhi; omega)
    rw [show start + (frame - start) = frame by omega, (ht.backed e he).taken frame hold] at hfree
    simp at hfree

theorem TrackedPmm.Inv.alloc {t : TrackedPmm} (ht : t.Inv) {count : Nat} (hsmall : count ≤ 2 ^ 52) :
    (t.step (.alloc count)).Inv := by
  rcases Nat.eq_zero_or_pos count with rfl | hcount
  · exact ht
  · rcases pmmAllocPages_cases ht.pmm hcount hsmall with ⟨start, hpos, hrun, _, heq⟩ | ⟨_, heq⟩
    · have hne : start * pageSize ≠ 0 := by simp only [pageSize]; omega
      simp only [TrackedPmm.step, heq, if_neg hne]
      exact ht.hold hpos hcount hrun
    · simp only [TrackedPmm.step, heq, if_true]
      exact ht

theorem TrackedPmm.step_inv (t : TrackedPmm) (call : PmmCall) (ht : t.Inv) (hlegal : t.Legal call) : (t.step call).Inv := by
  cases call with
  | alloc count => exact ht.alloc hlegal
  | free e => exact ht.free hlegal

/-- The state right after boot: nothing is held. -/
def TrackedPmm.boot (kernel : KernelImage) (info : BootInfo) (s : Pmm) : TrackedPmm :=
  { pmm := (pmmInit kernel info s).2, live := [] }

theorem TrackedPmm.run_inv {kernel : KernelImage} {info : BootInfo} {s : Pmm} (hinit : (pmmInit kernel info s).1 = 0)
    {calls : List PmmCall} (hlegal : Lib.Allowed TrackedPmm.Legal TrackedPmm.step (TrackedPmm.boot kernel info s) calls) :
    (Lib.run TrackedPmm.step (TrackedPmm.boot kernel info s) calls).Inv :=
  Lib.run_invariant TrackedPmm.step_inv ⟨pmmInit_inv hinit, by simp [TrackedPmm.boot], by simp [TrackedPmm.boot]⟩ hlegal

/-! ### The allocator answers every call correctly -/

/-- The bits that differ between two states are exactly those of the given frames. -/
def ChangesExactly (before after : Pmm) (frames : Nat → Prop) : Prop :=
  ∀ frame, bitmapGet after.bitmap frame ≠ bitmapGet before.bitmap frame ↔ frames frame

/-- What `pmm_alloc_pages(count)` does from a state: it returns 0 exactly when there is no free run, otherwise the lowest one, and changes exactly the bits of the frames it returns. -/
structure AllocCorrect (s : Pmm) (count : Nat) : Prop where
  fails : 0 < count → ((pmmAllocPages s count).1 = 0 ↔ ∀ start, ¬ FreeRun s start count)
  lowest : 0 < count → ∀ start, FreeRun s start count → (∀ lower < start, ¬ FreeRun s lower count) →
    (pmmAllocPages s count).1 = start * pageSize
  changes : ChangesExactly s (pmmAllocPages s count).2
    fun frame => (pmmAllocPages s count).1 ≠ 0 ∧ Extent.Holds ⟨(pmmAllocPages s count).1, count⟩ frame

/-- A state of the allocator and its callers in which everything is as it should be. -/
structure AllocatorCorrect (t : TrackedPmm) : Prop where
  live_disjoint : t.live.Pairwise Extent.Disjoint
  live_tracked : ∀ e ∈ t.live, e.phys % pageSize = 0 ∧ e.first + e.pages ≤ t.pmm.totalFrames
  counter : t.pmm.freeFrames = freeCount t.pmm.bitmap t.pmm.totalFrames
  hint : ∀ frame < t.pmm.firstUsable, bitmapGet t.pmm.bitmap frame = false
  alloc : ∀ count ≤ 2 ^ 52, AllocCorrect t.pmm count
  free : ∀ e ∈ t.live, ChangesExactly t.pmm (pmmFreePages t.pmm e.phys e.pages) e.Holds

theorem Pmm.Inv.allocCorrect {s : Pmm} (hs : s.Inv) {count : Nat} (hsmall : count ≤ 2 ^ 52) : AllocCorrect s count := by
  rcases Nat.eq_zero_or_pos count with rfl | hcount
  · exact ⟨by omega, by omega, fun frame => by simp [pmmAllocPages]⟩
  · rcases pmmAllocPages_cases hs hcount hsmall with ⟨start, hpos, hrun, hlower, heq⟩ | ⟨hnone, heq⟩
    · have hne : start * pageSize ≠ 0 := by simp only [pageSize]; omega
      refine ⟨fun _ => ?_, fun _ other hother hleast => ?_, fun frame => ?_⟩
      · rw [heq]
        exact ⟨fun h => absurd h hne, fun h => absurd hrun (h start)⟩
      · have hle : ¬ start < other := fun h => hleast start h hrun
        have hge : ¬ other < start := fun h => hlower other h hother
        rw [heq, show other = start by omega]
      · simp only [heq, Pmm.bitmapGet_take, Extent.Holds, Extent.first, addrToFrame,
          Nat.mul_div_cancel start (show 0 < pageSize by decide)]
        by_cases hin : start ≤ frame ∧ frame < start + count
        · have hfree := hrun.2 (frame - start) (by omega)
          rw [show start + (frame - start) = frame by omega] at hfree
          simp [hin, hfree, hne]
        · simp [hin]
    · refine ⟨fun _ => ?_, fun _ start hrun => absurd hrun (hnone start), fun frame => ?_⟩
      · rw [heq]
        exact ⟨fun _ => hnone, fun _ => rfl⟩
      · simp [heq]

theorem TrackedPmm.Inv.allocatorCorrect {t : TrackedPmm} (ht : t.Inv) : AllocatorCorrect t where
  live_disjoint := ht.disjoint
  live_tracked e he := ⟨(ht.backed e he).aligned, (ht.backed e he).tracked⟩
  counter := ht.pmm.count
  hint := ht.pmm.below
  alloc count hsmall := ht.pmm.allocCorrect hsmall
  free e he frame := by
    have hback := ht.backed e he
    have hfree : pmmFreePages t.pmm e.phys e.pages = t.pmm.giveBack e.first e.pages := by
      rw [hback.phys_eq, pmmFreePages_of_taken hback.pos hback.pages hback.tracked hback.taken_offset]
    rw [hfree, Pmm.bitmapGet_giveBack]
    split
    · rename_i hin
      rw [hback.taken frame hin]
      exact ⟨fun _ => hin, fun _ => by simp⟩
    · rename_i hout
      exact ⟨fun h => absurd rfl h, fun h => absurd h hout⟩

/-- From a successful `pmm_init`, every state reached by allocating and by freeing live allocations is one in which the live allocations are disjoint and tracked, the counter and the hint are right, and the next call does exactly what it should. -/
theorem pmm_run_correct (kernel : KernelImage) (info : BootInfo) (s : Pmm) (hinit : (pmmInit kernel info s).1 = 0)
    (calls : List PmmCall) (hlegal : Lib.Allowed TrackedPmm.Legal TrackedPmm.step (TrackedPmm.boot kernel info s) calls) :
    AllocatorCorrect (Lib.run TrackedPmm.step (TrackedPmm.boot kernel info s) calls) :=
  (TrackedPmm.run_inv hinit hlegal).allocatorCorrect

/-- A boot-info block with one usable entry of 1 MiB above low memory, and no module. -/
def oneMegabyte : BootInfo :=
  .tsukasa { hhdmOffset := 0, memmapEntries := some [⟨0x100000, 0x100000, tsukasaBootMemUsable⟩], modules := none }

theorem pmm_run_correct_oneMegabyte :
    AllocatorCorrect (Lib.run TrackedPmm.step
      (TrackedPmm.boot ⟨0, 0⟩ oneMegabyte ⟨fun _ => 0#8, 0, 0, 0⟩) [.alloc 2, .alloc 0, .alloc (2 ^ 52)]) :=
  pmm_run_correct ⟨0, 0⟩ oneMegabyte ⟨fun _ => 0#8, 0, 0, 0⟩ rfl _
    ⟨by simp [TrackedPmm.Legal], by simp [TrackedPmm.Legal], by simp [TrackedPmm.Legal], trivial⟩

end Tsukasa
