import Tsukasa.Mm.Heap

/-!
# What `kmalloc` hands out, and when it gives up

An allocation is large enough whenever the request is at most 31 MiB. When the heap has no block for a request, `kmalloc` adds as many pages as the request needs; the pool made of them is smaller by its headers, and the search rounds the request up to a size class, so the new block may not be found.
-/

namespace Tsukasa

open Lib (Memory)

variable {hhdm n t : Nat} {s : KernelHeap} {h : TlsfHeap} {m : Memory}

/-! ### The cases of `kmalloc` -/

theorem tlsfMalloc_eq_zero_iff (ht : t ≠ 0) (hn : n ≠ 0) : (tlsfMalloc t n m).1 = 0 ↔ findSuitable m t (wrap32 (requestSize n)) = 0 := by
  refine ⟨fun hzero => ?_, fun hnone => by rw [tlsfMalloc_of_none hnone]⟩
  by_contra hfound
  rw [tlsfMalloc_of_found ht hn hfound, takeBlock_ptr, blockToPtr, hdrSize] at hzero
  omega

theorem kmallocStamp_fst (size ptr : Nat) (s : KernelHeap) : (kmallocStamp size ptr s).1 = if ptr = 0 then 0 else ptr + heapHeaderSize := by
  rw [kmallocStamp]
  split <;> rfl

theorem kmallocStamp_eq_zero_iff {size ptr : Nat} : (kmallocStamp size ptr s).1 = 0 ↔ ptr = 0 := by
  rw [kmallocStamp_fst, heapHeaderSize]
  split <;> omega

/-- What `kmalloc` does, by what the two searches find. -/
theorem kmalloc_cases (hok : HeapOk hhdm s h) (hn : n ≠ 0) (hword : n < 2 ^ 64) :
    2 ^ 64 ≤ n + 16 ∧ kmalloc hhdm n s = (0, s) ∨
      n + 16 < 2 ^ 64 ∧
        (findSuitable s.mem h.t (wrap32 (requestSize (n + 16))) ≠ 0 ∧
            kmalloc hhdm n s = kmallocStamp n (tlsfMalloc h.t (n + 16) s.mem).1 { s with mem := (tlsfMalloc h.t (n + 16) s.mem).2 } ∨
          findSuitable s.mem h.t (wrap32 (requestSize (n + 16))) = 0 ∧
            ((heapGrow hhdm (n + 16) s).1 = 0 ∧ kmalloc hhdm n s = heapGrow hhdm (n + 16) s ∨
              (heapGrow hhdm (n + 16) s).1 ≠ 0 ∧
                kmalloc hhdm n s = kmallocStamp n (tlsfMalloc h.t (n + 16) (heapGrow hhdm (n + 16) s).2.mem).1
                  { (heapGrow hhdm (n + 16) s).2 with mem := (tlsfMalloc h.t (n + 16) (heapGrow hhdm (n + 16) s).2.mem).2 })) := by
  have hpos : s.heap ≠ 0 := hok.control ▸ h.pos
  rw [hok.control, kmalloc, if_neg (not_or.mpr ⟨hpos, hn⟩)]
  dsimp only
  rw [heapHeaderSize]
  rcases Nat.lt_or_ge (n + 16) (2 ^ 64) with hsmall | hlarge
  · refine Or.inr ⟨hsmall, ?_⟩
    rw [wrap64_of_lt hsmall, if_neg (by omega)]
    by_cases hfound : findSuitable s.mem s.heap (wrap32 (requestSize (n + 16))) = 0
    · refine Or.inr ⟨hfound, ?_⟩
      rw [tlsfMalloc_of_none hfound]
      dsimp only
      rw [if_neg (by simp)]
      by_cases hgrown : (heapGrow hhdm (n + 16) s).1 = 0
      · refine Or.inl ⟨hgrown, (if_pos hgrown).trans ?_⟩
        exact Prod.ext hgrown.symm rfl
      · exact Or.inr ⟨hgrown, if_neg hgrown⟩
    · refine Or.inl ⟨hfound, if_pos fun hzero => hfound ?_⟩
      exact (tlsfMalloc_eq_zero_iff hpos (by omega)).mp hzero
  · refine Or.inl ⟨hlarge, if_pos ?_⟩
    rw [wrap64]
    omega

theorem growPages_lt (hn : n ≤ requestMax) : 0 < growPages n ∧ growPages n * pageSize < 2 ^ 25 := by
  rw [requestMax] at hn
  show 0 < (if (n + 4095) % 2 ^ 64 / 4096 < heapGrowPages then heapGrowPages else (n + 4095) % 2 ^ 64 / 4096) ∧
    (if (n + 4095) % 2 ^ 64 / 4096 < heapGrowPages then heapGrowPages else (n + 4095) % 2 ^ 64 / 4096) * 4096 < 2 ^ 25
  rw [heapGrowPages]
  split <;> omega

/-- The heap after growth, for a request of at most 31 MiB. -/
theorem HeapOk.heapGrow_ok (hok : HeapOk hhdm s h) (hn : n ≤ requestMax) (hgrown : (heapGrow hhdm n s).1 ≠ 0) :
    ∃ start h', FreeRun s.pmm start (growPages n) ∧ HeapOk hhdm (heapGrow hhdm n s).2 h' ∧ h'.t = h.t ∧
      h'.blocks = h.blocks ++ poolBlocks (hhdm + start * pageSize) (growPages n * pageSize) := by
  rcases heapGrow_cases hok n with ⟨-, hnone⟩ | ⟨start, hpos, hrun, hsome⟩
  · rw [hnone] at hgrown
    exact absurd rfl hgrown
  · obtain ⟨hpages, hsmall⟩ := growPages_lt hn
    obtain ⟨h', hok', ht, hblocks⟩ := hok.grown hpos hpages hrun hsmall
    rw [hsome]
    exact ⟨start, h', hrun, hok', ht, hblocks⟩

/-! ### Enough bytes -/

/-- Both allocators hand out `n` bytes of a block that was free in the heap as `tlsf_malloc` found it. -/
structure AllocatesEnough (hhdm n : Nat) (s : KernelHeap) (h : TlsfHeap) : Prop where
  tlsf : (tlsfMalloc h.t n s.mem).1 ≠ 0 → InPayload s.mem h n (tlsfMalloc h.t n s.mem).1 0 n
  kernel : (kmalloc hhdm n s).1 ≠ 0 → ∃ s' h', (s' = s ∨ s' = (heapGrow hhdm (n + 16) s).2) ∧ HeapOk hhdm s' h' ∧
    InPayload s'.mem h' (n + 16) (kmalloc hhdm n s).1 heapHeaderSize n

/-- The request is at most 31 MiB, or the heap has nothing for it. -/
def TlsfFits (m : Memory) (t n : Nat) : Prop := n ≤ requestMax ∨ findSuitable m t (wrap32 (requestSize n)) = 0

/-- The request and its header are at most 31 MiB, or do not fit into 64 bits, or neither the heap nor the grown heap has anything for them. -/
def KmallocFits (hhdm n : Nat) (s : KernelHeap) (t : Nat) : Prop :=
  n + 16 ≤ requestMax ∨ 2 ^ 64 ≤ n + 16 ∨
    findSuitable s.mem t (wrap32 (requestSize (n + 16))) = 0 ∧
      ((heapGrow hhdm (n + 16) s).1 = 0 ∨ findSuitable (heapGrow hhdm (n + 16) s).2.mem t (wrap32 (requestSize (n + 16))) = 0)

theorem inPayload_stamp {h : TlsfHeap} {ptr : Nat} (hin : InPayload m h (n + 16) ptr 0 (n + 16)) :
    InPayload m h (n + 16) (ptr + heapHeaderSize) heapHeaderSize n := by
  obtain ⟨b, hb, hfree, rfl, hsize, htaken⟩ := hin
  refine ⟨b, hb, hfree, rfl, ?_, ?_⟩
  · rw [heapHeaderSize]
    omega
  · rw [heapHeaderSize]
    omega

/-- Requests that fit are served with enough bytes, and no others are that the search keeps inside its tables. -/
theorem alloc_enough (hok : HeapOk hhdm s h) (hn : n ≠ 0) (hword : n < 2 ^ 64) :
    (TlsfFits s.mem h.t n ∧ KmallocFits hhdm n s h.t → AllocatesEnough hhdm n s h) ∧
      (SearchFits (wrap32 (requestSize n)) → SearchFits (wrap32 (requestSize (n + 16))) → AllocatesEnough hhdm n s h →
        TlsfFits s.mem h.t n ∧ KmallocFits hhdm n s h.t) := by
  have hrep := hok.represents
  have hcases := kmalloc_cases hok hn hword
  constructor
  · rintro ⟨htlsf, hkernel⟩
    refine ⟨fun hptr => ?_, fun hptr => ?_⟩
    · rcases htlsf with hmax | hnone
      · exact hrep.malloc_inPayload hn hmax hptr
      · exact absurd ((tlsfMalloc_eq_zero_iff h.pos hn).mpr hnone) hptr
    · have hreq : n + 16 ≠ 0 := by omega
      rcases hcases with ⟨-, hnone⟩ | ⟨hsmall, ⟨hfound, hkmalloc⟩ | ⟨-, ⟨hzero, hkmalloc⟩ | ⟨hgrown, hkmalloc⟩⟩⟩
      · rw [hnone] at hptr
        exact absurd rfl hptr
      · have hmax : n + 16 ≤ requestMax := by
          rcases hkernel with hmax | hlarge | ⟨hnone, -⟩
          · exact hmax
          · omega
          · exact absurd hnone hfound
        have hmalloc := fun hzero => hfound ((tlsfMalloc_eq_zero_iff (m := s.mem) h.pos hreq).mp hzero)
        refine ⟨s, h, Or.inl rfl, hok, ?_⟩
        rw [hkmalloc, kmallocStamp_fst, if_neg hmalloc]
        exact inPayload_stamp (hrep.malloc_inPayload hreq hmax hmalloc)
      · rw [hkmalloc] at hptr
        exact absurd hzero hptr
      · rw [hkmalloc, ne_eq, kmallocStamp_eq_zero_iff] at hptr
        have hmax : n + 16 ≤ requestMax := by
          rcases hkernel with hmax | hlarge | ⟨-, hnone | hnone⟩
          · exact hmax
          · omega
          · exact absurd hnone hgrown
          · exact absurd ((tlsfMalloc_eq_zero_iff h.pos hreq).mpr hnone) hptr
        obtain ⟨start, h', -, hok', ht, -⟩ := hok.heapGrow_ok hmax hgrown
        refine ⟨_, h', Or.inr rfl, hok', ?_⟩
        rw [← ht] at hptr
        rw [hkmalloc, kmallocStamp_fst, ← ht, if_neg hptr]
        exact inPayload_stamp (hok'.represents.malloc_inPayload hreq hmax hptr)
  · intro hfits hfits' henough
    constructor
    · by_contra hnot
      rw [TlsfFits, not_or] at hnot
      have hptr := fun hzero => hnot.2 ((tlsfMalloc_eq_zero_iff h.pos hn).mp hzero)
      exact Represents.not_inPayload hfits hnot.1 hword (henough.tlsf hptr) (Nat.zero_le n)
    · by_contra hnot
      rw [KmallocFits, not_or, not_or, not_and_or, not_or] at hnot
      obtain ⟨hmax, hsmall, hsearch⟩ := hnot
      have hreq : n + 16 ≠ 0 := by omega
      have hptr : (kmalloc hhdm n s).1 ≠ 0 := by
        rcases hcases with ⟨hlarge, -⟩ | ⟨-, ⟨hfound, hkmalloc⟩ | ⟨hnone, ⟨hzero, -⟩ | ⟨-, hkmalloc⟩⟩⟩
        · exact absurd hlarge hsmall
        · rw [hkmalloc, ne_eq, kmallocStamp_eq_zero_iff, tlsfMalloc_eq_zero_iff h.pos hreq]
          exact hfound
        · rcases hsearch with hfound | ⟨hgrown, -⟩
          · exact absurd hnone hfound
          · exact absurd hzero hgrown
        · rw [hkmalloc, ne_eq, kmallocStamp_eq_zero_iff, tlsfMalloc_eq_zero_iff h.pos hreq]
          rcases hsearch with hfound | ⟨-, hfound⟩
          · exact absurd hnone hfound
          · exact hfound
      obtain ⟨s', h', -, -, hin⟩ := henough.kernel hptr
      have hin' : InPayload s'.mem h' (n + 16) (kmalloc hhdm n s).1 heapHeaderSize (n + 16 - heapHeaderSize) := hin
      exact Represents.not_inPayload hfits' hmax (by omega) hin' (by rw [heapHeaderSize]; omega)

/-! ### Growth that does not serve -/

/-- The block of the new pool is filed where the search for the request looks. -/
theorem grown_offers_iff {pages req : Nat} (hpages : 0 < pages) (hsmall : pages * pageSize < 2 ^ 25) (hmin : 16 ≤ req) (hmax : req ≤ requestMax) :
    AtOrAbove (mappingSearch req) (mappingInsert (poolBlockSize (pages * pageSize))).1 (mappingInsert (poolBlockSize (pages * pageSize))).2 ↔
      classCeil req ≤ pages * pageSize - 24 := by
  have hblock : poolBlockSize (pages * pageSize) = pages * pageSize - 24 := by
    rw [poolBlockSize, wrap32, hdrSize, footerSize]
    rw [pageSize] at hsmall ⊢
    omega
  have hwrap : searchSize req < 2 ^ 32 := Nat.lt_trans (searchSize_lt_of_le hmin hmax) (by decide)
  have hfour : 4 ≤ (mappingSearch req).1 := by
    rw [mappingSearch_of_le hmin, wrap32_of_lt hwrap]
    exact four_le_mappingInsert_fl (Nat.le_trans hmin (Nat.le_add_right _ _))
  rw [hblock, atOrAbove_iff (by rw [pageSize]; omega) hfour (mappingSearch_sl_lt req), classFloor_mappingSearch hmin hwrap]

/-- Once the heap has grown, the new block is the only one that can be found. -/
theorem HeapOk.kmalloc_grown_iff (hok : HeapOk hhdm s h) (hn : n ≠ 0) (hlt : n < 2 ^ 24)
    (hoffers : ¬Offers s.mem (wrap32 (requestSize (n + 16))) (FreeAt h.blocks)) {start : Nat} (hrun : FreeRun s.pmm start (growPages (n + 16))) :
    (kmalloc hhdm n s).1 = 0 ↔ ¬classCeil (wrap32 (requestSize (n + 16))) ≤ growPages (n + 16) * pageSize - 24 := by
  have hreq : n + 16 ≠ 0 := by omega
  have hreqMax : n + 16 ≤ requestMax := by
    rw [requestMax]
    omega
  have hmax := (requestSize_of_le hreqMax).2
  have hmin : 16 ≤ wrap32 (requestSize (n + 16)) := Nat.le_trans (by omega) (requestSize_of_le hreqMax).1
  have hfl := ((inTable_mappingSearch (wrap32_lt _)).mpr (Or.inl hmax)).1
  obtain ⟨hpages, hsmall⟩ := growPages_lt hreqMax
  have hgrown : (heapGrow hhdm (n + 16) s).1 ≠ 0 := by
    rcases heapGrow_cases hok (n + 16) with ⟨hnone, -⟩ | ⟨start', hpos, -, hgrow⟩
    · exact absurd hrun (hnone start)
    · rw [hgrow]
      exact Nat.ne_of_gt (Nat.mul_pos hpos (by decide))
  obtain ⟨start', h', -, hok', ht, hblocks⟩ := hok.heapGrow_ok hreqMax hgrown
  have hnew : Offers (heapGrow hhdm (n + 16) s).2.mem (wrap32 (requestSize (n + 16))) (FreeAt h'.blocks) ↔
      classCeil (wrap32 (requestSize (n + 16))) ≤ growPages (n + 16) * pageSize - 24 := by
    rw [hok'.represents.offers_iff, hblocks, ← grown_offers_iff hpages hsmall hmin hmax]
    constructor
    · rintro ⟨b, hb, hfree, habove⟩
      simp only [poolBlocks, List.mem_append, List.mem_cons, List.not_mem_nil, or_false] at hb
      rcases hb with hb | rfl | rfl
      · exact absurd (hok.represents.offers_iff.mpr ⟨b, hb, hfree, habove⟩) hoffers
      · exact habove
      · simp at hfree
    · intro habove
      exact ⟨_, List.mem_append_right _ List.mem_cons_self, rfl, habove⟩
  rcases kmalloc_cases hok hn (by omega) with ⟨hlarge, -⟩ | ⟨-, ⟨hfound, -⟩ | ⟨-, ⟨hfail, -⟩ | ⟨-, hkmalloc⟩⟩⟩
  · omega
  · exact absurd ((hok.represents.findSuitable_eq_zero_iff hfl).mpr hoffers) hfound
  · exact absurd hfail hgrown
  · rw [hkmalloc, kmallocStamp_eq_zero_iff, tlsfMalloc_eq_zero_iff h.pos hreq, ← ht, hok'.represents.findSuitable_eq_zero_iff hfl, hnew]

/-- `kmalloc` gives up only for want of frames exactly when the heap has a block for the request, or no run of frames is left, or the block of the new pool has the size of the request rounded up to its class. -/
theorem kmalloc_retry_serves (hok : HeapOk hhdm s h) (hn : n ≠ 0) (hlt : n < 2 ^ 24) :
    ((kmalloc hhdm n s).1 = 0 → ∀ start, ¬FreeRun s.pmm start (growPages (n + 16))) ↔
      Offers s.mem (wrap32 (requestSize (n + 16))) (FreeAt h.blocks) ∨ (∀ start, ¬FreeRun s.pmm start (growPages (n + 16))) ∨
        classCeil (wrap32 (requestSize (n + 16))) ≤ growPages (n + 16) * pageSize - 24 := by
  by_cases hoffers : Offers s.mem (wrap32 (requestSize (n + 16))) (FreeAt h.blocks)
  · refine iff_of_true (fun hzero => ?_) (Or.inl hoffers)
    have hreqMax : n + 16 ≤ requestMax := by
      rw [requestMax]
      omega
    have hfl := ((inTable_mappingSearch (wrap32_lt _)).mpr (Or.inl (requestSize_of_le hreqMax).2)).1
    have hfound := fun hnone => (hok.represents.findSuitable_eq_zero_iff hfl).mp hnone hoffers
    rcases kmalloc_cases hok hn (by omega) with ⟨hlarge, -⟩ | ⟨-, ⟨-, hkmalloc⟩ | ⟨hnone, -⟩⟩
    · omega
    · rw [hkmalloc, kmallocStamp_eq_zero_iff, tlsfMalloc_eq_zero_iff h.pos (by omega)] at hzero
      exact absurd hzero hfound
    · exact absurd hnone hfound
  · by_cases hruns : ∀ start, ¬FreeRun s.pmm start (growPages (n + 16))
    · exact iff_of_true (fun _ => hruns) (Or.inr (Or.inl hruns))
    · obtain ⟨start, hrun⟩ := not_forall_not.mp hruns
      rw [hok.kmalloc_grown_iff hn hlt hoffers hrun]
      simp only [hruns, hoffers, false_or, imp_false, not_not]

/-! ### A heap of two pages, and all other frames but one megabyte's worth free -/

/-- Frames 0 to 7 are taken. -/
def idleFrames : Pmm where
  bitmap i := if i = 0 then 0#8 else 0xFF#8
  totalFrames := pmmFrameCount
  firstUsable := 0
  freeFrames := freeCount (fun i => if i = 0 then 0#8 else 0xFF#8) pmmFrameCount

theorem idleFrames_taken {frame : Nat} (hframe : frame < 8) : bitmapGet idleFrames.bitmap frame = false := by
  rw [bitmapGet]
  simp [idleFrames, Nat.div_eq_of_lt hframe]

theorem idleFrames_inv : idleFrames.Inv := by
  refine ⟨rfl, Nat.zero_le _, fun _ hlt => absurd hlt (Nat.not_lt_zero _), idleFrames_taken (by decide), ?_⟩
  simp only [idleFrames]

/-- The heap of `freshHeap` in frames 1 and 2. -/
def smallHeap : KernelHeap := ⟨freshHeap.mem, idleFrames, 4096, 8192, 0, 0, false⟩

theorem smallHeap_ok : ∃ h, HeapOk 0 smallHeap h ∧ h.t = 4096 ∧ h.blocks = [⟨7424, 4840, true⟩, ⟨12272, 0, false⟩] := by
  obtain ⟨h, ht, hblocks, hrep⟩ := freshHeap_represents
  refine ⟨h, ⟨hrep, ht, fun pool hpool => ?_, idleFrames_inv, by decide, fun y hy => ⟨Nat.zero_le y, idleFrames_taken ?_⟩⟩, ht, hblocks⟩
  · rw [hblocks] at hpool
    simp [poolsFrom] at hpool
    rw [hpool]
    decide
  · rw [ht, hblocks, controlSize] at hy
    have hend : y < 12280 := by
      rcases hy with ⟨-, hhi⟩ | ⟨b, hb, -, hhi⟩
      · omega
      · simp only [List.mem_cons, List.not_mem_nil, or_false] at hb
        rcases hb with rfl | rfl
        · simp only [TlsfBlock.fin, hdrSize] at hhi
          omega
        · simp only [TlsfBlock.fin, hdrSize] at hhi
          omega
    rw [pageSize]
    omega

theorem alloc_enough_hundred : ∃ h, h.t = 4096 ∧ AllocatesEnough 0 100 smallHeap h := by
  obtain ⟨h, hok, ht, -⟩ := smallHeap_ok
  exact ⟨h, ht, (alloc_enough hok (by decide) (by decide)).1 ⟨Or.inl (by decide), Or.inl (by decide)⟩⟩

/-- A request of 2^32 + 8 bytes is cut to 8 bytes, and is served from the block there is. -/
theorem alloc_enough_cut :
    ¬∀ (hhdm n : Nat) (s : KernelHeap) (h : TlsfHeap), HeapOk hhdm s h → n ≠ 0 → n < 2 ^ 64 → AllocatesEnough hhdm n s h := by
  intro hall
  obtain ⟨h, hok, -, hblocks⟩ := smallHeap_ok
  have hfound : findSuitable smallHeap.mem h.t (wrap32 (requestSize (2 ^ 32 + 8))) ≠ 0 :=
    hok.represents.findSuitable_ne_zero (by decide) (b := ⟨7424, 4840, true⟩) (by simp [hblocks]) rfl (Or.inl (by decide))
  have hptr := fun hzero => hfound ((tlsfMalloc_eq_zero_iff h.pos (by decide)).mp hzero)
  obtain ⟨b, hb, -, -, hsize, -⟩ := (hall 0 (2 ^ 32 + 8) smallHeap h hok (by decide) (by decide)).tlsf hptr
  have hsmall := h.small b hb
  omega

theorem smallHeap_run : FreeRun smallHeap.pmm 8 32 := by
  refine ⟨by decide, fun i hi => ?_⟩
  have hall : ∀ i < 32, bitmapGet idleFrames.bitmap (8 + i) = true := by decide
  exact hall i hi

theorem kmalloc_retry_serves_hundred : ¬((kmalloc 0 100 smallHeap).1 = 0 ∧ ∃ start, FreeRun smallHeap.pmm start (growPages 116)) := by
  rintro ⟨hzero, start, hrun⟩
  obtain ⟨h, hok, -, -⟩ := smallHeap_ok
  exact (kmalloc_retry_serves hok (by decide) (by decide)).mpr (Or.inr (Or.inr (by decide))) hzero start hrun

/-- A request of 131056 bytes and its header take 32 pages exactly, and a pool of 32 pages has no room for its own headers besides. -/
theorem kmalloc_retry_fails :
    ¬∀ (hhdm n : Nat) (s : KernelHeap) (h : TlsfHeap), HeapOk hhdm s h → n ≠ 0 → n < 2 ^ 24 →
      (kmalloc hhdm n s).1 = 0 → ∀ start, ¬FreeRun s.pmm start (growPages (n + 16)) := by
  intro hall
  obtain ⟨h, hok, -, hblocks⟩ := smallHeap_ok
  have hoffers : ¬Offers smallHeap.mem (wrap32 (requestSize (131056 + 16))) (FreeAt h.blocks) := by
    rw [hok.represents.offers_iff, hblocks]
    rintro ⟨b, hb, hfree, habove⟩
    simp only [List.mem_cons, List.not_mem_nil, or_false] at hb
    rcases hb with rfl | rfl
    · rcases habove with hlt | ⟨heq, -⟩
      · exact absurd hlt (by decide)
      · exact absurd heq (by decide)
    · simp at hfree
  have hzero := (hok.kmalloc_grown_iff (n := 131056) (by decide) (by decide) hoffers smallHeap_run).mpr (by decide)
  exact hall 0 131056 smallHeap h hok (by decide) (by decide) hzero 8 smallHeap_run

end Tsukasa
