import Tsukasa.Mm.HeapGrow
import Mathlib.Algebra.BigOperators.Group.List.Basic

/-!
# Giving memory back, once and twice

`kfree` finds the header of an allocation in front of its pointer, clears the word there, and gives the block back. The header lies where `tlsf_free` keeps the links and the footer of a free block, so whether a second `kfree` still finds the word cleared depends on which of them are written there.
-/

namespace Tsukasa

open Lib (Memory)

variable {m : Memory} {t y n p : Nat} {before after blocks : List TlsfBlock} {b c x : TlsfBlock} {q : Bool} {lists : Nat → Nat → List Nat}
  {h : TlsfHeap} {s : KernelHeap} {allocs : List (Nat × Nat)}

/-! ### What freeing leaves of the payload -/

theorem Spaced.mono {nodes nodes' : Nat → Prop} (hs : Spaced t nodes) (hsub : ∀ a, nodes' a → nodes a) : Spaced t nodes' :=
  ⟨fun a ha => hs.pos a (hsub a ha), fun a ha => hs.control a (hsub a ha), fun a c ha hc => hs.apart a c (hsub a ha) (hsub c hc)⟩

namespace Open

/-- Taking a free block out of its list does not write into the open block. -/
theorem removeBlock_inside (h : Open m t before x after q lists) (hb : b ∈ before ++ after) (hfree : b.free = true)
    (hsize : blockSize m b.addr = b.size) (hlo : x.addr ≤ y) (hhi : y < x.fin) : removeBlock t b.addr m y = m y := by
  have hspaced : Spaced t (FreeAt (before ++ after)) := by
    refine h.layout.spaced.mono fun a ha => ?_
    obtain ⟨c, hc, hcfree, haddr⟩ := ha
    exact ⟨c, mem_middle hc, hcfree, haddr⟩
  have hroom := (h.layout.room x (by simp)).2.2
  have hclass : mappingInsert (blockSize m b.addr) = ((mappingInsert b.size).1, (mappingInsert b.size).2) := by rw [hsize]
  have hmem : b.addr ∈ lists (mappingInsert b.size).1 (mappingInsert b.size).2 := (h.filed _ _ _).mpr ⟨b, hb, hfree, rfl, rfl⟩
  refine removeBlock_apply h.indexed hspaced h.filed.free_at hmem hclass ⟨by omega, ?_⟩
  rintro _ ⟨c, hc, hcfree, rfl⟩
  have hapart := h.layout.apart_middle c hc
  have hmin := h.sizes_of_free c hc hcfree
  simp only [TlsfBlock.fin, hdrSize, blockMin] at hapart hmin hhi
  omega

/-- The joins write no more of the open block than its header. -/
theorem coalescePrev_inside (h : Open m t before x after q lists) (hlo : x.addr + hdrSize ≤ y) (hhi : y < x.fin) :
    (coalescePrev t x.addr m).2 y = m y := by
  have hflag := h.header.prevFree
  rcases before.eq_nil_or_concat' with rfl | ⟨before, b, rfl⟩
  · rw [coalescePrev, hflag, if_neg (by simp [lastFree])]
  · rw [lastFree_append_singleton] at hflag
    rw [coalescePrev, hflag]
    split
    · next hb =>
        obtain ⟨hnext, hheader, hprev⟩ := h.prev_block hb
        have hmin := h.sizes_of_free b (by simp) hb
        dsimp only
        rw [hprev, blockSetSize, Memory.store_apply_of_outside]
        · exact h.removeBlock_inside (by simp) hb hheader.size (by omega) hhi
        · simp only [TlsfBlock.fin, hdrSize] at hnext hlo
          omega
    · rfl

theorem coalesceNext_inside (h : Open m t before x after q lists) (hlo : x.addr + hdrSize ≤ y) (hhi : y < x.fin) :
    coalesceNext t x.addr m y = m y := by
  obtain ⟨n, rest, rfl, hnext⟩ := h.layout.next_block h.used
  obtain ⟨hheader, -, -⟩ := h.tagsRight
  have hphys : blockPhysNext m x.addr = n.addr := by
    rw [blockPhysNext, h.header.size, hnext, TlsfBlock.fin]
  rw [coalesceNext, hphys, hheader.isFree]
  split
  · next hn =>
      dsimp only
      rw [hdrSize] at hlo
      rw [blockSetSize, Memory.store_apply_of_outside _ (by omega)]
      exact h.removeBlock_inside (by simp) hn hheader.size (by omega) hhi
  · rfl

/-- The footer is the last word of the open block. -/
theorem writeFooter_inside (h : Open m t before x after q lists) (hhi : y + footerSize < x.fin) : blockWriteFooter x.addr m y = m y := by
  refine Memory.store_apply_of_outside _ (Or.inl ?_)
  rw [blockFooter, h.header.size]
  rw [TlsfBlock.fin] at hhi
  omega

/-- Filing the open block clears its first link, and leaves all behind its links. -/
theorem insert_inside (h : Open m t before x after q lists) (hfree : x.free = true) (hsize : x.size < 2 ^ 25) :
    prevFreeLink (insertBlock t x.addr m) x.addr = 0 ∧ ∀ y, x.addr + blockMin ≤ y → y < x.fin → insertBlock t x.addr m y = m y := by
  have hx : x ∈ before ++ (x :: after) := by simp
  have hnodes : ∀ fl sl a, a ∈ lists fl sl → FreeAt (before ++ (x :: after)) a := by
    intro fl sl a ha
    obtain ⟨c, hc, hcfree, haddr⟩ := h.filed.free_at fl sl a ha
    exact ⟨c, mem_middle hc, hcfree, haddr⟩
  have hnew : ∀ fl sl, x.addr ∉ lists fl sl := by
    intro fl sl ha
    obtain ⟨c, hc, -, haddr⟩ := h.filed.free_at fl sl _ ha
    have hapart := h.layout.apart_middle c hc
    simp only [TlsfBlock.fin, hdrSize] at hapart
    omega
  have hfl := mappingInsert_fl_lt_iff.mpr hsize
  have hsl := mappingInsert_sl_lt x.size
  have hclass : mappingInsert (blockSize m x.addr) = ((mappingInsert x.size).1, (mappingInsert x.size).2) := by rw [h.header.size]
  have hindexed := insertBlock_indexed h.indexed h.layout.spaced hnodes ⟨x, hx, hfree, rfl⟩ hnew hfl hsl hclass
  constructor
  · have hlist := hindexed.linked _ _ hfl hsl
    rw [insertList, if_pos ⟨rfl, rfl⟩] at hlist
    have hprev : prevLinks (insertBlock t x.addr m) x.addr = ([] : List Nat).getLast? := hlist.prev_eq
    exact linkTo_eq_none.mp hprev
  · intro y hlo hhi
    have hroom := (h.layout.room x hx).2.2
    rw [blockMin] at hlo
    refine insertBlock_apply h.indexed h.layout.spaced hnodes ⟨x, hx, hfree, rfl⟩ hfl hsl hclass ⟨by omega, ?_⟩
    rintro _ ⟨c, hc, hcfree, rfl⟩
    rcases eq_or_ne c x with rfl | hne
    · omega
    · have hapart := h.layout.apart_of_ne hc hx hne
      have hmin := h.layout.blockMin_le_of_free hc hcfree
      simp only [TlsfBlock.fin, hdrSize, blockMin] at hapart hmin hhi
      omega

end Open

/-- Up to the last step, freeing a block leaves its payload but for the footer. -/
theorem Represents.freeClosed_inside (hrep : Represents m h) (hblocks : h.blocks = before ++ (b :: after)) (hused : b.free = false)
    (hne : b.size ≠ 0) (hlo : b.addr + hdrSize ≤ y) (hhi : y + footerSize < b.fin) : freeClosed h.t b.addr m y = m y := by
  have hl := h.layout
  rw [hblocks] at hl
  have hl' := hl.setFree hne true
  have hfreeing := hrep.freeing hblocks hused hne
  obtain ⟨lists₁, hmarked⟩ := hfreeing.marked
  obtain ⟨lists₂, hjoined⟩ := hfreeing.joined
  have hblock := (joinPrev_block hl' rfl).1
  have hmerged : (joinNext (joinPrev before { b with free := true }).2 after).1 = mergedBlock before b after := (freed_spec hl hused hne).1
  have hsmall := @joinPrev_size_lt before { b with free := true }
    (fun c hc => h.small c (by rw [hblocks]; exact List.mem_append_left _ hc)) (h.small b (by simp [hblocks]))
  obtain ⟨⟨q, lists₃, hnext⟩, -, -, haddr, -⟩ := coalesceNext_open hjoined (by rw [hblock]) hsmall
  simp only [TlsfBlock.fin, hdrSize, footerSize] at hlo hhi
  -- the block keeps its bytes while it grows, first to the left and then to the right
  have hmark : freeMarked b.addr m y = m y := by
    have hheader : blockSize (blockSetFree b.addr true m) b.addr = b.size := (hrep.toOpen hblocks hused hne).header.setFree.size
    rw [freeMarked, blockWriteFooter, blockFooter, hheader, hdrSize, footerSize, Memory.store_apply_of_outside _ (by omega), blockSetFree,
      Memory.store_apply_of_outside _ (by omega)]
  have hmerge : (freeMerged h.t b.addr m).2 y = freeMarked b.addr m y := by
    refine hmarked.coalescePrev_inside ?_ ?_
    · exact hlo
    · simp only [TlsfBlock.fin, hdrSize]
      omega
  have hjoin : coalesceNext h.t (joinPrev before { b with free := true }).2.addr (freeMerged h.t b.addr m).2 y = (freeMerged h.t b.addr m).2 y := by
    refine hjoined.coalesceNext_inside ?_ ?_
    · simp only [hblock, hdrSize]
      omega
    · simp only [hblock, TlsfBlock.fin, hdrSize]
      omega
  obtain ⟨hflag, hkeep, -⟩ := hnext.setNext true
  have hfoot := hflag.writeFooter_inside (y := y) (by simp only [hmerged, mergedBlock, TlsfBlock.fin, hdrSize, footerSize]; omega)
  have hset := hkeep y (by simp only [hmerged, mergedBlock]; omega) (by simp only [hmerged, mergedBlock, TlsfBlock.fin, hdrSize]; omega)
  rw [haddr] at hfoot hset
  rw [freeClosed, hfreeing.merged]
  exact hfoot.trans (hset.trans (hjoin.trans (hmerge.trans hmark)))

/-- A free block in front has room for its links. -/
theorem prevSize_cases (hl : Layout t (before ++ (x :: after))) : prevSize before = 0 ∨ blockMin + hdrSize ≤ prevSize before := by
  rcases before.eq_nil_or_concat' with rfl | ⟨before, c, rfl⟩
  · exact Or.inl rfl
  · rw [prevSize, List.getLast?_concat]
    dsimp only
    split
    · next hc =>
        exact Or.inr (Nat.add_le_add_right (hl.blockMin_le_of_free (b := c) (by simp) hc) _)
    · exact Or.inl rfl

/-- A cleared word at the start of the payload is still cleared when the block is on a list: it is the first link there, or it lies inside the joined block. -/
theorem Represents.tlsfFree_first_word (hrep : Represents m h) (hblocks : h.blocks = before ++ (b :: after)) (hused : b.free = false)
    (hne : b.size ≠ 0) (hsize : (mergedBlock before b after).size < 2 ^ 25) (hzero : m.load (b.addr + hdrSize) 8 = 0) :
    (tlsfFree h.t (blockToPtr b.addr) m).load (b.addr + hdrSize) 8 = 0 := by
  have hl := h.layout
  rw [hblocks] at hl
  have hmin := ((hl.sizes b (by simp)).resolve_left fun hs => hne hs.1).1
  rw [blockMin] at hmin
  have hfreeing := hrep.freeing hblocks hused hne
  obtain ⟨hmerged, -⟩ := freed_spec hl hused hne
  obtain ⟨lists, hclosed⟩ := hfreeing.closed
  obtain ⟨hlink, hkeep⟩ := hclosed.insert_inside hfreeing.free (by rw [hmerged]; exact hsize)
  rw [hmerged] at hlink hkeep
  rw [tlsfFree_eq h.pos, ← hfreeing.addr, hmerged]
  have haddr : (mergedBlock before b after).addr = b.addr - prevSize before := rfl
  rcases prevSize_cases hl with hnone | hprev
  · rw [hnone, Nat.sub_zero] at haddr
    rw [haddr] at hlink ⊢
    exact hlink
  · have hpos := (hclosed.layout.room (freed before b after).2.1 (by simp)).1
    rw [hmerged, haddr] at hpos
    rw [blockMin, hdrSize] at hprev
    rw [← hzero]
    refine Memory.load_congr fun y hlo hhi => ?_
    have hlo' : b.addr + 8 ≤ y := hlo
    have hhi' : y < b.addr + 8 + 8 := hhi
    have hin : (mergedBlock before b after).addr + blockMin ≤ y ∧ y < (mergedBlock before b after).fin := by
      simp only [mergedBlock, TlsfBlock.fin, hdrSize, blockMin]
      omega
    have hfooter : y + footerSize < b.fin := by
      simp only [TlsfBlock.fin, hdrSize, footerSize]
      omega
    rw [hkeep y hin.1 hin.2, hrep.freeClosed_inside hblocks hused hne hlo hfooter]

/-! ### Allocations -/

/-- The pointers that `kmalloc` has handed out, with the sizes asked for: each points behind a header, at the start of a block of its own. -/
structure Allocations (m : Memory) (h : TlsfHeap) (allocs : List (Nat × Nat)) : Prop where
  nodup : (allocs.map Prod.fst).Nodup
  block : ∀ a ∈ allocs, ∃ b ∈ h.blocks, b.free = false ∧ b.size ≠ 0 ∧ a.1 = blockToPtr b.addr + heapHeaderSize
  magic : ∀ a ∈ allocs, m.load (a.1 - heapHeaderSize) 8 = heapAllocMagic
  size : ∀ a ∈ allocs, m.load (a.1 - heapHeaderSize + 8) 8 = a.2

/-- The header of an allocation lies in the payload of its block, which the allocator does not read. -/
theorem Layout.header_words (hl : Layout t blocks) (hb : b ∈ blocks) (hused : b.free = false) (hne : b.size ≠ 0)
    (hlo : b.addr + hdrSize ≤ y) (hhi : y < b.addr + hdrSize + heapHeaderSize) : y < b.fin ∧ ¬Owned t blocks y := by
  have hmin := ((hl.sizes b hb).resolve_left fun hs => hne hs.1).1
  have hfin : y < b.fin := by
    simp only [TlsfBlock.fin, hdrSize, blockMin, heapHeaderSize] at *
    omega
  exact ⟨hfin, hl.payload_not_owned hb hused hlo hfin⟩

/-- The address of the header, as `kfree` computes it. -/
theorem Layout.wrap64_header (hl : Layout t blocks) (hb : b ∈ blocks) (hne : b.size ≠ 0) (hptr : p = blockToPtr b.addr + heapHeaderSize) :
    p ≠ 0 ∧ wrap64 (p + (2 ^ 64 - heapHeaderSize)) = blockToPtr b.addr := by
  have hmin := ((hl.sizes b hb).resolve_left fun hs => hne hs.1).1
  have hroom := (hl.room b hb).2.1
  simp only [TlsfBlock.fin, hdrSize, blockMin] at hmin hroom
  rw [hptr, blockToPtr, hdrSize, heapHeaderSize, wrap64]
  omega

/-- What `kfree` does to a live allocation. -/
theorem Allocations.kfree_eq (hallocs : Allocations s.mem h allocs) (hcontrol : h.t = s.heap) (hp : (p, n) ∈ allocs) (hb : b ∈ h.blocks)
    (hne : b.size ≠ 0) (hptr : p = blockToPtr b.addr + heapHeaderSize) :
    kfree p s = { s with
      mem := tlsfFree h.t (blockToPtr b.addr) (s.mem.store (blockToPtr b.addr) 8 0)
      allocatedBytes := if n ≤ s.allocatedBytes then s.allocatedBytes - n else 0 } := by
  obtain ⟨hpos, hhdr⟩ := h.layout.wrap64_header hb hne hptr
  have hback : p - heapHeaderSize = blockToPtr b.addr := by rw [hptr, Nat.add_sub_cancel]
  have hmagic : s.mem.load (p - heapHeaderSize) 8 = heapAllocMagic := hallocs.magic (p, n) hp
  have hsize : s.mem.load (p - heapHeaderSize + 8) 8 = n := hallocs.size (p, n) hp
  rw [hback] at hmagic hsize
  have hheap : ¬(s.heap = 0 ∨ p = 0) := not_or.mpr ⟨hcontrol ▸ h.pos, hpos⟩
  have hkeep : (s.mem.store (blockToPtr b.addr) 8 0).load (blockToPtr b.addr + 8) 8 = n :=
    (Memory.load_store_of_disjoint _ (Or.inr (Nat.le_refl _))).trans hsize
  rw [kfree, if_neg hheap, hhdr]
  dsimp only
  rw [if_pos hmagic, hkeep, hcontrol]

/-- Allocations stay what they are while their blocks stay in use and their payloads are left alone. -/
theorem Allocations.keep (hallocs : Allocations m h allocs) {m' : Memory} {h' : TlsfHeap} {rest : List (Nat × Nat)} (hsub : rest.Sublist allocs)
    (hkeep : ∀ a ∈ rest, ∀ c ∈ h.blocks, a.1 = blockToPtr c.addr + heapHeaderSize → c.free = false →
      c ∈ h'.blocks ∧ ∀ y, c.addr + hdrSize ≤ y → y < c.fin → m' y = m y) : Allocations m' h' rest := by
  have hheader : ∀ a ∈ rest, (∃ c ∈ h'.blocks, c.free = false ∧ c.size ≠ 0 ∧ a.1 = blockToPtr c.addr + heapHeaderSize) ∧
      ∀ y, a.1 - heapHeaderSize ≤ y → y < a.1 - heapHeaderSize + heapHeaderSize → m' y = m y := by
    intro a ha
    obtain ⟨c, hc, hused, hne, hptr⟩ := hallocs.block a (hsub.subset ha)
    obtain ⟨hc', hsame⟩ := hkeep a ha c hc hptr hused
    refine ⟨⟨c, hc', hused, hne, hptr⟩, fun y hlo hhi => ?_⟩
    rw [hptr, Nat.add_sub_cancel, blockToPtr] at hlo hhi
    exact hsame y hlo (h.layout.header_words hc hused hne hlo hhi).1
  refine ⟨hallocs.nodup.sublist (hsub.map _), fun a ha => (hheader a ha).1, fun a ha => ?_, fun a ha => ?_⟩
  · rw [← hallocs.magic a (hsub.subset ha)]
    refine Memory.load_congr fun y hlo hhi => (hheader a ha).2 y hlo ?_
    rw [heapHeaderSize] at hhi ⊢
    omega
  · rw [← hallocs.size a (hsub.subset ha)]
    refine Memory.load_congr fun y hlo hhi => (hheader a ha).2 y (by omega) ?_
    rw [heapHeaderSize] at hhi ⊢
    omega

/-- The word that `kfree` clears is not the allocator's. -/
theorem Represents.clearMagic (hrep : Represents m h) (hb : b ∈ h.blocks) (hused : b.free = false) (hne : b.size ≠ 0) :
    Represents (m.store (blockToPtr b.addr) 8 0) h := by
  refine hrep.congr fun y hy => Memory.store_apply_of_outside _ ?_
  by_contra hin
  rw [not_or, not_lt, not_le, blockToPtr] at hin
  exact (h.layout.header_words hb hused hne hin.1 (by rw [heapHeaderSize]; omega)).2 hy

/-- The heap after `kfree`: the block is given back, no other header has changed, and the word of this one is cleared. -/
theorem Allocations.kfree (hallocs : Allocations s.mem h allocs) (hrep : Represents s.mem h) (hcontrol : h.t = s.heap)
    (hsmall : ∀ pool ∈ poolsFrom none h.blocks, pool.2 < pool.1 + 2 ^ 25) (hp : (p, n) ∈ allocs) :
    (∃ h', Represents (kfree p s).mem h' ∧ h'.t = h.t ∧ Allocations (kfree p s).mem h' (allocs.erase (p, n))) ∧
      p ≠ 0 ∧ (kfree p s).mem.load (wrap64 (p + (2 ^ 64 - heapHeaderSize))) 8 = 0 := by
  obtain ⟨b, hb, hused, hne, hptr⟩ := hallocs.block (p, n) hp
  obtain ⟨hpos, hhdr⟩ := h.layout.wrap64_header hb hne hptr
  obtain ⟨before, after, hblocks⟩ := List.append_of_mem hb
  have hl := h.layout
  rw [hblocks] at hl
  have hrep' := hrep.clearMagic hb hused hne
  have hmerged := mergedBlock_small hl hused hne (hblocks ▸ hsmall)
  obtain ⟨h', hfreed⟩ := tlsfFree_freed hrep' hblocks hused hne hmerged
  have hzero := hrep'.tlsfFree_first_word hblocks hused hne hmerged (by rw [blockToPtr, Memory.load_store_self]; rfl)
  rw [hhdr, hallocs.kfree_eq hcontrol hp hb hne hptr]
  refine ⟨⟨h', hfreed.represents, hfreed.control, hallocs.keep List.erase_sublist fun a ha c hc haptr hcused => ?_⟩, hpos, hzero⟩
  have hcb : c ≠ b := by
    rintro rfl
    obtain ⟨hother, ha⟩ := hallocs.nodup.of_map.mem_erase_iff.mp ha
    exact hother (List.inj_on_of_nodup_map hallocs.nodup ha hp (haptr.trans hptr.symm))
  obtain ⟨hc', hsame⟩ := hfreed.used c hc hcused hcb
  refine ⟨hc', fun y hlo hhi => (hsame y hlo hhi).trans (Memory.store_apply_of_outside _ ?_)⟩
  have hapart := h.layout.apart_of_ne hc hb hcb
  have hmin := ((h.layout.sizes b hb).resolve_left fun hs => hne hs.1).1
  simp only [TlsfBlock.fin, hdrSize, blockMin, blockToPtr] at *
  omega

/-! ### Where allocations come from -/

theorem kmallocStamp_mem {ptr : Nat} (hptr : ptr ≠ 0) :
    (kmallocStamp n ptr s).2.mem = (s.mem.store ptr 8 heapAllocMagic).store (ptr + 8) 8 n := by
  rw [kmallocStamp, if_neg hptr]

theorem kmallocStamp_heap (size ptr : Nat) (s : KernelHeap) : (kmallocStamp size ptr s).2.heap = s.heap := by
  rw [kmallocStamp]
  split <;> rfl

/-- The header of a new allocation is written into its block, and the other blocks in use are as they were. -/
theorem Allocations.stamped (hallocs : Allocations m h allocs) {m' : Memory} {h' : TlsfHeap} (hrep' : Represents m' h') (hc : c ∈ h'.blocks)
    (hcused : c.free = false) (hcne : c.size ≠ 0) (hword : n < 2 ^ 64) (hkept : ∀ d ∈ h.blocks, d.free = false → d ∈ h'.blocks ∧ d ≠ c)
    (hframe : ∀ d ∈ h.blocks, d.free = false → ∀ y, d.addr + hdrSize ≤ y → y < d.fin → m' y = m y) :
    Represents ((m'.store (blockToPtr c.addr) 8 heapAllocMagic).store (blockToPtr c.addr + 8) 8 n) h' ∧
      Allocations ((m'.store (blockToPtr c.addr) 8 heapAllocMagic).store (blockToPtr c.addr + 8) 8 n) h'
        ((blockToPtr c.addr + heapHeaderSize, n) :: allocs) := by
  have hstamp : ∀ y, y < c.addr + hdrSize ∨ c.addr + hdrSize + heapHeaderSize ≤ y →
      ((m'.store (blockToPtr c.addr) 8 heapAllocMagic).store (blockToPtr c.addr + 8) 8 n) y = m' y := by
    intro y hy
    rw [hdrSize, heapHeaderSize] at hy
    rw [Memory.store_apply_of_outside _ (by rw [blockToPtr, hdrSize]; omega), Memory.store_apply_of_outside _ (by rw [blockToPtr, hdrSize]; omega)]
  have hold : Allocations ((m'.store (blockToPtr c.addr) 8 heapAllocMagic).store (blockToPtr c.addr + 8) 8 n) h' allocs := by
    refine hallocs.keep (List.Sublist.refl _) fun a ha d hd haptr hdused => ?_
    obtain ⟨hd', hdc⟩ := hkept d hd hdused
    refine ⟨hd', fun y hlo hhi => (hstamp y ?_).trans (hframe d hd hdused y hlo hhi)⟩
    have hapart := h'.layout.apart_of_ne hd' hc hdc
    have hmin := ((h'.layout.sizes c hc).resolve_left fun hs => hcne hs.1).1
    simp only [TlsfBlock.fin, hdrSize, blockMin, heapHeaderSize] at *
    omega
  have hnew : blockToPtr c.addr + heapHeaderSize ∉ allocs.map Prod.fst := by
    rw [List.mem_map]
    rintro ⟨a, ha, haptr⟩
    obtain ⟨d, hd, hdused, -, hdptr⟩ := hallocs.block a ha
    obtain ⟨hd', hdc⟩ := hkept d hd hdused
    refine hdc (h'.layout.addr_inj hd' hc ?_)
    rw [hdptr, blockToPtr, blockToPtr] at haptr
    omega
  refine ⟨hrep'.congr fun y hy => hstamp y ?_, List.nodup_cons.mpr ⟨hnew, hold.nodup⟩, ?_, ?_, ?_⟩
  · by_contra hin
    exact (h'.layout.header_words hc hcused hcne (by omega) (by omega)).2 hy
  · rw [List.forall_mem_cons]
    exact ⟨⟨c, hc, hcused, hcne, rfl⟩, hold.block⟩
  · rw [List.forall_mem_cons]
    refine ⟨?_, hold.magic⟩
    rw [Nat.add_sub_cancel, Memory.load_store_of_disjoint _ (Or.inl (Nat.le_refl _)), Memory.load_store_self]
    rfl
  · rw [List.forall_mem_cons]
    refine ⟨?_, hold.size⟩
    rw [Nat.add_sub_cancel, Memory.load_store_self, mod_word hword]

/-- Of the blocks in use before a free block is cut up, all stay, and none begins where it did. -/
theorem used_kept {h' : TlsfHeap} {part : List TlsfBlock} (hblocks : h.blocks = before ++ (b :: after)) (hfree : b.free = true)
    (hblocks' : h'.blocks = before ++ (part ++ after)) (hcaddr : c.addr = b.addr) {d : TlsfBlock} (hd : d ∈ h.blocks) (hdused : d.free = false) :
    d ∈ h'.blocks ∧ d ≠ c := by
  have hb : b ∈ h.blocks := by simp [hblocks]
  have hdb : d ≠ b := by
    rintro rfl
    rw [hfree] at hdused
    simp at hdused
  refine ⟨?_, fun hdc => hdb (h.layout.addr_inj hd hb (hdc ▸ hcaddr))⟩
  rw [hblocks] at hd
  rw [hblocks']
  simp only [List.mem_append, List.mem_cons] at hd ⊢
  rcases hd with hd | hd | hd
  · exact Or.inl hd
  · exact absurd hd hdb
  · exact Or.inr (Or.inr hd)

/-- What `tlsf_malloc` finds is an allocation once its header is written. -/
theorem Allocations.stamp (hallocs : Allocations s.mem h allocs) (hrep : Represents s.mem h) (hcontrol : h.t = s.heap) (hword : n < 2 ^ 64)
    (hfound : findSuitable s.mem h.t (wrap32 (requestSize (n + 16))) ≠ 0) (htakes : TakesEnough s.mem h.t (n + 16)) {r : Nat × KernelHeap}
    (hr : r = kmallocStamp n (tlsfMalloc h.t (n + 16) s.mem).1 { s with mem := (tlsfMalloc h.t (n + 16) s.mem).2 }) :
    ∃ h', Represents r.2.mem h' ∧ h'.t = r.2.heap ∧ poolsFrom none h'.blocks = poolsFrom none h.blocks ∧
      Allocations r.2.mem h' ((r.1, n) :: allocs) := by
  obtain ⟨before, b, after, part, hblocks, hfree, hptr, ⟨h', ht', hblocks', hrep', hpools⟩, ⟨c, hc, hcused, hcne, hcaddr⟩, -, hframe⟩ :=
    hrep.malloc_taken (Nat.add_one_ne_zero _) hfound htakes
  have hc' : c ∈ h'.blocks := by simp [hblocks', hc]
  have hne : blockToPtr c.addr ≠ 0 := Nat.add_one_ne_zero _
  rw [hptr, ← hcaddr] at hr
  rw [hr, kmallocStamp_mem hne, kmallocStamp_fst, if_neg hne, kmallocStamp_heap]
  obtain ⟨hrepNew, hallocsNew⟩ := hallocs.stamped hrep' hc' hcused hcne hword (fun d hd hdused => used_kept hblocks hfree hblocks' hcaddr hd hdused)
    fun d hd hdused y hlo hhi => hframe y (h.layout.payload_not_owned hd hdused hlo hhi)
  exact ⟨h', hrepNew, ht'.trans hcontrol, hpools, hallocsNew⟩

/-- A new pool is no allocation's memory. -/
theorem HeapOk.heapGrow_keep {hhdm : Nat} (hok : HeapOk hhdm s h) (hn : n ≤ requestMax) (hb : b ∈ h.blocks) (hused : b.free = false)
    (hlo : b.addr + hdrSize ≤ y) (hhi : y < b.fin) : (heapGrow hhdm n s).2.mem y = s.mem y := by
  rcases heapGrow_cases hok n with ⟨-, hnone⟩ | ⟨start, hpos, hrun, hsome⟩
  · rw [hnone]
  · obtain ⟨hpages, hsmall⟩ := growPages_lt hn
    have hunused := hok.unused hpos hpages hrun
    have hsize : poolMin ≤ growPages n * pageSize := by
      rw [show poolMin = 52 from rfl, pageSize]
      omega
    obtain ⟨hmin, hle⟩ := poolBlockSize_bounds hsize hsmall
    have hframe := (poolAdd_refines hok.represents hunused hsize (by omega) hmin).2 y (h.layout.payload_not_owned hb hused hlo hhi)
    have hapart := hunused.apart b hb
    rw [hok.control] at hframe
    rw [hsome]
    exact hframe (by omega)

/-- A pointer that `kmalloc` returns is a new allocation, as long as the block taken has room for the request and one more header. -/
theorem Allocations.kmalloc {hhdm : Nat} (hallocs : Allocations s.mem h allocs) (hok : HeapOk hhdm s h) (hn : n ≠ 0) (hmax : n + 16 ≤ requestMax)
    (htakes : TakesEnough s.mem h.t (n + 16))
    (hgrow : findSuitable s.mem h.t (wrap32 (requestSize (n + 16))) = 0 → TakesEnough (heapGrow hhdm (n + 16) s).2.mem h.t (n + 16))
    (hret : (kmalloc hhdm n s).1 ≠ 0) :
    ∃ h', Represents (kmalloc hhdm n s).2.mem h' ∧ h'.t = (kmalloc hhdm n s).2.heap ∧ (∀ pool ∈ poolsFrom none h'.blocks, pool.2 < pool.1 + 2 ^ 25) ∧
      Allocations (kmalloc hhdm n s).2.mem h' (((kmalloc hhdm n s).1, n) :: allocs) := by
  have hroom : n + 16 < 2 ^ 64 := Nat.lt_of_le_of_lt hmax (by decide)
  have hword : n < 2 ^ 64 := by omega
  rcases kmalloc_cases hok hn hword with ⟨hlarge, -⟩ | ⟨-, ⟨hfound, hkmalloc⟩ | ⟨hnone, ⟨hfail, hkmalloc⟩ | ⟨hgrown, hkmalloc⟩⟩⟩
  · omega
  · obtain ⟨h', hrep', ht', hpools, hallocs'⟩ := hallocs.stamp hok.represents hok.control hword hfound htakes hkmalloc
    exact ⟨h', hrep', ht', hpools ▸ hok.small, hallocs'⟩
  · rw [hkmalloc] at hret
    exact absurd hfail hret
  · obtain ⟨start, h₁, -, hok₁, ht₁, hblocks₁⟩ := hok.heapGrow_ok hmax hgrown
    have hallocs₁ : Allocations (heapGrow hhdm (n + 16) s).2.mem h₁ allocs := by
      refine hallocs.keep (List.Sublist.refl _) fun a _ c hc _ hcused => ⟨?_, fun y hlo hhi => hok.heapGrow_keep hmax hc hcused hlo hhi⟩
      rw [hblocks₁]
      exact List.mem_append_left _ hc
    have hfound : findSuitable (heapGrow hhdm (n + 16) s).2.mem h₁.t (wrap32 (requestSize (n + 16))) ≠ 0 := by
      intro hzero
      rw [hkmalloc, ne_eq, kmallocStamp_eq_zero_iff, ← ht₁, tlsfMalloc_eq_zero_iff h₁.pos (by omega)] at hret
      exact hret hzero
    have htakes₁ := hgrow hnone
    rw [← ht₁] at hkmalloc htakes₁
    obtain ⟨h', hrep', ht', hpools, hallocs'⟩ := hallocs₁.stamp hok₁.represents hok₁.control hword hfound htakes₁ hkmalloc
    exact ⟨h', hrep', ht', hpools ▸ hok₁.small, hallocs'⟩

/-! ### Freeing twice -/

theorem kfree_of_cleared (hlive : ¬(s.heap = 0 ∨ p = 0)) (hzero : s.mem.load (wrap64 (p + (2 ^ 64 - heapHeaderSize))) 8 = 0) :
    kfree p s = { s with badFreeWarned := true } := by
  rw [kfree, if_neg hlive]
  dsimp only
  rw [hzero, if_neg (by decide)]

/-- A second `kfree` of the same pointer only leaves a warning, and the books stay the sum of what is live. -/
theorem kfree_twice (hallocs : Allocations s.mem h allocs) (hrep : Represents s.mem h) (hcontrol : h.t = s.heap)
    (hsmall : ∀ pool ∈ poolsFrom none h.blocks, pool.2 < pool.1 + 2 ^ 25) (hp : (p, n) ∈ allocs) :
    kfree p (kfree p s) = { kfree p s with badFreeWarned := true } ∧
      (s.allocatedBytes = (allocs.map Prod.snd).sum → (kfree p s).allocatedBytes = ((allocs.erase (p, n)).map Prod.snd).sum) ∧
      ∃ h', Represents (kfree p s).mem h' ∧ h'.t = h.t ∧ Allocations (kfree p s).mem h' (allocs.erase (p, n)) := by
  obtain ⟨hheap, hpos, hzero⟩ := hallocs.kfree hrep hcontrol hsmall hp
  obtain ⟨b, hb, hused, hne, hptr⟩ := hallocs.block (p, n) hp
  have heq := hallocs.kfree_eq hcontrol hp hb hne hptr
  refine ⟨kfree_of_cleared ?_ hzero, fun hsum => ?_, hheap⟩
  · rw [heq]
    exact not_or.mpr ⟨hcontrol ▸ h.pos, hpos⟩
  · have hbooks : (allocs.map Prod.snd).sum = n + ((allocs.erase (p, n)).map Prod.snd).sum := ((List.perm_cons_erase hp).map Prod.snd).sum_eq
    have hle : n ≤ s.allocatedBytes := by omega
    rw [heq]
    dsimp only
    rw [if_pos hle]
    omega

/-- 100 bytes of a fresh heap are handed out, and freed twice. -/
theorem kfree_twice_hundred :
    ∃ p, p = (kmalloc 0 100 smallHeap).1 ∧ p ≠ 0 ∧
      kfree p (kfree p (kmalloc 0 100 smallHeap).2) = { kfree p (kmalloc 0 100 smallHeap).2 with badFreeWarned := true } := by
  obtain ⟨h, hok, -, hblocks⟩ := smallHeap_ok
  have hnone : Allocations smallHeap.mem h [] := ⟨List.nodup_nil, by simp, by simp, by simp⟩
  have hfound : findSuitable smallHeap.mem h.t (wrap32 (requestSize (100 + 16))) ≠ 0 :=
    hok.represents.findSuitable_ne_zero (by decide) (b := ⟨7424, 4840, true⟩) (by simp [hblocks]) rfl (Or.inl (by decide))
  have htakes : TakesEnough smallHeap.mem h.t (100 + 16) := by
    refine hok.represents.takesEnough (by decide) (by decide) fun b hb hfree => ?_
    simp only [hblocks, List.mem_cons, List.not_mem_nil, or_false] at hb
    rcases hb with rfl | rfl
    · decide
    · simp at hfree
  have hptr : (kmalloc 0 100 smallHeap).1 ≠ 0 := by
    rcases kmalloc_cases hok (n := 100) (by decide) (by decide) with ⟨hlarge, -⟩ | ⟨-, ⟨-, hkmalloc⟩ | ⟨hzero, -⟩⟩
    · omega
    · rw [hkmalloc, ne_eq, kmallocStamp_eq_zero_iff, tlsfMalloc_eq_zero_iff h.pos (by decide)]
      exact hfound
    · exact absurd hzero hfound
  obtain ⟨h', hrep', ht', hsmall', hallocs'⟩ := hnone.kmalloc hok (by decide) (by decide) htakes (fun hzero => absurd hzero hfound) hptr
  exact ⟨_, rfl, hptr, (kfree_twice hallocs' hrep' ht' hsmall' List.mem_cons_self).1⟩

end Tsukasa
