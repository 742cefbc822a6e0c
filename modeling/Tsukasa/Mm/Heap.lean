import Tsukasa.Mm.TlsfFit
import Tsukasa.Mm.PmmSpec
import Tsukasa.Mm.Vmm

/-!
# The kernel heap

`mm/heap.c`: `kmalloc` and `kfree` over one TLSF heap. A request that the heap cannot serve makes it grow by a run of frames, which are reached through the direct map. Every allocation has a header with its size and a word that `kfree` checks.
-/

namespace Tsukasa

open Lib (Memory)

def heapInitPages : Nat := 256

def heapGrowPages : Nat := 32

def heapAllocMagic : Nat := 0x4850414C4C4F434F

/-- `sizeof(heap_alloc_header_t)`. -/
def heapHeaderSize : Nat := 16

/-- The variables of `heap.c`, with the memory and the frames below them. -/
structure KernelHeap where
  mem : Memory
  pmm : Pmm
  heap : Nat
  poolBytes : Nat
  allocatedBytes : Nat
  peakAllocatedBytes : Nat
  badFreeWarned : Bool

def heapInit (hhdm : Nat) (s : KernelHeap) : KernelHeap :=
  let a := pmmAllocPages s.pmm heapInitPages
  if a.1 = 0 then { s with pmm := a.2 }
  else
    let r := tlsfCreate (vmmPhysToVirt hhdm a.1) (heapInitPages * pageSize) s.mem
    { s with
      pmm := a.2
      mem := r.2
      heap := r.1
      poolBytes := if r.1 ≠ 0 then heapInitPages * pageSize else 0
      allocatedBytes := 0
      peakAllocatedBytes := 0
      badFreeWarned := false }

/-- The number of pages `kmalloc` asks for when the heap cannot serve `req` bytes. -/
def growPages (req : Nat) : Nat :=
  let pages := wrap64 (req + 4095) / 4096
  if pages < heapGrowPages then heapGrowPages else pages

/-- The frames that `kmalloc` takes, 0 if there are none, and the heap with them as a pool. -/
def heapGrow (hhdm req : Nat) (s : KernelHeap) : Nat × KernelHeap :=
  let pages := growPages req
  let a := pmmAllocPages s.pmm pages
  if a.1 = 0 then (0, { s with pmm := a.2 })
  else
    (a.1, { s with
      pmm := a.2
      mem := tlsfAddPool s.heap (vmmPhysToVirt hhdm a.1) (wrap64 (pages * 4096)) s.mem
      poolBytes := wrap64 (s.poolBytes + wrap64 (pages * 4096)) })

/-- The last part of `kmalloc`: the header is written, and the books follow. -/
def kmallocStamp (size ptr : Nat) (s : KernelHeap) : Nat × KernelHeap :=
  if ptr = 0 then (0, s)
  else
    let allocated := wrap64 (s.allocatedBytes + size)
    (ptr + heapHeaderSize, { s with
      mem := (s.mem.store ptr 8 heapAllocMagic).store (ptr + 8) 8 size
      allocatedBytes := allocated
      peakAllocatedBytes := if s.peakAllocatedBytes < allocated then allocated else s.peakAllocatedBytes })

def kmalloc (hhdm size : Nat) (s : KernelHeap) : Nat × KernelHeap :=
  if s.heap = 0 ∨ size = 0 then (0, s)
  else
    let req := wrap64 (size + heapHeaderSize)
    if req < size then (0, s)
    else
      let r := tlsfMalloc s.heap req s.mem
      let s := { s with mem := r.2 }
      if r.1 ≠ 0 then kmallocStamp size r.1 s
      else
        let g := heapGrow hhdm req s
        if g.1 = 0 then (0, g.2)
        else
          let r := tlsfMalloc s.heap req g.2.mem
          kmallocStamp size r.1 { g.2 with mem := r.2 }

/-- `kfree`, without the text it prints for a bad pointer. -/
def kfree (ptr : Nat) (s : KernelHeap) : KernelHeap :=
  if s.heap = 0 ∨ ptr = 0 then s
  else
    let hdr := wrap64 (ptr + (2 ^ 64 - heapHeaderSize))
    if s.mem.load hdr 8 = heapAllocMagic then
      let mem := s.mem.store hdr 8 0
      let size := mem.load (hdr + 8) 8
      { s with
        mem := tlsfFree s.heap hdr mem
        allocatedBytes := if size ≤ s.allocatedBytes then s.allocatedBytes - size else 0 }
    else { s with badFreeWarned := true }

variable {hhdm n : Nat} {s : KernelHeap} {h : TlsfHeap} {m : Memory}

/-! ### Well-formed heaps -/

/-- The heap is the one in memory, its pools are smaller than 32 MiB, and the frames below it are taken. -/
structure HeapOk (hhdm : Nat) (s : KernelHeap) (h : TlsfHeap) : Prop where
  represents : Represents s.mem h
  control : h.t = s.heap
  small : ∀ pool ∈ poolsFrom none h.blocks, pool.2 < pool.1 + 2 ^ 25
  pmm : s.pmm.Inv
  fits : hhdm + pmmFrameCount * pageSize ≤ 2 ^ 64
  taken : ∀ y, h.t ≤ y ∧ y < h.t + controlSize ∨ (∃ b ∈ h.blocks, b.addr ≤ y ∧ y < b.fin) →
    hhdm ≤ y ∧ bitmapGet s.pmm.bitmap ((y - hhdm) / pageSize) = false

theorem vmmPhysToVirt_eq {phys : Nat} (hfits : hhdm + phys < 2 ^ 64) : vmmPhysToVirt hhdm phys = hhdm + phys := by
  rw [vmmPhysToVirt, wrap64]
  split <;> omega

theorem growPages_bounds (n : Nat) : heapGrowPages ≤ growPages n ∧ growPages n ≤ 2 ^ 52 := by
  show heapGrowPages ≤ (if (n + 4095) % 2 ^ 64 / 4096 < heapGrowPages then heapGrowPages else (n + 4095) % 2 ^ 64 / 4096) ∧
    (if (n + 4095) % 2 ^ 64 / 4096 < heapGrowPages then heapGrowPages else (n + 4095) % 2 ^ 64 / 4096) ≤ 2 ^ 52
  rw [heapGrowPages]
  split <;> omega

/-- A free run of frames is memory that the heap does not use. -/
theorem HeapOk.unused (hok : HeapOk hhdm s h) {start count : Nat} (hpos : 0 < start) (hcount : 0 < count) (hrun : FreeRun s.pmm start count) :
    Unused h.t h.blocks (hhdm + start * pageSize) (count * pageSize) := by
  have hfits := hok.fits
  obtain ⟨hbound, hbits⟩ := hrun
  rw [← hok.pmm.total] at hfits
  have hmul : start * pageSize + count * pageSize ≤ s.pmm.totalFrames * pageSize := by
    rw [← Nat.add_mul]
    exact Nat.mul_le_mul_right _ hbound
  have hfirst : 0 < start * pageSize := Nat.mul_pos hpos (by decide)
  have hsize : 0 < count * pageSize := Nat.mul_pos hcount (by decide)
  have hout : ∀ y, hhdm + start * pageSize ≤ y → y < hhdm + start * pageSize + count * pageSize →
      ¬(h.t ≤ y ∧ y < h.t + controlSize ∨ ∃ b ∈ h.blocks, b.addr ≤ y ∧ y < b.fin) := by
    intro y hlo hhi hin
    obtain ⟨-, htaken⟩ := hok.taken y hin
    have hframe : start ≤ (y - hhdm) / pageSize ∧ (y - hhdm) / pageSize < start + count := by
      rw [pageSize] at hlo hhi ⊢
      omega
    have hbit := hbits ((y - hhdm) / pageSize - start) (by omega)
    rw [Nat.add_sub_cancel' hframe.1, htaken] at hbit
    simp at hbit
  generalize start * pageSize = first at *
  generalize count * pageSize = size at *
  have hcontrol : 0 < controlSize := by decide
  refine ⟨by omega, by omega, ?_, fun b hb => ?_⟩
  · by_contra hover
    exact hout (max (hhdm + first) h.t) (by omega) (by omega) (Or.inl ⟨by omega, by omega⟩)
  · by_contra hover
    have hfin : b.addr < b.fin := by
      rw [TlsfBlock.fin, hdrSize]
      omega
    exact hout (max (hhdm + first) b.addr) (by omega) (by omega) (Or.inr ⟨b, hb, by omega, by omega⟩)

/-! ### Growth -/

/-- The heap behind `pmm_alloc_pages` and `tlsf_add_pool`, for the run of frames at `start`. -/
def KernelHeap.grown (s : KernelHeap) (hhdm start pages : Nat) : KernelHeap :=
  { s with
    pmm := s.pmm.take start pages
    mem := poolAdd s.heap (hhdm + start * pageSize) (pages * pageSize) s.mem
    poolBytes := wrap64 (s.poolBytes + wrap64 (pages * pageSize)) }

theorem heapGrow_cases (hok : HeapOk hhdm s h) (req : Nat) :
    (∀ start, ¬FreeRun s.pmm start (growPages req)) ∧ heapGrow hhdm req s = (0, s) ∨
      ∃ start, 0 < start ∧ FreeRun s.pmm start (growPages req) ∧
        heapGrow hhdm req s = (start * pageSize, s.grown hhdm start (growPages req)) := by
  obtain ⟨hmin, hmax⟩ := growPages_bounds req
  have hcount : 0 < growPages req := Nat.lt_of_lt_of_le (by decide) hmin
  rcases pmmAllocPages_cases hok.pmm hcount hmax with ⟨start, hpos, hrun, -, halloc⟩ | ⟨hnone, halloc⟩
  · refine Or.inr ⟨start, hpos, hrun, ?_⟩
    have hunused := hok.unused hpos hcount hrun
    have hfits := hunused.fits
    have hfirst : start * pageSize ≠ 0 := Nat.ne_of_gt (Nat.mul_pos hpos (by decide))
    have hsize : 0 < growPages req * pageSize := Nat.mul_pos hcount (by decide)
    have hvirt : vmmPhysToVirt hhdm (start * pageSize) = hhdm + start * pageSize := vmmPhysToVirt_eq (by omega)
    have hheap : ¬(s.heap = 0 ∨ hhdm + start * pageSize = 0) := by
      rw [← hok.control]
      exact not_or.mpr ⟨h.pos, Nat.ne_of_gt hunused.pos⟩
    have hword : wrap64 (growPages req * pageSize) = growPages req * pageSize := wrap64_of_lt (by omega)
    rw [heapGrow, halloc, if_neg hfirst, hvirt, show growPages req * 4096 = growPages req * pageSize from rfl, hword, tlsfAddPool, if_neg hheap,
      KernelHeap.grown, hword]
  · refine Or.inl ⟨hnone, ?_⟩
    rw [heapGrow, halloc, if_pos rfl]

/-- The heap with the new pool is well-formed, as long as the pool is smaller than 32 MiB. -/
theorem HeapOk.grown (hok : HeapOk hhdm s h) {start pages : Nat} (hpos : 0 < start) (hpages : 0 < pages) (hrun : FreeRun s.pmm start pages)
    (hsmall : pages * pageSize < 2 ^ 25) :
    ∃ h', HeapOk hhdm (s.grown hhdm start pages) h' ∧ h'.t = h.t ∧
      h'.blocks = h.blocks ++ poolBlocks (hhdm + start * pageSize) (pages * pageSize) := by
  have hunused := hok.unused hpos hpages hrun
  have hsize : poolMin ≤ pages * pageSize := by
    rw [show poolMin = 52 from rfl, pageSize]
    omega
  obtain ⟨hmin, hle⟩ := poolBlockSize_bounds hsize hsmall
  obtain ⟨⟨h', ht, hblocks, hrep⟩, -⟩ := poolAdd_refines hok.represents hunused hsize (by omega) hmin
  rw [hok.control] at hrep
  have hne : poolBlockSize (pages * pageSize) ≠ 0 := by
    rw [blockMin] at hmin
    omega
  refine ⟨h', ⟨hrep, ht.trans hok.control, fun pool hpool => ?_, hok.pmm.take hrun, hok.fits, fun y hy => ?_⟩, ht, hblocks⟩
  · rw [hblocks, poolsFrom_addPool _ h.layout hne, List.mem_append, List.mem_singleton] at hpool
    rcases hpool with hpool | rfl
    · exact hok.small pool hpool
    · rw [poolEnds, hdrSize]
      omega
  · rw [ht, hblocks] at hy
    rw [KernelHeap.grown, Pmm.bitmapGet_take]
    have hcases : (h.t ≤ y ∧ y < h.t + controlSize ∨ ∃ b ∈ h.blocks, b.addr ≤ y ∧ y < b.fin) ∨
        hhdm + start * pageSize ≤ y ∧ y < hhdm + start * pageSize + pages * pageSize := by
      rcases hy with hy | ⟨b, hb, hlo, hhi⟩
      · exact Or.inl (Or.inl hy)
      · simp only [poolBlocks, List.mem_append, List.mem_cons, List.not_mem_nil, or_false] at hb
        rcases hb with hb | rfl | rfl
        · exact Or.inl (Or.inr ⟨b, hb, hlo, hhi⟩)
        · simp only [TlsfBlock.fin, hdrSize] at hlo hhi
          exact Or.inr ⟨by omega, by omega⟩
        · simp only [TlsfBlock.fin, hdrSize] at hlo hhi
          exact Or.inr ⟨by omega, by omega⟩
    rcases hcases with hold | ⟨hlo, hhi⟩
    · obtain ⟨hge, htaken⟩ := hok.taken y hold
      exact ⟨hge, by rw [htaken, ite_self]⟩
    · have hframe : start ≤ (y - hhdm) / pageSize ∧ (y - hhdm) / pageSize < start + pages := by
        rw [pageSize] at hlo hhi ⊢
        omega
      exact ⟨by omega, if_pos hframe⟩

end Tsukasa
