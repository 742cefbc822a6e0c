import Tsukasa.Mm.HeapFree
import Tsukasa.Mm.PmmRun
import Tsukasa.Lib.Spans

/-!
# The kernel heap over whole runs

The rest of the kernel takes memory from `kmalloc` and frames from `pmm_alloc_pages`, writes into what it has, and gives it back. A byte belongs to the payload of one live allocation, or to one extent of frames, or to the heap, and what its owner has written there stays. The books of `heap.c` are the sums over the live allocations and over the frames that the heap has taken.
-/

namespace Tsukasa

open Lib (Memory)

/-- The byte is in one of the frames, as the direct map shows them. -/
def Extent.Spans (hhdm : Nat) (e : Extent) (y : Nat) : Prop := hhdm + e.phys ≤ y ∧ y < hhdm + e.phys + e.pages * pageSize

def pagesOf (extents : List Extent) : Nat := (extents.map Extent.pages).sum

/-- The heap and its clients: the live allocations with the sizes asked for, the frames that others hold, what the owners expect in their bytes, and the most bytes that have been allocated at a time. -/
structure HeapWorld where
  heap : KernelHeap
  allocs : List (Nat × Nat)
  extents : List Extent
  kept : Memory
  most : Nat

inductive HeapCall where
  | kmalloc (size : Nat)
  | kfree (a : Nat × Nat)
  | allocPages (count : Nat)
  | freePages (e : Extent)
  | write (y : Nat) (v : UInt8)

/-- A new owner expects in the `n` bytes at `p` what is there. -/
def adopt (kept m : Memory) (p n : Nat) : Memory := fun y => if p ≤ y ∧ y < p + n then m y else kept y

namespace HeapWorld

def allocated (w : HeapWorld) : Nat := (w.allocs.map Prod.snd).sum

def step (hhdm : Nat) (w : HeapWorld) : HeapCall → HeapWorld
  | .kmalloc size =>
      let r := Tsukasa.kmalloc hhdm size w.heap
      if r.1 = 0 then { w with heap := r.2 }
      else
        { w with
          heap := r.2
          allocs := (r.1, size) :: w.allocs
          kept := adopt w.kept r.2.mem r.1 size
          most := max w.most (w.allocated + size) }
  | .kfree a => { w with heap := Tsukasa.kfree a.1 w.heap, allocs := w.allocs.erase a }
  | .allocPages count =>
      let r := pmmAllocPages w.heap.pmm count
      let heap := { w.heap with pmm := r.2 }
      if r.1 = 0 then { w with heap := heap }
      else { w with heap := heap, extents := ⟨r.1, count⟩ :: w.extents, kept := adopt w.kept w.heap.mem (hhdm + r.1) (count * pageSize) }
  | .freePages e => { w with heap := { w.heap with pmm := pmmFreePages w.heap.pmm e.phys e.pages }, extents := w.extents.erase e }
  | .write y v => { w with heap := { w.heap with mem := Function.update w.heap.mem y v }, kept := Function.update w.kept y v }

/-- The byte has an owner outside the heap. -/
def Theirs (hhdm : Nat) (w : HeapWorld) (y : Nat) : Prop :=
  (∃ a ∈ w.allocs, a.1 ≤ y ∧ y < a.1 + a.2) ∨ ∃ e ∈ w.extents, e.Spans hhdm y

/-- Clients write only what they own and free only what they hold. A request is at most 31 MiB, and the block that is found for it has room for one more header. -/
def Legal (hhdm : Nat) (w : HeapWorld) : HeapCall → Prop
  | .kmalloc n =>
      n = 0 ∨ n + heapHeaderSize ≤ requestMax ∧ TakesEnough w.heap.mem w.heap.heap (n + heapHeaderSize) ∧
        (findSuitable w.heap.mem w.heap.heap (wrap32 (requestSize (n + heapHeaderSize))) = 0 →
          TakesEnough (heapGrow hhdm (n + heapHeaderSize) w.heap).2.mem w.heap.heap (n + heapHeaderSize))
  | .kfree a => a ∈ w.allocs
  | .allocPages count => count ≤ 2 ^ 52
  | .freePages e => e ∈ w.extents
  | .write y _ => w.Theirs hhdm y

end HeapWorld

/-! ### Frames -/

/-- No frame is lost or won by a call of the allocator. -/
theorem TrackedPmm.Inv.conserves {t : TrackedPmm} (ht : t.Inv) {call : PmmCall} (hlegal : t.Legal call) :
    (t.step call).pmm.freeFrames + pagesOf (t.step call).live = t.pmm.freeFrames + pagesOf t.live := by
  cases call with
  | alloc count =>
      by_cases hzero : count = 0
      · rw [hzero]
        rfl
      cases pmmAllocPages_cases ht.pmm (Nat.pos_of_ne_zero hzero) hlegal with
      | inl hsome =>
          obtain ⟨start, hpos, hrun, -, heq⟩ := hsome
          have hne : start * pageSize ≠ 0 := Nat.ne_of_gt (Nat.mul_pos hpos (by decide))
          have hle := count_le_freeFrames ht.pmm hrun
          simp only [TrackedPmm.step, heq, if_neg hne, Pmm.take, pagesOf, List.map_cons, List.sum_cons]
          omega
      | inr hnone => simp only [TrackedPmm.step, hnone.2, if_true]
  | free e =>
      have hback := ht.backed e hlegal
      have hsum : pagesOf t.live = e.pages + pagesOf (t.live.erase e) := ((List.perm_cons_erase hlegal).map Extent.pages).sum_eq
      simp only [TrackedPmm.step]
      rw [hback.phys_eq, pmmFreePages_of_taken hback.pos hback.pages hback.tracked hback.taken_offset, hsum]
      simp only [Pmm.giveBack]
      omega

/-- The frame of a byte of an extent. -/
theorem TrackedPmm.Backed.holds_of_spans {t : TrackedPmm} {e : Extent} (he : t.Backed e) {hhdm y : Nat} (hspans : e.Spans hhdm y) :
    hhdm ≤ y ∧ e.Holds ((y - hhdm) / pageSize) := by
  obtain ⟨hlo, hhi⟩ := hspans
  rw [he.phys_eq, pageSize] at hlo hhi
  refine ⟨by omega, ?_, ?_⟩
  · rw [pageSize]
    omega
  · rw [pageSize]
    omega

/-! ### Allocations -/

variable {hhdm total n p : Nat} {m : Memory} {h : TlsfHeap} {allocs : List (Nat × Nat)} {w : HeapWorld} {pools : List Extent}

/-- A block that is no sentinel has the least size. -/
theorem TlsfHeap.blockMin_le (h : TlsfHeap) {b : TlsfBlock} (hb : b ∈ h.blocks) (hne : b.size ≠ 0) : blockMin ≤ b.size :=
  ((h.layout.sizes b hb).resolve_left fun hsentinel => hne hsentinel.1).1

/-- Every allocation has as many bytes as were asked for. -/
def Allotted (h : TlsfHeap) (allocs : List (Nat × Nat)) : Prop :=
  ∀ a ∈ allocs, ∀ b ∈ h.blocks, a.1 = blockToPtr b.addr + heapHeaderSize → a.2 + heapHeaderSize ≤ b.size

/-- The block of an allocation, with the allocation inside. -/
theorem Allocations.inside (hallocs : Allocations m h allocs) (hallotted : Allotted h allocs) {a : Nat × Nat} (ha : a ∈ allocs) :
    ∃ b ∈ h.blocks, b.free = false ∧ b.size ≠ 0 ∧ a.1 = b.addr + hdrSize + heapHeaderSize ∧ a.1 + a.2 ≤ b.fin := by
  obtain ⟨b, hb, hused, hne, hptr⟩ := hallocs.block a ha
  have hroom := hallotted a ha b hb hptr
  refine ⟨b, hb, hused, hne, hptr, ?_⟩
  rw [hptr, TlsfBlock.fin, blockToPtr]
  omega

/-- That stays so while the blocks of the allocations stay. -/
theorem Allotted.keep (hallotted : Allotted h allocs) (hallocs : Allocations m h allocs) {rest : List (Nat × Nat)} (hsub : ∀ a ∈ rest, a ∈ allocs) {h' : TlsfHeap}
    (hkeep : ∀ a ∈ rest, ∀ c ∈ h.blocks, a.1 = blockToPtr c.addr + heapHeaderSize → c.free = false → c ∈ h'.blocks) : Allotted h' rest := by
  intro a ha d hd hdptr
  obtain ⟨c, hc, hcused, -, hcptr⟩ := hallocs.block a (hsub a ha)
  have hdc : d = c := by
    apply h'.layout.addr_inj hd (hkeep a ha c hc hcptr hcused)
    rw [hdptr, blockToPtr, blockToPtr] at hcptr
    omega
  rw [hdc]
  exact hallotted a (hsub a ha) c hc hcptr

/-- Allocations share no byte. -/
theorem Allocations.apart (hallocs : Allocations m h allocs) (hallotted : Allotted h allocs) :
    allocs.Pairwise fun a a' => a.1 + a.2 ≤ a'.1 ∨ a'.1 + a'.2 ≤ a.1 := by
  have hne : allocs.Pairwise fun a a' => a.1 ≠ a'.1 := List.pairwise_map.mp hallocs.nodup
  refine hne.imp_of_mem fun {a a'} ha ha' hdiff => ?_
  obtain ⟨b, hb, -, -, hptr, hfin⟩ := hallocs.inside hallotted ha
  obtain ⟨b', hb', -, -, hptr', hfin'⟩ := hallocs.inside hallotted ha'
  have hbb : b ≠ b' := by
    intro heq
    rw [heq] at hptr
    exact hdiff (hptr.trans hptr'.symm)
  have hapart := h.layout.apart_of_ne hb hb' hbb
  omega

/-- The sizes add up to less than a 64-bit word. -/
theorem Allocations.sum_lt (hallocs : Allocations m h allocs) (hallotted : Allotted h allocs) : (allocs.map Prod.snd).sum < 2 ^ 64 := by
  have hle : (allocs.map Prod.snd).sum ≤ 2 ^ 64 - 1 := by
    apply Lib.sum_lengths_le (hallocs.apart hallotted)
    intro a ha
    obtain ⟨b, hb, -, -, hptr, hfin⟩ := hallocs.inside hallotted ha
    have hroom := (h.layout.room b hb).2.1
    rw [hdrSize] at hptr
    omega
  omega

/-! ### What holds between the heap and its clients -/

/-- The books of the heap that has been made in the given frames, and of which the allocations are live. -/
def heldBy (hhdm : Nat) (pools : List Extent) (allocs : List (Nat × Nat)) (h : TlsfHeap) : Held where
  regions := pools.map fun e => (hhdm + e.phys, e.pages * pageSize)
  pools := poolsFrom none h.blocks
  live := allocs.map fun a => a.1 - heapHeaderSize

theorem heldBy_has {y : Nat} : (heldBy hhdm pools allocs h).Has y ↔ ∃ e ∈ pools, e.Spans hhdm y := by
  simp only [Held.Has, heldBy, List.mem_map, exists_exists_and_eq_and, Extent.Spans]

/-- The heap `h` is made in the frames of `pools`, and `total` frames are free, held by others, or the heap's. -/
structure HeapWorld.Inv (hhdm total : Nat) (w : HeapWorld) (pools : List Extent) (h : TlsfHeap) : Prop where
  frames : TrackedPmm.Inv ⟨w.heap.pmm, pools ++ w.extents⟩
  fits : hhdm + pmmFrameCount * pageSize ≤ 2 ^ 64
  booked : Booked w.heap.mem w.heap.heap (heldBy hhdm pools w.allocs h) h
  allocations : Allocations w.heap.mem h w.allocs
  allotted : Allotted h w.allocs
  kept : ∀ y, w.Theirs hhdm y → w.heap.mem y = w.kept y
  allocated : w.heap.allocatedBytes = w.allocated
  peak : w.heap.peakAllocatedBytes = w.most
  poolBytes : w.heap.poolBytes = pagesOf pools * pageSize
  conserved : w.heap.pmm.freeFrames + pagesOf w.extents + pagesOf pools = total
  bound : total ≤ pmmFrameCount

namespace HeapWorld.Inv

theorem backed_pool (hinv : w.Inv hhdm total pools h) {e : Extent} (he : e ∈ pools) : TrackedPmm.Backed ⟨w.heap.pmm, pools ++ w.extents⟩ e :=
  hinv.frames.backed e (List.mem_append_left _ he)

theorem backed_extent (hinv : w.Inv hhdm total pools h) {e : Extent} (he : e ∈ w.extents) : TrackedPmm.Backed ⟨w.heap.pmm, pools ++ w.extents⟩ e :=
  hinv.frames.backed e (List.mem_append_right _ he)

/-- Memory in the frames of others is not the heap's. -/
theorem extent_off (hinv : w.Inv hhdm total pools h) {e : Extent} (he : e ∈ w.extents) {y : Nat} (hspans : e.Spans hhdm y) :
    ¬(heldBy hhdm pools w.allocs h).Has y := by
  rw [heldBy_has]
  intro hin
  obtain ⟨e', he', hspans'⟩ := hin
  have hframe := (hinv.backed_extent he).holds_of_spans hspans
  have hframe' := (hinv.backed_pool he').holds_of_spans hspans'
  have hdisjoint := (List.pairwise_append.mp hinv.frames.disjoint).2.2 e' he' e he
  exact hdisjoint _ ⟨hframe'.2, hframe.2⟩

/-- What an owner has is neither the allocator's nor the header of an allocation. -/
theorem theirs_off (hinv : w.Inv hhdm total pools h) {y : Nat} (hy : w.Theirs hhdm y) :
    ¬Owned h.t h.blocks y ∧ ∀ b ∈ h.blocks, b.free = false → b.size ≠ 0 → y < b.addr + hdrSize ∨ b.addr + hdrSize + heapHeaderSize ≤ y := by
  cases hy with
  | inl halloc =>
      obtain ⟨a, ha, hlo, hhi⟩ := halloc
      obtain ⟨b, hb, hused, hne, hptr, hfin⟩ := hinv.allocations.inside hinv.allotted ha
      refine ⟨h.layout.payload_not_owned hb hused (by omega) (by omega), fun c hc _ hcne => ?_⟩
      by_cases heq : c = b
      · rw [heq]
        omega
      · have hapart := h.layout.apart_of_ne hc hb heq
        have hmin := h.blockMin_le hc hcne
        simp only [TlsfBlock.fin, hdrSize, blockMin, heapHeaderSize] at *
        omega
  | inr hextent =>
      obtain ⟨e, he, hspans⟩ := hextent
      have hout := hinv.extent_off he hspans
      refine ⟨fun howned => hout (hinv.booked.owned_in howned), fun c hc _ hcne => ?_⟩
      by_contra hin
      have hmin := h.blockMin_le hc hcne
      simp only [hdrSize, blockMin, heapHeaderSize] at hin hmin
      apply hout
      apply hinv.booked.block_in hc
      · omega
      · rw [TlsfBlock.fin, hdrSize]
        omega

/-- The heap is well-formed, and its frames are taken. -/
theorem ok (hinv : w.Inv hhdm total pools h) : HeapOk hhdm w.heap h where
  represents := hinv.booked.represents
  control := hinv.booked.control
  small := hinv.booked.small
  pmm := hinv.frames.pmm
  fits := hinv.fits
  taken y hy := by
    have hin : (heldBy hhdm pools w.allocs h).Has y := by
      cases hy with
      | inl hcontrol =>
          rw [hinv.booked.control] at hcontrol
          exact hinv.booked.controlIn y hcontrol.1 hcontrol.2
      | inr hblock =>
          obtain ⟨b, hb, hlo, hhi⟩ := hblock
          exact hinv.booked.block_in hb hlo hhi
    obtain ⟨e, he, hspans⟩ := heldBy_has.mp hin
    have hback := hinv.backed_pool he
    have hframe := hback.holds_of_spans hspans
    exact ⟨hframe.1, hback.taken _ hframe.2⟩

/-! ### Writing, and taking frames -/

theorem write (hinv : w.Inv hhdm total pools h) {y : Nat} (hy : w.Theirs hhdm y) (v : UInt8) : (w.step hhdm (.write y v)).Inv hhdm total pools h := by
  obtain ⟨howned, hheader⟩ := hinv.theirs_off hy
  have hword : ∀ a ∈ w.allocs, ∀ at' size, a.1 - heapHeaderSize ≤ at' → at' + size ≤ a.1 →
      Memory.load (Function.update w.heap.mem y v) at' size = w.heap.mem.load at' size := by
    intro a ha at' size hlo hhi
    obtain ⟨b, hb, hused, hne, hptr, -⟩ := hinv.allocations.inside hinv.allotted ha
    have hout := hheader b hb hused hne
    apply Memory.load_congr
    intro x hx hx'
    have hxy : x ≠ y := by omega
    exact Function.update_of_ne hxy _ _
  have hallocs : Allocations (Function.update w.heap.mem y v) h w.allocs := by
    refine ⟨hinv.allocations.nodup, hinv.allocations.block, fun a ha => ?_, fun a ha => ?_⟩
    · rw [hword a ha _ _ le_rfl]
      · exact hinv.allocations.magic a ha
      · obtain ⟨b, -, -, -, hptr, -⟩ := hinv.allocations.inside hinv.allotted ha
        rw [heapHeaderSize] at hptr ⊢
        omega
    · rw [hword a ha _ _ (Nat.le_add_right _ _)]
      · exact hinv.allocations.size a ha
      · obtain ⟨b, -, -, -, hptr, -⟩ := hinv.allocations.inside hinv.allotted ha
        rw [heapHeaderSize] at hptr ⊢
        omega
  have hbooked : Booked (Function.update w.heap.mem y v) w.heap.heap (heldBy hhdm pools w.allocs h) h := by
    apply hinv.booked.congr
    intro x hx
    have hxy : x ≠ y := by
      intro heq
      rw [heq] at hx
      exact howned hx
    exact Function.update_of_ne hxy _ _
  refine { hinv with booked := hbooked, allocations := hallocs, kept := fun x hx => ?_ }
  change Function.update w.heap.mem y v x = Function.update w.kept y v x
  by_cases hxy : x = y
  · rw [hxy, Function.update_self, Function.update_self]
  · rw [Function.update_of_ne hxy, Function.update_of_ne hxy]
    exact hinv.kept x hx

theorem allocPages (hinv : w.Inv hhdm total pools h) {count : Nat} (hcount : count ≤ 2 ^ 52) :
    (w.step hhdm (.allocPages count)).Inv hhdm total pools h := by
  have hlegal : TrackedPmm.Legal ⟨w.heap.pmm, pools ++ w.extents⟩ (.alloc count) := hcount
  have hnext := TrackedPmm.step_inv _ _ hinv.frames hlegal
  have hconserved := hinv.frames.conserves hlegal
  simp only [TrackedPmm.step, HeapWorld.step] at hnext hconserved ⊢
  have htotal := hinv.conserved
  by_cases hnull : (pmmAllocPages w.heap.pmm count).1 = 0
  · rw [if_pos hnull] at hnext hconserved ⊢
    refine { hinv with frames := hnext, conserved := ?_ }
    simp only [pagesOf, List.map_append, List.sum_append] at hconserved htotal ⊢
    omega
  · rw [if_neg hnull] at hnext hconserved ⊢
    refine { hinv with frames := hnext.perm List.perm_middle.symm, kept := fun y hy => ?_, conserved := ?_ }
    · simp only [adopt]
      split
      · rfl
      · next hout =>
          apply hinv.kept
          cases hy with
          | inl halloc => exact Or.inl halloc
          | inr hextent =>
              obtain ⟨e, he, hspans⟩ := hextent
              cases List.mem_cons.mp he with
              | inl hnew =>
                  rw [hnew] at hspans
                  exact absurd hspans hout
              | inr hold => exact Or.inr ⟨e, hold, hspans⟩
    · simp only [pagesOf, List.map_append, List.sum_append, List.map_cons, List.sum_cons] at hconserved htotal ⊢
      omega

theorem freePages (hinv : w.Inv hhdm total pools h) {e : Extent} (he : e ∈ w.extents) : (w.step hhdm (.freePages e)).Inv hhdm total pools h := by
  have hmem : e ∈ pools ++ w.extents := List.mem_append_right _ he
  have hlegal : TrackedPmm.Legal ⟨w.heap.pmm, pools ++ w.extents⟩ (.free e) := hmem
  have hnext := TrackedPmm.step_inv _ _ hinv.frames hlegal
  have hconserved := hinv.frames.conserves hlegal
  have hnot : e ∉ pools := by
    intro hin
    have hdisjoint := (List.pairwise_append.mp hinv.frames.disjoint).2.2 e hin e he
    exact Extent.not_disjoint_self (hinv.backed_pool hin).pages hdisjoint
  simp only [TrackedPmm.step, HeapWorld.step, List.erase_append_right _ hnot] at hnext hconserved ⊢
  have htotal := hinv.conserved
  refine { hinv with frames := hnext, kept := fun y hy => ?_, conserved := ?_ }
  · apply hinv.kept
    cases hy with
    | inl halloc => exact Or.inl halloc
    | inr hextent =>
        obtain ⟨e', he', hspans⟩ := hextent
        exact Or.inr ⟨e', List.mem_of_mem_erase he', hspans⟩
  · simp only [pagesOf, List.map_append, List.sum_append] at hconserved htotal ⊢
    omega

/-! ### Giving memory back -/

/-- The freed block is on no books, and the others in use are. -/
theorem live_freed (hinv : w.Inv hhdm total pools h) {a : Nat × Nat} {b : TlsfBlock} {before after : List TlsfBlock} {m₁ m' : Memory} {h' : TlsfHeap}
    (ha : a ∈ w.allocs) (hptr : a.1 = blockToPtr b.addr + heapHeaderSize) (hfreed : Freed m₁ m' h before b after h') (p : Nat) :
    p ∈ (w.allocs.erase a).map (fun a => a.1 - heapHeaderSize) ↔ ∃ c ∈ h'.blocks, c.free = false ∧ c.size ≠ 0 ∧ p = blockToPtr c.addr := by
  have hnodup : w.allocs.Nodup := hinv.allocations.nodup.of_map
  rw [List.mem_map]
  constructor
  · intro hin
    obtain ⟨a', ha', hp⟩ := hin
    obtain ⟨hne, ha'⟩ := hnodup.mem_erase_iff.mp ha'
    obtain ⟨c, hc, hcused, hcne, hptr'⟩ := hinv.allocations.block a' ha'
    have hcb : c ≠ b := by
      intro heq
      rw [heq] at hptr'
      exact hne (List.inj_on_of_nodup_map hinv.allocations.nodup ha' ha (hptr'.trans hptr.symm))
    refine ⟨c, (hfreed.used c hc hcused hcb).1, hcused, hcne, ?_⟩
    rw [← hp, hptr', Nat.add_sub_cancel]
  · intro hin
    obtain ⟨c, hc, hcused, hcne, hp⟩ := hin
    have hmerged : c ≠ mergedBlock before b after := by
      intro heq
      rw [heq] at hcused
      simp [mergedBlock] at hcused
    have hold : c ∈ h.blocks := (hfreed.others c hc).resolve_left hmerged
    have hlive : blockToPtr c.addr ∈ (heldBy hhdm pools w.allocs h).live := (hinv.booked.live _).mpr ⟨c, hold, hcused, hcne, rfl⟩
    obtain ⟨a', ha', heq⟩ := List.mem_map.mp hlive
    refine ⟨a', (List.mem_erase_of_ne fun haa => ?_).mpr ha', heq.trans hp.symm⟩
    -- the freed block lies inside the joined one, which shares no byte with `c`
    have hapart := h'.layout.apart_of_ne hc hfreed.merged hmerged
    rw [haa, hptr, Nat.add_sub_cancel] at heq
    simp only [blockToPtr, mergedBlock, TlsfBlock.fin, hdrSize] at heq hapart
    omega

theorem kfree (hinv : w.Inv hhdm total pools h) {a : Nat × Nat} (ha : a ∈ w.allocs) : ∃ h', (w.step hhdm (.kfree a)).Inv hhdm total pools h' := by
  obtain ⟨b, hb, hused, hne, hptr⟩ := hinv.allocations.block a ha
  obtain ⟨before, after, hblocks⟩ := List.append_of_mem hb
  have hl := h.layout
  rw [hblocks] at hl
  have hrep := hinv.booked.represents.clearMagic hb hused hne
  have hmerged := mergedBlock_small hl hused hne (hblocks ▸ hinv.booked.small)
  obtain ⟨h', hfreed⟩ := tlsfFree_freed hrep hblocks hused hne hmerged
  have heq : Tsukasa.kfree a.1 w.heap = _ := hinv.allocations.kfree_eq hinv.booked.control ha hb hne hptr
  have hclear : ∀ y, y < b.addr + hdrSize ∨ b.addr + hdrSize + heapHeaderSize ≤ y → w.heap.mem.store (blockToPtr b.addr) 8 0 y = w.heap.mem y := by
    intro y hy
    apply Memory.store_apply_of_outside
    rw [blockToPtr]
    rw [heapHeaderSize] at hy
    omega
  have hkeptBlock : ∀ c ∈ h.blocks, c.free = false → c ≠ b → c ∈ h'.blocks ∧ ∀ y, c.addr + hdrSize ≤ y → y < c.fin →
      tlsfFree h.t (blockToPtr b.addr) (w.heap.mem.store (blockToPtr b.addr) 8 0) y = w.heap.mem y := by
    intro c hc hcused hcb
    obtain ⟨hc', hsame⟩ := hfreed.used c hc hcused hcb
    refine ⟨hc', fun y hlo hhi => (hsame y hlo hhi).trans (hclear y ?_)⟩
    have hapart := h.layout.apart_of_ne hc hb hcb
    have hmin := h.blockMin_le hb hne
    simp only [TlsfBlock.fin, hdrSize, blockMin, heapHeaderSize] at *
    omega
  have hother : ∀ a' ∈ w.allocs.erase a, a' ∈ w.allocs ∧ ∀ c ∈ h.blocks, a'.1 = blockToPtr c.addr + heapHeaderSize → c ≠ b := by
    intro a' ha'
    obtain ⟨hdiff, hmem⟩ := hinv.allocations.nodup.of_map.mem_erase_iff.mp ha'
    refine ⟨hmem, fun c _ hcptr hcb => hdiff ?_⟩
    rw [hcb] at hcptr
    exact List.inj_on_of_nodup_map hinv.allocations.nodup hmem ha (hcptr.trans hptr.symm)
  have hallocs : Allocations (tlsfFree h.t (blockToPtr b.addr) (w.heap.mem.store (blockToPtr b.addr) 8 0)) h' (w.allocs.erase a) :=
    hinv.allocations.keep List.erase_sublist fun a' ha' c hc hcptr hcused => hkeptBlock c hc hcused ((hother a' ha').2 c hc hcptr)
  have hallotted : Allotted h' (w.allocs.erase a) :=
    hinv.allotted.keep hinv.allocations (fun a' ha' => (hother a' ha').1) fun a' ha' c hc hcptr hcused => (hkeptBlock c hc hcused ((hother a' ha').2 c hc hcptr)).1
  have hbooked : Booked (tlsfFree h.t (blockToPtr b.addr) (w.heap.mem.store (blockToPtr b.addr) 8 0)) w.heap.heap
      (heldBy hhdm pools (w.allocs.erase a) h') h' := by
    refine ⟨hfreed.represents, hfreed.control.trans hinv.booked.control, rfl, fun pool hpool => ?_, hinv.booked.controlIn, fun pool hpool => ?_,
      hinv.live_freed ha hptr hfreed, hinv.booked.nodup.sublist (List.erase_sublist.map _)⟩
    · simp only [heldBy, hfreed.pools] at hpool
      exact hinv.booked.small pool hpool
    · simp only [heldBy, hfreed.pools] at hpool
      exact hinv.booked.poolsIn pool hpool
  have hbookedClear : Booked (w.heap.mem.store (blockToPtr b.addr) 8 0) w.heap.heap (heldBy hhdm pools w.allocs h) h := { hinv.booked with represents := hrep }
  have hlive : blockToPtr b.addr ∈ (heldBy hhdm pools w.allocs h).live := (hinv.booked.live _).mpr ⟨b, hb, hused, hne, rfl⟩
  have hframe := (hbookedClear.free hlive).2
  rw [← hinv.booked.control] at hframe
  have hsum : (w.allocs.map Prod.snd).sum = a.2 + ((w.allocs.erase a).map Prod.snd).sum := ((List.perm_cons_erase ha).map Prod.snd).sum_eq
  have hbytes := hinv.allocated
  rw [HeapWorld.allocated] at hbytes
  refine ⟨h', ?_⟩
  rw [HeapWorld.step, heq]
  refine { hinv with booked := hbooked, allocations := hallocs, allotted := hallotted, kept := fun y hy => ?_, allocated := ?_ }
  · cases hy with
    | inl halloc =>
        obtain ⟨a', ha', hlo, hhi⟩ := halloc
        have hmem := (hother a' ha').1
        obtain ⟨c, hc, hcused, -, hcptr, hcfin⟩ := hinv.allocations.inside hinv.allotted hmem
        rw [← hinv.kept y (Or.inl ⟨a', hmem, hlo, hhi⟩)]
        exact (hkeptBlock c hc hcused ((hother a' ha').2 c hc hcptr)).2 y (by omega) (by omega)
    | inr hextent =>
        obtain ⟨e, he, hspans⟩ := hextent
        have hout := hinv.extent_off he hspans
        rw [← hinv.kept y (Or.inr ⟨e, he, hspans⟩)]
        refine (hframe y hout).trans (hclear y ?_)
        by_contra hin
        have hmin := h.blockMin_le hb hne
        simp only [hdrSize, blockMin, heapHeaderSize] at hin hmin
        apply hout
        apply hinv.booked.block_in hb
        · omega
        · rw [TlsfBlock.fin, hdrSize]
          omega
  · simp only [HeapWorld.allocated]
    rw [if_pos (by omega)]
    omega

/-! ### Taking memory -/

/-- The heap takes a run of free frames, none of which an owner has. -/
theorem grown (hinv : w.Inv hhdm total pools h) {start pages : Nat} (hpos : 0 < start) (hpages : 0 < pages) (hrun : FreeRun w.heap.pmm start pages)
    (hsmall : pages * pageSize < 2 ^ 25) :
    ∃ h', ({ w with heap := w.heap.grown hhdm start pages } : HeapWorld).Inv hhdm total (⟨start * pageSize, pages⟩ :: pools) h' ∧ h'.t = h.t := by
  obtain ⟨h', hok', ht', hblocks'⟩ := hinv.ok.grown hpos hpages hrun hsmall
  have hsize : poolMin ≤ pages * pageSize := by
    rw [show poolMin = 52 from rfl, pageSize]
    omega
  obtain ⟨hmin, hle⟩ := poolBlockSize_bounds hsize hsmall
  have hne : poolBlockSize (pages * pageSize) ≠ 0 := by
    rw [blockMin] at hmin
    omega
  have hunused := hinv.ok.unused hpos hpages hrun
  -- the frames of the new pool were free, and those that somebody has are taken
  have hfree : ∀ e, TrackedPmm.Backed ⟨w.heap.pmm, pools ++ w.extents⟩ e → ∀ y, e.Spans hhdm y →
      y < hhdm + start * pageSize ∨ hhdm + start * pageSize + pages * pageSize ≤ y := by
    intro e hback y hspans
    by_contra hin
    obtain ⟨hlow, hholds⟩ := hback.holds_of_spans hspans
    have htaken := hback.taken _ hholds
    have hframe : start ≤ (y - hhdm) / pageSize ∧ (y - hhdm) / pageSize < start + pages := by
      rw [pageSize] at hin ⊢
      omega
    have hbit := hrun.2 ((y - hhdm) / pageSize - start) (by omega)
    rw [Nat.add_sub_cancel' hframe.1] at hbit
    rw [hbit] at htaken
    cases htaken
  have hframe := (hinv.booked.addPool (Nat.ne_of_gt hunused.pos) hsize hsmall hunused.fits fun y hlo hhi hin => by
    obtain ⟨e, he, hspans⟩ := heldBy_has.mp hin
    have hout := hfree e (hinv.backed_pool he) y hspans
    omega).2
  have hpayload : ∀ b ∈ h.blocks, b.free = false → ∀ y, b.addr + hdrSize ≤ y → y < b.fin →
      poolAdd w.heap.heap (hhdm + start * pageSize) (pages * pageSize) w.heap.mem y = w.heap.mem y := by
    intro b hb hused y hlo hhi
    have hapart := hunused.apart b hb
    have hrefines := (poolAdd_refines hinv.booked.represents hunused hsize (by omega) hmin).2 y (h.layout.payload_not_owned hb hused hlo hhi)
    rw [hinv.booked.control] at hrefines
    exact hrefines (by omega)
  have hallocs : Allocations (poolAdd w.heap.heap (hhdm + start * pageSize) (pages * pageSize) w.heap.mem) h' w.allocs := by
    apply hinv.allocations.keep (List.Sublist.refl _)
    intro a _ c hc _ hcused
    refine ⟨?_, hpayload c hc hcused⟩
    rw [hblocks']
    exact List.mem_append_left _ hc
  have hallotted : Allotted h' w.allocs := by
    apply hinv.allotted.keep hinv.allocations fun _ ha => ha
    intro a _ c hc _ _
    rw [hblocks']
    exact List.mem_append_left _ hc
  have hpools : poolsFrom none h'.blocks = poolsFrom none h.blocks ++ [poolEnds (hhdm + start * pageSize) (pages * pageSize)] := by
    rw [hblocks', poolsFrom_addPool _ h.layout hne]
  have hhas : ∀ y, (heldBy hhdm pools w.allocs h).Has y → (heldBy hhdm (⟨start * pageSize, pages⟩ :: pools) w.allocs h').Has y := by
    intro y hy
    obtain ⟨e, he, hspans⟩ := heldBy_has.mp hy
    exact heldBy_has.mpr ⟨e, List.mem_cons_of_mem _ he, hspans⟩
  have hbooked : Booked (poolAdd w.heap.heap (hhdm + start * pageSize) (pages * pageSize) w.heap.mem) w.heap.heap
      (heldBy hhdm (⟨start * pageSize, pages⟩ :: pools) w.allocs h') h' := by
    refine ⟨hok'.represents, hok'.control, rfl, hok'.small, fun y hlo hhi => hhas y (hinv.booked.controlIn y hlo hhi), fun pool hpool y hlo hhi => ?_,
      fun p => ?_, hinv.booked.nodup⟩
    · simp only [heldBy, hpools, List.mem_append, List.mem_singleton] at hpool
      cases hpool with
      | inl hold => exact hhas y (hinv.booked.poolsIn pool hold y hlo hhi)
      | inr hnew =>
          rw [hnew] at hlo hhi
          simp only [poolEnds, hdrSize] at hlo hhi
          exact heldBy_has.mpr ⟨_, List.mem_cons_self, hlo, by simp only; omega⟩
    · rw [hblocks', used_addPool h.blocks]
      exact hinv.booked.live p
  have hcount : pages ≤ w.heap.pmm.freeFrames := count_le_freeFrames hinv.frames.pmm hrun
  have htotal := hinv.conserved
  have hbound := hinv.bound
  refine ⟨h', ?_, ht'⟩
  refine { hinv with frames := hinv.frames.hold hpos hpages hrun, booked := hbooked, allocations := hallocs, allotted := hallotted, kept := fun y hy => ?_, poolBytes := ?_, conserved := ?_ }
  · rw [← hinv.kept y hy]
    cases hy with
    | inl halloc =>
        obtain ⟨a, ha, hlo, hhi⟩ := halloc
        obtain ⟨b, hb, hused, -, hptr, hfin⟩ := hinv.allocations.inside hinv.allotted ha
        exact hpayload b hb hused y (by omega) (by omega)
    | inr hextent =>
        obtain ⟨e, he, hspans⟩ := hextent
        exact hframe y (hinv.extent_off he hspans) (hfree e (hinv.backed_extent he) y hspans)
  · have hbytes := hinv.poolBytes
    have hword : pagesOf pools + pages ≤ pmmFrameCount := by omega
    rw [show pmmFrameCount = 2 ^ 24 from rfl] at hword
    simp only [KernelHeap.grown, pagesOf, List.map_cons, List.sum_cons] at hbytes hword ⊢
    rw [hbytes, wrap64_of_lt (show pages * pageSize < 2 ^ 64 by rw [pageSize]; omega), wrap64_of_lt (by rw [pageSize]; omega), Nat.add_mul, Nat.add_comm]
  · simp only [KernelHeap.grown, Pmm.take, pagesOf, List.map_cons, List.sum_cons] at htotal ⊢
    omega

/-- What `tlsf_malloc` finds becomes an allocation with the bytes asked for, and nobody else notices. -/
theorem stamped (hinv : w.Inv hhdm total pools h) (hmax : n + heapHeaderSize ≤ requestMax)
    (hfound : findSuitable w.heap.mem h.t (wrap32 (requestSize (n + heapHeaderSize))) ≠ 0) (htakes : TakesEnough w.heap.mem h.t (n + heapHeaderSize))
    {r : Nat × KernelHeap}
    (hr : r = kmallocStamp n (tlsfMalloc h.t (n + heapHeaderSize) w.heap.mem).1 { w.heap with mem := (tlsfMalloc h.t (n + heapHeaderSize) w.heap.mem).2 }) :
    r.1 ≠ 0 ∧ ∃ h', ({ w with
      heap := r.2
      allocs := (r.1, n) :: w.allocs
      kept := adopt w.kept r.2.mem r.1 n
      most := max w.most (w.allocated + n) } : HeapWorld).Inv hhdm total pools h' := by
  have hpos : n + heapHeaderSize ≠ 0 := by
    rw [heapHeaderSize]
    omega
  obtain ⟨before, b, after, hblocks, hfree, hptr, hsize, hle, ⟨h', ht', hblocks', hrep'⟩, hframe⟩ :=
    hinv.booked.represents.malloc_serves hpos hfound htakes
  obtain ⟨⟨c, hc, hcused, hcne, hcaddr, hcsize⟩, honly⟩ := taken_used hsize hle
  have hb : b ∈ h.blocks := by simp [hblocks]
  have hc' : c ∈ h'.blocks := by simp [hblocks', hc]
  have hword : n < 2 ^ 64 := by
    rw [requestMax] at hmax
    omega
  have hpools : poolsFrom none h'.blocks = poolsFrom none h.blocks := by rw [hblocks', taken_pools hsize (by omega), ← hblocks]
  have hkept : ∀ d ∈ h.blocks, d.free = false → d ∈ h'.blocks ∧ d ≠ c := fun d hd hdused => used_kept hblocks hfree hblocks' hcaddr hd hdused
  have hbooked := hinv.booked.take hblocks hfree ht' hblocks' hrep' hpools ⟨c, hc, hcused, hcne, hcaddr⟩ honly
  obtain ⟨hrepNew, hallocs⟩ := hinv.allocations.stamped hrep' hc' hcused hcne hword hkept
    fun d hd hdused y hlo hhi => hframe y (h.layout.payload_not_owned hd hdused hlo hhi)
  have hreq := (requestSize_of_le hmax).1
  have hallotted : Allotted h' ((blockToPtr c.addr + heapHeaderSize, n) :: w.allocs) := by
    intro a ha d hd hdptr
    cases List.mem_cons.mp ha with
    | inl hnew =>
        have hdc : d = c := by
          apply h'.layout.addr_inj hd hc'
          rw [hnew] at hdptr
          simp only [blockToPtr] at hdptr
          omega
        rw [hdc, hnew]
        exact hreq.trans hcsize
    | inr hold => exact hinv.allotted.keep hinv.allocations (fun _ ha => ha) (fun _ _ e he _ heused => (hkept e he heused).1) a hold d hd hdptr
  have hne : blockToPtr c.addr ≠ 0 := Nat.add_one_ne_zero _
  rw [hptr, ← hcaddr, kmallocStamp, if_neg hne] at hr
  have hsum := hallocs.sum_lt hallotted
  have hbytes := hinv.allocated
  rw [HeapWorld.allocated] at hbytes
  rw [List.map_cons, List.sum_cons] at hsum
  have hadded : wrap64 (w.heap.allocatedBytes + n) = w.heap.allocatedBytes + n := wrap64_of_lt (by omega)
  simp only [hadded] at hr
  rw [hr]
  refine ⟨Nat.add_one_ne_zero _, h', ?_⟩
  refine { hinv with booked := ?_, allocations := hallocs, allotted := hallotted, kept := fun y hy => ?_, allocated := ?_, peak := ?_ }
  · refine ⟨hrepNew, hbooked.control, rfl, fun pool hpool => ?_, hinv.booked.controlIn, fun pool hpool => ?_, fun p => ?_, ?_⟩
    · simp only [heldBy, hpools] at hpool
      exact hinv.booked.small pool hpool
    · simp only [heldBy, hpools] at hpool
      exact hinv.booked.poolsIn pool hpool
    · rw [← hbooked.live p, hcaddr.symm]
      simp only [heldBy, List.map_cons, Nat.add_sub_cancel]
    · have hnodup := hbooked.nodup
      rw [hcaddr.symm] at hnodup
      simpa only [heldBy, List.map_cons, Nat.add_sub_cancel] using hnodup
  · simp only [adopt]
    split
    · rfl
    next hout =>
    have hold : w.Theirs hhdm y := by
      cases hy with
      | inl halloc =>
          obtain ⟨a, ha, hbounds⟩ := halloc
          cases List.mem_cons.mp ha with
          | inl hnew =>
              rw [hnew] at hbounds
              exact absurd hbounds hout
          | inr hmem => exact Or.inl ⟨a, hmem, hbounds⟩
      | inr hextent => exact Or.inr hextent
    have howned := (hinv.theirs_off hold).1
    rw [← hinv.kept y hold, ← hframe y howned]
    -- the header is written into the block that was free
    have hheader : y < blockToPtr c.addr ∨ blockToPtr c.addr + heapHeaderSize ≤ y := by
      by_contra hin
      have hfin : c.addr + hdrSize + heapHeaderSize ≤ b.fin := by
        rw [TlsfBlock.fin, hcaddr]
        omega
      rw [blockToPtr] at hin
      exact howned (owned_free hb hfree (by omega) (by omega))
    rw [heapHeaderSize] at hheader
    rw [Memory.store_apply_of_outside _ (by omega), Memory.store_apply_of_outside _ (by omega)]
  · simp only [HeapWorld.allocated, List.map_cons, List.sum_cons]
    omega
  · have hpeak := hinv.peak
    simp only [HeapWorld.allocated] at hbytes ⊢
    rw [hpeak, hbytes]
    split
    · exact (max_eq_right (by omega)).symm
    · exact (max_eq_left (by omega)).symm

theorem kmalloc (hinv : w.Inv hhdm total pools h) (hlegal : w.Legal hhdm (.kmalloc n)) : ∃ pools' h', (w.step hhdm (.kmalloc n)).Inv hhdm total pools' h' := by
  rw [HeapWorld.step]
  by_cases hzero : n = 0
  · have hnull : Tsukasa.kmalloc hhdm n w.heap = (0, w.heap) := if_pos (Or.inr hzero)
    rw [hnull, if_pos rfl]
    exact ⟨pools, h, hinv⟩
  obtain ⟨hmax, htakes, hgrow⟩ := hlegal.resolve_left hzero
  have hcontrol := hinv.booked.control
  rw [← hcontrol] at htakes hgrow
  have hword : n < 2 ^ 64 := by
    rw [requestMax] at hmax
    omega
  cases kmalloc_cases hinv.ok hzero hword with
  | inl hlarge =>
      rw [requestMax, heapHeaderSize] at hmax
      omega
  | inr hcases =>
      cases hcases.2 with
      | inl hallotted =>
          obtain ⟨hfound, heq⟩ := hallotted
          obtain ⟨hret, h', hnext⟩ := hinv.stamped hmax hfound htakes heq
          rw [if_neg hret]
          exact ⟨pools, h', hnext⟩
      | inr hnone =>
          obtain ⟨hnone, hrest⟩ := hnone
          cases heapGrow_cases hinv.ok (n + heapHeaderSize) with
          | inl hfail =>
              have hret : Tsukasa.kmalloc hhdm n w.heap = (0, w.heap) := by
                cases hrest with
                | inl hstop => exact hstop.2.trans hfail.2
                | inr hgrown => exact absurd (congrArg Prod.fst hfail.2) hgrown.1
              rw [hret, if_pos rfl]
              exact ⟨pools, h, hinv⟩
          | inr hsome =>
              obtain ⟨start, hpos, hrun, heq⟩ := hsome
              obtain ⟨hpages, hsmall⟩ := growPages_lt hmax
              obtain ⟨h₁, hinv₁, ht₁⟩ := hinv.grown hpos hpages hrun hsmall
              have hne : (heapGrow hhdm (n + heapHeaderSize) w.heap).1 ≠ 0 := by
                rw [heq]
                exact Nat.ne_of_gt (Nat.mul_pos hpos (by decide))
              have hlast := (hrest.resolve_left fun hstop => hne hstop.1).2
              have htakes₁ := hgrow hnone
              rw [heapHeaderSize] at heq htakes₁ hmax
              rw [heq, ← ht₁] at hlast htakes₁
              by_cases hfound : findSuitable (w.heap.grown hhdm start (growPages (n + 16))).mem h₁.t (wrap32 (requestSize (n + 16))) = 0
              · rw [tlsfMalloc_of_none hfound] at hlast
                have hret : Tsukasa.kmalloc hhdm n w.heap = (0, w.heap.grown hhdm start (growPages (n + 16))) := hlast
                rw [hret, if_pos rfl]
                exact ⟨_, h₁, hinv₁⟩
              · obtain ⟨hret, h', hnext⟩ := hinv₁.stamped hmax hfound htakes₁ hlast
                rw [if_neg hret]
                exact ⟨_, h', hnext⟩

/-- The step lemma. -/
theorem step (hinv : w.Inv hhdm total pools h) (call : HeapCall) (hlegal : w.Legal hhdm call) : ∃ pools' h', (w.step hhdm call).Inv hhdm total pools' h' := by
  cases call with
  | kmalloc n => exact hinv.kmalloc hlegal
  | kfree a => exact ⟨pools, hinv.kfree hlegal⟩
  | allocPages count => exact ⟨pools, h, hinv.allocPages hlegal⟩
  | freePages e => exact ⟨pools, h, hinv.freePages hlegal⟩
  | write y v => exact ⟨pools, h, hinv.write hlegal v⟩

end HeapWorld.Inv

/-! ### Whole runs -/

/-- The kernel after `heap_init`, with the frames that have been handed out before. -/
def HeapWorld.boot (hhdm : Nat) (mem : Memory) (t : TrackedPmm) : HeapWorld :=
  let heap := heapInit hhdm ⟨mem, t.pmm, 0, 0, 0, 0, false⟩
  { heap := heap, allocs := [], extents := t.live, kept := heap.mem, most := 0 }

/-- `heap_init` makes a heap of 256 free frames, or there is no run of them. -/
theorem heapInit_cases {pmm : Pmm} (hpmm : pmm.Inv) (hfits : hhdm + pmmFrameCount * pageSize ≤ 2 ^ 64) (mem : Memory) :
    (∀ start, ¬FreeRun pmm start heapInitPages) ∧ (heapInit hhdm ⟨mem, pmm, 0, 0, 0, 0, false⟩).heap = 0 ∨
      ∃ start, 0 < start ∧ FreeRun pmm start heapInitPages ∧ hhdm + start * pageSize + heapInitPages * pageSize ≤ 2 ^ 64 ∧
        heapInit hhdm ⟨mem, pmm, 0, 0, 0, 0, false⟩ =
          ⟨(tlsfCreate (hhdm + start * pageSize) (heapInitPages * pageSize) mem).2, pmm.take start heapInitPages, hhdm + start * pageSize,
            heapInitPages * pageSize, 0, 0, false⟩ := by
  cases pmmAllocPages_cases hpmm (show 0 < heapInitPages by decide) (by decide) with
  | inr hnone =>
      refine Or.inl ⟨hnone.1, ?_⟩
      rw [heapInit, hnone.2]
      rfl
  | inl hsome =>
      obtain ⟨start, hpos, hrun, -, heq⟩ := hsome
      have hfirst : 0 < start * pageSize := Nat.mul_pos hpos (by decide)
      have hend : start * pageSize + heapInitPages * pageSize ≤ pmmFrameCount * pageSize := by
        have hlast := hrun.1
        rw [hpmm.total] at hlast
        rw [← Nat.add_mul]
        exact Nat.mul_le_mul_right _ hlast
      have hvirt : vmmPhysToVirt hhdm (start * pageSize) = hhdm + start * pageSize := by
        apply vmmPhysToVirt_eq
        rw [heapInitPages, pageSize] at hend
        rw [pageSize] at hfits ⊢
        omega
      have hmem : hhdm + start * pageSize ≠ 0 := by omega
      have hfit : hhdm + start * pageSize + heapInitPages * pageSize ≤ 2 ^ 64 := by omega
      obtain ⟨hptr, -, -⟩ := booked_create (m := mem) hmem (show controlSize + 64 ≤ heapInitPages * pageSize by decide) (by decide) hfit
      refine Or.inr ⟨start, hpos, hrun, hfit, ?_⟩
      rw [heapInit, heq]
      simp only [if_neg (Nat.ne_of_gt hfirst), hvirt, hptr, if_pos hmem]

theorem HeapWorld.boot_inv {t : TrackedPmm} {mem : Memory} (ht : t.Inv) (hfits : hhdm + pmmFrameCount * pageSize ≤ 2 ^ 64)
    (htotal : t.pmm.freeFrames + pagesOf t.live = total) (hbound : total ≤ pmmFrameCount) (hheap : (HeapWorld.boot hhdm mem t).heap.heap ≠ 0) :
    ∃ pools h, (HeapWorld.boot hhdm mem t).Inv hhdm total pools h := by
  rw [HeapWorld.boot] at hheap ⊢
  cases heapInit_cases ht.pmm hfits mem with
  | inl hnone => exact absurd hnone.2 hheap
  | inr hsome =>
      obtain ⟨start, hpos, hrun, hfit, heq⟩ := hsome
      have hmem : hhdm + start * pageSize ≠ 0 := Nat.ne_of_gt (Nat.add_pos_right _ (Nat.mul_pos hpos (by decide)))
      have hcount : heapInitPages ≤ t.pmm.freeFrames := count_le_freeFrames ht.pmm hrun
      obtain ⟨-, ⟨h, hbooked⟩, -⟩ := booked_create (m := mem) hmem (show controlSize + 64 ≤ heapInitPages * pageSize by decide) (by decide) hfit
      have hheld : heldBy hhdm [⟨start * pageSize, heapInitPages⟩] [] h =
          ⟨[(hhdm + start * pageSize, heapInitPages * pageSize)], [poolEnds (hhdm + start * pageSize + controlSize) (heapInitPages * pageSize - controlSize)], []⟩ := by
        simp only [heldBy, hbooked.pools]
        rfl
      have hnone : ∀ {P : Nat × Nat → Prop}, ∀ a ∈ ([] : List (Nat × Nat)), P a := fun a ha => absurd ha List.not_mem_nil
      rw [heq]
      refine ⟨[⟨start * pageSize, heapInitPages⟩], h, ht.hold hpos (by decide) hrun, hfits, hheld ▸ hbooked, ⟨List.nodup_nil, hnone, hnone, hnone⟩, hnone,
        fun _ _ => rfl, rfl, rfl, ?_, ?_, hbound⟩
      · simp only [pagesOf, List.map_cons, List.map_nil, List.sum_cons, List.sum_nil, Nat.add_zero]
      · simp only [Pmm.take, pagesOf, List.map_cons, List.map_nil, List.sum_cons, List.sum_nil] at htotal ⊢
        omega

/-- What the owners have written is there, no byte has two owners, and the books are right. -/
structure HeapWorld.Sound (hhdm total : Nat) (w : HeapWorld) : Prop where
  kept : ∀ y, w.Theirs hhdm y → w.heap.mem y = w.kept y
  allocs_apart : w.allocs.Pairwise fun a a' => a.1 + a.2 ≤ a'.1 ∨ a'.1 + a'.2 ≤ a.1
  extents_apart : w.extents.Pairwise Extent.Disjoint
  apart : ∀ a ∈ w.allocs, ∀ e ∈ w.extents, ∀ y, a.1 ≤ y → y < a.1 + a.2 → ¬e.Spans hhdm y
  allocated : w.heap.allocatedBytes = w.allocated
  peak : w.heap.peakAllocatedBytes = w.most
  frames : w.heap.pmm.freeFrames + pagesOf w.extents + w.heap.poolBytes / pageSize = total

theorem HeapWorld.Inv.sound (hinv : w.Inv hhdm total pools h) : w.Sound hhdm total where
  kept := hinv.kept
  allocs_apart := hinv.allocations.apart hinv.allotted
  extents_apart := (List.pairwise_append.mp hinv.frames.disjoint).2.1
  apart a ha e he y hlo hhi hspans := by
    obtain ⟨b, hb, -, -, hptr, hfin⟩ := hinv.allocations.inside hinv.allotted ha
    exact hinv.extent_off he hspans (hinv.booked.block_in hb (by omega) (by omega))
  allocated := hinv.allocated
  peak := hinv.peak
  frames := by
    rw [hinv.poolBytes, Nat.mul_div_cancel _ (by decide)]
    exact hinv.conserved

/-- From a successful `pmm_init` and `heap_init`, every state that the kernel reaches by taking, writing and giving back memory and frames is one in which the owners find what they have written. -/
theorem kernel_heap_isolated (kernel : KernelImage) (info : BootInfo) (s : Pmm) (hinit : (pmmInit kernel info s).1 = 0) (before : List PmmCall)
    (hbefore : Lib.Allowed TrackedPmm.Legal TrackedPmm.step (TrackedPmm.boot kernel info s) before) (hhdm : Nat)
    (hfits : hhdm + pmmFrameCount * pageSize ≤ 2 ^ 64) (mem : Memory)
    (hheap : (HeapWorld.boot hhdm mem (Lib.run TrackedPmm.step (TrackedPmm.boot kernel info s) before)).heap.heap ≠ 0) (calls : List HeapCall)
    (hcalls : Lib.Allowed (HeapWorld.Legal hhdm) (HeapWorld.step hhdm)
      (HeapWorld.boot hhdm mem (Lib.run TrackedPmm.step (TrackedPmm.boot kernel info s) before)) calls) :
    (Lib.run (HeapWorld.step hhdm) (HeapWorld.boot hhdm mem (Lib.run TrackedPmm.step (TrackedPmm.boot kernel info s) before)) calls).Sound hhdm
      (pmmInit kernel info s).2.freeFrames := by
  have hboot : (TrackedPmm.boot kernel info s).Inv := ⟨pmmInit_inv hinit, List.forall_mem_nil _, List.Pairwise.nil⟩
  have hstart : (TrackedPmm.boot kernel info s).Inv ∧
      (TrackedPmm.boot kernel info s).pmm.freeFrames + pagesOf (TrackedPmm.boot kernel info s).live = (pmmInit kernel info s).2.freeFrames := ⟨hboot, rfl⟩
  have hstep : ∀ t call, (t.Inv ∧ t.pmm.freeFrames + pagesOf t.live = (pmmInit kernel info s).2.freeFrames) → TrackedPmm.Legal t call →
      (t.step call).Inv ∧ (t.step call).pmm.freeFrames + pagesOf (t.step call).live = (pmmInit kernel info s).2.freeFrames := by
    intro t call ht hlegal
    exact ⟨t.step_inv call ht.1 hlegal, (ht.1.conserves hlegal).trans ht.2⟩
  obtain ⟨htracked, htotal⟩ := Lib.run_invariant hstep hstart hbefore
  have hbound : (pmmInit kernel info s).2.freeFrames ≤ pmmFrameCount := by
    have hcount := (pmmInit_inv hinit).count
    have hle : freeCount (pmmInit kernel info s).2.bitmap (pmmInit kernel info s).2.totalFrames ≤ (pmmInit kernel info s).2.totalFrames := by
      rw [freeCount]
      exact List.countP_le_length.trans (List.length_range).le
    rw [hcount]
    exact hle.trans (pmmInit_inv hinit).total.le
  have hcall : ∀ (w : HeapWorld) call, (∃ pools h, w.Inv hhdm (pmmInit kernel info s).2.freeFrames pools h) → w.Legal hhdm call →
      ∃ pools h, (w.step hhdm call).Inv hhdm (pmmInit kernel info s).2.freeFrames pools h := by
    intro w call hinv hlegal
    obtain ⟨pools, h, hinv⟩ := hinv
    exact hinv.step call hlegal
  obtain ⟨pools, h, hinv⟩ := Lib.run_invariant hcall (HeapWorld.boot_inv htracked hfits htotal hbound hheap) hcalls
  exact hinv.sound

/-! ### A megabyte for the heap, and one allocation -/

/-- `pmm_init` leaves the frames of the only usable entry free. -/
theorem oneMegabyte_free {frame : Nat} (hlo : 256 ≤ frame) (hhi : frame < 512) :
    bitmapGet (pmmInit ⟨0, 0⟩ oneMegabyte ⟨fun _ => 0#8, 0, 0, 0⟩).2.bitmap frame = true := by
  have hall : ∀ b, bitmapGet (tsukasaBitmap ⟨0, 0⟩ ⟨0, some [⟨0x100000, 0x100000, tsukasaBootMemUsable⟩], none⟩
      [⟨0x100000, 0x100000, tsukasaBootMemUsable⟩] b) frame = true := by
    intro b
    have hentry : markUsableEntry b ⟨0x100000, 0x100000, tsukasaBootMemUsable⟩ = markRegion b 0x100000 0x200000 true := if_pos rfl
    have hkernel : ∀ bi : TsukasaBootInfo, bi.hhdmOffset = 0 → ∀ b', markRegion b' (bootAddrToPhys bi 0) (pageUp (bootAddrToPhys bi 0)) false = b' := by
      intro bi hbi b'
      have hphys : bootAddrToPhys bi 0 = 0 := by
        rw [bootAddrToPhys, hbi]
        rfl
      rw [hphys]
      exact if_pos (by decide)
    simp only [tsukasaBitmap, List.foldl_cons, List.foldl_nil, hentry, hkernel, Option.getD_none]
    have husable : bitmapGet (markRegion b 0x100000 0x200000 true) frame = true := by
      rw [markRegion, if_neg (by decide)]
      simp only [show addrToFrame 0x100000 = 256 from rfl, show addrToFrame (0x200000 - 1) = 511 from rfl]
      rw [if_neg (by decide), if_neg (by decide), bitmapGet_markFrames, if_pos (List.mem_range'_1.mpr (by omega))]
    have hhigh : frame ∉ List.range' 0 (255 + 1 - 0) := by
      rw [List.mem_range'_1]
      omega
    rw [markRegion, if_neg (by decide)]
    simp only [show addrToFrame 0 = 0 from rfl, show addrToFrame (0x100000 - 1) = 255 from rfl]
    rw [if_neg (by decide), if_neg (by decide), bitmapGet_markFrames, if_neg hhigh]
    exact husable
  simp only [pmmInit, oneMegabyte, recomputeFreeFrames, refreshFirstUsable]
  exact hall _

/-- A fresh heap of 256 pages serves a hundred bytes. -/
theorem boot_legal_hundred {t : TrackedPmm} (hpmm : t.pmm.Inv) {start : Nat} (hrun : FreeRun t.pmm start heapInitPages) (mem : Memory) :
    (HeapWorld.boot 0 mem t).heap.heap ≠ 0 ∧ (HeapWorld.boot 0 mem t).Legal 0 (.kmalloc 100) := by
  have hfits : 0 + pmmFrameCount * pageSize ≤ 2 ^ 64 := by decide
  cases heapInit_cases hpmm hfits mem with
  | inl hnone => exact absurd hrun (hnone.1 start)
  | inr hsome =>
      obtain ⟨start, hpos, -, hfit, heq⟩ := hsome
      have hmem : 0 + start * pageSize ≠ 0 := Nat.ne_of_gt (Nat.add_pos_right _ (Nat.mul_pos hpos (by decide)))
      obtain ⟨-, ⟨h, ht, hblocks, hrep⟩, -⟩ :=
        tlsfCreate_refines (m := mem) hmem (show controlSize + 64 ≤ heapInitPages * pageSize by decide) hfit (by decide) (by decide)
      have hroom : wrap32 (requestSize 116) + hdrSize ≤ poolBlockSize (heapInitPages * pageSize - controlSize) := by decide
      have hclass : (mappingSearch (wrap32 (requestSize 116))).1 < (mappingInsert (poolBlockSize (heapInitPages * pageSize - controlSize))).1 := by decide
      have htakes : TakesEnough (tlsfCreate (0 + start * pageSize) (heapInitPages * pageSize) mem).2 h.t 116 := by
        refine hrep.takesEnough (by decide) (by decide) fun b hb hfree => ?_
        rw [hblocks] at hb
        simp only [poolBlocks, List.mem_cons, List.not_mem_nil, or_false] at hb
        cases hb with
        | inl hfirst =>
            rw [hfirst]
            exact hroom
        | inr hlast =>
            rw [hlast] at hfree
            cases hfree
      have hfound : findSuitable (tlsfCreate (0 + start * pageSize) (heapInitPages * pageSize) mem).2 h.t (wrap32 (requestSize 116)) ≠ 0 :=
        hrep.findSuitable_ne_zero (by decide) (by rw [hblocks]; exact List.mem_cons_self) rfl (Or.inl hclass)
      rw [ht] at htakes hfound
      have hheap : (HeapWorld.boot 0 mem t).heap = _ := heq
      refine ⟨?_, Or.inr ⟨by decide, ?_, fun hnone => ?_⟩⟩
      · rw [hheap]
        exact hmem
      · rw [hheap]
        exact htakes
      · rw [hheap] at hnone
        exact absurd hnone hfound

theorem kernel_heap_isolated_hundred :
    (Lib.run (HeapWorld.step 0) (HeapWorld.boot 0 (fun _ => 0) (TrackedPmm.boot ⟨0, 0⟩ oneMegabyte ⟨fun _ => 0#8, 0, 0, 0⟩)) [.kmalloc 100]).Sound 0
      (pmmInit ⟨0, 0⟩ oneMegabyte ⟨fun _ => 0#8, 0, 0, 0⟩).2.freeFrames := by
  have hpmm : (TrackedPmm.boot ⟨0, 0⟩ oneMegabyte ⟨fun _ => 0#8, 0, 0, 0⟩).pmm.Inv := pmmInit_inv rfl
  have hrun : FreeRun (TrackedPmm.boot ⟨0, 0⟩ oneMegabyte ⟨fun _ => 0#8, 0, 0, 0⟩).pmm 256 heapInitPages := by
    refine ⟨?_, fun i hi => ?_⟩
    · rw [hpmm.total]
      decide
    · rw [heapInitPages] at hi
      exact oneMegabyte_free (by omega) (by omega)
  obtain ⟨hheap, hlegal⟩ := boot_legal_hundred hpmm hrun fun _ => 0
  exact kernel_heap_isolated ⟨0, 0⟩ oneMegabyte ⟨fun _ => 0#8, 0, 0, 0⟩ rfl [] trivial 0 (by decide) (fun _ => 0) hheap [.kmalloc 100] ⟨hlegal, trivial⟩

end Tsukasa
