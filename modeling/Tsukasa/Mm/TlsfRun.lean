import Tsukasa.Mm.TlsfFreeSpec
import Tsukasa.Mm.TlsfMalloc
import Tsukasa.Mm.TlsfPool
import Tsukasa.Mm.TlsfWf
import Tsukasa.Lib.Run

/-!
# Whole runs of the allocator

Heaps are created in fresh memory, get more pools, hand out blocks and take them back, and their owners write into the blocks they hold. Every heap stays well-formed as long as `tlsf_malloc` does not take a block that is too small to hold the request and one more header.
-/

namespace Tsukasa

open Lib (Memory)

variable {m m' : Memory} {t n : Nat} {h : TlsfHeap} {before after blocks : List TlsfBlock} {b c : TlsfBlock}

/-- The books of a heap: the memory given to it, its pools by first block and sentinel, and the pointers handed out. -/
structure Held where
  regions : List (Nat × Nat)
  pools : List (Nat × Nat)
  live : List Nat

structure TlsfState where
  mem : Memory
  held : Nat → Option Held

inductive TlsfOp where
  | create (mem size : Nat)
  | addPool (t mem size : Nat)
  | malloc (t size : Nat)
  | free (t ptr : Nat)
  | write (mem : Memory)

/-- The first block and the sentinel of a pool that `pool_add` makes. -/
def poolEnds (mem size : Nat) : Nat × Nat := (mem, mem + hdrSize + poolBlockSize size)

def tlsfStep (s : TlsfState) : TlsfOp → TlsfState
  | .create mem size =>
      let r := tlsfCreate mem size s.mem
      { mem := r.2
        held := if r.1 = 0 then s.held
          else Function.update s.held mem (some ⟨[(mem, size)], [poolEnds (mem + controlSize) (size - controlSize)], []⟩) }
  | .addPool t mem size =>
      { mem := tlsfAddPool t mem size s.mem
        held := if mem = 0 ∨ size < poolMin then s.held
          else Function.update s.held t
            ((s.held t).map fun k => { k with regions := (mem, size) :: k.regions, pools := k.pools ++ [poolEnds mem size] }) }
  | .malloc t size =>
      let r := tlsfMalloc t size s.mem
      { mem := r.2
        held := if r.1 = 0 then s.held else Function.update s.held t ((s.held t).map fun k => { k with live := r.1 :: k.live }) }
  | .free t ptr =>
      { mem := tlsfFree t ptr s.mem
        held := Function.update s.held t ((s.held t).map fun k => { k with live := k.live.erase ptr }) }
  | .write mem => { s with mem := mem }

/-- The byte is in the memory given to the heap. -/
def Held.Has (k : Held) (y : Nat) : Prop := ∃ r ∈ k.regions, r.1 ≤ y ∧ y < r.1 + r.2

/-- Memory that no heap has been given. -/
def Fresh (s : TlsfState) (mem size : Nat) : Prop :=
  mem + size ≤ 2 ^ 64 ∧ ∀ t k, s.held t = some k → ∀ y, mem ≤ y → y < mem + size → ¬k.Has y

/-- A byte that the allocator has handed out, or that it never had. -/
def UserByte (s : TlsfState) (y : Nat) : Prop :=
  (∀ t k, s.held t = some k → ¬k.Has y) ∨
    ∃ t k, s.held t = some k ∧ ∃ p ∈ k.live, p ≤ y ∧ y < p + blockSize s.mem (ptrToBlock p)

/-- What the callers keep to: fresh pools of less than 2^25 bytes, 64-bit sizes, and frees of what was handed out and not yet freed. -/
def CallOk (s : TlsfState) : TlsfOp → Prop
  | .create mem size => size < controlSize + 2 ^ 25 ∧ Fresh s mem size
  | .addPool t mem size => s.held t ≠ none ∧ size < 2 ^ 25 ∧ Fresh s mem size
  | .malloc t size => s.held t ≠ none ∧ size < 2 ^ 64
  | .free t ptr => ∃ k, s.held t = some k ∧ ptr ∈ k.live
  | .write mem => ∀ y, mem y ≠ s.mem y → UserByte s y

/-- The block that is taken, if there is one, is large enough for the request and one more header, and the search for it stays inside the table. -/
def TakesEnough (m : Memory) (t size : Nat) : Prop :=
  findSuitable m t (wrap32 (requestSize size)) = 0 ∨
    (mappingSearch (wrap32 (requestSize size))).1 < flIndexCount ∧ blockMin ≤ wrap32 (requestSize size) ∧
      wrap32 (requestSize size) + hdrSize ≤ blockSize m (findSuitable m t (wrap32 (requestSize size)))

def MallocOk (s : TlsfState) : TlsfOp → Prop
  | .malloc t size => size = 0 ∨ TakesEnough s.mem t size
  | _ => True

/-! ### What the books say of the memory -/

/-- The heap `h` in memory is the one the books `k` describe. -/
structure Booked (m : Memory) (t : Nat) (k : Held) (h : TlsfHeap) : Prop where
  represents : Represents m h
  control : h.t = t
  pools : poolsFrom none h.blocks = k.pools
  small : ∀ pool ∈ k.pools, pool.2 < pool.1 + 2 ^ 25
  controlIn : ∀ y, t ≤ y → y < t + controlSize → k.Has y
  poolsIn : ∀ pool ∈ k.pools, ∀ y, pool.1 ≤ y → y < pool.2 + hdrSize → k.Has y
  live : ∀ p, p ∈ k.live ↔ ∃ b ∈ h.blocks, b.free = false ∧ b.size ≠ 0 ∧ p = blockToPtr b.addr
  nodup : k.live.Nodup

structure TlsfInv (s : TlsfState) : Prop where
  booked : ∀ t k, s.held t = some k → ∃ h, Booked s.mem t k h
  apart : ∀ t k t' k', s.held t = some k → s.held t' = some k' → t ≠ t' → ∀ y, k.Has y → ¬k'.Has y

namespace Booked

variable {k : Held} {y : Nat}

theorem block_in (hk : Booked m t k h) (hb : b ∈ h.blocks) (hlo : b.addr ≤ y) (hhi : y < b.fin) : k.Has y := by
  obtain ⟨pool, hpool, hfirst, hlast⟩ := h.layout.in_pool hb
  rw [hk.pools] at hpool
  exact hk.poolsIn pool hpool y (by omega) (by omega)

theorem owned_in (hk : Booked m t k h) (hy : Owned h.t h.blocks y) : k.Has y := by
  rcases hy with ⟨hlo, hhi⟩ | ⟨b, hb, hlo, hhi⟩
  · rw [hk.control] at hlo hhi
    exact hk.controlIn y hlo hhi
  · refine hk.block_in hb hlo ?_
    simp only [TlsfBlock.fin] at hhi ⊢
    omega

/-- A heap does not notice what happens to memory that is not the allocator's. -/
theorem congr (hk : Booked m t k h) (hsame : ∀ y, Owned h.t h.blocks y → m' y = m y) : Booked m' t k h :=
  ⟨hk.represents.congr hsame, hk.control, hk.pools, hk.small, hk.controlIn, hk.poolsIn, hk.live, hk.nodup⟩

end Booked

/-! ### The calls, one by one -/

section Calls

variable {k : Held}

/-- The free block that `tlsf_malloc` takes from, and the heap with the part taken in use. -/
theorem Represents.malloc_serves (hrep : Represents m h) (hn : n ≠ 0) (hfound : findSuitable m h.t (wrap32 (requestSize n)) ≠ 0)
    (hok : TakesEnough m h.t n) :
    ∃ before b after, h.blocks = before ++ (b :: after) ∧ b.free = true ∧ (tlsfMalloc h.t n m).1 = blockToPtr b.addr ∧
      wrap32 (requestSize n) ≠ 0 ∧ wrap32 (requestSize n) ≤ b.size ∧
      (∃ h' : TlsfHeap, h'.t = h.t ∧ h'.blocks = before ++ (taken b (wrap32 (requestSize n)) ++ after) ∧ Represents (tlsfMalloc h.t n m).2 h') ∧
      ∀ y, ¬Owned h.t h.blocks y → (tlsfMalloc h.t n m).2 y = m y := by
  obtain ⟨hfl, hmin, hfit⟩ := hok.resolve_left hfound
  obtain ⟨b, hb, hfree, haddr, -⟩ := hrep.findSuitable_block hfl hfound
  rw [← haddr, (hrep.tagged.header hb).1] at hfit
  obtain ⟨before, after, hblocks⟩ := List.append_of_mem hb
  have hmod := wrap32_requestSize_mod n
  obtain ⟨hptr, hheap, hframe⟩ := takeBlock_refines hrep hblocks hfree hmin (by omega) hfit
  rw [tlsfMalloc_of_found h.pos hn hfound, ← haddr]
  refine ⟨before, b, after, hblocks, hfree, hptr, ?_, by omega, hheap, hblocks ▸ hframe⟩
  rw [blockMin] at hmin
  omega

/-- The block that `tlsf_malloc` takes, and the heap with it in use. -/
theorem Represents.malloc_taken (hrep : Represents m h) (hn : n ≠ 0) (hfound : findSuitable m h.t (wrap32 (requestSize n)) ≠ 0)
    (hok : TakesEnough m h.t n) :
    ∃ before b after part, h.blocks = before ++ (b :: after) ∧ b.free = true ∧ (tlsfMalloc h.t n m).1 = blockToPtr b.addr ∧
      (∃ h' : TlsfHeap, h'.t = h.t ∧ h'.blocks = before ++ (part ++ after) ∧ Represents (tlsfMalloc h.t n m).2 h' ∧
        poolsFrom none h'.blocks = poolsFrom none h.blocks) ∧
      (∃ c ∈ part, c.free = false ∧ c.size ≠ 0 ∧ c.addr = b.addr) ∧ (∀ c ∈ part, c.free = false → c.addr = b.addr) ∧
      ∀ y, ¬Owned h.t h.blocks y → (tlsfMalloc h.t n m).2 y = m y := by
  obtain ⟨before, b, after, hblocks, hfree, hptr, hsize, hle, ⟨h', ht', hblocks', hrep'⟩, hframe⟩ := hrep.malloc_serves hn hfound hok
  obtain ⟨⟨c, hc, hcused, hcsize, hcaddr, -⟩, honly⟩ := taken_used hsize hle
  refine ⟨before, b, after, taken b _, hblocks, hfree, hptr, ⟨h', ht', hblocks', hrep', ?_⟩, ⟨c, hc, hcused, hcsize, hcaddr⟩, honly, hframe⟩
  rw [hblocks', taken_pools hsize (by omega), ← hblocks]

/-- A free block is replaced by parts of which one is in use: the books have one pointer more. -/
theorem Booked.take (hk : Booked m t k h) {part : List TlsfBlock} {h' : TlsfHeap} (hblocks : h.blocks = before ++ (b :: after)) (hfree : b.free = true)
    (ht' : h'.t = h.t) (hblocks' : h'.blocks = before ++ (part ++ after)) (hrep' : Represents m' h')
    (hpools : poolsFrom none h'.blocks = poolsFrom none h.blocks) (hused : ∃ c ∈ part, c.free = false ∧ c.size ≠ 0 ∧ c.addr = b.addr)
    (honly : ∀ c ∈ part, c.free = false → c.addr = b.addr) : Booked m' t { k with live := blockToPtr b.addr :: k.live } h' := by
  obtain ⟨c, hc, hcused, hcsize, hcaddr⟩ := hused
  have hb : b ∈ h.blocks := by simp [hblocks]
  have hnew : blockToPtr b.addr ∉ k.live := by
    intro hin
    obtain ⟨d, hd, hdused, -, hptr'⟩ := (hk.live _).mp hin
    have heq := h.layout.addr_inj hd hb (by simp only [blockToPtr] at hptr'; omega)
    rw [heq, hfree] at hdused
    simp at hdused
  refine ⟨hrep', ht'.trans hk.control, ?_, hk.small, hk.controlIn, hk.poolsIn, fun p => ?_, List.nodup_cons.mpr ⟨hnew, hk.nodup⟩⟩
  · rw [hpools, hk.pools]
  · rw [List.mem_cons, hk.live p, hblocks', hblocks]
    constructor
    · rintro (rfl | ⟨d, hd, hdused, hdsize, rfl⟩)
      · exact ⟨c, by simp [hc], hcused, hcsize, by rw [hcaddr]⟩
      · refine ⟨d, ?_, hdused, hdsize, rfl⟩
        simp only [List.mem_append, List.mem_cons] at hd ⊢
        rcases hd with hd | rfl | hd
        · exact Or.inl hd
        · rw [hfree] at hdused
          simp at hdused
        · exact Or.inr (Or.inr hd)
    · rintro ⟨d, hd, hdused, hdsize, rfl⟩
      simp only [List.mem_append] at hd
      rcases hd with hd | hd | hd
      · exact Or.inr ⟨d, List.mem_append_left _ hd, hdused, hdsize, rfl⟩
      · exact Or.inl (by rw [honly d hd hdused])
      · exact Or.inr ⟨d, List.mem_append_right _ (List.mem_cons_of_mem _ hd), hdused, hdsize, rfl⟩

/-- `tlsf_malloc` finds nothing, or hands out a block the books did not have. -/
theorem Booked.malloc (hk : Booked m t k h) (hn : n ≠ 0) (hok : TakesEnough m t n) :
    tlsfMalloc t n m = (0, m) ∨
      (tlsfMalloc t n m).1 ≠ 0 ∧ (∃ h', Booked (tlsfMalloc t n m).2 t { k with live := (tlsfMalloc t n m).1 :: k.live } h') ∧
        ∀ y, ¬k.Has y → (tlsfMalloc t n m).2 y = m y := by
  by_cases hnone : findSuitable m t (wrap32 (requestSize n)) = 0
  · exact Or.inl (tlsfMalloc_of_none hnone)
  · have ht := hk.control
    subst ht
    obtain ⟨before, b, after, part, hblocks, hfree, hptr, ⟨h', ht', hblocks', hrep', hpools⟩, hused, honly, hframe⟩ :=
      hk.represents.malloc_taken hn hnone hok
    have hbooked := hk.take hblocks hfree ht' hblocks' hrep' hpools hused honly
    refine Or.inr ⟨?_, ⟨h', hptr ▸ hbooked⟩, fun y hy => hframe y fun hin => hy (hk.owned_in hin)⟩
    rw [hptr, blockToPtr, hdrSize]
    omega

/-- No pool is so large that a joined block would have no list. -/
theorem Booked.freed_small (hk : Booked m t k h) (hblocks : h.blocks = before ++ (b :: after)) (hused : b.free = false) (hne : b.size ≠ 0) :
    (freed before b after).2.1.size < 2 ^ 25 := by
  have hl := h.layout
  rw [hblocks] at hl
  rw [(freed_spec hl hused hne).1]
  refine mergedBlock_small hl hused hne fun pool hpool => hk.small pool ?_
  rwa [← hblocks, hk.pools] at hpool

/-- `tlsf_free` takes back a block that is on the books. -/
theorem Booked.free (hk : Booked m t k h) {p : Nat} (hp : p ∈ k.live) :
    (∃ h', Booked (tlsfFree t p m) t { k with live := k.live.erase p } h') ∧ ∀ y, ¬k.Has y → tlsfFree t p m y = m y := by
  obtain ⟨b, hb, hused, hne, rfl⟩ := (hk.live p).mp hp
  obtain ⟨before, after, hblocks⟩ := List.append_of_mem hb
  have hsmall := hk.freed_small hblocks hused hne
  have ht := hk.control
  subst ht
  have hl := h.layout
  rw [hblocks] at hl
  obtain ⟨-, hpools, hothers, hkeep, -⟩ := freed_spec hl hused hne
  obtain ⟨⟨h', ht', hblocks', hrep'⟩, hframe⟩ := tlsfFree_refines hk.represents hblocks hused hne hsmall
  have hpools' : poolsFrom none h'.blocks = k.pools := by rw [hblocks', hpools, ← hblocks, hk.pools]
  have hdistinct : ∀ c ∈ before ++ after, c.addr ≠ b.addr := by
    intro c hc heq
    have hapart := hl.apart_middle c hc
    simp only [TlsfBlock.fin, hdrSize] at hapart
    omega
  have hbooked : Booked (tlsfFree h.t (blockToPtr b.addr) m) h.t { k with live := k.live.erase (blockToPtr b.addr) } h' := by
    refine ⟨hrep', ht', hpools', hk.small, hk.controlIn, hk.poolsIn, fun p => ?_, hk.nodup.erase _⟩
    rw [hk.nodup.mem_erase_iff, hk.live p, hblocks', hblocks]
    constructor
    · rintro ⟨hpne, d, hd, hdused, hdsize, rfl⟩
      refine ⟨d, hkeep d ?_ hdused, hdused, hdsize, rfl⟩
      simp only [List.mem_append, List.mem_cons] at hd ⊢
      rcases hd with hd | rfl | hd
      · exact Or.inl hd
      · exact absurd rfl hpne
      · exact Or.inr hd
    · rintro ⟨d, hd, hdused, hdsize, rfl⟩
      rcases hothers d hd with rfl | hd'
      · simp [mergedBlock] at hdused
      · refine ⟨fun heq => hdistinct d hd' ?_, d, mem_middle hd', hdused, hdsize, rfl⟩
        simp only [blockToPtr] at heq
        omega
  refine ⟨⟨h', hbooked⟩, fun y hy => hframe y fun hin => hy ?_⟩
  rw [← hblocks', ← ht'] at hin
  exact hbooked.owned_in hin

theorem poolBlockSize_bounds {size : Nat} (hsize : poolMin ≤ size) (hlt : size < 2 ^ 25) :
    blockMin ≤ poolBlockSize size ∧ poolBlockSize size + 24 ≤ size := by
  refine ⟨?_, poolBlockSize_le hsize⟩
  simp only [poolMin, poolBlockSize, wrap32, hdrSize, blockMin, footerSize] at *
  omega

theorem poolsFrom_addPool (mem : Nat) {size : Nat} (hl : Layout t blocks) (hsize : poolBlockSize size ≠ 0) :
    poolsFrom none (blocks ++ poolBlocks mem size) = poolsFrom none blocks ++ [poolEnds mem size] := by
  have hpool : poolsFrom none (poolBlocks mem size) = [poolEnds mem size] := by
    rw [poolBlocks, poolsFrom_block _ hsize, poolsFrom_sentinel _ rfl]
    rfl
  by_cases hne : blocks = []
  · rw [hne, List.nil_append, hpool]
    rfl
  · rw [poolsFrom_append none hl.last hne, hpool]

/-- Blocks in use are the same before and after a pool is added. -/
theorem used_addPool (blocks : List TlsfBlock) (mem size p : Nat) :
    (∃ b ∈ blocks ++ poolBlocks mem size, b.free = false ∧ b.size ≠ 0 ∧ p = blockToPtr b.addr) ↔
      ∃ b ∈ blocks, b.free = false ∧ b.size ≠ 0 ∧ p = blockToPtr b.addr := by
  constructor
  · rintro ⟨b, hb, hused, hne, rfl⟩
    simp only [poolBlocks, List.mem_append, List.mem_cons, List.not_mem_nil, or_false] at hb
    rcases hb with hb | rfl | rfl
    · exact ⟨b, hb, hused, hne, rfl⟩
    · simp at hused
    · exact absurd rfl hne
  · rintro ⟨b, hb, hrest⟩
    exact ⟨b, List.mem_append_left _ hb, hrest⟩

/-- Memory the heap was not given is not used by it. -/
theorem Booked.unused (hk : Booked m t k h) {mem size : Nat} (hmem : mem ≠ 0) (hsize : size ≠ 0) (hfits : mem + size ≤ 2 ^ 64)
    (hfresh : ∀ y, mem ≤ y → y < mem + size → ¬k.Has y) : Unused h.t h.blocks mem size := by
  have hcontrol := hk.control
  refine ⟨by omega, hfits, ?_, fun b hb => ?_⟩
  · by_contra hover
    have hpos : 0 < controlSize := by decide
    exact hfresh (max mem t) (by omega) (by omega) (hk.controlIn _ (by omega) (by omega))
  · by_contra hover
    have hfin : b.addr < b.fin := by
      rw [TlsfBlock.fin, hdrSize]
      omega
    exact hfresh (max mem b.addr) (by omega) (by omega) (hk.block_in hb (by omega) (by omega))

/-- `tlsf_add_pool` adds a pool to the books. -/
theorem Booked.addPool (hk : Booked m t k h) {mem size : Nat} (hmem : mem ≠ 0) (hsize : poolMin ≤ size) (hlt : size < 2 ^ 25)
    (hfits : mem + size ≤ 2 ^ 64) (hfresh : ∀ y, mem ≤ y → y < mem + size → ¬k.Has y) :
    (∃ h', Booked (poolAdd t mem size m) t { k with regions := (mem, size) :: k.regions, pools := k.pools ++ [poolEnds mem size] } h') ∧
      ∀ y, ¬k.Has y → (y < mem ∨ mem + size ≤ y) → poolAdd t mem size m y = m y := by
  obtain ⟨hmin, hle⟩ := poolBlockSize_bounds hsize hlt
  have hne : poolBlockSize size ≠ 0 := by
    rw [blockMin] at hmin
    omega
  have ht := hk.control
  subst ht
  obtain ⟨⟨h', ht', hblocks', hrep'⟩, hframe⟩ :=
    poolAdd_refines hk.represents (hk.unused hmem (by omega) hfits hfresh) hsize (by omega) hmin
  have hold : ∀ y, k.Has y → Held.Has { k with regions := (mem, size) :: k.regions, pools := k.pools ++ [poolEnds mem size] } y := by
    rintro y ⟨r, hr, hbounds⟩
    exact ⟨r, List.mem_cons_of_mem _ hr, hbounds⟩
  refine ⟨⟨h', hrep', ht', ?_, fun pool hpool => ?_, fun y hlo hhi => hold y (hk.controlIn y hlo hhi), fun pool hpool y hlo hhi => ?_,
    fun p => ?_, hk.nodup⟩, fun y hy hout => hframe y (fun hin => hy (hk.owned_in hin)) hout⟩
  · rw [hblocks', poolsFrom_addPool mem h.layout hne, hk.pools]
  · rcases List.mem_append.mp hpool with hpool | hpool
    · exact hk.small pool hpool
    · rw [List.mem_singleton.mp hpool]
      simp only [poolEnds, hdrSize]
      omega
  · rcases List.mem_append.mp hpool with hpool | hpool
    · exact hold y (hk.poolsIn pool hpool y hlo hhi)
    · rw [List.mem_singleton.mp hpool] at hlo hhi
      simp only [poolEnds, hdrSize] at hlo hhi
      exact ⟨(mem, size), List.mem_cons_self, hlo, by simp only; omega⟩
  · rw [hk.live p, hblocks', used_addPool h.blocks]

/-- `tlsf_create` opens the books of a heap. -/
theorem booked_create {mem size : Nat} (hmem : mem ≠ 0) (hsize : controlSize + 64 ≤ size) (hlt : size < controlSize + 2 ^ 25)
    (hfits : mem + size ≤ 2 ^ 64) :
    (tlsfCreate mem size m).1 = mem ∧
      (∃ h', Booked (tlsfCreate mem size m).2 mem ⟨[(mem, size)], [poolEnds (mem + controlSize) (size - controlSize)], []⟩ h') ∧
      ∀ y, y < mem ∨ mem + size ≤ y → (tlsfCreate mem size m).2 y = m y := by
  have hpoolMin : poolMin ≤ size - controlSize := by
    simp only [poolMin, hdrSize, blockMin, footerSize]
    omega
  obtain ⟨hmin, hle⟩ := poolBlockSize_bounds hpoolMin (by omega)
  have hne : poolBlockSize (size - controlSize) ≠ 0 := by
    rw [blockMin] at hmin
    omega
  obtain ⟨hptr, ⟨h', ht', hblocks', hrep'⟩, hframe⟩ := tlsfCreate_refines (m := m) hmem hsize hfits (by omega) hmin
  refine ⟨hptr, ⟨h', hrep', ht', ?_, fun pool hpool => ?_, fun y hlo hhi => ?_, fun pool hpool y hlo hhi => ?_, fun p => ?_, List.nodup_nil⟩, hframe⟩
  · rw [hblocks']
    exact poolsFrom_addPool (mem + controlSize) (emptyHeap mem hmem).layout hne
  · rw [List.mem_singleton.mp hpool]
    simp only [poolEnds, hdrSize]
    omega
  · exact ⟨(mem, size), List.mem_singleton_self _, hlo, by simp only; omega⟩
  · rw [List.mem_singleton.mp hpool] at hlo hhi
    simp only [poolEnds, hdrSize] at hlo hhi
    exact ⟨(mem, size), List.mem_singleton_self _, by simp only; omega, by simp only; omega⟩
  · rw [hblocks']
    have hused := used_addPool [] (mem + controlSize) (size - controlSize) p
    rw [List.nil_append] at hused
    rw [hused]
    simp

end Calls

/-! ### Whole runs -/

/-- One heap changes, within the memory it has. -/
theorem TlsfInv.update {s : TlsfState} {k : Held} (hinv : TlsfInv s) (hk : Booked m t k h) (hframe : ∀ y, ¬k.Has y → m y = s.mem y)
    (hapart : ∀ t' k', s.held t' = some k' → t ≠ t' → ∀ y, k.Has y → ¬k'.Has y) : TlsfInv ⟨m, Function.update s.held t (some k)⟩ := by
  refine ⟨fun t' k' hk' => ?_, fun t₁ k₁ t₂ k₂ hk₁ hk₂ hne => ?_⟩
  · rcases eq_or_ne t' t with rfl | hne
    · simp only [Function.update_self, Option.some.injEq] at hk'
      exact ⟨h, hk' ▸ hk⟩
    · simp only [Function.update_of_ne hne] at hk'
      obtain ⟨h', hbooked⟩ := hinv.booked t' k' hk'
      exact ⟨h', hbooked.congr fun y hy => hframe y fun hin => hapart t' k' hk' hne.symm y hin (hbooked.owned_in hy)⟩
  · rcases eq_or_ne t₁ t with rfl | hne₁
    · simp only [Function.update_self, Option.some.injEq, Function.update_of_ne hne.symm] at hk₁ hk₂
      exact hk₁ ▸ hapart t₂ k₂ hk₂ hne
    · rcases eq_or_ne t₂ t with rfl | hne₂
      · simp only [Function.update_self, Option.some.injEq, Function.update_of_ne hne₁] at hk₁ hk₂
        exact fun y hy hin => hapart t₁ k₁ hk₁ hne.symm y (hk₂ ▸ hin) hy
      · simp only [Function.update_of_ne hne₁, Function.update_of_ne hne₂] at hk₁ hk₂
        exact hinv.apart t₁ k₁ t₂ k₂ hk₁ hk₂ hne

theorem TlsfInv.same_regions {s : TlsfState} {k k' : Held} (hinv : TlsfInv s) (hk : s.held t = some k) (hregions : k'.regions = k.regions)
    (t' : Nat) (k₂ : Held) (hk₂ : s.held t' = some k₂) (hne : t ≠ t') (y : Nat) (hy : k'.Has y) : ¬k₂.Has y := by
  rw [Held.Has, hregions] at hy
  exact hinv.apart t k t' k₂ hk hk₂ hne y hy

/-- A byte of a block that is handed out is not the allocator's. -/
theorem TlsfInv.user_not_owned {s : TlsfState} {k : Held} (hinv : TlsfInv s) (hk : s.held t = some k) (hbooked : Booked s.mem t k h)
    {y : Nat} (hy : UserByte s y) : ¬Owned h.t h.blocks y := by
  intro hin
  rcases hy with hout | ⟨t', k', hk', p, hp, hlo, hhi⟩
  · exact hout t k hk (hbooked.owned_in hin)
  · obtain ⟨h', hbooked'⟩ := hinv.booked t' k' hk'
    obtain ⟨b, hb, hused, -, rfl⟩ := (hbooked'.live p).mp hp
    rw [show ptrToBlock (blockToPtr b.addr) = b.addr from Nat.add_sub_cancel .., (hbooked'.represents.tagged.header hb).1] at hhi
    have hfin : y < b.fin := hhi
    rcases eq_or_ne t t' with rfl | hne
    · rw [hk, Option.some.injEq] at hk'
      subst hk'
      obtain ⟨c, hc, hcfree, hclo, hchi⟩ : ∃ c ∈ h.blocks, c.free = false ∧ c.addr + hdrSize ≤ y ∧ y < c.fin := by
        obtain ⟨c, hc, hcused, -, hptr⟩ := (hbooked.live _).mp hp
        have haddr : c.addr = b.addr := by
          simp only [blockToPtr] at hptr
          omega
        have hsize : c.size = b.size := by
          rw [← (hbooked.represents.tagged.header hc).1, haddr, (hbooked'.represents.tagged.header hb).1]
        refine ⟨c, hc, hcused, by rwa [haddr], ?_⟩
        rwa [TlsfBlock.fin, haddr, hsize]
      exact h.layout.payload_not_owned hc hcfree hclo hchi hin
    · exact hinv.apart t k t' k' hk hk' hne y (hbooked.owned_in hin) (hbooked'.block_in hb (by rw [blockToPtr] at hlo; omega) hfin)

theorem Held.has_addPool {k : Held} {mem size y : Nat} {pools : List (Nat × Nat)}
    (hy : Held.Has { k with regions := (mem, size) :: k.regions, pools := pools } y) : mem ≤ y ∧ y < mem + size ∨ k.Has y := by
  obtain ⟨r, hr, hbounds⟩ := hy
  rcases List.mem_cons.mp hr with rfl | hr
  · exact Or.inl hbounds
  · exact Or.inr ⟨r, hr, hbounds⟩

/-- The step lemma: what one call, or one write of an owner, preserves. -/
theorem tlsfStep_inv {s : TlsfState} (op : TlsfOp) (hinv : TlsfInv s) (hcall : CallOk s op) (hok : MallocOk s op) : TlsfInv (tlsfStep s op) := by
  cases op with
  | create mem size =>
      obtain ⟨hlt, hfits, hfresh⟩ := hcall
      rw [tlsfStep]
      by_cases hrun : mem = 0 ∨ size < controlSize + 64
      · rw [tlsfCreate, if_pos hrun]
        exact hinv
      · rw [not_or, Nat.not_lt] at hrun
        obtain ⟨hptr, ⟨h, hbooked⟩, hframe⟩ := booked_create (m := s.mem) hrun.1 hrun.2 hlt hfits
        rw [hptr, if_neg hrun.1]
        refine hinv.update hbooked (fun y hy => hframe y ?_) fun t k hk _ y hy hin => ?_
        · by_contra hin
          exact hy ⟨(mem, size), List.mem_singleton_self _, by simp only; omega, by simp only; omega⟩
        · obtain ⟨r, hr, hlo, hhi⟩ := hy
          rw [List.mem_singleton.mp hr] at hlo hhi
          exact hfresh t k hk y hlo hhi hin
  | addPool t mem size =>
      obtain ⟨hheld, hlt, hfits, hfresh⟩ := hcall
      obtain ⟨k, hk⟩ := Option.ne_none_iff_exists'.mp hheld
      obtain ⟨h, hbooked⟩ := hinv.booked t k hk
      have ht : t ≠ 0 := hbooked.control ▸ h.pos
      rw [tlsfStep]
      by_cases hrun : mem = 0 ∨ size < poolMin
      · have hsame : tlsfAddPool t mem size s.mem = s.mem := by
          rw [tlsfAddPool]
          split
          · rfl
          · next hne => rw [poolAdd, if_pos (hrun.resolve_left fun hmem => hne (Or.inr hmem))]
        rw [if_pos hrun, hsame]
        exact hinv
      · rw [not_or, Nat.not_lt] at hrun
        obtain ⟨⟨h', hbooked'⟩, hframe⟩ := hbooked.addPool hrun.1 hrun.2 hlt hfits (hfresh t k hk)
        have hpool : tlsfAddPool t mem size s.mem = poolAdd t mem size s.mem := if_neg (not_or.mpr ⟨ht, hrun.1⟩)
        rw [if_neg (not_or.mpr ⟨hrun.1, Nat.not_lt.mpr hrun.2⟩), hk, Option.map_some, hpool]
        refine hinv.update hbooked' (fun y hy => hframe y (fun hin => ?_) ?_) fun t' k' hk' hne y hy hin => ?_
        · obtain ⟨r, hr, hbounds⟩ := hin
          exact hy ⟨r, List.mem_cons_of_mem _ hr, hbounds⟩
        · by_contra hin
          exact hy ⟨(mem, size), List.mem_cons_self, by simp only; omega, by simp only; omega⟩
        · rcases Held.has_addPool hy with ⟨hlo, hhi⟩ | hold
          · exact hfresh t' k' hk' y hlo hhi hin
          · exact hinv.apart t k t' k' hk hk' hne y hold hin
  | malloc t n =>
      obtain ⟨k, hk⟩ := Option.ne_none_iff_exists'.mp hcall.1
      obtain ⟨h, hbooked⟩ := hinv.booked t k hk
      rw [tlsfStep]
      have hcases : tlsfMalloc t n s.mem = (0, s.mem) ∨ (tlsfMalloc t n s.mem).1 ≠ 0 ∧
          (∃ h', Booked (tlsfMalloc t n s.mem).2 t { k with live := (tlsfMalloc t n s.mem).1 :: k.live } h') ∧
            ∀ y, ¬k.Has y → (tlsfMalloc t n s.mem).2 y = s.mem y := by
        by_cases hn : n = 0
        · exact Or.inl (if_pos (Or.inr hn))
        · exact hbooked.malloc hn (hok.resolve_left hn)
      rcases hcases with hnone | ⟨hptr, ⟨h', hbooked'⟩, hframe⟩
      · rw [hnone, if_pos rfl]
        exact hinv
      · rw [if_neg hptr, hk, Option.map_some]
        exact hinv.update hbooked' (fun y hy => hframe y hy) (hinv.same_regions hk rfl)
  | free t p =>
      obtain ⟨k, hk, hp⟩ := hcall
      obtain ⟨h, hbooked⟩ := hinv.booked t k hk
      obtain ⟨⟨h', hbooked'⟩, hframe⟩ := hbooked.free hp
      rw [tlsfStep]
      rw [hk, Option.map_some]
      exact hinv.update hbooked' (fun y hy => hframe y hy) (hinv.same_regions hk rfl)
  | write mem =>
      refine ⟨fun t k hk => ?_, hinv.apart⟩
      obtain ⟨h, hbooked⟩ := hinv.booked t k hk
      refine ⟨h, hbooked.congr fun y hy => ?_⟩
      by_contra hne
      exact hinv.user_not_owned hk hbooked (hcall y hne) hy

/-- Every heap of the state is well-formed. -/
def HeapsWellFormed (s : TlsfState) : Prop := ∀ t k, s.held t = some k → WellFormed s.mem t k.pools

theorem TlsfInv.wellFormed {s : TlsfState} (hinv : TlsfInv s) : HeapsWellFormed s := by
  intro t k hk
  obtain ⟨h, hbooked⟩ := hinv.booked t k hk
  have hwf := hbooked.represents.wellFormed
  rwa [hbooked.control, hbooked.pools] at hwf

theorem tlsfInv_start (m : Memory) : TlsfInv ⟨m, fun _ => none⟩ :=
  ⟨fun _ _ hk => by simp at hk, fun _ _ _ _ hk => by simp at hk⟩

/-- In a run whose calls to `tlsf_malloc` all find nothing or a block with room for one more header, every heap is well-formed after every step. -/
theorem tlsf_heaps_well_formed (m : Memory) (ops : List TlsfOp)
    (hcalls : Lib.Allowed (fun s op => CallOk s op ∧ MallocOk s op) tlsfStep ⟨m, fun _ => none⟩ ops) :
    Lib.Along HeapsWellFormed tlsfStep ⟨m, fun _ => none⟩ ops := by
  have hstep : ∀ s op, TlsfInv s → CallOk s op ∧ MallocOk s op → TlsfInv (tlsfStep s op) := fun s op hinv hop => tlsfStep_inv op hinv hop.1 hop.2
  exact Lib.along_of_allowed (fun _ hinv => TlsfInv.wellFormed hinv) hstep (tlsfInv_start m) hcalls

theorem Represents.takesEnough (hrep : Represents m h) (hfl : (mappingSearch (wrap32 (requestSize n))).1 < flIndexCount)
    (hmin : blockMin ≤ wrap32 (requestSize n)) (hroom : ∀ b ∈ h.blocks, b.free = true → wrap32 (requestSize n) + hdrSize ≤ b.size) :
    TakesEnough m h.t n := by
  by_cases hnone : findSuitable m h.t (wrap32 (requestSize n)) = 0
  · exact Or.inl hnone
  · obtain ⟨b, hb, hfree, haddr, -⟩ := hrep.findSuitable_block hfl hnone
    refine Or.inr ⟨hfl, hmin, ?_⟩
    rw [← haddr, (hrep.tagged.header hb).1]
    exact hroom b hb hfree

/-- A heap of one block of 4840 bytes, made in blank memory. -/
def freshHeap : TlsfState := tlsfStep ⟨fun _ => 0, fun _ => none⟩ (.create 4096 8192)

theorem freshHeap_call : CallOk ⟨fun _ => 0, fun _ => none⟩ (.create 4096 8192) := ⟨by decide, by decide, by simp⟩

theorem freshHeap_held : freshHeap.held 4096 ≠ none := by
  have hptr : (tlsfCreate 4096 8192 fun _ => 0).1 = 4096 := rfl
  rw [freshHeap, tlsfStep]
  dsimp only
  rw [hptr, if_neg (by decide), Function.update_self]
  simp

theorem freshHeap_represents : ∃ h : TlsfHeap, h.t = 4096 ∧ h.blocks = [⟨7424, 4840, true⟩, ⟨12272, 0, false⟩] ∧ Represents freshHeap.mem h := by
  obtain ⟨-, ⟨h, ht, hblocks, hrep⟩, -⟩ :=
    @tlsfCreate_refines (fun _ => 0) 4096 8192 (by decide) (by decide) (by decide) (by decide) (by decide)
  exact ⟨h, ht, hblocks, hrep⟩

theorem freshHeap_takes : TakesEnough freshHeap.mem 4096 100 := by
  obtain ⟨h, ht, hblocks, hrep⟩ := freshHeap_represents
  have hroom : TakesEnough freshHeap.mem h.t 100 := by
    refine hrep.takesEnough (by decide) (by decide) fun b hb hfree => ?_
    rw [hblocks] at hb
    simp only [List.mem_cons, List.not_mem_nil, or_false] at hb
    rcases hb with rfl | rfl
    · decide
    · simp at hfree
  rwa [ht] at hroom

theorem tlsf_heaps_well_formed_served :
    Lib.Along HeapsWellFormed tlsfStep ⟨fun _ => 0, fun _ => none⟩ [.create 4096 8192, .malloc 4096 100] :=
  tlsf_heaps_well_formed _ _ ⟨⟨freshHeap_call, trivial⟩, ⟨⟨freshHeap_held, by decide⟩, Or.inr freshHeap_takes⟩, trivial⟩

/-! ### A block that is taken whole -/

/-- A heap of one block of 40 bytes, made in blank memory. -/
def oneBlock : TlsfState := tlsfStep ⟨fun _ => 0, fun _ => none⟩ (.create 4096 3392)

theorem oneBlock_represents : ∃ h : TlsfHeap, h.t = 4096 ∧ h.blocks = [] ++ (⟨7424, 40, true⟩ :: [⟨7472, 0, false⟩]) ∧ Represents oneBlock.mem h ∧
    ∀ y, 7488 ≤ y → oneBlock.mem y = 0 := by
  obtain ⟨-, ⟨h, ht, hblocks, hrep⟩, hframe⟩ :=
    @tlsfCreate_refines (fun _ => 0) 4096 3392 (by decide) (by decide) (by decide) (by decide) (by decide)
  exact ⟨h, ht, hblocks, hrep, fun y hy => hframe y (Or.inr hy)⟩

theorem oneBlock_found : findSuitable oneBlock.mem 4096 40 = 7424 := by
  obtain ⟨h, ht, hblocks, hrep, -⟩ := oneBlock_represents
  have hfound : findSuitable oneBlock.mem h.t 40 ≠ 0 :=
    hrep.findSuitable_ne_zero (by decide) (b := ⟨7424, 40, true⟩) (by simp [hblocks]) rfl (Or.inr (by decide))
  obtain ⟨b, hb, hfree, haddr, -⟩ := hrep.findSuitable_block (by decide) hfound
  rw [hblocks] at hb
  simp only [List.nil_append, List.mem_cons, List.not_mem_nil, or_false] at hb
  rcases hb with rfl | rfl
  · rw [ht] at haddr
    exact haddr.symm
  · simp at hfree

/-- A free block of 2^32 - 8 bytes is filed behind the tables. The stores go to its links, to the two bitmaps and to an entry past `free_lists`. -/
theorem insertBlock_past_tables {a y : Nat} (hsize : blockSize m a = 2 ^ 32 - 8) (hslot : ∀ z, t + 4088 ≤ z → z < t + 4096 → m z = 0)
    (hapart : a + 24 ≤ t + 4088) (ha : y < a + 8 ∨ a + 24 ≤ y) (hfl : y < t + 3200 ∨ t + 3204 ≤ y) (hsl : y < t + 3328 ∨ t + 3332 ≤ y)
    (hlist : y < t + 4088 ∨ t + 4096 ≤ y) : insertBlock t a m y = m y := by
  have hclass : mappingInsert (blockSize m a) = (31, 15) := by
    rw [hsize]
    decide
  have hempty : (((m.store (a + 16) 8 (m.load (t + 4088) 8)).store (a + 8) 8 0).load (t + 4088) 8) = 0 := by
    rw [Memory.load_store_of_disjoint _ (by omega), Memory.load_store_of_disjoint _ (by omega)]
    exact Memory.load_eq_zero hslot
  rw [insertBlock, hclass]
  dsimp only
  rw [show freeListAt t 31 15 = t + 4088 from rfl, linkFront, hempty, if_neg (by simp), flSlSet, show slBitmapAt t 31 = t + 3328 from rfl,
    flBitmapAt]
  rw [Memory.store_apply_of_outside _ (by omega), Memory.store_apply_of_outside _ (by omega), Memory.store_apply_of_outside _ (by omega),
    Memory.store_apply_of_outside _ (by omega), Memory.store_apply_of_outside _ (by omega)]

/-- After 40 bytes are taken from the block of 40 bytes, the sentinel has a size. -/
theorem oneBlock_taken : blockSize (tlsfStep oneBlock (.malloc 4096 40)).mem 7472 = 2 ^ 32 - 8 := by
  obtain ⟨h, ht, hblocks, hrep, hzero⟩ := oneBlock_represents
  have hlayout := h.layout
  rw [hblocks, ht] at hlayout
  obtain ⟨⟨lists', hused⟩, hframe⟩ := hrep.takeUsed hblocks rfl
  have hrun : (tlsfStep oneBlock (.malloc 4096 40)).mem = (takeBlock 4096 7424 40 oneBlock.mem).2 := by
    rw [tlsfStep]
    dsimp only
    rw [tlsfMalloc_of_found (by decide) (by decide) (by rw [show wrap32 (requestSize 40) = 40 by decide, oneBlock_found]; decide),
      show wrap32 (requestSize 40) = 40 by decide, oneBlock_found]
  rw [ht] at hused hframe
  have houtside : ∀ y, 7488 ≤ y → blockSetFree 7424 false (removeBlock 4096 7424 oneBlock.mem) y = 0 := by
    intro y hy
    refine (hframe y ?_).trans (hzero y hy)
    rintro (hcontrol | ⟨c, hc, -, hhi⟩)
    · simp only [controlSize] at hcontrol
      omega
    · simp only [List.nil_append, List.mem_cons, List.not_mem_nil, or_false] at hc
      rcases hc with rfl | rfl
      · simp [TlsfBlock.fin, hdrSize] at hhi
        omega
      · simp [hdrSize] at hhi
        omega
  -- `remain` wraps around, and the header of the rest lands on the sentinel
  have hremain : splitRemain 40 40 = 2 ^ 32 - 8 := by decide
  obtain ⟨hfst, -, hrest, hkeep⟩ := @splitBlock_rest _ 40 _ _ _ _ hused.header (by decide) (by decide) (by rw [hremain]; decide)
  dsimp only [hdrSize] at hfst hrest hkeep
  rw [hrun, takeBlock]
  dsimp only
  rw [hfst, if_pos (by decide)]
  rw [hremain] at hrest
  generalize blockSetFree 7424 false (removeBlock 4096 7424 oneBlock.mem) = m₁ at *
  generalize (splitBlock 7424 40 m₁).2 = m₂ at *
  obtain ⟨hclosed, hsame⟩ := (hrest.setFree (f := true)).closeRest (by decide)
  refine (hclosed.congr fun y hlo hhi => insertBlock_past_tables hclosed.size (fun z hzlo hzhi => ?_) (by decide) ?_ ?_ ?_ ?_).size
  · rw [hsame z (by omega), blockSetFree, Memory.store_apply_of_outside _ (by omega), hkeep z (by omega) (by omega)]
    exact houtside z (by omega)
  all_goals omega

theorem oneBlock_held : oneBlock.held 4096 = some ⟨[(4096, 3392)], [(7424, 7472)], []⟩ := by
  have hptr : (tlsfCreate 4096 3392 fun _ => 0).1 = 4096 := rfl
  rw [oneBlock, tlsfStep]
  dsimp only
  rw [hptr, if_neg (by decide), Function.update_self, show poolEnds (4096 + controlSize) (3392 - controlSize) = (7424, 7472) by decide]

theorem tlsfStep_malloc_pools {s : TlsfState} {k : Held} (hk : s.held t = some k) :
    ∃ k', (tlsfStep s (.malloc t n)).held t = some k' ∧ k'.pools = k.pools := by
  rw [tlsfStep]
  dsimp only
  split
  · exact ⟨k, hk, rfl⟩
  · rw [Function.update_self, hk]
    exact ⟨_, rfl, rfl⟩

theorem WellFormed.sentinel {pool : Nat × Nat} {pools : List (Nat × Nat)} (hwf : WellFormed m t (pool :: pools)) : blockSize m pool.2 = 0 := by
  obtain ⟨walks, lists, hheap⟩ := hwf
  obtain ⟨walk, rest, hpool, -, rfl⟩ := List.forall₂_cons_left_iff.mp hheap.pools
  exact hpool.walk.sentinel.1

/-- A block that is exactly as large as the request leaves its heap without a sentinel. -/
theorem tlsf_heaps_broken_by_exact_fit :
    ¬∀ (m : Memory) (ops : List TlsfOp), Lib.Allowed CallOk tlsfStep ⟨m, fun _ => none⟩ ops →
      Lib.Along HeapsWellFormed tlsfStep ⟨m, fun _ => none⟩ ops := by
  intro hall
  have hcalls : Lib.Allowed CallOk tlsfStep ⟨fun _ => 0, fun _ => none⟩ [.create 4096 3392, .malloc 4096 40] := by
    refine ⟨⟨by decide, by decide, by simp⟩, ⟨?_, by decide⟩, trivial⟩
    rw [show tlsfStep _ _ = oneBlock from rfl, oneBlock_held]
    simp
  obtain ⟨k, hk, hpools⟩ := tlsfStep_malloc_pools (n := 40) oneBlock_held
  have hwf : WellFormed _ 4096 k.pools := (hall _ _ hcalls).2.2 4096 k hk
  rw [hpools] at hwf
  exact absurd (oneBlock_taken.symm.trans hwf.sentinel) (by decide)

end Tsukasa
