import Tsukasa.Mm.TlsfHeap
import Mathlib.Data.List.Forall2

/-!
# Well-formedness as a walk through memory

What a heap in memory must satisfy, in terms of the allocator's own functions: the walk along `block_phys_next` through each pool, the flags and footers along it, the lists and the bitmaps. A memory that represents a heap satisfies all of it.
-/

namespace Tsukasa

open Lib (Memory)
open Lib.Linked (IsDList)

variable {m : Memory} {t first last : Nat} {h : TlsfHeap} {blocks : List TlsfBlock} {b c : TlsfBlock} {prev : Bool} {walk : List Nat}

/-- Following `block_phys_next` from `first` visits the blocks of `walk`, none of them a sentinel, and comes to `last`. -/
def Walk (m : Memory) : Nat → List Nat → Nat → Prop
  | first, [], last => first = last
  | first, a :: walk, last => a = first ∧ blockSize m a ≠ 0 ∧ Walk m (blockPhysNext m a) walk last

/-- The walk through a pool from its first block to its sentinel. -/
structure PoolWalk (m : Memory) (first last : Nat) (walk : List Nat) : Prop where
  tiles : Walk m first walk last
  sentinel : blockSize m last = 0 ∧ blockIsFree m last = false
  separate : (walk ++ [last]).IsChain fun a b => blockIsFree m a = true → blockIsFree m b = false
  prevFree : (walk ++ [last]).IsChain fun a b => blockPrevFree m b = blockIsFree m a ∧ (blockPrevFree m b = true → blockPhysPrev m b = a)

/-- A pool whose first block has no block before it. -/
structure PoolWf (m : Memory) (pool : Nat × Nat) (walk : List Nat) : Prop where
  walk : PoolWalk m pool.1 pool.2 walk
  first : blockPrevFree m pool.1 = false

/-- The control structure and the pools, with the walk through each of them and the blocks on each list. -/
structure HeapWf (m : Memory) (t : Nat) (pools : List (Nat × Nat)) (walks : List (List Nat)) (lists : Nat → Nat → List Nat) : Prop where
  pools : List.Forall₂ (PoolWf m) pools walks
  apart : walks.flatten.Pairwise fun a b => blockPhysNext m a ≤ b ∨ blockPhysNext m b ≤ a
  linked : ∀ fl sl, fl < flIndexCount → sl < slIndexCount →
    IsDList (nextLinks m) (prevLinks m) (linkTo (m.load (freeListAt t fl sl) 8)) (lists fl sl).getLast? (lists fl sl)
  filed : ∀ fl sl a, fl < flIndexCount → sl < slIndexCount →
    (a ∈ lists fl sl ↔ a ∈ walks.flatten ∧ blockIsFree m a = true ∧ mappingInsert (blockSize m a) = (fl, sl))
  classes : ∀ a ∈ walks.flatten, blockIsFree m a = true →
    (mappingInsert (blockSize m a)).1 < flIndexCount ∧ (mappingInsert (blockSize m a)).2 < slIndexCount
  slBit : ∀ fl sl, fl < flIndexCount → sl < slIndexCount →
    ((bitsAt m (slBitmapAt t fl)).getLsbD sl = true ↔ m.load (freeListAt t fl sl) 8 ≠ 0)
  flBit : ∀ fl, fl < flIndexCount → ((bitsAt m (flBitmapAt t)).getLsbD fl = true ↔ bitsAt m (slBitmapAt t fl) ≠ 0)

def WellFormed (m : Memory) (t : Nat) (pools : List (Nat × Nat)) : Prop := ∃ walks lists, HeapWf m t pools walks lists

/-! ### The walk through the blocks of a heap -/

theorem Tagged.head (h : Tagged m prev (b :: blocks)) : Header m b.addr b.size b.free prev := h.1

/-- What one block adds in front of a walk. -/
theorem PoolWalk.cons (hwalk : PoolWalk m c.addr last walk) (htags : Tagged m prev (b :: c :: blocks)) (hb : b.size ≠ 0)
    (hnext : c.addr = b.fin) (hseparate : b.free = true → c.free = false) : PoolWalk m b.addr last (b.addr :: walk) := by
  obtain ⟨hheader, hfooter, hheader', -⟩ := htags
  have hphys : blockPhysNext m b.addr = c.addr := by
    rw [blockPhysNext, hheader.size, hnext, TlsfBlock.fin]
  have hhead : ∀ a ∈ (walk ++ [last]).head?, a = c.addr := by
    intro a ha
    have htiles := hwalk.tiles
    cases walk with
    | nil =>
        rw [List.nil_append, List.head?_cons, Option.mem_some] at ha
        exact ha.symm.trans htiles.symm
    | cons d walk =>
        rw [List.cons_append, List.head?_cons, Option.mem_some] at ha
        exact ha.symm.trans htiles.1
  refine ⟨⟨rfl, ?_, ?_⟩, hwalk.sentinel, ?_, ?_⟩
  · rwa [hheader.size]
  · rw [hphys]
    exact hwalk.tiles
  · rw [List.cons_append, List.isChain_cons]
    refine ⟨fun a ha hfree => ?_, hwalk.separate⟩
    rw [hhead a ha, hheader'.isFree]
    exact hseparate (hheader.isFree ▸ hfree)
  · rw [List.cons_append, List.isChain_cons]
    refine ⟨fun a ha => ?_, hwalk.prevFree⟩
    rw [hhead a ha, hheader'.prevFree, hheader.isFree]
    refine ⟨rfl, fun hfree => ?_⟩
    have hfoot := hfooter hfree
    rw [blockFooter, hheader.size] at hfoot
    rwa [blockPhysPrev, hnext, TlsfBlock.fin]

/-- The addresses of the blocks that are no sentinels. -/
def blockAddrs (blocks : List TlsfBlock) : List Nat := (blocks.filter fun b => b.size != 0).map TlsfBlock.addr

theorem blockAddrs_sentinel (hb : b.size = 0) : blockAddrs (b :: blocks) = blockAddrs blocks := by simp [blockAddrs, hb]

theorem blockAddrs_block (hb : b.size ≠ 0) : blockAddrs (b :: blocks) = b.addr :: blockAddrs blocks := by simp [blockAddrs, hb]

theorem exists_walks (htags : Tagged m prev (b :: blocks)) (hnext : (b :: blocks).IsChain TlsfBlock.Next)
    (hseparate : (b :: blocks).IsChain TlsfBlock.NotBothFree) (hlast : ∀ c ∈ (b :: blocks).getLast?, c.size = 0)
    (hsizes : ∀ c ∈ b :: blocks, c.size = 0 → c.free = false) :
    ∃ last walk pools walks, (∀ first, poolsFrom first (b :: blocks) = (first.getD b.addr, last) :: pools) ∧ PoolWalk m b.addr last walk ∧
      List.Forall₂ (PoolWf m) pools walks ∧ (walk :: walks).flatten = blockAddrs (b :: blocks) := by
  induction blocks generalizing b prev with
  | nil =>
      have hb := hlast b rfl
      have hused := hsizes b List.mem_cons_self hb
      refine ⟨b.addr, [], [], [], fun first => by rw [poolsFrom_sentinel _ hb]; rfl,
        ⟨rfl, ⟨htags.head.size.trans hb, htags.head.isFree.trans hused⟩, List.isChain_singleton _, List.isChain_singleton _⟩, .nil, ?_⟩
      rw [blockAddrs_sentinel hb]
      rfl
  | cons c blocks ih =>
      rw [List.isChain_cons_cons] at hnext hseparate
      rw [List.getLast?_cons_cons] at hlast
      obtain ⟨last, walk, pools, walks, hpools, hwalk, hrest, haddrs⟩ :=
        ih htags.2.2 hnext.2 hseparate.2 hlast fun d hd => hsizes d (List.mem_cons_of_mem _ hd)
      by_cases hb : b.size = 0
      · have hused := hsizes b List.mem_cons_self hb
        have hflag := htags.2.2.head.prevFree
        rw [hused] at hflag
        refine ⟨b.addr, [], (c.addr, last) :: pools, walk :: walks, fun first => ?_,
          ⟨rfl, ⟨htags.head.size.trans hb, htags.head.isFree.trans hused⟩, List.isChain_singleton _, List.isChain_singleton _⟩,
          .cons ⟨hwalk, hflag⟩ hrest, ?_⟩
        · rw [poolsFrom_sentinel _ hb, hpools none]
          rfl
        · rw [List.flatten_cons, List.nil_append, haddrs, blockAddrs_sentinel hb]
      · refine ⟨last, b.addr :: walk, pools, walks, fun first => ?_, hwalk.cons htags hb (hnext.1 hb) hseparate.1, hrest, ?_⟩
        · rw [poolsFrom_block _ hb, hpools (some _)]
          rfl
        · rw [List.flatten_cons, List.cons_append, ← List.flatten_cons, haddrs, blockAddrs_block hb]

theorem mem_blockAddrs {a : Nat} : a ∈ blockAddrs blocks ↔ ∃ b ∈ blocks, b.size ≠ 0 ∧ b.addr = a := by
  simp only [blockAddrs, List.mem_map, List.mem_filter, bne_iff_ne, and_assoc]

/-- A memory that represents a heap is well-formed. -/
theorem Represents.wellFormed (hrep : Represents m h) : WellFormed m h.t (poolsFrom none h.blocks) := by
  have hsizes : ∀ c ∈ h.blocks, c.size = 0 → c.free = false := by
    intro c hc hzero
    rcases h.layout.sizes c hc with ⟨-, hused⟩ | ⟨hmin, -⟩
    · exact hused
    · rw [blockMin] at hmin
      omega
  have hwalks : ∃ walks, List.Forall₂ (PoolWf m) (poolsFrom none h.blocks) walks ∧ walks.flatten = blockAddrs h.blocks := by
    have htags := hrep.tagged
    have hnext := h.layout.next
    have hlast := h.layout.last
    have hseparate := h.separate
    cases hblocks : h.blocks with
    | nil => exact ⟨[], .nil, rfl⟩
    | cons b blocks =>
        rw [hblocks] at htags hnext hlast hseparate hsizes
        obtain ⟨last, walk, pools, walks, hpools, hwalk, hrest, haddrs⟩ := exists_walks htags hnext hseparate hlast hsizes
        refine ⟨walk :: walks, ?_, haddrs⟩
        rw [hpools none]
        exact .cons ⟨hwalk, htags.head.prevFree⟩ hrest
  obtain ⟨walks, hpools, hflatten⟩ := hwalks
  have hmem : ∀ a, a ∈ walks.flatten ∧ blockIsFree m a = true ↔ ∃ b ∈ h.blocks, b.free = true ∧ b.addr = a := by
    intro a
    rw [hflatten, mem_blockAddrs]
    constructor
    · rintro ⟨⟨b, hb, -, rfl⟩, hfree⟩
      exact ⟨b, hb, (hrep.tagged.header hb).2 ▸ hfree, rfl⟩
    · rintro ⟨b, hb, hfree, rfl⟩
      refine ⟨⟨b, hb, fun hzero => ?_, rfl⟩, (hrep.tagged.header hb).2.trans hfree⟩
      rw [hsizes b hb hzero] at hfree
      simp at hfree
  have hfiled : ∀ fl sl a, a ∈ h.lists fl sl ↔ a ∈ walks.flatten ∧ blockIsFree m a = true ∧ mappingInsert (blockSize m a) = (fl, sl) := by
    intro fl sl a
    rw [h.filed fl sl a, ← and_assoc, hmem a]
    constructor
    · rintro ⟨b, hb, hfree, rfl, hclass⟩
      exact ⟨⟨b, hb, hfree, rfl⟩, by rwa [(hrep.tagged.header hb).1]⟩
    · rintro ⟨⟨b, hb, hfree, rfl⟩, hclass⟩
      exact ⟨b, hb, hfree, rfl, by rwa [(hrep.tagged.header hb).1] at hclass⟩
  refine ⟨walks, h.lists, hpools, ?_, hrep.indexed.linked, fun fl sl a _ _ => hfiled fl sl a, fun a ha hfree => ?_, fun fl sl hfl hsl => ?_,
    fun fl hfl => ?_⟩
  · rw [hflatten, blockAddrs, List.pairwise_map]
    refine (h.layout.apart.filter _).imp_of_mem fun {b c} hb hc hapart => ?_
    rw [blockPhysNext, blockPhysNext, (hrep.tagged.header (List.mem_filter.mp hb).1).1, (hrep.tagged.header (List.mem_filter.mp hc).1).1]
    exact hapart
  · exact hrep.indexed.range _ _ (List.ne_nil_of_mem ((hfiled _ _ a).mpr ⟨ha, hfree, rfl⟩))
  · have hhead := (hrep.indexed.linked fl sl hfl hsl).head_eq
    rw [hrep.indexed.slBit fl sl hfl, ne_eq, ne_eq, ← linkTo_eq_none, hhead, List.head?_eq_none_iff]
  · rw [hrep.indexed.flBit fl]
    constructor
    · rintro ⟨sl, hsl⟩ hzero
      rw [← hrep.indexed.slBit fl sl hfl, hzero] at hsl
      simp at hsl
    · intro hne
      obtain ⟨sl, hsl⟩ := exists_bit hne
      exact ⟨sl, (hrep.indexed.slBit fl sl hfl).mp hsl⟩

end Tsukasa
