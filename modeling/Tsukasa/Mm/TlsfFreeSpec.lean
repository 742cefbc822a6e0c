import Tsukasa.Mm.TlsfFree

/-!
# What freeing does to a heap

The freed block and its free neighbours become one block, and everything else stays: the pools, the other blocks and the payloads of those in use. The joined block has a list only when it is smaller than the table allows, and it is then that the heap is well-formed again.
-/

namespace Tsukasa

open Lib (Memory)

variable {m : Memory} {t : Nat} {h : TlsfHeap} {before after blocks : List TlsfBlock} {b c x : TlsfBlock}

/-- The size of the free block in front with its header, 0 when there is none. -/
def prevSize (before : List TlsfBlock) : Nat :=
  match before.getLast? with
  | some c => if c.free then c.size + hdrSize else 0
  | none => 0

/-- The size of the free block behind with its header, 0 when there is none. -/
def nextSize : List TlsfBlock → Nat
  | c :: _ => if c.free then hdrSize + c.size else 0
  | [] => 0

def nextFree : List TlsfBlock → Bool
  | c :: _ => c.free
  | [] => false

/-- The block that `b` becomes together with its free neighbours. -/
def mergedBlock (before : List TlsfBlock) (b : TlsfBlock) (after : List TlsfBlock) : TlsfBlock :=
  ⟨b.addr - prevSize before, prevSize before + b.size + nextSize after, true⟩

def merges (before after : List TlsfBlock) : Nat := (lastFree false before).toNat + (nextFree after).toNat

def freeBytes (blocks : List TlsfBlock) : Nat := (blocks.map fun b => if b.free then b.size else 0).sum

/-- What the heap `h'` in `m'` is, compared with the heap `h` in `m` whose block `b` was freed. -/
structure Freed (m m' : Memory) (h : TlsfHeap) (before : List TlsfBlock) (b : TlsfBlock) (after : List TlsfBlock) (h' : TlsfHeap) : Prop where
  represents : Represents m' h'
  control : h'.t = h.t
  pools : poolsFrom none h'.blocks = poolsFrom none h.blocks
  merged : mergedBlock before b after ∈ h'.blocks
  others : ∀ c ∈ h'.blocks, c = mergedBlock before b after ∨ c ∈ h.blocks
  used : ∀ c ∈ h.blocks, c.free = false → c ≠ b → c ∈ h'.blocks ∧ ∀ y, c.addr + hdrSize ≤ y → y < c.fin → m' y = m y
  total : freeBytes h'.blocks = freeBytes h.blocks + b.size + hdrSize * merges before after

theorem freeBytes_append : freeBytes (before ++ after) = freeBytes before + freeBytes after := by
  simp only [freeBytes, List.map_append, List.sum_append]

theorem freeBytes_cons : freeBytes (b :: blocks) = (if b.free then b.size else 0) + freeBytes blocks := rfl

theorem Layout.payload_not_owned (hl : Layout t blocks) (hc : c ∈ blocks) (hused : c.free = false) {y : Nat} (hlo : c.addr + hdrSize ≤ y)
    (hhi : y < c.fin) : ¬Owned t blocks y := by
  have hroom := (hl.room c hc).2.2
  rintro (hcontrol | ⟨d, hd, hlo', hhi'⟩)
  · omega
  · have hdfin : y < d.fin := by
      simp only [TlsfBlock.fin] at hhi' ⊢
      omega
    rcases eq_or_ne c d with rfl | hne
    · rw [hused] at hhi'
      simp at hhi'
      omega
    · have hapart := hl.apart_of_ne hc hd hne
      omega

/-! ### The joins -/

section Joins

variable (hl : Layout t (before ++ (x :: after))) (hfree : x.free = true)

include hl hfree

theorem joinPrev_block :
    (joinPrev before x).2 = ⟨x.addr - prevSize before, prevSize before + x.size, true⟩ ∧
      (∀ c ∈ before, c.free = false → c ∈ (joinPrev before x).1) ∧ (∀ c ∈ (joinPrev before x).1, c ∈ before) ∧
      poolsFrom none ((joinPrev before x).1 ++ ((joinPrev before x).2 :: after)) = poolsFrom none (before ++ (x :: after)) ∧
      freeBytes (joinPrev before x).1 + prevSize before = freeBytes before + hdrSize * (lastFree false before).toNat := by
  rcases before.eq_nil_or_concat' with rfl | ⟨before, c, rfl⟩
  · simp only [joinPrev_nil, prevSize, List.getLast?_nil, Nat.sub_zero, Nat.zero_add, lastFree]
    refine ⟨?_, fun c hc _ => hc, fun c hc => hc, trivial, rfl⟩
    rw [← hfree]
  · have hx : x ∈ before ++ [c] ++ (x :: after) := by simp
    have hxmin := hl.blockMin_le_of_free hx hfree
    simp only [joinPrev_append_singleton, prevSize, List.getLast?_concat, lastFree_append_singleton]
    by_cases hc : c.free = true
    · have hcmin := hl.blockMin_le_of_free (b := c) (by simp) hc
      simp only [blockMin] at hxmin hcmin
      have hnext : x.addr = c.fin := by
        have hchain := hl.next
        rw [List.append_assoc, List.singleton_append, List.isChain_append, List.isChain_cons_cons] at hchain
        exact hchain.2.1.1 (by omega)
      have haddr : x.addr - (c.size + hdrSize) = c.addr := by
        rw [hnext, TlsfBlock.fin]
        omega
      simp only [hc, if_true, haddr, freeBytes_append, freeBytes_cons]
      refine ⟨trivial, fun d hd hdused => ?_, fun d hd => List.mem_append_left _ hd, ?_, ?_⟩
      · rcases List.mem_append.mp hd with hd | hd
        · exact hd
        · rw [List.mem_singleton.mp hd, hc] at hdused
          simp at hdused
      · rw [List.append_assoc, List.singleton_append]
        exact poolsFrom_merge none (by omega) (by omega) (by omega) true
      · simp [freeBytes]
        omega
    · rw [Bool.not_eq_true] at hc
      simp only [hc, Bool.false_eq_true, if_false, Nat.sub_zero, Nat.zero_add]
      refine ⟨?_, fun d hd _ => hd, fun d hd => hd, trivial, rfl⟩
      rw [← hfree]

theorem joinPrev_layout : Layout t ((joinPrev before x).1 ++ ((joinPrev before x).2 :: after)) := by
  rcases before.eq_nil_or_concat' with rfl | ⟨before, c, rfl⟩
  · exact hl
  · rw [joinPrev_append_singleton]
    split
    · next hc =>
        have hxmin := hl.blockMin_le_of_free (b := x) (by simp) hfree
        have hcmin := hl.blockMin_le_of_free (b := c) (by simp) hc
        rw [blockMin] at hxmin hcmin
        rw [List.append_assoc, List.singleton_append] at hl
        exact hl.merge (by omega) (by omega) true
    · exact hl

theorem joinNext_layout : Layout t (before ++ ((joinNext x after).1 :: (joinNext x after).2)) := by
  have hxmin := hl.blockMin_le_of_free (b := x) (by simp) hfree
  rw [blockMin] at hxmin
  obtain ⟨n, rest, rfl, -⟩ := hl.next_block (by omega)
  rw [joinNext]
  split
  · next hn =>
      have hnmin := hl.blockMin_le_of_free (b := n) (by simp) hn
      rw [blockMin] at hnmin
      exact hl.merge (by omega) (by omega) true
  · exact hl

theorem joinNext_block :
    (joinNext x after).1 = ⟨x.addr, x.size + nextSize after, true⟩ ∧
      (∀ c ∈ after, c.free = false → c ∈ (joinNext x after).2) ∧ (∀ c ∈ (joinNext x after).2, c ∈ after) ∧
      poolsFrom none (before ++ ((joinNext x after).1 :: (joinNext x after).2)) = poolsFrom none (before ++ (x :: after)) ∧
      freeBytes (joinNext x after).2 + nextSize after = freeBytes after + hdrSize * (nextFree after).toNat := by
  have hx : x ∈ before ++ (x :: after) := by simp
  have hxmin := hl.blockMin_le_of_free hx hfree
  simp only [blockMin] at hxmin
  obtain ⟨n, rest, rfl, hnext⟩ := hl.next_block (by omega)
  simp only [joinNext, nextSize, nextFree]
  by_cases hn : n.free = true
  · have hnmin := hl.blockMin_le_of_free (b := n) (by simp) hn
    simp only [blockMin] at hnmin
    simp only [hn, if_true, freeBytes_cons]
    refine ⟨by rw [Nat.add_assoc], fun d hd hdused => ?_, fun d hd => List.mem_cons_of_mem _ hd, ?_, ?_⟩
    · rcases List.mem_cons.mp hd with rfl | hd
      · rw [hn] at hdused
        simp at hdused
      · exact hd
    · exact poolsFrom_merge none (by omega) (by omega) (by omega) true
    · simp only [Bool.toNat_true]
      omega
  · rw [Bool.not_eq_true] at hn
    simp only [hn, Bool.false_eq_true, if_false, Nat.add_zero]
    refine ⟨?_, fun d hd _ => hd, fun d hd => hd, trivial, rfl⟩
    rw [← hfree]

end Joins

/-! ### Freeing -/

theorem freed_spec (hl : Layout t (before ++ (b :: after))) (hused : b.free = false) (hne : b.size ≠ 0) :
    (freed before b after).2.1 = mergedBlock before b after ∧
      poolsFrom none (freedBlocks before b after) = poolsFrom none (before ++ (b :: after)) ∧
      (∀ c ∈ freedBlocks before b after, c = mergedBlock before b after ∨ c ∈ before ++ after) ∧
      (∀ c ∈ before ++ after, c.free = false → c ∈ freedBlocks before b after) ∧
      freeBytes (freedBlocks before b after) = freeBytes (before ++ (b :: after)) + b.size + hdrSize * merges before after := by
  have hl' := hl.setFree hne true
  obtain ⟨hblock, hkeep, hsub, hpools, hbytes⟩ := joinPrev_block hl' rfl
  obtain ⟨hblock', hkeep', hsub', hpools', hbytes'⟩ := joinNext_block (joinPrev_layout hl' rfl) (by rw [hblock])
  have hmerged : (freed before b after).2.1 = mergedBlock before b after := by
    show (joinNext (joinPrev before { b with free := true }).2 after).1 = _
    rw [hblock', hblock]
    rfl
  refine ⟨hmerged, ?_, fun c hc => ?_, fun c hc hcused => ?_, ?_⟩
  · exact hpools'.trans (hpools.trans (poolsFrom_setFree none true))
  · simp only [freedBlocks, List.mem_append, List.mem_cons] at hc ⊢
    rcases hc with hc | hc | hc
    · exact Or.inr (Or.inl (hsub c hc))
    · exact Or.inl (hc.trans hmerged)
    · exact Or.inr (Or.inr (hsub' c hc))
  · simp only [freedBlocks, List.mem_append, List.mem_cons] at hc ⊢
    rcases hc with hc | hc
    · exact Or.inl (hkeep c hc hcused)
    · exact Or.inr (Or.inr (hkeep' c hc hcused))
  · have hfree : (mergedBlock before b after).free = true := rfl
    have hsize : (mergedBlock before b after).size = prevSize before + b.size + nextSize after := rfl
    have hleft : freeBytes (freed before b after).1 + prevSize before = freeBytes before + hdrSize * (lastFree false before).toNat := hbytes
    have hright : freeBytes (freed before b after).2.2 + nextSize after = freeBytes after + hdrSize * (nextFree after).toNat := hbytes'
    rw [freedBlocks, hmerged, freeBytes_append, freeBytes_append, freeBytes_cons, freeBytes_cons, hfree, hused, hsize, if_pos rfl, merges,
      Nat.mul_add]
    simp only [Bool.false_eq_true, if_false]
    omega

/-- The joined block lies in one pool, so it is no larger than the pool. -/
theorem mergedBlock_in_pool (hl : Layout t (before ++ (b :: after))) (hused : b.free = false) (hne : b.size ≠ 0) :
    ∃ pool ∈ poolsFrom none (before ++ (b :: after)),
      pool.1 ≤ (mergedBlock before b after).addr ∧ (mergedBlock before b after).fin ≤ pool.2 := by
  have hl' := hl.setFree hne true
  have hblock := (joinPrev_block hl' rfl).1
  have hlayout := joinNext_layout (joinPrev_layout hl' rfl) (by rw [hblock])
  obtain ⟨hmerged, hpools, -⟩ := freed_spec hl hused hne
  rw [← hpools]
  refine exists_pool hlayout.next hlayout.last (by simp) ?_ ?_
  · rw [← hmerged]
    exact List.mem_append_right _ List.mem_cons_self
  · simp only [mergedBlock]
    omega

/-- No block of a pool smaller than 32 MiB is too large for the lists. -/
theorem mergedBlock_small (hl : Layout t (before ++ (b :: after))) (hused : b.free = false) (hne : b.size ≠ 0)
    (hpools : ∀ pool ∈ poolsFrom none (before ++ (b :: after)), pool.2 < pool.1 + 2 ^ 25) : (mergedBlock before b after).size < 2 ^ 25 := by
  obtain ⟨pool, hpool, hfirst, hlast⟩ := mergedBlock_in_pool hl hused hne
  have hbound := hpools pool hpool
  rw [TlsfBlock.fin] at hlast
  omega

/-- A freed block leaves a heap as it should be, as long as the joined block is smaller than the largest size that has a list. -/
theorem tlsfFree_freed (hrep : Represents m h) (hblocks : h.blocks = before ++ (b :: after)) (hused : b.free = false) (hne : b.size ≠ 0)
    (hsize : (mergedBlock before b after).size < 2 ^ 25) : ∃ h', Freed m (tlsfFree h.t (blockToPtr b.addr) m) h before b after h' := by
  have hl := h.layout
  rw [hblocks] at hl
  obtain ⟨hmerged, hpools, hothers, hkeep, htotal⟩ := freed_spec hl hused hne
  obtain ⟨⟨h', ht, hblocks', hrep'⟩, hframe⟩ := tlsfFree_refines hrep hblocks hused hne (by rw [hmerged]; exact hsize)
  refine ⟨h', hrep', ht, ?_, ?_, fun c hc => ?_, fun c hc hcused hcb => ?_, ?_⟩
  · rw [hblocks', hblocks, hpools]
  · rw [hblocks', freedBlocks, hmerged]
    simp
  · rw [hblocks'] at hc
    rw [hblocks]
    exact (hothers c hc).imp_right mem_middle
  · have hc' : c ∈ before ++ after := by
      rw [hblocks] at hc
      simp only [List.mem_append, List.mem_cons] at hc ⊢
      rcases hc with hc | hc | hc
      · exact Or.inl hc
      · exact absurd hc hcb
      · exact Or.inr hc
    have hmem := hkeep c hc' hcused
    refine ⟨hblocks' ▸ hmem, fun y hlo hhi => hframe y ?_⟩
    have hlayout := h'.layout
    rw [hblocks', ht] at hlayout
    exact hlayout.payload_not_owned hmem hcused hlo hhi
  · rw [hblocks', hblocks, htotal]

/-- Freeing a block gives the heap it should give exactly when the joined block stays below the largest size that has a list. -/
theorem tlsf_free_correct (hrep : Represents m h) (hblocks : h.blocks = before ++ (b :: after)) (hused : b.free = false) (hne : b.size ≠ 0) :
    (∃ h', Freed m (tlsfFree h.t (blockToPtr b.addr) m) h before b after h') ↔ prevSize before + b.size + nextSize after < 2 ^ 25 := by
  constructor
  · rintro ⟨h', hfreed⟩
    exact h'.small _ hfreed.merged
  · exact fun hsize => tlsfFree_freed hrep hblocks hused hne hsize

/-! ### Heaps whose blocks are all in use -/

/-- Headers of used blocks, written into a blank memory. -/
def usedHeaders : List TlsfBlock → Memory
  | [] => fun _ => 0
  | b :: blocks => (usedHeaders blocks).store b.addr 4 b.size

theorem usedHeaders_apply {y : Nat} (hy : ∀ b ∈ blocks, y < b.addr ∨ b.addr + 4 ≤ y) : usedHeaders blocks y = 0 := by
  induction blocks with
  | nil => rfl
  | cons b blocks ih =>
      rw [usedHeaders, Memory.store_apply_of_outside _ (hy b List.mem_cons_self)]
      exact ih fun c hc => hy c (List.mem_cons_of_mem _ hc)

theorem usedHeaders_tagged (hapart : blocks.Pairwise TlsfBlock.Apart) (hsmall : ∀ b ∈ blocks, b.size < 2 ^ 25)
    (hmod : ∀ b ∈ blocks, b.size % 4 = 0) (hused : ∀ b ∈ blocks, b.free = false) : Tagged (usedHeaders blocks) false blocks := by
  induction blocks with
  | nil => trivial
  | cons b blocks ih =>
      rw [List.pairwise_cons] at hapart
      have hb := hused b List.mem_cons_self
      have hbsmall := hsmall b List.mem_cons_self
      have hrest := ih hapart.2 (fun c hc => hsmall c (List.mem_cons_of_mem _ hc)) (fun c hc => hmod c (List.mem_cons_of_mem _ hc))
        fun c hc => hused c (List.mem_cons_of_mem _ hc)
      refine ⟨?_, fun hfree => ?_, ?_⟩
      · rw [hb]
        exact Header.store (by omega) (hmod b List.mem_cons_self) _ rfl
      · rw [hb] at hfree
        simp at hfree
      · rw [hb]
        refine hrest.congr (fun c hc y hlo hhi => Memory.store_apply_of_outside _ ?_) fun c hc hfree => ?_
        · have hbc := hapart.1 c hc
          simp only [TlsfBlock.Apart, TlsfBlock.fin, hdrSize] at hbc
          omega
        · rw [hused c (List.mem_cons_of_mem _ hc)] at hfree
          simp at hfree

/-- Every layout of used blocks is the layout of a heap in some memory. -/
theorem exists_used_heap (hpos : t ≠ 0) (hl : Layout t blocks) (hsmall : ∀ b ∈ blocks, b.size < 2 ^ 25) (hused : ∀ b ∈ blocks, b.free = false) :
    ∃ h : TlsfHeap, h.t = t ∧ h.blocks = blocks ∧ Represents (usedHeaders blocks) h := by
  have hseparate : blocks.IsChain TlsfBlock.NotBothFree := hl.next.imp_of_mem_imp fun _ c _ hc _ _ => hused c hc
  have hfiled : Filed blocks fun _ _ => [] := by
    intro fl sl a
    refine iff_of_false List.not_mem_nil ?_
    rintro ⟨b, hb, hfree, -⟩
    rw [hused b hb] at hfree
    simp at hfree
  refine ⟨⟨t, blocks, fun _ _ => [], hpos, hl, hsmall, hseparate, hfiled⟩, rfl, rfl,
    usedHeaders_tagged hl.apart hsmall (fun b hb => ?_) hused, Indexed.empty fun y hlo hhi => usedHeaders_apply fun b hb => ?_⟩
  · rcases hl.sizes b hb with ⟨hzero, -⟩ | ⟨-, hmod⟩
    · rw [hzero]
    · exact hmod
  · have hroom := (hl.room b hb).2.2
    simp only [TlsfBlock.fin, hdrSize, controlSize] at hroom
    change t ≤ y at hlo
    change y < t + 3304 at hhi
    omega

/-- Two used blocks of 16 MiB in one pool, in front of the control structure at 2^26. -/
def twoHalves : List TlsfBlock := [⟨4096, 2 ^ 24, false⟩, ⟨4104 + 2 ^ 24, 2 ^ 24, false⟩, ⟨4112 + 2 ^ 25, 0, false⟩]

theorem twoHalves_layout : Layout (2 ^ 26) twoHalves := by
  refine ⟨?_, ?_, ?_, ?_, ?_⟩
  · decide
  · simp [twoHalves, TlsfBlock.Next, TlsfBlock.fin, hdrSize]
  · decide
  · simp [twoHalves, TlsfBlock.Apart, TlsfBlock.fin, hdrSize]
  · simp [twoHalves, TlsfBlock.fin, hdrSize, controlSize]

theorem tlsf_free_correct_half :
    ∃ m h h', h.blocks = twoHalves ∧ Freed m (tlsfFree h.t (blockToPtr 4096) m) h [] ⟨4096, 2 ^ 24, false⟩
      [⟨4104 + 2 ^ 24, 2 ^ 24, false⟩, ⟨4112 + 2 ^ 25, 0, false⟩] h' := by
  obtain ⟨h, ht, hblocks, hrep⟩ := exists_used_heap (by decide) twoHalves_layout (by decide) (by decide)
  have hsplit : h.blocks = [] ++ (⟨4096, 2 ^ 24, false⟩ :: [⟨4104 + 2 ^ 24, 2 ^ 24, false⟩, ⟨4112 + 2 ^ 25, 0, false⟩]) := hblocks
  obtain ⟨h', hfreed⟩ := (tlsf_free_correct hrep hsplit rfl (by decide)).mpr (by decide)
  exact ⟨_, h, h', hblocks, hfreed⟩

/-- When both halves are freed, the joined block is too large for the table. -/
theorem tlsf_free_overflow :
    ¬∀ (m : Memory) (h : TlsfHeap) (before : List TlsfBlock) (b : TlsfBlock) (after : List TlsfBlock), Represents m h →
      h.blocks = before ++ (b :: after) → b.free = false → b.size ≠ 0 →
        ∃ h', Freed m (tlsfFree h.t (blockToPtr b.addr) m) h before b after h' := by
  intro hall
  obtain ⟨h, ht, hblocks, hrep⟩ := exists_used_heap (by decide) twoHalves_layout (by decide) (by decide)
  have hsplit : h.blocks = [] ++ (⟨4096, 2 ^ 24, false⟩ :: [⟨4104 + 2 ^ 24, 2 ^ 24, false⟩, ⟨4112 + 2 ^ 25, 0, false⟩]) := hblocks
  obtain ⟨⟨h₁, ht₁, hblocks₁, hrep₁⟩, -⟩ := tlsfFree_refines hrep hsplit rfl (by decide) (by decide)
  obtain ⟨h₂, hfreed⟩ := hall _ h₁ [⟨4096, 2 ^ 24, true⟩] ⟨4104 + 2 ^ 24, 2 ^ 24, false⟩ [⟨4112 + 2 ^ 25, 0, false⟩] hrep₁
    (by rw [hblocks₁]; decide) rfl (by decide)
  exact absurd (h₂.small _ hfreed.merged) (by decide)

end Tsukasa
