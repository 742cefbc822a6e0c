import Tsukasa.Mm.TlsfFree

/-!
# New pools

`pool_add` makes one free block of a piece of memory, with a sentinel behind it. The memory must not be in use by the heap, and the block must have a list. `tlsf_create` clears a control structure and adds the first pool behind it.
-/

namespace Tsukasa

open Lib (Memory)

variable {m m' : Memory} {t mem size : Nat} {h : TlsfHeap} {blocks : List TlsfBlock} {b x : TlsfBlock}

/-! ### Clearing the control structure -/

section Clear

variable {α : Type*} {l : List α} {g : Memory → α → Memory} {y : Nat}

theorem foldl_zero (hkeep : ∀ m a, m y = 0 → g m a y = 0) (h : m y = 0 ∨ ∃ a ∈ l, ∀ m, g m a y = 0) : l.foldl g m y = 0 := by
  induction l generalizing m with
  | nil => exact h.resolve_right (by simp)
  | cons a l ih =>
      apply ih
      rcases h with h | ⟨c, hc, hzero⟩
      · exact Or.inl (hkeep m a h)
      · rcases List.mem_cons.mp hc with rfl | hc
        · exact Or.inl (hzero m)
        · exact Or.inr ⟨c, hc, hzero⟩

theorem foldl_apply (hkeep : ∀ a ∈ l, ∀ m, g m a y = m y) : l.foldl g m y = m y := by
  induction l generalizing m with
  | nil => rfl
  | cons a l ih =>
      rw [List.foldl_cons, ih fun c hc => hkeep c (List.mem_cons_of_mem _ hc), hkeep a List.mem_cons_self]

theorem store_zero_apply (m : Memory) (a n : Nat) : m.store a n 0 y = if a ≤ y ∧ y < a + n then 0 else m y := by
  rw [Memory.store, Nat.zero_div]
  rfl

theorem store_zero_keep (a n : Nat) (h : m y = 0) : m.store a n 0 y = 0 := by
  rw [store_zero_apply]
  split
  · rfl
  · exact h

theorem store_zero_inside {a n : Nat} (hlo : a ≤ y) (hhi : y < a + n) : m.store a n 0 y = 0 := by
  rw [store_zero_apply, if_pos ⟨hlo, hhi⟩]

end Clear

/-- Every byte of the tables and bitmaps is cleared. -/
theorem controlClear_zero {y : Nat} (hlo : t ≤ y) (hhi : y < t + 3304) : controlClear t m y = 0 := by
  have hrow : ∀ (m : Memory) f, m y = 0 → (List.range slIndexCount).foldl (fun m s => m.store (freeListAt t f s) 8 0) m y = 0 :=
    fun m f h => foldl_zero (fun m s => store_zero_keep _ _) (Or.inl h)
  rw [controlClear]
  refine foldl_zero (fun m f h => hrow _ f (store_zero_keep _ _ h)) ?_
  rcases Nat.lt_or_ge y (t + 3200) with hlist | hbits
  · -- a cell of `free_lists`
    refine Or.inr ⟨(y - t) / 128, List.mem_range.mpr ?_, fun m => foldl_zero (fun m s => store_zero_keep _ _)
      (Or.inr ⟨(y - t) / 8 % 16, List.mem_range.mpr ?_, fun m => store_zero_inside ?_ ?_⟩)⟩
    · simp only [flIndexCount, flIndexMax, slIndexBits]
      omega
    · simp only [slIndexCount, slIndexBits]
      omega
    · simp only [freeListAt, slIndexCount, slIndexBits]
      omega
    · simp only [freeListAt, slIndexCount, slIndexBits]
      omega
  · rcases Nat.lt_or_ge y (t + 3204) with hfl | hsl
    · exact Or.inl (store_zero_inside (by rw [flBitmapAt]; omega) (by rw [flBitmapAt]; omega))
    · refine Or.inr ⟨(y - t - 3204) / 4, List.mem_range.mpr ?_, fun m => hrow _ _ (store_zero_inside ?_ ?_)⟩
      · simp only [flIndexCount, flIndexMax, slIndexBits]
        omega
      · rw [slBitmapAt]
        omega
      · rw [slBitmapAt]
        omega

theorem controlClear_apply {y : Nat} (hy : y < t ∨ t + controlSize ≤ y) : controlClear t m y = m y := by
  rw [controlClear, foldl_apply, Memory.store_apply_of_outside _ (by simp only [flBitmapAt, controlSize] at *; omega)]
  intro f hf m
  rw [List.mem_range] at hf
  have hle := slBitmapAt_le (t := t) hf
  rw [foldl_apply, Memory.store_apply_of_outside _ (by simp only [slBitmapAt] at *; omega)]
  intro s hs m
  rw [List.mem_range] at hs
  have hle' := freeListAt_le (t := t) hf hs
  have hge := le_freeListAt t f s
  exact Memory.store_apply_of_outside _ (by rw [controlSize] at hy; omega)

/-! ### Adding a pool -/

/-- The blocks of a new pool. -/
def poolBlocks (mem size : Nat) : List TlsfBlock := [⟨mem, poolBlockSize size, true⟩, ⟨mem + hdrSize + poolBlockSize size, 0, false⟩]

theorem poolBlockSize_le (hsize : poolMin ≤ size) : poolBlockSize size + 24 ≤ size := by
  simp only [poolMin, poolBlockSize, wrap32, hdrSize, blockMin, footerSize] at *
  omega

theorem poolBlockSize_mod (size : Nat) : poolBlockSize size % 4 = 0 := by
  rw [poolBlockSize]
  omega

/-- Memory that the heap at `t` does not use. -/
structure Unused (t : Nat) (blocks : List TlsfBlock) (mem size : Nat) : Prop where
  pos : 0 < mem
  fits : mem + size ≤ 2 ^ 64
  control : mem + size ≤ t ∨ t + controlSize ≤ mem
  apart : ∀ b ∈ blocks, b.fin ≤ mem ∨ mem + size ≤ b.addr

theorem Layout.addPool (hl : Layout t blocks) (hunused : Unused t blocks mem size) (hsize : poolMin ≤ size)
    (hmin : blockMin ≤ poolBlockSize size) : Layout t (blocks ++ poolBlocks mem size) := by
  have hle := poolBlockSize_le hsize
  have hmod := poolBlockSize_mod size
  have hcontrol := hunused.control
  have hfits := hunused.fits
  have hpos := hunused.pos
  rw [poolBlocks]
  generalize poolBlockSize size = bs at *
  simp only [blockMin] at hmin
  refine ⟨fun b hb => ?_, ?_, fun b hb => ?_, ?_, fun b hb => ?_⟩
  · simp only [List.mem_append, List.mem_cons, List.not_mem_nil, or_false] at hb
    rcases hb with hb | rfl | rfl
    · exact hl.sizes b hb
    · exact Or.inr ⟨hmin, hmod⟩
    · exact Or.inl ⟨rfl, rfl⟩
  · rw [List.isChain_append]
    refine ⟨hl.next, ?_, fun b hb c _ hne => absurd (hl.last b hb) hne⟩
    simp [TlsfBlock.Next, TlsfBlock.fin]
  · rw [List.getLast?_append_of_ne_nil _ (by simp)] at hb
    simp only [List.getLast?_cons_cons, List.getLast?_singleton, Option.mem_some] at hb
    rw [← hb]
  · rw [List.pairwise_append]
    refine ⟨hl.apart, ?_, fun b hb c hc => ?_⟩
    · simp [TlsfBlock.Apart, TlsfBlock.fin]
    · have hapart := hunused.apart b hb
      simp only [List.mem_cons, List.not_mem_nil, or_false] at hc
      rcases hc with rfl | rfl
      · simp only [TlsfBlock.Apart, TlsfBlock.fin, hdrSize] at hapart ⊢
        omega
      · simp only [TlsfBlock.Apart, TlsfBlock.fin, hdrSize] at hapart ⊢
        omega
  · simp only [List.mem_append, List.mem_cons, List.not_mem_nil, or_false] at hb
    rcases hb with hb | rfl | rfl
    · exact hl.room b hb
    · simp only [TlsfBlock.fin, hdrSize]
      omega
    · simp only [TlsfBlock.fin, hdrSize]
      omega

/-- What `pool_add` writes before the block is filed. -/
def poolHeaders (mem size : Nat) (m : Memory) : Memory :=
  let m := blockWriteFooter mem (blockSetPrevFree mem false (blockSetFree mem true (blockSetSize mem (poolBlockSize size) (m.store mem 4 0))))
  blockSetPrevFree (blockPhysNext m mem) true (m.store (blockPhysNext m mem) 4 0)

theorem poolAdd_eq (hsize : poolMin ≤ size) : poolAdd t mem size m = insertBlock t mem (poolHeaders mem size m) := by
  rw [poolAdd, if_neg (by omega)]
  rfl

theorem poolHeaders_spec (hsize : poolMin ≤ size) (hmin : 4 ≤ poolBlockSize size) (hfits : mem + size ≤ 2 ^ 64) :
    Header (poolHeaders mem size m) mem (poolBlockSize size) true false ∧
      (poolHeaders mem size m).load (blockFooter (poolHeaders mem size m) mem) 8 = mem ∧
      Header (poolHeaders mem size m) (mem + hdrSize + poolBlockSize size) 0 false true ∧
      ∀ y, y < mem ∨ mem + size ≤ y → poolHeaders mem size m y = m y := by
  have hle := poolBlockSize_le hsize
  have hmod := poolBlockSize_mod size
  have hlt : poolBlockSize size < 2 ^ 32 := Nat.lt_of_le_of_lt (Nat.div_mul_le_self _ 4) (wrap32_lt _)
  rw [poolHeaders]
  generalize poolBlockSize size = bs at *
  simp only [hdrSize] at *
  have hzero : Header (m.store mem 4 0) mem 0 false false := Header.store (by decide) (by decide) _ rfl
  have hheader := (((hzero.setSize hmod hlt).setFree (f := true)).setPrevFree (f := false))
  have hkeep : ∀ y, y < mem ∨ mem + 4 ≤ y →
      blockSetPrevFree mem false (blockSetFree mem true (blockSetSize mem bs (m.store mem 4 0))) y = m y := by
    intro y hy
    rw [blockSetPrevFree, Memory.store_apply_of_outside _ hy, blockSetFree, Memory.store_apply_of_outside _ hy, blockSetSize,
      Memory.store_apply_of_outside _ hy, Memory.store_apply_of_outside _ hy]
  generalize blockSetPrevFree mem false (blockSetFree mem true (blockSetSize mem bs (m.store mem 4 0))) = m₁ at *
  have hfooter : blockFooter m₁ mem = mem + bs := by
    rw [blockFooter, hheader.size, hdrSize, footerSize]
    omega
  have hfoot : ∀ y, y < mem + bs ∨ mem + bs + 8 ≤ y → blockWriteFooter mem m₁ y = m₁ y := by
    intro y hy
    rw [blockWriteFooter, hfooter, Memory.store_apply_of_outside _ hy]
  have hheader₂ : Header (blockWriteFooter mem m₁) mem bs true false := hheader.congr fun y hlo hhi => hfoot y (by omega)
  have hnext : blockPhysNext (blockWriteFooter mem m₁) mem = mem + 8 + bs := by rw [blockPhysNext, hheader₂.size, hdrSize]
  rw [hnext]
  have hsent : ∀ y, y < mem + 8 + bs ∨ mem + 8 + bs + 4 ≤ y →
      blockSetPrevFree (mem + 8 + bs) true ((blockWriteFooter mem m₁).store (mem + 8 + bs) 4 0) y = blockWriteFooter mem m₁ y := by
    intro y hy
    rw [blockSetPrevFree, Memory.store_apply_of_outside _ hy, Memory.store_apply_of_outside _ hy]
  have hsentinel : Header ((blockWriteFooter mem m₁).store (mem + 8 + bs) 4 0) (mem + 8 + bs) 0 false false :=
    Header.store (by decide) (by decide) _ rfl
  have hheader₃ := hheader₂.congr fun y hlo hhi => hsent y (by omega)
  refine ⟨hheader₃, ?_, hsentinel.setPrevFree, fun y hy => ?_⟩
  · rw [blockFooter, hheader₃.size, hdrSize, footerSize, Memory.load_congr fun y hlo hhi => hsent y (by omega), blockWriteFooter, hfooter,
      show mem + 8 + bs - 8 = mem + bs by omega, Memory.load_store_self, mod_word (by omega)]
  · rw [hsent y (by omega), hfoot y (by omega), hkeep y (by omega)]

/-- `pool_add` adds one free block and its sentinel to the heap. -/
theorem poolAdd_refines (hrep : Represents m h) (hunused : Unused h.t h.blocks mem size) (hsize : poolMin ≤ size)
    (hsmall : poolBlockSize size < 2 ^ 25) (hmin : blockMin ≤ poolBlockSize size) :
    (∃ h' : TlsfHeap, h'.t = h.t ∧ h'.blocks = h.blocks ++ poolBlocks mem size ∧ Represents (poolAdd h.t mem size m) h') ∧
      ∀ y, ¬Owned h.t h.blocks y → (y < mem ∨ mem + size ≤ y) → poolAdd h.t mem size m y = m y := by
  have hle := poolBlockSize_le hsize
  have hlayout := h.layout.addPool hunused hsize hmin
  obtain ⟨hheader, hfoot, hsentinel, hkeep⟩ := poolHeaders_spec (m := m) hsize (Nat.le_trans (by decide) hmin) hunused.fits
  have hsizes : ∀ b ∈ h.blocks, b.free = true → blockMin ≤ b.size := fun b hb => h.layout.blockMin_le_of_free hb
  have hlast : lastFree false h.blocks = false := by
    rcases h.blocks.eq_nil_or_concat' with hnil | ⟨front, b, hfront⟩
    · rw [hnil]
      rfl
    · have hb : b ∈ h.blocks := by simp [hfront]
      have hzero := h.layout.last b (by simp [hfront])
      rw [hfront, lastFree_append_singleton]
      rcases h.layout.sizes b hb with ⟨-, hused⟩ | ⟨hbmin, -⟩
      · exact hused
      · rw [blockMin] at hbmin
        omega
  have hopen : Open (poolHeaders mem size m) h.t h.blocks ⟨mem, poolBlockSize size, true⟩ [⟨mem + hdrSize + poolBlockSize size, 0, false⟩]
      true h.lists := by
    refine ⟨hlayout, ?_, fun b hb => ?_, h.separate, List.isChain_singleton _, ?_, ?_, ⟨hsentinel, by simp, trivial⟩, fun fl sl a => ?_, ?_⟩
    · show poolBlockSize size ≠ 0
      rw [blockMin] at hmin
      omega
    · simp only [List.mem_append, List.mem_singleton] at hb
      rcases hb with hb | rfl
      · exact h.small b hb
      · exact Nat.two_pow_pos 25
    · exact hrep.tagged.congr_outside hunused.apart hsizes hkeep
    · rw [hlast]
      exact hheader
    · rw [h.filed fl sl a]
      constructor
      · rintro ⟨b, hb, hrest⟩
        exact ⟨b, List.mem_append_left _ hb, hrest⟩
      · rintro ⟨b, hb, hfree, hrest⟩
        refine ⟨b, (List.mem_append.mp hb).resolve_right fun hb' => ?_, hfree, hrest⟩
        rw [List.mem_singleton.mp hb'] at hfree
        simp at hfree
    · exact hrep.indexed.congr_outside h.filed hunused.control hunused.apart hsizes hkeep
  obtain ⟨⟨h', ht, hblocks, hrep'⟩, hframe⟩ := hopen.insert h.pos rfl hsmall hfoot hlast (by simp)
  rw [poolAdd_eq hsize]
  refine ⟨⟨h', ht, hblocks, hrep'⟩, fun y hy hout => ?_⟩
  refine (hframe y fun hin => ?_).trans (hkeep y hout)
  rcases hin with hcontrol | ⟨b, hb, hlo, hhi⟩
  · exact hy (Or.inl hcontrol)
  · simp only [List.mem_append, List.mem_cons, List.not_mem_nil, or_false] at hb
    rcases hb with hb | rfl | rfl
    · exact hy (Owned.of_mem hb hlo hhi)
    · simp only [TlsfBlock.fin, hdrSize] at hlo hhi
      omega
    · simp only [TlsfBlock.fin, hdrSize] at hlo hhi
      omega

/-! ### A new heap -/

/-- The heap without a pool. -/
def emptyHeap (t : Nat) (hpos : t ≠ 0) : TlsfHeap :=
  ⟨t, [], fun _ _ => [], hpos, ⟨by simp, List.isChain_nil, by simp, List.Pairwise.nil, by simp⟩, by simp, List.isChain_nil,
    fun _ _ _ => by simp⟩

theorem controlClear_represents (hpos : t ≠ 0) : Represents (controlClear t m) (emptyHeap t hpos) :=
  ⟨trivial, Indexed.empty fun _ hlo hhi => controlClear_zero hlo hhi⟩

/-- `tlsf_create` makes a heap with one pool behind the control structure. -/
theorem tlsfCreate_refines (hmem : mem ≠ 0) (hsize : controlSize + 64 ≤ size) (hfits : mem + size ≤ 2 ^ 64)
    (hsmall : poolBlockSize (size - controlSize) < 2 ^ 25) (hmin : blockMin ≤ poolBlockSize (size - controlSize)) :
    (tlsfCreate mem size m).1 = mem ∧
      (∃ h' : TlsfHeap, h'.t = mem ∧ h'.blocks = poolBlocks (mem + controlSize) (size - controlSize) ∧ Represents (tlsfCreate mem size m).2 h') ∧
      ∀ y, y < mem ∨ mem + size ≤ y → (tlsfCreate mem size m).2 y = m y := by
  have hunused : Unused mem [] (mem + controlSize) (size - controlSize) :=
    ⟨by omega, by omega, Or.inr (Nat.le_refl _), by simp⟩
  obtain ⟨⟨h', ht, hblocks, hrep⟩, hframe⟩ := poolAdd_refines (h := emptyHeap mem hmem) (controlClear_represents (m := m) hmem) hunused
    (by simp only [poolMin, hdrSize, blockMin, footerSize]; omega) hsmall hmin
  have hrun : ¬(mem = 0 ∨ size < controlSize + 64) := not_or.mpr ⟨hmem, Nat.not_lt.mpr hsize⟩
  rw [tlsfCreate, if_neg hrun]
  dsimp only [emptyHeap] at ht hblocks hrep hframe ⊢
  refine ⟨rfl, ⟨h', ht, hblocks, hrep⟩, fun y hy => ?_⟩
  have hout : y < mem ∨ mem + controlSize ≤ y := by omega
  rw [← controlClear_apply (m := m) hout]
  refine hframe y (fun hin => ?_) (by omega)
  rcases hin with hcontrol | ⟨b, hb, -⟩
  · change mem ≤ y ∧ y < mem + controlSize at hcontrol
    omega
  · simp at hb

end Tsukasa
