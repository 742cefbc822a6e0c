import Tsukasa.Mm.TlsfTable

/-!
# Whether the block found is large enough

`find_suitable` is a good fit: it takes a block that is at least as large as the size asked for, and gives up only when no block is filed at or above the class of the search. Both rest on the rounding in `mapping_search`, which is done in 32 bits and wraps for sizes just below 2^32.
-/

namespace Tsukasa

open Lib (Memory)

variable {m : Memory} {t n size : Nat} {h : TlsfHeap} {before after : List TlsfBlock} {b : TlsfBlock} {free : Nat → Prop}
  {lists : Nat → Nat → List Nat}

/-! ### The search -/

/-- A block filed where a search looks is at least as large as what is searched for, unless the rounding wraps. -/
theorem le_of_atOrAbove {s : Nat} (hmax : size ≤ requestMax) (habove : AtOrAbove (mappingSearch size) (mappingInsert s).1 (mappingInsert s).2) :
    size ≤ s := by
  rcases Nat.lt_or_ge size 16 with hsmall | hlarge
  · have hsearch : mappingSearch size = (0, size) := by
      rw [mappingSearch, if_neg (by rw [slIndexBits]; omega), mappingInsert_of_lt hsmall]
    rw [hsearch] at habove
    by_contra hlt
    rw [mappingInsert_of_lt (by omega), AtOrAbove] at habove
    dsimp only at habove
    omega
  · have hsearch : searchSize size < 2 ^ 32 := Nat.lt_trans (searchSize_lt_of_le hlarge hmax) (by decide)
    have hfour : 4 ≤ (mappingSearch size).1 := by
      rw [mappingSearch_of_le hlarge, wrap32_of_lt hsearch]
      exact four_le_mappingInsert_fl (Nat.le_trans hlarge (Nat.le_add_right _ _))
    exact Nat.le_trans (le_classFloor_search hlarge hsearch) (classFloor_le hfour (mappingSearch_sl_lt size) habove)

/-- A block is filed at or above a class exactly when it has the size the class begins with. -/
theorem atOrAbove_iff {c : Nat × Nat} {s : Nat} (hs : 16 ≤ s) (hfl : 4 ≤ c.1) (hsl : c.2 < 16) :
    AtOrAbove c (mappingInsert s).1 (mappingInsert s).2 ↔ classFloor c ≤ s := by
  refine ⟨classFloor_le hfl hsl, fun hle => ?_⟩
  by_contra hbelow
  rw [AtOrAbove] at hbelow
  have hfloor := (classFloor_mappingInsert hs).2
  have hfour := four_le_mappingInsert_fl hs
  have hsl' := mappingInsert_sl_lt s
  rw [slIndexCount, slIndexBits] at hsl'
  rw [classFloor] at hfloor hle
  rcases Nat.lt_or_ge (mappingInsert s).1 c.1 with hlt | hge
  · have hpow : 2 ^ ((mappingInsert s).1 - 4 + 1) ≤ 2 ^ (c.1 - 4) := Nat.pow_le_pow_right (by decide) (by omega)
    have hnext : (16 + (mappingInsert s).2) * 2 ^ ((mappingInsert s).1 - 4) + 2 ^ ((mappingInsert s).1 - 4) ≤ (16 + c.2) * 2 ^ (c.1 - 4) :=
      calc (16 + (mappingInsert s).2) * 2 ^ ((mappingInsert s).1 - 4) + 2 ^ ((mappingInsert s).1 - 4)
          = (16 + (mappingInsert s).2 + 1) * 2 ^ ((mappingInsert s).1 - 4) := (Nat.succ_mul _ _).symm
        _ ≤ 32 * 2 ^ ((mappingInsert s).1 - 4) := Nat.mul_le_mul_right _ (by omega)
        _ = 16 * 2 ^ ((mappingInsert s).1 - 4 + 1) := by rw [Nat.pow_succ]; omega
        _ ≤ (16 + c.2) * 2 ^ (c.1 - 4) := Nat.mul_le_mul (by omega) hpow
    omega
  · have heq : (mappingInsert s).1 = c.1 := by omega
    rw [heq] at hfloor
    have hnext : (16 + (mappingInsert s).2) * 2 ^ (c.1 - 4) + 2 ^ (c.1 - 4) ≤ (16 + c.2) * 2 ^ (c.1 - 4) := by
      rw [← Nat.succ_mul]
      exact Nat.mul_le_mul_right _ (by omega)
    omega

/-- A size whose search stays in the table, though it is above the largest request, is one whose rounding wraps. -/
theorem lt_of_wrapped (hword : size < 2 ^ 32) (hfl : (mappingSearch size).1 < flIndexCount) (hmax : ¬size ≤ requestMax) : 2 ^ 25 ≤ size := by
  rcases Nat.lt_or_ge size 16 with hsmall | hlarge
  · rw [requestMax] at hmax
    omega
  · have hwindow := (mappingSearch_fl_lt_iff hlarge hword).mp hfl
    omega

/-- A control structure whose lists hold exactly the free blocks, each on the list of its class. -/
structure ControlOk (m : Memory) (t : Nat) (free : Nat → Prop) (lists : Nat → Nat → List Nat) : Prop where
  marked : Marked m t lists
  own : ∀ fl sl a, a ∈ lists fl sl ↔ free a ∧ mappingInsert (blockSize m a) = (fl, sl)
  flag : ∀ a, free a → blockIsFree m a = true

/-- A free block is filed where a search for `size` looks. -/
def Offers (m : Memory) (size : Nat) (free : Nat → Prop) : Prop :=
  ∃ a, free a ∧ AtOrAbove (mappingSearch size) (mappingInsert (blockSize m a)).1 (mappingInsert (blockSize m a)).2

/-- What `find_suitable` is for: the block it finds is free and large enough, and it finds one when there is one. -/
structure GoodFit (m : Memory) (t size : Nat) (free : Nat → Prop) : Prop where
  sound : findSuitable m t size ≠ 0 →
    blockIsFree m (findSuitable m t size) = true ∧ free (findSuitable m t size) ∧ size ≤ blockSize m (findSuitable m t size)
  complete : findSuitable m t size = 0 → ¬Offers m size free

section Search

variable (hctl : ControlOk m t free lists) (hfl : (mappingSearch size).1 < flIndexCount)

include hctl hfl

theorem ControlOk.found (hne : findSuitable m t size ≠ 0) :
    free (findSuitable m t size) ∧ blockSize m (findSuitable m t size) < 2 ^ 25 ∧
      AtOrAbove (mappingSearch size) (mappingInsert (blockSize m (findSuitable m t size))).1
        (mappingInsert (blockSize m (findSuitable m t size))).2 := by
  obtain ⟨f, s, habove, hmem⟩ := findSuitable_mem hctl.marked hfl hne
  obtain ⟨hfree, hclass⟩ := (hctl.own f s _).mp hmem
  have hrange := (hctl.marked.range f s (List.ne_nil_of_mem hmem)).1
  refine ⟨hfree, mappingInsert_fl_lt_iff.mp ?_, ?_⟩
  · rw [hclass]
    exact hrange
  · rw [hclass]
    exact habove

theorem ControlOk.not_offers (hzero : findSuitable m t size = 0) : ¬Offers m size free := by
  rintro ⟨a, hfree, habove⟩
  have hmem := (hctl.own (mappingInsert (blockSize m a)).1 (mappingInsert (blockSize m a)).2 a).mpr ⟨hfree, rfl⟩
  rw [findSuitable_eq_zero hctl.marked hfl hzero habove] at hmem
  simp at hmem

/-- The search is a good fit exactly for the sizes whose rounding does not wrap, and where nothing is filed for it to find. -/
theorem find_suitable_good_fit (hword : size < 2 ^ 32) : GoodFit m t size free ↔ size ≤ requestMax ∨ ¬Offers m size free := by
  constructor
  · intro hfit
    by_contra hnot
    rw [not_or, not_not] at hnot
    obtain ⟨hmax, hoffers⟩ := hnot
    have hfound : findSuitable m t size ≠ 0 := fun hzero => hfit.complete hzero hoffers
    have hsize := (hfit.sound hfound).2.2
    have hsmall := (hctl.found hfl hfound).2.1
    have hlarge := lt_of_wrapped hword hfl hmax
    omega
  · intro hcase
    refine ⟨fun hfound => ?_, hctl.not_offers hfl⟩
    obtain ⟨hfree, -, habove⟩ := hctl.found hfl hfound
    refine ⟨hctl.flag _ hfree, hfree, ?_⟩
    rcases hcase with hmax | hnone
    · exact le_of_atOrAbove hmax habove
    · exact absurd ⟨_, hfree, habove⟩ hnone

end Search

theorem Represents.controlOk (hrep : Represents m h) : ControlOk m h.t (FreeAt h.blocks) h.lists := by
  refine ⟨hrep.indexed.marked, fun fl sl a => ?_, fun a ha => ?_⟩
  · rw [h.filed fl sl a]
    constructor
    · rintro ⟨b, hb, hfree, rfl, hclass⟩
      exact ⟨⟨b, hb, hfree, rfl⟩, by rwa [(hrep.tagged.header hb).1]⟩
    · rintro ⟨⟨b, hb, hfree, rfl⟩, hclass⟩
      exact ⟨b, hb, hfree, rfl, by rwa [(hrep.tagged.header hb).1] at hclass⟩
  · obtain ⟨b, hb, hfree, rfl⟩ := ha
    exact (hrep.tagged.header hb).2.trans hfree

theorem Represents.offers_iff (hrep : Represents m h) :
    Offers m size (FreeAt h.blocks) ↔ ∃ b ∈ h.blocks, b.free = true ∧ AtOrAbove (mappingSearch size) (mappingInsert b.size).1 (mappingInsert b.size).2 := by
  constructor
  · rintro ⟨a, ⟨b, hb, hfree, rfl⟩, habove⟩
    rw [(hrep.tagged.header hb).1] at habove
    exact ⟨b, hb, hfree, habove⟩
  · rintro ⟨b, hb, hfree, habove⟩
    rw [← (hrep.tagged.header hb).1] at habove
    exact ⟨b.addr, ⟨b, hb, hfree, rfl⟩, habove⟩

theorem Represents.findSuitable_eq_zero_iff (hrep : Represents m h) (hfl : (mappingSearch size).1 < flIndexCount) :
    findSuitable m h.t size = 0 ↔ ¬Offers m size (FreeAt h.blocks) := by
  refine ⟨hrep.controlOk.not_offers hfl, fun hnone => ?_⟩
  by_contra hfound
  obtain ⟨hfree, -, habove⟩ := hrep.controlOk.found hfl hfound
  exact hnone ⟨_, hfree, habove⟩

theorem find_suitable_good_fit_forty : ∃ h : TlsfHeap, h.t = 4096 ∧ GoodFit oneBlock.mem h.t 40 (FreeAt h.blocks) := by
  obtain ⟨h, ht, -, hrep, -⟩ := oneBlock_represents
  exact ⟨h, ht, (find_suitable_good_fit hrep.controlOk (by decide) (by decide)).mpr (Or.inl (by decide))⟩

/-- A search for nearly 4 GiB wraps into class (0, 7), and finds a block of 40 bytes. -/
theorem find_suitable_wraps :
    ¬∀ (m : Memory) (t size : Nat) (free : Nat → Prop) (lists : Nat → Nat → List Nat), ControlOk m t free lists → size < 2 ^ 32 →
      (mappingSearch size).1 < flIndexCount → GoodFit m t size free := by
  intro hall
  obtain ⟨h, -, hblocks, hrep, -⟩ := oneBlock_represents
  have hfit := hall _ _ (2 ^ 32 - 2 ^ 27 + 8) _ _ hrep.controlOk (by decide) (by decide)
  have hfound : findSuitable oneBlock.mem h.t (2 ^ 32 - 2 ^ 27 + 8) ≠ 0 :=
    hrep.findSuitable_ne_zero (by decide) (b := ⟨7424, 40, true⟩) (by simp [hblocks]) rfl (Or.inl (by decide))
  have hsize := (hfit.sound hfound).2.2
  have hsmall := (hrep.controlOk.found (by decide) hfound).2.1
  omega

/-! ### What `tlsf_malloc` hands out -/

/-- The payload size that `split_block` leaves the block with. -/
def takenSize (m : Memory) (t b size : Nat) : Nat := blockSize (splitBlock b size (blockSetFree b false (removeBlock t b m))).2 b

/-- The pointer leads `offset` bytes into a block of the heap that was free, and `n` bytes from there on belong to it, before and after it is split. -/
def InPayload (m : Memory) (h : TlsfHeap) (request ptr offset n : Nat) : Prop :=
  ∃ b ∈ h.blocks, b.free = true ∧ ptr = blockToPtr b.addr + offset ∧ offset + n ≤ b.size ∧
    offset + n ≤ takenSize m h.t b.addr (wrap32 (requestSize request))

theorem requestSize_of_le (hn : n ≤ requestMax) : n ≤ wrap32 (requestSize n) ∧ wrap32 (requestSize n) ≤ requestMax := by
  rw [requestMax] at hn ⊢
  rw [requestSize_eq, wrap32, blockMin]
  omega

theorem Represents.takenSize_eq {bs : Nat} (hrep : Represents m h) (hblocks : h.blocks = before ++ (b :: after)) (hfree : b.free = true)
    (hsize : b.size = bs) (hmod : size % 4 = 0) (hword : size < 2 ^ 32) :
    takenSize m h.t b.addr size = if splitRemain bs size < blockMin then bs else size := by
  obtain ⟨⟨lists', hused⟩, -⟩ := hrep.takeUsed hblocks hfree
  have hheader := hused.header
  dsimp only at hheader
  rw [hsize] at hheader
  rw [takenSize]
  split
  · next hremain =>
      rw [splitBlock, hheader.size]
      rw [if_pos hremain]
      exact hheader.size
  · next hremain => exact (splitBlock_rest hheader hmod hword (Nat.not_lt.mp hremain)).2.1.size

/-- A request of at most 31 MiB gets a block that is large enough, if it gets one. -/
theorem Represents.malloc_inPayload (hrep : Represents m h) (hn : n ≠ 0) (hmax : n ≤ requestMax) (hptr : (tlsfMalloc h.t n m).1 ≠ 0) :
    InPayload m h n (tlsfMalloc h.t n m).1 0 n := by
  obtain ⟨hle, hfit⟩ := requestSize_of_le hmax
  have hword := wrap32_lt (requestSize n)
  have hmod := wrap32_requestSize_mod n
  by_cases hnone : findSuitable m h.t (wrap32 (requestSize n)) = 0
  · rw [tlsfMalloc_of_none hnone] at hptr
    exact absurd rfl hptr
  · have hfl := ((inTable_mappingSearch hword).mpr (Or.inl hfit)).1
    obtain ⟨b, hb, hfree, haddr, habove⟩ := hrep.findSuitable_block hfl hnone
    obtain ⟨before, after, hblocks⟩ := List.append_of_mem hb
    have hsize := le_of_atOrAbove hfit habove
    refine ⟨b, hb, hfree, ?_, by omega, ?_⟩
    · rw [tlsfMalloc_of_found h.pos hn hnone, takeBlock_ptr, haddr]
      rfl
    · rw [hrep.takenSize_eq hblocks hfree rfl (by omega) hword]
      split <;> omega

/-- A larger request whose search stays in the table gets nothing, or a block that is too small. -/
theorem Represents.not_inPayload {offset : Nat} {ptr : Nat} (hfits : SearchFits (wrap32 (requestSize n))) (hmax : ¬n ≤ requestMax)
    (hword : n < 2 ^ 64) (hin : InPayload m h n ptr offset (n - offset)) (hoffset : offset ≤ n) : False := by
  obtain ⟨b, hb, -, -, hsize, -⟩ := hin
  have hsmall := h.small b hb
  rw [SearchFits, requestSize_eq, wrap32, requestMax, blockMin] at hfits
  rw [requestMax] at hmax
  omega

end Tsukasa
