import Tsukasa.Mm.TlsfRun

/-!
# The pairs that index the tables

`insert_block`, `remove_block` and `find_suitable` index `sl_bitmap` and `free_lists` with the pairs that `mapping_insert` and `mapping_search` compute, without a check. The tables have rows for the sizes below 2^25 only, so a request above 31 MiB, a block that `split_block` gives a wrapped size, or a pool of 32 MiB leaves them.
-/

namespace Tsukasa

open Lib (Memory)

variable {m m' : Memory} {t n size : Nat} {h : TlsfHeap} {before after blocks : List TlsfBlock} {b c x : TlsfBlock} {p : Bool}
  {lists : Nat → Nat → List Nat}

/-! ### The pairs of each call -/

def InTable (c : Nat × Nat) : Prop := c.1 < flIndexCount ∧ c.2 < slIndexCount

/-- The pair of `insert_block` and of `remove_block` for the block at `a`. -/
def blockPair (m : Memory) (a : Nat) : Nat × Nat := mappingInsert (blockSize m a)

/-- The pairs of `find_suitable`: where it starts, and the list it takes its block from. -/
def searchPairs (m : Memory) (t size : Nat) : List (Nat × Nat) := mappingSearch size :: (suitableList m t size).toList

def takePairs (t b size : Nat) (m : Memory) : List (Nat × Nat) :=
  let removed := blockPair m b
  let m := blockSetFree b false (removeBlock t b m)
  let split := splitBlock b size m
  if split.1 ≠ 0 then
    let m := blockWriteFooter split.1 (blockSetFree split.1 true split.2)
    [removed, blockPair (blockSetPrevFree (blockPhysNext m split.1) true m) split.1]
  else [removed]

def mallocPairs (t n : Nat) (m : Memory) : List (Nat × Nat) :=
  if t = 0 ∨ n = 0 then []
  else
    let size := wrap32 (requestSize n)
    let b := findSuitable m t size
    if b = 0 then searchPairs m t size else searchPairs m t size ++ takePairs t b size m

def coalescePrevPairs (b : Nat) (m : Memory) : List (Nat × Nat) := if blockPrevFree m b then [blockPair m (blockPhysPrev m b)] else []

def coalesceNextPairs (b : Nat) (m : Memory) : List (Nat × Nat) :=
  if blockIsFree m (blockPhysNext m b) then [blockPair m (blockPhysNext m b)] else []

def freePairs (t ptr : Nat) (m : Memory) : List (Nat × Nat) :=
  if t = 0 ∨ ptr = 0 then []
  else
    let b := ptrToBlock ptr
    let m := blockWriteFooter b (blockSetFree b true m)
    let merged := coalescePrev t b m
    let m' := coalesceNext t merged.1 merged.2
    let m' := blockWriteFooter merged.1 (blockSetPrevFree (blockPhysNext m' merged.1) true m')
    coalescePrevPairs b m ++ coalesceNextPairs merged.1 merged.2 ++ [blockPair m' merged.1]

def poolPairs (mem size : Nat) (m : Memory) : List (Nat × Nat) := if size < poolMin then [] else [blockPair (poolHeaders mem size m) mem]

def callPairs (s : TlsfState) : TlsfOp → List (Nat × Nat)
  | .create mem size =>
      if mem = 0 ∨ size < controlSize + 64 then [] else poolPairs (mem + controlSize) (size - controlSize) (controlClear mem s.mem)
  | .addPool t mem size => if t = 0 ∨ mem = 0 then [] else poolPairs mem size s.mem
  | .malloc t n => mallocPairs t n s.mem
  | .free t ptr => freePairs t ptr s.mem
  | .write _ => []

/-! ### `tlsf_free` -/

theorem inTable_of_lt {s : Nat} (hs : s < 2 ^ 25) : InTable (mappingInsert s) := ⟨mappingInsert_fl_lt_iff.mpr hs, mappingInsert_sl_lt s⟩

theorem inTable_mappingInsert {s : Nat} : InTable (mappingInsert s) ↔ s < 2 ^ 25 :=
  ⟨fun hin => mappingInsert_fl_lt_iff.mp hin.1, inTable_of_lt⟩

theorem Open.coalescePrevPairs_in (h : Open m t before x after p lists) : ∀ c ∈ coalescePrevPairs x.addr m, InTable c := by
  intro c hc
  rw [coalescePrevPairs, h.header.prevFree] at hc
  rcases before.eq_nil_or_concat' with rfl | ⟨before, b, rfl⟩
  · simp [lastFree] at hc
  · rw [lastFree_append_singleton] at hc
    split at hc
    · next hb =>
        obtain ⟨-, hheader, hprev⟩ := h.prev_block hb
        rw [List.mem_singleton.mp hc, hprev, blockPair, hheader.size]
        exact inTable_of_lt (h.small b (by simp))
    · simp at hc

theorem Open.coalesceNextPairs_in (h : Open m t before x after p lists) : ∀ c ∈ coalesceNextPairs x.addr m, InTable c := by
  intro c hc
  obtain ⟨n, rest, rfl, hnext⟩ := h.layout.next_block h.used
  have hphys : blockPhysNext m x.addr = n.addr := by
    rw [blockPhysNext, h.header.size, hnext, TlsfBlock.fin]
  rw [coalesceNextPairs, hphys] at hc
  split at hc
  · rw [List.mem_singleton.mp hc, blockPair, h.tagsRight.head.size]
    exact inTable_of_lt (h.small n (by simp))
  · simp at hc

theorem freePairs_eq {a : Nat} (ht : t ≠ 0) :
    freePairs t (blockToPtr a) m = coalescePrevPairs a (freeMarked a m) ++ coalesceNextPairs (freeMerged t a m).1 (freeMerged t a m).2 ++
      [blockPair (freeClosed t a m) (freeMerged t a m).1] := by
  have hptr : ¬(t = 0 ∨ blockToPtr a = 0) := by
    rw [blockToPtr, hdrSize]
    omega
  rw [freePairs, if_neg hptr, show ptrToBlock (blockToPtr a) = a from Nat.add_sub_cancel ..]
  rfl

/-- A block that is freed indexes the tables with its neighbours and with what it is joined to. -/
theorem Represents.freePairs_in (hrep : Represents m h) (hblocks : h.blocks = before ++ (b :: after)) (hused : b.free = false) (hne : b.size ≠ 0)
    (hsize : (freed before b after).2.1.size < 2 ^ 25) : ∀ c ∈ freePairs h.t (blockToPtr b.addr) m, InTable c := by
  have hfreeing := hrep.freeing hblocks hused hne
  obtain ⟨lists₁, hmarked⟩ := hfreeing.marked
  obtain ⟨lists₂, hjoined⟩ := hfreeing.joined
  obtain ⟨lists₃, hclosed⟩ := hfreeing.closed
  intro c hc
  rw [freePairs_eq h.pos] at hc
  simp only [List.mem_append, List.mem_singleton] at hc
  rcases hc with (hc | hc) | rfl
  · exact hmarked.coalescePrevPairs_in c hc
  · rw [hfreeing.merged] at hc
    exact hjoined.coalesceNextPairs_in c hc
  · rw [blockPair, ← hfreeing.addr, hclosed.header.size]
    exact inTable_of_lt hsize

/-! ### `pool_add` -/

/-- The size `pool_add` files its block under. A block without payload has its footer in place of its header. -/
def pooledSize (mem size : Nat) : Nat := if poolBlockSize size = 0 then wrap32 mem / 4 * 4 else poolBlockSize size

theorem poolHeaders_size {mem : Nat} (hsize : poolMin ≤ size) (hfits : mem + size ≤ 2 ^ 64) :
    blockSize (poolHeaders mem size m) mem = pooledSize mem size := by
  have hmod := poolBlockSize_mod size
  rw [pooledSize]
  split
  · next hzero =>
      have hempty : Header (m.store mem 4 0) mem 0 false false := Header.store (by decide) (by decide) _ rfl
      have hheader := ((hempty.setSize (s := 0) rfl (by decide)).setFree (f := true)).setPrevFree (f := false)
      rw [poolHeaders, hzero]
      generalize blockSetPrevFree mem false (blockSetFree mem true (blockSetSize mem 0 (m.store mem 4 0))) = m₁ at *
      have hfooter : blockFooter m₁ mem = mem := by
        rw [blockFooter, hheader.size]
        rfl
      have hword : (blockWriteFooter mem m₁).load mem 4 = wrap32 mem := by
        rw [blockWriteFooter, hfooter]
        exact Memory.load_store_low m₁ (by decide)
      generalize blockWriteFooter mem m₁ = m₂ at *
      have hnext : mem + 8 ≤ blockPhysNext m₂ mem := by
        rw [blockPhysNext, hdrSize]
        omega
      rw [blockSize, blockSetPrevFree, Memory.load_store_of_disjoint _ (by omega), Memory.load_store_of_disjoint _ (by omega), hword]
  · next hne => exact (poolHeaders_spec hsize (by omega) hfits).1.size

theorem poolPairs_in {mem : Nat} (hfits : mem + size ≤ 2 ^ 64) :
    (∀ c ∈ poolPairs mem size m, InTable c) ↔ size < poolMin ∨ pooledSize mem size < 2 ^ 25 := by
  rw [poolPairs]
  split
  · next hsmall => simp [hsmall]
  · next hlarge =>
      simp only [List.mem_singleton, forall_eq, blockPair, poolHeaders_size (Nat.not_lt.mp hlarge) hfits, inTable_mappingInsert, hlarge, false_or]

/-! ### `tlsf_malloc` -/

/-- A block taken whole, or with a rest, indexes the tables with its own size and that of the rest. -/
theorem takePairs_eq {bs : Nat} (hheader : Header (blockSetFree b.addr false (removeBlock t b.addr m)) b.addr bs false p) (hmod : size % 4 = 0)
    (hword : size < 2 ^ 32) :
    takePairs t b.addr size m =
      if splitRemain bs size < blockMin then [blockPair m b.addr] else [blockPair m b.addr, mappingInsert (splitRemain bs size)] := by
  rw [takePairs]
  dsimp only
  by_cases hremain : splitRemain bs size < blockMin
  · have hnone : splitBlock b.addr size (blockSetFree b.addr false (removeBlock t b.addr m)) =
        (0, blockSetFree b.addr false (removeBlock t b.addr m)) := by
      rw [splitBlock, hheader.size]
      exact if_pos hremain
    rw [hnone, if_pos hremain]
    rfl
  · obtain ⟨hfst, -, hrest, -⟩ := splitBlock_rest hheader hmod hword (Nat.not_lt.mp hremain)
    have hclosed := ((hrest.setFree (f := true)).closeRest (Nat.not_lt.mp hremain)).1
    rw [hfst, if_pos (by rw [hdrSize]; omega), if_neg hremain, blockPair, blockPair, hclosed.size]

/-- The sizes whose search stays inside the tables: those that `mapping_search` rounds up to less than 2^25, or past 2^32 to less than 2^25. -/
def SearchFits (size : Nat) : Prop := size ≤ requestMax ∨ 2 ^ 32 - 2 ^ 27 < size ∧ size ≤ 2 ^ 32 - 2 ^ 27 + 2 ^ 25

theorem inTable_mappingSearch (hword : size < 2 ^ 32) : InTable (mappingSearch size) ↔ SearchFits size := by
  rcases Nat.lt_or_ge size 16 with hsmall | hlarge
  · have hsearch : mappingSearch size = mappingInsert size := by
      rw [mappingSearch, if_neg (by rw [slIndexBits]; omega)]
    rw [hsearch, inTable_mappingInsert, SearchFits, requestMax]
    omega
  · rw [SearchFits, ← mappingSearch_fl_lt_iff hlarge hword, InTable]
    exact and_iff_left (mappingSearch_sl_lt size)

theorem Represents.searchPairs_in (hrep : Represents m h) (hin : InTable (mappingSearch size)) : ∀ c ∈ searchPairs m h.t size, InTable c := by
  intro c hc
  rw [searchPairs, List.mem_cons, Option.mem_toList] at hc
  rcases hc with rfl | hlist
  · exact hin
  · exact hrep.indexed.range c.1 c.2 (suitableList_some hrep.indexed.marked hin.1 hlist).2

theorem mappingSearch_mem_mallocPairs (ht : t ≠ 0) (hn : n ≠ 0) : mappingSearch (wrap32 (requestSize n)) ∈ mallocPairs t n m := by
  rw [mallocPairs, if_neg (not_or.mpr ⟨ht, hn⟩)]
  dsimp only
  split
  · exact List.mem_cons_self
  · exact List.mem_append_left _ List.mem_cons_self

theorem splitRemain_lt_iff {bs : Nat} (hbs : bs < 2 ^ 25) (hfits : SearchFits size) :
    splitRemain bs size < 2 ^ 25 ↔ size ≤ requestMax ∧ size + hdrSize ≤ bs := by
  rw [SearchFits, requestMax] at hfits
  rw [splitRemain, wrap32, hdrSize, requestMax]
  omega

theorem Represents.mallocPairs_in (hrep : Represents m h) (hn : n ≠ 0) :
    (∀ c ∈ mallocPairs h.t n m, InTable c) ↔
      SearchFits (wrap32 (requestSize n)) ∧ findSuitable m h.t (wrap32 (requestSize n)) = 0 ∨
        wrap32 (requestSize n) ≤ requestMax ∧
          wrap32 (requestSize n) + hdrSize ≤ blockSize m (findSuitable m h.t (wrap32 (requestSize n))) := by
  have hword := wrap32_lt (requestSize n)
  have hmod := wrap32_requestSize_mod n
  have hmem := mappingSearch_mem_mallocPairs (m := m) h.pos hn
  rw [mallocPairs, if_neg (not_or.mpr ⟨h.pos, hn⟩)] at hmem ⊢
  dsimp only at hmem ⊢
  generalize wrap32 (requestSize n) = r at *
  have hfirst := inTable_mappingSearch hword
  by_cases hfits : SearchFits r
  · have hsearch := hrep.searchPairs_in (hfirst.mpr hfits)
    by_cases hnone : findSuitable m h.t r = 0
    · rw [if_pos hnone]
      exact iff_of_true hsearch (Or.inl ⟨hfits, hnone⟩)
    · obtain ⟨b, hb, hfree, haddr, -⟩ := hrep.findSuitable_block (hfirst.mpr hfits).1 hnone
      obtain ⟨before, after, hblocks⟩ := List.append_of_mem hb
      obtain ⟨⟨lists', hused⟩, -⟩ := hrep.takeUsed hblocks hfree
      have hsmall := h.small b hb
      have hsize := (hrep.tagged.header hb).1
      rw [if_neg hnone, ← haddr, hsize, ← splitRemain_lt_iff hsmall hfits, takePairs_eq hused.header (by omega) hword]
      have hremoved : InTable (blockPair m b.addr) := by
        rw [blockPair, hsize]
        exact inTable_of_lt hsmall
      have hnot : ¬(SearchFits r ∧ b.addr = 0) := fun hzero => hnone (haddr ▸ hzero.2)
      rw [or_iff_right hnot, List.forall_mem_append, and_iff_right hsearch]
      split
      · next hremain =>
          refine iff_of_true (fun c hc => ?_) (Nat.lt_trans hremain (by decide))
          rwa [List.mem_singleton.mp hc]
      · simp only [List.mem_cons, List.not_mem_nil, or_false, forall_eq_or_imp, forall_eq, inTable_mappingInsert, hremoved, true_and]
  · refine iff_of_false (fun hall => hfits (hfirst.mp (hall _ hmem))) ?_
    · rintro (⟨hin, -⟩ | ⟨hle, -⟩)
      · exact hfits hin
      · exact hfits (Or.inl hle)

/-! ### Every call in every state -/

/-- Calls with any size, in memory that no heap has. -/
def AnyCall (s : TlsfState) : TlsfOp → Prop
  | .create mem size => Fresh s mem size
  | .addPool t mem size => s.held t ≠ none ∧ Fresh s mem size
  | .malloc t size => s.held t ≠ none ∧ size < 2 ^ 64
  | .free t ptr => ∃ k, s.held t = some k ∧ ptr ∈ k.live
  | .write _ => True

/-- The calls whose pairs stay inside the tables. -/
def FitsTable (s : TlsfState) : TlsfOp → Prop
  | .create mem size => mem = 0 ∨ size < controlSize + 64 ∨ pooledSize (mem + controlSize) (size - controlSize) < 2 ^ 25
  | .addPool _ mem size => mem = 0 ∨ size < poolMin ∨ pooledSize mem size < 2 ^ 25
  | .malloc t n => n = 0 ∨ SearchFits (wrap32 (requestSize n)) ∧ findSuitable s.mem t (wrap32 (requestSize n)) = 0 ∨
      wrap32 (requestSize n) ≤ requestMax ∧
        wrap32 (requestSize n) + hdrSize ≤ blockSize s.mem (findSuitable s.mem t (wrap32 (requestSize n)))
  | .free _ _ => True
  | .write _ => True

theorem TlsfInv.callPairs_in {s : TlsfState} (hinv : TlsfInv s) (op : TlsfOp) (hcall : AnyCall s op) :
    (∀ c ∈ callPairs s op, InTable c) ↔ FitsTable s op := by
  cases op with
  | create mem size =>
      have hfits := hcall.1
      rw [callPairs, FitsTable]
      split
      · next hnone => simp [or_assoc.symm, hnone]
      · next hrun =>
          rw [not_or, Nat.not_lt] at hrun
          rw [poolPairs_in (by omega), or_iff_right (a := size - controlSize < poolMin) (by rw [show poolMin = 52 from rfl]; omega)]
          simp only [hrun.1, Nat.not_lt.mpr hrun.2, false_or]
  | addPool t mem size =>
      obtain ⟨hheld, hfits, -⟩ := hcall
      obtain ⟨k, hk⟩ := Option.ne_none_iff_exists'.mp hheld
      obtain ⟨h, hbooked⟩ := hinv.booked t k hk
      have ht : t ≠ 0 := hbooked.control ▸ h.pos
      rw [callPairs, FitsTable]
      by_cases hmem : mem = 0
      · rw [if_pos (Or.inr hmem)]
        simp [hmem]
      · rw [if_neg (not_or.mpr ⟨ht, hmem⟩), poolPairs_in hfits, or_iff_right hmem]
  | malloc t n =>
      obtain ⟨k, hk⟩ := Option.ne_none_iff_exists'.mp hcall.1
      obtain ⟨h, hbooked⟩ := hinv.booked t k hk
      have ht := hbooked.control
      subst ht
      rw [callPairs, FitsTable]
      by_cases hn : n = 0
      · rw [mallocPairs, if_pos (Or.inr hn)]
        simp [hn]
      · rw [hbooked.represents.mallocPairs_in hn, or_iff_right hn]
  | free t ptr =>
      obtain ⟨k, hk, hptr⟩ := hcall
      obtain ⟨h, hbooked⟩ := hinv.booked t k hk
      obtain ⟨b, hb, hused, hne, rfl⟩ := (hbooked.live ptr).mp hptr
      obtain ⟨before, after, hblocks⟩ := List.append_of_mem hb
      have hsmall := hbooked.freed_small hblocks hused hne
      have ht := hbooked.control
      subst ht
      exact iff_of_true (hbooked.represents.freePairs_in hblocks hused hne hsmall) trivial
  | write mem => exact iff_of_true (by simp [callPairs]) trivial

/-- After every run that keeps the heaps well-formed, the next call stays inside the tables exactly when its sizes fit them. -/
theorem tlsf_pairs_in_table (m : Memory) (ops : List TlsfOp) (op : TlsfOp)
    (hcalls : Lib.Allowed (fun s op => CallOk s op ∧ MallocOk s op) tlsfStep ⟨m, fun _ => none⟩ ops)
    (hcall : AnyCall (Lib.run tlsfStep ⟨m, fun _ => none⟩ ops) op) :
    (∀ c ∈ callPairs (Lib.run tlsfStep ⟨m, fun _ => none⟩ ops) op, InTable c) ↔ FitsTable (Lib.run tlsfStep ⟨m, fun _ => none⟩ ops) op := by
  have hstep : ∀ s op, TlsfInv s → CallOk s op ∧ MallocOk s op → TlsfInv (tlsfStep s op) := fun s op hinv hop => tlsfStep_inv op hinv hop.1 hop.2
  exact (Lib.run_invariant hstep (tlsfInv_start m) hcalls).callPairs_in op hcall

theorem tlsf_pairs_in_table_served : mappingSearch (wrap32 (requestSize 100)) ∈ callPairs freshHeap (.malloc 4096 100) ∧
    ∀ c ∈ callPairs freshHeap (.malloc 4096 100), InTable c := by
  refine ⟨mappingSearch_mem_mallocPairs (by decide) (by decide), ?_⟩
  refine (tlsf_pairs_in_table _ [.create 4096 8192] (.malloc 4096 100) ⟨⟨freshHeap_call, trivial⟩, trivial⟩ ⟨freshHeap_held, by decide⟩).mpr ?_
  rcases freshHeap_takes with hnone | ⟨-, -, hfit⟩
  · exact Or.inr (Or.inl ⟨Or.inl (by decide), hnone⟩)
  · exact Or.inr (Or.inr ⟨by decide, hfit⟩)

/-- A request of 32 MiB starts its search one row behind the tables. -/
theorem tlsf_pairs_past_table :
    ¬∀ (m : Memory) (ops : List TlsfOp) (op : TlsfOp), Lib.Allowed (fun s op => CallOk s op ∧ MallocOk s op) tlsfStep ⟨m, fun _ => none⟩ ops →
      AnyCall (Lib.run tlsfStep ⟨m, fun _ => none⟩ ops) op →
        ∀ c ∈ callPairs (Lib.run tlsfStep ⟨m, fun _ => none⟩ ops) op, InTable c := by
  intro hall
  have hpair := hall _ [.create 4096 8192] (.malloc 4096 (2 ^ 25)) ⟨⟨freshHeap_call, trivial⟩, trivial⟩ ⟨freshHeap_held, by decide⟩ _
    (mappingSearch_mem_mallocPairs (by decide) (by decide))
  exact absurd hpair.1 (by decide)

end Tsukasa
