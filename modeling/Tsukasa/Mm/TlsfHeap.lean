import Tsukasa.Mm.TlsfIndex
import Tsukasa.Lib.Segments

/-!
# Well-formed heaps

A heap as the allocator means it: the blocks of all pools in the order they lie in memory, each pool closed by its sentinel of size 0, and the lists its free blocks are filed on. A memory represents such a heap when headers, footers and the control structure say the same.
-/

namespace Tsukasa

open Lib (Memory)

structure TlsfBlock where
  addr : Nat
  size : Nat
  free : Bool
  deriving DecidableEq, Repr

namespace TlsfBlock

/-- The address behind the payload. -/
def fin (b : TlsfBlock) : Nat := b.addr + hdrSize + b.size

/-- Blocks that share no byte. -/
def Apart (b c : TlsfBlock) : Prop := b.fin ≤ c.addr ∨ c.fin ≤ b.addr

instance : Std.Symm Apart := ⟨fun _ _ h => h.symm⟩

/-- A block that is not a sentinel begins where the one before it ends. -/
def Next (b c : TlsfBlock) : Prop := b.size ≠ 0 → c.addr = b.fin

def NotBothFree (b c : TlsfBlock) : Prop := b.free = true → c.free = false

end TlsfBlock

variable {m m' : Memory} {t : Nat} {before after blocks g r : List TlsfBlock} {b c x : TlsfBlock} {lists : Nat → Nat → List Nat}

/-! ### The layout of the blocks -/

/-- The blocks tile their pools, in memory that is not the control structure's. -/
structure Layout (t : Nat) (blocks : List TlsfBlock) : Prop where
  sizes : ∀ b ∈ blocks, b.size = 0 ∧ b.free = false ∨ blockMin ≤ b.size ∧ b.size % 4 = 0
  next : blocks.IsChain TlsfBlock.Next
  last : ∀ b ∈ blocks.getLast?, b.size = 0
  apart : blocks.Pairwise TlsfBlock.Apart
  room : ∀ b ∈ blocks, 0 < b.addr ∧ b.fin < 2 ^ 64 ∧ (b.fin ≤ t ∨ t + controlSize ≤ b.addr)

namespace Layout

theorem apart_of_ne (h : Layout t blocks) (hb : b ∈ blocks) (hc : c ∈ blocks) (hne : b ≠ c) : b.fin ≤ c.addr ∨ c.fin ≤ b.addr :=
  h.apart.forall hb hc hne

theorem addr_inj (h : Layout t blocks) (hb : b ∈ blocks) (hc : c ∈ blocks) (heq : b.addr = c.addr) : b = c := by
  by_contra hne
  have hapart := h.apart_of_ne hb hc hne
  simp only [TlsfBlock.fin, hdrSize] at hapart
  omega

/-- A contiguous segment is replaced by another one that covers the same bytes. -/
theorem replace (h : Layout t (before ++ (g ++ after))) (hg : g ≠ []) (hr : r ≠ [])
    (hsizes : ∀ b ∈ r, blockMin ≤ b.size ∧ b.size % 4 = 0) (hnext : r.IsChain TlsfBlock.Next) (hapart : r.Pairwise TlsfBlock.Apart)
    (hfirst : ∀ b ∈ g.head?, ∀ b' ∈ r.head?, b'.addr = b.addr)
    (hend : ∀ b ∈ g.getLast?, ∀ b' ∈ r.getLast?, b.size ≠ 0 ∧ b'.fin = b.fin)
    (hspan : ∀ lo hi, lo < hi → (∀ b ∈ g, b.fin ≤ lo ∨ hi ≤ b.addr) → ∀ b' ∈ r, b'.fin ≤ lo ∨ hi ≤ b'.addr)
    (hroom : ∀ b' ∈ r, ∃ b ∈ g, ∃ c ∈ g, b.addr ≤ b'.addr ∧ b'.fin ≤ c.fin) : Layout t (before ++ (r ++ after)) := by
  have hfin : ∀ b : TlsfBlock, b.addr < b.fin := fun b => by
    rw [TlsfBlock.fin, hdrSize]
    omega
  refine ⟨fun b hb => ?_, ?_, fun b hb => ?_, ?_, fun b hb => ?_⟩
  · simp only [List.mem_append] at hb
    rcases hb with hb | hb | hb
    · exact h.sizes b (by simp [hb])
    · exact Or.inr (hsizes b hb)
    · exact h.sizes b (by simp [hb])
  · refine Lib.Segments.isChain_replace h.next hg hr hnext (fun a _ b hb hab b' hb' hne => ?_) fun c _ b hb hbc b' hb' _ => ?_
    · rw [hfirst b hb b' hb', hab hne]
    · obtain ⟨hne, heq⟩ := hend b hb b' hb'
      rw [heq, hbc hne]
  · have hafter : after ≠ [] := by
      rintro rfl
      have hlast : g.getLast hg ∈ g.getLast? := List.getLast?_eq_some_getLast hg
      have hlast' : r.getLast hr ∈ r.getLast? := List.getLast?_eq_some_getLast hr
      refine (hend _ hlast _ hlast').1 (h.last _ ?_)
      rw [List.append_nil, List.getLast?_append_of_ne_nil _ hg]
      exact hlast
    have hold := h.last b
    rw [← List.append_assoc, List.getLast?_append_of_ne_nil _ hafter] at hb hold
    exact hold hb
  · refine Lib.Segments.pairwise_replace h.apart hapart (fun a ha b' hb' => ?_) fun c hc b' hb' => ?_
    · exact (hspan a.addr a.fin (hfin a) (fun b hb => (ha b hb).symm) b' hb').symm
    · exact hspan c.addr c.fin (hfin c) hc b' hb'
  · simp only [List.mem_append] at hb
    rcases hb with hb | hb | hb
    · exact h.room b (by simp [hb])
    · obtain ⟨d, hd, e, he, hlo, hhi⟩ := hroom b hb
      have hd' := h.room d (by simp [hd])
      have he' := h.room e (by simp [he])
      refine ⟨by omega, by omega, ?_⟩
      have hne : t < t + controlSize := Nat.lt_add_of_pos_right (by decide)
      exact hspan t (t + controlSize) hne (fun b hb => (h.room b (by simp [hb])).2.2) b ‹_›
    · exact h.room b (by simp [hb])

theorem setFree (h : Layout t (before ++ (b :: after))) (hne : b.size ≠ 0) (f : Bool) :
    Layout t (before ++ ({ b with free := f } :: after)) := by
  have hb : b ∈ before ++ (b :: after) := by simp
  have hsize := (h.sizes b hb).resolve_left fun hs => hne hs.1
  refine h.replace (g := [b]) (r := [{ b with free := f }]) (by simp) (by simp) (by simpa using hsize) (List.isChain_singleton _)
    (List.pairwise_singleton _ _) (by simp) (by simpa [TlsfBlock.fin] using hne) ?_ (by simp [TlsfBlock.fin])
  simp [TlsfBlock.fin]

/-- Two neighbours become one block, with the header of the second as payload. -/
theorem merge (h : Layout t (before ++ (b :: c :: after))) (hb : b.size ≠ 0) (hc : c.size ≠ 0) (f : Bool) :
    Layout t (before ++ (⟨b.addr, b.size + hdrSize + c.size, f⟩ :: after)) := by
  have hbs := (h.sizes b (by simp)).resolve_left fun hs => hb hs.1
  have hcs := (h.sizes c (by simp)).resolve_left fun hs => hc hs.1
  have hnext : c.addr = b.fin := by
    have hchain := h.next
    rw [List.isChain_append, List.isChain_cons_cons] at hchain
    exact hchain.2.1.1 hb
  simp only [TlsfBlock.fin, hdrSize, blockMin] at *
  refine h.replace (g := [b, c]) (r := [⟨b.addr, b.size + 8 + c.size, f⟩]) (by simp) (by simp) ?_ (List.isChain_singleton _)
    (List.pairwise_singleton _ _) (by simp) ?_ ?_ ?_
  all_goals simp only [List.mem_cons, List.not_mem_nil, or_false, forall_eq, forall_eq_or_imp, List.getLast?_cons_cons, List.getLast?_singleton,
    Option.mem_some, exists_eq_or_imp, exists_eq_left, TlsfBlock.fin, hdrSize, blockMin]
  all_goals first | omega | skip
  · rintro _ rfl _ rfl
    exact ⟨hc, by simp only; omega⟩

/-- A block becomes two, with the header of the second taken out of the payload. -/
theorem split (h : Layout t (before ++ (b :: after))) {size : Nat} (hmin : blockMin ≤ size) (hmod : size % 4 = 0)
    (hrest : size + hdrSize + blockMin ≤ b.size) (f f' : Bool) :
    Layout t (before ++ (⟨b.addr, size, f⟩ :: ⟨b.addr + hdrSize + size, b.size - size - hdrSize, f'⟩ :: after)) := by
  simp only [hdrSize, blockMin] at *
  have hbs := (h.sizes b (by simp)).resolve_left fun hs => by omega
  refine h.replace (g := [b]) (r := [⟨b.addr, size, f⟩, ⟨b.addr + 8 + size, b.size - size - 8, f'⟩]) (by simp) (by simp) ?_ ?_ ?_ (by simp) ?_ ?_ ?_
  all_goals simp only [List.mem_cons, List.not_mem_nil, or_false, forall_eq, forall_eq_or_imp, List.getLast?_cons_cons, List.getLast?_singleton,
    Option.mem_some, exists_eq_left, TlsfBlock.fin, hdrSize, blockMin, List.isChain_cons_cons, List.isChain_singleton, TlsfBlock.Next,
    List.pairwise_cons, List.Pairwise.nil, and_true, TlsfBlock.Apart, IsEmpty.forall_iff, implies_true]
  all_goals first | omega | skip
  · rintro _ rfl _ rfl
    exact ⟨by omega, by simp only; omega⟩

end Layout

/-! ### Pools -/

/-- The pools of the blocks, each by the address of its first block and the address of its sentinel. `first` is where the pool begins that `blocks` goes on with. -/
def poolsFrom (first : Option Nat) : List TlsfBlock → List (Nat × Nat)
  | [] => []
  | b :: blocks =>
      if b.size = 0 then (first.getD b.addr, b.addr) :: poolsFrom none blocks else poolsFrom (some (first.getD b.addr)) blocks

theorem poolsFrom_sentinel (first : Option Nat) (hb : b.size = 0) :
    poolsFrom first (b :: blocks) = (first.getD b.addr, b.addr) :: poolsFrom none blocks := if_pos hb

theorem poolsFrom_block (first : Option Nat) (hb : b.size ≠ 0) : poolsFrom first (b :: blocks) = poolsFrom (some (first.getD b.addr)) blocks :=
  if_neg hb

theorem poolsFrom_middle (h : ∀ first, poolsFrom first g = poolsFrom first r) (first : Option Nat) :
    poolsFrom first (before ++ g) = poolsFrom first (before ++ r) := by
  induction before generalizing first with
  | nil => exact h first
  | cons b before ih => simp only [List.cons_append, poolsFrom, ih]

theorem poolsFrom_setFree (first : Option Nat) (f : Bool) :
    poolsFrom first (before ++ ({ b with free := f } :: after)) = poolsFrom first (before ++ (b :: after)) := by
  refine poolsFrom_middle (fun _ => ?_) first
  rfl

theorem poolsFrom_merge (first : Option Nat) (hb : b.size ≠ 0) (hc : c.size ≠ 0) {size : Nat} (hsize : size ≠ 0) (f : Bool) :
    poolsFrom first (before ++ (⟨b.addr, size, f⟩ :: after)) = poolsFrom first (before ++ (b :: c :: after)) := by
  refine poolsFrom_middle (fun first => ?_) first
  simp only [poolsFrom, if_neg hb, if_neg hc, if_neg hsize, Option.getD_some]

/-- A list of blocks that ends with a sentinel has its own pools. -/
theorem poolsFrom_append (first : Option Nat) (hlast : ∀ b ∈ before.getLast?, b.size = 0) (hne : before ≠ []) :
    poolsFrom first (before ++ after) = poolsFrom first before ++ poolsFrom none after := by
  induction before generalizing first with
  | nil => exact absurd rfl hne
  | cons b before ih =>
      cases before with
      | nil =>
          have hb := hlast b rfl
          simp only [List.cons_append, List.nil_append, poolsFrom, if_pos hb]
      | cons c before =>
          rw [List.getLast?_cons_cons] at hlast
          have hrest := fun first => ih first hlast (by simp)
          by_cases hb : b.size = 0
          · rw [List.cons_append, poolsFrom_sentinel _ hb, poolsFrom_sentinel _ hb, hrest, List.cons_append]
          · rw [List.cons_append, poolsFrom_block _ hb, poolsFrom_block _ hb, hrest]

theorem getLast?_of_cons (h : ∀ d ∈ (c :: blocks).getLast?, d.size = 0) (hc : c.size ≠ 0) :
    ∃ n rest, blocks = n :: rest ∧ ∀ d ∈ blocks.getLast?, d.size = 0 := by
  cases blocks with
  | nil => exact absurd (h c rfl) hc
  | cons n rest =>
      rw [List.getLast?_cons_cons] at h
      exact ⟨n, rest, rfl, h⟩

/-- The pool that `blocks` goes on with ends behind them. -/
theorem pool_goes_on (hnext : blocks.IsChain TlsfBlock.Next) (hlast : ∀ b ∈ blocks.getLast?, b.size = 0) (hne : blocks ≠ []) (first : Nat) :
    ∃ last, (first, last) ∈ poolsFrom (some first) blocks ∧ ∀ b ∈ blocks.head?, b.addr ≤ last := by
  induction blocks with
  | nil => exact absurd rfl hne
  | cons c blocks ih =>
      by_cases hc : c.size = 0
      · refine ⟨c.addr, ?_, fun b hb => ?_⟩
        · rw [poolsFrom_sentinel _ hc]
          exact List.mem_cons_self
        · rw [List.head?_cons, Option.mem_some] at hb
          rw [hb]
      · obtain ⟨n, rest, rfl, hlast'⟩ := getLast?_of_cons hlast hc
        rw [List.isChain_cons_cons] at hnext
        obtain ⟨last, hmem, hle⟩ := ih hnext.2 hlast' (by simp)
        refine ⟨last, ?_, fun b hb => ?_⟩
        · rw [poolsFrom_block _ hc]
          exact hmem
        · rw [List.head?_cons, Option.mem_some] at hb
          have hn := hle n rfl
          have hfin := hnext.1 hc
          rw [← hb]
          simp only [TlsfBlock.fin] at hfin
          omega

/-- A block that is no sentinel lies in one of the pools. -/
theorem exists_pool {first : Option Nat} (hnext : blocks.IsChain TlsfBlock.Next) (hlast : ∀ b ∈ blocks.getLast?, b.size = 0)
    (hfirst : ∀ a ∈ first, ∀ b ∈ blocks.head?, a ≤ b.addr) (hb : b ∈ blocks) (hne : b.size ≠ 0) :
    ∃ pool ∈ poolsFrom first blocks, pool.1 ≤ b.addr ∧ b.fin ≤ pool.2 := by
  induction blocks generalizing first with
  | nil => simp at hb
  | cons c blocks ih =>
      have hle : first.getD c.addr ≤ c.addr := by
        cases first with
        | none => exact Nat.le_refl _
        | some a => exact hfirst a rfl c rfl
      by_cases hc : c.size = 0
      · have hb' : b ∈ blocks := (List.mem_cons.mp hb).resolve_left fun h => hne (h ▸ hc)
        have hblocks : blocks ≠ [] := List.ne_nil_of_mem hb'
        have hlast' : ∀ d ∈ blocks.getLast?, d.size = 0 := by
          cases blocks with
          | nil => exact absurd rfl hblocks
          | cons n rest => rwa [List.getLast?_cons_cons] at hlast
        have hrest : ∃ pool ∈ poolsFrom none blocks, pool.1 ≤ b.addr ∧ b.fin ≤ pool.2 := ih hnext.of_cons hlast' (by simp) hb'
        obtain ⟨pool, hpool, hbounds⟩ := hrest
        refine ⟨pool, ?_, hbounds⟩
        rw [poolsFrom_sentinel _ hc]
        exact List.mem_cons_of_mem _ hpool
      · obtain ⟨n, rest, rfl, hlast'⟩ := getLast?_of_cons hlast hc
        rw [List.isChain_cons_cons] at hnext
        have hfin := hnext.1 hc
        rw [poolsFrom_block _ hc]
        rcases List.mem_cons.mp hb with rfl | hb'
        · obtain ⟨last, hmem, hbehind⟩ := pool_goes_on hnext.2 hlast' (by simp) (first.getD b.addr)
          exact ⟨_, hmem, hle, hfin ▸ hbehind n rfl⟩
        · refine ih hnext.2 hlast' (fun a ha d hd => ?_) hb'
          rw [Option.mem_some] at ha
          rw [List.head?_cons, Option.mem_some] at hd
          subst hd
          simp only [TlsfBlock.fin] at hfin
          omega

/-- A sentinel closes one of the pools. -/
theorem exists_pool_of_sentinel {first : Option Nat} (hnext : blocks.IsChain TlsfBlock.Next)
    (hfirst : ∀ a ∈ first, ∀ b ∈ blocks.head?, a ≤ b.addr) (hb : b ∈ blocks) (hzero : b.size = 0) :
    ∃ pool ∈ poolsFrom first blocks, pool.1 ≤ b.addr ∧ b.addr = pool.2 := by
  induction blocks generalizing first with
  | nil => simp at hb
  | cons c blocks ih =>
      have hle : first.getD c.addr ≤ c.addr := by
        cases first with
        | none => exact Nat.le_refl _
        | some a => exact hfirst a rfl c rfl
      by_cases hc : c.size = 0
      · rw [poolsFrom_sentinel _ hc]
        rcases List.mem_cons.mp hb with rfl | hb'
        · exact ⟨_, List.mem_cons_self, hle, rfl⟩
        · have hrest : ∃ pool ∈ poolsFrom none blocks, pool.1 ≤ b.addr ∧ b.addr = pool.2 := ih hnext.of_cons (by simp) hb'
          obtain ⟨pool, hpool, hbounds⟩ := hrest
          exact ⟨pool, List.mem_cons_of_mem _ hpool, hbounds⟩
      · have hb' : b ∈ blocks := (List.mem_cons.mp hb).resolve_left fun h => hc (h ▸ hzero)
        rw [poolsFrom_block _ hc]
        refine ih hnext.of_cons (fun a ha d hd => ?_) hb'
        rw [List.isChain_cons] at hnext
        have hfin := hnext.1 d hd hc
        rw [Option.mem_some] at ha
        simp only [TlsfBlock.fin] at hfin
        omega

/-- Every block lies between the first block and the end of the sentinel of a pool. -/
theorem Layout.in_pool (h : Layout t blocks) (hb : b ∈ blocks) :
    ∃ pool ∈ poolsFrom none blocks, pool.1 ≤ b.addr ∧ b.fin ≤ pool.2 + hdrSize := by
  by_cases hzero : b.size = 0
  · have hin : ∃ pool ∈ poolsFrom none blocks, pool.1 ≤ b.addr ∧ b.addr = pool.2 := exists_pool_of_sentinel h.next (by simp) hb hzero
    obtain ⟨pool, hpool, hlo, hhi⟩ := hin
    refine ⟨pool, hpool, hlo, ?_⟩
    rw [TlsfBlock.fin, hzero, hhi]
    omega
  · have hin : ∃ pool ∈ poolsFrom none blocks, pool.1 ≤ b.addr ∧ b.fin ≤ pool.2 := exists_pool h.next h.last (by simp) hb hzero
    obtain ⟨pool, hpool, hlo, hhi⟩ := hin
    exact ⟨pool, hpool, hlo, by omega⟩

/-! ### Headers and footers -/

/-- What the header at `a` says: the size of the block, its own bit and the bit of the block before it. -/
structure Header (m : Memory) (a size : Nat) (free prev : Bool) : Prop where
  size : blockSize m a = size
  isFree : blockIsFree m a = free
  prevFree : blockPrevFree m a = prev

section Header

variable {a size s : Nat} {free prev f : Bool}

theorem header_iff : Header m a size free prev ↔ m.load a 4 = size + 2 * prev.toNat + free.toNat ∧ size % 4 = 0 := by
  constructor
  · rintro ⟨rfl, rfl, rfl⟩
    have hfree : (blockIsFree m a).toNat = m.load a 4 % 2 := by
      rw [blockIsFree]
      rcases Nat.mod_two_eq_zero_or_one (m.load a 4) with h | h <;> simp [h]
    have hprev : (blockPrevFree m a).toNat = m.load a 4 / 2 % 2 := by
      rw [blockPrevFree]
      rcases Nat.mod_two_eq_zero_or_one (m.load a 4 / 2) with h | h <;> simp [h]
    rw [hfree, hprev, blockSize]
    omega
  · rintro ⟨hload, hmod⟩
    have hfree := Bool.toNat_lt free
    have hprev := Bool.toNat_lt prev
    refine ⟨?_, ?_, ?_⟩
    · rw [blockSize, hload]
      omega
    · rw [blockIsFree, hload]
      cases free <;> simp only [Bool.toNat_true, Bool.toNat_false, beq_iff_eq, beq_eq_false_iff_ne] <;> omega
    · rw [blockPrevFree, hload]
      cases prev <;> simp only [Bool.toNat_true, Bool.toNat_false, beq_iff_eq, beq_eq_false_iff_ne] <;> omega

namespace Header

theorem congr (h : Header m a size free prev) (hsame : ∀ y, a ≤ y → y < a + 4 → m' y = m y) : Header m' a size free prev := by
  rw [header_iff] at h ⊢
  rwa [Memory.load_congr hsame]

theorem store (hlt : size + 4 ≤ 2 ^ 32) (hmod : size % 4 = 0) (v : Nat) (hv : v = size + 2 * prev.toNat + free.toNat) :
    Header (m.store a 4 v) a size free prev := by
  have hfree := Bool.toNat_lt free
  have hprev := Bool.toNat_lt prev
  rw [header_iff, Memory.load_store_self, hv]
  exact ⟨Nat.mod_eq_of_lt (by omega), hmod⟩

theorem size_lt (h : Header m a size free prev) : size + 4 ≤ 2 ^ 32 := by
  have hlt : m.load a 4 < 2 ^ 32 := Memory.load_lt m a 4
  rw [header_iff] at h
  omega

theorem setSize (h : Header m a size free prev) (hs : s % 4 = 0) (hlt : s < 2 ^ 32) : Header (blockSetSize a s m) a s free prev := by
  have hfree := Bool.toNat_lt free
  have hprev := Bool.toNat_lt prev
  rw [header_iff] at h
  refine Header.store (by omega) hs _ ?_
  rw [h.1, wrap32_of_lt hlt]
  omega

theorem setFree (h : Header m a size free prev) : Header (blockSetFree a f m) a size f prev := by
  have hlt := h.size_lt
  have hfree := Bool.toNat_lt free
  have hprev := Bool.toNat_lt prev
  rw [header_iff] at h
  refine Header.store hlt h.2 _ ?_
  rw [h.1]
  omega

theorem setPrevFree (h : Header m a size free prev) : Header (blockSetPrevFree a f m) a size free f := by
  have hlt := h.size_lt
  have hfree := Bool.toNat_lt free
  have hprev := Bool.toNat_lt prev
  rw [header_iff] at h
  refine Header.store hlt h.2 _ ?_
  rw [h.1]
  omega

end Header

end Header

/-- Headers and footers say what the blocks are. A header repeats the bit of the block before it, and the footer of a free block leads to its header. -/
def Tagged (m : Memory) : Bool → List TlsfBlock → Prop
  | _, [] => True
  | prev, b :: blocks =>
      Header m b.addr b.size b.free prev ∧ (b.free = true → m.load (blockFooter m b.addr) 8 = b.addr) ∧ Tagged m b.free blocks

/-- The bit of the last block, or `prev` when there is none. -/
def lastFree (prev : Bool) : List TlsfBlock → Bool
  | [] => prev
  | b :: blocks => lastFree b.free blocks

@[simp] theorem lastFree_append_singleton {prev : Bool} : lastFree prev (blocks ++ [b]) = b.free := by
  induction blocks generalizing prev with
  | nil => rfl
  | cons c blocks ih => exact ih

namespace Tagged

variable {prev : Bool}

theorem append_iff : Tagged m prev (before ++ after) ↔ Tagged m prev before ∧ Tagged m (lastFree prev before) after := by
  induction before generalizing prev with
  | nil => simp [Tagged, lastFree]
  | cons b before ih => simp only [List.cons_append, Tagged, lastFree, ih, and_assoc]

theorem congr (h : Tagged m prev blocks) (hheader : ∀ b ∈ blocks, ∀ y, b.addr ≤ y → y < b.addr + 4 → m' y = m y)
    (hfooter : ∀ b ∈ blocks, b.free = true → ∀ y, b.fin - 8 ≤ y → y < b.fin → m' y = m y) : Tagged m' prev blocks := by
  induction blocks generalizing prev with
  | nil => trivial
  | cons b blocks ih =>
      obtain ⟨hhead, hfoot, hrest⟩ := h
      have hhead' := hhead.congr (hheader b List.mem_cons_self)
      refine ⟨hhead', fun hfree => ?_, ih hrest (fun c hc => hheader c (List.mem_cons_of_mem _ hc))
        fun c hc => hfooter c (List.mem_cons_of_mem _ hc)⟩
      have hold := hfoot hfree
      have hfoot' := hfooter b List.mem_cons_self hfree
      rw [blockFooter, hhead.size, footerSize] at hold
      rw [blockFooter, hhead'.size, footerSize]
      simp only [TlsfBlock.fin, hdrSize] at hfoot' hold ⊢
      rwa [Memory.load_congr fun y hlo hhi => hfoot' y (by omega) (by omega)]

theorem header (h : Tagged m prev blocks) (hb : b ∈ blocks) : blockSize m b.addr = b.size ∧ blockIsFree m b.addr = b.free := by
  induction blocks generalizing prev with
  | nil => simp at hb
  | cons c blocks ih =>
      obtain ⟨hhead, -, hrest⟩ := h
      rcases List.mem_cons.mp hb with rfl | hb'
      · exact ⟨hhead.size, hhead.isFree⟩
      · exact ih hrest hb'

end Tagged

/-! ### Heaps -/

/-- The lists hold the free blocks, each on the list of its size. -/
def Filed (blocks : List TlsfBlock) (lists : Nat → Nat → List Nat) : Prop :=
  ∀ fl sl a, a ∈ lists fl sl ↔ ∃ b ∈ blocks, b.free = true ∧ b.addr = a ∧ mappingInsert b.size = (fl, sl)

/-- The heap at `t`. Its free blocks do not touch, and `mapping_insert` has a list for the size of each of its blocks. -/
structure TlsfHeap where
  t : Nat
  blocks : List TlsfBlock
  lists : Nat → Nat → List Nat
  pos : t ≠ 0
  layout : Layout t blocks
  small : ∀ b ∈ blocks, b.size < 2 ^ 25
  separate : blocks.IsChain TlsfBlock.NotBothFree
  filed : Filed blocks lists

/-- The memory holds the heap: the tags of its blocks, and its lists with their bitmaps. -/
structure Represents (m : Memory) (h : TlsfHeap) : Prop where
  tagged : Tagged m false h.blocks
  indexed : Indexed m h.t h.lists

/-- The bytes of the allocator: the control structure, all headers, and the free blocks. -/
def Owned (t : Nat) (blocks : List TlsfBlock) (y : Nat) : Prop :=
  (t ≤ y ∧ y < t + controlSize) ∨ ∃ b ∈ blocks, b.addr ≤ y ∧ (y < b.addr + hdrSize ∨ b.free = true ∧ y < b.fin)

/-- The addresses of the free blocks. -/
def FreeAt (blocks : List TlsfBlock) (a : Nat) : Prop := ∃ b ∈ blocks, b.free = true ∧ b.addr = a

namespace Layout

theorem blockMin_le_of_free (h : Layout t blocks) (hb : b ∈ blocks) (hfree : b.free = true) : blockMin ≤ b.size := by
  rcases h.sizes b hb with ⟨-, hused⟩ | ⟨hmin, -⟩
  · rw [hfree] at hused
    simp at hused
  · exact hmin

theorem spaced (h : Layout t blocks) : Spaced t (FreeAt blocks) := by
  refine ⟨?_, ?_, ?_⟩
  · rintro _ ⟨b, hb, -, rfl⟩
    have hroom := h.room b hb
    simp only [TlsfBlock.fin, hdrSize] at hroom
    omega
  · rintro _ ⟨b, hb, hfree, rfl⟩
    have hmin := h.blockMin_le_of_free hb hfree
    have hroom := h.room b hb
    simp only [TlsfBlock.fin, hdrSize, blockMin] at hroom hmin
    omega
  · rintro _ _ ⟨b, hb, hfree, rfl⟩ ⟨c, hc, hfree', rfl⟩ hne
    have hapart := h.apart_of_ne hb hc fun heq => hne (heq ▸ rfl)
    have hmin := h.blockMin_le_of_free hb hfree
    have hmin' := h.blockMin_le_of_free hc hfree'
    simp only [TlsfBlock.fin, hdrSize, blockMin] at hapart hmin hmin'
    omega

theorem header_off (h : Layout t blocks) (hb : b ∈ blocks) {y : Nat} (hlo : b.addr ≤ y) (hhi : y < b.addr + hdrSize) :
    OffIndex t (FreeAt blocks) y := by
  have hroom := h.room b hb
  simp only [TlsfBlock.fin, hdrSize] at hroom hhi
  refine ⟨by omega, ?_⟩
  rintro _ ⟨c, hc, hfree, rfl⟩
  rcases eq_or_ne b c with rfl | hne
  · omega
  · have hapart := h.apart_of_ne hb hc hne
    have hmin := h.blockMin_le_of_free hc hfree
    simp only [TlsfBlock.fin, hdrSize, blockMin] at hapart hmin
    omega

theorem footer_off (h : Layout t blocks) (hb : b ∈ blocks) (hfree : b.free = true) {y : Nat} (hlo : b.fin - 8 ≤ y) (hhi : y < b.fin) :
    OffIndex t (FreeAt blocks) y := by
  have hroom := h.room b hb
  have hmin := h.blockMin_le_of_free hb hfree
  simp only [TlsfBlock.fin, hdrSize, blockMin] at hroom hhi hlo hmin
  refine ⟨by omega, ?_⟩
  rintro _ ⟨c, hc, hfree', rfl⟩
  rcases eq_or_ne b c with rfl | hne
  · omega
  · have hapart := h.apart_of_ne hb hc hne
    have hmin' := h.blockMin_le_of_free hc hfree'
    simp only [TlsfBlock.fin, hdrSize, blockMin] at hapart hmin'
    omega

/-- What is not the allocator's is out of reach of the lists. -/
theorem off_of_not_owned (h : Layout t blocks) {y : Nat} (hy : ¬Owned t blocks y) : OffIndex t (FreeAt blocks) y := by
  simp only [Owned, not_or, not_exists, not_and] at hy
  refine ⟨by omega, ?_⟩
  rintro _ ⟨b, hb, hfree, rfl⟩
  have hmin := h.blockMin_le_of_free hb hfree
  by_contra hin
  have hout := (hy.2 b hb (by omega)).2 hfree
  simp only [TlsfBlock.fin, hdrSize, blockMin] at hout hmin
  omega

/-- The tags do not depend on what the lists write. -/
theorem tagged_congr (h : Layout t blocks) {prev : Bool} (part : List TlsfBlock) (hpart : ∀ b ∈ part, b ∈ blocks) (htags : Tagged m prev part)
    (hoff : ∀ y, OffIndex t (FreeAt blocks) y → m' y = m y) : Tagged m' prev part := by
  refine htags.congr (fun b hb y hlo hhi => ?_) fun b hb hfree y hlo hhi => ?_
  · exact hoff y (h.header_off (hpart b hb) hlo (by rw [hdrSize]; omega))
  · exact hoff y (h.footer_off (hpart b hb) hfree hlo hhi)

end Layout

theorem Filed.free_at (h : Filed blocks lists) : ∀ fl sl a, a ∈ lists fl sl → FreeAt blocks a := by
  intro fl sl a ha
  obtain ⟨b, hb, hfree, haddr, -⟩ := (h fl sl a).mp ha
  exact ⟨b, hb, hfree, haddr⟩

/-- A memory that agrees on the bytes of the allocator represents the same heap. -/
theorem Represents.congr {h : TlsfHeap} (hrep : Represents m h) (hsame : ∀ y, Owned h.t h.blocks y → m' y = m y) : Represents m' h := by
  refine ⟨hrep.tagged.congr (fun b hb y hlo hhi => ?_) fun b hb hfree y hlo hhi => ?_, hrep.indexed.congr (fun y hlo hhi => ?_) ?_⟩
  · exact hsame y (Or.inr ⟨b, hb, hlo, Or.inl (by rw [hdrSize]; omega)⟩)
  · have hmin := h.layout.blockMin_le_of_free hb hfree
    refine hsame y (Or.inr ⟨b, hb, ?_, Or.inr ⟨hfree, hhi⟩⟩)
    simp only [TlsfBlock.fin, hdrSize, blockMin] at hlo hmin
    omega
  · exact hsame y (Or.inl ⟨hlo, hhi⟩)
  · intro fl sl a ha y hlo hhi
    obtain ⟨b, hb, hfree, rfl⟩ := h.filed.free_at fl sl a ha
    have hmin := h.layout.blockMin_le_of_free hb hfree
    refine hsame y (Or.inr ⟨b, hb, by omega, Or.inr ⟨hfree, ?_⟩⟩)
    simp only [TlsfBlock.fin, hdrSize, blockMin] at hmin ⊢
    omega

end Tsukasa
