import Tsukasa.Mm.TlsfFree

/-!
# Handing out a block

`tlsf_malloc` takes a block off its list and splits it when the rest is large enough to be a block of its own. The block it takes must have room for the request and one more header: `split_block` subtracts both from the size without a check.
-/

namespace Tsukasa

open Lib (Memory)

variable {m m' : Memory} {t n size : Nat} {h : TlsfHeap} {before after blocks : List TlsfBlock} {b c x : TlsfBlock} {p : Bool}
  {lists : Nat → Nat → List Nat}

/-- A free block of a heap is taken off its list. -/
theorem Represents.take (hrep : Represents m h) (hblocks : h.blocks = before ++ (b :: after)) (hfree : b.free = true) :
    (∃ lists', Open (removeBlock h.t b.addr m) h.t before b after true lists') ∧
      ∀ y, ¬Owned h.t (before ++ (b :: after)) y → removeBlock h.t b.addr m y = m y := by
  have htags := hrep.tagged
  have hlayout := h.layout
  have hchain := h.separate
  have hfiled := h.filed
  rw [hblocks] at htags hlayout hchain hfiled
  rw [Tagged.append_iff] at htags
  obtain ⟨htagsLeft, hheader, hfooter, htagsRight⟩ := htags
  rw [hfree] at htagsRight
  rw [List.isChain_append, List.isChain_cons] at hchain
  have hb : b ∈ before ++ (b :: after) := by simp
  have hmin := hlayout.blockMin_le_of_free hb hfree
  obtain ⟨hindexed, hoff⟩ := hlayout.unfile hrep.indexed hfiled (fun _ hc => hc) hb hfree hheader.size
  have hdistinct : ∀ c ∈ before ++ after, c.addr ≠ b.addr := by
    intro c hc heq
    have hapart := hlayout.apart_middle c hc
    simp only [TlsfBlock.fin, hdrSize] at hapart
    omega
  refine ⟨⟨_, hlayout, ?_, fun c hc => h.small c (hblocks ▸ mem_middle hc), hchain.1, hchain.2.1.2, ?_, ?_, ?_,
    hfiled.remove hdistinct hrep.indexed.nodup rfl, hindexed⟩, fun y hy => hoff y (hlayout.off_of_not_owned hy)⟩
  · rw [blockMin] at hmin
    omega
  · exact hlayout.tagged_congr before (fun c hc => List.mem_append_left _ hc) htagsLeft hoff
  · exact hheader.congr fun y hlo hhi => hoff y (hlayout.header_off hb hlo (by rw [hdrSize]; omega))
  · exact hlayout.tagged_congr after (fun c hc => by simp [hc]) htagsRight hoff

/-- A block that stays in use closes the heap without being filed. -/
theorem Open.close (h : Open m t before x after false lists) (hpos : t ≠ 0) (hused : x.free = false) (hsize : x.size < 2 ^ 25) :
    ∃ heap : TlsfHeap, heap.t = t ∧ heap.blocks = before ++ (x :: after) ∧ Represents m heap := by
  have hseparate : (before ++ (x :: after)).IsChain TlsfBlock.NotBothFree := by
    rw [List.isChain_append, List.isChain_cons]
    refine ⟨h.left, ⟨fun b _ hfree => ?_, h.right⟩, fun a _ b hb _ => ?_⟩
    · rw [hused] at hfree
      simp at hfree
    · rw [List.head?_cons, Option.mem_some] at hb
      rw [← hb, hused]
  have hsmall : ∀ b ∈ before ++ (x :: after), b.size < 2 ^ 25 := by
    intro b hb
    simp only [List.mem_append, List.mem_cons] at hb
    rcases hb with hb | rfl | hb
    · exact h.small b (List.mem_append_left _ hb)
    · exact hsize
    · exact h.small b (List.mem_append_right _ hb)
  have hfiled : Filed (before ++ (x :: after)) lists := by
    intro fl sl a
    rw [h.filed fl sl a]
    constructor
    · rintro ⟨e, he, hrest⟩
      exact ⟨e, mem_middle he, hrest⟩
    · rintro ⟨e, he, hefree, hrest⟩
      refine ⟨e, ?_, hefree, hrest⟩
      simp only [List.mem_append, List.mem_cons] at he ⊢
      rcases he with he | rfl | he
      · exact Or.inl he
      · rw [hused] at hefree
        simp at hefree
      · exact Or.inr he
  refine ⟨⟨t, before ++ (x :: after), lists, hpos, h.layout, hsmall, hseparate, hfiled⟩, rfl, rfl, ?_, h.indexed⟩
  rw [Tagged.append_iff]
  refine ⟨h.tagsLeft, h.header, fun hfree => ?_, ?_⟩
  · rw [hused] at hfree
    simp at hfree
  · rw [hused]
    exact h.tagsRight

/-! ### Splitting -/

theorem splitRemain_eq {bs : Nat} (hfit : size + hdrSize ≤ bs) (hbs : bs < 2 ^ 32) : splitRemain bs size = bs - size - hdrSize := by
  rw [splitRemain, wrap32]
  simp only [hdrSize] at hfit ⊢
  omega

theorem splitRemain_bounds {bs : Nat} (hbs : bs % 4 = 0) (hmod : size % 4 = 0) :
    splitRemain bs size % 4 = 0 ∧ splitRemain bs size + 4 ≤ 2 ^ 32 := by
  rw [splitRemain, wrap32, hdrSize]
  omega

theorem splitBlock_large {a : Nat} (hremain : ¬splitRemain (blockSize m a) size < blockMin) :
    splitBlock a size m = (a + hdrSize + size, blockSetSize a size (blockSetPrevFree (a + hdrSize + size) false
      (blockSetFree (a + hdrSize + size) false (m.store (a + hdrSize + size) 4 (splitRemain (blockSize m a) size))))) := if_neg hremain

/-- `split_block` writes the header of the rest behind the first part, and the size of the first part. -/
theorem splitBlock_rest {a bs : Nat} {free lastBit : Bool} (hheader : Header m a bs free lastBit) (hmod : size % 4 = 0) (hword : size < 2 ^ 32)
    (hremain : blockMin ≤ splitRemain bs size) :
    (splitBlock a size m).1 = a + hdrSize + size ∧ Header (splitBlock a size m).2 a size free lastBit ∧
      Header (splitBlock a size m).2 (a + hdrSize + size) (splitRemain bs size) false false ∧
      ∀ y, (y < a ∨ a + 4 ≤ y) → (y < a + hdrSize + size ∨ a + hdrSize + size + 4 ≤ y) → (splitBlock a size m).2 y = m y := by
  have hbounds := splitRemain_bounds (header_iff.mp hheader).2 hmod
  have hbs := hheader.size
  subst hbs
  rw [splitBlock_large (Nat.not_lt.mpr hremain)]
  generalize splitRemain (blockSize m a) size = remain at *
  have hbehind : a + 4 ≤ a + hdrSize + size := by
    rw [hdrSize]
    omega
  generalize a + hdrSize + size = rest at *
  have hstore : Header (m.store rest 4 remain) rest remain false false := Header.store hbounds.2 hbounds.1 _ (by simp)
  have hrest := (hstore.setFree (f := false)).setPrevFree (f := false)
  have hkeep : ∀ y, y < rest ∨ rest + 4 ≤ y → blockSetPrevFree rest false (blockSetFree rest false (m.store rest 4 remain)) y = m y := by
    intro y hy
    rw [blockSetPrevFree, Memory.store_apply_of_outside _ hy, blockSetFree, Memory.store_apply_of_outside _ hy,
      Memory.store_apply_of_outside _ hy]
  have hfirst := (hheader.congr fun y hlo hhi => hkeep y (by omega)).setSize hmod hword
  refine ⟨rfl, hfirst, hrest.congr fun y hlo hhi => Memory.store_apply_of_outside _ (by omega), fun y ha hr => ?_⟩
  exact (Memory.store_apply_of_outside _ ha).trans (hkeep y hr)

/-- With room for the rest, both headers lie inside the block. -/
theorem splitBlock_headers {a bs : Nat} {lastBit : Bool} (hheader : Header m a bs false lastBit) (hmod : size % 4 = 0)
    (hrest : size + hdrSize + blockMin ≤ bs) :
    (splitBlock a size m).1 = a + hdrSize + size ∧ Header (splitBlock a size m).2 a size false lastBit ∧
      Header (splitBlock a size m).2 (a + hdrSize + size) (bs - size - hdrSize) false false ∧
      ∀ y, (y < a ∨ a + 4 ≤ y) → (y < a + hdrSize + size ∨ a + hdrSize + size + 4 ≤ y) → (splitBlock a size m).2 y = m y := by
  have hlt := hheader.size_lt
  have hremain : splitRemain bs size = bs - size - hdrSize := splitRemain_eq (by omega) (by omega)
  rw [← hremain]
  exact splitBlock_rest hheader hmod (by omega) (by omega)

/-- The footer of the rest and the flag behind it leave its header alone. -/
theorem Header.closeRest {r bs : Nat} {lastBit : Bool} (hheader : Header m r bs true lastBit) (hmin : blockMin ≤ bs) :
    Header (blockSetPrevFree (blockPhysNext (blockWriteFooter r m) r) true (blockWriteFooter r m)) r bs true lastBit ∧
      ∀ y, y < r + bs → blockSetPrevFree (blockPhysNext (blockWriteFooter r m) r) true (blockWriteFooter r m) y = m y := by
  rw [blockMin] at hmin
  have hfooter : ∀ y, y < r + bs → blockWriteFooter r m y = m y := by
    intro y hy
    rw [blockWriteFooter, blockFooter, hheader.size, hdrSize, footerSize]
    exact Memory.store_apply_of_outside _ (by omega)
  have hfoot := hheader.congr fun y _ hhi => hfooter y (by omega)
  have hnext : ∀ y, y < r + bs → blockSetPrevFree (blockPhysNext (blockWriteFooter r m) r) true (blockWriteFooter r m) y = m y := by
    intro y hy
    rw [blockPhysNext, hfoot.size, hdrSize, blockSetPrevFree, Memory.store_apply_of_outside _ (by omega)]
    exact hfooter y hy
  exact ⟨hheader.congr fun y _ hhi => hnext y (by omega), hnext⟩

/-- The open block is cut in two, and the second part becomes the open one. -/
theorem Open.split (h : Open m t before x after p lists) (hmin : blockMin ≤ size) (hmod : size % 4 = 0)
    (hrest : size + hdrSize + blockMin ≤ x.size) (hused : x.free = false) (hx : x.size < 2 ^ 25) :
    (splitBlock x.addr size m).1 = x.addr + hdrSize + size ∧
      Open (blockSetFree (x.addr + hdrSize + size) true (splitBlock x.addr size m).2) t (before ++ [⟨x.addr, size, false⟩])
        ⟨x.addr + hdrSize + size, x.size - size - hdrSize, true⟩ after p lists ∧
      ∀ y, y < x.addr ∨ x.fin ≤ y → blockSetFree (x.addr + hdrSize + size) true (splitBlock x.addr size m).2 y = m y := by
  have hxheader := h.header
  rw [hused] at hxheader
  obtain ⟨hfst, hfirst, hsecond, hkeep⟩ := splitBlock_headers hxheader hmod hrest
  have hapart := h.layout.apart_middle
  have hsizes := h.sizes_of_free
  have hroom := (h.layout.room x (by simp)).2.2
  have hinside : ∀ y, y < x.addr ∨ x.fin ≤ y → blockSetFree (x.addr + hdrSize + size) true (splitBlock x.addr size m).2 y = m y := by
    intro y hy
    simp only [TlsfBlock.fin, hdrSize, blockMin] at hy hrest
    rw [blockSetFree, Memory.store_apply_of_outside _ (by rw [hdrSize]; omega), hkeep y (by omega) (by rw [hdrSize]; omega)]
  have hsplit := h.layout.split hmin hmod hrest false true
  rw [List.append_cons] at hsplit
  refine ⟨hfst, ⟨hsplit, ?_, fun c hc => ?_, ?_, h.right, ?_, ?_, ?_, fun fl sl a => ?_, ?_⟩, hinside⟩
  · show x.size - size - hdrSize ≠ 0
    rw [blockMin] at hrest
    omega
  · simp only [List.mem_append, List.mem_cons, List.not_mem_nil, or_false] at hc
    rcases hc with (hc | rfl) | hc
    · exact h.small c (List.mem_append_left _ hc)
    · show size < 2 ^ 25
      omega
    · exact h.small c (List.mem_append_right _ hc)
  · rw [List.isChain_append]
    refine ⟨h.left, List.isChain_singleton _, fun a _ b hb _ => ?_⟩
    rw [List.head?_cons, Option.mem_some] at hb
    rw [← hb]
  · rw [Tagged.append_iff]
    refine ⟨h.tagsLeft.congr_outside (fun b hb => hapart b (List.mem_append_left _ hb)) (fun b hb => hsizes b (List.mem_append_left _ hb)) hinside,
      hfirst.congr fun y hlo hhi => Memory.store_apply_of_outside _ ?_, ?_, trivial⟩
    · simp only [hdrSize] at hhi ⊢
      omega
    · simp
  · rw [lastFree_append_singleton]
    exact hsecond.setFree
  · exact h.tagsRight.congr_outside (fun b hb => hapart b (List.mem_append_right _ hb)) (fun b hb => hsizes b (List.mem_append_right _ hb))
      hinside
  · rw [h.filed fl sl a]
    constructor
    · rintro ⟨e, he, hefree⟩
      refine ⟨e, ?_, hefree⟩
      simp only [List.mem_append, List.mem_cons, List.not_mem_nil, or_false] at he ⊢
      rcases he with he | he
      · exact Or.inl (Or.inl he)
      · exact Or.inr he
    · rintro ⟨e, he, hefree, hclass⟩
      refine ⟨e, ?_, hefree, hclass⟩
      simp only [List.mem_append, List.mem_cons, List.not_mem_nil, or_false] at he ⊢
      rcases he with (he | rfl) | he
      · exact Or.inl he
      · simp at hefree
      · exact Or.inr he
  · exact h.indexed.congr_outside h.filed hroom hapart hsizes hinside

/-- The footer is read as before when the bytes of its block are. -/
theorem Header.footer_congr {a bs : Nat} {free prev : Bool} (hheader : Header m a bs free prev) (hmin : blockMin ≤ bs)
    (hsame : ∀ y, a ≤ y → y < a + hdrSize + bs → m' y = m y) : m'.load (blockFooter m' a) 8 = m.load (blockFooter m a) 8 := by
  simp only [hdrSize, blockMin] at hsame hmin
  have hheader' : Header m' a bs free prev := hheader.congr fun y hlo hhi => hsame y hlo (by omega)
  rw [blockFooter, blockFooter, hheader.size, hheader'.size, hdrSize, footerSize]
  exact Memory.load_congr fun y hlo hhi => hsame y (by omega) (by omega)

/-! ### The whole of `tlsf_malloc` -/

/-- What becomes of the free block `b` when `size` bytes are taken from it: the block handed out, and the rest. -/
def taken (b : TlsfBlock) (size : Nat) : List TlsfBlock :=
  if b.size - size - hdrSize < blockMin then [{ b with free := false }]
  else [⟨b.addr, size, false⟩, ⟨b.addr + hdrSize + size, b.size - size - hdrSize, true⟩]

theorem taken_small (hrest : b.size - size - hdrSize < blockMin) : taken b size = [{ b with free := false }] := if_pos hrest

theorem taken_large (hrest : ¬b.size - size - hdrSize < blockMin) :
    taken b size = [⟨b.addr, size, false⟩, ⟨b.addr + hdrSize + size, b.size - size - hdrSize, true⟩] := if_neg hrest

/-- A free block owns all its bytes. -/
theorem owned_free (hb : b ∈ blocks) (hfree : b.free = true) {y : Nat} (hlo : b.addr ≤ y) (hhi : y < b.fin) : Owned t blocks y :=
  Owned.of_mem hb hlo (Or.inr ⟨hfree, hhi⟩)

theorem owned_of_taken (hfree : b.free = true) (hrest : size + hdrSize ≤ b.size) {y : Nat} (hy : Owned t (before ++ (taken b size ++ after)) y) :
    Owned t (before ++ (b :: after)) y := by
  refine owned_mono (fun d hd z hlo hhi => ?_) hy
  simp only [List.mem_append] at hd
  rcases hd with hd | hd | hd
  · exact Owned.of_mem (by simp [hd]) hlo hhi
  · refine owned_free (b := b) (by simp) hfree ?_ ?_
    · rw [taken] at hd
      split at hd
      · rw [List.mem_singleton.mp hd] at hlo
        exact hlo
      · simp only [List.mem_cons, List.not_mem_nil, or_false] at hd
        rcases hd with rfl | rfl
        · exact hlo
        · simp only at hlo
          omega
    · rw [taken] at hd
      simp only [TlsfBlock.fin] at hhi ⊢
      split at hd
      · rw [List.mem_singleton.mp hd] at hhi
        simp only at hhi
        omega
      · simp only [List.mem_cons, List.not_mem_nil, or_false] at hd
        rcases hd with rfl | rfl
        · simp only at hhi
          omega
        · simp only at hhi
          omega
  · exact Owned.of_mem (by simp [hd]) hlo hhi

/-- The block is off its list and marked as used. -/
theorem Represents.takeUsed (hrep : Represents m h) (hblocks : h.blocks = before ++ (b :: after)) (hfree : b.free = true) :
    (∃ lists', Open (blockSetFree b.addr false (removeBlock h.t b.addr m)) h.t before { b with free := false } after true lists') ∧
      ∀ y, ¬Owned h.t (before ++ (b :: after)) y → blockSetFree b.addr false (removeBlock h.t b.addr m) y = m y := by
  obtain ⟨⟨lists₁, htaken⟩, hframe⟩ := hrep.take hblocks hfree
  refine ⟨⟨lists₁, htaken.edit (fun y hy => Memory.store_apply_of_outside _ ?_) htaken.header.setFree⟩, fun y hy => ?_⟩
  · simp only [TlsfBlock.fin, hdrSize] at hy
    omega
  · rw [blockSetFree, Memory.store_apply_of_outside _ ?_, hframe y hy]
    by_contra hin
    exact hy (Owned.of_mem (b := b) (by simp) (by omega) (Or.inl (by rw [hdrSize]; omega)))

theorem takeBlock_refines (hrep : Represents m h) (hblocks : h.blocks = before ++ (b :: after)) (hfree : b.free = true)
    (hmin : blockMin ≤ size) (hmod : size % 4 = 0) (hfit : size + hdrSize ≤ b.size) :
    (takeBlock h.t b.addr size m).1 = blockToPtr b.addr ∧
      (∃ h' : TlsfHeap, h'.t = h.t ∧ h'.blocks = before ++ (taken b size ++ after) ∧ Represents (takeBlock h.t b.addr size m).2 h') ∧
      ∀ y, ¬Owned h.t (before ++ (b :: after)) y → (takeBlock h.t b.addr size m).2 y = m y := by
  have hb : b ∈ h.blocks := by simp [hblocks]
  have hsmall := h.small b hb
  have hright : ∀ c ∈ after.head?, c.free = false := by
    have hchain := h.separate
    rw [hblocks, List.isChain_append, List.isChain_cons] at hchain
    exact fun c hc => hchain.2.1.1 c hc hfree
  obtain ⟨⟨lists₁, hused⟩, hframe₂⟩ := hrep.takeUsed hblocks hfree
  have hremain : splitRemain (blockSize (blockSetFree b.addr false (removeBlock h.t b.addr m)) b.addr) size = b.size - size - hdrSize := by
    rw [hused.header.size]
    exact splitRemain_eq hfit (by simp only; omega)
  rw [takeBlock]
  dsimp only
  by_cases hrest : b.size - size - hdrSize < blockMin
  · -- the rest is too small to be a block, and stays with the block
    have hsplit : splitBlock b.addr size (blockSetFree b.addr false (removeBlock h.t b.addr m)) =
        (0, blockSetFree b.addr false (removeBlock h.t b.addr m)) := by
      rw [splitBlock, hremain]
      exact if_pos hrest
    rw [hsplit, if_neg (by simp)]
    obtain ⟨hopen, -, hframe₃⟩ := hused.setNext false
    obtain ⟨h', ht, hblocks', hrep'⟩ := hopen.close h.pos rfl hsmall
    refine ⟨rfl, ⟨h', ht, ?_, hrep'⟩, fun y hy => ?_⟩
    · rw [hblocks', taken_small hrest]
      rfl
    · refine (hframe₃ y fun hin => hy ?_).trans (hframe₂ y hy)
      have hin' : Owned h.t (before ++ (taken b size ++ after)) y := by
        rw [taken_small hrest]
        exact hin
      exact owned_of_taken hfree hfit hin'
  · -- the rest becomes a free block of its own
    have hroom : size + hdrSize + blockMin ≤ b.size := by omega
    obtain ⟨hfst, hopen, hframe₃⟩ := hused.split hmin hmod hroom rfl hsmall
    dsimp only at hfst hopen hframe₃
    rw [hfst, if_pos (by rw [hdrSize]; omega)]
    obtain ⟨hfooter, hfoot, hframe₄⟩ := hopen.writeFooter rfl
    dsimp only at hfooter hfoot hframe₄
    obtain ⟨hnext, hkeep, hframe₅⟩ := hfooter.setNext true
    dsimp only at hnext hkeep hframe₅
    have hfoot' := (hfooter.header.footer_congr (by simp only; omega) hkeep).trans hfoot
    obtain ⟨⟨h', ht, hblocks', hrep'⟩, hframe₆⟩ := hnext.insert h.pos rfl (by simp only; omega) hfoot' (by simp) hright
    dsimp only at hblocks' hrep' hframe₆
    refine ⟨rfl, ⟨h', ht, ?_, hrep'⟩, fun y hy => ?_⟩
    · rw [hblocks', taken_large hrest]
      simp
    · have hy' : ¬Owned h.t (before ++ [⟨b.addr, size, false⟩] ++
          (⟨b.addr + hdrSize + size, b.size - size - hdrSize, true⟩ :: after)) y := by
        intro hin
        have hin' : Owned h.t (before ++ (taken b size ++ after)) y := by
          rw [taken_large hrest]
          simpa using hin
        exact hy (owned_of_taken hfree hfit hin')
      have hout : y < b.addr ∨ b.fin ≤ y := by
        by_contra hin
        exact hy (owned_free (b := b) (by simp) hfree (by omega) (by omega))
      dsimp only
      rw [hframe₆ y hy', hframe₅ y hy', hframe₄ y hy', hframe₃ y hout, hframe₂ y hy]

/-- Taking from a block leaves the pools as they are. -/
theorem taken_pools (hsize : size ≠ 0) (hb : b.size ≠ 0) :
    poolsFrom none (before ++ (taken b size ++ after)) = poolsFrom none (before ++ (b :: after)) := by
  rw [taken]
  split
  · exact poolsFrom_setFree none false
  · next hrest =>
      have hne : b.size - size - hdrSize ≠ 0 := by
        rw [blockMin] at hrest
        omega
      exact (poolsFrom_merge (b := ⟨b.addr, size, false⟩) (c := ⟨b.addr + hdrSize + size, b.size - size - hdrSize, true⟩) none hsize hne hb
        b.free).symm

/-- One block is handed out, with at least the bytes that were taken. -/
theorem taken_used (hsize : size ≠ 0) (hb : size ≤ b.size) :
    (∃ c ∈ taken b size, c.free = false ∧ c.size ≠ 0 ∧ c.addr = b.addr ∧ size ≤ c.size) ∧
      ∀ c ∈ taken b size, c.free = false → c.addr = b.addr := by
  rw [taken]
  split
  · refine ⟨⟨_, List.mem_singleton_self _, rfl, ?_, rfl, hb⟩, fun c hc _ => ?_⟩
    · show b.size ≠ 0
      omega
    · rw [List.mem_singleton.mp hc]
  · refine ⟨⟨_, List.mem_cons_self, rfl, hsize, rfl, Nat.le_refl _⟩, fun c hc hused => ?_⟩
    simp only [List.mem_cons, List.not_mem_nil, or_false] at hc
    rcases hc with rfl | rfl
    · rfl
    · simp at hused

/-- A search inside the table that finds a block finds a free block of the heap, filed at or above the class of the search. -/
theorem Represents.findSuitable_block (hrep : Represents m h) (hfl : (mappingSearch size).1 < flIndexCount) (hne : findSuitable m h.t size ≠ 0) :
    ∃ b ∈ h.blocks, b.free = true ∧ b.addr = findSuitable m h.t size ∧
      AtOrAbove (mappingSearch size) (mappingInsert b.size).1 (mappingInsert b.size).2 := by
  obtain ⟨f, s, habove, hmem⟩ := findSuitable_mem hrep.indexed.marked hfl hne
  obtain ⟨b, hb, hfree, haddr, hclass⟩ := (h.filed f s _).mp hmem
  exact ⟨b, hb, hfree, haddr, by rwa [hclass]⟩

/-- The search does not miss a free block of its class or a larger one. -/
theorem Represents.findSuitable_ne_zero (hrep : Represents m h) (hfl : (mappingSearch size).1 < flIndexCount) (hb : b ∈ h.blocks)
    (hfree : b.free = true) (habove : AtOrAbove (mappingSearch size) (mappingInsert b.size).1 (mappingInsert b.size).2) :
    findSuitable m h.t size ≠ 0 := by
  intro hzero
  have hfiled := (h.filed (mappingInsert b.size).1 (mappingInsert b.size).2 b.addr).mpr ⟨b, hb, hfree, rfl, rfl⟩
  rw [findSuitable_eq_zero hrep.indexed.marked hfl hzero habove] at hfiled
  simp at hfiled

theorem tlsfMalloc_of_none (hnone : findSuitable m t (wrap32 (requestSize n)) = 0) : tlsfMalloc t n m = (0, m) := by
  rw [tlsfMalloc]
  dsimp only
  rw [hnone, if_pos rfl, ite_self]

theorem tlsfMalloc_of_found (ht : t ≠ 0) (hn : n ≠ 0) (hfound : findSuitable m t (wrap32 (requestSize n)) ≠ 0) :
    tlsfMalloc t n m = takeBlock t (findSuitable m t (wrap32 (requestSize n))) (wrap32 (requestSize n)) m := by
  have hrun : ¬(t = 0 ∨ n = 0) := not_or.mpr ⟨ht, hn⟩
  rw [tlsfMalloc, if_neg hrun]
  exact if_neg hfound

theorem takeBlock_ptr (t a size : Nat) (m : Memory) : (takeBlock t a size m).1 = blockToPtr a := by
  rw [takeBlock]
  dsimp only
  split <;> rfl

theorem wrap32_requestSize_mod (n : Nat) : wrap32 (requestSize n) % 8 = 0 := by
  have hr := requestSize_mod n
  rw [wrap32]
  omega

end Tsukasa
