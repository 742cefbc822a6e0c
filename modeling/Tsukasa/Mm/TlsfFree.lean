import Tsukasa.Mm.TlsfHeap

/-!
# Freeing a block

While `tlsf_free` runs, one block is open: it is on no list, the block behind it may not know yet that it is free, and it may touch free blocks. `coalesce_prev` and `coalesce_next` join its neighbours to it, and the last steps close the heap again.
-/

namespace Tsukasa

open Lib (Memory)

/-- The heap while `x` is on no list. The bit that the block behind `x` has for it is `p`. -/
structure Open (m : Memory) (t : Nat) (before : List TlsfBlock) (x : TlsfBlock) (after : List TlsfBlock) (p : Bool)
    (lists : Nat → Nat → List Nat) : Prop where
  layout : Layout t (before ++ (x :: after))
  used : x.size ≠ 0
  small : ∀ b ∈ before ++ after, b.size < 2 ^ 25
  left : before.IsChain TlsfBlock.NotBothFree
  right : after.IsChain TlsfBlock.NotBothFree
  tagsLeft : Tagged m false before
  header : Header m x.addr x.size x.free (lastFree false before)
  tagsRight : Tagged m p after
  filed : Filed (before ++ after) lists
  indexed : Indexed m t lists

variable {m m' : Memory} {t : Nat} {before after blocks part : List TlsfBlock} {b c x : TlsfBlock} {p prev : Bool}
  {lists : Nat → Nat → List Nat}

/-- Blocks away from where the memory changes keep their tags. -/
theorem Tagged.congr_outside (h : Tagged m prev part) {lo hi : Nat} (hapart : ∀ b ∈ part, b.fin ≤ lo ∨ hi ≤ b.addr)
    (hsizes : ∀ b ∈ part, b.free = true → blockMin ≤ b.size)
    (hsame : ∀ y, y < lo ∨ hi ≤ y → m' y = m y) : Tagged m' prev part := by
  refine h.congr (fun b hb y hlo hhi => hsame y ?_) fun b hb hfree y hlo hhi => hsame y ?_
  · have hb' := hapart b hb
    simp only [TlsfBlock.fin, hdrSize] at hb'
    omega
  · have hb' := hapart b hb
    have hmin := hsizes b hb hfree
    simp only [TlsfBlock.fin, hdrSize, blockMin] at hb' hlo hhi hmin
    omega

theorem Indexed.congr_outside (h : Indexed m t lists) (hfiled : Filed part lists) {lo hi : Nat} (hcontrol : hi ≤ t ∨ t + controlSize ≤ lo)
    (hapart : ∀ b ∈ part, b.fin ≤ lo ∨ hi ≤ b.addr) (hsizes : ∀ b ∈ part, b.free = true → blockMin ≤ b.size)
    (hsame : ∀ y, y < lo ∨ hi ≤ y → m' y = m y) : Indexed m' t lists := by
  refine h.congr (fun y hlo hhi => hsame y (by omega)) fun fl sl a ha y hlo hhi => hsame y ?_
  obtain ⟨b, hb, hfree, rfl, -⟩ := (hfiled fl sl a).mp ha
  have hb' := hapart b hb
  have hmin := hsizes b hb hfree
  simp only [TlsfBlock.fin, hdrSize, blockMin] at hb' hmin
  omega

/-- The open block covers none of the bytes of the others. -/
theorem Layout.apart_middle (h : Layout t (before ++ (x :: after))) : ∀ b ∈ before ++ after, b.fin ≤ x.addr ∨ x.fin ≤ b.addr := by
  intro b hb
  have hpair := h.apart
  simp only [List.pairwise_append, List.pairwise_cons, List.mem_cons] at hpair
  rcases List.mem_append.mp hb with hb | hb
  · exact hpair.2.2 b hb x (Or.inl rfl)
  · exact (hpair.2.1.1 b hb).symm

theorem mem_middle (hb : b ∈ before ++ after) : b ∈ before ++ (x :: after) := by
  rcases List.mem_append.mp hb with hb | hb
  · exact List.mem_append_left _ hb
  · exact List.mem_append_right _ (List.mem_cons_of_mem _ hb)

/-- The block behind one that is no sentinel. -/
theorem Layout.next_block (h : Layout t (before ++ (x :: after))) (hused : x.size ≠ 0) :
    ∃ n rest, after = n :: rest ∧ n.addr = x.fin := by
  cases after with
  | nil => exact absurd (h.last x (by simp)) hused
  | cons n rest =>
      have hchain := h.next
      rw [List.isChain_append, List.isChain_cons_cons] at hchain
      exact ⟨n, rest, rfl, hchain.2.1.1 hused⟩

namespace Open

theorem sizes_of_free (h : Open m t before x after p lists) : ∀ b ∈ before ++ after, b.free = true → blockMin ≤ b.size :=
  fun _ hb hfree => h.layout.blockMin_le_of_free (mem_middle hb) hfree

/-- Writes into the open block, after which its header says `f`. -/
theorem edit (h : Open m t before x after p lists) {f : Bool} (hsame : ∀ y, y < x.addr ∨ x.fin ≤ y → m' y = m y)
    (hheader : Header m' x.addr x.size f (lastFree false before)) : Open m' t before { x with free := f } after p lists := by
  have hapart := h.layout.apart_middle
  have hsizes := h.sizes_of_free
  have hroom := (h.layout.room x (by simp)).2.2
  refine ⟨h.layout.setFree h.used f, h.used, h.small, h.left, h.right, ?_, hheader, ?_, h.filed, ?_⟩
  · exact h.tagsLeft.congr_outside (fun b hb => hapart b (List.mem_append_left _ hb)) (fun b hb => hsizes b (List.mem_append_left _ hb)) hsame
  · exact h.tagsRight.congr_outside (fun b hb => hapart b (List.mem_append_right _ hb)) (fun b hb => hsizes b (List.mem_append_right _ hb)) hsame
  · exact h.indexed.congr_outside h.filed hroom hapart hsizes hsame

end Open

/-! ### The block before -/

/-- The free block in front of `x`, if there is one, is joined to it. -/
def joinPrev (before : List TlsfBlock) (x : TlsfBlock) : List TlsfBlock × TlsfBlock :=
  match before.getLast? with
  | some b => if b.free then (before.dropLast, ⟨b.addr, b.size + hdrSize + x.size, true⟩) else (before, x)
  | none => (before, x)

/-- The free block behind `x`, if there is one, is joined to it. -/
def joinNext (x : TlsfBlock) : List TlsfBlock → TlsfBlock × List TlsfBlock
  | [] => (x, [])
  | b :: after => if b.free then (⟨x.addr, x.size + hdrSize + b.size, true⟩, after) else (x, b :: after)

theorem Filed.remove (h : Filed (before ++ (b :: after)) lists) (hinj : ∀ c ∈ before ++ after, c.addr ≠ b.addr)
    (hnodup : ∀ fl sl, (lists fl sl).Nodup) {fl sl : Nat} (hclass : mappingInsert b.size = (fl, sl)) :
    Filed (before ++ after) (removeList lists fl sl b.addr) := by
  intro f s a
  have hold := h f s a
  have hmem : (∃ c ∈ before ++ (b :: after), c.free = true ∧ c.addr = a ∧ mappingInsert c.size = (f, s)) ∧ a ≠ b.addr ↔
      ∃ c ∈ before ++ after, c.free = true ∧ c.addr = a ∧ mappingInsert c.size = (f, s) := by
    constructor
    · rintro ⟨⟨c, hc, hfree, haddr, hsize⟩, hne⟩
      refine ⟨c, ?_, hfree, haddr, hsize⟩
      simp only [List.mem_append, List.mem_cons] at hc ⊢
      rcases hc with hc | rfl | hc
      · exact Or.inl hc
      · exact absurd haddr.symm hne
      · exact Or.inr hc
    · rintro ⟨c, hc, hfree, haddr, hsize⟩
      exact ⟨⟨c, mem_middle hc, hfree, haddr, hsize⟩, fun heq => hinj c hc (haddr.trans heq)⟩
  rw [← hmem, ← hold, removeList]
  split
  · rw [(hnodup f s).mem_erase_iff, and_comm]
  · next hne =>
      refine ⟨fun ha => ⟨ha, fun heq => hne ?_⟩, fun ha => ha.1⟩
      obtain ⟨c, hc, hfree, haddr, hsize⟩ := hold.mp ha
      have hcb : c = b := by
        by_contra hcb
        refine hinj c ?_ (haddr.trans heq)
        simp only [List.mem_append, List.mem_cons] at hc ⊢
        rcases hc with hc | rfl | hc
        · exact Or.inl hc
        · exact absurd rfl hcb
        · exact Or.inr hc
      rw [hcb, hclass, Prod.mk.injEq] at hsize
      exact ⟨hsize.1.symm, hsize.2.symm⟩

theorem Indexed.nodup (h : Indexed m t lists) (fl sl : Nat) : (lists fl sl).Nodup := by
  by_cases hempty : lists fl sl = []
  · rw [hempty]
    exact List.nodup_nil
  · obtain ⟨hfl, hsl⟩ := h.range fl sl hempty
    exact (h.linked fl sl hfl hsl).nodup

@[simp] theorem joinPrev_nil : joinPrev [] x = ([], x) := rfl

@[simp] theorem joinPrev_append_singleton :
    joinPrev (before ++ [b]) x = if b.free then (before, ⟨b.addr, b.size + hdrSize + x.size, true⟩) else (before ++ [b], x) := by
  rw [joinPrev, List.getLast?_concat]
  dsimp only
  rw [List.dropLast_concat]

/-- Taking a free block out of its list leaves all tags alone. -/
theorem Layout.unfile (hl : Layout t blocks) (hx : Indexed m t lists) (hfiled : Filed part lists) (hpart : ∀ c ∈ part, c ∈ blocks)
    (hb : b ∈ part) (hfree : b.free = true) (hsize : blockSize m b.addr = b.size) :
    Indexed (removeBlock t b.addr m) t (removeList lists (mappingInsert b.size).1 (mappingInsert b.size).2 b.addr) ∧
      ∀ y, OffIndex t (FreeAt blocks) y → removeBlock t b.addr m y = m y := by
  have hclass : mappingInsert (blockSize m b.addr) = ((mappingInsert b.size).1, (mappingInsert b.size).2) := by rw [hsize]
  have hmem : b.addr ∈ lists (mappingInsert b.size).1 (mappingInsert b.size).2 := (hfiled _ _ _).mpr ⟨b, hb, hfree, rfl, rfl⟩
  have hfreeAt : ∀ fl sl a, a ∈ lists fl sl → FreeAt blocks a := by
    intro fl sl a ha
    obtain ⟨c, hc, hcfree, haddr⟩ := hfiled.free_at fl sl a ha
    exact ⟨c, hpart c hc, hcfree, haddr⟩
  exact ⟨removeBlock_indexed hx hl.spaced hfreeAt hmem hclass, fun y hy => removeBlock_apply hx hl.spaced hfreeAt hmem hclass hy⟩

theorem owned_mono (hsub : ∀ b ∈ before, ∀ y, b.addr ≤ y → y < b.addr + hdrSize ∨ b.free = true ∧ y < b.fin → Owned t after y) {y : Nat}
    (hy : Owned t before y) : Owned t after y := by
  rcases hy with hcontrol | ⟨b, hb, hlo, hhi⟩
  · exact Or.inl hcontrol
  · exact hsub b hb y hlo hhi

theorem Owned.of_mem {y : Nat} (hb : b ∈ blocks) (hlo : b.addr ≤ y) (hhi : y < b.addr + hdrSize ∨ b.free = true ∧ y < b.fin) :
    Owned t blocks y := Or.inr ⟨b, hb, hlo, hhi⟩

/-- What two neighbours own, their join owns. -/
theorem owned_join (hnext : c.addr = b.fin) {y : Nat} (hy : Owned t (before ++ (b :: c :: after)) y) :
    Owned t (before ++ (⟨b.addr, b.size + hdrSize + c.size, true⟩ :: after)) y := by
  simp only [TlsfBlock.fin] at hnext
  refine owned_mono (fun d hd y hlo hhi => ?_) hy
  simp only [List.mem_append, List.mem_cons] at hd
  rcases hd with hd | rfl | rfl | hd
  · exact Owned.of_mem (by simp [hd]) hlo hhi
  · refine Owned.of_mem (b := ⟨d.addr, d.size + hdrSize + c.size, true⟩) (by simp) hlo (Or.inr ⟨rfl, ?_⟩)
    simp only [TlsfBlock.fin] at hhi ⊢
    omega
  · refine Owned.of_mem (b := ⟨b.addr, b.size + hdrSize + d.size, true⟩) (by simp) (by simp only; omega) (Or.inr ⟨rfl, ?_⟩)
    simp only [TlsfBlock.fin] at hhi ⊢
    omega
  · exact Owned.of_mem (by simp [hd]) hlo hhi

section Join

variable {d : TlsfBlock} (hlayout : Layout t (before ++ (b :: c :: after))) (hb : b.free = true) (hc : c.free = true) (hd : d = b ∨ d = c)

include hlayout hb hc hd

theorem Layout.filed_apart : ∀ e ∈ before ++ after, e.addr ≠ d.addr := by
  intro e he heq
  have hmem : e ∈ before ++ (b :: c :: after) := mem_middle (mem_middle he)
  have hdmem : d ∈ before ++ (b :: c :: after) := by
    rcases hd with rfl | rfl <;> simp
  have hed := hlayout.addr_inj hmem hdmem heq
  have hnodup := hlayout.apart
  have hself : ∀ f : TlsfBlock, ¬f.Apart f := fun f hf => by
    simp only [TlsfBlock.Apart, TlsfBlock.fin, hdrSize] at hf
    omega
  simp only [List.pairwise_append, List.pairwise_cons, List.mem_cons] at hnodup
  obtain ⟨-, ⟨hbapart, hcapart, -⟩, hcross⟩ := hnodup
  subst hed
  rcases List.mem_append.mp he with he | he
  · exact hself e (hcross e he e (by tauto))
  · rcases hd with rfl | rfl
    · exact hself e (hbapart e (Or.inr he))
    · exact hself e (hcapart e he)

/-- One of two free neighbours is taken off its list, and the header of the first then covers both. -/
theorem absorb (hfiled : Filed (before ++ (d :: after)) lists) (hx : Indexed m t lists) (hsmall : ∀ e ∈ before ++ after, e.size < 2 ^ 25)
    (hsum : b.size + hdrSize + c.size < 2 ^ 32) (hleft : before.IsChain TlsfBlock.NotBothFree) (hright : after.IsChain TlsfBlock.NotBothFree)
    (htagsLeft : Tagged m false before) (hheaderb : Header m b.addr b.size b.free (lastFree false before))
    (hheaderc : Header m c.addr c.size c.free prev) (htagsRight : Tagged m p after) :
    blockSize (removeBlock t d.addr m) b.addr = b.size ∧ blockSize (removeBlock t d.addr m) c.addr = c.size ∧
      (∃ lists', Open (blockSetSize b.addr (b.size + hdrSize + c.size) (removeBlock t d.addr m)) t before
        ⟨b.addr, b.size + hdrSize + c.size, true⟩ after p lists') ∧
      ∀ y, ¬Owned t (before ++ (⟨b.addr, b.size + hdrSize + c.size, true⟩ :: after)) y →
        blockSetSize b.addr (b.size + hdrSize + c.size) (removeBlock t d.addr m) y = m y := by
  have hbmin := hlayout.blockMin_le_of_free (b := b) (by simp) hb
  have hcmin := hlayout.blockMin_le_of_free (b := c) (by simp) hc
  simp only [blockMin] at hbmin hcmin
  have hpart : ∀ e ∈ before ++ (d :: after), e ∈ before ++ (b :: c :: after) := by
    intro e he
    simp only [List.mem_append, List.mem_cons] at he ⊢
    rcases he with he | rfl | he
    · exact Or.inl he
    · rcases hd with rfl | rfl
      · exact Or.inr (Or.inl rfl)
      · exact Or.inr (Or.inr (Or.inl rfl))
    · exact Or.inr (Or.inr (Or.inr he))
  have hdfree : d.free = true ∧ blockSize m d.addr = d.size := by
    rcases hd with rfl | rfl
    · exact ⟨hb, hheaderb.size⟩
    · exact ⟨hc, hheaderc.size⟩
  obtain ⟨hindexed, hoff⟩ := hlayout.unfile hx hfiled hpart (by simp) hdfree.1 hdfree.2
  have hkeep : ∀ e ∈ before ++ (b :: c :: after), ∀ y, e.addr ≤ y → y < e.addr + 4 → removeBlock t d.addr m y = m y :=
    fun e he y hlo hhi => hoff y (hlayout.header_off he hlo (by rw [hdrSize]; omega))
  have hheaderb' := hheaderb.congr (hkeep b (by simp))
  have hheaderc' := hheaderc.congr (hkeep c (by simp))
  have hfiled' := hfiled.remove (hlayout.filed_apart hb hc hd) hx.nodup (show mappingInsert d.size = (_, _) from rfl)
  -- the new size is written inside the header of `b`
  have hset : ∀ y, y < b.addr ∨ b.addr + 4 ≤ y →
      blockSetSize b.addr (b.size + hdrSize + c.size) (removeBlock t d.addr m) y = removeBlock t d.addr m y :=
    fun y hy => Memory.store_apply_of_outside _ hy
  have hinside : ∀ y, y < b.addr ∨ b.fin ≤ y →
      blockSetSize b.addr (b.size + hdrSize + c.size) (removeBlock t d.addr m) y = removeBlock t d.addr m y := by
    intro y hy
    simp only [TlsfBlock.fin, hdrSize] at hy
    exact hset y (by omega)
  have hapart : ∀ e ∈ before ++ after, e.fin ≤ b.addr ∨ b.fin ≤ e.addr :=
    fun e he => (show Layout t (before ++ (b :: (c :: after))) from hlayout).apart_middle e (mem_middle he)
  have hsizes : ∀ e ∈ before ++ after, e.free = true → blockMin ≤ e.size :=
    fun e he hefree => hlayout.blockMin_le_of_free (mem_middle (mem_middle he)) hefree
  have hnext : c.addr = b.fin := by
    have hchain := hlayout.next
    rw [List.isChain_append, List.isChain_cons_cons] at hchain
    exact hchain.2.1.1 (by omega)
  refine ⟨hheaderb'.size, hheaderc'.size, ⟨_, hlayout.merge (by omega) (by omega) true, ?_, hsmall, hleft, hright, ?_, ?_, ?_, hfiled', ?_⟩,
    fun y hy => ?_⟩
  · show b.size + hdrSize + c.size ≠ 0
    omega
  · have htags := hlayout.tagged_congr before (fun e he => List.mem_append_left _ he) htagsLeft hoff
    exact htags.congr_outside (fun e he => hapart e (List.mem_append_left _ he)) (fun e he => hsizes e (List.mem_append_left _ he)) hinside
  · have hbs := (hlayout.sizes b (by simp)).resolve_left fun hs => by omega
    have hcs := (hlayout.sizes c (by simp)).resolve_left fun hs => by omega
    have hsized := hheaderb'.setSize (s := b.size + hdrSize + c.size) (by rw [hdrSize]; omega) hsum
    rwa [hb] at hsized
  · have htags := hlayout.tagged_congr after (fun e he => by simp [he]) htagsRight hoff
    exact htags.congr_outside (fun e he => hapart e (List.mem_append_right _ he)) (fun e he => hsizes e (List.mem_append_right _ he)) hinside
  · exact hindexed.congr_outside hfiled' (hlayout.room b (by simp)).2.2 hapart hsizes hinside
  · rw [hset y ?_, hoff y (hlayout.off_of_not_owned fun hy' => hy (owned_join hnext hy'))]
    by_contra hin
    exact hy (Owned.of_mem (b := ⟨b.addr, b.size + hdrSize + c.size, true⟩) (by simp) (by simp only; omega)
      (Or.inl (by simp only [hdrSize]; omega)))

end Join

/-- A free block in front is found through its footer. -/
theorem Open.prev_block (h : Open m t (before ++ [b]) x after p lists) (hb : b.free = true) :
    x.addr = b.fin ∧ Header m b.addr b.size b.free (lastFree false before) ∧ blockPhysPrev m x.addr = b.addr := by
  have hlayout := h.layout
  have htags := h.tagsLeft
  rw [List.append_assoc, List.singleton_append] at hlayout
  rw [Tagged.append_iff] at htags
  obtain ⟨-, hheader, hfooter, -⟩ := htags
  have hbmin := hlayout.blockMin_le_of_free (b := b) (by simp) hb
  have hnext : x.addr = b.fin := by
    have hchain := hlayout.next
    rw [List.isChain_append, List.isChain_cons_cons] at hchain
    exact hchain.2.1.1 (by rw [blockMin] at hbmin; omega)
  refine ⟨hnext, hheader, ?_⟩
  have hfoot := hfooter hb
  rw [blockFooter, hheader.size] at hfoot
  rwa [blockPhysPrev, hnext, TlsfBlock.fin]

/-- `coalesce_prev` joins the free block in front. -/
theorem coalescePrev_open (h : Open m t before x after p lists) (hfree : x.free = true) (hbound : x.size < 2 ^ 26) :
    (coalescePrev t x.addr m).1 = (joinPrev before x).2.addr ∧
      (∃ lists', Open (coalescePrev t x.addr m).2 t (joinPrev before x).1 (joinPrev before x).2 after p lists') ∧
      (∀ y, ¬Owned t ((joinPrev before x).1 ++ ((joinPrev before x).2 :: after)) y → (coalescePrev t x.addr m).2 y = m y) ∧
      (joinPrev before x).2.free = true ∧ lastFree false (joinPrev before x).1 = false := by
  have hflag := h.header.prevFree
  rcases before.eq_nil_or_concat' with rfl | ⟨before, b, rfl⟩
  · rw [coalescePrev, hflag, if_neg (by simp [lastFree])]
    exact ⟨rfl, ⟨lists, h⟩, fun _ _ => rfl, hfree, rfl⟩
  · rw [lastFree_append_singleton] at hflag
    rw [joinPrev_append_singleton, coalescePrev, hflag]
    by_cases hb : b.free = true
    · rw [if_pos hb, if_pos hb]
      have hlayout := h.layout
      have htags := h.tagsLeft
      have hfiled := h.filed
      rw [List.append_assoc, List.singleton_append] at hlayout hfiled
      rw [Tagged.append_iff] at htags
      obtain ⟨htagsLeft, -⟩ := htags
      have hsmall := h.small b (by simp)
      obtain ⟨-, hheader, hprev⟩ := h.prev_block hb
      obtain ⟨hbsize, hxsize, hopen, hframe⟩ := absorb hlayout hb hfree (Or.inl rfl) hfiled h.indexed
        (fun e he => h.small e (by rw [List.append_assoc]; exact mem_middle he)) (by rw [hdrSize]; omega) h.left.left_of_append h.right
        htagsLeft hheader h.header h.tagsRight
      dsimp only
      rw [hprev, hbsize, hxsize]
      refine ⟨rfl, hopen, hframe, rfl, ?_⟩
      rcases before.eq_nil_or_concat' with rfl | ⟨before, a, rfl⟩
      · rfl
      · have hchain := h.left
        rw [List.append_assoc, List.singleton_append, List.isChain_append, List.isChain_cons_cons] at hchain
        rw [lastFree_append_singleton]
        by_contra ha
        rw [Bool.not_eq_false] at ha
        have hused := hchain.2.1.1 ha
        rw [hb] at hused
        simp at hused
    · rw [if_neg hb, if_neg hb]
      rw [Bool.not_eq_true] at hb
      exact ⟨rfl, ⟨lists, h⟩, fun _ _ => rfl, hfree, by simp [hb]⟩

/-- `coalesce_next` joins the free block behind. -/
theorem coalesceNext_open (h : Open m t before x after p lists) (hfree : x.free = true) (hbound : x.size < 2 ^ 27) :
    (∃ p' lists', Open (coalesceNext t x.addr m) t before (joinNext x after).1 (joinNext x after).2 p' lists') ∧
      (∀ y, ¬Owned t (before ++ ((joinNext x after).1 :: (joinNext x after).2)) y → coalesceNext t x.addr m y = m y) ∧
      (joinNext x after).1.free = true ∧ (joinNext x after).1.addr = x.addr ∧ ∀ b ∈ (joinNext x after).2.head?, b.free = false := by
  obtain ⟨n, rest, rfl, hnext⟩ := h.layout.next_block h.used
  have htags := h.tagsRight
  obtain ⟨hheader, -, htagsRight⟩ := htags
  have hphys : blockPhysNext m x.addr = n.addr := by
    rw [blockPhysNext, h.header.size, hnext, TlsfBlock.fin]
  rw [coalesceNext, hphys, hheader.isFree, joinNext]
  by_cases hn : n.free = true
  · rw [if_pos hn, if_pos hn]
    have hsmall := h.small n (by simp)
    obtain ⟨hxsize, hnsize, hopen, hframe⟩ := absorb h.layout hfree hn (Or.inr rfl) h.filed h.indexed (fun e he => h.small e (mem_middle he))
      (by rw [hdrSize]; omega) h.left (List.isChain_of_isChain_cons h.right) h.tagsLeft h.header hheader htagsRight
    dsimp only
    rw [hxsize, hnsize]
    refine ⟨⟨_, hopen⟩, hframe, rfl, rfl, fun b hb => ?_⟩
    have hchain := h.right
    rw [List.isChain_cons] at hchain
    exact hchain.1 b hb hn
  · rw [if_neg hn, if_neg hn]
    rw [Bool.not_eq_true] at hn
    exact ⟨⟨p, lists, h⟩, fun _ _ => rfl, hfree, rfl, fun b hb => by simp only [List.head?_cons, Option.mem_some] at hb; rw [← hb, hn]⟩

/-! ### Closing the heap -/

/-- The block behind the open one is told whether it is free. -/
theorem Open.setNext (h : Open m t before x after p lists) (f : Bool) :
    Open (blockSetPrevFree (blockPhysNext m x.addr) f m) t before x after f lists ∧
      (∀ y, x.addr ≤ y → y < x.fin → blockSetPrevFree (blockPhysNext m x.addr) f m y = m y) ∧
      ∀ y, ¬Owned t (before ++ (x :: after)) y → blockSetPrevFree (blockPhysNext m x.addr) f m y = m y := by
  obtain ⟨n, rest, rfl, hnext⟩ := h.layout.next_block h.used
  have htags := h.tagsRight
  obtain ⟨hheader, hfooter, htagsRight⟩ := htags
  have hphys : blockPhysNext m x.addr = n.addr := by
    rw [blockPhysNext, h.header.size, hnext, TlsfBlock.fin]
  have hset : ∀ y, y < n.addr ∨ n.addr + 4 ≤ y → blockSetPrevFree n.addr f m y = m y := fun y hy => Memory.store_apply_of_outside _ hy
  have hinside : ∀ y, y < n.addr ∨ n.fin ≤ y → blockSetPrevFree n.addr f m y = m y := by
    intro y hy
    simp only [TlsfBlock.fin, hdrSize] at hy
    exact hset y (by omega)
  have hlayout := h.layout
  rw [List.append_cons] at hlayout
  have hapart := hlayout.apart_middle
  have hmem : ∀ e ∈ before ++ [x] ++ rest, e ∈ before ++ (x :: n :: rest) := by
    intro e he
    rw [List.append_cons]
    exact mem_middle he
  have hn : n ∈ before ++ (x :: n :: rest) := by simp
  have hsizes : ∀ e ∈ before ++ (x :: n :: rest), e.free = true → blockMin ≤ e.size := fun e he => h.layout.blockMin_le_of_free he
  have hroom := (h.layout.room n hn).2.2
  rw [hphys]
  refine ⟨⟨h.layout, h.used, h.small, h.left, h.right, ?_, ?_, ⟨hheader.setPrevFree, fun hfree => ?_, ?_⟩, h.filed, ?_⟩, fun y hlo hhi => ?_,
    fun y hy => hset y ?_⟩
  · exact h.tagsLeft.congr_outside (fun e he => hapart e (by simp [he])) (fun e he => hsizes e (by simp [he])) hinside
  · refine h.header.congr fun y hlo hhi => hinside y (Or.inl ?_)
    rw [hnext]
    simp only [TlsfBlock.fin, hdrSize]
    omega
  · have hmin := hsizes n hn hfree
    have hold := hfooter hfree
    rw [blockFooter, hheader.size, footerSize, hdrSize] at hold
    rw [blockFooter, hheader.setPrevFree.size, footerSize, hdrSize]
    rw [blockMin] at hmin
    rwa [blockSetPrevFree, Memory.load_store_of_disjoint _ (by omega)]
  · exact htagsRight.congr_outside (fun e he => hapart e (by simp [he])) (fun e he => hsizes e (by simp [he])) hinside
  · refine h.indexed.congr (fun y hlo hhi => hinside y (by omega)) fun fl sl a ha y hlo hhi => ?_
    obtain ⟨e, he, hefree, rfl⟩ := h.filed.free_at fl sl a ha
    have he' := mem_middle (x := x) he
    have hmin := hsizes e he' hefree
    rw [blockMin] at hmin
    refine hset y ?_
    rcases eq_or_ne e n with rfl | hne
    · omega
    · have hen := h.layout.apart_of_ne he' hn hne
      simp only [TlsfBlock.fin, hdrSize] at hen
      omega
  · exact hinside y (Or.inl (by omega))
  · by_contra hin
    exact hy (Owned.of_mem hn (by omega) (Or.inl (by rw [hdrSize]; omega)))

/-- The footer is written into the payload of the open block. -/
theorem Open.writeFooter (h : Open m t before x after p lists) (hfree : x.free = true) :
    Open (blockWriteFooter x.addr m) t before x after p lists ∧
      (blockWriteFooter x.addr m).load (blockFooter (blockWriteFooter x.addr m) x.addr) 8 = x.addr ∧
      ∀ y, ¬Owned t (before ++ (x :: after)) y → blockWriteFooter x.addr m y = m y := by
  have hx : x ∈ before ++ (x :: after) := by simp
  have hmin := h.layout.blockMin_le_of_free hx hfree
  have hroom := h.layout.room x hx
  have hfooter : blockFooter m x.addr = x.fin - 8 := by
    rw [blockFooter, h.header.size, TlsfBlock.fin, footerSize]
  simp only [TlsfBlock.fin, hdrSize, blockMin] at hmin hroom hfooter
  have hset : ∀ y, y < x.fin - 8 ∨ x.fin ≤ y → blockWriteFooter x.addr m y = m y := by
    intro y hy
    simp only [TlsfBlock.fin, hdrSize] at hy
    rw [blockWriteFooter, hfooter, Memory.store_apply_of_outside _ (by omega)]
  simp only [TlsfBlock.fin, hdrSize] at hset
  have hheader : Header (blockWriteFooter x.addr m) x.addr x.size x.free (lastFree false before) :=
    h.header.congr fun y hlo hhi => hset y (by omega)
  refine ⟨h.edit (fun y hy => hset y ?_) hheader, ?_, fun y hy => hset y ?_⟩
  · simp only [TlsfBlock.fin, hdrSize] at hy
    omega
  · rw [blockFooter, hheader.size, blockWriteFooter, hfooter, hdrSize, footerSize, Memory.load_store_self, mod_word (by omega)]
  · by_contra hin
    refine hy (Owned.of_mem hx (by omega) (Or.inr ⟨hfree, ?_⟩))
    simp only [TlsfBlock.fin, hdrSize]
    omega

theorem Filed.insert (h : Filed (before ++ after) lists) (hfree : x.free = true) {fl sl : Nat} (hclass : mappingInsert x.size = (fl, sl)) :
    Filed (before ++ (x :: after)) (insertList lists fl sl x.addr) := by
  intro f s a
  have hmem : (∃ e ∈ before ++ (x :: after), e.free = true ∧ e.addr = a ∧ mappingInsert e.size = (f, s)) ↔
      x.addr = a ∧ (fl, sl) = (f, s) ∨ ∃ e ∈ before ++ after, e.free = true ∧ e.addr = a ∧ mappingInsert e.size = (f, s) := by
    constructor
    · rintro ⟨e, he, hefree, haddr, hsize⟩
      simp only [List.mem_append, List.mem_cons] at he
      rcases he with he | rfl | he
      · exact Or.inr ⟨e, List.mem_append_left _ he, hefree, haddr, hsize⟩
      · exact Or.inl ⟨haddr, hclass.symm.trans hsize⟩
      · exact Or.inr ⟨e, List.mem_append_right _ he, hefree, haddr, hsize⟩
    · rintro (⟨haddr, hsize⟩ | ⟨e, he, hrest⟩)
      · exact ⟨x, by simp, hfree, haddr, hclass.trans hsize⟩
      · exact ⟨e, mem_middle he, hrest⟩
  rw [hmem, ← h f s a, insertList, Prod.mk.injEq]
  split
  · next heq =>
      rw [List.mem_cons, eq_comm]
      simp only [heq, and_self, and_true]
  · next hne =>
      refine ⟨Or.inr, fun hor => hor.resolve_left fun hx => hne ⟨hx.2.1.symm, hx.2.2.symm⟩⟩

/-- Filing the open block closes the heap. -/
theorem Open.insert (h : Open m t before x after true lists) (hpos : t ≠ 0) (hfree : x.free = true) (hsize : x.size < 2 ^ 25)
    (hfooter : m.load (blockFooter m x.addr) 8 = x.addr) (hleft : lastFree false before = false) (hright : ∀ b ∈ after.head?, b.free = false) :
    (∃ heap : TlsfHeap, heap.t = t ∧ heap.blocks = before ++ (x :: after) ∧ Represents (insertBlock t x.addr m) heap) ∧
      ∀ y, ¬Owned t (before ++ (x :: after)) y → insertBlock t x.addr m y = m y := by
  have hx : x ∈ before ++ (x :: after) := by simp
  have hs := h.layout.spaced
  have hxat : FreeAt (before ++ (x :: after)) x.addr := ⟨x, hx, hfree, rfl⟩
  have hnodes : ∀ fl sl a, a ∈ lists fl sl → FreeAt (before ++ (x :: after)) a := by
    intro fl sl a ha
    obtain ⟨e, he, hefree, haddr⟩ := h.filed.free_at fl sl a ha
    exact ⟨e, mem_middle he, hefree, haddr⟩
  have hnew : ∀ fl sl, x.addr ∉ lists fl sl := by
    intro fl sl ha
    obtain ⟨e, he, -, haddr⟩ := h.filed.free_at fl sl _ ha
    have hapart := h.layout.apart_middle e he
    simp only [TlsfBlock.fin, hdrSize] at hapart
    omega
  have hfl := mappingInsert_fl_lt_iff.mpr hsize
  have hsl := mappingInsert_sl_lt x.size
  have hclass : mappingInsert (blockSize m x.addr) = ((mappingInsert x.size).1, (mappingInsert x.size).2) := by rw [h.header.size]
  have hindexed := insertBlock_indexed h.indexed hs hnodes hxat hnew hfl hsl hclass
  have hoff : ∀ y, OffIndex t (FreeAt (before ++ (x :: after))) y → insertBlock t x.addr m y = m y :=
    fun y hy => insertBlock_apply h.indexed hs hnodes hxat hfl hsl hclass hy
  have htags : Tagged m false (before ++ (x :: after)) := by
    rw [Tagged.append_iff]
    refine ⟨h.tagsLeft, h.header, fun _ => hfooter, ?_⟩
    rw [hfree]
    exact h.tagsRight
  have hseparate : (before ++ (x :: after)).IsChain TlsfBlock.NotBothFree := by
    rw [List.isChain_append, List.isChain_cons]
    refine ⟨h.left, ⟨fun b hb _ => hright b hb, h.right⟩, fun a ha b hb hafree => ?_⟩
    obtain ⟨front, hfront⟩ := List.getLast?_eq_some_iff.mp ha
    rw [hfront, lastFree_append_singleton] at hleft
    rw [hleft] at hafree
    simp at hafree
  have hsmall : ∀ b ∈ before ++ (x :: after), b.size < 2 ^ 25 := by
    intro b hb
    simp only [List.mem_append, List.mem_cons] at hb
    rcases hb with hb | rfl | hb
    · exact h.small b (List.mem_append_left _ hb)
    · exact hsize
    · exact h.small b (List.mem_append_right _ hb)
  refine ⟨⟨⟨t, before ++ (x :: after), _, hpos, h.layout, hsmall, hseparate, h.filed.insert hfree rfl⟩, rfl, rfl, ?_, hindexed⟩,
    fun y hy => hoff y (h.layout.off_of_not_owned hy)⟩
  exact h.layout.tagged_congr _ (fun _ hb => hb) htags hoff

/-- A used block of a heap may be opened. -/
theorem Represents.toOpen {h : TlsfHeap} (hrep : Represents m h) (hblocks : h.blocks = before ++ (b :: after)) (hused : b.free = false)
    (hne : b.size ≠ 0) : Open m h.t before b after false h.lists := by
  have htags := hrep.tagged
  have hlayout := h.layout
  have hchain := h.separate
  have hfiled := h.filed
  rw [hblocks] at htags hlayout hchain hfiled
  rw [Tagged.append_iff] at htags
  obtain ⟨htagsLeft, hheader, -, htagsRight⟩ := htags
  rw [hused] at htagsRight
  rw [List.isChain_append, List.isChain_cons] at hchain
  refine ⟨hlayout, hne, fun c hc => h.small c (hblocks ▸ mem_middle hc), hchain.1, hchain.2.1.2, htagsLeft, hheader, htagsRight,
    fun fl sl a => ?_, hrep.indexed⟩
  rw [hfiled fl sl a]
  constructor
  · rintro ⟨e, he, hefree, hrest⟩
    refine ⟨e, ?_, hefree, hrest⟩
    simp only [List.mem_append, List.mem_cons] at he ⊢
    rcases he with he | rfl | he
    · exact Or.inl he
    · rw [hused] at hefree
      simp at hefree
    · exact Or.inr he
  · rintro ⟨e, he, hrest⟩
    exact ⟨e, mem_middle he, hrest⟩

/-! ### The whole of `tlsf_free` -/

/-- The block that freeing `b` makes, and the blocks around it. -/
def freed (before : List TlsfBlock) (b : TlsfBlock) (after : List TlsfBlock) : List TlsfBlock × TlsfBlock × List TlsfBlock :=
  ((joinPrev before { b with free := true }).1, joinNext (joinPrev before { b with free := true }).2 after)

def freedBlocks (before : List TlsfBlock) (b : TlsfBlock) (after : List TlsfBlock) : List TlsfBlock :=
  (freed before b after).1 ++ ((freed before b after).2.1 :: (freed before b after).2.2)

theorem joinPrev_size_lt (hsmall : ∀ c ∈ before, c.size < 2 ^ 25) (hx : x.size < 2 ^ 25) : (joinPrev before x).2.size < 2 ^ 27 := by
  rcases before.eq_nil_or_concat' with rfl | ⟨before, c, rfl⟩
  · rw [joinPrev_nil]
    exact Nat.lt_trans hx (by decide)
  · have hc := hsmall c (by simp)
    rw [joinPrev_append_singleton]
    split
    · simp only [hdrSize]
      omega
    · exact Nat.lt_trans hx (by decide)

theorem owned_joinPrev (h : Layout t (before ++ (x :: after))) {y : Nat} (hy : Owned t (before ++ (x :: after)) y) :
    Owned t ((joinPrev before x).1 ++ ((joinPrev before x).2 :: after)) y := by
  rcases before.eq_nil_or_concat' with rfl | ⟨before, c, rfl⟩
  · exact hy
  · rw [joinPrev_append_singleton]
    split
    · next hfree =>
        rw [List.append_assoc, List.singleton_append] at h hy
        have hmin := h.blockMin_le_of_free (b := c) (by simp) hfree
        have hchain := h.next
        rw [List.isChain_append, List.isChain_cons_cons] at hchain
        exact owned_join (hchain.2.1.1 (by rw [blockMin] at hmin; omega)) hy
    · exact hy

theorem owned_joinNext (h : Layout t (before ++ (x :: after))) (hused : x.size ≠ 0) {y : Nat} (hy : Owned t (before ++ (x :: after)) y) :
    Owned t (before ++ ((joinNext x after).1 :: (joinNext x after).2)) y := by
  obtain ⟨n, rest, rfl, hnext⟩ := h.next_block hused
  rw [joinNext]
  split
  · exact owned_join hnext hy
  · exact hy

/-- The memory once `tlsf_free` has marked the block, once it has joined the block in front, and just before the joined block is filed. -/
def freeMarked (b : Nat) (m : Memory) : Memory := blockWriteFooter b (blockSetFree b true m)

def freeMerged (t b : Nat) (m : Memory) : Nat × Memory := coalescePrev t b (freeMarked b m)

def freeClosed (t b : Nat) (m : Memory) : Memory :=
  let merged := freeMerged t b m
  let m := coalesceNext t merged.1 merged.2
  blockWriteFooter merged.1 (blockSetPrevFree (blockPhysNext m merged.1) true m)

theorem tlsfFree_eq {a : Nat} (ht : t ≠ 0) : tlsfFree t (blockToPtr a) m = insertBlock t (freeMerged t a m).1 (freeClosed t a m) := by
  have hptr : ¬(t = 0 ∨ blockToPtr a = 0) := by
    rw [blockToPtr, hdrSize]
    omega
  rw [tlsfFree, if_neg hptr, show ptrToBlock (blockToPtr a) = a from Nat.add_sub_cancel ..]
  rfl

/-- The steps of `tlsf_free` up to the last one, with the block open all along. -/
structure Freeing (m : Memory) (t : Nat) (before : List TlsfBlock) (b : TlsfBlock) (after : List TlsfBlock) : Prop where
  marked : ∃ lists, Open (freeMarked b.addr m) t before { b with free := true } after false lists
  merged : (freeMerged t b.addr m).1 = (joinPrev before { b with free := true }).2.addr
  joined : ∃ lists, Open (freeMerged t b.addr m).2 t (joinPrev before { b with free := true }).1 (joinPrev before { b with free := true }).2 after
    false lists
  addr : (freed before b after).2.1.addr = (freeMerged t b.addr m).1
  free : (freed before b after).2.1.free = true
  closed : ∃ lists, Open (freeClosed t b.addr m) t (freed before b after).1 (freed before b after).2.1 (freed before b after).2.2 true lists
  footer : (freeClosed t b.addr m).load (blockFooter (freeClosed t b.addr m) (freed before b after).2.1.addr) 8 = (freed before b after).2.1.addr
  left : lastFree false (freed before b after).1 = false
  right : ∀ c ∈ (freed before b after).2.2.head?, c.free = false
  frame : ∀ y, ¬Owned t (freedBlocks before b after) y → freeClosed t b.addr m y = m y

theorem Represents.freeing {h : TlsfHeap} (hrep : Represents m h) (hblocks : h.blocks = before ++ (b :: after)) (hused : b.free = false)
    (hne : b.size ≠ 0) : Freeing m h.t before b after := by
  have hb : b ∈ h.blocks := by simp [hblocks]
  have hopen := hrep.toOpen hblocks hused hne
  have hbsmall := h.small b hb
  -- the header says that the block is free
  have hfree : Open (blockSetFree b.addr true m) h.t before { b with free := true } after false h.lists := by
    refine hopen.edit (fun y hy => Memory.store_apply_of_outside _ ?_) hopen.header.setFree
    simp only [TlsfBlock.fin, hdrSize] at hy
    omega
  have hframe₁ : ∀ y, ¬Owned h.t (before ++ ({ b with free := true } :: after)) y → blockSetFree b.addr true m y = m y := by
    intro y hy
    refine Memory.store_apply_of_outside _ ?_
    by_contra hin
    exact hy (Owned.of_mem (b := { b with free := true }) (by simp) (by simp only; omega) (Or.inl (by simp only [hdrSize]; omega)))
  obtain ⟨hfooter, -, hframe₂⟩ := hfree.writeFooter rfl
  obtain ⟨haddr, ⟨lists₁, hprev⟩, hframe₃, hprevfree, hleft⟩ := coalescePrev_open hfooter rfl (by simp only; omega)
  have hpsize : (joinPrev before { b with free := true }).2.size < 2 ^ 27 :=
    joinPrev_size_lt (fun c hc => hopen.small c (List.mem_append_left _ hc)) hbsmall
  obtain ⟨⟨p, lists₂, hnext⟩, hframe₄, hnextfree, haddr', hright⟩ := coalesceNext_open hprev hprevfree hpsize
  obtain ⟨hflag, -, hframe₅⟩ := hnext.setNext true
  obtain ⟨hclosed, hfoot, hframe₆⟩ := hflag.writeFooter hnextfree
  have hmerged : (freeMerged h.t b.addr m).1 = (joinPrev before { b with free := true }).2.addr := haddr
  have hprogram : freeClosed h.t b.addr m = blockWriteFooter (freed before b after).2.1.addr
      (blockSetPrevFree (blockPhysNext (coalesceNext h.t (joinPrev before { b with free := true }).2.addr (freeMerged h.t b.addr m).2)
        (freed before b after).2.1.addr) true (coalesceNext h.t (joinPrev before { b with free := true }).2.addr (freeMerged h.t b.addr m).2)) := by
    rw [freeClosed, hmerged, freed, haddr']
  refine ⟨⟨_, hfooter⟩, hmerged, ⟨_, hprev⟩, haddr'.trans hmerged.symm, hnextfree, ⟨lists₂, ?_⟩, ?_, hleft, hright, fun y hy => ?_⟩
  · rw [hprogram]
    exact hclosed
  · rw [hprogram]
    exact hfoot
  · have hy₁ : ¬Owned h.t ((joinPrev before { b with free := true }).1 ++ ((joinPrev before { b with free := true }).2 :: after)) y :=
      fun hin => hy (owned_joinNext hprev.layout hprev.used hin)
    have hy₂ : ¬Owned h.t (before ++ ({ b with free := true } :: after)) y := fun hin => hy₁ (owned_joinPrev hfree.layout hin)
    rw [hprogram]
    exact (hframe₆ y hy).trans ((hframe₅ y hy).trans ((hframe₄ y hy).trans ((hframe₃ y hy₁).trans ((hframe₂ y hy₂).trans (hframe₁ y hy₂)))))

theorem tlsfFree_refines {h : TlsfHeap} (hrep : Represents m h) (hblocks : h.blocks = before ++ (b :: after)) (hused : b.free = false)
    (hne : b.size ≠ 0) (hsize : (freed before b after).2.1.size < 2 ^ 25) :
    (∃ h' : TlsfHeap, h'.t = h.t ∧ h'.blocks = freedBlocks before b after ∧ Represents (tlsfFree h.t (blockToPtr b.addr) m) h') ∧
      ∀ y, ¬Owned h.t (freedBlocks before b after) y → tlsfFree h.t (blockToPtr b.addr) m y = m y := by
  have hfreeing := hrep.freeing hblocks hused hne
  obtain ⟨lists, hclosed⟩ := hfreeing.closed
  obtain ⟨hheap, hframe⟩ := hclosed.insert h.pos hfreeing.free hsize hfreeing.footer hfreeing.left hfreeing.right
  rw [tlsfFree_eq h.pos, ← hfreeing.addr]
  exact ⟨hheap, fun y hy => (hframe y hy).trans (hfreeing.frame y hy)⟩

end Tsukasa
