import Tsukasa.Fs.Fat12Dir
import Tsukasa.Lib.Blocks

/-!
# Reading and writing a chain on a FAT12 volume

The loop of a read is a read of the blocks of the chain. The loop of a write allocates one cluster after the other; the chain it builds is not yet in any directory entry, so it is kept as one more owner beside the others until the entry is written.
-/

namespace Tsukasa

open Lib (Memory)
open Lib.AllocTable (Sound)

variable {v v' w : Fat12} {off c first : Nat} {cs others : List Nat}

/-! ### Clusters in the image -/

/-- The blocks of a chain, as offsets into the image. -/
def blocksOf (g : Fat12Geometry) (cs : List Nat) : List Nat := cs.map fun c => g.dataOffset + (c - 2) * clusterBytes g

theorem clusterToOffset_eq (h : Fat12Layout v) (hlo : 2 ≤ c) (hhi : c < v.geometry.totalClusters + 2) :
    clusterToOffset v.geometry c = v.geometry.dataOffset + (c - 2) * clusterBytes v.geometry ∧
      v.geometry.dataOffset + (c - 2) * clusterBytes v.geometry + clusterBytes v.geometry ≤
        v.geometry.dataOffset + v.geometry.totalClusters * clusterBytes v.geometry := by
  have hmul : (c - 2 + 1) * clusterBytes v.geometry ≤ v.geometry.totalClusters * clusterBytes v.geometry := Nat.mul_le_mul_right _ (by omega)
  have hsmall := h.small
  rw [Nat.succ_mul] at hmul
  refine ⟨?_, by omega⟩
  rw [clusterToOffset, if_neg (by omega), wrap32_of_lt (by omega)]

theorem clusters_apart (g : Fat12Geometry) {c c' : Nat} (hc : 2 ≤ c) (hc' : 2 ≤ c') (hne : c ≠ c') :
    g.dataOffset + (c - 2) * clusterBytes g + clusterBytes g ≤ g.dataOffset + (c' - 2) * clusterBytes g ∨
      g.dataOffset + (c' - 2) * clusterBytes g + clusterBytes g ≤ g.dataOffset + (c - 2) * clusterBytes g := by
  rcases Nat.lt_or_gt_of_ne hne with hlt | hgt
  · have := Nat.mul_le_mul_right (clusterBytes g) (show c - 2 + 1 ≤ c' - 2 by omega)
    rw [Nat.succ_mul] at this
    omega
  · have := Nat.mul_le_mul_right (clusterBytes g) (show c' - 2 + 1 ≤ c - 2 by omega)
    rw [Nat.succ_mul] at this
    omega

/-- The FAT is below the root directory. -/
theorem fatOf_congr (h : Fat12Layout v) (himage : ∃ d, w = { v with disk := d })
    (hbelow : ∀ x < v.geometry.rootDirOffset, w.disk x = v.disk x) : fatOf w = fatOf v := by
  obtain ⟨d, rfl⟩ := himage
  funext c
  rw [fatOf, fatOf]
  split
  · rename_i hrange
    have hroom := h.entry_room hrange.2
    have hcopy := h.copy_le h.fats
    rw [getNextCluster_eq h hrange.1 hrange.2, getNextCluster_eq (h.disk d) hrange.1 hrange.2]
    apply Memory.get12_congr
    · exact hbelow (Memory.at12 v.geometry.fatOffset c) (by rw [Memory.at12]; omega)
    · exact hbelow (Memory.at12 v.geometry.fatOffset c + 1) (by rw [Memory.at12]; omega)
  · rfl

theorem fatCopies_congr (h : Fat12Layout v) {d : Memory} (hbelow : ∀ x < v.geometry.rootDirOffset, d x = v.disk x)
    (hcopies : FatCopies v.geometry v.disk) : FatCopies v.geometry d := by
  intro fi hfi i hi
  have hcopy := h.copy_le hfi
  have hfirst := h.copy_le h.fats
  rw [hbelow _ (by omega), hbelow _ (by omega), hcopies fi hfi i hi]

/-! ### Reading -/

/-- On offsets that do not wrap, a copy out of the image reads a block. -/
theorem map_copyOffsets (d : Memory) {a n : Nat} (h : a + n ≤ 2 ^ 32) : (copyOffsets a n).map d = d.bytes a n := by
  rw [copyOffsets, List.map_map]
  apply List.map_congr_left
  intro i hi
  have := List.mem_range.mp hi
  rw [Function.comp_apply, wrap32_of_lt (by omega)]

theorem copyLength_eq (h : Fat12Layout v) (hlo : 2 ≤ c) (hhi : c < v.geometry.totalClusters + 2) (max done : Nat) :
    copyLength v max done c = min (clusterBytes v.geometry) (max - done) := by
  obtain ⟨hoffset, hend⟩ := clusterToOffset_eq h hlo hhi
  have himage := h.image
  have hsmall := h.small
  have hcopy : (if max < done + clusterBytes v.geometry then max - done else clusterBytes v.geometry) = min (clusterBytes v.geometry) (max - done) := by
    split <;> omega
  have hwrap : ∀ n ≤ clusterBytes v.geometry, ¬ v.size < wrap32 (v.geometry.dataOffset + (c - 2) * clusterBytes v.geometry + n) := by
    intro n hn
    rw [wrap32_of_lt (by omega)]
    omega
  simp only [copyLength, hoffset, hcopy, if_neg (hwrap _ (Nat.min_le_left _ _))]

theorem readLoop_eq (h : Fat12Layout v) (hchain : ChainOf v first cs) {fuel max : Nat} (hfuel : cs.length < fuel) (before : List UInt8) :
    readLoop v max fuel first (before.take max) =
      some ((before ++ Lib.readBlocks (clusterBytes v.geometry) v.disk (blocksOf v.geometry cs)).take max) := by
  induction cs generalizing first fuel before with
  | nil =>
      obtain ⟨fuel, rfl⟩ := Nat.exists_eq_add_one_of_ne_zero (Nat.ne_of_gt hfuel)
      rw [readLoop, if_neg fun hrange => hchain.head_none ⟨hrange.1, hrange.2.1⟩]
      simp [blocksOf, Lib.readBlocks]
  | cons x cs ih =>
      obtain ⟨fuel, rfl⟩ := Nat.exists_eq_add_one_of_ne_zero (Nat.ne_of_gt (Nat.lt_of_le_of_lt (Nat.zero_le _) hfuel))
      have hrange := hchain.range x List.mem_cons_self
      obtain ⟨rfl, hlo, hhi, hrest⟩ := hchain.tail
      obtain ⟨hoffset, hend⟩ := clusterToOffset_eq h hrange.1 hrange.2
      have himage := h.image
      have hsmall := h.small
      have hnext : fatOf v first = getNextCluster v first := fatOf_of_range hrange.1 hrange.2
      rw [readLoop]
      split
      · rename_i hcond
        simp only [copyLength_eq h hrange.1 hrange.2, hoffset]
        rw [map_copyOffsets v.disk (by omega), Lib.take_append_bytes hcond.2.2]
        rw [← hnext, ih hrest (Nat.lt_of_succ_lt_succ hfuel), blocksOf, blocksOf, List.map_cons, Lib.readBlocks, Lib.readBlocks,
          List.flatMap_cons, List.append_assoc]
      · rename_i hcond
        have hlen : max ≤ before.length := by
          have hle : ¬ (before.take max).length < max := fun hlt => hcond ⟨hlo, hhi, hlt⟩
          rw [List.length_take] at hle
          omega
        rw [List.take_append_of_le_length hlen]

/-! ### Writing -/

/-- Table values that mark a cluster as reserved or bad. -/
def fatReserved (x : Nat) : Prop := x = 1 ∨ (0xFF0 ≤ x ∧ x < 0xFF8)

/-- No cluster of the volume is shared and none is lost. -/
def TableSound (v : Fat12) (firsts : Nat ⊕ Nat → Option Nat) (chain : Nat ⊕ Nat → List Nat) : Prop :=
  Sound (fatOf v) fat12Eoc (v.geometry.totalClusters + 2) fatReserved firsts chain

theorem firstOf_append (v : Fat12) (others : List Nat) (f : Nat) :
    firstOf v (others ++ [f]) = Function.update (firstOf v others) (.inr others.length) (some f) := by
  funext o
  cases o with
  | inl off =>
      rw [Function.update_of_ne (by simp)]
      rfl
  | inr i =>
      by_cases heq : i = others.length
      · rw [heq, Function.update_self, firstOf, List.getElem?_concat_length]
      · rw [Function.update_of_ne (by simpa using heq), firstOf, firstOf]
        by_cases hlt : i < others.length
        · rw [List.getElem?_append_left hlt]
        · rw [List.getElem?_eq_none (by rw [List.length_append, List.length_singleton]; omega), List.getElem?_eq_none (by omega)]

/-- The loop of a write has come from `v` to `w`: `cs` are the clusters it has taken, and they hold `done`. -/
structure Writing (v w : Fat12) (others : List Nat) (chain : Nat ⊕ Nat → List Nat) (done : List UInt8) (cs : List Nat) : Prop where
  image : ∃ d, w = { v with disk := d }
  table : TableSound w (firstOf v (others ++ [cs.headD 0])) (Function.update chain (.inr others.length) cs)
  fat : ∀ c, c ∉ cs → fatOf w c = fatOf v c
  free : ∀ c ∈ cs, fatOf v c = 0
  outside : ∀ x, v.geometry.rootDirOffset ≤ x → (∀ a ∈ blocksOf v.geometry cs, x < a ∨ a + clusterBytes v.geometry ≤ x) → w.disk x = v.disk x
  copies : FatCopies v.geometry w.disk
  written : done <+: Lib.readBlocks (clusterBytes v.geometry) w.disk (blocksOf v.geometry cs)

variable {chain : Nat ⊕ Nat → List Nat} {done : List UInt8}

theorem Writing.start (htable : TableSound v (firstOf v others) chain) (hcopies : FatCopies v.geometry v.disk) :
    Writing v v others chain [] [] := by
  have habsent : firstOf v others (.inr others.length) = none := List.getElem?_eq_none le_rfl
  have hnil : chain (.inr others.length) = [] := htable.absent _ habsent
  refine ⟨⟨v.disk, rfl⟩, ?_, fun _ _ => rfl, fun _ hc => absurd hc List.not_mem_nil, fun _ _ _ => rfl, hcopies, List.nil_prefix⟩
  have hself : Function.update chain (.inr others.length) [] = chain := by
    rw [← hnil, Function.update_eq_self]
  rw [hself, firstOf_append]
  exact htable.add habsent (by decide)

theorem Writing.geometry (h : Writing v w others chain done cs) : w.geometry = v.geometry := by
  obtain ⟨d, rfl⟩ := h.image
  rfl

theorem Writing.ownChain (h : Writing v w others chain done cs) : ChainOf w (cs.headD 0) cs := by
  have hfirst : firstOf v (others ++ [cs.headD 0]) (.inr others.length) = some (cs.headD 0) := by
    rw [firstOf_append, Function.update_self]
  have := h.table.chains _ _ hfirst
  rwa [Function.update_self] at this

theorem Writing.range (h : Writing v w others chain done cs) : ∀ c ∈ cs, 2 ≤ c ∧ c < v.geometry.totalClusters + 2 := by
  rw [← h.geometry]
  exact h.ownChain.range

/-- A cluster is allocated and put behind the last one. -/
theorem Writing.link (hlayout : Fat12Layout v) (h : Writing v w others chain done cs) {w₁ : Fat12} (hlo : 2 ≤ c) (hhi : c < w.geometry.totalClusters + 2)
    (hfree : fatOf w c = 0) (honly : FatOnly w w₁) (hfat : fatOf w₁ = Function.update (fatOf w) c 0xFFF) :
    ∃ w₂, (if cs.getLastD 0 ≠ 0 then setCluster w₁ (cs.getLastD 0) c else w₁) = w₂ ∧ FatOnly w w₂ ∧
      TableSound w₂ (firstOf v (others ++ [(cs ++ [c]).headD 0])) (Function.update chain (.inr others.length) (cs ++ [c])) ∧
      ∀ c', c' ∉ cs ++ [c] → fatOf w₂ c' = fatOf w c' := by
  have hw : Fat12Layout w := by
    obtain ⟨d, rfl⟩ := h.image
    exact hlayout.disk d
  have hclusters := hw.clusters
  have hlim : w.geometry.totalClusters + 2 ≤ fat12Eoc := by
    rw [fat12Eoc]
    omega
  refine ⟨_, rfl, ?_⟩
  rcases List.eq_nil_or_concat cs with rfl | ⟨l, t, rfl⟩
  · rw [if_neg (by simp)]
    refine ⟨honly, ?_, ?_⟩
    · have hstart := h.table.start (i := .inr others.length) (Function.update_self _ _ _) hfree hlo hhi hlim (show fat12Eoc ≤ 0xFFF by decide)
        (by decide)
      rw [firstOf_append, Function.update_idem, Function.update_idem] at hstart
      rw [TableSound, hfat, honly.geometry, firstOf_append]
      exact hstart
    · intro c' hc'
      rw [hfat]
      exact Function.update_of_ne (by simpa using hc') _ _
  · rw [List.concat_eq_append] at h ⊢
    have ht := h.range t (by simp)
    have hlast : (l ++ [t]).getLastD 0 = t := by simp
    rw [hlast, if_pos (by omega)]
    have hct : c < 4096 := by omega
    have htw : t < w₁.geometry.totalClusters + 2 := by
      rw [honly.geometry, h.geometry]
      exact ht.2
    obtain ⟨honly', hfat'⟩ := setCluster_write (honly.layout hw) ht.1 htw hct
    have hhead : (l ++ [t] ++ [c]).headD 0 = (l ++ [t]).headD 0 := by
      cases l with
      | nil => rfl
      | cons x l => rfl
    refine ⟨honly.trans honly', ?_, ?_⟩
    · have hfirst : firstOf v (others ++ [(l ++ [t]).headD 0]) (.inr others.length) = some ((l ++ [t]).headD 0) := by
        rw [firstOf_append, Function.update_self]
      have hextend := h.table.extend hfirst (Function.update_self _ _ _) hfree hlo hhi hlim (show fat12Eoc ≤ 0xFFF by decide) (by decide)
      rw [Function.update_idem] at hextend
      rw [TableSound, hfat', hfat, honly'.geometry, honly.geometry, hhead]
      exact hextend
    · intro c' hc'
      simp only [List.mem_append, List.mem_singleton, not_or] at hc'
      rw [hfat', hfat, Function.update_of_ne hc'.1.2, Function.update_of_ne hc'.2]

/-- A copy into the image is a store of the whole block where the block lies in the image. -/
theorem copyToImage_eq (v : Fat12) {a n : Nat} (src : List UInt8) (hwrap : a + n ≤ 2 ^ 32) (hsize : a + n ≤ v.size) :
    copyToImage v a n src = v.disk.blit a n fun i => src.getD i 0 := by
  have hall : (List.range n).takeWhile (fun i => wrap32 (a + i) < v.size) = List.range n := by
    rw [List.takeWhile_eq_self_iff]
    intro i hi
    have := List.mem_range.mp hi
    rw [wrap32_of_lt (by omega)]
    exact decide_eq_true (by omega)
  rw [copyToImage, hall]
  clear hall
  induction n with
  | zero =>
      funext x
      exact (Memory.blit_apply_of_outside v.disk _ (by omega)).symm
  | succ n ih =>
      rw [List.range_succ, List.foldl_append, ih (by omega) (by omega), List.foldl_cons, List.foldl_nil, wrap32_of_lt (by omega)]
      funext x
      rw [Function.update_apply, Memory.blit, Memory.blit]
      split
      · rename_i hx
        rw [if_pos (by omega), show x - a = n by omega]
      · rename_i hx
        simp only [show (a ≤ x ∧ x < a + (n + 1)) ↔ (a ≤ x ∧ x < a + n) by omega]

theorem bytes_blit_getD (m : Memory) (a : Nat) (src : List UInt8) (n : Nat) (hn : n ≤ src.length) :
    (m.blit a n fun i => src.getD i 0).bytes a n = src.take n := by
  rw [Memory.bytes_blit_self, Lib.bytes_getD, Nat.sub_eq_zero_of_le hn, List.replicate_zero, List.append_nil]

/-- The image with the front of `src` in cluster `c`. -/
def filled (g : Fat12Geometry) (d : Memory) (c : Nat) (src : List UInt8) : Memory :=
  d.blit (g.dataOffset + (c - 2) * clusterBytes g) (min src.length (clusterBytes g)) fun i => src.getD i 0

theorem filled_apply_of_outside {g : Fat12Geometry} {d : Memory} {src : List UInt8} {x : Nat}
    (hx : x < g.dataOffset + (c - 2) * clusterBytes g ∨ g.dataOffset + (c - 2) * clusterBytes g + clusterBytes g ≤ x) : filled g d c src x = d x :=
  Memory.blit_apply_of_outside d _ (by omega)

theorem filled_block (g : Fat12Geometry) (d : Memory) (c : Nat) (src : List UInt8) :
    src.take (clusterBytes g) <+: (filled g d c src).bytes (g.dataOffset + (c - 2) * clusterBytes g) (clusterBytes g) := by
  have htake : src.take (clusterBytes g) = src.take (min src.length (clusterBytes g)) := by
    rw [List.take_eq_take_iff]
    omega
  rw [htake, ← bytes_blit_getD d (g.dataOffset + (c - 2) * clusterBytes g) src _ (Nat.min_le_left _ _),
    ← Lib.bytes_take _ _ (Nat.min_le_right src.length (clusterBytes g))]
  exact List.take_prefix _ _

/-- The new cluster is filled. -/
theorem Writing.fill (hlayout : Fat12Layout v) (h : Writing v w others chain done cs) (hfull : done.length = clusterBytes v.geometry * cs.length)
    {w₂ : Fat12} (hlo : 2 ≤ c) (hfree : fatOf w c = 0) (honly : FatOnly w w₂)
    (htable : TableSound w₂ (firstOf v (others ++ [(cs ++ [c]).headD 0])) (Function.update chain (.inr others.length) (cs ++ [c])))
    (hfat : ∀ c', c' ∉ cs ++ [c] → fatOf w₂ c' = fatOf w c') (src : List UInt8) :
    Writing v { w₂ with disk := filled v.geometry w₂.disk c src } others chain (done ++ src.take (clusterBytes v.geometry)) (cs ++ [c]) := by
  obtain ⟨d, rfl⟩ := h.image
  obtain ⟨d₂, rfl⟩ := honly.image
  have hdata := hlayout.data
  have hnot : c ∉ cs := by
    have := h.table.notMem_of_free hfree (.inr others.length)
    rwa [Function.update_self] at this
  have hbelow : ∀ x < v.geometry.rootDirOffset, filled v.geometry d₂ c src x = d₂ x := fun x hx => filled_apply_of_outside (by omega)
  have hfat₃ : fatOf { v with disk := filled v.geometry d₂ c src } = fatOf { v with disk := d₂ } := fatOf_congr (hlayout.disk d₂) ⟨_, rfl⟩ hbelow
  refine ⟨⟨_, rfl⟩, ?_, ?_, ?_, ?_, ?_, ?_⟩
  · rw [TableSound, hfat₃]
    exact htable
  · intro c' hc'
    rw [hfat₃, hfat c' hc', h.fat c' fun hmem => hc' (List.mem_append_left _ hmem)]
  · intro c' hc'
    rcases List.mem_append.mp hc' with hmem | hmem
    · exact h.free c' hmem
    · rw [List.mem_singleton.mp hmem, ← h.fat c hnot, hfree]
  · intro x hx hblocks
    have hnew := hblocks (v.geometry.dataOffset + (c - 2) * clusterBytes v.geometry) (by simp [blocksOf])
    have hold := h.outside x hx fun a ha => hblocks a (by rw [blocksOf, List.map_append]; exact List.mem_append_left _ ha)
    exact (filled_apply_of_outside hnew).trans ((honly.behind x hx).trans hold)
  · exact fatCopies_congr (hlayout.disk d₂) hbelow (honly.copies h.copies)
  · have hdone : done = Lib.readBlocks (clusterBytes v.geometry) d (blocksOf v.geometry cs) := by
      apply h.written.eq_of_length
      rw [hfull, Lib.length_readBlocks, blocksOf, List.length_map]
    have hsame : Lib.readBlocks (clusterBytes v.geometry) (filled v.geometry d₂ c src) (blocksOf v.geometry cs) = done := by
      rw [hdone]
      apply Lib.readBlocks_congr
      intro a ha x hxlo hxhi
      obtain ⟨c', hc', rfl⟩ := List.mem_map.mp ha
      have hne : c' ≠ c := fun heq => hnot (heq ▸ hc')
      have := clusters_apart v.geometry (h.range c' hc').1 hlo hne
      exact (filled_apply_of_outside (by omega)).trans (honly.behind x (by simp only; omega))
    have hblock : Lib.readBlocks (clusterBytes v.geometry) (filled v.geometry d₂ c src) (blocksOf v.geometry (cs ++ [c])) =
        done ++ (filled v.geometry d₂ c src).bytes (v.geometry.dataOffset + (c - 2) * clusterBytes v.geometry) (clusterBytes v.geometry) := by
      rw [← hsame, blocksOf, blocksOf, List.map_append, Lib.readBlocks, Lib.readBlocks, List.flatMap_append]
      simp
    simp only [hblock]
    rw [List.prefix_append_right_inj]
    exact filled_block v.geometry d₂ c src

/-- The loop has given up: every cluster is in use, and not all of `src` is written. -/
def WriteFull (v w : Fat12) (others : List Nat) (chain : Nat ⊕ Nat → List Nat) (src : List UInt8) : Prop :=
  ∃ part cs, Writing v w others chain part cs ∧ part.length = clusterBytes v.geometry * cs.length ∧ part.length < src.length ∧ freeClusters w = ∅

/-- The loop runs to its end or fills the disk. -/
theorem writeLoop_eq (hlayout : Fat12Layout v) {fuel : Nat} {src : List UInt8} (hfuel : src.length ≤ fuel) (h : Writing v w others chain done cs)
    (hfull : src ≠ [] → done.length = clusterBytes v.geometry * cs.length) :
    ∃ w' r, writeLoop fuel w (cs.headD 0) (cs.getLastD 0) src = some (w', r) ∧
      (∀ f, r = some f → ∃ cs', f = cs'.headD 0 ∧ Writing v w' others chain (done ++ src) cs') ∧
      (r = none → WriteFull v w' others chain (done ++ src)) := by
  induction fuel generalizing w cs done src with
  | zero =>
      have hnil : src = [] := List.eq_nil_of_length_eq_zero (by omega)
      refine ⟨w, some (cs.headD 0), ?_, ?_, fun hnone => absurd hnone.symm (Option.some_ne_none _).symm⟩
      · rw [writeLoop, if_pos hnil]
      · intro f hf
        exact ⟨cs, (Option.some.inj hf).symm, by rwa [hnil, List.append_nil]⟩
  | succ fuel ih =>
      rw [writeLoop]
      split
      · rename_i hnil
        refine ⟨w, some (cs.headD 0), rfl, ?_, fun hnone => absurd hnone.symm (Option.some_ne_none _).symm⟩
        intro f hf
        exact ⟨cs, (Option.some.inj hf).symm, by rwa [hnil, List.append_nil]⟩
      rename_i hsrc
      have hw : Fat12Layout w := by
        obtain ⟨d, rfl⟩ := h.image
        exact hlayout.disk d
      have hgeometry := h.geometry
      rcases allocCluster_cases hw with hnone | ⟨c, w₁, halloc, hlo, hhi, hfree, honly, hfat⟩
      · refine ⟨w, none, ?_, fun f hf => absurd hf.symm (Option.some_ne_none f), fun _ => ⟨done, cs, h, hfull hsrc, ?_, allocCluster_full hw hnone⟩⟩
        · rw [hnone]
          rfl
        rw [List.length_append]
        exact Nat.lt_add_of_pos_right (List.length_pos_iff.mpr hsrc)
      · obtain ⟨w₂, hw₂, honly₂, htable₂, hfat₂⟩ := h.link hlayout hlo hhi hfree honly hfat
        rw [hgeometry] at hhi
        have hfilled := h.fill hlayout (hfull hsrc) hlo hfree honly₂ htable₂ hfat₂ src
        obtain ⟨hoffset, hend⟩ := clusterToOffset_eq hlayout hlo hhi
        have himage := hlayout.image
        have hcluster := hlayout.cluster
        have hpos : 0 < src.length := List.length_pos_iff.mpr hsrc
        have hsize : w₂.size = v.size ∧ w₂.geometry = v.geometry := by
          obtain ⟨d, rfl⟩ := h.image
          obtain ⟨d₂, rfl⟩ := honly₂.image
          exact ⟨rfl, rfl⟩
        have hsmall := hlayout.small
        have hcopy : copyToImage w₂ (v.geometry.dataOffset + (c - 2) * clusterBytes v.geometry) (min src.length (clusterBytes v.geometry)) src =
            filled v.geometry w₂.disk c src := copyToImage_eq w₂ src (by omega) (by omega)
        have hrest : (src.drop (min src.length (clusterBytes v.geometry))).length ≤ fuel := by
          rw [List.length_drop]
          omega
        have hfull' : src.drop (min src.length (clusterBytes v.geometry)) ≠ [] →
            (done ++ src.take (clusterBytes v.geometry)).length = clusterBytes v.geometry * (cs ++ [c]).length := by
          intro hmore
          have hlong : clusterBytes v.geometry ≤ src.length := by
            by_contra hneg
            apply hmore
            rw [List.drop_eq_nil_iff]
            omega
          rw [List.length_append, List.length_take, List.length_append, hfull hsrc, List.length_singleton, Nat.mul_add, Nat.mul_one,
            Nat.min_eq_left hlong]
        obtain ⟨w', r, hloop, hresult, hgivenUp⟩ := ih hrest hfilled hfull'
        have hfirst : (if cs.getLastD 0 ≠ 0 then cs.headD 0 else c) = (cs ++ [c]).headD 0 := by
          rcases List.eq_nil_or_concat cs with rfl | ⟨l, t, rfl⟩
          · rfl
          · have ht := (h.range t (by simp)).1
            rw [List.concat_eq_append, List.getLastD_concat, if_pos (by omega)]
            cases l with
            | nil => rfl
            | cons x l => rfl
        have hlast : (cs ++ [c]).getLastD 0 = c := List.getLastD_concat
        have htake : src.take (clusterBytes v.geometry) = src.take (min src.length (clusterBytes v.geometry)) := by
          rw [List.take_eq_take_iff]
          omega
        rw [List.append_assoc, htake, List.take_append_drop] at hresult hgivenUp
        refine ⟨w', r, ?_, hresult, hgivenUp⟩
        rw [halloc]
        simp only [hw₂, hfirst]
        rw [if_neg (by omega), hsize.2, hoffset, hcopy, hsize.1]
        rw [hlast, hsize.1, hsize.2] at hloop
        exact hloop

end Tsukasa
