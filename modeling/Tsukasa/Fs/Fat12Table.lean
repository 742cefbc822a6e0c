import Tsukasa.Fs.Fat12
import Tsukasa.Lib.AllocTable
import Tsukasa.Lib.Packed

/-!
# The FAT of a FAT12 volume

Lookups go to the first copy of the FAT and writes to all of them. On an image with room for its areas a write changes one entry, in every copy alike, and nothing behind the FATs.
-/

namespace Tsukasa

open Lib (Memory)

def fatBytes (g : Fat12Geometry) : Nat := g.fatSz16 * g.bytesPerSec

/-- The areas of the image in their order, with room for all clusters in the FAT and in the image, and sectors of a size that FAT has. -/
structure Fat12Areas (v : Fat12) : Prop where
  sector : v.geometry.bytesPerSec ≤ 4096
  clusters : v.geometry.totalClusters ≤ 4084
  fats : 1 ≤ v.geometry.numFats
  room : (v.geometry.totalClusters + 1) * 3 / 2 + 2 ≤ fatBytes v.geometry
  root : v.geometry.fatOffset + v.geometry.numFats * fatBytes v.geometry ≤ v.geometry.rootDirOffset
  data : v.geometry.rootDirOffset + v.geometry.rootEntryCnt * 32 ≤ v.geometry.dataOffset
  image : v.geometry.dataOffset + v.geometry.totalClusters * clusterBytes v.geometry ≤ v.size

/-- What `fat12_init` adds to this. -/
structure Fat12Layout (v : Fat12) : Prop extends Fat12Areas v where
  mounted : v.mounted = true
  small : v.geometry.dataOffset + v.geometry.totalClusters * clusterBytes v.geometry < 2 ^ 31
  cluster : 0 < clusterBytes v.geometry

theorem Fat12Layout.disk {v : Fat12} (h : Fat12Layout v) (d : Memory) : Fat12Layout { v with disk := d } := { h with }

/-- All copies of the FAT are the same. -/
def FatCopies (g : Fat12Geometry) (d : Memory) : Prop :=
  ∀ fi < g.numFats, ∀ i < fatBytes g, d (g.fatOffset + fi * fatBytes g + i) = d (g.fatOffset + i)

variable {v v' : Fat12} {g : Fat12Geometry} {d : Memory} {c val : Nat}

theorem Fat12Layout.entry_room (h : Fat12Layout v) (hc : c < v.geometry.totalClusters + 2) : c * 3 / 2 + 2 ≤ fatBytes v.geometry := by
  have := h.room
  omega

/-- A copy of the FAT lies in front of the root directory. -/
theorem Fat12Layout.copy_le (h : Fat12Layout v) {fi : Nat} (hfi : fi < v.geometry.numFats) :
    v.geometry.fatOffset + fi * fatBytes v.geometry + fatBytes v.geometry ≤ v.geometry.rootDirOffset := by
  have hmul : (fi + 1) * fatBytes v.geometry ≤ v.geometry.numFats * fatBytes v.geometry := Nat.mul_le_mul_right _ hfi
  have hroot := h.root
  rw [Nat.succ_mul] at hmul
  omega

theorem Fat12Layout.root_lt (h : Fat12Layout v) : v.geometry.rootDirOffset < 2 ^ 31 ∧ v.geometry.rootDirOffset ≤ v.size := by
  have := h.data
  have := h.image
  have := h.small
  omega

/-! ### Entries whose addresses do not wrap -/

theorem getNextCluster_of_fits (hmounted : v.mounted = true) (hlo : 2 ≤ c) (hsize : v.geometry.fatOffset + c * 3 / 2 + 2 ≤ v.size)
    (hwrap : v.geometry.fatOffset + c * 3 / 2 + 2 ≤ 2 ^ 32) : getNextCluster v c = v.disk.get12 v.geometry.fatOffset c := by
  have hbyte : wrap32 (v.geometry.fatOffset + c * 3 / 2) = v.geometry.fatOffset + c * 3 / 2 := wrap32_of_lt (by omega)
  have hnext : wrap32 (v.geometry.fatOffset + c * 3 / 2 + 1) = v.geometry.fatOffset + c * 3 / 2 + 1 := wrap32_of_lt (by omega)
  rw [getNextCluster, if_neg (by simp [hmounted]; omega)]
  simp only [hbyte, hnext]
  rw [if_neg (by omega)]
  rfl

theorem setFatCopy_of_fits {fi : Nat} (hsize : v.geometry.fatOffset + fi * fatBytes v.geometry + c * 3 / 2 + 2 ≤ v.size)
    (hwrap : v.geometry.fatOffset + fi * fatBytes v.geometry + c * 3 / 2 + 2 ≤ 2 ^ 32) :
    setFatCopy c val v fi = { v with disk := v.disk.set12 (v.geometry.fatOffset + fi * fatBytes v.geometry) c val } := by
  have hassoc : fi * v.geometry.fatSz16 * v.geometry.bytesPerSec = fi * fatBytes v.geometry := Nat.mul_assoc _ _ _
  have hfoff : wrap32 (v.geometry.fatOffset + wrap32 (fi * v.geometry.fatSz16 * v.geometry.bytesPerSec)) =
      v.geometry.fatOffset + fi * fatBytes v.geometry := by
    rw [hassoc, wrap32_of_lt (show fi * fatBytes v.geometry < 2 ^ 32 by omega), wrap32_of_lt (by omega)]
  have hbyte : wrap32 (v.geometry.fatOffset + fi * fatBytes v.geometry + c * 3 / 2) =
      v.geometry.fatOffset + fi * fatBytes v.geometry + c * 3 / 2 := wrap32_of_lt (by omega)
  have hnext : wrap32 (v.geometry.fatOffset + fi * fatBytes v.geometry + c * 3 / 2 + 1) =
      v.geometry.fatOffset + fi * fatBytes v.geometry + c * 3 / 2 + 1 := wrap32_of_lt (by omega)
  simp only [setFatCopy, hfoff, hbyte, hnext]
  rw [if_neg (by omega)]
  rfl

/-- The image after a write to the first `n` copies. -/
def setCopies (g : Fat12Geometry) (c val : Nat) (d : Memory) : Nat → Memory
  | 0 => d
  | n + 1 => (setCopies g c val d n).set12 (g.fatOffset + n * fatBytes g) c val

theorem setCluster_of_fits (hmounted : v.mounted = true) (hlo : 2 ≤ c)
    (hfits : ∀ fi < v.geometry.numFats, v.geometry.fatOffset + fi * fatBytes v.geometry + c * 3 / 2 + 2 ≤ v.size ∧
      v.geometry.fatOffset + fi * fatBytes v.geometry + c * 3 / 2 + 2 ≤ 2 ^ 32) :
    setCluster v c val = { v with disk := setCopies v.geometry c val v.disk v.geometry.numFats } := by
  have hfold : ∀ n ≤ v.geometry.numFats, (List.range n).foldl (setFatCopy c val) v = { v with disk := setCopies v.geometry c val v.disk n } := by
    intro n hn
    induction n with
    | zero => rfl
    | succ n ih =>
        rw [List.range_succ, List.foldl_append, ih (by omega)]
        obtain ⟨hsize, hwrap⟩ := hfits n hn
        exact setFatCopy_of_fits (v := { v with disk := setCopies v.geometry c val v.disk n }) hsize hwrap
  rw [setCluster, if_neg (by simp [hmounted]; omega), hfold _ le_rfl]

/-! ### Entries of an image with a layout -/

theorem getNextCluster_eq (h : Fat12Layout v) (hlo : 2 ≤ c) (hhi : c < v.geometry.totalClusters + 2) :
    getNextCluster v c = v.disk.get12 v.geometry.fatOffset c := by
  have hroom := h.entry_room hhi
  have hcopy := h.copy_le h.fats
  have hroot := h.root_lt
  exact getNextCluster_of_fits h.mounted hlo (by omega) (by omega)

theorem setCluster_eq (h : Fat12Layout v) (hlo : 2 ≤ c) (hhi : c < v.geometry.totalClusters + 2) :
    setCluster v c val = { v with disk := setCopies v.geometry c val v.disk v.geometry.numFats } := by
  apply setCluster_of_fits h.mounted hlo
  intro fi hfi
  have hroom := h.entry_room hhi
  have hcopy := h.copy_le hfi
  have hroot := h.root_lt
  omega

theorem setCopies_apart {n x : Nat} (hx : ∀ fi < n, x < g.fatOffset + fi * fatBytes g + c * 3 / 2 ∨ g.fatOffset + fi * fatBytes g + c * 3 / 2 + 2 ≤ x) :
    setCopies g c val d n x = d x := by
  induction n with
  | zero => rfl
  | succ n ih => rw [setCopies, Memory.set12_apply_of_outside (hx n (Nat.lt_succ_self n)), ih fun fi hfi => hx fi (Nat.lt_succ_of_lt hfi)]

theorem setCopies_outside {n x : Nat} (hroom : c * 3 / 2 + 2 ≤ fatBytes g) (hx : ∀ fi < n, x < g.fatOffset + fi * fatBytes g ∨
    g.fatOffset + fi * fatBytes g + fatBytes g ≤ x) : setCopies g c val d n x = d x := by
  apply setCopies_apart
  intro fi hfi
  have hcopy := hx fi hfi
  omega

/-- Two copies have no byte in common. -/
theorem copies_apart {fi fj i : Nat} (hne : fi ≠ fj) (hi : i < fatBytes g) :
    g.fatOffset + fi * fatBytes g + i < g.fatOffset + fj * fatBytes g ∨
      g.fatOffset + fj * fatBytes g + fatBytes g ≤ g.fatOffset + fi * fatBytes g + i := by
  rcases Nat.lt_or_gt_of_ne hne with hlt | hgt
  · have := Nat.mul_le_mul_right (fatBytes g) (show fi + 1 ≤ fj from hlt)
    rw [Nat.succ_mul] at this
    omega
  · have := Nat.mul_le_mul_right (fatBytes g) (show fj + 1 ≤ fi from hgt)
    rw [Nat.succ_mul] at this
    omega

theorem setCopies_inside {n fi i : Nat} (hroom : c * 3 / 2 + 2 ≤ fatBytes g) (hfi : fi < n) (hi : i < fatBytes g) :
    setCopies g c val d n (g.fatOffset + fi * fatBytes g + i) = d.set12 (g.fatOffset + fi * fatBytes g) c val (g.fatOffset + fi * fatBytes g + i) := by
  induction n with
  | zero => omega
  | succ n ih =>
      rw [setCopies]
      by_cases heq : fi = n
      · subst heq
        apply Memory.set12_copy (fun j hj => ?_) hroom hi
        apply setCopies_outside hroom
        intro fj hfj
        exact copies_apart (Nat.ne_of_gt hfj) hj
      · rw [Memory.set12_apply_of_outside, ih (by omega)]
        have := @copies_apart g fi n i heq hi
        rw [Memory.at12]
        omega

/-- The FAT as a table of clusters. -/
def fatOf (v : Fat12) (c : Nat) : Nat := if 2 ≤ c ∧ c < v.geometry.totalClusters + 2 then getNextCluster v c else 0

/-- Only the FATs may have changed, and all copies alike. -/
structure FatOnly (v v' : Fat12) : Prop where
  image : ∃ d, v' = { v with disk := d }
  behind : ∀ x, v.geometry.rootDirOffset ≤ x → v'.disk x = v.disk x
  copies : FatCopies v.geometry v.disk → FatCopies v.geometry v'.disk

theorem FatOnly.refl (v : Fat12) : FatOnly v v := ⟨⟨v.disk, rfl⟩, fun _ _ => rfl, id⟩

theorem FatOnly.trans {v'' : Fat12} (h : FatOnly v v') (h' : FatOnly v' v'') : FatOnly v v'' := by
  obtain ⟨⟨d, rfl⟩, hbehind, hcopies⟩ := h
  obtain ⟨⟨d', rfl⟩, hbehind', hcopies'⟩ := h'
  exact ⟨⟨d', rfl⟩, fun x hx => (hbehind' x hx).trans (hbehind x hx), fun h => hcopies' (hcopies h)⟩

theorem FatOnly.layout (h : FatOnly v v') (hlayout : Fat12Layout v) : Fat12Layout v' := by
  obtain ⟨d, rfl⟩ := h.image
  exact hlayout.disk d

theorem FatOnly.geometry (h : FatOnly v v') : v'.geometry = v.geometry := by
  obtain ⟨d, rfl⟩ := h.image
  rfl

theorem fatOf_of_range (hlo : 2 ≤ c) (hhi : c < v.geometry.totalClusters + 2) : fatOf v c = getNextCluster v c := if_pos ⟨hlo, hhi⟩

theorem setCopies_entry (h : Fat12Layout v) (hhi : c < v.geometry.totalClusters + 2) (hval : val < 4096) :
    ∀ c', 2 ≤ c' → c' < v.geometry.totalClusters + 2 →
      getNextCluster { v with disk := setCopies v.geometry c val v.disk v.geometry.numFats } c' = if c' = c then val else getNextCluster v c' := by
  have hroom := h.entry_room hhi
  intro c' hlo' hhi'
  have hroom' := h.entry_room hhi'
  rw [getNextCluster_eq h hlo' hhi', getNextCluster_eq (h.disk (setCopies v.geometry c val v.disk v.geometry.numFats)) hlo' hhi']
  have hfirst : ∀ i < fatBytes v.geometry, setCopies v.geometry c val v.disk v.geometry.numFats (v.geometry.fatOffset + i) =
      v.disk.set12 v.geometry.fatOffset c val (v.geometry.fatOffset + i) := by
    intro i hi
    have := @setCopies_inside v.geometry v.disk c val v.geometry.numFats 0 i hroom h.fats hi
    rwa [Nat.zero_mul, Nat.add_zero] at this
  have hget : (setCopies v.geometry c val v.disk v.geometry.numFats).get12 v.geometry.fatOffset c' =
      (v.disk.set12 v.geometry.fatOffset c val).get12 v.geometry.fatOffset c' := by
    apply Memory.get12_congr
    · exact hfirst (c' * 3 / 2) (by omega)
    · exact hfirst (c' * 3 / 2 + 1) (by omega)
  simp only [hget]
  split
  · rename_i heq
    rw [heq, Memory.get12_set12_self v.disk v.geometry.fatOffset c hval]
  · rename_i hne
    exact Memory.get12_set12_of_ne v.disk v.geometry.fatOffset hval hne

/-- A write to an entry of the FAT. -/
theorem setCluster_write (h : Fat12Layout v) (hlo : 2 ≤ c) (hhi : c < v.geometry.totalClusters + 2) (hval : val < 4096) :
    FatOnly v (setCluster v c val) ∧ fatOf (setCluster v c val) = Function.update (fatOf v) c val := by
  have hroom := h.entry_room hhi
  rw [setCluster_eq h hlo hhi]
  refine ⟨⟨⟨_, rfl⟩, ?_, ?_⟩, ?_⟩
  rotate_left 2
  · funext c'
    rw [Function.update_apply, fatOf, fatOf]
    split
    · rename_i hrange
      exact setCopies_entry h hhi hval c' hrange.1 hrange.2
    · rename_i hrange
      have hne : c' ≠ c := by
        rintro rfl
        exact hrange ⟨hlo, hhi⟩
      rw [if_neg hne]
  · intro x hx
    apply setCopies_outside hroom
    intro fi hfi
    have := h.copy_le hfi
    omega
  · intro hcopies fi hfi i hi
    have hfirst := @setCopies_inside v.geometry v.disk c val v.geometry.numFats 0 i hroom h.fats hi
    rw [Nat.zero_mul, Nat.add_zero] at hfirst
    simp only [setCopies_inside hroom hfi hi, hfirst]
    exact Memory.set12_copy (hcopies fi hfi) hroom hi

/-! ### Freeing and allocating -/

/-- A chain of clusters of the volume. -/
def ChainOf (v : Fat12) (first : Nat) (cs : List Nat) : Prop :=
  Lib.AllocTable.Chain (fatOf v) fat12Eoc (v.geometry.totalClusters + 2) first cs

theorem ChainOf.length_le {first : Nat} {cs : List Nat} (h : ChainOf v first cs) (hlayout : Fat12Layout v) : cs.length ≤ fat12Eoc := by
  have hsub : cs ⊆ List.range (v.geometry.totalClusters + 2) := fun c hc => List.mem_range.mpr (h.range c hc).2
  have hle := (h.links.nodup.subperm hsub).length_le
  have hclusters := hlayout.clusters
  rw [List.length_range] at hle
  rw [fat12Eoc]
  omega

/-- Freeing a chain sets its entries to 0 and no others. -/
theorem freeChain_eq (h : Fat12Layout v) {first : Nat} {cs : List Nat} (hchain : ChainOf v first cs) {fuel : Nat} (hfuel : cs.length < fuel) :
    ∃ v', freeChain fuel first v = some v' ∧ FatOnly v v' ∧ ∀ c, fatOf v' c = if c ∈ cs then 0 else fatOf v c := by
  induction cs generalizing v first fuel with
  | nil =>
      obtain ⟨fuel, rfl⟩ := Nat.exists_eq_add_one_of_ne_zero (Nat.ne_of_gt hfuel)
      refine ⟨v, ?_, FatOnly.refl v, fun c => ?_⟩
      · rw [freeChain, if_neg hchain.head_none]
      · rw [if_neg List.not_mem_nil]
  | cons x cs ih =>
      obtain ⟨fuel, rfl⟩ := Nat.exists_eq_add_one_of_ne_zero (Nat.ne_of_gt (Nat.lt_of_le_of_lt (Nat.zero_le _) hfuel))
      have hnodup := List.nodup_cons.mp hchain.links.nodup
      have hrange := hchain.range x List.mem_cons_self
      obtain ⟨rfl, hlo, hhi, hrest⟩ := hchain.tail
      obtain ⟨honly, hfat⟩ := setCluster_write h hrange.1 hrange.2 (show 0 < 4096 by decide)
      have hrest' : ChainOf (setCluster v first 0) (getNextCluster v first) cs := by
        rw [ChainOf, honly.geometry, ← fatOf_of_range hrange.1 hrange.2]
        apply hrest.congr
        intro c hc
        have hne : c ≠ first := fun heq => hnodup.1 (heq ▸ hc)
        rw [hfat, Function.update_of_ne hne]
      obtain ⟨v', hfree, honly', hfat'⟩ := ih (honly.layout h) hrest' (Nat.lt_of_succ_lt_succ hfuel)
      refine ⟨v', ?_, honly.trans honly', ?_⟩
      · rw [freeChain, if_pos ⟨hlo, hhi⟩, hfree]
      · intro c
        rw [hfat', hfat]
        by_cases hc : c ∈ cs
        · rw [if_pos hc, if_pos (List.mem_cons_of_mem first hc)]
        · rw [if_neg hc]
          by_cases heq : c = first
          · rw [heq, Function.update_self, if_pos List.mem_cons_self]
          · rw [Function.update_of_ne heq, if_neg fun hmem => (List.mem_cons.mp hmem).elim heq hc]

theorem Fat12Layout.allocBound (h : Fat12Layout v) : allocBound v.geometry = v.geometry.totalClusters + 2 := by
  have := h.clusters
  exact wrap32_of_lt (by omega)

/-- The allocator marks a free cluster as the end of a chain, or finds the disk full. -/
theorem allocCluster_cases (h : Fat12Layout v) : allocCluster v = some (0, v) ∨ ∃ c v', allocCluster v = some (c, v') ∧
    2 ≤ c ∧ c < v.geometry.totalClusters + 2 ∧ fatOf v c = 0 ∧ FatOnly v v' ∧ fatOf v' = Function.update (fatOf v) c 0xFFF := by
  have hclusters := h.clusters
  rw [allocCluster, h.allocBound, Nat.min_eq_left (by omega), Nat.add_sub_cancel]
  cases hfind : (List.range' 2 v.geometry.totalClusters).find? fun c => getNextCluster v c = 0 with
  | none =>
      left
      simp only
      rw [if_pos (by omega)]
  | some c =>
      right
      have hrange := List.mem_range'_1.mp (List.mem_of_find?_eq_some hfind)
      have hhi : c < v.geometry.totalClusters + 2 := by omega
      have hfree : getNextCluster v c = 0 := by simpa using List.find?_some hfind
      obtain ⟨honly, hfat⟩ := setCluster_write h hrange.1 hhi (show 0xFFF < 4096 by decide)
      exact ⟨c, setCluster v c 0xFFF, rfl, hrange.1, hhi, by rw [fatOf_of_range hrange.1 hhi, hfree], honly, hfat⟩

/-- The clusters an allocation may give out. -/
def freeClusters (v : Fat12) : Finset Nat := Lib.AllocTable.freeUnits (fatOf v) (v.geometry.totalClusters + 2)

/-- The allocator fails on a full disk only. -/
theorem allocCluster_full (h : Fat12Layout v) (hfull : allocCluster v = some (0, v)) : freeClusters v = ∅ := by
  have hclusters := h.clusters
  rw [allocCluster, h.allocBound, Nat.min_eq_left (by omega), Nat.add_sub_cancel] at hfull
  rw [Finset.eq_empty_iff_forall_notMem]
  intro c hc
  obtain ⟨hhi, hlo, hfree⟩ := Lib.AllocTable.mem_freeUnits.mp hc
  rw [fatOf_of_range hlo hhi] at hfree
  have hrange : c ∈ List.range' 2 v.geometry.totalClusters := by
    rw [List.mem_range'_1]
    omega
  split at hfull
  · rename_i c' hfind
    have hlo' := (List.mem_range'_1.mp (List.mem_of_find?_eq_some hfind)).1
    rw [(Prod.mk.inj (Option.some.inj hfull)).1] at hlo'
    omega
  · rename_i hfind
    exact List.find?_eq_none.mp hfind c hrange (decide_eq_true hfree)

/-! ### An accepted image -/

/-- The arithmetic of `fat12_init`, for reserved, FAT and root directory sectors `r`, `n * z` and `e`: the data area starts at a whole sector and ends with the last one. -/
theorem data_area_end {b s r n z e t root data clusters : Nat} (hb : 0 < b) (hb' : b ≤ 4096) (hs : 0 < s) (hs' : s < 256) (hr : r < 2 ^ 16) (hn : n < 256)
    (hz : z < 2 ^ 16) (he : e < 2 ^ 16) (ht : t < 2 ^ 16) (hrootEq : root = wrap32 (r * b + n * z * b)) (hroot : r * b + n * (z * b) ≤ root)
    (hdataEq : data = wrap32 (root + (e * 32 + b - 1) / b * b)) (hdata : root + e * 32 ≤ data)
    (hclustersEq : clusters = wrap32 (t + 2 ^ 32 - data / b) / s) (hclusters : clusters ≤ 4084) : data + clusters * (s * b) ≤ t * b := by
  have hnz : n * z < 256 * 2 ^ 16 := Nat.mul_lt_mul'' hn hz
  have hceil : (e * 32 + b - 1) / b * b ≤ e * 32 + b - 1 := Nat.div_mul_le_self _ _
  have hrs : (e * 32 + b - 1) / b ≤ e * 32 + b - 1 := Nat.div_le_self _ _
  generalize (e * 32 + b - 1) / b = q at hceil hrs hdataEq
  have hrootVal : root = (r + n * z) * b := by
    rw [wrap32] at hrootEq
    rw [← Nat.mul_assoc] at hroot
    rw [Nat.add_mul]
    omega
  have hdataVal : data = (r + n * z + q) * b := by
    rw [wrap32] at hdataEq
    rw [Nat.add_mul, ← hrootVal]
    omega
  have hsectors : data / b = r + n * z + q := by
    rw [hdataVal]
    exact Nat.mul_div_cancel _ hb
  rw [hsectors] at hclustersEq
  have hspace : r + n * z + q ≤ t := by
    by_contra hneg
    have hwrap : wrap32 (t + 2 ^ 32 - (r + n * z + q)) = t + 2 ^ 32 - (r + n * z + q) :=
      wrap32_of_lt (by omega)
    rw [hwrap] at hclustersEq
    have hlarge : 4085 * s ≤ t + 2 ^ 32 - (r + n * z + q) := by omega
    have := (Nat.le_div_iff_mul_le hs).mpr hlarge
    omega
  have hwrap : wrap32 (t + 2 ^ 32 - (r + n * z + q)) = t - (r + n * z + q) := by
    rw [wrap32]
    omega
  have hfit : clusters * s ≤ t - (r + n * z + q) := by
    rw [hclustersEq, hwrap]
    exact Nat.div_mul_le_self _ _
  calc data + clusters * (s * b) = (r + n * z + q + clusters * s) * b := by rw [hdataVal, ← Nat.mul_assoc, ← Nat.add_mul]
    _ ≤ t * b := Nat.mul_le_mul_right b (by omega)

/-- On an image that `fat12_init` accepts no offset has wrapped, and the data area ends with the sectors of the volume. -/
theorem fat12Init_layout {v₀ v : Fat12} {disk : Memory} {size : Nat} (hinit : fat12Init v₀ disk size = (0, v)) (hareas : Fat12Areas v) :
    Fat12Layout v := by
  simp only [fat12Init] at hinit
  split at hinit
  · cases hinit
  split at hinit
  · cases hinit
  split at hinit
  · cases hinit
  rename_i hsize hsignature hzero
  cases hinit
  have hareas' := hareas
  obtain ⟨hsector, hclusters, hfats, hroom, hroot, hdata, himage⟩ := hareas
  have hpos : 0 < disk.load 11 2 ∧ 0 < (disk 13).toNat := by omega
  refine ⟨hareas', rfl, ?_, Nat.mul_pos hpos.2 hpos.1⟩
  have hr : disk.load 14 2 < 2 ^ 16 := disk.load_lt 14 2
  have hz : disk.load 22 2 < 2 ^ 16 := disk.load_lt 22 2
  have he : disk.load 17 2 < 2 ^ 16 := disk.load_lt 17 2
  have ht : (if disk.load 19 2 = 0 then disk.load 32 4 % 2 ^ 16 else disk.load 19 2) < 2 ^ 16 := by
    split
    · exact Nat.mod_lt _ (by decide)
    · exact disk.load_lt 19 2
  have hfat : wrap32 (disk.load 14 2 * disk.load 11 2) = disk.load 14 2 * disk.load 11 2 := by
    apply wrap32_of_lt
    have := Nat.mul_lt_mul_of_lt_of_le hr hsector (by decide)
    simp only at this
    omega
  simp only [hfat, fatBytes, clusterBytes] at *
  have hend := data_area_end hpos.1 hsector hpos.2 (UInt8.toNat_lt _) hr (UInt8.toNat_lt _) hz he ht rfl hroot rfl hdata rfl hclusters
  have hmul := Nat.mul_le_mul (Nat.le_of_lt ht) hsector
  omega

end Tsukasa
