import Tsukasa.Fs.Fat32Lookup
import Tsukasa.Fs.Fat32Path

/-!
# Overwriting a file

`fat32_write_file` fills the chain of a file from its data and sets the size in its directory entry. The loops over the chain are reads and writes of a list of blocks, and the blocks of a file share nothing with the FAT or with a directory, so after the write every lookup still takes the same way.
-/

namespace Tsukasa

open Lib (Memory)

variable {g : Fat32Geometry} {sectors c first : Nat} {cs : List Nat} {v v' w w' : Fat32} {d d' : Memory} {slot : Nat × Nat}

/-! ### The blocks of a chain -/

/-- The sectors of a cluster, as byte addresses on the disk. -/
def clusterBlocks (g : Fat32Geometry) (c : Nat) : List Nat :=
  (List.range g.sectorsPerCluster).map fun s => 512 * (clusterLba g c + s)

def chainBlocks (g : Fat32Geometry) (cs : List Nat) : List Nat := cs.flatMap (clusterBlocks g)

theorem mem_chainBlocks {a : Nat} : a ∈ chainBlocks g cs ↔ ∃ c ∈ cs, ∃ s < g.sectorsPerCluster, a = 512 * (clusterLba g c + s) := by
  simp only [chainBlocks, clusterBlocks, List.mem_flatMap, List.mem_map, List.mem_range]
  constructor
  · rintro ⟨c, hc, s, hs, rfl⟩
    exact ⟨c, hc, s, hs, rfl⟩
  · rintro ⟨c, hc, s, hs, rfl⟩
    exact ⟨c, hc, s, hs, rfl⟩

theorem length_chainBlocks (g : Fat32Geometry) (cs : List Nat) : 512 * (chainBlocks g cs).length = chainBytes g cs := by
  simp [chainBlocks, clusterBlocks, chainBytes, Nat.mul_comm]

theorem chainBytes_cons (g : Fat32Geometry) (c : Nat) (cs : List Nat) :
    chainBytes g (c :: cs) = 512 * g.sectorsPerCluster + chainBytes g cs := by
  rw [chainBytes, chainBytes, List.length_cons, Nat.mul_succ]
  omega

/-- Different clusters have no sector in common. -/
theorem clusterLba_apart {c c' s s' : Nat} (hc : 2 ≤ c) (hc' : 2 ≤ c') (hne : c ≠ c') (hs : s < g.sectorsPerCluster)
    (hs' : s' < g.sectorsPerCluster) : clusterLba g c + s ≠ clusterLba g c' + s' := by
  intro heq
  rw [clusterLba, clusterLba, Nat.add_assoc, Nat.add_assoc, Nat.add_right_inj] at heq
  have hdiv := congrArg (· / g.sectorsPerCluster) heq
  simp only [Nat.mul_comm _ g.sectorsPerCluster, Nat.mul_add_div (Nat.lt_of_le_of_lt (Nat.zero_le s) hs), Nat.div_eq_of_lt hs,
    Nat.div_eq_of_lt hs'] at hdiv
  omega

theorem chainBlocks_apart (htwo : ∀ c ∈ cs, 2 ≤ c) (hnodup : cs.Nodup) : Lib.Apart 512 (chainBlocks g cs) := by
  rw [Lib.Apart, chainBlocks, List.pairwise_flatMap]
  constructor
  · intro c hc
    rw [clusterBlocks, List.pairwise_map]
    apply List.pairwise_lt_range.imp
    intro s s' hlt
    omega
  · apply hnodup.imp_of_mem
    intro c c' hc hc' hne a ha a' ha'
    obtain ⟨s, hs, rfl⟩ := List.mem_map.mp ha
    obtain ⟨s', hs', rfl⟩ := List.mem_map.mp ha'
    have := clusterLba_apart (htwo c hc) (htwo c' hc') hne (List.mem_range.mp hs) (List.mem_range.mp hs')
    omega

/-! ### The loops of a read -/

theorem bytes_ataReadSector {lba n : Nat} (h : n ≤ 512) : (ataReadSector d lba).bytes 0 n = d.bytes (512 * lba) n := by
  apply List.map_congr_left
  intro i hi
  rw [Nat.zero_add, ataReadSector_apply (Nat.lt_of_lt_of_le (List.mem_range.mp hi) h)]

/-- With `before` the full sectors read so far, the buffer is always their first `toRead` bytes. -/
theorem readSectors_eq (hbytes : v.geometry.bytesPerSector = 512) {lba toRead : Nat} {ss : List Nat} (hss : ∀ s ∈ ss, lba + s < 2 ^ 32)
    (before : List UInt8) :
    readSectors v lba toRead ss (before.take toRead) =
      (before ++ Lib.readBlocks 512 v.disk (ss.map fun s => 512 * (lba + s))).take toRead := by
  induction ss generalizing before with
  | nil => simp [readSectors, Lib.readBlocks]
  | cons s ss ih =>
      rw [readSectors]
      split
      · rename_i hroom
        have hstep : before.take toRead ++ (ataReadSector v.disk (lba + s)).bytes 0 (min 512 (toRead - (before.take toRead).length)) =
            (before ++ v.disk.bytes (512 * (lba + s)) 512).take toRead := by
          rw [bytes_ataReadSector (Nat.min_le_left _ _), Lib.take_append_bytes hroom]
        simp only [hbytes, wrap32_of_lt (hss s List.mem_cons_self)]
        rw [hstep, ih fun s' hs' => hss s' (List.mem_cons_of_mem s hs'), List.map_cons, Lib.readBlocks, Lib.readBlocks, List.flatMap_cons,
          List.append_assoc]
      · rename_i hfull
        rw [List.length_take] at hfull
        rw [List.take_append_of_le_length (by omega)]

theorem readClusters_eq (hg : v.geometry.Ok sectors) (hspc : 0 < v.geometry.sectorsPerCluster)
    (hchain : FatChain v.geometry v.disk sectors first cs) {toRead fuel : Nat} (hfuel : cs.length < fuel) (before : List UInt8) :
    ∃ v', v.Buffered v' ∧ readClusters toRead fuel first v (before.take toRead) =
      some (v', (before ++ Lib.readBlocks 512 v.disk (chainBlocks v.geometry cs)).take toRead) := by
  induction cs generalizing v first fuel before with
  | nil =>
      obtain ⟨fuel, rfl⟩ := Nat.exists_eq_add_one_of_ne_zero (Nat.ne_of_gt hfuel)
      refine ⟨v, Fat32.Buffered.refl v, ?_⟩
      rw [readClusters, if_neg fun h => hchain.nil h.1]
      simp [chainBlocks, Lib.readBlocks]
  | cons x cs ih =>
      obtain ⟨fuel, rfl⟩ := Nat.exists_eq_add_one_of_ne_zero (Nat.ne_of_gt (Nat.lt_of_le_of_lt (Nat.zero_le _) hfuel))
      obtain ⟨rfl, hlt, hok, hrest⟩ := hchain.tail
      rw [readClusters]
      split
      · obtain ⟨hnext, sec, hbuf⟩ := fatNext_eq hg hok hlt hspc
        simp only [clusterToLba_eq hg hok hspc hlt, readSectors_eq hg.bytes (hok.sector_lt hg) before]
        rw [hnext, hbuf]
        obtain ⟨v', hv', heq⟩ := @ih (fatEntry v.geometry v.disk first) { v with sector := sec } hg hspc hrest fuel (Nat.lt_of_succ_lt_succ hfuel)
          (before ++ Lib.readBlocks 512 v.disk (clusterBlocks v.geometry first))
        refine ⟨v', Fat32.Buffered.trans ⟨sec, rfl⟩ hv', heq.trans ?_⟩
        rw [chainBlocks, chainBlocks, List.flatMap_cons, Lib.readBlocks, Lib.readBlocks, Lib.readBlocks, List.flatMap_append, List.append_assoc]
      · rename_i hfull
        refine ⟨v, Fat32.Buffered.refl v, ?_⟩
        have hlen : toRead ≤ before.length := by
          have hle : ¬ (before.take toRead).length < toRead := fun h => hfull ⟨hlt, h⟩
          rw [List.length_take] at hle
          omega
        rw [List.take_append_of_le_length hlen]

/-! ### The loops of a write -/

/-- The FAT lies in front of the data area. -/
theorem fatEntry_congr (hg : g.Ok sectors) (hc : ClusterOk g sectors c) (h : ∀ x < 512 * g.dataLba, d' x = d x) :
    fatEntry g d' c = fatEntry g d c := by
  have hfat := hg.fat
  have hroom := hc.fat
  rw [fatEntry, fatEntry, Memory.load_congr]
  intro x hlo hhi
  exact h x (by omega)

theorem writeBlocks_below {x : Nat} (hx : x < 512 * g.dataLba) (cs : List Nat) (data : List UInt8) :
    Lib.writeBlocks 512 d (chainBlocks g cs) data x = d x := by
  apply Lib.writeBlocks_apply_of_outside
  intro a ha
  obtain ⟨c, -, s, -, rfl⟩ := mem_chainBlocks.mp ha
  rw [clusterLba]
  omega

theorem drop_min_add (src : List UInt8) (done : Nat) : src.drop (done + min 512 (src.length - done)) = (src.drop done).drop 512 := by
  rw [List.drop_drop]
  by_cases hlong : done + 512 ≤ src.length
  · rw [Nat.min_eq_left (by omega)]
  · rw [List.drop_of_length_le (by omega), List.drop_of_length_le (by omega)]

theorem writeSectors_eq (hbytes : v.geometry.bytesPerSector = 512) {lba : Nat} {ss : List Nat} (hss : ∀ s ∈ ss, lba + s < 2 ^ 32)
    {src : List UInt8} {done : Nat} (hdone : done ≤ src.length) :
    writeSectors lba src ss v done =
      ({ v with disk := Lib.writeBlocks 512 v.disk (ss.map fun s => 512 * (lba + s)) (src.drop done) },
        min (done + 512 * ss.length) src.length) := by
  induction ss generalizing v done with
  | nil => simp [writeSectors, Lib.writeBlocks, Nat.min_eq_left hdone]
  | cons s ss ih =>
      have hchunk : (if done < src.length then min 512 (src.length - done) else 0) = min 512 (src.length - done) := by
        split <;> omega
      have hsector : ataWriteSector v.disk (lba + s) (fun i => if i < min 512 (src.length - done) then src.getD (done + i) 0 else 0) =
          v.disk.blit (512 * (lba + s)) 512 fun i => (src.drop done).getD i 0 := by
        apply Memory.blit_congr
        intro i hi
        simp only [List.getD_eq_getElem?_getD, List.getElem?_drop]
        split
        · rfl
        · rw [List.getElem?_eq_none (by omega), Option.getD_none]
      rw [writeSectors]
      simp only [hbytes, hchunk, wrap32_of_lt (hss s List.mem_cons_self), hsector]
      have hrest := @ih { v with disk := v.disk.blit (512 * (lba + s)) 512 fun i => (src.drop done).getD i 0 } hbytes
        (fun s' hs' => hss s' (List.mem_cons_of_mem s hs')) (done + min 512 (src.length - done)) (by omega)
      rw [hrest, drop_min_add, List.map_cons, Lib.writeBlocks, List.length_cons]
      congr 1
      omega

theorem writeBlocks_append (m : Memory) (as as' : List Nat) (data : List UInt8) :
    Lib.writeBlocks 512 m (as ++ as') data = Lib.writeBlocks 512 (Lib.writeBlocks 512 m as data) as' (data.drop (512 * as.length)) := by
  induction as generalizing m data with
  | nil => rfl
  | cons a as ih =>
      rw [List.cons_append, Lib.writeBlocks, Lib.writeBlocks, ih, List.drop_drop, List.length_cons, Nat.mul_succ, Nat.add_comm]

theorem writeClusters_eq (hg : v.geometry.Ok sectors) (hspc : 0 < v.geometry.sectorsPerCluster)
    (hchain : FatChain v.geometry v.disk sectors first cs) {fuel : Nat} (hfuel : cs.length < fuel) {src : List UInt8} {done : Nat}
    (hdone : done ≤ src.length) :
    ∃ v', Fat32.Buffered { v with disk := Lib.writeBlocks 512 v.disk (chainBlocks v.geometry cs) (src.drop done) } v' ∧
      writeClusters src fuel first v done = some (v', min (done + chainBytes v.geometry cs) src.length) := by
  induction cs generalizing v first fuel done with
  | nil =>
      obtain ⟨fuel, rfl⟩ := Nat.exists_eq_add_one_of_ne_zero (Nat.ne_of_gt hfuel)
      refine ⟨v, Fat32.Buffered.refl v, ?_⟩
      rw [writeClusters, if_neg fun h => hchain.nil h.2]
      simp [chainBytes, Nat.min_eq_left hdone]
  | cons x cs ih =>
      obtain ⟨fuel, rfl⟩ := Nat.exists_eq_add_one_of_ne_zero (Nat.ne_of_gt (Nat.lt_of_le_of_lt (Nat.zero_le _) hfuel))
      obtain ⟨rfl, hlt, hok, hrest⟩ := hchain.tail
      rw [writeClusters, if_pos ⟨hok.two, hlt⟩, clusterToLba_eq hg hok hspc hlt, writeSectors_eq hg.bytes (hok.sector_lt hg) hdone]
      -- the lookup of the next cluster sees a FAT that the write has not touched
      have hbelow : ∀ x < 512 * v.geometry.dataLba, Lib.writeBlocks 512 v.disk (clusterBlocks v.geometry first) (src.drop done) x = v.disk x := by
        intro x hx
        have := writeBlocks_below hx [first] (src.drop done) (d := v.disk)
        rwa [chainBlocks, List.flatMap_singleton] at this
      have hrest' := hrest.congr fun c hc => fatEntry_congr hg (hrest.ok c hc) hbelow
      obtain ⟨hnext, sec, hbuf⟩ := @fatNext_eq sectors first
        { v with disk := Lib.writeBlocks 512 v.disk (clusterBlocks v.geometry first) (src.drop done) } hg hok hlt hspc
      rw [fatEntry_congr hg hok hbelow] at hnext
      obtain ⟨v', hv', heq⟩ := @ih (fatEntry v.geometry v.disk first)
        { v with disk := Lib.writeBlocks 512 v.disk (clusterBlocks v.geometry first) (src.drop done), sector := sec } hg hspc hrest' fuel
        (Nat.lt_of_succ_lt_succ hfuel) (min (done + 512 * v.geometry.sectorsPerCluster) src.length) (Nat.min_le_right _ _)
      have hdisk : Lib.writeBlocks 512 v.disk (chainBlocks v.geometry (first :: cs)) (src.drop done) =
          Lib.writeBlocks 512 (Lib.writeBlocks 512 v.disk (clusterBlocks v.geometry first) (src.drop done)) (chainBlocks v.geometry cs)
            (src.drop (min (done + 512 * v.geometry.sectorsPerCluster) src.length)) := by
        have hdrop : src.drop (done + 512 * v.geometry.sectorsPerCluster) =
            src.drop (min (done + 512 * v.geometry.sectorsPerCluster) src.length) := by
          rw [List.drop_eq_drop_iff]
          omega
        rw [← hdrop, chainBlocks, List.flatMap_cons, writeBlocks_append, List.drop_drop, clusterBlocks, List.length_map, List.length_range]
        rfl
      refine ⟨v', ?_, ?_⟩
      · rw [hdisk]
        obtain ⟨sec', rfl⟩ := hv'
        exact ⟨sec', rfl⟩
      · rw [List.length_range]
        change writeClusters src fuel (fatNext { v with disk := Lib.writeBlocks 512 v.disk (clusterBlocks v.geometry first) (src.drop done) } first).1
          (fatNext { v with disk := Lib.writeBlocks 512 v.disk (clusterBlocks v.geometry first) (src.drop done) } first).2 _ = _
        rw [hnext, hbuf]
        refine heq.trans ?_
        rw [chainBytes_cons]
        congr 2
        change min (min (done + 512 * v.geometry.sectorsPerCluster) src.length + chainBytes v.geometry cs) src.length = _
        omega

theorem chainCapacity_eq (hg : v.geometry.Ok sectors) (hspc : 0 < v.geometry.sectorsPerCluster)
    (hchain : FatChain v.geometry v.disk sectors first cs) {fuel : Nat} (hfuel : cs.length < fuel) {capacity : Nat}
    (hsmall : capacity + chainBytes v.geometry cs < 2 ^ 64) :
    ∃ v', v.Buffered v' ∧ chainCapacity fuel first v capacity = some (v', capacity + chainBytes v.geometry cs) := by
  induction cs generalizing v first fuel capacity with
  | nil =>
      obtain ⟨fuel, rfl⟩ := Nat.exists_eq_add_one_of_ne_zero (Nat.ne_of_gt hfuel)
      refine ⟨v, Fat32.Buffered.refl v, ?_⟩
      rw [chainCapacity, if_neg fun h => hchain.nil h.2]
      rfl
  | cons x cs ih =>
      obtain ⟨fuel, rfl⟩ := Nat.exists_eq_add_one_of_ne_zero (Nat.ne_of_gt (Nat.lt_of_le_of_lt (Nat.zero_le _) hfuel))
      obtain ⟨rfl, hlt, hok, hrest⟩ := hchain.tail
      rw [chainBytes_cons] at hsmall
      obtain ⟨hnext, sec, hbuf⟩ := fatNext_eq hg hok hlt hspc
      obtain ⟨v', hv', heq⟩ := @ih (fatEntry v.geometry v.disk first) { v with sector := sec } hg hspc hrest fuel (Nat.lt_of_succ_lt_succ hfuel)
        (capacity + 512 * v.geometry.sectorsPerCluster) (by rwa [Nat.add_assoc])
      refine ⟨v', Fat32.Buffered.trans ⟨sec, rfl⟩ hv', ?_⟩
      rw [chainCapacity, if_pos ⟨hok.two, hlt⟩]
      simp only [hnext, hbuf, hg.bytes, Nat.mul_comm _ 512]
      rw [wrap64_of_lt (by omega), heq, chainBytes_cons, Nat.add_assoc]

/-- The last step of a write puts the size into the entry and changes nothing else. -/
theorem updateFileSize_disk (v : Fat32) (raw : RawEntry) (size : Nat) (hoff : raw.entryOff + 32 ≤ 512) :
    (updateFileSize v raw size).disk = v.disk.store (512 * raw.lba + raw.entryOff + 28) 4 size := by
  funext x
  simp only [updateFileSize, Fat32.load, ataWriteSector, Memory.blit]
  split
  · rename_i hin
    by_cases hfield : raw.entryOff + 28 ≤ x - 512 * raw.lba ∧ x - 512 * raw.lba < raw.entryOff + 28 + 4
    · rw [Memory.store_apply_of_inside _ hfield.1 hfield.2, Memory.store_apply_of_inside _ (by omega) (by omega)]
      rw [show x - 512 * raw.lba - (raw.entryOff + 28) = x - (512 * raw.lba + raw.entryOff + 28) by omega]
    · rw [Memory.store_apply_of_outside _ (by omega), Memory.store_apply_of_outside _ (by omega), ataReadSector_apply (by omega),
        Nat.add_sub_cancel' hin.1]
  · rw [Memory.store_apply_of_outside _ (by omega)]

end Tsukasa
