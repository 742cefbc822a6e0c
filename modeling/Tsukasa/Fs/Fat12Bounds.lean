import Tsukasa.Fs.Fat12Write

/-!
# The accesses of a FAT12 read

Every lookup in the directory and in the FAT of an accepted image stays inside it. The copy of a cluster does as long as the cluster starts no later than the image ends; behind the end the amount that is left has wrapped and is huge. A read of a chain ends unless it comes back to a cluster without having copied anything, and it returns what it has stored if that is an `int`.
-/

namespace Tsukasa

open Lib (Memory)
open Lib.Linked (IsList)

variable {v v₀ : Fat12} {c max done fuel : Nat} {l : List (Nat × Nat)} {path name dst : List UInt8}

/-! ### The accesses -/

/-- The bytes of the FAT that a lookup reads. -/
def fatOffsets (v : Fat12) (clus : Nat) : List Nat :=
  if !v.mounted ∨ clus < 2 then []
  else
    let fatByte := wrap32 (v.geometry.fatOffset + clus * 3 / 2)
    if v.size ≤ wrap32 (fatByte + 1) then [] else [fatByte, wrap32 (fatByte + 1)]

/-- The bytes that `find_dirent` reads of the slots it looks at; a comparison of names may stop before the eleventh. -/
def direntOffsets (v : Fat12) (name : List UInt8) : List Nat → List Nat
  | [] => []
  | off :: offs =>
      if v.disk off = 0 then [off]
      else if v.disk off = 0xE5 then off :: direntOffsets v name offs
      else if !direntShown v off then [off, off + 11] ++ direntOffsets v name offs
      else if fat83Match v off name then [off, off + 11] ++ (List.range 11).map (off + ·)
      else [off, off + 11] ++ (List.range 11).map (off + ·) ++ direntOffsets v name offs

/-- The loop of `fat12_read_file`, when `done` bytes have been copied. -/
def readLoopOffsets (v : Fat12) (max : Nat) : Nat → Nat → Nat → List Nat
  | 0, _, _ => []
  | fuel + 1, clus, done =>
      if 2 ≤ clus ∧ clus < fat12Eoc ∧ done < max then
        copyOffsets (clusterToOffset v.geometry clus) (copyLength v max done clus) ++ fatOffsets v clus ++
          readLoopOffsets v max fuel (getNextCluster v clus) (done + copyLength v max done clus)
      else []

/-- The bytes of the image that `fat12_read_file` reads. -/
def fat12ReadOffsets (v : Fat12) (path : List UInt8) (max : Nat) : List Nat :=
  let name := pathToName path
  if !v.mounted ∨ name = [] then []
  else
    let doff := findDirent v name
    direntOffsets v name (rootSlots v) ++
      if doff = 0 then []
      else if v.disk (doff + 11) &&& fatAttrDirectory ≠ 0 then [doff + 11]
      else
        let max := min (v.disk.load (doff + 28) 4) max
        [doff + 11] ++ (List.range 4).map (doff + 28 + ·) ++ (List.range 2).map (doff + 26 + ·) ++
          readLoopOffsets v max ((max + 1) * fat12Eoc + 1) (v.disk.load (doff + 26) 2) 0

/-- A call comes back, has read inside the image only and stored no more than `max` bytes, and returns their number or -1. -/
def ReadSafe (v : Fat12) (path : List UInt8) (max : Nat) : Prop :=
  (∀ off ∈ fat12ReadOffsets v path max, off < v.size) ∧
  ∃ ret stored, fat12ReadFile v path max = some (ret, stored) ∧ stored.length ≤ max ∧ (ret = -1 ∨ ret = stored.length)

/-! ### What `fat12_init` promises of every image -/

/-- The bounds of the geometry of an accepted image. -/
structure Fat12Accepted (v : Fat12) : Prop where
  mounted : v.mounted = true
  fat : v.geometry.fatOffset ≤ 65535 * 65535
  data : v.geometry.dataOffset < 2 ^ 32
  cluster : 0 < clusterBytes v.geometry
  cluster_le : clusterBytes v.geometry ≤ 255 * 65535

theorem fat12Init_accepted {disk : Memory} {size : Nat} (hinit : fat12Init v₀ disk size = (0, v)) : Fat12Accepted v := by
  simp only [fat12Init] at hinit
  split at hinit
  · cases hinit
  split at hinit
  · cases hinit
  split at hinit
  · cases hinit
  rename_i hzero
  cases hinit
  have hbytes := disk.load_lt 11 2
  have hreserved := disk.load_lt 14 2
  have hsecs := UInt8.toNat_lt (disk 13)
  have hpos : 0 < disk.load 11 2 ∧ 0 < (disk 13).toNat := by omega
  refine ⟨rfl, ?_, wrap32_lt _, Nat.mul_pos hpos.2 hpos.1, ?_⟩
  · have hmul := Nat.mul_le_mul (Nat.le_of_lt_succ hreserved) (Nat.le_of_lt_succ hbytes)
    have hwrap : wrap32 (disk.load 14 2 * disk.load 11 2) ≤ disk.load 14 2 * disk.load 11 2 := Nat.mod_le _ _
    simp only
    omega
  · exact Nat.mul_le_mul (Nat.le_of_lt_succ hsecs) (Nat.le_of_lt_succ hbytes)

/-! ### Lookups -/

/-- No lookup of a data cluster leaves the image. -/
theorem fatOffsets_lt (h : Fat12Accepted v) (hc : c < fat12Eoc) : ∀ off ∈ fatOffsets v c, off < v.size := by
  have hfat := h.fat
  rw [fat12Eoc] at hc
  have hbyte : wrap32 (v.geometry.fatOffset + c * 3 / 2) = v.geometry.fatOffset + c * 3 / 2 := wrap32_of_lt (by omega)
  have hnext : wrap32 (v.geometry.fatOffset + c * 3 / 2 + 1) = v.geometry.fatOffset + c * 3 / 2 + 1 := wrap32_of_lt (by omega)
  intro off hoff
  simp only [fatOffsets, hbyte, hnext] at hoff
  split at hoff
  · exact absurd hoff List.not_mem_nil
  split at hoff
  · exact absurd hoff List.not_mem_nil
  · rcases List.mem_pair.mp hoff with rfl | rfl
    · omega
    · omega

theorem rootSlot_le {off : Nat} (hoff : off ∈ rootSlots v) : off + 32 ≤ v.size := by
  rw [rootSlots] at hoff
  split at hoff
  · have hin := List.mem_takeWhile_imp hoff
    exact of_decide_eq_true hin
  · exact absurd hoff List.not_mem_nil

theorem direntOffsets_lt {offs : List Nat} (hoffs : ∀ off ∈ offs, off + 32 ≤ v.size) : ∀ off ∈ direntOffsets v name offs, off < v.size := by
  induction offs with
  | nil => exact fun off hoff => absurd hoff List.not_mem_nil
  | cons slot offs ih =>
      have hslot := hoffs slot List.mem_cons_self
      have hrest := ih fun off hoff => hoffs off (List.mem_cons_of_mem slot hoff)
      have hname : ∀ off ∈ (List.range 11).map (slot + ·), off < v.size := by
        intro off hoff
        obtain ⟨i, hi, rfl⟩ := List.mem_map.mp hoff
        have := List.mem_range.mp hi
        omega
      have hattr : ∀ off ∈ [slot, slot + 11], off < v.size := by
        intro off hoff
        rcases List.mem_pair.mp hoff with rfl | rfl
        · omega
        · omega
      intro off hoff
      rw [direntOffsets] at hoff
      split at hoff
      · rw [List.mem_singleton.mp hoff]
        omega
      split at hoff
      · rcases List.mem_cons.mp hoff with rfl | hoff
        · omega
        · exact hrest off hoff
      split at hoff
      · exact (List.mem_append.mp hoff).elim (hattr off) (hrest off)
      split at hoff
      · exact (List.mem_append.mp hoff).elim (hattr off) (hname off)
      · rcases List.mem_append.mp hoff with hoff | hoff
        · exact (List.mem_append.mp hoff).elim (hattr off) (hname off)
        · exact hrest off hoff

theorem findDirent_mem (hfound : findDirent v name ≠ 0) : findDirent v name ∈ rootSlots v := by
  rw [findDirent] at hfound ⊢
  cases hfind : ((rootSlots v).takeWhile fun off => v.disk off ≠ 0).find? fun off => direntShown v off && fat83Match v off name with
  | none =>
      rw [hfind] at hfound
      exact absurd rfl hfound
  | some off => exact (List.takeWhile_sublist _).subset (List.mem_of_find?_eq_some hfind)

/-! ### One cluster -/

/-- The copy from a cluster stays in the image: the cluster starts no later than the image ends, and 32 bits hold the end of the copy. In an image of 4 GiB every offset is inside. -/
def CopyWithin (v : Fat12) (max clus done : Nat) : Prop :=
  2 ^ 32 ≤ v.size ∨
  (clusterToOffset v.geometry clus ≤ v.size ∧ clusterToOffset v.geometry clus + min (clusterBytes v.geometry) (max - done) < 2 ^ 32)

/-- The bytes of a cluster that lie in the image. -/
def clusterRoom (v : Fat12) (clus : Nat) : Nat :=
  if 2 ^ 32 ≤ v.size then clusterBytes v.geometry else min (clusterBytes v.geometry) (v.size - clusterToOffset v.geometry clus)

theorem Fat12Accepted.clusterToOffset_lt (h : Fat12Accepted v) (clus : Nat) : clusterToOffset v.geometry clus < 2 ^ 32 := by
  rw [clusterToOffset]
  split
  · exact h.data
  · exact wrap32_lt _

/-- A copy that stays in the image takes what the cluster and the buffer have room for. -/
theorem copyLength_within (h : Fat12Accepted v) (hmax : done < max) (hwithin : CopyWithin v max c done) :
    copyLength v max done c = min (clusterRoom v c) (max - done) := by
  have hoffset := h.clusterToOffset_lt c
  have hcluster := h.cluster_le
  have hcopy : (if max < done + clusterBytes v.geometry then max - done else clusterBytes v.geometry) = min (clusterBytes v.geometry) (max - done) := by
    split <;> omega
  simp only [copyLength, hcopy]
  rw [clusterRoom]
  rcases hwithin with hlarge | ⟨hstart, hend⟩
  · have := wrap32_lt (clusterToOffset v.geometry c + min (clusterBytes v.geometry) (max - done))
    rw [if_pos hlarge, if_neg (by omega)]
  · rw [wrap32_of_lt hend]
    by_cases hlarge : 2 ^ 32 ≤ v.size
    · rw [if_pos hlarge, if_neg (by omega)]
    · have hleft : wrap32 (v.size + 2 ^ 64 - clusterToOffset v.geometry c) = v.size - clusterToOffset v.geometry c := by
        rw [wrap32]
        omega
      rw [if_neg hlarge, hleft]
      split
      · omega
      · omega

/-- The copy of a cluster reads inside the image exactly when it should. -/
theorem copyOffsets_lt (h : Fat12Accepted v) (hmax : done < max) :
    (∀ off ∈ copyOffsets (clusterToOffset v.geometry c) (copyLength v max done c), off < v.size) ↔ CopyWithin v max c done := by
  have hoffset := h.clusterToOffset_lt c
  have hcluster := h.cluster
  have hcluster' := h.cluster_le
  constructor
  · intro hreads
    have hread : ∀ i < copyLength v max done c, wrap32 (clusterToOffset v.geometry c + i) < v.size :=
      fun i hi => hreads _ (List.mem_map.mpr ⟨i, List.mem_range.mpr hi, rfl⟩)
    have hcopy : (if max < done + clusterBytes v.geometry then max - done else clusterBytes v.geometry) =
        min (clusterBytes v.geometry) (max - done) := by
      split <;> omega
    by_contra hout
    rw [CopyWithin, not_or, not_and_or] at hout
    obtain ⟨hsmall, hout⟩ := hout
    simp only [copyLength, hcopy] at hread hout
    by_cases hstart : clusterToOffset v.geometry c ≤ v.size
    · -- the copy goes on past 4 GiB, and the wrapped end hides that it has left the image
      have hend : 2 ^ 32 ≤ clusterToOffset v.geometry c + min (clusterBytes v.geometry) (max - done) := by
        rcases hout with hout | hout
        · exact absurd hstart hout
        · omega
      have hwrap : ¬ v.size < wrap32 (clusterToOffset v.geometry c + min (clusterBytes v.geometry) (max - done)) := by
        rw [wrap32]
        omega
      have hlast := hread (v.size - clusterToOffset v.geometry c) (by rw [if_neg hwrap]; omega)
      rw [wrap32_of_lt (by omega)] at hlast
      omega
    · have hfirst := hread 0 (by
        split
        · rw [wrap32]
          omega
        · omega)
      rw [Nat.add_zero, wrap32_of_lt hoffset] at hfirst
      omega
  · intro hwithin off hoff
    obtain ⟨i, hi, rfl⟩ := List.mem_map.mp hoff
    have hi' := List.mem_range.mp hi
    rw [copyLength_within h hmax hwithin, clusterRoom] at hi'
    rcases hwithin with hlarge | ⟨hstart, hend⟩
    · exact Nat.lt_of_lt_of_le (wrap32_lt _) hlarge
    · rw [wrap32]
      split at hi'
      · omega
      · omega

/-! ### The loop -/

/-- The loop runs with this cluster, and this many bytes copied before it. -/
def readEnter (max clus done : Nat) : Option (Nat × Nat) := if 2 ≤ clus ∧ clus < fat12Eoc ∧ done < max then some (clus, done) else none

/-- One round of the loop. -/
def readNext (v : Fat12) (max : Nat) (s : Nat × Nat) : Option (Nat × Nat) :=
  readEnter max (getNextCluster v s.1) (s.2 + copyLength v max s.2 s.1)

/-- One round of the loop, with the bytes that the cluster has in the image. -/
def readWalk (v : Fat12) (max : Nat) (s : Nat × Nat) : Option (Nat × Nat) :=
  readEnter max (getNextCluster v s.1) (s.2 + min (clusterRoom v s.1) (max - s.2))

/-- The bytes that a walk collects. -/
def walkBytes (v : Fat12) (max : Nat) (l : List (Nat × Nat)) : Nat := (l.map fun s => min (clusterRoom v s.1) (max - s.2)).sum

theorem readEnter_some {s : Nat × Nat} (h : readEnter max c done = some s) : s = (c, done) ∧ 2 ≤ c ∧ c < fat12Eoc ∧ done < max := by
  obtain ⟨hrun, hs⟩ := Option.ite_none_right_eq_some.mp h
  exact ⟨(Option.some.inj hs).symm, hrun⟩

theorem readEnter_none (h : readEnter max c done = none) : ¬ (2 ≤ c ∧ c < fat12Eoc ∧ done < max) := by
  intro hrun
  rw [readEnter, if_pos hrun] at h
  cases h

theorem readEnter_running {s : Nat × Nat} (h : readEnter max c done = some s) : s.1 < fat12Eoc ∧ s.2 < max := by
  obtain ⟨rfl, -, hhi, hlt⟩ := readEnter_some h
  exact ⟨hhi, hlt⟩

/-- The fuel is enough for every walk that ends. -/
theorem walk_length (h : IsList (readNext v max) (readEnter max c done) l) : l.length < (max + 1) * fat12Eoc + 1 := by
  have hrunning : ∀ s ∈ l, s.1 < fat12Eoc ∧ s.2 < max := h.forall_mem (fun s hs => readEnter_running hs) fun s t ht => readEnter_running ht
  have hle := h.length_le_mul hrunning
  have hmore := Nat.mul_le_mul_right fat12Eoc (Nat.le_succ max)
  rw [Nat.mul_comm] at hle
  exact Nat.lt_succ_of_le (hle.trans hmore)

/-- What the rounds of a walk copy. -/
def walkCopies (v : Fat12) (max : Nat) (l : List (Nat × Nat)) : List UInt8 :=
  l.flatMap fun s => (copyOffsets (clusterToOffset v.geometry s.1) (copyLength v max s.2 s.1)).map v.disk

theorem length_copyOffsets (off n : Nat) : (copyOffsets off n).length = n := by
  rw [copyOffsets, List.length_map, List.length_range]

/-- A loop that ends has gone along a walk. -/
theorem readLoop_some {r : List UInt8} (h : readLoop v max fuel c dst = some r) :
    ∃ l, IsList (readNext v max) (readEnter max c dst.length) l ∧ l.length < fuel ∧ r = dst ++ walkCopies v max l := by
  induction fuel generalizing c dst with
  | zero => cases h
  | succ fuel ih =>
      rw [readLoop] at h
      split at h
      · rename_i hrun
        obtain ⟨l, hl, hlength, hr⟩ := ih h
        rw [List.length_append, List.length_map, length_copyOffsets] at hl
        refine ⟨(c, dst.length) :: l, Lib.Linked.isList_cons.mpr ⟨if_pos hrun, hl⟩, Nat.succ_lt_succ hlength, ?_⟩
        rw [hr, walkCopies, walkCopies, List.flatMap_cons, List.append_assoc]
      · rename_i hstop
        refine ⟨[], Lib.Linked.isList_nil.mpr (if_neg hstop), Nat.succ_pos fuel, ?_⟩
        rw [← Option.some.inj h]
        exact (List.append_nil dst).symm

/-- The loop along a walk that ends. -/
theorem readLoop_walk (h : IsList (readNext v max) (readEnter max c dst.length) l) (hfuel : l.length < fuel) :
    readLoop v max fuel c dst = some (dst ++ walkCopies v max l) := by
  induction l generalizing c dst fuel with
  | nil =>
      obtain ⟨fuel, rfl⟩ := Nat.exists_eq_add_one_of_ne_zero (Nat.ne_of_gt hfuel)
      rw [readLoop, if_neg (readEnter_none (Lib.Linked.isList_nil.mp h))]
      exact congrArg some (List.append_nil dst).symm
  | cons s l ih =>
      obtain ⟨fuel, rfl⟩ := Nat.exists_eq_add_one_of_ne_zero (Nat.ne_of_gt (Nat.lt_of_le_of_lt (Nat.zero_le _) hfuel))
      obtain ⟨hhead, hrest⟩ := Lib.Linked.isList_cons.mp h
      obtain ⟨rfl, hrun⟩ := readEnter_some hhead
      rw [readLoop, if_pos hrun]
      simp only
      rw [ih (by rw [List.length_append, List.length_map, length_copyOffsets]; exact hrest) (Nat.lt_of_succ_lt_succ hfuel), List.append_assoc]
      rfl

theorem readLoopOffsets_walk (h : IsList (readNext v max) (readEnter max c done) l) (hfuel : l.length < fuel) :
    readLoopOffsets v max fuel c done =
      l.flatMap fun s => copyOffsets (clusterToOffset v.geometry s.1) (copyLength v max s.2 s.1) ++ fatOffsets v s.1 := by
  induction l generalizing c done fuel with
  | nil =>
      obtain ⟨fuel, rfl⟩ := Nat.exists_eq_add_one_of_ne_zero (Nat.ne_of_gt hfuel)
      rw [readLoopOffsets, if_neg (readEnter_none (Lib.Linked.isList_nil.mp h))]
      rfl
  | cons s l ih =>
      obtain ⟨fuel, rfl⟩ := Nat.exists_eq_add_one_of_ne_zero (Nat.ne_of_gt (Nat.lt_of_le_of_lt (Nat.zero_le _) hfuel))
      obtain ⟨hhead, hrest⟩ := Lib.Linked.isList_cons.mp h
      obtain ⟨rfl, hrun⟩ := readEnter_some hhead
      rw [readLoopOffsets, if_pos hrun, ih hrest (Nat.lt_of_succ_lt_succ hfuel), List.flatMap_cons]

/-- The loop stays in the image exactly when each of its copies should. -/
theorem readLoopOffsets_lt (h : Fat12Accepted v) (hl : IsList (readNext v max) (readEnter max c done) l) (hfuel : l.length < fuel) :
    (∀ off ∈ readLoopOffsets v max fuel c done, off < v.size) ↔ ∀ s ∈ l, CopyWithin v max s.1 s.2 := by
  have hrunning : ∀ s ∈ l, s.1 < fat12Eoc ∧ s.2 < max := hl.forall_mem (fun s hs => readEnter_running hs) fun s t ht => readEnter_running ht
  rw [readLoopOffsets_walk hl hfuel]
  constructor
  · intro hall s hs
    apply (copyOffsets_lt h (hrunning s hs).2).mp
    intro off hoff
    exact hall off (List.mem_flatMap.mpr ⟨s, hs, List.mem_append_left _ hoff⟩)
  · intro hwithin off hoff
    obtain ⟨s, hs, hoff⟩ := List.mem_flatMap.mp hoff
    rcases List.mem_append.mp hoff with hoff | hoff
    · exact (copyOffsets_lt h (hrunning s hs).2).mpr (hwithin s hs) off hoff
    · exact fatOffsets_lt h (hrunning s hs).1 off hoff

theorem readWalk_eq (h : Fat12Accepted v) {s : Nat × Nat} (hmax : s.2 < max) (hwithin : CopyWithin v max s.1 s.2) :
    readWalk v max s = readNext v max s := by
  rw [readWalk, readNext, copyLength_within h hmax hwithin]

theorem length_walkCopies (h : Fat12Accepted v) (hrunning : ∀ s ∈ l, s.2 < max) (hwithin : ∀ s ∈ l, CopyWithin v max s.1 s.2) :
    (walkCopies v max l).length = walkBytes v max l := by
  rw [walkCopies, walkBytes, List.length_flatMap]
  congr 1
  apply List.map_congr_left
  intro s hs
  rw [List.length_map, length_copyOffsets, copyLength_within h (hrunning s hs) (hwithin s hs)]

/-- A walk collects no more than there is room for. -/
theorem walkBytes_le (h : IsList (readWalk v max) (readEnter max c done) l) (hdone : done ≤ max) : done + walkBytes v max l ≤ max := by
  induction l generalizing c done with
  | nil => exact hdone
  | cons s l ih =>
      obtain ⟨hhead, hrest⟩ := Lib.Linked.isList_cons.mp h
      obtain ⟨rfl, -, -, hlt⟩ := readEnter_some hhead
      have hle := ih hrest (by simp only; omega)
      rw [walkBytes, List.map_cons, List.sum_cons, ← Nat.add_assoc]
      exact hle

/-- The loop of a read is safe: the walk from `first` ends, every cluster on it starts no later than the image ends, and the number of bytes is an `int`, or the one that reads as -1. -/
def ReadLoopSafe (v : Fat12) (max first : Nat) : Prop :=
  ∃ l, IsList (readWalk v max) (readEnter max first 0) l ∧ (∀ s ∈ l, CopyWithin v max s.1 s.2) ∧
    (walkBytes v max l < 2 ^ 31 ∨ walkBytes v max l = 2 ^ 32 - 1)

/-- The read of `path` gets to no data, or its loop is safe. -/
def ReadCondition (v : Fat12) (path : List UInt8) (max : Nat) : Prop :=
  let doff := findDirent v (pathToName path)
  pathToName path = [] ∨ doff = 0 ∨ v.disk (doff + 11) &&& fatAttrDirectory ≠ 0 ∨
    ReadLoopSafe v (min (v.disk.load (doff + 28) 4) max) (v.disk.load (doff + 26) 2)

/-! ### The call -/

/-- The return value is the number of stored bytes or -1. -/
theorem toInt32_count {n : Nat} (h : n < 2 ^ 32) : (toInt32 n = -1 ∨ toInt32 n = n) ↔ n < 2 ^ 31 ∨ n = 2 ^ 32 - 1 := by
  rw [toInt32_eq_self, toInt32, wrap32_of_lt h]
  constructor
  · rintro (hneg | hsmall)
    · split at hneg <;> omega
    · exact Or.inl hsmall
  · rintro (hsmall | hlast)
    · exact Or.inr hsmall
    · left
      rw [if_neg (by omega)]
      omega

/-- A loop that has stayed inside the image, and whose count is returned as it is, was safe. -/
theorem ReadLoopSafe.of_run (h : Fat12Accepted v) (hmax : max < 2 ^ 32) {first : Nat} {stored : List UInt8}
    (hloop : readLoop v max ((max + 1) * fat12Eoc + 1) first [] = some stored)
    (hoffsets : ∀ off ∈ readLoopOffsets v max ((max + 1) * fat12Eoc + 1) first 0, off < v.size)
    (hret : toInt32 stored.length = -1 ∨ toInt32 stored.length = stored.length) : ReadLoopSafe v max first := by
  obtain ⟨l, hl, hfuel, hcopies⟩ := readLoop_some hloop
  rw [List.nil_append] at hcopies
  have hrunning : ∀ s ∈ l, s.1 < fat12Eoc ∧ s.2 < max := hl.forall_mem (fun s hs => readEnter_running hs) fun s t ht => readEnter_running ht
  have hwithin := (readLoopOffsets_lt h hl hfuel).mp hoffsets
  have hwalk : IsList (readWalk v max) (readEnter max first 0) l := hl.congr fun s hs => readWalk_eq h (hrunning s hs).2 (hwithin s hs)
  have hle := walkBytes_le hwalk (Nat.zero_le max)
  refine ⟨l, hwalk, hwithin, ?_⟩
  rw [hcopies, length_walkCopies h (fun s hs => (hrunning s hs).2) hwithin] at hret
  exact (toInt32_count (by omega)).mp hret

/-- A safe loop comes back. -/
theorem ReadLoopSafe.run (h : Fat12Accepted v) (hmax : max < 2 ^ 32) {first : Nat} (hsafe : ReadLoopSafe v max first) :
    (∀ off ∈ readLoopOffsets v max ((max + 1) * fat12Eoc + 1) first 0, off < v.size) ∧
    ∃ stored, readLoop v max ((max + 1) * fat12Eoc + 1) first [] = some stored ∧ stored.length ≤ max ∧
      (toInt32 stored.length = -1 ∨ toInt32 stored.length = stored.length) := by
  obtain ⟨l, hwalk, hwithin, hcount⟩ := hsafe
  have hrunning : ∀ s ∈ l, s.1 < fat12Eoc ∧ s.2 < max :=
    hwalk.forall_mem (fun s hs => readEnter_running hs) fun s t ht => readEnter_running ht
  have hl : IsList (readNext v max) (readEnter max first 0) l :=
    hwalk.congr fun s hs => (readWalk_eq h (hrunning s hs).2 (hwithin s hs)).symm
  have hlength := length_walkCopies h (fun s hs => (hrunning s hs).2) hwithin
  have hle := walkBytes_le hwalk (Nat.zero_le max)
  refine ⟨(readLoopOffsets_lt h hl (walk_length hl)).mpr hwithin, walkCopies v max l, readLoop_walk hl (walk_length hl), by omega, ?_⟩
  rw [hlength]
  exact (toInt32_count (by omega)).mpr hcount

/-- What the call reads before its loop is inside the image. -/
theorem direntFields_lt {doff : Nat} (hdoff : doff + 32 ≤ v.size) :
    ∀ off ∈ [doff + 11] ++ (List.range 4).map (doff + 28 + ·) ++ (List.range 2).map (doff + 26 + ·), off < v.size := by
  intro off hoff
  simp only [List.mem_append, List.mem_singleton, List.mem_map, List.mem_range] at hoff
  rcases hoff with (rfl | ⟨i, hi, rfl⟩) | ⟨i, hi, rfl⟩
  · omega
  · omega
  · omega

/-- The read of a file runs the loop. -/
theorem fat12ReadFile_loop (h : Fat12Accepted v) (hname : pathToName path ≠ []) (hdoff : findDirent v (pathToName path) ≠ 0)
    (hfile : ¬ v.disk (findDirent v (pathToName path) + 11) &&& fatAttrDirectory ≠ 0) (max : Nat) :
    let doff := findDirent v (pathToName path)
    let limit := min (v.disk.load (doff + 28) 4) max
    fat12ReadFile v path max =
        (readLoop v limit ((limit + 1) * fat12Eoc + 1) (v.disk.load (doff + 26) 2) []).map (fun dst => (toInt32 dst.length, dst)) ∧
      fat12ReadOffsets v path max = direntOffsets v (pathToName path) (rootSlots v) ++
        ([doff + 11] ++ (List.range 4).map (doff + 28 + ·) ++ (List.range 2).map (doff + 26 + ·) ++
          readLoopOffsets v limit ((limit + 1) * fat12Eoc + 1) (v.disk.load (doff + 26) 2) 0) := by
  constructor
  · rw [fat12ReadFile, if_neg (by simp [h.mounted])]
    simp only [if_neg hname, if_neg hdoff, if_neg hfile]
  · rw [fat12ReadOffsets, if_neg (by simp [h.mounted, hname])]
    simp only [if_neg hdoff, if_neg hfile]

/-- Every other call returns at once. -/
theorem fat12ReadFile_early (h : Fat12Accepted v) (max : Nat) (hearly : pathToName path = [] ∨ findDirent v (pathToName path) = 0 ∨
    v.disk (findDirent v (pathToName path) + 11) &&& fatAttrDirectory ≠ 0) : ReadSafe v path max := by
  have hslots : ∀ off ∈ direntOffsets v (pathToName path) (rootSlots v), off < v.size := direntOffsets_lt fun off hoff => rootSlot_le hoff
  refine ⟨?_, -1, [], ?_, Nat.zero_le max, Or.inl rfl⟩
  · intro off hoff
    rw [fat12ReadOffsets] at hoff
    split at hoff
    · exact absurd hoff List.not_mem_nil
    rename_i hname
    rw [not_or] at hname
    rcases List.mem_append.mp hoff with hoff | hoff
    · exact hslots off hoff
    split at hoff
    · exact absurd hoff List.not_mem_nil
    rename_i hdoff
    rcases hearly with hnil | hzero | hdir
    · exact absurd hnil hname.2
    · exact absurd hzero hdoff
    · rw [if_pos hdir] at hoff
      have hslot := rootSlot_le (findDirent_mem hdoff)
      rw [List.mem_singleton.mp hoff]
      omega
  · rw [fat12ReadFile, if_neg (by simp [h.mounted])]
    simp only
    split
    · rfl
    rename_i hname
    split
    · rfl
    rename_i hdoff
    rcases hearly with hnil | hzero | hdir
    · exact absurd hnil hname
    · exact absurd hzero hdoff
    · rw [if_pos hdir]

theorem ReadSafe.condition (h : Fat12Accepted v) (hsafe : ReadSafe v path max) : ReadCondition v path max := by
  by_contra hneg
  simp only [ReadCondition, not_or] at hneg
  obtain ⟨hname, hdoff, hfile, hloop⟩ := hneg
  obtain ⟨hread, hoffsets⟩ := fat12ReadFile_loop h hname hdoff hfile max
  obtain ⟨hin, ret, stored, hcall, -, hret⟩ := hsafe
  rw [hread] at hcall
  obtain ⟨dst, hrun, hpair⟩ := Option.map_eq_some_iff.mp hcall
  cases hpair
  apply hloop
  apply ReadLoopSafe.of_run h (Nat.lt_of_le_of_lt (Nat.min_le_left _ _) (v.disk.load_lt _ 4)) hrun _ hret
  intro off hoff
  apply hin
  rw [hoffsets]
  exact List.mem_append_right _ (List.mem_append_right _ hoff)

theorem ReadCondition.safe (h : Fat12Accepted v) (hcondition : ReadCondition v path max) : ReadSafe v path max := by
  by_cases hearly : pathToName path = [] ∨ findDirent v (pathToName path) = 0 ∨
      v.disk (findDirent v (pathToName path) + 11) &&& fatAttrDirectory ≠ 0
  · exact fat12ReadFile_early h max hearly
  have hslots : ∀ off ∈ direntOffsets v (pathToName path) (rootSlots v), off < v.size := direntOffsets_lt fun off hoff => rootSlot_le hoff
  simp only [not_or] at hearly
  obtain ⟨hname, hdoff, hfile⟩ := hearly
  obtain ⟨hread, hoffsets⟩ := fat12ReadFile_loop h hname hdoff hfile max
  have hloop : ReadLoopSafe v (min (v.disk.load (findDirent v (pathToName path) + 28) 4) max) (v.disk.load (findDirent v (pathToName path) + 26) 2) := by
    rcases hcondition with hnil | hzero | hdir | hloop
    · exact absurd hnil hname
    · exact absurd hzero hdoff
    · exact absurd hdir hfile
    · exact hloop
  obtain ⟨hin, stored, hrun, hstored, hret⟩ := hloop.run h (Nat.lt_of_le_of_lt (Nat.min_le_left _ _) (v.disk.load_lt _ 4))
  refine ⟨?_, toInt32 stored.length, stored, by rw [hread, hrun]; rfl, hstored.trans (Nat.min_le_right _ _), hret⟩
  intro off hoff
  rw [hoffsets] at hoff
  rcases List.mem_append.mp hoff with hoff | hoff
  · exact hslots off hoff
  · rcases List.mem_append.mp hoff with hoff | hoff
    · exact direntFields_lt (rootSlot_le (findDirent_mem hdoff)) off hoff
    · exact hin off hoff

/-- A read of an accepted image is safe exactly under the condition. -/
theorem fat12ReadFile_safe_iff {disk : Memory} {size : Nat} (hinit : fat12Init v₀ disk size = (0, v)) (path : List UInt8) (max : Nat) :
    ReadSafe v path max ↔ ReadCondition v path max :=
  ⟨ReadSafe.condition (fat12Init_accepted hinit), ReadCondition.safe (fat12Init_accepted hinit)⟩

/-- The byte of the file `B` is read into a buffer of four. -/
theorem fat12ReadFile_safe_small : ReadSafe smallVolume [66] 4 := by
  have hinit : fat12Init ⟨false, 0, ⟨0, 0, 0, 0, 0, 0, 0, 0, 0, 0⟩, fun _ => 0⟩ smallImage 768 = (0, smallVolume) := rfl
  apply (fat12ReadFile_safe_iff hinit [66] 4).mpr
  refine Or.inr (Or.inr (Or.inr ⟨[(2, 0)], ?_, ?_, Or.inl ?_⟩))
  · rw [Lib.Linked.isList_cons, Lib.Linked.isList_nil]
    decide +kernel
  · intro s hs
    rw [List.mem_singleton.mp hs]
    right
    decide +kernel
  · decide +kernel

/-- An image of two sectors: the root directory fills the second one, and its only entry, the file `A` with one byte, names cluster 3. -/
def outsideImage : Memory := fun x =>
  (([(12, 2), (13, 1), (14, 1), (17, 16), (19, 4), (510, 0x55), (511, 0xAA), (512, 65), (513, 32), (514, 32), (515, 32), (516, 32), (517, 32),
    (518, 32), (519, 32), (520, 32), (521, 32), (522, 32), (523, 0x20), (538, 3), (540, 1)] : List (Nat × UInt8)).lookup x).getD 0

def outsideVolume : Fat12 := (fat12Init ⟨false, 0, ⟨0, 0, 0, 0, 0, 0, 0, 0, 0, 0⟩, fun _ => 0⟩ outsideImage 1024).2

/-- The cluster starts behind the image, and the amount that is left wraps. -/
theorem fat12_read_outside : fat12Init ⟨false, 0, ⟨0, 0, 0, 0, 0, 0, 0, 0, 0, 0⟩, fun _ => 0⟩ outsideImage 1024 = (0, outsideVolume) ∧
    ¬ ReadSafe outsideVolume [65] 1 := by
  have hinit : fat12Init ⟨false, 0, ⟨0, 0, 0, 0, 0, 0, 0, 0, 0, 0⟩, fun _ => 0⟩ outsideImage 1024 = (0, outsideVolume) := rfl
  refine ⟨hinit, fun hsafe => ?_⟩
  have hfound : findDirent outsideVolume (pathToName [65]) = 512 := by decide +kernel
  rcases hsafe.condition (fat12Init_accepted hinit) with hname | hnone | hdir | ⟨l, hl, hwithin, -⟩
  · exact absurd hname (by decide)
  · exact absurd hnone (by decide +kernel)
  · exact absurd hdir (by decide +kernel)
  · have hhead : readEnter (min (outsideVolume.disk.load (findDirent outsideVolume (pathToName [65]) + 28) 4) 1)
        (outsideVolume.disk.load (findDirent outsideVolume (pathToName [65]) + 26) 2) 0 = some (3, 0) := by decide +kernel
    rw [hhead] at hl
    cases l with
    | nil => exact hl.elim
    | cons s l =>
        obtain ⟨hs, -⟩ := Lib.Linked.isList_cons.mp hl
        have hout := hwithin s List.mem_cons_self
        rw [← Option.some.inj hs] at hout
        rcases hout with hlarge | ⟨hstart, -⟩
        · exact absurd hlarge (by decide +kernel)
        · exact absurd hstart (by decide +kernel)

end Tsukasa
