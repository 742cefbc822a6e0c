import Tsukasa.Fs.Fat12Bounds
import Mathlib.Order.Interval.Finset.Nat

/-!
# When a FAT12 write ends

On an image with a FAT the loop that frees the old chain ends: a cluster is read before its entry becomes 0, the other copies of the FAT only lose bits, and so each round leaves fewer entries that are not 0. On an image that claims to have no FAT nothing is freed, and the chain has to end by itself. The loop that writes always gets on, but a search with a bound that its 16-bit counter does not reach comes back only if it finds a free cluster.
-/

namespace Tsukasa

open Lib (Memory)
open Lib.Linked (IsList)

variable {v v' w : Fat12} {d d' : Memory} {c clus fi fuel n : Nat} {cs : List Nat} {path data : List UInt8}

/-! ### Freeing -/

/-- No half of a byte that was 0 has become anything else. -/
def Cleared (d d' : Memory) : Prop :=
  ∀ x, ((d x).toNat % 16 = 0 → (d' x).toNat % 16 = 0) ∧ ((d x).toNat / 16 = 0 → (d' x).toNat / 16 = 0)

theorem Cleared.refl (d : Memory) : Cleared d d := fun _ => ⟨id, id⟩

theorem Cleared.trans {d'' : Memory} (h : Cleared d d') (h' : Cleared d' d'') : Cleared d d'' :=
  fun x => ⟨fun hlow => (h' x).1 ((h x).1 hlow), fun hhigh => (h' x).2 ((h x).2 hhigh)⟩

theorem Cleared.update (h : Cleared d d') {x : Nat} {b : UInt8} (hlow : (d x).toNat % 16 = 0 → b.toNat % 16 = 0)
    (hhigh : (d x).toNat / 16 = 0 → b.toNat / 16 = 0) : Cleared d (Function.update d' x b) := by
  intro y
  by_cases heq : y = x
  · rw [heq, Function.update_self]
    exact ⟨hlow, hhigh⟩
  · rw [Function.update_of_ne heq]
    exact h y

theorem setFatCopy_cleared (v : Fat12) (c fi : Nat) : ∃ d', setFatCopy c 0 v fi = { v with disk := d' } ∧ Cleared v.disk d' := by
  simp only [setFatCopy]
  split
  · exact ⟨v.disk, rfl, Cleared.refl v.disk⟩
  · refine ⟨_, rfl, Cleared.update (Cleared.update (Cleared.refl v.disk) ?_ ?_) ?_ ?_⟩
    all_goals
      intro hbyte
      rw [UInt8.toNat_ofNat']
      split <;> omega

theorem foldl_setFatCopy_cleared (v : Fat12) (c : Nat) (fis : List Nat) :
    ∃ d', fis.foldl (setFatCopy c 0) v = { v with disk := d' } ∧ Cleared v.disk d' := by
  induction fis generalizing v with
  | nil => exact ⟨v.disk, rfl, Cleared.refl v.disk⟩
  | cons fi fis ih =>
      obtain ⟨d, heq, hcleared⟩ := setFatCopy_cleared v c fi
      obtain ⟨d', heq', hcleared'⟩ := ih { v with disk := d }
      refine ⟨d', ?_, hcleared.trans hcleared'⟩
      rw [List.foldl_cons, heq]
      exact heq'

theorem setCluster_cleared (v : Fat12) (c : Nat) : ∃ d', setCluster v c 0 = { v with disk := d' } ∧ Cleared v.disk d' := by
  rw [setCluster]
  split
  · exact ⟨v.disk, rfl, Cleared.refl v.disk⟩
  · exact foldl_setFatCopy_cleared v c _

/-- A free entry stays free. -/
theorem getNextCluster_cleared (h : Cleared v.disk d') (hfree : getNextCluster v c = 0) : getNextCluster { v with disk := d' } c = 0 := by
  rw [getNextCluster] at hfree ⊢
  split at hfree
  · cases hfree
  rename_i hmounted
  rw [if_neg hmounted]
  simp only at hfree ⊢
  split at hfree
  · cases hfree
  rename_i hin
  rw [if_neg hin]
  have hlow := h (wrap32 (v.geometry.fatOffset + c * 3 / 2))
  have hhigh := h (wrap32 (wrap32 (v.geometry.fatOffset + c * 3 / 2) + 1))
  have := UInt8.toNat_lt (v.disk (wrap32 (v.geometry.fatOffset + c * 3 / 2)))
  have := UInt8.toNat_lt (d' (wrap32 (v.geometry.fatOffset + c * 3 / 2)))
  split at hfree
  · rename_i hodd
    rw [if_pos hodd]
    omega
  · rename_i heven
    rw [if_neg heven]
    omega

/-- The entry of a cluster lies in the image. -/
def FatEntryInside (v : Fat12) (clus : Nat) : Prop := wrap32 (wrap32 (v.geometry.fatOffset + clus * 3 / 2) + 1) < v.size

theorem getNextCluster_outside (hout : ¬ FatEntryInside v c) : getNextCluster v c = 0xFFF := by
  rw [getNextCluster]
  split
  · rfl
  · exact if_pos (Nat.le_of_not_lt hout)

/-- On an image with a FAT a cluster whose entry lies in the image is free afterwards. -/
theorem getNextCluster_freed (h : Fat12Accepted v) (hfats : 1 ≤ v.geometry.numFats) (hc : 2 ≤ c) (hin : FatEntryInside v c) :
    getNextCluster (setCluster v c 0) c = 0 := by
  obtain ⟨n, hn⟩ := Nat.exists_eq_add_one_of_ne_zero (Nat.ne_of_gt hfats)
  have hfat : wrap32 (v.geometry.fatOffset + wrap32 (0 * v.geometry.fatSz16 * v.geometry.bytesPerSec)) = v.geometry.fatOffset := by
    have := h.fat
    rw [Nat.zero_mul, Nat.zero_mul]
    exact wrap32_of_lt (by rw [wrap32]; omega)
  have hfirst : getNextCluster (setFatCopy c 0 v 0) c = 0 := by
    have hne : wrap32 (v.geometry.fatOffset + c * 3 / 2) ≠ wrap32 (wrap32 (v.geometry.fatOffset + c * 3 / 2) + 1) := by
      rw [wrap32, wrap32]
      omega
    have hbyte := UInt8.toNat_lt (v.disk (wrap32 (v.geometry.fatOffset + c * 3 / 2)))
    simp only [setFatCopy, hfat]
    rw [if_neg (Nat.not_le_of_lt hin), getNextCluster, if_neg (by simp [h.mounted]; omega)]
    simp only
    rw [if_neg (Nat.not_le_of_lt hin), Function.update_of_ne hne, Function.update_self, Function.update_self, UInt8.toNat_ofNat', UInt8.toNat_ofNat']
    split
    · omega
    · omega
  obtain ⟨d, hd, -⟩ := setFatCopy_cleared v c 0
  obtain ⟨d', hd', hcleared⟩ := foldl_setFatCopy_cleared (setFatCopy c 0 v 0) c ((List.range n).map Nat.succ)
  rw [setCluster, if_neg (by simp [h.mounted]; omega), hn, List.range_succ_eq_map, List.foldl_cons, hd']
  rw [hd] at hcleared hfirst ⊢
  exact getNextCluster_cleared (v := { v with disk := d }) hcleared hfirst

/-- The number of entries below `n` that are not 0. -/
def usedEntries (v : Fat12) (n : Nat) : Nat := ((Finset.Ico 2 n).filter fun c => getNextCluster v c ≠ 0).card

theorem usedEntries_le (v : Fat12) (n : Nat) : usedEntries v n ≤ n - 2 := by
  have hle := Finset.card_filter_le (Finset.Ico 2 n) fun c => getNextCluster v c ≠ 0
  rwa [Nat.card_Ico] at hle

theorem usedEntries_lt (hcleared : Cleared v.disk d') (hlo : 2 ≤ c) (hhi : c < n) (hused : getNextCluster v c ≠ 0)
    (hfree : getNextCluster { v with disk := d' } c = 0) : usedEntries { v with disk := d' } n < usedEntries v n := by
  apply Finset.card_lt_card
  rw [Finset.ssubset_iff_of_subset]
  · refine ⟨c, Finset.mem_filter.mpr ⟨Finset.mem_Ico.mpr ⟨hlo, hhi⟩, hused⟩, fun hmem => ?_⟩
    exact (Finset.mem_filter.mp hmem).2 hfree
  · intro x hx
    obtain ⟨hrange, hx⟩ := Finset.mem_filter.mp hx
    exact Finset.mem_filter.mpr ⟨hrange, fun hzero => hx (getNextCluster_cleared hcleared hzero)⟩

/-- A loop at the end of its chain. -/
theorem freeChain_stop (hstop : ¬ (2 ≤ clus ∧ clus < fat12Eoc)) : freeChain (fuel + 1) clus v = some v := by
  rw [freeChain, if_neg hstop]

/-- Each round leaves fewer used entries, or is one of the last two. -/
theorem freeChain_ends (h : Fat12Accepted v) (hfats : 1 ≤ v.geometry.numFats) (hfuel : usedEntries v fat12Eoc + 2 ≤ fuel) :
    ∃ w, freeChain fuel clus v = some w := by
  induction fuel generalizing v clus with
  | zero => exact absurd hfuel (by omega)
  | succ fuel ih =>
      by_cases hrun : 2 ≤ clus ∧ clus < fat12Eoc
      · rw [freeChain, if_pos hrun]
        obtain ⟨d, hd, hcleared⟩ := setCluster_cleared v clus
        obtain ⟨fuel, rfl⟩ := Nat.exists_eq_add_one_of_ne_zero (show fuel ≠ 0 by omega)
        by_cases hfree : getNextCluster v clus = 0
        · exact ⟨_, freeChain_stop (by rw [hfree]; omega)⟩
        by_cases hin : FatEntryInside v clus
        · have hfreed := getNextCluster_freed h hfats hrun.1 hin
          rw [hd] at hfreed ⊢
          have hless := usedEntries_lt hcleared hrun.1 hrun.2 hfree hfreed
          exact ih { h with } hfats (by omega)
        · exact ⟨_, freeChain_stop (by rw [getNextCluster_outside hin]; decide)⟩
      · exact ⟨v, freeChain_stop hrun⟩

/-- The links of the FAT. -/
def fatLinks (v : Fat12) (c : Nat) : Option Nat := Lib.AllocTable.link fat12Eoc (getNextCluster v c)

/-- The old chain can be freed: there is a FAT, or the chain ends by itself. -/
def FreeEnds (v : Fat12) (clus : Nat) : Prop :=
  1 ≤ v.geometry.numFats ∨ ∃ cs, IsList (fatLinks v) (Lib.AllocTable.link fat12Eoc clus) cs

/-- Without a FAT nothing is written. -/
theorem setCluster_noFat (hfats : v.geometry.numFats = 0) (c val : Nat) : setCluster v c val = v := by
  rw [setCluster, hfats]
  split
  · rfl
  · rfl

theorem freeChain_noFat (hfats : v.geometry.numFats = 0) :
    (∃ w, freeChain fuel clus v = some w) ↔ ∃ cs, IsList (fatLinks v) (Lib.AllocTable.link fat12Eoc clus) cs ∧ cs.length < fuel := by
  induction fuel generalizing clus with
  | zero =>
      constructor
      · rintro ⟨w, hw⟩
        cases hw
      · rintro ⟨cs, -, hlt⟩
        exact absurd hlt (Nat.not_lt_zero _)
  | succ fuel ih =>
      by_cases hrun : 2 ≤ clus ∧ clus < fat12Eoc
      · rw [freeChain, if_pos hrun, setCluster_noFat hfats, ih, Lib.AllocTable.link_eq_some hrun.1 hrun.2]
        constructor
        · rintro ⟨cs, hcs, hlt⟩
          exact ⟨clus :: cs, Lib.Linked.isList_cons.mpr ⟨rfl, hcs⟩, Nat.succ_lt_succ hlt⟩
        · rintro ⟨cs, hcs, hlt⟩
          cases cs with
          | nil => exact hcs.elim
          | cons x cs =>
              obtain ⟨hhead, hrest⟩ := Lib.Linked.isList_cons.mp hcs
              rw [← Option.some.inj hhead] at hrest
              exact ⟨cs, hrest, Nat.lt_of_succ_lt_succ hlt⟩
      · rw [freeChain, if_neg hrun, Lib.AllocTable.link_eq_none (by omega)]
        exact ⟨fun _ => ⟨[], trivial, Nat.succ_pos fuel⟩, fun _ => ⟨v, rfl⟩⟩

/-- The fuel is enough for every chain that ends. -/
theorem fatLinks_length (h : IsList (fatLinks v) (Lib.AllocTable.link fat12Eoc clus) cs) : cs.length < fat12Eoc + 1 := by
  have hlink : ∀ x c : Nat, Lib.AllocTable.link fat12Eoc x = some c → c < fat12Eoc := by
    intro x c hx
    obtain ⟨hrange, hc⟩ := Option.ite_none_right_eq_some.mp hx
    rw [← Option.some.inj hc]
    exact hrange.2
  have hmem : ∀ c ∈ cs, c < fat12Eoc := h.forall_mem (hlink clus) fun x c hc => hlink _ c hc
  have hle := (h.nodup.subperm (fun c hc => List.mem_range.mpr (hmem c hc) : cs ⊆ List.range fat12Eoc)).length_le
  rw [List.length_range] at hle
  exact Nat.lt_succ_of_le hle

theorem freeChain_iff (h : Fat12Accepted v) : (∃ w, freeChain (fat12Eoc + 1) clus v = some w) ↔ FreeEnds v clus := by
  by_cases hfats : 1 ≤ v.geometry.numFats
  · have hused := usedEntries_le v fat12Eoc
    have htwo : 2 ≤ fat12Eoc := by decide
    exact ⟨fun _ => Or.inl hfats, fun _ => freeChain_ends h hfats (by omega)⟩
  · rw [freeChain_noFat (by omega)]
    constructor
    · rintro ⟨cs, hcs, -⟩
      exact Or.inr ⟨cs, hcs⟩
    · rintro (hfats' | ⟨cs, hcs⟩)
      · exact absurd hfats' hfats
      · exact ⟨cs, hcs, fatLinks_length hcs⟩

/-! ### Allocating -/

/-- The search for a free cluster comes back: the counter reaches its bound, or finds one before it wraps. -/
def AllocReturns (v : Fat12) : Prop := allocBound v.geometry < 65536 ∨ ∃ c, 2 ≤ c ∧ c < 65536 ∧ getNextCluster v c = 0

theorem allocCluster_iff (v : Fat12) : (∃ r, allocCluster v = some r) ↔ AllocReturns v := by
  rw [allocCluster]
  cases hfind : (List.range' 2 (min (allocBound v.geometry) 65536 - 2)).find? fun c => getNextCluster v c = 0 with
  | some c =>
      have hrange := List.mem_range'_1.mp (List.mem_of_find?_eq_some hfind)
      have hfree : getNextCluster v c = 0 := by simpa using List.find?_some hfind
      exact ⟨fun _ => Or.inr ⟨c, hrange.1, by omega, hfree⟩, fun _ => ⟨_, rfl⟩⟩
  | none =>
      by_cases hbound : allocBound v.geometry < 65536
      · simp only [if_pos hbound]
        exact ⟨fun _ => Or.inl hbound, fun _ => ⟨_, rfl⟩⟩
      · simp only [if_neg hbound]
        constructor
        · rintro ⟨r, hr⟩
          cases hr
        · rintro (hsmall | ⟨c, hlo, hhi, hfree⟩)
          · exact absurd hsmall hbound
          · have hmem : c ∈ List.range' 2 (min (allocBound v.geometry) 65536 - 2) := by
              rw [List.mem_range'_1]
              omega
            exact absurd (decide_eq_true hfree) (List.find?_eq_none.mp hfind c hmem)

/-- The state at the head of the loop: the image, the first and the last cluster, and what is left to write. -/
structure WriteState where
  image : Fat12
  firstClus : Nat
  prevClus : Nat
  src : List UInt8

/-- A round of the loop that has got a cluster. -/
def writeRound (s : WriteState) : Option WriteState :=
  match allocCluster s.image with
  | none => none
  | some (c, v) =>
      if c = 0 then none
      else
        let v := if s.prevClus ≠ 0 then setCluster v s.prevClus c else v
        let toWrite := min s.src.length (clusterBytes v.geometry)
        some ⟨{ v with disk := copyToImage v (clusterToOffset v.geometry c) toWrite s.src }, if s.prevClus ≠ 0 then s.firstClus else c, c,
          s.src.drop toWrite⟩

/-- The states that the loop goes through. -/
inductive WriteReach (s : WriteState) : WriteState → Prop where
  | start : WriteReach s s
  | round {t u : WriteState} : WriteReach s t → t.src ≠ [] → writeRound t = some u → WriteReach s u

/-- Every search of the loop comes back. -/
def WriteEnds (s : WriteState) : Prop := ∀ t, WriteReach s t → t.src ≠ [] → AllocReturns t.image

variable {s t u : WriteState}

theorem WriteReach.head (hsrc : s.src ≠ []) (hround : writeRound s = some u) (h : WriteReach u t) : WriteReach s t := by
  induction h with
  | start => exact .round .start hsrc hround
  | round _ hne hnext ih => exact .round ih hne hnext

theorem WriteReach.cases_head (h : WriteReach s t) : t = s ∨ ∃ u, s.src ≠ [] ∧ writeRound s = some u ∧ WriteReach u t := by
  induction h with
  | start => exact Or.inl rfl
  | round hreach hne hnext ih =>
      rcases ih with rfl | ⟨x, hsrc, hround, hrest⟩
      · exact Or.inr ⟨_, hne, hnext, .start⟩
      · exact Or.inr ⟨x, hsrc, hround, .round hrest hne hnext⟩

/-- One round of the loop. -/
theorem writeLoop_succ (hsrc : s.src ≠ []) : writeLoop (fuel + 1) s.image s.firstClus s.prevClus s.src =
    match allocCluster s.image with
    | none => none
    | some (_, v) =>
        match writeRound s with
        | none => some (v, none)
        | some u => writeLoop fuel u.image u.firstClus u.prevClus u.src := by
  rw [writeLoop, if_neg hsrc, writeRound]
  cases allocCluster s.image with
  | none => rfl
  | some r =>
      simp only
      split
      · rfl
      · rfl

theorem setCluster_geometry (v : Fat12) (c val : Nat) : (setCluster v c val).geometry = v.geometry := by
  have hcopy : ∀ (w : Fat12) (fi : Nat), (setFatCopy c val w fi).geometry = w.geometry := by
    intro w fi
    simp only [setFatCopy]
    split
    · rfl
    · rfl
  have hfold : ∀ (fis : List Nat) (w : Fat12), (fis.foldl (setFatCopy c val) w).geometry = w.geometry := by
    intro fis
    induction fis with
    | nil => exact fun w => rfl
    | cons fi fis ih => exact fun w => (ih _).trans (hcopy w fi)
  rw [setCluster]
  split
  · rfl
  · exact hfold _ v

theorem allocCluster_geometry {r : Nat × Fat12} (h : allocCluster v = some r) : r.2.geometry = v.geometry := by
  rw [allocCluster] at h
  split at h
  · cases h
    exact setCluster_geometry v _ _
  · obtain ⟨-, hr⟩ := Option.ite_none_right_eq_some.mp h
    rw [← Option.some.inj hr]

/-- A round keeps the geometry, and less is left to write behind it. -/
theorem writeRound_progress (h : writeRound s = some u) (hcluster : 0 < clusterBytes s.image.geometry) (hsrc : s.src ≠ []) :
    u.image.geometry = s.image.geometry ∧ u.src.length < s.src.length := by
  rw [writeRound] at h
  split at h
  · cases h
  rename_i c v halloc
  have hgeometry : v.geometry = s.image.geometry := allocCluster_geometry halloc
  split at h
  · cases h
  have hlinked : (if s.prevClus ≠ 0 then setCluster v s.prevClus c else v).geometry = s.image.geometry := by
    split
    · rw [setCluster_geometry, hgeometry]
    · exact hgeometry
  rw [← Option.some.inj h]
  refine ⟨hlinked, ?_⟩
  have := List.length_pos_iff.mpr hsrc
  simp only [hlinked, List.length_drop]
  omega

/-- The loop ends exactly when every search does. -/
theorem writeLoop_iff (hcluster : 0 < clusterBytes s.image.geometry) (hfuel : s.src.length ≤ fuel) :
    (∃ r, writeLoop fuel s.image s.firstClus s.prevClus s.src = some r) ↔ WriteEnds s := by
  induction fuel generalizing s with
  | zero =>
      have hnil : s.src = [] := List.eq_nil_of_length_eq_zero (Nat.le_zero.mp hfuel)
      rw [writeLoop, if_pos hnil]
      refine ⟨fun _ t ht hne => ?_, fun _ => ⟨_, rfl⟩⟩
      rcases ht.cases_head with rfl | ⟨u, hsrc, -, -⟩
      · exact absurd hnil hne
      · exact absurd hnil hsrc
  | succ fuel ih =>
      by_cases hsrc : s.src = []
      · rw [writeLoop, if_pos hsrc]
        refine ⟨fun _ t ht hne => ?_, fun _ => ⟨_, rfl⟩⟩
        rcases ht.cases_head with rfl | ⟨u, hne', -, -⟩
        · exact absurd hsrc hne
        · exact absurd hsrc hne'
      rw [writeLoop_succ hsrc]
      constructor
      · rintro ⟨r, hr⟩ t ht hne
        cases halloc : allocCluster s.image with
        | none =>
            rw [halloc] at hr
            cases hr
        | some a =>
            rcases ht.cases_head with rfl | ⟨u, -, hround, hrest⟩
            · exact (allocCluster_iff _).mp ⟨a, halloc⟩
            · obtain ⟨hgeometry, hless⟩ := writeRound_progress hround hcluster hsrc
              rw [halloc, hround] at hr
              exact (ih (hgeometry ▸ hcluster) (by omega)).mp ⟨r, hr⟩ t hrest hne
      · intro hends
        obtain ⟨a, halloc⟩ := (allocCluster_iff _).mpr (hends s .start hsrc)
        rw [halloc]
        cases hround : writeRound s with
        | none => exact ⟨_, rfl⟩
        | some u =>
            obtain ⟨hgeometry, hless⟩ := writeRound_progress hround hcluster hsrc
            exact (ih (hgeometry ▸ hcluster) (by omega)).mpr fun t ht hne => hends t (.head hsrc hround ht) hne

/-! ### The call -/

/-- The call gets to no chain, or the old chain can be freed and every search of the loop comes back. -/
def WriteCondition (v : Fat12) (path data : List UInt8) : Prop :=
  pathToName path = [] ∨ findOrCreate v (pathToName path) = none ∨
  ∃ doff w, findOrCreate v (pathToName path) = some (doff, w) ∧ FreeEnds w (w.disk.load (doff + 26) 2) ∧
    (data = [] ∨ ∀ u, freeChain (fat12Eoc + 1) (w.disk.load (doff + 26) 2) w = some u → WriteEnds ⟨setDirent u doff 0 0, 0, 0, data⟩)

theorem freeChain_geometry (h : freeChain fuel clus v = some w) : w.geometry = v.geometry := by
  induction fuel generalizing clus v with
  | zero => cases h
  | succ fuel ih =>
      rw [freeChain] at h
      split at h
      · exact (ih h).trans (setCluster_geometry v clus 0)
      · cases h
        rfl

theorem findOrCreate_accepted (h : Fat12Accepted v) {name : List UInt8} {doff : Nat} (hopen : findOrCreate v name = some (doff, w)) :
    Fat12Accepted w := by
  rw [findOrCreate] at hopen
  split at hopen
  · cases hopen
    exact h
  split at hopen
  · cases hopen
  split at hopen
  · cases hopen
  · cases hopen
    exact { h with }

/-- The write behind the opened entry. -/
theorem writeOpened_ends (h : Fat12Accepted w) (doff : Nat) (data : List UInt8) :
    (∃ r, (match freeChain (fat12Eoc + 1) (w.disk.load (doff + 26) 2) w with
      | none => none
      | some v =>
          if data = [] then some ((0 : Int), setDirent v doff 0 0)
          else
            match writeLoop data.length (setDirent v doff 0 0) 0 0 data with
            | none => none
            | some (v, none) => some (-1, v)
            | some (v, some firstClus) => some (0, setDirent v doff firstClus data.length)) = some r) ↔
    FreeEnds w (w.disk.load (doff + 26) 2) ∧
      (data = [] ∨ ∀ u, freeChain (fat12Eoc + 1) (w.disk.load (doff + 26) 2) w = some u → WriteEnds ⟨setDirent u doff 0 0, 0, 0, data⟩) := by
  rw [← freeChain_iff h]
  cases hchain : freeChain (fat12Eoc + 1) (w.disk.load (doff + 26) 2) w with
  | none =>
      constructor
      · rintro ⟨r, hr⟩
        cases hr
      · rintro ⟨⟨u, hu⟩, -⟩
        cases hu
  | some u =>
      have hcluster : 0 < clusterBytes (setDirent u doff 0 0).geometry := by
        rw [show (setDirent u doff 0 0).geometry = u.geometry from rfl, freeChain_geometry hchain]
        exact h.cluster
      have hloop := writeLoop_iff (s := ⟨setDirent u doff 0 0, 0, 0, data⟩) hcluster le_rfl
      by_cases hdata : data = []
      · simp only [if_pos hdata]
        exact ⟨fun _ => ⟨⟨u, rfl⟩, Or.inl hdata⟩, fun _ => ⟨_, rfl⟩⟩
      simp only [if_neg hdata] at hloop ⊢
      cases hwrite : writeLoop data.length (setDirent u doff 0 0) 0 0 data with
      | none =>
          rw [hwrite] at hloop
          constructor
          · rintro ⟨r, hr⟩
            cases hr
          · rintro ⟨-, hends⟩
            obtain ⟨r, hr⟩ := hloop.mpr ((hends.resolve_left hdata) u rfl)
            cases hr
      | some r =>
          have hends := hloop.mp ⟨r, hwrite⟩
          refine ⟨fun _ => ⟨⟨u, rfl⟩, Or.inr fun u' hu' => ?_⟩, fun _ => ?_⟩
          · cases hu'
            exact hends
          · cases r with
            | mk v first =>
                cases first with
                | none => exact ⟨_, rfl⟩
                | some firstClus => exact ⟨_, rfl⟩

theorem fat12WriteFile_ends (h : Fat12Accepted v) (path data : List UInt8) :
    (∃ r, fat12WriteFile v path data = some r) ↔ WriteCondition v path data := by
  rw [fat12WriteFile, if_neg (by simp [h.mounted]), WriteCondition]
  by_cases hname : pathToName path = []
  · simp only [if_pos hname]
    exact ⟨fun _ => Or.inl hname, fun _ => ⟨_, rfl⟩⟩
  rw [if_neg hname]
  cases hopen : findOrCreate v (pathToName path) with
  | none => exact ⟨fun _ => Or.inr (Or.inl rfl), fun _ => ⟨_, rfl⟩⟩
  | some opened =>
      cases opened with
      | mk doff w =>
          have hends := writeOpened_ends (findOrCreate_accepted h hopen) doff data
          constructor
          · intro hreturns
            exact Or.inr (Or.inr ⟨doff, w, rfl, hends.mp hreturns⟩)
          · rintro (hnil | hnone | ⟨doff', w', hopened, hcondition⟩)
            · exact absurd hnil hname
            · cases hnone
            · cases hopened
              exact hends.mpr hcondition

theorem WriteReach.geometry (h : WriteReach s t) (hcluster : 0 < clusterBytes s.image.geometry) : t.image.geometry = s.image.geometry := by
  induction h with
  | start => rfl
  | round _ hne hround ih => exact (writeRound_progress hround (ih ▸ hcluster) hne).1.trans ih

theorem findOrCreate_geometry {name : List UInt8} {doff : Nat} (hopen : findOrCreate v name = some (doff, w)) : w.geometry = v.geometry := by
  rw [findOrCreate] at hopen
  split at hopen
  · cases hopen
    rfl
  split at hopen
  · cases hopen
  split at hopen
  · cases hopen
  · cases hopen
    rfl

/-- With a FAT, and a search bound that the counter reaches, every write ends. -/
theorem WriteCondition.of_bound (h : Fat12Accepted v) (hfats : 1 ≤ v.geometry.numFats) (hbound : allocBound v.geometry < 65536)
    (path data : List UInt8) : WriteCondition v path data := by
  rw [WriteCondition]
  cases hopen : findOrCreate v (pathToName path) with
  | none => exact Or.inr (Or.inl rfl)
  | some opened =>
      have hgeometry : opened.2.geometry = v.geometry := findOrCreate_geometry hopen
      refine Or.inr (Or.inr ⟨opened.1, opened.2, rfl, Or.inl (hgeometry ▸ hfats), Or.inr fun u hu t ht _ => ?_⟩)
      have hchain : u.geometry = opened.2.geometry := freeChain_geometry hu
      have hsame : t.image.geometry = v.geometry := by
        rw [ht.geometry (show 0 < clusterBytes u.geometry by rw [hchain, hgeometry]; exact h.cluster)]
        exact hchain.trans hgeometry
      exact Or.inl (hsame ▸ hbound)

/-- A write to an accepted image ends exactly under the condition. -/
theorem fat12WriteFile_ends_iff {v₀ : Fat12} {disk : Memory} {size : Nat} (hinit : fat12Init v₀ disk size = (0, v)) (path data : List UInt8) :
    (∃ r, fat12WriteFile v path data = some r) ↔ WriteCondition v path data := fat12WriteFile_ends (fat12Init_accepted hinit) path data

/-- Three bytes are written to a new file. -/
theorem fat12WriteFile_ends_small : ∃ r, fat12WriteFile smallVolume [65] [1, 2, 3] = some r := by
  have hinit : fat12Init ⟨false, 0, ⟨0, 0, 0, 0, 0, 0, 0, 0, 0, 0⟩, fun _ => 0⟩ smallImage 768 = (0, smallVolume) := rfl
  exact (fat12WriteFile_ends_iff hinit [65] [1, 2, 3]).mpr
    (WriteCondition.of_bound (fat12Init_accepted hinit) (by decide +kernel) (by decide +kernel) [65] [1, 2, 3])

/-- An image without a FAT, so that the lookups go to the root directory: a deleted entry links cluster 2 to itself, and the file `A` starts there. -/
def circleImage : Memory := fun x =>
  (([(12, 2), (13, 1), (14, 1), (17, 16), (19, 4), (510, 0x55), (511, 0xAA), (512, 0xE5), (515, 2), (544, 65), (545, 32), (546, 32), (547, 32),
    (548, 32), (549, 32), (550, 32), (551, 32), (552, 32), (553, 32), (554, 32), (555, 0x20), (570, 2), (572, 1)] : List (Nat × UInt8)).lookup x).getD 0

def circleVolume : Fat12 := (fat12Init ⟨false, 0, ⟨0, 0, 0, 0, 0, 0, 0, 0, 0, 0⟩, fun _ => 0⟩ circleImage 1024).2

/-- The loop that frees the chain goes round for ever. -/
theorem fat12_free_circle : fat12Init ⟨false, 0, ⟨0, 0, 0, 0, 0, 0, 0, 0, 0, 0⟩, fun _ => 0⟩ circleImage 1024 = (0, circleVolume) ∧
    ¬ ∃ r, fat12WriteFile circleVolume [65] [] = some r := by
  have hinit : fat12Init ⟨false, 0, ⟨0, 0, 0, 0, 0, 0, 0, 0, 0, 0⟩, fun _ => 0⟩ circleImage 1024 = (0, circleVolume) := rfl
  refine ⟨hinit, fun hreturns => ?_⟩
  have hopen : findOrCreate circleVolume (pathToName [65]) = some (544, circleVolume) := by
    rw [findOrCreate, if_pos (by decide +kernel), show findDirent circleVolume (pathToName [65]) = 544 by decide +kernel]
  rcases (fat12WriteFile_ends (fat12Init_accepted hinit) [65] []).mp hreturns with hname | hnone | ⟨doff, w, hopened, hends, -⟩
  · exact absurd hname (by decide)
  · rw [hopen] at hnone
    cases hnone
  · rw [hopen] at hopened
    cases hopened
    rcases hends with hfats | ⟨cs, hcs⟩
    · exact absurd hfats (by decide +kernel)
    · have hfirst : Lib.AllocTable.link fat12Eoc (circleVolume.disk.load (544 + 26) 2) = some 2 := by decide +kernel
      have hnext : fatLinks circleVolume 2 = some 2 := by decide +kernel
      rw [hfirst] at hcs
      -- behind the first cluster the same list starts again
      cases cs with
      | nil => exact hcs.elim
      | cons x cs =>
          obtain ⟨hx, hrest⟩ := Lib.Linked.isList_cons.mp hcs
          rw [← Option.some.inj hx, hnext] at hrest
          have := congrArg List.length (hcs.unique hrest)
          simp at this

end Tsukasa
