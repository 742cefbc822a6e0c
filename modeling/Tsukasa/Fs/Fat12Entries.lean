import Tsukasa.Fs.Fat12Table

/-!
# The entries of a FAT12 volume

What one call of `fat12_set_cluster` changes, whatever the boot sector says. The copies of the FAT lie one behind the other, but the driver computes where they are in 32 bits, so a copy that reaches over 4 GiB is not written. Nor does it look whether there is a copy at all.
-/

namespace Tsukasa

open Lib (Memory)

/-- Where a copy of the FAT lies. -/
def fatAt (g : Fat12Geometry) (fi : Nat) : Nat := g.fatOffset + fi * fatBytes g

/-- The entry lies inside every copy of the FAT and inside the image. -/
structure EntryInside (v : Fat12) (c : Nat) : Prop where
  fat : c * 3 / 2 + 2 ≤ fatBytes v.geometry
  image : ∀ fi < v.geometry.numFats, fatAt v.geometry fi + c * 3 / 2 + 2 ≤ v.size

/-- `v'` is `v` with one entry changed, in every copy, and nothing else. -/
structure EntrySet (v : Fat12) (c val : Nat) (v' : Fat12) : Prop where
  state : ∃ d, v' = { v with disk := d }
  entry : getNextCluster v' c = val
  others : ∀ d, 2 ≤ d → d < 2 ^ 16 → d ≠ c → EntryInside v d → getNextCluster v' d = getNextCluster v d
  copies : ∀ fi < v.geometry.numFats, v'.disk.get12 (fatAt v.geometry fi) c = val
  copyOthers : ∀ fi < v.geometry.numFats, ∀ d, 2 ≤ d → d ≠ c → EntryInside v d →
    v'.disk.get12 (fatAt v.geometry fi) d = v.disk.get12 (fatAt v.geometry fi) d
  outside : ∀ x, (∀ fi < v.geometry.numFats, x < fatAt v.geometry fi + c * 3 / 2 ∨ fatAt v.geometry fi + c * 3 / 2 + 2 ≤ x) → v'.disk x = v.disk x

/-- There is a copy of the FAT, and the addresses of the entry in the last one have 32 bits. -/
def EntryReached (v : Fat12) (c : Nat) : Prop := 1 ≤ v.geometry.numFats ∧ fatAt v.geometry (v.geometry.numFats - 1) + c * 3 / 2 + 2 ≤ 2 ^ 32

variable {v : Fat12} {c d val : Nat} {m : Memory}

theorem fatAt_mono (g : Fat12Geometry) {fi fj : Nat} (h : fi ≤ fj) : fatAt g fi ≤ fatAt g fj :=
  Nat.add_le_add_left (Nat.mul_le_mul_right _ h) _

theorem fatAt_zero (g : Fat12Geometry) : fatAt g 0 = g.fatOffset := by rw [fatAt, Nat.zero_mul, Nat.add_zero]

/-- A lookup reads the first copy, whatever the image holds. -/
theorem getNextCluster_first (hmounted : v.mounted = true) (hlo : 2 ≤ c) (hfats : 1 ≤ v.geometry.numFats) (hinside : EntryInside v c)
    (hwrap : v.geometry.fatOffset + c * 3 / 2 + 2 ≤ 2 ^ 32) (m : Memory) : getNextCluster { v with disk := m } c = m.get12 v.geometry.fatOffset c := by
  have hsize := hinside.image 0 hfats
  rw [fatAt_zero] at hsize
  exact getNextCluster_of_fits (v := { v with disk := m }) hmounted hlo hsize hwrap

theorem EntryReached.fits (h : EntryReached v c) {fi : Nat} (hfi : fi < v.geometry.numFats) : fatAt v.geometry fi + c * 3 / 2 + 2 ≤ 2 ^ 32 := by
  have hle := fatAt_mono v.geometry (show fi ≤ v.geometry.numFats - 1 by omega)
  have hlast := h.2
  omega

theorem setCluster_reached (hmounted : v.mounted = true) (hlo : 2 ≤ c) (hinside : EntryInside v c) (h : EntryReached v c) :
    setCluster v c val = { v with disk := setCopies v.geometry c val v.disk v.geometry.numFats } :=
  setCluster_of_fits hmounted hlo fun fi hfi => ⟨hinside.image fi hfi, h.fits hfi⟩

/-- In every copy the entry has the value and the others are as they were. -/
theorem get12_setCopies {fi : Nat} (hval : val < 4096) (hroom : c * 3 / 2 + 2 ≤ fatBytes v.geometry) (hroom' : d * 3 / 2 + 2 ≤ fatBytes v.geometry)
    (hfi : fi < v.geometry.numFats) :
    (setCopies v.geometry c val m v.geometry.numFats).get12 (fatAt v.geometry fi) d = if d = c then val else m.get12 (fatAt v.geometry fi) d := by
  have hsame : ∀ i < fatBytes v.geometry, setCopies v.geometry c val m v.geometry.numFats (fatAt v.geometry fi + i) =
      m.set12 (fatAt v.geometry fi) c val (fatAt v.geometry fi + i) := fun i hi => setCopies_inside hroom hfi hi
  have hget : (setCopies v.geometry c val m v.geometry.numFats).get12 (fatAt v.geometry fi) d = (m.set12 (fatAt v.geometry fi) c val).get12 (fatAt v.geometry fi) d := by
    apply Memory.get12_congr
    · exact hsame (d * 3 / 2) (by omega)
    · exact hsame (d * 3 / 2 + 1) (by omega)
  rw [hget]
  split
  · rename_i heq
    rw [heq, Memory.get12_set12_self m _ c hval]
  · rename_i hne
    exact Memory.get12_set12_of_ne m _ hval hne

/-! ### Addresses that wrap -/

/-- The image as an address of any size shows it. -/
def wrapped (m : Memory) : Memory := fun x => m (wrap32 x)

theorem getNextCluster_wrapped (hmounted : v.mounted = true) (hlo : 2 ≤ c) :
    getNextCluster v c = if v.size ≤ wrap32 (v.geometry.fatOffset + c * 3 / 2 + 1) then 0xFFF else (wrapped v.disk).get12 v.geometry.fatOffset c := by
  have hnext : wrap32 (wrap32 (v.geometry.fatOffset + c * 3 / 2) + 1) = wrap32 (v.geometry.fatOffset + c * 3 / 2 + 1) := by
    rw [wrap32, wrap32, wrap32, Nat.mod_add_mod]
  rw [getNextCluster, if_neg (by simp [hmounted]; omega)]
  simp only [hnext]
  rfl

/-- A write below 4 GiB is the same through addresses that wrap, up to 4 GiB behind the start of the table. -/
theorem set12_wrapped {base x : Nat} (hwrap : base + c * 3 / 2 + 2 ≤ 2 ^ 32) (hlo : base ≤ x) (hhi : x < base + 2 ^ 32) :
    wrapped (m.set12 base c val) x = (wrapped m).set12 base c val x := by
  have hat : wrap32 (Memory.at12 base c) = Memory.at12 base c := wrap32_of_lt (by rw [Memory.at12]; omega)
  have hnext : wrap32 (Memory.at12 base c + 1) = Memory.at12 base c + 1 := wrap32_of_lt (by rw [Memory.at12]; omega)
  have hplace : ∀ i < 2, wrap32 x = Memory.at12 base c + i ↔ x = Memory.at12 base c + i := by
    intro i hi
    rw [wrap32, Memory.at12]
    omega
  simp only [wrapped, Memory.set12, hat, hnext]
  rw [Function.update_apply, Function.update_apply, Function.update_apply, Function.update_apply]
  simp only [hplace 1 (by decide)]
  have hfirst := hplace 0 (by decide)
  rw [Nat.add_zero] at hfirst
  simp only [hfirst]
  rfl

theorem getNextCluster_setCopies (hmounted : v.mounted = true) (hval : val < 4096) (hinside : EntryInside v c) (h : EntryReached v c)
    (hlo : 2 ≤ d) (hword : d < 2 ^ 16) (hne : d ≠ c) (hinside' : EntryInside v d) :
    getNextCluster { v with disk := setCopies v.geometry c val v.disk v.geometry.numFats } d = getNextCluster v d := by
  have hfats := h.1
  by_cases hfits : v.geometry.fatOffset + d * 3 / 2 + 2 ≤ 2 ^ 32
  · have hget := get12_setCopies (m := v.disk) hval hinside.fat hinside'.fat hfats
    rw [if_neg hne, fatAt_zero] at hget
    rw [getNextCluster_first hmounted hlo hfats hinside' hfits, hget]
    exact (getNextCluster_first hmounted hlo hfats hinside' hfits v.disk).symm
  · -- there is one copy only, whose own entry `c` does not wrap
    have hone : v.geometry.numFats = 1 := by
      by_contra hmore
      have hle := fatAt_mono v.geometry (show 1 ≤ v.geometry.numFats - 1 by omega)
      have hlast := h.2
      have hfat := hinside'.fat
      rw [fatAt, Nat.one_mul] at hle
      omega
    have hwrap := h.fits hfats
    rw [fatAt_zero] at hwrap
    rw [getNextCluster_wrapped hmounted hlo, getNextCluster_wrapped (v := { v with disk := setCopies v.geometry c val v.disk v.geometry.numFats }) hmounted hlo]
    have hdisk : setCopies v.geometry c val v.disk v.geometry.numFats = v.disk.set12 v.geometry.fatOffset c val := by
      rw [hone, setCopies, setCopies, Nat.zero_mul, Nat.add_zero]
    have hget : (wrapped (v.disk.set12 v.geometry.fatOffset c val)).get12 v.geometry.fatOffset d = (wrapped v.disk).get12 v.geometry.fatOffset d := by
      rw [← Memory.get12_set12_of_ne (wrapped v.disk) v.geometry.fatOffset hval hne]
      apply Memory.get12_congr
      · exact set12_wrapped hwrap (by rw [Memory.at12]; omega) (by rw [Memory.at12]; omega)
      · exact set12_wrapped hwrap (by rw [Memory.at12]; omega) (by rw [Memory.at12]; omega)
    dsimp only
    rw [hdisk, hget]

/-- Where the entry is reached, a call sets it. -/
theorem setCluster_entrySet (hmounted : v.mounted = true) (hlo : 2 ≤ c) (hval : val < 4096) (hinside : EntryInside v c) (h : EntryReached v c) :
    EntrySet v c val (setCluster v c val) := by
  have hfats := h.1
  rw [setCluster_reached hmounted hlo hinside h]
  refine ⟨⟨_, rfl⟩, ?_, ?_, ?_, ?_, ?_⟩
  · have hwrap := h.fits hfats
    have hget := get12_setCopies (m := v.disk) (c := c) hval hinside.fat hinside.fat hfats
    rw [fatAt_zero] at hwrap hget
    rw [getNextCluster_first hmounted hlo hfats hinside hwrap]
    exact hget.trans (if_pos rfl)
  · intro d hlo' hword hne hinside'
    exact getNextCluster_setCopies hmounted hval hinside h hlo' hword hne hinside'
  · intro fi hfi
    exact (get12_setCopies hval hinside.fat hinside.fat hfi).trans (if_pos rfl)
  · intro fi hfi d _ hne hinside'
    exact (get12_setCopies hval hinside.fat hinside'.fat hfi).trans (if_neg hne)
  · intro x hx
    exact setCopies_apart hx

/-! ### Entries that are not reached -/

/-- A byte from 4 GiB on is never written. -/
theorem setFatCopy_high (v : Fat12) (c val fi : Nat) {x : Nat} (hx : 2 ^ 32 ≤ x) : (setFatCopy c val v fi).disk x = v.disk x := by
  rw [setFatCopy]
  dsimp only
  split
  · rfl
  · dsimp only
    rw [Function.update_of_ne, Function.update_of_ne]
    · exact Nat.ne_of_gt (Nat.lt_of_lt_of_le (wrap32_lt _) hx)
    · exact Nat.ne_of_gt (Nat.lt_of_lt_of_le (wrap32_lt _) hx)

theorem setCluster_high (v : Fat12) (c val : Nat) {x : Nat} (hx : 2 ^ 32 ≤ x) : (setCluster v c val).disk x = v.disk x := by
  have hfold : ∀ fis : List Nat, ∀ v : Fat12, (fis.foldl (setFatCopy c val) v).disk x = v.disk x := by
    intro fis
    induction fis with
    | nil => exact fun v => rfl
    | cons fi fis ih =>
        intro v
        rw [List.foldl_cons, ih, setFatCopy_high v c val fi hx]
  rw [setCluster]
  split
  · rfl
  · exact hfold _ v

/-- The second byte of an entry tells 0 from 0xFFF. -/
theorem get12_high {m' : Memory} {base : Nat} (hsame : m (Memory.at12 base c + 1) = m' (Memory.at12 base c + 1)) (hzero : m.get12 base c = 0) :
    m'.get12 base c ≠ 0xFFF := by
  have hlow := (m (Memory.at12 base c)).toNat_lt
  have hlow' := (m' (Memory.at12 base c)).toNat_lt
  have hhigh := (m' (Memory.at12 base c + 1)).toNat_lt
  rw [Memory.get12, hsame] at hzero
  rw [Memory.get12]
  split at hzero <;> split <;> omega

theorem entryReached_of_entrySet (hall : ∀ val < 4096, EntrySet v c val (setCluster v c val)) : EntryReached v c := by
  have hzero := hall 0 (by decide)
  have hones := hall 0xFFF (by decide)
  have hfats : 1 ≤ v.geometry.numFats := by
    by_contra hnone
    have hsame : ∀ val, setCluster v c val = v := by
      intro val
      rw [setCluster, show v.geometry.numFats = 0 by omega]
      split <;> rfl
    have hentry := hzero.entry
    have hentry' := hones.entry
    rw [hsame] at hentry hentry'
    omega
  refine ⟨hfats, ?_⟩
  by_contra hhigh
  have hlast : v.geometry.numFats - 1 < v.geometry.numFats := by omega
  have hbyte : 2 ^ 32 ≤ Memory.at12 (fatAt v.geometry (v.geometry.numFats - 1)) c + 1 := by
    rw [Memory.at12]
    omega
  have hsame : (setCluster v c 0).disk (Memory.at12 (fatAt v.geometry (v.geometry.numFats - 1)) c + 1) =
      (setCluster v c 0xFFF).disk (Memory.at12 (fatAt v.geometry (v.geometry.numFats - 1)) c + 1) :=
    (setCluster_high v c 0 hbyte).trans (setCluster_high v c 0xFFF hbyte).symm
  exact get12_high hsame (hzero.copies _ hlast) (hones.copies _ hlast)

/-- A call sets just the entry, to whatever value, if and only if there is a copy of the FAT and the last one has the entry below 4 GiB. -/
theorem setCluster_entrySet_iff (hmounted : v.mounted = true) (hlo : 2 ≤ c) (hinside : EntryInside v c) :
    (∀ val < 4096, EntrySet v c val (setCluster v c val)) ↔ EntryReached v c :=
  ⟨entryReached_of_entrySet, fun h _ hval => setCluster_entrySet hmounted hlo hval hinside h⟩

/-- A boot sector with two FATs of one sector each. -/
def twoFats : Memory := fun x => if x = 12 then 2 else if x = 13 ∨ x = 14 ∨ x = 22 then 1 else if x = 16 then 2 else if x = 510 then 0x55 else if x = 511 then 0xAA else 0

theorem setCluster_entrySet_iff_twoFats :
    (∀ val < 4096, EntrySet (fat12Init ⟨false, 0, ⟨0, 0, 0, 0, 0, 0, 0, 0, 0, 0⟩, fun _ => 0⟩ twoFats 2048).2 3 val
        (setCluster (fat12Init ⟨false, 0, ⟨0, 0, 0, 0, 0, 0, 0, 0, 0, 0⟩, fun _ => 0⟩ twoFats 2048).2 3 val)) ↔
      EntryReached (fat12Init ⟨false, 0, ⟨0, 0, 0, 0, 0, 0, 0, 0, 0, 0⟩, fun _ => 0⟩ twoFats 2048).2 3 :=
  setCluster_entrySet_iff (by decide) (by decide) ⟨by decide, by decide⟩

/-- A boot sector with 18 FATs of 65535 sectors of 4096 bytes. -/
def wideFats : Memory := fun x =>
  if x = 12 then 16 else if x = 13 ∨ x = 14 then 1 else if x = 16 then 18 else if x = 22 ∨ x = 23 then 255 else if x = 510 then 0x55 else if x = 511 then 0xAA else 0

/-- The last copy of such a FAT starts above 4 GiB, and is not written. -/
theorem wideFats_lost :
    let v := fat12Init ⟨false, 0, ⟨0, 0, 0, 0, 0, 0, 0, 0, 0, 0⟩, fun _ => 0⟩ wideFats (2 ^ 33)
    v.1 = 0 ∧ EntryInside v.2 2 ∧ ¬ EntrySet v.2 2 0xFFF (setCluster v.2 2 0xFFF) := by
  intro v
  have hat : fatAt v.2.geometry 17 = 4096 + 17 * (65535 * 4096) := by decide
  refine ⟨by decide, ⟨by decide, by decide⟩, ?_⟩
  intro hset
  have hentry := hset.copies 17 (by decide)
  have hsame : (setCluster v.2 2 0xFFF).disk.get12 (fatAt v.2.geometry 17) 2 = v.2.disk.get12 (fatAt v.2.geometry 17) 2 := by
    apply Memory.get12_congr
    · exact setCluster_high v.2 2 0xFFF (by rw [hat, Memory.at12]; decide)
    · exact setCluster_high v.2 2 0xFFF (by rw [hat, Memory.at12]; decide)
  have hold : v.2.disk.get12 (4096 + 17 * (65535 * 4096)) 2 = 0 := by decide
  rw [hsame, hat, hold] at hentry
  exact absurd hentry (by decide)

end Tsukasa
