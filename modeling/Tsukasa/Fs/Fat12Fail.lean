import Tsukasa.Fs.Fat12Space

/-!
# A write to a FAT12 file that fails

`fat12_write_file` opens the entry, frees the old chain, clears the entry and claims clusters one after the other, and only then finds out that there are not enough. It undoes none of this. A write that fails for want of clusters leaves the volume as it was only when the disk was full before and the entry of the name was empty, or would be created with the mark of a deleted one.
-/

namespace Tsukasa

open Lib (Memory)

variable {v w u t : Fat12} {doff : Nat} {cs others before behind : List Nat} {name path data : List UInt8}

/-! ### What stays -/

/-- The files of `v` are those of `w`: the entries, what a read of any path returns, the chains of the files in subdirectories, and the free clusters. -/
structure VolumeUnchanged (v w : Fat12) (others : List Nat) : Prop where
  owners : ∀ off, ownsChain w off ↔ ownsChain v off
  entries : ∀ off, ownsChain v off → w.disk.bytes off 32 = v.disk.bytes off 32
  contents : ∀ path max, fat12ReadFile w path max = fat12ReadFile v path max
  nested : ∀ f ∈ others, ∀ cs, ChainOf v f cs → ChainOf w f cs ∧
    Lib.readBlocks (clusterBytes v.geometry) w.disk (blocksOf v.geometry cs) = Lib.readBlocks (clusterBytes v.geometry) v.disk (blocksOf v.geometry cs)
  free : freeClusters w = freeClusters v

theorem VolumeUnchanged.refl (v : Fat12) (others : List Nat) : VolumeUnchanged v v others :=
  ⟨fun _ => Iff.rfl, fun _ _ => rfl, fun _ _ => rfl, fun _ _ _ hchain => ⟨hchain, rfl⟩, rfl⟩

/-- A change inside a slot without an owner, before and afterwards, is not seen. -/
theorem VolumeUnchanged.of_slot (hlayout : Fat12Layout v) (h : Fat12WellFormed v others) (himage : ∃ d, w = { v with disk := d })
    (hslot : doff ∈ rootSlots v) (houtside : ∀ x, x < doff ∨ doff + 32 ≤ x → w.disk x = v.disk x) (habsent : ¬ ownsChain v doff)
    (howns : ∀ off, ownsChain w off ↔ ownsChain v off) (hfind : ∀ name, findDirent w name = findDirent v name) : VolumeUnchanged v w others := by
  have hplace := rootSlot_place hlayout hslot
  have hfat : fatOf w = fatOf v := fatOf_congr hlayout himage fun x hx => houtside x (by omega)
  have hgeometry : w.geometry = v.geometry := by
    obtain ⟨d, rfl⟩ := himage
    rfl
  have hentry : ∀ off, ownsChain v off → ∀ i < 32, w.disk (off + i) = v.disk (off + i) := by
    intro off hoff i hi
    have hne : off ≠ doff := fun heq => habsent (heq ▸ hoff)
    have := rootSlots_apart hlayout (liveDirents_subset v hoff.1) hslot hne
    exact houtside _ (by omega)
  have hblocks : ∀ cs, ∀ a ∈ blocksOf v.geometry cs, ∀ x, a ≤ x → x < a + clusterBytes v.geometry → w.disk x = v.disk x := by
    intro cs a ha x hlo hhi
    obtain ⟨c, -, rfl⟩ := List.mem_map.mp ha
    exact houtside x (by omega)
  refine ⟨howns, ?_, ?_, ?_, ?_⟩
  · intro off hoff
    apply List.map_congr_left
    intro i hi
    exact hentry off hoff i (List.mem_range.mp hi)
  · intro path max
    apply fat12ReadFile_congr hlayout himage rfl (hfind _)
    intro hzero
    obtain ⟨hoff, -⟩ := findDirent_owns hzero
    obtain ⟨chain, htable⟩ := h.table
    have hfirst : firstOf v others (.inl (findDirent v (pathToName path))) = some (v.disk.load (findDirent v (pathToName path) + 26) 2) := if_pos hoff
    exact ⟨hentry _ hoff, chain (.inl _), htable.chains _ _ hfirst, fun c _ => by rw [hfat], hblocks _⟩
  · intro f _ cs hchain
    refine ⟨?_, Lib.readBlocks_congr (hblocks cs)⟩
    rw [ChainOf, hfat, hgeometry]
    exact hchain
  · rw [freeClusters, freeClusters, hfat, hgeometry]

/-! ### A new entry that is marked as deleted -/

theorem strToFat83_marked (h : name.head? = some 0xE5) : (strToFat83 name).head? = some 0xE5 := by
  cases name with
  | nil => cases h
  | cons c name =>
      obtain rfl : c = 0xE5 := by simpa using h
      simp [strToFat83, padSpaces, dot, toUpper]

/-- It is in no listing and no lookup finds it. -/
theorem newDirent_marked (h : Fat12Layout v) (hended : DirEnded v) (hslot : FreeSlot v doff before behind) (hmark : name.head? = some 0xE5) :
    (∀ off, ownsChain (newDirent v doff name) off ↔ ownsChain v off) ∧ ∀ name', findDirent (newDirent v doff name) name' = findDirent v name' := by
  have hhead := strToFat83_marked hmark
  have hfirst : (strToFat83 name).head? ≠ some 0 := by
    rw [hhead]
    decide
  have hhidden : direntShown (newDirent v doff name) doff = false := by
    have hbyte : (newDirent v doff name).disk doff = 0xE5 := by
      rw [@newDirent_first v doff name] at hhead
      exact Option.some.inj hhead
    simp [direntShown, hbyte]
  constructor
  · intro off
    by_cases heq : off = doff
    · rw [heq, ownsChain, hhidden]
      exact ⟨fun hoff => absurd hoff.2 (by decide), fun hoff => absurd hoff hslot.absent⟩
    · exact newDirent_owns_of_ne h hended hslot hfirst heq
  · exact fun name' => newDirent_find_of_miss h hended hslot hfirst (by rw [hhidden, Bool.false_and])

/-! ### The emptied entry -/

theorem setDirent_self (hfirst : v.disk.load (doff + 26) 2 = 0) (hsize : v.disk.load (doff + 28) 4 = 0) : setDirent v doff 0 0 = v := by
  have hkeepFirst := v.disk.store_load_self (doff + 26) 2
  have hkeepSize := v.disk.store_load_self (doff + 28) 4
  rw [hfirst] at hkeepFirst
  rw [hsize] at hkeepSize
  rw [setDirent, hkeepFirst, hkeepSize]

/-- The clusters of the file of this name: the chain in its entry, none before it is created. -/
def NamedChain (v : Fat12) (name : List UInt8) (cs : List Nat) : Prop :=
  if findDirent v name = 0 then cs = [] else ChainOf v (v.disk.load (findDirent v name + 26) 2) cs

theorem Fat12WellFormed.namedChain (h : Fat12WellFormed v others) (name : List UInt8) : ∃ cs, NamedChain v name cs := by
  by_cases hfound : findDirent v name = 0
  · exact ⟨[], by rw [NamedChain, if_pos hfound]⟩
  · obtain ⟨chain, htable⟩ := h.table
    refine ⟨chain (.inl (findDirent v name)), ?_⟩
    rw [NamedChain, if_neg hfound]
    exact htable.chains _ _ (if_pos (findDirent_owns hfound).1)

theorem NamedChain.unique {cs' : List Nat} (h : NamedChain v name cs) (h' : NamedChain v name cs') : cs = cs' := by
  by_cases hfound : findDirent v name = 0
  · rw [NamedChain, if_pos hfound] at h h'
    rw [h, h']
  · rw [NamedChain, if_neg hfound] at h h'
    exact h.links.unique h'.links

/-- The volume `t` once the entry at `doff`, found or created in `u`, has been emptied. -/
structure EntryEmptied (v u t : Fat12) (others : List Nat) (doff : Nat) (cs : List Nat) : Prop where
  slot : doff ∈ rootSlots v
  image : ∃ d, t = { v with disk := d }
  names : SameNames u t
  copies : FatCopies v.geometry t.disk
  table : ∃ chain, TableSound t (firstOf t others) chain
  room : clusterBytes v.geometry * (freeClusters t).card = fat12Room v cs
  first : t.disk.load (doff + 26) 2 = 0
  size : t.disk.load (doff + 28) 4 = 0
  same : u.disk.load (doff + 26) 2 = 0 → u.disk.load (doff + 28) 4 = 0 → t = u

theorem EntryEmptied.layout (h : EntryEmptied v u t others doff cs) (hlayout : Fat12Layout v) : Fat12Layout t := by
  obtain ⟨d, rfl⟩ := h.image
  exact hlayout.disk d

theorem EntryEmptied.geometry (h : EntryEmptied v u t others doff cs) : t.geometry = v.geometry := by
  obtain ⟨d, rfl⟩ := h.image
  rfl

/-- The table with the new entry. -/
theorem newDirent_table (hlayout : Fat12Layout v) (h : Fat12WellFormed v others) (hslot : FreeSlot v doff before behind) (hzero : name.head? ≠ some 0) :
    ∃ chain, TableSound (newDirent v doff name) (firstOf (newDirent v doff name) others) chain := by
  have hplace := rootSlot_place hlayout hslot.mem
  have hfat : fatOf (newDirent v doff name) = fatOf v :=
    fatOf_congr hlayout ⟨_, rfl⟩ fun x hx => newDirent_apply_of_outside (by omega)
  obtain ⟨chain, htable⟩ := h.table
  refine ⟨chain, ?_⟩
  rw [TableSound, hfat]
  by_cases hmark : name.head? = some 0xE5
  · obtain ⟨howns, -⟩ := newDirent_marked hlayout h.ended hslot hmark
    have hfirsts : firstOf (newDirent v doff name) others = firstOf v others := by
      funext o
      cases o with
      | inl off =>
          by_cases hoff : ownsChain v off
          · have hne : off ≠ doff := fun heq => hslot.absent (heq ▸ hoff)
            have := rootSlots_apart hlayout (liveDirents_subset v hoff.1) hslot.mem hne
            rw [firstOf, firstOf, if_pos hoff, if_pos ((howns off).mpr hoff)]
            rw [Memory.load_congr fun x hlo hhi => newDirent_apply_of_outside (by omega)]
          · rw [firstOf, firstOf, if_neg hoff, if_neg fun hnew => hoff ((howns off).mp hnew)]
      | inr i => rfl
    rw [hfirsts]
    exact htable
  · have hnew := @newDirent_entry v doff name hlayout h.ended before behind hslot ⟨strToFat83_head (by decide) hzero, strToFat83_head (by decide) hmark⟩
    have habsent : firstOf v others (.inl doff) = none := if_neg hslot.absent
    rw [hnew.firstOf hlayout]
    exact htable.add habsent (show Lib.AllocTable.link fat12Eoc 0 = none by decide)

/-- The second step of a write. -/
theorem Fat12WellFormed.emptied (hlayout : Fat12Layout v) (h : Fat12WellFormed v others) (hzero : name.head? ≠ some 0)
    (hopen : findOrCreate v name = some (doff, u)) (hcs : NamedChain v name cs) : ∃ t, freeChain (fat12Eoc + 1) (u.disk.load (doff + 26) 2) u = some t ∧
      EntryEmptied v u (setDirent t doff 0 0) others doff cs := by
  rcases findOrCreate_cases hopen with ⟨hfound, rfl, rfl⟩ | ⟨hnone, ⟨before, behind, hslot⟩, rfl⟩
  · rw [NamedChain, if_neg hfound] at hcs
    obtain ⟨howns, -⟩ := findDirent_owns hfound
    obtain ⟨chain, htable⟩ := h.table
    obtain ⟨t, hfree, hroom⟩ := truncate_room hlayout (liveDirents_subset u howns.1) hcs
    obtain ⟨t', hfree', hempty⟩ := truncate_entry hlayout h.copies howns htable
    obtain rfl : t = t' := Option.some.inj (hfree.symm.trans hfree')
    refine ⟨t, hfree, liveDirents_subset u howns.1, hempty.image, hempty.names, hempty.copies, ⟨_, hempty.table⟩, hroom, hempty.first, hempty.size, ?_⟩
    intro hfirst hsize
    rw [hfirst] at hfree
    obtain rfl : u = t := Option.some.inj hfree
    exact setDirent_self hfirst hsize
  · rw [NamedChain, if_pos hnone] at hcs
    have hplace := rootSlot_place hlayout hslot.mem
    have houtside : ∀ x < v.geometry.rootDirOffset, (newDirent v doff name).disk x = v.disk x :=
      fun x hx => newDirent_apply_of_outside (by omega)
    obtain ⟨hfirst, hsize⟩ := @newDirent_fields v doff name
    refine ⟨newDirent v doff name, ?_, ?_⟩
    · rw [hfirst]
      rfl
    · rw [setDirent_self hfirst hsize]
      refine ⟨hslot.mem, ⟨_, rfl⟩, ⟨⟨_, rfl⟩, fun _ _ _ _ => rfl⟩, fatCopies_congr hlayout houtside h.copies, newDirent_table hlayout h hslot hzero,
        ?_, hfirst, hsize, fun _ _ => rfl⟩
      have hfat : fatOf (newDirent v doff name) = fatOf v := fatOf_congr hlayout ⟨_, rfl⟩ houtside
      rw [hcs, fat12Room, freeClusters, freeClusters, hfat]
      rfl

/-! ### The loop -/

theorem writeLoop_full (hlayout : Fat12Layout v) (hfull : freeClusters v = ∅) (hdata : data ≠ []) :
    writeLoop data.length v 0 0 data = some (v, none) := by
  obtain ⟨n, hn⟩ := Nat.exists_eq_add_one_of_ne_zero fun hzero => hdata (List.eq_nil_of_length_eq_zero hzero)
  rcases allocCluster_cases hlayout with hnone | ⟨c, v', -, hlo, hhi, hfree, -⟩
  · rw [hn, writeLoop, if_neg hdata, hnone]
    rfl
  · have hc : c ∈ freeClusters v := Lib.AllocTable.mem_freeUnits.mpr ⟨hhi, hlo, hfree⟩
    rw [hfull] at hc
    exact absurd hc (Finset.notMem_empty c)

/-- The loop has given up on a full disk. -/
structure DiskFull (v t w : Fat12) : Prop where
  free : freeClusters w = ∅
  root : ∀ x, v.geometry.rootDirOffset ≤ x → x < v.geometry.dataOffset → w.disk x = t.disk x
  same : freeClusters t = ∅ → w = t

/-- How a write goes on from the emptied entry. -/
structure WriteEnded (v t w : Fat12) (cs : List Nat) (data : List UInt8) (ret : Int) : Prop where
  names : SameNames t w
  fits : data.length ≤ fat12Room v cs → ret = 0
  short : fat12Room v cs < data.length → ret = -1 ∧ DiskFull v t w

theorem EntryEmptied.write (hlayout : Fat12Layout v) (h : EntryEmptied v u t others doff cs) (data : List UInt8) : ∃ ret w,
    (if data = [] then some (0, t) else
      match writeLoop data.length t 0 0 data with
      | none => none
      | some (w, none) => some (-1, w)
      | some (w, some first) => some ((0 : Int), setDirent w doff first data.length)) = some (ret, w) ∧ WriteEnded v t w cs data ret := by
  have ht := h.layout hlayout
  by_cases hnil : data = []
  · have hnot : ¬ fat12Room v cs < data.length := by
      rw [hnil]
      exact Nat.not_lt_zero _
    exact ⟨0, t, if_pos hnil, ⟨⟨t.disk, rfl⟩, fun _ _ _ _ => rfl⟩, fun _ => rfl, fun hlt => absurd hlt hnot⟩
  obtain ⟨chain, htable⟩ := h.table
  obtain ⟨w, r, hloop, hdone, hfull⟩ := writeLoop_fits ht (h.geometry ▸ h.copies) htable data
  rw [h.geometry, h.room] at hdone hfull
  rw [if_neg hnil]
  cases r with
  | some first =>
      obtain ⟨hfits, cs', -, hwriting⟩ := hdone first rfl
      have hnot : ¬ fat12Room v cs < data.length := Nat.not_lt.mpr hfits
      have hnames := hwriting.names ht
      have hw : Fat12Layout w := by
        obtain ⟨d, rfl⟩ := hnames.image
        exact ht.disk d
      have hslot : doff ∈ rootSlots w := by
        rw [hnames.slots]
        obtain ⟨d, rfl⟩ := h.image
        exact h.slot
      exact ⟨0, setDirent w doff first data.length, by rw [hloop], hnames.trans (setDirent_names hw hslot first _), fun _ => rfl,
        fun hlt => absurd hlt hnot⟩
  | none =>
      obtain ⟨hlong, hfree, hnames, hroot⟩ := hfull rfl
      refine ⟨-1, w, by rw [hloop], hnames, fun hle => absurd hle (Nat.not_le.mpr hlong), fun _ => ⟨rfl, hfree, hroot, fun hempty => ?_⟩⟩
      have hsame := writeLoop_full ht hempty hnil
      rw [hloop] at hsame
      exact (Prod.mk.inj (Option.some.inj hsame)).1

/-- A write to a name that has an entry, or gets one, in three steps. -/
theorem fat12WriteFile_steps (hlayout : Fat12Layout v) (h : Fat12WellFormed v others) (hname : pathToName path ≠ []) (hstring : (0 : UInt8) ∉ path)
    (hopen : findOrCreate v (pathToName path) = some (doff, u)) (hcs : NamedChain v (pathToName path) cs) (data : List UInt8) :
    ∃ t ret w, fat12WriteFile v path data = some (ret, w) ∧ EntryEmptied v u t others doff cs ∧ WriteEnded v t w cs data ret := by
  have hzero : (pathToName path).head? ≠ some 0 := fun hhead => hstring ((List.dropWhile_suffix _).subset (List.mem_of_head? hhead))
  obtain ⟨t, hfree, hempty⟩ := h.emptied hlayout hzero hopen hcs
  obtain ⟨ret, w, hwrite, hended⟩ := hempty.write hlayout data
  refine ⟨_, ret, w, ?_, hempty, hended⟩
  simp only [fat12WriteFile, hlayout.mounted, Bool.not_true, Bool.false_eq_true, if_false, hname, hopen, hfree]
  exact hwrite

/-! ### A failed write -/

/-- The data goes into the clusters of the file and the free ones. -/
def DataFits (v : Fat12) (name data : List UInt8) : Prop := ∃ cs, NamedChain v name cs ∧ data.length ≤ fat12Room v cs

/-- No cluster is free, and the entry of the name is empty already, or would be marked as deleted. -/
def NothingToLose (v : Fat12) (name : List UInt8) : Prop :=
  freeClusters v = ∅ ∧
    if findDirent v name = 0 then name.head? = some 0xE5
    else v.disk.load (findDirent v name + 26) 2 = 0 ∧ v.disk.load (findDirent v name + 28) 4 = 0

/-- A volume on which a write can fail without a trace, or does not fail. -/
def WriteSpares (v : Fat12) (name data : List UInt8) : Prop :=
  name = [] ∨ RootFull v name ∨ DataFits v name data ∨ NothingToLose v name

/-- On a full disk with nothing to lose a failed write is not seen. -/
theorem NothingToLose.unchanged (hlayout : Fat12Layout v) (h : Fat12WellFormed v others) (hlose : NothingToLose v name)
    (hopen : findOrCreate v name = some (doff, u)) (hempty : EntryEmptied v u t others doff cs) (hfull : DiskFull v t w) :
    VolumeUnchanged v w others := by
  obtain ⟨hfree, hentry⟩ := hlose
  rcases findOrCreate_cases hopen with ⟨hfound, rfl, rfl⟩ | ⟨hnone, ⟨before, behind, hslot⟩, rfl⟩
  · rw [if_neg hfound] at hentry
    obtain rfl := hempty.same hentry.1 hentry.2
    obtain rfl := hfull.same hfree
    exact VolumeUnchanged.refl _ others
  · rw [if_pos hnone] at hentry
    obtain rfl := hempty.same newDirent_fields.1 newDirent_fields.2
    obtain ⟨howns, hfind⟩ := newDirent_marked hlayout h.ended hslot hentry
    have hunchanged := VolumeUnchanged.of_slot hlayout h ⟨_, rfl⟩ hslot.mem (fun x => newDirent_apply_of_outside) hslot.absent howns hfind
    obtain rfl := hfull.same (hunchanged.free.trans hfree)
    exact hunchanged

/-- Otherwise it has taken free clusters, emptied an entry or left a new one. -/
theorem VolumeUnchanged.nothingToLose (hlayout : Fat12Layout v) (h : Fat12WellFormed v others) (hzero : name.head? ≠ some 0)
    (hopen : findOrCreate v name = some (doff, u)) (hempty : EntryEmptied v u t others doff cs) (hnames : SameNames t w) (hfull : DiskFull v t w)
    (hunchanged : VolumeUnchanged v w others) : NothingToLose v name := by
  refine ⟨hunchanged.free.symm.trans hfull.free, ?_⟩
  rcases findOrCreate_cases hopen with ⟨hfound, rfl, rfl⟩ | ⟨hnone, ⟨before, behind, hslot⟩, rfl⟩
  · rw [if_neg hfound]
    obtain ⟨howns, -⟩ := findDirent_owns hfound
    have hplace := rootSlot_place hlayout hempty.slot
    have hbytes := hunchanged.entries _ howns
    have hsame : ∀ i < 32, t.disk (findDirent u name + i) = u.disk (findDirent u name + i) := by
      intro i hi
      rw [← hfull.root _ (by omega) (by omega)]
      exact List.map_inj_left.mp hbytes i (List.mem_range.mpr hi)
    have hfirst := Memory.load_of_agree hsame (by decide : 26 + 2 ≤ 32)
    have hsize := Memory.load_of_agree hsame (by decide : 28 + 4 ≤ 32)
    exact ⟨hfirst.symm.trans hempty.first, hsize.symm.trans hempty.size⟩
  · rw [if_pos hnone]
    by_contra hmark
    have hnew := @newDirent_entry v doff name hlayout h.ended before behind hslot ⟨strToFat83_head (by decide) hzero, strToFat83_head (by decide) hmark⟩
    have howns : ownsChain w doff := (hempty.names.trans hnames).owns.mpr ((hnew.owns doff).mpr (Or.inl rfl))
    exact hslot.absent ((hunchanged.owners doff).mp howns)

/-- A write that fails leaves the volume as it was exactly when the root directory was full, the name was empty, or there was nothing to lose; a write whose data fits does not fail. -/
theorem fat12_failed_write_iff {v₀ : Fat12} {disk : Memory} {size : Nat} (hinit : fat12Init v₀ disk size = (0, v)) (h : Fat12WellFormed v others)
    (hstring : (0 : UInt8) ∉ path) (data : List UInt8) :
    (∃ ret w, fat12WriteFile v path data = some (ret, w) ∧ (ret = -1 → VolumeUnchanged v w others)) ↔ WriteSpares v (pathToName path) data := by
  have hlayout := fat12Init_layout hinit h.areas
  by_cases hname : pathToName path = []
  · refine ⟨fun _ => Or.inl hname, fun _ => ⟨-1, v, ?_, fun _ => VolumeUnchanged.refl v others⟩⟩
    simp [fat12WriteFile, hlayout.mounted, hname]
  cases hopen : findOrCreate v (pathToName path) with
  | none =>
      refine ⟨fun _ => Or.inr (Or.inl ((findOrCreate_eq_none hlayout).mp hopen)), fun _ => ⟨-1, v, ?_, fun _ => VolumeUnchanged.refl v others⟩⟩
      simp [fat12WriteFile, hlayout.mounted, hname, hopen]
  | some opened =>
      obtain ⟨doff, u⟩ := opened
      obtain ⟨cs, hcs⟩ := h.namedChain (pathToName path)
      obtain ⟨t, ret, w, hwrite, hempty, hended⟩ := fat12WriteFile_steps hlayout h hname hstring hopen hcs data
      have hzero : (pathToName path).head? ≠ some 0 := fun hhead => hstring ((List.dropWhile_suffix _).subset (List.mem_of_head? hhead))
      rw [hwrite]
      constructor
      · rintro ⟨ret', w', hsame, hunchanged⟩
        obtain ⟨rfl, rfl⟩ := Prod.mk.inj (Option.some.inj hsame)
        by_cases hfits : data.length ≤ fat12Room v cs
        · exact Or.inr (Or.inr (Or.inl ⟨cs, hcs, hfits⟩))
        · obtain ⟨hret, hfull⟩ := hended.short (Nat.not_le.mp hfits)
          exact Or.inr (Or.inr (Or.inr ((hunchanged hret).nothingToLose hlayout h hzero hopen hempty hended.names hfull)))
      · intro hspares
        refine ⟨ret, w, rfl, fun hret => ?_⟩
        have hlong : fat12Room v cs < data.length := by
          by_contra hfits
          rw [hended.fits (Nat.not_lt.mp hfits)] at hret
          exact absurd hret (by decide)
        rcases hspares with hnil | hroot | ⟨cs', hcs', hfits⟩ | hlose
        · exact absurd hnil hname
        · rw [(findOrCreate_eq_none hlayout).mpr hroot] at hopen
          cases hopen
        · rw [hcs.unique hcs'] at hlong
          exact absurd hfits (Nat.not_le.mpr hlong)
        · exact hlose.unchanged hlayout h hopen hempty (hended.short hlong).2

theorem fat12_failed_write_small : ∃ ret w, fat12WriteFile smallVolume [66] [1, 2, 3] = some (ret, w) ∧ (ret = -1 → VolumeUnchanged smallVolume w []) := by
  have hinit : fat12Init ⟨false, 0, ⟨0, 0, 0, 0, 0, 0, 0, 0, 0, 0⟩, fun _ => 0⟩ smallImage 768 = (0, smallVolume) := rfl
  apply (fat12_failed_write_iff hinit smallVolume_wellFormed (by decide) [1, 2, 3]).mpr
  obtain ⟨cs, hcs⟩ := smallVolume_wellFormed.namedChain (pathToName [66])
  have hfree : 3 ≤ clusterBytes smallVolume.geometry * (freeClusters smallVolume).card := by decide +kernel
  refine Or.inr (Or.inr (Or.inl ⟨cs, hcs, hfree.trans ?_⟩))
  exact Nat.mul_le_mul_left _ (Nat.le_add_right _ _)

/-- The four clusters hold 128 bytes. A write of 129 bytes to `B` fails, and the byte that `B` had is gone. -/
theorem fat12_failed_write_loses :
    Fat12WellFormed smallVolume [] ∧ fat12ReadFile smallVolume [66] 8 = some (1, [7]) ∧
      ∃ w, fat12WriteFile smallVolume [66] (List.replicate 129 1) = some (-1, w) ∧ fat12ReadFile w [66] 8 = some (0, []) ∧
        ¬ VolumeUnchanged smallVolume w [] := by
  have hbefore : fat12ReadFile smallVolume [66] 8 = some (1, [7]) := by decide +kernel
  refine ⟨smallVolume_wellFormed, hbefore, ?_⟩
  have hwrite : (fat12WriteFile smallVolume [66] (List.replicate 129 1)).map (fun r => (r.1, fat12ReadFile r.2 [66] 8)) = some (-1, some (0, [])) := by
    decide +kernel
  cases hresult : fat12WriteFile smallVolume [66] (List.replicate 129 1) with
  | none =>
      rw [hresult] at hwrite
      cases hwrite
  | some r =>
      rw [hresult] at hwrite
      obtain ⟨hret, hread⟩ := Prod.mk.inj (Option.some.inj hwrite)
      refine ⟨r.2, by rw [← hret], hread, fun hunchanged => ?_⟩
      rw [hunchanged.contents, hbefore] at hread
      cases hread

end Tsukasa
