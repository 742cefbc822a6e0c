import Tsukasa.Fs.Fat32Overwrite

/-!
# Files of a FAT32 volume over many writes

A write takes any data that fits into the chain of the file, and the volume stays well-formed, so that the next write can be like the first. Longer data is refused, and nothing is written.
-/

namespace Tsukasa

open Lib (Memory)

variable {g : Fat32Geometry} {sectors c : Nat} {cs : List Nat} {v w : Fat32} {d d' : Memory} {slot : Nat × Nat} {path data content : List UInt8}

/-! ### The volume behind a write -/

theorem SlotAgree.shown (h : SlotAgree d d' slot) : Shown d' slot ↔ Shown d slot := by
  constructor
  · rintro ⟨hdeleted, hlfn, hlabel, hdots⟩
    exact ⟨h.first ▸ hdeleted, h.attr ▸ hlfn, h.attr ▸ hlabel, h.first ▸ hdots⟩
  · rintro ⟨hdeleted, hlfn, hlabel, hdots⟩
    exact ⟨h.first.symm ▸ hdeleted, h.attr.symm ▸ hlfn, h.attr.symm ▸ hlabel, h.first.symm ▸ hdots⟩

theorem liveSlots_congr {slots : List (Nat × Nat)} (h : ∀ slot ∈ slots, slotFirst d' slot = slotFirst d slot) : liveSlots d' slots = liveSlots d slots := by
  induction slots with
  | nil => rfl
  | cons slot slots ih =>
      rw [List.forall_mem_cons] at h
      simp only [liveSlots, List.takeWhile_cons, h.1]
      split
      · exact congrArg (slot :: ·) (ih h.2)
      · rfl

/-- The two volumes have the same FAT entries for the clusters of the volume. -/
def SameFat (sectors : Nat) (v w : Fat32) : Prop := ∀ c, ClusterOk v.geometry sectors c → fatEntry v.geometry w.disk c = fatEntry v.geometry v.disk c

theorem SameFat.chain (h : SameFat sectors v w) (hchain : FatChain v.geometry w.disk sectors c cs) : FatChain v.geometry v.disk sectors c cs :=
  hchain.congr fun x hx => (h x (hchain.ok x hx)).symm

theorem SameFat.fileChain (h : SameFat sectors v w) (hchain : FileChain v.geometry w.disk sectors c cs) : FileChain v.geometry v.disk sectors c cs :=
  hchain.imp id h.chain

/-- The directories of the volume behind the write are those of the volume in front of it. -/
theorem SameDirs.reach (h : SameDirs sectors v w) (hfat : SameFat sectors v w) (hreach : DirReach v.geometry w.disk sectors c) :
    DirReach v.geometry v.disk sectors c := by
  induction hreach with
  | root => exact .root
  | child _ hchain hlive hshown hattr ih =>
      have hchain' := hfat.chain hchain
      have hagree := h.slots _ _ ih hchain'
      have hmem := (List.takeWhile_sublist _).subset hlive
      rw [liveSlots_congr fun slot hslot => (hagree slot hslot).first] at hlive
      have hentry := hagree _ hmem
      rw [hentry.firstCluster]
      exact .child ih hchain' hlive (hentry.shown.mp hshown) (hentry.attr ▸ hattr)

theorem SameDirs.volumeSlot (h : SameDirs sectors v w) (hfat : SameFat sectors v w) (hslot : VolumeSlot v.geometry w.disk sectors slot) :
    VolumeSlot v.geometry v.disk sectors slot ∧ SlotAgree v.disk w.disk slot := by
  obtain ⟨c, cs, hreach, hchain, hlive⟩ := hslot
  have hreach' := h.reach hfat hreach
  have hchain' := hfat.chain hchain
  have hagree := h.slots _ _ hreach' hchain'
  have hmem := (List.takeWhile_sublist _).subset hlive
  rw [liveSlots_congr fun slot hslot => (hagree slot hslot).first] at hlive
  exact ⟨⟨c, cs, hreach', hchain', hlive⟩, hagree slot hmem⟩

theorem SameDirs.fileSlot (h : SameDirs sectors v w) (hfat : SameFat sectors v w) (hslot : FileSlot v.geometry w.disk sectors slot) :
    FileSlot v.geometry v.disk sectors slot ∧ SlotAgree v.disk w.disk slot := by
  obtain ⟨hvolume, hagree⟩ := h.volumeSlot hfat hslot.volume
  exact ⟨⟨hvolume, hagree.shown.mp hslot.shown, hagree.attr ▸ hslot.file⟩, hagree⟩

/-- A volume with the same directories and FAT is well-formed when the sizes of its files are those of their chains at most. -/
theorem SameDirs.wellFormed_after (h : SameDirs sectors v w) (hfat : SameFat sectors v w)
    (hsizes : ∀ slot cs, FileSlot v.geometry v.disk sectors slot → FileChain v.geometry v.disk sectors (slotEntry v.disk slot).firstCluster cs →
      (slotEntry v.disk slot).fileSize ≤ chainBytes v.geometry cs → (slotEntry w.disk slot).fileSize ≤ chainBytes v.geometry cs) :
    Fat32WellFormed w.geometry w.disk sectors := by
  have hwf := h.wellFormed
  have hforth : ∀ {c cs}, FatChain v.geometry v.disk sectors c cs → FatChain v.geometry w.disk sectors c cs := fun hchain =>
    hchain.congr fun x hx => hfat x (hchain.ok x hx)
  rw [h.geometry]
  refine ⟨hwf.geometry, hwf.cluster, ?_, ?_, ?_, ?_⟩
  · intro c hreach
    obtain ⟨cs, hchain⟩ := hwf.dirs c (h.reach hfat hreach)
    exact ⟨cs, hforth hchain⟩
  · intro slot hslot hdeleted hattr
    obtain ⟨hslot', hagree⟩ := h.volumeSlot hfat hslot
    have hattr' := hagree.attr ▸ hattr
    have hstandard := hwf.lfn slot hslot' (hagree.first ▸ hdeleted) hattr'
    have hbytes := hagree.lfn hattr'
    rw [LfnStandard, lfnName1, lfnName2, lfnName3] at hstandard ⊢
    rwa [wideChars_congr hbytes (by decide), wideChars_congr hbytes (by decide), wideChars_congr hbytes (by decide)]
  · intro slot hslot
    obtain ⟨hslot', hagree⟩ := h.fileSlot hfat hslot
    obtain ⟨cs, hchain, hsize⟩ := hwf.files slot hslot'
    refine ⟨cs, ?_, hsizes slot cs hslot' hchain hsize⟩
    rw [hagree.firstCluster]
    exact hchain.imp id hforth
  · intro slot cs c dir hslot hchain hreach hdir
    obtain ⟨hslot', hagree⟩ := h.fileSlot hfat hslot
    rw [hagree.firstCluster] at hchain
    exact hwf.apart slot cs c dir hslot' (hfat.fileChain hchain) (h.reach hfat hreach) (hfat.chain hdir)

/-- A write to a file leaves the sizes in all other entries. -/
theorem fileSize_overwritten_of_ne (hwf : Fat32WellFormed g d sectors) (hslot : FileSlot g d sectors slot)
    (hchain : FileChain g d sectors (slotEntry d slot).firstCluster cs) {slot' : Nat × Nat} (hslot' : VolumeSlot g d sectors slot') (hne : slot' ≠ slot) :
    (slotEntry (overwritten g d cs slot data) slot').fileSize = (slotEntry d slot').fileSize := by
  obtain ⟨dirFirst, dir, -, -, hlive⟩ := hslot.volume
  obtain ⟨dirFirst', dir', hreach', hdir', hlive'⟩ := hslot'
  have hmem' := (List.takeWhile_sublist _).subset hlive'
  have hapart := slots_apart ((List.takeWhile_sublist _).subset hlive) hmem' hne
  simp only [slotEntry, dirEntryAt]
  apply Memory.load_congr
  intro x hlo hhi
  have hbyte : ataReadSector (overwritten g d cs slot data) slot'.1 (slot'.2 + (x - slot'.2)) = ataReadSector d slot'.1 (slot'.2 + (x - slot'.2)) :=
    overwritten_slotByte hwf hslot hchain hreach' hdir' hmem' (by omega) (by omega)
  rwa [Nat.add_sub_cancel' (by omega)] at hbyte

/-- It leaves the FAT. -/
theorem sameFat_overwritten (hwf : Fat32WellFormed v.geometry v.disk sectors) (hslot : FileSlot v.geometry v.disk sectors slot)
    (hdisk : w.disk = overwritten v.geometry v.disk cs slot data) : SameFat sectors v w := by
  obtain ⟨dirFirst, dir, -, -, hlive⟩ := hslot.volume
  intro c hok
  apply fatEntry_congr hwf.geometry hok
  intro x hx
  rw [hdisk, overwritten_below ((List.takeWhile_sublist _).subset hlive) hx]

theorem FileOf.wellFormed_after (h : FileOf sectors v path slot) (hwf : Fat32WellFormed v.geometry v.disk sectors)
    (hchain : FileChain v.geometry v.disk sectors (slotEntry v.disk slot).firstCluster cs) (hfits : data.length ≤ chainBytes v.geometry cs)
    (hready : w.ready = v.ready) (hgeometry : w.geometry = v.geometry) (hdisk : w.disk = overwritten v.geometry v.disk cs slot data) :
    Fat32WellFormed w.geometry w.disk sectors := by
  have hfat := sameFat_overwritten hwf h.slot hdisk
  refine (sameDirs_overwritten hwf h.slot hchain hready hgeometry hdisk).wellFormed_after hfat fun slot' cs' hslot' hchain' hsize => ?_
  by_cases hsame : slot' = slot
  · obtain ⟨dirFirst, dir, -, -, hlive⟩ := h.slot.volume
    obtain ⟨-, j, hj, hoff⟩ := dirSlot_place ((List.takeWhile_sublist _).subset hlive)
    rw [hsame] at hchain' ⊢
    rw [hchain'.unique hchain, hdisk, fileSize_overwritten (by omega)]
    exact (Nat.mod_le _ _).trans hfits
  · rwa [hdisk, fileSize_overwritten_of_ne hwf h.slot hchain hslot'.volume hsame]

/-! ### A file and its writes -/

/-- A file of a well-formed FAT32 volume, its clusters and what is in it. -/
structure Fat32FileAt (v : Fat32) (sectors : Nat) (path : List UInt8) (cs : List Nat) (content : List UInt8) : Prop where
  wellFormed : Fat32WellFormed v.geometry v.disk sectors
  cluster : v.geometry.sectorsPerCluster < 256
  file : ∃ v' de, fat32Stat v path = some (v', some de) ∧ de.isDir = false ∧ FileChain v.geometry v.disk sectors de.firstCluster cs ∧
    content = (Lib.readBlocks 512 v.disk (chainBlocks v.geometry cs)).take de.size

namespace Fat32FileAt

/-- The scratch sector has no part in it. -/
theorem same (h : Fat32FileAt v sectors path cs content) (hbuf : v.Buffered w) : Fat32FileAt w sectors path cs content := by
  obtain ⟨v', de, hstat, hisDir, hchain, hcontent⟩ := h.file
  obtain ⟨slot, name, hfile, -, rfl⟩ := fileOf_of_stat h.wellFormed hstat hisDir
  obtain ⟨norm, u, parent, leaf, hnorm, hroot, hresolve, -, hparent, hlocated⟩ := hfile.way
  have hsame := (SameDirs.refl h.wellFormed).buffered (Fat32.Buffered.refl v) hbuf
  obtain ⟨sec, rfl⟩ := hbuf
  obtain ⟨w', name', -, -, hstat'⟩ := fat32Stat_located hsame hfile.ready hnorm hroot hresolve hparent hlocated
  exact ⟨h.wellFormed, h.cluster, w', _, hstat', hisDir, hchain, hcontent⟩

theorem length_le (h : Fat32FileAt v sectors path cs content) : content.length ≤ chainBytes v.geometry cs := by
  obtain ⟨-, de, -, -, -, rfl⟩ := h.file
  rw [List.length_take, Lib.length_readBlocks, length_chainBlocks]
  exact Nat.min_le_right _ _

/-- A write succeeds when the data fits into the chain, and the file is then what the size field leaves of it. -/
theorem write (h : Fat32FileAt v sectors path cs content) (hfits : data.length ≤ chainBytes v.geometry cs) :
    ∃ w, fat32WriteFile v path data = some (w, 0) ∧ w.geometry = v.geometry ∧ Fat32FileAt w sectors path cs (data.take (data.length % 2 ^ 32)) := by
  obtain ⟨v', de, hstat, hisDir, hchain, -⟩ := h.file
  obtain ⟨slot, name, hfile, -, rfl⟩ := fileOf_of_stat h.wellFormed hstat hisDir
  obtain ⟨norm, u, parent, leaf, hnorm, hroot, hresolve, hbuf, hparent, hlocated⟩ := hfile.way
  obtain ⟨w, hwrite, hready, hgeometry, hdisk⟩ :=
    fat32WriteFile_located h.wellFormed h.cluster hfile.ready hnorm hresolve hbuf hparent hlocated hfile.slot.file hchain hfits
  obtain ⟨hsame, hchain', hsize⟩ := hfile.written h.wellFormed hchain hready hgeometry hdisk
  obtain ⟨w', name', -, hagree, hstat'⟩ := fat32Stat_located hsame (hready.trans hfile.ready) hnorm hroot hresolve hparent hlocated
  refine ⟨w, hwrite, hgeometry, hfile.wellFormed_after h.wellFormed hchain hfits hready hgeometry hdisk, hgeometry ▸ h.cluster, w', _, hstat', ?_, ?_, ?_⟩
  · simp [direntOf, hagree.attr, hfile.slot.file]
  · simp only [direntOf]
    rw [hagree.firstCluster]
    exact hchain'
  · obtain ⟨rest, hrest⟩ := readBlocks_overwritten h.wellFormed hfile.slot hchain hfits
    simp only [direntOf]
    rw [hsize, hgeometry, hdisk, ← hrest, List.take_append_of_le_length (Nat.mod_le _ _)]

theorem write_long (h : Fat32FileAt v sectors path cs content) (hlong : chainBytes v.geometry cs < data.length) :
    ∃ w, fat32WriteFile v path data = some (w, -1) ∧ v.Buffered w := by
  obtain ⟨v', de, hstat, hisDir, hchain, -⟩ := h.file
  obtain ⟨slot, name, hfile, -, rfl⟩ := fileOf_of_stat h.wellFormed hstat hisDir
  exact hfile.write_long h.wellFormed h.cluster hchain hlong

end Fat32FileAt

end Tsukasa
