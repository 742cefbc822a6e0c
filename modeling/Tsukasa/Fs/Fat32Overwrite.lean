import Tsukasa.Fs.Fat32File

/-!
# What an overwrite changes and what is read back

The data written to a file is read back through its directory entry, and the entry keeps the size in 32 bits while `fat32_read_file` returns it as an `int`. The write succeeds and stays inside the file's own sectors and the four bytes of its size for every amount of data that fits the chain. What comes back is the data exactly when its length is an `int`.
-/

namespace Tsukasa

open Lib (Memory)

variable {g : Fat32Geometry} {sectors c first : Nat} {cs dir : List Nat} {v v' w w' : Fat32} {d d' : Memory} {slot slot' : Nat × Nat}
  {path data : List UInt8}

/-! ### The volume behind a write -/

theorem mem_dirSlots : slot ∈ dirSlots g cs ↔ ∃ c ∈ cs, ∃ s < g.sectorsPerCluster, ∃ i < 16, slot = (clusterLba g c + s, i * 32) := by
  simp only [dirSlots, List.mem_flatMap, List.mem_map, List.mem_range]
  constructor
  · rintro ⟨c, hc, s, hs, i, hi, rfl⟩
    exact ⟨c, hc, s, hs, i, hi, rfl⟩
  · rintro ⟨c, hc, s, hs, i, hi, rfl⟩
    exact ⟨c, hc, s, hs, i, hi, rfl⟩

/-- A slot lies in the data area, at a multiple of the entry size. -/
theorem dirSlot_place (h : slot ∈ dirSlots g cs) : g.dataLba ≤ slot.1 ∧ ∃ i < 16, slot.2 = i * 32 := by
  obtain ⟨c, -, s, -, i, hi, rfl⟩ := mem_dirSlots.mp h
  refine ⟨?_, i, hi, rfl⟩
  rw [clusterLba]
  omega

theorem FileChain.ok (h : FileChain g d sectors first cs) : ∀ c ∈ cs, ClusterOk g sectors c := by
  rcases h with ⟨-, rfl⟩ | h
  · exact fun c hc => absurd hc List.not_mem_nil
  · exact h.ok

theorem FileChain.two (h : FileChain g d sectors first cs) : ∀ c ∈ cs, 2 ≤ c := fun c hc => (h.ok c hc).two

theorem FileChain.nodup (h : FileChain g d sectors first cs) : cs.Nodup := by
  rcases h with ⟨-, rfl⟩ | h
  · exact List.nodup_nil
  · exact h.links.nodup

theorem FatChain.two (h : FatChain g d sectors first cs) : ∀ c ∈ cs, 2 ≤ c := fun c hc => (h.ok c hc).two

/-- A sector of a directory is not a sector of a file. -/
theorem block_apart (hcs : ∀ c ∈ cs, 2 ≤ c) (hdir : ∀ c ∈ dir, 2 ≤ c) (hdisjoint : cs.Disjoint dir) (hslot : slot ∈ dirSlots g dir) {a : Nat}
    (ha : a ∈ chainBlocks g cs) : 512 * slot.1 + 512 ≤ a ∨ a + 512 ≤ 512 * slot.1 := by
  obtain ⟨c, hc, s, hs, rfl⟩ := mem_chainBlocks.mp ha
  obtain ⟨c', hc', s', hs', i, hi, rfl⟩ := mem_dirSlots.mp hslot
  have hne : c ≠ c' := fun heq => hdisjoint hc (heq ▸ hc')
  have := clusterLba_apart (hcs c hc) (hdir c' hc') hne hs hs'
  simp only
  omega

/-- The disk after a write of `data` to the chain `cs` of the file at `slot`. -/
def overwritten (g : Fat32Geometry) (d : Memory) (cs : List Nat) (slot : Nat × Nat) (data : List UInt8) : Memory :=
  (Lib.writeBlocks 512 d (chainBlocks g cs) data).store (512 * slot.1 + slot.2 + 28) 4 data.length

theorem overwritten_apply {x : Nat} (hblocks : ∀ a ∈ chainBlocks g cs, x < a ∨ a + 512 ≤ x)
    (hsize : x < 512 * slot.1 + slot.2 + 28 ∨ 512 * slot.1 + slot.2 + 32 ≤ x) : overwritten g d cs slot data x = d x := by
  rw [overwritten, Memory.store_apply_of_outside _ (by omega), Lib.writeBlocks_apply_of_outside hblocks]

theorem overwritten_below (hslot : slot ∈ dirSlots g dir) {x : Nat} (hx : x < 512 * g.dataLba) : overwritten g d cs slot data x = d x := by
  obtain ⟨hdata, -⟩ := dirSlot_place hslot
  rw [overwritten, Memory.store_apply_of_outside _ (by omega), writeBlocks_below hx]

/-- A byte of a directory entry that is not in the size field of the file is as before. -/
theorem overwritten_slotByte (hwf : Fat32WellFormed g d sectors) (hslot : FileSlot g d sectors slot)
    (hchain : FileChain g d sectors (slotEntry d slot).firstCluster cs) (hreach : DirReach g d sectors c) (hdir : FatChain g d sectors c dir)
    (hslot' : slot' ∈ dirSlots g dir) {k : Nat} (hk : k < 32)
    (hsize : 512 * slot'.1 + (slot'.2 + k) < 512 * slot.1 + slot.2 + 28 ∨ 512 * slot.1 + slot.2 + 32 ≤ 512 * slot'.1 + (slot'.2 + k)) :
    ataReadSector (overwritten g d cs slot data) slot'.1 (slot'.2 + k) = ataReadSector d slot'.1 (slot'.2 + k) := by
  obtain ⟨-, i, hi, hoff⟩ := dirSlot_place hslot'
  rw [ataReadSector_apply (by omega), ataReadSector_apply (by omega)]
  apply overwritten_apply _ hsize
  intro a ha
  have := block_apart hchain.two hdir.two (hwf.apart slot cs c dir hslot hchain hreach hdir) hslot' ha
  omega

/-- The entries of two slots have no byte in common. -/
theorem slots_apart {dir' : List Nat} (hslot : slot ∈ dirSlots g dir) (hslot' : slot' ∈ dirSlots g dir') (hne : slot' ≠ slot) :
    512 * slot'.1 + slot'.2 + 32 ≤ 512 * slot.1 + slot.2 ∨ 512 * slot.1 + slot.2 + 32 ≤ 512 * slot'.1 + slot'.2 := by
  obtain ⟨-, j, hj, hoff⟩ := dirSlot_place hslot
  obtain ⟨-, i, hi, hoff'⟩ := dirSlot_place hslot'
  have hapart : ¬ (slot'.1 = slot.1 ∧ i = j) := by
    rintro ⟨hlba, rfl⟩
    exact hne (Prod.ext hlba (hoff'.trans hoff.symm))
  omega

/-- The directories read the same after the write. -/
theorem sameDirs_overwritten (hwf : Fat32WellFormed v.geometry v.disk sectors) (hslot : FileSlot v.geometry v.disk sectors slot)
    (hchain : FileChain v.geometry v.disk sectors (slotEntry v.disk slot).firstCluster cs) (hready : w.ready = v.ready)
    (hgeometry : w.geometry = v.geometry) (hdisk : w.disk = overwritten v.geometry v.disk cs slot data) : SameDirs sectors v w := by
  obtain ⟨dirFirst, dir, hdirReach, hdirChain, hlive⟩ := hslot.volume
  have hmem : slot ∈ dirSlots v.geometry dir := (List.takeWhile_sublist _).subset hlive
  refine ⟨hwf, hready, hgeometry, ?_, ?_⟩
  · intro c cs' hreach hchain' x hx
    apply fatEntry_congr hwf.geometry (hchain'.ok x hx)
    intro y hy
    rw [hdisk, overwritten_below hmem hy]
  · intro c cs' hreach hchain' slot' hslot'
    rw [hdisk]
    have hbyte : slot' ≠ slot → ∀ k < 32, ataReadSector (overwritten v.geometry v.disk cs slot data) slot'.1 (slot'.2 + k) =
        ataReadSector v.disk slot'.1 (slot'.2 + k) := by
      intro hne k hk
      have hapart := slots_apart hmem hslot' hne
      exact overwritten_slotByte hwf hslot hchain hreach hchain' hslot' hk (by omega)
    by_cases hsame : slot' = slot
    · -- the size field is the last of the entry, and the entry of a file is no long-name entry
      refine ⟨fun k hk => overwritten_slotByte hwf hslot hchain hreach hchain' hslot' (by omega) ?_, fun hattr => ?_⟩
      · rw [hsame]
        omega
      · exact absurd (hsame ▸ hattr) hslot.shown.lfn
    · exact ⟨fun k hk => hbyte hsame k (by omega), fun _ => hbyte hsame⟩

theorem readBlocks_overwritten (hwf : Fat32WellFormed g d sectors) (hslot : FileSlot g d sectors slot)
    (hchain : FileChain g d sectors (slotEntry d slot).firstCluster cs) (hfits : data.length ≤ chainBytes g cs) :
    data <+: Lib.readBlocks 512 (overwritten g d cs slot data) (chainBlocks g cs) := by
  obtain ⟨c, dir, hreach, hdir, hlive⟩ := hslot.volume
  have hmem : slot ∈ dirSlots g dir := (List.takeWhile_sublist _).subset hlive
  obtain ⟨-, j, hj, hoff⟩ := dirSlot_place hmem
  have hsame : Lib.readBlocks 512 (overwritten g d cs slot data) (chainBlocks g cs) =
      Lib.readBlocks 512 (Lib.writeBlocks 512 d (chainBlocks g cs) data) (chainBlocks g cs) := by
    apply Lib.readBlocks_congr
    intro a ha x hlo hhi
    have := block_apart hchain.two hdir.two (hwf.apart slot cs c dir hslot hchain hreach hdir) hmem ha
    exact Memory.store_apply_of_outside _ (by omega)
  rw [hsame]
  apply Lib.readBlocks_writeBlocks (chainBlocks_apart hchain.two hchain.nodup)
  rwa [length_chainBlocks]

theorem fileSize_overwritten (hoff : slot.2 + 32 ≤ 512) :
    (slotEntry (overwritten g d cs slot data) slot).fileSize = data.length % 2 ^ 32 := by
  rw [slotEntry, dirEntryAt]
  simp only
  rw [load_ataReadSector (by omega), ← Nat.add_assoc, overwritten, Memory.load_store_self]
  norm_num

/-! ### The calls -/

/-- The slot at which `fat32_stat` finds the entry of a path. -/
def fat32StatSlot (v : Fat32) (path : List UInt8) : Option (Nat × Nat) :=
  match fat32NormalizePath path fat32NameMax with
  | none => none
  | some norm =>
      match resolveParent v norm with
      | some (v, parent, some leaf) =>
          (scanClusters ⟨iterateLfn, lookup (nameIs leaf) fun _ lba off _ => (lba, off)⟩ fat32Fuel parent v .empty none).bind (·.2)
      | _ => none

theorem BothScans.of_left {α β : Type} {R : α → β → Prop} {a : α} {r' : Option (Fat32 × β)} (h : BothScans v w R (some (v', a)) r') :
    ∃ w' b, r' = some (w', b) ∧ v.Buffered v' ∧ w.Buffered w' ∧ R a b := by
  obtain (⟨hv, hw, hR⟩ | -) := h
  exact ⟨_, _, rfl, hv, hw, hR⟩

theorem BothScans.of_right {α β : Type} {R : α → β → Prop} {b : β} {r : Option (Fat32 × α)} (h : BothScans v w R r (some (w', b))) :
    ∃ v' a, r = some (v', a) ∧ v.Buffered v' ∧ w.Buffered w' ∧ R a b := by
  obtain (⟨hv, hw, hR⟩ | -) := h
  exact ⟨_, _, rfl, hv, hw, hR⟩

/-- The way `fat32_stat` takes to a file. -/
theorem fat32Stat_file {path : List UInt8} {de : Fat32Dirent} (h : fat32Stat v path = some (v', some de)) (hfile : de.isDir = false) :
    v.ready = true ∧ ∃ norm w parent leaf, fat32NormalizePath path fat32NameMax = some norm ∧ norm ≠ [slash] ∧
      resolveParent v norm = some (w, parent, some leaf) ∧ parent ≠ 0 ∧ iterateDir w parent (statCb leaf) none = some (v', some de) := by
  rw [fat32Stat] at h
  split at h
  · cases h
  rename_i hready
  split at h
  · cases h
  rename_i norm hnorm
  split at h
  · cases h
    cases hfile
  rename_i hroot
  split at h
  · cases h
  · cases h
  rename_i w parent leaf hresolve
  split at h
  · cases h
  rename_i hparent
  exact ⟨by simpa using hready, norm, w, parent, leaf, hnorm, hroot, hresolve, hparent, h⟩

/-- What a lookup of `leaf` in the directory `parent` comes to, by either scanner. -/
structure Located (sectors : Nat) (v : Fat32) (parent : Nat) (leaf : List UInt8) (slot : Nat × Nat) : Prop where
  volume : VolumeSlot v.geometry v.disk sectors slot
  shown : Shown v.disk slot
  raw : ∃ v', v.Buffered v' ∧ findEntryRaw v parent leaf = some (v', some ⟨slotEntry v.disk slot, slot.1, slot.2⟩)

/-- The entry `fat32_stat` returns is the one `find_entry_raw` finds. -/
theorem SameDirs.located_of_stat (h : SameDirs sectors v v) (hc : DirReach v.geometry v.disk sectors c) {leaf : List UInt8} {de : Fat32Dirent}
    (hstat : iterateDir v c (statCb leaf) none = some (v', some de)) :
    ∃ slot name, Located sectors v c leaf slot ∧ de = direntOf (slotEntry v.disk slot) name := by
  have hscan : BothScans v v (FoundIn sectors v v (nameIs leaf) (fun e lba off _ => RawEntry.mk e lba off) fun e _ _ name => direntOf e name)
      _ _ := h.raw hc
  rw [← findEntryRaw_eq, ← iterateDir_statCb, hstat] at hscan
  obtain ⟨w, a, hraw, hbuf, -, hfound⟩ := hscan.of_right
  obtain ⟨-, hnone⟩ | ⟨slot, hvolume, hshown, -, name, -, rfl, hde⟩ := hfound
  · cases hnone
  · exact ⟨slot, name, ⟨hvolume, hshown, w, hbuf, hraw⟩, Option.some.inj hde⟩

/-- Every lookup with `iterate_dir`, also on the volume behind a write, stops at that slot. -/
theorem SameDirs.iterate_of_located {α : Type} {f : DirEntry → Nat → Nat → List UInt8 → α} (h : SameDirs sectors v w)
    (hc : DirReach v.geometry v.disk sectors c) {leaf : List UInt8} (hlocated : Located sectors v c leaf slot) :
    ∃ w' name', w.Buffered w' ∧ SlotAgree v.disk w.disk slot ∧
      scanClusters ⟨iterateLfn, lookup (nameIs leaf) f⟩ fat32Fuel c w .empty none = some (w', some (f (slotEntry w.disk slot) slot.1 slot.2 name')) := by
  obtain ⟨v', -, hraw⟩ := hlocated.raw
  have hscan : BothScans v w (FoundIn sectors v w (nameIs leaf) (fun e lba off _ => RawEntry.mk e lba off) f) _ _ := h.raw hc
  rw [← findEntryRaw_eq, hraw] at hscan
  obtain ⟨w', b, hscan', -, hbuf, hfound⟩ := hscan.of_left
  obtain ⟨hnone, -⟩ | ⟨slot', -, -, hagree, name', -, hentry, rfl⟩ := hfound
  · cases hnone
  · have hsame : slot' = slot := by
      injection hentry with hentry
      injection hentry with _ hlba hoff
      exact Prod.ext hlba.symm hoff.symm
    subst hsame
    exact ⟨w', name', hbuf, hagree, hscan'⟩

theorem FileChain.length_lt (h : FileChain g d sectors first cs) : cs.length < fat32Fuel := by
  rcases h with ⟨-, rfl⟩ | h
  · decide
  · exact h.length_lt

/-- The size of a chain is no `size_t` overflow. -/
theorem FileChain.bytes_lt (h : FileChain g d sectors first cs) (hspc : g.sectorsPerCluster < 256) : chainBytes g cs < 2 ^ 64 := by
  have hlen : cs.length ≤ fat32Eoc := Nat.le_of_lt_succ h.length_lt
  have hmul := Nat.mul_le_mul (Nat.le_of_lt_succ hspc) hlen
  rw [fat32Eoc] at hmul
  rw [chainBytes]
  omega

theorem FileChain.congr (h : FileChain g d sectors first cs) (hfat : ∀ c ∈ cs, fatEntry g d' c = fatEntry g d c) : FileChain g d' sectors first cs :=
  h.imp id fun hchain => hchain.congr hfat

theorem FatChain.first_ne_zero (h : FatChain g d sectors first cs) : first ≠ 0 := by
  rintro rfl
  cases cs with
  | nil => exact h.nil (by decide)
  | cons x cs =>
      obtain ⟨rfl, -, hok, -⟩ := h.tail
      exact absurd hok.two (by decide)

theorem FileChain.first_ne_zero (h : FileChain g d sectors first cs) (hfits : data.length ≤ chainBytes g cs) : ¬ (first = 0 ∧ 0 < data.length) := by
  rintro ⟨rfl, hpos⟩
  rcases h with ⟨-, rfl⟩ | h
  · rw [chainBytes, List.length_nil] at hfits
    omega
  · exact h.first_ne_zero rfl

theorem FileChain.unique {cs' : List Nat} (h : FileChain g d sectors first cs) (h' : FileChain g d sectors first cs') : cs = cs' := by
  rcases h with ⟨rfl, rfl⟩ | h
  · rcases h' with ⟨-, rfl⟩ | h'
    · rfl
    · exact absurd rfl h'.first_ne_zero
  · rcases h' with ⟨rfl, -⟩ | h'
    · exact absurd rfl h.first_ne_zero
    · exact h.links.unique h'.links

theorem FileChain.capacity (hwf : Fat32WellFormed v.geometry v.disk sectors) (h : FileChain v.geometry v.disk sectors first cs)
    (hspc : v.geometry.sectorsPerCluster < 256) :
    ∃ v', v.Buffered v' ∧ chainCapacity fat32Fuel first v 0 = some (v', chainBytes v.geometry cs) := by
  have hbytes := h.bytes_lt hspc
  rcases h with ⟨rfl, rfl⟩ | h
  · exact ⟨v, Fat32.Buffered.refl v, rfl⟩
  · obtain ⟨v', hv', heq⟩ := chainCapacity_eq hwf.geometry hwf.cluster h h.length_lt (by rwa [Nat.zero_add])
    exact ⟨v', hv', by rw [heq, Nat.zero_add]⟩

theorem FileChain.write (hwf : Fat32WellFormed v.geometry v.disk sectors) (h : FileChain v.geometry v.disk sectors first cs)
    (hfits : data.length ≤ chainBytes v.geometry cs) :
    ∃ v', Fat32.Buffered { v with disk := Lib.writeBlocks 512 v.disk (chainBlocks v.geometry cs) data } v' ∧
      writeClusters data fat32Fuel first v 0 = some (v', data.length) := by
  rcases h with ⟨rfl, rfl⟩ | h
  · have hnil : data = [] := List.eq_nil_of_length_eq_zero (by rw [chainBytes, List.length_nil] at hfits; omega)
    rw [hnil]
    exact ⟨v, Fat32.Buffered.refl v, rfl⟩
  · obtain ⟨v', hv', heq⟩ := writeClusters_eq hwf.geometry hwf.cluster h h.length_lt (Nat.zero_le data.length)
    rw [List.drop_zero] at hv'
    exact ⟨v', hv', by rw [heq, Nat.zero_add, Nat.min_eq_right hfits]⟩

theorem FileChain.read (hg : v.geometry.Ok sectors) (hspc : 0 < v.geometry.sectorsPerCluster) (h : FileChain v.geometry v.disk sectors first cs)
    {toRead : Nat} (hfits : toRead ≤ chainBytes v.geometry cs) :
    ∃ v', v.Buffered v' ∧
      readClusters toRead fat32Fuel first v [] = some (v', (Lib.readBlocks 512 v.disk (chainBlocks v.geometry cs)).take toRead) := by
  rcases h with ⟨rfl, rfl⟩ | h
  · have hzero : toRead = 0 := by
      rw [chainBytes, List.length_nil] at hfits
      omega
    rw [hzero]
    exact ⟨v, Fat32.Buffered.refl v, rfl⟩
  · obtain ⟨v', hv', heq⟩ := @readClusters_eq sectors first cs v hg hspc h toRead _ h.length_lt []
    rw [List.take_nil, List.nil_append] at heq
    exact ⟨v', hv', heq⟩

/-- `fat32_write_file` on the file at a slot that its scanner finds. -/
theorem fat32WriteFile_located (hwf : Fat32WellFormed v.geometry v.disk sectors) (hspc : v.geometry.sectorsPerCluster < 256)
    (hready : v.ready = true) {path norm leaf : List UInt8} {parent : Nat} (hnorm : fat32NormalizePath path fat32NameMax = some norm)
    (hresolve : resolveParent v norm = some (w, parent, some leaf)) (hbuf : v.Buffered w) (hparent : parent ≠ 0)
    (hlocated : Located sectors w parent leaf slot) (hfile : (slotEntry v.disk slot).attr &&& attrDir = 0)
    (hchain : FileChain v.geometry v.disk sectors (slotEntry v.disk slot).firstCluster cs) (hfits : data.length ≤ chainBytes v.geometry cs) :
    ∃ w', fat32WriteFile v path data = some (w', 0) ∧ w'.ready = v.ready ∧ w'.geometry = v.geometry ∧
      w'.disk = overwritten v.geometry v.disk cs slot data := by
  obtain ⟨sec, rfl⟩ := hbuf
  obtain ⟨w1, ⟨sec1, rfl⟩, hraw⟩ := hlocated.raw
  obtain ⟨dirFirst, dir, -, -, hlive⟩ := hlocated.volume
  obtain ⟨-, j, hj, hoff⟩ := dirSlot_place ((List.takeWhile_sublist _).subset hlive)
  obtain ⟨w2, ⟨sec2, rfl⟩, hcapacity⟩ := @FileChain.capacity sectors _ cs { v with sector := sec1 } hwf hchain hspc
  obtain ⟨w3, ⟨sec3, rfl⟩, hwrite⟩ := @FileChain.write sectors _ cs { v with sector := sec2 } data hwf hchain hfits
  have hsize := updateFileSize_disk { v with disk := Lib.writeBlocks 512 v.disk (chainBlocks v.geometry cs) data, sector := sec3 }
    ⟨slotEntry v.disk slot, slot.1, slot.2⟩ data.length (by simp only; omega)
  refine ⟨updateFileSize { v with disk := Lib.writeBlocks 512 v.disk (chainBlocks v.geometry cs) data, sector := sec3 }
    ⟨slotEntry v.disk slot, slot.1, slot.2⟩ data.length, ?_, rfl, rfl, hsize⟩
  simp only at hraw hcapacity hwrite
  rw [fat32WriteFile, if_neg (by simp [hready])]
  simp only [hnorm, hresolve, if_neg hparent, hraw, hfile, ne_eq, not_true_eq_false, if_false, if_neg (hchain.first_ne_zero hfits), hcapacity,
    if_neg (Nat.not_lt.mpr hfits), hwrite]

/-- `fat32_stat` of that file on a volume with the same directories. -/
theorem fat32Stat_located (h : SameDirs sectors v w) (hready : w.ready = true) {path norm leaf : List UInt8} {parent : Nat}
    (hnorm : fat32NormalizePath path fat32NameMax = some norm) (hroot : norm ≠ [slash])
    (hresolve : resolveParent v norm = some (v', parent, some leaf)) (hparent : parent ≠ 0) (hlocated : Located sectors v' parent leaf slot) :
    ∃ w' name, w.Buffered w' ∧ SlotAgree v.disk w.disk slot ∧ fat32Stat w path = some (w', some (direntOf (slotEntry w.disk slot) name)) := by
  have hboth := h.resolveParent norm
  rw [hresolve] at hboth
  obtain ⟨w1, b, hresolve', hv', ⟨sec1, rfl⟩, rfl, hreach⟩ := hboth.of_left
  have hsame := h.buffered hv' ⟨sec1, rfl⟩
  obtain ⟨sec, rfl⟩ := hv'
  obtain ⟨w2, name, ⟨sec2, rfl⟩, hagree, hscan⟩ :=
    hsame.iterate_of_located (hreach.resolve_left hparent) hlocated (f := fun e _ _ name => direntOf e name)
  rw [← iterateDir_statCb] at hscan
  refine ⟨_, name, ⟨sec2, rfl⟩, hagree, ?_⟩
  rw [fat32Stat, if_neg (by simp [hready])]
  simp only [hnorm, if_neg hroot, hresolve', if_neg hparent]
  exact hscan

/-- `fat32_read_file` of a path that `fat32_stat` takes to a file. -/
theorem fat32ReadFile_eq {u : Fat32} {path norm dst : List UInt8} {de : Fat32Dirent} {maxBytes : Nat} (hready : v.ready = true)
    (hnorm : fat32NormalizePath path fat32NameMax = some norm) (hstat : fat32Stat v norm = some (u, some de)) (hfile : de.isDir = false)
    (hread : readClusters (min de.size maxBytes) fat32Fuel de.firstCluster u [] = some (w, dst)) :
    fat32ReadFile v path maxBytes = some (w, toInt32 dst.length, dst) := by
  rw [fat32ReadFile, if_neg (by simp [hready])]
  simp only [hnorm, hstat, hfile, Bool.false_eq_true, if_false, hread]

/-- `fat32_read_file` of that file on a volume with the same directories. -/
theorem fat32ReadFile_located (h : SameDirs sectors v w) (hready : w.ready = true) {path norm leaf : List UInt8} {parent : Nat} (maxBytes : Nat)
    (hnorm : fat32NormalizePath path fat32NameMax = some norm) (hroot : norm ≠ [slash])
    (hresolve : resolveParent v norm = some (v', parent, some leaf)) (hparent : parent ≠ 0)
    (hlocated : Located sectors v' parent leaf slot) (hfile : (slotEntry v.disk slot).attr &&& attrDir = 0)
    (hchain : FileChain w.geometry w.disk sectors (slotEntry v.disk slot).firstCluster cs)
    (hfits : min (slotEntry w.disk slot).fileSize maxBytes ≤ chainBytes w.geometry cs) :
    ∃ w', w.Buffered w' ∧ fat32ReadFile w path maxBytes = some (w', toInt32 (min (slotEntry w.disk slot).fileSize maxBytes),
      (Lib.readBlocks 512 w.disk (chainBlocks w.geometry cs)).take (min (slotEntry w.disk slot).fileSize maxBytes)) := by
  obtain ⟨w2, name, ⟨sec2, rfl⟩, hagree, hstat⟩ :=
    fat32Stat_located h hready (fat32NormalizePath_idem hnorm) hroot hresolve hparent hlocated
  have hisDir : (direntOf (slotEntry w.disk slot) name).isDir = false := by
    simp [direntOf, hagree.attr, hfile]
  have hg : w.geometry.Ok sectors := by
    rw [h.geometry]
    exact h.wellFormed.geometry
  have hspc : 0 < w.geometry.sectorsPerCluster := by
    rw [h.geometry]
    exact h.wellFormed.cluster
  rw [← hagree.firstCluster] at hchain
  obtain ⟨w3, ⟨sec3, rfl⟩, hread⟩ := @FileChain.read sectors _ cs { w with sector := sec2 } hg hspc hchain _ hfits
  refine ⟨_, ⟨sec3, rfl⟩, ?_⟩
  have hlen : ((Lib.readBlocks 512 w.disk (chainBlocks w.geometry cs)).take (min (slotEntry w.disk slot).fileSize maxBytes)).length =
      min (slotEntry w.disk slot).fileSize maxBytes := by
    rw [List.length_take, Lib.length_readBlocks, length_chainBlocks, Nat.min_eq_left hfits]
  rw [fat32ReadFile_eq hready hnorm hstat hisDir hread, hlen]

/-- The path leads to the file at a slot. -/
structure FileOf (sectors : Nat) (v : Fat32) (path : List UInt8) (slot : Nat × Nat) : Prop where
  ready : v.ready = true
  way : ∃ norm u parent leaf, fat32NormalizePath path fat32NameMax = some norm ∧ norm ≠ [slash] ∧
    resolveParent v norm = some (u, parent, some leaf) ∧ v.Buffered u ∧ parent ≠ 0 ∧ Located sectors u parent leaf slot
  slot : FileSlot v.geometry v.disk sectors slot

theorem fileOf_of_stat (hwf : Fat32WellFormed v.geometry v.disk sectors) {path : List UInt8} {de : Fat32Dirent}
    (hstat : fat32Stat v path = some (v', some de)) (hfile : de.isDir = false) :
    ∃ slot name, FileOf sectors v path slot ∧ fat32StatSlot v path = some slot ∧ de = direntOf (slotEntry v.disk slot) name := by
  obtain ⟨hready, norm, u, parent, leaf, hnorm, hroot, hresolve, hparent, hiterate⟩ := fat32Stat_file hstat hfile
  have hself := SameDirs.refl hwf
  have hboth := hself.resolveParent norm
  rw [hresolve] at hboth
  obtain ⟨-, -, -, ⟨sec, rfl⟩, -, -, hreach⟩ := hboth.of_left
  have hreach := hreach.resolve_left hparent
  have hbuf : v.Buffered { v with sector := sec } := ⟨sec, rfl⟩
  have hselfU := hself.buffered hbuf hbuf
  obtain ⟨slot, name, hlocated, rfl⟩ := hselfU.located_of_stat hreach hiterate
  have hattr : (slotEntry v.disk slot).attr &&& attrDir = 0 := by simpa [direntOf] using hfile
  obtain ⟨u', name', -, -, hscan⟩ := hselfU.iterate_of_located hreach hlocated (f := fun _ lba off _ => (lba, off))
  refine ⟨slot, name, ⟨hready, ?_, hlocated.volume, hlocated.shown, hattr⟩, ?_, rfl⟩
  · exact ⟨norm, _, parent, leaf, hnorm, hroot, hresolve, hbuf, hparent, hlocated⟩
  · simp only [fat32StatSlot, hnorm, hresolve, hscan, Option.bind_some]

/-- The volume after a write that fits, as the directory scans and the file's chain see it. -/
theorem FileOf.written (h : FileOf sectors v path slot) (hwf : Fat32WellFormed v.geometry v.disk sectors)
    (hchain : FileChain v.geometry v.disk sectors (slotEntry v.disk slot).firstCluster cs) (hready : w.ready = v.ready)
    (hgeometry : w.geometry = v.geometry) (hdisk : w.disk = overwritten v.geometry v.disk cs slot data) :
    SameDirs sectors v w ∧ FileChain w.geometry w.disk sectors (slotEntry v.disk slot).firstCluster cs ∧
      (slotEntry w.disk slot).fileSize = data.length % 2 ^ 32 := by
  obtain ⟨c, dir, -, -, hlive⟩ := h.slot.volume
  have hmem : slot ∈ dirSlots v.geometry dir := (List.takeWhile_sublist _).subset hlive
  obtain ⟨-, j, hj, hoff⟩ := dirSlot_place hmem
  refine ⟨sameDirs_overwritten hwf h.slot hchain hready hgeometry hdisk, ?_, ?_⟩
  · rw [hgeometry]
    apply hchain.congr
    intro c hc
    apply fatEntry_congr hwf.geometry (hchain.ok c hc)
    intro x hx
    rw [hdisk, overwritten_below hmem hx]
  · rw [hdisk]
    exact fileSize_overwritten (by omega)

theorem fat32WriteFile_long {u u1 u2 : Fat32} {path norm leaf : List UInt8} {parent capacity : Nat} {raw : RawEntry} (hready : v.ready = true)
    (hnorm : fat32NormalizePath path fat32NameMax = some norm) (hresolve : resolveParent v norm = some (u, parent, some leaf)) (hparent : parent ≠ 0)
    (hraw : findEntryRaw u parent leaf = some (u1, some raw)) (hfile : raw.out.attr &&& attrDir = 0) (hbuf : v.Buffered u1)
    (hcapacity : chainCapacity fat32Fuel raw.out.firstCluster u1 0 = some (u2, capacity)) (hbuf' : v.Buffered u2) (hlong : capacity < data.length) :
    ∃ w, fat32WriteFile v path data = some (w, -1) ∧ v.Buffered w := by
  rw [fat32WriteFile, if_neg (by simp [hready])]
  by_cases hempty : raw.out.firstCluster = 0 ∧ 0 < data.length
  · simp only [hnorm, hresolve, if_neg hparent, hraw, if_neg (not_not.mpr hfile), if_pos hempty]
    exact ⟨u1, rfl, hbuf⟩
  · simp only [hnorm, hresolve, if_neg hparent, hraw, if_neg (not_not.mpr hfile), if_neg hempty, hcapacity, if_pos hlong]
    exact ⟨u2, rfl, hbuf'⟩

/-- Data that is longer than the chain is refused, and nothing is written. -/
theorem FileOf.write_long (h : FileOf sectors v path slot) (hwf : Fat32WellFormed v.geometry v.disk sectors)
    (hspc : v.geometry.sectorsPerCluster < 256) (hchain : FileChain v.geometry v.disk sectors (slotEntry v.disk slot).firstCluster cs)
    (hlong : chainBytes v.geometry cs < data.length) : ∃ w, fat32WriteFile v path data = some (w, -1) ∧ v.Buffered w := by
  obtain ⟨norm, u, parent, leaf, hnorm, -, hresolve, ⟨sec, rfl⟩, hparent, hlocated⟩ := h.way
  obtain ⟨w1, ⟨sec1, rfl⟩, hraw⟩ := hlocated.raw
  obtain ⟨w2, ⟨sec2, rfl⟩, hcapacity⟩ := @FileChain.capacity sectors _ cs { v with sector := sec1 } hwf hchain hspc
  exact fat32WriteFile_long h.ready hnorm hresolve hparent hraw h.slot.file ⟨sec1, rfl⟩ hcapacity ⟨sec2, rfl⟩ hlong

/-- A write to a file and the read behind it, whatever the length of the data. -/
theorem write_then_read (hwf : Fat32WellFormed v.geometry v.disk sectors) (hspc : v.geometry.sectorsPerCluster < 256) {path : List UInt8}
    {de : Fat32Dirent} (hstat : fat32Stat v path = some (v', some de)) (hfile : de.isDir = false)
    (hchain : FileChain v.geometry v.disk sectors de.firstCluster cs) (hfits : data.length ≤ chainBytes v.geometry cs) :
    ∃ w slot, fat32WriteFile v path data = some (w, 0) ∧ fat32StatSlot v path = some slot ∧
      w.disk = overwritten v.geometry v.disk cs slot data ∧
      ∀ maxBytes, ∃ w', fat32ReadFile w path maxBytes =
        some (w', toInt32 (min (data.length % 2 ^ 32) maxBytes), data.take (min (data.length % 2 ^ 32) maxBytes)) := by
  obtain ⟨slot, name, hfileOf, hslot, rfl⟩ := fileOf_of_stat hwf hstat hfile
  obtain ⟨norm, u, parent, leaf, hnorm, hroot, hresolve, hbuf, hparent, hlocated⟩ := hfileOf.way
  obtain ⟨w, hwrite, hwready, hwgeometry, hwdisk⟩ :=
    fat32WriteFile_located hwf hspc hfileOf.ready hnorm hresolve hbuf hparent hlocated hfileOf.slot.file hchain hfits
  obtain ⟨hsame, hchain', hsize⟩ := hfileOf.written hwf hchain hwready hwgeometry hwdisk
  refine ⟨w, slot, hwrite, hslot, hwdisk, fun maxBytes => ?_⟩
  have hle : min (data.length % 2 ^ 32) maxBytes ≤ data.length := (Nat.min_le_left _ _).trans (Nat.mod_le _ _)
  obtain ⟨w', -, hread⟩ := fat32ReadFile_located hsame (hwready.trans hfileOf.ready) maxBytes hnorm hroot hresolve hparent hlocated
    hfileOf.slot.file hchain' (by rw [hsize, hwgeometry]; exact hle.trans hfits)
  refine ⟨w', ?_⟩
  obtain ⟨rest, hrest⟩ := readBlocks_overwritten hwf hfileOf.slot hchain hfits
  rw [hread, hsize, hwgeometry, hwdisk, ← hrest, List.take_append_of_le_length hle]

/-! ### The round trip -/

/-- Every byte that differs is in a sector of the chain or in the size field of the entry. -/
def OnlyOverwrites (g : Fat32Geometry) (d d' : Memory) (cs : List Nat) (slot : Nat × Nat) : Prop :=
  ∀ x, d' x ≠ d x →
    (∃ c ∈ cs, ∃ s < g.sectorsPerCluster, 512 * (clusterLba g c + s) ≤ x ∧ x < 512 * (clusterLba g c + s) + 512) ∨
    (512 * slot.1 + slot.2 + 28 ≤ x ∧ x < 512 * slot.1 + slot.2 + 32)

/-- The write of `data` to a file with the chain `cs` succeeds, it is read back into every buffer that has room for it, and nothing else changes. -/
def OverwriteRoundTrip (v : Fat32) (path data : List UInt8) (cs : List Nat) : Prop :=
  ∃ w slot, fat32WriteFile v path data = some (w, 0) ∧
    (∀ maxBytes, data.length ≤ maxBytes → ∃ w', fat32ReadFile w path maxBytes = some (w', (data.length : Int), data)) ∧
    fat32StatSlot v path = some slot ∧ OnlyOverwrites v.geometry v.disk w.disk cs slot

theorem overwritten_only (g : Fat32Geometry) (d : Memory) (cs : List Nat) (slot : Nat × Nat) (data : List UInt8) :
    OnlyOverwrites g d (overwritten g d cs slot data) cs slot := by
  intro x hne
  by_contra hout
  rw [not_or] at hout
  apply hne
  apply overwritten_apply
  · intro a ha
    obtain ⟨c, hc, s, hs, rfl⟩ := mem_chainBlocks.mp ha
    by_contra hin
    exact hout.1 ⟨c, hc, s, hs, by omega, by omega⟩
  · have := hout.2
    omega

theorem fat32Init_sectorsPerCluster {v₀ v : Fat32} (h : fat32Init v₀ = (0, v)) : v.geometry.sectorsPerCluster < 256 := by
  simp only [fat32Init] at h
  split at h
  · cases h
  split at h
  · cases h
  split at h
  · cases h
  split at h
  · cases h
  · cases h
    exact UInt8.toNat_lt _

/-! ### A volume with a file of four gigabytes -/

/-- The FAT of a volume whose clusters are 128 sectors: the root directory in cluster 2, and one file in the 65536 clusters behind it. -/
def largeFat (c : Nat) : Nat := if c = 2 ∨ c = 65538 then 0x0FFFFFFF else if 3 ≤ c ∧ c < 65538 then c + 1 else 0

def largeFatArea : Memory := fun x =>
  if 512 ≤ x ∧ x < 512 * 514 then UInt8.ofNat (largeFat ((x - 512) / 4) / 256 ^ ((x - 512) % 4)) else 0

def largeBoot (m : Memory) : Memory :=
  ((((((m.store 11 2 512).store 13 1 128).store 14 2 1).store 16 1 1).store 36 4 513).store 44 4 2).store 510 2 0xAA55

/-- The only entry of the root directory is the empty file `A`, which has the whole chain. -/
def largeDisk : Memory :=
  ((((largeBoot largeFatArea).store (512 * 514) 1 0x41).store (512 * 514 + 1) 10 0x20202020202020202020).store (512 * 514 + 11) 1 0x20).store
    (512 * 514 + 26) 2 3

def largeGeometry : Fat32Geometry := ⟨1, 514, 2, 128, 513, 512⟩

def largeSectors : Nat := 514 + 65537 * 128

def largeChain : List Nat := List.range' 3 65536

def unmounted : Fat32 := ⟨false, ⟨0, 0, 0, 0, 0, 0⟩, fun _ => 0, largeDisk⟩

def largeVolume : Fat32 := (fat32Init unmounted).2

/-- The path `/A`. -/
def largePath : List UInt8 := [slash, 65]

theorem largeVolume_init : fat32Init unmounted = (0, largeVolume) := Prod.ext (by decide +kernel) rfl

theorem largeVolume_geometry : largeVolume.geometry = largeGeometry := by decide +kernel

theorem largeVolume_stat : (fat32Stat largeVolume largePath).map (·.2) = some (some ⟨[65], 0, false, 3⟩) := by decide +kernel

theorem largeDisk_fat {x : Nat} (hlo : 512 ≤ x) (hhi : x < 512 * 514) : largeDisk x = largeFatArea x := by
  simp only [largeDisk, largeBoot]
  rw [Memory.store_apply_of_outside _ (by omega), Memory.store_apply_of_outside _ (by omega), Memory.store_apply_of_outside _ (by omega),
    Memory.store_apply_of_outside _ (by omega), Memory.store_apply_of_outside _ (by omega), Memory.store_apply_of_outside _ (by omega),
    Memory.store_apply_of_outside _ (by omega), Memory.store_apply_of_outside _ (by omega), Memory.store_apply_of_outside _ (by omega),
    Memory.store_apply_of_outside _ (by omega), Memory.store_apply_of_outside _ (by omega)]

theorem largeDisk_fatEntry {c : Nat} (hc : c ≤ 65538) : fatEntry largeGeometry largeDisk c = largeFat c := by
  have hload : largeDisk.load (512 + 4 * c) 4 = largeFat c % 256 ^ 4 := by
    rw [← Memory.load_store_self largeDisk (512 + 4 * c) 4 (largeFat c)]
    apply Memory.load_congr
    intro x hlo hhi
    rw [Memory.store_apply_of_inside _ hlo hhi, largeDisk_fat (by omega) (by omega), largeFatArea, if_pos (by omega),
      show (x - 512) / 4 = c by omega, show (x - 512) % 4 = x - (512 + 4 * c) by omega]
  have hsmall : largeFat c < 2 ^ 28 := by
    rw [largeFat]
    split
    · decide
    · split <;> omega
  rw [fatEntry, show 512 * largeGeometry.fatLba + 4 * c = 512 + 4 * c from rfl, hload, Nat.mod_eq_of_lt (hsmall.trans (by decide)),
    Nat.mod_eq_of_lt hsmall]

theorem largeCluster_ok {c : Nat} (hlo : 2 ≤ c) (hhi : c ≤ 65538) : ClusterOk largeGeometry largeSectors c := by
  refine ⟨hlo, ?_, ?_⟩
  · simp only [largeGeometry]
    omega
  · simp only [clusterLba, largeGeometry, largeSectors]
    omega

theorem largeRoot_chain : FatChain largeGeometry largeDisk largeSectors 2 [2] := by
  refine ⟨?_, ?_⟩
  · rw [Lib.Linked.isList_cons, Lib.Linked.isList_nil, largeDisk_fatEntry (by decide)]
    decide
  · intro c hc
    rw [List.mem_singleton.mp hc]
    exact largeCluster_ok (by decide) (by decide)

theorem largeFile_links (n : Nat) : ∀ k, 3 ≤ k → k + n = 65538 →
    Lib.Linked.IsList (fun c => fatLink (fatEntry largeGeometry largeDisk c)) (fatLink k) (List.range' k (n + 1)) := by
  induction n with
  | zero =>
      intro k hlo hsum
      obtain rfl : k = 65538 := hsum
      rw [List.range'_succ, List.range'_zero, Lib.Linked.isList_cons, Lib.Linked.isList_nil, largeDisk_fatEntry (by decide)]
      decide
  | succ n ih =>
      intro k hlo hsum
      rw [List.range'_succ, Lib.Linked.isList_cons, largeDisk_fatEntry (by omega), largeFat, if_neg (by omega), if_pos (by omega)]
      refine ⟨?_, ih (k + 1) (by omega) (by omega)⟩
      rw [fatLink, if_pos (by rw [fat32Eoc]; omega)]

theorem largeFile_chain : FatChain largeGeometry largeDisk largeSectors 3 largeChain := by
  refine ⟨largeFile_links 65535 3 (by decide) (by decide), ?_⟩
  intro c hc
  have hrange := List.mem_range'_1.mp hc
  exact largeCluster_ok (by omega) (by omega)

theorem largeRoot_live : liveSlots largeDisk (dirSlots largeGeometry [2]) = [(514, 0)] := by decide +kernel

theorem largeRoot_reach {c : Nat} (h : DirReach largeGeometry largeDisk largeSectors c) : c = 2 := by
  induction h with
  | root => rfl
  | child hdir hchain hlive hshown hattr ih =>
      subst ih
      rw [hchain.links.unique largeRoot_chain.links, largeRoot_live, List.mem_singleton] at hlive
      rw [hlive] at hattr
      exact absurd hattr (by decide +kernel)

theorem largeSlot_eq {slot : Nat × Nat} (h : VolumeSlot largeGeometry largeDisk largeSectors slot) : slot = (514, 0) := by
  obtain ⟨c, cs, hreach, hchain, hlive⟩ := h
  rw [largeRoot_reach hreach] at hchain
  rw [hchain.links.unique largeRoot_chain.links, largeRoot_live] at hlive
  exact List.mem_singleton.mp hlive

theorem largeEntry : (slotEntry largeDisk (514, 0)).attr = 0x20 ∧ (slotEntry largeDisk (514, 0)).firstCluster = 3 ∧
    (slotEntry largeDisk (514, 0)).fileSize = 0 := by decide +kernel

theorem largeVolume_wellFormed : Fat32WellFormed largeVolume.geometry largeVolume.disk largeSectors := by
  rw [largeVolume_geometry]
  change Fat32WellFormed largeGeometry largeDisk largeSectors
  obtain ⟨hattr, hfirst, hsize⟩ := largeEntry
  refine ⟨⟨rfl, by decide, by decide⟩, by decide, ?_, ?_, ?_, ?_⟩
  · intro c hreach
    rw [largeRoot_reach hreach]
    exact ⟨[2], largeRoot_chain⟩
  · intro slot hslot _ hlfn
    rw [largeSlot_eq hslot, hattr] at hlfn
    exact absurd hlfn (by decide)
  · intro slot hslot
    rw [largeSlot_eq hslot.volume, hfirst, hsize]
    exact ⟨largeChain, Or.inr largeFile_chain, Nat.zero_le _⟩
  · intro slot cs c dir hslot hchain hreach hdir
    rw [largeSlot_eq hslot.volume, hfirst] at hchain
    rw [largeRoot_reach hreach] at hdir
    rw [hdir.links.unique largeRoot_chain.links]
    rcases hchain with ⟨hzero, -⟩ | hchain
    · cases hzero
    · rw [hchain.links.unique largeFile_chain.links]
      intro x hx hx'
      rw [List.mem_singleton.mp hx'] at hx
      have := List.mem_range'_1.mp hx
      omega

theorem largeVolume_file : ∃ v', fat32Stat largeVolume largePath = some (v', some ⟨[65], 0, false, 3⟩) := by
  obtain ⟨r, hr, hde⟩ := Option.map_eq_some_iff.mp largeVolume_stat
  exact ⟨r.1, by rw [hr, ← hde]⟩

theorem largeVolume_chain : FileChain largeVolume.geometry largeVolume.disk largeSectors 3 largeChain := by
  rw [largeVolume_geometry]
  exact Or.inr largeFile_chain

theorem largeVolume_bytes : chainBytes largeVolume.geometry largeChain = 2 ^ 32 := by
  rw [largeVolume_geometry, chainBytes, largeChain, List.length_range']
  rfl

/-! ### The main result -/

/-- Overwriting a file on a well-formed volume is a round trip exactly when the length of the data is an `int`. -/
theorem fat32_overwrite {v₀ v : Fat32} (hinit : fat32Init v₀ = (0, v)) (hwf : Fat32WellFormed v.geometry v.disk sectors) {path : List UInt8}
    {de : Fat32Dirent} (hstat : fat32Stat v path = some (v', some de)) (hfile : de.isDir = false)
    (hchain : FileChain v.geometry v.disk sectors de.firstCluster cs) (hfits : data.length ≤ chainBytes v.geometry cs) :
    OverwriteRoundTrip v path data cs ↔ data.length < 2 ^ 31 := by
  obtain ⟨w, slot, hwrite, hslot, hdisk, hread⟩ := write_then_read hwf (fat32Init_sectorsPerCluster hinit) hstat hfile hchain hfits
  constructor
  · rintro ⟨w₁, slot₁, hwrite₁, hread₁, -, -⟩
    obtain rfl : w = w₁ := by
      rw [hwrite] at hwrite₁
      cases hwrite₁
      rfl
    obtain ⟨w', hback⟩ := hread data.length
    obtain ⟨w₁', hback₁⟩ := hread₁ data.length le_rfl
    rw [hback] at hback₁
    have hret : toInt32 (min (data.length % 2 ^ 32) data.length) = data.length := by
      injection hback₁ with hpair
      exact congrArg (fun r => r.2.1) hpair
    have hwrap : wrap32 (min (data.length % 2 ^ 32) data.length) = min (data.length % 2 ^ 32) data.length := wrap32_of_lt (by omega)
    rw [toInt32, hwrap] at hret
    split at hret <;> omega
  · intro hlen
    refine ⟨w, slot, hwrite, ?_, hslot, ?_⟩
    · intro maxBytes hmax
      obtain ⟨w', hback⟩ := hread maxBytes
      have hmin : min (data.length % 2 ^ 32) maxBytes = data.length := by omega
      rw [hmin, toInt32_eq_self.mpr hlen, List.take_length] at hback
      exact ⟨w', hback⟩
    · rw [hdisk]
      exact overwritten_only v.geometry v.disk cs slot data

/-- Three bytes written to the file are read back. -/
theorem fat32_overwrite_threeBytes : OverwriteRoundTrip largeVolume largePath [1, 2, 3] largeChain := by
  obtain ⟨v', hstat⟩ := largeVolume_file
  apply (fat32_overwrite largeVolume_init largeVolume_wellFormed hstat rfl largeVolume_chain ?_).mpr
  · decide
  · rw [largeVolume_bytes]
    decide

/-- Four gigabytes fill the chain, but the size in the entry becomes 0 and nothing of them is read back. -/
theorem fat32_large_file_lost : ¬ OverwriteRoundTrip largeVolume largePath (List.replicate (2 ^ 32) 1) largeChain := by
  obtain ⟨v', hstat⟩ := largeVolume_file
  have hfits : (List.replicate (2 ^ 32) (1 : UInt8)).length ≤ chainBytes largeVolume.geometry largeChain := by
    rw [largeVolume_bytes, List.length_replicate]
  obtain ⟨w, slot, hwrite, -, -, hread⟩ := write_then_read largeVolume_wellFormed (fat32Init_sectorsPerCluster largeVolume_init) hstat rfl
    largeVolume_chain hfits
  rintro ⟨w₁, slot₁, hwrite₁, hread₁, -, -⟩
  rw [hwrite] at hwrite₁
  obtain rfl : w = w₁ := congrArg (fun r => r.1) (Option.some.inj hwrite₁)
  obtain ⟨w', hback⟩ := hread (2 ^ 32)
  obtain ⟨w₁', hback₁⟩ := hread₁ (2 ^ 32) (by rw [List.length_replicate])
  rw [hback] at hback₁
  have hret := congrArg (fun r => r.2.1) (Option.some.inj hback₁)
  simp only [List.length_replicate, Nat.mod_self, Nat.zero_min] at hret
  exact absurd hret (by decide)

end Tsukasa
