import Tsukasa.Fs.Fat12Write

/-!
# How much a write to a FAT12 file can take

A write frees the old chain before it builds the new one, so it succeeds exactly when the data fits into the clusters of the file and the free ones. When it does not fit, the entry stays as it was emptied.
-/

namespace Tsukasa

open Lib (Memory)

variable {v w u : Fat12} {doff : Nat} {cs others : List Nat} {path data content part : List UInt8} {chain : Nat ⊕ Nat → List Nat}

/-- A file of the root directory of a well-formed volume, its clusters and what is in it. -/
structure Fat12FileAt (v : Fat12) (others : List Nat) (path : List UInt8) (cs : List Nat) (content : List UInt8) : Prop where
  layout : Fat12Layout v
  wellFormed : Fat12WellFormed v others
  name : pathToName path ≠ []
  string : (0 : UInt8) ∉ path
  mark : (pathToName path).head? ≠ some 0xE5
  found : findDirent v (pathToName path) ≠ 0
  file : v.disk (findDirent v (pathToName path) + 11) &&& fatAttrDirectory = 0
  clusters : ChainOf v (v.disk.load (findDirent v (pathToName path) + 26) 2) cs
  content : content = (Lib.readBlocks (clusterBytes v.geometry) v.disk (blocksOf v.geometry cs)).take (v.disk.load (findDirent v (pathToName path) + 28) 4)

/-- The bytes that a file with these clusters can grow to. -/
def fat12Room (v : Fat12) (cs : List Nat) : Nat := clusterBytes v.geometry * ((freeClusters v).card + cs.length)

namespace Fat12FileAt

theorem stat (h : Fat12FileAt v others path cs content) : fat12Stat v path = some (fat12DirentAt v (findDirent v (pathToName path))) := by
  simp only [fat12Stat, h.name, h.found, if_false]

theorem isFile (h : Fat12FileAt v others path cs content) : (fat12DirentAt v (findDirent v (pathToName path))).isDir = false := by
  simp [fat12DirentAt, h.file]

theorem length_lt (h : Fat12FileAt v others path cs content) : content.length < 2 ^ 31 := by
  have hcapacity := h.clusters.capacity h.layout v.disk
  rw [h.content, List.length_take]
  omega

/-- A read into a buffer of the size in the entry, or more, gets all of the file. -/
theorem read (h : Fat12FileAt v others path cs content) {max : Nat} (hmax : v.disk.load (findDirent v (pathToName path) + 28) 4 ≤ max) :
    fat12ReadFile v path max = some ((content.length : Int), content) := by
  have hlength := toInt32_eq_self.mpr h.length_lt
  rw [fat12ReadFile_eq h.layout h.name rfl h.found h.file h.clusters, Nat.min_eq_left hmax]
  simp only
  rw [← h.content, hlength]

end Fat12FileAt

/-! ### The space a loop takes -/

/-- The clusters a write has taken were free, and the others are as before. -/
theorem Writing.card_free (h : Writing v w others chain part cs) :
    (freeClusters v).card = (freeClusters w).card + cs.length := by
  have hown := h.ownChain
  have hused : ∀ c ∈ cs, fatOf w c ≠ 0 := by
    intro c hc hzero
    have := hown.used c hc
    omega
  rw [freeClusters, freeClusters, h.geometry]
  exact Lib.AllocTable.card_freeUnits_taken hown.links.nodup h.range h.free hused h.fat

/-- The loop of a write into a file without clusters ends early exactly when the data does not fit into the free ones. -/
theorem writeLoop_fits (hlayout : Fat12Layout v) (hcopies : FatCopies v.geometry v.disk) (htable : TableSound v (firstOf v others) chain)
    (data : List UInt8) : ∃ w r, writeLoop data.length v 0 0 data = some (w, r) ∧
      (∀ f, r = some f → data.length ≤ clusterBytes v.geometry * (freeClusters v).card ∧ ∃ cs, f = cs.headD 0 ∧ Writing v w others chain data cs) ∧
      (r = none → clusterBytes v.geometry * (freeClusters v).card < data.length ∧ freeClusters w = ∅ ∧ SameNames v w ∧
        ∀ x, v.geometry.rootDirOffset ≤ x → x < v.geometry.dataOffset → w.disk x = v.disk x) := by
  obtain ⟨w, r, hloop, hdone, hfull⟩ := writeLoop_eq hlayout (le_refl data.length) (Writing.start htable hcopies) fun _ => rfl
  refine ⟨w, r, hloop, fun f hf => ?_, fun hnone => ?_⟩
  · obtain ⟨cs, hcs, hwriting⟩ := hdone f hf
    refine ⟨?_, cs, hcs, hwriting⟩
    have hlength := hwriting.written.length_le
    rw [List.nil_append, Lib.length_readBlocks, blocksOf, List.length_map] at hlength
    rw [hwriting.card_free]
    exact hlength.trans (Nat.mul_le_mul_left _ (Nat.le_add_left _ _))
  · obtain ⟨part, cs, hwriting, hpart, hlt, hempty⟩ := hfull hnone
    refine ⟨?_, hempty, hwriting.names hlayout, fun x hlo hhi => hwriting.outside x hlo fun a ha => ?_⟩
    · rw [hwriting.card_free, hempty, Finset.card_empty, Nat.zero_add, ← hpart]
      rwa [List.nil_append] at hlt
    · obtain ⟨c, -, rfl⟩ := List.mem_map.mp ha
      omega

/-! ### A whole write -/

/-- The clusters of a file are free once it has been emptied. -/
theorem truncate_room (h : Fat12Layout v) (hslot : doff ∈ rootSlots v) (hchain : ChainOf v (v.disk.load (doff + 26) 2) cs) : ∃ t,
    freeChain (fat12Eoc + 1) (v.disk.load (doff + 26) 2) v = some t ∧
      clusterBytes v.geometry * (freeClusters (setDirent t doff 0 0)).card = fat12Room v cs := by
  obtain ⟨t, hfree, honly, hfat⟩ := freeChain_eq h hchain (Nat.lt_succ_of_le (hchain.length_le h))
  have hslot' : doff ∈ rootSlots t := by
    rw [(honly.names h).slots]
    exact hslot
  refine ⟨t, hfree, ?_⟩
  have hgeometry : (setDirent t doff 0 0).geometry = v.geometry := honly.geometry
  rw [fat12Room, freeClusters, freeClusters, fatOf_setDirent (honly.layout h) hslot', hgeometry,
    Lib.AllocTable.card_freeUnits_taken hchain.links.nodup hchain.range]
  · intro c hc
    rw [hfat, if_pos hc]
  · intro c hc hzero
    have := hchain.used c hc
    omega
  · intro c hc
    rw [hfat, if_neg hc]

/-- A file without clusters takes those of its new chain from the free ones. -/
theorem Refilled.card_free {len : Nat} (h : Refilled v u others doff chain cs len) (howns : ownsChain v doff) (hnil : chain (.inl doff) = []) :
    (freeClusters v).card = (freeClusters u).card + cs.length := by
  have hnot : ∀ c, c ∉ chain (.inl doff) := fun c => hnil ▸ List.not_mem_nil
  have hown := h.ownChain howns
  have hrange := hown.range
  have hgeometry := h.geometry
  rw [hgeometry] at hrange
  have hused : ∀ c ∈ cs, fatOf u c ≠ 0 := by
    intro c hc hzero
    have := hown.used c hc
    omega
  rw [freeClusters, freeClusters, hgeometry]
  exact Lib.AllocTable.card_freeUnits_taken hown.links.nodup hrange (fun c hc => (h.taken c hc).resolve_left (hnot c)) hused
    fun c hc => h.fat c (hnot c) hc

/-- The file behind a write that has given it a chain. -/
theorem Fat12FileAt.refilled {cs' : List Nat} (h : Fat12FileAt v others path cs content) (htable : TableSound v (firstOf v others) chain)
    (hrefilled : Refilled v u others (findDirent v (pathToName path)) chain cs' data.length)
    (hdata : data <+: Lib.readBlocks (clusterBytes v.geometry) u.disk (blocksOf v.geometry cs')) : Fat12FileAt u others path cs' data := by
  obtain ⟨howns, -⟩ := findDirent_owns h.found
  have hopen : findOrCreate v (pathToName path) = some (findDirent v (pathToName path), v) := if_pos h.found
  have hzero : (pathToName path).head? ≠ some 0 := fun hhead => h.string ((List.dropWhile_suffix _).subset (List.mem_of_head? hhead))
  have hopened := h.wellFormed.open h.layout ⟨strToFat83_head (by decide) hzero, strToFat83_head (by decide) h.mark⟩ (fun _ => h.file) hopen
  have hfile := fileWritten_of_refilled h.layout h.wellFormed h.name hopened htable hrefilled hdata
  have hfind : findDirent u (pathToName path) = findDirent v (pathToName path) := hrefilled.names.find _
  have hattr : u.disk (findDirent v (pathToName path) + 11) = v.disk (findDirent v (pathToName path) + 11) :=
    hrefilled.names.entry _ (liveDirents_subset v howns.1) 11 (by decide)
  refine ⟨hrefilled.layout h.layout, hfile.wellFormed, h.name, h.string, h.mark, hfind ▸ h.found, ?_, ?_, ?_⟩
  · rw [hfind, hattr]
    exact h.file
  · rw [hfind]
    exact hrefilled.ownChain howns
  · rw [hfind, hrefilled.size, hrefilled.geometry]
    exact List.prefix_iff_eq_take.mp hdata

/-- A write succeeds exactly when the data fits; otherwise the file is left empty. What the file can grow to stays the same. -/
theorem Fat12FileAt.write (h : Fat12FileAt v others path cs content) (data : List UInt8) : ∃ ret u, fat12WriteFile v path data = some (ret, u) ∧
    (data.length ≤ fat12Room v cs → ret = 0 ∧ ∃ cs', Fat12FileAt u others path cs' data ∧ fat12Room u cs' = fat12Room v cs) ∧
    (fat12Room v cs < data.length → ret = -1 ∧ ∃ de, fat12Stat u path = some de ∧ de.isDir = false ∧ de.size = 0) := by
  obtain ⟨chain, htable⟩ := h.wellFormed.table
  obtain ⟨howns, -⟩ := findDirent_owns h.found
  have hslot := liveDirents_subset v howns.1
  have hplace := rootSlot_place h.layout hslot
  have hopen : findOrCreate v (pathToName path) = some (findDirent v (pathToName path), v) := if_pos h.found
  obtain ⟨t, hfree, hroom⟩ := truncate_room h.layout hslot h.clusters
  obtain ⟨t', hfree', hempty⟩ := truncate_entry h.layout h.wellFormed.copies howns htable
  obtain rfl : t = t' := Option.some.inj (hfree.symm.trans hfree')
  simp only [fat12WriteFile, h.layout.mounted, Bool.not_true, Bool.false_eq_true, if_false, h.name, hopen, hfree]
  by_cases hnil : data = []
  · rw [if_pos hnil]
    refine ⟨0, _, rfl, fun _ => ⟨rfl, [], ?_, ?_⟩, fun hlt => ?_⟩
    · rw [hnil]
      exact h.refilled htable hempty List.nil_prefix
    · rw [← hroom, fat12Room, hempty.geometry, List.length_nil, Nat.add_zero]
    · rw [hnil] at hlt
      exact absurd hlt (Nat.not_lt_zero _)
  rw [if_neg hnil]
  obtain ⟨w, r, hloop, hdone, hfull⟩ := writeLoop_fits (hempty.layout h.layout) (hempty.geometry ▸ hempty.copies) hempty.table data
  rw [hempty.geometry, hroom] at hdone hfull
  rw [hloop]
  cases r with
  | some f =>
      obtain ⟨hfits, cs', rfl, hwriting⟩ := hdone f rfl
      have hownsT := hempty.names.owns.mpr howns
      obtain ⟨hstore, hwritten⟩ := hwriting.store (hempty.layout h.layout) hempty.table hownsT (Function.update_self _ _ _)
      refine ⟨0, _, rfl, fun _ => ⟨rfl, cs', h.refilled htable (hempty.trans hstore) (hempty.geometry ▸ hwritten), ?_⟩,
        fun hlt => absurd hfits (Nat.not_le.mpr hlt)⟩
      rw [← hroom, hstore.card_free hownsT (Function.update_self _ _ _), fat12Room, (hempty.trans hstore).geometry]
  | none =>
      obtain ⟨hlong, -, hnames, houtside⟩ := hfull rfl
      refine ⟨-1, w, rfl, fun hle => absurd hle (Nat.not_le.mpr hlong), fun _ => ⟨rfl, ?_⟩⟩
      have hfind : findDirent w (pathToName path) = findDirent v (pathToName path) := (hempty.names.trans hnames).find _
      have hattr : w.disk (findDirent v (pathToName path) + 11) = v.disk (findDirent v (pathToName path) + 11) :=
        (hempty.names.trans hnames).entry _ hslot 11 (by decide)
      refine ⟨fat12DirentAt w (findDirent v (pathToName path)), ?_, ?_, ?_⟩
      · simp only [fat12Stat, h.name, hfind, h.found, if_false]
      · simp [fat12DirentAt, hattr, h.file]
      · have hsame : w.disk.load (findDirent v (pathToName path) + 28) 4 = (setDirent t (findDirent v (pathToName path)) 0 0).disk.load (findDirent v (pathToName path) + 28) 4 := by
          apply Memory.load_congr
          intro x hlo hhi
          apply houtside
          all_goals omega
        exact hsame.trans hempty.size

/-! ### A new file -/

/-- A file that is created has nothing in it, and can grow to the free clusters. -/
theorem fat12_create (hlayout : Fat12Layout v) (h : Fat12WellFormed v others) (hname : pathToName path ≠ []) (hstring : (0 : UInt8) ∉ path)
    (hmark : (pathToName path).head? ≠ some 0xE5) (hnew : findDirent v (pathToName path) = 0) : ∃ ret u, fat12WriteFile v path [] = some (ret, u) ∧
      (ret = 0 → ∃ cs, Fat12FileAt u others path cs [] ∧ fat12Room u cs = clusterBytes v.geometry * (freeClusters v).card) := by
  cases hopen : findOrCreate v (pathToName path) with
  | none =>
      refine ⟨-1, v, ?_, fun hret => absurd hret (by decide)⟩
      simp [fat12WriteFile, hlayout.mounted, hname, hopen]
  | some opened =>
      obtain ⟨doff, w⟩ := opened
      have hzero : (pathToName path).head? ≠ some 0 := fun hhead => hstring ((List.dropWhile_suffix _).subset (List.mem_of_head? hhead))
      have hopened := h.open hlayout ⟨strToFat83_head (by decide) hzero, strToFat83_head (by decide) hmark⟩ (fun hne => absurd hnew hne) hopen
      have hplace := rootSlot_place hlayout hopened.slot
      have hfatW : fatOf w = fatOf v := fatOf_congr hlayout hopened.image fun x hx => hopened.outside x (by omega)
      have hempty : w.disk.load (doff + 26) 2 = 0 := by
        obtain ⟨hfound, -⟩ | ⟨-, -, rfl⟩ := findOrCreate_cases hopen
        · exact absurd hnew hfound
        · exact newDirent_fields.1
      obtain ⟨chain, htable⟩ := hopened.table
      have hown : ChainOf w 0 (chain (.inl doff)) := hempty ▸ htable.chains _ _ (if_pos hopened.owns)
      have hnil : chain (.inl doff) = [] := hown.links.unique (Lib.Linked.isList_nil.mpr rfl)
      obtain ⟨d, rfl⟩ := hopened.image
      have hcopies : FatCopies v.geometry d := fatCopies_congr hlayout (fun x hx => hopened.outside x (by omega)) h.copies
      obtain ⟨ret, u, hwrite, hrefill⟩ := fat12WriteFile_opened hlayout hname hopen (hlayout.disk d) hcopies hopened.owns htable []
      refine ⟨ret, u, hwrite, fun hret => ?_⟩
      obtain ⟨cs, hrefilled, hdata⟩ := hrefill hret
      have hfile := fileWritten_of_refilled hlayout h hname hopened htable hrefilled hdata
      have hfind : findDirent u (pathToName path) = doff := (hrefilled.names.find _).trans hopened.found
      refine ⟨cs, ⟨hrefilled.layout (hlayout.disk d), hfile.wellFormed, hname, hstring, hmark, ?_, ?_, ?_, ?_⟩, ?_⟩
      · rw [hfind]
        exact hplace.2.2
      · rw [hfind, hrefilled.names.entry doff hopened.slot 11 (by decide)]
        exact hopened.file
      · rw [hfind]
        exact hrefilled.ownChain hopened.owns
      · rw [hfind, hrefilled.size, List.length_nil, List.take_zero]
      · have hcard : (freeClusters v).card = (freeClusters u).card + cs.length := by
          rw [freeClusters, ← hfatW]
          exact hrefilled.card_free hopened.owns hnil
        rw [fat12Room, hrefilled.geometry, hcard]

end Tsukasa
