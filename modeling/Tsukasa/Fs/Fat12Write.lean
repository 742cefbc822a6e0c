import Tsukasa.Fs.Fat12File

/-!
# Writing a file on a FAT12 volume

`fat12_write_file` opens an entry, empties it, builds a chain and puts it into the entry. Every step keeps the table sound and touches one entry and one chain, so a write that succeeds is read back, leaves every other file alone and leaves a well-formed volume.
-/

namespace Tsukasa

open Lib (Memory)

variable {v w u : Fat12} {off doff : Nat} {cs others : List Nat} {name path data : List UInt8} {chain : Nat ⊕ Nat → List Nat}

/-- A well-formed volume. `others` are the first clusters of the files in subdirectories. -/
structure Fat12WellFormed (v : Fat12) (others : List Nat) : Prop where
  areas : Fat12Areas v
  copies : FatCopies v.geometry v.disk
  ended : DirEnded v
  table : ∃ chain, TableSound v (firstOf v others) chain

/-! ### The entry -/

theorem setDirent_apply {f len x : Nat} (hx : x < doff + 26 ∨ doff + 32 ≤ x) : (setDirent v doff f len).disk x = v.disk x := by
  simp only [setDirent]
  rw [Memory.store_apply_of_outside _ (by omega), Memory.store_apply_of_outside _ (by omega)]

theorem setDirent_first (v : Fat12) (doff len : Nat) {f : Nat} (hf : f < 2 ^ 16) : (setDirent v doff f len).disk.load (doff + 26) 2 = f := by
  simp only [setDirent]
  rw [Memory.load_store_of_disjoint _ (by omega), Memory.load_store_self]
  exact Nat.mod_eq_of_lt hf

theorem setDirent_size (v : Fat12) (doff f : Nat) {len : Nat} (hlen : len < 2 ^ 32) : (setDirent v doff f len).disk.load (doff + 28) 4 = len := by
  simp only [setDirent]
  rw [Memory.load_store_self]
  exact Nat.mod_eq_of_lt hlen

/-- A change of six bytes at the end of an entry leaves all names, and everything outside the slot. -/
theorem setDirent_names (h : Fat12Layout v) (hslot : doff ∈ rootSlots v) (f len : Nat) : SameNames v (setDirent v doff f len) := by
  refine ⟨⟨_, rfl⟩, ?_⟩
  intro off hoff i hi
  apply setDirent_apply
  by_cases heq : off = doff
  · omega
  · have := rootSlots_apart h hoff hslot heq
    omega

theorem setDirent_other (h : Fat12Layout v) (hslot : doff ∈ rootSlots v) (f len : Nat) :
    ∀ off ∈ rootSlots v, off ≠ doff → (setDirent v doff f len).disk.load (off + 26) 2 = v.disk.load (off + 26) 2 := by
  intro off hoff hne
  have := rootSlots_apart h hoff hslot hne
  apply Memory.load_congr
  intro x hlo hhi
  exact setDirent_apply (by omega)

theorem fatOf_setDirent (h : Fat12Layout v) (hslot : doff ∈ rootSlots v) (f len : Nat) : fatOf (setDirent v doff f len) = fatOf v := by
  have hplace := rootSlot_place h hslot
  exact fatOf_congr h ⟨_, rfl⟩ fun x hx => setDirent_apply (by omega)

theorem FatOnly.names (h : Fat12Layout v) (honly : FatOnly v w) : SameNames v w := by
  refine ⟨honly.image, ?_⟩
  intro off hoff i hi
  have := rootSlot_place h hoff
  exact honly.behind _ (by omega)

/-- A new entry is one more owner, without a cluster. -/
theorem NewEntry.firstOf (hlayout : Fat12Layout v) (h : NewEntry v w off name) :
    firstOf w others = Function.update (firstOf v others) (.inl off) (some 0) := by
  funext o
  cases o with
  | inl off' =>
      by_cases heq : off' = off
      · rw [heq, Function.update_self, Tsukasa.firstOf, if_pos ((h.owns off).mpr (Or.inl rfl)), h.fresh]
      · rw [Function.update_of_ne (by simpa using heq), Tsukasa.firstOf, Tsukasa.firstOf]
        by_cases howns : ownsChain v off'
        · rw [if_pos howns, if_pos ((h.owns off').mpr (Or.inr howns))]
          have := rootSlots_apart hlayout (liveDirents_subset v howns.1) h.slot heq
          rw [Memory.load_congr fun x hlo hhi => h.outside x (by omega)]
        · rw [if_neg howns, if_neg fun hw => ((h.owns off').mp hw).elim heq howns]
  | inr i =>
      rw [Function.update_of_ne (by simp)]
      rfl

/-- The entry of `name`, found or created. -/
structure EntryOpened (v w : Fat12) (others : List Nat) (name : List UInt8) (doff : Nat) : Prop where
  image : ∃ d, w = { v with disk := d }
  outside : ∀ x, x < doff ∨ doff + 32 ≤ x → w.disk x = v.disk x
  slot : doff ∈ rootSlots v
  owns : ownsChain w doff
  otherOwns : ∀ off, off ≠ doff → (ownsChain w off ↔ ownsChain v off)
  file : w.disk (doff + 11) &&& fatAttrDirectory = 0
  found : findDirent w name = doff
  otherNames : ∀ name', strToFat83 name' ≠ strToFat83 name → findDirent w name' = findDirent v name' ∧ (findDirent v name' ≠ doff ∨ findDirent v name' = 0)
  ended : DirEnded w
  table : ∃ chain, TableSound w (firstOf w others) chain

theorem Fat12WellFormed.open (hlayout : Fat12Layout v) (h : Fat12WellFormed v others)
    (hfirst : (strToFat83 name).head? ≠ some 0 ∧ (strToFat83 name).head? ≠ some 0xE5)
    (hfile : findDirent v name ≠ 0 → v.disk (findDirent v name + 11) &&& fatAttrDirectory = 0) (hopen : findOrCreate v name = some (doff, w)) :
    EntryOpened v w others name doff := by
  rcases findOrCreate_cases hopen with ⟨hfound, rfl, rfl⟩ | ⟨hnone, ⟨before, behind, hslot⟩, rfl⟩
  · obtain ⟨howns, hmatch⟩ := findDirent_owns hfound
    refine ⟨⟨w.disk, rfl⟩, fun _ _ => rfl, liveDirents_subset w howns.1, howns, fun _ _ => Iff.rfl, hfile hfound, rfl, ?_, h.ended, h.table⟩
    intro name' hne
    refine ⟨rfl, ?_⟩
    by_cases hzero : findDirent w name' = 0
    · exact Or.inr hzero
    · left
      intro heq
      obtain ⟨-, hmatch'⟩ := findDirent_owns hzero
      rw [heq] at hmatch'
      exact hne ((of_decide_eq_true hmatch').symm.trans (of_decide_eq_true hmatch))
  · have hnew := newDirent_entry hlayout h.ended hslot hfirst
    refine ⟨hnew.image, hnew.outside, hnew.slot, (hnew.owns _).mpr (Or.inl rfl), ?_, ?_, hnew.found hnone, ?_, hnew.ended, ?_⟩
    · intro off hne
      rw [hnew.owns]
      simp [hne]
    · rw [hnew.attr]
      decide
    · intro name' hne
      refine ⟨hnew.others name' hne, ?_⟩
      by_cases hzero : findDirent v name' = 0
      · exact Or.inr hzero
      · left
        intro heq
        exact hnew.absent (heq ▸ (findDirent_owns hzero).1)
    · obtain ⟨chain, htable⟩ := h.table
      have hplace := rootSlot_place hlayout hnew.slot
      have hfat : fatOf (newDirent v doff name) = fatOf v := fatOf_congr hlayout hnew.image fun x hx => hnew.outside x (by omega)
      have habsent : firstOf v others (.inl doff) = none := if_neg hnew.absent
      refine ⟨chain, ?_⟩
      rw [TableSound, hfat, hnew.firstOf hlayout]
      exact htable.add habsent (show Lib.AllocTable.link fat12Eoc 0 = none by decide)

/-! ### One file and its chain -/

theorem SameNames.ended (h : SameNames v w) (hended : DirEnded v) : DirEnded w := by
  have hbyte : ∀ off ∈ rootSlots v, w.disk off = v.disk off := fun off hoff => h.entry off hoff 0 (by decide)
  intro a ha b hb hlt hzero
  rw [h.slots] at ha hb
  rw [hbyte a ha] at hzero
  rw [hbyte b hb]
  exact hended a ha b hb hlt hzero

/-- The file at `doff` has been given the chain `cs` and `len` bytes, between `v` and `w`. The clusters of `cs` were its own or free, all its other clusters are free now, and nothing else has changed. -/
structure Refilled (v w : Fat12) (others : List Nat) (doff : Nat) (chain : Nat ⊕ Nat → List Nat) (cs : List Nat) (len : Nat) : Prop where
  image : ∃ d, w = { v with disk := d }
  names : SameNames v w
  table : TableSound w (firstOf w others) (Function.update chain (.inl doff) cs)
  copies : FatCopies v.geometry w.disk
  fat : ∀ c, c ∉ chain (.inl doff) → c ∉ cs → fatOf w c = fatOf v c
  taken : ∀ c ∈ cs, c ∈ chain (.inl doff) ∨ fatOf v c = 0
  outside : ∀ x, v.geometry.rootDirOffset ≤ x → (x < doff + 26 ∨ doff + 32 ≤ x) →
    (∀ a ∈ blocksOf v.geometry cs, x < a ∨ a + clusterBytes v.geometry ≤ x) → w.disk x = v.disk x
  first : w.disk.load (doff + 26) 2 = cs.headD 0
  size : w.disk.load (doff + 28) 4 = len

/-- The chain of an entry is freed and its fields are cleared. -/
theorem truncate_entry (h : Fat12Layout v) (hcopies : FatCopies v.geometry v.disk) (howns : ownsChain v doff)
    (htable : TableSound v (firstOf v others) chain) :
    ∃ w, freeChain (fat12Eoc + 1) (v.disk.load (doff + 26) 2) v = some w ∧ Refilled v (setDirent w doff 0 0) others doff chain [] 0 := by
  have hslot := liveDirents_subset v howns.1
  have hplace := rootSlot_place h hslot
  have hfirst : firstOf v others (.inl doff) = some (v.disk.load (doff + 26) 2) := if_pos howns
  have hchain : ChainOf v (v.disk.load (doff + 26) 2) (chain (.inl doff)) := htable.chains _ _ hfirst
  obtain ⟨w, hfree, honly, hfat⟩ := freeChain_eq h hchain (Nat.lt_succ_of_le (hchain.length_le h))
  have hw := honly.layout h
  have hslotW : doff ∈ rootSlots w := by
    rw [(honly.names h).slots]
    exact hslot
  have hnames : SameNames v (setDirent w doff 0 0) := (honly.names h).trans (setDirent_names hw hslotW 0 0)
  have hzero : (setDirent w doff 0 0).disk.load (doff + 26) 2 = 0 := setDirent_first w doff 0 (by decide)
  have hfirsts : firstOf (setDirent w doff 0 0) others = Function.update (firstOf v others) (.inl doff) (some 0) := by
    rw [hnames.firstOf_update howns, hzero]
    intro off hoff hne
    rw [setDirent_other hw hslotW 0 0 off (by rwa [(honly.names h).slots]) hne]
    have hoffPlace := rootSlot_place h hoff
    exact Memory.load_congr fun x hlo hhi => honly.behind x (by omega)
  obtain ⟨d, rfl⟩ := honly.image
  refine ⟨_, hfree, ⟨_, rfl⟩, hnames, ?_, ?_, ?_, fun _ hc => absurd hc List.not_mem_nil, ?_, hzero, setDirent_size _ doff 0 (by decide)⟩
  · rw [TableSound, fatOf_setDirent hw hslotW, hfirsts]
    exact htable.release (show Lib.AllocTable.link fat12Eoc 0 = none by decide) hfat
  · apply fatCopies_congr hw (fun x hx => setDirent_apply ?_) (honly.copies hcopies)
    simp only at hx
    omega
  · intro c hc _
    rw [fatOf_setDirent hw hslotW, hfat, if_neg hc]
  · intro x hx hentry _
    rw [setDirent_apply hentry]
    exact honly.behind x hx

theorem Writing.names (h : Fat12Layout v) (hwriting : Writing v w others chain data cs) : SameNames v w := by
  refine ⟨hwriting.image, ?_⟩
  intro off hoff i hi
  have hplace := rootSlot_place h hoff
  apply hwriting.outside _ (by omega)
  intro a ha
  obtain ⟨c, -, rfl⟩ := List.mem_map.mp ha
  omega

/-- A chain holds less than 2 GiB. -/
theorem ChainOf.capacity {first : Nat} (hchain : ChainOf v first cs) (h : Fat12Layout v) (d : Memory) :
    (Lib.readBlocks (clusterBytes v.geometry) d (blocksOf v.geometry cs)).length < 2 ^ 31 := by
  have hsub : cs ⊆ List.range' 2 v.geometry.totalClusters := by
    intro c hc
    have hrange := hchain.range c hc
    rw [List.mem_range'_1]
    omega
  have hcs := (hchain.links.nodup.subperm hsub).length_le
  rw [List.length_range'] at hcs
  rw [Lib.length_readBlocks, blocksOf, List.length_map, Nat.mul_comm]
  have := Nat.mul_le_mul_right (clusterBytes v.geometry) hcs
  have := h.small
  omega

theorem Writing.head_lt (h : Fat12Layout v) (hwriting : Writing v w others chain data cs) : cs.headD 0 < 2 ^ 16 := by
  cases cs with
  | nil => decide
  | cons c cs =>
      have := (hwriting.range c List.mem_cons_self).2
      have := h.clusters
      simp only [List.headD_cons]
      omega

theorem update_handover {β : Type} (f : Nat ⊕ Nat → β) {i j : Nat ⊕ Nat} (hij : i ≠ j) (x y : β) :
    Function.update (Function.update (Function.update f i x) j y) i (f i) = Function.update f j y := by
  rw [Function.update_comm hij, Function.update_idem, Function.update_comm hij.symm, Function.update_eq_self]

/-- The chain that a write has built is put into the entry. -/
theorem Writing.store (h : Fat12Layout v) (htable : TableSound v (firstOf v others) chain) (howns : ownsChain v doff)
    (hnil : chain (.inl doff) = []) (hwriting : Writing v w others chain data cs) :
    Refilled v (setDirent w doff (cs.headD 0) data.length) others doff chain cs data.length ∧
      data <+: Lib.readBlocks (clusterBytes v.geometry) (setDirent w doff (cs.headD 0) data.length).disk (blocksOf v.geometry cs) := by
  have hslot := liveDirents_subset v howns.1
  have hplace := rootSlot_place h hslot
  have hw : Fat12Layout w := by
    obtain ⟨d, rfl⟩ := hwriting.image
    exact h.disk d
  have hnamesW := hwriting.names h
  have hslotW : doff ∈ rootSlots w := by
    rw [hnamesW.slots]
    exact hslot
  have hnames : SameNames v (setDirent w doff (cs.headD 0) data.length) := hnamesW.trans (setDirent_names hw hslotW _ _)
  have hfirst : (setDirent w doff (cs.headD 0) data.length).disk.load (doff + 26) 2 = cs.headD 0 :=
    setDirent_first w doff data.length (hwriting.head_lt h)
  have habsent : firstOf v others (.inr others.length) = none := List.getElem?_eq_none le_rfl
  have hpending : chain (.inr others.length) = [] := htable.absent _ habsent
  have hfirsts : firstOf (setDirent w doff (cs.headD 0) data.length) others =
      Function.update (Function.update (firstOf v (others ++ [cs.headD 0])) (.inl doff) (some (cs.headD 0))) (.inr others.length) none := by
    rw [hnames.firstOf_update howns, hfirst, firstOf_append, ← habsent, update_handover _ (by simp)]
    intro off hoff hne
    rw [setDirent_other hw hslotW _ _ off (by rwa [hnamesW.slots]) hne]
    have hoffPlace := rootSlot_place h hoff
    apply Memory.load_congr
    intro x hlo hhi
    apply hwriting.outside x (by omega)
    intro a ha
    obtain ⟨c, -, rfl⟩ := List.mem_map.mp ha
    omega
  have hchains : Function.update chain (.inl doff) cs = Function.update (Function.update (Function.update chain (.inr others.length) cs) (.inl doff)
      (Function.update chain (.inr others.length) cs (.inr others.length))) (.inr others.length) [] := by
    rw [Function.update_self, ← hpending, update_handover _ (by simp)]
  have hmoved := hwriting.table.move (i := .inr others.length) (j := .inl doff) (by simp)
    (by rw [firstOf_append, Function.update_self]) (by rw [Function.update_of_ne (by simp), hnil])
  rw [← hfirsts, ← hchains] at hmoved
  have hlen : data.length < 2 ^ 31 := by
    have hcapacity := hwriting.ownChain.capacity hw w.disk
    rw [hwriting.geometry] at hcapacity
    exact Nat.lt_of_le_of_lt hwriting.written.length_le hcapacity
  obtain ⟨d, rfl⟩ := hwriting.image
  refine ⟨⟨⟨_, rfl⟩, hnames, ?_, ?_, ?_, ?_, ?_, hfirst, setDirent_size _ doff _ (by omega)⟩, ?_⟩
  · rw [TableSound, fatOf_setDirent hw hslotW]
    exact hmoved
  · apply fatCopies_congr hw (fun x hx => setDirent_apply ?_) hwriting.copies
    simp only at hx
    omega
  · intro c _ hc
    rw [fatOf_setDirent hw hslotW, hwriting.fat c hc]
  · exact fun c hc => Or.inr (hwriting.free c hc)
  · intro x hx hentry hblocks
    rw [setDirent_apply hentry]
    exact hwriting.outside x hx hblocks
  · have hsame : Lib.readBlocks (clusterBytes v.geometry) (setDirent { v with disk := d } doff (cs.headD 0) data.length).disk (blocksOf v.geometry cs) =
        Lib.readBlocks (clusterBytes v.geometry) d (blocksOf v.geometry cs) := by
      apply Lib.readBlocks_congr
      intro a ha x hlo hhi
      obtain ⟨c, -, rfl⟩ := List.mem_map.mp ha
      exact setDirent_apply (by omega)
    rw [hsame]
    exact hwriting.written

theorem Refilled.geometry {len : Nat} (h : Refilled v w others doff chain cs len) : w.geometry = v.geometry := by
  obtain ⟨d, rfl⟩ := h.image
  rfl

theorem Refilled.layout {len : Nat} (h : Refilled v w others doff chain cs len) (hlayout : Fat12Layout v) : Fat12Layout w := by
  obtain ⟨d, rfl⟩ := h.image
  exact hlayout.disk d

theorem Refilled.ownChain {len : Nat} (h : Refilled v w others doff chain cs len) (howns : ownsChain v doff) :
    ChainOf w (w.disk.load (doff + 26) 2) cs := by
  have hfirst : firstOf w others (.inl doff) = some (w.disk.load (doff + 26) 2) := if_pos (h.names.owns.mpr howns)
  have := h.table.chains _ _ hfirst
  rwa [Function.update_self] at this

/-- A file that has been emptied is given a chain. -/
theorem Refilled.trans {len : Nat} (h : Refilled v w others doff chain [] 0)
    (h' : Refilled w u others doff (Function.update chain (.inl doff) []) cs len) : Refilled v u others doff chain cs len := by
  have hnil : Function.update chain (.inl doff) [] (.inl doff) = [] := Function.update_self _ _ _
  have hnot : ∀ c, c ∉ Function.update chain (.inl doff) [] (.inl doff) := by
    intro c
    rw [hnil]
    exact List.not_mem_nil
  have hgeometry := h.geometry
  have htable := h'.table
  rw [Function.update_idem] at htable
  refine ⟨?_, h.names.trans h'.names, htable, hgeometry ▸ h'.copies, ?_, ?_, ?_, h'.first, h'.size⟩
  · obtain ⟨d, rfl⟩ := h.image
    obtain ⟨d', rfl⟩ := h'.image
    exact ⟨d', rfl⟩
  · intro c hold hnew
    rw [h'.fat c (hnot c) hnew, h.fat c hold List.not_mem_nil]
  · intro c hc
    have hfree := (h'.taken c hc).resolve_left (hnot c)
    by_cases hold : c ∈ chain (.inl doff)
    · exact Or.inl hold
    · exact Or.inr (h.fat c hold List.not_mem_nil ▸ hfree)
  · intro x hx hentry hblocks
    rw [hgeometry.symm] at hblocks
    rw [h'.outside x (hgeometry ▸ hx) hentry hblocks, h.outside x hx hentry fun a ha => absurd ha List.not_mem_nil]

/-! ### Reading a file again -/

/-- A read is a read of the chain in the entry. -/
theorem fat12ReadFile_eq (h : Fat12Layout v) (hname : pathToName path ≠ []) (hfind : findDirent v (pathToName path) = doff) (hdoff : doff ≠ 0)
    (hfile : v.disk (doff + 11) &&& fatAttrDirectory = 0) (hchain : ChainOf v (v.disk.load (doff + 26) 2) cs) (max : Nat) :
    fat12ReadFile v path max =
      let dst := (Lib.readBlocks (clusterBytes v.geometry) v.disk (blocksOf v.geometry cs)).take (min (v.disk.load (doff + 28) 4) max)
      some (toInt32 dst.length, dst) := by
  have hlength := hchain.length_le h
  have hfuel : cs.length < (min (v.disk.load (doff + 28) 4) max + 1) * fat12Eoc + 1 := by
    rw [Nat.succ_mul]
    omega
  have hloop := @readLoop_eq v _ cs h hchain _ (min (v.disk.load (doff + 28) 4) max) hfuel []
  rw [List.take_nil, List.nil_append] at hloop
  simp only [fat12ReadFile, h.mounted, Bool.not_true, Bool.false_eq_true, if_false, hname, hfind, hdoff, hfile, ne_eq, not_true_eq_false, hloop,
    Option.map_some]

/-- A read depends on the lookup of the name, the entry and the chain. -/
theorem fat12ReadFile_congr (h : Fat12Layout v) (himage : ∃ d, w = { v with disk := d }) (hfind : findDirent v (pathToName path) = off)
    (hfind' : findDirent w (pathToName path) = off)
    (hsame : off ≠ 0 → (∀ i < 32, w.disk (off + i) = v.disk (off + i)) ∧
      ∃ cs, ChainOf v (v.disk.load (off + 26) 2) cs ∧ (∀ c ∈ cs, fatOf w c = fatOf v c) ∧
        ∀ a ∈ blocksOf v.geometry cs, ∀ x, a ≤ x → x < a + clusterBytes v.geometry → w.disk x = v.disk x) (max : Nat) :
    fat12ReadFile w path max = fat12ReadFile v path max := by
  have hw : Fat12Layout w := by
    obtain ⟨d, rfl⟩ := himage
    exact h.disk d
  have hgeometry : w.geometry = v.geometry := by
    obtain ⟨d, rfl⟩ := himage
    rfl
  by_cases hname : pathToName path = []
  · simp [fat12ReadFile, h.mounted, hw.mounted, hname]
  by_cases hzero : off = 0
  · simp [fat12ReadFile, h.mounted, hw.mounted, hname, hfind, hfind', hzero]
  obtain ⟨hentry, cs, hchain, hfat, hblocks⟩ := hsame hzero
  have hattr := hentry 11 (by decide)
  by_cases hfile : v.disk (off + 11) &&& fatAttrDirectory = 0
  · have hchain' : ChainOf w (w.disk.load (off + 26) 2) cs := by
      rw [ChainOf, hgeometry, Memory.load_of_agree hentry (by decide : 26 + 2 ≤ 32)]
      exact hchain.congr hfat
    rw [fat12ReadFile_eq hw hname hfind' hzero (hattr ▸ hfile) hchain', fat12ReadFile_eq h hname hfind hzero hfile hchain,
      Memory.load_of_agree hentry (by decide : 28 + 4 ≤ 32), hgeometry, Lib.readBlocks_congr hblocks]
  · simp [fat12ReadFile, h.mounted, hw.mounted, hname, hfind, hfind', hzero, hattr, hfile]

/-- The other files are read as before. -/
theorem Refilled.readFile {len : Nat} (hlayout : Fat12Layout v) (htable : TableSound v (firstOf v others) chain) (howns : ownsChain v doff)
    (h : Refilled v w others doff chain cs len) (hne : findDirent v (pathToName path) ≠ doff) (max : Nat) :
    fat12ReadFile w path max = fat12ReadFile v path max := by
  apply fat12ReadFile_congr hlayout h.image rfl (h.names.find _)
  intro hzero
  obtain ⟨hother, -⟩ := findDirent_owns hzero
  generalize findDirent v (pathToName path) = off at hne hother
  have hslot := liveDirents_subset v howns.1
  have hslot' := liveDirents_subset v hother.1
  have hplace := rootSlot_place hlayout hslot
  have hplace' := rootSlot_place hlayout hslot'
  have hapart := rootSlots_apart hlayout hslot' hslot hne
  have hfirst : firstOf v others (.inl off) = some (v.disk.load (off + 26) 2) := if_pos hother
  have hchain : ChainOf v (v.disk.load (off + 26) 2) (chain (.inl off)) := htable.chains _ _ hfirst
  have hold : (chain (.inl off)).Disjoint (chain (.inl doff)) := htable.disjoint _ _ (by simpa using hne)
  have hnew : ∀ c ∈ chain (.inl off), c ∉ cs := by
    intro c hc hcs
    rcases h.taken c hcs with hmem | hfree
    · exact hold hc hmem
    · exact htable.notMem_of_free hfree _ hc
  refine ⟨?_, chain (.inl off), hchain, ?_, ?_⟩
  · intro i hi
    apply h.outside _ (by omega) (by omega)
    intro a ha
    obtain ⟨c, -, rfl⟩ := List.mem_map.mp ha
    omega
  · exact fun c hc => h.fat c (fun hmem => hold hc hmem) (hnew c hc)
  · intro a ha x hlo hhi
    obtain ⟨c, hc, rfl⟩ := List.mem_map.mp ha
    apply h.outside x (by omega) (by omega)
    intro a' ha'
    obtain ⟨c', hc', rfl⟩ := List.mem_map.mp ha'
    have hcc : c ≠ c' := fun heq => hnew c hc (heq ▸ hc')
    have := clusters_apart v.geometry (hchain.range c hc).1 ((h.ownChain howns).range c' hc').1 hcc
    omega

/-- The file itself is read from its new chain. -/
theorem Refilled.readBack (hlayout : Fat12Layout v) (howns : ownsChain v doff) (hfile : v.disk (doff + 11) &&& fatAttrDirectory = 0)
    (h : Refilled v w others doff chain cs data.length) (hname : pathToName path ≠ []) (hfind : findDirent v (pathToName path) = doff)
    (hwritten : data <+: Lib.readBlocks (clusterBytes v.geometry) w.disk (blocksOf v.geometry cs)) {max : Nat} (hmax : data.length ≤ max) :
    fat12ReadFile w path max = some ((data.length : Int), data) := by
  have hslot := liveDirents_subset v howns.1
  have hplace := rootSlot_place hlayout hslot
  have hw := h.layout hlayout
  have hchain := h.ownChain howns
  have hattr : w.disk (doff + 11) = v.disk (doff + 11) := h.names.entry doff hslot 11 (by decide)
  have hlength : data.length < 2 ^ 31 := by
    have hcapacity := hchain.capacity hw w.disk
    rw [h.geometry] at hcapacity
    exact Nat.lt_of_le_of_lt hwritten.length_le hcapacity
  rw [fat12ReadFile_eq hw hname ((h.names.find _).trans hfind) hplace.2.2 (hattr ▸ hfile) hchain, h.size, Nat.min_eq_left hmax, h.geometry,
    ← List.prefix_iff_eq_take.mp hwritten]
  simp only [toInt32_eq_self.mpr hlength]

/-- Opening an entry leaves the files of other names alone. -/
theorem EntryOpened.readFile (hlayout : Fat12Layout v) (h : Fat12WellFormed v others) (hopened : EntryOpened v w others name doff)
    (hne : strToFat83 (pathToName path) ≠ strToFat83 name) (max : Nat) : fat12ReadFile w path max = fat12ReadFile v path max := by
  obtain ⟨hfind, hother⟩ := hopened.otherNames _ hne
  apply fat12ReadFile_congr hlayout hopened.image rfl hfind
  intro hzero
  have hdoff := hother.resolve_right hzero
  obtain ⟨howns, -⟩ := findDirent_owns hzero
  generalize findDirent v (pathToName path) = off at hdoff howns
  have hplace := rootSlot_place hlayout hopened.slot
  have hapart := rootSlots_apart hlayout (liveDirents_subset v howns.1) hopened.slot hdoff
  have hfat : fatOf w = fatOf v := fatOf_congr hlayout hopened.image fun x hx => hopened.outside x (by omega)
  have hfirst : firstOf v others (.inl off) = some (v.disk.load (off + 26) 2) := if_pos howns
  obtain ⟨chain, htable⟩ := h.table
  refine ⟨fun i hi => hopened.outside _ (by omega), chain (.inl off), htable.chains _ _ hfirst, fun c _ => by rw [hfat], ?_⟩
  intro a ha x hlo hhi
  obtain ⟨c, -, rfl⟩ := List.mem_map.mp ha
  exact hopened.outside x (by omega)

/-! ### A whole write -/

/-- What comes after the entry has been opened. -/
theorem fat12WriteFile_opened (hlayout : Fat12Layout v) (hname : pathToName path ≠ []) (hopen : findOrCreate v (pathToName path) = some (doff, w))
    (hw : Fat12Layout w) (hcopies : FatCopies w.geometry w.disk) (howns : ownsChain w doff) (htable : TableSound w (firstOf w others) chain) (data : List UInt8) :
    ∃ ret u, fat12WriteFile v path data = some (ret, u) ∧ (ret = 0 → ∃ cs, Refilled w u others doff chain cs data.length ∧
      data <+: Lib.readBlocks (clusterBytes w.geometry) u.disk (blocksOf w.geometry cs)) := by
  obtain ⟨t, hfree, hempty⟩ := truncate_entry hw hcopies howns htable
  simp only [fat12WriteFile, hlayout.mounted, Bool.not_true, Bool.false_eq_true, if_false, hname, hopen, hfree]
  by_cases hnil : data = []
  · refine ⟨0, _, if_pos hnil, fun _ => ⟨[], ?_, ?_⟩⟩
    · rw [hnil]
      exact hempty
    · rw [hnil]
      exact List.nil_prefix
  rw [if_neg hnil]
  have ht := hempty.layout hw
  have hstart := Writing.start hempty.table (hempty.geometry ▸ hempty.copies)
  obtain ⟨u, r, hloop, hresult, -⟩ := writeLoop_eq ht (le_refl data.length) hstart fun _ => rfl
  rw [List.headD_nil, List.getLastD_nil] at hloop
  rw [hloop]
  cases r with
  | none => exact ⟨-1, u, rfl, fun hret => absurd hret (by decide)⟩
  | some f =>
      refine ⟨0, _, rfl, fun _ => ?_⟩
      obtain ⟨cs, rfl, hwriting⟩ := hresult f rfl
      rw [List.nil_append] at hwriting
      obtain ⟨hstore, hwritten⟩ := hwriting.store ht hempty.table (hempty.names.owns.mpr howns) (Function.update_self _ _ _)
      exact ⟨cs, hempty.trans hstore, hempty.geometry ▸ hwritten⟩

theorem toUpper_eq {c x : UInt8} (hx : x.toNat < 65 ∨ 122 < x.toNat) (h : toUpper c = x) : c = x := by
  rw [toUpper] at h
  split at h
  · rename_i hlower
    exfalso
    simp only [UInt8.le_iff_toNat_le, UInt8.reduceToNat] at hlower
    have hsub : (c - 32).toNat = c.toNat - 32 := UInt8.toNat_sub_of_le c 32 (UInt8.le_iff_toNat_le.mpr (by simp only [UInt8.reduceToNat]; omega))
    rw [h] at hsub
    omega
  · exact h

/-- The name in an entry starts with the first character or with a space. -/
theorem strToFat83_head {x : UInt8} (hx : x.toNat < 32 ∨ 122 < x.toNat) (hname : name.head? ≠ some x) : (strToFat83 name).head? ≠ some x := by
  have hspace : (32 : UInt8) ≠ x := by
    rintro rfl
    exact absurd hx (by decide)
  cases name with
  | nil => simpa [strToFat83, padSpaces] using hspace
  | cons c name =>
      by_cases hdot : c = dot
      · simpa [strToFat83, padSpaces, hdot] using hspace
      · have hc : c ≠ x := by simpa using hname
        simpa [strToFat83, padSpaces, hdot] using fun h => hc (toUpper_eq (by omega) h)

/-- What a successful write promises, for the volume `v` before it and `w` behind it. -/
structure FileWritten (v w : Fat12) (others : List Nat) (path data : List UInt8) : Prop where
  readBack : ∀ max, data.length ≤ max → fat12ReadFile w path max = some ((data.length : Int), data)
  otherFiles : ∀ path', strToFat83 (pathToName path') ≠ strToFat83 (pathToName path) → ∀ max, fat12ReadFile w path' max = fat12ReadFile v path' max
  otherEntries : ∀ off ∈ rootSlots v, off ≠ findDirent w (pathToName path) → w.disk.bytes off 32 = v.disk.bytes off 32
  copies : FatCopies w.geometry w.disk
  wellFormed : Fat12WellFormed w others

theorem fileWritten_of_refilled (hlayout : Fat12Layout v) (h : Fat12WellFormed v others) (hname : pathToName path ≠ [])
    (hopened : EntryOpened v w others (pathToName path) doff) (htable : TableSound w (firstOf w others) chain)
    (hrefilled : Refilled w u others doff chain cs data.length)
    (hwritten : data <+: Lib.readBlocks (clusterBytes w.geometry) u.disk (blocksOf w.geometry cs)) : FileWritten v u others path data := by
  have hw : Fat12Layout w := by
    obtain ⟨d, rfl⟩ := hopened.image
    exact hlayout.disk d
  have hslots : rootSlots w = rootSlots v := by
    obtain ⟨d, rfl⟩ := hopened.image
    rfl
  have hplace := rootSlot_place hlayout hopened.slot
  have hcopies : FatCopies u.geometry u.disk := hrefilled.geometry ▸ hrefilled.copies
  refine ⟨fun max hmax => hrefilled.readBack hw hopened.owns hopened.file hname hopened.found hwritten hmax, ?_, ?_, hcopies, ?_⟩
  · intro path' hne max
    obtain ⟨hfind, hother⟩ := hopened.otherNames _ hne
    have hdoff : findDirent w (pathToName path') ≠ doff := by
      rw [hfind]
      rcases hother with hdoff | hzero
      · exact hdoff
      · rw [hzero]
        exact hplace.2.2.symm
    rw [hrefilled.readFile hw htable hopened.owns hdoff, hopened.readFile hlayout h hne]
  · intro off hoff hne
    rw [hrefilled.names.find, hopened.found] at hne
    have hoffPlace := rootSlot_place hw (hslots.symm ▸ hoff)
    have hapart := rootSlots_apart hlayout hoff hopened.slot hne
    apply Memory.bytes_congr
    intro x hlo hhi
    rw [hrefilled.outside x (by omega) (by omega), hopened.outside x (by omega)]
    intro a ha
    obtain ⟨c, -, rfl⟩ := List.mem_map.mp ha
    omega
  · exact ⟨(hrefilled.layout hw).toFat12Areas, hcopies, hrefilled.names.ended hopened.ended, _, hrefilled.table⟩

/-- A volume of four clusters with the file `B`, one byte in cluster 2. -/
def smallImage : Memory := fun x =>
  (([(11, 32), (13, 1), (14, 16), (16, 2), (17, 2), (19, 24), (22, 1), (510, 0x55), (511, 0xAA), (515, 0xFF), (516, 0x0F), (547, 0xFF), (548, 0x0F),
    (576, 66), (577, 32), (578, 32), (579, 32), (580, 32), (581, 32), (582, 32), (583, 32), (584, 32), (585, 32), (586, 32), (587, 0x20), (602, 2),
    (604, 1), (640, 7)] : List (Nat × UInt8)).lookup x).getD 0

def smallVolume : Fat12 := (fat12Init ⟨false, 0, ⟨0, 0, 0, 0, 0, 0, 0, 0, 0, 0⟩, fun _ => 0⟩ smallImage 768).2

theorem smallVolume_owner {off : Nat} (howns : ownsChain smallVolume off) : off = 576 := by
  have hlive : liveDirents smallVolume = [576] := by decide +kernel
  have := howns.1
  rw [hlive] at this
  exact List.mem_singleton.mp this

theorem smallVolume_wellFormed : Fat12WellFormed smallVolume [] := by
  have hfirst : ∀ o f, firstOf smallVolume [] o = some f → o = .inl 576 ∧ f = 2 := by
    intro o f ho
    cases o with
    | inl off =>
        rw [firstOf] at ho
        split at ho
        · rename_i howns
          obtain rfl := smallVolume_owner howns
          exact ⟨rfl, by rw [← Option.some.inj ho]; decide +kernel⟩
        · cases ho
    | inr i => cases ho
  refine ⟨by constructor <;> decide +kernel, ?_, ?_, fun o => if o = .inl 576 then [2] else [], ?_, ?_, ?_, ?_⟩
  · have : ∀ fi < 2, ∀ i < 32, smallVolume.disk (512 + fi * 32 + i) = smallVolume.disk (512 + i) := by decide +kernel
    exact this
  · have : ∀ off ∈ rootSlots smallVolume, ∀ off' ∈ rootSlots smallVolume, off < off' → smallVolume.disk off = 0 → smallVolume.disk off' = 0 := by
      decide +kernel
    exact this
  · intro o f ho
    obtain ⟨rfl, rfl⟩ := hfirst o f ho
    refine ⟨?_, ?_, ?_⟩
    · rw [if_pos rfl, Lib.Linked.isList_cons, Lib.Linked.isList_nil]
      decide +kernel
    · simp
      decide +kernel
    · simp
      decide +kernel
  · intro o ho
    rw [if_neg]
    rintro rfl
    have : firstOf smallVolume [] (.inl 576) = some 2 := by decide +kernel
    rw [this] at ho
    cases ho
  · intro o o' hne
    by_cases ho : o = .inl 576
    · have ho' : o' ≠ .inl 576 := fun h => hne (ho.trans h.symm)
      rw [if_neg ho']
      exact List.disjoint_nil_right _
    · rw [if_neg ho]
      exact List.disjoint_nil_left _
  · have hfree : ∀ c < 6, c ≠ 2 → fatOf smallVolume c = 0 := by decide +kernel
    intro c _ hc hused
    by_cases h2 : c = 2
    · exact Or.inr ⟨.inl 576, by simp [h2]⟩
    · exact absurd (hfree c hc h2) hused

end Tsukasa
