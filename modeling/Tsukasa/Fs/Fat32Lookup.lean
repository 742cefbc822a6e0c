import Tsukasa.Fs.Fat32Dir

/-!
# Lookups on a FAT32 volume

`fat32_stat` finds an entry with `iterate_dir` and `fat32_write_file` with `find_entry_raw`. On long-name entries of the standard form the two read the same names, so they stop at the same slot. The same argument compares a volume before and after a write: as long as the disks agree on everything but sizes, every lookup takes the same way.
-/

namespace Tsukasa

open Lib (Memory)

variable {g : Fat32Geometry} {sectors c start : Nat} {cs : List Nat} {v v' w w' : Fat32} {d d' : Memory} {slot : Nat × Nat}
  {slots : List (Nat × Nat)}

/-! ### Long names -/

/-- The characters of a long-name entry; behind the terminator there is padding only. -/
def LfnStandard (sec : Memory) (off : Nat) : Prop :=
  (lfnName1 sec off ++ lfnName2 sec off ++ lfnName3 sec off).Pairwise fun wc wc' => wc = 0xFFFF ∨ wc = 0 → wc' = 0xFFFF

theorem putChars_terminated {pos : Int} {wcs : List Nat} {l l' : LfnState} (h : putChars pos wcs l = some (true, l')) :
    ∃ wc ∈ wcs, wc = 0xFFFF ∨ wc = 0 := by
  induction wcs generalizing pos l with
  | nil => cases h
  | cons wc wcs ih =>
      rw [putChars] at h
      split at h
      · split at h
        · exact ⟨wc, List.mem_cons_self, ‹_›⟩
        · obtain ⟨l₁, -, hrest⟩ := Option.bind_eq_some_iff.mp h
          obtain ⟨wc', hmem, hterm⟩ := ih hrest
          exact ⟨wc', List.mem_cons_of_mem wc hmem, hterm⟩
      · cases h

/-- A part that starts with a terminator, or that lies behind the buffer, stores nothing. -/
theorem putChars_padding (pos : Int) (l : LfnState) {wcs : List Nat} (h : ∀ wc ∈ wcs, wc = 0xFFFF) :
    ∃ terminated, putChars pos wcs l = some (terminated, l) := by
  cases wcs with
  | nil => exact ⟨false, rfl⟩
  | cons wc wcs =>
      rw [putChars, if_pos (Or.inl (h wc List.mem_cons_self))]
      split
      · exact ⟨true, rfl⟩
      · exact ⟨false, rfl⟩

/-- The two scanners treat a long-name entry of the standard form alike. -/
theorem iterateLfn_eq_findLfn {sec : Memory} {off : Nat} (h : LfnStandard sec off) (l : LfnState) : iterateLfn sec off l = findLfn sec off l := by
  rw [LfnStandard, List.pairwise_append] at h
  obtain ⟨hfront, -, hback⟩ := h
  obtain ⟨-, -, hfront⟩ := List.pairwise_append.mp hfront
  simp only [iterateLfn, findLfn]
  cases h1 : putChars (lfnOffset (sec off)) (lfnName1 sec off) l with
  | none => rfl
  | some r1 =>
      cases r1 with
      | mk terminated l1 =>
          cases terminated with
          | true =>
              obtain ⟨wc, hwc, hterm⟩ := putChars_terminated h1
              have h2 : ∀ wc' ∈ lfnName2 sec off, wc' = 0xFFFF := fun wc' hwc' => hfront wc hwc wc' hwc' hterm
              have h3 : ∀ wc' ∈ lfnName3 sec off, wc' = 0xFFFF := fun wc' hwc' => hback wc (List.mem_append_left _ hwc) wc' hwc' hterm
              obtain ⟨t2, hput2⟩ := putChars_padding (lfnOffset (sec off) + 5) l1 h2
              obtain ⟨t3, hput3⟩ := putChars_padding (lfnOffset (sec off) + 11) l1 h3
              simp only [Option.bind_some, if_true, hput2, hput3]
          | false =>
              simp only [Option.bind_some, if_false, Bool.false_eq_true]
              cases h2 : putChars (lfnOffset (sec off) + 5) (lfnName2 sec off) l1 with
              | none => rfl
              | some r2 =>
                  cases r2 with
                  | mk terminated l2 =>
                      cases terminated with
                      | true =>
                          obtain ⟨wc, hwc, hterm⟩ := putChars_terminated h2
                          have h3 : ∀ wc' ∈ lfnName3 sec off, wc' = 0xFFFF :=
                            fun wc' hwc' => hback wc (List.mem_append_right _ hwc) wc' hwc' hterm
                          obtain ⟨t3, hput3⟩ := putChars_padding (lfnOffset (sec off) + 11) l2 h3
                          simp only [Option.bind_some, if_true, hput3]
                      | false => simp only [Option.bind_some, if_false, Bool.false_eq_true]

/-! ### Disks that agree on a directory -/

/-- The disks hold the same in a slot, except for the size of an entry. -/
structure SlotAgree (d d' : Memory) (slot : Nat × Nat) : Prop where
  front : ∀ i < 28, ataReadSector d' slot.1 (slot.2 + i) = ataReadSector d slot.1 (slot.2 + i)
  lfn : (slotEntry d slot).attr = attrLfn → ∀ i < 32, ataReadSector d' slot.1 (slot.2 + i) = ataReadSector d slot.1 (slot.2 + i)

theorem SlotAgree.refl (d : Memory) (slot : Nat × Nat) : SlotAgree d d slot := ⟨fun _ _ => rfl, fun _ _ _ => rfl⟩

theorem SlotAgree.first (h : SlotAgree d d' slot) : slotFirst d' slot = slotFirst d slot := h.front 0 (by decide)

theorem SlotAgree.attr (h : SlotAgree d d' slot) : (slotEntry d' slot).attr = (slotEntry d slot).attr := h.front 11 (by decide)

theorem SlotAgree.name (h : SlotAgree d d' slot) : (slotEntry d' slot).name = (slotEntry d slot).name := by
  apply Memory.bytes_congr
  intro x hlo hhi
  have hx := h.front (x - slot.2) (by omega)
  rwa [Nat.add_sub_cancel' hlo] at hx

theorem SlotAgree.firstCluster (h : SlotAgree d d' slot) : (slotEntry d' slot).firstCluster = (slotEntry d slot).firstCluster := by
  simp only [DirEntry.firstCluster, slotEntry, dirEntryAt]
  rw [Memory.load_of_agree h.front (by decide : 20 + 2 ≤ 28), Memory.load_of_agree h.front (by decide : 26 + 2 ≤ 28)]

theorem wideChars_congr {sec sec' : Memory} {off : Nat} (h : ∀ i < 32, sec' (off + i) = sec (off + i)) {a n : Nat} (hin : a + 2 * n ≤ 32) :
    wideChars sec' (off + a) n = wideChars sec (off + a) n := by
  apply List.map_congr_left
  intro k hk
  have := List.mem_range.mp hk
  rw [Nat.add_assoc, Memory.load_of_agree h (by omega)]

theorem lfn_congr {sec sec' : Memory} {off : Nat} (h : ∀ i < 32, sec' (off + i) = sec (off + i)) (l : LfnState) :
    iterateLfn sec' off l = iterateLfn sec off l := by
  have hfirst : sec' off = sec off := h 0 (by decide)
  have h1 : lfnName1 sec' off = lfnName1 sec off := wideChars_congr h (by decide)
  have h2 : lfnName2 sec' off = lfnName2 sec off := wideChars_congr h (by decide)
  have h3 : lfnName3 sec' off = lfnName3 sec off := wideChars_congr h (by decide)
  rw [iterateLfn, iterateLfn, hfirst, h1, h2, h3]

/-! ### A lookup -/

/-- A visit that stops at the first entry that `p` accepts and hands it on through `f`. -/
def lookup {α : Type} (p : UInt8 → List UInt8 → Bool) (f : DirEntry → Nat → Nat → List UInt8 → α) :
    DirEntry → Nat → Nat → List UInt8 → Option α → Option α × Bool :=
  fun e lba off name ctx => if p e.attr name then (some (f e lba off name), true) else (ctx, false)

/-- What two lookups of the same entry have found: nothing, or one slot. -/
def FoundBoth {α β : Type} (d d' : Memory) (slots : List (Nat × Nat)) (p : UInt8 → List UInt8 → Bool)
    (f : DirEntry → Nat → Nat → List UInt8 → α) (f' : DirEntry → Nat → Nat → List UInt8 → β) (a : Option α) (b : Option β) : Prop :=
  (a = none ∧ b = none) ∨
  ∃ slot ∈ liveSlots d slots, Shown d slot ∧ ∃ name, p (slotEntry d slot).attr name = true ∧
    a = some (f (slotEntry d slot) slot.1 slot.2 name) ∧ b = some (f' (slotEntry d' slot) slot.1 slot.2 name)

/-- A scan that is over: the state behind it, which differs in the scratch sector only, and the context. -/
def BothScans {α β : Type} (v w : Fat32) (R : α → β → Prop) : Option (Fat32 × α) → Option (Fat32 × β) → Prop :=
  Option.Rel fun r r' => v.Buffered r.1 ∧ w.Buffered r'.1 ∧ R r.2 r'.2

theorem lookup_scans {α β : Type} {lfn lfn' : Memory → Nat → LfnState → Option LfnState} {p : UInt8 → List UInt8 → Bool}
    {f : DirEntry → Nat → Nat → List UInt8 → α} {f' : DirEntry → Nat → Nat → List UInt8 → β}
    (hv : v.geometry.Ok sectors) (hw : w.geometry = v.geometry) (hspc : 0 < v.geometry.sectorsPerCluster)
    (hchain : FatChain v.geometry v.disk sectors start cs) (hfat : ∀ c ∈ cs, fatEntry v.geometry w.disk c = fatEntry v.geometry v.disk c)
    (hagree : ∀ slot ∈ dirSlots v.geometry cs, SlotAgree v.disk w.disk slot)
    (hlfn : ∀ slot ∈ liveSlots v.disk (dirSlots v.geometry cs), slotFirst v.disk slot ≠ 0xE5 → (slotEntry v.disk slot).attr = attrLfn →
      ∀ l, lfn' (ataReadSector w.disk slot.1) slot.2 l = lfn (ataReadSector v.disk slot.1) slot.2 l) :
    BothScans v w (FoundBoth v.disk w.disk (dirSlots v.geometry cs) p f f')
      (scanClusters ⟨lfn, lookup p f⟩ fat32Fuel start v .empty none) (scanClusters ⟨lfn', lookup p f'⟩ fat32Fuel start w .empty none) := by
  have hsim : ∀ slot ∈ liveSlots v.disk (dirSlots v.geometry cs),
      SlotSim ⟨lfn, lookup p f⟩ ⟨lfn', lookup p f'⟩ (FoundBoth v.disk w.disk (dirSlots v.geometry cs) p f f') v.disk w.disk slot := by
    intro slot hslot
    have hsame := hagree slot ((List.takeWhile_sublist _).subset hslot)
    refine ⟨hsame.first, hsame.attr, hsame.name, hlfn slot hslot, ?_⟩
    intro hshown name a b hab
    simp only [lookup, hsame.attr]
    by_cases hp : p (slotEntry v.disk slot).attr name = true
    · rw [if_pos hp, if_pos hp]
      exact ⟨rfl, Or.inr ⟨slot, hslot, hshown, name, hp, rfl, rfl⟩⟩
    · rw [if_neg hp, if_neg hp]
      exact ⟨rfl, hab⟩
  have hchain' : FatChain w.geometry w.disk sectors start cs := by
    rw [hw]
    exact hchain.congr hfat
  have hwok : w.geometry.Ok sectors := by rwa [hw]
  obtain ⟨v', hv', heq⟩ := @scanClusters_eq sectors start cs v _ ⟨lfn, lookup p f⟩ .empty none hv hspc hchain _ hchain.length_lt
  obtain ⟨w', hw', heq'⟩ := @scanClusters_eq sectors start cs w _ ⟨lfn', lookup p f'⟩ .empty none hwok (by rwa [hw]) hchain' _ hchain'.length_lt
  rw [heq, heq', hw]
  have hrel := @scanSlots_sim v.disk w.disk _ _ ⟨lfn, lookup p f⟩ .empty ⟨lfn', lookup p f'⟩ _ none none _
    (fun slot hslot => (hagree slot hslot).first) hsim (Or.inl ⟨rfl, rfl⟩)
  revert hrel
  cases scanSlots ⟨lfn, lookup p f⟩ v.disk (dirSlots v.geometry cs) .empty none with
  | none =>
      cases scanSlots ⟨lfn', lookup p f'⟩ w.disk (dirSlots v.geometry cs) .empty none with
      | none => exact fun _ => .none
      | some r' => exact fun hrel => by cases hrel
  | some r =>
      cases scanSlots ⟨lfn', lookup p f'⟩ w.disk (dirSlots v.geometry cs) .empty none with
      | none => exact fun hrel => by cases hrel
      | some r' =>
          rintro (hrel | -)
          exact .some ⟨hv', hw', hrel.ctxRel⟩

/-! ### Well-formed volumes -/

/-- The first clusters of the directories a path can lead to. -/
inductive DirReach (g : Fat32Geometry) (d : Memory) (sectors : Nat) : Nat → Prop where
  | root : DirReach g d sectors g.rootCluster
  | child {c : Nat} {cs : List Nat} {slot : Nat × Nat} : DirReach g d sectors c → FatChain g d sectors c cs →
      slot ∈ liveSlots d (dirSlots g cs) → Shown d slot → (slotEntry d slot).attr &&& attrDir ≠ 0 →
      DirReach g d sectors (if (slotEntry d slot).firstCluster = 0 then g.rootCluster else (slotEntry d slot).firstCluster)

/-- A slot before the end of one of these directories. -/
def VolumeSlot (g : Fat32Geometry) (d : Memory) (sectors : Nat) (slot : Nat × Nat) : Prop :=
  ∃ c cs, DirReach g d sectors c ∧ FatChain g d sectors c cs ∧ slot ∈ liveSlots d (dirSlots g cs)

/-- The chain of a file; an empty file may have none. -/
def FileChain (g : Fat32Geometry) (d : Memory) (sectors first : Nat) (cs : List Nat) : Prop :=
  (first = 0 ∧ cs = []) ∨ FatChain g d sectors first cs

/-- A slot that holds a regular file. -/
structure FileSlot (g : Fat32Geometry) (d : Memory) (sectors : Nat) (slot : Nat × Nat) : Prop where
  volume : VolumeSlot g d sectors slot
  shown : Shown d slot
  file : (slotEntry d slot).attr &&& attrDir = 0

def chainBytes (g : Fat32Geometry) (cs : List Nat) : Nat := 512 * (g.sectorsPerCluster * cs.length)

/-- A well-formed volume of `sectors` sectors. Every directory has a chain, every file a chain that holds it and that shares no cluster with a directory, and the long-name entries have the standard form. -/
structure Fat32WellFormed (g : Fat32Geometry) (d : Memory) (sectors : Nat) : Prop where
  geometry : g.Ok sectors
  cluster : 0 < g.sectorsPerCluster
  dirs : ∀ c, DirReach g d sectors c → ∃ cs, FatChain g d sectors c cs
  lfn : ∀ slot, VolumeSlot g d sectors slot → slotFirst d slot ≠ 0xE5 → (slotEntry d slot).attr = attrLfn →
    LfnStandard (ataReadSector d slot.1) slot.2
  files : ∀ slot, FileSlot g d sectors slot → ∃ cs, FileChain g d sectors (slotEntry d slot).firstCluster cs ∧
    (slotEntry d slot).fileSize ≤ chainBytes g cs
  apart : ∀ slot cs c dir, FileSlot g d sectors slot → FileChain g d sectors (slotEntry d slot).firstCluster cs → DirReach g d sectors c →
    FatChain g d sectors c dir → cs.Disjoint dir

/-- `w` has the volume of `v` with other sizes and other file contents: its directories read the same. -/
structure SameDirs (sectors : Nat) (v w : Fat32) : Prop where
  wellFormed : Fat32WellFormed v.geometry v.disk sectors
  ready : w.ready = v.ready
  geometry : w.geometry = v.geometry
  fat : ∀ c cs, DirReach v.geometry v.disk sectors c → FatChain v.geometry v.disk sectors c cs →
    ∀ x ∈ cs, fatEntry v.geometry w.disk x = fatEntry v.geometry v.disk x
  slots : ∀ c cs, DirReach v.geometry v.disk sectors c → FatChain v.geometry v.disk sectors c cs →
    ∀ slot ∈ dirSlots v.geometry cs, SlotAgree v.disk w.disk slot

theorem SameDirs.refl (h : Fat32WellFormed v.geometry v.disk sectors) : SameDirs sectors v v :=
  ⟨h, rfl, rfl, fun _ _ _ _ _ _ => rfl, fun _ _ _ _ slot _ => SlotAgree.refl v.disk slot⟩

theorem SameDirs.buffered (h : SameDirs sectors v w) (hv : v.Buffered v') (hw : w.Buffered w') : SameDirs sectors v' w' := by
  obtain ⟨sec, rfl⟩ := hv
  obtain ⟨sec', rfl⟩ := hw
  exact ⟨h.wellFormed, h.ready, h.geometry, h.fat, h.slots⟩

theorem BothScans.buffered {α β : Type} {R : α → β → Prop} {r : Option (Fat32 × α)} {r' : Option (Fat32 × β)} (hv : v.Buffered v')
    (hw : w.Buffered w') (h : BothScans v' w' R r r') : BothScans v w R r r' := by
  cases h with
  | none => exact .none
  | some h => exact .some ⟨hv.trans h.1, hw.trans h.2.1, h.2.2⟩

theorem BothScans.imp {α β : Type} {R S : α → β → Prop} {r : Option (Fat32 × α)} {r' : Option (Fat32 × β)} (h : BothScans v w R r r')
    (himp : ∀ a b, R a b → S a b) : BothScans v w S r r' := by
  cases h with
  | none => exact .none
  | some h => exact .some ⟨h.1, h.2.1, himp _ _ h.2.2⟩

theorem BothScans.cases {α β : Type} {R : α → β → Prop} {r : Option (Fat32 × α)} {r' : Option (Fat32 × β)} (h : BothScans v w R r r') :
    (r = none ∧ r' = none) ∨ ∃ v' a w' b, r = some (v', a) ∧ r' = some (w', b) ∧ v.Buffered v' ∧ w.Buffered w' ∧ R a b := by
  cases h with
  | none => exact Or.inl ⟨rfl, rfl⟩
  | some h => exact Or.inr ⟨_, _, _, _, rfl, rfl, h⟩

section lookups

variable {α β : Type} {p : UInt8 → List UInt8 → Bool} {f : DirEntry → Nat → Nat → List UInt8 → α} {f' : DirEntry → Nat → Nat → List UInt8 → β}

/-- What two lookups in a directory of the volume have found. -/
def FoundIn (sectors : Nat) (v w : Fat32) (p : UInt8 → List UInt8 → Bool) (f : DirEntry → Nat → Nat → List UInt8 → α)
    (f' : DirEntry → Nat → Nat → List UInt8 → β) (a : Option α) (b : Option β) : Prop :=
  (a = none ∧ b = none) ∨
  ∃ slot, VolumeSlot v.geometry v.disk sectors slot ∧ Shown v.disk slot ∧ SlotAgree v.disk w.disk slot ∧
    ∃ name, p (slotEntry v.disk slot).attr name = true ∧
      a = some (f (slotEntry v.disk slot) slot.1 slot.2 name) ∧ b = some (f' (slotEntry w.disk slot) slot.1 slot.2 name)

theorem FoundBoth.foundIn (h : SameDirs sectors v w) (hc : DirReach v.geometry v.disk sectors c)
    (hchain : FatChain v.geometry v.disk sectors c cs) {a : Option α} {b : Option β}
    (hfound : FoundBoth v.disk w.disk (dirSlots v.geometry cs) p f f' a b) : FoundIn sectors v w p f f' a b := by
  apply hfound.imp id
  rintro ⟨slot, hlive, hshown, name, hp, ha, hb⟩
  exact ⟨slot, ⟨c, cs, hc, hchain, hlive⟩, hshown, h.slots c cs hc hchain slot ((List.takeWhile_sublist _).subset hlive), name, hp, ha, hb⟩

theorem SameDirs.scan {lfn : Memory → Nat → LfnState → Option LfnState} (h : SameDirs sectors v w) (hc : DirReach v.geometry v.disk sectors c)
    (hlfn : ∀ slot, VolumeSlot v.geometry v.disk sectors slot → slotFirst v.disk slot ≠ 0xE5 → (slotEntry v.disk slot).attr = attrLfn →
      ∀ l, iterateLfn (ataReadSector v.disk slot.1) slot.2 l = lfn (ataReadSector v.disk slot.1) slot.2 l) :
    BothScans v w (FoundIn sectors v w p f f')
      (scanClusters ⟨lfn, lookup p f⟩ fat32Fuel c v .empty none) (scanClusters ⟨iterateLfn, lookup p f'⟩ fat32Fuel c w .empty none) := by
  obtain ⟨cs, hchain⟩ := h.wellFormed.dirs c hc
  refine (lookup_scans h.wellFormed.geometry h.geometry h.wellFormed.cluster hchain (h.fat c cs hc hchain) (h.slots c cs hc hchain) ?_).imp
    fun a b hfound => hfound.foundIn h hc hchain
  intro slot hlive hdeleted hattr l
  have hsame := h.slots c cs hc hchain slot ((List.takeWhile_sublist _).subset hlive)
  rw [lfn_congr (hsame.lfn hattr), hlfn slot ⟨c, cs, hc, hchain, hlive⟩ hdeleted hattr l]

/-- `iterate_dir` on both volumes. -/
theorem SameDirs.iterate (h : SameDirs sectors v w) (hc : DirReach v.geometry v.disk sectors c) :
    BothScans v w (FoundIn sectors v w p f f') (scanClusters ⟨iterateLfn, lookup p f⟩ fat32Fuel c v .empty none)
      (scanClusters ⟨iterateLfn, lookup p f'⟩ fat32Fuel c w .empty none) :=
  h.scan hc fun _ _ _ _ _ => rfl

/-- `find_entry_raw` on the one volume and `iterate_dir` on the other. -/
theorem SameDirs.raw (h : SameDirs sectors v w) (hc : DirReach v.geometry v.disk sectors c) :
    BothScans v w (FoundIn sectors v w p f f') (scanClusters ⟨findLfn, lookup p f⟩ fat32Fuel c v .empty none)
      (scanClusters ⟨iterateLfn, lookup p f'⟩ fat32Fuel c w .empty none) := by
  apply h.scan hc
  intro slot hslot hdeleted hattr l
  exact iterateLfn_eq_findLfn (h.wellFormed.lfn slot hslot hdeleted hattr) l

end lookups

/-! ### The lookups of the driver -/

def nameIs (target : List UInt8) : UInt8 → List UInt8 → Bool := fun _ name => kStrncmpi fat32NameMax name target = 0

def dirNamed (target : List UInt8) : UInt8 → List UInt8 → Bool := fun attr name =>
  attr &&& attrDir ≠ 0 ∧ kStrncmpi fat32NameMax name target = 0

def direntOf (e : DirEntry) (name : List UInt8) : Fat32Dirent :=
  ⟨kStrcpy name fat32NameMax, e.fileSize, e.attr &&& attrDir ≠ 0, e.firstCluster⟩

theorem iterateDir_statCb (v : Fat32) (c : Nat) (leaf : List UInt8) :
    iterateDir v c (statCb leaf) none =
      scanClusters ⟨iterateLfn, lookup (nameIs leaf) fun e _ _ name => direntOf e name⟩ fat32Fuel c v .empty none := by
  rw [iterateDir]
  congr 2
  funext e lba off name ctx
  simp only [statCb, lookup, nameIs, direntOf, decide_eq_true_eq]

theorem iterateDir_findDirCb (v : Fat32) (c root : Nat) (comp : List UInt8) :
    iterateDir v c (findDirCb root comp) none =
      scanClusters ⟨iterateLfn, lookup (dirNamed comp) fun e _ _ _ => if e.firstCluster = 0 then root else e.firstCluster⟩ fat32Fuel c v
        .empty none := by
  rw [iterateDir]
  congr 2
  funext e lba off name ctx
  simp only [findDirCb, lookup, dirNamed, decide_eq_true_eq]

theorem findEntryRaw_eq (v : Fat32) (c : Nat) (leaf : List UInt8) :
    findEntryRaw v c leaf = scanClusters ⟨findLfn, lookup (nameIs leaf) fun e lba off _ => ⟨e, lba, off⟩⟩ fat32Fuel c v .empty none := by
  rw [findEntryRaw]
  congr 2
  funext e lba off name ctx
  simp only [lookup, nameIs, decide_eq_true_eq, ite_not]

/-- Both volumes lead down the same directories. -/
theorem SameDirs.walk (h : SameDirs sectors v w) (hc : DirReach v.geometry v.disk sectors c) (comps : List (List UInt8)) :
    BothScans v w (fun a b => b = a ∧ (a = 0 ∨ DirReach v.geometry v.disk sectors a)) (walkDirs comps v c) (walkDirs comps w c) := by
  induction comps generalizing v w c with
  | nil => exact .some ⟨Fat32.Buffered.refl v, Fat32.Buffered.refl w, rfl, Or.inr hc⟩
  | cons comp comps ih =>
      have hscan : BothScans v w
          (FoundIn sectors v w (dirNamed comp) (fun e _ _ _ => if e.firstCluster = 0 then v.geometry.rootCluster else e.firstCluster)
            fun e _ _ _ => if e.firstCluster = 0 then w.geometry.rootCluster else e.firstCluster) _ _ := h.iterate hc
      rw [← iterateDir_findDirCb, ← iterateDir_findDirCb] at hscan
      rw [walkDirs, walkDirs]
      rcases hscan.cases with ⟨hr, hr'⟩ | ⟨v', a, w', b, hr, hr', hv, hw, hfound⟩
      · rw [hr, hr']
        exact .none
      rw [hr, hr']
      rcases hfound with ⟨rfl, rfl⟩ | ⟨slot, ⟨dir, cs, hdir, hchain, hlive⟩, hshown, hsame, name, hp, rfl, rfl⟩
      · exact .some ⟨hv, hw, rfl, Or.inl rfl⟩
      · have hattr : (slotEntry v.disk slot).attr &&& attrDir ≠ 0 := (of_decide_eq_true hp).1
        have hchild := DirReach.child hdir hchain hlive hshown hattr
        simp only [hsame.firstCluster, h.geometry]
        refine ((ih (h.buffered hv hw) ?_).buffered hv hw).imp ?_
        · obtain ⟨sec, rfl⟩ := hv
          exact hchild
        · obtain ⟨sec, rfl⟩ := hv
          exact fun a b hab => hab

theorem SameDirs.resolveParent (h : SameDirs sectors v w) (path : List UInt8) :
    BothScans v w (fun a b => b = a ∧ (a.1 = 0 ∨ DirReach v.geometry v.disk sectors a.1)) (resolveParent v path) (resolveParent w path) := by
  rw [Tsukasa.resolveParent, Tsukasa.resolveParent]
  cases (pathComponents 32 path).getLast? with
  | none => exact .some ⟨Fat32.Buffered.refl v, Fat32.Buffered.refl w, by rw [h.geometry], Or.inr .root⟩
  | some leaf =>
      have hwalk := h.walk .root (pathComponents 32 path).dropLast
      simp only [h.geometry]
      rcases hwalk.cases with ⟨hr, hr'⟩ | ⟨v', a, w', b, hr, hr', hv, hw, rfl, hreach⟩
      · rw [hr, hr']
        exact .none
      · rw [hr, hr']
        exact .some ⟨hv, hw, rfl, hreach⟩

end Tsukasa
