import Tsukasa.Fs.Fat12Table
import Mathlib.Data.List.Find
import Mathlib.Data.List.TakeWhile

/-!
# The root directory of a FAT12 volume

The owners of chains are the entries that `find_dirent` compares with a name, and the files in subdirectories, which the driver does not reach and which are given by their first clusters. A write either changes the last six bytes of one entry, and then every lookup goes as before, or puts a new entry into the first slot that is free, and then only the lookup of its own name changes.
-/

namespace Tsukasa

open Lib (Memory)

variable {v v' : Fat12} {off off' : Nat} {name name' : List UInt8} {others : List Nat}

theorem takeWhile_congr {p q : Nat → Bool} {l : List Nat} (h : ∀ x ∈ l, p x = q x) : l.takeWhile p = l.takeWhile q := by
  induction l with
  | nil => rfl
  | cons x l ih =>
      rw [List.takeWhile_cons, List.takeWhile_cons, h x List.mem_cons_self, ih fun y hy => h y (List.mem_cons_of_mem x hy)]

/-! ### Slots and owners -/

/-- The slots before the end of the directory. -/
def liveDirents (v : Fat12) : List Nat := (rootSlots v).takeWhile fun off => v.disk off ≠ 0

/-- The entry in this slot owns a chain. -/
def ownsChain (v : Fat12) (off : Nat) : Prop := off ∈ liveDirents v ∧ direntShown v off = true

instance (v : Fat12) (off : Nat) : Decidable (ownsChain v off) := inferInstanceAs (Decidable (_ ∧ _))

/-- The first cluster of an owner: an entry of the root directory, or a file in a subdirectory. -/
def firstOf (v : Fat12) (others : List Nat) : Nat ⊕ Nat → Option Nat
  | .inl off => if ownsChain v off then some (v.disk.load (off + 26) 2) else none
  | .inr i => others[i]?

theorem Fat12Layout.root_end (h : Fat12Layout v) : v.geometry.rootDirOffset + v.geometry.rootEntryCnt * 32 < 2 ^ 32 := by
  have := h.data
  have := h.small
  omega

theorem mem_rootSlots (h : Fat12Layout v) : off ∈ rootSlots v ↔ ∃ i < v.geometry.rootEntryCnt, off = v.geometry.rootDirOffset + i * 32 := by
  have hall : ∀ off ∈ (List.range v.geometry.rootEntryCnt).map fun i => v.geometry.rootDirOffset + i * 32, decide (off + 32 ≤ v.size) = true := by
    intro off hoff
    obtain ⟨i, hi, rfl⟩ := List.mem_map.mp hoff
    have := List.mem_range.mp hi
    have := h.data
    have := h.image
    exact decide_eq_true (by omega)
  rw [rootSlots, if_pos h.root_end, List.takeWhile_eq_self_iff.mpr hall, List.mem_map]
  constructor
  · rintro ⟨i, hi, rfl⟩
    exact ⟨i, List.mem_range.mp hi, rfl⟩
  · rintro ⟨i, hi, rfl⟩
    exact ⟨i, List.mem_range.mpr hi, rfl⟩

/-- A slot lies between the FATs and the data area. -/
theorem rootSlot_place (h : Fat12Layout v) (hoff : off ∈ rootSlots v) :
    v.geometry.rootDirOffset ≤ off ∧ off + 32 ≤ v.geometry.dataOffset ∧ off ≠ 0 := by
  obtain ⟨i, hi, rfl⟩ := (mem_rootSlots h).mp hoff
  have := h.data
  have := h.root
  have hroom := h.room
  have hfats := Nat.mul_le_mul_right (fatBytes v.geometry) h.fats
  omega

/-- Two slots do not overlap. -/
theorem rootSlots_apart (h : Fat12Layout v) (hoff : off ∈ rootSlots v) (hoff' : off' ∈ rootSlots v) (hne : off ≠ off') :
    off + 32 ≤ off' ∨ off' + 32 ≤ off := by
  obtain ⟨i, -, rfl⟩ := (mem_rootSlots h).mp hoff
  obtain ⟨j, -, rfl⟩ := (mem_rootSlots h).mp hoff'
  omega

theorem rootSlots_sorted (v : Fat12) : (rootSlots v).Pairwise (· < ·) := by
  rw [rootSlots]
  split
  · apply List.Pairwise.sublist (List.takeWhile_sublist _)
    rw [List.pairwise_map]
    apply List.pairwise_lt_range.imp
    intro i j hij
    omega
  · exact List.Pairwise.nil

/-! ### The same names -/

/-- The same slots with the same names and attributes. -/
structure SameNames (v v' : Fat12) : Prop where
  image : ∃ d, v' = { v with disk := d }
  entry : ∀ off ∈ rootSlots v, ∀ i < 12, v'.disk (off + i) = v.disk (off + i)

theorem SameNames.trans {v'' : Fat12} (h : SameNames v v') (h' : SameNames v' v'') : SameNames v v'' := by
  obtain ⟨⟨d, rfl⟩, hentry⟩ := h
  obtain ⟨⟨d', rfl⟩, hentry'⟩ := h'
  exact ⟨⟨d', rfl⟩, fun off hoff i hi => (hentry' off hoff i hi).trans (hentry off hoff i hi)⟩

theorem SameNames.slots (h : SameNames v v') : rootSlots v' = rootSlots v := by
  obtain ⟨d, rfl⟩ := h.image
  rfl

theorem SameNames.live (h : SameNames v v') : liveDirents v' = liveDirents v := by
  rw [liveDirents, liveDirents, h.slots]
  apply takeWhile_congr
  intro off hoff
  rw [← Nat.add_zero off, h.entry off hoff 0 (by decide)]

theorem SameNames.shown (h : SameNames v v') (hoff : off ∈ rootSlots v) : direntShown v' off = direntShown v off := by
  have hfirst := h.entry off hoff 0 (by decide)
  have hattr := h.entry off hoff 11 (by decide)
  rw [Nat.add_zero] at hfirst
  rw [direntShown, direntShown, hfirst, hattr]

theorem SameNames.bytes (h : SameNames v v') (hoff : off ∈ rootSlots v) : v'.disk.bytes off 11 = v.disk.bytes off 11 := by
  apply List.map_congr_left
  intro i hi
  exact h.entry off hoff i (by have := List.mem_range.mp hi; omega)

theorem SameNames.fat83Match (h : SameNames v v') (hoff : off ∈ rootSlots v) (name : List UInt8) : fat83Match v' off name = fat83Match v off name := by
  rw [Tsukasa.fat83Match, Tsukasa.fat83Match, h.bytes hoff]

theorem liveDirents_subset (v : Fat12) : liveDirents v ⊆ rootSlots v := (List.takeWhile_sublist _).subset

/-- The lookup of a name. -/
theorem SameNames.find (h : SameNames v v') (name : List UInt8) : findDirent v' name = findDirent v name := by
  have hlive := h.live
  rw [liveDirents, liveDirents] at hlive
  rw [findDirent, findDirent, hlive]
  congr 1
  apply List.find?_congr
  intro off hoff
  have hslot := liveDirents_subset v hoff
  rw [h.shown hslot, h.fat83Match hslot]

theorem SameNames.owns (h : SameNames v v') : ownsChain v' off ↔ ownsChain v off := by
  rw [ownsChain, ownsChain, h.live]
  constructor
  · rintro ⟨hlive, hshown⟩
    exact ⟨hlive, by rwa [← h.shown (liveDirents_subset v hlive)]⟩
  · rintro ⟨hlive, hshown⟩
    exact ⟨hlive, by rwa [h.shown (liveDirents_subset v hlive)]⟩

/-- A change of the first cluster of one entry only. -/
theorem SameNames.firstOf_update (h : SameNames v v') (howns : ownsChain v off)
    (hother : ∀ off' ∈ rootSlots v, off' ≠ off → v'.disk.load (off' + 26) 2 = v.disk.load (off' + 26) 2) :
    firstOf v' others = Function.update (firstOf v others) (.inl off) (some (v'.disk.load (off + 26) 2)) := by
  funext o
  cases o with
  | inl off' =>
      by_cases heq : off' = off
      · rw [heq, Function.update_self, firstOf, if_pos (h.owns.mpr howns)]
      · rw [Function.update_of_ne (by simpa using heq), firstOf, firstOf]
        by_cases howns' : ownsChain v off'
        · rw [if_pos howns', if_pos (h.owns.mpr howns'), hother off' (liveDirents_subset v howns'.1) heq]
        · rw [if_neg howns', if_neg fun h' => howns' (h.owns.mp h')]
  | inr i =>
      rw [Function.update_of_ne (by simp)]
      rfl

theorem findDirent_owns (hfind : findDirent v name ≠ 0) :
    ownsChain v (findDirent v name) ∧ fat83Match v (findDirent v name) name = true := by
  rw [findDirent] at hfind ⊢
  cases hfound : ((rootSlots v).takeWhile fun off => v.disk off ≠ 0).find? fun off => direntShown v off && fat83Match v off name with
  | none =>
      rw [hfound] at hfind
      exact absurd rfl hfind
  | some off =>
      have hp := List.find?_some hfound
      rw [Bool.and_eq_true] at hp
      exact ⟨⟨List.mem_of_find?_eq_some hfound, hp.1⟩, hp.2⟩

/-- An offset of zero is no slot, so a lookup that gives it has found nothing. -/
theorem findDirent_none (h : Fat12Layout v) (hnone : findDirent v name = 0) :
    (liveDirents v).find? (fun off => direntShown v off && fat83Match v off name) = none := by
  rw [findDirent] at hnone
  cases hfound : (liveDirents v).find? fun off => direntShown v off && fat83Match v off name with
  | none => rfl
  | some off =>
      rw [liveDirents] at hfound
      rw [hfound] at hnone
      have hplace := (rootSlot_place h (liveDirents_subset v (List.mem_of_find?_eq_some hfound))).2.2
      exact absurd hnone hplace

/-! ### A new entry -/

/-- What is before and behind the first free slot. -/
structure FreeSlot (v : Fat12) (off : Nat) (before behind : List Nat) : Prop where
  slots : rootSlots v = before ++ off :: behind
  used : ∀ off' ∈ before, v.disk off' ≠ 0 ∧ v.disk off' ≠ 0xE5
  free : v.disk off = 0 ∨ v.disk off = 0xE5

theorem freeSlot_of_find (h : (rootSlots v).find? (fun off => v.disk off = 0 ∨ v.disk off = 0xE5) = some off) :
    ∃ before behind, FreeSlot v off before behind := by
  obtain ⟨hfree, before, behind, hslots, hused⟩ := List.find?_eq_some_iff_append.mp h
  refine ⟨before, behind, hslots, ?_, by simpa using hfree⟩
  intro off' hoff'
  have := hused off' hoff'
  simpa using this

namespace FreeSlot

variable {before behind : List Nat}

theorem mem (h : FreeSlot v off before behind) : off ∈ rootSlots v := by
  rw [h.slots]
  exact List.mem_append_right before List.mem_cons_self

theorem lt_behind (h : FreeSlot v off before behind) (hoff' : off' ∈ behind) : off < off' := by
  have hsorted := rootSlots_sorted v
  rw [h.slots, List.pairwise_append, List.pairwise_cons] at hsorted
  exact hsorted.2.1.1 off' hoff'

theorem before_lt (h : FreeSlot v off before behind) (hoff' : off' ∈ before) : off' < off := by
  have hsorted := rootSlots_sorted v
  rw [h.slots, List.pairwise_append] at hsorted
  exact hsorted.2.2 off' hoff' off List.mem_cons_self

theorem before_slot (h : FreeSlot v off before behind) (hoff' : off' ∈ before) : off' ∈ rootSlots v ∧ off' ≠ off := by
  refine ⟨?_, Nat.ne_of_lt (h.before_lt hoff')⟩
  rw [h.slots]
  exact List.mem_append_left _ hoff'

theorem behind_slot (h : FreeSlot v off before behind) (hoff' : off' ∈ behind) : off' ∈ rootSlots v ∧ off' ≠ off := by
  refine ⟨?_, Nat.ne_of_gt (h.lt_behind hoff')⟩
  rw [h.slots]
  exact List.mem_append_right before (List.mem_cons_of_mem off hoff')

/-- A free slot before the end of the directory holds a deleted entry. -/
theorem hidden (h : FreeSlot v off before behind) (hlive : off ∈ liveDirents v) : direntShown v off = false := by
  have hbyte : v.disk off ≠ 0 := by simpa using List.mem_takeWhile_imp hlive
  simp [direntShown, h.free.resolve_left hbyte]

theorem absent (h : FreeSlot v off before behind) : ¬ ownsChain v off := by
  rintro ⟨hlive, hshown⟩
  rw [h.hidden hlive] at hshown
  cases hshown

end FreeSlot

/-- The entry of a name is the one that the lookup finds, or a new one in the first free slot. -/
theorem findOrCreate_cases (h : findOrCreate v name = some (off, v')) :
    findDirent v name ≠ 0 ∧ off = findDirent v name ∧ v' = v ∨
      findDirent v name = 0 ∧ (∃ before behind, FreeSlot v off before behind) ∧ v' = newDirent v off name := by
  rw [findOrCreate] at h
  split at h
  · rename_i hfound
    obtain ⟨rfl, rfl⟩ := Prod.mk.inj (Option.some.inj h)
    exact Or.inl ⟨hfound, rfl, rfl⟩
  · rename_i hnone
    split at h
    · cases h
    rename_i slot hslot
    split at h
    · cases h
    obtain ⟨rfl, rfl⟩ := Prod.mk.inj (Option.some.inj h)
    exact Or.inr ⟨not_not.mp hnone, freeSlot_of_find hslot, rfl⟩

/-- The name has no entry, and no slot is left for one. -/
def RootFull (v : Fat12) (name : List UInt8) : Prop := findDirent v name = 0 ∧ ∀ off ∈ rootSlots v, v.disk off ≠ 0 ∧ v.disk off ≠ 0xE5

theorem findOrCreate_eq_none (h : Fat12Layout v) : findOrCreate v name = none ↔ RootFull v name := by
  rw [findOrCreate, RootFull]
  by_cases hfound : findDirent v name = 0
  · rw [if_neg (not_not_intro hfound)]
    cases hslot : (rootSlots v).find? fun off => v.disk off = 0 ∨ v.disk off = 0xE5 with
    | none =>
        refine ⟨fun _ => ⟨hfound, fun off hoff => ?_⟩, fun _ => rfl⟩
        simpa using List.find?_eq_none.mp hslot off hoff
    | some off =>
        have hoff := List.mem_of_find?_eq_some hslot
        have hfree : v.disk off = 0 ∨ v.disk off = 0xE5 := by simpa using List.find?_some hslot
        constructor
        · intro hnone
          simp only at hnone
          rw [if_neg (rootSlot_place h hoff).2.2] at hnone
          cases hnone
        · rintro ⟨-, hused⟩
          exact absurd hfree (not_or.mpr (hused off hoff))
  · rw [if_pos hfound]
    exact ⟨fun hnone => absurd hnone (Option.some_ne_none _), fun hfull => absurd hfull.1 hfound⟩

/-- Slots behind the end of the directory are not in use. -/
def DirEnded (v : Fat12) : Prop := ∀ off ∈ rootSlots v, ∀ off' ∈ rootSlots v, off < off' → v.disk off = 0 → v.disk off' = 0

theorem length_strToFat83 (name : List UInt8) : (strToFat83 name).length = 11 := by
  have hbase : ((name.takeWhile (· ≠ dot)).take 8).length ≤ 8 := List.length_take_le 8 _
  have hext : (if (name.drop ((name.takeWhile (· ≠ dot)).take 8).length).head? = some dot
      then (name.drop ((name.takeWhile (· ≠ dot)).take 8).length).tail.take 3 else []).length ≤ 3 := by
    split
    · exact List.length_take_le 3 _
    · exact Nat.zero_le 3
  simp only [strToFat83, padSpaces, List.length_append, List.length_map, List.length_replicate]
  omega

theorem newDirent_apply {i : Nat} (hi : i < 32) : (newDirent v off name).disk (off + i) = (strToFat83 name ++ [fatAttrArchive]).getD i 0 := by
  simp only [newDirent]
  exact Memory.blit_apply_of_inside v.disk _ hi

theorem newDirent_apply_of_outside {x : Nat} (hx : x < off ∨ off + 32 ≤ x) : (newDirent v off name).disk x = v.disk x := by
  simp only [newDirent]
  exact Memory.blit_apply_of_outside v.disk _ hx

theorem newDirent_attr : (newDirent v off name).disk (off + 11) = fatAttrArchive := by
  rw [newDirent_apply (by decide), List.getD_eq_getElem?_getD, List.getElem?_append_right (by rw [length_strToFat83]), length_strToFat83]
  rfl

theorem newDirent_bytes : (newDirent v off name).disk.bytes off 11 = strToFat83 name := by
  apply List.ext_getElem
  · rw [Memory.length_bytes, length_strToFat83]
  · intro i hi hi'
    simp only [Memory.bytes, List.getElem_map, List.getElem_range]
    rw [newDirent_apply (by rw [length_strToFat83] at hi'; omega), List.getD_eq_getElem?_getD, List.getElem?_append_left hi',
      List.getElem?_eq_getElem hi', Option.getD_some]

theorem newDirent_fields : (newDirent v off name).disk.load (off + 26) 2 = 0 ∧ (newDirent v off name).disk.load (off + 28) 4 = 0 := by
  have hzero : ∀ i < 32, 12 ≤ i → (newDirent v off name).disk (off + i) = 0 := by
    intro i hi hlo
    rw [newDirent_apply hi, List.getD_eq_getElem?_getD, List.getElem?_eq_none (by rw [List.length_append, length_strToFat83]; exact hlo)]
    rfl
  simp only [Memory.load, Nat.add_assoc]
  rw [hzero 26 (by decide) (by decide), hzero 27 (by decide) (by decide), hzero 28 (by decide) (by decide), hzero 29 (by decide) (by decide),
    hzero 30 (by decide) (by decide), hzero 31 (by decide) (by decide)]
  decide

/-- A new entry in the first free slot. -/
structure NewEntry (v v' : Fat12) (off : Nat) (name : List UInt8) : Prop where
  image : ∃ d, v' = { v with disk := d }
  outside : ∀ x, x < off ∨ off + 32 ≤ x → v'.disk x = v.disk x
  slot : off ∈ rootSlots v
  absent : ¬ ownsChain v off
  attr : v'.disk (off + 11) = fatAttrArchive
  fresh : v'.disk.load (off + 26) 2 = 0
  ended : DirEnded v'
  owns : ∀ off', ownsChain v' off' ↔ off' = off ∨ ownsChain v off'
  found : findDirent v name = 0 → findDirent v' name = off
  others : ∀ name', strToFat83 name' ≠ strToFat83 name → findDirent v' name' = findDirent v name'

theorem newDirent_first : (strToFat83 name).head? = some ((newDirent v off name).disk off) := by
  have hbyte := @newDirent_apply v off name 0 (by decide)
  rw [Nat.add_zero, List.getD_eq_getElem?_getD, List.getElem?_append_left (by rw [length_strToFat83]; decide)] at hbyte
  rw [hbyte, List.head?_eq_getElem?, List.getElem?_eq_getElem (by rw [length_strToFat83]; decide), Option.getD_some]

/-- The new entry is shown. -/
theorem newDirent_shown (hfirst : (strToFat83 name).head? ≠ some 0xE5) : direntShown (newDirent v off name) off = true := by
  have hbyte : (newDirent v off name).disk off ≠ 0xE5 := by
    rw [@newDirent_first v off name] at hfirst
    simpa using hfirst
  rw [direntShown, newDirent_attr, decide_eq_true_eq]
  exact ⟨hbyte, by decide, by decide⟩

/-- Every other slot looks as before. -/
theorem newDirent_other (h : Fat12Layout v) (hmem : off ∈ rootSlots v) (hoff' : off' ∈ rootSlots v) (hne : off' ≠ off) :
    (newDirent v off name).disk off' = v.disk off' ∧ direntShown (newDirent v off name) off' = direntShown v off' ∧
      ∀ name', fat83Match (newDirent v off name) off' name' = fat83Match v off' name' := by
  have hother : ∀ i < 32, (newDirent v off name).disk (off' + i) = v.disk (off' + i) := by
    intro i hi
    have := rootSlots_apart h hoff' hmem hne
    exact newDirent_apply_of_outside (by omega)
  have hbyte := hother 0 (by decide)
  rw [Nat.add_zero] at hbyte
  refine ⟨hbyte, ?_, fun name' => ?_⟩
  · rw [direntShown, direntShown, hbyte, hother 11 (by decide)]
  · have hbytes : (newDirent v off name).disk.bytes off' 11 = v.disk.bytes off' 11 := by
      apply List.map_congr_left
      intro i hi
      exact hother i (by have := List.mem_range.mp hi; omega)
    rw [fat83Match, fat83Match, hbytes]

/-- The search of a lookup in the other slots. -/
theorem newDirent_find (h : Fat12Layout v) (hmem : off ∈ rootSlots v) {l : List Nat} (hl : ∀ off' ∈ l, off' ∈ rootSlots v ∧ off' ≠ off) (name' : List UInt8) :
    (l.find? fun off' => direntShown (newDirent v off name) off' && fat83Match (newDirent v off name) off' name') =
      l.find? fun off' => direntShown v off' && fat83Match v off' name' := by
  apply List.find?_congr
  intro off' hoff'
  obtain ⟨-, hshown, hmatch⟩ := @newDirent_other v off off' name h hmem (hl off' hoff').1 (hl off' hoff').2
  rw [hshown, hmatch]

/-- The live slots before and after a new entry: it is behind all that were live, or in the place of a deleted one. -/
theorem newDirent_live (h : Fat12Layout v) (hended : DirEnded v) {before behind : List Nat} (hslot : FreeSlot v off before behind)
    (hfirst : (strToFat83 name).head? ≠ some 0) :
    ∃ tail, tail ⊆ behind ∧ liveDirents (newDirent v off name) = before ++ off :: tail ∧
      (v.disk off = 0 ∧ liveDirents v = before ∧ tail = [] ∨ v.disk off = 0xE5 ∧ liveDirents v = before ++ off :: tail) := by
  have hmem := hslot.mem
  have hbyte : (newDirent v off name).disk off ≠ 0 := by
    rw [@newDirent_first v off name] at hfirst
    simpa using hfirst
  have hsame : ∀ off' ∈ rootSlots v, off' ≠ off → (newDirent v off name).disk off' = v.disk off' :=
    fun off' hoff' hne => (newDirent_other h hmem hoff' hne).1
  refine ⟨behind.takeWhile fun off' => v.disk off' ≠ 0, List.takeWhile_subset _, ?_, ?_⟩
  · have htail : behind.takeWhile (fun off' => (newDirent v off name).disk off' ≠ 0) = behind.takeWhile fun off' => v.disk off' ≠ 0 := by
      apply takeWhile_congr
      intro off' hoff'
      rw [hsame off' (hslot.behind_slot hoff').1 (hslot.behind_slot hoff').2]
    have hpos : ∀ off' ∈ before, decide ((newDirent v off name).disk off' ≠ 0) = true := by
      intro off' hoff'
      rw [hsame off' (hslot.before_slot hoff').1 (hslot.before_slot hoff').2]
      exact decide_eq_true (hslot.used off' hoff').1
    have hrow : rootSlots (newDirent v off name) = before ++ off :: behind := hslot.slots
    rw [liveDirents, hrow, List.takeWhile_append_of_pos hpos, List.takeWhile_cons_of_pos (by simpa using hbyte), htail]
  · have hpos : ∀ off' ∈ before, decide (v.disk off' ≠ 0) = true := fun off' hoff' => decide_eq_true (hslot.used off' hoff').1
    rw [liveDirents, hslot.slots, List.takeWhile_append_of_pos hpos]
    rcases hslot.free with hzero | hdeleted
    · left
      refine ⟨hzero, ?_, ?_⟩
      · rw [List.takeWhile_cons_of_neg (by simp [hzero]), List.append_nil]
      · cases behind with
        | nil => rfl
        | cons next behind =>
            have hnext := hended off hmem next (hslot.behind_slot List.mem_cons_self).1 (hslot.lt_behind List.mem_cons_self) hzero
            rw [List.takeWhile_cons_of_neg (by simp [hnext])]
    · right
      refine ⟨hdeleted, ?_⟩
      rw [List.takeWhile_cons_of_pos (by rw [hdeleted]; decide)]

/-- No slot before the new entry was free, so the end of the directory stays behind it. -/
theorem newDirent_ended (h : Fat12Layout v) (hended : DirEnded v) {before behind : List Nat} (hslot : FreeSlot v off before behind)
    (hfirst : (strToFat83 name).head? ≠ some 0) : DirEnded (newDirent v off name) := by
  have hsame : ∀ off' ∈ rootSlots v, off' ≠ off → (newDirent v off name).disk off' = v.disk off' :=
    fun off' hoff' hne => (newDirent_other h hslot.mem hoff' hne).1
  intro a ha b hb hlt hzero
  have hafirst : (newDirent v off name).disk off ≠ 0 := by
    rw [@newDirent_first v off name] at hfirst
    simpa using hfirst
  have hane : a ≠ off := by
    rintro rfl
    exact hafirst hzero
  rw [hsame a ha hane] at hzero
  have hbne : b ≠ off := by
    rintro rfl
    have hmemA : a ∈ before := by
      rw [show rootSlots (newDirent v b name) = rootSlots v from rfl, hslot.slots] at ha
      rcases List.mem_append.mp ha with ha | ha
      · exact ha
      · rcases List.mem_cons.mp ha with rfl | ha
        · omega
        · have := hslot.lt_behind ha
          omega
    exact (hslot.used a hmemA).1 hzero
  rw [hsame b hb hbne]
  exact hended a ha b hb hlt hzero

/-- A new entry, whatever its name, changes nothing about the other slots. -/
theorem newDirent_owns_of_ne (h : Fat12Layout v) (hended : DirEnded v) {before behind : List Nat} (hslot : FreeSlot v off before behind)
    (hfirst : (strToFat83 name).head? ≠ some 0) (hne : off' ≠ off) : ownsChain (newDirent v off name) off' ↔ ownsChain v off' := by
  obtain ⟨tail, -, hlive', hlive⟩ := newDirent_live h hended hslot hfirst
  have hiff : off' ∈ liveDirents (newDirent v off name) ↔ off' ∈ liveDirents v := by
    rcases hlive with ⟨-, hold, hnil⟩ | ⟨-, hold⟩
    · rw [hlive', hold, hnil]
      simp [hne]
    · rw [hlive', hold]
  rw [ownsChain, ownsChain, hiff]
  refine and_congr_right fun hoff' => ?_
  rw [(newDirent_other h hslot.mem (liveDirents_subset v hoff') hne).2.1]

/-- A lookup that passes the new entry by finds what it found before. -/
theorem newDirent_find_of_miss (h : Fat12Layout v) (hended : DirEnded v) {before behind : List Nat} (hslot : FreeSlot v off before behind)
    (hfirst : (strToFat83 name).head? ≠ some 0)
    (hmiss : (direntShown (newDirent v off name) off && fat83Match (newDirent v off name) off name') = false) :
    findDirent (newDirent v off name) name' = findDirent v name' := by
  obtain ⟨tail, htail, hlive', hlive⟩ := newDirent_live h hended hslot hfirst
  have hfind : findDirent (newDirent v off name) name' = ((liveDirents (newDirent v off name)).find? fun off' =>
    direntShown (newDirent v off name) off' && fat83Match (newDirent v off name) off' name').getD 0 := rfl
  have hfind' : findDirent v name' = ((liveDirents v).find? fun off' => direntShown v off' && fat83Match v off' name').getD 0 := rfl
  rw [hfind, hfind', hlive', List.find?_append, newDirent_find h hslot.mem fun off' => hslot.before_slot,
    List.find?_cons_of_neg (by simp only [hmiss, Bool.false_eq_true, not_false_eq_true]),
    newDirent_find h hslot.mem fun off' hoff' => hslot.behind_slot (htail hoff')]
  rcases hlive with ⟨-, hold, hnil⟩ | ⟨-, hold⟩
  · rw [hold, hnil, List.find?_nil, Option.or_none]
  · have hoff : off ∈ liveDirents v := by simp [hold]
    rw [hold, List.find?_append, List.find?_cons_of_neg (by simp [hslot.hidden hoff])]

section entry

variable (h : Fat12Layout v) (hended : DirEnded v) {before behind : List Nat} (hslot : FreeSlot v off before behind)
  (hfirst : (strToFat83 name).head? ≠ some 0 ∧ (strToFat83 name).head? ≠ some 0xE5)

include h hended hslot hfirst

theorem newDirent_owns (off' : Nat) : ownsChain (newDirent v off name) off' ↔ off' = off ∨ ownsChain v off' := by
  by_cases heq : off' = off
  · obtain ⟨tail, -, hlive', -⟩ := newDirent_live h hended hslot hfirst.1
    rw [heq]
    exact ⟨fun _ => Or.inl rfl, fun _ => ⟨by simp [hlive'], newDirent_shown hfirst.2⟩⟩
  · rw [newDirent_owns_of_ne h hended hslot hfirst.1 heq, or_iff_right heq]

/-- A lookup of the name finds the new entry, as nothing before it matches. -/
theorem newDirent_found (hnone : findDirent v name = 0) : findDirent (newDirent v off name) name = off := by
  obtain ⟨tail, htail, hlive', hlive⟩ := newDirent_live h hended hslot hfirst.1
  have hnomatch := findDirent_none h hnone
  have hbefore : before.find? (fun off' => direntShown v off' && fat83Match v off' name) = none := by
    rw [List.find?_eq_none] at hnomatch ⊢
    intro off' hoff'
    apply hnomatch
    rcases hlive with ⟨-, hold, -⟩ | ⟨-, hold⟩
    · rwa [hold]
    · rw [hold]
      exact List.mem_append_left _ hoff'
  have hfind : findDirent (newDirent v off name) name = ((liveDirents (newDirent v off name)).find? fun off' =>
    direntShown (newDirent v off name) off' && fat83Match (newDirent v off name) off' name).getD 0 := rfl
  have hmatch : fat83Match (newDirent v off name) off name = true := decide_eq_true newDirent_bytes
  rw [hfind, hlive', List.find?_append, newDirent_find h hslot.mem fun off' => hslot.before_slot, hbefore,
    List.find?_cons_of_pos (by simp [newDirent_shown hfirst.2, hmatch])]
  rfl

theorem newDirent_others (hne : strToFat83 name' ≠ strToFat83 name) : findDirent (newDirent v off name) name' = findDirent v name' := by
  have hmatch : fat83Match (newDirent v off name) off name' = false := by
    rw [fat83Match, newDirent_bytes]
    exact decide_eq_false (Ne.symm hne)
  exact newDirent_find_of_miss h hended hslot hfirst.1 (by rw [hmatch, Bool.and_false])

theorem newDirent_entry : NewEntry v (newDirent v off name) off name where
  image := ⟨_, rfl⟩
  outside _ hx := newDirent_apply_of_outside hx
  slot := hslot.mem
  absent := hslot.absent
  attr := newDirent_attr
  fresh := newDirent_fields.1
  ended := newDirent_ended h hended hslot hfirst.1
  owns := newDirent_owns h hended hslot hfirst
  found := newDirent_found h hended hslot hfirst
  others _ := newDirent_others h hended hslot hfirst

end entry

end Tsukasa
