import Tsukasa.Fs.Fat32Lfn

/-!
# Decoding long names

A name of `n` characters takes `⌈n / 13⌉` entries, in descending order, in front of its short entry. Each entry fills its own 13 places of the buffer, so with the entries down to the first the buffer holds the name and its terminator. The state is reset behind every entry that is shown or passed over, so the next name starts afresh.
-/

namespace Tsukasa

open Lib (Memory)

variable {σ : Type} {g : Fat32Geometry} {d : Memory} {v : Fat32} {c n j p m : Nat} {l l' : LfnState} {sec : Memory} {off : Nat} {name : List UInt8}
  {slot short : Nat × Nat} {slots parts pre rest : List (Nat × Nat)} {shown : List ((Nat × Nat) × List UInt8)}
  {lfn : Memory → Nat → LfnState → Option LfnState}

/-! ### The stored form -/

/-- The unit at place `p`: the characters, the terminator, and padding behind it. -/
def nameUnit (name : List UInt8) (p : Nat) : Nat :=
  if p < name.length then (name.getD p 0).toNat else if p = name.length then 0 else 0xFFFF

def nameUnits (name : List UInt8) (p m : Nat) : List Nat := (List.range m).map fun i => nameUnit name (p + i)

/-- A name of 1 to 255 characters, with units from 1 to 255. -/
structure LongNameOk (name : List UInt8) : Prop where
  pos : 0 < name.length
  le : name.length < fat32NameMax
  chars : ∀ b ∈ name, b ≠ 0

/-- The entry at `slot` is part `j` of the name, counted from 1. -/
structure IsPart (d : Memory) (name : List UInt8) (j : Nat) (slot : Nat × Nat) : Prop where
  live : slotFirst d slot ≠ 0
  kind : LongName d slot
  order : (slotFirst d slot &&& 0x1F).toNat = j
  name1 : lfnName1 (ataReadSector d slot.1) slot.2 = nameUnits name (13 * (j - 1)) 5
  name2 : lfnName2 (ataReadSector d slot.1) slot.2 = nameUnits name (13 * (j - 1) + 5) 6
  name3 : lfnName3 (ataReadSector d slot.1) slot.2 = nameUnits name (13 * (j - 1) + 11) 2

/-- The parts from `j` down to 1. -/
inductive LongParts (d : Memory) (name : List UInt8) : Nat → List (Nat × Nat) → Prop where
  | nil : LongParts d name 0 []
  | cons {j : Nat} {slot : Nat × Nat} {slots : List (Nat × Nat)} :
      IsPart d name (j + 1) slot → LongParts d name j slots → LongParts d name (j + 1) (slot :: slots)

/-- A complete entry with a long name: its parts and the short entry. -/
structure StoredLong (d : Memory) (name : List UInt8) (parts : List (Nat × Nat)) (short : Nat × Nat) : Prop where
  ok : LongNameOk name
  parts : LongParts d name ((name.length + 12) / 13) parts
  live : slotFirst d short ≠ 0
  shown : Shown d short

/-- Slots with complete entries and entries that are passed over, and the names that the former are shown under. -/
inductive Complete (d : Memory) : List (Nat × Nat) → List ((Nat × Nat) × List UInt8) → Prop where
  | nil : Complete d [] []
  | skipped {slot : Nat × Nat} {slots : List (Nat × Nat)} {names : List ((Nat × Nat) × List UInt8)} :
      slotFirst d slot ≠ 0 → Skipped d slot → Complete d slots names → Complete d (slot :: slots) names
  | short {slot : Nat × Nat} {slots : List (Nat × Nat)} {names : List ((Nat × Nat) × List UInt8)} :
      slotFirst d slot ≠ 0 → Shown d slot → Complete d slots names →
      Complete d (slot :: slots) ((slot, parse83name (slotEntry d slot).name 13) :: names)
  | long {name : List UInt8} {parts : List (Nat × Nat)} {slot : Nat × Nat} {slots : List (Nat × Nat)} {names : List ((Nat × Nat) × List UInt8)} :
      StoredLong d name parts slot → Complete d slots names → Complete d (parts ++ slot :: slots) ((slot, name) :: names)

/-! ### One part -/

theorem nameUnit_char (h : LongNameOk name) (hp : p < name.length) :
    nameUnit name p = (name.getD p 0).toNat ∧ ¬ (nameUnit name p = 0xFFFF ∨ nameUnit name p = 0) := by
  have hunit : nameUnit name p = (name.getD p 0).toNat := if_pos hp
  have hmem : name.getD p 0 ∈ name := by
    rw [← List.getElem_eq_getD (h := hp)]
    exact List.getElem_mem hp
  have hne : name.getD p 0 ≠ 0 := h.chars _ hmem
  refine ⟨hunit, ?_⟩
  rw [hunit]
  rintro (heq | heq)
  · have hlt := UInt8.toNat_lt (name.getD p 0)
    omega
  · exact hne (UInt8.toNat_inj.mp heq)

theorem nameUnit_end (hp : name.length ≤ p) : nameUnit name p = 0xFFFF ∨ nameUnit name p = 0 := by
  rw [nameUnit, if_neg (Nat.not_lt.mpr hp)]
  split
  · exact Or.inr rfl
  · exact Or.inl rfl

/-- The state behind a loop over the `m` units from `p` on: the characters among them are in, and nothing else has changed. -/
structure Stored (name : List UInt8) (p m : Nat) (l l' : LfnState) : Prop where
  chars : ∀ q, p ≤ q → q < p + m → q < name.length → l'.buf q = some (name.getD q 0)
  frame : ∀ q, (q < p ∨ p + m ≤ q) → l'.buf q = l.buf q
  len : l'.len = if p < name.length ∧ 0 < m then max l.len (min (p + m) name.length) else l.len

theorem Stored.nothing (h : name.length ≤ p ∨ m = 0) (l : LfnState) : Stored name p m l l := by
  refine ⟨fun q hlo hhi hq => ?_, fun _ _ => rfl, ?_⟩
  · omega
  · rw [if_neg (by omega)]

theorem Stored.trans {l'' : LfnState} {m' : Nat} (h : Stored name p m l l') (h' : Stored name (p + m) m' l' l'') : Stored name p (m + m') l l'' := by
  refine ⟨fun q hlo hhi hq => ?_, fun q hq => ?_, ?_⟩
  · by_cases hfirst : q < p + m
    · rw [h'.frame q (Or.inl hfirst)]
      exact h.chars q hlo hfirst hq
    · exact h'.chars q (by omega) (by omega) hq
  · rw [h'.frame q (by omega), h.frame q (by omega)]
  · rw [h'.len, h.len]
    split <;> split <;> split <;> omega

theorem Stored.put (h : LongNameOk name) (hp : p < name.length) (l : LfnState) :
    ∃ l', l.put p (nameUnit name p) = some l' ∧ Stored name p 1 l l' := by
  have hle := h.le
  have hin : (0 : Int) ≤ p ∧ (p : Int) < fat32NameMax := ⟨Int.natCast_nonneg p, by omega⟩
  have hunit : UInt8.ofNat (nameUnit name p) = name.getD p 0 := by rw [(nameUnit_char h hp).1, UInt8.ofNat_toNat]
  refine ⟨⟨Function.update l.buf p (some (name.getD p 0)), max l.len (p + 1), l.has⟩, ?_, fun q hlo hhi _ => ?_, fun q hq => ?_, ?_⟩
  · rw [LfnState.put, LfnState.store, if_pos hin, hunit]
    rfl
  · obtain rfl : q = p := by omega
    exact Function.update_self _ _ _
  · exact Function.update_of_ne (by omega) _ _
  · rw [if_pos ⟨hp, Nat.zero_lt_one⟩, Nat.min_eq_left hp]

theorem nameUnits_succ (name : List UInt8) (p m : Nat) : nameUnits name p (m + 1) = nameUnit name p :: nameUnits name (p + 1) m := by
  rw [nameUnits, List.range_succ_eq_map, List.map_cons, List.map_map, nameUnits]
  congr 1
  apply List.map_congr_left
  intro i _
  rw [Function.comp_apply, Nat.succ_eq_add_one, Nat.add_assoc, Nat.add_comm 1 i]

/-- A loop over the units from `p` on. Behind the last character it meets the terminator, padding, or the end of the buffer. -/
theorem putChars_units (h : LongNameOk name) (p m : Nat) (l : LfnState) :
    ∃ terminated l', putChars p (nameUnits name p m) l = some (terminated, l') ∧ Stored name p m l l' := by
  induction m generalizing p l with
  | zero => exact ⟨false, l, rfl, Stored.nothing (Or.inr rfl) l⟩
  | succ m ih =>
      rw [nameUnits_succ, putChars]
      by_cases hp : p < name.length
      · have hle := h.le
        obtain ⟨l₁, hput, hstored⟩ := Stored.put h hp l
        obtain ⟨terminated, l', hrest, hstored'⟩ := ih (p + 1) l₁
        refine ⟨terminated, l', ?_, by rw [Nat.add_comm m 1]; exact hstored.trans hstored'⟩
        rw [if_pos (by omega), if_neg (nameUnit_char h hp).2, hput]
        exact hrest
      · have hnothing := Stored.nothing (m := m + 1) (Or.inl (Nat.not_lt.mp hp)) l
        split
        · rw [if_pos (nameUnit_end (Nat.not_lt.mp hp))]
          exact ⟨true, l, rfl, hnothing⟩
        · exact ⟨false, l, rfl, hnothing⟩

/-- The buffer when the parts down to `j + 1` are in. -/
structure Filled (name : List UInt8) (j : Nat) (l : LfnState) : Prop where
  chars : ∀ q, 13 * j ≤ q → q < name.length → l.buf q = some (name.getD q 0)
  len : l.len = if 13 * j < name.length then name.length else 0

theorem IsPart.offset (h : IsPart d name (j + 1) slot) : lfnOffset (ataReadSector d slot.1 slot.2) = ((13 * j : Nat) : Int) := by
  have horder : (ataReadSector d slot.1 slot.2 &&& 0x1F).toNat = j + 1 := h.order
  rw [lfnOffset, horder]
  omega

theorem findLfn_part (hname : LongNameOk name) (h : IsPart d name (j + 1) slot) (hl : Filled name (j + 1) l) :
    ∃ l', findLfn (ataReadSector d slot.1) slot.2 l = some l' ∧ Filled name j l' ∧ l'.has = true := by
  obtain ⟨t1, l1, hput1, hstored1⟩ := putChars_units hname (13 * j) 5 l
  obtain ⟨t2, l2, hput2, hstored2⟩ := putChars_units hname (13 * j + 5) 6 l1
  obtain ⟨t3, l3, hput3, hstored3⟩ := putChars_units hname (13 * j + 11) 2 l2
  have hstored : Stored name (13 * j) 13 l l3 := (hstored1.trans hstored2).trans hstored3
  have hle := hname.le
  have hlen3 : l3.len = if 13 * j < name.length then name.length else 0 := by
    rw [hstored.len, hl.len]
    split <;> split <;> split <;> omega
  have hlast : l3.len < fat32NameMax := by
    rw [hlen3]
    split
    · exact hle
    · decide
  refine ⟨⟨Function.update l3.buf l3.len (some 0), l3.len, true⟩, ?_, ⟨fun q hlo hq => ?_, hlen3⟩, rfl⟩
  · have h1 : (13 * j : Nat) + (5 : Int) = ((13 * j + 5 : Nat) : Int) := rfl
    have h2 : (13 * j : Nat) + (11 : Int) = ((13 * j + 11 : Nat) : Int) := rfl
    simp only [findLfn, h.offset, h.name1, h.name2, h.name3, Nat.add_sub_cancel, h1, h2, hput1, hput2, hput3, Option.bind_some]
    rw [LfnState.finish, LfnState.store, if_pos ⟨Int.natCast_nonneg _, by omega⟩]
    rfl
  · have hne : q ≠ l3.len := by
      rw [hlen3, if_pos (by omega)]
      omega
    show Function.update l3.buf l3.len (some 0) q = _
    rw [Function.update_of_ne hne]
    by_cases hpart : q < 13 * j + 13
    · exact hstored.chars q hlo hpart hq
    · rw [hstored.frame q (by omega)]
      exact hl.chars q (by omega) hq

/-! ### Both scanners -/

theorem nameUnits_append (name : List UInt8) (p m m' : Nat) : nameUnits name p m ++ nameUnits name (p + m) m' = nameUnits name p (m + m') := by
  rw [nameUnits, nameUnits, nameUnits, List.range_add, List.map_append, List.map_map]
  congr 1
  apply List.map_congr_left
  intro i _
  rw [Function.comp_apply, Nat.add_assoc]

/-- Behind the terminator there is padding only. -/
theorem IsPart.standard (hname : LongNameOk name) (h : IsPart d name (j + 1) slot) : LfnStandard (ataReadSector d slot.1) slot.2 := by
  rw [LfnStandard, h.name1, h.name2, h.name3, Nat.add_sub_cancel, nameUnits_append, show 13 * j + 11 = 13 * j + (5 + 6) from rfl,
    nameUnits_append, nameUnits, List.pairwise_map]
  apply List.pairwise_lt_range.imp
  intro i i' hlt hterm
  have hend : ¬ 13 * j + i < name.length := fun hin => (nameUnit_char hname hin).2 hterm
  rw [nameUnit, if_neg (by omega), if_neg (by omega)]

/-- The two ways to treat a long-name entry. -/
def ScannerLfn (lfn : Memory → Nat → LfnState → Option LfnState) : Prop := lfn = iterateLfn ∨ lfn = findLfn

theorem ScannerLfn.part (hlfn : ScannerLfn lfn) (hname : LongNameOk name) (h : IsPart d name (j + 1) slot) (hl : Filled name (j + 1) l) :
    ∃ l', lfn (ataReadSector d slot.1) slot.2 l = some l' ∧ Filled name j l' ∧ l'.has = true := by
  rcases hlfn with rfl | rfl
  · rw [iterateLfn_eq_findLfn (h.standard hname)]
    exact findLfn_part hname h hl
  · exact findLfn_part hname h hl

/-- The parts of a name leave the whole name in the buffer. -/
theorem LongParts.fill (hlfn : ScannerLfn lfn) (hname : LongNameOk name) (h : LongParts d name j parts) (hl : Filled name j l)
    (hhas : j = 0 → l.has = true) :
    ∃ l', Filled name 0 l' ∧ l'.has = true ∧ ∀ rest, shownNames lfn d (parts ++ rest) l = shownNames lfn d rest l' := by
  induction h generalizing l with
  | nil => exact ⟨l, hl, hhas rfl, fun _ => rfl⟩
  | cons hpart hparts ih =>
      obtain ⟨l₁, hl₁, hfilled, hhas₁⟩ := hlfn.part hname hpart hl
      obtain ⟨l', hfilled', hhas', hrest⟩ := ih hfilled fun _ => hhas₁
      refine ⟨l', hfilled', hhas', fun rest => ?_⟩
      rw [List.cons_append, shownNames_longName hpart.live hpart.kind hl₁]
      exact hrest rest

theorem Filled.textFrom (hname : LongNameOk name) (h : Filled name 0 l) (m p : Nat) (hsum : p + m = name.length) :
    l.textFrom m p = some (name.drop p) := by
  induction m generalizing p with
  | zero =>
      obtain rfl : p = name.length := hsum
      rw [LfnState.textFrom, List.drop_length]
  | succ m ih =>
      have hp : p < name.length := by omega
      have hne : name[p] ≠ 0 := hname.chars _ (List.getElem_mem hp)
      have hbyte := h.chars p (by omega) hp
      rw [← List.getElem_eq_getD (h := hp)] at hbyte
      rw [LfnState.textFrom, hbyte]
      simp only [if_neg hne, ih (p + 1) (by omega), Option.map_some]
      rw [← List.drop_eq_getElem_cons hp]

theorem Filled.text (hname : LongNameOk name) (h : Filled name 0 l) : l.text = some name := by
  rw [LfnState.text, h.len, if_pos (by have := hname.pos; omega)]
  exact h.textFrom hname name.length 0 (Nat.zero_add _)

/-- No long name is under construction. -/
structure LfnState.Fresh (l : LfnState) : Prop where
  len : l.len = 0
  has : l.has = false

theorem LfnState.fresh_reset (l : LfnState) : l.reset.Fresh := ⟨rfl, rfl⟩

/-- A complete entry is shown under its long name, and the next one starts afresh. -/
theorem StoredLong.shownNames (hlfn : ScannerLfn lfn) (h : StoredLong d name parts short) (hl : l.Fresh) :
    ∃ l', l'.Fresh ∧ ∀ rest, shownNames lfn d (parts ++ short :: rest) l = (short, name) :: shownNames lfn d rest l' := by
  have hpos := h.ok.pos
  have hfilled : Filled name ((name.length + 12) / 13) l := by
    refine ⟨fun q hlo hq => by omega, ?_⟩
    rw [hl.len, if_neg (by omega)]
  obtain ⟨l₁, hfilled₁, hhas₁, hrest⟩ := h.parts.fill hlfn h.ok hfilled (by omega)
  have hshort : slotName d short l₁ = some name := by
    rw [slotName, if_pos hhas₁]
    exact hfilled₁.text h.ok
  refine ⟨l₁.reset, l₁.fresh_reset, fun rest => ?_⟩
  rw [hrest, shownNames_shown h.live h.shown hshort]

theorem Complete.shownNames (hlfn : ScannerLfn lfn) (h : Complete d slots shown) (hl : l.Fresh) :
    ∃ l', l'.Fresh ∧ ∀ rest, shownNames lfn d (slots ++ rest) l = shown ++ shownNames lfn d rest l' := by
  induction h generalizing l with
  | nil => exact ⟨l, hl, fun _ => rfl⟩
  | skipped hlive hskipped _ ih =>
      obtain ⟨l', hl', hrest⟩ := ih l.fresh_reset
      refine ⟨l', hl', fun rest => ?_⟩
      rw [List.cons_append, shownNames_skipped hlive hskipped, hrest]
  | short hlive hshown _ ih =>
      obtain ⟨l', hl', hrest⟩ := ih l.fresh_reset
      refine ⟨l', hl', fun rest => ?_⟩
      rename_i slot _ _ _
      have hname : slotName d slot l = some (parse83name (slotEntry d slot).name 13) := by
        rw [slotName, hl.has]
        rfl
      rw [List.cons_append, shownNames_shown hlive hshown hname, hrest, List.cons_append]
  | long hstored _ ih =>
      obtain ⟨l₁, hl₁, hlong⟩ := hstored.shownNames hlfn hl
      obtain ⟨l', hl', hrest⟩ := ih hl₁
      refine ⟨l', hl', fun rest => ?_⟩
      rw [List.append_assoc, List.cons_append, hlong, hrest, List.cons_append]

/-- Where a directory has the entry behind complete ones, a scan shows it under its name. -/
theorem shownNames_stored (hlfn : ScannerLfn lfn) (hpre : Complete d pre shown) (hentry : StoredLong d name parts short) (hl : l.Fresh)
    {fuel : Nat} (hn : n ≤ fuel) (hdir : chainSlots g d n c = pre ++ (parts ++ short :: rest)) :
    ∃ after, shownNames lfn d (chainSlots g d fuel c) l = shown ++ (short, name) :: after := by
  obtain ⟨more, hmore⟩ := chainSlots_prefix (g := g) (d := d) (c := c) hn
  obtain ⟨l₁, hl₁, hbefore⟩ := hpre.shownNames hlfn hl
  obtain ⟨l₂, -, hlong⟩ := hentry.shownNames hlfn hl₁
  refine ⟨shownNames lfn d (rest ++ more) l₂, ?_⟩
  rw [← hmore, hdir, List.append_assoc, hbefore, List.append_assoc, List.cons_append, hlong]

/-- Both scanners present a long name exactly: whatever the callback or the target, the visits go to the entries before, then to the short entry under this name. -/
theorem longName_decoded (hpre : Complete v.disk pre shown) (hentry : StoredLong v.disk name parts short) (hn : n ≤ fat32Fuel)
    (hdir : chainSlots v.geometry v.disk n c = pre ++ (parts ++ short :: rest)) :
    (∃ after, ∀ (σ : Type) (cb : DirEntry → List UInt8 → σ → σ × Bool) (ctx : σ),
      Presents (fun e _ _ name ctx => cb e name ctx) v.disk (shown ++ (short, name) :: after) ctx (iterateDir v c cb ctx)) ∧
    ∃ after, ∀ target, Presents (rawVisit target) v.disk (shown ++ (short, name) :: after) none (findEntryRaw v c target) := by
  obtain ⟨after, hafter⟩ := shownNames_stored (Or.inl rfl : ScannerLfn iterateLfn) hpre hentry (LfnState.fresh_reset .empty) hn hdir
  obtain ⟨after', hafter'⟩ := shownNames_stored (Or.inr rfl : ScannerLfn findLfn) hpre hentry (LfnState.fresh_reset .empty) hn hdir
  refine ⟨⟨after, fun σ cb ctx => ?_⟩, after', fun target => ?_⟩
  · rw [← hafter, iterateDir]
    exact scanClusters_presents _ _ v fat32Fuel c .empty ctx
  · rw [← hafter', findEntryRaw_eq]
    exact scanClusters_presents _ _ v fat32Fuel c .empty none

/-! ### A name in two parts -/

/-- The units of a part of a name, stored at the entry at `at'`. -/
def storePart (name : List UInt8) (at' j order : Nat) (m : Memory) : Memory :=
  let packed := fun p n => (nameUnits name p n).foldr (fun u rest => u + 65536 * rest) 0
  ((((m.store at' 1 order).store (at' + 1) 10 (packed (13 * j) 5)).store (at' + 11) 1 0x0F).store (at' + 14) 12 (packed (13 * j + 5) 6)).store (at' + 28) 4
    (packed (13 * j + 11) 2)

/-- The 14 letters from `a` to `n`. -/
def letters : List UInt8 := (List.range 14).map fun i => UInt8.ofNat (97 + i)

/-- The root directory has a volume label, the two parts of the name, and the short entry `A`. -/
def lettersDisk : Memory :=
  ((storePart letters 1088 0 1 (storePart letters 1056 1 0x42 ((tinyBoot.store 1024 1 86).store 1035 1 0x08))).store 1120 11 0x2020202020202020202041).store
    1131 1 0x20

theorem lettersDisk_stored : StoredLong lettersDisk letters [(2, 32), (2, 64)] (2, 96) := by
  have hparts : LongParts lettersDisk letters 2 [(2, 32), (2, 64)] := by
    refine .cons ⟨?_, ⟨?_, ?_⟩, ?_, ?_, ?_, ?_⟩ (.cons ⟨?_, ⟨?_, ?_⟩, ?_, ?_, ?_, ?_⟩ .nil) <;> decide +kernel
  refine ⟨⟨?_, ?_, ?_⟩, hparts, ?_, ?_, ?_, ?_, ?_⟩ <;> decide +kernel

theorem longName_decoded_letters :
    (∃ after, ∀ (σ : Type) (cb : DirEntry → List UInt8 → σ → σ × Bool) (ctx : σ),
      Presents (fun e _ _ name ctx => cb e name ctx) lettersDisk ([] ++ ((2, 96), letters) :: after) ctx (iterateDir (mounted lettersDisk).2 2 cb ctx)) ∧
    ∃ after, ∀ target, Presents (rawVisit target) lettersDisk ([] ++ ((2, 96), letters) :: after) none (findEntryRaw (mounted lettersDisk).2 2 target) := by
  have hlabel : Complete lettersDisk [(2, 0)] [] :=
    .skipped (by decide +kernel) (Or.inr ⟨by decide +kernel, Or.inl (by decide +kernel)⟩) .nil
  have hdir : chainSlots (mounted lettersDisk).2.geometry (mounted lettersDisk).2.disk 1 2 =
      [(2, 0)] ++ ([(2, 32), (2, 64)] ++ (2, 96) :: (List.range' 4 12).map fun i => (2, i * 32)) := by decide +kernel
  exact longName_decoded hlabel lettersDisk_stored (by decide) hdir

end Tsukasa
