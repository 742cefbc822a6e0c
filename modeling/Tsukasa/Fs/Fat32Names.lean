import Tsukasa.Fs.Fat12Names
import Tsukasa.Fs.Fat32Lookup

/-!
# Short names on a FAT32 volume

`validate_short_name` puts a name into the eleven bytes of an entry, and `parse_83name` reads them back into a buffer of 13 bytes, of which it uses 11 for the text. A base of eight characters with an extension of three has twelve, so exactly these names lose their last character. A name that ends with its dot is read back without the dot, and a lookup compares the dot.
-/

namespace Tsukasa

open Lib (Memory)

variable {s t raw base ext : List UInt8}

/-! ### The encoder -/

/-- The characters a short name may have besides its dot. -/
def ShortNameChar (c : UInt8) : Prop := (97 ≤ c ∧ c ≤ 122) ∨ (65 ≤ c ∧ c ≤ 90) ∨ (48 ≤ c ∧ c ≤ 57) ∨ c = 95 ∨ c = 45

instance : DecidablePred ShortNameChar := fun _ => inferInstanceAs (Decidable (_ ∨ _))

/-- The first loop of `validate_short_name` from position `i` on: the length of the name and the position of its dot. -/
def shortNameScan : List UInt8 → Nat → Option Nat → Option (Nat × Option Nat)
  | [], i, dotAt => some (i, dotAt)
  | c :: cs, i, dotAt =>
      if c = dot then
        if dotAt.isSome then none else shortNameScan cs (i + 1) (some i)
      else if ShortNameChar c then shortNameScan cs (i + 1) dotAt
      else none

/-- `validate_short_name`: `out83` when it returns 0. -/
def validateShortName (name : List UInt8) : Option (List UInt8) :=
  if name = [] then none
  else
    match shortNameScan name 0 none with
    | none => none
    | some (i, dotAt) =>
        let baseLen := dotAt.getD i
        let extLen := match dotAt with
          | none => 0
          | some d => i - d - 1
        if baseLen = 0 ∨ 8 < baseLen ∨ 3 < extLen then none
        else some (padSpaces 8 ((name.take baseLen).map toUpper) ++ padSpaces 3 (((name.drop (baseLen + 1)).take extLen).map toUpper))

/-- The parts of an accepted name; the dot may stand at its end. -/
structure ShortName (s base ext : List UInt8) : Prop where
  text : s = base ∧ ext = [] ∨ s = base ++ dot :: ext
  chars : ∀ c ∈ base ++ ext, ShortNameChar c
  base_pos : 0 < base.length
  base_le : base.length ≤ 8
  ext_le : ext.length ≤ 3

theorem shortNameScan_dotted {cs : List UInt8} {i d : Nat} {r : Nat × Option Nat} (h : shortNameScan cs i (some d) = some r) :
    r = (i + cs.length, some d) ∧ ∀ c ∈ cs, ShortNameChar c := by
  induction cs generalizing i with
  | nil =>
      cases h
      exact ⟨rfl, fun c hc => absurd hc List.not_mem_nil⟩
  | cons c cs ih =>
      rw [shortNameScan] at h
      split at h
      · cases h
      split at h
      · rename_i hchar
        obtain ⟨hr, hcs⟩ := ih h
        refine ⟨?_, ?_⟩
        · rw [hr, List.length_cons, Nat.add_right_comm, Nat.add_assoc]
        · intro x hx
          rcases List.mem_cons.mp hx with rfl | hx
          · exact hchar
          · exact hcs x hx
      · cases h

theorem shortNameScan_undotted {cs : List UInt8} {i : Nat} {r : Nat × Option Nat} (h : shortNameScan cs i none = some r) :
    (r = (i + cs.length, none) ∧ ∀ c ∈ cs, ShortNameChar c) ∨
    ∃ base ext, cs = base ++ dot :: ext ∧ r = (i + cs.length, some (i + base.length)) ∧ ∀ c ∈ base ++ ext, ShortNameChar c := by
  induction cs generalizing i with
  | nil =>
      cases h
      exact Or.inl ⟨rfl, fun c hc => absurd hc List.not_mem_nil⟩
  | cons c cs ih =>
      rw [shortNameScan] at h
      have hlength : i + 1 + cs.length = i + (c :: cs).length := by
        rw [List.length_cons]
        omega
      split at h
      · rename_i hdot
        obtain ⟨hr, hcs⟩ := shortNameScan_dotted h
        refine Or.inr ⟨[], cs, ?_, ?_, hcs⟩
        · rw [hdot, List.nil_append]
        · rw [hr, hlength]
          rfl
      split at h
      · rename_i hchar
        have hcons : ∀ xs : List UInt8, (∀ x ∈ xs, ShortNameChar x) → ∀ x ∈ c :: xs, ShortNameChar x := by
          intro xs hxs x hx
          rcases List.mem_cons.mp hx with rfl | hx
          · exact hchar
          · exact hxs x hx
        rcases ih h with ⟨hr, hcs⟩ | ⟨base, ext, hcs, hr, hchars⟩
        · exact Or.inl ⟨by rw [hr, hlength], hcons cs hcs⟩
        · refine Or.inr ⟨c :: base, ext, ?_, ?_, hcons _ hchars⟩
          · rw [hcs, List.cons_append]
          · have hpos : i + 1 + base.length = i + (c :: base).length := by
              rw [List.length_cons]
              omega
            rw [hr, hlength, hpos]
      · cases h

theorem validateShortName_some (h : validateShortName s = some raw) :
    ∃ base ext, ShortName s base ext ∧ raw = padSpaces 8 (base.map toUpper) ++ padSpaces 3 (ext.map toUpper) := by
  rw [validateShortName] at h
  split at h
  · cases h
  cases hscan : shortNameScan s 0 none with
  | none =>
      rw [hscan] at h
      cases h
  | some r =>
      rw [hscan] at h
      rcases shortNameScan_undotted hscan with ⟨rfl, hchars⟩ | ⟨base, ext, htext, rfl, hchars⟩
      · simp only [Option.getD_none, Nat.zero_add] at h
        split at h
        · cases h
        rename_i hlengths
        refine ⟨s, [], ⟨Or.inl ⟨rfl, rfl⟩, ?_, by omega, by omega, Nat.zero_le 3⟩, ?_⟩
        · rwa [List.append_nil]
        · rw [← Option.some.inj h, List.take_length, List.take_zero]
      · have hext : s.length - base.length - 1 = ext.length := by
          rw [htext, List.length_append, List.length_cons]
          omega
        have hdrop : s.drop (base.length + 1) = ext := by
          rw [htext, ← List.drop_drop, List.drop_left]
          rfl
        have htake : s.take base.length = base := by rw [htext, List.take_left]
        simp only [Option.getD_some, Nat.zero_add, hext, hdrop, htake, List.take_length] at h
        split at h
        · cases h
        rename_i hlengths
        exact ⟨base, ext, ⟨Or.inr htext, hchars, by omega, by omega, by omega⟩, (Option.some.inj h).symm⟩

/-! ### The decoder -/

theorem parse83name_eq (src : List UInt8) (dstlen : Nat) : parse83name src dstlen = (fat83ToStr src).take (dstlen - 2) := by
  rw [parse83name, fat83ToStr]

/-- A name in upper case, without its dot when the extension is empty. -/
def upperName (s : List UInt8) : List UInt8 := (if s.getLast? = some dot then s.dropLast else s).map toUpper

theorem ShortNameChar.ne_space {c : UInt8} (h : ShortNameChar c) : c ≠ 32 := by
  rintro rfl
  revert h
  decide

theorem ShortNameChar.ne_dot {c : UInt8} (h : ShortNameChar c) : c ≠ dot := by
  rintro rfl
  revert h
  decide

theorem ShortNameChar.ne_zero {c : UInt8} (h : ShortNameChar c) : c ≠ 0 := by
  rintro rfl
  revert h
  decide

theorem ShortName.base_char (h : ShortName s base ext) : ∀ c ∈ base, ShortNameChar c := fun c hc => h.chars c (List.mem_append_left ext hc)

theorem ShortName.ext_char (h : ShortName s base ext) : ∀ c ∈ ext, ShortNameChar c := fun c hc => h.chars c (List.mem_append_right base hc)

theorem ShortName.upper (h : ShortName s base ext) :
    upperName s = base.map toUpper ++ if ext = [] then [] else dot :: ext.map toUpper := by
  have hbase := h.base_char
  have hext := h.ext_char
  have hbaseLast : base.getLast? ≠ some dot := fun heq => (hbase dot (List.mem_of_getLast? heq)).ne_dot rfl
  rcases h.text with ⟨rfl, rfl⟩ | rfl
  · rw [upperName, if_neg hbaseLast, if_pos rfl, List.append_nil]
  · rw [upperName]
    cases hcase : ext with
    | nil => simp
    | cons c rest =>
        have hlast : (base ++ dot :: c :: rest).getLast? ≠ some dot := by
          rw [← hcase, List.getLast?_append_cons, hcase, List.getLast?_cons_cons, ← hcase]
          exact fun heq => (hext dot (List.mem_of_getLast? heq)).ne_dot rfl
        rw [if_neg hlast, if_neg (List.cons_ne_nil c rest), List.map_append, List.map_cons]
        rfl

/-- The text of the eleven bytes is the name in upper case, cut to eleven characters. -/
theorem ShortName.parse (h : ShortName s base ext) :
    parse83name (padSpaces 8 (base.map toUpper) ++ padSpaces 3 (ext.map toUpper)) 13 = (upperName s).take 11 := by
  have hclean : ∀ xs : List UInt8, (∀ x ∈ xs, ShortNameChar x) → (xs.map toUpper).takeWhile (· ≠ 32) = xs.map toUpper := by
    intro xs hxs
    rw [takeWhile_map_toUpper, takeWhile_eq_self_of_notMem fun hmem => (hxs 32 hmem).ne_space rfl]
  rw [parse83name_eq, fat83ToStr_padded (by rw [List.length_map]; exact h.base_le) (by rw [List.length_map]; exact h.ext_le), h.upper,
    hclean base h.base_char, hclean ext h.ext_char]
  cases hcase : ext with
  | nil => rfl
  | cons c rest =>
      have hc : toUpper c ≠ 32 := toUpper_ne_space.mpr (h.ext_char c (hcase ▸ List.mem_cons_self)).ne_space
      rw [List.map_cons, List.headD_cons, if_neg hc, if_neg (List.cons_ne_nil c rest)]

/-! ### The lookup -/

theorem toLower_eq_zero : ∀ c : UInt8, toLower c = 0 ↔ c = 0 := forall_byte (by decide +kernel)

theorem toLower_toUpper : ∀ c : UInt8, toLower (toUpper c) = toLower c := forall_byte (by decide +kernel)

/-- What `k_strncmpi` sees of a name. -/
def foldedName (name : List UInt8) : List UInt8 := (name.takeWhile (· ≠ 0)).map toLower

theorem foldedName_eq (s : List UInt8) :
    foldedName s = if toLower (s.headD 0) = 0 then [] else toLower (s.headD 0) :: foldedName s.tail := by
  cases s with
  | nil => rfl
  | cons b s =>
      by_cases hb : b = 0
      · rw [hb]
        rfl
      · rw [List.headD_cons, List.tail_cons, if_neg (mt (toLower_eq_zero b).mp hb), foldedName, List.takeWhile_cons_of_pos (by simpa using hb),
          List.map_cons, foldedName]

theorem kStrncmpi_iff {n : Nat} (hlen : s.length < n) : kStrncmpi n s t = 0 ↔ foldedName s = foldedName t := by
  induction n generalizing s t with
  | zero => exact absurd hlen (Nat.not_lt_zero _)
  | succ n ih =>
      rw [kStrncmpi, foldedName_eq s, foldedName_eq t]
      by_cases hheads : toLower (s.headD 0) = toLower (t.headD 0)
      · rw [if_neg (not_not.mpr hheads), hheads]
        split
        · exact ⟨fun _ => rfl, fun _ => rfl⟩
        · rename_i hzero
          have hne : s ≠ [] := by
            rintro rfl
            exact hzero hheads.symm
          have hpos := List.length_pos_of_ne_nil hne
          rw [ih (by rw [List.length_tail]; omega), List.cons_inj_right]
      · rw [if_pos hheads]
        refine ⟨fun h => absurd h Nat.one_ne_zero, fun h => ?_⟩
        split at h
        · split at h
          · rename_i hs ht
            exact absurd (hs.trans ht.symm) hheads
          · cases h
        · split at h
          · cases h
          · exact absurd (List.cons.inj h).1 hheads

theorem foldedName_of_notMem (hs : 0 ∉ s) : foldedName s = s.map toLower := by
  rw [foldedName, takeWhile_eq_self_of_notMem hs]

/-- Two C strings compare equal exactly when they agree up to case. -/
theorem kStrncmpi_eq_zero {n : Nat} (hs : 0 ∉ s) (ht : 0 ∉ t) (hlen : s.length < n) :
    kStrncmpi n s t = 0 ↔ s.map toLower = t.map toLower := by
  rw [kStrncmpi_iff hlen, foldedName_of_notMem hs, foldedName_of_notMem ht]

/-- An entry with the eleven bytes `raw` is found under `s`: a scanner stops at every slot that holds them, when no long name stands in front of it. -/
def FoundUnder (raw s : List UInt8) : Prop :=
  ∀ {α : Type} (f : DirEntry → Nat → Nat → List UInt8 → α) (lfn : Memory → Nat → LfnState → Option LfnState) (sec : Memory) (lba off : Nat)
    (l : LfnState), (dirEntryAt sec off).name = raw → (dirEntryAt sec off).attr &&& attrVolumeId = 0 → l.has = false →
    scanEntry ⟨lfn, lookup (nameIs s) f⟩ sec lba off l none = some (.done (some (f (dirEntryAt sec off) lba off (parse83name raw 13))))

theorem dirEntryAt_name_head (sec : Memory) (off : Nat) : (dirEntryAt sec off).name.head? = some (sec off) := rfl

/-- The first byte of an accepted name makes the scanners show the entry. -/
theorem ShortName.head (h : ShortName s base ext) {c : UInt8} (hc : (padSpaces 8 (base.map toUpper) ++ padSpaces 3 (ext.map toUpper)).head? = some c) :
    c ≠ 0 ∧ c ≠ 0xE5 ∧ c ≠ dot := by
  cases hcase : base with
  | nil =>
      have := h.base_pos
      rw [hcase] at this
      exact absurd this (Nat.lt_irrefl 0)
  | cons b rest =>
      have hb : ShortNameChar b := h.base_char b (hcase ▸ List.mem_cons_self)
      have hbyte : ∀ x : UInt8, ShortNameChar x → toUpper x ≠ 0 ∧ toUpper x ≠ 0xE5 ∧ toUpper x ≠ dot := forall_byte (by decide +kernel)
      rw [hcase] at hc
      cases hc
      exact hbyte b hb

/-- A lookup at an entry that is shown under its short name. -/
theorem ShortName.scanEntry_lookup (h : ShortName s base ext) (hraw : raw = padSpaces 8 (base.map toUpper) ++ padSpaces 3 (ext.map toUpper))
    {α : Type} {f : DirEntry → Nat → Nat → List UInt8 → α} {lfn : Memory → Nat → LfnState → Option LfnState} {sec : Memory} {lba off : Nat}
    {l : LfnState} (hname : (dirEntryAt sec off).name = raw) (hattr : (dirEntryAt sec off).attr &&& attrVolumeId = 0) (hhas : l.has = false) :
    scanEntry ⟨lfn, lookup (nameIs t) f⟩ sec lba off l none =
      if kStrncmpi fat32NameMax (parse83name raw 13) t = 0 then some (.done (some (f (dirEntryAt sec off) lba off (parse83name raw 13))))
      else some (.more l.reset none) := by
  obtain ⟨hzero, hdeleted, hdot⟩ := h.head (c := sec off) (by rw [← hraw, ← hname, dirEntryAt_name_head])
  have hlfn : (dirEntryAt sec off).attr ≠ attrLfn := by
    intro heq
    rw [heq] at hattr
    exact absurd hattr (by decide)
  simp only [scanEntry, if_neg hzero, if_neg hdeleted, if_neg hlfn, if_neg (not_not.mpr hattr), if_neg hdot, hhas, hname, lookup, nameIs,
    Bool.false_eq_true, if_false, Option.map_some, decide_eq_true_eq]
  by_cases hsame : kStrncmpi fat32NameMax (parse83name raw 13) t = 0
  · simp only [if_pos hsame]
  · simp only [if_neg hsame]

theorem ShortName.found (h : ShortName s base ext) (hraw : raw = padSpaces 8 (base.map toUpper) ++ padSpaces 3 (ext.map toUpper)) :
    FoundUnder raw s ↔ kStrncmpi fat32NameMax (parse83name raw 13) s = 0 := by
  constructor
  · intro hfound
    have hlength : raw.length = 11 := by
      rw [hraw, List.length_append, length_padSpaces (by rw [List.length_map]; exact h.base_le),
        length_padSpaces (by rw [List.length_map]; exact h.ext_le)]
    -- a sector that starts with these bytes
    have hname : (dirEntryAt (fun i => raw.getD i 0) 0).name = raw := by
      rw [dirEntryAt, Lib.bytes_getD, hlength, List.take_of_length_le hlength.le]
      exact List.append_nil raw
    have hattr : (dirEntryAt (fun i => raw.getD i 0) 0).attr = 0 := by
      simp only [dirEntryAt, Nat.zero_add, List.getD_eq_getElem?_getD, List.getElem?_eq_none hlength.le, Option.getD_none]
    have hlabel : (dirEntryAt (fun i => raw.getD i 0) 0).attr &&& attrVolumeId = 0 := by
      rw [hattr]
      rfl
    have hstop := hfound (fun e _ _ _ => e) findLfn (fun i => raw.getD i 0) 0 0 .empty hname hlabel rfl
    rw [h.scanEntry_lookup hraw hname hlabel rfl] at hstop
    by_contra hdiffer
    rw [if_neg hdiffer] at hstop
    cases hstop
  · intro hsame α f lfn sec lba off l hname hattr hhas
    rw [h.scanEntry_lookup hraw hname hattr hhas, if_pos hsame]

/-! ### The round trip -/

/-- The text read back is the whole name exactly when it has at most eleven characters. -/
theorem ShortName.parse_eq_upperName (h : ShortName s base ext) :
    parse83name (padSpaces 8 (base.map toUpper) ++ padSpaces 3 (ext.map toUpper)) 13 = upperName s ↔ s.length < 12 := by
  rw [h.parse, List.take_eq_self_iff]
  have hbase := h.base_le
  have hext := h.ext_le
  have hlength : (upperName s).length = base.length + if ext = [] then 0 else ext.length + 1 := by
    rw [h.upper, List.length_append, List.length_map]
    split
    · rfl
    · rw [List.length_cons, List.length_map]
  rw [hlength]
  rcases h.text with ⟨rfl, rfl⟩ | rfl
  · simp only [if_true]
    omega
  · rw [List.length_append, List.length_cons]
    split
    · rename_i hnil
      rw [hnil, List.length_nil]
      omega
    · omega

theorem ShortName.no_zero (h : ShortName s base ext) : 0 ∉ s := by
  intro hmem
  rcases h.text with ⟨rfl, rfl⟩ | rfl
  · exact (h.base_char 0 hmem).ne_zero rfl
  · rcases List.mem_append.mp hmem with hmem | hmem
    · exact (h.base_char 0 hmem).ne_zero rfl
    · rcases List.mem_cons.mp hmem with hdot | hmem
      · exact absurd hdot (by decide)
      · exact (h.ext_char 0 hmem).ne_zero rfl

theorem map_toLower_map_toUpper (s : List UInt8) : (s.map toUpper).map toLower = s.map toLower := by
  rw [List.map_map]
  apply List.map_congr_left
  intro c _
  exact toLower_toUpper c

/-- A lookup compares the text read back with the name, dot included. -/
theorem ShortName.found_iff (h : ShortName s base ext) (hraw : raw = padSpaces 8 (base.map toUpper) ++ padSpaces 3 (ext.map toUpper)) :
    FoundUnder raw s ↔ s.length < 12 ∧ s.getLast? ≠ some dot := by
  have hzero : (0 : UInt8) ∉ (upperName s).take 11 := by
    intro hmem
    obtain ⟨c, hc, hupper⟩ := List.mem_map.mp (List.mem_of_mem_take hmem)
    have hc' : c = 0 := toUpper_eq (by decide) hupper
    rw [hc'] at hc
    split at hc
    · exact h.no_zero (List.mem_of_mem_dropLast hc)
    · exact h.no_zero hc
  have hcut : ((upperName s).take 11).length < fat32NameMax := Nat.lt_of_le_of_lt (List.length_take_le 11 _) (by decide)
  rw [h.found hraw, hraw, h.parse, kStrncmpi_eq_zero hzero h.no_zero hcut]
  have hne : s ≠ [] := by
    rintro rfl
    have := h.base_pos
    rcases h.text with ⟨rfl, -⟩ | hnil
    · exact absurd this (Nat.lt_irrefl 0)
    · exact absurd hnil.symm (List.append_ne_nil_of_right_ne_nil _ (List.cons_ne_nil _ _))
  constructor
  · intro hsame
    have hlength := congrArg List.length hsame
    rw [List.length_map, List.length_map, List.length_take] at hlength
    refine ⟨by omega, fun hlast => ?_⟩
    rw [upperName, if_pos hlast, List.length_map, List.length_dropLast] at hlength
    have := List.length_pos_of_ne_nil hne
    omega
  · rintro ⟨hshort, hlast⟩
    rw [upperName, if_neg hlast, List.take_of_length_le (by rw [List.length_map]; omega), map_toLower_map_toUpper]

/-- A valid short name is read back in upper case exactly when it has at most eleven characters. An entry stored under it is then found by it unless it ends with its dot. -/
theorem validateShortName_roundTrip {s raw : List UInt8} (h : validateShortName s = some raw) :
    (parse83name raw 13 = upperName s ↔ s.length < 12) ∧
    (parse83name raw 13 = upperName s ∧ FoundUnder raw s ↔ s.length < 12 ∧ s.getLast? ≠ some dot) := by
  obtain ⟨base, ext, hname, hraw⟩ := validateShortName_some h
  have htext : parse83name raw 13 = upperName s ↔ s.length < 12 := by rw [hraw, hname.parse_eq_upperName]
  refine ⟨htext, ?_⟩
  rw [htext, hname.found_iff hraw]
  exact ⟨fun hboth => hboth.2, fun hboth => ⟨hboth.1, hboth⟩⟩

/-- `ab.c` is read back as `AB.C` and found. -/
theorem validateShortName_roundTrip_short :
    validateShortName [97, 98, dot, 99] = some [65, 66, 32, 32, 32, 32, 32, 32, 67, 32, 32] ∧
    parse83name [65, 66, 32, 32, 32, 32, 32, 32, 67, 32, 32] 13 = upperName [97, 98, dot, 99] ∧
    FoundUnder [65, 66, 32, 32, 32, 32, 32, 32, 67, 32, 32] [97, 98, dot, 99] := by
  have haccepted : validateShortName [97, 98, dot, 99] = some [65, 66, 32, 32, 32, 32, 32, 32, 67, 32, 32] := by decide +kernel
  exact ⟨haccepted, (validateShortName_roundTrip haccepted).2.mpr (by decide)⟩

/-- `AAAAAAAA.BBC` is read back without its last character. -/
theorem fat32_longest_name_cut : ¬ ∀ s raw, validateShortName s = some raw → parse83name raw 13 = upperName s ∧ FoundUnder raw s := by
  intro hall
  have haccepted : validateShortName [65, 65, 65, 65, 65, 65, 65, 65, dot, 66, 66, 67] = some [65, 65, 65, 65, 65, 65, 65, 65, 66, 66, 67] := by
    decide +kernel
  have htext := (hall _ _ haccepted).1
  exact absurd htext (by decide +kernel)

end Tsukasa
