import Tsukasa.Fs.Fat12Fail

/-!
# Names on a FAT12 volume

The eleven bytes of an entry hold a base of at most eight characters and an extension of at most three. A name of that shape without spaces comes back from its entry in upper case. Any other name is cut to the shape, so it gets the entry of another name; nothing rejects it.
-/

namespace Tsukasa

open Lib (Memory)

variable {v w u t : Fat12} {off doff : Nat} {others : List Nat} {name name' path path' base ext : List UInt8}

/-! ### The eleven bytes -/

theorem length_padSpaces {n : Nat} {s : List UInt8} (h : s.length ≤ n) : (padSpaces n s).length = n := by
  rw [padSpaces, List.length_append, List.length_replicate]
  omega

theorem takeWhile_padSpaces (n : Nat) (s : List UInt8) : (padSpaces n s).takeWhile (· ≠ 32) = s.takeWhile (· ≠ 32) := by
  have hspaces : (List.replicate (n - s.length) (32 : UInt8)).takeWhile (· ≠ 32) = [] := by
    rw [List.takeWhile_replicate]
    rfl
  rw [padSpaces, List.takeWhile_append, hspaces, List.append_nil]
  split
  · rename_i hlength
    exact ((List.takeWhile_prefix _).eq_of_length hlength).symm
  · rfl

theorem toUpper_ne_space {c : UInt8} : toUpper c ≠ 32 ↔ c ≠ 32 := by
  refine not_congr ⟨fun h => toUpper_eq (by decide) h, ?_⟩
  rintro rfl
  rfl

theorem takeWhile_map_toUpper (s : List UInt8) : (s.map toUpper).takeWhile (· ≠ 32) = (s.takeWhile (· ≠ 32)).map toUpper := by
  rw [List.takeWhile_map]
  congr 2
  funext c
  simp only [Function.comp, toUpper_ne_space]

/-- The text of a padded base and extension. -/
theorem fat83ToStr_padded (hbase : base.length ≤ 8) (hext : ext.length ≤ 3) : fat83ToStr (padSpaces 8 base ++ padSpaces 3 ext) =
    base.takeWhile (· ≠ 32) ++ if ext.headD 32 = 32 then [] else dot :: ext.takeWhile (· ≠ 32) := by
  have hfirst : (padSpaces 8 base ++ padSpaces 3 ext).take 8 = padSpaces 8 base := List.take_left' (length_padSpaces hbase)
  have hsecond : ((padSpaces 8 base ++ padSpaces 3 ext).drop 8).take 3 = padSpaces 3 ext := by
    rw [List.drop_left' (length_padSpaces hbase), List.take_of_length_le (length_padSpaces hext).le]
  have hbyte : (padSpaces 8 base ++ padSpaces 3 ext).getD 8 0 = ext.headD 32 := by
    rw [List.getD_eq_getElem?_getD, List.getElem?_append_right (length_padSpaces hbase).le, length_padSpaces hbase]
    cases ext with
    | nil => rfl
    | cons c ext => rfl
  rw [fat83ToStr]
  simp only [hfirst, hsecond, hbyte, takeWhile_padSpaces]
  split
  · rfl
  · rename_i heq
    rw [if_pos (not_not.mp heq), List.append_nil]

/-- What `str_to_fat83` keeps of the base, and of the extension. -/
def base83 (name : List UInt8) : List UInt8 := (name.takeWhile (· ≠ dot)).take 8

def ext83 (name : List UInt8) : List UInt8 :=
  if (name.drop (base83 name).length).head? = some dot then (name.drop (base83 name).length).tail.take 3 else []

theorem strToFat83_eq (name : List UInt8) : strToFat83 name = padSpaces 8 ((base83 name).map toUpper) ++ padSpaces 3 ((ext83 name).map toUpper) := rfl

theorem length_base83 (name : List UInt8) : (base83 name).length ≤ 8 := List.length_take_le 8 _

theorem length_ext83 (name : List UInt8) : (ext83 name).length ≤ 3 := by
  rw [ext83]
  split
  · exact List.length_take_le 3 _
  · exact Nat.zero_le 3

/-- The text that a name is cut to. -/
def cut83 (name : List UInt8) : List UInt8 :=
  (base83 name).takeWhile (· ≠ 32) ++ if (ext83 name).headD 32 = 32 then [] else dot :: (ext83 name).takeWhile (· ≠ 32)

theorem fat83ToStr_strToFat83 (name : List UInt8) : fat83ToStr (strToFat83 name) = (cut83 name).map toUpper := by
  have hhead : ((ext83 name).map toUpper).headD 32 = 32 ↔ (ext83 name).headD 32 = 32 := by
    cases ext83 name with
    | nil => rfl
    | cons c ext => exact not_iff_not.mp toUpper_ne_space
  rw [strToFat83_eq, fat83ToStr_padded (by rw [List.length_map]; exact length_base83 name) (by rw [List.length_map]; exact length_ext83 name), cut83,
    List.map_append, takeWhile_map_toUpper, takeWhile_map_toUpper]
  simp only [hhead]
  split
  · rfl
  · rfl

/-! ### Faithful names -/

/-- At most eight characters, and at most three more behind a dot. There is no space, no dot in the base, and the first character is not the mark of a deleted entry. -/
structure Shape83 (name base ext : List UInt8) : Prop where
  text : name = base ++ if ext = [] then [] else dot :: ext
  length_base : base.length ≤ 8
  length_ext : ext.length ≤ 3
  no_dot : dot ∉ base
  space_base : 32 ∉ base
  space_ext : 32 ∉ ext
  nonempty : name ≠ []
  mark : name.head? ≠ some 0xE5

/-- The name has a faithful 8.3 form. -/
def Faithful83 (name : List UInt8) : Prop := ∃ base ext, Shape83 name base ext

theorem takeWhile_eq_self_of_notMem {c : UInt8} {s : List UInt8} (h : c ∉ s) : s.takeWhile (· ≠ c) = s := by
  rw [List.takeWhile_eq_self_iff]
  intro x hx
  exact decide_eq_true fun heq => h (heq ▸ hx)

theorem Shape83.cut (h : Shape83 name base ext) : cut83 name = name := by
  have hstop : (if ext = [] then [] else dot :: ext).takeWhile (· ≠ dot) = [] := by
    split
    · rfl
    · simp
  have hbase : base83 name = base := by
    have hdots : ∀ c ∈ base, decide (c ≠ dot) = true := fun c hc => decide_eq_true fun heq => h.no_dot (heq ▸ hc)
    rw [base83, h.text, List.takeWhile_append_of_pos hdots, hstop, List.append_nil, List.take_of_length_le h.length_base]
  have hext : ext83 name = ext := by
    rw [ext83, hbase, h.text, List.drop_left]
    cases ext with
    | nil => rfl
    | cons c ext => exact List.take_of_length_le h.length_ext
  rw [cut83, hbase, hext, takeWhile_eq_self_of_notMem h.space_base, takeWhile_eq_self_of_notMem h.space_ext]
  conv_rhs =>
    rw [h.text]
  cases hcase : ext with
  | nil => rfl
  | cons c rest =>
      have hc : c ≠ 32 := fun heq => h.space_ext (by rw [hcase, heq]; exact List.mem_cons_self)
      simp [hc]

/-- A faithful name comes back from its entry in upper case. -/
theorem Faithful83.text (h : Faithful83 name) : fat83ToStr (strToFat83 name) = name.map toUpper := by
  obtain ⟨base, ext, hshape⟩ := h
  rw [fat83ToStr_strToFat83, hshape.cut]

theorem notMem_of_length_takeWhile {c : UInt8} {s : List UInt8} (h : s.length ≤ (s.takeWhile (· ≠ c)).length) : c ∉ s := by
  have hself : s.takeWhile (· ≠ c) = s := (List.takeWhile_prefix _).eq_of_length_le h
  rw [List.takeWhile_eq_self_iff] at hself
  intro hc
  exact absurd rfl (of_decide_eq_true (hself c hc))

/-- A name is the part before its first dot and the rest. -/
theorem split_at_dot (name : List UInt8) : ∃ base rest, name = base ++ rest ∧ name.takeWhile (· ≠ dot) = base ∧ dot ∉ base ∧
    (rest = [] ∨ ∃ ext, rest = dot :: ext) := by
  refine ⟨name.takeWhile (· ≠ dot), name.dropWhile (· ≠ dot), List.takeWhile_append_dropWhile.symm, rfl, ?_, ?_⟩
  · intro hmem
    have hdot := List.mem_takeWhile_imp hmem
    exact absurd hdot (by decide)
  · cases hrest : name.dropWhile (· ≠ dot) with
    | nil => exact Or.inl rfl
    | cons c ext =>
        have hc := List.head?_dropWhile_not (· ≠ dot) name
        rw [hrest] at hc
        obtain rfl : c = dot := by simpa using hc
        exact Or.inr ⟨ext, rfl⟩

/-- A name that is not cut has the shape. -/
theorem faithful83_of_cut (hne : name ≠ []) (hmark : name.head? ≠ some 0xE5) (hcut : name.length ≤ (cut83 name).length) : Faithful83 name := by
  obtain ⟨base, rest, hname, htake, hdot, hrest⟩ := split_at_dot name
  have hspaces : ∀ s : List UInt8, (s.takeWhile (· ≠ 32)).length ≤ s.length := fun s => (List.takeWhile_prefix _).length_le
  by_cases hlong : 8 < base.length
  · -- the base is cut, and the next character is not a dot
    have hbase : base83 name = base.take 8 := by rw [base83, htake]
    have hnext : (name.drop 8).head? ≠ some dot := by
      rw [List.head?_drop, hname, List.getElem?_append_left hlong]
      exact fun hget => hdot (List.mem_of_getElem? hget)
    have hlength : (base83 name).length = 8 := by
      rw [hbase, List.length_take]
      omega
    rw [cut83, ext83, hlength, if_neg hnext, List.headD_nil, if_pos rfl, List.append_nil] at hcut
    have hcutBase := hspaces (base83 name)
    have hlength' := congrArg List.length hname
    rw [List.length_append] at hlength'
    omega
  have hbase : base83 name = base := by rw [base83, htake, List.take_of_length_le (Nat.not_lt.mp hlong)]
  have hcutBase := hspaces base
  rcases hrest with rfl | ⟨ext, rfl⟩
  · have hext : ext83 name = [] := by
      rw [ext83, hbase, hname, List.drop_left]
      rfl
    rw [List.append_nil] at hname
    rw [cut83, hbase, hext, List.headD_nil, if_pos rfl, List.append_nil, hname] at hcut
    refine ⟨base, [], ?_, Nat.not_lt.mp hlong, Nat.zero_le 3, hdot, notMem_of_length_takeWhile hcut, List.not_mem_nil, hne, hmark⟩
    rw [if_pos rfl, List.append_nil, hname]
  · have hext : ext83 name = ext.take 3 := by
      rw [ext83, hbase, hname, List.drop_left]
      rfl
    have hcutExt := hspaces (ext.take 3)
    have htake3 : (ext.take 3).length = min 3 ext.length := List.length_take
    have hlength : name.length = base.length + (ext.length + 1) := by
      rw [hname, List.length_append, List.length_cons]
    rw [cut83, hbase, hext, List.length_append] at hcut
    split at hcut
    · rw [List.length_nil] at hcut
      omega
    rename_i hhead
    rw [List.length_cons] at hcut
    have hself : ext.take 3 = ext := List.take_of_length_le (by omega)
    rw [hself] at hcut hhead hcutExt htake3
    have hnil : ext ≠ [] := by
      rintro rfl
      exact hhead rfl
    refine ⟨base, ext, ?_, Nat.not_lt.mp hlong, by omega, hdot, notMem_of_length_takeWhile (by omega), notMem_of_length_takeWhile (by omega), hne, hmark⟩
    rw [if_neg hnil, hname]

/-- The faithful names are the ones that come back, except for the mark of a deleted entry. -/
theorem faithful83_iff : Faithful83 name ↔ name ≠ [] ∧ name.head? ≠ some 0xE5 ∧ fat83ToStr (strToFat83 name) = name.map toUpper := by
  constructor
  · intro h
    have htext := h.text
    obtain ⟨base, ext, hshape⟩ := h
    exact ⟨hshape.nonempty, hshape.mark, htext⟩
  · rintro ⟨hne, hmark, htext⟩
    apply faithful83_of_cut hne hmark
    have hlength := congrArg List.length htext
    rw [fat83ToStr_strToFat83, List.length_map, List.length_map] at hlength
    exact hlength.ge

theorem Faithful83.upper_eq (h : Faithful83 name) (h' : Faithful83 name') (heq : strToFat83 name = strToFat83 name') :
    name.map toUpper = name'.map toUpper := by
  rw [← h.text, ← h'.text, heq]

/-! ### Which entry a call selects -/

/-- The entry that `fat12_stat` and `fat12_read_file` work on. -/
def selectedEntry (v : Fat12) (path : List UInt8) : Option Nat :=
  if pathToName path = [] ∨ findDirent v (pathToName path) = 0 then none else some (findDirent v (pathToName path))

/-- The entry that `fat12_write_file` works on, a new one if need be. -/
def writtenEntry (v : Fat12) (path : List UInt8) : Option Nat :=
  if pathToName path = [] then none else (findOrCreate v (pathToName path)).map Prod.fst

/-- Calls with the second path keep away from the entry of the first one, also after a write. -/
structure NoAlias (v : Fat12) (path path' : List UInt8) : Prop where
  lookup : ∀ off, selectedEntry v path = some off → selectedEntry v path' ≠ some off
  write : ∀ off, writtenEntry v path = some off → ∀ data ret w, fat12WriteFile v path data = some (ret, w) →
    selectedEntry w path' ≠ some off ∧ writtenEntry w path' ≠ some off

structure Rejected (v : Fat12) (path : List UInt8) : Prop where
  stat : fat12Stat v path = none
  read : ∀ max, fat12ReadFile v path max = some (-1, [])
  write : ∀ data, ∃ w, fat12WriteFile v path data = some (-1, w)

/-- The text of an entry that a write creates is the name in upper case. -/
def CreatesName (v : Fat12) (path : List UInt8) : Prop :=
  ∀ off, selectedEntry v path = none → writtenEntry v path = some off → ∀ data ret w, fat12WriteFile v path data = some (ret, w) →
    fat83ToStr (w.disk.bytes off 11) = (pathToName path).map toUpper

/-- The names of two paths are kept apart, and each one is faithful or rejected. -/
structure NamesApart (v : Fat12) (path path' : List UInt8) : Prop where
  first : NoAlias v path path'
  second : NoAlias v path' path
  rejected : ∀ p ∈ [path, path'], ¬ Faithful83 (pathToName p) → Rejected v p
  created : ∀ p ∈ [path, path'], Faithful83 (pathToName p) → CreatesName v p

theorem selectedEntry_owns (h : selectedEntry v path = some off) :
    pathToName path ≠ [] ∧ findDirent v (pathToName path) ≠ 0 ∧ ownsChain v off ∧ fat83Match v off (pathToName path) = true := by
  rw [selectedEntry] at h
  split at h
  · cases h
  rename_i hfound
  obtain ⟨hname, hfound⟩ := not_or.mp hfound
  obtain rfl := Option.some.inj h
  obtain ⟨howns, hmatch⟩ := findDirent_owns hfound
  exact ⟨hname, hfound, howns, hmatch⟩

theorem writtenEntry_opens (h : writtenEntry v path = some off) : pathToName path ≠ [] ∧ ∃ u, findOrCreate v (pathToName path) = some (off, u) := by
  rw [writtenEntry] at h
  split at h
  · cases h
  rename_i hname
  obtain ⟨⟨off', u⟩, hopen, heq⟩ := Option.map_eq_some_iff.mp h
  obtain rfl : off' = off := heq
  exact ⟨hname, u, hopen⟩

/-- The entry that a write has worked on. -/
theorem written_owns (hlayout : Fat12Layout v) (h : Fat12WellFormed v others) (hstring : (0 : UInt8) ∉ path) (hfaithful : Faithful83 (pathToName path))
    (hopen : findOrCreate v (pathToName path) = some (off, u)) {data : List UInt8} {ret : Int} (hwrite : fat12WriteFile v path data = some (ret, w)) :
    SameNames u w ∧ off ∈ rootSlots u ∧ ownsChain w off ∧ u.disk.bytes off 11 = strToFat83 (pathToName path) := by
  obtain ⟨base, ext, hshape⟩ := hfaithful
  have hzero : (pathToName path).head? ≠ some 0 := fun hhead => hstring ((List.dropWhile_suffix _).subset (List.mem_of_head? hhead))
  obtain ⟨cs, hcs⟩ := h.namedChain (pathToName path)
  obtain ⟨t, ret', w', hwrite', hempty, hended⟩ := fat12WriteFile_steps hlayout h hshape.nonempty hstring hopen hcs data
  obtain ⟨-, rfl⟩ := Prod.mk.inj (Option.some.inj (hwrite.symm.trans hwrite'))
  have hnames : SameNames u w := hempty.names.trans hended.names
  rw [hnames.owns]
  rcases findOrCreate_cases hopen with ⟨hfound, rfl, rfl⟩ | ⟨hnone, ⟨before, behind, hslot⟩, rfl⟩
  · obtain ⟨howns, hmatch⟩ := findDirent_owns hfound
    exact ⟨hnames, hempty.slot, howns, of_decide_eq_true hmatch⟩
  · have hnew := @newDirent_entry v off (pathToName path) hlayout h.ended before behind hslot
      ⟨strToFat83_head (by decide) hzero, strToFat83_head (by decide) hshape.mark⟩
    exact ⟨hnames, hslot.mem, (hnew.owns off).mpr (Or.inl rfl), newDirent_bytes⟩

/-! ### When names are kept apart -/

/-- The name is faithful, or there is neither an entry nor a free slot for it. -/
def FaithfulOrFull (v : Fat12) (name : List UInt8) : Prop := name = [] ∨ Faithful83 name ∨ RootFull v name

theorem FaithfulOrFull.of_found (h : FaithfulOrFull v name) (hname : name ≠ []) (hfound : findDirent v name ≠ 0) : Faithful83 name := by
  rcases h with hnil | hfaithful | hfull
  · exact absurd hnil hname
  · exact hfaithful
  · exact absurd hfull.1 hfound

theorem FaithfulOrFull.of_opened (hlayout : Fat12Layout v) (h : FaithfulOrFull v name) (hname : name ≠ []) (hopen : findOrCreate v name = some (off, u)) :
    Faithful83 name := by
  rcases h with hnil | hfaithful | hfull
  · exact absurd hnil hname
  · exact hfaithful
  · rw [(findOrCreate_eq_none hlayout).mpr hfull] at hopen
    cases hopen

theorem noAlias (hlayout : Fat12Layout v) (h : Fat12WellFormed v others) (hstring : (0 : UInt8) ∉ path) (hok : FaithfulOrFull v (pathToName path))
    (hok' : FaithfulOrFull v (pathToName path')) (hne : (pathToName path).map toUpper ≠ (pathToName path').map toUpper) : NoAlias v path path' := by
  have hapart : ∀ {w : Fat12} {off : Nat}, Faithful83 (pathToName path) → Faithful83 (pathToName path') →
      w.disk.bytes off 11 = strToFat83 (pathToName path) → fat83Match w off (pathToName path') = true → False := by
    intro w off hfaithful hfaithful' hbytes hmatch
    exact hne (hfaithful.upper_eq hfaithful' (hbytes.symm.trans (of_decide_eq_true hmatch)))
  constructor
  · intro off hselected hselected'
    obtain ⟨hname, hfound, -, hmatch⟩ := selectedEntry_owns hselected
    obtain ⟨hname', hfound', -, hmatch'⟩ := selectedEntry_owns hselected'
    exact hapart (hok.of_found hname hfound) (hok'.of_found hname' hfound') (of_decide_eq_true hmatch) hmatch'
  · intro off hwritten data ret w hwrite
    obtain ⟨hname, u, hopen⟩ := writtenEntry_opens hwritten
    have hfaithful := hok.of_opened hlayout hname hopen
    obtain ⟨hnames, hslot, howns, hbytes⟩ := written_owns hlayout h hstring hfaithful hopen hwrite
    have hbytesW := (hnames.bytes hslot).trans hbytes
    have hfound : findDirent w (pathToName path') = off → pathToName path' ≠ [] → findDirent w (pathToName path') ≠ 0 → False := by
      intro heq hname' hfound'
      obtain ⟨-, hmatch'⟩ := findDirent_owns hfound'
      rw [heq] at hmatch'
      rcases hok' with hnil | hfaithful' | hfull
      · exact hname' hnil
      · exact hapart hfaithful hfaithful' hbytesW hmatch'
      · -- nothing could be created, so the names are the ones before the write
        rcases findOrCreate_cases hopen with ⟨-, -, rfl⟩ | ⟨-, ⟨before, behind, hfree⟩, -⟩
        · rw [hnames.find] at hfound'
          exact hfound' hfull.1
        · exact absurd hfree.free (not_or.mpr (hfull.2 off hfree.mem))
    constructor
    · intro hselected'
      obtain ⟨hname', hfound', -⟩ := selectedEntry_owns hselected'
      rw [selectedEntry, if_neg (not_or.mpr ⟨hname', hfound'⟩)] at hselected'
      exact hfound (Option.some.inj hselected') hname' hfound'
    · intro hwritten'
      obtain ⟨hname', u', hopen'⟩ := writtenEntry_opens hwritten'
      rcases findOrCreate_cases hopen' with ⟨hfound', heq, -⟩ | ⟨-, ⟨before, behind, hfree⟩, -⟩
      · exact hfound heq.symm hname' hfound'
      · exact hfree.absent howns

/-- A name that is not faithful is rejected when there is no place for it, and only then. -/
theorem rejected_iff (hlayout : Fat12Layout v) (h : Fat12WellFormed v others) (hstring : (0 : UInt8) ∉ path) :
    Rejected v path ↔ pathToName path = [] ∨ RootFull v (pathToName path) := by
  by_cases hname : pathToName path = []
  · refine ⟨fun _ => Or.inl hname, fun _ => ⟨?_, fun max => ?_, fun data => ⟨v, ?_⟩⟩⟩
    · simp [fat12Stat, hname]
    · simp [fat12ReadFile, hname]
    · simp [fat12WriteFile, hname]
  constructor
  · intro hrejected
    rw [← findOrCreate_eq_none hlayout]
    right
    cases hopen : findOrCreate v (pathToName path) with
    | none => rfl
    | some opened =>
        -- a write of nothing to this entry would succeed
        obtain ⟨doff, u⟩ := opened
        obtain ⟨cs, hcs⟩ := h.namedChain (pathToName path)
        obtain ⟨t, ret, w, hwrite, -, hended⟩ := fat12WriteFile_steps hlayout h hname hstring hopen hcs []
        obtain ⟨w', hwrite'⟩ := hrejected.write []
        rw [hended.fits (Nat.zero_le _), hwrite'] at hwrite
        cases hwrite
  · rintro (hnil | hfull)
    · exact absurd hnil hname
    · have hopen := (findOrCreate_eq_none hlayout).mpr hfull
      refine ⟨?_, fun max => ?_, fun data => ⟨v, ?_⟩⟩
      · simp [fat12Stat, hname, hfull.1]
      · simp [fat12ReadFile, hname, hfull.1]
      · simp [fat12WriteFile, hlayout.mounted, hname, hopen]

theorem createsName (hlayout : Fat12Layout v) (h : Fat12WellFormed v others) (hstring : (0 : UInt8) ∉ path) (hfaithful : Faithful83 (pathToName path)) :
    CreatesName v path := by
  intro off _ hwritten data ret w hwrite
  obtain ⟨-, u, hopen⟩ := writtenEntry_opens hwritten
  obtain ⟨hnames, hslot, -, hbytes⟩ := written_owns hlayout h hstring hfaithful hopen hwrite
  rw [hnames.bytes hslot, hbytes, hfaithful.text]

/-- Two names that differ in upper case are kept apart, and rejected or faithful, exactly when each of them has a faithful 8.3 form or finds the directory full. -/
theorem fat12_names_iff {v₀ : Fat12} {disk : Memory} {size : Nat} (hinit : fat12Init v₀ disk size = (0, v)) (h : Fat12WellFormed v others)
    (hstring : (0 : UInt8) ∉ path) (hstring' : (0 : UInt8) ∉ path') (hne : (pathToName path).map toUpper ≠ (pathToName path').map toUpper) :
    NamesApart v path path' ↔ FaithfulOrFull v (pathToName path) ∧ FaithfulOrFull v (pathToName path') := by
  have hlayout := fat12Init_layout hinit h.areas
  have hrejected : ∀ p, (0 : UInt8) ∉ p → ((¬ Faithful83 (pathToName p) → Rejected v p) ↔ FaithfulOrFull v (pathToName p)) := by
    intro p hp
    rw [rejected_iff hlayout h hp, FaithfulOrFull]
    tauto
  constructor
  · intro hapart
    exact ⟨(hrejected path hstring).mp (hapart.rejected path (by simp)), (hrejected path' hstring').mp (hapart.rejected path' (by simp))⟩
  · rintro ⟨hok, hok'⟩
    refine ⟨noAlias hlayout h hstring hok hok' hne, noAlias hlayout h hstring' hok' hok hne.symm, ?_, ?_⟩
    · intro p hp
      rcases List.mem_pair.mp hp with rfl | rfl
      · exact (hrejected p hstring).mpr hok
      · exact (hrejected p hstring').mpr hok'
    · intro p hp
      rcases List.mem_pair.mp hp with rfl | rfl
      · exact createsName hlayout h hstring
      · exact createsName hlayout h hstring'

theorem fat12_names_small : NamesApart smallVolume [65] [66] := by
  have hinit : fat12Init ⟨false, 0, ⟨0, 0, 0, 0, 0, 0, 0, 0, 0, 0⟩, fun _ => 0⟩ smallImage 768 = (0, smallVolume) := rfl
  apply (fat12_names_iff hinit smallVolume_wellFormed (by decide) (by decide) (by decide)).mpr
  refine ⟨Or.inr (Or.inl ⟨[65], [], ?_⟩), Or.inr (Or.inl ⟨[66], [], ?_⟩)⟩
  · constructor <;> decide
  · constructor <;> decide

/-- `LONGNAME1` and `LONGNAME2` share an entry: what is written to the one is read from the other. -/
theorem fat12_names_alias :
    Fat12WellFormed smallVolume [] ∧ ¬ NamesApart smallVolume [76, 79, 78, 71, 78, 65, 77, 69, 49] [76, 79, 78, 71, 78, 65, 77, 69, 50] ∧
      ∃ w, fat12WriteFile smallVolume [76, 79, 78, 71, 78, 65, 77, 69, 49] [1, 2] = some (0, w) ∧
        fat12ReadFile w [76, 79, 78, 71, 78, 65, 77, 69, 50] 8 = some (2, [1, 2]) := by
  have hentry : writtenEntry smallVolume [76, 79, 78, 71, 78, 65, 77, 69, 49] = some 608 := by decide +kernel
  have hwrite : (fat12WriteFile smallVolume [76, 79, 78, 71, 78, 65, 77, 69, 49] [1, 2]).map (fun r =>
      (r.1, fat12ReadFile r.2 [76, 79, 78, 71, 78, 65, 77, 69, 50] 8, writtenEntry r.2 [76, 79, 78, 71, 78, 65, 77, 69, 50])) =
        some (0, some (2, [1, 2]), some 608) := by
    decide +kernel
  cases hresult : fat12WriteFile smallVolume [76, 79, 78, 71, 78, 65, 77, 69, 49] [1, 2] with
  | none =>
      rw [hresult] at hwrite
      cases hwrite
  | some r =>
      rw [hresult] at hwrite
      obtain ⟨hret, hread⟩ := Prod.mk.inj (Option.some.inj hwrite)
      obtain ⟨hread, halias⟩ := Prod.mk.inj hread
      refine ⟨smallVolume_wellFormed, fun hapart => ?_, r.2, by rw [← hret], hread⟩
      exact (hapart.first.write 608 hentry _ _ _ hresult).2 halias

end Tsukasa
