import Tsukasa.Fs.Mount
import Tsukasa.Syscall.Ksprintf
import Mathlib.Data.List.DropRight
import Mathlib.Data.List.Forall2
import Mathlib.Data.List.Nodup

/-!
# The boot modules

`fs/bootfs.c` shows the modules of the boot loader as files of `/boot`. The name of a file is made from the end of the path of its module, and a search stops at the first module with a name. Numbers would keep apart modules without a path, but the branch that appends them is behind a test that has just been made false.
-/

namespace Tsukasa

namespace Bootfs

def maxModules : Nat := 32

/-- A module as the boot loader gives it. -/
structure BootModule where
  address : Nat
  size : Nat
  path : Option (List UInt8)
  cmdline : Option (List UInt8)

/-- `struct multiboot_mod_list` -/
structure MultibootMod where
  modStart : Nat
  modEnd : Nat
  cmdline : Option (List UInt8)

/-- What `bootfs_init` gets: a valid `struct tsukasa_boot_info`, a `struct multiboot_info`, or a null pointer. -/
inductive BootInfo where
  | tsukasa (modules : List BootModule)
  | multiboot (flags : Nat) (mods : List MultibootMod)
  | null

structure BootfsModule where
  used : Bool
  data : Nat
  size : Nat
  path : Option (List UInt8)
  cmdline : Option (List UInt8)
  name : List UInt8

def isSeparator (c : UInt8) : Bool := c = 47 || c = 92

/-- What is behind the last separator. -/
def pathTail (path : List UInt8) : List UInt8 := path.foldl (fun tail c => if isSeparator c then [] else tail ++ [c]) []

def replaceSpace (c : UInt8) : UInt8 := if c = 32 then 95 else c

/-- `module` and the number of the module, as far as there is room. -/
def numberedName (cap : Nat) (idx : Int) : List UInt8 :=
  let out := (ascii "module").take (cap - 1)
  if idx < 0 then out
  else if idx = 0 then if out.length < cap - 1 then out ++ [48] else out
  else (uintLoop 10 hexLower 16 idx.toNat).reverse.foldl (fun out d => if cap - 1 ≤ out.length then out else out ++ [d]) out

def buildModuleName (cap : Nat) (path : Option (List UInt8)) (idx : Int) : List UInt8 :=
  let src := (path.map pathTail).getD []
  let src := if src = [] then ascii "module" else src
  let out := (src.take (cap - 1)).map replaceSpace
  let out := if out = [] then (ascii "module").take (cap - 1) else out
  if out = [] then numberedName cap idx else out

/-- The modules that `bootfs_init` takes over: the first `g_module_count` entries of `g_modules`. -/
def bootfsInit : BootInfo → List BootfsModule
  | .tsukasa modules =>
      (modules.take maxModules).mapIdx fun i m => ⟨true, m.address, m.size, m.path, m.cmdline, buildModuleName vfsNameMax m.path i⟩
  | .multiboot flags mods =>
      if flags &&& 8 = 0 ∨ mods.length = 0 then []
      else (mods.take maxModules).mapIdx fun i m =>
        ⟨true, m.modStart, wrap32 (m.modEnd + 2 ^ 32 - m.modStart), none, m.cmdline, buildModuleName vfsNameMax none i⟩
  | .null => []

def findModuleByName (modules : List BootfsModule) (name : List UInt8) : Option BootfsModule := modules.find? fun m => m.used && m.name = name

/-- An attribute of a module in the index, unless it is empty. -/
def indexField (key : String) (val : Option (List UInt8)) : List UInt8 :=
  match val with
  | some (c :: s) => ascii key ++ c :: s
  | _ => []

def outU64 (v : Nat) : List UInt8 := if v = 0 then [48] else (uintLoop 10 hexLower 23 v).reverse

/-- The text of `build_modules_index`. -/
def modulesIndex (modules : List BootfsModule) : List UInt8 :=
  modules.flatMap fun m =>
    if m.used then m.name ++ ascii " size=" ++ outU64 m.size ++ indexField " path=" m.path ++ indexField " cmdline=" m.cmdline ++ [10] else []

/-- What a file is read from: a text in a buffer of its own, or the bytes of a module. -/
inductive FileData where
  | index (text : List UInt8)
  | module (address size : Nat)

/-- `bootfs_read_file`; `granted` says whether the heap has the buffers for the index. -/
def bootfsReadFile (granted : Bool) (modules : List BootfsModule) (path : Option (List UInt8)) : Option FileData :=
  path.bind fun path =>
    if path = ascii "/modules" then if granted then some (.index (modulesIndex modules)) else none
    else if path.head? = some 47 ∧ path.tail ≠ [] then (findModuleByName modules path.tail).map fun m => .module m.data m.size
    else none

/-! ### What the boot loader gives -/

/-- The modules of the boot loader. Multiboot gives no paths. -/
def given : BootInfo → List BootModule
  | .tsukasa modules => modules
  | .multiboot flags mods =>
      if flags &&& 8 = 0 then [] else mods.map fun m => ⟨m.modStart, wrap32 (m.modEnd + 2 ^ 32 - m.modStart), none, m.cmdline⟩
  | .null => []

/-- What the path has after its last separator, or `module` where there is nothing. -/
def stem (path : Option (List UInt8)) : List UInt8 :=
  if path.toList.flatten.rtakeWhile (fun c => !isSeparator c) = [] then ascii "module" else path.toList.flatten.rtakeWhile fun c => !isSeparator c

/-- The same character, or a space and an underscore. -/
def SameChar (a b : UInt8) : Prop := a = b ∨ (a = 32 ∧ b = 95) ∨ (a = 95 ∧ b = 32)

instance : DecidableRel SameChar := fun a b => inferInstanceAs (Decidable (a = b ∨ (a = 32 ∧ b = 95) ∨ (a = 95 ∧ b = 32)))

/-- Two modules get the same name when the first 63 characters of their stems are the same. -/
def Collide (a b : BootModule) : Prop := List.Forall₂ SameChar ((stem a.path).take (vfsNameMax - 1)) ((stem b.path).take (vfsNameMax - 1))

instance : DecidableRel Collide := fun a b =>
  inferInstanceAs (Decidable (List.Forall₂ SameChar ((stem a.path).take (vfsNameMax - 1)) ((stem b.path).take (vfsNameMax - 1))))

/-- The name of the index. -/
def Hidden (a : BootModule) : Prop := stem a.path = ascii "modules"

/-- The names are different from each other and from the one of the index, and each leads to its module. -/
structure Reachable (modules : List BootfsModule) (ms : List BootModule) : Prop where
  distinct : (modules.map (·.name)).Nodup
  index : ascii "modules" ∉ modules.map (·.name)
  length : modules.length = ms.length
  read : ∀ (granted : Bool) (i : Nat) (m : BootfsModule) (m' : BootModule), modules[i]? = some m → ms[i]? = some m' →
    bootfsReadFile granted modules (some (47 :: m.name)) = some (.module m'.address m'.size)

/-! ### Names -/

theorem pathTail_eq (path : List UInt8) : pathTail path = path.rtakeWhile fun c => !isSeparator c := by
  induction path using List.reverseRecOn with
  | nil => rfl
  | append_singleton path c ih =>
      rw [pathTail, List.foldl_concat, ← pathTail]
      by_cases hc : isSeparator c = true
      · rw [if_pos hc, List.rtakeWhile_concat_neg]
        simp [hc]
      · rw [if_neg hc, List.rtakeWhile_concat_pos, ih]
        simp [hc]

theorem stem_eq (path : Option (List UInt8)) :
    stem path = if (path.map pathTail).getD [] = [] then ascii "module" else (path.map pathTail).getD [] := by
  have htail : (path.map pathTail).getD [] = path.toList.flatten.rtakeWhile fun c => !isSeparator c := by
    cases path with
    | none => rfl
    | some path => exact (pathTail_eq path).trans (by simp)
  rw [htail, stem]

theorem stem_ne_nil (path : Option (List UInt8)) : stem path ≠ [] := by
  rw [stem]
  split
  · decide
  · assumption

/-- The name of a module; its number plays no part. -/
theorem buildModuleName_eq (path : Option (List UInt8)) (idx : Int) :
    buildModuleName vfsNameMax path idx = ((stem path).take (vfsNameMax - 1)).map replaceSpace := by
  have hne : ((stem path).take (vfsNameMax - 1)).map replaceSpace ≠ [] := by
    rw [ne_eq, List.map_eq_nil_iff, List.take_eq_nil_iff, not_or]
    exact ⟨by decide, stem_ne_nil path⟩
  rw [stem_eq] at hne ⊢
  rw [buildModuleName, if_neg hne, if_neg hne]

theorem replaceSpace_eq_iff (a b : UInt8) : replaceSpace a = replaceSpace b ↔ SameChar a b := by
  rw [replaceSpace, replaceSpace, SameChar]
  by_cases ha : a = 32
  · by_cases hb : b = 32
    · simp [ha, hb]
    · rw [if_pos ha, if_neg hb]
      simp [ha, hb, eq_comm]
  · by_cases hb : b = 32
    · rw [if_neg ha, if_pos hb]
      simp [ha, hb]
    · rw [if_neg ha, if_neg hb]
      simp [ha, hb]

theorem name_eq_iff (a b : BootModule) (i j : Int) :
    buildModuleName vfsNameMax a.path i = buildModuleName vfsNameMax b.path j ↔ Collide a b := by
  rw [buildModuleName_eq, buildModuleName_eq, Collide, ← List.forall₂_eq_eq_eq, List.forall₂_map_left_iff, List.forall₂_map_right_iff]
  simp only [replaceSpace_eq_iff]

/-- No character of the name of the index comes from a space, and the name is short. -/
theorem name_eq_modules_iff (a : BootModule) (i : Int) : buildModuleName vfsNameMax a.path i = ascii "modules" ↔ Hidden a := by
  have hno : 95 ∉ ascii "modules" := by decide
  have hlen : (ascii "modules").length < vfsNameMax - 1 := by decide
  have hself : (ascii "modules").map replaceSpace = ascii "modules" := by decide
  rw [buildModuleName_eq, Hidden]
  constructor
  · intro h
    have hlength : ((stem a.path).take (vfsNameMax - 1)).length = (ascii "modules").length := by rw [← h, List.length_map]
    have htake : (stem a.path).take (vfsNameMax - 1) = stem a.path := List.take_of_length_le (by rw [List.length_take] at hlength; omega)
    rw [htake] at h
    rw [← h]
    apply List.ext_getElem (List.length_map _).symm
    intro k hk hk'
    rw [List.getElem_map, replaceSpace]
    split
    · exact absurd (h ▸ List.mem_map.mpr ⟨_, List.getElem_mem hk, if_pos ‹_›⟩) hno
    · rfl
  · intro h
    rw [h, List.take_of_length_le hlen.le, hself]

/-! ### The table -/

/-- The entry of a module. -/
def entry (m : BootModule) : BootfsModule := ⟨true, m.address, m.size, m.path, m.cmdline, buildModuleName vfsNameMax m.path 0⟩

theorem mapIdx_entry (ms : List BootModule) :
    (ms.mapIdx fun i m => (⟨true, m.address, m.size, m.path, m.cmdline, buildModuleName vfsNameMax m.path i⟩ : BootfsModule)) = ms.map entry := by
  apply List.ext_getElem
  · rw [List.length_mapIdx, List.length_map]
  · intro i hi hi'
    rw [List.getElem_mapIdx, List.getElem_map, entry, buildModuleName_eq, buildModuleName_eq]

theorem bootfsInit_eq (info : BootInfo) : bootfsInit info = ((given info).take maxModules).map entry := by
  cases info with
  | tsukasa modules => exact mapIdx_entry _
  | null => rfl
  | multiboot flags mods =>
      rw [bootfsInit, given]
      by_cases hflags : flags &&& 8 = 0
      · rw [if_pos (Or.inl hflags), if_pos hflags]
        rfl
      · rw [if_neg hflags]
        by_cases hmods : mods = []
        · rw [hmods]
          simp
        · rw [if_neg (by simp [hflags, hmods]), ← mapIdx_entry, ← List.map_take]
          apply List.ext_getElem
          · simp
          · intro i hi hi'
            simp

/-- A search finds the first module with the same name. -/
theorem findModuleByName_first (ms : List BootModule) (m : BootModule) :
    findModuleByName (ms.map entry) (entry m).name = (ms.find? fun a => decide (Collide a m)).map entry := by
  rw [findModuleByName, List.find?_map]
  congr 2
  funext a
  exact decide_eq_decide.mpr (name_eq_iff a m 0 0)

theorem find_collide_self (ms : List BootModule) (hnames : ms.Pairwise fun a b => ¬ Collide a b) (m : BootModule) (hm : m ∈ ms) :
    (ms.find? fun a => decide (Collide a m)) = some m := by
  induction ms with
  | nil => exact absurd hm List.not_mem_nil
  | cons a ms ih =>
      rw [List.pairwise_cons] at hnames
      rw [List.find?_cons]
      cases List.mem_cons.mp hm with
      | inl h =>
          have hself : Collide a m := h ▸ (name_eq_iff m m 0 0).mp rfl
          rw [decide_eq_true hself, h]
      | inr h =>
          rw [decide_eq_false (hnames.1 m h)]
          exact ih hnames.2 h

theorem names_nodup_iff (ms : List BootModule) : ((ms.map entry).map (·.name)).Nodup ↔ ms.Pairwise fun a b => ¬ Collide a b := by
  rw [List.map_map, List.Nodup, List.pairwise_map]
  simp only [Function.comp_apply, entry, ne_eq, name_eq_iff]

theorem index_not_mem_iff (ms : List BootModule) : ascii "modules" ∉ (ms.map entry).map (·.name) ↔ ∀ m ∈ ms, ¬ Hidden m := by
  simp only [List.map_map, List.mem_map, Function.comp_apply, entry, name_eq_modules_iff, not_exists, not_and]

theorem bootfsReadFile_entry (granted : Bool) (ms : List BootModule) (hnames : ms.Pairwise fun a b => ¬ Collide a b) (m : BootModule)
    (hm : m ∈ ms) (hhidden : ¬ Hidden m) :
    bootfsReadFile granted (ms.map entry) (some (47 :: (entry m).name)) = some (.module m.address m.size) := by
  have hindex : 47 :: (entry m).name ≠ ascii "/modules" := by
    intro h
    exact (name_eq_modules_iff m 0).not.mpr hhidden (List.cons.inj (h.trans (by decide : ascii "/modules" = 47 :: ascii "modules"))).2
  have hne : (entry m).name ≠ [] := by
    rw [entry, buildModuleName_eq, ne_eq, List.map_eq_nil_iff, List.take_eq_nil_iff, not_or]
    exact ⟨by decide, stem_ne_nil m.path⟩
  rw [bootfsReadFile, Option.bind_some, if_neg hindex, if_pos ⟨rfl, hne⟩, List.tail_cons, findModuleByName_first,
    find_collide_self ms hnames m hm]
  rfl

theorem table_reachable_iff (ms : List BootModule) :
    Reachable (ms.map entry) ms ↔ ms.Pairwise (fun a b => ¬ Collide a b) ∧ ∀ m ∈ ms, ¬ Hidden m := by
  constructor
  · intro h
    exact ⟨(names_nodup_iff _).mp h.distinct, (index_not_mem_iff _).mp h.index⟩
  · intro h
    refine ⟨(names_nodup_iff _).mpr h.1, (index_not_mem_iff _).mpr h.2, List.length_map _, ?_⟩
    intro granted i m m' hi hi'
    rw [List.getElem?_map, hi', Option.map_some, Option.some.injEq] at hi
    rw [← hi]
    have hmem : m' ∈ ms := List.mem_of_getElem? hi'
    exact bootfsReadFile_entry granted ms h.1 m' hmem (h.2 m' hmem)

/-- All modules can be reached exactly when no two have the same name and none has the name of the index. -/
theorem bootfsInit_reachable_iff (info : BootInfo) (hcount : (given info).length ≤ maxModules) :
    Reachable (bootfsInit info) (given info) ↔ (given info).Pairwise (fun a b => ¬ Collide a b) ∧ ∀ m ∈ given info, ¬ Hidden m := by
  rw [bootfsInit_eq, List.take_of_length_le hcount, table_reachable_iff]

theorem bootfsInit_reachable_two :
    Reachable (bootfsInit (.tsukasa [⟨0x100000, 16, some (ascii "/a/mod.bin"), none⟩, ⟨0x200000, 32, some (ascii "/b/font.psf"), none⟩]))
      (given (.tsukasa [⟨0x100000, 16, some (ascii "/a/mod.bin"), none⟩, ⟨0x200000, 32, some (ascii "/b/font.psf"), none⟩])) := by
  refine (bootfsInit_reachable_iff _ (by decide)).mpr ⟨?_, ?_⟩
  · decide
  · intro m hm
    rw [Hidden]
    revert m
    decide

/-- Two modules from different directories that end in the same way. -/
def sameEnds : BootInfo :=
  .tsukasa [⟨0x100000, 16, some (ascii "/a/mod.bin"), none⟩, ⟨0x200000, 32, some (ascii "/b/mod.bin"), none⟩]

theorem sameEnds_hidden : (given sameEnds).length ≤ maxModules ∧ ¬ Reachable (bootfsInit sameEnds) (given sameEnds) :=
  ⟨by decide, fun h => absurd h.distinct (by decide)⟩

/-- Multiboot gives no paths, so one module is all that can be reached. -/
theorem multiboot_reachable_iff (flags : Nat) (mods : List MultibootMod) (hflags : flags &&& 8 ≠ 0) (hcount : mods.length ≤ maxModules) :
    Reachable (bootfsInit (.multiboot flags mods)) (given (.multiboot flags mods)) ↔ mods.length ≤ 1 := by
  have hgiven : given (.multiboot flags mods) =
      mods.map fun m => ⟨m.modStart, wrap32 (m.modEnd + 2 ^ 32 - m.modStart), none, m.cmdline⟩ := if_neg hflags
  have hlength : (given (.multiboot flags mods)).length = mods.length := by rw [hgiven, List.length_map]
  have hpath : ∀ a ∈ given (.multiboot flags mods), a.path = none := by
    rw [hgiven]
    intro a ha
    obtain ⟨m, -, hm⟩ := List.mem_map.mp ha
    rw [← hm]
  rw [bootfsInit_eq, List.take_of_length_le (hlength ▸ hcount), table_reachable_iff, ← hlength]
  generalize given (.multiboot flags mods) = ms at hpath
  have hhidden : ∀ m ∈ ms, ¬ Hidden m := by
    intro m hm
    rw [Hidden, hpath m hm]
    decide
  constructor
  · intro h
    by_contra hlen
    -- the first two have no path
    obtain ⟨a, b, rest, rfl⟩ : ∃ a b rest, ms = a :: b :: rest := by
      cases ms with
      | nil => exact absurd (Nat.zero_le 1) hlen
      | cons a ms =>
          cases ms with
          | nil => exact absurd le_rfl hlen
          | cons b rest => exact ⟨a, b, rest, rfl⟩
    have hcollide : Collide a b := by
      rw [Collide, hpath a (by simp), hpath b (by simp)]
      decide
    exact (List.pairwise_cons.mp h.1).1 b (by simp) hcollide
  · intro hlen
    refine ⟨?_, hhidden⟩
    cases ms with
    | nil => exact List.Pairwise.nil
    | cons a ms =>
        have hnil : ms = [] := List.eq_nil_of_length_eq_zero (by rw [List.length_cons] at hlen; omega)
        rw [hnil]
        exact List.pairwise_singleton _ a

end Bootfs

end Tsukasa
