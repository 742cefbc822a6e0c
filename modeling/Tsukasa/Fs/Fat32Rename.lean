import Tsukasa.Fs.Fat32Names
import Tsukasa.Fs.Fat32Overwrite

/-!
# Renaming on a FAT32 volume

`resolve_parent` keeps the components of a path in a static array and hands out the leaf as a pointer into it. `fat32_rename` resolves the old path and then the new one before it looks at the old leaf. Two paths to one directory have the same number of components, so by then the old leaf is the new one: the driver looks for the new name twice, and what it finds the first time it finds again.
-/

namespace Tsukasa

open Lib (Memory)

variable {g : Fat32Geometry} {d : Memory} {sectors c c' m n : Nat} {cs : List Nat} {v v' w : Fat32} {slot : Nat × Nat}
  {path oldPath newPath leaf : List UInt8}

/-! ### The call -/

/-- The static array `comps` of `resolve_parent`. -/
abbrev PathStore := Nat → List UInt8

/-- `resolve_parent` with its array: the parent's cluster, and the leaf as a position in the array. -/
def resolveParentIn (v : Fat32) (comps : PathStore) (path : List UInt8) : Option (Fat32 × PathStore × Nat × Option Nat) :=
  let found := pathComponents 32 path
  let comps : PathStore := fun i => found.getD i (comps i)
  if found = [] then some (v, comps, v.geometry.rootCluster, none)
  else
    match walkDirs found.dropLast v v.geometry.rootCluster with
    | none => none
    | some (v, parent) => some (v, comps, parent, some (found.length - 1))

/-- The last step of `fat32_rename`: the directory sector is read again, and the new name put into the entry. -/
def renameEntry (v : Fat32) (src : RawEntry) (new83 : List UInt8) : Fat32 :=
  let v := v.load src.lba
  let sector := v.sector.blit src.entryOff 11 fun i => new83.getD i 0
  { v with sector := sector, disk := ataWriteSector v.disk src.lba sector }

/-- `fat32_rename` behind the resolution of the paths. -/
def renameIn (v : Fat32) (parent : Nat) (oldLeaf newLeaf : List UInt8) : Option (Fat32 × Int) :=
  match validateShortName newLeaf with
  | none => some (v, -1)
  | some new83 =>
      match findEntryRaw v parent oldLeaf with
      | none => none
      | some (v, none) => some (v, -1)
      | some (v, some src) =>
          match findEntryRaw v parent newLeaf with
          | none => none
          | some (v, some _) => some (v, -1)
          | some (v, none) => some (renameEntry v src new83, 0)

/-- `fat32_rename`; `comps` is what the last call has left in the array. -/
def fat32Rename (v : Fat32) (comps : PathStore) (oldPath newPath : List UInt8) : Option (Fat32 × Int) :=
  if !v.ready then some (v, -1)
  else
    match fat32NormalizePath oldPath fat32NameMax with
    | none => some (v, -1)
    | some oldNorm =>
        match fat32NormalizePath newPath fat32NameMax with
        | none => some (v, -1)
        | some newNorm =>
            match resolveParentIn v comps oldNorm with
            | none => none
            | some (v, comps, oldParent, oldLeaf) =>
                match resolveParentIn v comps newNorm with
                | none => none
                | some (v, comps, newParent, newLeaf) =>
                    match oldLeaf, newLeaf with
                    | some oldLeaf, some newLeaf =>
                        if oldParent = 0 ∨ newParent = 0 then some (v, -1)
                        else if oldParent ≠ newParent then some (v, -1)
                        else renameIn v oldParent (comps oldLeaf) (comps newLeaf)
                    | _, _ => some (v, -1)

/-- What a call of `resolve_parent` hands out, read at once, is the leaf. -/
theorem resolveParentIn_leaf (v : Fat32) (comps : PathStore) (path : List UInt8) :
    (resolveParentIn v comps path).map (fun r => (r.1, r.2.2.1, r.2.2.2.map r.2.1)) = resolveParent v path := by
  rw [resolveParentIn, resolveParent]
  cases hlast : (pathComponents 32 path).getLast? with
  | none =>
      simp only [List.getLast?_eq_none_iff.mp hlast, if_true]
      rfl
  | some leaf =>
      have hne : pathComponents 32 path ≠ [] := by
        intro hnil
        rw [hnil] at hlast
        cases hlast
      have hleaf : (pathComponents 32 path).getD ((pathComponents 32 path).length - 1) (comps ((pathComponents 32 path).length - 1)) = leaf := by
        rw [List.getD_eq_getElem?_getD, ← List.getLast?_eq_getElem?, hlast, Option.getD_some]
      simp only [if_neg hne]
      cases walkDirs (pathComponents 32 path).dropLast v v.geometry.rootCluster with
      | none => rfl
      | some r => exact congrArg (fun x => some (r.1, r.2, some x)) hleaf

/-! ### Directories as a tree -/

/-- The first clusters of the directories `n` steps below the root. -/
inductive DirDepth (g : Fat32Geometry) (d : Memory) (sectors : Nat) : Nat → Nat → Prop where
  | root : DirDepth g d sectors 0 g.rootCluster
  | child {n c : Nat} {cs : List Nat} {slot : Nat × Nat} : DirDepth g d sectors n c → FatChain g d sectors c cs →
      slot ∈ liveSlots d (dirSlots g cs) → Shown d slot → (slotEntry d slot).attr &&& attrDir ≠ 0 →
      DirDepth g d sectors (n + 1) (if (slotEntry d slot).firstCluster = 0 then g.rootCluster else (slotEntry d slot).firstCluster)

/-- A well-formed volume whose directories form a tree, as far as depths tell: no directory is reached in two numbers of steps. -/
structure Fat32Tree (g : Fat32Geometry) (d : Memory) (sectors : Nat) : Prop extends Fat32WellFormed g d sectors where
  depth : ∀ c m n, DirDepth g d sectors m c → DirDepth g d sectors n c → m = n

theorem DirDepth.reach (h : DirDepth g d sectors n c) : DirReach g d sectors c := by
  induction h with
  | root => exact .root
  | child _ hchain hlive hshown hattr ih => exact .child ih hchain hlive hshown hattr

/-- A lookup in a directory finds nothing, or a slot that is shown there. -/
theorem lookup_scan (hwf : Fat32WellFormed v.geometry v.disk sectors) (hchain : FatChain v.geometry v.disk sectors c cs) {α : Type}
    {lfn : Memory → Nat → LfnState → Option LfnState} {p : UInt8 → List UInt8 → Bool} {f : DirEntry → Nat → Nat → List UInt8 → α} {a : Option α}
    (h : scanClusters ⟨lfn, lookup p f⟩ fat32Fuel c v .empty none = some (v', a)) :
    v.Buffered v' ∧ (a = none ∨ ∃ slot ∈ liveSlots v.disk (dirSlots v.geometry cs), Shown v.disk slot ∧
      ∃ name, p (slotEntry v.disk slot).attr name = true ∧ a = some (f (slotEntry v.disk slot) slot.1 slot.2 name)) := by
  have hscan : BothScans v v (FoundBoth v.disk v.disk (dirSlots v.geometry cs) p f f) (scanClusters ⟨lfn, lookup p f⟩ fat32Fuel c v .empty none)
      (scanClusters ⟨lfn, lookup p f⟩ fat32Fuel c v .empty none) :=
    lookup_scans hwf.geometry rfl hwf.cluster hchain (fun _ _ => rfl) (fun slot _ => SlotAgree.refl v.disk slot) fun _ _ _ _ _ => rfl
  rw [h] at hscan
  obtain ⟨hbuf, -, hfound⟩ : v.Buffered v' ∧ v.Buffered v' ∧ FoundBoth v.disk v.disk (dirSlots v.geometry cs) p f f a a := by
    cases hscan with
    | some hscan => exact hscan
  refine ⟨hbuf, ?_⟩
  rcases hfound with ⟨hnone, -⟩ | ⟨slot, hlive, hshown, name, hp, ha, -⟩
  · exact Or.inl hnone
  · exact Or.inr ⟨slot, hlive, hshown, name, hp, ha⟩

/-- A walk down the directories goes one step for each component. -/
theorem walkDirs_depth (hwf : Fat32WellFormed v.geometry v.disk sectors) (hc : DirDepth v.geometry v.disk sectors n c)
    {comps : List (List UInt8)} (hwalk : walkDirs comps v c = some (v', c')) :
    v.Buffered v' ∧ (c' = 0 ∨ DirDepth v.geometry v.disk sectors (n + comps.length) c') := by
  induction comps generalizing v n c with
  | nil =>
      cases hwalk
      exact ⟨Fat32.Buffered.refl _, Or.inr hc⟩
  | cons comp comps ih =>
      obtain ⟨cs, hchain⟩ := hwf.dirs c hc.reach
      rw [walkDirs, iterateDir_findDirCb] at hwalk
      split at hwalk
      · cases hwalk
      · rename_i u hscan
        cases hwalk
        exact ⟨(lookup_scan hwf hchain hscan).1, Or.inl rfl⟩
      · rename_i u found hscan
        obtain ⟨⟨sec, rfl⟩, hnone | ⟨slot, hlive, hshown, name, hp, hfound⟩⟩ := lookup_scan hwf hchain hscan
        · cases hnone
        · have hattr : (slotEntry v.disk slot).attr &&& attrDir ≠ 0 := (of_decide_eq_true hp).1
          have hchild := DirDepth.child hc hchain hlive hshown hattr
          rw [← Option.some.inj hfound] at hchild
          obtain ⟨hbuf', hdepth⟩ := ih (v := { v with sector := sec }) hwf hchild hwalk
          refine ⟨Fat32.Buffered.trans ⟨sec, rfl⟩ hbuf', hdepth.imp id fun h => ?_⟩
          rwa [List.length_cons, Nat.add_comm comps.length 1, ← Nat.add_assoc]

/-- The directory of a path is as deep as the path has components before its leaf. -/
theorem resolveParentIn_depth (hwf : Fat32WellFormed v.geometry v.disk sectors) {comps comps' : PathStore} {parent : Nat} {at' : Option Nat}
    (h : resolveParentIn v comps path = some (v', comps', parent, at')) (hparent : parent ≠ 0) {i : Nat} (hat : at' = some i) :
    v.Buffered v' ∧ DirDepth v.geometry v.disk sectors i parent := by
  rw [resolveParentIn] at h
  split at h
  · cases h
    cases hat
  rename_i hne
  cases hwalk : walkDirs (pathComponents 32 path).dropLast v v.geometry.rootCluster with
  | none =>
      rw [hwalk] at h
      cases h
  | some r =>
      rw [hwalk] at h
      cases h
      cases hat
      obtain ⟨hbuf, hdepth⟩ := walkDirs_depth hwf .root hwalk
      refine ⟨hbuf, ?_⟩
      rcases hdepth with hzero | hdepth
      · exact absurd hzero hparent
      · rwa [Nat.zero_add, List.length_dropLast] at hdepth

/-- What a scan finds does not depend on the scratch sector. -/
theorem findEntryRaw_buffered (hwf : Fat32WellFormed v.geometry v.disk sectors) (hc : DirReach v.geometry v.disk sectors c) (hbuf : v.Buffered w)
    {raw : RawEntry} (h : findEntryRaw v c leaf = some (v', some raw)) : ∃ w', findEntryRaw w c leaf = some (w', some raw) := by
  obtain ⟨cs, hchain⟩ := hwf.dirs c hc
  obtain ⟨sec, rfl⟩ := hbuf
  rw [findEntryRaw_eq] at h
  obtain ⟨u, -, heq⟩ := @scanClusters_eq sectors c cs v _ ⟨findLfn, lookup (nameIs leaf) fun e lba off _ => (⟨e, lba, off⟩ : RawEntry)⟩ .empty none
    hwf.geometry hwf.cluster hchain _ hchain.length_lt
  obtain ⟨u', -, heq'⟩ := @scanClusters_eq sectors c cs { v with sector := sec } _
    ⟨findLfn, lookup (nameIs leaf) fun e lba off _ => (⟨e, lba, off⟩ : RawEntry)⟩ .empty none hwf.geometry hwf.cluster hchain _ hchain.length_lt
  rw [heq] at h
  obtain ⟨r, hr, hfound⟩ := Option.map_eq_some_iff.mp h
  refine ⟨u', ?_⟩
  rw [findEntryRaw_eq, heq', hr]
  exact congrArg (fun x => some (u', x)) (congrArg Prod.snd hfound)

/-- A rename to the name that the source is looked for under is refused. -/
theorem renameIn_same (hwf : Fat32WellFormed v.geometry v.disk sectors) (hc : DirReach v.geometry v.disk sectors c) {r : Int}
    (h : renameIn v c leaf leaf = some (w, r)) : r = -1 := by
  rw [renameIn] at h
  cases hvalid : validateShortName leaf with
  | none =>
      rw [hvalid] at h
      cases h
      rfl
  | some new83 =>
      rw [hvalid] at h
      cases hfirst : findEntryRaw v c leaf with
      | none =>
          rw [hfirst] at h
          cases h
      | some f =>
          cases f with
          | mk u src =>
              rw [hfirst] at h
              cases src with
              | none =>
                  cases h
                  rfl
              | some src =>
                  obtain ⟨cs, hchain⟩ := hwf.dirs c hc
                  have hbuf : v.Buffered u := by
                    rw [findEntryRaw_eq] at hfirst
                    exact (lookup_scan hwf hchain hfirst).1
                  obtain ⟨u', hsecond⟩ := findEntryRaw_buffered hwf hc hbuf hfirst
                  simp only [hsecond] at h
                  cases h
                  rfl

/-- A rename returns -1 for every two paths of a tree, if it returns. -/
theorem fat32Rename_refused (hwf : Fat32Tree v.geometry v.disk sectors) {comps : PathStore} {r : Int}
    (h : fat32Rename v comps oldPath newPath = some (w, r)) : r = -1 := by
  rw [fat32Rename] at h
  split at h
  · cases h
    rfl
  split at h
  · cases h
    rfl
  rename_i oldNorm _
  split at h
  · cases h
    rfl
  rename_i newNorm _
  split at h
  · cases h
  rename_i v₁ comps₁ oldParent oldLeaf hold
  split at h
  · cases h
  rename_i v₂ comps₂ newParent newLeaf hnew
  split at h
  · rename_i i j
    split at h
    · cases h
      rfl
    rename_i hparents
    split at h
    · cases h
      rfl
    rename_i hsame
    rw [not_or] at hparents
    obtain ⟨⟨sec, rfl⟩, hdepth⟩ := resolveParentIn_depth hwf.toFat32WellFormed hold hparents.1 rfl
    obtain ⟨⟨sec', rfl⟩, hdepth'⟩ := resolveParentIn_depth (v := { v with sector := sec }) hwf.toFat32WellFormed hnew hparents.2 (i := j) rfl
    rw [not_not] at hsame
    -- one directory, so both leaves are at one position of the array
    obtain rfl := hwf.depth oldParent i j hdepth (hsame ▸ hdepth')
    exact renameIn_same (v := { v with sector := sec' }) hwf.toFat32WellFormed hdepth.reach h
  · cases h
    rfl

/-! ### What a rename is for -/

/-- The two paths lead to leaves in one directory, and `newLeaf` is the leaf of the new one. -/
def SameDirectory (v : Fat32) (oldPath newPath newLeaf : List UInt8) : Prop :=
  ∃ oldNorm newNorm u u' parent oldLeaf, fat32NormalizePath oldPath fat32NameMax = some oldNorm ∧
    fat32NormalizePath newPath fat32NameMax = some newNorm ∧ resolveParent v oldNorm = some (u, parent, some oldLeaf) ∧
    resolveParent v newNorm = some (u', parent, some newLeaf) ∧ parent ≠ 0

/-- A request that a rename is made for: the old path is there, the new one is not, and its leaf is a short name. -/
def RenameRequest (v : Fat32) (oldPath newPath : List UInt8) : Prop :=
  ∃ newLeaf, SameDirectory v oldPath newPath newLeaf ∧ (∃ v' de, fat32Stat v oldPath = some (v', some de)) ∧
    (∃ raw, validateShortName newLeaf = some raw) ∧ ∃ v', fat32Stat v newPath = some (v', none)

/-- The effect of a rename: the entry is under the new path and no longer under the old one, and the rest of the disk is as before. -/
structure Renamed (v w : Fat32) (oldPath newPath : List UInt8) : Prop where
  moved : ∀ v' de, fat32Stat v oldPath = some (v', some de) →
    ∃ w' de', fat32Stat w newPath = some (w', some de') ∧ de'.size = de.size ∧ de'.firstCluster = de.firstCluster ∧ de'.isDir = de.isDir
  gone : ∀ oldNorm newNorm, fat32NormalizePath oldPath fat32NameMax = some oldNorm → fat32NormalizePath newPath fat32NameMax = some newNorm →
    oldNorm.map toLower ≠ newNorm.map toLower → ∃ w', fat32Stat w oldPath = some (w', none)
  rest : ∃ slot, fat32StatSlot v oldPath = some slot ∧
    ∀ x, x < 512 * slot.1 + slot.2 ∨ 512 * slot.1 + slot.2 + 32 ≤ x → w.disk x = v.disk x

/-- A rename carries a request out, and where it returns 0 it has the effect. -/
def Renames (v : Fat32) (comps : PathStore) (oldPath newPath : List UInt8) : Prop :=
  (RenameRequest v oldPath newPath → ∃ w, fat32Rename v comps oldPath newPath = some (w, 0)) ∧
  ∀ w, fat32Rename v comps oldPath newPath = some (w, 0) → Renamed v w oldPath newPath

/-- No request is carried out. -/
theorem fat32Rename_never (hwf : Fat32Tree v.geometry v.disk sectors) (comps : PathStore) (oldPath newPath : List UInt8) :
    Renames v comps oldPath newPath ↔ ¬ RenameRequest v oldPath newPath := by
  have hnever : ∀ w, fat32Rename v comps oldPath newPath ≠ some (w, 0) := by
    intro w hrename
    exact absurd (fat32Rename_refused hwf hrename) (by decide)
  constructor
  · rintro ⟨hdone, -⟩ hrequest
    obtain ⟨w, hrename⟩ := hdone hrequest
    exact hnever w hrename
  · intro hnone
    exact ⟨fun hrequest => absurd hrequest hnone, fun w hrename => absurd hrename (hnever w)⟩

/-! ### A rename in the root directory -/

theorem largeVolume_tree : Fat32Tree largeVolume.geometry largeVolume.disk largeSectors := by
  refine ⟨largeVolume_wellFormed, ?_⟩
  have hzero : ∀ {n c : Nat}, DirDepth largeVolume.geometry largeVolume.disk largeSectors n c → n = 0 := by
    intro n c hdepth
    rw [largeVolume_geometry] at hdepth
    cases hdepth with
    | root => rfl
    | child hdir hchain hlive hshown hattr =>
        have hslot := largeSlot_eq ⟨_, _, hdir.reach, hchain, hlive⟩
        rw [hslot] at hattr
        change (slotEntry largeDisk (514, 0)).attr &&& attrDir ≠ 0 at hattr
        rw [largeEntry.1] at hattr
        exact absurd rfl hattr
  intro c m n hm hn
  rw [hzero hm, hzero hn]

/-- There is no `/B`. -/
theorem largeVolume_absent : ∃ v', fat32Stat largeVolume [slash, 66] = some (v', none) := by
  have hstat : (fat32Stat largeVolume [slash, 66]).map (·.2) = some none := by decide +kernel
  obtain ⟨r, hr, hnone⟩ := Option.map_eq_some_iff.mp hstat
  exact ⟨r.1, by rw [hr, ← hnone]⟩

/-- The paths `/A` and `/B`. -/
theorem largeVolume_request : RenameRequest largeVolume largePath [slash, 66] := by
  have hparent : largeVolume.geometry.rootCluster = 2 := by rw [largeVolume_geometry]; rfl
  refine ⟨[66], ⟨largePath, [slash, 66], largeVolume, largeVolume, largeVolume.geometry.rootCluster, [65], ?_, ?_, ?_, ?_, ?_⟩, ?_, ?_,
    largeVolume_absent⟩
  · decide +kernel
  · decide +kernel
  · rfl
  · rfl
  · rw [hparent]
    decide
  · obtain ⟨v', hstat⟩ := largeVolume_file
    exact ⟨v', _, hstat⟩
  · exact ⟨[66, 32, 32, 32, 32, 32, 32, 32, 32, 32, 32], by decide +kernel⟩

/-- `/A` is there and `/B` is not, and still the rename is refused. -/
theorem fat32_rename_refused_request : Fat32Tree largeVolume.geometry largeVolume.disk largeSectors ∧
    RenameRequest largeVolume largePath [slash, 66] ∧ ¬ Renames largeVolume (fun _ => []) largePath [slash, 66] := by
  refine ⟨largeVolume_tree, largeVolume_request, ?_⟩
  rintro ⟨hdone, -⟩
  obtain ⟨w, hrename⟩ := hdone largeVolume_request
  exact absurd (fat32Rename_refused largeVolume_tree hrename) (by decide)

/-- There is nothing to do for `/B`, which is not there. -/
theorem fat32Rename_never_absent : Renames largeVolume (fun _ => []) [slash, 66] [slash, 67] := by
  apply (fat32Rename_never largeVolume_tree (fun _ => []) [slash, 66] [slash, 67]).mpr
  rintro ⟨-, -, ⟨v', de, hstat⟩, -, -⟩
  obtain ⟨u, habsent⟩ := largeVolume_absent
  rw [habsent] at hstat
  cases hstat

end Tsukasa
