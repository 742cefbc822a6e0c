import Tsukasa.Fs.Fat32Space

/-!
# Emptying a file of a FAT32 volume

Lookups and reads change nothing but the scratch sector, on any disk. A write of nothing clears the clusters of a file and sets its size to 0, which no lookup and no read notices if the size was 0 before and no other file shares the clusters.
-/

namespace Tsukasa

open Lib (Memory)

variable {σ : Type} {k : DirScan σ} {ctx ctx' : σ} {v v' w u : Fat32} {path : List UInt8} {sectors : Nat} {slot : Nat × Nat} {cs : List Nat}

/-! ### The scratch sector -/

theorem walkDirs_buffered {comps : List (List UInt8)} {cur found : Nat} (h : walkDirs comps v cur = some (v', found)) : v.Buffered v' := by
  induction comps generalizing v cur with
  | nil =>
      cases h
      exact Fat32.Buffered.refl _
  | cons comp comps ih =>
      rw [walkDirs] at h
      split at h
      · cases h
      · rename_i hiterate
        cases h
        exact scanClusters_buffered hiterate
      · rename_i hiterate
        exact (scanClusters_buffered hiterate).trans (ih h)

theorem resolveParent_buffered {parent : Nat} {leaf : Option (List UInt8)} (h : resolveParent v path = some (v', parent, leaf)) : v.Buffered v' := by
  rw [resolveParent] at h
  split at h
  · cases h
    exact Fat32.Buffered.refl _
  · split at h
    · cases h
    · rename_i hwalk
      cases h
      exact walkDirs_buffered hwalk

theorem fat32Stat_buffered {de : Option Fat32Dirent} (h : fat32Stat v path = some (v', de)) : v.Buffered v' := by
  rw [fat32Stat] at h
  split at h
  · cases h
    exact Fat32.Buffered.refl _
  split at h
  · cases h
    exact Fat32.Buffered.refl _
  split at h
  · cases h
    exact Fat32.Buffered.refl _
  split at h
  · cases h
  · rename_i hresolve
    cases h
    exact resolveParent_buffered hresolve
  · rename_i hresolve
    split at h
    · cases h
      exact resolveParent_buffered hresolve
    · exact (resolveParent_buffered hresolve).trans (scanClusters_buffered h)

theorem readClusters_buffered {toRead fuel cluster : Nat} {dst dst' : List UInt8} (h : readClusters toRead fuel cluster v dst = some (v', dst')) :
    v.Buffered v' := by
  induction fuel generalizing cluster v dst with
  | zero => cases h
  | succ fuel ih =>
      rw [readClusters] at h
      split at h
      · exact (Fat32.Buffered.load _ _).trans (ih h)
      · cases h
        exact Fat32.Buffered.refl _

theorem fat32ReadFile_buffered {max : Nat} {r : Int × List UInt8} (h : fat32ReadFile v path max = some (v', r)) : v.Buffered v' := by
  rw [fat32ReadFile] at h
  split at h
  · cases h
    exact Fat32.Buffered.refl _
  split at h
  · cases h
    exact Fat32.Buffered.refl _
  split at h
  · cases h
  · rename_i hstat
    cases h
    exact fat32Stat_buffered hstat
  · rename_i hstat
    split at h
    · cases h
      exact fat32Stat_buffered hstat
    split at h
    · cases h
    · rename_i hread
      cases h
      exact (fat32Stat_buffered hstat).trans (readClusters_buffered hread)

/-! ### What paths show -/

/-- The volume with nothing in the scratch sector, which every call fills before it looks at it. -/
def Fat32.atRest (v : Fat32) : Fat32 := { v with sector := fun _ => 0 }

theorem Fat32.atRest_buffered (v : Fat32) : v.Buffered v.atRest := ⟨_, rfl⟩

/-- The same paths lead to entries, the entries are the same, and so is what is read from them. -/
structure Fat32.SameShown (v w : Fat32) : Prop where
  stat : ∀ path, (fat32Stat w.atRest path).map Prod.snd = (fat32Stat v.atRest path).map Prod.snd
  read : ∀ path max, (fat32ReadFile w.atRest path max).map Prod.snd = (fat32ReadFile v.atRest path max).map Prod.snd

theorem Fat32.Buffered.shown (h : v.Buffered w) : v.SameShown w := by
  obtain ⟨sec, rfl⟩ := h
  exact ⟨fun _ => rfl, fun _ _ => rfl⟩

/-- No entry of a directory has another size. -/
def SameSizes (sectors : Nat) (v w : Fat32) : Prop :=
  ∀ slot, VolumeSlot v.geometry v.disk sectors slot → (slotEntry w.disk slot).fileSize = (slotEntry v.disk slot).fileSize

theorem SameDirs.stat (h : SameDirs sectors v w) (hsizes : SameSizes sectors v w) (path : List UInt8) :
    BothScans v w (fun a b => b = a) (fat32Stat v path) (fat32Stat w path) := by
  have hself : ∀ de : Option Fat32Dirent, BothScans v w (fun a b => b = a) (some (v, de)) (some (w, de)) := fun _ =>
    .some ⟨Fat32.Buffered.refl v, Fat32.Buffered.refl w, rfl⟩
  rw [fat32Stat, fat32Stat, h.ready]
  split
  · exact hself none
  split
  · exact hself none
  rename_i norm hnorm
  split
  · rw [h.geometry]
    exact hself _
  rcases (h.resolveParent norm).cases with ⟨hr, hr'⟩ | ⟨v', ⟨parent, leaf⟩, w', b, hr, hr', hv, hw, rfl, hreach⟩
  · rw [hr, hr']
    exact .none
  rw [hr, hr']
  cases leaf with
  | none => exact .some ⟨hv, hw, rfl⟩
  | some leaf =>
      by_cases hparent : parent = 0
      · simp only [if_pos hparent]
        exact .some ⟨hv, hw, rfl⟩
      · simp only [if_neg hparent, iterateDir_statCb]
        have hsame := h.buffered hv hw
        have hreach' := hreach.resolve_left hparent
        obtain ⟨sec, rfl⟩ := hv
        obtain ⟨sec', rfl⟩ := hw
        refine ((hsame.iterate hreach').imp ?_).buffered ⟨sec, rfl⟩ ⟨sec', rfl⟩
        rintro a b (⟨rfl, rfl⟩ | ⟨slot, hvolume, -, hagree, name, -, rfl, rfl⟩)
        · rfl
        · have hsize := hsizes slot hvolume
          simp only [direntOf]
          rw [hagree.attr, hagree.firstCluster, hsize]

/-- The files have their chains, and what they hold is the same. -/
def SameContents (sectors : Nat) (v w : Fat32) : Prop :=
  ∀ slot cs, FileSlot v.geometry v.disk sectors slot → FileChain v.geometry v.disk sectors (slotEntry v.disk slot).firstCluster cs →
    FileChain v.geometry w.disk sectors (slotEntry v.disk slot).firstCluster cs ∧
      ((slotEntry v.disk slot).fileSize = 0 ∨
        Lib.readBlocks 512 w.disk (chainBlocks v.geometry cs) = Lib.readBlocks 512 v.disk (chainBlocks v.geometry cs))

theorem SameDirs.read (h : SameDirs sectors v w) (hsizes : SameSizes sectors v w) (hcontents : SameContents sectors v w) (path : List UInt8) (max : Nat) :
    (fat32ReadFile w path max).map Prod.snd = (fat32ReadFile v path max).map Prod.snd := by
  rw [fat32ReadFile, fat32ReadFile, h.ready]
  split
  · rfl
  split
  · rfl
  rename_i norm hnorm
  rcases (h.stat hsizes norm).cases with ⟨hv, hw⟩ | ⟨v', _, w', de, hv, hw, hbuf, hbuf', rfl⟩
  · rw [hv, hw]
  rw [hv, hw]
  cases de with
  | none => rfl
  | some de =>
      by_cases hdir : de.isDir = true
      · simp only [hdir, if_true, Option.map_some]
      obtain ⟨slot, name, hfile, -, rfl⟩ := fileOf_of_stat h.wellFormed hv (Bool.eq_false_iff.mpr hdir)
      obtain ⟨cs, hchain, hroom⟩ := h.wellFormed.files slot hfile.slot
      obtain ⟨hchain', hsame⟩ := hcontents slot cs hfile.slot hchain
      obtain ⟨sec, rfl⟩ := hbuf
      obtain ⟨sec', rfl⟩ := hbuf'
      have hfits : min (slotEntry v.disk slot).fileSize max ≤ chainBytes v.geometry cs := (Nat.min_le_left _ _).trans hroom
      obtain ⟨v2, -, hread⟩ := @FileChain.read sectors _ cs { v with sector := sec } h.wellFormed.geometry h.wellFormed.cluster hchain _ hfits
      rw [← h.geometry] at hchain' hfits
      obtain ⟨w2, -, hread'⟩ := @FileChain.read sectors _ cs { w with sector := sec' } (h.geometry ▸ h.wellFormed.geometry)
        (h.geometry ▸ h.wellFormed.cluster) hchain' _ hfits
      simp only [h.geometry] at hread'
      simp only [direntOf] at hdir ⊢
      simp only [hread, hread', if_neg hdir, Option.map_some, h.geometry]
      rcases hsame with hzero | hbytes
      · simp [hzero]
      · rw [hbytes]

theorem SameDirs.shown (h : SameDirs sectors v w) (hsizes : SameSizes sectors v w) (hcontents : SameContents sectors v w) : v.SameShown w := by
  have hrest := h.buffered v.atRest_buffered w.atRest_buffered
  refine ⟨fun path => ?_, fun path max => hrest.read hsizes hcontents path max⟩
  rcases (hrest.stat hsizes path).cases with ⟨hv, hw⟩ | ⟨v', _, w', de, hv, hw, -, -, rfl⟩
  · rw [hv, hw]
  · rw [hv, hw]
    rfl

/-! ### A write of nothing -/

/-- Different files have no cluster in common. -/
def FilesApart (g : Fat32Geometry) (d : Memory) (sectors : Nat) : Prop :=
  ∀ slot slot' cs cs', FileSlot g d sectors slot → FileSlot g d sectors slot' → slot' ≠ slot → FileChain g d sectors (slotEntry d slot).firstCluster cs →
    FileChain g d sectors (slotEntry d slot').firstCluster cs' → cs.Disjoint cs'

/-- A well-formed volume whose files share no clusters. -/
structure Fat32Sound (v : Fat32) (sectors : Nat) : Prop where
  wellFormed : Fat32WellFormed v.geometry v.disk sectors
  cluster : v.geometry.sectorsPerCluster < 256
  files : FilesApart v.geometry v.disk sectors

/-- A file without bytes that loses its clusters' contents is the same, and so are the files that have no part in them. -/
theorem sameContents_overwritten (h : Fat32Sound v sectors) (hslot : FileSlot v.geometry v.disk sectors slot)
    (hchain : FileChain v.geometry v.disk sectors (slotEntry v.disk slot).firstCluster cs) (hempty : (slotEntry v.disk slot).fileSize = 0)
    (hdisk : w.disk = overwritten v.geometry v.disk cs slot []) : SameContents sectors v w := by
  have hfat := sameFat_overwritten h.wellFormed hslot hdisk
  intro slot' cs' hslot' hchain'
  refine ⟨hchain'.congr fun x hx => hfat x (hchain'.ok x hx), ?_⟩
  by_cases hsame : slot' = slot
  · exact Or.inl (hsame ▸ hempty)
  · right
    obtain ⟨dirFirst, dir, hreach, hdir, hlive⟩ := hslot.volume
    have hmem := (List.takeWhile_sublist _).subset hlive
    obtain ⟨-, j, hj, hoff⟩ := dirSlot_place hmem
    apply Lib.readBlocks_congr
    intro a ha x hlo hhi
    have hapartDir := block_apart hchain'.two hdir.two (h.wellFormed.apart slot' cs' dirFirst dir hslot' hchain' hreach hdir) hmem ha
    rw [hdisk]
    apply overwritten_apply
    · intro b hb
      obtain ⟨c, hc, s, hs, rfl⟩ := mem_chainBlocks.mp ha
      obtain ⟨c', hc', s', hs', rfl⟩ := mem_chainBlocks.mp hb
      have hne : c ≠ c' := by
        rintro rfl
        exact h.files slot slot' cs cs' hslot hslot' hsame hchain hchain' hc' hc
      have := clusterLba_apart (hchain'.two c hc) (hchain.two c' hc') hne hs hs'
      omega
    · omega

theorem sameSizes_overwritten (hwf : Fat32WellFormed v.geometry v.disk sectors) (hslot : FileSlot v.geometry v.disk sectors slot)
    (hchain : FileChain v.geometry v.disk sectors (slotEntry v.disk slot).firstCluster cs) (hempty : (slotEntry v.disk slot).fileSize = 0)
    (hdisk : w.disk = overwritten v.geometry v.disk cs slot []) : SameSizes sectors v w := by
  intro slot' hslot'
  rw [hdisk]
  by_cases hsame : slot' = slot
  · obtain ⟨dirFirst, dir, -, -, hlive⟩ := hslot.volume
    obtain ⟨-, j, hj, hoff⟩ := dirSlot_place ((List.takeWhile_sublist _).subset hlive)
    rw [hsame, fileSize_overwritten (by omega), hempty]
    rfl
  · exact fileSize_overwritten_of_ne hwf hslot hchain hslot' hsame

/-- A write of nothing to a file is not seen exactly when the file was empty. -/
theorem fat32WriteFile_nil (h : Fat32Sound v sectors) {de : Fat32Dirent} (hstat : fat32Stat v path = some (v', some de)) (hfile : de.isDir = false) :
    ∃ w, fat32WriteFile v path [] = some (w, 0) ∧ (v.SameShown w ↔ de.size = 0) := by
  obtain ⟨slot, name, hfileOf, -, rfl⟩ := fileOf_of_stat h.wellFormed hstat hfile
  obtain ⟨cs, hchain, -⟩ := h.wellFormed.files slot hfileOf.slot
  obtain ⟨norm, u, parent, leaf, hnorm, hroot, hresolve, hbuf, hparent, hlocated⟩ := hfileOf.way
  have hfits : ([] : List UInt8).length ≤ chainBytes v.geometry cs := Nat.zero_le _
  obtain ⟨w, hwrite, hready, hgeometry, hdisk⟩ := fat32WriteFile_located h.wellFormed h.cluster hfileOf.ready hnorm hresolve hbuf hparent hlocated
    hfileOf.slot.file hchain hfits
  obtain ⟨hsame, -, hsize⟩ := hfileOf.written h.wellFormed hchain hready hgeometry hdisk
  refine ⟨w, hwrite, fun hshown => ?_, fun hempty => ?_⟩
  · -- the entry of the path tells its size
    have hself := (SameDirs.refl h.wellFormed).buffered (Fat32.Buffered.refl v) v.atRest_buffered
    have hafter := hsame.buffered (Fat32.Buffered.refl v) w.atRest_buffered
    obtain ⟨v1, name1, -, -, hstat1⟩ := fat32Stat_located hself hfileOf.ready hnorm hroot hresolve hparent hlocated
    obtain ⟨w1, name2, -, -, hstat2⟩ := fat32Stat_located hafter (hready.trans hfileOf.ready) hnorm hroot hresolve hparent hlocated
    have hentry := hshown.stat path
    rw [hstat1, hstat2] at hentry
    have hsizes := congrArg Fat32Dirent.size (Option.some.inj (Option.some.inj hentry))
    exact hsizes.symm.trans hsize
  · exact hsame.shown (sameSizes_overwritten h.wellFormed hfileOf.slot hchain hempty hdisk)
      (sameContents_overwritten h hfileOf.slot hchain hempty hdisk)

/-- It does not matter what is in the scratch sector. -/
theorem fat32WriteFile_nil_buffered (h : Fat32Sound v sectors) (hbuf : v.Buffered u) {de : Fat32Dirent}
    (hstat : fat32Stat v path = some (v', some de)) (hfile : de.isDir = false) :
    ∃ w, fat32WriteFile u path [] = some (w, 0) ∧ (v.SameShown w ↔ de.size = 0) := by
  have hsizes : SameSizes sectors v u := by
    obtain ⟨sec, rfl⟩ := hbuf
    exact fun _ _ => rfl
  have hself := ((SameDirs.refl h.wellFormed).buffered (Fat32.Buffered.refl v) hbuf).stat hsizes path
  rw [hstat] at hself
  obtain ⟨u', b, hstat', -, -, rfl⟩ := hself.of_left
  obtain ⟨sec, rfl⟩ := hbuf
  have hsound : Fat32Sound { v with sector := sec } sectors := ⟨h.wellFormed, h.cluster, h.files⟩
  obtain ⟨w, hwrite, hiff⟩ := fat32WriteFile_nil hsound hstat' hfile
  exact ⟨w, hwrite, ⟨fun hshown => hiff.mp ⟨hshown.stat, hshown.read⟩, fun hempty => ⟨(hiff.mpr hempty).stat, (hiff.mpr hempty).read⟩⟩⟩

end Tsukasa
