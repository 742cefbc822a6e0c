import Tsukasa.Fs.Fat32Buffers
import Tsukasa.Fs.Fat32LongName

/-!
# When the calls come back

Nothing in the driver watches for a chain that runs in a circle. A scan ends at the end of the directory or of its chain, a read when it has all its bytes or at the end of the chain, and a write at the end of the chain only. Where the chains that a path leads to end, every call comes back.
-/

namespace Tsukasa

open Lib (Memory Traced)
open Lib.Traced (Finishes)

variable {σ α : Type} {g : Fat32Geometry} {d : Memory} {v v' w : Fat32} {c n m fuel : Nat} {k : DirScan σ} {l : LfnState} {ctx ctx' : σ}
  {lfn : Memory → Nat → LfnState → Option LfnState} {slot : Nat × Nat} {slots : List (Nat × Nat)}

/-! ### Scans -/

/-- More fuel changes nothing for a scanner that comes back. -/
theorem scanClusters_mono {r : Fat32 × σ} (h : scanClusters k n c v l ctx = some r) (hle : n ≤ m) : scanClusters k m c v l ctx = some r := by
  induction n generalizing m c v l ctx with
  | zero => cases h
  | succ n ih =>
      obtain ⟨m, rfl⟩ := Nat.exists_eq_add_one_of_ne_zero (show m ≠ 0 by omega)
      rw [scanClusters] at h ⊢
      split
      · rename_i hc
        rw [if_pos hc] at h
        cases hscan : scanSectors k (clusterToLba v.geometry c) (List.range v.geometry.sectorsPerCluster) v l ctx with
        | none =>
            rw [hscan] at h
            cases h
        | some s =>
            rw [hscan] at h
            obtain ⟨w, s⟩ := s
            cases s with
            | done ctx => exact h
            | more l ctx => exact ih h (Nat.le_of_succ_le_succ hle)
      · rename_i hc
        rwa [if_neg hc] at h

/-- The long-name entries of a directory that have no sequence number have no characters. -/
def NamesInside (g : Fat32Geometry) (d : Memory) (c : Nat) : Prop :=
  ∀ n, ∀ slot ∈ liveSlots d (chainSlots g d n c), LongName d slot → NoSequence (ataReadSector d slot.1) slot.2 → NoChars (ataReadSector d slot.1) slot.2

/-- A scan of the directory comes to its end, and on the way there it stays inside the long-name buffer. -/
structure DirEnds (g : Fat32Geometry) (d : Memory) (c : Nat) : Prop where
  ends : ∃ n, ScanEnds g d n c
  names : NamesInside g d c

theorem DirEnds.scan {visit : DirEntry → Nat → Nat → List UInt8 → σ → σ × Bool} (h : DirEnds v.geometry v.disk c) (hlfn : ScannerLfn lfn) (hl : l.Sound) :
    Finishes (fun n => scanRun ⟨lfn, visit⟩ n c v l ctx) fun r => ∃ n, scanClusters ⟨lfn, visit⟩ n c v l ctx = some r := by
  obtain ⟨n, hends⟩ := h.ends
  have hsound : scanSlots ⟨lfn, visit⟩ v.disk (chainSlots v.geometry v.disk n c) l ctx ≠ none := by
    rcases hlfn with rfl | rfl
    · exact scanSlots_sound ctx visit iterateLfn_keeps hl fun slot hslot hlong l hl => iterateLfn_inside hl (h.names n slot hslot hlong)
    · exact scanSlots_sound ctx visit findLfn_keeps hl fun slot hslot hlong l hl => findLfn_inside hl (h.names n slot hslot hlong)
  have hshows := scanSlots_visitAll v.disk lfn visit (chainSlots v.geometry v.disk n c) l ctx
  have hresult := scanClusters_slots (k := ⟨lfn, visit⟩) v n c l ctx
  have hsome : ∃ r, scanClusters ⟨lfn, visit⟩ n c v l ctx = some r := by
    rw [ScanEnds] at hends
    revert hsound hshows hresult
    generalize scanClusters ⟨lfn, visit⟩ n c v l ctx = r
    generalize scanSlots ⟨lfn, visit⟩ v.disk (chainSlots v.geometry v.disk n c) l ctx = scan
    intro hsound hshows hresult
    cases hshows with
    | fault _ => exact absurd rfl hsound
    | done _ =>
        cases hresult
        exact ⟨_, rfl⟩
    | more _ hlive =>
        cases hresult with
        | ended _ _ => exact ⟨_, rfl⟩
        | runs hchain => exact absurd (hends.resolve_left hlive) hchain
  obtain ⟨r, hr⟩ := hsome
  refine ⟨n, r, ⟨n, hr⟩, fun m hm => ?_⟩
  rw [scanRun_result]
  exact scanClusters_mono hr hm

/-! ### Where paths lead -/

/-- The first clusters of the directories that a path leads to, on a disk with any content. -/
inductive PathReach (g : Fat32Geometry) (d : Memory) : Nat → Prop where
  | root : PathReach g d g.rootCluster
  | child {c n : Nat} {slot : Nat × Nat} : PathReach g d c → slot ∈ liveSlots d (chainSlots g d n c) → Shown d slot →
      (slotEntry d slot).attr &&& attrDir ≠ 0 →
      PathReach g d (if (slotEntry d slot).firstCluster = 0 then g.rootCluster else (slotEntry d slot).firstCluster)

/-- The entries of these directories. -/
def EntryReach (g : Fat32Geometry) (d : Memory) (slot : Nat × Nat) : Prop :=
  ∃ c n, PathReach g d c ∧ slot ∈ liveSlots d (chainSlots g d n c) ∧ Shown d slot

/-- The clusters of a file that a write goes over, `n` at most. -/
def fileClusters (g : Fat32Geometry) (d : Memory) : Nat → Nat → List Nat
  | 0, _ => []
  | n + 1, c => if 2 ≤ c ∧ c < fat32Eoc then c :: fileClusters g d n (fatValue g d c) else []

/-- The sector of the FAT with the entry of a cluster. -/
def fatSector (g : Fat32Geometry) (c : Nat) : Nat := wrap32 (g.fatLba + wrap32 (c * 4) / g.bytesPerSector)

/-- The chain of a file ends within `n` clusters, and none of its sectors holds the FAT entry of one of its clusters. -/
structure FileEnds (g : Fat32Geometry) (d : Memory) (n c : Nat) : Prop where
  ends : (fileClusters g d n c).length < n
  apart : ∀ x ∈ fileClusters g d n c, ∀ s < g.sectorsPerCluster, ∀ y ∈ fileClusters g d n c, wrap32 (clusterToLba g x + s) ≠ fatSector g y

/-- The chains that paths lead to end. -/
structure ChainsEnd (g : Fat32Geometry) (d : Memory) : Prop where
  /-- Otherwise the driver goes by what lies behind its buffers. -/
  fits : Quiet g g.rootCluster
  dirs : ∀ c, PathReach g d c → DirEnds g d c
  /-- `fat32_list_dir` scans cluster 0 of a directory without one, where a path goes on in the root. -/
  listed : ∀ slot, EntryReach g d slot → (slotEntry d slot).attr &&& attrDir ≠ 0 → DirEnds g d (slotEntry d slot).firstCluster
  /-- A cluster without sectors has no bytes, so then a read ends at the end of the chain only. -/
  reads : ∀ slot, EntryReach g d slot → (slotEntry d slot).attr &&& attrDir = 0 →
    0 < g.sectorsPerCluster ∨ ∃ n, ChainEnded g d n (slotEntry d slot).firstCluster
  writes : ∀ slot, EntryReach g d slot → (slotEntry d slot).attr &&& attrDir = 0 → ∃ n, FileEnds g d n (slotEntry d slot).firstCluster

/-! ### The loops over a file -/

theorem readSectors_le (v : Fat32) (lba toRead : Nat) (ss : List Nat) (dst : List UInt8) : dst.length ≤ (readSectors v lba toRead ss dst).length := by
  induction ss generalizing dst with
  | nil => exact Nat.le_refl _
  | cons s ss ih =>
      rw [readSectors]
      split
      · have hrest := ih (dst ++ (ataReadSector v.disk (wrap32 (lba + s))).bytes 0 (min v.geometry.bytesPerSector (toRead - dst.length)))
        rw [List.length_append] at hrest
        exact Nat.le_trans (Nat.le_add_right _ _) hrest
      · exact Nat.le_refl _

/-- A cluster with sectors has at least one byte of what is still to be read. -/
theorem readSectors_lt (hspc : 0 < v.geometry.sectorsPerCluster) (hbytes : 0 < v.geometry.bytesPerSector) (lba : Nat) {toRead : Nat} {dst : List UInt8}
    (hmore : dst.length < toRead) : dst.length < (readSectors v lba toRead (List.range v.geometry.sectorsPerCluster) dst).length := by
  obtain ⟨m, hm⟩ := Nat.exists_eq_add_one_of_ne_zero (Nat.ne_of_gt hspc)
  rw [hm, List.range_succ_eq_map, readSectors, if_pos hmore]
  have hrest := readSectors_le v lba toRead ((List.range m).map Nat.succ)
    (dst ++ (ataReadSector v.disk (wrap32 (lba + 0))).bytes 0 (min v.geometry.bytesPerSector (toRead - dst.length)))
  rw [List.length_append, Memory.length_bytes] at hrest
  exact Nat.lt_of_lt_of_le (by omega) hrest

/-- In a cluster with sectors every round brings bytes. -/
theorem readClustersRun_progress (toRead : Nat) (hspc : 0 < v.geometry.sectorsPerCluster) (hbytes : 0 < v.geometry.bytesPerSector) {dst : List UInt8}
    (hm : toRead ≤ dst.length + m) : Finishes (fun n => readClustersRun toRead n c v dst) fun _ => True := by
  induction m generalizing c v dst with
  | zero =>
      refine Finishes.round (Finishes.pure (a := (v, dst)) trivial) fun n => ?_
      rw [readClustersRun, if_neg (by omega)]
  | succ m ih =>
      by_cases hcond : c < fat32Eoc ∧ dst.length < toRead
      · have hgeometry := (fatNext_buffered v c).geometry
        have hlt := readSectors_lt hspc hbytes (clusterToLba v.geometry c) hcond.2
        have hrest := @ih (fatNext v c).2 (fatNext v c).1 (by rwa [hgeometry]) (by rwa [hgeometry])
          (readSectors v (clusterToLba v.geometry c) toRead (List.range v.geometry.sectorsPerCluster) dst) (by omega)
        refine hrest.round fun n => ?_
        rw [readClustersRun, if_pos hcond]
        rfl
      · refine Finishes.round (Finishes.pure (a := (v, dst)) trivial) fun n => ?_
        rw [readClustersRun, if_neg hcond]

theorem readClustersRun_ended (toRead : Nat) (dst : List UInt8) (hended : ChainEnded v.geometry v.disk n c) :
    Finishes (fun n => readClustersRun toRead n c v dst) fun _ => True := by
  induction n generalizing c v dst with
  | zero => exact absurd hended (Nat.not_lt_zero _)
  | succ n ih =>
      by_cases hcond : c < fat32Eoc ∧ dst.length < toRead
      · rw [ChainEnded, chainClusters_succ hcond.1, List.length_cons] at hended
        have hrest := @ih (fatNext v c).2 (fatNext v c).1
          (readSectors v (clusterToLba v.geometry c) toRead (List.range v.geometry.sectorsPerCluster) dst) (Nat.lt_of_succ_lt_succ hended)
        refine hrest.round fun n => ?_
        rw [readClustersRun, if_pos hcond]
        rfl
      · refine Finishes.round (Finishes.pure (a := (v, dst)) trivial) fun n => ?_
        rw [readClustersRun, if_neg hcond]

theorem chainCapacityRun_finishes (capacity : Nat) (h : (fileClusters v.geometry v.disk n c).length < n) :
    Finishes (fun n => chainCapacityRun n c v capacity) fun r => v.Buffered r.1 := by
  induction n generalizing c v capacity with
  | zero => exact absurd h (Nat.not_lt_zero _)
  | succ n ih =>
      by_cases hcond : 2 ≤ c ∧ c < fat32Eoc
      · rw [fileClusters, if_pos hcond, List.length_cons] at h
        have hrest := @ih (fatNext v c).2 (fatNext v c).1
          (wrap64 (capacity + (fatNext v c).2.geometry.sectorsPerCluster * (fatNext v c).2.geometry.bytesPerSector)) (Nat.lt_of_succ_lt_succ h)
        refine (hrest.mono fun r hr => (fatNext_buffered v c).trans hr).round fun n => ?_
        rw [chainCapacityRun, if_pos hcond]
        rfl
      · refine Finishes.round (Finishes.pure (a := (v, capacity)) (Fat32.Buffered.refl v)) fun n => ?_
        rw [chainCapacityRun, if_neg hcond]

theorem ataReadSector_write_ne {lba lba' : Nat} (h : lba' ≠ lba) (d buf : Memory) :
    ataReadSector (ataWriteSector d lba buf) lba' = ataReadSector d lba' := by
  funext i
  rw [ataReadSector, ataReadSector]
  split
  · exact Memory.blit_apply_of_outside _ _ (by omega)
  · rfl

theorem fatValue_congr {d' : Memory} {y : Nat} (h : ataReadSector d' (fatSector g y) = ataReadSector d (fatSector g y)) :
    fatValue g d' y = fatValue g d y := congrArg (fun sec : Memory => sec.load (wrap32 (y * 4) % g.bytesPerSector) 4 % 2 ^ 28) h

theorem writeSectors_fatValue (src : List UInt8) {lba y : Nat} {ss : List Nat} (w : Fat32) (done : Nat)
    (h : ∀ s ∈ ss, wrap32 (lba + s) ≠ fatSector g y) :
    fatValue g (writeSectors lba src ss w done).1.disk y = fatValue g w.disk y := by
  induction ss generalizing w done with
  | nil => rfl
  | cons s ss ih =>
      rw [writeSectors, ih _ _ fun s' hs' => h s' (List.mem_cons_of_mem s hs')]
      apply fatValue_congr
      dsimp only
      exact ataReadSector_write_ne (h s List.mem_cons_self).symm w.disk _

/-- The FAT entries of the chain stay what they were, so the write goes the way that the capacity was counted on. -/
theorem writeClustersRun_finishes (src : List UInt8) (done : Nat) (hw : w.geometry = g) (h : FileEnds g d n c)
    (hsame : ∀ y ∈ fileClusters g d n c, fatValue g w.disk y = fatValue g d y) : Finishes (fun n => writeClustersRun src n c w done) fun _ => True := by
  induction n generalizing c w done with
  | zero => exact absurd h.ends (Nat.not_lt_zero _)
  | succ n ih =>
      by_cases hcond : 2 ≤ c ∧ c < fat32Eoc
      · have hclusters : fileClusters g d (n + 1) c = c :: fileClusters g d n (fatValue g d c) := if_pos hcond
        obtain ⟨hends, hapart⟩ := h
        rw [hclusters] at hends hapart hsame
        have hwritten : ∀ y ∈ c :: fileClusters g d n (fatValue g d c),
            fatValue g (writeSectors (clusterToLba g c) src (List.range g.sectorsPerCluster) w done).1.disk y = fatValue g d y := by
          intro y hy
          rw [← hsame y hy]
          exact writeSectors_fatValue src w done fun s hs => hapart c List.mem_cons_self s (List.mem_range.mp hs) y hy
        have hgeometry := (writeSectors_geometry (clusterToLba g c) src (List.range g.sectorsPerCluster) w done).trans hw
        have hnext : (fatNext (writeSectors (clusterToLba g c) src (List.range g.sectorsPerCluster) w done).1 c).1 = fatValue g d c := by
          rw [fatNext_fst, hgeometry]
          exact hwritten c List.mem_cons_self
        have hrest : FileEnds g d n (fatValue g d c) :=
          ⟨Nat.lt_of_succ_lt_succ hends, fun x hx s hs y hy => hapart x (List.mem_cons_of_mem c hx) s hs y (List.mem_cons_of_mem c hy)⟩
        have hloop := ih (w := (fatNext (writeSectors (clusterToLba g c) src (List.range g.sectorsPerCluster) w done).1 c).2)
          (writeSectors (clusterToLba g c) src (List.range g.sectorsPerCluster) w done).2 ((fatNext_buffered _ c).geometry.trans hgeometry) hrest
          fun y hy => hwritten y (List.mem_cons_of_mem c hy)
        refine hloop.round fun n => ?_
        rw [writeClustersRun, if_pos hcond, hw, ← hnext]
        rfl
      · refine Finishes.round (Finishes.pure (a := (w, done)) trivial) fun n => ?_
        rw [writeClustersRun, if_neg hcond]

/-! ### The calls -/

section calls

variable {start : Nat → LfnState} {p : UInt8 → List UInt8 → Bool} {f : DirEntry → Nat → Nat → List UInt8 → α} {comps : List (List UInt8)}

theorem findDirVisit_eq (root : Nat) (comp : List UInt8) : (fun (e : DirEntry) (_ _ : Nat) name ctx => findDirCb root comp e name ctx) =
    lookup (dirNamed comp) fun e _ _ _ => if e.firstCluster = 0 then root else e.firstCluster := by
  funext e lba off name ctx
  simp only [findDirCb, lookup, dirNamed, decide_eq_true_eq]

theorem statVisit_eq (leaf : List UInt8) : (fun (e : DirEntry) (_ _ : Nat) name ctx => statCb leaf e name ctx) =
    lookup (nameIs leaf) fun e _ _ name => direntOf e name := by
  funext e lba off name ctx
  simp only [statCb, lookup, nameIs, direntOf, decide_eq_true_eq]

/-- What a lookup in a directory comes back with: nothing, or one of the entries that a path leads to. -/
theorem ChainsEnd.lookup (h : ChainsEnd v.geometry v.disk) (hc : PathReach v.geometry v.disk c) (hbuf : v.Buffered w) (hlfn : ScannerLfn lfn)
    (hl : l.Sound) : Finishes (fun n => scanRun ⟨lfn, lookup p f⟩ n c w l none) fun r => v.Buffered r.1 ∧ ∀ a, r.2 = some a →
      ∃ slot name, EntryReach v.geometry v.disk slot ∧ p (slotEntry v.disk slot).attr name = true ∧
        a = f (slotEntry v.disk slot) slot.1 slot.2 name := by
  obtain ⟨sec, rfl⟩ := hbuf
  have hdir : DirEnds ({ v with sector := sec } : Fat32).geometry ({ v with sector := sec } : Fat32).disk c := h.dirs c hc
  refine (hdir.scan hlfn hl).mono ?_
  rintro ⟨w', found⟩ ⟨n, hr⟩
  refine ⟨Fat32.Buffered.trans ⟨sec, rfl⟩ (scanClusters_buffered hr), fun a ha => ?_⟩
  cases ha
  obtain ⟨slot, hslot, hshown, name, hp, ha⟩ := scanClusters_lookup_mem hr
  exact ⟨slot, name, ⟨c, n, hc, hslot, hshown⟩, hp, ha⟩

theorem ChainsEnd.walk (h : ChainsEnd v.geometry v.disk) (hc : PathReach v.geometry v.disk c) (hbuf : v.Buffered w) (hstart : ∀ i, (start i).Sound) :
    Finishes (fun n => walkDirsRun n comps start w c) fun r => v.Buffered r.1 ∧ (r.2 = 0 ∨ PathReach v.geometry v.disk r.2) := by
  induction comps generalizing w c start with
  | nil => exact .pure ⟨hbuf, Or.inr hc⟩
  | cons comp comps ih =>
      simp only [walkDirsRun, findDirVisit_eq, hbuf.geometry]
      refine (h.lookup hc hbuf (Or.inl rfl) (hstart 0)).bind ?_
      rintro ⟨w', found⟩ ⟨hw', hfound⟩
      cases found with
      | none => exact .pure ⟨hw', Or.inl rfl⟩
      | some found =>
          obtain ⟨slot, name, ⟨c', n, hc', hslot, hshown⟩, hp, rfl⟩ := hfound found rfl
          rw [dirNamed, decide_eq_true_eq] at hp
          exact ih (.child hc' hslot hshown hp.1) hw' fun i => hstart (i + 1)

theorem ChainsEnd.resolve (h : ChainsEnd v.geometry v.disk) (hbuf : v.Buffered w) (hstart : ∀ i, (start i).Sound) (path : List UInt8) :
    Finishes (fun n => resolveParentRun n start w path) fun r => v.Buffered r.1 ∧ (r.2.1 = 0 ∨ PathReach v.geometry v.disk r.2.1) := by
  simp only [resolveParentRun, hbuf.geometry]
  split
  · exact .pure ⟨hbuf, Or.inr .root⟩
  · refine (h.walk .root hbuf hstart).bind ?_
    exact fun r hr => .pure hr

theorem ChainsEnd.resolveIn (h : ChainsEnd v.geometry v.disk) (hbuf : v.Buffered w) (hstart : ∀ i, (start i).Sound) (store : PathStore)
    (path : List UInt8) : Finishes (fun n => resolveParentInRun n start w store path) fun r =>
      v.Buffered r.1 ∧ (r.2.2.1 = 0 ∨ PathReach v.geometry v.disk r.2.2.1) := by
  simp only [resolveParentInRun, hbuf.geometry]
  split
  · exact .pure ⟨hbuf, Or.inr .root⟩
  · refine (h.walk .root hbuf hstart).bind ?_
    exact fun r hr => .pure hr

/-- What `fat32_stat` comes back with. -/
def StatFound (v : Fat32) (de : Fat32Dirent) : Prop :=
  de = ⟨[slash], 0, true, v.geometry.rootCluster⟩ ∨ ∃ slot name, EntryReach v.geometry v.disk slot ∧ de = direntOf (slotEntry v.disk slot) name

theorem ChainsEnd.stat (h : ChainsEnd v.geometry v.disk) (hbuf : v.Buffered w) (hstart : ∀ i, (start i).Sound) (path : List UInt8) :
    Finishes (fun n => statRun n start w path) fun r => v.Buffered r.1 ∧ ∀ de, r.2 = some de → StatFound v de := by
  have herror : ∀ {u : Fat32}, v.Buffered u → Finishes (fun _ => (Pure.pure (u, none) : Fat32Run (Fat32 × Option Fat32Dirent)))
      fun r => v.Buffered r.1 ∧ ∀ de, r.2 = some de → StatFound v de := fun hu => .pure ⟨hu, fun de hde => (by cases hde)⟩
  simp only [statRun, statVisit_eq, hbuf.geometry]
  split
  · exact herror hbuf
  split
  · exact herror hbuf
  split
  · refine .pure ⟨hbuf, fun de hde => ?_⟩
    cases hde
    exact Or.inl rfl
  refine (h.resolve hbuf hstart _).bind ?_
  rintro ⟨u, parent, leaf⟩ ⟨hu, hparent⟩
  cases leaf with
  | none => exact herror hu
  | some leaf =>
      dsimp only
      split
      · exact herror hu
      rename_i hzero
      refine (h.lookup (hparent.resolve_left hzero) hu (Or.inl rfl) (hstart 32)).mono ?_
      rintro r ⟨hr, hfound⟩
      refine ⟨hr, fun de hde => ?_⟩
      obtain ⟨slot, name, hentry, -, rfl⟩ := hfound de hde
      exact Or.inr ⟨slot, name, hentry, rfl⟩

theorem direntOf_isDir (e : DirEntry) (name : List UInt8) : (direntOf e name).isDir = true ↔ e.attr &&& attrDir ≠ 0 := decide_eq_true_iff

theorem ChainsEnd.list (h : ChainsEnd v.geometry v.disk) (hstart : ∀ i, (start i).Sound) (path : List UInt8) (max : Int) :
    Finishes (fun n => listDirRun n start v path max) fun _ => True := by
  have hscan : ∀ {u : Fat32} {cluster : Nat}, v.Buffered u → DirEnds v.geometry v.disk cluster →
      Finishes (fun n => listClusterRun n start max u cluster) fun _ => True := by
    intro u cluster hu hdir
    obtain ⟨sec, rfl⟩ := hu
    have hdir : DirEnds ({ v with sector := sec } : Fat32).geometry ({ v with sector := sec } : Fat32).disk cluster := hdir
    exact (hdir.scan (Or.inl rfl) (hstart 33)).bind fun r _ => .pure trivial
  simp only [listDirRun]
  split
  · exact .pure trivial
  split
  · exact .pure trivial
  split
  · exact hscan (Fat32.Buffered.refl v) (h.dirs _ .root)
  refine (h.stat (Fat32.Buffered.refl v) hstart _).bind ?_
  rintro ⟨u, de⟩ ⟨hu, hfound⟩
  cases de with
  | none => exact .pure trivial
  | some de =>
      dsimp only
      split
      · rename_i hdir
        apply hscan hu
        rcases hfound de rfl with rfl | ⟨slot, name, hentry, rfl⟩
        · exact h.dirs _ .root
        · exact h.listed slot hentry ((direntOf_isDir _ _).mp hdir)
      · exact .pure trivial

theorem ChainsEnd.read (h : ChainsEnd v.geometry v.disk) (hbytes : 0 < v.geometry.bytesPerSector) (hstart : ∀ i, (start i).Sound) (path : List UInt8)
    (maxBytes : Nat) : Finishes (fun n => readFileRun n start v path maxBytes) fun _ => True := by
  simp only [readFileRun]
  split
  · exact .pure trivial
  split
  · exact .pure trivial
  refine (h.stat (Fat32.Buffered.refl v) hstart _).bind ?_
  rintro ⟨u, de⟩ ⟨hu, hfound⟩
  cases de with
  | none => exact .pure trivial
  | some de =>
      dsimp only
      split
      · exact .pure trivial
      rename_i hfile
      rcases hfound de rfl with rfl | ⟨slot, name, hentry, rfl⟩
      · exact absurd rfl hfile
      · have hattr := not_not.mp (mt (direntOf_isDir (slotEntry v.disk slot) name).mpr hfile)
        obtain ⟨sec, rfl⟩ := hu
        rcases h.reads slot hentry hattr with hspc | ⟨n, hended⟩
        · exact (readClustersRun_progress (v := { v with sector := sec }) _ hspc hbytes (Nat.le_add_left _ _)).bind fun r _ => .pure trivial
        · exact (readClustersRun_ended (v := { v with sector := sec }) _ [] hended).bind fun r _ => .pure trivial

theorem ChainsEnd.write (h : ChainsEnd v.geometry v.disk) (hstart : ∀ i, (start i).Sound) (path src : List UInt8) :
    Finishes (fun n => writeFileRun n start v path src) fun _ => True := by
  simp only [writeFileRun]
  split
  · exact .pure trivial
  split
  · exact .pure trivial
  refine (h.resolve (Fat32.Buffered.refl v) hstart _).bind ?_
  rintro ⟨u, parent, leaf⟩ ⟨hu, hparent⟩
  cases leaf with
  | none => exact .pure trivial
  | some leaf =>
      dsimp only
      split
      · exact .pure trivial
      rename_i hzero
      refine (h.lookup (hparent.resolve_left hzero) hu (Or.inr rfl) (hstart 32)).bind ?_
      rintro ⟨w, raw⟩ ⟨hw, hraw⟩
      cases raw with
      | none => exact .pure trivial
      | some raw =>
          obtain ⟨slot, name, hentry, -, rfl⟩ := hraw raw rfl
          dsimp only
          split
          · exact .pure trivial
          rename_i hattr
          split
          · exact .pure trivial
          obtain ⟨n, hfile⟩ := h.writes slot hentry (not_not.mp hattr)
          obtain ⟨sec, rfl⟩ := hw
          refine (chainCapacityRun_finishes (v := { v with sector := sec }) 0 hfile.ends).bind ?_
          rintro ⟨x, capacity⟩ hx
          obtain ⟨sec', rfl⟩ := hx
          dsimp only
          split
          · exact .pure trivial
          refine (writeClustersRun_finishes (w := { v with sector := sec' }) src 0 rfl hfile fun _ _ => rfl).bind ?_
          rintro ⟨y, done⟩ -
          dsimp only
          split
          · exact .pure trivial
          · exact .touch (.pure trivial)

theorem ChainsEnd.rename (h : ChainsEnd v.geometry v.disk) (hstart : ∀ i, (start i).Sound) (store : PathStore) (oldPath newPath : List UInt8) :
    Finishes (fun n => renameRun n start v store oldPath newPath) fun _ => True := by
  simp only [renameRun]
  split
  · exact .pure trivial
  split
  · exact .pure trivial
  split
  · exact .pure trivial
  refine (h.resolveIn (Fat32.Buffered.refl v) hstart store _).bind ?_
  rintro ⟨u, store₁, oldParent, oldLeaf⟩ ⟨hu, hparent⟩
  refine (h.resolveIn hu (fun i => hstart (i + 32)) store₁ _).bind ?_
  rintro ⟨w, store₂, newParent, newLeaf⟩ ⟨hw, -⟩
  cases oldLeaf with
  | none => exact .pure trivial
  | some oldLeaf =>
      cases newLeaf with
      | none => exact .pure trivial
      | some newLeaf =>
          dsimp only
          split
          · exact .pure trivial
          rename_i hzero
          split
          · exact .pure trivial
          have hreach := hparent.resolve_left fun heq => hzero (Or.inl heq)
          simp only [renameInRun]
          split
          · exact .pure trivial
          refine (h.lookup hreach hw (Or.inr rfl) (hstart 64)).bind ?_
          rintro ⟨x, src⟩ ⟨hx, -⟩
          cases src with
          | none => exact .pure trivial
          | some src =>
              refine (h.lookup hreach hx (Or.inr rfl) (hstart 65)).bind ?_
              rintro ⟨y, dst⟩ -
              cases dst with
              | some dst => exact .pure trivial
              | none => exact .touch (.pure trivial)

end calls

/-- The call comes back, whatever the stack holds. -/
def ComesBack {α : Type} (run : Nat → (Nat → LfnState) → Fat32Run α) : Prop :=
  ∀ leftover : Nat → Nat → UInt8, Finishes (fun n => run n fun i => .start (leftover i)) fun _ => True

/-- On a volume of an accepted geometry whose chains end, every call comes back. -/
theorem fat32_comesBack {v₀ v₁ v : Fat32} (hinit : fat32Init v₀ = (0, v₁)) (hv : v.geometry = v₁.geometry) (h : ChainsEnd v.geometry v.disk) :
    (∀ path, ComesBack fun n start => statRun n start v path) ∧ (∀ path max, ComesBack fun n start => listDirRun n start v path max) ∧
    (∀ path maxBytes, ComesBack fun n start => readFileRun n start v path maxBytes) ∧
    (∀ path src, ComesBack fun n start => writeFileRun n start v path src) ∧
    ∀ comps oldPath newPath, ComesBack fun n start => renameRun n start v comps oldPath newPath := by
  have hbytes : 0 < v.geometry.bytesPerSector := hv ▸ fat32Init_bytes hinit
  refine ⟨fun path leftover => ?_, fun path max leftover => ?_, fun path maxBytes leftover => ?_, fun path src leftover => ?_,
    fun comps oldPath newPath leftover => ?_⟩
  · exact (h.stat (Fat32.Buffered.refl v) (fun i => LfnState.sound_start (leftover i)) path).mono fun _ _ => trivial
  · exact h.list (fun i => LfnState.sound_start (leftover i)) path max
  · exact h.read hbytes (fun i => LfnState.sound_start (leftover i)) path maxBytes
  · exact h.write (fun i => LfnState.sound_start (leftover i)) path src
  · exact h.rename (fun i => LfnState.sound_start (leftover i)) comps oldPath newPath

/-! ### Small volumes -/

theorem tinyBoot_geometry : (mounted tinyBoot).2.geometry = tinyGeometry := by decide +kernel

/-- The root directory ends at its first entry. -/
theorem tinyBoot_live (n : Nat) : liveSlots tinyBoot (chainSlots tinyGeometry tinyBoot n 2) = [] := by
  cases n with
  | zero => rfl
  | succ n =>
      rw [tinySlots (by decide +kernel)]
      exact liveSlots_end (by decide +kernel)

theorem tinyBoot_chainsEnd : ChainsEnd tinyGeometry tinyBoot := by
  have hentry : ∀ slot, ¬ EntryReach tinyGeometry tinyBoot slot := by
    rintro slot ⟨c, n, hc, hslot, -⟩
    induction hc generalizing slot n with
    | root =>
        rw [show tinyGeometry.rootCluster = 2 from rfl, tinyBoot_live] at hslot
        cases hslot
    | child _ hdir _ _ ih => exact ih _ _ hdir
  refine ⟨Or.inl (Or.inr rfl), fun c hc => ?_, fun slot hslot => absurd hslot (hentry slot), fun slot hslot => absurd hslot (hentry slot),
    fun slot hslot => absurd hslot (hentry slot)⟩
  cases hc with
  | root =>
      refine ⟨⟨1, Or.inl ?_⟩, fun n slot hslot => ?_⟩
      · rw [show tinyGeometry.rootCluster = 2 from rfl, tinyBoot_live, tinySlots (by decide +kernel)]
        decide
      · rw [show tinyGeometry.rootCluster = 2 from rfl, tinyBoot_live] at hslot
        cases hslot
  | child hdir hslot hshown _ => exact absurd ⟨_, _, hdir, hslot, hshown⟩ (hentry _)

theorem fat32_comesBack_tiny : ComesBack fun n start => renameRun n start (mounted tinyBoot).2 (fun _ => []) fileA [slash, 66] := by
  have hinit : mounted tinyBoot = (0, (mounted tinyBoot).2) := Prod.ext (by decide +kernel) rfl
  have hchains : ChainsEnd (mounted tinyBoot).2.geometry (mounted tinyBoot).2.disk := by
    rw [tinyBoot_geometry]
    exact tinyBoot_chainsEnd
  exact (fat32_comesBack hinit rfl hchains).2.2.2.2 (fun _ => []) fileA [slash, 66]

/-- A scan of a cluster that links to itself and has deleted entries only never ends. -/
theorem scanClusters_circle (hc : c < fat32Eoc) (hself : fatValue v.geometry v.disk c = c)
    (hslots : ∀ slot ∈ clusterSlots v.geometry c, slotFirst v.disk slot = 0xE5) (n : Nat) : scanClusters k n c v l ctx = none := by
  have hchain : ∀ n, chainClusters v.geometry v.disk n c = List.replicate n c := by
    intro n
    induction n with
    | zero => rfl
    | succ n ih => rw [chainClusters_succ hc, hself, ih, List.replicate_succ]
  have hskip : ∀ (slots : List (Nat × Nat)) (l : LfnState), (∀ slot ∈ slots, slotFirst v.disk slot = 0xE5) →
      ∃ l', scanSlots k v.disk slots l ctx = some (.more l' ctx) := by
    intro slots
    induction slots with
    | nil => exact fun l _ => ⟨l, rfl⟩
    | cons slot slots ih =>
        intro l hall
        have hdeleted := hall slot List.mem_cons_self
        have hlive : slotFirst v.disk slot ≠ 0 := by
          rw [hdeleted]
          decide
        rw [scanSlots, scanEntry_skipped hlive (Or.inl hdeleted)]
        exact ih l.reset fun slot' hslot' => hall slot' (List.mem_cons_of_mem slot hslot')
  obtain ⟨l', hscan⟩ := hskip (chainSlots v.geometry v.disk n c) l (by
    intro slot hslot
    rw [chainSlots, hchain] at hslot
    obtain ⟨x, hx, hslot⟩ := List.mem_flatMap.mp hslot
    rw [List.eq_of_mem_replicate hx] at hslot
    exact hslots slot hslot)
  have hresult := scanClusters_slots (k := k) v n c l ctx
  rw [hscan] at hresult
  revert hresult
  generalize scanClusters k n c v l ctx = r
  intro hresult
  cases hresult with
  | ended hended _ =>
      rw [ChainEnded, hchain, List.length_replicate] at hended
      exact absurd hended (Nat.lt_irrefl n)
  | runs _ => rfl

/-- The root directory links to itself and is full of deleted entries. -/
def circleDisk : Memory := fun x => if 1024 ≤ x ∧ x < 1536 then 0xE5 else tinyBoot.store 520 4 2 x

/-- The driver takes the disk, and listing its root directory never ends. -/
theorem fat32_list_circle : (mounted circleDisk).1 = 0 ∧ ¬ ComesBack fun n start => listDirRun n start (mounted circleDisk).2 [slash] 1 := by
  refine ⟨by decide +kernel, fun hback => ?_⟩
  obtain ⟨n, r, -, hresult⟩ := hback fun _ _ => 0
  have hnorm : fat32NormalizePath [slash] fat32NameMax = some [slash] := by decide +kernel
  have hready : (mounted circleDisk).2.ready = true := rfl
  have hgeometry : (mounted circleDisk).2.geometry = tinyGeometry := by decide +kernel
  have hslots : ∀ slot ∈ clusterSlots tinyGeometry 2, slotFirst circleDisk slot = 0xE5 := by decide +kernel
  have hself : fatValue tinyGeometry circleDisk 2 = 2 := by decide +kernel
  have hscan : ∀ (k : DirScan (List Fat32Dirent)) (l : LfnState), scanClusters k n tinyGeometry.rootCluster (mounted circleDisk).2 l [] = none := by
    intro k l
    apply scanClusters_circle (by decide)
    · rw [hgeometry]
      exact hself
    · rw [hgeometry]
      exact hslots
  have hlist : (listDirRun n (fun _ => .start fun _ => 0) (mounted circleDisk).2 [slash] 1).result = some r := hresult n (Nat.le_refl n)
  rw [listDirRun, hready, hnorm, hgeometry] at hlist
  dsimp only [listClusterRun] at hlist
  simp only [Bool.not_true, Bool.false_eq_true, false_or, if_neg (by decide : ¬ (1 : Int) ≤ 0), if_true, Traced.bind_result, scanRun_result] at hlist
  rw [hscan] at hlist
  cases hlist

end Tsukasa
