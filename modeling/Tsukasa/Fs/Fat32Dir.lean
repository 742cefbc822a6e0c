import Tsukasa.Fs.Fat32
import Tsukasa.Lib.Linked

/-!
# Directories of a FAT32 volume

A directory is the flat list of the slots of its chain. The triple loop of a scanner is a scan of this list, whatever happens to the scratch sector on the way, and two scans agree when they agree slot by slot up to the end of the directory. Nothing a scan depends on lies in the size field of an entry.
-/

namespace Tsukasa

open Lib (Memory)

/-! ### Clusters and their chains -/

/-- The FAT entry of a cluster. -/
def fatEntry (g : Fat32Geometry) (d : Memory) (c : Nat) : Nat := d.load (512 * g.fatLba + 4 * c) 4 % 2 ^ 28

/-- A value of the FAT as a link. -/
def fatLink (x : Nat) : Option Nat := if x < fat32Eoc then some x else none

/-- The first sector of a cluster. -/
def clusterLba (g : Fat32Geometry) (c : Nat) : Nat := g.dataLba + (c - 2) * g.sectorsPerCluster

/-- What a volume of `sectors` sectors, 512 bytes each, promises of its areas. -/
structure Fat32Geometry.Ok (g : Fat32Geometry) (sectors : Nat) : Prop where
  bytes : g.bytesPerSector = 512
  lba : sectors ≤ 2 ^ 32
  fat : g.fatLba + g.fatSize ≤ g.dataLba

/-- A data cluster with its FAT entry inside the FAT and its sectors inside the disk. -/
structure ClusterOk (g : Fat32Geometry) (sectors c : Nat) : Prop where
  two : 2 ≤ c
  fat : 4 * c + 4 ≤ 512 * g.fatSize
  disk : clusterLba g c + g.sectorsPerCluster ≤ sectors

/-- The chain that starts at `first`; it ends, so no cluster is on it twice. -/
structure FatChain (g : Fat32Geometry) (d : Memory) (sectors first : Nat) (cs : List Nat) : Prop where
  links : Lib.Linked.IsList (fun c => fatLink (fatEntry g d c)) (fatLink first) cs
  ok : ∀ c ∈ cs, ClusterOk g sectors c

/-- The two states differ in the scratch sector only. -/
def Fat32.Buffered (v v' : Fat32) : Prop := ∃ sec, v' = { v with sector := sec }

variable {g : Fat32Geometry} {sectors c first : Nat} {cs : List Nat} {v v' : Fat32} {d d' : Memory}

theorem Fat32.Buffered.refl (v : Fat32) : v.Buffered v := ⟨v.sector, rfl⟩

theorem Fat32.Buffered.trans {v'' : Fat32} (h : v.Buffered v') (h' : v'.Buffered v'') : v.Buffered v'' := by
  obtain ⟨sec, rfl⟩ := h
  obtain ⟨sec', rfl⟩ := h'
  exact ⟨sec', rfl⟩

theorem Fat32.Buffered.load (v : Fat32) (lba : Nat) : v.Buffered (v.load lba) := ⟨_, rfl⟩

theorem scanSectors_buffered {σ : Type} {k : DirScan σ} {lba : Nat} {ss : List Nat} {l : LfnState} {ctx : σ} {r : Scan σ}
    (h : scanSectors k lba ss v l ctx = some (v', r)) : v.Buffered v' := by
  induction ss generalizing v l ctx with
  | nil =>
      rw [scanSectors] at h
      cases h
      exact Fat32.Buffered.refl _
  | cons s ss ih =>
      have hload := Fat32.Buffered.load v (wrap32 (lba + s))
      rw [scanSectors] at h
      split at h
      · cases h
      · cases h
        exact hload
      · exact hload.trans (ih h)

theorem scanClusters_buffered {σ : Type} {k : DirScan σ} {fuel cluster : Nat} {l : LfnState} {ctx ctx' : σ}
    (h : scanClusters k fuel cluster v l ctx = some (v', ctx')) : v.Buffered v' := by
  induction fuel generalizing cluster v l ctx with
  | zero => cases h
  | succ fuel ih =>
      rw [scanClusters] at h
      split at h
      · split at h
        · cases h
        · rename_i hsectors
          cases h
          exact scanSectors_buffered hsectors
        · rename_i hsectors
          exact ((scanSectors_buffered hsectors).trans (Fat32.Buffered.load _ _)).trans (ih h)
      · cases h
        exact Fat32.Buffered.refl _

theorem fatLink_some {x : Nat} (h : fatLink x = some c) : x = c ∧ c < fat32Eoc := by
  rw [fatLink] at h
  split at h
  · cases h
    exact ⟨rfl, ‹_›⟩
  · cases h

theorem fatLink_none {x : Nat} (h : fatLink x = none) : ¬ x < fat32Eoc := by
  rw [fatLink] at h
  split at h
  · cases h
  · assumption

theorem FatChain.lt (h : FatChain g d sectors first cs) : ∀ c ∈ cs, c < fat32Eoc := by
  obtain ⟨hlinks, -⟩ := h
  induction cs generalizing first with
  | nil => exact fun c hc => absurd hc List.not_mem_nil
  | cons x cs ih =>
      obtain ⟨hhead, hrest⟩ := Lib.Linked.isList_cons.mp hlinks
      intro c hc
      rcases List.mem_cons.mp hc with rfl | hc
      · exact (fatLink_some hhead).2
      · exact ih hrest c hc

/-- The fuel of the loops is enough for every chain. -/
theorem FatChain.length_lt (h : FatChain g d sectors first cs) : cs.length < fat32Fuel := by
  have hsub : cs ⊆ List.range fat32Eoc := fun c hc => List.mem_range.mpr (h.lt c hc)
  have hle := (h.links.nodup.subperm hsub).length_le
  rw [List.length_range] at hle
  exact Nat.lt_succ_of_le hle

theorem FatChain.tail {x : Nat} (h : FatChain g d sectors first (x :: cs)) :
    first = x ∧ x < fat32Eoc ∧ ClusterOk g sectors x ∧ FatChain g d sectors (fatEntry g d x) cs := by
  obtain ⟨hhead, hrest⟩ := Lib.Linked.isList_cons.mp h.links
  obtain ⟨rfl, hlt⟩ := fatLink_some hhead
  exact ⟨rfl, hlt, h.ok _ List.mem_cons_self, hrest, fun c hc => h.ok c (List.mem_cons_of_mem _ hc)⟩

theorem FatChain.nil (h : FatChain g d sectors first []) : ¬ first < fat32Eoc := fatLink_none (Lib.Linked.isList_nil.mp h.links)

theorem FatChain.congr (h : FatChain g d sectors first cs) (hfat : ∀ c ∈ cs, fatEntry g d' c = fatEntry g d c) :
    FatChain g d' sectors first cs :=
  ⟨h.links.congr fun c hc => by rw [hfat c hc], h.ok⟩

/-! ### Lookups -/

theorem ataReadSector_apply {lba i : Nat} (h : i < 512) : ataReadSector d lba i = d (512 * lba + i) := if_pos h

theorem load_ataReadSector {lba i n : Nat} (h : i + n ≤ 512) : (ataReadSector d lba).load i n = d.load (512 * lba + i) n := by
  induction n generalizing i with
  | zero => rfl
  | succ n ih =>
      rw [Memory.load, Memory.load, ataReadSector_apply (by omega), ih (by omega), Nat.add_assoc]

theorem clusterToLba_eq (hg : g.Ok sectors) (hc : ClusterOk g sectors c) (hspc : 0 < g.sectorsPerCluster) (hlt : c < fat32Eoc) :
    clusterToLba g c = clusterLba g c := by
  have hdisk := hc.disk
  have hlba := hg.lba
  have htwo := hc.two
  have hsub : wrap32 (c + (2 ^ 32 - 2)) = c - 2 := by
    rw [fat32Eoc] at hlt
    rw [wrap32]
    omega
  rw [clusterToLba, hsub]
  exact wrap32_of_lt (by rw [clusterLba] at hdisk; omega)

theorem ClusterOk.sector_lt (hc : ClusterOk g sectors c) (hg : g.Ok sectors) : ∀ s ∈ List.range g.sectorsPerCluster, clusterLba g c + s < 2 ^ 32 := by
  intro s hs
  have hdisk := hc.disk
  have hlba := hg.lba
  have := List.mem_range.mp hs
  omega

theorem fatNext_eq (hg : v.geometry.Ok sectors) (hc : ClusterOk v.geometry sectors c) (hlt : c < fat32Eoc) (hspc : 0 < v.geometry.sectorsPerCluster) :
    (fatNext v c).1 = fatEntry v.geometry v.disk c ∧ v.Buffered (fatNext v c).2 := by
  have hdisk := hc.disk
  have hlba := hg.lba
  have hfat := hg.fat
  have hroom := hc.fat
  have hoff : wrap32 (c * 4) = c * 4 := by
    rw [fat32Eoc] at hlt
    exact wrap32_of_lt (by omega)
  have hsector : wrap32 (v.geometry.fatLba + c * 4 / 512) = v.geometry.fatLba + c * 4 / 512 := by
    rw [clusterLba] at hdisk
    exact wrap32_of_lt (by omega)
  refine ⟨?_, Fat32.Buffered.load v _⟩
  simp only [fatNext, Fat32.load, hg.bytes, hoff, hsector]
  rw [load_ataReadSector (by omega), fatEntry]
  congr 2
  omega

/-! ### Slots -/

/-- The slots of a directory with the given chain, as sectors and offsets. -/
def dirSlots (g : Fat32Geometry) (cs : List Nat) : List (Nat × Nat) :=
  cs.flatMap fun c => (List.range g.sectorsPerCluster).flatMap fun s => (List.range 16).map fun i => (clusterLba g c + s, i * 32)

/-- The scan of a list of slots. -/
def scanSlots {σ : Type} (k : DirScan σ) (d : Memory) : List (Nat × Nat) → LfnState → σ → Option (Scan σ)
  | [], l, ctx => some (.more l ctx)
  | slot :: slots, l, ctx =>
      match scanEntry k (ataReadSector d slot.1) slot.1 slot.2 l ctx with
      | none => none
      | some (.done ctx) => some (.done ctx)
      | some (.more l ctx) => scanSlots k d slots l ctx

def Scan.ctx {σ : Type} : Scan σ → σ
  | .more _ ctx => ctx
  | .done ctx => ctx

variable {σ τ : Type} {k : DirScan σ} {l : LfnState} {ctx : σ}

theorem scanSlots_append {slots slots' : List (Nat × Nat)} :
    scanSlots k d (slots ++ slots') l ctx =
      match scanSlots k d slots l ctx with
      | none => none
      | some (.done ctx) => some (.done ctx)
      | some (.more l ctx) => scanSlots k d slots' l ctx := by
  induction slots generalizing l ctx with
  | nil => rfl
  | cons slot slots ih =>
      rw [List.cons_append, scanSlots, scanSlots]
      cases scanEntry k (ataReadSector d slot.1) slot.1 slot.2 l ctx with
      | none => rfl
      | some r =>
          cases r with
          | done ctx => rfl
          | more l ctx => exact ih

theorem scanEntries_eq (lba : Nat) (is : List Nat) :
    scanEntries k (ataReadSector d lba) lba is l ctx = scanSlots k d (is.map fun i => (lba, i * 32)) l ctx := by
  induction is generalizing l ctx with
  | nil => rfl
  | cons i is ih =>
      rw [scanEntries, List.map_cons, scanSlots]
      cases scanEntry k (ataReadSector d lba) lba (i * 32) l ctx with
      | none => rfl
      | some r =>
          cases r with
          | done ctx => rfl
          | more l ctx => exact ih

theorem scanSectors_eq (hbytes : v.geometry.bytesPerSector = 512) {lba : Nat} {ss : List Nat} (hss : ∀ s ∈ ss, lba + s < 2 ^ 32) :
    ∃ v', v.Buffered v' ∧ scanSectors k lba ss v l ctx =
      (scanSlots k v.disk (ss.flatMap fun s => (List.range 16).map fun i => (lba + s, i * 32)) l ctx).map fun r => (v', r) := by
  induction ss generalizing v l ctx with
  | nil => exact ⟨v, Fat32.Buffered.refl v, rfl⟩
  | cons s ss ih =>
      have hload := Fat32.Buffered.load v (lba + s)
      have hentries : scanEntries k (v.load (lba + s)).sector (lba + s) (List.range ((v.load (lba + s)).geometry.bytesPerSector / 32)) l ctx =
          scanSlots k v.disk ((List.range 16).map fun i => (lba + s, i * 32)) l ctx := by
        rw [← scanEntries_eq, show (v.load (lba + s)).geometry.bytesPerSector = 512 from hbytes]
        rfl
      rw [scanSectors, wrap32_of_lt (hss s List.mem_cons_self), List.flatMap_cons, scanSlots_append, hentries]
      cases scanSlots k v.disk ((List.range 16).map fun i => (lba + s, i * 32)) l ctx with
      | none => exact ⟨v, Fat32.Buffered.refl v, rfl⟩
      | some r =>
          cases r with
          | done ctx => exact ⟨v.load (lba + s), hload, rfl⟩
          | more l ctx =>
              obtain ⟨v', hv', heq⟩ := @ih (v.load (lba + s)) l ctx hbytes fun s' hs' => hss s' (List.mem_cons_of_mem s hs')
              exact ⟨v', hload.trans hv', heq⟩

/-- A scanner goes over the slots of the directory, one after the other. -/
theorem scanClusters_eq (hg : v.geometry.Ok sectors) (hspc : 0 < v.geometry.sectorsPerCluster)
    (hchain : FatChain v.geometry v.disk sectors first cs) {fuel : Nat} (hfuel : cs.length < fuel) :
    ∃ v', v.Buffered v' ∧ scanClusters k fuel first v l ctx =
      (scanSlots k v.disk (dirSlots v.geometry cs) l ctx).map fun r => (v', r.ctx) := by
  induction cs generalizing v first l ctx fuel with
  | nil =>
      obtain ⟨fuel, rfl⟩ := Nat.exists_eq_add_one_of_ne_zero (Nat.ne_of_gt hfuel)
      refine ⟨v, Fat32.Buffered.refl v, ?_⟩
      rw [scanClusters, if_neg hchain.nil]
      rfl
  | cons x cs ih =>
      obtain ⟨fuel, rfl⟩ := Nat.exists_eq_add_one_of_ne_zero (Nat.ne_of_gt (Nat.lt_of_le_of_lt (Nat.zero_le _) hfuel))
      obtain ⟨rfl, hlt, hok, hrest⟩ := hchain.tail
      obtain ⟨w, hw, heq⟩ := @scanSectors_eq v σ k l ctx hg.bytes (clusterLba v.geometry first) _ (hok.sector_lt hg)
      rw [scanClusters, if_pos hlt, clusterToLba_eq hg hok hspc hlt, heq, dirSlots, List.flatMap_cons, scanSlots_append]
      cases scanSlots k v.disk ((List.range v.geometry.sectorsPerCluster).flatMap fun s =>
          (List.range 16).map fun i => (clusterLba v.geometry first + s, i * 32)) l ctx with
      | none => exact ⟨v, Fat32.Buffered.refl v, rfl⟩
      | some r =>
          cases r with
          | done ctx => exact ⟨w, hw, rfl⟩
          | more l ctx =>
              obtain ⟨sec, rfl⟩ := hw
              obtain ⟨hnext, hbuf⟩ := @fatNext_eq sectors first { v with sector := sec } hg hok hlt hspc
              obtain ⟨sec', hsec'⟩ := hbuf
              simp only [Option.map_some]
              rw [hnext, hsec']
              obtain ⟨v', hv', hscan⟩ := @ih (fatEntry v.geometry v.disk first) { v with sector := sec' } l ctx hg hspc hrest fuel
                (Nat.lt_of_succ_lt_succ hfuel)
              exact ⟨v', Fat32.Buffered.trans ⟨sec', rfl⟩ hv', hscan⟩

/-! ### Two scans side by side -/

/-- The entry in a slot. -/
def slotEntry (d : Memory) (slot : Nat × Nat) : DirEntry := dirEntryAt (ataReadSector d slot.1) slot.2

def slotFirst (d : Memory) (slot : Nat × Nat) : UInt8 := ataReadSector d slot.1 slot.2

/-- The slots before the end of the directory. -/
def liveSlots (d : Memory) (slots : List (Nat × Nat)) : List (Nat × Nat) := slots.takeWhile fun slot => slotFirst d slot ≠ 0

/-- A live slot whose entry the scanners show under a name. -/
structure Shown (d : Memory) (slot : Nat × Nat) : Prop where
  deleted : slotFirst d slot ≠ 0xE5
  lfn : (slotEntry d slot).attr ≠ attrLfn
  label : (slotEntry d slot).attr &&& attrVolumeId = 0
  dots : slotFirst d slot ≠ dot

/-- The two scans do the same at a slot, up to `R`. -/
structure SlotSim (k : DirScan σ) (k' : DirScan τ) (R : σ → τ → Prop) (d d' : Memory) (slot : Nat × Nat) : Prop where
  first : slotFirst d' slot = slotFirst d slot
  attr : (slotEntry d' slot).attr = (slotEntry d slot).attr
  name : (slotEntry d' slot).name = (slotEntry d slot).name
  lfn : slotFirst d slot ≠ 0xE5 → (slotEntry d slot).attr = attrLfn →
    ∀ l, k'.lfn (ataReadSector d' slot.1) slot.2 l = k.lfn (ataReadSector d slot.1) slot.2 l
  visit : Shown d slot → ∀ name a b, R a b →
    (k'.visit (slotEntry d' slot) slot.1 slot.2 name b).2 = (k.visit (slotEntry d slot) slot.1 slot.2 name a).2 ∧
    R (k.visit (slotEntry d slot) slot.1 slot.2 name a).1 (k'.visit (slotEntry d' slot) slot.1 slot.2 name b).1

inductive Scan.Rel (R : σ → τ → Prop) : Scan σ → Scan τ → Prop where
  | more {l : LfnState} {a : σ} {b : τ} : R a b → Scan.Rel R (.more l a) (.more l b)
  | done {a : σ} {b : τ} : R a b → Scan.Rel R (.done a) (.done b)

theorem Scan.Rel.ctxRel {R : σ → τ → Prop} {r : Scan σ} {r' : Scan τ} (h : Scan.Rel R r r') : R r.ctx r'.ctx := by
  cases h with
  | more h => exact h
  | done h => exact h

variable {k' : DirScan τ} {R : σ → τ → Prop} {a : σ} {b : τ} {slot : Nat × Nat} {slots : List (Nat × Nat)}

theorem scanEntry_sim (h : SlotSim k k' R d d' slot) (hR : R a b) :
    Option.Rel (Scan.Rel R) (scanEntry k (ataReadSector d slot.1) slot.1 slot.2 l a)
      (scanEntry k' (ataReadSector d' slot.1) slot.1 slot.2 l b) := by
  obtain ⟨hfirst, hattr, hname, hlfn, hvisit⟩ := h
  simp only [slotFirst, slotEntry] at hfirst hattr hname hlfn hvisit
  simp only [scanEntry, hfirst, hattr, hname]
  split
  · exact .some (.done hR)
  rename_i hend
  split
  · exact .some (.more hR)
  rename_i hdeleted
  split
  · rename_i hattrLfn
    rw [hlfn hdeleted hattrLfn l]
    cases k.lfn (ataReadSector d slot.1) slot.2 l with
    | none => exact .none
    | some l => exact .some (.more hR)
  rename_i hnotLfn
  split
  · exact .some (.more hR)
  rename_i hlabel
  split
  · exact .some (.more hR)
  rename_i hdots
  have hshown : Shown d slot := ⟨hdeleted, hnotLfn, not_not.mp hlabel, hdots⟩
  cases (if l.has then l.text else some (parse83name (dirEntryAt (ataReadSector d slot.1) slot.2).name 13)) with
  | none => exact .none
  | some name =>
      obtain ⟨hstop, hnext⟩ := hvisit hshown name a b hR
      simp only [Option.map_some]
      apply Option.Rel.some
      revert hstop hnext
      cases k.visit (dirEntryAt (ataReadSector d slot.1) slot.2) slot.1 slot.2 name a with
      | mk a' stop =>
          cases k'.visit (dirEntryAt (ataReadSector d' slot.1) slot.2) slot.1 slot.2 name b with
          | mk b' stop' =>
              rintro rfl hnext
              cases stop' with
              | true => exact .done hnext
              | false => exact .more hnext

theorem scanEntry_end (hend : slotFirst d slot = 0) :
    scanEntry k (ataReadSector d slot.1) slot.1 slot.2 l ctx = some (.done ctx) := if_pos hend

theorem scanSlots_sim (hfirst : ∀ slot ∈ slots, slotFirst d' slot = slotFirst d slot)
    (h : ∀ slot ∈ liveSlots d slots, SlotSim k k' R d d' slot) (hR : R a b) :
    Option.Rel (Scan.Rel R) (scanSlots k d slots l a) (scanSlots k' d' slots l b) := by
  induction slots generalizing l a b with
  | nil => exact .some (.more hR)
  | cons slot slots ih =>
      rw [scanSlots, scanSlots]
      by_cases hend : slotFirst d slot = 0
      · rw [scanEntry_end hend, scanEntry_end ((hfirst slot List.mem_cons_self).trans hend)]
        exact .some (.done hR)
      · have hlive : liveSlots d (slot :: slots) = slot :: liveSlots d slots := List.takeWhile_cons_of_pos (by simpa using hend)
        rw [hlive] at h
        have hentry := scanEntry_sim (h slot List.mem_cons_self) hR (l := l)
        revert hentry
        cases scanEntry k (ataReadSector d slot.1) slot.1 slot.2 l a with
        | none =>
            cases scanEntry k' (ataReadSector d' slot.1) slot.1 slot.2 l b with
            | none => exact fun _ => .none
            | some r' => exact fun hentry => by cases hentry
        | some r =>
            cases scanEntry k' (ataReadSector d' slot.1) slot.1 slot.2 l b with
            | none => exact fun hentry => by cases hentry
            | some r' =>
                rintro (hrel | -)
                cases hrel with
                | done hnext => exact .some (.done hnext)
                | more hnext =>
                    exact ih (fun s hs => hfirst s (List.mem_cons_of_mem slot hs)) (fun s hs => h s (List.mem_cons_of_mem slot hs)) hnext

end Tsukasa
