import Tsukasa.Fs.Fat32Names

/-!
# Scans of any directory

On a disk with any content a directory is the list of the slots that its chain leads to, as far as the chain is followed. The chain may run in a circle or leave the disk, and the sectors wrap; a scanner goes over these slots all the same.
-/

namespace Tsukasa

open Lib (Memory)

variable {σ τ : Type} {g : Fat32Geometry} {d : Memory} {v v' : Fat32} {c n m fuel : Nat} {k : DirScan σ} {l : LfnState} {ctx : σ}
  {slot : Nat × Nat} {slots slots' : List (Nat × Nat)}

/-! ### The kinds of slots -/

/-- A slot with a part of a long name. -/
structure LongName (d : Memory) (slot : Nat × Nat) : Prop where
  deleted : slotFirst d slot ≠ 0xE5
  attr : (slotEntry d slot).attr = attrLfn

/-- A slot that the scanners pass over: a deleted entry, a label, or an entry whose name starts with a dot. -/
def Skipped (d : Memory) (slot : Nat × Nat) : Prop :=
  slotFirst d slot = 0xE5 ∨ (slotEntry d slot).attr ≠ attrLfn ∧ ((slotEntry d slot).attr &&& attrVolumeId ≠ 0 ∨ slotFirst d slot = dot)

instance (d : Memory) (slot : Nat × Nat) : Decidable (LongName d slot) :=
  decidable_of_iff (slotFirst d slot ≠ 0xE5 ∧ (slotEntry d slot).attr = attrLfn) ⟨fun h => ⟨h.1, h.2⟩, fun h => ⟨h.1, h.2⟩⟩

/-- The name that the scanners show an entry under. -/
def slotName (d : Memory) (slot : Nat × Nat) (l : LfnState) : Option (List UInt8) :=
  if l.has then l.text else some (parse83name (slotEntry d slot).name 13)

theorem slot_cases (d : Memory) (slot : Nat × Nat) : LongName d slot ∨ Shown d slot ∨ Skipped d slot := by
  by_cases hdeleted : slotFirst d slot = 0xE5
  · exact Or.inr (Or.inr (Or.inl hdeleted))
  by_cases hlfn : (slotEntry d slot).attr = attrLfn
  · exact Or.inl ⟨hdeleted, hlfn⟩
  by_cases hlabel : (slotEntry d slot).attr &&& attrVolumeId = 0
  · by_cases hdots : slotFirst d slot = dot
    · exact Or.inr (Or.inr (Or.inr ⟨hlfn, Or.inr hdots⟩))
    · exact Or.inr (Or.inl ⟨hdeleted, hlfn, hlabel, hdots⟩)
  · exact Or.inr (Or.inr (Or.inr ⟨hlfn, Or.inl hlabel⟩))

theorem scanEntry_slot : scanEntry k (ataReadSector d slot.1) slot.1 slot.2 l ctx =
    if slotFirst d slot = 0x00 then some (.done ctx)
    else if slotFirst d slot = 0xE5 then some (.more l.reset ctx)
    else if (slotEntry d slot).attr = attrLfn then (k.lfn (ataReadSector d slot.1) slot.2 l).map fun l => .more l ctx
    else if (slotEntry d slot).attr &&& attrVolumeId ≠ 0 then some (.more l.reset ctx)
    else if slotFirst d slot = dot then some (.more l.reset ctx)
    else
      (slotName d slot l).map fun name =>
        match k.visit (slotEntry d slot) slot.1 slot.2 name ctx with
        | (ctx, true) => .done ctx
        | (ctx, false) => .more l.reset ctx := rfl

theorem scanEntry_longName (hlive : slotFirst d slot ≠ 0) (h : LongName d slot) :
    scanEntry k (ataReadSector d slot.1) slot.1 slot.2 l ctx = (k.lfn (ataReadSector d slot.1) slot.2 l).map (.more · ctx) := by
  rw [scanEntry_slot, if_neg hlive, if_neg h.deleted, if_pos h.attr]

theorem scanEntry_skipped (hlive : slotFirst d slot ≠ 0) (h : Skipped d slot) :
    scanEntry k (ataReadSector d slot.1) slot.1 slot.2 l ctx = some (.more l.reset ctx) := by
  rw [scanEntry_slot, if_neg hlive]
  rcases h with hdeleted | ⟨hlfn, hlabel | hdots⟩
  · exact if_pos hdeleted
  · rw [if_neg hlfn, if_pos hlabel, ite_self]
  · rw [if_neg hlfn, if_pos hdots, ite_self, ite_self]

theorem scanEntry_shown (hlive : slotFirst d slot ≠ 0) (h : Shown d slot) :
    scanEntry k (ataReadSector d slot.1) slot.1 slot.2 l ctx =
      (slotName d slot l).map fun name =>
        match k.visit (slotEntry d slot) slot.1 slot.2 name ctx with
        | (ctx, true) => .done ctx
        | (ctx, false) => .more l.reset ctx := by
  rw [scanEntry_slot, if_neg hlive, if_neg h.deleted, if_neg h.lfn, if_neg (not_not.mpr h.label), if_neg h.dots]

theorem liveSlots_cons (hlive : slotFirst d slot ≠ 0) : liveSlots d (slot :: slots) = slot :: liveSlots d slots :=
  List.takeWhile_cons_of_pos (by simpa using hlive)

theorem liveSlots_end (hend : slotFirst d slot = 0) : liveSlots d (slot :: slots) = [] := List.takeWhile_cons_of_neg (by simpa using hend)

/-! ### The chain of a directory -/

/-- The value that `fat_next` returns. -/
def fatValue (g : Fat32Geometry) (d : Memory) (c : Nat) : Nat :=
  (ataReadSector d (wrap32 (g.fatLba + wrap32 (c * 4) / g.bytesPerSector))).load (wrap32 (c * 4) % g.bytesPerSector) 4 % 2 ^ 28

/-- The first `n` clusters of the chain from `c`. -/
def chainClusters (g : Fat32Geometry) (d : Memory) : Nat → Nat → List Nat
  | 0, _ => []
  | n + 1, c => if c < fat32Eoc then c :: chainClusters g d n (fatValue g d c) else []

def clusterSlots (g : Fat32Geometry) (c : Nat) : List (Nat × Nat) :=
  (List.range g.sectorsPerCluster).flatMap fun s => (List.range (g.bytesPerSector / 32)).map fun i => (wrap32 (clusterToLba g c + s), i * 32)

/-- The slots of the first `n` clusters of a directory. -/
def chainSlots (g : Fat32Geometry) (d : Memory) (n c : Nat) : List (Nat × Nat) := (chainClusters g d n c).flatMap (clusterSlots g)

theorem fatNext_fst (v : Fat32) (c : Nat) : (fatNext v c).1 = fatValue v.geometry v.disk c := rfl

theorem fatNext_buffered (v : Fat32) (c : Nat) : v.Buffered (fatNext v c).2 := Fat32.Buffered.load v _

theorem chainClusters_stop (h : ¬ c < fat32Eoc) (n : Nat) : chainClusters g d n c = [] := by
  cases n with
  | zero => rfl
  | succ n => exact if_neg h

theorem chainClusters_succ (h : c < fat32Eoc) (n : Nat) : chainClusters g d (n + 1) c = c :: chainClusters g d n (fatValue g d c) := if_pos h

theorem chainSlots_succ (h : c < fat32Eoc) (n : Nat) :
    chainSlots g d (n + 1) c = clusterSlots g c ++ chainSlots g d n (fatValue g d c) := by
  rw [chainSlots, chainSlots, chainClusters_succ h, List.flatMap_cons]

/-- Following a chain further does not change how it starts. -/
theorem chainClusters_prefix (h : n ≤ m) : chainClusters g d n c <+: chainClusters g d m c := by
  induction n generalizing c m with
  | zero => exact List.nil_prefix
  | succ n ih =>
      obtain ⟨m, rfl⟩ := Nat.exists_eq_add_one_of_ne_zero (show m ≠ 0 by omega)
      rw [chainClusters, chainClusters]
      split
      · exact List.cons_prefix_cons.mpr ⟨rfl, ih (Nat.le_of_succ_le_succ h)⟩
      · exact List.nil_prefix

theorem chainSlots_prefix (h : n ≤ m) : chainSlots g d n c <+: chainSlots g d m c := by
  obtain ⟨rest, hrest⟩ := chainClusters_prefix (g := g) (d := d) (c := c) h
  rw [chainSlots, chainSlots, ← hrest, List.flatMap_append]
  exact List.prefix_append _ _

/-- The chain has ended within `n` clusters. -/
def ChainEnded (g : Fat32Geometry) (d : Memory) (n c : Nat) : Prop := (chainClusters g d n c).length < n

/-- A scan of the first `n` clusters meets the end of the directory, or the chain ends within them. -/
def ScanEnds (g : Fat32Geometry) (d : Memory) (n c : Nat) : Prop :=
  liveSlots d (chainSlots g d n c) ≠ chainSlots g d n c ∨ ChainEnded g d n c

theorem scanSectors_slots (v : Fat32) (lba : Nat) (ss : List Nat) (l : LfnState) (ctx : σ) : ∃ v', v.Buffered v' ∧ scanSectors k lba ss v l ctx =
    (scanSlots k v.disk (ss.flatMap fun s => (List.range (v.geometry.bytesPerSector / 32)).map fun i => (wrap32 (lba + s), i * 32)) l ctx).map
      fun r => (v', r) := by
  induction ss generalizing v l ctx with
  | nil => exact ⟨v, Fat32.Buffered.refl v, rfl⟩
  | cons s ss ih =>
      have hload := Fat32.Buffered.load v (wrap32 (lba + s))
      rw [scanSectors, List.flatMap_cons, scanSlots_append, ← scanEntries_eq]
      simp only [Fat32.load]
      cases scanEntries k (ataReadSector v.disk (wrap32 (lba + s))) (wrap32 (lba + s)) (List.range (v.geometry.bytesPerSector / 32)) l ctx with
      | none => exact ⟨v, Fat32.Buffered.refl v, rfl⟩
      | some r =>
          cases r with
          | done ctx => exact ⟨v.load (wrap32 (lba + s)), hload, rfl⟩
          | more l ctx =>
              obtain ⟨v', hv', heq⟩ := ih (v.load (wrap32 (lba + s))) l ctx
              exact ⟨v', hload.trans hv', heq⟩

/-- What the scan of the slots says about a scanner that follows the chain for `fuel` clusters. -/
inductive ScanResult (v : Fat32) (ended : Prop) : Option (Scan σ) → Option (Fat32 × σ) → Prop where
  | fault : ScanResult v ended none none
  | done {v' : Fat32} {ctx : σ} : v.Buffered v' → ScanResult v ended (some (.done ctx)) (some (v', ctx))
  | ended {v' : Fat32} {l : LfnState} {ctx : σ} : ended → v.Buffered v' → ScanResult v ended (some (.more l ctx)) (some (v', ctx))
  | runs {l : LfnState} {ctx : σ} : ¬ ended → ScanResult v ended (some (.more l ctx)) none

theorem ScanResult.buffered {ended : Prop} {r : Option (Scan σ)} {s : Option (Fat32 × σ)} (hv : v.Buffered v') (h : ScanResult v' ended r s) :
    ScanResult v ended r s := by
  cases h with
  | fault => exact .fault
  | done h => exact .done (hv.trans h)
  | ended he h => exact .ended he (hv.trans h)
  | runs he => exact .runs he

theorem ScanResult.congr {ended ended' : Prop} {r : Option (Scan σ)} {s : Option (Fat32 × σ)} (h : ScanResult v ended r s) (hiff : ended ↔ ended') :
    ScanResult v ended' r s := by
  rwa [propext hiff] at h

theorem ScanResult.of_done {ended : Prop} {s : Option (Fat32 × σ)} (h : ScanResult v ended (some (.done ctx)) s) :
    ∃ v', v.Buffered v' ∧ s = some (v', ctx) := by
  cases h with
  | done hbuf => exact ⟨_, hbuf, rfl⟩

/-- A scanner goes over the slots of the chain, one after the other. -/
theorem scanClusters_slots (v : Fat32) (fuel c : Nat) (l : LfnState) (ctx : σ) :
    ScanResult v (ChainEnded v.geometry v.disk fuel c) (scanSlots k v.disk (chainSlots v.geometry v.disk fuel c) l ctx)
      (scanClusters k fuel c v l ctx) := by
  induction fuel generalizing v c l ctx with
  | zero => exact .runs (Nat.not_lt_zero _)
  | succ fuel ih =>
      rw [scanClusters]
      by_cases hc : c < fat32Eoc
      · obtain ⟨w, hw, heq⟩ := scanSectors_slots (k := k) v (clusterToLba v.geometry c) (List.range v.geometry.sectorsPerCluster) l ctx
        rw [if_pos hc, heq, chainSlots_succ hc, scanSlots_append, clusterSlots]
        cases scanSlots k v.disk ((List.range v.geometry.sectorsPerCluster).flatMap fun s =>
            (List.range (v.geometry.bytesPerSector / 32)).map fun i => (wrap32 (clusterToLba v.geometry c + s), i * 32)) l ctx with
        | none => exact .fault
        | some r =>
            cases r with
            | done ctx => exact .done hw
            | more l ctx =>
                have hended : ChainEnded v.geometry v.disk fuel (fatValue v.geometry v.disk c) ↔ ChainEnded v.geometry v.disk (fuel + 1) c := by
                  rw [ChainEnded, ChainEnded, chainClusters_succ hc, List.length_cons, Nat.succ_lt_succ_iff]
                have hbuf := hw.trans (fatNext_buffered w c)
                obtain ⟨sec, rfl⟩ := hw
                have hrest := ih (fatNext { v with sector := sec } c).2 (fatValue v.geometry v.disk c) l ctx
                exact (hrest.buffered hbuf).congr hended
      · have hended : ChainEnded v.geometry v.disk (fuel + 1) c := by
          rw [ChainEnded, chainClusters_stop hc]
          exact Nat.succ_pos fuel
        rw [if_neg hc, chainSlots, chainClusters_stop hc]
        exact .ended hended (Fat32.Buffered.refl v)

/-! ### What a scan shows -/

/-- A visit that notes the slot and the name. -/
def noteName : DirEntry → Nat → Nat → List UInt8 → List ((Nat × Nat) × List UInt8) → List ((Nat × Nat) × List UInt8) × Bool :=
  fun _ lba off name names => (names ++ [((lba, off), name)], false)

/-- The entries that a scan shows, with their names, up to the end of the directory or to a step that fails. -/
def shownNames (lfn : Memory → Nat → LfnState → Option LfnState) (d : Memory) : List (Nat × Nat) → LfnState → List ((Nat × Nat) × List UInt8)
  | [], _ => []
  | slot :: slots, l =>
      match scanEntry ⟨lfn, noteName⟩ (ataReadSector d slot.1) slot.1 slot.2 l [] with
      | none => []
      | some (.done _) => []
      | some (.more l names) => names ++ shownNames lfn d slots l

/-- The visits of these entries, until one of them stops. -/
def visitAll (visit : DirEntry → Nat → Nat → List UInt8 → σ → σ × Bool) (d : Memory) : List ((Nat × Nat) × List UInt8) → σ → σ × Bool
  | [], ctx => (ctx, false)
  | (slot, name) :: names, ctx =>
      match visit (slotEntry d slot) slot.1 slot.2 name ctx with
      | (ctx, true) => (ctx, true)
      | (ctx, false) => visitAll visit d names ctx

section shown

variable {lfn : Memory → Nat → LfnState → Option LfnState} {visit : DirEntry → Nat → Nat → List UInt8 → σ → σ × Bool} {l₁ : LfnState}

theorem shownNames_end (hend : slotFirst d slot = 0) : shownNames lfn d (slot :: slots) l = [] := by
  rw [shownNames, scanEntry_end hend]

theorem shownNames_fault (hlive : slotFirst d slot ≠ 0) (h : LongName d slot) (hlfn : lfn (ataReadSector d slot.1) slot.2 l = none) :
    shownNames lfn d (slot :: slots) l = [] := by
  rw [shownNames, scanEntry_longName hlive h]
  simp only [hlfn, Option.map_none]

theorem shownNames_longName (hlive : slotFirst d slot ≠ 0) (h : LongName d slot) (hlfn : lfn (ataReadSector d slot.1) slot.2 l = some l₁) :
    shownNames lfn d (slot :: slots) l = shownNames lfn d slots l₁ := by
  rw [shownNames, scanEntry_longName hlive h]
  simp only [hlfn, Option.map_some, List.nil_append]

theorem shownNames_skipped (hlive : slotFirst d slot ≠ 0) (h : Skipped d slot) :
    shownNames lfn d (slot :: slots) l = shownNames lfn d slots l.reset := by
  rw [shownNames, scanEntry_skipped hlive h]
  rfl

theorem shownNames_unnamed (hlive : slotFirst d slot ≠ 0) (h : Shown d slot) (hname : slotName d slot l = none) :
    shownNames lfn d (slot :: slots) l = [] := by
  rw [shownNames, scanEntry_shown hlive h, hname]
  rfl

theorem shownNames_shown (hlive : slotFirst d slot ≠ 0) (h : Shown d slot) {name : List UInt8} (hname : slotName d slot l = some name) :
    shownNames lfn d (slot :: slots) l = (slot, name) :: shownNames lfn d slots l.reset := by
  rw [shownNames, scanEntry_shown hlive h, hname]
  rfl

/-- How a scan that makes these visits comes out. It is done when a visit stops, or at the end of the directory. -/
inductive Visits (visits : σ × Bool) (ends : Prop) : Option (Scan σ) → Prop where
  | fault : visits.2 = false → Visits visits ends none
  | done : visits.2 = true ∨ ends → Visits visits ends (some (.done visits.1))
  | more {l : LfnState} : visits.2 = false → ¬ ends → Visits visits ends (some (.more l visits.1))

theorem Visits.congr {visits : σ × Bool} {ends ends' : Prop} {r : Option (Scan σ)} (h : Visits visits ends r) (hiff : ends ↔ ends') :
    Visits visits ends' r := by
  rwa [propext hiff] at h

variable (d lfn visit) in
/-- A scan visits what it shows, in this order, and stops where a visit stops. -/
theorem scanSlots_visitAll (slots : List (Nat × Nat)) (l : LfnState) (ctx : σ) :
    Visits (visitAll visit d (shownNames lfn d slots l) ctx) (liveSlots d slots ≠ slots) (scanSlots ⟨lfn, visit⟩ d slots l ctx) := by
  induction slots generalizing l ctx with
  | nil => exact .more rfl (fun hne => hne rfl)
  | cons slot slots ih =>
      by_cases hlive : slotFirst d slot = 0
      · rw [shownNames_end hlive, scanSlots, scanEntry_end hlive]
        refine .done (Or.inr ?_)
        rw [liveSlots_end hlive]
        exact (List.cons_ne_nil _ _).symm
      have hends : liveSlots d slots ≠ slots ↔ liveSlots d (slot :: slots) ≠ slot :: slots := by
        rw [liveSlots_cons hlive, ne_eq, ne_eq, List.cons_inj_right]
      rcases slot_cases d slot with hlong | hshown | hskipped
      · rw [scanSlots, scanEntry_longName hlive hlong]
        cases hlfn : lfn (ataReadSector d slot.1) slot.2 l with
        | none =>
            rw [shownNames_fault hlive hlong hlfn]
            simp only [hlfn, Option.map_none]
            exact .fault rfl
        | some l₁ =>
            rw [shownNames_longName hlive hlong hlfn]
            simp only [hlfn, Option.map_some]
            exact (ih l₁ ctx).congr hends
      · rw [scanSlots, scanEntry_shown hlive hshown]
        cases hname : slotName d slot l with
        | none =>
            rw [shownNames_unnamed hlive hshown hname]
            exact .fault rfl
        | some name =>
            rw [shownNames_shown hlive hshown hname, visitAll]
            simp only [Option.map_some]
            cases visit (slotEntry d slot) slot.1 slot.2 name ctx with
            | mk ctx' stop =>
                cases stop with
                | true => exact Visits.done (Or.inl (rfl : (ctx', true).2 = true))
                | false => exact (ih l.reset ctx').congr hends
      · rw [shownNames_skipped hlive hskipped, scanSlots, scanEntry_skipped hlive hskipped]
        exact (ih l.reset ctx).congr hends

/-- A call has gone to the entries of a list, one after the other: when it comes back it has the context that these visits leave, and when a visit stops it comes back. -/
def Presents (visit : DirEntry → Nat → Nat → List UInt8 → σ → σ × Bool) (d : Memory) (names : List ((Nat × Nat) × List UInt8)) (ctx : σ)
    (r : Option (Fat32 × σ)) : Prop :=
  (∀ s, r = some s → s.2 = (visitAll visit d names ctx).1) ∧ ((visitAll visit d names ctx).2 = true → ∃ s, r = some s)

variable (lfn visit) in
theorem scanClusters_presents (v : Fat32) (fuel c : Nat) (l : LfnState) (ctx : σ) :
    Presents visit v.disk (shownNames lfn v.disk (chainSlots v.geometry v.disk fuel c) l) ctx (scanClusters ⟨lfn, visit⟩ fuel c v l ctx) := by
  have hshows := scanSlots_visitAll v.disk lfn visit (chainSlots v.geometry v.disk fuel c) l ctx
  have hresult := scanClusters_slots (k := ⟨lfn, visit⟩) v fuel c l ctx
  rw [Presents]
  revert hshows hresult
  generalize scanClusters ⟨lfn, visit⟩ fuel c v l ctx = r
  generalize visitAll visit v.disk (shownNames lfn v.disk (chainSlots v.geometry v.disk fuel c) l) ctx = visits
  generalize scanSlots ⟨lfn, visit⟩ v.disk (chainSlots v.geometry v.disk fuel c) l ctx = scan
  intro hshows hresult
  cases hshows with
  | fault hstop =>
      cases hresult
      refine ⟨fun s hs => (by cases hs), fun htrue => ?_⟩
      rw [hstop] at htrue
      cases htrue
  | done _ =>
      cases hresult
      refine ⟨?_, fun _ => ⟨_, rfl⟩⟩
      intro s hs
      cases hs
      rfl
  | more hstop _ =>
      cases hresult with
      | ended _ _ =>
          refine ⟨?_, fun _ => ⟨_, rfl⟩⟩
          intro s hs
          cases hs
          rfl
      | runs _ =>
          refine ⟨fun s hs => (by cases hs), fun htrue => ?_⟩
          rw [hstop] at htrue
          cases htrue

/-! ### What a lookup hands on -/

theorem shownNames_mem {e : (Nat × Nat) × List UInt8} (h : e ∈ shownNames lfn d slots l) :
    e.1 ∈ liveSlots d slots ∧ slotFirst d e.1 ≠ 0 ∧ Shown d e.1 := by
  induction slots generalizing l with
  | nil => exact absurd h List.not_mem_nil
  | cons slot slots ih =>
      by_cases hlive : slotFirst d slot = 0
      · rw [shownNames_end hlive] at h
        exact absurd h List.not_mem_nil
      have hrest : ∀ {l₁ : LfnState}, e ∈ shownNames lfn d slots l₁ →
          e.1 ∈ liveSlots d (slot :: slots) ∧ slotFirst d e.1 ≠ 0 ∧ Shown d e.1 := by
        intro l₁ he
        obtain ⟨hmem, hfacts⟩ := ih he
        rw [liveSlots_cons hlive]
        exact ⟨List.mem_cons_of_mem slot hmem, hfacts⟩
      rcases slot_cases d slot with hlong | hshown | hskipped
      · cases hlfn : lfn (ataReadSector d slot.1) slot.2 l with
        | none =>
            rw [shownNames_fault hlive hlong hlfn] at h
            exact absurd h List.not_mem_nil
        | some l₁ =>
            rw [shownNames_longName hlive hlong hlfn] at h
            exact hrest h
      · cases hname : slotName d slot l with
        | none =>
            rw [shownNames_unnamed hlive hshown hname] at h
            exact absurd h List.not_mem_nil
        | some name =>
            rw [shownNames_shown hlive hshown hname] at h
            rcases List.mem_cons.mp h with rfl | h
            · rw [liveSlots_cons hlive]
              exact ⟨List.mem_cons_self, hlive, hshown⟩
            · exact hrest h
      · rw [shownNames_skipped hlive hskipped] at h
        exact hrest h

theorem visitAll_lookup_mem {α : Type} {p : UInt8 → List UInt8 → Bool} {f : DirEntry → Nat → Nat → List UInt8 → α} {a : α}
    {names : List ((Nat × Nat) × List UInt8)} (h : (visitAll (lookup p f) d names none).1 = some a) :
    ∃ e ∈ names, p (slotEntry d e.1).attr e.2 = true ∧ a = f (slotEntry d e.1) e.1.1 e.1.2 e.2 := by
  induction names with
  | nil => cases h
  | cons e names ih =>
      rw [visitAll, lookup] at h
      by_cases hp : p (slotEntry d e.1).attr e.2 = true
      · rw [if_pos hp] at h
        exact ⟨e, List.mem_cons_self, hp, (Option.some.inj h).symm⟩
      · rw [if_neg hp] at h
        obtain ⟨e', he', hfacts⟩ := ih h
        exact ⟨e', List.mem_cons_of_mem e he', hfacts⟩

/-- What a lookup finds is an entry before the end of the directory. -/
theorem scanClusters_lookup_mem {α : Type} {p : UInt8 → List UInt8 → Bool} {f : DirEntry → Nat → Nat → List UInt8 → α} {a : α}
    (h : scanClusters ⟨lfn, lookup p f⟩ fuel c v l none = some (v', some a)) :
    ∃ slot ∈ liveSlots v.disk (chainSlots v.geometry v.disk fuel c), Shown v.disk slot ∧ ∃ name,
      p (slotEntry v.disk slot).attr name = true ∧ a = f (slotEntry v.disk slot) slot.1 slot.2 name := by
  have hctx := (scanClusters_presents lfn (lookup p f) v fuel c l none).1 _ h
  obtain ⟨e, he, hp, ha⟩ := visitAll_lookup_mem hctx.symm
  obtain ⟨hmem, -, hshown⟩ := shownNames_mem he
  exact ⟨e.1, hmem, hshown, e.2, hp, ha⟩

end shown

/-! ### A small volume -/

/-- A boot sector for a FAT of one sector and clusters of one sector; the root directory is cluster 2, at sector 2, and ends there. -/
def tinyBoot : Memory :=
  (((((((Memory.store (fun _ => 0) 11 2 512).store 13 1 1).store 14 2 1).store 16 1 1).store 36 4 1).store 44 4 2).store 510 2 0xAA55).store 520 4
    0x0FFFFFFF

def tinyGeometry : Fat32Geometry := ⟨1, 2, 2, 1, 1, 512⟩

theorem tinySlots (h : ¬ fatValue tinyGeometry d 2 < fat32Eoc) (n : Nat) : chainSlots tinyGeometry d (n + 1) 2 = clusterSlots tinyGeometry 2 := by
  rw [chainSlots_succ (by decide), chainSlots, chainClusters_stop h, List.flatMap_nil, List.append_nil]

/-- What `fat32_init` finds on a disk. -/
def mounted (d : Memory) : Int × Fat32 := fat32Init ⟨false, ⟨0, 0, 0, 0, 0, 0⟩, fun _ => 0, d⟩

end Tsukasa
