import Tsukasa.Fs.Fat32LongName
import Tsukasa.Lib.FirstMatch

/-!
# The two scanners side by side

`iterate_dir` and `find_entry_raw` differ in one thing: in the first a terminator ends the whole long-name entry, in the second only the part that it stands in. They show the same entries, so lookups through them agree exactly when these have the same names under both readings, up to names that earlier entries already have.
-/

namespace Tsukasa

open Lib (Memory)
open Lib.FirstMatch (first KeysAgree)

variable {σ α : Type} {g : Fat32Geometry} {d : Memory} {v : Fat32} {c n fuel : Nat} {l l' : LfnState} {target : List UInt8} {slot : Nat × Nat}
  {slots slots' : List (Nat × Nat)} {names : List ((Nat × Nat) × List UInt8)} {lfn lfn' : Memory → Nat → LfnState → Option LfnState}

/-! ### What a scan shows -/

instance (d : Memory) : DecidablePred (Shown d) := fun slot =>
  decidable_of_iff (slotFirst d slot ≠ 0xE5 ∧ (slotEntry d slot).attr ≠ attrLfn ∧ (slotEntry d slot).attr &&& attrVolumeId = 0 ∧ slotFirst d slot ≠ dot)
    ⟨fun h => ⟨h.1, h.2.1, h.2.2.1, h.2.2.2⟩, fun h => ⟨h.deleted, h.lfn, h.label, h.dots⟩⟩

theorem LongName.not_shown (h : LongName d slot) : ¬ Shown d slot := fun hshown => hshown.lfn h.attr

theorem Skipped.not_shown (h : Skipped d slot) : ¬ Shown d slot := by
  intro hshown
  rcases h with hdeleted | ⟨-, hlabel | hdots⟩
  · exact hshown.deleted hdeleted
  · exact hlabel hshown.label
  · exact hshown.dots hdots

/-- Long-name entries keep the buffer sound, and those before the end of the directory do not leave it. -/
structure LfnRuns (lfn : Memory → Nat → LfnState → Option LfnState) (d : Memory) (slots : List (Nat × Nat)) : Prop where
  keeps : LfnKeeps lfn
  inside : ∀ slot ∈ liveSlots d slots, LongName d slot → ∀ l, l.Sound → ∃ l', lfn (ataReadSector d slot.1) slot.2 l = some l'

theorem LfnRuns.tail (h : LfnRuns lfn d (slot :: slots)) (hlive : slotFirst d slot ≠ 0) : LfnRuns lfn d slots := by
  refine ⟨h.keeps, fun s hs => h.inside s ?_⟩
  rw [liveSlots_cons hlive]
  exact List.mem_cons_of_mem slot hs

/-- Both readings show the same entries, under names that fit the buffer. -/
theorem LfnRuns.shownNames (h : LfnRuns lfn d slots) (hl : l.Sound) :
    (shownNames lfn d slots l).map (·.1) = (liveSlots d slots).filter (Shown d ·) ∧ ∀ e ∈ shownNames lfn d slots l, e.2.length < fat32NameMax := by
  induction slots generalizing l with
  | nil => exact ⟨rfl, fun e he => absurd he List.not_mem_nil⟩
  | cons slot slots ih =>
      by_cases hlive : slotFirst d slot = 0
      · rw [shownNames_end hlive, liveSlots_end hlive]
        exact ⟨rfl, fun e he => absurd he List.not_mem_nil⟩
      have hrest := h.tail hlive
      rw [liveSlots_cons hlive]
      rcases slot_cases d slot with hlong | hshown | hskipped
      · obtain ⟨l₁, hl₁⟩ := h.inside slot (by rw [liveSlots_cons hlive]; exact List.mem_cons_self) hlong l hl
        rw [shownNames_longName hlive hlong hl₁, List.filter_cons_of_neg (by simpa using hlong.not_shown)]
        exact ih hrest (h.keeps _ _ _ _ hl hl₁)
      · obtain ⟨name, hname, hlen⟩ := hl.slotName d slot
        obtain ⟨hplaces, hlens⟩ := ih hrest hl.reset
        rw [shownNames_shown hlive hshown hname, List.filter_cons_of_pos (by simpa using hshown), List.map_cons, hplaces]
        exact ⟨rfl, List.forall_mem_cons.mpr ⟨hlen, hlens⟩⟩
      · rw [shownNames_skipped hlive hskipped, List.filter_cons_of_neg (by simpa using hskipped.not_shown)]
        exact ih hrest hl.reset

variable (d lfn) in
theorem shownNames_prefix (slots slots' : List (Nat × Nat)) (l : LfnState) : shownNames lfn d slots l <+: shownNames lfn d (slots ++ slots') l := by
  induction slots generalizing l with
  | nil => exact List.nil_prefix
  | cons slot slots ih =>
      rw [List.cons_append, Tsukasa.shownNames, Tsukasa.shownNames]
      split
      · exact List.nil_prefix
      · exact List.nil_prefix
      · exact List.prefix_append_right_inj _ |>.mpr (ih _)

/-! ### Lookups -/

/-- The entry that a lookup stops at. -/
def foundName (target : List UInt8) (names : List ((Nat × Nat) × List UInt8)) : Option ((Nat × Nat) × List UInt8) :=
  names.find? fun e => foldedName e.2 == foldedName target

variable {f : DirEntry → Nat → Nat → List UInt8 → α}

theorem visitAll_lookup (hlens : ∀ e ∈ names, e.2.length < fat32NameMax) : visitAll (lookup (nameIs target) f) d names none =
    ((foundName target names).map fun e => f (slotEntry d e.1) e.1.1 e.1.2 e.2, (foundName target names).isSome) := by
  induction names with
  | nil => rfl
  | cons e names ih =>
      obtain ⟨hlen, hlens⟩ := List.forall_mem_cons.mp hlens
      have hname : nameIs target (slotEntry d e.1).attr e.2 = decide (foldedName e.2 = foldedName target) := by
        rw [nameIs]
        exact decide_eq_decide.mpr (kStrncmpi_iff hlen)
      rw [visitAll, lookup, hname, foundName]
      by_cases hmatch : foldedName e.2 = foldedName target
      · rw [List.find?_cons_of_pos (by simpa using hmatch), decide_eq_true hmatch]
        rfl
      · rw [List.find?_cons_of_neg (by simpa using hmatch), decide_eq_false hmatch]
        exact ih hlens

variable (target f) in
/-- A lookup comes back with the first entry of the name; without one it comes back when the directory ends. -/
theorem scanClusters_lookup (h : LfnRuns lfn v.disk (chainSlots v.geometry v.disk fuel c)) (hl : l.Sound) :
    (∀ e, foundName target (shownNames lfn v.disk (chainSlots v.geometry v.disk fuel c) l) = some e →
      (scanClusters ⟨lfn, lookup (nameIs target) f⟩ fuel c v l none).map (·.2) = some (some (f (slotEntry v.disk e.1) e.1.1 e.1.2 e.2))) ∧
    (foundName target (shownNames lfn v.disk (chainSlots v.geometry v.disk fuel c) l) = none →
      (ScanEnds v.geometry v.disk fuel c → (scanClusters ⟨lfn, lookup (nameIs target) f⟩ fuel c v l none).map (·.2) = some none) ∧
      (¬ ScanEnds v.geometry v.disk fuel c → (scanClusters ⟨lfn, lookup (nameIs target) f⟩ fuel c v l none).map (·.2) = none)) := by
  have hshows := scanSlots_visitAll v.disk lfn (lookup (nameIs target) f) (chainSlots v.geometry v.disk fuel c) l none
  have hresult := scanClusters_slots (k := ⟨lfn, lookup (nameIs target) f⟩) v fuel c l none
  have hsound := scanSlots_sound none (lookup (nameIs target) f) h.keeps hl h.inside
  rw [visitAll_lookup (h.shownNames hl).2] at hshows
  rw [ScanEnds]
  revert hshows hresult hsound
  generalize scanClusters ⟨lfn, lookup (nameIs target) f⟩ fuel c v l none = r
  generalize foundName target (shownNames lfn v.disk (chainSlots v.geometry v.disk fuel c) l) = found
  generalize scanSlots ⟨lfn, lookup (nameIs target) f⟩ v.disk (chainSlots v.geometry v.disk fuel c) l none = scan
  intro hshows hresult hsound
  cases found with
  | some e =>
      cases hshows with
      | fault hstop => cases hstop
      | more hstop _ => cases hstop
      | done _ =>
          cases hresult
          refine ⟨?_, fun hnone => (by cases hnone)⟩
          intro e' he'
          cases he'
          rfl
  | none =>
      refine ⟨fun e he => (by cases he), fun _ => ?_⟩
      cases hshows with
      | fault _ => exact absurd rfl hsound
      | done hends =>
          cases hresult
          have hends := hends.resolve_left Bool.false_ne_true
          exact ⟨fun _ => rfl, fun hnot => absurd (Or.inl hends) hnot⟩
      | more _ hends =>
          cases hresult with
          | ended hchain _ => exact ⟨fun _ => rfl, fun hnot => absurd (Or.inr hchain) hnot⟩
          | runs hchain => exact ⟨fun hor => absurd hor (not_or.mpr ⟨hends, hchain⟩), fun _ => rfl⟩

/-! ### The first entry of a name -/

/-- The entries with what a lookup sees of their names. -/
def keyed (names : List ((Nat × Nat) × List UInt8)) : List ((Nat × Nat) × List UInt8) := names.map fun e => (e.1, foldedName e.2)

theorem keyed_places (names : List ((Nat × Nat) × List UInt8)) : (keyed names).map (·.1) = names.map (·.1) := by
  rw [keyed, List.map_map]
  rfl

theorem first_keyed (target : List UInt8) (names : List ((Nat × Nat) × List UInt8)) :
    first (keyed names) (foldedName target) = (foundName target names).map (·.1) := by
  rw [first, keyed, List.find?_map, Option.map_map]
  rfl

theorem keyed_mem {k : List UInt8} (h : k ∈ (keyed names).map (·.2)) : ∃ target, k = foldedName target := by
  obtain ⟨e, he, rfl⟩ := List.mem_map.mp h
  obtain ⟨e', -, rfl⟩ := List.mem_map.mp he
  exact ⟨e'.2, rfl⟩

theorem chainSlots_snoc (g : Fat32Geometry) (d : Memory) (n c : Nat) :
    ∃ more, chainSlots g d (n + 1) c = chainSlots g d n c ++ more ∧ (more = [] ∨ ∃ x, more = clusterSlots g x) := by
  induction n generalizing c with
  | zero =>
      refine ⟨chainSlots g d 1 c, rfl, ?_⟩
      by_cases hc : c < fat32Eoc
      · rw [chainSlots_succ hc]
        exact Or.inr ⟨c, List.append_nil _⟩
      · rw [chainSlots, chainClusters_stop hc]
        exact Or.inl rfl
  | succ n ih =>
      by_cases hc : c < fat32Eoc
      · obtain ⟨more, hmore, hkind⟩ := ih (fatValue g d c)
        refine ⟨more, ?_, hkind⟩
        rw [chainSlots_succ hc, chainSlots_succ hc, hmore, List.append_assoc]
      · refine ⟨[], ?_, Or.inl rfl⟩
        rw [chainSlots, chainSlots, chainClusters_stop hc, chainClusters_stop hc]
        rfl

theorem clusterSlots_nodup (hspc : g.sectorsPerCluster ≤ 2 ^ 32) (x : Nat) : (clusterSlots g x).Nodup := by
  rw [clusterSlots, List.nodup_flatMap]
  refine ⟨fun s _ => ?_, ?_⟩
  · refine List.Nodup.map ?_ List.nodup_range
    intro i j heq
    have := (Prod.mk.inj heq).2
    omega
  · apply List.pairwise_lt_range.imp_of_mem
    intro s s' hs hs' hlt slot hslot hslot'
    obtain ⟨i, -, rfl⟩ := List.mem_map.mp hslot
    obtain ⟨i', -, heq⟩ := List.mem_map.mp hslot'
    have hsector := (Prod.mk.inj heq).1
    rw [List.mem_range] at hs hs'
    rw [wrap32, wrap32] at hsector
    omega

theorem liveSlots_append (slots slots' : List (Nat × Nat)) :
    liveSlots d (slots ++ slots') = liveSlots d slots ++ liveSlots d slots' ∨ liveSlots d (slots ++ slots') = liveSlots d slots := by
  rw [liveSlots, liveSlots, liveSlots, List.takeWhile_append]
  split
  · rename_i hall
    refine Or.inl ?_
    rw [(List.takeWhile_prefix _).eq_of_length hall]
  · exact Or.inr rfl

/-! ### Agreement -/

/-- Every long-name entry before the end of the directory has a sequence number. -/
def HasSequences (v : Fat32) (c : Nat) : Prop :=
  ∀ n, ∀ slot ∈ liveSlots v.disk (chainSlots v.geometry v.disk n c), LongName v.disk slot → ¬ NoSequence (ataReadSector v.disk slot.1) slot.2

/-- The entries that a scan of the first `n` clusters of a directory shows, with what a lookup sees of their names. -/
def scanNames (lfn : Memory → Nat → LfnState → Option LfnState) (v : Fat32) (c : Nat) (leftover : Nat → UInt8) (n : Nat) :
    List ((Nat × Nat) × List UInt8) :=
  keyed (shownNames lfn v.disk (chainSlots v.geometry v.disk n c) (.start leftover))

/-- The slot that a lookup stops at. -/
abbrev slotVisit (target : List UInt8) : DirEntry → Nat → Nat → List UInt8 → Option (Nat × Nat) → Option (Nat × Nat) × Bool :=
  lookup (nameIs target) fun _ lba off _ => (lba, off)

/-- Whatever is left on the stack, a lookup finds the same through both scanners, for every target and as far as the chain is followed. -/
def ScannersAgree (v : Fat32) (c : Nat) : Prop :=
  ∀ (target : List UInt8) (leftover leftover' : Nat → UInt8) (fuel : Nat),
    (scanClusters ⟨iterateLfn, slotVisit target⟩ fuel c v (.start leftover) none).map (·.2) =
      (scanClusters ⟨findLfn, slotVisit target⟩ fuel c v (.start leftover') none).map (·.2)

/-- Each entry has the same name whether a terminator ends the long-name entry or only its part, or both its names are those of earlier entries. -/
def NamesAgree (v : Fat32) (c : Nat) : Prop :=
  ∀ (leftover leftover' : Nat → UInt8) (n : Nat),
    KeysAgree ((scanNames iterateLfn v c leftover n).map (·.2)) ((scanNames findLfn v c leftover' n).map (·.2))

theorem HasSequences.iterate (h : HasSequences v c) (n : Nat) : LfnRuns iterateLfn v.disk (chainSlots v.geometry v.disk n c) :=
  ⟨iterateLfn_keeps, fun slot hslot hlong _ hl => iterateLfn_inside hl fun hseq => absurd hseq (h n slot hslot hlong)⟩

theorem HasSequences.find (h : HasSequences v c) (n : Nat) : LfnRuns findLfn v.disk (chainSlots v.geometry v.disk n c) :=
  ⟨findLfn_keeps, fun slot hslot hlong _ hl => findLfn_inside hl fun hseq => absurd hseq (h n slot hslot hlong)⟩

theorem LfnRuns.places (h : LfnRuns lfn v.disk (chainSlots v.geometry v.disk n c)) (leftover : Nat → UInt8) :
    (scanNames lfn v c leftover n).map (·.1) =
      (liveSlots v.disk (chainSlots v.geometry v.disk n c)).filter (Shown v.disk ·) := by
  rw [scanNames, keyed_places]
  exact (h.shownNames (LfnState.sound_start leftover)).1

theorem unfound_ne {r : Option (Option (Nat × Nat))} (h : (ScanEnds v.geometry v.disk fuel c → r = some none) ∧ (¬ ScanEnds v.geometry v.disk fuel c → r = none)) :
    r ≠ some (some slot) := by
  by_cases hends : ScanEnds v.geometry v.disk fuel c
  · rw [h.1 hends]
    exact fun heq => by cases heq
  · rw [h.2 hends]
    exact fun heq => by cases heq

/-- Two lookups come out the same exactly when their first entries of the name are the same. -/
theorem slotVisit_eq_iff {leftover leftover' : Nat → UInt8} (h : LfnRuns lfn v.disk (chainSlots v.geometry v.disk fuel c))
    (h' : LfnRuns lfn' v.disk (chainSlots v.geometry v.disk fuel c)) (target : List UInt8) :
    (scanClusters ⟨lfn, slotVisit target⟩ fuel c v (.start leftover) none).map (·.2) =
      (scanClusters ⟨lfn', slotVisit target⟩ fuel c v (.start leftover') none).map (·.2) ↔
    first (scanNames lfn v c leftover fuel) (foldedName target) = first (scanNames lfn' v c leftover' fuel) (foldedName target) := by
  obtain ⟨hfound, hnone⟩ := scanClusters_lookup target (fun _ lba off _ => (lba, off)) h (LfnState.sound_start leftover)
  obtain ⟨hfound', hnone'⟩ := scanClusters_lookup target (fun _ lba off _ => (lba, off)) h' (LfnState.sound_start leftover')
  rw [scanNames, scanNames, first_keyed, first_keyed]
  cases hr : foundName target (shownNames lfn v.disk (chainSlots v.geometry v.disk fuel c) (.start leftover)) with
  | some e =>
      rw [hfound e hr]
      cases hr' : foundName target (shownNames lfn' v.disk (chainSlots v.geometry v.disk fuel c) (.start leftover')) with
      | some e' =>
          rw [hfound' e' hr']
          exact ⟨fun heq => Option.some.inj heq, fun heq => congrArg some heq⟩
      | none => exact ⟨fun heq => absurd heq.symm (unfound_ne (hnone' hr')), fun heq => by cases heq⟩
  | none =>
      cases hr' : foundName target (shownNames lfn' v.disk (chainSlots v.geometry v.disk fuel c) (.start leftover')) with
      | some e' =>
          rw [hfound' e' hr']
          exact ⟨fun heq => absurd heq (unfound_ne (hnone hr)), fun heq => by cases heq⟩
      | none =>
          refine ⟨fun _ => rfl, fun _ => ?_⟩
          by_cases hends : ScanEnds v.geometry v.disk fuel c
          · rw [(hnone hr).1 hends, (hnone' hr').1 hends]
          · rw [(hnone hr).2 hends, (hnone' hr').2 hends]

/-- Lookups that find the same slots at every length find them at the same places: an entry can only come again with a later cluster. -/
theorem idxOf_of_first {leftover leftover' : Nat → UInt8} (hseq : HasSequences v c) (hspc : v.geometry.sectorsPerCluster < 256) {k : List UInt8}
    (h : ∀ n, first (scanNames iterateLfn v c leftover n) k = first (scanNames findLfn v c leftover' n) k) (n : Nat) :
    ((scanNames iterateLfn v c leftover n).map (·.2)).idxOf k = ((scanNames findLfn v c leftover' n).map (·.2)).idxOf k := by
  induction n with
  | zero => rfl
  | succ n ih =>
      obtain ⟨more, hmore, hkind⟩ := chainSlots_snoc v.geometry v.disk n c
      have hnodup : more.Nodup := by
        rcases hkind with rfl | ⟨x, rfl⟩
        · exact List.nodup_nil
        · exact clusterSlots_nodup (by omega) x
      have hsplit : ∀ (lfn : Memory → Nat → LfnState → Option LfnState) (leftover : Nat → UInt8),
          ∃ added, scanNames lfn v c leftover (n + 1) = scanNames lfn v c leftover n ++ added := by
        intro lfn leftover
        obtain ⟨added, hadded⟩ := shownNames_prefix v.disk lfn (chainSlots v.geometry v.disk n c) more (.start leftover)
        refine ⟨keyed added, ?_⟩
        rw [scanNames, hmore, ← hadded, keyed, List.map_append]
        rfl
      obtain ⟨added, hadded⟩ := hsplit iterateLfn leftover
      obtain ⟨added', hadded'⟩ := hsplit findLfn leftover'
      have hplaces := ((hseq.iterate n).places leftover).trans ((hseq.find n).places leftover').symm
      have hplaces' := ((hseq.iterate (n + 1)).places leftover).trans ((hseq.find (n + 1)).places leftover').symm
      have hlast : added.map (·.1) = added'.map (·.1) := by
        rw [hadded, hadded', List.map_append, List.map_append, hplaces] at hplaces'
        exact List.append_cancel_left hplaces'
      have haddedNodup : (added.map (·.1)).Nodup := by
        have hnew := (hseq.iterate (n + 1)).places leftover
        rw [hadded, List.map_append, (hseq.iterate n).places leftover, hmore] at hnew
        rcases liveSlots_append (d := v.disk) (chainSlots v.geometry v.disk n c) more with hlive | hlive
        · rw [hlive, List.filter_append] at hnew
          rw [List.append_cancel_left hnew]
          exact (hnodup.sublist (List.takeWhile_sublist _)).filter _
        · rw [hlive] at hnew
          rw [List.self_eq_append_right.mp hnew.symm]
          exact List.nodup_nil
      have hlen : (scanNames iterateLfn v c leftover n).length = (scanNames findLfn v c leftover' n).length := by
        have hlength := congrArg List.length hplaces
        rwa [List.length_map, List.length_map] at hlength
      have hfirst := h (n + 1)
      rw [hadded, hadded'] at hfirst ⊢
      exact Lib.FirstMatch.idxOf_append_eq hlen hlast haddedNodup ih hfirst

/-- The two scanners agree on a directory exactly when its entries have the same names under both readings, up to names that come earlier. -/
theorem scannersAgree_iff (hseq : HasSequences v c) (hspc : v.geometry.sectorsPerCluster < 256) : ScannersAgree v c ↔ NamesAgree v c := by
  constructor
  · intro hagree leftover leftover' n
    apply Lib.FirstMatch.keysAgree_of_idxOf_eq
    intro k hk
    have hname : ∃ target, k = foldedName target := by
      rcases List.mem_append.mp hk with hk | hk
      · exact keyed_mem hk
      · exact keyed_mem hk
    obtain ⟨target, rfl⟩ := hname
    apply idxOf_of_first hseq hspc
    exact fun m => (slotVisit_eq_iff (hseq.iterate m) (hseq.find m) target).mp (hagree target leftover leftover' m)
  · intro hnames target leftover leftover' fuel
    have hplaces := ((hseq.iterate fuel).places leftover).trans ((hseq.find fuel).places leftover').symm
    have hlen := congrArg List.length hplaces
    rw [List.length_map, List.length_map] at hlen
    apply (slotVisit_eq_iff (hseq.iterate fuel) (hseq.find fuel) target).mpr
    apply Lib.FirstMatch.first_eq_of_idxOf hplaces
    exact (hnames leftover leftover' fuel).idxOf_eq (by rw [List.length_map, List.length_map, hlen]) _

/-! ### Volumes -/

/-- On a directory of complete entries the two readings are the same. -/
theorem namesAgree_of_complete (h : ∀ n, ∃ pre rest shown, chainSlots v.geometry v.disk n c = pre ++ rest ∧ Complete v.disk pre shown ∧
    ∀ slot tail, rest = slot :: tail → slotFirst v.disk slot = 0) : NamesAgree v c := by
  intro leftover leftover' n
  obtain ⟨pre, rest, shown, hslots, hcomplete, hend⟩ := h n
  have hnames : ∀ (lfn : Memory → Nat → LfnState → Option LfnState) (leftover : Nat → UInt8), ScannerLfn lfn →
      scanNames lfn v c leftover n = keyed shown := by
    intro lfn leftover hlfn
    obtain ⟨l, -, hrest⟩ := hcomplete.shownNames hlfn (l := .start leftover) ⟨rfl, rfl⟩
    rw [scanNames, hslots, hrest]
    cases rest with
    | nil => rw [Tsukasa.shownNames, List.append_nil]
    | cons slot tail => rw [shownNames_end (hend slot tail rfl), List.append_nil]
  rw [hnames iterateLfn leftover (Or.inl rfl), hnames findLfn leftover' (Or.inr rfl)]
  intro i x x' hx hx'
  rw [hx] at hx'
  exact Or.inl (Option.some.inj hx')

theorem letters_slots (n : Nat) : chainSlots (mounted lettersDisk).2.geometry (mounted lettersDisk).2.disk (n + 1) 2 =
    [(2, 0), (2, 32), (2, 64), (2, 96)] ++ (List.range' 4 12).map fun i => (2, i * 32) := by
  have hgeometry : (mounted lettersDisk).2.geometry = tinyGeometry := by decide +kernel
  rw [hgeometry, tinySlots (by decide +kernel)]
  decide +kernel

theorem scannersAgree_letters : ScannersAgree (mounted lettersDisk).2 2 := by
  have hseq : HasSequences (mounted lettersDisk).2 2 := by
    intro n
    cases n with
    | zero => exact fun slot hslot => absurd hslot List.not_mem_nil
    | succ n =>
        rw [letters_slots]
        decide +kernel
  apply (scannersAgree_iff hseq (by decide +kernel)).mpr
  apply namesAgree_of_complete
  intro n
  cases n with
  | zero => exact ⟨[], [], [], rfl, .nil, fun slot tail h => by cases h⟩
  | succ n =>
      refine ⟨_, _, _, letters_slots n, .skipped (by decide +kernel) (Or.inr ⟨by decide +kernel, Or.inl (by decide +kernel)⟩)
        (.long lettersDisk_stored .nil), ?_⟩
      intro slot tail h
      cases h
      decide +kernel

/-- The short entry `A` has two long-name entries with the sequence number 1. The first holds 13 letters; the second starts with `z` and a terminator, and has the letter `q` in its second part. -/
def twiceDisk : Memory :=
  let first := storePart letters 1024 0 0x41 tinyBoot
  (((((first.store 1056 1 1).store 1057 10 (0xFFFFFFFFFFFF * 2 ^ 32 + 122)).store 1067 1 0x0F).store 1070 12 (0xFFFFFFFFFFFFFFFFFFFF0000 + 113)).store
    1084 4 0xFFFFFFFF).store 1088 12 0x202020202020202020202041

/-- The name with the `z`. -/
def twiceName : List UInt8 := 122 :: (letters.take 13).tail

/-- `fat32_stat` finds the entry under a name that `fat32_write_file` does not know it by. -/
theorem fat32_scanners_differ : (mounted twiceDisk).1 = 0 ∧ HasSequences (mounted twiceDisk).2 2 ∧
    ((fat32Stat (mounted twiceDisk).2 (slash :: twiceName)).bind (·.2)).isSome ∧
    (fat32WriteFile (mounted twiceDisk).2 (slash :: twiceName) []).map (·.2) = some (-1) ∧ ¬ ScannersAgree (mounted twiceDisk).2 2 := by
  have hgeometry : (mounted twiceDisk).2.geometry = tinyGeometry := by decide +kernel
  have hseq : HasSequences (mounted twiceDisk).2 2 := by
    intro n
    cases n with
    | zero => exact fun slot hslot => absurd hslot List.not_mem_nil
    | succ n =>
        rw [hgeometry, tinySlots (by decide +kernel)]
        decide +kernel
  refine ⟨by decide +kernel, hseq, by decide +kernel, by decide +kernel, ?_⟩
  intro hagree
  have hlookup := hagree twiceName (fun _ => 0) (fun _ => 0) 2
  exact absurd hlookup (by decide +kernel)

end Tsukasa
