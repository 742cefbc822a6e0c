import Tsukasa.Fs.Fat32Scan

/-!
# The long-name buffer

The scanners put the characters of a long-name entry into a buffer of 256 bytes, from the offset that the low five bits of its order give. An order without a sequence number gives the offset -13, and the guards look at the upper end only. Apart from that no index leaves the buffer: the guards stop at 255, so the running length and with it the terminator stay inside.
-/

namespace Tsukasa

open Lib (Memory)

variable {σ : Type} {g : Fat32Geometry} {d : Memory} {v : Fat32} {c n : Nat} {l l' : LfnState} {sec : Memory} {off : Nat} {pos : Int} {wc : Nat}
  {wcs : List Nat} {slot : Nat × Nat} {slots : List (Nat × Nat)} {ctx : σ} {lfn : Memory → Nat → LfnState → Option LfnState}

/-! ### Stores into the buffer -/

/-- The terminator has its place in the buffer, and every byte of the buffer has a value. -/
structure LfnState.Sound (l : LfnState) : Prop where
  len : l.len < fat32NameMax
  bytes : ∀ i, ∃ b, l.buf i = some b

/-- The state at the start of a scan: `leftover` is what the stack has left in the buffer. -/
def LfnState.start (leftover : Nat → UInt8) : LfnState := ⟨fun i => some (leftover i), 0, false⟩

theorem LfnState.sound_start (leftover : Nat → UInt8) : (LfnState.start leftover).Sound := ⟨Nat.zero_lt_succ 255, fun i => ⟨leftover i, rfl⟩⟩

theorem LfnState.Sound.reset (h : l.Sound) : l.reset.Sound := ⟨Nat.zero_lt_succ 255, h.bytes⟩

theorem LfnState.Sound.store (h : l.Sound) {b : UInt8} (hstore : l.store pos b = some l') : l'.Sound ∧ l'.len = l.len := by
  obtain ⟨-, hl'⟩ := Option.ite_none_right_eq_some.mp hstore
  rw [← Option.some.inj hl']
  refine ⟨⟨h.len, fun i => ?_⟩, rfl⟩
  by_cases heq : i = pos.toNat
  · exact ⟨b, by rw [heq]; exact Function.update_self _ _ _⟩
  · obtain ⟨x, hx⟩ := h.bytes i
    exact ⟨x, (Function.update_of_ne heq _ _).trans hx⟩

theorem LfnState.store_inside (l : LfnState) (hlo : 0 ≤ pos) (hhi : pos < fat32NameMax) (b : UInt8) : ∃ l', l.store pos b = some l' :=
  ⟨_, if_pos ⟨hlo, hhi⟩⟩

theorem LfnState.store_below (l : LfnState) (h : pos < 0) (b : UInt8) : l.store pos b = none := if_neg fun hin => Int.not_lt.mpr hin.1 h

theorem LfnState.Sound.put (h : l.Sound) (hpos : pos < fat32NameMax - 1) (hput : l.put pos wc = some l') : l'.Sound := by
  obtain ⟨l₁, hstore, rfl⟩ := Option.map_eq_some_iff.mp hput
  obtain ⟨hsound, -⟩ := h.store hstore
  refine ⟨?_, hsound.bytes⟩
  have := hsound.len
  show max l₁.len (pos + 1).toNat < fat32NameMax
  omega

theorem LfnState.put_inside (l : LfnState) (hlo : 0 ≤ pos) (hhi : pos < fat32NameMax) (wc : Nat) : ∃ l', l.put pos wc = some l' := by
  obtain ⟨l₁, hstore⟩ := l.store_inside hlo hhi (UInt8.ofNat wc)
  rw [LfnState.put, hstore]
  exact ⟨_, rfl⟩

theorem LfnState.Sound.finish (h : l.Sound) (hfinish : l.finish = some l') : l'.Sound := by
  obtain ⟨l₁, hstore, rfl⟩ := Option.map_eq_some_iff.mp hfinish
  obtain ⟨hsound, -⟩ := h.store hstore
  exact ⟨hsound.len, hsound.bytes⟩

/-- The terminator is always stored inside. -/
theorem LfnState.Sound.finish_inside (h : l.Sound) : ∃ l', l.finish = some l' := by
  have hlen := h.len
  obtain ⟨l₁, hstore⟩ := l.store_inside (Int.natCast_nonneg l.len) (by omega) 0
  rw [LfnState.finish, hstore]
  exact ⟨_, rfl⟩

theorem LfnState.Sound.putChars (h : l.Sound) {r : Bool × LfnState} (hput : putChars pos wcs l = some r) : r.2.Sound := by
  induction wcs generalizing pos l with
  | nil =>
      cases hput
      exact h
  | cons wc wcs ih =>
      rw [Tsukasa.putChars] at hput
      split at hput
      · split at hput
        · cases hput
          exact h
        · obtain ⟨l₁, hl₁, hrest⟩ := Option.bind_eq_some_iff.mp hput
          exact ih (h.put ‹_› hl₁) hrest
      · cases hput
        exact h

/-- A loop that starts inside the buffer stays inside. -/
theorem putChars_inside (hpos : 0 ≤ pos) (wcs : List Nat) (l : LfnState) : ∃ r, putChars pos wcs l = some r := by
  induction wcs generalizing pos l with
  | nil => exact ⟨_, rfl⟩
  | cons wc wcs ih =>
      rw [putChars]
      split
      · split
        · exact ⟨_, rfl⟩
        · rename_i hin _
          obtain ⟨l₁, hput⟩ := l.put_inside hpos (by omega) wc
          rw [hput]
          exact ih (by omega) l₁
      · exact ⟨_, rfl⟩

/-- The part starts with a terminator, so nothing of it is stored. -/
def StartsTerminated (wcs : List Nat) : Prop := ∃ wc rest, wcs = wc :: rest ∧ (wc = 0xFFFF ∨ wc = 0)

theorem putChars_startsTerminated (h : StartsTerminated wcs) (hpos : pos < fat32NameMax - 1) (l : LfnState) : putChars pos wcs l = some (true, l) := by
  obtain ⟨wc, rest, rfl, hterm⟩ := h
  rw [putChars, if_pos hpos, if_pos hterm]

/-- In front of the buffer the first character is a store outside. -/
theorem putChars_below (h : ¬ StartsTerminated wcs) (hne : wcs ≠ []) (hpos : pos < 0) (l : LfnState) : putChars pos wcs l = none := by
  obtain ⟨wc, rest, rfl⟩ := List.exists_cons_of_ne_nil hne
  have hwc : ¬ (wc = 0xFFFF ∨ wc = 0) := fun hterm => h ⟨wc, rest, rfl, hterm⟩
  have hguard : pos < fat32NameMax - 1 := by
    rw [fat32NameMax]
    omega
  rw [putChars, if_pos hguard, if_neg hwc, LfnState.put, LfnState.store_below l hpos]
  rfl

/-! ### One entry -/

/-- A long-name entry without a sequence number. -/
def NoSequence (sec : Memory) (off : Nat) : Prop := sec off &&& 0x1F = 0

instance (sec : Memory) (off : Nat) : Decidable (NoSequence sec off) := inferInstanceAs (Decidable (_ = _))

/-- Each part of the entry starts with a terminator. -/
def NoChars (sec : Memory) (off : Nat) : Prop :=
  StartsTerminated (lfnName1 sec off) ∧ StartsTerminated (lfnName2 sec off) ∧ StartsTerminated (lfnName3 sec off)

theorem lfnOffset_nonneg (h : ¬ NoSequence sec off) : 0 ≤ lfnOffset (sec off) := by
  have hpos : (sec off &&& 0x1F).toNat ≠ 0 := fun hzero => h (UInt8.toNat_inj.mp hzero)
  rw [lfnOffset]
  omega

theorem lfnOffset_noSequence (h : NoSequence sec off) : lfnOffset (sec off) = -13 := by
  rw [lfnOffset, h]
  rfl

/-- What a scanner does with a long-name entry keeps the buffer sound. -/
def LfnKeeps (lfn : Memory → Nat → LfnState → Option LfnState) : Prop := ∀ sec off l l', l.Sound → lfn sec off l = some l' → l'.Sound

theorem iterateLfn_keeps : LfnKeeps iterateLfn := by
  intro sec off l l' h hl'
  obtain ⟨r1, hr1, hl'⟩ := Option.bind_eq_some_iff.mp hl'
  obtain ⟨r2, hr2, hl'⟩ := Option.bind_eq_some_iff.mp hl'
  obtain ⟨r3, hr3, hl'⟩ := Option.bind_eq_some_iff.mp hl'
  have h1 := h.putChars hr1
  have h2 : r2.2.Sound := by
    split at hr2
    · cases hr2
      exact h1
    · exact h1.putChars hr2
  have h3 : r3.2.Sound := by
    split at hr3
    · cases hr3
      exact h2
    · exact h2.putChars hr3
  exact h3.finish hl'

theorem findLfn_keeps : LfnKeeps findLfn := by
  intro sec off l l' h hl'
  obtain ⟨r1, hr1, hl'⟩ := Option.bind_eq_some_iff.mp hl'
  obtain ⟨r2, hr2, hl'⟩ := Option.bind_eq_some_iff.mp hl'
  obtain ⟨r3, hr3, hl'⟩ := Option.bind_eq_some_iff.mp hl'
  exact (((h.putChars hr1).putChars hr2).putChars hr3).finish hl'

theorem findLfn_inside (h : l.Sound) (hchars : NoSequence sec off → NoChars sec off) : ∃ l', findLfn sec off l = some l' := by
  by_cases hseq : NoSequence sec off
  · obtain ⟨h1, h2, h3⟩ := hchars hseq
    rw [findLfn, lfnOffset_noSequence hseq, putChars_startsTerminated h1 (by decide), Option.bind_some, putChars_startsTerminated h2 (by decide),
      Option.bind_some, putChars_startsTerminated h3 (by decide), Option.bind_some]
    exact h.finish_inside
  · have hpos := lfnOffset_nonneg hseq
    obtain ⟨r1, hr1⟩ := putChars_inside hpos (lfnName1 sec off) l
    obtain ⟨r2, hr2⟩ := putChars_inside (by omega : 0 ≤ lfnOffset (sec off) + 5) (lfnName2 sec off) r1.2
    obtain ⟨r3, hr3⟩ := putChars_inside (by omega : 0 ≤ lfnOffset (sec off) + 11) (lfnName3 sec off) r2.2
    simp only [findLfn, hr1, hr2, hr3, Option.bind_some]
    exact (((h.putChars hr1).putChars hr2).putChars hr3).finish_inside

theorem iterateLfn_inside (h : l.Sound) (hchars : NoSequence sec off → NoChars sec off) : ∃ l', iterateLfn sec off l = some l' := by
  by_cases hseq : NoSequence sec off
  · obtain ⟨h1, -, -⟩ := hchars hseq
    rw [iterateLfn, lfnOffset_noSequence hseq, putChars_startsTerminated h1 (by decide)]
    simp only [Option.bind_some, if_true]
    exact h.finish_inside
  · have hpos := lfnOffset_nonneg hseq
    obtain ⟨r1, hr1⟩ := putChars_inside hpos (lfnName1 sec off) l
    have hr2 : ∃ r2, (if r1.1 then some r1 else putChars (lfnOffset (sec off) + 5) (lfnName2 sec off) r1.2) = some r2 ∧ r2.2.Sound := by
      split
      · exact ⟨r1, rfl, h.putChars hr1⟩
      · obtain ⟨r2, hr2⟩ := putChars_inside (by omega : 0 ≤ lfnOffset (sec off) + 5) (lfnName2 sec off) r1.2
        exact ⟨r2, hr2, (h.putChars hr1).putChars hr2⟩
    obtain ⟨r2, hr2, h2⟩ := hr2
    have hr3 : ∃ r3, (if r2.1 then some r2 else putChars (lfnOffset (sec off) + 11) (lfnName3 sec off) r2.2) = some r3 ∧ r3.2.Sound := by
      split
      · exact ⟨r2, rfl, h2⟩
      · obtain ⟨r3, hr3⟩ := putChars_inside (by omega : 0 ≤ lfnOffset (sec off) + 11) (lfnName3 sec off) r2.2
        exact ⟨r3, hr3, h2.putChars hr3⟩
    obtain ⟨r3, hr3, h3⟩ := hr3
    simp only [iterateLfn, hr1, hr2, hr3, Option.bind_some]
    exact h3.finish_inside

/-- A character without a sequence number is stored in front of the buffer, in whichever part of the entry it stands. -/
theorem findLfn_outside (hseq : NoSequence sec off) (hchars : ¬ NoChars sec off) (l : LfnState) : findLfn sec off l = none := by
  rw [findLfn, lfnOffset_noSequence hseq]
  by_cases h1 : StartsTerminated (lfnName1 sec off)
  · rw [putChars_startsTerminated h1 (by decide), Option.bind_some]
    by_cases h2 : StartsTerminated (lfnName2 sec off)
    · have h3 : ¬ StartsTerminated (lfnName3 sec off) := fun h3 => hchars ⟨h1, h2, h3⟩
      rw [putChars_startsTerminated h2 (by decide), Option.bind_some, putChars_below h3 (List.cons_ne_nil _ _) (by decide)]
      rfl
    · rw [putChars_below h2 (List.cons_ne_nil _ _) (by decide)]
      rfl
  · rw [putChars_below h1 (List.cons_ne_nil _ _) (by decide)]
    rfl

/-! ### A scan -/

theorem LfnState.Sound.textFrom (h : l.Sound) (n i : Nat) : ∃ name, l.textFrom n i = some name ∧ name.length ≤ n := by
  induction n generalizing i with
  | zero => exact ⟨[], rfl, Nat.le_refl 0⟩
  | succ n ih =>
      obtain ⟨b, hb⟩ := h.bytes i
      obtain ⟨name, hname, hlen⟩ := ih (i + 1)
      simp only [LfnState.textFrom, hb, hname]
      split
      · exact ⟨[], rfl, Nat.zero_le _⟩
      · exact ⟨b :: name, rfl, Nat.succ_le_succ hlen⟩

theorem LfnState.Sound.slotName (h : l.Sound) (d : Memory) (slot : Nat × Nat) :
    ∃ name, slotName d slot l = some name ∧ name.length < fat32NameMax := by
  rw [Tsukasa.slotName]
  split
  · obtain ⟨name, hname, hlen⟩ := h.textFrom l.len 0
    exact ⟨name, hname, Nat.lt_of_le_of_lt hlen h.len⟩
  · refine ⟨_, rfl, ?_⟩
    rw [parse83name]
    exact Nat.lt_of_le_of_lt (List.length_take_le _ _) (by decide)

variable {visit : DirEntry → Nat → Nat → List UInt8 → σ → σ × Bool}

variable (ctx visit) in
/-- A step from a sound state leads to a sound state, and only a long-name entry can fail. -/
theorem scanEntry_sound (hkeeps : LfnKeeps lfn) (h : l.Sound)
    (hslot : LongName d slot → ∃ l', lfn (ataReadSector d slot.1) slot.2 l = some l') :
    ∃ r, scanEntry ⟨lfn, visit⟩ (ataReadSector d slot.1) slot.1 slot.2 l ctx = some r ∧ ∀ l' ctx', r = .more l' ctx' → l'.Sound := by
  by_cases hlive : slotFirst d slot = 0
  · exact ⟨_, scanEntry_end hlive, fun l' ctx' hr => by cases hr⟩
  rcases slot_cases d slot with hlong | hshown | hskipped
  · obtain ⟨l₁, hl₁⟩ := hslot hlong
    refine ⟨.more l₁ ctx, ?_, ?_⟩
    · rw [scanEntry_longName hlive hlong]
      exact Option.map_eq_some_iff.mpr ⟨l₁, hl₁, rfl⟩
    · intro l' ctx' hr
      cases hr
      exact hkeeps _ _ _ _ h hl₁
  · obtain ⟨name, hname, -⟩ := h.slotName d slot
    rw [scanEntry_shown hlive hshown, hname]
    refine ⟨_, rfl, ?_⟩
    intro l' ctx' hr
    dsimp only at hr
    split at hr
    · cases hr
    · cases hr
      exact h.reset
  · refine ⟨_, scanEntry_skipped hlive hskipped, ?_⟩
    intro l' ctx' hr
    cases hr
    exact h.reset

variable (ctx visit) in
theorem scanSlots_sound (hkeeps : LfnKeeps lfn) (h : l.Sound)
    (hslots : ∀ slot ∈ liveSlots d slots, LongName d slot → ∀ l, l.Sound → ∃ l', lfn (ataReadSector d slot.1) slot.2 l = some l') :
    scanSlots ⟨lfn, visit⟩ d slots l ctx ≠ none := by
  induction slots generalizing l ctx with
  | nil => exact Option.some_ne_none _
  | cons slot slots ih =>
      by_cases hlive : slotFirst d slot = 0
      · rw [scanSlots, scanEntry_end hlive]
        exact Option.some_ne_none _
      · rw [liveSlots_cons hlive] at hslots
        obtain ⟨r, hr, hsound⟩ := scanEntry_sound ctx visit hkeeps h fun hlong => hslots slot List.mem_cons_self hlong l h
        rw [scanSlots, hr]
        cases r with
        | done ctx => exact Option.some_ne_none _
        | more l' ctx' => exact ih ctx' (hsound l' ctx' rfl) fun s hs => hslots s (List.mem_cons_of_mem slot hs)

/-- A scan that stops at no name gets to the end of the slots, unless it leaves the buffer. -/
theorem scanSlots_passes (hkeeps : LfnKeeps lfn) (h : l.Sound) (hlive : ∀ slot ∈ slots, slotFirst d slot ≠ 0)
    (hvisit : ∀ e lba off name ctx, name.length < fat32NameMax → (visit e lba off name ctx).2 = false)
    (hscan : scanSlots ⟨lfn, visit⟩ d slots l ctx ≠ none) : ∃ l' ctx', scanSlots ⟨lfn, visit⟩ d slots l ctx = some (.more l' ctx') := by
  induction slots generalizing l ctx with
  | nil => exact ⟨l, ctx, rfl⟩
  | cons slot slots ih =>
      have hfirst := hlive slot List.mem_cons_self
      have hrest : ∀ s ∈ slots, slotFirst d s ≠ 0 := fun s hs => hlive s (List.mem_cons_of_mem slot hs)
      rcases slot_cases d slot with hlong | hshown | hskipped
      · rw [scanSlots, scanEntry_longName hfirst hlong] at hscan ⊢
        cases hl₁ : lfn (ataReadSector d slot.1) slot.2 l with
        | none => simp only [hl₁, Option.map_none, ne_eq, not_true_eq_false] at hscan
        | some l₁ =>
            simp only [hl₁, Option.map_some] at hscan ⊢
            exact ih (hkeeps _ _ _ _ h hl₁) hrest hscan
      · obtain ⟨name, hname, hlen⟩ := h.slotName d slot
        have hstop := hvisit (slotEntry d slot) slot.1 slot.2 name ctx hlen
        rw [scanSlots, scanEntry_shown hfirst hshown, hname] at hscan ⊢
        simp only [Option.map_some] at hscan ⊢
        revert hscan
        cases hvisited : visit (slotEntry d slot) slot.1 slot.2 name ctx with
        | mk ctx' stop =>
            rw [hvisited] at hstop
            cases hstop
            exact ih h.reset hrest
      · rw [scanSlots, scanEntry_skipped hfirst hskipped] at hscan ⊢
        exact ih h.reset hrest hscan

theorem liveSlots_split (hslot : slot ∈ liveSlots d slots) :
    ∃ before after, slots = before ++ slot :: after ∧ ∀ s ∈ before ++ [slot], slotFirst d s ≠ 0 := by
  obtain ⟨before, after, hsplit⟩ := List.append_of_mem hslot
  have hall : ∀ s ∈ liveSlots d slots, slotFirst d s ≠ 0 := fun s hs => by simpa using List.mem_takeWhile_imp hs
  refine ⟨before, after ++ slots.dropWhile (fun s => slotFirst d s ≠ 0), ?_, fun s hs => hall s ?_⟩
  · rw [← List.cons_append, ← List.append_assoc, ← hsplit]
    exact List.takeWhile_append_dropWhile.symm
  · rw [hsplit, List.append_cons]
    exact List.mem_append_left after hs

/-! ### Lookups -/

/-- What `find_entry_raw` does with an entry that is shown. -/
abbrev rawVisit (target : List UInt8) : DirEntry → Nat → Nat → List UInt8 → Option RawEntry → Option RawEntry × Bool :=
  lookup (nameIs target) fun e lba off _ => ⟨e, lba, off⟩

/-- A name that no entry is shown under: it is longer than the buffer. -/
def longTarget : List UInt8 := List.replicate fat32NameMax 65

theorem kStrncmpi_length {n : Nat} {s t : List UInt8} (h : kStrncmpi n s t = 0) (ht : 0 ∉ t) (hlen : n ≤ t.length) : n ≤ s.length := by
  induction n generalizing s t with
  | zero => exact Nat.zero_le _
  | succ n ih =>
      cases t with
      | nil => exact absurd hlen (Nat.not_succ_le_zero n)
      | cons b t =>
          have hb : toLower b ≠ 0 := fun heq => ht ((toLower_eq_zero _).mp heq ▸ List.mem_cons_self)
          rw [kStrncmpi] at h
          split at h
          · cases h
          rename_i heq
          have heq := not_not.mp heq
          cases s with
          | nil => exact absurd heq.symm hb
          | cons a s =>
              rw [if_neg (by rw [heq]; exact hb)] at h
              exact Nat.succ_le_succ (ih h (fun hmem => ht (List.mem_cons_of_mem b hmem)) (Nat.le_of_succ_le_succ hlen))

theorem rawVisit_longTarget {e : DirEntry} {lba : Nat} {name : List UInt8} {found : Option RawEntry} (h : name.length < fat32NameMax) :
    rawVisit longTarget e lba off name found = (found, false) := by
  have hne : ¬ kStrncmpi fat32NameMax name longTarget = 0 := by
    intro heq
    have hlen := kStrncmpi_length heq (by decide) (by rw [longTarget, List.length_replicate])
    omega
  rw [rawVisit, lookup, nameIs, decide_eq_false hne]
  rfl

/-- In the directory at `c`, every index of a store into `lfn_buf` is inside: scanned as far as one likes, with any callback or target and over any leftover bytes, no step fails. -/
def LfnInside (g : Fat32Geometry) (d : Memory) (c : Nat) : Prop :=
  (∀ (σ : Type) (cb : DirEntry → List UInt8 → σ → σ × Bool) (ctx : σ) (leftover : Nat → UInt8) (n : Nat),
    scanSlots ⟨iterateLfn, fun e _ _ name ctx => cb e name ctx⟩ d (chainSlots g d n c) (.start leftover) ctx ≠ none) ∧
  ∀ (target : List UInt8) (leftover : Nat → UInt8) (n : Nat),
    scanSlots ⟨findLfn, rawVisit target⟩ d (chainSlots g d n c) (.start leftover) none ≠ none

/-- The scanners stay inside the buffer exactly when the long-name entries without a sequence number have no characters. -/
theorem lfnInside_iff (g : Fat32Geometry) (d : Memory) (c : Nat) :
    LfnInside g d c ↔ ∀ n, ∀ slot ∈ liveSlots d (chainSlots g d n c), LongName d slot →
      NoSequence (ataReadSector d slot.1) slot.2 → NoChars (ataReadSector d slot.1) slot.2 := by
  constructor
  · rintro ⟨-, hfind⟩ n slot hslot hlong hseq
    by_contra hchars
    obtain ⟨before, after, hsplit, hlive⟩ := liveSlots_split hslot
    have hscan := hfind longTarget (fun _ => 0) n
    rw [hsplit, scanSlots_append] at hscan
    have hbefore : scanSlots ⟨findLfn, rawVisit longTarget⟩ d before (.start fun _ => 0) none ≠ none := by
      intro heq
      rw [heq] at hscan
      exact hscan rfl
    obtain ⟨l', ctx', hmore⟩ := scanSlots_passes findLfn_keeps (LfnState.sound_start _) (fun s hs => hlive s (List.mem_append_left _ hs))
      (fun e lba off name ctx hlen => by rw [rawVisit_longTarget hlen]) hbefore
    have hfirst : slotFirst d slot ≠ 0 := hlive slot (List.mem_append_right _ List.mem_cons_self)
    simp only [hmore, scanSlots, scanEntry_longName hfirst hlong, findLfn_outside hseq hchars, Option.map_none, ne_eq, not_true_eq_false] at hscan
  · intro hchars
    refine ⟨fun σ cb ctx leftover n => ?_, fun target leftover n => ?_⟩
    · apply scanSlots_sound _ _ iterateLfn_keeps (LfnState.sound_start leftover)
      exact fun slot hslot hlong l hl => iterateLfn_inside hl (hchars n slot hslot hlong)
    · apply scanSlots_sound _ _ findLfn_keeps (LfnState.sound_start leftover)
      exact fun slot hslot hlong l hl => findLfn_inside hl (hchars n slot hslot hlong)

/-- The first entry of the root is a long-name entry of order 0x40 with the character `A`. -/
def strayDisk : Memory := ((tinyBoot.store 1024 1 0x40).store 1025 1 65).store 1035 1 0x0F

/-- The disk mounts, and both scanners store the character in front of the buffer. -/
theorem fat32_lfn_before_buffer : (mounted strayDisk).1 = 0 ∧ (mounted strayDisk).2.geometry = tinyGeometry ∧
    (∀ leftover, scanSlots ⟨iterateLfn, fun _ _ _ _ _ => ((), false)⟩ strayDisk (chainSlots tinyGeometry strayDisk 1 2) (.start leftover) () = none) ∧
    ¬ LfnInside tinyGeometry strayDisk 2 := by
  have hstray : ∀ leftover,
      scanSlots ⟨iterateLfn, fun _ _ _ _ _ => ((), false)⟩ strayDisk (chainSlots tinyGeometry strayDisk 1 2) (.start leftover) () = none := by
    intro leftover
    rfl
  refine ⟨by decide +kernel, by decide +kernel, hstray, ?_⟩
  rintro ⟨hiterate, -⟩
  exact hiterate Unit (fun _ _ _ => ((), false)) () (fun _ => 0) 1 (hstray _)

end Tsukasa
