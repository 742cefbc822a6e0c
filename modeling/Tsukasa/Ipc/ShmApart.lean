import Tsukasa.Ipc.ShmSpaces

/-!
# Ranges on one page table

Each section of the calls of `ipc/shm.c` is one operation on the ranges that processes hold: a reservation, a map, a move to the caller, a release. Only the reservation can bring ranges together.
-/

namespace Tsukasa

open Lib

/-! ### What the regions have no part in -/

/-- At most the regions are different. -/
structure Shm.SameRanges (s s' : Shm) : Prop where
  attachments : s'.attachments = s.attachments
  processes : s'.processes = s.processes
  pageTables : s'.pageTables = s.pageTables

namespace Shm.SameRanges

variable {s s' s'' : Shm}

theorem refl (s : Shm) : s.SameRanges s := ⟨rfl, rfl, rfl⟩

theorem trans (h : s.SameRanges s') (h' : s'.SameRanges s'') : s.SameRanges s'' :=
  ⟨h'.attachments.trans h.attachments, h'.processes.trans h.processes, h'.pageTables.trans h.pageTables⟩

theorem foldl {α : Type} {f : Shm → α → Shm} (hf : ∀ (s : Shm) x, s.SameRanges (f s x)) (xs : List α) (s : Shm) : s.SameRanges (xs.foldl f s) := by
  induction xs generalizing s with
  | nil => exact refl s
  | cons x xs ih => exact (hf s x).trans (ih (f s x))

theorem setRegion (s : Shm) (i : Nat) (r : ShmRegion) : s.SameRanges (s.setRegion i r) := ⟨rfl, rfl, rfl⟩

theorem dropRef (s : Shm) (shmId : Int) : s.SameRanges (dropRef s shmId) :=
  ⟨(dropRef_frame s shmId).1, (dropRef_frame s shmId).2.1, (dropRef_frame s shmId).2.2.1⟩

theorem reap (s : Shm) (i : Nat) : s.SameRanges (shmReapRegion s i) := by
  simp only [shmReapRegion]
  split
  · exact refl s
  · split <;> exact ⟨rfl, rfl, rfl⟩

theorem create (s : Shm) (pid size phys : Nat) : s.SameRanges (shmCreate s pid size phys) := by
  simp only [shmCreate]
  split
  · exact refl s
  split
  · exact refl s
  split <;> exact ⟨rfl, rfl, rfl⟩

theorem destroy (s : Shm) (shmId : Int) : s.SameRanges (shmDestroy s shmId) := by
  simp only [shmDestroy]
  split
  · exact refl s
  split
  · exact refl s
  split
  · exact refl s
  · exact (setRegion s _ _).trans (reap _ _)

theorem cleanupReap (s : Shm) (id : Int) : s.SameRanges (cleanupReap s id) := by
  rcases cleanupReap_eq s id with h | ⟨i, h⟩
  · rw [h]
    exact refl s
  · rw [h]
    exact reap s i

theorem cleanupSweep (s : Shm) (i : Nat) : s.SameRanges (cleanupSweep s i) := by
  rcases cleanupSweep_eq s i with h | ⟨j, h⟩
  · rw [h]
    exact refl s
  · rw [h]
    exact reap s j

theorem rangeAt (h : s.SameRanges s') : s'.rangeAt = s.rangeAt := by
  funext k
  cases k with
  | inl i => rw [Shm.rangeAt, Shm.rangeAt, h.attachments]
  | inr p => rw [Shm.rangeAt, Shm.rangeAt, h.processes]

theorem holdings (h : s.SameRanges s') : s'.holdings = s.holdings := by
  simp only [Shm.holdings, h.rangeAt, h.processes, h.pageTables]

theorem setPhase (h : s.SameRanges s') (p : Nat) (phase : ShmPhase) : (s.setPhase p phase).SameRanges (s'.setPhase p phase) := by
  refine ⟨h.attachments, ?_, h.pageTables⟩
  simp only [Shm.setPhase, Shm.setProcess, h.processes]

theorem holding (h : s.SameRanges s') (p : Nat) : s'.holding p = s.holding p := by rw [Shm.holding, Shm.holding, h.attachments]

end Shm.SameRanges

/-! ### The invariant -/

namespace ShmSpaces

structure Inv (s : ShmSpaces) : Prop where
  sound : s.shm.holdings.Sound
  fits : ∀ k a, s.shm.rangeAt k = some a → a.Fits (s.shm.processes a.pid).shmCursor
  limit : ∀ p, (s.shm.processes p).shmCursor ≤ vmSpaceShmLimit
  slot : ∀ i, (s.shm.attachments i).inUse = true → i < shmMaxAttachments
  owner : ∀ i, (s.shm.attachments i).inUse = true → s.live (s.shm.attachments i).pid = true
  entered : ∀ p, (s.shm.processes p).phase.attaching ≠ none → ∃ i, (s.shm.processes p).phase.Entered p (s.shm.attachments i)
  counts : ∀ p, s.live p = true → (s.shm.processes p).phase.CountOk (s.shm.holding p) (s.shm.processes p).shmAttachmentCount
  quiet : ∀ p, s.live p = false → (s.shm.processes p).phase = .idle
  pids : ∀ p, s.live p = true → p < s.nextPid

variable {s : ShmSpaces} {shm : Shm} {p : Nat} {a : ShmAttachment}

/-- A change of the regions. -/
theorem Inv.congr (h : s.Inv) (hsame : s.shm.SameRanges shm) : Inv { s with shm := shm } where
  sound := by
    change shm.holdings.Sound
    rw [hsame.holdings]
    exact h.sound
  fits := by
    change ∀ k a, shm.rangeAt k = some a → a.Fits (shm.processes a.pid).shmCursor
    rw [hsame.rangeAt, hsame.processes]
    exact h.fits
  limit := by
    change ∀ p, (shm.processes p).shmCursor ≤ vmSpaceShmLimit
    rw [hsame.processes]
    exact h.limit
  slot := by
    change ∀ i, (shm.attachments i).inUse = true → i < shmMaxAttachments
    rw [hsame.attachments]
    exact h.slot
  owner := by
    change ∀ i, (shm.attachments i).inUse = true → s.live (shm.attachments i).pid = true
    rw [hsame.attachments]
    exact h.owner
  entered := by
    change ∀ p, (shm.processes p).phase.attaching ≠ none → ∃ i, (shm.processes p).phase.Entered p (shm.attachments i)
    rw [hsame.attachments, hsame.processes]
    exact h.entered
  counts := by
    change ∀ p, s.live p = true → (shm.processes p).phase.CountOk (shm.holding p) (shm.processes p).shmAttachmentCount
    intro p
    rw [hsame.holding, hsame.processes]
    exact h.counts p
  quiet := by
    change ∀ p, s.live p = false → (shm.processes p).phase = .idle
    rw [hsame.processes]
    exact h.quiet
  pids := h.pids

theorem boot_inv (pml4Phys : Nat) : (boot pml4Phys).Inv where
  sound := by
    refine ⟨fun k r hr => ?_, fun k _ r _ _ hr => ?_, fun k r hr => ?_, fun _ _ _ hp => ?_⟩
    · cases k <;> cases hr
    · cases k <;> cases hr
    · cases k <;> cases hr
    · cases hp
  fits k a ha := by cases k <;> cases ha
  limit p := show vmSpaceShmBase ≤ vmSpaceShmLimit by decide
  slot i hi := by cases hi
  owner i hi := by cases hi
  entered p hp := absurd rfl hp
  counts p _ := tally_eq_zero fun _ _ h => Bool.false_ne_true h.1
  quiet p _ := rfl
  pids p hp := by
    obtain rfl : p = 1 := by simpa [boot] using hp
    exact Nat.lt_succ_self 1

/-- The slot of the attach that is under way. -/
theorem Inv.entering (h : s.Inv) {virtAddr : Nat} (hentering : (s.shm.processes p).phase.entering = some virtAddr) :
    ∃ i, (s.shm.attachments i).inUse = true ∧ (s.shm.attachments i).pid = p ∧ (s.shm.attachments i).virtBase = virtAddr ∧
      (s.shm.processes p).phase.Entered p (s.shm.attachments i) := by
  obtain ⟨i, hi⟩ := h.entered p (ShmPhase.attaching_of_entering (by rw [hentering]; exact Option.some_ne_none _))
  obtain ⟨huse, hpid, hvirt⟩ := hi.entering
  rw [hentering] at hvirt
  exact ⟨i, huse, hpid, (Option.some.inj hvirt).symm, hi⟩

theorem Inv.live_of_range (h : s.Inv) {k : Nat ⊕ Nat} (hk : s.shm.rangeAt k = some a) : s.live a.pid = true := by
  cases k with
  | inl i =>
      obtain ⟨rfl, huse⟩ := Shm.rangeAt_inl hk
      exact h.owner i huse
  | inr q =>
      obtain ⟨hpid, -⟩ := ShmPhase.leaving_some hk
      by_contra hdead
      rw [hpid, Bool.not_eq_true] at hdead
      have hphase := h.quiet q hdead
      rw [Shm.rangeAt, hphase] at hk
      exact Option.some_ne_none _ hk.symm

theorem range_holdings {shm : Shm} {k : Nat ⊕ Nat} (hk : shm.rangeAt k = some a) : shm.holdings.range k = some a.pageRange := by
  simp only [Shm.holdings, hk]
  rfl

/-- An attach under way is before its map exactly in the pages its range begins at. -/
theorem Inv.reserving_iff (h : s.Inv) {k : Nat ⊕ Nat} (hk : s.shm.rangeAt k = some a) :
    s.shm.holdings.reserving a.pid = some (a.virtBase / 4096) ↔ (s.shm.processes a.pid).phase.entering = some a.virtBase := by
  constructor
  · intro hreserving
    obtain ⟨virtAddr, hentering, hpage⟩ := Option.map_eq_some_iff.mp hreserving
    obtain ⟨i, huse, hpid, rfl, -⟩ := h.entering hentering
    have hfits := h.fits _ _ (Shm.rangeAt_slot huse)
    have haligned := (h.fits k a hk).aligned
    have haligned' := hfits.aligned
    have : (s.shm.attachments i).virtBase = a.virtBase := by omega
    rw [hentering, this]
  · intro hentering
    simp only [Shm.holdings, hentering]
    rfl

theorem Inv.apart (h : s.Inv) : s.Apart where
  ranges p q hpq _ _ hpml4 a ha b hb page := by
    obtain ⟨k, hk, rfl⟩ := (Shm.mem_rangesOf h.slot).mp ha
    obtain ⟨l, hl, rfl⟩ := (Shm.mem_rangesOf h.slot).mp hb
    have hkl : k ≠ l := by
      rintro rfl
      rw [hk] at hl
      exact hpq (congrArg ShmAttachment.pid (Option.some.inj hl))
    exact h.sound.apart k l _ _ hkl (range_holdings hk) (range_holdings hl) hpml4 page
  attaches p shmId virtAddr physBase pageCount hphase i hi := by
    obtain ⟨j, huse, hpid, hvirt, hentered⟩ := h.entering (show (s.shm.processes p).phase.entering = some virtAddr by rw [hphase]; rfl)
    have hslot := Shm.rangeAt_slot huse
    have hreserving := (h.reserving_iff hslot).mpr (by rw [hpid, hphase, hvirt]; rfl)
    rw [hphase] at hentered
    have hcount : (s.shm.attachments j).pageCount = pageCount := congrArg ShmAttachment.pageCount hentered
    have hcovers : (s.shm.attachments j).Covers (pageNumber virtAddr i) := by
      rw [ShmAttachment.Covers, hcount, hvirt, pageNumber]
      omega
    have hnone := h.sound.unmapped (range_holdings hslot) hreserving hcovers
    rw [← hpid]
    exact Option.map_eq_none_iff.mp hnone
  keeps p _ a ha hdone page hpage := by
    obtain ⟨k, hk, rfl⟩ := (Shm.mem_rangesOf h.slot).mp ha
    have hmapped := h.sound.mapped k _ (range_holdings hk) (fun heq => hdone ((h.reserving_iff hk).mp heq)) page hpage
    exact Option.map_eq_some_iff.mp hmapped

/-! ### Steps of a call -/

/-- The process moves its cursor or its counter, or goes to a phase with the same ranges. -/
theorem Inv.setProcess (h : s.Inv) {x : ShmProcess} (hpml4 : x.pml4Phys = (s.shm.processes p).pml4Phys)
    (hentering : x.phase.entering = (s.shm.processes p).phase.entering) (hleaving : x.phase.leaving p = (s.shm.processes p).phase.leaving p)
    (hcursor : ∀ k a, s.shm.rangeAt k = some a → a.pid = p → (s.shm.processes p).shmCursor ≤ x.shmCursor) (hlimit : x.shmCursor ≤ vmSpaceShmLimit)
    (hentered : x.phase.attaching ≠ none → ∃ i, x.phase.Entered p (s.shm.attachments i))
    (hcounts : s.live p = true → x.phase.CountOk (s.shm.holding p) x.shmAttachmentCount) (hquiet : s.live p = true ∨ x.phase = .idle) :
    Inv { s with shm := s.shm.setProcess p x } := by
  have hrange : (s.shm.setProcess p x).rangeAt = s.shm.rangeAt := by
    rw [Shm.rangeAt_setProcess, hleaving]
    exact Function.update_eq_self _ _
  have hreserving : (s.shm.setProcess p x).holdings.reserving = s.shm.holdings.reserving := by
    funext q
    simp only [Shm.holdings]
    rw [setProcess_field (fun y : ShmProcess => y.phase.entering) hentering]
  have htable : (s.shm.setProcess p x).holdings.table = s.shm.holdings.table := funext fun q => setProcess_field ShmProcess.pml4Phys hpml4 q
  have hholdings : (s.shm.setProcess p x).holdings = s.shm.holdings := by
    have hrange' : (s.shm.setProcess p x).holdings.range = s.shm.holdings.range := by
      simp only [Shm.holdings, hrange]
    exact Holdings.ext hrange' hreserving htable rfl
  refine ⟨by rw [hholdings]; exact h.sound, fun k a hk => ?_, fun q => ?_, h.slot, h.owner, fun q hq => ?_, fun q hq => ?_, fun q hq => ?_, h.pids⟩
  · change (s.shm.setProcess p x).rangeAt k = some a at hk
    change a.Fits ((s.shm.setProcess p x).processes a.pid).shmCursor
    rw [hrange] at hk
    have hfits := h.fits k a hk
    by_cases hap : a.pid = p
    · rw [hap, setProcess_self]
      rw [hap] at hfits
      exact { hfits with below := le_trans hfits.below (hcursor k a hk hap) }
    · rwa [setProcess_of_ne hap]
  · change ((s.shm.setProcess p x).processes q).shmCursor ≤ vmSpaceShmLimit
    by_cases hqp : q = p
    · rwa [hqp, setProcess_self]
    · rw [setProcess_of_ne hqp]
      exact h.limit q
  · change ((s.shm.setProcess p x).processes q).phase.attaching ≠ none at hq
    change ∃ i, ((s.shm.setProcess p x).processes q).phase.Entered q (s.shm.attachments i)
    by_cases hqp : q = p
    · rw [hqp, setProcess_self] at hq ⊢
      exact hentered hq
    · rw [setProcess_of_ne hqp] at hq ⊢
      exact h.entered q hq
  · change ((s.shm.setProcess p x).processes q).phase.CountOk (s.shm.holding q) ((s.shm.setProcess p x).processes q).shmAttachmentCount
    by_cases hqp : q = p
    · rw [hqp, setProcess_self]
      exact hcounts (hqp ▸ hq)
    · rw [setProcess_of_ne hqp]
      exact h.counts q hq
  · change ((s.shm.setProcess p x).processes q).phase = .idle
    by_cases hqp : q = p
    · rw [hqp, setProcess_self]
      exact hquiet.resolve_left fun hlive => Bool.false_ne_true ((hqp ▸ hq).symm.trans hlive)
    · rw [setProcess_of_ne hqp]
      exact h.quiet q hq

/-- A step of one process of its own. -/
theorem Inv.of_step (h : s.Inv) (hlive : s.live p = true) (hsound : shm.holdings.Sound) (hother : ∀ q ≠ p, shm.processes q = s.shm.processes q)
    (hfits : ∀ k a, shm.rangeAt k = some a → a.Fits (shm.processes a.pid).shmCursor) (hlimit : (shm.processes p).shmCursor ≤ vmSpaceShmLimit)
    (hatts : ∀ i, (shm.attachments i).inUse = true → i < shmMaxAttachments ∧ s.live (shm.attachments i).pid = true)
    (hkeep : ∀ i, (s.shm.attachments i).inUse = true → (s.shm.attachments i).pid ≠ p → shm.attachments i = s.shm.attachments i)
    (hentered : (shm.processes p).phase.attaching ≠ none → ∃ i, (shm.processes p).phase.Entered p (shm.attachments i))
    (hholding : ∀ q ≠ p, shm.holding q = s.shm.holding q)
    (hcounts : (shm.processes p).phase.CountOk (shm.holding p) (shm.processes p).shmAttachmentCount) : Inv { s with shm := shm } where
  sound := hsound
  fits := hfits
  limit q := by
    by_cases hqp : q = p
    · rw [hqp]
      exact hlimit
    · change (shm.processes q).shmCursor ≤ vmSpaceShmLimit
      rw [hother q hqp]
      exact h.limit q
  slot i hi := (hatts i hi).1
  owner i hi := (hatts i hi).2
  entered q hq := by
    by_cases hqp : q = p
    · rw [hqp] at hq ⊢
      exact hentered hq
    · change (shm.processes q).phase.attaching ≠ none at hq
      change ∃ i, (shm.processes q).phase.Entered q (shm.attachments i)
      rw [hother q hqp] at hq ⊢
      obtain ⟨i, hi⟩ := h.entered q hq
      obtain ⟨huse, hpid, -⟩ := hi.entering
      rw [← hkeep i huse (hpid ▸ hqp)] at hi
      exact ⟨i, hi⟩
  counts q hq := by
    by_cases hqp : q = p
    · rw [hqp]
      exact hcounts
    · change (shm.processes q).phase.CountOk (shm.holding q) (shm.processes q).shmAttachmentCount
      rw [hother q hqp, hholding q hqp]
      exact h.counts q hq
  quiet q hq := by
    have hqp : q ≠ p := by
      rintro rfl
      exact Bool.false_ne_true (hq.symm.trans hlive)
    change (shm.processes q).phase = .idle
    rw [hother q hqp]
    exact h.quiet q hq
  pids := h.pids

/-- The range an attach takes: it begins at the cursor and stays below the limit. -/
theorem vmSpaceReserveShmRange_eq {cursor pageCount : Nat} (hcursor : cursor ≤ vmSpaceShmLimit)
    (hwindow : (alignUpPage cursor + pageCount * 4096 - 1) / shmWindowSpan = alignUpPage cursor / shmWindowSpan)
    (h : (vmSpaceReserveShmRange cursor pageCount).1 ≠ 0) :
    vmSpaceReserveShmRange cursor pageCount = (alignUpPage cursor, alignUpPage cursor + pageCount * 4096) ∧ pageCount ≠ 0 ∧
      cursor ≤ alignUpPage cursor ∧ alignUpPage cursor % 4096 = 0 ∧ vmSpaceShmBase ≤ alignUpPage cursor ∧
      alignUpPage cursor + pageCount * 4096 ≤ vmSpaceShmLimit := by
  have halign : alignUpPage cursor = (cursor + 4095) / 4096 * 4096 := by
    rw [alignUpPage, wrap64, Nat.mod_eq_of_lt]
    simp only [vmSpaceShmLimit] at hcursor
    omega
  simp only [vmSpaceReserveShmRange] at h ⊢
  split at h
  · exact absurd rfl h
  rename_i hcount
  simp only [shmWindowSpan, vmSpaceShmLimit] at hwindow hcursor
  have hspan : wrap64 (pageCount * 4096) = pageCount * 4096 := Nat.mod_eq_of_lt (by omega)
  have hnext : wrap64 (alignUpPage cursor + pageCount * 4096) = alignUpPage cursor + pageCount * 4096 := Nat.mod_eq_of_lt (by omega)
  rw [hspan, hnext] at h ⊢
  split at h
  · exact absurd rfl h
  rename_i hzero
  split at h
  · exact absurd rfl h
  rename_i hover
  split at h
  · exact absurd rfl h
  rename_i hrange
  rw [if_neg hcount, if_neg hzero, if_neg hover, if_neg hrange]
  simp only [not_or, not_lt] at hrange
  exact ⟨rfl, hcount, by omega, by omega, hrange⟩

/-- An attach enters its range in the table. -/
theorem Inv.reserve (h : s.Inv) {i : Nat} {x : ShmProcess} (hlive : s.live p = true) (hidle : (s.shm.processes p).phase = .idle)
    (hslot : i < shmMaxAttachments) (hfree : (s.shm.attachments i).inUse = false) (hpml4 : x.pml4Phys = (s.shm.processes p).pml4Phys)
    (hcount : x.shmAttachmentCount = (s.shm.processes p).shmAttachmentCount) {id : Int} {virtAddr physBase pageCount : Nat}
    (hphase : x.phase = .attachMapping id virtAddr physBase pageCount) (ha : a = ⟨true, id, p, virtAddr, pageCount⟩) (hfits : a.Fits x.shmCursor)
    (hcursor : (s.shm.processes p).shmCursor ≤ virtAddr) (hlimit : x.shmCursor ≤ vmSpaceShmLimit)
    (hfar : ∀ q < s.nextPid, q ≠ p → s.live q = true → (s.shm.processes q).pml4Phys = (s.shm.processes p).pml4Phys →
      ∀ a ∈ s.shm.rangesOf q, a.virtBase / shmWindowSpan ≠ virtAddr / shmWindowSpan) :
    Inv { s with shm := (s.shm.setProcess p x).setAttachment i a } := by
  have huse : a.inUse = true := ha ▸ rfl
  have hpid : a.pid = p := ha ▸ rfl
  have hvirt : a.virtBase = virtAddr := ha ▸ rfl
  have hleaving : x.phase.leaving p = (s.shm.processes p).phase.leaving p := by
    rw [hphase, hidle]
    rfl
  have hrange : ((s.shm.setProcess p x).setAttachment i a).rangeAt = Function.update s.shm.rangeAt (.inl i) (some a) := by
    rw [Shm.rangeAt_setAttachment, Shm.rangeAt_setProcess, hleaving, if_pos huse]
    congr 1
    exact Function.update_eq_self _ _
  have hnone : s.shm.rangeAt (.inl i) = none := if_neg (by rw [hfree]; exact Bool.false_ne_true)
  have hself : ((s.shm.setProcess p x).setAttachment i a).processes p = x := setProcess_self _ _ _
  have hother : ∀ q ≠ p, ((s.shm.setProcess p x).setAttachment i a).processes q = s.shm.processes q := fun q hq => setProcess_of_ne hq x
  have hold : ∀ k b, k ≠ .inl i → ((s.shm.setProcess p x).setAttachment i a).rangeAt k = some b → s.shm.rangeAt k = some b := by
    intro k b hk hb
    rwa [hrange, Function.update_of_ne hk] at hb
  have hnew : ∀ b, ((s.shm.setProcess p x).setAttachment i a).rangeAt (.inl i) = some b → b = a := by
    intro b hb
    rw [hrange, Function.update_self] at hb
    exact (Option.some.inj hb).symm
  have hcursors : ∀ q, (s.shm.processes q).shmCursor ≤ (((s.shm.setProcess p x).setAttachment i a).processes q).shmCursor := by
    intro q
    by_cases hq : q = p
    · rw [hq, hself]
      have := hfits.below
      omega
    · rw [hother q hq]
  apply h.of_step hlive _ hother
  · intro k b hb
    by_cases hk : k = .inl i
    · rw [hk] at hb
      rw [hnew b hb, hpid, hself]
      exact hfits
    · have hfitsOld := h.fits k b (hold k b hk hb)
      exact { hfitsOld with below := le_trans hfitsOld.below (hcursors b.pid) }
  · rwa [hself]
  · intro j hj
    by_cases hji : j = i
    · rw [hji, setAttachment_self, hpid]
      exact ⟨hslot, hlive⟩
    · rw [setAttachment_of_ne hji] at hj ⊢
      exact ⟨h.slot j hj, h.owner j hj⟩
  · intro j hj _
    have hji : j ≠ i := by
      rintro rfl
      exact Bool.false_ne_true (hfree.symm.trans hj)
    exact setAttachment_of_ne hji a
  · intro _
    refine ⟨i, ?_⟩
    rw [hself, hphase, setAttachment_self]
    exact ha
  · intro q hq
    have hadd := holding_setAttachment (s := s.shm.setProcess p x) hslot hfree huse q
    rw [hpid, if_neg (Ne.symm hq), Nat.add_zero] at hadd
    exact hadd
  · have hadd := holding_setAttachment (s := s.shm.setProcess p x) hslot hfree huse p
    have hbefore := h.counts p hlive
    rw [hidle] at hbefore
    rw [hpid, if_pos rfl] at hadd
    rw [hself, hphase, hadd, hcount]
    exact congrArg (· + 1) hbefore
  · have hrangeNew : ((s.shm.setProcess p x).setAttachment i a).holdings.range (.inl i) = some a.pageRange := by
      apply range_holdings
      rw [hrange, Function.update_self]
    have htable : ((s.shm.setProcess p x).setAttachment i a).holdings.table = s.shm.holdings.table :=
      funext fun q => setProcess_field ShmProcess.pml4Phys hpml4 q
    apply Holdings.Sound.reserve h.sound (k := Sum.inl i) (r := a.pageRange) _ _ hfits.size _ hrangeNew _ _ _ htable rfl
    · simp only [Shm.holdings, hnone]
      rfl
    · change Option.map _ (s.shm.processes a.pid).phase.entering = none
      rw [hpid, hidle]
      rfl
    · -- the new range is behind those of its process and in another window than those of the others
      intro k r hr hsame page hcovers hcovers'
      obtain ⟨b, hb, rfl⟩ := Option.map_eq_some_iff.mp hr
      have hbfits := h.fits k b hb
      have hlo : b.virtBase / 4096 ≤ page ∧ page < b.virtBase / 4096 + b.pageCount := hcovers
      have hlo' : a.virtBase / 4096 ≤ page ∧ page < a.virtBase / 4096 + a.pageCount := hcovers'
      have halign := hbfits.aligned
      have halign' := hfits.aligned
      by_cases hbp : b.pid = p
      · have hbelow := hbfits.below
        rw [hbp] at hbelow
        omega
      · have hlive' := h.live_of_range hb
        have hne := hfar b.pid (h.pids _ hlive') hbp hlive' (by rw [← hpid]; exact hsame) b ((Shm.mem_rangesOf h.slot).mpr ⟨k, hb, rfl⟩)
        have hw := hbfits.window
        have hw' := hfits.window
        rw [← hvirt] at hne
        simp only [shmWindowSpan] at hne hw hw'
        omega
    · intro l hl
      simp only [Shm.holdings, hrange, Function.update_of_ne hl]
    · change Option.map _ (((s.shm.setProcess p x).setAttachment i a).processes a.pid).phase.entering = _
      rw [hpid, hself, hphase, ShmPhase.entering, ← hvirt]
      rfl
    · intro q hq
      change Option.map _ (((s.shm.setProcess p x).setAttachment i a).processes q).phase.entering = Option.map _ (s.shm.processes q).phase.entering
      rw [hother q (fun hqp => hq (hqp.trans hpid.symm))]

theorem Inv.attachBegin (h : s.Inv) {shmId : Int} (hlive : s.live p = true) (hidle : (s.shm.processes p).phase = .idle)
    (hroom : s.Room (.call (.attach p shmId))) : Inv { s with shm := shmAttachBegin s.shm p shmId } := by
  simp only [shmAttachBegin]
  split
  · exact h
  split
  · exact h
  rename_i r hr
  split
  · exact h
  rename_i hfind
  obtain ⟨hwindow, hfar⟩ := hroom hfind r hr
  split
  · exact h
  rename_i hvirt
  obtain ⟨hreserve, hsize, hcursor, haligned, hbase, hlimit⟩ := vmSpaceReserveShmRange_eq (h.limit p) hwindow hvirt
  simp only [hreserve]
  have hcountIdle : s.live p = true → (s.shm.processes p).phase.CountOk (s.shm.holding p) (s.shm.processes p).shmAttachmentCount := h.counts p
  split
  · refine h.setProcess rfl rfl rfl (fun k a _ _ => ?_) hlimit (h.entered p) hcountIdle (Or.inl hlive)
    exact le_trans hcursor (Nat.le_add_right _ _)
  · rename_i i halloc
    obtain ⟨hslot, hfree⟩ := shmAllocAttachment_some halloc
    have hadded := h.reserve (x := { s.shm.processes p with
        shmCursor := alignUpPage (s.shm.processes p).shmCursor + (s.shm.regions r).pageCount * 4096
        phase := .attachMapping shmId (alignUpPage (s.shm.processes p).shmCursor) (s.shm.regions r).physBase (s.shm.regions r).pageCount })
      hlive hidle hslot hfree rfl rfl rfl rfl ⟨haligned, hsize, hbase, hwindow, le_rfl⟩ hcursor hlimit hfar
    have hregion := hadded.congr (Shm.SameRanges.setRegion _ r { s.shm.regions r with refCount := wrap32 ((s.shm.regions r).refCount + 1) })
    convert hregion using 2
    simp only [Shm.setPhase, Shm.setProcess, Shm.setRegion, Shm.setAttachment, Function.update_self, Function.update_idem]

/-- The range of the attach under way is mapped, and the attach ends. -/
theorem Inv.mapDone (h : s.Inv) {i : Nat} {x : ShmProcess} {entry : Nat → Option ShmPage} (hlive : s.live p = true) (ha : s.shm.attachments i = a)
    (huse : a.inUse = true) (hpid : a.pid = p) (hentering : (s.shm.processes p).phase.entering = some a.virtBase)
    (hleaving : (s.shm.processes p).phase.leaving p = none) (hpml4 : x.pml4Phys = (s.shm.processes p).pml4Phys)
    (hcursor : x.shmCursor = (s.shm.processes p).shmCursor) (hphase : x.phase = .idle) (hcount : s.shm.holding p = x.shmAttachmentCount)
    (hentry : ∀ page, ∃ e, entry page = some e ∧ e.pid = p) :
    Inv { s with shm := (s.shm.setPages (s.shm.processes p).pml4Phys a.virtBase a.pageCount entry).setProcess p x } := by
  have hother : ∀ q ≠ p, ((s.shm.setPages (s.shm.processes p).pml4Phys a.virtBase a.pageCount entry).setProcess p x).processes q = s.shm.processes q :=
    fun q hq => setProcess_of_ne hq x
  have hself : ((s.shm.setPages (s.shm.processes p).pml4Phys a.virtBase a.pageCount entry).setProcess p x).processes p = x := setProcess_self _ _ _
  have hrange : ((s.shm.setPages (s.shm.processes p).pml4Phys a.virtBase a.pageCount entry).setProcess p x).rangeAt = s.shm.rangeAt := by
    rw [Shm.rangeAt_setProcess, hphase]
    change Function.update s.shm.rangeAt (.inr p) none = s.shm.rangeAt
    rw [← hleaving]
    exact Function.update_eq_self _ _
  have hslot := Shm.rangeAt_slot (ha ▸ huse)
  rw [ha] at hslot
  apply h.of_step hlive _ hother _ _ (fun j hj => ⟨h.slot j hj, h.owner j hj⟩) (fun _ _ _ => rfl) _ (fun _ _ => rfl)
  · rw [hself, hphase]
    exact hcount
  · apply Holdings.Sound.map h.sound (range_holdings hslot)
    · apply (h.reserving_iff hslot).mpr
      rw [hpid]
      exact hentering
    · simp only [Shm.holdings, hrange]
    · change Option.map _ (Shm.processes _ a.pid).phase.entering = none
      rw [hpid, hself, hphase]
      rfl
    · intro q hq
      change Option.map _ (Shm.processes _ q).phase.entering = Option.map _ (s.shm.processes q).phase.entering
      rw [hother q (fun hqp => hq (hqp.trans hpid.symm))]
    · exact funext fun q => setProcess_field ShmProcess.pml4Phys hpml4 q
    · intro page hcovers
      change Option.map ShmPage.pid ((s.shm.setPages (s.shm.processes p).pml4Phys a.virtBase a.pageCount entry).pageTables (s.shm.processes a.pid).pml4Phys page) =
        some a.pid
      obtain ⟨e, he, hepid⟩ := hentry page
      rw [hpid, setPages_inside (show a.Covers page from hcovers), he, Option.map_some, hepid]
    · intro t page hout
      change Option.map ShmPage.pid ((s.shm.setPages (s.shm.processes p).pml4Phys a.virtBase a.pageCount entry).pageTables t page) =
        Option.map ShmPage.pid (s.shm.pageTables t page)
      rw [setPages_outside]
      rw [← hpid]
      exact hout
  · intro k b hb
    rw [hrange] at hb
    have hcursors := setProcess_field (s := s.shm) ShmProcess.shmCursor hcursor b.pid
    change b.Fits ((s.shm.setProcess p x).processes b.pid).shmCursor
    rw [hcursors]
    exact h.fits k b hb
  · rw [hself, hcursor]
    exact h.limit p
  · intro hne
    rw [hself, hphase] at hne
    exact absurd rfl hne

theorem Inv.attachMap (h : s.Inv) (free : Bool) (hlive : s.live p = true) : Inv { s with shm := shmAttachMap s.shm p free } := by
  simp only [shmAttachMap]
  split
  · rename_i shmId virtAddr physBase pageCount hphase
    obtain ⟨i, huse, hpid, hvirt, hentered⟩ := h.entering (show (s.shm.processes p).phase.entering = some virtAddr by rw [hphase]; rfl)
    rw [hphase] at hentered
    have hcountOk := h.counts p hlive
    rw [hphase] at hcountOk
    split
    · rename_i shm hmap
      obtain ⟨-, -, -, rfl⟩ := vmSpaceMapUserPages_true hmap
      have hcount : (s.shm.attachments i).pageCount = pageCount := congrArg ShmAttachment.pageCount hentered
      have hholding := Shm.holding_le s.shm p
      have hcounter : s.shm.holding p = wrap32 ((s.shm.processes p).shmAttachmentCount + 1) := by
        have hok : s.shm.holding p = (s.shm.processes p).shmAttachmentCount + 1 := hcountOk
        rw [hok] at hholding ⊢
        exact (Nat.mod_eq_of_lt (lt_of_le_of_lt hholding (by decide))).symm
      rw [← hvirt, ← hcount]
      exact h.mapDone hlive rfl huse hpid (by rw [hphase, hvirt]; rfl) (by rw [hphase]; rfl) rfl rfl rfl hcounter fun page => ⟨_, rfl, rfl⟩
    · rename_i shm hmap
      rw [vmSpaceMapUserPages_false hmap]
      refine h.setProcess rfl (by rw [hphase]; rfl) (by rw [hphase]; rfl) (fun k a _ _ => le_rfl) (h.limit p) ?_ (fun _ => hcountOk) (Or.inl hlive)
      intro _
      exact ⟨i, pageCount, hentered⟩
  · exact h

theorem setPhase_pml4Phys (shm : Shm) (p : Nat) (phase : ShmPhase) (q : Nat) :
    ((shm.setPhase p phase).processes q).pml4Phys = (shm.processes q).pml4Phys :=
  setProcess_field (p := { shm.processes p with phase := phase }) ShmProcess.pml4Phys rfl q

theorem Inv.findByAddr_eq (h : s.Inv) {i : Nat} (huse : (s.shm.attachments i).inUse = true) :
    shmFindAttachmentByAddr s.shm (s.shm.attachments i).pid (s.shm.attachments i).virtBase = some i := by
  cases hfind : shmFindAttachmentByAddr s.shm (s.shm.attachments i).pid (s.shm.attachments i).virtBase with
  | none =>
      have hnone := List.find?_eq_none.mp hfind i (List.mem_range.mpr (h.slot i huse))
      simp [huse] at hnone
  | some j =>
      obtain ⟨huse', hpid, hvirt⟩ := shmFindAttachmentByAddr_some hfind
      congr 1
      by_contra hji
      have hne := h.sound.first_ne (fun heq => hji (Sum.inl.inj heq)) (range_holdings (Shm.rangeAt_slot huse'))
        (range_holdings (Shm.rangeAt_slot huse)) hpid
      exact hne (congrArg (· / 4096) hvirt)

theorem holding_free {shm : Shm} {i : Nat} (hslot : i < shmMaxAttachments) (huse : (shm.attachments i).inUse = true) (q : Nat) :
    (shm.setAttachment i { shm.attachments i with inUse := false }).holding q + (if (shm.attachments i).pid = q then 1 else 0) = shm.holding q := by
  have hupdate := tally_update (P := fun a : ShmAttachment => a.inUse = true ∧ a.pid = q) (g := shm.attachments)
    (Finset.mem_range.mpr hslot) { shm.attachments i with inUse := false }
  simpa [Shm.holding, Shm.setAttachment, huse] using hupdate

/-- A slot is freed, and its process goes to a phase outside an attach. -/
theorem Inv.freeSlot (h : s.Inv) {i : Nat} {phase : ShmPhase} (hlive : s.live p = true) (huse : (s.shm.attachments i).inUse = true)
    (hpid : (s.shm.attachments i).pid = p) (hattaching : phase.attaching = none)
    (hleft : ∀ a, phase.leaving p = some a → a = s.shm.attachments i)
    (hcounts : ∀ n, s.shm.holding p = n + 1 → phase.CountOk n (s.shm.processes p).shmAttachmentCount)
    (hsound : ((s.shm.setAttachment i { s.shm.attachments i with inUse := false }).setPhase p phase).holdings.Sound) :
    Inv { s with shm := (s.shm.setAttachment i { s.shm.attachments i with inUse := false }).setPhase p phase } := by
  have hself : ((s.shm.setAttachment i { s.shm.attachments i with inUse := false }).setPhase p phase).processes p =
      { s.shm.processes p with phase := phase } := setProcess_self _ _ _
  have hother : ∀ q ≠ p, ((s.shm.setAttachment i { s.shm.attachments i with inUse := false }).setPhase p phase).processes q = s.shm.processes q :=
    fun q hq => setProcess_of_ne hq _
  have hcursor : ∀ q, (((s.shm.setAttachment i { s.shm.attachments i with inUse := false }).setPhase p phase).processes q).shmCursor =
      (s.shm.processes q).shmCursor := setProcess_field ShmProcess.shmCursor rfl
  have hatts : ∀ j, ((s.shm.setAttachment i { s.shm.attachments i with inUse := false }).attachments j).inUse = true →
      j ≠ i ∧ (s.shm.setAttachment i { s.shm.attachments i with inUse := false }).attachments j = s.shm.attachments j := by
    intro j hj
    have hji : j ≠ i := by
      rintro rfl
      rw [setAttachment_self] at hj
      exact Bool.false_ne_true hj
    exact ⟨hji, setAttachment_of_ne hji _⟩
  apply h.of_step hlive hsound hother
  · intro k b hb
    rw [Shm.setPhase, Shm.rangeAt_setProcess] at hb
    rw [hcursor]
    by_cases hk : k = .inr p
    · rw [hk, Function.update_self] at hb
      rw [hleft b hb]
      exact h.fits _ _ (Shm.rangeAt_slot huse)
    · rw [Function.update_of_ne hk, Shm.rangeAt_setAttachment] at hb
      by_cases hki : k = .inl i
      · rw [hki, Function.update_self] at hb
        exact absurd hb (by simp)
      · rw [Function.update_of_ne hki] at hb
        exact h.fits k b hb
  · rw [hcursor]
    exact h.limit p
  · intro j hj
    obtain ⟨-, hsame⟩ := hatts j hj
    change _ ∧ s.live ((s.shm.setAttachment i { s.shm.attachments i with inUse := false }).attachments j).pid = true
    change ((s.shm.setAttachment i { s.shm.attachments i with inUse := false }).attachments j).inUse = true at hj
    rw [hsame] at hj ⊢
    exact ⟨h.slot j hj, h.owner j hj⟩
  · intro j _ hne
    have hji : j ≠ i := by
      rintro rfl
      exact hne hpid
    exact setAttachment_of_ne hji _
  · intro hne
    rw [hself] at hne
    exact absurd hattaching hne
  · intro q hq
    have hfree := holding_free (h.slot i huse) huse q
    rw [hpid, if_neg (Ne.symm hq), Nat.add_zero] at hfree
    exact hfree
  · have hfree := holding_free (h.slot i huse) huse p
    rw [hpid, if_pos rfl] at hfree
    rw [hself]
    exact hcounts _ hfree.symm

theorem Inv.attachUndo (h : s.Inv) (hlive : s.live p = true) : Inv { s with shm := shmAttachUndo s.shm p } := by
  simp only [shmAttachUndo]
  split
  · rename_i shmId virtAddr hphase
    obtain ⟨i, huse, hpid, hvirt, -⟩ := h.entering (show (s.shm.processes p).phase.entering = some virtAddr by rw [hphase]; rfl)
    have hfind := h.findByAddr_eq huse
    rw [hpid, hvirt] at hfind
    have hcountOk := h.counts p hlive
    rw [hphase] at hcountOk
    have hslot := Shm.rangeAt_slot huse
    simp only [hfind]
    have hfreed : Inv { s with shm := (s.shm.setAttachment i { s.shm.attachments i with inUse := false }).setPhase p .idle } := by
      apply h.freeSlot hlive huse hpid rfl (fun a ha => absurd ha (by simp [ShmPhase.leaving]))
      · intro n hn
        exact Nat.succ.inj (hn.symm.trans hcountOk)
      · have hrange : ((s.shm.setAttachment i { s.shm.attachments i with inUse := false }).setPhase p .idle).rangeAt =
            Function.update s.shm.rangeAt (.inl i) none := by
          rw [Shm.setPhase, Shm.rangeAt_setProcess, Shm.rangeAt_setAttachment, if_neg Bool.false_ne_true]
          apply Function.update_eq_self_iff.mpr
          rw [Function.update_of_ne Sum.inr_ne_inl, Shm.rangeAt, hphase]
          rfl
        apply Holdings.Sound.cancel h.sound (range_holdings hslot)
        · apply (h.reserving_iff hslot).mpr
          rw [hpid, hphase, hvirt]
          rfl
        · simp only [Shm.holdings, hrange, Function.update_self, Option.map_none]
        · intro l hl
          simp only [Shm.holdings, hrange, Function.update_of_ne hl]
        · change Option.map _ (Shm.processes _ (s.shm.attachments i).pid).phase.entering = none
          rw [hpid, setPhase_phase]
          rfl
        · intro q hq
          change Option.map _ (Shm.processes _ q).phase.entering = Option.map _ (s.shm.processes q).phase.entering
          rw [Shm.setPhase, setProcess_of_ne (fun hqp => hq (hqp.trans hpid.symm))]
          rfl
        · exact funext fun q => setPhase_pml4Phys _ p .idle q
        · rfl
    exact hfreed.congr ((Shm.SameRanges.dropRef _ shmId).setPhase p .idle)
  · exact h

/-- A range is moved from the table to the detach of its process. -/
theorem Inv.leave (h : s.Inv) {i : Nat} {needsReap : Bool} {phase : ShmPhase} (hlive : s.live p = true) (hidle : (s.shm.processes p).phase = .idle)
    (huse : (s.shm.attachments i).inUse = true) (hpid : (s.shm.attachments i).pid = p)
    (hphase : .detachUnmapping (s.shm.attachments i).shmId (s.shm.attachments i).virtBase (s.shm.attachments i).pageCount needsReap = phase) :
    Inv { s with shm := (s.shm.setAttachment i { s.shm.attachments i with inUse := false }).setPhase p phase } := by
  have hcountOk := h.counts p hlive
  rw [hidle] at hcountOk
  have hslot := Shm.rangeAt_slot huse
  have hleft : phase.leaving p = some (s.shm.attachments i) := by
    rw [← hphase, ShmPhase.leaving, ← huse, ← hpid]
  apply h.freeSlot hlive huse hpid (hphase ▸ rfl)
  · intro a ha
    rw [hleft] at ha
    exact (Option.some.inj ha).symm
  · intro n hn
    rw [← hphase]
    exact Or.inl (hcountOk.symm.trans hn)
  · have hrange : ((s.shm.setAttachment i { s.shm.attachments i with inUse := false }).setPhase p phase).rangeAt =
        Function.update (Function.update s.shm.rangeAt (.inl i) none) (.inr p) (some (s.shm.attachments i)) := by
      rw [Shm.setPhase, Shm.rangeAt_setProcess, Shm.rangeAt_setAttachment, if_neg Bool.false_ne_true, ← hleft]
    have hkl : (Sum.inl i : Nat ⊕ Nat) ≠ .inr p := Sum.inl_ne_inr
    apply Holdings.Sound.move h.sound hkl (range_holdings hslot)
    · change Option.map _ ((s.shm.processes p).phase.leaving p) = none
      rw [hidle]
      rfl
    · simp only [Shm.holdings, hrange, Function.update_of_ne hkl, Function.update_self, Option.map_none]
    · simp only [Shm.holdings, hrange, Function.update_self, Option.map_some]
    · intro m hmk hml
      simp only [Shm.holdings, hrange, Function.update_of_ne hml, Function.update_of_ne hmk]
    · funext q
      change Option.map _ (Shm.processes _ q).phase.entering = Option.map _ (s.shm.processes q).phase.entering
      by_cases hq : q = p
      · rw [hq, setPhase_phase, hidle, ← hphase]
        rfl
      · rw [Shm.setPhase, setProcess_of_ne hq]
        rfl
    · exact funext fun q => setPhase_pml4Phys _ p phase q
    · rfl

theorem Inv.detachBegin (h : s.Inv) (virtAddr : Nat) (hlive : s.live p = true) (hidle : (s.shm.processes p).phase = .idle) :
    Inv { s with shm := shmDetachBegin s.shm p virtAddr } := by
  simp only [shmDetachBegin]
  split
  · exact h
  split
  · exact h
  rename_i i hfind
  obtain ⟨huse, hpid, rfl⟩ := shmFindAttachmentByAddr_some hfind
  exact (h.leave hlive hidle huse hpid rfl).congr ((Shm.SameRanges.dropRef _ _).setPhase p _)

theorem fits_contains {cursor : Nat} (hfits : a.Fits cursor) (hcursor : cursor ≤ vmSpaceShmLimit) :
    vmSpaceContainsUserRange a.virtBase a.pageCount = true := by
  have hlo := hfits.base
  have hhi := hfits.below
  have hsize := hfits.size
  simp only [vmSpaceShmBase, vmSpaceShmLimit] at hlo hcursor
  have hspan : wrap64 (a.pageCount * 4096) = a.pageCount * 4096 := Nat.mod_eq_of_lt (by omega)
  rw [vmSpaceContainsUserRange, hspan, Bool.and_eq_true]
  refine ⟨(pagingIsPageAligned_iff _).mpr hfits.aligned, (pagingRangeIsUser_iff (by omega) (by omega)).mpr ⟨by omega, ?_, ?_⟩⟩
  · simp only [pagingUserVaMin]
    omega
  · simp only [pagingUserVaMax]
    omega

/-- A range that is mapped is unmapped whole. -/
theorem Inv.mapped (h : s.Inv) {k : Nat ⊕ Nat} (hk : s.shm.rangeAt k = some a) (hdone : (s.shm.processes a.pid).phase.entering ≠ some a.virtBase)
    {page : Nat} (hpage : a.Covers page) : (s.shm.pageTables (s.shm.processes a.pid).pml4Phys page).isSome = true := by
  have hmapped := h.sound.mapped k _ (range_holdings hk) (fun heq => hdone ((h.reserving_iff hk).mp heq)) page hpage
  obtain ⟨e, he, -⟩ := Option.map_eq_some_iff.mp hmapped
  exact Option.isSome_of_eq_some he

theorem unmap_eq (shm : Shm) (pid : Nat) (hsize : a.pageCount ≠ 0) (hrange : vmSpaceContainsUserRange a.virtBase a.pageCount = true)
    (hmapped : ∀ page, a.Covers page → (shm.pageTables (shm.processes pid).pml4Phys page).isSome = true) (others : Bool) :
    vmSpaceUnmapUserPages shm pid a.virtBase a.pageCount others =
      shm.setPages (shm.processes pid).pml4Phys a.virtBase a.pageCount fun _ => none := by
  have hall : ((List.range a.pageCount).all fun i => pageMapped shm (shm.processes pid).pml4Phys (pageNumber a.virtBase i)) = true := by
    rw [List.all_eq_true]
    intro i hi
    have hlt := List.mem_range.mp hi
    exact hmapped (pageNumber a.virtBase i) ⟨Nat.le_add_right _ _, Nat.add_lt_add_left hlt _⟩
  simp [vmSpaceUnmapUserPages, hsize, hrange, hall]

/-- The range of a detach is unmapped. -/
theorem Inv.unmapDone (h : s.Inv) {x : ShmProcess} (hlive : s.live p = true) (ha : s.shm.rangeAt (.inr p) = some a)
    (hpml4 : x.pml4Phys = (s.shm.processes p).pml4Phys) (hattaching : x.phase.attaching = none) (hentering : x.phase.entering = none)
    (hleaving : x.phase.leaving p = none) (hlimit : x.shmCursor ≤ vmSpaceShmLimit)
    (hcursor : x.shmCursor = (s.shm.processes p).shmCursor ∨ s.shm.holding p = 0) (hcount : x.phase.CountOk (s.shm.holding p) x.shmAttachmentCount) :
    Inv { s with shm := (s.shm.setPages (s.shm.processes p).pml4Phys a.virtBase a.pageCount fun _ => none).setProcess p x } := by
  obtain ⟨hpid, -, hnone⟩ := ShmPhase.leaving_some ha
  have hother : ∀ q ≠ p, ((s.shm.setPages (s.shm.processes p).pml4Phys a.virtBase a.pageCount fun _ => none).setProcess p x).processes q =
      s.shm.processes q := fun q hq => setProcess_of_ne hq x
  have hself : ((s.shm.setPages (s.shm.processes p).pml4Phys a.virtBase a.pageCount fun _ => none).setProcess p x).processes p = x := setProcess_self _ _ _
  have hrange : ((s.shm.setPages (s.shm.processes p).pml4Phys a.virtBase a.pageCount fun _ => none).setProcess p x).rangeAt =
      Function.update s.shm.rangeAt (.inr p) none := by
    rw [Shm.rangeAt_setProcess, hleaving]
    rfl
  have hold : ∀ k b, ((s.shm.setPages (s.shm.processes p).pml4Phys a.virtBase a.pageCount fun _ => none).setProcess p x).rangeAt k = some b →
      k ≠ .inr p ∧ s.shm.rangeAt k = some b := by
    intro k b hb
    rw [hrange] at hb
    by_cases hk : k = .inr p
    · rw [hk, Function.update_self] at hb
      exact absurd hb (by simp)
    · rw [Function.update_of_ne hk] at hb
      exact ⟨hk, hb⟩
  have hreserving : ((s.shm.setPages (s.shm.processes p).pml4Phys a.virtBase a.pageCount fun _ => none).setProcess p x).holdings.reserving =
      s.shm.holdings.reserving := by
    funext q
    change Option.map _ (Shm.processes _ q).phase.entering = Option.map _ (s.shm.processes q).phase.entering
    by_cases hq : q = p
    · rw [hq, hself, hentering, hnone]
    · rw [hother q hq]
  apply h.of_step hlive _ hother _ _ (fun j hj => ⟨h.slot j hj, h.owner j hj⟩) (fun _ _ _ => rfl) _ (fun _ _ => rfl)
  · rw [hself]
    exact hcount
  · apply Holdings.Sound.release (p := p) h.sound fun k => k = .inr p
    · rintro k r hr rfl -
      rw [range_holdings ha] at hr
      rw [← Option.some.inj hr]
      exact hpid
    · intro k r hr
      obtain ⟨b, hb, rfl⟩ := Option.map_eq_some_iff.mp hr
      obtain ⟨hk, hb⟩ := hold k b hb
      exact ⟨range_holdings hb, hk⟩
    · intro k r hr hk
      obtain ⟨b, hb, rfl⟩ := Option.map_eq_some_iff.mp hr
      apply range_holdings
      rw [hrange, Function.update_of_ne hk, hb]
    · intro k r _
      rw [hreserving]
    · exact funext fun q => setProcess_field ShmProcess.pml4Phys hpml4 q
    · intro t page y hy
      change Option.map ShmPage.pid ((s.shm.setPages (s.shm.processes p).pml4Phys a.virtBase a.pageCount fun _ => none).pageTables t page) = some y at hy
      by_cases hin : t = (s.shm.processes p).pml4Phys ∧ a.Covers page
      · rw [hin.1, setPages_inside hin.2] at hy
        exact absurd hy (by simp)
      · rw [setPages_outside hin] at hy
        exact hy
    · rintro k r hr rfl - page hcovers
      rw [range_holdings ha] at hr
      obtain rfl := Option.some.inj hr
      change Option.map ShmPage.pid ((s.shm.setPages (s.shm.processes p).pml4Phys a.virtBase a.pageCount fun _ => none).pageTables
        (s.shm.processes p).pml4Phys page) = none
      rw [setPages_inside (show a.Covers page from hcovers)]
      rfl
    · intro t page hout
      change Option.map ShmPage.pid ((s.shm.setPages (s.shm.processes p).pml4Phys a.virtBase a.pageCount fun _ => none).pageTables t page) =
        Option.map ShmPage.pid (s.shm.pageTables t page)
      rw [setPages_outside]
      rintro ⟨rfl, hcovers⟩
      exact hout (.inr p) a.pageRange (range_holdings ha) rfl (by rw [← hpid]; rfl) hcovers
  · intro k b hb
    obtain ⟨hk, hb⟩ := hold k b hb
    by_cases hbp : b.pid = p
    · have hpos : s.shm.holding p ≠ 0 := by
        cases k with
        | inl j =>
            obtain ⟨rfl, huse⟩ := Shm.rangeAt_inl hb
            exact Nat.pos_iff_ne_zero.mp (tally_pos_iff.mpr ⟨j, Finset.mem_range.mpr (h.slot j huse), huse, hbp⟩)
        | inr q => exact absurd (congrArg Sum.inr ((ShmPhase.leaving_some hb).1.symm.trans hbp)) hk
      have hfits := h.fits k b hb
      rw [hbp] at hfits ⊢
      rw [hself, hcursor.resolve_right hpos]
      exact hfits
    · rw [hother _ hbp]
      exact h.fits k b hb
  · rwa [hself]
  · intro hne
    rw [hself] at hne
    exact absurd hattaching hne

theorem shmCursorStart_le (pid : Nat) : shmCursorStart pid ≤ vmSpaceShmLimit := by
  simp only [shmCursorStart, vmSpaceShmBase, vmSpaceShmLimit]
  omega

theorem Inv.detachUnmap (h : s.Inv) (others : Bool) (hlive : s.live p = true) : Inv { s with shm := shmDetachUnmap s.shm p others } := by
  simp only [shmDetachUnmap]
  split
  · rename_i shmId virtAddr pageCount needsReap hphase
    have hleaving : s.shm.rangeAt (.inr p) = some ⟨true, shmId, p, virtAddr, pageCount⟩ := by
      rw [Shm.rangeAt, hphase]
      rfl
    have hfits := h.fits _ _ hleaving
    have hunmap := unmap_eq s.shm p hfits.size (fits_contains hfits (h.limit p))
      (fun page hpage => h.mapped hleaving (by rw [hphase]; exact (Option.some_ne_none _).symm) hpage) others
    have hcountOk : (s.shm.processes p).shmAttachmentCount = s.shm.holding p + 1 ∨
        s.shm.holding p = 0 ∧ (s.shm.processes p).shmAttachmentCount = 0 := by
      have hok := h.counts p hlive
      rwa [hphase] at hok
    have hcount : s.shm.holding p = if 0 < (s.shm.processes p).shmAttachmentCount then (s.shm.processes p).shmAttachmentCount - 1
        else (s.shm.processes p).shmAttachmentCount := by
      split <;> omega
    simp only at hunmap
    have hprocesses : (s.shm.setPages (s.shm.processes p).pml4Phys virtAddr pageCount fun _ => none).processes = s.shm.processes := rfl
    rw [hunmap]
    simp only [hprocesses, ← hcount]
    refine h.unmapDone hlive hleaving rfl ?_ ?_ ?_ ?_ ?_ ?_
    · cases needsReap <;> rfl
    · cases needsReap <;> rfl
    · cases needsReap <;> rfl
    · simp only
      split
      · exact shmCursorStart_le p
      · exact h.limit p
    · simp only
      split
      · rename_i hzero
        exact Or.inr hzero
      · exact Or.inl rfl
    · cases needsReap <;> rfl
  · exact h

theorem Inv.detachReap (h : s.Inv) (hlive : s.live p = true) : Inv { s with shm := shmDetachReap s.shm p } := by
  simp only [shmDetachReap]
  split
  · rename_i shmId hphase
    have hcountOk := h.counts p hlive
    rw [hphase] at hcountOk
    have hidle : Inv { s with shm := s.shm.setPhase p .idle } :=
      h.setProcess rfl (by rw [hphase]; rfl) (by rw [hphase]; rfl) (fun _ _ _ _ => le_rfl) (h.limit p) (fun hne => absurd rfl hne)
        (fun _ => hcountOk) (Or.inl hlive)
    split
    · rename_i r _
      exact hidle.congr ((Shm.SameRanges.reap s.shm r).setPhase p .idle)
    · exact hidle
  · exact h

/-! ### Exit -/

theorem vmSpaceUnmapUserPages_cases (shm : Shm) (pid virtAddr pageCount : Nat) (others : Bool) :
    vmSpaceUnmapUserPages shm pid virtAddr pageCount others = shm ∨
      vmSpaceUnmapUserPages shm pid virtAddr pageCount others = shm.setPages (shm.processes pid).pml4Phys virtAddr pageCount fun _ => none := by
  simp only [vmSpaceUnmapUserPages]
  split
  · exact Or.inl rfl
  split
  · exact Or.inr rfl
  · exact Or.inl rfl

theorem unmap_sub {shm : Shm} {pid page t : Nat} {x : ShmPage} (others : Bool)
    (h : (vmSpaceUnmapUserPages shm pid a.virtBase a.pageCount others).pageTables t page = some x) : shm.pageTables t page = some x := by
  rcases vmSpaceUnmapUserPages_cases shm pid a.virtBase a.pageCount others with hsame | hcleared
  · rwa [hsame] at h
  · rw [hcleared] at h
    by_cases hin : t = (shm.processes pid).pml4Phys ∧ a.Covers page
    · rw [hin.1, setPages_inside hin.2] at h
      exact absurd h (by simp)
    · rwa [setPages_outside hin] at h

theorem unmap_outside {shm : Shm} {pid page t : Nat} (others : Bool) (hout : ¬ (t = (shm.processes pid).pml4Phys ∧ a.Covers page)) :
    (vmSpaceUnmapUserPages shm pid a.virtBase a.pageCount others).pageTables t page = shm.pageTables t page := by
  rcases vmSpaceUnmapUserPages_cases shm pid a.virtBase a.pageCount others with hsame | hcleared
  · rw [hsame]
  · rw [hcleared, setPages_outside hout]

/-- A range is to be unmapped whole. -/
def Whole (shm : Shm) (pid : Nat) (a : ShmAttachment) : Prop :=
  a.pageCount ≠ 0 ∧ vmSpaceContainsUserRange a.virtBase a.pageCount = true ∧
    ∀ page, a.Covers page → (shm.pageTables (shm.processes pid).pml4Phys page).isSome = true

/-- The unmaps of a cleanup clear pages of the ranges on its list only, and all pages of those that are whole. -/
theorem cleanupUnmaps {shm shm' : Shm} {todo : List ShmAttachment} {ids : List Int} {n : Nat} (others : Bool)
    (hphase : (shm.processes p).phase = .cleaning p todo ids) (hlength : todo.length ≤ n)
    (hapart : todo.Pairwise fun a b => ∀ page, a.Covers page → ¬ b.Covers page) (hshm' : shm' = (fun s => shmCleanupUnmap s p others)^[n] shm) :
    shm'.attachments = shm.attachments ∧ (∀ q, q ≠ p → shm'.processes q = shm.processes q) ∧
      shm'.processes p = { shm.processes p with phase := .cleaning p [] ids } ∧
      (∀ t page x, shm'.pageTables t page = some x → shm.pageTables t page = some x) ∧
      (∀ t page, (∀ a ∈ todo, t = (shm.processes p).pml4Phys → ¬ a.Covers page) → shm'.pageTables t page = shm.pageTables t page) ∧
      ∀ a ∈ todo, Whole shm p a → ∀ page, a.Covers page → shm'.pageTables (shm.processes p).pml4Phys page = none := by
  induction n generalizing shm todo with
  | zero =>
      obtain rfl := List.length_eq_zero_iff.mp (Nat.le_zero.mp hlength)
      rw [Function.iterate_zero_apply] at hshm'
      rw [hshm', ← hphase]
      exact ⟨rfl, fun _ _ => rfl, rfl, fun _ _ _ h => h, fun _ _ _ => rfl, fun a ha => absurd ha List.not_mem_nil⟩
  | succ n ih =>
      rw [Function.iterate_succ_apply] at hshm'
      cases todo with
      | nil =>
          have hstay : shmCleanupUnmap shm p others = shm := by simp only [shmCleanupUnmap, hphase]
          rw [hstay] at hshm'
          exact ih hphase (Nat.zero_le n) hapart hshm'
      | cons b todo =>
          obtain ⟨hfar, hrest⟩ := List.pairwise_cons.mp hapart
          have hstep : shmCleanupUnmap shm p others =
              (vmSpaceUnmapUserPages shm p b.virtBase b.pageCount others).setPhase p (.cleaning p todo ids) := by
            simp only [shmCleanupUnmap, hphase]
          obtain ⟨hprocesses, hatts⟩ := vmSpaceUnmapUserPages_frame shm p b.virtBase b.pageCount others
          rw [hstep] at hshm'
          have hpml4 : (((vmSpaceUnmapUserPages shm p b.virtBase b.pageCount others).setPhase p (.cleaning p todo ids)).processes p).pml4Phys =
              (shm.processes p).pml4Phys := by
            rw [setPhase_pml4Phys, hprocesses]
          obtain ⟨hatts', hothers, hself, hsub, hout, hclear⟩ := ih (setPhase_phase _ _ _) (Nat.le_of_succ_le_succ hlength) hrest hshm'
          rw [hpml4] at hout hclear
          refine ⟨hatts'.trans hatts, fun q hq => ?_, ?_, fun t page x hx => unmap_sub others (hsub t page x hx), fun t page hnone => ?_,
            fun a ha hwhole page hpage => ?_⟩
          · rw [hothers q hq, Shm.setPhase, setProcess_of_ne hq, hprocesses]
          · rw [hself, Shm.setPhase, setProcess_self, hprocesses]
          · rw [hout t page fun a ha => hnone a (List.mem_cons_of_mem b ha)]
            exact unmap_outside others fun hin => hnone b List.mem_cons_self hin.1 hin.2
          · rcases List.mem_cons.mp ha with rfl | hlater
            · -- its pages are cleared now and stay so
              cases hmapped : shm'.pageTables (shm.processes p).pml4Phys page with
              | none => rfl
              | some x =>
                  have hstill := hsub _ _ _ hmapped
                  change (vmSpaceUnmapUserPages shm p a.virtBase a.pageCount others).pageTables (shm.processes p).pml4Phys page = some x at hstill
                  rw [unmap_eq shm p hwhole.1 hwhole.2.1 hwhole.2.2, setPages_inside hpage] at hstill
                  exact hstill.symm
            · refine hclear a hlater ⟨hwhole.1, hwhole.2.1, fun page' hpage' => ?_⟩ page hpage
              rw [hpml4]
              change ((vmSpaceUnmapUserPages shm p b.virtBase b.pageCount others).pageTables (shm.processes p).pml4Phys page').isSome = true
              rw [unmap_outside others fun hin => hfar a hlater page' hin.2 hpage']
              exact hwhole.2.2 page' hpage'

/-- What a cleanup leaves of the ranges of its process. -/
structure Cleaned (shm shm' : Shm) (p : Nat) : Prop where
  attachments : ∀ j, shm'.attachments j = if j ∈ attachmentsOf shm p then { shm.attachments j with inUse := false } else shm.attachments j
  others : ∀ q, q ≠ p → shm'.processes q = shm.processes q
  self : shm'.processes p = ⟨(shm.processes p).pml4Phys, shmCursorStart p, 0, .idle⟩
  sub : ∀ t page x, shm'.pageTables t page = some x → shm.pageTables t page = some x
  outside : ∀ t page, (∀ i ∈ attachmentsOf shm p, t = (shm.processes p).pml4Phys → ¬ (shm.attachments i).Covers page) →
    shm'.pageTables t page = shm.pageTables t page
  clear : ∀ i ∈ attachmentsOf shm p, Whole shm p (shm.attachments i) → ∀ page, (shm.attachments i).Covers page →
    shm'.pageTables (shm.processes p).pml4Phys page = none

theorem Inv.cleaned (h : s.Inv) (p : Nat) (others : Bool) : Cleaned s.shm (shmProcessCleanup s.shm p p others) p := by
  obtain ⟨hprocesses, htables, hatts⟩ := cleanupDrops_frame s.shm (attachmentsOf_nodup s.shm p)
  have hlength : ((attachmentsOf s.shm p).map s.shm.attachments).length ≤ shmMaxAttachments := by
    rw [List.length_map, attachmentsOf]
    have hle := List.length_filter_le (fun i => (s.shm.attachments i).inUse && decide ((s.shm.attachments i).pid = p)) (List.range shmMaxAttachments)
    rwa [List.length_range] at hle
  have hapart : ((attachmentsOf s.shm p).map s.shm.attachments).Pairwise fun a b => ∀ page, a.Covers page → ¬ b.Covers page := by
    rw [List.pairwise_map]
    apply (attachmentsOf_nodup s.shm p).pairwise_of_forall_ne
    intro i hi j hj hij
    obtain ⟨-, huse, hpid⟩ := mem_attachmentsOf.mp hi
    obtain ⟨-, huse', hpid'⟩ := mem_attachmentsOf.mp hj
    exact h.sound.apart (.inl i) (.inl j) _ _ (fun heq => hij (Sum.inl.inj heq)) (range_holdings (Shm.rangeAt_slot huse))
      (range_holdings (Shm.rangeAt_slot huse')) (by rw [ShmAttachment.pageRange, ShmAttachment.pageRange, hpid, hpid'])
  generalize hphase : ShmPhase.cleaning p ((attachmentsOf s.shm p).map s.shm.attachments)
    (((attachmentsOf s.shm p).map s.shm.attachments).map ShmAttachment.shmId) = phase
  generalize hbegin : shmCleanupBegin s.shm p p = begun
  have hbegun : begun = (cleanupDisown ((attachmentsOf s.shm p).foldl cleanupDrop s.shm) p).setPhase p phase := by
    rw [← hbegin, ← hphase]
    rfl
  have hbegunSelf : begun.processes p = { s.shm.processes p with phase := phase } := by
    rw [hbegun, Shm.setPhase, setProcess_self]
    exact congrArg (fun processes : Nat → ShmProcess => { processes p with phase := phase }) hprocesses
  have hbegunOther : ∀ q, q ≠ p → begun.processes q = s.shm.processes q := by
    intro q hq
    rw [hbegun, Shm.setPhase, setProcess_of_ne hq]
    exact congrFun hprocesses q
  have hbegunAtts : ∀ j, begun.attachments j = if j ∈ attachmentsOf s.shm p then { s.shm.attachments j with inUse := false } else s.shm.attachments j := by
    intro j
    rw [hbegun]
    exact hatts j
  have hbegunTables : begun.pageTables = s.shm.pageTables := by
    rw [hbegun]
    exact htables
  generalize hunmapped : (fun s => shmCleanupUnmap s p others)^[shmMaxAttachments] begun = unmapped
  obtain ⟨hunAtts, hunOther, hunSelf, hsub, hout, hclear⟩ :=
    cleanupUnmaps others (by rw [hbegunSelf, ← hphase]) hlength hapart hunmapped.symm
  have hpml4 : (begun.processes p).pml4Phys = (s.shm.processes p).pml4Phys := by rw [hbegunSelf]
  rw [hpml4, hbegunTables] at hout
  rw [hpml4] at hclear
  rw [hbegunTables] at hsub
  have hunPhase : (unmapped.processes p).phase = .cleaning p [] (((attachmentsOf s.shm p).map s.shm.attachments).map ShmAttachment.shmId) := by rw [hunSelf]
  -- the second section only resets the process and reaps regions
  generalize hids : ((attachmentsOf s.shm p).map s.shm.attachments).map ShmAttachment.shmId = ids at *
  generalize hreset : unmapped.setProcess p { unmapped.processes p with shmAttachmentCount := 0, shmCursor := shmCursorStart p } = reset
  have hfinal : shmProcessCleanup s.shm p p others =
      ((List.range shmMaxRegions).foldl cleanupSweep (ids.foldl cleanupReap reset)).setPhase p .idle := by
    rw [shmProcessCleanup, hbegin, hunmapped]
    simp only [shmCleanupFinish, hunPhase, ← hreset]
  have hsame : (reset.setPhase p .idle).SameRanges (shmProcessCleanup s.shm p p others) := by
    rw [hfinal]
    exact ((Shm.SameRanges.foldl Shm.SameRanges.cleanupReap ids reset).trans
      (Shm.SameRanges.foldl Shm.SameRanges.cleanupSweep (List.range shmMaxRegions) _)).setPhase p .idle
  refine ⟨fun j => ?_, fun q hq => ?_, ?_, fun t page x hx => ?_, fun t page hnone => ?_, fun i hi hwhole page hpage => ?_⟩
  · rw [hsame.attachments, ← hreset]
    exact (congrFun hunAtts j).trans (hbegunAtts j)
  · rw [hsame.processes, Shm.setPhase, setProcess_of_ne hq, ← hreset, setProcess_of_ne hq, hunOther q hq, hbegunOther q hq]
  · rw [hsame.processes, Shm.setPhase, setProcess_self, ← hreset, setProcess_self, hunSelf, hbegunSelf]
  · rw [hsame.pageTables, ← hreset] at hx
    exact hsub t page x hx
  · rw [hsame.pageTables, ← hreset]
    apply hout t page
    intro a ha
    obtain ⟨i, hi, rfl⟩ := List.mem_map.mp ha
    exact hnone i hi
  · rw [hsame.pageTables, ← hreset]
    apply hclear _ (List.mem_map_of_mem hi) _ page hpage
    refine ⟨hwhole.1, hwhole.2.1, fun page' hpage' => ?_⟩
    rw [hpml4, hbegunTables]
    exact hwhole.2.2 page' hpage'

namespace Cleaned

/-- What is still attached was and is the attachment of another process. -/
theorem left (hcleaned : Cleaned s.shm shm p) (h : s.Inv) {j : Nat} (hj : (shm.attachments j).inUse = true) :
    shm.attachments j = s.shm.attachments j ∧ (s.shm.attachments j).pid ≠ p := by
  rw [hcleaned.attachments] at hj ⊢
  split at hj
  · exact absurd hj Bool.false_ne_true
  · rename_i hout
    exact ⟨if_neg hout, fun hpid => hout (mem_attachmentsOf.mpr ⟨h.slot j hj, hj, hpid⟩)⟩

theorem kept (hcleaned : Cleaned s.shm shm p) {j : Nat} (hj : (s.shm.attachments j).pid ≠ p) : shm.attachments j = s.shm.attachments j := by
  rw [hcleaned.attachments, if_neg]
  exact fun hin => hj (mem_attachmentsOf.mp hin).2.2

/-- The ranges behind the cleanup are those of the other processes. -/
theorem range_old (hcleaned : Cleaned s.shm shm p) (h : s.Inv) {k : Nat ⊕ Nat} (ha : shm.rangeAt k = some a) :
    s.shm.rangeAt k = some a ∧ a.pid ≠ p := by
  cases k with
  | inl j =>
      obtain ⟨rfl, huse⟩ := Shm.rangeAt_inl ha
      obtain ⟨hsame, hpid⟩ := hcleaned.left h huse
      rw [hsame] at huse ⊢
      exact ⟨Shm.rangeAt_slot huse, hpid⟩
  | inr q =>
      by_cases hq : q = p
      · rw [hq, Shm.rangeAt, hcleaned.self] at ha
        exact absurd ha (by simp [ShmPhase.leaving])
      · have ha' : s.shm.rangeAt (.inr q) = some a := by
          rw [Shm.rangeAt, hcleaned.others q hq] at ha
          exact ha
        refine ⟨ha', ?_⟩
        rw [(ShmPhase.leaving_some ha').1]
        exact hq

theorem range_new (hcleaned : Cleaned s.shm shm p) {k : Nat ⊕ Nat} (ha : s.shm.rangeAt k = some a) (hpid : a.pid ≠ p) : shm.rangeAt k = some a := by
  cases k with
  | inl j =>
      obtain ⟨rfl, huse⟩ := Shm.rangeAt_inl ha
      rw [← hcleaned.kept hpid] at huse ⊢
      exact Shm.rangeAt_slot huse
  | inr q =>
      have hq : q ≠ p := fun hq => hpid ((ShmPhase.leaving_some ha).1.trans hq)
      rw [Shm.rangeAt, hcleaned.others q hq]
      exact ha

theorem holding (hcleaned : Cleaned s.shm shm p) (h : s.Inv) {q : Nat} (hq : q ≠ p) : shm.holding q = s.shm.holding q := by
  apply tally_congr
  intro j _
  constructor
  · rintro ⟨huse, hpid⟩
    obtain ⟨hsame, -⟩ := hcleaned.left h huse
    exact ⟨hsame ▸ huse, hsame ▸ hpid⟩
  · rintro ⟨huse, hpid⟩
    rw [hcleaned.kept (hpid ▸ hq)]
    exact ⟨huse, hpid⟩

end Cleaned

/-- A range of a process that is not on its way out of a detachment is one of its attachments. -/
theorem Inv.range_attached (h : s.Inv) (hroom : (s.shm.processes p).phase.leaving p = none) {k : Nat ⊕ Nat} (ha : s.shm.rangeAt k = some a)
    (hpid : a.pid = p) : ∃ i ∈ attachmentsOf s.shm p, s.shm.attachments i = a := by
  cases k with
  | inl j =>
      obtain ⟨rfl, huse⟩ := Shm.rangeAt_inl ha
      exact ⟨j, mem_attachmentsOf.mpr ⟨h.slot j huse, huse, hpid⟩, rfl⟩
  | inr q =>
      obtain rfl := (ShmPhase.leaving_some ha).1.symm.trans hpid
      rw [Shm.rangeAt, hroom] at ha
      exact absurd ha (by simp)

/-- A cleanup releases the ranges of its process. -/
theorem Cleaned.sound (hcleaned : Cleaned s.shm shm p) (h : s.Inv) (hroom : (s.shm.processes p).phase.leaving p = none) :
    shm.holdings.Sound := by
  apply Holdings.Sound.release (p := p) h.sound fun k => ∃ b, s.shm.rangeAt k = some b ∧ b.pid = p
  · rintro k r hr ⟨b, hb, hbp⟩ -
    rw [range_holdings hb] at hr
    rw [← Option.some.inj hr]
    exact hbp
  · intro k r hr
    obtain ⟨b, hb, rfl⟩ := Option.map_eq_some_iff.mp hr
    obtain ⟨hb, hbp⟩ := hcleaned.range_old h hb
    refine ⟨range_holdings hb, ?_⟩
    rintro ⟨c, hc, hcp⟩
    rw [hb] at hc
    exact hbp (Option.some.inj hc ▸ hcp)
  · intro k r hr hstays
    obtain ⟨b, hb, rfl⟩ := Option.map_eq_some_iff.mp hr
    exact range_holdings (hcleaned.range_new hb fun hbp => hstays ⟨b, hb, hbp⟩)
  · intro k r hr
    obtain ⟨b, hb, rfl⟩ := Option.map_eq_some_iff.mp hr
    change Option.map _ (shm.processes b.pid).phase.entering = Option.map _ (s.shm.processes b.pid).phase.entering
    rw [hcleaned.others _ (hcleaned.range_old h hb).2]
  · funext q
    change (shm.processes q).pml4Phys = (s.shm.processes q).pml4Phys
    by_cases hq : q = p
    · rw [hq, hcleaned.self]
    · rw [hcleaned.others q hq]
  · intro t page x hx
    obtain ⟨e, he, rfl⟩ := Option.map_eq_some_iff.mp hx
    change Option.map ShmPage.pid (s.shm.pageTables t page) = some e.pid
    rw [hcleaned.sub t page e he]
    rfl
  · rintro k r hr ⟨b, hb, hbp⟩ hdone page hcovers
    rw [range_holdings hb] at hr
    obtain rfl := Option.some.inj hr
    obtain ⟨i, hi, hib⟩ := h.range_attached hroom hb hbp
    have hfits := h.fits k b hb
    change Option.map ShmPage.pid (shm.pageTables (s.shm.processes p).pml4Phys page) = none
    rw [hcleaned.clear i hi _ page (hib ▸ hcovers)]
    · rfl
    · rw [hib]
      refine ⟨hfits.size, fits_contains hfits (h.limit _), fun page' hpage' => ?_⟩
      rw [← hbp]
      exact h.mapped hb (fun heq => hdone ((h.reserving_iff hb).mpr heq)) hpage'
  · intro t page hout
    change Option.map ShmPage.pid (shm.pageTables t page) = Option.map ShmPage.pid (s.shm.pageTables t page)
    rw [hcleaned.outside]
    intro i hi ht hcovers
    obtain ⟨-, huse, hpid⟩ := mem_attachmentsOf.mp hi
    refine hout (.inl i) _ (range_holdings (Shm.rangeAt_slot huse)) ⟨_, Shm.rangeAt_slot huse, hpid⟩ ?_ hcovers
    rw [ht, ← hpid]
    rfl

theorem Inv.exit (h : s.Inv) (others : Bool) (hroom : (s.shm.processes p).phase.leaving p = none) : Inv (markZombie s p others) := by
  rw [markZombie]
  split
  swap
  · exact h
  rename_i hlive
  have hcleaned := h.cleaned p others
  generalize shmProcessCleanup s.shm p p others = shm at hcleaned ⊢
  have hliving : ∀ q, Function.update s.live p false q = true → q ≠ p ∧ s.live q = true := by
    intro q hq
    rwa [Function.update_apply, ite_eq_iff, or_iff_right (by simp)] at hq
  refine ⟨hcleaned.sound h hroom, fun k b hb => ?_, fun q => ?_, fun j hj => ?_, fun j hj => ?_, fun q hq => ?_, fun q hq => ?_, fun q hq => ?_,
    fun q hq => ?_⟩
  · obtain ⟨hb, hbp⟩ := hcleaned.range_old h hb
    change b.Fits (shm.processes b.pid).shmCursor
    rw [hcleaned.others _ hbp]
    exact h.fits k b hb
  · change (shm.processes q).shmCursor ≤ vmSpaceShmLimit
    by_cases hq : q = p
    · rw [hq, hcleaned.self]
      exact shmCursorStart_le p
    · rw [hcleaned.others q hq]
      exact h.limit q
  · exact h.slot j ((hcleaned.left h hj).1 ▸ hj)
  · change Function.update s.live p false (shm.attachments j).pid = true
    change (shm.attachments j).inUse = true at hj
    obtain ⟨hsame, hpid⟩ := hcleaned.left h hj
    rw [hsame] at hj ⊢
    rw [Function.update_of_ne hpid]
    exact h.owner j hj
  · change (shm.processes q).phase.attaching ≠ none at hq
    change ∃ i, (shm.processes q).phase.Entered q (shm.attachments i)
    by_cases hqp : q = p
    · rw [hqp, hcleaned.self] at hq
      exact absurd rfl hq
    · rw [hcleaned.others q hqp] at hq ⊢
      obtain ⟨i, hi⟩ := h.entered q hq
      rw [← hcleaned.kept (hi.entering.2.1 ▸ hqp)] at hi
      exact ⟨i, hi⟩
  · change (shm.processes q).phase.CountOk (shm.holding q) (shm.processes q).shmAttachmentCount
    obtain ⟨hqp, hq⟩ := hliving q hq
    rw [hcleaned.others q hqp, hcleaned.holding h hqp]
    exact h.counts q hq
  · change (shm.processes q).phase = .idle
    change Function.update s.live p false q = false at hq
    by_cases hqp : q = p
    · rw [hqp, hcleaned.self]
    · rw [Function.update_of_ne hqp] at hq
      rw [hcleaned.others q hqp]
      exact h.quiet q hq
  · obtain ⟨-, hq⟩ := hliving q hq
    exact h.pids q hq

/-! ### Creation -/

theorem Inv.createProcess (h : s.Inv) (parent : Nat) (stack : Bool) (hroom : s.nextPid < 2 ^ 32 - 1) : Inv (createKernelProcess s parent stack) := by
  have hnext : wrap32 (s.nextPid + 1) = s.nextPid + 1 := Nat.mod_eq_of_lt (by omega)
  simp only [createKernelProcess, hnext]
  split
  swap
  · exact h
  split
  swap
  · exact { h with pids := fun q hq => Nat.lt_succ_of_lt (h.pids q hq) }
  generalize hx : (⟨(s.shm.processes parent).pml4Phys, shmCursorStart s.nextPid, 0, .idle⟩ : ShmProcess) = x
  have hdead : s.live s.nextPid = false := by
    by_contra hlive
    rw [Bool.not_eq_false] at hlive
    exact Nat.lt_irrefl _ (h.pids _ hlive)
  have hfresh : ∀ k b, s.shm.rangeAt k = some b → b.pid ≠ s.nextPid := by
    intro k b hb heq
    have hlive := h.live_of_range hb
    rw [heq, hdead] at hlive
    exact Bool.false_ne_true hlive
  have hrange : (s.shm.setProcess s.nextPid x).rangeAt = s.shm.rangeAt := by
    rw [Shm.rangeAt_setProcess, ← hx]
    change Function.update s.shm.rangeAt (.inr s.nextPid) none = s.shm.rangeAt
    apply Function.update_eq_self_iff.mpr
    rw [Shm.rangeAt, h.quiet _ hdead]
    rfl
  have hother : ∀ q, q ≠ s.nextPid → (s.shm.setProcess s.nextPid x).processes q = s.shm.processes q := fun q hq => setProcess_of_ne hq x
  refine ⟨?_, fun k b hb => ?_, fun q => ?_, h.slot, fun j hj => ?_, fun q hq => ?_, fun q hq => ?_, fun q hq => ?_, fun q hq => ?_⟩
  · apply Holdings.Sound.enroll h.sound (p := s.nextPid)
    · intro k r hr
      obtain ⟨b, hb, rfl⟩ := Option.map_eq_some_iff.mp hr
      exact hfresh k b hb
    · simp only [Shm.holdings, hrange]
    · intro q hq
      change Option.map _ (Shm.processes _ q).phase.entering = Option.map _ (s.shm.processes q).phase.entering
      rw [hother q hq]
    · intro q hq
      change (Shm.processes _ q).pml4Phys = (s.shm.processes q).pml4Phys
      rw [hother q hq]
    · rfl
  · rw [hrange] at hb
    change b.Fits ((s.shm.setProcess s.nextPid x).processes b.pid).shmCursor
    rw [hother _ (hfresh k b hb)]
    exact h.fits k b hb
  · change ((s.shm.setProcess s.nextPid x).processes q).shmCursor ≤ vmSpaceShmLimit
    by_cases hq : q = s.nextPid
    · rw [hq, setProcess_self, ← hx]
      exact shmCursorStart_le _
    · rw [hother q hq]
      exact h.limit q
  · have hlive := h.owner j hj
    change Function.update s.live s.nextPid true (s.shm.attachments j).pid = true
    rw [Function.update_of_ne (hfresh _ _ (Shm.rangeAt_slot hj))]
    exact hlive
  · change ((s.shm.setProcess s.nextPid x).processes q).phase.attaching ≠ none at hq
    change ∃ i, ((s.shm.setProcess s.nextPid x).processes q).phase.Entered q (s.shm.attachments i)
    by_cases hqp : q = s.nextPid
    · rw [hqp, setProcess_self, ← hx] at hq
      exact absurd rfl hq
    · rw [hother q hqp] at hq ⊢
      exact h.entered q hq
  · change Function.update s.live s.nextPid true q = true at hq
    change ((s.shm.setProcess s.nextPid x).processes q).phase.CountOk (s.shm.holding q) ((s.shm.setProcess s.nextPid x).processes q).shmAttachmentCount
    by_cases hqp : q = s.nextPid
    · rw [hqp, setProcess_self, ← hx]
      apply tally_eq_zero
      rintro j _ ⟨huse, hpid⟩
      exact hfresh _ _ (Shm.rangeAt_slot huse) hpid
    · rw [Function.update_of_ne hqp] at hq
      rw [hother q hqp]
      exact h.counts q hq
  · change Function.update s.live s.nextPid true q = false at hq
    change ((s.shm.setProcess s.nextPid x).processes q).phase = .idle
    have hqp : q ≠ s.nextPid := by
      rintro rfl
      rw [Function.update_self] at hq
      exact Bool.false_ne_true hq.symm
    rw [Function.update_of_ne hqp] at hq
    rw [hother q hqp]
    exact h.quiet q hq
  · change Function.update s.live s.nextPid true q = true at hq
    change q < s.nextPid + 1
    by_cases hqp : q = s.nextPid
    · omega
    · rw [Function.update_of_ne hqp] at hq
      exact Nat.lt_succ_of_lt (h.pids q hq)

/-! ### Runs -/

theorem Inv.call (h : s.Inv) {a : ShmStep} (hroom : s.Room (.call a)) (hlive : a.caller.any s.live = true) : Inv { s with shm := a.step s.shm } := by
  have hbegin : ∀ {shm : Shm} {p : Nat}, ((s.shm.processes p).phase = .idle → Inv { s with shm := shm }) →
      Inv { s with shm := if s.shm.idle p then shm else s.shm } := by
    intro shm p hcall
    split
    · rename_i hidle
      exact hcall (Shm.idle_iff.mp hidle)
    · exact h
  cases a with
  | create p size phys => exact hbegin fun _ => h.congr (Shm.SameRanges.create s.shm p size phys)
  | attach p shmId => exact hbegin fun hidle => h.attachBegin hlive hidle hroom
  | attachMap p free => exact h.attachMap free hlive
  | attachUndo p => exact h.attachUndo hlive
  | detach p virtAddr => exact hbegin fun hidle => h.detachBegin virtAddr hlive hidle
  | detachUnmap p others => exact h.detachUnmap others hlive
  | detachReap p => exact h.detachReap hlive
  | destroy p shmId => exact hbegin fun _ => h.congr (Shm.SameRanges.destroy s.shm shmId)
  | cleanup p target => exact absurd hlive Bool.false_ne_true
  | cleanupUnmap p others => exact absurd hlive Bool.false_ne_true
  | cleanupFinish p => exact absurd hlive Bool.false_ne_true

theorem Inv.step (h : s.Inv) (a : ShmSpacesStep) (hroom : s.Room a) : (s.step a).Inv := by
  cases a with
  | createProcess parent stack => exact h.createProcess parent stack hroom
  | exit p others => exact h.exit others hroom
  | call a =>
      simp only [ShmSpaces.step]
      split
      · rename_i hlive
        exact h.call hroom hlive
      · exact h

end ShmSpaces

/-- In every run whose steps meet their conditions, the ranges of processes on one page table are apart in every state. -/
theorem shm_ranges_apart (pml4Phys : Nat) (steps : List ShmSpacesStep) (hsteps : Allowed ShmSpaces.Room ShmSpaces.step (ShmSpaces.boot pml4Phys) steps) :
    Along ShmSpaces.Apart ShmSpaces.step (ShmSpaces.boot pml4Phys) steps :=
  along_of_allowed (fun _ h => h.apart) (fun _ a h hroom => h.step a hroom) (ShmSpaces.boot_inv pml4Phys) hsteps

/-- Two processes attach the same region, and one of them detaches it. -/
theorem shm_ranges_apart_two : Along ShmSpaces.Apart ShmSpaces.step (ShmSpaces.boot 0x1000)
    [.createProcess 1 true, .createProcess 1 true, .call (.create 2 8192 0x200000), .call (.attach 2 1), .call (.attach 3 1),
      .call (.attachMap 3 true), .call (.attachMap 2 true), .call (.detach 2 0x42000000), .call (.detachUnmap 2 true), .exit 3 true] :=
  shm_ranges_apart 0x1000 _ (by decide +kernel)

/-- A region of 4097 pages reaches from the window of the second process into that of the third, whose attach of one page fails. -/
theorem shm_window_overrun :
    let steps := [ShmSpacesStep.createProcess 1 true, .createProcess 1 true, .call (.create 2 0x1001000 0x200000), .call (.create 3 4096 0x2000000),
      .call (.attach 2 1), .call (.attachMap 2 true), .call (.attach 3 2)]
    ((run ShmSpaces.step (ShmSpaces.boot 0x1000) (steps ++ [.call (.attachMap 3 true), .call (.attachUndo 3)])).shm.rangesOf 3).length = 0 ∧
      ¬ Along ShmSpaces.Apart ShmSpaces.step (ShmSpaces.boot 0x1000) steps := by
  intro steps
  refine ⟨by decide +kernel, fun h => ?_⟩
  have hlast := h.last
  have hlive : ∀ p ∈ [2, 3], (run ShmSpaces.step (ShmSpaces.boot 0x1000) steps).live p = true := by decide +kernel
  have hpml4 : ((run ShmSpaces.step (ShmSpaces.boot 0x1000) steps).shm.processes 2).pml4Phys =
      ((run ShmSpaces.step (ShmSpaces.boot 0x1000) steps).shm.processes 3).pml4Phys := by decide +kernel
  have hlong : (⟨true, 1, 2, 0x42000000, 4097⟩ : ShmAttachment) ∈ (run ShmSpaces.step (ShmSpaces.boot 0x1000) steps).shm.rangesOf 2 := by decide +kernel
  have hshort : (⟨true, 2, 3, 0x43000000, 1⟩ : ShmAttachment) ∈ (run ShmSpaces.step (ShmSpaces.boot 0x1000) steps).shm.rangesOf 3 := by decide +kernel
  exact hlast.ranges 2 3 (by decide) (hlive 2 (by decide)) (hlive 3 (by decide)) hpml4 _ hlong _ hshort 0x43000 (by constructor <;> decide)
    (by constructor <;> decide)

end Tsukasa
