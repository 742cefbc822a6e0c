import Tsukasa.Fs.Vfs
import Tsukasa.Lib.Tally

/-!
# Reference counts

`RefsExact` says that every counter of the pools counts what it is meant to count. Inside a call one reference may be in hand: counted in its entry but not yet, or no longer, in a slot. Each call is a sequence of the moves that take a reference in hand, put it into an empty slot, or release it.
-/

namespace Tsukasa

open Lib

variable {φ β : Type}

/-- The pipe an open-file entry is an end of, and the directions it is open in. -/
def VfsFile.link (f : VfsFile β) : Option (Nat × Bool × Bool) :=
  match f.backend, f.u with
  | .pipe, .pipe p canRead canWrite => some (p, canRead, canWrite)
  | _, _ => none

def VfsFile.readEnd (p : Nat) (f : VfsFile β) : Bool := f.link.any fun l => l.1 == p && l.2.1

def VfsFile.writeEnd (p : Nat) (f : VfsFile β) : Bool := f.link.any fun l => l.1 == p && l.2.2

/-- The descriptor slots of the first `n` tables. -/
def slots (n : Nat) : Finset (Nat × Nat) := Finset.range n ×ˢ Finset.range processMaxOpenFiles

theorem mem_slots {n proc fd : Nat} : (proc, fd) ∈ slots n ↔ proc < n ∧ fd < processMaxOpenFiles := by
  simp [slots]

namespace Vfs

/-- The number of slots that point to an entry. -/
def refs (n : Nat) (s : Vfs φ β) (i : Nat) : Nat := tally (slots n) (fun entry => entry = some i) s.fds

/-- The number of used entries that are read ends of a pipe. -/
def readEnds (s : Vfs φ β) (p : Nat) : Nat :=
  tally (Finset.range vfsMaxOpenGlobal) (fun f : VfsFile β => f.used = true ∧ f.readEnd p = true) s.openFiles

def writeEnds (s : Vfs φ β) (p : Nat) : Nat :=
  tally (Finset.range vfsMaxOpenGlobal) (fun f : VfsFile β => f.used = true ∧ f.writeEnd p = true) s.openFiles

end Vfs

/-- Every slot points to a used entry, every used entry counts its slots and the reference in hand, and every pipe counts its ends. -/
structure RefsExact (n : Nat) (hand : Option Nat) (s : Vfs φ β) : Prop where
  slot : ∀ k ∈ slots n, ∀ i, s.fds k = some i → i < vfsMaxOpenGlobal ∧ (s.openFiles i).used = true
  held : ∀ i, hand = some i → i < vfsMaxOpenGlobal ∧ (s.openFiles i).used = true
  refcount : ∀ i < vfsMaxOpenGlobal, (s.openFiles i).used = true →
    (s.openFiles i).refcount = s.refs n i + (if hand = some i then 1 else 0) ∧ 0 < (s.openFiles i).refcount
  readers : ∀ p < vfsMaxPipes, (s.pipes p).readers = s.readEnds p
  writers : ∀ p < vfsMaxPipes, (s.pipes p).writers = s.writeEnds p
  pipe : ∀ p < vfsMaxPipes, (s.pipes p).used = true ↔ 0 < (s.pipes p).readers ∨ 0 < (s.pipes p).writers
  range : ∀ i < vfsMaxOpenGlobal, (s.openFiles i).used = true → ∀ l ∈ (s.openFiles i).link, l.1 < vfsMaxPipes

section Moves

variable {n : Nat} {hand : Option Nat} {s : Vfs φ β} {i : Nat}

theorem refs_setFd {proc fd : Nat} (hk : (proc, fd) ∈ slots n) (entry : Option Nat) (i : Nat) :
    (s.setFd proc fd entry).refs n i + (if s.fds (proc, fd) = some i then 1 else 0) =
      s.refs n i + (if entry = some i then 1 else 0) :=
  tally_update hk entry

theorem readEnds_setFile (hi : i < vfsMaxOpenGlobal) (f : VfsFile β) (p : Nat) :
    (s.setFile i f).readEnds p + (if (s.openFiles i).used = true ∧ (s.openFiles i).readEnd p = true then 1 else 0) =
      s.readEnds p + (if f.used = true ∧ f.readEnd p = true then 1 else 0) :=
  tally_update (Finset.mem_range.mpr hi) f

theorem writeEnds_setFile (hi : i < vfsMaxOpenGlobal) (f : VfsFile β) (p : Nat) :
    (s.setFile i f).writeEnds p + (if (s.openFiles i).used = true ∧ (s.openFiles i).writeEnd p = true then 1 else 0) =
      s.writeEnds p + (if f.used = true ∧ f.writeEnd p = true then 1 else 0) :=
  tally_update (Finset.mem_range.mpr hi) f

/-- No slot points to an unused entry. -/
theorem RefsExact.refs_of_unused (h : RefsExact n hand s) (hunused : (s.openFiles i).used = false) : s.refs n i = 0 := by
  apply tally_eq_zero
  intro k hk hslot
  rw [(h.slot k hk i hslot).2] at hunused
  simp at hunused

/-- Emptying a slot takes its reference in hand. -/
theorem RefsExact.takeSlot (h : RefsExact n none s) {proc fd : Nat} (hk : (proc, fd) ∈ slots n)
    (hslot : s.fds (proc, fd) = some i) : RefsExact n (some i) (s.setFd proc fd none) where
  slot k hk' j hj := by
    refine h.slot k hk' j ?_
    by_cases heq : k = (proc, fd)
    · subst heq
      simp [Vfs.setFd] at hj
    · simpa [Vfs.setFd, heq] using hj
  held j hj := by
    obtain rfl := Option.some.inj hj
    exact h.slot _ hk i hslot
  refcount j hj hused := by
    obtain ⟨hcount, hpos⟩ := h.refcount j hj hused
    refine ⟨?_, hpos⟩
    have hrefs := refs_setFd (s := s) hk none j
    rw [hslot] at hrefs
    show (s.openFiles j).refcount = _
    simp only [reduceCtorEq, if_false, Nat.add_zero] at hrefs hcount
    omega
  readers := h.readers
  writers := h.writers
  pipe := h.pipe
  range := h.range

/-- A reference in hand goes into an empty slot. -/
theorem RefsExact.putSlot (h : RefsExact n (some i) s) {proc fd : Nat} (hk : (proc, fd) ∈ slots n)
    (hslot : s.fds (proc, fd) = none) : RefsExact n none (s.setFd proc fd (some i)) where
  slot k hk' j hj := by
    by_cases heq : k = (proc, fd)
    · subst heq
      simp only [Vfs.setFd, Function.update_self, Option.some.injEq] at hj
      subst hj
      exact h.held i rfl
    · refine h.slot k hk' j ?_
      simpa [Vfs.setFd, heq] using hj
  held j hj := by simp at hj
  refcount j hj hused := by
    obtain ⟨hcount, hpos⟩ := h.refcount j hj hused
    refine ⟨?_, hpos⟩
    have hrefs := refs_setFd (s := s) hk (some i) j
    rw [hslot] at hrefs
    show (s.openFiles j).refcount = _
    simp only [reduceCtorEq, if_false, Nat.add_zero] at hrefs ⊢
    omega
  readers := h.readers
  writers := h.writers
  pipe := h.pipe
  range := h.range

/-- A change of the pools that leaves every counted thing alone: the used flags, the counters and the links. -/
structure SameCounts (s s' : Vfs φ β) : Prop where
  fds : s'.fds = s.fds
  used : ∀ i, (s'.openFiles i).used = (s.openFiles i).used
  refcount : ∀ i, (s.openFiles i).used = true → (s'.openFiles i).refcount = (s.openFiles i).refcount
  link : ∀ i, (s.openFiles i).used = true → (s'.openFiles i).link = (s.openFiles i).link
  pipeUsed : ∀ p, (s'.pipes p).used = (s.pipes p).used
  readers : ∀ p, (s'.pipes p).readers = (s.pipes p).readers
  writers : ∀ p, (s'.pipes p).writers = (s.pipes p).writers

theorem RefsExact.congr (h : RefsExact n hand s) {s' : Vfs φ β} (hsame : SameCounts s s') : RefsExact n hand s' := by
  have hrefs : ∀ i, s'.refs n i = s.refs n i := fun i => by simp only [Vfs.refs, hsame.fds]
  have hread : ∀ p, s'.readEnds p = s.readEnds p := fun p => by
    apply tally_congr
    intro i _
    rw [hsame.used i]
    exact and_congr_right fun hused => by rw [VfsFile.readEnd, VfsFile.readEnd, hsame.link i hused]
  have hwrite : ∀ p, s'.writeEnds p = s.writeEnds p := fun p => by
    apply tally_congr
    intro i _
    rw [hsame.used i]
    exact and_congr_right fun hused => by rw [VfsFile.writeEnd, VfsFile.writeEnd, hsame.link i hused]
  refine ⟨fun k hk i hi => ?_, fun i hi => ?_, fun i hi hused => ?_, fun p hp => ?_, fun p hp => ?_, fun p hp => ?_,
    fun i hi hused l hl => ?_⟩
  · rw [hsame.used i]
    exact h.slot k hk i (by rwa [← hsame.fds])
  · rw [hsame.used i]
    exact h.held i hi
  · rw [hsame.used i] at hused
    rw [hsame.refcount i hused, hrefs]
    exact h.refcount i hi hused
  · rw [hsame.readers, hread, h.readers p hp]
  · rw [hsame.writers, hwrite, h.writers p hp]
  · rw [hsame.pipeUsed, hsame.readers, hsame.writers]
    exact h.pipe p hp
  · rw [hsame.used i] at hused
    exact h.range i hi hused l (by rwa [← hsame.link i hused])

/-- A change of one entry that keeps its used flag, its counter and its link. -/
theorem SameCounts.setFile {f : VfsFile β} (hused : f.used = (s.openFiles i).used)
    (hrefcount : f.refcount = (s.openFiles i).refcount) (hlink : f.link = (s.openFiles i).link) (fs : φ) :
    SameCounts s { s.setFile i f with fs := fs } := by
  refine ⟨rfl, fun j => ?_, fun j _ => ?_, fun j _ => ?_, fun _ => rfl, fun _ => rfl, fun _ => rfl⟩ <;>
    · simp only [Vfs.setFile, Function.update_apply]
      split
      · rename_i heq
        simp [heq, hused, hrefcount, hlink]
      · rfl

/-- Writing the counter of one used entry. -/
theorem RefsExact.setRefcount (h : RefsExact n hand s) {hand' : Option Nat} {count : Nat} (hi : i < vfsMaxOpenGlobal)
    (hused : (s.openFiles i).used = true) (hcount : count = s.refs n i + (if hand' = some i then 1 else 0)) (hpos : 0 < count)
    (hother : ∀ j, j ≠ i → (hand' = some j ↔ hand = some j)) :
    RefsExact n hand' (s.setFile i { s.openFiles i with refcount := count }) := by
  have hkeep : ∀ j, ((s.setFile i { s.openFiles i with refcount := count }).openFiles j).used = (s.openFiles j).used ∧
      ((s.setFile i { s.openFiles i with refcount := count }).openFiles j).link = (s.openFiles j).link := by
    intro j
    simp only [Vfs.setFile, Function.update_apply]
    split
    · rename_i heq
      subst heq
      exact ⟨rfl, rfl⟩
    · exact ⟨rfl, rfl⟩
  refine ⟨fun k hk j hj => ?_, fun j hj => ?_, fun j hj husedj => ?_, fun p hp => ?_, fun p hp => ?_, h.pipe,
    fun j hj husedj l hl => ?_⟩
  · rw [(hkeep j).1]
    exact h.slot k hk j hj
  · rw [(hkeep j).1]
    by_cases heq : j = i
    · subst heq
      exact ⟨hi, hused⟩
    · exact h.held j ((hother j heq).mp hj)
  · rw [(hkeep j).1] at husedj
    show _ = s.refs n j + _ ∧ _
    simp only [Vfs.setFile, Function.update_apply]
    split
    · rename_i heq
      subst heq
      exact ⟨hcount, hpos⟩
    · rename_i heq
      simp only [hother j heq]
      exact h.refcount j hj husedj
  · refine (h.readers p hp).trans (tally_congr fun j _ => ?_)
    rw [(hkeep j).1, VfsFile.readEnd, VfsFile.readEnd, (hkeep j).2]
  · refine (h.writers p hp).trans (tally_congr fun j _ => ?_)
    rw [(hkeep j).1, VfsFile.writeEnd, VfsFile.writeEnd, (hkeep j).2]
  · rw [(hkeep j).1] at husedj
    rw [(hkeep j).2] at hl
    exact h.range j hj husedj l hl

/-- `f->refcount++` takes a new reference in hand. -/
theorem RefsExact.addRef (h : RefsExact n none s) (hi : i < vfsMaxOpenGlobal) (hused : (s.openFiles i).used = true) :
    RefsExact n (some i) (s.addRef i) := by
  have hcount := (h.refcount i hi hused).1
  refine h.setRefcount hi hused ?_ (Nat.succ_pos _) fun j hj => ?_
  · simpa using hcount
  · simp [Ne.symm hj]

/-- A new entry that is no end of a pipe is held by the call that allocated it. -/
theorem RefsExact.alloc (h : RefsExact n none s) (hi : i < vfsMaxOpenGlobal) (hunused : (s.openFiles i).used = false)
    {f : VfsFile β} (hused : f.used = true) (hrefcount : f.refcount = 1) (hlink : f.link = none) :
    RefsExact n (some i) (s.setFile i f) := by
  have hrefs := h.refs_of_unused hunused
  have hfile : ∀ j, (s.setFile i f).openFiles j = if j = i then f else s.openFiles j := fun j => Function.update_apply _ _ _ _
  refine ⟨fun k hk j hj => ?_, fun j hj => ?_, fun j hj husedj => ?_, fun p hp => ?_, fun p hp => ?_, h.pipe,
    fun j hj husedj l hl => ?_⟩
  · rw [hfile]
    split
    · rename_i heq
      exact ⟨heq ▸ hi, hused⟩
    · exact h.slot k hk j hj
  · obtain rfl := Option.some.inj hj
    rw [hfile, if_pos rfl]
    exact ⟨hi, hused⟩
  · show _ = s.refs n j + _ ∧ _
    rw [hfile] at husedj ⊢
    by_cases heq : j = i
    · subst heq
      simp [hrefcount, hrefs]
    · rw [if_neg heq] at husedj ⊢
      simpa [Ne.symm heq] using h.refcount j hj husedj
  · have := readEnds_setFile (s := s) hi f p
    simp only [hunused, VfsFile.readEnd, hlink, Option.any_none] at this
    refine (h.readers p hp).trans ?_
    simpa using this.symm
  · have := writeEnds_setFile (s := s) hi f p
    simp only [hunused, VfsFile.writeEnd, hlink, Option.any_none] at this
    refine (h.writers p hp).trans ?_
    simpa using this.symm
  · rw [hfile] at husedj hl
    split at hl
    · simp [hlink] at hl
    · rename_i heq
      rw [if_neg heq] at husedj
      exact h.range j hj husedj l hl

/-! ### Releasing -/

/-- The pipes after the last reference to an entry with the given link has gone. -/
def dropLink (s : Vfs φ β) (link : Option (Nat × Bool × Bool)) : Vfs φ β :=
  match link with
  | some (p, canRead, canWrite) => s.setPipe p (dropEnd (s.pipes p) canRead canWrite)
  | none => s

theorem flushRegularFile_eq (B : Backends φ β) (s : Vfs φ β) (i : Nat) :
    ∃ f fs, flushRegularFile B s i = { s.setFile i f with fs := fs } := by
  have hsame : s.setFile i (s.openFiles i) = s := by simp [Vfs.setFile]
  simp only [flushRegularFile]
  split
  · exact ⟨s.openFiles i, s.fs, by rw [hsame]⟩
  split
  · exact ⟨s.openFiles i, s.fs, by rw [hsame]⟩
  split
  · split
    · exact ⟨_, _, rfl⟩
    · exact ⟨s.openFiles i, _, by rw [hsame]⟩
  · exact ⟨_, s.fs, rfl⟩

/-- The last release of an entry takes its end away from the pipe and leaves the entry unused. -/
theorem fileRelease_last (B : Backends φ β) (hused : (s.openFiles i).used = true) (hlast : ¬ 1 < (s.openFiles i).refcount) :
    ∃ f fs, f.used = false ∧ fileRelease B s i = { (dropLink s (s.openFiles i).link).setFile i f with fs := fs } := by
  obtain ⟨f, fs, hflush⟩ := flushRegularFile_eq B s i
  simp only [fileRelease, hused, Bool.not_true, Bool.false_eq_true, if_false, hlast, hflush]
  refine ⟨{ f with used := false, refcount := 0 }, fs, rfl, ?_⟩
  cases hbackend : (s.openFiles i).backend <;> cases hu : (s.openFiles i).u <;>
    simp [VfsFile.link, dropLink, Vfs.setFile, Vfs.setPipe, hbackend, hu]

theorem dropEnd_readers (pipe : VfsPipe) (r w : Bool) :
    (dropEnd pipe r w).readers = pipe.readers - (if r = true then 1 else 0) := by
  simp only [dropEnd]
  cases r <;> cases w <;> simp <;> split_ifs <;> simp_all

theorem dropEnd_writers (pipe : VfsPipe) (r w : Bool) :
    (dropEnd pipe r w).writers = pipe.writers - (if w = true then 1 else 0) := by
  simp only [dropEnd]
  cases r <;> cases w <;> simp <;> split_ifs <;> simp_all

theorem dropEnd_used (pipe : VfsPipe) (r w : Bool) :
    (dropEnd pipe r w).used = (pipe.used && decide (0 < (dropEnd pipe r w).readers ∨ 0 < (dropEnd pipe r w).writers)) := by
  simp only [dropEnd]
  cases r <;> cases w <;> simp <;> split_ifs <;> simp_all <;> omega

/-- The pipe of a dropped link loses the ends the link had, and stays used exactly as long as it has one. -/
theorem dropLink_pipes (s : Vfs φ β) (f : VfsFile β) (p : Nat) :
    ((dropLink s f.link).pipes p).readers = (s.pipes p).readers - (if f.readEnd p = true then 1 else 0) ∧
      ((dropLink s f.link).pipes p).writers = (s.pipes p).writers - (if f.writeEnd p = true then 1 else 0) ∧
      (((s.pipes p).used = true ↔ 0 < (s.pipes p).readers ∨ 0 < (s.pipes p).writers) →
        (((dropLink s f.link).pipes p).used = true ↔
          0 < ((dropLink s f.link).pipes p).readers ∨ 0 < ((dropLink s f.link).pipes p).writers)) := by
  rcases Option.eq_none_or_eq_some f.link with hlink | ⟨⟨q, r, w⟩, hlink⟩
  · simp [VfsFile.readEnd, VfsFile.writeEnd, hlink, dropLink]
  by_cases heq : q = p
  · subst heq
    have hdrop : (dropLink s f.link).pipes q = dropEnd (s.pipes q) r w := by simp [dropLink, Vfs.setPipe, hlink]
    have hread := dropEnd_readers (s.pipes q) r w
    have hwrite := dropEnd_writers (s.pipes q) r w
    rw [hdrop]
    refine ⟨by simpa [VfsFile.readEnd, hlink] using hread, by simpa [VfsFile.writeEnd, hlink] using hwrite, fun hiff => ?_⟩
    rw [dropEnd_used, Bool.and_eq_true, decide_eq_true_eq, hiff]
    exact and_iff_right_of_imp fun hleft => by omega
  · have hdrop : (dropLink s f.link).pipes p = s.pipes p := by
      simp [dropLink, Vfs.setPipe, hlink, Ne.symm heq]
    rw [hdrop]
    simp [VfsFile.readEnd, VfsFile.writeEnd, hlink, heq]

/-- When the reference in hand was the last one, the entry and its end of the pipe go. -/
theorem RefsExact.dropLast (h : RefsExact n (some i) s) {f : VfsFile β} (hunused : f.used = false)
    (hlast : s.refs n i = 0) (fs : φ) :
    RefsExact n none { (dropLink s (s.openFiles i).link).setFile i f with fs := fs } := by
  obtain ⟨hi, hused⟩ := h.held i rfl
  have hfds : (dropLink s (s.openFiles i).link).fds = s.fds := by unfold dropLink; split <;> rfl
  have hfiles : (dropLink s (s.openFiles i).link).openFiles = s.openFiles := by unfold dropLink; split <;> rfl
  have hfile : ∀ j, ({ (dropLink s (s.openFiles i).link).setFile i f with fs := fs } : Vfs φ β).openFiles j =
      if j = i then f else s.openFiles j := fun j => by
    show Function.update _ _ _ _ = _
    rw [hfiles, Function.update_apply]
  have hother : ∀ j, (({ (dropLink s (s.openFiles i).link).setFile i f with fs := fs } : Vfs φ β).openFiles j).used = true →
      j ≠ i ∧ (s.openFiles j).used = true := by
    intro j hj
    rw [hfile] at hj
    split at hj
    · rw [hunused] at hj
      simp at hj
    · exact ⟨by assumption, hj⟩
  have hread : ∀ p, ({ (dropLink s (s.openFiles i).link).setFile i f with fs := fs } : Vfs φ β).readEnds p +
      (if (s.openFiles i).readEnd p = true then 1 else 0) = s.readEnds p := fun p => by
    have := readEnds_setFile (s := s) hi f p
    simp only [hused, hunused, true_and, Bool.false_eq_true, false_and, if_false, Nat.add_zero] at this
    rw [← this]
    congr 1
    simp only [Vfs.readEnds, Vfs.setFile, hfiles]
  have hwrite : ∀ p, ({ (dropLink s (s.openFiles i).link).setFile i f with fs := fs } : Vfs φ β).writeEnds p +
      (if (s.openFiles i).writeEnd p = true then 1 else 0) = s.writeEnds p := fun p => by
    have := writeEnds_setFile (s := s) hi f p
    simp only [hused, hunused, true_and, Bool.false_eq_true, false_and, if_false, Nat.add_zero] at this
    rw [← this]
    congr 1
    simp only [Vfs.writeEnds, Vfs.setFile, hfiles]
  refine ⟨fun k hk j hj => ?_, fun j hj => by simp at hj, fun j hj husedj => ?_, fun p hp => ?_, fun p hp => ?_, fun p hp => ?_,
    fun j hj husedj l hl => ?_⟩
  · have hslot : s.fds k = some j := by rw [← hfds]; exact hj
    have hne : j ≠ i := by
      rintro rfl
      exact absurd (tally_pos_iff.mpr ⟨k, hk, hslot⟩) (by rw [← Vfs.refs, hlast]; omega)
    rw [hfile, if_neg hne]
    exact h.slot k hk j hslot
  · obtain ⟨hne, husedj'⟩ := hother j husedj
    have := h.refcount j hj husedj'
    rw [hfile, if_neg hne]
    simp only [Option.some.injEq, Ne.symm hne, if_false] at this
    show _ = tally _ _ (dropLink s (s.openFiles i).link).fds + _ ∧ _
    rw [hfds]
    simpa [Vfs.refs] using this
  · have := hread p
    show ((dropLink s (s.openFiles i).link).pipes p).readers = _
    rw [(dropLink_pipes s (s.openFiles i) p).1, h.readers p hp]
    omega
  · have := hwrite p
    show ((dropLink s (s.openFiles i).link).pipes p).writers = _
    rw [(dropLink_pipes s (s.openFiles i) p).2.1, h.writers p hp]
    omega
  · exact (dropLink_pipes s (s.openFiles i) p).2.2 (h.pipe p hp)
  · obtain ⟨hne, husedj'⟩ := hother j husedj
    rw [hfile, if_neg hne] at hl
    exact h.range j hj husedj' l hl

/-- Releasing the reference in hand. -/
theorem RefsExact.release (B : Backends φ β) (h : RefsExact n (some i) s) : RefsExact n none (fileRelease B s i) := by
  obtain ⟨hi, hused⟩ := h.held i rfl
  obtain ⟨hcount, hpos⟩ := h.refcount i hi hused
  simp only [if_true] at hcount
  by_cases hmany : 1 < (s.openFiles i).refcount
  · have hrel : fileRelease B s i = s.setFile i { s.openFiles i with refcount := (s.openFiles i).refcount - 1 } := by
      simp only [fileRelease, hused, Bool.not_true, Bool.false_eq_true, if_false, hmany, if_true]
    rw [hrel]
    refine h.setRefcount hi hused ?_ (by omega) fun j hj => ?_
    · simp only [reduceCtorEq, if_false]
      omega
    · simp [Ne.symm hj]
  · obtain ⟨f, fs, hunused, hrel⟩ := fileRelease_last B hused hmany
    exact hrel ▸ h.dropLast hunused (by omega) fs

end Moves

end Tsukasa
