import Tsukasa.Fs.VfsRefs

/-!
# The descriptor calls

Each call of `fs/vfs.c` that moves references keeps the counts exact, with one exception: `vfs_process_dup2` of a slot onto itself releases the entry before it takes the new reference, which is too late when the slot held the only one. A run in which that does not happen keeps every count exact.
-/

namespace Tsukasa

open Lib

variable {φ β : Type} {n : Nat} {s : Vfs φ β}

/-! ### Allocation -/

theorem fileAlloc_cases (s : Vfs φ β) :
    (∃ i < vfsMaxOpenGlobal, (s.openFiles i).used = false ∧ fileAlloc s = (some i, s.setFile i freshFile)) ∨
      fileAlloc s = (none, s) := by
  unfold fileAlloc
  split
  · rename_i i hfind
    have hmem := List.mem_of_find?_eq_some hfind
    have hsome := List.find?_some hfind
    exact Or.inl ⟨i, List.mem_range.mp hmem, by simpa using hsome, rfl⟩
  · exact Or.inr rfl

theorem fileAlloc_succeeds {i : Nat} (hi : i < vfsMaxOpenGlobal) (hfree : (s.openFiles i).used = false) :
    ∃ j, fileAlloc s = (some j, s.setFile j freshFile) := by
  unfold fileAlloc
  split
  · exact ⟨_, rfl⟩
  · rename_i hnone
    have hused := List.find?_eq_none.mp hnone i (List.mem_range.mpr hi)
    simp [hfree] at hused

/-- The ring of a pipe that nothing has been written to. -/
def VfsPipe.reset (pipe : VfsPipe) (used : Bool) (readers writers : Nat) : VfsPipe :=
  { pipe with used := used, readPos := 0, writePos := 0, size := 0, readers := readers, writers := writers }

theorem pipeAlloc_cases (s : Vfs φ β) :
    (∃ p < vfsMaxPipes, (s.pipes p).used = false ∧ pipeAlloc s = (some p, s.setPipe p ((s.pipes p).reset true 0 0))) ∨
      pipeAlloc s = (none, s) := by
  unfold pipeAlloc
  split
  · rename_i p hfind
    have hmem := List.mem_of_find?_eq_some hfind
    have hsome := List.find?_some hfind
    exact Or.inl ⟨p, List.mem_range.mp hmem, by simpa using hsome, rfl⟩
  · exact Or.inr rfl

theorem processFdAlloc_eq_some {proc fd : Nat} (h : processFdAlloc s proc = some fd) :
    fd < processMaxOpenFiles ∧ s.fds (proc, fd) = none := by
  have hmem := List.mem_of_find?_eq_some h
  have hsome := List.find?_some h
  exact ⟨List.mem_range.mp hmem, by simpa using hsome⟩

theorem processFdAlloc_succeeds {proc k : Nat} (hk : k < processMaxOpenFiles) (hempty : s.fds (proc, k) = none) : ∃ j, processFdAlloc s proc = some j := by
  rw [← Option.isSome_iff_exists, processFdAlloc, List.find?_isSome]
  exact ⟨k, List.mem_range.mpr hk, by rw [hempty]; rfl⟩

theorem fdLookup_eq_some {proc i : Nat} {fd : Int} (h : fdLookup s proc fd = some i) :
    fd.toNat < processMaxOpenFiles ∧ (fd.toNat : Int) = fd ∧ s.fds (proc, fd.toNat) = some i := by
  rw [fdLookup] at h
  split at h
  · rename_i hvalid
    simp only [fdValid, Bool.and_eq_true, decide_eq_true_eq] at hvalid
    exact ⟨by omega, by omega, h⟩
  · simp at h

/-! ### Closing -/

theorem RefsExact.close (B : Backends φ β) (h : RefsExact n none s) {proc : Nat} (hproc : proc < n) (fd : Int) :
    RefsExact n none (fdCloseOnTable B s proc fd) := by
  unfold fdCloseOnTable
  split
  · exact h
  · rename_i i hlookup
    obtain ⟨hfd, -, hslot⟩ := fdLookup_eq_some hlookup
    exact (h.takeSlot (mem_slots.mpr ⟨hproc, hfd⟩) hslot).release B

theorem fileRelease_fds (B : Backends φ β) (s : Vfs φ β) (i : Nat) : (fileRelease B s i).fds = s.fds := by
  by_cases hused : (s.openFiles i).used = true
  · by_cases hmany : 1 < (s.openFiles i).refcount
    · simp [fileRelease, hused, hmany, Vfs.setFile]
    · obtain ⟨f, fs, -, hrel⟩ := fileRelease_last B hused hmany
      rw [hrel]
      unfold dropLink
      split <;> rfl
  · simp [fileRelease, hused]

/-- Closing empties the slot and touches no other. -/
theorem fdCloseOnTable_fds (B : Backends φ β) (s : Vfs φ β) (proc : Nat) {fd : Int} (hvalid : fdValid fd = true) :
    (fdCloseOnTable B s proc fd).fds = Function.update s.fds (proc, fd.toNat) none := by
  unfold fdCloseOnTable
  split
  · rename_i hlookup
    rw [fdLookup, if_pos hvalid] at hlookup
    rw [← hlookup, Function.update_eq_self]
  · exact fileRelease_fds B _ _

theorem RefsExact.closeAll (B : Backends φ β) (h : RefsExact n none s) {proc : Nat} (hproc : proc < n) :
    RefsExact n none (closeAll B s proc) := by
  unfold Tsukasa.closeAll
  generalize List.range processMaxOpenFiles = fds
  induction fds generalizing s with
  | nil => exact h
  | cons fd fds ih => exact ih (h.close B hproc fd)

/-! ### Opening -/

theorem RefsExact.openFlags (B : Backends φ β) (h : RefsExact n none s) {proc : Nat} (hproc : proc < n)
    (path : Option (List UInt8)) (flags : BitVec 32) : RefsExact n none (vfsOpenFlags B s proc path flags).2 := by
  unfold vfsOpenFlags
  split
  · exact h
  rename_i m sub _
  split
  · exact h
  rcases fileAlloc_cases s with ⟨i, hi, hunused, halloc⟩ | halloc
  · simp only [halloc]
    -- whatever the backend writes into the entry, it is held and is no pipe
    have hheld : ∀ (f : VfsFile β) (fs : φ), f.used = true → f.refcount = 1 → f.link = none →
        RefsExact n (some i) { s.setFile i f with fs := fs } := fun f fs hused hcount hlink =>
      (h.alloc hi hunused hused hcount hlink).congr
        ⟨rfl, fun _ => rfl, fun _ _ => rfl, fun _ _ => rfl, fun _ => rfl, fun _ => rfl, fun _ => rfl⟩
    simp only [Vfs.setFile, Function.update_self, Function.update_idem]
    split
    · exact (hheld _ s.fs rfl rfl rfl).release B
    rename_i hbackend
    split
    · exact (hheld _ _ rfl rfl rfl).release B
    · rename_i opened fs _
      have hlink : ({ (freshFile : VfsFile β) with
          flags := flags, mode := opened.mode, dirty := opened.dirty, backend := m.backend, pos := opened.pos, path := sub,
          u := .backed opened.data } : VfsFile β).link = none := by
        unfold VfsFile.link
        split
        · rename_i hdata
          simp at hdata
        · rfl
      split
      · exact (hheld _ fs rfl rfl hlink).release B
      · rename_i fd hfd
        obtain ⟨hlt, hslot⟩ := processFdAlloc_eq_some hfd
        exact (hheld _ fs rfl rfl hlink).putSlot (mem_slots.mpr ⟨hproc, hlt⟩) hslot
  · simp only [halloc]
    exact h

/-! ### Duplicating -/

theorem RefsExact.dup (h : RefsExact n none s) {proc : Nat} (hproc : proc < n) (oldfd : Int) :
    RefsExact n none (vfsDup s proc oldfd).2 := by
  unfold vfsDup
  split
  · rename_i i newfd hlookup hfd
    obtain ⟨hold, -, hslot⟩ := fdLookup_eq_some hlookup
    obtain ⟨hnew, hnone⟩ := processFdAlloc_eq_some hfd
    obtain ⟨hi, hused⟩ := h.slot _ (mem_slots.mpr ⟨hproc, hold⟩) i hslot
    exact (h.addRef hi hused).putSlot (mem_slots.mpr ⟨hproc, hnew⟩) hnone
  · exact h

/-- Closing one slot and pointing it to an entry that is still used. -/
theorem RefsExact.repoint (B : Backends φ β) (h : RefsExact n none s) {proc : Nat} (hproc : proc < n) {fd : Int}
    (hvalid : fdValid fd = true) {i : Nat} (hi : i < vfsMaxOpenGlobal)
    (hused : ((fdCloseOnTable B s proc fd).openFiles i).used = true) :
    RefsExact n none (((fdCloseOnTable B s proc fd).addRef i).setFd proc fd.toNat (some i)) := by
  have hlt : fd.toNat < processMaxOpenFiles := by
    simp only [fdValid, Bool.and_eq_true, decide_eq_true_eq] at hvalid
    omega
  refine ((h.close B hproc fd).addRef hi hused).putSlot (mem_slots.mpr ⟨hproc, hlt⟩) ?_
  show (fdCloseOnTable B s proc fd).fds (proc, fd.toNat) = none
  rw [fdCloseOnTable_fds B s proc hvalid, Function.update_self]

/-- An entry that another slot points to outlives the closing of a slot. -/
theorem RefsExact.used_of_other_slot (B : Backends φ β) (h : RefsExact n none s) {proc : Nat} (hproc : proc < n) {fd : Int}
    (hvalid : fdValid fd = true) {k : Nat × Nat} (hk : k ∈ slots n) (hne : k ≠ (proc, fd.toNat)) {i : Nat}
    (hslot : s.fds k = some i) : i < vfsMaxOpenGlobal ∧ ((fdCloseOnTable B s proc fd).openFiles i).used = true := by
  refine (h.close B hproc fd).slot k hk i ?_
  rw [fdCloseOnTable_fds B s proc hvalid, Function.update_of_ne hne, hslot]

theorem RefsExact.dup2 (B : Backends φ β) (h : RefsExact n none s) {proc : Nat} (hproc : proc < n) (oldfd newfd : Int) :
    RefsExact n none (vfsDup2 B s proc oldfd newfd).2 := by
  unfold vfsDup2
  split
  · exact h
  rename_i i hlookup
  split
  · exact h
  rename_i hvalid
  split
  · exact h
  rename_i hne
  have hvalid' : fdValid newfd = true := by simpa using hvalid
  obtain ⟨hold, hcast, hslot⟩ := fdLookup_eq_some hlookup
  have hother : (proc, oldfd.toNat) ≠ (proc, newfd.toNat) := by
    simp only [fdValid, Bool.and_eq_true, decide_eq_true_eq] at hvalid'
    simp only [ne_eq, Prod.mk.injEq, true_and]
    omega
  obtain ⟨hi, hused⟩ := h.used_of_other_slot B hproc hvalid' (mem_slots.mpr ⟨hproc, hold⟩) hother hslot
  exact h.repoint B hproc hvalid' hi hused

/-- `vfs_process_dup2` of a slot onto itself, when the slot holds the only reference to its entry. -/
def SelfDup (s : Vfs φ β) (dst : Nat) (dstFd : Int) (src : Nat) (srcFd : Int) : Prop :=
  dst = src ∧ dstFd = srcFd ∧ ∃ i, fdLookup s src srcFd = some i ∧ (s.openFiles i).refcount = 1

theorem RefsExact.processDup2 (B : Backends φ β) (h : RefsExact n none s) {dst src : Nat} (hdst : dst < n) (hsrc : src < n)
    {dstFd srcFd : Int} (hself : ¬ SelfDup s dst dstFd src srcFd) :
    RefsExact n none (vfsProcessDup2 B s dst dstFd src srcFd).2 := by
  unfold vfsProcessDup2
  split
  · exact h
  rename_i hvalid
  simp only [Bool.or_eq_true, Bool.not_eq_true', not_or, Bool.not_eq_false] at hvalid
  split
  · exact h
  rename_i i hlookup
  obtain ⟨hlt, hcast, hslot⟩ := fdLookup_eq_some hlookup
  have hk := mem_slots.mpr ⟨hsrc, hlt⟩
  by_cases hsame : (src, srcFd.toNat) = (dst, dstFd.toNat)
  · -- the slot itself is closed, and a second reference keeps the entry
    obtain ⟨hi, hused⟩ := h.slot _ hk i hslot
    obtain ⟨rfl, hfd⟩ := Prod.mk.inj hsame
    have hfdEq : dstFd = srcFd := by
      have := hvalid.1
      simp only [fdValid, Bool.and_eq_true, decide_eq_true_eq] at this
      omega
    subst hfdEq
    have hmany : 1 < (s.openFiles i).refcount := by
      have hpos := (h.refcount i hi hused).2
      have hne : (s.openFiles i).refcount ≠ 1 := fun hone => hself ⟨rfl, rfl, i, hlookup, hone⟩
      omega
    refine h.repoint B hdst hvalid.1 hi ?_
    simp [fdCloseOnTable, hlookup, fileRelease, Vfs.setFd, hused, hmany, Vfs.setFile]
  · obtain ⟨hi, hused⟩ := h.used_of_other_slot B hdst hvalid.1 hk hsame hslot
    exact h.repoint B hdst hvalid.1 hi hused

/-! ### Inheriting -/

theorem closeAll_fds (B : Backends φ β) (s : Vfs φ β) (proc : Nat) (k : Nat × Nat) :
    (Tsukasa.closeAll B s proc).fds k = if k.1 = proc ∧ k.2 < processMaxOpenFiles then none else s.fds k := by
  have hvalid : ∀ fd ∈ List.range processMaxOpenFiles, fdValid (fd : Int) = true := by
    intro fd hfd
    have := List.mem_range.mp hfd
    simp only [fdValid, Bool.and_eq_true, decide_eq_true_eq]
    omega
  unfold Tsukasa.closeAll
  simp only [← List.mem_range]
  generalize List.range processMaxOpenFiles = fds at hvalid ⊢
  induction fds generalizing s with
  | nil => simp
  | cons fd fds ih =>
      rw [List.foldl_cons, ih _ fun fd' hfd' => hvalid fd' (List.mem_cons_of_mem fd hfd'),
        fdCloseOnTable_fds B s proc (hvalid fd List.mem_cons_self), Function.update_apply]
      by_cases hproc : k.1 = proc
      · by_cases hfd : k.2 = fd
        · simp [hproc, hfd, Prod.ext_iff]
        · simp [hproc, hfd, Prod.ext_iff]
      · simp [hproc, Prod.ext_iff]

/-- The second loop of `vfs_process_inherit`, as long as the slots of the child that it has still to fill are empty. -/
theorem RefsExact.inheritLoop (h : RefsExact n none s) {dst src : Nat} (hdst : dst < n) (hsrc : src < n) {fds : List Nat}
    (hrange : ∀ fd ∈ fds, fd < processMaxOpenFiles) (hnodup : fds.Nodup) (hempty : ∀ fd ∈ fds, s.fds (dst, fd) = none) :
    RefsExact n none (fds.foldl (fun s fd =>
      match s.fds (src, fd) with
      | none => s
      | some i => (s.addRef i).setFd dst fd (some i)) s) := by
  induction fds generalizing s with
  | nil => exact h
  | cons fd fds ih =>
      rw [List.nodup_cons] at hnodup
      have hfd := hrange fd List.mem_cons_self
      have hrange' : ∀ fd' ∈ fds, fd' < processMaxOpenFiles := fun fd' hfd' => hrange fd' (List.mem_cons_of_mem fd hfd')
      rw [List.foldl_cons]
      split
      · exact ih h hrange' hnodup.2 fun fd' hfd' => hempty fd' (List.mem_cons_of_mem fd hfd')
      · rename_i i hslot
        obtain ⟨hi, hused⟩ := h.slot _ (mem_slots.mpr ⟨hsrc, hfd⟩) i hslot
        have hstep := (h.addRef hi hused).putSlot (mem_slots.mpr ⟨hdst, hfd⟩) (hempty fd List.mem_cons_self)
        refine ih hstep hrange' hnodup.2 fun fd' hfd' => ?_
        have hne : fd' ≠ fd := fun heq => hnodup.1 (heq ▸ hfd')
        simpa [Vfs.setFd, Vfs.addRef, Vfs.setFile, hne] using hempty fd' (List.mem_cons_of_mem fd hfd')

theorem RefsExact.inherit (B : Backends φ β) (h : RefsExact n none s) {dst : Nat} (hdst : dst < n) {src : Option Nat}
    (hsrc : ∀ proc ∈ src, proc < n) : RefsExact n none (vfsProcessInherit B s dst src) := by
  cases src with
  | none => exact h.closeAll B hdst
  | some src =>
      refine (h.closeAll B hdst).inheritLoop hdst (hsrc src rfl) (fun fd => List.mem_range.mp) List.nodup_range fun fd hfd => ?_
      rw [closeAll_fds, if_pos ⟨rfl, List.mem_range.mp hfd⟩]

/-! ### Pipes -/

/-- The entry of one end of a pipe, as `vfs_pipe` leaves it. -/
def pipeEnd (p : Nat) (canRead canWrite : Bool) (mode flags : BitVec 32) : VfsFile β :=
  { (freshFile : VfsFile β) with backend := .pipe, mode := mode, flags := flags, u := .pipe p canRead canWrite }

/-- The pools after a failed `vfs_pipe`: what was taken has been given back. -/
structure PipeUndone (s s' : Vfs φ β) : Prop where
  files : ∀ i, s'.openFiles i = s.openFiles i ∨ (s.openFiles i).used = false ∧ (s'.openFiles i).used = false
  pipes : ∀ p, s'.pipes p = s.pipes p ∨
    p < vfsMaxPipes ∧ (s.pipes p).used = false ∧ s'.pipes p = (s.pipes p).reset false 0 0

/-- The pools after a successful `vfs_pipe`: an unused pipe and two unused entries have become a pipe and its ends. -/
structure PipeMade (s : Vfs φ β) (p fr fw : Nat) (s' : Vfs φ β) : Prop where
  hpipe : p < vfsMaxPipes ∧ (s.pipes p).used = false
  hfr : fr < vfsMaxOpenGlobal ∧ (s.openFiles fr).used = false
  hfw : fw < vfsMaxOpenGlobal ∧ (s.openFiles fw).used = false
  ne : fr ≠ fw
  files : s'.openFiles = Function.update (Function.update s.openFiles fr (pipeEnd p true false vfsModeRead vfsORdonly)) fw
    (pipeEnd p false true vfsModeWrite vfsOWronly)
  pipes : s'.pipes = Function.update s.pipes p ((s.pipes p).reset true 1 1)

/-- Releasing an entry that has only just been allocated. -/
theorem fileRelease_fresh (B : Backends φ β) {i : Nat} (hfresh : s.openFiles i = freshFile) :
    fileRelease B s i = s.setFile i { (freshFile : VfsFile β) with used := false, refcount := 0 } := by
  simp [fileRelease, flushRegularFile, hfresh, freshFile]

/-- Only the given entries have been written, and they were and are unused. -/
theorem files_undone {files : Nat → VfsFile β} (written : List Nat) (hunused : ∀ i ∈ written, (s.openFiles i).used = false)
    (hdead : ∀ i ∈ written, (files i).used = false) (hkept : ∀ i, i ∉ written → files i = s.openFiles i) (i : Nat) :
    files i = s.openFiles i ∨ (s.openFiles i).used = false ∧ (files i).used = false := by
  by_cases hmem : i ∈ written
  · exact Or.inr ⟨hunused i hmem, hdead i hmem⟩
  · exact Or.inl (hkept i hmem)

/-- The two entries of a pipe, as far as the pool has room for them. -/
theorem twoFiles_cases (s : Vfs φ β) :
    (∃ fr fw, (fr < vfsMaxOpenGlobal ∧ (s.openFiles fr).used = false) ∧ (fw < vfsMaxOpenGlobal ∧ (s.openFiles fw).used = false) ∧
      fr ≠ fw ∧ fileAlloc s = (some fr, s.setFile fr freshFile) ∧
      fileAlloc (s.setFile fr freshFile) = (some fw, (s.setFile fr freshFile).setFile fw freshFile)) ∨
    (∃ fr, (s.openFiles fr).used = false ∧ fileAlloc s = (some fr, s.setFile fr freshFile) ∧
      fileAlloc (s.setFile fr freshFile) = (none, s.setFile fr freshFile)) ∨
    fileAlloc s = (none, s) := by
  rcases fileAlloc_cases s with ⟨fr, hfr, hfru, hread⟩ | hread
  · rcases fileAlloc_cases (s.setFile fr freshFile) with ⟨fw, hfw, hfwu, hwrite⟩ | hwrite
    · have hne : fr ≠ fw := by
        rintro rfl
        simp [Vfs.setFile, freshFile] at hfwu
      have hfwu' : (s.openFiles fw).used = false := by simpa [Vfs.setFile, Ne.symm hne] using hfwu
      exact Or.inl ⟨fr, fw, ⟨hfr, hfru⟩, ⟨hfw, hfwu'⟩, hne, hread, hwrite⟩
    · exact Or.inr (Or.inl ⟨fr, hfru, hread, hwrite⟩)
  · exact Or.inr (Or.inr hread)

/-- The pools' part of `vfs_pipe` touches no descriptor, and makes a pipe or gives back everything it took. -/
theorem makePipe_cases (B : Backends φ β) (s : Vfs φ β) :
    (makePipe B s).2.fds = s.fds ∧
      ((∃ p fr fw, (makePipe B s).1 = some (fr, fw) ∧ PipeMade s p fr fw (makePipe B s).2) ∨
        (makePipe B s).1 = none ∧ PipeUndone s (makePipe B s).2) := by
  unfold makePipe
  rcases pipeAlloc_cases s with ⟨p, hp, hpu, hpipe⟩ | hpipe <;> simp only [hpipe]
  · have hreset : ∀ q, (Function.update s.pipes p ((s.pipes p).reset false 0 0)) q = s.pipes q ∨
        q < vfsMaxPipes ∧ (s.pipes q).used = false ∧
          (Function.update s.pipes p ((s.pipes p).reset false 0 0)) q = (s.pipes q).reset false 0 0 := by
      intro q
      by_cases heq : q = p
      · subst heq
        exact Or.inr ⟨hp, hpu, Function.update_self _ _ _⟩
      · exact Or.inl (Function.update_of_ne heq _ _)
    rcases twoFiles_cases (s.setPipe p ((s.pipes p).reset true 0 0)) with
      ⟨fr, fw, hfr, hfw, hne, hread, hwrite⟩ | ⟨fr, hfr, hread, hwrite⟩ | hread
    · simp only [hread, hwrite]
      refine ⟨rfl, Or.inl ⟨p, fr, fw, rfl, ⟨hp, hpu⟩, hfr, hfw, hne, ?_, ?_⟩⟩
      · funext i
        simp only [Vfs.setPipe, Vfs.setFile, Function.update_apply, pipeEnd]
        split_ifs <;> simp_all
      · simp [Vfs.setPipe, Vfs.setFile, VfsPipe.reset]
    · simp only [hread, hwrite, Option.elim_some, Option.elim_none]
      rw [fileRelease_fresh B (by simp [Vfs.setFile])]
      refine ⟨rfl, Or.inr ⟨trivial, files_undone [fr] (by simpa [Vfs.setPipe] using hfr) (by simp [Vfs.setPipe, Vfs.setFile]) ?_, ?_⟩⟩
      · intro i hi
        simp_all [Vfs.setPipe, Vfs.setFile]
      · intro q
        simpa [Vfs.setPipe, Vfs.setFile, VfsPipe.reset] using hreset q
    · simp only [hread, Option.elim_none, Option.elim_some]
      refine ⟨rfl, Or.inr ⟨trivial, fun i => Or.inl rfl, fun q => ?_⟩⟩
      simpa [Vfs.setPipe, VfsPipe.reset] using hreset q
  · rcases twoFiles_cases s with ⟨fr, fw, hfr, hfw, hne, hread, hwrite⟩ | ⟨fr, hfr, hread, hwrite⟩ | hread
    · simp only [hread, hwrite, Option.elim_some, Option.elim_none]
      rw [fileRelease_fresh B (i := fr) (by simp [Vfs.setFile, hne]), fileRelease_fresh B (i := fw) (by simp [Vfs.setFile, Ne.symm hne])]
      refine ⟨rfl, Or.inr ⟨trivial, files_undone [fr, fw] (by simp [hfr.2, hfw.2]) (by simp [Vfs.setFile, hne]) ?_, fun q => Or.inl rfl⟩⟩
      intro i hi
      simp_all [Vfs.setFile]
    · simp only [hread, hwrite, Option.elim_some, Option.elim_none]
      rw [fileRelease_fresh B (by simp [Vfs.setFile])]
      refine ⟨rfl, Or.inr ⟨trivial, files_undone [fr] (by simpa using hfr) (by simp [Vfs.setFile]) ?_, fun q => Or.inl rfl⟩⟩
      intro i hi
      simp_all [Vfs.setFile]
    · simp only [hread, Option.elim_none]
      exact ⟨trivial, Or.inr ⟨trivial, fun i => Or.inl rfl, fun q => Or.inl rfl⟩⟩

theorem RefsExact.undone (h : RefsExact n none s) {s' : Vfs φ β} (hfds : s'.fds = s.fds) (hundone : PipeUndone s s') :
    RefsExact n none s' := by
  have hpipe : ∀ p, (s'.pipes p).used = (s.pipes p).used ∧ (s'.pipes p).readers = (s.pipes p).readers ∧
      (s'.pipes p).writers = (s.pipes p).writers := by
    intro p
    rcases hundone.pipes p with heq | ⟨hp, hunused, heq⟩
    · rw [heq]
      exact ⟨rfl, rfl, rfl⟩
    · have hnone := mt (h.pipe p hp).mpr (by simp [hunused])
      have hzero : (s.pipes p).readers = 0 ∧ (s.pipes p).writers = 0 := by omega
      rw [heq, VfsPipe.reset, hunused, hzero.1, hzero.2]
      exact ⟨rfl, rfl, rfl⟩
  have hfile : ∀ i, (s.openFiles i).used = true → s'.openFiles i = s.openFiles i := fun i hused =>
    (hundone.files i).resolve_right fun hdead => by simp [hused] at hdead
  refine h.congr ⟨hfds, fun i => ?_, fun i hused => by rw [hfile i hused], fun i hused => by rw [hfile i hused],
    fun p => (hpipe p).1, fun p => (hpipe p).2.1, fun p => (hpipe p).2.2⟩
  rcases hundone.files i with heq | ⟨hunused, hdead⟩
  · rw [heq]
  · rw [hunused, hdead]

/-- Two empty slots are filled. -/
theorem refs_twoFds {s' : Vfs φ β} {proc fdR fdW fr fw : Nat} (hR : (proc, fdR) ∈ slots n) (hW : (proc, fdW) ∈ slots n) (hne : fdR ≠ fdW)
    (hnoneR : s.fds (proc, fdR) = none) (hnoneW : s.fds (proc, fdW) = none)
    (hfds : s'.fds = Function.update (Function.update s.fds (proc, fdR) (some fr)) (proc, fdW) (some fw)) (i : Nat) :
    s'.refs n i = s.refs n i + (if fr = i then 1 else 0) + (if fw = i then 1 else 0) := by
  have h₁ := refs_setFd (s := s) hR (some fr) i
  have h₂ := refs_setFd (s := s.setFd proc fdR (some fr)) hW (some fw) i
  have hslot : (s.setFd proc fdR (some fr)).fds (proc, fdW) = none := by simpa [Vfs.setFd, Ne.symm hne] using hnoneW
  have hsame : s'.refs n i = ((s.setFd proc fdR (some fr)).setFd proc fdW (some fw)).refs n i := by
    simp only [Vfs.refs, hfds, Vfs.setFd]
  rw [hnoneR] at h₁
  rw [hslot] at h₂
  simp only [reduceCtorEq, if_false, Nat.add_zero, Option.some.injEq] at h₁ h₂
  omega

/-- The new pipe has one end of each kind more. -/
theorem PipeMade.ends {s' : Vfs φ β} {p fr fw : Nat} (hmade : PipeMade s p fr fw s') (q : Nat) :
    s'.readEnds q = s.readEnds q + (if q = p then 1 else 0) ∧ s'.writeEnds q = s.writeEnds q + (if q = p then 1 else 0) := by
  have hsame : s'.openFiles = ((s.setFile fr (pipeEnd p true false vfsModeRead vfsORdonly)).setFile fw
      (pipeEnd p false true vfsModeWrite vfsOWronly)).openFiles := hmade.files
  have hfwu : ((s.setFile fr (pipeEnd p true false vfsModeRead vfsORdonly)).openFiles fw).used = false := by
    simpa [Vfs.setFile, Ne.symm hmade.ne] using hmade.hfw.2
  have hr₁ := readEnds_setFile (s := s) hmade.hfr.1 (pipeEnd p true false vfsModeRead vfsORdonly) q
  have hr₂ := readEnds_setFile (s := s.setFile fr (pipeEnd p true false vfsModeRead vfsORdonly)) hmade.hfw.1
    (pipeEnd p false true vfsModeWrite vfsOWronly) q
  have hw₁ := writeEnds_setFile (s := s) hmade.hfr.1 (pipeEnd p true false vfsModeRead vfsORdonly) q
  have hw₂ := writeEnds_setFile (s := s.setFile fr (pipeEnd p true false vfsModeRead vfsORdonly)) hmade.hfw.1
    (pipeEnd p false true vfsModeWrite vfsOWronly) q
  rw [hmade.hfr.2] at hr₁ hw₁
  rw [hfwu] at hr₂ hw₂
  simp only [Bool.false_eq_true, false_and, if_false, Nat.add_zero, pipeEnd, freshFile, VfsFile.readEnd, VfsFile.writeEnd,
    VfsFile.link, Option.any_some, Bool.and_true, Bool.and_false, beq_iff_eq, true_and, eq_comm (a := p)] at hr₁ hr₂ hw₁ hw₂
  constructor
  · simp only [Vfs.readEnds] at hr₁ hr₂ ⊢
    rw [hsame, ← hr₁, ← hr₂]
    rfl
  · simp only [Vfs.writeEnds] at hw₁ hw₂ ⊢
    rw [hsame, ← hw₁]
    exact hw₂

/-- A new pipe with one end of each kind, each end in its own slot. -/
theorem RefsExact.made (h : RefsExact n none s) {s' : Vfs φ β} {proc fdR fdW p fr fw : Nat} (hmade : PipeMade s p fr fw s')
    (hR : (proc, fdR) ∈ slots n) (hW : (proc, fdW) ∈ slots n) (hne : fdR ≠ fdW) (hnoneR : s.fds (proc, fdR) = none)
    (hnoneW : s.fds (proc, fdW) = none)
    (hfds : s'.fds = Function.update (Function.update s.fds (proc, fdR) (some fr)) (proc, fdW) (some fw)) :
    RefsExact n none s' := by
  have hrefs := refs_twoFds hR hW hne hnoneR hnoneW hfds
  have hends := hmade.ends
  have hfile : ∀ i, s'.openFiles i = if i = fw then pipeEnd p false true vfsModeWrite vfsOWronly
      else if i = fr then pipeEnd p true false vfsModeRead vfsORdonly else s.openFiles i := by
    intro i
    rw [hmade.files, Function.update_apply, Function.update_apply]
  have hpipe : ∀ q, s'.pipes q = if q = p then (s.pipes p).reset true 1 1 else s.pipes q := by
    intro q
    rw [hmade.pipes, Function.update_apply]
  have hnone := mt (h.pipe p hmade.hpipe.1).mpr (by simp [hmade.hpipe.2])
  have hzeroR := h.readers p hmade.hpipe.1
  have hzeroW := h.writers p hmade.hpipe.1
  refine ⟨fun k hk i hi => ?_, fun i hi => by simp at hi, fun i hi hused => ?_, fun q hq => ?_, fun q hq => ?_, fun q hq => ?_,
    fun i hi hused l hl => ?_⟩
  · rw [hfds, Function.update_apply, Function.update_apply] at hi
    rw [hfile]
    split_ifs at hi with hkW hkR
    · obtain rfl := Option.some.inj hi
      exact ⟨hmade.hfw.1, by simp [pipeEnd, freshFile]⟩
    · obtain rfl := Option.some.inj hi
      exact ⟨hmade.hfr.1, by simp [hmade.ne, pipeEnd, freshFile]⟩
    · obtain ⟨hlt, hused⟩ := h.slot k hk i hi
      refine ⟨hlt, ?_⟩
      split_ifs
      · rfl
      · rfl
      · exact hused
  · rw [hfile] at hused ⊢
    rw [hrefs]
    have hfr := h.refs_of_unused hmade.hfr.2
    have hfw := h.refs_of_unused hmade.hfw.2
    by_cases hiW : i = fw
    · subst hiW
      simp [pipeEnd, freshFile, hfw, hmade.ne]
    by_cases hiR : i = fr
    · subst hiR
      simp [pipeEnd, freshFile, hfr, hmade.ne, Ne.symm hmade.ne]
    rw [if_neg hiW, if_neg hiR] at hused
    simpa [hiW, hiR, Ne.symm hiW, Ne.symm hiR] using h.refcount i hi hused
  · rw [hpipe, (hends q).1]
    split_ifs with heq
    · subst heq
      simp only [VfsPipe.reset]
      omega
    · exact h.readers q hq
  · rw [hpipe, (hends q).2]
    split_ifs with heq
    · subst heq
      simp only [VfsPipe.reset]
      omega
    · exact h.writers q hq
  · rw [hpipe]
    split_ifs with heq
    · simp [VfsPipe.reset]
    · exact h.pipe q hq
  · rw [hfile] at hused hl
    split_ifs at hused hl with hiW hiR
    · simp only [pipeEnd, VfsFile.link, freshFile, Option.mem_some_iff] at hl
      rw [← hl]
      exact hmade.hpipe.1
    · simp only [pipeEnd, VfsFile.link, freshFile, Option.mem_some_iff] at hl
      rw [← hl]
      exact hmade.hpipe.1
    · exact h.range i hi hused l hl

/-- The slots a successful `vfs_pipe` has filled. -/
structure EndsPut (s : Vfs φ β) (proc fdR fdW fr fw : Nat) (s' : Vfs φ β) : Prop where
  read : fdR < processMaxOpenFiles ∧ s.fds (proc, fdR) = none
  write : fdW < processMaxOpenFiles ∧ s.fds (proc, fdW) = none
  ne : fdR ≠ fdW
  fds : s'.fds = Function.update (Function.update s.fds (proc, fdR) (some fr)) (proc, fdW) (some fw)

/-- `vfs_pipe` makes a pipe with its two ends in two empty slots, or gives back everything it took. -/
theorem vfsPipe_cases (B : Backends φ β) (s : Vfs φ β) (proc : Nat) :
    (∃ fdR fdW p fr fw, (vfsPipe B s proc).1 = some (fdR, fdW) ∧ PipeMade s p fr fw (vfsPipe B s proc).2 ∧
      EndsPut s proc fdR fdW fr fw (vfsPipe B s proc).2) ∨
    ((vfsPipe B s proc).1 = none ∧ (vfsPipe B s proc).2.fds = s.fds ∧ PipeUndone s (vfsPipe B s proc).2) := by
  unfold vfsPipe
  split
  · exact Or.inr ⟨rfl, rfl, fun _ => Or.inl rfl, fun _ => Or.inl rfl⟩
  rename_i fdR hfdR
  obtain ⟨hR, hnoneR⟩ := processFdAlloc_eq_some hfdR
  simp only
  split
  · exact Or.inr ⟨rfl, by simp [Vfs.setFd, ← hnoneR], fun _ => Or.inl rfl, fun _ => Or.inl rfl⟩
  rename_i fdW hfdW
  obtain ⟨hW, hnoneW⟩ := processFdAlloc_eq_some hfdW
  have hne : fdR ≠ fdW := by
    rintro rfl
    simp [Vfs.setFd] at hnoneW
  have hnoneW' : s.fds (proc, fdW) = none := by simpa [Vfs.setFd, Ne.symm hne] using hnoneW
  obtain ⟨hfds, hcases⟩ := makePipe_cases B ((s.setFd proc fdR (some reservedEntry)).setFd proc fdW (some reservedEntry))
  rcases hres : makePipe B ((s.setFd proc fdR (some reservedEntry)).setFd proc fdW (some reservedEntry)) with ⟨ends, t⟩
  rw [hres] at hfds hcases
  replace hfds : t.fds = _ := hfds
  have hslots : ∀ a b, ((t.setFd proc fdR a).setFd proc fdW b).fds =
      Function.update (Function.update s.fds (proc, fdR) a) (proc, fdW) b := by
    intro a b
    funext k
    simp only [Vfs.setFd, hfds, Function.update_apply]
    split_ifs <;> rfl
  rcases hcases with ⟨p, fr, fw, hends, hmade⟩ | ⟨hends, hundone⟩
  · obtain rfl : ends = some (fr, fw) := hends
    exact Or.inl ⟨fdR, fdW, p, fr, fw, rfl, ⟨hmade.hpipe, hmade.hfr, hmade.hfw, hmade.ne, hmade.files, hmade.pipes⟩,
      ⟨hR, hnoneR⟩, ⟨hW, hnoneW'⟩, hne, hslots _ _⟩
  · obtain rfl : ends = none := hends
    refine Or.inr ⟨rfl, ?_, hundone.files, hundone.pipes⟩
    rw [hslots]
    funext k
    simp only [Function.update_apply]
    split_ifs with hkW hkR
    · rw [hkW, hnoneW']
    · rw [hkR, hnoneR]
    · rfl

theorem RefsExact.makesPipe (B : Backends φ β) (h : RefsExact n none s) {proc : Nat} (hproc : proc < n) :
    RefsExact n none (vfsPipe B s proc).2 := by
  rcases vfsPipe_cases B s proc with ⟨fdR, fdW, p, fr, fw, -, hmade, hput⟩ | ⟨-, hfds, hundone⟩
  · exact h.made hmade (mem_slots.mpr ⟨hproc, hput.read.1⟩) (mem_slots.mpr ⟨hproc, hput.write.1⟩) hput.ne hput.read.2
      hput.write.2 hput.fds
  · exact h.undone hfds hundone

/-! ### Reading and writing -/

theorem pipeRead_counts (count : Nat) (pipe : VfsPipe) :
    (pipeRead count pipe).2.used = pipe.used ∧ (pipeRead count pipe).2.readers = pipe.readers ∧
      (pipeRead count pipe).2.writers = pipe.writers := by
  induction count generalizing pipe with
  | zero => exact ⟨rfl, rfl, rfl⟩
  | succ count ih =>
      simp only [pipeRead]
      split
      · exact ih _
      · exact ⟨rfl, rfl, rfl⟩

theorem pipeWrite_counts (src : List UInt8) (pipe : VfsPipe) :
    (pipeWrite src pipe).2.used = pipe.used ∧ (pipeWrite src pipe).2.readers = pipe.readers ∧
      (pipeWrite src pipe).2.writers = pipe.writers := by
  induction src generalizing pipe with
  | nil => exact ⟨rfl, rfl, rfl⟩
  | cons byte src ih =>
      simp only [pipeWrite]
      split
      · exact ih _
      · exact ⟨rfl, rfl, rfl⟩

theorem SameCounts.refl (s : Vfs φ β) : SameCounts s s :=
  ⟨rfl, fun _ => rfl, fun _ _ => rfl, fun _ _ => rfl, fun _ => rfl, fun _ => rfl, fun _ => rfl⟩

theorem SameCounts.setPipe {p : Nat} {pipe : VfsPipe} (h : pipe.used = (s.pipes p).used ∧ pipe.readers = (s.pipes p).readers ∧
    pipe.writers = (s.pipes p).writers) : SameCounts s (s.setPipe p pipe) := by
  refine ⟨rfl, fun _ => rfl, fun _ _ => rfl, fun _ _ => rfl, fun q => ?_, fun q => ?_, fun q => ?_⟩ <;>
    · simp only [Vfs.setPipe, Function.update_apply]
      split
      · rename_i heq
        simp [heq, h]
      · rfl

theorem VfsFile.link_of_backend_ne {f : VfsFile β} (h : f.backend ≠ .pipe) : f.link = none := by
  unfold VfsFile.link
  split
  · rename_i hbackend _
    exact absurd hbackend h
  · rfl

theorem vfsRead_sameCounts (B : Backends φ β) (s : Vfs φ β) (proc : Nat) (fd : Int) (count : Nat) :
    SameCounts s (vfsRead B s proc fd count).2 := by
  unfold vfsRead
  split
  · exact SameCounts.refl s
  simp only
  split
  · exact SameCounts.refl s
  split
  · split
    · split
      · exact SameCounts.setPipe (pipeRead_counts _ _)
      · exact SameCounts.refl s
    · exact SameCounts.refl s
  · refine SameCounts.setFile ?_ ?_ ?_ _ <;> rfl

theorem vfsWrite_sameCounts (B : Backends φ β) (s : Vfs φ β) (proc : Nat) (fd : Int) (src : List UInt8) :
    SameCounts s (vfsWrite B s proc fd src).2 := by
  unfold vfsWrite
  split
  · exact SameCounts.refl s
  simp only
  split
  · exact SameCounts.refl s
  split
  · split
    · split
      · exact SameCounts.setPipe (pipeWrite_counts _ _)
      · exact SameCounts.refl s
    · exact SameCounts.refl s
  · rename_i hbackend
    refine SameCounts.setFile ?_ ?_ ?_ _
    · rfl
    · rfl
    · refine Eq.trans ?_ (VfsFile.link_of_backend_ne hbackend).symm
      exact VfsFile.link_of_backend_ne hbackend

end Tsukasa
