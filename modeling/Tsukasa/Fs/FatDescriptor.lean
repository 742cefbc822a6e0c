import Tsukasa.Fs.FatStore
import Tsukasa.Fs.VfsCalls

/-!
# A descriptor of a FAT file

What each call of `fs/vfs.c` does through a descriptor that is the only one of its entry: opening fills an entry, reads, writes and seeks work on its buffer, and closing flushes it and gives entry and descriptor back.
-/

namespace Tsukasa

open Lib (overlay)

variable {resolve : Nat → List UInt8 → Option (VfsMount × List UInt8)} {s s' : Vfs FatVolumes RegularFile} {f : VfsFile RegularFile}
  {proc i : Nat} {fd : Int} {backend : VfsBackend} {path sub shown c : List UInt8} {m : VfsMount} {flags : BitVec 32} {room : Nat}

/-- An entry with one descriptor, whose buffer holds `c`. An entry that is not dirty holds what the volume showed when it was opened. -/
structure EntryOf (f : VfsFile RegularFile) (backend : VfsBackend) (sub shown c : List UInt8) : Prop where
  used : f.used = true
  refcount : f.refcount = 1
  backend : f.backend = backend
  path : f.path = sub
  holds : f.regular.Holds c
  pos : f.pos ≤ c.length
  clean : f.dirty = false → c = shown
  null : c = [] → f.regular.buf.isSome → shown = []

def IsFat (backend : VfsBackend) : Prop := backend = .fat12 ∨ backend = .fat32

theorem IsFat.ne_pipe (h : IsFat backend) : backend ≠ .pipe := by
  rcases h with rfl | rfl <;> decide

theorem IsFat.ne_none (h : IsFat backend) : backend ≠ .none := by
  rcases h with rfl | rfl <;> decide

/-! ### Writing, seeking and reading -/

variable (resolve) in
theorem vfsWrite_entry (hlookup : fdLookup s proc fd = some i) (h : EntryOf (s.openFiles i) backend sub shown c) (hfat : IsFat backend)
    (hmode : (s.openFiles i).mode &&& vfsModeWrite ≠ 0) (src : List UInt8) :
    ∃ wr f vol, vfsWrite (fatBackends resolve) s proc fd src = (wr, { s.setFile i f with fs := vol }) ∧ s.fs.SameDisks vol ∧
      f.flags = (s.openFiles i).flags ∧ f.mode = (s.openFiles i).mode ∧ f.pos = writeStart (s.openFiles i) c + wr ∧
      EntryOf f backend sub shown (overlay c (writeStart (s.openFiles i) c) (src.take wr)) := by
  obtain ⟨wr, pos, dirty, r, vol, heq, hdisks, hwrite⟩ := writeRegular_spec h.holds h.pos s.fs src
  have hpipe : (s.openFiles i).backend ≠ .pipe := h.backend ▸ hfat.ne_pipe
  refine ⟨wr, { s.openFiles i with pos := pos, dirty := dirty, u := .backed r }, vol, ?_, hdisks, rfl, rfl, hwrite.pos, ?_⟩
  · simp only [vfsWrite, hlookup, if_neg hmode, if_neg hpipe, fatBackends, heq]
  · have hlength := Lib.length_overlay (writeStart_le h.pos) (src.take wr)
    rw [hwrite.length] at hlength
    refine ⟨h.used, h.refcount, h.backend, h.path, hwrite.holds, ?_, fun hclean => ?_, fun hnil hsome => ?_⟩
    · simp only
      rw [hwrite.pos, hlength]
      exact Nat.le_max_right _ _
    · obtain ⟨rfl, hdirty⟩ | ⟨-, hdirty⟩ := hwrite.count
      · rw [List.take_zero, Lib.overlay_nil]
        exact h.clean (hdirty.symm.trans hclean)
      · exact absurd (hdirty.symm.trans hclean) (by decide)
    · have hc : c = [] := by
        rw [hnil, List.length_nil] at hlength
        exact List.eq_nil_of_length_eq_zero (by omega)
      exact h.null hc ((hwrite.grown hsome).resolve_right fun hne => hne hnil)

variable (resolve) in
theorem vfsRead_entry (hlookup : fdLookup s proc fd = some i) (h : EntryOf (s.openFiles i) backend sub shown c) (hfat : IsFat backend)
    (hmode : (s.openFiles i).mode &&& vfsModeRead ≠ 0) (count : Nat) :
    ∃ f, vfsRead (fatBackends resolve) s proc fd count = ((c.drop (s.openFiles i).pos).take count, s.setFile i f) ∧
      f.flags = (s.openFiles i).flags ∧ f.mode = (s.openFiles i).mode ∧ f.dirty = (s.openFiles i).dirty ∧
      f.pos = (s.openFiles i).pos + ((c.drop (s.openFiles i).pos).take count).length ∧ EntryOf f backend sub shown c := by
  have hpipe : (s.openFiles i).backend ≠ .pipe := h.backend ▸ hfat.ne_pipe
  refine ⟨{ s.openFiles i with pos := (s.openFiles i).pos + ((c.drop (s.openFiles i).pos).take count).length }, ?_, rfl, rfl, rfl, rfl, ?_⟩
  · simp only [vfsRead, hlookup, if_neg hmode, if_neg hpipe, fatBackends, readRegular_eq h.holds]
    rfl
  · refine ⟨h.used, h.refcount, h.backend, h.path, h.holds, ?_, h.clean, h.null⟩
    have hpos := h.pos
    simp only [List.length_take, List.length_drop]
    omega

/-- The position a seek moves to, in a file of this size. -/
def seekTarget (pos size offset : Nat) (whence : Int) : Option Nat :=
  if whence = vfsSeekSet then some (min (wrap64 offset) size)
  else if whence = vfsSeekCur then some (min (wrap64 (pos + offset)) size)
  else if whence = vfsSeekEnd then some (min (wrap64 (size + offset)) size)
  else none

theorem vfsSeek_entry (hlookup : fdLookup s proc fd = some i) (h : EntryOf (s.openFiles i) backend sub shown c) (hfat : IsFat backend) (offset : Nat)
    (whence : Int) : ∃ f, (vfsSeek regularSize s proc fd offset whence).2 = s.setFile i f ∧ f.flags = (s.openFiles i).flags ∧
      f.mode = (s.openFiles i).mode ∧ f.dirty = (s.openFiles i).dirty ∧
      f.pos = (seekTarget (s.openFiles i).pos c.length offset whence).getD (s.openFiles i).pos ∧ EntryOf f backend sub shown c := by
  have hpipe : (s.openFiles i).backend ≠ .pipe := h.backend ▸ hfat.ne_pipe
  have hmove : ∀ pos, EntryOf { s.openFiles i with pos := min pos c.length } backend sub shown c := fun pos =>
    ⟨h.used, h.refcount, h.backend, h.path, h.holds, Nat.min_le_right _ _, h.clean, h.null⟩
  have hself : s = s.setFile i (s.openFiles i) := by rw [Vfs.setFile, Function.update_eq_self]
  simp only [vfsSeek, hlookup, if_neg hpipe, regularSize, h.holds.size, seekTarget]
  by_cases hset : whence = vfsSeekSet
  · simp only [if_pos hset]
    exact ⟨_, rfl, rfl, rfl, rfl, rfl, hmove _⟩
  by_cases hcur : whence = vfsSeekCur
  · simp only [if_neg hset, if_pos hcur]
    exact ⟨_, rfl, rfl, rfl, rfl, rfl, hmove _⟩
  by_cases hend : whence = vfsSeekEnd
  · simp only [if_neg hset, if_neg hcur, if_pos hend]
    exact ⟨_, rfl, rfl, rfl, rfl, rfl, hmove _⟩
  · simp only [if_neg hset, if_neg hcur, if_neg hend]
    exact ⟨_, hself, rfl, rfl, rfl, rfl, h⟩

/-! ### Closing -/

/-- The volume behind a close: a buffer that was written to has been flushed. -/
structure ClosedAs (f : VfsFile RegularFile) (backend : VfsBackend) (sub shown c : List UInt8) (room : Nat) (vol vol' : FatVolumes) : Prop where
  hung : vol'.hung = vol.hung
  clean : f.dirty = false ∨ f.mode &&& vfsModeWrite = 0 → vol' = vol
  flushed : f.dirty = true → f.mode &&& vfsModeWrite ≠ 0 → Flushed vol' backend sub shown room f.regular.buf c

variable (resolve) in
theorem flushRegularFile_entry {snapshot : List UInt8} (h : EntryOf (s.openFiles i) backend sub snapshot c) (hfat : IsFat backend)
    (hkept : FileKept s.fs backend sub shown room) : ∃ f vol, flushRegularFile (fatBackends resolve) s i = { s.setFile i f with fs := vol } ∧
      f.backend = backend ∧ ClosedAs (s.openFiles i) backend sub shown c room s.fs vol := by
  have hself : s = { s.setFile i (s.openFiles i) with fs := s.fs } := by rw [Vfs.setFile, Function.update_eq_self]
  by_cases hdirty : (s.openFiles i).dirty = false
  · refine ⟨_, s.fs, ?_, h.backend, rfl, fun _ => rfl, fun htrue => absurd (hdirty.symm.trans htrue) (by decide)⟩
    rw [flushRegularFile, if_pos (by simp [hdirty])]
    exact hself
  by_cases hmode : (s.openFiles i).mode &&& vfsModeWrite = 0
  · refine ⟨_, s.fs, ?_, h.backend, rfl, fun _ => rfl, fun _ hne => absurd hmode hne⟩
    rw [flushRegularFile, if_neg (by simpa using hdirty), if_pos hmode]
    exact hself
  obtain ⟨ok, vol, hflush, hhung, hflushed⟩ := hkept.flush h.backend h.path h.holds
  have hclosed : ClosedAs (s.openFiles i) backend sub shown c room s.fs vol :=
    ⟨hhung, fun hclean => absurd hclean (not_or.mpr ⟨hdirty, hmode⟩), fun _ _ => hflushed⟩
  rw [flushRegularFile, if_neg (by simpa using hdirty), if_neg hmode, if_pos (h.backend ▸ hfat)]
  simp only [fatBackends, hflush]
  cases ok with
  | true => exact ⟨_, vol, rfl, h.backend, hclosed⟩
  | false => exact ⟨_, vol, congrArg (fun t : Vfs FatVolumes RegularFile => { t with fs := vol }) hself, h.backend, hclosed⟩

variable (resolve) in
theorem vfsClose_entry {snapshot : List UInt8} (hlookup : fdLookup s proc fd = some i) (h : EntryOf (s.openFiles i) backend sub snapshot c)
    (hfat : IsFat backend) (hkept : FileKept s.fs backend sub shown room) :
    ∃ f vol, vfsClose (fatBackends resolve) s proc fd = { (s.setFd proc fd.toNat none).setFile i f with fs := vol } ∧ f.used = false ∧
      ClosedAs (s.openFiles i) backend sub shown c room s.fs vol := by
  obtain ⟨f, vol, hflush, hbackend, hclosed⟩ :=
    flushRegularFile_entry resolve (s := s.setFd proc fd.toNat none) h hfat hkept
  have hpipe : (s.openFiles i).backend ≠ .pipe := h.backend ▸ hfat.ne_pipe
  refine ⟨{ f with used := false, refcount := 0 }, vol, ?_, rfl, hclosed⟩
  simp only [vfsClose, fdCloseOnTable, hlookup, fileRelease]
  rw [if_neg (by simp [Vfs.setFd, h.used]), if_neg (by simp [Vfs.setFd, h.refcount]), hflush]
  split
  · rename_i hbackend' _
    exact absurd hbackend' hpipe
  · simp only [Vfs.setFile, Function.update_self, Function.update_idem]

/-! ### Opening -/

/-- The entry that an open fills. -/
def openedFile (backend : VfsBackend) (sub : List UInt8) (flags : BitVec 32) (o : Opened RegularFile) : VfsFile RegularFile :=
  { (freshFile : VfsFile RegularFile) with
    flags := flags, mode := o.mode, dirty := o.dirty, backend := backend, pos := o.pos, path := sub, u := .backed o.data }

theorem OpenedAs.entry {o : Opened RegularFile} (h : OpenedAs flags shown o) (backend : VfsBackend) (sub : List UInt8) :
    EntryOf (openedFile backend sub flags o) backend sub shown (openContents flags shown) := by
  refine ⟨rfl, rfl, rfl, rfl, h.holds, ?_, fun hclean => ?_, fun hnil hsome => ?_⟩
  · show o.pos ≤ _
    rw [h.pos]
    split
    · exact le_rfl
    · exact Nat.zero_le _
  · have htrunc : ¬ flags &&& vfsOTrunc ≠ 0 := of_decide_eq_false (h.dirty.symm.trans hclean)
    exact if_neg htrunc
  · by_cases htrunc : flags &&& vfsOTrunc ≠ 0
    · have hnone : (openedFile backend sub flags o).regular.buf = none := h.null htrunc
      rw [hnone] at hsome
      exact absurd hsome (by decide)
    · rwa [openContents, if_neg htrunc] at hnil

/-- The state behind an open that succeeds. -/
structure OpenState (s : Vfs FatVolumes RegularFile) (proc : Nat) (backend : VfsBackend) (sub : List UInt8) (flags : BitVec 32) (fd : Int) (i : Nat)
    (o : Opened RegularFile) (s' : Vfs FatVolumes RegularFile) : Prop where
  index : i < vfsMaxOpenGlobal
  free : (s.openFiles i).used = false
  slot : fd.toNat < processMaxOpenFiles
  empty : s.fds (proc, fd.toNat) = none
  nonneg : 0 ≤ fd
  opened : openRegularBuffered s.fs backend sub flags = (some o, s'.fs)
  files : s'.openFiles = Function.update s.openFiles i (openedFile backend sub flags o)
  fds : s'.fds = Function.update s.fds (proc, fd.toNat) (some i)

theorem OpenState.lookup {o : Opened RegularFile} (h : OpenState s proc backend sub flags fd i o s') : fdLookup s' proc fd = some i := by
  have hnonneg := h.nonneg
  have hslot := h.slot
  have hvalid : fdValid fd = true := by
    simp only [fdValid, Bool.and_eq_true, decide_eq_true_eq]
    omega
  rw [fdLookup, if_pos hvalid, h.fds, Function.update_self]

theorem OpenState.file {o : Opened RegularFile} (h : OpenState s proc backend sub flags fd i o s') : s'.openFiles i = openedFile backend sub flags o := by
  rw [h.files, Function.update_self]

theorem vfsOpen_entry (hresolve : resolve proc path = some (m, sub)) (hfat : IsFat m.backend)
    (hopen : vfsOpenFlags (fatBackends resolve) s proc (some path) flags = (fd, s')) (hfd : 0 ≤ fd) :
    ∃ i o, OpenState s proc m.backend sub flags fd i o s' := by
  have hfail : ∀ {t : Vfs FatVolumes RegularFile}, ((-1 : Int), t) ≠ (fd, s') := by
    intro t heq
    have hminus := (Prod.mk.inj heq).1
    omega
  rw [vfsOpenFlags, Option.bind_some, show (fatBackends resolve).resolve s.fs proc path = some (m, sub) from hresolve] at hopen
  simp only at hopen
  split at hopen
  · exact absurd hopen hfail
  obtain ⟨i, hi, hfree, halloc⟩ | halloc := fileAlloc_cases s
  · rw [halloc] at hopen
    simp only at hopen
    rw [if_neg (not_or.mpr ⟨hfat.ne_none, hfat.ne_pipe⟩)] at hopen
    split at hopen
    · exact absurd hopen hfail
    rename_i o vol hopened
    split at hopen
    · exact absurd hopen hfail
    rename_i k hk
    obtain ⟨hlt, hslot⟩ := processFdAlloc_eq_some hk
    obtain ⟨rfl, rfl⟩ := Prod.mk.inj hopen
    refine ⟨i, o, hi, hfree, ?_, ?_, Int.natCast_nonneg k, hopened, ?_, ?_⟩
    · rwa [Int.toNat_natCast]
    · rw [Int.toNat_natCast]
      exact hslot
    · simp only [Vfs.setFile, Vfs.setFd, Function.update_self, Function.update_idem]
      rfl
    · rw [Int.toNat_natCast]
      rfl
  · rw [halloc] at hopen
    exact absurd hopen hfail

/-- A file is opened for reading when the pool, the table and the backend have what it takes. -/
theorem vfsOpen_succeeds {o : Opened RegularFile} {vol : FatVolumes} {k : Nat} (hresolve : resolve proc path = some (m, sub)) (hfat : IsFat m.backend)
    (hi : i < vfsMaxOpenGlobal) (hfree : (s.openFiles i).used = false) (hk : k < processMaxOpenFiles) (hempty : s.fds (proc, k) = none)
    (hopened : openRegularBuffered s.fs m.backend sub vfsORdonly = (some o, vol)) :
    0 ≤ (vfsOpenFlags (fatBackends resolve) s proc (some path) vfsORdonly).1 := by
  have hreadable : (decide (vfsORdonly &&& vfsOWronly ≠ 0) || decide (vfsORdonly &&& vfsOCreat ≠ 0) || decide (vfsORdonly &&& vfsOTrunc ≠ 0)) = false := by
    decide
  obtain ⟨j, halloc⟩ := fileAlloc_succeeds hi hfree
  rw [vfsOpenFlags, Option.bind_some, show (fatBackends resolve).resolve s.fs proc path = some (m, sub) from hresolve]
  simp only [hreadable, Bool.and_false, Bool.false_eq_true, if_false, halloc]
  rw [if_neg (not_or.mpr ⟨hfat.ne_none, hfat.ne_pipe⟩)]
  simp only [Vfs.setFile]
  rw [show (fatBackends resolve).openFile s.fs m.backend sub vfsORdonly = (some o, vol) from hopened]
  simp only
  split
  · rename_i hnone
    obtain ⟨fd, hfd⟩ := processFdAlloc_succeeds (s := s) hk hempty
    exact absurd (hfd.symm.trans hnone) (Option.some_ne_none _)
  · exact Int.natCast_nonneg _

end Tsukasa
