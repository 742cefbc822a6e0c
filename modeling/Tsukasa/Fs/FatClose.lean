import Tsukasa.Fs.FatDescriptor
import Tsukasa.Lib.Run

/-!
# What a close keeps of a FAT file

A descriptor is opened for writing, written to and moved, and closed; then the file is opened and read. What is read is the initial contents under every range that `vfs_write` has reported, exactly when this fits what the file can take, and is not an emptied FAT12 file.
-/

namespace Tsukasa

open Lib (overlay)

variable {resolve : Nat → List UInt8 → Option (VfsMount × List UInt8)} {s s' : Vfs FatVolumes RegularFile} {proc i : Nat} {fd : Int}
  {backend : VfsBackend} {path sub shown content c e d : List UInt8} {m : VfsMount} {flags : BitVec 32} {room : Nat}

inductive FileCall where
  | write (src : List UInt8)
  | seek (offset : Nat) (whence : Int)

/-- A call through a descriptor, and the contents the file should have behind it. The bytes that a write reports end at the position it leaves. -/
def FileCall.run (B : Backends FatVolumes RegularFile) (proc : Nat) (fd : Int) (x : Vfs FatVolumes RegularFile × List UInt8) :
    FileCall → Vfs FatVolumes RegularFile × List UInt8
  | .write src =>
      let (wr, s) := vfsWrite B x.1 proc fd src
      (s, overlay x.2 (vfsTell s proc fd - wr) (src.take wr))
  | .seek offset whence => ((vfsSeek regularSize x.1 proc fd offset whence).2, x.2)

def runFileCalls (B : Backends FatVolumes RegularFile) (proc : Nat) (fd : Int) (s : Vfs FatVolumes RegularFile) (e : List UInt8) (calls : List FileCall) :
    Vfs FatVolumes RegularFile × List UInt8 :=
  Lib.run (FileCall.run B proc fd) (s, e) calls

/-- An open for reading that gets the memory for its buffer. -/
def reopen (B : Backends FatVolumes RegularFile) (s : Vfs FatVolumes RegularFile) (proc : Nat) (path : List UInt8) : Int × Vfs FatVolumes RegularFile :=
  vfsOpenFlags B { s with fs := { s.fs with heap := fun _ _ => true } } proc (some path) vfsORdonly

/-- The file can be opened, and reading it yields `e`. -/
def ReopensAs (B : Backends FatVolumes RegularFile) (s : Vfs FatVolumes RegularFile) (proc : Nat) (path e : List UInt8) : Prop :=
  0 ≤ (reopen B s proc path).1 ∧
    ∀ count, e.length ≤ count → (vfsRead B (reopen B s proc path).2 proc (reopen B s proc path).1 count).1 = e

/-- No byte that was reported as written is missing behind the close. -/
def NoSilentLoss (B : Backends FatVolumes RegularFile) (s : Vfs FatVolumes RegularFile) (proc : Nat) (fd : Int) (path initial : List UInt8)
    (calls : List FileCall) : Prop :=
  let (s, e) := runFileCalls B proc fd s initial calls
  (vfsClose B s proc fd).fs.hung = false ∧ ReopensAs B (vfsClose B s proc fd) proc path e

/-- One read that is too short is enough. -/
theorem not_noSilentLoss {B : Backends FatVolumes RegularFile} {calls : List FileCall} (count : Nat)
    (hcount : (runFileCalls B proc fd s content calls).2.length ≤ count)
    (hread : (vfsRead B (reopen B (vfsClose B (runFileCalls B proc fd s content calls).1 proc fd) proc path).2 proc
      (reopen B (vfsClose B (runFileCalls B proc fd s content calls).1 proc fd) proc path).1 count).1 ≠ (runFileCalls B proc fd s content calls).2) :
    ¬ NoSilentLoss B s proc fd path content calls :=
  fun hkept => hread (hkept.2.2 count hcount)

/-! ### The open descriptor -/

structure Session (s : Vfs FatVolumes RegularFile) (proc : Nat) (fd : Int) (i : Nat) (backend : VfsBackend) (sub shown c : List UInt8) (room : Nat) :
    Prop where
  lookup : fdLookup s proc fd = some i
  index : i < vfsMaxOpenGlobal
  entry : EntryOf (s.openFiles i) backend sub shown c
  writable : (s.openFiles i).mode &&& vfsModeWrite ≠ 0
  kept : FileKept s.fs backend sub shown room
  hung : s.fs.hung = false

/-- The buffer holds what the file should have, or that is too much for the file anyway. -/
def Tracks (room : Nat) (c e : List UInt8) : Prop := c = e ∨ room < e.length ∧ c.length ≤ e.length

theorem Tracks.overlay (h : Tracks room c e) {pos : Nat} (hpos : pos ≤ c.length) (src : List UInt8) :
    Tracks room (Lib.overlay c pos src) (Lib.overlay e pos src) := by
  obtain rfl | ⟨hlong, hle⟩ := h
  · exact Or.inl rfl
  · rw [Tracks, Lib.length_overlay hpos, Lib.length_overlay (hpos.trans hle)]
    exact Or.inr ⟨by omega, by omega⟩

variable (resolve) in
theorem Session.step (h : Session s proc fd i backend sub shown c room) (hfat : IsFat backend) (htracks : Tracks room c e) (call : FileCall) :
    ∃ c', Session (call.run (fatBackends resolve) proc fd (s, e)).1 proc fd i backend sub shown c' room ∧
      Tracks room c' (call.run (fatBackends resolve) proc fd (s, e)).2 := by
  cases call with
  | write src =>
      obtain ⟨wr, f, vol, heq, hdisks, -, hmode, hpos, hentry⟩ := vfsWrite_entry resolve h.lookup h.entry hfat h.writable src
      have htell : vfsTell { s.setFile i f with fs := vol } proc fd - wr = writeStart (s.openFiles i) c := by
        have hlookup : fdLookup { s.setFile i f with fs := vol } proc fd = some i := h.lookup
        rw [vfsTell, hlookup]
        simp only [Vfs.setFile, Function.update_self, hpos, Nat.add_sub_cancel]
      refine ⟨overlay c (writeStart (s.openFiles i) c) (src.take wr), ?_, ?_⟩
      · simp only [FileCall.run, heq]
        refine ⟨h.lookup, h.index, ?_, ?_, h.kept.same hdisks, hdisks.hung.trans h.hung⟩
        · simpa [Vfs.setFile] using hentry
        · simpa [Vfs.setFile, hmode] using h.writable
      · simp only [FileCall.run, heq, htell]
        exact htracks.overlay (writeStart_le h.entry.pos) _
  | seek offset whence =>
      obtain ⟨f, heq, -, hmode, -, -, hentry⟩ := vfsSeek_entry h.lookup h.entry hfat offset whence
      refine ⟨c, ?_, htracks⟩
      simp only [FileCall.run, heq]
      refine ⟨h.lookup, h.index, ?_, ?_, h.kept, h.hung⟩
      · simpa [Vfs.setFile] using hentry
      · simpa [Vfs.setFile, hmode] using h.writable

variable (resolve) in
theorem Session.run (h : Session s proc fd i backend sub shown c room) (hfat : IsFat backend) (htracks : Tracks room c e) (calls : List FileCall) :
    ∃ c', Session (runFileCalls (fatBackends resolve) proc fd s e calls).1 proc fd i backend sub shown c' room ∧
      Tracks room c' (runFileCalls (fatBackends resolve) proc fd s e calls).2 := by
  induction calls generalizing s c e with
  | nil => exact ⟨c, h, htracks⟩
  | cons call calls ih =>
      obtain ⟨c', h', htracks'⟩ := h.step resolve hfat htracks call
      exact ih h' htracks'

/-! ### Closing and opening again -/

theorem eq_iff_of_long {p : Prop} (hlong : room < e.length) (hd : d.length < e.length) : d = e ↔ e.length ≤ room ∧ p := by
  constructor
  · rintro rfl
    exact absurd hd (Nat.lt_irrefl _)
  · exact fun hfits => absurd hfits.1 (Nat.not_le.mpr hlong)

/-- What the volume shows once the descriptor is closed. -/
theorem ClosedAs.shows {f : VfsFile RegularFile} {vol vol' : FatVolumes} (h : ClosedAs f backend sub shown c room vol vol')
    (hentry : EntryOf f backend sub shown c) (hmode : f.mode &&& vfsModeWrite ≠ 0) (hkept : FileKept vol backend sub shown room) (htracks : Tracks room c e) :
    ∃ d, Shows vol' backend sub d ∧ (d = e ↔ e.length ≤ room ∧ (backend = .fat12 → e = [] → shown = [])) := by
  have hle := hkept.length_le
  by_cases hdirty : f.dirty = false
  · refine ⟨shown, h.clean (Or.inl hdirty) ▸ hkept.shows, ?_⟩
    obtain rfl | ⟨hlong, -⟩ := htracks
    · rw [hentry.clean hdirty]
      exact ⟨fun _ => ⟨hle, fun _ hnil => hnil⟩, fun _ => rfl⟩
    · exact eq_iff_of_long hlong (hle.trans_lt hlong)
  have hflushed := h.flushed (by simpa using hdirty) hmode
  by_cases hnull : backend = .fat12 ∧ f.regular.buf = none
  · refine ⟨shown, (hflushed.null hnull.1 hnull.2).shows, ?_⟩
    have hnil := hentry.holds.nil_of_null hnull.2
    obtain rfl | ⟨hlong, -⟩ := htracks
    · rw [hnil]
      exact ⟨fun heq => ⟨Nat.zero_le _, fun _ _ => heq⟩, fun hfits => hfits.2 hnull.1 rfl⟩
    · exact eq_iff_of_long hlong (hle.trans_lt hlong)
  by_cases hfits : c.length ≤ room
  · refine ⟨c, (hflushed.fits (fun hfat hnone => hnull ⟨hfat, hnone⟩) hfits).shows, ?_⟩
    obtain rfl | ⟨hlong, -⟩ := htracks
    · refine ⟨fun _ => ⟨hfits, fun hfat hnil => hentry.null hnil ?_⟩, fun _ => rfl⟩
      exact Option.isSome_iff_ne_none.mpr fun hnone => hnull ⟨hfat, hnone⟩
    · exact eq_iff_of_long hlong (hfits.trans_lt hlong)
  · obtain ⟨d, hlt, hshows⟩ := hflushed.long (Nat.lt_of_not_le hfits)
    refine ⟨d, hshows, ?_⟩
    obtain rfl | ⟨hlong, hlonger⟩ := htracks
    · exact eq_iff_of_long (Nat.lt_of_not_le hfits) hlt
    · exact eq_iff_of_long hlong (hlt.trans_le hlonger)

/-- Opening a file that shows `d` and reading it yields `d`. -/
theorem reopensAs_iff (hresolve : resolve proc path = some (m, sub)) (hfat : IsFat m.backend) (hi : i < vfsMaxOpenGlobal)
    (hfree : (s.openFiles i).used = false) {k : Nat} (hk : k < processMaxOpenFiles) (hempty : s.fds (proc, k) = none) (hshows : Shows s.fs m.backend sub d) :
    ReopensAs (fatBackends resolve) s proc path e ↔ d = e := by
  have hdisks : s.fs.SameDisks { s.fs with heap := fun _ _ => true } := ⟨rfl, Fat32.Buffered.refl _, rfl⟩
  have hshows' := hshows.same hdisks
  obtain ⟨buf, vol, -, -, -, hresult⟩ := hshows' _ (FatVolumes.SameDisks.refl _) vfsORdonly
  have hopened := hresult.resolve_right fun hrefused => absurd hrefused.2 (by simp)
  have hnonneg := vfsOpen_succeeds (s := { s with fs := { s.fs with heap := fun _ _ => true } }) hresolve hfat hi hfree hk hempty hopened
  rw [ReopensAs, reopen]
  generalize hopen : vfsOpenFlags (fatBackends resolve) { s with fs := { s.fs with heap := fun _ _ => true } } proc (some path) vfsORdonly = result at hnonneg
  obtain ⟨fd, t⟩ := result
  obtain ⟨j, o, hstate⟩ := vfsOpen_entry hresolve hfat hopen hnonneg
  obtain ⟨-, hfields⟩ := hshows'.opened hstate.opened
  have hentry : EntryOf (t.openFiles j) m.backend sub d d := hstate.file ▸ hfields.entry _ _
  have hmode : (t.openFiles j).mode &&& vfsModeRead ≠ 0 := by
    rw [hstate.file, show (openedFile m.backend sub vfsORdonly o).mode = o.mode from rfl, hfields.mode]
    decide
  have hpos : (t.openFiles j).pos = 0 := by
    rw [hstate.file, show (openedFile m.backend sub vfsORdonly o).pos = o.pos from rfl, hfields.pos]
    rfl
  have hread : ∀ count, (vfsRead (fatBackends resolve) t proc fd count).1 = d.take count := by
    intro count
    obtain ⟨f, heq, -⟩ := vfsRead_entry resolve hstate.lookup hentry hfat hmode count
    rw [heq, hpos, List.drop_zero]
  simp only [hread]
  refine ⟨fun hok => ?_, ?_⟩
  · have hlength := hok.2 (max e.length d.length) (Nat.le_max_left _ _)
    rwa [List.take_of_length_le (Nat.le_max_right _ _)] at hlength
  · rintro rfl
    exact ⟨hnonneg, fun count hcount => List.take_of_length_le hcount⟩

theorem FatFileAt.isFat {vol : FatVolumes} (h : FatFileAt vol backend path content room) : IsFat backend := by
  cases h with
  | fat12 => exact Or.inl rfl
  | created => exact Or.inl rfl
  | fat32 => exact Or.inr rfl

theorem flagsToMode_write (hwrite : flags &&& vfsOWronly ≠ 0) : flagsToMode flags &&& vfsModeWrite ≠ 0 := by
  simp only [flagsToMode, hwrite, ne_eq, not_false_eq_true, decide_true, Bool.not_true, Bool.and_false, Bool.false_eq_true, if_false, if_true]
  split <;> decide

/-- The descriptor that an open for writing gives. -/
theorem FatFileAt.session (hfile : FatFileAt s.fs m.backend sub content room) (hhung : s.fs.hung = false) (hresolve : resolve proc path = some (m, sub))
    (hopen : vfsOpenFlags (fatBackends resolve) s proc (some path) flags = (fd, s')) (hfd : 0 ≤ fd) (hwrite : flags &&& vfsOWronly ≠ 0) :
    ∃ i shown c, Session s' proc fd i m.backend sub shown c room ∧ Tracks room c (openContents flags content) ∧ (m.backend = .fat12 → shown = content) := by
  obtain ⟨i, o, hstate⟩ := vfsOpen_entry hresolve hfile.isFat hopen hfd
  obtain ⟨shown, hfields, hkept, hhung', hshown⟩ := hfile.opened hstate.opened
  refine ⟨i, shown, openContents flags shown, ⟨hstate.lookup, hstate.index, hstate.file ▸ hfields.entry _ _, ?_, hkept, hhung'.trans hhung⟩, ?_, ?_⟩
  · rw [hstate.file, show (openedFile m.backend sub flags o).mode = o.mode from rfl, hfields.mode]
    exact flagsToMode_write hwrite
  · obtain rfl | ⟨-, hlong⟩ := hshown
    · exact Or.inl rfl
    · rw [openContents, openContents]
      split
      · exact Or.inl rfl
      · exact Or.inr ⟨hlong, (hkept.length_le.trans_lt hlong).le⟩
  · intro hfat12
    exact hshown.resolve_right fun hfat32 => absurd (hfat12.symm.trans hfat32.1) (by decide)

/-- A close keeps what has been written exactly when the contents fit the file, and are not an emptied FAT12 file. -/
theorem fat_close_keeps_written (hresolve : resolve proc path = some (m, sub)) (hfile : FatFileAt s.fs m.backend sub content room)
    (hhung : s.fs.hung = false) (hopen : vfsOpenFlags (fatBackends resolve) s proc (some path) flags = (fd, s')) (hfd : 0 ≤ fd)
    (hwrite : flags &&& vfsOWronly ≠ 0) (calls : List FileCall) :
    NoSilentLoss (fatBackends resolve) s' proc fd path (openContents flags content) calls ↔
      (runFileCalls (fatBackends resolve) proc fd s' (openContents flags content) calls).2.length ≤ room ∧
        (m.backend = .fat12 → (runFileCalls (fatBackends resolve) proc fd s' (openContents flags content) calls).2 = [] → content = []) := by
  obtain ⟨i, shown, c, hsession, htracks, hshown⟩ := hfile.session hhung hresolve hopen hfd hwrite
  obtain ⟨c', hend, htracks'⟩ := hsession.run resolve hfile.isFat htracks calls
  rw [NoSilentLoss]
  generalize runFileCalls (fatBackends resolve) proc fd s' (openContents flags content) calls = result at hend htracks'
  obtain ⟨t, e⟩ := result
  obtain ⟨f, vol, hclose, hunused, hclosed⟩ := vfsClose_entry resolve hend.lookup hend.entry hfile.isFat hend.kept
  obtain ⟨d, hshows, hiff⟩ := hclosed.shows hend.entry hend.writable hend.kept htracks'
  have hreopen : ReopensAs (fatBackends resolve) (vfsClose (fatBackends resolve) t proc fd) proc path e ↔ d = e := by
    obtain ⟨hslot, -, -⟩ := fdLookup_eq_some hend.lookup
    rw [hclose]
    refine reopensAs_iff hresolve hfile.isFat hend.index ?_ hslot ?_ hshows
    · simp only [Vfs.setFile, Function.update_self, hunused]
    · simp only [Vfs.setFile, Vfs.setFd, Function.update_self]
  have hhung' : (vfsClose (fatBackends resolve) t proc fd).fs.hung = false := by
    rw [hclose]
    exact hclosed.hung.trans hend.hung
  simp only at hiff ⊢
  rw [and_iff_right hhung', hreopen, hiff]
  refine and_congr_right fun _ => forall_congr' fun hfat12 => ?_
  rw [hshown hfat12]

/-! ### A file that takes 128 bytes -/

theorem smallVolume_file : Fat12FileAt smallVolume [] [66] [2] [7] := by
  have hinit : fat12Init ⟨false, 0, ⟨0, 0, 0, 0, 0, 0, 0, 0, 0, 0⟩, fun _ => 0⟩ smallImage 768 = (0, smallVolume) := rfl
  have hslot : findDirent smallVolume (pathToName [66]) = 576 := by decide +kernel
  refine ⟨fat12Init_layout hinit smallVolume_wellFormed.areas, smallVolume_wellFormed, by decide, by decide, by decide, ?_, ?_, ⟨?_, ?_, ?_⟩, ?_⟩
  · rw [hslot]
    decide
  · rw [hslot]
    decide +kernel
  · rw [hslot, Lib.Linked.isList_cons, Lib.Linked.isList_nil]
    decide +kernel
  · decide +kernel
  · decide +kernel
  · rw [hslot]
    decide +kernel

def smallVfs : Vfs FatVolumes RegularFile where
  openFiles _ := { (freshFile : VfsFile RegularFile) with used := false, refcount := 0 }
  pipes _ := ⟨false, fun _ => 0, 0, 0, 0, 0, 0⟩
  fds _ := none
  fs := ⟨smallVolume, ⟨false, ⟨0, 0, 0, 0, 0, 0⟩, fun _ => 0, fun _ => 0⟩, fun _ _ => true, false⟩

/-- The FAT12 volume is mounted at the root. -/
def resolveSmall (_ : Nat) (path : List UInt8) : Option (VfsMount × List UInt8) := some (⟨.fat12, false⟩, path)

def smallOpened : Vfs FatVolumes RegularFile := (vfsOpenFlags (fatBackends resolveSmall) smallVfs 0 (some [66]) vfsOWronly).2

theorem smallVfs_file : FatFileAt smallVfs.fs .fat12 [66] [7] 128 := by
  have hroom : fat12Room smallVolume [2] = 128 := by decide +kernel
  exact hroom ▸ FatFileAt.fat12 smallVolume_file

theorem smallVfs_open : vfsOpenFlags (fatBackends resolveSmall) smallVfs 0 (some [66]) vfsOWronly = (0, smallOpened) :=
  Prod.ext (by decide +kernel) rfl

theorem fat_close_keeps_written_small :
    NoSilentLoss (fatBackends resolveSmall) smallOpened 0 0 [66] [7] [.write [1, 2], .seek 1 vfsSeekSet, .write [3]] :=
  (fat_close_keeps_written rfl smallVfs_file rfl smallVfs_open (by decide) (by decide) _).mpr ⟨by decide +kernel, fun _ => by decide +kernel⟩

/-- One byte more than the file and the free clusters can hold. -/
def longData : List UInt8 := List.replicate 129 1

/-- A write of 129 bytes is reported whole, and the file is empty behind the close. -/
theorem fat12_close_loses : FatFileAt smallVfs.fs .fat12 [66] [7] 128 ∧
    vfsOpenFlags (fatBackends resolveSmall) smallVfs 0 (some [66]) vfsOWronly = (0, smallOpened) ∧
    (vfsWrite (fatBackends resolveSmall) smallOpened 0 0 longData).1 = 129 ∧
    ¬ NoSilentLoss (fatBackends resolveSmall) smallOpened 0 0 [66] [7] [.write longData] := by
  refine ⟨smallVfs_file, smallVfs_open, by decide +kernel, not_noSilentLoss 129 ?_ ?_⟩
  · decide +kernel
  · decide +kernel

end Tsukasa
