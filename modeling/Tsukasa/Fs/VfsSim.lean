import Tsukasa.Fs.FatFiles

/-!
# One core over two file systems

The calls of `fs/vfs.c` do the same over two file systems that answer alike: descriptors, positions and everything they return are the same, and the file systems stay related. So a file system can be compared with what it should be through all calls at once.
-/

namespace Tsukasa

variable {φ ψ β : Type} {R : φ → ψ → Prop} {s : Vfs φ β} {t : Vfs ψ β} {B : Backends φ β} {B' : Backends ψ β}
  {ok : φ → VfsFile β → List UInt8 → Prop}

/-- The two states differ in their file systems only, and these are related. -/
structure Vfs.Over (R : φ → ψ → Prop) (s : Vfs φ β) (t : Vfs ψ β) : Prop where
  openFiles : s.openFiles = t.openFiles
  pipes : s.pipes = t.pipes
  fds : s.fds = t.fds
  fs : R s.fs t.fs

/-- The two file systems answer alike, to writes as long as these are `ok`. -/
structure Backends.Alike (R : φ → ψ → Prop) (ok : φ → VfsFile β → List UInt8 → Prop) (B : Backends φ β) (B' : Backends ψ β) : Prop where
  resolve : ∀ {a a'} proc path, R a a' → B.resolve a proc path = B'.resolve a' proc path
  openFile : ∀ {a a'} backend sub flags, R a a' →
    (B.openFile a backend sub flags).1 = (B'.openFile a' backend sub flags).1 ∧ R (B.openFile a backend sub flags).2 (B'.openFile a' backend sub flags).2
  writeBack : ∀ {a a'} f, R a a' → (B.writeBack a f).1 = (B'.writeBack a' f).1 ∧ R (B.writeBack a f).2 (B'.writeBack a' f).2
  readFile : ∀ {a a'} f count, R a a' → (B.readFile a f count).1 = (B'.readFile a' f count).1 ∧
    (B.readFile a f count).2.1 = (B'.readFile a' f count).2.1 ∧ R (B.readFile a f count).2.2 (B'.readFile a' f count).2.2
  writeFile : ∀ {a a'} f src, R a a' → ok a f src → ∃ wr pos dirty data b b', B.writeFile a f src = (wr, pos, dirty, data, b) ∧
    B'.writeFile a' f src = (wr, pos, dirty, data, b') ∧ R b b'

namespace Vfs.Over

theorem setFile (h : s.Over R t) (i : Nat) (f : VfsFile β) : (s.setFile i f).Over R (t.setFile i f) :=
  ⟨by rw [Vfs.setFile, Vfs.setFile, h.openFiles], h.pipes, h.fds, h.fs⟩

theorem setPipe (h : s.Over R t) (p : Nat) (pipe : VfsPipe) : (s.setPipe p pipe).Over R (t.setPipe p pipe) :=
  ⟨h.openFiles, by rw [Vfs.setPipe, Vfs.setPipe, h.pipes], h.fds, h.fs⟩

theorem setFd (h : s.Over R t) (proc fd : Nat) (entry : Option Nat) : (s.setFd proc fd entry).Over R (t.setFd proc fd entry) :=
  ⟨h.openFiles, h.pipes, by rw [Vfs.setFd, Vfs.setFd, h.fds], h.fs⟩

theorem setFs (h : s.Over R t) {a : φ} {a' : ψ} (hfs : R a a') : ({ s with fs := a } : Vfs φ β).Over R { t with fs := a' } :=
  ⟨h.openFiles, h.pipes, h.fds, hfs⟩

theorem fdLookup (h : s.Over R t) (proc : Nat) (fd : Int) : Tsukasa.fdLookup s proc fd = Tsukasa.fdLookup t proc fd := by
  rw [Tsukasa.fdLookup, Tsukasa.fdLookup, h.fds]

theorem processFdAlloc (h : s.Over R t) (proc : Nat) : Tsukasa.processFdAlloc s proc = Tsukasa.processFdAlloc t proc := by
  rw [Tsukasa.processFdAlloc, Tsukasa.processFdAlloc, h.fds]

theorem fileAlloc (h : s.Over R t) : (Tsukasa.fileAlloc s).1 = (Tsukasa.fileAlloc t).1 ∧ (Tsukasa.fileAlloc s).2.Over R (Tsukasa.fileAlloc t).2 := by
  rw [Tsukasa.fileAlloc, Tsukasa.fileAlloc, h.openFiles]
  cases (List.range vfsMaxOpenGlobal).find? fun i => !(t.openFiles i).used with
  | none => exact ⟨rfl, h⟩
  | some i => exact ⟨rfl, h.setFile i freshFile⟩

theorem flush (h : s.Over R t) (hB : Backends.Alike R ok B B') (i : Nat) : (flushRegularFile B s i).Over R (flushRegularFile B' t i) := by
  obtain ⟨hok, hfs⟩ := hB.writeBack (t.openFiles i) h.fs
  rw [flushRegularFile, flushRegularFile, h.openFiles]
  split
  · exact h
  split
  · exact h
  split
  · simp only [hok]
    split
    · exact (h.setFile i _).setFs hfs
    · exact ⟨rfl, h.pipes, h.fds, hfs⟩
  · exact h.setFile i _

theorem fileRelease (h : s.Over R t) (hB : Backends.Alike R ok B B') (i : Nat) : (Tsukasa.fileRelease B s i).Over R (Tsukasa.fileRelease B' t i) := by
  have hflush := h.flush hB i
  simp only [Tsukasa.fileRelease, h.openFiles]
  split
  · exact h
  split
  · exact h.setFile i _
  split
  · rename_i p canRead canWrite _ _
    rw [hflush.pipes, show ((flushRegularFile B s i).setPipe p (dropEnd ((flushRegularFile B' t i).pipes p) canRead canWrite)).openFiles i =
      (flushRegularFile B' t i).openFiles i from congrFun hflush.openFiles i]
    exact (hflush.setPipe p _).setFile i _
  · rw [hflush.openFiles]
    exact hflush.setFile i _

/-! ### The calls -/

theorem openFlags (h : s.Over R t) (hB : Backends.Alike R ok B B') (proc : Nat) (path : Option (List UInt8)) (flags : BitVec 32) :
    (vfsOpenFlags B s proc path flags).1 = (vfsOpenFlags B' t proc path flags).1 ∧
      (vfsOpenFlags B s proc path flags).2.Over R (vfsOpenFlags B' t proc path flags).2 := by
  have hresolve : path.bind (B.resolve s.fs proc) = path.bind (B'.resolve t.fs proc) := by
    cases path with
    | none => rfl
    | some path => exact hB.resolve proc path h.fs
  rw [vfsOpenFlags, vfsOpenFlags, hresolve]
  cases path.bind (B'.resolve t.fs proc) with
  | none => exact ⟨rfl, h⟩
  | some target =>
      obtain ⟨m, sub⟩ := target
      simp only
      split
      · exact ⟨rfl, h⟩
      obtain ⟨hslot, halloc⟩ := h.fileAlloc
      rcases hs : Tsukasa.fileAlloc s with ⟨slot, s₁⟩
      rcases ht : Tsukasa.fileAlloc t with ⟨slot', t₁⟩
      rw [hs, ht] at hslot halloc
      obtain rfl : slot = slot' := hslot
      cases slot with
      | none => exact ⟨rfl, halloc⟩
      | some i =>
          have hfile : s₁.openFiles i = t₁.openFiles i := congrFun halloc.openFiles i
          have hnamed := halloc.setFile i { t₁.openFiles i with flags := flags, mode := flagsToMode flags, path := sub }
          simp only [hfile]
          split
          · exact ⟨rfl, hnamed.fileRelease hB i⟩
          obtain ⟨hopened, hfs⟩ := hB.openFile m.backend sub flags halloc.fs
          simp only [Vfs.setFile] at hnamed ⊢
          rcases hb : B.openFile s₁.fs m.backend sub flags with ⟨opened, b⟩
          rcases hb' : B'.openFile t₁.fs m.backend sub flags with ⟨opened', b'⟩
          rw [hb, hb'] at hopened hfs
          obtain rfl : opened = opened' := hopened
          cases opened with
          | none => exact ⟨rfl, (hnamed.setFs hfs).fileRelease hB i⟩
          | some opened =>
              simp only [Function.update_self]
              have hfilled := (hnamed.setFs hfs).setFile i { t₁.openFiles i with
                flags := flags, mode := opened.mode, path := sub, backend := m.backend, dirty := opened.dirty, pos := opened.pos, u := .backed opened.data }
              simp only [Vfs.setFile] at hfilled
              rw [hfilled.processFdAlloc]
              split
              · exact ⟨rfl, hfilled.fileRelease hB i⟩
              · exact ⟨rfl, hfilled.setFd proc _ (some i)⟩

theorem close (h : s.Over R t) (hB : Backends.Alike R ok B B') (proc : Nat) (fd : Int) : (vfsClose B s proc fd).Over R (vfsClose B' t proc fd) := by
  rw [vfsClose, vfsClose, fdCloseOnTable, fdCloseOnTable, h.fdLookup]
  split
  · exact h
  · exact (h.setFd proc fd.toNat none).fileRelease hB _

theorem read (h : s.Over R t) (hB : Backends.Alike R ok B B') (proc : Nat) (fd : Int) (count : Nat) :
    (vfsRead B s proc fd count).1 = (vfsRead B' t proc fd count).1 ∧ (vfsRead B s proc fd count).2.Over R (vfsRead B' t proc fd count).2 := by
  simp only [vfsRead, h.fdLookup, h.openFiles, h.pipes]
  split
  · exact ⟨rfl, h⟩
  rename_i i _
  split
  · exact ⟨rfl, h⟩
  split
  · split
    · split
      · exact ⟨rfl, h.setPipe _ _⟩
      · exact ⟨rfl, h⟩
    · exact ⟨rfl, h⟩
  · obtain ⟨hbytes, hpos, hfs⟩ := hB.readFile (t.openFiles i) count h.fs
    rw [hpos]
    exact ⟨hbytes, (h.setFile i _).setFs hfs⟩

/-- A write through the descriptor is `ok`, if it gets to the file system at all. -/
def WriteOk (ok : φ → VfsFile β → List UInt8 → Prop) (s : Vfs φ β) (proc : Nat) (fd : Int) (src : List UInt8) : Prop :=
  ∀ i, Tsukasa.fdLookup s proc fd = some i → (s.openFiles i).mode &&& vfsModeWrite ≠ 0 → (s.openFiles i).backend ≠ .pipe → ok s.fs (s.openFiles i) src

theorem write (h : s.Over R t) (hB : Backends.Alike R ok B B') {proc : Nat} {fd : Int} {src : List UInt8} (hok : WriteOk ok s proc fd src) :
    (vfsWrite B s proc fd src).1 = (vfsWrite B' t proc fd src).1 ∧ (vfsWrite B s proc fd src).2.Over R (vfsWrite B' t proc fd src).2 := by
  simp only [WriteOk, h.fdLookup, h.openFiles] at hok
  simp only [vfsWrite, h.fdLookup, h.openFiles, h.pipes]
  split
  · exact ⟨rfl, h⟩
  rename_i i hlookup
  split
  · exact ⟨rfl, h⟩
  rename_i hmode
  split
  · split
    · split
      · exact ⟨rfl, h.setPipe _ _⟩
      · exact ⟨rfl, h⟩
    · exact ⟨rfl, h⟩
  · rename_i hpipe
    obtain ⟨wr, pos, dirty, data, b, b', heq, heq', hfs⟩ := hB.writeFile (t.openFiles i) src h.fs (hok i hlookup hmode hpipe)
    simp only [heq, heq']
    exact ⟨trivial, (h.setFile i _).setFs hfs⟩

theorem seek (h : s.Over R t) {sizeOf : φ → VfsFile β → Nat} {sizeOf' : ψ → VfsFile β → Nat} (hsize : ∀ {a a'} f, R a a' → sizeOf a f = sizeOf' a' f)
    (proc : Nat) (fd : Int) (offset : Nat) (whence : Int) :
    (vfsSeek sizeOf s proc fd offset whence).1 = (vfsSeek sizeOf' t proc fd offset whence).1 ∧
      (vfsSeek sizeOf s proc fd offset whence).2.Over R (vfsSeek sizeOf' t proc fd offset whence).2 := by
  simp only [vfsSeek, h.fdLookup, h.openFiles, hsize _ h.fs]
  split
  · exact ⟨rfl, h⟩
  split
  · exact ⟨rfl, h⟩
  split
  · exact ⟨rfl, h⟩
  · exact ⟨rfl, h.setFile _ _⟩

end Vfs.Over

end Tsukasa
