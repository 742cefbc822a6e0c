import Tsukasa.Fs.VfsCalls
import Tsukasa.Lib.Run

/-!
# Runs of descriptor calls

Any sequence of calls, by any processes, on the state that `vfs_init` leaves. A call is atomic: the file system core runs without preemption points of its own.
-/

namespace Tsukasa

open Lib

variable {φ β : Type}

/-- A call of the core, with the table of the process that makes it. -/
inductive VfsCall where
  | openFlags (proc : Nat) (path : Option (List UInt8)) (flags : BitVec 32)
  | close (proc : Nat) (fd : Int)
  | read (proc : Nat) (fd : Int) (count : Nat)
  | write (proc : Nat) (fd : Int) (src : List UInt8)
  | dup (proc : Nat) (oldfd : Int)
  | dup2 (proc : Nat) (oldfd newfd : Int)
  | pipe (proc : Nat)
  | processInherit (dst : Nat) (src : Option Nat)
  | processDup2 (dst : Nat) (dstFd : Int) (src : Nat) (srcFd : Int)
  | processCleanup (proc : Nat)

namespace VfsCall

def step (B : Backends φ β) (s : Vfs φ β) : VfsCall → Vfs φ β
  | openFlags proc path flags => (vfsOpenFlags B s proc path flags).2
  | close proc fd => vfsClose B s proc fd
  | read proc fd count => (vfsRead B s proc fd count).2
  | write proc fd src => (vfsWrite B s proc fd src).2
  | dup proc oldfd => (vfsDup s proc oldfd).2
  | dup2 proc oldfd newfd => (vfsDup2 B s proc oldfd newfd).2
  | pipe proc => (vfsPipe B s proc).2
  | processInherit dst src => vfsProcessInherit B s dst src
  | processDup2 dst dstFd src srcFd => (vfsProcessDup2 B s dst dstFd src srcFd).2
  | processCleanup proc => vfsProcessCleanup B s proc

/-- The call is made by, and is about, processes whose tables are among the first `n`. -/
def Among (n : Nat) : VfsCall → Prop
  | openFlags proc _ _ | close proc _ | read proc _ _ | write proc _ _ | dup proc _ | dup2 proc _ _ | pipe proc
  | processCleanup proc => proc < n
  | processInherit dst src => dst < n ∧ ∀ proc ∈ src, proc < n
  | processDup2 dst _ src _ => dst < n ∧ src < n

/-- The call is no `vfs_process_dup2` of a slot onto itself when the slot holds the only reference to its entry. -/
def NoSelfDup (s : Vfs φ β) : VfsCall → Prop
  | processDup2 dst dstFd src srcFd => ¬ SelfDup s dst dstFd src srcFd
  | _ => True

end VfsCall

/-- The counters of the pools, over the first `n` descriptor tables: an entry's counter is the number of slots that point to it, no slot points to an unused entry, a pipe's counters are the numbers of its ends, and a pipe is used as long as it has an end. -/
structure CountsExact (n : Nat) (s : Vfs φ β) : Prop where
  refcount : ∀ i < vfsMaxOpenGlobal, (s.openFiles i).used = true → (s.openFiles i).refcount = s.refs n i
  referenced : ∀ i < vfsMaxOpenGlobal, (s.openFiles i).used = true → 1 ≤ (s.openFiles i).refcount
  slot : ∀ proc < n, ∀ fd < processMaxOpenFiles, ∀ i, s.fds (proc, fd) = some i →
    i < vfsMaxOpenGlobal ∧ (s.openFiles i).used = true
  readers : ∀ p < vfsMaxPipes, (s.pipes p).readers = s.readEnds p
  writers : ∀ p < vfsMaxPipes, (s.pipes p).writers = s.writeEnds p
  pipe : ∀ p < vfsMaxPipes, (s.pipes p).used = true ↔
    ∃ i < vfsMaxOpenGlobal, (s.openFiles i).used = true ∧ ((s.openFiles i).readEnd p = true ∨ (s.openFiles i).writeEnd p = true)

theorem RefsExact.countsExact {n : Nat} {s : Vfs φ β} (h : RefsExact n none s) : CountsExact n s where
  refcount i hi hused := by simpa using (h.refcount i hi hused).1
  referenced i hi hused := (h.refcount i hi hused).2
  slot proc hproc fd hfd i hi := h.slot _ (mem_slots.mpr ⟨hproc, hfd⟩) i hi
  readers := h.readers
  writers := h.writers
  pipe p hp := by
    rw [h.pipe p hp, h.readers p hp, h.writers p hp, Vfs.readEnds, Vfs.writeEnds, tally_pos_iff, tally_pos_iff]
    simp only [Finset.mem_range]
    constructor
    · rintro (⟨i, hi, hused, hend⟩ | ⟨i, hi, hused, hend⟩)
      · exact ⟨i, hi, hused, Or.inl hend⟩
      · exact ⟨i, hi, hused, Or.inr hend⟩
    · rintro ⟨i, hi, hused, hend | hend⟩
      · exact Or.inl ⟨i, hi, hused, hend⟩
      · exact Or.inr ⟨i, hi, hused, hend⟩

theorem filePoolReset_refsExact (n : Nat) (s : Vfs φ β) : RefsExact n none (filePoolReset s) where
  slot k _ i hi := by simp [filePoolReset] at hi
  held i hi := by simp at hi
  refcount i _ hused := by simp [filePoolReset] at hused
  readers p _ := (tally_eq_zero fun i _ h => by simp [filePoolReset] at h).symm
  writers p _ := (tally_eq_zero fun i _ h => by simp [filePoolReset] at h).symm
  pipe p _ := by simp [filePoolReset]
  range i _ hused := by simp [filePoolReset] at hused

theorem VfsCall.step_refsExact {n : Nat} (B : Backends φ β) (s : Vfs φ β) (call : VfsCall) (h : RefsExact n none s)
    (hcall : call.Among n ∧ call.NoSelfDup s) : RefsExact n none (call.step B s) := by
  obtain ⟨hamong, hself⟩ := hcall
  cases call with
  | openFlags proc path flags => exact h.openFlags B hamong path flags
  | close proc fd => exact h.close B hamong fd
  | read proc fd count => exact h.congr (vfsRead_sameCounts B s proc fd count)
  | write proc fd src => exact h.congr (vfsWrite_sameCounts B s proc fd src)
  | dup proc oldfd => exact h.dup hamong oldfd
  | dup2 proc oldfd newfd => exact h.dup2 B hamong oldfd newfd
  | pipe proc => exact h.makesPipe B hamong
  | processInherit dst src => exact h.inherit B hamong.1 hamong.2
  | processDup2 dst dstFd src srcFd => exact h.processDup2 B hamong.1 hamong.2 hself
  | processCleanup proc =>
      show RefsExact n none (closeAll B s proc)
      exact h.closeAll B hamong

/-- In every run from the reset pools in which no slot is duplicated onto itself while it holds the only reference, the counters are exact in the state reached. -/
theorem vfs_run_countsExact (n : Nat) (B : Backends φ β) (s : Vfs φ β) (calls : List VfsCall)
    (hcalls : Lib.Allowed (fun s call => VfsCall.Among n call ∧ VfsCall.NoSelfDup s call) (VfsCall.step B) (filePoolReset s) calls) :
    CountsExact n (Lib.run (VfsCall.step B) (filePoolReset s) calls) :=
  (Lib.run_invariant (VfsCall.step_refsExact B) (filePoolReset_refsExact n s) hcalls).countsExact

/-- File systems on which every path leads to an empty mount. -/
def noFiles : Backends Unit Unit where
  resolve _ _ _ := none
  openFile _ _ _ _ := (none, ())
  writeBack _ _ := (false, ())
  readFile _ f _ := ([], f.pos, ())
  writeFile _ f _ := (0, f.pos, f.dirty, (), ())

/-- The pools before `vfs_init`. -/
def blankVfs : Vfs Unit Unit where
  openFiles _ := { freshFile with used := false, refcount := 0 }
  pipes _ := ⟨false, fun _ => 0, 0, 0, 0, 0, 0⟩
  fds _ := none
  fs := ()

theorem vfs_run_countsExact_pipe :
    CountsExact 2 (Lib.run (VfsCall.step noFiles) (filePoolReset blankVfs)
      [.pipe 1, .dup 1 0, .processDup2 1 0 1 0, .processInherit 0 (some 1), .close 1 1]) :=
  vfs_run_countsExact 2 noFiles blankVfs _ (by
    refine ⟨⟨Nat.one_lt_two, trivial⟩, ⟨Nat.one_lt_two, trivial⟩, ⟨⟨by decide, by decide⟩, ?_⟩, ⟨⟨by decide, by simp⟩, trivial⟩,
      ⟨Nat.one_lt_two, trivial⟩, trivial⟩
    rintro ⟨-, -, i, hlookup, hone⟩
    obtain rfl : 0 = i := Option.some.inj hlookup
    exact absurd hone (by decide))

/-- The read end of a new pipe, duplicated onto its own slot: the slot ends up pointing to an unused entry. -/
theorem vfs_selfDup_breaks_counts :
    ¬ ∀ (n : Nat) (B : Backends Unit Unit) (s : Vfs Unit Unit) (calls : List VfsCall), (∀ call ∈ calls, VfsCall.Among n call) →
      CountsExact n (Lib.run (VfsCall.step B) (filePoolReset s) calls) := by
  intro hclaim
  have h := (hclaim 2 noFiles blankVfs [.pipe 1, .processDup2 1 0 1 0] (by simp [VfsCall.Among])).slot 1 (by decide) 0 (by decide) 0
    (by decide)
  exact absurd h.2 (by decide)

end Tsukasa
