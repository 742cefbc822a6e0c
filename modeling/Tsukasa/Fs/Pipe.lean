import Tsukasa.Fs.VfsRun
import Tsukasa.Lib.Ring

/-!
# A pipe is a queue

`PipeTrace` runs the calls and keeps, for each pipe since `vfs_pipe` last made it, the bytes its writes have accepted and the bytes its reads have returned. What was written is what was read followed by what the ring holds, whatever the calls, the processes and the descriptors are.
-/

namespace Tsukasa

open Lib

variable {φ β : Type}

/-! ### The ring of a pipe -/

namespace VfsPipe

/-- The bytes in a pipe, oldest first. -/
def contents (pipe : VfsPipe) : List UInt8 := Ring.contents vfsPipeCapacity pipe.data pipe.readPos pipe.size

structure RingInv (pipe : VfsPipe) : Prop where
  size_le : pipe.size ≤ vfsPipeCapacity
  readPos_lt : pipe.readPos < vfsPipeCapacity
  writePos_eq : pipe.writePos = (pipe.readPos + pipe.size) % vfsPipeCapacity

theorem pipeRead_spec {pipe : VfsPipe} (hinv : pipe.RingInv) (count : Nat) :
    (pipeRead count pipe).2.RingInv ∧ (pipeRead count pipe).1 ++ (pipeRead count pipe).2.contents = pipe.contents := by
  induction count generalizing pipe with
  | zero => exact ⟨hinv, rfl⟩
  | succ count ih =>
      simp only [pipeRead]
      split
      · rename_i hsize
        obtain ⟨size, hsucc⟩ : ∃ size, pipe.size = size + 1 := ⟨pipe.size - 1, by omega⟩
        have hnext : RingInv { pipe with readPos := (pipe.readPos + 1) % vfsPipeCapacity, size := pipe.size - 1 } := by
          refine ⟨?_, Nat.mod_lt _ (by decide), ?_⟩
          · have := hinv.size_le
            show pipe.size - 1 ≤ vfsPipeCapacity
            omega
          · show pipe.writePos = ((pipe.readPos + 1) % vfsPipeCapacity + (pipe.size - 1)) % vfsPipeCapacity
            rw [hinv.writePos_eq, Nat.mod_add_mod, hsucc]
            congr 1
            omega
        obtain ⟨hinv', hbytes⟩ := ih hnext
        refine ⟨hinv', ?_⟩
        rw [List.cons_append, hbytes]
        simp only [contents, hsucc, Nat.add_sub_cancel, Ring.contents_succ hinv.readPos_lt]
      · exact ⟨hinv, rfl⟩

theorem pipeWrite_spec {pipe : VfsPipe} (hinv : pipe.RingInv) (src : List UInt8) :
    (pipeWrite src pipe).2.RingInv ∧
      (pipeWrite src pipe).2.contents = pipe.contents ++ src.take (pipeWrite src pipe).1 := by
  induction src generalizing pipe with
  | nil => exact ⟨hinv, by simp [pipeWrite]⟩
  | cons byte src ih =>
      simp only [pipeWrite]
      split
      · rename_i hroom
        have hnext : RingInv { pipe with
            data := Function.update pipe.data pipe.writePos byte
            writePos := (pipe.writePos + 1) % vfsPipeCapacity
            size := pipe.size + 1 } := by
          refine ⟨hroom, hinv.readPos_lt, ?_⟩
          show (pipe.writePos + 1) % vfsPipeCapacity = (pipe.readPos + (pipe.size + 1)) % vfsPipeCapacity
          rw [hinv.writePos_eq, Nat.mod_add_mod, Nat.add_assoc]
        obtain ⟨hinv', hbytes⟩ := ih hnext
        refine ⟨hinv', ?_⟩
        rw [hbytes, List.take_succ_cons]
        simp only [contents, hinv.writePos_eq, Ring.contents_push hroom, List.append_assoc, List.singleton_append]
      · exact ⟨hinv, by simp⟩

/-- Two pipes with the same ring. -/
def SameRing (pipe pipe' : VfsPipe) : Prop :=
  pipe'.data = pipe.data ∧ pipe'.readPos = pipe.readPos ∧ pipe'.writePos = pipe.writePos ∧ pipe'.size = pipe.size

theorem dropEnd_sameRing (pipe : VfsPipe) (r w : Bool) : SameRing pipe (dropEnd pipe r w) := by
  simp only [dropEnd, SameRing]
  split_ifs <;> exact ⟨rfl, rfl, rfl, rfl⟩

end VfsPipe

/-! ### Calls that leave the rings alone -/

/-- Every pipe that is used after the call was used before it, with the same ring. -/
def RingsKept (s s' : Vfs φ β) : Prop :=
  ∀ p, (s'.pipes p).used = true → (s.pipes p).used = true ∧ VfsPipe.SameRing (s.pipes p) (s'.pipes p)

namespace RingsKept

variable {s s' s'' : Vfs φ β}

theorem of_pipes_eq (h : s'.pipes = s.pipes) : RingsKept s s' := by
  intro p hused
  rw [h] at hused ⊢
  exact ⟨hused, rfl, rfl, rfl, rfl⟩

theorem trans (h : RingsKept s s') (h' : RingsKept s' s'') : RingsKept s s'' := by
  intro p hused
  obtain ⟨hused', hd', hr', hw', hs'⟩ := h' p hused
  obtain ⟨hused, hd, hr, hw, hs⟩ := h p hused'
  exact ⟨hused, hd'.trans hd, hr'.trans hr, hw'.trans hw, hs'.trans hs⟩

theorem foldl {step : Vfs φ β → Nat → Vfs φ β} (hstep : ∀ s i, RingsKept s (step s i)) (l : List Nat) (s : Vfs φ β) :
    RingsKept s (l.foldl step s) := by
  induction l generalizing s with
  | nil => exact of_pipes_eq rfl
  | cons i l ih => exact (hstep s i).trans (ih _)

end RingsKept

theorem fileRelease_ringsKept (B : Backends φ β) (s : Vfs φ β) (i : Nat) : RingsKept s (fileRelease B s i) := by
  by_cases hused : (s.openFiles i).used = true
  · by_cases hmany : 1 < (s.openFiles i).refcount
    · apply RingsKept.of_pipes_eq
      simp [fileRelease, hused, hmany, Vfs.setFile]
    · obtain ⟨f, fs, -, hrel⟩ := fileRelease_last B hused hmany
      rw [hrel]
      intro p hp
      change ((dropLink s (s.openFiles i).link).pipes p).used = true at hp
      show _ ∧ VfsPipe.SameRing _ ((dropLink s (s.openFiles i).link).pipes p)
      unfold dropLink at hp ⊢
      split at hp
      · rename_i q r w _
        simp only [Vfs.setPipe, Function.update_apply] at hp ⊢
        split at hp
        · rename_i heq
          rw [if_pos heq, heq]
          rw [dropEnd_used, Bool.and_eq_true] at hp
          exact ⟨hp.1, VfsPipe.dropEnd_sameRing _ _ _⟩
        · rename_i hne
          rw [if_neg hne]
          exact ⟨hp, rfl, rfl, rfl, rfl⟩
      · exact ⟨hp, rfl, rfl, rfl, rfl⟩
  · apply RingsKept.of_pipes_eq
    simp [fileRelease, hused]

theorem fdCloseOnTable_ringsKept (B : Backends φ β) (s : Vfs φ β) (proc : Nat) (fd : Int) :
    RingsKept s (fdCloseOnTable B s proc fd) := by
  unfold fdCloseOnTable
  split
  · exact RingsKept.of_pipes_eq rfl
  · exact (RingsKept.of_pipes_eq rfl).trans (fileRelease_ringsKept B _ _)

theorem vfsOpenFlags_ringsKept (B : Backends φ β) (s : Vfs φ β) (proc : Nat) (path : Option (List UInt8)) (flags : BitVec 32) :
    RingsKept s (vfsOpenFlags B s proc path flags).2 := by
  unfold vfsOpenFlags
  split
  · exact RingsKept.of_pipes_eq rfl
  split
  · exact RingsKept.of_pipes_eq rfl
  rcases fileAlloc_cases s with ⟨i, -, -, halloc⟩ | halloc <;> simp only [halloc]
  · split
    · exact (RingsKept.of_pipes_eq rfl).trans (fileRelease_ringsKept B _ _)
    split
    · exact (RingsKept.of_pipes_eq rfl).trans (fileRelease_ringsKept B _ _)
    split
    · exact (RingsKept.of_pipes_eq rfl).trans (fileRelease_ringsKept B _ _)
    · exact RingsKept.of_pipes_eq rfl
  · exact RingsKept.of_pipes_eq rfl

theorem vfsDup_ringsKept (s : Vfs φ β) (proc : Nat) (oldfd : Int) : RingsKept s (vfsDup s proc oldfd).2 := by
  unfold vfsDup
  split <;> exact RingsKept.of_pipes_eq rfl

theorem vfsDup2_ringsKept (B : Backends φ β) (s : Vfs φ β) (proc : Nat) (oldfd newfd : Int) :
    RingsKept s (vfsDup2 B s proc oldfd newfd).2 := by
  unfold vfsDup2
  split
  · exact RingsKept.of_pipes_eq rfl
  split
  · exact RingsKept.of_pipes_eq rfl
  split
  · exact RingsKept.of_pipes_eq rfl
  · exact (fdCloseOnTable_ringsKept B s proc newfd).trans (RingsKept.of_pipes_eq rfl)

theorem vfsProcessDup2_ringsKept (B : Backends φ β) (s : Vfs φ β) (dst : Nat) (dstFd : Int) (src : Nat) (srcFd : Int) :
    RingsKept s (vfsProcessDup2 B s dst dstFd src srcFd).2 := by
  unfold vfsProcessDup2
  split
  · exact RingsKept.of_pipes_eq rfl
  split
  · exact RingsKept.of_pipes_eq rfl
  · exact (fdCloseOnTable_ringsKept B s dst dstFd).trans (RingsKept.of_pipes_eq rfl)

theorem closeAll_ringsKept (B : Backends φ β) (s : Vfs φ β) (proc : Nat) : RingsKept s (closeAll B s proc) := by
  unfold closeAll
  exact RingsKept.foldl (fun s fd => fdCloseOnTable_ringsKept B s proc fd) _ s

theorem vfsProcessInherit_ringsKept (B : Backends φ β) (s : Vfs φ β) (dst : Nat) (src : Option Nat) :
    RingsKept s (vfsProcessInherit B s dst src) := by
  unfold vfsProcessInherit
  split
  · exact closeAll_ringsKept B s dst
  · refine (closeAll_ringsKept B s dst).trans ?_
    unfold inheritAll
    refine RingsKept.foldl (fun s fd => ?_) _ _
    split <;> exact RingsKept.of_pipes_eq rfl

/-! ### Traces -/

/-- The pipe behind a descriptor. -/
def pipeOf (s : Vfs φ β) (proc : Nat) (fd : Int) : Option Nat :=
  (fdLookup s proc fd).bind fun i => (s.openFiles i).link.map Prod.fst

/-- A state of the core, with what each pipe's writes have accepted and what its reads have returned since it was made. -/
structure PipeTrace (φ β : Type) where
  vfs : Vfs φ β
  written : Nat → List UInt8
  returned : Nat → List UInt8

namespace PipeTrace

/-- The log with some bytes appended for the pipe a call went to. -/
def record (log : Nat → List UInt8) (pipe : Option Nat) (bytes : List UInt8) : Nat → List UInt8 :=
  fun p => if pipe = some p then log p ++ bytes else log p

/-- The log with the pipe that has just been made starting afresh. -/
def restart (log : Nat → List UInt8) (pipe : Option Nat) : Nat → List UInt8 :=
  fun p => if pipe = some p then [] else log p

/-- The pipe a `vfs_pipe` call has made. -/
def made (B : Backends φ β) (s : Vfs φ β) (proc : Nat) : Option Nat :=
  (vfsPipe B s proc).1.bind fun fds => pipeOf (vfsPipe B s proc).2 proc fds.1

def step (B : Backends φ β) (t : PipeTrace φ β) (call : VfsCall) : PipeTrace φ β where
  vfs := call.step B t.vfs
  written :=
    match call with
    | .write proc fd src => record t.written (pipeOf t.vfs proc fd) (src.take (vfsWrite B t.vfs proc fd src).1)
    | .pipe proc => restart t.written (made B t.vfs proc)
    | _ => t.written
  returned :=
    match call with
    | .read proc fd count => record t.returned (pipeOf t.vfs proc fd) (vfsRead B t.vfs proc fd count).1
    | .pipe proc => restart t.returned (made B t.vfs proc)
    | _ => t.returned

/-- What has been written to a used pipe is what has been read from it, followed by what its ring holds. -/
structure Fifo (t : PipeTrace φ β) (p : Nat) : Prop where
  ring : (t.vfs.pipes p).RingInv
  order : t.returned p ++ (t.vfs.pipes p).contents = t.written p

def Inv (t : PipeTrace φ β) : Prop := ∀ p, (t.vfs.pipes p).used = true → t.Fifo p

variable {B : Backends φ β} {t : PipeTrace φ β}

theorem Fifo.of_sameRing {t' : PipeTrace φ β} {p : Nat} (h : t.Fifo p)
    (hring : VfsPipe.SameRing (t.vfs.pipes p) (t'.vfs.pipes p)) (hwritten : t'.written p = t.written p)
    (hreturned : t'.returned p = t.returned p) : t'.Fifo p := by
  obtain ⟨hdata, hread, hwrite, hsize⟩ := hring
  obtain ⟨⟨hle, hlt, heq⟩, horder⟩ := h
  refine ⟨⟨by rwa [hsize], by rwa [hread], by rwa [hread, hwrite, hsize]⟩, ?_⟩
  rw [hwritten, hreturned, ← horder, VfsPipe.contents, VfsPipe.contents, hdata, hread, hsize]

/-- A call that leaves the rings and the logs alone. -/
theorem Inv.kept {t' : PipeTrace φ β} (h : t.Inv) (hkept : RingsKept t.vfs t'.vfs) (hwritten : t'.written = t.written)
    (hreturned : t'.returned = t.returned) : t'.Inv := by
  intro p hused
  obtain ⟨hused', hring⟩ := hkept p hused
  exact (h p hused').of_sameRing hring (by rw [hwritten]) (by rw [hreturned])

end PipeTrace

/-- A read goes to the pipe behind its descriptor, or to no pipe. -/
theorem vfsRead_cases (B : Backends φ β) (s : Vfs φ β) (proc : Nat) (fd : Int) (count : Nat) :
    (∃ p, pipeOf s proc fd = some p ∧
      vfsRead B s proc fd count = ((pipeRead count (s.pipes p)).1, s.setPipe p (pipeRead count (s.pipes p)).2)) ∨
    ((vfsRead B s proc fd count).2.pipes = s.pipes ∧ ∀ p, pipeOf s proc fd = some p → (vfsRead B s proc fd count).1 = []) := by
  cases hlookup : fdLookup s proc fd with
  | none => exact Or.inr (by simp [vfsRead, pipeOf, hlookup])
  | some i =>
      by_cases hmode : (s.openFiles i).mode &&& vfsModeRead = 0
      · exact Or.inr (by simp [vfsRead, hlookup, hmode])
      by_cases hbackend : (s.openFiles i).backend = .pipe
      · cases hu : (s.openFiles i).u with
        | zeroed => exact Or.inr (by simp [vfsRead, hlookup, hbackend, hu])
        | backed data => exact Or.inr (by simp [vfsRead, hlookup, hbackend, hu])
        | pipe p canRead canWrite =>
            cases canRead with
            | false => exact Or.inr (by simp [vfsRead, hlookup, hbackend, hu])
            | true =>
                refine Or.inl ⟨p, ?_, ?_⟩
                · simp [pipeOf, hlookup, VfsFile.link, hbackend, hu]
                · simp only [vfsRead, hlookup, hmode, hbackend, hu, if_true, if_false]
      · refine Or.inr ⟨?_, fun p hp => ?_⟩
        · simp only [vfsRead, hlookup, hmode, hbackend, if_false]
          rfl
        · simp [pipeOf, hlookup, VfsFile.link_of_backend_ne hbackend] at hp

theorem vfsWrite_cases (B : Backends φ β) (s : Vfs φ β) (proc : Nat) (fd : Int) (src : List UInt8) :
    (∃ p, pipeOf s proc fd = some p ∧
      vfsWrite B s proc fd src = ((pipeWrite src (s.pipes p)).1, s.setPipe p (pipeWrite src (s.pipes p)).2)) ∨
    ((vfsWrite B s proc fd src).2.pipes = s.pipes ∧ ∀ p, pipeOf s proc fd = some p → (vfsWrite B s proc fd src).1 = 0) := by
  cases hlookup : fdLookup s proc fd with
  | none => exact Or.inr (by simp [vfsWrite, pipeOf, hlookup])
  | some i =>
      by_cases hmode : (s.openFiles i).mode &&& vfsModeWrite = 0
      · exact Or.inr (by simp [vfsWrite, hlookup, hmode])
      by_cases hbackend : (s.openFiles i).backend = .pipe
      · cases hu : (s.openFiles i).u with
        | zeroed => exact Or.inr (by simp [vfsWrite, hlookup, hbackend, hu])
        | backed data => exact Or.inr (by simp [vfsWrite, hlookup, hbackend, hu])
        | pipe p canRead canWrite =>
            by_cases hopen : (canWrite && decide ((s.pipes p).readers ≠ 0)) = true
            · refine Or.inl ⟨p, ?_, ?_⟩
              · simp [pipeOf, hlookup, VfsFile.link, hbackend, hu]
              · simp only [vfsWrite, hlookup, hmode, hbackend, hu, hopen, if_true, if_false]
            · refine Or.inr ?_
              simp only [vfsWrite, hlookup, hmode, hbackend, hu, hopen, if_true, if_false]
              exact ⟨rfl, fun _ _ => rfl⟩
      · refine Or.inr ⟨?_, fun p hp => ?_⟩
        · simp only [vfsWrite, hlookup, hmode, hbackend, if_false]
          rfl
        · simp [pipeOf, hlookup, VfsFile.link_of_backend_ne hbackend] at hp

namespace PipeTrace

variable {B : Backends φ β} {t : PipeTrace φ β}

theorem Inv.read (h : t.Inv) (proc : Nat) (fd : Int) (count : Nat) : (t.step B (.read proc fd count)).Inv := by
  rcases vfsRead_cases B t.vfs proc fd count with ⟨q, hpipe, hread⟩ | ⟨hpipes, hnothing⟩
  · intro p hused
    by_cases heq : p = q
    · subst heq
      have hcounts := pipeRead_counts count (t.vfs.pipes p)
      simp only [step, VfsCall.step, hread, Vfs.setPipe, Function.update_self, hcounts.1] at hused
      obtain ⟨hring, horder⟩ := h p hused
      obtain ⟨hring', hbytes⟩ := VfsPipe.pipeRead_spec hring count
      refine ⟨by simpa [step, VfsCall.step, hread, Vfs.setPipe] using hring', ?_⟩
      simp only [step, VfsCall.step, hread, Vfs.setPipe, Function.update_self, record, hpipe, if_true, List.append_assoc, hbytes]
      exact horder
    · simp only [step, VfsCall.step, hread, Vfs.setPipe, Function.update_of_ne heq] at hused
      refine (h p hused).of_sameRing ?_ rfl ?_
      · simp [step, VfsCall.step, hread, Vfs.setPipe, heq, VfsPipe.SameRing]
      · simp [step, record, hpipe, Ne.symm heq]
  · refine h.kept (RingsKept.of_pipes_eq hpipes) rfl ?_
    funext p
    simp only [step, record]
    split
    · rename_i hp
      rw [hnothing p hp, List.append_nil]
    · rfl

theorem Inv.write (h : t.Inv) (proc : Nat) (fd : Int) (src : List UInt8) : (t.step B (.write proc fd src)).Inv := by
  rcases vfsWrite_cases B t.vfs proc fd src with ⟨q, hpipe, hwrite⟩ | ⟨hpipes, hnothing⟩
  · intro p hused
    by_cases heq : p = q
    · subst heq
      have hcounts := pipeWrite_counts src (t.vfs.pipes p)
      simp only [step, VfsCall.step, hwrite, Vfs.setPipe, Function.update_self, hcounts.1] at hused
      obtain ⟨hring, horder⟩ := h p hused
      obtain ⟨hring', hbytes⟩ := VfsPipe.pipeWrite_spec hring src
      refine ⟨by simpa [step, VfsCall.step, hwrite, Vfs.setPipe] using hring', ?_⟩
      simp only [step, VfsCall.step, hwrite, Vfs.setPipe, Function.update_self, record, hpipe, if_true, hbytes,
        ← List.append_assoc, horder]
    · simp only [step, VfsCall.step, hwrite, Vfs.setPipe, Function.update_of_ne heq] at hused
      refine (h p hused).of_sameRing ?_ ?_ rfl
      · simp [step, VfsCall.step, hwrite, Vfs.setPipe, heq, VfsPipe.SameRing]
      · simp [step, record, hpipe, Ne.symm heq]
  · refine h.kept (RingsKept.of_pipes_eq hpipes) ?_ rfl
    funext p
    simp only [step, record]
    split
    · rename_i hp
      rw [hnothing p hp, List.take_zero, List.append_nil]
    · rfl

/-- A new pipe is empty, and so are its logs. -/
theorem Inv.pipe (h : t.Inv) (proc : Nat) : (t.step B (.pipe proc)).Inv := by
  rcases vfsPipe_cases B t.vfs proc with ⟨fdR, fdW, q, fr, fw, hres, hmade, hput⟩ | ⟨hres, -, hundone⟩
  · have hq : made B t.vfs proc = some q := by
      have hslot : (vfsPipe B t.vfs proc).2.fds (proc, fdR) = some fr := by
        rw [hput.fds, Function.update_of_ne (by simp [hput.ne]), Function.update_self]
      have hvalid : fdValid (fdR : Int) = true := by
        have := hput.read.1
        simp only [fdValid, Bool.and_eq_true, decide_eq_true_eq]
        omega
      simp only [made, hres, Option.bind_some, pipeOf, fdLookup, hvalid, if_true, Int.toNat_natCast, hslot, hmade.files,
        Function.update_of_ne hmade.ne, Function.update_self]
      rfl
    intro p hused
    by_cases heq : p = q
    · subst heq
      have hpipe : (vfsPipe B t.vfs proc).2.pipes p = (t.vfs.pipes p).reset true 1 1 := by rw [hmade.pipes, Function.update_self]
      refine ⟨?_, ?_⟩
      · show VfsPipe.RingInv ((vfsPipe B t.vfs proc).2.pipes p)
        rw [hpipe]
        exact ⟨Nat.zero_le _, show 0 < vfsPipeCapacity by decide, rfl⟩
      · show restart t.returned _ p ++ ((vfsPipe B t.vfs proc).2.pipes p).contents = restart t.written _ p
        rw [hpipe, hq]
        simp [restart, VfsPipe.contents, VfsPipe.reset]
    · have hpipe : (vfsPipe B t.vfs proc).2.pipes p = t.vfs.pipes p := by rw [hmade.pipes, Function.update_of_ne heq]
      have hused' : (t.vfs.pipes p).used = true := by rw [← hpipe]; exact hused
      refine (h p hused').of_sameRing ?_ ?_ ?_
      · show VfsPipe.SameRing _ ((vfsPipe B t.vfs proc).2.pipes p)
        rw [hpipe]
        exact ⟨rfl, rfl, rfl, rfl⟩
      · simp [step, restart, hq, Ne.symm heq]
      · simp [step, restart, hq, Ne.symm heq]
  · have hnone : made B t.vfs proc = none := by simp [made, hres]
    refine h.kept (fun p hused => ?_) ?_ ?_
    · change ((vfsPipe B t.vfs proc).2.pipes p).used = true at hused
      show _ ∧ VfsPipe.SameRing _ ((vfsPipe B t.vfs proc).2.pipes p)
      rcases hundone.pipes p with heq | ⟨-, -, heq⟩
      · rw [heq] at hused ⊢
        exact ⟨hused, rfl, rfl, rfl, rfl⟩
      · simp [heq, VfsPipe.reset] at hused
    · funext p
      simp [step, restart, hnone]
    · funext p
      simp [step, restart, hnone]

theorem step_inv (B : Backends φ β) (t : PipeTrace φ β) (call : VfsCall) (h : t.Inv) : (t.step B call).Inv := by
  cases call with
  | openFlags proc path flags => exact h.kept (vfsOpenFlags_ringsKept B t.vfs proc path flags) rfl rfl
  | close proc fd => exact h.kept (fdCloseOnTable_ringsKept B t.vfs proc fd) rfl rfl
  | read proc fd count => exact h.read proc fd count
  | write proc fd src => exact h.write proc fd src
  | dup proc oldfd => exact h.kept (vfsDup_ringsKept t.vfs proc oldfd) rfl rfl
  | dup2 proc oldfd newfd => exact h.kept (vfsDup2_ringsKept B t.vfs proc oldfd newfd) rfl rfl
  | pipe proc => exact h.pipe proc
  | processInherit dst src => exact h.kept (vfsProcessInherit_ringsKept B t.vfs dst src) rfl rfl
  | processDup2 dst dstFd src srcFd => exact h.kept (vfsProcessDup2_ringsKept B t.vfs dst dstFd src srcFd) rfl rfl
  | processCleanup proc => exact h.kept (closeAll_ringsKept B t.vfs proc) rfl rfl

/-- The trace of a run begins with the reset pools and empty logs. -/
def start (s : Vfs φ β) : PipeTrace φ β where
  vfs := filePoolReset s
  written _ := []
  returned _ := []

end PipeTrace

theorem PipeTrace.run_inv (B : Backends φ β) (s : Vfs φ β) (calls : List VfsCall) :
    (Lib.run (PipeTrace.step B) (PipeTrace.start s) calls).Inv := by
  have hstep : ∀ t call, PipeTrace.Inv t → True → (PipeTrace.step B t call).Inv := fun t call h _ => PipeTrace.step_inv B t call h
  refine Lib.run_invariant hstep (fun q hq => ?_) (Lib.allowed_of_forall fun _ _ _ => trivial)
  simp [PipeTrace.start, filePoolReset] at hq

/-- In every run, for every pipe that is in use: what its reads have returned is a prefix of what its writes have accepted, the size field is the difference of the two lengths and at most the capacity, and the bytes not yet read are the ring from `read_pos` on. -/
theorem pipe_run_fifo (B : Backends φ β) (s : Vfs φ β) (calls : List VfsCall) (p : Nat)
    (hused : ((Lib.run (PipeTrace.step B) (PipeTrace.start s) calls).vfs.pipes p).used = true) :
    let t := Lib.run (PipeTrace.step B) (PipeTrace.start s) calls
    t.returned p <+: t.written p ∧ (t.vfs.pipes p).size = (t.written p).length - (t.returned p).length ∧
      (t.vfs.pipes p).size ≤ 4096 ∧
      (t.written p).drop (t.returned p).length =
        (List.range (t.vfs.pipes p).size).map fun i => (t.vfs.pipes p).data (((t.vfs.pipes p).readPos + i) % 4096) := by
  intro t
  have hinv : t.Inv := PipeTrace.run_inv B s calls
  obtain ⟨hring, horder⟩ := hinv p hused
  have hlen := congrArg List.length horder
  rw [List.length_append, VfsPipe.contents, Ring.length_contents] at hlen
  refine ⟨⟨_, horder⟩, by omega, hring.size_le, ?_⟩
  rw [← horder, List.drop_left]
  rfl

/-- Three bytes written and two of them read leave the third in the ring. -/
theorem pipe_run_fifo_threeBytes :
    let t := Lib.run (PipeTrace.step noFiles) (PipeTrace.start blankVfs) [.pipe 1, .write 1 1 [7, 8, 9], .read 1 0 2]
    t.returned 0 = [7, 8] ∧ (t.vfs.pipes 0).size = (t.written 0).length - (t.returned 0).length :=
  ⟨by decide, (pipe_run_fifo noFiles blankVfs [.pipe 1, .write 1 1 [7, 8, 9], .read 1 0 2] 0 (by decide)).2.1⟩

/-! ### The end of a pipe -/

/-- The descriptor is a read end of the pipe. -/
def ReadEnd (s : Vfs φ β) (proc : Nat) (fd : Int) (p : Nat) : Prop :=
  ∃ i w, fdLookup s proc fd = some i ∧ (s.openFiles i).mode &&& vfsModeRead ≠ 0 ∧ (s.openFiles i).backend = .pipe ∧
    (s.openFiles i).u = .pipe p true w

theorem ReadEnd.unique {s : Vfs φ β} {proc p q : Nat} {fd : Int} (hp : ReadEnd s proc fd p) (hq : ReadEnd s proc fd q) : p = q := by
  obtain ⟨i, w, hlookup, -, -, hu⟩ := hp
  obtain ⟨j, w', hlookup', -, -, hu'⟩ := hq
  cases hlookup.symm.trans hlookup'
  cases hu.symm.trans hu'
  rfl

/-- The call is no read of an empty pipe that still has a writer. -/
def VfsCall.NotEarly (t : PipeTrace φ β) : VfsCall → Prop
  | .read proc fd count => 0 < count → ∀ p, ReadEnd t.vfs proc fd p → 0 < (t.vfs.pipes p).size ∨ (t.vfs.pipes p).writers = 0
  | _ => True

theorem pipeRead_eq_nil {count : Nat} {pipe : VfsPipe} (hcount : 0 < count) : (pipeRead count pipe).1 = [] ↔ pipe.size = 0 := by
  cases count with
  | zero => omega
  | succ count =>
      rw [pipeRead]
      split
      · rename_i hsize
        constructor
        · intro h
          cases h
        · intro h
          omega
      · rename_i hsize
        constructor
        · intro _
          omega
        · intro _
          rfl

theorem vfsRead_readEnd (B : Backends φ β) {s : Vfs φ β} {proc p : Nat} {fd : Int} (hend : ReadEnd s proc fd p) (count : Nat) :
    (vfsRead B s proc fd count).1 = (pipeRead count (s.pipes p)).1 := by
  obtain ⟨i, w, hlookup, hmode, hbackend, hu⟩ := hend
  simp only [vfsRead, hlookup, if_neg hmode, hbackend, hu, if_true]

/-- In every run without early reads, a read of a read end that returns nothing finds the pipe empty and without a writer, and everything that was written to the pipe has been read. -/
theorem pipe_run_eof (B : Backends φ β) (s : Vfs φ β) (before after : List VfsCall) (proc p : Nat) (fd : Int) (count : Nat)
    (hcalls : Lib.Allowed VfsCall.NotEarly (PipeTrace.step B) (PipeTrace.start s) (before ++ .read proc fd count :: after))
    (hcount : 0 < count) (hend : ReadEnd (Lib.run (PipeTrace.step B) (PipeTrace.start s) before).vfs proc fd p)
    (hnothing : (vfsRead B (Lib.run (PipeTrace.step B) (PipeTrace.start s) before).vfs proc fd count).1 = []) :
    let t := Lib.run (PipeTrace.step B) (PipeTrace.start s) before
    (t.vfs.pipes p).size = 0 ∧ (t.vfs.pipes p).writers = 0 ∧ ((t.vfs.pipes p).used = true → t.returned p = t.written p) := by
  intro t
  rw [vfsRead_readEnd B hend, pipeRead_eq_nil hcount] at hnothing
  have hearly := (Lib.allowed_append.mp hcalls).2.1 hcount p hend
  refine ⟨hnothing, hearly.resolve_left (by omega), fun hused => ?_⟩
  have horder : t.returned p ++ (t.vfs.pipes p).contents = t.written p := (PipeTrace.run_inv B s before p hused).order
  have hempty : (t.vfs.pipes p).contents = [] := by rw [VfsPipe.contents, hnothing]; rfl
  rw [← horder, hempty, List.append_nil]

/-- A byte is written and the writer closes before the reader comes to the end. -/
theorem pipe_run_eof_closed :
    let t := Lib.run (PipeTrace.step noFiles) (PipeTrace.start blankVfs) [.pipe 1, .write 1 1 [7], .close 1 1, .read 1 0 4]
    (t.vfs.pipes 0).size = 0 ∧ (t.vfs.pipes 0).writers = 0 ∧ ((t.vfs.pipes 0).used = true → t.returned 0 = t.written 0) := by
  refine pipe_run_eof noFiles blankVfs _ [] 1 0 0 4 ⟨trivial, trivial, trivial, fun _ p hp => Or.inl ?_, fun _ p hp => Or.inr ?_, trivial⟩
    (by decide) ⟨0, false, by decide, by decide, by decide, rfl⟩ (by decide)
  · rw [hp.unique ⟨0, false, by decide, by decide, by decide, rfl⟩]
    decide
  · rw [hp.unique ⟨0, false, by decide, by decide, by decide, rfl⟩]
    decide

/-- The reader comes first: it is told that the pipe has ended, and the writer writes afterwards. -/
theorem pipe_read_before_write :
    ¬∀ (B : Backends Unit Unit) (s : Vfs Unit Unit) (calls : List VfsCall) (proc p : Nat) (fd : Int) (count : Nat), 0 < count →
      ReadEnd (Lib.run (VfsCall.step B) (filePoolReset s) calls) proc fd p →
      (vfsRead B (Lib.run (VfsCall.step B) (filePoolReset s) calls) proc fd count).1 = [] →
      ((Lib.run (VfsCall.step B) (filePoolReset s) calls).pipes p).size = 0 ∧
        ((Lib.run (VfsCall.step B) (filePoolReset s) calls).pipes p).writers = 0 := by
  intro hclaim
  have h := hclaim noFiles blankVfs [.pipe 1] 1 0 0 1 (by decide) ⟨0, false, by decide, by decide, by decide, rfl⟩ (by decide)
  exact absurd h.2 (by decide)

end Tsukasa
