import Tsukasa.Ipc.ShmRun
import Tsukasa.Ipc.ShmSequence
import Tsukasa.Lib.Holdings

/-!
# Processes on one page table

A process gets the page table of the process that creates it, and its cursor starts in one of 64 windows, by its pid. The ranges that processes on one page table hold stay apart when every attach stays in a window that holds no range of another one.
-/

namespace Tsukasa

open Lib

/-- The bytes from one start of a cursor to the next. -/
def shmWindowSpan : Nat := 0x01000000

/-- The shared-memory state with the processes that are alive. -/
structure ShmSpaces where
  shm : Shm
  live : Nat → Bool
  nextPid : Nat

namespace ShmSpaces

/-- `create_kernel_process_locked` for a parent with a page table. `stack` says whether the stack is obtained. -/
def createKernelProcess (s : ShmSpaces) (parent : Nat) (stack : Bool) : ShmSpaces :=
  if s.live parent then
    let pid := s.nextPid
    let s := { s with nextPid := wrap32 (pid + 1) }
    if stack then
      { s with
        live := Function.update s.live pid true
        shm := s.shm.setProcess pid ⟨(s.shm.processes parent).pml4Phys, shmCursorStart pid, 0, .idle⟩ }
    else s
  else s

/-- `mark_zombie_locked`, which runs with interrupts disabled; a call that the process was in is not continued. -/
def markZombie (s : ShmSpaces) (pid : Nat) (others : Bool) : ShmSpaces :=
  if s.live pid then { s with shm := shmProcessCleanup s.shm pid pid others, live := Function.update s.live pid false } else s

end ShmSpaces

/-- The process that takes a step of its own call. -/
def ShmStep.caller : ShmStep → Option Nat
  | create pid _ _ => some pid
  | attach pid _ => some pid
  | attachMap pid _ => some pid
  | attachUndo pid => some pid
  | detach pid _ => some pid
  | detachUnmap pid _ => some pid
  | detachReap pid => some pid
  | destroy pid _ => some pid
  | cleanup _ _ => none
  | cleanupUnmap _ _ => none
  | cleanupFinish _ => none

inductive ShmSpacesStep where
  | createProcess (parent : Nat) (stack : Bool)
  | exit (pid : Nat) (others : Bool)
  | call (step : ShmStep)

/-- The range that a process has taken from the table and not yet unmapped. -/
def ShmPhase.leaving (pid : Nat) : ShmPhase → Option ShmAttachment
  | .detachUnmapping shmId virtAddr pageCount _ => some ⟨true, shmId, pid, virtAddr, pageCount⟩
  | _ => none

/-- The address of the attach that is under way. -/
def ShmPhase.entering : ShmPhase → Option Nat
  | .attachMapping _ virtAddr _ _ => some virtAddr
  | .attachFailed _ virtAddr => some virtAddr
  | _ => none

/-- The ranges that a process holds. -/
def Shm.rangesOf (s : Shm) (pid : Nat) : List ShmAttachment :=
  (attachmentsOf s pid).map s.attachments ++ ((s.processes pid).phase.leaving pid).toList

namespace ShmSpaces

def step (s : ShmSpaces) : ShmSpacesStep → ShmSpaces
  | .createProcess parent stack => createKernelProcess s parent stack
  | .exit pid others => markZombie s pid others
  | .call a => if a.caller.any s.live then { s with shm := a.step s.shm } else s

/-- After `process_init`: the first process is alive, and its space is that of `vm_space_init_kernel`. -/
def boot (pml4Phys : Nat) : ShmSpaces := ⟨Shm.start (fun _ => pml4Phys) fun _ => false, fun pid => pid == 1, 2⟩

/-- Ranges of different processes on one page table are apart; the pages an attach is about to map are free of attachments, and those it has mapped stay mapped until its process unmaps them. -/
structure Apart (s : ShmSpaces) : Prop where
  ranges : ∀ p q, p ≠ q → s.live p = true → s.live q = true → (s.shm.processes p).pml4Phys = (s.shm.processes q).pml4Phys →
    ∀ a ∈ s.shm.rangesOf p, ∀ b ∈ s.shm.rangesOf q, ∀ page, a.Covers page → ¬ b.Covers page
  attaches : ∀ p shmId virtAddr physBase pageCount, (s.shm.processes p).phase = .attachMapping shmId virtAddr physBase pageCount →
    ∀ i < pageCount, s.shm.pageTables (s.shm.processes p).pml4Phys (pageNumber virtAddr i) = none
  keeps : ∀ p, s.live p = true → ∀ a ∈ s.shm.rangesOf p, (s.shm.processes p).phase.entering ≠ some a.virtBase →
    ∀ page, a.Covers page → ∃ e, s.shm.pageTables (s.shm.processes p).pml4Phys page = some e ∧ e.pid = p

/-- An attach stays in a window in which no other process on the page table holds a range; a process does not end between the sections of a detach; and pids have not run out. -/
def Room (s : ShmSpaces) : ShmSpacesStep → Prop
  | .call (.attach pid shmId) => shmFindAttachment s.shm pid shmId = none → ∀ r ∈ shmFindRegion s.shm shmId,
      let base := alignUpPage (s.shm.processes pid).shmCursor
      (base + (s.shm.regions r).pageCount * 4096 - 1) / shmWindowSpan = base / shmWindowSpan ∧
        ∀ q < s.nextPid, q ≠ pid → s.live q = true → (s.shm.processes q).pml4Phys = (s.shm.processes pid).pml4Phys →
          ∀ a ∈ s.shm.rangesOf q, a.virtBase / shmWindowSpan ≠ base / shmWindowSpan
  | .exit pid _ => (s.shm.processes pid).phase.leaving pid = none
  | .createProcess _ _ => s.nextPid < 2 ^ 32 - 1
  | _ => True

instance (s : ShmSpaces) : (a : ShmSpacesStep) → Decidable (s.Room a)
  | .call (.attach pid shmId) => inferInstanceAs (Decidable (shmFindAttachment s.shm pid shmId = none → ∀ r ∈ shmFindRegion s.shm shmId,
      (alignUpPage (s.shm.processes pid).shmCursor + (s.shm.regions r).pageCount * 4096 - 1) / shmWindowSpan =
          alignUpPage (s.shm.processes pid).shmCursor / shmWindowSpan ∧
        ∀ q < s.nextPid, q ≠ pid → s.live q = true → (s.shm.processes q).pml4Phys = (s.shm.processes pid).pml4Phys →
          ∀ a ∈ s.shm.rangesOf q, a.virtBase / shmWindowSpan ≠ alignUpPage (s.shm.processes pid).shmCursor / shmWindowSpan))
  | .exit pid _ => inferInstanceAs (Decidable ((s.shm.processes pid).phase.leaving pid = none))
  | .createProcess _ _ => inferInstanceAs (Decidable (s.nextPid < 2 ^ 32 - 1))
  | .call (.create ..) | .call (.attachMap ..) | .call (.attachUndo ..) | .call (.detach ..) | .call (.detachUnmap ..) | .call (.detachReap ..)
  | .call (.destroy ..) | .call (.cleanup ..) | .call (.cleanupUnmap ..) | .call (.cleanupFinish ..) => isTrue trivial

end ShmSpaces

/-! ### The ranges of a state -/

/-- A range as pages of the table of its process. -/
def ShmAttachment.pageRange (a : ShmAttachment) : PageRange Nat := ⟨a.pid, a.virtBase / 4096, a.pageCount⟩

/-- The ranges by their slot in the table, or by the process that is about to unmap them. -/
def Shm.rangeAt (s : Shm) : Nat ⊕ Nat → Option ShmAttachment
  | .inl i => if (s.attachments i).inUse then some (s.attachments i) else none
  | .inr pid => (s.processes pid).phase.leaving pid

def Shm.holdings (s : Shm) : Holdings (Nat ⊕ Nat) Nat Nat where
  range k := (s.rangeAt k).map ShmAttachment.pageRange
  reserving pid := (s.processes pid).phase.entering.map fun virtAddr => virtAddr / 4096
  table pid := (s.processes pid).pml4Phys
  page pml4 page := (s.pageTables pml4 page).map ShmPage.pid

/-- A range lies in one window and below the cursor of its process. -/
structure ShmAttachment.Fits (a : ShmAttachment) (cursor : Nat) : Prop where
  aligned : a.virtBase % 4096 = 0
  size : a.pageCount ≠ 0
  base : vmSpaceShmBase ≤ a.virtBase
  window : (a.virtBase + a.pageCount * 4096 - 1) / shmWindowSpan = a.virtBase / shmWindowSpan
  below : a.virtBase + a.pageCount * 4096 ≤ cursor

theorem ShmPhase.leaving_some {phase : ShmPhase} {p : Nat} {a : ShmAttachment} (h : phase.leaving p = some a) :
    a.pid = p ∧ phase.attaching = none ∧ phase.entering = none := by
  cases phase <;> simp only [ShmPhase.leaving, reduceCtorEq] at h
  obtain rfl := Option.some.inj h
  exact ⟨rfl, rfl, rfl⟩

theorem ShmPhase.Entered.entering {phase : ShmPhase} {p : Nat} {a : ShmAttachment} (h : phase.Entered p a) :
    a.inUse = true ∧ a.pid = p ∧ phase.entering = some a.virtBase := by
  cases phase <;> simp only [ShmPhase.Entered] at h
  · rw [h]
    exact ⟨rfl, rfl, rfl⟩
  · obtain ⟨pageCount, rfl⟩ := h
    exact ⟨rfl, rfl, rfl⟩

theorem ShmPhase.attaching_of_entering {phase : ShmPhase} (h : phase.entering ≠ none) : phase.attaching ≠ none := by
  cases phase <;> simp [ShmPhase.entering, ShmPhase.attaching] at h ⊢

section Ranges

variable {s : Shm} {p : Nat} {a : ShmAttachment}

theorem Shm.rangeAt_slot {i : Nat} (huse : (s.attachments i).inUse = true) : s.rangeAt (.inl i) = some (s.attachments i) := if_pos huse

theorem Shm.rangeAt_inl {i : Nat} (h : s.rangeAt (.inl i) = some a) : s.attachments i = a ∧ a.inUse = true := by
  rw [Shm.rangeAt] at h
  split at h
  · rename_i huse
    obtain rfl := Option.some.inj h
    exact ⟨rfl, huse⟩
  · exact absurd h (by simp)

theorem Shm.mem_rangesOf (hslot : ∀ i, (s.attachments i).inUse = true → i < shmMaxAttachments) :
    a ∈ s.rangesOf p ↔ ∃ k, s.rangeAt k = some a ∧ a.pid = p := by
  simp only [Shm.rangesOf, List.mem_append, List.mem_map, mem_attachmentsOf, Option.mem_toList]
  constructor
  · rintro (⟨i, ⟨-, huse, hpid⟩, rfl⟩ | hleaving)
    · exact ⟨.inl i, Shm.rangeAt_slot huse, hpid⟩
    · exact ⟨.inr p, hleaving, (ShmPhase.leaving_some hleaving).1⟩
  · rintro ⟨k, hk, hpid⟩
    cases k with
    | inl i =>
        obtain ⟨rfl, huse⟩ := Shm.rangeAt_inl hk
        exact Or.inl ⟨i, ⟨hslot i huse, huse, hpid⟩, rfl⟩
    | inr q =>
        obtain rfl := (ShmPhase.leaving_some hk).1.symm.trans hpid
        exact Or.inr hk

theorem Shm.rangeAt_setAttachment (i : Nat) :
    (s.setAttachment i a).rangeAt = Function.update s.rangeAt (.inl i) (if a.inUse then some a else none) := by
  funext k
  cases k with
  | inl j =>
      by_cases hji : j = i
      · rw [hji, Function.update_self, Shm.rangeAt, setAttachment_self]
      · rw [Function.update_of_ne (by simpa using hji), Shm.rangeAt, setAttachment_of_ne hji]
        rfl
  | inr q => rw [Function.update_of_ne Sum.inr_ne_inl]; rfl

theorem Shm.rangeAt_setProcess (x : ShmProcess) : (s.setProcess p x).rangeAt = Function.update s.rangeAt (.inr p) (x.phase.leaving p) := by
  funext k
  cases k with
  | inl j => rw [Function.update_of_ne Sum.inl_ne_inr]; rfl
  | inr q =>
      by_cases hqp : q = p
      · rw [hqp, Function.update_self, Shm.rangeAt, setProcess_self]
      · rw [Function.update_of_ne (by simpa using hqp), Shm.rangeAt, setProcess_of_ne hqp]
        rfl

end Ranges

end Tsukasa
