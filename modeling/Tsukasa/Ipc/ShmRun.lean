import Tsukasa.Ipc.ShmCalls
import Tsukasa.Lib.Run

/-!
# Runs of shared-memory calls

Any number of processes make any calls, and their steps are taken in any order. The frames of a region are not returned while an attach's page is mapped to them, in every run in which no section returns a region that another call has given up and not yet unmapped, no process is cleaned up in the middle of an attach, and the identifiers have not run out.
-/

namespace Tsukasa

open Lib

/-- A step of a process: the first of a call, or the next of the call it is in. -/
inductive ShmStep where
  | create (pid size phys : Nat)
  | attach (pid : Nat) (shmId : Int)
  | attachMap (pid : Nat) (free : Bool)
  | attachUndo (pid : Nat)
  | detach (pid virtAddr : Nat)
  | detachUnmap (pid : Nat) (others : Bool)
  | detachReap (pid : Nat)
  | destroy (pid : Nat) (shmId : Int)
  | cleanup (pid target : Nat)
  | cleanupUnmap (pid : Nat) (others : Bool)
  | cleanupFinish (pid : Nat)

/-- The process is not in a call. -/
def Shm.idle (s : Shm) (pid : Nat) : Bool :=
  match (s.processes pid).phase with
  | .idle => true
  | _ => false

namespace ShmStep

def step (s : Shm) : ShmStep → Shm
  | create pid size phys => if s.idle pid then shmCreate s pid size phys else s
  | attach pid shmId => if s.idle pid then shmAttachBegin s pid shmId else s
  | attachMap pid free => shmAttachMap s pid free
  | attachUndo pid => shmAttachUndo s pid
  | detach pid virtAddr => if s.idle pid then shmDetachBegin s pid virtAddr else s
  | detachUnmap pid others => shmDetachUnmap s pid others
  | detachReap pid => shmDetachReap s pid
  | destroy pid shmId => if s.idle pid then shmDestroy s shmId else s
  | cleanup pid target => if s.idle pid then shmCleanupBegin s pid target else s
  | cleanupUnmap pid others => shmCleanupUnmap s pid others
  | cleanupFinish pid => shmCleanupFinish s pid

/-- The condition a step is subject to, in the state it is taken from. -/
def Safe (s : Shm) : ShmStep → Prop
  | create _ _ _ => s.nextShmId < 2 ^ 31 - 1
  | attach pid _ => ∀ t, ¬s.Cleans t pid
  | detachReap pid => ∀ shmId r, (s.processes pid).phase = .detachReaping shmId → shmFindRegion s shmId = some r →
      (s.regions r).destroyPending = true → (s.regions r).refCount = 0 → NoWindow s.windows shmId
  | destroy _ shmId => ∀ r, shmFindRegion s shmId = some r → (s.regions r).refCount = 0 → NoWindow s.windows shmId
  | cleanup _ target => (s.processes target).phase.attaching = none
  | cleanupFinish pid => ∀ target ids, (s.processes pid).phase = .cleaning target [] ids → s.ReapSafe
  | _ => True

end ShmStep

/-- Before the first call. A process has the cursor of a new address space, or the one `process.c` gives its pid. -/
def Shm.start (pml4Phys : Nat → Nat) (ownCursor : Nat → Bool) : Shm where
  regions _ := ShmRegion.zeroed
  attachments _ := ShmAttachment.zeroed
  nextShmId := 1
  processes pid := ⟨pml4Phys pid, if ownCursor pid then shmCursorStart pid else vmSpaceShmBase, 0, .idle⟩
  pageTables _ _ := none
  returned := []

def ShmRegion.Frame (r : ShmRegion) (phys : Nat) : Prop := r.physBase ≤ phys ∧ phys < r.physBase + r.pageCount * 4096

/-- No page that an attach has mapped leads to a frame of its region that has been returned. -/
def Shm.FramesSafe (s : Shm) : Prop :=
  ∀ pml4 page e, s.pageTables pml4 page = some e → ∀ r ∈ s.returned, r.id = e.shmId → ¬r.Frame e.phys

theorem Shm.idle_iff {s : Shm} {pid : Nat} : s.idle pid = true ↔ (s.processes pid).phase = .idle := by
  rw [Shm.idle]
  cases (s.processes pid).phase <;> simp

theorem Shm.start_inv (pml4Phys : Nat → Nat) (ownCursor : Nat → Bool) : ShmInv (Shm.start pml4Phys ownCursor) where
  core := by
    constructor
    case nextId => exact le_refl 1
    case regionSlot => exact nofun
    case ids => exact nofun
    case idUnique => exact nofun
    case returnedId => exact nofun
    case refs => exact nofun
    case slot => exact nofun
    case backed => exact nofun
    case distinct => exact nofun
    case cursor =>
      intro pid
      simp only [Shm.start]
      split
      · exact shmCursorStart_lt pid
      · decide
    case below => exact nofun
    case held => exact nofun
    case mapped => exact nofun
    case unmapped => exact nofun
    case window => exact nofun
    case windowOnce => exact fun _ => List.nodup_nil
    case windowApart => exact nofun
  entered _ h := absurd rfl h
  todoPid := nofun
  cleaned := nofun
  counts _ := Or.inr (tally_eq_zero fun _ _ h => nomatch h.1)

theorem ShmStep.step_inv (s : Shm) (a : ShmStep) (h : ShmInv s) (hsafe : a.Safe s) : ShmInv (a.step s) := by
  have hbegin : ∀ {s' : Shm} {pid : Nat}, ((s.processes pid).phase = .idle → ShmInv s') → ShmInv (if s.idle pid then s' else s) := by
    intro s' pid hcall
    split
    · rename_i hidle
      exact hcall (Shm.idle_iff.mp hidle)
    · exact h
  cases a with
  | create pid size phys => exact hbegin fun _ => shmCreate_inv h hsafe size phys
  | attach pid shmId => exact hbegin fun hidle => shmAttachBegin_inv h hidle hsafe
  | attachMap pid free => exact shmAttachMap_inv h free
  | attachUndo pid => exact shmAttachUndo_inv h
  | detach pid virtAddr => exact hbegin fun hidle => shmDetachBegin_inv h hidle virtAddr
  | detachUnmap pid others => exact shmDetachUnmap_inv h others
  | detachReap pid => exact shmDetachReap_inv h hsafe
  | destroy pid shmId => exact hbegin fun _ => shmDestroy_inv h hsafe
  | cleanup pid target => exact hbegin fun hidle => shmCleanupBegin_inv h hidle hsafe
  | cleanupUnmap pid others => exact shmCleanupUnmap_inv h others
  | cleanupFinish pid => exact shmCleanupFinish_inv h hsafe

theorem ShmInv.framesSafe {s : Shm} (h : ShmInv s) : s.FramesSafe := by
  intro pml4 page e he q hq hid
  exfalso
  rcases (h.core.held pml4 page e he).2 with ⟨i, hi, hkey, -⟩ | ⟨t, w, hw, hkey, -⟩
  · obtain ⟨r, hr, hrid⟩ := h.core.backed i hi
    have hatt : (s.attachments i).shmId = e.shmId := congrArg Prod.snd hkey
    exact (h.core.returnedId q hq).2 r hr (by rw [hrid, hatt, hid])
  · have hwid : w.shmId = e.shmId := congrArg Prod.snd hkey
    exact (h.core.window t w hw).2.1 q hq (by rw [hwid, hid])

/-- In every run whose steps meet their conditions, no returned frame is mapped by an attach in the state reached. -/
theorem shm_run_framesSafe (pml4Phys : Nat → Nat) (ownCursor : Nat → Bool) (steps : List ShmStep)
    (hsteps : Lib.Allowed ShmStep.Safe ShmStep.step (Shm.start pml4Phys ownCursor) steps) :
    (Lib.run ShmStep.step (Shm.start pml4Phys ownCursor) steps).FramesSafe :=
  (Lib.run_invariant ShmStep.step_inv (Shm.start_inv pml4Phys ownCursor) hsteps).framesSafe

set_option maxRecDepth 20000 in
theorem shm_run_framesSafe_detached :
    (Lib.run ShmStep.step (Shm.start id fun _ => true) [.create 1 4096 0x200000, .attach 1 1, .attachMap 1 true, .detach 1 0x41000000,
      .detachUnmap 1 true, .destroy 2 1]).FramesSafe := by
  refine shm_run_framesSafe id (fun _ => true) _ ⟨by simp [ShmStep.Safe, Shm.start], fun t => ?_, trivial, trivial, trivial, fun _ _ _ t w hw => ?_, trivial⟩
  · rintro ⟨todo, ids, hphase⟩
    cases hphase
  · have hnone : w ∈ ([] : List ShmAttachment) := by
      match t with
      | 0 => exact hw
      | 1 => exact hw
      | t + 2 => exact hw
    cases hnone

/-- A process detaches a region, and before it has unmapped the pages another one destroys the region. -/
theorem shm_destroy_returns_mapped_frames :
    ¬∀ (pml4Phys : Nat → Nat) (ownCursor : Nat → Bool) (steps : List ShmStep),
      (Lib.run ShmStep.step (Shm.start pml4Phys ownCursor) steps).FramesSafe := by
  intro hclaim
  have h := hclaim id (fun _ => true)
    [.create 1 4096 0x200000, .attach 1 1, .attachMap 1 true, .detach 1 0x41000000, .destroy 2 1] 1 0x41000 ⟨0x200000, 1, 1⟩
    (by decide +kernel) ⟨1, 1, 0x200000, 4096, 1, 0, true, true⟩ (by decide +kernel) rfl
  exact h ⟨by decide, by decide⟩

end Tsukasa
