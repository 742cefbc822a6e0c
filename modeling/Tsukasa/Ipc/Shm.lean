import Tsukasa.Mm.VmSpace
import Mathlib.Logic.Function.Basic

/-!
# Shared memory

`ipc/shm.c` with the parts of `mm/vm_space.c` it uses. A call is a sequence of steps: a critical section of `g_shm_lock`, or an unlocked map or unmap. A process that is between two steps of a call is in a phase that holds the call's local variables, so that the steps of different processes may be taken in any order.

A page table is kept as the pages that a `shm_attach` has mapped; whether `vmm_map_pages` obtains its tables, and whether the other pages of a range are mapped by someone else, are arguments of the steps. Beside the state stands the list of the regions whose frames have been returned to the page allocator.
-/

namespace Tsukasa

def shmMaxRegions : Nat := 64
def shmMaxAttachments : Nat := 256

structure ShmRegion where
  id : Int
  ownerPid : Nat
  physBase : Nat
  size : Nat
  pageCount : Nat
  refCount : Nat
  destroyPending : Bool
  inUse : Bool
deriving DecidableEq

def ShmRegion.zeroed : ShmRegion := ⟨0, 0, 0, 0, 0, 0, false, false⟩

structure ShmAttachment where
  inUse : Bool
  shmId : Int
  pid : Nat
  virtBase : Nat
  pageCount : Nat
deriving DecidableEq

def ShmAttachment.zeroed : ShmAttachment := ⟨false, 0, 0, 0, 0⟩

/-- Where a process is in a call. -/
inductive ShmPhase where
  | idle
  /-- `shm_attach` before its map. -/
  | attachMapping (shmId : Int) (virtAddr physBase pageCount : Nat)
  /-- `shm_attach` after a map that failed. -/
  | attachFailed (shmId : Int) (virtAddr : Nat)
  /-- `shm_detach` before its unmap. -/
  | detachUnmapping (shmId : Int) (virtAddr pageCount : Nat) (needsReap : Bool)
  /-- `shm_detach` before its second section. -/
  | detachReaping (shmId : Int)
  /-- `shm_process_cleanup` of a process, with the attachments it has still to unmap. -/
  | cleaning (target : Nat) (todo : List ShmAttachment) (ids : List Int)

structure ShmProcess where
  pml4Phys : Nat
  shmCursor : Nat
  shmAttachmentCount : Nat
  phase : ShmPhase

/-- A page that a `shm_attach` has mapped: its frame, and the call that mapped it. -/
structure ShmPage where
  phys : Nat
  shmId : Int
  pid : Nat
deriving DecidableEq

structure Shm where
  regions : Nat → ShmRegion
  attachments : Nat → ShmAttachment
  nextShmId : Int
  /-- The processes by pid. -/
  processes : Nat → ShmProcess
  pageTables : Nat → Nat → Option ShmPage
  /-- The regions whose frames have been returned. -/
  returned : List ShmRegion

namespace Shm

def setRegion (s : Shm) (i : Nat) (r : ShmRegion) : Shm := { s with regions := Function.update s.regions i r }

def setAttachment (s : Shm) (i : Nat) (a : ShmAttachment) : Shm := { s with attachments := Function.update s.attachments i a }

def setProcess (s : Shm) (pid : Nat) (p : ShmProcess) : Shm := { s with processes := Function.update s.processes pid p }

def setPhase (s : Shm) (pid : Nat) (phase : ShmPhase) : Shm := s.setProcess pid { s.processes pid with phase := phase }

end Shm

/-! ### Tables -/

def shmFindRegion (s : Shm) (id : Int) : Option Nat :=
  (List.range shmMaxRegions).find? fun i => (s.regions i).inUse && decide ((s.regions i).id = id)

def shmAllocRegion (s : Shm) : Option Nat := (List.range shmMaxRegions).find? fun i => !(s.regions i).inUse

def shmFindAttachment (s : Shm) (pid : Nat) (shmId : Int) : Option Nat :=
  (List.range shmMaxAttachments).find? fun i =>
    (s.attachments i).inUse && decide ((s.attachments i).pid = pid) && decide ((s.attachments i).shmId = shmId)

def shmFindAttachmentByAddr (s : Shm) (pid virtAddr : Nat) : Option Nat :=
  (List.range shmMaxAttachments).find? fun i =>
    (s.attachments i).inUse && decide ((s.attachments i).pid = pid) && decide ((s.attachments i).virtBase = virtAddr)

def shmAllocAttachment (s : Shm) : Option Nat := (List.range shmMaxAttachments).find? fun i => !(s.attachments i).inUse

def shmReapRegion (s : Shm) (i : Nat) : Shm :=
  let r := s.regions i
  if !r.inUse || !r.destroyPending || decide (r.refCount ≠ 0) then s
  else
    let s := s.setRegion i ShmRegion.zeroed
    if r.physBase ≠ 0 ∧ r.pageCount ≠ 0 then { s with returned := s.returned ++ [r] } else s

/-- `r = shm_find_region_locked(shm_id); if (r && r->ref_count > 0) r->ref_count--;` -/
def dropRef (s : Shm) (shmId : Int) : Shm :=
  match shmFindRegion s shmId with
  | none => s
  | some i =>
      if 0 < (s.regions i).refCount then s.setRegion i { s.regions i with refCount := (s.regions i).refCount - 1 } else s

/-! ### Address spaces -/

/-- `vm_space_contains_user_range` for a range of whole pages of a space with the full user window. -/
def vmSpaceContainsUserRange (base pageCount : Nat) : Bool :=
  let size := wrap64 (pageCount * 4096)
  pagingIsPageAligned base && pagingRangeIsUser base size

/-- The number of the page `i` pages behind an address. -/
def pageNumber (virtAddr i : Nat) : Nat := virtAddr / 4096 + i

/-- The pages of a range are given new entries. -/
def Shm.setPages (s : Shm) (pml4 virtAddr pageCount : Nat) (entry : Nat → Option ShmPage) : Shm :=
  let table := fun page =>
    if virtAddr / 4096 ≤ page ∧ page < virtAddr / 4096 + pageCount then entry page else s.pageTables pml4 page
  { s with pageTables := Function.update s.pageTables pml4 table }

def pageMapped (s : Shm) (pml4 page : Nat) : Bool := (s.pageTables pml4 page).isSome

/-- `vm_space_map_user_pages` for a `shm_attach`: no page of the range may be mapped, and a failure leaves the table as it was. `free` says whether the tables are obtained and no page of the range is mapped by anyone else. -/
def vmSpaceMapUserPages (s : Shm) (pid : Nat) (shmId : Int) (virtAddr physBase pageCount : Nat) (free : Bool) : Bool × Shm :=
  let pml4 := (s.processes pid).pml4Phys
  if pageCount = 0 || !vmSpaceContainsUserRange virtAddr pageCount || !pagingIsPageAligned physBase then (false, s)
  else if free && (List.range pageCount).all fun i => !pageMapped s pml4 (pageNumber virtAddr i) then
    (true, s.setPages pml4 virtAddr pageCount fun page => some ⟨physBase + (page - virtAddr / 4096) * 4096, shmId, pid⟩)
  else (false, s)

/-- `vm_space_unmap_user_pages`: all pages of the range must be mapped. `others` says whether those of them that no `shm_attach` has mapped are mapped by someone else. -/
def vmSpaceUnmapUserPages (s : Shm) (pid virtAddr pageCount : Nat) (others : Bool) : Shm :=
  let pml4 := (s.processes pid).pml4Phys
  if pageCount = 0 || !vmSpaceContainsUserRange virtAddr pageCount then s
  else if others || (List.range pageCount).all fun i => pageMapped s pml4 (pageNumber virtAddr i) then
    s.setPages pml4 virtAddr pageCount fun _ => none
  else s

def shmCursorStart (pid : Nat) : Nat := vmSpaceShmBase + pid % 64 * 0x01000000

/-! ### Calls -/

/-- `shm_create`; `phys` is what the page allocator returns for a number of pages other than 0. -/
def shmCreate (s : Shm) (pid size phys : Nat) : Shm :=
  if size = 0 then s
  else
    let pageCount := wrap64 (size + 4095) / 4096
    if pageCount = 0 ∨ phys = 0 then s
    else
      match shmAllocRegion s with
      | none => s
      | some i =>
          let newId := s.nextShmId
          let next := if newId = 2 ^ 31 - 1 then -2 ^ 31 else newId + 1
          let s := { s with nextShmId := if next < 1 then 1 else next }
          s.setRegion i ⟨newId, pid, phys, wrap64 (pageCount * 4096), pageCount, 0, false, true⟩

/-- The first section of `shm_attach`. -/
def shmAttachBegin (s : Shm) (pid : Nat) (shmId : Int) : Shm :=
  if shmId ≤ 0 then s
  else
    match shmFindRegion s shmId with
    | none => s
    | some r =>
        match shmFindAttachment s pid shmId with
        | some _ => s
        | none =>
            let p := s.processes pid
            let (virtAddr, cursor) := vmSpaceReserveShmRange p.shmCursor (s.regions r).pageCount
            if virtAddr = 0 then s
            else
              let s := s.setProcess pid { p with shmCursor := cursor }
              match shmAllocAttachment s with
              | none => s
              | some i =>
                  let region := s.regions r
                  let s := s.setAttachment i ⟨true, shmId, pid, virtAddr, region.pageCount⟩
                  let s := s.setRegion r { region with refCount := wrap32 (region.refCount + 1) }
                  s.setPhase pid (.attachMapping shmId virtAddr region.physBase region.pageCount)

/-- The map of `shm_attach`, and what follows it when it succeeds. -/
def shmAttachMap (s : Shm) (pid : Nat) (free : Bool) : Shm :=
  match (s.processes pid).phase with
  | .attachMapping shmId virtAddr physBase pageCount =>
      match vmSpaceMapUserPages s pid shmId virtAddr physBase pageCount free with
      | (true, s) =>
          let p := s.processes pid
          s.setProcess pid { p with shmAttachmentCount := wrap32 (p.shmAttachmentCount + 1), phase := .idle }
      | (false, s) => s.setPhase pid (.attachFailed shmId virtAddr)
  | _ => s

/-- The section of `shm_attach` after a map that failed. -/
def shmAttachUndo (s : Shm) (pid : Nat) : Shm :=
  match (s.processes pid).phase with
  | .attachFailed shmId virtAddr =>
      let s :=
        match shmFindAttachmentByAddr s pid virtAddr with
        | some i => s.setAttachment i { s.attachments i with inUse := false }
        | none => s
      (dropRef s shmId).setPhase pid .idle
  | _ => s

/-- The first section of `shm_detach`. -/
def shmDetachBegin (s : Shm) (pid virtAddr : Nat) : Shm :=
  if virtAddr = 0 then s
  else
    match shmFindAttachmentByAddr s pid virtAddr with
    | none => s
    | some i =>
        let att := s.attachments i
        let s := dropRef (s.setAttachment i { att with inUse := false }) att.shmId
        let needsReap :=
          match shmFindRegion s att.shmId with
          | some r => (s.regions r).destroyPending && decide ((s.regions r).refCount = 0)
          | none => false
        s.setPhase pid (.detachUnmapping att.shmId virtAddr att.pageCount needsReap)

/-- The unmap of `shm_detach`, and what follows it. -/
def shmDetachUnmap (s : Shm) (pid : Nat) (others : Bool) : Shm :=
  match (s.processes pid).phase with
  | .detachUnmapping shmId virtAddr pageCount needsReap =>
      let s := vmSpaceUnmapUserPages s pid virtAddr pageCount others
      let p := s.processes pid
      let count := if 0 < p.shmAttachmentCount then p.shmAttachmentCount - 1 else p.shmAttachmentCount
      let cursor := if count = 0 then shmCursorStart pid else p.shmCursor
      s.setProcess pid { p with
        shmAttachmentCount := count, shmCursor := cursor, phase := if needsReap then .detachReaping shmId else .idle }
  | _ => s

/-- The second section of `shm_detach`. -/
def shmDetachReap (s : Shm) (pid : Nat) : Shm :=
  match (s.processes pid).phase with
  | .detachReaping shmId =>
      let s :=
        match shmFindRegion s shmId with
        | some r => shmReapRegion s r
        | none => s
      s.setPhase pid .idle
  | _ => s

def shmDestroy (s : Shm) (shmId : Int) : Shm :=
  if shmId ≤ 0 then s
  else
    match shmFindRegion s shmId with
    | none => s
    | some r =>
        if 0 < (s.regions r).refCount then s
        else shmReapRegion (s.setRegion r { s.regions r with destroyPending := true }) r

/-- The body of the loop of `shm_process_cleanup` over the attachments of the process. -/
def cleanupDrop (s : Shm) (i : Nat) : Shm :=
  let s := dropRef s (s.attachments i).shmId
  s.setAttachment i { s.attachments i with inUse := false }

/-- The loop of `shm_process_cleanup` that disowns the regions of the process. -/
def cleanupDisown (s : Shm) (target : Nat) : Shm :=
  { s with regions := fun i =>
    let r := s.regions i
    if i < shmMaxRegions ∧ r.inUse = true ∧ r.ownerPid = target then { r with ownerPid := 0, destroyPending := true } else r }

def attachmentsOf (s : Shm) (target : Nat) : List Nat :=
  (List.range shmMaxAttachments).filter fun i => (s.attachments i).inUse && decide ((s.attachments i).pid = target)

/-- The first section of `shm_process_cleanup`. -/
def shmCleanupBegin (s : Shm) (pid target : Nat) : Shm :=
  let held := attachmentsOf s target
  let todo := held.map s.attachments
  let s := held.foldl cleanupDrop s
  (cleanupDisown s target).setPhase pid (.cleaning target todo (todo.map ShmAttachment.shmId))

/-- The next unmap of `shm_process_cleanup`. -/
def shmCleanupUnmap (s : Shm) (pid : Nat) (others : Bool) : Shm :=
  match (s.processes pid).phase with
  | .cleaning target (att :: todo) ids =>
      (vmSpaceUnmapUserPages s target att.virtBase att.pageCount others).setPhase pid (.cleaning target todo ids)
  | _ => s

/-- The body of the loop of `shm_process_cleanup` over the regions it has dropped references to. -/
def cleanupReap (s : Shm) (id : Int) : Shm :=
  match shmFindRegion s id with
  | some r => shmReapRegion s r
  | none => s

/-- The body of its loop over all regions. -/
def cleanupSweep (s : Shm) (i : Nat) : Shm := if (s.regions i).inUse then shmReapRegion s i else s

/-- What `shm_process_cleanup` does after its unmaps, with its second section. -/
def shmCleanupFinish (s : Shm) (pid : Nat) : Shm :=
  match (s.processes pid).phase with
  | .cleaning target [] ids =>
      let s := s.setProcess target { s.processes target with shmAttachmentCount := 0, shmCursor := shmCursorStart target }
      let s := ids.foldl cleanupReap s
      let s := (List.range shmMaxRegions).foldl cleanupSweep s
      s.setPhase pid .idle
  | _ => s

end Tsukasa
