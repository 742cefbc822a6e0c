import Tsukasa.Ipc.ShmBooks
import Tsukasa.Mm.VmmRollback

/-!
# An attach that fails

`shm_attach` as one call, on the tables of `ipc/shm.c` and the address space of the caller with its page tables. It takes address room first, then an attachment and a reference, and then it maps. When the map fails it gives the attachment and the reference back, and `vmm_map_pages` has unmapped what it mapped; the address room is not given back on any path.
-/

namespace Tsukasa

open Vmm

/-- What `shm_attach` sees: the tables of regions and attachments, the calling process, and the page tables. The address spaces that `Shm` has of its own play no part. -/
structure ShmCaller where
  shm : Shm
  pid : Nat
  space : VmSpace
  shmAttachmentCount : Nat
  vmm : Vmm

namespace ShmCaller

def mapFlags : BitVec 64 := pagingMapRead ||| pagingMapWrite ||| pagingMapExec ||| pagingMapUser

/-- What `shm_attach` does after a map that failed. -/
def attachUndo (s : ShmCaller) (shmId : Int) (virtAddr : Nat) : ShmCaller :=
  let shm :=
    match shmFindAttachmentByAddr s.shm s.pid virtAddr with
    | some i => s.shm.setAttachment i { s.shm.attachments i with inUse := false }
    | none => s.shm
  { s with shm := dropRef shm shmId }

def shmAttach (s : ShmCaller) (shmId : Int) : Nat × ShmCaller :=
  if shmId ≤ 0 then (0, s)
  else
    match shmFindRegion s.shm shmId with
    | none => (0, s)
    | some r =>
        match shmFindAttachment s.shm s.pid shmId with
        | some i => ((s.shm.attachments i).virtBase, s)
        | none =>
            let region := s.shm.regions r
            let (virtAddr, space) := s.space.reserveShmRange region.pageCount
            if virtAddr = 0 then (0, { s with space := space })
            else
              match shmAllocAttachment s.shm with
              | none => (0, { s with space := space })
              | some i =>
                  let shm := s.shm.setAttachment i ⟨true, shmId, s.pid, virtAddr, region.pageCount⟩
                  let shm := shm.setRegion r { region with refCount := wrap32 (region.refCount + 1) }
                  let (ret, space, vmm) := space.mapUserPages s.vmm virtAddr region.physBase region.pageCount mapFlags
                  let s := { s with shm := shm, space := space, vmm := vmm }
                  if ret ≠ 0 then (0, s.attachUndo shmId virtAddr)
                  else
                    (virtAddr, { s with
                      space := space.noteShmAttach region.pageCount
                      shmAttachmentCount := wrap32 (s.shmAttachmentCount + 1) })

/-- The tables and the process are as before the call but for the cursor, and so are the mappings; the fields of an attachment that is not in use do not count. -/
structure Restored (s s' : ShmCaller) : Prop where
  regions : s'.shm.regions = s.shm.regions
  attachments : ∀ i, (s'.shm.attachments i).inUse = (s.shm.attachments i).inUse ∧
    ((s.shm.attachments i).inUse = true → s'.shm.attachments i = s.shm.attachments i)
  space : { s'.space with shmCursor := s.space.shmCursor } = s.space
  count : s'.shmAttachmentCount = s.shmAttachmentCount
  pages : ∀ page < 2 ^ 64, (KernelPage page → s.vmm.WalkApart s.space.pml4Phys page) →
    vmmQueryPage s'.vmm s.space.pml4Phys page = vmmQueryPage s.vmm s.space.pml4Phys page

/-- Everything is as before the call. -/
structure Unchanged (s s' : ShmCaller) : Prop where
  shm : s'.shm = s.shm
  space : s'.space = s.space
  count : s'.shmAttachmentCount = s.shmAttachmentCount
  pages : ∀ pml4 page, vmmQueryPage s'.vmm pml4 page = vmmQueryPage s.vmm pml4 page

/-- The address room for an attachment to region `r`, or 0, and the space with the cursor behind it. -/
def room (s : ShmCaller) (r : Nat) : Nat × VmSpace := s.space.reserveShmRange (s.shm.regions r).pageCount

/-- The call is for a new attachment to region `r`, and there is address room for it. -/
structure RoomFor (s : ShmCaller) (shmId : Int) (r : Nat) : Prop where
  pos : 0 < shmId
  region : shmFindRegion s.shm shmId = some r
  fresh : shmFindAttachment s.shm s.pid shmId = none
  found : (s.room r).1 ≠ 0

/-- The range that has been found can be mapped to the frames of region `r`. -/
def CanMap (s : ShmCaller) (r : Nat) : Prop :=
  let region := s.shm.regions r
  s.space.mapAccepts (s.room r).1 region.physBase region.pageCount mapFlags = true ∧
    (vmmMapPages s.vmm s.space.pml4Phys (s.room r).1 region.physBase region.pageCount mapFlags).1 = 0

variable {s : ShmCaller} {shmId : Int}

theorem Unchanged.refl (s : ShmCaller) : Unchanged s s := ⟨rfl, rfl, rfl, fun _ _ => rfl⟩

theorem Restored.refl (s : ShmCaller) : Restored s s := ⟨rfl, fun _ => ⟨rfl, fun _ => rfl⟩, rfl, rfl, fun _ _ _ => rfl⟩

/-! ### The room that is taken -/

/-- Room that is found lies in the window, and it moves the cursor. -/
theorem reserve_found {cursor pageCount : Nat} (hfound : (vmSpaceReserveShmRange cursor pageCount).1 ≠ 0) :
    (vmSpaceReserveShmRange cursor pageCount).1 < vmSpaceShmLimit ∧ (vmSpaceReserveShmRange cursor pageCount).2 ≠ cursor := by
  simp only [vmSpaceReserveShmRange] at hfound ⊢
  split_ifs at hfound ⊢ with hcount hspan hnext hwindow
  all_goals try exact absurd rfl hfound
  have hlt := wrap64_lt (pageCount * 4096)
  generalize wrap64 (pageCount * 4096) = span at *
  simp only [alignUpPage, vmSpaceShmBase, vmSpaceShmLimit, wrap64, not_or, not_lt] at *
  omega

theorem reserve_none {cursor pageCount : Nat} (hnone : (vmSpaceReserveShmRange cursor pageCount).1 = 0) :
    (vmSpaceReserveShmRange cursor pageCount).2 = cursor := by
  simp only [vmSpaceReserveShmRange] at hnone ⊢
  split_ifs at hnone ⊢ with hcount hspan hnext hwindow
  all_goals try rfl
  simp only [vmSpaceShmBase, not_or, not_lt] at hwindow
  omega

theorem reserveShmRange_none (space : VmSpace) {pageCount : Nat} (hnone : (space.reserveShmRange pageCount).1 = 0) :
    (space.reserveShmRange pageCount).2 = space := by
  simp only [VmSpace.reserveShmRange, reserve_none hnone]

/-! ### The map -/

theorem mapUserPages_zero {space : VmSpace} {v : Vmm} {virtAddr physAddr pageCount : Nat} {flags : BitVec 64} :
    (space.mapUserPages v virtAddr physAddr pageCount flags).1 = 0 ↔
      space.mapAccepts virtAddr physAddr pageCount flags = true ∧ (vmmMapPages v space.pml4Phys virtAddr physAddr pageCount flags).1 = 0 := by
  rw [VmSpace.mapUserPages]
  cases hok : space.mapAccepts virtAddr physAddr pageCount flags with
  | false => simp
  | true =>
      by_cases hret : (vmmMapPages v space.pml4Phys virtAddr physAddr pageCount flags).1 = 0
      · simp [hret]
      · simp [hret]

/-- A map that fails leaves the space as it was; the page tables are not touched, or they are as `vmm_map_pages` leaves them when it fails. -/
theorem mapUserPages_fails {space : VmSpace} {v : Vmm} {virtAddr physAddr pageCount : Nat} {flags : BitVec 64}
    (hfail : (space.mapUserPages v virtAddr physAddr pageCount flags).1 ≠ 0) :
    (space.mapUserPages v virtAddr physAddr pageCount flags).2.1 = space ∧
      ((space.mapUserPages v virtAddr physAddr pageCount flags).2.2 = v ∨
        space.mapAccepts virtAddr physAddr pageCount flags = true ∧ (vmmMapPages v space.pml4Phys virtAddr physAddr pageCount flags).1 ≠ 0 ∧
          (space.mapUserPages v virtAddr physAddr pageCount flags).2.2 = (vmmMapPages v space.pml4Phys virtAddr physAddr pageCount flags).2) := by
  rw [VmSpace.mapUserPages] at hfail ⊢
  cases hok : space.mapAccepts virtAddr physAddr pageCount flags with
  | false => simp
  | true =>
      by_cases hret : (vmmMapPages v space.pml4Phys virtAddr physAddr pageCount flags).1 = 0
      · simp [hok, hret] at hfail
      · simp [hret]

/-! ### The calls that fail -/

/-- Without room for a new attachment the call changes nothing. -/
theorem shmAttach_of_no_room (hroom : ∀ r, ¬s.RoomFor shmId r) : (s.shmAttach shmId).2 = s := by
  rw [shmAttach]
  by_cases hpos : shmId ≤ 0
  · rw [if_pos hpos]
  rw [if_neg hpos]
  cases hregion : shmFindRegion s.shm shmId with
  | none => rfl
  | some r =>
      simp only
      cases hfresh : shmFindAttachment s.shm s.pid shmId with
      | some i => rfl
      | none =>
          have hnone : (s.room r).1 = 0 := by
            by_contra hfound
            exact hroom r ⟨by omega, hregion, hfresh, hfound⟩
          rw [room] at hnone
          simp only [hnone, if_true, reserveShmRange_none s.space hnone]

/-- With room and without a slot it keeps the room. -/
theorem RoomFor.shmAttach_full {r : Nat} (h : s.RoomFor shmId r) (hfull : shmAllocAttachment s.shm = none) :
    s.shmAttach shmId = (0, { s with space := (s.room r).2 }) := by
  have hfound := h.found
  rw [room] at hfound
  simp only [shmAttach, if_neg (not_le.mpr h.pos), h.region, h.fresh, if_neg hfound, hfull]
  rfl

/-- A new attachment in the tables, and the reference that goes with it. -/
def entered (s : ShmCaller) (shmId : Int) (i r : Nat) : Shm :=
  (s.shm.setAttachment i ⟨true, shmId, s.pid, (s.room r).1, (s.shm.regions r).pageCount⟩).setRegion r
    { s.shm.regions r with refCount := wrap32 ((s.shm.regions r).refCount + 1) }

/-- The map of the call. -/
def mapRoom (s : ShmCaller) (r : Nat) : Int × VmSpace × Vmm :=
  (s.room r).2.mapUserPages s.vmm (s.room r).1 (s.shm.regions r).physBase (s.shm.regions r).pageCount mapFlags

theorem mapRoom_zero (r : Nat) : (s.mapRoom r).1 = 0 ↔ s.CanMap r := mapUserPages_zero

theorem RoomFor.shmAttach_slot {r i : Nat} (h : s.RoomFor shmId r) (hslot : shmAllocAttachment s.shm = some i) :
    s.shmAttach shmId =
      let s' := { s with shm := s.entered shmId i r, space := (s.mapRoom r).2.1, vmm := (s.mapRoom r).2.2 }
      if (s.mapRoom r).1 ≠ 0 then (0, s'.attachUndo shmId (s.room r).1)
      else ((s.room r).1, { s' with
        space := s'.space.noteShmAttach (s.shm.regions r).pageCount, shmAttachmentCount := wrap32 (s.shmAttachmentCount + 1) }) := by
  have hfound := h.found
  rw [room] at hfound
  simp only [shmAttach, if_neg (not_le.mpr h.pos), h.region, h.fresh, if_neg hfound, hslot]
  rfl

theorem RoomFor.fails {r : Nat} (h : s.RoomFor shmId r) (hnot : ¬(shmAllocAttachment s.shm ≠ none ∧ s.CanMap r)) :
    (s.shmAttach shmId).1 = 0 := by
  cases hslot : shmAllocAttachment s.shm with
  | none => rw [h.shmAttach_full hslot]
  | some i =>
      have hfail : (s.mapRoom r).1 ≠ 0 := fun hzero => hnot ⟨by simp [hslot], (mapRoom_zero r).mp hzero⟩
      rw [h.shmAttach_slot hslot, if_pos hfail]

/-! ### What the undo gives back -/

theorem shmFindRegion_congr {t t' : Shm} {id : Int} (h : ∀ j, (t'.regions j).inUse = (t.regions j).inUse ∧ (t'.regions j).id = (t.regions j).id) :
    shmFindRegion t' id = shmFindRegion t id := by
  simp only [shmFindRegion, (h _).1, (h _).2]

theorem entered_regions (i r j : Nat) :
    ((s.entered shmId i r).regions j).inUse = (s.shm.regions j).inUse ∧ ((s.entered shmId i r).regions j).id = (s.shm.regions j).id := by
  simp only [entered, Shm.setRegion, Shm.setAttachment, Function.update_apply]
  split
  · next heq =>
      rw [heq]
      exact ⟨rfl, rfl⟩
  · exact ⟨rfl, rfl⟩

variable (hbooks : ShmBooks s.shm) (hcursor : (s.shm.processes s.pid).shmCursor = s.space.shmCursor)
include hbooks hcursor

theorem RoomFor.above {r : Nat} (h : s.RoomFor shmId r) : s.space.shmCursor ≤ (s.room r).1 :=
  (vmSpaceReserveShmRange_spec (hcursor ▸ hbooks.cursor s.pid) h.found).1

/-- The undo finds the new attachment, since no other one is behind the cursor. -/
theorem RoomFor.found_again {r i : Nat} (h : s.RoomFor shmId r) (hslot : shmAllocAttachment s.shm = some i) :
    shmFindAttachmentByAddr (s.entered shmId i r) s.pid (s.room r).1 = some i := by
  have hself : (s.entered shmId i r).attachments i = ⟨true, shmId, s.pid, (s.room r).1, (s.shm.regions r).pageCount⟩ :=
    Function.update_self _ _ _
  cases hfind : shmFindAttachmentByAddr (s.entered shmId i r) s.pid (s.room r).1 with
  | none =>
      have hnone := List.find?_eq_none.mp hfind i (List.mem_range.mpr (shmAllocAttachment_some hslot).1)
      simp [hself] at hnone
  | some j =>
      by_contra hne
      have hji : j ≠ i := fun heq => hne (by rw [heq])
      have hother : (s.entered shmId i r).attachments j = s.shm.attachments j := Function.update_of_ne hji _ _
      obtain ⟨huse, hpid, hvirt⟩ := shmFindAttachmentByAddr_some hfind
      rw [hother] at huse hpid hvirt
      have hbelow := hbooks.below j huse
      have habove := h.above hbooks hcursor
      rw [hpid, hvirt, hcursor] at hbelow
      omega

/-- It puts both tables back, but for the fields of the slot. -/
theorem RoomFor.undone {r i : Nat} (h : s.RoomFor shmId r) (hslot : shmAllocAttachment s.shm = some i) (space : VmSpace) (v : Vmm) :
    attachUndo { s with shm := s.entered shmId i r, space := space, vmm := v } shmId (s.room r).1 =
      { s with
        shm := s.shm.setAttachment i ⟨false, shmId, s.pid, (s.room r).1, (s.shm.regions r).pageCount⟩
        space := space
        vmm := v } := by
  have hself : (s.entered shmId i r).attachments i = ⟨true, shmId, s.pid, (s.room r).1, (s.shm.regions r).pageCount⟩ :=
    Function.update_self _ _ _
  have hwrap : wrap32 ((s.shm.regions r).refCount + 1) = (s.shm.regions r).refCount + 1 := by
    have hle := s.shm.attached_le (s.shm.regions r).id
    rw [← hbooks.refs r (shmFindRegion_some h.region).2.1, shmMaxAttachments] at hle
    exact wrap32_of_lt (by omega)
  have hregion : (s.entered shmId i r).regions r = { s.shm.regions r with refCount := (s.shm.regions r).refCount + 1 } := by
    rw [← hwrap]
    exact Function.update_self _ _ _
  have hfind : shmFindRegion ((s.entered shmId i r).setAttachment i
      { (s.entered shmId i r).attachments i with inUse := false }) shmId = some r :=
    (shmFindRegion_congr fun j => entered_regions i r j).trans h.region
  have hpos : 0 < (((s.entered shmId i r).setAttachment i
      { (s.entered shmId i r).attachments i with inUse := false }).regions r).refCount := by
    change 0 < ((s.entered shmId i r).regions r).refCount
    rw [hregion]
    exact Nat.succ_pos _
  simp only [attachUndo, h.found_again hbooks hcursor hslot, dropRef, hfind, if_pos hpos]
  have hback : Function.update (s.entered shmId i r).regions r
      { (s.entered shmId i r).regions r with refCount := ((s.entered shmId i r).regions r).refCount - 1 } = s.shm.regions := by
    rw [hregion, entered, Shm.setRegion, Function.update_idem]
    exact Function.update_eq_self r s.shm.regions
  have hslot : Function.update (s.entered shmId i r).attachments i { (s.entered shmId i r).attachments i with inUse := false } =
      Function.update s.shm.attachments i ⟨false, shmId, s.pid, (s.room r).1, (s.shm.regions r).pageCount⟩ := by
    rw [hself]
    exact Function.update_idem ..
  simp only [Shm.setRegion, Shm.setAttachment, hback, hslot]
  rfl

end ShmCaller

open ShmCaller

/-- Whatever the way it fails, it changes nothing but the cursor. -/
theorem shm_attach_restores (s : ShmCaller) (shmId : Int) (hbooks : ShmBooks s.shm)
    (hcursor : (s.shm.processes s.pid).shmCursor = s.space.shmCursor) (hpages : ∀ r, (s.shm.regions r).inUse = true → (s.shm.regions r).pageCount < 2 ^ 52)
    (hinv : s.vmm.pmm.Inv) (htree : s.vmm.UserTree s.space.pml4Phys) (hnull : (s.shmAttach shmId).1 = 0) : Restored s (s.shmAttach shmId).2 := by
  by_cases hroom : ∃ r, s.RoomFor shmId r
  · obtain ⟨r, hroom⟩ := hroom
    cases hslot : shmAllocAttachment s.shm with
    | none =>
        rw [hroom.shmAttach_full hslot]
        exact ⟨rfl, fun _ => ⟨rfl, fun _ => rfl⟩, rfl, rfl, fun _ _ _ => rfl⟩
    | some i =>
        have hfail : (s.mapRoom r).1 ≠ 0 := by
          intro hzero
          rw [hroom.shmAttach_slot hslot, if_neg (not_not.mpr hzero)] at hnull
          exact hroom.found hnull
        obtain ⟨hspace, hvmm⟩ := mapUserPages_fails hfail
        rw [hroom.shmAttach_slot hslot, if_pos hfail, hroom.undone hbooks hcursor hslot]
        refine ⟨rfl, fun j => ?_, by rw [mapRoom, hspace]; rfl, rfl, fun page hlt hapart => ?_⟩
        · simp only [Shm.setAttachment, Function.update_apply]
          split
          · next heq =>
              rw [heq, (shmAllocAttachment_some hslot).2]
              exact ⟨rfl, fun huse => absurd huse (by decide)⟩
          · exact ⟨rfl, fun _ => rfl⟩
        · rcases hvmm with hsame | ⟨-, hret, hvmm⟩
          · rw [mapRoom, hsame]
          · have hbase : (s.room r).1 < vmSpaceShmLimit := (reserve_found hroom.found).1
            have hva : (s.room r).1 < 2 ^ 64 := lt_trans hbase (by decide)
            have hkernel : pagingRangeIsKernel (s.room r).1 (wrap64 ((s.shm.regions r).pageCount * pageSize)) = false := by
              rw [Bool.eq_false_iff, ne_eq, pagingRangeIsKernel_iff hva (wrap64_lt _), pagingKernelVaMin]
              rw [vmSpaceShmLimit] at hbase
              omega
            obtain ⟨hstep, hsame⟩ := vmmMapPages_fails hva (hpages r (shmFindRegion_some hroom.region).2.1) hkernel hinv htree hret
            rw [mapRoom, hvmm]
            exact hsame.query_eq hinv htree hstep hlt hapart
  · rw [shmAttach_of_no_room fun r hr => hroom ⟨r, hr⟩]
    exact Restored.refl s

/-- A region of one page, and a process whose part of the address space ends where the window for shared memory begins. -/
def cramped : ShmCaller where
  shm :=
    { regions := fun i => if i = 0 then ⟨1, 2, 0x200000, 4096, 1, 0, false, true⟩ else ShmRegion.zeroed
      attachments := fun _ => ShmAttachment.zeroed
      nextShmId := 2
      processes := fun _ => ⟨0, vmSpaceShmBase, 0, .idle⟩
      pageTables := fun _ _ => none
      returned := [] }
  pid := 1
  space := VmSpace.owned 0x1000 pagingUserVaMin vmSpaceShmBase
  shmAttachmentCount := 0
  vmm := aliasedSpace

theorem cramped_inUse {i : Nat} (h : (cramped.shm.regions i).inUse = true) : i = 0 := by
  by_contra hne
  rw [show cramped.shm.regions i = ShmRegion.zeroed from if_neg hne] at h
  exact absurd h (by decide)

theorem cramped_books : ShmBooks cramped.shm where
  nextId := by decide
  regionSlot i h := by
    rw [cramped_inUse h]
    decide
  ids i h := by
    rw [cramped_inUse h]
    decide
  idUnique i j h h' _ := by rw [cramped_inUse h, cramped_inUse h']
  returnedId _ h := absurd h List.not_mem_nil
  refs i h := by
    rw [cramped_inUse h]
    decide
  slot _ h := absurd h Bool.false_ne_true
  backed _ h := absurd h Bool.false_ne_true
  distinct _ _ h := absurd h Bool.false_ne_true
  cursor _ := show vmSpaceShmBase < 2 ^ 64 by decide
  below _ h := absurd h Bool.false_ne_true

/-- The room found is not the process's own, and the reference is given back. -/
theorem cramped_attach_restores : Restored cramped (cramped.shmAttach 1).2 := by
  have hroom : cramped.RoomFor 1 0 := ⟨by decide, by decide, by decide, by decide⟩
  have hnull : (cramped.shmAttach 1).1 = 0 := hroom.fails fun h => absurd h.2.1 (by decide)
  refine shm_attach_restores cramped 1 cramped_books rfl (fun r h => ?_) aliasedSpace_inv aliasedSpace_userTree hnull
  rw [cramped_inUse h]
  decide

end Tsukasa
