import Tsukasa.Ipc.ShmCalls
import Tsukasa.Mm.PmmRun

/-!
# Regions and their frames

A region in the table holds a lease of the frames its creation was given. What leaves the table is handed back: a step of the tables `Settles` when the leases before it are those after it and those of the regions that it returned.
-/

namespace Tsukasa

open Lib

/-- The frames of a region, under its identifier. -/
def ShmRegion.lease (r : ShmRegion) : Int × Extent := (r.id, ⟨r.physBase, r.pageCount⟩)

/-- The leases of the regions in the table. -/
def Shm.leases (s : Shm) : List (Int × Extent) := (occupied shmMaxRegions ShmRegion.inUse s.regions).map ShmRegion.lease

/-- The tables agree, every region in use has frames, and none has been returned twice. -/
structure ShmLedger (s : Shm) : Prop where
  books : ShmBooks s
  framed : ∀ i, (s.regions i).inUse = true → (s.regions i).physBase ≠ 0 ∧ (s.regions i).pageCount ≠ 0
  once : (s.returned.map ShmRegion.id).Nodup

/-- From `s` to `s'` the regions `gone` have left the table and been returned. -/
structure Returns (s s' : Shm) (gone : List ShmRegion) : Prop where
  returned : s'.returned = s.returned ++ gone
  leases : s.leases.Perm (gone.map ShmRegion.lease ++ s'.leases)
  nextId : s'.nextShmId = s.nextShmId

/-- The tables agree after the step, and what has left them has been returned. -/
def Settles (s s' : Shm) : Prop := ShmLedger s' ∧ ∃ gone, Returns s s' gone

variable {s s' s'' : Shm}

namespace Settles

theorem refl (h : ShmLedger s) : Settles s s := ⟨h, [], by simp, by simp, rfl⟩

theorem trans (h : Settles s s') (h' : Settles s' s'') : Settles s s'' := by
  obtain ⟨-, gone, hreturned, hleases, hnext⟩ := h
  obtain ⟨hledger, gone', hreturned', hleases', hnext'⟩ := h'
  refine ⟨hledger, gone ++ gone', ?_, ?_, hnext'.trans hnext⟩
  · rw [hreturned', hreturned, List.append_assoc]
  · rw [List.map_append, List.append_assoc]
    exact hleases.trans (hleases'.append_left _)

end Settles

/-- A step that keeps the leases and returns nothing. -/
theorem ShmLedger.settles (h : ShmLedger s) (hbooks : ShmBooks s') (hreturned : s'.returned = s.returned)
    (hnext : s'.nextShmId = s.nextShmId) (hregions : ∀ i, (s'.regions i).inUse = (s.regions i).inUse ∧ (s'.regions i).lease = (s.regions i).lease) : Settles s s' := by
  have hleases : s'.leases = s.leases := by
    simp only [Shm.leases, occupied, List.filter_map, List.map_map]
    have hpred : (ShmRegion.inUse ∘ s'.regions) = (ShmRegion.inUse ∘ s.regions) := funext fun i => (hregions i).1
    have hlease : (ShmRegion.lease ∘ s'.regions) = (ShmRegion.lease ∘ s.regions) := funext fun i => (hregions i).2
    rw [hpred, hlease]
  refine ⟨⟨hbooks, fun i hi => ?_, ?_⟩, [], ?_, ?_, hnext⟩
  · obtain ⟨huse, hlease⟩ := hregions i
    rw [huse] at hi
    have hphys : (s'.regions i).physBase = (s.regions i).physBase := congrArg (·.2.phys) hlease
    have hpages : (s'.regions i).pageCount = (s.regions i).pageCount := congrArg (·.2.pages) hlease
    rw [hphys, hpages]
    exact h.framed i hi
  · rw [hreturned]
    exact h.once
  · rw [hreturned, List.append_nil]
  · rw [hleases]
    exact List.Perm.refl _

/-! ### Processes and page tables -/

/-- What the books say of the processes are their cursors. -/
theorem ShmBooks.of_cursors (h : ShmBooks s) (hregions : s'.regions = s.regions) (hatts : s'.attachments = s.attachments)
    (hnext : s'.nextShmId = s.nextShmId) (hreturned : s'.returned = s.returned) (hlt : ∀ pid, (s'.processes pid).shmCursor < 2 ^ 64)
    (hbelow : ∀ i, (s.attachments i).inUse = true → (s.attachments i).virtBase < (s'.processes (s.attachments i).pid).shmCursor) :
    ShmBooks s' := by
  constructor
  case nextId => rw [hnext]; exact h.nextId
  case regionSlot => rw [hregions]; exact h.regionSlot
  case ids => rw [hregions, hnext]; exact h.ids
  case idUnique => rw [hregions]; exact h.idUnique
  case returnedId => rw [hregions, hnext, hreturned]; exact h.returnedId
  case refs =>
    intro i hi
    rw [Shm.attached, hregions, hatts]
    rw [hregions] at hi
    exact h.refs i hi
  case slot => rw [hatts]; exact h.slot
  case backed => rw [hregions, hatts]; exact h.backed
  case distinct => rw [hatts]; exact h.distinct
  case cursor => exact hlt
  case below => rw [hatts]; exact hbelow

/-- A process is rewritten. -/
theorem ShmLedger.setProcess (h : ShmLedger s) {pid : Nat} {p : ShmProcess} (hlt : p.shmCursor < 2 ^ 64)
    (hbelow : ∀ i, (s.attachments i).inUse = true → (s.attachments i).pid = pid → (s.attachments i).virtBase < p.shmCursor) :
    Settles s (s.setProcess pid p) := by
  refine h.settles (h.books.of_cursors rfl rfl rfl rfl (fun q => ?_) fun i hi => ?_) rfl rfl fun _ => ⟨rfl, rfl⟩
  · by_cases heq : q = pid
    · rw [heq, setProcess_self]
      exact hlt
    · rw [setProcess_of_ne heq]
      exact h.books.cursor q
  · by_cases heq : (s.attachments i).pid = pid
    · rw [heq, setProcess_self]
      exact hbelow i hi heq
    · rw [setProcess_of_ne heq]
      exact h.books.below i hi

/-- A process is rewritten and keeps its cursor. -/
theorem ShmLedger.setProcess_same (h : ShmLedger s) {pid : Nat} {p : ShmProcess} (hcursor : p.shmCursor = (s.processes pid).shmCursor) :
    Settles s (s.setProcess pid p) := by
  apply h.setProcess
  · rw [hcursor]
    exact h.books.cursor pid
  · intro i hi hpid
    rw [hcursor, ← hpid]
    exact h.books.below i hi

theorem ShmLedger.setPhase (h : ShmLedger s) (pid : Nat) (phase : ShmPhase) : Settles s (s.setPhase pid phase) := h.setProcess_same rfl

theorem vmSpaceUnmapUserPages_regions (s : Shm) (pid virtAddr pageCount : Nat) (others : Bool) :
    (vmSpaceUnmapUserPages s pid virtAddr pageCount others).regions = s.regions := by
  simp only [vmSpaceUnmapUserPages]
  split
  · rfl
  split
  · rfl
  · rfl

theorem ShmLedger.unmap (h : ShmLedger s) (pid virtAddr pageCount : Nat) (others : Bool) :
    Settles s (vmSpaceUnmapUserPages s pid virtAddr pageCount others) := by
  simp only [vmSpaceUnmapUserPages]
  split
  · exact Settles.refl h
  split
  · exact h.settles (h.books.of_cursors rfl rfl rfl rfl h.books.cursor h.books.below) rfl rfl fun _ => ⟨rfl, rfl⟩
  · exact Settles.refl h

/-! ### Attachments and regions -/

theorem ShmLedger.without (h : ShmLedger s) {i : Nat} (hi : (s.attachments i).inUse = true) : Settles s (s.without i) := by
  obtain ⟨r, -, -, -, heq⟩ := h.books.without_eq hi
  refine h.settles (h.books.without hi) (s.without_frame i).2.2.1 (s.without_frame i).2.2.2 fun j => ?_
  rw [heq]
  by_cases hjr : j = r
  · rw [hjr, setRegion_self]
    exact ⟨rfl, rfl⟩
  · rw [setRegion_of_ne hjr]
    exact ⟨rfl, rfl⟩

/-- A region without attachments that is to be destroyed leaves the table and is returned. -/
theorem ShmLedger.freeRegion (h : ShmLedger s) {i : Nat} (hi : (s.regions i).inUse = true) (hrefs : (s.regions i).refCount = 0) :
    Settles s { s.setRegion i ShmRegion.zeroed with returned := s.returned ++ [s.regions i] } := by
  have hbooks := @ShmBooks.freeRegion s i h.books hi hrefs [s.regions i] (by simp)
  refine ⟨⟨hbooks, fun j hj => ?_, ?_⟩, [s.regions i], rfl, ?_, rfl⟩
  · have hji : j ≠ i := by
      intro heq
      simp [heq, ShmRegion.zeroed] at hj
    simp only [setRegion_of_ne hji] at hj ⊢
    exact h.framed j hj
  · rw [List.map_append, List.nodup_append]
    refine ⟨h.once, by simp, ?_⟩
    intro id hold id' hnew heq
    obtain ⟨r, hr, rfl⟩ := List.mem_map.mp hold
    rw [List.map_singleton, List.mem_singleton] at hnew
    exact (h.books.returnedId r hr).2 i hi (hnew.symm.trans heq.symm)
  · obtain ⟨rest, hbefore, hafter⟩ := @occupied_update _ shmMaxRegions i ShmRegion.inUse s.regions (h.books.regionSlot i hi) ShmRegion.zeroed
    have hempty : [ShmRegion.zeroed].filter ShmRegion.inUse = [] := rfl
    have hself : [s.regions i].filter ShmRegion.inUse = [s.regions i] := by simp [hi]
    rw [hempty, List.nil_append] at hafter
    rw [hself] at hbefore
    have hleases := (hbefore.trans (hafter.symm.append_left [s.regions i])).map ShmRegion.lease
    rw [List.map_append] at hleases
    exact hleases

theorem ShmLedger.reap (h : ShmLedger s) (i : Nat) : Settles s (shmReapRegion s i) := by
  simp only [shmReapRegion]
  split
  · exact Settles.refl h
  rename_i hcond
  simp only [Bool.or_eq_true, Bool.not_eq_true', decide_eq_true_eq, not_or, Bool.not_eq_false, not_not] at hcond
  obtain ⟨⟨huse, -⟩, hrefs⟩ := hcond
  rw [if_pos (h.framed i huse)]
  exact h.freeRegion huse hrefs

/-- Fields that are neither counted nor leased are changed in some regions. -/
theorem ShmLedger.setRegions (h : ShmLedger s) {regions : Nat → ShmRegion}
    (hsame : ∀ j, (regions j).inUse = (s.regions j).inUse ∧ (regions j).lease = (s.regions j).lease ∧
      (regions j).refCount = (s.regions j).refCount) : Settles s { s with regions := regions } := by
  refine h.settles (h.books.setRegions fun j => ?_) rfl rfl fun j => ⟨(hsame j).1, (hsame j).2.1⟩
  have hid : (regions j).id = (s.regions j).id := congrArg Prod.fst (hsame j).2.1
  exact ⟨(hsame j).1, hid, (hsame j).2.2⟩

/-- A new attachment enters the table. -/
theorem ShmLedger.addAttachment (h : ShmLedger s) {i r : Nat} {a : ShmAttachment} (hr : (s.regions r).inUse = true)
    (hlt : i < shmMaxAttachments) (hfree : (s.attachments i).inUse = false) (huse : a.inUse = true) (hid : a.shmId = (s.regions r).id)
    (hnone : ∀ j, (s.attachments j).inUse = true → (s.attachments j).key ≠ a.key)
    (hvirt : ∀ j, (s.attachments j).inUse = true → (s.attachments j).pid = a.pid → (s.attachments j).virtBase ≠ a.virtBase)
    (hbelow : a.virtBase < (s.processes a.pid).shmCursor) :
    Settles s ((s.setAttachment i a).setRegion r { s.regions r with refCount := wrap32 ((s.regions r).refCount + 1) }) := by
  refine h.settles (h.books.addAttachment hr hlt hfree huse hid hnone hvirt hbelow) rfl rfl fun j => ?_
  by_cases hjr : j = r
  · rw [hjr, setRegion_self]
    exact ⟨rfl, rfl⟩
  · rw [setRegion_of_ne hjr]
    exact ⟨rfl, rfl⟩

/-- A creation that finds a free slot adds the lease of the frames it was given. -/
theorem ShmLedger.create (h : ShmLedger s) (hnext : s.nextShmId < 2 ^ 31 - 1) {pid size phys : Nat} (hsize : size ≠ 0)
    (hcount : wrap64 (size + 4095) / 4096 ≠ 0) (hphys : phys ≠ 0) (hroom : shmAllocRegion s ≠ none) {s' : Shm}
    (hs' : s' = shmCreate s pid size phys) :
    ShmLedger s' ∧ s'.returned = s.returned ∧ s'.nextShmId = s.nextShmId + 1 ∧ s'.processes = s.processes ∧
      s'.attachments = s.attachments ∧ (∀ j, s'.regions j = s.regions j ∨ (s'.regions j).destroyPending = false) ∧
      s'.leases.Perm ((s.nextShmId, ⟨phys, wrap64 (size + 4095) / 4096⟩) :: s.leases) := by
  have hbooks := h.books.create hnext pid size phys
  rcases shmCreate_cases h.books.nextId hnext pid size phys with ⟨-, hempty⟩ | ⟨i, hslot, hpages, heq⟩
  · simp only [hsize, hcount, hphys, hroom, or_self] at hempty
  obtain ⟨hlt, hfree⟩ := shmAllocRegion_some hslot
  rw [hs', heq]
  rw [heq] at hbooks
  refine ⟨⟨hbooks, fun j hj => ?_, h.once⟩, rfl, rfl, rfl, rfl, fun j => ?_, ?_⟩
  · by_cases hji : j = i
    · simp only [hji, Function.update_self]
      exact ⟨hphys, hpages⟩
    · simp only [Function.update_of_ne hji] at hj ⊢
      exact h.framed j hj
  · by_cases hji : j = i
    · rw [hji]
      exact Or.inr (congrArg ShmRegion.destroyPending (Function.update_self i _ s.regions))
    · exact Or.inl (Function.update_of_ne hji _ _)
  · generalize hr : (⟨s.nextShmId, pid, phys, wrap64 (wrap64 (size + 4095) / 4096 * 4096), wrap64 (size + 4095) / 4096, 0, false, true⟩ :
      ShmRegion) = r
    obtain ⟨rest, hbefore, hafter⟩ := @occupied_update _ shmMaxRegions i ShmRegion.inUse s.regions hlt r
    have hempty : [s.regions i].filter ShmRegion.inUse = [] := by simp [hfree]
    have hself : [r].filter ShmRegion.inUse = [r] := by
      rw [← hr]
      rfl
    have hlease : r.lease = (s.nextShmId, ⟨phys, wrap64 (size + 4095) / 4096⟩) := by
      rw [← hr]
      rfl
    rw [hempty, List.nil_append] at hbefore
    rw [hself] at hafter
    have hleases := (hafter.trans (hbefore.symm.append_left [r])).map ShmRegion.lease
    rw [List.map_append, List.map_singleton, hlease] at hleases
    exact hleases

/-! ### Frames -/

/-- The frames of returned regions go back to the page allocator, one region after the other. -/
def freeRegions (pmm : Pmm) (gone : List ShmRegion) : Pmm := gone.foldl (fun pmm r => pmmFreePages pmm r.physBase r.pageCount) pmm

/-- What the returned regions held is free afterwards, and nothing else is. -/
theorem freeRegions_inv {pmm : Pmm} {gone : List ShmRegion} {live : List Extent}
    (h : TrackedPmm.Inv ⟨pmm, gone.map (fun r => r.lease.2) ++ live⟩) :
    TrackedPmm.Inv ⟨freeRegions pmm gone, live⟩ ∧
      ∀ frame, bitmapGet (freeRegions pmm gone).bitmap frame = true ↔
        bitmapGet pmm.bitmap frame = true ∨ ∃ r ∈ gone, r.lease.2.Holds frame := by
  induction gone generalizing pmm with
  | nil => exact ⟨h, by simp [freeRegions]⟩
  | cons r gone ih =>
      have hmem : r.lease.2 ∈ (r :: gone).map (fun r => r.lease.2) ++ live := by simp
      have hfree := h.free hmem
      have hback := h.backed r.lease.2 hmem
      have hpmm : pmmFreePages pmm r.physBase r.pageCount = pmm.giveBack r.lease.2.first r.lease.2.pages := by
        have hphys : r.physBase = r.lease.2.first * pageSize := hback.phys_eq
        have heq := pmmFreePages_of_taken hback.pos hback.pages hback.tracked hback.taken_offset
        rw [hphys]
        exact heq
      have hrest : TrackedPmm.Inv ⟨pmmFreePages pmm r.physBase r.pageCount, gone.map (fun r => r.lease.2) ++ live⟩ := by
        simpa [TrackedPmm.step, ShmRegion.lease] using hfree
      obtain ⟨hinv, hframes⟩ := ih hrest
      refine ⟨hinv, fun frame => ?_⟩
      rw [freeRegions, List.foldl_cons, ← freeRegions, hframes, hpmm, Pmm.bitmapGet_giveBack]
      simp only [List.mem_cons, exists_eq_or_imp]
      have hholds : r.lease.2.Holds frame ↔ r.lease.2.first ≤ frame ∧ frame < r.lease.2.first + r.lease.2.pages := Iff.rfl
      rw [hholds]
      split
      · rename_i hin
        simp [hin]
      · rename_i hout
        simp [hout]

end Tsukasa
