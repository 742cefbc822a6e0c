import Tsukasa.Ipc.Shm
import Tsukasa.Lib.Tally

/-!
# The tables of regions and attachments

What the two tables of `ipc/shm.c` keep between them, whatever the page tables hold: the reference count of a region counts its attachments, an attachment belongs to a region, and a process has one attachment to a region and one at an address.
-/

namespace Tsukasa

open Lib

def ShmAttachment.key (a : ShmAttachment) : Nat × Int := (a.pid, a.shmId)

/-- The number of attachments to a region. -/
def Shm.attached (s : Shm) (id : Int) : Nat :=
  tally (Finset.range shmMaxAttachments) (fun a : ShmAttachment => a.inUse = true ∧ a.shmId = id) s.attachments

structure ShmBooks (s : Shm) : Prop where
  nextId : 1 ≤ s.nextShmId
  regionSlot : ∀ i, (s.regions i).inUse = true → i < shmMaxRegions
  ids : ∀ i, (s.regions i).inUse = true → 1 ≤ (s.regions i).id ∧ (s.regions i).id < s.nextShmId
  idUnique : ∀ i j, (s.regions i).inUse = true → (s.regions j).inUse = true → (s.regions i).id = (s.regions j).id → i = j
  returnedId : ∀ r ∈ s.returned, r.id < s.nextShmId ∧ ∀ i, (s.regions i).inUse = true → (s.regions i).id ≠ r.id
  refs : ∀ i, (s.regions i).inUse = true → (s.regions i).refCount = s.attached (s.regions i).id
  slot : ∀ i, (s.attachments i).inUse = true → i < shmMaxAttachments
  backed : ∀ i, (s.attachments i).inUse = true → ∃ r, (s.regions r).inUse = true ∧ (s.regions r).id = (s.attachments i).shmId
  distinct : ∀ i j, (s.attachments i).inUse = true → (s.attachments j).inUse = true → i ≠ j →
    (s.attachments i).pid = (s.attachments j).pid →
      (s.attachments i).shmId ≠ (s.attachments j).shmId ∧ (s.attachments i).virtBase ≠ (s.attachments j).virtBase
  cursor : ∀ pid, (s.processes pid).shmCursor < 2 ^ 64
  below : ∀ i, (s.attachments i).inUse = true → (s.attachments i).virtBase < (s.processes (s.attachments i).pid).shmCursor

/-! ### The lookups -/

theorem shmFindRegion_some {s : Shm} {id : Int} {i : Nat} (h : shmFindRegion s id = some i) :
    i < shmMaxRegions ∧ (s.regions i).inUse = true ∧ (s.regions i).id = id := by
  have hfound := List.find?_some h
  simp only [Bool.and_eq_true, decide_eq_true_eq] at hfound
  exact ⟨List.mem_range.mp (List.mem_of_find?_eq_some h), hfound⟩

theorem shmFindAttachment_none {s : Shm} {pid : Nat} {shmId : Int} (h : shmFindAttachment s pid shmId = none) {i : Nat}
    (hi : i < shmMaxAttachments) (huse : (s.attachments i).inUse = true) : (s.attachments i).key ≠ (pid, shmId) := by
  have hnone := List.find?_eq_none.mp h i (List.mem_range.mpr hi)
  simp only [huse, Bool.true_and, Bool.and_eq_true, decide_eq_true_eq, not_and] at hnone
  intro heq
  exact hnone (congrArg Prod.fst heq) (congrArg Prod.snd heq)

theorem shmFindAttachmentByAddr_some {s : Shm} {pid virtAddr i : Nat} (h : shmFindAttachmentByAddr s pid virtAddr = some i) :
    (s.attachments i).inUse = true ∧ (s.attachments i).pid = pid ∧ (s.attachments i).virtBase = virtAddr := by
  have hfound := List.find?_some h
  simp only [Bool.and_eq_true, decide_eq_true_eq, and_assoc] at hfound
  exact hfound

theorem shmAllocAttachment_some {s : Shm} {i : Nat} (h : shmAllocAttachment s = some i) :
    i < shmMaxAttachments ∧ (s.attachments i).inUse = false := by
  have hfound := List.find?_some h
  exact ⟨List.mem_range.mp (List.mem_of_find?_eq_some h), by simpa using hfound⟩

theorem shmAllocRegion_some {s : Shm} {i : Nat} (h : shmAllocRegion s = some i) :
    i < shmMaxRegions ∧ (s.regions i).inUse = false := by
  have hfound := List.find?_some h
  exact ⟨List.mem_range.mp (List.mem_of_find?_eq_some h), by simpa using hfound⟩

section Lookups

variable {s : Shm}

theorem ShmBooks.find_eq (h : ShmBooks s) {r : Nat} (hr : (s.regions r).inUse = true) :
    shmFindRegion s (s.regions r).id = some r := by
  cases hfind : shmFindRegion s (s.regions r).id with
  | none =>
      have hnone := List.find?_eq_none.mp hfind r (List.mem_range.mpr (h.regionSlot r hr))
      simp [hr] at hnone
  | some i =>
      obtain ⟨-, huse, hid⟩ := shmFindRegion_some hfind
      rw [h.idUnique i r huse hr hid]

/-- A process finds its own attachment at its address. -/
theorem ShmBooks.findByAddr_eq (h : ShmBooks s) {i : Nat} (hi : (s.attachments i).inUse = true) :
    shmFindAttachmentByAddr s (s.attachments i).pid (s.attachments i).virtBase = some i := by
  cases hfind : shmFindAttachmentByAddr s (s.attachments i).pid (s.attachments i).virtBase with
  | none =>
      have hnone := List.find?_eq_none.mp hfind i (List.mem_range.mpr (h.slot i hi))
      simp [hi] at hnone
  | some j =>
      obtain ⟨huse, hpid, hvirt⟩ := shmFindAttachmentByAddr_some hfind
      by_contra hne
      have hji : j ≠ i := fun heq => hne (by rw [heq])
      exact (h.distinct j i huse hi hji hpid).2 hvirt

theorem ShmBooks.attached_pos (h : ShmBooks s) {i : Nat} (hi : (s.attachments i).inUse = true) :
    0 < s.attached (s.attachments i).shmId :=
  tally_pos_iff.mpr ⟨i, Finset.mem_range.mpr (h.slot i hi), hi, rfl⟩

end Lookups

/-! ### An attachment leaves the table -/

section Remove

variable {s : Shm} {i : Nat}

/-- The state without an attachment, and with one reference less to its region. -/
def Shm.without (s : Shm) (i : Nat) : Shm :=
  dropRef (s.setAttachment i { s.attachments i with inUse := false }) (s.attachments i).shmId

theorem ShmBooks.without_eq (h : ShmBooks s) (hi : (s.attachments i).inUse = true) :
    ∃ r, (s.regions r).inUse = true ∧ (s.regions r).id = (s.attachments i).shmId ∧ 0 < (s.regions r).refCount ∧
      s.without i = (s.setAttachment i { s.attachments i with inUse := false }).setRegion r
        { s.regions r with refCount := (s.regions r).refCount - 1 } := by
  obtain ⟨r, hr, hid⟩ := h.backed i hi
  have hpos : 0 < (s.regions r).refCount := by
    rw [h.refs r hr, hid]
    exact h.attached_pos hi
  have hfind : shmFindRegion (s.setAttachment i { s.attachments i with inUse := false }) (s.attachments i).shmId = some r := by
    rw [← hid]
    exact h.find_eq hr
  refine ⟨r, hr, hid, hpos, ?_⟩
  simp only [Shm.without, dropRef, hfind]
  exact if_pos hpos

/-- Taking a reference back changes no table but the one of the regions. -/
theorem dropRef_frame (s : Shm) (shmId : Int) :
    (dropRef s shmId).attachments = s.attachments ∧ (dropRef s shmId).processes = s.processes ∧ (dropRef s shmId).pageTables = s.pageTables ∧
      (dropRef s shmId).returned = s.returned ∧ (dropRef s shmId).nextShmId = s.nextShmId := by
  rw [dropRef]
  split
  · exact ⟨rfl, rfl, rfl, rfl, rfl⟩
  · split <;> exact ⟨rfl, rfl, rfl, rfl, rfl⟩

theorem Shm.without_attachments (s : Shm) (i : Nat) :
    (s.without i).attachments = Function.update s.attachments i { s.attachments i with inUse := false } := by
  rw [Shm.without, (dropRef_frame _ _).1]
  rfl

theorem Shm.without_attachments_of_ne (s : Shm) {i j : Nat} (hji : j ≠ i) : (s.without i).attachments j = s.attachments j := by
  rw [s.without_attachments, Function.update_of_ne hji]

/-- Nothing else changes. -/
theorem Shm.without_frame (s : Shm) (i : Nat) :
    (s.without i).processes = s.processes ∧ (s.without i).pageTables = s.pageTables ∧ (s.without i).returned = s.returned ∧
      (s.without i).nextShmId = s.nextShmId := (dropRef_frame _ _).2

theorem ShmBooks.without_regions (h : ShmBooks s) (hi : (s.attachments i).inUse = true) (j : Nat) :
    ((s.without i).regions j).inUse = (s.regions j).inUse ∧ ((s.without i).regions j).id = (s.regions j).id := by
  obtain ⟨r, -, -, -, heq⟩ := h.without_eq hi
  rw [heq]
  simp only [Shm.setRegion, Shm.setAttachment, Function.update_apply]
  split
  · rename_i hjr
    rw [hjr]
    exact ⟨rfl, rfl⟩
  · exact ⟨rfl, rfl⟩

theorem Shm.without_inUse (s : Shm) {j : Nat} (hj : ((s.without i).attachments j).inUse = true) :
    j ≠ i ∧ (s.without i).attachments j = s.attachments j := by
  rw [s.without_attachments i] at hj ⊢
  have hne : j ≠ i := by
    rintro rfl
    simp at hj
  exact ⟨hne, Function.update_of_ne hne _ _⟩

theorem ShmBooks.attached_without (h : ShmBooks s) (hi : (s.attachments i).inUse = true) (id : Int) :
    (s.without i).attached id + (if (s.attachments i).shmId = id then 1 else 0) = s.attached id := by
  have hupdate := tally_update (P := fun a : ShmAttachment => a.inUse = true ∧ a.shmId = id) (g := s.attachments)
    (Finset.mem_range.mpr (h.slot i hi)) { s.attachments i with inUse := false }
  simpa [Shm.attached, s.without_attachments i, hi] using hupdate

theorem ShmBooks.without_refs (h : ShmBooks s) (hi : (s.attachments i).inUse = true) {j : Nat}
    (hj : (s.regions j).inUse = true) : ((s.without i).regions j).refCount = (s.without i).attached (s.regions j).id := by
  obtain ⟨r, hr, hid, hpos, heq⟩ := h.without_eq hi
  have hattached := h.attached_without hi (s.regions j).id
  rw [heq]
  simp only [Shm.setRegion, Shm.setAttachment, Function.update_apply]
  rw [heq] at hattached
  simp only [Shm.attached, Shm.setRegion, Shm.setAttachment] at hattached ⊢
  split
  · rename_i hjr
    subst hjr
    have hrefs := h.refs j hj
    rw [if_pos hid.symm] at hattached
    simp only [Shm.attached] at hrefs
    change (s.regions j).refCount - 1 = _
    omega
  · rename_i hjr
    have hother : (s.attachments i).shmId ≠ (s.regions j).id := fun heq => hjr (h.idUnique j r hj hr (heq.symm.trans hid.symm))
    rw [if_neg hother] at hattached
    have hrefs := h.refs j hj
    simp only [Shm.attached] at hrefs
    omega

theorem ShmBooks.without (h : ShmBooks s) (hi : (s.attachments i).inUse = true) : ShmBooks (s.without i) := by
  obtain ⟨hproc, -, hreturned, hnext⟩ := s.without_frame i
  have hregion := h.without_regions hi
  have huse := fun {j} => s.without_inUse (i := i) (j := j)
  constructor
  case nextId => exact hnext ▸ h.nextId
  case regionSlot =>
    intro j hj
    exact h.regionSlot j ((hregion j).1 ▸ hj)
  case ids =>
    intro j hj
    rw [(hregion j).2, hnext]
    exact h.ids j ((hregion j).1 ▸ hj)
  case idUnique =>
    intro j k hj hk heq
    rw [(hregion j).2, (hregion k).2] at heq
    exact h.idUnique j k ((hregion j).1 ▸ hj) ((hregion k).1 ▸ hk) heq
  case returnedId =>
    intro r hr
    rw [hreturned] at hr
    obtain ⟨hlt, hfresh⟩ := h.returnedId r hr
    refine ⟨hnext ▸ hlt, fun j hj => ?_⟩
    rw [(hregion j).2]
    exact hfresh j ((hregion j).1 ▸ hj)
  case refs =>
    intro j hj
    rw [(hregion j).2]
    exact h.without_refs hi ((hregion j).1 ▸ hj)
  case slot =>
    intro j hj
    obtain ⟨-, heq⟩ := huse hj
    exact h.slot j (heq ▸ hj)
  case backed =>
    intro j hj
    obtain ⟨-, heq⟩ := huse hj
    rw [heq] at hj ⊢
    obtain ⟨r, hr, hid⟩ := h.backed j hj
    exact ⟨r, (hregion r).1 ▸ hr, (hregion r).2 ▸ hid⟩
  case distinct =>
    intro j k hj hk hne hpid
    obtain ⟨-, hjeq⟩ := huse hj
    obtain ⟨-, hkeq⟩ := huse hk
    rw [hjeq] at hj hpid ⊢
    rw [hkeq] at hk hpid ⊢
    exact h.distinct j k hj hk hne hpid
  case cursor => exact hproc ▸ h.cursor
  case below =>
    intro j hj
    obtain ⟨-, heq⟩ := huse hj
    rw [heq] at hj ⊢
    rw [hproc]
    exact h.below j hj

end Remove

/-! ### Regions come and go -/

section Regions

variable {s : Shm} {i : Nat}

/-- Fields of a region that nothing depends on are changed. -/
theorem ShmBooks.setRegions (h : ShmBooks s) {regions : Nat → ShmRegion}
    (hsame : ∀ j, (regions j).inUse = (s.regions j).inUse ∧ (regions j).id = (s.regions j).id ∧
      (regions j).refCount = (s.regions j).refCount) : ShmBooks { s with regions := regions } := by
  constructor
  case nextId => exact h.nextId
  case regionSlot =>
    intro j hj
    exact h.regionSlot j ((hsame j).1 ▸ hj)
  case ids =>
    intro j hj
    simp only [(hsame j).2.1]
    exact h.ids j ((hsame j).1 ▸ hj)
  case idUnique =>
    intro j k hj hk heq
    simp only [(hsame j).2.1, (hsame k).2.1] at heq
    exact h.idUnique j k ((hsame j).1 ▸ hj) ((hsame k).1 ▸ hk) heq
  case returnedId =>
    intro r hr
    obtain ⟨hlt, hfresh⟩ := h.returnedId r hr
    refine ⟨hlt, fun j hj => ?_⟩
    simp only [(hsame j).2.1]
    exact hfresh j ((hsame j).1 ▸ hj)
  case refs =>
    intro j hj
    simp only [(hsame j).2.1, (hsame j).2.2]
    exact h.refs j ((hsame j).1 ▸ hj)
  case backed =>
    intro j hj
    obtain ⟨r, hr, hid⟩ := h.backed j hj
    exact ⟨r, (hsame r).1 ▸ hr, (hsame r).2.1 ▸ hid⟩
  case slot => exact h.slot
  case distinct => exact h.distinct
  case cursor => exact h.cursor
  case below => exact h.below

theorem setRegion_of_ne {j : Nat} (hj : j ≠ i) (r : ShmRegion) : (s.setRegion i r).regions j = s.regions j :=
  Function.update_of_ne hj _ _

@[simp] theorem setRegion_self (s : Shm) (i : Nat) (r : ShmRegion) : (s.setRegion i r).regions i = r := Function.update_self _ _ _

/-- A region with no attachment is taken out of the table; `gone` is what is then returned. -/
theorem ShmBooks.freeRegion (h : ShmBooks s) (hi : (s.regions i).inUse = true) (hrefs : (s.regions i).refCount = 0)
    {gone : List ShmRegion} (hgone : ∀ r ∈ gone, r = s.regions i) :
    ShmBooks { s.setRegion i ShmRegion.zeroed with returned := s.returned ++ gone } := by
  have huse : ∀ j, ((s.setRegion i ShmRegion.zeroed).regions j).inUse = true →
      j ≠ i ∧ (s.setRegion i ShmRegion.zeroed).regions j = s.regions j := by
    intro j hj
    have hji : j ≠ i := by
      rintro rfl
      simp [ShmRegion.zeroed] at hj
    exact ⟨hji, setRegion_of_ne hji _⟩
  have hattached : ∀ j, (s.attachments j).inUse = true → (s.attachments j).shmId ≠ (s.regions i).id := by
    intro j hj heq
    have hpos := h.attached_pos hj
    rw [heq, ← h.refs i hi, hrefs] at hpos
    exact Nat.lt_irrefl 0 hpos
  constructor
  case nextId => exact h.nextId
  case regionSlot =>
    intro j hj
    obtain ⟨-, heq⟩ := huse j hj
    exact h.regionSlot j (heq ▸ hj)
  case ids =>
    intro j hj
    obtain ⟨-, heq⟩ := huse j hj
    simp only [heq] at hj ⊢
    exact h.ids j hj
  case idUnique =>
    intro j k hj hk heq
    obtain ⟨-, hjeq⟩ := huse j hj
    obtain ⟨-, hkeq⟩ := huse k hk
    simp only [hjeq, hkeq] at hj hk heq
    exact h.idUnique j k hj hk heq
  case returnedId =>
    intro r hr
    rcases List.mem_append.mp hr with hold | hnew
    · obtain ⟨hlt, hfresh⟩ := h.returnedId r hold
      refine ⟨hlt, fun j hj => ?_⟩
      obtain ⟨-, heq⟩ := huse j hj
      simp only [heq] at hj ⊢
      exact hfresh j hj
    · rw [hgone r hnew]
      refine ⟨(h.ids i hi).2, fun j hj => ?_⟩
      obtain ⟨hji, heq⟩ := huse j hj
      simp only [heq] at hj ⊢
      exact fun hid => hji (h.idUnique j i hj hi hid)
  case refs =>
    intro j hj
    obtain ⟨-, heq⟩ := huse j hj
    simp only [heq] at hj ⊢
    exact h.refs j hj
  case slot => exact h.slot
  case backed =>
    intro j hj
    obtain ⟨r, hr, hid⟩ := h.backed j hj
    have hri : r ≠ i := fun heq => hattached j hj (heq ▸ hid.symm)
    have hsame : (s.setRegion i ShmRegion.zeroed).regions r = s.regions r := setRegion_of_ne hri _
    exact ⟨r, hsame ▸ hr, hsame ▸ hid⟩
  case distinct => exact h.distinct
  case cursor => exact h.cursor
  case below => exact h.below

/-- A creation enters a region with the next identifier in a free slot, or does nothing. -/
theorem shmCreate_cases (hpos : 1 ≤ s.nextShmId) (hnext : s.nextShmId < 2 ^ 31 - 1) (pid size phys : Nat) :
    shmCreate s pid size phys = s ∧ (size = 0 ∨ wrap64 (size + 4095) / 4096 = 0 ∨ phys = 0 ∨ shmAllocRegion s = none) ∨
      ∃ i, shmAllocRegion s = some i ∧ wrap64 (size + 4095) / 4096 ≠ 0 ∧
        shmCreate s pid size phys = { s with
          nextShmId := s.nextShmId + 1
          regions := Function.update s.regions i ⟨s.nextShmId, pid, phys, wrap64 (wrap64 (size + 4095) / 4096 * 4096),
            wrap64 (size + 4095) / 4096, 0, false, true⟩ } := by
  simp only [shmCreate]
  split
  · rename_i hzero
    exact Or.inl ⟨rfl, Or.inl hzero⟩
  split
  · rename_i hempty
    exact Or.inl ⟨rfl, Or.inr (hempty.imp_right Or.inl)⟩
  rename_i hsize
  split
  · rename_i hfull
    exact Or.inl ⟨rfl, Or.inr (Or.inr (Or.inr hfull))⟩
  rename_i i hslot
  rw [if_neg (by omega), if_neg (by omega)]
  exact Or.inr ⟨i, hslot, (not_or.mp hsize).1, rfl⟩

theorem ShmBooks.create (h : ShmBooks s) (hnext : s.nextShmId < 2 ^ 31 - 1) (pid size phys : Nat) :
    ShmBooks (shmCreate s pid size phys) := by
  rcases shmCreate_cases h.nextId hnext pid size phys with ⟨heq, -⟩ | ⟨i, hslot, -, heq⟩
  · rw [heq]
    exact h
  rw [heq]
  obtain ⟨hlt, hfree⟩ := shmAllocRegion_some hslot
  have hpos := h.nextId
  generalize wrap64 (size + 4095) / 4096 = pageCount
  have hnone : s.attached s.nextShmId = 0 := by
    refine tally_eq_zero fun j _ hj => ?_
    obtain ⟨r, hr, hid⟩ := h.backed j hj.1
    have := (h.ids r hr).2
    rw [hid, hj.2] at this
    exact lt_irrefl _ this
  generalize hr : (⟨s.nextShmId, pid, phys, wrap64 (pageCount * 4096), pageCount, 0, false, true⟩ : ShmRegion) = r
  have hid : r.id = s.nextShmId := hr ▸ rfl
  have hrefs : r.refCount = 0 := hr ▸ rfl
  have hcases : ∀ j, (Function.update s.regions i r j).inUse = true →
      j = i ∧ Function.update s.regions i r j = r ∨
        j ≠ i ∧ (s.regions j).inUse = true ∧ Function.update s.regions i r j = s.regions j := by
    intro j hj
    by_cases hji : j = i
    · exact Or.inl ⟨hji, by rw [hji, Function.update_self]⟩
    · have hsame : Function.update s.regions i r j = s.regions j := Function.update_of_ne hji _ _
      exact Or.inr ⟨hji, hsame ▸ hj, hsame⟩
  constructor
  case nextId =>
    change 1 ≤ s.nextShmId + 1
    omega
  case regionSlot =>
    intro j hj
    rcases hcases j hj with ⟨hji, -⟩ | ⟨-, huse, -⟩
    · omega
    · exact h.regionSlot j huse
  case ids =>
    intro j hj
    rcases hcases j hj with ⟨-, heq⟩ | ⟨-, huse, heq⟩
    · simp only [heq, hid]
      omega
    · simp only [heq]
      have := h.ids j huse
      omega
  case idUnique =>
    intro j k hj hk heq
    rcases hcases j hj with ⟨hji, hjeq⟩ | ⟨-, hjuse, hjeq⟩
    · rcases hcases k hk with ⟨hki, -⟩ | ⟨-, hkuse, hkeq⟩
      · rw [hji, hki]
      · simp only [hjeq, hkeq, hid] at heq
        exact absurd heq (ne_of_gt (h.ids k hkuse).2)
    · rcases hcases k hk with ⟨-, hkeq⟩ | ⟨-, hkuse, hkeq⟩
      · simp only [hjeq, hkeq, hid] at heq
        exact absurd heq (ne_of_lt (h.ids j hjuse).2)
      · simp only [hjeq, hkeq] at heq
        exact h.idUnique j k hjuse hkuse heq
  case returnedId =>
    intro q hq
    obtain ⟨hlt, hfresh⟩ := h.returnedId q hq
    refine ⟨by simp only; omega, fun j hj => ?_⟩
    rcases hcases j hj with ⟨-, heq⟩ | ⟨-, huse, heq⟩
    · simp only [heq, hid]
      omega
    · simp only [heq]
      exact hfresh j huse
  case refs =>
    intro j hj
    rcases hcases j hj with ⟨-, heq⟩ | ⟨-, huse, heq⟩
    · simp only [heq, hid, hrefs]
      exact hnone.symm
    · simp only [heq]
      exact h.refs j huse
  case slot => exact h.slot
  case backed =>
    intro j hj
    obtain ⟨q, hq, hqid⟩ := h.backed j hj
    have hqi : q ≠ i := by
      rintro rfl
      rw [hfree] at hq
      cases hq
    exact ⟨q, by simpa only [Function.update_of_ne hqi], by simpa only [Function.update_of_ne hqi]⟩
  case distinct => exact h.distinct
  case cursor => exact h.cursor
  case below => exact h.below

end Regions

/-! ### An attach -/

section Attach

variable {s : Shm}

theorem vmSpaceReserveShmRange_spec {cursor pageCount : Nat} (hcursor : cursor < 2 ^ 64)
    (h : (vmSpaceReserveShmRange cursor pageCount).1 ≠ 0) :
    cursor ≤ (vmSpaceReserveShmRange cursor pageCount).1 ∧
      (vmSpaceReserveShmRange cursor pageCount).1 < (vmSpaceReserveShmRange cursor pageCount).2 ∧
      (vmSpaceReserveShmRange cursor pageCount).2 < 2 ^ 64 := by
  simp only [vmSpaceReserveShmRange] at h ⊢
  split at h
  · exact absurd rfl h
  rename_i hcount
  split at h
  · exact absurd rfl h
  rename_i hspan
  split at h
  · exact absurd rfl h
  rename_i hnext
  split at h
  · exact absurd rfl h
  rename_i hwindow
  rw [if_neg hcount, if_neg hspan, if_neg hnext, if_neg hwindow]
  have hspanLt := wrap64_lt (pageCount * 4096)
  generalize wrap64 (pageCount * 4096) = span at *
  simp only [alignUpPage, vmSpaceShmBase, vmSpaceShmLimit, wrap64, not_or, not_lt] at *
  omega

theorem Shm.attached_le (s : Shm) (id : Int) : s.attached id ≤ shmMaxAttachments := by
  have hcard := Finset.card_filter_le (Finset.range shmMaxAttachments)
    (fun k => (s.attachments k).inUse = true ∧ (s.attachments k).shmId = id)
  rwa [Finset.card_range] at hcard

/-- A new attachment enters the table. -/
theorem ShmBooks.addAttachment (h : ShmBooks s) {i r : Nat} {a : ShmAttachment} (hr : (s.regions r).inUse = true)
    (hlt : i < shmMaxAttachments) (hfree : (s.attachments i).inUse = false) (huse : a.inUse = true) (hid : a.shmId = (s.regions r).id)
    (hnone : ∀ j, (s.attachments j).inUse = true → (s.attachments j).key ≠ a.key)
    (hvirt : ∀ j, (s.attachments j).inUse = true → (s.attachments j).pid = a.pid → (s.attachments j).virtBase ≠ a.virtBase)
    (hbelow : a.virtBase < (s.processes a.pid).shmCursor) :
    ShmBooks ((s.setAttachment i a).setRegion r { s.regions r with refCount := wrap32 ((s.regions r).refCount + 1) }) := by
  have hcount : ∀ id, (s.setAttachment i a).attached id = s.attached id + if a.shmId = id then 1 else 0 := by
    intro id
    have hupdate := tally_update (P := fun a : ShmAttachment => a.inUse = true ∧ a.shmId = id) (g := s.attachments)
      (Finset.mem_range.mpr hlt) a
    simpa [Shm.attached, Shm.setAttachment, hfree, huse] using hupdate
  have hcases : ∀ j, (Function.update s.attachments i a j).inUse = true →
      j = i ∧ Function.update s.attachments i a j = a ∨
        j ≠ i ∧ (s.attachments j).inUse = true ∧ Function.update s.attachments i a j = s.attachments j := by
    intro j hj
    by_cases hji : j = i
    · exact Or.inl ⟨hji, by rw [hji, Function.update_self]⟩
    · have hsame : Function.update s.attachments i a j = s.attachments j := Function.update_of_ne hji _ _
      exact Or.inr ⟨hji, hsame ▸ hj, hsame⟩
  have hregion : ∀ j, (Function.update s.regions r { s.regions r with refCount := wrap32 ((s.regions r).refCount + 1) } j).inUse =
      (s.regions j).inUse ∧ (Function.update s.regions r { s.regions r with refCount := wrap32 ((s.regions r).refCount + 1) } j).id =
      (s.regions j).id := by
    intro j
    by_cases hjr : j = r
    · rw [hjr, Function.update_self]
      exact ⟨rfl, rfl⟩
    · rw [Function.update_of_ne hjr]
      exact ⟨rfl, rfl⟩
  constructor
  case nextId => exact h.nextId
  case regionSlot =>
    intro j hj
    exact h.regionSlot j ((hregion j).1 ▸ hj)
  case ids =>
    intro j hj
    simp only [Shm.setRegion, Shm.setAttachment, (hregion j).2]
    exact h.ids j ((hregion j).1 ▸ hj)
  case idUnique =>
    intro j k hj hk heq
    simp only [Shm.setRegion, Shm.setAttachment, (hregion j).2, (hregion k).2] at heq
    exact h.idUnique j k ((hregion j).1 ▸ hj) ((hregion k).1 ▸ hk) heq
  case returnedId =>
    intro q hq
    obtain ⟨hqlt, hfresh⟩ := h.returnedId q hq
    refine ⟨hqlt, fun j hj => ?_⟩
    simp only [Shm.setRegion, Shm.setAttachment, (hregion j).2]
    exact hfresh j ((hregion j).1 ▸ hj)
  case refs =>
    intro j hj
    have hj' : (s.regions j).inUse = true := (hregion j).1 ▸ hj
    change (Function.update s.regions r _ j).refCount = (s.setAttachment i a).attached (Function.update s.regions r _ j).id
    rw [(hregion j).2, hcount, ← h.refs j hj']
    by_cases hjr : j = r
    · have hle := s.attached_le (s.regions j).id
      rw [← h.refs j hj', shmMaxAttachments] at hle
      rw [hjr] at hle ⊢
      rw [Function.update_self, hid, if_pos rfl]
      exact wrap32_of_lt (by omega)
    · rw [Function.update_of_ne hjr, if_neg, Nat.add_zero]
      exact fun heq => hjr (h.idUnique j r hj' hr (heq.symm.trans hid))
  case slot =>
    intro j hj
    rcases hcases j hj with ⟨hji, -⟩ | ⟨-, hold, -⟩
    · exact hji ▸ hlt
    · exact h.slot j hold
  case backed =>
    intro j hj
    simp only [Shm.setRegion, Shm.setAttachment] at hj ⊢
    rcases hcases j hj with ⟨-, heq⟩ | ⟨-, hold, heq⟩
    · exact ⟨r, (hregion r).1.trans hr, by rw [(hregion r).2, heq, hid]⟩
    · obtain ⟨q, hq, hqid⟩ := h.backed j hold
      exact ⟨q, (hregion q).1.trans hq, by rw [(hregion q).2, heq, hqid]⟩
  case distinct =>
    intro j k hj hk hne hpid
    simp only [Shm.setRegion, Shm.setAttachment] at hj hk hpid ⊢
    have hpair : ∀ l, (s.attachments l).inUse = true → (s.attachments l).pid = a.pid →
        (s.attachments l).shmId ≠ a.shmId ∧ (s.attachments l).virtBase ≠ a.virtBase := by
      intro l hl hlpid
      exact ⟨fun heq => hnone l hl (Prod.ext hlpid heq), hvirt l hl hlpid⟩
    rcases hcases j hj with ⟨hji, hjeq⟩ | ⟨hji, hjold, hjeq⟩
    · rcases hcases k hk with ⟨hki, -⟩ | ⟨-, hkold, hkeq⟩
      · exact absurd (hji.trans hki.symm) hne
      · rw [hjeq, hkeq] at hpid ⊢
        exact ⟨(hpair k hkold hpid.symm).1.symm, (hpair k hkold hpid.symm).2.symm⟩
    · rcases hcases k hk with ⟨-, hkeq⟩ | ⟨-, hkold, hkeq⟩
      · rw [hjeq, hkeq] at hpid ⊢
        exact hpair j hjold hpid
      · rw [hjeq, hkeq] at hpid ⊢
        exact h.distinct j k hjold hkold hne hpid
  case cursor => exact h.cursor
  case below =>
    intro j hj
    simp only [Shm.setRegion, Shm.setAttachment] at hj ⊢
    rcases hcases j hj with ⟨-, heq⟩ | ⟨-, hold, heq⟩
    · rw [heq]
      exact hbelow
    · rw [heq]
      exact h.below j hold

end Attach

end Tsukasa
