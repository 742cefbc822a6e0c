import Tsukasa.Ipc.ShmBooks

/-!
# What the shared-memory tables and the page tables keep

An attachment is held in the table until its process gives it up, and from then until its pages are unmapped it is a window of the call that does so. The pages that attaches have mapped are exactly the pages of the held and pending attachments, and the reference count of a region counts the held ones only: a region may be returned when no window is open for it.
-/

namespace Tsukasa

open Lib

/-- The page is one of the attachment's. -/
def ShmAttachment.Covers (a : ShmAttachment) (page : Nat) : Prop := a.virtBase / 4096 ≤ page ∧ page < a.virtBase / 4096 + a.pageCount

/-- The region a `shm_attach` is under way for. -/
def ShmPhase.attaching : ShmPhase → Option Int
  | .attachMapping shmId _ _ _ => some shmId
  | .attachFailed shmId _ => some shmId
  | _ => none

/-- The attachments that a call of the process has taken from the table and not yet unmapped. -/
def ShmPhase.pending (pid : Nat) : ShmPhase → List ShmAttachment
  | .detachUnmapping shmId virtAddr pageCount _ => [⟨true, shmId, pid, virtAddr, pageCount⟩]
  | .cleaning _ todo _ => todo
  | _ => []

def Shm.windows (s : Shm) (t : Nat) : List ShmAttachment := (s.processes t).phase.pending t

/-- All pages of the attachment are mapped, by the attach that made it. -/
structure Shm.Mapped (s : Shm) (a : ShmAttachment) : Prop where
  size : a.pageCount ≠ 0
  range : vmSpaceContainsUserRange a.virtBase a.pageCount = true
  page : ∀ page, a.Covers page →
    ∃ e, s.pageTables (s.processes a.pid).pml4Phys page = some e ∧ e.pid = a.pid ∧ e.shmId = a.shmId

structure ShmCore (s : Shm) (W : Nat → List ShmAttachment) : Prop where
  nextId : 1 ≤ s.nextShmId
  regionSlot : ∀ i, (s.regions i).inUse = true → i < shmMaxRegions
  ids : ∀ i, (s.regions i).inUse = true → 1 ≤ (s.regions i).id ∧ (s.regions i).id < s.nextShmId
  idUnique : ∀ i j, (s.regions i).inUse = true → (s.regions j).inUse = true → (s.regions i).id = (s.regions j).id → i = j
  returnedId : ∀ r ∈ s.returned, r.id < s.nextShmId ∧ ∀ i, (s.regions i).inUse = true → (s.regions i).id ≠ r.id
  refs : ∀ i, (s.regions i).inUse = true → (s.regions i).refCount = s.attached (s.regions i).id
  slot : ∀ i, (s.attachments i).inUse = true → i < shmMaxAttachments
  backed : ∀ i, (s.attachments i).inUse = true → ∃ r, (s.regions r).inUse = true ∧ (s.regions r).id = (s.attachments i).shmId
  distinct : ∀ i j, (s.attachments i).inUse = true → (s.attachments j).inUse = true → i ≠ j →
    (s.attachments i).pid = (s.attachments j).pid →
      (s.attachments i).shmId ≠ (s.attachments j).shmId ∧ (s.attachments i).virtBase ≠ (s.attachments j).virtBase
  cursor : ∀ pid, (s.processes pid).shmCursor < 2 ^ 64
  below : ∀ i, (s.attachments i).inUse = true → (s.attachments i).virtBase < (s.processes (s.attachments i).pid).shmCursor
  held : ∀ pml4 page e, s.pageTables pml4 page = some e → pml4 = (s.processes e.pid).pml4Phys ∧
    ((∃ i, (s.attachments i).inUse = true ∧ (s.attachments i).key = (e.pid, e.shmId) ∧ (s.attachments i).Covers page) ∨
      ∃ t, ∃ w ∈ W t, w.key = (e.pid, e.shmId) ∧ w.Covers page)
  mapped : ∀ i, (s.attachments i).inUse = true →
    (s.processes (s.attachments i).pid).phase.attaching ≠ some (s.attachments i).shmId → s.Mapped (s.attachments i)
  unmapped : ∀ pml4 page e, s.pageTables pml4 page = some e → (s.processes e.pid).phase.attaching ≠ some e.shmId
  window : ∀ t, ∀ w ∈ W t, s.Mapped w ∧ (∀ r ∈ s.returned, r.id ≠ w.shmId) ∧ w.shmId < s.nextShmId ∧
    ∀ i, (s.attachments i).inUse = true → (s.attachments i).key ≠ w.key
  windowOnce : ∀ t, ((W t).map ShmAttachment.key).Nodup
  windowApart : ∀ t t', t ≠ t' → ∀ w ∈ W t, ∀ w' ∈ W t', w.key ≠ w'.key

theorem ShmCore.books {s : Shm} {W : Nat → List ShmAttachment} (h : ShmCore s W) : ShmBooks s := { h with }

/-! ### Changes to processes -/

section Processes

variable {s : Shm} {W W' : Nat → List ShmAttachment} {pid : Nat} {p : ShmProcess}

theorem setProcess_field {α : Type*} (f : ShmProcess → α) (hf : f p = f (s.processes pid)) (q : Nat) :
    f ((s.setProcess pid p).processes q) = f (s.processes q) := by
  simp only [Shm.setProcess, Function.update_apply]
  split
  · rename_i heq
    rw [hf, heq]
  · rfl

theorem Shm.Mapped.setProcess (hpml4 : p.pml4Phys = (s.processes pid).pml4Phys) {a : ShmAttachment} (h : s.Mapped a) :
    (s.setProcess pid p).Mapped a := by
  refine ⟨h.size, h.range, fun page hpage => ?_⟩
  rw [setProcess_field ShmProcess.pml4Phys hpml4]
  exact h.page page hpage

/-- A process changes its cursor, its counter or its phase. -/
theorem ShmCore.setProcess (h : ShmCore s W) (hpml4 : p.pml4Phys = (s.processes pid).pml4Phys)
    (hmapped : ∀ i, (s.attachments i).inUse = true → (s.attachments i).pid = pid →
      p.phase.attaching ≠ some (s.attachments i).shmId → s.Mapped (s.attachments i))
    (hunmapped : ∀ pml4 page e, s.pageTables pml4 page = some e → e.pid = pid → p.phase.attaching ≠ some e.shmId)
    (hlt : p.shmCursor < 2 ^ 64)
    (hcursor : ∀ i, (s.attachments i).inUse = true → (s.attachments i).pid = pid → (s.attachments i).virtBase < p.shmCursor) :
    ShmCore (s.setProcess pid p) W := by
  have hself : (s.setProcess pid p).processes pid = p := Function.update_self _ _ _
  have hother : ∀ q ≠ pid, (s.setProcess pid p).processes q = s.processes q := fun q hq => Function.update_of_ne hq _ _
  refine ⟨h.nextId, h.regionSlot, h.ids, h.idUnique, h.returnedId, h.refs, h.slot, h.backed, h.distinct, ?_, ?_, ?_, ?_, ?_, ?_,
    h.windowOnce, h.windowApart⟩
  · intro q
    by_cases heq : q = pid
    · rwa [heq, hself]
    · rw [hother q heq]
      exact h.cursor q
  · intro i hi
    change (s.attachments i).virtBase < ((s.setProcess pid p).processes (s.attachments i).pid).shmCursor
    by_cases heq : (s.attachments i).pid = pid
    · rw [heq, hself]
      exact hcursor i hi heq
    · rw [hother _ heq]
      exact h.below i hi
  · intro pml4 page e he
    rw [setProcess_field ShmProcess.pml4Phys hpml4]
    exact h.held pml4 page e he
  · intro i hi hne
    change ((s.setProcess pid p).processes (s.attachments i).pid).phase.attaching ≠ some (s.attachments i).shmId at hne
    refine Shm.Mapped.setProcess hpml4 ?_
    by_cases heq : (s.attachments i).pid = pid
    · rw [heq, hself] at hne
      exact hmapped i hi heq hne
    · rw [hother _ heq] at hne
      exact h.mapped i hi hne
  · intro pml4 page e he
    by_cases heq : e.pid = pid
    · rw [heq, hself]
      exact hunmapped pml4 page e he heq
    · rw [hother _ heq]
      exact h.unmapped pml4 page e he
  · intro t w hw
    obtain ⟨hmapped, hrest⟩ := h.window t w hw
    exact ⟨hmapped.setProcess hpml4, hrest⟩

/-- The same without a change to what the process is attaching. -/
theorem ShmCore.setProcess_same (h : ShmCore s W) (hpml4 : p.pml4Phys = (s.processes pid).pml4Phys)
    (hphase : p.phase.attaching = (s.processes pid).phase.attaching) (hlt : p.shmCursor < 2 ^ 64)
    (hcursor : ∀ i, (s.attachments i).inUse = true → (s.attachments i).pid = pid → (s.attachments i).virtBase < p.shmCursor) :
    ShmCore (s.setProcess pid p) W := by
  refine h.setProcess hpml4 (fun i hi hpid hne => ?_) (fun pml4 page e he hpid => ?_) hlt hcursor
  · rw [hphase] at hne
    exact h.mapped i hi (hpid ▸ hne)
  · rw [hphase, ← hpid]
    exact h.unmapped pml4 page e he

/-- Only the phase changes, and not what the process is attaching. -/
theorem ShmCore.setPhase (h : ShmCore s W) {phase : ShmPhase} (hphase : phase.attaching = (s.processes pid).phase.attaching) :
    ShmCore (s.setPhase pid phase) W :=
  h.setProcess_same rfl hphase (h.cursor pid) fun i hi hpid => hpid ▸ h.below i hi

end Processes

/-! ### An attachment leaves the table -/

section Remove

variable {s : Shm} {W W' : Nat → List ShmAttachment} {i : Nat}

theorem Shm.without_mapped (s : Shm) (i : Nat) {a : ShmAttachment} : (s.without i).Mapped a ↔ s.Mapped a := by
  obtain ⟨hproc, htables, -⟩ := s.without_frame i
  constructor
  · rintro ⟨hsize, hrange, hpage⟩
    rw [hproc, htables] at hpage
    exact ⟨hsize, hrange, hpage⟩
  · rintro ⟨hsize, hrange, hpage⟩
    refine ⟨hsize, hrange, ?_⟩
    rwa [hproc, htables]

/-- The attachment leaves the table, and its pages are accounted for by the windows `W'`. -/
theorem ShmCore.without_core (h : ShmCore s W) (hi : (s.attachments i).inUse = true)
    (hold : ∀ t, ∀ w ∈ W t, w ∈ W' t)
    (hpages : ∀ pml4 page e, s.pageTables pml4 page = some e → (s.attachments i).key = (e.pid, e.shmId) →
      (s.attachments i).Covers page → ∃ t, ∃ w ∈ W' t, w.key = (e.pid, e.shmId) ∧ w.Covers page)
    (hwindow : ∀ t, ∀ w ∈ W' t, s.Mapped w ∧ (∀ r ∈ s.returned, r.id ≠ w.shmId) ∧ w.shmId < s.nextShmId ∧
      ∀ j, j ≠ i → (s.attachments j).inUse = true → (s.attachments j).key ≠ w.key)
    (honce : ∀ t, ((W' t).map ShmAttachment.key).Nodup)
    (hapart : ∀ t t', t ≠ t' → ∀ w ∈ W' t, ∀ w' ∈ W' t', w.key ≠ w'.key) : ShmCore (s.without i) W' := by
  obtain ⟨hproc, htables, hreturned, hnext⟩ := s.without_frame i
  have hbooks := h.books.without hi
  have huse := fun {j} => s.without_inUse (i := i) (j := j)
  refine { hbooks with
    held := ?held, mapped := ?mapped, unmapped := ?unmapped, window := ?window, windowOnce := ?windowOnce, windowApart := ?windowApart }
  case held =>
    intro pml4 page e he
    rw [htables] at he
    obtain ⟨hpml4, hholder⟩ := h.held pml4 page e he
    refine ⟨hproc ▸ hpml4, ?_⟩
    rcases hholder with ⟨j, hj, hkey, hcovers⟩ | ⟨t, w, hw, hkey, hcovers⟩
    · by_cases hji : j = i
      · exact Or.inr (hpages pml4 page e he (hji ▸ hkey) (hji ▸ hcovers))
      · have hsame := s.without_attachments_of_ne hji
        exact Or.inl ⟨j, hsame ▸ hj, hsame ▸ hkey, hsame ▸ hcovers⟩
    · exact Or.inr ⟨t, w, hold t w hw, hkey, hcovers⟩
  case mapped =>
    intro j hj hattaching
    obtain ⟨-, heq⟩ := huse hj
    rw [heq] at hj hattaching ⊢
    rw [hproc] at hattaching
    exact (s.without_mapped i).mpr (h.mapped j hj hattaching)
  case unmapped =>
    intro pml4 page e he
    rw [hproc]
    exact h.unmapped pml4 page e (htables ▸ he)
  case window =>
    intro t w hw
    obtain ⟨hmapped, hlive, hlt, hother⟩ := hwindow t w hw
    refine ⟨(s.without_mapped i).mpr hmapped, hreturned ▸ hlive, hnext ▸ hlt, fun j hj => ?_⟩
    obtain ⟨hji, heq⟩ := huse hj
    rw [heq] at hj ⊢
    exact hother j hji hj
  case windowOnce => exact honce
  case windowApart => exact hapart

/-- An attachment whose pages are mapped becomes a window of the call that gives it up. -/
theorem ShmCore.without_window (h : ShmCore s W) (hi : (s.attachments i).inUse = true)
    (hmapped : (s.processes (s.attachments i).pid).phase.attaching ≠ some (s.attachments i).shmId) (t : Nat) :
    ShmCore (s.without i) (Function.update W t (W t ++ [s.attachments i])) := by
  have hmem : ∀ u w, w ∈ Function.update W t (W t ++ [s.attachments i]) u → w ∈ W u ∨ u = t ∧ w = s.attachments i := by
    intro u w hw
    by_cases hut : u = t
    · rw [hut, Function.update_self, List.mem_append, List.mem_singleton] at hw
      exact hw.imp (fun hold => hut ▸ hold) fun hnew => ⟨hut, hnew⟩
    · rw [Function.update_of_ne hut] at hw
      exact Or.inl hw
  have hself : s.attachments i ∈ Function.update W t (W t ++ [s.attachments i]) t := by simp
  have hother : ∀ u, ∀ w ∈ W u, (s.attachments i).key ≠ w.key := fun u w hw => (h.window u w hw).2.2.2 i hi
  have hdistinct : ∀ j, j ≠ i → (s.attachments j).inUse = true → (s.attachments j).key ≠ (s.attachments i).key := by
    intro j hji hj heq
    exact (h.distinct j i hj hi hji (congrArg Prod.fst heq)).1 (congrArg Prod.snd heq)
  refine h.without_core hi ?_ ?_ ?_ ?_ ?_
  · intro u w hw
    by_cases hut : u = t
    · rw [hut] at hw ⊢
      rw [Function.update_self]
      exact List.mem_append_left _ hw
    · rwa [Function.update_of_ne hut]
  · intro pml4 page e _ hkey hcovers
    exact ⟨t, _, hself, hkey, hcovers⟩
  · intro u w hw
    rcases hmem u w hw with hold | ⟨-, rfl⟩
    · obtain ⟨hmap, hlive, hlt, hkeys⟩ := h.window u w hold
      exact ⟨hmap, hlive, hlt, fun j _ hj => hkeys j hj⟩
    · obtain ⟨r, hr, hid⟩ := h.backed i hi
      refine ⟨h.mapped i hi hmapped, fun q hq heq => ?_, hid ▸ (h.ids r hr).2, hdistinct⟩
      exact (h.returnedId q hq).2 r hr (hid.trans heq.symm)
  · intro u
    by_cases hut : u = t
    · rw [hut, Function.update_self, List.map_append, List.nodup_append]
      refine ⟨h.windowOnce t, by simp, ?_⟩
      intro k hold k' hnew heq
      obtain ⟨w, hw, rfl⟩ := List.mem_map.mp hold
      rw [List.map_singleton, List.mem_singleton] at hnew
      exact hother t w hw (hnew.symm.trans heq.symm)
    · rw [Function.update_of_ne hut]
      exact h.windowOnce u
  · intro u v huv w hw w' hw'
    rcases hmem u w hw with hold | ⟨hu, rfl⟩
    · rcases hmem v w' hw' with hold' | ⟨hv, rfl⟩
      · exact h.windowApart u v huv w hold w' hold'
      · exact (hother u w hold).symm
    · rcases hmem v w' hw' with hold' | ⟨hv, -⟩
      · exact hother v w' hold'
      · exact absurd (hu.trans hv.symm) huv

/-- An attachment that was never mapped leaves no pages behind. -/
theorem ShmCore.without_unmapped (h : ShmCore s W) (hi : (s.attachments i).inUse = true)
    (hattaching : (s.processes (s.attachments i).pid).phase.attaching = some (s.attachments i).shmId) :
    ShmCore (s.without i) W := by
  refine h.without_core hi (fun _ _ hw => hw) ?_ ?_ h.windowOnce h.windowApart
  · intro pml4 page e he hkey _
    have hpid : (s.attachments i).pid = e.pid := congrArg Prod.fst hkey
    have hid : (s.attachments i).shmId = e.shmId := congrArg Prod.snd hkey
    rw [hpid, hid] at hattaching
    exact absurd hattaching (h.unmapped pml4 page e he)
  · intro t w hw
    obtain ⟨hmap, hlive, hlt, hkeys⟩ := h.window t w hw
    exact ⟨hmap, hlive, hlt, fun j _ hj => hkeys j hj⟩

end Remove

/-! ### Pages are unmapped -/

section Unmap

variable {s : Shm} {W : Nat → List ShmAttachment} {t : Nat} {w : ShmAttachment} {rest : List ShmAttachment}

theorem setPages_inside {pml4 page : Nat} {a : ShmAttachment} (h : a.Covers page) (entry : Nat → Option ShmPage) :
    (s.setPages pml4 a.virtBase a.pageCount entry).pageTables pml4 page = entry page := by
  simp only [Shm.setPages, Function.update_self]
  exact if_pos h

theorem setPages_outside {pml4 other page : Nat} {a : ShmAttachment} (h : ¬(other = pml4 ∧ a.Covers page))
    (entry : Nat → Option ShmPage) : (s.setPages pml4 a.virtBase a.pageCount entry).pageTables other page = s.pageTables other page := by
  simp only [Shm.setPages]
  by_cases heq : other = pml4
  · rw [heq, Function.update_self]
    exact if_neg fun hcovers => h ⟨heq, hcovers⟩
  · rw [Function.update_of_ne heq]

/-- A window's unmap succeeds and clears exactly its pages. -/
theorem Shm.Mapped.unmap_eq (h : s.Mapped w) (others : Bool) :
    vmSpaceUnmapUserPages s w.pid w.virtBase w.pageCount others =
      s.setPages (s.processes w.pid).pml4Phys w.virtBase w.pageCount fun _ => none := by
  have hall : ((List.range w.pageCount).all fun i => pageMapped s (s.processes w.pid).pml4Phys (pageNumber w.virtBase i)) = true := by
    rw [List.all_eq_true]
    intro i hi
    have hlt := List.mem_range.mp hi
    obtain ⟨e, he, -⟩ := h.page (pageNumber w.virtBase i) ⟨by simp only [pageNumber]; omega, by simp only [pageNumber]; omega⟩
    rw [pageMapped, he]
    rfl
  simp [vmSpaceUnmapUserPages, h.size, h.range, hall]

theorem ShmCore.unmap (h : ShmCore s W) (hw : W t = w :: rest) (others : Bool) :
    ShmCore (vmSpaceUnmapUserPages s w.pid w.virtBase w.pageCount others) (Function.update W t rest) := by
  have hin : w ∈ W t := by simp [hw]
  obtain ⟨hmapped, -, -, hkeys⟩ := h.window t w hin
  have honce : ∀ w' ∈ rest, w'.key ≠ w.key := by
    have hnodup := h.windowOnce t
    rw [hw, List.map_cons, List.nodup_cons] at hnodup
    intro w' hw' heq
    exact hnodup.1 (heq ▸ List.mem_map_of_mem hw')
  have hmem : ∀ u w', w' ∈ Function.update W t rest u → w' ∈ W u ∧ w'.key ≠ w.key := by
    intro u w' hw'
    by_cases hut : u = t
    · rw [hut, Function.update_self] at hw'
      exact ⟨by simp [hut, hw, hw'], honce w' hw'⟩
    · rw [Function.update_of_ne hut] at hw'
      exact ⟨hw', h.windowApart u t hut w' hw' w hin⟩
  rw [hmapped.unmap_eq others]
  -- a page that is left is none of the window's
  have hkept : ∀ pml4 page e,
      (s.setPages (s.processes w.pid).pml4Phys w.virtBase w.pageCount fun _ => none).pageTables pml4 page = some e →
        s.pageTables pml4 page = some e ∧ ¬(pml4 = (s.processes w.pid).pml4Phys ∧ w.Covers page) := by
    intro pml4 page e he
    by_cases hcovers : pml4 = (s.processes w.pid).pml4Phys ∧ w.Covers page
    · rw [hcovers.1, setPages_inside hcovers.2] at he
      cases he
    · rw [setPages_outside hcovers] at he
      exact ⟨he, hcovers⟩
  have hmappedOther : ∀ a, s.Mapped a → a.key ≠ w.key →
      (s.setPages (s.processes w.pid).pml4Phys w.virtBase w.pageCount fun _ => none).Mapped a := by
    intro a ha hne
    refine ⟨ha.size, ha.range, fun page hpage => ?_⟩
    obtain ⟨e, he, hpid, hid⟩ := ha.page page hpage
    refine ⟨e, ?_, hpid, hid⟩
    change (s.setPages _ _ _ _).pageTables (s.processes a.pid).pml4Phys page = some e
    rw [setPages_outside]
    · exact he
    · rintro ⟨hpml4, hcovers⟩
      obtain ⟨e', he', hpid', hid'⟩ := hmapped.page page hcovers
      rw [hpml4] at he
      cases he.symm.trans he'
      refine hne ?_
      rw [ShmAttachment.key, ShmAttachment.key, ← hpid, ← hid, hpid', hid']
  refine ⟨h.nextId, h.regionSlot, h.ids, h.idUnique, h.returnedId, h.refs, h.slot, h.backed, h.distinct, h.cursor, h.below, ?_, ?_, ?_,
    ?_, ?_, ?_⟩
  · intro pml4 page e he
    obtain ⟨he, hout⟩ := hkept pml4 page e he
    obtain ⟨hpml4, hholder⟩ := h.held pml4 page e he
    refine ⟨hpml4, ?_⟩
    rcases hholder with hatt | ⟨u, w', hw', hkey, hcovers⟩
    · exact Or.inl hatt
    · refine Or.inr ⟨u, w', ?_, hkey, hcovers⟩
      have hne : w' ≠ w := by
        rintro rfl
        have hpid : w'.pid = e.pid := congrArg Prod.fst hkey
        exact hout ⟨by rw [hpml4, hpid], hcovers⟩
      by_cases hut : u = t
      · rw [hut, hw, List.mem_cons] at hw'
        rw [hut, Function.update_self]
        exact hw'.resolve_left hne
      · rwa [Function.update_of_ne hut]
  · intro i hi hattaching
    exact hmappedOther _ (h.mapped i hi hattaching) (hkeys i hi)
  · intro pml4 page e he
    exact h.unmapped pml4 page e (hkept pml4 page e he).1
  · intro u w' hw'
    obtain ⟨hold, hne⟩ := hmem u w' hw'
    obtain ⟨hmap, hlive, hlt, hother⟩ := h.window u w' hold
    exact ⟨hmappedOther w' hmap hne, hlive, hlt, hother⟩
  · intro u
    by_cases hut : u = t
    · have hnodup := h.windowOnce t
      rw [hw, List.map_cons, List.nodup_cons] at hnodup
      rw [hut, Function.update_self]
      exact hnodup.2
    · rw [Function.update_of_ne hut]
      exact h.windowOnce u
  · intro u v huv w₁ hw₁ w₂ hw₂
    exact h.windowApart u v huv w₁ (hmem u w₁ hw₁).1 w₂ (hmem v w₂ hw₂).1

end Unmap

/-! ### Regions come and go -/

section Regions

variable {s : Shm} {W : Nat → List ShmAttachment} {i : Nat}

/-- No call is about to unmap an attachment to the region. -/
def NoWindow (W : Nat → List ShmAttachment) (id : Int) : Prop := ∀ t, ∀ w ∈ W t, w.shmId ≠ id

/-- Fields of a region that nothing depends on are changed. -/
theorem ShmCore.setRegions (h : ShmCore s W) {regions : Nat → ShmRegion}
    (hsame : ∀ j, (regions j).inUse = (s.regions j).inUse ∧ (regions j).id = (s.regions j).id ∧
      (regions j).refCount = (s.regions j).refCount) : ShmCore { s with regions := regions } W := by
  have hbooks := h.books.setRegions hsame
  refine { hbooks with
    held := ?held, mapped := ?mapped, unmapped := ?unmapped, window := ?window, windowOnce := ?windowOnce, windowApart := ?windowApart }
  case held => exact h.held
  case mapped => exact fun j hj hne => let hmap := h.mapped j hj hne; ⟨hmap.size, hmap.range, hmap.page⟩
  case unmapped => exact h.unmapped
  case window =>
    intro t w hw
    obtain ⟨hmap, hrest⟩ := h.window t w hw
    exact ⟨⟨hmap.size, hmap.range, hmap.page⟩, hrest⟩
  case windowOnce => exact h.windowOnce
  case windowApart => exact h.windowApart

/-- A region with no attachment, in the table or in a window, is taken out of the table; `gone` is what is then returned. -/
theorem ShmCore.freeRegion (h : ShmCore s W) (hi : (s.regions i).inUse = true) (hrefs : (s.regions i).refCount = 0)
    (hwindow : NoWindow W (s.regions i).id) {gone : List ShmRegion} (hgone : ∀ r ∈ gone, r = s.regions i) :
    ShmCore { s.setRegion i ShmRegion.zeroed with returned := s.returned ++ gone } W := by
  have hbooks := h.books.freeRegion hi hrefs hgone
  refine { hbooks with
    held := ?held, mapped := ?mapped, unmapped := ?unmapped, window := ?window, windowOnce := ?windowOnce, windowApart := ?windowApart }
  case held => exact h.held
  case mapped => exact fun j hj hne => let hmap := h.mapped j hj hne; ⟨hmap.size, hmap.range, hmap.page⟩
  case unmapped => exact h.unmapped
  case window =>
    intro t w hw
    obtain ⟨hmap, hlive, hlt, hkeys⟩ := h.window t w hw
    refine ⟨⟨hmap.size, hmap.range, hmap.page⟩, fun r hr => ?_, hlt, hkeys⟩
    rcases List.mem_append.mp hr with hold | hnew
    · exact hlive r hold
    · rw [hgone r hnew]
      exact (hwindow t w hw).symm
  case windowOnce => exact h.windowOnce
  case windowApart => exact h.windowApart

theorem ShmCore.reap (h : ShmCore s W) (hwindow : (s.regions i).inUse = true → (s.regions i).destroyPending = true →
    (s.regions i).refCount = 0 → NoWindow W (s.regions i).id) : ShmCore (shmReapRegion s i) W := by
  simp only [shmReapRegion]
  split
  · exact h
  rename_i hcond
  simp only [Bool.or_eq_true, Bool.not_eq_true', decide_eq_true_eq, not_or, Bool.not_eq_false, not_not] at hcond
  obtain ⟨⟨huse, hpending⟩, hrefs⟩ := hcond
  have hno := hwindow huse hpending hrefs
  split
  · exact h.freeRegion huse hrefs hno (by simp)
  · have hfree := @ShmCore.freeRegion s W i h huse hrefs hno [] (by simp)
    rwa [List.append_nil] at hfree

theorem ShmCore.create (h : ShmCore s W) (hnext : s.nextShmId < 2 ^ 31 - 1) (pid size phys : Nat) :
    ShmCore (shmCreate s pid size phys) W := by
  have hbooks := h.books.create hnext pid size phys
  rcases shmCreate_cases h.nextId hnext pid size phys with ⟨heq, -⟩ | ⟨i, -, -, heq⟩
  · rw [heq]
    exact h
  rw [heq] at hbooks ⊢
  refine { hbooks with
    held := ?held, mapped := ?mapped, unmapped := ?unmapped, window := ?window, windowOnce := ?windowOnce, windowApart := ?windowApart }
  case held => exact h.held
  case mapped => exact fun j hj hne => let hmap := h.mapped j hj hne; ⟨hmap.size, hmap.range, hmap.page⟩
  case unmapped => exact h.unmapped
  case window =>
    intro t w hw
    obtain ⟨hmap, hlive, hlt, hkeys⟩ := h.window t w hw
    exact ⟨⟨hmap.size, hmap.range, hmap.page⟩, hlive, by simp only; omega, hkeys⟩
  case windowOnce => exact h.windowOnce
  case windowApart => exact h.windowApart

end Regions

/-! ### An attach -/

section Attach

variable {s : Shm} {W : Nat → List ShmAttachment}

/-- A new attachment enters the table, with its pages still to be mapped. -/
theorem ShmCore.addAttachment (h : ShmCore s W) {i r : Nat} {a : ShmAttachment} (hr : (s.regions r).inUse = true)
    (hlt : i < shmMaxAttachments) (hfree : (s.attachments i).inUse = false) (huse : a.inUse = true) (hid : a.shmId = (s.regions r).id)
    (hnone : ∀ j, (s.attachments j).inUse = true → (s.attachments j).key ≠ a.key)
    (hvirt : ∀ j, (s.attachments j).inUse = true → (s.attachments j).pid = a.pid → (s.attachments j).virtBase ≠ a.virtBase)
    (hwindow : ∀ t, ∀ w ∈ W t, a.key ≠ w.key) (hattaching : (s.processes a.pid).phase.attaching = some a.shmId)
    (hbelow : a.virtBase < (s.processes a.pid).shmCursor) :
    ShmCore ((s.setAttachment i a).setRegion r { s.regions r with refCount := wrap32 ((s.regions r).refCount + 1) }) W := by
  have hbooks := h.books.addAttachment hr hlt hfree huse hid hnone hvirt hbelow
  have hcases : ∀ j, (Function.update s.attachments i a j).inUse = true →
      j = i ∧ Function.update s.attachments i a j = a ∨
        j ≠ i ∧ (s.attachments j).inUse = true ∧ Function.update s.attachments i a j = s.attachments j := by
    intro j hj
    by_cases hji : j = i
    · exact Or.inl ⟨hji, by rw [hji, Function.update_self]⟩
    · have hsame : Function.update s.attachments i a j = s.attachments j := Function.update_of_ne hji _ _
      exact Or.inr ⟨hji, hsame ▸ hj, hsame⟩
  refine { hbooks with
    held := ?held, mapped := ?mapped, unmapped := ?unmapped, window := ?window, windowOnce := ?windowOnce, windowApart := ?windowApart }
  case held =>
    intro pml4 page e he
    obtain ⟨hpml4, hholder⟩ := h.held pml4 page e he
    refine ⟨hpml4, hholder.imp_left fun hatt => ?_⟩
    obtain ⟨j, hj, hkey, hcovers⟩ := hatt
    have hji : j ≠ i := by
      rintro rfl
      rw [hfree] at hj
      cases hj
    have hsame : (s.setAttachment i a).attachments j = s.attachments j := Function.update_of_ne hji _ _
    exact ⟨j, hsame ▸ hj, hsame ▸ hkey, hsame ▸ hcovers⟩
  case mapped =>
    intro j hj hne
    simp only [Shm.setRegion, Shm.setAttachment] at hj hne ⊢
    rcases hcases j hj with ⟨-, heq⟩ | ⟨-, hold, heq⟩
    · rw [heq] at hne
      exact absurd hattaching hne
    · rw [heq] at hne ⊢
      have hmap := h.mapped j hold hne
      exact ⟨hmap.size, hmap.range, hmap.page⟩
  case unmapped => exact h.unmapped
  case window =>
    intro t w hw
    obtain ⟨hmap, hlive, hwlt, hkeys⟩ := h.window t w hw
    refine ⟨⟨hmap.size, hmap.range, hmap.page⟩, hlive, hwlt, fun j hj => ?_⟩
    simp only [Shm.setRegion, Shm.setAttachment] at hj ⊢
    rcases hcases j hj with ⟨-, heq⟩ | ⟨-, hold, heq⟩
    · rw [heq]
      exact hwindow t w hw
    · rw [heq]
      exact hkeys j hold
  case windowOnce => exact h.windowOnce
  case windowApart => exact h.windowApart

/-- The pages of an attachment are mapped, and its attach is over. -/
theorem ShmCore.map (h : ShmCore s W) {i : Nat} {a : ShmAttachment} {p : ShmProcess} (ha : s.attachments i = a) (hi : a.inUse = true)
    (hattaching : (s.processes a.pid).phase.attaching = some a.shmId) (hsize : a.pageCount ≠ 0)
    (hrange : vmSpaceContainsUserRange a.virtBase a.pageCount = true)
    (hfree : ∀ page, a.Covers page → s.pageTables (s.processes a.pid).pml4Phys page = none)
    (hpml4 : p.pml4Phys = (s.processes a.pid).pml4Phys) (hcursor : p.shmCursor = (s.processes a.pid).shmCursor)
    (hphase : p.phase.attaching = none) (phys : Nat) :
    ShmCore ((s.setPages (s.processes a.pid).pml4Phys a.virtBase a.pageCount fun page =>
      some ⟨phys + (page - a.virtBase / 4096) * 4096, a.shmId, a.pid⟩).setProcess a.pid p) W := by
  generalize hentries : (fun page => some (⟨phys + (page - a.virtBase / 4096) * 4096, a.shmId, a.pid⟩ : ShmPage)) = entries
  have hnew : ∀ page, ∃ e, entries page = some e ∧ e.pid = a.pid ∧ e.shmId = a.shmId := by
    intro page
    rw [← hentries]
    exact ⟨_, rfl, rfl, rfl⟩
  -- an entry is one of the new ones, or an old one outside the range
  have hentry : ∀ pml4 page e, (s.setPages (s.processes a.pid).pml4Phys a.virtBase a.pageCount entries).pageTables pml4 page = some e →
      (pml4 = (s.processes a.pid).pml4Phys ∧ a.Covers page ∧ e.pid = a.pid ∧ e.shmId = a.shmId) ∨ s.pageTables pml4 page = some e := by
    intro pml4 page e he
    by_cases hcovers : pml4 = (s.processes a.pid).pml4Phys ∧ a.Covers page
    · rw [hcovers.1, setPages_inside hcovers.2] at he
      obtain ⟨e', he', hpid, hid⟩ := hnew page
      cases he.symm.trans he'
      exact Or.inl ⟨hcovers.1, hcovers.2, hpid, hid⟩
    · rw [setPages_outside hcovers] at he
      exact Or.inr he
  have hself : (Function.update s.processes a.pid p) a.pid = p := Function.update_self _ _ _
  have hother : ∀ q ≠ a.pid, Function.update s.processes a.pid p q = s.processes q := fun q hq => Function.update_of_ne hq _ _
  have hspace : ∀ q, (Function.update s.processes a.pid p q).pml4Phys = (s.processes q).pml4Phys :=
    setProcess_field ShmProcess.pml4Phys hpml4
  have hcursors : ∀ q, (Function.update s.processes a.pid p q).shmCursor = (s.processes q).shmCursor :=
    setProcess_field ShmProcess.shmCursor hcursor
  have hmappedOld : ∀ b, s.Mapped b →
      ((s.setPages (s.processes a.pid).pml4Phys a.virtBase a.pageCount entries).setProcess a.pid p).Mapped b := by
    intro b hb
    refine ⟨hb.size, hb.range, fun page hpage => ?_⟩
    obtain ⟨e, he, hpid, hid⟩ := hb.page page hpage
    refine ⟨e, ?_, hpid, hid⟩
    change (s.setPages _ _ _ _).pageTables (Function.update s.processes a.pid p b.pid).pml4Phys page = some e
    rw [hspace, setPages_outside]
    · exact he
    · rintro ⟨heq, hcovers⟩
      rw [heq, hfree page hcovers] at he
      cases he
  constructor
  case nextId => exact h.nextId
  case regionSlot => exact h.regionSlot
  case ids => exact h.ids
  case idUnique => exact h.idUnique
  case returnedId => exact h.returnedId
  case refs => exact h.refs
  case slot => exact h.slot
  case backed => exact h.backed
  case distinct => exact h.distinct
  case cursor =>
    intro q
    change (Function.update s.processes a.pid p q).shmCursor < 2 ^ 64
    rw [hcursors]
    exact h.cursor q
  case below =>
    intro j hj
    change (s.attachments j).virtBase < (Function.update s.processes a.pid p (s.attachments j).pid).shmCursor
    rw [hcursors]
    exact h.below j hj
  case held =>
    intro pml4 page e he
    change pml4 = (Function.update s.processes a.pid p e.pid).pml4Phys ∧ _
    rw [hspace]
    rcases hentry pml4 page e he with ⟨hspace', hcovers, hpid, hid⟩ | hold
    · refine ⟨by rw [hspace', hpid], Or.inl ⟨i, ?_, ?_, ?_⟩⟩
      · change (s.attachments i).inUse = true
        rw [ha]
        exact hi
      · change (s.attachments i).key = _
        rw [ha, ShmAttachment.key, hpid, hid]
      · change (s.attachments i).Covers page
        rw [ha]
        exact hcovers
    · exact h.held pml4 page e hold
  case mapped =>
    intro j hj hne
    by_cases hji : j = i
    · have hb : s.attachments j = a := by rw [hji, ha]
      change Shm.Mapped _ (s.attachments j)
      rw [hb]
      refine ⟨hsize, hrange, fun page hpage => ?_⟩
      obtain ⟨e, he, hpid, hid⟩ := hnew page
      refine ⟨e, ?_, hpid, hid⟩
      change (s.setPages _ _ _ _).pageTables (Function.update s.processes a.pid p a.pid).pml4Phys page = some e
      rw [hspace, setPages_inside hpage, he]
    · refine hmappedOld _ (h.mapped j hj fun heq => ?_)
      by_cases hpid : (s.attachments j).pid = a.pid
      · rw [hpid, hattaching] at heq
        have hdistinct := h.distinct j i hj (ha ▸ hi) hji (by rw [hpid, ha])
        rw [ha] at hdistinct
        exact hdistinct.1 (Option.some.inj heq).symm
      · refine hne ?_
        change (Function.update s.processes a.pid p (s.attachments j).pid).phase.attaching = some (s.attachments j).shmId
        rw [hother _ hpid]
        exact heq
  case unmapped =>
    intro pml4 page e he
    change (Function.update s.processes a.pid p e.pid).phase.attaching ≠ some e.shmId
    by_cases hpid : e.pid = a.pid
    · rw [hpid, hself, hphase]
      exact nofun
    · rw [hother _ hpid]
      rcases hentry pml4 page e he with ⟨-, -, hpid', -⟩ | hold
      · exact absurd hpid' hpid
      · exact h.unmapped pml4 page e hold
  case window =>
    intro t w hw
    obtain ⟨hmap, hrest⟩ := h.window t w hw
    exact ⟨hmappedOld w hmap, hrest⟩
  case windowOnce => exact h.windowOnce
  case windowApart => exact h.windowApart

end Attach

end Tsukasa
