import Tsukasa.Ipc.ShmLedger
import Mathlib.Logic.Function.Iterate

/-!
# Complete calls of the shared-memory interface

The calls of `ipc/shm.c` one after the other, each with all its steps, over the tables and the page allocator. Between two calls no process is inside one, so the reference count of a region, the attachment counter of a process and the frames taken from the allocator can be read off the tables.
-/

namespace Tsukasa

open Lib

/-! ### The calls -/

/-- The map of `shm_attach` with the result it happens to have, and what follows it when it succeeds. -/
def shmAttachMapResult (s : Shm) (pid : Nat) (mapped : Bool) : Shm :=
  match (s.processes pid).phase with
  | .attachMapping shmId virtAddr _ _ =>
      if mapped then
        let p := s.processes pid
        s.setProcess pid { p with shmAttachmentCount := wrap32 (p.shmAttachmentCount + 1), phase := .idle }
      else s.setPhase pid (.attachFailed shmId virtAddr)
  | _ => s

def shmAttach (s : Shm) (pid : Nat) (shmId : Int) (mapped : Bool) : Shm :=
  shmAttachUndo (shmAttachMapResult (shmAttachBegin s pid shmId) pid mapped) pid

def shmDetach (s : Shm) (pid virtAddr : Nat) (others : Bool) : Shm :=
  shmDetachReap (shmDetachUnmap (shmDetachBegin s pid virtAddr) pid others) pid

/-- There are at most as many attachments to unmap as the table has. -/
def shmProcessCleanup (s : Shm) (pid target : Nat) (others : Bool) : Shm :=
  shmCleanupFinish ((fun s => shmCleanupUnmap s pid others)^[shmMaxAttachments] (shmCleanupBegin s pid target)) pid

/-! ### Between the calls -/

/-- No region that is to be destroyed is left without attachments. -/
def Shm.NoneOverdue (s : Shm) : Prop := ∀ i, (s.regions i).inUse = true → (s.regions i).destroyPending = true → (s.regions i).refCount ≠ 0

structure ShmRest (s : Shm) : Prop where
  ledger : ShmLedger s
  idle : ∀ pid, (s.processes pid).phase = .idle
  counts : ∀ pid, s.holding pid = (s.processes pid).shmAttachmentCount
  pending : s.NoneOverdue

theorem setPhase_count (s : Shm) (pid : Nat) (phase : ShmPhase) (q : Nat) :
    ((s.setPhase pid phase).processes q).shmAttachmentCount = (s.processes q).shmAttachmentCount := by
  by_cases hq : q = pid
  · rw [hq, Shm.setPhase, setProcess_self]
  · rw [Shm.setPhase, setProcess_of_ne hq]

section Attach

variable {s : Shm} {pid : Nat} {shmId : Int}

/-- An attach that is refused at once may have moved the cursor; otherwise it enters a new attachment. -/
theorem shmAttachBegin_cases (h : ShmLedger s) (pid : Nat) (shmId : Int) :
    shmAttachBegin s pid shmId = s ∨
    (∃ cursor < 2 ^ 64, (∀ i, (s.attachments i).inUse = true → (s.attachments i).pid = pid → (s.attachments i).virtBase < cursor) ∧
      shmAttachBegin s pid shmId = s.setProcess pid { s.processes pid with shmCursor := cursor }) ∨
    ∃ i r virtAddr cursor, (s.regions r).inUse = true ∧ (s.regions r).id = shmId ∧ i < shmMaxAttachments ∧
      (s.attachments i).inUse = false ∧ (∀ j, (s.attachments j).inUse = true → (s.attachments j).key ≠ (pid, shmId)) ∧
      (∀ j, (s.attachments j).inUse = true → (s.attachments j).pid = pid → (s.attachments j).virtBase < virtAddr) ∧
      virtAddr < cursor ∧ cursor < 2 ^ 64 ∧
      shmAttachBegin s pid shmId = (((s.setProcess pid { s.processes pid with shmCursor := cursor }).setAttachment i
        ⟨true, shmId, pid, virtAddr, (s.regions r).pageCount⟩).setRegion r
          { s.regions r with refCount := wrap32 ((s.regions r).refCount + 1) }).setPhase pid
            (.attachMapping shmId virtAddr (s.regions r).physBase (s.regions r).pageCount) := by
  simp only [shmAttachBegin]
  split
  · exact Or.inl rfl
  split
  · exact Or.inl rfl
  rename_i r hfind
  obtain ⟨-, huse, hid⟩ := shmFindRegion_some hfind
  split
  · exact Or.inl rfl
  rename_i hnone
  split
  · exact Or.inl rfl
  rename_i hvirt
  obtain ⟨hle, hltVirt, hltCursor⟩ := vmSpaceReserveShmRange_spec (h.books.cursor pid) hvirt
  generalize vmSpaceReserveShmRange (s.processes pid).shmCursor (s.regions r).pageCount = reserved at *
  have hbelow : ∀ i, (s.attachments i).inUse = true → (s.attachments i).pid = pid → (s.attachments i).virtBase < reserved.1 := by
    intro i hi hpid
    have hold := h.books.below i hi
    rw [hpid] at hold
    omega
  split
  · exact Or.inr (Or.inl ⟨reserved.2, hltCursor, fun i hi hpid => lt_trans (hbelow i hi hpid) hltVirt, rfl⟩)
  rename_i i hslot
  obtain ⟨hlt, hfree⟩ := shmAllocAttachment_some hslot
  exact Or.inr (Or.inr ⟨i, r, reserved.1, reserved.2, huse, hid, hlt, hfree,
    fun j hj => shmFindAttachment_none hnone (h.books.slot j hj) hj, hbelow, hltVirt, hltCursor, rfl⟩)

/-- The state in which a new attachment is in the table and its attach is before its map. -/
structure Entering (s s' : Shm) (pid : Nat) (shmId : Int) : Prop where
  settles : Settles s s'
  others : ∀ q, q ≠ pid → s'.processes q = s.processes q
  count : (s'.processes pid).shmAttachmentCount = (s.processes pid).shmAttachmentCount
  region : ∀ j, ∃ refs, s'.regions j = { s.regions j with refCount := refs }
  entered : ∃ i virtAddr physBase pageCount, i < shmMaxAttachments ∧ (s.attachments i).inUse = false ∧
    s'.attachments = Function.update s.attachments i ⟨true, shmId, pid, virtAddr, pageCount⟩ ∧
    (s'.processes pid).phase = .attachMapping shmId virtAddr physBase pageCount

theorem shmAttachBegin_entering (h : ShmLedger s) (pid : Nat) (shmId : Int) :
    (Settles s (shmAttachBegin s pid shmId) ∧ (shmAttachBegin s pid shmId).attachments = s.attachments ∧
      (shmAttachBegin s pid shmId).regions = s.regions ∧
      ∀ q, ((shmAttachBegin s pid shmId).processes q).phase = (s.processes q).phase ∧
        ((shmAttachBegin s pid shmId).processes q).shmAttachmentCount = (s.processes q).shmAttachmentCount) ∨
      Entering s (shmAttachBegin s pid shmId) pid shmId := by
  rcases shmAttachBegin_cases h pid shmId with heq | ⟨cursor, hlt, hbelow, heq⟩ |
    ⟨i, r, virtAddr, cursor, huse, hid, hi, hfree, hkeys, hbelow, hvirt, hlt, heq⟩
  · rw [heq]
    exact Or.inl ⟨Settles.refl h, rfl, rfl, fun _ => ⟨rfl, rfl⟩⟩
  · rw [heq]
    refine Or.inl ⟨h.setProcess hlt hbelow, rfl, rfl, fun q => ?_⟩
    by_cases hq : q = pid
    · rw [hq, setProcess_self]
      exact ⟨rfl, rfl⟩
    · rw [setProcess_of_ne hq]
      exact ⟨rfl, rfl⟩
  · rw [heq]
    right
    have hcursor : Settles s (s.setProcess pid { s.processes pid with shmCursor := cursor }) :=
      h.setProcess hlt fun j hj hpid => lt_trans (hbelow j hj hpid) hvirt
    have hadd := @ShmLedger.addAttachment _ hcursor.1 i r ⟨true, shmId, pid, virtAddr, (s.regions r).pageCount⟩ huse hi hfree rfl hid.symm
      hkeys (fun j hj hpid => ne_of_lt (hbelow j hj hpid)) (by rw [setProcess_self]; exact hvirt)
    refine ⟨hcursor.trans (hadd.trans (hadd.1.setPhase pid _)), fun q hq => ?_, ?_, fun j => ?_, i, virtAddr, (s.regions r).physBase,
      (s.regions r).pageCount, hi, hfree, rfl, ?_⟩
    · rw [Shm.setPhase, setProcess_of_ne hq]
      exact setProcess_of_ne hq _
    · simp [Shm.setPhase, Shm.setProcess, Shm.setAttachment, Shm.setRegion]
    · by_cases hjr : j = r
      · rw [hjr]
        exact ⟨_, setRegion_self _ r _⟩
      · exact ⟨(s.regions j).refCount, setRegion_of_ne hjr _⟩
    · exact setPhase_phase _ _ _

/-- What an attach leaves in the tables depends on the counts of the state it leaves. -/
theorem ShmBooks.pending_of_region {s' : Shm} (h : ShmBooks s) (h' : ShmBooks s') (hpending : s.NoneOverdue)
    (hregion : ∀ j, ∃ refs, s'.regions j = { s.regions j with refCount := refs })
    (hattached : ∀ id, s.attached id ≤ s'.attached id) : s'.NoneOverdue := by
  intro j huse hdestroy
  have hrefs := h'.refs j huse
  obtain ⟨refs, heq⟩ := hregion j
  rw [heq] at huse hdestroy
  have hold := hpending j huse hdestroy
  have holdRefs := h.refs j huse
  have hid : (s'.regions j).id = (s.regions j).id := by rw [heq]
  have hle := hattached (s.regions j).id
  rw [hid] at hrefs
  omega

theorem attached_setAttachment {i : Nat} {a : ShmAttachment} (hlt : i < shmMaxAttachments) (hfree : (s.attachments i).inUse = false)
    (huse : a.inUse = true) (id : Int) : (s.setAttachment i a).attached id = s.attached id + if a.shmId = id then 1 else 0 := by
  have hupdate := tally_update (P := fun a : ShmAttachment => a.inUse = true ∧ a.shmId = id) (g := s.attachments)
    (Finset.mem_range.mpr hlt) a
  simpa [Shm.attached, Shm.setAttachment, hfree, huse] using hupdate

section Entering

variable {s' : Shm}

theorem Entering.holding (h : Entering s s' pid shmId) (q : Nat) : s'.holding q = s.holding q + if pid = q then 1 else 0 := by
  obtain ⟨i, virtAddr, physBase, pageCount, hi, hfree, hatts, -⟩ := h.entered
  have hadd := @holding_setAttachment s i ⟨true, shmId, pid, virtAddr, pageCount⟩ hi hfree rfl q
  rw [← hadd]
  simp only [Shm.holding, hatts, Shm.setAttachment]

theorem Entering.attached (h : Entering s s' pid shmId) (id : Int) : s'.attached id = s.attached id + if shmId = id then 1 else 0 := by
  obtain ⟨i, virtAddr, physBase, pageCount, hi, hfree, hatts, -⟩ := h.entered
  have hadd := @attached_setAttachment s i ⟨true, shmId, pid, virtAddr, pageCount⟩ hi hfree rfl id
  rw [← hadd]
  simp only [Shm.attached, hatts, Shm.setAttachment]

/-- The map succeeds: the attachment stays and is counted. -/
theorem Entering.mapped (h : ShmRest s) (hentering : Entering s s' pid shmId) :
    ShmRest (shmAttachUndo (shmAttachMapResult s' pid true) pid) ∧ Settles s (shmAttachUndo (shmAttachMapResult s' pid true) pid) := by
  obtain ⟨i, virtAddr, physBase, pageCount, -, -, -, hphase⟩ := hentering.entered
  have hmap : shmAttachMapResult s' pid true = s'.setProcess pid { s'.processes pid with
      shmAttachmentCount := wrap32 ((s'.processes pid).shmAttachmentCount + 1), phase := .idle } := by
    simp only [shmAttachMapResult, hphase, if_true]
  have hdone : shmAttachUndo (shmAttachMapResult s' pid true) pid = shmAttachMapResult s' pid true := by
    simp only [shmAttachUndo, hmap, setProcess_self]
  rw [hdone, hmap]
  have hnote : Settles s' (s'.setProcess pid { s'.processes pid with
      shmAttachmentCount := wrap32 ((s'.processes pid).shmAttachmentCount + 1), phase := .idle }) :=
    hentering.settles.1.setProcess_same rfl
  refine ⟨⟨hnote.1, fun q => ?_, fun q => ?_, ?_⟩, hentering.settles.trans hnote⟩
  · by_cases hq : q = pid
    · rw [hq, setProcess_self]
    · rw [setProcess_of_ne hq, hentering.others q hq]
      exact h.idle q
  · change s'.holding q = _
    rw [hentering.holding q, h.counts q]
    by_cases hq : q = pid
    · have hle := s'.holding_le pid
      rw [hentering.holding pid, h.counts pid, if_pos rfl, shmMaxAttachments] at hle
      rw [hq, setProcess_self, if_pos rfl, hentering.count]
      exact (wrap32_of_lt (by omega)).symm
    · rw [setProcess_of_ne hq, hentering.others q hq, if_neg (Ne.symm hq), Nat.add_zero]
  · apply h.ledger.books.pending_of_region hnote.1.books h.pending hentering.region
    intro id
    change s.attached id ≤ s'.attached id
    rw [hentering.attached id]
    omega

/-- The map fails: the attachment is found again at its address and taken out. -/
theorem Entering.unmapped (h : ShmRest s) (hentering : Entering s s' pid shmId) :
    ShmRest (shmAttachUndo (shmAttachMapResult s' pid false) pid) ∧ Settles s (shmAttachUndo (shmAttachMapResult s' pid false) pid) := by
  obtain ⟨i, virtAddr, physBase, pageCount, -, -, hatts, hphase⟩ := hentering.entered
  have hself : s'.attachments i = ⟨true, shmId, pid, virtAddr, pageCount⟩ := by rw [hatts, Function.update_self]
  have hmap : shmAttachMapResult s' pid false = s'.setPhase pid (.attachFailed shmId virtAddr) := by
    simp only [shmAttachMapResult, hphase, Bool.false_eq_true, if_false]
  have hfailed := hentering.settles.1.setPhase pid (.attachFailed shmId virtAddr)
  have hpid : (s'.setPhase pid (.attachFailed shmId virtAddr)).processes pid = { s'.processes pid with
      phase := .attachFailed shmId virtAddr } := setProcess_self _ _ _
  have hothers : ∀ q, q ≠ pid → (s'.setPhase pid (.attachFailed shmId virtAddr)).processes q = s.processes q := by
    intro q hq
    rw [Shm.setPhase, setProcess_of_ne hq]
    exact hentering.others q hq
  have hwatts : (s'.setPhase pid (.attachFailed shmId virtAddr)).attachments = s'.attachments := rfl
  have hwregions : (s'.setPhase pid (.attachFailed shmId virtAddr)).regions = s'.regions := rfl
  generalize s'.setPhase pid (.attachFailed shmId virtAddr) = w at *
  have huse : (w.attachments i).inUse = true := by rw [hwatts, hself]
  have hundo : shmAttachUndo w pid = (w.without i).setPhase pid .idle := by
    have hid : (w.attachments i).shmId = shmId := by rw [hwatts, hself]
    have hfound := hfailed.1.books.findByAddr_eq huse
    rw [hwatts, hself] at hfound
    simp only [shmAttachUndo, hpid, hfound, Shm.without, hid]
  rw [hmap, hundo]
  have hwithout := hfailed.1.without huse
  have hlast := hwithout.1.setPhase pid .idle
  have hproc := (w.without_frame i).1
  refine ⟨⟨hlast.1, fun q => ?_, fun q => ?_, ?_⟩, hentering.settles.trans (hfailed.trans (hwithout.trans hlast))⟩
  · by_cases hq : q = pid
    · rw [hq]
      exact setPhase_phase _ _ _
    · rw [Shm.setPhase, setProcess_of_ne hq, hproc, hothers q hq]
      exact h.idle q
  · have hdrop := hfailed.1.books.holding_without huse q
    have hholding : w.holding q = s'.holding q := by rw [Shm.holding, hwatts, ← Shm.holding]
    rw [hholding, hentering.holding q, hwatts, hself] at hdrop
    have hcount : (((w.without i).setPhase pid .idle).processes q).shmAttachmentCount = (s.processes q).shmAttachmentCount := by
      by_cases hq : q = pid
      · rw [hq, Shm.setPhase, setProcess_self, hproc, hpid]
        exact hentering.count
      · rw [Shm.setPhase, setProcess_of_ne hq, hproc, hothers q hq]
    rw [hcount, ← h.counts q]
    change (w.without i).holding q = _
    simp only at hdrop
    omega
  · apply h.ledger.books.pending_of_region hlast.1.books h.pending
    · intro j
      obtain ⟨refs, heq⟩ := hentering.region j
      obtain ⟨r, -, -, -, hweq⟩ := hfailed.1.books.without_eq huse
      change ∃ refs, (w.without i).regions j = _
      rw [hweq]
      by_cases hjr : j = r
      · rw [← hjr, setRegion_self, hwregions, heq]
        exact ⟨_, rfl⟩
      · rw [setRegion_of_ne hjr]
        exact ⟨refs, (congrFun hwregions j).trans heq⟩
    · intro id
      have hdrop := hfailed.1.books.attached_without huse id
      have hattached : w.attached id = s'.attached id := by rw [Shm.attached, hwatts, ← Shm.attached]
      rw [hattached, hentering.attached id, hwatts, hself] at hdrop
      change s.attached id ≤ (w.without i).attached id
      simp only at hdrop
      omega

end Entering

theorem shmAttach_rest (h : ShmRest s) (pid : Nat) (shmId : Int) (mapped : Bool) :
    ShmRest (shmAttach s pid shmId mapped) ∧ Settles s (shmAttach s pid shmId mapped) := by
  rw [shmAttach]
  rcases shmAttachBegin_entering h.ledger pid shmId with ⟨hsettles, hatts, hregions, hprocs⟩ | hentering
  · -- refused: the other steps do nothing
    generalize shmAttachBegin s pid shmId = s' at *
    have hidle : (s'.processes pid).phase = .idle := (hprocs pid).1.trans (h.idle pid)
    have hstay : shmAttachUndo (shmAttachMapResult s' pid mapped) pid = s' := by
      have hmap : shmAttachMapResult s' pid mapped = s' := by simp only [shmAttachMapResult, hidle]
      simp only [hmap, shmAttachUndo, hidle]
    rw [hstay]
    refine ⟨⟨hsettles.1, fun q => (hprocs q).1.trans (h.idle q), fun q => ?_, ?_⟩, hsettles⟩
    · rw [Shm.holding, hatts, (hprocs q).2]
      exact h.counts q
    · rw [Shm.NoneOverdue, hregions]
      exact h.pending
  · cases mapped with
    | true => exact hentering.mapped h
    | false => exact hentering.unmapped h

end Attach

section Detach

variable {s : Shm} {pid : Nat}

/-- The region that has been reaped is not overdue any more, and no other one becomes so. -/
theorem shmReapRegion_overdue {i j : Nat} (huse : ((shmReapRegion s i).regions j).inUse = true)
    (hpending : ((shmReapRegion s i).regions j).destroyPending = true) (hrefs : ((shmReapRegion s i).regions j).refCount = 0) :
    j ≠ i ∧ (shmReapRegion s i).regions j = s.regions j := by
  have hsame := (shmReapRegion_frame s i).2.2 j huse
  refine ⟨fun heq => ?_, hsame⟩
  rw [hsame] at huse hpending hrefs
  rw [heq] at huse hpending hrefs
  have hgone : (shmReapRegion s i).regions i = ShmRegion.zeroed := by
    simp only [shmReapRegion, huse, hpending, hrefs]
    simp only [Bool.not_true, ne_eq, not_true_eq_false, decide_false, Bool.or_self, Bool.false_eq_true, if_false]
    split
    · exact setRegion_self s i _
    · exact setRegion_self s i _
  have hzero := (shmReapRegion_frame s i).2.2 i
  rw [heq, hgone] at hsame
  rw [← hsame] at huse
  cases huse

theorem shmDestroy_rest (h : ShmRest s) (shmId : Int) : ShmRest (shmDestroy s shmId) ∧ Settles s (shmDestroy s shmId) := by
  simp only [shmDestroy]
  split
  · exact ⟨h, Settles.refl h.ledger⟩
  split
  · exact ⟨h, Settles.refl h.ledger⟩
  rename_i r _
  split
  · exact ⟨h, Settles.refl h.ledger⟩
  have hmark : Settles s (s.setRegion r { s.regions r with destroyPending := true }) := by
    apply h.ledger.setRegions
    intro j
    by_cases hjr : j = r
    · rw [hjr, Function.update_self]
      exact ⟨rfl, rfl, rfl⟩
    · rw [Function.update_of_ne hjr]
      exact ⟨rfl, rfl, rfl⟩
  have hreap := hmark.1.reap r
  obtain ⟨hproc, hatts, -⟩ := shmReapRegion_frame (s.setRegion r { s.regions r with destroyPending := true }) r
  refine ⟨⟨hreap.1, fun q => ?_, fun q => ?_, fun j huse hpending hrefs => ?_⟩, hmark.trans hreap⟩
  · rw [hproc]
    exact h.idle q
  · rw [Shm.holding, hatts, hproc]
    exact h.counts q
  · obtain ⟨hjr, hsame⟩ := shmReapRegion_overdue huse hpending hrefs
    rw [hsame, setRegion_of_ne hjr] at huse hpending hrefs
    exact h.pending j huse hpending hrefs

/-- Giving up an attachment can make only its own region overdue. -/
theorem ShmRest.without_overdue (h : ShmRest s) {i : Nat} (hi : (s.attachments i).inUse = true) {j : Nat}
    (huse : ((s.without i).regions j).inUse = true) (hpending : ((s.without i).regions j).destroyPending = true)
    (hrefs : ((s.without i).regions j).refCount = 0) : ((s.without i).regions j).id = (s.attachments i).shmId := by
  obtain ⟨r, hr, hid, -, heq⟩ := h.ledger.books.without_eq hi
  rw [heq] at huse hpending hrefs ⊢
  by_cases hjr : j = r
  · rw [hjr, setRegion_self]
    exact hid
  · rw [setRegion_of_ne hjr] at huse hpending hrefs
    exact absurd hrefs (h.pending j huse hpending)

/-- The test of `shm_detach` for a region whose destruction waits for nothing more. -/
def overdue (s : Shm) (id : Int) : Bool :=
  match shmFindRegion s id with
  | some r => (s.regions r).destroyPending && decide ((s.regions r).refCount = 0)
  | none => false

/-- The process after the unmap of a detach. -/
def detachedProcess (p : ShmProcess) (pid : Nat) (phase : ShmPhase) : ShmProcess :=
  let count := if 0 < p.shmAttachmentCount then p.shmAttachmentCount - 1 else p.shmAttachmentCount
  { p with shmAttachmentCount := count, shmCursor := if count = 0 then shmCursorStart pid else p.shmCursor, phase := phase }

/-- After its first section a detach has given up the attachment. -/
theorem shmDetachBegin_of_found {i virtAddr : Nat} (hvirt : virtAddr ≠ 0) (hfind : shmFindAttachmentByAddr s pid virtAddr = some i) :
    shmDetachBegin s pid virtAddr = (s.without i).setPhase pid (.detachUnmapping (s.attachments i).shmId virtAddr
      (s.attachments i).pageCount (overdue (s.without i) (s.attachments i).shmId)) := by
  simp only [shmDetachBegin, if_neg hvirt, hfind, Shm.without, overdue]
  rfl

theorem shmDetachUnmap_of_phase {shmId : Int} {virtAddr pageCount : Nat} {needsReap : Bool}
    (hphase : (s.processes pid).phase = .detachUnmapping shmId virtAddr pageCount needsReap) (others : Bool) :
    shmDetachUnmap s pid others = (vmSpaceUnmapUserPages s pid virtAddr pageCount others).setProcess pid
      (detachedProcess (s.processes pid) pid (if needsReap then .detachReaping shmId else .idle)) := by
  simp only [shmDetachUnmap, hphase]
  rw [(vmSpaceUnmapUserPages_frame s pid virtAddr pageCount others).1]
  rfl

/-- The tables after the unmap: the counter of the process is that of its attachments again. -/
theorem ShmRest.detached (h : ShmRest s) {i : Nat} (huse : (s.attachments i).inUse = true) (hpid : (s.attachments i).pid = pid)
    (shmId : Int) (virtAddr pageCount : Nat) (needsReap others : Bool) {s' : Shm}
    (hs' : s' = shmDetachUnmap ((s.without i).setPhase pid (.detachUnmapping shmId virtAddr pageCount needsReap)) pid others) :
    Settles s s' ∧ (∀ q, s'.holding q = (s'.processes q).shmAttachmentCount) ∧ s'.regions = (s.without i).regions ∧
      (∀ q, q ≠ pid → (s'.processes q).phase = .idle) ∧
      (s'.processes pid).phase = if needsReap then .detachReaping shmId else .idle := by
  have hwithout := h.ledger.without huse
  have hproc := (s.without_frame i).1
  have hphase := hwithout.1.setPhase pid (.detachUnmapping shmId virtAddr pageCount needsReap)
  have hcount : ∀ q, (s.without i).holding q + (if pid = q then 1 else 0) = (s.processes q).shmAttachmentCount := by
    intro q
    rw [← h.counts q, ← h.ledger.books.holding_without huse q, hpid]
  rw [shmDetachUnmap_of_phase (setPhase_phase _ _ _) others] at hs'
  have hunmap := hphase.1.unmap pid virtAddr pageCount others
  have hframe := vmSpaceUnmapUserPages_frame ((s.without i).setPhase pid (.detachUnmapping shmId virtAddr pageCount needsReap)) pid virtAddr
    pageCount others
  have hregions := vmSpaceUnmapUserPages_regions ((s.without i).setPhase pid (.detachUnmapping shmId virtAddr pageCount needsReap)) pid virtAddr
    pageCount others
  have hself : ((s.without i).setPhase pid (.detachUnmapping shmId virtAddr pageCount needsReap)).processes pid =
      { s.processes pid with phase := .detachUnmapping shmId virtAddr pageCount needsReap } := by
    rw [Shm.setPhase, setProcess_self, hproc]
  have hother : ∀ q, q ≠ pid →
      ((s.without i).setPhase pid (.detachUnmapping shmId virtAddr pageCount needsReap)).processes q = s.processes q := by
    intro q hq
    rw [Shm.setPhase, setProcess_of_ne hq, hproc]
  have hatts : ((s.without i).setPhase pid (.detachUnmapping shmId virtAddr pageCount needsReap)).attachments = (s.without i).attachments := rfl
  have hwregions : ((s.without i).setPhase pid (.detachUnmapping shmId virtAddr pageCount needsReap)).regions = (s.without i).regions := rfl
  rw [hself] at hs'
  generalize (s.without i).setPhase pid (.detachUnmapping shmId virtAddr pageCount needsReap) = w at *
  generalize vmSpaceUnmapUserPages w pid virtAddr pageCount others = u at *
  have hposCount := hcount pid
  rw [if_pos rfl] at hposCount
  have hnewCount : (detachedProcess { s.processes pid with phase := .detachUnmapping shmId virtAddr pageCount needsReap } pid
      (if needsReap then .detachReaping shmId else .idle)).shmAttachmentCount = (s.without i).holding pid := by
    simp only [detachedProcess]
    rw [if_pos (by omega)]
    omega
  have huholding : ∀ q, u.holding q = (s.without i).holding q := by
    intro q
    rw [Shm.holding, hframe.2, hatts, ← Shm.holding]
  have hset : Settles u (u.setProcess pid (detachedProcess { s.processes pid with
      phase := .detachUnmapping shmId virtAddr pageCount needsReap } pid (if needsReap then .detachReaping shmId else .idle))) := by
    apply hunmap.1.setProcess
    · simp only [detachedProcess]
      rw [if_pos (show 0 < (s.processes pid).shmAttachmentCount by omega)]
      split
      · exact shmCursorStart_lt pid
      · exact h.ledger.books.cursor pid
    · intro j hj hjpid
      have hpos : 0 < u.holding pid := tally_pos_iff.mpr ⟨j, Finset.mem_range.mpr (hunmap.1.books.slot j hj), hj, hjpid⟩
      rw [huholding, ← hnewCount] at hpos
      simp only [detachedProcess] at hpos ⊢
      rw [if_neg (Nat.pos_iff_ne_zero.mp hpos)]
      have hbelow := hunmap.1.books.below j hj
      rw [hjpid, hframe.1, hself] at hbelow
      exact hbelow
  rw [← hs'] at hset
  refine ⟨hwithout.trans (hphase.trans (hunmap.trans hset)), fun q => ?_, ?_, fun q hq => ?_, ?_⟩
  · have hheld : s'.holding q = (s.without i).holding q := by
      rw [← huholding q, hs']
      rfl
    rw [hheld, hs']
    by_cases hq : q = pid
    · rw [hq, setProcess_self, hnewCount]
    · have hold := hcount q
      rw [if_neg (Ne.symm hq)] at hold
      rw [setProcess_of_ne hq, hframe.1, hother q hq]
      exact hold
  · rw [hs']
    exact hregions.trans hwregions
  · rw [hs', setProcess_of_ne hq, hframe.1, hother q hq]
    exact h.idle q
  · rw [hs', setProcess_self]
    rfl

theorem shmDetach_rest (h : ShmRest s) (pid virtAddr : Nat) (others : Bool) :
    ShmRest (shmDetach s pid virtAddr others) ∧ Settles s (shmDetach s pid virtAddr others) := by
  have hrefused : shmDetachBegin s pid virtAddr = s → shmDetach s pid virtAddr others = s := by
    intro heq
    simp only [shmDetach, heq, shmDetachUnmap, shmDetachReap, h.idle pid]
  by_cases hvirt : virtAddr = 0
  · rw [hrefused (by simp only [shmDetachBegin, if_pos hvirt])]
    exact ⟨h, Settles.refl h.ledger⟩
  cases hfind : shmFindAttachmentByAddr s pid virtAddr with
  | none =>
      rw [hrefused (by simp only [shmDetachBegin, if_neg hvirt, hfind])]
      exact ⟨h, Settles.refl h.ledger⟩
  | some i =>
      obtain ⟨huse, hpid, -⟩ := shmFindAttachmentByAddr_some hfind
      rw [shmDetach, shmDetachBegin_of_found hvirt hfind]
      obtain ⟨hsettles, hcounts, hregions, hidle, hphase⟩ := h.detached huse hpid (s.attachments i).shmId virtAddr
        (s.attachments i).pageCount (overdue (s.without i) (s.attachments i).shmId) others rfl
      generalize shmDetachUnmap _ pid others = s' at *
      have hwithout := h.ledger.without huse
      cases hneeds : overdue (s.without i) (s.attachments i).shmId with
      | false =>
          rw [hneeds] at hphase
          have hstay : shmDetachReap s' pid = s' := by simp only [shmDetachReap, hphase, Bool.false_eq_true, if_false]
          rw [hstay]
          refine ⟨⟨hsettles.1, fun q => ?_, hcounts, fun j huseJ hpending hrefs => ?_⟩, hsettles⟩
          · by_cases hq : q = pid
            · rw [hq]
              exact hphase
            · exact hidle q hq
          · -- an overdue region would be the one of the attachment
            rw [hregions] at huseJ hpending hrefs
            have hid := h.without_overdue huse huseJ hpending hrefs
            have hfindJ := hwithout.1.books.find_eq huseJ
            rw [hid] at hfindJ
            rw [overdue, hfindJ] at hneeds
            simp [hpending, hrefs] at hneeds
      | true =>
          rw [hneeds, if_pos rfl] at hphase
          rw [overdue] at hneeds
          split at hneeds
          · rename_i r hfindR
            have hfindS : shmFindRegion s' (s.attachments i).shmId = some r := by
              rw [shmFindRegion, hregions, ← hfindR]
              rfl
            have hreap : shmDetachReap s' pid = (shmReapRegion s' r).setPhase pid .idle := by
              simp only [shmDetachReap, hphase, hfindS]
            obtain ⟨hproc, hatts, -⟩ := shmReapRegion_frame s' r
            have hreaped := hsettles.1.reap r
            have hlast := hreaped.1.setPhase pid .idle
            rw [hreap]
            refine ⟨⟨hlast.1, fun q => ?_, fun q => ?_, fun j huseJ hpending hrefs => ?_⟩, hsettles.trans (hreaped.trans hlast)⟩
            · by_cases hq : q = pid
              · rw [hq]
                exact setPhase_phase _ _ _
              · rw [Shm.setPhase, setProcess_of_ne hq, hproc]
                exact hidle q hq
            · have hheld : ((shmReapRegion s' r).setPhase pid .idle).holding q = s'.holding q := by
                change (shmReapRegion s' r).holding q = s'.holding q
                rw [Shm.holding, hatts, ← Shm.holding]
              rw [hheld, hcounts q, ← hproc]
              exact (setPhase_count _ pid .idle q).symm
            · obtain ⟨hjr, hsame⟩ := shmReapRegion_overdue huseJ hpending hrefs
              change ((shmReapRegion s' r).regions j).inUse = true at huseJ
              change ((shmReapRegion s' r).regions j).destroyPending = true at hpending
              change ((shmReapRegion s' r).regions j).refCount = 0 at hrefs
              rw [hsame, hregions] at huseJ hpending hrefs
              have hid := h.without_overdue huse huseJ hpending hrefs
              obtain ⟨-, huseR, hidR⟩ := shmFindRegion_some hfindR
              exact hjr (hwithout.1.books.idUnique j r huseJ huseR (hid.trans hidR.symm))
          · cases hneeds

end Detach

section Cleanup

variable {s : Shm} {pid target : Nat}

/-- The attachments of a process are given up one after the other. -/
theorem ShmLedger.cleanupDrops (h : ShmLedger s) {is : List Nat} (hnodup : is.Nodup) (his : ∀ i ∈ is, (s.attachments i).inUse = true) :
    Settles s (is.foldl cleanupDrop s) := by
  induction is generalizing s with
  | nil => exact Settles.refl h
  | cons i is ih =>
      obtain ⟨hfresh, hrest⟩ := List.nodup_cons.mp hnodup
      have hwithout := h.without (his i List.mem_cons_self)
      have hfold := ih hwithout.1 hrest fun j hj => by
        have hji : j ≠ i := fun heq => hfresh (heq ▸ hj)
        rw [s.without_attachments_of_ne hji]
        exact his j (List.mem_cons_of_mem i hj)
      rw [List.foldl_cons, cleanupDrop_eq]
      exact hwithout.trans hfold

theorem ShmLedger.disown (h : ShmLedger s) (target : Nat) : Settles s (cleanupDisown s target) := by
  apply h.setRegions
  intro j
  simp only
  split
  · exact ⟨rfl, rfl, rfl⟩
  · exact ⟨rfl, rfl, rfl⟩

/-- The unmaps leave the tables alone and come to an end. -/
theorem ShmLedger.cleanupUnmaps (h : ShmLedger s) {todo : List ShmAttachment} {ids : List Int} {n : Nat} (others : Bool)
    (hphase : (s.processes pid).phase = .cleaning target todo ids) (hlength : todo.length ≤ n) {s' : Shm}
    (hs' : s' = (fun s => shmCleanupUnmap s pid others)^[n] s) :
    Settles s s' ∧ s'.attachments = s.attachments ∧ (∀ q, q ≠ pid → s'.processes q = s.processes q) ∧
      s'.processes pid = { s.processes pid with phase := .cleaning target [] ids } := by
  induction n generalizing s todo with
  | zero =>
      have hnil : todo = [] := List.length_eq_zero_iff.mp (Nat.le_zero.mp hlength)
      rw [hnil] at hphase
      rw [hs', Function.iterate_zero_apply]
      refine ⟨Settles.refl h, rfl, fun _ _ => rfl, ?_⟩
      rw [← hphase]
  | succ n ih =>
      rw [Function.iterate_succ_apply] at hs'
      cases todo with
      | nil =>
          have hstay : shmCleanupUnmap s pid others = s := by simp only [shmCleanupUnmap, hphase]
          rw [hstay] at hs'
          exact ih h hphase (Nat.zero_le n) hs'
      | cons att todo =>
          have hstep : shmCleanupUnmap s pid others =
              (vmSpaceUnmapUserPages s target att.virtBase att.pageCount others).setPhase pid (.cleaning target todo ids) := by
            simp only [shmCleanupUnmap, hphase]
          have hunmap := h.unmap target att.virtBase att.pageCount others
          have hset := hunmap.1.setPhase pid (.cleaning target todo ids)
          obtain ⟨hproc, hatts⟩ := vmSpaceUnmapUserPages_frame s target att.virtBase att.pageCount others
          rw [hstep] at hs'
          obtain ⟨hsettles, hatts', hothers, hself⟩ := ih hset.1 (setPhase_phase _ _ _) (by simpa using hlength) hs'
          refine ⟨hunmap.trans (hset.trans hsettles), hatts'.trans hatts, fun q hq => ?_, ?_⟩
          · rw [hothers q hq, Shm.setPhase, setProcess_of_ne hq, hproc]
          · rw [hself, Shm.setPhase, setProcess_self, hproc]

/-- A loop each round of which reaps a region or does nothing. -/
theorem ShmLedger.reaps {α : Type*} {round : Shm → α → Shm} (hround : ∀ s x, round s x = s ∨ ∃ i, round s x = shmReapRegion s i)
    (h : ShmLedger s) (xs : List α) : Settles s (xs.foldl round s) ∧ (xs.foldl round s).processes = s.processes ∧
      (xs.foldl round s).attachments = s.attachments ∧
      ∀ j, ((xs.foldl round s).regions j).inUse = true → (xs.foldl round s).regions j = s.regions j := by
  induction xs generalizing s with
  | nil => exact ⟨Settles.refl h, rfl, rfl, fun _ _ => rfl⟩
  | cons x xs ih =>
      rw [List.foldl_cons]
      rcases hround s x with hsame | ⟨i, hreap⟩
      · rw [hsame]
        exact ih h
      · rw [hreap]
        obtain ⟨hproc, hatts, hregions⟩ := shmReapRegion_frame s i
        obtain ⟨hsettles, hproc', hatts', hregions'⟩ := ih (h.reap i).1
        refine ⟨(h.reap i).trans hsettles, hproc'.trans hproc, hatts'.trans hatts, fun j hj => ?_⟩
        have heq := hregions' j hj
        rw [heq] at hj ⊢
        exact hregions j hj

/-- After the sweep over the table no region is overdue. -/
theorem ShmLedger.sweep (h : ShmLedger s) : ((List.range shmMaxRegions).foldl cleanupSweep s).NoneOverdue := by
  have hsweep : ∀ n, ∀ j < n, (((List.range n).foldl cleanupSweep s).regions j).inUse = true →
      (((List.range n).foldl cleanupSweep s).regions j).destroyPending = true →
      (((List.range n).foldl cleanupSweep s).regions j).refCount ≠ 0 := by
    intro n
    induction n with
    | zero => exact nofun
    | succ n ih =>
        intro j hj huse hpending hrefs
        rw [List.range_succ, List.foldl_append, List.foldl_cons, List.foldl_nil] at huse hpending hrefs
        generalize (List.range n).foldl cleanupSweep s = w at *
        rw [cleanupSweep] at huse hpending hrefs
        split at huse
        · rename_i hin
          rw [if_pos hin] at hpending hrefs
          obtain ⟨hjn, hsame⟩ := shmReapRegion_overdue huse hpending hrefs
          rw [hsame] at huse hpending hrefs
          exact ih j (by omega) huse hpending hrefs
        · rename_i hout
          rw [if_neg hout] at hpending hrefs
          have hjn : j ≠ n := by
            intro heq
            rw [heq] at huse
            exact hout huse
          exact ih j (by omega) huse hpending hrefs
  intro j huse
  exact hsweep shmMaxRegions j ((h.reaps cleanupSweep_eq (List.range shmMaxRegions)).1.1.books.regionSlot j huse) huse

/-- The tables before the second section of a cleanup: the process has no attachment, and nothing else of the counts has changed. -/
theorem ShmRest.cleaned (h : ShmRest s) (pid target : Nat) (others : Bool) {s' : Shm}
    (hs' : s' = (fun s => shmCleanupUnmap s pid others)^[shmMaxAttachments] (shmCleanupBegin s pid target)) :
    Settles s s' ∧ (∀ j, (s'.attachments j).inUse = true → (s'.attachments j).pid ≠ target) ∧
      (∀ q, q ≠ target → s'.holding q = (s'.processes q).shmAttachmentCount) ∧ (∀ q, q ≠ pid → (s'.processes q).phase = .idle) ∧
      ∃ ids, (s'.processes pid).phase = .cleaning target [] ids := by
  have hheld : ∀ i ∈ attachmentsOf s target, (s.attachments i).inUse = true := fun i hi => (mem_attachmentsOf.mp hi).2.1
  have hdrops := h.ledger.cleanupDrops (attachmentsOf_nodup s target) hheld
  obtain ⟨hproc, -, hatts⟩ := cleanupDrops_frame s (attachmentsOf_nodup s target)
  have hdisown := hdrops.1.disown target
  have hbegin : shmCleanupBegin s pid target = (cleanupDisown ((attachmentsOf s target).foldl cleanupDrop s) target).setPhase pid
      (.cleaning target ((attachmentsOf s target).map s.attachments)
        (((attachmentsOf s target).map s.attachments).map ShmAttachment.shmId)) := rfl
  have hlength : ((attachmentsOf s target).map s.attachments).length ≤ shmMaxAttachments := by
    rw [List.length_map, attachmentsOf]
    have hle := List.length_filter_le (fun i => (s.attachments i).inUse && decide ((s.attachments i).pid = target)) (List.range shmMaxAttachments)
    rwa [List.length_range] at hle
  rw [hbegin] at hs'
  have hphase := hdisown.1.setPhase pid (.cleaning target ((attachmentsOf s target).map s.attachments)
    (((attachmentsOf s target).map s.attachments).map ShmAttachment.shmId))
  obtain ⟨hunmaps, hatts', hothers, hself⟩ := hphase.1.cleanupUnmaps others (setPhase_phase _ _ _) hlength hs'
  have hattsFinal : ∀ j, s'.attachments j = if j ∈ attachmentsOf s target then { s.attachments j with inUse := false } else s.attachments j :=
    fun j => (congrFun hatts' j).trans (hatts j)
  have hcount : ∀ q, (s'.processes q).shmAttachmentCount = (s.processes q).shmAttachmentCount := by
    intro q
    by_cases hq : q = pid
    · rw [hq, hself]
      simp only
      rw [setPhase_count]
      exact congrArg ShmProcess.shmAttachmentCount (congrFun hproc pid)
    · rw [hothers q hq, setPhase_count]
      exact congrArg ShmProcess.shmAttachmentCount (congrFun hproc q)
  refine ⟨hdrops.trans (hdisown.trans (hphase.trans hunmaps)), fun j hj => ?_, fun q hq => ?_, fun q hq => ?_,
    ((attachmentsOf s target).map s.attachments).map ShmAttachment.shmId, by rw [hself]⟩
  · rw [hattsFinal j] at hj ⊢
    split at hj
    · cases hj
    · rename_i hout
      rw [if_neg hout]
      exact fun hpid => hout (mem_attachmentsOf.mpr ⟨h.ledger.books.slot j hj, hj, hpid⟩)
  · rw [hcount q, ← h.counts q]
    apply tally_congr
    intro j _
    rw [hattsFinal j]
    split
    · rename_i hin
      have hpid := (mem_attachmentsOf.mp hin).2.2
      simp only [Bool.false_eq_true, false_and, false_iff, not_and]
      exact fun _ heq => hq (heq.symm.trans hpid)
    · exact Iff.rfl
  · rw [hothers q hq, Shm.setPhase, setProcess_of_ne hq]
    exact (congrArg ShmProcess.phase (congrFun hproc q)).trans (h.idle q)

theorem shmProcessCleanup_rest (h : ShmRest s) (pid target : Nat) (others : Bool) :
    ShmRest (shmProcessCleanup s pid target others) ∧ Settles s (shmProcessCleanup s pid target others) := by
  rw [shmProcessCleanup]
  obtain ⟨hsettles, hnone, hcounts, hidle, ids, hphase⟩ := h.cleaned pid target others rfl
  generalize (fun s => shmCleanupUnmap s pid others)^[shmMaxAttachments] (shmCleanupBegin s pid target) = w at *
  have hfinish : shmCleanupFinish w pid = ((List.range shmMaxRegions).foldl cleanupSweep (ids.foldl cleanupReap
      (w.setProcess target { w.processes target with shmAttachmentCount := 0, shmCursor := shmCursorStart target }))).setPhase pid .idle := by
    simp only [shmCleanupFinish, hphase]
  rw [hfinish]
  have hreset : Settles w (w.setProcess target { w.processes target with shmAttachmentCount := 0, shmCursor := shmCursorStart target }) :=
    hsettles.1.setProcess (shmCursorStart_lt target) fun j hj hpid => absurd hpid (hnone j hj)
  have hresetOther : ∀ q, q ≠ target → (w.setProcess target { w.processes target with
      shmAttachmentCount := 0, shmCursor := shmCursorStart target }).processes q = w.processes q := fun q hq => setProcess_of_ne hq _
  have hresetSelf := setProcess_self w target { w.processes target with shmAttachmentCount := 0, shmCursor := shmCursorStart target }
  have hresetAtts : (w.setProcess target { w.processes target with
      shmAttachmentCount := 0, shmCursor := shmCursorStart target }).attachments = w.attachments := rfl
  generalize w.setProcess target { w.processes target with shmAttachmentCount := 0, shmCursor := shmCursorStart target } = v at *
  obtain ⟨hreaps, hprocR, hattsR, -⟩ := hreset.1.reaps cleanupReap_eq ids
  obtain ⟨hsweeps, hprocS, hattsS, -⟩ := hreaps.1.reaps cleanupSweep_eq (List.range shmMaxRegions)
  have hoverdue := hreaps.1.sweep
  have hproc := hprocS.trans hprocR
  have hatts := hattsS.trans (hattsR.trans hresetAtts)
  generalize (List.range shmMaxRegions).foldl cleanupSweep (ids.foldl cleanupReap v) = u at *
  have hlast := hsweeps.1.setPhase pid .idle
  refine ⟨⟨hlast.1, fun q => ?_, fun q => ?_, hoverdue⟩,
    hsettles.trans (hreset.trans (hreaps.trans (hsweeps.trans hlast)))⟩
  · by_cases hq : q = pid
    · rw [hq]
      exact setPhase_phase _ _ _
    · rw [Shm.setPhase, setProcess_of_ne hq, hproc]
      by_cases hqt : q = target
      · rw [hqt, hresetSelf]
        rw [hqt] at hq
        exact hidle target hq
      · rw [hresetOther q hqt]
        exact hidle q hq
  · have hheld : (u.setPhase pid .idle).holding q = w.holding q := by
      change u.holding q = w.holding q
      rw [Shm.holding, hatts, ← Shm.holding]
    rw [hheld, setPhase_count, hproc]
    by_cases hqt : q = target
    · rw [hqt, hresetSelf]
      exact tally_eq_zero fun j _ hj => hnone j hj.1 hj.2
    · rw [hresetOther q hqt]
      exact hcounts q hqt

end Cleanup

end Tsukasa
