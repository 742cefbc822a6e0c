import Tsukasa.Ipc.ShmInv

/-!
# The shared-memory calls and their invariant

The invariant of the whole machine: what the tables and the page tables keep, with the windows of the calls under way; an attach under way has its attachment in the table; a process that is being cleaned up has none; and the attachment counter of a process, from which the reset of its address cursor is decided, is right.
-/

namespace Tsukasa

open Lib

/-- Process `t` is cleaning up after `target`. -/
def Shm.Cleans (s : Shm) (t target : Nat) : Prop := ∃ todo ids, (s.processes t).phase = .cleaning target todo ids

/-- The number of attachments of a process. -/
def Shm.holding (s : Shm) (pid : Nat) : Nat :=
  tally (Finset.range shmMaxAttachments) (fun a : ShmAttachment => a.inUse = true ∧ a.pid = pid) s.attachments

/-- How the counter of a process stands to the number of its attachments. -/
def ShmPhase.CountOk (phase : ShmPhase) (holding count : Nat) : Prop :=
  match phase with
  | .attachMapping .. => holding = count + 1
  | .attachFailed .. => holding = count + 1
  | .detachUnmapping .. => count = holding + 1 ∨ holding = 0 ∧ count = 0
  | _ => holding = count

/-- The attachment that an attach under way has entered in the table. -/
def ShmPhase.Entered (pid : Nat) (a : ShmAttachment) : ShmPhase → Prop
  | .attachMapping shmId virtAddr _ pageCount => a = ⟨true, shmId, pid, virtAddr, pageCount⟩
  | .attachFailed shmId virtAddr => ∃ pageCount, a = ⟨true, shmId, pid, virtAddr, pageCount⟩
  | _ => False

structure ShmInv (s : Shm) : Prop where
  core : ShmCore s s.windows
  entered : ∀ pid, (s.processes pid).phase.attaching ≠ none → ∃ i, (s.processes pid).phase.Entered pid (s.attachments i)
  todoPid : ∀ t target todo ids, (s.processes t).phase = .cleaning target todo ids → ∀ w ∈ todo, w.pid = target
  cleaned : ∀ t target, s.Cleans t target →
    (∀ i, (s.attachments i).inUse = true → (s.attachments i).pid ≠ target) ∧ (s.processes target).phase.attaching = none
  counts : ∀ pid, (∃ t, s.Cleans t pid) ∨
    (s.processes pid).phase.CountOk (s.holding pid) (s.processes pid).shmAttachmentCount

/-! ### Calls that change regions only -/

section Regions

variable {s s' : Shm} {pid : Nat}

theorem ShmInv.of_core (h : ShmInv s) (hproc : s'.processes = s.processes) (hatt : s'.attachments = s.attachments)
    (hcore : ShmCore s' s.windows) : ShmInv s' := by
  have hwindows : s'.windows = s.windows := by
    funext t
    rw [Shm.windows, Shm.windows, hproc]
  have hcleans : ∀ t target, s'.Cleans t target ↔ s.Cleans t target := by
    intro t target
    rw [Shm.Cleans, Shm.Cleans, hproc]
  refine ⟨hwindows ▸ hcore, ?_, ?_, ?_, ?_⟩
  · rw [hproc, hatt]
    exact h.entered
  · rw [hproc]
    exact h.todoPid
  · intro t target hclean
    rw [hproc, hatt]
    exact h.cleaned t target ((hcleans t target).mp hclean)
  · intro pid
    simp only [hcleans, Shm.holding, hproc, hatt]
    exact h.counts pid

/-- The phase of a process changes, between phases outside an attach, a detach's unmap and a cleanup. -/
theorem ShmInv.setPhase (h : ShmInv s) {phase : ShmPhase}
    (hbefore : (s.processes pid).phase.attaching = none ∧ (s.processes pid).phase.pending pid = [] ∧
      (∀ target todo ids, (s.processes pid).phase ≠ .cleaning target todo ids) ∧
      ∀ holding count, (s.processes pid).phase.CountOk holding count ↔ holding = count)
    (hafter : phase.attaching = none ∧ phase.pending pid = [] ∧ (∀ target todo ids, phase ≠ .cleaning target todo ids) ∧
      ∀ holding count, phase.CountOk holding count ↔ holding = count) : ShmInv (s.setPhase pid phase) := by
  have hself : ((s.setPhase pid phase).processes pid).phase = phase := by simp [Shm.setPhase, Shm.setProcess]
  have hother : ∀ q ≠ pid, (s.setPhase pid phase).processes q = s.processes q := fun q hq => Function.update_of_ne hq _ _
  have hcleans : ∀ t target, (s.setPhase pid phase).Cleans t target ↔ s.Cleans t target := by
    intro t target
    by_cases heq : t = pid
    · rw [heq]
      constructor
      · rintro ⟨todo, ids, hphase⟩
        exact absurd (hself ▸ hphase) (hafter.2.2.1 target todo ids)
      · rintro ⟨todo, ids, hphase⟩
        exact absurd hphase (hbefore.2.2.1 target todo ids)
    · rw [Shm.Cleans, Shm.Cleans, hother t heq]
  have hattaching : ∀ q, ((s.setPhase pid phase).processes q).phase.attaching = (s.processes q).phase.attaching := by
    intro q
    by_cases heq : q = pid
    · rw [heq, hself, hafter.1, hbefore.1]
    · rw [hother q heq]
  refine ⟨?_, ?_, ?_, ?_, ?_⟩
  · have hwindows : (s.setPhase pid phase).windows = s.windows := by
      funext t
      by_cases heq : t = pid
      · rw [heq, Shm.windows, Shm.windows, hself, hafter.2.1, hbefore.2.1]
      · rw [Shm.windows, Shm.windows, hother t heq]
    rw [hwindows]
    exact h.core.setPhase (hafter.1.trans hbefore.1.symm)
  · intro q hq
    rw [hattaching] at hq
    have hne : q ≠ pid := fun heq => hq (heq ▸ hbefore.1)
    rw [hother q hne]
    exact h.entered q hq
  · intro t target todo ids hphase
    by_cases heq : t = pid
    · rw [heq, hself] at hphase
      exact absurd hphase (hafter.2.2.1 target todo ids)
    · rw [hother t heq] at hphase
      exact h.todoPid t target todo ids hphase
  · intro t target hclean
    rw [hattaching]
    exact h.cleaned t target ((hcleans t target).mp hclean)
  · intro q
    simp only [hcleans]
    refine (h.counts q).imp_right fun hcount => ?_
    by_cases heq : q = pid
    · rw [heq] at hcount ⊢
      rw [hself, hafter.2.2.2]
      have hcounter : ((s.setPhase pid phase).processes pid).shmAttachmentCount = (s.processes pid).shmAttachmentCount := by
        simp [Shm.setPhase, Shm.setProcess]
      rw [hcounter]
      exact (hbefore.2.2.2 _ _).mp hcount
    · rw [hother q heq]
      exact hcount

theorem shmReapRegion_frame (s : Shm) (i : Nat) :
    (shmReapRegion s i).processes = s.processes ∧ (shmReapRegion s i).attachments = s.attachments ∧
      ∀ j, ((shmReapRegion s i).regions j).inUse = true → (shmReapRegion s i).regions j = s.regions j := by
  have hzeroed : ∀ j, ((s.setRegion i ShmRegion.zeroed).regions j).inUse = true →
      (s.setRegion i ShmRegion.zeroed).regions j = s.regions j := by
    intro j hj
    have hji : j ≠ i := by
      rintro rfl
      simp [ShmRegion.zeroed] at hj
    exact setRegion_of_ne hji _
  simp only [shmReapRegion]
  split
  · exact ⟨rfl, rfl, fun _ _ => rfl⟩
  split
  · exact ⟨rfl, rfl, hzeroed⟩
  · exact ⟨rfl, rfl, hzeroed⟩

theorem shmCreate_inv (h : ShmInv s) (hnext : s.nextShmId < 2 ^ 31 - 1) (size phys : Nat) : ShmInv (shmCreate s pid size phys) := by
  have hcore := h.core.create hnext pid size phys
  refine h.of_core ?_ ?_ hcore
  · simp only [shmCreate]
    split
    · rfl
    split
    · rfl
    split <;> rfl
  · simp only [shmCreate]
    split
    · rfl
    split
    · rfl
    split <;> rfl

theorem shmDestroy_inv (h : ShmInv s) {shmId : Int}
    (hwindow : ∀ r, shmFindRegion s shmId = some r → (s.regions r).refCount = 0 → NoWindow s.windows shmId) :
    ShmInv (shmDestroy s shmId) := by
  simp only [shmDestroy]
  split
  · exact h
  split
  · exact h
  rename_i r hr
  obtain ⟨-, -, hid⟩ := shmFindRegion_some hr
  split
  · exact h
  rename_i hrefs
  obtain ⟨hproc, hatt, -⟩ := shmReapRegion_frame (s.setRegion r { s.regions r with destroyPending := true }) r
  refine h.of_core hproc hatt (ShmCore.reap (h.core.setRegions fun j => ?_) fun _ _ _ => ?_)
  · by_cases hjr : j = r
    · rw [hjr, Function.update_self]
      exact ⟨rfl, rfl, rfl⟩
    · rw [Function.update_of_ne hjr]
      exact ⟨rfl, rfl, rfl⟩
  · rw [setRegion_self]
    change NoWindow s.windows (s.regions r).id
    rw [hid]
    exact hwindow r hr (by omega)

theorem shmDetachReap_inv (h : ShmInv s)
    (hwindow : ∀ shmId r, (s.processes pid).phase = .detachReaping shmId → shmFindRegion s shmId = some r →
      (s.regions r).destroyPending = true → (s.regions r).refCount = 0 → NoWindow s.windows shmId) : ShmInv (shmDetachReap s pid) := by
  simp only [shmDetachReap]
  split
  · rename_i shmId hphase
    have hidle : ∀ w : Shm, ShmInv w → w.processes = s.processes → ShmInv (w.setPhase pid .idle) := by
      intro w hw hproc
      refine hw.setPhase ?_ ⟨rfl, rfl, by simp, fun _ _ => Iff.rfl⟩
      rw [hproc, hphase]
      exact ⟨rfl, rfl, by simp, fun _ _ => Iff.rfl⟩
    split
    · rename_i r hr
      obtain ⟨-, -, hid⟩ := shmFindRegion_some hr
      obtain ⟨hproc, hatt, -⟩ := shmReapRegion_frame s r
      apply hidle _ (h.of_core hproc hatt (h.core.reap fun _ hpending hrefs => ?_)) hproc
      rw [hid]
      exact hwindow shmId r hphase hr hpending hrefs
    · exact hidle s h rfl
  · exact h

end Regions

/-! ### Steps of one process -/

section Step

variable {s s' : Shm} {pid : Nat}

theorem windows_eq_update (hother : ∀ q ≠ pid, s'.processes q = s.processes q) : s'.windows = Function.update s.windows pid (s'.windows pid) := by
  funext t
  by_cases heq : t = pid
  · rw [heq, Function.update_self]
  · rw [Function.update_of_ne heq, Shm.windows, Shm.windows, hother t heq]

theorem ShmPhase.Entered.inUse {phase : ShmPhase} {a : ShmAttachment} (h : phase.Entered pid a) : a.inUse = true ∧ a.pid = pid := by
  cases phase with
  | attachMapping shmId virtAddr physBase pageCount =>
      rw [ShmPhase.Entered] at h
      rw [h]
      exact ⟨rfl, rfl⟩
  | attachFailed shmId virtAddr =>
      obtain ⟨pageCount, h⟩ := h
      rw [h]
      exact ⟨rfl, rfl⟩
  | idle => exact h.elim
  | detachUnmapping => exact h.elim
  | detachReaping => exact h.elim
  | cleaning => exact h.elim

/-- A step of one process that takes attachments out of the table, but not the one an attach of another process has entered. -/
theorem ShmInv.of_step (h : ShmInv s) (hcore : ShmCore s' s'.windows) (hother : ∀ q ≠ pid, s'.processes q = s.processes q)
    (hremoved : ∀ j, (s'.attachments j).inUse = true → s'.attachments j = s.attachments j)
    (hkept : ∀ q ≠ pid, (s.processes q).phase.attaching ≠ none → ∀ j, (s.attachments j).inUse = true →
      (s.attachments j).pid = q → s'.attachments j = s.attachments j)
    (hentered : (s'.processes pid).phase.attaching ≠ none →
      (s.processes pid).phase.attaching ≠ none ∧ ∃ i, (s'.processes pid).phase.Entered pid (s'.attachments i))
    (hcleans : ∀ target todo ids, (s'.processes pid).phase = .cleaning target todo ids →
      (∀ w ∈ todo, w.pid = target) ∧ (∀ j, (s'.attachments j).inUse = true → (s'.attachments j).pid ≠ target) ∧
        (s.processes target).phase.attaching = none)
    (hcounts : ∀ q, (∃ t, s'.Cleans t q) ∨ (s'.processes q).phase.CountOk (s'.holding q) (s'.processes q).shmAttachmentCount) :
    ShmInv s' := by
  have hattaching : ∀ q, (s.processes q).phase.attaching = none → (s'.processes q).phase.attaching = none := by
    intro q hq
    by_cases heq : q = pid
    · by_contra hne
      exact (hentered (heq ▸ hne)).1 (heq ▸ hq)
    · rwa [hother q heq]
  refine ⟨hcore, fun q hq => ?_, fun t target todo ids hphase => ?_, fun t target hclean => ?_, hcounts⟩
  · by_cases heq : q = pid
    · rw [heq] at hq ⊢
      exact (hentered hq).2
    · rw [hother q heq] at hq ⊢
      obtain ⟨j, hj⟩ := h.entered q hq
      refine ⟨j, ?_⟩
      rw [hkept q heq hq j hj.inUse.1 hj.inUse.2]
      exact hj
  · by_cases heq : t = pid
    · exact (hcleans target todo ids (heq ▸ hphase)).1
    · rw [hother t heq] at hphase
      exact h.todoPid t target todo ids hphase
  · by_cases heq : t = pid
    · obtain ⟨todo, ids, hphase⟩ := hclean
      obtain ⟨-, hgone, hidle⟩ := hcleans target todo ids (heq ▸ hphase)
      exact ⟨hgone, hattaching target hidle⟩
    · have hbefore : s.Cleans t target := by
        rwa [Shm.Cleans, ← hother t heq]
      obtain ⟨hgone, hidle⟩ := h.cleaned t target hbefore
      refine ⟨fun j hj => ?_, hattaching target hidle⟩
      have hsame := hremoved j hj
      rw [hsame] at hj ⊢
      exact hgone j hj

/-- What is known of the counters when the processes other than one and their attachments are as before. -/
theorem ShmInv.counts_of_step (h : ShmInv s) (hother : ∀ q ≠ pid, s'.processes q = s.processes q)
    (hholding : ∀ q ≠ pid, s'.holding q = s.holding q)
    (hcleans : ∀ q ≠ pid, s.Cleans pid q → ∃ t, s'.Cleans t q)
    (hself : (∃ t, s'.Cleans t pid) ∨ (s'.processes pid).phase.CountOk (s'.holding pid) (s'.processes pid).shmAttachmentCount) (q : Nat) :
    (∃ t, s'.Cleans t q) ∨ (s'.processes q).phase.CountOk (s'.holding q) (s'.processes q).shmAttachmentCount := by
  by_cases heq : q = pid
  · rw [heq]
    exact hself
  · rcases h.counts q with ⟨t, hclean⟩ | hcount
    · by_cases ht : t = pid
      · exact Or.inl (hcleans q heq (ht ▸ hclean))
      · refine Or.inl ⟨t, ?_⟩
        rwa [Shm.Cleans, hother t ht]
    · right
      rw [hother q heq, hholding q heq]
      exact hcount

end Step

/-! ### Attach -/

section Attach

variable {s : Shm} {pid : Nat}

theorem Shm.holding_le (s : Shm) (pid : Nat) : s.holding pid ≤ shmMaxAttachments := by
  have hcard := Finset.card_filter_le (Finset.range shmMaxAttachments)
    (fun k => (s.attachments k).inUse = true ∧ (s.attachments k).pid = pid)
  rwa [Finset.card_range] at hcard

theorem setPhase_phase (s : Shm) (pid : Nat) (phase : ShmPhase) : ((s.setPhase pid phase).processes pid).phase = phase := by
  simp [Shm.setPhase, Shm.setProcess]

theorem setProcess_of_ne {q : Nat} (hq : q ≠ pid) (p : ShmProcess) : (s.setProcess pid p).processes q = s.processes q :=
  Function.update_of_ne hq _ _

@[simp] theorem setProcess_self (s : Shm) (pid : Nat) (p : ShmProcess) : (s.setProcess pid p).processes pid = p :=
  Function.update_self _ _ _

/-- A process that is not in a call changes its cursor. -/
theorem ShmInv.setCursor (h : ShmInv s) {cursor : Nat} (hlt : cursor < 2 ^ 64)
    (hbelow : ∀ i, (s.attachments i).inUse = true → (s.attachments i).pid = pid → (s.attachments i).virtBase < cursor) :
    ShmInv (s.setProcess pid { s.processes pid with shmCursor := cursor }) := by
  have hphase : ∀ q, ((s.setProcess pid { s.processes pid with shmCursor := cursor }).processes q).phase = (s.processes q).phase :=
    setProcess_field ShmProcess.phase rfl
  have hcount : ∀ q, ((s.setProcess pid { s.processes pid with shmCursor := cursor }).processes q).shmAttachmentCount =
      (s.processes q).shmAttachmentCount := setProcess_field ShmProcess.shmAttachmentCount rfl
  refine ⟨?_, ?_, ?_, ?_, ?_⟩
  · have hwindows : (s.setProcess pid { s.processes pid with shmCursor := cursor }).windows = s.windows := by
      funext t
      rw [Shm.windows, Shm.windows, hphase]
    rw [hwindows]
    exact h.core.setProcess_same rfl rfl hlt hbelow
  · intro q
    rw [hphase]
    exact h.entered q
  · intro t
    rw [hphase]
    exact h.todoPid t
  · intro t target
    rw [Shm.Cleans, hphase, hphase]
    exact h.cleaned t target
  · intro q
    simp only [Shm.Cleans, hphase, hcount]
    exact h.counts q

@[simp] theorem setAttachment_self (s : Shm) (i : Nat) (a : ShmAttachment) : (s.setAttachment i a).attachments i = a :=
  Function.update_self _ _ _

theorem setAttachment_of_ne {i j : Nat} (hj : j ≠ i) (a : ShmAttachment) : (s.setAttachment i a).attachments j = s.attachments j :=
  Function.update_of_ne hj _ _

theorem holding_setAttachment {i : Nat} {a : ShmAttachment} (hlt : i < shmMaxAttachments) (hfree : (s.attachments i).inUse = false)
    (huse : a.inUse = true) (q : Nat) :
    (s.setAttachment i a).holding q = s.holding q + if a.pid = q then 1 else 0 := by
  have hupdate := tally_update (P := fun a : ShmAttachment => a.inUse = true ∧ a.pid = q) (g := s.attachments)
    (Finset.mem_range.mpr hlt) a
  simpa [Shm.holding, Shm.setAttachment, hfree, huse] using hupdate

/-- No call is about to unmap an attachment of a process that is in no call and not being cleaned up. -/
theorem ShmInv.window_ne (h : ShmInv s) (hidle : (s.processes pid).phase = .idle) (hclean : ∀ t, ¬s.Cleans t pid) {t : Nat} {w : ShmAttachment}
    (hw : w ∈ s.windows t) : w.pid ≠ pid := by
  intro heq
  cases hcase : (s.processes t).phase with
  | detachUnmapping k v n b =>
      rw [Shm.windows, hcase, ShmPhase.pending, List.mem_singleton] at hw
      rw [hw] at heq
      have htpid : t = pid := heq
      rw [htpid, hidle] at hcase
      cases hcase
  | cleaning target todo ids =>
      rw [Shm.windows, hcase, ShmPhase.pending] at hw
      have htarget := h.todoPid t target todo ids hcase w hw
      exact hclean t ⟨todo, ids, by rw [hcase, ← htarget, heq]⟩
  | idle => simp [Shm.windows, hcase, ShmPhase.pending] at hw
  | attachMapping => simp [Shm.windows, hcase, ShmPhase.pending] at hw
  | attachFailed => simp [Shm.windows, hcase, ShmPhase.pending] at hw
  | detachReaping => simp [Shm.windows, hcase, ShmPhase.pending] at hw

/-- Nor does it have a page of a region that it has not attached. -/
theorem ShmInv.entry_ne (h : ShmInv s) (hidle : (s.processes pid).phase = .idle) (hclean : ∀ t, ¬s.Cleans t pid) {shmId : Int}
    (hnone : ∀ j, (s.attachments j).inUse = true → (s.attachments j).key ≠ (pid, shmId)) {pml4 page : Nat} {e : ShmPage}
    (he : s.pageTables pml4 page = some e) (hpid : e.pid = pid) : e.shmId ≠ shmId := by
  intro heid
  rcases (h.core.held pml4 page e he).2 with ⟨j, hj, hkey, -⟩ | ⟨t, w, hw, hkey, -⟩
  · exact hnone j hj (by rw [hkey, hpid, heid])
  · exact h.window_ne hidle hclean hw ((congrArg Prod.fst hkey).trans hpid)

/-- The attachment is in the table and its attach is before its map. -/
theorem ShmInv.addAttachment (h : ShmInv s) (physBase pageCount : Nat) {i r cursor virtAddr : Nat} {shmId : Int}
    (hidle : (s.processes pid).phase = .idle) (hclean : ∀ t, ¬s.Cleans t pid) (hr : (s.regions r).inUse = true)
    (hid : (s.regions r).id = shmId) (hlt : i < shmMaxAttachments) (hfree : (s.attachments i).inUse = false)
    (hnone : ∀ j, (s.attachments j).inUse = true → (s.attachments j).key ≠ (pid, shmId))
    (hbelow : ∀ j, (s.attachments j).inUse = true → (s.attachments j).pid = pid → (s.attachments j).virtBase < virtAddr)
    (hvirt : virtAddr < cursor) (hcursor : cursor < 2 ^ 64) :
    ShmInv (((s.setProcess pid { s.processes pid with
      shmCursor := cursor, phase := .attachMapping shmId virtAddr physBase pageCount }).setAttachment i
        ⟨true, shmId, pid, virtAddr, pageCount⟩).setRegion r
          { s.regions r with refCount := wrap32 ((s.regions r).refCount + 1) }) := by
  generalize hp : { s.processes pid with shmCursor := cursor, phase := .attachMapping shmId virtAddr physBase pageCount } = p
  generalize ha : (⟨true, shmId, pid, virtAddr, pageCount⟩ : ShmAttachment) = a
  have huse : a.inUse = true := ha ▸ rfl
  have hpid : a.pid = pid := ha ▸ rfl
  have haid : a.shmId = shmId := ha ▸ rfl
  have hphase : p.phase = .attachMapping shmId virtAddr physBase pageCount := hp ▸ rfl
  have hattaching : p.phase.attaching = some shmId := by rw [hphase]; rfl
  have hcount : p.shmAttachmentCount = (s.processes pid).shmAttachmentCount := hp ▸ rfl
  have hother : ∀ q ≠ pid, (s.setProcess pid p).processes q = s.processes q := fun q hq => setProcess_of_ne hq p
  have hwindows : (s.setProcess pid p).windows = s.windows := by
    funext t
    by_cases heq : t = pid
    · rw [heq, Shm.windows, Shm.windows, setProcess_self, hphase, hidle]
      rfl
    · rw [Shm.windows, Shm.windows, hother t heq]
  have hcore : ShmCore (s.setProcess pid p) s.windows := by
    refine h.core.setProcess (by rw [← hp]) (fun j hj hjpid _ => ?_) (fun pml4 page e he hepid heq => ?_) (by rw [← hp]; exact hcursor)
      fun j hj hjpid => ?_
    · refine h.core.mapped j hj ?_
      rw [hjpid, hidle]
      exact nofun
    · rw [hattaching] at heq
      exact h.entry_ne hidle hclean hnone he hepid (Option.some.inj heq).symm
    · rw [← hp]
      exact lt_trans (hbelow j hj hjpid) hvirt
  have hcleans : ∀ t target, Shm.Cleans (((s.setProcess pid p).setAttachment i a).setRegion r
      { s.regions r with refCount := wrap32 ((s.regions r).refCount + 1) }) t target ↔ s.Cleans t target := by
    intro t target
    change (∃ todo ids, ((s.setProcess pid p).processes t).phase = _) ↔ _
    by_cases heq : t = pid
    · rw [heq, setProcess_self, hphase, Shm.Cleans, hidle]
      simp
    · rw [hother t heq]
      rfl
  refine ⟨?_, ?_, ?_, ?_, ?_⟩
  · change ShmCore _ (s.setProcess pid p).windows
    rw [hwindows]
    refine hcore.addAttachment hr hlt hfree huse (haid.trans hid.symm) ?_ ?_ ?_ ?_ ?_
    · intro j hj
      rw [ShmAttachment.key, ShmAttachment.key, hpid, haid]
      exact hnone j hj
    · intro j hj hjpid
      rw [← ha]
      exact ne_of_lt (hbelow j hj (hjpid.trans hpid))
    · intro t w hw heq
      exact h.window_ne hidle hclean hw ((congrArg Prod.fst heq).symm.trans hpid)
    · rw [hpid, haid, setProcess_self, hattaching]
    · rw [hpid, setProcess_self, ← ha, ← hp]
      exact hvirt
  · intro q hq
    change ∃ j, ((s.setProcess pid p).processes q).phase.Entered q ((s.setAttachment i a).attachments j)
    change ((s.setProcess pid p).processes q).phase.attaching ≠ none at hq
    by_cases heq : q = pid
    · refine ⟨i, ?_⟩
      rw [heq, setProcess_self, hphase, setAttachment_self, ← ha]
      rfl
    · rw [hother q heq] at hq ⊢
      obtain ⟨j, hj⟩ := h.entered q hq
      have hji : j ≠ i := by
        rintro rfl
        rw [hj.inUse.1] at hfree
        cases hfree
      refine ⟨j, ?_⟩
      rw [setAttachment_of_ne hji]
      exact hj
  · intro t target todo ids hcase
    change ((s.setProcess pid p).processes t).phase = _ at hcase
    by_cases heq : t = pid
    · rw [heq, setProcess_self, hphase] at hcase
      cases hcase
    · rw [hother t heq] at hcase
      exact h.todoPid t target todo ids hcase
  · intro t target hcl
    rw [hcleans] at hcl
    have htarget : target ≠ pid := fun heq => hclean t (heq ▸ hcl)
    obtain ⟨hgone, hidle'⟩ := h.cleaned t target hcl
    refine ⟨fun j hj => ?_, ?_⟩
    · change ((s.setAttachment i a).attachments j).pid ≠ target
      change ((s.setAttachment i a).attachments j).inUse = true at hj
      by_cases hji : j = i
      · rw [hji, setAttachment_self, hpid]
        exact htarget.symm
      · rw [setAttachment_of_ne hji] at hj ⊢
        exact hgone j hj
    · change ((s.setProcess pid p).processes target).phase.attaching = none
      rw [hother target htarget]
      exact hidle'
  · intro q
    simp only [hcleans]
    refine (h.counts q).imp_right fun hq => ?_
    change ((s.setProcess pid p).processes q).phase.CountOk ((s.setAttachment i a).holding q)
      ((s.setProcess pid p).processes q).shmAttachmentCount
    rw [holding_setAttachment hlt hfree huse, hpid]
    by_cases heq : q = pid
    · rw [heq] at hq ⊢
      rw [hidle] at hq
      have hsame : s.holding pid = (s.processes pid).shmAttachmentCount := hq
      rw [setProcess_self, hphase, hcount, if_pos rfl, hsame]
      rfl
    · rw [hother q heq, if_neg (Ne.symm heq), Nat.add_zero]
      exact hq

theorem shmAttachBegin_inv (h : ShmInv s) {shmId : Int} (hidle : (s.processes pid).phase = .idle) (hclean : ∀ t, ¬s.Cleans t pid) :
    ShmInv (shmAttachBegin s pid shmId) := by
  simp only [shmAttachBegin]
  split
  · exact h
  split
  · exact h
  rename_i r hr
  obtain ⟨-, huse, hid⟩ := shmFindRegion_some hr
  split
  · exact h
  rename_i hnone
  split
  · exact h
  rename_i hvirt
  obtain ⟨hle, hltVirt, hltCursor⟩ := vmSpaceReserveShmRange_spec (h.core.cursor pid) hvirt
  generalize vmSpaceReserveShmRange (s.processes pid).shmCursor (s.regions r).pageCount = reserved at *
  have hbelow : ∀ i, (s.attachments i).inUse = true → (s.attachments i).pid = pid → (s.attachments i).virtBase < reserved.1 := by
    intro i hi hpid
    have := h.core.below i hi
    rw [hpid] at this
    omega
  have hcursor := h.setCursor hltCursor fun i hi hpid => lt_trans (hbelow i hi hpid) hltVirt
  split
  · exact hcursor
  rename_i i hslot
  obtain ⟨hlt, hfree⟩ := shmAllocAttachment_some hslot
  have hkeys : ∀ j, (s.attachments j).inUse = true → (s.attachments j).key ≠ (pid, shmId) :=
    fun j hj => shmFindAttachment_none hnone (h.core.slot j hj) hj
  have hadded := h.addAttachment (s.regions r).physBase (s.regions r).pageCount hidle hclean huse hid hlt
    hfree hkeys hbelow hltVirt hltCursor
  convert hadded using 1
  simp only [Shm.setPhase, Shm.setProcess, Shm.setRegion, Shm.setAttachment, Function.update_self, Function.update_idem]

/-- What a map that succeeds has found and done. -/
theorem vmSpaceMapUserPages_true {shmId : Int} {virtAddr physBase pageCount : Nat} {free : Bool} {s' : Shm}
    (h : vmSpaceMapUserPages s pid shmId virtAddr physBase pageCount free = (true, s')) :
    pageCount ≠ 0 ∧ vmSpaceContainsUserRange virtAddr pageCount = true ∧
      (∀ i < pageCount, s.pageTables (s.processes pid).pml4Phys (pageNumber virtAddr i) = none) ∧
      s' = s.setPages (s.processes pid).pml4Phys virtAddr pageCount
        fun page => some ⟨physBase + (page - virtAddr / 4096) * 4096, shmId, pid⟩ := by
  simp only [vmSpaceMapUserPages] at h
  split at h
  · simp at h
  rename_i hvalid
  split at h
  · rename_i hfree
    simp only [Bool.and_eq_true, List.all_eq_true, List.mem_range, Bool.not_eq_true', pageMapped] at hfree
    simp only [Bool.or_eq_true, decide_eq_true_eq, Bool.not_eq_true', not_or, Bool.not_eq_false] at hvalid
    refine ⟨hvalid.1.1, hvalid.1.2, fun i hi => ?_, (Prod.mk.inj h).2.symm⟩
    simpa using hfree.2 i hi
  · simp at h

theorem vmSpaceMapUserPages_false {shmId : Int} {virtAddr physBase pageCount : Nat} {free : Bool} {s' : Shm}
    (h : vmSpaceMapUserPages s pid shmId virtAddr physBase pageCount free = (false, s')) : s' = s := by
  simp only [vmSpaceMapUserPages] at h
  split at h
  · exact (Prod.mk.inj h).2.symm
  split at h
  · simp at h
  · exact (Prod.mk.inj h).2.symm

theorem ShmInv.not_cleaned (h : ShmInv s) (hattaching : (s.processes pid).phase.attaching ≠ none) (t : Nat) : ¬s.Cleans t pid :=
  fun hclean => hattaching (h.cleaned t pid hclean).2

section Mapping

variable {shmId : Int} {virtAddr physBase pageCount : Nat} (h : ShmInv s)
  (hphase : (s.processes pid).phase = .attachMapping shmId virtAddr physBase pageCount)

include h hphase

theorem ShmInv.mapping_entered : ∃ i, s.attachments i = ⟨true, shmId, pid, virtAddr, pageCount⟩ := by
  obtain ⟨i, hi⟩ := h.entered pid (by rw [hphase]; exact nofun)
  rw [hphase] at hi
  exact ⟨i, hi⟩

theorem ShmInv.mapping_count : s.holding pid = (s.processes pid).shmAttachmentCount + 1 := by
  rcases h.counts pid with ⟨t, hclean⟩ | hcount
  · exact absurd hclean (h.not_cleaned (by rw [hphase]; exact nofun) t)
  · rwa [hphase] at hcount

theorem ShmInv.mapFailed : ShmInv (s.setPhase pid (.attachFailed shmId virtAddr)) := by
  obtain ⟨i, hi⟩ := h.mapping_entered hphase
  have hother : ∀ q ≠ pid, (s.setPhase pid (.attachFailed shmId virtAddr)).processes q = s.processes q :=
    fun q hq => setProcess_of_ne hq _
  have hself := setPhase_phase s pid (.attachFailed shmId virtAddr)
  have hwindows : (s.setPhase pid (.attachFailed shmId virtAddr)).windows = s.windows := by
    rw [windows_eq_update hother, Shm.windows, hself]
    refine Function.update_eq_iff.mpr ⟨?_, fun _ _ => rfl⟩
    rw [Shm.windows, hphase]
    rfl
  refine h.of_step ?_ hother (fun _ _ => rfl) (fun _ _ _ _ _ _ => rfl) (fun _ => ⟨?_, i, ?_⟩) (fun target todo ids hcase => ?_)
    (h.counts_of_step hother (fun _ _ => rfl) (fun q _ hclean => ?_) (Or.inr ?_))
  · rw [hwindows]
    exact h.core.setPhase (by rw [hphase]; rfl)
  · rw [hphase]
    exact nofun
  · rw [hself]
    exact ⟨pageCount, hi⟩
  · rw [hself] at hcase
    cases hcase
  · obtain ⟨todo, ids, hcase⟩ := hclean
    rw [hphase] at hcase
    cases hcase
  · rw [hself]
    have hcount : ((s.setPhase pid (.attachFailed shmId virtAddr)).processes pid).shmAttachmentCount =
        (s.processes pid).shmAttachmentCount := by simp [Shm.setPhase]
    rw [hcount]
    exact h.mapping_count hphase

theorem ShmInv.mapDone (hsize : pageCount ≠ 0) (hrange : vmSpaceContainsUserRange virtAddr pageCount = true)
    (hfree : ∀ i < pageCount, s.pageTables (s.processes pid).pml4Phys (pageNumber virtAddr i) = none) :
    ShmInv ((s.setPages (s.processes pid).pml4Phys virtAddr pageCount fun page =>
      some ⟨physBase + (page - virtAddr / 4096) * 4096, shmId, pid⟩).setProcess pid { s.processes pid with
        shmAttachmentCount := wrap32 ((s.processes pid).shmAttachmentCount + 1), phase := .idle }) := by
  obtain ⟨i, hi⟩ := h.mapping_entered hphase
  have hcount := h.mapping_count hphase
  have hcore := h.core.map (p := { s.processes pid with
    shmAttachmentCount := wrap32 ((s.processes pid).shmAttachmentCount + 1), phase := .idle }) hi rfl (by rw [hphase]; rfl) hsize hrange
    (fun page hpage => ?_) rfl rfl rfl physBase
  · generalize hs' : (s.setPages (s.processes pid).pml4Phys virtAddr pageCount fun page =>
      some ⟨physBase + (page - virtAddr / 4096) * 4096, shmId, pid⟩).setProcess pid { s.processes pid with
        shmAttachmentCount := wrap32 ((s.processes pid).shmAttachmentCount + 1), phase := .idle } = s' at hcore ⊢
    have hatts : s'.attachments = s.attachments := hs' ▸ rfl
    have hother : ∀ q ≠ pid, s'.processes q = s.processes q := by
      intro q hq
      rw [← hs', setProcess_of_ne hq]
      rfl
    have hself : s'.processes pid = { s.processes pid with
        shmAttachmentCount := wrap32 ((s.processes pid).shmAttachmentCount + 1), phase := .idle } := by
      rw [← hs', setProcess_self]
    have hholding : ∀ q, s'.holding q = s.holding q := fun q => by rw [Shm.holding, Shm.holding, hatts]
    have hwindows : s'.windows = s.windows := by
      rw [windows_eq_update hother, Shm.windows, hself]
      refine Function.update_eq_iff.mpr ⟨?_, fun _ _ => rfl⟩
      rw [Shm.windows, hphase]
      rfl
    refine h.of_step (hwindows ▸ hcore) hother (fun _ _ => by rw [hatts]) (fun _ _ _ _ _ _ => by rw [hatts]) (fun hne => ?_)
      (fun target todo ids hcase => ?_) (h.counts_of_step hother (fun q _ => hholding q) (fun q _ hclean => ?_) (Or.inr ?_))
    · rw [hself] at hne
      exact absurd rfl hne
    · rw [hself] at hcase
      cases hcase
    · obtain ⟨todo, ids, hcase⟩ := hclean
      rw [hphase] at hcase
      cases hcase
    · have hle := s.holding_le pid
      rw [hself, hholding, hcount]
      rw [hcount, shmMaxAttachments] at hle
      exact (wrap32_of_lt (by omega)).symm
  · obtain ⟨hlo, hhi⟩ := hpage
    have hpage := hfree (page - virtAddr / 4096) (by simp only at hlo hhi; omega)
    rwa [pageNumber, show virtAddr / 4096 + (page - virtAddr / 4096) = page by simp only at hlo hhi; omega] at hpage

end Mapping

theorem shmAttachMap_inv (h : ShmInv s) (free : Bool) : ShmInv (shmAttachMap s pid free) := by
  simp only [shmAttachMap]
  split
  · rename_i shmId virtAddr physBase pageCount hphase
    split
    · rename_i s' hmap
      obtain ⟨hsize, hrange, hfree, rfl⟩ := vmSpaceMapUserPages_true hmap
      exact h.mapDone hphase hsize hrange hfree
    · rename_i s' hmap
      rw [vmSpaceMapUserPages_false hmap]
      exact h.mapFailed hphase
  · exact h

theorem ShmBooks.holding_without (h : ShmBooks s) {i : Nat} (hi : (s.attachments i).inUse = true) (q : Nat) :
    (s.without i).holding q + (if (s.attachments i).pid = q then 1 else 0) = s.holding q := by
  have hupdate := tally_update (P := fun a : ShmAttachment => a.inUse = true ∧ a.pid = q) (g := s.attachments)
    (Finset.mem_range.mpr (h.slot i hi)) { s.attachments i with inUse := false }
  simpa [Shm.holding, s.without_attachments i, hi] using hupdate

theorem shmAttachUndo_inv (h : ShmInv s) : ShmInv (shmAttachUndo s pid) := by
  simp only [shmAttachUndo]
  split
  · rename_i shmId virtAddr hphase
    obtain ⟨i, hi⟩ := h.entered pid (by rw [hphase]; exact Option.some_ne_none _)
    rw [hphase] at hi
    obtain ⟨pageCount, hatt⟩ := hi
    have huse : (s.attachments i).inUse = true := by rw [hatt]
    have hfind := h.core.books.findByAddr_eq huse
    rw [hatt] at hfind
    have hwithout : dropRef (s.setAttachment i { s.attachments i with inUse := false }) shmId = s.without i := by
      rw [Shm.without, hatt]
    rw [hfind]
    simp only [hwithout]
    obtain ⟨hproc, htables, -⟩ := s.without_frame i
    have hcore := h.core.without_unmapped huse (by rw [hatt, hphase]; rfl)
    have hself := setPhase_phase (s.without i) pid .idle
    have hother : ∀ q ≠ pid, ((s.without i).setPhase pid .idle).processes q = s.processes q := by
      intro q hq
      rw [Shm.setPhase, setProcess_of_ne hq, hproc]
    have hwindows : ((s.without i).setPhase pid .idle).windows = s.windows := by
      rw [windows_eq_update hother, Shm.windows, hself]
      refine Function.update_eq_iff.mpr ⟨?_, fun _ _ => rfl⟩
      rw [Shm.windows, hphase]
      rfl
    have hkeep : ∀ j, j ≠ i → (s.without i).attachments j = s.attachments j := fun j hji => s.without_attachments_of_ne hji
    have hholding := h.core.books.holding_without huse
    refine h.of_step ?_ hother (fun j hj => (s.without_inUse hj).2) (fun q hq _ j _ hjq => hkeep j ?_) (fun hne => ?_)
      (fun target todo ids hcase => ?_) (h.counts_of_step hother (fun q hq => ?_) (fun q _ hclean => ?_) (Or.inr ?_))
    · rw [hwindows]
      refine hcore.setProcess rfl (fun j hj hjpid _ => ?_) (fun _ _ _ _ _ => (Option.some_ne_none _).symm) (hcore.cursor pid) fun j hj hjpid => hjpid ▸ hcore.below j hj
      -- the other attachments of the process are to other regions
      obtain ⟨hji, hsame⟩ := s.without_inUse hj
      rw [hsame] at hj hjpid ⊢
      refine (s.without_mapped i).mpr (h.core.mapped j hj ?_)
      rw [hjpid, hphase]
      intro heq
      have hdistinct := (h.core.distinct j i hj huse hji (by rw [hjpid, hatt])).1
      rw [hatt] at hdistinct
      exact hdistinct (Option.some.inj heq).symm
    · rintro rfl
      rw [hatt] at hjq
      exact hq hjq.symm
    · rw [hself] at hne
      exact absurd rfl hne
    · rw [hself] at hcase
      cases hcase
    · have := hholding q
      rw [hatt, if_neg (Ne.symm hq), Nat.add_zero] at this
      exact this
    · obtain ⟨todo, ids, hcase⟩ := hclean
      rw [hphase] at hcase
      cases hcase
    · have hcount : s.holding pid = (s.processes pid).shmAttachmentCount + 1 := by
        rcases h.counts pid with ⟨t, hclean⟩ | hcount
        · exact absurd hclean (h.not_cleaned (by rw [hphase]; exact Option.some_ne_none _) t)
        · rwa [hphase] at hcount
      have hone := hholding pid
      rw [hatt, if_pos rfl, hcount] at hone
      have hcounter : (((s.without i).setPhase pid .idle).processes pid).shmAttachmentCount = (s.processes pid).shmAttachmentCount := by
        simp [Shm.setPhase, hproc]
      rw [hself, hcounter]
      exact Nat.succ.inj hone
  · exact h

end Attach

/-! ### Detach -/

section Detach

variable {s : Shm} {pid : Nat}

/-- An attachment of a process that is not in a call becomes the window of its detach. -/
theorem ShmInv.detachBegin (h : ShmInv s) {i : Nat} (hidle : (s.processes pid).phase = .idle) (huse : (s.attachments i).inUse = true)
    (hpid : (s.attachments i).pid = pid) (needsReap : Bool) :
    ShmInv ((s.without i).setPhase pid
      (.detachUnmapping (s.attachments i).shmId (s.attachments i).virtBase (s.attachments i).pageCount needsReap)) := by
  obtain ⟨hproc, -⟩ := s.without_frame i
  have hcore := h.core.without_window huse (by rw [hpid, hidle]; exact nofun) pid
  generalize hphase : ShmPhase.detachUnmapping (s.attachments i).shmId (s.attachments i).virtBase (s.attachments i).pageCount needsReap = phase
  have hself := setPhase_phase (s.without i) pid phase
  have hother : ∀ q ≠ pid, ((s.without i).setPhase pid phase).processes q = s.processes q := by
    intro q hq
    rw [Shm.setPhase, setProcess_of_ne hq, hproc]
  have hpending : phase.pending pid = s.windows pid ++ [s.attachments i] := by
    have hatt : s.attachments i = ⟨true, (s.attachments i).shmId, pid, (s.attachments i).virtBase, (s.attachments i).pageCount⟩ := by
      rw [← huse, ← hpid]
    rw [Shm.windows, hidle, ← hphase, hatt]
    rfl
  have hwindows : ((s.without i).setPhase pid phase).windows = Function.update s.windows pid (s.windows pid ++ [s.attachments i]) := by
    rw [windows_eq_update hother, ← hpending, Shm.windows, hself]
  have hholding := h.core.books.holding_without huse
  refine h.of_step ?_ hother (fun j hj => (s.without_inUse hj).2) (fun q hq _ j _ hjq => ?_) (fun hne => ?_)
    (fun target todo ids hcase => ?_) (h.counts_of_step hother (fun q hq => ?_) (fun q _ hclean => ?_) (Or.inr ?_))
  · rw [hwindows]
    refine hcore.setPhase ?_
    rw [hproc, hidle, ← hphase]
    rfl
  · change (s.without i).attachments j = s.attachments j
    apply s.without_attachments_of_ne
    rintro rfl
    exact hq (hjq.symm.trans hpid)
  · rw [hself, ← hphase] at hne
    exact absurd rfl hne
  · rw [hself, ← hphase] at hcase
    cases hcase
  · have := hholding q
    rw [hpid, if_neg (Ne.symm hq), Nat.add_zero] at this
    exact this
  · obtain ⟨todo, ids, hcase⟩ := hclean
    rw [hidle] at hcase
    cases hcase
  · have hcount : s.holding pid = (s.processes pid).shmAttachmentCount := by
      rcases h.counts pid with ⟨t, hclean⟩ | hcount
      · exact absurd hpid ((h.cleaned t pid hclean).1 i huse)
      · rwa [hidle] at hcount
    have hone := hholding pid
    rw [hpid, if_pos rfl, hcount] at hone
    have hcounter : (((s.without i).setPhase pid phase).processes pid).shmAttachmentCount = (s.processes pid).shmAttachmentCount := by
      simp [Shm.setPhase, hproc]
    rw [hself, hcounter, ← hphase]
    exact Or.inl hone.symm

theorem shmDetachBegin_inv (h : ShmInv s) (hidle : (s.processes pid).phase = .idle) (virtAddr : Nat) :
    ShmInv (shmDetachBegin s pid virtAddr) := by
  simp only [shmDetachBegin]
  split
  · exact h
  split
  · exact h
  rename_i i hfind
  obtain ⟨huse, hpid, rfl⟩ := shmFindAttachmentByAddr_some hfind
  exact h.detachBegin hidle huse hpid _

theorem vmSpaceUnmapUserPages_frame (s : Shm) (pid virtAddr pageCount : Nat) (others : Bool) :
    (vmSpaceUnmapUserPages s pid virtAddr pageCount others).processes = s.processes ∧
      (vmSpaceUnmapUserPages s pid virtAddr pageCount others).attachments = s.attachments := by
  simp only [vmSpaceUnmapUserPages]
  split
  · exact ⟨rfl, rfl⟩
  split
  · exact ⟨rfl, rfl⟩
  · exact ⟨rfl, rfl⟩

/-- A process that is being cleaned up holds no attachment. -/
theorem ShmInv.holding_cleaned (h : ShmInv s) {t : Nat} (hclean : s.Cleans t pid) : s.holding pid = 0 :=
  tally_eq_zero fun i _ hi => (h.cleaned t pid hclean).1 i hi.1 hi.2

theorem Shm.holding_pos {W : Nat → List ShmAttachment} (h : ShmCore s W) {i : Nat} (hi : (s.attachments i).inUse = true)
    (hpid : (s.attachments i).pid = pid) : 0 < s.holding pid :=
  tally_pos_iff.mpr ⟨i, Finset.mem_range.mpr (h.slot i hi), hi, hpid⟩

theorem shmCursorStart_lt (pid : Nat) : shmCursorStart pid < 2 ^ 64 := by
  simp only [shmCursorStart, vmSpaceShmBase]
  omega

/-- The pages are unmapped and the window is closed; the cursor starts again only when no attachment is left. -/
theorem ShmInv.detachEnd (h : ShmInv s) {shmId : Int} {virtAddr pageCount count cursor : Nat} {needsReap : Bool} {phase : ShmPhase}
    (hphase : (s.processes pid).phase = .detachUnmapping shmId virtAddr pageCount needsReap) (others : Bool)
    (hcount : count = (s.processes pid).shmAttachmentCount - 1)
    (hcursor : cursor = if count = 0 then shmCursorStart pid else (s.processes pid).shmCursor)
    (hafter : phase.attaching = none ∧ phase.pending pid = [] ∧ (∀ target todo ids, phase ≠ .cleaning target todo ids) ∧
      ∀ holding count, phase.CountOk holding count ↔ holding = count) :
    ShmInv ((vmSpaceUnmapUserPages s pid virtAddr pageCount others).setProcess pid { s.processes pid with
      shmAttachmentCount := count, shmCursor := cursor, phase := phase }) := by
  obtain ⟨hproc, hatts⟩ := vmSpaceUnmapUserPages_frame s pid virtAddr pageCount others
  have hcore := @ShmCore.unmap s s.windows pid ⟨true, shmId, pid, virtAddr, pageCount⟩ [] h.core (by rw [Shm.windows, hphase]; rfl) others
  simp only at hcore
  generalize vmSpaceUnmapUserPages s pid virtAddr pageCount others = s₁ at *
  generalize hs' : s₁.setProcess pid { s.processes pid with shmAttachmentCount := count, shmCursor := cursor, phase := phase } = s'
  have hother : ∀ q ≠ pid, s'.processes q = s.processes q := by
    intro q hq
    rw [← hs', setProcess_of_ne hq, hproc]
  have hself : s'.processes pid = { s.processes pid with shmAttachmentCount := count, shmCursor := cursor, phase := phase } := by
    rw [← hs', setProcess_self]
  have hatts' : s'.attachments = s.attachments := by
    rw [← hs']
    exact hatts
  have hholding : ∀ q, s'.holding q = s.holding q := fun q => by rw [Shm.holding, Shm.holding, hatts']
  have hwindows : s'.windows = Function.update s.windows pid [] := by
    rw [windows_eq_update hother, Shm.windows, hself, hafter.2.1]
  have hnotSelf : ∀ target, ¬s.Cleans pid target := by
    rintro target ⟨todo, ids, hcase⟩
    rw [hphase] at hcase
    cases hcase
  have hheld : (∃ t, s'.Cleans t pid) ∧ s.holding pid = 0 ∨ s.holding pid = count := by
    rcases h.counts pid with ⟨t, hclean⟩ | hok
    · refine Or.inl ⟨⟨t, ?_⟩, h.holding_cleaned hclean⟩
      rwa [Shm.Cleans, hother t fun heq => hnotSelf pid (heq ▸ hclean)]
    · rw [hphase] at hok
      simp only [ShmPhase.CountOk] at hok
      omega
  have hbelow : ∀ i, (s₁.attachments i).inUse = true → (s₁.attachments i).pid = pid → (s₁.attachments i).virtBase < cursor := by
    rw [hatts]
    intro i hi hpid
    have hpos := Shm.holding_pos h.core hi hpid
    rw [hcursor, if_neg (by omega), ← hpid]
    exact h.core.below i hi
  have hlt : cursor < 2 ^ 64 := by
    rw [hcursor]
    split
    · exact shmCursorStart_lt pid
    · exact h.core.cursor pid
  refine h.of_step ?_ hother (fun _ _ => by rw [hatts']) (fun _ _ _ _ _ _ => by rw [hatts']) (fun hne => ?_)
    (fun target todo ids hcase => ?_) (h.counts_of_step hother (fun q _ => hholding q) (fun q _ hclean => absurd hclean (hnotSelf q)) ?_)
  · rw [hwindows, ← hs']
    refine hcore.setProcess_same ?_ ?_ hlt hbelow
    · rw [hproc]
    · rw [hproc, hphase]
      exact hafter.1
  · rw [hself] at hne
    exact absurd hafter.1 hne
  · rw [hself] at hcase
    exact absurd hcase (hafter.2.2.1 target todo ids)
  · refine hheld.imp And.left fun heq => ?_
    rw [hself, hholding, hafter.2.2.2]
    exact heq

theorem shmDetachUnmap_inv (h : ShmInv s) (others : Bool) : ShmInv (shmDetachUnmap s pid others) := by
  simp only [shmDetachUnmap]
  split
  · rename_i shmId virtAddr pageCount needsReap hphase
    obtain ⟨hproc, -⟩ := vmSpaceUnmapUserPages_frame s pid virtAddr pageCount others
    rw [hproc]
    refine h.detachEnd hphase others ?_ rfl ?_
    · split
      · rfl
      · omega
    · split
      · exact ⟨rfl, rfl, nofun, fun _ _ => Iff.rfl⟩
      · exact ⟨rfl, rfl, nofun, fun _ _ => Iff.rfl⟩
  · exact h

end Detach

/-! ### Cleanup -/

section Cleanup

variable {s : Shm} {pid target : Nat}

theorem cleanupDrop_eq (s : Shm) (i : Nat) : cleanupDrop s i = s.without i := by
  have hfind : shmFindRegion (s.setAttachment i { s.attachments i with inUse := false }) (s.attachments i).shmId =
      shmFindRegion s (s.attachments i).shmId := rfl
  simp only [cleanupDrop, Shm.without, dropRef, hfind]
  cases shmFindRegion s (s.attachments i).shmId with
  | none => rfl
  | some r =>
      by_cases hrefs : 0 < (s.regions r).refCount
      · simp only [Shm.setAttachment, if_pos hrefs]
        exact (if_pos hrefs).symm
      · simp only [Shm.setAttachment, if_neg hrefs]
        exact (if_neg hrefs).symm

/-- The first loop of a cleanup frees its slots and touches nothing else of the ranges. -/
theorem cleanupDrops_frame (s : Shm) {is : List Nat} (hnodup : is.Nodup) :
    (is.foldl cleanupDrop s).processes = s.processes ∧ (is.foldl cleanupDrop s).pageTables = s.pageTables ∧
      ∀ j, (is.foldl cleanupDrop s).attachments j = if j ∈ is then { s.attachments j with inUse := false } else s.attachments j := by
  induction is generalizing s with
  | nil => exact ⟨rfl, rfl, fun j => rfl⟩
  | cons i is ih =>
      obtain ⟨hfresh, hrest⟩ := List.nodup_cons.mp hnodup
      obtain ⟨hproc, htables, -⟩ := s.without_frame i
      obtain ⟨hfoldProc, hfoldTables, hfoldAtts⟩ := ih (s.without i) hrest
      rw [List.foldl_cons, cleanupDrop_eq]
      refine ⟨hfoldProc.trans hproc, hfoldTables.trans htables, fun j => ?_⟩
      rw [hfoldAtts]
      by_cases hji : j = i
      · rw [hji, if_neg hfresh, if_pos List.mem_cons_self, s.without_attachments, Function.update_self]
      · rw [s.without_attachments_of_ne hji]
        simp only [List.mem_cons, hji, false_or]

/-- The attachments of a process become windows of the call that cleans up after it. -/
theorem ShmCore.cleanupDrops {W : Nat → List ShmAttachment} (h : ShmCore s W) (t : Nat)
    (hidle : (s.processes target).phase.attaching = none) {is : List Nat} (hnodup : is.Nodup)
    (his : ∀ i ∈ is, (s.attachments i).inUse = true ∧ (s.attachments i).pid = target) :
    ShmCore (is.foldl cleanupDrop s) (Function.update W t (W t ++ is.map s.attachments)) := by
  induction is generalizing s W with
  | nil => simpa using h
  | cons i is ih =>
      obtain ⟨hfresh, hrest⟩ := List.nodup_cons.mp hnodup
      obtain ⟨huse, hpid⟩ := his i List.mem_cons_self
      have hcore := h.without_window huse (by rw [hpid, hidle]; exact nofun) t
      have hkeep : ∀ j ∈ is, (s.without i).attachments j = s.attachments j :=
        fun j hj => s.without_attachments_of_ne fun heq => hfresh (heq ▸ hj)
      have hfold := ih hcore (by rw [(s.without_frame i).1]; exact hidle) hrest fun j hj => by
        rw [hkeep j hj]
        exact his j (List.mem_cons_of_mem i hj)
      rw [List.foldl_cons, cleanupDrop_eq]
      rw [List.map_congr_left hkeep, Function.update_self, Function.update_idem, List.append_assoc, List.singleton_append] at hfold
      exact hfold

theorem mem_attachmentsOf {i : Nat} :
    i ∈ attachmentsOf s target ↔ i < shmMaxAttachments ∧ (s.attachments i).inUse = true ∧ (s.attachments i).pid = target := by
  simp [attachmentsOf]

theorem attachmentsOf_nodup (s : Shm) (target : Nat) : (attachmentsOf s target).Nodup := List.nodup_range.filter _

theorem ShmCore.cleanupDisown {W : Nat → List ShmAttachment} (h : ShmCore s W) (target : Nat) : ShmCore (cleanupDisown s target) W := by
  refine h.setRegions fun j => ?_
  simp only
  split
  · exact ⟨rfl, rfl, rfl⟩
  · exact ⟨rfl, rfl, rfl⟩

theorem shmCleanupBegin_inv (h : ShmInv s) (hphase : (s.processes pid).phase = .idle)
    (hidle : (s.processes target).phase.attaching = none) : ShmInv (shmCleanupBegin s pid target) := by
  have hcore := h.core.cleanupDrops pid hidle (attachmentsOf_nodup s target) fun i hi => (mem_attachmentsOf.mp hi).2
  obtain ⟨hproc, -, hatts⟩ := cleanupDrops_frame s (attachmentsOf_nodup s target)
  have hdisown := hcore.cleanupDisown target
  generalize hphase' : ShmPhase.cleaning target ((attachmentsOf s target).map s.attachments)
    (((attachmentsOf s target).map s.attachments).map ShmAttachment.shmId) = phase
  have hfinal : shmCleanupBegin s pid target =
      (cleanupDisown ((attachmentsOf s target).foldl cleanupDrop s) target).setPhase pid phase := by
    rw [← hphase']
    rfl
  have hattaching : phase.attaching = none := hphase' ▸ rfl
  have hpending : phase.pending pid = (attachmentsOf s target).map s.attachments := hphase' ▸ rfl
  have hprocs : (cleanupDisown ((attachmentsOf s target).foldl cleanupDrop s) target).processes = s.processes := hproc
  have hattsFinal : ∀ j, (shmCleanupBegin s pid target).attachments j =
      if j ∈ attachmentsOf s target then { s.attachments j with inUse := false } else s.attachments j := hatts
  have hself : ((shmCleanupBegin s pid target).processes pid).phase = phase := by
    rw [hfinal]
    exact setPhase_phase _ _ _
  have hother : ∀ q ≠ pid, (shmCleanupBegin s pid target).processes q = s.processes q := by
    intro q hq
    rw [hfinal, Shm.setPhase, setProcess_of_ne hq, hprocs]
  have hwindows : (shmCleanupBegin s pid target).windows =
      Function.update s.windows pid (s.windows pid ++ (attachmentsOf s target).map s.attachments) := by
    rw [windows_eq_update hother]
    simp only [Shm.windows, hself, hphase, hpending]
    rfl
  have hleft : ∀ j, ((shmCleanupBegin s pid target).attachments j).inUse = true →
      (shmCleanupBegin s pid target).attachments j = s.attachments j ∧ (s.attachments j).pid ≠ target := by
    intro j hj
    rw [hattsFinal] at hj ⊢
    split at hj
    · cases hj
    · rename_i hout
      refine ⟨if_neg hout, fun hpid => hout (mem_attachmentsOf.mpr ⟨h.core.slot j hj, hj, hpid⟩)⟩
  have hholding : ∀ q ≠ target, (shmCleanupBegin s pid target).holding q = s.holding q := by
    intro q hq
    refine tally_congr fun j _ => ?_
    rw [hattsFinal]
    split
    · rename_i hin
      have hpid := (mem_attachmentsOf.mp hin).2.2
      simp only [Bool.false_eq_true, false_and, false_iff, not_and]
      exact fun _ heq => hq (heq.symm.trans hpid)
    · exact Iff.rfl
  have hcleans : (shmCleanupBegin s pid target).Cleans pid target := ⟨_, _, hself.trans hphase'.symm⟩
  have hnone : ∀ q, ¬s.Cleans pid q := by
    rintro q ⟨todo, ids, hcase⟩
    rw [hphase] at hcase
    cases hcase
  refine h.of_step ?_ hother (fun j hj => (hleft j hj).1) (fun q _ hq j hj hjq => ?_) (fun hne => ?_)
    (fun other todo ids hcase => ?_) (fun q => ?_)
  · rw [hwindows, hfinal]
    refine hdisown.setPhase ?_
    rw [hprocs, hphase, hattaching]
    rfl
  · rw [hattsFinal, if_neg]
    intro hin
    have hpid := (mem_attachmentsOf.mp hin).2.2
    rw [← hjq, hpid] at hq
    exact hq hidle
  · rw [hself] at hne
    exact absurd hattaching hne
  · rw [hself, ← hphase'] at hcase
    cases hcase
    refine ⟨fun w hw => ?_, fun j hj => ?_, hidle⟩
    · obtain ⟨j, hj, rfl⟩ := List.mem_map.mp hw
      exact (mem_attachmentsOf.mp hj).2.2
    · obtain ⟨heq, hpid⟩ := hleft j hj
      rwa [heq]
  · by_cases hq : q = target
    · exact Or.inl ⟨pid, hq ▸ hcleans⟩
    · rcases h.counts q with ⟨t, hclean⟩ | hok
      · have ht : t ≠ pid := fun heq => hnone q (heq ▸ hclean)
        refine Or.inl ⟨t, ?_⟩
        rwa [Shm.Cleans, hother t ht]
      · right
        rw [hholding q hq]
        by_cases hqp : q = pid
        · rw [hqp] at hok ⊢
          have hcount : ((shmCleanupBegin s pid target).processes pid).shmAttachmentCount = (s.processes pid).shmAttachmentCount := by
            rw [hfinal, Shm.setPhase, setProcess_self, hprocs]
          rw [hself, ← hphase', hcount]
          rw [hphase] at hok
          exact hok
        · rw [hother q hqp]
          exact hok

theorem shmCleanupUnmap_inv (h : ShmInv s) (others : Bool) : ShmInv (shmCleanupUnmap s pid others) := by
  simp only [shmCleanupUnmap]
  split
  · rename_i target att todo ids hphase
    have hatt := h.todoPid pid target (att :: todo) ids hphase att List.mem_cons_self
    obtain ⟨hproc, hatts⟩ := vmSpaceUnmapUserPages_frame s target att.virtBase att.pageCount others
    have hcore := h.core.unmap (t := pid) (w := att) (by rw [Shm.windows, hphase]; rfl) others
    rw [hatt] at hcore
    generalize vmSpaceUnmapUserPages s target att.virtBase att.pageCount others = s₁ at *
    have hself := setPhase_phase s₁ pid (.cleaning target todo ids)
    have hother : ∀ q ≠ pid, (s₁.setPhase pid (.cleaning target todo ids)).processes q = s.processes q := by
      intro q hq
      rw [Shm.setPhase, setProcess_of_ne hq, hproc]
    have hholding : ∀ q, (s₁.setPhase pid (.cleaning target todo ids)).holding q = s.holding q := by
      intro q
      rw [Shm.holding, Shm.holding, ← hatts]
      rfl
    have hsame : (s₁.setPhase pid (.cleaning target todo ids)).attachments = s.attachments := hatts
    refine h.of_step ?_ hother (fun _ _ => by rw [hsame]) (fun _ _ _ _ _ _ => by rw [hsame]) (fun hne => ?_)
      (fun other todo' ids' hcase => ?_) (h.counts_of_step hother (fun q _ => hholding q) (fun q _ hclean => ⟨pid, ?_⟩) ?_)
    · rw [windows_eq_update hother, Shm.windows, hself]
      refine hcore.setPhase ?_
      rw [hproc, hphase]
      rfl
    · rw [hself] at hne
      exact absurd rfl hne
    · rw [hself] at hcase
      cases hcase
      obtain ⟨hgone, hidle⟩ := h.cleaned pid target ⟨_, _, hphase⟩
      exact ⟨fun w hw => h.todoPid pid target (att :: todo) ids hphase w (List.mem_cons_of_mem _ hw), hsame ▸ hgone, hidle⟩
    · obtain ⟨todo', ids', hcase⟩ := hclean
      rw [hphase] at hcase
      cases hcase
      exact ⟨todo, ids, hself⟩
    · rcases h.counts pid with ⟨t, hclean⟩ | hok
      · left
        by_cases ht : t = pid
        · obtain ⟨todo', ids', hcase⟩ := ht ▸ hclean
          rw [hphase] at hcase
          cases hcase
          exact ⟨pid, todo, ids, hself⟩
        · refine ⟨t, ?_⟩
          rwa [Shm.Cleans, hother t ht]
      · right
        rw [hphase] at hok
        rw [hself, hholding, Shm.setPhase, setProcess_self, hproc]
        exact hok
  · exact h

/-- A process that is being cleaned up has its counter and its cursor set back. -/
theorem ShmInv.resetCursor (h : ShmInv s) (hclean : s.Cleans pid target) :
    ShmInv (s.setProcess target { s.processes target with shmAttachmentCount := 0, shmCursor := shmCursorStart target }) := by
  generalize hp : ({ s.processes target with shmAttachmentCount := 0, shmCursor := shmCursorStart target } : ShmProcess) = p
  have hphase : ∀ q, ((s.setProcess target p).processes q).phase = (s.processes q).phase := setProcess_field ShmProcess.phase (hp ▸ rfl)
  have hcleans : ∀ t q, (s.setProcess target p).Cleans t q ↔ s.Cleans t q := by
    intro t q
    rw [Shm.Cleans, Shm.Cleans, hphase]
  refine ⟨?_, ?_, ?_, ?_, ?_⟩
  · have hwindows : (s.setProcess target p).windows = s.windows := by
      funext t
      rw [Shm.windows, Shm.windows, hphase]
    rw [hwindows]
    refine h.core.setProcess_same (hp ▸ rfl) (hp ▸ rfl) (hp ▸ shmCursorStart_lt target) fun i hi hpid => ?_
    exact absurd hpid ((h.cleaned pid target hclean).1 i hi)
  · intro q
    rw [hphase]
    exact h.entered q
  · intro t
    rw [hphase]
    exact h.todoPid t
  · intro t q hq
    rw [hphase]
    exact h.cleaned t q ((hcleans t q).mp hq)
  · intro q
    by_cases hq : q = target
    · exact Or.inl ⟨pid, (hcleans pid q).mpr (hq ▸ hclean)⟩
    · simp only [hcleans]
      rw [setProcess_of_ne hq]
      exact h.counts q

/-- The last step of a cleanup, when the counter of the process has been set back. -/
theorem ShmInv.endCleaning (h : ShmInv s) {ids : List Int} (hphase : (s.processes pid).phase = .cleaning target [] ids)
    (hcount : (s.processes target).shmAttachmentCount = 0) : ShmInv (s.setPhase pid .idle) := by
  have hself := setPhase_phase s pid .idle
  have hother : ∀ q ≠ pid, (s.setPhase pid .idle).processes q = s.processes q := fun q hq => setProcess_of_ne hq _
  have hcounter : ∀ q, ((s.setPhase pid .idle).processes q).shmAttachmentCount = (s.processes q).shmAttachmentCount :=
    setProcess_field ShmProcess.shmAttachmentCount rfl
  obtain ⟨hgone, hidle⟩ := h.cleaned pid target ⟨_, _, hphase⟩
  have hzero : s.holding target = 0 := h.holding_cleaned ⟨_, _, hphase⟩
  refine h.of_step ?_ hother (fun _ _ => rfl) (fun _ _ _ _ _ _ => rfl) (fun hne => ?_) (fun other todo ids' hcase => ?_) (fun q => ?_)
  · have hwindows : (s.setPhase pid .idle).windows = s.windows := by
      rw [windows_eq_update hother, Shm.windows, hself]
      refine Function.update_eq_iff.mpr ⟨?_, fun _ _ => rfl⟩
      rw [Shm.windows, hphase]
      rfl
    rw [hwindows]
    refine h.core.setPhase ?_
    rw [hphase]
    rfl
  · rw [hself] at hne
    exact absurd rfl hne
  · rw [hself] at hcase
    cases hcase
  · by_cases hq : q = target
    · right
      change ShmPhase.CountOk _ (s.holding q) _
      rw [hcounter, hq, hzero, hcount]
      by_cases htarget : target = pid
      · rw [htarget, hself]
        rfl
      · rw [hother target htarget]
        generalize (s.processes target).phase = phase at hidle
        cases phase with
        | idle => rfl
        | attachMapping => cases hidle
        | attachFailed => cases hidle
        | detachUnmapping => exact Or.inr ⟨rfl, rfl⟩
        | detachReaping => rfl
        | cleaning => rfl
    · rcases h.counts q with ⟨t, hclean⟩ | hok
      · left
        refine ⟨t, ?_⟩
        have ht : t ≠ pid := by
          rintro rfl
          obtain ⟨todo, ids', hcase⟩ := hclean
          rw [hphase] at hcase
          cases hcase
          exact hq rfl
        rwa [Shm.Cleans, hother t ht]
      · right
        change ShmPhase.CountOk _ (s.holding q) _
        rw [hcounter]
        by_cases hqp : q = pid
        · rw [hqp] at hok ⊢
          rw [hphase] at hok
          rw [hself]
          exact hok
        · rw [hother q hqp]
          exact hok

/-- The regions that a section may return are those no call is about to unmap an attachment to. -/
def Shm.ReapSafe (s : Shm) : Prop :=
  ∀ r, (s.regions r).inUse = true → (s.regions r).destroyPending = true → (s.regions r).refCount = 0 → NoWindow s.windows (s.regions r).id

theorem ShmInv.reap (h : ShmInv s) (hsafe : s.ReapSafe) (i : Nat) :
    ShmInv (shmReapRegion s i) ∧ (shmReapRegion s i).ReapSafe ∧ (shmReapRegion s i).processes = s.processes := by
  obtain ⟨hproc, hatts, hregions⟩ := shmReapRegion_frame s i
  refine ⟨h.of_core hproc hatts (h.core.reap (hsafe i)), fun r hr hpending hrefs => ?_, hproc⟩
  have hwindows : (shmReapRegion s i).windows = s.windows := by
    funext t
    rw [Shm.windows, Shm.windows, hproc]
  have hsame := hregions r hr
  rw [hsame] at hr hpending hrefs ⊢
  rw [hwindows]
  exact hsafe r hr hpending hrefs

/-- A loop each round of which reaps a region or does nothing. -/
theorem ShmInv.reaps {α : Type*} {round : Shm → α → Shm} (hround : ∀ s x, round s x = s ∨ ∃ i, round s x = shmReapRegion s i) (xs : List α)
    (h : ShmInv s) (hsafe : s.ReapSafe) :
    ShmInv (xs.foldl round s) ∧ (xs.foldl round s).ReapSafe ∧ (xs.foldl round s).processes = s.processes := by
  induction xs generalizing s with
  | nil => exact ⟨h, hsafe, rfl⟩
  | cons x xs ih =>
      rw [List.foldl_cons]
      rcases hround s x with hsame | ⟨i, hreap⟩
      · rw [hsame]
        exact ih h hsafe
      · obtain ⟨hinv, hsafe', hproc⟩ := h.reap hsafe i
        rw [hreap, ← hproc]
        exact ih hinv hsafe'

theorem cleanupReap_eq (s : Shm) (id : Int) : cleanupReap s id = s ∨ ∃ i, cleanupReap s id = shmReapRegion s i := by
  simp only [cleanupReap]
  split
  · exact Or.inr ⟨_, rfl⟩
  · exact Or.inl rfl

theorem cleanupSweep_eq (s : Shm) (i : Nat) : cleanupSweep s i = s ∨ ∃ j, cleanupSweep s i = shmReapRegion s j := by
  simp only [cleanupSweep]
  split
  · exact Or.inr ⟨_, rfl⟩
  · exact Or.inl rfl

theorem shmCleanupFinish_inv (h : ShmInv s)
    (hsafe : ∀ target ids, (s.processes pid).phase = .cleaning target [] ids → s.ReapSafe) : ShmInv (shmCleanupFinish s pid) := by
  simp only [shmCleanupFinish]
  split
  · rename_i target ids hphase
    have hreset := h.resetCursor ⟨_, _, hphase⟩
    have hphases : ∀ q, ((s.setProcess target { s.processes target with
        shmAttachmentCount := 0, shmCursor := shmCursorStart target }).processes q).phase = (s.processes q).phase :=
      setProcess_field ShmProcess.phase rfl
    have hcount := congrArg ShmProcess.shmAttachmentCount (setProcess_self s target { s.processes target with
        shmAttachmentCount := 0, shmCursor := shmCursorStart target })
    have hsafe₁ : (s.setProcess target { s.processes target with
        shmAttachmentCount := 0, shmCursor := shmCursorStart target }).ReapSafe := by
      have hwindows : (s.setProcess target { s.processes target with
          shmAttachmentCount := 0, shmCursor := shmCursorStart target }).windows = s.windows := by
        funext t
        rw [Shm.windows, Shm.windows, hphases]
      rw [Shm.ReapSafe, hwindows]
      exact hsafe target ids hphase
    generalize s.setProcess target { s.processes target with
        shmAttachmentCount := 0, shmCursor := shmCursorStart target } = s₁ at *
    obtain ⟨hinv₂, hsafe₂, hproc₂⟩ := ShmInv.reaps cleanupReap_eq ids hreset hsafe₁
    obtain ⟨hinv₃, -, hproc₃⟩ := ShmInv.reaps cleanupSweep_eq (List.range shmMaxRegions) hinv₂ hsafe₂
    have hproc := hproc₃.trans hproc₂
    refine @ShmInv.endCleaning _ pid target hinv₃ ids ?_ ?_
    · rw [hproc, hphases]
      exact hphase
    · rw [hproc, hcount]
  · exact h

end Cleanup

end Tsukasa
