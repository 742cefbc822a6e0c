import Tsukasa.Ipc.ShmRun

/-!
# Identifiers of shared-memory regions

The counter of `shm_create` starts again at 1 when it has gone through the positive numbers, whatever the regions that are still in use are called. So an identifier is given once exactly as long as the counter does not come round to a region that is in use.
-/

namespace Tsukasa

open Lib

/-- The identifier that `shm_create` returns, or its error. -/
def shmCreateId (s : Shm) (size phys : Nat) : Int :=
  if size = 0 then -1
  else
    let pageCount := wrap64 (size + 4095) / 4096
    if pageCount = 0 ∨ phys = 0 then -1
    else
      match shmAllocRegion s with
      | none => -1
      | some _ => s.nextShmId

/-- The regions in use have positive identifiers, no two the same one, and a lookup of an identifier finds its region. -/
structure Shm.IdsUnique (s : Shm) : Prop where
  positive : ∀ i < shmMaxRegions, (s.regions i).inUse = true → 0 < (s.regions i).id
  unique : ∀ i < shmMaxRegions, ∀ j < shmMaxRegions, (s.regions i).inUse = true → (s.regions j).inUse = true →
    (s.regions i).id = (s.regions j).id → i = j
  found : ∀ i < shmMaxRegions, (s.regions i).inUse = true → shmFindRegion s (s.regions i).id = some i

/-- A creation that returns an identifier returns a positive one, under which the region just created is found. -/
def ShmStep.CreateFinds (s : Shm) : ShmStep → Prop
  | .create pid size phys => s.idle pid = true → shmCreateId s size phys ≠ -1 →
      0 < shmCreateId s size phys ∧ ∃ i pageCount, (s.regions i).inUse = false ∧
        shmFindRegion (shmCreate s pid size phys) (shmCreateId s size phys) = some i ∧
        (shmCreate s pid size phys).regions i = ⟨shmCreateId s size phys, pid, phys, wrap64 (pageCount * 4096), pageCount, 0, false, true⟩
  | _ => True

/-- The condition on a creation that takes a region: none in use has the identifier that is next. -/
def ShmStep.Fresh (s : Shm) : ShmStep → Prop
  | .create pid size phys => s.idle pid = true → size ≠ 0 → wrap64 (size + 4095) / 4096 ≠ 0 → phys ≠ 0 → shmAllocRegion s ≠ none →
      ∀ i < shmMaxRegions, (s.regions i).inUse = true → (s.regions i).id ≠ s.nextShmId
  | _ => True

/-! ### Steps that create nothing -/

/-- No region comes into use, and those that stay in use keep their identifiers. -/
structure OnlyRetires (s s' : Shm) : Prop where
  nextId : s'.nextShmId = s.nextShmId
  kept : ∀ i, (s'.regions i).inUse = true → (s.regions i).inUse = true ∧ (s'.regions i).id = (s.regions i).id

variable {s s' s'' : Shm}

namespace OnlyRetires

theorem refl (s : Shm) : OnlyRetires s s := ⟨rfl, fun _ h => ⟨h, rfl⟩⟩

theorem trans (h : OnlyRetires s s') (h' : OnlyRetires s' s'') : OnlyRetires s s'' := by
  refine ⟨h'.nextId.trans h.nextId, fun i hi => ?_⟩
  obtain ⟨huse', hid'⟩ := h'.kept i hi
  obtain ⟨huse, hid⟩ := h.kept i huse'
  exact ⟨huse, hid'.trans hid⟩

/-- The tables of the regions are the same. -/
theorem of_regions (hregions : s'.regions = s.regions) (hnext : s'.nextShmId = s.nextShmId) : OnlyRetires s s' := by
  refine ⟨hnext, fun i hi => ?_⟩
  rw [hregions] at hi ⊢
  exact ⟨hi, rfl⟩

theorem setRegion {i : Nat} {r : ShmRegion} (h : r.inUse = true → (s.regions i).inUse = true ∧ r.id = (s.regions i).id) :
    OnlyRetires s (s.setRegion i r) := by
  refine ⟨rfl, fun j hj => ?_⟩
  by_cases hji : j = i
  · subst hji
    simp only [Shm.setRegion, Function.update_self] at hj ⊢
    exact h hj
  · rw [setRegion_of_ne hji] at hj ⊢
    exact ⟨hj, rfl⟩

theorem setAttachment (s : Shm) (i : Nat) (a : ShmAttachment) : OnlyRetires s (s.setAttachment i a) := of_regions rfl rfl

theorem setProcess (s : Shm) (pid : Nat) (p : ShmProcess) : OnlyRetires s (s.setProcess pid p) := of_regions rfl rfl

theorem setPhase (h : OnlyRetires s s') (pid : Nat) (phase : ShmPhase) : OnlyRetires s (s'.setPhase pid phase) :=
  h.trans (setProcess s' pid _)

theorem foldl {α : Type*} {round : Shm → α → Shm} (hround : ∀ s x, OnlyRetires s (round s x)) (xs : List α) (s : Shm) :
    OnlyRetires s (xs.foldl round s) := by
  induction xs generalizing s with
  | nil => exact refl s
  | cons x xs ih => exact (hround s x).trans (ih (round s x))

end OnlyRetires

theorem dropRef_retires (s : Shm) (shmId : Int) : OnlyRetires s (dropRef s shmId) := by
  rw [dropRef]
  split
  · exact OnlyRetires.refl s
  split
  · exact OnlyRetires.setRegion fun huse => ⟨huse, rfl⟩
  · exact OnlyRetires.refl s

theorem shmReapRegion_retires (s : Shm) (i : Nat) : OnlyRetires s (shmReapRegion s i) := by
  refine ⟨?_, fun j hj => ?_⟩
  · rw [shmReapRegion]
    split
    · rfl
    · split <;> rfl
  · have hsame := (shmReapRegion_frame s i).2.2 j hj
    rw [hsame] at hj ⊢
    exact ⟨hj, rfl⟩

theorem cleanupReap_retires (s : Shm) (id : Int) : OnlyRetires s (cleanupReap s id) := by
  rw [cleanupReap]
  split
  · exact shmReapRegion_retires s _
  · exact OnlyRetires.refl s

theorem cleanupSweep_retires (s : Shm) (i : Nat) : OnlyRetires s (cleanupSweep s i) := by
  rw [cleanupSweep]
  split
  · exact shmReapRegion_retires s i
  · exact OnlyRetires.refl s

theorem cleanupDrop_retires (s : Shm) (i : Nat) : OnlyRetires s (cleanupDrop s i) :=
  (dropRef_retires s _).trans (OnlyRetires.setAttachment _ i _)

theorem cleanupDisown_retires (s : Shm) (target : Nat) : OnlyRetires s (cleanupDisown s target) := by
  refine ⟨rfl, fun i hi => ?_⟩
  simp only [cleanupDisown] at hi ⊢
  split at hi
  · rename_i howned
    rw [if_pos howned]
    exact ⟨hi, rfl⟩
  · rename_i howned
    rw [if_neg howned]
    exact ⟨hi, rfl⟩

theorem vmSpaceUnmapUserPages_retires (s : Shm) (pid virtAddr pageCount : Nat) (others : Bool) :
    OnlyRetires s (vmSpaceUnmapUserPages s pid virtAddr pageCount others) := by
  simp only [vmSpaceUnmapUserPages]
  split
  · exact OnlyRetires.refl s
  split
  · exact OnlyRetires.of_regions rfl rfl
  · exact OnlyRetires.refl s

theorem shmAttachBegin_retires (s : Shm) (pid : Nat) (shmId : Int) : OnlyRetires s (shmAttachBegin s pid shmId) := by
  simp only [shmAttachBegin]
  split
  · exact OnlyRetires.refl s
  split
  · exact OnlyRetires.refl s
  rename_i r _
  split
  · exact OnlyRetires.refl s
  split
  · exact OnlyRetires.refl s
  split
  · exact OnlyRetires.of_regions rfl rfl
  · refine OnlyRetires.trans (OnlyRetires.setRegion (i := r) ?_) (OnlyRetires.of_regions rfl rfl)
    exact fun huse => ⟨huse, rfl⟩

theorem shmAttachMap_retires (s : Shm) (pid : Nat) (free : Bool) : OnlyRetires s (shmAttachMap s pid free) := by
  rw [shmAttachMap]
  split
  · split
    · rename_i hmap
      obtain ⟨-, -, -, rfl⟩ := vmSpaceMapUserPages_true hmap
      exact OnlyRetires.of_regions rfl rfl
    · rename_i hmap
      rw [vmSpaceMapUserPages_false hmap]
      exact OnlyRetires.of_regions rfl rfl
  · exact OnlyRetires.refl s

theorem shmAttachUndo_retires (s : Shm) (pid : Nat) : OnlyRetires s (shmAttachUndo s pid) := by
  rw [shmAttachUndo]
  split
  · refine OnlyRetires.setPhase (OnlyRetires.trans ?_ (dropRef_retires _ _)) pid _
    split
    · exact OnlyRetires.of_regions rfl rfl
    · exact OnlyRetires.refl s
  · exact OnlyRetires.refl s

theorem shmDetachBegin_retires (s : Shm) (pid virtAddr : Nat) : OnlyRetires s (shmDetachBegin s pid virtAddr) := by
  rw [shmDetachBegin]
  split
  · exact OnlyRetires.refl s
  split
  · exact OnlyRetires.refl s
  · exact ((OnlyRetires.setAttachment s _ _).trans (dropRef_retires _ _)).setPhase pid _

theorem shmDetachUnmap_retires (s : Shm) (pid : Nat) (others : Bool) : OnlyRetires s (shmDetachUnmap s pid others) := by
  rw [shmDetachUnmap]
  split
  · exact (vmSpaceUnmapUserPages_retires s pid _ _ others).trans (OnlyRetires.of_regions rfl rfl)
  · exact OnlyRetires.refl s

theorem shmDetachReap_retires (s : Shm) (pid : Nat) : OnlyRetires s (shmDetachReap s pid) := by
  rw [shmDetachReap]
  split
  · refine OnlyRetires.setPhase ?_ pid _
    split
    · exact shmReapRegion_retires s _
    · exact OnlyRetires.refl s
  · exact OnlyRetires.refl s

theorem shmDestroy_retires (s : Shm) (shmId : Int) : OnlyRetires s (shmDestroy s shmId) := by
  rw [shmDestroy]
  split
  · exact OnlyRetires.refl s
  split
  · exact OnlyRetires.refl s
  split
  · exact OnlyRetires.refl s
  · refine OnlyRetires.trans (OnlyRetires.setRegion ?_) (shmReapRegion_retires _ _)
    exact fun huse => ⟨huse, rfl⟩

theorem shmCleanupBegin_retires (s : Shm) (pid target : Nat) : OnlyRetires s (shmCleanupBegin s pid target) := by
  rw [shmCleanupBegin]
  exact (OnlyRetires.foldl cleanupDrop_retires _ s).trans ((cleanupDisown_retires _ target).trans (OnlyRetires.of_regions rfl rfl))

theorem shmCleanupUnmap_retires (s : Shm) (pid : Nat) (others : Bool) : OnlyRetires s (shmCleanupUnmap s pid others) := by
  rw [shmCleanupUnmap]
  split
  · exact (vmSpaceUnmapUserPages_retires s _ _ _ others).trans (OnlyRetires.of_regions rfl rfl)
  · exact OnlyRetires.refl s

theorem shmCleanupFinish_retires (s : Shm) (pid : Nat) : OnlyRetires s (shmCleanupFinish s pid) := by
  rw [shmCleanupFinish]
  split
  · refine OnlyRetires.setPhase (OnlyRetires.trans ?_ (OnlyRetires.foldl cleanupSweep_retires _ _)) pid _
    exact (OnlyRetires.setProcess s _ _).trans (OnlyRetires.foldl cleanupReap_retires _ _)
  · exact OnlyRetires.refl s

/-- A step is a creation, or it creates nothing. -/
theorem ShmStep.retires (s : Shm) (a : ShmStep) (hother : ∀ pid size phys, a ≠ .create pid size phys) : OnlyRetires s (a.step s) := by
  have hbegin : ∀ {pid : Nat} {s' : Shm}, OnlyRetires s s' → OnlyRetires s (if s.idle pid then s' else s) := by
    intro pid s' h
    split
    · exact h
    · exact OnlyRetires.refl s
  cases a with
  | create pid size phys => exact absurd rfl (hother pid size phys)
  | attach pid shmId => exact hbegin (shmAttachBegin_retires s pid shmId)
  | attachMap pid free => exact shmAttachMap_retires s pid free
  | attachUndo pid => exact shmAttachUndo_retires s pid
  | detach pid virtAddr => exact hbegin (shmDetachBegin_retires s pid virtAddr)
  | detachUnmap pid others => exact shmDetachUnmap_retires s pid others
  | detachReap pid => exact shmDetachReap_retires s pid
  | destroy pid shmId => exact hbegin (shmDestroy_retires s shmId)
  | cleanup pid target => exact hbegin (shmCleanupBegin_retires s pid target)
  | cleanupUnmap pid others => exact shmCleanupUnmap_retires s pid others
  | cleanupFinish pid => exact shmCleanupFinish_retires s pid

/-! ### Creations -/

/-- The counter behind a creation. -/
def nextIdAfter (id : Int) : Int :=
  let next := if id = 2 ^ 31 - 1 then -2 ^ 31 else id + 1
  if next < 1 then 1 else next

theorem nextIdAfter_pos (id : Int) : 1 ≤ nextIdAfter id := by
  simp only [nextIdAfter]
  split <;> omega

/-- A creation enters a region in a free slot under the next identifier, or it fails and does nothing. -/
theorem shmCreate_takes (s : Shm) (pid size phys : Nat) :
    (shmCreate s pid size phys = s ∧ shmCreateId s size phys = -1 ∧
        (size = 0 ∨ wrap64 (size + 4095) / 4096 = 0 ∨ phys = 0 ∨ shmAllocRegion s = none)) ∨
      ∃ i, shmAllocRegion s = some i ∧ size ≠ 0 ∧ wrap64 (size + 4095) / 4096 ≠ 0 ∧ phys ≠ 0 ∧ shmCreateId s size phys = s.nextShmId ∧
        shmCreate s pid size phys = { s with
          nextShmId := nextIdAfter s.nextShmId
          regions := Function.update s.regions i ⟨s.nextShmId, pid, phys, wrap64 (wrap64 (size + 4095) / 4096 * 4096),
            wrap64 (size + 4095) / 4096, 0, false, true⟩ } := by
  simp only [shmCreate, shmCreateId]
  by_cases hsize : size = 0
  · rw [if_pos hsize, if_pos hsize]
    exact Or.inl ⟨rfl, rfl, Or.inl hsize⟩
  rw [if_neg hsize, if_neg hsize]
  by_cases hempty : wrap64 (size + 4095) / 4096 = 0 ∨ phys = 0
  · rw [if_pos hempty, if_pos hempty]
    exact Or.inl ⟨rfl, rfl, Or.inr (hempty.imp_right Or.inl)⟩
  rw [if_neg hempty, if_neg hempty]
  cases hslot : shmAllocRegion s with
  | none => exact Or.inl ⟨rfl, rfl, Or.inr (Or.inr (Or.inr rfl))⟩
  | some i => exact Or.inr ⟨i, rfl, hsize, (not_or.mp hempty).1, (not_or.mp hempty).2, rfl, rfl⟩

structure ShmIdsInv (s : Shm) : Prop where
  ids : s.IdsUnique
  next : 1 ≤ s.nextShmId
  slot : ∀ i, (s.regions i).inUse = true → i < shmMaxRegions

/-- Identifiers that are unique are found. -/
theorem Shm.IdsUnique.of_unique (hpositive : ∀ i < shmMaxRegions, (s.regions i).inUse = true → 0 < (s.regions i).id)
    (hunique : ∀ i < shmMaxRegions, ∀ j < shmMaxRegions, (s.regions i).inUse = true → (s.regions j).inUse = true →
      (s.regions i).id = (s.regions j).id → i = j) : s.IdsUnique := by
  refine ⟨hpositive, hunique, fun i hi huse => ?_⟩
  cases hfind : shmFindRegion s (s.regions i).id with
  | none =>
      have hnone := List.find?_eq_none.mp hfind i (List.mem_range.mpr hi)
      simp [huse] at hnone
  | some j =>
      obtain ⟨hj, huse', hid⟩ := shmFindRegion_some hfind
      rw [hunique i hi j hj huse huse' hid.symm]

theorem ShmIdsInv.retires (h : ShmIdsInv s) (hretires : OnlyRetires s s') : ShmIdsInv s' := by
  refine ⟨Shm.IdsUnique.of_unique ?_ ?_, ?_, ?_⟩
  · intro i hi huse
    obtain ⟨huse', hid⟩ := hretires.kept i huse
    rw [hid]
    exact h.ids.positive i hi huse'
  · intro i hi j hj hiuse hjuse hsame
    obtain ⟨hiuse', hiid⟩ := hretires.kept i hiuse
    obtain ⟨hjuse', hjid⟩ := hretires.kept j hjuse
    exact h.ids.unique i hi j hj hiuse' hjuse' (by rw [← hiid, ← hjid, hsame])
  · rw [hretires.nextId]
    exact h.next
  · exact fun i huse => h.slot i (hretires.kept i huse).1

/-- A region enters a free slot under an identifier that no other has. -/
theorem ShmIdsInv.enter (h : ShmIdsInv s) {i : Nat} {r : ShmRegion} {next : Int} (hi : i < shmMaxRegions) (hid : 0 < r.id) (hnext : 1 ≤ next)
    (hfresh : ∀ j < shmMaxRegions, (s.regions j).inUse = true → (s.regions j).id ≠ r.id) :
    ShmIdsInv { s with nextShmId := next, regions := Function.update s.regions i r } := by
  refine ⟨Shm.IdsUnique.of_unique ?_ ?_, hnext, ?_⟩
  · intro j hj huse
    by_cases hji : j = i
    · rw [hji]
      simpa using hid
    · simp only [Function.update_of_ne hji] at huse ⊢
      exact h.ids.positive j hj huse
  · intro j hj k hk hjuse hkuse hsame
    by_cases hji : j = i
    · by_cases hki : k = i
      · rw [hji, hki]
      · simp only [hji, Function.update_self, Function.update_of_ne hki] at hkuse hsame
        exact absurd hsame.symm (hfresh k hk hkuse)
    · by_cases hki : k = i
      · simp only [hki, Function.update_self, Function.update_of_ne hji] at hjuse hsame
        exact absurd hsame (hfresh j hj hjuse)
      · simp only [Function.update_of_ne hji, Function.update_of_ne hki] at hjuse hkuse hsame
        exact h.ids.unique j hj k hk hjuse hkuse hsame
  · intro j huse
    by_cases hji : j = i
    · exact hji ▸ hi
    · simp only [Function.update_of_ne hji] at huse
      exact h.slot j huse

theorem ShmStep.step_ids (s : Shm) (a : ShmStep) (h : ShmIdsInv s) (hfresh : a.Fresh s) : ShmIdsInv (a.step s) := by
  by_cases hcreate : ∃ pid size phys, a = .create pid size phys
  · obtain ⟨pid, size, phys, rfl⟩ := hcreate
    rw [ShmStep.step]
    split
    · rename_i hidle
      rcases shmCreate_takes s pid size phys with ⟨heq, -, -⟩ | ⟨i, hslot, hsize, hpages, hphys, -, heq⟩
      · rw [heq]
        exact h
      · rw [heq]
        have hnone : shmAllocRegion s ≠ none := by simp [hslot]
        exact h.enter (shmAllocRegion_some hslot).1 (by have := h.next; simp only; omega) (nextIdAfter_pos _)
          (hfresh hidle hsize hpages hphys hnone)
    · exact h
  · refine h.retires (ShmStep.retires s a ?_)
    exact fun pid size phys heq => hcreate ⟨pid, size, phys, heq⟩

/-- A creation under the identifier of a region in use makes it ambiguous. -/
theorem ShmStep.step_duplicate (s : Shm) (a : ShmStep) (_ : ShmIdsInv s) (hstale : ¬a.Fresh s) : ¬(a.step s).IdsUnique := by
  cases a with
  | create pid size phys =>
      simp only [Fresh, not_forall] at hstale
      obtain ⟨hidle, hsize, hpages, hphys, hfull, j, hj, huse, hid⟩ := hstale
      rw [not_not] at hid
      rw [ShmStep.step, if_pos hidle]
      rcases shmCreate_takes s pid size phys with ⟨-, -, hfails⟩ | ⟨i, hslot, -, -, -, -, heq⟩
      · rcases hfails with hfails | hfails | hfails | hfails
        · exact absurd hfails hsize
        · exact absurd hfails hpages
        · exact absurd hfails hphys
        · exact absurd hfails hfull
      · obtain ⟨hi, hfree⟩ := shmAllocRegion_some hslot
        have hji : j ≠ i := by
          rintro rfl
          rw [hfree] at huse
          exact Bool.false_ne_true huse
        rw [heq]
        intro hunique
        exact hji (hunique.unique j hj i hi (by simp [Function.update_of_ne hji, huse]) (by simp) (by simp [Function.update_of_ne hji, hid]))
  | attach pid shmId => exact absurd trivial hstale
  | attachMap pid free => exact absurd trivial hstale
  | attachUndo pid => exact absurd trivial hstale
  | detach pid virtAddr => exact absurd trivial hstale
  | detachUnmap pid others => exact absurd trivial hstale
  | detachReap pid => exact absurd trivial hstale
  | destroy pid shmId => exact absurd trivial hstale
  | cleanup pid target => exact absurd trivial hstale
  | cleanupUnmap pid others => exact absurd trivial hstale
  | cleanupFinish pid => exact absurd trivial hstale

theorem ShmStep.createFinds (s : Shm) (a : ShmStep) (h : ShmIdsInv s) (hfresh : a.Fresh s) : a.CreateFinds s := by
  have hafter := ShmStep.step_ids s a h hfresh
  cases a with
  | create pid size phys =>
      intro hidle hid
      rw [ShmStep.step, if_pos hidle] at hafter
      rcases shmCreate_takes s pid size phys with ⟨-, hfails, -⟩ | ⟨i, hslot, -, -, -, hnew, heq⟩
      · exact absurd hfails hid
      · obtain ⟨hi, hfree⟩ := shmAllocRegion_some hslot
        have hregion : (shmCreate s pid size phys).regions i = ⟨s.nextShmId, pid, phys, wrap64 (wrap64 (size + 4095) / 4096 * 4096),
            wrap64 (size + 4095) / 4096, 0, false, true⟩ := by
          rw [heq]
          exact Function.update_self i _ _
        have hfound := hafter.ids.found i hi (by rw [hregion])
        rw [hregion] at hfound
        have := h.next
        rw [hnew]
        exact ⟨by omega, i, _, hfree, hfound, hregion⟩
  | attach pid shmId => trivial
  | attachMap pid free => trivial
  | attachUndo pid => trivial
  | detach pid virtAddr => trivial
  | detachUnmap pid others => trivial
  | detachReap pid => trivial
  | destroy pid shmId => trivial
  | cleanup pid target => trivial
  | cleanupUnmap pid others => trivial
  | cleanupFinish pid => trivial

theorem Shm.start_ids (pml4Phys : Nat → Nat) (ownCursor : Nat → Bool) : ShmIdsInv (Shm.start pml4Phys ownCursor) := by
  have hnone : ∀ i, ((Shm.start pml4Phys ownCursor).regions i).inUse = true → False := fun _ h => Bool.false_ne_true h
  refine ⟨Shm.IdsUnique.of_unique ?_ ?_, le_refl 1, ?_⟩
  · exact fun i _ h => (hnone i h).elim
  · exact fun i _ _ _ h _ _ => (hnone i h).elim
  · exact fun i h => (hnone i h).elim

/-- Identifiers stay unique, and each creation finds its region, in exactly the runs in which no creation takes an identifier in use. -/
theorem shm_ids_unique (pml4Phys : Nat → Nat) (ownCursor : Nat → Bool) (steps : List ShmStep) :
    (Lib.Along Shm.IdsUnique ShmStep.step (Shm.start pml4Phys ownCursor) steps ∧
        Lib.Allowed ShmStep.CreateFinds ShmStep.step (Shm.start pml4Phys ownCursor) steps) ↔
      Lib.Allowed ShmStep.Fresh ShmStep.step (Shm.start pml4Phys ownCursor) steps := by
  have hinit := Shm.start_ids pml4Phys ownCursor
  rw [Lib.along_iff_allowed (fun _ h => h.ids) ShmStep.step_ids ShmStep.step_duplicate hinit]
  exact ⟨And.left, fun h => ⟨h, Lib.allowed_of_invariant ShmStep.step_ids ShmStep.createFinds hinit h⟩⟩

theorem shm_ids_unique_reused :
    Lib.Along Shm.IdsUnique ShmStep.step (Shm.start id fun _ => true) [.create 1 4096 0x200000, .destroy 1 1, .create 2 8192 0x300000] ∧
      Lib.Allowed ShmStep.CreateFinds ShmStep.step (Shm.start id fun _ => true)
        [.create 1 4096 0x200000, .destroy 1 1, .create 2 8192 0x300000] := by
  apply (shm_ids_unique id (fun _ => true) _).mpr
  refine ⟨fun _ _ _ _ _ i hi huse => ?_, trivial, fun _ _ _ _ _ i hi huse => ?_, trivial⟩
  · exact absurd huse Bool.false_ne_true
  · have hnone : ∀ i < shmMaxRegions, ((ShmStep.step (ShmStep.step (Shm.start id fun _ => true) (.create 1 4096 0x200000)) (.destroy 1 1)).regions
        i).inUse = false := by
      decide +kernel
    rw [hnone i hi] at huse
    exact absurd huse Bool.false_ne_true

/-! ### The counter comes round -/

/-- A region is created and destroyed again. -/
def createDestroy (k : Nat) : List ShmStep := [.create 1 4096 0x300000, .destroy 1 (k + 2)]

/-- One region stays, and others come and go until the counter is back at its identifier. -/
def comeRound : List ShmStep :=
  .create 1 4096 0x200000 :: ((List.range (2 ^ 31 - 2)).flatMap createDestroy ++ [.create 1 4096 0x300000])

/-- The region of the first creation is the only one in use. -/
structure FirstOnly (s : Shm) (next : Int) : Prop where
  idle : s.idle 1 = true
  first : s.regions 0 = ⟨1, 1, 0x200000, 4096, 1, 0, false, true⟩
  others : ∀ i ≠ 0, (s.regions i).inUse = false
  next : s.nextShmId = next

theorem FirstOnly.create {next : Int} (h : FirstOnly s next) :
    ShmStep.step s (.create 1 4096 0x300000) = { s with
      nextShmId := nextIdAfter next
      regions := Function.update s.regions 1 ⟨next, 1, 0x300000, 4096, 1, 0, false, true⟩ } := by
  have hslot : shmAllocRegion s = some 1 := by
    rw [shmAllocRegion, List.find?_range_eq_some]
    refine ⟨by simp [h.others 1 (by decide)], by decide, fun j hj => ?_⟩
    rw [Nat.lt_one_iff.mp hj, h.first]
    rfl
  rw [ShmStep.step, if_pos h.idle]
  rcases shmCreate_takes s 1 4096 0x300000 with ⟨-, -, hfails⟩ | ⟨i, hsome, -, -, -, -, heq⟩
  · rw [hslot] at hfails
    exact absurd hfails (by decide)
  · rw [hslot] at hsome
    cases hsome
    rw [heq, h.next]
    rfl

theorem FirstOnly.createDestroy {k : Nat} (h : FirstOnly s (k + 2)) :
    FirstOnly (Lib.run ShmStep.step s (createDestroy k)) (nextIdAfter (k + 2)) := by
  have hregion : (ShmStep.step s (.create 1 4096 0x300000)).regions 1 = ⟨k + 2, 1, 0x300000, 4096, 1, 0, false, true⟩ := by
    rw [h.create]
    simp
  have hkept : ∀ i ≠ 1, (ShmStep.step s (.create 1 4096 0x300000)).regions i = s.regions i := by
    intro i hi
    rw [h.create]
    exact Function.update_of_ne hi _ _
  have hidle : (ShmStep.step s (.create 1 4096 0x300000)).idle 1 = true := by
    rw [h.create]
    exact h.idle
  have hnext : (ShmStep.step s (.create 1 4096 0x300000)).nextShmId = nextIdAfter (k + 2) := by
    rw [h.create]
  rw [Tsukasa.createDestroy, run_cons, run_cons, run_nil]
  generalize ShmStep.step s (.create 1 4096 0x300000) = s' at hregion hkept hidle hnext
  have hfind : shmFindRegion s' (k + 2) = some 1 := by
    rw [shmFindRegion, List.find?_range_eq_some]
    refine ⟨by simp [hregion], by decide, fun j hj => ?_⟩
    rw [Nat.lt_one_iff.mp hj, hkept 0 (by decide), h.first]
    simp
    omega
  have hdestroyed : ShmStep.step s' (.destroy 1 (k + 2)) = { s' with
      regions := Function.update s'.regions 1 ShmRegion.zeroed
      returned := s'.returned ++ [⟨k + 2, 1, 0x300000, 4096, 1, 0, true, true⟩] } := by
    rw [ShmStep.step, if_pos hidle, shmDestroy, if_neg (by omega), hfind]
    simp [hregion, shmReapRegion, Shm.setRegion]
  rw [hdestroyed]
  refine ⟨hidle, ?_, fun i hi => ?_, hnext⟩
  · have hzero : (0 : Nat) ≠ 1 := by decide
    simp only [Function.update_of_ne hzero]
    exact (hkept 0 hzero).trans h.first
  · by_cases hone : i = 1
    · subst hone
      simp [ShmRegion.zeroed]
    · simp [Function.update_of_ne hone, hkept i hone, h.others i hi]

theorem FirstOnly.cycles (h : FirstOnly s 2) (n : Nat) (hn : n ≤ 2 ^ 31 - 3) :
    FirstOnly (Lib.run ShmStep.step s ((List.range n).flatMap Tsukasa.createDestroy)) (n + 2) := by
  induction n with
  | zero => exact h
  | succ n ih =>
      have hcycle := (ih (by omega)).createDestroy
      rw [List.range_succ, List.flatMap_append, run_append, List.flatMap_singleton]
      have hnext : nextIdAfter (n + 2) = ((n + 1 : Nat) : Int) + 2 := by
        simp only [nextIdAfter]
        rw [if_neg (by omega), if_neg (by omega)]
        omega
      rwa [hnext] at hcycle

/-- Behind the last identifier the counter gives the identifier of the first region once more. -/
theorem shm_id_given_twice :
    ¬∀ (pml4Phys : Nat → Nat) (ownCursor : Nat → Bool) (steps : List ShmStep),
      Lib.Along Shm.IdsUnique ShmStep.step (Shm.start pml4Phys ownCursor) steps ∧
        Lib.Allowed ShmStep.CreateFinds ShmStep.step (Shm.start pml4Phys ownCursor) steps := by
  intro hclaim
  have hunique := (hclaim id (fun _ => true) comeRound).1.last
  have hfirst : FirstOnly (ShmStep.step (Shm.start id fun _ => true) (.create 1 4096 0x200000)) 2 := by
    refine ⟨rfl, by decide +kernel, fun i hi => ?_, by decide +kernel⟩
    have hidle : (Shm.start id fun _ => true).idle 1 = true := rfl
    rw [ShmStep.step, if_pos hidle]
    rcases shmCreate_takes (Shm.start id fun _ => true) 1 4096 0x200000 with ⟨heq, -, -⟩ | ⟨j, hslot, -, -, -, -, heq⟩
    · rw [heq]
      rfl
    · have hj : j = 0 := by
        have hzero : shmAllocRegion (Shm.start id fun _ => true) = some 0 := by decide +kernel
        rw [hzero] at hslot
        exact (Option.some.inj hslot).symm
      rw [heq, hj]
      simp only [Function.update_of_ne hi]
      rfl
  have hlast := (hfirst.cycles (2 ^ 31 - 3) le_rfl).createDestroy
  have hround : FirstOnly (Lib.run ShmStep.step (ShmStep.step (Shm.start id fun _ => true) (.create 1 4096 0x200000))
      ((List.range (2 ^ 31 - 2)).flatMap createDestroy)) 1 := by
    have hsucc : 2 ^ 31 - 2 = (2 ^ 31 - 3) + 1 := by omega
    rw [hsucc, List.range_succ, List.flatMap_append, run_append, List.flatMap_singleton]
    exact hlast
  rw [comeRound, run_cons, run_append] at hunique
  generalize Lib.run ShmStep.step _ ((List.range (2 ^ 31 - 2)).flatMap createDestroy) = s at hround hunique
  rw [run_cons, run_nil, hround.create] at hunique
  have hsame := hunique.unique 0 (by decide) 1 (by decide) (by simp [hround.first]) (by simp) (by simp [hround.first])
  omega

end Tsukasa
