import Tsukasa.Ipc.ShmRun
import Tsukasa.Ipc.ShmSequence

/-!
# Shared memory and the page allocator

Sequences of complete calls over the tables and the page allocator, with the rest of the kernel allocating and freeing frames of its own in between. Along every sequence the regions hold frames of the allocator, each its own, and give them back when they leave the table.
-/

namespace Tsukasa

open Lib

structure ShmSystem where
  shm : Shm
  pmm : Pmm
  /-- What the rest of the kernel has allocated and not freed. -/
  others : List Extent

inductive ShmCall where
  | create (pid size : Nat)
  | attach (pid : Nat) (shmId : Int) (mapped : Bool)
  | detach (pid virtAddr : Nat) (others : Bool)
  | destroy (shmId : Int)
  | processCleanup (pid target : Nat) (others : Bool)
  /-- The rest of the kernel allocates or frees frames. -/
  | elsewhere (call : PmmCall)

namespace ShmSystem

/-- `shm_create` with its allocation. -/
def create (w : ShmSystem) (pid size : Nat) : ShmSystem :=
  if size = 0 then w
  else
    let pageCount := wrap64 (size + 4095) / 4096
    let (phys, pmm) := pmmAllocPages w.pmm pageCount
    if phys = 0 then { w with pmm := pmm }
    else
      match shmAllocRegion w.shm with
      | none => { w with pmm := pmmFreePages pmm phys pageCount }
      | some _ => { w with shm := shmCreate w.shm pid size phys, pmm := pmm }

/-- A call on the tables, with the `pmm_free_pages` of the regions that it reaps. -/
def settle (w : ShmSystem) (shm : Shm) : ShmSystem :=
  { w with shm := shm, pmm := freeRegions w.pmm (shm.returned.drop w.shm.returned.length) }

def elsewhere (w : ShmSystem) (call : PmmCall) : ShmSystem :=
  let t := TrackedPmm.step ⟨w.pmm, w.others⟩ call
  { w with pmm := t.pmm, others := t.live }

def step (w : ShmSystem) : ShmCall → ShmSystem
  | .create pid size => w.create pid size
  | .attach pid shmId mapped => w.settle (shmAttach w.shm pid shmId mapped)
  | .detach pid virtAddr others => w.settle (shmDetach w.shm pid virtAddr others)
  | .destroy shmId => w.settle (shmDestroy w.shm shmId)
  | .processCleanup pid target others => w.settle (shmProcessCleanup w.shm pid target others)
  | .elsewhere call => w.elsewhere call

/-- The rest of the kernel frees only what it holds. -/
def Legal (w : ShmSystem) : ShmCall → Prop
  | .elsewhere call => TrackedPmm.Legal ⟨w.pmm, w.others⟩ call
  | _ => True

/-- The allocator with all that is held of it. -/
def tracked (w : ShmSystem) : TrackedPmm := ⟨w.pmm, w.shm.leases.map Prod.snd ++ w.others⟩

structure Inv (w : ShmSystem) : Prop where
  rest : ShmRest w.shm
  frames : w.tracked.Inv

/-- From `w` to `w'` the regions `gone` have left the table, and their frames and no others have become free. -/
structure Handover (w w' : ShmSystem) (gone : List ShmRegion) : Prop where
  returns : Returns w.shm w'.shm gone
  frames : ∀ frame, bitmapGet w'.pmm.bitmap frame = true ↔
    bitmapGet w.pmm.bitmap frame = true ∨ ∃ r ∈ gone, r.lease.2.Holds frame

/-- What a call other than `shm_create` does. -/
theorem Inv.settle {w : ShmSystem} (h : w.Inv) {shm : Shm} (hrest : ShmRest shm) (hsettles : Settles w.shm shm) :
    (w.settle shm).Inv ∧ ∃ gone, Handover w (w.settle shm) gone := by
  obtain ⟨-, gone, hreturns⟩ := hsettles
  have hgone : shm.returned.drop w.shm.returned.length = gone := by rw [hreturns.returned, List.drop_left]
  have hperm : (w.shm.leases.map Prod.snd ++ w.others).Perm
      (gone.map (fun r => r.lease.2) ++ (shm.leases.map Prod.snd ++ w.others)) := by
    have hleases := (hreturns.leases.map Prod.snd).append_right w.others
    rwa [List.map_append, List.map_map, List.append_assoc] at hleases
  obtain ⟨hinv, hframes⟩ := freeRegions_inv (h.frames.perm hperm)
  have heq : w.settle shm = ⟨shm, freeRegions w.pmm gone, w.others⟩ := by rw [ShmSystem.settle, hgone]
  rw [heq]
  exact ⟨⟨hrest, hinv⟩, gone, hreturns, hframes⟩

/-- `shm_create` does nothing, takes a run of free frames and gives it back because the table is full, or takes it for a new region. -/
theorem Inv.create_cases {w : ShmSystem} (h : w.Inv) (pid size : Nat) :
    w.create pid size = w ∨
    ∃ start, 0 < start ∧ 0 < wrap64 (size + 4095) / 4096 ∧ FreeRun w.pmm start (wrap64 (size + 4095) / 4096) ∧
      (w.create pid size = { w with
          pmm := pmmFreePages (w.pmm.take start (wrap64 (size + 4095) / 4096)) (start * pageSize) (wrap64 (size + 4095) / 4096) } ∨
        size ≠ 0 ∧ shmAllocRegion w.shm ≠ none ∧ w.create pid size = { w with
          shm := shmCreate w.shm pid size (start * pageSize), pmm := w.pmm.take start (wrap64 (size + 4095) / 4096) }) := by
  have hsmall : wrap64 (size + 4095) / 4096 ≤ 2 ^ 52 := by
    have hlt := wrap64_lt (size + 4095)
    omega
  simp only [ShmSystem.create]
  split
  · exact Or.inl rfl
  rename_i hsize
  generalize wrap64 (size + 4095) / 4096 = count at *
  have hfailed : pmmAllocPages w.pmm count = (0, w.pmm) ∨ ∃ start, 0 < start ∧ 0 < count ∧ FreeRun w.pmm start count ∧
      pmmAllocPages w.pmm count = (start * pageSize, w.pmm.take start count) := by
    rcases Nat.eq_zero_or_pos count with hzero | hcount
    · rw [hzero]
      exact Or.inl rfl
    rcases pmmAllocPages_cases h.frames.pmm hcount hsmall with ⟨start, hpos, hrun, -, heq⟩ | ⟨-, heq⟩
    · exact Or.inr ⟨start, hpos, hcount, hrun, heq⟩
    · exact Or.inl heq
  rcases hfailed with heq | ⟨start, hpos, hcount, hrun, heq⟩
  · rw [heq]
    exact Or.inl rfl
  · have hne : start * pageSize ≠ 0 := by
      simp only [pageSize]
      omega
    rw [heq]
    simp only [if_neg hne]
    refine Or.inr ⟨start, hpos, hcount, hrun, ?_⟩
    split
    · exact Or.inl rfl
    · rename_i i hslot
      exact Or.inr ⟨hsize, by rw [hslot]; exact Option.some_ne_none i, rfl⟩

/-- Frames that are taken and given back at once are free as before. -/
theorem bitmapGet_taken_back {s : Pmm} {start count : Nat} (hpos : 0 < start) (hcount : 0 < count) (hrun : FreeRun s start count)
    (frame : Nat) : bitmapGet (pmmFreePages (s.take start count) (start * pageSize) count).bitmap frame = bitmapGet s.bitmap frame := by
  have htaken : ∀ i < count, bitmapGet (s.take start count).bitmap (start + i) = false := by
    intro i hi
    rw [Pmm.bitmapGet_take, if_pos ⟨by omega, by omega⟩]
  have hbound : start + count ≤ (s.take start count).totalFrames := hrun.1
  rw [pmmFreePages_of_taken hpos hcount hbound htaken, Pmm.bitmapGet_giveBack, Pmm.bitmapGet_take]
  split
  · rename_i hin
    have hfree := hrun.2 (frame - start) (by omega)
    rw [show start + (frame - start) = frame by omega] at hfree
    exact hfree.symm
  · rfl

/-- What `shm_create` does: it changes nothing, or it takes frames for a new region. -/
theorem Inv.create {w : ShmSystem} (h : w.Inv) (hnext : w.shm.nextShmId < 2 ^ 31 - 1) (pid size : Nat) {w' : ShmSystem}
    (hw' : w' = w.create pid size) :
    w'.Inv ∧ w'.shm.nextShmId ≤ w.shm.nextShmId + 1 ∧ w'.shm.returned = w.shm.returned ∧
      (w'.shm.leases = w.shm.leases ∧ (∀ frame, bitmapGet w'.pmm.bitmap frame = bitmapGet w.pmm.bitmap frame) ∨
        ∃ e : Extent, w'.shm.leases.Perm ((w.shm.nextShmId, e) :: w.shm.leases) ∧
          ∀ frame, bitmapGet w'.pmm.bitmap frame = true ↔ bitmapGet w.pmm.bitmap frame = true ∧ ¬ e.Holds frame) := by
  rcases h.create_cases pid size with heq | ⟨start, hpos, hcount, hrun, heq | ⟨hsize, hroom, heq⟩⟩
  · rw [hw', heq]
    exact ⟨h, by omega, rfl, Or.inl ⟨rfl, fun _ => rfl⟩⟩
  · rw [hw', heq]
    refine ⟨⟨h.rest, ?_⟩, by simp only; omega, rfl, Or.inl ⟨rfl, bitmapGet_taken_back hpos hcount hrun⟩⟩
    have hheld := h.frames.hold hpos hcount hrun
    have hback := hheld.free List.mem_cons_self
    simpa [TrackedPmm.step, tracked] using hback
  · have hphys : start * pageSize ≠ 0 := by
      simp only [pageSize]
      omega
    obtain ⟨hledger, hreturned, hnextId, hproc, hatts, hpending, hleases⟩ :=
      @ShmLedger.create w.shm h.rest.ledger hnext pid size (start * pageSize) hsize (Nat.pos_iff_ne_zero.mp hcount) hphys hroom _ rfl
    rw [hw', heq]
    generalize shmCreate w.shm pid size (start * pageSize) = shm at *
    generalize wrap64 (size + 4095) / 4096 = count at *
    refine ⟨⟨⟨hledger, fun q => ?_, fun q => ?_, fun j huse hdestroy => ?_⟩, ?_⟩, by simp only; omega, hreturned,
      Or.inr ⟨⟨start * pageSize, count⟩, hleases, fun frame => ?_⟩⟩
    · rw [hproc]
      exact h.rest.idle q
    · rw [Shm.holding, hatts, hproc]
      exact h.rest.counts q
    · rcases hpending j with hsame | hnew
      · simp only [hsame] at huse hdestroy ⊢
        exact h.rest.pending j huse hdestroy
      · simp only [hnew] at hdestroy
        cases hdestroy
    · have hheld := h.frames.hold hpos hcount hrun
      apply hheld.perm
      exact ((hleases.map Prod.snd).append_right w.others).symm
    · have hfirst : Extent.first ⟨start * pageSize, count⟩ = start := Nat.mul_div_cancel _ (by decide)
      rw [Pmm.bitmapGet_take, Extent.Holds, hfirst]
      split
      · rename_i hin
        simp [hin]
      · rename_i hout
        simp [hout]

theorem Inv.elsewhere {w : ShmSystem} (h : w.Inv) {call : PmmCall} (hlegal : TrackedPmm.Legal ⟨w.pmm, w.others⟩ call) :
    (w.elsewhere call).Inv := by
  cases call with
  | alloc count =>
      have hstep : TrackedPmm.Inv (TrackedPmm.step ⟨w.pmm, w.shm.leases.map Prod.snd ++ w.others⟩ (.alloc count)) := h.frames.alloc hlegal
      simp only [TrackedPmm.step] at hstep
      simp only [ShmSystem.elsewhere, TrackedPmm.step]
      refine ⟨h.rest, ?_⟩
      by_cases hzero : (pmmAllocPages w.pmm count).1 = 0
      · simp only [hzero, if_true] at hstep ⊢
        exact hstep
      · rw [if_neg hzero] at hstep ⊢
        exact hstep.perm List.perm_middle.symm
  | free e =>
      have hmem : e ∈ w.tracked.live := List.mem_append_right _ hlegal
      have hperm : w.tracked.live.Perm (e :: (w.shm.leases.map Prod.snd ++ w.others.erase e)) :=
        ((List.perm_cons_erase hlegal).append_left _).trans List.perm_middle
      have hfirst : TrackedPmm.Inv ⟨w.pmm, e :: (w.shm.leases.map Prod.snd ++ w.others.erase e)⟩ := h.frames.perm hperm
      have hstep := hfirst.free List.mem_cons_self
      rw [TrackedPmm.step, List.erase_cons_head] at hstep
      exact ⟨h.rest, hstep⟩

/-- What one call does. -/
def Effect (w : ShmSystem) (call : ShmCall) (w' : ShmSystem) : Prop :=
  match call with
  | .create _ _ => w'.shm.returned = w.shm.returned ∧
      (w'.shm.leases = w.shm.leases ∧ (∀ frame, bitmapGet w'.pmm.bitmap frame = bitmapGet w.pmm.bitmap frame) ∨
        ∃ e : Extent, w'.shm.leases.Perm ((w.shm.nextShmId, e) :: w.shm.leases) ∧
          ∀ frame, bitmapGet w'.pmm.bitmap frame = true ↔ bitmapGet w.pmm.bitmap frame = true ∧ ¬ e.Holds frame)
  | .elsewhere _ => w'.shm = w.shm
  | _ => ∃ gone, Handover w w' gone

/-- A call that does not meet the end of the identifiers keeps the invariant. -/
theorem Inv.step {w : ShmSystem} (h : w.Inv) {call : ShmCall} (hlegal : w.Legal call)
    (hnext : ∀ pid size, call = .create pid size → w.shm.nextShmId < 2 ^ 31 - 1) :
    (w.step call).Inv ∧ w.Effect call (w.step call) := by
  cases call with
  | create pid size =>
      obtain ⟨hinv, -, hreturned, hframes⟩ := h.create (hnext pid size rfl) pid size rfl
      exact ⟨hinv, hreturned, hframes⟩
  | attach pid shmId mapped =>
      obtain ⟨hrest, hsettles⟩ := shmAttach_rest h.rest pid shmId mapped
      exact h.settle hrest hsettles
  | detach pid virtAddr others =>
      obtain ⟨hrest, hsettles⟩ := shmDetach_rest h.rest pid virtAddr others
      exact h.settle hrest hsettles
  | destroy shmId =>
      obtain ⟨hrest, hsettles⟩ := shmDestroy_rest h.rest shmId
      exact h.settle hrest hsettles
  | processCleanup pid target others =>
      obtain ⟨hrest, hsettles⟩ := shmProcessCleanup_rest h.rest pid target others
      exact h.settle hrest hsettles
  | elsewhere call => exact ⟨h.elsewhere hlegal, rfl⟩

def creates : ShmCall → Nat
  | .create _ _ => 1
  | _ => 0

/-- Only a creation uses up an identifier. -/
theorem Inv.nextId {w : ShmSystem} (h : w.Inv) {call : ShmCall} (hlegal : w.Legal call)
    (hnext : ∀ pid size, call = .create pid size → w.shm.nextShmId < 2 ^ 31 - 1) :
    (w.step call).shm.nextShmId ≤ w.shm.nextShmId + creates call := by
  have heffect := (h.step hlegal hnext).2
  cases call with
  | create pid size =>
      exact (h.create (hnext pid size rfl) pid size rfl).2.1
  | elsewhere call =>
      have hsame : (w.step (.elsewhere call)).shm = w.shm := heffect
      rw [hsame]
      simp [creates]
  | _ =>
      obtain ⟨gone, hreturns, -⟩ := heffect
      rw [hreturns.nextId]
      simp [creates]

theorem lt_of_creates {w : ShmSystem} {call : ShmCall} {left : Nat} (hids : w.shm.nextShmId + (creates call + left : Nat) < 2 ^ 31)
    (pid size : Nat) (heq : call = .create pid size) : w.shm.nextShmId < 2 ^ 31 - 1 := by
  rw [heq, creates] at hids
  push_cast at hids
  omega

/-- A run with identifiers left for its creations keeps the invariant. -/
theorem Inv.run {calls : List ShmCall} {w : ShmSystem} (h : w.Inv) (hlegal : Allowed Legal ShmSystem.step w calls)
    (hids : w.shm.nextShmId + (calls.map creates).sum < 2 ^ 31) :
    (Lib.run ShmSystem.step w calls).Inv ∧
      (Lib.run ShmSystem.step w calls).shm.nextShmId ≤ w.shm.nextShmId + (calls.map creates).sum := by
  induction calls generalizing w with
  | nil => exact ⟨h, by simp⟩
  | cons call calls ih =>
      rw [List.map_cons, List.sum_cons] at hids ⊢
      have hnext := lt_of_creates hids
      have hbound := h.nextId hlegal.1 hnext
      rw [Nat.cast_add] at hids ⊢
      obtain ⟨hinv, hlast⟩ := ih (h.step hlegal.1 hnext).1 hlegal.2 (by omega)
      exact ⟨hinv, by rw [run_cons]; omega⟩

/-- Before the first call, on an allocator that has just been initialised. -/
def start (pml4Phys : Nat → Nat) (ownCursor : Nat → Bool) (kernel : KernelImage) (info : BootInfo) (pmm : Pmm) : ShmSystem :=
  ⟨Shm.start pml4Phys ownCursor, (pmmInit kernel info pmm).2, []⟩

theorem start_inv (pml4Phys : Nat → Nat) (ownCursor : Nat → Bool) {kernel : KernelImage} {info : BootInfo} {pmm : Pmm}
    (hinit : (pmmInit kernel info pmm).1 = 0) : (start pml4Phys ownCursor kernel info pmm).Inv := by
  have hleases : (Shm.start pml4Phys ownCursor).leases = [] := by
    simp [Shm.leases, occupied, Shm.start, ShmRegion.zeroed]
  have hregions : ∀ i, ((Shm.start pml4Phys ownCursor).regions i).inUse ≠ true := fun _ => Bool.false_ne_true
  have hattachments : ∀ i, ((Shm.start pml4Phys ownCursor).attachments i).inUse ≠ true := fun _ => Bool.false_ne_true
  refine ⟨⟨⟨(Shm.start_inv pml4Phys ownCursor).core.books, ?_, List.nodup_nil⟩, fun _ => rfl, fun _ => ?_, ?_⟩, ?_⟩
  · exact fun i hi => absurd hi (hregions i)
  · exact tally_eq_zero fun i _ h => hattachments i h.1
  · exact fun i hi => absurd hi (hregions i)
  · refine ⟨pmmInit_inv hinit, fun e he => ?_, ?_⟩
    · simp [tracked, start, hleases] at he
    · simp [tracked, start, hleases]

/-- The books of a state and its frames agree. -/
structure Sound (w : ShmSystem) : Prop where
  refs : ∀ i, (w.shm.regions i).inUse = true → (w.shm.regions i).refCount = w.shm.attached (w.shm.regions i).id
  backed : ∀ i, (w.shm.attachments i).inUse = true →
    ∃ r, (w.shm.regions r).inUse = true ∧ (w.shm.regions r).id = (w.shm.attachments i).shmId
  single : ∀ i j, (w.shm.attachments i).inUse = true → (w.shm.attachments j).inUse = true →
    (w.shm.attachments i).key = (w.shm.attachments j).key → i = j
  disjoint : ∀ i j, (w.shm.regions i).inUse = true → (w.shm.regions j).inUse = true → i ≠ j →
    (w.shm.regions i).lease.2.Disjoint (w.shm.regions j).lease.2
  taken : ∀ i, (w.shm.regions i).inUse = true → ∀ frame, (w.shm.regions i).lease.2.Holds frame → bitmapGet w.pmm.bitmap frame = false
  pending : w.shm.NoneOverdue
  once : (w.shm.returned.map ShmRegion.id).Nodup
  gone : ∀ r ∈ w.shm.returned, ∀ i, (w.shm.regions i).inUse = true → (w.shm.regions i).id ≠ r.id

theorem Inv.sound {w : ShmSystem} (h : w.Inv) : w.Sound := by
  have hbooks := h.rest.ledger.books
  have hmem : ∀ i, (w.shm.regions i).inUse = true → w.shm.regions i ∈ occupied shmMaxRegions ShmRegion.inUse w.shm.regions :=
    fun i hi => mem_occupied.mpr ⟨i, hbooks.regionSlot i hi, rfl, hi⟩
  have hlive : ∀ i, (w.shm.regions i).inUse = true → (w.shm.regions i).lease.2 ∈ w.tracked.live := by
    intro i hi
    apply List.mem_append_left
    exact List.mem_map_of_mem (List.mem_map_of_mem (hmem i hi))
  constructor
  · exact hbooks.refs
  · exact hbooks.backed
  · intro i j hi hj hkey
    by_contra hne
    exact (hbooks.distinct i j hi hj hne (congrArg Prod.fst hkey)).1 (congrArg Prod.snd hkey)
  · intro i j hi hj hne
    have hpairs := (List.pairwise_append.mp h.frames.disjoint).1
    rw [Shm.leases, List.map_map, List.pairwise_map] at hpairs
    have hsymm : Std.Symm fun r r' : ShmRegion => (r.lease.2).Disjoint r'.lease.2 := ⟨fun _ _ hd frame hboth => hd frame hboth.symm⟩
    apply hpairs.forall (hmem i hi) (hmem j hj)
    intro heq
    exact hne (hbooks.idUnique i j hi hj (congrArg ShmRegion.id heq))
  · intro i hi
    exact (h.frames.backed _ (hlive i hi)).taken
  · exact h.rest.pending
  · exact h.rest.ledger.once
  · intro r hr
    exact (hbooks.returnedId r hr).2

end ShmSystem

/-- Along every sequence of complete calls with fewer than `2 ^ 31 - 1` creations the books and the frames agree, and a call other than a creation returns exactly the frames of the regions that it takes out of the table. -/
theorem shm_bookkeeping (pml4Phys : Nat → Nat) (ownCursor : Nat → Bool) {kernel : KernelImage} {info : BootInfo} {pmm : Pmm}
    (hinit : (pmmInit kernel info pmm).1 = 0) {calls : List ShmCall}
    (hlegal : Allowed ShmSystem.Legal ShmSystem.step (ShmSystem.start pml4Phys ownCursor kernel info pmm) calls)
    (hcreates : (calls.map ShmSystem.creates).sum < 2 ^ 31 - 1) :
    let w := run ShmSystem.step (ShmSystem.start pml4Phys ownCursor kernel info pmm) calls
    w.Sound ∧ ∀ call, w.Legal call → ((calls ++ [call]).map ShmSystem.creates).sum < 2 ^ 31 - 1 →
      (w.step call).Sound ∧ w.Effect call (w.step call) := by
  have hnextId : (ShmSystem.start pml4Phys ownCursor kernel info pmm).shm.nextShmId = 1 := rfl
  intro w
  obtain ⟨hinv, hbound⟩ : w.Inv ∧ w.shm.nextShmId ≤ _ := (ShmSystem.start_inv pml4Phys ownCursor hinit).run hlegal (by omega)
  refine ⟨hinv.sound, fun call hcall hcreates => ?_⟩
  have hleft : w.shm.nextShmId + (ShmSystem.creates call + 0 : Nat) < 2 ^ 31 := by
    rw [List.map_append, List.sum_append, List.map_singleton, List.sum_singleton] at hcreates
    omega
  obtain ⟨hstep, heffect⟩ := hinv.step hcall (ShmSystem.lt_of_creates hleft)
  exact ⟨hstep.sound, heffect⟩

/-- A region that two processes attach to, one of them in vain, and that the exit of its owner destroys. -/
theorem shm_bookkeeping_ownerExit :
    let w := ShmSystem.start (fun pid => pid * 4096) (fun _ => true) ⟨0, 0⟩ oneMegabyte ⟨fun _ => 0#8, 0, 0, 0⟩
    let calls : List ShmCall := [.create 1 5000, .attach 1 1 true, .attach 2 1 false, .processCleanup 3 1 true]
    Allowed ShmSystem.Legal ShmSystem.step w calls ∧ (run ShmSystem.step w calls).Sound := by
  intro w calls
  have hlegal : Allowed ShmSystem.Legal ShmSystem.step w calls := ⟨trivial, trivial, trivial, trivial, trivial⟩
  exact ⟨hlegal, (shm_bookkeeping (fun pid => pid * 4096) (fun _ => true) rfl hlegal (by decide)).1⟩

end Tsukasa
