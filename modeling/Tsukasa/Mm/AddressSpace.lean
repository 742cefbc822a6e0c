import Tsukasa.Mm.VmmRange
import Tsukasa.Lib.Run

/-!
# The lifetime of an address space

`vmm_create_address_space` takes one frame, the calls on user ranges take frames for tables and never give one back, and `vmm_destroy_address_space` walks the tree and gives every table back. The frames that are free or in the tree stay the same through all of this, and after the destroy the tree is gone, so the allocator is where it was.
-/

namespace Tsukasa

open Lib.Radix

/-! ### Giving back a set of frames -/

/-- From every state in which the frames of `S` are taken, `f` gives back exactly them. -/
def Releases (S : Set Nat) (f : Pmm → Pmm) : Prop :=
  ∀ s : Pmm, s.Inv → (∀ frame ∈ S, 0 < frame ∧ frame < pmmFrameCount ∧ bitmapGet s.bitmap frame = false) →
    (f s).Inv ∧ ∀ frame, bitmapGet (f s).bitmap frame = true ↔ bitmapGet s.bitmap frame = true ∨ frame ∈ S

namespace Releases

variable {S T : Set Nat} {f g : Pmm → Pmm}

theorem refl (hempty : ∀ frame, frame ∉ S) : Releases S fun s => s :=
  fun _ hs _ => ⟨hs, fun frame => by simp [hempty frame]⟩

theorem congr_set (h : Releases S f) (heq : ∀ frame, frame ∈ T ↔ frame ∈ S) : Releases T f := by
  intro s hs htaken
  obtain ⟨hinv, hbits⟩ := h s hs fun frame hframe => htaken frame ((heq frame).mpr hframe)
  exact ⟨hinv, fun frame => by rw [hbits, heq]⟩

theorem free (start : Nat) : Releases {start} fun s => pmmFreePages s (start * pageSize) 1 := by
  intro s hs htaken
  obtain ⟨hpos, hlt, hbit⟩ := htaken start rfl
  have hbound : start + 1 ≤ s.totalFrames := by rw [hs.total]; omega
  have hrun : ∀ i < 1, bitmapGet s.bitmap (start + i) = false := by
    intro i hi
    rw [Nat.lt_one_iff.mp hi, Nat.add_zero, hbit]
  simp only [pmmFreePages_of_taken hpos (show 0 < 1 by decide) hbound hrun]
  refine ⟨hs.giveBack hpos hbound hrun, fun frame => ?_⟩
  rw [Pmm.bitmapGet_giveBack, Set.mem_singleton_iff]
  by_cases heq : frame = start
  · rw [if_pos (by omega)]
    simp [heq]
  · rw [if_neg (by omega)]
    simp [heq]

/-- Two releases of disjoint sets, one after the other. -/
theorem comp (hf : Releases S f) (hg : Releases T g) (hdisjoint : ∀ frame ∈ S, frame ∉ T) :
    Releases (S ∪ T) fun s => g (f s) := by
  intro s hs htaken
  obtain ⟨hinv, hbits⟩ := hf s hs fun frame hframe => htaken frame (Or.inl hframe)
  obtain ⟨hinv', hbits'⟩ := hg (f s) hinv fun frame hframe => by
    obtain ⟨hpos, hlt, hbit⟩ := htaken frame (Or.inr hframe)
    refine ⟨hpos, hlt, ?_⟩
    rw [Bool.eq_false_iff, ne_eq, hbits, hbit]
    exact fun h => h.elim (by simp) fun hin => hdisjoint frame hin hframe
  exact ⟨hinv', fun frame => by rw [hbits', hbits, or_assoc, Set.mem_union]⟩

/-- A loop that releases pairwise disjoint sets releases their union. -/
theorem foldl {l : List Nat} {f : Nat → Pmm → Pmm} {S : Nat → Set Nat} (hf : ∀ i ∈ l, Releases (S i) (f i))
    (hnodup : l.Nodup) (hdisjoint : ∀ i j frame, frame ∈ S i → frame ∈ S j → i = j) :
    Releases {frame | ∃ i ∈ l, frame ∈ S i} fun s => l.foldl (fun s i => f i s) s := by
  induction l with
  | nil => exact refl fun frame => by simp
  | cons i l ih =>
      rw [List.nodup_cons] at hnodup
      have hrest := ih (fun j hj => hf j (List.mem_cons_of_mem i hj)) hnodup.2
      refine ((hf i List.mem_cons_self).comp hrest ?_).congr_set fun frame => ?_
      · rintro frame hframe ⟨j, hj, hframe'⟩
        exact hnodup.1 (hdisjoint i j frame hframe hframe' ▸ hj)
      · simp [Set.mem_union]

end Releases

namespace Vmm

variable {root : Nat} {v : Vmm}

/-! ### Taking the tree down -/

/-- The frames of the tables at or below a path. -/
def Below (v : Vmm) (root : Nat) (p : List Nat) : Set Nat :=
  {frame | ∃ q ∈ UserPath, p <+: q ∧ v.tableAt root q = some (frame * pageSize)}

/-- The frames of the tables below the entries of the table at a path. -/
def Children (v : Vmm) (root : Nat) (p : List Nat) : Set Nat :=
  {frame | ∃ q ∈ UserPath, p <+: q ∧ p ≠ q ∧ v.tableAt root q = some (frame * pageSize)}

theorem below_disjoint (htree : v.UserTree root) {p : List Nat} {i j frame : Nat} (hi : frame ∈ v.Below root (p ++ [i]))
    (hj : frame ∈ v.Below root (p ++ [j])) : i = j := by
  obtain ⟨q, hq, hpre, htable⟩ := hi
  obtain ⟨q', hq', hpre', htable'⟩ := hj
  obtain rfl := htree.separate q hq q' hq' _ htable htable'
  have := List.prefix_of_prefix_length_le hpre hpre' (by simp)
  simpa using this.eq_of_length (by simp)

theorem below_eq_empty {p : List Nat} (hnone : v.tableAt root p = none) (frame : Nat) : frame ∉ v.Below root p := by
  rintro ⟨q, -, hpre, htable⟩
  obtain ⟨last, hlast⟩ := descend_isSome_of_extended tableBelow hpre htable
  rw [← tableAt, hnone] at hlast
  simp at hlast

theorem mem_below_iff (htree : v.UserTree root) {p : List Nat} (hp : p ∈ UserPath) {table : Nat}
    (htable : v.tableAt root p = some table) (frame : Nat) :
    frame ∈ v.Below root p ↔ frame ∈ v.Children root p ∪ {addrToFrame table} := by
  have heq := (htree.taken p hp table htable).eq_mul
  rw [Set.mem_union, Set.mem_singleton_iff]
  constructor
  · rintro ⟨q, hq, hpre, hq'⟩
    by_cases hpq : p = q
    · subst hpq
      have : frame * pageSize = table := Option.some.inj (hq'.symm.trans htable)
      right
      rw [← this, addrToFrame, Nat.mul_div_cancel _ (by decide)]
    · exact Or.inl ⟨q, hq, hpre, hpq, hq'⟩
  · rintro (⟨q, hq, hpre, -, hq'⟩ | rfl)
    · exact ⟨q, hq, hpre, hq'⟩
    · exact ⟨p, hp, List.prefix_refl p, heq ▸ htable⟩

/-- A table is not among the tables below it. -/
theorem not_mem_children (htree : v.UserTree root) {p : List Nat} (hp : p ∈ UserPath) {table : Nat}
    (htable : v.tableAt root p = some table) : addrToFrame table ∉ v.Children root p := by
  rintro ⟨q, hq, -, hne, hq'⟩
  rw [← (htree.taken p hp table htable).eq_mul] at hq'
  exact hne (htree.separate p hp q hq table htable hq')

/-- The tables below a table are those at or below the paths one index longer. -/
theorem mem_children_iff {p : List Nat} (bound : Nat) (hbound : ∀ i, p ++ [i] ∈ UserPath → i < bound) (frame : Nat) :
    frame ∈ v.Children root p ↔ ∃ i ∈ List.range bound, frame ∈ v.Below root (p ++ [i]) := by
  constructor
  · rintro ⟨q, hq, hpre, hne, htable⟩
    obtain ⟨_ | ⟨i, rest⟩, rfl⟩ := hpre
    · simp at hne
    · have hpre' : p ++ [i] <+: p ++ i :: rest := ⟨rest, by simp⟩
      exact ⟨i, List.mem_range.mpr (hbound i (userPath_prefixClosed _ _ hpre' hq)), _, hq, hpre', htable⟩
  · rintro ⟨i, -, q, hq, hpre, htable⟩
    refine ⟨q, hq, (List.prefix_append p [i]).trans hpre, ?_, htable⟩
    rintro rfl
    have := hpre.length_le
    simp at this

/-- One table given back after the tables below it. -/
theorem releases_below (htree : v.UserTree root) {p : List Nat} (hp : p ∈ UserPath) {table : Nat}
    (htable : v.tableAt root p = some table) {inner : Pmm → Pmm} (hinner : Releases (v.Children root p) inner) :
    Releases (v.Below root p) fun s => pmmFreePages (inner s) table 1 := by
  have heq := (htree.taken p hp table htable).eq_mul
  have hfree := Releases.free (addrToFrame table)
  rw [← heq] at hfree
  refine (hinner.comp hfree ?_).congr_set (mem_below_iff htree hp htable)
  rintro frame hframe rfl
  exact not_mem_children htree hp htable hframe

/-- A loop over the entries of a table that takes down what is below each of them. -/
theorem releases_children (htree : v.UserTree root) {p : List Nat} (bound : Nat) (hbound : ∀ i, p ++ [i] ∈ UserPath → i < bound)
    {body : Nat → Pmm → Pmm} (hbody : ∀ i < bound, Releases (v.Below root (p ++ [i])) (body i)) :
    Releases (v.Children root p) fun s => (List.range bound).foldl (fun s i => body i s) s :=
  (Releases.foldl (S := fun i => v.Below root (p ++ [i])) (fun i hi => hbody i (List.mem_range.mp hi)) List.nodup_range
    fun _ _ _ => below_disjoint htree).congr_set (mem_children_iff bound hbound)

theorem tableAt_of_present {p : List Nat} {table i : Nat} (htable : v.tableAt root p = some table)
    (hpresent : v.tables table i &&& ptePresent ≠ 0#64) : v.tableAt root (p ++ [i]) = some (tableVirt (v.tables table i)) := by
  rw [tableAt_concat, htable, Option.bind_some, tableBelow_of_present hpresent]

theorem below_empty_of_absent {p : List Nat} {table i : Nat} (htable : v.tableAt root p = some table)
    (habsent : v.tables table i &&& ptePresent = 0#64) (frame : Nat) : frame ∉ v.Below root (p ++ [i]) := by
  refine below_eq_empty ?_ frame
  rw [tableAt_concat, htable, Option.bind_some, tableBelow_eq_none.mpr habsent]

section Levels

variable (htree : v.UserTree root)
include htree

theorem destroyPd_releases {p : List Nat} (hlen : p.length = 2) (hp : ∀ i < 512, p ++ [i] ∈ UserPath) {pd : Nat}
    (htable : v.tableAt root p = some pd) : Releases (v.Children root p) (destroyPd v.tables pd) := by
  delta destroyPd
  refine releases_children htree 512 (fun i hi => hi.2.2 i (by simp)) fun i hi => ?_
  by_cases hpresent : v.tables pd i &&& ptePresent = 0#64
  · simp only [BitVec.ofNat_eq_ofNat, hpresent, if_true]
    exact Releases.refl (below_empty_of_absent htable hpresent)
  · have hbelow := tableAt_of_present htable hpresent
    have hflag := (htree.flags p i (hp i hi) pd htable hpresent).2
    have hne := (htree.taken _ (hp i hi) _ hbelow).ne_zero
    simp only [BitVec.ofNat_eq_ofNat, hpresent, hflag, hne, if_false, ne_eq, not_true_eq_false]
    refine releases_below htree (hp i hi) hbelow (Releases.refl ?_)
    -- no user path goes below a page table
    rintro frame ⟨q, hq, hpre, hne, -⟩
    have hle := hpre.length_le
    simp only [List.length_append, List.length_singleton] at hle
    exact hne (hpre.eq_of_length (by have := hq.1; simp only [List.length_append, List.length_singleton]; omega))

theorem destroyPdpt_releases {p : List Nat} (hlen : p.length = 1) (hp : ∀ i < 512, ∀ j < 512, p ++ [i] ++ [j] ∈ UserPath)
    {pdpt : Nat} (htable : v.tableAt root p = some pdpt) : Releases (v.Children root p) (destroyPdpt v.tables pdpt) := by
  delta destroyPdpt
  refine releases_children htree 512 (fun i hi => hi.2.2 i (by simp)) fun i hi => ?_
  by_cases hpresent : v.tables pdpt i &&& ptePresent = 0#64
  · simp only [BitVec.ofNat_eq_ofNat, hpresent, if_true]
    exact Releases.refl (below_empty_of_absent htable hpresent)
  · have hbelow := tableAt_of_present htable hpresent
    have hmem : p ++ [i] ∈ UserPath := userPath_prefixClosed _ _ (List.prefix_append _ [0]) (hp i hi 0 (by decide))
    simp only [BitVec.ofNat_eq_ofNat, hpresent, if_false]
    exact releases_below htree hmem hbelow (destroyPd_releases htree (by simp [hlen]) (hp i hi) hbelow)

theorem destroyPml4_releases : Releases (v.Children root []) (destroyPml4 v.tables root) := by
  have hmem : ∀ i < 256, ∀ j < 512, ∀ k < 512, [i] ++ [j] ++ [k] ∈ UserPath := by
    intro i hi j hj k hk
    refine ⟨by simp, by simpa using hi, ?_⟩
    simp only [List.cons_append, List.nil_append, List.mem_cons, List.not_mem_nil, or_false]
    rintro n (rfl | rfl | rfl) <;> omega
  delta destroyPml4
  refine releases_children htree 256 (fun i hi => hi.2.1 i (by simp)) fun i hi => ?_
  by_cases hpresent : v.tables root i &&& ptePresent = 0#64
  · simp only [BitVec.ofNat_eq_ofNat, hpresent, if_true]
    exact Releases.refl (below_empty_of_absent rfl hpresent)
  · have hbelow := tableAt_of_present (p := []) rfl hpresent
    have hmem' : [] ++ [i] ∈ UserPath :=
      userPath_prefixClosed _ _ ⟨[0, 0], rfl⟩ (hmem i hi 0 (by decide) 0 (by decide))
    simp only [BitVec.ofNat_eq_ofNat, hpresent, if_false]
    exact releases_below htree hmem' hbelow (destroyPdpt_releases htree rfl (hmem i hi) hbelow)

end Levels

/-- After the destroy exactly the frames that were free or in the tree are free. -/
theorem vmmDestroyAddressSpace_spec (hinv : v.pmm.Inv) (htree : v.UserTree root) (hcurrent : v.currentPml4 ≠ root) :
    (vmmDestroyAddressSpace v root).2.pmm.Inv ∧
      ∀ frame, bitmapGet (vmmDestroyAddressSpace v root).2.pmm.bitmap frame = true ↔ v.Owned root frame := by
  have hroot := htree.root_taken
  have haligned : pagingIsPageAligned root = true := (pagingIsPageAligned_iff root).mpr hroot.aligned
  have hreleases := releases_below htree nil_mem_userPath rfl (destroyPml4_releases htree)
  obtain ⟨hinv', hbits⟩ := hreleases v.pmm hinv fun frame ⟨q, hq, _, htable⟩ => by
    have htaken := htree.taken q hq _ htable
    have hframe : addrToFrame (frame * pageSize) = frame := Nat.mul_div_cancel _ (by decide)
    rw [← hframe]
    exact ⟨htaken.pos, hinv.total ▸ htaken.tracked, htaken.taken⟩
  have hres : (vmmDestroyAddressSpace v root).2.pmm = pmmFreePages (destroyPml4 v.tables root v.pmm) root 1 := by
    simp [vmmDestroyAddressSpace, hroot.ne_zero, haligned, hroot.tableVirt hinv, Ne.symm hcurrent]
  rw [hres]
  refine ⟨hinv', fun frame => (hbits frame).trans (or_congr Iff.rfl ?_)⟩
  simp [Below]

/-! ### Creating the tree -/

theorem copyKernelHalf_spec (v : Vmm) (dst src : Nat) :
    (copyKernelHalf v dst src).pmm = v.pmm ∧ (copyKernelHalf v dst src).currentPml4 = v.currentPml4 ∧
      ∀ table i, (table ≠ dst ∨ i < 256) → (copyKernelHalf v dst src).tables table i = v.tables table i := by
  rw [copyKernelHalf]
  have hge : ∀ i ∈ List.range' 256 256, 256 ≤ i := fun i hi => (List.mem_range'_1.mp hi).1
  generalize List.range' 256 256 = l at hge
  induction l generalizing v with
  | nil => exact ⟨rfl, rfl, fun _ _ _ => rfl⟩
  | cons i l ih =>
      obtain ⟨hpmm, hcurrent, htables⟩ := ih (v.setEntry dst i (v.tables src i)) fun j hj => hge j (List.mem_cons_of_mem i hj)
      refine ⟨hpmm, hcurrent, fun table j hj => ?_⟩
      have := hge i List.mem_cons_self
      rw [List.foldl_cons, htables table j hj]
      exact write_of_ne (hj.imp_right (by omega))

/-- Making an address space writes one free frame. -/
theorem created_writes {start : Nat} (hrun : FreeRun v.pmm start 1) (src table i : Nat)
    (hne : (copyKernelHalf (v.fresh start) (start * pageSize) src).tables table i ≠ v.tables table i) :
    ∃ frame, table = frame * pageSize ∧ bitmapGet v.pmm.bitmap frame = true := by
  obtain ⟨-, -, htables⟩ := copyKernelHalf_spec (v.fresh start) (start * pageSize) src
  refine ⟨start, ?_, by simpa using hrun.2 0 (by omega)⟩
  by_contra hother
  apply hne
  rw [htables table i (Or.inl hother)]
  exact congrFun (Function.update_of_ne hother _ _) i

/-- The tree of a new address space is its top-level table, with an empty user half. -/
theorem created_userTree {start : Nat} (hpos : 0 < start) (hrun : FreeRun v.pmm start 1) (src : Nat) :
    (copyKernelHalf (v.fresh start) (start * pageSize) src).UserTree (start * pageSize) ∧
      ∀ frame, (copyKernelHalf (v.fresh start) (start * pageSize) src).Owned (start * pageSize) frame ↔
        bitmapGet v.pmm.bitmap frame = true := by
  obtain ⟨hpmm, -, htables⟩ := copyKernelHalf_spec (v.fresh start) (start * pageSize) src
  generalize copyKernelHalf (v.fresh start) (start * pageSize) src = w at *
  have hframe : addrToFrame (start * pageSize) = start := Nat.mul_div_cancel _ (by decide)
  have hempty : ∀ i < 256, w.tables (start * pageSize) i = 0#64 := by
    intro i hi
    rw [htables _ i (Or.inr hi)]
    simp [fresh]
  have honly : ∀ p ∈ UserPath, ∀ table, w.tableAt (start * pageSize) p = some table → p = [] ∧ table = start * pageSize := by
    intro p hp table htable
    cases p with
    | nil => exact ⟨rfl, (Option.some.inj htable).symm⟩
    | cons i p => simp [tableAt, descend, hempty i (hp.2.1 i rfl), tableBelow] at htable
  have hbit : ∀ frame, bitmapGet w.pmm.bitmap frame = if frame = start then false else bitmapGet v.pmm.bitmap frame := by
    intro frame
    rw [hpmm, fresh, Pmm.bitmapGet_take]
    exact if_congr (by omega) rfl rfl
  refine ⟨⟨fun p hp q hq node hnode hnode' => ?_, fun p hp table htable => ?_, fun p i hpi table htable hpresent => ?_⟩, fun frame => ?_⟩
  · rw [(honly p hp node hnode).1, (honly q hq node hnode').1]
  · rw [(honly p hp table htable).2]
    refine ⟨Nat.mul_mod_left _ _, by rw [hframe]; exact hpos, ?_, ?_⟩
    · rw [hframe, hpmm]
      exact hrun.1
    · rw [hframe, hbit, if_pos rfl]
  · have hp : p ∈ UserPath := userPath_prefixClosed _ _ (List.prefix_append p [i]) hpi
    obtain ⟨rfl, rfl⟩ := honly p hp table htable
    rw [hempty i (hpi.2.1 i rfl)] at hpresent
    exact absurd BitVec.zero_and hpresent
  · have hfree : bitmapGet v.pmm.bitmap start = true := by simpa using hrun.2 0 (by omega)
    simp only [Owned, hbit]
    by_cases heq : frame = start
    · subst heq
      simp only [if_true, hfree, iff_true]
      exact Or.inr ⟨[], nil_mem_userPath, rfl⟩
    · rw [if_neg heq]
      refine ⟨fun h => h.resolve_right ?_, Or.inl⟩
      rintro ⟨p, hp, htable⟩
      have := (honly p hp _ htable).2
      simp only [pageSize] at this
      omega

end Vmm

open Vmm

/-! ### The whole lifetime -/

/-- The calls a process may make on its own address space. -/
inductive VmmCall where
  | map (virtAddr physAddr pageCount : Nat) (mapFlags : BitVec 64)
  | unmap (virtAddr pageCount : Nat)
  | protect (virtAddr pageCount : Nat) (mapFlags : BitVec 64)

/-- A range whose size does not wrap and that is no kernel range: a user range, or one that every call refuses. -/
def NoKernelRange (virtAddr pageCount : Nat) : Prop :=
  virtAddr < 2 ^ 64 ∧ pageCount < 2 ^ 52 ∧ pagingRangeIsKernel virtAddr (wrap64 (pageCount * pageSize)) = false

def VmmCall.OnUserRange : VmmCall → Prop
  | map virtAddr _ pageCount _ => NoKernelRange virtAddr pageCount
  | unmap virtAddr pageCount => NoKernelRange virtAddr pageCount
  | protect virtAddr pageCount _ => NoKernelRange virtAddr pageCount

def VmmCall.step (root : Nat) (v : Vmm) : VmmCall → Vmm
  | map virtAddr physAddr pageCount mapFlags => (vmmMapPages v root virtAddr physAddr pageCount mapFlags).2
  | unmap virtAddr pageCount => (vmmUnmapPages v root virtAddr pageCount).2
  | protect virtAddr pageCount mapFlags => (vmmProtectPages v root virtAddr pageCount mapFlags).2

theorem VmmCall.step_userStep {root : Nat} {v : Vmm} (hinv : v.pmm.Inv) (htree : v.UserTree root) {call : VmmCall}
    (hcall : call.OnUserRange) : UserStep root v (call.step root v) := by
  cases call with
  | map virtAddr physAddr pageCount mapFlags =>
      exact (vmmMapPages_spec hcall.1 hcall.2.1 hcall.2.2 hinv htree physAddr mapFlags).1
  | unmap virtAddr pageCount => exact (vmmUnmapPages_spec hcall.1 hcall.2.1 hcall.2.2 hinv htree).1
  | protect virtAddr pageCount mapFlags => exact vmmProtectPages_spec hcall.1 hcall.2.1 hcall.2.2 hinv htree mapFlags

theorem run_userStep {root : Nat} {v : Vmm} (hinv : v.pmm.Inv) (htree : v.UserTree root) {calls : List VmmCall}
    (hcalls : ∀ call ∈ calls, call.OnUserRange) : UserStep root v (Lib.run (VmmCall.step root) v calls) := by
  induction calls generalizing v with
  | nil => exact UserStep.refl hinv htree
  | cons call calls ih =>
      have hstep := VmmCall.step_userStep hinv htree (hcalls call List.mem_cons_self)
      exact hstep.trans (ih hstep.inv hstep.tree fun c hc => hcalls c (List.mem_cons_of_mem call hc))

/-- Without a top-level table every call fails at once. -/
theorem run_zero (v : Vmm) (calls : List VmmCall) : Lib.run (VmmCall.step 0) v calls = v := by
  induction calls with
  | nil => rfl
  | cons call calls ih =>
      have hstep : call.step 0 v = v := by cases call <;> rfl
      rw [Lib.run_cons, hstep, ih]

theorem bitmap_ext {b b' : Bitmap} (h : ∀ frame, bitmapGet b frame = true ↔ bitmapGet b' frame = true) : b = b' := by
  funext k
  apply BitVec.eq_of_getLsbD_eq
  intro j hj
  have hbit := Bool.eq_iff_iff.mpr (h (k * 8 + j))
  rwa [bitmapGet_eq_getLsbD, bitmapGet_eq_getLsbD, show (k * 8 + j) / 8 = k by omega,
    show (k * 8 + j) % 8 = j by omega] at hbit

/-- Two allocator states with the same free frames have the same bitmap and the same counter. -/
theorem Pmm.Inv.eq_of_bits {s s' : Pmm} (hs : s.Inv) (hs' : s'.Inv)
    (h : ∀ frame, bitmapGet s'.bitmap frame = true ↔ bitmapGet s.bitmap frame = true) :
    s'.bitmap = s.bitmap ∧ s'.freeFrames = s.freeFrames := by
  have hbitmap := bitmap_ext h
  exact ⟨hbitmap, by rw [hs.count, hs'.count, hs.total, hs'.total, hbitmap]⟩

/-- Create an address space, run the calls on it, destroy it. On failure the create returns 0, which every later call refuses. -/
def addressSpaceLifetime (v : Vmm) (calls : List VmmCall) : Vmm :=
  let root := (vmmCreateAddressSpace v).1.getD 0
  (vmmDestroyAddressSpace (Lib.run (VmmCall.step root) (vmmCreateAddressSpace v).2 calls) root).2

theorem allocTablePhys_current (v : Vmm) : (allocTablePhys v).2.currentPml4 = v.currentPml4 := by
  simp only [allocTablePhys]
  split <;> rfl

theorem vmmCreateAddressSpace_current (v : Vmm) : (vmmCreateAddressSpace v).2.currentPml4 = v.currentPml4 := by
  have halloc := allocTablePhys_current v
  rcases hres : allocTablePhys v with ⟨phys, w⟩
  rw [hres] at halloc
  simp only [vmmCreateAddressSpace, hres]
  split_ifs
  · exact halloc
  · exact halloc
  · rw [(copyKernelHalf_spec w _ _).2.1]
    exact halloc

theorem vmmCloneAddressSpace_current (v : Vmm) (src : Nat) : (vmmCloneAddressSpace v src).2.currentPml4 = v.currentPml4 := by
  have halloc := allocTablePhys_current v
  rcases hres : allocTablePhys v with ⟨phys, w⟩
  rw [hres] at halloc
  simp only [vmmCloneAddressSpace, hres]
  split_ifs
  · rfl
  · exact halloc
  · rw [(copyKernelHalf_spec w _ _).2.1]
    exact halloc

/-- A call that fails to make an address space: the allocator has the same free frames as before, and only one of them may have been written. -/
structure NotCreated (v v' : Vmm) : Prop where
  inv : v'.pmm.Inv
  bits : ∀ frame, bitmapGet v'.pmm.bitmap frame = true ↔ bitmapGet v.pmm.bitmap frame = true
  frame : ∀ table i, v'.tables table i ≠ v.tables table i → ∃ frame, table = frame * pageSize ∧ bitmapGet v.pmm.bitmap frame = true

theorem NotCreated.refl {v : Vmm} (hinv : v.pmm.Inv) : NotCreated v v :=
  ⟨hinv, fun _ => Iff.rfl, fun _ _ h => absurd rfl h⟩

/-- A fresh frame that goes straight back. -/
theorem NotCreated.of_fresh {v : Vmm} (hinv : v.pmm.Inv) {start : Nat} (hpos : 0 < start) (hrun : FreeRun v.pmm start 1) :
    NotCreated v { v.fresh start with pmm := pmmFreePages (v.pmm.take start 1) (start * pageSize) 1 } := by
  have hfree : bitmapGet v.pmm.bitmap start = true := by simpa using hrun.2 0 (by omega)
  have htaken : ∀ frame ∈ ({start} : Set Nat),
      0 < frame ∧ frame < pmmFrameCount ∧ bitmapGet (v.pmm.take start 1).bitmap frame = false := by
    rintro frame rfl
    refine ⟨hpos, ?_, by rw [Pmm.bitmapGet_take, if_pos (by omega)]⟩
    have := hrun.1
    rw [hinv.total] at this
    omega
  obtain ⟨hinv', hbits⟩ := Releases.free start (v.pmm.take start 1) (hinv.take hrun) htaken
  refine ⟨hinv', fun frame => ?_, fun table i hne => ⟨start, ?_, hfree⟩⟩
  · rw [hbits, Pmm.bitmapGet_take, Set.mem_singleton_iff]
    by_cases heq : frame = start
    · simp [heq, hfree]
    · rw [if_neg (by omega)]
      simp [heq]
  · by_contra hother
    exact hne (congrFun (Function.update_of_ne hother _ _) i)

/-- `vmm_create_address_space` fails, or returns a fresh top-level table with the kernel half of the current one. -/
theorem vmmCreateAddressSpace_cases {v : Vmm} (hinv : v.pmm.Inv) :
    ((vmmCreateAddressSpace v).1 = none ∧ NotCreated v (vmmCreateAddressSpace v).2) ∨
    ∃ start, 0 < start ∧ FreeRun v.pmm start 1 ∧ vmmCreateAddressSpace v =
      (some (start * pageSize), copyKernelHalf (v.fresh start) (start * pageSize) (tableVirt (BitVec.ofNat 64 v.currentPml4))) := by
  rcases allocTablePhys_cases hinv with ⟨start, hpos, hrun, halloc⟩ | halloc
  · have hne : start * pageSize ≠ 0 := by simp only [pageSize]; omega
    by_cases hzero : v.currentPml4 = 0
    · have hcreate : vmmCreateAddressSpace v =
          (none, { v.fresh start with pmm := pmmFreePages (v.pmm.take start 1) (start * pageSize) 1 }) := by
        simp only [vmmCreateAddressSpace, halloc, if_neg hne, fresh, hzero, if_true]
      rw [hcreate]
      exact Or.inl ⟨rfl, NotCreated.of_fresh hinv hpos hrun⟩
    · refine Or.inr ⟨start, hpos, hrun, ?_⟩
      have hvirt : tableVirt (BitVec.ofNat 64 (start * pageSize)) = start * pageSize :=
        tableVirt_page (Nat.mul_mod_left _ _) (page_lt_of_freeRun hinv hrun)
      simp only [vmmCreateAddressSpace, halloc, if_neg hne, hvirt]
      exact if_neg hzero
  · have hcreate : vmmCreateAddressSpace v = (none, v) := by
      simp only [vmmCreateAddressSpace, halloc, if_true]
    rw [hcreate]
    exact Or.inl ⟨rfl, NotCreated.refl hinv⟩

/-- `vmm_clone_address_space` fails, or returns a fresh top-level table with the kernel half of the source. -/
theorem vmmCloneAddressSpace_cases {v : Vmm} (hinv : v.pmm.Inv) (src : Nat) :
    ((vmmCloneAddressSpace v src).1 = none ∧ NotCreated v (vmmCloneAddressSpace v src).2) ∨
    ∃ start, 0 < start ∧ FreeRun v.pmm start 1 ∧ vmmCloneAddressSpace v src =
      (some (start * pageSize), copyKernelHalf (v.fresh start) (start * pageSize) (tableVirt (BitVec.ofNat 64 src))) := by
  by_cases hzero : src = 0
  · have hclone : vmmCloneAddressSpace v src = (none, v) := by
      simp only [vmmCloneAddressSpace, hzero, if_true]
    rw [hclone]
    exact Or.inl ⟨rfl, NotCreated.refl hinv⟩
  · rcases allocTablePhys_cases hinv with ⟨start, hpos, hrun, halloc⟩ | halloc
    · have hne : start * pageSize ≠ 0 := by simp only [pageSize]; omega
      have hvirt : tableVirt (BitVec.ofNat 64 (start * pageSize)) = start * pageSize :=
        tableVirt_page (Nat.mul_mod_left _ _) (page_lt_of_freeRun hinv hrun)
      refine Or.inr ⟨start, hpos, hrun, ?_⟩
      simp only [vmmCloneAddressSpace, if_neg hzero, halloc, if_neg hne, hvirt]
    · have hclone : vmmCloneAddressSpace v src = (none, v) := by
        simp only [vmmCloneAddressSpace, if_neg hzero, halloc, if_true]
      rw [hclone]
      exact Or.inl ⟨rfl, NotCreated.refl hinv⟩

/-- Whatever the calls do, the frame allocator has the same bitmap and the same number of free frames after the destroy as before the create. -/
theorem addressSpaceLifetime_pmm (v : Vmm) (calls : List VmmCall) (hinv : v.pmm.Inv)
    (hcalls : ∀ call ∈ calls, call.OnUserRange) (hcurrent : (vmmCreateAddressSpace v).1 ≠ some v.currentPml4) :
    (addressSpaceLifetime v calls).pmm.bitmap = v.pmm.bitmap ∧
      (addressSpaceLifetime v calls).pmm.freeFrames = v.pmm.freeFrames := by
  rcases vmmCreateAddressSpace_cases hinv with ⟨hfail, hnot⟩ | ⟨start, hpos, hrun, hcreate⟩
  · simp only [addressSpaceLifetime, hfail, Option.getD_none, run_zero]
    exact hinv.eq_of_bits hnot.inv hnot.bits
  · obtain ⟨hpmm, hcur, -⟩ := copyKernelHalf_spec (v.fresh start) (start * pageSize) (tableVirt (BitVec.ofNat 64 v.currentPml4))
    obtain ⟨htree, howned⟩ := created_userTree hpos hrun (tableVirt (BitVec.ofNat 64 v.currentPml4))
    rw [hcreate] at hcurrent
    simp only [addressSpaceLifetime, hcreate, Option.getD_some]
    generalize copyKernelHalf (v.fresh start) (start * pageSize) (tableVirt (BitVec.ofNat 64 v.currentPml4)) = created at *
    have hcalled := run_userStep (v := created) (by rw [hpmm]; exact hinv.take hrun) htree hcalls
    have hcurrent' : (Lib.run (VmmCall.step (start * pageSize)) created calls).currentPml4 ≠ start * pageSize := by
      rw [hcalled.current, hcur]
      exact fun h => hcurrent (congrArg some h.symm)
    obtain ⟨hinv', hbits⟩ := vmmDestroyAddressSpace_spec hcalled.inv hcalled.tree hcurrent'
    exact hinv.eq_of_bits hinv' fun frame => (hbits frame).trans ((hcalled.owned frame).trans (howned frame))

/-- A machine with two free frames, running on the top-level table at `0x1000`. -/
def twoFrameMachine : Vmm where
  pmm := { bitmap := bitmapSet (bitmapSet (fun _ => 0#8) 6 true) 5 true, totalFrames := pmmFrameCount, firstUsable := 5, freeFrames := 2 }
  tables _ _ := 0#64
  currentPml4 := 0x1000

theorem twoFrameMachine_inv : twoFrameMachine.pmm.Inv := by
  refine ⟨rfl, by decide, fun frame hframe => ?_, by decide, ?_⟩
  · have : frame < 5 := hframe
    have hzero : bitmapGet (fun _ => 0#8) frame = false := by simp [bitmapGet]
    simp only [twoFrameMachine, bitmapGet_bitmapSet, hzero]
    rw [if_neg (by omega), if_neg (by omega)]
  · have hzero : freeCount (fun _ => 0#8) pmmFrameCount = 0 :=
      List.countP_eq_zero.mpr fun frame _ => by simp [bitmapGet]
    show 2 = freeCount (bitmapSet (bitmapSet (fun _ => 0#8) 6 true) 5 true) pmmFrameCount
    rw [freeCount_bitmapSet_true (by decide) (by decide), freeCount_bitmapSet_true (by decide) (by decide), hzero]

/-- On that machine the mapping needs three tables and one frame is left: it fails half way, and the destroy still returns both frames. -/
theorem addressSpaceLifetime_pmm_twoFrameMachine :
    (vmmCreateAddressSpace twoFrameMachine).1 = some 0x5000 ∧
      (addressSpaceLifetime twoFrameMachine [.map 0x100000 0x200000 1 (pagingMapRead ||| pagingMapUser)]).pmm.bitmap =
        twoFrameMachine.pmm.bitmap :=
  ⟨by decide, (addressSpaceLifetime_pmm twoFrameMachine _ twoFrameMachine_inv
    (by simp only [List.mem_singleton, forall_eq]; exact ⟨by decide, by decide, by decide⟩) (by decide)).1⟩

end Tsukasa
