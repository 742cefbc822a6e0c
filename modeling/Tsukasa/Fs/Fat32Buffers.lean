import Tsukasa.Fs.Fat32Runs

/-!
# The sector buffers

`fat32_init` takes any sector size but zero, while `g_sector` and `sec_buf` have 512 bytes. Up to 510 bytes and at 512 every index fits. At 511 and from 513 on there is a cluster whose FAT entry lies across the end of the buffer, and a disk leads to it through any root cluster that a scan enters at all.
-/

namespace Tsukasa

open Lib (Memory Traced)

variable {σ α : Type} {g : Fat32Geometry} {d : Memory} {v v' : Fat32} {c n fuel : Nat} {k : DirScan σ} {l : LfnState} {ctx ctx' : σ}
  {lfn : Memory → Nat → LfnState → Option LfnState} {slot : Nat × Nat} {slots : List (Nat × Nat)}

/-! ### Sector sizes that fit -/

/-- The sector sizes with which every index fits. -/
def FitsSector (bytesPerSector : Nat) : Prop := bytesPerSector ≤ 510 ∨ bytesPerSector = 512

abbrev Inside (x : Traced Nat α) : Prop := x.All (· < 512)

theorem FitsSector.le {bps : Nat} (h : FitsSector bps) : bps ≤ 512 := by
  rcases h with h | h <;> omega

theorem FitsSector.entry {bps i : Nat} (h : FitsSector bps) (hi : i ∈ List.range (bps / 32)) : i * 32 + 32 ≤ 512 := by
  have hle := h.le
  have := List.mem_range.mp hi
  omega

/-- The offset of a FAT entry is even, so at 510 it is at most 508. -/
theorem FitsSector.fat {bps : Nat} (h : FitsSector bps) (hpos : 0 < bps) (c : Nat) : wrap32 (c * 4) % bps + 4 ≤ 512 := by
  have hlt := Nat.mod_lt (wrap32 (c * 4)) hpos
  have heven : wrap32 (c * 4) % 4 = 0 := by
    rw [wrap32]
    omega
  rcases h with h | h
  · by_cases h510 : bps = 510
    · rw [h510] at hlt ⊢
      omega
    · omega
  · rw [h] at hlt ⊢
    omega

theorem fatNextRun_inside (h : FitsSector v.geometry.bytesPerSector) (hpos : 0 < v.geometry.bytesPerSector) (c : Nat) : Inside (fatNextRun v c) := by
  intro i hi
  have hfat := h.fat hpos c
  have := List.mem_range'_1.mp hi
  omega

theorem scanEntriesRun_inside {sec : Memory} {lba : Nat} {is : List Nat} (his : ∀ i ∈ is, i * 32 + 32 ≤ 512) :
    Inside (scanEntriesRun k sec lba is l ctx) := by
  induction is generalizing l ctx with
  | nil => exact Traced.all_pure _
  | cons i is ih =>
      apply Traced.All.bind
      · intro x hx
        have hle := his i List.mem_cons_self
        have := List.mem_range'_1.mp hx
        omega
      · intro r _
        cases r with
        | done ctx => exact Traced.all_pure _
        | more l ctx => exact ih fun j hj => his j (List.mem_cons_of_mem i hj)

theorem scanSectorsRun_inside {lba : Nat} (h : FitsSector v.geometry.bytesPerSector) (ss : List Nat) : Inside (scanSectorsRun k lba ss v l ctx) := by
  induction ss generalizing v l ctx with
  | nil => exact Traced.all_pure _
  | cons s ss ih =>
      apply Traced.All.bind
      · exact scanEntriesRun_inside fun i hi => h.entry hi
      · intro r _
        cases r with
        | done ctx => exact Traced.all_pure _
        | more l ctx => exact ih h

theorem Fat32.Buffered.geometry (h : v.Buffered v') : v'.geometry = v.geometry := by
  obtain ⟨sec, rfl⟩ := h
  rfl

theorem scanRun_buffered (h : (scanRun k fuel c v l ctx).result = some (v', ctx')) : v.Buffered v' := by
  rw [scanRun_result] at h
  exact scanClusters_buffered h

theorem scanRun_inside (h : FitsSector v.geometry.bytesPerSector) (hpos : 0 < v.geometry.bytesPerSector) : Inside (scanRun k fuel c v l ctx) := by
  induction fuel generalizing c v l ctx with
  | zero => exact Traced.all_stuck
  | succ fuel ih =>
      rw [scanRun]
      split
      · apply Traced.All.bind
        · exact scanSectorsRun_inside h _
        · intro r hr
          obtain ⟨w, r⟩ := r
          rw [scanSectorsRun_result] at hr
          have hw := (scanSectors_buffered hr).geometry
          cases r with
          | done ctx => exact Traced.all_pure _
          | more l ctx =>
              apply Traced.All.bind
              · exact fatNextRun_inside (by rwa [hw]) (by rwa [hw]) c
              · intro next hnext
                rw [← Option.some.inj hnext]
                have hnext := (fatNext_buffered w c).geometry.trans hw
                exact ih (by rwa [hnext]) (by rwa [hnext])
      · exact Traced.all_pure _

/-! ### Scans that touch nothing -/

/-- A scan from this cluster keeps its indices inside: the sector size fits, or there is nothing to scan. -/
def Quiet (g : Fat32Geometry) (c : Nat) : Prop := FitsSector g.bytesPerSector ∨ ¬ c < fat32Eoc

theorem scanRun_stop (h : ¬ c < fat32Eoc) (fuel : Nat) (v : Fat32) (l : LfnState) (ctx : σ) :
    scanRun k (fuel + 1) c v l ctx = pure (v, ctx) := by
  rw [scanRun, if_neg h]

variable (fuel k l ctx) in
theorem scanRun_quiet (h : Quiet v.geometry c) (hpos : 0 < v.geometry.bytesPerSector) :
    Inside (scanRun k fuel c v l ctx) ∧
    ∀ r, (scanRun k fuel c v l ctx).result = some r → r.1.geometry = v.geometry ∧ (FitsSector v.geometry.bytesPerSector ∨ r.2 = ctx) := by
  rcases h with h | h
  · exact ⟨scanRun_inside h hpos, fun r hr => ⟨(scanRun_buffered hr).geometry, Or.inl h⟩⟩
  · cases fuel with
    | zero => exact ⟨Traced.all_stuck, fun r hr => by cases hr⟩
    | succ fuel =>
        rw [scanRun_stop h]
        refine ⟨Traced.all_pure _, fun r hr => ?_⟩
        rw [← Option.some.inj hr]
        exact ⟨rfl, Or.inr rfl⟩

/-! ### The entry of a write -/

theorem chainSlots_offset (h : slot ∈ chainSlots g d n c) : ∃ i ∈ List.range (g.bytesPerSector / 32), slot.2 = i * 32 := by
  obtain ⟨x, -, hslot⟩ := List.mem_flatMap.mp h
  obtain ⟨s, -, hslot⟩ := List.mem_flatMap.mp hslot
  obtain ⟨i, hi, rfl⟩ := List.mem_map.mp hslot
  exact ⟨i, hi, rfl⟩

/-- The entry that `find_entry_raw` hands out lies inside the sector. -/
theorem scanRun_rawEntry (h : FitsSector v.geometry.bytesPerSector) {target : List UInt8} {raw : RawEntry}
    (hr : (scanRun ⟨findLfn, rawVisit target⟩ fuel c v l none).result = some (v', some raw)) : raw.entryOff + 32 ≤ 512 := by
  rw [scanRun_result] at hr
  obtain ⟨slot, hslot, -, name, -, rfl⟩ := scanClusters_lookup_mem hr
  obtain ⟨i, hi, hoff⟩ := chainSlots_offset ((List.takeWhile_sublist _).subset hslot)
  have := h.entry hi
  show slot.2 + 32 ≤ 512
  omega

/-! ### The calls -/

section calls

variable {start : Nat → LfnState}

/-- A run inside the buffers that keeps the geometry and, when the sector size does not fit, comes back with such results only. -/
structure QuietRun {β : Type} (g : Fat32Geometry) (x : Fat32Run (Fat32 × β)) (still : β → Prop) : Prop where
  inside : Inside x
  geometry : ∀ r, x.result = some r → r.1.geometry = g
  still : ∀ r, x.result = some r → FitsSector g.bytesPerSector ∨ still r.2

theorem QuietRun.pure {β : Type} {still : β → Prop} {b : β} (hv : v.geometry = g) (hstill : FitsSector g.bytesPerSector ∨ still b) :
    QuietRun g (pure (v, b)) still := by
  refine ⟨Traced.all_pure _, fun r hr => ?_, fun r hr => ?_⟩
  · rw [← Option.some.inj hr]
    exact hv
  · rw [← Option.some.inj hr]
    exact hstill

theorem QuietRun.bindResult {β γ : Type} {still : β → Prop} {still' : γ → Prop} {x : Fat32Run (Fat32 × β)} {f : Fat32 × β → Fat32Run (Fat32 × γ)}
    (hx : QuietRun g x still)
    (hf : ∀ v b, x.result = some (v, b) → v.geometry = g → (FitsSector g.bytesPerSector ∨ still b) → QuietRun g (f (v, b)) still') :
    QuietRun g (x >>= f) still' := by
  have hnext : ∀ r, x.result = some r → QuietRun g (f r) still' := fun r hr => hf r.1 r.2 hr (hx.geometry r hr) (hx.still r hr)
  refine ⟨hx.inside.bind fun r hr => (hnext r hr).inside, fun s hs => ?_, fun s hs => ?_⟩
  · rw [Traced.bind_result] at hs
    obtain ⟨r, hr, hs⟩ := Option.bind_eq_some_iff.mp hs
    exact (hnext r hr).geometry s hs
  · rw [Traced.bind_result] at hs
    obtain ⟨r, hr, hs⟩ := Option.bind_eq_some_iff.mp hs
    exact (hnext r hr).still s hs

theorem QuietRun.bind {β γ : Type} {still : β → Prop} {still' : γ → Prop} {x : Fat32Run (Fat32 × β)} {f : Fat32 × β → Fat32Run (Fat32 × γ)}
    (hx : QuietRun g x still) (hf : ∀ v b, v.geometry = g → (FitsSector g.bytesPerSector ∨ still b) → QuietRun g (f (v, b)) still') :
    QuietRun g (x >>= f) still' := hx.bindResult fun v b _ => hf v b

variable (n k l ctx) in
theorem QuietRun.scan (hv : v.geometry = g) (h : Quiet g c) (hpos : 0 < g.bytesPerSector) : QuietRun g (scanRun k n c v l ctx) (· = ctx) := by
  subst hv
  obtain ⟨hinside, hresult⟩ := scanRun_quiet n k l ctx h hpos
  exact ⟨hinside, fun r hr => (hresult r hr).1, fun r hr => (hresult r hr).2⟩

/-- There is no parent, or nothing to scan in it. -/
def StillParent (parent : Nat) : Prop := parent = 0 ∨ ¬ parent < fat32Eoc

theorem quiet_of_still (h : FitsSector g.bytesPerSector ∨ StillParent c) (hc : c ≠ 0) : Quiet g c := by
  rcases h with h | h | h
  · exact Or.inl h
  · exact absurd h hc
  · exact Or.inr h

theorem walkDirsRun_quiet (comps : List (List UInt8)) (hv : v.geometry = g) (hquiet : Quiet g c) (hpos : 0 < g.bytesPerSector) :
    QuietRun g (walkDirsRun n comps start v c) StillParent := by
  induction comps generalizing v c start with
  | nil => exact .pure hv (hquiet.imp_right Or.inr)
  | cons comp comps ih =>
      apply QuietRun.bind (QuietRun.scan _ _ _ _ hv hquiet hpos)
      intro w found hw hstill
      cases found with
      | none => exact .pure hw (Or.inr (Or.inl rfl))
      | some found =>
          have hfits : FitsSector g.bytesPerSector := hstill.resolve_right (fun heq => by cases heq)
          exact ih hw (Or.inl hfits)

theorem resolveParentRun_quiet (path : List UInt8) (hv : v.geometry = g) (hquiet : Quiet g g.rootCluster) (hpos : 0 < g.bytesPerSector) :
    QuietRun g (resolveParentRun n start v path) (StillParent ·.1) := by
  rw [resolveParentRun, hv]
  split
  · exact .pure hv (hquiet.imp_right Or.inr)
  · apply QuietRun.bind (walkDirsRun_quiet _ hv hquiet hpos)
    exact fun w parent hw hstill => .pure hw hstill

theorem resolveParentInRun_quiet (comps : PathStore) (path : List UInt8) (hv : v.geometry = g) (hquiet : Quiet g g.rootCluster)
    (hpos : 0 < g.bytesPerSector) : QuietRun g (resolveParentInRun n start v comps path) (StillParent ·.2.1) := by
  rw [resolveParentInRun, hv]
  split
  · exact .pure hv (hquiet.imp_right Or.inr)
  · apply QuietRun.bind (walkDirsRun_quiet _ hv hquiet hpos)
    exact fun w parent hw hstill => .pure hw hstill

/-- With a sector size that does not fit, only the root directory is found, and there is nothing to scan in it. -/
def StillEntry (r : Option Fat32Dirent) : Prop := ∀ de, r = some de → de.isDir = true ∧ ¬ de.firstCluster < fat32Eoc

theorem stillEntry_none : StillEntry none := fun _ h => by cases h

theorem statRun_quiet (path : List UInt8) (hv : v.geometry = g) (hquiet : Quiet g g.rootCluster) (hpos : 0 < g.bytesPerSector) :
    QuietRun g (statRun n start v path) StillEntry := by
  rw [statRun]
  split
  · exact .pure hv (Or.inr stillEntry_none)
  split
  · exact .pure hv (Or.inr stillEntry_none)
  split
  · refine .pure hv (hquiet.imp_right fun hroot de hde => ?_)
    rw [← Option.some.inj hde]
    exact ⟨rfl, by rwa [hv]⟩
  apply QuietRun.bind (resolveParentRun_quiet _ hv hquiet hpos)
  intro w r hw hstill
  obtain ⟨parent, leaf⟩ := r
  cases leaf with
  | none => exact .pure hw (Or.inr stillEntry_none)
  | some leaf =>
      dsimp only
      split
      · exact .pure hw (Or.inr stillEntry_none)
      · have hscan := QuietRun.scan n ⟨iterateLfn, fun e _ _ name ctx => statCb leaf e name ctx⟩ (start 32) none hw
          (quiet_of_still hstill ‹_›) hpos
        exact ⟨hscan.inside, hscan.geometry, fun r hr => (hscan.still r hr).imp_right fun heq => by rw [heq]; exact stillEntry_none⟩

theorem listClusterRun_quiet (max : Int) (hv : v.geometry = g) (hquiet : Quiet g c) (hpos : 0 < g.bytesPerSector) :
    QuietRun g (listClusterRun n start max v c) fun _ => True := by
  apply QuietRun.bind (QuietRun.scan _ _ _ _ hv hquiet hpos)
  exact fun u entries hu _ => .pure hu (Or.inr trivial)

theorem listDirRun_quiet (path : List UInt8) (max : Int) (hv : v.geometry = g) (hquiet : Quiet g g.rootCluster) (hpos : 0 < g.bytesPerSector) :
    QuietRun g (listDirRun n start v path max) fun _ => True := by
  rw [listDirRun]
  split
  · exact .pure hv (Or.inr trivial)
  split
  · exact .pure hv (Or.inr trivial)
  split
  · rw [hv]
    exact listClusterRun_quiet max hv hquiet hpos
  apply QuietRun.bind (statRun_quiet _ hv hquiet hpos)
  intro w r hw hstill
  cases r with
  | none => exact .pure hw (Or.inr trivial)
  | some de =>
      dsimp only
      split
      · exact listClusterRun_quiet max hw (hstill.imp_right fun h => (h de rfl).2) hpos
      · exact .pure hw (Or.inr trivial)

theorem readIndices_lt {bps toRead done i : Nat} {ss : List Nat} (h : i ∈ readIndices bps toRead ss done) : i < bps := by
  induction ss generalizing done with
  | nil => exact absurd h List.not_mem_nil
  | cons s ss ih =>
      rw [readIndices] at h
      split at h
      · rcases List.mem_append.mp h with h | h
        · exact Nat.lt_of_lt_of_le (List.mem_range.mp h) (Nat.min_le_left _ _)
        · exact ih h
      · exact absurd h List.not_mem_nil

/-- A lookup in the FAT, and what comes behind it. -/
theorem QuietRun.next {β : Type} {still : β → Prop} {f : Nat × Fat32 → Fat32Run (Fat32 × β)} (hv : v.geometry = g) (hfits : FitsSector g.bytesPerSector)
    (hpos : 0 < g.bytesPerSector) (hf : ∀ next w, w.geometry = g → QuietRun g (f (next, w)) still) : QuietRun g (fatNextRun v c >>= f) still := by
  have hw : (fatNext v c).2.geometry = g := (fatNext_buffered v c).geometry.trans hv
  have hnext := hf (fatNext v c).1 (fatNext v c).2 hw
  refine ⟨Traced.All.bind (fatNextRun_inside (by rwa [hv]) (by rwa [hv]) c) ?_, ?_, ?_⟩
  · intro r hr
    rw [← Option.some.inj hr]
    exact hnext.inside
  · exact fun r hr => hnext.geometry r hr
  · exact fun r hr => hnext.still r hr

theorem QuietRun.touch {β : Type} {still : β → Prop} {is : List Nat} {x : Fat32Run (Fat32 × β)} (his : ∀ i ∈ is, i < 512) (hx : QuietRun g x still) :
    QuietRun g (Traced.touch is >>= fun _ => x) still :=
  ⟨Traced.All.bind his fun _ _ => hx.inside, fun r hr => hx.geometry r hr, fun r hr => hx.still r hr⟩

theorem readClustersRun_quiet (toRead : Nat) (dst : List UInt8) (hv : v.geometry = g) (hfits : FitsSector g.bytesPerSector) (hpos : 0 < g.bytesPerSector) :
    QuietRun g (readClustersRun toRead n c v dst) fun _ => True := by
  induction n generalizing c v dst with
  | zero => exact ⟨Traced.all_stuck, fun r hr => (by cases hr), fun r hr => (by cases hr)⟩
  | succ n ih =>
      rw [readClustersRun]
      split
      · apply QuietRun.touch
        · intro i hi
          have := readIndices_lt hi
          have := hfits.le
          rw [hv] at *
          omega
        · exact .next hv hfits hpos fun next w hw => ih _ hw
      · exact .pure hv (Or.inr trivial)

theorem readFileRun_quiet (path : List UInt8) (maxBytes : Nat) (hv : v.geometry = g) (hquiet : Quiet g g.rootCluster) (hpos : 0 < g.bytesPerSector) :
    QuietRun g (readFileRun n start v path maxBytes) fun _ => True := by
  rw [readFileRun]
  split
  · exact .pure hv (Or.inr trivial)
  split
  · exact .pure hv (Or.inr trivial)
  apply QuietRun.bind (statRun_quiet _ hv hquiet hpos)
  intro w r hw hstill
  cases r with
  | none => exact .pure hw (Or.inr trivial)
  | some de =>
      dsimp only
      split
      · exact .pure hw (Or.inr trivial)
      · rename_i hfile
        have hfits : FitsSector g.bytesPerSector := hstill.resolve_right fun h => hfile (h de rfl).1
        apply QuietRun.bind (readClustersRun_quiet _ [] hw hfits hpos)
        exact fun u dst hu _ => .pure hu (Or.inr trivial)

theorem chainCapacityRun_quiet (capacity : Nat) (hv : v.geometry = g) (hfits : FitsSector g.bytesPerSector) (hpos : 0 < g.bytesPerSector) :
    QuietRun g (chainCapacityRun n c v capacity) fun _ => True := by
  induction n generalizing c v capacity with
  | zero => exact ⟨Traced.all_stuck, fun r hr => (by cases hr), fun r hr => (by cases hr)⟩
  | succ n ih =>
      rw [chainCapacityRun]
      split
      · exact .next hv hfits hpos fun next w hw => ih _ hw
      · exact .pure hv (Or.inr trivial)

theorem writeSectors_geometry (lba : Nat) (src : List UInt8) (ss : List Nat) (v : Fat32) (done : Nat) :
    (writeSectors lba src ss v done).1.geometry = v.geometry := by
  induction ss generalizing v done with
  | nil => rfl
  | cons s ss ih => exact ih _ _

theorem writeClustersRun_quiet (src : List UInt8) (done : Nat) (hv : v.geometry = g) (hfits : FitsSector g.bytesPerSector) (hpos : 0 < g.bytesPerSector) :
    QuietRun g (writeClustersRun src n c v done) fun _ => True := by
  induction n generalizing c v done with
  | zero => exact ⟨Traced.all_stuck, fun r hr => (by cases hr), fun r hr => (by cases hr)⟩
  | succ n ih =>
      rw [writeClustersRun]
      split
      · apply QuietRun.touch
        · intro i hi
          obtain ⟨s, -, hi⟩ := List.mem_flatMap.mp hi
          rw [hv] at hi
          exact Nat.lt_of_lt_of_le (List.mem_range.mp hi) hfits.le
        · exact .next ((writeSectors_geometry _ _ _ _ _).trans hv) hfits hpos fun next w hw => ih _ hw
      · exact .pure hv (Or.inr trivial)

/-- What `find_entry_raw` comes back with: nothing, or an entry inside the sector. -/
theorem rawRun_quiet (target : List UInt8) (hv : v.geometry = g) (h : Quiet g c) (hpos : 0 < g.bytesPerSector) :
    QuietRun g (scanRun ⟨findLfn, rawVisit target⟩ n c v l none) (· = none) ∧
    ∀ w raw, (scanRun ⟨findLfn, rawVisit target⟩ n c v l none).result = some (w, some raw) → FitsSector g.bytesPerSector ∧ raw.entryOff + 32 ≤ 512 := by
  have hscan := QuietRun.scan n ⟨findLfn, rawVisit target⟩ l none hv h hpos
  refine ⟨hscan, fun w raw hr => ?_⟩
  have hfits : FitsSector g.bytesPerSector := (hscan.still _ hr).resolve_right (fun heq => by cases heq)
  exact ⟨hfits, scanRun_rawEntry (by rwa [hv]) hr⟩

theorem writeFileRun_quiet (path src : List UInt8) (hv : v.geometry = g) (hquiet : Quiet g g.rootCluster) (hpos : 0 < g.bytesPerSector) :
    QuietRun g (writeFileRun n start v path src) fun _ => True := by
  have herror : ∀ {w : Fat32}, w.geometry = g → QuietRun g (Pure.pure (w, (-1 : Int))) fun _ => True := fun hw => .pure hw (Or.inr trivial)
  rw [writeFileRun]
  split
  · exact herror hv
  split
  · exact herror hv
  apply QuietRun.bind (resolveParentRun_quiet _ hv hquiet hpos)
  intro w r hw hstill
  obtain ⟨parent, leaf⟩ := r
  cases leaf with
  | none => exact herror hw
  | some leaf =>
      dsimp only
      split
      · exact herror hw
      rename_i hparent
      obtain ⟨hscan, hraw⟩ := rawRun_quiet (n := n) (l := start 32) leaf hw (quiet_of_still hstill hparent) hpos
      apply QuietRun.bindResult hscan
      intro u found hr hu _
      cases found with
      | none => exact herror hu
      | some raw =>
          obtain ⟨hfits, hoff⟩ := hraw u raw hr
          dsimp only
          split
          · exact herror hu
          split
          · exact herror hu
          apply QuietRun.bind (chainCapacityRun_quiet 0 hu hfits hpos)
          intro x capacity hx _
          dsimp only
          split
          · exact herror hx
          apply QuietRun.bind (writeClustersRun_quiet src 0 hx hfits hpos)
          intro y done hy _
          dsimp only
          split
          · exact herror hy
          · apply QuietRun.touch
            · intro i hi
              have := List.mem_range'_1.mp hi
              omega
            · exact .pure hy (Or.inr trivial)

theorem renameInRun_quiet (oldLeaf newLeaf : List UInt8) (hv : v.geometry = g) (h : Quiet g c) (hpos : 0 < g.bytesPerSector) :
    QuietRun g (renameInRun n start v c oldLeaf newLeaf) fun _ => True := by
  have herror : ∀ {w : Fat32}, w.geometry = g → QuietRun g (Pure.pure (w, (-1 : Int))) fun _ => True := fun hw => .pure hw (Or.inr trivial)
  rw [renameInRun]
  split
  · exact herror hv
  obtain ⟨hscan, hraw⟩ := rawRun_quiet (n := n) (l := start 0) oldLeaf hv h hpos
  apply QuietRun.bindResult hscan
  intro w found hr hw _
  cases found with
  | none => exact herror hw
  | some src =>
      obtain ⟨-, hoff⟩ := hraw w src hr
      apply QuietRun.bind (rawRun_quiet (n := n) (l := start 1) newLeaf hw h hpos).1
      intro u dst hu _
      cases dst with
      | some dst => exact herror hu
      | none =>
          apply QuietRun.touch
          · intro i hi
            have := List.mem_range'_1.mp hi
            omega
          · exact .pure hu (Or.inr trivial)

theorem renameRun_quiet (comps : PathStore) (oldPath newPath : List UInt8) (hv : v.geometry = g) (hquiet : Quiet g g.rootCluster)
    (hpos : 0 < g.bytesPerSector) : QuietRun g (renameRun n start v comps oldPath newPath) fun _ => True := by
  have herror : ∀ {w : Fat32}, w.geometry = g → QuietRun g (Pure.pure (w, (-1 : Int))) fun _ => True := fun hw => .pure hw (Or.inr trivial)
  rw [renameRun]
  split
  · exact herror hv
  split
  · exact herror hv
  split
  · exact herror hv
  apply QuietRun.bind (resolveParentInRun_quiet comps _ hv hquiet hpos)
  intro w r hw hstill
  obtain ⟨comps₁, oldParent, oldLeaf⟩ := r
  apply QuietRun.bind (resolveParentInRun_quiet comps₁ _ hw hquiet hpos)
  intro u r hu _
  obtain ⟨comps₂, newParent, newLeaf⟩ := r
  cases oldLeaf with
  | none => exact herror hu
  | some oldLeaf =>
      cases newLeaf with
      | none => exact herror hu
      | some newLeaf =>
          dsimp only
          split
          · exact herror hu
          rename_i hzero
          split
          · exact herror hu
          · exact renameInRun_quiet _ _ hu (quiet_of_still hstill fun heq => hzero (Or.inl heq)) hpos

end calls

/-- On a volume of this geometry, with any content of the disk and of the stack, every index of every call is inside, as far as its loops are followed. -/
def BuffersInside (g : Fat32Geometry) : Prop :=
  ∀ (v : Fat32) (n : Nat) (leftover : Nat → Nat → UInt8), v.ready = true → v.geometry = g →
    let start := fun i => LfnState.start (leftover i)
    (∀ path, Inside (statRun n start v path)) ∧ (∀ path max, Inside (listDirRun n start v path max)) ∧
    (∀ path maxBytes, Inside (readFileRun n start v path maxBytes)) ∧ (∀ path src, Inside (writeFileRun n start v path src)) ∧
    ∀ comps oldPath newPath, Inside (renameRun n start v comps oldPath newPath)

theorem buffersInside_of_quiet (h : Quiet g g.rootCluster) (hpos : 0 < g.bytesPerSector) : BuffersInside g := by
  intro v n leftover _ hv
  refine ⟨fun path => ?_, fun path max => ?_, fun path maxBytes => ?_, fun path src => ?_, fun comps oldPath newPath => ?_⟩
  · exact (statRun_quiet path hv h hpos).inside
  · exact (listDirRun_quiet path max hv h hpos).inside
  · exact (readFileRun_quiet path maxBytes hv h hpos).inside
  · exact (writeFileRun_quiet path src hv h hpos).inside
  · exact (renameRun_quiet comps oldPath newPath hv h hpos).inside

/-! ### Sector sizes that do not fit -/

def Outside (x : Traced Nat α) : Prop := ∃ i ∈ x.log, 512 ≤ i

theorem Outside.not_inside {x : Traced Nat α} (h : Outside x) : ¬ Inside x := by
  obtain ⟨i, hi, hle⟩ := h
  exact fun hinside => Nat.not_lt.mpr hle (hinside i hi)

section outside

variable {β : Type} {a : α} {x : Traced Nat α} {f : α → Traced Nat β}

theorem Outside.left (h : Outside x) : Outside (x >>= f) := by
  obtain ⟨i, hi, hle⟩ := h
  exact ⟨i, Traced.mem_bind_left hi, hle⟩

theorem Outside.right (hx : x.result = some a) (h : Outside (f a)) : Outside (x >>= f) := by
  obtain ⟨i, hi, hle⟩ := h
  exact ⟨i, Traced.mem_bind_right hx hi, hle⟩

end outside

/-- A cluster whose FAT entry does not fit the buffer. -/
def farCluster (bytesPerSector : Nat) : Nat := if bytesPerSector = 511 then 255 else 128

theorem farCluster_cases (bps : Nat) : farCluster bps = 255 ∨ farCluster bps = 128 := by
  rw [farCluster]
  split
  · exact Or.inl rfl
  · exact Or.inr rfl

theorem farCluster_lt (bps : Nat) : farCluster bps < fat32Eoc := by
  rcases farCluster_cases bps with h | h
  · rw [h]
    decide
  · rw [h]
    decide

theorem fatNextRun_far (h : ¬ FitsSector v.geometry.bytesPerSector) : Outside (fatNextRun v (farCluster v.geometry.bytesPerSector)) := by
  have hsize := not_or.mp h
  by_cases h511 : v.geometry.bytesPerSector = 511
  · refine ⟨512, List.mem_range'_1.mpr ?_, Nat.le_refl _⟩
    rw [farCluster, if_pos h511, h511]
    decide
  · have hoff : wrap32 (128 * 4) % v.geometry.bytesPerSector = 512 := Nat.mod_eq_of_lt (show 512 < v.geometry.bytesPerSector by omega)
    refine ⟨512, List.mem_range'_1.mpr ?_, Nat.le_refl _⟩
    rw [farCluster, if_neg h511, hoff]
    decide

/-- A disk whose sectors are all the same. -/
def uniformDisk (pattern : Nat → UInt8) : Memory := fun x => pattern (x % 512)

theorem ataReadSector_uniform (pattern : Nat → UInt8) (lba : Nat) :
    ataReadSector (uniformDisk pattern) lba = fun i => if i < 512 then pattern i else 0 := by
  funext i
  rw [ataReadSector]
  split
  · rw [uniformDisk, Nat.mul_add_mod, Nat.mod_eq_of_lt ‹_›]
  · rfl

/-- Each sector links the cluster whose FAT entry is at `off` to `far`. -/
def linkPattern (off far : Nat) : Nat → UInt8 := fun i => if i = off then UInt8.ofNat far else 0

/-- Each sector is a directory with the file `A` of one byte, which starts at `far`. -/
def filePattern (far : Nat) : Nat → UInt8 := fun i =>
  if i = 0 then 65 else if i < 11 then 32 else if i = 11 then 0x20 else if i = 26 then UInt8.ofNat far else if i = 28 then 1 else 0

/-- Each sector links cluster 0 to `far`, and as a directory it has nothing to show. -/
def skippedPattern (far : Nat) : Nat → UInt8 := fun i =>
  if i = 0 then UInt8.ofNat far else if i = 11 then attrVolumeId else if i % 32 = 0 then 0xE5 else 0

/-- A mounted volume of this geometry. -/
def volumeOn (g : Fat32Geometry) (pattern : Nat → UInt8) : Fat32 := ⟨true, g, fun _ => 0, uniformDisk pattern⟩

theorem load_single {m : Memory} {a far : Nat} (hfar : far < 256) (hfirst : m a = UInt8.ofNat far) (hrest : ∀ x, a + 1 ≤ x → x < a + 1 + 3 → m x = 0) :
    m.load a 4 = far := by
  rw [Memory.load, Memory.load_eq_zero hrest, hfirst, UInt8.toNat_ofNat_of_lt' hfar, Nat.mul_zero, Nat.add_zero]

theorem fatNext_uniform {pattern : Nat → UInt8} {far : Nat} (hfar : far < 256) {w : Fat32} (hw : (volumeOn g pattern).Buffered w)
    (hin : wrap32 (c * 4) % g.bytesPerSector + 4 ≤ 512) (hfirst : pattern (wrap32 (c * 4) % g.bytesPerSector) = UInt8.ofNat far)
    (hrest : ∀ i, 0 < i → i < 4 → pattern (wrap32 (c * 4) % g.bytesPerSector + i) = 0) : (fatNext w c).1 = far := by
  obtain ⟨sec, rfl⟩ := hw
  rw [fatNext_fst, fatValue]
  simp only [volumeOn]
  rw [ataReadSector_uniform, load_single hfar]
  · exact Nat.mod_eq_of_lt (by omega)
  · rw [if_pos (by omega), hfirst]
  · intro x hlo hhi
    have hx := hrest (x - wrap32 (c * 4) % g.bytesPerSector) (by omega) (by omega)
    rw [Nat.add_sub_cancel' (by omega)] at hx
    rw [if_pos (by omega), hx]

/-- The lookup of a link to the far cluster, and of its own entry: one of the two does not fit. -/
theorem scanRun_far {pattern : Nat → UInt8} {ctx : σ} (hfits : ¬ FitsSector g.bytesPerSector) (hc : c < fat32Eoc)
    (hlink : wrap32 (c * 4) % g.bytesPerSector + 4 ≤ 512 → ∀ w, (volumeOn g pattern).Buffered w → (fatNext w c).1 = farCluster g.bytesPerSector)
    (hpass : ∀ (x : Nat) (w : Fat32) (l : LfnState), (volumeOn g pattern).Buffered w → ∃ w' l', (volumeOn g pattern).Buffered w' ∧
      scanSectors k (clusterToLba w.geometry x) (List.range w.geometry.sectorsPerCluster) w l ctx = some (w', .more l' ctx)) (l : LfnState) :
    Outside (scanRun k 2 c (volumeOn g pattern) l ctx) := by
  obtain ⟨w, l₁, hw, hscan⟩ := hpass c (volumeOn g pattern) l (Fat32.Buffered.refl _)
  rw [scanRun, if_pos hc]
  apply Outside.right ((scanSectorsRun_result _ _ _ _ _).trans hscan)
  dsimp only
  by_cases hin : wrap32 (c * 4) % g.bytesPerSector + 4 ≤ 512
  · apply Outside.right (a := fatNext w c) rfl
    have hnext := hw.trans (fatNext_buffered w c)
    rw [hlink hin w hw, scanRun, if_pos (farCluster_lt _)]
    obtain ⟨u, l₂, hu, hscan⟩ := hpass (farCluster g.bytesPerSector) _ l₁ hnext
    apply Outside.right ((scanSectorsRun_result _ _ _ _ _).trans hscan)
    apply Outside.left
    have hgeometry : u.geometry = g := hu.geometry
    have hfar := fatNextRun_far (v := u) (by rwa [hgeometry])
    rwa [hgeometry] at hfar
  · apply Outside.left
    refine ⟨wrap32 (c * 4) % g.bytesPerSector + 3, List.mem_range'_1.mpr ?_, by omega⟩
    rw [hw.geometry]
    exact ⟨Nat.le_add_right _ _, Nat.lt_succ_self _⟩

theorem listDirRun_outside {start : Nat → LfnState} (hv : v.ready = true)
    (h : ∀ k : DirScan (List Fat32Dirent), (k = ⟨iterateLfn, fun e _ _ name ctx => listCb 1 e name ctx⟩) → Outside (scanRun k n v.geometry.rootCluster v (start 33) [])) :
    Outside (listDirRun n start v [slash] 1) := by
  have hnorm : fat32NormalizePath [slash] fat32NameMax = some [slash] := by decide +kernel
  rw [listDirRun, if_neg (by rw [hv]; decide), hnorm]
  dsimp only
  rw [if_pos rfl]
  exact Outside.left (h _ rfl)

/-- Without sectors in a cluster, listing the root only follows the chain. -/
theorem outside_of_noSectors (hfits : ¬ FitsSector g.bytesPerSector) (hroot : g.rootCluster < fat32Eoc) (hspc : g.sectorsPerCluster = 0) :
    ¬ BuffersInside g := by
  intro hinside
  obtain ⟨-, hlist, -⟩ := hinside (volumeOn g (linkPattern (wrap32 (g.rootCluster * 4) % g.bytesPerSector) (farCluster g.bytesPerSector))) 2
    (fun _ _ => 0) rfl rfl
  refine (listDirRun_outside rfl fun k _ => ?_).not_inside (hlist [slash] 1)
  apply scanRun_far hfits hroot
  · intro hin w hw
    refine fatNext_uniform ?_ hw hin (if_pos rfl) fun i hlo _ => if_neg (by omega)
    rcases farCluster_cases g.bytesPerSector with h | h <;> omega
  · intro x w l hw
    refine ⟨w, l, hw, ?_⟩
    rw [hw.geometry, show (volumeOn g _).geometry.sectorsPerCluster = 0 from hspc]
    rfl

/-- On the disk that shows nothing the first 16 entries of every sector are passed over. -/
theorem skipped_entry {far i : Nat} (hlo : 0 < far) (hhi : far < 256) (hi : i < 16) (lba : Nat) (l : LfnState) (ctx : σ) :
    scanEntry k (ataReadSector (uniformDisk (skippedPattern far)) lba) lba (i * 32) l ctx = some (.more l.reset ctx) := by
  have hbyte : ∀ off < 512, ataReadSector (uniformDisk (skippedPattern far)) lba off = skippedPattern far off := by
    intro off hoff
    rw [ataReadSector_uniform]
    exact if_pos hoff
  have hfirst : slotFirst (uniformDisk (skippedPattern far)) (lba, i * 32) = skippedPattern far (i * 32) := hbyte _ (by omega)
  have hattr : (slotEntry (uniformDisk (skippedPattern far)) (lba, i * 32)).attr = skippedPattern far (i * 32 + 11) := hbyte _ (by omega)
  apply @scanEntry_skipped _ _ _ _ _ (lba, i * 32)
  · rw [hfirst, skippedPattern]
    by_cases hzero : i = 0
    · rw [hzero, if_pos rfl]
      intro heq
      have hnat := congrArg UInt8.toNat heq
      rw [UInt8.toNat_ofNat_of_lt' hhi] at hnat
      exact absurd hnat (by simpa using Nat.ne_of_gt hlo)
    · rw [if_neg (by omega), if_neg (by omega), if_pos (by omega)]
      decide
  · by_cases hzero : i = 0
    · refine Or.inr ⟨?_, Or.inl ?_⟩
      · rw [hattr, hzero]
        exact (by decide : attrVolumeId ≠ attrLfn)
      · rw [hattr, hzero]
        exact (by decide : attrVolumeId &&& attrVolumeId ≠ 0)
    · refine Or.inl ?_
      rw [hfirst, skippedPattern, if_neg (by omega), if_neg (by omega), if_pos (by omega)]

theorem skipped_entries {far : Nat} (hlo : 0 < far) (hhi : far < 256) {is : List Nat} (his : ∀ i ∈ is, i < 16) (lba : Nat) (l : LfnState) (ctx : σ) :
    ∃ l', scanEntries k (ataReadSector (uniformDisk (skippedPattern far)) lba) lba is l ctx = some (.more l' ctx) := by
  induction is generalizing l with
  | nil => exact ⟨l, rfl⟩
  | cons i is ih =>
      rw [scanEntries, skipped_entry hlo hhi (his i List.mem_cons_self)]
      exact ih (fun j hj => his j (List.mem_cons_of_mem i hj)) l.reset

theorem skipped_sectors {far : Nat} (hlo : 0 < far) (hhi : far < 256) (hbytes : g.bytesPerSector / 32 ≤ 16) (lba : Nat) (ss : List Nat)
    {w : Fat32} (hw : (volumeOn g (skippedPattern far)).Buffered w) (l : LfnState) (ctx : σ) :
    ∃ w' l', (volumeOn g (skippedPattern far)).Buffered w' ∧ scanSectors k lba ss w l ctx = some (w', .more l' ctx) := by
  induction ss generalizing w l with
  | nil => exact ⟨w, l, hw, rfl⟩
  | cons s ss ih =>
      have hload := hw.trans (Fat32.Buffered.load w (wrap32 (lba + s)))
      obtain ⟨sec, rfl⟩ := hw
      obtain ⟨l₁, hl₁⟩ := skipped_entries (k := k) hlo hhi
        (fun i (hi : i ∈ List.range (g.bytesPerSector / 32)) => Nat.lt_of_lt_of_le (List.mem_range.mp hi) hbytes) (wrap32 (lba + s)) l ctx
      obtain ⟨w', l', hw', hrest⟩ := ih hload l₁
      refine ⟨w', l', hw', ?_⟩
      rw [scanSectors]
      simp only [Fat32.load, volumeOn] at hrest ⊢
      rw [hl₁]
      exact hrest

/-- With more than 16 entries a sector the scan reaches the first one behind the buffer. -/
theorem skipped_beyond {far m : Nat} (hlo : 0 < far) (hhi : far < 256) (hm : 16 < m) (lba : Nat) (l : LfnState) (ctx : σ) :
    Outside (scanEntriesRun k (ataReadSector (uniformDisk (skippedPattern far)) lba) lba (List.range m) l ctx) := by
  have hsplit : List.range m = List.range 16 ++ (List.range (m - 16)).map (16 + ·) := by
    rw [← List.range_add, Nat.add_sub_cancel' (Nat.le_of_lt hm)]
  have hpast : ∀ (is : List Nat) (l : LfnState), (∀ i ∈ is, i < 16) →
      Outside (scanEntriesRun k (ataReadSector (uniformDisk (skippedPattern far)) lba) lba (is ++ (List.range (m - 16)).map (16 + ·)) l ctx) := by
    intro is
    induction is with
    | nil =>
        intro l _
        obtain ⟨rest, hrest⟩ := Nat.exists_eq_add_one_of_ne_zero (show m - 16 ≠ 0 by omega)
        rw [List.nil_append, hrest, List.range_succ_eq_map, List.map_cons, scanEntriesRun]
        exact Outside.left ⟨512, List.mem_range'_1.mpr (by decide), Nat.le_refl _⟩
    | cons i is ih =>
        intro l his
        rw [List.cons_append, scanEntriesRun]
        apply Outside.right (a := .more l.reset ctx) (skipped_entry hlo hhi (his i List.mem_cons_self) lba l ctx)
        exact ih l.reset fun j hj => his j (List.mem_cons_of_mem i hj)
  rw [hsplit]
  exact hpast _ l fun i hi => List.mem_range.mp hi

/-- With the root at cluster 0 only listing the root scans anything. -/
theorem outside_of_rootZero (hfits : ¬ FitsSector g.bytesPerSector) (hroot : g.rootCluster = 0) (hspc : 0 < g.sectorsPerCluster) :
    ¬ BuffersInside g := by
  have hfar : 0 < farCluster g.bytesPerSector ∧ farCluster g.bytesPerSector < 256 := by
    rcases farCluster_cases g.bytesPerSector with h | h <;> omega
  intro hinside
  obtain ⟨-, hlist, -⟩ := hinside (volumeOn g (skippedPattern (farCluster g.bytesPerSector))) 2 (fun _ _ => 0) rfl rfl
  refine (listDirRun_outside rfl fun k _ => ?_).not_inside (hlist [slash] 1)
  rw [show (volumeOn g _).geometry.rootCluster = 0 from hroot]
  by_cases hbytes : g.bytesPerSector / 32 ≤ 16
  · apply scanRun_far hfits (by decide)
    · have hzero : wrap32 (0 * 4) % g.bytesPerSector = 0 := Nat.zero_mod _
      intro hin w hw
      refine fatNext_uniform hfar.2 hw hin ?_ ?_
      · rw [hzero]
        rfl
      · intro i hlo hhi
        rw [hzero, skippedPattern, if_neg (by omega), if_neg (by omega), if_neg (by omega)]
    · exact fun x w l hw => skipped_sectors hfar.1 hfar.2 hbytes _ _ hw l []
  · obtain ⟨m, hm⟩ := Nat.exists_eq_add_one_of_ne_zero (Nat.ne_of_gt hspc)
    rw [scanRun, if_pos (by decide), show (volumeOn g _).geometry.sectorsPerCluster = m + 1 from hm, List.range_succ_eq_map, scanSectorsRun]
    exact Outside.left (Outside.left (skipped_beyond hfar.1 hfar.2 (Nat.not_le.mp hbytes) _ _ _))

/-- The path `/A`. -/
def fileA : List UInt8 := [slash, 65]

theorem file_entry {far : Nat} (hfar : far = 255 ∨ far = 128) (lba : Nat) :
    scanEntry ⟨iterateLfn, fun e _ _ name ctx => statCb [65] e name ctx⟩ (ataReadSector (uniformDisk (filePattern far)) lba) lba 0
      (.start fun _ => 0) none = some (.done (some ⟨[65], 1, false, far⟩)) := by
  rw [ataReadSector_uniform]
  rcases hfar with rfl | rfl
  · rfl
  · rfl

/-- The first slot of the root directory is the file. -/
theorem file_stat {far : Nat} (hfar : far = 255 ∨ far = 128) (hroot : g.rootCluster < fat32Eoc) (hzero : g.rootCluster ≠ 0)
    (hspc : 0 < g.sectorsPerCluster) (hbytes : 32 ≤ g.bytesPerSector) :
    ∃ w, (volumeOn g (filePattern far)).Buffered w ∧
      (statRun 1 (fun _ => .start fun _ => 0) (volumeOn g (filePattern far)) fileA).result = some (w, some ⟨[65], 1, false, far⟩) := by
  have hnorm : fat32NormalizePath fileA fat32NameMax = some fileA := by decide +kernel
  have hcomps : pathComponents 32 fileA = [[65]] := by decide +kernel
  have hslots : ∃ lba rest, chainSlots g (uniformDisk (filePattern far)) 1 g.rootCluster = (lba, 0) :: rest := by
    obtain ⟨m, hm⟩ := Nat.exists_eq_add_one_of_ne_zero (Nat.ne_of_gt hspc)
    obtain ⟨entries, hentries⟩ := Nat.exists_eq_add_one_of_ne_zero (show g.bytesPerSector / 32 ≠ 0 by omega)
    rw [chainSlots_succ hroot, clusterSlots, hm, List.range_succ_eq_map, List.flatMap_cons, hentries, List.range_succ_eq_map, List.map_cons]
    exact ⟨_, _, rfl⟩
  obtain ⟨lba, rest, hslots⟩ := hslots
  have hscan := scanClusters_slots (k := ⟨iterateLfn, fun e _ _ name ctx => statCb [65] e name ctx⟩) (volumeOn g (filePattern far)) 1 g.rootCluster
    (.start fun _ => 0) none
  rw [show chainSlots (volumeOn g (filePattern far)).geometry (volumeOn g (filePattern far)).disk 1 g.rootCluster = (lba, 0) :: rest from hslots,
    scanSlots, show scanEntry _ (ataReadSector (volumeOn g (filePattern far)).disk lba) lba 0 _ _ = _ from file_entry hfar lba] at hscan
  obtain ⟨w, hw, hresult⟩ := hscan.of_done
  refine ⟨w, hw, ?_⟩
  have hready : (volumeOn g (filePattern far)).ready = true := rfl
  have hparent : (resolveParentRun 1 (fun _ => .start fun _ => 0) (volumeOn g (filePattern far)) fileA).result =
      some (volumeOn g (filePattern far), g.rootCluster, some [65]) := by
    rw [resolveParentRun, hcomps]
    rfl
  rw [statRun, hready, hnorm]
  simp only [Bool.not_true, Bool.false_eq_true, if_false, if_neg (by decide : ¬ fileA = [slash]), Traced.bind_result, hparent, Option.bind_some,
    if_neg hzero, scanRun_result]
  exact hresult

/-- Reading the first byte of a file that starts at the far cluster looks the next one up. -/
theorem outside_of_file (hfits : ¬ FitsSector g.bytesPerSector) (hroot : g.rootCluster < fat32Eoc) (hzero : g.rootCluster ≠ 0)
    (hspc : 0 < g.sectorsPerCluster) : ¬ BuffersInside g := by
  have hsize := not_or.mp hfits
  obtain ⟨w, hw, hstat⟩ := file_stat (farCluster_cases g.bytesPerSector) hroot hzero hspc (by omega)
  have hnorm : fat32NormalizePath fileA fat32NameMax = some fileA := by decide +kernel
  have hready : (volumeOn g (filePattern (farCluster g.bytesPerSector))).ready = true := rfl
  have hgeometry : w.geometry = g := hw.geometry
  intro hinside
  obtain ⟨-, -, hread, -⟩ := hinside (volumeOn g (filePattern (farCluster g.bytesPerSector))) 1 (fun _ _ => 0) rfl rfl
  refine Outside.not_inside ?_ (hread fileA 1)
  rw [readFileRun, hready, hnorm]
  simp only [Bool.not_true, Bool.false_eq_true, if_false]
  apply Outside.right hstat
  simp only [Bool.false_eq_true, if_false]
  apply Outside.left
  rw [readClustersRun, if_pos ⟨farCluster_lt _, by decide⟩]
  apply Outside.right (a := ()) rfl
  apply Outside.left
  have hfar := fatNextRun_far (v := w) (by rwa [hgeometry])
  rwa [hgeometry] at hfar

theorem fat32Init_bytes {v₀ v : Fat32} (hinit : fat32Init v₀ = (0, v)) : 0 < v.geometry.bytesPerSector := by
  rw [fat32Init] at hinit
  dsimp only at hinit
  split at hinit
  · cases hinit
  split at hinit
  · cases hinit
  rename_i hbytes
  split at hinit
  · cases hinit
  split at hinit
  · cases hinit
  rw [← (Prod.mk.inj hinit).2]
  exact Nat.pos_of_ne_zero hbytes

/-- Every index is inside exactly for the sector sizes up to 510 and for 512, unless the root directory has no cluster. -/
theorem fat32_buffersInside_iff {v₀ v : Fat32} (hinit : fat32Init v₀ = (0, v)) :
    BuffersInside v.geometry ↔ v.geometry.bytesPerSector ≤ 510 ∨ v.geometry.bytesPerSector = 512 ∨ fat32Eoc ≤ v.geometry.rootCluster := by
  have hpos := fat32Init_bytes hinit
  constructor
  · intro hinside
    by_contra hnot
    obtain ⟨hsmall, hrest⟩ := not_or.mp hnot
    obtain ⟨hsector, hroot⟩ := not_or.mp hrest
    have hfits : ¬ FitsSector v.geometry.bytesPerSector := not_or.mpr ⟨hsmall, hsector⟩
    rcases Nat.eq_zero_or_pos v.geometry.sectorsPerCluster with hspc | hspc
    · exact outside_of_noSectors hfits (Nat.not_le.mp hroot) hspc hinside
    · by_cases hzero : v.geometry.rootCluster = 0
      · exact outside_of_rootZero hfits hzero hspc hinside
      · exact outside_of_file hfits (Nat.not_le.mp hroot) hzero hspc hinside
  · rintro (hsmall | hsector | hroot)
    · exact buffersInside_of_quiet (Or.inl (Or.inl hsmall)) hpos
    · exact buffersInside_of_quiet (Or.inl (Or.inr hsector)) hpos
    · exact buffersInside_of_quiet (Or.inr (Nat.not_lt.mpr hroot)) hpos

theorem fat32_buffersInside_tiny : BuffersInside (mounted tinyBoot).2.geometry := by
  have hinit : mounted tinyBoot = (0, (mounted tinyBoot).2) := Prod.ext (by decide +kernel) rfl
  exact (fat32_buffersInside_iff hinit).mpr (Or.inr (Or.inl (by decide +kernel)))

/-- The same boot sector with sectors of 4096 bytes. -/
def wideBoot : Memory := tinyBoot.store 11 2 4096

/-- The driver takes it, and reading a file of one byte leaves the buffer. -/
theorem fat32_wide_sectors : (mounted wideBoot).1 = 0 ∧
    Outside (readFileRun 1 (fun _ => .start fun _ => 0) (volumeOn (mounted wideBoot).2.geometry (filePattern 128)) fileA 1) ∧
    ¬ BuffersInside (mounted wideBoot).2.geometry := by
  have hgeometry : (mounted wideBoot).2.geometry = ⟨1, 2, 2, 1, 1, 4096⟩ := by decide +kernel
  have hread : Outside (readFileRun 1 (fun _ => .start fun _ => 0) (volumeOn (mounted wideBoot).2.geometry (filePattern 128)) fileA 1) := by
    rw [hgeometry]
    exact ⟨512, by decide +kernel, Nat.le_refl _⟩
  refine ⟨by decide +kernel, hread, fun hinside => ?_⟩
  obtain ⟨-, -, hall, -⟩ := hinside (volumeOn (mounted wideBoot).2.geometry (filePattern 128)) 1 (fun _ _ => 0) rfl rfl
  exact hread.not_inside (hall fileA 1)

end Tsukasa
