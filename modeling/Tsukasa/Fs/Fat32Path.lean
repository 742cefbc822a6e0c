import Tsukasa.Fs.Fat32

/-!
# Paths of the FAT32 driver

A call normalises its path, and `fat32_read_file` hands the result to `fat32_stat`, which normalises it once more. A normalised path is a fixed point, and the components that `resolve_parent` finds in it are the segments it was put together from, so both calls look for the same file.
-/

namespace Tsukasa

/-- A segment that normalisation keeps as it is. -/
structure FatSegment (seg : List UInt8) : Prop where
  ne_nil : seg ≠ []
  ne_dot : seg ≠ [dot]
  ne_dots : seg ≠ [dot, dot]
  slash : slash ∉ seg

/-- Segments as they stand in `segs`. -/
structure FatSegments (segs : List (List UInt8)) : Prop where
  kept : ∀ seg ∈ segs, FatSegment seg
  count : segs.length ≤ vfsMaxSegments

theorem slash_notMem_of_mem_splitOn {path seg : List UInt8} (h : seg ∈ path.splitOn slash) : slash ∉ seg := by
  induction path generalizing seg with
  | nil =>
      rw [List.splitOn_nil, List.mem_singleton] at h
      rw [h]
      exact List.not_mem_nil
  | cons c path ih =>
      rw [List.splitOn_cons_eq_if_modifyHead] at h
      split at h
      · rcases List.mem_cons.mp h with rfl | h
        · exact List.not_mem_nil
        · exact ih h
      · rename_i hc
        obtain ⟨seg', rest, hsplit⟩ := List.exists_cons_of_ne_nil (List.splitOn_ne_nil slash path)
        rw [hsplit, List.modifyHead_cons, List.mem_cons] at h
        rcases h with rfl | h
        · rw [List.mem_cons, not_or]
          refine ⟨?_, ih ?_⟩
          · intro heq
            exact hc (by simp [heq])
          · rw [hsplit]
            exact List.mem_cons_self
        · apply ih
          rw [hsplit]
          exact List.mem_cons_of_mem seg' h

theorem pushSegment_of_kept {segs : List (List UInt8)} {seg : List UInt8} (h : FatSegment seg) (hroom : segs.length < vfsMaxSegments) :
    pushSegment segs seg = some (segs ++ [seg]) := by
  rw [pushSegment, if_neg (by simp [h.ne_nil, h.ne_dot]), if_neg h.ne_dots, if_neg (by omega)]

theorem FatSegments.push {segs segs' : List (List UInt8)} {seg : List UInt8} (h : FatSegments segs) (hpush : pushSegment segs seg = some segs')
    (hslash : slash ∉ seg) : FatSegments segs' := by
  rw [pushSegment] at hpush
  split at hpush
  · cases hpush
    exact h
  rename_i hkept
  split at hpush
  · cases hpush
    refine ⟨fun seg hseg => h.kept seg (List.mem_of_mem_dropLast hseg), ?_⟩
    have := h.count
    rw [List.length_dropLast]
    omega
  rename_i hdots
  split at hpush
  · cases hpush
  rename_i hroom
  cases hpush
  refine ⟨?_, ?_⟩
  · intro s hs
    rcases List.mem_append.mp hs with hs | hs
    · exact h.kept s hs
    · rw [List.mem_singleton.mp hs]
      exact ⟨fun hnil => hkept (Or.inl hnil), fun hdot => hkept (Or.inr hdot), hdots, hslash⟩
  · rw [List.length_append, List.length_singleton]
    omega

theorem FatSegments.fold {scanned segs segs' : List (List UInt8)} (h : FatSegments segs) (hfold : scanned.foldlM pushSegment segs = some segs')
    (hslash : ∀ seg ∈ scanned, slash ∉ seg) : FatSegments segs' := by
  induction scanned generalizing segs with
  | nil =>
      cases hfold
      exact h
  | cons seg scanned ih =>
      rw [List.foldlM_cons] at hfold
      obtain ⟨next, hpush, hfold⟩ := Option.bind_eq_some_iff.mp hfold
      exact ih (h.push hpush (hslash seg List.mem_cons_self)) hfold fun s hs => hslash s (List.mem_cons_of_mem seg hs)

/-- Segments that are kept are collected as they come. -/
theorem foldlM_pushSegment_of_kept {segs segs' : List (List UInt8)} (h : FatSegments (segs' ++ segs)) :
    segs.foldlM pushSegment segs' = some (segs' ++ segs) := by
  induction segs generalizing segs' with
  | nil => simp
  | cons seg segs ih =>
      have hcount := h.count
      rw [List.length_append, List.length_cons] at hcount
      rw [List.foldlM_cons, pushSegment_of_kept (h.kept seg (by simp)) (by omega)]
      have happend : segs' ++ seg :: segs = (segs' ++ [seg]) ++ segs := by simp
      rw [happend] at h ⊢
      exact ih h

/-- The path that `segs` are put together to. -/
def joinSegments (segs : List (List UInt8)) : List UInt8 := if segs = [] then [slash] else segs.flatMap (slash :: ·)

theorem flatMap_slash_eq_intercalate (segs : List (List UInt8)) : segs.flatMap (slash :: ·) = [slash].intercalate ([] :: segs) := by
  induction segs with
  | nil => simp
  | cons seg segs ih =>
      rw [List.flatMap_cons, ih, List.intercalate_cons_cons]
      cases segs with
      | nil => simp
      | cons seg' segs => simp [List.intercalate_cons_cons]

theorem splitOn_joinSegments {segs : List (List UInt8)} (h : FatSegments segs) :
    (joinSegments segs).splitOn slash = if segs = [] then [[], []] else [] :: segs := by
  rw [joinSegments]
  split
  · decide
  · rw [flatMap_slash_eq_intercalate]
    apply List.splitOn_intercalate
    · intro seg hseg
      rcases List.mem_cons.mp hseg with rfl | hseg
      · exact List.not_mem_nil
      · exact (h.kept seg hseg).slash
    · exact List.cons_ne_nil _ _

theorem length_le_of_mem_join {segs : List (List UInt8)} {seg : List UInt8} (hseg : seg ∈ segs) :
    seg.length < (joinSegments segs).length := by
  rw [joinSegments, if_neg (List.ne_nil_of_mem hseg)]
  obtain ⟨before, after, rfl⟩ := List.append_of_mem hseg
  simp only [List.flatMap_append, List.flatMap_cons, List.length_append, List.length_cons]
  omega

theorem fat32NormalizePath_some {path norm : List UInt8} {cap : Nat} (h : fat32NormalizePath path cap = some norm) :
    ∃ segs, FatSegments segs ∧ norm = joinSegments segs ∧ norm.length ≤ cap - 1 ∧ 1 < cap := by
  rw [fat32NormalizePath] at h
  split at h
  · cases h
  rename_i hcap
  split at h
  · cases h
  rename_i segs hfold
  obtain ⟨hlen, hnorm⟩ := Option.ite_none_right_eq_some.mp h
  refine ⟨segs, ?_, (Option.some.inj hnorm).symm, ?_, by omega⟩
  · have hnil : FatSegments [] := ⟨fun _ hs => absurd hs List.not_mem_nil, Nat.zero_le _⟩
    apply hnil.fold hfold
    intro seg hseg
    obtain ⟨whole, hwhole, rfl⟩ := List.mem_map.mp hseg
    exact fun hmem => slash_notMem_of_mem_splitOn hwhole (List.mem_of_mem_take hmem)
  · rw [← Option.some.inj hnorm]
    exact hlen

theorem fat32NormalizePath_join {segs : List (List UInt8)} (h : FatSegments segs) {cap : Nat} (hcap : cap ≤ fat32NameMax) (hone : 1 < cap)
    (hfits : (joinSegments segs).length ≤ cap - 1) : fat32NormalizePath (joinSegments segs) cap = some (joinSegments segs) := by
  have hhead : (joinSegments segs).head? = some slash := by
    cases segs with
    | nil => rfl
    | cons seg segs => rfl
  have hcut : ((joinSegments segs).splitOn slash).map (List.take (fat32NameMax - 1)) = (joinSegments segs).splitOn slash := by
    nth_rewrite 2 [← List.map_id ((joinSegments segs).splitOn slash)]
    apply List.map_congr_left
    intro seg hseg
    apply List.take_of_length_le
    rw [splitOn_joinSegments h] at hseg
    split at hseg
    · have : seg = [] := by simpa using hseg
      simp [this]
    · rcases List.mem_cons.mp hseg with rfl | hseg
      · simp
      · have := length_le_of_mem_join hseg
        omega
  have hfold : ((joinSegments segs).splitOn slash).foldlM pushSegment [] = some segs := by
    rw [splitOn_joinSegments h]
    split
    · rename_i hnil
      rw [hnil]
      rfl
    · rw [List.foldlM_cons]
      exact foldlM_pushSegment_of_kept (by rwa [List.nil_append])
  rw [fat32NormalizePath, if_neg (by simp [hhead]; omega), hcut, hfold]
  exact if_pos hfits

/-- A normalised path is a fixed point of normalisation. -/
theorem fat32NormalizePath_idem {path norm : List UInt8} (h : fat32NormalizePath path fat32NameMax = some norm) :
    fat32NormalizePath norm fat32NameMax = some norm := by
  obtain ⟨segs, hsegs, rfl, hlen, hone⟩ := fat32NormalizePath_some h
  exact fat32NormalizePath_join hsegs le_rfl hone hlen

end Tsukasa
