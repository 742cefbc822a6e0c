import Tsukasa.Fs.Vfs
import Tsukasa.Lib.Run

/-!
# Path normalisation and the mount table

The path part of `fs/vfs.c`. A C string is the list of its bytes before the terminator, and a buffer is its capacity. Every path the core works on comes out of `normalize_path_for_process`, so a mount point starts with a slash, and the lookup has to respect the boundaries between components only where a mount point ends.
-/

namespace Tsukasa

def vfsMaxMounts : Nat := 13
def vfsPathMax : Nat := 256
def vfsNameMax : Nat := 64
def vfsMaxSegments : Nat := 32

def slash : UInt8 := 47
def dot : UInt8 := 46

/-- `kstrncpy` into a buffer of `cap` bytes: the return code and the copy. -/
def kstrncpy (src : List UInt8) (cap : Nat) : Int × List UInt8 := (if src.length ≤ cap - 1 then 0 else -1, src.take (cap - 1))

def pathIsAbs (path : List UInt8) : Bool := path.head? == some slash

def pathCopyJoin (cap : Nat) (base extra : List UInt8) : Option (List UInt8) :=
  let out := base.take (cap - 1)
  if out.getLast? = some slash then
    if out.length + extra.length ≤ cap - 1 then some (out ++ extra) else none
  else if cap - 1 ≤ out.length then none
  else if out.length + 1 + extra.length ≤ cap - 1 then some (out ++ slash :: extra)
  else none

/-- The components of a path, each cut to `VFS_NAME_MAX - 1` bytes; `seg` is the one being collected. -/
def pathSegments (seg : List UInt8) : List UInt8 → List (List UInt8)
  | [] => [seg]
  | c :: scan =>
      if c = slash then seg :: pathSegments [] scan
      else pathSegments (if seg.length < vfsNameMax - 1 then seg ++ [c] else seg) scan

/-- What `normalize_path_for_process` does with one component. -/
def pushSegment (segs : List (List UInt8)) (seg : List UInt8) : Option (List (List UInt8)) :=
  if seg = [] ∨ seg = [dot] then some segs
  else if seg = [dot, dot] then some segs.dropLast
  else if vfsMaxSegments ≤ segs.length then none
  else some (segs ++ [seg])

/-- `normalize_path_for_process` for a process with the given working directory, into a buffer of `cap` bytes. -/
def normalizePath (cwd path : List UInt8) (cap : Nat) : Option (List UInt8) :=
  if cap ≤ 1 then none
  else
    let raw :=
      if pathIsAbs path then if path.length ≤ vfsPathMax - 1 then some path else none
      else pathCopyJoin vfsPathMax (if cwd = [] then [slash] else cwd) path
    match raw.bind fun raw => (pathSegments [] raw).foldlM pushSegment [] with
    | none => none
    | some segs =>
        let out := if segs = [] then [slash] else segs.flatMap (slash :: ·)
        if out.length ≤ cap - 1 then some out else none

/-! ### The mount table -/

structure VfsMountEntry where
  used : Bool
  path : List UInt8
  backend : VfsBackend
  readOnly : Bool

abbrev MountTable := Nat → VfsMountEntry

def mountTableReset : MountTable := fun _ => ⟨false, [], .none, true⟩

/-- `mount_register`; `cwd` is the kernel's working directory. -/
def mountRegister (mounts : MountTable) (cwd path : List UInt8) (backend : VfsBackend) (readOnly : Bool) : Int × MountTable :=
  match normalizePath cwd path vfsPathMax with
  | none => (-1, mounts)
  | some norm =>
      match (List.range vfsMaxMounts).find? fun i => !(mounts i).used with
      | none => (-1, mounts)
      | some i => (0, Function.update mounts i ⟨true, (kstrncpy norm vfsPathMax).2, backend, readOnly⟩)

/-- The number of bytes for which the loop of `mount_lookup` goes on. -/
def commonLength : List UInt8 → List UInt8 → Nat
  | a :: path, b :: mount => if a = b then commonLength path mount + 1 else 0
  | _, _ => 0

def isRootMount (m : VfsMountEntry) : Bool := decide (m.path.length = 1) && m.path.head? == some slash

/-- The body of the loop of `mount_lookup`; the pair is `best` and `best_len`. -/
def lookupStep (mounts : MountTable) (path : List UInt8) (best : Option Nat × Int) (i : Nat) : Option Nat × Int :=
  let m := mounts i
  if !m.used then best
  else if isRootMount m then if best.2 < 1 then (some i, 1) else best
  else
    let j := commonLength path m.path
    if j ≠ m.path.length then best
    else if (path.drop j).head? ≠ none ∧ (path.drop j).head? ≠ some slash then best
    else if best.2 < m.path.length then (some i, m.path.length)
    else best

def mountLookup (mounts : MountTable) (path : List UInt8) : Option Nat :=
  ((List.range vfsMaxMounts).foldl (lookupStep mounts path) (none, -1)).1

def mountSubpath (m : VfsMountEntry) (absPath : List UInt8) (cap : Nat) : Int × List UInt8 :=
  if isRootMount m then kstrncpy absPath cap
  else
    let p := absPath.drop m.path.length
    if p = [] then kstrncpy [slash] cap else kstrncpy p cap

/-! ### What normalisation promises -/

/-- A component that is kept: not empty, and without a slash. -/
def SegmentOk (seg : List UInt8) : Prop := seg ≠ [] ∧ slash ∉ seg

theorem pathSegments_slash {scan seg : List UInt8} (hseg : slash ∉ seg) : ∀ s ∈ pathSegments seg scan, slash ∉ s := by
  induction scan generalizing seg with
  | nil =>
      intro s hs
      rw [pathSegments, List.mem_singleton] at hs
      rwa [hs]
  | cons c scan ih =>
      intro s hs
      rw [pathSegments] at hs
      split at hs
      · rcases List.mem_cons.mp hs with rfl | hs
        · exact hseg
        · exact ih (List.not_mem_nil) s hs
      · rename_i hc
        refine ih ?_ s hs
        split
        · rw [List.mem_append, List.mem_singleton, not_or]
          exact ⟨hseg, Ne.symm hc⟩
        · exact hseg

theorem pushSegment_ok {segs segs' : List (List UInt8)} {seg : List UInt8} (h : pushSegment segs seg = some segs')
    (hsegs : ∀ s ∈ segs, SegmentOk s) (hseg : slash ∉ seg) : ∀ s ∈ segs', SegmentOk s := by
  rw [pushSegment] at h
  split at h
  · cases h
    exact hsegs
  rename_i hkept
  split at h
  · cases h
    exact fun s hs => hsegs s (List.mem_of_mem_dropLast hs)
  split at h
  · cases h
  · cases h
    intro s hs
    rcases List.mem_append.mp hs with hs | hs
    · exact hsegs s hs
    · rw [List.mem_singleton.mp hs]
      exact ⟨fun hnil => hkept (Or.inl hnil), hseg⟩

theorem foldlM_pushSegment_ok {scanned segs segs' : List (List UInt8)} (h : scanned.foldlM pushSegment segs = some segs')
    (hsegs : ∀ s ∈ segs, SegmentOk s) (hscanned : ∀ s ∈ scanned, slash ∉ s) : ∀ s ∈ segs', SegmentOk s := by
  induction scanned generalizing segs with
  | nil =>
      cases h
      exact hsegs
  | cons seg scanned ih =>
      rw [List.foldlM_cons] at h
      cases hpush : pushSegment segs seg with
      | none =>
          rw [hpush] at h
          cases h
      | some next =>
          rw [hpush] at h
          exact ih h (pushSegment_ok hpush hsegs (hscanned seg List.mem_cons_self)) fun s hs => hscanned s (List.mem_cons_of_mem seg hs)

/-- A path that has been normalised starts with a slash, fits its buffer, and ends in a slash only when it is the root. -/
structure Normalized (cap : Nat) (path : List UInt8) : Prop where
  head : path.head? = some slash
  fits : path.length ≤ cap - 1
  last : path ≠ [slash] → path.getLast? ≠ some slash

theorem normalizePath_some {cwd path out : List UInt8} {cap : Nat} (h : normalizePath cwd path cap = some out) : Normalized cap out := by
  simp only [normalizePath] at h
  split at h
  · cases h
  split at h
  · cases h
  rename_i segs hsegs
  obtain ⟨raw, -, hfold⟩ := Option.bind_eq_some_iff.mp hsegs
  have hok := foldlM_pushSegment_ok hfold (fun _ hs => absurd hs List.not_mem_nil) (pathSegments_slash List.not_mem_nil)
  by_cases hnil : segs = []
  · rw [if_pos hnil] at h
    obtain ⟨hlen, hout⟩ := Option.ite_none_right_eq_some.mp h
    cases hout
    exact ⟨rfl, hlen, fun hne => absurd rfl hne⟩
  · rw [if_neg hnil] at h
    obtain ⟨hlen, hout⟩ := Option.ite_none_right_eq_some.mp h
    cases hout
    refine ⟨?_, hlen, fun _ => ?_⟩
    · obtain ⟨seg, rest, rfl⟩ := List.exists_cons_of_ne_nil hnil
      rfl
    · obtain ⟨front, seg, rfl⟩ := (List.eq_nil_or_concat segs).resolve_left hnil
      obtain ⟨hne, hfree⟩ := hok seg (by simp)
      obtain ⟨body, c, rfl⟩ := (List.eq_nil_or_concat seg).resolve_left hne
      simp only [List.concat_eq_append, List.flatMap_append, List.flatMap_singleton, ← List.cons_append, ← List.append_assoc,
        List.getLast?_concat]
      intro hc
      exact hfree (by simp [Option.some.inj hc])

/-- The mount points in use start with a slash. -/
def MountsAbsolute (mounts : MountTable) : Prop := ∀ i, (mounts i).used = true → (mounts i).path.head? = some slash

theorem mountRegister_absolute {mounts : MountTable} (h : MountsAbsolute mounts) (cwd path : List UInt8) (backend : VfsBackend)
    (readOnly : Bool) : MountsAbsolute (mountRegister mounts cwd path backend readOnly).2 := by
  simp only [mountRegister]
  split
  · exact h
  rename_i norm hnorm
  split
  · exact h
  rename_i slot _
  have hnormal := normalizePath_some hnorm
  intro i hi
  simp only [Function.update_apply] at hi ⊢
  split
  · simp only [kstrncpy, List.take_of_length_le hnormal.fits]
    exact hnormal.head
  · rename_i hne
    rw [if_neg hne] at hi
    exact h i hi

/-! ### The lookup -/

/-- A mount point covers a path: it is the path, a slash follows it there, or it is the root. -/
def MountCovers (mount path : List UInt8) : Prop := mount = [slash] ∨ path = mount ∨ ∃ rest, path = mount ++ slash :: rest

theorem commonLength_eq_length {path mount : List UInt8} : commonLength path mount = mount.length ↔ mount <+: path := by
  induction mount generalizing path with
  | nil => cases path <;> simp [commonLength]
  | cons b mount ih =>
      cases path with
      | nil => simp [commonLength]
      | cons a path =>
          simp only [commonLength, List.length_cons, List.cons_prefix_cons]
          by_cases hab : a = b
          · rw [if_pos hab, Nat.succ_inj, ih]
            exact ⟨fun h => ⟨hab.symm, h⟩, And.right⟩
          · rw [if_neg hab]
            exact ⟨fun h => absurd h (by omega), fun h => absurd h.1.symm hab⟩

theorem isRootMount_iff {m : VfsMountEntry} : isRootMount m = true ↔ m.path = [slash] := by
  simp only [isRootMount, Bool.and_eq_true, decide_eq_true_eq, beq_iff_eq]
  constructor
  · rintro ⟨hlen, hhead⟩
    obtain ⟨a, ha⟩ := List.length_eq_one_iff.mp hlen
    rw [ha] at hhead ⊢
    rw [Option.some.inj hhead]
  · intro h
    rw [h]
    exact ⟨rfl, rfl⟩

/-- The comparison of `mount_lookup` decides whether a mount point other than the root covers the path. -/
theorem covers_iff (path : List UInt8) {mount : List UInt8} (hroot : mount ≠ [slash]) :
    MountCovers mount path ↔ commonLength path mount = mount.length ∧
      ((path.drop mount.length).head? = none ∨ (path.drop mount.length).head? = some slash) := by
  rw [commonLength_eq_length, MountCovers]
  constructor
  · rintro (h | h | ⟨rest, h⟩)
    · exact absurd h hroot
    · rw [h]
      exact ⟨List.prefix_rfl, Or.inl (by simp)⟩
    · rw [h, List.drop_left]
      exact ⟨List.prefix_append _ _, Or.inr rfl⟩
  · rintro ⟨⟨rest, rfl⟩, hnext⟩
    rw [List.drop_left] at hnext
    right
    rcases hnext with hnone | hslash
    · left
      rw [List.head?_eq_none_iff.mp hnone, List.append_nil]
    · right
      obtain ⟨tail, rfl⟩ := List.head?_eq_some_iff.mp hslash
      exact ⟨tail, rfl⟩

/-- What the loop of `mount_lookup` has found among the entries it has looked at. -/
structure BestSoFar (mounts : MountTable) (path : List UInt8) (seen : Nat → Prop) (best : Option Nat × Int) : Prop where
  found : ∀ i, best.1 = some i →
    seen i ∧ (mounts i).used = true ∧ MountCovers (mounts i).path path ∧ best.2 = (mounts i).path.length
  none : best.1 = none → best.2 = -1
  longest : ∀ j, seen j → (mounts j).used = true → MountCovers (mounts j).path path → ((mounts j).path.length : Int) ≤ best.2

theorem BestSoFar.skip {mounts : MountTable} {path : List UInt8} {seen : Nat → Prop} {best : Option Nat × Int} {i : Nat}
    (h : BestSoFar mounts path seen best)
    (hi : (mounts i).used = true → MountCovers (mounts i).path path → ((mounts i).path.length : Int) ≤ best.2) :
    BestSoFar mounts path (fun j => seen j ∨ j = i) best where
  found j hj := by
    obtain ⟨hseen, hrest⟩ := h.found j hj
    exact ⟨Or.inl hseen, hrest⟩
  none := h.none
  longest j hj hused hcovers := by
    rcases hj with hseen | rfl
    · exact h.longest j hseen hused hcovers
    · exact hi hused hcovers

theorem BestSoFar.take {mounts : MountTable} {path : List UInt8} {seen : Nat → Prop} {best : Option Nat × Int} {i : Nat}
    (h : BestSoFar mounts path seen best) (hused : (mounts i).used = true) (hcovers : MountCovers (mounts i).path path)
    (hlonger : best.2 < (mounts i).path.length) :
    BestSoFar mounts path (fun j => seen j ∨ j = i) (some i, (mounts i).path.length) where
  found j hj := by
    cases hj
    exact ⟨Or.inr rfl, hused, hcovers, rfl⟩
  none hj := by cases hj
  longest j hj hused' hcovers' := by
    rcases hj with hseen | rfl
    · exact le_of_lt (lt_of_le_of_lt (h.longest j hseen hused' hcovers') hlonger)
    · exact le_refl _

theorem lookupStep_best {mounts : MountTable} {path : List UInt8} {seen : Nat → Prop} {best : Option Nat × Int}
    (h : BestSoFar mounts path seen best) (i : Nat) :
    BestSoFar mounts path (fun j => seen j ∨ j = i) (lookupStep mounts path best i) := by
  simp only [lookupStep]
  split
  · rename_i hunused
    exact h.skip fun hused => by simp [hused] at hunused
  rename_i hused
  rw [Bool.not_eq_true, Bool.not_eq_false'] at hused
  split
  · rename_i hroot
    have hpath := isRootMount_iff.mp hroot
    split
    · rename_i hlt
      have htake := h.take hused (Or.inl hpath) (by rw [hpath]; exact hlt)
      rw [hpath] at htake
      exact htake
    · rename_i hge
      refine h.skip fun _ _ => ?_
      rw [hpath, List.length_singleton]
      omega
  rename_i hroot
  have hcovers := covers_iff path fun hpath => hroot (isRootMount_iff.mpr hpath)
  split
  · rename_i hcommon
    exact h.skip fun _ hc => absurd (hcovers.mp hc).1 hcommon
  rename_i hcommon
  rw [not_not] at hcommon
  rw [hcommon]
  split
  · rename_i hnext
    refine h.skip fun _ hc => ?_
    rcases (hcovers.mp hc).2 with hnone | hslash
    · exact absurd hnone hnext.1
    · exact absurd hslash hnext.2
  rename_i hnext
  split
  · rename_i hlt
    refine h.take hused (hcovers.mpr ⟨hcommon, ?_⟩) hlt
    by_contra hcon
    exact hnext (not_or.mp hcon)
  · rename_i hge
    exact h.skip fun _ _ => by omega

theorem mountLookup_best (mounts : MountTable) (path : List UInt8) :
    ∃ len, BestSoFar mounts path (fun j => j < vfsMaxMounts) (mountLookup mounts path, len) := by
  have hloop : ∀ n, BestSoFar mounts path (fun j => j < n) ((List.range n).foldl (lookupStep mounts path) (none, -1)) := by
    intro n
    induction n with
    | zero => exact ⟨fun _ h => by simp at h, fun _ => rfl, fun j hj => absurd hj (Nat.not_lt_zero j)⟩
    | succ n ih =>
        rw [List.range_succ, List.foldl_append]
        have hstep := lookupStep_best ih n
        have hseen : (fun j => j < n ∨ j = n) = fun j => j < n + 1 := by
          funext j
          exact propext ⟨by omega, by omega⟩
        rw [hseen] at hstep
        exact hstep
  exact ⟨_, hloop vfsMaxMounts⟩

/-! ### The split -/

/-- A mount point and a path below it put together; the root and a lone slash add nothing. -/
def joinMount (mount sub : List UInt8) : List UInt8 :=
  if mount = [slash] then sub else if sub = [slash] then mount else mount ++ sub

theorem mountSubpath_spec {m : VfsMountEntry} {path : List UInt8} (hcovers : MountCovers m.path path)
    (hmount : m.path.head? = some slash) (hpath : Normalized vfsPathMax path) :
    (mountSubpath m path vfsPathMax).1 = 0 ∧ (mountSubpath m path vfsPathMax).2.head? = some slash ∧
      joinMount m.path (mountSubpath m path vfsPathMax).2 = path := by
  have hcopy : ∀ src : List UInt8, src.length ≤ path.length → kstrncpy src vfsPathMax = (0, src) := by
    intro src hsrc
    have hfits : src.length ≤ vfsPathMax - 1 := le_trans hsrc hpath.fits
    rw [kstrncpy, if_pos hfits, List.take_of_length_le hfits]
  by_cases hroot : m.path = [slash]
  · have hsub : mountSubpath m path vfsPathMax = (0, path) := by
      rw [mountSubpath, if_pos (isRootMount_iff.mpr hroot), hcopy path (le_refl _)]
    rw [hsub, joinMount, if_pos hroot]
    exact ⟨rfl, hpath.head, rfl⟩
  have hnot : ¬isRootMount m = true := fun h => hroot (isRootMount_iff.mp h)
  rcases hcovers with h | h | ⟨rest, h⟩
  · exact absurd h hroot
  · have hone : kstrncpy [slash] vfsPathMax = (0, [slash]) := by decide
    have hsub : mountSubpath m path vfsPathMax = (0, [slash]) := by
      rw [mountSubpath, if_neg hnot, h, List.drop_length, if_pos rfl, hone]
    rw [hsub, joinMount, if_neg hroot, if_pos rfl]
    exact ⟨rfl, rfl, h.symm⟩
  · have hdrop : path.drop m.path.length = slash :: rest := by rw [h, List.drop_left]
    have hsub : mountSubpath m path vfsPathMax = (0, slash :: rest) := by
      rw [mountSubpath, if_neg hnot, hdrop, if_neg (by simp), hcopy _ (by rw [← hdrop, List.length_drop]; omega)]
    rw [hsub, joinMount, if_neg hroot, if_neg, h]
    · exact ⟨rfl, rfl, rfl⟩
    -- a lone slash below the mount point would be lost, but a normalised path does not end in one
    · intro hlone
      rw [List.cons.injEq] at hlone
      rw [hlone.2] at h
      refine hpath.last ?_ (by rw [h, List.getLast?_concat])
      intro hlen
      rw [h] at hlen
      have hnil : m.path = [] := by simpa using congrArg List.length hlen
      rw [hnil] at hmount
      cases hmount

/-! ### The mount table of a run -/

/-- A call of `mount_register`, with the kernel's working directory at the time. -/
structure MountCall where
  cwd : List UInt8
  path : List UInt8
  backend : VfsBackend
  readOnly : Bool

def MountCall.step (mounts : MountTable) (call : MountCall) : MountTable :=
  (mountRegister mounts call.cwd call.path call.backend call.readOnly).2

/-- The table that a sequence of `mount_register` calls fills. -/
def mountTableOf (calls : List MountCall) : MountTable := Lib.run MountCall.step mountTableReset calls

theorem mountTableOf_absolute (calls : List MountCall) : MountsAbsolute (mountTableOf calls) := by
  have hstep : ∀ mounts (call : MountCall), MountsAbsolute mounts → True → MountsAbsolute (call.step mounts) :=
    fun mounts call h _ => mountRegister_absolute h call.cwd call.path call.backend call.readOnly
  refine Lib.run_invariant hstep (fun i hi => ?_) (Lib.allowed_of_forall fun _ _ _ => trivial)
  simp [mountTableReset] at hi

def MountsDistinct (mounts : MountTable) : Prop :=
  ∀ i < vfsMaxMounts, ∀ j < vfsMaxMounts, (mounts i).used = true → (mounts j).used = true → (mounts i).path = (mounts j).path → i = j

/-- What a lookup of the path should give, and what its split below the mount should be. -/
structure MountResolves (mounts : MountTable) (path : List UInt8) : Prop where
  longest : ∀ i, mountLookup mounts path = some i → i < vfsMaxMounts ∧ (mounts i).used = true ∧ MountCovers (mounts i).path path ∧
    ∀ j < vfsMaxMounts, (mounts j).used = true → MountCovers (mounts j).path path → j ≠ i →
      (mounts j).path.length < (mounts i).path.length
  null : mountLookup mounts path = none ↔ ∀ j < vfsMaxMounts, (mounts j).used = true → ¬MountCovers (mounts j).path path
  split : ∀ i, mountLookup mounts path = some i → (mountSubpath (mounts i) path vfsPathMax).1 = 0 ∧
    (mountSubpath (mounts i) path vfsPathMax).2.head? = some slash ∧
      joinMount (mounts i).path (mountSubpath (mounts i) path vfsPathMax).2 = path

/-- Two mount points of one length that cover a path are the same. -/
theorem covers_unique {mount mount' path : List UInt8} (hpath : path.head? = some slash) (hcovers : MountCovers mount path)
    (hcovers' : MountCovers mount' path) (hlen : mount.length = mount'.length) : mount = mount' := by
  have hpre : ∀ {m : List UInt8}, MountCovers m path → m <+: path := by
    intro m hm
    rcases hm with rfl | rfl | ⟨rest, rfl⟩
    · obtain ⟨tail, rfl⟩ := List.head?_eq_some_iff.mp hpath
      exact ⟨tail, rfl⟩
    · exact List.prefix_rfl
    · exact List.prefix_append _ _
  exact (List.prefix_of_prefix_length_le (hpre hcovers) (hpre hcovers') (le_of_eq hlen)).eq_of_length hlen

/-- In every table that `mount_register` has filled with distinct mount points, every normalised path is resolved to the longest mount point that covers it and split without loss. -/
theorem mount_table_resolves (calls : List MountCall) (hdistinct : MountsDistinct (mountTableOf calls)) (cwd raw path : List UInt8)
    (hpath : normalizePath cwd raw vfsPathMax = some path) : MountResolves (mountTableOf calls) path := by
  have habsolute := mountTableOf_absolute calls
  have hnormal := normalizePath_some hpath
  obtain ⟨len, hfound, hnone, hlongest⟩ := mountLookup_best (mountTableOf calls) path
  constructor
  case longest =>
    intro i hi
    obtain ⟨hlt, hused, hcovers, hlen⟩ := hfound i hi
    refine ⟨hlt, hused, hcovers, fun j hj hjused hjcovers hne => ?_⟩
    have hle := hlongest j hj hjused hjcovers
    rw [hlen] at hle
    have hdiffer : (mountTableOf calls j).path.length ≠ (mountTableOf calls i).path.length := by
      intro heq
      exact hne (hdistinct j hj i hlt hjused hused (covers_unique hnormal.head hjcovers hcovers heq))
    omega
  case null =>
    constructor
    · intro hnull j hj hused hcovers
      have hle := hlongest j hj hused hcovers
      rw [hnone hnull] at hle
      omega
    · intro hall
      cases hlookup : mountLookup (mountTableOf calls) path with
      | none => rfl
      | some i =>
          obtain ⟨hlt, hused, hcovers, -⟩ := hfound i hlookup
          exact absurd hcovers (hall i hlt hused)
  case split =>
    intro i hi
    obtain ⟨-, hused, hcovers, -⟩ := hfound i hi
    exact mountSubpath_spec hcovers (habsolute i hused) hnormal

/-- `/`, `/tmp` and `/tm`, in this order. -/
def threeMounts : List MountCall :=
  [⟨[47], [47], .bootfs, true⟩, ⟨[47], [47, 116, 109, 112], .memfs, false⟩, ⟨[47], [47, 116, 109], .memfs, false⟩]

/-- The path `/tm/../tmp//x` below them. -/
theorem mount_table_resolves_threeMounts :
    mountLookup (mountTableOf threeMounts) [47, 116, 109, 112, 47, 120] = some 1 ∧
      MountResolves (mountTableOf threeMounts) [47, 116, 109, 112, 47, 120] :=
  ⟨by decide, mount_table_resolves threeMounts (by unfold MountsDistinct; decide) [47]
    [47, 116, 109, 47, 46, 46, 47, 116, 109, 112, 47, 47, 120] _ (by decide)⟩

end Tsukasa
