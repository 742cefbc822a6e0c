import Tsukasa.Fs.Mount
import Tsukasa.Lib.Lexical

/-!
# Normalised paths

What `normalize_path_for_process` makes of a path, against lexical resolution. The components are resolved as they should be, each cut to `VFS_NAME_MAX - 1` bytes, so the output is a fixed point; it is the resolution of the path exactly when no component of that is longer.
-/

namespace Tsukasa

open Lib

/-- A path that normalisation has nothing to do on. -/
structure Canonical (path : List UInt8) : Prop where
  absolute : path.head? = some slash
  short : path.length < vfsPathMax
  parts : path ≠ [slash] → ∀ part ∈ (path.splitOn slash).tail, part ≠ [] ∧ part ≠ [dot] ∧ part ≠ [dot, dot]
  last : path ≠ [slash] → path.getLast? ≠ some slash

/-- A path joined to the directory with a slash. -/
def joinPath (cwd path : List UInt8) : List UInt8 := if cwd.getLast? = some slash then cwd ++ path else cwd ++ slash :: path

/-- The absolute path that a path stands for in a working directory. -/
def absolutePath (cwd path : List UInt8) : List UInt8 :=
  if pathIsAbs path then path else joinPath (if cwd = [] then [slash] else cwd) path

/-- The components of a path after lexical resolution. -/
def lexicalParts (path : List UInt8) : List (List UInt8) := Lexical.resolve slash dot path

/-- What is kept of a component. -/
def cutPart (part : List UInt8) : List UInt8 := part.take (vfsNameMax - 1)

/-- The loop over the components of a path, from a stack of components. -/
def scanFrom (stack : List (List UInt8)) (raw : List UInt8) : Option (List (List UInt8)) :=
  ((raw.splitOn slash).map cutPart).foldlM pushSegment stack

/-! ### The scanner -/

theorem pathSegments_eq {scan seg : List UInt8} (hseg : seg.length ≤ vfsNameMax - 1) :
    pathSegments seg scan = ((scan.splitOn slash).modifyHead (seg ++ ·)).map cutPart := by
  induction scan generalizing seg with
  | nil => simp [pathSegments, cutPart, List.take_of_length_le hseg]
  | cons c scan ih =>
      obtain ⟨first, rest, hsplit⟩ := List.exists_cons_of_ne_nil (List.splitOn_ne_nil slash scan)
      rw [pathSegments, List.splitOn_cons_eq_if_modifyHead]
      by_cases hc : c = slash
      · rw [if_pos hc, if_pos (by simpa using hc), ih (Nat.zero_le _), hsplit]
        simp [cutPart, List.take_of_length_le hseg]
      · have hne : (c == slash) = false := by simpa using hc
        rw [if_neg hc, hne, hsplit]
        by_cases hfull : seg.length < vfsNameMax - 1
        · rw [if_pos hfull, ih (by rw [List.length_append, List.length_singleton]; omega), hsplit]
          simp
        -- a full buffer keeps what it has, whatever follows
        · have hlen : seg.length = vfsNameMax - 1 := by omega
          rw [if_neg hfull, ih hseg, hsplit]
          simp [cutPart, ← hlen]

theorem cutPart_eq_iff {part short : List UInt8} (hshort : short.length < vfsNameMax - 1) : cutPart part = short ↔ part = short := by
  constructor
  · intro h
    have hlen := congrArg List.length h
    rw [cutPart, List.length_take] at hlen
    rw [← h, cutPart, List.take_of_length_le (by omega)]
  · rintro rfl
    exact List.take_of_length_le (le_of_lt hshort)

/-- One component is treated as lexical resolution treats it, and what is pushed is cut. -/
theorem pushSegment_cut {stack next : List (List UInt8)} {part : List UInt8}
    (h : pushSegment (stack.map cutPart) (cutPart part) = some next) : next = (Lexical.push dot stack part).map cutPart := by
  have hnil := @cutPart_eq_iff part [] (by decide)
  have hdot := @cutPart_eq_iff part [dot] (by decide)
  have hdots := @cutPart_eq_iff part [dot, dot] (by decide)
  simp only [pushSegment, hnil, hdot, hdots] at h
  rw [Lexical.push]
  split at h
  · rename_i hskip
    rw [if_pos hskip, Option.some.inj h]
  rename_i hkept
  rw [if_neg hkept]
  split at h
  · rename_i hup
    rw [if_pos hup, ← Option.some.inj h, List.map_dropLast]
  rename_i hdown
  rw [if_neg hdown]
  split at h
  · cases h
  · rw [← Option.some.inj h, List.map_append, List.map_singleton]

theorem foldlM_pushSegment_cut {parts stack segs : List (List UInt8)}
    (h : (parts.map cutPart).foldlM pushSegment (stack.map cutPart) = some segs) :
    segs = (parts.foldl (Lexical.push dot) stack).map cutPart := by
  induction parts generalizing stack with
  | nil => exact (Option.some.inj h).symm
  | cons part parts ih =>
      rw [List.map_cons, List.foldlM_cons] at h
      obtain ⟨next, hpush, hrest⟩ := Option.bind_eq_some_iff.mp h
      rw [pushSegment_cut hpush] at hrest
      exact ih hrest

theorem pushSegment_count {stack next : List (List UInt8)} {seg : List UInt8} (hstack : stack.length ≤ vfsMaxSegments)
    (h : pushSegment stack seg = some next) : next.length ≤ vfsMaxSegments := by
  rw [pushSegment] at h
  split at h
  · rwa [← Option.some.inj h]
  split at h
  · rw [← Option.some.inj h, List.length_dropLast]
    omega
  split at h
  · cases h
  · rw [← Option.some.inj h, List.length_append, List.length_singleton]
    omega

theorem foldlM_pushSegment_count {scanned stack segs : List (List UInt8)} (hstack : stack.length ≤ vfsMaxSegments)
    (h : scanned.foldlM pushSegment stack = some segs) : segs.length ≤ vfsMaxSegments := by
  induction scanned generalizing stack with
  | nil => rwa [← Option.some.inj h]
  | cons seg scanned ih =>
      rw [List.foldlM_cons] at h
      obtain ⟨next, hpush, hrest⟩ := Option.bind_eq_some_iff.mp h
      exact ih (pushSegment_count hstack hpush) hrest

/-- Components that lexical resolution keeps are pushed as they are while there is room. -/
theorem foldlM_pushSegment_plain {parts stack : List (List UInt8)} (hparts : ∀ p ∈ parts, Lexical.Plain slash dot p)
    (hroom : stack.length + parts.length ≤ vfsMaxSegments) : parts.foldlM pushSegment stack = some (stack ++ parts) := by
  induction parts generalizing stack with
  | nil => simp
  | cons part parts ih =>
      have hplain := hparts part List.mem_cons_self
      rw [List.length_cons] at hroom
      have hpush : pushSegment stack part = some (stack ++ [part]) := by
        rw [pushSegment, if_neg (not_or.mpr ⟨hplain.ne_nil, hplain.ne_dot⟩), if_neg hplain.ne_dots, if_neg (by omega)]
      rw [List.foldlM_cons, hpush, Option.bind_eq_bind, Option.bind_some, ih (fun p hp => hparts p (List.mem_cons_of_mem part hp))
        (by rw [List.length_append, List.length_singleton]; omega), List.append_assoc, List.singleton_append]

theorem scanFrom_eq (stack : List (List UInt8)) (raw : List UInt8) : (pathSegments [] raw).foldlM pushSegment stack = scanFrom stack raw := by
  rw [pathSegments_eq (Nat.zero_le _), scanFrom]
  obtain ⟨first, rest, hsplit⟩ := List.exists_cons_of_ne_nil (List.splitOn_ne_nil slash raw)
  rw [hsplit]
  rfl

@[simp] theorem scanFrom_nil (stack : List (List UInt8)) : scanFrom stack [] = some stack := rfl

/-- What stands behind a slash is scanned from the stack that the part before it has left. -/
theorem scanFrom_append (stack : List (List UInt8)) (base rest : List UInt8) :
    scanFrom stack (base ++ slash :: rest) = (scanFrom stack base).bind fun mid => scanFrom mid rest := by
  simp only [scanFrom, List.splitOn_append_cons_self, List.map_append, List.foldlM_append]
  rfl

@[simp] theorem scanFrom_slash (stack : List (List UInt8)) (rest : List UInt8) : scanFrom stack (slash :: rest) = scanFrom stack rest := by
  rw [← List.nil_append (slash :: rest), scanFrom_append, scanFrom_nil, Option.bind_some]

/-- The stack is that of lexical resolution, with each component cut. -/
theorem scanFrom_cut {raw : List UInt8} {segs : List (List UInt8)} (h : scanFrom [] raw = some segs) :
    segs = (lexicalParts raw).map cutPart := by
  rw [scanFrom, ← List.map_nil (f := cutPart)] at h
  exact foldlM_pushSegment_cut h

/-! ### The whole function -/

theorem pathCopyJoin_eq {cwd path : List UInt8} (hcwd : cwd.length < vfsPathMax) :
    pathCopyJoin vfsPathMax cwd path = if (joinPath cwd path).length ≤ vfsPathMax - 1 then some (joinPath cwd path) else none := by
  have htake : cwd.take (vfsPathMax - 1) = cwd := List.take_of_length_le (by omega)
  simp only [pathCopyJoin, htake, joinPath]
  by_cases hslash : cwd.getLast? = some slash
  · simp only [if_pos hslash, List.length_append]
  · simp only [if_neg hslash, List.length_append, List.length_cons]
    by_cases hfull : vfsPathMax - 1 ≤ cwd.length
    · rw [if_pos hfull, if_neg (by omega)]
    · rw [if_neg hfull]
      rw [Nat.add_assoc, Nat.add_comm 1]

/-- The path is made absolute first, and what follows depends on nothing else. -/
theorem normalizePath_eq {cwd path : List UInt8} (hcwd : cwd.length < vfsPathMax) :
    normalizePath cwd path vfsPathMax =
      if (absolutePath cwd path).length ≤ vfsPathMax - 1 then
        (scanFrom [] (absolutePath cwd path)).bind fun segs =>
          if (Lexical.render slash segs).length ≤ vfsPathMax - 1 then some (Lexical.render slash segs) else none
      else none := by
  have hroot : (if cwd = [] then [slash] else cwd).length < vfsPathMax := by
    split
    · decide
    · exact hcwd
  rw [normalizePath, if_neg (by decide)]
  simp only [absolutePath, pathCopyJoin_eq hroot, ← scanFrom_eq, Lexical.render]
  by_cases habs : pathIsAbs path
  · simp only [habs, if_true]
    by_cases hlen : path.length ≤ vfsPathMax - 1
    · simp only [hlen, if_true, Option.bind_some]
      cases (pathSegments [] path).foldlM pushSegment [] <;> rfl
    · simp only [hlen, if_false, Option.bind_none]
  · simp only [habs, Bool.false_eq_true, if_false]
    generalize joinPath (if cwd = [] then [slash] else cwd) path = raw
    by_cases hlen : raw.length ≤ vfsPathMax - 1
    · simp only [hlen, if_true, Option.bind_some]
      cases (pathSegments [] raw).foldlM pushSegment [] <;> rfl
    · simp only [hlen, if_false, Option.bind_none]

/-- A call succeeds when the path fits, the stack of components never overflows, and the components fit again. -/
theorem normalizePath_iff {cwd path out : List UInt8} (hcwd : cwd.length < vfsPathMax) :
    normalizePath cwd path vfsPathMax = some out ↔ (absolutePath cwd path).length < vfsPathMax ∧
      ∃ segs, scanFrom [] (absolutePath cwd path) = some segs ∧ out = Lexical.render slash segs ∧ out.length < vfsPathMax := by
  have hlt : ∀ n : Nat, n ≤ vfsPathMax - 1 ↔ n < vfsPathMax := fun n => Nat.le_sub_one_iff_lt (by decide)
  rw [normalizePath_eq hcwd, Option.ite_none_right_eq_some, Option.bind_eq_some_iff, hlt]
  constructor
  · rintro ⟨hlen, segs, hscan, hout⟩
    obtain ⟨hfits, hout⟩ := Option.ite_none_right_eq_some.mp hout
    cases hout
    exact ⟨hlen, segs, hscan, rfl, (hlt _).mp hfits⟩
  · rintro ⟨hlen, segs, hscan, rfl, hfits⟩
    exact ⟨hlen, segs, hscan, if_pos ((hlt _).mpr hfits)⟩

/-- For an absolute path the working directory plays no part. -/
theorem normalizePath_iff_of_abs {cwd path out : List UInt8} (habs : pathIsAbs path = true) :
    normalizePath cwd path vfsPathMax = some out ↔ path.length < vfsPathMax ∧
      ∃ segs, scanFrom [] path = some segs ∧ out = Lexical.render slash segs ∧ out.length < vfsPathMax := by
  have hany : normalizePath cwd path vfsPathMax = normalizePath [] path vfsPathMax := by
    simp only [normalizePath, habs, if_true]
  have hraw : absolutePath [] path = path := if_pos habs
  rw [hany, normalizePath_iff (by decide), hraw]

theorem Plain.cut {part : List UInt8} (h : Lexical.Plain slash dot part) : Lexical.Plain slash dot (cutPart part) where
  ne_nil := (cutPart_eq_iff (by decide)).not.mpr h.ne_nil
  ne_dot := (cutPart_eq_iff (by decide)).not.mpr h.ne_dot
  ne_dots := (cutPart_eq_iff (by decide)).not.mpr h.ne_dots
  free := fun hin => h.free (List.mem_of_mem_take hin)

theorem cut_plain (path : List UInt8) : ∀ p ∈ (lexicalParts path).map cutPart, Lexical.Plain slash dot p := by
  intro p hp
  obtain ⟨part, hpart, rfl⟩ := List.mem_map.mp hp
  exact Plain.cut (Lexical.resolve_plain path part hpart)

theorem pathIsAbs_render (parts : List (List UInt8)) : pathIsAbs (Lexical.render slash parts) = true := by
  cases parts <;> rfl

theorem cut_short {parts : List (List UInt8)} : ∀ p ∈ parts.map cutPart, cutPart p = p := by
  intro p hp
  obtain ⟨part, -, rfl⟩ := List.mem_map.mp hp
  rw [cutPart, cutPart, List.take_take, Nat.min_self]

/-- Nothing is done to the path of components that were cut before. -/
theorem scanFrom_render {parts : List (List UInt8)} (hparts : ∀ p ∈ parts, Lexical.Plain slash dot p)
    (hcut : ∀ p ∈ parts, cutPart p = p) (hcount : parts.length ≤ vfsMaxSegments) :
    scanFrom [] (Lexical.render slash parts) = some parts := by
  by_cases hne : parts = []
  · rw [hne]
    decide
  · have hsame : parts.map cutPart = parts := (List.map_congr_left hcut).trans (List.map_id parts)
    have hdrop : pushSegment [] (cutPart []) = some [] := rfl
    rw [scanFrom, Lexical.splitOn_render (fun p hp => (hparts p hp).free) hne, List.map_cons, hsame, List.foldlM_cons, hdrop,
      Option.bind_eq_bind, Option.bind_some, foldlM_pushSegment_plain hparts (by simpa using hcount), List.nil_append]

theorem render_canonical {parts : List (List UInt8)} (hparts : ∀ p ∈ parts, Lexical.Plain slash dot p)
    (hnormal : Normalized vfsPathMax (Lexical.render slash parts)) : Canonical (Lexical.render slash parts) where
  absolute := hnormal.head
  short := Nat.lt_of_le_sub_one (by decide) hnormal.fits
  parts hroot part hpart := by
    have hne : parts ≠ [] := by
      rintro rfl
      exact hroot rfl
    rw [Lexical.splitOn_render (fun p hp => (hparts p hp).free) hne, List.tail_cons] at hpart
    have hplain := hparts part hpart
    exact ⟨hplain.ne_nil, hplain.ne_dot, hplain.ne_dots⟩
  last := hnormal.last

theorem joinPath_absolute {cwd : List UInt8} (h : cwd.head? = some slash) (path : List UInt8) :
    pathIsAbs (joinPath cwd path) = true ∧ pathIsAbs (cwd ++ slash :: path) = true := by
  obtain ⟨rest, rfl⟩ := List.head?_eq_some_iff.mp h
  refine ⟨?_, rfl⟩
  rw [joinPath]
  split <;> rfl

/-- A slash too many between the two does no harm. -/
theorem scanFrom_joinPath {cwd : List UInt8} (hcwd : Canonical cwd) (path : List UInt8) :
    scanFrom [] (cwd ++ slash :: path) = scanFrom [] (joinPath cwd path) := by
  rw [joinPath]
  split
  · rename_i hslash
    have hroot : cwd = [slash] := by
      by_contra hne
      exact hcwd.last hne hslash
    rw [hroot]
    simp
  · rfl

/-- The path climbs above the root where `rest` goes on. -/
def ClimbsAt (path rest : List UInt8) : Prop :=
  ∃ base, path = base ++ slash :: dot :: dot :: rest ∧ lexicalParts base = [] ∧ (rest = [] ∨ rest.head? = some slash)

/-- Two dots at the root leave the stack empty. -/
theorem scanFrom_climbs {path rest : List UInt8} {segs : List (List UInt8)} (h : ClimbsAt path rest) (hscan : scanFrom [] path = some segs) :
    scanFrom [] (slash :: rest) = some segs := by
  obtain ⟨base, rfl, hbase, hrest⟩ := h
  rw [scanFrom_append] at hscan
  obtain ⟨mid, hmid, hscan⟩ := Option.bind_eq_some_iff.mp hscan
  rw [scanFrom_cut hmid, hbase, List.map_nil] at hscan
  rw [scanFrom_slash, ← hscan]
  rcases hrest with rfl | hhead
  · rfl
  · obtain ⟨tail, rfl⟩ := List.head?_eq_some_iff.mp hhead
    have hdots : scanFrom [] [dot, dot] = some [] := rfl
    have happend := scanFrom_append [] [dot, dot] tail
    rw [hdots, Option.bind_some] at happend
    rw [scanFrom_slash, ← happend]
    rfl

/-- In every normalised working directory, a path that can be normalised at all becomes canonical, and stays as it is from then on; a relative one becomes what the joined path becomes, and two dots at the root do nothing. -/
theorem normalizePath_canonical {cwd path out : List UInt8} (hcwd : Canonical cwd) (h : normalizePath cwd path vfsPathMax = some out) :
    Canonical out ∧ (∀ cwd', normalizePath cwd' out vfsPathMax = some out) ∧
      (pathIsAbs path = false → (∀ cwd', normalizePath cwd' (joinPath cwd path) vfsPathMax = some out) ∧
        ((cwd ++ slash :: path).length < vfsPathMax → ∀ cwd', normalizePath cwd' (cwd ++ slash :: path) vfsPathMax = some out)) ∧
      ∀ rest, ClimbsAt (absolutePath cwd path) rest → ∀ cwd', normalizePath cwd' (slash :: rest) vfsPathMax = some out := by
  obtain ⟨hlen, segs, hscan, hout, hfits⟩ := (normalizePath_iff hcwd.short).mp h
  have hcut := scanFrom_cut hscan
  have hplain : ∀ p ∈ segs, Lexical.Plain slash dot p := hcut ▸ cut_plain (absolutePath cwd path)
  have hcount : segs.length ≤ vfsMaxSegments := foldlM_pushSegment_count (Nat.zero_le _) hscan
  refine ⟨?_, fun cwd' => ?_, fun hrel => ?_, fun rest hclimbs cwd' => ?_⟩
  · rw [hout]
    exact render_canonical hplain (hout ▸ normalizePath_some h)
  · rw [normalizePath_iff_of_abs (hout ▸ pathIsAbs_render segs)]
    refine ⟨hfits, segs, ?_, hout, hfits⟩
    rw [hout]
    exact scanFrom_render hplain (hcut ▸ cut_short) hcount
  · have hne : cwd ≠ [] := by
      rintro rfl
      exact absurd hcwd.absolute nofun
    rw [absolutePath, if_neg (by simp [hrel]), if_neg hne] at hscan hlen
    obtain ⟨habs, habs'⟩ := joinPath_absolute hcwd.absolute path
    constructor
    · intro cwd'
      exact (normalizePath_iff_of_abs habs).mpr ⟨hlen, segs, hscan, hout, hfits⟩
    · intro hshort cwd'
      exact (normalizePath_iff_of_abs habs').mpr ⟨hshort, segs, (scanFrom_joinPath hcwd path).trans hscan, hout, hfits⟩
  · obtain ⟨base, heq, -⟩ := id hclimbs
    have hshort : (slash :: rest).length < vfsPathMax := by
      have hsum := congrArg List.length heq
      simp only [List.length_append, List.length_cons] at hsum ⊢
      omega
    exact (normalizePath_iff_of_abs rfl).mpr ⟨hshort, segs, scanFrom_climbs hclimbs hscan, hout, hfits⟩

/-- The path `../..//a/./b/../c` in `/tmp`. -/
theorem normalizePath_canonical_tmp :
    Canonical [47, 97, 47, 99] ∧ ∀ cwd', normalizePath cwd' [47, 97, 47, 99] vfsPathMax = some [47, 97, 47, 99] := by
  have htmp : Canonical [47, 116, 109, 112] := ⟨rfl, by decide, fun _ => by decide, fun _ => by decide⟩
  have hout : normalizePath [47, 116, 109, 112] [46, 46, 47, 46, 46, 47, 47, 97, 47, 46, 47, 98, 47, 46, 46, 47, 99] vfsPathMax =
      some [47, 97, 47, 99] := by decide
  have hall := normalizePath_canonical htmp hout
  exact ⟨hall.1, hall.2.1⟩

/-! ### Against lexical resolution -/

/-- The components of a path as they stand in it. -/
def canonicalParts (path : List UInt8) : List (List UInt8) := (path.splitOn slash).filter fun part => decide (part ≠ [])

/-- What an open call hands to a backend: the mount and the path below it. -/
def openTarget (mounts : MountTable) (path : List UInt8) : Option (Nat × List UInt8) :=
  (mountLookup mounts path).map fun i => (i, (mountSubpath (mounts i) path vfsPathMax).2)

theorem canonicalParts_render {parts : List (List UInt8)} (h : ∀ p ∈ parts, Lexical.Plain slash dot p) :
    canonicalParts (Lexical.render slash parts) = parts := by
  by_cases hne : parts = []
  · rw [hne]
    rfl
  · rw [canonicalParts, Lexical.splitOn_render (fun p hp => (h p hp).free) hne, List.filter_cons_of_neg (by simp),
      List.filter_eq_self.mpr fun p hp => by simpa using (h p hp).ne_nil]

theorem cutPart_eq_self_iff {part : List UInt8} : cutPart part = part ↔ part.length < vfsNameMax := by
  rw [cutPart, List.take_eq_self_iff]
  exact Nat.le_sub_one_iff_lt (by decide)

/-- The output has the components of the lexical resolution exactly when none of these is cut. -/
theorem canonicalParts_eq_iff {cwd path out : List UInt8} (hcwd : cwd.length < vfsPathMax) (h : normalizePath cwd path vfsPathMax = some out) :
    canonicalParts out = lexicalParts (absolutePath cwd path) ↔ ∀ part ∈ lexicalParts (absolutePath cwd path), part.length < vfsNameMax := by
  obtain ⟨-, segs, hscan, hout, -⟩ := (normalizePath_iff hcwd).mp h
  have hcut := scanFrom_cut hscan
  rw [hout, canonicalParts_render (hcut ▸ cut_plain (absolutePath cwd path)), hcut]
  constructor
  · intro heq part hpart
    rw [← List.map_id (lexicalParts (absolutePath cwd path)), List.map_map] at heq
    exact cutPart_eq_self_iff.mp (List.map_inj_left.mp heq part hpart)
  · intro hshort
    exact (List.map_congr_left fun part hpart => cutPart_eq_self_iff.mpr (hshort part hpart)).trans (List.map_id _)

/-- Two normalised paths with one target are the same. -/
theorem openTarget_injective (calls : List MountCall) {path path' : List UInt8} (hpath : Normalized vfsPathMax path)
    (hpath' : Normalized vfsPathMax path') {target : Nat × List UInt8} (h : openTarget (mountTableOf calls) path = some target)
    (h' : openTarget (mountTableOf calls) path' = some target) : path = path' := by
  have hsplit : ∀ {p : List UInt8}, Normalized vfsPathMax p → openTarget (mountTableOf calls) p = some target →
      joinMount (mountTableOf calls target.1).path target.2 = p := by
    intro p hp htarget
    obtain ⟨i, hlookup, rfl⟩ := Option.map_eq_some_iff.mp htarget
    obtain ⟨len, hfound, -, -⟩ := mountLookup_best (mountTableOf calls) p
    obtain ⟨-, hused, hcovers, -⟩ := hfound i hlookup
    exact (mountSubpath_spec hcovers (mountTableOf_absolute calls i hused) hp).2.2
  rw [← hsplit hpath h, ← hsplit hpath' h']

/-- Normalisation is faithful on two paths, and keeps their files apart when their resolutions differ. -/
def KeepsApart (mounts : MountTable) (raw raw' out out' : List UInt8) : Prop :=
  canonicalParts out = lexicalParts raw ∧ canonicalParts out' = lexicalParts raw' ∧
    (lexicalParts raw ≠ lexicalParts raw' → out ≠ out' ∧ ∀ target, openTarget mounts out = some target → openTarget mounts out' ≠ some target)

theorem normalizePath_faithful_iff (calls : List MountCall) {cwd cwd' path path' out out' : List UInt8} (hcwd : cwd.length < vfsPathMax)
    (hcwd' : cwd'.length < vfsPathMax) (h : normalizePath cwd path vfsPathMax = some out) (h' : normalizePath cwd' path' vfsPathMax = some out') :
    KeepsApart (mountTableOf calls) (absolutePath cwd path) (absolutePath cwd' path') out out' ↔
      (∀ part ∈ lexicalParts (absolutePath cwd path), part.length < vfsNameMax) ∧
        ∀ part ∈ lexicalParts (absolutePath cwd' path'), part.length < vfsNameMax := by
  rw [KeepsApart, canonicalParts_eq_iff hcwd h, canonicalParts_eq_iff hcwd' h']
  constructor
  · rintro ⟨hshort, hshort', -⟩
    exact ⟨hshort, hshort'⟩
  · rintro ⟨hshort, hshort'⟩
    refine ⟨hshort, hshort', fun hdiffer => ?_⟩
    have hout : out ≠ out' := by
      intro heq
      apply hdiffer
      rw [← (canonicalParts_eq_iff hcwd h).mpr hshort, ← (canonicalParts_eq_iff hcwd' h').mpr hshort', heq]
    exact ⟨hout, fun target htarget htarget' =>
      hout (openTarget_injective calls (normalizePath_some h) (normalizePath_some h') htarget htarget')⟩

/-- `/a` and `/tmp/../b`, with three mounts. -/
theorem normalizePath_faithful_iff_ab :
    KeepsApart (mountTableOf threeMounts) [47, 97] [47, 116, 109, 112, 47, 46, 46, 47, 98] [47, 97] [47, 98] := by
  have hroot : ([47] : List UInt8).length < vfsPathMax := by decide
  have hout : normalizePath [47] [47, 97] vfsPathMax = some [47, 97] := by decide
  have hout' : normalizePath [47] [47, 116, 109, 112, 47, 46, 46, 47, 98] vfsPathMax = some [47, 98] := by decide
  exact (normalizePath_faithful_iff threeMounts hroot hroot hout hout').mpr (by decide)

/-- Of a component of 64 bytes the last one is lost, so two names that differ there become one. -/
theorem normalizePath_cuts :
    ¬(∀ cwd path out : List UInt8, cwd.length < vfsPathMax → normalizePath cwd path vfsPathMax = some out →
        canonicalParts out = lexicalParts (absolutePath cwd path)) ∧
      ¬∀ cwd path path' out : List UInt8, cwd.length < vfsPathMax →
        lexicalParts (absolutePath cwd path) ≠ lexicalParts (absolutePath cwd path') →
          normalizePath cwd path vfsPathMax = some out → normalizePath cwd path' vfsPathMax ≠ some out := by
  constructor
  · intro hall
    have hcut := hall [47] (47 :: List.replicate 64 97) (47 :: List.replicate 63 97) (by decide) (by decide +kernel)
    exact absurd hcut (by decide +kernel)
  · intro hall
    exact hall [47] (47 :: List.replicate 64 97) (47 :: (List.replicate 63 97 ++ [98])) (47 :: List.replicate 63 97) (by decide)
      (by decide +kernel) (by decide +kernel) (by decide +kernel)

end Tsukasa
