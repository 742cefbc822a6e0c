import Mathlib.Data.List.Infix
import Mathlib.Logic.Function.Basic
import Mathlib.Data.Set.Basic

/-!
# Radix trees in a node store

A store maps a node and an index to an entry, and an entry may point to a child node. A path is a list of indices, and `descend` follows it. The two updates a radix tree undergoes are grafting an empty node at an entry that had no child, and writing an entry of a node that no path continues through. When the nodes on the admissible paths are distinct, each changes exactly the path it is meant to change.
-/

namespace Lib.Radix

variable {ν ι ε : Type*} (child : ε → Option ν)

/-- The node a path leads to. -/
def descend (store : ν → ι → ε) : ν → List ι → Option ν
  | node, [] => some node
  | node, i :: path => (child (store node i)).bind fun next => descend store next path

@[simp] theorem descend_nil (store : ν → ι → ε) (node : ν) : descend child store node [] = some node := rfl

theorem descend_append (store : ν → ι → ε) (node : ν) (path rest : List ι) :
    descend child store node (path ++ rest) =
      (descend child store node path).bind fun next => descend child store next rest := by
  induction path generalizing node with
  | nil => rfl
  | cons i path ih =>
      simp only [List.cons_append, descend]
      cases child (store node i) with
      | none => rfl
      | some next => exact ih next

theorem descend_concat (store : ν → ι → ε) (node : ν) (path : List ι) (i : ι) :
    descend child store node (path ++ [i]) =
      (descend child store node path).bind fun last => child (store last i) := by
  rw [descend_append]
  congr 1
  funext last
  simp only [descend]
  cases child (store last i) <;> rfl

/-- A path that reaches a node reaches a node with each of its prefixes. -/
theorem descend_isSome_of_extended {store : ν → ι → ε} {root node : ν} {path extended : List ι}
    (hpre : path <+: extended) (h : descend child store root extended = some node) :
    ∃ last, descend child store root path = some last := by
  obtain ⟨rest, rfl⟩ := hpre
  rw [descend_append] at h
  cases hpath : descend child store root path with
  | none => simp [hpath] at h
  | some last => exact ⟨last, rfl⟩

/-- Two stores that agree on the entries a path reads lead it to the same node. -/
theorem descend_congr {store store' : ν → ι → ε} {root : ν} {path : List ι}
    (h : ∀ before i, before ++ [i] <+: path → ∀ node, descend child store root before = some node →
      store' node i = store node i) :
    descend child store' root path = descend child store root path := by
  induction path generalizing root with
  | nil => rfl
  | cons i path ih =>
      have hhead : store' root i = store root i := h [] i ⟨path, rfl⟩ root rfl
      simp only [descend, hhead]
      cases hchild : child (store root i) with
      | none => rfl
      | some next =>
          simp only [Option.bind_some]
          refine ih fun before j hpre node hnode => h (i :: before) j ?_ node ?_
          · exact List.cons_prefix_cons.mpr ⟨rfl, hpre⟩
          · simp only [descend, hchild, Option.bind_some, hnode]

variable [DecidableEq ν]

/-- Admissible paths are closed under prefixes. -/
def PrefixClosed (paths : Set (List ι)) : Prop := ∀ p q : List ι, p <+: q → q ∈ paths → p ∈ paths

/-- Entries of an unreachable node are read by no admissible path. -/
theorem descend_update_of_unreachable {store : ν → ι → ε} {root fresh : ν} {paths : Set (List ι)} {entries : ι → ε}
    (hclosed : PrefixClosed paths)
    (hfresh : ∀ p ∈ paths, descend child store root p ≠ some fresh) {q : List ι} (hq : q ∈ paths) :
    descend child (Function.update store fresh entries) root q = descend child store root q := by
  refine descend_congr child fun before i hpre node hnode => ?_
  have hbefore : before ∈ paths := hclosed _ _ ((List.prefix_append before [i]).trans hpre) hq
  have hne : node ≠ fresh := fun h => hfresh before hbefore (h ▸ hnode)
  rw [Function.update_of_ne hne]

/-- No two admissible paths lead to the same node. -/
def Separate (store : ν → ι → ε) (root : ν) (paths : Set (List ι)) : Prop :=
  ∀ p ∈ paths, ∀ q ∈ paths, ∀ node, descend child store root p = some node → descend child store root q = some node → p = q

variable [DecidableEq ι]

/-- The store with one entry replaced. -/
def write (store : ν → ι → ε) (node : ν) (i : ι) (entry : ε) : ν → ι → ε :=
  Function.update store node (Function.update (store node) i entry)

@[simp] theorem write_self (store : ν → ι → ε) (node : ν) (i : ι) (entry : ε) :
    write store node i entry node i = entry := by simp [write]

theorem write_of_ne {store : ν → ι → ε} {node other : ν} {i j : ι} {entry : ε} (h : other ≠ node ∨ j ≠ i) :
    write store node i entry other j = store other j := by
  by_cases hnode : other = node
  · subst hnode
    have hij : j ≠ i := h.resolve_left fun h => h rfl
    simp [write, hij]
  · simp [write, hnode]

theorem write_apply (store : ν → ι → ε) (node other : ν) (i j : ι) (entry : ε) :
    write store node i entry other j = if other = node ∧ j = i then entry else store other j := by
  split
  · rename_i h
    rw [h.1, h.2, write_self]
  · rename_i h
    exact write_of_ne (by tauto)

/-- Writing an entry at the end of a path changes no path that does not go through that entry. -/
theorem descend_write_of_elsewhere {store : ν → ι → ε} {root node : ν} {paths : Set (List ι)} {path : List ι}
    {i : ι} {entry : ε} (hclosed : PrefixClosed paths) (hsep : Separate child store root paths)
    (hpath : path ∈ paths) (hnode : descend child store root path = some node) {q : List ι} (hq : q ∈ paths)
    (hnot : ¬ path ++ [i] <+: q) :
    descend child (write store node i entry) root q = descend child store root q := by
  refine descend_congr child fun before j hpre other hother => write_of_ne ?_
  by_contra hcon
  obtain ⟨hother', hj⟩ := not_or.mp hcon
  rw [not_not] at hother' hj
  subst hother' hj
  -- the node is reached by one path only, so the read is the entry at the end of `path`
  have hbefore : before ∈ paths := hclosed _ _ ((List.prefix_append before [j]).trans hpre) hq
  have : path = before := hsep path hpath before hbefore other hnode hother
  subst this
  exact hnot hpre

/-- Grafting a fresh empty node at a childless entry adds exactly the path to it. -/
theorem descend_graft {store : ν → ι → ε} {root node fresh : ν} {paths : Set (List ι)} {path : List ι} {i : ι}
    {entry : ε} {empty : ι → ε} (hclosed : PrefixClosed paths) (hsep : Separate child store root paths)
    (hpath : path ∈ paths) (hnode : descend child store root path = some node)
    (hfresh : ∀ p ∈ paths, descend child store root p ≠ some fresh)
    (hchildless : child (store node i) = none) (hentry : child entry = some fresh)
    (hempty : ∀ j, child (empty j) = none) {q : List ι} (hq : q ∈ paths) :
    descend child (write (Function.update store fresh empty) node i entry) root q =
      if q = path ++ [i] then some fresh else descend child store root q := by
  have hne : node ≠ fresh := fun h => hfresh path hpath (h ▸ hnode)
  have hkeep : ∀ p ∈ paths, descend child (Function.update store fresh empty) root p = descend child store root p :=
    fun p hp => descend_update_of_unreachable child hclosed hfresh hp
  have hsep' : Separate child (Function.update store fresh empty) root paths := by
    intro p hp q hq n hn hn'
    rw [hkeep p hp] at hn
    rw [hkeep q hq] at hn'
    exact hsep p hp q hq n hn hn'
  have hnode' : descend child (Function.update store fresh empty) root path = some node := by
    rw [hkeep path hpath, hnode]
  by_cases hpre : path ++ [i] <+: q
  · -- the new store follows `path` to `node`, then the new entry to the empty node
    have hpathNew : descend child (write (Function.update store fresh empty) node i entry) root path = some node := by
      rw [descend_write_of_elsewhere child hclosed hsep' hpath hnode' hpath, hnode']
      intro h
      have := h.length_le
      simp only [List.length_append, List.length_singleton] at this
      omega
    have hgraft : descend child (write (Function.update store fresh empty) node i entry) root (path ++ [i]) = some fresh := by
      rw [descend_concat, hpathNew, Option.bind_some, write_self, hentry]
    obtain ⟨rest, rfl⟩ := hpre
    have hold : descend child store root (path ++ [i]) = none := by
      rw [descend_concat, hnode, Option.bind_some, hchildless]
    cases rest with
    | nil => rw [List.append_nil, hgraft, if_pos rfl]
    | cons j rest =>
        rw [if_neg (by simp), descend_append, hgraft, descend_append, hold, Option.bind_some, Option.bind_none]
        simp only [descend]
        rw [write_of_ne (Or.inl (Ne.symm hne)), Function.update_self, hempty, Option.bind_none]
  · rw [descend_write_of_elsewhere child hclosed hsep' hpath hnode' hq hpre, hkeep q hq, if_neg]
    rintro rfl
    exact hpre (List.prefix_refl _)

end Lib.Radix
