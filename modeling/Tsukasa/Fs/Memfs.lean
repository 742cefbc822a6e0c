import Tsukasa.Fs.GrowBuffer
import Tsukasa.Lib.Run

/-!
# The in-memory file system

`fs/memfs.c`: a fixed table of inodes, found by name. The name of an inode is a bounded copy of the one it was created with, but a lookup compares it with the whole name that is asked for, so an inode with a longer name is never found again.
-/

namespace Tsukasa

open Lib (Memory)

def memfsMaxFiles : Nat := 16
def memfsMaxName : Nat := 64
def memfsInitCap : Nat := 4096

structure MemfsInode extends GrowBuffer where
  name : List UInt8
  used : Bool

structure Memfs where
  inodes : Nat → MemfsInode
  heap : KmallocAnswers

namespace Memfs

def setInode (m : Memfs) (i : Nat) (n : MemfsInode) : Memfs := { m with inodes := Function.update m.inodes i n }

def kmalloc (m : Memfs) (size : Nat) : Option Memory × Memfs := (m.heap 0 size, { m with heap := fun n => m.heap (n + 1) })

@[simp] theorem setInode_self (m : Memfs) (i : Nat) (n : MemfsInode) : (m.setInode i n).inodes i = n := Function.update_self ..

@[simp] theorem setInode_of_ne (m : Memfs) {i j : Nat} (n : MemfsInode) (h : j ≠ i) : (m.setInode i n).inodes j = m.inodes j :=
  Function.update_of_ne h ..

end Memfs

def memfsInit (heap : KmallocAnswers) : Memfs := ⟨fun _ => ⟨⟨none, 0, 0⟩, [], false⟩, heap⟩

/-- `memfs_open`: the inode, or `none` for -1. -/
def memfsOpen (m : Memfs) (name : List UInt8) : Option Nat :=
  (List.range memfsMaxFiles).find? fun i => (m.inodes i).used && (m.inodes i).name == name

def memfsCreate (m : Memfs) (name : List UInt8) : Option Nat × Memfs :=
  if name = [] then (none, m)
  else
    match memfsOpen m name with
    | some i => (some i, m)
    | none =>
        match (List.range memfsMaxFiles).find? fun i => !(m.inodes i).used with
        | none => (none, m)
        | some i =>
            let (data, m) := m.kmalloc memfsInitCap
            (some i, m.setInode i ⟨⟨data, 0, if data.isSome then memfsInitCap else 0⟩, name.take (memfsMaxName - 1), true⟩)

/-- The check that `memfs_read`, `memfs_write`, `memfs_size` and `memfs_truncate` begin with. -/
def memfsValid (m : Memfs) (inode : Nat) : Bool := decide (inode < memfsMaxFiles) && (m.inodes inode).used

/-- `memfs_read`: the bytes it stores. -/
def memfsRead (m : Memfs) (inode pos count : Nat) : List UInt8 :=
  let n := m.inodes inode
  if !memfsValid m inode then []
  else if n.size ≤ pos then []
  else (n.data.getD fun _ => 0).bytes pos (min count (n.size - pos))

/-- The capacity that the doubling of `memfs_write` starts from. -/
def memfsGrowStart (n : MemfsInode) : Nat := if n.capacity = 0 then memfsInitCap else wrap64 (n.capacity * 2)

/-- `memfs_write`: what happens to the buffer of the inode, or `none` when the doubling does not end within `fuel` steps. -/
def memfsWrite (fuel : Nat) (m : Memfs) (inode pos : Nat) (buf : Option Memory) (count : Nat) : Option (BufferWritten × Memfs) :=
  let n := m.inodes inode
  if !memfsValid m inode then some (⟨false, 0, [], n.toGrowBuffer, m.heap⟩, m)
  else
    (bufferWrite fuel m.heap (memfsGrowStart n) n.toGrowBuffer pos buf count).map fun w =>
      (w, { m.setInode inode { n with toGrowBuffer := w.buffer } with heap := w.heap })

def memfsSize (m : Memfs) (inode : Nat) : Nat := if memfsValid m inode then (m.inodes inode).size else 0

def memfsTruncate (m : Memfs) (inode : Nat) : Int × Memfs :=
  if memfsValid m inode then (0, m.setInode inode { m.inodes inode with size := 0 }) else (-1, m)

/-! ### Names -/

variable {m : Memfs} {name : List UInt8} {i : Nat}

theorem memfsOpen_some (h : memfsOpen m name = some i) : i < memfsMaxFiles ∧ (m.inodes i).used = true ∧ (m.inodes i).name = name := by
  have hfound := List.find?_some h
  have hin := List.mem_of_find?_eq_some h
  rw [Bool.and_eq_true, beq_iff_eq] at hfound
  exact ⟨List.mem_range.mp hin, hfound⟩

theorem memfsOpen_none (h : memfsOpen m name = none) (hi : i < memfsMaxFiles) (hused : (m.inodes i).used = true) : (m.inodes i).name ≠ name := by
  have hnot := List.find?_eq_none.mp h i (List.mem_range.mpr hi)
  rw [Bool.and_eq_true, beq_iff_eq] at hnot
  exact fun hname => hnot ⟨hused, hname⟩

/-- The used inodes have different names. -/
def NamesUnique (m : Memfs) : Prop :=
  ∀ i < memfsMaxFiles, ∀ j < memfsMaxFiles, (m.inodes i).used = true → (m.inodes j).used = true → (m.inodes i).name = (m.inodes j).name → i = j

/-- An inode is found under its own name when no other one has that name. -/
theorem memfsOpen_of_unique (hunique : NamesUnique m) (hi : i < memfsMaxFiles) (hused : (m.inodes i).used = true)
    (hname : (m.inodes i).name = name) : memfsOpen m name = some i := by
  cases hopen : memfsOpen m name with
  | none => exact absurd hname (memfsOpen_none hopen hi hused)
  | some j =>
      obtain ⟨hj, hjused, hjname⟩ := memfsOpen_some hopen
      rw [hunique j hj i hi hjused hused (hjname.trans hname.symm)]

/-- What a call of `memfs_create` can do: nothing, or take a free inode for the first bytes of a name that is not there. -/
theorem memfsCreate_cases (m : Memfs) (name : List UInt8) :
    ((memfsCreate m name).2 = m ∧ ∀ i, (memfsCreate m name).1 = some i → memfsOpen m name = some i) ∨
      ∃ i n, (memfsCreate m name).1 = some i ∧ i < memfsMaxFiles ∧ (m.inodes i).used = false ∧ name ≠ [] ∧ memfsOpen m name = none ∧
        (memfsCreate m name).2.inodes = Function.update m.inodes i n ∧ n.used = true ∧ n.name = name.take (memfsMaxName - 1) := by
  rw [memfsCreate]
  split
  · exact Or.inl ⟨rfl, nofun⟩
  rename_i hne
  split
  · rename_i i hopen
    exact Or.inl ⟨rfl, fun j hj => hopen.trans hj⟩
  rename_i hopen
  split
  · exact Or.inl ⟨rfl, nofun⟩
  · rename_i i hfree
    have hin := List.mem_of_find?_eq_some hfree
    have hunused := List.find?_some hfree
    rw [Bool.not_eq_true'] at hunused
    exact Or.inr ⟨i, _, rfl, List.mem_range.mp hin, hunused, hne, hopen, rfl, rfl, rfl⟩

/-- A call of `memfs_create` as a step of a run. -/
def createStep (m : Memfs) (name : List UInt8) : Memfs := (memfsCreate m name).2

/-- A call with this name creates nothing whose name is cut. -/
def NameFits (m : Memfs) (name : List UInt8) : Prop := name.length < memfsMaxName ∨ ∀ i < memfsMaxFiles, (m.inodes i).used = true

/-- The inode is found under the name, and creating the name again gives the same inode. -/
def FoundAs (m : Memfs) (name : List UInt8) (i : Nat) : Prop := memfsOpen m name = some i ∧ (memfsCreate m name).1 = some i

theorem foundAs_of_open (hne : name ≠ []) (h : memfsOpen m name = some i) : FoundAs m name i := by
  refine ⟨h, ?_⟩
  rw [memfsCreate, if_neg hne, h]

theorem createStep_unique (h : NamesUnique m) (hfits : NameFits m name) : NamesUnique (createStep m name) := by
  rcases memfsCreate_cases m name with ⟨hsame, -⟩ | ⟨k, n, -, hk, hfree, -, hnone, hinodes, -, hname⟩
  · rw [createStep, hsame]
    exact h
  have hshort : n.name = name := by
    rcases hfits with hlen | hfull
    · rw [hname, List.take_of_length_le (Nat.le_sub_one_of_lt hlen)]
    · rw [hfull k hk] at hfree
      cases hfree
  intro i hi j hj hiused hjused heq
  rw [createStep, hinodes] at hiused hjused heq
  by_cases hik : i = k
  · by_cases hjk : j = k
    · rw [hik, hjk]
    · rw [hik, Function.update_self, Function.update_of_ne hjk, hshort] at heq
      rw [Function.update_of_ne hjk] at hjused
      exact absurd heq.symm (memfsOpen_none hnone hj hjused)
  · rw [Function.update_of_ne hik] at hiused heq
    by_cases hjk : j = k
    · rw [hjk, Function.update_self, hshort] at heq
      exact absurd heq (memfsOpen_none hnone hi hiused)
    · rw [Function.update_of_ne hjk] at hjused heq
      exact h i hi j hj hiused hjused heq

/-- An inode in use keeps its name. -/
theorem createStep_keeps (name : List UInt8) (hused : (m.inodes i).used = true) : (createStep m name).inodes i = m.inodes i := by
  rcases memfsCreate_cases m name with ⟨hsame, -⟩ | ⟨k, n, -, -, hfree, -, -, hinodes, -, -⟩
  · rw [createStep, hsame]
  · have hne : i ≠ k := by
      rintro rfl
      rw [hused] at hfree
      cases hfree
    rw [createStep, hinodes, Function.update_of_ne hne]

theorem run_keeps (names : List (List UInt8)) (hused : (m.inodes i).used = true) : (Lib.run createStep m names).inodes i = m.inodes i := by
  induction names generalizing m with
  | nil => rfl
  | cons name names ih =>
      have hstep := createStep_keeps name hused
      rw [Lib.run_cons, ih (by rw [hstep]; exact hused), hstep]

/-- The inode that a call returns is in use from then on, under the first bytes of the name. -/
theorem createStep_returned (h : (memfsCreate m name).1 = some i) : i < memfsMaxFiles ∧ ((createStep m name).inodes i).used = true ∧ name ≠ [] ∧
    (((createStep m name).inodes i).name = name ∨
      ((createStep m name).inodes i).name = name.take (memfsMaxName - 1) ∧ ∃ i < memfsMaxFiles, (m.inodes i).used = false) := by
  have hne : name ≠ [] := by
    rintro rfl
    cases h
  rcases memfsCreate_cases m name with ⟨hsame, hopen⟩ | ⟨k, n, hret, hk, hfree, -, -, hinodes, hnused, hname⟩
  · obtain ⟨hi, hused, hnamed⟩ := memfsOpen_some (hopen i h)
    rw [createStep, hsame]
    exact ⟨hi, hused, hne, Or.inl hnamed⟩
  · rw [hret] at h
    cases h
    rw [createStep, hinodes, Function.update_self]
    exact ⟨hk, hnused, hne, Or.inr ⟨hname, i, hk, hfree⟩⟩

/-- The names that are stored fit their field. -/
def NamesShort (m : Memfs) : Prop := ∀ i < memfsMaxFiles, (m.inodes i).used = true → (m.inodes i).name.length < memfsMaxName

/-- A name that is too long is in no inode, so it is created each time while there is room. -/
theorem memfsCreate_long (hshort : NamesShort m) (hlong : memfsMaxName ≤ name.length) : memfsOpen m name = none ∧
      ((∃ i < memfsMaxFiles, (m.inodes i).used = false) → ∃ i, (memfsCreate m name).1 = some i) := by
  have hopen : memfsOpen m name = none := by
    cases hopen : memfsOpen m name with
    | none => rfl
    | some i =>
        obtain ⟨hi, hused, hname⟩ := memfsOpen_some hopen
        have hlen := hshort i hi hused
        rw [hname] at hlen
        omega
  refine ⟨hopen, fun ⟨i, hi, hfree⟩ => ?_⟩
  have hne : name ≠ [] := List.ne_nil_of_length_pos (lt_of_lt_of_le (by decide) hlong)
  rw [memfsCreate, if_neg hne, hopen]
  cases hfind : (List.range memfsMaxFiles).find? fun i => !(m.inodes i).used with
  | none => exact absurd (List.find?_eq_none.mp hfind i (List.mem_range.mpr hi)) (by simp [hfree])
  | some k => exact ⟨k, rfl⟩

theorem createStep_short (hshort : NamesShort m) (name : List UInt8) : NamesShort (createStep m name) := by
  intro i hi hused
  rcases memfsCreate_cases m name with ⟨hsame, -⟩ | ⟨k, n, -, -, -, -, -, hinodes, -, hname⟩
  · rw [createStep, hsame] at hused ⊢
    exact hshort i hi hused
  · rw [createStep, hinodes] at hused ⊢
    by_cases hik : i = k
    · rw [hik, Function.update_self, hname, List.length_take]
      exact lt_of_le_of_lt (Nat.min_le_left _ _) (by decide)
    · rw [Function.update_of_ne hik] at hused ⊢
      exact hshort i hi hused

theorem run_short (heap : KmallocAnswers) (names : List (List UInt8)) : NamesShort (Lib.run createStep (memfsInit heap) names) := by
  have hstep : ∀ s name, NamesShort s → True → NamesShort (createStep s name) := fun s name h _ => createStep_short h name
  refine Lib.run_invariant hstep (fun i _ hused => ?_) (Lib.allowed_of_forall fun _ _ _ => trivial)
  cases hused

/-- What a run of `memfs_create` calls should leave: different names, and every inode found under the name it was returned for. -/
structure NamesFindable (heap : KmallocAnswers) (names : List (List UInt8)) : Prop where
  unique : NamesUnique (Lib.run createStep (memfsInit heap) names)
  found : ∀ before name after i, names = before ++ name :: after → (memfsCreate (Lib.run createStep (memfsInit heap) before) name).1 = some i →
    FoundAs (Lib.run createStep (memfsInit heap) names) name i

/-- The names are unique and findable after a run exactly when no call of it has cut a name. -/
theorem memfs_names_iff (heap : KmallocAnswers) (names : List (List UInt8)) :
    NamesFindable heap names ↔ Lib.Allowed NameFits createStep (memfsInit heap) names := by
  constructor
  · intro h
    apply Lib.allowed_iff_forall_split.mpr
    intro before name after hsplit
    by_contra hcut
    rw [NameFits, not_or, Nat.not_lt] at hcut
    obtain ⟨hlong, hfull⟩ := hcut
    push Not at hfull
    obtain ⟨i, hi, hfree⟩ := hfull
    obtain ⟨k, hret⟩ := (memfsCreate_long (run_short heap before) hlong).2 ⟨i, hi, by simpa using hfree⟩
    have hfound := (h.found before name after k hsplit hret).1
    rw [(memfsCreate_long (run_short heap names) hlong).1] at hfound
    cases hfound
  · intro hallowed
    have hunique : NamesUnique (Lib.run createStep (memfsInit heap) names) :=
      Lib.run_invariant (fun s a h hfits => createStep_unique h hfits) (fun i _ j _ hused => by cases hused) hallowed
    refine ⟨hunique, fun before name after i hsplit hret => ?_⟩
    have hfits := Lib.allowed_iff_forall_split.mp hallowed before name after hsplit
    obtain ⟨hi, hused, hne, hname⟩ := createStep_returned hret
    have hnamed : ((createStep (Lib.run createStep (memfsInit heap) before) name).inodes i).name = name := by
      rcases hname with hname | ⟨hcut, k, hk, hfree⟩
      · exact hname
      · rcases hfits with hlen | hfull
        · rw [hcut, List.take_of_length_le (Nat.le_sub_one_of_lt hlen)]
        · rw [hfull k hk] at hfree
          cases hfree
    have hend : (Lib.run createStep (memfsInit heap) names).inodes i = (createStep (Lib.run createStep (memfsInit heap) before) name).inodes i := by
      rw [hsplit, Lib.run_append, Lib.run_cons]
      exact run_keeps after hused
    apply foundAs_of_open hne
    apply memfsOpen_of_unique hunique hi
    · rw [hend]
      exact hused
    · rw [hend]
      exact hnamed

/-- A name of 64 bytes is not found after it has been created, and created again it gives a second inode with the same name. -/
theorem memfs_cuts_name :
    ¬∀ (heap : KmallocAnswers) (names : List (List UInt8)), (∀ name ∈ names, name ≠ [] ∧ name.length < 256) → NamesFindable heap names := by
  intro hall
  have hnames := hall (fun _ _ => none) [List.replicate 64 97, List.replicate 64 97] (by decide)
  exact absurd (hnames.unique 0 (by decide) 1 (by decide) (by decide) (by decide) (by decide)) (by decide)

end Tsukasa
