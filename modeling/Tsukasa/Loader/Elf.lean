import Tsukasa.Lib.Bytes
import Mathlib.Logic.Function.Basic

/-!
# Loading executables

`loader/elf.c`. The file and the memory it is loaded to are one byte memory, and the loader reads the headers again in every round. In a file that keeps apart from its segments the headers stay as they are, so the loop copies the file bytes of one segment after another and touches nothing else.
-/

namespace Tsukasa

open Lib (Memory)

variable {m m' : Memory} {buf size i j k n x dst src ph phdr fuel : Nat}

/-! ### The loader -/

/-- `elf_verify`: the magic bytes and the type `ET_EXEC`. -/
def elfVerify (m : Memory) (buf : Nat) : Int :=
  if buf = 0 ∨ m buf ≠ 0x7F ∨ m (buf + 1) ≠ 69 ∨ m (buf + 2) ≠ 76 ∨ m (buf + 3) ≠ 70 then -1
  else if m.load (buf + 16) 2 ≠ 2 then -1
  else 0

def eEntry (m : Memory) (buf : Nat) : Nat := m.load (buf + 24) 4
def ePhoff (m : Memory) (buf : Nat) : Nat := m.load (buf + 28) 4
def ePhnum (m : Memory) (buf : Nat) : Nat := m.load (buf + 44) 2

def pType (m : Memory) (ph : Nat) : Nat := m.load ph 4
def pOffset (m : Memory) (ph : Nat) : Nat := m.load (ph + 4) 4
def pVaddr (m : Memory) (ph : Nat) : Nat := m.load (ph + 8) 4
def pFilesz (m : Memory) (ph : Nat) : Nat := m.load (ph + 16) 4
def pMemsz (m : Memory) (ph : Nat) : Nat := m.load (ph + 20) 4

def ptLoad : Nat := 1

/-- The inner loop of `elf_load`, from byte `j` on. -/
def copyBytes (ph dst src : Nat) : Nat → Nat → Memory → Memory
  | 0, _, m => m
  | fuel + 1, j, m => if j < pFilesz m ph then copyBytes ph dst src fuel (j + 1) (Function.update m (dst + j) (m (src + j))) else m

/-- The loop over the program headers, from header `i` on. The counters have 16 and 32 bits, which bounds the rounds. -/
def loadSegments (buf phdr : Nat) : Nat → Nat → Memory → Memory
  | 0, _, m => m
  | fuel + 1, i, m =>
      if i < ePhnum m buf then
        let ph := phdr + 32 * i
        if pType m ph ≠ ptLoad then loadSegments buf phdr fuel (i + 1) m
        else loadSegments buf phdr fuel (i + 1) (copyBytes ph (pVaddr m ph) (buf + pOffset m ph) (2 ^ 32) 0 m)
      else m

/-- `elf_load`: the result, and the memory behind it. -/
def elfLoad (m : Memory) (buf : Nat) : Nat × Memory :=
  if elfVerify m buf ≠ 0 then (0, m) else (eEntry m buf, loadSegments buf (buf + ePhoff m buf) (2 ^ 16) 0 m)

/-! ### Files -/

/-- Program header `i` of a file. -/
def headerAt (m : Memory) (buf i : Nat) : Nat := buf + ePhoff m buf + 32 * i

/-- Header `i` is one of a segment that is loaded. -/
def Loads (m : Memory) (buf i : Nat) : Prop := i < ePhnum m buf ∧ pType m (headerAt m buf i) = ptLoad

/-- The addresses of segment `i`. -/
def Occupies (m : Memory) (buf i x : Nat) : Prop :=
  pVaddr m (headerAt m buf i) ≤ x ∧ x < pVaddr m (headerAt m buf i) + pMemsz m (headerAt m buf i)

/-- An executable file of `size` bytes at `buf`, whose segments are apart from each other and from the file. -/
structure ElfFile (m : Memory) (buf size : Nat) : Prop where
  exec : elfVerify m buf = 0
  header : 52 ≤ size
  table : ePhoff m buf + 32 * ePhnum m buf ≤ size
  bytes : ∀ i, Loads m buf i → pOffset m (headerAt m buf i) + pFilesz m (headerAt m buf i) ≤ size
  sizes : ∀ i, Loads m buf i → pFilesz m (headerAt m buf i) ≤ pMemsz m (headerAt m buf i)
  apart : ∀ i k, Loads m buf i → Loads m buf k → i ≠ k → ∀ x, Occupies m buf i x → ¬ Occupies m buf k x
  outside : ∀ i, Loads m buf i → ∀ x, Occupies m buf i x → x < buf ∨ buf + size ≤ x

/-- The memory that a file describes, over the memory `m` before. -/
structure Describes (m m' : Memory) (buf : Nat) : Prop where
  bytes : ∀ i, Loads m buf i → ∀ j < pFilesz m (headerAt m buf i),
    m' (pVaddr m (headerAt m buf i) + j) = m (buf + pOffset m (headerAt m buf i) + j)
  zeros : ∀ i, Loads m buf i → ∀ j < pMemsz m (headerAt m buf i), pFilesz m (headerAt m buf i) ≤ j → m' (pVaddr m (headerAt m buf i) + j) = 0
  rest : ∀ x, (∀ i, Loads m buf i → ¬ Occupies m buf i x) → m' x = m x

/-! ### One segment -/

/-- The bytes from `j` to `n` have been copied, and nothing else. -/
structure Copied (m m' : Memory) (dst src j n : Nat) : Prop where
  bytes : ∀ k, j ≤ k → k < n → m' (dst + k) = m (src + k)
  rest : ∀ x, x < dst + j ∨ dst + n ≤ x → m' x = m x

theorem copyBytes_copied (hsize : pFilesz m ph = n) (hheader : ∀ k < n, ∀ x, ph ≤ x → x < ph + 32 → dst + k ≠ x)
    (hsource : ∀ k < n, ∀ l < n, dst + k ≠ src + l) (hfuel : n < fuel + j) (hj : j ≤ n) :
    Copied m (copyBytes ph dst src fuel j m) dst src j n := by
  induction fuel generalizing j m with
  | zero => omega
  | succ fuel ih =>
      rw [copyBytes, hsize]
      by_cases hlt : j < n
      · rw [if_pos hlt]
        have hkeep : pFilesz (Function.update m (dst + j) (m (src + j))) ph = n := by
          rw [← hsize, pFilesz, pFilesz]
          apply Memory.load_congr
          intro x hlow hhigh
          exact Function.update_of_ne (Ne.symm (hheader j hlt x (by omega) (by omega))) _ _
        have hrest := ih hkeep (by omega) hlt
        constructor
        · intro k hk hkn
          rcases Nat.eq_or_lt_of_le hk with rfl | hk
          · rw [hrest.rest _ (Or.inl (by omega)), Function.update_self]
          · rw [hrest.bytes k hk hkn, Function.update_of_ne (Ne.symm (hsource j hlt k hkn))]
        · intro x hx
          rw [hrest.rest x (by omega), Function.update_of_ne (by omega)]
      · rw [if_neg hlt]
        exact ⟨fun k hk hkn => absurd hkn (by omega), fun _ _ => rfl⟩

/-! ### The loop -/

theorem Loads.header_lt (hfile : ElfFile m buf size) (h : Loads m buf i) (hlow : headerAt m buf i ≤ x) (hhigh : x < headerAt m buf i + 32) :
    buf ≤ x ∧ x < buf + size := by
  have htable := hfile.table
  have hi := h.1
  rw [headerAt] at hlow hhigh
  omega

/-- The first `i` headers have been loaded, and nothing else has changed. -/
structure LoadedTo (m m' : Memory) (buf i : Nat) : Prop where
  bytes : ∀ k < i, Loads m buf k → ∀ j < pFilesz m (headerAt m buf k),
    m' (pVaddr m (headerAt m buf k) + j) = m (buf + pOffset m (headerAt m buf k) + j)
  rest : ∀ x, (∀ k < i, Loads m buf k → ¬ (pVaddr m (headerAt m buf k) ≤ x ∧ x < pVaddr m (headerAt m buf k) + pFilesz m (headerAt m buf k))) → m' x = m x

/-- The file stays as it is. -/
theorem LoadedTo.file (hfile : ElfFile m buf size) (h : LoadedTo m m' buf i) (hlow : buf ≤ x) (hhigh : x < buf + size) : m' x = m x := by
  apply h.rest
  intro k _ hk hx
  have hsizes := hfile.sizes k hk
  have houtside := hfile.outside k hk x ⟨hx.1, by omega⟩
  omega

theorem LoadedTo.load (hfile : ElfFile m buf size) (h : LoadedTo m m' buf i) (hlow : buf ≤ x) (hhigh : x + n ≤ buf + size) : m'.load x n = m.load x n :=
  Memory.load_congr fun _ hl hh => h.file hfile (by omega) (by omega)

theorem LoadedTo.skip (h : LoadedTo m m' buf i) (hskip : ¬ Loads m buf i) : LoadedTo m m' buf (i + 1) := by
  constructor
  · intro k hk hload
    rcases Nat.lt_succ_iff_lt_or_eq.mp hk with hlt | rfl
    · exact h.bytes k hlt hload
    · exact absurd hload hskip
  · intro x hx
    exact h.rest x fun k hk => hx k (by omega)

/-- One round of the loop. -/
theorem LoadedTo.segment (hfile : ElfFile m buf size) (h : LoadedTo m m' buf i) (hload : Loads m buf i) :
    LoadedTo m (copyBytes (headerAt m buf i) (pVaddr m (headerAt m buf i)) (buf + pOffset m (headerAt m buf i)) (2 ^ 32) 0 m') buf (i + 1) := by
  have htable := hfile.table
  have hbytes := hfile.bytes i hload
  have hsizes := hfile.sizes i hload
  have hi := hload.1
  have hsize : pFilesz m' (headerAt m buf i) = pFilesz m (headerAt m buf i) := h.load hfile (by rw [headerAt]; omega) (by rw [headerAt]; omega)
  have hlt : pFilesz m (headerAt m buf i) < 2 ^ 32 := Memory.load_lt m _ 4
  have hout : ∀ k < pFilesz m (headerAt m buf i), pVaddr m (headerAt m buf i) + k < buf ∨ buf + size ≤ pVaddr m (headerAt m buf i) + k :=
    fun k hk => hfile.outside i hload _ ⟨Nat.le_add_right _ _, by omega⟩
  have hcopied : Copied m' (copyBytes (headerAt m buf i) (pVaddr m (headerAt m buf i)) (buf + pOffset m (headerAt m buf i)) (2 ^ 32) 0 m')
      (pVaddr m (headerAt m buf i)) (buf + pOffset m (headerAt m buf i)) 0 (pFilesz m (headerAt m buf i)) := by
    apply copyBytes_copied hsize
    · intro k hk x hlow hhigh
      have hx := hload.header_lt hfile hlow hhigh
      have := hout k hk
      omega
    · intro k hk l hl
      have := hout k hk
      omega
    · omega
    · exact Nat.zero_le _
  constructor
  · intro k hk hloadk j hj
    rcases Nat.lt_succ_iff_lt_or_eq.mp hk with hlt' | rfl
    · -- the bytes of an earlier segment are not touched by the copy
      rw [hcopied.rest _ ?_, h.bytes k hlt' hloadk j hj]
      by_contra hin
      have hsizek := hfile.sizes k hloadk
      exact hfile.apart k i hloadk hload (by omega) _ ⟨Nat.le_add_right _ j, by omega⟩ ⟨by omega, by omega⟩
    · rw [hcopied.bytes j (Nat.zero_le j) hj]
      exact h.file hfile (by omega) (by omega)
  · intro x hx
    have hlast := hx i (Nat.lt_succ_self i) hload
    rw [hcopied.rest x (by omega)]
    exact h.rest x fun k hk => hx k (by omega)

theorem loadSegments_loaded (hfile : ElfFile m buf size) (h : LoadedTo m m' buf i) (hi : i ≤ ePhnum m buf) (hfuel : ePhnum m buf < fuel + i) :
    LoadedTo m (loadSegments buf (buf + ePhoff m buf) fuel i m') buf (ePhnum m buf) := by
  have htable := hfile.table
  have hheader := hfile.header
  induction fuel generalizing i m' with
  | zero => omega
  | succ fuel ih =>
      have hphnum : ePhnum m' buf = ePhnum m buf := h.load hfile (by omega) (by omega)
      rw [loadSegments, hphnum]
      by_cases hlt : i < ePhnum m buf
      · have hfield : ∀ off k : Nat, off + k ≤ 32 → m'.load (headerAt m buf i + off) k = m.load (headerAt m buf i + off) k := by
          intro off k hk
          exact h.load hfile (by rw [headerAt]; omega) (by rw [headerAt]; omega)
        have htype : pType m' (headerAt m buf i) = pType m (headerAt m buf i) := hfield 0 4 (by omega)
        have hoffset : pOffset m' (headerAt m buf i) = pOffset m (headerAt m buf i) := hfield 4 4 (by omega)
        have hvaddr : pVaddr m' (headerAt m buf i) = pVaddr m (headerAt m buf i) := hfield 8 4 (by omega)
        rw [if_pos hlt]
        dsimp only
        rw [← headerAt, htype, hoffset, hvaddr]
        split
        · rename_i hskip
          exact ih (h.skip fun hload => hskip hload.2) hlt (by omega)
        · rename_i hload
          exact ih (h.segment hfile ⟨hlt, Decidable.not_not.mp hload⟩) hlt (by omega)
      · rw [if_neg hlt, ← Nat.le_antisymm hi (Nat.not_lt.mp hlt)]
        exact h

/-- What the loader does: the result is the entry, and the file bytes of all segments have been copied. -/
theorem elfLoad_loaded (hfile : ElfFile m buf size) : (elfLoad m buf).1 = eEntry m buf ∧ LoadedTo m (elfLoad m buf).2 buf (ePhnum m buf) := by
  rw [elfLoad, if_neg (by rw [hfile.exec]; decide)]
  refine ⟨rfl, loadSegments_loaded hfile ⟨fun k hk => absurd hk (Nat.not_lt_zero k), fun _ _ => rfl⟩ (Nat.zero_le _) ?_⟩
  exact Memory.load_lt m _ 2

/-! ### The image -/

/-- The loader does not touch what is behind the file bytes of a segment. -/
theorem elfLoad_tail (hfile : ElfFile m buf size) (hi : Loads m buf i) (hj : j < pMemsz m (headerAt m buf i))
    (hbehind : pFilesz m (headerAt m buf i) ≤ j) : (elfLoad m buf).2 (pVaddr m (headerAt m buf i) + j) = m (pVaddr m (headerAt m buf i) + j) := by
  apply (elfLoad_loaded hfile).2.rest
  intro k _ hk hin
  have hsizes := hfile.sizes k hk
  by_cases hik : i = k
  · subst hik
    omega
  · exact hfile.apart i k hi hk hik _ ⟨Nat.le_add_right _ _, by omega⟩ ⟨hin.1, by omega⟩

/-- The image is the one that the file describes exactly when the memory behind the file bytes of each segment has been zero before. -/
theorem elfLoad_describes_iff (hfile : ElfFile m buf size) :
    ((elfLoad m buf).1 = eEntry m buf ∧ Describes m (elfLoad m buf).2 buf) ↔
      ∀ i, Loads m buf i → ∀ j < pMemsz m (headerAt m buf i), pFilesz m (headerAt m buf i) ≤ j → m (pVaddr m (headerAt m buf i) + j) = 0 := by
  obtain ⟨hentry, hloaded⟩ := elfLoad_loaded hfile
  constructor
  · intro h i hi j hj hbehind
    rw [← elfLoad_tail hfile hi hj hbehind]
    exact h.2.zeros i hi j hj hbehind
  · intro hzero
    refine ⟨hentry, fun i hi => hloaded.bytes i hi.1 hi, ?_, ?_⟩
    · intro i hi j hj hbehind
      rw [elfLoad_tail hfile hi hj hbehind]
      exact hzero i hi j hj hbehind
    · intro x hx
      apply hloaded.rest
      intro k _ hk hin
      have hsizes := hfile.sizes k hk
      exact hx k hk ⟨hin.1, by omega⟩

/-- A file at `0x1000` with one segment: its only byte goes to `0x80`, and the byte behind it has to be zero. -/
def smallElf (rest : Memory) : Memory :=
  let header := (((rest.store 0x1000 4 0x464C457F).store 0x1010 2 2).store 0x1018 4 0x80).store 0x101C 4 52
  let table := (((header.store 0x102C 2 1).store 0x1034 4 1).store 0x1038 4 84).store 0x103C 4 0x80
  ((table.store 0x1044 4 1).store 0x1048 4 2).store 0x1054 1 0x90

theorem smallElf_loads {rest : Memory} (h : Loads (smallElf rest) 0x1000 i) : i = 0 := by
  have hphnum : ePhnum (smallElf rest) 0x1000 = 1 := rfl
  have hlt := h.1
  omega

theorem smallElf_file (rest : Memory) : ElfFile (smallElf rest) 0x1000 85 := by
  have hverify : elfVerify (smallElf rest) 0x1000 = 0 := rfl
  have hheader : headerAt (smallElf rest) 0x1000 0 = 0x1034 := rfl
  have hvaddr : pVaddr (smallElf rest) 0x1034 = 0x80 := rfl
  have hphoff : ePhoff (smallElf rest) 0x1000 = 52 := rfl
  have hphnum : ePhnum (smallElf rest) 0x1000 = 1 := rfl
  have hoffset : pOffset (smallElf rest) 0x1034 = 84 := rfl
  have hfilesz : pFilesz (smallElf rest) 0x1034 = 1 := rfl
  have hmemsz : pMemsz (smallElf rest) 0x1034 = 2 := rfl
  refine ⟨hverify, by decide, by omega, ?_, ?_, ?_, ?_⟩
  · intro i hi
    rw [smallElf_loads hi, hheader]
    omega
  · intro i hi
    rw [smallElf_loads hi, hheader]
    omega
  · intro i k hi hk hne
    exact absurd ((smallElf_loads hi).trans (smallElf_loads hk).symm) hne
  · intro i hi x hx
    rw [smallElf_loads hi, Occupies, hheader, hvaddr, hmemsz] at hx
    omega

/-- Over clean memory the image is the one that the file describes. -/
theorem elfLoad_describes_clean : (elfLoad (smallElf fun _ => 0) 0x1000).1 = eEntry (smallElf fun _ => 0) 0x1000 ∧
    Describes (smallElf fun _ => 0) (elfLoad (smallElf fun _ => 0) 0x1000).2 0x1000 := by
  apply (elfLoad_describes_iff (smallElf_file _)).mpr
  intro i hi
  rw [smallElf_loads hi]
  decide +kernel

/-- Over used memory the byte behind the file bytes is not zero. -/
theorem elf_tail_dirty : ElfFile (smallElf fun _ => 0xFF) 0x1000 85 ∧
    ¬ Describes (smallElf fun _ => 0xFF) (elfLoad (smallElf fun _ => 0xFF) 0x1000).2 0x1000 := by
  refine ⟨smallElf_file _, fun h => ?_⟩
  have hload : Loads (smallElf fun _ => 0xFF) 0x1000 0 := ⟨by decide +kernel, by decide +kernel⟩
  have hzero := h.zeros 0 hload 1 (by decide +kernel) (by decide +kernel)
  rw [elfLoad_tail (smallElf_file _) hload (by decide +kernel) (by decide +kernel)] at hzero
  exact absurd hzero (by decide +kernel)

end Tsukasa
