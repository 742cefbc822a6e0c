import Tsukasa.Fs.Fat32Rename
import Tsukasa.Fs.Fat32Lfn
import Tsukasa.Lib.Traced

/-!
# Runs of the FAT32 driver

The calls once more, with a log of the indices into the 512-byte buffers `g_sector` and `sec_buf`, for any number `n` of rounds that a loop over a chain may take and for any content of the stack at the start of each scan. A run that does not come back has used up its rounds, or has left the long-name buffer. With the fuel and the empty buffers of the plain functions the results are theirs.
-/

namespace Tsukasa

open Lib (Memory Traced)

variable {σ : Type} {v v' : Fat32} {c n : Nat} {k : DirScan σ} {l : LfnState} {ctx : σ}

/-- A run logs the indices that it uses. -/
abbrev Fat32Run (α : Type) := Traced Nat α

/-! ### The scanners -/

/-- An entry is 32 bytes; its first byte is read first. -/
def scanEntryRun (k : DirScan σ) (sec : Memory) (lba off : Nat) (l : LfnState) (ctx : σ) : Fat32Run (Scan σ) :=
  ⟨List.range' off 32, scanEntry k sec lba off l ctx⟩

def scanEntriesRun (k : DirScan σ) (sec : Memory) (lba : Nat) : List Nat → LfnState → σ → Fat32Run (Scan σ)
  | [], l, ctx => pure (.more l ctx)
  | i :: is, l, ctx => do
      match ← scanEntryRun k sec lba (i * 32) l ctx with
      | .done ctx => pure (.done ctx)
      | .more l ctx => scanEntriesRun k sec lba is l ctx

def scanSectorsRun (k : DirScan σ) (lba : Nat) : List Nat → Fat32 → LfnState → σ → Fat32Run (Fat32 × Scan σ)
  | [], v, l, ctx => pure (v, .more l ctx)
  | s :: ss, v, l, ctx => do
      let v := v.load (wrap32 (lba + s))
      match ← scanEntriesRun k v.sector (wrap32 (lba + s)) (List.range (v.geometry.bytesPerSector / 32)) l ctx with
      | .done ctx => pure (v, .done ctx)
      | .more l ctx => scanSectorsRun k lba ss v l ctx

/-- `fat_next` reads the four bytes of the FAT entry one by one. -/
def fatNextRun (v : Fat32) (cluster : Nat) : Fat32Run (Nat × Fat32) :=
  ⟨List.range' (wrap32 (cluster * 4) % v.geometry.bytesPerSector) 4, some (fatNext v cluster)⟩

def scanRun (k : DirScan σ) : Nat → Nat → Fat32 → LfnState → σ → Fat32Run (Fat32 × σ)
  | 0, _, _, _, _ => Traced.stuck
  | fuel + 1, cluster, v, l, ctx =>
      if cluster < fat32Eoc then do
        match ← scanSectorsRun k (clusterToLba v.geometry cluster) (List.range v.geometry.sectorsPerCluster) v l ctx with
        | (v, .done ctx) => pure (v, ctx)
        | (v, .more l ctx) =>
            let next ← fatNextRun v cluster
            scanRun k fuel next.1 next.2 l ctx
      else pure (v, ctx)

theorem scanEntriesRun_result (sec : Memory) (lba : Nat) (is : List Nat) (l : LfnState) (ctx : σ) :
    (scanEntriesRun k sec lba is l ctx).result = scanEntries k sec lba is l ctx := by
  induction is generalizing l ctx with
  | nil => rfl
  | cons i is ih =>
      rw [scanEntriesRun, scanEntries, Traced.bind_result]
      simp only [scanEntryRun]
      cases scanEntry k sec lba (i * 32) l ctx with
      | none => rfl
      | some r =>
          cases r with
          | done ctx => rfl
          | more l ctx => exact ih l ctx

theorem scanSectorsRun_result (lba : Nat) (ss : List Nat) (v : Fat32) (l : LfnState) (ctx : σ) :
    (scanSectorsRun k lba ss v l ctx).result = scanSectors k lba ss v l ctx := by
  induction ss generalizing v l ctx with
  | nil => rfl
  | cons s ss ih =>
      rw [scanSectorsRun, scanSectors, Traced.bind_result, scanEntriesRun_result]
      cases scanEntries k (v.load (wrap32 (lba + s))).sector (wrap32 (lba + s)) (List.range ((v.load (wrap32 (lba + s))).geometry.bytesPerSector / 32)) l
          ctx with
      | none => rfl
      | some r =>
          cases r with
          | done ctx => rfl
          | more l ctx => exact ih _ l ctx

theorem scanRun_result (fuel c : Nat) (v : Fat32) (l : LfnState) (ctx : σ) : (scanRun k fuel c v l ctx).result = scanClusters k fuel c v l ctx := by
  induction fuel generalizing c v l ctx with
  | zero => rfl
  | succ fuel ih =>
      rw [scanRun, scanClusters]
      split
      · rw [Traced.bind_result, scanSectorsRun_result]
        cases scanSectors k (clusterToLba v.geometry c) (List.range v.geometry.sectorsPerCluster) v l ctx with
        | none => rfl
        | some r =>
            cases r with
            | mk v' r =>
                cases r with
                | done ctx => rfl
                | more l ctx => exact ih _ _ l ctx
      · rfl

/-! ### Paths -/

/-- The walk of `resolve_parent`; the stack is `start` at the start of each scan in turn. -/
def walkDirsRun (n : Nat) : List (List UInt8) → (Nat → LfnState) → Fat32 → Nat → Fat32Run (Fat32 × Nat)
  | [], _, v, cur => pure (v, cur)
  | comp :: comps, start, v, cur => do
      match ← scanRun ⟨iterateLfn, fun e _ _ name ctx => findDirCb v.geometry.rootCluster comp e name ctx⟩ n cur v (start 0) none with
      | (v, none) => pure (v, 0)
      | (v, some found) => walkDirsRun n comps (fun i => start (i + 1)) v found

def resolveParentRun (n : Nat) (start : Nat → LfnState) (v : Fat32) (path : List UInt8) : Fat32Run (Fat32 × Nat × Option (List UInt8)) :=
  let comps := pathComponents 32 path
  match comps.getLast? with
  | none => pure (v, v.geometry.rootCluster, none)
  | some leaf => do
      let (v, parent) ← walkDirsRun n comps.dropLast start v v.geometry.rootCluster
      pure (v, parent, some leaf)

def resolveParentInRun (n : Nat) (start : Nat → LfnState) (v : Fat32) (comps : PathStore) (path : List UInt8) :
    Fat32Run (Fat32 × PathStore × Nat × Option Nat) :=
  let found := pathComponents 32 path
  let comps : PathStore := fun i => found.getD i (comps i)
  if found = [] then pure (v, comps, v.geometry.rootCluster, none)
  else do
    let (v, parent) ← walkDirsRun n found.dropLast start v v.geometry.rootCluster
    pure (v, comps, parent, some (found.length - 1))

/-! ### The calls -/

def statRun (n : Nat) (start : Nat → LfnState) (v : Fat32) (path : List UInt8) : Fat32Run (Fat32 × Option Fat32Dirent) :=
  if !v.ready then pure (v, none)
  else
    match fat32NormalizePath path fat32NameMax with
    | none => pure (v, none)
    | some norm =>
        if norm = [slash] then pure (v, some ⟨[slash], 0, true, v.geometry.rootCluster⟩)
        else do
          match ← resolveParentRun n start v norm with
          | (v, _, none) => pure (v, none)
          | (v, parent, some leaf) =>
              if parent = 0 then pure (v, none)
              else scanRun ⟨iterateLfn, fun e _ _ name ctx => statCb leaf e name ctx⟩ n parent v (start 32) none

/-- `list_cb`; the context is the entries so far. -/
def listCb (max : Nat) (e : DirEntry) (name : List UInt8) (entries : List Fat32Dirent) : List Fat32Dirent × Bool :=
  if max ≤ entries.length then (entries, true) else (entries ++ [direntOf e name], false)

/-- The scan of `fat32_list_dir`. -/
def listClusterRun (n : Nat) (start : Nat → LfnState) (max : Int) (v : Fat32) (cluster : Nat) : Fat32Run (Fat32 × Option (List Fat32Dirent)) := do
  let (v, entries) ← scanRun ⟨iterateLfn, fun e _ _ name ctx => listCb max.toNat e name ctx⟩ n cluster v (start 33) []
  pure (v, some entries)

/-- `fat32_list_dir`: the entries that it fills in; `none` is its error return. -/
def listDirRun (n : Nat) (start : Nat → LfnState) (v : Fat32) (path : List UInt8) (max : Int) : Fat32Run (Fat32 × Option (List Fat32Dirent)) :=
  if !v.ready ∨ max ≤ 0 then pure (v, none)
  else
    match fat32NormalizePath path fat32NameMax with
    | none => pure (v, none)
    | some norm =>
        if norm = [slash] then listClusterRun n start max v v.geometry.rootCluster
        else do
          match ← statRun n start v norm with
          | (v, none) => pure (v, none)
          | (v, some de) => if de.isDir then listClusterRun n start max v de.firstCluster else pure (v, none)

/-- The indices that the copies from `sec_buf` use; `done` bytes have been copied. -/
def readIndices (bytesPerSector toRead : Nat) : List Nat → Nat → List Nat
  | [], _ => []
  | _ :: ss, done =>
      if done < toRead then
        let chunk := min bytesPerSector (toRead - done)
        List.range chunk ++ readIndices bytesPerSector toRead ss (done + chunk)
      else []

def readClustersRun (toRead : Nat) : Nat → Nat → Fat32 → List UInt8 → Fat32Run (Fat32 × List UInt8)
  | 0, _, _, _ => Traced.stuck
  | fuel + 1, cluster, v, dst =>
      if cluster < fat32Eoc ∧ dst.length < toRead then do
        Traced.touch (readIndices v.geometry.bytesPerSector toRead (List.range v.geometry.sectorsPerCluster) dst.length)
        let dst := readSectors v (clusterToLba v.geometry cluster) toRead (List.range v.geometry.sectorsPerCluster) dst
        let next ← fatNextRun v cluster
        readClustersRun toRead fuel next.1 next.2 dst
      else pure (v, dst)

def readFileRun (n : Nat) (start : Nat → LfnState) (v : Fat32) (path : List UInt8) (maxBytes : Nat) : Fat32Run (Fat32 × Int × List UInt8) :=
  if !v.ready then pure (v, -1, [])
  else
    match fat32NormalizePath path fat32NameMax with
    | none => pure (v, -1, [])
    | some norm => do
        match ← statRun n start v norm with
        | (v, none) => pure (v, -1, [])
        | (v, some de) =>
            if de.isDir then pure (v, -1, [])
            else do
              let (v, dst) ← readClustersRun (min de.size maxBytes) n de.firstCluster v []
              pure (v, toInt32 dst.length, dst)

def chainCapacityRun : Nat → Nat → Fat32 → Nat → Fat32Run (Fat32 × Nat)
  | 0, _, _, _ => Traced.stuck
  | fuel + 1, c, v, capacity =>
      if 2 ≤ c ∧ c < fat32Eoc then do
        let next ← fatNextRun v c
        chainCapacityRun fuel next.1 next.2 (wrap64 (capacity + v.geometry.sectorsPerCluster * v.geometry.bytesPerSector))
      else pure (v, capacity)

/-- `sec_buf` is filled with zeros before each write, and from the source up to the same index. -/
def writeClustersRun (src : List UInt8) : Nat → Nat → Fat32 → Nat → Fat32Run (Fat32 × Nat)
  | 0, _, _, _ => Traced.stuck
  | fuel + 1, cluster, v, done =>
      if 2 ≤ cluster ∧ cluster < fat32Eoc then do
        Traced.touch ((List.range v.geometry.sectorsPerCluster).flatMap fun _ => List.range v.geometry.bytesPerSector)
        let w := writeSectors (clusterToLba v.geometry cluster) src (List.range v.geometry.sectorsPerCluster) v done
        let next ← fatNextRun w.1 cluster
        writeClustersRun src fuel next.1 next.2 w.2
      else pure (v, done)

def writeFileRun (n : Nat) (start : Nat → LfnState) (v : Fat32) (path src : List UInt8) : Fat32Run (Fat32 × Int) :=
  if !v.ready then pure (v, -1)
  else
    match fat32NormalizePath path fat32NameMax with
    | none => pure (v, -1)
    | some norm => do
        match ← resolveParentRun n start v norm with
        | (v, _, none) => pure (v, -1)
        | (v, parent, some leaf) =>
            if parent = 0 then pure (v, -1)
            else do
              match ← scanRun ⟨findLfn, rawVisit leaf⟩ n parent v (start 32) none with
              | (v, none) => pure (v, -1)
              | (v, some raw) =>
                  if raw.out.attr &&& attrDir ≠ 0 then pure (v, -1)
                  else if raw.out.firstCluster = 0 ∧ 0 < src.length then pure (v, -1)
                  else do
                    let (v, capacity) ← chainCapacityRun n raw.out.firstCluster v 0
                    if capacity < src.length then pure (v, -1)
                    else do
                      let (v, done) ← writeClustersRun src n raw.out.firstCluster v 0
                      if done ≠ src.length then pure (v, -1)
                      else do
                        Traced.touch (List.range' (raw.entryOff + 28) 4)
                        pure (updateFileSize v raw src.length, 0)

def renameInRun (n : Nat) (start : Nat → LfnState) (v : Fat32) (parent : Nat) (oldLeaf newLeaf : List UInt8) : Fat32Run (Fat32 × Int) :=
  match validateShortName newLeaf with
  | none => pure (v, -1)
  | some new83 => do
      match ← scanRun ⟨findLfn, rawVisit oldLeaf⟩ n parent v (start 0) none with
      | (v, none) => pure (v, -1)
      | (v, some src) =>
          match ← scanRun ⟨findLfn, rawVisit newLeaf⟩ n parent v (start 1) none with
          | (v, some _) => pure (v, -1)
          | (v, none) => do
              Traced.touch (List.range' src.entryOff 11)
              pure (renameEntry v src new83, 0)

def renameRun (n : Nat) (start : Nat → LfnState) (v : Fat32) (comps : PathStore) (oldPath newPath : List UInt8) : Fat32Run (Fat32 × Int) :=
  if !v.ready then pure (v, -1)
  else
    match fat32NormalizePath oldPath fat32NameMax with
    | none => pure (v, -1)
    | some oldNorm =>
        match fat32NormalizePath newPath fat32NameMax with
        | none => pure (v, -1)
        | some newNorm => do
            let (v, comps, oldParent, oldLeaf) ← resolveParentInRun n start v comps oldNorm
            let (v, comps, newParent, newLeaf) ← resolveParentInRun n (fun i => start (i + 32)) v comps newNorm
            match oldLeaf, newLeaf with
            | some oldLeaf, some newLeaf =>
                if oldParent = 0 ∨ newParent = 0 then pure (v, -1)
                else if oldParent ≠ newParent then pure (v, -1)
                else renameInRun n (fun i => start (i + 64)) v oldParent (comps oldLeaf) (comps newLeaf)
            | _, _ => pure (v, -1)

/-! ### The results -/

/-- The stack of the plain functions: nothing is left in the long-name buffer. -/
abbrev emptyStack : Nat → LfnState := fun _ => .empty

theorem walkDirsRun_result (comps : List (List UInt8)) (v : Fat32) (cur : Nat) :
    (walkDirsRun fat32Fuel comps emptyStack v cur).result = walkDirs comps v cur := by
  induction comps generalizing v cur with
  | nil => rfl
  | cons comp comps ih =>
      rw [walkDirsRun, walkDirs, Traced.bind_result, scanRun_result, ← iterateDir]
      cases iterateDir v cur (findDirCb v.geometry.rootCluster comp) none with
      | none => rfl
      | some r =>
          obtain ⟨v', found⟩ := r
          cases found with
          | none => rfl
          | some found => exact ih v' found

theorem resolveParentRun_result (v : Fat32) (path : List UInt8) : (resolveParentRun fat32Fuel emptyStack v path).result = resolveParent v path := by
  rw [resolveParentRun, resolveParent]
  cases (pathComponents 32 path).getLast? with
  | none => rfl
  | some leaf =>
      simp only [Traced.bind_result, walkDirsRun_result]
      cases walkDirs (pathComponents 32 path).dropLast v v.geometry.rootCluster with
      | none => rfl
      | some r => rfl

theorem resolveParentInRun_result (v : Fat32) (comps : PathStore) (path : List UInt8) :
    (resolveParentInRun fat32Fuel emptyStack v comps path).result = resolveParentIn v comps path := by
  rw [resolveParentInRun, resolveParentIn]
  split
  · rfl
  · simp only [Traced.bind_result, walkDirsRun_result]
    cases walkDirs (pathComponents 32 path).dropLast v v.geometry.rootCluster with
    | none => rfl
    | some r => rfl

theorem statRun_result (v : Fat32) (path : List UInt8) : (statRun fat32Fuel emptyStack v path).result = fat32Stat v path := by
  rw [statRun, fat32Stat]
  split
  · rfl
  cases fat32NormalizePath path fat32NameMax with
  | none => rfl
  | some norm =>
      dsimp only
      split
      · rfl
      · rw [Traced.bind_result, resolveParentRun_result]
        cases resolveParent v norm with
        | none => rfl
        | some r =>
            obtain ⟨v', parent, leaf⟩ := r
            cases leaf with
            | none => rfl
            | some leaf =>
                simp only [Option.bind_some]
                split
                · rfl
                · rw [scanRun_result, ← iterateDir]

theorem readClustersRun_result (toRead fuel c : Nat) (v : Fat32) (dst : List UInt8) :
    (readClustersRun toRead fuel c v dst).result = readClusters toRead fuel c v dst := by
  induction fuel generalizing c v dst with
  | zero => rfl
  | succ fuel ih =>
      rw [readClustersRun, readClusters]
      split
      · exact ih _ _ _
      · rfl

theorem readFileRun_result (v : Fat32) (path : List UInt8) (maxBytes : Nat) :
    (readFileRun fat32Fuel emptyStack v path maxBytes).result = fat32ReadFile v path maxBytes := by
  rw [readFileRun, fat32ReadFile]
  split
  · rfl
  cases fat32NormalizePath path fat32NameMax with
  | none => rfl
  | some norm =>
      simp only [Traced.bind_result, statRun_result]
      cases fat32Stat v norm with
      | none => rfl
      | some r =>
          obtain ⟨v', de⟩ := r
          cases de with
          | none => rfl
          | some de =>
              simp only [Option.bind_some]
              split
              · rfl
              · rw [Traced.bind_result, readClustersRun_result]
                cases readClusters (min de.size maxBytes) fat32Fuel de.firstCluster v' [] with
                | none => rfl
                | some r => rfl

theorem chainCapacityRun_result (fuel c : Nat) (v : Fat32) (capacity : Nat) :
    (chainCapacityRun fuel c v capacity).result = chainCapacity fuel c v capacity := by
  induction fuel generalizing c v capacity with
  | zero => rfl
  | succ fuel ih =>
      rw [chainCapacityRun, chainCapacity]
      split
      · exact ih _ _ _
      · rfl

theorem writeClustersRun_result (src : List UInt8) (fuel c : Nat) (v : Fat32) (done : Nat) :
    (writeClustersRun src fuel c v done).result = writeClusters src fuel c v done := by
  induction fuel generalizing c v done with
  | zero => rfl
  | succ fuel ih =>
      rw [writeClustersRun, writeClusters]
      split
      · exact ih _ _ _
      · rfl

theorem scanRun_rawVisit (v : Fat32) (c : Nat) (leaf : List UInt8) :
    (scanRun ⟨findLfn, rawVisit leaf⟩ fat32Fuel c v .empty none).result = findEntryRaw v c leaf := by
  rw [scanRun_result, findEntryRaw_eq]

theorem writeFileRun_result (v : Fat32) (path src : List UInt8) :
    (writeFileRun fat32Fuel emptyStack v path src).result = fat32WriteFile v path src := by
  rw [writeFileRun, fat32WriteFile]
  split
  · rfl
  cases fat32NormalizePath path fat32NameMax with
  | none => rfl
  | some norm =>
      simp only [Traced.bind_result, resolveParentRun_result]
      cases resolveParent v norm with
      | none => rfl
      | some r =>
          obtain ⟨v₁, parent, leaf⟩ := r
          cases leaf with
          | none => rfl
          | some leaf =>
              simp only [Option.bind_some]
              split
              · rfl
              rw [Traced.bind_result, scanRun_rawVisit]
              cases findEntryRaw v₁ parent leaf with
              | none => rfl
              | some r =>
                  obtain ⟨v₂, raw⟩ := r
                  cases raw with
                  | none => rfl
                  | some raw =>
                      simp only [Option.bind_some]
                      split
                      · rfl
                      split
                      · rfl
                      rw [Traced.bind_result, chainCapacityRun_result]
                      cases chainCapacity fat32Fuel raw.out.firstCluster v₂ 0 with
                      | none => rfl
                      | some r =>
                          simp only [Option.bind_some]
                          split
                          · rfl
                          rw [Traced.bind_result, writeClustersRun_result]
                          cases writeClusters src fat32Fuel raw.out.firstCluster r.1 0 with
                          | none => rfl
                          | some w =>
                              simp only [Option.bind_some]
                              split
                              · rfl
                              · rfl

theorem renameInRun_result (v : Fat32) (parent : Nat) (oldLeaf newLeaf : List UInt8) :
    (renameInRun fat32Fuel emptyStack v parent oldLeaf newLeaf).result = renameIn v parent oldLeaf newLeaf := by
  rw [renameInRun, renameIn]
  cases validateShortName newLeaf with
  | none => rfl
  | some new83 =>
      simp only [Traced.bind_result, scanRun_rawVisit]
      cases findEntryRaw v parent oldLeaf with
      | none => rfl
      | some r =>
          obtain ⟨v₁, src⟩ := r
          cases src with
          | none => rfl
          | some src =>
              simp only [Option.bind_some, Traced.bind_result, scanRun_rawVisit]
              cases findEntryRaw v₁ parent newLeaf with
              | none => rfl
              | some r =>
                  obtain ⟨v₂, dst⟩ := r
                  cases dst with
                  | none => rfl
                  | some dst => rfl

theorem renameRun_result (v : Fat32) (comps : PathStore) (oldPath newPath : List UInt8) :
    (renameRun fat32Fuel emptyStack v comps oldPath newPath).result = fat32Rename v comps oldPath newPath := by
  rw [renameRun, fat32Rename]
  split
  · rfl
  cases fat32NormalizePath oldPath fat32NameMax with
  | none => rfl
  | some oldNorm =>
      cases fat32NormalizePath newPath fat32NameMax with
      | none => rfl
      | some newNorm =>
          simp only [Traced.bind_result, resolveParentInRun_result]
          cases resolveParentIn v comps oldNorm with
          | none => rfl
          | some r =>
              obtain ⟨v₁, comps₁, oldParent, oldLeaf⟩ := r
              simp only [Option.bind_some]
              cases resolveParentIn v₁ comps₁ newNorm with
              | none => rfl
              | some r =>
                  obtain ⟨v₂, comps₂, newParent, newLeaf⟩ := r
                  cases oldLeaf with
                  | none => rfl
                  | some oldLeaf =>
                      cases newLeaf with
                      | none => rfl
                      | some newLeaf =>
                          simp only [Option.bind_some]
                          split
                          · rfl
                          split
                          · rfl
                          · exact renameInRun_result v₂ oldParent _ _

end Tsukasa
