import Tsukasa.Fs.FatClose

/-!
# Two descriptors of one FAT file

Each open takes a snapshot of the file, and each close of a descriptor that was written to writes the whole snapshot back. Beside the two descriptors runs one byte array with two positions. The descriptors behave like the array as long as none is read or written through whose snapshot the other one has made stale.
-/

namespace Tsukasa

open Lib (overlay)

inductive ClientCall where
  | openFile (flags : BitVec 32)
  | write (src : List UInt8)
  | read (count : Nat)
  | seek (offset : Nat) (whence : Int)
  | close

/-- One of the two: its descriptor, and its position in the shared array. The last two fields tell whether it has called `vfs_write`, and whether a write of the other one is missing in its snapshot. -/
structure Client where
  fd : Int
  flags : BitVec 32
  pos : Nat
  wrote : Bool
  stale : Bool
deriving DecidableEq

structure Shared where
  vfs : Vfs FatVolumes RegularFile
  content : List UInt8
  client : Bool → Option Client

namespace Shared

variable (B : Backends FatVolumes RegularFile) (proc : Bool → Nat) (path : Bool → List UInt8)

/-- The snapshot of a new descriptor misses what the other one has written and not flushed yet. -/
def openFile (x : Shared) (k : Bool) (flags : BitVec 32) : Shared :=
  let (fd, s) := vfsOpenFlags B x.vfs (proc k) (some (path k)) flags
  let pos := if flags &&& vfsOAppend ≠ 0 then x.content.length else 0
  { x with vfs := s, client := Function.update x.client k (some ⟨fd, flags, pos, false, (x.client !k).any (·.wrote)⟩) }

/-- The array is written at its end in append mode, with as many bytes as `vfs_write` reports. -/
def write (x : Shared) (k : Bool) (c : Client) (src : List UInt8) : Shared :=
  let (wr, s) := vfsWrite B x.vfs (proc k) c.fd src
  if flagsToMode c.flags &&& vfsModeWrite = 0 then { x with vfs := s }
  else
    let start := if c.flags &&& vfsOAppend ≠ 0 then x.content.length else c.pos
    let others := Function.update x.client (!k) ((x.client !k).map fun o => { o with stale := true })
    { vfs := s, content := overlay x.content start (src.take wr), client := Function.update others k (some { c with pos := start + wr, wrote := true }) }

/-- What a read of the array yields. -/
def bytesAt (x : Shared) (c : Client) (count : Nat) : List UInt8 :=
  if flagsToMode c.flags &&& vfsModeRead = 0 then [] else (x.content.drop c.pos).take count

def read (x : Shared) (k : Bool) (c : Client) (count : Nat) : Shared where
  vfs := (vfsRead B x.vfs (proc k) c.fd count).2
  content := x.content
  client := Function.update x.client k (some { c with pos := c.pos + (x.bytesAt c count).length })

def seek (x : Shared) (k : Bool) (c : Client) (offset : Nat) (whence : Int) : Shared where
  vfs := (vfsSeek regularSize x.vfs (proc k) c.fd offset whence).2
  content := x.content
  client := Function.update x.client k (some { c with pos := (seekTarget c.pos x.content.length offset whence).getD c.pos })

def close (x : Shared) (k : Bool) (c : Client) : Shared where
  vfs := vfsClose B x.vfs (proc k) c.fd
  content := x.content
  client := Function.update x.client k none

/-- A call of one of the two; without a descriptor only an open does something. -/
def step (x : Shared) : Bool × ClientCall → Shared
  | (k, .openFile flags) => x.openFile B proc path k flags
  | (k, .write src) => (x.client k).elim x fun c => x.write B proc k c src
  | (k, .read count) => (x.client k).elim x fun c => x.read B proc k c count
  | (k, .seek offset whence) => (x.client k).elim x fun c => x.seek proc k c offset whence
  | (k, .close) => (x.client k).elim x fun c => x.close B proc k c

/-- The runs of two descriptors: an open is made by a client without one, without `VFS_O_TRUNC`, and succeeds. -/
def Opens (x : Shared) : Bool × ClientCall → Prop
  | (k, .openFile flags) => x.client k = none ∧ flags &&& vfsOTrunc = 0 ∧ 0 ≤ (vfsOpenFlags B x.vfs (proc k) (some (path k)) flags).1
  | _ => True

/-- A read or write is not made through a stale snapshot, and what is flushed fits the file. -/
def Current (room : Nat) (x : Shared) : Bool × ClientCall → Prop
  | (_, .openFile _) => True
  | (k, .write _) => ∀ c ∈ x.client k, flagsToMode c.flags &&& vfsModeWrite ≠ 0 → c.stale = false
  | (k, .read _) => ∀ c ∈ x.client k, flagsToMode c.flags &&& vfsModeRead ≠ 0 → c.stale = false
  | (_, .seek _ _) => True
  | (k, .close) => ∀ c ∈ x.client k, c.wrote = true → x.content.length ≤ room

instance (x : Shared) : (call : Bool × ClientCall) → Decidable (Opens B proc path x call)
  | (k, .openFile flags) =>
      inferInstanceAs (Decidable (x.client k = none ∧ flags &&& vfsOTrunc = 0 ∧ 0 ≤ (vfsOpenFlags B x.vfs (proc k) (some (path k)) flags).1))
  | (_, .write _) | (_, .read _) | (_, .seek _ _) | (_, .close) => isTrue trivial

instance (room : Nat) (x : Shared) : (call : Bool × ClientCall) → Decidable (Current room x call)
  | (k, .write _) => inferInstanceAs (Decidable (∀ c ∈ x.client k, flagsToMode c.flags &&& vfsModeWrite ≠ 0 → c.stale = false))
  | (k, .read _) => inferInstanceAs (Decidable (∀ c ∈ x.client k, flagsToMode c.flags &&& vfsModeRead ≠ 0 → c.stale = false))
  | (k, .close) => inferInstanceAs (Decidable (∀ c ∈ x.client k, c.wrote = true → x.content.length ≤ room))
  | (_, .openFile _) | (_, .seek _ _) => isTrue trivial

/-- A read yields the bytes of the array, and behind the last close the file is the array. -/
def LikeArray (x : Shared) : Bool × ClientCall → Prop
  | (k, .read count) => ∀ c ∈ x.client k, (vfsRead B x.vfs (proc k) c.fd count).1 = x.bytesAt c count
  | (k, .close) => ∀ c ∈ x.client k, x.client (!k) = none →
      (vfsClose B x.vfs (proc k) c.fd).fs.hung = false ∧ ReopensAs B (vfsClose B x.vfs (proc k) c.fd) (proc k) (path k) x.content
  | _ => True

end Shared

/-! ### The invariant -/

variable {resolve : Nat → List UInt8 → Option (VfsMount × List UInt8)} {proc : Bool → Nat} {path : Bool → List UInt8} {m : Bool → VfsMount}
  {backend : VfsBackend} {sub shown : List UInt8} {room : Nat} {x : Shared} {k : Bool} {c : Client} {i : Nat} {index : Bool → Nat}

/-- The entry of a client. Its buffer is the array, unless it is stale. -/
structure HasEntry (s : Vfs FatVolumes RegularFile) (p : Nat) (backend : VfsBackend) (sub shown content : List UInt8) (c : Client) (i : Nat) : Prop where
  lookup : fdLookup s p c.fd = some i
  index : i < vfsMaxOpenGlobal
  flags : (s.openFiles i).flags = c.flags
  mode : (s.openFiles i).mode = flagsToMode c.flags
  entry : ∃ snapshot e, EntryOf (s.openFiles i) backend sub snapshot e ∧
    (c.stale = false → snapshot = shown ∧ e = content ∧ (s.openFiles i).pos = c.pos)
  dirty : (s.openFiles i).dirty = true → c.wrote = true ∧ (s.openFiles i).mode &&& vfsModeWrite ≠ 0
  fresh : c.wrote = true → c.stale = false

/-- The volume shows a state of the array, the present one when no buffer has to be flushed. -/
structure Agrees (proc : Bool → Nat) (backend : VfsBackend) (sub : List UInt8) (room : Nat) (x : Shared) (shown : List UInt8) (index : Bool → Nat) : Prop where
  kept : FileKept x.vfs.fs backend sub shown room
  length_le : shown.length ≤ x.content.length
  hung : x.vfs.fs.hung = false
  client : ∀ k c, x.client k = some c → HasEntry x.vfs (proc k) backend sub shown x.content c (index k)
  apart : ∀ k c c', x.client k = some c → x.client (!k) = some c' → index k ≠ index (!k) ∧ (proc k, c.fd.toNat) ≠ (proc (!k), c'.fd.toNat)
  alone : ∀ k c c', x.client k = some c → x.client (!k) = some c' → c.wrote = true → c'.stale = true
  clean : (∀ k c, x.client k = some c → (x.vfs.openFiles (index k)).dirty = false) → shown = x.content

/-- A client that another one's call leaves alone. -/
theorem HasEntry.frame {s s' : Vfs FatVolumes RegularFile} {p : Nat} {shown' content content' : List UInt8}
    (h : HasEntry s p backend sub shown content c i) (hlookup : fdLookup s' p c.fd = fdLookup s p c.fd) (hfile : s'.openFiles i = s.openFiles i)
    (hsame : c.stale = false → shown' = shown ∧ content' = content) : HasEntry s' p backend sub shown' content' c i := by
  obtain ⟨snapshot, e, hentry, hcurrent⟩ := h.entry
  refine ⟨hlookup.trans h.lookup, h.index, hfile ▸ h.flags, hfile ▸ h.mode, ⟨snapshot, e, hfile ▸ hentry, fun hstale => ?_⟩, hfile ▸ h.dirty, h.fresh⟩
  obtain ⟨rfl, rfl⟩ := hsame hstale
  exact hfile ▸ hcurrent hstale

/-- A client whose snapshot another one's write has made stale; it has not written itself. -/
theorem HasEntry.madeStale {s s' : Vfs FatVolumes RegularFile} {p : Nat} {content content' : List UInt8} (h : HasEntry s p backend sub shown content c i)
    (hquiet : c.wrote = false) (hlookup : fdLookup s' p c.fd = fdLookup s p c.fd) (hfile : s'.openFiles i = s.openFiles i) :
    HasEntry s' p backend sub shown content' { c with stale := true } i := by
  obtain ⟨snapshot, e, hentry, -⟩ := h.entry
  refine ⟨hlookup.trans h.lookup, h.index, hfile ▸ h.flags, hfile ▸ h.mode, ⟨snapshot, e, hfile ▸ hentry, fun hstale => ?_⟩, hfile ▸ h.dirty, fun hwrote => ?_⟩
  · exact absurd hstale.symm Bool.false_ne_true
  · exact absurd (hquiet.symm.trans hwrote) Bool.false_ne_true

/-- The invariant from where one of the two stands. -/
theorem Agrees.of_views (k : Bool) {me other : Option Client} (hme : x.client k = me) (hother : x.client (!k) = other)
    (hkept : FileKept x.vfs.fs backend sub shown room) (hle : shown.length ≤ x.content.length) (hhung : x.vfs.fs.hung = false)
    (hmine : ∀ c, me = some c → HasEntry x.vfs (proc k) backend sub shown x.content c (index k))
    (htheirs : ∀ c, other = some c → HasEntry x.vfs (proc !k) backend sub shown x.content c (index !k))
    (hapart : ∀ c c', me = some c → other = some c' → index k ≠ index (!k) ∧ (proc k, c.fd.toNat) ≠ (proc (!k), c'.fd.toNat))
    (halone : ∀ c c', me = some c → other = some c' → (c.wrote = true → c'.stale = true) ∧ (c'.wrote = true → c.stale = true))
    (hclean : (∀ c, me = some c → (x.vfs.openFiles (index k)).dirty = false) → (∀ c, other = some c → (x.vfs.openFiles (index !k)).dirty = false) →
      shown = x.content) : Agrees proc backend sub room x shown index := by
  subst hme hother
  refine ⟨hkept, hle, hhung, fun j c hc => ?_, fun j c c' hc hc' => ?_, fun j c c' hc hc' => ?_, fun hall => hclean (hall k) (hall !k)⟩
  all_goals obtain rfl | rfl := Bool.eq_or_eq_not j k
  · exact hmine c hc
  · exact htheirs c hc
  · exact hapart c c' hc hc'
  · rw [Bool.not_not] at hc' ⊢
    obtain ⟨hindex, hslot⟩ := hapart c' c hc' hc
    exact ⟨hindex.symm, hslot.symm⟩
  · exact (halone c c' hc hc').1
  · rw [Bool.not_not] at hc'
    exact (halone c' c hc' hc).2

/-! ### Reading and seeking -/

/-- A call that moves the position of a client and nothing else. -/
theorem Agrees.moved (h : Agrees proc backend sub room x shown index) (hc : x.client k = some c) {pos : Nat} {f : VfsFile RegularFile}
    (hflags : f.flags = (x.vfs.openFiles (index k)).flags) (hmode : f.mode = (x.vfs.openFiles (index k)).mode)
    (hdirty : f.dirty = (x.vfs.openFiles (index k)).dirty)
    (hentry : ∃ snapshot e, EntryOf f backend sub snapshot e ∧ (c.stale = false → snapshot = shown ∧ e = x.content ∧ f.pos = pos)) :
    Agrees proc backend sub room ⟨x.vfs.setFile (index k) f, x.content, Function.update x.client k (some { c with pos := pos })⟩ shown index := by
  have hfile : (x.vfs.setFile (index k) f).openFiles (index k) = f := Function.update_self _ _ _
  have hothers : ∀ o, x.client (!k) = some o → (x.vfs.setFile (index k) f).openFiles (index !k) = x.vfs.openFiles (index !k) := fun o ho =>
    Function.update_of_ne (h.apart k c o hc ho).1.symm _ _
  have hold := h.client k c hc
  refine .of_views k (Function.update_self _ _ _) (Function.update_of_ne (by simp) _ _) h.kept h.length_le h.hung ?_ ?_ ?_ ?_ ?_
  · rintro _ ⟨rfl⟩
    refine ⟨hold.lookup, hold.index, ?_, ?_, ?_, ?_, hold.fresh⟩
    all_goals rw [hfile]
    · exact hflags.trans hold.flags
    · exact hmode.trans hold.mode
    · exact hentry
    · rw [hdirty, hmode]
      exact hold.dirty
  · exact fun o ho => (h.client _ o ho).frame rfl (hothers o ho) fun _ => ⟨rfl, rfl⟩
  · rintro _ o ⟨rfl⟩ ho
    exact h.apart k c o hc ho
  · rintro _ o ⟨rfl⟩ ho
    exact ⟨h.alone k c o hc ho, h.alone (!k) o c ho (by rwa [Bool.not_not])⟩
  · intro hme hother
    apply h.clean
    intro j o ho
    obtain rfl | rfl := Bool.eq_or_eq_not j k
    · rw [← hdirty, ← hfile]
      exact hme _ rfl
    · rw [← hothers o ho]
      exact hother o ho

variable (resolve) in
theorem Agrees.read (h : Agrees proc backend sub room x shown index) (hfat : IsFat backend) (hc : x.client k = some c) (count : Nat)
    (hcurrent : flagsToMode c.flags &&& vfsModeRead ≠ 0 → c.stale = false) :
    (vfsRead (fatBackends resolve) x.vfs (proc k) c.fd count).1 = x.bytesAt c count ∧
      Agrees proc backend sub room (x.read (fatBackends resolve) proc k c count) shown index := by
  have hold := h.client k c hc
  rw [Shared.read, Shared.bytesAt]
  by_cases hmode : flagsToMode c.flags &&& vfsModeRead = 0
  · have hread : vfsRead (fatBackends resolve) x.vfs (proc k) c.fd count = ([], x.vfs) := by
      simp only [vfsRead, hold.lookup, hold.mode, hmode, if_true]
    have hself : x.vfs = x.vfs.setFile (index k) (x.vfs.openFiles (index k)) := by rw [Vfs.setFile, Function.update_eq_self]
    rw [hread, if_pos hmode]
    refine ⟨rfl, ?_⟩
    have hmoved := h.moved hc (f := x.vfs.openFiles (index k)) rfl rfl rfl hold.entry
    rw [← hself] at hmoved
    exact hmoved
  · have hstale := hcurrent hmode
    obtain ⟨snapshot, e, hentry, hcurrent⟩ := hold.entry
    obtain ⟨hsnapshot, rfl, hpos⟩ := hcurrent hstale
    obtain ⟨f, hread, hflags, hfmode, hdirty, hfpos, hfentry⟩ :=
      vfsRead_entry resolve hold.lookup hentry hfat (hold.mode ▸ hmode) count
    rw [hpos] at hread hfpos
    rw [hread, if_neg hmode]
    exact ⟨rfl, h.moved hc hflags hfmode hdirty ⟨snapshot, x.content, hfentry, fun _ => ⟨hsnapshot, rfl, hfpos⟩⟩⟩

theorem Agrees.seek (h : Agrees proc backend sub room x shown index) (hfat : IsFat backend) (hc : x.client k = some c) (offset : Nat) (whence : Int) :
    Agrees proc backend sub room (x.seek proc k c offset whence) shown index := by
  have hold := h.client k c hc
  obtain ⟨snapshot, e, hentry, hcurrent⟩ := hold.entry
  obtain ⟨f, hseek, hflags, hmode, hdirty, hpos, hfentry⟩ := vfsSeek_entry hold.lookup hentry hfat offset whence
  rw [Shared.seek, hseek]
  refine h.moved hc hflags hmode hdirty ⟨snapshot, e, hfentry, fun hstale => ?_⟩
  obtain ⟨hsnapshot, rfl, hcpos⟩ := hcurrent hstale
  rw [hcpos] at hpos
  exact ⟨hsnapshot, rfl, hpos⟩

/-! ### Writing -/

variable (resolve) in
theorem Agrees.write (h : Agrees proc backend sub room x shown index) (hfat : IsFat backend) (hc : x.client k = some c) (src : List UInt8)
    (hcurrent : flagsToMode c.flags &&& vfsModeWrite ≠ 0 → c.stale = false) :
    Agrees proc backend sub room (x.write (fatBackends resolve) proc k c src) shown index := by
  have hold := h.client k c hc
  by_cases hmode : flagsToMode c.flags &&& vfsModeWrite = 0
  · have hwrite : vfsWrite (fatBackends resolve) x.vfs (proc k) c.fd src = (0, x.vfs) := by
      simp only [vfsWrite, hold.lookup, hold.mode, hmode, if_true]
    simp only [Shared.write, hwrite, if_pos hmode]
    exact h
  have hstale := hcurrent hmode
  obtain ⟨snapshot, e, hentry, hview⟩ := hold.entry
  obtain ⟨rfl, rfl, hpos⟩ := hview hstale
  obtain ⟨wr, f, vol, hwrite, hdisks, hflags, hfmode, hfpos, hfentry⟩ :=
    vfsWrite_entry resolve hold.lookup hentry hfat (hold.mode ▸ hmode) src
  have hstart : writeStart (x.vfs.openFiles (index k)) x.content = if c.flags &&& vfsOAppend ≠ 0 then x.content.length else c.pos := by
    rw [writeStart, hold.flags, hpos]
  have hle := writeStart_le hentry.pos
  rw [hstart] at hfpos hfentry hle
  simp only [Shared.write, hwrite, if_neg hmode]
  generalize (if c.flags &&& vfsOAppend ≠ 0 then x.content.length else c.pos) = start at hfpos hfentry hle ⊢
  have hfile : (x.vfs.setFile (index k) f).openFiles (index k) = f := Function.update_self _ _ _
  have hothers : ∀ o, x.client (!k) = some o → (x.vfs.setFile (index k) f).openFiles (index !k) = x.vfs.openFiles (index !k) := fun o ho =>
    Function.update_of_ne (h.apart k c o hc ho).1.symm _ _
  have hquiet : ∀ o, x.client (!k) = some o → o.wrote = false := by
    intro o ho
    by_contra hwrote
    have := h.alone (!k) o c ho (by rwa [Bool.not_not]) (by simpa using hwrote)
    rw [hstale] at this
    exact absurd this (by decide)
  have htheirs : Function.update (Function.update x.client (!k) ((x.client !k).map fun o => { o with stale := true })) k
      (some { c with pos := start + wr, wrote := true }) (!k) = (x.client !k).map fun o => { o with stale := true } := by
    rw [Function.update_of_ne (by simp), Function.update_self]
  refine .of_views k (Function.update_self _ _ _) htheirs (h.kept.same hdisks) ?_ (hdisks.hung.trans h.hung) ?_ ?_ ?_ ?_ ?_
  · simp only
    rw [Lib.length_overlay hle]
    exact h.length_le.trans (Nat.le_max_left _ _)
  · rintro _ ⟨rfl⟩
    refine ⟨hold.lookup, hold.index, ?_, ?_, ⟨snapshot, _, ?_, fun _ => ⟨rfl, rfl, ?_⟩⟩, fun _ => ⟨rfl, ?_⟩, fun _ => hstale⟩
    all_goals simp only [hfile]
    · exact hflags.trans hold.flags
    · exact hfmode.trans hold.mode
    · exact hfentry
    · exact hfpos
    · rw [hfmode, hold.mode]
      exact hmode
  · intro o' hmap
    obtain ⟨o, ho, rfl⟩ := Option.map_eq_some_iff.mp hmap
    exact (h.client _ o ho).madeStale (hquiet o ho) rfl (hothers o ho)
  · rintro _ o' ⟨rfl⟩ hmap
    obtain ⟨o, ho, rfl⟩ := Option.map_eq_some_iff.mp hmap
    exact h.apart k c o hc ho
  · rintro _ o' ⟨rfl⟩ hmap
    obtain ⟨o, ho, rfl⟩ := Option.map_eq_some_iff.mp hmap
    refine ⟨fun _ => rfl, fun hwrote => ?_⟩
    rw [hquiet o ho] at hwrote
    exact absurd hwrote (by decide)
  · intro hme _
    have hdirty := hme _ rfl
    simp only [hfile] at hdirty
    exact (hfentry.clean hdirty).symm

/-! ### Closing -/

/-- What the volume shows behind a close: what it has shown, or the array that has been flushed. -/
theorem ClosedAs.kept {f : VfsFile RegularFile} {e content : List UInt8} {vol vol' : FatVolumes} (h : ClosedAs f backend sub shown e room vol vol')
    (hholds : f.regular.Holds e) (hkept : FileKept vol backend sub shown room) (hle : shown.length ≤ content.length)
    (hdirty : f.dirty = true → f.mode &&& vfsModeWrite ≠ 0 ∧ e = content ∧ content.length ≤ room) :
    ∃ shown', FileKept vol' backend sub shown' room ∧ shown'.length ≤ content.length ∧
      (shown' = shown ∧ f.dirty = false ∨ shown' = content ∧ f.dirty = true) := by
  cases hflag : f.dirty with
  | false => exact ⟨shown, h.clean (Or.inl hflag) ▸ hkept, hle, Or.inl ⟨rfl, rfl⟩⟩
  | true =>
      obtain ⟨hmode, rfl, hfits⟩ := hdirty hflag
      have hflushed := h.flushed hflag hmode
      refine ⟨e, ?_, le_rfl, Or.inr ⟨rfl, rfl⟩⟩
      by_cases hnull : backend = .fat12 ∧ f.regular.buf = none
      · have hnil := hholds.nil_of_null hnull.2
        rw [hnil] at hle ⊢
        rw [← List.eq_nil_of_length_eq_zero (Nat.le_zero.mp hle)]
        exact hflushed.null hnull.1 hnull.2
      · exact hflushed.fits (fun hfat hnone => hnull ⟨hfat, hnone⟩) hfits

variable (resolve) in
theorem Agrees.close (h : Agrees proc backend sub room x shown index) (hfat : IsFat backend) (hc : x.client k = some c)
    (hcurrent : c.wrote = true → x.content.length ≤ room) : ∃ f shown', Agrees proc backend sub room (x.close (fatBackends resolve) proc k c) shown' index ∧
      (vfsClose (fatBackends resolve) x.vfs (proc k) c.fd).openFiles (index k) = f ∧ f.used = false ∧
      (vfsClose (fatBackends resolve) x.vfs (proc k) c.fd).fds (proc k, c.fd.toNat) = none := by
  have hold := h.client k c hc
  obtain ⟨snapshot, e, hentry, hview⟩ := hold.entry
  obtain ⟨f, vol, hclose, hunused, hclosed⟩ := vfsClose_entry resolve hold.lookup hentry hfat h.kept
  obtain ⟨shown', hkept, hle, hshown⟩ := hclosed.kept hentry.holds h.kept h.length_le fun hdirty => by
    obtain ⟨hwrote, hmode⟩ := hold.dirty hdirty
    exact ⟨hmode, (hview (hold.fresh hwrote)).2.1, hcurrent hwrote⟩
  have hothers : ∀ o, x.client (!k) = some o → ((x.vfs.setFd (proc k) c.fd.toNat none).setFile (index k) f).openFiles (index !k) =
      x.vfs.openFiles (index !k) := fun o ho => Function.update_of_ne (h.apart k c o hc ho).1.symm _ _
  have hlookups : ∀ o, x.client (!k) = some o → fdLookup ((x.vfs.setFd (proc k) c.fd.toNat none).setFile (index k) f) (proc !k) o.fd =
      fdLookup x.vfs (proc !k) o.fd := by
    intro o ho
    simp only [fdLookup, Vfs.setFd, Vfs.setFile]
    rw [Function.update_of_ne (h.apart k c o hc ho).2.symm]
  refine ⟨f, shown', ?_, ?_, hunused, ?_⟩
  · rw [Shared.close, hclose]
    refine .of_views k (Function.update_self _ _ _) (Function.update_of_ne (by simp) _ _) hkept hle (hclosed.hung.trans h.hung) ?_ ?_ ?_ ?_ ?_
    · exact fun o ho => absurd ho.symm (Option.some_ne_none o)
    · intro o ho
      refine (h.client _ o ho).frame (hlookups o ho) (hothers o ho) fun hfresh => ?_
      obtain ⟨rfl, -⟩ | ⟨-, hdirty⟩ := hshown
      · exact ⟨rfl, rfl⟩
      · have hstale := h.alone k c o hc ho (hold.dirty hdirty).1
        exact absurd (hfresh.symm.trans hstale) Bool.false_ne_true
    · exact fun o _ ho => absurd ho.symm (Option.some_ne_none o)
    · exact fun o _ ho => absurd ho.symm (Option.some_ne_none o)
    · intro _ hall
      obtain ⟨rfl, hdirty⟩ | ⟨rfl, -⟩ := hshown
      · apply h.clean
        intro j o ho
        obtain rfl | rfl := Bool.eq_or_eq_not j k
        · exact hdirty
        · rw [← hothers o ho]
          exact hall o ho
      · rfl
  · rw [hclose]
    exact Function.update_self _ _ _
  · rw [hclose]
    exact Function.update_self _ _ _

/-! ### Opening -/

/-- The state behind an open, from what the other client has. -/
theorem OpenState.agrees {s' : Vfs FatVolumes RegularFile} {flags : BitVec 32} {fd : Int} {o : Opened RegularFile}
    (hstate : OpenState x.vfs (proc k) backend sub flags fd i o s') (hfields : OpenedAs flags shown o) (htrunc : flags &&& vfsOTrunc = 0)
    (hkept : FileKept s'.fs backend sub shown room) (hhung : s'.fs.hung = false) (hle : shown.length ≤ x.content.length)
    (htheirs : ∀ c, x.client (!k) = some c → HasEntry x.vfs (proc !k) backend sub shown x.content c (index !k))
    (hclean : (∀ c, x.client (!k) = some c → (x.vfs.openFiles (index !k)).dirty = false) → shown = x.content) :
    Agrees proc backend sub room ⟨s', x.content, Function.update x.client k
      (some ⟨fd, flags, if flags &&& vfsOAppend ≠ 0 then x.content.length else 0, false, (x.client !k).any (·.wrote)⟩)⟩ shown (Function.update index k i) := by
  have hcontents : openContents flags shown = shown := if_neg (not_not_intro htrunc)
  have hentry := hfields.entry backend sub
  have hpos := hfields.pos
  rw [hcontents] at hentry hpos
  have hclean' : (x.client !k).any (·.wrote) = false → shown = x.content := by
    intro hquiet
    refine hclean fun c hc => Bool.eq_false_iff.mpr fun hdirty => ?_
    rw [hc, Option.any_some, ((htheirs c hc).dirty hdirty).1] at hquiet
    exact absurd hquiet.symm Bool.false_ne_true
  have hdirty : (openedFile backend sub flags o).dirty = false := by
    rw [show (openedFile backend sub flags o).dirty = o.dirty from rfl, hfields.dirty]
    exact decide_eq_false (not_not_intro htrunc)
  have hindex : Function.update index k i (!k) = index (!k) := Function.update_of_ne (by simp) _ _
  have hapart : ∀ c, x.client (!k) = some c → i ≠ index (!k) ∧ (proc k, fd.toNat) ≠ (proc (!k), c.fd.toNat) := by
    intro c hc
    have htheir := htheirs c hc
    constructor
    · intro heq
      obtain ⟨_, _, hheld, _⟩ := htheir.entry
      exact absurd (hstate.free.symm.trans ((congrArg (fun j => (x.vfs.openFiles j).used) heq).trans hheld.used)) Bool.false_ne_true
    · intro heq
      obtain ⟨-, -, hslot⟩ := fdLookup_eq_some htheir.lookup
      exact absurd (hslot.symm.trans (heq ▸ hstate.empty)) (Option.some_ne_none _)
  have hfiles : ∀ c, x.client (!k) = some c → s'.openFiles (index !k) = x.vfs.openFiles (index !k) := fun c hc => by
    rw [hstate.files, Function.update_of_ne (hapart c hc).1.symm]
  refine .of_views k (Function.update_self _ _ _) (Function.update_of_ne (by simp) _ _) hkept hle hhung ?_ ?_ ?_ ?_ ?_
  · rintro _ ⟨rfl⟩
    rw [Function.update_self]
    refine ⟨hstate.lookup, hstate.index, ?_, ?_, ⟨shown, shown, ?_, fun hfresh => ?_⟩, fun hset => ?_, fun hwrote => absurd hwrote Bool.false_ne_true⟩
    · rw [hstate.file]
      rfl
    · rw [hstate.file]
      exact hfields.mode
    · rw [hstate.file]
      exact hentry
    · refine ⟨rfl, hclean' hfresh, ?_⟩
      rw [hstate.file, ← hclean' hfresh]
      exact hpos
    · rw [hstate.file] at hset
      exact absurd (hdirty.symm.trans hset) Bool.false_ne_true
  · intro c hc
    rw [hindex]
    refine (htheirs c hc).frame ?_ (hfiles c hc) fun _ => ⟨rfl, rfl⟩
    simp only [fdLookup, hstate.fds]
    rw [Function.update_of_ne (hapart c hc).2.symm]
  · rintro _ c ⟨rfl⟩ hc
    rw [Function.update_self, hindex]
    exact hapart c hc
  · rintro _ c ⟨rfl⟩ hc
    refine ⟨fun hwrote => absurd hwrote Bool.false_ne_true, fun hwrote => ?_⟩
    simp only
    rw [hc, Option.any_some, hwrote]
  · intro _ hall
    refine hclean fun c hc => ?_
    have := hall c hc
    rwa [hindex, hfiles c hc] at this

/-! ### Runs -/

/-- Before the first open there may be no file yet. -/
def SharedInv (proc : Bool → Nat) (backend : VfsBackend) (sub : List UInt8) (room : Nat) (x : Shared) : Prop :=
  (∃ shown index, Agrees proc backend sub room x shown index) ∨
    ((∀ k, x.client k = none) ∧ FatFileAt x.vfs.fs backend sub x.content room ∧ x.vfs.fs.hung = false ∧ x.content.length ≤ room)

theorem SharedInv.openFile {flags : BitVec 32} (h : SharedInv proc backend sub room x) (hfat : IsFat backend)
    (hresolve : resolve (proc k) (path k) = some (m k, sub)) (hbackend : (m k).backend = backend)
    (hopens : x.Opens (fatBackends resolve) proc path (k, .openFile flags)) :
    SharedInv proc backend sub room (x.openFile (fatBackends resolve) proc path k flags) := by
  obtain ⟨hnone, htrunc, hnonneg⟩ := hopens
  subst hbackend
  rw [Shared.openFile]
  generalize hopen : vfsOpenFlags (fatBackends resolve) x.vfs (proc k) (some (path k)) flags = result at hnonneg
  obtain ⟨fd, s'⟩ := result
  obtain ⟨i, o, hstate⟩ := vfsOpen_entry hresolve hfat hopen hnonneg
  obtain ⟨shown, index, h⟩ | ⟨hall, hfile, hhung, hle⟩ := h
  · obtain ⟨hdisks, hfields⟩ := h.kept.shows.opened hstate.opened
    refine Or.inl ⟨shown, _, hstate.agrees hfields htrunc (h.kept.same hdisks) (hdisks.hung.trans h.hung) h.length_le (h.client !k) fun hquiet => ?_⟩
    apply h.clean
    intro j c hc
    obtain rfl | rfl := Bool.eq_or_eq_not j k
    · exact absurd (hnone.symm.trans hc) (Option.some_ne_none c).symm
    · exact hquiet c hc
  · obtain ⟨shown, hfields, hkept, hhung', hshown⟩ := hfile.opened hstate.opened
    obtain rfl : shown = x.content := hshown.resolve_right fun hlong => absurd hle (Nat.not_le.mpr hlong.2)
    obtain ⟨index⟩ : Nonempty (Bool → Nat) := inferInstance
    have htheirs : ∀ c, x.client (!k) = some c → HasEntry x.vfs (proc !k) (m k).backend sub x.content x.content c (index !k) := fun c hc =>
      absurd ((hall !k).symm.trans hc) (Option.some_ne_none c).symm
    exact Or.inl ⟨x.content, _, hstate.agrees hfields htrunc hkept (hhung'.trans hhung) le_rfl htheirs fun _ => rfl⟩

/-- A client that has a descriptor is past the first open. -/
theorem SharedInv.agrees (h : SharedInv proc backend sub room x) (hc : x.client k = some c) : ∃ shown index, Agrees proc backend sub room x shown index :=
  h.resolve_right fun hstart => absurd ((hstart.1 k).symm.trans hc) (Option.some_ne_none c).symm

theorem SharedInv.step {call : Bool × ClientCall} (h : SharedInv proc backend sub room x) (hfat : IsFat backend)
    (hresolve : ∀ k, resolve (proc k) (path k) = some (m k, sub)) (hbackend : ∀ k, (m k).backend = backend)
    (hopens : x.Opens (fatBackends resolve) proc path call) (hcurrent : x.Current room call) :
    SharedInv proc backend sub room (x.step (fatBackends resolve) proc path call) := by
  obtain ⟨k, call⟩ := call
  cases call with
  | openFile flags => exact h.openFile hfat (hresolve k) (hbackend k) hopens
  | write src =>
      rw [Shared.step]
      cases hc : x.client k with
      | none => exact h
      | some c =>
          obtain ⟨shown, index, h⟩ := h.agrees hc
          exact Or.inl ⟨shown, index, h.write resolve hfat hc src (hcurrent c hc)⟩
  | read count =>
      rw [Shared.step]
      cases hc : x.client k with
      | none => exact h
      | some c =>
          obtain ⟨shown, index, h⟩ := h.agrees hc
          exact Or.inl ⟨shown, index, (h.read resolve hfat hc count (hcurrent c hc)).2⟩
  | seek offset whence =>
      rw [Shared.step]
      cases hc : x.client k with
      | none => exact h
      | some c =>
          obtain ⟨shown, index, h⟩ := h.agrees hc
          exact Or.inl ⟨shown, index, h.seek hfat hc offset whence⟩
  | close =>
      rw [Shared.step]
      cases hc : x.client k with
      | none => exact h
      | some c =>
          obtain ⟨shown, index, h⟩ := h.agrees hc
          obtain ⟨-, shown', h', -⟩ := h.close resolve hfat hc (hcurrent c hc)
          exact Or.inl ⟨shown', index, h'⟩

theorem SharedInv.likeArray {call : Bool × ClientCall} (h : SharedInv proc backend sub room x) (hfat : IsFat backend)
    (hresolve : ∀ k, resolve (proc k) (path k) = some (m k, sub)) (hbackend : ∀ k, (m k).backend = backend) (hcurrent : x.Current room call) :
    x.LikeArray (fatBackends resolve) proc path call := by
  obtain ⟨k, call⟩ := call
  cases call with
  | read count =>
      intro c hc
      obtain ⟨shown, index, h⟩ := h.agrees hc
      exact (h.read resolve hfat hc count (hcurrent c hc)).1
  | close =>
      intro c hc hnone
      obtain ⟨shown, index, h⟩ := h.agrees hc
      obtain ⟨f, shown', h', hfile, hunused, hslot⟩ := h.close resolve hfat hc (hcurrent c hc)
      have hshown : shown' = x.content := h'.clean fun j o ho => by
        obtain rfl | rfl := Bool.eq_or_eq_not j k
        · exact absurd ho.symm (by simp [Shared.close])
        · exact absurd ho.symm (by simp [Shared.close, hnone])
      have hold := h.client k c hc
      refine ⟨h'.hung, (reopensAs_iff (hresolve k) ((hbackend k).symm ▸ hfat) hold.index (hfile ▸ hunused) (fdLookup_eq_some hold.lookup).1 hslot ?_).mpr hshown⟩
      rw [hbackend k]
      exact h'.kept.shows
  | openFile flags => trivial
  | write src => trivial
  | seek offset whence => trivial

/-- Two descriptors behave like one array with two positions, as long as no read or write goes through a stale snapshot and what is flushed fits the file. -/
theorem fat_descriptors_like_array {s : Vfs FatVolumes RegularFile} {content : List UInt8} (hresolve : ∀ k, resolve (proc k) (path k) = some (m k, sub))
    (hbackend : ∀ k, (m k).backend = backend) (hfile : FatFileAt s.fs backend sub content room) (hhung : s.fs.hung = false)
    (hfits : content.length ≤ room) (calls : List (Bool × ClientCall))
    (hopens : Lib.Allowed (Shared.Opens (fatBackends resolve) proc path) (Shared.step (fatBackends resolve) proc path) ⟨s, content, fun _ => none⟩ calls)
    (hcurrent : Lib.Allowed (Shared.Current room) (Shared.step (fatBackends resolve) proc path) ⟨s, content, fun _ => none⟩ calls) :
    Lib.Allowed (Shared.LikeArray (fatBackends resolve) proc path) (Shared.step (fatBackends resolve) proc path) ⟨s, content, fun _ => none⟩ calls :=
  have hstart : SharedInv proc backend sub room ⟨s, content, fun _ => none⟩ := Or.inr ⟨fun _ => rfl, hfile, hhung, hfits⟩
  Lib.allowed_of_invariant (fun _ _ h hok => h.step hfile.isFat hresolve hbackend hok.1 hok.2)
    (fun _ _ h hok => h.likeArray hfile.isFat hresolve hbackend hok.2) hstart (hopens.and hcurrent)

/-! ### Two clients of a small file -/

def smallProc (k : Bool) : Nat := if k then 1 else 2

def smallPath (_ : Bool) : List UInt8 := [66]

def smallShared : Shared := ⟨smallVfs, [7], fun _ => none⟩

def smallStep : Shared → Bool × ClientCall → Shared := Shared.step (fatBackends resolveSmall) smallProc smallPath

/-- A reader that reads before the other one writes. -/
def readThenWrite : List (Bool × ClientCall) :=
  [(true, .openFile 3), (false, .openFile 1), (false, .read 4), (true, .seek 1 vfsSeekSet), (true, .write [8]), (true, .close), (false, .close)]

theorem fat_descriptors_like_array_small : Lib.Allowed (Shared.LikeArray (fatBackends resolveSmall) smallProc smallPath) smallStep smallShared readThenWrite :=
  fat_descriptors_like_array (m := fun _ => ⟨.fat12, false⟩) (fun _ => rfl) (fun _ => rfl) smallVfs_file rfl (by decide) readThenWrite (by decide +kernel)
    (by decide +kernel)

/-- Both have the file open for reading and writing. The first one writes and closes, then the second one writes. -/
def writeBoth : List (Bool × ClientCall) :=
  [(true, .openFile 3), (false, .openFile 3), (true, .write [1, 1]), (true, .close), (false, .write [2])]

theorem not_likeArray_close {B : Backends FatVolumes RegularFile} (count : Nat) (hc : x.client k = some c) (hother : x.client (!k) = none)
    (hcount : x.content.length ≤ count)
    (hread : (vfsRead B (reopen B (vfsClose B x.vfs (proc k) c.fd) (proc k) (path k)).2 (proc k)
      (reopen B (vfsClose B x.vfs (proc k) c.fd) (proc k) (path k)).1 count).1 ≠ x.content) : ¬ x.LikeArray B proc path (k, .close) :=
  fun hlike => hread ((hlike c hc hother).2.2 count hcount)

/-- The close of the second one writes its snapshot over what the first one has written. -/
theorem fat_update_lost : FatFileAt smallShared.vfs.fs .fat12 [66] [7] 128 ∧
    Lib.Allowed (Shared.Opens (fatBackends resolveSmall) smallProc smallPath) smallStep smallShared (writeBoth ++ [(false, .close)]) ∧
    ¬ Lib.Allowed (Shared.LikeArray (fatBackends resolveSmall) smallProc smallPath) smallStep smallShared (writeBoth ++ [(false, .close)]) := by
  refine ⟨smallVfs_file, by decide +kernel, fun hlike => ?_⟩
  have hclient : (Lib.run smallStep smallShared writeBoth).client false = some ⟨0, 3, 1, true, true⟩ := by decide +kernel
  refine not_likeArray_close 2 hclient (by decide +kernel) (by decide +kernel) (by decide +kernel) (Lib.allowed_append.mp hlike).2.1

end Tsukasa
