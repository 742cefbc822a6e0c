import Mathlib.Logic.Function.Basic
import Tsukasa.Lib.Run

/-!
# Spinlocks on one CPU under interrupts

Code is reduced to what it does to spinlocks and to the interrupt flag. One CPU runs one of several processes; an interrupt pushes a frame on the stack of the process it finds, with interrupts off, and the frame that ends an interrupt of the scheduler goes on with any process. A spinlock is waited for without a change of the interrupt flag, so code that waits with interrupts off for a lock of a suspended frame waits for ever.

A run in which no interrupt is taken over a lock that its handler may take has no such state, whatever the code, if each piece of code releases what it takes and holds nothing where it raises an interrupt itself.
-/

namespace Lib

/-- What code does to spinlocks and to the interrupt flag: a branch on data is a `choice`, a loop on data a `loop`. -/
inductive LockCode (L : Type*) where
  | skip
  | lock (l : L)
  | unlock (l : L)
  /-- Save the interrupt flag and clear it. -/
  | irqSave
  | irqRestore
  /-- Raise the scheduler's interrupt. -/
  | softIrq
  /-- Go on with any process: the end of the scheduler's interrupt. -/
  | resume
  | seq (c d : LockCode L)
  | choice (c d : LockCode L)
  | loop (c : LockCode L)

namespace LockCode

variable {L : Type*} [DecidableEq L]

def seqs (cs : List (LockCode L)) : LockCode L := cs.foldr seq skip

def opt (c : LockCode L) : LockCode L := choice skip c

/-- A critical section. -/
def holding (l : L) (c : LockCode L) : LockCode L := seqs [lock l, c, unlock l]

/-- The locks that may be taken before the frame of the code is back on top with nothing done by other processes: once another process may run, any lock. -/
def takes (l : L) : LockCode L → Bool
  | lock m => l = m
  | softIrq | resume => true
  | seq c d | choice c d => c.takes l || d.takes l
  | loop c => c.takes l
  | skip | unlock _ | irqSave | irqRestore => false

/-- The locks held after the code, innermost first; `none` if it takes a lock twice, releases one that is not its innermost, or lets another process run with a lock held. -/
def after : LockCode L → List L → Option (List L)
  | lock l, held => if l ∈ held then none else some (l :: held)
  | unlock l, held => if held.head? = some l then some held.tail else none
  | softIrq, held | resume, held => if held = [] then some [] else none
  | seq c d, held => (c.after held).bind d.after
  | choice c d, held => if c.after held = d.after held then c.after held else none
  | loop c, held => if c.after held = some held then some held else none
  | skip, held | irqSave, held | irqRestore, held => some held

/-- The code releases what it takes. -/
def Balanced (c : LockCode L) : Prop := c.after [] = some []

instance (c : LockCode L) : Decidable c.Balanced := inferInstanceAs (Decidable (_ = _))

end LockCode

/-- A context of the CPU: the code it has still to run, its interrupt flag, the flags it has saved and the locks it holds. -/
structure LockFrame (L : Type*) where
  code : List (LockCode L)
  irqOn : Bool
  saved : List Bool
  held : List L

/-- The stack of each process, innermost frame first, the process on the CPU and the lock words. -/
structure LockCpu (L : Type*) where
  current : Nat
  frames : Nat → List (LockFrame L)
  word : L → Bool

/-- The running frame executes its next operation, where `pick` resolves a choice, or an interrupt is raised. -/
inductive CpuLabel (I : Type*) where
  | exec (pick : Nat)
  | irq (i : I)

namespace LockCpu

variable {L I : Type*}

def setStack (s : LockCpu L) (fs : List (LockFrame L)) : LockCpu L := { s with frames := Function.update s.frames s.current fs }

@[simp] theorem setStack_current (s : LockCpu L) (fs : List (LockFrame L)) : (s.setStack fs).current = s.current := rfl

@[simp] theorem setStack_word (s : LockCpu L) (fs : List (LockFrame L)) : (s.setStack fs).word = s.word := rfl

@[simp] theorem setStack_self (s : LockCpu L) (fs : List (LockFrame L)) : (s.setStack fs).frames s.current = fs :=
  Function.update_self _ _ _

theorem setStack_of_ne {s : LockCpu L} {q : Nat} (hq : q ≠ s.current) (fs : List (LockFrame L)) : (s.setStack fs).frames q = s.frames q :=
  Function.update_of_ne hq _ _

variable [DecidableEq L]

/-- The frame an interrupt pushes. -/
def handlerFrame (c : LockCode L) : LockFrame L := ⟨[c], false, [], []⟩

/-- The running frame executes its next operation. -/
def exec (handlers : I → LockCode L) (scheduler : I) (pick : Nat) (s : LockCpu L) : LockCpu L :=
  match s.frames s.current with
  | [] => s
  | f :: below =>
      match f.code with
      | [] => if below = [] then s else s.setStack below
      | .skip :: k => s.setStack ({ f with code := k } :: below)
      | .lock l :: k =>
          if s.word l then s
          else { s.setStack ({ f with code := k, held := l :: f.held } :: below) with word := Function.update s.word l true }
      | .unlock l :: k => { s.setStack ({ f with code := k, held := f.held.erase l } :: below) with word := Function.update s.word l false }
      | .irqSave :: k => s.setStack ({ f with code := k, irqOn := false, saved := f.irqOn :: f.saved } :: below)
      | .irqRestore :: k => s.setStack ({ f with code := k, irqOn := f.saved.headD false, saved := f.saved.tail } :: below)
      | .softIrq :: k => s.setStack (handlerFrame (handlers scheduler) :: { f with code := k } :: below)
      | .resume :: k => { s.setStack ({ f with code := k } :: below) with current := pick }
      | .seq c d :: k => s.setStack ({ f with code := c :: d :: k } :: below)
      | .choice c d :: k => s.setStack ({ f with code := (if pick = 0 then c else d) :: k } :: below)
      | .loop c :: k => s.setStack ({ f with code := if pick = 0 then k else c :: .loop c :: k } :: below)

/-- An interrupt that is masked changes nothing. -/
def interrupt (c : LockCode L) (s : LockCpu L) : LockCpu L :=
  match s.frames s.current with
  | [] => s
  | f :: below => if f.irqOn then s.setStack (handlerFrame c :: f :: below) else s

def step (handlers : I → LockCode L) (scheduler : I) (s : LockCpu L) : CpuLabel I → LockCpu L
  | .exec pick => s.exec handlers scheduler pick
  | .irq i => s.interrupt (handlers i)

/-- An interrupt is taken only over code that holds none of the watched locks its handler may take. -/
def Unheld (handlers : I → LockCode L) (watched : L → Bool) (s : LockCpu L) : CpuLabel I → Prop
  | .irq i => ∀ f ∈ (s.frames s.current).head?, f.irqOn = true → ∀ l ∈ f.held, watched l = true → (handlers i).takes l = false
  | .exec _ => True

instance (handlers : I → LockCode L) (watched : L → Bool) (s : LockCpu L) (a : CpuLabel I) : Decidable (s.Unheld handlers watched a) :=
  match a with
  | .irq i => inferInstanceAs (Decidable (∀ f ∈ (s.frames s.current).head?, f.irqOn = true → ∀ l ∈ f.held, watched l = true → (handlers i).takes l = false))
  | .exec _ => inferInstanceAs (Decidable True)

/-! ### Code that releases what it takes -/

end LockCpu

namespace LockFrame

variable {L : Type*} [DecidableEq L] {f : LockFrame L} {c d : LockCode L} {k : List (LockCode L)} {l : L}

/-- The frame has released everything when its code ends. -/
def Releases (f : LockFrame L) : Prop := f.code.foldlM (fun held c => c.after held) f.held = some []

def Takes (f : LockFrame L) (l : L) : Prop := ∃ c ∈ f.code, c.takes l = true

/-- The interrupt flag is off and stays off. -/
def Masked (f : LockFrame L) : Prop := f.irqOn = false ∧ ∀ b ∈ f.saved, b = false

theorem Releases.head (h : f.Releases) (hcode : f.code = c :: k) :
    ∃ held, c.after f.held = some held ∧ k.foldlM (fun held c => c.after held) held = some [] := by
  rw [Releases, hcode, List.foldlM_cons] at h
  exact Option.bind_eq_some_iff.mp h

/-- An operation on the interrupt flag holds what was held. -/
theorem Releases.same {g : LockFrame L} (h : f.Releases) (hcode : f.code = c :: k) (hsame : c.after f.held = some g.held) (hrest : g.code = k) :
    g.Releases := by
  obtain ⟨held, hhead, hk⟩ := h.head hcode
  rw [Releases, hrest, ← Option.some.inj (hhead.symm.trans hsame)]
  exact hk

theorem Releases.lock (h : f.Releases) (hcode : f.code = .lock l :: k) : Releases { f with code := k, held := l :: f.held } := by
  obtain ⟨held, hhead, hrest⟩ := h.head hcode
  simp only [LockCode.after] at hhead
  split at hhead
  · exact absurd hhead.symm (Option.some_ne_none _)
  · rw [← Option.some.inj hhead] at hrest
    exact hrest

theorem Releases.unlock (h : f.Releases) (hcode : f.code = .unlock l :: k) : Releases { f with code := k, held := f.held.erase l } := by
  obtain ⟨held, hhead, hrest⟩ := h.head hcode
  simp only [LockCode.after] at hhead
  split at hhead
  · rename_i hfirst
    rw [← Option.some.inj hhead] at hrest
    obtain ⟨rest, hheld⟩ := List.head?_eq_some_iff.mp hfirst
    rw [hheld, List.tail_cons] at hrest
    rw [Releases, hheld, List.erase_cons_head]
    exact hrest
  · exact absurd hhead.symm (Option.some_ne_none _)

theorem Releases.seq (h : f.Releases) (hcode : f.code = .seq c d :: k) : Releases { f with code := c :: d :: k } := by
  obtain ⟨held, hhead, hrest⟩ := h.head hcode
  obtain ⟨between, hc, hd⟩ := Option.bind_eq_some_iff.mp hhead
  simp only [Releases, List.foldlM_cons, hc, hd, hrest, Option.bind_eq_bind, Option.bind_some]

theorem Releases.choice (h : f.Releases) (hcode : f.code = .choice c d :: k) (left : Bool) :
    Releases { f with code := (if left then c else d) :: k } := by
  obtain ⟨held, hhead, hrest⟩ := h.head hcode
  simp only [LockCode.after] at hhead
  split at hhead
  · rename_i hsame
    have hpick : (if left then c else d).after f.held = some held := by
      cases left
      · exact hsame ▸ hhead
      · exact hhead
    rw [Releases, List.foldlM_cons, hpick]
    exact hrest
  · exact absurd hhead.symm (Option.some_ne_none _)

theorem Releases.loop (h : f.Releases) (hcode : f.code = .loop c :: k) (stop : Bool) :
    Releases { f with code := if stop then k else c :: .loop c :: k } := by
  obtain ⟨held, hhead, hrest⟩ := h.head hcode
  have hloop := hhead
  simp only [LockCode.after] at hhead
  split at hhead
  · rename_i hsame
    obtain rfl := Option.some.inj hhead
    cases stop
    · simp only [Releases, Bool.false_eq_true, if_false, List.foldlM_cons, hsame, hloop, Option.bind_eq_bind, Option.bind_some, hrest]
    · exact hrest
  · exact absurd hhead.symm (Option.some_ne_none _)

/-- Nothing is held where another process may run. -/
theorem Releases.free (h : f.Releases) (hcode : f.code = .softIrq :: k ∨ f.code = .resume :: k) :
    f.held = [] ∧ Releases { f with code := k } := by
  have hhead : ∃ held, (if f.held = [] then some [] else none) = some held ∧ k.foldlM (fun held c => c.after held) held = some [] := by
    obtain hcode | hcode := hcode
    · exact h.head hcode
    · exact h.head hcode
  obtain ⟨held, hif, hrest⟩ := hhead
  split at hif
  · rename_i hnone
    rw [← Option.some.inj hif] at hrest
    refine ⟨hnone, ?_⟩
    rw [Releases, hnone]
    exact hrest
  · exact absurd hif.symm (Option.some_ne_none _)

theorem takes_of_head (hcode : f.code = c :: k) (hc : c.takes l = true) : f.Takes l :=
  ⟨c, hcode ▸ List.mem_cons_self, hc⟩

/-- An operation leaves the frame with nothing more to take. -/
theorem Takes.of_rest {g : LockFrame L} (hcode : f.code = c :: k) (hrest : ∀ d ∈ g.code, d ∈ k ∨ (d.takes l = true → c.takes l = true))
    (htakes : g.Takes l) : f.Takes l := by
  obtain ⟨d, hd, hl⟩ := htakes
  obtain hk | hc := hrest d hd
  · exact ⟨d, hcode ▸ List.mem_cons_of_mem c hk, hl⟩
  · exact takes_of_head hcode (hc hl)

end LockFrame

namespace LockCpu

variable {L I : Type*} [DecidableEq L] {handlers : I → LockCode L} {scheduler : I} {watched : L → Bool} {s : LockCpu L} {f : LockFrame L}
  {below : List (LockFrame L)} {c : LockCode L} {k : List (LockCode L)} {l : L}

/-- The frames of a stack hold nothing that a frame above them may take, and only the lowest may be interrupted. -/
def Stacked (watched : L → Bool) : List (LockFrame L) → Prop
  | [] => True
  | f :: below => f.Releases ∧ (∀ g ∈ below, ∀ l ∈ g.held, watched l = true → ¬ f.Takes l) ∧ (below ≠ [] → f.Masked) ∧ Stacked watched below

/-- A process that is not on the CPU holds none of the watched locks. -/
structure Orderly (watched : L → Bool) (s : LockCpu L) : Prop where
  stacked : ∀ q, Stacked watched (s.frames q)
  suspended : ∀ q ≠ s.current, ∀ f ∈ s.frames q, ∀ l ∈ f.held, watched l = false

/-- The running stack is replaced by one of the same kind. -/
theorem Orderly.setStack (h : s.Orderly watched) {fs : List (LockFrame L)} (hfs : Stacked watched fs) : (s.setStack fs).Orderly watched := by
  refine ⟨fun q => ?_, fun q hq => ?_⟩
  · by_cases hq : q = s.current
    · rw [hq, setStack_self]
      exact hfs
    · rw [setStack_of_ne hq]
      exact h.stacked q
  · rw [setStack_current] at hq
    rw [setStack_of_ne hq]
    exact h.suspended q hq

theorem Orderly.setWord (h : s.Orderly watched) (w : L → Bool) : Orderly watched { s with word := w } :=
  ⟨h.stacked, h.suspended⟩

/-- Another process may run when the running stack holds nothing. -/
theorem Orderly.resume (h : s.Orderly watched) (hfree : ∀ f ∈ s.frames s.current, ∀ l ∈ f.held, watched l = false) (q : Nat) :
    Orderly watched { s with current := q } := by
  refine ⟨h.stacked, fun p _ => ?_⟩
  by_cases hp : p = s.current
  · rw [hp]
    exact hfree
  · exact h.suspended p hp

/-- The top frame is replaced by one that may take no more. -/
theorem Stacked.top {g : LockFrame L} (h : Stacked watched (f :: below)) (hreleases : g.Releases) (htakes : ∀ l, g.Takes l → f.Takes l)
    (hmasked : f.Masked → g.Masked) : Stacked watched (g :: below) :=
  ⟨hreleases, fun b hb l hl hw ht => h.2.1 b hb l hl hw (htakes l ht), fun hne => hmasked (h.2.2.1 hne), h.2.2.2⟩

/-- Under code that may let another process run, nothing is held. -/
theorem Stacked.free (h : Stacked watched (f :: below)) (hcode : f.code = .softIrq :: k ∨ f.code = .resume :: k) :
    ∀ g ∈ f :: below, ∀ l ∈ g.held, watched l = false := by
  have htakes : ∀ l, f.Takes l := by
    intro l
    obtain hcode | hcode := hcode
    · exact LockFrame.takes_of_head hcode rfl
    · exact LockFrame.takes_of_head hcode rfl
  intro g hg l hl
  obtain rfl | hbelow := List.mem_cons.mp hg
  · rw [(h.1.free hcode).1] at hl
    exact absurd hl (List.not_mem_nil)
  · by_contra hw
    exact h.2.1 g hbelow l hl (Bool.not_eq_false _ ▸ hw) (htakes l)

theorem stacked_handler (hbalanced : c.Balanced) (hbelow : ∀ g ∈ below, ∀ l ∈ g.held, watched l = true → c.takes l = false)
    (h : Stacked watched below) : Stacked watched (handlerFrame c :: below) := by
  refine ⟨?_, fun g hg l hl hw htakes => ?_, fun _ => ⟨rfl, fun b hb => absurd hb List.not_mem_nil⟩, h⟩
  · simp only [LockFrame.Releases, handlerFrame, List.foldlM_cons, List.foldlM_nil]
    rw [hbalanced]
    rfl
  · obtain ⟨d, hd, hl'⟩ := htakes
    rw [List.mem_singleton.mp hd, hbelow g hg l hl hw] at hl'
    exact Bool.false_ne_true hl'

theorem Orderly.exec (h : s.Orderly watched) (hbalanced : (handlers scheduler).Balanced) (pick : Nat) :
    (s.exec handlers scheduler pick).Orderly watched := by
  have hstacked := h.stacked s.current
  simp only [LockCpu.exec]
  split
  · exact h
  rename_i f below hstack
  rw [hstack] at hstacked
  have hreleases := hstacked.1
  split
  · split
    · exact h
    · exact h.setStack hstacked.2.2.2
  · rename_i k hcode
    exact h.setStack (hstacked.top (hreleases.same hcode rfl rfl) (fun l => LockFrame.Takes.of_rest hcode fun d hd => Or.inl hd) id)
  · rename_i l k hcode
    split
    · exact h
    · exact (h.setStack (hstacked.top (hreleases.lock hcode) (fun l => LockFrame.Takes.of_rest hcode fun d hd => Or.inl hd) id)).setWord _
  · rename_i l k hcode
    exact (h.setStack (hstacked.top (hreleases.unlock hcode) (fun l => LockFrame.Takes.of_rest hcode fun d hd => Or.inl hd) id)).setWord _
  · rename_i k hcode
    refine h.setStack (hstacked.top (hreleases.same hcode rfl rfl) (fun l => LockFrame.Takes.of_rest hcode fun d hd => Or.inl hd) fun hmasked => ⟨rfl, ?_⟩)
    intro b hb
    obtain rfl | hsaved := List.mem_cons.mp hb
    · exact hmasked.1
    · exact hmasked.2 b hsaved
  · rename_i k hcode
    refine h.setStack (hstacked.top (hreleases.same hcode rfl rfl) (fun l => LockFrame.Takes.of_rest hcode fun d hd => Or.inl hd) fun hmasked => ⟨?_, ?_⟩)
    · cases hsaved : f.saved with
      | nil => rfl
      | cons b bs => exact hmasked.2 b (hsaved ▸ List.mem_cons_self)
    · exact fun b hb => hmasked.2 b (List.mem_of_mem_tail hb)
  · rename_i k hcode
    have hfree := hstacked.free (Or.inl hcode)
    have htop : Stacked watched ({ f with code := k } :: below) :=
      hstacked.top (hreleases.free (Or.inl hcode)).2 (fun l => LockFrame.Takes.of_rest hcode fun d hd => Or.inl hd) id
    refine h.setStack (stacked_handler hbalanced (fun g hg l hl hw => ?_) htop)
    have hnone : watched l = false := by
      obtain rfl | hbelow := List.mem_cons.mp hg
      · exact hfree f List.mem_cons_self l hl
      · exact hfree g (List.mem_cons_of_mem f hbelow) l hl
    rw [hnone] at hw
    exact absurd hw Bool.false_ne_true
  · rename_i k hcode
    have hfree := hstacked.free (Or.inr hcode)
    have htop : Stacked watched ({ f with code := k } :: below) :=
      hstacked.top (hreleases.free (Or.inr hcode)).2 (fun l => LockFrame.Takes.of_rest hcode fun d hd => Or.inl hd) id
    refine (h.setStack htop).resume (fun g hg l hl => ?_) pick
    rw [setStack_current, setStack_self] at hg
    obtain rfl | hbelow := List.mem_cons.mp hg
    · exact hfree f List.mem_cons_self l hl
    · exact hfree g (List.mem_cons_of_mem f hbelow) l hl
  · rename_i c d k hcode
    refine h.setStack (hstacked.top (hreleases.seq hcode) (fun l => LockFrame.Takes.of_rest hcode fun e he => ?_) id)
    simp only [List.mem_cons] at he
    obtain rfl | rfl | hk := he
    · exact Or.inr fun ht => by simp [LockCode.takes, ht]
    · exact Or.inr fun ht => by simp [LockCode.takes, ht]
    · exact Or.inl hk
  · rename_i c d k hcode
    have hpick := hreleases.choice hcode (decide (pick = 0))
    simp only [decide_eq_true_eq] at hpick
    refine h.setStack (hstacked.top hpick (fun l => LockFrame.Takes.of_rest hcode fun e he => ?_) id)
    obtain rfl | hk := List.mem_cons.mp he
    · refine Or.inr fun ht => ?_
      split at ht
      · simp [LockCode.takes, ht]
      · simp [LockCode.takes, ht]
    · exact Or.inl hk
  · rename_i c k hcode
    have hpick := hreleases.loop hcode (decide (pick = 0))
    simp only [decide_eq_true_eq] at hpick
    refine h.setStack (hstacked.top hpick (fun l => LockFrame.Takes.of_rest hcode fun e he => ?_) id)
    change e ∈ (if pick = 0 then k else c :: .loop c :: k) at he
    split at he
    · exact Or.inl he
    · simp only [List.mem_cons] at he
      obtain rfl | rfl | hk := he
      · exact Or.inr fun ht => ht
      · exact Or.inr id
      · exact Or.inl hk

theorem Orderly.interrupt (h : s.Orderly watched) {i : I} (hbalanced : (handlers i).Balanced) (hunheld : s.Unheld handlers watched (.irq i)) :
    (s.interrupt (handlers i)).Orderly watched := by
  have hstacked := h.stacked s.current
  simp only [LockCpu.interrupt]
  split
  · exact h
  rename_i f below hstack
  split
  · rename_i hirq
    rw [hstack] at hstacked
    have hfirst : f ∈ (s.frames s.current).head? := by rw [hstack, List.head?_cons]; rfl
    have hbelow : below = [] := by
      by_contra hne
      rw [(hstacked.2.2.1 hne).1] at hirq
      exact Bool.false_ne_true hirq
    refine h.setStack (stacked_handler hbalanced (fun g hg l hl hw => ?_) hstacked)
    rw [hbelow] at hg
    obtain rfl := List.mem_singleton.mp hg
    exact hunheld _ hfirst hirq l hl hw
  · exact h

/-- The CPU before anything has run: each process is at the start of its code. -/
def initial (code : Nat → LockCode L) : LockCpu L := ⟨0, fun q => [⟨[code q], true, [], []⟩], fun _ => false⟩

end LockCpu

end Lib
