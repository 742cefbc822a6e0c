import Tsukasa.Proc.SchedRun

/-!
# Terminals

`tty/tty.c`: eight terminals, each with a foreground process group, one of them active. Control and C on the keyboard send `SIGINT` to the foreground group of the active terminal. A function is its critical section of `g_tty_lock`; `tty_kill_foreground` reads the group in one section and signals it in another.
-/

namespace Tsukasa

def ttyMax : Nat := 8

structure TtySlot where
  used : Bool
  fgPgid : Int

structure Ttys where
  slots : Nat → TtySlot
  activeTty : Nat
  ctrlDown : Bool

namespace Ttys

def set (t : Ttys) (i : Nat) (slot : TtySlot) : Ttys := { t with slots := Function.update t.slots i slot }

end Ttys

/-- The test of a terminal's number, which is an `int`. -/
def ttyNumber (id : Int) : Option Nat := if id < 0 ∨ (ttyMax : Int) ≤ id then none else some id.toNat

def ttyInit : Ttys where
  slots i := { used := decide (i = 0), fgPgid := -1 }
  activeTty := 0
  ctrlDown := false

def ttyCreate (t : Ttys) : Int × Ttys :=
  match (List.range ttyMax).find? fun i => !(t.slots i).used with
  | none => (-1, t)
  | some i => (i, t.set i { used := true, fgPgid := -1 })

def ttyDestroy (t : Ttys) (id : Int) : Int × Ttys :=
  match ttyNumber id with
  | none => (-1, t)
  | some i =>
      if i = 0 ∨ (t.slots i).used = false then (-1, t)
      else
        let t := t.set i { used := false, fgPgid := -1 }
        (0, if t.activeTty = i then { t with activeTty := 0 } else t)

def ttyGetActive (t : Ttys) : Int := t.activeTty

def ttySetActive (t : Ttys) (id : Int) : Int × Ttys :=
  match ttyNumber id with
  | none => (-1, t)
  | some i => if (t.slots i).used then (0, { t with activeTty := i }) else (-1, t)

def ttySetForegroundPgid (t : Ttys) (id pgid : Int) : Int × Ttys :=
  match ttyNumber id with
  | none => (-1, t)
  | some i => if (t.slots i).used then (0, t.set i { t.slots i with fgPgid := pgid }) else (-1, t)

def ttyGetForegroundPgid (t : Ttys) (id : Int) : Int :=
  match ttyNumber id with
  | none => -1
  | some i => if (t.slots i).used then (t.slots i).fgPgid else -1

def ttyKillForeground (t : Ttys) (s : Sched) (id sig : Int) : Int × Sched :=
  match ttyNumber id with
  | none => (-1, s)
  | some i =>
      if (t.slots i).used then
        if (t.slots i).fgPgid ≤ 0 then (0, s) else processKillPgid s (t.slots i).fgPgid sig
      else (-1, s)

def ttyHandleScancode (t : Ttys) (s : Sched) (scancode : UInt8) (pressed : Bool) : Ttys × Sched :=
  if scancode = 29 then ({ t with ctrlDown := pressed }, s)
  else if !pressed then (t, s)
  else if t.ctrlDown && decide (scancode = 46) then (t, (ttyKillForeground t s (ttyGetActive t) processSigint).2)
  else (t, s)

/-! ### The table -/

/-- The active terminal is in use, and the first one always is. -/
structure Ttys.Sound (t : Ttys) : Prop where
  first : (t.slots 0).used = true
  bound : t.activeTty < ttyMax
  active : (t.slots t.activeTty).used = true

variable {t : Ttys} {s : Sched}

theorem ttyNumber_eq_some {id : Int} {i : Nat} (h : ttyNumber id = some i) : i < ttyMax ∧ id = i := by
  rw [ttyNumber] at h
  split at h
  · cases h
  · rename_i hrange
    obtain rfl := Option.some.inj h
    omega

theorem ttyNumber_natCast {i : Nat} (h : i < ttyMax) : ttyNumber i = some i := by
  rw [ttyNumber, if_neg (by omega)]
  rfl

theorem ttyInit_sound : ttyInit.Sound := ⟨rfl, by decide, rfl⟩

/-- A slot that is given something else in use leaves the table sound. -/
theorem Ttys.Sound.set (h : t.Sound) (i : Nat) {slot : TtySlot} (hused : slot.used = true) : (t.set i slot).Sound := by
  have hslot : ∀ j, (t.slots j).used = true → ((t.set i slot).slots j).used = true := by
    intro j hj
    simp only [Ttys.set, Function.update_apply]
    split
    · exact hused
    · exact hj
  exact ⟨hslot 0 h.first, h.bound, hslot _ h.active⟩

theorem ttyCreate_sound (h : t.Sound) : (ttyCreate t).2.Sound := by
  rw [ttyCreate]
  split
  · exact h
  · exact h.set _ rfl

theorem ttyDestroy_sound (h : t.Sound) (id : Int) : (ttyDestroy t id).2.Sound := by
  rw [ttyDestroy]
  split
  · exact h
  rename_i i hnumber
  split
  · exact h
  rename_i hrefused
  obtain ⟨hfirst, -⟩ := not_or.mp hrefused
  have hkept : ∀ j, j ≠ i → ((t.set i { used := false, fgPgid := -1 }).slots j) = t.slots j := fun j hj => Function.update_of_ne hj _ _
  simp only
  split
  · refine ⟨?_, by simp [ttyMax], ?_⟩
    · exact (congrArg TtySlot.used (hkept 0 (Ne.symm hfirst))).trans h.first
    · exact (congrArg TtySlot.used (hkept 0 (Ne.symm hfirst))).trans h.first
  · rename_i hactive
    refine ⟨?_, h.bound, ?_⟩
    · exact (congrArg TtySlot.used (hkept 0 (Ne.symm hfirst))).trans h.first
    · exact (congrArg TtySlot.used (hkept _ hactive)).trans h.active

theorem ttySetActive_sound (h : t.Sound) (id : Int) : (ttySetActive t id).2.Sound := by
  rw [ttySetActive]
  split
  · exact h
  rename_i i hnumber
  split
  · rename_i hused
    exact ⟨h.first, (ttyNumber_eq_some hnumber).1, hused⟩
  · exact h

theorem ttySetForegroundPgid_sound (h : t.Sound) (id pgid : Int) : (ttySetForegroundPgid t id pgid).2.Sound := by
  rw [ttySetForegroundPgid]
  split
  · exact h
  split
  · rename_i hused
    exact h.set _ hused
  · exact h

/-! ### Signals to a group -/

/-- What a signal other than `SIGKILL` does to a process, its links apart. -/
def Process.posted (sig : Nat) (p : Process) : Process :=
  { p with
    signalPending := p.signalPending ||| BitVec.twoPow 64 sig
    state := if p.state = .blocked then .ready else p.state }

/-- The processes `M` have been sent the signal, and nothing else differs but links of the run queues. -/
structure Posted (s s' : Sched) (sig : Nat) (M : Nat → Prop) : Prop where
  member : ∀ i, M i → (s'.processes i).core = ((s.processes i).posted sig).core
  other : ∀ i, ¬ M i → (s'.processes i).core = (s.processes i).core
  current : s'.current = s.current
  idle : s'.idle = s.idle
  nextPid : s'.nextPid = s.nextPid

theorem Posted.refl (s : Sched) (sig : Nat) : Posted s s sig fun _ => False := ⟨fun _ h => h.elim, fun _ _ => rfl, rfl, rfl, rfl⟩

theorem Posted.congr {s' : Sched} {sig : Nat} {M M' : Nat → Prop} (h : Posted s s' sig M) (hM : ∀ i, M i ↔ M' i) : Posted s s' sig M' where
  member i hi := h.member i ((hM i).mpr hi)
  other i hi := h.other i fun hmem => hi ((hM i).mp hmem)
  current := h.current
  idle := h.idle
  nextPid := h.nextPid

theorem wake_core (s : Sched) (i : Nat) : LinksOnly (s.setState i (if (s.processes i).state = .blocked then .ready else (s.processes i).state)) (wake s i) := by
  rw [wake]
  by_cases hblocked : (s.processes i).state = .blocked
  · rw [if_pos hblocked, if_pos hblocked]
    exact runqPush_linksOnly _ i
  · rw [if_neg hblocked, if_neg hblocked]
    have hself : s.setState i (s.processes i).state = s := by
      rw [Sched.setState, Sched.set]
      have hsame : Function.update s.processes i { s.processes i with state := (s.processes i).state } = s.processes := Function.update_eq_self i s.processes
      rw [hsame]
    rw [hself]
    exact LinksOnly.refl s

theorem postSignal_posted (s : Sched) (i : Nat) {sig : Nat} (hsig : sig ≠ processSigkill) : Posted s (postSignal s i sig) sig fun j => j = i := by
  rw [postSignal, if_neg hsig]
  generalize hmid : s.set i { s.processes i with signalPending := (s.processes i).signalPending ||| BitVec.twoPow 64 sig } = s₁
  have hwake := wake_core s₁ i
  have hself : s₁.processes i = { s.processes i with signalPending := (s.processes i).signalPending ||| BitVec.twoPow 64 sig } := by
    rw [← hmid, set_processes_self]
  refine ⟨fun j hj => ?_, fun j hj => ?_, ?_, ?_, ?_⟩
  · rw [hj, hwake.core, Sched.setState, set_processes_self, hself]
    rfl
  · rw [hwake.core, Sched.setState, set_processes_of_ne hj, ← hmid, set_processes_of_ne hj]
  · rw [hwake.current, ← hmid]
    rfl
  · rw [hwake.idle, ← hmid]
    rfl
  · rw [hwake.nextPid, ← hmid]
    rfl

/-- Another process is sent the signal. -/
theorem Posted.and {s' s'' : Sched} {sig i : Nat} {M : Nat → Prop} (h : Posted s s' sig M) (hi : ¬ M i) (h' : Posted s' s'' sig fun j => j = i) :
    Posted s s'' sig fun j => M j ∨ j = i where
  member j hj := by
    by_cases heq : j = i
    · have hposted : ∀ p p' : Process, p.core = p'.core → (p.posted sig).core = (p'.posted sig).core := by
        intro p p' hcore
        have hp : (p.posted sig).core = p.core.posted sig := rfl
        have hp' : (p'.posted sig).core = p'.core.posted sig := rfl
        rw [hp, hp', hcore]
      rw [heq, h'.member i rfl]
      exact hposted _ _ (h.other i hi)
    · rw [h'.other j heq]
      exact h.member j (hj.resolve_right heq)
  other j hj := by
    obtain ⟨hM, hne⟩ := not_or.mp hj
    rw [h'.other j hne, h.other j hM]
  current := h'.current.trans h.current
  idle := h'.idle.trans h.idle
  nextPid := h'.nextPid.trans h.nextPid

theorem inGroup_congr {s' : Sched} {pgid : Int} {i : Nat} (h : (s'.processes i).core = (s.processes i).core) : inGroup s' pgid i = inGroup s pgid i := by
  have hfield : ∀ p : Process, (p.used && !decide (p.state = .dead ∨ p.state = .zombie) && decide (asInt p.pgid = pgid)) =
      (p.core.used && !decide (p.core.state = .dead ∨ p.core.state = .zombie) && decide (asInt p.core.pgid = pgid)) := fun _ => rfl
  rw [inGroup, inGroup, hfield, h, ← hfield]

/-- The loop of `process_kill_pgid` up to slot `n`. -/
theorem killPgid_posted (s : Sched) (pgid : Int) {sig : Nat} (hsig : sig ≠ processSigkill) (n : Nat) :
    Posted s ((List.range n).foldl (killPgidStep pgid sig) (0, s)).2 sig fun i => i < n ∧ inGroup s pgid i = true := by
  induction n with
  | zero => exact (Posted.refl s sig).congr fun i => ⟨fun h => h.elim, fun h => absurd h.1 (Nat.not_lt_zero i)⟩
  | succ n ih =>
      rw [List.range_succ, List.foldl_append, List.foldl_cons, List.foldl_nil]
      generalize (List.range n).foldl (killPgidStep pgid sig) (0, s) = acc at ih ⊢
      have hnot : ¬ (n < n ∧ inGroup s pgid n = true) := fun h => absurd h.1 (Nat.lt_irrefl n)
      have hsame : inGroup acc.2 pgid n = inGroup s pgid n := inGroup_congr (ih.other n hnot)
      rw [killPgidStep, hsame]
      by_cases hmember : inGroup s pgid n = true
      · rw [if_pos hmember]
        apply (ih.and hnot (postSignal_posted acc.2 n hsig)).congr
        intro i
        constructor
        · intro h
          cases h with
          | inl h => exact ⟨by omega, h.2⟩
          | inr h => exact ⟨by omega, h ▸ hmember⟩
        · intro h
          by_cases heq : i = n
          · exact Or.inr heq
          · exact Or.inl ⟨by omega, h.2⟩
      · rw [if_neg hmember]
        apply ih.congr
        intro i
        constructor
        · exact fun h => ⟨by omega, h.2⟩
        · intro h
          have hne : i ≠ n := fun heq => hmember (heq ▸ h.2)
          exact ⟨by omega, h.2⟩

end Tsukasa
