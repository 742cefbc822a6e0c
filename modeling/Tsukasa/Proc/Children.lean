import Tsukasa.Proc.Signals

/-!
# Children and their reaping

The list of children of every process, kept through `children_head` and `parent_next_child`. A creation puts the new process at the head of its parent's list and a wait takes the reaped one out. A slot that is given up drops its list, so the children of a process that is reaped before them are in no list any more: what is proved holds along the runs in which no process with children is terminated.
-/

namespace Tsukasa

open Lib Lib.Linked

/-! ### Steps that leave the families alone -/

/-- Of the processes that are alive before, at most those in `L` are not alive after. -/
def Ends (L : Nat → Prop) (s s' : Sched) : Prop := ∀ i, (s.processes i).state.Alive → ¬ (s'.processes i).state.Alive → L i

section Ends

variable {L : Nat → Prop} {s s' s'' : Sched}

theorem Ends.refl (s : Sched) : Ends L s s := fun _ halive hended => absurd halive hended

theorem Ends.trans (h : Ends L s s') (h' : Ends L s' s'') : Ends L s s'' := by
  intro i halive hended
  by_cases hmiddle : (s'.processes i).state.Alive
  · exact h' i hmiddle hended
  · exact h i halive hmiddle

theorem Ends.of_state (h : ∀ i, (s'.processes i).state = (s.processes i).state) : Ends L s s' := by
  intro i halive hended
  rw [h i] at hended
  exact absurd halive hended

theorem Ends.of_linksOnly (h : LinksOnly s s') : Ends L s s' := Ends.of_state (h.field Process.state fun _ => rfl)

theorem Ends.set {i : Nat} {p : Process} (hp : (s.processes i).state.Alive → ¬ p.state.Alive → L i) : Ends L s (s.set i p) := by
  intro j halive hended
  by_cases heq : j = i
  · subst heq
    rw [set_processes_self] at hended
    exact hp halive hended
  · rw [set_processes_of_ne heq] at hended
    exact absurd halive hended

/-- A slot is given a live state. -/
theorem Ends.set_alive {i : Nat} {p : Process} (hp : p.state.Alive) : Ends L s (s.set i p) := Ends.set fun _ hended => absurd hp hended

/-- A slot keeps its state. -/
theorem Ends.set_same {i : Nat} {p : Process} (hp : p.state = (s.processes i).state) : Ends L s (s.set i p) := by
  apply Ends.set
  rw [hp]
  exact absurd

theorem wake_ends (s : Sched) (i : Nat) : Ends L s (wake s i) := by
  rw [wake]
  split
  · have hset : Ends L s (s.setState i .ready) := Ends.set_alive alive_ready
    exact hset.trans (Ends.of_linksOnly (runqPush_linksOnly _ i))
  · exact Ends.refl s

theorem wakeParentIfWaiting_ends (s : Sched) (i : Nat) : Ends L s (wakeParentIfWaiting s i) := by
  rw [wakeParentIfWaiting]
  split
  · exact Ends.refl s
  split
  · exact Ends.refl s
  · exact wake_ends s _

theorem markZombie_ends {i : Nat} (hi : L i) (status : BitVec 32) : Ends L s (markZombie s i status) := by
  rw [markZombie]
  split
  · exact Ends.refl s
  · have hset : Ends L s (s.set i { s.processes i with waitStatus := status, state := .zombie }) := Ends.set fun _ _ => hi
    exact hset.trans (wakeParentIfWaiting_ends _ i)

theorem postSignal_ends {i sig : Nat} (hi : sig = processSigkill → L i) : Ends L s (postSignal s i sig) := by
  rw [postSignal]
  split
  · rename_i hkill
    exact markZombie_ends (hi hkill) _
  · have hset : Ends L s (s.set i { s.processes i with signalPending := (s.processes i).signalPending ||| BitVec.twoPow 64 sig }) :=
      Ends.set_same rfl
    exact hset.trans (wake_ends _ i)

theorem switchNext_ends (s : Sched) (cur : Option Nat) : Ends L s (switchNext s cur) := by
  have hpop : Ends L s (runqPop s).2 := Ends.of_linksOnly (runqPop_linksOnly s)
  rw [switchNext]
  rcases hres : runqPop s with ⟨popped, s'⟩
  rw [hres] at hpop
  simp only
  split
  · exact hpop
  · rename_i next _
    have hset : Ends L s' (s'.setState next .running) := Ends.set_alive alive_running
    exact hpop.trans hset

theorem schedule_ends (s : Sched) : Ends L s (schedule s) := by
  have hslice : ∀ c slice, Ends L s (s.set c { s.processes c with timeSlice := slice, state := .ready }) :=
    fun _ _ => Ends.set_alive alive_ready
  rcases schedule_cases s with ⟨-, heq⟩ | ⟨c, -, ⟨-, heq⟩ | ⟨-, slice, heq | ⟨-, heq⟩ | ⟨-, heq⟩⟩⟩
  · rw [heq]
    exact switchNext_ends s none
  · rw [heq]
    exact switchNext_ends s (some c)
  · rw [heq]
    exact Ends.set_same rfl
  · rw [heq]
    exact (hslice c slice).trans (switchNext_ends _ (some c))
  · rw [heq]
    exact (hslice c slice).trans ((Ends.of_linksOnly (runqPush_linksOnly _ c)).trans (switchNext_ends _ (some c)))

theorem processSetPriority_ends (s : Sched) (pid : Int) (priority : Nat) : Ends L s (processSetPriority s pid priority).2 := by
  have hrequeue : ∀ (w : Sched) (i : Nat), Ends L w
      (if ((w.set i { w.processes i with priority := priority }).processes i).state = .ready then
        runqPush (w.set i { w.processes i with priority := priority }) i
      else w.set i { w.processes i with priority := priority }) := by
    intro w i
    have hset : Ends L w (w.set i { w.processes i with priority := priority }) := Ends.set_same rfl
    split
    · exact hset.trans (Ends.of_linksOnly (runqPush_linksOnly _ i))
    · exact hset
  rw [processSetPriority]
  split
  · exact Ends.refl s
  split
  · exact Ends.refl s
  rename_i i _
  split
  · exact Ends.refl s
  by_cases hready : (s.processes i).state = .ready
  · simp only [if_pos hready]
    have hremove : Ends L s (runqRemove s i) := Ends.of_linksOnly (runqRemoveLoop_linksOnly s _ i _ none _)
    exact hremove.trans (hrequeue _ i)
  · simp only [if_neg hready]
    exact hrequeue s i

end Ends

/-! ### Families -/

/-- What ties a process to its family. -/
def Process.kin (p : Process) : Bool × Nat × Nat × Option Nat × Option Nat :=
  (p.used, p.pid, p.ppid, p.childrenHead, p.parentNextChild)

def Sched.nextChild (s : Sched) (i : Nat) : Option Nat := (s.processes i).parentNextChild

/-- `l` is the list of children of the process in slot `q`. -/
def Sched.Children (s : Sched) (q : Nat) (l : List Nat) : Prop := IsList s.nextChild (s.processes q).childrenHead l

/-- Every process in use is in the list of its parent, and the lists hold nothing else. -/
structure Family (s : Sched) (kids : Nat → List Nat) : Prop where
  lt : ∀ i, (s.processes i).used = true → i < processMaxCount
  pid : ∀ i, (s.processes i).used = true → 0 < (s.processes i).pid ∧ (s.processes i).pid < 2 ^ 31
  unique : ∀ i j, (s.processes i).used = true → (s.processes j).used = true → (s.processes i).pid = (s.processes j).pid → i = j
  children : ∀ q, (s.processes q).used = true → s.Children q (kids q)
  child : ∀ q i, (s.processes q).used = true → i ∈ kids q →
    (s.processes i).used = true ∧ (s.processes i).ppid = (s.processes q).pid
  parent : ∀ i, (s.processes i).used = true → (s.processes i).ppid ≠ 0 → ∃ q, (s.processes q).used = true ∧ i ∈ kids q
  /-- A process that has ended has a parent and no children. -/
  ended : ∀ i, (s.processes i).used = true → ¬ (s.processes i).state.Alive → kids i = [] ∧ (s.processes i).ppid ≠ 0

/-- The process may end: it has a parent to reap it, and no children that would lose theirs. -/
def Sched.Leaf (s : Sched) (i : Nat) : Prop :=
  (s.processes i).used = true → (s.processes i).childrenHead = none ∧ (s.processes i).ppid ≠ 0

namespace Family

variable {s s' : Sched} {kids : Nat → List Nat}

/-- The parent of a process is one only. -/
theorem parent_unique (h : Family s kids) {q q' i : Nat} (hq : (s.processes q).used = true) (hq' : (s.processes q').used = true)
    (hi : i ∈ kids q) (hi' : i ∈ kids q') : q = q' := by
  apply h.unique q q' hq hq'
  rw [← (h.child q i hq hi).2, ← (h.child q' i hq' hi').2]

theorem length_le (h : Family s kids) {q : Nat} (hq : (s.processes q).used = true) : (kids q).length ≤ processMaxCount := by
  have hsub : kids q ⊆ List.range processMaxCount := by
    intro i hi
    exact List.mem_range.mpr (h.lt i (h.child q i hq hi).1)
  have hnodup : (kids q).Nodup := (h.children q hq).nodup
  simpa using (List.subperm_of_subset hnodup hsub).length_le

/-- A step that changes nothing of the processes in use but the state of leaves. -/
theorem of_kin (h : Family s kids) (hused : ∀ i, (s'.processes i).used = (s.processes i).used)
    (hkin : ∀ i, (s.processes i).used = true → (s'.processes i).kin = (s.processes i).kin) (hends : Ends s.Leaf s s') :
    Family s' kids := by
  have hpid : ∀ i, (s.processes i).used = true → (s'.processes i).pid = (s.processes i).pid :=
    fun i hi => congrArg (·.2.1) (hkin i hi)
  have hppid : ∀ i, (s.processes i).used = true → (s'.processes i).ppid = (s.processes i).ppid :=
    fun i hi => congrArg (·.2.2.1) (hkin i hi)
  have hhead : ∀ i, (s.processes i).used = true → (s'.processes i).childrenHead = (s.processes i).childrenHead :=
    fun i hi => congrArg (·.2.2.2.1) (hkin i hi)
  have hnext : ∀ i, (s.processes i).used = true → s'.nextChild i = s.nextChild i := fun i hi => congrArg (·.2.2.2.2) (hkin i hi)
  constructor
  · intro i hi
    rw [hused] at hi
    exact h.lt i hi
  · intro i hi
    rw [hused] at hi
    rw [hpid i hi]
    exact h.pid i hi
  · intro i j hi hj heq
    rw [hused] at hi hj
    rw [hpid i hi, hpid j hj] at heq
    exact h.unique i j hi hj heq
  · intro q hq
    rw [hused] at hq
    rw [Sched.Children, hhead q hq]
    exact (h.children q hq).congr fun i hi => hnext i (h.child q i hq hi).1
  · intro q i hq hi
    rw [hused] at hq
    have hchild := h.child q i hq hi
    rw [hused, hppid i hchild.1, hpid q hq]
    exact hchild
  · intro i hi hne
    rw [hused] at hi
    rw [hppid i hi] at hne
    obtain ⟨q, hq, hmem⟩ := h.parent i hi hne
    rw [← hused] at hq
    exact ⟨q, hq, hmem⟩
  · intro i hi hended
    rw [hused] at hi
    rw [hppid i hi]
    by_cases halive : (s.processes i).state.Alive
    · obtain ⟨hnone, hne⟩ := hends i halive hended hi
      have hlist := h.children i hi
      rw [Sched.Children, hnone] at hlist
      exact ⟨hlist.unique (isList_nil.mpr rfl), hne⟩
    · exact h.ended i hi halive

/-- A scheduling step that ends leaves only. -/
theorem of_schedOnly (h : Family s kids) (hsched : SchedOnly s s') (hends : Ends s.Leaf s s') : Family s' kids :=
  h.of_kin (hsched.field Process.used fun _ => rfl) (fun i _ => hsched.field Process.kin (fun _ => rfl) i) hends

/-- One slot is rewritten without touching its family or its state. -/
theorem set_same (h : Family s kids) {i : Nat} {p : Process} (hkin : p.kin = (s.processes i).kin)
    (hstate : p.state = (s.processes i).state) : Family (s.set i p) kids := by
  have hslot : ∀ j, ((s.set i p).processes j).kin = (s.processes j).kin := set_field Process.kin hkin
  exact h.of_kin (fun j => congrArg (·.1) (hslot j)) (fun j _ => hslot j) (Ends.set_same hstate)

end Family

/-! ### Calls that leave the families alone -/

/-- The signal a tick would deliver to the process terminates it. -/
def Sched.Fatal (s : Sched) (i : Nat) : Prop :=
  ∃ sig, signalPickLowest ((s.processes i).signalPending &&& ~~~(s.processes i).signalMask) = some sig ∧
    (s.processes i).signalHandlers sig ≠ processSigIgn ∧
    ((s.processes i).signalHandlers sig = processSigDfl ∨ sig = processSigkill ∨ sig = processSigint)

section Calls

variable {s : Sched} {kids : Nat → List Nat}

theorem processExec_family (h : Family s kids) (pid : Int) : Family (processExec s pid).2 kids := by
  rw [processExec]
  split
  · exact h
  split
  · exact h
  simp only
  split
  · exact h
  · exact h.set_same rfl rfl

theorem processSignalRegister_family (h : Family s kids) (pid sig : Int) (handler : Nat) :
    Family (processSignalRegister s pid sig handler).2 kids := by
  rw [processSignalRegister]
  split_ifs
  · exact h
  · exact h
  split
  · exact h
  · exact h.set_same rfl rfl

theorem processSignalMask_family (h : Family s kids) (pid : Int) (how : MaskHow) (set : BitVec 64) :
    Family (processSignalMask s pid how set).2 kids := by
  rw [processSignalMask]
  split
  · exact h
  · exact h.set_same rfl rfl

theorem processYield_family (h : Family s kids) : Family (processYield s) kids := by
  rw [processYield]
  split
  · exact h
  · exact h.set_same rfl rfl

theorem processSetPriority_family (h : Family s kids) (pid : Int) (priority : Nat) : Family (processSetPriority s pid priority).2 kids :=
  h.of_schedOnly (processSetPriority_schedOnly s pid priority) (processSetPriority_ends s pid priority)

theorem processExitCurrent_family (h : Family s kids) (code : BitVec 32) (hleaf : ∀ c, s.current = some c → s.Leaf c) :
    Family (processExitCurrent s code).2 kids := by
  apply h.of_schedOnly (processExitCurrent_schedOnly s code)
  rw [processExitCurrent]
  split
  · exact Ends.refl s
  · rename_i c hcurrent
    exact markZombie_ends (hleaf c hcurrent) _

theorem postSignal_family (h : Family s kids) {i sig : Nat} (hleaf : sig = processSigkill → s.Leaf i) : Family (postSignal s i sig) kids := by
  have hends : Ends s.Leaf s (postSignal s i sig) := postSignal_ends hleaf
  rw [postSignal] at hends ⊢
  split
  · rename_i hkill
    rw [if_pos hkill] at hends
    exact h.of_schedOnly (markZombie_schedOnly s i _) hends
  · have hset : Family (s.set i { s.processes i with signalPending := (s.processes i).signalPending ||| BitVec.twoPow 64 sig }) kids :=
      h.set_same rfl rfl
    exact hset.of_schedOnly (wake_schedOnly _ i) (wake_ends _ i)

theorem processKill_family (h : Family s kids) {pid sig : Int} (hleaf : sig = processSigkill → ∀ i, findByPid s pid = some i → s.Leaf i) :
    Family (processKill s pid sig).2 kids := by
  rw [processKill]
  split
  · exact h
  split
  · exact h
  rename_i i hfound
  split_ifs
  · exact h
  · exact h
  · exact h
  · refine postSignal_family h fun hkill => hleaf ?_ i hfound
    simp only [processSigkill] at hkill ⊢
    omega

theorem postSignal_kinGroup (s : Sched) (i sig j : Nat) :
    ((postSignal s i sig).processes j).kin = (s.processes j).kin ∧ ((postSignal s i sig).processes j).pgid = (s.processes j).pgid := by
  rw [postSignal]
  split
  · have hsched := markZombie_schedOnly s i (waitStatusSignal sig)
    exact ⟨hsched.field Process.kin (fun _ => rfl) j, hsched.field Process.pgid (fun _ => rfl) j⟩
  · have hsched := wake_schedOnly (s.set i { s.processes i with
      signalPending := (s.processes i).signalPending ||| BitVec.twoPow 64 sig }) i
    rw [hsched.field Process.kin (fun _ => rfl) j, hsched.field Process.pgid (fun _ => rfl) j]
    by_cases heq : j = i
    · rw [heq, set_processes_self]
      exact ⟨rfl, rfl⟩
    · rw [set_processes_of_ne heq]
      exact ⟨rfl, rfl⟩

theorem processKillPgid_family (h : Family s kids) {pgid sig : Int}
    (hleaf : sig = processSigkill → ∀ i, asInt (s.processes i).pgid = pgid → s.Leaf i) : Family (processKillPgid s pgid sig).2 kids := by
  rw [processKillPgid]
  split
  · exact h
  -- the members of the group and their families are those of the start
  have hloop : ∀ (slots : List Nat) (acc : Int × Sched), Family acc.2 kids →
      (sig = processSigkill → ∀ i, asInt (acc.2.processes i).pgid = pgid → acc.2.Leaf i) →
      Family (slots.foldl (killPgidStep pgid sig.toNat) acc).2 kids := by
    intro slots
    induction slots with
    | nil => exact fun acc h _ => h
    | cons i slots ih =>
        intro acc h hleaf
        rw [List.foldl_cons, killPgidStep]
        split
        · rename_i hmember
          have hkill : sig.toNat = processSigkill → sig = processSigkill := by
            simp only [processSigkill]
            omega
          have hgroup : asInt (acc.2.processes i).pgid = pgid := (inGroup_iff.mp hmember).2.2.2
          refine ih _ (postSignal_family h fun hsig => hleaf (hkill hsig) i hgroup) fun hsig j hj hused => ?_
          obtain ⟨hkin, hsame⟩ := postSignal_kinGroup acc.2 i sig.toNat j
          have hold := hleaf hsig j (by rw [← hsame]; exact hj)
          have hused' : ((postSignal acc.2 i sig.toNat).processes j).used = (acc.2.processes j).used := congrArg (·.1) hkin
          have hppid : ((postSignal acc.2 i sig.toNat).processes j).ppid = (acc.2.processes j).ppid := congrArg (·.2.2.1) hkin
          have hhead : ((postSignal acc.2 i sig.toNat).processes j).childrenHead = (acc.2.processes j).childrenHead :=
            congrArg (·.2.2.2.1) hkin
          rw [hhead, hppid]
          exact hold (hused'.symm.trans hused)
        · exact ih acc h hleaf
  exact hloop _ (0, s) h hleaf

theorem prepareSignalAction_family (h : Family s kids) {c : Nat} (hleaf : s.Fatal c → s.Leaf c) : Family (prepareSignalAction s c).2 kids := by
  simp only [prepareSignalAction]
  split
  · exact h
  split
  · exact h
  rename_i sig hpick
  have hset : Family (s.set c { s.processes c with
      signalPending := (s.processes c).signalPending &&& ~~~(BitVec.twoPow 64 sig) }) kids := h.set_same rfl rfl
  split_ifs with hign hfatal
  · exact hset
  · refine hset.of_schedOnly (markZombie_schedOnly _ c _) (markZombie_ends ?_ _)
    have hold := hleaf ⟨sig, hpick, hign, hfatal⟩
    intro hused
    rw [set_processes_self] at hused ⊢
    exact hold hused
  · exact hset

theorem processScheduleTick_family (h : Family s kids)
    (hleaf : ∀ c, s.current = some c → (s.processes c).state = .running → s.Fatal c → s.Leaf c) :
    Family (processScheduleTick s).2 kids := by
  have hdeliver : Family (deliverSignal s).2 kids := by
    rw [deliverSignal]
    split
    · exact h
    rename_i c hcurrent
    split
    · rename_i hrunning
      exact prepareSignalAction_family h (hleaf c hcurrent hrunning)
    · exact h
  exact hdeliver.of_schedOnly (schedule_schedOnly _) (schedule_ends _)

end Calls

/-! ### Creation -/

/-- The lists after a process has been created in slot `i`. -/
def grown (kids : Nat → List Nat) (parent : Option Nat) (i q : Nat) : List Nat :=
  if parent = some q then i :: kids q else if q = i then [] else kids q

/-- A new process in a free slot, at the head of the list of its parent. -/
theorem Family.grow {s t : Sched} {kids : Nat → List Nat} {parent : Option Nat} {i : Nat} (h : Family s kids) (hlt : i < processMaxCount)
    (hunused : (s.processes i).used = false) (hparent : ∀ q, parent = some q → (s.processes q).used = true ∧ (s.processes q).state.Alive)
    (hfresh : ∀ j, (s.processes j).used = true → (s.processes j).pid ≠ s.nextPid) (hpid : 0 < s.nextPid ∧ s.nextPid < 2 ^ 31)
    (hnew : (t.processes i).kin = (true, s.nextPid, parent.elim 0 fun q => (s.processes q).pid, none,
      parent.elim none fun q => (s.processes q).childrenHead)) (halive : (t.processes i).state.Alive)
    (hother : ∀ j, j ≠ i → (t.processes j).kin = ((s.processes j).used, (s.processes j).pid, (s.processes j).ppid,
      if parent = some j then some i else (s.processes j).childrenHead, (s.processes j).parentNextChild))
    (hstate : ∀ j, j ≠ i → (t.processes j).state = (s.processes j).state) : Family t (grown kids parent i) := by
  have hne : ∀ q, (s.processes q).used = true → q ≠ i := by
    intro q hq heq
    rw [heq, hunused] at hq
    cases hq
  have hused : ∀ j, (t.processes j).used = true ↔ j = i ∨ (s.processes j).used = true := by
    intro j
    by_cases heq : j = i
    · have hself : (t.processes i).used = true := congrArg (·.1) hnew
      simp [heq, hself]
    · have hsame : (t.processes j).used = (s.processes j).used := congrArg (·.1) (hother j heq)
      simp [heq, hsame]
  have hpid' : ∀ j, (t.processes j).pid = if j = i then s.nextPid else (s.processes j).pid := by
    intro j
    by_cases heq : j = i
    · rw [heq, if_pos rfl]
      exact congrArg (·.2.1) hnew
    · rw [if_neg heq]
      exact congrArg (·.2.1) (hother j heq)
  have hppid : ∀ j, j ≠ i → (t.processes j).ppid = (s.processes j).ppid := fun j heq => congrArg (·.2.2.1) (hother j heq)
  have hppidNew : (t.processes i).ppid = parent.elim 0 fun q => (s.processes q).pid := congrArg (·.2.2.1) hnew
  have hnext : ∀ j, j ≠ i → t.nextChild j = s.nextChild j := fun j heq => congrArg (·.2.2.2.2) (hother j heq)
  -- a child of the old lists is in use, so it is not the new process
  have hmem : ∀ q j, (s.processes q).used = true → j ∈ kids q → j ≠ i := fun q j hq hj => hne j (h.child q j hq hj).1
  have hkids : ∀ q, q ≠ i → parent ≠ some q → grown kids parent i q = kids q := by
    intro q hq hnot
    rw [grown, if_neg hnot, if_neg hq]
  have hkidsSelf : grown kids parent i i = [] := by
    have hnot : parent ≠ some i := fun heq => hne i (hparent i heq).1 rfl
    rw [grown, if_neg hnot, if_pos rfl]
  constructor
  · intro j hj
    rcases (hused j).mp hj with heq | hj
    · rw [heq]
      exact hlt
    · exact h.lt j hj
  · intro j hj
    rw [hpid' j]
    rcases (hused j).mp hj with heq | hj
    · rw [if_pos heq]
      exact hpid
    · rw [if_neg (hne j hj)]
      exact h.pid j hj
  · intro j k hj hk heq
    rw [hpid' j, hpid' k] at heq
    rcases (hused j).mp hj with hji | hj <;> rcases (hused k).mp hk with hki | hk
    · rw [hji, hki]
    · rw [if_pos hji, if_neg (hne k hk)] at heq
      exact absurd heq.symm (hfresh k hk)
    · rw [if_neg (hne j hj), if_pos hki] at heq
      exact absurd heq (hfresh j hj)
    · rw [if_neg (hne j hj), if_neg (hne k hk)] at heq
      exact h.unique j k hj hk heq
  · intro q hq
    rcases (hused q).mp hq with heq | hq
    · have hhead : (t.processes i).childrenHead = none := congrArg (·.2.2.2.1) hnew
      rw [heq, hkidsSelf, Sched.Children, hhead]
      exact isList_nil.mpr rfl
    · have hhead : (t.processes q).childrenHead = if parent = some q then some i else (s.processes q).childrenHead :=
        congrArg (·.2.2.2.1) (hother q (hne q hq))
      have hold : IsList t.nextChild (s.processes q).childrenHead (kids q) :=
        (h.children q hq).congr fun j hj => hnext j (hmem q j hq hj)
      rw [Sched.Children, hhead]
      by_cases heq : parent = some q
      · have hfirst : t.nextChild i = (s.processes q).childrenHead := by
          have hlink : t.nextChild i = parent.elim none fun q => (s.processes q).childrenHead := congrArg (·.2.2.2.2) hnew
          rw [hlink, heq]
          rfl
        rw [if_pos heq, grown, if_pos heq, isList_cons, hfirst]
        exact ⟨rfl, hold⟩
      · rw [if_neg heq, hkids q (hne q hq) heq]
        exact hold
  · intro q j hq hj
    rcases (hused q).mp hq with heq | hq
    · rw [heq, hkidsSelf] at hj
      cases hj
    · rw [hpid' q, if_neg (hne q hq)]
      by_cases heq : parent = some q
      · rw [grown, if_pos heq, List.mem_cons] at hj
        rcases hj with hji | hj
        · rw [hji, hppidNew, heq]
          exact ⟨(hused i).mpr (Or.inl rfl), rfl⟩
        · rw [hppid j (hmem q j hq hj)]
          exact ⟨(hused j).mpr (Or.inr (h.child q j hq hj).1), (h.child q j hq hj).2⟩
      · rw [hkids q (hne q hq) heq] at hj
        rw [hppid j (hmem q j hq hj)]
        exact ⟨(hused j).mpr (Or.inr (h.child q j hq hj).1), (h.child q j hq hj).2⟩
  · intro j hj hppidNe
    rcases (hused j).mp hj with heq | hj
    · rw [heq, hppidNew] at hppidNe
      cases parent with
      | none => exact absurd rfl hppidNe
      | some q =>
          refine ⟨q, (hused q).mpr (Or.inr (hparent q rfl).1), ?_⟩
          rw [heq, grown, if_pos rfl]
          exact List.mem_cons_self
    · rw [hppid j (hne j hj)] at hppidNe
      obtain ⟨q, hq, hmemq⟩ := h.parent j hj hppidNe
      refine ⟨q, (hused q).mpr (Or.inr hq), ?_⟩
      by_cases heq : parent = some q
      · rw [grown, if_pos heq]
        exact List.mem_cons_of_mem i hmemq
      · rw [hkids q (hne q hq) heq]
        exact hmemq
  · intro j hj hended
    rcases (hused j).mp hj with heq | hj
    · rw [heq] at hended
      exact absurd halive hended
    · rw [hstate j (hne j hj)] at hended
      have hnot : parent ≠ some j := fun heq => hended (hparent j heq).2
      rw [hkids j (hne j hj) hnot, hppid j (hne j hj)]
      exact h.ended j hj hended

/-- The state in which a creation can be linked to its parent: the parent is alive and the next pid is in range and free. -/
structure Sched.CanSpawn (s : Sched) : Prop where
  pid : 0 < s.nextPid ∧ s.nextPid < 2 ^ 31
  fresh : ∀ j, (s.processes j).used = true → (s.processes j).pid ≠ s.nextPid
  parent : ∀ q, s.current = some q → (s.processes q).used = true ∧ (s.processes q).state.Alive

theorem processSpawnKernel_family {s : Sched} {kids : Nat → List Nat} (h : Family s kids) (hspawn : s.CanSpawn) (ok : Bool) :
    ∃ kids', Family (processSpawnKernel s ok).2 kids' := by
  rw [processSpawnKernel]
  cases hslot : allocProcessSlot s with
  | none =>
      rw [createKernelProcess_of_full s.current ok hslot]
      exact ⟨kids, h⟩
  | some i =>
      obtain ⟨hlt, hunused⟩ := allocProcessSlot_some hslot
      have hne : ∀ q, (s.processes q).used = true → q ≠ i := by
        intro q hq heq
        rw [heq, hunused] at hq
        cases hq
      rw [createKernelProcess_of_slot s.current ok hslot]
      cases ok with
      | false =>
          -- the slot stays free
          refine ⟨kids, h.of_kin (fun j => ?_) (fun j hj => ?_) (Ends.set_alive alive_ready)⟩
          · by_cases heq : j = i
            · rw [heq, hunused]
              exact congrArg Process.used (set_processes_self _ i _)
            · exact congrArg Process.used (set_processes_of_ne heq _)
          · exact congrArg Process.kin (set_processes_of_ne (hne j hj) _)
      | true =>
          have hpush : ∀ w : Sched, ∀ kids', Family w kids' → Family (runqPush w i) kids' :=
            fun w kids' hw => hw.of_schedOnly (runqPush_schedOnly w i) (Ends.of_linksOnly (runqPush_linksOnly w i))
          refine ⟨grown kids s.current i, hpush _ _ ?_⟩
          cases hcurrent : s.current with
          | none =>
              have hnone : ∀ q, (none : Option Nat) = some q → (s.processes q).used = true ∧ (s.processes q).state.Alive := nofun
              refine h.grow hlt hunused hnone hspawn.fresh hspawn.pid ?_ ?_ (fun j hj => ?_) fun j hj => ?_
              · exact congrArg Process.kin (set_processes_self _ i _)
              · simp [Sched.set, newProcess, alive_ready]
              · exact congrArg Process.kin (set_processes_of_ne hj _)
              · exact congrArg Process.state (set_processes_of_ne hj _)
          | some q =>
              obtain ⟨hused, halive⟩ := hspawn.parent q hcurrent
              have hqi := hne q hused
              have hparent : ∀ r, some q = some r → (s.processes r).used = true ∧ (s.processes r).state.Alive := by
                intro r heq
                cases heq
                exact ⟨hused, halive⟩
              refine h.grow hlt hunused hparent hspawn.fresh hspawn.pid ?_ ?_ (fun j hj => ?_) fun j hj => ?_
              · simp [parentLinkChild, Sched.set, Process.kin, newProcess, Process.zeroed, hqi, Ne.symm hqi]
              · simp [parentLinkChild, Sched.set, newProcess, Ne.symm hqi, alive_ready]
              · by_cases heq : j = q
                · simp [parentLinkChild, Sched.set, Process.kin, heq, hqi]
                · simp [parentLinkChild, Sched.set, Process.kin, heq, hj, Ne.symm heq]
              · by_cases heq : j = q
                · simp [parentLinkChild, Sched.set, heq, hqi]
                · simp [parentLinkChild, Sched.set, heq, hj]

/-! ### Reaping -/

section Unlink

variable {s : Sched} {q i : Nat} {before after : List Nat}

/-- What unlinking `i`, which stands behind `before` in the list of `q`, leaves in the links. -/
structure Unlinked (s s' : Sched) (q i : Nat) (before : List Nat) : Prop where
  head : ∀ j, (s'.processes j).childrenHead = if j = q ∧ before = [] then s.nextChild i else (s.processes j).childrenHead
  next : ∀ j, j ≠ i → s'.nextChild j = if before.getLast? = some j then s.nextChild i else s.nextChild j

theorem set_childrenHead (s : Sched) (i j : Nat) (p : Process) :
    ((s.set i p).processes j).childrenHead = if j = i then p.childrenHead else (s.processes j).childrenHead := by
  by_cases heq : j = i
  · rw [heq, set_processes_self, if_pos rfl]
  · rw [set_processes_of_ne heq, if_neg heq]

theorem set_nextChild (s : Sched) (i j : Nat) (p : Process) :
    (s.set i p).nextChild j = if j = i then p.parentNextChild else s.nextChild j := by
  by_cases heq : j = i
  · rw [heq, Sched.nextChild, set_processes_self, if_pos rfl]
  · rw [Sched.nextChild, set_processes_of_ne heq, if_neg heq]
    rfl

theorem parentUnlinkLoop_unlinked {prev : Option Nat} {head : Option Nat} {fuel : Nat} {passed : List Nat}
    (hlist : IsList s.nextChild head (before ++ i :: after)) (hprev : prev = passed.getLast?) (hfuel : before.length < fuel)
    (hpassed : i ∉ passed ++ before) : Unlinked s (parentUnlinkLoop s q i fuel prev head) q i (passed ++ before) := by
  induction before generalizing prev head fuel passed with
  | nil =>
      obtain ⟨fuel, rfl⟩ : ∃ k, fuel = k + 1 := ⟨fuel - 1, by omega⟩
      rw [List.nil_append, isList_cons] at hlist
      rw [List.append_nil] at hpassed ⊢
      rw [hlist.1, hprev, parentUnlinkLoop, if_pos rfl]
      cases hlast : passed.getLast? with
      | none =>
          rw [List.getLast?_eq_none_iff] at hlast
          constructor
          · intro j
            simp only [set_childrenHead, hlast, and_true]
            by_cases hji : j = i
            · rw [if_pos hji, hji]
              rfl
            · rw [if_neg hji]
              rfl
          · intro j hj
            simp only [set_nextChild, if_neg hj, hlast, List.getLast?_nil, reduceCtorEq, if_false]
            split
            · rename_i hjq
              rw [hjq]
              rfl
            · rfl
      | some y =>
          have hne : passed ≠ [] := by
            rintro rfl
            cases hlast
          constructor
          · intro j
            simp only [set_childrenHead, hne, and_false, if_false]
            by_cases hji : j = i
            · rw [if_pos hji, hji]
              split
              · rename_i hiy
                rw [hiy]
              · rfl
            · rw [if_neg hji]
              split
              · rename_i hjy
                rw [hjy]
              · rfl
          · intro j hj
            simp only [set_nextChild, if_neg hj, hlast, Option.some.injEq]
            by_cases hjy : j = y
            · rw [if_pos hjy, if_pos hjy.symm]
              rfl
            · rw [if_neg hjy, if_neg (Ne.symm hjy)]
  | cons x before ih =>
      obtain ⟨fuel, rfl⟩ : ∃ k, fuel = k + 1 := ⟨fuel - 1, by omega⟩
      rw [List.cons_append, isList_cons] at hlist
      have hxi : x ≠ i := by
        rintro rfl
        exact hpassed (List.mem_append_right passed List.mem_cons_self)
      rw [hlist.1, parentUnlinkLoop, if_neg hxi]
      have hstep := @ih (some x) (s.nextChild x) fuel (passed ++ [x]) hlist.2 (by simp) (by simpa using hfuel) (by simpa using hpassed)
      rw [List.append_assoc, List.singleton_append] at hstep
      exact hstep

theorem parentUnlinkChild_unlinked (hlist : s.Children q (before ++ i :: after)) (hlength : before.length ≤ processMaxCount) :
    Unlinked s (parentUnlinkChild s q i) q i before := by
  have hnodup := IsList.nodup hlist
  rw [List.nodup_append] at hnodup
  have hnot : i ∉ ([] : List Nat) ++ before := fun hmem => hnodup.2.2 i hmem i List.mem_cons_self rfl
  exact parentUnlinkLoop_unlinked hlist rfl (by omega) hnot

end Unlink

/-- The list without the unlinked process. -/
theorem Unlinked.children {s t : Sched} {q i : Nat} {before after : List Nat} (h : Unlinked s t q i before)
    (hlist : s.Children q (before ++ i :: after)) : t.Children q (before ++ after) := by
  have hnodup := IsList.nodup hlist
  have hne : ∀ j ∈ before ++ after, j ≠ i := by
    intro j hj heq
    subst heq
    exact List.nodup_middle.mp hnodup |> List.nodup_cons.mp |>.1 hj
  rw [Sched.Children, h.head q]
  rcases List.eq_nil_or_concat before with rfl | ⟨ahead, y, rfl⟩
  · rw [if_pos ⟨rfl, rfl⟩]
    rw [Sched.Children, List.nil_append, isList_cons] at hlist
    refine hlist.2.congr fun j hj => ?_
    rw [h.next j (hne j hj), List.getLast?_nil, if_neg (by simp)]
  · rw [if_neg (by simp)]
    rw [Sched.Children, List.concat_eq_append] at hlist
    rw [List.concat_eq_append]
    refine hlist.remove.congr fun j hj => ?_
    rw [h.next j (hne j (by simpa using hj)), List.concat_eq_append, List.getLast?_concat]
    by_cases heq : j = y
    · rw [heq, if_pos rfl, Function.update_self]
    · rw [Function.update_of_ne heq, if_neg fun h => heq (Option.some.inj h).symm]

/-- A process that has ended leaves its slot and the list of its parent. -/
theorem Family.reap {s : Sched} {kids : Nat → List Nat} {q i : Nat} (h : Family s kids) (hq : (s.processes q).used = true)
    (hi : i ∈ kids q) (hended : ¬ (s.processes i).state.Alive) :
    Family (resetProcessSlot (parentUnlinkChild s q i) i) (Function.update kids q ((kids q).erase i)) := by
  obtain ⟨before, after, hkids⟩ := List.append_of_mem hi
  have hlist := h.children q hq
  rw [hkids] at hlist
  have hnodup : (kids q).Nodup := (h.children q hq).nodup
  have hinside : ∀ j ∈ before, j ∈ kids q := by
    intro j hj
    rw [hkids]
    exact List.mem_append_left _ hj
  have hlength : before.length ≤ processMaxCount := by
    have hle := h.length_le hq
    rw [hkids, List.length_append] at hle
    omega
  have hunlinked := parentUnlinkChild_unlinked hlist hlength
  have hlinks := parentUnlinkChild_childLinks s q i
  generalize hw : parentUnlinkChild s q i = w at hunlinked hlinks
  have hleaf : kids i = [] := (h.ended i (h.child q i hq hi).1 hended).1
  have hqi : q ≠ i := by
    intro heq
    rw [heq, hleaf] at hi
    cases hi
  have hslot : ∀ j, j ≠ i → (resetProcessSlot w i).processes j = w.processes j := fun j hj => set_processes_of_ne hj _
  have hused : ∀ j, ((resetProcessSlot w i).processes j).used = true ↔ (s.processes j).used = true ∧ j ≠ i := by
    intro j
    by_cases heq : j = i
    · simp [heq, resetProcessSlot]
    · rw [hslot j heq, hlinks.field Process.used fun _ _ _ => rfl]
      exact (and_iff_left heq).symm
  have hpid : ∀ j, j ≠ i → ((resetProcessSlot w i).processes j).pid = (s.processes j).pid := by
    intro j hj
    rw [hslot j hj, hlinks.field Process.pid fun _ _ _ => rfl]
  have hppid : ∀ j, j ≠ i → ((resetProcessSlot w i).processes j).ppid = (s.processes j).ppid := by
    intro j hj
    rw [hslot j hj, hlinks.field Process.ppid fun _ _ _ => rfl]
  -- the list of the parent loses the process, the others do not have it
  have herase : (kids q).erase i = before ++ after := by
    have hnot : i ∉ before := by
      rw [hkids, List.nodup_middle, List.nodup_cons] at hnodup
      exact fun hmem => hnodup.1 (List.mem_append_left after hmem)
    rw [hkids, List.erase_append_right _ hnot, List.erase_cons_head]
  have hmem : ∀ r j, (s.processes r).used = true → (j ∈ Function.update kids q ((kids q).erase i) r ↔ j ∈ kids r ∧ j ≠ i) := by
    intro r j hr
    by_cases heq : r = q
    · rw [heq, Function.update_self, hnodup.mem_erase_iff, and_comm]
    · rw [Function.update_of_ne heq]
      refine (and_iff_left_of_imp fun hj hji => heq ?_).symm
      rw [hji] at hj
      exact h.parent_unique hr hq hj hi
  constructor
  · intro j hj
    exact h.lt j ((hused j).mp hj).1
  · intro j hj
    obtain ⟨hj, hji⟩ := (hused j).mp hj
    rw [hpid j hji]
    exact h.pid j hj
  · intro j k hj hk heq
    obtain ⟨hj, hji⟩ := (hused j).mp hj
    obtain ⟨hk, hki⟩ := (hused k).mp hk
    rw [hpid j hji, hpid k hki] at heq
    exact h.unique j k hj hk heq
  · intro r hr
    obtain ⟨hr, hri⟩ := (hused r).mp hr
    have hreset : w.Children r (Function.update kids q ((kids q).erase i) r) := by
      by_cases heq : r = q
      · rw [heq, Function.update_self, herase]
        exact hunlinked.children hlist
      · rw [Function.update_of_ne heq, Sched.Children, hunlinked.head r, if_neg fun h => heq h.1]
        refine (h.children r hr).congr fun j hj => ?_
        have hji : j ≠ i := by
          intro hsame
          rw [hsame] at hj
          exact heq (h.parent_unique hr hq hj hi)
        rw [hunlinked.next j hji, if_neg]
        intro hlast
        exact heq (h.parent_unique hr hq hj (hinside j (List.mem_of_getLast? hlast)))
    rw [Sched.Children, hslot r hri]
    refine hreset.congr fun j hj => ?_
    rw [Sched.nextChild, hslot j ((hmem r j hr).mp hj).2]
    rfl
  · intro r j hr hj
    obtain ⟨hr, hri⟩ := (hused r).mp hr
    obtain ⟨hj, hji⟩ := (hmem r j hr).mp hj
    obtain ⟨hjused, hjppid⟩ := h.child r j hr hj
    rw [hpid r hri, hppid j hji]
    exact ⟨(hused j).mpr ⟨hjused, hji⟩, hjppid⟩
  · intro j hj hne
    obtain ⟨hj, hji⟩ := (hused j).mp hj
    rw [hppid j hji] at hne
    obtain ⟨r, hr, hmemr⟩ := h.parent j hj hne
    have hri : r ≠ i := by
      intro heq
      rw [heq, hleaf] at hmemr
      cases hmemr
    exact ⟨r, (hused r).mpr ⟨hr, hri⟩, (hmem r j hr).mpr ⟨hmemr, hji⟩⟩
  · intro j hj hendedj
    obtain ⟨hj, hji⟩ := (hused j).mp hj
    rw [hslot j hji, hlinks.field Process.state fun _ _ _ => rfl] at hendedj
    obtain ⟨hnone, hne⟩ := h.ended j hj hendedj
    rw [hppid j hji]
    refine ⟨?_, hne⟩
    rw [List.eq_nil_iff_forall_not_mem]
    intro k hk
    rw [hmem j k hj, hnone] at hk
    cases hk.1

section Wait

variable {s : Sched} {kids : Nat → List Nat} {caller : Nat} {target : Int} {l : List Nat}

theorem waitScan_mem {fuel child : Nat} {head : Option Nat} {matched : Bool} (hlist : IsList s.nextChild head l)
    (hfound : (waitScan s caller target fuel head matched).1 = some child) : child ∈ l := by
  induction l generalizing head fuel matched with
  | nil =>
      rw [isList_nil.mp hlist] at hfound
      cases fuel <;> simp [waitScan] at hfound
  | cons x l ih =>
      rw [isList_cons] at hlist
      rw [hlist.1] at hfound
      cases fuel with
      | zero => simp [waitScan] at hfound
      | succ fuel =>
          simp only [waitScan] at hfound
          split at hfound
          · cases hfound
            exact List.mem_cons_self
          · exact List.mem_cons_of_mem x (ih hlist.2 hfound)

/-- The scan finds the one zombie of the list that matches. -/
theorem waitScan_finds {fuel child : Nat} {head : Option Nat} {matched : Bool} (hlist : IsList s.nextChild head l)
    (hfuel : l.length ≤ fuel) (hmem : child ∈ l) (hzombie : (s.processes child).state = .zombie)
    (hmatch : ∀ j ∈ l, waitMatchChild (s.processes caller) (s.processes j) target = true ↔ j = child) :
    waitScan s caller target fuel head matched = (some child, true) := by
  induction l generalizing head fuel matched with
  | nil => cases hmem
  | cons x l ih =>
      rw [isList_cons] at hlist
      obtain ⟨fuel, rfl⟩ : ∃ k, fuel = k + 1 := ⟨fuel - 1, by simp only [List.length_cons] at hfuel; omega⟩
      rw [hlist.1, waitScan]
      by_cases heq : x = child
      · subst heq
        simp [(hmatch x List.mem_cons_self).mpr rfl, hzombie]
      · have hmiss : waitMatchChild (s.processes caller) (s.processes x) target = false := by
          rw [← Bool.not_eq_true, hmatch x List.mem_cons_self]
          exact heq
        simp only [hmiss, Bool.false_and, Bool.false_eq_true, if_false]
        have hrest : child ∈ l := (List.mem_cons.mp hmem).resolve_left (Ne.symm heq)
        exact ih hlist.2 (by simpa using hfuel) hrest fun j hj => hmatch j (List.mem_cons_of_mem x hj)

theorem processWaitpid_family (h : Family s kids) (callerPid targetPid : Int) (nohang : Bool) :
    ∃ kids', Family (processWaitpid s callerPid targetPid nohang).2 kids' := by
  rw [processWaitpid]
  split
  · exact ⟨kids, h⟩
  rename_i caller hcaller
  have hused := (findByPid_some hcaller).2.1
  split
  · rename_i child matched hscan
    have hfound := congrArg Prod.fst hscan
    have hchild := waitScan_mem (h.children caller hused) hfound
    have hzombie := waitScan_zombie hfound
    exact ⟨_, h.reap hused hchild fun halive => halive.1 hzombie⟩
  · exact ⟨kids, h⟩
  · split
    · exact ⟨kids, h⟩
    split
    · split
      · exact ⟨kids, h.of_schedOnly (setState_schedOnly s _ .blocked) (Ends.set_alive alive_blocked)⟩
      · exact ⟨kids, h⟩
    · exact ⟨kids, h⟩

end Wait

/-! ### Runs -/

/-- The states from which a call leaves every child with its parent: a process is created by a live one under a pid that is in range and free, and a process that is terminated has a parent and no children. -/
def ReapSafe (s : Sched) : SchedCall → Prop
  | .spawnKernel _ => s.CanSpawn
  | .exitCurrent _ => ∀ c, s.current = some c → s.Leaf c
  | .kill pid sig => sig = processSigkill → ∀ i, findByPid s pid = some i → s.Leaf i
  | .killPgid pgid sig => sig = processSigkill → ∀ i, asInt (s.processes i).pgid = pgid → s.Leaf i
  | .scheduleTick => ∀ c, s.current = some c → (s.processes c).state = .running → s.Fatal c → s.Leaf c
  | _ => True

theorem SchedCall.step_family {s : Sched} (h : ∃ kids, Family s kids) {call : SchedCall} (hsafe : ReapSafe s call) :
    ∃ kids, Family (call.step s) kids := by
  obtain ⟨kids, h⟩ := h
  cases call with
  | spawnKernel ok => exact processSpawnKernel_family h hsafe ok
  | exec pid => exact ⟨kids, processExec_family h pid⟩
  | exitCurrent code => exact ⟨kids, processExitCurrent_family h code hsafe⟩
  | kill pid sig => exact ⟨kids, processKill_family h hsafe⟩
  | killPgid pgid sig => exact ⟨kids, processKillPgid_family h hsafe⟩
  | setPriority pid priority => exact ⟨kids, processSetPriority_family h pid priority⟩
  | signalRegister pid sig handler => exact ⟨kids, processSignalRegister_family h pid sig handler⟩
  | signalMask pid how set => exact ⟨kids, processSignalMask_family h pid how set⟩
  | waitpid callerPid targetPid nohang => exact processWaitpid_family h callerPid targetPid nohang
  | yield => exact ⟨kids, processYield_family h⟩
  | scheduleTick => exact ⟨kids, processScheduleTick_family h hsafe⟩

/-- The processes `process_init` leaves have neither parents nor children. -/
theorem processInit_kin (vmOk idleOk : Bool) (i : Nat) :
    let p := (processInit vmOk idleOk).processes i
    p.ppid = 0 ∧ p.childrenHead = none ∧ (p.used = true → p.state.Alive ∧ i < 2 ∧ p.pid = i + 1) := by
  cases vmOk with
  | false =>
      match i with
      | 0 => decide +revert
      | _ + 1 => exact ⟨rfl, rfl, nofun⟩
  | true =>
      cases idleOk with
      | false =>
          match i with
          | 0 => decide
          | 1 => decide
          | _ + 2 => exact ⟨rfl, rfl, nofun⟩
      | true =>
          match i with
          | 0 => decide
          | 1 => decide
          | _ + 2 => exact ⟨rfl, rfl, nofun⟩

theorem processInit_family (vmOk idleOk : Bool) : Family (processInit vmOk idleOk) fun _ => [] := by
  have hkin := processInit_kin vmOk idleOk
  constructor
  · intro i hi
    exact lt_trans ((hkin i).2.2 hi).2.1 (by decide)
  · intro i hi
    obtain ⟨-, hlt, hpid⟩ := (hkin i).2.2 hi
    omega
  · intro i j hi hj heq
    have hpidi := ((hkin i).2.2 hi).2.2
    have hpidj := ((hkin j).2.2 hj).2.2
    omega
  · intro q _
    rw [Sched.Children, (hkin q).2.1]
    exact isList_nil.mpr rfl
  · intro q i _ hi
    cases hi
  · intro i _ hne
    exact absurd (hkin i).1 hne
  · intro i hi hended
    exact absurd ((hkin i).2.2 hi).1 hended

/-- Every process with a parent is once in the list of a process in use that has its parent's pid, every entry of a list is in use, and every zombie is reaped by the wait of a live process. -/
structure ChildrenReapable (s : Sched) : Prop where
  listed : ∀ i, (s.processes i).used = true → (s.processes i).ppid ≠ 0 →
    ∃ q l, (s.processes q).used = true ∧ (s.processes q).pid = (s.processes i).ppid ∧ s.Children q l ∧ l.count i = 1
  entries : ∀ q, (s.processes q).used = true → ∃ l, s.Children q l ∧ ∀ i ∈ l, (s.processes i).used = true
  reapable : ∀ i, (s.processes i).used = true → (s.processes i).state = .zombie →
    ∃ q, (s.processes q).used = true ∧ (s.processes q).state.Alive ∧
      let (result, s') := processWaitpid s (asInt (s.processes q).pid) (asInt (s.processes i).pid) true
      result = .reaped (s.processes i).pid (s.processes i).waitStatus ∧ (s'.processes i).used = false ∧
        (s'.processes i).kernelStack = false

namespace Family

variable {s : Sched} {kids : Nat → List Nat}

theorem asInt_pid (h : Family s kids) {i : Nat} (hi : (s.processes i).used = true) : asInt (s.processes i).pid = (s.processes i).pid := by
  rw [asInt, if_pos (h.pid i hi).2]

theorem findByPid (h : Family s kids) {q : Nat} (hq : (s.processes q).used = true) :
    findByPid s (asInt (s.processes q).pid) = some q := by
  have hsome : (Tsukasa.findByPid s (asInt (s.processes q).pid)).isSome := by
    rw [Tsukasa.findByPid, List.find?_isSome]
    refine ⟨q, List.mem_range.mpr (h.lt q hq), ?_⟩
    simp [hq]
  obtain ⟨r, hr⟩ := Option.isSome_iff_exists.mp hsome
  obtain ⟨-, hused, hpid⟩ := findByPid_some hr
  rw [h.asInt_pid hused, h.asInt_pid hq] at hpid
  rw [hr, h.unique r q hused hq (by exact_mod_cast hpid)]

/-- A wait of the parent for the pid of a zombie reaps it. -/
theorem waitpid_reaps (h : Family s kids) {q i : Nat} (hq : (s.processes q).used = true) (hi : i ∈ kids q)
    (hzombie : (s.processes i).state = .zombie) :
    processWaitpid s (asInt (s.processes q).pid) (asInt (s.processes i).pid) true =
      (.reaped (s.processes i).pid (s.processes i).waitStatus, resetProcessSlot (parentUnlinkChild s q i) i) := by
  have hused := (h.child q i hq hi).1
  have hmatch : ∀ j ∈ kids q, waitMatchChild (s.processes q) (s.processes j) (asInt (s.processes i).pid) = true ↔ j = i := by
    intro j hj
    have hjused := (h.child q j hq hj).1
    have hpos := (h.pid i hused).1
    rw [waitMatchChild, h.asInt_pid hused, if_neg (by omega), if_pos (by omega), decide_eq_true_iff, h.asInt_pid hjused]
    constructor
    · intro heq
      exact h.unique j i hjused hused (by exact_mod_cast heq)
    · intro heq
      rw [heq]
  have hscan : waitScan s q (asInt (s.processes i).pid) (processMaxCount + 1) (s.processes q).childrenHead false = (some i, true) :=
    waitScan_finds (h.children q hq) (Nat.le_succ_of_le (h.length_le hq)) hi hzombie hmatch
  rw [processWaitpid, h.findByPid hq]
  simp only [hscan]

theorem childrenReapable (h : Family s kids) : ChildrenReapable s := by
  constructor
  · intro i hi hne
    obtain ⟨q, hq, hmem⟩ := h.parent i hi hne
    have hnodup : (kids q).Nodup := (h.children q hq).nodup
    exact ⟨q, kids q, hq, (h.child q i hq hmem).2.symm, h.children q hq, List.count_eq_one_of_mem hnodup hmem⟩
  · intro q hq
    exact ⟨kids q, h.children q hq, fun i hi => (h.child q i hq hi).1⟩
  · intro i hi hzombie
    have hended : ¬ (s.processes i).state.Alive := fun halive => halive.1 hzombie
    obtain ⟨q, hq, hmem⟩ := h.parent i hi (h.ended i hi hended).2
    have halive : (s.processes q).state.Alive := by
      by_contra hdead
      rw [(h.ended q hq hdead).1] at hmem
      cases hmem
    refine ⟨q, hq, halive, ?_⟩
    rw [h.waitpid_reaps hq hmem hzombie]
    simp [resetProcessSlot]

end Family

/-- Along every run whose calls are safe the children stay with their parents and zombies can be reaped. -/
theorem children_reapable {vmOk idleOk : Bool} {calls : List SchedCall}
    (hsafe : Allowed ReapSafe SchedCall.step (processInit vmOk idleOk) calls) :
    ChildrenReapable (run SchedCall.step (processInit vmOk idleOk) calls) := by
  have hstep : ∀ s call, (∃ kids, Family s kids) → ReapSafe s call → ∃ kids, Family (SchedCall.step s call) kids :=
    fun s call h hsafe => SchedCall.step_family h hsafe
  obtain ⟨kids, h⟩ := run_invariant hstep ⟨_, processInit_family vmOk idleOk⟩ hsafe
  exact h.childrenReapable

/-- A child that exits under the process that created it. -/
theorem children_reapable_exitedChild :
    Allowed ReapSafe SchedCall.step (processInit true true) [.spawnKernel true, .scheduleTick, .exitCurrent 7#32] ∧
      ChildrenReapable (run SchedCall.step (processInit true true) [.spawnKernel true, .scheduleTick, .exitCurrent 7#32]) := by
  have hspawn : (processInit true true).CanSpawn := by
    refine ⟨by decide, fun j hj => ?_, fun q hq => ?_⟩
    · obtain ⟨-, hlt, hpid⟩ := (processInit_kin true true j).2.2 hj
      have hnext : (processInit true true).nextPid = 3 := rfl
      omega
    · cases hq
      decide
  have hsafe : Allowed ReapSafe SchedCall.step (processInit true true) [.spawnKernel true, .scheduleTick, .exitCurrent 7#32] := by
    refine ⟨hspawn, fun c hc hrunning => ?_, fun c hc => ?_, trivial⟩
    · cases hc
      exact absurd hrunning (by decide)
    · have hcurrent : (SchedCall.step (SchedCall.step (processInit true true) (.spawnKernel true)) .scheduleTick).current = some 2 := by
        decide
      rw [hcurrent] at hc
      cases hc
      intro _
      decide
  exact ⟨hsafe, children_reapable hsafe⟩

/-- Process 3 creates process 4 and exits, and process 1 reaps it: process 4 is in use, its parent's pid is that of no process, and it is in no list. -/
theorem reaped_parent_orphans_child :
    ¬ ChildrenReapable (run SchedCall.step (processInit true true) [.spawnKernel true, .scheduleTick, .spawnKernel true, .exitCurrent 0#32,
      .scheduleTick, .scheduleTick, .scheduleTick, .scheduleTick, .scheduleTick, .waitpid 1 3 true]) := by
  generalize hs : run SchedCall.step (processInit true true) [.spawnKernel true, .scheduleTick, .spawnKernel true, .exitCurrent 0#32,
    .scheduleTick, .scheduleTick, .scheduleTick, .scheduleTick, .scheduleTick, .waitpid 1 3 true] = s
  have hchild : (s.processes 3).used = true ∧ (s.processes 3).ppid = 3 := by
    rw [← hs]
    decide +kernel
  have hnone : ∀ q, (s.processes q).used = true → (s.processes q).pid ≠ 3 := by
    rw [← hs]
    intro q
    match q with
    | 0 => decide +kernel
    | 1 => decide +kernel
    | 2 => decide +kernel
    | 3 => decide +kernel
    | _ + 4 => exact nofun
  intro h
  obtain ⟨q, -, hq, hpid, -⟩ := h.listed 3 hchild.1 (by omega)
  exact hnone q hq (hpid.trans hchild.2)

end Tsukasa
