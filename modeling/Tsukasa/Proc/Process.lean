import Tsukasa.Base.Word
import Mathlib.Logic.Function.Basic
import Mathlib.Data.BitVec

/-!
# Processes and the scheduler

`proc/process.c`: the process table, the run queues, signals, waiting and the scheduler tick, each critical section of `g_sched_lock` being one function. A pointer to a process is the index of its slot. The resources that termination and reaping give back (descriptors, shared memory, page tables, stacks) and the saved contexts belong to other modules; whether a process has a kernel stack is kept, and whether the allocations of a creation succeed is an argument.
-/

namespace Tsukasa

def processMaxCount : Nat := 256
def processMaxSignals : Nat := 64
def processPriorityLevels : Nat := 256
def processDefaultPriority : Nat := 128
def processDefaultTimeslice : Nat := 4

def processSigDfl : Nat := 0
def processSigIgn : Nat := 1
def processSigint : Nat := 2
def processSigkill : Nat := 9

inductive ProcessState where
  | created
  | ready
  | running
  | blocked
  | sleeping
  | stopped
  | zombie
  | dead
  deriving DecidableEq

structure Process where
  used : Bool
  pid : Nat
  ppid : Nat
  pgid : Nat
  state : ProcessState
  isIdle : Bool
  /-- Whether `kernel_stack` is non-null. -/
  kernelStack : Bool
  waitStatus : BitVec 32
  signalMask : BitVec 64
  signalPending : BitVec 64
  signalHandlers : Nat → Nat
  priority : Nat
  timeSlice : Nat
  rqNext : Option Nat
  nextQueue : Option Nat
  prevQueue : Option Nat
  childrenHead : Option Nat
  parentNextChild : Option Nat

/-- A slot with all bytes zero. -/
def Process.zeroed : Process where
  used := false
  pid := 0
  ppid := 0
  pgid := 0
  state := .created
  isIdle := false
  kernelStack := false
  waitStatus := 0#32
  signalMask := 0#64
  signalPending := 0#64
  signalHandlers _ := 0
  priority := 0
  timeSlice := 0
  rqNext := none
  nextQueue := none
  prevQueue := none
  childrenHead := none
  parentNextChild := none

structure Sched where
  processes : Nat → Process
  current : Option Nat
  idle : Option Nat
  runqHead : Nat → Option Nat
  runqTail : Nat → Option Nat
  nextPid : Nat

namespace Sched

def set (s : Sched) (i : Nat) (p : Process) : Sched := { s with processes := Function.update s.processes i p }

def setState (s : Sched) (i : Nat) (state : ProcessState) : Sched := s.set i { s.processes i with state := state }

end Sched

/-- `(int)` of a 32-bit unsigned value. -/
def asInt (n : Nat) : Int := if n < 2 ^ 31 then n else n - 2 ^ 32

def waitStatusExit (code : BitVec 32) : BitVec 32 := (code &&& 0xFF#32) <<< 8

def waitStatusSignal (sig : Nat) : BitVec 32 := BitVec.ofNat 32 sig &&& 0x7F#32

def findByPid (s : Sched) (pid : Int) : Option Nat :=
  (List.range processMaxCount).find? fun i => (s.processes i).used && decide (asInt (s.processes i).pid = pid)

def allocProcessSlot (s : Sched) : Option Nat := (List.range processMaxCount).find? fun i => !(s.processes i).used

/-! ### Run queues -/

def clampPriority (pri : Nat) : Nat := if processPriorityLevels ≤ pri then processPriorityLevels - 1 else pri

def runqPush (s : Sched) (i : Nat) : Sched :=
  let pri := clampPriority (s.processes i).priority
  let s := s.set i { s.processes i with rqNext := none, nextQueue := none, prevQueue := s.runqTail pri }
  match s.runqHead pri, s.runqTail pri with
  | none, _ =>
      { s with
        runqHead := Function.update s.runqHead pri (some i)
        runqTail := Function.update s.runqTail pri (some i) }
  | some _, some t =>
      let s := s.set t { s.processes t with rqNext := some i, nextQueue := some i }
      { s with runqTail := Function.update s.runqTail pri (some i) }
  -- a queue with a head and no tail, on which the source dereferences a null pointer
  | some _, none => s

def runqPop (s : Sched) : Option Nat × Sched :=
  match (List.range processPriorityLevels).find? fun pri => (s.runqHead pri).isSome with
  | none => (none, s)
  | some pri =>
      match s.runqHead pri with
      | none => (none, s)
      | some i =>
          let next := (s.processes i).rqNext
          let s := { s with runqHead := Function.update s.runqHead pri next }
          match next with
          | none =>
              let s := { s with runqTail := Function.update s.runqTail pri none }
              (some i, s.set i { s.processes i with rqNext := none, nextQueue := none, prevQueue := none })
          | some j =>
              let s := s.set j { s.processes j with prevQueue := none }
              (some i, s.set i { s.processes i with rqNext := none, nextQueue := none, prevQueue := none })

def runqBestPriority (s : Sched) : Option Nat :=
  (List.range processPriorityLevels).find? fun pri => (s.runqHead pri).isSome

/-- The unlinking in `runq_remove_locked`, once the loop has found `cur` behind `prev`. -/
def runqUnlink (s : Sched) (pri : Nat) (prev : Option Nat) (cur : Nat) : Sched :=
  let next := (s.processes cur).rqNext
  let s :=
    match prev with
    | some q => s.set q { s.processes q with rqNext := next }
    | none => { s with runqHead := Function.update s.runqHead pri next }
  let s := if s.runqTail pri = some cur then { s with runqTail := Function.update s.runqTail pri prev } else s
  let s :=
    match next with
    | some j => s.set j { s.processes j with prevQueue := prev }
    | none => s
  let s :=
    match prev with
    | some q => s.set q { s.processes q with nextQueue := next }
    | none => s
  s.set cur { s.processes cur with rqNext := none, nextQueue := none, prevQueue := none }

/-- The loop of `runq_remove_locked`. The fuel is one more than there are slots, which a list without a cycle does not use up. -/
def runqRemoveLoop (s : Sched) (pri target : Nat) : Nat → Option Nat → Option Nat → Sched
  | 0, _, _ => s
  | _ + 1, _, none => s
  | fuel + 1, prev, some cur =>
      if cur = target then runqUnlink s pri prev cur
      else runqRemoveLoop s pri target fuel (some cur) (s.processes cur).rqNext

def runqRemove (s : Sched) (target : Nat) : Sched :=
  let pri := clampPriority (s.processes target).priority
  runqRemoveLoop s pri target (processMaxCount + 1) none (s.runqHead pri)

/-! ### Children -/

def parentLinkChild (s : Sched) (parent child : Nat) : Sched :=
  let s := s.set child { s.processes child with parentNextChild := (s.processes parent).childrenHead }
  s.set parent { s.processes parent with childrenHead := some child }

/-- The loop of `parent_unlink_child_locked` over the list of children. -/
def parentUnlinkLoop (s : Sched) (parent child : Nat) : Nat → Option Nat → Option Nat → Sched
  | 0, _, _ => s
  | _ + 1, _, none => s
  | fuel + 1, prev, some cur =>
      if cur = child then
        let next := (s.processes cur).parentNextChild
        let s :=
          match prev with
          | some q => s.set q { s.processes q with parentNextChild := next }
          | none => s.set parent { s.processes parent with childrenHead := next }
        s.set child { s.processes child with parentNextChild := none }
      else parentUnlinkLoop s parent child fuel (some cur) (s.processes cur).parentNextChild

def parentUnlinkChild (s : Sched) (parent child : Nat) : Sched :=
  parentUnlinkLoop s parent child (processMaxCount + 1) none (s.processes parent).childrenHead

def resetProcessSlot (s : Sched) (i : Nat) : Sched :=
  s.set i { s.processes i with
    used := false, state := .dead, kernelStack := false, rqNext := none, nextQueue := none, prevQueue := none,
    childrenHead := none, parentNextChild := none }

/-! ### Termination and signals -/

/-- Making a blocked process ready: the common step of a wake-up. -/
def wake (s : Sched) (i : Nat) : Sched :=
  if (s.processes i).state = .blocked then runqPush (s.setState i .ready) i else s

def wakeParentIfWaiting (s : Sched) (child : Nat) : Sched :=
  if (s.processes child).ppid = 0 then s
  else
    match findByPid s (asInt (s.processes child).ppid) with
    | none => s
    | some parent => wake s parent

def markZombie (s : Sched) (i : Nat) (status : BitVec 32) : Sched :=
  if (s.processes i).state = .zombie ∨ (s.processes i).state = .dead then s
  else wakeParentIfWaiting (s.set i { s.processes i with waitStatus := status, state := .zombie }) i

def signalPickLowest (mask : BitVec 64) : Option Nat :=
  (List.range' 1 (processMaxSignals - 1)).find? fun sig => mask.getLsbD sig

/-- `prepare_signal_action_locked`: the handler and the signal to deliver, if there is one. -/
def prepareSignalAction (s : Sched) (i : Nat) : Option (Nat × Nat) × Sched :=
  let p := s.processes i
  if p.state = .zombie ∨ p.state = .dead then (none, s)
  else
    match signalPickLowest (p.signalPending &&& ~~~p.signalMask) with
    | none => (none, s)
    | some sig =>
        let s := s.set i { p with signalPending := p.signalPending &&& ~~~(BitVec.twoPow 64 sig) }
        let handler := p.signalHandlers sig
        if handler = processSigIgn then (none, s)
        else if handler = processSigDfl ∨ sig = processSigkill ∨ sig = processSigint then
          (none, markZombie s i (waitStatusSignal sig))
        else (some (handler, sig), s)

/-! ### Creation -/

/-- `create_kernel_process_locked`; `ok` says whether the page table and the stack are obtained. -/
def createKernelProcess (s : Sched) (parent : Option Nat) (ok : Bool) : Option Nat × Sched :=
  match allocProcessSlot s with
  | none => (none, s)
  | some i =>
      let pid := s.nextPid
      let s := { s.set i { Process.zeroed with used := true, pid := pid } with nextPid := wrap32 (s.nextPid + 1) }
      -- the parent is read after the slot has been zeroed: a parent in a freed slot may be the new process itself
      let s := s.set i { s.processes i with
        ppid := parent.elim 0 fun q => (s.processes q).pid
        pgid := pid
        state := .ready
        priority := parent.elim processDefaultPriority fun q => (s.processes q).priority
        timeSlice := processDefaultTimeslice }
      if ok then
        let s := s.set i { s.processes i with kernelStack := true }
        let s := parent.elim s fun q => parentLinkChild s q i
        (some i, runqPush s i)
      else (none, s.set i { s.processes i with used := false })

/-- `process_init` on the zeroed tables; `vmOk` and `idleOk` say whether the kernel page table and the idle process are obtained. -/
def processInit (vmOk idleOk : Bool) : Sched :=
  let s : Sched :=
    { processes := fun _ => Process.zeroed, current := none, idle := none, runqHead := fun _ => none,
      runqTail := fun _ => none, nextPid := 1 }
  let s := { s.set 0 { Process.zeroed with
    used := true, pid := 1, pgid := 1, state := .blocked, priority := processDefaultPriority,
    timeSlice := processDefaultTimeslice } with nextPid := 2 }
  if vmOk then
    match createKernelProcess { s with current := some 0 } none idleOk with
    | (some i, s) => runqRemove { s.set i { s.processes i with isIdle := true } with idle := some i } i
    | (none, s) => s
  else s

/-! ### Calls -/

/-- `process_spawn_kernel` with a non-null entry. -/
def processSpawnKernel (s : Sched) (ok : Bool) : Option Nat × Sched := createKernelProcess s s.current ok

/-- `process_exec` with a non-null entry. -/
def processExec (s : Sched) (pid : Int) : Int × Sched :=
  if pid ≤ 0 then (-1, s)
  else
    match findByPid s pid with
    | none => (-1, s)
    | some i =>
        let p := s.processes i
        if p.state = .dead ∨ p.state = .zombie ∨ s.current = some i then (-1, s)
        else
          let s := s.set i { p with signalPending := 0#64, signalMask := 0#64, signalHandlers := fun sig =>
            if sig < processMaxSignals then processSigDfl else p.signalHandlers sig }
          (if p.kernelStack then 0 else -1, s)

def processExitCurrent (s : Sched) (code : BitVec 32) : Int × Sched :=
  match s.current with
  | none => (-1, s)
  | some i => (0, markZombie s i (waitStatusExit code))

/-- The effect of a signal other than `SIGKILL` on a process: `process_kill` and the body of `process_kill_pgid`. -/
def postSignal (s : Sched) (i sig : Nat) : Sched :=
  if sig = processSigkill then markZombie s i (waitStatusSignal sig)
  else wake (s.set i { s.processes i with signalPending := (s.processes i).signalPending ||| BitVec.twoPow 64 sig }) i

def processKill (s : Sched) (pid sig : Int) : Int × Sched :=
  if pid ≤ 0 then (-1, s)
  else
    match findByPid s pid with
    | none => (-1, s)
    | some i =>
        if (s.processes i).state = .dead then (-1, s)
        else if sig = 0 then (0, s)
        else if sig ≤ 0 ∨ (processMaxSignals : Int) ≤ sig then (-1, s)
        else (0, postSignal s i sig.toNat)

/-- The test at the top of the loop of `process_kill_pgid`. -/
def inGroup (s : Sched) (pgid : Int) (i : Nat) : Bool :=
  (s.processes i).used && !decide ((s.processes i).state = .dead ∨ (s.processes i).state = .zombie) &&
    decide (asInt (s.processes i).pgid = pgid)

/-- The body of the loop of `process_kill_pgid`. -/
def killPgidStep (pgid : Int) (sig : Nat) (acc : Int × Sched) (i : Nat) : Int × Sched :=
  if inGroup acc.2 pgid i then (acc.1 + 1, postSignal acc.2 i sig) else acc

def processKillPgid (s : Sched) (pgid sig : Int) : Int × Sched :=
  if pgid ≤ 0 ∨ sig ≤ 0 ∨ (processMaxSignals : Int) ≤ sig then (-1, s)
  else (List.range processMaxCount).foldl (killPgidStep pgid sig.toNat) (0, s)

def processSetPriority (s : Sched) (pid : Int) (priority : Nat) : Int × Sched :=
  if pid ≤ 0 ∨ processPriorityLevels ≤ priority then (-1, s)
  else
    match findByPid s pid with
    | none => (-1, s)
    | some i =>
        if (s.processes i).state = .dead then (-1, s)
        else
          let s := if (s.processes i).state = .ready then runqRemove s i else s
          let s := s.set i { s.processes i with priority := priority }
          (0, if (s.processes i).state = .ready then runqPush s i else s)

def processSignalRegister (s : Sched) (pid sig : Int) (handler : Nat) : Int × Sched :=
  if sig ≤ 0 ∨ (processMaxSignals : Int) ≤ sig then (-1, s)
  else if sig = processSigkill ∧ handler ≠ processSigDfl then (-1, s)
  else
    match findByPid s pid with
    | none => (-1, s)
    | some i =>
        (0, s.set i { s.processes i with signalHandlers := Function.update (s.processes i).signalHandlers sig.toNat handler })

/-- How `process_signal_mask` combines the set with the mask; any other `how` is refused. -/
inductive MaskHow where
  | block
  | unblock
  | setMask

def processSignalMask (s : Sched) (pid : Int) (how : MaskHow) (set : BitVec 64) : Int × Sched :=
  match findByPid s pid with
  | none => (-1, s)
  | some i =>
      let p := s.processes i
      let mask :=
        match how with
        | .block => p.signalMask ||| set
        | .unblock => p.signalMask &&& ~~~set
        | .setMask => set
      (0, s.set i { p with signalMask := mask &&& ~~~(BitVec.twoPow 64 processSigkill) })

/-! ### Waiting -/

def waitMatchChild (caller child : Process) (targetPid : Int) : Bool :=
  if targetPid = -1 then true
  else if 0 < targetPid then decide (asInt child.pid = targetPid)
  else if targetPid = 0 then decide (child.pgid = caller.pgid)
  else decide ((child.pgid : Int) = (-targetPid) % 2 ^ 32)

/-- What the loop over the children finds: the first matching zombie, and whether any child matched. -/
def waitScan (s : Sched) (caller : Nat) (targetPid : Int) : Nat → Option Nat → Bool → Option Nat × Bool
  | 0, _, matched => (none, matched)
  | _ + 1, none, matched => (none, matched)
  | fuel + 1, some child, matched =>
      let hit := waitMatchChild (s.processes caller) (s.processes child) targetPid
      if hit && decide ((s.processes child).state = .zombie) then (some child, true)
      else waitScan s caller targetPid fuel (s.processes child).parentNextChild (matched || hit)

/-- How one critical section of `process_waitpid` ends: with a result, with a reaped child and its status, or with the caller blocked and the loop to be gone through again. -/
inductive WaitResult where
  | done (result : Int)
  | reaped (pid : Nat) (status : BitVec 32)
  | block
  deriving DecidableEq

/-- One pass of the loop of `process_waitpid`. -/
def processWaitpid (s : Sched) (callerPid targetPid : Int) (nohang : Bool) : WaitResult × Sched :=
  match findByPid s callerPid with
  | none => (.done (-1), s)
  | some caller =>
      match waitScan s caller targetPid (processMaxCount + 1) (s.processes caller).childrenHead false with
      | (some child, _) =>
          (.reaped (s.processes child).pid (s.processes child).waitStatus,
            resetProcessSlot (parentUnlinkChild s caller child) child)
      | (none, false) => (.done (-1), s)
      | (none, true) =>
          if nohang then (.done 0, s)
          else
            match s.current with
            | some c =>
                if (s.processes c).pid = (s.processes caller).pid then (.block, s.setState c .blocked)
                else (.done (-2), s)
            | none => (.done (-2), s)

/-! ### The tick -/

/-- The second half of `process_schedule_tick`: pick the next process and make it current. `validate_or_repair_context_locked` fails only without a kernel stack and is only called with one, so its fallback is not taken. -/
def switchNext (s : Sched) (cur : Option Nat) : Sched :=
  let (popped, s) := runqPop s
  match (popped.or s.idle).or cur with
  | none => { s with current := none }
  | some next => { s.setState next .running with current := some next }

/-- The signal part of `process_schedule_tick`. -/
def deliverSignal (s : Sched) : Option (Nat × Nat) × Sched :=
  match s.current with
  | none => (none, s)
  | some c => if (s.processes c).state = .running then prepareSignalAction s c else (none, s)

/-- The scheduling part of `process_schedule_tick`. -/
def schedule (s : Sched) : Sched :=
  match s.current with
  | none => switchNext s none
  | some c =>
      let p := s.processes c
      if p.state = .running then
        let slice := if !p.isIdle && decide (0 < p.timeSlice) then p.timeSlice - 1 else p.timeSlice
        if !p.isIdle && decide (0 < slice) && (runqBestPriority s).all fun best => decide (p.priority ≤ best) then
          s.set c { p with timeSlice := slice }
        else if p.isIdle then switchNext (s.set c { p with timeSlice := slice, state := .ready }) (some c)
        else switchNext (runqPush (s.set c { p with timeSlice := processDefaultTimeslice, state := .ready }) c) (some c)
      else switchNext s (some c)

/-- `process_schedule_tick`: the handler to call after it, and the new state. -/
def processScheduleTick (s : Sched) : Option (Nat × Nat) × Sched := ((deliverSignal s).1, schedule (deliverSignal s).2)

/-- The part of `process_yield` before its interrupt. -/
def processYield (s : Sched) : Sched :=
  match s.current with
  | none => s
  | some c => s.set c { s.processes c with timeSlice := 0 }

end Tsukasa
