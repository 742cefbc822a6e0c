import Tsukasa.Lib.Interrupts
import Tsukasa.Proc.Process

/-!
# The locks of the kernel paths

What each function of the kernel does to `event_lock`, `g_gui_lock`, `g_shm_lock`, the heap's `g_lock`, `g_sched_lock` and `g_tty_lock` and to the interrupt flag. A branch on anything else is a choice and a loop over a table or over waiting is a loop, so the paths are at least those of the source. The functions that touch none of these locks are left out; the others that do (open, close and the reads of `/proc`, the apps, the image loaders) reach them through `kmalloc`, `kfree`, the calls below and `process_yield`.
-/

namespace Tsukasa

open Lib

inductive KernelLock where
  | event | gui | shm | heap | sched | tty
  deriving DecidableEq

/-- The interrupts that run kernel code; a network card's hook takes none of the locks. -/
inductive KernelIrq where
  | timer | keyboard | mouse | nic
  deriving DecidableEq

namespace LockPaths

open LockCode

abbrev Path := LockCode KernelLock

/-! ### heap.c -/

def kmalloc : Path := opt (holding .heap skip)

def kfree : Path := opt (holding .heap skip)

def heapGetStats : Path := opt (holding .heap skip)

/-! ### event.c -/

def eventInit : Path := holding .event skip

def eventEnqueue : Path := opt (holding .event skip)

def eventDequeue : Path := opt (holding .event skip)

/-! ### vfs.c

A release writes the file back, which takes none of the locks, and frees its buffer. -/

def fileRelease : Path := opt kfree

def vfsProcessCleanup : Path := loop (opt fileRelease)

def vfsProcessDup2 : Path := opt fileRelease

/-! ### wm.c and gui_srv.c -/

def wmDestroyWindow : Path := opt kfree

def reallocateClientBuffer : Path := opt (seq kmalloc (opt kfree))

def guiWindowDraw : Path := opt (holding .gui skip)

def guiWindowEvent : Path := opt (holding .gui (opt reallocateClientBuffer))

def guiSrvInit : Path := holding .gui skip

def guiSrvWindowDestroy : Path := seq (holding .gui skip) (opt (seq (opt wmDestroyWindow) (opt kfree)))

/-- Each round looks for a window of the process and destroys it; the last finds none. -/
def guiSrvProcessCleanup : Path := seq (loop (seq (holding .gui skip) guiSrvWindowDestroy)) (holding .gui skip)

/-- The three ways on from a reserved slot: no window left, no memory for the buffer, or a new window. -/
def guiSrvWindowCreate : Path :=
  opt (seq (holding .gui skip)
    (opt (choice (holding .gui skip) (seq (holding .gui reallocateClientBuffer) (opt wmDestroyWindow)))))

/-- The calls on one window: `set_title`, `set_resizable`, `mark_dirty`, `get_event`. -/
def guiSrvWindowCall : Path := opt (holding .gui skip)

/-- The drawing calls mark the window dirty after they have drawn. -/
def guiSrvDraw : Path := opt (seq (holding .gui skip) (opt guiSrvWindowCall))

/-! ### shm.c -/

def shmCreate : Path := opt (holding .shm skip)

def shmAttach : Path := opt (seq (holding .shm skip) (opt (holding .shm skip)))

def shmDetach : Path := opt (seq (holding .shm skip) (opt (holding .shm skip)))

def shmDestroy : Path := opt (holding .shm skip)

def shmProcessCleanup : Path := opt (seq (holding .shm skip) (holding .shm skip))

def shmGetStats : Path := opt (holding .shm skip)

/-! ### process.c -/

/-- The scheduler's lock is taken with interrupts off. -/
def schedLocked (c : Path) : Path := seqs [irqSave, holding .sched c, irqRestore]

def freeProcessResourcesLocked : Path := opt (seqs [guiSrvProcessCleanup, vfsProcessCleanup, shmProcessCleanup, opt kfree])

def resetProcessSlotLocked : Path := opt freeProcessResourcesLocked

def markZombieLocked : Path := opt (seq vfsProcessCleanup shmProcessCleanup)

def prepareSignalActionLocked : Path := opt markZombieLocked

/-- A slot whose first context cannot be set up is released again. -/
def createKernelProcessLocked : Path := opt freeProcessResourcesLocked

def processSpawnKernel : Path := opt (schedLocked createKernelProcessLocked)

def processExec : Path := opt (schedLocked (opt shmProcessCleanup))

def processExitCurrent : Path := schedLocked (opt markZombieLocked)

def processYield : Path := softIrq

def processExit : Path := seq processExitCurrent processYield

/-- Each round that finds no zombie yields; the last reaps a child or gives up. -/
def processWaitpid : Path := seq (loop (seq (schedLocked skip) processYield)) (schedLocked (opt resetProcessSlotLocked))

def processKill (sig : Nat) : Path := opt (schedLocked (opt (if sig = processSigkill then markZombieLocked else skip)))

def processKillPgid (sig : Nat) : Path := opt (schedLocked (loop (opt (if sig = processSigkill then markZombieLocked else skip))))

def processCloneFd : Path := schedLocked (opt vfsProcessDup2)

/-- The calls that only read or write a slot: `process_get_pgid`, `process_set_priority`, `process_signal_mask`, `process_snapshot` and the others of that kind. -/
def processSlotCall : Path := opt (schedLocked skip)

/-- A kernel signal handler is called with interrupts still off, on the stack of the process it interrupts. -/
def processScheduleTick (handler : Path) : Path := seqs [schedLocked (opt prepareSignalActionLocked), opt handler, resume]

/-! ### tty.c -/

def ttyLocked : Path := seqs [irqSave, holding .tty skip, irqRestore]

def ttyKillForeground (sig : Nat) : Path := opt (seq ttyLocked (opt (processKillPgid sig)))

/-- Control-C in the keyboard interrupt. -/
def ttyHandleScancode : Path := opt (seq ttyLocked (ttyKillForeground processSigint))

/-! ### Processes and interrupts -/

/-- Any number of kernel calls, in any order. -/
def kernelCalls : Path :=
  loop ([kmalloc, kfree, heapGetStats, eventInit, eventEnqueue, eventDequeue, guiWindowDraw, guiWindowEvent, guiSrvInit, guiSrvProcessCleanup,
    guiSrvWindowCreate, guiSrvWindowDestroy, guiSrvWindowCall, guiSrvDraw, shmCreate, shmAttach, shmDetach, shmDestroy, shmProcessCleanup,
    shmGetStats, processSpawnKernel, processExec, processExit, processExitCurrent, processWaitpid, processKill processSigkill,
    processKill processSigint, processKillPgid processSigkill, processKillPgid processSigint, processCloneFd, processSlotCall, processYield,
    ttyLocked, ttyKillForeground processSigkill, ttyHandleScancode].foldr choice skip)

def ps2kbdHandler : Path := opt (seq (opt ttyHandleScancode) eventEnqueue)

/-- A packet is a movement and up to three changes of a button. -/
def ps2mouseHandler : Path := opt (seqs [opt eventEnqueue, opt eventEnqueue, opt eventEnqueue, opt eventEnqueue])

def irqHandler : KernelIrq → Path
  | .timer => processScheduleTick kernelCalls
  | .keyboard => ps2kbdHandler
  | .mouse => ps2mouseHandler
  | .nic => skip

/-- The locks whose holders may be interrupted; the other two are only taken with interrupts off. -/
def sharedLock : KernelLock → Bool
  | .event | .gui | .shm | .heap => true
  | .sched | .tty => false

/-- The tick may be followed by any process, a keyboard or mouse interrupt takes `event_lock`. -/
theorem irqHandler_takes {i : KernelIrq} {l : KernelLock} (hl : sharedLock l = true) :
    (irqHandler i).takes l = true ↔ i = .timer ∨ l = .event ∧ i ≠ .nic := by
  cases i
  all_goals cases l
  all_goals revert hl; decide

abbrev Cpu := LockCpu KernelLock

def step : Cpu → CpuLabel KernelIrq → Cpu := LockCpu.step irqHandler .timer

/-- Every process may make any kernel calls. -/
def start : Cpu := LockCpu.initial fun _ => kernelCalls

/-- No tick is taken over code that holds one of the locks, no keyboard or mouse interrupt over code that holds `event_lock`. -/
def Unheld (s : Cpu) : CpuLabel KernelIrq → Prop
  | .irq i => ∀ f ∈ (s.frames s.current).head?, f.irqOn = true → ∀ l ∈ f.held, sharedLock l = true → i ≠ .timer ∧ (l = .event → i = .nic)
  | .exec _ => True

instance (s : Cpu) (a : CpuLabel KernelIrq) : Decidable (Unheld s a) :=
  match a with
  | .irq i => inferInstanceAs (Decidable (∀ f ∈ (s.frames s.current).head?, f.irqOn = true → ∀ l ∈ f.held, sharedLock l = true →
      i ≠ .timer ∧ (l = .event → i = .nic)))
  | .exec _ => inferInstanceAs (Decidable True)

theorem Unheld.takes {s : Cpu} {a : CpuLabel KernelIrq} (h : Unheld s a) : LockCpu.Unheld irqHandler sharedLock s a := by
  cases a with
  | exec pick => trivial
  | irq i =>
      intro f hf hirq l hl hshared
      obtain ⟨htimer, hevent⟩ := h f hf hirq l hl hshared
      rw [← Bool.not_eq_true, irqHandler_takes hshared]
      rintro (hi | ⟨hl, hi⟩)
      · exact htimer hi
      · exact hi (hevent hl)

end LockPaths

end Tsukasa
