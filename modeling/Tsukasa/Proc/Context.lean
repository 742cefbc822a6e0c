import Tsukasa.Base.Word
import Tsukasa.Lib.Bytes

/-!
# The first frame on a kernel stack

`setup_initial_context_locked` and `validate_or_repair_context_locked` of `proc/process.c`. The frame is 21 words, in the order in which the interrupt epilogue takes them, with 16 guard words stored behind it. It begins 22 words below the end of the stack, so 15 of the guard words are behind that end.
-/

namespace Tsukasa

open Lib (Memory)

def processStackSize : Nat := 32 * 1024
def processContextTotalQwords : Nat := 21
def processContextGuardQwords : Nat := 16
def processContextTopBias : Nat := 24
def processContextIretIndex : Nat := 19

def x64GdtKernelCs : Nat := 0x08
def x64GdtKernelDs : Nat := 0x10

/-- What the two functions use of a process, the memory, and `g_ctx_warned`. -/
structure SavedContext where
  kernelStack : Nat
  kernelRsp : Nat
  threadKernelRsp : Nat
  threadKernelStack : Nat
  memory : Memory
  ctxWarned : Bool

/-- A difference of two words. -/
def sub64 (a b : Nat) : Nat := wrap64 (a + (2 ^ 64 - b))

def contextTop (kernelStack : Nat) : Nat := sub64 (wrap64 (kernelStack + processStackSize) / 16 * 16) processContextTopBias

def contextSp (kernelStack : Nat) : Nat := sub64 (contextTop kernelStack) (processContextIretIndex * 8)

/-- The address of `sp[i]`. -/
def wordAt (sp i : Nat) : Nat := wrap64 (sp + i * 8)

/-- The value that goes into `sp[i]`. -/
def contextWord (processEntryResume top : Nat) : Nat → Nat
  | 16 => processEntryResume
  | 17 => x64GdtKernelCs
  | 18 => 0x202
  | 19 => top
  | 20 => x64GdtKernelDs
  | _ => 0

namespace SavedContext

/-- `setup_initial_context_locked`; it stores the words in the order of their index. -/
def setupInitialContext (processEntryResume : Nat) (c : SavedContext) : Int × SavedContext :=
  if c.kernelStack = 0 then (-1, c)
  else
    let top := contextTop c.kernelStack
    let sp := contextSp c.kernelStack
    (0, { c with
      memory := c.memory.storeWords (wordAt sp) (contextWord processEntryResume top) (processContextTotalQwords + processContextGuardQwords)
      kernelRsp := sp
      threadKernelRsp := sp
      threadKernelStack := c.kernelStack })

/-- The first test of `validate_or_repair_context_locked`: the stack pointer is not in the stack. -/
def badRsp (c : SavedContext) : Bool :=
  let low := c.kernelStack
  let high := wrap64 (low + processStackSize)
  decide (c.kernelRsp < low) || decide (sub64 high (processContextTotalQwords * 8) < c.kernelRsp)

/-- The second one: the frame there is not one to return to. -/
def badFrame (c : SavedContext) : Bool :=
  let low := c.kernelStack
  let high := wrap64 (low + processStackSize)
  let ctx := fun i => c.memory.load (wordAt c.kernelRsp i) 8
  decide (ctx 17 ≠ x64GdtKernelCs) || decide (ctx 16 = 0) || decide (ctx 19 < low) || decide (sub64 high 8 < ctx 19) ||
    decide (ctx 20 ≠ x64GdtKernelDs)

def validateOrRepairContext (processEntryResume : Nat) (c : SavedContext) : Int × SavedContext :=
  if c.kernelStack = 0 then (-1, c)
  else if c.badRsp then { c with ctxWarned := true }.setupInitialContext processEntryResume
  else if c.badFrame then { c with ctxWarned := true }.setupInitialContext processEntryResume
  else (0, c)

/-- Whatever the memory holds, no byte outside the stack is changed. -/
def StaysInside (processEntryResume : Nat) (c : SavedContext) : Prop :=
  ∀ memory : Memory, ∀ x < 2 ^ 64, x < c.kernelStack ∨ c.kernelStack + processStackSize ≤ x →
    ({ c with memory := memory }.setupInitialContext processEntryResume).2.memory x = memory x

/-- A stack of the proper size at an aligned address. -/
structure HasStack (c : SavedContext) : Prop where
  nonnull : 0 < c.kernelStack
  aligned : c.kernelStack % 16 = 0
  room : c.kernelStack + processStackSize ≤ 2 ^ 64

variable {processEntryResume : Nat} {c : SavedContext}

/-! ### Where the frame is -/

namespace HasStack

variable (hstack : c.HasStack)
include hstack

theorem top_eq : contextTop c.kernelStack = c.kernelStack + 32744 := by
  have haligned := hstack.aligned
  have hroom := hstack.room
  simp only [contextTop, sub64, wrap64, processContextTopBias, processStackSize] at *
  omega

theorem sp_eq : contextSp c.kernelStack = c.kernelStack + 32592 := by
  have hroom := hstack.room
  rw [contextSp, hstack.top_eq]
  simp only [sub64, wrap64, processContextIretIndex, processStackSize] at *
  omega

/-- The words do not overlap, even where they wrap around. -/
theorem words_apart {i j : Nat} (hij : i < j) (hj : j < processContextTotalQwords + processContextGuardQwords) :
    wordAt (contextSp c.kernelStack) i + 8 ≤ wordAt (contextSp c.kernelStack) j ∨
      wordAt (contextSp c.kernelStack) j + 8 ≤ wordAt (contextSp c.kernelStack) i := by
  have haligned := hstack.aligned
  have hroom := hstack.room
  rw [hstack.sp_eq]
  simp only [wordAt, wrap64, processStackSize, processContextTotalQwords, processContextGuardQwords] at *
  omega

theorem setup_memory : (c.setupInitialContext processEntryResume).2.memory =
    c.memory.storeWords (wordAt (contextSp c.kernelStack)) (contextWord processEntryResume (contextTop c.kernelStack))
      (processContextTotalQwords + processContextGuardQwords) := by
  simp only [setupInitialContext, if_neg (Nat.ne_of_gt hstack.nonnull)]

theorem setup_kernelRsp : (c.setupInitialContext processEntryResume).2.kernelRsp = c.kernelStack + 32592 := by
  simp only [setupInitialContext, if_neg (Nat.ne_of_gt hstack.nonnull), hstack.sp_eq]

theorem setup_kernelStack : (c.setupInitialContext processEntryResume).2.kernelStack = c.kernelStack := by
  simp only [setupInitialContext, if_neg (Nat.ne_of_gt hstack.nonnull)]

/-- What is in the words of the frame and of its guard. -/
theorem setup_word {i : Nat} (hi : i < processContextTotalQwords + processContextGuardQwords) :
    (c.setupInitialContext processEntryResume).2.memory.load (wordAt (c.kernelStack + 32592) i) 8 =
      contextWord processEntryResume (c.kernelStack + 32744) i % 2 ^ 64 := by
  rw [hstack.setup_memory]
  have hword := @Memory.load_storeWords c.memory (wordAt (contextSp c.kernelStack))
    (contextWord processEntryResume (contextTop c.kernelStack)) _ i (fun j k hjk hk => hstack.words_apart hjk hk) hi
  rw [hstack.sp_eq, hstack.top_eq] at hword ⊢
  exact hword

/-- Every byte that changes is in the last 176 bytes of the stack or in the 120 bytes behind it. -/
theorem setup_frame (hbehind : c.kernelStack + processStackSize + 120 ≤ 2 ^ 64) {x : Nat}
    (hx : x < c.kernelStack + 32592 ∨ c.kernelStack + processStackSize + 120 ≤ x) :
    (c.setupInitialContext processEntryResume).2.memory x = c.memory x := by
  rw [hstack.setup_memory, hstack.sp_eq]
  refine Memory.storeWords_of_outside c.memory fun i hi => ?_
  simp only [wordAt, wrap64, processStackSize, processContextTotalQwords, processContextGuardQwords] at *
  omega

/-! ### The two tests -/

theorem setup_rsp : (c.setupInitialContext processEntryResume).2.badRsp = false := by
  have hroom := hstack.room
  simp only [badRsp, hstack.setup_kernelRsp, hstack.setup_kernelStack, Bool.or_eq_false_iff, decide_eq_false_iff_not, not_lt]
  simp only [sub64, wrap64, processContextTotalQwords, processStackSize] at *
  omega

theorem setup_frame_good (hentry : 0 < processEntryResume ∧ processEntryResume < 2 ^ 64) :
    (c.setupInitialContext processEntryResume).2.badFrame = false := by
  have hroom := hstack.room
  simp only [badFrame, hstack.setup_kernelRsp, hstack.setup_kernelStack, hstack.setup_word (show 16 < _ by decide),
    hstack.setup_word (show 17 < _ by decide), hstack.setup_word (show 19 < _ by decide), hstack.setup_word (show 20 < _ by decide),
    contextWord, Bool.or_eq_false_iff, decide_eq_false_iff_not]
  simp only [sub64, wrap64, processStackSize, x64GdtKernelCs, x64GdtKernelDs] at *
  omega

end HasStack

/-- A context with both tests passed stays as it is. -/
theorem validate_of_good (processEntryResume : Nat) (hrsp : c.badRsp = false) (hframe : c.badFrame = false) :
    (c.validateOrRepairContext processEntryResume).2 = c := by
  rw [validateOrRepairContext, hrsp, hframe]
  split <;> rfl

/-- It repairs the context, or both tests pass. -/
theorem validate_cases (processEntryResume : Nat) (hnonnull : c.kernelStack ≠ 0) :
    (c.validateOrRepairContext processEntryResume).2 = ({ c with ctxWarned := true }.setupInitialContext processEntryResume).2 ∨
      (c.validateOrRepairContext processEntryResume).2 = c ∧ c.badRsp = false ∧ c.badFrame = false := by
  rw [validateOrRepairContext, if_neg hnonnull]
  cases hrsp : c.badRsp with
  | true => exact Or.inl rfl
  | false =>
      cases hframe : c.badFrame with
      | true => exact Or.inl rfl
      | false => exact Or.inr ⟨rfl, rfl, rfl⟩

/-- A second application changes nothing. -/
theorem HasStack.validate_twice (hstack : c.HasStack) (hentry : 0 < processEntryResume ∧ processEntryResume < 2 ^ 64) :
    ((c.validateOrRepairContext processEntryResume).2.validateOrRepairContext processEntryResume).2 =
      (c.validateOrRepairContext processEntryResume).2 := by
  have hwarned : ({ c with ctxWarned := true } : SavedContext).HasStack := ⟨hstack.nonnull, hstack.aligned, hstack.room⟩
  have hrepaired := validate_of_good processEntryResume hwarned.setup_rsp (hwarned.setup_frame_good hentry)
  rcases validate_cases processEntryResume (Nat.ne_of_gt hstack.nonnull) with hres | ⟨hres, hrsp, hframe⟩
  · rw [hres]
    exact hrepaired
  · rw [hres]
    exact validate_of_good processEntryResume hrsp hframe

/-- The first guard word behind the stack is always stored. -/
theorem HasStack.leaves_stack (hstack : c.HasStack) : ¬StaysInside processEntryResume c := by
  intro hinside
  have hroom := hstack.room
  have haligned := hstack.aligned
  have hfull : ({ c with memory := fun _ => 0xFF } : SavedContext).HasStack := ⟨hstack.nonnull, haligned, hroom⟩
  have hzero := @setup_word processEntryResume _ hfull 22 (by decide)
  have hsame : ({ c with memory := fun _ => 0xFF }.setupInitialContext processEntryResume).2.memory.load (wordAt (c.kernelStack + 32592) 22) 8 =
      Memory.load (fun _ => 0xFF) (wordAt (c.kernelStack + 32592) 22) 8 := by
    refine Memory.load_congr fun x hlo hhi => hinside _ x ?_ ?_
    all_goals
      simp only [wordAt, wrap64, processStackSize] at *
      omega
  rw [hsame] at hzero
  simp [Memory.load, contextWord] at hzero

end SavedContext

open SavedContext

/-- The first frame is accepted and repairing it again changes nothing, but storing it always changes memory behind the stack. -/
theorem setup_context_overruns (processEntryResume : Nat) (hentry : 0 < processEntryResume ∧ processEntryResume < 2 ^ 64) (c : SavedContext)
    (hstack : c.HasStack) :
    ¬StaysInside processEntryResume c ∧
      (c.setupInitialContext processEntryResume).2.badRsp = false ∧ (c.setupInitialContext processEntryResume).2.badFrame = false ∧
      ((c.validateOrRepairContext processEntryResume).2.validateOrRepairContext processEntryResume).2 =
        (c.validateOrRepairContext processEntryResume).2 :=
  ⟨hstack.leaves_stack, hstack.setup_rsp, hstack.setup_frame_good hentry, hstack.validate_twice hentry⟩

/-- A process with a stack at 64 KiB, in a memory full of ones. -/
def stackAt64K : SavedContext := ⟨0x10000, 0, 0, 0, fun _ => 0xFF, false⟩

theorem stackAt64K_hasStack : stackAt64K.HasStack := ⟨by decide, by decide, by decide⟩

theorem setup_context_overruns_64K : ¬StaysInside 0x1000 stackAt64K ∧
    (stackAt64K.setupInitialContext 0x1000).2.badRsp = false ∧ (stackAt64K.setupInitialContext 0x1000).2.badFrame = false ∧
    ((stackAt64K.validateOrRepairContext 0x1000).2.validateOrRepairContext 0x1000).2 = (stackAt64K.validateOrRepairContext 0x1000).2 :=
  setup_context_overruns 0x1000 (by decide) stackAt64K stackAt64K_hasStack

/-- The byte at `0x18000`, the first one behind that stack, is cleared. -/
theorem setup_context_clears_behind : ¬StaysInside 0x1000 stackAt64K := by
  intro hinside
  have hkept : (stackAt64K.setupInitialContext 0x1000).2.memory 0x18000 = 0xFF :=
    hinside stackAt64K.memory 0x18000 (by decide) (by decide)
  have hcleared : (stackAt64K.setupInitialContext 0x1000).2.memory 0x18000 = 0 := by decide
  exact absurd (hkept.symm.trans hcleared) (by decide)

end Tsukasa
