import Tsukasa.Lib.Run
import Mathlib.Logic.Function.Basic

/-!
# Calls behind one spinlock

Any number of CPUs call functions whose bodies run between the taking and the release of one lock, and the CPUs take turns in any order, one access to memory at a time. The lock is a word that is exchanged for one until zero comes back, and that is set to zero at the end.

Whatever the order, at most one CPU is in a body, and memory and results are those of the calls made one after the other in the order in which they release the lock.
-/

namespace Lib

/-- The body of a call: one access to the memory after the other, each of which may read and write it, and a result at the end. -/
inductive Body (M ρ : Type*) where
  | done (r : ρ)
  | access (f : M → M) (k : M → Body M ρ)

namespace Body

variable {M ρ α : Type*}

def read (g : M → α) (k : α → Body M ρ) : Body M ρ := access id fun m => k (g m)

def write (f : M → M) (k : Body M ρ) : Body M ρ := access f fun _ => k

/-- The memory and the result when nobody else accesses the memory. -/
def exec : Body M ρ → M → M × ρ
  | done r, m => (m, r)
  | access f k, m => (k m).exec (f m)

@[simp] theorem exec_done (r : ρ) (m : M) : (done r : Body M ρ).exec m = (m, r) := rfl

@[simp] theorem exec_read (g : M → α) (k : α → Body M ρ) (m : M) : (read g k).exec m = (k (g m)).exec m := rfl

@[simp] theorem exec_write (f : M → M) (k : Body M ρ) (m : M) : (write f k).exec m = k.exec (f m) := rfl

end Body

/-- Where a CPU is: in no call, waiting for the lock, or with the rest of a body before it. -/
inductive SpinCpu (κ M ρ : Type*) where
  | idle
  | waiting (call : κ)
  | inside (call : κ) (rest : Body M ρ)

/-- The lock word, the memory behind it, the CPUs, and the calls that have released the lock with their CPUs and results. -/
structure Spin (κ M ρ : Type*) where
  word : Nat
  mem : M
  cpus : Nat → SpinCpu κ M ρ
  log : List (Nat × κ × ρ)

/-- A CPU begins a call, or makes its next access. -/
inductive SpinTurn (κ : Type*) where
  | call (cpu : Nat) (k : κ)
  | next (cpu : Nat)

namespace Spin

variable {κ M ρ : Type*}

def setCpu (s : Spin κ M ρ) (c : Nat) (x : SpinCpu κ M ρ) : Spin κ M ρ := { s with cpus := Function.update s.cpus c x }

/-- Nobody is in a call. -/
def start (m : M) : Spin κ M ρ where
  word := 0
  mem := m
  cpus _ := .idle
  log := []

/-- The exchange of the lock word: the old value, and the word that is now one. -/
def xchg (s : Spin κ M ρ) : Nat × Spin κ M ρ := (s.word, { s with word := 1 })

def step (body : κ → Body M ρ) (s : Spin κ M ρ) : SpinTurn κ → Spin κ M ρ
  | .call c k =>
      match s.cpus c with
      | .idle => s.setCpu c (.waiting k)
      | _ => s
  | .next c =>
      match s.cpus c with
      | .idle => s
      | .waiting k => if s.xchg.1 ≠ 0 then s.xchg.2 else s.xchg.2.setCpu c (.inside k (body k))
      | .inside k (.access f rest) => { s with mem := f s.mem }.setCpu c (.inside k (rest s.mem))
      | .inside k (.done r) => { s with word := 0, log := s.log ++ [(c, k, r)] }.setCpu c .idle

/-- A CPU is between the taking and the release of the lock. -/
def Inside (s : Spin κ M ρ) (c : Nat) : Prop := ∃ k rest, s.cpus c = .inside k rest

/-- The calls that have released the lock, in the order in which they did. -/
def calls (s : Spin κ M ρ) : List κ := s.log.map fun entry => entry.2.1

def results (s : Spin κ M ρ) : List ρ := s.log.map fun entry => entry.2.2

end Spin

/-- One call after the other: the memory, and the results so far. -/
def inSequence {κ M ρ : Type*} (body : κ → Body M ρ) (t : M × List ρ) (k : κ) : M × List ρ :=
  (((body k).exec t.1).1, t.2 ++ [((body k).exec t.1).2])

namespace Spin

variable {κ M ρ : Type*} {body : κ → Body M ρ} {s : Spin κ M ρ} {m : M}

@[simp] theorem setCpu_word (s : Spin κ M ρ) (c : Nat) (x : SpinCpu κ M ρ) : (s.setCpu c x).word = s.word := rfl

@[simp] theorem setCpu_mem (s : Spin κ M ρ) (c : Nat) (x : SpinCpu κ M ρ) : (s.setCpu c x).mem = s.mem := rfl

@[simp] theorem setCpu_log (s : Spin κ M ρ) (c : Nat) (x : SpinCpu κ M ρ) : (s.setCpu c x).log = s.log := rfl

@[simp] theorem setCpu_self (s : Spin κ M ρ) (c : Nat) (x : SpinCpu κ M ρ) : (s.setCpu c x).cpus c = x := Function.update_self _ _ _

theorem setCpu_of_ne {d c : Nat} (h : d ≠ c) (s : Spin κ M ρ) (x : SpinCpu κ M ρ) : (s.setCpu c x).cpus d = s.cpus d := Function.update_of_ne h _ _

/-- The memory is that of the calls in the log, with a part of the holder's body done; without a holder the word is zero. -/
structure Inv (body : κ → Body M ρ) (m : M) (s : Spin κ M ρ) : Prop where
  results : (run (inSequence body) (m, []) s.calls).2 = s.results
  holder : (s.word = 0 ∧ (∀ c, ¬ s.Inside c) ∧ s.mem = (run (inSequence body) (m, []) s.calls).1) ∨
    s.word = 1 ∧ ∃ c k rest, s.cpus c = .inside k rest ∧ (∀ d, s.Inside d → d = c) ∧
      rest.exec s.mem = (body k).exec (run (inSequence body) (m, []) s.calls).1

theorem start_inv (body : κ → Body M ρ) (m : M) : Inv body m (start m) := by
  refine ⟨rfl, Or.inl ⟨rfl, fun c hinside => ?_, rfl⟩⟩
  obtain ⟨k, rest, hcpu⟩ := hinside
  cases hcpu

/-- A CPU that is in no body begins to wait. -/
theorem Inv.wait (h : Inv body m s) {c : Nat} (hidle : s.cpus c = .idle) (k : κ) : Inv body m (s.setCpu c (.waiting k)) := by
  have hinside : ∀ d, (s.setCpu c (.waiting k)).Inside d → s.Inside d := by
    intro d hd
    obtain ⟨k', rest, hcpu⟩ := hd
    by_cases heq : d = c
    · rw [heq, setCpu_self] at hcpu
      cases hcpu
    · rw [setCpu_of_ne heq] at hcpu
      exact ⟨k', rest, hcpu⟩
  refine ⟨h.results, ?_⟩
  cases h.holder with
  | inl hfree => exact Or.inl ⟨hfree.1, fun d hd => hfree.2.1 d (hinside d hd), hfree.2.2⟩
  | inr hheld =>
      obtain ⟨hword, e, k', rest, hcpu, honly, hexec⟩ := hheld
      have hne : e ≠ c := by
        intro heq
        rw [heq, hidle] at hcpu
        cases hcpu
      exact Or.inr ⟨hword, e, k', rest, by rw [setCpu_of_ne hne, hcpu], fun d hd => honly d (hinside d hd), hexec⟩

/-- A CPU exchanges the word: the lock stays with its holder, or becomes the CPU's. -/
theorem Inv.exchange (h : Inv body m s) (c : Nat) (k : κ) : Inv body m (if s.xchg.1 ≠ 0 then s.xchg.2 else s.xchg.2.setCpu c (.inside k (body k))) := by
  cases h.holder with
  | inl hfree =>
      obtain ⟨hword, hnone, hmem⟩ := hfree
      have hzero : ¬ s.xchg.1 ≠ 0 := not_not.mpr hword
      rw [if_neg hzero]
      refine ⟨h.results, Or.inr ⟨rfl, c, k, body k, setCpu_self _ _ _, fun d hd => ?_, congrArg _ hmem⟩⟩
      obtain ⟨k', rest, hcpu⟩ := hd
      by_contra hne
      rw [setCpu_of_ne hne] at hcpu
      exact hnone d ⟨k', rest, hcpu⟩
  | inr hheld =>
      obtain ⟨hword, hrest⟩ := hheld
      have hnonzero : s.xchg.1 ≠ 0 := by
        change s.word ≠ 0
        omega
      rw [if_pos hnonzero]
      exact ⟨h.results, Or.inr ⟨rfl, hrest⟩⟩

/-- What the holder has still to do, and that it is the only one. -/
theorem Inv.inside (h : Inv body m s) {c : Nat} {k : κ} {rest : Body M ρ} (hcpu : s.cpus c = .inside k rest) :
    s.word = 1 ∧ (∀ d, s.Inside d → d = c) ∧ rest.exec s.mem = (body k).exec (run (inSequence body) (m, []) s.calls).1 := by
  cases h.holder with
  | inl hfree => exact absurd ⟨k, rest, hcpu⟩ (hfree.2.1 c)
  | inr hheld =>
      obtain ⟨hword, e, k', rest', hcpu', honly, hexec⟩ := hheld
      obtain rfl : c = e := honly c ⟨k, rest, hcpu⟩
      rw [hcpu] at hcpu'
      cases hcpu'
      exact ⟨hword, honly, hexec⟩

theorem step_inv (h : Inv body m s) (turn : SpinTurn κ) : Inv body m (step body s turn) := by
  cases turn with
  | call c k =>
      rw [step]
      split
      · next hidle => exact h.wait hidle k
      · exact h
  | next c =>
      cases hcpu : s.cpus c with
      | idle =>
          rw [step, hcpu]
          exact h
      | waiting k =>
          rw [step, hcpu]
          exact h.exchange c k
      | inside k rest =>
          obtain ⟨hword, honly, hexec⟩ := h.inside hcpu
          cases rest with
          | access f rest =>
              rw [step, hcpu]
              refine ⟨h.results, Or.inr ⟨hword, c, k, rest s.mem, setCpu_self _ _ _, fun d hd => ?_, hexec⟩⟩
              obtain ⟨k', rest', hcpu'⟩ := hd
              by_contra hne
              rw [setCpu_of_ne hne] at hcpu'
              exact hne (honly d ⟨k', rest', hcpu'⟩)
          | done r =>
              have hcalls : (step body s (.next c)).calls = s.calls ++ [k] := by
                rw [step, hcpu]
                exact List.map_append
              have hresults : (step body s (.next c)).results = s.results ++ [r] := by
                rw [step, hcpu]
                exact List.map_append
              rw [Body.exec_done] at hexec
              refine ⟨?_, Or.inl ?_⟩
              · rw [hcalls, hresults, run_append, run_cons, run_nil, inSequence, ← hexec, h.results]
              · rw [hcalls, run_append, run_cons, run_nil, inSequence, ← hexec]
                simp only [step, hcpu]
                refine ⟨rfl, fun d hd => ?_, rfl⟩
                obtain ⟨k', rest', hcpu'⟩ := hd
                by_cases heq : d = c
                · rw [heq, setCpu_self] at hcpu'
                  cases hcpu'
                · rw [setCpu_of_ne heq] at hcpu'
                  exact heq (honly d ⟨k', rest', hcpu'⟩)

theorem run_inv (body : κ → Body M ρ) (m : M) (turns : List (SpinTurn κ)) : Inv body m (run (step body) (start m) turns) := by
  have hall : Allowed (fun _ _ => True) (step body) (start m) turns := allowed_of_forall fun _ _ _ => trivial
  have hstep : ∀ (s : Spin κ M ρ) (turn : SpinTurn κ), Inv body m s → True → Inv body m (step body s turn) := fun s turn h _ => step_inv h turn
  exact run_invariant hstep (start_inv body m) hall

/-- At most one CPU is in a body. -/
theorem Inv.exclusive (h : Inv body m s) {c d : Nat} (hc : s.Inside c) (hd : s.Inside d) : c = d := by
  obtain ⟨k, rest, hcpu⟩ := hc
  exact ((h.inside hcpu).2.1 d hd).symm

theorem step_log (body : κ → Body M ρ) (s : Spin κ M ρ) (turn : SpinTurn κ) : s.log <+: (step body s turn).log := by
  cases turn with
  | call c k =>
      rw [step]
      split
      · exact List.prefix_refl _
      · exact List.prefix_refl _
  | next c =>
      rw [step]
      split
      · exact List.prefix_refl _
      · split
        · exact List.prefix_refl _
        · exact List.prefix_refl _
      · exact List.prefix_refl _
      · exact List.prefix_append _ _

/-- A call that has released the lock stays before every call that begins later. -/
theorem run_log (body : κ → Body M ρ) (s : Spin κ M ρ) (turns : List (SpinTurn κ)) : s.log <+: (run (step body) s turns).log := by
  induction turns generalizing s with
  | nil => exact List.prefix_refl _
  | cons turn turns ih => exact (step_log body s turn).trans (ih _)

/-- The holder releases the lock by its own accesses: no body waits for anybody. -/
theorem release (body : κ → Body M ρ) {c : Nat} {k : κ} (rest : Body M ρ) (hcpu : s.cpus c = .inside k rest) :
    ∃ n, (run (step body) s (List.replicate n (.next c))).word = 0 ∧ (run (step body) s (List.replicate n (.next c))).cpus c = .idle := by
  induction rest generalizing s with
  | done r =>
      refine ⟨1, ?_⟩
      simp only [List.replicate_one, run_cons, run_nil, step, hcpu]
      exact ⟨rfl, setCpu_self _ _ _⟩
  | access f rest ih =>
      have hnext : (step body s (.next c)).cpus c = .inside k (rest s.mem) := by
        rw [step, hcpu]
        exact setCpu_self _ _ _
      obtain ⟨n, hn⟩ := ih s.mem hnext
      exact ⟨n + 1, by rwa [List.replicate_succ, run_cons]⟩

end Spin

end Lib
