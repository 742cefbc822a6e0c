import Mathlib.Order.Basic

/-!
# Runs of a state machine

A machine is a step function on states and labels, and a run is a list of labels. The side conditions a run's steps are subject to (a caller frees only what it holds, a step does not take a given branch) are a predicate on the state before the step and the label, so an invariant of the machine is one step lemma.
-/

namespace Lib

variable {σ α : Type*}

/-- The state a list of labels leads to. -/
def run (step : σ → α → σ) (s : σ) (labels : List α) : σ := labels.foldl step s

@[simp] theorem run_nil (step : σ → α → σ) (s : σ) : run step s [] = s := rfl

@[simp] theorem run_cons (step : σ → α → σ) (s : σ) (a : α) (labels : List α) :
    run step s (a :: labels) = run step (step s a) labels := rfl

theorem run_append (step : σ → α → σ) (s : σ) (before after : List α) :
    run step s (before ++ after) = run step (run step s before) after :=
  List.foldl_append

/-- Every step of the run meets `ok` in the state it is taken from. -/
def Allowed (ok : σ → α → Prop) (step : σ → α → σ) : σ → List α → Prop
  | _, [] => True
  | s, a :: labels => ok s a ∧ Allowed ok step (step s a) labels

@[simp] theorem allowed_nil (ok : σ → α → Prop) (step : σ → α → σ) (s : σ) :
    Allowed ok step s [] := trivial

@[simp] theorem allowed_cons (ok : σ → α → Prop) (step : σ → α → σ) (s : σ) (a : α) (labels : List α) :
    Allowed ok step s (a :: labels) ↔ ok s a ∧ Allowed ok step (step s a) labels := Iff.rfl

instance decidableAllowed (ok : σ → α → Prop) [∀ s a, Decidable (ok s a)] (step : σ → α → σ) : (s : σ) → (labels : List α) → Decidable (Allowed ok step s labels)
  | _, [] => isTrue trivial
  | s, a :: labels =>
      have := decidableAllowed ok step (step s a) labels
      inferInstanceAs (Decidable (ok s a ∧ Allowed ok step (step s a) labels))

theorem allowed_append {ok : σ → α → Prop} {step : σ → α → σ} {s : σ} {before after : List α} :
    Allowed ok step s (before ++ after) ↔ Allowed ok step s before ∧ Allowed ok step (run step s before) after := by
  induction before generalizing s with
  | nil => simp
  | cons a before ih => simp only [List.cons_append, allowed_cons, run_cons, ih, and_assoc]

/-- A run is allowed when every step of it is, in the state that the steps before it lead to. -/
theorem allowed_iff_forall_split {ok : σ → α → Prop} {step : σ → α → σ} {s : σ} {labels : List α} :
    Allowed ok step s labels ↔ ∀ before a after, labels = before ++ a :: after → ok (run step s before) a := by
  constructor
  · rintro h before a after rfl
    exact (allowed_append.mp h).2.1
  · intro h
    induction labels generalizing s with
    | nil => trivial
    | cons a labels ih =>
        refine ⟨h [] a labels rfl, ih fun before b after hsplit => ?_⟩
        exact h (a :: before) b after (by rw [hsplit, List.cons_append])

theorem allowed_of_forall {ok : σ → α → Prop} {step : σ → α → σ} {s : σ} {labels : List α}
    (h : ∀ s, ∀ a ∈ labels, ok s a) : Allowed ok step s labels := by
  induction labels generalizing s with
  | nil => trivial
  | cons a labels ih => exact ⟨h s a List.mem_cons_self, ih fun s b hb => h s b (List.mem_cons_of_mem a hb)⟩

theorem Allowed.mono {ok Q : σ → α → Prop} {step : σ → α → σ} {s : σ} {labels : List α} (h : Allowed ok step s labels)
    (hmeets : ∀ s a, ok s a → Q s a) : Allowed Q step s labels := by
  induction labels generalizing s with
  | nil => trivial
  | cons a labels ih => exact ⟨hmeets s a h.1, ih h.2⟩

theorem Allowed.and {ok Q : σ → α → Prop} {step : σ → α → σ} {s : σ} {labels : List α} (h : Allowed ok step s labels) (h' : Allowed Q step s labels) :
    Allowed (fun s a => ok s a ∧ Q s a) step s labels := by
  induction labels generalizing s with
  | nil => trivial
  | cons a labels ih => exact ⟨⟨h.1, h'.1⟩, ih h.2 h'.2⟩

/-- What holds initially and is kept by every allowed step holds at the end of every allowed run. -/
theorem run_invariant {ok : σ → α → Prop} {step : σ → α → σ} {Inv : σ → Prop}
    (hstep : ∀ s a, Inv s → ok s a → Inv (step s a)) {s : σ} (hinit : Inv s) {labels : List α}
    (hallowed : Allowed ok step s labels) : Inv (run step s labels) := by
  induction labels generalizing s with
  | nil => exact hinit
  | cons a labels ih => exact ih (hstep s a hinit hallowed.1) hallowed.2

/-- The predicate holds in every state of the run. -/
def Along (P : σ → Prop) (step : σ → α → σ) : σ → List α → Prop
  | s, [] => P s
  | s, a :: labels => P s ∧ Along P step (step s a) labels

@[simp] theorem along_nil (P : σ → Prop) (step : σ → α → σ) (s : σ) : Along P step s [] ↔ P s := Iff.rfl

@[simp] theorem along_cons (P : σ → Prop) (step : σ → α → σ) (s : σ) (a : α) (labels : List α) :
    Along P step s (a :: labels) ↔ P s ∧ Along P step (step s a) labels := Iff.rfl

theorem Along.start {P : σ → Prop} {step : σ → α → σ} {s : σ} {labels : List α} (h : Along P step s labels) : P s := by
  cases labels with
  | nil => exact h
  | cons a labels => exact h.1

theorem Along.last {P : σ → Prop} {step : σ → α → σ} {s : σ} {labels : List α} (h : Along P step s labels) : P (run step s labels) := by
  induction labels generalizing s with
  | nil => exact h
  | cons a labels ih => exact ih h.2

/-- What holds of every allowed step from an invariant state holds of every step of an allowed run. -/
theorem allowed_of_invariant {ok Q : σ → α → Prop} {step : σ → α → σ} {Inv : σ → Prop} (hstep : ∀ s a, Inv s → ok s a → Inv (step s a))
    (hmeets : ∀ s a, Inv s → ok s a → Q s a) {s : σ} (hinit : Inv s) {labels : List α} (hallowed : Allowed ok step s labels) :
    Allowed Q step s labels := by
  induction labels generalizing s with
  | nil => trivial
  | cons a labels ih => exact ⟨hmeets s a hinit hallowed.1, ih (hstep s a hinit hallowed.1) hallowed.2⟩

/-- Every step meets `Q` exactly when every step is allowed, if the first other step does not meet it. -/
theorem allowed_iff_allowed {ok Q : σ → α → Prop} {step : σ → α → σ} {Inv : σ → Prop} (hstep : ∀ s a, Inv s → ok s a → Inv (step s a))
    (hmeets : ∀ s a, Inv s → ok s a → Q s a) (hbad : ∀ s a, Inv s → ¬ ok s a → ¬ Q s a) {s : σ} (hinit : Inv s) (labels : List α) :
    Allowed Q step s labels ↔ Allowed ok step s labels := by
  constructor
  · intro h
    induction labels generalizing s with
    | nil => trivial
    | cons a labels ih =>
        have hok : ok s a := by
          by_contra hneg
          exact hbad s a hinit hneg h.1
        exact ⟨hok, ih (hstep s a hinit hok) h.2⟩
  · exact allowed_of_invariant hstep hmeets hinit

/-- Every state of an allowed run is good. -/
theorem along_of_allowed {ok : σ → α → Prop} {step : σ → α → σ} {Inv P : σ → Prop} (hgood : ∀ s, Inv s → P s)
    (hstep : ∀ s a, Inv s → ok s a → Inv (step s a)) {s : σ} (hinit : Inv s) {labels : List α} (hallowed : Allowed ok step s labels) :
    Along P step s labels := by
  induction labels generalizing s with
  | nil => exact hgood s hinit
  | cons a labels ih => exact ⟨hgood s hinit, ih (hstep s a hinit hallowed.1) hallowed.2⟩

/-- Every state is good exactly when every step is allowed, if the allowed steps keep an invariant and the first other step leads to a bad state. -/
theorem along_iff_allowed {ok : σ → α → Prop} {step : σ → α → σ} {Inv P : σ → Prop} (hgood : ∀ s, Inv s → P s)
    (hstep : ∀ s a, Inv s → ok s a → Inv (step s a)) (hbad : ∀ s a, Inv s → ¬ ok s a → ¬ P (step s a)) {s : σ} (hinit : Inv s)
    (labels : List α) : Along P step s labels ↔ Allowed ok step s labels := by
  induction labels generalizing s with
  | nil => simp [hgood s hinit]
  | cons a labels ih =>
      rw [along_cons, allowed_cons]
      by_cases hok : ok s a
      · simp [hgood s hinit, hok, ih (hstep s a hinit hok)]
      · constructor
        · exact fun h => absurd h.2.start (hbad s a hinit hok)
        · exact fun h => absurd h.1 hok

/-- What the steps of a run return, for a machine whose steps return something. -/
def outputs {ρ : Type*} (step : σ → α → ρ × σ) : σ → List α → List ρ
  | _, [] => []
  | s, a :: labels => (step s a).1 :: outputs step (step s a).2 labels

/-- Two machines that agree on every allowed step, and stay related under it, return the same along every allowed run. -/
theorem outputs_eq_of_simulation {τ ρ : Type*} {step : σ → α → ρ × σ} {step' : τ → α → ρ × τ} {R : σ → τ → Prop} {ok : σ → α → Prop}
    (hstep : ∀ s t a, R s t → ok s a → (step s a).1 = (step' t a).1 ∧ R (step s a).2 (step' t a).2) {s : σ} {t : τ} (h : R s t)
    {labels : List α} (hallowed : Allowed ok (fun s a => (step s a).2) s labels) : outputs step s labels = outputs step' t labels := by
  induction labels generalizing s t with
  | nil => rfl
  | cons a labels ih =>
      obtain ⟨houtput, hrelated⟩ := hstep s t a h hallowed.1
      rw [outputs, outputs, houtput, ih hrelated hallowed.2]

end Lib
