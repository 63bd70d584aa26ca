import Mathlib

set_option autoImplicit false

/-!
# Runs of a deterministic transition function

A component is a step function on a state type; a run folds it over the calls
made to it. An invariant is proved once for a step, here lifted to every run.
`Along` says that a condition holds before each call of one particular run.
-/
namespace MoltBrowser.TransitionRuns

universe u v

variable {σ : Type u} {α : Type v}

/-- The state after the calls of `ops`, in order. -/
def run (step : σ → α → σ) : σ → List α → σ
 | s, [] => s
 | s, a :: ops => run step (step s a) ops

/-- `C` holds before every call of the run of `ops` from `s`. -/
def Along (step : σ → α → σ) (C : σ → α → Prop) : σ → List α → Prop
 | _, [] => True
 | s, a :: ops => C s a ∧ Along step C (step s a) ops

instance decidableAlong (step : σ → α → σ) (C : σ → α → Prop) [∀ s a, Decidable (C s a)] :
  (s : σ) → (ops : List α) → Decidable (Along step C s ops)
 | _, [] => .isTrue trivial
 | s, a :: ops => @instDecidableAnd _ _ _ (decidableAlong step C (step s a) ops)

@[simp] theorem run_nil (step : σ → α → σ) (s : σ) : run step s [] = s := rfl

@[simp] theorem run_cons (step : σ → α → σ) (s : σ) (a : α) (ops : List α) :
  run step s (a :: ops) = run step (step s a) ops := rfl

theorem run_append (step : σ → α → σ) (s : σ) (ops more : List α) :
  run step s (ops ++ more) = run step (run step s ops) more := by
 induction ops generalizing s with
 | nil => rfl
 | cons a ops ih => exact ih (step s a)

theorem along_append (step : σ → α → σ) (C : σ → α → Prop) (s : σ) (ops more : List α) :
  Along step C s (ops ++ more) ↔ Along step C s ops ∧ Along step C (run step s ops) more := by
 induction ops generalizing s with
 | nil => simp [Along]
 | cons a ops ih => simp [Along, ih, and_assoc]

variable {C D : σ → α → Prop} {s : σ} {ops : List α}

theorem along_and {step : σ → α → σ}
  (hC : Along step C s ops) (hD : Along step D s ops) :
  Along step (fun s a => C s a ∧ D s a) s ops := by
 induction ops generalizing s with
 | nil => trivial
 | cons a ops ih => exact ⟨⟨hC.1, hD.1⟩, ih hC.2 hD.2⟩

theorem along_of_forall_mem {step : σ → α → σ} {P : α → Prop}
  (h : ∀ a ∈ ops, P a) : Along step (fun _ a => P a) s ops := by
 induction ops generalizing s with
 | nil => trivial
 | cons a ops ih =>
  exact ⟨h a List.mem_cons_self, ih fun b hb => h b (List.mem_cons_of_mem _ hb)⟩

variable {I : σ → Prop}

theorem run_invariant {step : σ → α → σ}
  (hstep : ∀ s a, I s → C s a → I (step s a))
  (hs : I s) (hC : Along step C s ops) : I (run step s ops) := by
 induction ops generalizing s with
 | nil => exact hs
 | cons a ops ih => exact ih (hstep s a hs hC.1) hC.2

theorem run_invariant_unconditional {step : σ → α → σ}
  (hstep : ∀ s a, I s → I (step s a)) (hs : I s) (ops : List α) :
  I (run step s ops) := by
 induction ops generalizing s with
 | nil => exact hs
 | cons a ops ih => exact ih (hstep s a hs)

theorem along_of_invariant {step : σ → α → σ}
  (hstep : ∀ s a, I s → C s a → I (step s a)) (hD : ∀ s a, I s → C s a → D s a)
   (hs : I s) (hC : Along step C s ops) : Along step D s ops := by
 induction ops generalizing s with
 | nil => trivial
 | cons a ops ih => exact ⟨hD s a hs hC.1, ih (hstep s a hs hC.1) hC.2⟩

theorem along_congr {step : σ → α → σ} {E : σ → α → Prop}
  (hstep : ∀ s a, I s → C s a → I (step s a)) (hDE : ∀ s a, I s → (D s a ↔ E s a))
   (hs : I s) (hC : Along step C s ops) :
  Along step D s ops ↔ Along step E s ops := by
 induction ops generalizing s with
 | nil => exact Iff.rfl
 | cons a ops ih => exact and_congr (hDE s a hs) (ih (hstep s a hs hC.1) hC.2)

end MoltBrowser.TransitionRuns
