import Mathlib.Data.List.Basic

set_option autoImplicit false

/-!
# What one owner's calls are answered, whatever others call

The unwinding conditions of a machine that answers calls: two states that are alike to an owner stay alike, and answer the
owner's calls alike; and what another calls leaves a state alike.
-/
namespace MoltBrowser.Unwinding

variable {State Call Answer Owner : Type}

/-- The answers to calls made in turn, and the state they leave. -/
def answers (step : State → Call → Answer × State) : State → List Call → List (Call × Answer) × State
 | s, [] => ([], s)
 | s, c :: calls =>
  let (answer, s) := step s c
  let (more, s) := answers step s calls
  ((c, answer) :: more, s)

structure Unwinds (step : State → Call → Answer × State) (mine : Call → Bool) (Alike : State → State → Prop) : Prop where
 own : ∀ s t c, Alike s t → mine c = true → (step s c).1 = (step t c).1 ∧ Alike (step s c).2 (step t c).2
 other : ∀ s t c, Alike s t → mine c = false → Alike (step s c).2 t

variable {step : State → Call → Answer × State} {mine : Call → Bool} {Alike : State → State → Prop}

theorem Unwinds.answers (h : Unwinds step mine Alike) {s t : State} (hst : Alike s t) (calls : List Call) :
  (answers step s calls).1.filter (fun p => mine p.1) = (answers step t (calls.filter mine)).1 ∧
   Alike (answers step s calls).2 (answers step t (calls.filter mine)).2 := by
 induction calls generalizing s t with
 | nil => exact ⟨rfl, hst⟩
 | cons c calls ih =>
  cases hmine : mine c with
  | true =>
   obtain ⟨hsame, halike⟩ := h.own s t c hst hmine
   obtain ⟨hmore, hend⟩ := ih halike
   rw [List.filter_cons_of_pos hmine, Unwinding.answers, Unwinding.answers]
   dsimp only
   rw [List.filter_cons_of_pos (p := fun p : Call × Answer => mine p.1) hmine]
   exact ⟨congrArg₂ (fun a l => (c, a) :: l) hsame hmore, hend⟩
  | false =>
   have hne : ¬mine c = true := by rw [hmine]; exact Bool.false_ne_true
   rw [List.filter_cons_of_neg hne, Unwinding.answers]
   dsimp only
   rw [List.filter_cons_of_neg (p := fun p : Call × Answer => mine p.1) hne]
   exact ih (h.other s t c hst hmine)

theorem answers_seen {Seen : Type} (seen : Answer → Seen) (calls : List Call) (s : State) :
  answers (fun s c => (seen (step s c).1, (step s c).2)) s calls =
   ((answers step s calls).1.map fun p => (p.1, seen p.2), (answers step s calls).2) := by
 induction calls generalizing s with
 | nil => rfl
 | cons c calls ih =>
  rw [answers, answers]
  dsimp only
  rw [ih]
  rfl

theorem answers_keeps {Inv : State → Prop} {Allowed : State → Call → Prop} (hstep : ∀ s c, Inv s → Allowed s c → Inv (step s c).2)
  {calls : List Call} {s : State} (hs : Inv s) (hcalls : ∀ before c after, calls = before ++ c :: after → Allowed (answers step s before).2 c) :
  Inv (answers step s calls).2 := by
 induction calls generalizing s with
 | nil => exact hs
 | cons c calls ih =>
  apply ih (hstep s c hs (hcalls [] c calls rfl))
  intro before d after heq
  exact hcalls (c :: before) d after (by rw [heq, List.cons_append])

end MoltBrowser.Unwinding
