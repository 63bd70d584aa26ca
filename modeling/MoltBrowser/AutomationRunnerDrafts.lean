import MoltBrowser.AutomationRunner

set_option autoImplicit false

/-!
# Unreviewed scripts in a run

`Run` refuses a draft whose sites nobody confirmed and a routine taught by
voice; the child of a RUN_SCRIPT step is not checked. A run executes only steps
of approved scripts as long as every child it puts into the running list is one.
-/
namespace MoltBrowser.AutomationRunner
open AutomationScript

def approved (script : Script) : Bool :=
 !script.security.sitesUnconfirmed && !hasVoiceSteps script

section Approved

variable {σ : Type} (env : Env σ)

def ExpandsApproved (r : Runner σ) (t : Tick) : Prop :=
 ∀ p ∈ dispatched t r, ∀ child ∈ expansion env p r, approved child

/-- The running list and what was executed of it come from approved scripts. -/
structure AllApproved (r : Runner σ) : Prop where
 steps : r.isRunning = true → ∀ p ∈ r.steps, approved p.source
 trace : ∀ p ∈ r.trace, approved p.source

variable {env} {r : Runner σ}

theorem dispatched_mem {t : Tick} {p : Placed} (h : dispatched t r = some p) :
  p ∈ r.steps ∧ r.isRunning = true := by
 unfold dispatched at h
 split at h
 · next hgo => exact ⟨List.mem_of_getElem? h, hgo.1⟩
 · cases h

theorem mem_spliced {p q : Placed} {child : Script} (h : q ∈ spliced r p child) :
  q ∈ r.steps ∨ q.source = child := by
 simp only [spliced, List.mem_append] at h
 rcases h with (h | h) | h
 · exact .inl (List.mem_of_mem_take h)
 · obtain ⟨s, -, rfl⟩ := List.mem_map.1 h
   exact .inr rfl
 · exact .inl (List.mem_of_mem_drop h)

theorem AllApproved.dispatch {t : Tick} {p : Placed} (h : AllApproved r)
  (hp : dispatched t r = some p) (hchild : ∀ child ∈ expansion env p r, approved child) :
  AllApproved (dispatch env t p r) := by
 obtain ⟨hmem, hrun⟩ := dispatched_mem hp
 have hsteps := h.steps hrun
 refine ⟨fun _ q hq => ?_, fun q hq => ?_⟩
 · rw [dispatch_steps] at hq
   cases hexp : expansion env p r with
   | none =>
    rw [hexp] at hq
    exact hsteps q hq
   | some child =>
    rw [hexp] at hq
    rcases mem_spliced hq with hq | hq
    · exact hsteps q hq
    · rw [hq]
      exact hchild child hexp
 · rw [dispatch_trace] at hq
   split at hq
   · rcases List.mem_append.1 hq with hq | hq
     · exact h.trace q hq
     · rw [List.mem_singleton.1 hq]
       exact hsteps p hmem
   · exact h.trace q hq

theorem AllApproved.executeNextStep (h : AllApproved r) (t : Tick)
  (hcond : ExpandsApproved env r t) : AllApproved (executeNextStep env t r) := by
 cases hp : dispatched t r with
 | some p =>
  rw [executeNextStep_of_dispatched env hp]
  exact h.dispatch hp (hcond p hp)
 | none =>
  rcases executeNextStep_of_not_dispatched env hp with ⟨-, heq⟩ | ⟨success, message, heq⟩
  · rw [heq]
    exact h
  · rw [heq]
    exact ⟨fun hrun => (by cases hrun), h.trace⟩

theorem AllApproved.run (script : Script) (startIndex : ℕ) (t : Tick) (hidle : r.isRunning = false) :
  AllApproved (run env t script startIndex r) := by
 unfold AutomationRunner.run
 simp only [hidle, Bool.false_eq_true, ↓reduceIte]
 split
 · exact ⟨fun hrun => (by cases hrun), fun p hp => (by cases hp)⟩
 · next hdraft =>
   split
   · exact ⟨fun hrun => (by cases hrun), fun p hp => (by cases hp)⟩
   · next hvoice =>
     refine ⟨fun _ p hp => ?_, fun p hp => by cases hp⟩
     obtain ⟨s, -, rfl⟩ := List.mem_map.1 hp
     simp only [Bool.not_eq_true] at hdraft hvoice
     simp only [approved, hdraft, hvoice, Bool.not_false, Bool.and_self]

end Approved

/-- No step of an unreviewed script is executed in a run that puts none of one into its list. -/
theorem only_approved_executed {σ : Type} (env : Env σ) (script : Script) (startIndex : ℕ)
  (t : Tick) (r : Runner σ) (ticks : List Tick) (hidle : r.isRunning = false)
  (hcond : TransitionRuns.Along (fun r t => executeNextStep env t r) (ExpandsApproved env)
   (run env t script startIndex r) ticks) :
  ∀ p ∈ (dispatches env (run env t script startIndex r) ticks).trace, approved p.source := by
 have hall : AllApproved (dispatches env (run env t script startIndex r) ticks) :=
  TransitionRuns.run_invariant (I := AllApproved) (fun _ t h hc => h.executeNextStep t hc)
   (AllApproved.run script startIndex t hidle) hcond
 exact hall.trace

section Samples

def draftScript : Script where
 id := "draft"
 steps := [{ type := .notify }]
 security := { sitesUnconfirmed := true }

def reviewedScript : Script where
 id := "reviewed"
 steps := [{ type := .notify }]

def sampleEnv : Env Unit where
 render _ := []
 navigationHost _ := none
 hasStorage := true
 attempt _ _ vars _ := { ending := .succeeded, vars := vars, world := () }
 load _ id :=
  (.loaded (if id = "draft" then some draftScript
   else if id = "reviewed" then some reviewedScript else none), ())

def chainScript (childId : Bytes) : Script where
 id := "chain"
 steps := [{ type := .runScript, target := childId }]

theorem only_approved_executed_sample :
  TransitionRuns.Along (fun r t => executeNextStep sampleEnv t r) (ExpandsApproved sampleEnv)
   (run sampleEnv {} (chainScript "reviewed") 0 { world := () }) [{}, {}, {}] ∧
  ∀ p ∈ (dispatches sampleEnv (run sampleEnv {} (chainScript "reviewed") 0 { world := () })
   [{}, {}, {}]).trace, approved p.source := by
 have hcond : TransitionRuns.Along (fun r t => executeNextStep sampleEnv t r) (ExpandsApproved sampleEnv)
   (run sampleEnv {} (chainScript "reviewed") 0 { world := () }) [{}, {}, {}] := by
  refine ⟨?_, ?_, ?_, trivial⟩
  · rintro p hp child hchild
    cases hp
    cases hchild
    rfl
  · rintro p hp child hchild
    cases hp
    cases hchild
  · rintro p hp
    cases hp
 exact ⟨hcond, only_approved_executed sampleEnv (chainScript "reviewed") 0 {} { world := () }
  [{}, {}, {}] rfl hcond⟩

/-- The draft's step is executed. -/
theorem draft_executed : approved (chainScript "draft") ∧
  ¬ ∀ p ∈ (dispatches sampleEnv (run sampleEnv {} (chainScript "draft") 0 { world := () })
   [{}, {}]).trace, approved p.source := by
 decide

end Samples

end MoltBrowser.AutomationRunner
