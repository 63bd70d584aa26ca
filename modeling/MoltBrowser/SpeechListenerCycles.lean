import MoltBrowser.SpeechListenerCourse

set_option autoImplicit false

/-!
# What the listener writes was asked for

Events come in cycles: up to and including a `final`, or to a RESET, which the
epoch counts.
-/
namespace MoltBrowser.SpeechListener

open TransitionRuns

/-- An event with the `wake_required` in force when it was written. -/
abbrev Written := HelperEvent × Bool

/-- The first event of the cycle that `w` belongs to, `current` being the first of
the cycle in progress. -/
def cycleStart (current : Option Written) (w : Written) : Written :=
 match current with
 | some first => if first.1.epoch = w.1.epoch then first else w
 | none => w

/-- The cycle in progress after `w`. -/
def cycleAfter (current : Option Written) (w : Written) : Option Written :=
 if w.1.type = .final then none else some (cycleStart current w)

def cycles (current : Option Written) : List Written → List (Written × Written)
 | [] => []
 | w :: rest => (cycleStart current w, w) :: cycles (cycleAfter current w) rest

def AskedFor (first : Written) : Prop :=
 first.1.type = .wake ∨ (first.1.type = .speechStart ∧ first.2 = false)

variable {Sample : Type}

def InProgressOf (c : Course Sample) : Option Written → Prop
 | none => c.stage = .quiet
 | some first => c.stage ≠ .quiet ∧ first.1.epoch = c.epoch ∧ AskedFor first

variable {wakeRequired : Bool}

theorem allows_quiet {type : HelperEventType}
  (h : Stage.quiet.allows type wakeRequired = true) :
  type = .wake ∨ (type = .speechStart ∧ wakeRequired = false) := by
 cases type <;> simp_all [Stage.allows]

theorem after_ne_quiet {stage : Stage} {type : HelperEventType}
  (h : stage.allows type wakeRequired = true) (hfinal : type ≠ .final) :
  stage.after type ≠ .quiet := by
 cases stage <;> cases type <;> simp_all [Stage.allows, Stage.after]

variable {c : Course Sample} {current : Option Written}

theorem cycle_emit (h : InProgressOf c current)
  {event : HelperEvent} (hallow : c.Allows (.emit event wakeRequired)) :
  AskedFor (cycleStart current (event, wakeRequired)) ∧
   InProgressOf (c.after (.emit event wakeRequired))
    (cycleAfter current (event, wakeRequired)) := by
 obtain ⟨hepoch, -, hstage, -⟩ := hallow
 have hfirst : AskedFor (cycleStart current (event, wakeRequired)) ∧
   (cycleStart current (event, wakeRequired)).1.epoch = event.epoch := by
  cases current with
  | none =>
   have hquiet : c.stageIn event.epoch = .quiet := by
    unfold Course.stageIn
    rw [show c.stage = .quiet from h]
    split <;> rfl
   rw [hquiet] at hstage
   exact ⟨allows_quiet hstage, rfl⟩
  | some first =>
   obtain ⟨-, hsame, hasked⟩ := h
   unfold cycleStart
   dsimp only
   by_cases heq : first.1.epoch = event.epoch
   · rw [if_pos heq]
     exact ⟨hasked, heq⟩
   · -- a RESET came between: the event starts a cycle of its own
     rw [if_neg heq]
     rw [Course.stageIn, if_pos (by omega)] at hstage
     exact ⟨allows_quiet hstage, rfl⟩
 refine ⟨hfirst.1, ?_⟩
 unfold cycleAfter
 split
 · next hfinal =>
   show (c.stageIn event.epoch).after event.type = .quiet
   rw [hfinal]
   rfl
 · next hfinal => exact ⟨after_ne_quiet hstage hfinal, hfirst.2, hfirst.1⟩

theorem InProgressOf.after
  (h : InProgressOf c current) {a : Action Sample} (ha : a.written = none) :
  InProgressOf (c.after a) current := by
 cases a
 case emit => exact absurd ha (by simp [Action.written])
 all_goals cases current <;> exact h

theorem cycles_askedFor {trace : List (Action Sample)}
  (h : InProgressOf c current)
  (horderly : Along Course.after Course.Allows c trace) :
  ∀ cycle ∈ cycles current (trace.filterMap Action.written), AskedFor cycle.1 := by
 induction trace generalizing c current with
 | nil => simp [cycles]
 | cons a trace ih =>
  cases hwritten : a.written with
  | none =>
   rw [List.filterMap_cons_none hwritten]
   exact ih (h.after hwritten) horderly.2
  | some w =>
   rw [List.filterMap_cons_some hwritten, cycles]
   obtain ⟨event, wakeRequired⟩ := w
   cases a <;> simp only [Action.written, reduceCtorEq, Option.some.injEq, Prod.mk.injEq] at hwritten
   case emit e v =>
   obtain ⟨rfl, rfl⟩ := hwritten
   obtain ⟨hasked, hnext⟩ := cycle_emit h horderly.1
   intro cycle hcycle
   rcases List.mem_cons.1 hcycle with rfl | hcycle
   · exact hasked
   · exact ih hnext horderly.2 cycle hcycle

/-- Whatever is written of speech is in a cycle that a wake phrase began, or speech
while none was required. -/
theorem written_only_when_asked (env : Environment Sample) (silence : Sample)
  (calls : List (Call Sample)) :
  ∀ first w, (first, w) ∈ cycles none (ran env silence calls).written →
   w.1.type ∈ [.speechStart, .partialText, .speechEnd, .final] →
    first.1.type = .wake ∨ (first.1.type = .speechStart ∧ first.2 = false) := by
 intro first w hmem _
 have horderly := (settled_ran env silence calls).synced.orderly
 have hquiet : InProgressOf ({} : Course Sample) none := rfl
 exact cycles_askedFor hquiet horderly (first, w) hmem

theorem written_only_when_asked_waking :
  (({ type := .wake, epoch := 0, audioMs := 0 }, true),
    ({ type := .final, text := [65, 66], epoch := 0, audioMs := 0 }, true)) ∈
     cycles none (ran wakingEnvironment 0 [.feed [5], .feed [6, 7]]).written ∧
   (HelperEventType.wake = .wake ∨ (HelperEventType.wake = .speechStart ∧ true = false)) := by
 have hmem : (({ type := .wake, epoch := 0, audioMs := 0 }, true),
   ({ type := .final, text := [65, 66], epoch := 0, audioMs := 0 }, true)) ∈
    cycles none (ran wakingEnvironment 0 [.feed [5], .feed [6, 7]]).written := by decide +kernel
 exact ⟨hmem, written_only_when_asked wakingEnvironment 0 [.feed [5], .feed [6, 7]] _ _ hmem
  (by simp)⟩

end MoltBrowser.SpeechListener
