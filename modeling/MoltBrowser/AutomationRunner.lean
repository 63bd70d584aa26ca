import MoltBrowser.AutomationSecurity

set_option autoImplicit false

/-!
# The workflow runner (`automation_runner.cc`)

`Run` prepares a run and `ExecuteNextStep` dispatches one step of it; the
control-flow steps keep two stacks beside a flat index, and RUN_SCRIPT puts
another script's steps into the running list. What an action does to the page
is the environment's: it says how the attempt ended and what the variables and
the world are then. A `Tick` is what the clock and the user say at a dispatch.
-/
namespace MoltBrowser.AutomationRunner
open AutomationScript AutomationSecurity SortedTable

abbrev Variables := Table Bytes Value

/-! ## Texts -/

def numberToString (i : ℤ) : Bytes := utf8 (toString i)

/-- `base::ReplaceSubstringsAfterOffset` from the start; `fuel` is at least the text's length. -/
def replaceSubstrings (token val : Bytes) : ℕ → Bytes → Bytes
 | 0, s => s
 | _, [] => []
 | fuel + 1, c :: s =>
  if token.isPrefixOf (c :: s) then val ++ replaceSubstrings token val fuel ((c :: s).drop token.length)
  else c :: replaceSubstrings token val fuel s

/-- A variable's text; doubles, lists and dictionaries are the JSON library's to write. -/
def variableText (render : Value → Bytes) : Value → Bytes
 | .string s => s
 | .bool b => if b then "true" else "false"
 | .int i => numberToString i.toInt
 | .double x => render (.double x)
 | .list l => render (.list l)
 | .dict d => render (.dict d)
 | _ => []

def resolve (render : Value → Bytes) (vars : Variables) (raw : Bytes) : Bytes :=
 vars.entries.foldl (fun out kv =>
  replaceSubstrings (utf8 "\x7b\x7b" ++ kv.1 ++ utf8 "\x7d\x7d") (variableText render kv.2)
   out.length out) raw

/-! ## Drafts -/

def kDraftNeedsReviewMessage : Bytes :=
 "This draft was made by the AI agent from your run. Review its steps and confirm its sites in Agent mode before it can run."

/-! ## Steps taught by voice -/

def kVoiceStepKey : Bytes := "voice"

def kVoiceRoutineMessage : Bytes :=
 "This routine was taught by voice. Run it in voice mode: say \"run\" and its name."

def isVoiceStep (step : Step) : Bool :=
 (step.extra.dict?.bind (Dict.findDict · kVoiceStepKey)).isSome

def hasVoiceSteps (script : Script) : Bool := script.steps.any isVoiceStep

/-! ## The run's state -/

/-- How one attempt at an action step ended; a blocked step is never retried. -/
inductive Ending where
 | succeeded
 | failed
 | blocked (needsTrust : Bool)
 deriving DecidableEq

structure Attempt (σ : Type) where
 ending : Ending
 note : Bytes := []
 foundBy : Bytes := []
 tokens : Int32 := 0
 vars : Variables
 world : σ

inductive LoadReply where
 | timedOut
 | loaded (child : Option Script)

structure Env (σ : Type) where
 render : Value → Bytes
 navigationHost : Bytes → Option Bytes
 hasStorage : Bool
 attempt : σ → SecurityPolicy → Variables → Step → Attempt σ
 load : σ → Bytes → LoadReply × σ

structure Tick where
 cancelRequested : Bool := false
 elapsedMs : ℤ := 0
 stepMs : ℤ := 0
 screenshotOk : Bool := false
 unixTime : ℤ := 0

/-- A step of the running list with the script it was loaded with and how many RUN_SCRIPT steps
led to it. -/
structure Placed where
 step : Step
 source : Script
 depth : ℕ

structure LoopFrame where
 startIndex : ℕ
 remaining : ℤ
 deriving DecidableEq

structure IfFrame where
 condition : Bool
 inElse : Bool
 deriving DecidableEq

structure RunResult where
 success : Bool
 message : Bytes
 stepsExecuted : Int32
 totalSteps : Int32
 durationMs : Int32
 deriving DecidableEq

/-- Stacks have their top first. `steps` is `script_.steps`; `trace` lists the executed steps. -/
structure Runner (σ : Type) where
 world : σ
 script : Script := {}
 steps : List Placed := []
 policy : SecurityPolicy := {}
 currentIndex : ℕ := 0
 isRunning : Bool := false
 blockedNeedsTrust : Bool := false
 vars : Variables := .empty
 loopStack : List LoopFrame := []
 ifStack : List IfFrame := []
 stepAttempt : ℕ := 0
 currentRunTokens : Int32 := 0
 currentRunSteps : List StepResult := []
 runTs : ℤ := 0
 result : Option RunResult := none
 trace : List Placed := []

/-- The stats after a run: counters, the last run's fields and its record, newest first. -/
def statsAfterRun (stats : Stats) (rec : RunRecord) (failedStep : Int32) (needsTrust : Bool) :
  Stats where
 runs := stats.runs + 1
 successes := if rec.success then stats.successes + 1 else stats.successes
 lastRunUnix := rec.timestampUnix
 lastRunDurationMs := rec.durationMs
 lastResult := rec.message
 lastFailedStepIndex := if rec.success then -1 else failedStep
 lastRunNeedsTrust := !rec.success && needsTrust
 aiTokensTotal := stats.aiTokensTotal + rec.aiTokens.toInt
 runHistory := (rec :: stats.runHistory).take kRunHistoryCap

/-! ## Dispatch -/

section Dispatch

variable {σ : Type} (env : Env σ) (t : Tick)

def finish (success : Bool) (message : Bytes) (r : Runner σ) : Runner σ :=
 let executed := Int32.ofNat r.currentIndex
 let total := Int32.ofNat r.steps.length
 let durationMs := Int32.ofInt t.elapsedMs
 let rec_ : RunRecord := {
  timestampUnix := t.unixTime
  success := success
  durationMs := durationMs
  stepsExecuted := executed
  totalSteps := total
  aiTokens := r.currentRunTokens
  message := message
  steps := r.currentRunSteps }
 { r with
   isRunning := false
   script := { r.script with
    stats := statsAfterRun r.script.stats rec_ executed r.blockedNeedsTrust }
   currentRunSteps := []
   result := some ⟨success, message, executed, total, durationMs⟩ }

/-- `CaptureStepAndThen` and the record part of `FinalizeStep`. -/
def recordStep (succeeded : Bool) (note foundBy : Bytes) (r : Runner σ) : Runner σ :=
 let step := (r.steps[r.currentIndex]?.map Placed.step).getD {}
 let filename : Bytes := utf8 "run_" ++ numberToString r.runTs ++ utf8 "_step_" ++
  numberToString r.currentIndex ++ (if succeeded then [] else utf8 "_fail") ++ utf8 ".png"
 let result : StepResult := {
  index := Int32.ofNat r.currentIndex
  type := step.type
  description := resolve env.render r.vars step.description
  ok := succeeded
  durationMs := Int32.ofInt t.stepMs
  screenshot := if env.hasStorage ∧ t.screenshotOk then filename else []
  note := note
  foundBy := foundBy }
 { r with currentRunSteps := r.currentRunSteps ++ [result] }

/-- The retries a failed step has, its own or its type's. -/
def effectiveRetries (s : Step) : ℤ :=
 let retries := if s.type = .callTool then 0 else s.retries.toInt
 if retries = 0 then
  match s.type with
  | .click | .type | .keypress | .waitFor | .assert | .extract => 10
  | .aiDecide | .aiExtract => 1
  | _ => retries
 else retries

/-- A step that succeeded, at `index` when it ended: the next one is after it. -/
def advance (note foundBy : Bytes) (r : Runner σ) : Runner σ :=
 let r := recordStep env t true note foundBy { r with stepAttempt := 0 }
 { r with currentIndex := r.currentIndex + 1 }

def endFailed (note foundBy : Bytes) (r : Runner σ) : Runner σ :=
 finish t false note (recordStep env t false note foundBy r)

def onStepFinished (s : Step) (succeeded : Bool) (note foundBy : Bytes) (r : Runner σ) : Runner σ :=
 if succeeded then advance env t note foundBy r
 else if (r.stepAttempt : ℤ) < effectiveRetries s then { r with stepAttempt := r.stepAttempt + 1 }
 else endFailed env t note foundBy r

def blockStep (needsTrust : Bool) (note foundBy : Bytes) (r : Runner σ) : Runner σ :=
 endFailed env t note foundBy { r with blockedNeedsTrust := needsTrust, stepAttempt := 0 }

def frameActive (f : IfFrame) : Bool := (f.condition && !f.inElse) || (!f.condition && f.inElse)

def shouldExecuteCurrentStep (ifStack : List IfFrame) : Bool := ifStack.all frameActive

def evaluateIfCondition (render : Value → Bytes) (vars : Variables) (s : Step) : Bool :=
 let expr := resolve render vars s.value
 if expr = [] then
  -- The most recent AI_DECIDE outcome.
  match vars.get "__ai_decision" with
  | some (.bool b) => b
  | _ => false
 else match vars.get expr with
  | some (.bool b) => b
  | some (.int i) => i ≠ 0
  | some (.double x) => x.mantissa ≠ 0
  | some (.string s) => s ≠ []
  | some v => !v.isNone
  | none =>
   let lower := toLowerAscii expr
   lower ≠ "false" ∧ lower ≠ "0" ∧ lower ≠ "no"

def iterations (s : Step) : ℤ := max 1 s.maxIterations.toInt

def placeChild (parent : Placed) (child : Script) : List Placed :=
 child.steps.map fun s => ⟨s, child, parent.depth + 1⟩

def withChildSites (policy : SecurityPolicy) (child : Script) : SecurityPolicy :=
 { policy with
   domainWhitelist := (effectivePolicy env.navigationHost child).domainWhitelist.foldl
    (fun list host => if host ∈ list then list else list ++ [host]) policy.domainWhitelist }

def onChildLoaded (p : Placed) (childId : Bytes) (child : Option Script) (r : Runner σ) :
  Runner σ :=
 match child with
 | none => onStepFinished env t p.step false (utf8 "RUN_SCRIPT: child not found: " ++ childId) [] r
 | some child =>
  if child.steps = [] then
   advance env t (utf8 "RUN_SCRIPT: " ++ childId ++ utf8 " (empty, skipped)") [] r
  else
   advance env t (utf8 "RUN_SCRIPT: expanded " ++ childId ++ utf8 " (" ++
     numberToString child.steps.length ++ utf8 " steps)") []
    { r with
      policy := withChildSites env r.policy child
      steps := r.steps.take (r.currentIndex + 1) ++ placeChild p child ++
       r.steps.drop (r.currentIndex + 1) }

def doRunScript (p : Placed) (r : Runner σ) : Runner σ :=
 let childId := resolve env.render r.vars p.step.target
 if childId = [] then
  onStepFinished env t p.step false "RUN_SCRIPT: missing target script id" [] r
 else if childId = r.script.id then
  onStepFinished env t p.step false "RUN_SCRIPT: refusing to recurse into self" [] r
 else if !env.hasStorage then
  onStepFinished env t p.step false "RUN_SCRIPT: no storage available" [] r
 else
  let (reply, world) := env.load r.world childId
  let r := { r with world := world }
  match reply with
  | .timedOut => onStepFinished env t p.step false "Step timed out" [] r
  | .loaded child => onChildLoaded env t p childId child r

def doAction (s : Step) (r : Runner σ) : Runner σ :=
 let a := env.attempt r.world r.policy r.vars s
 let r := { r with
  world := a.world
  vars := a.vars
  currentRunTokens := r.currentRunTokens + a.tokens }
 match a.ending with
 | .succeeded => onStepFinished env t s true a.note a.foundBy r
 | .failed => onStepFinished env t s false a.note a.foundBy r
 | .blocked needsTrust => blockStep env t needsTrust a.note a.foundBy r

/-- The switch over the step's type. Control-flow steps always keep the stacks. -/
def perform (p : Placed) (execute : Bool) (r : Runner σ) : Runner σ :=
 match p.step.type with
 | .if_ =>
  let cond := execute && evaluateIfCondition env.render r.vars p.step
  advance env t (if cond then "If: true" else "If: false") []
   { r with ifStack := ⟨cond, false⟩ :: r.ifStack }
 | .else_ =>
  advance env t "Else" [] { r with
   ifStack := match r.ifStack with
    | [] => []
    | f :: fs => { f with inElse := true } :: fs }
 | .endIf => advance env t "End if" [] { r with ifStack := r.ifStack.tail }
 | .loop =>
  -- In a branch not taken, no turns.
  let iters := if execute then iterations p.step else 0
  advance env t (utf8 "Loop start (" ++ numberToString iters ++ utf8 ")") []
   { r with loopStack := ⟨r.currentIndex, iters⟩ :: r.loopStack }
 | .endLoop =>
  match r.loopStack with
  | [] => onStepFinished env t p.step false "END_LOOP without LOOP" [] r
  | f :: fs =>
   if f.remaining - 1 > 0 ∧ execute then
    -- Back to the LOOP step; the next one is after it.
    advance env t "Loop continue" [] { r with
     currentIndex := f.startIndex
     loopStack := { f with remaining := f.remaining - 1 } :: fs }
   else advance env t "Loop done" [] { r with loopStack := fs }
 | .runScript =>
  if execute then doRunScript env t p r else { r with currentIndex := r.currentIndex + 1 }
 | .unknown =>
  if execute then onStepFinished env t p.step false "Unknown step type" [] r
  else { r with currentIndex := r.currentIndex + 1 }
 | _ =>
  if execute then doAction env t p.step r
  else { r with currentIndex := r.currentIndex + 1 }

/-- The dispatch of the step `p` at the current index, logged when it is executed. -/
def dispatch (p : Placed) (r : Runner σ) : Runner σ :=
 let execute := shouldExecuteCurrentStep r.ifStack
 perform env t p execute { r with trace := if execute then r.trace ++ [p] else r.trace }

def executeNextStep (r : Runner σ) : Runner σ :=
 if !r.isRunning then r
 else if t.cancelRequested then finish t false "Cancelled by user" r
 else match r.steps[r.currentIndex]? with
  | none => finish t true "Completed" r
  | some p =>
   if t.elapsedMs.tdiv 1000 > r.script.security.maxRuntimeSeconds.toInt then
    finish t false "Max runtime exceeded" r
   else dispatch env t p r

/-- `Run`, to its first `ExecuteNextStep`. -/
def run (script : Script) (startIndex : ℕ) (r : Runner σ) : Runner σ :=
 if r.isRunning then r
 else
  let r : Runner σ := { r with
   script := script
   steps := script.steps.map fun s => ⟨s, script, 0⟩
   policy := effectivePolicy env.navigationHost script
   blockedNeedsTrust := false
   currentIndex := if startIndex < script.steps.length then startIndex else 0
   isRunning := true
   currentRunTokens := 0
   currentRunSteps := []
   runTs := t.unixTime
   vars := script.defaultVariables.entries.foldl
    (fun vars kv => vars.insert kv.1 (.string kv.2)) .empty
   loopStack := []
   ifStack := []
   result := none
   trace := [] }
  if script.security.sitesUnconfirmed then finish t false kDraftNeedsReviewMessage r
  else if hasVoiceSteps script then finish t false kVoiceRoutineMessage r
  else r

def dispatches (r : Runner σ) (ticks : List Tick) : Runner σ :=
 TransitionRuns.run (fun r t => executeNextStep env t r) r ticks

theorem dispatches_cons (r : Runner σ) (ticks : List Tick) :
  dispatches env r (t :: ticks) = dispatches env (executeNextStep env t r) ticks := rfl

end Dispatch

/-! ## What one step can do -/

section Effects

variable {σ : Type} (env : Env σ) (t : Tick)

/-- The child that the RUN_SCRIPT step `s` loads now. -/
def childOf (r : Runner σ) (s : Step) : Option Script :=
 let childId := resolve env.render r.vars s.target
 if childId = [] ∨ childId = r.script.id ∨ env.hasStorage = false then none
 else match (env.load r.world childId).1 with
  | .timedOut => none
  | .loaded child => child

def worldAfterLoad (r : Runner σ) (s : Step) : σ :=
 let childId := resolve env.render r.vars s.target
 if childId = [] ∨ childId = r.script.id ∨ env.hasStorage = false then r.world
 else (env.load r.world childId).2

def spliced (r : Runner σ) (p : Placed) (child : Script) : List Placed :=
 r.steps.take (r.currentIndex + 1) ++ placeChild p child ++ r.steps.drop (r.currentIndex + 1)

theorem doRunScript_eq (p : Placed) (r : Runner σ) : ∃ note, doRunScript env t p r =
  match childOf env r p.step with
  | none => onStepFinished env t p.step false note []
    { r with world := worldAfterLoad env r p.step }
  | some child =>
   if child.steps = [] then advance env t note [] { r with world := worldAfterLoad env r p.step }
   else advance env t note [] { r with
    world := worldAfterLoad env r p.step
    policy := withChildSites env r.policy child
    steps := spliced r p child } := by
 simp only [doRunScript, childOf, worldAfterLoad]
 generalize resolve env.render r.vars p.step.target = childId
 by_cases hid : childId = []
 · exact ⟨_, by simp only [hid, true_or, ↓reduceIte]; rfl⟩
 by_cases hself : childId = r.script.id
 · exact ⟨_, by simp only [if_neg hid, if_pos hself, if_pos (Or.inr (Or.inl hself))]; rfl⟩
 cases hstore : env.hasStorage with
 | false => exact ⟨_, by simp only [hid, hself, or_true, Bool.not_false, ↓reduceIte]; rfl⟩
 | true =>
  simp only [hid, hself, or_self, Bool.not_true, Bool.true_eq_false, Bool.false_eq_true, ↓reduceIte]
  cases (env.load r.world childId).1 with
  | timedOut => exact ⟨_, rfl⟩
  | loaded child =>
   cases child with
   | none => exact ⟨_, rfl⟩
   | some child =>
    by_cases hempty : child.steps = []
    · exact ⟨_, by simp only [onChildLoaded, hempty, ↓reduceIte]; rfl⟩
    · exact ⟨_, by simp only [onChildLoaded, hempty, ↓reduceIte]; rfl⟩

/-- The child whose steps the dispatch of `p` puts into the running list. -/
def expansion (p : Placed) (r : Runner σ) : Option Script :=
 if p.step.type = .runScript ∧ shouldExecuteCurrentStep r.ifStack then
  (childOf env r p.step).filter fun child => child.steps ≠ []
 else none

section Frame

variable (s : Step) (succeeded : Bool) (note foundBy : Bytes) (r : Runner σ)

@[simp] theorem onStepFinished_steps :
  (onStepFinished env t s succeeded note foundBy r).steps = r.steps := by
 unfold onStepFinished
 split
 · rfl
 · split <;> rfl

@[simp] theorem onStepFinished_trace :
  (onStepFinished env t s succeeded note foundBy r).trace = r.trace := by
 unfold onStepFinished
 split
 · rfl
 · split <;> rfl

@[simp] theorem doAction_steps : (doAction env t s r).steps = r.steps := by
 simp only [doAction]
 split
 · exact onStepFinished_steps _ _ _ _ _ _ _
 · exact onStepFinished_steps _ _ _ _ _ _ _
 · rfl

@[simp] theorem doAction_trace : (doAction env t s r).trace = r.trace := by
 simp only [doAction]
 split
 · exact onStepFinished_trace _ _ _ _ _ _ _
 · exact onStepFinished_trace _ _ _ _ _ _ _
 · rfl

theorem doRunScript_steps (p : Placed) : (doRunScript env t p r).steps =
  match (childOf env r p.step).filter fun child => child.steps ≠ [] with
  | some child => spliced r p child
  | none => r.steps := by
 obtain ⟨note, heq⟩ := doRunScript_eq env t p r
 rw [heq]
 cases childOf env r p.step with
 | none => simp
 | some child =>
  by_cases hempty : child.steps = []
  · simp only [hempty, Option.filter_some, ne_eq, not_true_eq_false, decide_false, ↓reduceIte,
     Bool.false_eq_true]
    rfl
  · simp only [hempty, Option.filter_some, ne_eq, not_false_eq_true, decide_true, ↓reduceIte]
    rfl

@[simp] theorem doRunScript_trace (p : Placed) : (doRunScript env t p r).trace = r.trace := by
 obtain ⟨note, heq⟩ := doRunScript_eq env t p r
 rw [heq]
 split
 · simp
 · split <;> rfl

theorem perform_trace (p : Placed) (execute : Bool) :
  (perform env t p execute r).trace = r.trace := by
 unfold perform
 split
 case h_5 =>
  split
  · simp
  · split <;> rfl
 case h_6 => split <;> simp
 case h_7 => split <;> simp
 case h_8 => split <;> simp
 all_goals rfl

theorem perform_steps (p : Placed) (execute : Bool) : (perform env t p execute r).steps =
  match if p.step.type = .runScript ∧ execute then
    (childOf env r p.step).filter fun child => child.steps ≠ [] else none with
  | some child => spliced r p child
  | none => r.steps := by
 by_cases hrun : p.step.type = .runScript
 · cases execute with
   | true => simp only [perform, hrun, ↓reduceIte, and_self, doRunScript_steps]
   | false => simp only [perform, hrun, Bool.false_eq_true, ↓reduceIte, and_false]
 · simp only [hrun, false_and, ↓reduceIte]
   unfold perform
   split
   case h_5 =>
    split
    · simp
    · split <;> rfl
   case h_6 h => exact absurd h hrun
   case h_7 => split <;> simp
   case h_8 => split <;> simp
   all_goals rfl

theorem dispatch_trace (p : Placed) : (dispatch env t p r).trace =
  if shouldExecuteCurrentStep r.ifStack then r.trace ++ [p] else r.trace := by
 simp only [dispatch, perform_trace]

theorem dispatch_steps (p : Placed) : (dispatch env t p r).steps =
  match expansion env p r with
  | some child => spliced r p child
  | none => r.steps := by
 simp only [dispatch, perform_steps]
 rfl

/-- The step this call of `ExecuteNextStep` dispatches; none when the run is over or ends here. -/
def dispatched (t : Tick) (r : Runner σ) : Option Placed :=
 if r.isRunning ∧ t.cancelRequested = false ∧
   t.elapsedMs.tdiv 1000 ≤ r.script.security.maxRuntimeSeconds.toInt then
  r.steps[r.currentIndex]?
 else none

theorem executeNextStep_of_dispatched {r : Runner σ} {t : Tick} {p : Placed}
  (h : dispatched t r = some p) : executeNextStep env t r = dispatch env t p r := by
 unfold dispatched at h
 split at h
 · next hgo =>
   simp only [executeNextStep, hgo.1, hgo.2.1, h, Bool.not_true, Bool.false_eq_true, ↓reduceIte,
    not_lt.2 hgo.2.2]
 · cases h

theorem executeNextStep_of_not_dispatched {r : Runner σ} {t : Tick} (h : dispatched t r = none) :
  (r.isRunning = false ∧ executeNextStep env t r = r) ∨
   ∃ success message, executeNextStep env t r = finish t success message r := by
 unfold executeNextStep
 cases hrun : r.isRunning with
 | false => exact .inl ⟨rfl, rfl⟩
 | true =>
  right
  cases hcancel : t.cancelRequested with
  | true => exact ⟨_, _, rfl⟩
  | false =>
   cases hstep : r.steps[r.currentIndex]? with
   | none => exact ⟨_, _, rfl⟩
   | some p =>
    by_cases htime : t.elapsedMs.tdiv 1000 > r.script.security.maxRuntimeSeconds.toInt
    · exact ⟨_, _, by simp only [Bool.not_true, Bool.false_eq_true, ↓reduceIte, htime]; rfl⟩
    · simp only [dispatched, hrun, hcancel, hstep, not_lt.1 htime, and_self, ↓reduceIte,
       reduceCtorEq] at h

end Frame

end Effects

end MoltBrowser.AutomationRunner
