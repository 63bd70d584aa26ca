import MoltBrowser.AutomationStructured

set_option autoImplicit false

/-!
# Runs from the middle of a workflow

A run may start at any step, with both control stacks empty. It is the run with
the frames of the constructs open at that step, as long as no ELSE and no
END_LOOP looks for a frame that was never pushed.
-/
namespace MoltBrowser.AutomationStructured
open List
open AutomationScript AutomationSecurity AutomationRunner AutomationCalls AutomationRunnerCalls

/-! ## Frames underneath -/

section Underneath

variable {σ : Type} {env : Env σ} {t : Tick} {r : Runner σ} {ifs : List IfFrame}
 {loops : List LoopFrame}

def underneath (ifs : List IfFrame) (loops : List LoopFrame) (r : Runner σ) : Runner σ :=
 { r with ifStack := r.ifStack ++ ifs, loopStack := r.loopStack ++ loops }

def FramePushed (r : Runner σ) (t : Tick) : Prop :=
 ∀ p ∈ dispatched t r, (p.step.type = .else_ → r.ifStack ≠ []) ∧
  (p.step.type = .endLoop → r.loopStack ≠ [])

instance (r : Runner σ) (t : Tick) : Decidable (FramePushed r t) :=
 inferInstanceAs (Decidable (∀ p ∈ dispatched t r, (p.step.type = .else_ → r.ifStack ≠ []) ∧
  (p.step.type = .endLoop → r.loopStack ≠ [])))

theorem shouldExecute_underneath (hactive : ∀ f ∈ ifs, frameActive f = true) (stack : List IfFrame) :
  shouldExecuteCurrentStep (stack ++ ifs) = shouldExecuteCurrentStep stack := by
 unfold shouldExecuteCurrentStep
 rw [all_append, all_eq_true.2 hactive, Bool.and_true]

theorem onStepFinished_underneath (s : Step) (succeeded : Bool) (note foundBy : Bytes) :
  onStepFinished env t s succeeded note foundBy (underneath ifs loops r) =
   underneath ifs loops (onStepFinished env t s succeeded note foundBy r) := by
 unfold onStepFinished
 split
 · rfl
 · change (if (r.stepAttempt : ℤ) < effectiveRetries s then _ else _) = _
   split <;> rfl

theorem doAction_underneath (s : Step) :
  doAction env t s (underneath ifs loops r) = underneath ifs loops (doAction env t s r) := by
 simp only [doAction]
 have hattempt : env.attempt (underneath ifs loops r).world (underneath ifs loops r).policy
   (underneath ifs loops r).vars s = env.attempt r.world r.policy r.vars s := rfl
 rw [hattempt]
 generalize env.attempt r.world r.policy r.vars s = a
 have hfinished : ∀ succeeded, onStepFinished env t s succeeded a.note a.foundBy
   (underneath ifs loops { r with
    world := a.world
    vars := a.vars
    currentRunTokens := r.currentRunTokens + a.tokens }) = _ :=
  fun succeeded => onStepFinished_underneath s succeeded a.note a.foundBy
 cases a.ending with
 | succeeded => exact hfinished true
 | failed => exact hfinished false
 | blocked needsTrust => rfl

theorem doRunScript_underneath (p : Placed) :
  doRunScript env t p (underneath ifs loops r) = underneath ifs loops (doRunScript env t p r) := by
 simp only [doRunScript]
 have hid : resolve env.render (underneath ifs loops r).vars p.step.target =
   resolve env.render r.vars p.step.target := rfl
 have hself : (underneath ifs loops r).script = r.script := rfl
 have hworld : (underneath ifs loops r).world = r.world := rfl
 rw [hid, hself, hworld]
 generalize resolve env.render r.vars p.step.target = childId
 have hfailed : ∀ (note : Bytes) (world : σ), onStepFinished env t p.step false note []
   (underneath ifs loops { r with world := world }) = _ :=
  fun note world => onStepFinished_underneath p.step false note []
 split_ifs
 · exact hfailed _ r.world
 · exact hfailed _ r.world
 · exact hfailed _ r.world
 · cases (env.load r.world childId).1 with
   | timedOut => exact hfailed _ _
   | loaded child =>
    cases child with
    | none => exact hfailed _ _
    | some child =>
     simp only [onChildLoaded]
     split <;> rfl

/-- The switch does the same above the frames; END_IF without a frame of its own takes one. -/
theorem perform_underneath {p : Placed} {execute : Bool} (hactive : ∀ f ∈ ifs, frameActive f = true)
  (helse : p.step.type = .else_ → r.ifStack ≠ [])
  (hloop : p.step.type = .endLoop → r.loopStack ≠ []) :
  ∃ ifs', (∀ f ∈ ifs', frameActive f = true) ∧
   perform env t p execute (underneath ifs loops r) =
    underneath ifs' loops (perform env t p execute r) := by
 unfold perform
 cases htype : p.step.type with
 | if_ | loop => exact ⟨ifs, hactive, rfl⟩
 | else_ =>
  obtain ⟨f, fs, hstack⟩ := exists_cons_of_ne_nil (helse htype)
  refine ⟨ifs, hactive, ?_⟩
  simp only [underneath, hstack, cons_append]
  rfl
 | endIf =>
  cases hstack : r.ifStack with
  | nil =>
   refine ⟨ifs.tail, fun f hf => hactive f (mem_of_mem_tail hf), ?_⟩
   simp only [underneath, hstack, nil_append, tail_nil]
   rfl
  | cons f fs =>
   refine ⟨ifs, hactive, ?_⟩
   simp only [underneath, hstack, cons_append, tail_cons]
   rfl
 | endLoop =>
  obtain ⟨f, fs, hstack⟩ := exists_cons_of_ne_nil (hloop htype)
  refine ⟨ifs, hactive, ?_⟩
  simp only [underneath, hstack, cons_append]
  split <;> rfl
 | runScript =>
  refine ⟨ifs, hactive, ?_⟩
  cases execute with
  | true => exact doRunScript_underneath p
  | false => rfl
 | unknown =>
  refine ⟨ifs, hactive, ?_⟩
  cases execute with
  | true => exact onStepFinished_underneath p.step false "Unknown step type" []
  | false => rfl
 | navigate | click | type | scroll | keypress | wait | waitFor | extract | aiExtract | aiDecide
 | assert | notify | screenshot | runJs | callTool =>
  refine ⟨ifs, hactive, ?_⟩
  cases execute with
  | true => exact doAction_underneath p.step
  | false => rfl

theorem executeNextStep_underneath (loops : List LoopFrame) (hactive : ∀ f ∈ ifs, frameActive f = true)
  (hpushed : FramePushed r t) :
  ∃ ifs', (∀ f ∈ ifs', frameActive f = true) ∧
   executeNextStep env t (underneath ifs loops r) =
    underneath ifs' loops (executeNextStep env t r) := by
 cases hp : dispatched t r with
 | some p =>
  have hp' : dispatched t (underneath ifs loops r) = some p := hp
  obtain ⟨helse, hloop⟩ := hpushed p hp
  rw [executeNextStep_of_dispatched env hp, executeNextStep_of_dispatched env hp']
  have hunder : dispatch env t p (underneath ifs loops r) =
    perform env t p (shouldExecuteCurrentStep r.ifStack) (underneath ifs loops { r with
     trace := if shouldExecuteCurrentStep r.ifStack then r.trace ++ [p] else r.trace }) := by
   simp only [dispatch, underneath, shouldExecute_underneath hactive]
  rw [hunder]
  exact perform_underneath hactive helse hloop
 | none =>
  refine ⟨ifs, hactive, ?_⟩
  have hrunning : (underneath ifs loops r).isRunning = r.isRunning := rfl
  have hsteps : (underneath ifs loops r).steps[(underneath ifs loops r).currentIndex]? =
    r.steps[r.currentIndex]? := rfl
  have hscript : (underneath ifs loops r).script = r.script := rfl
  simp only [executeNextStep, hrunning, hsteps, hscript]
  split_ifs with hover hcancel htime
  · rfl
  · rfl
  · cases r.steps[r.currentIndex]? <;> rfl
  · cases hstep : r.steps[r.currentIndex]? with
    | none => rfl
    | some p =>
     simp only [Bool.not_eq_true, Bool.not_eq_false'] at hover hcancel
     simp only [dispatched, hover, hcancel, not_lt.1 htime, and_self, ↓reduceIte, hstep,
      reduceCtorEq] at hp

theorem dispatches_underneath (loops : List LoopFrame) {ticks : List Tick}
  (hactive : ∀ f ∈ ifs, frameActive f = true)
  (hpushed : TransitionRuns.Along (fun r t => executeNextStep env t r) FramePushed r ticks) :
  ∃ ifs', (∀ f ∈ ifs', frameActive f = true) ∧
   dispatches env (underneath ifs loops r) ticks = underneath ifs' loops (dispatches env r ticks) := by
 induction ticks generalizing r ifs with
 | nil => exact ⟨ifs, hactive, rfl⟩
 | cons t ticks ih =>
  obtain ⟨ifs', hactive', heq⟩ := executeNextStep_underneath loops hactive hpushed.1
  rw [dispatches_cons, dispatches_cons, heq]
  exact ih hactive' hpushed.2

end Underneath

/-! ## What follows a step of a structured program -/

/-- An execution that passes through step `k` means `f` from there on. An ELSE step ends the branch
before it or begins its own; a loop has any of its turns left. -/
inductive Onward {σ : Type} (env : Env σ) (policy : SecurityPolicy) :
  Prog → ℕ → (Store σ → Result σ) → Prop
 | here (prog : Prog) : Onward env policy prog 0 (meaning env policy prog)
 | action {s : Step} {hs : isAction s.type = true} {rest : Prog} {k : ℕ} {f : Store σ → Result σ} :
  Onward env policy rest k f → Onward env policy (.action s hs rest) (k + 1) f
 | thenOnly {head close : Step} {hhead : head.type = .if_} {hclose : close.type = .endIf}
   {body rest : Prog} {k : ℕ} {f : Store σ → Result σ} :
  k ≤ (flatten body).length → Onward env policy body k f →
   Onward env policy (.ifThen head hhead body close hclose rest) (k + 1)
    fun st => (f st).andThen (meaning env policy rest)
 | afterIf {head close : Step} {hhead : head.type = .if_} {hclose : close.type = .endIf}
   {body rest : Prog} {k : ℕ} {f : Store σ → Result σ} : Onward env policy rest k f →
  Onward env policy (.ifThen head hhead body close hclose rest) ((flatten body).length + 2 + k) f
 | thenBranch {head mid close : Step} {hhead : head.type = .if_} {hmid : mid.type = .else_}
   {hclose : close.type = .endIf} {body other rest : Prog} {k : ℕ} {f : Store σ → Result σ} :
  k ≤ (flatten body).length → Onward env policy body k f →
   Onward env policy (.ifElse head hhead body mid hmid other close hclose rest) (k + 1)
    fun st => (f st).andThen (meaning env policy rest)
 | elseStep {head mid close : Step} {hhead : head.type = .if_} {hmid : mid.type = .else_}
   {hclose : close.type = .endIf} {body other rest : Prog} :
  Onward env policy (.ifElse head hhead body mid hmid other close hclose rest)
   ((flatten body).length + 1) fun st =>
    (meaning env policy other st).andThen (meaning env policy rest)
 | elseBranch {head mid close : Step} {hhead : head.type = .if_} {hmid : mid.type = .else_}
   {hclose : close.type = .endIf} {body other rest : Prog} {k : ℕ} {f : Store σ → Result σ} :
  k ≤ (flatten other).length → Onward env policy other k f →
   Onward env policy (.ifElse head hhead body mid hmid other close hclose rest)
    ((flatten body).length + 2 + k) fun st => (f st).andThen (meaning env policy rest)
 | afterElse {head mid close : Step} {hhead : head.type = .if_} {hmid : mid.type = .else_}
   {hclose : close.type = .endIf} {body other rest : Prog} {k : ℕ} {f : Store σ → Result σ} :
  Onward env policy rest k f →
   Onward env policy (.ifElse head hhead body mid hmid other close hclose rest)
    ((flatten body).length + (flatten other).length + 3 + k) f
 | body {head close : Step} {hhead : head.type = .loop} {hclose : close.type = .endLoop}
   {body rest : Prog} {k left : ℕ} {f : Store σ → Result σ} :
  (left : ℤ) < iterations head → k ≤ (flatten body).length → Onward env policy body k f →
   Onward env policy (.loop head hhead body close hclose rest) (k + 1) fun st =>
    ((f st).andThen (repeatTimes (meaning env policy body) left)).andThen (meaning env policy rest)
 | afterLoop {head close : Step} {hhead : head.type = .loop} {hclose : close.type = .endLoop}
   {body rest : Prog} {k : ℕ} {f : Store σ → Result σ} : Onward env policy rest k f →
  Onward env policy (.loop head hhead body close hclose rest) ((flatten body).length + 2 + k) f

/-! ## The constructs open at a step -/

inductive Opened where
 | thenBranch
 | elseBranch
 | body (start : ℕ)

/-- What the step at `i` opens, turns or closes. -/
def openStep (i : ℕ) (s : Step) (stack : List Opened) : List Opened :=
 match s.type, stack with
 | .if_, stack => .thenBranch :: stack
 | .else_, .thenBranch :: stack => .elseBranch :: stack
 | .endIf, .thenBranch :: stack => stack
 | .endIf, .elseBranch :: stack => stack
 | .loop, stack => .body i :: stack
 | .endLoop, .body _ :: stack => stack
 | _, stack => stack

def opened : ℕ → List Opened → List Step → List Opened
 | _, stack, [] => stack
 | i, stack, s :: steps => opened (i + 1) (openStep i s stack) steps

def ifFrame : Opened → Option IfFrame
 | .thenBranch => some ⟨true, false⟩
 | .elseBranch => some ⟨false, true⟩
 | .body _ => none

def loopFrame (turns : ℕ → ℤ) : Opened → Option LoopFrame
 | .body start => some ⟨start, turns start⟩
 | _ => none

section Opened

variable {σ : Type} {env : Env σ} {script : Script}

theorem opened_append (i : ℕ) (stack : List Opened) (steps more : List Step) :
  opened i stack (steps ++ more) = opened (i + steps.length) (opened i stack steps) more := by
 induction steps generalizing i stack with
 | nil => rfl
 | cons s steps ih =>
  rw [cons_append, opened, opened, ih, length_cons, Nat.add_assoc, Nat.add_comm 1]

theorem openStep_action {s : Step} (hs : isAction s.type = true) (i : ℕ) (stack : List Opened) :
  openStep i s stack = stack := by
 unfold openStep
 split <;> first | rfl | simp_all [isAction]

theorem opened_flatten (prog : Prog) (i : ℕ) (stack : List Opened) :
  opened i stack (flatten prog) = stack := by
 induction prog generalizing i stack with
 | done => rfl
 | action s hs rest ih => rw [flatten, opened, openStep_action hs, ih]
 | ifThen head hhead body close hclose rest ihbody ihrest =>
  rw [flatten, opened, opened_append, ihbody, opened, ihrest]
  simp only [openStep, hhead, hclose]
 | ifElse head hhead body mid hmid other close hclose rest ihbody ihother ihrest =>
  rw [flatten, opened, opened_append, ihbody, opened, opened_append, ihother, opened, ihrest]
  simp only [openStep, hhead, hmid, hclose]
 | loop head hhead body close hclose rest ihbody ihrest =>
  rw [flatten, opened, opened_append, ihbody, opened, ihrest]
  simp only [openStep, hhead, hclose]

theorem active_ifFrames (stack : List Opened) : ∀ f ∈ stack.filterMap ifFrame, frameActive f = true := by
 intro f hf
 obtain ⟨o, -, ho⟩ := mem_filterMap.1 hf
 cases o with
 | thenBranch | elseBranch =>
  cases ho
  rfl
 | body start => cases ho

/-! ### The call machine with these frames -/

def callLoop (turns : ℕ → ℤ) (after : ℕ → List Placed) : Opened → Option Loop
 | .body start => some ⟨turns start, after start⟩
 | _ => none

/-- The machine with the frames of `stack`; `after` is what follows a LOOP step. -/
def reframed (turns : ℕ → ℤ) (after : ℕ → List Placed) (stack : List Opened) (c : Calls σ) : Calls σ :=
 { c with
   ifStack := stack.filterMap ifFrame
   loopStack := stack.filterMap (callLoop turns after) }

variable {id : Bytes} {turns : ℕ → ℤ} {after : ℕ → List Placed} {stack : List Opened}
 {c c₁ d : Calls σ} {result : Result σ} {rest : Prog} {tail : List Placed}

theorem Ready.reframed (hlive : d.ended = none) (hattempt : d.stepAttempt = 0) :
  Ready (reframed turns after stack d) :=
 ⟨hlive, hattempt, all_eq_true.2 (active_ifFrames stack)⟩

theorem marked_reframed (hattempt : d.stepAttempt = 0) (inner : List Opened) :
  Marked (reframed turns after stack d) (reframed turns after inner d) :=
 ⟨rfl, rfl, rfl, rfl, rfl, hattempt⟩

theorem Came.thenRest (id : Bytes) (h : Came c c₁ result (place script (flatten rest) ++ tail)) :
  ∃ c₂, Reaches env id c₁ c₂ ∧ Came c c₂ (result.andThen (meaning env c.policy rest)) tail := by
 cases hok : result.ok with
 | false => exact ⟨c₁, Reaches.refl c₁, h.broken_off hok⟩
 | true =>
  obtain ⟨hready, htodo, -, -⟩ := h.through hok
  obtain ⟨c₂, hreach, hcame⟩ : ∃ c₂, Reaches env id c₁ c₂ ∧
    Came c₁ c₂ (meaning env c₁.policy rest ⟨c₁.world, c₁.vars⟩) tail :=
   runs_meaning rest c₁ tail hready htodo
  rw [h.policy, h.store] at hcame
  exact ⟨c₂, hreach, h.andThen hok hcame⟩

theorem leaves_if {o : Opened} {close : Step} (hlive : d.ended = none) (hattempt : d.stepAttempt = 0)
  (hclose : close.type = .endIf) (ho : (ifFrame o).isSome = true)
  (h : Came (reframed turns after (o :: stack) d) c₁ result
   (place script (close :: flatten rest) ++ tail)) :
  ∃ c₂, Reaches env id c₁ c₂ ∧ Came (reframed turns after stack d) c₂
   (result.andThen (meaning env d.policy rest)) tail := by
 have hopen : Marked (reframed turns after stack d) (reframed turns after (o :: stack) d) :=
  marked_reframed hattempt _
 cases hok : result.ok with
 | false => exact ⟨c₁, Reaches.refl c₁, hopen.broken_before h hok⟩
 | true =>
  obtain ⟨hready₁, htodo₁, hifs₁, hloops₁⟩ := h.through hok
  obtain ⟨f, hf⟩ := Option.isSome_iff_exists.1 ho
  have hloop : callLoop turns after o = none := by
   cases o with
   | thenBranch | elseBranch => rfl
   | body start => cases hf
  simp only [reframed, filterMap_cons, hf, hloop] at hifs₁ hloops₁
  obtain ⟨c₂, hreach₂, hmark, htodo₂, hloops₂, hifs₂⟩ := closes_if env id hready₁.live htodo₁ hclose hifs₁
  have hfirst : Came (reframed turns after stack d) c₂ result (place script (flatten rest) ++ tail) :=
   hopen.enclose h hok hmark (Ready.reframed hlive hattempt) htodo₂ hifs₂ (hloops₂.trans hloops₁)
  obtain ⟨c₃, hreach₃, hcame⟩ := hfirst.thenRest id
  exact ⟨c₃, hreach₂.trans hreach₃, hcame⟩

theorem leaves_then {mid close : Step} {other : Prog} (hlive : d.ended = none)
  (hattempt : d.stepAttempt = 0) (hmid : mid.type = .else_) (hclose : close.type = .endIf)
  (h : Came (reframed turns after (.thenBranch :: stack) d) c₁ result
   (place script (mid :: (flatten other ++ close :: flatten rest)) ++ tail)) :
  ∃ c₂, Reaches env id c₁ c₂ ∧ Came (reframed turns after stack d) c₂
   (result.andThen (meaning env d.policy rest)) tail := by
 have hopen : Marked (reframed turns after stack d) (reframed turns after (.thenBranch :: stack) d) :=
  marked_reframed hattempt _
 cases hok : result.ok with
 | false => exact ⟨c₁, Reaches.refl c₁, hopen.broken_before h hok⟩
 | true =>
  obtain ⟨hready₁, htodo₁, hifs₁, hloops₁⟩ := h.through hok
  simp only [reframed, filterMap_cons, ifFrame, callLoop] at hifs₁ hloops₁
  rw [place_cons, place_append, place_cons, cons_append, append_assoc, cons_append]
   at htodo₁
  obtain ⟨c₂, hreach₂, hmark₂, htodo₂, hloops₂, hifs₂⟩ :=
   turns_else env id hready₁.live htodo₁ hmid hifs₁
  have hskip : shouldExecuteCurrentStep c₂.ifStack = false := by rw [hifs₂]; rfl
  obtain ⟨c₃, hreach₃, hmark₃, htodo₃, hloops₃, hifs₃⟩ :=
   skips_body env id hmark₂ hready₁.live hskip htodo₂
  obtain ⟨c₄, hreach₄, hmark₄, htodo₄, hloops₄, hifs₄⟩ :=
   closes_if env id (hmark₃.live.trans hready₁.live) htodo₃ hclose (hifs₃.trans hifs₂)
  have hfirst : Came (reframed turns after stack d) c₄ result (place script (flatten rest) ++ tail) :=
   hopen.enclose h hok (hmark₃.trans hmark₄) (Ready.reframed hlive hattempt) htodo₄ hifs₄
    (hloops₄.trans (hloops₃.trans (hloops₂.trans hloops₁)))
  obtain ⟨c₅, hreach₅, hcame⟩ := hfirst.thenRest id
  exact ⟨c₅, (hreach₂.trans hreach₃).trans (hreach₄.trans hreach₅), hcame⟩

theorem leaves_body {start : ℕ} {close : Step} {body : Prog} (hlive : d.ended = none)
  (hattempt : d.stepAttempt = 0) (hclose : close.type = .endLoop) (hturns : 1 ≤ turns start)
  (hafter : after start = place script (flatten body ++ close :: flatten rest) ++ tail)
  (h : Came (reframed turns after (.body start :: stack) d) c₁ result
   (place script (close :: flatten rest) ++ tail)) :
  ∃ c₂, Reaches env id c₁ c₂ ∧ Came (reframed turns after stack d) c₂
   ((result.andThen (repeatTimes (meaning env d.policy body) (turns start - 1).toNat)).andThen
    (meaning env d.policy rest)) tail := by
 have hopen : Marked (reframed turns after stack d) (reframed turns after (.body start :: stack) d) :=
  marked_reframed hattempt _
 have hready : Ready (reframed turns after stack d) := Ready.reframed hlive hattempt
 suffices hloop : ∃ c₂, Reaches env id c₁ c₂ ∧ Came (reframed turns after stack d) c₂
   (result.andThen (repeatTimes (meaning env d.policy body) (turns start - 1).toNat))
   (place script (flatten rest) ++ tail) by
  obtain ⟨c₂, hreach₂, hcame₂⟩ := hloop
  obtain ⟨c₃, hreach₃, hcame₃⟩ := hcame₂.thenRest id
  exact ⟨c₃, hreach₂.trans hreach₃, hcame₃⟩
 cases hok : result.ok with
 | false => exact ⟨c₁, Reaches.refl c₁, hopen.broken_before h hok⟩
 | true =>
  obtain ⟨hready₁, htodo₁, hifs₁, hloops₁⟩ := h.through hok
  simp only [reframed, filterMap_cons, ifFrame, callLoop] at hifs₁ hloops₁
  cases hleft : (turns start - 1).toNat with
  | zero =>
   obtain ⟨c₂, hreach₂, hmark, htodo₂, hifs₂, hloops₂⟩ :=
    closes_loop env id hready₁ htodo₁ hclose hloops₁ (by dsimp only; omega)
   have hfirst := hopen.enclose h hok hmark hready htodo₂ (hifs₂.trans hifs₁) hloops₂
   refine ⟨c₂, hreach₂, hfirst.andThen hok ?_⟩
   rw [← hfirst.store]
   exact ⟨(append_nil _).symm, rfl, rfl,
    fun _ => ⟨(hfirst.through hok).1, htodo₂, rfl, rfl⟩, fun h => by cases h⟩
  | succ n =>
   obtain ⟨c₂, hreach₂, hmark, htodo₂, hifs₂, hloops₂⟩ :=
    closes_loop_again env id hready₁ htodo₁ hclose hloops₁ (by dsimp only; omega)
   have hready₂ : Ready c₂ := hmark.ready hready₁.live (by rw [hifs₂]; exact hready₁.executes)
   have hmark' : Marked c₁ { c₂ with loopStack := stack.filterMap (callLoop turns after) } :=
    ⟨hmark.actions, hmark.world, hmark.vars, hmark.policy, hmark.live, hmark.attempt⟩
   have hfirst := hopen.enclose h hok hmark' hready htodo₂ (hifs₂.trans hifs₁) rfl
   have hcount : turns start - 1 = (n : ℤ) + 1 := by omega
   rw [place_append, place_cons, append_assoc, cons_append] at hafter
   have hruns : Runs env id (place script (flatten body)) fun policy => meaning env policy body :=
    runs_meaning body
   obtain ⟨c₃, hreach₃, hlater⟩ := AutomationStructured.turns (q := ⟨close, script, 0⟩) hclose hruns n
    hready₂ (htodo₂.trans hafter) (by rw [hloops₂, htodo₂, ← hcount])
   have hpolicy : c₂.policy = d.policy := hfirst.policy
   have hstore : (⟨c₂.world, c₂.vars⟩ : Store σ) = result.store := hfirst.store
   have hresult : repeatTimes (meaning env c₂.policy body) (n + 1) ⟨c₂.world, c₂.vars⟩ =
     repeatTimes (meaning env d.policy body) (n + 1) result.store := by
    rw [hpolicy, hstore]
   rw [hresult] at hlater
   exact ⟨c₃, hreach₂.trans hreach₃, hfirst.andThen hok hlater⟩

/-- The machine has the steps of `flat` from `k` on before `tail`, and `flat` begins at `i`. -/
structure Located (script : Script) (turns : ℕ → ℤ) (after : ℕ → List Placed) (flat : List Step)
  (i k : ℕ) (tail : List Placed) (d : Calls σ) : Prop where
 le : k ≤ flat.length
 turns : ∀ j s, flat[j]? = some s → s.type = .loop → 1 ≤ turns (i + j) ∧ turns (i + j) ≤ iterations s
 after : ∀ j < flat.length, after (i + j) = place script (flat.drop (j + 1)) ++ tail
 todo : d.todo = place script (flat.drop k) ++ tail

theorem Located.inside {flat : List Step} {i k k' : ℕ} (h : Located script turns after flat i k tail d)
  (inner : List Opened) (before sub behind : List Step) (hflat : flat = before ++ (sub ++ behind))
  (hindex : k = before.length + k') (hk : k' ≤ sub.length) (hinner : opened i stack before = inner) :
  Located script turns after sub (i + before.length) k' (place script behind ++ tail) d ∧
   opened i stack (flat.take k) = opened (i + before.length) inner (sub.take k') := by
 subst hflat hindex hinner
 have hdrop : ∀ j ≤ sub.length,
   (before ++ (sub ++ behind)).drop (before.length + j) = sub.drop j ++ behind := fun j hj => by
  rw [drop_length_add_append, drop_append_of_le_length hj]
 refine ⟨⟨hk, fun j s hs htype => ?_, fun j hj => ?_, ?_⟩, ?_⟩
 · rw [Nat.add_assoc]
   refine h.turns (before.length + j) s ?_ htype
   have hlt := (List.getElem?_eq_some_iff.1 hs).1
   rw [getElem?_append_right (Nat.le_add_right _ _), Nat.add_sub_cancel_left,
    getElem?_append_left hlt, hs]
 · rw [Nat.add_assoc, h.after (before.length + j) (by simp only [length_append]; omega),
    Nat.add_assoc, hdrop (j + 1) hj, place_append, append_assoc]
 · rw [h.todo, hdrop k' hk, place_append, append_assoc]
 · rw [take_length_add_append, take_append_of_le_length hk, opened_append]

theorem Located.behind {flat : List Step} {i k k' : ℕ} (h : Located script turns after flat i k tail d)
  (before sub : List Step) (hflat : flat = before ++ sub) (hindex : k = before.length + k')
  (hclosed : opened i stack before = stack) :
  Located script turns after sub (i + before.length) k' tail d ∧
   opened i stack (flat.take k) = opened (i + before.length) stack (sub.take k') := by
 have hk : k' ≤ sub.length := by
  have := h.le
  rw [hflat, length_append] at this
  omega
 exact h.inside stack before sub [] (by rw [hflat, append_nil]) hindex hk hclosed

theorem split_index (n k : ℕ) : k = 0 ∨ (∃ k' ≤ n, k = k' + 1) ∨ ∃ k', k = n + 2 + k' := by
 rcases Nat.lt_or_ge (n + 1) k with h | h
 · exact .inr (.inr ⟨k - (n + 2), by omega⟩)
 · cases k with
   | zero => exact .inl rfl
   | succ k => exact .inr (.inl ⟨k, by omega, rfl⟩)

/-- A structured program from any of its steps on, with the frames of the constructs open there. -/
theorem runs_onward (env : Env σ) (id : Bytes) (stack : List Opened) (prog : Prog) {k i : ℕ} (hlive : d.ended = none) (hattempt : d.stepAttempt = 0)
  (h : Located script turns after (flatten prog) i k tail d) :
  ∃ f, Onward env d.policy prog k f ∧ ∃ c₁,
   Reaches env id (reframed turns after (opened i stack ((flatten prog).take k)) d) c₁ ∧
    Came (reframed turns after stack d) c₁ (f ⟨d.world, d.vars⟩) tail := by
 induction prog generalizing k i stack tail with
 | done =>
  obtain rfl : k = 0 := Nat.le_zero.1 h.le
  exact ⟨_, .here _, runs_meaning .done _ tail (Ready.reframed hlive hattempt) h.todo⟩
 | action s hs rest ih =>
  cases k with
  | zero =>
   exact ⟨_, .here _, runs_meaning (.action s hs rest) _ tail (Ready.reframed hlive hattempt) h.todo⟩
  | succ k =>
   obtain ⟨hin, hopen⟩ := h.behind [s] (flatten rest) rfl (Nat.add_comm k 1)
    (openStep_action hs i stack)
   obtain ⟨f, hf, c₁, hreach, hcame⟩ := ih stack hin
   refine ⟨f, .action hf, c₁, ?_, hcame⟩
   rwa [hopen]
 | ifThen head hhead body close hclose rest ihbody ihrest =>
  obtain rfl | ⟨k, hk, rfl⟩ | ⟨k, rfl⟩ := split_index (flatten body).length k
  · exact ⟨_, .here _, runs_meaning (.ifThen head hhead body close hclose rest) _ tail
     (Ready.reframed hlive hattempt) h.todo⟩
  · have hinner : opened i stack [head] = .thenBranch :: stack := by
     simp only [opened, openStep, hhead]
    obtain ⟨hin, hopen⟩ := h.inside _ [head] (flatten body) (close :: flatten rest) rfl
     (Nat.add_comm k 1) hk hinner
    obtain ⟨f, hf, c₁, hreach, hcame⟩ := ihbody _ hin
    obtain ⟨c₂, hreach₂, hcame₂⟩ := leaves_if (o := .thenBranch) hlive hattempt hclose rfl hcame
    refine ⟨_, .thenOnly hk hf, c₂, ?_, hcame₂⟩
    rw [hopen]
    exact hreach.trans hreach₂
  · have hclosed : opened i stack (head :: (flatten body ++ [close])) = stack := by
     rw [opened, opened_append, opened_flatten]
     simp only [opened, openStep, hhead, hclose]
    obtain ⟨hin, hopen⟩ := h.behind (head :: (flatten body ++ [close])) (flatten rest)
     (by simp [flatten]) (by rw [length_cons, length_append]; rfl) hclosed
    obtain ⟨f, hf, c₁, hreach, hcame⟩ := ihrest stack hin
    refine ⟨f, .afterIf hf, c₁, ?_, hcame⟩
    rwa [hopen]
 | ifElse head hhead body mid hmid other close hclose rest ihbody ihother ihrest =>
  obtain rfl | ⟨k, hk, rfl⟩ | ⟨k, rfl⟩ := split_index (flatten body).length k
  · exact ⟨_, .here _, runs_meaning (.ifElse head hhead body mid hmid other close hclose rest) _ tail
     (Ready.reframed hlive hattempt) h.todo⟩
  · have hinner : opened i stack [head] = .thenBranch :: stack := by
     simp only [opened, openStep, hhead]
    obtain ⟨hin, hopen⟩ := h.inside _ [head] (flatten body)
     (mid :: (flatten other ++ close :: flatten rest)) rfl (Nat.add_comm k 1) hk hinner
    obtain ⟨f, hf, c₁, hreach, hcame⟩ := ihbody _ hin
    obtain ⟨c₂, hreach₂, hcame₂⟩ := leaves_then hlive hattempt hmid hclose hcame
    refine ⟨_, .thenBranch hk hf, c₂, ?_, hcame₂⟩
    rw [hopen]
    exact hreach.trans hreach₂
  · have hturned : opened i stack (head :: (flatten body ++ [mid])) = .elseBranch :: stack := by
     rw [opened, opened_append, opened_flatten]
     simp only [opened, openStep, hhead, hmid]
    by_cases hk : k ≤ (flatten other).length
    · obtain ⟨hin, hopen⟩ := h.inside _ (head :: (flatten body ++ [mid])) (flatten other)
       (close :: flatten rest) (by simp [flatten])
       (by rw [length_cons, length_append]; rfl) hk hturned
      obtain ⟨f, hf, c₁, hreach, hcame⟩ := ihother _ hin
      obtain ⟨c₂, hreach₂, hcame₂⟩ := leaves_if (o := .elseBranch) hlive hattempt hclose rfl hcame
      refine ⟨_, .elseBranch hk hf, c₂, ?_, hcame₂⟩
      rw [hopen]
      exact hreach.trans hreach₂
    · obtain ⟨k, rfl⟩ : ∃ k', k = (flatten other).length + 1 + k' :=
       ⟨k - ((flatten other).length + 1), by omega⟩
      have hclosed :
        opened i stack (head :: (flatten body ++ [mid]) ++ (flatten other ++ [close])) = stack := by
       rw [opened_append, hturned, opened_append, opened_flatten]
       simp only [opened, openStep, hclose]
      have hskipped : (flatten body).length + 2 + ((flatten other).length + 1 + k) =
        (head :: (flatten body ++ [mid]) ++ (flatten other ++ [close])).length + k := by
       simp only [length_cons, length_append, length_nil]
       omega
      obtain ⟨hin, hopen⟩ := h.behind (head :: (flatten body ++ [mid]) ++ (flatten other ++ [close]))
       (flatten rest) (by simp [flatten]) hskipped hclosed
      obtain ⟨f, hf, c₁, hreach, hcame⟩ := ihrest stack hin
      have hindex : (flatten body).length + 2 + ((flatten other).length + 1 + k) =
        (flatten body).length + (flatten other).length + 3 + k := by omega
      refine ⟨f, hindex ▸ .afterElse hf, c₁, ?_, hcame⟩
      rwa [hopen]
 | loop head hhead body close hclose rest ihbody ihrest =>
  obtain rfl | ⟨k, hk, rfl⟩ | ⟨k, rfl⟩ := split_index (flatten body).length k
  · exact ⟨_, .here _, runs_meaning (.loop head hhead body close hclose rest) _ tail
     (Ready.reframed hlive hattempt) h.todo⟩
  · have hinner : opened i stack [head] = .body i :: stack := by
     simp only [opened, openStep, hhead]
    obtain ⟨hin, hopen⟩ := h.inside _ [head] (flatten body) (close :: flatten rest) rfl
     (Nat.add_comm k 1) hk hinner
    obtain ⟨f, hf, c₁, hreach, hcame⟩ := ihbody _ hin
    obtain ⟨hone, hmost⟩ : 1 ≤ turns (i + 0) ∧ turns (i + 0) ≤ iterations head :=
     h.turns 0 head rfl hhead
    have hbody : after (i + 0) = place script (flatten body ++ close :: flatten rest) ++ tail :=
     h.after 0 (Nat.succ_pos _)
    rw [Nat.add_zero] at hone hmost hbody
    obtain ⟨c₂, hreach₂, hcame₂⟩ := leaves_body hlive hattempt hclose hone hbody hcame
    refine ⟨_, .body (by omega) hk hf, c₂, ?_, hcame₂⟩
    rw [hopen]
    exact hreach.trans hreach₂
  · have hclosed : opened i stack (head :: (flatten body ++ [close])) = stack := by
     rw [opened, opened_append, opened_flatten]
     simp only [opened, openStep, hhead, hclose]
    obtain ⟨hin, hopen⟩ := h.behind (head :: (flatten body ++ [close])) (flatten rest)
     (by simp [flatten]) (by rw [length_cons, length_append]; rfl) hclosed
    obtain ⟨f, hf, c₁, hreach, hcame⟩ := ihrest stack hin
    refine ⟨f, .afterLoop hf, c₁, ?_, hcame⟩
    rwa [hopen]

/-! ### Open loops lie behind each other -/

def loopStart : Opened → Option ℕ
 | .body start => some start
 | _ => none

/-- The loops of `stack` began before `i`, the inner ones later. -/
structure Behind (i : ℕ) (stack : List Opened) : Prop where
 before : ∀ start ∈ stack.filterMap loopStart, start < i
 ordered : (stack.filterMap loopStart).Pairwise fun inner outer => outer < inner

theorem Behind.openStep {i : ℕ} (h : Behind i stack) (s : Step) : Behind (i + 1) (openStep i s stack) := by
 have hlater : ∀ start ∈ stack.filterMap loopStart, start < i + 1 :=
  fun start hstart => (h.before start hstart).trans (Nat.lt_succ_self i)
 unfold AutomationStructured.openStep
 split
 · exact ⟨hlater, h.ordered⟩
 · exact ⟨hlater, h.ordered⟩
 · exact ⟨hlater, h.ordered⟩
 · exact ⟨hlater, h.ordered⟩
 · refine ⟨fun start hstart => ?_, pairwise_cons.2 ⟨h.before, h.ordered⟩⟩
   rcases mem_cons.1 hstart with rfl | hstart
   · exact Nat.lt_succ_self _
   · exact hlater start hstart
 · exact ⟨fun start hstart => hlater start (mem_cons_of_mem _ hstart),
    (pairwise_cons.1 h.ordered).2⟩
 · exact ⟨hlater, h.ordered⟩

theorem Behind.opened {i : ℕ} (h : Behind i stack) (steps : List Step) :
  Behind (i + steps.length) (opened i stack steps) := by
 induction steps generalizing i stack with
 | nil => exact h
 | cons s steps ih =>
  rw [AutomationStructured.opened, length_cons, Nat.add_comm steps.length, ← Nat.add_assoc]
  exact ih (h.openStep s)

theorem loops_forall₂ {steps : List Placed} (stack : List Opened) :
  List.Forall₂ (fun f l => f.remaining = l.remaining ∧
   Inflated (steps.drop (f.startIndex + 1)) l.body) (stack.filterMap (loopFrame turns))
   (stack.filterMap (callLoop turns fun j => steps.drop (j + 1))) := by
 induction stack with
 | nil => exact .nil
 | cons o stack ih =>
  cases o with
  | thenBranch | elseBranch => exact ih
  | body start => exact .cons ⟨rfl, Inflated.refl _⟩ ih

theorem map_startIndex (turns : ℕ → ℤ) (stack : List Opened) :
  (stack.filterMap (loopFrame turns)).map LoopFrame.startIndex = stack.filterMap loopStart := by
 induction stack with
 | nil => rfl
 | cons o stack ih =>
  cases o with
  | thenBranch | elseBranch => exact ih
  | body start => exact congrArg (start :: ·) ih

end Opened

/-! ## Runs from the middle -/

section Resumed

variable {σ : Type} (env : Env σ) (script : Script) (t : Tick) (k : ℕ) (world : σ)

def firstIndex : ℕ := if k < script.steps.length then k else 0

theorem firstIndex_le : firstIndex script k ≤ script.steps.length := by
 unfold firstIndex
 split <;> omega

def openAt : List Opened := opened 0 [] (script.steps.take (firstIndex script k))

/-- The run from step `k`, in which the turns that the open loops have left are `turns`. -/
def framedRun (turns : ℕ → ℤ) : Runner σ :=
 underneath ((openAt script k).filterMap ifFrame) ((openAt script k).filterMap (loopFrame turns))
  (run env t script k { world := world })

def TurnsLeft (turns : ℕ → ℤ) : Prop :=
 ∀ j s, script.steps[j]? = some s → s.type = .loop → 1 ≤ turns j ∧ turns j ≤ iterations s

def firstStore : Store σ := ⟨world, script.defaultVariables.entries.foldl
 (fun vars kv => vars.insert kv.1 (.string kv.2)) .empty⟩

variable {env script t k world} {turns : ℕ → ℤ}

theorem framed_related (hdraft : script.security.sitesUnconfirmed = false)
  (hvoice : hasVoiceSteps script = false) :
  Related script (framedRun env script t k world turns)
   (reframed turns (fun j => (place script script.steps).drop (j + 1)) (openAt script k)
    (start env script k { world := world })) := by
 have hbehind : Behind (firstIndex script k) (openAt script k) := by
  have hstart : Behind 0 [] := ⟨fun _ h => (not_mem_nil h).elim, .nil⟩
  have h := hstart.opened (script.steps.take (firstIndex script k))
  rwa [length_take_of_le (firstIndex_le script k), Nat.zero_add] at h
 unfold framedRun
 simp only [run, hdraft, hvoice, Bool.false_eq_true, ↓reduceIte]
 refine ⟨(place script script.steps).drop (firstIndex script k), _, ?_, ⟨rfl, rfl, rfl⟩,
  ⟨Inflated.refl _, loops_forall₂ (openAt script k), ?_, fun f hf => ?_⟩⟩
 · rfl
 · have hordered := hbehind.ordered
   rw [← map_startIndex turns, pairwise_map] at hordered
   exact hordered
 · refine hbehind.before f.startIndex ?_
   rw [← map_startIndex turns]
   exact mem_map_of_mem hf

theorem framed_meaning (env : Env σ) (t : Tick) (k : ℕ) (world : σ) {prog : Prog}
  (hsteps : script.steps = flatten prog)
  (hdraft : script.security.sitesUnconfirmed = false) (hvoice : hasVoiceSteps script = false)
  (hturns : TurnsLeft script turns) :
  ∃ f, Onward env (effectivePolicy env.navigationHost script) prog (firstIndex script k) f ∧
   (∀ ticks, actionsOf (dispatches env (framedRun env script t k world turns) ticks).trace <+:
    (f (firstStore script world)).actions) ∧
   ∃ n, ∀ ticks : List Tick, n ≤ ticks.length → (∀ tick ∈ ticks, Quiet script tick) →
    let r := dispatches env (framedRun env script t k world turns) ticks
    actionsOf r.trace = (f (firstStore script world)).actions ∧
    r.result.map RunResult.success = some (f (firstStore script world)).ok := by
 have hlocated : Located script turns (fun j => (place script script.steps).drop (j + 1))
   (flatten prog) 0 (firstIndex script k) [] (start env script k { world := world }) := by
  refine ⟨hsteps ▸ firstIndex_le script k, fun j s hs htype => ?_, fun j _ => ?_, ?_⟩
  · rw [Nat.zero_add]
    exact hturns j s (hsteps ▸ hs) htype
  · rw [Nat.zero_add, append_nil, hsteps, place, place, List.map_drop]
  · rw [append_nil, ← hsteps, place, List.map_drop]
    rfl
 obtain ⟨f, hf, c₁, hreach, hcame⟩ := runs_onward env script.id [] prog rfl rfl hlocated
 rw [← hsteps] at hreach
 obtain ⟨n, hended, hactions, -⟩ := ends_of_came hreach hcame
 have hno : ∀ p ∈ (framedRun env script t k world turns).steps, p.step.type ≠ .runScript :=
  run_plain env t k world hsteps hdraft hvoice
 obtain ⟨hbounded, hall⟩ := runner_comes_to env hno (framed_related hdraft hvoice) hended hactions
 refine ⟨f, hf, hbounded, n, fun ticks hlong hquiet => ?_⟩
 obtain ⟨hactions', hresult, -⟩ := hall ticks hlong hquiet
 exact ⟨hactions', hresult⟩

end Resumed

/-- A run from step `k` whose dispatches find the frames of their constructs is the run with the frames
open at that step. Of a structured script it executes what an execution through that step means from
there on, and left alone it ends as that does. -/
theorem resumed_run_follows {σ : Type} (env : Env σ) (script : Script) (t : Tick) (k : ℕ) (world : σ)
  (turns : ℕ → ℤ) :
  (∀ ticks, TransitionRuns.Along (fun r t => executeNextStep env t r) FramePushed
    (run env t script k { world := world }) ticks →
   ∃ ifs, dispatches env (framedRun env script t k world turns) ticks =
    underneath ifs ((openAt script k).filterMap (loopFrame turns))
     (dispatches env (run env t script k { world := world }) ticks)) ∧
  ∀ prog, script.steps = flatten prog → script.security.sitesUnconfirmed = false →
   hasVoiceSteps script = false → TurnsLeft script turns →
   ∃ f, Onward env (effectivePolicy env.navigationHost script) prog (firstIndex script k) f ∧
    (∀ ticks, TransitionRuns.Along (fun r t => executeNextStep env t r) FramePushed
      (run env t script k { world := world }) ticks →
     actionsOf (dispatches env (run env t script k { world := world }) ticks).trace <+:
      (f (firstStore script world)).actions) ∧
    ∃ n, ∀ ticks : List Tick, n ≤ ticks.length → (∀ tick ∈ ticks, Quiet script tick) →
     TransitionRuns.Along (fun r t => executeNextStep env t r) FramePushed
      (run env t script k { world := world }) ticks →
     let r := dispatches env (run env t script k { world := world }) ticks
     actionsOf r.trace = (f (firstStore script world)).actions ∧
     r.result.map RunResult.success = some (f (firstStore script world)).ok := by
 have hframed : ∀ ticks, TransitionRuns.Along (fun r t => executeNextStep env t r) FramePushed
   (run env t script k { world := world }) ticks →
   ∃ ifs, dispatches env (framedRun env script t k world turns) ticks =
    underneath ifs ((openAt script k).filterMap (loopFrame turns))
     (dispatches env (run env t script k { world := world }) ticks) := by
  intro ticks hpushed
  obtain ⟨ifs, -, heq⟩ := dispatches_underneath ((openAt script k).filterMap (loopFrame turns))
   (active_ifFrames (openAt script k)) hpushed
  exact ⟨ifs, heq⟩
 refine ⟨hframed, fun prog hsteps hdraft hvoice hturns => ?_⟩
 obtain ⟨f, hf, hbounded, n, hall⟩ := framed_meaning env t k world hsteps hdraft hvoice hturns
 refine ⟨f, hf, fun ticks hpushed => ?_, n, fun ticks hlong hquiet hpushed => ?_⟩
 · obtain ⟨ifs, heq⟩ := hframed ticks hpushed
   have hticks := hbounded ticks
   rwa [heq] at hticks
 · obtain ⟨ifs, heq⟩ := hframed ticks hpushed
   have hticks := hall ticks hlong hquiet
   rwa [heq] at hticks

section Samples

def blank (kind : StepType) : Step := { type := kind }

def branchProg : Prog :=
 .ifElse { blank .if_ with value := "yes" } rfl (.action (blank .click) rfl .done)
  (blank .else_) rfl (.action (blank .notify) rfl .done) (blank .endIf) rfl .done

def branchScript : Script := { id := "branch", steps := flatten branchProg }

def bodyProg : Prog :=
 .loop { blank .loop with maxIterations := 2 } rfl (.action (blank .click) rfl .done)
  (blank .endLoop) rfl .done

def bodyScript : Script := { id := "body", steps := flatten bodyProg }

/-- From the step in the ELSE branch on. -/
theorem resumed_run_follows_sample :
  ∃ f, Onward quietEnv (effectivePolicy quietEnv.navigationHost branchScript) branchProg 3 f ∧
   actionsOf (dispatches quietEnv (run quietEnv {} branchScript 3 { world := () })
    (List.replicate 5 {})).trace <+: (f (firstStore branchScript ())).actions := by
 have hturns : TurnsLeft branchScript fun _ => 1 := by
  intro j s hs htype
  have hs := List.mem_of_getElem? hs
  simp only [branchScript, branchProg, flatten, List.mem_cons, List.nil_append, List.cons_append,
   List.not_mem_nil, or_false] at hs
  rcases hs with rfl | rfl | rfl | rfl | rfl <;> cases htype
 obtain ⟨f, hf, hbounded, -⟩ := (resumed_run_follows quietEnv branchScript {} 3 () fun _ => 1).2
  branchProg rfl rfl (by decide) hturns
 exact ⟨f, hf, hbounded (List.replicate 5 {}) (by decide)⟩

theorem onward_branch {policy : SecurityPolicy} {k : ℕ} (hk : k = 1) {f : Store Unit → Result Unit}
  (h : Onward quietEnv policy branchProg k f) (st : Store Unit) : (f st).actions.length = 1 := by
 unfold branchProg at h
 cases h with
 | here => cases hk
 | thenBranch _ hbody =>
  obtain rfl := Nat.succ.inj hk
  cases hbody with
  | here => rfl
 | elseStep => simp [flatten] at hk
 | elseBranch | afterElse => simp [flatten] at hk; omega

/-- From the middle of the THEN branch the run goes on with the ELSE branch; from the middle of a body
it fails at the END_LOOP. -/
theorem resumed_run_strays :
  (¬ ∃ f, Onward quietEnv (effectivePolicy quietEnv.navigationHost branchScript) branchProg 1 f ∧
   actionsOf (dispatches quietEnv (run quietEnv {} branchScript 1 { world := () })
    (List.replicate 5 {})).trace <+: (f (firstStore branchScript ())).actions) ∧
  (dispatches quietEnv (run quietEnv {} bodyScript 1 { world := () }) (List.replicate 5 {})).result.map
   (fun result => (result.success, result.message)) = some (false, utf8 "END_LOOP without LOOP") := by
 refine ⟨?_, by decide⟩
 rintro ⟨f, hf, hbounded⟩
 have hle := hbounded.length_le
 rw [onward_branch rfl hf] at hle
 revert hle
 decide

end Samples

end MoltBrowser.AutomationStructured
