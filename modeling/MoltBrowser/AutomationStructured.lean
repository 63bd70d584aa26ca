import MoltBrowser.AutomationRunnerCalls

set_option autoImplicit false

/-!
# Structured workflows

Well-nested lists of IF/ELSE/END_IF, LOOP/END_LOOP and action steps as a
structured program with its own meaning: which actions are attempted, in which
order, and whether the program gets through. The runner executes exactly that.
-/
namespace MoltBrowser.AutomationStructured
open List
open AutomationScript AutomationSecurity AutomationRunner AutomationCalls AutomationRunnerCalls

/-! ## Structured programs -/

def isAction (t : StepType) : Bool :=
 t ∉ [.if_, .else_, .endIf, .loop, .endLoop, .runScript]

inductive Prog where
 | done
 | action (s : Step) (hs : isAction s.type = true) (rest : Prog)
 | ifThen (head : Step) (hhead : head.type = .if_) (body : Prog)
   (close : Step) (hclose : close.type = .endIf) (rest : Prog)
 | ifElse (head : Step) (hhead : head.type = .if_) (body : Prog)
   (mid : Step) (hmid : mid.type = .else_) (other : Prog)
   (close : Step) (hclose : close.type = .endIf) (rest : Prog)
 | loop (head : Step) (hhead : head.type = .loop) (body : Prog)
   (close : Step) (hclose : close.type = .endLoop) (rest : Prog)

def flatten : Prog → List Step
 | .done => []
 | .action s _ rest => s :: flatten rest
 | .ifThen head _ body close _ rest => head :: (flatten body ++ close :: flatten rest)
 | .ifElse head _ body mid _ other close _ rest =>
  head :: (flatten body ++ mid :: (flatten other ++ close :: flatten rest))
 | .loop head _ body close _ rest => head :: (flatten body ++ close :: flatten rest)

/-! ## Their meaning -/

structure Store (σ : Type) where
 world : σ
 vars : Variables

/-- The attempts made, in order, and whether the program got through. -/
structure Result (σ : Type) where
 actions : List Step
 store : Store σ
 ok : Bool

section Meaning

variable {σ : Type} (env : Env σ) (policy : SecurityPolicy)

def Result.andThen (first : Result σ) (next : Store σ → Result σ) : Result σ :=
 if first.ok then
  ⟨first.actions ++ (next first.store).actions, (next first.store).store, (next first.store).ok⟩
 else first

def repeatTimes (body : Store σ → Result σ) : ℕ → Store σ → Result σ
 | 0, st => ⟨[], st, true⟩
 | n + 1, st => (body st).andThen (repeatTimes body n)

def attemptOnce (s : Step) (st : Store σ) : Ending × Store σ :=
 if s.type = .unknown then (.failed, st)
 else
  let a := env.attempt st.world policy st.vars s
  (a.ending, ⟨a.world, a.vars⟩)

def tryAction (s : Step) : ℕ → Store σ → Result σ
 | 0, st => ⟨[s], (attemptOnce env policy s st).2, (attemptOnce env policy s st).1 = .succeeded⟩
 | n + 1, st =>
  match attemptOnce env policy s st with
  | (.failed, st) =>
   let again := tryAction s n st
   { again with actions := s :: again.actions }
  | (ending, st) => ⟨[s], st, ending = .succeeded⟩

/-- Exactly one branch of a reached IF, a LOOP's body `max 1 maxIterations` times. -/
def meaning : Prog → Store σ → Result σ
 | .done, st => ⟨[], st, true⟩
 | .action s _ rest, st => (tryAction env policy s (effectiveRetries s).toNat st).andThen (meaning rest)
 | .ifThen head _ body _ _ rest, st =>
  if evaluateIfCondition env.render st.vars head then (meaning body st).andThen (meaning rest)
  else meaning rest st
 | .ifElse head _ body _ _ other _ _ rest, st =>
  (if evaluateIfCondition env.render st.vars head then meaning body st
   else meaning other st).andThen (meaning rest)
 | .loop head _ body _ _ rest, st =>
  (repeatTimes (meaning body) (max 1 head.maxIterations.toInt).toNat st).andThen (meaning rest)

end Meaning

/-! ## The call machine on structured code -/

section Machine

variable {σ : Type} {env : Env σ} {id : Bytes} {c : Calls σ} {p : Placed} {rest : List Placed}

def actionsOf (trace : List Placed) : List Step :=
 (trace.map Placed.step).filter fun s => isAction s.type

theorem actionsOf_append (trace more : List Placed) :
  actionsOf (trace ++ more) = actionsOf trace ++ actionsOf more := by
 simp only [actionsOf, map_append, filter_append]

variable (env id) in
def Reaches (c c' : Calls σ) : Prop := ∃ n, (Calls.step env id)^[n] c = c'

theorem Reaches.refl (c : Calls σ) : Reaches env id c c := ⟨0, rfl⟩

theorem Reaches.step (c : Calls σ) : Reaches env id c (c.step env id) := ⟨1, rfl⟩

theorem Reaches.trans {a b c : Calls σ} (h₁ : Reaches env id a b) (h₂ : Reaches env id b c) :
  Reaches env id a c := by
 obtain ⟨n, rfl⟩ := h₁
 obtain ⟨m, rfl⟩ := h₂
 exact ⟨m + n, Function.iterate_add_apply _ _ _ _⟩

def logged (c : Calls σ) (p : Placed) : Calls σ :=
 { c with trace := if shouldExecuteCurrentStep c.ifStack then c.trace ++ [p] else c.trace }

theorem step_eq (hlive : c.ended = none) (htodo : c.todo = p :: rest) : c.step env id =
  (logged c p).perform env id p (shouldExecuteCurrentStep c.ifStack) rest := by
 simp only [Calls.step, hlive, htodo, Option.isSome_none, Bool.false_eq_true, ↓reduceIte, logged]

theorem step_action_skipped (hlive : c.ended = none) (htodo : c.todo = p :: rest)
  (hp : isAction p.step.type = true) (hskip : shouldExecuteCurrentStep c.ifStack = false) :
  c.step env id = { c with todo := rest } := by
 rw [step_eq hlive htodo, hskip]
 simp only [Calls.perform, logged, hskip, Bool.false_eq_true, ↓reduceIte]
 cases htype : p.step.type with
 | if_ | else_ | endIf | loop | endLoop | runScript => simp [htype, isAction] at hp
 | navigate | click | type | scroll | keypress | wait | waitFor | extract | aiExtract | aiDecide
 | assert | notify | screenshot | runJs | callTool | unknown => rfl

theorem step_action_tried (hlive : c.ended = none) (htodo : c.todo = p :: rest)
  (hp : isAction p.step.type = true) (hexec : shouldExecuteCurrentStep c.ifStack = true) :
  c.step env id =
   let out := attemptOnce env c.policy p.step ⟨c.world, c.vars⟩
   let after : Calls σ := { c with
    trace := c.trace ++ [p]
    world := out.2.world
    vars := out.2.vars }
   match out.1 with
   | .succeeded => after.goOn rest
   | .failed => after.failed p.step
   | .blocked _ => { after with stepAttempt := 0, ended := some false } := by
 rw [step_eq hlive htodo, hexec]
 simp only [Calls.perform, logged, hexec, ↓reduceIte]
 cases htype : p.step.type with
 | if_ | else_ | endIf | loop | endLoop | runScript => simp [htype, isAction] at hp
 | navigate | click | type | scroll | keypress | wait | waitFor | extract | aiExtract | aiDecide
 | assert | notify | screenshot | runJs | callTool =>
  cases hending : (env.attempt c.world c.policy c.vars p.step).ending <;>
   simp only [attemptOnce, htype, reduceCtorEq, ↓reduceIte, Calls.act, hending]
 | unknown => simp only [attemptOnce, htype, ↓reduceIte]

/-! ### Control-flow steps -/

theorem step_if (hlive : c.ended = none) (htodo : c.todo = p :: rest) (hp : p.step.type = .if_) :
  c.step env id = Calls.goOn { logged c p with
   ifStack := ⟨shouldExecuteCurrentStep c.ifStack &&
    evaluateIfCondition env.render c.vars p.step, false⟩ :: c.ifStack } rest := by
 rw [step_eq hlive htodo]
 simp only [Calls.perform, hp]
 rfl

variable {fs : List IfFrame}

theorem step_else {f : IfFrame} (hlive : c.ended = none)
  (htodo : c.todo = p :: rest) (hp : p.step.type = .else_) (hifs : c.ifStack = f :: fs) :
  c.step env id =
   Calls.goOn { logged c p with ifStack := { f with inElse := true } :: fs } rest := by
 rw [step_eq hlive htodo]
 have hstack : (logged c p).ifStack = f :: fs := hifs
 simp only [Calls.perform, hp, hstack]

theorem step_endIf (hlive : c.ended = none) (htodo : c.todo = p :: rest)
  (hp : p.step.type = .endIf) :
  c.step env id = Calls.goOn { logged c p with ifStack := c.ifStack.tail } rest := by
 rw [step_eq hlive htodo]
 simp only [Calls.perform, hp]
 rfl

theorem step_loop (hlive : c.ended = none) (htodo : c.todo = p :: rest)
  (hp : p.step.type = .loop) :
  c.step env id = Calls.goOn { logged c p with
   loopStack := ⟨if shouldExecuteCurrentStep c.ifStack then iterations p.step else 0, rest⟩ ::
    c.loopStack } rest := by
 rw [step_eq hlive htodo]
 simp only [Calls.perform, hp]
 rfl

variable {l : Loop} {ls : List Loop}

theorem step_endLoop_again (hlive : c.ended = none)
  (htodo : c.todo = p :: rest) (hp : p.step.type = .endLoop) (hloops : c.loopStack = l :: ls)
  (hexec : shouldExecuteCurrentStep c.ifStack = true) (hagain : l.remaining - 1 > 0) :
  c.step env id = Calls.goOn { logged c p with
   loopStack := { l with remaining := l.remaining - 1 } :: ls } l.body := by
 rw [step_eq hlive htodo]
 have hstack : (logged c p).loopStack = l :: ls := hloops
 simp only [Calls.perform, hp, hstack, hexec, hagain, and_self, ↓reduceIte]

theorem step_endLoop_done (hlive : c.ended = none)
  (htodo : c.todo = p :: rest) (hp : p.step.type = .endLoop) (hloops : c.loopStack = l :: ls)
  (hdone : ¬ (l.remaining - 1 > 0 ∧ shouldExecuteCurrentStep c.ifStack = true)) :
  c.step env id = Calls.goOn { logged c p with loopStack := ls } rest := by
 rw [step_eq hlive htodo]
 have hstack : (logged c p).loopStack = l :: ls := hloops
 simp only [Calls.perform, hp, hstack, hdone, ↓reduceIte]

/-! ### A branch not taken -/

variable {script : Script}

def place (script : Script) (steps : List Step) : List Placed := steps.map fun s => ⟨s, script, 0⟩

theorem logged_skipped (hskip : shouldExecuteCurrentStep c.ifStack = false) : logged c p = c := by
 simp only [logged, hskip, Bool.false_eq_true, ↓reduceIte]

theorem place_append (first second : List Step) :
  place script (first ++ second) = place script first ++ place script second := map_append

theorem place_cons (s : Step) (steps : List Step) :
  place script (s :: steps) = ⟨s, script, 0⟩ :: place script steps := rfl

theorem skips (prog : Prog) (hlive : c.ended = none) (hattempt : c.stepAttempt = 0)
  (hskip : shouldExecuteCurrentStep c.ifStack = false)
  (htodo : c.todo = place script (flatten prog) ++ rest) :
  Reaches env id c { c with todo := rest } := by
 induction prog generalizing c rest with
 | done =>
  have hrest : c.todo = rest := htodo
  rw [← hrest]
  exact Reaches.refl c
 | action s hs prog ih =>
  refine (Reaches.step c).trans ?_
  rw [step_action_skipped hlive htodo hs hskip]
  exact ih hlive hattempt hskip rfl
 | ifThen head hhead body close hclose prog ihbody ihrest =>
  obtain ⟨world, vars, policy, todo, loops, ifs, attempt, trace, ended⟩ := c
  dsimp only at hlive hattempt hskip htodo
  subst hlive hattempt
  simp only [flatten, place_cons, place_append, cons_append, append_assoc] at htodo
  have hinner : shouldExecuteCurrentStep (⟨false, false⟩ :: ifs) = false := rfl
  refine (Reaches.step _).trans ?_
  rw [step_if rfl htodo hhead, logged_skipped hskip]
  simp only [hskip, Bool.false_and]
  refine (ihbody rfl rfl hinner rfl).trans ((Reaches.step _).trans ?_)
  rw [step_endIf rfl rfl hclose, logged_skipped hinner]
  exact ihrest rfl rfl hskip rfl
 | ifElse head hhead body mid hmid other close hclose prog ihbody ihother ihrest =>
  obtain ⟨world, vars, policy, todo, loops, ifs, attempt, trace, ended⟩ := c
  dsimp only at hlive hattempt hskip htodo
  subst hlive hattempt
  simp only [flatten, place_cons, place_append, cons_append, append_assoc] at htodo
  have hinner : shouldExecuteCurrentStep (⟨false, false⟩ :: ifs) = false := rfl
  have helse : shouldExecuteCurrentStep (⟨false, true⟩ :: ifs) = false := hskip
  refine (Reaches.step _).trans ?_
  rw [step_if rfl htodo hhead, logged_skipped hskip]
  simp only [hskip, Bool.false_and]
  refine (ihbody rfl rfl hinner rfl).trans ((Reaches.step _).trans ?_)
  rw [step_else rfl rfl hmid rfl, logged_skipped hinner]
  refine (ihother rfl rfl helse rfl).trans ((Reaches.step _).trans ?_)
  rw [step_endIf rfl rfl hclose, logged_skipped helse]
  exact ihrest rfl rfl hskip rfl
 | loop head hhead body close hclose prog ihbody ihrest =>
  obtain ⟨world, vars, policy, todo, loops, ifs, attempt, trace, ended⟩ := c
  dsimp only at hlive hattempt hskip htodo
  subst hlive hattempt
  simp only [flatten, place_cons, place_append, cons_append, append_assoc] at htodo
  refine (Reaches.step _).trans ?_
  rw [step_loop rfl htodo hhead, logged_skipped hskip]
  refine (ihbody rfl rfl hskip rfl).trans ((Reaches.step _).trans ?_)
  rw [step_endLoop_done rfl rfl hclose rfl (fun h => by simp [hskip] at h), logged_skipped hskip]
  exact ihrest rfl rfl hskip rfl

/-! ### Code that runs -/

/-- Not ended, in a branch taken, at a step's first attempt. -/
structure Ready (c : Calls σ) : Prop where
 live : c.ended = none
 attempt : c.stepAttempt = 0
 executes : shouldExecuteCurrentStep c.ifStack = true

/-- From `c` the machine came to `c'` with `result`, and `rest` is left if it got through. -/
structure Came (c c' : Calls σ) (result : Result σ) (rest : List Placed) : Prop where
 actions : actionsOf c'.trace = actionsOf c.trace ++ result.actions
 store : (⟨c'.world, c'.vars⟩ : Store σ) = result.store
 policy : c'.policy = c.policy
 through : result.ok = true → Ready c' ∧ c'.todo = rest ∧ c'.ifStack = c.ifStack ∧
  c'.loopStack = c.loopStack
 broken : result.ok = false → c'.ended = some false

variable (env id) in
/-- The code has the meaning `f` wherever it is reached in a branch taken. -/
def Runs (code : List Placed) (f : SecurityPolicy → Store σ → Result σ) : Prop :=
 ∀ (c : Calls σ) (rest : List Placed), Ready c → c.todo = code ++ rest →
  ∃ c', Reaches env id c c' ∧ Came c c' (f c.policy ⟨c.world, c.vars⟩) rest

variable {c₁ c₂ : Calls σ} {middle : List Placed}

theorem Came.andThen {c : Calls σ} {first : Result σ} {next : Store σ → Result σ}
  {rest : List Placed} (h₁ : Came c c₁ first middle) (hok : first.ok = true)
  (h₂ : Came c₁ c₂ (next first.store) rest) : Came c c₂ (first.andThen next) rest := by
 obtain ⟨-, -, hifs, hloops⟩ := h₁.through hok
 simp only [Result.andThen, hok, ↓reduceIte]
 refine ⟨?_, h₂.store, h₂.policy.trans h₁.policy, fun h => ?_, h₂.broken⟩
 · rw [h₂.actions, h₁.actions, append_assoc]
 · obtain ⟨hready, htodo, hifs', hloops'⟩ := h₂.through h
   exact ⟨hready, htodo, hifs'.trans hifs, hloops'.trans hloops⟩

theorem Came.broken_off {c : Calls σ} {first : Result σ} {next : Store σ → Result σ}
  {rest : List Placed} (h₁ : Came c c₁ first middle) (hok : first.ok = false) :
  Came c c₁ (first.andThen next) rest := by
 simp only [Result.andThen, hok, Bool.false_eq_true, ↓reduceIte]
 exact ⟨h₁.actions, h₁.store, h₁.policy, fun h => by simp [hok] at h, h₁.broken⟩

theorem Runs.nil : Runs env id [] fun _ st => ⟨[], st, true⟩ := fun c rest hready htodo =>
 ⟨c, Reaches.refl c, ⟨by simp, rfl, rfl, fun _ => ⟨hready, htodo, rfl, rfl⟩, fun h => by cases h⟩⟩

variable {f : SecurityPolicy → Store σ → Result σ}

theorem Runs.append {first second : List Placed} {g : SecurityPolicy → Store σ → Result σ}
  (hf : Runs env id first f) (hg : Runs env id second g) :
  Runs env id (first ++ second) fun policy st => (f policy st).andThen (g policy) := by
 intro c rest hready htodo
 rw [append_assoc] at htodo
 obtain ⟨c₁, hreach, hcame⟩ := hf c (second ++ rest) hready htodo
 cases hok : (f c.policy ⟨c.world, c.vars⟩).ok with
 | false => exact ⟨c₁, hreach, hcame.broken_off hok⟩
 | true =>
  obtain ⟨hready₁, htodo₁, -, -⟩ := hcame.through hok
  obtain ⟨c₂, hreach₂, hcame₂⟩ := hg c₁ rest hready₁ htodo₁
  rw [hcame.policy, hcame.store] at hcame₂
  exact ⟨c₂, hreach.trans hreach₂, hcame.andThen hok hcame₂⟩

theorem actionsOf_action (trace : List Placed) (hp : isAction p.step.type = true) :
  actionsOf (trace ++ [p]) = actionsOf trace ++ [p.step] := by
 rw [actionsOf_append]
 simp only [actionsOf, map_cons, map_nil, filter_cons, hp, ↓reduceIte,
  filter_nil]

theorem actionsOf_control (trace : List Placed) (hp : isAction p.step.type = false) :
  actionsOf (trace ++ [p]) = actionsOf trace := by
 rw [actionsOf_append]
 simp only [actionsOf, map_cons, map_nil, filter_cons, hp, Bool.false_eq_true,
  ↓reduceIte, filter_nil, append_nil]

theorem tries (hp : isAction p.step.type = true) (n : ℕ) (hlive : c.ended = none)
  (hexec : shouldExecuteCurrentStep c.ifStack = true) (htodo : c.todo = p :: rest)
  (hleft : c.stepAttempt + n = (effectiveRetries p.step).toNat) :
  ∃ c', Reaches env id c c' ∧
   Came c c' (tryAction env c.policy p.step n ⟨c.world, c.vars⟩) rest := by
 induction n generalizing c with
 | zero =>
  refine ⟨c.step env id, Reaches.step c, ?_⟩
  have hover : ¬ (c.stepAttempt : ℤ) < effectiveRetries p.step := by omega
  rw [step_action_tried hlive htodo hp hexec]
  simp only [tryAction]
  cases hend : (attemptOnce env c.policy p.step ⟨c.world, c.vars⟩).1 with
  | succeeded =>
   exact ⟨actionsOf_action c.trace hp, rfl, rfl,
    fun _ => ⟨⟨hlive, rfl, hexec⟩, rfl, rfl, rfl⟩, fun h => by simp at h⟩
  | failed =>
   simp only [Calls.failed, hover, ↓reduceIte]
   exact ⟨actionsOf_action c.trace hp, rfl, rfl, fun h => by simp at h, fun _ => rfl⟩
  | blocked needsTrust =>
   exact ⟨actionsOf_action c.trace hp, rfl, rfl, fun h => by simp at h, fun _ => rfl⟩
 | succ n ih =>
  have hunder : (c.stepAttempt : ℤ) < effectiveRetries p.step := by omega
  have hstep : c.step env id = _ := step_action_tried hlive htodo hp hexec
  simp only [tryAction]
  generalize hout : attemptOnce env c.policy p.step ⟨c.world, c.vars⟩ = out at hstep
  obtain ⟨ending, st⟩ := out
  cases ending with
  | succeeded =>
   refine ⟨c.step env id, Reaches.step c, ?_⟩
   rw [hstep]
   exact ⟨actionsOf_action c.trace hp, rfl, rfl,
    fun _ => ⟨⟨hlive, rfl, hexec⟩, rfl, rfl, rfl⟩, fun h => by simp at h⟩
  | failed =>
   simp only [Calls.failed, hunder, ↓reduceIte] at hstep
   obtain ⟨c', hreach, hcame⟩ := ih (c := c.step env id) (by rw [hstep]; exact hlive)
    (by rw [hstep]; exact hexec) (by rw [hstep]; exact htodo)
    (by rw [hstep]; dsimp only; omega)
   refine ⟨c', (Reaches.step c).trans hreach, ?_⟩
   rw [hstep] at hcame
   refine ⟨?_, hcame.store, hcame.policy, hcame.through, hcame.broken⟩
   rw [hcame.actions, actionsOf_action c.trace hp, append_assoc]
   rfl
  | blocked needsTrust =>
   refine ⟨c.step env id, Reaches.step c, ?_⟩
   rw [hstep]
   exact ⟨actionsOf_action c.trace hp, rfl, rfl, fun h => by simp at h, fun _ => rfl⟩

theorem Runs.action (hp : isAction p.step.type = true) :
  Runs env id [p] fun policy st =>
   tryAction env policy p.step (effectiveRetries p.step).toNat st := by
 intro c rest hready htodo
 exact tries hp _ hready.live hready.executes htodo (by rw [hready.attempt, Nat.zero_add])

/-- The control-flow step `p` leads from `c` to `c'`: nothing but the control state changes. -/
structure Marked (c c' : Calls σ) : Prop where
 actions : actionsOf c'.trace = actionsOf c.trace
 world : c'.world = c.world
 vars : c'.vars = c.vars
 policy : c'.policy = c.policy
 live : c'.ended = c.ended
 attempt : c'.stepAttempt = 0

theorem actionsOf_logged (hp : isAction p.step.type = false) :
  actionsOf (logged c p).trace = actionsOf c.trace := by
 unfold logged
 dsimp only
 split
 · exact actionsOf_control c.trace hp
 · rfl

theorem Marked.goOn (hp : isAction p.step.type = false) (ifs : List IfFrame) (loops : List Loop)
  (todo : List Placed) :
  Marked c (Calls.goOn { logged c p with ifStack := ifs, loopStack := loops } todo) :=
 ⟨actionsOf_logged hp, rfl, rfl, rfl, rfl, rfl⟩

variable {result : Result σ}

theorem Marked.enclose {c c₃ : Calls σ} {rest : List Placed}
  (hopen : Marked c c₁) (hbody : Came c₁ c₂ result middle) (hok : result.ok = true)
  (hclose : Marked c₂ c₃) (hready : Ready c) (htodo : c₃.todo = rest)
  (hifs : c₃.ifStack = c.ifStack) (hloops : c₃.loopStack = c.loopStack) :
  Came c c₃ result rest := by
 obtain ⟨hready₂, -, -, -⟩ := hbody.through hok
 refine ⟨?_, ?_, ?_, fun _ => ⟨⟨?_, hclose.attempt, ?_⟩, htodo, hifs, hloops⟩, fun h => ?_⟩
 · rw [hclose.actions, hbody.actions, hopen.actions]
 · rw [hclose.world, hclose.vars, hbody.store]
 · rw [hclose.policy, hbody.policy, hopen.policy]
 · rw [hclose.live, hready₂.live]
 · rw [hifs]
   exact hready.executes
 · rw [hok] at h
   cases h

theorem Marked.broken {c : Calls σ} {rest : List Placed}
  (hopen : Marked c c₁) (hbody : Came c₁ c₂ result middle) (hok : result.ok = false) :
  Came c c₂ result rest :=
 ⟨by rw [hbody.actions, hopen.actions], hbody.store, hbody.policy.trans hopen.policy,
  fun h => by simp [hok] at h, hbody.broken⟩

theorem Marked.came {c c' : Calls σ} {rest : List Placed} (h : Marked c c') (hready : Ready c)
  (htodo : c'.todo = rest) (hifs : c'.ifStack = c.ifStack) (hloops : c'.loopStack = c.loopStack) :
  Came c c' ⟨[], ⟨c.world, c.vars⟩, true⟩ rest := by
 refine ⟨?_, ?_, h.policy, fun _ => ⟨⟨?_, h.attempt, ?_⟩, htodo, hifs, hloops⟩, fun h => by cases h⟩
 · rw [h.actions, append_nil]
 · rw [h.world, h.vars]
 · rw [h.live, hready.live]
 · rw [hifs]
   exact hready.executes

theorem Marked.broken_before {c : Calls σ} {next : Store σ → Result σ}
  {rest : List Placed} (hopen : Marked c c₁) (hbody : Came c₁ c₂ result middle)
  (hok : result.ok = false) : Came c c₂ (result.andThen next) rest :=
 Came.broken_off (hopen.broken hbody hok : Came c c₂ result rest) hok

variable (env id) in
theorem opens_if (hready : Ready c) (htodo : c.todo = p :: rest) (hp : p.step.type = .if_) :
  ∃ c', Reaches env id c c' ∧ Marked c c' ∧ c'.todo = rest ∧ c'.loopStack = c.loopStack ∧
   c'.ifStack = ⟨evaluateIfCondition env.render c.vars p.step, false⟩ :: c.ifStack := by
 refine ⟨c.step env id, Reaches.step c, ?_⟩
 rw [step_if hready.live htodo hp, hready.executes, Bool.true_and]
 exact ⟨Marked.goOn (by rw [hp]; rfl) _ _ _, rfl, rfl, rfl⟩

variable (env id) in
theorem turns_else {f : IfFrame} (hlive : c.ended = none)
  (htodo : c.todo = p :: rest) (hp : p.step.type = .else_) (hifs : c.ifStack = f :: fs) :
  ∃ c', Reaches env id c c' ∧ Marked c c' ∧ c'.todo = rest ∧ c'.loopStack = c.loopStack ∧
   c'.ifStack = { f with inElse := true } :: fs := by
 refine ⟨c.step env id, Reaches.step c, ?_⟩
 rw [step_else hlive htodo hp hifs]
 exact ⟨Marked.goOn (by rw [hp]; rfl) _ _ _, rfl, rfl, rfl⟩

variable (env id) in
theorem closes_if {f : IfFrame} (hlive : c.ended = none)
  (htodo : c.todo = p :: rest) (hp : p.step.type = .endIf) (hifs : c.ifStack = f :: fs) :
  ∃ c', Reaches env id c c' ∧ Marked c c' ∧ c'.todo = rest ∧ c'.loopStack = c.loopStack ∧
   c'.ifStack = fs := by
 refine ⟨c.step env id, Reaches.step c, ?_⟩
 rw [step_endIf hlive htodo hp, hifs]
 exact ⟨Marked.goOn (by rw [hp]; rfl) _ _ _, rfl, rfl, rfl⟩

theorem Marked.ready {c c' : Calls σ} (h : Marked c c') (hlive : c.ended = none)
  (hexec : shouldExecuteCurrentStep c'.ifStack = true) : Ready c' :=
 ⟨h.live.trans hlive, h.attempt, hexec⟩

variable {body : Prog}

variable (env id) in
theorem skips_body {c : Calls σ} (hopen : Marked c c₁) (hlive : c.ended = none)
  (hskip : shouldExecuteCurrentStep c₁.ifStack = false)
  (htodo : c₁.todo = place script (flatten body) ++ rest) :
  ∃ c₂, Reaches env id c₁ c₂ ∧ Marked c c₂ ∧ c₂.todo = rest ∧ c₂.loopStack = c₁.loopStack ∧
   c₂.ifStack = c₁.ifStack :=
 ⟨_, skips body (hopen.live.trans hlive) hopen.attempt hskip htodo,
  ⟨hopen.actions, hopen.world, hopen.vars, hopen.policy, hopen.live, hopen.attempt⟩, rfl, rfl, rfl⟩

theorem Marked.trans {a b c : Calls σ} (h₁ : Marked a b) (h₂ : Marked b c) : Marked a c :=
 ⟨h₂.actions.trans h₁.actions, h₂.world.trans h₁.world, h₂.vars.trans h₁.vars,
  h₂.policy.trans h₁.policy, h₂.live.trans h₁.live, h₂.attempt⟩

variable {q : Placed}

theorem Runs.ifThen
  (hp : p.step.type = .if_) (hq : q.step.type = .endIf)
  (hbody : Runs env id (place script (flatten body)) f) :
  Runs env id (p :: (place script (flatten body) ++ [q])) fun policy st =>
   if evaluateIfCondition env.render st.vars p.step then f policy st else ⟨[], st, true⟩ := by
 intro c rest hready htodo
 rw [cons_append, append_assoc] at htodo
 obtain ⟨c₁, hreach₁, hopen, htodo₁, hloops₁, hifs₁⟩ := opens_if env id hready htodo hp
 dsimp only
 cases hcond : evaluateIfCondition env.render c.vars p.step with
 | true =>
  rw [hcond] at hifs₁
  have hready₁ : Ready c₁ := hopen.ready hready.live (by rw [hifs₁]; exact hready.executes)
  obtain ⟨c₂, hreach₂, hcame⟩ := hbody c₁ _ hready₁ htodo₁
  rw [hopen.world, hopen.vars, hopen.policy] at hcame
  simp only [↓reduceIte]
  cases hok : (f c.policy ⟨c.world, c.vars⟩).ok with
  | false => exact ⟨c₂, hreach₁.trans hreach₂, hopen.broken hcame hok⟩
  | true =>
   obtain ⟨hready₂, htodo₂, hifs₂, hloops₂⟩ := hcame.through hok
   obtain ⟨c₃, hreach₃, hclose, htodo₃, hloops₃, hifs₃⟩ :=
    closes_if env id hready₂.live htodo₂ hq (hifs₂.trans hifs₁)
   exact ⟨c₃, (hreach₁.trans hreach₂).trans hreach₃, hopen.enclose hcame hok hclose hready htodo₃
    hifs₃ (hloops₃.trans (hloops₂.trans hloops₁))⟩
 | false =>
  rw [hcond] at hifs₁
  have hskip : shouldExecuteCurrentStep c₁.ifStack = false := by rw [hifs₁]; rfl
  obtain ⟨c₂, hreach₂, hmark₂, htodo₂, hloops₂, hifs₂⟩ :=
   skips_body env id hopen hready.live hskip htodo₁
  obtain ⟨c₃, hreach₃, hclose, htodo₃, hloops₃, hifs₃⟩ :=
   closes_if env id (hmark₂.live.trans hready.live) htodo₂ hq (hifs₂.trans hifs₁)
  simp only [Bool.false_eq_true, ↓reduceIte]
  exact ⟨c₃, (hreach₁.trans hreach₂).trans hreach₃, (hmark₂.trans hclose).came hready htodo₃ hifs₃
   (hloops₃.trans (hloops₂.trans hloops₁))⟩

theorem Runs.ifElse {m : Placed} {other : Prog} {g : SecurityPolicy → Store σ → Result σ}
  (hp : p.step.type = .if_) (hm : m.step.type = .else_) (hq : q.step.type = .endIf)
  (hbody : Runs env id (place script (flatten body)) f)
  (hother : Runs env id (place script (flatten other)) g) :
  Runs env id (p :: (place script (flatten body) ++ m :: (place script (flatten other) ++ [q])))
   fun policy st =>
    if evaluateIfCondition env.render st.vars p.step then f policy st else g policy st := by
 intro c rest hready htodo
 simp only [cons_append, append_assoc] at htodo
 obtain ⟨c₁, hreach₁, hopen, htodo₁, hloops₁, hifs₁⟩ := opens_if env id hready htodo hp
 dsimp only
 cases hcond : evaluateIfCondition env.render c.vars p.step with
 | true =>
  rw [hcond] at hifs₁
  have hready₁ : Ready c₁ := hopen.ready hready.live (by rw [hifs₁]; exact hready.executes)
  obtain ⟨c₂, hreach₂, hcame⟩ := hbody c₁ _ hready₁ htodo₁
  rw [hopen.world, hopen.vars, hopen.policy] at hcame
  simp only [↓reduceIte]
  cases hok : (f c.policy ⟨c.world, c.vars⟩).ok with
  | false => exact ⟨c₂, hreach₁.trans hreach₂, hopen.broken hcame hok⟩
  | true =>
   obtain ⟨hready₂, htodo₂, hifs₂, hloops₂⟩ := hcame.through hok
   obtain ⟨c₃, hreach₃, hmid, htodo₃, hloops₃, hifs₃⟩ :=
    turns_else env id hready₂.live htodo₂ hm (hifs₂.trans hifs₁)
   have hskip : shouldExecuteCurrentStep c₃.ifStack = false := by rw [hifs₃]; rfl
   obtain ⟨c₄, hreach₄, hmark₄, htodo₄, hloops₄, hifs₄⟩ :=
    skips_body env id hmid hready₂.live hskip htodo₃
   obtain ⟨c₅, hreach₅, hclose, htodo₅, hloops₅, hifs₅⟩ :=
    closes_if env id (hmark₄.live.trans hready₂.live) htodo₄ hq (hifs₄.trans hifs₃)
   refine ⟨c₅, ((hreach₁.trans hreach₂).trans (hreach₃.trans hreach₄)).trans hreach₅,
    hopen.enclose hcame hok (hmark₄.trans hclose) hready htodo₅ hifs₅ ?_⟩
   rw [hloops₅, hloops₄, hloops₃, hloops₂, hloops₁]
 | false =>
  rw [hcond] at hifs₁
  have hskip : shouldExecuteCurrentStep c₁.ifStack = false := by rw [hifs₁]; rfl
  obtain ⟨c₂, hreach₂, hmark₂, htodo₂, hloops₂, hifs₂⟩ :=
   skips_body env id hopen hready.live hskip htodo₁
  obtain ⟨c₃, hreach₃, hmid, htodo₃, hloops₃, hifs₃⟩ :=
   turns_else env id (hmark₂.live.trans hready.live) htodo₂ hm (hifs₂.trans hifs₁)
  have hopen₃ : Marked c c₃ := hmark₂.trans hmid
  have hready₃ : Ready c₃ := hopen₃.ready hready.live (by rw [hifs₃]; exact hready.executes)
  obtain ⟨c₄, hreach₄, hcame⟩ := hother c₃ _ hready₃ htodo₃
  rw [hopen₃.world, hopen₃.vars, hopen₃.policy] at hcame
  have hreach : Reaches env id c c₄ := (hreach₁.trans hreach₂).trans (hreach₃.trans hreach₄)
  simp only [Bool.false_eq_true, ↓reduceIte]
  cases hok : (g c.policy ⟨c.world, c.vars⟩).ok with
  | false => exact ⟨c₄, hreach, hopen₃.broken hcame hok⟩
  | true =>
   obtain ⟨hready₄, htodo₄, hifs₄, hloops₄⟩ := hcame.through hok
   obtain ⟨c₅, hreach₅, hclose, htodo₅, hloops₅, hifs₅⟩ :=
    closes_if env id hready₄.live htodo₄ hq (hifs₄.trans hifs₃)
   refine ⟨c₅, hreach.trans hreach₅,
    hopen₃.enclose hcame hok hclose hready htodo₅ hifs₅ ?_⟩
   rw [hloops₅, hloops₄, hloops₃, hloops₂, hloops₁]

/-! ### Loops -/

variable (env id) in
theorem opens_loop (hready : Ready c) (htodo : c.todo = p :: rest) (hp : p.step.type = .loop) :
  ∃ c', Reaches env id c c' ∧ Marked c c' ∧ c'.todo = rest ∧ c'.ifStack = c.ifStack ∧
   c'.loopStack = ⟨iterations p.step, rest⟩ :: c.loopStack := by
 refine ⟨c.step env id, Reaches.step c, ?_⟩
 rw [step_loop hready.live htodo hp, hready.executes, if_pos rfl]
 exact ⟨Marked.goOn (by rw [hp]; rfl) _ _ _, rfl, rfl, rfl⟩

variable (env id) in
theorem closes_loop_again (hready : Ready c)
  (htodo : c.todo = p :: rest) (hp : p.step.type = .endLoop) (hloops : c.loopStack = l :: ls)
  (hagain : l.remaining - 1 > 0) :
  ∃ c', Reaches env id c c' ∧ Marked c c' ∧ c'.todo = l.body ∧ c'.ifStack = c.ifStack ∧
   c'.loopStack = { l with remaining := l.remaining - 1 } :: ls := by
 refine ⟨c.step env id, Reaches.step c, ?_⟩
 rw [step_endLoop_again hready.live htodo hp hloops hready.executes hagain]
 exact ⟨Marked.goOn (by rw [hp]; rfl) _ _ _, rfl, rfl, rfl⟩

variable (env id) in
theorem closes_loop (hready : Ready c)
  (htodo : c.todo = p :: rest) (hp : p.step.type = .endLoop) (hloops : c.loopStack = l :: ls)
  (hlast : ¬ l.remaining - 1 > 0) :
  ∃ c', Reaches env id c c' ∧ Marked c c' ∧ c'.todo = rest ∧ c'.ifStack = c.ifStack ∧
   c'.loopStack = ls := by
 refine ⟨c.step env id, Reaches.step c, ?_⟩
 rw [step_endLoop_done hready.live htodo hp hloops (fun h => hlast h.1)]
 exact ⟨Marked.goOn (by rw [hp]; rfl) _ _ _, rfl, rfl, rfl⟩

theorem turns
  (hq : q.step.type = .endLoop) (hbody : Runs env id (place script (flatten body)) f) (n : ℕ)
  {c : Calls σ} (hready : Ready c)
  (htodo : c.todo = place script (flatten body) ++ q :: rest)
  (hloops : c.loopStack = ⟨n + 1, c.todo⟩ :: ls) :
  ∃ c', Reaches env id c c' ∧ Came { c with loopStack := ls } c'
   (repeatTimes (f c.policy) (n + 1) ⟨c.world, c.vars⟩) rest := by
 induction n generalizing c with
 | zero =>
  obtain ⟨c₁, hreach₁, hcame⟩ := hbody c (q :: rest) hready htodo
  have hopen : Marked { c with loopStack := ls } c := ⟨rfl, rfl, rfl, rfl, rfl, hready.attempt⟩
  have hready' : Ready { c with loopStack := ls } := ⟨hready.live, hready.attempt, hready.executes⟩
  rw [repeatTimes]
  cases hok : (f c.policy ⟨c.world, c.vars⟩).ok with
  | false => exact ⟨c₁, hreach₁, hopen.broken_before hcame hok⟩
  | true =>
   obtain ⟨hready₁, htodo₁, hifs₁, hloops₁⟩ := hcame.through hok
   obtain ⟨c₂, hreach₂, hclose, htodo₂, hifs₂, hloops₂⟩ :=
    closes_loop env id hready₁ htodo₁ hq (hloops₁.trans hloops) (by simp)
   have hfirst := hopen.enclose hcame hok hclose hready' htodo₂ (hifs₂.trans hifs₁) hloops₂
   refine ⟨c₂, hreach₁.trans hreach₂, hfirst.andThen hok ?_⟩
   obtain ⟨hready₂, -, -, -⟩ := hfirst.through hok
   rw [← hfirst.store]
   exact ⟨by simp [repeatTimes], rfl, rfl, fun _ => ⟨hready₂, htodo₂, rfl, rfl⟩,
    fun h => by cases h⟩
 | succ n ih =>
  obtain ⟨c₁, hreach₁, hcame⟩ := hbody c (q :: rest) hready htodo
  have hopen : Marked { c with loopStack := ls } c := ⟨rfl, rfl, rfl, rfl, rfl, hready.attempt⟩
  have hready' : Ready { c with loopStack := ls } := ⟨hready.live, hready.attempt, hready.executes⟩
  rw [repeatTimes]
  cases hok : (f c.policy ⟨c.world, c.vars⟩).ok with
  | false => exact ⟨c₁, hreach₁, hopen.broken_before hcame hok⟩
  | true =>
   obtain ⟨hready₁, htodo₁, hifs₁, hloops₁⟩ := hcame.through hok
   have hremaining : ((n + 1 : ℕ) : ℤ) + 1 - 1 > 0 := by omega
   obtain ⟨c₂, hreach₂, hclose, htodo₂, hifs₂, hloops₂⟩ :=
    closes_loop_again env id hready₁ htodo₁ hq (hloops₁.trans hloops) hremaining
   have hready₂ : Ready c₂ :=
    hclose.ready hready₁.live (by rw [hifs₂, hifs₁]; exact hready.executes)
   have hclose' : Marked c₁ { c₂ with loopStack := ls } :=
    ⟨hclose.actions, hclose.world, hclose.vars, hclose.policy, hclose.live, hclose.attempt⟩
   have hfirst := hopen.enclose hcame hok hclose' hready' htodo₂ (hifs₂.trans hifs₁) rfl
   obtain ⟨c₃, hreach₃, hlater⟩ := ih hready₂ (htodo₂.trans htodo) (by
    rw [hloops₂, htodo₂]
    simp)
   have hpolicy : c₂.policy = c.policy := hfirst.policy
   have hstore : (⟨c₂.world, c₂.vars⟩ : Store σ) = (f c.policy ⟨c.world, c.vars⟩).store :=
    hfirst.store
   have hresult : repeatTimes (f c₂.policy) (n + 1) ⟨c₂.world, c₂.vars⟩ =
     repeatTimes (f c.policy) (n + 1) (f c.policy ⟨c.world, c.vars⟩).store := by
    rw [hpolicy, hstore]
   rw [hresult] at hlater
   exact ⟨c₃, (hreach₁.trans hreach₂).trans hreach₃, hfirst.andThen hok hlater⟩

theorem iterations_toNat (s : Step) : ((iterations s).toNat - 1 : ℕ) + 1 = (iterations s).toNat := by
 unfold iterations
 omega

theorem Runs.loop
  (hp : p.step.type = .loop) (hq : q.step.type = .endLoop)
  (hbody : Runs env id (place script (flatten body)) f) :
  Runs env id (p :: (place script (flatten body) ++ [q])) fun policy st =>
   repeatTimes (f policy) (iterations p.step).toNat st := by
 intro c rest hready htodo
 rw [cons_append, append_assoc] at htodo
 obtain ⟨c₁, hreach₁, hopen, htodo₁, hifs₁, hloops₁⟩ := opens_loop env id hready htodo hp
 have hready₁ : Ready c₁ := hopen.ready hready.live (by rw [hifs₁]; exact hready.executes)
 have hcount : iterations p.step = (((iterations p.step).toNat - 1 : ℕ) : ℤ) + 1 := by
  unfold iterations
  omega
 rw [hcount, ← htodo₁] at hloops₁
 obtain ⟨c₂, hreach₂, hcame⟩ := turns hq hbody _ hready₁ htodo₁ hloops₁
 have hresult : repeatTimes (f c₁.policy) ((iterations p.step).toNat - 1 + 1) ⟨c₁.world, c₁.vars⟩ =
   repeatTimes (f c.policy) (iterations p.step).toNat ⟨c.world, c.vars⟩ := by
  rw [hopen.policy, hopen.world, hopen.vars, iterations_toNat]
 rw [hresult] at hcame
 refine ⟨c₂, hreach₁.trans hreach₂, ?_⟩
 refine ⟨?_, hcame.store, hcame.policy.trans hopen.policy, fun h => ?_, hcame.broken⟩
 · rw [hcame.actions, hopen.actions]
 · obtain ⟨hready₂, htodo₂, hifs₂, hloops₂⟩ := hcame.through h
   exact ⟨hready₂, htodo₂, hifs₂.trans hifs₁, hloops₂⟩

theorem runs_meaning (prog : Prog) :
  Runs env id (place script (flatten prog)) fun policy => meaning env policy prog := by
 induction prog with
 | done => exact Runs.nil
 | action s hs prog ih =>
  exact Runs.append (Runs.action (p := ⟨s, script, 0⟩) hs) ih
 | ifThen head hhead body close hclose prog ihbody ihrest =>
  have hcode : place script (flatten (.ifThen head hhead body close hclose prog)) =
    ⟨head, script, 0⟩ :: (place script (flatten body) ++ [⟨close, script, 0⟩]) ++
     place script (flatten prog) := by
   simp [flatten, place]
  have hmeaning : (fun policy => meaning env policy (.ifThen head hhead body close hclose prog)) =
    fun policy st => (if evaluateIfCondition env.render st.vars head then
     meaning env policy body st else ⟨[], st, true⟩).andThen (meaning env policy prog) := by
   funext policy st
   rw [meaning]
   split
   · rfl
   · rfl
  rw [hcode, hmeaning]
  exact Runs.append (Runs.ifThen hhead hclose ihbody) ihrest
 | ifElse head hhead body mid hmid other close hclose prog ihbody ihother ihrest =>
  have hcode : place script (flatten (.ifElse head hhead body mid hmid other close hclose prog)) =
    ⟨head, script, 0⟩ :: (place script (flatten body) ++ ⟨mid, script, 0⟩ ::
     (place script (flatten other) ++ [⟨close, script, 0⟩])) ++ place script (flatten prog) := by
   simp [flatten, place]
  rw [hcode]
  exact Runs.append (Runs.ifElse hhead hmid hclose ihbody ihother) ihrest
 | loop head hhead body close hclose prog ihbody ihrest =>
  have hcode : place script (flatten (.loop head hhead body close hclose prog)) =
    ⟨head, script, 0⟩ :: (place script (flatten body) ++ [⟨close, script, 0⟩]) ++
     place script (flatten prog) := by
   simp [flatten, place]
  rw [hcode]
  exact Runs.append (Runs.loop hhead hclose ihbody) ihrest

end Machine

/-! ## The runner on structured scripts -/

section Runner

variable {σ : Type} {env : Env σ} {script : Script} {r : Runner σ} {c : Calls σ} {t : Tick}

theorem perform_keeps_trace (p : Placed) (execute : Bool) (rest : List Placed) :
  (c.perform env script.id p execute rest).trace = c.trace := by
 have hfailed : ∀ (d : Calls σ) (s : Step), (d.failed s).trace = d.trace := by
  intro d s
  unfold Calls.failed
  split <;> rfl
 unfold Calls.perform
 split
 case h_5 =>
  split
  · exact hfailed _ _
  · split <;> rfl
 case h_6 =>
  split
  · simp only [Calls.call]
    split
    · exact hfailed _ _
    · split <;> rfl
  · rfl
 case h_7 =>
  split
  · exact hfailed _ _
  · rfl
 case h_8 =>
  split
  · simp only [Calls.act]
    split
    · rfl
    · exact hfailed _ _
    · rfl
  · rfl
 all_goals rfl

theorem step_trace : c.trace <+: (c.step env script.id).trace := by
 unfold Calls.step
 split
 · exact prefix_rfl
 · split
   · exact prefix_rfl
   · rw [perform_keeps_trace]
     dsimp only
     split
     · exact prefix_append _ _
     · exact prefix_rfl

theorem iterate_trace (n : ℕ) : c.trace <+: ((Calls.step env script.id)^[n] c).trace := by
 induction n generalizing c with
 | zero => exact prefix_rfl
 | succ n ih => exact step_trace.trans ih

theorem iterate_ended (hended : c.ended.isSome = true) (n : ℕ) :
  (Calls.step env script.id)^[n] c = c := by
 have hfixed : Function.IsFixedPt (Calls.step env script.id) c := by
  unfold Function.IsFixedPt Calls.step
  rw [if_pos hended]
 exact hfixed.iterate n

theorem lockstep (hno : ∀ p ∈ r.steps, p.step.type ≠ .runScript) (h : Related script r c)
  {p : Placed} (hp : dispatched t r = some p) :
  Related script (dispatch env t p r) (c.step env script.id) := by
 obtain ⟨todo, loops, rfl, hrun, hat⟩ := h
 obtain ⟨hget, hlive⟩ := dispatched_spec hp
 have hplain : p.step.type ≠ .runScript := hno p (mem_of_getElem? hget)
 have htodo := hat.todo
 rw [drop_of_getElem? hget] at htodo
 generalize hflat : r.steps.drop (r.currentIndex + 1) = flat at htodo
 cases htodo with
 | keep _ hrest =>
  rw [step_view hrun hlive]
  exact Related.perform ⟨hrun.id, hrun.security, hrun.running⟩ hget
   (fun htype => absurd htype hplain) hat (hflat ▸ hrest)
 | stale _ htype => exact absurd htype hplain

theorem dispatch_keeps_steps (hno : ∀ p ∈ r.steps, p.step.type ≠ .runScript) {p : Placed}
  (hp : dispatched t r = some p) : (dispatch env t p r).steps = r.steps := by
 have hplain : p.step.type ≠ .runScript :=
  hno p (mem_of_getElem? (dispatched_spec hp).1)
 rw [dispatch_steps, expansion, if_neg fun h => hplain h.1]

variable (env script) in
def scriptMeaning (prog : Prog) (world : σ) : Result σ :=
 meaning env (effectivePolicy env.navigationHost script) prog ⟨world,
  script.defaultVariables.entries.foldl (fun vars kv => vars.insert kv.1 (.string kv.2)) .empty⟩

theorem ends_of_came {b c₀ : Calls σ} {result : Result σ} (hreach : Reaches env script.id c₀ c)
  (hcame : Came b c result []) : ∃ n, let e := (Calls.step env script.id)^[n] c₀
   e.ended = some result.ok ∧ actionsOf e.trace = actionsOf b.trace ++ result.actions ∧
   (result.ok = true → e.ifStack = b.ifStack ∧ e.loopStack = b.loopStack) := by
 obtain ⟨n, hreach⟩ := hreach
 cases hok : result.ok with
 | false =>
  refine ⟨n, ?_⟩
  dsimp only
  rw [hreach]
  exact ⟨hcame.broken hok, hcame.actions, fun h => by cases h⟩
 | true =>
  obtain ⟨hready', htodo', hifs, hloops⟩ := hcame.through hok
  refine ⟨n + 1, ?_⟩
  dsimp only
  rw [Function.iterate_succ_apply', hreach]
  have hstep : c.step env script.id = { c with ended := some true } := by
   simp only [Calls.step, hready'.live, htodo', Option.isSome_none, Bool.false_eq_true,
    ↓reduceIte]
  rw [hstep]
  exact ⟨rfl, hcame.actions, fun _ => ⟨hifs, hloops⟩⟩

theorem calls_end (env : Env σ) (prog : Prog) (hsteps : script.steps = flatten prog) (world : σ) :
  ∃ n, let c := (Calls.step env script.id)^[n] (start env script 0 { world := world })
   c.ended = some (scriptMeaning env script prog world).ok ∧
   actionsOf c.trace = (scriptMeaning env script prog world).actions ∧
   ((scriptMeaning env script prog world).ok = true → c.ifStack = [] ∧ c.loopStack = []) := by
 have hready : Ready (start env script 0 { world := world }) := ⟨rfl, rfl, rfl⟩
 have htodo : (start env script 0 { world := world }).todo = place script (flatten prog) ++ [] := by
  simp [start, place, hsteps]
 obtain ⟨c, hreach, hcame⟩ := runs_meaning prog (start env script 0 { world := world }) [] hready htodo
 exact ends_of_came hreach hcame

/-- The runner's state against a structured script's call machine. -/
structure Steps (script : Script) (c : Calls σ) (env : Env σ) (r : Runner σ) : Prop where
 trace : ∃ n, r.trace = ((Calls.step env script.id)^[n] c).trace
 related : r.isRunning = true → (∀ p ∈ r.steps, p.step.type ≠ .runScript) ∧
  ∃ n, Related script r ((Calls.step env script.id)^[n] c)

theorem Related.trace_eq (h : Related script r c) : r.trace = c.trace := by
 obtain ⟨todo, loops, rfl, -, -⟩ := h
 rfl

theorem Related.stacks_nil (h : Related script r c) (hifs : c.ifStack = [])
  (hloops : c.loopStack = []) : r.ifStack = [] ∧ r.loopStack = [] := by
 obtain ⟨todo, loops, rfl, -, hat⟩ := h
 have hnil : loops = [] := hloops
 have hframes := hat.loops
 rw [hnil, forall₂_nil_right_iff] at hframes
 exact ⟨hifs, hframes⟩

theorem Steps.executeNextStep {c : Calls σ} (h : Steps script c env r) (t : Tick) :
  Steps script c env (executeNextStep env t r) := by
 cases hp : dispatched t r with
 | some p =>
  rw [executeNextStep_of_dispatched env hp]
  obtain ⟨hno, n, hrel⟩ := h.related (dispatched_spec hp).2
  have hnext : Related script (dispatch env t p r) ((Calls.step env script.id)^[n + 1] c) := by
   rw [Function.iterate_succ_apply']
   exact lockstep hno hrel hp
  refine ⟨⟨n + 1, Related.trace_eq hnext⟩, fun _ => ⟨?_, n + 1, hnext⟩⟩
  rw [dispatch_keeps_steps hno hp]
  exact hno
 | none =>
  rcases executeNextStep_of_not_dispatched env hp with ⟨-, heq⟩ | ⟨success, message, heq⟩
  · rw [heq]
    exact h
  · rw [heq]
    exact ⟨h.trace, fun hrun => by cases hrun⟩

theorem quiet_lockstep (env : Env σ) (hno : ∀ p ∈ r.steps, p.step.type ≠ .runScript) (h : Related script r c)
  {ticks : List Tick} (hquiet : ∀ tick ∈ ticks, Quiet script tick) :
  Related script (dispatches env r ticks) ((Calls.step env script.id)^[ticks.length] c) := by
 induction ticks generalizing r c with
 | nil => exact h
 | cons t ticks ih =>
  have hquiet' : ∀ tick ∈ ticks, Quiet script tick :=
   fun tick htick => hquiet tick (mem_cons_of_mem _ htick)
  rw [dispatches_cons]
  cases hp : dispatched t r with
  | some p =>
   rw [executeNextStep_of_dispatched env hp]
   refine ih ?_ (lockstep hno h hp) hquiet'
   rw [dispatch_keeps_steps hno hp]
   exact hno
  | none =>
   refine ih ?_ (h.complete (hquiet t mem_cons_self) hp) hquiet'
   rcases executeNextStep_of_not_dispatched env hp with ⟨-, heq⟩ | ⟨success, message, heq⟩
   · rw [heq]
     exact hno
   · rw [heq]
     exact hno

/-- What the call machine comes to, the runner comes to; whatever breaks its run off, it executes
some of it. -/
theorem runner_comes_to (env : Env σ) (hno : ∀ p ∈ r.steps, p.step.type ≠ .runScript)
  (hstart : Related script r c) {n : ℕ} {result : Result σ}
  (hended : ((Calls.step env script.id)^[n] c).ended = some result.ok)
  (hactions : actionsOf ((Calls.step env script.id)^[n] c).trace = result.actions) :
  (∀ ticks, actionsOf (dispatches env r ticks).trace <+: result.actions) ∧
  ∀ ticks : List Tick, n ≤ ticks.length → (∀ tick ∈ ticks, Quiet script tick) →
   actionsOf (dispatches env r ticks).trace = result.actions ∧
   (dispatches env r ticks).result.map RunResult.success = some result.ok ∧
   Related script (dispatches env r ticks) ((Calls.step env script.id)^[n] c) := by
 have hover : ((Calls.step env script.id)^[n] c).ended.isSome = true := by
  rw [hended]
  rfl
 constructor
 · intro ticks
   have hsteps : Steps script c env (dispatches env r ticks) :=
    TransitionRuns.run_invariant_unconditional (I := Steps script c env)
     (fun _ t h => h.executeNextStep t)
     ⟨⟨0, Related.trace_eq hstart⟩, fun _ => ⟨hno, 0, hstart⟩⟩ ticks
   obtain ⟨m, hm⟩ := hsteps.trace
   rw [hm, ← hactions]
   -- Up to the end the log only grows; after it nothing changes.
   rcases Nat.le_total m n with hle | hle
   · obtain ⟨k, rfl⟩ := Nat.exists_eq_add_of_le hle
     rw [Nat.add_comm m k, Function.iterate_add_apply]
     exact ((iterate_trace k).map _).filter _
   · obtain ⟨k, rfl⟩ := Nat.exists_eq_add_of_le hle
     rw [Nat.add_comm n k, Function.iterate_add_apply, iterate_ended hover k]
 · intro ticks hlong hquiet
   have hrel := quiet_lockstep env hno hstart hquiet
   obtain ⟨k, hk⟩ := Nat.exists_eq_add_of_le hlong
   rw [hk, Nat.add_comm n k, Function.iterate_add_apply, iterate_ended hover k] at hrel
   refine ⟨?_, ?_, hrel⟩
   · rw [Related.trace_eq hrel, hactions]
   · rw [← hended]
     exact (Or.inl hrel : Follows script _ _) |> Follows.ended_eq

end Runner

theorem flatten_plain (prog : Prog) : ∀ s ∈ flatten prog, s.type ≠ .runScript := by
 induction prog with
 | done => exact fun s hs => by cases hs
 | action s hs prog ih =>
  intro x hx
  rcases mem_cons.1 hx with rfl | hx
  · intro htype
    simp [htype, isAction] at hs
  · exact ih x hx
 | ifThen head hhead body close hclose prog ihbody ihrest =>
  intro x hx
  simp only [flatten, mem_cons, mem_append] at hx
  rcases hx with rfl | hx | rfl | hx
  · simp [hhead]
  · exact ihbody x hx
  · simp [hclose]
  · exact ihrest x hx
 | ifElse head hhead body mid hmid other close hclose prog ihbody ihother ihrest =>
  intro x hx
  simp only [flatten, mem_cons, mem_append] at hx
  rcases hx with rfl | hx | rfl | hx | rfl | hx
  · simp [hhead]
  · exact ihbody x hx
  · simp [hmid]
  · exact ihother x hx
  · simp [hclose]
  · exact ihrest x hx
 | loop head hhead body close hclose prog ihbody ihrest =>
  intro x hx
  simp only [flatten, mem_cons, mem_append] at hx
  rcases hx with rfl | hx | rfl | hx
  · simp [hhead]
  · exact ihbody x hx
  · simp [hclose]
  · exact ihrest x hx

theorem run_plain {σ : Type} (env : Env σ) {script : Script} {prog : Prog} (t : Tick) (k : ℕ) (world : σ)
  (hsteps : script.steps = flatten prog) (hdraft : script.security.sitesUnconfirmed = false)
  (hvoice : hasVoiceSteps script = false) :
  ∀ p ∈ (run env t script k { world := world }).steps, p.step.type ≠ .runScript := by
 intro p hp
 simp only [run, hdraft, hvoice, Bool.false_eq_true, ↓reduceIte] at hp
 obtain ⟨s, hs, rfl⟩ := mem_map.1 hp
 rw [hsteps] at hs
 exact flatten_plain prog s hs

/-- The runner implements structured control flow: whatever breaks a run off, the actions it
executes are those the program means so far; and left alone it executes all of them and ends as the
program does, both stacks empty when it got through. -/
theorem structured_control_flow {σ : Type} (env : Env σ) (script : Script) (prog : Prog)
  (hsteps : script.steps = flatten prog)
  (hdraft : script.security.sitesUnconfirmed = false) (hvoice : hasVoiceSteps script = false)
  (t : Tick) (world : σ) :
  (∀ ticks, actionsOf (dispatches env (run env t script 0 { world := world }) ticks).trace <+:
   (scriptMeaning env script prog world).actions) ∧
  ∃ n, ∀ ticks : List Tick, n ≤ ticks.length → (∀ tick ∈ ticks, Quiet script tick) →
   let r := dispatches env (run env t script 0 { world := world }) ticks
   actionsOf r.trace = (scriptMeaning env script prog world).actions ∧
   r.result.map RunResult.success = some (scriptMeaning env script prog world).ok ∧
   ((scriptMeaning env script prog world).ok = true → r.ifStack = [] ∧ r.loopStack = []) := by
 obtain ⟨n, hended, hactions, hstacks⟩ := calls_end env prog hsteps world
 have hstart : Related script (run env t script 0 { world := world })
   (start env script 0 { world := world }) :=
  Related.start env t 0 rfl hdraft hvoice
 have hno := run_plain env t 0 world hsteps hdraft hvoice
 obtain ⟨hbounded, hall⟩ := runner_comes_to env hno hstart hended hactions
 refine ⟨hbounded, n, fun ticks hlong hquiet => ?_⟩
 obtain ⟨hactions', hresult, hrel⟩ := hall ticks hlong hquiet
 refine ⟨hactions', hresult, fun hok => ?_⟩
 obtain ⟨hifs, hloops⟩ := hstacks hok
 exact Related.stacks_nil hrel hifs hloops

section Samples

def quietEnv : Env Unit where
 render _ := []
 navigationHost _ := none
 hasStorage := false
 attempt _ _ vars _ := { ending := .succeeded, vars := vars, world := () }
 load _ _ := (.timedOut, ())

/-- Two turns of a loop around a branch that is taken. -/
def sampleProg : Prog :=
 .loop { type := .loop, maxIterations := 2 } rfl
  (.ifElse { type := .if_, value := "yes" } rfl
   (.action { type := .notify } rfl .done) { type := .else_ } rfl
   (.action { type := .click } rfl .done) { type := .endIf } rfl .done)
  { type := .endLoop } rfl (.action { type := .screenshot } rfl .done)

def sampleScript : Script := { id := "sample", steps := flatten sampleProg }

example : (scriptMeaning quietEnv sampleScript sampleProg ()).actions.map Step.type =
  [.notify, .notify, .screenshot] := by decide

theorem structured_control_flow_sample :
  hasVoiceSteps sampleScript = false ∧
  (∀ ticks, actionsOf (dispatches quietEnv (run quietEnv {} sampleScript 0 { world := () })
   ticks).trace <+: (scriptMeaning quietEnv sampleScript sampleProg ()).actions) ∧
  ∃ n, ∀ ticks : List Tick, n ≤ ticks.length → (∀ tick ∈ ticks, Quiet sampleScript tick) →
   let r := dispatches quietEnv (run quietEnv {} sampleScript 0 { world := () }) ticks
   actionsOf r.trace = (scriptMeaning quietEnv sampleScript sampleProg ()).actions ∧
   r.result.map RunResult.success =
    some (scriptMeaning quietEnv sampleScript sampleProg ()).ok ∧
   ((scriptMeaning quietEnv sampleScript sampleProg ()).ok = true →
    r.ifStack = [] ∧ r.loopStack = []) :=
 ⟨by decide, structured_control_flow quietEnv sampleScript sampleProg rfl rfl (by decide) {} ()⟩

end Samples

end MoltBrowser.AutomationStructured
