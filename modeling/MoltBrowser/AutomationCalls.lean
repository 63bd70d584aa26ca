import MoltBrowser.AutomationRunner

set_option autoImplicit false

/-!
# What a run means: RUN_SCRIPT as a call

A machine without an index or a running list: what is left to do is a list, a
LOOP keeps what follows it to come back to, and RUN_SCRIPT puts the child's
steps before the step that follows it, for this one time.
-/
namespace MoltBrowser.AutomationCalls
open AutomationScript AutomationRunner

/-- A loop under way: the turns left and what follows its LOOP step. -/
structure Loop where
 remaining : ℤ
 body : List Placed

structure Calls (σ : Type) where
 world : σ
 vars : Variables
 policy : SecurityPolicy
 todo : List Placed
 loopStack : List Loop := []
 ifStack : List IfFrame := []
 stepAttempt : ℕ := 0
 trace : List Placed := []
 ended : Option Bool := none

section Machine

variable {σ : Type} (env : Env σ) (scriptId : Bytes)

/-- The step succeeded and `todo` follows it. -/
def Calls.goOn (c : Calls σ) (todo : List Placed) : Calls σ :=
 { c with todo := todo, stepAttempt := 0 }

def Calls.failed (c : Calls σ) (s : Step) : Calls σ :=
 if (c.stepAttempt : ℤ) < effectiveRetries s then { c with stepAttempt := c.stepAttempt + 1 }
 else { c with ended := some false }

def Calls.child (c : Calls σ) (s : Step) : Option Script :=
 let childId := resolve env.render c.vars s.target
 if childId = [] ∨ childId = scriptId ∨ env.hasStorage = false then none
 else match (env.load c.world childId).1 with
  | .timedOut => none
  | .loaded child => child

def Calls.worldAfterLoad (c : Calls σ) (s : Step) : σ :=
 let childId := resolve env.render c.vars s.target
 if childId = [] ∨ childId = scriptId ∨ env.hasStorage = false then c.world
 else (env.load c.world childId).2

/-- The call: the child's steps, then `rest`. -/
def Calls.call (c : Calls σ) (p : Placed) (rest : List Placed) : Calls σ :=
 let after := { c with world := c.worldAfterLoad env scriptId p.step }
 match c.child env scriptId p.step with
 | none => after.failed p.step
 | some child =>
  if child.steps = [] then after.goOn rest
  else Calls.goOn { after with policy := withChildSites env c.policy child }
   (placeChild p child ++ rest)

def Calls.act (c : Calls σ) (s : Step) (rest : List Placed) : Calls σ :=
 let a := env.attempt c.world c.policy c.vars s
 let after := { c with world := a.world, vars := a.vars }
 match a.ending with
 | .succeeded => after.goOn rest
 | .failed => after.failed s
 | .blocked _ => { after with stepAttempt := 0, ended := some false }

def Calls.perform (c : Calls σ) (p : Placed) (execute : Bool) (rest : List Placed) : Calls σ :=
 match p.step.type with
 | .if_ =>
  let cond := execute && evaluateIfCondition env.render c.vars p.step
  Calls.goOn { c with ifStack := ⟨cond, false⟩ :: c.ifStack } rest
 | .else_ =>
  Calls.goOn { c with
   ifStack := match c.ifStack with
    | [] => []
    | f :: fs => { f with inElse := true } :: fs } rest
 | .endIf => Calls.goOn { c with ifStack := c.ifStack.tail } rest
 | .loop =>
  let iters := if execute then iterations p.step else 0
  Calls.goOn { c with loopStack := ⟨iters, rest⟩ :: c.loopStack } rest
 | .endLoop =>
  match c.loopStack with
  | [] => c.failed p.step
  | f :: fs =>
   if f.remaining - 1 > 0 ∧ execute then
    Calls.goOn { c with loopStack := { f with remaining := f.remaining - 1 } :: fs } f.body
   else Calls.goOn { c with loopStack := fs } rest
 | .runScript => if execute then c.call env scriptId p rest else { c with todo := rest }
 | .unknown => if execute then c.failed p.step else { c with todo := rest }
 | _ => if execute then c.act env p.step rest else { c with todo := rest }

def Calls.step (c : Calls σ) : Calls σ :=
 if c.ended.isSome then c
 else match c.todo with
  | [] => { c with ended := some true }
  | p :: rest =>
   let execute := shouldExecuteCurrentStep c.ifStack
   Calls.perform env scriptId
    { c with trace := if execute then c.trace ++ [p] else c.trace } p execute rest

end Machine

end MoltBrowser.AutomationCalls
