import MoltBrowser.AutomationCalls

set_option autoImplicit false

/-!
# The runner against the call machine

The running list differs from what is left to do by the steps that earlier
RUN_SCRIPT steps left in it. As long as no dispatch meets such left-over steps
the wrong way, every run executes what the call machine executes.
-/
namespace MoltBrowser.AutomationRunnerCalls
open AutomationScript AutomationSecurity AutomationRunner AutomationCalls List

/-! ## Lists with left-over steps -/

/-- The first list is the second with regions of deeper steps left after RUN_SCRIPT steps. -/
inductive Inflated : List Placed → List Placed → Prop
 | nil : Inflated [] []
 | keep (p : Placed) {flat todo : List Placed} : Inflated flat todo →
   Inflated (p :: flat) (p :: todo)
 | stale (p : Placed) {region flat todo : List Placed} : p.step.type = .runScript →
   region ≠ [] → (∀ q ∈ region, p.depth < q.depth) → (∀ q ∈ flat.head?, q.depth ≤ p.depth) →
   Inflated flat todo → Inflated (p :: (region ++ flat)) (p :: todo)

theorem Inflated.refl (l : List Placed) : Inflated l l := by
 induction l with
 | nil => exact .nil
 | cons p l ih => exact .keep p ih

theorem Inflated.append (front : List Placed) {flat todo : List Placed} (h : Inflated flat todo) :
  Inflated (front ++ flat) (front ++ todo) := by
 induction front with
 | nil => exact h
 | cons p front ih => exact .keep p ih

theorem Inflated.splice {front rest todo new : List Placed} {p : Placed}
  (hrun : p.step.type = .runScript) (hnew : new ≠ []) (hdeep : ∀ q ∈ new, p.depth < q.depth)
  (hfirst : ∀ q ∈ rest.head?, q.depth ≤ p.depth) (h : Inflated (front ++ p :: rest) todo) :
  Inflated (front ++ p :: (new ++ rest)) todo := by
 generalize hflat : front ++ p :: rest = flat at h
 induction h generalizing front with
 | nil => simp at hflat
 | keep q hflat' ih =>
  cases front with
  | nil =>
   obtain ⟨rfl, rfl⟩ := List.cons.inj hflat
   exact .stale p hrun hnew hdeep hfirst hflat'
  | cons q' front =>
   obtain ⟨rfl, htail⟩ := List.cons.inj hflat
   exact .keep q' (ih htail)
 | @stale q region flat todo hq hregion hdeeper hhead htodo ih =>
  cases front with
  | nil =>
   -- `p` itself has a region already.
   obtain ⟨rfl, htail⟩ := List.cons.inj hflat
   cases region with
   | nil => exact absurd rfl hregion
   | cons x region =>
    have hx := hdeeper x mem_cons_self
    have hle := hfirst x (by rw [htail]; rfl)
    omega
  | cons q' front =>
   obtain ⟨rfl, htail⟩ := List.cons.inj hflat
   have hbehind : ∀ b, flat = b ++ p :: rest → Inflated (q' :: (region ++ (b ++ p :: (new ++ rest))))
     (q' :: todo) := by
    intro b hb
    refine .stale q' hq hregion hdeeper (fun x hx => hhead x ?_) (ih hb.symm)
    rw [hb]
    cases b with
    | nil => exact hx
    | cons y b => exact hx
   rcases append_eq_append_iff.1 htail with ⟨a, hfront, hrest⟩ | ⟨b, hfront, hflat'⟩
   · cases a with
     | nil =>
      have hfront' : front = region := by simpa using hfront.symm
      rw [hfront']
      exact hbehind [] hrest.symm
     | cons x a =>
      -- `p` is left over itself: its new steps are part of the same region.
      obtain ⟨rfl, hrest'⟩ := List.cons.inj hrest
      rw [hfront] at hdeeper
      have hp := hdeeper p (by simp)
      have hlist : front ++ p :: (new ++ rest) = (front ++ p :: (new ++ a)) ++ flat := by
       simp [hrest']
      rw [cons_append, hlist]
      refine .stale q' hq (by simp) (fun x hx => ?_) hhead htodo
      simp only [mem_append, mem_cons] at hx
      rcases hx with hx | rfl | hx | hx
      · exact hdeeper x (by simp [hx])
      · exact hp
      · exact lt_trans hp (hdeep x hx)
      · exact hdeeper x (by simp [hx])
   · rw [hfront, cons_append, append_assoc]
     exact hbehind b hflat'

/-! ## Where the two machines are -/

/-- The runner's index and loop frames against what the call machine has left and keeps. -/
structure At (steps : List Placed) (index : ℕ) (frames : List LoopFrame) (todo : List Placed)
  (loops : List Loop) : Prop where
 todo : Inflated (steps.drop index) todo
 loops : List.Forall₂ (fun f l => f.remaining = l.remaining ∧
  Inflated (steps.drop (f.startIndex + 1)) l.body) frames loops
 ordered : frames.Pairwise fun f g => g.startIndex < f.startIndex
 behind : ∀ f ∈ frames, f.startIndex < index

section At

variable {steps : List Placed} {index : ℕ} {frames : List LoopFrame} {todo : List Placed}
 {loops : List Loop}

theorem At.move (h : At steps index frames todo loops) {later : ℕ} (hle : index ≤ later)
  {todo' : List Placed} (htodo : Inflated (steps.drop later) todo') :
  At steps later frames todo' loops where
 todo := htodo
 loops := h.loops
 ordered := h.ordered
 behind f hf := lt_of_lt_of_le (h.behind f hf) hle

theorem At.pushLoop (h : At steps index frames todo loops) {rest : List Placed} (n : ℤ)
  (hrest : Inflated (steps.drop (index + 1)) rest) :
  At steps (index + 1) (⟨index, n⟩ :: frames) rest (⟨n, rest⟩ :: loops) where
 todo := hrest
 loops := .cons ⟨rfl, hrest⟩ h.loops
 ordered := pairwise_cons.2 ⟨h.behind, h.ordered⟩
 behind f hf := by
  rcases mem_cons.1 hf with rfl | hf
  · exact Nat.lt_succ_self _
  · exact Nat.lt_succ_of_lt (h.behind f hf)

theorem At.popLoop {f : LoopFrame} {l : Loop}
  (h : At steps index (f :: frames) todo (l :: loops)) : At steps index frames todo loops where
 todo := h.todo
 loops := (forall₂_cons.1 h.loops).2
 ordered := (pairwise_cons.1 h.ordered).2
 behind g hg := h.behind g (mem_cons_of_mem _ hg)

theorem At.jump {f : LoopFrame} {l : Loop} (h : At steps index (f :: frames) todo (l :: loops))
  (n : ℤ) : At steps (f.startIndex + 1) ({ f with remaining := n } :: frames) l.body
   ({ l with remaining := n } :: loops) where
 todo := (forall₂_cons.1 h.loops).1.2
 loops := .cons ⟨rfl, (forall₂_cons.1 h.loops).1.2⟩ (forall₂_cons.1 h.loops).2
 ordered := pairwise_cons.2 ⟨(pairwise_cons.1 h.ordered).1,
  (pairwise_cons.1 h.ordered).2⟩
 behind g hg := by
  rcases mem_cons.1 hg with rfl | hg
  · exact Nat.lt_succ_self _
  · exact Nat.lt_succ_of_lt ((pairwise_cons.1 h.ordered).1 g hg)

theorem At.splice (h : At steps index frames todo loops) {p : Placed} {rest new : List Placed}
  (hp : steps[index]? = some p) (hrun : p.step.type = .runScript) (hnew : new ≠ [])
  (hdeep : ∀ q ∈ new, p.depth < q.depth)
  (hfirst : ∀ q ∈ (steps.drop (index + 1)).head?, q.depth ≤ p.depth)
  (hrest : Inflated (steps.drop (index + 1)) rest) :
  At (steps.take (index + 1) ++ new ++ steps.drop (index + 1)) (index + 1) frames (new ++ rest)
   loops := by
 obtain ⟨hlt, hget⟩ := List.getElem?_eq_some_iff.1 hp
 have hlen : (steps.take index).length = index := by
  rw [length_take]
  omega
 have htake : steps.take (index + 1) = steps.take index ++ [p] := by
  rw [take_add_one, hp]
  rfl
 have hsteps : steps = steps.take index ++ p :: steps.drop (index + 1) := by
  rw [← hget, ← drop_eq_getElem_cons hlt, take_append_drop]
 have hold : ∀ k ≤ index, steps.drop k =
   (steps.take index).drop k ++ p :: steps.drop (index + 1) := by
  intro k hk
  conv_lhs => rw [hsteps]
  rw [drop_append_of_le_length (by omega)]
 have hnewdrop : ∀ k ≤ index,
   (steps.take (index + 1) ++ new ++ steps.drop (index + 1)).drop k =
    (steps.take index).drop k ++ p :: (new ++ steps.drop (index + 1)) := by
  intro k hk
  rw [htake, append_assoc, append_assoc, drop_append_of_le_length (by omega)]
  rfl
 have hlen' : (steps.take (index + 1)).length = index + 1 := by
  rw [length_take]
  omega
 refine ⟨?_, ?_, h.ordered, fun f hf => Nat.lt_succ_of_lt (h.behind f hf)⟩
 · rw [append_assoc, drop_append_of_le_length (by omega),
    drop_of_length_le (by omega), nil_append]
   exact hrest.append new
 · refine ((forall₂_and_left frames loops).2 ⟨h.behind, h.loops⟩).imp ?_
   rintro f l ⟨hlt', hrem, hbody⟩
   rw [hold _ (by omega)] at hbody
   rw [hnewdrop _ (by omega)]
   exact ⟨hrem, hbody.splice hrun hnew hdeep hfirst⟩

end At

section Simulation

variable {σ : Type} (env : Env σ) (script : Script)

/-- The call machine at the runner's data, with its own control state. -/
def view (r : Runner σ) (todo : List Placed) (loops : List Loop) (ifs : List IfFrame) : Calls σ where
 world := r.world
 vars := r.vars
 policy := r.policy
 todo := todo
 loopStack := loops
 ifStack := ifs
 stepAttempt := r.stepAttempt
 trace := r.trace
 ended := r.result.map RunResult.success

/-- The runner belongs to a run of `script` and is running until it has a result. -/
structure Running (r : Runner σ) : Prop where
 id : r.script.id = script.id
 security : r.script.security = script.security
 running : r.isRunning = r.result.isNone

def Related (r : Runner σ) (c : Calls σ) : Prop :=
 ∃ todo loops, c = view r todo loops r.ifStack ∧ Running script r ∧
  At r.steps r.currentIndex r.loopStack todo loops

variable {env script} {r : Runner σ} {t : Tick}

theorem view_advance (note foundBy : Bytes) (r : Runner σ) (todo₀ todo : List Placed)
  (loops : List Loop) (ifs : List IfFrame) :
  view (advance env t note foundBy r) todo loops ifs = (view r todo₀ loops ifs).goOn todo := rfl

theorem view_failed (env : Env σ) (t : Tick) (s : Step) (note foundBy : Bytes) (r : Runner σ) (todo : List Placed)
  (loops : List Loop) (ifs : List IfFrame) :
  view (onStepFinished env t s false note foundBy r) todo loops ifs =
   (view r todo loops ifs).failed s := by
 have hattempt : (view r todo loops ifs).stepAttempt = r.stepAttempt := rfl
 simp only [onStepFinished, Calls.failed, Bool.false_eq_true, ↓reduceIte, hattempt]
 split <;> rfl

theorem Running.result_none (h : Running script r) (hlive : r.isRunning = true) :
  r.result = none := by
 have hnone := h.running
 rw [hlive] at hnone
 exact Option.isNone_iff_eq_none.1 hnone.symm

theorem Running.advance (h : Running script r) (note foundBy : Bytes) :
  Running script (advance env t note foundBy r) := ⟨h.id, h.security, h.running⟩

theorem Running.failed (h : Running script r) (env : Env σ) (t : Tick) (s : Step) (note foundBy : Bytes) :
  Running script (onStepFinished env t s false note foundBy r) := by
 simp only [onStepFinished, Bool.false_eq_true, ↓reduceIte]
 split
 · exact ⟨h.id, h.security, h.running⟩
 · exact ⟨h.id, h.security, rfl⟩

theorem failed_control (env : Env σ) (t : Tick) (s : Step) (note foundBy : Bytes) (r : Runner σ) :
  (onStepFinished env t s false note foundBy r).ifStack = r.ifStack ∧
  (onStepFinished env t s false note foundBy r).loopStack = r.loopStack ∧
  (onStepFinished env t s false note foundBy r).currentIndex = r.currentIndex := by
 simp only [onStepFinished, Bool.false_eq_true, ↓reduceIte]
 split <;> exact ⟨rfl, rfl, rfl⟩

variable {todo₀ : List Placed}

theorem Related.goOn {todo : List Placed} {loops : List Loop} (note foundBy : Bytes)
  (hrun : Running script r) (hat : At r.steps (r.currentIndex + 1) r.loopStack todo loops) :
  Related script (advance env t note foundBy r)
   ((view r todo₀ loops r.ifStack).goOn todo) :=
 ⟨todo, loops, rfl, hrun.advance note foundBy, hat⟩

theorem Related.failed {todo : List Placed} {loops : List Loop} (s : Step) (note foundBy : Bytes)
  (hrun : Running script r) (hat : At r.steps r.currentIndex r.loopStack todo loops) :
  Related script (onStepFinished env t s false note foundBy r)
   ((view r todo loops r.ifStack).failed s) := by
 have hrun' := hrun.failed env t s note foundBy
 have hview := view_failed env t s note foundBy r todo loops r.ifStack
 have hcontrol := failed_control env t s note foundBy r
 refine ⟨todo, loops, ?_, hrun', ?_⟩
 · rw [hcontrol.1, hview]
 · rw [onStepFinished_steps, hcontrol.2.1, hcontrol.2.2]
   exact hat

theorem Related.skip {todo : List Placed} {loops : List Loop}
  (hrun : Running script r) (hat : At r.steps (r.currentIndex + 1) r.loopStack todo loops) :
  Related script { r with currentIndex := r.currentIndex + 1 }
   { view r todo₀ loops r.ifStack with todo := todo } :=
 ⟨todo, loops, rfl, ⟨hrun.id, hrun.security, hrun.running⟩, hat⟩

theorem Related.act {s : Step} {rest : List Placed} {loops : List Loop}
  (hrun : Running script r) (hat : At r.steps r.currentIndex r.loopStack todo₀ loops)
  (hnext : At r.steps (r.currentIndex + 1) r.loopStack rest loops) :
  Related script (doAction env t s r) ((view r todo₀ loops r.ifStack).act env s rest) := by
 simp only [doAction, Calls.act]
 have hend : ((view r todo₀ loops r.ifStack).world = r.world ∧
   (view r todo₀ loops r.ifStack).policy = r.policy ∧
   (view r todo₀ loops r.ifStack).vars = r.vars) := ⟨rfl, rfl, rfl⟩
 rw [hend.1, hend.2.1, hend.2.2]
 generalize env.attempt r.world r.policy r.vars s = a
 have hrun' : Running script { r with
   world := a.world
   vars := a.vars
   currentRunTokens := r.currentRunTokens + a.tokens } := ⟨hrun.id, hrun.security, hrun.running⟩
 cases a.ending with
 | succeeded => exact Related.goOn a.note a.foundBy hrun' hnext
 | failed => exact Related.failed s a.note a.foundBy hrun' hat
 | blocked needsTrust =>
  exact ⟨todo₀, loops, rfl, ⟨hrun.id, hrun.security, rfl⟩, hat⟩

theorem view_child (hrun : Running script r) (s : Step) (todo : List Placed) (loops : List Loop)
  (ifs : List IfFrame) :
  (view r todo loops ifs).child env script.id s = childOf env r s := by
 rw [← hrun.id]
 rfl

theorem view_worldAfterLoad (hrun : Running script r) (s : Step) (todo : List Placed)
  (loops : List Loop) (ifs : List IfFrame) :
  (view r todo loops ifs).worldAfterLoad env script.id s = worldAfterLoad env r s := by
 rw [← hrun.id]
 rfl

variable {p : Placed}

theorem Related.callFailed {todo rest : List Placed} {loops : List Loop}
  (hrun : Running script r) (hload : childOf env r p.step = none)
  (hat : At r.steps r.currentIndex r.loopStack todo loops) :
  Related script (doRunScript env t p r)
   ((view r todo loops r.ifStack).call env script.id p rest) := by
 obtain ⟨note, heq⟩ := doRunScript_eq env t p r
 have hrun' : Running script { r with world := worldAfterLoad env r p.step } :=
  ⟨hrun.id, hrun.security, hrun.running⟩
 rw [heq]
 simp only [Calls.call, view_child hrun, view_worldAfterLoad hrun, hload]
 exact Related.failed p.step note [] hrun' hat

theorem Related.call {rest : List Placed} {loops : List Loop}
  (hrun : Running script r) (hp : r.steps[r.currentIndex]? = some p)
  (htype : p.step.type = .runScript)
  (hfirst : childOf env r p.step ≠ none →
   ∀ q ∈ (r.steps.drop (r.currentIndex + 1)).head?, q.depth ≤ p.depth)
  (hat : At r.steps r.currentIndex r.loopStack (p :: rest) loops)
  (hnext : At r.steps (r.currentIndex + 1) r.loopStack rest loops) :
  Related script (doRunScript env t p r)
   ((view r (p :: rest) loops r.ifStack).call env script.id p rest) := by
 obtain ⟨note, heq⟩ := doRunScript_eq env t p r
 have hrun' : Running script { r with world := worldAfterLoad env r p.step } :=
  ⟨hrun.id, hrun.security, hrun.running⟩
 cases hload : childOf env r p.step with
 | none => exact Related.callFailed hrun hload hat
 | some child =>
  rw [heq]
  simp only [Calls.call, view_child hrun, view_worldAfterLoad hrun, hload]
  by_cases hempty : child.steps = []
  · simp only [hempty, ↓reduceIte]
    exact Related.goOn note [] hrun' hnext
  · simp only [hempty, ↓reduceIte]
    have hplaced : placeChild p child ≠ [] := by simpa [placeChild] using hempty
    have hdeep : ∀ q ∈ placeChild p child, p.depth < q.depth := by
     intro q hq
     obtain ⟨s, -, rfl⟩ := mem_map.1 hq
     exact Nat.lt_succ_self _
    have hsplice := hat.splice hp htype hplaced hdeep (hfirst (by simp [hload])) hnext.todo
    exact ⟨placeChild p child ++ rest, loops, rfl, ⟨hrun.id, hrun.security, hrun.running⟩, hsplice⟩

theorem Related.endLoop {rest : List Placed} {loops : List Loop} {execute : Bool}
  (hrun : Running script r) (htype : p.step.type = .endLoop)
  (hat : At r.steps r.currentIndex r.loopStack (p :: rest) loops)
  (hnext : At r.steps (r.currentIndex + 1) r.loopStack rest loops) :
  Related script (AutomationRunner.perform env t p execute r)
   ((view r (p :: rest) loops r.ifStack).perform env script.id p execute rest) := by
 have hview : (view r (p :: rest) loops r.ifStack).loopStack = loops := rfl
 simp only [AutomationRunner.perform, Calls.perform, htype, hview]
 cases hframes : r.loopStack with
 | nil =>
  have hloops : loops = [] := by simpa [hframes] using hat.loops
  subst hloops
  exact Related.failed p.step _ [] hrun hat
 | cons f fs =>
  rw [hframes] at hat hnext
  cases loops with
  | nil => exact absurd hat.loops (by simp)
  | cons l ls =>
   have hremaining : f.remaining = l.remaining := (forall₂_cons.1 hat.loops).1.1
   simp only [hremaining]
   by_cases hagain : l.remaining - 1 > 0 ∧ execute = true
   · rw [if_pos hagain, if_pos hagain]
     exact ⟨_, _, rfl, ⟨hrun.id, hrun.security, hrun.running⟩, hat.jump _⟩
   · rw [if_neg hagain, if_neg hagain]
     exact ⟨_, _, rfl, ⟨hrun.id, hrun.security, hrun.running⟩, hnext.popLoop⟩

theorem Related.perform {rest : List Placed} {loops : List Loop} {execute : Bool}
  (hrun : Running script r) (hp : r.steps[r.currentIndex]? = some p)
  (hfirst : p.step.type = .runScript → execute = true → childOf env r p.step ≠ none →
   ∀ q ∈ (r.steps.drop (r.currentIndex + 1)).head?, q.depth ≤ p.depth)
  (hat : At r.steps r.currentIndex r.loopStack (p :: rest) loops)
  (hrest : Inflated (r.steps.drop (r.currentIndex + 1)) rest) :
  Related script (perform env t p execute r)
   ((view r (p :: rest) loops r.ifStack).perform env script.id p execute rest) := by
 have hnext : At r.steps (r.currentIndex + 1) r.loopStack rest loops :=
  hat.move (Nat.le_succ _) hrest
 by_cases hend : p.step.type = .endLoop
 · exact Related.endLoop hrun hend hat hnext
 unfold AutomationRunner.perform Calls.perform
 cases htype : p.step.type with
 | if_ => exact ⟨rest, loops, rfl, ⟨hrun.id, hrun.security, hrun.running⟩, hnext⟩
 | else_ => exact ⟨rest, loops, rfl, ⟨hrun.id, hrun.security, hrun.running⟩, hnext⟩
 | endIf => exact ⟨rest, loops, rfl, ⟨hrun.id, hrun.security, hrun.running⟩, hnext⟩
 | loop =>
  exact ⟨rest, _, rfl, ⟨hrun.id, hrun.security, hrun.running⟩, hat.pushLoop _ hrest⟩
 | endLoop => exact absurd htype hend
 | runScript =>
  cases execute with
  | false => exact Related.skip hrun hnext
  | true => exact Related.call hrun hp htype (hfirst htype rfl) hat hnext
 | unknown =>
  cases execute with
  | false => exact Related.skip hrun hnext
  | true => exact Related.failed p.step _ [] hrun hat
 | navigate | click | type | scroll | keypress | wait | waitFor | extract | aiExtract | aiDecide
 | assert | notify | screenshot | runJs | callTool =>
  cases execute with
  | false => exact Related.skip hrun hnext
  | true => exact Related.act hrun hat hnext

/-! ## Left-over steps in a branch not taken -/

/-- Passing the steps over changes neither stack in the end, nor what lies under it meanwhile;
`ifs` and `loops` count what was put on them so far. -/
def passes : List Placed → ℕ → ℕ → Bool
 | [], ifs, loops => ifs = 0 ∧ loops = 0
 | p :: ps, ifs, loops =>
  match p.step.type with
  | .if_ => passes ps (ifs + 1) loops
  | .else_ => decide (0 < ifs) && passes ps ifs loops
  | .endIf => decide (0 < ifs) && passes ps (ifs - 1) loops
  | .loop => passes ps ifs (loops + 1)
  | .endLoop => decide (0 < loops) && passes ps ifs (loops - 1)
  | _ => passes ps ifs loops

/-- The runner passes over `region`, left over from an earlier expansion, while the call machine
waits behind it. -/
structure Passing (script : Script) (region : List Placed) (r : Runner σ) (c : Calls σ)
  (newIfs ifs : List IfFrame) (newFrames frames : List LoopFrame) (todo : List Placed)
  (loops : List Loop) : Prop where
 view_eq : c = view r todo loops ifs
 running : Running script r
 attempt : r.stepAttempt = 0
 ifStack : r.ifStack = newIfs ++ ifs
 loopStack : r.loopStack = newFrames ++ frames
 skipped : shouldExecuteCurrentStep ifs = false
 passes_region : passes region newIfs.length newFrames.length = true
 ahead : ∃ rest, r.steps.drop r.currentIndex = region ++ rest
 at_end : At r.steps (r.currentIndex + region.length) frames todo loops

section Passing

variable {c : Calls σ} {newIfs ifs : List IfFrame} {newFrames frames : List LoopFrame}
 {todo : List Placed} {loops : List Loop}

theorem Passing.related (h : Passing script [] r c newIfs ifs newFrames frames todo loops) :
  Related script r c := by
 have hzero : newIfs.length = 0 ∧ newFrames.length = 0 := by simpa [passes] using h.passes_region
 have hifs : r.ifStack = ifs := by simpa [length_eq_zero_iff.1 hzero.1] using h.ifStack
 have hframes : r.loopStack = frames := by
  simpa [length_eq_zero_iff.1 hzero.2] using h.loopStack
 refine ⟨todo, loops, ?_, h.running, ?_⟩
 · rw [hifs]
   exact h.view_eq
 · rw [hframes]
   exact h.at_end

theorem Passing.step {p : Placed} {region : List Placed} {r' : Runner σ}
  (h : Passing script (p :: region) r c newIfs ifs newFrames frames todo loops)
  {newIfs' : List IfFrame} {newFrames' : List LoopFrame}
  (hview : view r' todo loops ifs = view r todo loops ifs) (hrun : Running script r')
  (hattempt : r'.stepAttempt = 0) (hsteps : r'.steps = r.steps)
  (hindex : r'.currentIndex = r.currentIndex + 1) (hifs : r'.ifStack = newIfs' ++ ifs)
  (hframes : r'.loopStack = newFrames' ++ frames)
  (hpass : passes region newIfs'.length newFrames'.length = true) :
  Passing script region r' c newIfs' ifs newFrames' frames todo loops where
 view_eq := h.view_eq.trans hview.symm
 running := hrun
 attempt := hattempt
 ifStack := hifs
 loopStack := hframes
 skipped := h.skipped
 passes_region := hpass
 ahead := by
  obtain ⟨rest, hahead⟩ := h.ahead
  refine ⟨rest, ?_⟩
  rw [hsteps, hindex, ← tail_drop, hahead]
  rfl
 at_end := by
  have hend := h.at_end
  rw [length_cons, Nat.add_comm region.length 1, ← Nat.add_assoc] at hend
  rw [hsteps, hindex]
  exact hend

theorem Passing.perform (env : Env σ) (t : Tick) {p : Placed} {region : List Placed}
  (h : Passing script (p :: region) r c newIfs ifs newFrames frames todo loops) :
  ∃ newIfs' newFrames', Passing script region (AutomationRunner.perform env t p false r) c newIfs'
   ifs newFrames' frames todo loops := by
 have hrun := h.running
 have hadvance : ∀ (note : Bytes) (ifStack : List IfFrame) (loopStack : List LoopFrame),
   view (advance env t note [] { r with ifStack := ifStack, loopStack := loopStack }) todo loops
    ifs = view r todo loops ifs := by
  intro note ifStack loopStack
  rw [view_advance _ _ _ todo todo]
  simp only [view, Calls.goOn, h.attempt]
 have hifs := h.ifStack
 have hframes := h.loopStack
 have hpass := h.passes_region
 unfold passes at hpass
 unfold AutomationRunner.perform
 cases htype : p.step.type with
 | if_ =>
  simp only [htype] at hpass
  exact ⟨_ :: newIfs, newFrames, h.step (hadvance _ _ _) ⟨hrun.id, hrun.security, hrun.running⟩
   rfl rfl rfl (congrArg _ hifs) hframes hpass⟩
 | else_ =>
  simp only [htype, Bool.and_eq_true, decide_eq_true_eq] at hpass
  cases newIfs with
  | nil => exact absurd hpass.1 (by simp)
  | cons f fs =>
   simp only [hifs, cons_append]
   exact ⟨{ f with inElse := true } :: fs, newFrames, h.step (hadvance _ _ _)
    ⟨hrun.id, hrun.security, hrun.running⟩ rfl rfl rfl rfl hframes hpass.2⟩
 | endIf =>
  simp only [htype, Bool.and_eq_true, decide_eq_true_eq] at hpass
  cases newIfs with
  | nil => exact absurd hpass.1 (by simp)
  | cons f fs =>
   simp only [hifs, cons_append, tail_cons]
   exact ⟨fs, newFrames, h.step (hadvance _ _ _) ⟨hrun.id, hrun.security, hrun.running⟩
    rfl rfl rfl rfl hframes hpass.2⟩
 | loop =>
  simp only [htype] at hpass
  exact ⟨newIfs, _ :: newFrames, h.step (hadvance _ _ _) ⟨hrun.id, hrun.security, hrun.running⟩
   rfl rfl rfl hifs (congrArg _ hframes) hpass⟩
 | endLoop =>
  simp only [htype, Bool.and_eq_true, decide_eq_true_eq] at hpass
  cases newFrames with
  | nil => exact absurd hpass.1 (by simp)
  | cons f fs =>
   simp only [hframes, cons_append, Bool.false_eq_true, and_false, ↓reduceIte]
   exact ⟨newIfs, fs, h.step (hadvance _ _ _) ⟨hrun.id, hrun.security, hrun.running⟩
    rfl rfl rfl hifs rfl hpass.2⟩
 | navigate | click | type | scroll | keypress | wait | waitFor | extract | aiExtract | aiDecide
 | assert | notify | screenshot | runJs | runScript | callTool | unknown =>
  simp only [htype] at hpass
  exact ⟨newIfs, newFrames, h.step rfl ⟨hrun.id, hrun.security, hrun.running⟩ h.attempt rfl rfl
   hifs hframes hpass⟩

end Passing

/-- A step under way for the second time is being executed, or an END_LOOP that fails. -/
def Settled (r : Runner σ) : Prop :=
 r.stepAttempt = 0 ∨ shouldExecuteCurrentStep r.ifStack = true ∨
  ∃ p, r.steps[r.currentIndex]? = some p ∧ p.step.type = .endLoop

theorem Settled.failed (s : Step) (note foundBy : Bytes)
  (h : shouldExecuteCurrentStep r.ifStack = true) :
  Settled (onStepFinished env t s false note foundBy r) :=
 .inr (.inl (by rw [(failed_control env t s note foundBy r).1, h]))

theorem Settled.act (s : Step) (h : shouldExecuteCurrentStep r.ifStack = true) :
  Settled (doAction env t s r) := by
 simp only [doAction]
 split
 · exact .inl rfl
 · exact Settled.failed s _ _ h
 · exact .inl rfl

theorem Settled.call (p : Placed) (h : shouldExecuteCurrentStep r.ifStack = true) :
  Settled (doRunScript env t p r) := by
 obtain ⟨note, heq⟩ := doRunScript_eq env t p r
 rw [heq]
 split
 · exact Settled.failed p.step note [] h
 · split
   · exact .inl rfl
   · exact .inl rfl

theorem Settled.perform (h : Settled r) (hp : r.steps[r.currentIndex]? = some p) :
  Settled (AutomationRunner.perform env t p (shouldExecuteCurrentStep r.ifStack) r) := by
 have hskip : p.step.type ≠ .endLoop → shouldExecuteCurrentStep r.ifStack = false →
   Settled { r with currentIndex := r.currentIndex + 1 } := by
  intro htype hskip
  rcases h with hzero | hexec | ⟨q, hq, hend⟩
  · exact .inl hzero
  · exact absurd hexec (by simp [hskip])
  · rw [hp] at hq
    cases hq
    exact absurd hend htype
 unfold AutomationRunner.perform
 cases htype : p.step.type with
 | if_ | else_ | endIf | loop => exact .inl rfl
 | endLoop =>
  cases hframes : r.loopStack with
  | nil =>
   have hcontrol := failed_control env t p.step "END_LOOP without LOOP" [] r
   refine .inr (.inr ⟨p, ?_, htype⟩)
   simp only [onStepFinished_steps, hcontrol.2.2]
   exact hp
  | cons f fs =>
   dsimp only
   split
   · exact .inl rfl
   · exact .inl rfl
 | runScript =>
  cases hexec : shouldExecuteCurrentStep r.ifStack with
  | false => exact hskip (by simp [htype]) hexec
  | true => exact Settled.call p hexec
 | unknown =>
  cases hexec : shouldExecuteCurrentStep r.ifStack with
  | false => exact hskip (by simp [htype]) hexec
  | true => exact Settled.failed p.step _ [] hexec
 | navigate | click | type | scroll | keypress | wait | waitFor | extract | aiExtract | aiDecide
 | assert | notify | screenshot | runJs | callTool =>
  cases hexec : shouldExecuteCurrentStep r.ifStack with
  | false => exact hskip (by simp [htype]) hexec
  | true => exact Settled.act p.step hexec

/-! ## Every call once -/

/-- The steps that an earlier expansion of the RUN_SCRIPT step `p` left after it. -/
def leftOver (r : Runner σ) (p : Placed) : List Placed :=
 (r.steps.drop (r.currentIndex + 1)).takeWhile fun q => p.depth < q.depth

variable (env) in
/-- A RUN_SCRIPT step that was expanded before is not expanded again, and where it is passed over
the steps it left are well nested. -/
def CallsOnce (r : Runner σ) (t : Tick) : Prop :=
 ∀ p ∈ dispatched t r, p.step.type = .runScript → leftOver r p ≠ [] →
  if shouldExecuteCurrentStep r.ifStack then childOf env r p.step = none
  else passes (leftOver r p) 0 0 = true

variable (script) in
def Follows (r : Runner σ) (c : Calls σ) : Prop :=
 Related script r c ∨ ∃ p region newIfs ifs newFrames frames todo loops,
  Passing script (p :: region) r c newIfs ifs newFrames frames todo loops

theorem dispatched_spec (h : dispatched t r = some p) :
  r.steps[r.currentIndex]? = some p ∧ r.isRunning = true := by
 unfold dispatched at h
 split at h
 · next hgo => exact ⟨h, hgo.1⟩
 · cases h

theorem drop_of_getElem? {l : List Placed} {i : ℕ} (h : l[i]? = some p) :
  l.drop i = p :: l.drop (i + 1) := by
 obtain ⟨hlt, hget⟩ := List.getElem?_eq_some_iff.1 h
 rw [drop_eq_getElem_cons hlt, hget]

theorem takeWhile_region {region flat : List Placed}
  (hdeep : ∀ q ∈ region, p.depth < q.depth) (hhead : ∀ q ∈ flat.head?, q.depth ≤ p.depth) :
  (region ++ flat).takeWhile (fun q => decide (p.depth < q.depth)) = region := by
 rw [takeWhile_append_of_pos (by simpa using hdeep)]
 cases flat with
 | nil => simp
 | cons q flat =>
  have hq := hhead q rfl
  simp [hq]

theorem step_view (hrun : Running script r) (hlive : r.isRunning = true) (p : Placed)
  (rest : List Placed) (loops : List Loop) :
  (view r (p :: rest) loops r.ifStack).step env script.id =
   Calls.perform env script.id (view { r with
    trace := if shouldExecuteCurrentStep r.ifStack then r.trace ++ [p] else r.trace }
    (p :: rest) loops r.ifStack) p (shouldExecuteCurrentStep r.ifStack) rest := by
 simp only [Calls.step, view, hrun.result_none hlive, Option.map_none, Option.isSome_none, Bool.false_eq_true,
  ↓reduceIte]

theorem Related.dispatch {c : Calls σ} (h : Related script r c) (hset : Settled r)
  (hp : dispatched t r = some p) (hcond : CallsOnce env r t) :
  Follows script (dispatch env t p r) (c.step env script.id) := by
 obtain ⟨todo, loops, rfl, hrun, hat⟩ := h
 obtain ⟨hget, hlive⟩ := dispatched_spec hp
 have hdrop := drop_of_getElem? hget
 have htodo := hat.todo
 have hcond := hcond p hp
 have hrun' : Running script { r with
   trace := if shouldExecuteCurrentStep r.ifStack then r.trace ++ [p] else r.trace } :=
  ⟨hrun.id, hrun.security, hrun.running⟩
 rw [hdrop] at htodo
 generalize hflat : r.steps.drop (r.currentIndex + 1) = flat at htodo
 cases htodo with
 | keep _ hrest =>
  left
  rw [step_view hrun hlive]
  refine Related.perform hrun' hget ?_ hat (hflat ▸ hrest)
  intro htype hexec hload q hq
  by_contra hdeep
  -- The step after `p` is deeper: `p` was expanded before, and may not be again.
  have hleft : leftOver r p ≠ [] := by
   unfold leftOver
   cases hlist : r.steps.drop (r.currentIndex + 1) with
   | nil => simp [hlist] at hq
   | cons x xs =>
    have hx : x = q := by simpa [hlist] using hq
    rw [takeWhile_cons_of_pos (by simpa [hx] using hdeep)]
    exact cons_ne_nil _ _
  have := hcond htype hleft
  rw [if_pos hexec] at this
  exact hload this
 | @stale _ region flat' rest htype hregion hdeep hhead hrest =>
  have hleft : leftOver r p = region := by
   rw [leftOver, hflat]
   exact takeWhile_region hdeep hhead
  have hcond := hcond htype (hleft ▸ hregion)
  rw [step_view hrun hlive]
  cases hexec : shouldExecuteCurrentStep r.ifStack with
  | true =>
   left
   rw [hexec, if_pos rfl] at hcond
   simp only [AutomationRunner.dispatch, hexec, AutomationRunner.perform, Calls.perform, htype]
   rw [hexec] at hrun'
   exact Related.callFailed hrun' hcond hat
  | false =>
   right
   rw [hexec, if_neg (by simp), hleft] at hcond
   have hzero : r.stepAttempt = 0 := by
    rcases hset with hzero | htrue | ⟨q, hq, hend⟩
    · exact hzero
    · exact absurd htrue (by simp [hexec])
    · rw [hget] at hq
      cases hq
      exact absurd hend (by simp [htype])
   obtain ⟨x, xs, rfl⟩ := exists_cons_of_ne_nil hregion
   refine ⟨x, xs, [], r.ifStack, [], r.loopStack, rest, loops, ?_⟩
   simp only [AutomationRunner.dispatch, hexec, AutomationRunner.perform, Calls.perform, htype,
    Bool.false_eq_true, ↓reduceIte]
   refine ⟨rfl, ⟨hrun.id, hrun.security, hrun.running⟩, hzero, rfl, rfl, hexec, hcond,
    ⟨flat', hflat⟩, hat.move (by dsimp only; omega) ?_⟩
   rw [← drop_drop, hflat, drop_left]
   exact hrest

theorem Passing.dispatch {c : Calls σ} {q : Placed} {region : List Placed}
  {newIfs ifs : List IfFrame} {newFrames frames : List LoopFrame} {todo : List Placed}
  {loops : List Loop}
  (h : Passing script (q :: region) r c newIfs ifs newFrames frames todo loops)
  (hp : dispatched t r = some p) : Follows script (dispatch env t p r) c := by
 obtain ⟨hget, -⟩ := dispatched_spec hp
 have hpq : p = q := by
  obtain ⟨rest, hahead⟩ := h.ahead
  rw [drop_of_getElem? hget] at hahead
  exact (List.cons.inj hahead).1
 subst hpq
 have hexec : shouldExecuteCurrentStep r.ifStack = false := by
  have hskip := h.skipped
  unfold shouldExecuteCurrentStep at hskip ⊢
  rw [h.ifStack, all_append, hskip, Bool.and_false]
 obtain ⟨newIfs', newFrames', hnext⟩ := h.perform env t
 have heq : AutomationRunner.dispatch env t p r = AutomationRunner.perform env t p false r := by
  simp only [AutomationRunner.dispatch, hexec, Bool.false_eq_true, ↓reduceIte]
 rw [heq]
 cases region with
 | nil => exact .inl hnext.related
 | cons x xs => exact .inr ⟨x, xs, newIfs', ifs, newFrames', frames, todo, loops, hnext⟩

theorem Follows.trace_eq {c : Calls σ} (h : Follows script r c) : r.trace = c.trace := by
 rcases h with ⟨todo, loops, rfl, -, -⟩ | ⟨_, _, _, _, _, _, _, _, h⟩
 · rfl
 · rw [h.view_eq]
   rfl

theorem Follows.ended_eq {c : Calls σ} (h : Follows script r c) :
  r.result.map RunResult.success = c.ended := by
 rcases h with ⟨todo, loops, rfl, -, -⟩ | ⟨_, _, _, _, _, _, _, _, h⟩
 · rfl
 · rw [h.view_eq]
   rfl

theorem Follows.dispatch {c : Calls σ} (h : Follows script r c) (hset : Settled r)
  (hp : dispatched t r = some p) (hcond : CallsOnce env r t) :
  ∃ n, Follows script (dispatch env t p r) ((Calls.step env script.id)^[n] c) := by
 rcases h with h | ⟨_, _, _, _, _, _, _, _, h⟩
 · exact ⟨1, h.dispatch hset hp hcond⟩
 · exact ⟨0, h.dispatch hp⟩

def Quiet (script : Script) (t : Tick) : Prop :=
 t.cancelRequested = false ∧ t.elapsedMs.tdiv 1000 ≤ script.security.maxRuntimeSeconds.toInt

/-- A tick without a dispatch that does not break the run off: it is over, or completes. -/
theorem Related.complete {c : Calls σ} (h : Related script r c) (hquiet : Quiet script t)
  (hp : dispatched t r = none) :
  Related script (executeNextStep env t r) (c.step env script.id) := by
 obtain ⟨todo, loops, rfl, hrun, hat⟩ := h
 cases hlive : r.isRunning with
 | false =>
  have hresult : r.result.isSome = true := by
   have hnone := hrun.running
   rw [hlive] at hnone
   exact Option.isSome_iff_ne_none.2 fun h => by simp [h] at hnone
  have hended : (view r todo loops r.ifStack).ended.isSome = true := by
   rw [view, Option.isSome_map, hresult]
  refine ⟨todo, loops, ?_, ?_, ?_⟩
  · simp only [executeNextStep, hlive, Calls.step, hended, Bool.not_false, ↓reduceIte]
  · simpa only [executeNextStep, hlive, Bool.not_false, ↓reduceIte] using hrun
  · simpa only [executeNextStep, hlive, Bool.not_false, ↓reduceIte] using hat
 | true =>
  have hget : r.steps[r.currentIndex]? = none := by
   simpa only [dispatched, hlive, hrun.security, hquiet.1, hquiet.2, and_self, ↓reduceIte]
    using hp
  have hdrop : r.steps.drop r.currentIndex = [] :=
   drop_of_length_le (List.getElem?_eq_none_iff.1 hget)
  have htodo : todo = [] := by
   have hnil := hat.todo
   rw [hdrop] at hnil
   cases hnil
   rfl
  subst htodo
  have hexec : executeNextStep env t r = finish t true "Completed" r := by
   simp only [executeNextStep, hlive, hquiet.1, hget, Bool.not_true, Bool.false_eq_true,
    ↓reduceIte]
  rw [hexec]
  refine ⟨[], loops, ?_, ⟨hrun.id, hrun.security, rfl⟩, hat⟩
  simp only [Calls.step, view, hrun.result_none hlive, Option.map_none, Option.isSome_none,
   Bool.false_eq_true, ↓reduceIte]
  rfl

theorem Follows.complete {c : Calls σ} (h : Follows script r c) (hquiet : Quiet script t)
  (hp : dispatched t r = none) :
  ∃ n, Follows script (executeNextStep env t r) ((Calls.step env script.id)^[n] c) := by
 rcases h with h | ⟨p, region, newIfs, ifs, newFrames, frames, todo, loops, h⟩
 · exact ⟨1, .inl (h.complete hquiet hp)⟩
 · refine ⟨0, .inr ⟨p, region, newIfs, ifs, newFrames, frames, todo, loops, ?_⟩⟩
   cases hlive : r.isRunning with
   | false =>
    simpa only [executeNextStep, hlive, Bool.not_false, ↓reduceIte, Function.iterate_zero, id_eq]
     using h
   | true =>
    obtain ⟨rest, hahead⟩ := h.ahead
    have hget : r.steps[r.currentIndex]? = none := by
     simpa only [dispatched, hlive, h.running.security, hquiet.1, hquiet.2, and_self, ↓reduceIte]
      using hp
    rw [drop_of_length_le (List.getElem?_eq_none_iff.1 hget)] at hahead
    cases hahead

theorem Settled.dispatch (h : Settled r) (hp : dispatched t r = some p) :
  Settled (dispatch env t p r) :=
 Settled.perform (r := { r with
  trace := if shouldExecuteCurrentStep r.ifStack then r.trace ++ [p] else r.trace }) h
  (dispatched_spec hp).1

theorem Follows.executeNextStep {c : Calls σ} {n : ℕ}
  (h : Follows script r ((Calls.step env script.id)^[n] c)) (hset : Settled r)
  (hcond : CallsOnce env r t) (hquiet : Quiet script t) :
  Settled (AutomationRunner.executeNextStep env t r) ∧
   ∃ m, Follows script (AutomationRunner.executeNextStep env t r)
    ((Calls.step env script.id)^[m] c) := by
 cases hp : dispatched t r with
 | some p =>
  rw [executeNextStep_of_dispatched env hp]
  obtain ⟨m, hnext⟩ := h.dispatch hset hp hcond
  rw [← Function.iterate_add_apply] at hnext
  exact ⟨hset.dispatch hp, _, hnext⟩
 | none =>
  obtain ⟨m, hnext⟩ := h.complete hquiet hp
  rw [← Function.iterate_add_apply] at hnext
  refine ⟨?_, _, hnext⟩
  rcases executeNextStep_of_not_dispatched env hp with ⟨-, heq⟩ | ⟨success, message, heq⟩
  · rw [heq]
    exact hset
  · rw [heq]
    exact hset

variable (env script) in
def start (startIndex : ℕ) (r : Runner σ) : Calls σ where
 world := r.world
 vars := script.defaultVariables.entries.foldl (fun vars kv => vars.insert kv.1 (.string kv.2))
  .empty
 policy := effectivePolicy env.navigationHost script
 todo := (script.steps.map fun s => ⟨s, script, 0⟩).drop
  (if startIndex < script.steps.length then startIndex else 0)
 stepAttempt := r.stepAttempt

theorem Related.start (env : Env σ) (t : Tick) (startIndex : ℕ) (hidle : r.isRunning = false)
  (hdraft : script.security.sitesUnconfirmed = false) (hvoice : hasVoiceSteps script = false) :
  Related script (run env t script startIndex r) (start env script startIndex r) := by
 simp only [run, hidle, hdraft, hvoice, Bool.false_eq_true, ↓reduceIte]
 exact ⟨_, [], rfl, ⟨rfl, rfl, rfl⟩, ⟨Inflated.refl _, .nil, .nil, fun f hf => by cases hf⟩⟩

theorem Settled.start (env : Env σ) (t : Tick) (startIndex : ℕ) (hidle : r.isRunning = false) :
  Settled (run env t script startIndex r) := by
 refine .inr (.inl ?_)
 simp only [run, hidle, Bool.false_eq_true, ↓reduceIte]
 split
 · rfl
 · split
   · rfl
   · rfl

theorem refused (env : Env σ) (t : Tick) (startIndex : ℕ) (hidle : r.isRunning = false)
  (hrefused : ¬ (script.security.sitesUnconfirmed = false ∧ hasVoiceSteps script = false)) :
  (run env t script startIndex r).isRunning = false ∧
   (run env t script startIndex r).trace = [] := by
 simp only [run, hidle, Bool.false_eq_true, ↓reduceIte]
 cases hdraft : script.security.sitesUnconfirmed with
 | true => exact ⟨rfl, rfl⟩
 | false =>
  cases hvoice : hasVoiceSteps script with
  | true => exact ⟨rfl, rfl⟩
  | false => exact absurd ⟨hdraft, hvoice⟩ hrefused

end Simulation

/-- The runner is where the call machine was after some steps, or has broken the run off there. -/
structure Tracks {σ : Type} (env : Env σ) (script : Script) (c : Calls σ) (r : Runner σ) : Prop where
 trace : ∃ n, r.trace = ((Calls.step env script.id)^[n] c).trace
 follows : r.isRunning = true →
  Settled r ∧ ∃ n, Follows script r ((Calls.step env script.id)^[n] c)

theorem Tracks.executeNextStep {σ : Type} {env : Env σ} {script : Script} {c : Calls σ}
  {r : Runner σ} (h : Tracks env script c r) (t : Tick) (hcond : CallsOnce env r t) :
  Tracks env script c (executeNextStep env t r) := by
 cases hp : dispatched t r with
 | some p =>
  rw [executeNextStep_of_dispatched env hp]
  obtain ⟨hset, n, hfollows⟩ := h.follows (dispatched_spec hp).2
  obtain ⟨m, hnext⟩ := hfollows.dispatch hset hp hcond
  rw [← Function.iterate_add_apply] at hnext
  exact ⟨⟨_, hnext.trace_eq⟩, fun _ => ⟨hset.dispatch hp, _, hnext⟩⟩
 | none =>
  rcases executeNextStep_of_not_dispatched env hp with ⟨-, heq⟩ | ⟨success, message, heq⟩
  · rw [heq]
    exact h
  · rw [heq]
    exact ⟨h.trace, fun hrun => by cases hrun⟩

/-- A run executes what the call machine executes, as long as no dispatch expands a RUN_SCRIPT
step again; and it ends as the call machine does when nothing breaks it off. -/
theorem runs_are_calls {σ : Type} (env : Env σ) (script : Script) (startIndex : ℕ) (t : Tick)
  (r : Runner σ) (ticks : List Tick) (hidle : r.isRunning = false)
  (hcond : TransitionRuns.Along (fun r t => executeNextStep env t r) (CallsOnce env)
   (run env t script startIndex r) ticks) :
  (∃ n, (dispatches env (run env t script startIndex r) ticks).trace =
   ((Calls.step env script.id)^[n] (start env script startIndex r)).trace) ∧
  (script.security.sitesUnconfirmed = false → hasVoiceSteps script = false →
   (∀ tick ∈ ticks, Quiet script tick) →
   ∃ n, (dispatches env (run env t script startIndex r) ticks).trace =
     ((Calls.step env script.id)^[n] (start env script startIndex r)).trace ∧
    (dispatches env (run env t script startIndex r) ticks).result.map RunResult.success =
     ((Calls.step env script.id)^[n] (start env script startIndex r)).ended) := by
 constructor
 · have htracks : Tracks env script (start env script startIndex r)
     (dispatches env (run env t script startIndex r) ticks) := by
    refine TransitionRuns.run_invariant (I := Tracks env script (start env script startIndex r))
     (fun _ t h hc => h.executeNextStep t hc) ?_ hcond
    by_cases haccepted : script.security.sitesUnconfirmed = false ∧ hasVoiceSteps script = false
    · have hfollows : Follows script (run env t script startIndex r)
        (start env script startIndex r) :=
       .inl (Related.start env t startIndex hidle haccepted.1 haccepted.2)
      exact ⟨⟨0, hfollows.trace_eq⟩, fun _ => ⟨Settled.start env t startIndex hidle, 0, hfollows⟩⟩
    · obtain ⟨hover, htrace⟩ := refused env t startIndex hidle haccepted
      exact ⟨⟨0, htrace⟩, fun hrun => by simp [hover] at hrun⟩
   exact htracks.trace
 · intro hdraft hvoice hquiet
   have hfollows : Settled (dispatches env (run env t script startIndex r) ticks) ∧
     ∃ n, Follows script (dispatches env (run env t script startIndex r) ticks)
      ((Calls.step env script.id)^[n] (start env script startIndex r)) := by
    refine TransitionRuns.run_invariant (I := fun r' => Settled r' ∧ ∃ n, Follows script r'
     ((Calls.step env script.id)^[n] (start env script startIndex r)))
     (fun r' t h hc => ?_) ?_
     (TransitionRuns.along_and hcond (TransitionRuns.along_of_forall_mem hquiet))
    · obtain ⟨hset, n, hfollows⟩ := h
      exact hfollows.executeNextStep hset hc.1 hc.2
    · exact ⟨Settled.start env t startIndex hidle, 0,
       .inl (Related.start env t startIndex hidle hdraft hvoice)⟩
   obtain ⟨-, n, hfollows⟩ := hfollows
   exact ⟨n, hfollows.trace_eq, hfollows.ended_eq⟩

section Samples

def childScript : Script := { id := "child", steps := [{ type := .click }] }

def callEnv : Env Unit where
 render _ := []
 navigationHost _ := none
 hasStorage := true
 attempt _ _ vars _ := { ending := .succeeded, vars := vars, world := () }
 load _ id := (.loaded (if id = "child" then some childScript else none), ())

def callOnceScript : Script where
 id := "once"
 steps := [{ type := .runScript, target := "child" }, { type := .notify }]

theorem runs_are_calls_sample :
  TransitionRuns.Along (fun r t => executeNextStep callEnv t r) (CallsOnce callEnv)
   (run callEnv {} callOnceScript 0 { world := () }) [{}, {}, {}] ∧
  ∃ n, (dispatches callEnv (run callEnv {} callOnceScript 0 { world := () })
    [{}, {}, {}]).trace =
   ((Calls.step callEnv "once")^[n] (start callEnv callOnceScript 0 { world := () })).trace := by
 have hcond : TransitionRuns.Along (fun r t => executeNextStep callEnv t r) (CallsOnce callEnv)
   (run callEnv {} callOnceScript 0 { world := () }) [{}, {}, {}] := by
  refine ⟨?_, ?_, ?_, trivial⟩
  · intro p hp htype hleft
    cases hp
    exact absurd rfl hleft
  · intro p hp htype
    cases hp
    cases htype
  · intro p hp htype
    cases hp
    cases htype
 exact ⟨hcond, (runs_are_calls callEnv callOnceScript 0 {} { world := () } [{}, {}, {}] rfl
  hcond).1⟩

def loopScript : Script where
 id := "loop"
 steps := [{ type := .loop, maxIterations := 2 }, { type := .runScript, target := "child" },
  { type := .notify }, { type := .endLoop }]

/-- In the second turn the child runs twice. -/
theorem child_runs_twice : ¬ ∃ n,
  (dispatches callEnv (run callEnv {} loopScript 0 { world := () })
   (List.replicate 10 {})).trace =
  ((Calls.step callEnv "loop")^[n] (start callEnv loopScript 0 { world := () })).trace := by
 rintro ⟨n, hn⟩
 have hrunner : (dispatches callEnv (run callEnv {} loopScript 0 { world := () })
   (List.replicate 10 {})).trace.length = 10 := by decide
 -- The call machine is through after ten steps, with one step fewer.
 have hfixed : Function.IsFixedPt (Calls.step callEnv "loop")
   ((Calls.step callEnv "loop")^[10] (start callEnv loopScript 0 { world := () })) := by
  unfold Function.IsFixedPt
  generalize hc : (Calls.step callEnv "loop")^[10] (start callEnv loopScript 0
   { world := () }) = c
  have hended : c.ended = some true := by
   rw [← hc]
   decide
  simp only [Calls.step, hended, Option.isSome_some, ↓reduceIte]
 have hcalls : ((Calls.step callEnv "loop")^[n]
   (start callEnv loopScript 0 { world := () })).trace.length ≤ 9 := by
  by_cases hlt : n < 10
  · interval_cases n <;> decide
  · obtain ⟨k, rfl⟩ := Nat.exists_eq_add_of_le (not_lt.1 hlt)
    rw [Nat.add_comm, Function.iterate_add_apply, hfixed.iterate k]
    decide
 rw [← hn, hrunner] at hcalls
 omega

end Samples

end MoltBrowser.AutomationRunnerCalls
