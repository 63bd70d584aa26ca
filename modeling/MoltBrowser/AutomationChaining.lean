import MoltBrowser.AutomationRunner
import MoltBrowser.GrowingWalks

set_option autoImplicit false

/-!
# Scripts that run scripts (`DoRunScript`, `OnChildLoaded`)

RUN_SCRIPT refuses the id of the running script and no other. Beside a run, each step of its list
keeps the ids of the scripts whose expansion led to it, the latest first.
-/
namespace MoltBrowser.AutomationChaining
open AutomationScript AutomationSecurity AutomationRunner SortedTable List

section Runs

variable {σ : Type} (env : Env σ)

structure Chained (σ : Type) where
 runner : Runner σ
 items : List (Placed × List Bytes)

def chainChild (x : Placed × List Bytes) (childId : Bytes) (child : Script) : List (Placed × List Bytes) :=
 (placeChild x.1 child).map fun q => (q, childId :: x.2)

def Chained.extended (t : Tick) (c : Chained σ) : List (Placed × List Bytes) :=
 match dispatched t c.runner, c.items[c.runner.currentIndex]? with
 | some p, some x =>
  match expansion env p c.runner with
  | some child =>
   c.items.take (c.runner.currentIndex + 1) ++
    (chainChild x (resolve env.render c.runner.vars p.step.target) child ++
     c.items.drop (c.runner.currentIndex + 1))
  | none => c.items
 | _, _ => c.items

def Chained.next (t : Tick) (c : Chained σ) : Chained σ := ⟨executeNextStep env t c.runner, c.extended env t⟩

def Chained.start (t : Tick) (script : Script) (startIndex : ℕ) (r : Runner σ) : Chained σ :=
 ⟨run env t script startIndex r, script.steps.map fun s => (⟨s, script, 0⟩, [script.id])⟩

/-- After `n` calls of `ExecuteNextStep`. -/
def Chained.after (ticks : ℕ → Tick) (c : Chained σ) : ℕ → Chained σ
 | 0 => c
 | n + 1 => (Chained.after ticks c n).next env (ticks n)

/-- The id that the RUN_SCRIPT step executed now refers to. -/
def reference (t : Tick) (r : Runner σ) : Option Bytes :=
 (dispatched t r).bind fun p =>
  if p.step.type = .runScript ∧ shouldExecuteCurrentStep r.ifStack then
   some (resolve env.render r.vars p.step.target)
  else none

def Chained.chain (c : Chained σ) : List Bytes := (c.items[c.runner.currentIndex]?.map Prod.snd).getD []

def RefusesBack (t : Tick) (c : Chained σ) : Prop :=
 ∀ id, reference env t c.runner = some id → id ∈ c.chain → (executeNextStep env t c.runner).steps = c.runner.steps

/-- A reference to a script that is being expanded is one to the running script itself, or its read
isn't answered. -/
def OnlyItself (t : Tick) (c : Chained σ) : Prop :=
 ∀ id, reference env t c.runner = some id → id ∈ c.chain →
  id = c.runner.script.id ∨ (env.load c.runner.world id).1 = .timedOut

/-! ## What a dispatch does to the list, the index and the loops -/

inductive Moved (p : Placed) (r : Runner σ) (r' : Runner σ) : Prop
 | ended : r'.isRunning = false → Moved p r r'
 | again : r'.steps = r.steps → r'.currentIndex = r.currentIndex → r'.loopStack = r.loopStack →
   r'.stepAttempt = r.stepAttempt + 1 → (r.stepAttempt : ℤ) < effectiveRetries p.step → Moved p r r'
 | on : r'.steps = r.steps → r'.currentIndex = r.currentIndex + 1 →
   (r'.loopStack = r.loopStack ∨ r'.loopStack = r.loopStack.tail ∨
    ∃ n, r'.loopStack = ⟨r.currentIndex, n⟩ :: r.loopStack) → Moved p r r'
 | back (f : LoopFrame) (frames : List LoopFrame) : r.loopStack = f :: frames → 1 < f.remaining →
   r'.steps = r.steps → r'.currentIndex = f.startIndex + 1 →
   r'.loopStack = { f with remaining := f.remaining - 1 } :: frames → Moved p r r'
 | called (child : Script) : expansion env p r = some child → r'.steps = spliced r p child →
   r'.currentIndex = r.currentIndex + 1 → r'.loopStack = r.loopStack → Moved p r r'

variable {env} {t : Tick} {p : Placed} {r : Runner σ}

theorem Moved.failed {r₁ : Runner σ} (note foundBy : Bytes) (hsteps : r₁.steps = r.steps)
  (hindex : r₁.currentIndex = r.currentIndex) (hloops : r₁.loopStack = r.loopStack)
  (hattempt : r₁.stepAttempt = r.stepAttempt) :
  Moved env p r (onStepFinished env t p.step false note foundBy r₁) := by
 simp only [onStepFinished, Bool.false_eq_true, ↓reduceIte]
 split
 · next hretry =>
   rw [hattempt] at hretry
   exact .again hsteps hindex hloops (congrArg (· + 1) hattempt) hretry
 · exact .ended rfl

theorem Moved.action : Moved env p r (doAction env t p.step r) := by
 simp only [doAction]
 split
 · exact .on rfl rfl (.inl rfl)
 · exact .failed _ _ rfl rfl rfl rfl
 · exact .ended rfl

theorem Moved.call (htype : p.step.type = .runScript) (hexec : shouldExecuteCurrentStep r.ifStack = true) :
  Moved env p r (doRunScript env t p r) := by
 obtain ⟨note, heq⟩ := doRunScript_eq env t p r
 rw [heq]
 cases hchild : childOf env r p.step with
 | none => exact .failed _ _ rfl rfl rfl rfl
 | some child =>
  by_cases hempty : child.steps = []
  · simp only [hempty, ↓reduceIte]
    exact .on rfl rfl (.inl rfl)
  · simp only [hempty, ↓reduceIte]
    refine .called child ?_ rfl rfl rfl
    rw [expansion, if_pos ⟨htype, hexec⟩, hchild, Option.filter_some, if_pos (decide_eq_true hempty)]

theorem Moved.endLoop (execute : Bool) (htype : p.step.type = .endLoop) :
  Moved env p r (perform env t p execute r) := by
 simp only [perform, htype]
 cases hloops : r.loopStack with
 | nil => exact .failed _ _ rfl rfl rfl rfl
 | cons f frames =>
  dsimp only
  split
  · next hmore => exact .back f frames hloops (by omega) rfl rfl rfl
  · refine .on rfl rfl (.inr (.inl ?_))
    rw [hloops]
    rfl

theorem Moved.perform {execute : Bool} (hexec : shouldExecuteCurrentStep r.ifStack = execute) :
  Moved env p r (perform env t p execute r) := by
 by_cases hend : p.step.type = .endLoop
 · exact .endLoop execute hend
 unfold AutomationRunner.perform
 split
 case h_1 => exact .on rfl rfl (.inl rfl)
 case h_2 => exact .on rfl rfl (.inl rfl)
 case h_3 => exact .on rfl rfl (.inl rfl)
 case h_4 => exact .on rfl rfl (.inr (.inr ⟨_, rfl⟩))
 case h_5 h => exact absurd h hend
 case h_6 h =>
  split
  · next hrun => exact .call h (hexec.trans hrun)
  · exact .on rfl rfl (.inl rfl)
 case h_7 =>
  split
  · exact .failed _ _ rfl rfl rfl rfl
  · exact .on rfl rfl (.inl rfl)
 case h_8 =>
  split
  · exact .action
  · exact .on rfl rfl (.inl rfl)

theorem Moved.dispatch : Moved env p r (dispatch env t p r) := by
 have h : Moved env p { r with trace := if shouldExecuteCurrentStep r.ifStack then r.trace ++ [p] else r.trace }
   (AutomationRunner.dispatch env t p r) := Moved.perform rfl
 cases h with
 | ended hover => exact .ended hover
 | again hsteps hindex hloops hattempt hretry => exact .again hsteps hindex hloops hattempt hretry
 | on hsteps hindex hloops => exact .on hsteps hindex hloops
 | back f frames hloops hmore hsteps hindex hloops' => exact .back f frames hloops hmore hsteps hindex hloops'
 | called child hchild hsteps hindex hloops => exact .called child hchild hsteps hindex hloops

theorem expansion_spec {child : Script} (h : expansion env p r = some child) :
  p.step.type = .runScript ∧ shouldExecuteCurrentStep r.ifStack = true ∧ childOf env r p.step = some child ∧
   child.steps ≠ [] := by
 rw [expansion] at h
 split at h
 · next hrun =>
   obtain ⟨hchild, hsteps⟩ := Option.filter_eq_some_iff.1 h
   exact ⟨hrun.1, hrun.2, hchild, of_decide_eq_true hsteps⟩
 · cases h

theorem childOf_spec {s : Step} {child : Script} (h : childOf env r s = some child) :
  resolve env.render r.vars s.target ≠ [] ∧ resolve env.render r.vars s.target ≠ r.script.id ∧
   env.hasStorage = true ∧
   (env.load r.world (resolve env.render r.vars s.target)).1 = .loaded (some child) := by
 rw [childOf] at h
 split at h
 · cases h
 · next hgo =>
   push Not at hgo
   refine ⟨hgo.1, hgo.2.1, Bool.ne_false_iff.1 hgo.2.2, ?_⟩
   cases hload : (env.load r.world (resolve env.render r.vars s.target)).1 with
   | timedOut =>
    rw [hload] at h
    cases h
   | loaded found =>
    rw [hload] at h
    exact congrArg LoadReply.loaded h

theorem script_id_onStepFinished (s : Step) (succeeded : Bool) (note foundBy : Bytes) (r : Runner σ) :
  (onStepFinished env t s succeeded note foundBy r).script.id = r.script.id := by
 unfold onStepFinished
 split
 · rfl
 · split <;> rfl

theorem script_id_doRunScript : (doRunScript env t p r).script.id = r.script.id := by
 obtain ⟨note, heq⟩ := doRunScript_eq env t p r
 rw [heq]
 split
 · exact script_id_onStepFinished ..
 · split <;> rfl

theorem script_id_perform (execute : Bool) : (perform env t p execute r).script.id = r.script.id := by
 unfold perform
 split
 case h_5 =>
  split
  · exact script_id_onStepFinished ..
  · split <;> rfl
 case h_6 =>
  split
  · exact script_id_doRunScript
  · rfl
 case h_7 =>
  split
  · exact script_id_onStepFinished ..
  · rfl
 case h_8 =>
  split
  · simp only [doAction]
    split
    · exact script_id_onStepFinished ..
    · exact script_id_onStepFinished ..
    · rfl
  · rfl
 all_goals rfl

theorem script_id_executeNextStep (t : Tick) (r : Runner σ) :
  (executeNextStep env t r).script.id = r.script.id := by
 cases hdispatched : dispatched t r with
 | some p =>
  rw [executeNextStep_of_dispatched env hdispatched]
  exact script_id_perform _
 | none =>
  rcases executeNextStep_of_not_dispatched env hdispatched with ⟨-, heq⟩ | ⟨success, message, heq⟩
  · rw [heq]
  · rw [heq]
    rfl

theorem dispatched_item {r : Runner σ} (h : dispatched t r = some p) : r.steps[r.currentIndex]? = some p := by
 rw [dispatched] at h
 split at h
 · exact h
 · cases h

/-! ## The run as a walk -/

theorem length_spliced (r : Runner σ) (p : Placed) (child : Script) :
  (spliced r p child).length = r.steps.length + child.steps.length := by
 have hlen := congrArg List.length (take_append_drop (r.currentIndex + 1) r.steps)
 rw [length_append] at hlen
 rw [spliced, length_append, length_append, placeChild, length_map]
 omega

theorem expansion_none {r' : Runner σ} (h : r'.steps = r.steps) (hdispatch : r' = dispatch env t p r) :
  expansion env p r = none := by
 subst hdispatch
 rw [dispatch_steps] at h
 cases hexpansion : expansion env p r with
 | none => rfl
 | some child =>
  rw [hexpansion] at h
  have hlen := congrArg List.length h
  rw [length_spliced] at hlen
  exact absurd (length_eq_zero_iff.1 (by omega)) (expansion_spec hexpansion).2.2.2

def rank (stored : Table Bytes Script) (x : Placed × List Bytes) : ℕ :=
 ((stored.entries.map Prod.fst).toFinset \ x.2.toFinset).card

def limit (x : Placed × List Bytes) : ℕ := (effectiveRetries x.1.step).toNat

def frame (f : LoopFrame) : GrowingWalks.Frame := ⟨f.startIndex, f.remaining⟩

def walk (c : Chained σ) : GrowingWalks.Walk (Placed × List Bytes) :=
 ⟨c.items, c.runner.currentIndex, c.runner.loopStack.map frame, c.runner.stepAttempt⟩

theorem rank_child {stored : Table Bytes Script} {chain : List Bytes} {id : Bytes} {child : Script} (hstored : stored.get id = some child)
  (hnew : id ∉ chain) (p q : Placed) : rank stored (q, id :: chain) < rank stored (p, chain) := by
 refine Finset.card_lt_card (Finset.ssubset_iff_of_subset ?_ |>.2 ⟨id, ?_, ?_⟩)
 · refine Finset.sdiff_subset_sdiff (Finset.Subset.refl _) ?_
   rw [toFinset_cons]
   exact Finset.subset_insert _ _
 · rw [Finset.mem_sdiff, mem_toFinset, mem_toFinset]
   exact ⟨mem_map_of_mem (stored.mem_entries.2 hstored), hnew⟩
 · rw [Finset.mem_sdiff, toFinset_cons, not_and_not_right]
   exact fun _ => Finset.mem_insert_self id _

theorem reference_of_expansion {child : Script} (hp : dispatched t r = some p) (h : expansion env p r = some child) :
  reference env t r = some (resolve env.render r.vars p.step.target) := by
 obtain ⟨htype, hexec, -⟩ := expansion_spec h
 rw [reference, hp, Option.bind_some, if_pos ⟨htype, hexec⟩]

theorem walk_eq {c' : Chained σ} {items : List (Placed × List Bytes)} {index : ℕ} {frames : List GrowingWalks.Frame}
  {attempts : ℕ} (hitems : c'.items = items) (hindex : c'.runner.currentIndex = index)
  (hframes : c'.runner.loopStack.map frame = frames) (hattempts : c'.runner.stepAttempt = attempts) :
  walk c' = ⟨items, index, frames, attempts⟩ := by
 rw [walk, hitems, hindex, hframes, hattempts]

/-! ## The chains -/

variable (env) in
/-- The ids before the running script's are those of stored scripts with steps. -/
structure Sound (stored : Table Bytes Script) (script : Script) (c : Chained σ) : Prop where
 steps : c.items.map Prod.fst = c.runner.steps
 id : c.runner.script.id = script.id
 chains : ∀ x ∈ c.items, ∃ ids, x.2 = ids ++ [script.id] ∧
  ∀ id ∈ ids, id ≠ [] ∧ env.hasStorage = true ∧ ∃ child, stored.get id = some child ∧ child.steps ≠ []

section Stored

variable {stored : Table Bytes Script} {script : Script} {c : Chained σ}
 (hload : ∀ world id, (env.load world id).1 = .timedOut ∨ (env.load world id).1 = .loaded (stored.get id))

theorem Sound.item (h : Sound env stored script c) (hp : dispatched t c.runner = some p) :
  ∃ chain, c.items[c.runner.currentIndex]? = some (p, chain) ∧ c.chain = chain := by
 have hitem := dispatched_item hp
 rw [← h.steps, getElem?_map, Option.map_eq_some_iff] at hitem
 obtain ⟨x, hx, rfl⟩ := hitem
 refine ⟨x.2, hx, ?_⟩
 rw [Chained.chain, hx]
 rfl

include hload

theorem stored_of_expansion {child : Script} (h : expansion env p r = some child) :
  stored.get (resolve env.render r.vars p.step.target) = some child := by
 obtain ⟨-, -, hchild, -⟩ := expansion_spec h
 obtain ⟨-, -, -, hreply⟩ := childOf_spec hchild
 rcases hload r.world (resolve env.render r.vars p.step.target) with htimed | hloaded
 · rw [hreply] at htimed
   cases htimed
 · rw [hreply] at hloaded
   injection hloaded with hfound
   exact hfound.symm

theorem Sound.next (h : Sound env stored script c) (t : Tick) : Sound env stored script (c.next env t) := by
 have hid : (c.next env t).runner.script.id = script.id := (script_id_executeNextStep t c.runner).trans h.id
 cases hdispatched : dispatched t c.runner with
 | none =>
  have hitems : (c.next env t).items = c.items := by
   simp only [Chained.next, Chained.extended, hdispatched]
  refine ⟨?_, hid, hitems ▸ h.chains⟩
  rw [hitems, h.steps]
  change c.runner.steps = (executeNextStep env t c.runner).steps
  rcases executeNextStep_of_not_dispatched env hdispatched with ⟨-, heq⟩ | ⟨success, message, heq⟩
  · rw [heq]
  · rw [heq]
    rfl
 | some p =>
  obtain ⟨chain, hx, -⟩ := h.item hdispatched
  have hsteps : (c.next env t).runner.steps = match expansion env p c.runner with
    | some child => spliced c.runner p child
    | none => c.runner.steps :=
   (congrArg Runner.steps (executeNextStep_of_dispatched env hdispatched)).trans (dispatch_steps env t c.runner p)
  cases hexpansion : expansion env p c.runner with
  | none =>
   have hitems : (c.next env t).items = c.items := by
    simp only [Chained.next, Chained.extended, hdispatched, hx, hexpansion]
   refine ⟨?_, hid, hitems ▸ h.chains⟩
   rw [hitems, h.steps, hsteps, hexpansion]
  | some child =>
   have hitems : (c.next env t).items = c.items.take (c.runner.currentIndex + 1) ++
     (chainChild (p, chain) (resolve env.render c.runner.vars p.step.target) child ++
      c.items.drop (c.runner.currentIndex + 1)) := by
    simp only [Chained.next, Chained.extended, hdispatched, hx, hexpansion]
   refine ⟨?_, hid, fun x hxmem => ?_⟩
   · rw [hitems, hsteps, hexpansion, map_append, map_append, map_take, List.map_drop, h.steps,
      chainChild, map_map]
     dsimp only [spliced]
     rw [append_assoc]
     congr 2
     exact map_id _
   · rw [hitems] at hxmem
     rcases mem_append.1 hxmem with hmem | hmem
     · exact h.chains x (mem_of_mem_take hmem)
     rcases mem_append.1 hmem with hmem | hmem
     · obtain ⟨q, -, rfl⟩ := mem_map.1 hmem
       obtain ⟨ids, hids, hall⟩ := h.chains (p, chain) (mem_of_getElem? hx)
       obtain ⟨-, -, hchild, hne⟩ := expansion_spec hexpansion
       obtain ⟨hempty, -, hstorage, -⟩ := childOf_spec hchild
       refine ⟨resolve env.render c.runner.vars p.step.target :: ids, congrArg _ hids, fun id hmem => ?_⟩
       rcases mem_cons.1 hmem with rfl | hmem
       · exact ⟨hempty, hstorage, child, stored_of_expansion hload hexpansion, hne⟩
       · exact hall id hmem
     · exact h.chains x (mem_of_mem_drop hmem)

theorem Sound.step (h : Sound env stored script c) (hgoes : (c.next env t).runner.isRunning = true)
  (honly : OnlyItself env t c) : GrowingWalks.Step (rank stored) limit (walk c) (walk (c.next env t)) := by
 cases hdispatched : dispatched t c.runner with
 | none =>
  change (executeNextStep env t c.runner).isRunning = true at hgoes
  rcases executeNextStep_of_not_dispatched env hdispatched with ⟨hover, heq⟩ | ⟨success, message, heq⟩
  · rw [heq, hover] at hgoes
    cases hgoes
  · rw [heq] at hgoes
    cases hgoes
 | some p =>
  obtain ⟨chain, hx, hchain⟩ := h.item hdispatched
  have hrunner : (c.next env t).runner = dispatch env t p c.runner := executeNextStep_of_dispatched env hdispatched
  have hitems : ∀ {expanded}, expansion env p c.runner = expanded → (c.next env t).items = match expanded with
    | some child => c.items.take (c.runner.currentIndex + 1) ++
      (chainChild (p, chain) (resolve env.render c.runner.vars p.step.target) child ++
       c.items.drop (c.runner.currentIndex + 1))
    | none => c.items := by
   intro expanded hexpanded
   simp only [Chained.next, Chained.extended, hdispatched, hx, hexpanded]
  have hmoved : Moved env p c.runner (c.next env t).runner := hrunner ▸ Moved.dispatch
  cases hmoved with
  | ended hover =>
   rw [hgoes] at hover
   cases hover
  | again hsteps hindex hloops hattempt hretry =>
   rw [walk_eq (hitems (expansion_none hsteps hrunner)) hindex (congrArg _ hloops) hattempt]
   have hless : c.runner.stepAttempt < limit (p, chain) := by
    rw [limit]
    dsimp only
    omega
   exact GrowingWalks.Step.stay (w := walk c) hx hless
  | on hsteps hindex hloops =>
   rw [walk_eq (hitems (expansion_none hsteps hrunner)) hindex rfl rfl]
   refine GrowingWalks.Step.next (w := walk c) _ hx ?_
   rcases hloops with heq | heq | ⟨n, heq⟩
   · exact .inl (congrArg _ heq)
   · refine .inr (.inl ?_)
     rw [heq]
     exact map_tail
   · refine .inr (.inr ⟨n, ?_⟩)
     rw [heq]
     rfl
  | back f frames hframes hmore hsteps hindex hloops =>
   have hloops' : (walk c).frames = frame f :: frames.map frame := by
    change c.runner.loopStack.map frame = _
    rw [hframes]
    rfl
   rw [walk_eq (hitems (expansion_none hsteps hrunner)) hindex (congrArg _ hloops) rfl]
   exact GrowingWalks.Step.jump (w := walk c) _ hx hloops' hmore
  | called child hexpansion hsteps hindex hloops =>
   have hstored := stored_of_expansion hload hexpansion
   have hnew : resolve env.render c.runner.vars p.step.target ∉ chain := by
    intro hmem
    obtain ⟨-, -, hchild, -⟩ := expansion_spec hexpansion
    obtain ⟨-, hself, -, hreply⟩ := childOf_spec hchild
    rcases honly _ (reference_of_expansion hdispatched hexpansion) (hchain ▸ hmem) with heq | htimed
    · exact hself heq
    · rw [hreply] at htimed
      cases htimed
   rw [walk_eq (hitems hexpansion) hindex (congrArg _ hloops) rfl]
   refine GrowingWalks.Step.grow (w := walk c) _ hx fun y hy => ?_
   obtain ⟨q, -, rfl⟩ := mem_map.1 hy
   exact rank_child hstored hnew p q

end Stored

/-! ## Whole runs -/

theorem runner_after (ticks : ℕ → Tick) (c : Chained σ) (n : ℕ) :
  (c.after env ticks n).runner = dispatches env c.runner ((List.range n).map ticks) := by
 induction n with
 | zero => rfl
 | succ n ih =>
  rw [dispatches, range_succ, map_append, TransitionRuns.run_append, Chained.after, Chained.next, ih]
  rfl

theorem Sound.start (stored : Table Bytes Script) (t : Tick) (script : Script) (startIndex : ℕ)
  (hidle : r.isRunning = false) : Sound env stored script (Chained.start env t script startIndex r) := by
 have hrun : (run env t script startIndex r).steps = script.steps.map (fun s => ⟨s, script, 0⟩) ∧
   (run env t script startIndex r).script.id = script.id := by
  simp only [run, hidle, Bool.false_eq_true, ↓reduceIte]
  split
  · exact ⟨rfl, rfl⟩
  · split <;> exact ⟨rfl, rfl⟩
 refine ⟨?_, hrun.2, fun x hx => ?_⟩
 · rw [Chained.start, hrun.1, map_map]
   rfl
 · obtain ⟨s, -, rfl⟩ := mem_map.1 hx
   exact ⟨[], rfl, fun id hid => absurd hid not_mem_nil⟩

theorem Sound.after {stored : Table Bytes Script} {script : Script} {c : Chained σ}
  (hload : ∀ world id, (env.load world id).1 = .timedOut ∨ (env.load world id).1 = .loaded (stored.get id))
  (h : Sound env stored script c) (ticks : ℕ → Tick) (n : ℕ) : Sound env stored script (c.after env ticks n) := by
 induction n with
 | zero => exact h
 | succ n ih => exact ih.next hload (ticks n)

/-- A script that is being expanded, and isn't the running one, is put in again when its read is answered. -/
theorem Sound.onlyItself {stored : Table Bytes Script} {script : Script} {c : Chained σ}
  (hload : ∀ world id, (env.load world id).1 = .timedOut ∨ (env.load world id).1 = .loaded (stored.get id))
  (h : Sound env stored script c) : RefusesBack env t c ↔ OnlyItself env t c := by
 refine forall_congr' fun id => forall_congr' fun href => forall_congr' fun hback => ?_
 rw [reference, Option.bind_eq_some_iff] at href
 obtain ⟨p, hdispatched, href⟩ := href
 split at href
 next hrun =>
  injection href with hid
  rw [executeNextStep_of_dispatched env hdispatched, dispatch_steps]
  constructor
  · intro hrefused
    by_contra hother
    push Not at hother
    obtain ⟨chain, hx, hchain⟩ := h.item hdispatched
    obtain ⟨ids, hids, hall⟩ := h.chains (p, chain) (mem_of_getElem? hx)
    dsimp only at hids
    rw [hchain, hids, mem_append, mem_singleton] at hback
    rcases hback with hmem | hself
    · obtain ⟨hne, hstorage, child, hstored, hsteps⟩ := hall id hmem
      have hchild : childOf env c.runner p.step = some child := by
       have hgo : ¬ (id = [] ∨ id = c.runner.script.id ∨ env.hasStorage = false) := by
        rw [hstorage]
        exact fun hno => hno.elim hne fun hno => hno.elim hother.1 Bool.noConfusion
       rw [childOf]
       simp only [hid, if_neg hgo]
       rw [(hload c.runner.world id).resolve_left hother.2, hstored]
      have hexpansion : expansion env p c.runner = some child := by
       rw [expansion, if_pos hrun, hchild, Option.filter_some, if_pos (decide_eq_true hsteps)]
      rw [hexpansion] at hrefused
      have hlen := congrArg List.length hrefused
      dsimp only at hlen
      rw [length_spliced] at hlen
      exact hsteps (length_eq_zero_iff.1 (by omega))
    · exact hother.1 (hself.trans h.id.symm)
  · intro hself
    have hchild : childOf env c.runner p.step = none := by
     rw [childOf]
     simp only [hid]
     rcases hself with hself | htimed
     · rw [if_pos (.inr (.inl hself))]
     · rw [htimed]
       split <;> rfl
    rw [expansion, if_pos hrun, hchild]
    rfl
 next => cases href

/-- Every run ends and a reference back to a script being expanded is refused, exactly when each such
reference is to the running script itself or its read isn't answered. -/
theorem chaining_ends_iff (stored : Table Bytes Script)
  (hload : ∀ world id, (env.load world id).1 = .timedOut ∨ (env.load world id).1 = .loaded (stored.get id))
  (script : Script) (startIndex : ℕ) (t : Tick) (ticks : ℕ → Tick) (hidle : r.isRunning = false) :
  ((∃ n, (dispatches env (run env t script startIndex r) ((List.range n).map ticks)).isRunning = false) ∧
    ∀ n, RefusesBack env (ticks n) ((Chained.start env t script startIndex r).after env ticks n)) ↔
   ∀ n, OnlyItself env (ticks n) ((Chained.start env t script startIndex r).after env ticks n) := by
 have hsound := (@Sound.start _ env r stored t script startIndex hidle).after hload ticks
 constructor
 · intro h n
   exact (hsound n).onlyItself hload |>.1 (h.2 n)
 · intro honly
   refine ⟨?_, fun n => (hsound n).onlyItself hload |>.2 (honly n)⟩
   by_contra hgoes
   push Not at hgoes
   have hlive : ∀ n, ((Chained.start env t script startIndex r).after env ticks n).runner.isRunning = true := by
    intro n
    rw [runner_after]
    exact Bool.ne_false_iff.1 (hgoes n)
   have hrank : ∀ x, rank stored x < (stored.entries.map Prod.fst).toFinset.card + 1 := fun x =>
    Nat.lt_succ_of_le (Finset.card_le_card Finset.sdiff_subset)
   apply GrowingWalks.no_endless_walk hrank fun n => walk ((Chained.start env t script startIndex r).after env ticks n)
   intro n
   exact (hsound n).step hload (hlive (n + 1)) (honly n)

end Runs

section Samples

def storeEnv (stored : Table Bytes Script) : Env Unit where
 render _ := []
 navigationHost _ := none
 hasStorage := true
 attempt _ _ vars _ := { ending := .succeeded, vars := vars, world := () }
 load _ id := (.loaded (stored.get id), ())

def callsB : Step := { type := .runScript, target := "b" }

def first : Script := { id := "a", steps := [callsB] }

def leaf : Env Unit := storeEnv ((Table.empty).insert "b" { id := "b", steps := [{ type := .click }] })

theorem chaining_ends_iff_leaf :
  ((∃ n, (dispatches leaf (run leaf {} first 0 { world := () }) ((List.range n).map fun _ => {})).isRunning = false) ∧
    ∀ n, RefusesBack leaf {} ((Chained.start leaf {} first 0 { world := () }).after leaf (fun _ => {}) n)) ↔
   ∀ n, OnlyItself leaf {} ((Chained.start leaf {} first 0 { world := () }).after leaf (fun _ => {}) n) :=
 chaining_ends_iff _ (fun _ _ => .inr rfl) first 0 {} (fun _ => {}) rfl

def circularChild : Script := { id := "b", steps := [callsB] }

def circular : Env Unit := storeEnv ((Table.empty).insert "b" circularChild)

/-- The last step of the list is next, and every step runs the stored script. -/
structure Circling (r : Runner Unit) : Prop where
 running : r.isRunning = true
 script : r.script = first
 vars : r.vars = .empty
 ifStack : r.ifStack = []
 index : r.steps.length = r.currentIndex + 1
 calls : ∀ p ∈ r.steps, p.step = callsB

theorem childOf_circular {r : Runner Unit} (hscript : r.script = first) (hvars : r.vars = .empty) :
  childOf circular r callsB = some circularChild := by
 have hid : resolve circular.render r.vars callsB.target = "b" := by
  rw [hvars]
  rfl
 have hgo : ¬ ((utf8 "b" = []) ∨ utf8 "b" = first.id ∨ circular.hasStorage = false) := by decide
 rw [childOf]
 simp only [hid, hscript, if_neg hgo]
 rfl

theorem Circling.next {r : Runner Unit} (h : Circling r) : Circling (executeNextStep circular {} r) := by
 have hlen : r.currentIndex < r.steps.length := by
  rw [h.index]
  exact Nat.lt_succ_self _
 have hp := getElem?_eq_getElem hlen
 generalize r.steps[r.currentIndex] = p at hp
 have hcalls : p.step = callsB := h.calls p (mem_of_getElem? hp)
 have hdispatched : dispatched {} r = some p := by
  rw [dispatched, if_pos, hp]
  rw [h.script]
  exact ⟨h.running, rfl, by decide⟩
 have hexec : shouldExecuteCurrentStep r.ifStack = true := by rw [h.ifStack]; rfl
 have hperform : executeNextStep circular {} r = doRunScript circular {} p { r with trace := r.trace ++ [p] } := by
  rw [executeNextStep_of_dispatched circular hdispatched, dispatch, hexec, perform, hcalls]
  rfl
 obtain ⟨note, heq⟩ := doRunScript_eq circular {} p { r with trace := r.trace ++ [p] }
 have hchild : childOf circular { r with trace := r.trace ++ [p] } p.step = some circularChild := by
  rw [hcalls]
  exact childOf_circular h.script h.vars
 have hne : ¬ circularChild.steps = [] := cons_ne_nil _ _
 rw [hperform, heq, hchild]
 simp only [if_neg hne]
 refine ⟨h.running, h.script, h.vars, h.ifStack, ?_, fun q hq => ?_⟩
 · change (spliced r p circularChild).length = r.currentIndex + 1 + 1
   rw [length_spliced, h.index]
   rfl
 · change q ∈ r.steps.take (r.currentIndex + 1) ++ placeChild p circularChild ++ r.steps.drop (r.currentIndex + 1) at hq
   rcases mem_append.1 hq with hq | hq
   · rcases mem_append.1 hq with hq | hq
     · exact h.calls q (mem_of_mem_take hq)
     · obtain ⟨s, hs, rfl⟩ := mem_map.1 hq
       exact mem_singleton.1 hs
   · exact h.calls q (mem_of_mem_drop hq)

theorem circular_never_ends : ¬ ∃ n,
  (dispatches circular (run circular {} first 0 { world := () }) ((List.range n).map fun _ => {})).isRunning =
   false := by
 rintro ⟨n, hn⟩
 have hcircling : Circling
   (dispatches circular (run circular {} first 0 { world := () }) ((List.range n).map fun _ => {})) := by
  refine TransitionRuns.run_invariant (C := fun _ t => t = {}) (I := Circling) ?_ ?_ ?_
  · rintro r t h rfl
    exact h.next
  · refine ⟨rfl, rfl, rfl, rfl, rfl, fun p hp => ?_⟩
    rw [List.mem_singleton.1 hp]
  · refine TransitionRuns.along_of_forall_mem fun t ht => ?_
    obtain ⟨_, -, rfl⟩ := List.mem_map.1 ht
    rfl
 rw [hcircling.running] at hn
 cases hn

end Samples

end MoltBrowser.AutomationChaining
