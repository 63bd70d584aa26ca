import MoltBrowser.AutomationSchedulerCatchUp

set_option autoImplicit false

/-!
# Edits between the scheduler's events

The stored workflows may be edited at any moment. A timer's workflow is read
again when the timer expires and fired whatever was read; the timer may expire
an hour after it was armed and still be early.
-/
namespace MoltBrowser.AutomationScheduler
open AutomationScript AutomationRunner List

variable (p : Platform)

/-! ## The calls of the fire callback -/

structure Call where
 id : Bytes
 script : Script
 due : ℤ
 time : ℤ

structure MayRun (c : Call) : Prop where
 enabled : c.script.enabled = true
 confirmed : c.script.security.sitesUnconfirmed = false
 spoken : hasVoiceSteps c.script = false
 notEarly : c.due ≤ c.time

theorem eligible_iff {script : Script} : eligible script = true ↔ script.enabled = true ∧
  script.security.sitesUnconfirmed = false ∧ hasVoiceSteps script = false := by
 simp only [eligible, Bool.and_eq_true, Bool.not_eq_true', and_assoc]

theorem mayRun_iff {c : Call} : MayRun c ↔ eligible c.script = true ∧ c.due ≤ c.time := by
 rw [eligible_iff]
 exact ⟨fun h => ⟨⟨h.enabled, h.confirmed, h.spoken⟩, h.notEarly⟩,
  fun h => ⟨h.1.1, h.1.2.1, h.1.2.2, h.2⟩⟩

def catchUpCall (now : ℤ) (script : Script) : List Call :=
 match missed p now script.trigger with
 | some due => [⟨script.id, script, due, now⟩]
 | none => []

def catchUpCalls (now : ℤ) (scripts : List Script) : List Call :=
 (scripts.filter eligible).flatMap (catchUpCall p now)

def calls (s : State) (e : Event) : List Call :=
 match e.action with
 | .listed =>
  match s.listing with
  | some ⟨now, some scripts⟩ => if s.listAgain then [] else catchUpCalls p now scripts
  | _ => []
 | .loadReply k =>
  match s.loads[k]? with
  | some ⟨id, due, some (some script)⟩ => [⟨id, script, due, (passTime e.elapsed s).clock⟩]
  | _ => []
 | _ => []

/-! ## Runs with edits -/

inductive Occurrence where
 | event (e : Event)
 | edit (elapsed : ℕ) (stored : Workflows)

structure Watched where
 state : State
 calls : List Call := []

def occur (w : Watched) : Occurrence → Watched
 | .event e => { state := step p w.state e, calls := w.calls ++ calls p w.state e }
 | .edit elapsed stored => { w with state := { passTime elapsed w.state with storage := stored } }

/-- An expiring timer was armed up to its due time, and what is read of its workflow then may run. -/
def Kept (w : Watched) : Occurrence → Prop
 | .event ⟨elapsed, .timerExpired⟩ =>
  ∀ t ∈ w.state.timer, t.expires ≤ (passTime elapsed w.state).clock → t.due ≤ t.expires
 | .event ⟨_, .loadRead k⟩ => ∀ load ∈ w.state.loads[k]?, load.loaded = none →
  ∀ script ∈ w.state.storage.scripts, script.id = load.id → eligible script = true
 | _ => True

/-- What may be fired for a timer: the due time has come, and what was read may run. -/
structure Load.Ready (clock : ℤ) (load : Load) : Prop where
 due : load.due ≤ clock
 read : ∀ script, load.loaded = some (some script) → eligible script = true

structure Watched.Ready (w : Watched) : Prop where
 calls : ∀ c ∈ w.calls, MayRun c
 loads : ∀ load ∈ w.state.loads, load.Ready w.state.clock
 clock : w.state.clock ≤ kMaxTime

section Steps

variable {p} {s : State} {w : Watched}

theorem passTime_clock_le (hclock : s.clock ≤ kMaxTime) (elapsed : ℕ) :
  s.clock ≤ (passTime elapsed s).clock ∧ (passTime elapsed s).clock ≤ kMaxTime := by
 unfold passTime
 dsimp only
 omega

theorem Load.Ready.later {clock later : ℤ} {load : Load} (h : load.Ready clock)
  (hle : clock ≤ later) : load.Ready later := ⟨h.due.trans hle, h.read⟩

@[simp] theorem armNext_loads (s : State) : (armNext s).loads = s.loads := by
 unfold armNext
 split <;> rfl

@[simp] theorem armNext_clock (s : State) : (armNext s).clock = s.clock := by
 unfold armNext
 split <;> rfl

theorem onListed_frame (s : State) :
  (onListed p s).loads = s.loads ∧ (onListed p s).clock = s.clock := by
 unfold onListed
 split
 · next now scripts _ =>
   dsimp only
   split
   · exact ⟨armNext_loads _, armNext_clock _⟩
   · refine consider_induction p now (P := fun s' => s'.loads = s.loads ∧ s'.clock = s.clock)
      scripts (fun script _ s' h => ?_) none ⟨rfl, rfl⟩
     obtain ⟨hclock, -, -, hloads, -⟩ := catchUp_frame p now script s'
     exact ⟨hloads.trans h.1, hclock.trans h.2⟩
 · exact ⟨rfl, rfl⟩

theorem mayRun_of_catchUp {now : ℤ} {scripts : List Script} {c : Call}
  (h : c ∈ catchUpCalls p now scripts) : MayRun c := by
 obtain ⟨script, hscript, hc⟩ := mem_flatMap.1 h
 unfold catchUpCall at hc
 split at hc
 · next due hmissed =>
   rw [mem_singleton.1 hc]
   exact mayRun_iff.2 ⟨(mem_filter.1 hscript).2, (missed_spec hmissed).2.2.2.le⟩
 · cases hc

theorem mayRun_of_ready (hloads : ∀ load ∈ s.loads, load.Ready s.clock) (hclock : s.clock ≤ kMaxTime)
  {e : Event} {c : Call} (h : c ∈ calls p s e) : MayRun c := by
 unfold calls at h
 split at h
 · split at h
   · split at h
     · cases h
     · exact mayRun_of_catchUp h
   · cases h
 · split at h
   · next id due script hload =>
     have hready := hloads _ (mem_of_getElem? hload)
     rw [mem_singleton.1 h]
     exact mayRun_iff.2 ⟨hready.read script rfl,
      hready.due.trans (passTime_clock_le hclock e.elapsed).1⟩
   · cases h
 · cases h

theorem Watched.Ready.loads_step (h : w.Ready) {e : Event} (hkept : Kept w (.event e)) :
  ∀ load ∈ (step p w.state e).loads, load.Ready (passTime e.elapsed w.state).clock := by
 have hlater : ∀ load ∈ w.state.loads, load.Ready (passTime e.elapsed w.state).clock :=
  fun load hload => (h.loads load hload).later (passTime_clock_le h.clock e.elapsed).1
 obtain ⟨elapsed, action⟩ := e
 cases action with
 | tick => rwa [step, act, armNext_loads]
 | listRead => exact hlater
 | listed => rwa [step, act, (onListed_frame _).1]
 | timerExpired =>
  change ∀ load ∈ (onTimerExpired (passTime elapsed w.state)).loads, _
  unfold onTimerExpired
  split
  · next t htimer =>
    split
    · next hexpired =>
      intro load hload
      rcases mem_append.1 hload with hload | hload
      · exact hlater load hload
      · rw [mem_singleton.1 hload]
        exact ⟨(hkept t htimer hexpired).trans hexpired, fun script hread => by cases hread⟩
    · exact hlater
  · exact hlater
 | loadRead k =>
  intro load hload
  obtain ⟨i, hi⟩ := mem_iff_getElem?.1 hload
  rw [step, act, getElem?_modify] at hi
  obtain ⟨before, hbefore, rfl⟩ := Option.map_eq_some_iff.1 hi
  have hready := hlater before (mem_of_getElem? hbefore)
  split
  · next hik =>
    subst hik
    refine ⟨hready.due, fun script hread => ?_⟩
    cases hloaded : before.loaded with
    | some loaded =>
     rw [readLoad, hloaded] at hread
     exact hready.read script (hloaded.trans hread)
    | none =>
     rw [readLoad, hloaded] at hread
     have hfound : w.state.storage.scripts.find? (fun script => script.id = before.id) =
       some script := Option.some.inj hread
     have hid := find?_some hfound
     exact hkept before hbefore hloaded script (mem_of_find?_eq_some hfound)
      (of_decide_eq_true hid)
  · exact hready
 | loadReply k =>
  change ∀ load ∈ (onTimerScriptLoaded k (passTime elapsed w.state)).loads, _
  unfold onTimerScriptLoaded
  split
  · intro load hload
    rw [armNext_loads] at hload
    split at hload <;> exact hlater load (mem_of_mem_eraseIdx hload)
  · exact hlater

theorem step_clock (s : State) (e : Event) : (step p s e).clock = (passTime e.elapsed s).clock := by
 obtain ⟨elapsed, action⟩ := e
 cases action with
 | tick => exact armNext_clock _
 | listRead => rfl
 | listed => exact (onListed_frame _).2
 | timerExpired =>
  change (onTimerExpired (passTime elapsed s)).clock = _
  unfold onTimerExpired
  split
  · split <;> rfl
  · rfl
 | loadRead k => rfl
 | loadReply k =>
  change (onTimerScriptLoaded k (passTime elapsed s)).clock = _
  unfold onTimerScriptLoaded
  split
  · rw [armNext_clock]
    split <;> rfl
  · rfl

theorem Watched.Ready.occur (h : w.Ready) {o : Occurrence} (hkept : Kept w o) :
  (occur p w o).Ready := by
 cases o with
 | event e =>
  refine ⟨fun c hc => ?_, ?_, ?_⟩
  · rcases mem_append.1 hc with hc | hc
    · exact h.calls c hc
    · exact mayRun_of_ready h.loads h.clock hc
  · rw [AutomationScheduler.occur, step_clock]
    exact h.loads_step hkept
  · rw [AutomationScheduler.occur, step_clock]
    exact (passTime_clock_le h.clock e.elapsed).2
 | edit elapsed stored =>
  obtain ⟨hle, hmax⟩ := passTime_clock_le h.clock elapsed
  exact ⟨h.calls, fun load hload => (h.loads load hload).later hle, hmax⟩

end Steps

/-- Every call of the fire callback is for a workflow that, as loaded for it, may run, and not
before its due time. -/
theorem fires_what_may_run (stored : Workflows) (clock : Int64) (occurrences : List Occurrence)
  (hkept : TransitionRuns.Along (occur p) Kept ⟨start stored clock, []⟩ occurrences) :
  ∀ c ∈ (TransitionRuns.run (occur p) ⟨start stored clock, []⟩ occurrences).calls, MayRun c := by
 have hstart : (⟨start stored clock, []⟩ : Watched).Ready :=
  ⟨fun _ hc => (List.not_mem_nil hc).elim, fun _ hload => (List.not_mem_nil hload).elim,
   (Inv.start stored clock).clock⟩
 exact (TransitionRuns.run_invariant (fun _ _ h hk => h.occur hk) hstart hkept).calls

/-! ## Edits that leave what is awaited -/

/-! ## A workflow disabled while its timer runs -/

instance (c : Call) : Decidable (MayRun c) := decidable_of_iff _ mayRun_iff.symm

instance (w : Watched) : (o : Occurrence) → Decidable (Kept w o)
 | .event ⟨elapsed, .timerExpired⟩ => inferInstanceAs (Decidable (∀ t ∈ w.state.timer,
   t.expires ≤ (passTime elapsed w.state).clock → t.due ≤ t.expires))
 | .event ⟨_, .loadRead k⟩ => inferInstanceAs (Decidable (∀ load ∈ w.state.loads[k]?,
   load.loaded = none → ∀ script ∈ w.state.storage.scripts, script.id = load.id →
    eligible script = true))
 | .event ⟨_, .tick⟩ | .event ⟨_, .listRead⟩ | .event ⟨_, .listed⟩ | .event ⟨_, .loadReply _⟩
 | .edit _ _ => .isTrue trivial

def disabled (w : Workflows) : Workflows where
 scripts := w.scripts.map fun script => { script with enabled := false }
 distinct := by
  rw [map_map]
  exact w.distinct

/-- The workflow is edited after the heartbeat that arms its timer, and the timer expires. -/
def editedThenFired (edited : Workflows) (elapsed : ℕ) : List Occurrence :=
 [.event ⟨0, .tick⟩, .event ⟨1000, .listRead⟩, .event ⟨1000, .listed⟩, .edit 0 edited,
  .event ⟨elapsed, .timerExpired⟩, .event ⟨1000, .loadRead 0⟩, .event ⟨1000, .loadReply 0⟩]

theorem fires_what_may_run_sample :
  (TransitionRuns.run (occur noTimes) ⟨start (everySeconds "200") 299000000, []⟩
   (editedThenFired (everySeconds "200") 1000000)).calls ≠ [] ∧
  ∀ c ∈ (TransitionRuns.run (occur noTimes) ⟨start (everySeconds "200") 299000000, []⟩
   (editedThenFired (everySeconds "200") 1000000)).calls, MayRun c :=
 ⟨by decide, fires_what_may_run noTimes (everySeconds "200") 299000000
  (editedThenFired (everySeconds "200") 1000000) (by decide)⟩

/-- A disabled workflow is fired; so is one due in two hours. -/
theorem fires_what_may_not_run :
  (∃ c ∈ (TransitionRuns.run (occur noTimes) ⟨start (everySeconds "200") 299000000, []⟩
   (editedThenFired (disabled (everySeconds "200")) 1000000)).calls, c.script.enabled = false) ∧
  ∃ c ∈ (TransitionRuns.run (occur noTimes) ⟨start (everySeconds "7200") 299000000, []⟩
   (editedThenFired (everySeconds "7200") 3600000000)).calls, c.time < c.due := by
 decide

end MoltBrowser.AutomationScheduler
