import MoltBrowser.AutomationScheduler
import MoltBrowser.FirstError

set_option autoImplicit false

/-!
# Each due time once

The catch-up of an evaluation never repeats a due time: it goes by the stored
last fire. The timer's workflow is fired whatever is stored; its due time may
have been caught up meanwhile.
-/
namespace MoltBrowser.AutomationScheduler
open AutomationScript List

/-! ## The next due time -/

theorem cronWalk_ge {localTime : ℤ → Option ExplodedLocal} {isMatch : ExplodedLocal → Bool} {n : ℕ}
  {t : ℤ} {due : ℤ} (h : cronWalk localTime isMatch n t = some due) : t * kSecond ≤ due := by
 induction n generalizing t with
 | zero => cases h
 | succ n ih =>
  unfold cronWalk at h
  split at h
  · cases h
  · split at h
    · split at h
      · cases h
      · cases h
        exact le_rfl
    · have := ih h
      unfold kSecond at *
      omega

theorem secondsSinceUnixEpoch_of_nonneg {now : ℤ} (hnow : 0 ≤ now) :
  secondsSinceUnixEpoch now = now / kSecond := by
 rw [secondsSinceUnixEpoch, if_neg (by rw [kNullTime, kSecond]; omega),
  Int.tdiv_eq_ediv_of_nonneg hnow]

theorem nextCronFire_ge {p : Platform} {expression : Bytes} {now due : ℤ}
  (h : nextCronFire p expression now = some due) :
  (secondsSinceUnixEpoch now + 60).tdiv 60 * 60 * kSecond ≤ due := by
 unfold nextCronFire at h
 split at h
 · next hfire =>
   unfold cronFire at hfire
   split at hfire
   · simp only [FirstError.bind_eq_ok] at hfire
     obtain ⟨_, -, _, -, _, -, _, -, _, -, hwalk⟩ := hfire
     rw [← Except.ok.inj hwalk] at h
     exact cronWalk_ge h
   · cases hfire
 · cases h

theorem next_after_last {p : Platform} {trigger : Trigger} {due : ℤ}
  (htimed : isTimed trigger = true) (hlast : trigger.lastFiredUnix > 0)
  (h : nextFireTime p trigger (trigger.lastFiredUnix * kSecond) = some due) :
  (trigger.lastFiredUnix + 1) * kSecond ≤ due := by
 unfold nextFireTime at h
 split at h
 · cases h
 · split at h
   · cases h
   · have hge := nextCronFire_ge h
     rw [secondsSinceUnixEpoch_of_nonneg (by unfold kSecond; omega)] at hge
     unfold kSecond at *
     rw [Int.tdiv_eq_ediv_of_nonneg (by omega)] at hge
     omega
   · split at h
     · cases h
     · split at h
       · cases h
       · cases h
         unfold kSecond
         omega
   · next htype => simp [isTimed, htype] at htimed
   · cases h

theorem missed_spec {p : Platform} {now due : ℤ} {trigger : Trigger}
  (h : missed p now trigger = some due) : isTimed trigger = true ∧ trigger.lastFiredUnix > 0 ∧
   nextFireTime p trigger (trigger.lastFiredUnix * kSecond) = some due ∧ due < now := by
 unfold missed at h
 split at h
 · next hgo =>
   obtain ⟨hnext, hlt⟩ := Option.filter_eq_some_iff.1 h
   exact ⟨hgo.1, hgo.2, hnext, of_decide_eq_true hlt⟩
 · cases h

/-! ## What is stored of a fire -/

theorem second_cases (time : ℤ) : (0 ≤ time ∧ time.tdiv kSecond = time / kSecond) ∨
  (time < 0 ∧ time.tdiv kSecond ≤ 0) := by
 rcases le_or_gt 0 time with h | h
 · exact .inl ⟨h, Int.tdiv_eq_ediv_of_nonneg h⟩
 · right
   have hneg : (-time).tdiv kSecond = -(time.tdiv kSecond) := Int.neg_tdiv ..
   have hpos : 0 ≤ (-time).tdiv kSecond := Int.tdiv_nonneg (by omega) (by decide)
   exact ⟨h, by omega⟩

theorem keepPositive_second {time : ℤ} (h : time ≤ kMaxTime) :
  keepPositive (time.tdiv kSecond) = max 0 (time.tdiv kSecond) := by
 unfold keepPositive
 split
 · next hpos =>
   have hsmall : (time.tdiv kSecond).natAbs ≤ 2 ^ 53 := by
    rcases second_cases time with ⟨-, heq⟩ | ⟨-, hle⟩
    · rw [heq] at hpos ⊢
      unfold kSecond kMaxTime at *
      omega
    · omega
   rw [Double.keepInt64_of_small hsmall]
   omega
 · omega

theorem lt_stored_second {due time : ℤ} (hdue : due ≤ time) (h : time ≤ kMaxTime) :
  due < (keepPositive (time.tdiv kSecond) + 1) * kSecond := by
 rw [keepPositive_second h]
 rcases second_cases time with ⟨-, heq⟩ | ⟨hneg, -⟩
 · rw [heq]
   unfold kSecond
   omega
 · unfold kSecond
   omega

theorem last_lt_stored_second {last due time : ℤ} (hlast : (last + 1) * kSecond ≤ due)
  (hdue : due ≤ time) (h : time ≤ kMaxTime) : last < keepPositive (time.tdiv kSecond) + 1 := by
 have := lt_stored_second hdue h
 unfold kSecond at *
 omega

/-! ## The invariant -/

def Served (s : State) : Prop :=
 ∀ f ∈ s.fires, ∀ script ∈ s.storage.scripts, script.id = f.id →
  f.due < (script.trigger.lastFiredUnix + 1) * kSecond

def Once (s : State) : Prop := (s.fires.map fun f => (f.id, f.due)).Nodup

theorem Workflows.unique (w : Workflows) {script script' : Script} (h : script ∈ w.scripts)
  (h' : script' ∈ w.scripts) (hid : script.id = script'.id) : script = script' :=
 inj_on_of_nodup_map w.distinct h h' hid

theorem mem_setLastFired {w : Workflows} {id : Bytes} {unix : ℤ} {script : Script} :
  script ∈ (w.setLastFired id unix).scripts ↔ ∃ old ∈ w.scripts, setLast id unix old = script :=
 mem_map

theorem fire_served {s : State} {id : Bytes} {due time : ℤ} {stored : Script}
  (hserved : Served s) (honce : Once s) (hmem : stored ∈ s.storage.scripts) (hid : stored.id = id)
  (hlast : (stored.trigger.lastFiredUnix + 1) * kSecond ≤ due) (hdue : due ≤ time)
  (htime : time ≤ kMaxTime) : Served (fire id due time s) ∧ Once (fire id due time s) := by
 constructor
 · intro f hf script hscript hfid
   obtain ⟨old, hold, rfl⟩ := mem_setLastFired.1 hscript
   rw [setLast_id] at hfid
   by_cases hsame : old.id = id
   · have hstored : old = stored := s.storage.unique hold hmem (hsame.trans hid.symm)
     subst hstored
     simp only [setLast, hsame, ↓reduceIte]
     rcases mem_append.1 hf with hf | hf
     · have hbefore := hserved f hf old hold hfid
       have := last_lt_stored_second hlast hdue htime
       unfold kSecond at *
       omega
     · rw [mem_singleton.1 hf]
       exact lt_stored_second hdue htime
   · rcases mem_append.1 hf with hf | hf
     · rw [setLast, if_neg hsame]
       exact hserved f hf old hold hfid
     · rw [mem_singleton.1 hf] at hfid
       exact absurd hfid hsame
 · unfold Once at *
   rw [fire, map_append, nodup_append]
   refine ⟨honce, by simp, ?_⟩
   intro x hx y hy heq
   obtain ⟨f, hf, rfl⟩ := mem_map.1 hx
   rw [map_cons, map_nil, mem_singleton] at hy
   obtain ⟨hfid, hfdue⟩ : f.id = id ∧ f.due = due := Prod.mk.inj (heq.trans hy)
   have := hserved f hf stored hmem (hid.trans hfid.symm)
   omega

def Fresh (s : State) : Prop :=
 ∀ l ∈ s.listing, s.listAgain = false → ∀ scripts ∈ l.snapshot, scripts = s.storage.scripts

structure Inv (s : State) : Prop where
 served : Served s
 once : Once s
 fresh : Fresh s
 clock : s.clock ≤ kMaxTime
 listed : ∀ l ∈ s.listing, l.now ≤ kMaxTime

/-- The timer's workflow, when it is fired, is stored with no fire since the due time, and the due time
has come. -/
def DueOpen (s : State) (e : Event) : Prop :=
 match e.action with
 | .loadReply k =>
  match s.loads[k]? with
  | some ⟨id, due, some (some _)⟩ => ∃ stored ∈ s.storage.scripts, stored.id = id ∧
    (stored.trigger.lastFiredUnix + 1) * kSecond ≤ due ∧ due ≤ (passTime e.elapsed s).clock
  | _ => True
 | _ => True

/-! ## Evaluations -/

section Evaluate

variable {p : Platform} {now : ℤ}

variable (p now) in
theorem catchUp_frame (script : Script) (s : State) :
  (catchUp p now script s).clock = s.clock ∧ (catchUp p now script s).listing = s.listing ∧
   (catchUp p now script s).listAgain = s.listAgain ∧ (catchUp p now script s).loads = s.loads ∧
   (catchUp p now script s).evaluations = s.evaluations := by
 unfold catchUp
 split <;> exact ⟨rfl, rfl, rfl, rfl, rfl⟩

/-- The scripts still to be considered are stored as they were listed. -/
structure Considering (rest : List Script) (s : State) : Prop where
 served : Served s
 once : Once s
 stored : ∀ script ∈ rest, script ∈ s.storage.scripts
 distinct : (rest.map Script.id).Nodup

theorem Considering.catchUp {script : Script} {rest : List Script} {s : State}
  (h : Considering (script :: rest) s) (hnow : now ≤ kMaxTime) :
  Considering rest (catchUp p now script s) := by
 obtain ⟨hserved, honce, hstored, hdistinct⟩ := h
 rw [map_cons, nodup_cons] at hdistinct
 have hmem := hstored script mem_cons_self
 unfold AutomationScheduler.catchUp
 split
 · next due hmissed =>
   obtain ⟨htimed, hlast, hnext, hlt⟩ := missed_spec hmissed
   obtain ⟨hserved', honce'⟩ := fire_served hserved honce hmem rfl
    (next_after_last htimed hlast hnext) hlt.le hnow
   refine ⟨hserved', honce', ?_, hdistinct.2⟩
   intro other hother
   refine mem_setLastFired.2 ⟨other, hstored other (mem_cons_of_mem _ hother), ?_⟩
   have hne : other.id ≠ script.id := fun heq =>
    hdistinct.1 (heq ▸ mem_map_of_mem hother)
   rw [setLast, if_neg hne]
 · exact ⟨hserved, honce, fun other hother => hstored other (mem_cons_of_mem _ hother),
    hdistinct.2⟩

theorem Considering.skip {script : Script} {rest : List Script} {s : State}
  (h : Considering (script :: rest) s) : Considering rest s where
 served := h.served
 once := h.once
 stored other hother := h.stored other (mem_cons_of_mem _ hother)
 distinct := (nodup_cons.1 h.distinct).2

theorem foldl_consider (p : Platform) {scripts : List Script} {s : State}
  (soonest : Option (ℤ × Bytes)) (h : Considering scripts s) (hnow : now ≤ kMaxTime) :
  let after := (scripts.foldl (consider p now) (s, soonest)).1
  Served after ∧ Once after ∧ after.clock = s.clock ∧ after.listing = s.listing := by
 induction scripts generalizing s soonest with
 | nil => exact ⟨h.served, h.once, rfl, rfl⟩
 | cons script rest ih =>
  rw [foldl_cons]
  by_cases helig : eligible script = true
  · obtain ⟨soonest', hconsider⟩ :
      ∃ soonest', consider p now (s, soonest) script = (catchUp p now script s, soonest') :=
     ⟨_, by rw [consider, helig]; rfl⟩
    rw [hconsider]
    obtain ⟨hserved, honce, hclock, hlisting⟩ := ih _ (h.catchUp hnow)
    obtain ⟨hclock', hlisting', -⟩ := catchUp_frame p now script s
    exact ⟨hserved, honce, hclock.trans hclock', hlisting.trans hlisting'⟩
  · have hconsider : consider p now (s, soonest) script = (s, soonest) := by
     simp only [consider, helig, Bool.not_false, ↓reduceIte]
    rw [hconsider]
    exact ih _ h.skip

end Evaluate

/-! ## Every event -/

section Run

variable {p : Platform}

theorem Inv.passTime {s : State} (h : Inv s) (elapsed : ℕ) : Inv (passTime elapsed s) where
 served := h.served
 once := h.once
 fresh := h.fresh
 clock := min_le_right _ _
 listed := h.listed

theorem Inv.armNext {s : State} (hserved : Served s) (honce : Once s) (hclock : s.clock ≤ kMaxTime)
  (hlisted : ∀ l ∈ s.listing, l.now ≤ kMaxTime) : Inv (armNext s) := by
 unfold AutomationScheduler.armNext
 split
 · exact ⟨hserved, honce, (fun _ _ hagain => by cases hagain), hclock, hlisted⟩
 · refine ⟨hserved, honce, ?_, hclock, ?_⟩
   · intro l hl _ scripts hscripts
     cases hl
     cases hscripts
   · intro l hl
     cases hl
     exact hclock

theorem Inv.onListed {s : State} (h : Inv s) : Inv (onListed p s) := by
 unfold AutomationScheduler.onListed
 split
 · next now scripts hlisting =>
   have hnow : now ≤ kMaxTime := h.listed _ hlisting
   dsimp only
   split
   · exact .armNext h.served h.once h.clock fun l hl => by cases hl
   · next hagain =>
     have hsame : scripts = s.storage.scripts :=
      h.fresh _ hlisting (Bool.not_eq_true _ ▸ hagain) scripts rfl
     have hconsidering : Considering scripts { s with listing := none } :=
      ⟨h.served, h.once, fun script hscript => hsame ▸ hscript, hsame ▸ s.storage.distinct⟩
     obtain ⟨hserved, honce, hclock, hnone⟩ := foldl_consider p none hconsidering hnow
     refine ⟨hserved, honce, ?_, hclock.trans_le h.clock, ?_⟩
     · intro l hl
       cases hnone.symm.trans hl
     · intro l hl
       cases hnone.symm.trans hl
 · exact h

theorem Inv.onTimerScriptLoaded {s : State} (h : Inv s) (k : ℕ)
  (hopen : ∀ id due script, s.loads[k]? = some ⟨id, due, some (some script)⟩ →
   ∃ stored ∈ s.storage.scripts, stored.id = id ∧
    (stored.trigger.lastFiredUnix + 1) * kSecond ≤ due ∧ due ≤ s.clock) :
  Inv (onTimerScriptLoaded k s) := by
 unfold AutomationScheduler.onTimerScriptLoaded
 split
 · next id due script hload =>
   cases script with
   | none => exact .armNext h.served h.once h.clock h.listed
   | some script =>
    obtain ⟨stored, hmem, hid, hlast, hdue⟩ := hopen id due script hload
    obtain ⟨hserved, honce⟩ := fire_served (s := { s with loads := s.loads.eraseIdx k }) h.served
     h.once hmem hid hlast hdue h.clock
    exact .armNext hserved honce h.clock h.listed
 · exact h

theorem Inv.step {s : State} {e : Event} (h : Inv s) (hopen : DueOpen s e) : Inv (step p s e) := by
 have hpassed := h.passTime e.elapsed
 obtain ⟨elapsed, action⟩ := e
 unfold AutomationScheduler.step
 cases action with
 | tick => exact .armNext hpassed.served hpassed.once hpassed.clock hpassed.listed
 | listRead =>
  refine ⟨h.served, h.once, ?_, hpassed.clock, ?_⟩
  · intro l hl hagain scripts hscripts
    obtain ⟨l, hlisting, rfl⟩ := Option.map_eq_some_iff.1 hl
    cases hscripts
    cases hsnapshot : l.snapshot with
    | none => rfl
    | some scripts => exact h.fresh l hlisting hagain scripts hsnapshot
  · intro l hl
    obtain ⟨l, hlisting, rfl⟩ := Option.map_eq_some_iff.1 hl
    exact h.listed l hlisting
 | listed => exact hpassed.onListed
 | timerExpired =>
  change Inv (onTimerExpired _)
  unfold onTimerExpired
  split
  · split
    · exact ⟨h.served, h.once, h.fresh, hpassed.clock, h.listed⟩
    · exact hpassed
  · exact hpassed
 | loadRead k => exact ⟨h.served, h.once, h.fresh, hpassed.clock, h.listed⟩
 | loadReply k =>
  refine hpassed.onTimerScriptLoaded k fun id due script hload => ?_
  simp only [DueOpen, show s.loads[k]? = _ from hload] at hopen
  exact hopen

theorem Inv.start (w : Workflows) (clock : Int64) : Inv (start w clock) where
 served f hf := by cases hf
 once := nodup_nil
 fresh l hl := by cases hl
 clock := by
  have := clock.toInt_lt
  unfold kMaxTime
  exact Int.le_sub_one_of_lt this
 listed l hl := by cases hl

/-- A due time is fired once in every run whose timers' workflows are fired only when they are stored
with no fire since the due time, and it has come. -/
theorem due_fired_once (p : Platform) (w : Workflows) (clock : Int64) (events : List Event)
  (hopen : TransitionRuns.Along (step p) DueOpen (start w clock) events) :
  ((TransitionRuns.run (step p) (start w clock) events).fires.map fun f => (f.id, f.due)).Nodup :=
 (TransitionRuns.run_invariant (fun _ _ h hc => h.step hc) (Inv.start w clock) hopen).once

end Run

/-! ## An interval caught up and fired again -/

instance (s : State) (e : Event) : Decidable (DueOpen s e) := by
 unfold DueOpen
 split
 · split <;> infer_instance
 · infer_instance

def noTimes : Platform := ⟨fun _ => none, fun _ => none⟩

/-- One workflow, run every `seconds`, last fired at second 100. -/
def everySeconds (seconds : Bytes) : Workflows where
 scripts := [{ id := "a", trigger := { type := .interval, expression := seconds, lastFiredUnix := 100 } }]
 distinct := nodup_singleton _

/-- A heartbeat, its evaluation, and the timer it arms, `elapsed` later. -/
def heartbeatAndTimer (elapsed : ℕ) : List Event := [
 ⟨0, .tick⟩, ⟨1000, .listRead⟩, ⟨1000, .listed⟩, ⟨elapsed, .timerExpired⟩, ⟨1000, .loadRead 0⟩,
 ⟨1000, .loadReply 0⟩]

theorem due_fired_once_sample :
  ((TransitionRuns.run (step noTimes) (start (everySeconds "200") 299000000)
   (heartbeatAndTimer 1000000)).fires.map fun f => (f.id, f.due)).Nodup :=
 due_fired_once noTimes (everySeconds "200") 299000000 (heartbeatAndTimer 1000000) (by decide)

/-- Past due, the interval is caught up; the timer is armed for the same due time and fires it again. -/
theorem interval_fired_twice :
  ¬ ((TransitionRuns.run (step noTimes) (start (everySeconds "10") 200000000)
   (heartbeatAndTimer 1000)).fires.map fun f => (f.id, f.due)).Nodup := by
 decide

end MoltBrowser.AutomationScheduler
