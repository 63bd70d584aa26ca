import MoltBrowser.AutomationSchedulerFires

set_option autoImplicit false

/-!
# Due times that pass

An evaluation catches up what was due since a recorded fire. A workflow that
never fired has none: its due time passes unless a timer happened to be armed
for it and to expire before the next evaluation.
-/
namespace MoltBrowser.AutomationScheduler
open AutomationScript List

variable (p : Platform)

def dueOf (s : State) (script : Script) : Option ℤ :=
 if script.trigger.lastFiredUnix > 0 then
  nextFireTime p script.trigger (script.trigger.lastFiredUnix * kSecond)
 else s.evaluations.head?.bind (nextFireTime p script.trigger)

/-- When an evaluation completes, what was due before the one before it has been fired since. -/
def Serves (s : State) (e : Event) : Prop :=
 s.evaluations.length < (step p s e).evaluations.length →
  ∀ script ∈ s.storage.scripts, eligible script = true → isTimed script.trigger = true →
   ∀ due ∈ dueOf p s script, ∀ previous ∈ s.evaluations.getLast?, due < previous →
    ∃ f ∈ (step p s e).fires, f.id = script.id ∧ due ≤ f.time

/-- No due time that a clock now at `clock` can pass. -/
def NeverDue (clock : ℤ) (trigger : Trigger) : Prop :=
 ∀ t ≥ clock, ∀ due ∈ nextFireTime p trigger t, kMaxTime ≤ due

/-! ## What an evaluation fires -/

section Evaluate

variable {p} {now : ℤ}

theorem catchUp_fires (script : Script) (s : State) :
  s.fires <+: (catchUp p now script s).fires ∧
   ∀ due ∈ missed p now script.trigger, ⟨script.id, due, now⟩ ∈ (catchUp p now script s).fires := by
 unfold catchUp
 split
 · next due hmissed =>
   refine ⟨prefix_append _ _, fun due' hdue' => ?_⟩
   rw [hmissed, Option.mem_some_iff] at hdue'
   exact hdue' ▸ mem_append_right _ (mem_singleton_self _)
 · next hmissed =>
   refine ⟨prefix_rfl, fun due' hdue' => ?_⟩
   rw [hmissed] at hdue'
   cases hdue'

theorem consider_fst (acc : State × Option (ℤ × Bytes)) (script : Script) :
  (consider p now acc script).1 =
   if eligible script = true then catchUp p now script acc.1 else acc.1 := by
 unfold consider
 by_cases helig : eligible script = true
 · simp only [helig, Bool.not_true, Bool.false_eq_true, ↓reduceIte]
 · simp only [helig, Bool.not_false, Bool.false_eq_true, ↓reduceIte]

variable (p now) in
theorem consider_induction {P : State → Prop} (scripts : List Script)
  (hstep : ∀ script ∈ scripts, ∀ s, P s → P (catchUp p now script s))
  {s : State} (soonest : Option (ℤ × Bytes)) (h : P s) :
  P (scripts.foldl (consider p now) (s, soonest)).1 := by
 induction scripts generalizing s soonest with
 | nil => exact h
 | cons script rest ih =>
  have hfirst : P (consider p now (s, soonest) script).1 := by
   rw [consider_fst]
   split
   · exact hstep script mem_cons_self s h
   · exact h
  exact ih (fun other hother => hstep other (mem_cons_of_mem _ hother))
   (consider p now (s, soonest) script).2 hfirst

theorem fires_kept (scripts : List Script) (s : State) (soonest : Option (ℤ × Bytes)) :
  s.fires <+: (scripts.foldl (consider p now) (s, soonest)).1.fires :=
 consider_induction p now (P := fun s' => s.fires <+: s'.fires) scripts
  (fun script _ s' h => h.trans (catchUp_fires script s').1) soonest prefix_rfl

theorem missed_fired {scripts : List Script} {script : Script} {due : ℤ} (s : State)
  (soonest : Option (ℤ × Bytes)) (hmem : script ∈ scripts) (helig : eligible script = true)
  (hmissed : missed p now script.trigger = some due) :
  ⟨script.id, due, now⟩ ∈ (scripts.foldl (consider p now) (s, soonest)).1.fires := by
 induction scripts generalizing s soonest with
 | nil => cases hmem
 | cons other rest ih =>
  rw [foldl_cons]
  rcases mem_cons.1 hmem with rfl | hmem
  · have hconsider : (consider p now (s, soonest) script).1 = catchUp p now script s := by
     rw [consider_fst, if_pos helig]
    exact (fires_kept rest (consider p now (s, soonest) script).1
     (consider p now (s, soonest) script).2).subset (hconsider ▸ (catchUp_fires script s).2 due hmissed)
  · exact ih _ _ hmem

end Evaluate

/-! ## Runs from a recorded last fire -/

/-- What a timed workflow needs to be caught up: a recorded fire, or no due time to miss. -/
def Recorded (clock : ℤ) (script : Script) : Prop :=
 eligible script = true → isTimed script.trigger = true →
  script.trigger.lastFiredUnix > 0 ∨ NeverDue p clock script.trigger

structure Recording (clock : ℤ) (s : State) : Prop where
 recorded : ∀ script ∈ s.storage.scripts, Recorded p clock script
 fresh : Fresh s
 after : clock ≤ s.clock
 before : s.clock ≤ kMaxTime
 listed : ∀ l ∈ s.listing, clock ≤ l.now ∧ l.now ≤ s.clock ∧ ∀ t ∈ s.evaluations, t ≤ l.now
 evaluated : ∀ t ∈ s.evaluations, clock ≤ t ∧ t ≤ s.clock

section Forward

variable {p} {clock : ℤ}

theorem setLast_eligible (id : Bytes) (unix : ℤ) (script : Script) :
  eligible (setLast id unix script) = eligible script := by
 unfold setLast
 split <;> rfl

theorem setLast_isTimed (id : Bytes) (unix : ℤ) (script : Script) :
  isTimed (setLast id unix script).trigger = isTimed script.trigger := by
 unfold setLast
 split <;> rfl

variable {s : State}

theorem fire_recorded {id : Bytes} {due time : ℤ} (hclock : kSecond ≤ time)
  (htime : time ≤ kMaxTime) (h : ∀ script ∈ s.storage.scripts, Recorded p clock script) :
  ∀ script ∈ (fire id due time s).storage.scripts, Recorded p clock script := by
 intro script hscript helig htimed
 obtain ⟨old, hold, rfl⟩ := mem_setLastFired.1 hscript
 rw [setLast_eligible] at helig
 rw [setLast_isTimed] at htimed
 by_cases hid : old.id = id
 · left
   simp only [setLast, hid, ↓reduceIte, keepPositive_second htime]
   rcases second_cases time with ⟨-, heq⟩ | ⟨hneg, -⟩
   · rw [heq]
     unfold kSecond at *
     omega
   · unfold kSecond at *
     omega
 · rw [setLast, if_neg hid]
   exact h old hold helig htimed

theorem evaluate_recorded {now : ℤ} (scripts : List Script) (hclock : kSecond ≤ now)
  (hnow : now ≤ kMaxTime) (h : ∀ script ∈ s.storage.scripts, Recorded p clock script) :
  (∀ script ∈ (evaluate p now scripts s).storage.scripts, Recorded p clock script) ∧
   (evaluate p now scripts s).clock = s.clock ∧ (evaluate p now scripts s).listing = s.listing ∧
   (evaluate p now scripts s).evaluations = s.evaluations ++ [now] := by
 have hfold : _ ∧ _ ∧ _ ∧ _ := consider_induction p now (P := fun s' => (∀ script ∈ s'.storage.scripts, Recorded p clock script) ∧ s'.clock = s.clock ∧
   s'.listing = s.listing ∧ s'.evaluations = s.evaluations) scripts ?_ none
  ⟨h, rfl, rfl, rfl⟩
 · obtain ⟨hrecorded, hsame, hlisting, hevaluations⟩ := hfold
   exact ⟨hrecorded, hsame, hlisting, congrArg (· ++ [now]) hevaluations⟩
 · rintro script - s' ⟨hrecorded, hsame, hlisting, hevaluations⟩
   obtain ⟨hclock', hlisting', -, -, hevaluations'⟩ := catchUp_frame p now script s'
   refine ⟨?_, hclock'.trans hsame, hlisting'.trans hlisting, hevaluations'.trans hevaluations⟩
   unfold catchUp
   split
   · exact fire_recorded hclock hnow hrecorded
   · exact hrecorded

theorem Recording.passTime (h : Recording p clock s) (elapsed : ℕ) :
  Recording p clock (passTime elapsed s) := by
 have hle : s.clock ≤ (AutomationScheduler.passTime elapsed s).clock :=
  le_min (Int.le_add_of_nonneg_right (Int.natCast_nonneg _)) h.before
 refine ⟨h.recorded, h.fresh, h.after.trans hle, min_le_right _ _, ?_, ?_⟩
 · exact fun l hl => ⟨(h.listed l hl).1, (h.listed l hl).2.1.trans hle, (h.listed l hl).2.2⟩
 · exact fun t ht => ⟨(h.evaluated t ht).1, (h.evaluated t ht).2.trans hle⟩

theorem Recording.armNext (hrecorded : ∀ script ∈ s.storage.scripts, Recorded p clock script)
  (hafter : clock ≤ s.clock) (hbefore : s.clock ≤ kMaxTime)
  (hlisted : ∀ l ∈ s.listing, clock ≤ l.now ∧ l.now ≤ s.clock ∧ ∀ t ∈ s.evaluations, t ≤ l.now)
  (hevaluated : ∀ t ∈ s.evaluations, clock ≤ t ∧ t ≤ s.clock) : Recording p clock (armNext s) := by
 unfold AutomationScheduler.armNext
 split
 · exact ⟨hrecorded, (fun _ _ hagain => by cases hagain), hafter, hbefore, hlisted, hevaluated⟩
 · refine ⟨hrecorded, ?_, hafter, hbefore, ?_, hevaluated⟩
   · intro l hl _ scripts hscripts
     cases hl
     cases hscripts
   · intro l hl
     cases hl
     exact ⟨hafter, le_rfl, fun t ht => (hevaluated t ht).2⟩

theorem Recording.onListed (hclock : kSecond ≤ clock) (h : Recording p clock s) :
  Recording p clock (onListed p s) := by
 unfold AutomationScheduler.onListed
 split
 · next now scripts hlisting =>
   obtain ⟨hafter, hnow, hprevious⟩ := h.listed _ hlisting
   dsimp only
   split
   · exact .armNext h.recorded h.after h.before (fun l hl => by cases hl) h.evaluated
   · obtain ⟨hrecorded, hsame, hnone, hevaluations⟩ := evaluate_recorded scripts
      (s := { s with listing := none }) (hclock.trans hafter) (hnow.trans h.before) h.recorded
     refine ⟨hrecorded, ?_, hsame.symm ▸ h.after, hsame.symm ▸ h.before, ?_, ?_⟩
     · intro l hl
       cases hnone.symm.trans hl
     · intro l hl
       cases hnone.symm.trans hl
     · intro t ht
       rw [hevaluations, mem_append, mem_singleton] at ht
       rw [hsame]
       rcases ht with ht | rfl
       · exact h.evaluated t ht
       · exact ⟨hafter, hnow⟩
 · exact h

theorem Recording.step (hclock : kSecond ≤ clock) (h : Recording p clock s) (e : Event) :
  Recording p clock (step p s e) := by
 have hpassed := h.passTime e.elapsed
 obtain ⟨elapsed, action⟩ := e
 unfold AutomationScheduler.step
 cases action with
 | tick =>
  exact .armNext hpassed.recorded hpassed.after hpassed.before hpassed.listed hpassed.evaluated
 | listRead =>
  refine ⟨h.recorded, ?_, hpassed.after, hpassed.before, ?_, hpassed.evaluated⟩
  · intro l hl hagain scripts hscripts
    obtain ⟨l, hlisting, rfl⟩ := Option.map_eq_some_iff.1 hl
    cases hscripts
    cases hsnapshot : l.snapshot with
    | none => rfl
    | some scripts => exact h.fresh l hlisting hagain scripts hsnapshot
  · intro l hl
    obtain ⟨l, hlisting, rfl⟩ := Option.map_eq_some_iff.1 hl
    exact hpassed.listed l hlisting
 | listed => exact hpassed.onListed hclock
 | timerExpired =>
  change Recording p clock (onTimerExpired _)
  unfold onTimerExpired
  split
  · split
    · exact ⟨hpassed.recorded, hpassed.fresh, hpassed.after, hpassed.before, hpassed.listed,
       hpassed.evaluated⟩
    · exact hpassed
  · exact hpassed
 | loadRead k =>
  exact ⟨hpassed.recorded, hpassed.fresh, hpassed.after, hpassed.before, hpassed.listed,
   hpassed.evaluated⟩
 | loadReply k =>
  change Recording p clock (onTimerScriptLoaded k _)
  unfold onTimerScriptLoaded
  split
  · dsimp only
    split
    · exact .armNext (fire_recorded (hclock.trans hpassed.after) hpassed.before hpassed.recorded)
       hpassed.after hpassed.before hpassed.listed hpassed.evaluated
    · exact .armNext hpassed.recorded hpassed.after hpassed.before hpassed.listed hpassed.evaluated
  · exact hpassed

theorem armNext_evaluations (s : State) : (armNext s).evaluations = s.evaluations := by
 unfold armNext
 split <;> rfl

theorem armNext_storage (s : State) : (armNext s).storage = s.storage := by
 unfold armNext
 split <;> rfl

theorem step_evaluations {e : Event}
  (h : s.evaluations.length < (step p s e).evaluations.length) :
  ∃ now scripts, s.listing = some ⟨now, some scripts⟩ ∧ s.listAgain = false ∧
   step p s e = evaluate p now scripts { passTime e.elapsed s with listing := none } := by
 have hsame : ∀ {s' : State}, s'.evaluations = s.evaluations →
   ¬ s.evaluations.length < s'.evaluations.length := fun heq => by rw [heq]; exact lt_irrefl _
 obtain ⟨elapsed, action⟩ := e
 cases action with
 | tick => exact absurd h (hsame (armNext_evaluations _))
 | listRead => exact absurd h (hsame rfl)
 | listed =>
  simp only [step, act, onListed] at h ⊢
  split at h
  · next now scripts hlisting =>
    split at h
    · exact absurd h (hsame (armNext_evaluations _))
    · next hagain =>
      have hlisting' : s.listing = some ⟨now, some scripts⟩ := hlisting
      have hagain' : s.listAgain = false := Bool.not_eq_true _ ▸ hagain
      refine ⟨now, scripts, hlisting', hagain', ?_⟩
      simp only [hagain, Bool.false_eq_true, ↓reduceIte]
  · exact absurd h (hsame rfl)
 | timerExpired =>
  refine absurd h (hsame ?_)
  change (onTimerExpired _).evaluations = _
  unfold onTimerExpired
  split
  · split <;> rfl
  · rfl
 | loadRead k => exact absurd h (hsame rfl)
 | loadReply k =>
  refine absurd h (hsame ?_)
  change (onTimerScriptLoaded k _).evaluations = _
  unfold onTimerScriptLoaded
  split
  · dsimp only
    rw [armNext_evaluations]
    split <;> rfl
  · rfl

theorem Recording.serves (h : Recording p clock s) (e : Event) : Serves p s e := by
 intro hgrow script hscript helig htimed due hdue previous hprevious hlt
 obtain ⟨now, scripts, hlisting, hagain, hstep⟩ := step_evaluations hgrow
 have hsame : scripts = s.storage.scripts := h.fresh _ hlisting hagain scripts rfl
 have hprev := mem_of_mem_getLast? hprevious
 have hnow : previous ≤ now := (h.listed _ hlisting).2.2 _ hprev
 by_cases hlast : script.trigger.lastFiredUnix > 0
 · rw [dueOf, if_pos hlast, Option.mem_def] at hdue
   have hmissed : missed p now script.trigger = some due := by
    rw [missed, if_pos ⟨htimed, hlast⟩]
    exact Option.filter_eq_some_iff.2 ⟨hdue, decide_eq_true (by omega)⟩
   refine ⟨⟨script.id, due, now⟩, ?_, rfl, (hlt.trans_le hnow).le⟩
   rw [hstep]
   exact missed_fired _ none (hsame ▸ hscript) helig hmissed
 · rw [dueOf, if_neg hlast] at hdue
   obtain ⟨first, hfirst, hnext⟩ := Option.bind_eq_some_iff.1 hdue
   have hnever := (h.recorded script hscript helig htimed).resolve_left hlast
   have hpast := hnever first (h.evaluated _ (mem_of_mem_head? hfirst)).1 due hnext
   have := (h.evaluated _ hprev).2.trans h.before
   omega

end Forward

/-! ## A workflow that never fired -/

section Backward

variable {p}

theorem next_gt {trigger : Trigger} {now due : ℤ} (htimed : isTimed trigger = true)
  (hlast : ¬ trigger.lastFiredUnix > 0) (hnow : 0 ≤ now)
  (h : nextFireTime p trigger now = some due) : now < due := by
 unfold nextFireTime at h
 split at h
 · cases h
 · split at h
   · cases h
   · have hge := nextCronFire_ge h
     rw [secondsSinceUnixEpoch_of_nonneg hnow] at hge
     unfold kSecond at hge
     rw [Int.tdiv_eq_ediv_of_nonneg (by omega)] at hge
     omega
   · split at h
     · cases h
     · split at h
       · cases h
       · cases h
         unfold kSecond
         omega
   · next htype => simp [isTimed, htype] at htimed
   · cases h

/-- Between evaluations, with a workflow that never fired. -/
structure Idle (script : Script) (now : ℤ) (s : State) : Prop where
 clock : s.clock = now
 stored : script ∈ s.storage.scripts
 unfired : ∀ f ∈ s.fires, f.id ≠ script.id
 listing : s.listing = none
 again : s.listAgain = false

def evaluateAfter (elapsed : ℕ) : List Event := [⟨elapsed, .tick⟩, ⟨0, .listRead⟩, ⟨0, .listed⟩]

variable {script : Script} {s : State}

theorem run_evaluateAfter {now : ℤ} (h : Idle script now s)
  (elapsed : ℕ) (hroom : now + elapsed ≤ kMaxTime) :
  TransitionRuns.run (step p) s (evaluateAfter elapsed) =
   evaluate p (now + elapsed) s.storage.scripts { s with clock := now + elapsed } := by
 obtain ⟨rfl, -, -, hlisting, hagain⟩ := h
 have hclock : min (s.clock + elapsed) kMaxTime = s.clock + elapsed := min_eq_left hroom
 obtain ⟨clock, storage, listing, listAgain, timer, loads, evaluations, fires⟩ := s
 cases hlisting
 cases hagain
 simp only [evaluateAfter, TransitionRuns.run_cons, TransitionRuns.run_nil, step, passTime, act,
  armNext, Option.isSome_none, Bool.false_eq_true, ↓reduceIte, Option.map_some, Option.getD_none,
  onListed, Nat.cast_zero, add_zero] at hclock ⊢
 simp only [hclock]

theorem Idle.evaluate {now : ℤ} (h : Idle script now s)
  (hlast : ¬ script.trigger.lastFiredUnix > 0) :
  Idle script now (evaluate p now s.storage.scripts s) ∧
   (evaluate p now s.storage.scripts s).evaluations = s.evaluations ++ [now] := by
 have hfold : (Idle script now _ ∧ _) := consider_induction p now
  (P := fun s' => Idle script now s' ∧ s'.evaluations = s.evaluations) s.storage.scripts ?_ none
  ⟨h, rfl⟩
 · obtain ⟨⟨hclock, hstored, hunfired, hlisting, hagain⟩, hevaluations⟩ := hfold
   exact ⟨⟨hclock, hstored, hunfired, hlisting, hagain⟩, congrArg (· ++ [now]) hevaluations⟩
 · rintro other hother s' ⟨hidle, hevaluations⟩
   obtain ⟨hclock, hlisting, hagain, -, hevaluations'⟩ := catchUp_frame p now other s'
   refine ⟨⟨hclock.trans hidle.clock, ?_, ?_, hlisting.trans hidle.listing,
    hagain.trans hidle.again⟩, hevaluations'.trans hevaluations⟩
   all_goals
    unfold catchUp
    split
   · next due hmissed =>
     have hne : script.id ≠ other.id := fun hid =>
      hlast (s.storage.unique h.stored hother hid ▸ (missed_spec hmissed).2.1)
     exact mem_setLastFired.2 ⟨script, hidle.stored, by rw [setLast, if_neg hne]⟩
   · exact hidle.stored
   · next due hmissed =>
     have hne : script.id ≠ other.id := fun hid =>
      hlast (s.storage.unique h.stored hother hid ▸ (missed_spec hmissed).2.1)
     intro f hf
     rcases mem_append.1 hf with hf | hf
     · exact hidle.unfired f hf
     · rw [mem_singleton.1 hf]
       exact hne.symm
   · exact hidle.unfired

theorem Idle.evaluateAfter {now : ℤ} (h : Idle script now s)
  (hlast : ¬ script.trigger.lastFiredUnix > 0) (elapsed : ℕ) (hroom : now + elapsed ≤ kMaxTime) :
  Idle script (now + elapsed) (TransitionRuns.run (step p) s (evaluateAfter elapsed)) ∧
   (TransitionRuns.run (step p) s (AutomationScheduler.evaluateAfter elapsed)).evaluations =
    s.evaluations ++ [now + elapsed] := by
 rw [run_evaluateAfter h elapsed hroom]
 exact Idle.evaluate (s := { s with clock := now + elapsed })
  ⟨rfl, h.stored, h.unfired, h.listing, h.again⟩ hlast

theorem not_served {w : Workflows} {clock : Int64} {t due : ℤ}
  (hmem : script ∈ w.scripts) (helig : eligible script = true)
  (htimed : isTimed script.trigger = true) (hlast : ¬ script.trigger.lastFiredUnix > 0)
  (hclock : 0 ≤ clock.toInt) (ht : clock.toInt ≤ t)
  (hnext : nextFireTime p script.trigger t = some due) (hdue : due < kMaxTime) :
  ¬ ∀ events, TransitionRuns.Along (step p) (Serves p) (start w clock) events := by
 intro hserves
 have hgt := next_gt htimed hlast (by omega) hnext
 obtain ⟨first, hfirst⟩ := Int.eq_ofNat_of_zero_le (show 0 ≤ t - clock.toInt by omega)
 obtain ⟨second, hsecond⟩ := Int.eq_ofNat_of_zero_le (show 0 ≤ due + 1 - t by omega)
 have hstart : Idle script clock.toInt (start w clock) :=
  ⟨rfl, hmem, (fun f hf => by cases hf), rfl, rfl⟩
 obtain ⟨hidle₁, heval₁⟩ := hstart.evaluateAfter (p := p) hlast first (by omega)
 obtain ⟨hidle₂, heval₂⟩ := hidle₁.evaluateAfter (p := p) hlast second (by omega)
 rw [show clock.toInt + (first : ℤ) = t by omega] at heval₁ heval₂ hidle₂
 rw [show t + (second : ℤ) = due + 1 by omega] at heval₂ hidle₂
 rw [heval₁, show (start w clock).evaluations = [] from rfl, nil_append] at heval₂
 have halong := hserves (evaluateAfter first ++ (evaluateAfter second ++ evaluateAfter 0))
 rw [TransitionRuns.along_append, TransitionRuns.along_append] at halong
 generalize TransitionRuns.run (step p) (TransitionRuns.run (step p) (start w clock)
  (evaluateAfter first)) (evaluateAfter second) = s at heval₂ hidle₂ halong
 obtain ⟨hidle₃, heval₃⟩ := hidle₂.evaluateAfter (p := p) hlast 0 (by omega)
 have hlisted := halong.2.2.2.2.1
 generalize hs : step p (step p s ⟨0, .tick⟩) ⟨0, .listRead⟩ = before at hlisted
 have hevaluations : before.evaluations = [t, due + 1] := by
  rw [← hs]
  exact (armNext_evaluations _).trans heval₂
 have hstorage : before.storage = s.storage := by
  rw [← hs]
  exact armNext_storage _
 have hrun : TransitionRuns.run (step p) s (evaluateAfter 0) = step p before ⟨0, .listed⟩ := by
  rw [← hs]
  rfl
 rw [hrun] at hidle₃ heval₃
 obtain ⟨f, hf, hid, -⟩ := hlisted (by simp [heval₃, heval₂, hevaluations]) script
  (hstorage ▸ hidle₂.stored) helig htimed due
  (by rw [dueOf, if_neg hlast, hevaluations]; exact hnext) (due + 1) (by rw [hevaluations]; rfl)
  (Int.lt_succ due)
 exact hidle₃.unfired f hf hid

end Backward

/-- From the stored workflows, in every run what was due before an evaluation has been fired by the next
one, exactly when every timed workflow has a recorded fire or no due time to pass. -/
theorem due_served_iff (p : Platform) (w : Workflows) (clock : Int64) (hclock : kSecond ≤ clock.toInt) :
  (∀ events, TransitionRuns.Along (step p) (Serves p) (start w clock) events) ↔
   ∀ script ∈ w.scripts, Recorded p clock.toInt script := by
 constructor
 · intro hserves script hscript helig htimed
   by_contra hnot
   rw [not_or] at hnot
   obtain ⟨hlast, hnever⟩ := hnot
   unfold NeverDue at hnever
   push Not at hnever
   obtain ⟨t, ht, due, hnext, hdue⟩ := hnever
   exact not_served hscript helig htimed hlast (le_trans (by decide) hclock) ht hnext hdue hserves
 · intro hrecorded events
   refine TransitionRuns.along_of_invariant (C := fun _ _ => True) (I := Recording p clock.toInt)
    (fun s e h _ => h.step hclock e) (fun s e h _ => h.serves e) ?_
    (TransitionRuns.along_of_forall_mem fun _ _ => trivial)
   refine ⟨hrecorded, (fun l hl => by cases hl), le_rfl, ?_, (fun l hl => by cases hl),
    (fun t ht => by cases ht)⟩
   have := clock.toInt_lt
   unfold kMaxTime
   exact Int.le_sub_one_of_lt this

/-! ## An interval that never ran -/

instance (s : State) (e : Event) : Decidable (Serves p s e) := by
 unfold Serves
 infer_instance

theorem due_served_iff_sample :
  (TransitionRuns.run (step noTimes) (start (everySeconds "10") 200000000) (evaluateAfter 0)).fires ≠ [] ∧
   ∀ events, TransitionRuns.Along (step noTimes) (Serves noTimes) (start (everySeconds "10") 200000000) events := by
 refine ⟨by decide, (due_served_iff noTimes (everySeconds "10") 200000000 (by decide)).2 ?_⟩
 intro script hscript _ _
 rw [List.mem_singleton.1 hscript]
 exact .inl (by decide)

def neverRan : Workflows where
 scripts := [{ id := "a", trigger := { type := .interval, expression := "120" } }]
 distinct := nodup_singleton _

def everyMinute : List Event :=
 evaluateAfter 0 ++ evaluateAfter 60000000 ++ evaluateAfter 60000000 ++ evaluateAfter 60000000 ++
  evaluateAfter 60000000

/-- Each heartbeat puts the timer two minutes off again. -/
theorem interval_never_fired :
  ¬ TransitionRuns.Along (step noTimes) (Serves noTimes) (start neverRan 1000000000) everyMinute := by
 decide

end MoltBrowser.AutomationScheduler
