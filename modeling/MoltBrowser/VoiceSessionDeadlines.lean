import MoltBrowser.VoiceSessionLogic

set_option autoImplicit false

/-!
# The session's timer

One timer is armed for the next of five deadlines. A tick lets go of every deadline that has passed,
but for the follow-up window of an utterance that began in it.
-/
namespace MoltBrowser.VoiceSession
open TransitionRuns List
namespace Logic

variable (s : Logic)

/-- The deadlines that `NextDeadline` considers, in its order. -/
def deadlines : List ℤ :=
 (if s.wakeUntilMs > 0 then [s.wakeUntilMs] else []) ++
 (if s.wakeEarconAtMs > 0 then [s.wakeEarconAtMs] else []) ++
 (match s.utterance with
  | none => []
  | some u => (if u.endedMs ≥ 0 then [u.endedMs + kFinalGraceMs] else []) ++
    if u.started then [u.startedMs + kMaxUtteranceMs] else []) ++
 (if s.followUpUntilMs > 0 then [s.followUpUntilMs] else [])

def consider (next : Option ℤ) (time : ℤ) : Option ℤ :=
 match next with
 | none => some time
 | some earliest => if time < earliest then some time else next

def nextDeadline : Option ℤ := if !s.listening then none else s.deadlines.foldl consider none

/-- `OnTick` at the next deadline, as a timer armed for it calls it. -/
def tickAtDeadline : Logic :=
 match s.nextDeadline with
 | none => s
 | some time => (s.onTick time).1

theorem foldl_consider (times : List ℤ) (earliest : ℤ) :
  ∃ time, times.foldl consider (some earliest) = some time ∧ time ∈ earliest :: times ∧
   ∀ other ∈ earliest :: times, time ≤ other := by
 induction times generalizing earliest with
 | nil => exact ⟨earliest, rfl, mem_singleton_self _, fun other h => (mem_singleton.1 h).ge⟩
 | cons first times ih =>
  rw [foldl_cons, consider]
  split
  · next hlt =>
    obtain ⟨time, hfold, hmem, hle⟩ := ih first
    refine ⟨time, hfold, mem_cons_of_mem _ hmem, fun other hother => ?_⟩
    rcases mem_cons.1 hother with rfl | hother
    · exact (hle first mem_cons_self).trans hlt.le
    · exact hle other hother
  · next hge =>
    obtain ⟨time, hfold, hmem, hle⟩ := ih earliest
    have hearliest := hle earliest mem_cons_self
    refine ⟨time, hfold, ?_, fun other hother => ?_⟩
    · rcases mem_cons.1 hmem with rfl | hmem
      · exact mem_cons_self
      · exact mem_cons_of_mem _ (mem_cons_of_mem _ hmem)
    · rcases mem_cons.1 hother with rfl | hother
      · exact hearliest
      · rcases mem_cons.1 hother with rfl | hother
        · omega
        · exact hle other (mem_cons_of_mem _ hother)

theorem nextDeadline_spec {s : Logic} {time : ℤ} (h : s.nextDeadline = some time) :
  s.listening = true ∧ time ∈ s.deadlines ∧ ∀ other ∈ s.deadlines, time ≤ other := by
 rw [nextDeadline] at h
 split at h
 · cases h
 · next hlistening =>
   refine ⟨by simpa using hlistening, ?_⟩
   cases hall : s.deadlines with
   | nil =>
    rw [hall] at h
    cases h
   | cons first times =>
    rw [hall, foldl_cons, consider] at h
    obtain ⟨earliest, hfold, hmem, hle⟩ := foldl_consider times first
    obtain rfl := Option.some.inj (hfold.symm.trans h)
    exact ⟨hmem, hle⟩

theorem nextDeadline_none {s : Logic} (h : s.nextDeadline = none) (hlistening : s.listening = true) : s.deadlines = [] := by
 rw [nextDeadline, hlistening] at h
 cases hall : s.deadlines with
 | nil => rfl
 | cons first times =>
  rw [hall, Bool.not_true, if_neg Bool.false_ne_true, foldl_cons, consider] at h
  obtain ⟨earliest, hfold, -⟩ := foldl_consider times first
  rw [hfold] at h
  cases h

theorem forall_nextDeadline {s : Logic} (hlistening : s.listening = true) (now : ℤ) :
  (∀ time ∈ s.nextDeadline, now < time) ↔ ∀ time ∈ s.deadlines, now < time := by
 constructor
 · intro h time hmem
   cases hnext : s.nextDeadline with
   | none =>
    rw [nextDeadline_none hnext hlistening] at hmem
    cases hmem
   | some earliest => exact (h earliest hnext).trans_le ((nextDeadline_spec hnext).2.2 time hmem)
 · exact fun h time hnext => h time (nextDeadline_spec hnext).2.1

/-! ## What a tick does -/

def passed (time now : ℤ) : ℤ := if time > 0 && now ≥ time then 0 else time

/-- An utterance that a tick ends: nothing said after the wake phrase, no final, or too long. -/
def endsAt (now : ℤ) (u : Utterance) : Bool :=
 (s.wakeUntilMs > 0 && now ≥ s.wakeUntilMs && (u.woke && !u.started)) ||
  ((u.endedMs ≥ 0 && now - u.endedMs ≥ kFinalGraceMs) || (u.started && now - u.startedMs ≥ kMaxUtteranceMs))

structure Ticked (s : Logic) (now : ℤ) (t : Logic) : Prop where
 listening : t.listening = s.listening
 wake : t.wakeUntilMs = passed s.wakeUntilMs now
 earcon : t.wakeEarconAtMs = passed s.wakeEarconAtMs now
 utterance : t.utterance = s.utterance.filter fun u => !s.endsAt now u
 followUp : t.followUpUntilMs = if t.keepsFollowUpOpen then s.followUpUntilMs else passed s.followUpUntilMs now

theorem tickEarcon_eq (a : Actions) (now : ℤ) :
  (s.tickEarcon a now).1 = { s with wakeEarconAtMs := passed s.wakeEarconAtMs now } := by
 rw [tickEarcon, passed]
 split <;> rfl

theorem endUtterance_if (p : Utterance → Bool) (a b : Actions) :
  (if s.utterance.any p then ({ s with utterance := none }, a) else (s, b)).1 =
   { s with utterance := s.utterance.filter fun u => !p u } := by
 cases hu : s.utterance with
 | none =>
  rw [Option.any_none, if_neg Bool.false_ne_true, Option.filter_none, ← hu]
 | some u =>
  rw [Option.any_some, Option.filter_some]
  cases hp : p u with
  | true => rfl
  | false =>
   rw [if_neg Bool.false_ne_true, Bool.not_false, if_pos rfl, ← hu]

theorem tickWake_eq (a : Actions) (now : ℤ) : (s.tickWake a now).1 = { s with
  wakeUntilMs := passed s.wakeUntilMs now
  utterance := s.utterance.filter fun u =>
   !(s.wakeUntilMs > 0 && now ≥ s.wakeUntilMs && (u.woke && !u.started)) } := by
 rw [tickWake, passed]
 split
 · next hpassed =>
   simp only [hpassed, Bool.true_and]
   exact endUtterance_if { s with wakeUntilMs := 0 } _ _ _
 · next hwaits =>
   rw [Bool.not_eq_true] at hwaits
   have hkept : (s.utterance.filter fun _ => true) = s.utterance := by
    cases s.utterance <;> rfl
   simp only [hwaits, Bool.false_and, Bool.not_false, hkept]

theorem tickGrace_eq (a : Actions) (now : ℤ) : (s.tickGrace a now).1 =
  { s with utterance := s.utterance.filter fun u => !(u.endedMs ≥ 0 && now - u.endedMs ≥ kFinalGraceMs) } :=
 s.endUtterance_if _ _ a

theorem tickLongest_eq (a : Actions) (now : ℤ) : (s.tickLongest a now).1 =
  { s with utterance := s.utterance.filter fun u => !(u.started && now - u.startedMs ≥ kMaxUtteranceMs) } :=
 s.endUtterance_if _ _ a

theorem tickFollowUp_eq (now : ℤ) : s.tickFollowUp now =
  { s with followUpUntilMs := if s.keepsFollowUpOpen then s.followUpUntilMs else passed s.followUpUntilMs now } := by
 rw [tickFollowUp, passed]
 cases s.keepsFollowUpOpen with
 | true => simp only [Bool.not_true, Bool.and_false, Bool.false_eq_true, if_false, if_true]
 | false =>
  simp only [Bool.not_false, Bool.and_true, Bool.false_eq_true, if_false]
  split <;> rfl

theorem filter_not_or (o : Option Utterance) (p q : Utterance → Bool) :
  (o.filter fun u => !p u).filter (fun u => !q u) = o.filter fun u => !(p u || q u) := by
 rw [Option.filter_filter]
 congr 1
 funext u
 rw [Bool.not_or, Bool.and_comm]

theorem onTick_spec {s : Logic} (hlistening : s.listening = true) (now : ℤ) : Ticked s now (s.onTick now).1 := by
 have hstages : ∃ a b c d, (s.onTick now).1 =
   ((((((s.tickEarcon {} now).1.tickWake a now).1.tickGrace b now).1.tickLongest c now).1.tickFollowUp now).finish
    d now).1 := by
  unfold onTick
  rw [hlistening]
  exact ⟨_, _, _, _, rfl⟩
 obtain ⟨a, b, c, d, heq⟩ := hstages
 rw [heq, tickEarcon_eq, tickWake_eq, tickGrace_eq, tickLongest_eq, tickFollowUp_eq]
 refine ⟨rfl, rfl, rfl, ?_, rfl⟩
 change (((s.utterance.filter _).filter _).filter _) = _
 rw [filter_not_or, filter_not_or]
 rfl

/-! ## What waits has a deadline -/

/-- An utterance not begun waits for words after its wake phrase, and one in the window has begun. -/
structure Timed (s : Logic) : Prop where
 wake : 0 ≤ s.wakeUntilMs
 earcon : 0 ≤ s.wakeEarconAtMs
 followUp : 0 ≤ s.followUpUntilMs
 waits : ∀ u ∈ s.utterance, u.started = false → u.woke = true ∧ 0 < s.wakeUntilMs
 opens : ∀ u ∈ s.utterance, u.isOpen = true → u.woke = false
 idle : s.listening = false → s.wakeUntilMs = 0 ∧ s.wakeEarconAtMs = 0 ∧ s.utterance = none

variable {s}

variable {t : Logic}

theorem Timed.congr (h : s.Timed) (hwake : t.wakeUntilMs = s.wakeUntilMs)
  (hearcon : t.wakeEarconAtMs = s.wakeEarconAtMs) (hutterance : t.utterance = s.utterance)
  (hlistening : t.listening = s.listening) (hfollowUp : 0 ≤ t.followUpUntilMs) : t.Timed := by
 obtain ⟨hw, he, hf, hwaits, hopens, hidle⟩ := h
 constructor
 · rwa [hwake]
 · rwa [hearcon]
 · exact hfollowUp
 · rwa [hutterance, hwake]
 · rwa [hutterance]
 · rwa [hlistening, hwake, hearcon, hutterance]

theorem Timed.finish (h : s.Timed) (a : Actions) (now : ℤ) : (s.finish a now).1.Timed :=
 h.congr rfl rfl rfl rfl h.followUp

theorem Timed.quiet (hwake : t.wakeUntilMs = 0) (hearcon : t.wakeEarconAtMs = 0)
  (hutterance : t.utterance = none) (hfollowUp : 0 ≤ t.followUpUntilMs) : t.Timed where
 wake := hwake.ge
 earcon := hearcon.ge
 followUp := hfollowUp
 waits := by simp [hutterance]
 opens := by simp [hutterance]
 idle _ := ⟨hwake, hearcon, hutterance⟩

variable {u : Utterance}

theorem Timed.begun (hlistening : t.listening = true) (hutterance : t.utterance = some u)
  (hstarted : u.started = true) (hopen : u.isOpen = true → u.woke = false) (hwake : 0 ≤ t.wakeUntilMs)
  (hearcon : 0 ≤ t.wakeEarconAtMs) (hfollowUp : 0 ≤ t.followUpUntilMs) : t.Timed where
 wake := hwake
 earcon := hearcon
 followUp := hfollowUp
 waits := by simp [hutterance, hstarted]
 opens := by simpa [hutterance] using hopen
 idle h := absurd (h.symm.trans hlistening) (by simp)

theorem newUtterance_opens (woke : Bool) (now : ℤ) (lag : Option ℤ) :
  (s.newUtterance woke now lag).isOpen = true → (s.newUtterance woke now lag).woke = false := by
 intro h
 rw [newUtterance, Bool.and_eq_true] at h
 exact Bool.not_eq_true' _ ▸ h.1

theorem Timed.onWake (h : s.Timed) (env : Environment) (now : ℕ) (lag : Option ℤ) : (s.onWake env now lag).1.Timed := by
 unfold Logic.onWake
 split
 · exact h
 · next hlistening =>
   split
   · exact h.finish _ _
   · refine Timed.finish ?_ _ _
     constructor
     · change 0 ≤ (now : ℤ) + 6000
       omega
     · change 0 ≤ (now : ℤ) + 700
       omega
     · exact h.followUp
     · rintro u hu -
       obtain rfl := Option.some.inj hu
       refine ⟨rfl, ?_⟩
       change 0 < (now : ℤ) + 6000
       omega
     · rintro u hu hopen
       obtain rfl := Option.some.inj hu
       exact newUtterance_opens true now lag hopen
     · intro hidle
       rw [Bool.not_eq_true, Bool.not_eq_false'] at hlistening
       exact absurd (hidle.symm.trans hlistening) Bool.false_ne_true

theorem Timed.onSpeechStart (h : s.Timed) (now : ℤ) (lag : Option ℤ) : (s.onSpeechStart now lag).1.Timed := by
 unfold Logic.onSpeechStart
 split
 · exact h
 · next hlistening =>
   rw [Bool.not_eq_true, Bool.not_eq_false'] at hlistening
   split
   · next u hu =>
     split
     · next hwoke =>
       rw [Bool.and_eq_true] at hwoke
       refine Timed.finish ?_ _ _
       exact .begun hlistening rfl rfl (h.opens u hu) le_rfl le_rfl h.followUp
     · refine Timed.finish ?_ _ _
       exact .begun hlistening rfl rfl (newUtterance_opens false now lag) h.wake h.earcon h.followUp
   · refine Timed.finish ?_ _ _
     exact .begun hlistening rfl rfl (newUtterance_opens false now lag) h.wake h.earcon h.followUp

theorem Timed.onPartial (h : s.Timed) (text : Bytes) (now : ℤ) (lag : Option ℤ) : (s.onPartial text now lag).1.Timed := by
 unfold Logic.onPartial
 split
 · exact h
 · next hlistening =>
   rw [Bool.not_eq_true, Bool.not_eq_false'] at hlistening
   have hopen : (s.utterance.getD (s.newUtterance false now lag)).isOpen = true →
     (s.utterance.getD (s.newUtterance false now lag)).woke = false := by
    cases hu : s.utterance with
    | none => exact newUtterance_opens false now lag
    | some u => exact h.opens u hu
   refine Timed.finish ?_ _ _
   cases hstarted : (s.utterance.getD (s.newUtterance false now lag)).started with
   | true => exact .begun hlistening rfl (by simp) (by simpa using hopen) h.wake h.earcon h.followUp
   | false => exact .begun hlistening rfl (by simp) (by simpa using hopen) le_rfl le_rfl h.followUp

theorem Timed.onFinal (h : s.Timed) (env : Environment) (text : Bytes) (confidence : ℚ) (now : ℤ) (lag : Option ℤ) :
  (s.onFinal env text confidence now lag).1.Timed := by
 unfold Logic.onFinal
 split
 · exact h
 · dsimp only
   split
   · refine Timed.finish ?_ _ _
     exact .quiet rfl rfl rfl le_rfl
   · refine Timed.finish ?_ _ _
     exact .quiet rfl rfl rfl h.followUp

theorem Timed.onSpeechEnd (h : s.Timed) (now : ℤ) (lag : Option ℤ) : (s.onSpeechEnd now lag).1.Timed := by
 unfold Logic.onSpeechEnd
 split
 · exact h
 · next hlistening =>
   rw [Bool.not_eq_true, Bool.not_eq_false'] at hlistening
   refine Timed.finish ?_ _ _
   cases hu : s.utterance with
   | none => exact h.congr rfl rfl (by simp [hu]) rfl h.followUp
   | some u =>
    -- The end of its speech leaves what it is.
    have hsame : ∀ v ∈ Option.map (fun u : Utterance =>
      if u.endedMs < 0 then { u with endedMs := now, lagged := u.lagged || isLagged lag } else u) (some u),
      v.started = u.started ∧ v.woke = u.woke ∧ v.isOpen = u.isOpen := by
     intro v hv
     obtain rfl := Option.some.inj hv
     dsimp only
     split <;> exact ⟨rfl, rfl, rfl⟩
    constructor
    · exact h.wake
    · exact h.earcon
    · exact h.followUp
    · intro v hv hstarted
      obtain ⟨hs, hw, -⟩ := hsame v hv
      rw [hw]
      exact h.waits u hu (hs ▸ hstarted)
    · intro v hv hopen
      obtain ⟨-, hw, ho⟩ := hsame v hv
      rw [hw]
      exact h.opens u hu (ho ▸ hopen)
    · intro hidle
      exact absurd (hidle.symm.trans hlistening) Bool.false_ne_true

theorem Timed.onBrowserActivity (h : s.Timed) (activity : BrowserActivity) (now : ℕ) :
  (s.onBrowserActivity activity now).1.Timed := by
 unfold Logic.onBrowserActivity
 split
 · exact h.finish _ _
 · refine Timed.finish ?_ _ _
   refine h.congr rfl rfl rfl rfl ?_
   dsimp only
   have hfollowUp := h.followUp
   have hwindows : 0 ≤ kAnswerWindowMs ∧ 0 ≤ kFollowUpWindowMs := by decide
   split_ifs <;> omega

theorem Timed.onAwaitingAnswer (h : s.Timed) (awaiting : Bool) (now : ℤ) : (s.onAwaitingAnswer awaiting now).1.Timed := by
 refine Timed.finish ?_ _ _
 refine h.congr rfl rfl rfl rfl ?_
 dsimp only
 have hfollowUp := h.followUp
 split_ifs <;> omega

theorem passed_nonneg {time : ℤ} (h : 0 ≤ time) (now : ℤ) : 0 ≤ passed time now := by
 rw [passed]
 split_ifs
 · exact le_rfl
 · exact h

theorem Timed.onTick (h : s.Timed) (now : ℤ) : (s.onTick now).1.Timed := by
 cases hlistening : s.listening with
 | false =>
  unfold Logic.onTick
  rw [hlistening]
  exact h.finish _ _
 | true =>
  obtain ⟨hl, hw, he, hu, hf⟩ := onTick_spec hlistening now
  have hkept : ∀ u ∈ (s.onTick now).1.utterance, s.utterance = some u ∧ s.endsAt now u = false := by
   intro u hmem
   rw [hu, Option.mem_def, Option.filter_eq_some_iff] at hmem
   exact ⟨hmem.1, by simpa using hmem.2⟩
  constructor
  · rw [hw]
    exact passed_nonneg h.wake now
  · rw [he]
    exact passed_nonneg h.earcon now
  · rw [hf]
    split
    · exact h.followUp
    · exact passed_nonneg h.followUp now
  · intro u hmem hstarted
    obtain ⟨hu, hends⟩ := hkept u hmem
    obtain ⟨hwoke, hwait⟩ := h.waits u hu hstarted
    refine ⟨hwoke, ?_⟩
    -- It was not ended, so its wait has not passed.
    rw [endsAt, hwoke, hstarted, Bool.or_eq_false_iff] at hends
    rw [hw, passed, if_neg (by simpa using hends.1)]
    exact hwait
  · exact fun u hmem => h.opens u (hkept u hmem).1
  · intro hidle
    exact absurd (hidle.symm.trans (hl.trans hlistening)) Bool.false_ne_true

theorem Timed.onHelperReady (h : s.Timed) (now : ℤ) : (s.onHelperReady now).1.Timed := by
 unfold Logic.onHelperReady
 split
 · exact h
 · next hrunning =>
   rw [Bool.not_eq_true, Bool.not_eq_false'] at hrunning
   obtain ⟨hw, he, hf, hwaits, hopens, -⟩ := h
   have hready : ({ s with ready := true } : Logic).Timed := by
    refine ⟨hw, he, hf, hwaits, hopens, fun hidle => ?_⟩
    rw [Logic.listening, hrunning] at hidle
    cases hidle
   exact hready.congr rfl rfl rfl rfl hf

theorem Timed.stop (h : s.Timed) (now : ℤ) : (s.stop now).1.Timed := by
 unfold Logic.stop
 split
 · exact h
 · exact Timed.quiet rfl rfl rfl le_rfl

theorem Timed.step (h : s.Timed) (env : Environment) (e : Event) : (s.step env e).Timed := by
 cases e with
 | start now => exact Timed.quiet rfl rfl rfl le_rfl
 | stop now => exact h.stop now
 | helperReady now => exact h.onHelperReady now
 | helperLost now => exact Timed.quiet rfl rfl rfl h.followUp
 | wake now lag => exact h.onWake env now lag
 | speechStart now lag => exact h.onSpeechStart now lag
 | partialText text now lag => exact h.onPartial text now lag
 | final text confidence now lag => exact h.onFinal env text confidence now lag
 | speechEnd now lag => exact h.onSpeechEnd now lag
 | browserActivity activity now => exact h.onBrowserActivity activity now
 | awaitingAnswer awaiting now => exact h.onAwaitingAnswer awaiting now
 | tick now => exact h.onTick now
 | browserSaid | pageAudible | otherSpeech | echoCancellation | ownSpeechInReference | ownVoiceUnfiltered
 | settingsChanged => exact h.congr rfl rfl rfl rfl h.followUp

theorem timed_afterEvents (env : Environment) (settings : ListeningSettings) (es : List Event) :
  (afterEvents env settings es).Timed :=
 run_invariant_unconditional (fun _ e h => h.step env e) (Timed.quiet rfl rfl rfl le_rfl) es

/-! ## The deadlines that a tick leaves -/

/-- The follow-up deadline has passed under an utterance begun in the window, that has neither ended nor
lasted too long. -/
def HeldOpen (s : Logic) (now : ℤ) : Prop :=
 s.listening = true ∧ 0 < s.followUpUntilMs ∧ s.followUpUntilMs ≤ now ∧
  ∃ u ∈ s.utterance, u.isOpen = true ∧ u.endedMs < 0 ∧ now < u.startedMs + kMaxUtteranceMs

/-- Nothing waits: no wake wait, no utterance, and no follow-up window of a session that listens. -/
structure Quiet (s : Logic) : Prop where
 wake : s.wakeUntilMs = 0
 earcon : s.wakeEarconAtMs = 0
 utterance : s.utterance = none
 followUp : s.listening = true → s.followUpUntilMs = 0

theorem passed_cases (time now : ℤ) : passed time now = 0 ∨ (passed time now = time ∧ (0 < time → now < time)) := by
 rw [passed]
 split
 · exact .inl rfl
 · next h =>
   refine .inr ⟨rfl, fun hpos => ?_⟩
   simp only [Bool.and_eq_true, decide_eq_true_eq, not_and, not_le] at h
   exact h hpos

theorem mem_deadlines {time : ℤ} : time ∈ s.deadlines ↔
  (0 < s.wakeUntilMs ∧ time = s.wakeUntilMs) ∨ (0 < s.wakeEarconAtMs ∧ time = s.wakeEarconAtMs) ∨
  (∃ u ∈ s.utterance, (0 ≤ u.endedMs ∧ time = u.endedMs + kFinalGraceMs) ∨
   (u.started = true ∧ time = u.startedMs + kMaxUtteranceMs)) ∨
  (0 < s.followUpUntilMs ∧ time = s.followUpUntilMs) := by
 have hsingle : ∀ (p : Prop) [Decidable p] (other : ℤ), time ∈ (if p then [other] else []) ↔ p ∧ time = other := by
  intro p _ other
  split <;> simp_all
 rw [deadlines, mem_append, mem_append, mem_append, hsingle, hsingle, hsingle, or_assoc, or_assoc]
 cases hu : s.utterance with
 | none => simp
 | some u =>
  rw [mem_append, hsingle, hsingle]
  simp

theorem Ticked.kept {now : ℤ} (h : Ticked s now t) (hu : u ∈ t.utterance) :
  u ∈ s.utterance ∧ s.endsAt now u = false := by
 rw [h.utterance, Option.mem_def, Option.filter_eq_some_iff] at hu
 exact ⟨hu.1, by simpa using hu.2⟩

theorem Timed.outlives (h : s.Timed) {now : ℤ} (ht : Ticked s now t) (hu : u ∈ s.utterance)
  (hopen : u.isOpen = true) (hended : u.endedMs < 0) (hlongest : now < u.startedMs + kMaxUtteranceMs) :
  u ∈ t.utterance ∧ t.followUpUntilMs = s.followUpUntilMs := by
 have hends : s.endsAt now u = false := by
  rw [endsAt, h.opens u hu hopen]
  have hnot : ¬ u.endedMs ≥ 0 ∧ ¬ now - u.startedMs ≥ kMaxUtteranceMs := ⟨by omega, by omega⟩
  simp [hnot.1, hnot.2]
 have hmem : u ∈ t.utterance := by
  rw [ht.utterance, Option.mem_def, Option.filter_eq_some_iff]
  exact ⟨hu, by rw [hends, Bool.not_false]⟩
 refine ⟨hmem, ?_⟩
 rw [ht.followUp, if_pos]
 rw [keepsFollowUpOpen, hmem, Option.any_some, hopen, Bool.true_and]
 exact decide_eq_true hended

/-- After a tick every deadline lies ahead, unless the follow-up window is held open past its own. -/
theorem Timed.deadlines_ahead (h : s.Timed) (now : ℤ) :
  (∀ time ∈ (s.onTick now).1.nextDeadline, now < time) ↔ ¬ s.HeldOpen now := by
 cases hlistening : s.listening with
 | false =>
  have hsame : (s.onTick now).1.nextDeadline = none := by
   unfold Logic.onTick nextDeadline
   rw [hlistening]
   change (if !s.listening then _ else _) = _
   rw [hlistening]
   rfl
  rw [hsame]
  simp [HeldOpen, hlistening]
 | true =>
  have ht := onTick_spec hlistening now
  rw [forall_nextDeadline (ht.listening.trans hlistening)]
  constructor
  · rintro hahead ⟨-, hpos, hpassed, u, hu, hopen, hended, hlongest⟩
    obtain ⟨-, hkeeps⟩ := h.outlives ht hu hopen hended hlongest
    have := hahead s.followUpUntilMs (mem_deadlines.2 (.inr (.inr (.inr ⟨hkeeps ▸ hpos, hkeeps.symm⟩))))
    omega
  · intro hheld time hmem
    rcases mem_deadlines.1 hmem with ⟨hpos, rfl⟩ | ⟨hpos, rfl⟩ | ⟨u, hu, hdeadline⟩ | ⟨hpos, rfl⟩
    · rw [ht.wake] at hpos ⊢
      rcases passed_cases s.wakeUntilMs now with hzero | ⟨hsame, hafter⟩
      · omega
      · rw [hsame] at hpos ⊢
        exact hafter hpos
    · rw [ht.earcon] at hpos ⊢
      rcases passed_cases s.wakeEarconAtMs now with hzero | ⟨hsame, hafter⟩
      · omega
      · rw [hsame] at hpos ⊢
        exact hafter hpos
    · obtain ⟨-, hends⟩ := ht.kept hu
      simp only [endsAt, Bool.or_eq_false_iff, Bool.and_eq_false_iff, decide_eq_false_iff_not] at hends
      rcases hdeadline with ⟨hended, rfl⟩ | ⟨hstarted, rfl⟩
      · omega
      · rw [hstarted] at hends
        simp only [Bool.true_eq_false, false_or] at hends
        omega
    · rw [ht.followUp] at hpos ⊢
      split at hpos
      · next hkeeps =>
        rw [if_pos hkeeps]
        rw [keepsFollowUpOpen, Option.any_eq_true] at hkeeps
        obtain ⟨u, hu, hopen⟩ := hkeeps
        simp only [Bool.and_eq_true, decide_eq_true_eq] at hopen
        obtain ⟨hold, hends⟩ := ht.kept hu
        have hstarted : u.started = true := by
         by_contra hnot
         have := (h.waits u hold (Bool.not_eq_true _ ▸ hnot)).1
         rw [h.opens u hold hopen.1] at this
         cases this
        simp only [endsAt, Bool.or_eq_false_iff, hstarted, Bool.true_and, decide_eq_false_iff_not] at hends
        by_contra hpassed
        exact hheld ⟨hlistening, hpos, by omega, u, hold, hopen.1, hopen.2, by omega⟩
      · next hkeeps =>
        rw [if_neg hkeeps]
        rcases passed_cases s.followUpUntilMs now with hzero | ⟨hsame, hafter⟩
        · omega
        · rw [hsame] at hpos ⊢
          exact hafter hpos

/-! ## A tick at every deadline -/

theorem Ticked.deadlines_sublist {now : ℤ} (h : Ticked s now t) : t.deadlines.Sublist s.deadlines := by
 have hpassed : ∀ time : ℤ, (if passed time now > 0 then [passed time now] else []).Sublist
   (if time > 0 then [time] else []) := by
  intro time
  rcases passed_cases time now with hzero | ⟨hsame, -⟩
  · rw [hzero, if_neg (lt_irrefl _)]
    exact nil_sublist _
  · rw [hsame]
 have hfollowUp : (if t.followUpUntilMs > 0 then [t.followUpUntilMs] else []).Sublist
   (if s.followUpUntilMs > 0 then [s.followUpUntilMs] else []) := by
  rw [h.followUp]
  split
  · exact .refl _
  · exact hpassed _
 rw [deadlines, deadlines, h.wake, h.earcon]
 refine ((List.Sublist.append ?_ ?_).append ?_).append hfollowUp
 · exact hpassed _
 · exact hpassed _
 · cases hu : t.utterance with
   | none => exact nil_sublist _
   | some u =>
    obtain ⟨hold, -⟩ := h.kept hu
    rw [Option.mem_def.1 hold]

theorem HeldOpen.own {now : ℤ} (h : s.HeldOpen now) : s.HeldOpen s.followUpUntilMs := by
 obtain ⟨hlistening, hpos, hpassed, u, hu, hopen, hended, hlongest⟩ := h
 exact ⟨hlistening, hpos, le_rfl, u, hu, hopen, hended, by omega⟩

theorem Timed.tickAtDeadline (h : s.Timed) (hheld : ¬ s.HeldOpen s.followUpUntilMs) {time : ℤ}
  (hnext : s.nextDeadline = some time) :
  s.tickAtDeadline.Timed ∧ s.tickAtDeadline.deadlines.length < s.deadlines.length ∧
   ¬ s.tickAtDeadline.HeldOpen s.tickAtDeadline.followUpUntilMs := by
 obtain ⟨hlistening, hmem, -⟩ := nextDeadline_spec hnext
 have ht := onTick_spec hlistening time
 rw [Logic.tickAtDeadline, hnext]
 dsimp only
 refine ⟨h.onTick time, ?_, ?_⟩
 · have hahead := (forall_nextDeadline (ht.listening.trans hlistening) time).1
    ((h.deadlines_ahead time).2 fun hh => hheld hh.own)
   refine lt_of_le_of_ne ht.deadlines_sublist.length_le fun heq => ?_
   rw [ht.deadlines_sublist.eq_of_length heq] at hahead
   exact lt_irrefl time (hahead time hmem)
 · rintro ⟨-, hpos, -, u, hu, hopen, hended, hlongest⟩
   have hsame : (s.onTick time).1.followUpUntilMs = s.followUpUntilMs := by
    rw [ht.followUp] at hpos ⊢
    split at hpos
    · next hkeeps => rw [if_pos hkeeps]
    · next hkeeps =>
      rw [if_neg hkeeps]
      rcases passed_cases s.followUpUntilMs time with hzero | ⟨hsame, -⟩
      · omega
      · exact hsame
   rw [hsame] at hpos hlongest
   exact hheld ⟨hlistening, hpos, le_rfl, u, (ht.kept hu).1, hopen, hended, hlongest⟩

theorem Timed.quiet_of_none (h : s.Timed) (hnext : s.nextDeadline = none) : s.Quiet := by
 cases hlistening : s.listening with
 | false =>
  obtain ⟨hwake, hearcon, hutterance⟩ := h.idle hlistening
  refine ⟨hwake, hearcon, hutterance, fun hl => ?_⟩
  rw [hlistening] at hl
  cases hl
 | true =>
  have hnone : ∀ time, time ∉ s.deadlines := by
   rw [nextDeadline_none hnext hlistening]
   exact fun _ => not_mem_nil
  have hwake : s.wakeUntilMs = 0 := le_antisymm
   (not_lt.1 fun hpos => hnone _ (mem_deadlines.2 (.inl ⟨hpos, rfl⟩))) h.wake
  refine ⟨hwake, ?_, ?_, fun _ => ?_⟩
  · exact le_antisymm (not_lt.1 fun hpos => hnone _ (mem_deadlines.2 (.inr (.inl ⟨hpos, rfl⟩)))) h.earcon
  · rw [Option.eq_none_iff_forall_not_mem]
    intro u hu
    cases hstarted : u.started with
    | false =>
     have := (h.waits u hu hstarted).2
     omega
    | true => exact hnone _ (mem_deadlines.2 (.inr (.inr (.inl ⟨u, hu, .inr ⟨hstarted, rfl⟩⟩))))
  · exact le_antisymm
     (not_lt.1 fun hpos => hnone _ (mem_deadlines.2 (.inr (.inr (.inr ⟨hpos, rfl⟩))))) h.followUp

theorem Timed.comes_quiet (h : s.Timed) (hheld : ¬ s.HeldOpen s.followUpUntilMs) :
  ∃ n, (Logic.tickAtDeadline^[n] s).Quiet := by
 generalize hn : s.deadlines.length = n
 induction n using Nat.strong_induction_on generalizing s with
 | _ n ih =>
  cases hnext : s.nextDeadline with
  | none => exact ⟨0, h.quiet_of_none hnext⟩
  | some time =>
   obtain ⟨htimed, hfewer, hfree⟩ := h.tickAtDeadline hheld hnext
   obtain ⟨m, hm⟩ := ih _ (hn ▸ hfewer) htimed hfree rfl
   exact ⟨m + 1, hm⟩

theorem HeldOpen.tickAtDeadline (h : s.Timed) (hheld : s.HeldOpen s.followUpUntilMs) :
  s.tickAtDeadline.HeldOpen s.tickAtDeadline.followUpUntilMs := by
 obtain ⟨hlistening, hpos, -, u, hu, hopen, hended, hlongest⟩ := hheld
 have hmem := mem_deadlines.2 (.inr (.inr (.inr ⟨hpos, rfl⟩)))
 rw [Logic.tickAtDeadline]
 cases hnext : s.nextDeadline with
 | none =>
  rw [nextDeadline_none hnext hlistening] at hmem
  cases hmem
 | some time =>
  have hle := (nextDeadline_spec hnext).2.2 _ hmem
  have ht := onTick_spec hlistening time
  obtain ⟨hstays, hsame⟩ := h.outlives ht hu hopen hended (by omega)
  dsimp only
  rw [hsame]
  exact ⟨ht.listening.trans hlistening, hsame ▸ hpos, hsame.le, u, hstays, hopen, hended, hlongest⟩

theorem HeldOpen.never_quiet (h : s.Timed) (hheld : s.HeldOpen s.followUpUntilMs) (n : ℕ) :
  ¬ (Logic.tickAtDeadline^[n] s).Quiet := by
 induction n generalizing s with
 | zero =>
  intro hquiet
  have hzero : s.followUpUntilMs = 0 := hquiet.followUp hheld.1
  exact hheld.2.1.ne' hzero
 | succ n ih =>
  refine ih ?_ (hheld.tickAtDeadline h)
  rw [Logic.tickAtDeadline]
  split
  · exact h
  · exact h.onTick _

/-- In every reachable state: the deadlines left by a tick lie ahead, and a tick at every deadline ends
every wait, exactly when no utterance holds the follow-up window open past its deadline. -/
theorem timers_progress_iff (env : Environment) (settings : ListeningSettings) (es : List Event) :
  (∀ now, (∀ time ∈ ((afterEvents env settings es).onTick now).1.nextDeadline, now < time) ↔
   ¬ (afterEvents env settings es).HeldOpen now) ∧
  ((∃ n, (Logic.tickAtDeadline^[n] (afterEvents env settings es)).Quiet) ↔
   ¬ (afterEvents env settings es).HeldOpen (afterEvents env settings es).followUpUntilMs) := by
 have h := timed_afterEvents env settings es
 refine ⟨h.deadlines_ahead, ?_, h.comes_quiet⟩
 rintro ⟨n, hquiet⟩ hheld
 exact hheld.never_quiet h n hquiet

def begunInWindow : List Event := [.start 0, .helperReady 0, .browserActivity .thinking 500,
 .browserActivity .idle 1000, .speechStart 5000 (some 0)]

/-- The tick at the window's end leaves its deadline, and the timer fires again at once, for ever. -/
theorem window_fires_again :
  (¬ ∀ time ∈ ((afterEvents spelledEnvironment {} begunInWindow).onTick 9000).1.nextDeadline, 9000 < time) ∧
  ((afterEvents spelledEnvironment {} begunInWindow).onTick 9000).1.tickAtDeadline =
   ((afterEvents spelledEnvironment {} begunInWindow).onTick 9000).1 :=
 ⟨fun h => absurd (h 9000 (by decide)) (by decide), by decide⟩

end Logic
end MoltBrowser.VoiceSession
