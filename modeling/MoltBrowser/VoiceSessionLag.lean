import MoltBrowser.VoiceSessionLogic

set_option autoImplicit false

/-!
# A reported lag only makes decisions stricter

The same calls with the reported lags and with none. What the session knows of
the browser is the same in both runs (`world`); an utterance begun with a lag is
taken to have begun earlier, and every source is judged from there.
-/
namespace MoltBrowser.VoiceSession

open ConfirmationWords BrowserWords TransitionRuns

/-! ### From earlier on, more is heard -/

section Earlier

variable (s : Logic) {earlier later : ℤ} (hle : earlier ≤ later)

include hle

theorem speakingOrTail_mono (h : s.speakingOrTail later = true) :
  s.speakingOrTail earlier = true := by
 unfold Logic.speakingOrTail at h ⊢
 simp only [Bool.or_eq_true, Bool.and_eq_true, decide_eq_true_eq] at h ⊢
 exact h.imp_right fun ⟨hspoke, htail⟩ => ⟨hspoke, by omega⟩

theorem ownVoiceUnfilteredSince_mono (h : s.ownVoiceUnfilteredSince later = true) :
  s.ownVoiceUnfilteredSince earlier = true := by
 unfold Logic.ownVoiceUnfilteredSince at h ⊢
 simp only [Bool.or_eq_true, Bool.and_eq_true, decide_eq_true_eq] at h ⊢
 exact h.imp_right fun ⟨hseen, hsince⟩ => ⟨hseen, by omega⟩

theorem pageAudibleSince_mono (h : s.pageAudibleSince later = true) :
  s.pageAudibleSince earlier = true := by
 unfold Logic.pageAudibleSince at h ⊢
 simp only [Bool.or_eq_true, Bool.and_eq_true, decide_eq_true_eq] at h ⊢
 exact h.imp_right fun ⟨hseen, hsince⟩ => ⟨hseen, by omega⟩

theorem otherSpeechSince_mono (h : s.otherSpeechSince later = true) :
  s.otherSpeechSince earlier = true := by
 unfold Logic.otherSpeechSince at h ⊢
 split
 · rfl
 · next hquiet =>
   simp only [Bool.or_eq_true, Bool.and_eq_true, decide_eq_true_eq, not_or, not_and] at hquiet
   have hlater : (s.otherSpeaking || (decide (s.otherSpeechMs ≥ 0) &&
     decide (s.otherSpeechMs + kOtherSpeechTailMs ≥ later))) = false := by
    simp only [Bool.or_eq_false_iff, Bool.and_eq_false_iff, decide_eq_false_iff_not]
    refine ⟨by simpa using hquiet.1, ?_⟩
    by_cases hseen : s.otherSpeechMs ≥ 0
    · have hsince := hquiet.2 hseen
      exact Or.inr (by omega)
    · exact Or.inl hseen
   rw [hlater] at h
   split
   · rfl
   · next hown =>
     have hownLater : ¬ s.ownVoiceUnfilteredSince later = true :=
      fun hlate => hown (ownVoiceUnfilteredSince_mono s hle hlate)
     rw [if_neg (by simp), if_neg hownLater, Bool.and_eq_true] at h
     rw [Bool.and_eq_true]
     exact ⟨h.1, pageAudibleSince_mono s hle h.2⟩

theorem saidLately_mono {noted : ℤ} (h : s.saidLately later noted = true) :
  s.saidLately earlier noted = true := by
 unfold Logic.saidLately at h ⊢
 simp only [Bool.or_eq_true, decide_eq_true_eq] at h ⊢
 exact h.imp_right fun hwithin => by omega

theorem echoOfBrowser_mono {env : Environment} {text : Bytes}
  (h : s.echoOfBrowser env text later = true) : s.echoOfBrowser env text earlier = true :=
 echoOf_mono env.sounds (fun _ hlately => saidLately_mono s hle hlately) h

theorem refusesWake_mono {env : Environment} (h : s.refusesWake env later = true) :
  s.refusesWake env earlier = true := by
 unfold Logic.refusesWake at h ⊢
 simp only [Bool.or_eq_true, Bool.and_eq_true] at h ⊢
 rcases h with ⟨hspeaking, hsaid⟩ | hother
 · exact Or.inl ⟨speakingOrTail_mono s hle hspeaking,
    saidPhrase_mono env.sounds (fun _ hlately => saidLately_mono s hle hlately) hle hsaid⟩
 · exact Or.inr (otherSpeechSince_mono s hle hother)

end Earlier

theorem heardAt_le (now : ℤ) (lag : Option ℤ) : heardAt now lag ≤ now := by
 cases lag with
 | none => exact sub_le_self now (by decide)
 | some lag => exact sub_le_self now (le_max_left 0 _)

@[simp] theorem heardAt_zero (now : ℤ) : heardAt now (some 0) = now := by
 simp [heardAt, kMaxUtteranceMs]

def Event.noLag : Event → Event
 | .wake now _ => .wake now (some 0)
 | .speechStart now _ => .speechStart now (some 0)
 | .partialText text now _ => .partialText text now (some 0)
 | .speechEnd now _ => .speechEnd now (some 0)
 | .final text confidence now _ => .final text confidence now (some 0)
 | e => e

def Event.isFinal : Event → Bool
 | .final _ _ _ _ => true
 | _ => false

@[simp] theorem noLag_isFinal (e : Event) : e.noLag.isFinal = e.isFinal := by
 cases e <;> rfl

/-! ### What the session knows of the browser -/

/-- Without the utterance and its timers, and what `Finish` compares with. -/
def Logic.world (s : Logic) : Logic :=
 { s with
   utterance := none
   wakeUntilMs := 0
   wakeEarconAtMs := 0
   followUpUntilMs := 0
   state := .off
   wakeRequired := true
   ducked := false }

def Logic.worldAfter (env : Environment) (w : Logic) : Event → Logic
 | .start _ => { w with running := true, ready := false }
 | .stop _ => if !w.running then w else { w with running := false, ready := false }
 | .helperReady _ => if !w.running then w else { w with ready := true }
 | .helperLost _ => { w with ready := false }
 | .browserActivity activity now =>
  if activity = w.activity then w
  else
   { w with
     activity
     speakingEndedMs := if w.activity = .speaking then now else w.speakingEndedMs }
 | .browserSaid text now =>
  { w with said := w.dropStale now (w.said ++ [((now : ℤ), saidWords env.sounds text)]) }
 | .awaitingAnswer awaiting _ => { w with awaitingAnswer := awaiting }
 | .pageAudible audible now =>
  { w with
    pageAudibleMs := if audible || w.pageAudible then now else w.pageAudibleMs
    pageAudible := audible }
 | .otherSpeech speaking now =>
  { w with
    otherSpeechMs := if speaking || w.otherSpeaking then now else w.otherSpeechMs
    otherSpeaking := speaking }
 | .echoCancellation cancelled _ => { w with echoCancelled := cancelled }
 | .ownSpeechInReference inReference _ => { w with ownSpeechInReference := inReference }
 | .ownVoiceUnfiltered playing now =>
  { w with
    ownVoiceUnfilteredMs :=
     if playing || w.ownVoiceUnfiltered then now else w.ownVoiceUnfilteredMs
    ownVoiceUnfiltered := playing }
 | .settingsChanged settings _ => { w with settings }
 | _ => w

@[simp] theorem worldAfter_noLag (env : Environment) (w : Logic) (e : Event) :
  w.worldAfter env e.noLag = w.worldAfter env e := by
 cases e <;> rfl

section World

variable (s : Logic)

@[simp] theorem finish_world (a : Actions) (now : ℤ) : (s.finish a now).1.world = s.world := rfl

theorem dropStale_world (now : ℤ) (said : List (ℤ × Bytes)) :
  s.world.dropStale now said = s.dropStale now said := by
 induction said with
 | nil => rfl
 | cons first rest ih =>
  rw [Logic.dropStale, Logic.dropStale, ih]
  rfl

theorem onTick_world (now : ℤ) : (s.onTick now).1.world = s.world := by
 have hearcon : ∀ (s : Logic) (a : Actions), (s.tickEarcon a now).1.world = s.world := by
  intro s a
  unfold Logic.tickEarcon
  split <;> rfl
 have hwake : ∀ (s : Logic) (a : Actions), (s.tickWake a now).1.world = s.world := by
  intro s a
  unfold Logic.tickWake
  split
  · dsimp only
    split <;> rfl
  · rfl
 have hgrace : ∀ (s : Logic) (a : Actions), (s.tickGrace a now).1.world = s.world := by
  intro s a
  unfold Logic.tickGrace
  split <;> rfl
 have hlongest : ∀ (s : Logic) (a : Actions), (s.tickLongest a now).1.world = s.world := by
  intro s a
  unfold Logic.tickLongest
  split <;> rfl
 have hfollow : ∀ s : Logic, (s.tickFollowUp now).world = s.world := by
  intro s
  unfold Logic.tickFollowUp
  split <;> rfl
 unfold Logic.onTick
 split
 · rfl
 · simp only [finish_world, hfollow, hlongest, hgrace, hwake, hearcon]

theorem step_world (env : Environment) {e : Event} (he : e.isFinal = false) :
  (s.step env e).world = s.world.worldAfter env e := by
 unfold Logic.step Logic.on
 cases e with
 | start now => rfl
 | stop now =>
  unfold Logic.worldAfter Logic.stop
  dsimp only
  have hrunning : s.world.running = s.running := rfl
  rw [hrunning]
  split <;> rfl
 | helperReady now =>
  unfold Logic.worldAfter Logic.onHelperReady
  dsimp only
  have hrunning : s.world.running = s.running := rfl
  rw [hrunning]
  split <;> rfl
 | helperLost now => rfl
 | wake now lag =>
  dsimp only
  unfold Logic.onWake
  split
  · rfl
  · split <;> rfl
 | speechStart now lag =>
  dsimp only
  unfold Logic.onSpeechStart
  split
  · rfl
  · split
    · split <;> rfl
    · rfl
 | partialText text now lag =>
  dsimp only
  unfold Logic.onPartial
  split
  · rfl
  · dsimp only
    rw [finish_world]
    split <;> rfl
 | final text confidence now lag => exact absurd he (by simp [Event.isFinal])
 | speechEnd now lag =>
  dsimp only
  unfold Logic.onSpeechEnd
  split <;> rfl
 | browserActivity activity now =>
  unfold Logic.worldAfter Logic.onBrowserActivity
  dsimp only
  have hactivity : s.world.activity = s.activity := rfl
  rw [hactivity]
  split <;> rfl
 | browserSaid text now =>
  unfold Logic.worldAfter
  dsimp only
  rw [dropStale_world]
  rfl
 | awaitingAnswer awaiting now => rfl
 | pageAudible audible now => rfl
 | otherSpeech speaking now => rfl
 | echoCancellation cancelled now => rfl
 | ownSpeechInReference inReference now => rfl
 | ownVoiceUnfiltered playing now => rfl
 | settingsChanged settings now => rfl
 | tick now => exact onTick_world s now

end World

theorem run_world (env : Environment) {s z : Logic} (h : s.world = z.world) {es : List Event}
  (hes : ∀ e ∈ es, e.isFinal = false) :
  (run (Logic.step env) s es).world = (run (Logic.step env) z (es.map Event.noLag)).world := by
 induction es generalizing s z with
 | nil => exact h
 | cons e rest ih =>
  have hfinal : e.isFinal = false := hes e List.mem_cons_self
  have hnoLag : e.noLag.isFinal = false := (noLag_isFinal e).trans hfinal
  rw [List.map_cons, run_cons, run_cons]
  refine ih ?_ fun e he => hes e (List.mem_cons_of_mem _ he)
  rw [step_world s env hfinal, step_world z env hnoLag, worldAfter_noLag, h]

/-! ### An utterance heard with a lag -/

/-- `u` was heard with the reported lags, `v` at once. -/
structure StricterUtterance (u v : Utterance) : Prop where
 woke : v.woke = u.woke
 isOpen : v.isOpen = u.isOpen
 echoCancelled : v.echoCancelled = u.echoCancelled
 started : v.started = u.started
 startedMs : v.startedMs = u.startedMs
 endedMs : v.endedMs = u.endedMs
 duringSpeech : v.duringSpeech = true → u.duringSpeech = true
 begunMs : u.begunMs ≤ v.begunMs
 lagged : v.lagged = true → u.lagged = true

/-- The utterance and its timers, with the reported lags in `s` and without in `z`. -/
structure StricterRest (s z : Logic) : Prop where
 followUpUntilMs : z.followUpUntilMs = s.followUpUntilMs
 wakeUntilMs : z.wakeUntilMs = s.wakeUntilMs
 wakeEarconAtMs : z.wakeEarconAtMs = s.wakeEarconAtMs
 utterance : Option.Rel StricterUtterance s.utterance z.utterance

structure Stricter (s z : Logic) : Prop extends StricterRest s z where
 world : z.world = s.world

section Stricter

variable {s z : Logic}

theorem Stricter.refl (s : Logic) : Stricter s s where
 world := rfl
 followUpUntilMs := rfl
 wakeUntilMs := rfl
 wakeEarconAtMs := rfl
 utterance := by
  cases s.utterance with
  | none => exact Option.Rel.none
  | some u => exact Option.Rel.some ⟨rfl, rfl, rfl, rfl, rfl, rfl, id, le_rfl, id⟩

theorem StricterRest.finish (h : StricterRest s z) (a b : Actions) (now : ℤ) :
  StricterRest (s.finish a now).1 (z.finish b now).1 :=
 { h with }

theorem Stricter.same (h : Stricter s z) {β : Type} (f : Logic → β) (hf : ∀ s, f s.world = f s) :
  f z = f s := by
 rw [← hf z, ← hf s, h.world]

theorem Stricter.listening (h : Stricter s z) : z.listening = s.listening :=
 h.same Logic.listening fun _ => rfl

theorem Stricter.activity (h : Stricter s z) : z.activity = s.activity :=
 h.same Logic.activity fun _ => rfl

theorem Stricter.settings (h : Stricter s z) : z.settings = s.settings :=
 h.same Logic.settings fun _ => rfl

theorem StricterRest.cases (h : StricterRest s z) :
  (s.utterance = none ∧ z.utterance = none) ∨
   ∃ u v, s.utterance = some u ∧ z.utterance = some v ∧ StricterUtterance u v := by
 have hrel := h.utterance
 cases hs : s.utterance with
 | none =>
  rw [hs] at hrel
  cases hz : z.utterance with
  | none => exact Or.inl ⟨rfl, rfl⟩
  | some v => rw [hz] at hrel; cases hrel
 | some u =>
  rw [hs] at hrel
  cases hz : z.utterance with
  | none => rw [hz] at hrel; cases hrel
  | some v =>
   rw [hz] at hrel
   cases hrel with
   | some huv => exact Or.inr ⟨u, v, rfl, rfl, huv⟩

theorem StricterRest.any (h : StricterRest s z) {p : Utterance → Bool}
  (hp : ∀ u v, StricterUtterance u v → p v = p u) : z.utterance.any p = s.utterance.any p := by
 rcases h.cases with ⟨hs, hz⟩ | ⟨u, v, hs, hz, huv⟩
 · rw [hs, hz]
 · rw [hs, hz]
   exact hp u v huv

theorem StricterRest.keepsFollowUpOpen (h : StricterRest s z) :
  z.keepsFollowUpOpen = s.keepsFollowUpOpen :=
 h.any fun u v huv => by rw [huv.isOpen, huv.endedMs]

theorem Stricter.followUpOpen (h : Stricter s z) (now : ℤ) :
  z.followUpOpen now = s.followUpOpen now := by
 unfold Logic.followUpOpen
 rw [h.activity, h.followUpUntilMs, h.keepsFollowUpOpen]

theorem Stricter.speakingOrTail (h : Stricter s z) (time : ℤ) :
  z.speakingOrTail time = s.speakingOrTail time :=
 h.same (fun s => s.speakingOrTail time) fun _ => rfl

theorem Stricter.newUtterance (h : Stricter s z) (woke : Bool) (now : ℤ) (lag : Option ℤ) :
  StricterUtterance (s.newUtterance woke now lag) (z.newUtterance woke now (some 0)) where
 woke := rfl
 isOpen := by
  have hbargeIn : z.bargeInOpen = s.bargeInOpen := h.same Logic.bargeInOpen fun _ => rfl
  unfold Logic.newUtterance
  dsimp only
  rw [h.settings, h.followUpOpen, hbargeIn]
 echoCancelled := h.same Logic.ownSpeechInReference fun _ => rfl
 started := rfl
 startedMs := rfl
 endedMs := rfl
 duringSpeech := fun hspeaking => by
  have hnow : z.speakingOrTail now = true := by simpa [Logic.newUtterance] using hspeaking
  rw [h.speakingOrTail] at hnow
  exact speakingOrTail_mono s (heardAt_le now lag) hnow
 begunMs := by simpa [Logic.newUtterance] using heardAt_le now lag
 lagged := fun hlagged => by simp [Logic.newUtterance, isLagged, kMaxHeardLagMs] at hlagged

theorem StricterUtterance.lag {u v : Utterance} (h : StricterUtterance u v) (lag : Option ℤ) :
  StricterUtterance { u with lagged := u.lagged || isLagged lag }
   { v with lagged := v.lagged || isLagged (some 0) } :=
 { h with
   lagged := fun hlagged => by
    have hnone : isLagged (some 0) = false := rfl
    rw [hnone, Bool.or_false] at hlagged
    rw [h.lagged hlagged]
    rfl }

theorem Stricter.onWake (h : Stricter s z) {env : Environment} {now : ℤ} {lag : Option ℤ}
  (haccepted : s.listening = true → s.refusesWake env (heardAt now lag) = false) :
  StricterRest (s.onWake env now lag).1 (z.onWake env now (some 0)).1 := by
 have hrefuses : z.refusesWake env now = s.refusesWake env now :=
  h.same (fun s => s.refusesWake env now) fun _ => rfl
 unfold Logic.onWake
 rw [h.listening, heardAt_zero, hrefuses]
 split
 · exact h.toStricterRest
 · next hlistening =>
   have hopen : s.refusesWake env (heardAt now lag) = false := haccepted (by simpa using hlistening)
   have hnow : ¬ s.refusesWake env now = true := fun hlate => by
    rw [refusesWake_mono s (heardAt_le now lag) hlate] at hopen
    exact absurd hopen (by simp)
   rw [if_neg (by simp [hopen]), if_neg hnow]
   have hquiet : Stricter (s.endUtterance {}).1 (z.endUtterance {}).1 :=
    { h with utterance := Option.Rel.none }
   exact
    { followUpUntilMs := h.followUpUntilMs
      wakeUntilMs := rfl
      wakeEarconAtMs := rfl
      utterance := Option.Rel.some (hquiet.newUtterance true now lag) }

theorem Stricter.fresh (h : Stricter s z) (now : ℤ) (lag : Option ℤ) :
  StricterUtterance { s.newUtterance false now lag with started := true }
   { z.newUtterance false now (some 0) with started := true } :=
 { h.newUtterance false now lag with started := rfl }

theorem Stricter.onSpeechStart (h : Stricter s z) (now : ℤ) (lag : Option ℤ) :
  StricterRest (s.onSpeechStart now lag).1 (z.onSpeechStart now (some 0)).1 := by
 have hquiet : Stricter (s.endUtterance {}).1 (z.endUtterance {}).1 :=
  { h with utterance := Option.Rel.none }
 unfold Logic.onSpeechStart
 rw [h.listening]
 split
 · exact h.toStricterRest
 · rcases h.cases with ⟨hs, hz⟩ | ⟨u, v, hs, hz, huv⟩
   · rw [hs, hz]
     exact { h with utterance := Option.Rel.some (h.fresh now lag) }
   · have hwaits : (v.woke && !v.started) = (u.woke && !u.started) := by
      rw [huv.woke, huv.started]
     rw [hs, hz]
     dsimp only
     rw [hwaits]
     split
     · exact
        { followUpUntilMs := h.followUpUntilMs
          wakeUntilMs := rfl
          wakeEarconAtMs := rfl
          utterance := Option.Rel.some
           { huv.lag lag with
             started := rfl
             startedMs := rfl } }
     · exact { h with utterance := Option.Rel.some (hquiet.fresh now lag) }

theorem Stricter.getD (h : Stricter s z) (now : ℤ) (lag : Option ℤ) :
  StricterUtterance (s.utterance.getD (s.newUtterance false now lag))
   (z.utterance.getD (z.newUtterance false now (some 0))) := by
 rcases h.cases with ⟨hs, hz⟩ | ⟨u, v, hs, hz, huv⟩
 · rw [hs, hz]
   exact h.newUtterance false now lag
 · rw [hs, hz]
   exact huv

theorem Stricter.onPartial (h : Stricter s z) (text : Bytes) (now : ℤ) (lag : Option ℤ) :
  StricterRest (s.onPartial text now lag).1 (z.onPartial text now (some 0)).1 := by
 have huv := h.getD now lag
 unfold Logic.onPartial
 rw [h.listening]
 split
 · exact h.toStricterRest
 · generalize s.utterance.getD (s.newUtterance false now lag) = u at huv
   generalize z.utterance.getD (z.newUtterance false now (some 0)) = v at huv
   have huv := huv.lag lag
   dsimp only
   by_cases hu : u.started = true
   · have hv : v.started = true := huv.started.trans hu
     rw [if_pos hu, if_pos hu, if_pos hv, if_pos hv]
     exact { h with utterance := Option.Rel.some { huv with } }
   · have hv : ¬ v.started = true := fun hv => hu (huv.started.symm.trans hv)
     rw [if_neg hu, if_neg hu, if_neg hv, if_neg hv]
     exact
      { followUpUntilMs := h.followUpUntilMs
        wakeUntilMs := rfl
        wakeEarconAtMs := rfl
        utterance := Option.Rel.some
         { huv with
           started := rfl
           startedMs := rfl } }

theorem Stricter.onSpeechEnd (h : Stricter s z) (now : ℤ) (lag : Option ℤ) :
  StricterRest (s.onSpeechEnd now lag).1 (z.onSpeechEnd now (some 0)).1 := by
 unfold Logic.onSpeechEnd
 rw [h.listening]
 split
 · exact h.toStricterRest
 · rcases h.cases with ⟨hs, hz⟩ | ⟨u, v, hs, hz, huv⟩
   · rw [hs, hz]
     exact { h with utterance := Option.Rel.none }
   · rw [hs, hz]
     refine { h with utterance := Option.Rel.some ?_ }
     dsimp only
     by_cases hopen : u.endedMs < 0
     · rw [if_pos hopen, if_pos (by rw [huv.endedMs]; exact hopen)]
       exact { huv.lag lag with endedMs := rfl }
     · rw [if_neg hopen, if_neg (by rw [huv.endedMs]; exact hopen)]
       exact huv

/-! The timers look only at what both share. -/

theorem StricterRest.tickEarcon (h : StricterRest s z) (a b : Actions) (now : ℤ) :
  StricterRest (s.tickEarcon a now).1 (z.tickEarcon b now).1 := by
 unfold Logic.tickEarcon
 rw [h.wakeEarconAtMs]
 split
 · exact { h with wakeEarconAtMs := rfl }
 · exact h

theorem StricterRest.endUtterance (h : StricterRest s z) (a b : Actions) :
  StricterRest (s.endUtterance a).1 (z.endUtterance b).1 :=
 { h with utterance := Option.Rel.none }

theorem StricterRest.tickWake (h : StricterRest s z) (a b : Actions) (now : ℤ) :
  StricterRest (s.tickWake a now).1 (z.tickWake b now).1 := by
 have hwaits : (z.utterance.any fun u => u.woke && !u.started) =
   s.utterance.any fun u => u.woke && !u.started :=
  h.any fun u v huv => by rw [huv.woke, huv.started]
 unfold Logic.tickWake
 rw [h.wakeUntilMs]
 split
 · dsimp only
   rw [hwaits]
   have hrung : StricterRest { s with wakeUntilMs := 0 } { z with wakeUntilMs := 0 } :=
    { h with wakeUntilMs := rfl }
   split
   · exact hrung.endUtterance a b
   · exact hrung
 · exact h

theorem StricterRest.tickGrace (h : StricterRest s z) (a b : Actions) (now : ℤ) :
  StricterRest (s.tickGrace a now).1 (z.tickGrace b now).1 := by
 have hended : (z.utterance.any fun u => u.endedMs ≥ 0 && now - u.endedMs ≥ kFinalGraceMs) =
   s.utterance.any fun u => u.endedMs ≥ 0 && now - u.endedMs ≥ kFinalGraceMs :=
  h.any fun u v huv => by rw [huv.endedMs]
 unfold Logic.tickGrace
 rw [hended]
 split
 · exact h.endUtterance a b
 · exact h

theorem StricterRest.tickLongest (h : StricterRest s z) (a b : Actions) (now : ℤ) :
  StricterRest (s.tickLongest a now).1 (z.tickLongest b now).1 := by
 have hlongest : (z.utterance.any fun u => u.started && now - u.startedMs ≥ kMaxUtteranceMs) =
   s.utterance.any fun u => u.started && now - u.startedMs ≥ kMaxUtteranceMs :=
  h.any fun u v huv => by rw [huv.started, huv.startedMs]
 unfold Logic.tickLongest
 rw [hlongest]
 split
 · exact h.endUtterance a b
 · exact h

theorem StricterRest.tickFollowUp (h : StricterRest s z) (now : ℤ) :
  StricterRest (s.tickFollowUp now) (z.tickFollowUp now) := by
 unfold Logic.tickFollowUp
 rw [h.followUpUntilMs, h.keepsFollowUpOpen]
 split
 · exact { h with followUpUntilMs := rfl }
 · exact h

theorem Stricter.onTick (h : Stricter s z) (now : ℤ) :
  StricterRest (s.onTick now).1 (z.onTick now).1 := by
 unfold Logic.onTick
 rw [h.listening]
 split
 · exact h.toStricterRest.finish {} {} now
 · refine (StricterRest.tickFollowUp ?_ now).finish _ _ now
   refine StricterRest.tickLongest ?_ _ _ now
   refine StricterRest.tickGrace ?_ _ _ now
   exact (h.toStricterRest.tickEarcon {} {} now).tickWake _ _ now

theorem Stricter.step (h : Stricter s z) (env : Environment) {e : Event}
  (hfinal : e.isFinal = false)
  (haccepted : ∀ now lag, e = .wake now lag → s.listening = true →
   s.refusesWake env (heardAt now lag) = false) :
  Stricter (s.step env e) (z.step env e.noLag) := by
 have hworld : (z.step env e.noLag).world = (s.step env e).world := by
  rw [step_world s env hfinal, step_world z env ((noLag_isFinal e).trans hfinal),
   worldAfter_noLag, h.world]
 refine { world := hworld, toStricterRest := ?_ }
 have hrest := h.toStricterRest
 unfold Logic.step Logic.on
 cases e with
 | start now =>
  exact ⟨rfl, rfl, rfl, Option.Rel.none⟩
 | stop now =>
  have hrunning : z.running = s.running := h.same Logic.running fun _ => rfl
  unfold Event.noLag Logic.stop
  dsimp only
  rw [hrunning]
  split
  · exact hrest
  · exact ⟨rfl, rfl, rfl, Option.Rel.none⟩
 | helperReady now =>
  have hrunning : z.running = s.running := h.same Logic.running fun _ => rfl
  unfold Event.noLag Logic.onHelperReady
  dsimp only
  rw [hrunning]
  split
  · exact hrest
  · exact { hrest with }
 | helperLost now =>
  exact
   { followUpUntilMs := h.followUpUntilMs
     wakeUntilMs := rfl
     wakeEarconAtMs := rfl
     utterance := Option.Rel.none }
 | wake now lag => exact h.onWake (haccepted now lag rfl)
 | speechStart now lag => exact h.onSpeechStart now lag
 | partialText text now lag => exact h.onPartial text now lag
 | final text confidence now lag => exact absurd hfinal (by simp [Event.isFinal])
 | speechEnd now lag => exact h.onSpeechEnd now lag
 | browserActivity activity now =>
  have hawaiting : z.awaitingAnswer = s.awaitingAnswer :=
   h.same Logic.awaitingAnswer fun _ => rfl
  unfold Event.noLag Logic.onBrowserActivity
  dsimp only
  rw [h.activity]
  split
  · exact hrest.finish _ _ _
  · exact
     { hrest with
       followUpUntilMs := by
        show (if _ then _ else z.followUpUntilMs) = (if _ then _ else s.followUpUntilMs)
        rw [hawaiting, h.followUpUntilMs] }
 | browserSaid text now => exact { hrest with }
 | awaitingAnswer awaiting now =>
  exact
   { hrest with
     followUpUntilMs := by
      show (if awaiting && z.activity = .idle && z.followUpUntilMs > now then
        max z.followUpUntilMs (now + kAnswerWindowMs) else z.followUpUntilMs) =
       (if awaiting && s.activity = .idle && s.followUpUntilMs > now then
        max s.followUpUntilMs (now + kAnswerWindowMs) else s.followUpUntilMs)
      rw [h.activity, h.followUpUntilMs] }
 | pageAudible audible now => exact { hrest with }
 | otherSpeech speaking now => exact { hrest with }
 | echoCancellation cancelled now => exact { hrest with }
 | ownSpeechInReference inReference now => exact { hrest with }
 | ownVoiceUnfiltered playing now => exact { hrest with }
 | settingsChanged settings now => exact { hrest with }
 | tick now => exact h.onTick now

theorem Stricter.heardCleanly (h : Stricter s z) {u v : Utterance} (huv : StricterUtterance u v)
  {confidence : ℚ} (hclean : s.heardCleanly u confidence = true) :
  z.heardCleanly v confidence = true := by
 have hsame : z.heardCleanly v confidence = s.heardCleanly v confidence :=
  h.same (fun s => s.heardCleanly v confidence) fun _ => rfl
 rw [hsame]
 unfold Logic.heardCleanly at hclean ⊢
 split at hclean
 · exact absurd hclean (by simp)
 · next hspeech =>
   split at hclean
   · exact absurd hclean (by simp)
   · next hlagged =>
     split at hclean
     · exact absurd hclean (by simp)
     · next hquiet =>
       split at hclean
       · exact absurd hclean (by simp)
       · next hother =>
         simp only [Bool.or_eq_true, decide_eq_true_eq, not_or] at hspeech
         simp only [Bool.and_eq_true, decide_eq_true_eq, not_and] at hquiet
         have hbegun := huv.begunMs
         rw [if_neg, if_neg fun hlate => hlagged (huv.lagged hlate), if_neg,
          if_neg fun hlate => hother (otherSpeechSince_mono s hbegun hlate)]
         · rw [Bool.or_eq_true, Bool.not_eq_true'] at hclean ⊢
           refine hclean.imp_left fun hsilent => Bool.eq_false_of_not_eq_true fun hlate => ?_
           rw [pageAudibleSince_mono s hbegun hlate] at hsilent
           exact absurd hsilent (by simp)
         · simp only [Bool.and_eq_true, decide_eq_true_eq, not_and]
           intro hspoke
           have hlong := hquiet hspoke
           omega
         · simp only [Bool.or_eq_true, decide_eq_true_eq, not_or]
           exact ⟨fun hlate => hspeech.1 (huv.duringSpeech hlate), hspeech.2⟩

theorem Stricter.judge (h : Stricter s z) {u v : Utterance} (huv : StricterUtterance u v)
  {env : Environment} {text : Bytes} {confidence : ℚ}
  (htake : (s.judge env u text confidence).take = true) :
  (z.judge env v text confidence).take = true := by
 have hsame : z.judge env v text confidence = s.judge env v text confidence :=
  h.same (fun s => s.judge env v text confidence) fun _ => rfl
 rw [hsame]
 have hbegun := huv.begunMs
 unfold Logic.judge at htake ⊢
 dsimp only at htake ⊢
 split at htake
 · exact absurd htake (by simp)
 · next htext =>
   rw [if_neg htext]
   split at htake
   · next halways => rw [if_pos halways]
   · next hcommand =>
     rw [if_neg hcommand]
     split at htake
     · exact absurd htake (by simp)
     · next hother =>
       rw [if_neg fun hlate => hother (otherSpeechSince_mono s hbegun hlate), huv.woke]
       split at htake
       · next hwoke => rw [if_pos hwoke]
       · next hwoke =>
         rw [if_neg hwoke, huv.isOpen, huv.echoCancelled]
         split at htake
         · next hopen =>
           simp only [Bool.and_eq_true, Bool.not_eq_true'] at hopen
           have hquiet : v.duringSpeech = false := Bool.eq_false_of_not_eq_true fun hlate => by
            rw [huv.duringSpeech hlate] at hopen
            exact absurd hopen.2 (by simp)
           rw [if_pos (by simp [hopen.1, hquiet])]
           split at htake
           · next hsure => rw [if_pos hsure]
           · exact absurd htake (by simp)
         · split at htake
           · exact absurd htake (by simp)
           · next hopen =>
             split at htake
             · exact absurd htake (by simp)
             · next hcancelled =>
               split at htake
               · exact absurd htake (by simp)
               · next hsure =>
                 have hecho : ¬ (!(decide (confidence ≥ kMinConfidenceWithoutWake) &&
                   !s.echoOfBrowser env text v.begunMs)) = true := by
                  simp only [Bool.not_eq_true', Bool.not_eq_false, Bool.and_eq_true] at hsure ⊢
                  refine ⟨hsure.1, Bool.eq_false_of_not_eq_true fun hlate => ?_⟩
                  rw [echoOfBrowser_mono s hbegun hlate] at hsure
                  exact absurd hsure.2 (by simp)
                 -- Said over the browser's speech or, without the lag, after it.
                 cases hspeech : v.duringSpeech with
                 | true =>
                  rw [if_neg (by simp), if_neg hopen, if_neg hcancelled, if_neg hecho]
                  split at htake
                  · exact absurd htake (by simp)
                  · next hover => rw [if_neg hover]
                 | false =>
                  simp only [Bool.not_eq_true', Bool.not_eq_false, Bool.and_eq_true] at hsure hopen
                  rw [if_pos (by simp [hopen]), if_pos (by rw [hsure.1, Bool.or_true])]

theorem onFinal_out (s : Logic) (env : Environment) (text : Bytes) (confidence : ℚ) (now : ℤ)
  (lag : Option ℤ) :
  let take := s.listening && (s.judge env (s.finalUtterance now lag) text confidence).take
  (s.onFinal env text confidence now lag).2.utterance = (if take then some text else none) ∧
   (s.onFinal env text confidence now lag).2.heardCleanly =
    (take && s.heardCleanly (s.finalUtterance now lag) confidence) := by
 have hjudge : (s.endUtterance {}).1.noWake.judge env (s.finalUtterance now lag) text confidence =
   s.judge env (s.finalUtterance now lag) text confidence := rfl
 have hnone : (s.endUtterance {}).2.utterance = none ∧
   (s.endUtterance {}).2.heardCleanly = false := by
  unfold Logic.endUtterance
  dsimp only
  split <;> exact ⟨rfl, rfl⟩
 unfold Logic.onFinal
 cases hlistening : s.listening with
 | false => exact ⟨rfl, rfl⟩
 | true =>
  dsimp only
  rw [hjudge]
  cases htake : (s.judge env (s.finalUtterance now lag) text confidence).take with
  | false => exact hnone
  | true => exact ⟨rfl, rfl⟩

theorem Stricter.onFinal (h : Stricter s z) (env : Environment) (text : Bytes) (confidence : ℚ)
  (now : ℤ) (lag : Option ℤ) :
  ((s.onFinal env text confidence now lag).2.utterance ≠ none →
    (z.onFinal env text confidence now (some 0)).2.utterance ≠ none) ∧
   ((s.onFinal env text confidence now lag).2.heardCleanly = true →
    (z.onFinal env text confidence now (some 0)).2.heardCleanly = true) := by
 have huv : StricterUtterance (s.finalUtterance now lag) (z.finalUtterance now (some 0)) :=
  (h.getD now lag).lag lag
 obtain ⟨hsOut, hsClean⟩ := onFinal_out s env text confidence now lag
 obtain ⟨hzOut, hzClean⟩ := onFinal_out z env text confidence now (some 0)
 have htake : (s.listening &&
   (s.judge env (s.finalUtterance now lag) text confidence).take) = true →
   (z.listening && (z.judge env (z.finalUtterance now (some 0)) text confidence).take) = true := by
  rw [Bool.and_eq_true, Bool.and_eq_true, h.listening]
  exact fun hs => ⟨hs.1, h.judge huv hs.2⟩
 rw [hsOut, hzOut, hsClean, hzClean]
 refine ⟨fun hs => ?_, fun hs => ?_⟩
 · split at hs
   · next hand => simp [htake hand]
   · exact absurd rfl hs
 · rw [Bool.and_eq_true] at hs ⊢
   exact ⟨htake hs.1, h.heardCleanly huv hs.2⟩

end Stricter

/-! ### Two runs of one utterance -/

def WakeAccepted (env : Environment) (s : Logic) (now : ℤ) (lag : Option ℤ) : Prop :=
 s.listening = true ∧ s.refusesWake env (heardAt now lag) = false

def NoWakeRefused (env : Environment) (s : Logic) (es : List Event) : Prop :=
 Along (Logic.step env)
  (fun s e => ∀ now lag, e = .wake now lag → s.listening = true →
   s.refusesWake env (heardAt now lag) = false) s es

theorem stricter_run (env : Environment) {s z : Logic} (h : Stricter s z) {es : List Event}
  (hes : ∀ e ∈ es, e.isFinal = false) (haccepted : NoWakeRefused env s es) :
  Stricter (run (Logic.step env) s es) (run (Logic.step env) z (es.map Event.noLag)) := by
 induction es generalizing s z with
 | nil => exact h
 | cons e rest ih =>
  have hstep := h.step env (hes e List.mem_cons_self) haccepted.1
  exact ih hstep (fun e he => hes e (List.mem_cons_of_mem _ he)) haccepted.2

/-- From one state, the calls of an utterance with their lags and without. -/
theorem lag_only_stricter (env : Environment) (s : Logic) (es : List Event)
  (hes : ∀ e ∈ es, e.isFinal = false) :
  (∀ before (now : ℕ) lag after, es = before ++ .wake now lag :: after →
    WakeAccepted env (run (Logic.step env) s before) now lag →
    WakeAccepted env (run (Logic.step env) s (before.map Event.noLag)) now (some 0)) ∧
   (NoWakeRefused env s es → ∀ (text : Bytes) (confidence : ℚ) (now : ℕ) (lag : Option ℤ),
    let reported := (run (Logic.step env) s es).onFinal env text confidence now lag
    let atOnce := (run (Logic.step env) s (es.map Event.noLag)).onFinal env text confidence now
     (some 0)
    (reported.2.utterance ≠ none → atOnce.2.utterance ≠ none) ∧
     (reported.2.heardCleanly = true → atOnce.2.heardCleanly = true)) := by
 refine ⟨fun before now lag after hsplit haccepted => ?_, fun haccepted text confidence now lag =>
  (stricter_run env (Stricter.refl s) hes haccepted).onFinal env text confidence now lag⟩
 have hworld : (run (Logic.step env) s before).world =
   (run (Logic.step env) s (before.map Event.noLag)).world :=
  run_world env rfl fun e he => hes e (by rw [hsplit]; exact List.mem_append_left _ he)
 generalize run (Logic.step env) s before = u at haccepted hworld
 generalize run (Logic.step env) s (before.map Event.noLag) = v at hworld
 have hlistening : v.listening = u.listening := (congrArg Logic.listening hworld).symm
 have hrefuses : v.refusesWake env now = u.refusesWake env now :=
  (congrArg (fun w : Logic => w.refusesWake env now) hworld).symm
 obtain ⟨hopen, haccepted⟩ := haccepted
 refine ⟨hlistening.trans hopen, ?_⟩
 rw [heardAt_zero, hrefuses]
 refine Bool.eq_false_of_not_eq_true fun hlate => ?_
 rw [refusesWake_mono u (heardAt_le now lag) hlate] at haccepted
 exact absurd haccepted (by simp)

def waiting : Logic :=
 afterEvents spelledEnvironment { wakePhrases := ["hey molt"] } [.start 0, .helperReady 100]

theorem lag_only_stricter_wake :
  WakeAccepted spelledEnvironment waiting 5000 (some 400) ∧
   WakeAccepted spelledEnvironment waiting 5000 (some 0) := by
 have haccepted : WakeAccepted spelledEnvironment waiting 5000 (some 400) :=
  ⟨by decide, by decide⟩
 exact ⟨haccepted, (lag_only_stricter spelledEnvironment waiting
  [.wake 5000 (some 400), .speechStart 5600 none] (by decide)).1 [] 5000 (some 400)
   [.speechStart 5600 none] rfl haccepted⟩

end MoltBrowser.VoiceSession
