import MoltBrowser.SpeechListener

set_option autoImplicit false

/-!
# The end-of-speech silence

A CONFIG in an utterance waits for its end: the detector is told by the way back to a waiting state.
`StopHearing` is a way back that tells it nothing.
-/
namespace MoltBrowser.SpeechListener
open TransitionRuns
namespace Listener

variable {Sample : Type}

def silenceIn : Action Sample → Option ℤ
 | .setVadSilenceMs ms => some ms
 | _ => none

def silenceGiven (L : Listener Sample) : Option ℤ := (L.trace.filterMap silenceIn).getLast?

/-- What is known of the silence: given, in force, to be given and configured. -/
structure Silence where
 given : Option ℤ
 inForce : ℤ
 pending : ℤ
 configured : ℤ

def silence (L : Listener Sample) : Silence := ⟨L.silenceGiven, L.vadMs, L.pendingVadMs, L.config.vadSilenceMs⟩

def Silence.Known (k : Silence) : Prop :=
 k.given = some k.inForce ∧ (if k.pending = 0 then k.inForce else k.pending) = k.configured

def Waiting (L : Listener Sample) : Prop := L.state = .waitWake ∨ L.state = .isOpen

instance (L : Listener Sample) : Decidable L.Waiting := inferInstanceAs (Decidable (_ ∨ _))

structure Informed (L : Listener Sample) : Prop where
 known : L.silence.Known
 told : L.Waiting → L.pendingVadMs = 0

/-! ## What leaves the silence alone -/

section Frames

variable (env : Environment Sample) (L : Listener Sample)

theorem silence_act {a : Action Sample} (ha : silenceIn a = none) : (L.act a).silence = L.silence := by
 rw [silence, silenceGiven, act, List.filterMap_append, List.filterMap_cons_none ha, List.filterMap_nil, List.append_nil]
 rfl

@[simp] theorem silence_emit (event : HelperEvent) : (L.emit event).silence = L.silence := silence_act L rfl

@[simp] theorem silence_spot (samples : List Sample) : (L.spot env samples).2.silence = L.silence :=
 silence_act L rfl

@[simp] theorem silence_detect (samples : List Sample) : (L.detect env samples).2.silence = L.silence :=
 silence_act { L.remember samples with received := L.received + samples.length } rfl

@[simp] theorem silence_emitPartial (result : RecognizerResult) : (L.emitPartial env result).silence = L.silence := by
 unfold emitPartial
 split
 · rfl
 · dsimp only
   split
   · rfl
   · exact silence_emit _ _

@[simp] theorem silence_beginFrom (fromSample : ℤ) : (L.beginFrom fromSample).silence = L.silence :=
 (silence_act _ rfl).trans (silence_act _ rfl)

@[simp] theorem silence_onWake (said : ℤ) : (L.onWake said).silence = L.silence :=
 (silence_beginFrom _ _).trans (silence_emit _ _)

@[simp] theorem silence_startUtterance (stepStart : ℤ) : (L.startUtterance stepStart).silence = L.silence :=
 (silence_beginFrom _ _).trans (silence_emit _ _)

@[simp] theorem silence_stopHearing : L.stopHearing.silence = L.silence := silence_act L rfl

end Frames

variable {env : Environment Sample} {L M : Listener Sample}

theorem Informed.busy (h : L.silence.Known) (hsame : M.silence = L.silence) (hstate : ¬ M.Waiting) : M.Informed :=
 ⟨hsame ▸ h, fun hw => absurd hw hstate⟩

theorem Informed.same (h : L.Informed) (hsame : M.silence = L.silence) (hstate : M.state = L.state) : M.Informed := by
 refine ⟨hsame ▸ h.known, fun hw => ?_⟩
 have hpending : M.pendingVadMs = L.pendingVadMs := congrArg Silence.pending hsame
 rw [hpending]
 exact h.told (by rwa [Waiting, hstate] at hw)

/-! ## The ways to a waiting state -/

theorem applyPendingVad_known (h : L.silence.Known) : L.applyPendingVad.silence.Known ∧ L.applyPendingVad.pendingVadMs = 0 := by
 rw [applyPendingVad]
 split
 · next hzero => exact ⟨h, hzero⟩
 · next hpending =>
   refine ⟨⟨?_, ?_⟩, rfl⟩
   · simp [silence, silenceGiven, act, silenceIn]
   · have hmeant := h.2
     rw [silence, if_neg hpending] at hmeant
     exact hmeant

theorem informed_toBaseState (h : L.silence.Known) : L.toBaseState.Informed := by
 have hreset : ∀ K : Listener Sample, K.silence = L.silence → (K.act .resetSpotter).silence.Known := by
  intro K hK
  rw [silence_act K rfl, hK]
  exact h
 obtain ⟨hknown, hzero⟩ := applyPendingVad_known (hreset
  { L with lastPartial := [], heardOff := false, state := if L.config.wakeRequired then .waitWake else .isOpen } rfl)
 exact ⟨hknown, fun _ => hzero⟩

theorem informed_endUtterance (h : L.silence.Known) (result : RecognizerResult) : (L.endUtterance env result).Informed := by
 refine informed_toBaseState ?_
 change ((L.emit _).emit _).silence.Known
 rw [silence_emit, silence_emit]
 exact h

theorem informed_finishUtterance (h : L.silence.Known) : (L.finishUtterance env).Informed :=
 informed_endUtterance ((silence_act (a := .finish) L rfl).symm ▸ h) _

theorem informed_endWithoutCommand (h : L.silence.Known) : (L.endWithoutCommand env).Informed := by
 refine informed_toBaseState ?_
 change ((if L.state = .afterWake then L.act .abandonUtterance else L).emit _).silence.Known
 rw [silence_emit]
 split
 · rw [silence_act L rfl]
   exact h
 · exact h

/-! ## One step of audio -/

theorem onWake_busy (L : Listener Sample) (said : ℤ) : ¬ (L.onWake said).Waiting := by
 rintro (h | h) <;> cases h

theorem startUtterance_busy (L : Listener Sample) (stepStart : ℤ) : ¬ (L.startUtterance stepStart).Waiting := by
 rintro (h | h) <;> cases h

theorem emitPartial_state (L : Listener Sample) (result : RecognizerResult) : (L.emitPartial env result).state = L.state := by
 unfold emitPartial
 split
 · rfl
 · dsimp only
   split <;> rfl

theorem informed_onHeardWake (h : L.silence.Known) (result : RecognizerResult) (words : ℕ) (whole : Bool) :
  (L.onHeardWake env result words whole).Informed := by
 unfold onHeardWake
 dsimp only
 split
 · refine .busy h (silence_emit _ _) ?_
   rintro (hw | hw) <;> cases hw
 · split
   · refine informed_endUtterance ?_ result
     rw [silence_emit, silence_emit]
     exact h
   · refine .busy h ?_ ?_
     · rw [silence_emitPartial]
       exact (silence_emit _ _).trans (silence_emit _ _)
     · rintro (hw | hw) <;> rw [emitPartial_state] at hw <;> cases hw

/-- The first words heard aren't a wake phrase, or the speech went on without one. -/
def GivesUp (env : Environment Sample) (L : Listener Sample) (result : RecognizerResult) : Prop :=
 ¬ (env.wakePhraseWordsAtStart result.text L.config.wakePhrases > 0 ∧
   countWords result.text > env.wakePhraseWordsAtStart result.text L.config.wakePhrases) ∧
  ((env.wakePhraseWordsAtStart result.text L.config.wakePhrases = 0 ∧
    countWords result.text > (L.config.wakePhrases.map countWords).foldl max 0 + 1) ∨
   L.received - L.utteranceFrom ≥ kHearingSamples)

theorem informed_onHeard (h : L.Informed) (result : RecognizerResult) (whole : Bool)
  (hpending : whole = false → L.GivesUp env result → L.pendingVadMs = 0) : (L.onHeard env result whole).Informed := by
 unfold onHeard
 dsimp only
 split
 · exact informed_onHeardWake h.known result _ whole
 · next hphrase =>
   split
   · exact informed_toBaseState h.known
   · next hwhole =>
     rw [Bool.not_eq_true] at hwhole
     split
     · next hgives =>
       have hzero := hpending hwhole ⟨by simpa [hwhole] using hphrase, hgives⟩
       exact ⟨(silence_stopHearing L).symm ▸ h.known, fun _ => hzero⟩
     · exact h

/-- This step of audio stops a hearing whose first words aren't a wake phrase. -/
def StopsHearing (env : Environment Sample) (L : Listener Sample) (samples : List Sample) : Prop :=
 let (vad, L) := L.detect env samples
 let (fired, L) := L.spot env samples
 let L := L.act (.recognize samples)
 L.state = .hearing ∧ fired = false ∧
  ¬ (vad.segmentEnded ∨ L.received - L.utteranceFrom ≥ kMaxUtteranceSamples) ∧
  (L.act .partialResult).GivesUp env (env.partialResult (L.act .partialResult).trace)

theorem informed_stepWaitWake (h : L.Informed) (samples : List Sample) (stepStart : ℤ) (vad : VadUpdate) :
  (L.stepWaitWake env samples stepStart vad).Informed := by
 unfold stepWaitWake
 dsimp only
 split
 · refine .busy h.known ?_ (onWake_busy _ _)
   rw [silence_onWake, silence_spot]
 · split
   · exact h.same (silence_spot env L samples) rfl
   · split
     · refine .busy h.known ?_ ?_
       · exact (silence_beginFrom _ _).trans (silence_spot env L samples)
       · rintro (hw | hw) <;> cases hw
     · exact h.same (silence_spot env L samples) rfl

theorem informed_stepHearing (h : L.Informed) (samples : List Sample) (vad : VadUpdate)
  (hpending : (L.spot env samples).1 = false → ¬ (vad.segmentEnded ∨ L.received - L.utteranceFrom ≥ kMaxUtteranceSamples) →
   ((((L.spot env samples).2.act (.recognize samples)).act .partialResult).GivesUp env
    (env.partialResult (((L.spot env samples).2.act (.recognize samples)).act .partialResult).trace)) →
   L.pendingVadMs = 0) : (L.stepHearing env samples vad).Informed := by
 unfold stepHearing
 dsimp only
 have hspot : ∀ a : Action Sample, silenceIn a = none →
   (((L.spot env samples).2.act (.recognize samples)).act a).Informed := by
  intro a ha
  refine h.same ?_ rfl
  rw [silence_act _ ha, silence_act _ rfl, silence_spot]
 split
 · refine .busy h.known ?_ (onWake_busy _ _)
   rw [silence_onWake, silence_act _ rfl, silence_spot]
 · next hfired =>
   rw [Bool.not_eq_true] at hfired
   split
   · exact informed_onHeard (hspot .finish rfl) _ true fun hwhole => by cases hwhole
   · next hended => exact informed_onHeard (hspot .partialResult rfl) _ false fun _ => hpending hfired hended

theorem informed_stepOpen (h : L.Informed) (stepStart : ℤ) (vad : VadUpdate) : (L.stepOpen stepStart vad).Informed := by
 unfold stepOpen
 split
 · exact .busy h.known (silence_startUtterance L stepStart) (startUtterance_busy L stepStart)
 · exact h

theorem informed_wakeSpeechEnded (h : L.silence.Known) : (L.wakeSpeechEnded env).Informed := by
 unfold wakeSpeechEnded
 dsimp only
 split
 · refine informed_endUtterance ?_ _
   rw [silence_emit]
   exact (silence_act (a := .finish) L rfl).symm ▸ h
 · refine .busy h (silence_act (a := .finish) L rfl) ?_
   rintro (hw | hw) <;> cases hw

theorem informed_stepAwaitCommand (h : L.Informed) (stepStart : ℤ) (vad : VadUpdate) :
  (L.stepAwaitCommand env stepStart vad).Informed := by
 unfold stepAwaitCommand
 split_ifs
 · exact .busy h.known (silence_startUtterance L stepStart) (startUtterance_busy L stepStart)
 · exact informed_endWithoutCommand h.known
 · exact h

theorem informed_stepUtterance (h : L.Informed) (samples : List Sample) (vad : VadUpdate) :
  (L.stepUtterance env samples vad).Informed := by
 unfold stepUtterance
 dsimp only
 have hsame : ∀ result, ((((L.act (.recognize samples)).act .partialResult).emitPartial env result)).silence = L.silence := by
  intro result
  rw [silence_emitPartial, silence_act _ rfl, silence_act _ rfl]
 split
 · exact informed_finishUtterance ((hsame _).symm ▸ h.known)
 · exact h.same (hsame _) (emitPartial_state _ _)

theorem informed_stepAfterWake (h : L.silence.Known) (hstate : L.state = .afterWake) (samples : List Sample) (vad : VadUpdate) :
  (L.stepAfterWake env samples vad).Informed := by
 unfold stepAfterWake
 dsimp only
 have hsame : ((L.act (.recognize samples)).act .partialResult).silence = L.silence := by
  rw [silence_act _ rfl, silence_act _ rfl]
 -- After the words that may have begun a command: the same silence, and no waiting state.
 generalize hM : (if ((L.act (.recognize samples)).act .partialResult).hasWordsAfterWake env _ false then _ else _) = M
 have hknown : M.silence.Known ∧ (M.state = .utterance ∨ M.state = .afterWake) := by
  rw [← hM]
  split
  · rw [silence_emitPartial, emitPartial_state]
    exact ⟨((silence_emit _ _).trans hsame).symm ▸ h, .inl rfl⟩
  · exact ⟨hsame.symm ▸ h, .inr hstate⟩
 split
 · split
   · exact informed_finishUtterance hknown.1
   · exact informed_wakeSpeechEnded hknown.1
 · split
   · exact informed_endWithoutCommand hknown.1
   · refine ⟨hknown.1, fun hw => ?_⟩
     rcases hknown.2 with hs | hs <;> rw [Waiting, hs] at hw <;> rcases hw with hw | hw <;> cases hw

theorem informed_step (h : L.Informed) (samples : List Sample) (hpending : L.StopsHearing env samples → L.pendingVadMs = 0) :
  (L.step env samples).Informed := by
 have hdetect : (L.detect env samples).2.Informed := h.same (silence_detect env L samples) rfl
 unfold step
 dsimp only
 split
 · exact informed_stepWaitWake hdetect samples _ _
 · next hhearing =>
   exact informed_stepHearing hdetect samples _ fun hfired hended hgives => hpending ⟨hhearing, hfired, hended, hgives⟩
 · exact informed_stepOpen hdetect _ _
 · next hafter => exact informed_stepAfterWake hdetect.known hafter samples _
 · exact informed_stepAwaitCommand hdetect _ _
 · exact informed_stepUtterance hdetect samples _

/-! ## Calls -/

theorem informed_feed (h : L.Informed) (samples : List Sample)
  (hpending : Along (fun L step => L.step env step) (fun L step => L.StopsHearing env step → L.pendingVadMs = 0)
   L (stepsOf samples)) : (L.feed env samples).Informed := by
 unfold feed
 exact run_invariant (I := Informed) (fun _ step hL hstep => informed_step hL step hstep) h hpending

theorem informed_reset (h : L.Informed) : L.reset.Informed := by
 unfold reset
 dsimp only
 refine informed_toBaseState ?_
 have habandon : (if L.state = .afterWake ∨ L.state = .utterance ∨ L.state = .hearing then L.act .abandonUtterance
   else L).silence = L.silence := by
  split
  · exact silence_act L rfl
  · rfl
 exact ((silence_act (a := .resetVad) _ rfl).trans habandon).symm ▸ h.known

variable (env) in
theorem silence_applyWakePhrases (L : Listener Sample) (phrases : Option (List Bytes)) :
  (L.applyWakePhrases env phrases).2.silence = L.silence ∧ (L.applyWakePhrases env phrases).2.state = L.state := by
 cases phrases with
 | none => exact ⟨rfl, rfl⟩
 | some phrases =>
  unfold applyWakePhrases
  dsimp only
  split
  · exact ⟨rfl, rfl⟩
  · next lines _ =>
    have hkeywords := silence_act (a := .setKeywords lines.flatten) { L with keywordLines := [] } rfl
    split_ifs
    · exact ⟨rfl, rfl⟩
    · exact ⟨hkeywords, rfl⟩
    · exact ⟨hkeywords, rfl⟩

theorem applyVadSilence_known (h : L.silence.Known) {ms : ℤ} (hms : ms ≠ 0) :
  Silence.Known ⟨L.silenceGiven, L.vadMs, if ms = L.vadMs then 0 else ms, ms⟩ := by
 refine ⟨h.1, ?_⟩
 dsimp only
 by_cases hsame : ms = L.vadMs
 · rw [if_pos hsame, if_pos rfl, hsame]
 · rw [if_neg hsame, if_neg hms]

theorem informed_applyVadSilence (h : L.Informed) {silenceMs : Option ℤ} (hms : silenceMs ≠ some 0) :
  (L.applyVadSilence silenceMs).Informed := by
 cases silenceMs with
 | none => exact h
 | some ms =>
  unfold applyVadSilence
  dsimp only
  have hknown := applyVadSilence_known h.known fun hzero => hms (congrArg some hzero)
  split
  · have happlied := applyPendingVad_known
     (L := { L with config.vadSilenceMs := ms, pendingVadMs := if ms = L.vadMs then 0 else ms }) hknown
    exact ⟨happlied.1, fun _ => happlied.2⟩
  · next hbusy => exact ⟨hknown, fun hw => absurd hw hbusy⟩

theorem informed_newSilence (hwaiting : L.Waiting) {ms : ℤ} (hms : ms ≠ 0) (hnew : L.vadMs ≠ ms) :
  (L.applyVadSilence (some ms)).Informed := by
 have hpending : (if ms = L.vadMs then 0 else ms) = ms := if_neg hnew.symm
 unfold applyVadSilence
 dsimp only
 rw [if_pos (show L.state = .waitWake ∨ L.state = .isOpen from hwaiting), hpending, applyPendingVad, if_neg hms]
 refine ⟨⟨?_, if_pos rfl⟩, fun _ => rfl⟩
 simp [silence, silenceGiven, act, silenceIn]

theorem informed_respotSteps (h : L.Informed) (reached : ℤ) (steps : List (List Sample)) :
  (respotSteps env L reached steps).Informed := by
 induction steps generalizing L reached with
 | nil => exact h
 | cons step rest ih =>
  have hspot : (L.spot env step).2.Informed := h.same (silence_spot env L step) rfl
  rw [respotSteps]
  dsimp only
  split
  · exact .busy hspot.known (silence_onWake _ _) (onWake_busy _ _)
  · exact ih hspot _

theorem informed_wakeRequiredSet (h : L.Informed) : (L.wakeRequiredSet env).Informed := by
 unfold wakeRequiredSet
 split_ifs with hhearing hwait hopen
 · refine .busy h.known (silence_emit _ _) ?_
   rintro (hw | hw) <;> cases hw
 · exact ⟨h.known, fun _ => h.told (.inl hwait.1)⟩
 · have hreset : ({ L with state := .waitWake }.act .resetSpotter : Listener Sample).Informed := by
    refine ⟨?_, fun _ => h.told (.inr hopen.1)⟩
    rw [silence_act _ rfl]
    exact h.known
   exact informed_respotSteps hreset _ _
 · exact h

theorem informed_applyConfig (h : L.Informed) (update : ConfigUpdate) (hms : update.vadSilenceMs ≠ some 0) :
  (L.applyConfig env update).2.Informed := by
 obtain ⟨hsilence, hstate⟩ := silence_applyWakePhrases env L update.wakePhrases
 have hphrases : (L.applyWakePhrases env update.wakePhrases).2.Informed := h.same hsilence hstate
 unfold applyConfig
 dsimp only
 split
 · exact hphrases
 · have hhotwords : ((L.applyWakePhrases env update.wakePhrases).2.applyHotwords env update.hotwords).Informed := by
    cases update.hotwords with
    | none => exact hphrases
    | some hotwords => exact hphrases.same rfl rfl
   have hvad := informed_applyVadSilence hhotwords hms
   cases update.wakeRequired with
   | none => exact hvad
   | some required => exact informed_wakeRequiredSet (hvad.same rfl rfl)

theorem informed_firstConfig (hwaiting : L.Waiting) {ms : ℤ} (hms : ms ≠ 0) (hnew : L.vadMs ≠ ms) {phrases : List Bytes}
  (hok : (L.applyConfig env { wakePhrases := some phrases, vadSilenceMs := some ms }).1 = .ok) :
  (L.applyConfig env { wakePhrases := some phrases, vadSilenceMs := some ms }).2.Informed := by
 obtain ⟨hsilence, hstate⟩ := silence_applyWakePhrases env L (some phrases)
 have hvad : (L.applyWakePhrases env (some phrases)).2.vadMs = L.vadMs := congrArg Silence.inForce hsilence
 unfold applyConfig at hok ⊢
 dsimp only at hok ⊢
 split at hok
 · next hfailed => exact absurd hok hfailed
 · next htaken =>
   rw [if_neg htaken]
   have hheard : (L.applyWakePhrases env (some phrases)).2.Waiting := by rwa [Waiting, hstate]
   exact informed_newSilence hheard hms (hvad.trans_ne hnew)

/-- No hearing stops with a silence to be given, and no CONFIG asks for a silence of 0. -/
def GivesSilence (env : Environment Sample) (L : Listener Sample) : Call Sample → Prop
 | .feed samples =>
  Along (fun L step => L.step env step) (fun L step => L.StopsHearing env step → L.pendingVadMs = 0) L (stepsOf samples)
 | .applyConfig update => update.vadSilenceMs ≠ some 0
 | .reset => True

theorem informed_call (h : L.Informed) (c : Call Sample) (hc : L.GivesSilence env c) : (L.call env c).Informed := by
 cases c with
 | feed samples => exact informed_feed h samples hc
 | applyConfig update => exact informed_applyConfig h update hc
 | reset => exact informed_reset h

end Listener

/-! ## Runs -/

/-- `Start` succeeded: the spotter took the default wake phrase. -/
def Starts {Sample : Type} (env : Environment Sample) (silence : Sample) : Prop :=
 (Listener.start env { ring := ⟨fun _ => silence, 0⟩ }).1 = .ok

instance {Sample : Type} (env : Environment Sample) (silence : Sample) : Decidable (Starts env silence) :=
 inferInstanceAs (Decidable (_ = _))

variable {Sample : Type} {env : Environment Sample} {silence : Sample}

theorem informed_started (h : Starts env silence) : (started env silence).Informed :=
 Listener.informed_firstConfig (.inl rfl) (show (500 : ℤ) ≠ 0 by decide) (show (0 : ℤ) ≠ 500 by decide) h

/-- A waiting listener's detector has the configured silence, if no hearing stopped with a new one to be given. -/
theorem waiting_has_silence (hstart : Starts env silence) (calls : List (Call Sample))
  (hcalls : Along (Listener.call env) (Listener.GivesSilence env) (started env silence) calls)
  (hwaiting : (ran env silence calls).Waiting) :
  (ran env silence calls).silenceGiven = some (ran env silence calls).config.vadSilenceMs := by
 have hinformed : (ran env silence calls).Informed :=
  run_invariant (I := Listener.Informed) (fun _ c hL hc => Listener.informed_call hL c hc) (informed_started hstart) hcalls
 obtain ⟨⟨hgiven, hmeant⟩, htold⟩ := hinformed
 rw [Listener.silence, if_pos (htold hwaiting)] at hmeant
 exact hgiven.trans (congrArg some hmeant)

/-- The detector hears speech, and the recognizer words that are no wake phrase. -/
def mishearingEnvironment : Environment ℤ :=
 { wakingEnvironment with
   spot := fun _ words => (false, words)
   detect := fun _ => { inSpeech := true }
   partialResult := fun _ => { text := "and then we all went home" } }

theorem waiting_has_silence_after_reset :
  (ran mishearingEnvironment 0 [.feed [5], .applyConfig { vadSilenceMs := some 900 }, .reset]).silenceGiven = some 900 := by
 refine waiting_has_silence (by decide) _ ⟨⟨fun _ => ?_, trivial⟩, ?_, trivial, trivial⟩ (by decide)
 · decide
 · exact show some (900 : ℤ) ≠ some 0 by decide

/-- The words heard are no wake phrase: the listener waits, and its detector keeps the silence of before. -/
theorem stopped_hearing_keeps_silence :
  Starts mishearingEnvironment 0 ∧
   (ran mishearingEnvironment 0 [.feed [5], .applyConfig { vadSilenceMs := some 900 }, .feed [6]]).state = .waitWake ∧
   (ran mishearingEnvironment 0 [.feed [5], .applyConfig { vadSilenceMs := some 900 }, .feed [6]]).silenceGiven =
    some 500 ∧
   (ran mishearingEnvironment 0 [.feed [5], .applyConfig { vadSilenceMs := some 900 }, .feed [6]]).config.vadSilenceMs =
    900 := by
 refine ⟨?_, ?_, ?_, ?_⟩ <;> decide

end MoltBrowser.SpeechListener
