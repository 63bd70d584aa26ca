import MoltBrowser.SpeechListenerCourse

set_option autoImplicit false

/-!
# What the recognizer is given

The utterances begun, read off the calls to the engines alone, with the audio each
was given and whether a `final` came of it.
-/
namespace MoltBrowser.SpeechListener
open List

open TransitionRuns

structure HeardUtterance (Sample : Type) where
 /-- How much had been received when it was begun. -/
 begunAt : ℕ
 start : ℤ
 given : List Sample := []
 final : Bool := false

namespace HeardUtterance

variable {Sample : Type}

def stop (u : HeardUtterance Sample) : ℤ := u.start + u.given.length

end HeardUtterance

structure RecognizerLog (Sample : Type) where
 heard : List Sample := []
 isOpen : Bool := false
 utterances : List (HeardUtterance Sample) := []

namespace RecognizerLog

variable {Sample : Type}

def after (log : RecognizerLog Sample) : Action Sample → RecognizerLog Sample
 | .detect samples => { log with heard := log.heard ++ samples }
 | .beginUtterance _ fromSample =>
  { log with
    isOpen := true
    utterances := { begunAt := log.heard.length, start := fromSample } :: log.utterances }
 | .recognize samples =>
  { log with
    utterances := log.utterances.modifyHead fun u => { u with given := u.given ++ samples } }
 | .finish => { log with isOpen := false }
 | .abandonUtterance => { log with isOpen := false }
 | .emit event _ =>
  if event.type = .final then
   { log with utterances := log.utterances.modifyHead fun u => { u with final := true } }
  else log
 | _ => log

def UpToDate (log : RecognizerLog Sample) : Prop :=
 ∃ u, log.utterances.head? = some u ∧ u.given = log.heard.drop u.start.toNat

/-- When each call may come, and that what is recognized brings the utterance up to
the present. -/
def Allows (log : RecognizerLog Sample) : Action Sample → Prop
 | .beginUtterance _ _ => log.isOpen = false
 | .recognize samples => log.isOpen = true ∧ (log.after (.recognize samples)).UpToDate
 | .partialResult => log.isOpen = true ∧ log.UpToDate
 | .finish => log.isOpen = true ∧ log.UpToDate
 | .abandonUtterance => log.isOpen = true
 | _ => True

end RecognizerLog

variable {Sample : Type}

def recognizerLog (trace : List (Action Sample)) : RecognizerLog Sample :=
 run RecognizerLog.after {} trace

/-! ## The log follows the course -/

/-- An utterance has its audio in one piece, little of it from before it began. -/
structure InOnePiece (heard : List Sample) (u : HeardUtterance Sample) : Prop where
 begun : u.begunAt ≤ heard.length
 nonneg : 0 ≤ u.start
 start : u.start ≤ u.begunAt
 back : (u.begunAt : ℤ) ≤ u.start + kRingSamples
 given : u.given <+: heard.drop u.start.toNat

theorem InOnePiece.stop_le {heard : List Sample} {u : HeardUtterance Sample}
  (h : InOnePiece heard u) : u.stop ≤ heard.length := by
 have hlen := h.given.length_le
 have hnonneg := h.nonneg
 have hstart := h.start
 have hbegun := h.begun
 rw [length_drop] at hlen
 unfold HeardUtterance.stop
 omega

theorem InOnePiece.append {heard : List Sample} {u : HeardUtterance Sample}
  (h : InOnePiece heard u) (more : List Sample) : InOnePiece (heard ++ more) u where
 begun := h.begun.trans (by simp)
 nonneg := h.nonneg
 start := h.start
 back := h.back
 given := by
  have hle : u.start.toNat ≤ heard.length := by
   have hstart := h.start
   have hbegun := h.begun
   omega
  rw [drop_append_of_le_length hle]
  exact h.given.trans (prefix_append _ _)

/-- The open utterance was given the audio from `start` up to `stop`. -/
def Follows (log : RecognizerLog Sample) : Option (ℤ × ℤ) → Prop
 | none => log.isOpen = false
 | some (start, stop) => log.isOpen = true ∧
   ∃ u rest, log.utterances = u :: rest ∧ u.start = start ∧ u.stop = stop ∧ u.final = false

structure Logged (c : Course Sample) (log : RecognizerLog Sample) : Prop where
 heard : log.heard = c.heard
 recognizing : Follows log c.recognizing
 pieces : ∀ u ∈ log.utterances, InOnePiece log.heard u
 used : c.used ≤ c.heard.length
 finals : ∀ u ∈ log.utterances, u.final = true → u.stop ≤ c.used
 apart : log.utterances.Pairwise fun newer older => older.final = true → older.stop ≤ newer.start

theorem logged_start : Logged ({} : Course Sample) {} :=
 ⟨rfl, rfl, by simp, le_rfl, by simp, List.Pairwise.nil⟩

variable {c : Course Sample} {log : RecognizerLog Sample}

theorem Logged.allows (h : Logged c log)
  {a : Action Sample} (hallow : c.Allows a) : log.Allows a := by
 have hrec := h.recognizing
 -- an utterance given all up to `stop` has the prefix of that length
 have hgiven : ∀ u ∈ log.utterances, ∀ stop : ℤ, u.stop = stop → ∀ tail : List Sample,
   tail = log.heard.drop stop.toNat → u.given ++ tail = log.heard.drop u.start.toNat := by
  intro u hu stop hstop tail htail
  have hpiece := h.pieces u hu
  obtain ⟨suffix, hsuffix⟩ := hpiece.given
  have hnonneg := hpiece.nonneg
  have hpos : stop.toNat = u.start.toNat + u.given.length := by
   unfold HeardUtterance.stop at hstop
   omega
  rw [htail, hpos, ← drop_drop, ← hsuffix, drop_left]
 cases a
 case beginUtterance hotwords fromSample =>
  rw [hallow.1] at hrec
  exact hrec
 case recognize samples =>
  obtain ⟨start, stop, hopen, hsamples⟩ := hallow
  rw [hopen] at hrec
  obtain ⟨hisOpen, u, rest, hutterances, hstart, hstop, hfinal⟩ := hrec
  have hu : u ∈ log.utterances := by rw [hutterances]; exact mem_cons_self
  refine ⟨hisOpen, { u with given := u.given ++ samples }, ?_, ?_⟩
  · simp [RecognizerLog.after, hutterances]
  · exact hgiven u hu stop hstop samples (by rw [h.heard]; exact hsamples)
 case partialResult =>
  obtain ⟨start, hopen⟩ := hallow
  rw [hopen] at hrec
  obtain ⟨hisOpen, u, rest, hutterances, hstart, hstop, hfinal⟩ := hrec
  have hu : u ∈ log.utterances := by rw [hutterances]; exact mem_cons_self
  have hall := hgiven u hu _ hstop [] (by simp [h.heard])
  exact ⟨hisOpen, u, by rw [hutterances]; rfl, by simpa using hall⟩
 case finish =>
  obtain ⟨start, hopen⟩ := hallow
  rw [hopen] at hrec
  obtain ⟨hisOpen, u, rest, hutterances, hstart, hstop, hfinal⟩ := hrec
  have hu : u ∈ log.utterances := by rw [hutterances]; exact mem_cons_self
  have hall := hgiven u hu _ hstop [] (by simp [h.heard])
  exact ⟨hisOpen, u, by rw [hutterances]; rfl, by simpa using hall⟩
 case abandonUtterance =>
  cases hopen : c.recognizing with
  | none => simp [Course.Allows, hopen] at hallow
  | some given =>
   rw [hopen] at hrec
   exact hrec.1
 all_goals trivial

theorem Logged.begin (h : Logged c log)
  {hotwords : Bytes} {fromSample : ℤ} (hallow : c.Allows (.beginUtterance hotwords fromSample)) :
  Logged (c.after (.beginUtterance hotwords fromSample))
   (log.after (.beginUtterance hotwords fromSample)) := by
 obtain ⟨-, hused, hnonneg, hle, hback⟩ := hallow
 have hlen : log.heard.length = c.heard.length := by rw [h.heard]
 refine ⟨h.heard, ⟨rfl, _, _, rfl, rfl, ?_, rfl⟩, fun u hu => ?_, h.used, fun u hu hfinal => ?_, ?_⟩
 · simp [HeardUtterance.stop]
 · rcases mem_cons.1 hu with rfl | hu
   · exact ⟨le_rfl, hnonneg, by simpa [hlen] using hle, by simpa [hlen] using hback,
      nil_prefix⟩
   · exact h.pieces u hu
 · rcases mem_cons.1 hu with rfl | hu
   · exact absurd hfinal Bool.false_ne_true
   · exact h.finals u hu hfinal
 · refine pairwise_cons.2 ⟨fun u hu hfinal => ?_, h.apart⟩
   exact (h.finals u hu hfinal).trans hused

theorem Logged.recognize (h : Logged c log)
  {samples : List Sample} (hallow : c.Allows (.recognize samples)) :
  Logged (c.after (.recognize samples)) (log.after (.recognize samples)) := by
 obtain ⟨-, u', hhead, hall⟩ := h.allows hallow
 obtain ⟨start, stop, hopen, -⟩ := hallow
 have hrec := h.recognizing
 rw [hopen] at hrec
 obtain ⟨hisOpen, u, rest, hutterances, hstart, hstop, hfinal⟩ := hrec
 have hu' : u' = { u with given := u.given ++ samples } := by
  simpa [RecognizerLog.after, hutterances] using hhead.symm
 have hmem : u ∈ log.utterances := by rw [hutterances]; exact mem_cons_self
 have hpiece := h.pieces u hmem
 have hnonneg := hpiece.nonneg
 have hbegun := hpiece.begun
 have hstartLe := hpiece.start
 have hlog : (log.after (.recognize samples)).utterances = u' :: rest := by
  rw [hu']
  simp [RecognizerLog.after, hutterances]
 have hstop' : u'.stop = c.heard.length := by
  have hlength := congrArg List.length hall
  have hheard : (log.after (.recognize samples)).heard = c.heard := h.heard
  have hlen : log.heard.length = c.heard.length := by rw [h.heard]
  rw [hheard, length_drop] at hlength
  have hs : u'.start = u.start := by rw [hu']
  unfold HeardUtterance.stop
  rw [hs] at hlength ⊢
  omega
 have hold := h.apart
 rw [hutterances, pairwise_cons] at hold
 refine ⟨h.heard, ?_, fun w hw => ?_, h.used, fun w hw hwFinal => ?_, ?_⟩
 · simp only [Course.after, hopen, Option.map_some]
   exact ⟨hisOpen, u', rest, hlog, by rw [hu']; exact hstart, hstop', by rw [hu']; exact hfinal⟩
 · rw [hlog] at hw
   rcases mem_cons.1 hw with rfl | hw
   · rw [hu'] at hall ⊢
     exact ⟨hbegun, hnonneg, hstartLe, hpiece.back, by rw [hall]⟩
   · exact h.pieces w (by rw [hutterances]; exact mem_cons_of_mem _ hw)
 · rw [hlog] at hw
   rcases mem_cons.1 hw with rfl | hw
   · rw [hu', hfinal] at hwFinal
     exact absurd hwFinal Bool.false_ne_true
   · exact h.finals w (by rw [hutterances]; exact mem_cons_of_mem _ hw) hwFinal
 · rw [hlog, pairwise_cons]
   refine ⟨fun w hw hfinal => ?_, hold.2⟩
   rw [hu']
   exact hold.1 w hw hfinal

theorem Logged.detect (h : Logged c log)
  (samples : List Sample) : Logged (c.after (.detect samples)) (log.after (.detect samples)) where
 heard := congrArg (· ++ samples) h.heard
 recognizing := h.recognizing
 pieces u hu := (h.pieces u hu).append samples
 used := by
  have hused := h.used
  simp only [Course.after, length_append]
  push_cast
  omega
 finals := h.finals
 apart := h.apart

theorem Logged.close (h : Logged c log) :
  Logged { c with recognizing := none } { log with isOpen := false } :=
 ⟨h.heard, rfl, h.pieces, h.used, h.finals, h.apart⟩

theorem Logged.emit (h : Logged c log)
  {event : HelperEvent} {wakeRequired : Bool} (hallow : c.Allows (.emit event wakeRequired)) :
  Logged (c.after (.emit event wakeRequired)) (log.after (.emit event wakeRequired)) := by
 by_cases hfinal : event.type = .final
 · have hclosed : c.recognizing = none := hallow.2.2.2 hfinal
   have hrec := h.recognizing
   rw [hclosed] at hrec
   have hlog : log.after (.emit event wakeRequired) =
     { log with utterances := log.utterances.modifyHead fun u => { u with final := true } } := by
    simp [RecognizerLog.after, hfinal]
   have hused : (c.after (.emit event wakeRequired)).used = c.heard.length := by
    simp [Course.after, hfinal]
   have hheard : (c.after (.emit event wakeRequired)).heard = c.heard := rfl
   have hlen : log.heard.length = c.heard.length := by rw [h.heard]
   rw [hlog]
   refine ⟨h.heard, ?_, ?_, by rw [hused, hheard], ?_, ?_⟩
   · show Follows _ c.recognizing
     rw [hclosed]
     exact hrec
   all_goals cases hutterances : log.utterances with
    | nil => simp
    | cons u rest => ?_
   · intro w hw
     rcases mem_cons.1 hw with rfl | hw
     · have hu := h.pieces u (by rw [hutterances]; exact mem_cons_self)
       exact ⟨hu.begun, hu.nonneg, hu.start, hu.back, hu.given⟩
     · exact h.pieces w (by rw [hutterances]; exact mem_cons_of_mem _ hw)
   · intro w hw _
     rw [hused, ← hlen]
     rcases mem_cons.1 hw with rfl | hw
     · exact (h.pieces u (by rw [hutterances]; exact mem_cons_self)).stop_le
     · exact (h.pieces w (by rw [hutterances]; exact mem_cons_of_mem _ hw)).stop_le
   · have hold := h.apart
     rw [hutterances, pairwise_cons] at hold
     exact pairwise_cons.2 hold
 · have hlog : log.after (.emit event wakeRequired) = log := by simp [RecognizerLog.after, hfinal]
   have hused : (c.after (.emit event wakeRequired)).used = c.used := by simp [Course.after, hfinal]
   rw [hlog]
   refine ⟨h.heard, h.recognizing, h.pieces, ?_, ?_, h.apart⟩
   · rw [hused]
     exact h.used
   · rw [hused]
     exact h.finals

theorem Logged.after (h : Logged c log)
  {a : Action Sample} (hallow : c.Allows a) : Logged (c.after a) (log.after a) := by
 cases a
 case beginUtterance => exact h.begin hallow
 case recognize => exact h.recognize hallow
 case detect samples => exact h.detect samples
 case finish => exact h.close
 case abandonUtterance => exact h.close
 case emit => exact h.emit hallow
 all_goals exact h

theorem logged_of_orderly {trace : List (Action Sample)}
  (h : Logged c log)
  (horderly : Along Course.after Course.Allows c trace) :
  Along RecognizerLog.after RecognizerLog.Allows log trace ∧
   Logged (run Course.after c trace) (run RecognizerLog.after log trace) := by
 induction trace generalizing c log with
 | nil => exact ⟨trivial, h⟩
 | cons a trace ih =>
  obtain ⟨hrest, hlogged⟩ := ih (h.after horderly.1) horderly.2
  exact ⟨⟨h.allows horderly.1, hrest⟩, hlogged⟩

/-! ## The audio of the log is the audio fed -/

def Action.audio : Action Sample → List Sample
 | .detect samples => samples
 | _ => []

def audioOf (trace : List (Action Sample)) : List Sample := trace.flatMap Action.audio

theorem heard_run (trace : List (Action Sample)) (log : RecognizerLog Sample) :
  (run RecognizerLog.after log trace).heard = log.heard ++ audioOf trace := by
 induction trace generalizing log with
 | nil => simp [audioOf]
 | cons a trace ih =>
  have hone : (log.after a).heard = log.heard ++ a.audio := by
   cases a
   case emit event wakeRequired => simp only [RecognizerLog.after, Action.audio]; split <;> simp
   all_goals simp [RecognizerLog.after, Action.audio]
  rw [run_cons, ih, hone, audioOf, audioOf, flatMap_cons, append_assoc]

section Audio

variable (env : Environment Sample) (L : Listener Sample)

@[simp] theorem audioOf_act (a : Action Sample) :
  audioOf (L.act a).trace = audioOf L.trace ++ a.audio := by
 simp [audioOf, Listener.act]

@[simp] theorem audioOf_emit (event : HelperEvent) :
  audioOf (L.emit event).trace = audioOf L.trace := by
 simp [Listener.emit, Action.audio]

@[simp] theorem audioOf_spot (samples : List Sample) :
  audioOf (L.spot env samples).2.trace = audioOf L.trace := by
 simp [Listener.spot, Action.audio]

@[simp] theorem audioOf_applyPendingVad :
  audioOf L.applyPendingVad.trace = audioOf L.trace := by
 unfold Listener.applyPendingVad
 split
 · rfl
 · simp [Action.audio]

@[simp] theorem audioOf_toBaseState : audioOf L.toBaseState.trace = audioOf L.trace := by
 simp [Listener.toBaseState, Action.audio]

@[simp] theorem audioOf_emitPartial (result : RecognizerResult) :
  audioOf (L.emitPartial env result).trace = audioOf L.trace := by
 unfold Listener.emitPartial
 split
 · rfl
 · dsimp only
   split
   · rfl
   · simp

@[simp] theorem audioOf_endUtterance (result : RecognizerResult) :
  audioOf (L.endUtterance env result).trace = audioOf L.trace := by
 simp [Listener.endUtterance]

@[simp] theorem audioOf_finishUtterance :
  audioOf (L.finishUtterance env).trace = audioOf L.trace := by
 simp [Listener.finishUtterance, Action.audio]

@[simp] theorem audioOf_endWithoutCommand :
  audioOf (L.endWithoutCommand env).trace = audioOf L.trace := by
 unfold Listener.endWithoutCommand
 dsimp only
 split <;> simp [Action.audio]

@[simp] theorem audioOf_beginFrom (fromSample : ℤ) :
  audioOf (L.beginFrom fromSample).trace = audioOf L.trace := by
 simp [Listener.beginFrom, Action.audio]

@[simp] theorem audioOf_onWake (said : ℤ) : audioOf (L.onWake said).trace = audioOf L.trace := by
 simp [Listener.onWake]

@[simp] theorem audioOf_stopHearing : audioOf L.stopHearing.trace = audioOf L.trace := by
 simp [Listener.stopHearing, Action.audio]

@[simp] theorem audioOf_onHeardWake (result : RecognizerResult) (words : ℕ) (whole : Bool) :
  audioOf (L.onHeardWake env result words whole).trace = audioOf L.trace := by
 unfold Listener.onHeardWake
 dsimp only
 split
 · simp
 · split <;> simp

@[simp] theorem audioOf_onHeard (result : RecognizerResult) (whole : Bool) :
  audioOf (L.onHeard env result whole).trace = audioOf L.trace := by
 unfold Listener.onHeard
 dsimp only
 split
 · simp
 · split
   · simp
   · split <;> simp

theorem audioOf_respotSteps (steps : List (List Sample)) (reached : ℤ) :
  audioOf (L.respotSteps env reached steps).trace = audioOf L.trace := by
 induction steps generalizing L reached with
 | nil => rfl
 | cons step rest ih =>
  rw [Listener.respotSteps]
  dsimp only
  split
  · simp
  · rw [ih]
    simp

@[simp] theorem audioOf_startUtterance (stepStart : ℤ) :
  audioOf (L.startUtterance stepStart).trace = audioOf L.trace := by
 simp [Listener.startUtterance]

@[simp] theorem audioOf_wakeSpeechEnded :
  audioOf (L.wakeSpeechEnded env).trace = audioOf L.trace := by
 unfold Listener.wakeSpeechEnded
 dsimp only
 split <;> simp [Action.audio]

theorem audioOf_step (samples : List Sample) :
  audioOf (L.step env samples).trace = audioOf L.trace ++ samples := by
 have hdetect : audioOf (L.detect env samples).2.trace = audioOf L.trace ++ samples := by
  simp [Listener.detect, Listener.remember, audioOf, Listener.act, Action.audio]
 unfold Listener.step
 dsimp only
 rw [← hdetect]
 generalize (L.detect env samples).2 = M
 split
 · unfold Listener.stepWaitWake
   dsimp only
   split_ifs <;> simp
 · unfold Listener.stepHearing
   dsimp only
   split_ifs <;> simp [Action.audio]
 · unfold Listener.stepOpen
   split_ifs <;> simp
 · unfold Listener.stepAfterWake
   dsimp only
   split_ifs <;> simp [Action.audio]
 · unfold Listener.stepAwaitCommand
   split_ifs <;> simp
 · unfold Listener.stepUtterance
   dsimp only
   split_ifs <;> simp [Action.audio]

theorem audioOf_run_step (steps : List (List Sample)) :
  audioOf (run (fun L step => Listener.step env L step) L steps).trace =
   audioOf L.trace ++ steps.flatten := by
 induction steps generalizing L with
 | nil => simp
 | cons step steps ih =>
  rw [run_cons, ih, audioOf_step, flatten_cons, append_assoc]

theorem audioOf_reset : audioOf L.reset.trace = audioOf L.trace := by
 unfold Listener.reset
 dsimp only
 split_ifs <;> simp [Action.audio]

theorem audioOf_applyConfig (update : ConfigUpdate) :
  audioOf (L.applyConfig env update).2.trace = audioOf L.trace := by
 have hphrases : audioOf (L.applyWakePhrases env update.wakePhrases).2.trace = audioOf L.trace := by
  unfold Listener.applyWakePhrases
  split
  · rfl
  · split
    · rfl
    · dsimp only
      split_ifs <;> simp [Action.audio]
 have hhotwords : ∀ M : Listener Sample,
   audioOf (M.applyHotwords env update.hotwords).trace = audioOf M.trace := by
  intro M
  unfold Listener.applyHotwords
  split <;> rfl
 have hvad : ∀ M : Listener Sample,
   audioOf (M.applyVadSilence update.vadSilenceMs).trace = audioOf M.trace := by
  intro M
  unfold Listener.applyVadSilence
  split
  · rfl
  · dsimp only
    split_ifs <;> simp
 have hrequired : ∀ M : Listener Sample,
   audioOf (M.applyWakeRequired env update.wakeRequired).trace = audioOf M.trace := by
  intro M
  unfold Listener.applyWakeRequired
  split
  · rfl
  · unfold Listener.wakeRequiredSet
    split_ifs <;> simp [Listener.respotRecent, audioOf_respotSteps, Action.audio]
 unfold Listener.applyConfig
 dsimp only
 split_ifs
 · exact hphrases
 · rw [hrequired, hvad, hhotwords, hphrases]

theorem audioOf_call (call : Call Sample) :
  audioOf (L.call env call).trace = audioOf L.trace ++ call.fed := by
 cases call with
 | feed samples =>
  show audioOf (L.feed env samples).trace = audioOf L.trace ++ samples
  rw [Listener.feed, audioOf_run_step, stepsOf_flatten]
 | applyConfig update => simpa [Call.fed, Listener.call] using audioOf_applyConfig env L update
 | reset => simpa [Call.fed, Listener.call] using audioOf_reset L

theorem audioOf_run_call (calls : List (Call Sample)) :
  audioOf (run (Listener.call env) L calls).trace = audioOf L.trace ++ calls.flatMap Call.fed := by
 induction calls generalizing L with
 | nil => simp
 | cons call calls ih =>
  rw [run_cons, ih, audioOf_call, flatMap_cons, append_assoc]

theorem audioOf_ran (silence : Sample) (calls : List (Call Sample)) :
  audioOf (ran env silence calls).trace = calls.flatMap Call.fed := by
 have hstart : audioOf (started env silence).trace = [] := audioOf_applyConfig env _ _
 rw [ran, audioOf_run_call, hstart, nil_append]

end Audio

/-- In every run the recognizer's calls keep their order, each utterance has the
audio from its start on in one piece, and no two that came to a `final` share any. -/
theorem utterances_well_formed (env : Environment Sample) (silence : Sample)
  (calls : List (Call Sample)) :
  let trace := (ran env silence calls).trace
  let log := recognizerLog trace
  Along RecognizerLog.after RecognizerLog.Allows {} trace ∧
   log.heard = calls.flatMap Call.fed ∧
   (∀ u ∈ log.utterances, 0 ≤ u.start ∧ u.start ≤ u.begunAt ∧
    (u.begunAt : ℤ) ≤ u.start + kRingSamples ∧ u.given <+: log.heard.drop u.start.toNat) ∧
   (log.isOpen = true → log.UpToDate) ∧
   log.utterances.Pairwise fun newer older =>
    newer.final = true → older.final = true → older.stop ≤ newer.start := by
 intro trace log
 have hsettled := settled_ran env silence calls
 obtain ⟨hallowed, hlogged⟩ := logged_of_orderly logged_start hsettled.synced.orderly
 refine ⟨hallowed, ?_, fun u hu => ?_, fun hopen => ?_, ?_⟩
 · rw [← audioOf_ran env silence calls]
   exact heard_run _ _
 · have hpiece := hlogged.pieces u hu
   exact ⟨hpiece.nonneg, hpiece.start, hpiece.back, hpiece.given⟩
 · have hrec := hlogged.recognizing
   have hwhere := hsettled.recognizer.2
   have hcourse : run Course.after {} trace = courseOf trace := rfl
   rw [hcourse] at hrec
   split at hwhere
   · rw [hwhere.given] at hrec
     obtain ⟨-, u, rest, hutterances, hstart, hstop, -⟩ := hrec
     have hpiece := hlogged.pieces u (by rw [hutterances]; exact List.mem_cons_self)
     have hlen : (log.heard.length : ℤ) = (ran env silence calls).received := by
      rw [← hsettled.synced.received, ← hcourse, ← hlogged.heard]
      rfl
     refine ⟨u, by rw [show log.utterances = u :: rest from hutterances]; rfl, ?_⟩
     refine hpiece.given.eq_of_length_le ?_
     have hbegun := hpiece.start
     have hnonneg := hpiece.nonneg
     have hlog : (run RecognizerLog.after {} trace).heard.length = log.heard.length := rfl
     unfold HeardUtterance.stop at hstop
     rw [List.length_drop, hlog]
     omega
   · rw [show (courseOf trace).recognizing = none from hwhere] at hrec
     exact absurd hopen (by rw [show log.isOpen = false from hrec]; exact Bool.false_ne_true)
 · refine hlogged.apart.imp ?_
   intro newer older hapart _
   exact hapart

end MoltBrowser.SpeechListener
