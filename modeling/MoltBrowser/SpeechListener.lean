import MoltBrowser.Bytes
import MoltBrowser.SampleRing

set_option autoImplicit false

/-!
# The speech helper's listening states (`speech_helper/listener.cc`)

Positions in the audio are sample counts. Beside its own fields the listener here
keeps a `trace`: every call it made to the engines and every event it wrote, in
order. The engines answer by it.
-/
namespace MoltBrowser.SpeechListener

open SampleRing TransitionRuns

/-! ## Events (`speech_events.cc`) -/

inductive HelperEventType where
 | ready | wake | speechStart | partialText | final | speechEnd | error
 deriving DecidableEq, Repr

structure HelperEvent where
 type : HelperEventType
 text : Bytes := []
 confidence : ℚ := 0
 epoch : ℤ := -1
 audioMs : ℤ := -1
 deriving DecidableEq

structure EventTime where
 epoch : ℤ
 audioMs : ℤ

def twoDecimals (value : ℚ) : ℚ := ⌊max 0 (min 1 value) * 100 + 1 / 2⌋ / 100

def wakeEvent (time : EventTime) : HelperEvent :=
 { type := .wake, epoch := time.epoch, audioMs := time.audioMs }

def speechStartEvent (time : EventTime) : HelperEvent :=
 { type := .speechStart, epoch := time.epoch, audioMs := time.audioMs }

def partialEvent (cleanEventText : Bytes → Bytes) (time : EventTime) (text : Bytes) :
  HelperEvent :=
 { type := .partialText, text := cleanEventText text, epoch := time.epoch, audioMs := time.audioMs }

def speechEndEvent (time : EventTime) : HelperEvent :=
 { type := .speechEnd, epoch := time.epoch, audioMs := time.audioMs }

def finalEvent (cleanEventText : Bytes → Bytes) (time : EventTime) (text : Bytes)
  (confidence : ℚ) : HelperEvent :=
 { type := .final, text := cleanEventText text, confidence := twoDecimals confidence,
   epoch := time.epoch, audioMs := time.audioMs }

/-! ## Settings (`speech_config.h`) -/

def kDefaultVadSilenceMs : ℤ := 500

structure SpeechConfig where
 wakePhrases : List Bytes := []
 wakeRequired : Bool := true
 hotwords : List Bytes := []
 vadSilenceMs : ℤ := kDefaultVadSilenceMs

def defaultSpeechConfig : SpeechConfig := { wakePhrases := ["hey molt"] }

structure ConfigUpdate where
 wakePhrases : Option (List Bytes) := none
 wakeRequired : Option Bool := none
 hotwords : Option (List Bytes) := none
 vadSilenceMs : Option ℤ := none

/-! ## Engines -/

structure VadUpdate where
 inSpeech : Bool := false
 segmentEnded : Bool := false

structure RecognizerResult where
 text : Bytes
 /-- `word_seconds`, each `* kSampleRate` as a sample count. -/
 wordSamples : List ℤ := []
 confidence : ℚ := 0

/-- What the listener asks of the engines, and what it writes. Beside the source's
arguments, a begun utterance has the position its audio starts at, and an event
the `wake_required` it was written under. -/
inductive Action (Sample : Type) where
 | setKeywords (keywordLines : List Bytes)
 | spot (samples : List Sample)
 | resetSpotter
 | setVadSilenceMs (ms : ℤ)
 | detect (samples : List Sample)
 | resetVad
 | beginUtterance (hotwords : Bytes) (fromSample : ℤ)
 | recognize (samples : List Sample)
 | partialResult
 | finish
 | abandonUtterance
 | emit (event : HelperEvent) (wakeRequired : Bool)

/-- The engines, each answer one to the calls so far, and the reading of text with
the models' vocabularies. The spotter may set the words it is given. -/
structure Environment (Sample : Type) where
 setKeywords : List (Action Sample) → Bool
 spot : List (Action Sample) → ℕ → Bool × ℕ
 detect : List (Action Sample) → VadUpdate
 partialResult : List (Action Sample) → RecognizerResult
 finish : List (Action Sample) → RecognizerResult
 wakeKeywordLines : Bytes → Option (List Bytes)
 hotwordsArgument : List Bytes → Bytes
 wakePhraseWordsAtStart : Bytes → List Bytes → ℕ
 wakeNameWordsAtStart : Bytes → List Bytes → ℕ
 cleanEventText : Bytes → Bytes

/-! ## The listener -/

def kSampleRate : ℤ := 16000
def kWakeWindowSamples : ℤ := 6 * kSampleRate
def kMaxUtteranceSamples : ℤ := 20 * kSampleRate
def kPrerollSamples : ℤ := kSampleRate * 6 / 10
def kWakePrerollSamples : ℤ := 2 * kSampleRate
def kCommandCutSamples : ℤ := kSampleRate * 3 / 10
def kRingSamples : ℕ := 40000
def kStepSamples : ℕ := 1600
def kRespotSamples : ℤ := kSampleRate * 3 / 2
def kHearingSamples : ℤ := 4 * kSampleRate

inductive ConfigResult where
 | ok | configError | engineError
 deriving DecidableEq

inductive State where
 | waitWake | hearing | isOpen | afterWake | awaitCommand | utterance
 deriving DecidableEq, Repr

structure Listener (Sample : Type) where
 config : SpeechConfig := defaultSpeechConfig
 keywordLines : List Bytes := []
 hotwords : Bytes := []
 pendingVadMs : ℤ := 0
 vadMs : ℤ := 0
 heardOff : Bool := false
 state : State := .waitWake
 epoch : ℤ := 0
 received : ℤ := 0
 vadInSpeech : Bool := false
 speechOnset : ℤ := -1
 consumed : ℤ := 0
 wakeAt : ℤ := 0
 wakeWords : ℕ := 0
 utteranceFrom : ℤ := 0
 lastPartial : Bytes := []
 ring : RingBuffer Sample
 trace : List (Action Sample) := []

def isAlnum (c : UInt8) : Bool :=
 (97 ≤ c && c ≤ 122) || (65 ≤ c && c ≤ 90) || (48 ≤ c && c ≤ 57) || 128 ≤ c

def countWordsFrom (words : ℕ) (inWord counted : Bool) : Bytes → ℕ
 | [] => words
 | c :: text =>
  if c = 32 then countWordsFrom words false counted text
  else
   let counted := if inWord then counted else false
   if isAlnum c && !counted then countWordsFrom (words + 1) true true text
   else countWordsFrom words true counted text

def countWords (text : Bytes) : ℕ := countWordsFrom 0 false false text

/-- The steps of at most `kStepSamples` that audio is taken in. -/
def stepsOf {α : Type} (samples : List α) : List (List α) :=
 (List.range ((samples.length + (kStepSamples - 1)) / kStepSamples)).map fun i =>
  (samples.drop (kStepSamples * i)).take kStepSamples

namespace Listener

variable {Sample : Type} (env : Environment Sample) (L : Listener Sample)

/-- The onset a speech's utterance starts before: where the detector heard it, or
else this step. -/
def onset (stepStart : ℤ) : ℤ := if L.speechOnset ≥ 0 then L.speechOnset else stepStart

def timeAt (sample : ℤ) : EventTime := ⟨L.epoch, (sample * 1000).tdiv kSampleRate⟩

def now : EventTime := L.timeAt L.received

def act (a : Action Sample) : Listener Sample := { L with trace := L.trace ++ [a] }

def emit (event : HelperEvent) : Listener Sample := L.act (.emit event L.config.wakeRequired)

def spot (samples : List Sample) : Bool × Listener Sample :=
 let L := L.act (.spot samples)
 let answer := env.spot L.trace L.wakeWords
 (answer.1, { L with wakeWords := answer.2 })

def remember (samples : List Sample) : Listener Sample :=
 { L with ring := L.ring.remember kRingSamples samples }

def recallFrom (fromSample : ℤ) : List Sample :=
 if fromSample ≥ L.received then []
 else L.ring.recall kRingSamples fromSample.toNat L.received.toNat

def applyPendingVad : Listener Sample :=
 if L.pendingVadMs = 0 then L
 else
  let L := L.act (.setVadSilenceMs L.pendingVadMs)
  { L with vadMs := L.pendingVadMs, pendingVadMs := 0, vadInSpeech := false, speechOnset := -1 }

def toBaseState : Listener Sample :=
 let L := { L with
  lastPartial := []
  heardOff := false
  state := if L.config.wakeRequired then .waitWake else .isOpen }
 (L.act .resetSpotter).applyPendingVad

def emitPartial (result : RecognizerResult) : Listener Sample :=
 if result.text = L.lastPartial then L
 else
  let L := { L with lastPartial := result.text }
  if env.cleanEventText result.text = [] then L
  else L.emit (partialEvent env.cleanEventText L.now result.text)

def endUtterance (result : RecognizerResult) : Listener Sample :=
 let L := L.emit (speechEndEvent L.now)
 let confidence := if env.cleanEventText result.text = [] then 0 else result.confidence
 let L := L.emit (finalEvent env.cleanEventText L.now result.text confidence)
 { L with consumed := L.received }.toBaseState

def finishUtterance : Listener Sample :=
 let L := L.act .finish
 L.endUtterance env (env.finish L.trace)

def endWithoutCommand : Listener Sample :=
 let L := if L.state = .afterWake then L.act .abandonUtterance else L
 let L := L.emit (finalEvent env.cleanEventText L.now [] 0)
 { L with consumed := L.received }.toBaseState

def hasWordsAfterWake (result : RecognizerResult) (whole : Bool) : Bool :=
 if result.wordSamples.any fun w => L.utteranceFrom + w ≥ L.wakeAt - kCommandCutSamples then true
 else if !whole then false
 else
  let phrase := env.wakePhraseWordsAtStart result.text L.config.wakePhrases
  let phrase := if phrase = 0 then env.wakeNameWordsAtStart result.text L.config.wakePhrases
   else phrase
  countWords result.text > (if phrase > 0 then phrase else L.wakeWords)

def beginFrom (fromSample : ℤ) : Listener Sample :=
 let fromSample := max (max fromSample L.consumed) (max (L.received - kRingSamples) 0)
 let L := { L with utteranceFrom := fromSample, lastPartial := [] }
 let L := L.act (.beginUtterance L.hotwords fromSample)
 L.act (.recognize (L.recallFrom fromSample))

/-- The spotter fired at sample `said`. -/
def onWake (said : ℤ) : Listener Sample :=
 let L := { L with wakeAt := said }
 let L := L.emit (wakeEvent (L.timeAt said))
 let fromSample := L.wakeAt - kWakePrerollSamples
 let fromSample := if L.vadInSpeech ∧ L.speechOnset ≥ 0 then
   max fromSample (L.speechOnset - kPrerollSamples)
  else fromSample
 { L.beginFrom fromSample with state := .afterWake }

def stopHearing : Listener Sample :=
 { L.act .abandonUtterance with lastPartial := [], heardOff := true, state := .waitWake }

/-- Where a wake phrase of `words` words ended: where the next word starts. -/
def phraseEnd (result : RecognizerResult) (words : ℕ) : ℤ :=
 let said := match result.wordSamples[words]? with
  | some w => L.utteranceFrom + w
  | none => L.received
 let lowest := max L.consumed L.utteranceFrom
 if said < lowest then lowest else if L.received < said then L.received else said

/-- A wake phrase the recognizer heard and the spotter didn't. -/
def onHeardWake (result : RecognizerResult) (words : ℕ) (whole : Bool) : Listener Sample :=
 let said := L.phraseEnd result words
 let L := { L with wakeAt := said, wakeWords := words }
 let L := L.emit (wakeEvent (L.timeAt said))
 if countWords result.text ≤ words then
  { L with consumed := L.received, lastPartial := [], state := .awaitCommand }
 else
  let L := L.emit (speechStartEvent (L.timeAt said))
  if whole then L.endUtterance env result
  else { L with state := .utterance }.emitPartial env result

/-- `hearing`: what the recognizer heard so far, or (`whole`) all of it. -/
def onHeard (result : RecognizerResult) (whole : Bool) : Listener Sample :=
 let words := env.wakePhraseWordsAtStart result.text L.config.wakePhrases
 let heard := countWords result.text
 if words > 0 ∧ (whole = true ∨ heard > words) then L.onHeardWake env result words whole
 else if whole then { L with consumed := L.received }.toBaseState
 else
  let longest := (L.config.wakePhrases.map countWords).foldl max 0
  if (words = 0 ∧ heard > longest + 1) ∨ L.received - L.utteranceFrom ≥ kHearingSamples then
   L.stopHearing
  else L

def respotSteps (L : Listener Sample) (reached : ℤ) : List (List Sample) → Listener Sample
 | [] => L
 | step :: rest =>
  let (fired, L) := L.spot env step
  if fired then L.onWake (reached + step.length)
  else respotSteps L (reached + step.length) rest

/-- The spotter on the last `kRespotSamples` of audio no utterance used. -/
def respotRecent : Listener Sample :=
 let fromSample := max L.consumed (max (L.received - kRespotSamples) 0)
 respotSteps env L fromSample (stepsOf (L.recallFrom fromSample))

/-! ## One step of audio -/

def stepWaitWake (samples : List Sample) (stepStart : ℤ) (vad : VadUpdate) : Listener Sample :=
 let (fired, L) := L.spot env samples
 if fired then L.onWake L.received
 else if !vad.inSpeech then { L with heardOff := false }
 else if !L.heardOff then
  { L.beginFrom (L.onset stepStart - kPrerollSamples) with state := .hearing }
 else L

def stepHearing (samples : List Sample) (vad : VadUpdate) : Listener Sample :=
 let (fired, L) := L.spot env samples
 if fired then
  let L := L.act .abandonUtterance
  L.onWake L.received
 else
  let L := L.act (.recognize samples)
  if vad.segmentEnded ∨ L.received - L.utteranceFrom ≥ kMaxUtteranceSamples then
   let L := L.act .finish
   L.onHeard env (env.finish L.trace) true
  else
   let L := L.act .partialResult
   L.onHeard env (env.partialResult L.trace) false

def startUtterance (stepStart : ℤ) : Listener Sample :=
 let L := L.emit (speechStartEvent L.now)
 { L.beginFrom (L.onset stepStart - kPrerollSamples) with state := .utterance }

def stepOpen (stepStart : ℤ) (vad : VadUpdate) : Listener Sample :=
 if vad.inSpeech then L.startUtterance stepStart else L

/-- The speech that held the wake phrase ended with no word after it recognized. -/
def wakeSpeechEnded : Listener Sample :=
 let L := L.act .finish
 let whole := env.finish L.trace
 let L := { L with consumed := L.received, lastPartial := [] }
 if L.hasWordsAfterWake env whole true then
  (L.emit (speechStartEvent L.now)).endUtterance env whole
 else { L with state := .awaitCommand }

def stepAfterWake (samples : List Sample) (vad : VadUpdate) : Listener Sample :=
 let L := L.act (.recognize samples)
 let L := L.act .partialResult
 let result := env.partialResult L.trace
 let L := if L.hasWordsAfterWake env result false then
   { L.emit (speechStartEvent L.now) with state := .utterance }.emitPartial env result
  else L
 if vad.segmentEnded then
  if L.state = .utterance then L.finishUtterance env else L.wakeSpeechEnded env
 else if L.state = .afterWake ∧ L.received - L.wakeAt ≥ kWakeWindowSamples then
  L.endWithoutCommand env
 else L

def stepAwaitCommand (stepStart : ℤ) (vad : VadUpdate) : Listener Sample :=
 if vad.inSpeech then L.startUtterance stepStart
 else if L.received - L.wakeAt ≥ kWakeWindowSamples then L.endWithoutCommand env
 else L

def stepUtterance (samples : List Sample) (vad : VadUpdate) : Listener Sample :=
 let L := L.act (.recognize samples)
 let L := L.act .partialResult
 let L := L.emitPartial env (env.partialResult L.trace)
 if vad.segmentEnded ∨ L.received - L.utteranceFrom ≥ kMaxUtteranceSamples then
  L.finishUtterance env
 else L

/-- What the detector makes of the samples, before the states. -/
def detect (samples : List Sample) : VadUpdate × Listener Sample :=
 let stepStart := L.received
 let L := L.remember samples
 let L := { L with received := L.received + samples.length }
 let L := L.act (.detect samples)
 let vad := env.detect L.trace
 let onset := if vad.inSpeech ∧ !L.vadInSpeech then stepStart
  else if !vad.inSpeech then -1
  else L.speechOnset
 (vad, { L with speechOnset := onset, vadInSpeech := vad.inSpeech })

def step (samples : List Sample) : Listener Sample :=
 let stepStart := L.received
 let (vad, L) := L.detect env samples
 match L.state with
 | .waitWake => L.stepWaitWake env samples stepStart vad
 | .hearing => L.stepHearing env samples vad
 | .isOpen => L.stepOpen stepStart vad
 | .afterWake => L.stepAfterWake env samples vad
 | .awaitCommand => L.stepAwaitCommand env stepStart vad
 | .utterance => L.stepUtterance env samples vad

/-! ## Calls -/

def feed (samples : List Sample) : Listener Sample :=
 run (fun L step => L.step env step) L (stepsOf samples)

def reset : Listener Sample :=
 let L := if L.state = .afterWake ∨ L.state = .utterance ∨ L.state = .hearing then
   L.act .abandonUtterance
  else L
 let L := { L with heardOff := false }.act .resetVad
 { L with
   vadInSpeech := false
   speechOnset := -1
   consumed := L.received
   epoch := L.epoch + 1 }.toBaseState

/-- The wake phrases of a CONFIG: the spotter is built again when they change. -/
def applyWakePhrases : Option (List Bytes) → ConfigResult × Listener Sample
 | none => (.ok, L)
 | some phrases =>
  match phrases.mapM env.wakeKeywordLines with
  | none => (.configError, L)
  | some lines =>
   let lines := lines.flatten
   if lines = L.keywordLines then (.ok, { L with config.wakePhrases := phrases })
   else
    let L := { L with keywordLines := [] }.act (.setKeywords lines)
    if env.setKeywords L.trace then
     (.ok, { L with keywordLines := lines, config.wakePhrases := phrases })
    else (.engineError, L)

def applyHotwords : Option (List Bytes) → Listener Sample
 | none => L
 | some hotwords =>
  { L with config.hotwords := hotwords, hotwords := env.hotwordsArgument hotwords }

def applyVadSilence : Option ℤ → Listener Sample
 | none => L
 | some ms =>
  let L := { L with
   config.vadSilenceMs := ms
   pendingVadMs := if ms = L.vadMs then 0 else ms }
  if L.state = .waitWake ∨ L.state = .isOpen then L.applyPendingVad else L

/-- What a new `wake_required` makes of the state. -/
def wakeRequiredSet : Listener Sample :=
 if L.state = .hearing ∧ !L.config.wakeRequired then
  { L.emit (speechStartEvent L.now) with state := .utterance }
 else if L.state = .waitWake ∧ !L.config.wakeRequired then { L with state := .isOpen }
 else if L.state = .isOpen ∧ L.config.wakeRequired then
  ({ L with state := .waitWake }.act .resetSpotter).respotRecent env
 else L

def applyWakeRequired : Option Bool → Listener Sample
 | none => L
 | some required => { L with config.wakeRequired := required }.wakeRequiredSet env

def applyConfig (update : ConfigUpdate) : ConfigResult × Listener Sample :=
 let (result, L) := L.applyWakePhrases env update.wakePhrases
 if result ≠ .ok then (result, L)
 else
  let L := L.applyHotwords env update.hotwords
  let L := L.applyVadSilence update.vadSilenceMs
  (.ok, L.applyWakeRequired env update.wakeRequired)

def start : ConfigResult × Listener Sample :=
 let L := { L with state := if L.config.wakeRequired then .waitWake else .isOpen }
 L.applyConfig env
  { wakePhrases := some L.config.wakePhrases, vadSilenceMs := some L.config.vadSilenceMs }

end Listener

inductive Call (Sample : Type) where
 | feed (samples : List Sample)
 | applyConfig (update : ConfigUpdate)
 | reset

def Listener.call {Sample : Type} (env : Environment Sample) (L : Listener Sample) :
  Call Sample → Listener Sample
 | .feed samples => L.feed env samples
 | .applyConfig update => (L.applyConfig env update).2
 | .reset => L.reset

def started {Sample : Type} (env : Environment Sample) (silence : Sample) : Listener Sample :=
 (Listener.start env { ring := ⟨fun _ => silence, 0⟩ }).2

def ran {Sample : Type} (env : Environment Sample) (silence : Sample) (calls : List (Call Sample)) :
  Listener Sample :=
 run (Listener.call env) (started env silence) calls

/-- The audio of a run's `Feed`s. -/
def Call.fed {Sample : Type} : Call Sample → List Sample
 | .feed samples => samples
 | _ => []

/-- The event an action wrote, with the `wake_required` in force. -/
def Action.written {Sample : Type} : Action Sample → Option (HelperEvent × Bool)
 | .emit event wakeRequired => some (event, wakeRequired)
 | _ => none

def Listener.written {Sample : Type} (L : Listener Sample) : List (HelperEvent × Bool) :=
 L.trace.filterMap Action.written

/-- A spotter that fires at once, and a recognizer that hears a word. -/
def wakingEnvironment : Environment ℤ where
 setKeywords _ := true
 spot _ _ := (true, 2)
 detect _ := { inSpeech := true, segmentEnded := true }
 partialResult _ := { text := [65], wordSamples := [0] }
 finish _ := { text := [65, 66], wordSamples := [0] }
 wakeKeywordLines phrase := some [phrase]
 hotwordsArgument _ := []
 wakePhraseWordsAtStart _ _ := 0
 wakeNameWordsAtStart _ _ := 0
 cleanEventText text := text

end MoltBrowser.SpeechListener
