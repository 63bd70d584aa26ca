import MoltBrowser.BrowserWords

set_option autoImplicit false

/-!
# The voice session (`voice_session_logic.cc`)

What the session keeps, and for each event the state after it and the actions it
asks for. Times are a monotonic clock's milliseconds; `-1` is never.
-/
namespace MoltBrowser.VoiceSession

open ConfirmationWords BrowserWords TransitionRuns

def kFollowUpWindowMs : ℤ := 8000
def kAnswerWindowMs : ℤ := 30000
def kWakeTimeoutMs : ℤ := 6000
def kWakeEarconDelayMs : ℤ := 700
def kEchoTailMs : ℤ := 700
def kFinalGraceMs : ℤ := 2000
def kMaxUtteranceMs : ℤ := 30000
def kSpokenMemoryMs : ℤ := 20000
def kMaxSpokenTexts : ℕ := 32
def kMinConfidenceWithoutWake : ℚ := 1 / 2
def kOtherSpeechTailMs : ℤ := 1000
def kGestureQuietMs : ℤ := 1200
def kMaxHeardLagMs : ℤ := 1000

/-! ## Commands (`voice_command.h`) -/

inductive VoiceCommandKind where
 | unknown | refused
 | openSite | search | findInPage | back | forward | reload | stopLoading | home | nextPage
 | newTab | closeTab | switchTab
 | scrollDown | scrollUp | scrollLeft | scrollRight | scrollToTop | scrollToBottom
 | zoomIn | zoomOut | zoomReset
 | play | pause | resume | volumeUp | volumeDown | setVolume | mute | unmute | skipForward
 | skipBack | restart | nextTrack | previousTrack | fullScreen | exitFullScreen | captionsOn
 | captionsOff | speedUp | slowDown | normalSpeed | skipAd
 | readPage | readFromHere | readHeadings | readLinks | readResults | readTitle | readSelection
 | describeScreen | nextHeading | previousHeading | nextLink | previousLink | nextItem
 | previousItem | nextParagraph | previousParagraph | readSection | askPage
 | choose | showNumbers | hideNumbers
 | type | newLine | deleteLastWord | clearField | readBack | submit
 | yes | no | cancel | stop | stopSpeaking | undo | repeatLast | help | whereAmI | speakFaster
 | speakSlower | verbosity | correction
 | rememberRoutine | forgetRoutine | runRoutine | listRoutines | forgetWord | forgetLearning
 | voiceModeOn | voiceModeOff
 | setSpeed | startOver | nextMatch | previousMatch
 | bookmarkPage | removeBookmark | listBookmarks | openBookmark
 | listHistory | reopenTab | openFromHistory | listDownloads | openDownload
 | openSettings | alwaysListening | protectedSetting
 | newWindow | closeWindow | switchWindow
 | askAI | openAIChat | showBrowserButtons | openMenu | closeMenu
 deriving DecidableEq

inductive ChoiceKind where
 | none | position | number | relative | description
 deriving DecidableEq

inductive ChoiceVerb where
 | default | open_ | play | click | select | read | describe
 deriving DecidableEq

structure VoiceCommand where
 kind : VoiceCommandKind
 choice : ChoiceKind
 verb : ChoiceVerb

structure ParseContext where
 expectingChoice : Bool := false
 language : Language

def actsOnTheBrowser (kind : VoiceCommandKind) : Bool :=
 kind ∈ [.bookmarkPage, .removeBookmark, .listBookmarks, .openBookmark, .listHistory, .reopenTab,
  .openFromHistory, .listDownloads, .openDownload, .openSettings, .alwaysListening,
  .protectedSetting, .newWindow, .closeWindow, .switchWindow, .askAI, .openAIChat,
  .showBrowserButtons, .openMenu, .closeMenu, .startOver]

/-- Whether a command stays with what the browser reads or does. -/
def staysWithWhatIsRead (command : VoiceCommand) : Bool :=
 if actsOnTheBrowser command.kind then false
 else if command.kind = .choose then command.choice ∈ [.position, .number, .relative]
 else command.kind ∉ [.unknown, .refused, .openSite, .search, .newTab, .closeTab, .type, .newLine,
  .deleteLastWord, .clearField, .submit, .yes, .no, .undo, .correction, .rememberRoutine,
  .forgetRoutine, .runRoutine, .forgetWord, .forgetLearning, .voiceModeOn]

/-- Code elsewhere: the sounds of words, and `voice_command.cc`'s grammar. -/
structure Environment where
 sounds : Sounds
 parseVoiceCommand : Bytes → ParseContext → VoiceCommand

def isAlwaysHeardCommand (env : Environment) (text : Bytes) (language : Language) : Bool :=
 (env.parseVoiceCommand text { language }).kind ∈ [.stop, .stopSpeaking, .cancel, .voiceModeOff]

def takenOverOwnVoice (env : Environment) (text : Bytes) (language : Language) : Bool :=
 let inList := env.parseVoiceCommand text { expectingChoice := true, language }
 if !staysWithWhatIsRead inList then false
 else
  let plain := env.parseVoiceCommand text { language }
  if plain.kind = .unknown ∧ inList.kind = .choose ∧ inList.choice = .number ∧
    inList.verb = .default then true
  else staysWithWhatIsRead plain

/-! ## The session -/

inductive SessionState where
 | off | starting | waiting | listening | thinking | speaking
 deriving DecidableEq, Repr

inductive BrowserActivity where
 | idle | thinking | speaking
 deriving DecidableEq, Repr

inductive EarconKind where
 | off | waiting | listening | thinking | speaking
 deriving DecidableEq, Repr

structure ListeningSettings where
 alwaysListening : Bool := false
 wakePhrases : List Bytes := []
 language : Language := .english
 deriving DecidableEq

structure Actions where
 utterance : Option Bytes := none
 dropped : Option Bytes := none
 droppedReason : Bytes := []
 heardCleanly : Bool := false
 saidOverVoice : Bool := false
 sayAgain : Bool := false
 partialText : Option Bytes := none
 stopSpeech : Bool := false
 resetHelper : Bool := false
 wakeRequired : Option Bool := none
 earcon : Option EarconKind := none
 duck : Option Bool := none
 state : Option SessionState := none
 deriving DecidableEq

structure Utterance where
 woke : Bool := false
 isOpen : Bool := false
 duringSpeech : Bool := false
 echoCancelled : Bool := false
 started : Bool := false
 startedMs : ℤ := 0
 begunMs : ℤ := 0
 lagged : Bool := false
 endedMs : ℤ := -1
 partialShown : Bool := false
 deriving DecidableEq

structure Logic where
 settings : ListeningSettings
 running : Bool := false
 ready : Bool := false
 activity : BrowserActivity := .idle
 speakingEndedMs : ℤ := -1
 followUpUntilMs : ℤ := 0
 awaitingAnswer : Bool := false
 pageAudible : Bool := false
 pageAudibleMs : ℤ := -1
 echoCancelled : Bool := true
 otherSpeaking : Bool := false
 ownSpeechInReference : Bool := false
 otherSpeechMs : ℤ := -1
 ownVoiceUnfiltered : Bool := false
 ownVoiceUnfilteredMs : ℤ := -1
 utterance : Option Utterance := none
 wakeUntilMs : ℤ := 0
 wakeEarconAtMs : ℤ := 0
 said : List (ℤ × Bytes) := []
 state : SessionState := .off
 wakeRequired : Bool := true
 ducked : Bool := false
 deriving DecidableEq

def heardAt (now : ℤ) : Option ℤ → ℤ
 | some lag => now - max 0 (min lag kMaxUtteranceMs)
 | none => now - kMaxHeardLagMs

def isLagged : Option ℤ → Bool
 | some lag => lag > kMaxHeardLagMs
 | none => true

namespace Logic

variable (s : Logic)

def listening : Bool := s.running && s.ready

def keepsFollowUpOpen : Bool := s.utterance.any fun u => u.isOpen && u.endedMs < 0

def followUpOpen (now : ℤ) : Bool :=
 if s.activity ≠ .idle ∨ s.followUpUntilMs = 0 then false
 else s.followUpUntilMs > now || s.keepsFollowUpOpen

def speakingOrTail (time : ℤ) : Bool :=
 s.activity = .speaking || (s.speakingEndedMs ≥ 0 && time - s.speakingEndedMs < kEchoTailMs)

def ownVoiceUnfilteredSince (since : ℤ) : Bool :=
 s.ownVoiceUnfiltered ||
  (s.ownVoiceUnfilteredMs ≥ 0 && s.ownVoiceUnfilteredMs + kOtherSpeechTailMs ≥ since)

def pageAudibleSince (since : ℤ) : Bool :=
 s.pageAudible || (s.pageAudibleMs ≥ 0 && s.pageAudibleMs + kOtherSpeechTailMs ≥ since)

def otherSpeechSince (since : ℤ) : Bool :=
 if s.otherSpeaking || (s.otherSpeechMs ≥ 0 && s.otherSpeechMs + kOtherSpeechTailMs ≥ since) then
  true
 else if s.ownVoiceUnfilteredSince since then true
 else !s.echoCancelled && s.pageAudibleSince since

def counts (u : Utterance) : Bool :=
 u.woke || (u.isOpen && (!u.duringSpeech || u.echoCancelled))

def heardCleanly (u : Utterance) (confidence : ℚ) : Bool :=
 if u.duringSpeech || s.activity = .speaking then false
 else if u.lagged then false
 else if s.speakingEndedMs ≥ 0 && u.begunMs - s.speakingEndedMs < kGestureQuietMs then false
 else if s.otherSpeechSince u.begunMs then false
 else !s.pageAudibleSince u.begunMs || confidence ≥ kMinConfidenceWithoutWake

def bargeInOpen : Bool := s.ownSpeechInReference && s.activity = .speaking

def saidLately (time noted : ℤ) : Bool :=
 s.activity = .speaking || time - max noted s.speakingEndedMs ≤ kSpokenMemoryMs

def echoOfBrowser (env : Environment) (text : Bytes) (time : ℤ) : Bool :=
 echoOf env.sounds (s.saidLately time) s.said text

def saidWakePhrase (env : Environment) (time : ℤ) : Bool :=
 saidPhrase env.sounds s.settings.wakePhrases (s.saidLately time) s.said time

def computeState (now : ℤ) : SessionState :=
 if !s.running then .off
 else if !s.ready then .starting
 else match s.activity with
  | .speaking => .speaking
  | .thinking => .thinking
  | .idle =>
   if s.wakeUntilMs > 0 || s.utterance.any counts then .listening
   else if s.settings.alwaysListening || s.followUpOpen now then .listening
   else .waiting

def wakeRequiredNow (now : ℤ) : Bool :=
 !(s.settings.alwaysListening || s.followUpOpen now || s.activity ≠ .idle)

def duckNow : Bool :=
 s.listening && (s.wakeUntilMs > 0 || s.utterance.any fun u => counts u && u.endedMs < 0)

/-- `Finish`: what changed, and the earcon of a return to waiting. -/
def finish (a : Actions) (now : ℤ) : Logic × Actions :=
 let state := s.computeState now
 let wakeRequired := s.wakeRequiredNow now
 let duck := s.duckNow
 let back := state = .waiting ∧ a.earcon = none ∧ s.state ∈ [.listening, .thinking, .speaking]
 ({ s with state, wakeRequired, ducked := duck },
  { a with
    earcon := if state ≠ s.state ∧ back then some .waiting else a.earcon
    state := if state ≠ s.state then some state else a.state
    wakeRequired := if wakeRequired ≠ s.wakeRequired then some wakeRequired else a.wakeRequired
    duck := if duck ≠ s.ducked then some duck else a.duck })

/-- `EndUtterance`. -/
def endUtterance (a : Actions) : Logic × Actions :=
 ({ s with utterance := none },
  if s.utterance.any (·.partialShown) then { a with partialText := some [] } else a)

def newUtterance (woke : Bool) (now : ℤ) (lag : Option ℤ) : Utterance :=
 { woke
   isOpen := !woke && (s.settings.alwaysListening || s.followUpOpen now || s.bargeInOpen)
   duringSpeech := s.speakingOrTail (heardAt now lag)
   echoCancelled := s.ownSpeechInReference
   startedMs := now
   begunMs := heardAt now lag
   lagged := isLagged lag }

def noWake : Logic := { s with wakeUntilMs := 0, wakeEarconAtMs := 0 }

def start (now : ℤ) : Logic × Actions :=
 let (s, a) := s.endUtterance {}
 { s.noWake with running := true, ready := false, followUpUntilMs := 0 }.finish a now

def stop (now : ℤ) : Logic × Actions :=
 if !s.running then (s, {})
 else
  let (s, a) := s.endUtterance {}
  { s.noWake with running := false, ready := false, followUpUntilMs := 0 }.finish
   { a with earcon := some .off } now

def onHelperReady (now : ℤ) : Logic × Actions :=
 if !s.running then (s, {})
 else
  let a : Actions :=
   if s.ready then {}
   else { earcon := some (if s.settings.alwaysListening then .listening else .waiting) }
  let (s, a) := { s with ready := true }.finish a now
  (s, { a with wakeRequired := some s.wakeRequired })

def onHelperLost (now : ℤ) : Logic × Actions :=
 let (s, a) := s.endUtterance {}
 { s.noWake with ready := false }.finish a now

def refusesWake (env : Environment) (time : ℤ) : Bool :=
 (s.speakingOrTail time && s.saidWakePhrase env time) || s.otherSpeechSince time

def onWake (env : Environment) (now : ℤ) (lag : Option ℤ) : Logic × Actions :=
 if !s.listening then (s, {})
 else if s.refusesWake env (heardAt now lag) then
  s.finish
   { resetHelper := true, saidOverVoice := s.ownVoiceUnfilteredSince (heardAt now lag) } now
 else
  let (s, a) := s.endUtterance {}
  let s := { s with
   utterance := some (s.newUtterance true now lag)
   wakeUntilMs := now + kWakeTimeoutMs
   wakeEarconAtMs := now + kWakeEarconDelayMs }
  s.finish { a with stopSpeech := s.activity = .speaking } now

def onSpeechStart (now : ℤ) (lag : Option ℤ) : Logic × Actions :=
 if !s.listening then (s, {})
 else match s.utterance with
  | some u =>
   if u.woke && !u.started then
    { s.noWake with
      utterance := some { u with
       started := true
       startedMs := now
       lagged := u.lagged || isLagged lag } }.finish {} now
   else
    let (s, a) := s.endUtterance {}
    { s with utterance := some { s.newUtterance false now lag with started := true } }.finish
     a now
  | none => { s with utterance := some { s.newUtterance false now lag with started := true } }.finish
    {} now

def onPartial (text : Bytes) (now : ℤ) (lag : Option ℤ) : Logic × Actions :=
 if !s.listening then (s, {})
 else
  let u := s.utterance.getD (s.newUtterance false now lag)
  let u := { u with lagged := u.lagged || isLagged lag }
  let started := u.started
  let u := if started then u else { u with started := true, startedMs := now }
  let s := if started then s else s.noWake
  let shown := counts u && text ≠ []
  { s with utterance := some { u with partialShown := u.partialShown || shown } }.finish
   { partialText := if shown then some text else none } now

/-- What `OnFinal` decides about a text. -/
structure Verdict where
 take : Bool := false
 saidOverVoice : Bool := false
 sayAgain : Bool := false
 stopSpeech : Bool := false
 reason : Bytes := []

def judge (env : Environment) (u : Utterance) (text : Bytes) (confidence : ℚ) : Verdict :=
 let sure : Bool := confidence ≥ kMinConfidenceWithoutWake
 if text = [] then {}
 else if isAlwaysHeardCommand env text s.settings.language then { take := true }
 else if s.otherSpeechSince u.begunMs then
  let own := s.ownVoiceUnfilteredSince u.begunMs
  { saidOverVoice := own
    reason := if own then "over voice mode's own voice" else "another source was speaking" }
 else if u.woke then { take := true }
 else if u.isOpen && !u.duringSpeech then
  if !s.pageAudible || sure then { take := true }
  else { reason := "a tab's sound, and not heard surely" }
 else if !u.isOpen then { reason := "no wake phrase" }
 else if !u.echoCancelled then
  { reason := "during voice mode's speech, with no echo canceller" }
 else if !(sure && !s.echoOfBrowser env text u.begunMs) then
  { reason := "voice mode's voice heard back, or not heard surely" }
 else if !takenOverOwnVoice env text s.settings.language then
  { sayAgain := true, stopSpeech := s.activity = .speaking }
 else { take := true, stopSpeech := s.activity = .speaking }

def finalUtterance (now : ℤ) (lag : Option ℤ) : Utterance :=
 let u := s.utterance.getD (s.newUtterance false now lag)
 { u with lagged := u.lagged || isLagged lag }

def taken (now : ℤ) : Logic :=
 { s with
   followUpUntilMs := 0
   speakingEndedMs := if s.activity = .speaking then now else s.speakingEndedMs
   activity := .thinking }

def onFinal (env : Environment) (text : Bytes) (confidence : ℚ) (now : ℤ) (lag : Option ℤ) :
  Logic × Actions :=
 if !s.listening then (s, {})
 else
  let u := s.finalUtterance now lag
  let (s, a) := s.endUtterance {}
  let s := s.noWake
  let verdict := s.judge env u text confidence
  let drop := !verdict.take && !verdict.sayAgain && verdict.reason ≠ []
  let a := { a with
   saidOverVoice := verdict.saidOverVoice
   sayAgain := verdict.sayAgain
   stopSpeech := verdict.stopSpeech
   dropped := if drop then some text else none
   droppedReason := if drop then verdict.reason else [] }
  if verdict.take then
   (s.taken now).finish
    { a with
      utterance := some text
      heardCleanly := s.heardCleanly u confidence
      earcon := some .thinking } now
  else s.finish a now

def onSpeechEnd (now : ℤ) (lag : Option ℤ) : Logic × Actions :=
 if !s.listening then (s, {})
 else
  let utterance := s.utterance.map fun u =>
   if u.endedMs < 0 then { u with endedMs := now, lagged := u.lagged || isLagged lag } else u
  { s with utterance }.finish {} now

def onBrowserActivity (activity : BrowserActivity) (now : ℤ) : Logic × Actions :=
 if activity = s.activity then s.finish {} now
 else
  let a : Actions :=
   if activity = .speaking && s.listening then { earcon := some .speaking } else {}
  let speakingEndedMs := if s.activity = .speaking then now else s.speakingEndedMs
  let followUpUntilMs :=
   if activity = .idle then now + if s.awaitingAnswer then kAnswerWindowMs else kFollowUpWindowMs
   else s.followUpUntilMs
  { s with activity, speakingEndedMs, followUpUntilMs }.finish a now

def dropStale (now : ℤ) : List (ℤ × Bytes) → List (ℤ × Bytes)
 | [] => []
 | first :: rest =>
  if (first :: rest).length > kMaxSpokenTexts || !s.saidLately now first.1 then
   dropStale now rest
  else first :: rest

def onBrowserSaid (env : Environment) (text : Bytes) (now : ℤ) : Logic × Actions :=
 { s with said := s.dropStale now (s.said ++ [(now, saidWords env.sounds text)]) }.finish {} now

def onAwaitingAnswer (awaiting : Bool) (now : ℤ) : Logic × Actions :=
 let followUpUntilMs :=
  if awaiting && s.activity = .idle && s.followUpUntilMs > now then
   max s.followUpUntilMs (now + kAnswerWindowMs)
  else s.followUpUntilMs
 { s with awaitingAnswer := awaiting, followUpUntilMs }.finish {} now

def onPageAudible (audible : Bool) (now : ℤ) : Logic × Actions :=
 { s with
   pageAudibleMs := if audible || s.pageAudible then now else s.pageAudibleMs
   pageAudible := audible }.finish {} now

def onOtherSpeech (speaking : Bool) (now : ℤ) : Logic × Actions :=
 { s with
   otherSpeechMs := if speaking || s.otherSpeaking then now else s.otherSpeechMs
   otherSpeaking := speaking }.finish {} now

def onEchoCancellation (cancelled : Bool) (now : ℤ) : Logic × Actions :=
 { s with echoCancelled := cancelled }.finish {} now

def onOwnSpeechInReference (inReference : Bool) (now : ℤ) : Logic × Actions :=
 { s with ownSpeechInReference := inReference }.finish {} now

def onOwnVoiceUnfiltered (playing : Bool) (now : ℤ) : Logic × Actions :=
 { s with
   ownVoiceUnfilteredMs :=
    if playing || s.ownVoiceUnfiltered then now else s.ownVoiceUnfilteredMs
   ownVoiceUnfiltered := playing }.finish {} now

def onSettingsChanged (settings : ListeningSettings) (now : ℤ) : Logic × Actions :=
 { s with settings }.finish {} now

/-! The deadlines that a timer may find passed, in the order of `OnTick`. -/

def tickEarcon (a : Actions) (now : ℤ) : Logic × Actions :=
 if s.wakeEarconAtMs > 0 && now ≥ s.wakeEarconAtMs then
  ({ s with wakeEarconAtMs := 0 },
   if s.utterance.any (fun u => u.woke && !u.started) && a.earcon = none then
    { a with earcon := some .listening }
   else a)
 else (s, a)

def tickWake (a : Actions) (now : ℤ) : Logic × Actions :=
 if s.wakeUntilMs > 0 && now ≥ s.wakeUntilMs then
  let s := { s with wakeUntilMs := 0 }
  if s.utterance.any fun u => u.woke && !u.started then
   let (s, a) := s.endUtterance a
   (s, { a with resetHelper := true })
  else (s, a)
 else (s, a)

def tickGrace (a : Actions) (now : ℤ) : Logic × Actions :=
 if s.utterance.any fun u => u.endedMs ≥ 0 && now - u.endedMs ≥ kFinalGraceMs then s.endUtterance a
 else (s, a)

def tickLongest (a : Actions) (now : ℤ) : Logic × Actions :=
 if s.utterance.any fun u => u.started && now - u.startedMs ≥ kMaxUtteranceMs then
  let (s, a) := s.endUtterance a
  (s, { a with resetHelper := true })
 else (s, a)

def tickFollowUp (now : ℤ) : Logic :=
 if s.followUpUntilMs > 0 && now ≥ s.followUpUntilMs && !s.keepsFollowUpOpen then
  { s with followUpUntilMs := 0 }
 else s

def onTick (now : ℤ) : Logic × Actions :=
 if !s.listening then s.finish {} now
 else
  let (s, a) := s.tickEarcon {} now
  let (s, a) := s.tickWake a now
  let (s, a) := s.tickGrace a now
  let (s, a) := s.tickLongest a now
  (s.tickFollowUp now).finish a now

end Logic

/-- The calls of the session, at the times of a monotonic clock. -/
inductive Event where
 | start (now : ℕ)
 | stop (now : ℕ)
 | helperReady (now : ℕ)
 | helperLost (now : ℕ)
 | wake (now : ℕ) (lag : Option ℤ)
 | speechStart (now : ℕ) (lag : Option ℤ)
 | partialText (text : Bytes) (now : ℕ) (lag : Option ℤ)
 | final (text : Bytes) (confidence : ℚ) (now : ℕ) (lag : Option ℤ)
 | speechEnd (now : ℕ) (lag : Option ℤ)
 | browserActivity (activity : BrowserActivity) (now : ℕ)
 | browserSaid (text : Bytes) (now : ℕ)
 | awaitingAnswer (awaiting : Bool) (now : ℕ)
 | pageAudible (audible : Bool) (now : ℕ)
 | otherSpeech (speaking : Bool) (now : ℕ)
 | echoCancellation (cancelled : Bool) (now : ℕ)
 | ownSpeechInReference (inReference : Bool) (now : ℕ)
 | ownVoiceUnfiltered (playing : Bool) (now : ℕ)
 | settingsChanged (settings : ListeningSettings) (now : ℕ)
 | tick (now : ℕ)

@[grind =] def Event.now : Event → ℕ
 | .start now | .stop now | .helperReady now | .helperLost now | .wake now _ | .speechStart now _
 | .partialText _ now _ | .final _ _ now _ | .speechEnd now _ | .browserActivity _ now
 | .browserSaid _ now | .awaitingAnswer _ now | .pageAudible _ now | .otherSpeech _ now
 | .echoCancellation _ now | .ownSpeechInReference _ now | .ownVoiceUnfiltered _ now
 | .settingsChanged _ now | .tick now => now

def Logic.on (env : Environment) (s : Logic) : Event → Logic × Actions
 | .start now => s.start now
 | .stop now => s.stop now
 | .helperReady now => s.onHelperReady now
 | .helperLost now => s.onHelperLost now
 | .wake now lag => s.onWake env now lag
 | .speechStart now lag => s.onSpeechStart now lag
 | .partialText text now lag => s.onPartial text now lag
 | .final text confidence now lag => s.onFinal env text confidence now lag
 | .speechEnd now lag => s.onSpeechEnd now lag
 | .browserActivity activity now => s.onBrowserActivity activity now
 | .browserSaid text now => s.onBrowserSaid env text now
 | .awaitingAnswer awaiting now => s.onAwaitingAnswer awaiting now
 | .pageAudible audible now => s.onPageAudible audible now
 | .otherSpeech speaking now => s.onOtherSpeech speaking now
 | .echoCancellation cancelled now => s.onEchoCancellation cancelled now
 | .ownSpeechInReference inReference now => s.onOwnSpeechInReference inReference now
 | .ownVoiceUnfiltered playing now => s.onOwnVoiceUnfiltered playing now
 | .settingsChanged settings now => s.onSettingsChanged settings now
 | .tick now => s.onTick now

def Logic.step (env : Environment) (s : Logic) (e : Event) : Logic := (s.on env e).1

def afterEvents (env : Environment) (settings : ListeningSettings) (es : List Event) : Logic :=
 run (Logic.step env) { settings } es

/-- Words sound alike only if they are equal, and every text opens a site. -/
def spelledEnvironment : Environment where
 sounds :=
  { foldForComparison := id
    saidAloudWords := fun text _ => text
    phoneticKey := id
    phoneticDistance := fun a b bound => if a = b then 0 else bound + 1 }
 parseVoiceCommand := fun _ _ => ⟨.openSite, .none, .default⟩

end MoltBrowser.VoiceSession
