import MoltBrowser.ConfirmationWords

set_option autoImplicit false

/-!
# The voice gesture (`GestureBook` in `voice_gesture.cc`)

The prompts that wait for their word and the gestures minted and not used. Times
are the caller's clock; `log` is every call made to the book and its answer.
-/
namespace MoltBrowser.GestureBook

open ConfirmationWords TransitionRuns

def kGesturePromptWindowMs : ℤ := 30000
def kGestureLifetimeMs : ℤ := 10000
def kRecentWordsAvoided : ℕ := 8
def kMaxWrongWords : ℕ := 2
def kWrongWordWindowMs : ℤ := 10 * 60 * 1000
def kLockoutMs : ℤ := 10 * 60 * 1000
def kMaxWaitingPrompts : ℕ := 8

inductive GestureAction where
 | allowPermission
 | keepDangerousDownload
 | confirmDraftSites
 deriving DecidableEq, Repr

structure GestureBinding where
 action : GestureAction
 subject : Bytes
 deriving DecidableEq, Repr

structure GesturePrompt where
 id : ℤ
 word : Bytes
 language : Language
 binding : GestureBinding
 expiresMs : ℤ
 retired : List Bytes
 deriving DecidableEq, Repr

structure HeardEvidence where
 fromMicrophone : Bool := false
 clean : Bool := false
 deriving DecidableEq, Repr

structure VoiceGesture where
 promptId : ℤ
 binding : GestureBinding
 mintedMs : ℤ
 serial : UInt64
 deriving DecidableEq, Repr

inductive HearResult where
 | minted
 | notClean
 | wrongWord
 | unsure
 | notAWord
 | noPrompt
 | lockedOut
 | retired
 deriving DecidableEq, Repr

structure Live where
 serial : UInt64
 binding : GestureBinding
 mintedMs : ℤ
 expiresMs : ℤ
 deriving DecidableEq, Repr

structure Book where
 prompts : List GesturePrompt := []
 recentWords : List Bytes := []
 wrongMs : List ℤ := []
 lockedUntilMs : ℤ := -1
 nextId : ℤ := 0
 nextSerial : UInt64 := 0
 live : List Live := []
 /-- How many numbers the random source gave. -/
 drawn : ℕ := 0
 deriving DecidableEq, Repr

structure Environment where
 phonetics : Phonetics
 random : ℕ → UInt64

/-- Numbers at or above `limit` are drawn again, 64 times at most. -/
def drawBelow (random : ℕ → UInt64) (limit : ℕ) : ℕ → ℕ → ℕ → ℕ × ℕ
 | 0, drawn, r => (r, drawn)
 | attempts + 1, drawn, _ =>
  let r := (random drawn).toNat
  if r < limit then (r, drawn + 1) else drawBelow random limit attempts (drawn + 1) r

namespace Book

def eligible (b : Book) (retired : List Bytes) (language : Language) : List Bytes :=
 (confirmationWords language).filter fun word => word ∉ b.recentWords ∧ word ∉ retired

def pickWord (env : Environment) (b : Book) (retired : List Bytes) (language : Language) :
  Bytes × ℕ :=
 let eligible := b.eligible retired language
 let n := eligible.length
 let limit := (2 ^ 64 - 1) - (2 ^ 64 - 1) % n
 let (r, drawn) := drawBelow env.random limit 64 b.drawn 0
 (eligible.getD (r % n) [], drawn)

def expire (b : Book) (now : ℤ) : Book :=
 { b with
   prompts := b.prompts.filter fun prompt => ¬ prompt.expiresMs ≤ now
   live := b.live.filter fun live => ¬ live.expiresMs < now
   wrongMs := b.wrongMs.filter fun heard => ¬ (heard + kWrongWordWindowMs ≤ now ∨ heard > now) }

def lockedOut (b : Book) (now : ℤ) : Bool := b.lockedUntilMs > now

/-- The words that the prompts of this binding had, the last `kRecentWordsAvoided`. -/
def retiredFor (b : Book) (binding : GestureBinding) : List Bytes :=
 let retired := b.prompts.foldl (fun retired waiting =>
  if waiting.binding = binding then waiting.retired ++ [waiting.word] else retired) []
 retired.drop (retired.length - kRecentWordsAvoided)

/-- `Begin`, once nothing that expired is kept and the gesture is not locked out. -/
def add (env : Environment) (b : Book) (binding : GestureBinding) (language : Language) (now : ℤ) :
  Book × GesturePrompt :=
 let retired := b.retiredFor binding
 let others := b.prompts.filter fun waiting => waiting.binding ≠ binding
 let others := if others.length ≥ kMaxWaitingPrompts then others.tail else others
 let (word, drawn) := b.pickWord env retired language
 let prompt :=
  { id := b.nextId + 1, word, language, binding, expiresMs := now + kGesturePromptWindowMs,
    retired }
 let recent := b.recentWords ++ [word]
 ({ b with
     prompts := others ++ [prompt]
     recentWords := if recent.length > kRecentWordsAvoided then recent.tail else recent
     nextId := b.nextId + 1
     drawn },
  prompt)

def begin (env : Environment) (b : Book) (binding : GestureBinding) (language : Language)
  (now : ℤ) : Book × Option GesturePrompt :=
 let b := b.expire now
 if b.lockedOut now then (b, none)
 else
  let (b, prompt) := b.add env binding language now
  (b, some prompt)

def cancel (b : Book) (id : ℤ) : Book :=
 { b with prompts := b.prompts.filter fun prompt => prompt.id ≠ id }

def close (b : Book) (id : ℤ) : Book :=
 { b with prompts := b.prompts.eraseP fun prompt => prompt.id = id }

/-- Another word of the list was heard, cleanly and for sure. -/
def miss (b : Book) (id now : ℤ) : Book :=
 let b := b.close id
 let wrong := b.wrongMs ++ [now]
 if wrong.length ≥ kMaxWrongWords then
  { b with lockedUntilMs := now + kLockoutMs, wrongMs := [], prompts := [] }
 else { b with wrongMs := wrong }

def mint (b : Book) (prompt : GesturePrompt) (now : ℤ) : Book × VoiceGesture :=
 let serial := b.nextSerial + 1
 ({ b.close prompt.id with
     nextSerial := serial
     live := b.live ++
      [{ serial, binding := prompt.binding, mintedMs := now,
         expiresMs := now + kGestureLifetimeMs }] },
  { promptId := prompt.id, binding := prompt.binding, mintedMs := now, serial })

def hear (env : Environment) (b : Book) (id : ℤ) (heard : Bytes) (evidence : HeardEvidence)
  (now : ℤ) : Book × HearResult × Option VoiceGesture :=
 let b := b.expire now
 match b.prompts.find? (·.id = id) with
 | none => (b, .noPrompt, none)
 | some prompt =>
  if b.lockedOut now then (b.close id, .lockedOut, none)
  else match hearConfirmationWord env.phonetics heard prompt.language with
   | .none => (b, .notAWord, none)
   | .unsure => (b, .unsure, none)
   | .word index =>
    let said := (confirmationWords prompt.language).getD index []
    if said ∈ prompt.retired then (b, .retired, none)
    else if !evidence.fromMicrophone || !evidence.clean then (b, .notClean, none)
    else if said ≠ prompt.word then (b.miss id now, .wrongWord, none)
    else
     let (b, gesture) := b.mint prompt now
     (b, .minted, some gesture)

/-- A gesture is used once, whatever the outcome, and checked against what it was minted for. -/
def consume (b : Book) (gesture : VoiceGesture) (binding : GestureBinding) (now : ℤ) :
  Book × Bool :=
 match b.live.find? (·.serial = gesture.serial) with
 | none => (b, false)
 | some live =>
  if gesture.serial = 0 then (b, false)
  else
   ({ b with live := b.live.eraseP (·.serial = gesture.serial) },
    live.binding = binding ∧ gesture.promptId ≠ 0 ∧ now ≥ live.mintedMs ∧ now ≤ live.expiresMs)

end Book

inductive Call where
 | begin (binding : GestureBinding) (language : Language) (now : ℤ)
 | hear (id : ℤ) (heard : Bytes) (evidence : HeardEvidence) (now : ℤ)
 | cancel (id : ℤ)
 | consume (gesture : VoiceGesture) (binding : GestureBinding) (now : ℤ)
 deriving DecidableEq

def Call.now? : Call → Option ℤ
 | .begin _ _ now => some now
 | .hear _ _ _ now => some now
 | .cancel _ => none
 | .consume _ _ now => some now

inductive Answer where
 | begun (prompt : Option GesturePrompt)
 | heard (result : HearResult) (gesture : Option VoiceGesture)
 | cancelled
 | consumed (used : Bool)
 deriving DecidableEq

structure Session where
 book : Book := {}
 log : List (Call × Answer) := []

def answer (env : Environment) (b : Book) : Call → Book × Answer
 | .begin binding language now =>
  let (b, prompt) := b.begin env binding language now
  (b, .begun prompt)
 | .hear id heard evidence now =>
  let (b, result, gesture) := b.hear env id heard evidence now
  (b, .heard result gesture)
 | .cancel id => (b.cancel id, .cancelled)
 | .consume gesture binding now =>
  let (b, used) := b.consume gesture binding now
  (b, .consumed used)

def Session.step (env : Environment) (s : Session) (call : Call) : Session :=
 let (book, answer) := answer env s.book call
 { book, log := s.log ++ [(call, answer)] }

def afterCalls (env : Environment) (calls : List Call) : Session := run (Session.step env) {} calls

end MoltBrowser.GestureBook
