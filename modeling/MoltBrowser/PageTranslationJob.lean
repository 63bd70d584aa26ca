import MoltBrowser.JsonValue
import MoltBrowser.TranslationPlan
import MoltBrowser.WebAISession

set_option autoImplicit false

/-!
# A page translation (`page_translation_job.cc`, `page_translate_io.cc`)

A started job and the answers it waits for. The backend and the page answer a
call later and once: a generation until it is done or cancelled, a script until
its result. `produced` and `acknowledged` are what happened only: the writes
the plan returned, and the slots the page said it wrote.
-/
namespace MoltBrowser.PageTranslationJob

open TranslationPieces TranslationPlan TransitionRuns
open WebAISession (GenerationStatus)

def kMaxSlots : ℕ := 3000
def kMaxSlotBytes : ℕ := 3 * 2000
def kMaxPageBytes : ℕ := 3 * 60000
def kMaxSlotKind : ℤ := 3
def kMaxReplyBytes : ℕ := 64 * 1024
def kMaxThrottledRetries : ℕ := 60
def kMaxFailedBatchesInARow : ℕ := 6

inductive JobEnd where
 | finished
 | stopped
 | timedOut
 | modelErrors
 | noModel
 | deviceUnsupported
 | modelFailed
 | pageUnreadable
 deriving DecidableEq, Repr

structure JobResult where
 jobEnd : JobEnd
 units : ℕ
 failedUnits : ℕ
 writtenSlots : ℕ
 truncated : Bool
 deriving DecidableEq, Repr

inductive Problem where
 | none
 | nothingToTranslate
 | noModel
 | deviceUnsupported
 | modelFailed
 | pageUnreadable
 | modelErrors
 | stopped
 | timedOut
 deriving DecidableEq, Repr

inductive TranslateError where
 | none
 | initialization
 | translation
 | timeout
 deriving DecidableEq, Repr

structure Report where
 error : TranslateError := .none
 problem : Problem := .none
 isPartial : Bool := false
 deriving DecidableEq, Repr

def reportEarlyEnd (result : JobResult) (problem : Problem) : Report :=
 if result.writtenSlots > 0 then { problem, isPartial := true }
 else { problem, error := if result.jobEnd = .timedOut then .timeout else .translation }

def reportForJob (result : JobResult) : Report :=
 match result.jobEnd with
 | .finished =>
  if result.units = 0 then { problem := .nothingToTranslate, isPartial := result.truncated }
  else if result.writtenSlots = 0 && result.failedUnits = result.units then
   { error := .translation, problem := .modelErrors }
  else { isPartial := result.truncated || result.failedUnits > 0 }
 | .noModel => { error := .initialization, problem := .noModel }
 | .deviceUnsupported => { error := .initialization, problem := .deviceUnsupported }
 | .modelFailed => { error := .initialization, problem := .modelFailed }
 | .stopped => reportEarlyEnd result .stopped
 | .timedOut => reportEarlyEnd result .timedOut
 | .modelErrors => reportEarlyEnd result .modelErrors
 | .pageUnreadable => reportEarlyEnd result .pageUnreadable

/-- Code elsewhere: `ToDisplayText` and the JSON reader. -/
structure Environment where
 toDisplayText : Bytes → Bytes
 readJson : Bytes → Option Value

/-- The result is a dictionary of this version and request, and no error. -/
def resultFor (result : Value) (requestId : Bytes) : Option Dict :=
 match result.dict? with
 | none => none
 | some dict =>
  if dict.findInt "v" ≠ some 1 || (dict.findBool "error").getD false then none
  else if dict.findString "id" = some requestId then some dict else none

def parseSlot (env : Environment) (entry : Value) : Option PageSlot :=
 match entry.list? with
 | some [kind, inViewport, text] =>
  match kind.int?, inViewport.bool?, text.string? with
  | some kind, some inViewport, some raw =>
   if kind.toInt < 0 || kind.toInt > kMaxSlotKind || raw.length > kMaxSlotBytes then none
   else
    let text := env.toDisplayText raw
    if text.length > kMaxSlotBytes then none else some { inViewport, text }
  | _, _, _ => none
 | _ => none

def parseSlots (env : Environment) : ℕ → List Value → Option (List PageSlot)
 | _, [] => some []
 | total, entry :: rest =>
  match parseSlot env entry with
  | none => none
  | some slot =>
   let total := total + slot.text.length
   if total > kMaxPageBytes then none else (parseSlots env total rest).map (slot :: ·)

def parseExtraction (env : Environment) (result : Value) (requestId : Bytes) : Option PageText :=
 match resultFor result requestId with
 | none => none
 | some dict =>
  match dict.findList "slots" with
  | none => none
  | some slots =>
   if slots.length > kMaxSlots then none
   else (parseSlots env 0 slots).map fun slots =>
    { slots, truncated := (dict.findBool "truncated").getD false }

def parseApplyResult (result : Value) (requestId : Bytes) (max : ℕ) : Option ℕ :=
 match (resultFor result requestId).bind (·.findInt "applied") with
 | none => none
 | some applied =>
  if applied.toInt < 0 || applied.toInt.toNat > max then none else some applied.toInt.toNat

def readBatchReply (env : Environment) (reply : Bytes) (count : ℕ) : Option (List Bytes) :=
 match (env.readJson reply).bind Value.dict? with
 | none => none
 | some dict =>
  if dict.length ≠ 1 then none
  else match dict.findList "translations" with
   | none => none
   | some list =>
    if list.length ≠ count then none
    else list.mapM fun item => item.string?.map env.toDisplayText

/-- What the job asks of the backend and the page, and its result. -/
inductive Action where
 | getDeviceFacts
 | runExtract
 | prepareModel
 | generate (id : ℕ) (texts : List Bytes)
 | cancel (id : ℕ)
 | runApply (writes : List SlotWrite)
 | progress (settled total : ℕ)
 | report (result : JobResult)
 deriving DecidableEq

structure Outstanding where
 facts : Bool := false
 extract : Bool := false
 model : Bool := false
 generations : List ℕ := []
 applies : List ℕ := []
 nextGeneration : ℕ := 1
 deriving DecidableEq

structure Job where
 requestId : Bytes
 plan : Option Plan := none
 truncated : Bool := false
 batch : Option Batch := none
 reply : Bytes := []
 replyOverflowed : Bool := false
 generation : ℕ := 0
 writing : Bool := false
 writingAsked : ℕ := 0
 pendingEnd : Option JobEnd := none
 failedInARow : ℕ := 0
 throttled : ℕ := 0
 writtenSlots : ℕ := 0
 finished : Bool := false
 deadlineRunning : Bool := false
 retryRunning : Bool := false
 posted : Option JobResult := none
 destroyed : Bool := false
 outstanding : Outstanding := {}
 actions : List Action := []
 produced : List SlotWrite := []
 acknowledged : ℕ := 0

/-- `alive` is what the page answers to `IsAlive` in that event. `reportTask` is the posted
`ReportDone`. -/
inductive Event where
 | deviceFacts (inferenceSupported modelInstalled : Bool)
 | extracted (result : Value)
 | modelPrepared (ok alive : Bool)
 | chunk (generation : ℕ) (text : Bytes)
 | generationDone (generation : ℕ) (status : GenerationStatus) (alive : Bool)
 | written (result : Value) (alive : Bool)
 | retry (alive : Bool)
 | stop
 | deadline
 | reportTask
 | destroyed

namespace Job

def act (s : Job) (a : Action) : Job := { s with actions := s.actions ++ [a] }

def start (requestId : Bytes) : Job :=
 { requestId, deadlineRunning := true, outstanding := { facts := true },
   actions := [.getDeviceFacts] }

def cancelGeneration (s : Job) : Job :=
 if s.generation ≠ 0 then
  { s.act (.cancel s.generation) with
    generation := 0
    outstanding := { s.outstanding with
     generations := s.outstanding.generations.erase s.generation } }
 else s

def resultNow (s : Job) (jobEnd : JobEnd) : JobResult :=
 { jobEnd
   units := (s.plan.map (·.units.length)).getD 0
   failedUnits := (s.plan.map (·.failed)).getD 0
   writtenSlots := s.writtenSlots
   truncated := s.truncated }

def finish (s : Job) (jobEnd : JobEnd) : Job :=
 if s.finished then s
 else
  let s := { s with finished := true, deadlineRunning := false, retryRunning := false }
  let s := s.cancelGeneration
  { s with posted := some (s.resultNow jobEnd) }

def requestEnd (s : Job) (jobEnd : JobEnd) : Job :=
 if s.finished || s.pendingEnd.isSome then s
 else
  let s := { s with pendingEnd := some jobEnd }
  if s.writing then s else s.cancelGeneration.finish jobEnd

def progress (s : Job) : Job :=
 match s.plan with
 | some plan => s.act (.progress plan.settled plan.units.length)
 | none => s

def generate (s : Job) (batch : Batch) : Job :=
 { s.act (.generate s.outstanding.nextGeneration batch.texts) with
   reply := []
   replyOverflowed := false
   generation := s.outstanding.nextGeneration
   outstanding := { s.outstanding with
    generations := s.outstanding.generations ++ [s.outstanding.nextGeneration]
    nextGeneration := s.outstanding.nextGeneration + 1 } }

def sendBatch (s : Job) (alive : Bool) : Job :=
 match s.pendingEnd with
 | some jobEnd => s.finish jobEnd
 | none =>
  match s.batch with
  | none => s.finish .finished
  | some batch => if !alive then s.finish .pageUnreadable else s.generate batch

def onDeviceFacts (s : Job) (inferenceSupported modelInstalled : Bool) : Job :=
 if !inferenceSupported then s.finish .deviceUnsupported
 else if !modelInstalled then s.finish .noModel
 else { s.act .runExtract with outstanding := { s.outstanding with extract := true } }

def onExtracted (env : Environment) (s : Job) (result : Value) : Job :=
 match parseExtraction env result s.requestId with
 | none => s.finish .pageUnreadable
 | some page =>
  let plan := TranslationPlan.make page
  let s := { s with truncated := page.truncated, plan := some plan }
  if plan.finished then s.finish .finished
  else
   let s := s.progress
   { s.act .prepareModel with outstanding := { s.outstanding with model := true } }

/-- `batch_ = plan_->NextBatch()`. -/
def takeBatch (s : Job) : Job :=
 match s.plan.bind Plan.nextBatch with
 | some (batch, plan) => { s with batch := some batch, plan := some plan }
 | none => { s with batch := none }

def onModelPrepared (s : Job) (ok alive : Bool) : Job :=
 if !ok then s.finish .modelFailed else s.takeBatch.sendBatch alive

def onChunk (s : Job) (text : Bytes) : Job :=
 if s.replyOverflowed || s.reply.length + text.length > kMaxReplyBytes then
  { s with replyOverflowed := true }
 else { s with reply := s.reply ++ text }

def write (s : Job) (writes : List SlotWrite) : Job :=
 { s.act (.runApply (writes.filter (·.slot < kMaxSlots))) with
   writing := true
   writingAsked := writes.length
   outstanding := { s.outstanding with applies := s.outstanding.applies ++ [writes.length] } }

/-- What the plan makes of the reply, and whether the whole batch failed. -/
def answerBatch (env : Environment) (s : Job) (status : GenerationStatus) (plan : Plan)
  (batch : Batch) : (Plan × List SlotWrite) × Bool :=
 let translations :=
  if status = .ok && !s.replyOverflowed then readBatchReply env s.reply batch.texts.length
  else none
 match translations with
 | some translations => (plan.acceptReply batch translations, false)
 | none => (plan.rejectBatch batch, true)

/-- The batch was answered: its writes go out, or the next batch. -/
def afterBatch (s : Job) (writes : List SlotWrite) (alive : Bool) : Job :=
 let s := { s with reply := [], produced := s.produced ++ writes }
 if s.failedInARow ≥ kMaxFailedBatchesInARow then s.finish .modelErrors
 else
  let s := s.takeBatch.progress
  if writes.isEmpty then s.sendBatch alive else s.write writes

def onBatchReply (env : Environment) (s : Job) (status : GenerationStatus) (alive : Bool) : Job :=
 match s.plan, s.batch with
 | some plan, some batch =>
  let ((plan, writes), failed) := s.answerBatch env status plan batch
  let s := { s with
   plan := some plan
   failedInARow := if failed then s.failedInARow + 1 else 0
   throttled := if failed then s.throttled else 0 }
  s.afterBatch writes alive
 | _, _ => s

def onGenerationDone (env : Environment) (s : Job) (status : GenerationStatus) (alive : Bool) :
  Job :=
 let s := { s with generation := 0 }
 match s.pendingEnd with
 | some jobEnd => s.finish jobEnd
 | none =>
  match status with
  | .ok | .invalidOutput | .outputTruncated => s.onBatchReply env status alive
  | .throttled =>
   let s := { s with throttled := s.throttled + 1 }
   if s.throttled > kMaxThrottledRetries then s.finish .modelErrors
   else { s with retryRunning := true }
  | .cancelled => s.finish .timedOut
  | .failed | .constraintUnsupported => s.finish .modelErrors

def onWritten (s : Job) (asked : ℕ) (result : Value) (alive : Bool) : Job :=
 let s := { s with writing := false, writingAsked := 0 }
 match parseApplyResult result s.requestId asked with
 | none => s.finish (s.pendingEnd.getD .pageUnreadable)
 | some written => { s with writtenSlots := s.writtenSlots + written }.sendBatch alive

def onDeadline (s : Job) : Job :=
 if s.finished then s
 else if !s.writing then s.requestEnd .timedOut
 else
  -- The write may still land: its slots count as written.
  { s with
    writing := false
    writtenSlots := s.writtenSlots + s.writingAsked
    writingAsked := 0 }.finish (s.pendingEnd.getD .timedOut)

/-- A script's result or another answer reaches a finished job no more; the page may still
have written. -/
def step (env : Environment) (s : Job) (e : Event) : Job :=
 if s.destroyed then s
 else match e with
  | .deviceFacts inferenceSupported modelInstalled =>
   if !s.outstanding.facts then s
   else
    let s := { s with outstanding := { s.outstanding with facts := false } }
    if s.finished then s else s.onDeviceFacts inferenceSupported modelInstalled
  | .extracted result =>
   if !s.outstanding.extract then s
   else
    let s := { s with outstanding := { s.outstanding with extract := false } }
    if s.finished then s else s.onExtracted env result
  | .modelPrepared ok alive =>
   if !s.outstanding.model then s
   else
    let s := { s with outstanding := { s.outstanding with model := false } }
    if s.finished then s else s.onModelPrepared ok alive
  | .chunk generation text =>
   if generation ∉ s.outstanding.generations || s.finished then s else s.onChunk text
  | .generationDone generation status alive =>
   if generation ∉ s.outstanding.generations then s
   else
    let s := { s with outstanding := { s.outstanding with
     generations := s.outstanding.generations.erase generation } }
    if s.finished then s else s.onGenerationDone env status alive
  | .written result alive =>
   match s.outstanding.applies with
   | [] => s
   | asked :: rest =>
    let s := { s with
     outstanding := { s.outstanding with applies := rest }
     acknowledged := s.acknowledged + (parseApplyResult result s.requestId asked).getD 0 }
    if s.finished then s else s.onWritten asked result alive
  | .retry alive =>
   if !s.retryRunning then s else { s with retryRunning := false }.sendBatch alive
  | .stop => s.requestEnd .stopped
  | .deadline => if !s.deadlineRunning then s else { s with deadlineRunning := false }.onDeadline
  | .reportTask =>
   match s.posted with
   | some result => { s.act (.report result) with posted := none }
   | none => s
  | .destroyed => { s.cancelGeneration with destroyed := true, posted := none }

def afterEvents (env : Environment) (requestId : Bytes) (es : List Event) : Job :=
 run (step env) (start requestId) es

end Job

end MoltBrowser.PageTranslationJob
