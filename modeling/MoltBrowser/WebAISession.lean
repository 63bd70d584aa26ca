import MoltBrowser.WebAIConversation
import MoltBrowser.TransitionRuns

set_option autoImplicit false

/-!
# A language-model session of a page (`web_ai_sessions.cc`)

One transition for each callback the session can get, in any order. A page call
is known by its number (`call`): its responder pipe, to which the session sends.
A generation is known by the request it serves; the backend and the worker that
prepares images answer later, never inside the call that asks them.
-/
namespace MoltBrowser.WebAISession

open WebAIConversation TransitionRuns

def kMaxQueuedPerSession : ℕ := 32
def kMaxResponseConstraintBytes : ℕ := 32 * 1024
def kMaxImageSourcePixels : ℤ := 2 ^ 26

inductive GenerationStatus where
 | ok
 | cancelled
 | throttled
 | failed
 | constraintUnsupported
 | invalidOutput
 | outputTruncated
 deriving DecidableEq, Repr

inductive ResponseStatus where
 | errorCancelled
 | errorInvalidRequest
 | errorResponseParsingFailed
 | errorResponseExceedsMaxTokens
 | errorGenericFailure
 | errorSessionDestroyed
 | errorInputTooLarge
 deriving DecidableEq, Repr

def statusFor : GenerationStatus → ResponseStatus
 | .cancelled => .errorCancelled
 | .constraintUnsupported => .errorInvalidRequest
 | .invalidOutput => .errorResponseParsingFailed
 | .outputTruncated => .errorResponseExceedsMaxTokens
 | .ok | .throttled | .failed => .errorGenericFailure

inductive PromptRole where
 | system
 | user
 | assistant
 deriving DecidableEq, Repr

structure Bitmap where
 width : ℤ
 height : ℤ
 drawsNothing : Bool
 deriving DecidableEq, Repr

def isUsableImageSource (width height : ℤ) : Bool :=
 0 < width && 0 < height && width ≤ kMaxImageSourcePixels && height ≤ kMaxImageSourcePixels &&
  width * height ≤ kMaxImageSourcePixels

def isUsableBitmapForModel (b : Bitmap) : Bool :=
 isUsableImageSource b.width b.height && !b.drawsNothing

/-- `other`: a tool call, a tool result, or nothing. -/
inductive Content (Audio : Type) where
 | text (text : Bytes)
 | bitmap (bitmap : Bitmap)
 | audio (data : Audio)
 | other

structure Prompt (Audio : Type) where
 role : PromptRole
 isPrefix : Bool := false
 content : List (Content Audio)

inductive Constraint where
 | jsonSchema (schema : Bytes)
 | regex (source : Bytes)
 deriving DecidableEq

/-- What the session asks of code elsewhere: `ToDisplayText`, `ToModelAudio`, `IsCompleteJson`. -/
structure Environment (Audio : Type) where
 toDisplayText : Bytes → Bytes
 toModelAudio : Audio → Option ModelAudio
 isCompleteJson : Bytes → Bool

structure Config where
 maxReplyTokens : UInt32 := 512
 systemPrompt : Bytes := []
 imageInput : Bool := false
 audioInput : Bool := false
 deriving DecidableEq

structure Request where
 call : ℕ
 id : ℕ := 0
 turns : List Turn := []
 appendOnly : Bool
 plan : Plan := {}
 jsonSchema : Bytes := []
 constrained : Bool := false
 imageTurns : List ℕ := []
 imagesPending : Bool := false
 heldImages : ℕ := 0
 deriving DecidableEq

structure GenerationJob where
 systemPrompt : Bytes
 contextPreamble : Bytes
 context : Bytes
 shape : Conversation.Shape
 maxOutputTokens : UInt32
 jsonSchema : Bytes
 deriving DecidableEq

inductive Answer where
 | completion (usage : UInt32)
 | error (status : ResponseStatus) (quota : Option (UInt32 × UInt32))
 deriving DecidableEq

/-- What the session sends: to the responder of a call, or to the backend. -/
inductive Message where
 | streaming (call : ℕ) (text : Bytes)
 | contextOverflow (call : ℕ)
 | answer (call : ℕ) (answer : Answer)
 | generate (requestId : ℕ) (job : GenerationJob)
 | cancel (requestId : ℕ)
 | prepareImages (requestId : ℕ) (bitmaps : List Bitmap)
 | releaseImages (count : ℕ)
 deriving DecidableEq

structure Call (Audio : Type) where
 prompts : List (Prompt Audio)
 appendOnly : Bool
 constraint : Option Constraint

/-- A request that completed, with the turns and the reply it put into the context. -/
structure Completed where
 call : ℕ
 turns : List Turn
 appendOnly : Bool
 reply : Bytes
 deriving DecidableEq

/-- `sent` is everything sent so far. `calls` and `completed` are history only: the calls
that arrived, and the requests that changed the conversation, both oldest first. -/
structure Session (Audio : Type) where
 config : Config := {}
 conversation : Conversation
 queue : List Request := []
 running : Option Request := none
 jobId : ℕ := 0
 nextRequestId : ℕ := 1
 reply : Bytes := []
 unsent : Bytes := []
 closed : Bool := false
 deleted : Bool := false
 heldImages : ℕ := 0
 mayServe : Bool := true
 sent : List Message := []
 calls : List (Call Audio) := []
 completed : List Completed := []

/-- `granted` is the backend's answer to `TryHoldImages`, `due` whether the stream
interval has passed, `deleted` the manager dropping the session (its destructor). -/
inductive Event (Audio : Type) where
 | prompt (prompts : List (Prompt Audio)) (constraint : Option Constraint) (granted : Bool)
 | append (prompts : List (Prompt Audio)) (granted : Bool)
 | responderDisconnected (requestId : ℕ)
 | imagesReady (requestId : ℕ) (images : Option (List ModelImage))
 | chunk (requestId : ℕ) (text : Bytes) (due : Bool)
 | done (requestId : ℕ) (status : GenerationStatus)
 | permission (mayServe : Bool)
 | close
 | deleted

variable {Audio : Type}

namespace Session

def send (s : Session Audio) (m : Message) : Session Audio := { s with sent := s.sent ++ [m] }

def onError (s : Session Audio) (call : ℕ) (status : ResponseStatus)
  (quota : Option (UInt32 × UInt32)) : Session Audio :=
 s.send (.answer call (.error status quota))

def contextImages (s : Session Audio) : ℕ :=
 s.conversation.imageCount + s.conversation.audioCount

def syncHeldImages (s : Session Audio) : Session Audio :=
 let wanted := s.contextImages + (s.running.elim 0 (·.heldImages)) +
  (s.queue.map (·.heldImages)).sum
 if s.heldImages > wanted then
  { s.send (.releaseImages (s.heldImages - wanted)) with heldImages := wanted }
 else s

def startJob (s : Session Audio) (r : Request) (job : GenerationJob) : Session Audio :=
 { s.send (.generate r.id job) with running := some r, jobId := r.id, reply := [], unsent := [] }

def kPageInstructionsPreamble : Bytes :=
 utf8 "\n\nThe web page set these instructions for the conversation:\n"

/-- The request at the head starts: the generation to run, unless it was answered. -/
def begin (s : Session Audio) (r : Request) : Session Audio × Option (Request × GenerationJob) :=
 let plan := s.conversation.planAdd r.turns
 if !plan.fits then
  (s.onError r.call .errorInputTooLarge (some (plan.requested, s.conversation.inputQuota)), none)
 else if r.appendOnly then
  let conversation := s.conversation.add plan r.turns
  let s := { s with
   conversation
   completed := s.completed ++ [Completed.mk r.call r.turns true []] }
  let s := if plan.evict > 0 then s.send (.contextOverflow r.call) else s
  (s.send (.answer r.call (.completion conversation.inputUsage)), none)
 else
  let hasSystemPrompt := !s.conversation.systemPrompt.isEmpty
  (s, some ({ r with plan, jsonSchema := [] },
   { systemPrompt := s.config.systemPrompt
     contextPreamble := if hasSystemPrompt then kPageInstructionsPreamble else []
     context := if hasSystemPrompt then s.conversation.systemPrompt else []
     shape := s.conversation.shapeAfter plan r.turns
     maxOutputTokens := s.config.maxReplyTokens
     jsonSchema := r.jsonSchema }))

/-- The loop of `MaybeStartNext` over the waiting requests. -/
def startRequests (s : Session Audio) : List Request → Session Audio
 | [] => { s with queue := [] }
 | r :: rest =>
  if s.closed || s.running.isSome || r.imagesPending then { s with queue := r :: rest }
  else if !s.mayServe then
   startRequests (s.onError r.call .errorGenericFailure none) rest
  else match s.begin r with
   | (s, none) => startRequests s rest
   | (s, some (r, job)) => { s.startJob r job with queue := rest }

def maybeStartNext (s : Session Audio) : Session Audio :=
 let s := s.startRequests s.queue
 if s.closed then s else s.syncHeldImages

def enqueue (s : Session Audio) (r : Request) (bitmaps : List Bitmap) (granted : Bool) :
  Session Audio :=
 if s.closed then s
 else if !s.mayServe then s.onError r.call .errorGenericFailure none
 else if s.queue.length ≥ kMaxQueuedPerSession then s.onError r.call .errorGenericFailure none
 else if bitmaps.length ≠ r.imageTurns.length then s.onError r.call .errorInvalidRequest none
 else
  let held := bitmaps.length + (r.turns.map (·.audio.length)).sum
  if held > 0 && !granted then s.onError r.call .errorGenericFailure none
  else
   let r := { r with
    id := s.nextRequestId
    imagesPending := !bitmaps.isEmpty
    heldImages := held }
   let s := { s with
    nextRequestId := s.nextRequestId + 1
    heldImages := s.heldImages + held
    queue := s.queue ++ [r] }
   let s := if bitmaps.isEmpty then s else s.send (.prepareImages r.id bitmaps)
   s.maybeStartNext

end Session

structure PromptParts (Audio : Type) where
 text : Bytes := []
 bitmaps : List Bitmap := []
 audio : List Audio := []

def splitContent (user imagesAllowed audioAllowed : Bool) :
  PromptParts Audio → List (Content Audio) → Option (PromptParts Audio)
 | parts, [] => some parts
 | parts, .bitmap b :: rest =>
  if !imagesAllowed || !user then none
  else splitContent user imagesAllowed audioAllowed
   { parts with bitmaps := parts.bitmaps ++ [b] } rest
 | parts, .audio a :: rest =>
  if !audioAllowed || !user then none
  else splitContent user imagesAllowed audioAllowed { parts with audio := parts.audio ++ [a] } rest
 | parts, .text t :: rest =>
  let text := if parts.text.isEmpty then t else parts.text ++ utf8 "\n" ++ t
  splitContent user imagesAllowed audioAllowed { parts with text } rest
 | _, .other :: _ => none

def splitPrompt (p : Prompt Audio) (imagesAllowed audioAllowed : Bool) :
  Option (PromptParts Audio) :=
 if p.isPrefix then none
 else splitContent (p.role = .user) imagesAllowed audioAllowed {} p.content

def promptBytes (prompts : List (Prompt Audio)) : ℕ :=
 (prompts.map fun p => (p.content.map fun
  | .text t => t.length
  | _ => 0).sum).sum

/-- What `Queue` has gathered from the prompts so far. -/
structure Gathered where
 turns : List Turn := []
 imageTurns : List ℕ := []
 bitmaps : List Bitmap := []
 clips : ℕ := 0
 deriving DecidableEq

def gatherBitmaps : Gathered → List Bitmap → Option Gathered
 | g, [] => some g
 | g, b :: rest =>
  if g.bitmaps.length ≥ kMaxContextImages || !isUsableBitmapForModel b then none
  else gatherBitmaps { g with
   imageTurns := g.imageTurns ++ [g.turns.length]
   bitmaps := g.bitmaps ++ [b] } rest

def gatherAudio (env : Environment Audio) : ℕ → List Audio → Option (ℕ × List ModelAudio)
 | clips, [] => some (clips, [])
 | clips, a :: rest =>
  if clips < kMaxContextAudio then
   match env.toModelAudio a with
   | some clip => (gatherAudio env (clips + 1) rest).map fun (n, audio) => (n, clip :: audio)
   | none => none
  else none

def gatherPrompt (env : Environment Audio) (config : Config) (g : Gathered) (p : Prompt Audio) :
  Option Gathered :=
 match splitPrompt p config.imageInput config.audioInput with
 | none => none
 | some parts =>
  if p.role = .system then none
  else match gatherBitmaps g parts.bitmaps with
   | none => none
   | some g => match gatherAudio env g.clips parts.audio with
    | none => none
    | some (clips, audio) =>
     let role := if p.role = .assistant then Role.assistant else Role.user
     let turn := makeTurn role (env.toDisplayText parts.text) parts.bitmaps.length audio
     some { g with clips, turns := g.turns ++ [turn] }

def gatherPrompts (env : Environment Audio) (config : Config) :
  Gathered → List (Prompt Audio) → Option Gathered
 | g, [] => some g
 | g, p :: rest => (gatherPrompt env config g p).bind (gatherPrompts env config · rest)

namespace Session

/-- `LanguageModelSession::Queue` for the call numbered `call`. -/
def queueCall (env : Environment Audio) (s : Session Audio) (call : ℕ)
  (prompts : List (Prompt Audio)) (appendOnly : Bool) (jsonSchema : Bytes) (granted : Bool) :
  Session Audio :=
 let quota := s.conversation.inputQuota
 let bytes := promptBytes prompts
 if exceedsQuotaBySize bytes quota then
  s.onError call .errorInputTooLarge (some (tokensForSize bytes, quota))
 else match gatherPrompts env s.config {} prompts with
  | none => s.onError call .errorInvalidRequest none
  | some g =>
   if !appendOnly && (g.turns.getLast?.map (·.role)) ≠ some .user then
    s.onError call .errorInvalidRequest none
   else
    let r : Request := {
     call := call
     turns := g.turns
     appendOnly := appendOnly
     jsonSchema := jsonSchema
     constrained := !jsonSchema.isEmpty
     imageTurns := g.imageTurns }
    s.enqueue r g.bitmaps granted

def schemaOf : Option Constraint → Option Bytes
 | none => some []
 | some (.regex _) => none
 | some (.jsonSchema schema) =>
  if schema.isEmpty || schema.length > kMaxResponseConstraintBytes then none else some schema

def prompt (env : Environment Audio) (s : Session Audio) (prompts : List (Prompt Audio))
  (constraint : Option Constraint) (granted : Bool) : Session Audio :=
 let call := s.calls.length
 let s := { s with calls := s.calls ++ [Call.mk prompts false constraint] }
 match schemaOf constraint with
 | none => s.onError call .errorInvalidRequest none
 | some schema => s.queueCall env call prompts false schema granted

def append (env : Environment Audio) (s : Session Audio) (prompts : List (Prompt Audio))
  (granted : Bool) : Session Audio :=
 let call := s.calls.length
 let s := { s with calls := s.calls ++ [Call.mk prompts true none] }
 s.queueCall env call prompts true [] granted

def onResponderDisconnected (s : Session Audio) (requestId : ℕ) : Session Audio :=
 if s.running.any (·.id = requestId) then
  let s := if s.jobId ≠ 0 then { s.send (.cancel s.jobId) with jobId := 0 } else s
  { s with running := none, reply := [], unsent := [] }.maybeStartNext
 else if s.queue.any (·.id = requestId) then
  { s with queue := s.queue.eraseP (·.id = requestId) }.maybeStartNext
 else s

def imagesFit (r : Request) (images : List ModelImage) : Bool :=
 images.length = r.imageTurns.length &&
  (images.zip r.imageTurns).all fun (image, turn) =>
   (r.turns[turn]?.map (·.role)) = some .user && image.isValid

def attachImages (turns : List Turn) : List (ModelImage × ℕ) → List Turn
 | [] => turns
 | (image, turn) :: rest =>
  attachImages (turns.modify turn fun t => { t with images := t.images ++ [image] }) rest

def onImagesReady (s : Session Audio) (requestId : ℕ) (images : Option (List ModelImage)) :
  Session Audio :=
 if s.closed then s
 else match s.queue.find? (·.id = requestId) with
  | none => s
  | some r =>
   if !r.imagesPending then s
   else match images.filter (imagesFit r) with
    | none =>
     let s := s.onError r.call .errorInvalidRequest none
     { s with queue := s.queue.eraseP (·.id = requestId) }.syncHeldImages.maybeStartNext
    | some images =>
     let ready := { r with
      turns := attachImages r.turns (images.zip r.imageTurns)
      imagesPending := false }
     { s with queue := s.queue.replaceF fun q =>
        if q.id = requestId then some ready else none }.maybeStartNext

def flush (s : Session Audio) : Session Audio :=
 match s.running with
 | some r => if s.unsent.isEmpty then s else { s.send (.streaming r.call s.unsent) with unsent := [] }
 | none => s

def onChunk (s : Session Audio) (requestId : ℕ) (text : Bytes) (due : Bool) : Session Audio :=
 match s.running with
 | some r =>
  if r.id = requestId then
   let s := { s with reply := s.reply ++ text, unsent := s.unsent ++ text }
   if !r.constrained && due then s.flush else s
  else s
 | none => s

/-- `Commit` of a prompt, and whether something was evicted. -/
def commit (s : Session Audio) (r : Request) (reply : Bytes) : Session Audio :=
 let added := s.conversation.add r.plan r.turns
 let (conversation, evicted) := added.addReply reply
 let s := { s with
  conversation
  completed := s.completed ++ [Completed.mk r.call r.turns r.appendOnly reply] }
 if r.plan.evict > 0 || evicted then s.send (.contextOverflow r.call) else s

/-- A constrained reply was held back; it goes out only as complete JSON. -/
def outcome (env : Environment Audio) (s : Session Audio) (r : Request)
  (status : GenerationStatus) : GenerationStatus × Bytes :=
 if status = .ok && r.constrained then
  if env.isCompleteJson s.reply then (.ok, s.reply) else (.invalidOutput, s.unsent)
 else (status, s.unsent)

/-- The running request `r` gets its answer. -/
def finishRunning (s : Session Audio) (r : Request) (status : GenerationStatus)
  (unsent : Bytes) : Session Audio :=
 let s := { s with running := none, jobId := 0 }
 let s :=
  if status = .ok then
   let s := if unsent.isEmpty then s else s.send (.streaming r.call unsent)
   let s := s.commit r s.reply
   s.send (.answer r.call (.completion s.conversation.inputUsage))
  else s.onError r.call (statusFor status) none
 { s with reply := [], unsent := [] }

def onDone (env : Environment Audio) (s : Session Audio) (requestId : ℕ)
  (status : GenerationStatus) : Session Audio :=
 match s.running with
 | none => s
 | some r =>
  if r.id ≠ requestId then s
  else
   let (status, unsent) := outcome env s r status
   (s.finishRunning r status unsent).maybeStartNext

/-- `Destroy`, or the session's pipe closing. -/
def close (s : Session Audio) : Session Audio := { s with closed := true }

def delete (s : Session Audio) : Session Audio :=
 let s := if s.heldImages > 0 then
  { s.send (.releaseImages s.heldImages) with heldImages := 0 } else s
 let s := if s.jobId ≠ 0 then { s.send (.cancel s.jobId) with jobId := 0 } else s
 let waiting := s.running.toList ++ s.queue
 { s with
   sent := s.sent ++ waiting.map fun r => .answer r.call (.error .errorSessionDestroyed none)
   running := none
   queue := []
   closed := true
   deleted := true }

/-- A deleted session gets nothing any more: its pipes and weak pointers are gone. -/
def step (env : Environment Audio) (s : Session Audio) (e : Event Audio) : Session Audio :=
 if s.deleted then s
 else match e with
  | .prompt prompts constraint granted => s.prompt env prompts constraint granted
  | .append prompts granted => s.append env prompts granted
  | .responderDisconnected id => s.onResponderDisconnected id
  | .imagesReady id images => s.onImagesReady id images
  | .chunk id text due => s.onChunk id text due
  | .done id status => s.onDone env id status
  | .permission mayServe => { s with mayServe }
  | .close => s.close
  | .deleted => s.delete

end Session

end MoltBrowser.WebAISession
