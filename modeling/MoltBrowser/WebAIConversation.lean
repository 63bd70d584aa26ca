import MoltBrowser.Bytes

set_option autoImplicit false

/-!
# A page conversation and its quota (`web_ai_conversation.cc`, `web_ai_policy.cc`)

Token counts are `uint32_t`s: additions saturate, subtractions wrap. The turns
are a deque, its head the oldest.
-/
namespace MoltBrowser.WebAIConversation

def kMaxContextImages : ℕ := 4
def kMaxContextAudio : ℕ := 4
def kImageInputTokens : ℕ := 576
def kAudioInputMinTokens : ℕ := 375
def kAudioInputTokensPerSecond : ℕ := 25
def kPerMessageTokens : UInt32 := 4
def kAudioSampleRate : ℕ := 16000

def saturate (v : ℕ) : UInt32 := if v > 2 ^ 32 - 1 then 4294967295 else v.toUInt32

def addTokens (a b : UInt32) : UInt32 := saturate (a.toNat + b.toNat)

/-- In thirds of a token. A byte `10xxxxxx` continues a character. -/
def thirdsOfByte (b : UInt8) : ℕ :=
 if b < 0x80 then 1 else if b &&& 0xC0 ≠ 0x80 then 4 else 0

def estimateTokens (text : Bytes) : UInt32 := saturate (((text.map thirdsOfByte).sum + 2) / 3)

def estimateMessageTokens (text : Bytes) : UInt32 :=
 addTokens (estimateTokens text) kPerMessageTokens

def audioInputTokens (seconds : UInt32) : UInt32 :=
 max kAudioInputMinTokens.toUInt32 (saturate (seconds.toNat * kAudioInputTokensPerSecond))

def exceedsQuotaBySize (bytes : ℕ) (quota : UInt32) : Bool := bytes > 3 * quota.toNat

def tokensForSize (bytes : ℕ) : UInt32 :=
 saturate (bytes / 3 + if bytes % 3 ≠ 0 then 1 else 0)

structure ModelImage where
 width : UInt32
 height : UInt32
 rgb : List UInt8
 deriving DecidableEq

def kMinImageSide : UInt32 := 32
def kMaxImageSide : UInt32 := 1024
def kMaxImageAspectRatio : ℕ := 8
def kImageBytesPerPixel : ℕ := 3

def ModelImage.isValid (image : ModelImage) : Bool :=
 let long := max image.width.toNat image.height.toNat
 let short := min image.width.toNat image.height.toNat
 kMinImageSide ≤ image.width && image.width ≤ kMaxImageSide &&
  kMinImageSide ≤ image.height && image.height ≤ kMaxImageSide &&
  long ≤ short * kMaxImageAspectRatio &&
  image.rgb.length = image.width.toNat * image.height.toNat * kImageBytesPerPixel

structure ModelAudio where
 samples : List Int16
 deriving DecidableEq

def ModelAudio.seconds (clip : ModelAudio) : UInt32 :=
 ((clip.samples.length + kAudioSampleRate - 1) / kAudioSampleRate).toUInt32

inductive Role where
 | user
 | assistant
 deriving DecidableEq, Repr

structure Turn where
 role : Role := .user
 text : Bytes := []
 images : List ModelImage := []
 audio : List ModelAudio := []
 tokens : UInt32 := 0
 deriving DecidableEq

def makeTurn (role : Role) (text : Bytes) (imageCount : ℕ) (audio : List ModelAudio) : Turn :=
 let imageTokens : UInt32 :=
  if imageCount > (2 ^ 32 - 1) / kImageInputTokens then 4294967295
  else (imageCount * kImageInputTokens).toUInt32
 { role, text, audio
   tokens := audio.foldl (fun tokens clip => addTokens tokens (audioInputTokens clip.seconds))
    (addTokens (estimateMessageTokens text) imageTokens) }

structure Plan where
 fits : Bool := false
 requested : UInt32 := 0
 evict : ℕ := 0
 deriving DecidableEq, Repr

structure Conversation where
 inputQuota : UInt32
 systemPrompt : Bytes := []
 systemTokens : UInt32 := 0
 turns : List Turn := []
 turnsTokens : UInt32 := 0
 deriving DecidableEq

namespace Conversation

def inputUsage (c : Conversation) : UInt32 := addTokens c.systemTokens c.turnsTokens

def imageCount (c : Conversation) : ℕ := (c.turns.map (·.images.length)).sum

def audioCount (c : Conversation) : ℕ := (c.turns.map (·.audio.length)).sum

def setSystemPrompt (c : Conversation) (text : Bytes) : Conversation × Bool :=
 let tokens := estimateMessageTokens text
 if addTokens tokens c.turnsTokens > c.inputQuota then (c, false)
 else ({ c with systemTokens := tokens, systemPrompt := text }, true)

/-- From the newest turn back; the first component counts the items kept so far. -/
def keepNewest {α : Type} (media : Turn → List α) (setMedia : Turn → List α → Turn) (max : ℕ) :
  List Turn → ℕ × List Turn
 | [] => (0, [])
 | t :: ts =>
  let (kept, ts) := keepNewest media setMedia max ts
  if kept + (media t).length ≤ max then (kept + (media t).length, t :: ts)
  else
   let keep := max - kept
   (max, setMedia t ((media t).drop ((media t).length - keep)) :: ts)

def keepNewestMedia (turns : List Turn) : List Turn :=
 let turns :=
  (keepNewest Turn.images (fun t images => { t with images }) kMaxContextImages turns).2
 (keepNewest Turn.audio (fun t audio => { t with audio }) kMaxContextAudio turns).2

/-- How many of the oldest turns go until `requested` fits beside what is kept. -/
def evictFor (requested quota : UInt32) : UInt32 → List Turn → ℕ
 | _, [] => 0
 | kept, t :: ts =>
  if addTokens requested kept > quota then evictFor requested quota (kept - t.tokens) ts + 1
  else 0

def leadingReplies (turns : List Turn) : ℕ :=
 (turns.takeWhile (·.role = .assistant)).length

def planAdd (c : Conversation) (added : List Turn) : Plan :=
 let addedTokens := added.foldl (fun tokens t => addTokens tokens t.tokens) 0
 let requested := addTokens c.systemTokens addedTokens
 if requested > c.inputQuota then { requested }
 else
  let evict := evictFor requested c.inputQuota c.turnsTokens c.turns
  -- Whole exchanges go: the history keeps starting with a user turn.
  let evict := if evict > 0 then evict + leadingReplies (c.turns.drop evict) else evict
  { fits := true, requested, evict }

def popFront (c : Conversation) : Conversation :=
 match c.turns with
 | [] => c
 | t :: ts => { c with turns := ts, turnsTokens := c.turnsTokens - t.tokens }

def pushBack (c : Conversation) (t : Turn) : Conversation :=
 { c with turns := c.turns ++ [t], turnsTokens := addTokens c.turnsTokens t.tokens }

def add (c : Conversation) (plan : Plan) (added : List Turn) : Conversation :=
 let evict := min plan.evict c.turns.length
 let c := popFront^[evict] c
 let c := added.foldl pushBack c
 { c with turns := keepNewestMedia c.turns }

/-- The loop of `AddReply`: the oldest turns go until the reply fits. -/
def evictForReply (c : Conversation) (replyTokens : UInt32) : ℕ → Conversation × Bool
 | 0 => (c, false)
 | n + 1 =>
  if !c.turns.isEmpty &&
    addTokens (addTokens c.systemTokens c.turnsTokens) replyTokens > c.inputQuota then
   ((evictForReply c.popFront replyTokens n).1, true)
  else (c, false)

def addReply (c : Conversation) (text : Bytes) : Conversation × Bool :=
 let reply := makeTurn .assistant text 0 []
 -- One round for each turn is enough: every round takes one.
 let (c, evicted) := evictForReply c reply.tokens c.turns.length
 let c := if evicted then popFront^[leadingReplies c.turns] c else c
 (c.pushBack reply, evicted)

/-- How many of each turn's items a request sends, and the room that is left. -/
def newestCounts (max : ℕ) : List ℕ → ℕ × List ℕ
 | [] => (max, [])
 | n :: ns =>
  let (room, sent) := newestCounts max ns
  (room - min room n, min room n :: sent)

structure Merged where
 role : Role
 text : Bytes
 images : List ModelImage
 audio : List ModelAudio
 deriving DecidableEq

/-- One more turn, with the images and clips of it that are sent. -/
def mergeTurn (merged : List Merged) (t : Turn) (images : List ModelImage)
  (audio : List ModelAudio) : List Merged :=
 match merged.getLast? with
 | some last =>
  if last.role = t.role then
   merged.dropLast ++ [{ last with
    text := last.text ++ utf8 "\n\n" ++ t.text
    images := last.images ++ images
    audio := last.audio ++ audio }]
  else merged ++ [⟨t.role, t.text, images, audio⟩]
 | none => [⟨t.role, t.text, images, audio⟩]

structure Shape where
 history : List (Role × Bytes) := []
 historyImages : List (List ModelImage) := []
 userMessage : Bytes := []
 userImages : List ModelImage := []
 historyAudio : List (List ModelAudio) := []
 userAudio : List ModelAudio := []
 deriving DecidableEq

def splitUserMessage (merged : List Merged) : List Merged × Option Merged :=
 match merged.getLast? with
 | some last => if last.role = .user then (merged.dropLast, some last) else (merged, none)
 | none => (merged, none)

def shapeAfter (c : Conversation) (plan : Plan) (added : List Turn) : Shape :=
 let all := c.turns.drop (min plan.evict c.turns.length) ++ added
 let sent := (newestCounts kMaxContextImages (all.map (·.images.length))).2
 let sentAudio := (newestCounts kMaxContextAudio (all.map (·.audio.length))).2
 let merged : List Merged := (all.zip (sent.zip sentAudio)).foldl
  (fun merged (t, images, audio) => mergeTurn merged t
   (t.images.drop (t.images.length - images)) (t.audio.drop (t.audio.length - audio))) []
 let (history, user) := splitUserMessage merged
 { history := history.map fun m => (m.role, m.text)
   historyImages :=
    if history.any (!·.images.isEmpty) then history.map (·.images) else []
   userMessage := (user.map (·.text)).getD []
   userImages := (user.map (·.images)).getD []
   historyAudio := if history.any (!·.audio.isEmpty) then history.map (·.audio) else []
   userAudio := (user.map (·.audio)).getD [] }

end Conversation

end MoltBrowser.WebAIConversation
