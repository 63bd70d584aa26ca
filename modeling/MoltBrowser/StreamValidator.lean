import MoltBrowser.TokenStream

set_option autoImplicit false

/-!
# What the browser takes from the inference service

Every message of the service goes through the validator; the service may send anything.
-/
namespace MoltBrowser.StreamValidation
open StreamFilters SelfSynchronizing TokenStream List

def tokenSlack : ℕ := 16
def chunkSlack : ℕ := 16
def windowMs : ℤ := 1000
def maxHistoryTurns : UInt32 := 512

inductive StreamViolation where
 | none
 | invalidUtf8
 | emptyChunk
 | chunkTooLarge
 | totalTooLarge
 | tooManyChunks
 | progressFlood
 | messageFlood
 | messageAfterComplete
 | stalled
 | deadlineExceeded
 | gpuFailureOffGpu
 deriving DecidableEq

structure StreamLimits where
 contextTokens : UInt32 := 0
 maxVisibleTokens : UInt32 := 0
 maxReasoningTokens : UInt32 := 0
 stopSequences : List Bytes := []
 modelOnGpu : Bool := false
 maxChunkBytes : ℕ := 4096
 maxTotalBytesCap : ℕ := 2 * 1024 * 1024
 bytesPerToken : ℕ := 512
 maxProgressPerSecond : ℤ := 4
 maxMessagesPerSecond : ℤ := 2000
 stallTimeoutMs : ℤ := 120 * 1000
 deadlineMs : ℤ := 15 * 60 * 1000

structure StreamSummary where
 status : ℤ := 0
 promptTokens : UInt32 := 0
 reusedTokens : UInt32 := 0
 generatedTokens : UInt32 := 0
 historyDropped : UInt32 := 0
 contextTrimmed : Bool := false
 userMessageTrimmed : Bool := false
 backendFailed : Bool := false
 deriving DecidableEq

structure StreamValidator where
 limits : StreamLimits
 startMs : ℤ
 maxTotalBytes : ℕ
 maxChunks : ℕ
 stop : StopSequenceFilter
 lastMessageMs : ℤ
 windowStartMs : ℤ
 messagesInWindow : ℕ := 0
 progressInWindow : ℕ := 0
 totalBytes : ℕ := 0
 chunks : ℕ := 0
 completed : Bool := false
 queued : Bool := false

namespace StreamValidator

/-- Nothing can generate more tokens than fit the context. -/
def create (limits : StreamLimits) (nowMs : ℤ) : StreamValidator :=
 let ctx := limits.contextTokens.toNat
 let visible := if limits.maxVisibleTokens ≠ 0 then limits.maxVisibleTokens.toNat else ctx
 let hidden := if limits.maxReasoningTokens ≠ 0 then limits.maxReasoningTokens.toNat else ctx
 let tokens := min ctx (visible + hidden) + tokenSlack
 let maxTotalBytes := min limits.maxTotalBytesCap (tokens * limits.bytesPerToken % 2 ^ 64)
 { limits
   startMs := nowMs
   maxTotalBytes
   maxChunks := min (2 ^ 32 - 1) ((tokens + maxTotalBytes / max limits.maxChunkBytes 1 + chunkSlack) % 2 ^ 64)
   stop := .create limits.stopSequences
   lastMessageMs := nowMs
   windowStartMs := nowMs }

variable (v : StreamValidator)

def openWindow (nowMs : ℤ) : StreamValidator :=
 if nowMs - v.windowStartMs ≥ windowMs ∨ nowMs < v.windowStartMs then
  { v with windowStartMs := nowMs, messagesInWindow := 0, progressInWindow := 0 }
 else v

def countMessage (nowMs : ℤ) (isProgress : Bool) : StreamViolation × StreamValidator :=
 if v.completed then (.messageAfterComplete, v)
 else
  let v := v.openWindow nowMs
  let v := { v with lastMessageMs := nowMs, messagesInWindow := v.messagesInWindow + 1 }
  if v.limits.maxMessagesPerSecond < (v.messagesInWindow : ℤ) then (.messageFlood, v)
  else if isProgress then
   let v := { v with progressInWindow := v.progressInWindow + 1 }
   if v.limits.maxProgressPerSecond < (v.progressInWindow : ℤ) then (.progressFlood, v) else (.none, v)
  else (.none, v)

structure ChunkResult where
 violation : StreamViolation := .none
 visible : Bytes := []
 stopped : Bool := false

def onChunk (text : Bytes) (nowMs : ℤ) : ChunkResult × StreamValidator :=
 let (violation, v) := v.countMessage nowMs false
 if violation ≠ .none then ({ violation }, v)
 else if text = [] then ({ violation := .emptyChunk }, v)
 else if text.length > v.limits.maxChunkBytes then ({ violation := .chunkTooLarge }, v)
 else
  let v := { v with chunks := (v.chunks + 1) % 2 ^ 32 }
  if v.chunks > v.maxChunks then ({ violation := .tooManyChunks }, v)
  else
   let v := { v with totalBytes := v.totalBytes + text.length }
   if v.totalBytes > v.maxTotalBytes then ({ violation := .totalTooLarge }, v)
   else if !isValidUtf8 text then ({ violation := .invalidUtf8 }, v)
   else if v.stop.stopped then ({}, v)
   else
    let (visible, stop) := v.stop.feed (replaceNul text)
    ({ visible, stopped := stop.stopped }, { v with stop })

structure ProgressResult where
 violation : StreamViolation := .none
 doneTokens : UInt32 := 0
 totalTokens : UInt32 := 0

def clamp (v hi : UInt32) : UInt32 := min v hi

def onProgress (doneTokens totalTokens : UInt32) (nowMs : ℤ) : ProgressResult × StreamValidator :=
 let (violation, v) := v.countMessage nowMs true
 let totalTokens := clamp totalTokens v.limits.contextTokens
 ({ violation, totalTokens, doneTokens := clamp doneTokens totalTokens }, v)

structure CompleteResult where
 violation : StreamViolation := .none
 visibleTail : Bytes := []
 summary : StreamSummary := {}

def onComplete (summary : StreamSummary) (nowMs : ℤ) : CompleteResult × StreamValidator :=
 let (violation, v) := v.countMessage nowMs false
 if violation ≠ .none then ({ violation }, v)
 else if summary.backendFailed && !v.limits.modelOnGpu then ({ violation := .gpuFailureOffGpu }, v)
 else
  let (visibleTail, stop) := v.stop.flush
  let ctx := v.limits.contextTokens
  let promptTokens := clamp summary.promptTokens ctx
  ({ visibleTail
     summary :=
      { summary with
        promptTokens
        reusedTokens := clamp summary.reusedTokens promptTokens
        generatedTokens := clamp summary.generatedTokens ctx
        historyDropped := clamp summary.historyDropped maxHistoryTurns } },
   { v with completed := true, stop })

def setQueued : StreamValidator := { v with queued := true }

def activate (nowMs : ℤ) : StreamValidator :=
 if !v.queued then v
 else { v with queued := false, startMs := nowMs, lastMessageMs := max v.lastMessageMs nowMs }

def checkTime (nowMs : ℤ) : StreamViolation :=
 if v.completed || v.queued then .none
 else if nowMs - v.startMs > v.limits.deadlineMs then .deadlineExceeded
 else if nowMs - v.lastMessageMs > v.limits.stallTimeoutMs then .stalled
 else .none

end StreamValidator

/-! ## Runs -/

inductive Event where
 | chunk (text : Bytes) (nowMs : ℤ)
 | progress (doneTokens totalTokens : UInt32) (nowMs : ℤ)
 | complete (summary : StreamSummary) (nowMs : ℤ)
 | setQueued
 | activate (nowMs : ℤ)
 | checkTime (nowMs : ℤ)

inductive Reply where
 | chunk (result : StreamValidator.ChunkResult)
 | progress (result : StreamValidator.ProgressResult)
 | complete (result : StreamValidator.CompleteResult)
 | time (violation : StreamViolation)

def Reply.violation : Reply → StreamViolation
 | chunk result => result.violation
 | progress result => result.violation
 | complete result => result.violation
 | time violation => violation

def Reply.visible : Reply → Bytes
 | chunk result => result.visible
 | complete result => result.visibleTail
 | progress _ | time _ => []

def Reply.tokens : Reply → List UInt32
 | progress result => [result.doneTokens, result.totalTokens]
 | complete result => [result.summary.promptTokens, result.summary.reusedTokens, result.summary.generatedTokens]
 | chunk _ | time _ => []

def step (v : StreamValidator) : Event → Reply × StreamValidator
 | .chunk text nowMs =>
  let (result, v) := v.onChunk text nowMs
  (.chunk result, v)
 | .progress doneTokens totalTokens nowMs =>
  let (result, v) := v.onProgress doneTokens totalTokens nowMs
  (.progress result, v)
 | .complete summary nowMs =>
  let (result, v) := v.onComplete summary nowMs
  (.complete result, v)
 | .setQueued => (.time .none, v.setQueued)
 | .activate nowMs => (.time .none, v.activate nowMs)
 | .checkTime nowMs => (.time (v.checkTime nowMs), v)

def run (v : StreamValidator) : List Event → List Reply × StreamValidator
 | [] => ([], v)
 | e :: events =>
  let (reply, v) := step v e
  let (replies, v) := run v events
  (reply :: replies, v)

def Event.message : Event → Option (ℤ × Bool)
 | chunk _ nowMs | complete _ nowMs => some (nowMs, false)
 | progress _ _ nowMs => some (nowMs, true)
 | setQueued | activate _ | checkTime _ => none

def Event.text : Event → Option Bytes
 | chunk text _ => some text
 | progress _ _ _ | complete _ _ | setQueued | activate _ | checkTime _ => none

/-- The messages by windows: each of a second from its first message on, the first one from when the stream began. -/
def windowsFrom (start : ℤ) (window : List (ℤ × Bool)) : List (ℤ × Bool) → List (List (ℤ × Bool))
 | [] => [window]
 | m :: messages =>
  if start ≤ m.1 ∧ m.1 < start + windowMs then windowsFrom start (window ++ [m]) messages
  else window :: windowsFrom m.1 [m] messages

/-! ## One message -/

structure Counted (v v' : StreamValidator) : Prop where
 limits : v'.limits = v.limits
 maxTotalBytes : v'.maxTotalBytes = v.maxTotalBytes
 maxChunks : v'.maxChunks = v.maxChunks
 stop : v'.stop = v.stop
 totalBytes : v'.totalBytes = v.totalBytes
 chunks : v'.chunks = v.chunks
 completed : v'.completed = v.completed

theorem Counted.openWindow (v : StreamValidator) (nowMs : ℤ) : Counted v (v.openWindow nowMs) := by
 rw [StreamValidator.openWindow]
 split_ifs
 · exact ⟨rfl, rfl, rfl, rfl, rfl, rfl, rfl⟩
 · exact ⟨rfl, rfl, rfl, rfl, rfl, rfl, rfl⟩

theorem Counted.countMessage (v : StreamValidator) (nowMs : ℤ) (isProgress : Bool) : Counted v (v.countMessage nowMs isProgress).2 := by
 obtain ⟨hlimits, hbytes, hchunks, hstop, htotal, hcount, hcompleted⟩ := Counted.openWindow v nowMs
 rw [StreamValidator.countMessage]
 dsimp only
 split_ifs
 · exact ⟨rfl, rfl, rfl, rfl, rfl, rfl, rfl⟩
 · exact ⟨hlimits, hbytes, hchunks, hstop, htotal, hcount, hcompleted⟩
 · exact ⟨hlimits, hbytes, hchunks, hstop, htotal, hcount, hcompleted⟩
 · exact ⟨hlimits, hbytes, hchunks, hstop, htotal, hcount, hcompleted⟩
 · exact ⟨hlimits, hbytes, hchunks, hstop, htotal, hcount, hcompleted⟩

/-- A message that is counted without a violation is not after the last one, and keeps its window within the limits. -/
theorem countMessage_none {v : StreamValidator} {nowMs : ℤ} {isProgress : Bool} (h : (v.countMessage nowMs isProgress).1 = .none) :
  v.completed = false ∧ (v.countMessage nowMs isProgress).2.windowStartMs = (v.openWindow nowMs).windowStartMs ∧
   (v.countMessage nowMs isProgress).2.messagesInWindow = (v.openWindow nowMs).messagesInWindow + 1 ∧
   (v.countMessage nowMs isProgress).2.progressInWindow = (v.openWindow nowMs).progressInWindow + isProgress.toNat ∧
   ((v.countMessage nowMs isProgress).2.messagesInWindow : ℤ) ≤ v.limits.maxMessagesPerSecond ∧
   (isProgress = true → ((v.countMessage nowMs isProgress).2.progressInWindow : ℤ) ≤ v.limits.maxProgressPerSecond) := by
 have hlimits := (Counted.openWindow v nowMs).limits
 rw [StreamValidator.countMessage] at h ⊢
 dsimp only at h ⊢
 split_ifs at h ⊢ with hcompleted hflood hprogress hflood'
 · rw [hlimits, not_lt] at hflood hflood'
   rw [hprogress]
   exact ⟨Bool.eq_false_iff.mpr hcompleted, rfl, rfl, rfl, hflood, fun _ => hflood'⟩
 · rw [hlimits, not_lt] at hflood
   rw [Bool.eq_false_iff.mpr hprogress]
   exact ⟨Bool.eq_false_iff.mpr hcompleted, rfl, rfl, rfl, hflood, fun h => absurd h Bool.false_ne_true⟩

theorem countMessage_completed {v : StreamValidator} (h : v.completed = true) (nowMs : ℤ) (isProgress : Bool) :
  v.countMessage nowMs isProgress = (.messageAfterComplete, v) := if_pos h

/-- A chunk that is taken is valid UTF-8 within the limits, and is fed to the stop strings without NUL. -/
theorem onChunk_none {v : StreamValidator} {text : Bytes} {nowMs : ℤ} (h : (v.onChunk text nowMs).1.violation = .none) :
  (v.countMessage nowMs false).1 = .none ∧ text ≠ [] ∧ text.length ≤ v.limits.maxChunkBytes ∧ isValidUtf8 text = true ∧
   (v.chunks + 1) % 2 ^ 32 ≤ v.maxChunks ∧ v.totalBytes + text.length ≤ v.maxTotalBytes ∧
   (v.onChunk text nowMs).1.visible = (v.stop.feed (replaceNul text)).1 ∧
   (v.onChunk text nowMs).2 =
    { (v.countMessage nowMs false).2 with
      chunks := (v.chunks + 1) % 2 ^ 32, totalBytes := v.totalBytes + text.length, stop := (v.stop.feed (replaceNul text)).2 } := by
 obtain ⟨hlimits, hbytes, hchunks, hstop, htotal, hcount, -⟩ := Counted.countMessage v nowMs false
 rw [StreamValidator.onChunk] at h ⊢
 cases hmessage : v.countMessage nowMs false with
 | mk violation v' =>
  rw [hmessage] at h hlimits hbytes hchunks hstop htotal hcount
  dsimp only at h hlimits hbytes hchunks hstop htotal hcount ⊢
  rw [hlimits, hbytes, hchunks, hstop, htotal, hcount] at h
  split_ifs at h with hviolation hempty hlarge hmany htotal' hutf8 hstopped
  · exact absurd h hviolation
  · rw [hlimits, hbytes, hchunks, hstop, htotal, hcount, if_neg hviolation, if_neg hempty, if_neg hlarge, if_neg hmany,
     if_neg htotal', if_neg hutf8, if_pos hstopped]
    rw [StreamFilters.StopSequenceFilter.feed, if_pos hstopped]
    have hvalid : isValidUtf8 text = true := by rwa [Bool.not_eq_true', Bool.not_eq_false] at hutf8
    refine ⟨not_not.mp hviolation, hempty, not_lt.mp hlarge, hvalid, not_lt.mp hmany, not_lt.mp htotal', rfl, ?_⟩
    rw [← hstop]
  · rw [hlimits, hbytes, hchunks, hstop, htotal, hcount, if_neg hviolation, if_neg hempty, if_neg hlarge, if_neg hmany,
     if_neg htotal', if_neg hutf8, if_neg hstopped]
    have hvalid : isValidUtf8 text = true := by rwa [Bool.not_eq_true', Bool.not_eq_false] at hutf8
    exact ⟨not_not.mp hviolation, hempty, not_lt.mp hlarge, hvalid, not_lt.mp hmany, not_lt.mp htotal', rfl, rfl⟩

theorem onComplete_none {v : StreamValidator} {summary : StreamSummary} {nowMs : ℤ} (h : (v.onComplete summary nowMs).1.violation = .none) :
  (v.countMessage nowMs false).1 = .none ∧ (v.onComplete summary nowMs).1.visibleTail = v.stop.flush.1 ∧
   (v.onComplete summary nowMs).2 = { (v.countMessage nowMs false).2 with completed := true, stop := v.stop.flush.2 } := by
 have hstop := (Counted.countMessage v nowMs false).stop
 rw [StreamValidator.onComplete] at h ⊢
 cases hmessage : v.countMessage nowMs false with
 | mk violation v' =>
  rw [hmessage] at h hstop
  dsimp only at h hstop ⊢
  split_ifs at h ⊢ with hviolation
  · exact absurd h hviolation
  · rw [hstop]
    exact ⟨not_not.mp hviolation, rfl, rfl⟩

theorem clamp_le (a hi : UInt32) : StreamValidator.clamp a hi ≤ hi := by
 change (if a ≤ hi then a else hi) ≤ hi
 split_ifs with hle
 · exact hle
 · exact UInt32.le_refl hi

theorem step_limits (v : StreamValidator) (e : Event) :
  (step v e).2.limits = v.limits ∧ ∀ n ∈ (step v e).1.tokens, n ≤ v.limits.contextTokens := by
 cases e with
 | chunk text nowMs =>
  have hlimits := (Counted.countMessage v nowMs false).limits
  refine ⟨?_, fun n hn => by cases hn⟩
  rw [step, StreamValidator.onChunk]
  dsimp only
  split_ifs <;> exact hlimits
 | progress doneTokens totalTokens nowMs =>
  have hlimits := (Counted.countMessage v nowMs true).limits
  refine ⟨hlimits, ?_⟩
  rw [step, StreamValidator.onProgress, Reply.tokens]
  dsimp only
  rw [hlimits]
  intro n hn
  cases mem_cons.mp hn with
  | inl hdone => exact hdone ▸ UInt32.le_trans (clamp_le _ _) (clamp_le _ _)
  | inr htotal => exact mem_singleton.mp htotal ▸ clamp_le _ _
 | complete summary nowMs =>
  have hlimits := (Counted.countMessage v nowMs false).limits
  have hzero : ∀ n ∈ (Reply.complete { violation := .none }).tokens, n ≤ v.limits.contextTokens := by
   intro n hn
   have hn' : n = 0 := by
    rw [Reply.tokens] at hn
    simpa using hn
   rw [hn']
   exact UInt32.zero_le
  rw [step, StreamValidator.onComplete]
  dsimp only
  split_ifs
  · exact ⟨hlimits, hzero⟩
  · exact ⟨hlimits, hzero⟩
  · refine ⟨hlimits, ?_⟩
    rw [hlimits, Reply.tokens]
    intro n hn
    rw [mem_cons, mem_cons, mem_singleton] at hn
    obtain rfl | rfl | rfl := hn
    · exact clamp_le _ _
    · exact UInt32.le_trans (clamp_le _ _) (clamp_le _ _)
    · exact clamp_le _ _
 | setQueued => exact ⟨rfl, fun n hn => by cases hn⟩
 | activate nowMs =>
  refine ⟨?_, fun n hn => by cases hn⟩
  rw [step, StreamValidator.activate]
  split_ifs <;> rfl
 | checkTime nowMs => exact ⟨rfl, fun n hn => by cases hn⟩

theorem step_completed {v : StreamValidator} (h : v.completed = true) {e : Event} (he : e.message.isSome) :
  (step v e).1.violation = .messageAfterComplete := by
 cases e with
 | chunk text nowMs =>
  rw [step, StreamValidator.onChunk, countMessage_completed h]
  rfl
 | progress doneTokens totalTokens nowMs =>
  rw [step, StreamValidator.onProgress, countMessage_completed h]
  rfl
 | complete summary nowMs =>
  rw [step, StreamValidator.onComplete, countMessage_completed h]
  rfl
 | setQueued => cases he
 | activate nowMs => cases he
 | checkTime nowMs => cases he

/-! ## Windows -/

structure Calm (limits : StreamLimits) (window : List (ℤ × Bool)) : Prop where
 messages : (window.length : ℤ) ≤ max 0 limits.maxMessagesPerSecond
 progress : ((window.filter Prod.snd).length : ℤ) ≤ max 0 limits.maxProgressPerSecond

/-- The open window holds the messages that were counted in it. -/
structure Open (v : StreamValidator) (window : List (ℤ × Bool)) : Prop where
 messages : window.length = v.messagesInWindow
 progress : (window.filter Prod.snd).length = v.progressInWindow
 calm : Calm v.limits window

theorem Open.snoc {v : StreamValidator} {window : List (ℤ × Bool)} {nowMs : ℤ} {isProgress : Bool}
  (hmessages : window.length = (v.openWindow nowMs).messagesInWindow)
  (hprogress : (window.filter Prod.snd).length = (v.openWindow nowMs).progressInWindow) (hcalm : Calm v.limits window)
  (h : (v.countMessage nowMs isProgress).1 = .none) : Open (v.countMessage nowMs isProgress).2 (window ++ [(nowMs, isProgress)]) := by
 obtain ⟨-, -, hcount, hcount', hmax, hmax'⟩ := countMessage_none h
 have hlimits := (Counted.countMessage v nowMs isProgress).limits
 have hfilter : ((window ++ [(nowMs, isProgress)]).filter Prod.snd).length = (window.filter Prod.snd).length + isProgress.toNat := by
  rw [filter_append, length_append]
  cases isProgress <;> rfl
 have hlength : (window ++ [(nowMs, isProgress)]).length = window.length + 1 := length_append
 refine ⟨?_, ?_, ?_, ?_⟩
 · rw [hlength, hcount, hmessages]
 · rw [hfilter, hcount', hprogress]
 · rw [hlength, hmessages, ← hcount, hlimits]
   exact hmax.trans (le_max_right _ _)
 · rw [hlimits]
   cases isProgress with
   | true =>
    rw [hfilter, hprogress, ← hcount']
    exact (hmax' rfl).trans (le_max_right _ _)
   | false =>
    rw [hfilter]
    exact hcalm.progress

theorem Open.create (limits : StreamLimits) (nowMs : ℤ) : Open (.create limits nowMs) [] :=
 ⟨rfl, rfl, le_max_left _ _, le_max_left _ _⟩

theorem Open.nil (limits : StreamLimits) : Calm limits [] := ⟨le_max_left _ _, le_max_left _ _⟩

theorem Open.count {v : StreamValidator} {window : List (ℤ × Bool)} (h : Open v window) {nowMs : ℤ} {isProgress : Bool}
  (hnone : (v.countMessage nowMs isProgress).1 = .none) :
  let v' := (v.countMessage nowMs isProgress).2
  (v.windowStartMs ≤ nowMs ∧ nowMs < v.windowStartMs + windowMs ∧ v'.windowStartMs = v.windowStartMs ∧
    Open v' (window ++ [(nowMs, isProgress)])) ∨
   (¬(v.windowStartMs ≤ nowMs ∧ nowMs < v.windowStartMs + windowMs) ∧ v'.windowStartMs = nowMs ∧ Open v' [(nowMs, isProgress)]) := by
 intro v'
 obtain ⟨-, hstart, -⟩ := countMessage_none hnone
 by_cases hnew : nowMs - v.windowStartMs ≥ windowMs ∨ nowMs < v.windowStartMs
 · have hopen : v.openWindow nowMs = { v with windowStartMs := nowMs, messagesInWindow := 0, progressInWindow := 0 } := if_pos hnew
   refine .inr ⟨by omega, hstart.trans (congrArg StreamValidator.windowStartMs hopen), ?_⟩
   refine @Open.snoc v [] nowMs isProgress ?_ ?_ (Open.nil _) hnone
   · rw [hopen]
     rfl
   · rw [hopen]
     rfl
 · have hopen : v.openWindow nowMs = v := if_neg hnew
   refine .inl ⟨by omega, by omega, hstart.trans (congrArg StreamValidator.windowStartMs hopen), ?_⟩
   refine Open.snoc ?_ ?_ h.calm hnone
   · rw [hopen]
     exact h.messages
   · rw [hopen]
     exact h.progress

theorem step_window {v : StreamValidator} {e : Event} (h : (step v e).1.violation = .none) :
  match e.message with
  | none => (step v e).2.windowStartMs = v.windowStartMs ∧ (step v e).2.messagesInWindow = v.messagesInWindow ∧
    (step v e).2.progressInWindow = v.progressInWindow
  | some (nowMs, isProgress) =>
   (v.countMessage nowMs isProgress).1 = .none ∧
    (step v e).2.windowStartMs = (v.countMessage nowMs isProgress).2.windowStartMs ∧
    (step v e).2.messagesInWindow = (v.countMessage nowMs isProgress).2.messagesInWindow ∧
    (step v e).2.progressInWindow = (v.countMessage nowMs isProgress).2.progressInWindow := by
 cases e with
 | chunk text nowMs =>
  obtain ⟨hcount, -, -, -, -, -, -, hstate⟩ := onChunk_none h
  have hstep : (step v (.chunk text nowMs)).2 = _ := hstate
  rw [hstep]
  exact ⟨hcount, rfl, rfl, rfl⟩
 | progress doneTokens totalTokens nowMs => exact ⟨h, rfl, rfl, rfl⟩
 | complete summary nowMs =>
  obtain ⟨hcount, -, hstate⟩ := onComplete_none h
  have hstep : (step v (.complete summary nowMs)).2 = _ := hstate
  rw [hstep]
  exact ⟨hcount, rfl, rfl, rfl⟩
 | setQueued => exact ⟨rfl, rfl, rfl⟩
 | activate nowMs =>
  rw [step, StreamValidator.activate]
  split_ifs <;> exact ⟨rfl, rfl, rfl⟩
 | checkTime nowMs => exact ⟨rfl, rfl, rfl⟩

theorem windows_calm {v : StreamValidator} {window : List (ℤ × Bool)} (h : Open v window) {events : List Event}
  (hnone : ∀ r ∈ (run v events).1, r.violation = .none) :
  ∀ w ∈ windowsFrom v.windowStartMs window (events.filterMap Event.message), Calm v.limits w := by
 induction events generalizing v window with
 | nil =>
  intro w hw
  exact mem_singleton.mp hw ▸ h.calm
 | cons e events ih =>
  have hstep := hnone _ mem_cons_self
  have hrest : ∀ r ∈ (run (step v e).2 events).1, r.violation = .none := fun r hr => hnone r (mem_cons_of_mem _ hr)
  have hwindow := step_window hstep
  have hlimits := (step_limits v e).1
  cases hmessage : e.message with
  | none =>
   rw [hmessage] at hwindow
   obtain ⟨hstart, hmessages, hprogress⟩ := hwindow
   have hopen : Open (step v e).2 window := ⟨h.messages.trans hmessages.symm, h.progress.trans hprogress.symm, hlimits ▸ h.calm⟩
   rw [filterMap_cons_none hmessage, ← hstart, ← hlimits]
   exact ih hopen hrest
  | some m =>
   obtain ⟨nowMs, isProgress⟩ := m
   rw [hmessage] at hwindow
   obtain ⟨hcount, hstart, hmessages, hprogress⟩ := hwindow
   have hcounted := (Counted.countMessage v nowMs isProgress).limits
   have hopen : ∀ window, Open (v.countMessage nowMs isProgress).2 window → Open (step v e).2 window := fun window hw =>
    ⟨hw.messages.trans hmessages.symm, hw.progress.trans hprogress.symm, by rw [hlimits, ← hcounted]; exact hw.calm⟩
   rw [filterMap_cons_some hmessage, windowsFrom]
   cases h.count hcount with
   | inl hsame =>
    obtain ⟨hle, hlt, hstart', hcur⟩ := hsame
    have hmore := ih (hopen _ hcur) hrest
    rw [hstart, hstart', hlimits] at hmore
    rw [if_pos ⟨hle, hlt⟩]
    exact hmore
   | inr hnew =>
    obtain ⟨hout, hstart', hcur⟩ := hnew
    have hmore := ih (hopen _ hcur) hrest
    rw [hstart, hstart', hlimits] at hmore
    rw [if_neg hout]
    intro w hw
    cases mem_cons.mp hw with
    | inl heq => exact heq ▸ h.calm
    | inr hmem => exact hmore w hmem

/-! ## Text -/

def Shown (stops : List Bytes) (v : StreamValidator) (text shown : Bytes) : Prop :=
 if v.completed then ∃ before filter, Tracks stops text before filter ∧ shown = before ++ filter.flush.1
 else Tracks stops text shown v.stop

/-- What was taken of the service while there was no violation. -/
structure Taken (start v : StreamValidator) (texts : List Bytes) (shown : Bytes) : Prop where
 limits : v.limits = start.limits
 maxTotalBytes : v.maxTotalBytes = start.maxTotalBytes
 maxChunks : v.maxChunks = start.maxChunks
 each : ∀ t ∈ texts, t ≠ [] ∧ t.length ≤ start.limits.maxChunkBytes ∧ isValidUtf8 t = true
 bytes : v.totalBytes = texts.flatten.length
 chunks : v.chunks = texts.length
 bytes_le : texts.flatten.length ≤ start.maxTotalBytes
 chunks_le : texts.length ≤ start.maxChunks
 shown : Shown start.limits.stopSequences v (replaceNul texts.flatten) shown

variable {start v : StreamValidator} {texts : List Bytes} {shown : Bytes}

theorem Taken.create (limits : StreamLimits) (nowMs : ℤ) :
  Taken (.create limits nowMs) (.create limits nowMs) [] [] where
 limits := rfl
 maxTotalBytes := rfl
 maxChunks := rfl
 each _ ht := absurd ht not_mem_nil
 bytes := rfl
 chunks := rfl
 bytes_le := Nat.zero_le _
 chunks_le := Nat.zero_le _
 shown := .inl (create_watching limits.stopSequences)

theorem Taken.valid (h : Taken start v texts shown) : Valid (replaceNul texts.flatten) :=
 replaceNul_valid (Text.flatten fun t ht => (isValidUtf8_iff t).mp (h.each t ht).2.2)

theorem length_le_flatten {texts : List Bytes} (h : ∀ t ∈ texts, t ≠ []) : texts.length ≤ texts.flatten.length := by
 induction texts with
 | nil => exact le_refl 0
 | cons t texts ih =>
  have hpos := length_pos_iff.mpr (h t mem_cons_self)
  have hrest := ih fun u hu => h u (mem_cons_of_mem _ hu)
  rw [length_cons, flatten_cons, length_append]
  omega

theorem Taken.step (h : Taken start v texts shown) (hstops : ∀ t ∈ start.limits.stopSequences, Valid t)
  (hcap : start.maxTotalBytes < 2 ^ 32) {e : Event} (hnone : (step v e).1.violation = .none) :
  Taken start (step v e).2 (texts ++ e.text.toList) (shown ++ (step v e).1.visible) ∧ Valid (step v e).1.visible := by
 cases e with
 | chunk text nowMs =>
  obtain ⟨hcount, hne, hlarge, hutf8, hchunks, htotal, hvisible, hstate⟩ := onChunk_none hnone
  obtain ⟨hcompleted, -⟩ := countMessage_none hcount
  have hcounted := Counted.countMessage v nowMs false
  have hvisible' : (StreamValidation.step v (.chunk text nowMs)).1.visible = _ := hvisible
  have hstate' : (StreamValidation.step v (.chunk text nowMs)).2 = _ := hstate
  have htracks := h.shown
  rw [Shown, hcompleted, if_neg Bool.false_ne_true] at htracks
  have hflatten : (texts ++ (Event.chunk text nowMs).text.toList).flatten = texts.flatten ++ text := by
   rw [flatten_append]
   exact congrArg _ (append_nil _)
  have hlength : (texts ++ (Event.chunk text nowMs).text.toList).length = texts.length + 1 := length_append
  rw [h.limits] at hlarge
  rw [h.bytes, h.maxTotalBytes, ← length_append, ← hflatten] at htotal
  have htexts : ∀ t ∈ texts ++ (Event.chunk text nowMs).text.toList,
    t ≠ [] ∧ t.length ≤ start.limits.maxChunkBytes ∧ isValidUtf8 t = true := by
   intro t ht
   cases mem_append.mp ht with
   | inl hold => exact h.each t hold
   | inr hnew => exact mem_singleton.mp hnew ▸ ⟨hne, hlarge, hutf8⟩
  -- no chunk is empty, so that there are no more of them than bytes
  have hfew := (length_le_flatten fun t ht => (htexts t ht).1).trans htotal
  have hwrap : (v.chunks + 1) % 2 ^ 32 = v.chunks + 1 := Nat.mod_eq_of_lt (by rw [h.chunks, ← hlength]; omega)
  rw [hwrap, h.chunks, h.maxChunks, ← hlength] at hchunks
  have hvalid := replaceNul_valid ((isValidUtf8_iff text).mp hutf8)
  refine ⟨⟨?_, ?_, ?_, htexts, ?_, ?_, htotal, hchunks, ?_⟩, ?_⟩
  · rw [hstate', ← h.limits]
    exact hcounted.limits
  · rw [hstate', ← h.maxTotalBytes]
    exact hcounted.maxTotalBytes
  · rw [hstate', ← h.maxChunks]
    exact hcounted.maxChunks
  · rw [hstate', hflatten, length_append, ← h.bytes]
  · rw [hstate', hlength, ← h.chunks]
    exact hwrap
  · have hcompleted' : (v.countMessage nowMs false).2.completed = false := hcounted.completed.trans hcompleted
    rw [hstate', hflatten, hvisible', replaceNul_append, Shown]
    dsimp only
    rw [hcompleted', if_neg Bool.false_ne_true]
    exact feed_tracks htracks _
  · rw [hvisible']
    exact feed_valid hstops htracks h.valid hvalid
 | progress doneTokens totalTokens nowMs =>
  obtain ⟨hlimits, hbytes, hchunks, hstop, htotal, hcount, hcompleted⟩ := Counted.countMessage v nowMs true
  have htracks := h.shown
  rw [Event.text, Option.toList_none, append_nil]
  refine ⟨⟨hlimits.trans h.limits, hbytes.trans h.maxTotalBytes, hchunks.trans h.maxChunks, h.each, htotal.trans h.bytes,
   hcount.trans h.chunks, h.bytes_le, h.chunks_le, ?_⟩, .nil⟩
  have hvisible : shown ++ (StreamValidation.step v (.progress doneTokens totalTokens nowMs)).1.visible = shown := append_nil _
  rw [hvisible, Shown]
  rw [Shown, ← hcompleted, ← hstop] at htracks
  exact htracks
 | complete summary nowMs =>
  obtain ⟨hcount, htail, hstate⟩ := onComplete_none hnone
  obtain ⟨hcompleted, -⟩ := countMessage_none hcount
  have hcounted := Counted.countMessage v nowMs false
  have hvisible' : (StreamValidation.step v (.complete summary nowMs)).1.visible = _ := htail
  have hstate' : (StreamValidation.step v (.complete summary nowMs)).2 = _ := hstate
  have htracks := h.shown
  rw [Shown, hcompleted, if_neg Bool.false_ne_true] at htracks
  rw [Event.text, Option.toList_none, append_nil, hvisible', hstate']
  refine ⟨⟨hcounted.limits.trans h.limits, hcounted.maxTotalBytes.trans h.maxTotalBytes, hcounted.maxChunks.trans h.maxChunks, h.each,
   hcounted.totalBytes.trans h.bytes, hcounted.chunks.trans h.chunks, h.bytes_le, h.chunks_le, ?_⟩, ?_⟩
  · rw [Shown]
    dsimp only
    rw [if_pos rfl]
    exact ⟨shown, v.stop, htracks, rfl⟩
  · exact (flush_valid hstops htracks h.valid).1
 | setQueued =>
  rw [Event.text, Option.toList_none, append_nil]
  have hvisible : shown ++ (StreamValidation.step v .setQueued).1.visible = shown := append_nil _
  rw [hvisible]
  exact ⟨⟨h.limits, h.maxTotalBytes, h.maxChunks, h.each, h.bytes, h.chunks, h.bytes_le, h.chunks_le, h.shown⟩, .nil⟩
 | activate nowMs =>
  rw [Event.text, Option.toList_none, append_nil]
  have hvisible : shown ++ (StreamValidation.step v (.activate nowMs)).1.visible = shown := append_nil _
  rw [hvisible, StreamValidation.step, StreamValidator.activate]
  dsimp only
  split_ifs
  · exact ⟨h, .nil⟩
  · exact ⟨⟨h.limits, h.maxTotalBytes, h.maxChunks, h.each, h.bytes, h.chunks, h.bytes_le, h.chunks_le, h.shown⟩, .nil⟩
 | checkTime nowMs =>
  rw [Event.text, Option.toList_none, append_nil]
  have hvisible : shown ++ (StreamValidation.step v (.checkTime nowMs)).1.visible = shown := append_nil _
  rw [hvisible]
  exact ⟨h, .nil⟩

theorem Taken.run (h : Taken start v texts shown) (hstops : ∀ t ∈ start.limits.stopSequences, Valid t)
  (hcap : start.maxTotalBytes < 2 ^ 32) {events : List Event} (hnone : ∀ r ∈ (run v events).1, r.violation = .none) :
  Taken start (run v events).2 (texts ++ events.filterMap Event.text) (shown ++ ((run v events).1.map Reply.visible).flatten) ∧
   ∀ r ∈ (run v events).1, Valid r.visible := by
 induction events generalizing v texts shown with
 | nil =>
  refine ⟨?_, fun r hr => by cases hr⟩
  have hnothing : shown ++ ((StreamValidation.run v []).1.map Reply.visible).flatten = shown := append_nil _
  rw [hnothing, filterMap_nil, append_nil]
  exact h
 | cons e events ih =>
  obtain ⟨hstep, hvalid⟩ := h.step hstops hcap (hnone _ mem_cons_self)
  obtain ⟨htaken, hrest⟩ := ih hstep fun r hr => hnone r (mem_cons_of_mem _ hr)
  constructor
  · have htexts : texts ++ (e :: events).filterMap Event.text = texts ++ e.text.toList ++ events.filterMap Event.text := by
     rw [append_assoc]
     cases htext : e.text with
     | none => rw [filterMap_cons_none htext]; rfl
     | some text => rw [filterMap_cons_some htext]; rfl
    rw [htexts, StreamValidation.run, map_cons, flatten_cons, ← append_assoc]
    exact htaken
  · intro r hr
    cases mem_cons.mp hr with
    | inl heq => exact heq ▸ hvalid
    | inr hmem => exact hrest r hmem

theorem run_limits (v : StreamValidator) (events : List Event) :
  ∀ r ∈ (run v events).1, ∀ n ∈ r.tokens, n ≤ v.limits.contextTokens := by
 induction events generalizing v with
 | nil =>
  intro r hr
  cases hr
 | cons e events ih =>
  obtain ⟨hlimits, htokens⟩ := step_limits v e
  intro r hr
  cases mem_cons.mp hr with
  | inl heq => exact heq ▸ htokens
  | inr hmem => exact hlimits ▸ ih (step v e).2 r hmem

theorem maxTotalBytes_le (limits : StreamLimits) (nowMs : ℤ) : (StreamValidator.create limits nowMs).maxTotalBytes ≤ limits.maxTotalBytesCap :=
 min_le_left _ _

/-- Whatever the service sends: no token number exceeds the context, and every message after the last one is a violation. As
long as there was no violation, what the caller got is the text without NUL up to the first stop string, valid UTF-8 in each
piece and together, and neither the bytes nor the chunks nor the messages of a second exceed their limits. -/
theorem stream_contained (limits : StreamLimits) (hstops : ∀ t ∈ limits.stopSequences, isValidUtf8 t = true)
  (hcap : limits.maxTotalBytesCap < 2 ^ 32) (nowMs : ℤ) (events : List Event) :
  let start := StreamValidator.create limits nowMs
  let replies := (run start events).1
  let v := (run start events).2
  (∀ r ∈ replies, ∀ n ∈ r.tokens, n ≤ limits.contextTokens) ∧
  (v.completed = true → ∀ e : Event, e.message.isSome → (step v e).1.violation = .messageAfterComplete) ∧
  ((∀ r ∈ replies, r.violation = .none) →
   let texts := events.filterMap Event.text
   let fed := (StopSequenceFilter.create limits.stopSequences).feed (replaceNul texts.flatten)
   let visible := (replies.map Reply.visible).flatten
   visible = fed.1 ++ (if v.completed then fed.2.flush.1 else []) ∧
   isValidUtf8 visible = true ∧ (∀ r ∈ replies, isValidUtf8 r.visible = true) ∧
   (∀ t ∈ texts, t.length ≤ limits.maxChunkBytes) ∧ texts.flatten.length ≤ start.maxTotalBytes ∧ texts.length ≤ start.maxChunks ∧
   ∀ w ∈ windowsFrom nowMs [] (events.filterMap Event.message), Calm limits w) := by
 intro start replies v
 refine ⟨run_limits start events, fun hcompleted e he => step_completed hcompleted he, ?_⟩
 intro hnone texts fed visible
 have hvalidStops : ∀ t ∈ limits.stopSequences, Valid t := fun t ht => (isValidUtf8_iff t).mp (hstops t ht)
 obtain ⟨htaken, hvalid⟩ := (Taken.create limits nowMs).run hvalidStops ((maxTotalBytes_le limits nowMs).trans_lt hcap) hnone
 rw [List.nil_append, List.nil_append] at htaken
 have hfed : Tracks limits.stopSequences (replaceNul texts.flatten) fed.1 fed.2 :=
  feed_tracks (.inl (create_watching limits.stopSequences)) _
 have hwhole : Valid visible := Text.flatten fun t ht => by
  obtain ⟨r, hr, rfl⟩ := List.mem_map.mp ht
  exact hvalid r hr
 refine ⟨?_, (isValidUtf8_iff _).mpr hwhole, fun r hr => (isValidUtf8_iff _).mpr (hvalid r hr), fun t ht => (htaken.each t ht).2.1,
  htaken.bytes_le, htaken.chunks_le, windows_calm (Open.create limits nowMs) hnone⟩
 have hshown : Shown limits.stopSequences v (replaceNul texts.flatten) visible := htaken.shown
 rw [Shown] at hshown
 split_ifs at hshown ⊢ with hcompleted
 · obtain ⟨before, filter, htracks, heq⟩ := hshown
   obtain ⟨hbefore, hflush⟩ := htracks.unique hfed
   rw [heq, hbefore, hflush]
 · rw [List.append_nil]
   exact (hshown.unique hfed).1

/-- A stop string is cut off, NUL is replaced, and the stream ends. -/
theorem stream_contained_hello :
  let events : List Event :=
   [.progress 5 9000 0, .chunk (utf8 "hel\x00") 10, .chunk (utf8 "lo EN") 20, .chunk (utf8 "D more") 30, .complete {} 40]
  let limits : StreamLimits := { contextTokens := 4096, stopSequences := [utf8 "END"] }
  (run (.create limits 0) events).1.map Reply.violation = [.none, .none, .none, .none, .none] ∧
   ((run (.create limits 0) events).1.map Reply.visible).flatten = utf8 "hel\uFFFDlo " ∧
   isValidUtf8 ((run (.create limits 0) events).1.map Reply.visible).flatten = true := by
 intro events limits
 have hnone : (run (.create limits 0) events).1.map Reply.violation = [.none, .none, .none, .none, .none] := by decide +kernel
 have hall : ∀ r ∈ (run (.create limits 0) events).1, r.violation = .none := by
  intro r hr
  have hmem := hnone ▸ List.mem_map_of_mem (f := Reply.violation) hr
  simpa using hmem
 refine ⟨hnone, by decide +kernel, ((stream_contained limits (by decide +kernel) (by decide) 0 events).2.2 hall).2.1⟩

end MoltBrowser.StreamValidation
