import MoltBrowser.Bytes
import MoltBrowser.StreamScan

set_option autoImplicit false

/-!
# The pipes of molt-voice (`voice_helper/voice_frames.cc`)

Both directions have one reader, told which it reads, and a writer and a parser for
each payload.
-/
namespace MoltBrowser.VoiceFrames
open List

open StreamScan

def kProtocolVersion : UInt32 := 1
def kFrameHeaderBytes : ℕ := 8
def kMaxFramePayloadBytes : ℕ := 65536
def kSpeakHeaderBytes : ℕ := 8
def kMaxSpeakTextBytesInFrame : ℕ := 4096
def kMinRatePercent : ℤ := 50
def kMaxRatePercent : ℤ := 250
def kMaxVoiceNameBytes : ℕ := 64
def kMaxErrorMessageBytes : ℕ := 200
def kMinSampleRate : ℤ := 8000
def kMaxSampleRate : ℤ := 24000
def kMaxAudioFrameSamples : ℕ := (kMaxFramePayloadBytes - 4) / 2
def kDoneBytes : ℕ := 20

inductive Direction where
 | toHelper | fromHelper
 deriving DecidableEq

structure Frame where
 type : UInt32
 payload : Bytes
 deriving DecidableEq

structure Allowed where
 min : ℕ := 0
 max : ℕ := 0
 evenAfterId : Bool := false

def allowedFor (direction : Direction) (type : UInt32) : Option Allowed :=
 match direction with
 | .toHelper =>
  if type = 1 then
   some { min := kSpeakHeaderBytes + 1, max := kSpeakHeaderBytes + kMaxSpeakTextBytesInFrame }
  else if type = 2 ∨ type = 3 then some {}
  else none
 | .fromHelper =>
  if type = 1 then some { min := 8, max := 8 + kMaxVoiceNameBytes }
  else if type = 2 then some { min := 4 + 2, max := kMaxFramePayloadBytes, evenAfterId := true }
  else if type = 3 then some { min := kDoneBytes, max := kDoneBytes }
  else if type = 4 then some { min := 4, max := 4 + kMaxErrorMessageBytes }
  else none

def typeName (direction : Direction) (type : UInt32) : String :=
 match direction with
 | .toHelper =>
  if type = 1 then "SPEAK" else if type = 2 then "CANCEL" else if type = 3 then "SHUTDOWN"
  else "?"
 | .fromHelper =>
  if type = 1 then "READY" else if type = 2 then "AUDIO" else if type = 3 then "DONE"
  else if type = 4 then "ERROR" else "?"

def checkHeader (direction : Direction) (type length : UInt32) : Except String UInt32 :=
 match allowedFor direction type with
 | none => .error ("unknown frame type " ++ toString type.toNat)
 | some allowed =>
  if length.toNat < allowed.min ∨ length.toNat > allowed.max ∨
    (allowed.evenAfterId ∧ (length.toNat - 4) % 2 ≠ 0) then
   .error (typeName direction type ++ " frame length " ++ toString length.toNat ++
    " is not allowed")
  else .ok type

/-! ## The reader -/

structure FrameReader where
 buffer : Bytes := []
 consumed : ℕ := 0
 failed : Bool := false

namespace FrameReader

def append (r : FrameReader) (data : Bytes) : Bool × FrameReader :=
 if r.failed then (false, r)
 else (true, { r with buffer := r.buffer.drop r.consumed ++ data, consumed := 0 })

@[grind =] def next (direction : Direction) (r : FrameReader) : Status Frame String × FrameReader :=
 if r.failed then (.error "the reader failed before", r)
 else
  match r.buffer.drop r.consumed with
  | t0 :: t1 :: t2 :: t3 :: l0 :: l1 :: l2 :: l3 :: body =>
   let length := read32 l0 l1 l2 l3
   match checkHeader direction (read32 t0 t1 t2 t3) length with
   | .error error => (.error error, { r with failed := true })
   | .ok type =>
    if body.length < length.toNat then (.needMore, r)
    else
     let consumed := r.consumed + kFrameHeaderBytes + length.toNat
     (.frame ⟨type, body.take length.toNat⟩,
      if consumed = r.buffer.length then { r with buffer := [], consumed := 0 }
      else { r with consumed := consumed })
  | _ => (.needMore, r)

def pending (r : FrameReader) : Bytes := r.buffer.drop r.consumed

def readAll (direction : Direction) (r : FrameReader) (chunks : List Bytes) :
  List Frame × Option String :=
 StreamScan.readAll append (next direction) (fun r => r.pending.length)
  "the frame reader refused input" r chunks

end FrameReader

/-- What `next` sees at the front of what is pending. -/
def frontOf (direction : Direction) : Bytes → Outcome UInt8 Frame String :=
 headed (checkHeader direction) Frame.mk

/-! ## Writing -/

def encodeFrame (type : UInt32) (payload : Bytes) : Bytes :=
 bytesOf32 type ++ bytesOf32 (UInt32.ofNat payload.length) ++ payload

/-- The cast of an `int`. -/
def u16Of (value : ℤ) : UInt16 := UInt16.ofNat (value % 65536).toNat

def u32Of (value : ℤ) : UInt32 := UInt32.ofNat (value % 4294967296).toNat

def printableAscii (text : Bytes) (max : ℕ) : Bytes :=
 (text.take max).map fun c => if 0x20 ≤ c ∧ c < 0x7F then c else 63

def encodeSpeak (id : UInt32) (ratePercent : ℤ) (text : Bytes) : Bytes :=
 encodeFrame 1 (bytesOf32 id ++ bytesOf16 (u16Of ratePercent) ++ bytesOf16 0 ++
  text.take kMaxSpeakTextBytesInFrame)

def encodeCancel : Bytes := encodeFrame 2 []

def encodeShutdown : Bytes := encodeFrame 3 []

def encodeReady (sampleRate : ℤ) (voice : Bytes) : Bytes :=
 encodeFrame 1 (bytesOf32 kProtocolVersion ++ bytesOf32 (u32Of sampleRate) ++
  printableAscii voice kMaxVoiceNameBytes)

def encodeAudio (id : UInt32) (samples : List Int16) : Bytes :=
 encodeFrame 2 (bytesOf32 id ++
  (samples.take kMaxAudioFrameSamples).flatMap fun sample => bytesOf16 sample.toUInt16)

inductive DoneStatus where
 | spoken | cancelled | nothingToSay | cut | engineFailed
 deriving DecidableEq

def DoneStatus.code : DoneStatus → UInt32
 | .spoken => 0
 | .cancelled => 1
 | .nothingToSay => 2
 | .cut => 3
 | .engineFailed => 4

structure DoneInfo where
 id : UInt32 := 0
 status : DoneStatus := .spoken
 audioMs : UInt32 := 0
 firstAudioMs : UInt32 := 0
 synthMs : UInt32 := 0
 deriving DecidableEq

def encodeDone (done : DoneInfo) : Bytes :=
 encodeFrame 3 (bytesOf32 done.id ++ bytesOf32 done.status.code ++ bytesOf32 done.audioMs ++
  bytesOf32 done.firstAudioMs ++ bytesOf32 done.synthMs)

inductive ErrorCode where
 | args | model | protocol | engine | internal
 deriving DecidableEq

def ErrorCode.code : ErrorCode → UInt32
 | .args => 1
 | .model => 2
 | .protocol => 3
 | .engine => 4
 | .internal => 5

def encodeError (code : ErrorCode) (message : Bytes) : Bytes :=
 encodeFrame 4 (bytesOf32 code.code ++ printableAscii message kMaxErrorMessageBytes)

/-! ## Reading payloads -/

structure SpeakRequest where
 id : UInt32
 ratePercent : ℤ
 text : Bytes
 deriving DecidableEq

def parseSpeak (payload : Bytes) : Except String SpeakRequest :=
 if payload.length > kSpeakHeaderBytes + kMaxSpeakTextBytesInFrame then
  .error "SPEAK has no text, or too much"
 else
  match payload with
  | i0 :: i1 :: i2 :: i3 :: r0 :: r1 :: z0 :: z1 :: c :: text =>
   let rate : ℤ := (read16 r0 r1).toNat
   if read16 z0 z1 ≠ 0 then .error "SPEAK's reserved field isn't 0"
   else if rate < kMinRatePercent ∨ rate > kMaxRatePercent then
    .error ("SPEAK's rate " ++ toString rate ++ " is out of range")
   else .ok ⟨read32 i0 i1 i2 i3, rate, c :: text⟩
  | _ => .error "SPEAK has no text, or too much"

structure ReadyInfo where
 protocol : UInt32
 sampleRate : ℤ
 voice : Bytes
 deriving DecidableEq

def isPrintable (text : Bytes) : Bool := text.all fun c => 0x20 ≤ c ∧ c < 0x7F

def parseReady (payload : Bytes) : Option ReadyInfo :=
 if payload.length > 8 + kMaxVoiceNameBytes then none
 else
  match payload with
  | p0 :: p1 :: p2 :: p3 :: r0 :: r1 :: r2 :: r3 :: name =>
   let rate : ℤ := (read32 r0 r1 r2 r3).toNat
   if rate < kMinSampleRate ∨ rate > kMaxSampleRate then none
   else if isPrintable name then some ⟨read32 p0 p1 p2 p3, rate, name⟩
   else none
  | _ => none

def samplesOf : Bytes → List Int16
 | b0 :: b1 :: rest => (read16 b0 b1).toInt16 :: samplesOf rest
 | _ => []

def parseAudio (payload : Bytes) : Option (UInt32 × List Int16) :=
 if payload.length < 6 ∨ payload.length > kMaxFramePayloadBytes ∨ (payload.length - 4) % 2 ≠ 0 then
  none
 else
  match payload with
  | i0 :: i1 :: i2 :: i3 :: rest => some (read32 i0 i1 i2 i3, samplesOf rest)
  | _ => none

def doneStatus (code : UInt32) : Option DoneStatus :=
 if code = 0 then some .spoken
 else if code = 1 then some .cancelled
 else if code = 2 then some .nothingToSay
 else if code = 3 then some .cut
 else if code = 4 then some .engineFailed
 else none

def parseDone : Bytes → Option DoneInfo
 | [i0, i1, i2, i3, s0, s1, s2, s3, a0, a1, a2, a3, f0, f1, f2, f3, y0, y1, y2, y3] =>
  (doneStatus (read32 s0 s1 s2 s3)).map fun status =>
   ⟨read32 i0 i1 i2 i3, status, read32 a0 a1 a2 a3, read32 f0 f1 f2 f3, read32 y0 y1 y2 y3⟩
 | _ => none

def errorCode (code : UInt32) : Option ErrorCode :=
 if code = 1 then some .args
 else if code = 2 then some .model
 else if code = 3 then some .protocol
 else if code = 4 then some .engine
 else if code = 5 then some .internal
 else none

def parseError (payload : Bytes) : Option (ErrorCode × Bytes) :=
 if payload.length > 4 + kMaxErrorMessageBytes then none
 else
  match payload with
  | c0 :: c1 :: c2 :: c3 :: message =>
   match errorCode (read32 c0 c1 c2 c3) with
   | some code => if isPrintable message then some (code, message) else none
   | none => none
  | _ => none

/-! ## The reader hands out what is in front -/

variable {direction : Direction} {r : FrameReader}

theorem next_needMore (hf : r.failed = false) (h : frontOf direction r.pending = .needMore) :
  r.next direction = (.needMore, r) := by
 unfold FrameReader.next
 rw [if_neg (by simp [hf])]
 unfold FrameReader.pending at h
 split
 · next heq =>
   rw [heq] at h
   dsimp only [frontOf, headed] at h ⊢
   split at h
   · exact absurd h (by simp)
   · next hok =>
     rw [hok]
     dsimp only
     split at h
     · next hshort => rw [if_pos hshort]
     · exact absurd h (by simp)
 · rfl

theorem next_bad (hf : r.failed = false) {bad : String}
  (h : frontOf direction r.pending = .bad bad) :
  r.next direction = (.error bad, { r with failed := true }) := by
 unfold FrameReader.next
 rw [if_neg (by simp [hf])]
 unfold FrameReader.pending at h
 split
 · next heq =>
   rw [heq] at h
   dsimp only [frontOf, headed] at h ⊢
   split at h
   · next hbad =>
     rw [hbad, Outcome.bad.inj h]
   · split at h <;> exact absurd h (by simp)
 · next hshort =>
   unfold frontOf headed at h
   split at h
   · next heq => exact absurd heq (hshort _ _ _ _ _ _ _ _ _)
   · exact absurd h (by simp)

theorem next_frame (hf : r.failed = false) {frame : Frame} {rest : Bytes}
  (h : frontOf direction r.pending = .frame frame rest) :
  ∃ r', r.next direction = (.frame frame, r') ∧ r'.failed = false ∧ r'.pending = rest := by
 unfold FrameReader.next
 rw [if_neg (by simp [hf])]
 unfold FrameReader.pending at h
 split
 · next t0 t1 t2 t3 l0 l1 l2 l3 body heq =>
   rw [heq] at h
   dsimp only [frontOf, headed] at h ⊢
   split at h
   · exact absurd h (by simp)
   · next hok =>
     rw [hok]
     dsimp only
     split at h
     · exact absurd h (by simp)
     · next hlong =>
       rw [if_neg hlong]
       obtain ⟨rfl, rfl⟩ := Outcome.frame.inj h
       refine ⟨_, rfl, ?_, ?_⟩
       · split <;> exact hf
       · have hlen : r.buffer.length = r.consumed + 8 + body.length := by
          have := congrArg List.length heq
          simp only [length_drop, length_cons] at this
          omega
         have hbody : r.buffer.drop (r.consumed + 8) = body := by
          rw [← drop_drop, heq]
          rfl
         split
         · next hall =>
           simp only [kFrameHeaderBytes] at hall
           refine (drop_eq_nil_of_le ?_).symm
           omega
         · simp only [FrameReader.pending, kFrameHeaderBytes]
           rw [← drop_drop, hbody]
 · next hshort =>
   unfold frontOf headed at h
   split at h
   · next heq => exact absurd heq (hshort _ _ _ _ _ _ _ _ _)
   · exact absurd h (by simp)

theorem faithful_next (direction : Direction) :
  Faithful (frontOf direction) (FrameReader.next direction) FrameReader.pending
   fun r => r.failed = false where
 stable := stable_headed _ _
 shorter := shorter_headed
 needMore := next_needMore
 bad hr h := ⟨_, next_bad hr h⟩
 frame hr h := next_frame hr h

theorem append_drained (hf : r.failed = false) {data : Bytes} :
  ∃ r', r.append data = (true, r') ∧ r'.failed = false ∧ r'.pending = r.pending ++ data := by
 unfold FrameReader.append
 rw [if_neg (by simp [hf])]
 exact ⟨_, rfl, hf, rfl⟩

theorem readAll_scans (direction : Direction) (chunks : List Bytes) :
  ∃ left, Scans (frontOf direction) chunks.flatten (FrameReader.readAll direction {} chunks).1
   (FrameReader.readAll direction {} chunks).2 left := by
 have hnew : ({} : FrameReader).failed = false := rfl
 have hmore : frontOf direction ({} : FrameReader).pending = .needMore := rfl
 have hfits : ∀ data ∈ chunks, True := fun _ _ => trivial
 exact (faithful_next direction).readAll_scans (fun _ => rfl)
  (fun hr _ _ _ => append_drained hr) hnew hmore hfits

/-! ## What is written is read -/

inductive ToHelper where
 | speak (request : SpeakRequest)
 | cancel
 | shutdown
 deriving DecidableEq

def ToHelper.encode : ToHelper → Bytes
 | .speak request => encodeSpeak request.id request.ratePercent request.text
 | .cancel => encodeCancel
 | .shutdown => encodeShutdown

def ToHelper.Allowed : ToHelper → Prop
 | .speak request => kMinRatePercent ≤ request.ratePercent ∧
   request.ratePercent ≤ kMaxRatePercent ∧ request.text ≠ [] ∧
    request.text.length ≤ kMaxSpeakTextBytesInFrame
 | _ => True

def ToHelper.ofFrame (frame : Frame) : Option ToHelper :=
 if frame.type = 1 then
  match parseSpeak frame.payload with
  | .ok request => some (.speak request)
  | .error _ => none
 else if frame.type = 2 then some .cancel
 else if frame.type = 3 then some .shutdown
 else none

inductive FromHelper where
 | ready (info : ReadyInfo)
 | audio (id : UInt32) (samples : List Int16)
 | done (info : DoneInfo)
 | error (code : ErrorCode) (message : Bytes)
 deriving DecidableEq

def FromHelper.encode : FromHelper → Bytes
 | .ready info => encodeReady info.sampleRate info.voice
 | .audio id samples => encodeAudio id samples
 | .done info => encodeDone info
 | .error code message => encodeError code message

def FromHelper.Allowed : FromHelper → Prop
 | .ready info => kMinSampleRate ≤ info.sampleRate ∧ info.sampleRate ≤ kMaxSampleRate
 | .audio _ samples => samples ≠ []
 | _ => True

/-- What its frame says of it: names and messages are printable, and bounded. -/
def FromHelper.contents : FromHelper → FromHelper
 | .ready info =>
  .ready ⟨kProtocolVersion, info.sampleRate, printableAscii info.voice kMaxVoiceNameBytes⟩
 | .audio id samples => .audio id (samples.take kMaxAudioFrameSamples)
 | .done info => .done info
 | .error code message => .error code (printableAscii message kMaxErrorMessageBytes)

def FromHelper.ofFrame (frame : Frame) : Option FromHelper :=
 if frame.type = 1 then (parseReady frame.payload).map .ready
 else if frame.type = 2 then (parseAudio frame.payload).map fun (id, samples) => .audio id samples
 else if frame.type = 3 then (parseDone frame.payload).map .done
 else if frame.type = 4 then
  (parseError frame.payload).map fun (code, message) => .error code message
 else none

theorem toNat_length {n : ℕ} (h : n ≤ kMaxFramePayloadBytes) : (UInt32.ofNat n).toNat = n := by
 rw [UInt32.toNat_ofNat']
 exact Nat.mod_eq_of_lt (lt_of_le_of_lt h (by decide))

theorem frontOf_encodeFrame {direction : Direction} {type : UInt32} {payload : Bytes}
  {a : Allowed} (hallowed : allowedFor direction type = some a)
  (hmax : payload.length ≤ kMaxFramePayloadBytes) (hlow : a.min ≤ payload.length)
  (hhigh : payload.length ≤ a.max)
  (heven : a.evenAfterId = true → (payload.length - 4) % 2 = 0) (more : Bytes) :
  frontOf direction (encodeFrame type payload ++ more) = .frame ⟨type, payload⟩ more := by
 refine headed_frame (lt_of_le_of_lt hmax (by decide)) ?_ more
 unfold checkHeader
 rw [hallowed]
 dsimp only
 rw [toNat_length hmax, if_neg]
 rintro (hlt | hgt | ⟨hid, hodd⟩)
 · omega
 · omega
 · exact hodd (heven hid)

theorem length_bytesOf32 (v : UInt32) : (bytesOf32 v).length = 4 := rfl

theorem length_bytesOf16 (v : UInt16) : (bytesOf16 v).length = 2 := rfl

/-- A message is written as one frame, from which it is read. -/
structure Written (direction : Direction) {M : Type} (ofFrame : Frame → Option M) (contents : M)
  (bytes : Bytes) (frame : Frame) : Prop where
 front : ∀ more, frontOf direction (bytes ++ more) = .frame frame more
 read : ofFrame frame = some contents

theorem written_speak {request : SpeakRequest} (h : (ToHelper.speak request).Allowed) :
  ∃ frame, Written .toHelper ToHelper.ofFrame (.speak request)
   (ToHelper.speak request).encode frame := by
 obtain ⟨id, rate, text⟩ := request
 obtain ⟨hmin, hmax, htext, hlen⟩ := h
 simp only [kMinRatePercent, kMaxRatePercent, kMaxSpeakTextBytesInFrame] at hmin hmax hlen
 obtain ⟨c, rest, rfl⟩ := exists_cons_of_ne_nil htext
 have htake : (c :: rest).take kMaxSpeakTextBytesInFrame = c :: rest := take_of_length_le hlen
 have hrate : ((u16Of rate).toNat : ℤ) = rate := by
  unfold u16Of
  rw [UInt16.toNat_ofNat']
  omega
 refine ⟨_, frontOf_encodeFrame (a := { min := 9, max := 8 + 4096 }) rfl ?_ ?_ ?_ (by simp), ?_⟩
 all_goals dsimp only [ToHelper.encode]; rw [htake]
 · simp only [length_append, length_bytesOf32, length_bytesOf16, kMaxFramePayloadBytes]
   omega
 · simp only [length_append, length_bytesOf32, length_bytesOf16, length_cons]
   omega
 · simp only [length_append, length_bytesOf32, length_bytesOf16]
   omega
 · have hparse : parseSpeak (bytesOf32 id ++ bytesOf16 (u16Of rate) ++ bytesOf16 0 ++ c :: rest) =
     .ok ⟨id, rate, c :: rest⟩ := by
    unfold parseSpeak
    rw [if_neg]
    · simp only [bytesOf32_eq, bytesOf16_eq, cons_append, nil_append, read32_bytes,
       read16_bytes, hrate]
      rw [if_neg (by simp), if_neg]
      simp only [kMinRatePercent, kMaxRatePercent]
      omega
    · simp only [length_append, length_bytesOf32, length_bytesOf16, kSpeakHeaderBytes,
       kMaxSpeakTextBytesInFrame]
      omega
   unfold ToHelper.ofFrame
   rw [if_pos rfl, hparse]

theorem written_toHelper {m : ToHelper} (h : m.Allowed) :
  ∃ frame, Written .toHelper ToHelper.ofFrame m m.encode frame := by
 cases m with
 | speak request => exact written_speak h
 | cancel =>
  exact ⟨⟨2, []⟩, frontOf_encodeFrame (a := {}) rfl (by decide) le_rfl le_rfl (by simp), rfl⟩
 | shutdown =>
  exact ⟨⟨3, []⟩, frontOf_encodeFrame (a := {}) rfl (by decide) le_rfl le_rfl (by simp), rfl⟩

theorem length_printableAscii (text : Bytes) (max : ℕ) : (printableAscii text max).length ≤ max := by
 simp [printableAscii]

theorem isPrintable_printableAscii (text : Bytes) (max : ℕ) :
  isPrintable (printableAscii text max) = true := by
 refine all_eq_true.2 fun c hc => ?_
 obtain ⟨b, -, rfl⟩ := mem_map.1 hc
 by_cases hb : 0x20 ≤ b ∧ b < 0x7F
 · rw [if_pos hb]
   exact decide_eq_true hb
 · rw [if_neg hb]
   decide

theorem samplesOf_bytes (samples : List Int16) :
  samplesOf (samples.flatMap fun sample => bytesOf16 sample.toUInt16) = samples := by
 induction samples with
 | nil => rfl
 | cons sample samples ih =>
  rw [flatMap_cons, bytesOf16_eq]
  simp only [cons_append, nil_append, samplesOf, ih, read16_bytes]
  rfl

theorem length_sampleBytes (samples : List Int16) :
  (samples.flatMap fun sample => bytesOf16 sample.toUInt16).length = samples.length * 2 := by
 induction samples with
 | nil => rfl
 | cons sample samples ih =>
  rw [flatMap_cons, length_append, ih, length_bytesOf16, length_cons]
  omega

theorem doneStatus_code (status : DoneStatus) : doneStatus status.code = some status := by
 cases status <;> decide

theorem errorCode_code (code : ErrorCode) : errorCode code.code = some code := by
 cases code <;> decide

theorem written_ready {info : ReadyInfo} (h : (FromHelper.ready info).Allowed) :
  ∃ frame, Written .fromHelper FromHelper.ofFrame (FromHelper.ready info).contents
   (FromHelper.ready info).encode frame := by
 obtain ⟨protocol, rate, voice⟩ := info
 obtain ⟨hmin, hmax⟩ := h
 simp only [kMinSampleRate, kMaxSampleRate] at hmin hmax
 have hname := length_printableAscii voice kMaxVoiceNameBytes
 have hprintable := isPrintable_printableAscii voice kMaxVoiceNameBytes
 have hrate : ((u32Of rate).toNat : ℤ) = rate := by
  unfold u32Of
  rw [UInt32.toNat_ofNat']
  omega
 simp only [kMaxVoiceNameBytes] at hname
 refine ⟨_, frontOf_encodeFrame (a := { min := 8, max := 8 + 64 }) rfl ?_ ?_ ?_ (by simp), ?_⟩
 · simp only [length_append, length_bytesOf32, kMaxFramePayloadBytes, kMaxVoiceNameBytes]
   omega
 · simp only [length_append, length_bytesOf32]
   omega
 · simp only [length_append, length_bytesOf32, kMaxVoiceNameBytes]
   omega
 · have hparse : parseReady (bytesOf32 kProtocolVersion ++ bytesOf32 (u32Of rate) ++
     printableAscii voice kMaxVoiceNameBytes) =
      some ⟨kProtocolVersion, rate, printableAscii voice kMaxVoiceNameBytes⟩ := by
    unfold parseReady
    rw [if_neg]
    · simp only [bytesOf32_eq, cons_append, nil_append, read32_bytes, hrate]
      rw [if_neg (by simp only [kMinSampleRate, kMaxSampleRate]; omega), if_pos hprintable]
    · simp only [length_append, length_bytesOf32, kMaxVoiceNameBytes]
      omega
   unfold FromHelper.ofFrame
   rw [if_pos rfl, hparse]
   rfl

theorem written_audio {id : UInt32} {samples : List Int16} (h : (FromHelper.audio id samples).Allowed) :
  ∃ frame, Written .fromHelper FromHelper.ofFrame (FromHelper.audio id samples).contents
   (FromHelper.audio id samples).encode frame := by
 have hsome : samples ≠ [] := h
 have hpos : 1 ≤ (samples.take kMaxAudioFrameSamples).length := by
  have := length_pos_iff.2 hsome
  rw [length_take]
  simp only [kMaxAudioFrameSamples, kMaxFramePayloadBytes]
  omega
 have hmost : (samples.take kMaxAudioFrameSamples).length ≤ 32766 := by
  rw [length_take]
  simp only [kMaxAudioFrameSamples, kMaxFramePayloadBytes]
  omega
 unfold FromHelper.encode FromHelper.contents
 dsimp only [encodeAudio]
 generalize samples.take kMaxAudioFrameSamples = sent at *
 have hlen := length_sampleBytes sent
 have hall : (bytesOf32 id ++ sent.flatMap fun sample => bytesOf16 sample.toUInt16).length =
   4 + sent.length * 2 := by
  rw [length_append, length_bytesOf32, hlen]
 refine ⟨_, frontOf_encodeFrame (a := { min := 4 + 2, max := 65536, evenAfterId := true }) rfl
  ?_ ?_ ?_ ?_, ?_⟩
 · rw [hall]
   simp only [kMaxFramePayloadBytes]
   omega
 · rw [hall]
   dsimp only
   omega
 · rw [hall]
   dsimp only
   omega
 · rw [hall]
   omega
 · have hparse : parseAudio (bytesOf32 id ++ sent.flatMap fun sample => bytesOf16 sample.toUInt16) =
     some (id, sent) := by
    unfold parseAudio
    rw [hall, if_neg (by simp only [kMaxFramePayloadBytes]; omega)]
    simp only [bytesOf32_eq, cons_append, nil_append, read32_bytes, samplesOf_bytes]
   unfold FromHelper.ofFrame
   dsimp only
   rw [if_neg (by decide), if_pos rfl, hparse]
   rfl

theorem written_done (info : DoneInfo) :
  ∃ frame, Written .fromHelper FromHelper.ofFrame (FromHelper.done info).contents
   (FromHelper.done info).encode frame := by
 obtain ⟨id, status, audioMs, firstAudioMs, synthMs⟩ := info
 refine ⟨_, frontOf_encodeFrame (a := { min := 20, max := 20 }) rfl ?_ ?_ ?_ (by simp), ?_⟩
 · simp only [length_append, length_bytesOf32]
   decide
 · simp only [length_append, length_bytesOf32]
   exact le_rfl
 · simp only [length_append, length_bytesOf32]
   exact le_rfl
 · have hparse : parseDone (bytesOf32 id ++ bytesOf32 status.code ++ bytesOf32 audioMs ++
     bytesOf32 firstAudioMs ++ bytesOf32 synthMs) =
      some ⟨id, status, audioMs, firstAudioMs, synthMs⟩ := by
    simp only [bytesOf32_eq, cons_append, nil_append, parseDone, read32_bytes,
     doneStatus_code, Option.map_some]
   unfold FromHelper.ofFrame
   dsimp only
   rw [if_neg (by decide), if_neg (by decide), if_pos rfl, hparse]
   rfl

theorem written_error (code : ErrorCode) (message : Bytes) :
  ∃ frame, Written .fromHelper FromHelper.ofFrame (FromHelper.error code message).contents
   (FromHelper.error code message).encode frame := by
 have hmessage := length_printableAscii message kMaxErrorMessageBytes
 have hprintable := isPrintable_printableAscii message kMaxErrorMessageBytes
 simp only [kMaxErrorMessageBytes] at hmessage
 refine ⟨_, frontOf_encodeFrame (a := { min := 4, max := 4 + 200 }) rfl ?_ ?_ ?_ (by simp), ?_⟩
 · simp only [length_append, length_bytesOf32, kMaxFramePayloadBytes, kMaxErrorMessageBytes]
   omega
 · simp only [length_append, length_bytesOf32]
   omega
 · simp only [length_append, length_bytesOf32, kMaxErrorMessageBytes]
   omega
 · have hparse : parseError (bytesOf32 code.code ++ printableAscii message kMaxErrorMessageBytes) =
     some (code, printableAscii message kMaxErrorMessageBytes) := by
    unfold parseError
    rw [if_neg]
    · simp only [bytesOf32_eq, cons_append, nil_append, read32_bytes, errorCode_code]
      rw [if_pos hprintable]
    · simp only [length_append, length_bytesOf32, kMaxErrorMessageBytes]
      omega
   unfold FromHelper.ofFrame
   dsimp only
   rw [if_neg (by decide), if_neg (by decide), if_neg (by decide), if_pos rfl, hparse]
   rfl

theorem written_fromHelper {m : FromHelper} (h : m.Allowed) :
  ∃ frame, Written .fromHelper FromHelper.ofFrame m.contents m.encode frame := by
 cases m with
 | ready info => exact written_ready h
 | audio id samples => exact written_audio h
 | done info => exact written_done info
 | error code message => exact written_error code message

theorem readAll_written {direction : Direction} {M : Type} {ofFrame : Frame → Option M}
  {contents : M → M} {encode : M → Bytes} {messages : List M}
  (h : ∀ m ∈ messages, ∃ frame, Written direction ofFrame (contents m) (encode m) frame)
  {chunks : List Bytes} (hchunks : chunks.flatten = messages.flatMap encode) :
  ∃ frames, FrameReader.readAll direction {} chunks = (frames, none) ∧
   frames.map ofFrame = messages.map fun m => some (contents m) := by
 have hframe : Nonempty Frame := ⟨⟨0, []⟩⟩
 choose! frameOf hwritten using h
 obtain ⟨left, hscans⟩ := readAll_scans direction chunks
 have hempty : frontOf direction [] = .needMore := rfl
 have hencoded := scans_encoded hempty encode frameOf messages fun m hm => (hwritten m hm).front
 rw [hchunks] at hscans
 obtain ⟨hframes, hnone, -⟩ := hscans.unique hencoded
 refine ⟨messages.map frameOf, Prod.ext hframes hnone, ?_⟩
 rw [map_map]
 exact map_congr_left fun m hm => (hwritten m hm).read

end MoltBrowser.VoiceFrames
