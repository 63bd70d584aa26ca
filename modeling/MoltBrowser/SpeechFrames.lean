import MoltBrowser.Bytes
import MoltBrowser.StreamScan

set_option autoImplicit false

/-!
# The pipe to molt-speech (`speech_helper/frame_reader.cc`)

The browser writes frames (`voice_listener_protocol.cc`), the helper reads them
back from reads of any size.
-/
namespace MoltBrowser.SpeechFrames
open List

open StreamScan

def kFrameHeaderBytes : ℕ := 8
def kMaxFramePayloadBytes : ℕ := 65536
def kMaxReadBytes : ℕ := 65536
def kMaxHeldBytes : ℕ := kFrameHeaderBytes + kMaxFramePayloadBytes

inductive FrameType where
 | audio | config | reset | shutdown
 deriving DecidableEq, Repr

def FrameType.code : FrameType → UInt32
 | .audio => 1
 | .config => 2
 | .reset => 3
 | .shutdown => 4

structure Frame where
 type : FrameType
 payload : Bytes
 deriving DecidableEq

/-- The type of an accepted header, or why the header is refused. -/
def checkFrameHeader (type length : UInt32) : Except String FrameType :=
 if length.toNat > kMaxFramePayloadBytes then
  .error ("frame length " ++ toString length.toNat ++ " is over " ++
   toString kMaxFramePayloadBytes)
 else if type = 1 then
  if length = 0 ∨ length.toNat % 2 ≠ 0 then
   .error ("AUDIO frame of " ++ toString length.toNat ++ " bytes: not a whole number of samples")
  else .ok .audio
 else if type = 2 then
  if length.toNat < 2 then .error ("CONFIG frame of " ++ toString length.toNat ++ " bytes")
  else .ok .config
 else if type = 3 then
  if length ≠ 0 then .error "RESET frame with a payload" else .ok .reset
 else if type = 4 then
  if length ≠ 0 then .error "SHUTDOWN frame with a payload" else .ok .shutdown
 else .error ("unknown frame type " ++ toString type.toNat)

/-! ## The reader -/

structure FrameReader where
 buffer : Bytes := []
 start : ℕ := 0
 failed : Bool := false

namespace FrameReader

def pendingBytes (r : FrameReader) : ℕ := r.buffer.length - r.start

def append (r : FrameReader) (data : Bytes) : Bool × FrameReader :=
 if r.failed then (false, r)
 else if data.length > kMaxReadBytes ∨ r.pendingBytes ≥ kMaxHeldBytes then
  (false, { r with failed := true })
 else if data = [] then (true, r)
 else (true, { r with buffer := r.buffer.drop r.start ++ data, start := 0 })

def fail (message : String) : Status Frame String × FrameReader :=
 (.error message, { buffer := [], start := 0, failed := true })

@[grind =] def next (r : FrameReader) : Status Frame String × FrameReader :=
 if r.failed then fail "the frame stream already failed"
 else
  match r.buffer.drop r.start with
  | t0 :: t1 :: t2 :: t3 :: l0 :: l1 :: l2 :: l3 :: body =>
   let length := read32 l0 l1 l2 l3
   match checkFrameHeader (read32 t0 t1 t2 t3) length with
   | .error bad => fail bad
   | .ok type =>
    if body.length < length.toNat then (.needMore, r)
    else
     let start := r.start + kFrameHeaderBytes + length.toNat
     (.frame ⟨type, body.take length.toNat⟩,
      if start = r.buffer.length then { r with buffer := [], start := 0 }
      else { r with start := start })
  | _ => (.needMore, r)

def pending (r : FrameReader) : Bytes := r.buffer.drop r.start

end FrameReader

/-- What `next` sees at the front of what is pending. -/
def frontOf : Bytes → Outcome UInt8 Frame String := headed checkFrameHeader Frame.mk

theorem next_needMore {r : FrameReader} (hf : r.failed = false)
  (h : frontOf r.pending = .needMore) : r.next = (.needMore, r) := by
 unfold FrameReader.next
 rw [if_neg (by simp [hf])]
 unfold FrameReader.pending at h
 split
 · next heq =>
   rw [heq] at h
   dsimp only [frontOf, headed] at h ⊢
   split at h
   · exact absurd h (by simp)
   · next hok =>
     rw [hok]
     dsimp only
     split at h
     · next hshort => rw [if_pos hshort]
     · exact absurd h (by simp)
 · rfl

theorem next_bad {r : FrameReader} (hf : r.failed = false) {bad : String}
  (h : frontOf r.pending = .bad bad) : r.next = FrameReader.fail bad := by
 unfold FrameReader.next
 rw [if_neg (by simp [hf])]
 unfold FrameReader.pending at h
 split
 · next heq =>
   rw [heq] at h
   dsimp only [frontOf, headed] at h ⊢
   split at h
   · next hbad =>
     rw [hbad]
     exact congrArg FrameReader.fail (Outcome.bad.inj h)
   · split at h <;> exact absurd h (by simp)
 · next hshort =>
   unfold frontOf headed at h
   split at h
   · next heq => exact absurd heq (hshort _ _ _ _ _ _ _ _ _)
   · exact absurd h (by simp)

theorem next_frame {r : FrameReader} (hf : r.failed = false) {frame : Frame} {rest : Bytes}
  (h : frontOf r.pending = .frame frame rest) :
  ∃ r', r.next = (.frame frame, r') ∧ r'.failed = false ∧ r'.pending = rest := by
 unfold FrameReader.next
 rw [if_neg (by simp [hf])]
 unfold FrameReader.pending at h
 split
 · next t0 t1 t2 t3 l0 l1 l2 l3 body heq =>
   rw [heq] at h
   dsimp only [frontOf, headed] at h ⊢
   split at h
   · exact absurd h (by simp)
   · next hok =>
     rw [hok]
     dsimp only
     split at h
     · exact absurd h (by simp)
     · next hlong =>
       rw [if_neg hlong]
       obtain ⟨rfl, rfl⟩ := Outcome.frame.inj h
       refine ⟨_, rfl, ?_, ?_⟩
       · split <;> exact hf
       · have hlen : r.buffer.length = r.start + 8 + body.length := by
          have := congrArg List.length heq
          simp only [length_drop, length_cons] at this
          omega
         have hbody : r.buffer.drop (r.start + 8) = body := by
          rw [← drop_drop, heq]
          rfl
         split
         · next hall =>
           simp only [kFrameHeaderBytes] at hall
           refine (drop_eq_nil_of_le ?_).symm
           omega
         · simp only [FrameReader.pending, kFrameHeaderBytes]
           rw [← drop_drop, hbody]
 · next hshort =>
   unfold frontOf headed at h
   split at h
   · next heq => exact absurd heq (hshort _ _ _ _ _ _ _ _ _)
   · exact absurd h (by simp)

theorem faithful_next :
  Faithful frontOf FrameReader.next FrameReader.pending fun r => r.failed = false where
 stable := stable_headed _ _
 shorter := shorter_headed
 needMore := next_needMore
 bad hr h := ⟨_, next_bad hr h⟩
 frame hr h := next_frame hr h

theorem checkFrameHeader_length {type length : UInt32} {t : FrameType}
  (h : checkFrameHeader type length = .ok t) : length.toNat ≤ kMaxFramePayloadBytes := by
 unfold checkFrameHeader at h
 split at h
 · exact absurd h (by simp)
 · omega

theorem pendingBytes_eq (r : FrameReader) : r.pendingBytes = r.pending.length := by
 simp [FrameReader.pendingBytes, FrameReader.pending]

theorem append_drained {r : FrameReader} (hf : r.failed = false)
  (hmore : frontOf r.pending = .needMore) {data : Bytes} (hfits : data.length ≤ kMaxReadBytes) :
  ∃ r', r.append data = (true, r') ∧ r'.failed = false ∧ r'.pending = r.pending ++ data := by
 -- a drained reader holds less than a header and a whole payload
 have hheld : r.pending.length < kMaxHeldBytes := held_of_needMore checkFrameHeader_length hmore
 unfold FrameReader.append
 rw [if_neg (by simp [hf]), if_neg (by rw [pendingBytes_eq]; omega)]
 by_cases hempty : data = []
 · rw [if_pos hempty]
   exact ⟨r, rfl, hf, by rw [hempty, append_nil]⟩
 · rw [if_neg hempty]
   exact ⟨_, rfl, hf, rfl⟩

def FrameReader.readAll (r : FrameReader) (chunks : List Bytes) : List Frame × Option String :=
 StreamScan.readAll FrameReader.append FrameReader.next FrameReader.pendingBytes
  "the frame reader refused input" r chunks

theorem readAll_scans {chunks : List Bytes} (hreads : ∀ data ∈ chunks, data.length ≤ kMaxReadBytes) :
  ∃ left, Scans frontOf chunks.flatten (FrameReader.readAll {} chunks).1
   (FrameReader.readAll {} chunks).2 left := by
 have hnew : ({} : FrameReader).failed = false := rfl
 have hmore : frontOf ({} : FrameReader).pending = .needMore := rfl
 exact faithful_next.readAll_scans pendingBytes_eq append_drained hnew hmore hreads

/-! ## The browser's frames -/

def encodeHelperFrame (type : FrameType) (payload : Bytes) : Bytes :=
 if payload.length > kMaxFramePayloadBytes then []
 else bytesOf32 type.code ++ bytesOf32 (UInt32.ofNat payload.length) ++ payload

def encodeAudioFrame (samples : List Int16) : Bytes :=
 if samples.length > kMaxFramePayloadBytes / 2 then []
 else bytesOf32 FrameType.audio.code ++ bytesOf32 (UInt32.ofNat (samples.length * 2)) ++
  samples.flatMap fun sample => bytesOf16 sample.toUInt16

/-- The samples of an AUDIO frame, as the helper's `Dispatch` takes them. -/
def samplesOf : Bytes → List Int16
 | b0 :: b1 :: rest => (read16 b0 b1).toInt16 :: samplesOf rest
 | _ => []

inductive Sent where
 | frame (type : FrameType) (payload : Bytes)
 | audio (samples : List Int16)

def Sent.encode : Sent → Bytes
 | .frame type payload => encodeHelperFrame type payload
 | .audio samples => encodeAudioFrame samples

def Sent.frameOf : Sent → Frame
 | .frame type payload => ⟨type, payload⟩
 | .audio samples => ⟨.audio, samples.flatMap fun sample => bytesOf16 sample.toUInt16⟩

def Sent.Allowed : Sent → Prop
 | .frame .audio payload =>
  payload ≠ [] ∧ payload.length % 2 = 0 ∧ payload.length ≤ kMaxFramePayloadBytes
 | .frame .config payload => 2 ≤ payload.length ∧ payload.length ≤ kMaxFramePayloadBytes
 | .frame _ payload => payload = []
 | .audio samples => 1 ≤ samples.length ∧ samples.length ≤ 32768

theorem samplesOf_bytes (samples : List Int16) :
  samplesOf (samples.flatMap fun sample => bytesOf16 sample.toUInt16) = samples := by
 induction samples with
 | nil => rfl
 | cons sample samples ih =>
  rw [flatMap_cons, bytesOf16_eq]
  simp only [cons_append, nil_append, samplesOf, ih, read16_bytes]
  rfl

theorem length_sampleBytes (samples : List Int16) :
  (samples.flatMap fun sample => bytesOf16 sample.toUInt16).length = samples.length * 2 := by
 induction samples with
 | nil => rfl
 | cons sample samples ih =>
  rw [flatMap_cons, length_append, ih, bytesOf16_eq, length_cons]
  simp only [length_cons, length_nil]
  omega

theorem frontOf_encode {sent : Sent} (hallowed : sent.Allowed) (more : Bytes) :
  frontOf (sent.encode ++ more) = .frame sent.frameOf more := by
 have hnat : ∀ n : ℕ, n ≤ kMaxFramePayloadBytes → (UInt32.ofNat n).toNat = n := by
  intro n hn
  rw [UInt32.toNat_ofNat']
  exact Nat.mod_eq_of_lt (lt_of_le_of_lt hn (by decide))
 have hzero : ∀ n : ℕ, n ≤ kMaxFramePayloadBytes → UInt32.ofNat n = 0 → n = 0 := by
  intro n hn heq
  rw [← hnat n hn, heq]
  rfl
 have haudio : ∀ n : ℕ, n ≠ 0 → n % 2 = 0 → n ≤ kMaxFramePayloadBytes →
   checkFrameHeader FrameType.audio.code (UInt32.ofNat n) = .ok .audio := by
  intro n hpos heven hmax
  unfold checkFrameHeader
  rw [hnat n hmax, if_neg (by omega), if_pos (by decide), if_neg]
  rintro (heq | hodd)
  · exact hpos (hzero n hmax heq)
  · exact hodd heven
 cases sent with
 | audio samples =>
  obtain ⟨hpos, hmax⟩ := hallowed
  have hlen := length_sampleBytes samples
  have hmax' : samples.length * 2 ≤ kMaxFramePayloadBytes := by
   simp only [kMaxFramePayloadBytes]
   omega
  have hcheck := haudio (samples.length * 2) (by omega) (by omega) hmax'
  rw [← hlen] at hcheck hmax'
  unfold Sent.encode Sent.frameOf
  dsimp only [encodeAudioFrame]
  rw [if_neg (by simp only [kMaxFramePayloadBytes]; omega), ← hlen]
  exact headed_frame (lt_of_le_of_lt hmax' (by decide)) hcheck more
 | frame type payload =>
  unfold Sent.encode Sent.frameOf
  dsimp only [encodeHelperFrame]
  have hmax : payload.length ≤ kMaxFramePayloadBytes := by
   cases type with
   | audio => exact hallowed.2.2
   | config => exact hallowed.2
   | reset => rw [show payload = [] from hallowed]; exact Nat.zero_le _
   | shutdown => rw [show payload = [] from hallowed]; exact Nat.zero_le _
  rw [if_neg (by omega)]
  refine headed_frame (lt_of_le_of_lt hmax (by decide)) ?_ more
  cases type with
  | audio =>
   exact haudio _ (fun heq => hallowed.1 (length_eq_zero_iff.1 heq)) hallowed.2.1 hmax
  | config =>
   obtain ⟨htwo, -⟩ := hallowed
   unfold checkFrameHeader
   rw [hnat _ hmax, if_neg (by omega), if_neg (by decide), if_pos (by decide),
    if_neg (by omega)]
  | reset =>
   rw [show payload = [] from hallowed]
   decide
  | shutdown =>
   rw [show payload = [] from hallowed]
   decide

end MoltBrowser.SpeechFrames
