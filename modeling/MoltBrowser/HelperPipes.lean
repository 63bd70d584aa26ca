import MoltBrowser.SpeechFrames
import MoltBrowser.VoiceFrames

set_option autoImplicit false

/-! The pipes of both helpers: what one side writes the other reads, however it is cut. -/
namespace MoltBrowser.HelperPipes

open StreamScan

/-- Each pipe gives back the frames written to it, under any cuts, and no stream is
read differently for where it was cut. -/
theorem pipes_round_trip :
  (∀ sent : List SpeechFrames.Sent, (∀ s ∈ sent, s.Allowed) → ∀ chunks : List Bytes,
   (∀ data ∈ chunks, data.length ≤ SpeechFrames.kMaxReadBytes) →
    chunks.flatten = sent.flatMap SpeechFrames.Sent.encode →
     SpeechFrames.FrameReader.readAll {} chunks =
      (sent.map SpeechFrames.Sent.frameOf, none)) ∧
  (∀ samples : List Int16,
   SpeechFrames.samplesOf (SpeechFrames.Sent.audio samples).frameOf.payload = samples) ∧
  (∀ asked : List VoiceFrames.ToHelper, (∀ m ∈ asked, m.Allowed) → ∀ chunks : List Bytes,
   chunks.flatten = asked.flatMap VoiceFrames.ToHelper.encode →
    ∃ frames, VoiceFrames.FrameReader.readAll .toHelper {} chunks = (frames, none) ∧
     frames.map VoiceFrames.ToHelper.ofFrame = asked.map some) ∧
  (∀ said : List VoiceFrames.FromHelper, (∀ m ∈ said, m.Allowed) → ∀ chunks : List Bytes,
   chunks.flatten = said.flatMap VoiceFrames.FromHelper.encode →
    ∃ frames, VoiceFrames.FrameReader.readAll .fromHelper {} chunks = (frames, none) ∧
     frames.map VoiceFrames.FromHelper.ofFrame = said.map fun m => some m.contents) ∧
  (∀ chunks chunks' : List Bytes, (∀ data ∈ chunks, data.length ≤ SpeechFrames.kMaxReadBytes) →
   (∀ data ∈ chunks', data.length ≤ SpeechFrames.kMaxReadBytes) →
    chunks.flatten = chunks'.flatten →
     SpeechFrames.FrameReader.readAll {} chunks =
      SpeechFrames.FrameReader.readAll {} chunks') ∧
  ∀ (direction : VoiceFrames.Direction) (chunks chunks' : List Bytes),
   chunks.flatten = chunks'.flatten →
    VoiceFrames.FrameReader.readAll direction {} chunks =
     VoiceFrames.FrameReader.readAll direction {} chunks' := by
 refine ⟨fun sent hsent chunks hreads hchunks => ?_, SpeechFrames.samplesOf_bytes,
  fun asked hasked chunks hchunks => ?_, fun said hsaid chunks hchunks => ?_,
  fun chunks chunks' hreads hreads' hsame => ?_, fun direction chunks chunks' hsame => ?_⟩
 · obtain ⟨left, hscans⟩ := SpeechFrames.readAll_scans hreads
   have hempty : SpeechFrames.frontOf [] = .needMore := rfl
   have hencoded := scans_encoded hempty SpeechFrames.Sent.encode SpeechFrames.Sent.frameOf sent
    fun s hs => SpeechFrames.frontOf_encode (hsent s hs)
   rw [hchunks] at hscans
   obtain ⟨hframes, hnone, -⟩ := hscans.unique hencoded
   exact Prod.ext hframes hnone
 · exact VoiceFrames.readAll_written
    (fun m hm => VoiceFrames.written_toHelper (hasked m hm)) hchunks
 · exact VoiceFrames.readAll_written
    (fun m hm => VoiceFrames.written_fromHelper (hsaid m hm)) hchunks
 · obtain ⟨left, hscans⟩ := SpeechFrames.readAll_scans hreads
   obtain ⟨left', hscans'⟩ := SpeechFrames.readAll_scans hreads'
   rw [← hsame] at hscans'
   obtain ⟨hframes, hend, -⟩ := hscans.unique hscans'
   exact Prod.ext hframes hend
 · obtain ⟨left, hscans⟩ := VoiceFrames.readAll_scans direction chunks
   obtain ⟨left', hscans'⟩ := VoiceFrames.readAll_scans direction chunks'
   rw [← hsame] at hscans'
   obtain ⟨hframes, hend, -⟩ := hscans.unique hscans'
   exact Prod.ext hframes hend

/-- A CONFIG and a RESET, cut inside the first header. -/
theorem pipes_round_trip_config :
  SpeechFrames.FrameReader.readAll {} [[2, 0, 0], [0, 2, 0, 0, 0, 123, 125, 3, 0, 0, 0, 0, 0, 0, 0]] =
   ([⟨.config, [123, 125]⟩, ⟨.reset, []⟩], none) :=
 pipes_round_trip.1 [.frame .config [123, 125], .frame .reset []]
  (by simp [SpeechFrames.Sent.Allowed, SpeechFrames.kMaxFramePayloadBytes]) _
  (by simp [SpeechFrames.kMaxReadBytes]) (by decide)

/-- A RESET with a payload is written, and refused. -/
theorem reset_with_payload_refused :
  ¬ ∀ (type : SpeechFrames.FrameType) (payload : Bytes) (chunks : List Bytes),
   (∀ data ∈ chunks, data.length ≤ SpeechFrames.kMaxReadBytes) →
    chunks.flatten = SpeechFrames.encodeHelperFrame type payload →
     SpeechFrames.FrameReader.readAll {} chunks = ([⟨type, payload⟩], none) := by
 intro h
 have hread := h .reset [120] [[3, 0, 0, 0, 1, 0, 0, 0, 120]] (by simp [SpeechFrames.kMaxReadBytes])
  (by decide)
 have hrefused : SpeechFrames.FrameReader.readAll {} [[3, 0, 0, 0, 1, 0, 0, 0, 120]] =
   ([], some "RESET frame with a payload") := by decide
 rw [hrefused] at hread
 simp at hread

end MoltBrowser.HelperPipes
