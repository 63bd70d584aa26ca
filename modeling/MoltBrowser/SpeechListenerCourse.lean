import MoltBrowser.SpeechListener

set_option autoImplicit false

/-!
# The course of a listener's run

What an orderly run has done so far, read off its trace alone: how far the cycle
of events has got, and which audio the open utterance was given. Every trace of
the listener keeps to it, in each of its states as `MatchesIn` says.
-/
namespace MoltBrowser.SpeechListener

open SampleRing TransitionRuns

inductive Stage where
 | quiet | woken | speaking | ended
 deriving DecidableEq

def Stage.after : Stage → HelperEventType → Stage
 | _, .wake => .woken
 | _, .speechStart => .speaking
 | _, .speechEnd => .ended
 | _, .final => .quiet
 | stage, _ => stage

/-- Speech starts on its own only while no wake phrase is required. -/
@[grind =] def Stage.allows : Stage → HelperEventType → Bool → Bool
 | .quiet, .wake, _ => true
 | .quiet, .speechStart, wakeRequired => !wakeRequired
 | .woken, .speechStart, _ => true
 | .woken, .final, _ => true
 | .speaking, .partialText, _ => true
 | .speaking, .speechEnd, _ => true
 | .ended, .final, _ => true
 | _, _, _ => false

variable {Sample : Type}

structure Course (Sample : Type) where
 heard : List Sample := []
 /-- Where the audio of the last cycle that ended in a `final` stops. -/
 used : ℤ := 0
 /-- Where the audio given to the open utterance starts and stops. -/
 recognizing : Option (ℤ × ℤ) := none
 stage : Stage := .quiet
 epoch : ℤ := 0
 audioMs : ℤ := 0

namespace Course

def stageIn (c : Course Sample) (epoch : ℤ) : Stage :=
 if c.epoch < epoch then .quiet else c.stage

@[grind =] def after (c : Course Sample) : Action Sample → Course Sample
 | .detect samples => { c with heard := c.heard ++ samples }
 | .beginUtterance _ fromSample => { c with recognizing := some (fromSample, fromSample) }
 | .recognize _ =>
  { c with recognizing := c.recognizing.map fun given => (given.1, (c.heard.length : ℤ)) }
 | .finish => { c with recognizing := none }
 | .abandonUtterance => { c with recognizing := none }
 | .emit event _ =>
  { c with
    stage := (c.stageIn event.epoch).after event.type
    epoch := event.epoch
    audioMs := event.audioMs
    used := if event.type = .final then c.heard.length else c.used }
 | _ => c

def Allows (c : Course Sample) : Action Sample → Prop
 | .beginUtterance _ fromSample =>
  c.recognizing = none ∧ c.used ≤ fromSample ∧ 0 ≤ fromSample ∧ fromSample ≤ c.heard.length ∧
   (c.heard.length : ℤ) ≤ fromSample + kRingSamples
 | .recognize samples =>
  ∃ start stop, c.recognizing = some (start, stop) ∧ samples = c.heard.drop stop.toNat
 | .partialResult => ∃ start, c.recognizing = some (start, (c.heard.length : ℤ))
 | .finish => ∃ start, c.recognizing = some (start, (c.heard.length : ℤ))
 | .abandonUtterance => c.recognizing.isSome
 | .emit event wakeRequired =>
  c.epoch ≤ event.epoch ∧ c.audioMs ≤ event.audioMs ∧
   (c.stageIn event.epoch).allows event.type wakeRequired = true ∧
    (event.type = .final → c.recognizing = none)
 | _ => True

end Course

def courseOf (trace : List (Action Sample)) : Course Sample := run Course.after {} trace

def Orderly (trace : List (Action Sample)) : Prop := Along Course.after Course.Allows {} trace

@[simp] theorem courseOf_append (trace : List (Action Sample)) (a : Action Sample) :
  courseOf (trace ++ [a]) = (courseOf trace).after a := by
 simp [courseOf, run_append]

theorem Orderly.append {trace : List (Action Sample)} (h : Orderly trace) {a : Action Sample}
  (ha : (courseOf trace).Allows a) : Orderly (trace ++ [a]) :=
 (along_append _ _ _ _ _).2 ⟨h, ha, trivial⟩

def msOf (sample : ℤ) : ℤ := (sample * 1000).tdiv kSampleRate

theorem msOf_mono {a b : ℤ} (h : a ≤ b) : msOf a ≤ msOf b :=
 Int.tdiv_le_tdiv (by decide) (by omega)

/-! ## What the listener's fields say of its course -/

structure Synced (L : Listener Sample) : Prop where
 orderly : Orderly L.trace
 received : ((courseOf L.trace).heard.length : ℤ) = L.received
 ring : Holds kRingSamples L.ring (courseOf L.trace).heard
 used : (courseOf L.trace).used ≤ L.consumed
 nonneg : 0 ≤ L.consumed
 consumed : L.consumed ≤ L.received
 onset : L.speechOnset ≤ L.received
 epoch : (courseOf L.trace).epoch ≤ L.epoch

structure Quiet (L : Listener Sample) : Prop where
 stage : (courseOf L.trace).stageIn L.epoch = .quiet
 audioMs : (courseOf L.trace).audioMs ≤ msOf L.consumed

structure InCycle (stage : Stage) (L : Listener Sample) : Prop where
 epoch : (courseOf L.trace).epoch = L.epoch
 stage : (courseOf L.trace).stage = stage
 audioMs : (courseOf L.trace).audioMs ≤ msOf L.received

def Closed (L : Listener Sample) : Prop := (courseOf L.trace).recognizing = none

/-- The open utterance was given the audio from `utteranceFrom` up to `stop`. -/
structure Opened (stop : ℤ) (L : Listener Sample) : Prop where
 given : (courseOf L.trace).recognizing = some (L.utteranceFrom, stop)
 start : L.utteranceFrom ≤ L.received

def MatchesIn (state : State) (L : Listener Sample) : Prop :=
 match state with
 | .waitWake => Quiet L ∧ Closed L ∧ L.config.wakeRequired = true
 | .hearing => Quiet L ∧ Opened L.received L ∧ L.config.wakeRequired = true
 | .isOpen => Quiet L ∧ Closed L ∧ L.config.wakeRequired = false
 | .afterWake => InCycle .woken L ∧ Opened L.received L
 | .awaitCommand => InCycle .woken L ∧ Closed L
 | .utterance => InCycle .speaking L ∧ Opened L.received L

structure Settled (L : Listener Sample) : Prop where
 synced : Synced L
 matching : MatchesIn L.state L

theorem settled_of {L : Listener Sample} (h : Synced L) {s : State} (hstate : L.state = s)
  (hmatch : MatchesIn s L) : Settled L :=
 ⟨h, by rw [hstate]; exact hmatch⟩

/-! ## Steps that leave the course alone -/

structure Kept (L L' : Listener Sample) : Prop where
 course : courseOf L'.trace = courseOf L.trace
 orderly : Orderly L.trace → Orderly L'.trace
 epoch : L'.epoch = L.epoch
 received : L'.received = L.received
 consumed : L'.consumed = L.consumed
 utteranceFrom : L'.utteranceFrom = L.utteranceFrom
 ring : L'.ring = L.ring
 onset : L.speechOnset ≤ L.received → L'.speechOnset ≤ L'.received

section Kept

variable {L L' L'' : Listener Sample}

theorem Kept.trans (h : Kept L L') (h' : Kept L' L'') : Kept L L'' where
 course := h'.course.trans h.course
 orderly := h'.orderly ∘ h.orderly
 epoch := h'.epoch.trans h.epoch
 received := h'.received.trans h.received
 consumed := h'.consumed.trans h.consumed
 utteranceFrom := h'.utteranceFrom.trans h.utteranceFrom
 ring := h'.ring.trans h.ring
 onset := h'.onset ∘ h.onset

theorem Kept.synced (k : Kept L L') (h : Synced L) : Synced L' where
 orderly := k.orderly h.orderly
 received := by rw [k.course, k.received]; exact h.received
 ring := by rw [k.course, k.ring]; exact h.ring
 used := by rw [k.course, k.consumed]; exact h.used
 nonneg := by rw [k.consumed]; exact h.nonneg
 consumed := by rw [k.consumed, k.received]; exact h.consumed
 onset := k.onset h.onset
 epoch := by rw [k.course, k.epoch]; exact h.epoch

theorem Kept.quiet (k : Kept L L') (h : Quiet L) : Quiet L' :=
 ⟨by rw [k.course, k.epoch]; exact h.stage, by rw [k.course, k.consumed]; exact h.audioMs⟩

theorem Kept.inCycle {stage : Stage} (k : Kept L L') (h : InCycle stage L) : InCycle stage L' :=
 ⟨by rw [k.course, k.epoch]; exact h.epoch, by rw [k.course]; exact h.stage,
  by rw [k.course, k.received]; exact h.audioMs⟩

theorem Kept.closed (k : Kept L L') (h : Closed L) : Closed L' := by
 rw [Closed, k.course]
 exact h

theorem Kept.opened {stop : ℤ} (k : Kept L L') (h : Opened stop L) : Opened stop L' :=
 ⟨by rw [k.course, k.utteranceFrom]; exact h.given,
  by rw [k.utteranceFrom, k.received]; exact h.start⟩

theorem Kept.act {a : Action Sample} (ha : ∀ c : Course Sample, c.after a = c)
  (hallow : ∀ c : Course Sample, c.Allows a) : Kept L (L.act a) where
 course := by simp [Listener.act, ha]
 orderly h := h.append (hallow _)
 epoch := rfl
 received := rfl
 consumed := rfl
 utteranceFrom := rfl
 ring := rfl
 onset := id

theorem kept_spot (env : Environment Sample) (samples : List Sample) :
  Kept L (L.spot env samples).2 :=
 (Kept.act (fun _ => rfl) fun _ => trivial : Kept L (L.act (.spot samples))).trans
  ⟨rfl, id, rfl, rfl, rfl, rfl, rfl, id⟩

theorem kept_applyPendingVad (h : 0 ≤ L.received) : Kept L L.applyPendingVad := by
 unfold Listener.applyPendingVad
 split
 · exact ⟨rfl, id, rfl, rfl, rfl, rfl, rfl, id⟩
 · have hact : Kept L (L.act (.setVadSilenceMs L.pendingVadMs)) :=
    Kept.act (fun _ => rfl) fun _ => trivial
   refine hact.trans ⟨rfl, id, rfl, rfl, rfl, rfl, rfl, fun _ => ?_⟩
   show (-1 : ℤ) ≤ L.received
   omega

end Kept

theorem applyPendingVad_state (L : Listener Sample) : L.applyPendingVad.state = L.state := by
 unfold Listener.applyPendingVad
 split <;> rfl

theorem applyPendingVad_config (L : Listener Sample) : L.applyPendingVad.config = L.config := by
 unfold Listener.applyPendingVad
 split <;> rfl

theorem settled_toBaseState {L : Listener Sample} (h : Synced L) (hq : Quiet L) (hc : Closed L) :
  Settled L.toBaseState := by
 have hpos : 0 ≤ L.received := h.nonneg.trans h.consumed
 have hbase : Kept L { L with
   lastPartial := []
   heardOff := false
   state := if L.config.wakeRequired then .waitWake else .isOpen } :=
  ⟨rfl, id, rfl, rfl, rfl, rfl, rfl, id⟩
 have hreset := hbase.trans (Kept.act (a := .resetSpotter) (fun _ => rfl) fun _ => trivial)
 have hkept : Kept L L.toBaseState := hreset.trans (kept_applyPendingVad hpos)
 have hstate : L.toBaseState.state = if L.config.wakeRequired then .waitWake else .isOpen :=
  applyPendingVad_state _
 have hconfig : L.toBaseState.config = L.config := applyPendingVad_config _
 cases hrequired : L.config.wakeRequired with
 | true =>
  rw [hrequired] at hstate
  exact settled_of (hkept.synced h) hstate
   ⟨hkept.quiet hq, hkept.closed hc, by rw [hconfig]; exact hrequired⟩
 | false =>
  rw [hrequired] at hstate
  exact settled_of (hkept.synced h) hstate
   ⟨hkept.quiet hq, hkept.closed hc, by rw [hconfig]; exact hrequired⟩

/-! ## Events -/

section Events

variable {L : Listener Sample} {e : HelperEvent}

theorem InCycle.stageIn {stage : Stage} (h : InCycle stage L) :
  (courseOf L.trace).stageIn L.epoch = stage := by
 rw [Course.stageIn, if_neg (by rw [h.epoch]; exact lt_irrefl _), h.stage]

theorem orderly_emit (h : Synced L) (hepoch : e.epoch = L.epoch)
  (hms : (courseOf L.trace).audioMs ≤ e.audioMs)
  (hstage : ((courseOf L.trace).stageIn L.epoch).allows e.type L.config.wakeRequired = true)
  (hclosed : e.type = .final → Closed L) : Orderly (L.emit e).trace :=
 h.orderly.append ⟨by rw [hepoch]; exact h.epoch, hms, by rw [hepoch]; exact hstage, hclosed⟩

theorem Synced.emit (h : Synced L) (hepoch : e.epoch = L.epoch)
  (hms : (courseOf L.trace).audioMs ≤ e.audioMs)
  (hstage : ((courseOf L.trace).stageIn L.epoch).allows e.type L.config.wakeRequired = true)
  (hfinal : e.type ≠ .final) : Synced (L.emit e) where
 orderly := orderly_emit h hepoch hms hstage fun heq => absurd heq hfinal
 received := by simpa [Listener.emit, Listener.act, Course.after] using h.received
 ring := by simpa [Listener.emit, Listener.act, Course.after] using h.ring
 used := by simpa [Listener.emit, Listener.act, Course.after, hfinal] using h.used
 nonneg := h.nonneg
 consumed := h.consumed
 onset := h.onset
 epoch := by simp [Listener.emit, Listener.act, Course.after, hepoch]

theorem Synced.emitFinal (h : Synced L) (hepoch : e.epoch = L.epoch)
  (hms : (courseOf L.trace).audioMs ≤ e.audioMs)
  (hstage : ((courseOf L.trace).stageIn L.epoch).allows e.type L.config.wakeRequired = true)
  (hclosed : Closed L) : Synced { L.emit e with consumed := L.received } where
 orderly := orderly_emit h hepoch hms hstage fun _ => hclosed
 received := by simpa [Listener.emit, Listener.act, Course.after] using h.received
 ring := by simpa [Listener.emit, Listener.act, Course.after] using h.ring
 used := by
  have hused := h.used.trans h.consumed
  simp only [Listener.emit, Listener.act, courseOf_append, Course.after]
  split
  · exact h.received.le
  · exact hused
 nonneg := h.nonneg.trans h.consumed
 consumed := le_rfl
 onset := h.onset
 epoch := by simp [Listener.emit, Listener.act, Course.after, hepoch]

theorem inCycle_emit {stage : Stage} (hepoch : e.epoch = L.epoch)
  (hms : e.audioMs ≤ msOf L.received)
  (hstage : ((courseOf L.trace).stageIn L.epoch).after e.type = stage) :
  InCycle stage (L.emit e) where
 epoch := by simp [Listener.emit, Listener.act, Course.after, hepoch]
 stage := by simp [Listener.emit, Listener.act, Course.after, hepoch, hstage]
 audioMs := by simpa [Listener.emit, Listener.act, Course.after] using hms

theorem Closed.emit (h : Closed L) : Closed (L.emit e) := by
 simpa [Closed, Listener.emit, Listener.act, Course.after] using h

theorem Opened.emit {stop : ℤ} (h : Opened stop L) : Opened stop (L.emit e) :=
 ⟨by simpa [Listener.emit, Listener.act, Course.after] using h.given, h.start⟩

end Events

/-! ## The recognizer -/

section Recognizer

variable {L : Listener Sample}

theorem recall_eq (h : Synced L) {fromSample : ℤ} (hpos : 0 ≤ fromSample)
  (hring : L.received ≤ fromSample + kRingSamples) :
  L.recallFrom fromSample = (courseOf L.trace).heard.drop fromSample.toNat := by
 have hlen := h.received
 unfold Listener.recallFrom
 split
 · next hge =>
   refine (List.drop_eq_nil_of_le ?_).symm
   omega
 · have hstop : L.received.toNat = (courseOf L.trace).heard.length := by omega
   rw [hstop]
   refine h.ring.recall ?_
   omega

/-- The same course but for the audio of the open utterance. -/
structure Recognizes (L L' : Listener Sample) : Prop where
 course : ∃ recognizing, courseOf L'.trace = { courseOf L.trace with recognizing }
 orderly : Orderly L'.trace
 epoch : L'.epoch = L.epoch
 received : L'.received = L.received
 consumed : L'.consumed = L.consumed
 ring : L'.ring = L.ring
 onset : L'.speechOnset = L.speechOnset

theorem Recognizes.synced {L' : Listener Sample} (r : Recognizes L L') (h : Synced L) :
  Synced L' := by
 obtain ⟨recognizing, hcourse⟩ := r.course
 exact
  { orderly := r.orderly
    received := by rw [hcourse, r.received]; exact h.received
    ring := by rw [hcourse, r.ring]; exact h.ring
    used := by rw [hcourse, r.consumed]; exact h.used
    nonneg := by rw [r.consumed]; exact h.nonneg
    consumed := by rw [r.consumed, r.received]; exact h.consumed
    onset := by rw [r.onset, r.received]; exact h.onset
    epoch := by rw [hcourse, r.epoch]; exact h.epoch }

theorem Recognizes.quiet {L' : Listener Sample} (r : Recognizes L L') (h : Quiet L) : Quiet L' := by
 obtain ⟨recognizing, hcourse⟩ := r.course
 exact ⟨by rw [hcourse, r.epoch]; exact h.stage, by rw [hcourse, r.consumed]; exact h.audioMs⟩

theorem Recognizes.inCycle {L' : Listener Sample} {stage : Stage} (r : Recognizes L L')
  (h : InCycle stage L) : InCycle stage L' := by
 obtain ⟨recognizing, hcourse⟩ := r.course
 exact ⟨by rw [hcourse, r.epoch]; exact h.epoch, by rw [hcourse]; exact h.stage,
  by rw [hcourse, r.received]; exact h.audioMs⟩

theorem recognizes_beginFrom (h : Synced L) (hc : Closed L) {fromSample : ℤ}
  (hfrom : fromSample ≤ L.received) :
  Recognizes L (L.beginFrom fromSample) ∧ Opened L.received (L.beginFrom fromSample) := by
 have hlen := h.received
 have hused := h.used
 have hnonneg := h.nonneg
 have hconsumed := h.consumed
 have hsize : (0 : ℤ) ≤ kRingSamples := by decide
 unfold Listener.beginFrom
 generalize hstart : max (max fromSample L.consumed) (max (L.received - kRingSamples) 0) = start
 have hlow : L.consumed ≤ start ∧ 0 ≤ start ∧ L.received ≤ start + kRingSamples := by omega
 have hhigh : start ≤ L.received := by omega
 have hbegun : (courseOf L.trace).Allows (.beginUtterance L.hotwords start) :=
  ⟨hc, hused.trans hlow.1, hlow.2.1, by rw [hlen]; exact hhigh, by rw [hlen]; exact hlow.2.2⟩
 have hgiven : (courseOf (L.trace ++ [.beginUtterance L.hotwords start])).Allows
   (.recognize (L.recallFrom start)) := by
  rw [courseOf_append]
  exact ⟨start, start, rfl, recall_eq h hlow.2.1 hlow.2.2⟩
 have hcourse : courseOf (L.trace ++ [.beginUtterance L.hotwords start] ++
   [.recognize (L.recallFrom start)]) =
    { courseOf L.trace with recognizing := some (start, L.received) } := by
  rw [courseOf_append, courseOf_append, ← hlen]
  rfl
 exact ⟨⟨⟨_, hcourse⟩, (h.orderly.append hbegun).append hgiven, rfl, rfl, rfl, rfl, rfl⟩,
  congrArg Course.recognizing hcourse, hhigh⟩

theorem recognizes_act {a : Action Sample} (h : Synced L) (hallow : (courseOf L.trace).Allows a)
  {recognizing : Option (ℤ × ℤ)}
  (hafter : (courseOf L.trace).after a = { courseOf L.trace with recognizing }) :
  Recognizes L (L.act a) where
 course := ⟨recognizing, by rw [← hafter]; exact courseOf_append L.trace a⟩
 orderly := h.orderly.append hallow
 epoch := rfl
 received := rfl
 consumed := rfl
 ring := rfl
 onset := rfl

theorem recognizes_finish (h : Synced L) (ho : Opened L.received L) :
  Recognizes L (L.act .finish) ∧ Closed (L.act .finish) := by
 refine ⟨recognizes_act h ⟨L.utteranceFrom, ?_⟩ rfl, ?_⟩
 · rw [h.received]
   exact ho.given
 · simp [Closed, Listener.act, Course.after]

theorem recognizes_abandon {stop : ℤ} (h : Synced L) (ho : Opened stop L) :
  Recognizes L (L.act .abandonUtterance) ∧ Closed (L.act .abandonUtterance) := by
 refine ⟨recognizes_act h ?_ rfl, ?_⟩
 · simp [Course.Allows, ho.given]
 · simp [Closed, Listener.act, Course.after]

theorem recognizes_partialResult (h : Synced L) (ho : Opened L.received L) :
  Recognizes L (L.act .partialResult) ∧ Opened L.received (L.act .partialResult) := by
 refine ⟨recognizes_act h ⟨L.utteranceFrom, ?_⟩ rfl, ?_, ho.start⟩
 · rw [h.received]
   exact ho.given
 · simpa [Listener.act, Course.after] using ho.given

theorem recognizes_recognize (h : Synced L) {samples old : List Sample}
  (hheard : (courseOf L.trace).heard = old ++ samples) (ho : Opened old.length L) :
  Recognizes L (L.act (.recognize samples)) ∧ Opened L.received (L.act (.recognize samples)) := by
 refine ⟨recognizes_act h ⟨L.utteranceFrom, old.length, ho.given, ?_⟩ rfl, ?_, ho.start⟩
 · simp [hheard]
 · simp [Listener.act, Course.after, ho.given, h.received]

end Recognizer

/-! ## The parts of a step -/

section Parts

variable (env : Environment Sample) {L : Listener Sample}

variable {said : ℤ}

theorem wake_written (h : Synced L) (hq : Quiet L) (hlow : L.consumed ≤ said)
  (hhigh : said ≤ L.received) :
  Synced (L.emit (wakeEvent (L.timeAt said))) ∧
   InCycle .woken (L.emit (wakeEvent (L.timeAt said))) :=
 ⟨h.emit rfl (hq.audioMs.trans (msOf_mono hlow)) (by rw [hq.stage]; rfl) (by simp [wakeEvent]),
  inCycle_emit rfl (msOf_mono hhigh) rfl⟩

theorem start_written_woken (h : Synced L) (hw : InCycle .woken L)
  (hlow : (courseOf L.trace).audioMs ≤ msOf said) (hhigh : said ≤ L.received) :
  Synced (L.emit (speechStartEvent (L.timeAt said))) ∧
   InCycle .speaking (L.emit (speechStartEvent (L.timeAt said))) :=
 ⟨h.emit rfl hlow (by rw [hw.stageIn]; rfl) (by simp [speechStartEvent]),
  inCycle_emit rfl (msOf_mono hhigh) rfl⟩

theorem start_written_quiet (h : Synced L) (hq : Quiet L) (hrequired : L.config.wakeRequired = false) :
  Synced (L.emit (speechStartEvent L.now)) ∧ InCycle .speaking (L.emit (speechStartEvent L.now)) :=
 ⟨h.emit rfl (hq.audioMs.trans (msOf_mono h.consumed))
   (by rw [hq.stage, hrequired]; rfl) (by simp [speechStartEvent]),
  inCycle_emit rfl le_rfl rfl⟩

theorem settled_afterWake (h : Synced L) (hw : InCycle .woken L) (hc : Closed L) {fromSample : ℤ}
  (hfrom : fromSample ≤ L.received) :
  Settled { L.beginFrom fromSample with state := .afterWake } := by
 obtain ⟨hbegun, hopened⟩ := recognizes_beginFrom h hc hfrom
 have hstate : Kept (L.beginFrom fromSample) { L.beginFrom fromSample with state := .afterWake } :=
  ⟨rfl, id, rfl, rfl, rfl, rfl, rfl, id⟩
 exact ⟨hstate.synced (hbegun.synced h), hstate.inCycle (hbegun.inCycle hw),
  hstate.opened hopened⟩

theorem settled_utterance (h : Synced L) (hs : InCycle .speaking L) (hc : Closed L)
  {fromSample : ℤ} (hfrom : fromSample ≤ L.received) :
  Settled { L.beginFrom fromSample with state := .utterance } := by
 obtain ⟨hbegun, hopened⟩ := recognizes_beginFrom h hc hfrom
 have hstate : Kept (L.beginFrom fromSample) { L.beginFrom fromSample with state := .utterance } :=
  ⟨rfl, id, rfl, rfl, rfl, rfl, rfl, id⟩
 exact ⟨hstate.synced (hbegun.synced h), hstate.inCycle (hbegun.inCycle hs),
  hstate.opened hopened⟩

theorem settled_onWake (h : Synced L) (hq : Quiet L) (hc : Closed L)
  (hlow : L.consumed ≤ said) (hhigh : said ≤ L.received) : Settled (L.onWake said) := by
 have hkept : Kept L { L with wakeAt := said } := ⟨rfl, id, rfl, rfl, rfl, rfl, rfl, id⟩
 obtain ⟨hsynced, hwoken⟩ := wake_written (hkept.synced h) (hkept.quiet hq) hlow hhigh
 have honset := h.onset
 refine settled_afterWake hsynced hwoken (hkept.closed hc).emit ?_
 dsimp only [kWakePrerollSamples, kPrerollSamples, kSampleRate, Listener.emit, Listener.act]
 split_ifs <;> omega

theorem settled_final (h : Synced L) {stage : Stage} (hs : InCycle stage L)
  (hallow : stage.allows .final L.config.wakeRequired = true) (hc : Closed L) (text : Bytes)
  (confidence : ℚ) :
  Settled (Listener.toBaseState
   { L.emit (finalEvent env.cleanEventText L.now text confidence) with consumed := L.received }) := by
 have hfinal := h.emitFinal (e := finalEvent env.cleanEventText L.now text confidence) rfl
  hs.audioMs (by rw [hs.stageIn]; exact hallow) hc
 have hquiet : InCycle .quiet (L.emit (finalEvent env.cleanEventText L.now text confidence)) :=
  inCycle_emit rfl le_rfl rfl
 exact settled_toBaseState hfinal ⟨hquiet.stageIn, hquiet.audioMs⟩ hc.emit

theorem settled_endUtterance (h : Synced L) (hs : InCycle .speaking L) (hc : Closed L)
  (result : RecognizerResult) : Settled (L.endUtterance env result) := by
 have hend := h.emit (e := speechEndEvent L.now) rfl hs.audioMs
  (by rw [hs.stageIn]; rfl) (by simp [speechEndEvent])
 have hended : InCycle .ended (L.emit (speechEndEvent L.now)) := inCycle_emit rfl le_rfl rfl
 exact settled_final env hend hended rfl hc.emit _ _

theorem settled_finishUtterance (h : Synced L) (hs : InCycle .speaking L)
  (ho : Opened L.received L) : Settled (L.finishUtterance env) := by
 obtain ⟨hfinish, hclosed⟩ := recognizes_finish h ho
 exact settled_endUtterance env (hfinish.synced h) (hfinish.inCycle hs) hclosed _

theorem settled_endWithoutCommand (h : Synced L) (hw : InCycle .woken L)
  (hrecognizer : if L.state = .afterWake then Opened L.received L else Closed L) :
  Settled (L.endWithoutCommand env) := by
 unfold Listener.endWithoutCommand
 by_cases hstate : L.state = .afterWake
 · rw [if_pos hstate] at hrecognizer ⊢
   obtain ⟨habandon, hclosed⟩ := recognizes_abandon h hrecognizer
   exact settled_final env (habandon.synced h) (habandon.inCycle hw) rfl hclosed _ _
 · rw [if_neg hstate] at hrecognizer ⊢
   exact settled_final env h hw rfl hrecognizer _ _

/-- What a `partial` leaves as it was. -/
structure Spoken (L L' : Listener Sample) : Prop where
 synced : Synced L'
 inCycle : InCycle .speaking L'
 opened : Opened L.received L → Opened L.received L'
 state : L'.state = L.state
 received : L'.received = L.received

theorem spoken_emitPartial (h : Synced L) (hs : InCycle .speaking L) (result : RecognizerResult) :
  Spoken L (L.emitPartial env result) := by
 unfold Listener.emitPartial
 have hkept : Kept L { L with lastPartial := result.text } := ⟨rfl, id, rfl, rfl, rfl, rfl, rfl, id⟩
 split
 · exact ⟨h, hs, id, rfl, rfl⟩
 · dsimp only
   split
   · exact ⟨hkept.synced h, hkept.inCycle hs, hkept.opened, rfl, rfl⟩
   · have hs' := hkept.inCycle hs
     refine ⟨(hkept.synced h).emit rfl hs'.audioMs (by rw [hs'.stageIn]; rfl) (by simp [partialEvent]),
      inCycle_emit rfl le_rfl ?_, fun ho => (hkept.opened ho).emit, rfl, rfl⟩
     rw [hs'.stageIn]
     rfl

theorem settled_emitPartial (h : Synced L) (hs : InCycle .speaking L) (ho : Opened L.received L)
  (hstate : L.state = .utterance) (result : RecognizerResult) :
  Settled (L.emitPartial env result) := by
 have hspoken := spoken_emitPartial env h hs result
 have hopened := hspoken.opened ho
 rw [← hspoken.received] at hopened
 exact settled_of hspoken.synced (hspoken.state.trans hstate) ⟨hspoken.inCycle, hopened⟩

theorem audioMs_emit (event : HelperEvent) :
  (courseOf (L.emit event).trace).audioMs = event.audioMs := by
 simp [Listener.emit, Listener.act, Course.after]

variable {whole : Bool}

theorem settled_heardSpeech (h : Synced L) (hw : InCycle .woken L)
  (hrecognizer : if whole then Closed L else Opened L.received L) (result : RecognizerResult)
  (hlow : (courseOf L.trace).audioMs ≤ msOf said) (hhigh : said ≤ L.received) :
  Settled (if whole then (L.emit (speechStartEvent (L.timeAt said))).endUtterance env result
   else { L.emit (speechStartEvent (L.timeAt said)) with state := .utterance }.emitPartial env
    result) := by
 obtain ⟨hsynced, hspeaking⟩ := start_written_woken h hw hlow hhigh
 cases whole with
 | true => exact settled_endUtterance env hsynced hspeaking (Closed.emit hrecognizer) _
 | false =>
  have hopened : Opened L.received (L.emit (speechStartEvent (L.timeAt said))) :=
   Opened.emit hrecognizer
  have hreceived : (L.emit (speechStartEvent (L.timeAt said))).received = L.received := rfl
  generalize L.emit (speechStartEvent (L.timeAt said)) = M at *
  have hstate : Kept M { M with state := .utterance } := ⟨rfl, id, rfl, rfl, rfl, rfl, rfl, id⟩
  rw [← hreceived] at hopened
  exact settled_emitPartial env (hstate.synced hsynced) (hstate.inCycle hspeaking)
   (hstate.opened hopened) rfl _

theorem settled_awaitCommand (h : Synced L) (hw : InCycle .woken L) (hc : Closed L) :
  Settled { L with consumed := L.received, lastPartial := [], state := .awaitCommand } :=
 ⟨⟨h.orderly, h.received, h.ring, h.used.trans h.consumed, h.nonneg.trans h.consumed, le_rfl,
  h.onset, h.epoch⟩, ⟨hw.epoch, hw.stage, hw.audioMs⟩, hc⟩

theorem settled_heardWake (h : Synced L) (hq : Quiet L)
  (hrecognizer : if whole then Closed L else Opened L.received L) (result : RecognizerResult)
  {words : ℕ} (hwords : whole = true ∨ countWords result.text > words)
  (hlow : L.consumed ≤ said) (hhigh : said ≤ L.received) {M : Listener Sample}
  (hM : M = L.emit (wakeEvent (L.timeAt said))) :
  Settled (if countWords result.text ≤ words then
   { M with consumed := M.received, lastPartial := [], state := .awaitCommand }
  else if whole then (M.emit (speechStartEvent (M.timeAt said))).endUtterance env result
  else { M.emit (speechStartEvent (M.timeAt said)) with state := .utterance }.emitPartial env
   result) := by
 obtain ⟨hsynced, hwoken⟩ := wake_written h hq hlow hhigh
 have hms : (courseOf M.trace).audioMs ≤ msOf said := by
  rw [hM, audioMs_emit]
  exact le_rfl
 have hreceived : M.received = L.received := by rw [hM]; rfl
 have hrec : if whole then Closed M else Opened M.received M := by
  rw [hreceived, hM]
  cases whole with
  | true => exact Closed.emit hrecognizer
  | false => exact Opened.emit hrecognizer
 rw [← hM] at hsynced hwoken
 split
 · next hphrase =>
   -- only a finished utterance says so
   obtain rfl : whole = true := hwords.resolve_right (by omega)
   exact settled_awaitCommand hsynced hwoken hrec
 · exact settled_heardSpeech env hsynced hwoken hrec result hms (by rw [hreceived]; exact hhigh)

theorem phraseEnd_bounds (h : Synced L) (hstart : L.utteranceFrom ≤ L.received)
  (result : RecognizerResult) (words : ℕ) :
  L.consumed ≤ L.phraseEnd result words ∧ L.phraseEnd result words ≤ L.received := by
 have hconsumed := h.consumed
 unfold Listener.phraseEnd
 dsimp only
 split_ifs <;> omega

theorem settled_onHeardWake (h : Synced L) (hq : Quiet L) (hstart : L.utteranceFrom ≤ L.received)
  (hrecognizer : if whole then Closed L else Opened L.received L)
  (result : RecognizerResult) {words : ℕ}
  (hwords : whole = true ∨ countWords result.text > words) :
  Settled (L.onHeardWake env result words whole) := by
 have hbounds := phraseEnd_bounds h hstart result words
 unfold Listener.onHeardWake
 dsimp only
 generalize L.phraseEnd result words = said at *
 have hkept : Kept L { L with wakeAt := said, wakeWords := words } :=
  ⟨rfl, id, rfl, rfl, rfl, rfl, rfl, id⟩
 have hrec : if whole then Closed { L with wakeAt := said, wakeWords := words }
   else Opened L.received { L with wakeAt := said, wakeWords := words } := by
  cases whole with
  | true => exact hkept.closed hrecognizer
  | false => exact hkept.opened hrecognizer
 exact settled_heardWake env (hkept.synced h) (hkept.quiet hq) hrec result hwords hbounds.1
  hbounds.2 rfl

theorem settled_stopHearing (h : Synced L) (hq : Quiet L) (ho : Opened L.received L)
  (hrequired : L.config.wakeRequired = true) : Settled L.stopHearing := by
 obtain ⟨habandon, hclosed⟩ := recognizes_abandon h ho
 have hkept : Kept (L.act .abandonUtterance) L.stopHearing :=
  ⟨rfl, id, rfl, rfl, rfl, rfl, rfl, id⟩
 exact ⟨hkept.synced (habandon.synced h), hkept.quiet (habandon.quiet hq), hkept.closed hclosed,
  hrequired⟩

theorem settled_onHeard (whole : Bool) (h : Synced L) (hq : Quiet L)
  (hstart : L.utteranceFrom ≤ L.received) (hrecognizer : if whole then Closed L else Opened L.received L)
  (hstate : L.state = .hearing) (hrequired : L.config.wakeRequired = true)
  (result : RecognizerResult) : Settled (L.onHeard env result whole) := by
 unfold Listener.onHeard
 dsimp only
 split
 · next hphrase => exact settled_onHeardWake env h hq hstart hrecognizer result hphrase.2
 · cases whole with
   | true =>
    have hconsumed : Synced { L with consumed := L.received } :=
     ⟨h.orderly, h.received, h.ring, h.used.trans h.consumed, h.nonneg.trans h.consumed, le_rfl,
      h.onset, h.epoch⟩
    exact settled_toBaseState hconsumed ⟨hq.stage, hq.audioMs.trans (msOf_mono h.consumed)⟩
     hrecognizer
   | false =>
    simp only [Bool.false_eq_true, if_false] at hrecognizer ⊢
    split
    · exact settled_stopHearing h hq hrecognizer hrequired
    · exact settled_of h hstate ⟨hq, hrecognizer, hrequired⟩

end Parts

/-! ## Steps -/

section Steps

variable (env : Environment Sample) {L : Listener Sample}

structure Detected (samples : List Sample) (L M : Listener Sample) : Prop where
 synced : Synced M
 heard : (courseOf M.trace).heard = (courseOf L.trace).heard ++ samples
 quiet : Quiet L → Quiet M
 inCycle : ∀ stage, InCycle stage L → InCycle stage M
 closed : Closed L → Closed M
 opened : Opened L.received L → Opened (courseOf L.trace).heard.length M
 state : M.state = L.state
 config : M.config = L.config
 received : L.received ≤ M.received

theorem detected (h : Synced L) (samples : List Sample) :
  Detected samples L (L.detect env samples).2 := by
 have hcourse : courseOf (L.trace ++ [.detect samples]) =
   { courseOf L.trace with heard := (courseOf L.trace).heard ++ samples } :=
  courseOf_append _ _
 have hlen := h.received
 have hconsumed := h.consumed
 have honset := h.onset
 have hnonneg := h.nonneg
 unfold Listener.detect
 dsimp only [Listener.remember, Listener.act]
 refine ⟨?_, by rw [hcourse], fun hq => ?_, fun stage hs => ?_, fun hc => ?_, fun ho => ?_, rfl, rfl,
  by dsimp only; omega⟩
 · exact
    { orderly := h.orderly.append trivial
      received := by
       rw [hcourse, List.length_append]
       push_cast
       rw [hlen]
      ring := by
       rw [hcourse]
       exact h.ring.remember samples
      used := by
       rw [hcourse]
       exact h.used
      nonneg := hnonneg
      consumed := by
       dsimp only
       omega
      onset := by
       dsimp only
       split_ifs <;> omega
      epoch := by
       rw [hcourse]
       exact h.epoch }
 · exact ⟨by rw [hcourse]; exact hq.stage, by rw [hcourse]; exact hq.audioMs⟩
 · exact ⟨by rw [hcourse]; exact hs.epoch, by rw [hcourse]; exact hs.stage,
    by rw [hcourse]; exact hs.audioMs.trans (msOf_mono (by dsimp only; omega))⟩
 · rw [Closed, hcourse]
   exact hc
 · refine ⟨?_, ?_⟩
   · rw [hcourse, hlen]
     exact ho.given
   · have hstart := ho.start
     dsimp only
     omega

variable {stepStart : ℤ}

theorem onset_le (h : Synced L) (hstep : stepStart ≤ L.received) :
  L.onset stepStart - kPrerollSamples ≤ L.received := by
 have honset := h.onset
 unfold Listener.onset
 dsimp only [kPrerollSamples, kSampleRate]
 split_ifs <;> omega

theorem settled_startUtterance (h : Synced (L.emit (speechStartEvent L.now)))
  (hs : InCycle .speaking (L.emit (speechStartEvent L.now))) (hc : Closed L)
  (hstep : stepStart ≤ L.received) : Settled (L.startUtterance stepStart) :=
 settled_utterance h hs hc.emit (onset_le h hstep)

theorem settled_stepWaitWake (h : Synced L) (hq : Quiet L) (hc : Closed L)
  (hrequired : L.config.wakeRequired = true) (hstate : L.state = .waitWake)
  (hstep : stepStart ≤ L.received) (samples : List Sample) (vad : VadUpdate) :
  Settled (L.stepWaitWake env samples stepStart vad) := by
 have hspot : Kept L (L.spot env samples).2 := kept_spot env samples
 have hconfig : (L.spot env samples).2.config.wakeRequired = true := hrequired
 have hstate' : (L.spot env samples).2.state = .waitWake := hstate
 unfold Listener.stepWaitWake
 rw [← hspot.received] at hstep
 replace h := hspot.synced h
 replace hq := hspot.quiet hq
 replace hc := hspot.closed hc
 generalize L.spot env samples = answer at *
 obtain ⟨fired, M⟩ := answer
 dsimp only at *
 split
 · exact settled_onWake h hq hc h.consumed le_rfl
 · split
   · have hkept : Kept M { M with heardOff := false } := ⟨rfl, id, rfl, rfl, rfl, rfl, rfl, id⟩
     exact settled_of (hkept.synced h) hstate' ⟨hkept.quiet hq, hkept.closed hc, hconfig⟩
   · split
     · obtain ⟨hbegun, hopened⟩ := recognizes_beginFrom h hc (onset_le h hstep)
       have hkept : Kept (M.beginFrom (M.onset stepStart - kPrerollSamples))
         { M.beginFrom (M.onset stepStart - kPrerollSamples) with state := .hearing } :=
        ⟨rfl, id, rfl, rfl, rfl, rfl, rfl, id⟩
       exact ⟨hkept.synced (hbegun.synced h), hkept.quiet (hbegun.quiet hq), hkept.opened hopened,
        hconfig⟩
     · exact settled_of h hstate' ⟨hq, hc, hconfig⟩

variable {samples old : List Sample}

theorem settled_stepHearing (h : Synced L) (hq : Quiet L)
  (hheard : (courseOf L.trace).heard = old ++ samples) (ho : Opened old.length L)
  (hrequired : L.config.wakeRequired = true) (hstate : L.state = .hearing) (vad : VadUpdate) :
  Settled (L.stepHearing env samples vad) := by
 have hspot : Kept L (L.spot env samples).2 := kept_spot env samples
 have hconfig : (L.spot env samples).2.config.wakeRequired = true := hrequired
 have hstate' : (L.spot env samples).2.state = .hearing := hstate
 unfold Listener.stepHearing
 rw [← hspot.course] at hheard
 replace h := hspot.synced h
 replace hq := hspot.quiet hq
 replace ho := hspot.opened ho
 generalize L.spot env samples = answer at *
 obtain ⟨fired, M⟩ := answer
 dsimp only at *
 split
 · obtain ⟨habandon, hclosed⟩ := recognizes_abandon h ho
   exact settled_onWake (habandon.synced h) (habandon.quiet hq) hclosed h.consumed le_rfl
 · obtain ⟨hrecognize, hopened⟩ := recognizes_recognize h hheard ho
   replace h := hrecognize.synced h
   replace hq := hrecognize.quiet hq
   split
   · obtain ⟨hfinish, hclosed⟩ := recognizes_finish h hopened
     exact settled_onHeard env true (hfinish.synced h) (hfinish.quiet hq) hopened.start hclosed hstate'
      hconfig _
   · obtain ⟨hheard, hopened'⟩ := recognizes_partialResult h hopened
     exact settled_onHeard env false (hheard.synced h) (hheard.quiet hq) hopened.start hopened'
      hstate' hconfig _

theorem settled_stepOpen (h : Synced L) (hq : Quiet L) (hc : Closed L)
  (hrequired : L.config.wakeRequired = false) (hstate : L.state = .isOpen)
  (hstep : stepStart ≤ L.received) (vad : VadUpdate) : Settled (L.stepOpen stepStart vad) := by
 unfold Listener.stepOpen
 split
 · obtain ⟨hsynced, hspeaking⟩ := start_written_quiet h hq hrequired
   exact settled_startUtterance hsynced hspeaking hc hstep
 · exact settled_of h hstate ⟨hq, hc, hrequired⟩

theorem settled_wakeSpeechEnded (h : Synced L) (hw : InCycle .woken L) (ho : Opened L.received L) :
  Settled (L.wakeSpeechEnded env) := by
 obtain ⟨hfinish, hclosed⟩ := recognizes_finish h ho
 unfold Listener.wakeSpeechEnded
 dsimp only
 replace h := hfinish.synced h
 replace hw := hfinish.inCycle hw
 generalize L.act .finish = M at *
 have hsynced : Synced { M with consumed := M.received, lastPartial := [] } :=
  ⟨h.orderly, h.received, h.ring, h.used.trans h.consumed, h.nonneg.trans h.consumed, le_rfl,
   h.onset, h.epoch⟩
 have hwoken : InCycle .woken { M with consumed := M.received, lastPartial := [] } :=
  ⟨hw.epoch, hw.stage, hw.audioMs⟩
 split
 · obtain ⟨hstarted, hspeaking⟩ := start_written_woken hsynced hwoken hwoken.audioMs le_rfl
   have hclosed' : Closed { M with consumed := M.received, lastPartial := [] } := hclosed
   exact settled_endUtterance env hstarted hspeaking hclosed'.emit _
 · exact settled_awaitCommand h hw hclosed

theorem settled_afterWakeWords (h : Synced L) (hs : InCycle .speaking L) (ho : Opened L.received L)
  (hstate : L.state = .utterance) (vad : VadUpdate) :
  Settled (if vad.segmentEnded then
   if L.state = .utterance then L.finishUtterance env else L.wakeSpeechEnded env
  else if L.state = .afterWake ∧ L.received - L.wakeAt ≥ kWakeWindowSamples then
   L.endWithoutCommand env
  else L) := by
 split
 · exact settled_finishUtterance env h hs ho
 · rw [if_neg (by simp [hstate])]
   exact settled_of h hstate ⟨hs, ho⟩

theorem settled_afterWakeSilent (h : Synced L) (hw : InCycle .woken L) (ho : Opened L.received L)
  (hstate : L.state = .afterWake) (vad : VadUpdate) :
  Settled (if vad.segmentEnded then
   if L.state = .utterance then L.finishUtterance env else L.wakeSpeechEnded env
  else if L.state = .afterWake ∧ L.received - L.wakeAt ≥ kWakeWindowSamples then
   L.endWithoutCommand env
  else L) := by
 split
 · rw [if_neg (by simp [hstate])]
   exact settled_wakeSpeechEnded env h hw ho
 · split
   · exact settled_endWithoutCommand env h hw (by rw [if_pos hstate]; exact ho)
   · exact settled_of h hstate ⟨hw, ho⟩

theorem settled_stepAfterWake (h : Synced L) (hw : InCycle .woken L)
  (hheard : (courseOf L.trace).heard = old ++ samples) (ho : Opened old.length L)
  (hstate : L.state = .afterWake) (vad : VadUpdate) :
  Settled (L.stepAfterWake env samples vad) := by
 obtain ⟨hrecognize, hopened⟩ := recognizes_recognize h hheard ho
 have hsynced := hrecognize.synced h
 obtain ⟨hheard, hopened'⟩ := recognizes_partialResult hsynced hopened
 replace h := hheard.synced hsynced
 replace hw := hheard.inCycle (hrecognize.inCycle hw)
 have hstate' : ((L.act (.recognize samples)).act .partialResult).state = .afterWake := hstate
 have hopened'' : Opened ((L.act (.recognize samples)).act .partialResult).received
  ((L.act (.recognize samples)).act .partialResult) := hopened'
 unfold Listener.stepAfterWake
 dsimp only
 generalize (L.act (.recognize samples)).act .partialResult = M at *
 by_cases hwords : M.hasWordsAfterWake env (env.partialResult M.trace) false = true
 · rw [if_pos hwords]
   obtain ⟨hstarted, hspeaking⟩ := start_written_woken h hw hw.audioMs le_rfl
   have hgiven : Opened M.received (M.emit (speechStartEvent (M.timeAt M.received))) :=
    hopened''.emit
   have hkept : Kept (M.emit (speechStartEvent M.now))
     { M.emit (speechStartEvent M.now) with state := .utterance } :=
    ⟨rfl, id, rfl, rfl, rfl, rfl, rfl, id⟩
   have hspoken := spoken_emitPartial env (hkept.synced hstarted) (hkept.inCycle hspeaking)
    (env.partialResult M.trace)
   have hstill := hspoken.opened (hkept.opened hgiven)
   rw [← hspoken.received] at hstill
   exact settled_afterWakeWords env hspoken.synced hspoken.inCycle hstill hspoken.state vad
 · rw [if_neg hwords]
   exact settled_afterWakeSilent env h hw hopened'' hstate' vad

theorem settled_stepAwaitCommand (h : Synced L) (hw : InCycle .woken L) (hc : Closed L)
  (hstate : L.state = .awaitCommand) (hstep : stepStart ≤ L.received)
  (vad : VadUpdate) : Settled (L.stepAwaitCommand env stepStart vad) := by
 unfold Listener.stepAwaitCommand
 split
 · obtain ⟨hsynced, hspeaking⟩ := start_written_woken h hw hw.audioMs le_rfl
   exact settled_startUtterance hsynced hspeaking hc hstep
 · split
   · exact settled_endWithoutCommand env h hw (by rw [if_neg (by simp [hstate])]; exact hc)
   · exact settled_of h hstate ⟨hw, hc⟩

theorem settled_stepUtterance (h : Synced L) (hs : InCycle .speaking L)
  (hheard : (courseOf L.trace).heard = old ++ samples) (ho : Opened old.length L)
  (hstate : L.state = .utterance) (vad : VadUpdate) :
  Settled (L.stepUtterance env samples vad) := by
 obtain ⟨hrecognize, hopened⟩ := recognizes_recognize h hheard ho
 have hsynced := hrecognize.synced h
 obtain ⟨hheard, hopened'⟩ := recognizes_partialResult hsynced hopened
 have hspoken := spoken_emitPartial env (hheard.synced hsynced)
  (hheard.inCycle (hrecognize.inCycle hs))
  (env.partialResult ((L.act (.recognize samples)).act .partialResult).trace)
 have hstill := hspoken.opened hopened'
 rw [← hspoken.received] at hstill
 have hstate' : ((L.act (.recognize samples)).act .partialResult).state = .utterance := hstate
 unfold Listener.stepUtterance
 dsimp only
 split
 · exact settled_finishUtterance env hspoken.synced hspoken.inCycle hstill
 · exact settled_of hspoken.synced (hspoken.state.trans hstate') ⟨hspoken.inCycle, hstill⟩

theorem settled_step (h : Settled L) (samples : List Sample) : Settled (L.step env samples) := by
 have hd := detected env h.synced samples
 have hmatch := h.matching
 unfold Listener.step
 dsimp only
 generalize L.detect env samples = answer at *
 obtain ⟨vad, M⟩ := answer
 dsimp only at *
 rw [← hd.state] at hmatch
 cases hstate : M.state with
 | waitWake =>
  rw [hstate] at hmatch
  exact settled_stepWaitWake env hd.synced (hd.quiet hmatch.1) (hd.closed hmatch.2.1) 
   (by rw [hd.config]; exact hmatch.2.2) hstate hd.received samples vad
 | hearing =>
  rw [hstate] at hmatch
  exact settled_stepHearing env hd.synced (hd.quiet hmatch.1) hd.heard (hd.opened hmatch.2.1)
   (by rw [hd.config]; exact hmatch.2.2) hstate vad
 | isOpen =>
  rw [hstate] at hmatch
  exact settled_stepOpen hd.synced (hd.quiet hmatch.1) (hd.closed hmatch.2.1)
   (by rw [hd.config]; exact hmatch.2.2) hstate hd.received vad
 | afterWake =>
  rw [hstate] at hmatch
  exact settled_stepAfterWake env hd.synced (hd.inCycle _ hmatch.1) hd.heard (hd.opened hmatch.2)
   hstate vad
 | awaitCommand =>
  rw [hstate] at hmatch
  exact settled_stepAwaitCommand env hd.synced (hd.inCycle _ hmatch.1) (hd.closed hmatch.2) hstate
   hd.received vad
 | utterance =>
  rw [hstate] at hmatch
  exact settled_stepUtterance env hd.synced (hd.inCycle _ hmatch.1) hd.heard (hd.opened hmatch.2)
   hstate vad

end Steps

/-! ## Runs -/

theorem flatten_chunks {α : Type} (samples : List α) (size n : ℕ) :
  ((List.range n).map fun i => (samples.drop (size * i)).take size).flatten =
   samples.take (size * n) := by
 induction n with
 | zero => simp
 | succ n ih =>
  rw [List.range_succ, List.map_append, List.flatten_append, ih, Nat.mul_succ, List.take_add]
  simp

theorem stepsOf_flatten {α : Type} (samples : List α) : (stepsOf samples).flatten = samples := by
 unfold stepsOf
 rw [flatten_chunks, List.take_of_length_le]
 simp only [kStepSamples]
 omega

section Runs

variable (env : Environment Sample) {L L' : Listener Sample}

theorem Kept.settled (k : Kept L L') (hstate : L'.state = L.state)
  (hrequired : L'.config.wakeRequired = L.config.wakeRequired) (h : Settled L) : Settled L' := by
 refine settled_of (k.synced h.synced) hstate ?_
 have hmatch := h.matching
 have hreceived := k.received
 cases hL : L.state <;> rw [hL] at hmatch
 case waitWake =>
  exact ⟨k.quiet hmatch.1, k.closed hmatch.2.1, hrequired.trans hmatch.2.2⟩
 case hearing =>
  exact ⟨k.quiet hmatch.1, by rw [hreceived]; exact k.opened hmatch.2.1,
   hrequired.trans hmatch.2.2⟩
 case isOpen => exact ⟨k.quiet hmatch.1, k.closed hmatch.2.1, hrequired.trans hmatch.2.2⟩
 case afterWake => exact ⟨k.inCycle hmatch.1, by rw [hreceived]; exact k.opened hmatch.2⟩
 case awaitCommand => exact ⟨k.inCycle hmatch.1, k.closed hmatch.2⟩
 case utterance => exact ⟨k.inCycle hmatch.1, by rw [hreceived]; exact k.opened hmatch.2⟩

theorem Quiet.audioMs_le (h : Synced L) (hq : Quiet L) :
  (courseOf L.trace).audioMs ≤ msOf L.received :=
 hq.audioMs.trans (msOf_mono h.consumed)

theorem Settled.recognizer (h : Settled L) : (courseOf L.trace).audioMs ≤ msOf L.received ∧
  if L.state = .afterWake ∨ L.state = .utterance ∨ L.state = .hearing then
   Opened L.received L else Closed L := by
 have hmatch := h.matching
 cases hstate : L.state <;> rw [hstate] at hmatch
 case waitWake => exact ⟨hmatch.1.audioMs_le h.synced, by simpa using hmatch.2.1⟩
 case hearing => exact ⟨hmatch.1.audioMs_le h.synced, by simpa using hmatch.2.1⟩
 case isOpen => exact ⟨hmatch.1.audioMs_le h.synced, by simpa using hmatch.2.1⟩
 case afterWake => exact ⟨hmatch.1.audioMs, by simpa using hmatch.2⟩
 case awaitCommand => exact ⟨hmatch.1.audioMs, by simpa using hmatch.2⟩
 case utterance => exact ⟨hmatch.1.audioMs, by simpa using hmatch.2⟩

theorem settled_feed (h : Settled L) (samples : List Sample) : Settled (L.feed env samples) :=
 run_invariant_unconditional (I := Settled) (fun _ step hs => settled_step env hs step) h
  (stepsOf samples)

theorem settled_afterReset (h : Synced L) (hc : Closed L)
  (hms : (courseOf L.trace).audioMs ≤ msOf L.received) :
  Settled (Listener.toBaseState { { L with heardOff := false }.act .resetVad with
   vadInSpeech := false
   speechOnset := -1
   consumed := L.received
   epoch := L.epoch + 1 }) := by
 have hflag : Kept L { L with heardOff := false } := ⟨rfl, id, rfl, rfl, rfl, rfl, rfl, id⟩
 have hkept : Kept L ({ L with heardOff := false }.act .resetVad) :=
  hflag.trans (Kept.act (fun _ => rfl) fun _ => trivial)
 have hnonneg := h.nonneg
 have hconsumed := h.consumed
 have hepoch := h.epoch
 have hM := hkept.synced h
 have hM' := hkept.closed hc
 have hms' : (courseOf ({ L with heardOff := false }.act .resetVad).trace).audioMs ≤
   msOf L.received := by rw [hkept.course]; exact hms
 refine settled_toBaseState ?_ ⟨?_, hms'⟩ hM'
 · exact
    { orderly := hM.orderly
      received := hM.received
      ring := hM.ring
      used := hM.used.trans hM.consumed
      nonneg := hnonneg.trans hconsumed
      consumed := le_rfl
      onset := by
       show (-1 : ℤ) ≤ L.received
       omega
      epoch := by
       rw [hkept.course]
       dsimp only
       omega }
 · rw [Course.stageIn, if_pos]
   rw [hkept.course]
   dsimp only
   omega

theorem settled_reset (h : Settled L) : Settled L.reset := by
 obtain ⟨hms, hrecognizer⟩ := h.recognizer
 unfold Listener.reset
 dsimp only
 split
 · next hstate =>
   rw [if_pos hstate] at hrecognizer
   obtain ⟨habandon, hclosed⟩ := recognizes_abandon h.synced hrecognizer
   refine settled_afterReset (habandon.synced h.synced) hclosed ?_
   rw [Listener.act, courseOf_append]
   exact hms
 · next hstate =>
   rw [if_neg hstate] at hrecognizer
   exact settled_afterReset h.synced hrecognizer hms

theorem settled_respotSteps (steps : List (List Sample)) {reached : ℤ} (h : Synced L) (hq : Quiet L)
  (hc : Closed L) (hstate : L.state = .waitWake) (hrequired : L.config.wakeRequired = true)
  (hlow : L.consumed ≤ reached) (hhigh : reached + steps.flatten.length ≤ L.received) :
  Settled (L.respotSteps env reached steps) := by
 induction steps generalizing L reached with
 | nil => exact settled_of h hstate ⟨hq, hc, hrequired⟩
 | cons step rest ih =>
  have hspot : Kept L (L.spot env step).2 := kept_spot env step
  have hstate' : (L.spot env step).2.state = .waitWake := hstate
  have hrequired' : (L.spot env step).2.config.wakeRequired = true := hrequired
  rw [List.flatten_cons, List.length_append] at hhigh
  push_cast at hhigh
  rw [← hspot.received] at hhigh
  rw [← hspot.consumed] at hlow
  rw [Listener.respotSteps]
  replace h := hspot.synced h
  replace hq := hspot.quiet hq
  replace hc := hspot.closed hc
  generalize L.spot env step = answer at *
  obtain ⟨fired, M⟩ := answer
  dsimp only at *
  split
  · exact settled_onWake h hq hc (by omega) (by omega)
  · exact ih h hq hc hstate' hrequired' (by omega) (by omega)

theorem settled_respotRecent (h : Synced L) (hq : Quiet L) (hc : Closed L)
  (hstate : L.state = .waitWake) (hrequired : L.config.wakeRequired = true) :
  Settled (L.respotRecent env) := by
 have hlen := h.received
 have hconsumed := h.consumed
 have hnonneg := h.nonneg
 unfold Listener.respotRecent
 dsimp only
 generalize hfrom : max L.consumed (max (L.received - kRespotSamples) 0) = fromSample
 simp only [kRespotSamples, kSampleRate] at hfrom
 refine settled_respotSteps env _ h hq hc hstate hrequired (by omega) ?_
 rw [stepsOf_flatten, recall_eq h (by omega) (by simp only [kRingSamples]; omega),
  List.length_drop]
 omega

/-- The same listener but for its settings and what it knows of the spotter. -/
structure Unmoved (L L' : Listener Sample) : Prop where
 kept : Kept L L'
 state : L'.state = L.state
 required : L'.config.wakeRequired = L.config.wakeRequired

theorem Unmoved.settled (u : Unmoved L L') (h : Settled L) : Settled L' :=
 u.kept.settled u.state u.required h

theorem Unmoved.refl (L : Listener Sample) : Unmoved L L :=
 ⟨⟨rfl, id, rfl, rfl, rfl, rfl, rfl, id⟩, rfl, rfl⟩

theorem unmoved_applyWakePhrases (phrases : Option (List Bytes)) :
  Unmoved L (L.applyWakePhrases env phrases).2 := by
 unfold Listener.applyWakePhrases
 cases phrases with
 | none => exact Unmoved.refl L
 | some phrases =>
  dsimp only
  cases phrases.mapM env.wakeKeywordLines with
  | none => exact Unmoved.refl L
  | some lines =>
   dsimp only
   split
   · exact ⟨⟨rfl, id, rfl, rfl, rfl, rfl, rfl, id⟩, rfl, rfl⟩
   · have hcleared : Kept L { L with keywordLines := [] } :=
      ⟨rfl, id, rfl, rfl, rfl, rfl, rfl, id⟩
     have hset := hcleared.trans
      (Kept.act (a := .setKeywords lines.flatten) (fun _ => rfl) fun _ => trivial)
     split
     · exact ⟨hset.trans ⟨rfl, id, rfl, rfl, rfl, rfl, rfl, id⟩, rfl, rfl⟩
     · exact ⟨hset, rfl, rfl⟩

theorem unmoved_applyHotwords (hotwords : Option (List Bytes)) :
  Unmoved L (L.applyHotwords env hotwords) := by
 cases hotwords with
 | none => exact Unmoved.refl L
 | some hotwords => exact ⟨⟨rfl, id, rfl, rfl, rfl, rfl, rfl, id⟩, rfl, rfl⟩

theorem unmoved_applyVadSilence (h : Settled L) (ms : Option ℤ) :
  Unmoved L (L.applyVadSilence ms) := by
 have hpos : 0 ≤ L.received := h.synced.nonneg.trans h.synced.consumed
 cases ms with
 | none => exact Unmoved.refl L
 | some ms =>
  have hset : Kept L { L with
    config.vadSilenceMs := ms
    pendingVadMs := if ms = L.vadMs then 0 else ms } := ⟨rfl, id, rfl, rfl, rfl, rfl, rfl, id⟩
  unfold Listener.applyVadSilence
  dsimp only
  split
  · refine ⟨hset.trans (kept_applyPendingVad hpos), ?_, ?_⟩
    · rw [applyPendingVad_state]
    · rw [applyPendingVad_config]
  · exact ⟨hset, rfl, rfl⟩

theorem settled_wakeRequiredSet (h : Settled L) (hset : Kept L L') (hsame : L'.state = L.state) :
  Settled (L'.wakeRequiredSet env) := by
 have hmatch := h.matching
 have hsynced := hset.synced h.synced
 unfold Listener.wakeRequiredSet
 rw [hsame]
 cases hstate : L.state <;> rw [hstate] at hmatch hsame <;>
  simp only [reduceCtorEq, false_and, true_and, if_false]
 case waitWake =>
  cases hrequired : L'.config.wakeRequired with
  | false =>
   have hopen : Kept L' { L' with state := .isOpen } := ⟨rfl, id, rfl, rfl, rfl, rfl, rfl, id⟩
   exact ⟨hopen.synced hsynced, hopen.quiet (hset.quiet hmatch.1),
    hopen.closed (hset.closed hmatch.2.1), hrequired⟩
  | true =>
   exact settled_of hsynced hsame ⟨hset.quiet hmatch.1, hset.closed hmatch.2.1, hrequired⟩
 case hearing =>
  have hopened := hset.opened hmatch.2.1
  rw [← hset.received] at hopened
  cases hrequired : L'.config.wakeRequired with
  | false =>
   obtain ⟨hstarted, hspeaking⟩ := start_written_quiet hsynced (hset.quiet hmatch.1) hrequired
   have hkept : Kept (L'.emit (speechStartEvent L'.now))
     { L'.emit (speechStartEvent L'.now) with state := .utterance } :=
    ⟨rfl, id, rfl, rfl, rfl, rfl, rfl, id⟩
   exact ⟨hkept.synced hstarted, hkept.inCycle hspeaking, hkept.opened hopened.emit⟩
  | true =>
   exact settled_of hsynced hsame ⟨hset.quiet hmatch.1, hopened, hrequired⟩
 case isOpen =>
  cases hrequired : L'.config.wakeRequired with
  | false =>
   exact settled_of hsynced hsame ⟨hset.quiet hmatch.1, hset.closed hmatch.2.1, hrequired⟩
  | true =>
   have hwait : Kept L' { L' with state := .waitWake } := ⟨rfl, id, rfl, rfl, rfl, rfl, rfl, id⟩
   have hkept := hwait.trans (Kept.act (a := .resetSpotter) (fun _ => rfl) fun _ => trivial)
   exact settled_respotRecent env (hkept.synced hsynced) (hkept.quiet (hset.quiet hmatch.1))
    (hkept.closed (hset.closed hmatch.2.1)) rfl hrequired
 case afterWake =>
  exact settled_of hsynced hsame ⟨hset.inCycle hmatch.1, by rw [hset.received]; exact hset.opened hmatch.2⟩
 case awaitCommand =>
  exact settled_of hsynced hsame ⟨hset.inCycle hmatch.1, hset.closed hmatch.2⟩
 case utterance =>
  exact settled_of hsynced hsame ⟨hset.inCycle hmatch.1, by rw [hset.received]; exact hset.opened hmatch.2⟩

theorem settled_applyWakeRequired (h : Settled L) (required : Option Bool) :
  Settled (L.applyWakeRequired env required) := by
 cases required with
 | none => exact h
 | some required =>
  exact settled_wakeRequiredSet env h ⟨rfl, id, rfl, rfl, rfl, rfl, rfl, id⟩ rfl

theorem settled_applyConfig (h : Settled L) (update : ConfigUpdate) :
  Settled (L.applyConfig env update).2 := by
 have hphrases := (unmoved_applyWakePhrases env update.wakePhrases).settled h
 unfold Listener.applyConfig
 dsimp only
 split
 · exact hphrases
 · have hhotwords := (unmoved_applyHotwords env update.hotwords).settled hphrases
   have hvad := (unmoved_applyVadSilence hhotwords update.vadSilenceMs).settled hhotwords
   exact settled_applyWakeRequired env hvad update.wakeRequired

theorem settled_started (silence : Sample) : Settled (started env silence) := by
 have hnew : Synced ({ ring := ⟨fun _ => silence, 0⟩ } : Listener Sample) :=
  { orderly := trivial
    received := rfl
    ring := holds_nil _ _
    used := le_rfl
    nonneg := le_rfl
    consumed := le_rfl
    onset := Int.neg_nonpos_of_nonneg (Int.zero_le_ofNat 1)
    epoch := le_rfl }
 have hsettled : Settled ({ ring := ⟨fun _ => silence, 0⟩ } : Listener Sample) :=
  settled_of (s := .waitWake) hnew rfl ⟨⟨rfl, le_rfl⟩, rfl, rfl⟩
 exact settled_applyConfig env hsettled _

theorem settled_call (h : Settled L) (call : Call Sample) : Settled (L.call env call) := by
 cases call with
 | feed samples => exact settled_feed env h samples
 | applyConfig update => exact settled_applyConfig env h update
 | reset => exact settled_reset h

theorem settled_ran (silence : Sample) (calls : List (Call Sample)) :
  Settled (ran env silence calls) :=
 run_invariant_unconditional (I := Settled) (fun _ call h => settled_call env h call)
  (settled_started env silence) calls

end Runs

end MoltBrowser.SpeechListener
