import MoltBrowser.SpeechListenerCourse

set_option autoImplicit false

/-!
# The order of the helper's events (`voice_listener_protocol.cc`)

The browser's reader of the events and what it accepts: every run of the listener.
-/
namespace MoltBrowser.SpeechListener
open List

open TransitionRuns

structure HelperEventSequence where
 ready : Bool := false
 /-- A `wake` its `final` hasn't answered yet. -/
 wakeOpen : Bool := false
 inUtterance : Bool := false
 ended : Bool := false
 errored : Bool := false
 epoch : ℤ := 0
 audioMs : ℤ := 0

namespace HelperEventSequence

def acceptTyped (q : HelperEventSequence) : HelperEventType → Bool × HelperEventSequence
 | .wake => if q.inUtterance || q.wakeOpen then (false, q) else (true, { q with wakeOpen := true })
 | .speechStart =>
  if q.inUtterance then (false, q) else (true, { q with inUtterance := true, ended := false })
 | .partialText => (q.inUtterance && !q.ended, q)
 | .speechEnd => if !q.inUtterance || q.ended then (false, q) else (true, { q with ended := true })
 | .final =>
  if if q.inUtterance then !q.ended else !q.wakeOpen then (false, q)
  else (true, { q with wakeOpen := false, inUtterance := false, ended := false })
 | .ready => (false, q)
 | .error => (false, q)

/-- A higher epoch: the helper read a RESET, and what was in progress was dropped. -/
def catchUp (q : HelperEventSequence) (event : HelperEvent) : HelperEventSequence :=
 if event.epoch > q.epoch then
  { q with
    wakeOpen := false
    inUtterance := false
    ended := false
    epoch := event.epoch
    audioMs := event.audioMs }
 else { q with epoch := event.epoch, audioMs := event.audioMs }

def accept (q : HelperEventSequence) (event : HelperEvent) (resetsSent : ℤ) :
  Bool × HelperEventSequence :=
 if q.errored then (false, q)
 else if event.type = .error then (true, { q with errored := true })
 else if event.type = .ready then
  if q.ready then (false, q) else (true, { q with ready := true })
 else if !q.ready ∨ event.epoch < q.epoch ∨ event.epoch > resetsSent ∨
   event.audioMs < q.audioMs then (false, q)
 else (q.catchUp event).acceptTyped event.type

def acceptsAll (q : HelperEventSequence) : List (HelperEvent × ℤ) → Bool
 | [] => true
 | (event, resetsSent) :: rest =>
  (q.accept event resetsSent).1 && acceptsAll (q.accept event resetsSent).2 rest

end HelperEventSequence

open HelperEventSequence

/-! ## The reader follows the course -/

def ReadsStage (q : HelperEventSequence) : Stage → Prop
 | .quiet => q.wakeOpen = false ∧ q.inUtterance = false
 | .woken => q.wakeOpen = true ∧ q.inUtterance = false
 | .speaking => q.inUtterance = true ∧ q.ended = false
 | .ended => q.inUtterance = true ∧ q.ended = true

structure Reads {Sample : Type} (c : Course Sample) (q : HelperEventSequence) : Prop where
 ready : q.ready = true
 errored : q.errored = false
 epoch : q.epoch = c.epoch
 audioMs : q.audioMs = c.audioMs
 stage : ReadsStage q c.stage

variable {q : HelperEventSequence}

theorem acceptTyped_of_allows {stage : Stage} {type : HelperEventType}
  {wakeRequired : Bool} (hstage : ReadsStage q stage)
  (hallow : stage.allows type wakeRequired = true) :
  (acceptTyped q type).1 = true ∧ ReadsStage (acceptTyped q type).2 (stage.after type) ∧
   (acceptTyped q type).2.ready = q.ready ∧ (acceptTyped q type).2.errored = q.errored ∧
    (acceptTyped q type).2.epoch = q.epoch ∧ (acceptTyped q type).2.audioMs = q.audioMs := by
 cases stage <;> cases type <;> simp only [Stage.allows, Bool.false_eq_true] at hallow <;>
  obtain ⟨hone, htwo⟩ := hstage <;>
   simp [acceptTyped, ReadsStage, Stage.after, hone, htwo]

variable {Sample : Type}

variable {c : Course Sample}

theorem Reads.emit (h : Reads c q)
  {event : HelperEvent} {wakeRequired : Bool} (hallow : c.Allows (.emit event wakeRequired))
  {resetsSent : ℤ} (hresets : event.epoch ≤ resetsSent) :
  (q.accept event resetsSent).1 = true ∧
   Reads (c.after (.emit event wakeRequired)) (q.accept event resetsSent).2 := by
 obtain ⟨hepoch, hms, hstage, -⟩ := hallow
 have hready : event.type ≠ .ready := by
  intro heq
  rw [heq] at hstage
  cases hs : c.stageIn event.epoch <;> simp [hs, Stage.allows] at hstage
 have herror : event.type ≠ .error := by
  intro heq
  rw [heq] at hstage
  cases hs : c.stageIn event.epoch <;> simp [hs, Stage.allows] at hstage
 have htime : ¬ ((!q.ready) = true ∨ event.epoch < q.epoch ∨ event.epoch > resetsSent ∨
   event.audioMs < q.audioMs) := by
  rw [h.ready, h.epoch, h.audioMs]
  simp only [Bool.not_true, Bool.false_eq_true, false_or]
  omega
 have hnew : ReadsStage (q.catchUp event) (c.stageIn event.epoch) := by
  have hold := h.stage
  unfold catchUp Course.stageIn
  rw [h.epoch]
  by_cases hreset : c.epoch < event.epoch
  · rw [if_pos hreset, if_pos hreset]
    exact ⟨rfl, rfl⟩
  · rw [if_neg hreset, if_neg (by omega)]
    cases hc : c.stage <;> rw [hc] at hold <;> exact hold
 have hkept : (q.catchUp event).ready = true ∧ (q.catchUp event).errored = false ∧
   (q.catchUp event).epoch = event.epoch ∧ (q.catchUp event).audioMs = event.audioMs := by
  unfold catchUp
  split <;> exact ⟨h.ready, h.errored, rfl, rfl⟩
 obtain ⟨hready', herrored', hepoch', hms'⟩ := hkept
 obtain ⟨haccept, hstage', hready'', herrored'', hepoch'', hms''⟩ :=
  acceptTyped_of_allows hnew hstage
 unfold accept
 rw [if_neg (by rw [h.errored]; exact Bool.false_ne_true), if_neg herror, if_neg hready,
  if_neg htime]
 exact ⟨haccept, hready''.trans hready', herrored''.trans herrored', hepoch''.trans hepoch',
  hms''.trans hms', hstage'⟩

theorem Reads.after (h : Reads c q)
  {a : Action Sample} (ha : a.written = none) : Reads (c.after a) q := by
 cases a
 case emit => exact absurd ha (by simp [Action.written])
 all_goals exact ⟨h.ready, h.errored, h.epoch, h.audioMs, h.stage⟩

variable {readings : List (HelperEvent × ℤ)}

theorem accepted_of_orderly {trace : List (Action Sample)}
  (h : Reads c q) (horderly : Along Course.after Course.Allows c trace)
  (hevents : readings.map Prod.fst = (trace.filterMap Action.written).map Prod.fst)
  (hresets : ∀ r ∈ readings, r.1.epoch ≤ r.2) : q.acceptsAll readings = true := by
 induction trace generalizing c q readings with
 | nil =>
  obtain rfl : readings = [] := by simpa using hevents
  rfl
 | cons a trace ih =>
  cases hwritten : a.written with
  | none =>
   rw [filterMap_cons_none hwritten] at hevents
   exact ih (h.after hwritten) horderly.2 hevents hresets
  | some written =>
   rw [filterMap_cons_some hwritten] at hevents
   obtain ⟨event, wakeRequired⟩ := written
   cases a <;> simp only [Action.written, reduceCtorEq, Option.some.injEq, Prod.mk.injEq] at hwritten
   case emit e w =>
   obtain ⟨rfl, rfl⟩ := hwritten
   cases readings with
   | nil => simp at hevents
   | cons reading rest =>
    obtain ⟨event', resetsSent⟩ := reading
    simp only [map_cons, List.cons.injEq] at hevents
    obtain ⟨rfl, hrest⟩ := hevents
    obtain ⟨haccept, hreads⟩ := h.emit horderly.1 (hresets _ mem_cons_self)
    rw [acceptsAll, haccept, Bool.true_and]
    exact ih hreads horderly.2 hrest fun r hr => hresets r (mem_cons_of_mem _ hr)

theorem written_types {trace : List (Action Sample)}
  (horderly : Along Course.after Course.Allows c trace) :
  ∀ w ∈ trace.filterMap Action.written, w.1.type ≠ .error ∧ w.1.type ≠ .ready := by
 induction trace generalizing c with
 | nil => simp
 | cons a trace ih =>
  intro w hw
  cases a
  case emit event wakeRequired =>
   have hcons : (Action.emit event wakeRequired :: trace).filterMap Action.written =
     (event, wakeRequired) :: trace.filterMap Action.written := rfl
   rw [hcons, mem_cons] at hw
   rcases hw with rfl | hw
   · obtain ⟨-, -, hstage, -⟩ := horderly.1
     constructor <;> intro heq <;> rw [heq] at hstage <;>
      cases hs : c.stageIn event.epoch <;> simp [hs, Stage.allows] at hstage
   · exact ih horderly.2 w hw
  all_goals exact ih horderly.2 w hw

/-! ## What acceptance means -/

structure Accepted (q q' : HelperEventSequence) (event : HelperEvent) : Prop where
 epoch : q.epoch ≤ event.epoch
 audioMs : q.audioMs ≤ event.audioMs
 epochKept : q'.epoch = event.epoch
 audioMsKept : q'.audioMs = event.audioMs
 typed : ((q.catchUp event).acceptTyped event.type).1 = true
 after : q' = ((q.catchUp event).acceptTyped event.type).2

theorem acceptTyped_times (q : HelperEventSequence) (type : HelperEventType) :
  (acceptTyped q type).2.epoch = q.epoch ∧ (acceptTyped q type).2.audioMs = q.audioMs := by
 cases type <;> unfold acceptTyped <;> dsimp only
 case wake => split <;> exact ⟨rfl, rfl⟩
 case speechStart => split <;> exact ⟨rfl, rfl⟩
 case speechEnd => split <;> exact ⟨rfl, rfl⟩
 case final => repeat' first | exact ⟨rfl, rfl⟩ | split
 all_goals exact ⟨rfl, rfl⟩

theorem accepted {event : HelperEvent} {resetsSent : ℤ}
  (h : (q.accept event resetsSent).1 = true) (herror : event.type ≠ .error)
  (hready : event.type ≠ .ready) : Accepted q (q.accept event resetsSent).2 event := by
 unfold accept at h ⊢
 by_cases herrored : q.errored = true
 · rw [if_pos herrored] at h
   exact absurd h Bool.false_ne_true
 rw [if_neg herrored, if_neg herror, if_neg hready] at h ⊢
 split at h
 · exact absurd h Bool.false_ne_true
 · next htime =>
   rw [if_neg htime]
   have hcatch : (q.catchUp event).epoch = event.epoch ∧
     (q.catchUp event).audioMs = event.audioMs := by
    unfold catchUp
    split <;> exact ⟨rfl, rfl⟩
   obtain ⟨hepoch, hms⟩ := acceptTyped_times (q.catchUp event) event.type
   exact
    { epoch := by omega
      audioMs := by omega
      epochKept := hepoch.trans hcatch.1
      audioMsKept := hms.trans hcatch.2
      typed := h
      after := rfl }

def Timed (readings : List (HelperEvent × ℤ)) : Prop :=
 ∀ r ∈ readings, r.1.type ≠ .error ∧ r.1.type ≠ .ready

theorem times_of_accepted
  (htimed : Timed readings) (h : q.acceptsAll readings = true) :
  (∀ r ∈ readings, q.epoch ≤ r.1.epoch ∧ q.audioMs ≤ r.1.audioMs) ∧
   readings.Pairwise fun r r' => r.1.epoch ≤ r'.1.epoch ∧ r.1.audioMs ≤ r'.1.audioMs := by
 induction readings generalizing q with
 | nil => simp
 | cons reading rest ih =>
  obtain ⟨event, resetsSent⟩ := reading
  rw [acceptsAll, Bool.and_eq_true] at h
  obtain ⟨herror, hready⟩ := htimed _ mem_cons_self
  have hone := accepted h.1 herror hready
  obtain ⟨hlow, hpairs⟩ := ih (fun r hr => htimed r (mem_cons_of_mem _ hr)) h.2
  rw [hone.epochKept, hone.audioMsKept] at hlow
  refine ⟨fun r hr => ?_, pairwise_cons.2 ⟨hlow, hpairs⟩⟩
  rcases mem_cons.1 hr with rfl | hr
  · exact ⟨hone.epoch, hone.audioMs⟩
  · exact ⟨hone.epoch.trans (hlow r hr).1, hone.audioMs.trans (hlow r hr).2⟩

def InProgress (q : HelperEventSequence) : Prop := q.wakeOpen = true ∨ q.inUtterance = true

theorem inProgress_after (h : InProgress q) {type : HelperEventType}
  (haccept : (acceptTyped q type).1 = true) (hfinal : type ≠ .final) :
  type ≠ .wake ∧ InProgress (acceptTyped q type).2 := by
 unfold InProgress at h ⊢
 cases type <;> simp only [acceptTyped, Bool.false_eq_true] at haccept ⊢
 case final => exact absurd rfl hfinal
 case wake =>
  split at haccept
  · exact absurd haccept Bool.false_ne_true
  · next hnone => simp_all
 case speechStart =>
  split at haccept
  · exact absurd haccept Bool.false_ne_true
  · next hnone =>
    rw [if_neg hnone]
    exact ⟨by decide, Or.inr rfl⟩
 case partialText => exact ⟨by decide, h⟩
 case speechEnd =>
  split at haccept
  · exact absurd haccept Bool.false_ne_true
  · next hnone =>
    rw [if_neg hnone]
    exact ⟨by decide, h⟩

theorem answered_before_wake (hprogress : InProgress q)
  {mid after : List (HelperEvent × ℤ)} {wake : HelperEvent × ℤ}
  (htimed : Timed (mid ++ wake :: after))
  (h : q.acceptsAll (mid ++ wake :: after) = true) (hwake : wake.1.type = .wake)
  (hepoch : wake.1.epoch = q.epoch) :
  ∃ said final rest, mid = said ++ final :: rest ∧ final.1.type = .final ∧
   ∀ r ∈ said, r.1.type ≠ .wake ∧ r.1.type ≠ .final := by
 induction mid generalizing q with
 | nil =>
  rw [nil_append, acceptsAll, Bool.and_eq_true] at h
  obtain ⟨herror, hready⟩ := htimed wake (by simp)
  have hone := accepted h.1 herror hready
  have hsame : (q.catchUp wake.1).wakeOpen = q.wakeOpen ∧
    (q.catchUp wake.1).inUtterance = q.inUtterance := by
   rw [catchUp, if_neg (by omega)]
   exact ⟨rfl, rfl⟩
  have hin : InProgress (q.catchUp wake.1) := by
   rw [InProgress, hsame.1, hsame.2]
   exact hprogress
  exact absurd hwake (inProgress_after hin hone.typed (by simp [hwake])).1
 | cons reading mid ih =>
  obtain ⟨event, resetsSent⟩ := reading
  have htimes := (times_of_accepted htimed h).2
  rw [cons_append, acceptsAll, Bool.and_eq_true] at h
  obtain ⟨herror, hready⟩ := htimed (event, resetsSent) (by simp)
  have hone := accepted h.1 herror hready
  have hlast : event.epoch ≤ wake.1.epoch :=
   ((pairwise_cons.1 htimes).1 wake (by simp)).1
  have hlow := hone.epoch
  have hsame : (q.catchUp event).wakeOpen = q.wakeOpen ∧
    (q.catchUp event).inUtterance = q.inUtterance := by
   rw [catchUp, if_neg (by omega)]
   exact ⟨rfl, rfl⟩
  have hin : InProgress (q.catchUp event) := by
   rw [InProgress, hsame.1, hsame.2]
   exact hprogress
  by_cases hfinal : event.type = .final
  · exact ⟨[], (event, resetsSent), mid, rfl, hfinal, by simp⟩
  · obtain ⟨hnotWake, hstill⟩ := inProgress_after hin hone.typed hfinal
    rw [← hone.after] at hstill
    have hepoch' : wake.1.epoch = (q.accept event resetsSent).2.epoch := by
     rw [hone.epochKept]
     omega
    obtain ⟨said, final, rest, rfl, htype, hsaid⟩ :=
     ih hstill (fun r hr => htimed r (mem_cons_of_mem _ hr)) h.2 hepoch'
    refine ⟨(event, resetsSent) :: said, final, rest, rfl, htype, fun r hr => ?_⟩
    rcases mem_cons.1 hr with rfl | hr
    · exact ⟨hnotWake, hfinal⟩
    · exact hsaid r hr

theorem acceptsAll_append {more : List (HelperEvent × ℤ)}
  (h : q.acceptsAll (readings ++ more) = true) :
  ∃ q', HelperEventSequence.acceptsAll q' more = true := by
 induction readings generalizing q with
 | nil => exact ⟨q, h⟩
 | cons reading readings ih =>
  obtain ⟨event, resetsSent⟩ := reading
  rw [cons_append, acceptsAll, Bool.and_eq_true] at h
  exact ih h.2

end MoltBrowser.SpeechListener
