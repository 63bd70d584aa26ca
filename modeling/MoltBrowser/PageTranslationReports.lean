import MoltBrowser.PageTranslationJob
import MoltBrowser.TranslationPlanRuns

set_option autoImplicit false

/-!
# A page translation reports once

A job waits for one answer at a time (`Waiting`) until it has finished
(`Ended`). Between an answer and what is asked next it waits for none (`Idle`).
-/
namespace MoltBrowser.PageTranslationJob
open List

open TranslationPieces TranslationPlan TransitionRuns
open WebAISession (GenerationStatus)

def reportOf : Action → Option JobResult
 | .report result => some result
 | _ => none

def reports (actions : List Action) : List JobResult := actions.filterMap reportOf

def writesOf : Action → List SlotWrite
 | .runApply writes => writes
 | _ => []

def sentWrites (actions : List Action) : List SlotWrite := actions.flatMap writesOf

def isWork : Action → Bool
 | .runExtract | .runApply _ | .generate _ _ => true
 | _ => false

def NoWorkAfterReport (actions : List Action) : Prop :=
 ∀ before result after, actions = before ++ .report result :: after →
  ∀ a ∈ after, isWork a = false

@[simp] theorem reports_append (a b : List Action) : reports (a ++ b) = reports a ++ reports b :=
 filterMap_append

@[simp] theorem sentWrites_append (a b : List Action) :
  sentWrites (a ++ b) = sentWrites a ++ sentWrites b := flatMap_append

@[simp] theorem reports_singleton (a : Action) : reports [a] = (reportOf a).toList := by
 cases h : reportOf a <;> simp [reports, h]

@[simp] theorem sentWrites_singleton (a : Action) : sentWrites [a] = writesOf a := by
 simp [sentWrites]

attribute [simp] reportOf writesOf

section Cancel

variable (s : Job)

@[simp] theorem cancel_generation : s.cancelGeneration.generation = 0 := by
 unfold Job.cancelGeneration
 split
 · rfl
 · next h => simpa using h

@[simp] theorem cancel_applies :
  s.cancelGeneration.outstanding.applies = s.outstanding.applies := by
 unfold Job.cancelGeneration; split <;> rfl

@[simp] theorem cancel_acknowledged : s.cancelGeneration.acknowledged = s.acknowledged := by
 unfold Job.cancelGeneration; split <;> rfl

@[simp] theorem cancel_writtenSlots : s.cancelGeneration.writtenSlots = s.writtenSlots := by
 unfold Job.cancelGeneration; split <;> rfl

@[simp] theorem cancel_posted : s.cancelGeneration.posted = s.posted := by
 unfold Job.cancelGeneration; split <;> rfl

@[simp] theorem cancel_produced : s.cancelGeneration.produced = s.produced := by
 unfold Job.cancelGeneration; split <;> rfl

@[simp] theorem cancel_plan : s.cancelGeneration.plan = s.plan := by
 unfold Job.cancelGeneration; split <;> rfl

@[simp] theorem cancel_finished : s.cancelGeneration.finished = s.finished := by
 unfold Job.cancelGeneration; split <;> rfl

@[simp] theorem cancel_retryRunning : s.cancelGeneration.retryRunning = s.retryRunning := by
 unfold Job.cancelGeneration; split <;> rfl

@[simp] theorem cancel_deadlineRunning :
  s.cancelGeneration.deadlineRunning = s.deadlineRunning := by
 unfold Job.cancelGeneration; split <;> rfl

@[simp] theorem cancel_nextGeneration :
  s.cancelGeneration.outstanding.nextGeneration = s.outstanding.nextGeneration := by
 unfold Job.cancelGeneration; split <;> rfl

@[simp] theorem cancel_reports :
  reports s.cancelGeneration.actions = reports s.actions := by
 unfold Job.cancelGeneration; split <;> simp [Job.act]

@[simp] theorem cancel_sentWrites :
  sentWrites s.cancelGeneration.actions = sentWrites s.actions := by
 unfold Job.cancelGeneration; split <;> simp [Job.act]

variable {s} in
theorem cancel_generations
  (h : s.outstanding.generations = if s.generation = 0 then [] else [s.generation]) :
  s.cancelGeneration.outstanding.generations = [] := by
 unfold Job.cancelGeneration
 split
 · next hgen =>
   rw [if_neg hgen] at h
   simp [h]
 · next hgen => rw [h, if_pos (by simpa using hgen)]

end Cancel

variable {actions : List Action}

theorem report_not_mem (h : reports actions = []) (result : JobResult) :
  Action.report result ∉ actions := by
 intro hmem
 have hreport : result ∈ reports actions := mem_filterMap.2 ⟨_, hmem, rfl⟩
 rw [h] at hreport
 exact absurd hreport not_mem_nil

theorem noWork_of_unreported (h : reports actions = []) :
  NoWorkAfterReport actions := by
 rintro before result after rfl
 exact absurd (by simp) (report_not_mem h result)

theorem NoWorkAfterReport.append (h : NoWorkAfterReport actions)
  {a : Action} (ha : isWork a = false) : NoWorkAfterReport (actions ++ [a]) := by
 intro before result after heq b hb
 rcases eq_nil_or_concat after with rfl | ⟨init, last, rfl⟩
 · exact absurd hb not_mem_nil
 · rw [concat_eq_append] at *
   have hsplit : actions ++ [a] = (before ++ .report result :: init) ++ [last] := by
    rw [heq]
    simp
   obtain ⟨hactions, hlast⟩ := append_inj' hsplit rfl
   rcases mem_append.1 hb with hinit | hmem
   · exact h before result init hactions b hinit
   · rw [mem_singleton.1 hmem, ← singleton_inj.1 hlast]
     exact ha

def isStartEnd : JobEnd → Bool
 | .noModel | .deviceUnsupported | .modelFailed => true
 | _ => false

structure Unfinished (s : Job) : Prop where
 unfinished : s.finished = false
 unposted : s.posted = none
 unreported : reports s.actions = []
 sentFirst : sentWrites s.actions <+: s.produced
 slots : ∀ plan ∈ s.plan, plan.slots.length ≤ kMaxSlots
 generations : s.outstanding.generations = if s.generation = 0 then [] else [s.generation]
 fresh : s.outstanding.nextGeneration ≠ 0
 pendingSafe : ∀ jobEnd ∈ s.pendingEnd, isStartEnd jobEnd = false

def waitingFor (s : Job) : ℕ :=
 s.outstanding.facts.toNat + s.outstanding.extract.toNat + s.outstanding.model.toNat +
  s.outstanding.generations.length + s.outstanding.applies.length + s.retryRunning.toNat

structure Waiting (s : Job) : Prop extends Unfinished s where
 one : waitingFor s ≤ 1
 sent : sentWrites s.actions = s.produced
 applies : s.outstanding.applies = if s.writing then [s.writingAsked] else []
 asked : s.writing = true → 0 < s.writingAsked
 acknowledged : s.acknowledged = s.writtenSlots
 ending : s.pendingEnd ≠ none → s.writing = true
 early : s.outstanding.facts = true ∨ s.outstanding.extract = true ∨
  s.outstanding.model = true → s.writtenSlots = 0

structure Idle (s : Job) : Prop extends Unfinished s where
 nothing : waitingFor s = 0
 idle : s.writing = false
 acknowledged : s.acknowledged = s.writtenSlots

structure Ended (s : Job) : Prop where
 finished : s.finished = true
 generation : s.generation = 0
 generations : s.outstanding.generations = []
 applies : s.outstanding.applies.length ≤ 1
 asked : ∀ asked ∈ s.outstanding.applies, 0 < asked
 counted : s.acknowledged + s.outstanding.applies.sum ≤ s.writtenSlots
 once : (s.posted.toList ++ reports s.actions).length ≤ 1
 result : ∀ result ∈ s.posted.toList ++ reports s.actions,
  result.writtenSlots = s.writtenSlots ∧ (isStartEnd result.jobEnd = true → s.writtenSlots = 0)
 sent : sentWrites s.actions <+: s.produced
 noWork : NoWorkAfterReport s.actions
 stopped : s.retryRunning = false ∧ s.deadlineRunning = false

/-! ### The plan writes slots of the page only -/

structure Inside (plan : Plan) (after : Plan × List SlotWrite) : Prop where
 slots : after.1.slots.length = plan.slots.length
 writes : ∀ w ∈ after.2, w.slot < plan.slots.length

theorem inside_settle {plan : Plan} {writes : List SlotWrite}
  (h : ∀ w ∈ writes, w.slot < plan.slots.length) (unit : ℕ) (text : Option Bytes) :
  Inside plan (plan.settle writes unit text) := by
 cases hu : plan.units[unit]? with
 | none =>
  have hsame : plan.settle writes unit text = (plan, writes) := by simp [Plan.settle, hu]
  rw [hsame]
  exact ⟨rfl, h⟩
 | some u =>
  by_cases hsettled : u.settled = true
  · have hsame : plan.settle writes unit text = (plan, writes) := by
     simp [Plan.settle, hu, hsettled]
    rw [hsame]
    exact ⟨rfl, h⟩
  · cases hstate : plan.slots[u.slot]? with
    | none =>
     have hsame : plan.settle writes unit text = (plan, writes) := by
      simp [Plan.settle, hu, hsettled, hstate]
     rw [hsame]
     exact ⟨rfl, h⟩
    | some state =>
     rw [settle_eq hu (by simpa using hsettled) hstate]
     refine ⟨by simp [settledPlan], fun w hw => ?_⟩
     rcases mem_append.1 hw with hold | hnew
     · exact h w hold
     · unfold settledWrite at hnew
       split at hnew
       · rw [mem_singleton.1 hnew]
         exact (List.getElem?_eq_some_iff.1 hstate).1
       · exact absurd hnew not_mem_nil

theorem inside_foldl_settle (units : List ℕ) {plan : Plan} {writes : List SlotWrite}
  (h : ∀ w ∈ writes, w.slot < plan.slots.length) :
  Inside plan (units.foldl (fun (plan, writes) unit => plan.settle writes unit none)
   (plan, writes)) := by
 induction units generalizing plan writes with
 | nil => exact ⟨rfl, h⟩
 | cons unit units ih =>
  have hone := inside_settle h unit none
  have hrest := @ih (plan.settle writes unit none).1 (plan.settle writes unit none).2
   (by rw [hone.slots]; exact hone.writes)
  exact ⟨hrest.slots.trans hone.slots, by rw [← hone.slots]; exact hrest.writes⟩

theorem inside_rejectBatch (plan : Plan) (batch : Batch) : Inside plan (plan.rejectBatch batch) := by
 unfold Plan.rejectBatch
 dsimp only
 split
 · exact ⟨rfl, by simp⟩
 · exact inside_foldl_settle _ (by simp)

theorem inside_acceptItems (alone : Bool) (items : List (ℕ × Bytes × Bytes)) {plan : Plan}
  {writes : List SlotWrite} (h : ∀ w ∈ writes, w.slot < plan.slots.length) :
  Inside plan ((Plan.acceptItems alone plan writes items).1,
   (Plan.acceptItems alone plan writes items).2.1) := by
 induction items generalizing plan writes with
 | nil => exact ⟨rfl, h⟩
 | cons item rest ih =>
  obtain ⟨unit, source, translation⟩ := item
  rw [Plan.acceptItems]
  split
  · exact ih h
  · dsimp only
    split
    · exact ih h
    · have hone := inside_settle h unit (checkTranslation source translation)
      have hrest := @ih (plan.settle writes unit (checkTranslation source translation)).1
       (plan.settle writes unit (checkTranslation source translation)).2
       (by rw [hone.slots]; exact hone.writes)
      exact ⟨hrest.slots.trans hone.slots, by rw [← hone.slots]; exact hrest.writes⟩

theorem inside_answerBatch (env : Environment) (s : Job) (status : GenerationStatus)
  (plan : Plan) (batch : Batch) : Inside plan (s.answerBatch env status plan batch).1 := by
 unfold Job.answerBatch
 dsimp only
 split
 · next translations _ =>
   unfold Plan.acceptReply
   split
   · exact inside_rejectBatch plan batch
   · have hitems := @inside_acceptItems (decide (batch.units.length ≤ 1))
      (batch.units.zip (batch.texts.zip translations)) plan [] (by simp)
     exact ⟨hitems.slots, hitems.writes⟩
 · exact inside_rejectBatch plan batch

section Steps

variable {s : Job}

theorem Idle.parts (h : Idle s) : s.outstanding.facts = false ∧ s.outstanding.extract = false ∧
  s.outstanding.model = false ∧ s.outstanding.generations = [] ∧ s.outstanding.applies = [] ∧
   s.retryRunning = false := by
 have hzero := h.nothing
 unfold waitingFor at hzero
 refine ⟨?_, ?_, ?_, eq_nil_of_length_eq_zero (by omega),
  eq_nil_of_length_eq_zero (by omega), ?_⟩
 all_goals exact Bool.toNat_eq_zero.1 (by omega)

theorem Idle.generation (h : Idle s) : s.generation = 0 := by
 have hgen := h.generations
 rw [h.parts.2.2.2.1] at hgen
 by_contra hne
 rw [if_neg hne] at hgen
 exact absurd hgen (by simp)

variable {jobEnd : JobEnd}

theorem Unfinished.finish (h : Unfinished s) (happlies : s.outstanding.applies.length ≤ 1)
  (hasked : ∀ asked ∈ s.outstanding.applies, 0 < asked)
  (hcounted : s.acknowledged + s.outstanding.applies.sum ≤ s.writtenSlots)
  (hstart : isStartEnd jobEnd = true → s.writtenSlots = 0) : Ended (s.finish jobEnd) := by
 unfold Job.finish
 simp only [h.unfinished, Bool.false_eq_true, if_false]
 generalize hstop : ({ s with finished := true, deadlineRunning := false, retryRunning := false } :
  Job) = t
 have hactions : t.actions = s.actions := by rw [← hstop]
 have hgenerations : t.cancelGeneration.outstanding.generations = [] :=
  cancel_generations (by rw [← hstop]; exact h.generations)
 have hunreported : reports t.cancelGeneration.actions = [] := by
  rw [cancel_reports, hactions, h.unreported]
 exact
  { finished := by simp [← hstop]
    generation := by simp
    generations := hgenerations
    applies := by simpa [← hstop] using happlies
    asked := by simpa [← hstop] using hasked
    counted := by simpa [← hstop] using hcounted
    once := by simp [hunreported]
    result := by
     intro result hresult
     simp only [hunreported, Option.toList_some, append_nil,
      mem_singleton] at hresult
     subst hresult
     exact ⟨rfl, fun hend => by simpa [← hstop] using hstart hend⟩
    sent := by simpa [← hstop] using h.sentFirst
    noWork := noWork_of_unreported hunreported
    stopped := by simp [← hstop] }

theorem Idle.finish (h : Idle s)
  (hstart : isStartEnd jobEnd = true → s.writtenSlots = 0) : Ended (s.finish jobEnd) := by
 obtain ⟨-, -, -, -, happlies, -⟩ := h.parts
 refine h.toUnfinished.finish ?_ ?_ ?_ hstart
 · simp [happlies]
 · simp [happlies]
 · simp [happlies, h.acknowledged]

theorem Waiting.requestEnd (h : Waiting s) (hsafe : isStartEnd jobEnd = false) :
  Waiting (s.requestEnd jobEnd) ∨ Ended (s.requestEnd jobEnd) := by
 have hopen : (s.finished || s.pendingEnd.isSome) = s.pendingEnd.isSome := by
  rw [h.unfinished, Bool.false_or]
 unfold Job.requestEnd
 rw [hopen]
 split
 · exact Or.inl h
 · dsimp only
   split
   · next hwriting =>
     exact Or.inl { h with
      ending := fun _ => hwriting
      pendingSafe := fun e he => by
       rw [← Option.some.inj he]
       exact hsafe }
   · next hwriting =>
     right
     have happlies := h.applies
     rw [if_neg hwriting] at happlies
     have hgenerations : ({ s with pendingEnd := some jobEnd } :
       Job).cancelGeneration.outstanding.generations = [] := cancel_generations h.generations
     have hopen : Unfinished ({ s with pendingEnd := some jobEnd } : Job).cancelGeneration :=
      { unfinished := by simpa using h.unfinished
        unposted := by simpa using h.unposted
        unreported := by simpa using h.unreported
        sentFirst := by simpa using h.sentFirst
        slots := by simpa using h.slots
        generations := by simp [hgenerations]
        fresh := by simpa using h.fresh
        pendingSafe := by
         intro e he
         have hsome : some jobEnd = some e := by
          rw [← Option.mem_def.1 he]
          unfold Job.cancelGeneration
          split <;> rfl
         rw [← Option.some.inj hsome]
         exact hsafe }
     exact hopen.finish (by simp [happlies]) (by simp [happlies])
      (by simp [happlies, h.acknowledged]) fun hstart => absurd (hsafe.symm.trans hstart) (by simp)

theorem Unfinished.not_start (h : Unfinished s)
  (hending : s.pendingEnd = some jobEnd) : isStartEnd jobEnd = true → s.writtenSlots = 0 :=
 fun hstart => absurd ((h.pendingSafe jobEnd hending).symm.trans hstart) (by simp)

theorem not_start_of_false (hsafe : isStartEnd jobEnd = false) :
  isStartEnd jobEnd = true → s.writtenSlots = 0 :=
 fun hstart => absurd (hsafe.symm.trans hstart) (by simp)

theorem Unfinished.getD_safe (h : Unfinished s)
  (hsafe : isStartEnd jobEnd = false) : isStartEnd (s.pendingEnd.getD jobEnd) = false := by
 cases hending : s.pendingEnd with
 | none => exact hsafe
 | some pending => exact h.pendingSafe pending hending

theorem Idle.sendBatch (h : Idle s) (hsent : sentWrites s.actions = s.produced) (alive : Bool) :
  Waiting (s.sendBatch alive) ∨ Ended (s.sendBatch alive) := by
 obtain ⟨hfacts, hextract, hmodel, hgenerations, happlies, hretry⟩ := h.parts
 unfold Job.sendBatch
 split
 · next jobEnd hending => exact Or.inr (h.finish (h.not_start hending))
 · next hending =>
   split
   · exact Or.inr (h.finish (not_start_of_false rfl))
   · next batch hbatch =>
     split
     · exact Or.inr (h.finish (not_start_of_false rfl))
     · left
       exact
        { unfinished := h.unfinished
          unposted := h.unposted
          unreported := by simpa [Job.generate, Job.act] using h.unreported
          sentFirst := by simpa [Job.generate, Job.act] using h.sentFirst
          slots := h.slots
          generations := by simp [Job.generate, Job.act, hgenerations, h.fresh]
          fresh := Nat.succ_ne_zero _
          one := by
           simp [waitingFor, Job.generate, Job.act, hfacts, hextract, hmodel, hgenerations,
            happlies, hretry]
          sent := by simpa [Job.generate, Job.act] using hsent
          applies := by simp [Job.generate, Job.act, happlies, h.idle]
          asked := by simp [Job.generate, Job.act, h.idle]
          acknowledged := h.acknowledged
          ending := fun hne => absurd hending hne
          pendingSafe := h.pendingSafe
          early := by simp [Job.generate, Job.act, hfacts, hextract, hmodel] }

theorem takeBatch_fields (s : Job) : s.takeBatch =
  { s with batch := s.takeBatch.batch, plan := s.takeBatch.plan } := by
 unfold Job.takeBatch
 split <;> rfl

theorem takeBatch_slots (h : ∀ plan ∈ s.plan, plan.slots.length ≤ kMaxSlots) :
  ∀ plan ∈ s.takeBatch.plan, plan.slots.length ≤ kMaxSlots := by
 unfold Job.takeBatch
 split
 · next batch plan hnext =>
   obtain ⟨old, hold, hbatch⟩ := Option.bind_eq_some_iff.1 hnext
   unfold Plan.nextBatch at hbatch
   split at hbatch
   · exact absurd hbatch (by simp)
   · simp only [Option.some.injEq, Prod.mk.injEq] at hbatch
     obtain ⟨-, rfl⟩ := hbatch
     simpa using h old hold
 · exact h

theorem Idle.takeBatch (h : Idle s) : Idle s.takeBatch := by
 have hslots := takeBatch_slots h.slots
 rw [takeBatch_fields]
 exact { h with slots := hslots }

theorem Idle.progress (h : Idle s) : Idle s.progress := by
 unfold Job.progress
 split
 · exact
    { h with
      unreported := by simpa [Job.act] using h.unreported
      sentFirst := by simpa [Job.act] using h.sentFirst }
 · exact h

@[simp] theorem progress_sentWrites (s : Job) :
  sentWrites s.progress.actions = sentWrites s.actions := by
 unfold Job.progress
 split <;> simp [Job.act]

@[simp] theorem progress_produced (s : Job) : s.progress.produced = s.produced := by
 unfold Job.progress
 split <;> rfl

@[simp] theorem progress_pendingEnd (s : Job) : s.progress.pendingEnd = s.pendingEnd := by
 unfold Job.progress
 split <;> rfl

@[simp] theorem takeBatch_actions (s : Job) : s.takeBatch.actions = s.actions := by
 unfold Job.takeBatch
 split <;> rfl

@[simp] theorem takeBatch_produced (s : Job) : s.takeBatch.produced = s.produced := by
 unfold Job.takeBatch
 split <;> rfl

@[simp] theorem takeBatch_pendingEnd (s : Job) : s.takeBatch.pendingEnd = s.pendingEnd := by
 unfold Job.takeBatch
 split <;> rfl

theorem Idle.write (h : Idle s) {writes : List SlotWrite} (hne : writes ≠ [])
  (hinside : ∀ w ∈ writes, w.slot < kMaxSlots) (hending : s.pendingEnd = none)
  (hproduced : s.produced = sentWrites s.actions ++ writes) : Waiting (s.write writes) := by
 obtain ⟨hfacts, hextract, hmodel, hgenerations, happlies, hretry⟩ := h.parts
 have hall : writes.filter (·.slot < kMaxSlots) = writes :=
  filter_eq_self.2 fun w hw => by simpa using hinside w hw
 have hsent : sentWrites (s.write writes).actions = (s.write writes).produced := by
  simp [Job.write, Job.act, hall, hproduced]
 exact
  { unfinished := h.unfinished
    unposted := h.unposted
    unreported := by simpa [Job.write, Job.act] using h.unreported
    sentFirst := by rw [hsent]
    slots := h.slots
    generations := h.generations
    fresh := h.fresh
    one := by
     simp [waitingFor, Job.write, Job.act, hfacts, hextract, hmodel, hgenerations, happlies,
      hretry]
    sent := hsent
    applies := by simp [Job.write, Job.act, happlies]
    asked := fun _ => length_pos_of_ne_nil hne
    acknowledged := h.acknowledged
    ending := fun hsome => absurd hending hsome
    pendingSafe := h.pendingSafe
    early := by simp [Job.write, Job.act, hfacts, hextract, hmodel] }

theorem Idle.afterBatch (h : Idle s) (hsent : sentWrites s.actions = s.produced)
  (hending : s.pendingEnd = none) {writes : List SlotWrite}
  (hinside : ∀ w ∈ writes, w.slot < kMaxSlots) (alive : Bool) :
  Waiting (s.afterBatch writes alive) ∨ Ended (s.afterBatch writes alive) := by
 have hproduced : Idle { s with reply := [], produced := s.produced ++ writes } :=
  { h with sentFirst := by rw [hsent]; exact prefix_append _ _ }
 unfold Job.afterBatch
 dsimp only
 split
 · exact Or.inr (hproduced.finish (not_start_of_false rfl))
 · have hnext := hproduced.takeBatch.progress
   split
   · next hempty =>
     rw [List.isEmpty_iff] at hempty
     exact hnext.sendBatch (by simp [hsent, hempty]) alive
   · next hempty =>
     rw [List.isEmpty_iff] at hempty
     exact Or.inl (hnext.write hempty hinside (by simpa using hending) (by simp [hsent]))

theorem Idle.waiting (h : Idle s) (hsent : sentWrites s.actions = s.produced)
  (hending : s.pendingEnd = none) : Waiting s := by
 obtain ⟨hfacts, hextract, hmodel, -, happlies, -⟩ := h.parts
 exact
  { h with
    one := by rw [h.nothing]; exact Nat.zero_le 1
    sent := hsent
    applies := by rw [happlies, h.idle]; rfl
    asked := fun hwriting => absurd (h.idle.symm.trans hwriting) (by simp)
    ending := fun hne => absurd hending hne
    early := by simp [hfacts, hextract, hmodel] }

theorem Idle.onBatchReply (h : Idle s) (hsent : sentWrites s.actions = s.produced)
  (hending : s.pendingEnd = none) (env : Environment) (status : GenerationStatus)
  (alive : Bool) :
  Waiting (s.onBatchReply env status alive) ∨ Ended (s.onBatchReply env status alive) := by
 unfold Job.onBatchReply
 split
 · next plan batch hplan hbatch =>
   have hinside := inside_answerBatch env s status plan batch
   have hle := h.slots plan hplan
   dsimp only
   have hidle : Idle { s with
     plan := some (s.answerBatch env status plan batch).1.1
     failedInARow :=
      if (s.answerBatch env status plan batch).2 then s.failedInARow + 1 else 0
     throttled := if (s.answerBatch env status plan batch).2 then s.throttled else 0 } :=
    { h with
      slots := fun after hafter => by
       rw [Option.mem_some] at hafter
       rw [← hafter, hinside.slots]
       exact hle }
   exact hidle.afterBatch hsent hending (fun w hw => (hinside.writes w hw).trans_le hle) alive
 · exact Or.inl (h.waiting hsent hending)

theorem Idle.onGenerationDone (h : Idle s) (hsent : sentWrites s.actions = s.produced)
  (env : Environment) (status : GenerationStatus) (alive : Bool) :
  Waiting (s.onGenerationDone env status alive) ∨
   Ended (s.onGenerationDone env status alive) := by
 have hzero : { s with generation := 0 } = s := by
  have hgen := h.generation
  cases s
  simp_all
 unfold Job.onGenerationDone
 rw [hzero]
 dsimp only
 split
 · next jobEnd hending => exact Or.inr (h.finish (h.not_start hending))
 · next hending =>
   obtain ⟨hfacts, hextract, hmodel, hgenerations, happlies, hretry⟩ := h.parts
   cases status with
   | ok => exact h.onBatchReply hsent hending env .ok alive
   | invalidOutput => exact h.onBatchReply hsent hending env .invalidOutput alive
   | outputTruncated => exact h.onBatchReply hsent hending env .outputTruncated alive
   | cancelled => exact Or.inr (h.finish (not_start_of_false rfl))
   | failed => exact Or.inr (h.finish (not_start_of_false rfl))
   | constraintUnsupported => exact Or.inr (h.finish (not_start_of_false rfl))
   | throttled =>
    have hcount : Idle { s with throttled := s.throttled + 1 } := { h with }
    dsimp only
    split
    · exact Or.inr (hcount.finish (not_start_of_false rfl))
    · left
      have hwaiting := hcount.waiting hsent hending
      exact
       { hwaiting with
         one := by
          simp [waitingFor, hfacts, hextract, hmodel, hgenerations, happlies] }

theorem parseApplyResult_le {result : Value} {requestId : Bytes} {asked written : ℕ}
  (h : parseApplyResult result requestId asked = some written) : written ≤ asked := by
 unfold parseApplyResult at h
 split at h
 · exact absurd h (by simp)
 · split at h
   · exact absurd h (by simp)
   · next hbounds =>
     simp only [Bool.or_eq_true, decide_eq_true_eq, not_or, not_lt, Option.some.injEq] at hbounds h
     omega

theorem Waiting.onWritten (h : Waiting s) {asked : ℕ} (happlies : s.outstanding.applies = [asked])
  (result : Value) (alive : Bool) {t : Job}
  (ht : t = { s with
   outstanding := { s.outstanding with applies := [] }
   acknowledged := s.acknowledged + (parseApplyResult result s.requestId asked).getD 0 }) :
  Waiting (t.onWritten asked result alive) ∨ Ended (t.onWritten asked result alive) := by
 have hone := h.one
 unfold waitingFor at hone
 rw [happlies, length_singleton] at hone
 have hnothing : s.outstanding.facts.toNat + s.outstanding.extract.toNat +
   s.outstanding.model.toNat + s.outstanding.generations.length + 0 + s.retryRunning.toNat = 0 :=
  by omega
 unfold Job.onWritten
 subst ht
 dsimp only
 split
 · next hresult =>
   have hidle : Idle { s with
     writing := false
     writingAsked := 0
     outstanding := { s.outstanding with applies := [] }
     acknowledged := s.acknowledged +
      (parseApplyResult result s.requestId asked).getD 0 } :=
    { h with
      nothing := hnothing
      idle := rfl
      acknowledged := by simp [hresult, h.acknowledged] }
   exact Or.inr (hidle.finish (not_start_of_false (h.getD_safe rfl)))
 · next written hresult =>
   have hidle : Idle { s with
     writing := false
     writingAsked := 0
     writtenSlots := s.writtenSlots + written
     outstanding := { s.outstanding with applies := [] }
     acknowledged := s.acknowledged +
      (parseApplyResult result s.requestId asked).getD 0 } :=
    { h with
      nothing := hnothing
      idle := rfl
      acknowledged := by simp [hresult, h.acknowledged] }
   exact hidle.sendBatch h.sent alive

theorem Idle.onDeviceFacts (h : Idle s) (hsent : sentWrites s.actions = s.produced)
  (hending : s.pendingEnd = none) (hzero : s.writtenSlots = 0)
  (inferenceSupported modelInstalled : Bool) :
  Waiting (s.onDeviceFacts inferenceSupported modelInstalled) ∨
   Ended (s.onDeviceFacts inferenceSupported modelInstalled) := by
 obtain ⟨hfacts, hextract, hmodel, hgenerations, happlies, hretry⟩ := h.parts
 unfold Job.onDeviceFacts
 split
 · exact Or.inr (h.finish fun _ => hzero)
 · split
   · exact Or.inr (h.finish fun _ => hzero)
   · left
     have hwaiting := h.waiting hsent hending
     exact
      { hwaiting with
        unreported := by simpa [Job.act] using h.unreported
        sentFirst := by simpa [Job.act] using h.sentFirst
        one := by simp [waitingFor, Job.act, hfacts, hmodel, hgenerations, happlies, hretry]
        sent := by simpa [Job.act] using hsent
        early := fun _ => hzero }

theorem parseSlots_length {env : Environment} {total : ℕ} {entries : List Value}
  {slots : List PageSlot} (h : parseSlots env total entries = some slots) :
  slots.length = entries.length := by
 induction entries generalizing total slots with
 | nil =>
  rw [parseSlots, Option.some.injEq] at h
  rw [← h]
  rfl
 | cons entry rest ih =>
  rw [parseSlots] at h
  split at h
  · exact absurd h (by simp)
  · dsimp only at h
    split at h
    · exact absurd h (by simp)
    · obtain ⟨slots, hrest, rfl⟩ := Option.map_eq_some_iff.1 h
      simp [ih hrest]

theorem parseExtraction_slots {env : Environment} {result : Value} {requestId : Bytes}
  {page : PageText} (h : parseExtraction env result requestId = some page) :
  page.slots.length ≤ kMaxSlots := by
 unfold parseExtraction at h
 split at h
 · exact absurd h (by simp)
 · split at h
   · exact absurd h (by simp)
   · split at h
     · exact absurd h (by simp)
     · next hlen =>
       obtain ⟨slots, hslots, rfl⟩ := Option.map_eq_some_iff.1 h
       rw [parseSlots_length hslots]
       omega

theorem Idle.onExtracted (h : Idle s) (hsent : sentWrites s.actions = s.produced)
  (hending : s.pendingEnd = none) (hzero : s.writtenSlots = 0) (env : Environment)
  (result : Value) :
  Waiting (s.onExtracted env result) ∨ Ended (s.onExtracted env result) := by
 unfold Job.onExtracted
 split
 · exact Or.inr (h.finish (not_start_of_false rfl))
 · next page hpage =>
   have hplan : Idle { s with
     truncated := page.truncated
     plan := some (TranslationPlan.make page) } :=
    { h with
      slots := fun plan hmem => by
       rw [Option.mem_some] at hmem
       rw [← hmem]
       simpa [TranslationPlan.make] using parseExtraction_slots hpage }
   dsimp only
   split
   · exact Or.inr (hplan.finish (not_start_of_false rfl))
   · left
     have hidle := hplan.progress
     obtain ⟨hfacts, hextract, hmodel, hgenerations, happlies, hretry⟩ := hidle.parts
     have hwaiting := hidle.waiting (by simpa using hsent) (by simpa using hending)
     exact
      { hwaiting with
        unreported := by simpa [Job.act] using hidle.unreported
        sentFirst := by simpa [Job.act] using hidle.sentFirst
        one := by simp [waitingFor, Job.act, hfacts, hextract, hgenerations, happlies, hretry]
        sent := by simpa [Job.act] using hsent
        early := fun _ => hzero }

theorem Idle.onModelPrepared (h : Idle s) (hsent : sentWrites s.actions = s.produced)
  (hzero : s.writtenSlots = 0) (ok alive : Bool) :
  Waiting (s.onModelPrepared ok alive) ∨ Ended (s.onModelPrepared ok alive) := by
 unfold Job.onModelPrepared
 split
 · exact Or.inr (h.finish fun _ => hzero)
 · exact h.takeBatch.sendBatch (by simpa using hsent) alive

theorem Waiting.onDeadline (h : Waiting s) :
  Waiting s.onDeadline ∨ Ended s.onDeadline := by
 unfold Job.onDeadline
 rw [if_neg (by simp [h.unfinished])]
 split
 · exact h.requestEnd rfl
 · next hwriting =>
   have hwriting : s.writing = true := by simpa using hwriting
   have happlies := h.applies
   rw [if_pos hwriting] at happlies
   right
   have hopen : Unfinished { s with
     writing := false
     writtenSlots := s.writtenSlots + s.writingAsked
     writingAsked := 0 } := { h.toUnfinished with }
   refine hopen.finish (by simp [happlies]) (by simpa [happlies] using h.asked hwriting) ?_
    (not_start_of_false (h.getD_safe rfl))
   simp [happlies, h.acknowledged]

theorem Waiting.not_ending (h : Waiting s) (hnone : s.outstanding.applies = []) :
  s.writing = false ∧ s.pendingEnd = none := by
 have happlies := h.applies
 rw [hnone] at happlies
 have hwriting : s.writing = false := by
  by_contra hw
  rw [if_pos (by simpa using hw)] at happlies
  exact absurd happlies (by simp)
 refine ⟨hwriting, ?_⟩
 by_contra hne
 rw [h.ending hne] at hwriting
 exact absurd hwriting (by simp)

theorem Waiting.answered (h : Waiting s) {outstanding : Outstanding} {retryRunning : Bool}
  (hnothing : waitingFor { s with outstanding, retryRunning } = 0)
  (hgenerations : outstanding.generations = if s.generation = 0 then [] else [s.generation])
  (happlies : s.outstanding.applies = []) (hfresh : outstanding.nextGeneration ≠ 0) :
  Idle { s with outstanding, retryRunning } :=
 { h with
   generations := hgenerations
   fresh := hfresh
   nothing := hnothing
   idle := (h.not_ending happlies).1
   acknowledged := h.acknowledged }

theorem Waiting.step (h : Waiting s) (env : Environment) (e : Event) :
  Waiting (s.step env e) ∨ Ended (s.step env e) := by
 have hone := h.one
 unfold waitingFor at hone
 unfold Job.step
 split
 · exact Or.inl h
 · cases e with
   | deviceFacts inferenceSupported modelInstalled =>
    dsimp only
    split
    · exact Or.inl h
    · next hfacts =>
      have hfacts : s.outstanding.facts = true := by simpa using hfacts
      rw [hfacts, Bool.toNat_true] at hone
      have happlies := eq_nil_of_length_eq_zero
       (show s.outstanding.applies.length = 0 by omega)
      have hidle : Idle { s with outstanding := { s.outstanding with facts := false } } :=
       h.answered (by simp only [waitingFor, Bool.toNat_false]; omega) h.generations happlies
        h.fresh
      rw [if_neg (by simp [h.unfinished])]
      exact hidle.onDeviceFacts h.sent (h.not_ending happlies).2 (h.early (Or.inl hfacts)) _ _
   | extracted result =>
    dsimp only
    split
    · exact Or.inl h
    · next hextract =>
      have hextract : s.outstanding.extract = true := by simpa using hextract
      rw [hextract, Bool.toNat_true] at hone
      have happlies := eq_nil_of_length_eq_zero
       (show s.outstanding.applies.length = 0 by omega)
      have hidle : Idle { s with outstanding := { s.outstanding with extract := false } } :=
       h.answered (by simp only [waitingFor, Bool.toNat_false]; omega) h.generations happlies
        h.fresh
      rw [if_neg (by simp [h.unfinished])]
      exact hidle.onExtracted h.sent (h.not_ending happlies).2
       (h.early (Or.inr (Or.inl hextract))) env result
   | modelPrepared ok alive =>
    dsimp only
    split
    · exact Or.inl h
    · next hmodel =>
      have hmodel : s.outstanding.model = true := by simpa using hmodel
      rw [hmodel, Bool.toNat_true] at hone
      have happlies := eq_nil_of_length_eq_zero
       (show s.outstanding.applies.length = 0 by omega)
      have hidle : Idle { s with outstanding := { s.outstanding with model := false } } :=
       h.answered (by simp only [waitingFor, Bool.toNat_false]; omega) h.generations happlies
        h.fresh
      rw [if_neg (by simp [h.unfinished])]
      exact hidle.onModelPrepared h.sent (h.early (Or.inr (Or.inr hmodel))) ok alive
   | chunk generation text =>
    left
    dsimp only
    split
    · exact h
    · unfold Job.onChunk
      split <;> exact { h with }
   | generationDone generation status alive =>
    dsimp only
    split
    · exact Or.inl h
    · next hmem =>
      have hmem : generation ∈ s.outstanding.generations := by simpa using hmem
      have hgenerations := h.generations
      have hgen : s.generation ≠ 0 := by
       intro hzero
       rw [hgenerations, if_pos hzero] at hmem
       exact absurd hmem not_mem_nil
      rw [if_neg hgen] at hgenerations
      rw [hgenerations, mem_singleton] at hmem
      rw [hgenerations, length_singleton] at hone
      have happlies := eq_nil_of_length_eq_zero
       (show s.outstanding.applies.length = 0 by omega)
      have hidle : Idle { s with
        generation := 0
        outstanding := { s.outstanding with
         generations := s.outstanding.generations.erase generation } } :=
       { h with
         generations := by simp [hgenerations, hmem]
         nothing := by
          simp only [waitingFor, hgenerations, hmem, erase_cons_head, length_nil]
          omega
         idle := (h.not_ending happlies).1
         acknowledged := h.acknowledged }
      rw [if_neg (by simp [h.unfinished])]
      exact hidle.onGenerationDone h.sent env status alive
   | written result alive =>
    dsimp only
    split
    · exact Or.inl h
    · next asked rest happlies =>
      rw [happlies, length_cons] at hone
      have hrest : rest = [] := eq_nil_of_length_eq_zero (by omega)
      subst hrest
      rw [if_neg (by simp [h.unfinished])]
      exact h.onWritten happlies result alive rfl
   | retry alive =>
    dsimp only
    split
    · exact Or.inl h
    · next hretry =>
      have hretry : s.retryRunning = true := by simpa using hretry
      rw [hretry, Bool.toNat_true] at hone
      have happlies := eq_nil_of_length_eq_zero
       (show s.outstanding.applies.length = 0 by omega)
      have hidle : Idle { s with retryRunning := false } :=
       h.answered (by simp only [waitingFor, Bool.toNat_false]; omega) h.generations happlies
        h.fresh
      exact hidle.sendBatch h.sent alive
   | stop => exact h.requestEnd rfl
   | deadline =>
    dsimp only
    split
    · exact Or.inl h
    · have hstopped : Waiting { s with deadlineRunning := false } := { h with }
      exact hstopped.onDeadline
   | reportTask =>
    rw [h.unposted]
    exact Or.inl h
   | destroyed =>
    left
    have hgenerations := cancel_generations h.generations
    have happlies := h.applies
    have hcancel : s.cancelGeneration.writing = s.writing ∧
      s.cancelGeneration.writingAsked = s.writingAsked ∧
       s.cancelGeneration.pendingEnd = s.pendingEnd ∧
        s.cancelGeneration.outstanding.facts = s.outstanding.facts ∧
         s.cancelGeneration.outstanding.extract = s.outstanding.extract ∧
          s.cancelGeneration.outstanding.model = s.outstanding.model ∧
           waitingFor s.cancelGeneration ≤ waitingFor s := by
     unfold Job.cancelGeneration
     split
     · refine ⟨rfl, rfl, rfl, rfl, rfl, rfl, ?_⟩
       have hle := length_erase_le (a := s.generation) (l := s.outstanding.generations)
       simp only [waitingFor, Job.act]
       omega
     · exact ⟨rfl, rfl, rfl, rfl, rfl, rfl, le_rfl⟩
    obtain ⟨hwriting, hasked, hending, hfacts, hextract, hmodel, hwaiting⟩ := hcancel
    exact
     { unfinished := by simpa using h.unfinished
       unposted := rfl
       unreported := by simpa using h.unreported
       sentFirst := by simpa using h.sentFirst
       slots := by simpa using h.slots
       generations := by simp [hgenerations]
       fresh := by simpa using h.fresh
       one := hwaiting.trans h.one
       sent := by simpa using h.sent
       applies := by simpa [hwriting, hasked] using happlies
       asked := by simpa [hwriting, hasked] using h.asked
       acknowledged := by simpa using h.acknowledged
       ending := by simpa [hwriting, hending] using h.ending
       pendingSafe := by simpa [hending] using h.pendingSafe
       early := by simpa [hfacts, hextract, hmodel] using h.early }

theorem Ended.step (h : Ended s) (env : Environment) (e : Event) : Ended (s.step env e) := by
 unfold Job.step
 split
 · exact h
 · cases e with
   | deviceFacts inferenceSupported modelInstalled =>
    dsimp only
    split
    · exact h
    · rw [if_pos h.finished]
      exact { h with }
   | extracted result =>
    dsimp only
    split
    · exact h
    · rw [if_pos h.finished]
      exact { h with }
   | modelPrepared ok alive =>
    dsimp only
    split
    · exact h
    · rw [if_pos h.finished]
      exact { h with }
   | chunk generation text =>
    dsimp only
    rw [if_pos (by simp [h.finished])]
    exact h
   | generationDone generation status alive =>
    dsimp only
    rw [if_pos (by simp [h.generations])]
    exact h
   | written result alive =>
    dsimp only
    split
    · exact h
    · next asked rest happlies =>
      rw [if_pos h.finished]
      have hle : (parseApplyResult result s.requestId asked).getD 0 ≤ asked := by
       cases hresult : parseApplyResult result s.requestId asked with
       | none => exact Nat.zero_le _
       | some written => exact parseApplyResult_le hresult
      have hcounted := h.counted
      have hlen := h.applies
      rw [happlies, sum_cons] at hcounted
      rw [happlies, length_cons] at hlen
      exact
       { h with
         applies := by dsimp only; omega
         asked := fun a ha => h.asked a (by rw [happlies]; exact mem_cons_of_mem _ ha)
         counted := by dsimp only; omega }
   | retry alive =>
    dsimp only
    rw [if_pos (by simp [h.stopped.1])]
    exact h
   | stop =>
    have hsame : s.requestEnd .stopped = s := by simp [Job.requestEnd, h.finished]
    rw [hsame]
    exact h
   | deadline =>
    dsimp only
    rw [if_pos (by simp [h.stopped.2])]
    exact h
   | reportTask =>
    dsimp only
    split
    · next result hposted =>
      have honce := h.once
      have hresult := h.result
      rw [hposted] at honce hresult
      have hnone : reports s.actions = [] := by
       simp only [Option.toList_some, length_append, length_singleton] at honce
       exact eq_nil_of_length_eq_zero (by omega)
      exact
       { h with
         once := by simp [Job.act, hnone]
         result := by simpa [Job.act, hnone] using hresult
         sent := by simpa [Job.act] using h.sent
         noWork := h.noWork.append rfl }
    · exact h
   | destroyed =>
    have hsame : s.cancelGeneration = s := by simp [Job.cancelGeneration, h.generation]
    dsimp only
    rw [hsame]
    exact
     { h with
       once := le_trans (by simp) h.once
       result := fun r hr => h.result r (by simpa using Or.inr hr) }

end Steps

theorem waiting_start (requestId : Bytes) : Waiting (Job.start requestId) where
 unfinished := rfl
 unposted := rfl
 unreported := rfl
 sentFirst := nil_prefix
 slots := by simp [Job.start]
 generations := rfl
 fresh := Nat.one_ne_zero
 one := le_rfl
 sent := rfl
 applies := rfl
 asked := by simp [Job.start]
 acknowledged := rfl
 ending := by simp [Job.start]
 pendingSafe := by simp [Job.start]
 early := fun _ => rfl

theorem waiting_or_ended (env : Environment) (requestId : Bytes) (es : List Event) :
  Waiting (Job.afterEvents env requestId es) ∨ Ended (Job.afterEvents env requestId es) := by
 refine run_invariant_unconditional (I := fun s => Waiting s ∨ Ended s) ?_
  (Or.inl (waiting_start requestId)) es
 rintro s e (hwaiting | hended)
 · exact hwaiting.step env e
 · exact Or.inr (hended.step env e)

theorem written_zero_of_error {result : JobResult} (h : (reportForJob result).error ≠ .none)
  (hstart : isStartEnd result.jobEnd = false) : result.writtenSlots = 0 := by
 by_contra hwritten
 have hpos : result.writtenSlots > 0 := Nat.pos_of_ne_zero hwritten
 refine h ?_
 unfold reportForJob reportEarlyEnd
 cases hend : result.jobEnd with
 | finished =>
  dsimp only
  split
  · rfl
  · simp [hwritten]
 | stopped | timedOut | modelErrors | pageUnreadable => simp [hpos]
 | noModel | deviceUnsupported | modelFailed =>
  rw [hend] at hstart
  exact absurd hstart (by simp [isStartEnd])

/-- One report at most, no work after it, and an error only when the page was left as it
was. -/
theorem reports_once (env : Environment) (requestId : Bytes) (es : List Event) :
  let s := Job.afterEvents env requestId es
  (reports s.actions).length ≤ 1 ∧ NoWorkAfterReport s.actions ∧
   (s.outstanding.generations = [] ∨ s.outstanding.applies = []) ∧
   sentWrites s.actions <+: s.produced ∧
   (s.finished = false → sentWrites s.actions = s.produced) ∧
   ∀ result ∈ reports s.actions, (reportForJob result).error ≠ .none →
    s.acknowledged = 0 ∧ s.outstanding.applies = [] := by
 intro s
 have hstate : Waiting s ∨ Ended s := waiting_or_ended env requestId es
 rcases hstate with h | h
 · have hone := h.one
   unfold waitingFor at hone
   refine ⟨by simp [h.unreported], noWork_of_unreported h.unreported, ?_, h.sentFirst,
    fun _ => h.sent, by simp [h.unreported]⟩
   by_cases hnone : s.outstanding.generations = []
   · exact Or.inl hnone
   · have hpos := List.length_pos_of_ne_nil hnone
     exact Or.inr (List.eq_nil_of_length_eq_zero (by omega))
 · have honce := h.once
   rw [List.length_append] at honce
   refine ⟨by omega, h.noWork, Or.inl h.generations, h.sent,
    fun hopen => absurd (h.finished.symm.trans hopen) (by simp), ?_⟩
   intro result hresult herror
   obtain ⟨hwritten, hstart⟩ := h.result result (List.mem_append_right _ hresult)
   have hzero : s.writtenSlots = 0 := by
    cases hend : isStartEnd result.jobEnd with
    | true => exact hstart hend
    | false => exact hwritten ▸ written_zero_of_error herror hend
   have hcounted : s.acknowledged + s.outstanding.applies.sum ≤ s.writtenSlots := h.counted
   refine ⟨by omega, List.eq_nil_iff_forall_not_mem.2 fun asked hmem => ?_⟩
   have hpos := h.asked asked hmem
   have hle := List.single_le_sum (fun _ _ => Nat.zero_le _) asked hmem
   omega

end MoltBrowser.PageTranslationJob
