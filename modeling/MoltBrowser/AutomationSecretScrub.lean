import MoltBrowser.AutomationRunStats

set_option autoImplicit false

/-!
# What scrubbing a script's secrets leaves

A scrubbed step keeps no value and doesn't quote its own; the run history quotes
none of the removed ones. Another step's description is left as it is.
-/
namespace MoltBrowser.AutomationSecurity
open AutomationScript AutomationLocators AutomationRunStats
open List hiding contains

/-! ## One step -/

theorem find_remove (d : Dict) (key k : Bytes) :
  (d.remove key).find k = if k = key then none else d.find k := by
 induction d with
 | nil => simp [Dict.remove]
 | cons kv d ih =>
  obtain ⟨j, v⟩ := kv
  unfold Dict.remove Dict.find at ih ⊢
  by_cases hj : j = key
  · subst hj
    rw [filter_cons_of_neg (by simp), ih]
    split_ifs with hk
    · rfl
    · simp [SortedTable.find, hk]
  · rw [filter_cons_of_pos (by simpa using hj)]
    simp only [SortedTable.find]
    by_cases hkj : k = j
    · subst hkj
      simp [hj]
    · simp only [hkj, if_false]
      exact ih

variable {d step : Dict} {secret t : Bytes} {kind : FieldKind} {removed : List Bytes}

theorem scrubStep_of_none (h : plaintextSecret step = none) : scrubStep step = step := by
 rw [scrubStep, h]

theorem scrubStep_fields (h : plaintextSecret step = some (secret, kind)) :
  (scrubStep step).find "value" = none ∧ (scrubStep step).find "type" = step.find "type" ∧
   (scrubStep step).findString "description" =
    if ((step.findString "description").map (contains secret)).getD false = true then
     some (secretStepDescription kind)
    else step.findString "description" := by
 simp only [scrubStep, h]
 refine ⟨?_, ?_, ?_⟩
 · simp [find_remove]
 · simp [find_remove]
 · generalize ((step.findString "description").map (contains secret)).getD false = quoted
   cases quoted with
   | false => simp [Dict.findString, Dict.setIf, find_remove]
   | true => simp [Dict.findString, Dict.setIf, find_remove]

/-- A TYPE step that is marked secret, masked, or aimed at a sensitive field. -/
structure SecretStep (step : Dict) : Prop where
 type : step.findString "type" = some (utf8 "type")
 sensitive : isSensitive (typedFieldKind step) = true

theorem plaintextSecret_iff : plaintextSecret step = some (secret, kind) ↔
  SecretStep step ∧ step.findString "value" = some secret ∧ secret ≠ [] ∧
   kind = typedFieldKind step := by
 rw [plaintextSecret]
 constructor
 · intro h
   split at h
   · next type value htype hvalue =>
     split_ifs at h with hskip hsensitive
     rw [not_or, not_not] at hskip
     cases h
     exact ⟨⟨by rw [htype, hskip.1], hsensitive⟩, hvalue, hskip.2, rfl⟩
   · cases h
 · rintro ⟨⟨htype, hsensitive⟩, hvalue, hne, rfl⟩
   rw [htype, hvalue]
   simp [hne, hsensitive]

theorem plaintextSecret_scrubStep (step : Dict) : plaintextSecret (scrubStep step) = none := by
 cases h : plaintextSecret step with
 | none => rw [scrubStep_of_none h, h]
 | some found =>
  obtain ⟨secret, kind⟩ := found
  obtain ⟨hvalue, -, -⟩ := scrubStep_fields h
  rw [plaintextSecret, Dict.findString, Dict.findString, hvalue]
  cases (Dict.find (scrubStep step) "type").bind Value.string? <;> rfl

/-! ## The whole script -/

def historySteps (d : Dict) : List Dict :=
 (getDictList ((d.findDict "stats").getD []) "run_history").flatMap (getDictList · "steps")

theorem redactStep_nil (d : Dict) : redactStep [] d = d := by
 rw [redactStep]
 split
 · rfl
 · rfl

theorem removedValues_eq_nil :
  removedValues d = [] ↔ ∀ step ∈ getDictList d "steps", plaintextSecret step = none := by
 simp [removedValues, filterMap_eq_nil_iff]

theorem scrub_steps (d : Dict) :
  getDictList (scrubPlaintextSecrets d).2 "steps" = (getDictList d "steps").map scrubStep := by
 simp only [scrubPlaintextSecrets]
 split
 · next hnone =>
   rw [removedValues_eq_nil] at hnone
   rw [map_congr_left fun step hstep => scrubStep_of_none (hnone step hstep), map_id']
 · rw [← getDictList_changeList]
   split
   · rw [getDictList, getDictList, Dict.findList, Dict.findList, Dict.find_set, if_neg (by simp)]
   · rfl

theorem historySteps_redactStats (removed : List Bytes) (stats : Dict) :
  (getDictList (redactStats removed stats) "run_history").flatMap (getDictList · "steps") =
   ((getDictList stats "run_history").flatMap (getDictList · "steps")).map (redactStep removed) := by
 rw [redactStats, getDictList_changeList, flatMap_map, map_flatMap]
 exact flatMap_congr fun run _ => getDictList_changeList ..

theorem scrub_history (d : Dict) :
  historySteps (scrubPlaintextSecrets d).2 = (historySteps d).map (redactStep (removedValues d)) := by
 simp only [scrubPlaintextSecrets]
 split
 · next hnone => rw [hnone, map_congr_left fun step _ => redactStep_nil step, map_id']
 · have hstats : (d.changeList "steps" scrubStep).findDict "stats" = d.findDict "stats" := by
    rw [Dict.findDict, Dict.findDict, find_changeList_of_ne _ _ _ _ (by simp)]
   rw [hstats]
   cases hfind : d.findDict "stats" with
   | none => simp [historySteps, hstats, hfind, getDictList, Dict.findList]
   | some stats =>
    simp only [historySteps, hfind, Option.getD_some]
    rw [Dict.findDict, Dict.find_set, if_pos rfl, Option.bind_some, Value.dict?_dict, Option.getD_some]
    exact historySteps_redactStats ..

/-! ## Complete scrubbing -/

def fixedTexts : List Bytes :=
 utf8 "[redacted]" :: [.password, .paymentCard, .oneTimeCode].map secretStepDescription

theorem secretStepDescription_mem (h : isSensitive kind = true) :
  secretStepDescription kind ∈ fixedTexts := by
 cases kind with
 | ordinary => cases h
 | password => simp [fixedTexts]
 | paymentCard => simp [fixedTexts]
 | oneTimeCode => simp [fixedTexts]

def KeepsValue (step : Dict) : Prop := ∃ v, step.find "value" = some v ∧ v ≠ .string []

/-- The text under `key`, where it quoted a removed value, has been replaced by a fixed one. -/
def Replaced (key : Bytes) (removed : List Bytes) (before after : Dict) : Prop :=
 ∀ t, before.findString key = some t → quotesSecret removed t = true →
  ∃ fixed ∈ fixedTexts, after.findString key = some fixed

/-- Complete scrubbing: no secret step keeps a value, no text that quoted a removed value is left,
and there is nothing more to scrub. -/
structure Scrubbed (before after : Dict) : Prop where
 values : ∀ step ∈ getDictList after "steps", SecretStep step → ¬ KeepsValue step
 descriptions : List.Forall₂ (Replaced "description" (removedValues before))
  (getDictList before "steps") (getDictList after "steps")
 history : List.Forall₂ (Replaced "desc" (removedValues before))
  (historySteps before) (historySteps after)
 again : scrubPlaintextSecrets after = (false, after)

/-- The condition for it: the values of secret steps are texts, as a script's are, and a
description that quotes a removed value quotes its own step's, or is a fixed text already. -/
structure QuotesOwn (d : Dict) : Prop where
 text : ∀ step ∈ getDictList d "steps", SecretStep step → ∀ v, step.find "value" = some v →
  ∃ s, v = .string s
 own : ∀ step ∈ getDictList d "steps", ∀ t, step.findString "description" = some t →
  quotesSecret (removedValues d) t = true →
  t ∈ fixedTexts ∨ ∃ secret kind, plaintextSecret step = some (secret, kind) ∧
   contains secret t = true

theorem scrub_again (d : Dict) : scrubPlaintextSecrets (scrubPlaintextSecrets d).2 =
  (false, (scrubPlaintextSecrets d).2) := by
 have hnone : removedValues (scrubPlaintextSecrets d).2 = [] := by
  rw [removedValues_eq_nil, scrub_steps]
  intro step hstep
  obtain ⟨before, -, rfl⟩ := mem_map.1 hstep
  exact plaintextSecret_scrubStep before
 rw [scrubPlaintextSecrets, if_pos hnone]

theorem replaced_redactStep (removed : List Bytes) (d : Dict) :
  Replaced "desc" removed d (redactStep removed d) := by
 intro t ht hquotes
 refine ⟨utf8 "[redacted]", by simp [fixedTexts], ?_⟩
 rw [redactStep, ht]
 simp [Dict.setIf, hquotes, Dict.findString]

theorem history_replaced (d : Dict) : List.Forall₂ (Replaced "desc" (removedValues d))
  (historySteps d) (historySteps (scrubPlaintextSecrets d).2) := by
 rw [scrub_history, forall₂_map_right_iff, forall₂_same]
 exact fun step _ => replaced_redactStep _ step

theorem replaced_scrubStep (removed : List Bytes) (step : Dict) :
  Replaced "description" removed step (scrubStep step) ↔
   ∀ t, step.findString "description" = some t → quotesSecret removed t = true →
    t ∈ fixedTexts ∨ ∃ secret kind, plaintextSecret step = some (secret, kind) ∧
     contains secret t = true := by
 refine forall_congr' fun t => forall_congr' fun ht => forall_congr' fun _ => ?_
 cases h : plaintextSecret step with
 | none =>
  rw [scrubStep_of_none h, ht]
  simp
 | some found =>
  obtain ⟨secret, kind⟩ := found
  obtain ⟨-, -, hdesc⟩ := scrubStep_fields h
  have hkind := (plaintextSecret_iff.1 h).2.2.2 ▸ (plaintextSecret_iff.1 h).1.sensitive
  rw [hdesc, ht, Option.map_some, Option.getD_some]
  split_ifs with hquoted
  · refine iff_of_true ⟨_, secretStepDescription_mem hkind, rfl⟩ (.inr ⟨secret, kind, rfl, hquoted⟩)
  · simp [hquoted]

theorem descriptions_replaced (d : Dict) :
  List.Forall₂ (Replaced "description" (removedValues d)) (getDictList d "steps")
   (getDictList (scrubPlaintextSecrets d).2 "steps") ↔
  ∀ step ∈ getDictList d "steps",
   Replaced "description" (removedValues d) step (scrubStep step) := by
 rw [scrub_steps, forall₂_map_right_iff, forall₂_same]

/-- Scrubbing is complete exactly when each description quotes only its own step's secret. -/
theorem scrub_complete_iff (d : Dict) : Scrubbed d (scrubPlaintextSecrets d).2 ↔ QuotesOwn d := by
 constructor
 · intro h
   refine ⟨fun step hstep hsecret v hv => ?_, fun step hstep =>
    (replaced_scrubStep _ step).1 ((descriptions_replaced d).1 h.descriptions step hstep)⟩
   by_contra hnot
   -- A value that isn't a text is not seen, so that the step stays as it is.
   have hnone : plaintextSecret step = none := by
    cases hfound : plaintextSecret step with
    | none => rfl
    | some found =>
     obtain ⟨-, hvalue, -⟩ := plaintextSecret_iff.1 hfound
     rw [Dict.findString, hv, Option.bind_some] at hvalue
     cases v with
     | string s => exact absurd ⟨s, rfl⟩ hnot
     | _ => cases hvalue
   refine h.values step ?_ hsecret ⟨v, hv, fun hempty => hnot ⟨[], hempty⟩⟩
   rw [scrub_steps]
   exact List.mem_map.2 ⟨step, hstep, scrubStep_of_none hnone⟩
 · intro h
   refine ⟨fun after hafter hsecret => ?_, (descriptions_replaced d).2 fun step hstep =>
    (replaced_scrubStep _ step).2 (h.own step hstep), history_replaced d, scrub_again d⟩
   rintro ⟨v, hv, hne⟩
   rw [scrub_steps] at hafter
   obtain ⟨step, hstep, rfl⟩ := List.mem_map.1 hafter
   cases hfound : plaintextSecret step with
   | some found =>
    rw [(scrubStep_fields hfound).1] at hv
    cases hv
   | none =>
    rw [scrubStep_of_none hfound] at hv hsecret
    obtain ⟨s, rfl⟩ := h.text step hstep hsecret v hv
    have hvalue : step.findString "value" = some s := by rw [Dict.findString, hv]; rfl
    have hsome := plaintextSecret_iff.2 ⟨hsecret, hvalue, fun hs => hne (by rw [hs]), rfl⟩
    rw [hfound] at hsome
    cases hsome

def passwordStep : Dict :=
 [("target", .string "#password"), ("type", .string "type"), ("value", .string "hunter2")]

def quotingStep : Dict := [("description", .string "Check hunter2"), ("type", .string "click")]

def quotedElsewhere : Dict := [("steps", .list [.dict passwordStep, .dict quotingStep])]

/-- It still quotes it after scrubbing. -/
theorem quoted_elsewhere_kept :
  ¬ Scrubbed quotedElsewhere (scrubPlaintextSecrets quotedElsewhere).2 := by
 intro h
 have hsteps : getDictList quotedElsewhere "steps" = [passwordStep, quotingStep] := rfl
 have hplain : plaintextSecret quotingStep = none := rfl
 have hreplaced := (descriptions_replaced _).1 h.descriptions quotingStep (by simp [hsteps])
 rcases (replaced_scrubStep _ _).1 hreplaced "Check hunter2" rfl (by decide) with hfixed | hown
 · revert hfixed
   decide
 · obtain ⟨secret, kind, hsome, -⟩ := hown
   rw [hplain] at hsome
   cases hsome

end MoltBrowser.AutomationSecurity
