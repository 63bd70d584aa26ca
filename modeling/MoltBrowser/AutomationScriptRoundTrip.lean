import MoltBrowser.AutomationScript

set_option autoImplicit false

/-!
# What a script file keeps

`FromJSON` after `ToJSON`, field by field: the writer leaves out what it takes
for a default, and a double holds a 64-bit number only to 53 bits.
-/
namespace MoltBrowser.AutomationScript
open AutomationLocators SortedTable List

/-! ## What the file keeps of each record -/

def keepPositive (i : ℤ) : ℤ := if i > 0 then Double.keepInt64 i else 0

def Trigger.stored (t : Trigger) : Trigger :=
 { t with untilUnix := keepPositive t.untilUnix, lastFiredUnix := keepPositive t.lastFiredUnix }

def SecurityPolicy.stored (p : SecurityPolicy) : SecurityPolicy :=
 { p with maxNetworkBytes := Double.keepInt64 p.maxNetworkBytes }

def RunRecord.stored (r : RunRecord) : RunRecord :=
 { r with
   timestampUnix := Double.keepInt64 r.timestampUnix
   aiTokens := if r.aiTokens > 0 then r.aiTokens else 0 }

def Stats.stored (s : Stats) : Stats :=
 { s with
   lastRunUnix := Double.keepInt64 s.lastRunUnix
   lastFailedStepIndex := if s.lastFailedStepIndex ≥ 0 then s.lastFailedStepIndex else -1
   aiTokensTotal := keepPositive s.aiTokensTotal
   runHistory := s.runHistory.map RunRecord.stored }

def Script.stored (s : Script) : Script :=
 { s with
   createdAtUnix := Double.keepInt64 s.createdAtUnix
   trigger := s.trigger.stored
   security := s.security.stored
   stats := s.stats.stored }

/-! ## Reading what was written -/

@[simp] theorem stepTypeFromString_toString (t : StepType) :
  stepTypeFromString (stepTypeToString t) = t := by
 cases t <;> simp [stepTypeToString, stepTypeFromString]

@[simp] theorem triggerTypeFromString_toString (t : TriggerType) :
  triggerTypeFromString (triggerTypeToString t) = t := by
 cases t <;> simp [triggerTypeToString, triggerTypeFromString]

@[simp] theorem trustLevelFromString_toString (t : TrustLevel) :
  trustLevelFromString (trustLevelToString t) = t := by
 cases t <;> simp [trustLevelToString, trustLevelFromString]

section Fields

variable {α : Type} (r : Value → Option α) (d : Dict) (key : Bytes) (v : Value) (f : α)

def read : α := ((d.find key).bind r).getD f

theorem getString_eq (f : Bytes) : getString d key f = read Value.string? d key f := rfl

theorem getInt_eq (f : Int32) : getInt d key f = read Value.int? d key f := rfl

theorem getBool_eq (f : Bool) : getBool d key f = read Value.bool? d key f := rfl

theorem getStringList_eq :
  getStringList d key = (read Value.list? d key []).filterMap Value.string? := rfl

theorem getDictList_eq : getDictList d key = (read Value.list? d key []).filterMap Value.dict? := rfl

/-- `GetInt64` of one value. -/
def int64? (v : Value) : Option ℤ := (v.int?.map Int32.toInt).or (v.double?.map Double.toInt64)

theorem getInt64_eq (f : ℤ) : getInt64 d key f = read int64? d key f := by
 simp only [getInt64, read, Dict.findInt, Dict.findDouble]
 cases d.find key with
 | none => rfl
 | some v => cases v <;> rfl

@[simp] theorem read_nil : read r [] key f = f := rfl

@[simp] theorem read_set_self : read r (d.set key v) key f = (r v).getD f := by
 simp [read]

@[simp] theorem read_set_of_ne {k : Bytes} (h : key ≠ k) : read r (d.set k v) key f = read r d key f := by
 simp [read, h]

variable (c : Prop) [Decidable c]

@[simp] theorem read_setIf_self :
  read r (Dict.setIf c d key v) key f = if c then (r v).getD f else read r d key f := by
 unfold Dict.setIf
 split <;> simp

@[simp] theorem read_setIf_of_ne {k : Bytes} (h : key ≠ k) :
  read r (Dict.setIf c d k v) key f = read r d key f := by
 unfold Dict.setIf
 split
 · exact read_set_of_ne r d key v f h
 · rfl

@[simp] theorem ite_default [DecidableEq α] (x f : α) : (if x = f then f else x) = x := by
 split
 · next h => exact h.symm
 · rfl

@[simp] theorem ite_nil_map {β : Type} [DecidableEq α] (l : List α) (g : α → β) :
  (if l = [] then [] else l.map g) = l.map g := by
 split
 · next h => rw [h, map_nil]
 · rfl

@[simp] theorem int64?_int64Value (i : ℤ) : int64? (int64Value i) = some (Double.keepInt64 i) := rfl

@[simp] theorem filterMap_string (l : List Bytes) :
  l.filterMap (Value.string? ∘ Value.string) = l := filterMap_some

@[simp] theorem filterMap_dict (l : List α) (g : α → Dict) :
  l.filterMap (Value.dict? ∘ fun a => Value.dict (g a)) = l.map g :=
 congrFun filterMap_eq_map l

end Fields

theorem trigger_stored (t : Trigger) : triggerFromDict (triggerToDict t) = t.stored := by
 simp [triggerFromDict, triggerToDict, Trigger.stored, keepPositive, getString_eq, getInt64_eq]

theorem security_stored (p : SecurityPolicy) : securityFromDict (securityToDict p) = p.stored := by
 simp [securityFromDict, securityToDict, SecurityPolicy.stored, getString_eq, getInt64_eq,
  getInt_eq, getBool_eq, getStringList_eq, stringListValue]

theorem stepResult_stored (r : StepResult) : stepResultFromDict (stepResultToDict r) = r := by
 simp [stepResultFromDict, stepResultToDict, getString_eq, getInt_eq, getBool_eq]

theorem runRecord_stored (r : RunRecord) : runRecordFromDict (runRecordToDict r) = r.stored := by
 have hsteps : stepResultFromDict ∘ stepResultToDict = id := funext stepResult_stored
 simp [runRecordFromDict, runRecordToDict, RunRecord.stored, getString_eq, getInt64_eq,
  getInt_eq, getBool_eq, getDictList_eq, hsteps]

theorem stats_stored (s : Stats) : statsFromDict (statsToDict s) = s.stored := by
 have hhistory : runRecordFromDict ∘ runRecordToDict = RunRecord.stored := funext runRecord_stored
 simp [statsFromDict, statsToDict, Stats.stored, keepPositive, getString_eq, getInt64_eq,
  getInt_eq, getBool_eq, getDictList_eq, hhistory]

variable {url : UrlLibrary}

theorem step_stored {s : Step}
  (h : ∀ l ∈ s.locators, parse url (toValue l) = some l) :
  stepFromDict url (stepToDict s) = s := by
 obtain ⟨kind, target, selectorFallbacks, locators, value, storeAs, transform, timeoutMs,
  maxIterations, retries, extra, description⟩ := s
 have hextra : (if extra.isNone = false then some extra else none).getD .none = extra := by
  cases extra <;> rfl
 cases locators with
 | none =>
  simp [stepFromDict, stepToDict, getString_eq, getInt_eq, getStringList_eq, stringListValue,
   hextra]
 | some l =>
  simp [stepFromDict, stepToDict, getString_eq, getInt_eq, getStringList_eq, stringListValue,
   hextra, h l rfl]

theorem variables_stored (t : Table Bytes Bytes) :
  variablesFromDict (t.entries.foldl (fun vars kv => Dict.set vars kv.1 (.string kv.2)) []) = t := by
 have hdict := foldl_upsert_sorted Value.string [] t.entries t.sorted (by simp)
 simp only [Dict.set, hdict, variablesFromDict, nil_append, foldl_map, Value.string?]
 exact t.rebuild

variable {s : Script}

theorem fromJSON_toJSON (url : UrlLibrary) (hid : s.id ≠ [])
  (hloc : ∀ step ∈ s.steps, ∀ l ∈ step.locators, parse url (toValue l) = some l) :
  fromJSON url (toJSON s) = some s.stored := by
 have hsteps : (s.steps.map stepToDict).map (stepFromDict url) = s.steps := by
  rw [map_map]
  exact (map_congr_left fun step hstep => step_stored (hloc step hstep)).trans
   (map_id _)
 simp [fromJSON, toJSON, Script.stored, getString_eq, getInt64_eq, getInt_eq, getBool_eq,
  getDictList_eq, Dict.findDict, hid, hsteps, trigger_stored, security_stored,
  stats_stored, variables_stored]

/-! ## 64-bit numbers that a double holds -/

/-- A double holds the number exactly; every number to `2 ^ 53` in magnitude is such. -/
def Held (i : ℤ) : Prop := Double.keepInt64 i = i

instance (i : ℤ) : Decidable (Held i) := inferInstanceAs (Decidable (_ = _))

theorem held_getInt64 (d : Dict) (key : Bytes) {f : ℤ} (hf : Held f) : Held (getInt64 d key f) := by
 unfold getInt64
 cases d.findInt key with
 | some i =>
  have hlt := i.toInt_lt
  have hle := i.le_toInt
  exact Double.keepInt64_of_small (by dsimp only; omega)
 | none =>
  cases d.findDouble key with
  | some x => exact Double.keepInt64_toInt64 x
  | none => exact hf

structure Script.AllHeld (s : Script) : Prop where
 createdAt : Held s.createdAtUnix
 untilUnix : Held s.trigger.untilUnix
 lastFired : Held s.trigger.lastFiredUnix
 networkBytes : Held s.security.maxNetworkBytes
 lastRun : Held s.stats.lastRunUnix
 tokensTotal : Held s.stats.aiTokensTotal
 history : ∀ r ∈ s.stats.runHistory, Held r.timestampUnix

/-- Negative values of the fields that are written only when positive (an index: when not
negative) replaced by the defaults. -/
def Script.withoutNegatives (s : Script) : Script :=
 { s with
   trigger := { s.trigger with
    untilUnix := max 0 s.trigger.untilUnix
    lastFiredUnix := max 0 s.trigger.lastFiredUnix }
   stats := { s.stats with
    lastFailedStepIndex :=
     if s.stats.lastFailedStepIndex ≥ 0 then s.stats.lastFailedStepIndex else -1
    aiTokensTotal := max 0 s.stats.aiTokensTotal
    runHistory := s.stats.runHistory.map fun r =>
     { r with aiTokens := if r.aiTokens > 0 then r.aiTokens else 0 } } }

theorem keepPositive_of_held {i : ℤ} (h : Held i) : keepPositive i = max 0 i := by
 unfold keepPositive
 split
 · rw [h]
   omega
 · omega

theorem Script.AllHeld.stored_eq (h : s.AllHeld) : s.stored = s.withoutNegatives := by
 have hhistory : s.stats.runHistory.map RunRecord.stored = s.stats.runHistory.map fun r =>
   { r with aiTokens := if r.aiTokens > 0 then r.aiTokens else 0 } :=
  map_congr_left fun r hr => by rw [RunRecord.stored, h.history r hr]
 simp only [Script.stored, Script.withoutNegatives, Trigger.stored, SecurityPolicy.stored,
  Stats.stored, keepPositive_of_held h.untilUnix, keepPositive_of_held h.lastFired,
  keepPositive_of_held h.tokensTotal, hhistory]
 rw [h.createdAt, h.networkBytes, h.lastRun]

theorem fromJSON_spec {d : Dict} (h : fromJSON url d = some s) :
  s.id ≠ [] ∧ s.AllHeld ∧ ∀ step ∈ s.steps, ∀ l ∈ step.locators, ∃ v, parse url v = some l := by
 simp only [fromJSON] at h
 split at h
 · cases h
 · next hid =>
   cases h
   refine ⟨hid, ⟨?_, ?_, ?_, ?_, ?_, ?_, ?_⟩, ?_⟩
   case refine_8 =>
    intro step hstep l hl
    obtain ⟨sd, -, rfl⟩ := mem_map.1 hstep
    obtain ⟨v, -, hv⟩ := Option.bind_eq_some_iff.1 hl
    exact ⟨v, hv⟩
   case refine_1 => exact held_getInt64 d _ (by decide)
   case refine_2 | refine_3 =>
    cases d.findDict "trigger" with
    | none => exact (by decide : Held 0)
    | some t => exact held_getInt64 t _ (by decide)
   case refine_4 =>
    cases d.findDict "security" with
    | none => exact (by decide : Held (200 * 1024 * 1024))
    | some p => exact held_getInt64 p _ (by decide)
   case refine_5 | refine_6 =>
    cases d.findDict "stats" with
    | none => exact (by decide : Held 0)
    | some st => exact held_getInt64 st _ (by decide)
   case refine_7 =>
    cases d.findDict "stats" with
    | none => exact fun r hr => by cases hr
    | some st =>
     intro r hr
     obtain ⟨rd, -, rfl⟩ := mem_map.1 hr
     exact held_getInt64 rd _ (by decide)

/-! ## Round trips -/

def IsTime (i : ℤ) : Prop := 0 ≤ i ∧ i < 2 ^ 53

structure Script.Sound (url : UrlLibrary) (s : Script) : Prop where
 id : s.id ≠ []
 createdAt : IsTime s.createdAtUnix
 untilUnix : IsTime s.trigger.untilUnix
 lastFired : IsTime s.trigger.lastFiredUnix
 lastRun : IsTime s.stats.lastRunUnix
 failedStep : -1 ≤ s.stats.lastFailedStepIndex
 tokensTotal : 0 ≤ s.stats.aiTokensTotal
 history : ∀ r ∈ s.stats.runHistory, IsTime r.timestampUnix ∧ 0 ≤ r.aiTokens
 locators : ∀ step ∈ s.steps, ∀ l ∈ step.locators, ∃ v, parse url v = some l

theorem IsTime.held {i : ℤ} (h : IsTime i) : Held i :=
 Double.keepInt64_of_small (by obtain ⟨h₁, h₂⟩ := h; omega)

theorem int32_default {i : Int32} {j : Int32} (h : j ≤ i) : (if i > j then i else j) = i := by
 split
 · rfl
 · next hlt =>
   rw [gt_iff_lt, Int32.lt_iff_toInt_lt] at hlt
   rw [Int32.le_iff_toInt_le] at h
   exact Int32.toInt_inj.1 (by omega)

theorem failedStep_default {i : Int32} (h : -1 ≤ i) : (if i ≥ 0 then i else -1) = i := by
 split
 · rfl
 · next hlt =>
   rw [ge_iff_le, Int32.le_iff_toInt_le] at hlt
   rw [Int32.le_iff_toInt_le] at h
   have hm1 : (-1 : Int32).toInt = -1 := by decide
   have h0 : (0 : Int32).toInt = 0 := by decide
   exact Int32.toInt_inj.1 (by omega)

theorem Script.Sound.withoutNegatives_eq (h : s.Sound url) :
  s.withoutNegatives = s := by
 have hhistory : (s.stats.runHistory.map fun r =>
   { r with aiTokens := if r.aiTokens > 0 then r.aiTokens else 0 }) = s.stats.runHistory := by
  refine (map_congr_left fun r hr => ?_).trans (map_id _)
  rw [int32_default (h.history r hr).2]
  rfl
 have huntil := max_eq_right h.untilUnix.1
 have hfired := max_eq_right h.lastFired.1
 have htokens := max_eq_right h.tokensTotal
 rw [Script.withoutNegatives, huntil, hfired, htokens, failedStep_default h.failedStep, hhistory]

theorem Script.Sound.allHeld (h : s.Sound url)
  (hbytes : Held s.security.maxNetworkBytes) (htokens : Held s.stats.aiTokensTotal) :
  s.AllHeld where
 createdAt := h.createdAt.held
 untilUnix := h.untilUnix.held
 lastFired := h.lastFired.held
 networkBytes := hbytes
 lastRun := h.lastRun.held
 tokensTotal := htokens
 history r hr := (h.history r hr).1.held

/-- Files round-trip: a sound script comes back whole, and a file that was read, written and
read again says the same but for negative values the writer leaves out. -/
theorem files_round_trip (url : UrlLibrary) :
  (∀ s : Script, s.Sound url → Held s.security.maxNetworkBytes → Held s.stats.aiTokensTotal →
   fromJSON url (toJSON s) = some s) ∧
  (∀ (d : Dict) (s : Script), fromJSON url d = some s →
   fromJSON url (toJSON s) = some s.withoutNegatives) := by
 constructor
 · intro s h hbytes htokens
   have hloc : ∀ step ∈ s.steps, ∀ l ∈ step.locators, parse url (toValue l) = some l :=
    fun step hstep l hl => parse_toValue (h.locators step hstep l hl).choose_spec
   rw [fromJSON_toJSON url h.id hloc, (h.allHeld hbytes htokens).stored_eq, h.withoutNegatives_eq]
 · intro d s h
   obtain ⟨hid, hheld, hparsed⟩ := fromJSON_spec h
   have hloc : ∀ step ∈ s.steps, ∀ l ∈ step.locators, parse url (toValue l) = some l :=
    fun step hstep l hl => parse_toValue (hparsed step hstep l hl).choose_spec
   rw [fromJSON_toJSON url hid hloc, hheld.stored_eq]

section Samples

def sampleUrls : UrlLibrary :=
 ⟨fun s => if s = "https://a.example" then some "https://a.example" else none⟩

def sampleLocators : StepLocators where
 origin := "https://a.example"
 element := ⟨"input", "password", []⟩
 field := .password
 list := [⟨.attr, [], "name", "pw"⟩, ⟨.label, [], [], "Password"⟩]

def sampleScript : Script where
 id := "a"
 name := "Sign in"
 trigger := { type := .interval, expression := "60", lastFiredUnix := 1700000000 }
 steps := [{ type := .type, locators := some sampleLocators, retries := 2 }]
 security := { trust := .approved }
 stats := { runs := 3, runHistory := [{ timestampUnix := 1700000000, aiTokens := 7 }] }

theorem sampleScript_sound : sampleScript.Sound sampleUrls where
 id := by decide
 createdAt := ⟨by decide, by decide⟩
 untilUnix := ⟨by decide, by decide⟩
 lastFired := ⟨by decide, by decide⟩
 lastRun := ⟨by decide, by decide⟩
 failedStep := by decide
 tokensTotal := by decide
 history r hr := by
  rw [mem_singleton.1 hr]
  exact ⟨⟨by decide, by decide⟩, by decide⟩
 locators step hstep l hl := by
  rw [mem_singleton.1 hstep] at hl
  cases hl
  exact ⟨toValue sampleLocators, by decide⟩

theorem files_round_trip_sample : sampleScript.Sound sampleUrls ∧
  Held sampleScript.security.maxNetworkBytes ∧ Held sampleScript.stats.aiTokensTotal ∧
  fromJSON sampleUrls (toJSON sampleScript) = some sampleScript ∧
  fromJSON sampleUrls (toJSON sampleScript) = some sampleScript.withoutNegatives :=
 have hread := (files_round_trip sampleUrls).1 sampleScript sampleScript_sound (by decide)
  (by decide)
 ⟨sampleScript_sound, by decide, by decide, hread,
  (files_round_trip sampleUrls).2 _ sampleScript hread⟩

def expiredFile : Dict := [("id", .string "x"), ("trigger", .dict [("until_unix", .int (-5))])]

def tokensScript : Script := { id := "x", stats := { aiTokensTotal := 2 ^ 53 + 1 } }

theorem tokensScript_sound : tokensScript.Sound sampleUrls where
 id := by decide
 createdAt := ⟨by decide, by decide⟩
 untilUnix := ⟨by decide, by decide⟩
 lastFired := ⟨by decide, by decide⟩
 lastRun := ⟨by decide, by decide⟩
 failedStep := by decide
 tokensTotal := by decide
 history r hr := by cases hr
 locators step hstep := by cases hstep

/-- Not every file and not every sound script comes back. -/
theorem files_lose_values :
  (∃ s, fromJSON sampleUrls expiredFile = some s ∧
   fromJSON sampleUrls (toJSON s) ≠ some s) ∧
  tokensScript.Sound sampleUrls ∧
   fromJSON sampleUrls (toJSON tokensScript) ≠ some tokensScript := by
 refine ⟨⟨{ id := "x", name := "x", trigger := { untilUnix := -5 } }, rfl, ?_⟩,
  tokensScript_sound, ?_⟩
 · rw [fromJSON_toJSON sampleUrls (by decide) (fun step hstep => by cases hstep)]
   intro h
   exact absurd (congrArg (fun s : Script => s.trigger.untilUnix) (Option.some.inj h)) (by decide)
 · rw [fromJSON_toJSON sampleUrls (by decide) (fun step hstep => by cases hstep)]
   intro h
   exact absurd (congrArg (fun s : Script => s.stats.aiTokensTotal) (Option.some.inj h)) (by decide)

end Samples

end MoltBrowser.AutomationScript
