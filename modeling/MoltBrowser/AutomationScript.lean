import MoltBrowser.AutomationLocators

set_option autoImplicit false

/-!
# Scripts and their stored form (`automation_script.cc`)

The data model of a workflow, the dictionary `Script::ToJSON` writes and the
one `Script::FromJSON` reads. Fields at their default are mostly left out of
the file; the reader has a default of its own for each.
-/
namespace MoltBrowser.AutomationScript
open AutomationLocators SortedTable

/-! ## Data model -/

inductive StepType where
 | navigate
 | click
 | type
 | scroll
 | keypress
 | wait
 | waitFor
 | extract
 | aiExtract
 | aiDecide
 | if_
 | else_
 | endIf
 | loop
 | endLoop
 | assert
 | notify
 | screenshot
 | runJs
 | runScript
 | callTool
 | unknown
 deriving DecidableEq, Repr

inductive TriggerType where
 | manual
 | cron
 | interval
 | at_
 | onEvent
 deriving DecidableEq, Repr

inductive TrustLevel where
 | casual
 | approved
 | trusted
 | admin
 deriving DecidableEq, Repr

structure Step where
 type : StepType := .unknown
 target : Bytes := []
 selectorFallbacks : List Bytes := []
 locators : Option StepLocators := none
 value : Bytes := []
 storeAs : Bytes := []
 transform : Bytes := []
 timeoutMs : Int32 := 5000
 maxIterations : Int32 := 100
 retries : Int32 := 0
 extra : Value := .none
 description : Bytes := []

structure Trigger where
 type : TriggerType := .manual
 expression : Bytes := []
 timezone : Bytes := []
 untilUnix : ℤ := 0
 lastFiredUnix : ℤ := 0
 deriving DecidableEq

structure SecurityPolicy where
 domainWhitelist : List Bytes := []
 requireApprovalFor : List Bytes := []
 maxRuntimeSeconds : Int32 := 300
 maxNavigations : Int32 := 20
 maxNetworkBytes : ℤ := 200 * 1024 * 1024
 trust : TrustLevel := .casual
 sitesUnconfirmed : Bool := false
 deriving DecidableEq

structure StepResult where
 index : Int32 := 0
 type : StepType := .unknown
 description : Bytes := []
 ok : Bool := false
 durationMs : Int32 := 0
 screenshot : Bytes := []
 note : Bytes := []
 foundBy : Bytes := []
 deriving DecidableEq

structure RunRecord where
 timestampUnix : ℤ := 0
 success : Bool := false
 durationMs : Int32 := 0
 stepsExecuted : Int32 := 0
 totalSteps : Int32 := 0
 aiTokens : Int32 := 0
 message : Bytes := []
 steps : List StepResult := []
 deriving DecidableEq

structure Stats where
 runs : Int32 := 0
 successes : Int32 := 0
 lastRunUnix : ℤ := 0
 lastRunDurationMs : Int32 := 0
 lastResult : Bytes := []
 lastFailedStepIndex : Int32 := -1
 lastRunNeedsTrust : Bool := false
 aiTokensTotal : ℤ := 0
 runHistory : List RunRecord := []
 deriving DecidableEq

def kRunHistoryCap : ℕ := 50

structure Script where
 id : Bytes := []
 name : Bytes := []
 version : Int32 := 1
 createdAtUnix : ℤ := 0
 aiModel : Bytes := "tinyllama-1.1b"
 trigger : Trigger := {}
 steps : List Step := []
 security : SecurityPolicy := {}
 stats : Stats := {}
 enabled : Bool := true
 defaultVariables : Table Bytes Bytes := .empty

/-! ## Enum string maps -/

def stepTypeToString : StepType → Bytes
 | .navigate => "navigate"
 | .click => "click"
 | .type => "type"
 | .scroll => "scroll"
 | .keypress => "keypress"
 | .wait => "wait"
 | .waitFor => "wait_for"
 | .extract => "extract"
 | .aiExtract => "ai_extract"
 | .aiDecide => "ai_decide"
 | .if_ => "if"
 | .else_ => "else"
 | .endIf => "end_if"
 | .loop => "loop"
 | .endLoop => "end_loop"
 | .assert => "assert"
 | .notify => "notify"
 | .screenshot => "screenshot"
 | .runJs => "run_js"
 | .runScript => "run_script"
 | .callTool => "call_tool"
 | .unknown => "unknown"

/-- `UNKNOWN` for any text that is not another type's name. -/
def stepTypeFromString (s : Bytes) : StepType :=
 if s = "navigate" then .navigate
 else if s = "click" then .click
 else if s = "type" then .type
 else if s = "scroll" then .scroll
 else if s = "keypress" then .keypress
 else if s = "wait" then .wait
 else if s = "wait_for" then .waitFor
 else if s = "extract" then .extract
 else if s = "ai_extract" then .aiExtract
 else if s = "ai_decide" then .aiDecide
 else if s = "if" then .if_
 else if s = "else" then .else_
 else if s = "end_if" then .endIf
 else if s = "loop" then .loop
 else if s = "end_loop" then .endLoop
 else if s = "assert" then .assert
 else if s = "notify" then .notify
 else if s = "screenshot" then .screenshot
 else if s = "run_js" then .runJs
 else if s = "run_script" then .runScript
 else if s = "call_tool" then .callTool
 else .unknown

def triggerTypeToString : TriggerType → Bytes
 | .manual => "manual"
 | .cron => "cron"
 | .interval => "interval"
 | .at_ => "at"
 | .onEvent => "on_event"

def triggerTypeFromString (s : Bytes) : TriggerType :=
 if s = "cron" then .cron
 else if s = "interval" then .interval
 else if s = "at" then .at_
 else if s = "on_event" then .onEvent
 else .manual

def trustLevelToString : TrustLevel → Bytes
 | .casual => "casual"
 | .approved => "approved"
 | .trusted => "trusted"
 | .admin => "admin"

def trustLevelFromString (s : Bytes) : TrustLevel :=
 if s = "approved" then .approved
 else if s = "trusted" then .trusted
 else if s = "admin" then .admin
 else .casual

/-! ## Optional fields -/

def getInt (d : Dict) (key : Bytes) (fallback : Int32) : Int32 := (d.findInt key).getD fallback

/-- Saturated: an imported file can say `1e300`. -/
def getInt64 (d : Dict) (key : Bytes) (fallback : ℤ) : ℤ :=
 match d.findInt key with
 | some i => i.toInt
 | none => ((d.findDouble key).map Double.toInt64).getD fallback

def getString (d : Dict) (key fallback : Bytes) : Bytes := (d.findString key).getD fallback

def getBool (d : Dict) (key : Bytes) (fallback : Bool) : Bool := (d.findBool key).getD fallback

def getStringList (d : Dict) (key : Bytes) : List Bytes :=
 ((d.findList key).getD []).filterMap Value.string?

def getDictList (d : Dict) (key : Bytes) : List Dict :=
 ((d.findList key).getD []).filterMap Value.dict?

def int64Value (i : ℤ) : Value := .double (.ofInt64 i)

def stringListValue (l : List Bytes) : Value := .list (l.map .string)

/-! ## Step -/

def stepToDict (s : Step) : Dict :=
 let d := Dict.set [] "type" (.string (stepTypeToString s.type))
 let d := Dict.setIf (s.target ≠ []) d "target" (.string s.target)
 let d := Dict.setIf (s.selectorFallbacks ≠ []) d "selector_fallbacks"
  (stringListValue s.selectorFallbacks)
 let d := match s.locators with
  | some l => d.set "locators" (toValue l)
  | none => d
 let d := Dict.setIf (s.value ≠ []) d "value" (.string s.value)
 let d := Dict.setIf (s.storeAs ≠ []) d "store_as" (.string s.storeAs)
 let d := Dict.setIf (s.transform ≠ []) d "transform" (.string s.transform)
 let d := Dict.setIf (s.timeoutMs ≠ 5000) d "timeout_ms" (.int s.timeoutMs)
 let d := Dict.setIf (s.maxIterations ≠ 100) d "max_iterations" (.int s.maxIterations)
 let d := Dict.setIf (s.retries ≠ 0) d "retries" (.int s.retries)
 let d := Dict.setIf (s.extra.isNone = false) d "extra" s.extra
 Dict.setIf (s.description ≠ []) d "description" (.string s.description)

def stepFromDict (url : UrlLibrary) (d : Dict) : Step where
 type := stepTypeFromString (getString d "type" "unknown")
 target := getString d "target" []
 selectorFallbacks := getStringList d "selector_fallbacks"
 -- Page data, perhaps from an imported file: checked and capped.
 locators := (d.find "locators").bind (parse url)
 value := getString d "value" []
 storeAs := getString d "store_as" []
 transform := getString d "transform" []
 timeoutMs := getInt d "timeout_ms" 5000
 maxIterations := getInt d "max_iterations" 100
 retries := getInt d "retries" 0
 extra := (d.find "extra").getD .none
 description := getString d "description" []

/-! ## Trigger -/

def triggerToDict (t : Trigger) : Dict :=
 let d := Dict.set [] "type" (.string (triggerTypeToString t.type))
 let d := Dict.setIf (t.expression ≠ []) d "expression" (.string t.expression)
 let d := Dict.setIf (t.timezone ≠ []) d "timezone" (.string t.timezone)
 let d := Dict.setIf (t.untilUnix > 0) d "until_unix" (int64Value t.untilUnix)
 Dict.setIf (t.lastFiredUnix > 0) d "last_fired_unix" (int64Value t.lastFiredUnix)

def triggerFromDict (d : Dict) : Trigger where
 type := triggerTypeFromString (getString d "type" "manual")
 expression := getString d "expression" []
 timezone := getString d "timezone" []
 untilUnix := getInt64 d "until_unix" 0
 lastFiredUnix := getInt64 d "last_fired_unix" 0

/-! ## Security policy -/

def securityToDict (p : SecurityPolicy) : Dict :=
 let d := Dict.setIf (p.domainWhitelist ≠ []) [] "domain_whitelist"
  (stringListValue p.domainWhitelist)
 let d := Dict.setIf (p.requireApprovalFor ≠ []) d "require_approval_for"
  (stringListValue p.requireApprovalFor)
 let d := d.set "max_runtime_seconds" (.int p.maxRuntimeSeconds)
 let d := d.set "max_navigations" (.int p.maxNavigations)
 let d := d.set "max_network_bytes" (int64Value p.maxNetworkBytes)
 let d := d.set "trust" (.string (trustLevelToString p.trust))
 Dict.setIf (p.sitesUnconfirmed = true) d "sites_unconfirmed" (.bool true)

def securityFromDict (d : Dict) : SecurityPolicy where
 domainWhitelist := getStringList d "domain_whitelist"
 requireApprovalFor := getStringList d "require_approval_for"
 maxRuntimeSeconds := getInt d "max_runtime_seconds" 300
 maxNavigations := getInt d "max_navigations" 20
 maxNetworkBytes := getInt64 d "max_network_bytes" (200 * 1024 * 1024)
 trust := trustLevelFromString (getString d "trust" "casual")
 sitesUnconfirmed := getBool d "sites_unconfirmed" false

/-! ## Stats -/

def stepResultToDict (r : StepResult) : Dict :=
 let d := Dict.set [] "i" (.int r.index)
 let d := d.set "type" (.string (stepTypeToString r.type))
 let d := d.set "ok" (.bool r.ok)
 let d := d.set "ms" (.int r.durationMs)
 let d := Dict.setIf (r.screenshot ≠ []) d "shot" (.string r.screenshot)
 let d := Dict.setIf (r.description ≠ []) d "desc" (.string r.description)
 let d := Dict.setIf (r.note ≠ []) d "note" (.string r.note)
 Dict.setIf (r.foundBy ≠ []) d "by" (.string r.foundBy)

def stepResultFromDict (d : Dict) : StepResult where
 index := getInt d "i" 0
 type := stepTypeFromString (getString d "type" "unknown")
 ok := getBool d "ok" false
 durationMs := getInt d "ms" 0
 screenshot := getString d "shot" []
 description := getString d "desc" []
 note := getString d "note" []
 foundBy := getString d "by" []

def runRecordToDict (r : RunRecord) : Dict :=
 let d := Dict.set [] "ts" (int64Value r.timestampUnix)
 let d := d.set "ok" (.bool r.success)
 let d := d.set "dur_ms" (.int r.durationMs)
 let d := d.set "steps_executed" (.int r.stepsExecuted)
 let d := d.set "total_steps" (.int r.totalSteps)
 let d := Dict.setIf (r.aiTokens > 0) d "ai_tokens" (.int r.aiTokens)
 let d := Dict.setIf (r.message ≠ []) d "message" (.string r.message)
 Dict.setIf (r.steps ≠ []) d "steps" (.list (r.steps.map fun sr => .dict (stepResultToDict sr)))

def runRecordFromDict (d : Dict) : RunRecord where
 timestampUnix := getInt64 d "ts" 0
 success := getBool d "ok" false
 durationMs := getInt d "dur_ms" 0
 stepsExecuted := getInt d "steps_executed" 0
 totalSteps := getInt d "total_steps" 0
 aiTokens := getInt d "ai_tokens" 0
 message := getString d "message" []
 steps := (getDictList d "steps").map stepResultFromDict

def statsToDict (s : Stats) : Dict :=
 let d := Dict.set [] "runs" (.int s.runs)
 let d := d.set "successes" (.int s.successes)
 let d := d.set "last_run_unix" (int64Value s.lastRunUnix)
 let d := d.set "last_run_duration_ms" (.int s.lastRunDurationMs)
 let d := Dict.setIf (s.lastResult ≠ []) d "last_result" (.string s.lastResult)
 let d := Dict.setIf (s.lastFailedStepIndex ≥ 0) d "last_failed_step_index"
  (.int s.lastFailedStepIndex)
 let d := Dict.setIf (s.lastRunNeedsTrust = true) d "last_run_needs_trust" (.bool true)
 let d := Dict.setIf (s.aiTokensTotal > 0) d "ai_tokens_total" (int64Value s.aiTokensTotal)
 Dict.setIf (s.runHistory ≠ []) d "run_history"
  (.list (s.runHistory.map fun r => .dict (runRecordToDict r)))

def statsFromDict (d : Dict) : Stats where
 runs := getInt d "runs" 0
 successes := getInt d "successes" 0
 lastRunUnix := getInt64 d "last_run_unix" 0
 lastRunDurationMs := getInt d "last_run_duration_ms" 0
 lastResult := getString d "last_result" []
 lastFailedStepIndex := getInt d "last_failed_step_index" (-1)
 lastRunNeedsTrust := getBool d "last_run_needs_trust" false
 aiTokensTotal := getInt64 d "ai_tokens_total" 0
 runHistory := (getDictList d "run_history").map runRecordFromDict

/-! ## Script -/

def toJSON (s : Script) : Dict :=
 let d := Dict.set [] "id" (.string s.id)
 let d := d.set "name" (.string s.name)
 let d := d.set "version" (.int s.version)
 let d := d.set "created_at_unix" (int64Value s.createdAtUnix)
 let d := d.set "ai_model" (.string s.aiModel)
 let d := d.set "enabled" (.bool s.enabled)
 let d := d.set "trigger" (.dict (triggerToDict s.trigger))
 let d := d.set "steps" (.list (s.steps.map fun step => .dict (stepToDict step)))
 let d := d.set "security" (.dict (securityToDict s.security))
 let d := d.set "stats" (.dict (statsToDict s.stats))
 d.set "default_variables"
  (.dict (s.defaultVariables.entries.foldl (fun vars kv => Dict.set vars kv.1 (.string kv.2)) []))

/-- The variables of a dictionary, entries of other types passed over. -/
def variablesFromDict (vars : Dict) : Table Bytes Bytes :=
 vars.foldl (fun out kv =>
  match kv.2.string? with
  | some v => out.insert kv.1 v
  | none => out) .empty

/-- `id` is the only mandatory field. -/
def fromJSON (url : UrlLibrary) (d : Dict) : Option Script :=
 let id := getString d "id" []
 if id = [] then none
 else some {
  id := id
  name := getString d "name" id
  version := getInt d "version" 1
  createdAtUnix := getInt64 d "created_at_unix" 0
  aiModel := getString d "ai_model" "tinyllama-1.1b"
  enabled := getBool d "enabled" true
  trigger := ((d.findDict "trigger").map triggerFromDict).getD {}
  steps := (getDictList d "steps").map (stepFromDict url)
  security := ((d.findDict "security").map securityFromDict).getD {}
  stats := ((d.findDict "stats").map statsFromDict).getD {}
  defaultVariables := ((d.findDict "default_variables").map variablesFromDict).getD .empty }

end MoltBrowser.AutomationScript
