import MoltBrowser.AgentRunDraftSecrets
import MoltBrowser.AutomationSecurity

set_option autoImplicit false

/-!
# A draft workflow from an agent's run (`agent_run_draft.cc`)

`BuildDraft` turns the steps of a run that worked into a script, or refuses the
run. Typed text that looks private is asked for at each run.
-/
namespace MoltBrowser.AgentDraft
open AutomationScript SortedTable
open AutomationLocators (contains hasTemplateBraces isLower isDigit FieldKind StepLocators isSensitive)
open AutomationSecurity (fieldKindLabel markStepSecret kStepHostKey)
open DisplayCleaning (cleanDisplayText)

def kMaxGoalSecrets : ℕ := 64
def kMaxFormFields : ℕ := 8
def kMaxDraftSteps : ℕ := 200
def kMaxTypedChars : ℕ := 500
def kMaxQueryChars : ℕ := 256
def kMaxUrlBytes : ℕ := 2048
def kMaxSelectorBytes : ℕ := 1024
def kMaxLabelChars : UInt64 := 60
def kMaxNameChars : UInt64 := 60
def kReviewKey : Bytes := "review"
def kReviewWithheld : Bytes := "value_withheld"
def kReviewSecretField : Bytes := "secret_field"

/-- The URL library: whether a text is a valid http(s) URL, its canonical text, its host and its
serialized origin. -/
structure UrlLibrary where
 isHttp : Bytes → Bool
 spec : Bytes → Bytes
 host : Bytes → Bytes
 origin : Bytes → Bytes

def UrlLibrary.locators (url : UrlLibrary) : AutomationLocators.UrlLibrary :=
 ⟨fun s => if url.isHttp s then some (url.origin s) else none⟩

/-! ## The run -/

structure RunElement where
 selector : Bytes := []
 kind : Bytes := []
 inputType : Bytes := []
 label : Bytes := []
 fieldKind : FieldKind := .ordinary
 text : Bytes := []
 locators : Option StepLocators := none

structure RunStep where
 action : Bytes := []
 success : Bool := false
 url : Bytes := []
 query : Bytes := []
 direction : Bytes := []
 origin : Bytes := []
 elements : List RunElement := []

structure Run where
 goal : Bytes := []
 startUrl : Bytes := []
 succeeded : Bool := false
 inMoltnet : Bool := false
 steps : List RunStep := []

/-! ## The draft -/

inductive Refusal where
 | none
 | notSucceeded
 | moltNet
 | usedSiteTool
 | nothingToSave
 | unusableStep
 | secretInAddress
 | templateText
 deriving DecidableEq, Repr

def refusalText : Refusal → Bytes
 | .none => ""
 | .notSucceeded => ""
 | .moltNet =>
  utf8 "Saving agent runs as workflows isn't available in MoltNet windows: a workflow would " ++
   utf8 "run later outside Tor."
 | .usedSiteTool =>
  utf8 "This run used a site's own tool, which a workflow can't replay, so it can't be saved as " ++
   utf8 "a workflow."
 | .nothingToSave =>
  utf8 "The agent didn't open, click or type anything, so there is nothing to save as a workflow."
 | .unusableStep =>
  utf8 "A step of this run can't be replayed as it ran, so it can't be saved as a workflow."
 | .secretInAddress =>
  utf8 "A page this run opened, or a search it made, looks like it holds a password, code or key, " ++
   utf8 "so it can't be saved as a workflow."
 | .templateText =>
  utf8 "This run typed or acted on text with \"\x7b\x7b\" in it, which a workflow would read as a " ++
   utf8 "variable, so it can't be saved."

structure Draft where
 script : Option Script := none
 refusal : Refusal := .none
 message : Bytes := []
 withheld : ℕ := 0
 secretSteps : ℕ := 0

/-- `goalUnscanned`: the goal is too long to scan, so every value is asked for; `names`: the
variables so far. -/
structure Builder where
 goalSecrets : List Bytes
 goalUnscanned : Bool
 names : List Bytes := []
 script : Script := {}
 withheld : ℕ := 0
 secretSteps : ℕ := 0

/-- Valid UTF-8 without control characters (but line breaks and tabs, with `allowBreaks`). -/
def usableText (s : Bytes) (maxChars : ℕ) (allowBreaks : Bool) : Bool :=
 isValidUtf8 s && countChars s ≤ maxChars &&
  s.all fun c => !(c < 0x20 || c = 0x7F) || (allowBreaks && (c = 0x0A || c = 0x09))

def quoted (shown : Bytes) : Bytes :=
 utf8 "“" ++ (shown.map fun c => if c = 0x22 then 0x27 else c) ++ utf8 "”"

def kindWord (kind : Bytes) : Bytes :=
 if kind = "link" then "link"
 else if kind = "button" then "button"
 else if kind = "input" then "field"
 else if kind = "textarea" then "text box"
 else if kind = "select" then "list"
 else if kind = "checkbox" then "checkbox"
 else if kind = "radio" then "option"
 else if kind = "editable" then "text area"
 else "element"

def UrlLibrary.hostOf (url : UrlLibrary) (spec : Bytes) : Bytes := lowerAscii (url.host spec)

def braced (name : Bytes) : Bytes := utf8 "\x7b\x7b" ++ name ++ utf8 "\x7d\x7d"

/-- A page address the draft opens: its canonical text. -/
def checkAddress (url : UrlLibrary) (address : Bytes) : Except Refusal Bytes :=
 let spec := url.spec address
 if kMaxUrlBytes < address.length ∨ !usableText address kMaxUrlBytes false then .error .unusableStep
 else if hasTemplateBraces address then .error .templateText
 else if !url.isHttp address ∨ !isPlainHost (url.hostOf address) ∨ kMaxUrlBytes < spec.length ∨
   !isValidUtf8 spec ∨ hasTemplateBraces spec then .error .unusableStep
 else if urlLooksSecret address ∨ urlLooksSecret spec then .error .secretInAddress
 else .ok spec

namespace Builder

def start (goal : Bytes) : Builder :=
 let goalSecrets := goalSecretTokens goal
 ⟨goalSecrets, kMaxGoalScanBytes < goal.length || kMaxGoalSecrets < goalSecrets.length, [], {}, 0, 0⟩

def push (b : Builder) (s : Step) : Builder :=
 { b with script := { b.script with steps := b.script.steps ++ [s] } }

def containsGoalSecret (b : Builder) (text : Bytes) : Bool := b.goalSecrets.any fun t => contains t text

def addNavigation (url : UrlLibrary) (b : Builder) (address description : Bytes) :
  Except Refusal Builder := do
 let spec ← checkAddress url address
 if spec = [] then .error .none
 else .ok (b.push {
  type := .navigate, target := spec,
  description := if description = [] then utf8 "Open " ++ url.hostOf spec else description })

def addSearch (url : UrlLibrary) (b : Builder) (rs : RunStep) : Except Refusal Builder :=
 if rs.query = [] ∨ !usableText rs.query kMaxQueryChars false then .error .unusableStep
 else if hasTemplateBraces rs.query then .error .templateText
 -- A query that holds a secret would sit in the workflow's address.
 else if b.goalUnscanned ∨ textLooksSecret rs.query ∨ textLooksSecret (stripHidden rs.query) ∨
   b.containsGoalSecret rs.query then .error .secretInAddress
 else addNavigation url b rs.url (utf8 "Search the web for " ++ quoted (cleanDisplayText rs.query 40))

def addScroll (b : Builder) (rs : RunStep) : Except Refusal Builder :=
 if rs.direction ≠ "down" ∧ rs.direction ≠ "up" then .error .unusableStep
 else .ok (b.push {
  type := .scroll, value := rs.direction, description := utf8 "Scroll " ++ rs.direction })

def shownLabel (e : RunElement) : Bytes :=
 let label := cleanDisplayText e.label kMaxLabelChars
 if hasTemplateBraces label then [] else label

/-- The element's fallback locators, captured on the page the step acted on, if they read as a
stored block would. -/
def checkedLocators (url : UrlLibrary) (e : RunElement) (origin : Bytes) : Option StepLocators :=
 match e.locators with
 | none => none
 | some l =>
  if l.origin = origin then
   match AutomationLocators.parse url.locators (AutomationLocators.toValue l) with
   | some checked => if checked = l then some checked else none
   | none => none
  else none

def withholds (b : Builder) (e : RunElement) : Bool :=
 b.goalUnscanned || labelSuggestsSecret (stripHidden e.label) || labelSuggestsSecret (shownLabel e) ||
  textLooksSecret e.text || textLooksSecret (stripHidden e.text) || b.containsGoalSecret e.text

def addSecretField (b : Builder) (s : Step) (extra : Dict) (kind : FieldKind) (host : Bytes) : Builder :=
 let s := { s with extra := .dict (extra.set kReviewKey (.string kReviewSecretField)) }
 let s := { markStepSecret s kind host with
  description := utf8 "Enter the " ++ fieldKindLabel kind ++ utf8 " yourself (not saved)" }
 { b.push s with secretSteps := b.secretSteps + 1 }

def addWithheld (b : Builder) (s : Step) (extra : Dict) (e : RunElement) : Builder :=
 let label := shownLabel e
 let name := variableNameFor (stripHidden e.label) b.names
 let s := { s with
  value := braced name
  extra := .dict (extra.set kReviewKey (.string kReviewWithheld))
  description := if label = [] then utf8 "Type a value you give at each run"
   else utf8 "Type your " ++ quoted label ++ utf8 " (asked at each run)" }
 let b := { b with
  names := b.names ++ [name]
  script := { b.script with defaultVariables := b.script.defaultVariables.insert name [] }
  withheld := b.withheld + 1 }
 b.push s

def addTyped (b : Builder) (s : Step) (extra : Dict) (e : RunElement) : Builder :=
 let label := shownLabel e
 b.push { s with
  value := e.text
  extra := .dict extra
  description := utf8 "Type " ++ quoted (cleanDisplayText e.text 40) ++
   (if label = [] then [] else utf8 " in " ++ quoted label) }

def addClick (b : Builder) (s : Step) (extra : Dict) (e : RunElement) : Builder :=
 let label := shownLabel e
 b.push { s with
  extra := .dict extra
  description := if label = [] then utf8 "Click the " ++ kindWord e.kind
   else utf8 "Click " ++ quoted label }

def addTyping (b : Builder) (s : Step) (extra : Dict) (host : Bytes) (e : RunElement) :
  Except Refusal Builder :=
 let kind := if lowerAscii e.inputType = "password" then .password else e.fieldKind
 if !usableText e.text kMaxTypedChars true then .error .unusableStep
 else if hasTemplateBraces e.text then .error .templateText
 -- The agent never types into a password field.
 else if kind = .password then .error .unusableStep
 else if isSensitive kind then .ok (b.addSecretField s extra kind host)
 else if b.withholds e then .ok (b.addWithheld s extra e)
 else .ok (b.addTyped s extra e)

def addElementStep (url : UrlLibrary) (typing : Bool) (host origin : Bytes) (b : Builder)
  (e : RunElement) : Except Refusal Builder :=
 let s : Step := {
  type := if typing then .type else .click
  target := e.selector, locators := checkedLocators url e origin }
 let extra := Dict.setIf (shownLabel e ≠ []) [] "text" (.string (shownLabel e))
 let extra := extra.set kStepHostKey (.string host)
 if e.selector = [] ∨ !usableText e.selector kMaxSelectorBytes false ∨
   kMaxSelectorBytes < e.selector.length then .error .unusableStep
 else if hasTemplateBraces e.selector then .error .templateText
 else if typing then b.addTyping s extra host e
 else .ok (b.addClick s extra e)

def addElementSteps (url : UrlLibrary) (b : Builder) (rs : RunStep) : Except Refusal Builder :=
 let fill : Bool := rs.action = "FILL_FORM"
 let typing : Bool := fill || rs.action = "TYPE"
 let max := if fill then kMaxFormFields else 1
 if rs.elements = [] ∨ max < rs.elements.length then .error .unusableStep
 else if kMaxUrlBytes < rs.origin.length ∨ !url.isHttp rs.origin ∨ url.host rs.origin = [] then
  .error .unusableStep
 else if !isPlainHost (url.hostOf rs.origin) then .error .unusableStep
 else rs.elements.foldlM (addElementStep url typing (url.hostOf rs.origin) (url.origin rs.origin)) b

def addStep (url : UrlLibrary) (b : Builder) (rs : RunStep) : Except Refusal Builder :=
 let a := rs.action
 if a = "OBSERVE" ∨ a = "DONE" ∨ a = "ERROR" ∨ a = "REPLAN" then .ok b
 else if a = "NAVIGATE" then addNavigation url b rs.url []
 else if a = "SEARCH" then addSearch url b rs
 else if a = "CLICK" ∨ a = "TYPE" ∨ a = "FILL_FORM" then addElementSteps url b rs
 else if a = "SCROLL" then addScroll b rs
 else .error .unusableStep

def nameFor (url : UrlLibrary) (b : Builder) (run : Run) : Bytes :=
 let firstHost :=
  match b.script.steps.find? fun s => s.type = .navigate with
  | some s => url.hostOf s.target
  | none => []
 let goal := cleanDisplayText run.goal kMaxNameChars
 let check := stripHidden run.goal
 if goal = [] ∨ b.goalUnscanned ∨ b.goalSecrets ≠ [] ∨ hasTemplateBraces goal ∨
   textLooksSecret check ∨ labelSuggestsSecret check then
  if firstHost = [] then utf8 "Agent run" else utf8 "Agent run on " ++ firstHost
 else goal

/-- Starts where the agent started, unless it began by opening a page. -/
def startPage (url : UrlLibrary) (b : Builder) (startUrl : Bytes) : Except Refusal Builder :=
 match b.script.steps with
 | [] => .error .nothingToSave
 | first :: rest =>
  if first.type = .navigate then .ok b
  else do
   let b ← addNavigation url { b with script := { b.script with steps := [] } } startUrl []
   .ok { b with script := { b.script with steps := b.script.steps ++ first :: rest } }

end Builder

def gather (url : UrlLibrary) (run : Run) (savedWorkflowsAllowed : Bool) : Except Refusal Builder :=
 if !run.succeeded then .error .notSucceeded
 else if run.inMoltnet ∨ !savedWorkflowsAllowed then .error .moltNet
 else if kMaxDraftSteps < run.steps.length then .error .unusableStep
 else if run.steps.any fun rs => rs.success && rs.action = "CALL_TOOL" then .error .usedSiteTool
 else do
  -- Only what ran and worked.
  let b ← (run.steps.filter (·.success)).foldlM (Builder.addStep url) (.start run.goal)
  let b ← b.startPage url run.startUrl
  if kMaxDraftSteps < b.script.steps.length then .error .unusableStep else .ok b

def draftMessage (withheld secretSteps : ℕ) : Bytes :=
 utf8 "Saved as a draft workflow. Review its steps and confirm its sites in Agent mode before it " ++
  utf8 "can run." ++
  (if 0 < withheld then
   utf8 " It will ask you at each run for " ++ utf8 (Nat.repr withheld) ++
    utf8 (if withheld = 1 then " value" else " values") ++
    utf8 " the agent typed that looked private; " ++
    utf8 (if withheld = 1 then "it wasn't" else "they weren't") ++ utf8 " saved."
  else []) ++
  if 0 < secretSteps then
   utf8 " " ++ utf8 (Nat.repr secretSteps) ++
    utf8 (if secretSteps = 1 then " step enters" else " steps enter") ++
    utf8 " a card number or one-time code, which MoltBrowser never saves: you enter it yourself."
  else []

def buildDraft (url : UrlLibrary) (run : Run) (savedWorkflowsAllowed : Bool) (nowUnix : ℤ) : Draft :=
 match gather url run savedWorkflowsAllowed with
 | .error r => { refusal := r, message := refusalText r }
 | .ok b => {
   script := some { b.script with
    id := [], name := b.nameFor url run, version := 1, createdAtUnix := nowUnix, trigger := {}
    stats := {}
    security := {
     trust := .casual, domainWhitelist := []
     requireApprovalFor := ["form_submit", "payment", "login"].map utf8
     sitesUnconfirmed := true } }
   message := draftMessage b.withheld b.secretSteps
   withheld := b.withheld, secretSteps := b.secretSteps }

end MoltBrowser.AgentDraft
