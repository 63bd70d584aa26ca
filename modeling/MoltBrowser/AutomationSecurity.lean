import MoltBrowser.AutomationScript

set_option autoImplicit false

/-!
# What a workflow may do and what it may keep (`automation_security.cc`)

The policy a run has, and the removal of plaintext secrets from a script's JSON:
a TYPE step into a password, card or one-time-code field loses its value, and
the run history loses the descriptions that quote it.
-/
namespace MoltBrowser.AutomationSecurity
open AutomationScript AutomationLocators

/-! ## Text -/

def toLowerAscii (s : Bytes) : Bytes := s.map fun c => if 0x41 ≤ c ∧ c ≤ 0x5A then c + 0x20 else c

/-! ## Security policy -/

def kDefaultApprovals : List Bytes := ["form_submit", "payment", "login"].map utf8

def addUnique (list : List Bytes) (item : Bytes) : List Bytes :=
 if item ≠ [] ∧ item ∉ list then list ++ [item] else list

def hasOpenBraces (s : Bytes) : Bool := AutomationLocators.contains (utf8 "\x7b\x7b") s

/-- `navigationHost` is the host of a URL that workflows may open, from the URL library. -/
def hostsReferencedBy (navigationHost : Bytes → Option Bytes) (steps : List Step) : List Bytes :=
 steps.foldl (fun hosts s =>
  let hosts :=
   if s.type = .navigate ∧ !hasOpenBraces s.target then
    match navigationHost s.target with
    | some host => addUnique hosts (toLowerAscii host)
    | none => hosts
   else hosts
  match s.extra.dict?.bind (Dict.findString · "host") with
  | some host => if hasOpenBraces host then hosts else addUnique hosts (toLowerAscii host)
  | none => hosts) []

def effectivePolicy (navigationHost : Bytes → Option Bytes) (script : Script) : SecurityPolicy :=
 let p := script.security
 let p :=
  if p.sitesUnconfirmed then { p with trust := .casual }
  else { p with
   domainWhitelist := (hostsReferencedBy navigationHost script.steps).foldl addUnique
    p.domainWhitelist }
 if p.requireApprovalFor = [] then { p with requireApprovalFor := kDefaultApprovals } else p

/-! ## Kinds of fields (`agent_safety.cc`) -/

def fieldKindLabel : FieldKind → Bytes
 | .ordinary => "form"
 | .password => "password"
 | .paymentCard => "payment card"
 | .oneTimeCode => "one-time code"

def isIdentifierByte (c : UInt8) : Bool :=
 (0x61 ≤ c && c ≤ 0x7A) || (0x30 ≤ c && c ≤ 0x39) || c = 0x5F || c = 0x2D

/-- The runs of identifier bytes; `cur` is the one being read. -/
def identifierTokens (cur : Bytes) : Bytes → List Bytes
 | [] => if cur = [] then [] else [cur]
 | c :: s =>
  if isIdentifierByte c then identifierTokens (cur ++ [c]) s
  else if cur = [] then identifierTokens [] s
  else cur :: identifierTokens [] s

def classifyToken (t : Bytes) : FieldKind :=
 if t = "pwd" ∨ (utf8 "password").isSuffixOf t ∨ (utf8 "passwd").isSuffixOf t then .password
 else if (utf8 "cc-").isPrefixOf t ∨ t ∈ ["cardnumber", "card-number", "card_number", "creditcard",
   "credit-card", "cvv", "cvc"].map utf8 then .paymentCard
 else if t = "one-time-code" ∨ t = "otp" then .oneTimeCode
 else .ordinary

def firstSensitive (kinds : List FieldKind) : FieldKind := (kinds.find? isSensitive).getD .ordinary

def classifySelector (selector : Bytes) : FieldKind :=
 firstSensitive ((identifierTokens [] (toLowerAscii selector)).map classifyToken)

/-! ## Secrets in a script's JSON -/

def kSecretKey : Bytes := "secret"
def kSecretVault : Bytes := "vault"
def kSecretKindKey : Bytes := "secret_kind"
def kSecretHostKey : Bytes := "secret_host"
def kStepHostKey : Bytes := "host"

def kLegacyPasswordMask : Bytes := "•••"

def secretStepDescription (kind : FieldKind) : Bytes :=
 if kind = .password then "Fill your saved password" else utf8 "Enter the " ++ fieldKindLabel kind

/-- Turns a step into a secret step recorded on `host`. -/
def markStepSecret (step : Step) (kind : FieldKind) (host : Bytes) : Step :=
 let extra := step.extra.dict?.getD []
 let extra := extra.set kSecretKey (.string kSecretVault)
 let extra := extra.set kSecretKindKey (.string (fieldKindToString kind))
 let extra := Dict.setIf (host ≠ []) extra kSecretHostKey (.string host)
 { step with value := [], extra := .dict extra }

/-- The kind a step says it has; a secret step of unknown kind is a password. -/
def declaredKind (extra : Dict) : FieldKind :=
 if (extra.findString kSecretKey).isSome then
  let kind := fieldKindFromString ((extra.findString kSecretKindKey).getD [])
  if isSensitive kind then kind else .password
 else .ordinary

/-- The kind of the field that a TYPE step types into, by the first sign of a sensitive one. -/
def typedFieldKind (d : Dict) : FieldKind :=
 firstSensitive [
  ((d.findDict "extra").map declaredKind).getD .ordinary,
  if ((d.findString "description").map (contains kLegacyPasswordMask)).getD false then .password
   else .ordinary,
  ((d.findString "target").map classifySelector).getD .ordinary,
  firstSensitive ((getStringList d "selector_fallbacks").map classifySelector)]

/-- The secret that a step's JSON holds in plaintext, with the field's kind. -/
def plaintextSecret (d : Dict) : Option (Bytes × FieldKind) :=
 match d.findString "type", d.findString "value" with
 | some type, some val =>
  if type ≠ "type" ∨ val = [] then none
  else if isSensitive (typedFieldKind d) then some (val, typedFieldKind d)
  else none
 | _, _ => none

def scrubStep (d : Dict) : Dict :=
 match plaintextSecret d with
 | none => d
 | some (secret, kind) =>
  let host := ((d.findDict "extra").bind (Dict.findString · kStepHostKey)).getD []
  let quoted := ((d.findString "description").map (contains secret)).getD false
  let d := Dict.setIf (quoted = true) d "description" (.string (secretStepDescription kind))
  let d := d.remove "value"
  let extra := (d.findDict "extra").getD []
  let extra := extra.set kSecretKey (.string kSecretVault)
  let extra := extra.set kSecretKindKey (.string (fieldKindToString kind))
  let extra := Dict.setIf (host ≠ [] ∧ (extra.findString kSecretHostKey).isNone = true) extra
   kSecretHostKey (.string host)
  d.set "extra" (.dict extra)

def quotesSecret (removed : List Bytes) (desc : Bytes) : Bool :=
 removed.any fun secret => 3 ≤ secret.length && contains secret desc

def redactStep (removed : List Bytes) (d : Dict) : Dict :=
 match d.findString "desc" with
 | some desc => Dict.setIf (quotesSecret removed desc = true) d "desc" (.string "[redacted]")
 | none => d

def redactRun (removed : List Bytes) (run : Dict) : Dict :=
 run.changeList "steps" (redactStep removed)

def redactStats (removed : List Bytes) (stats : Dict) : Dict :=
 stats.changeList "run_history" (redactRun removed)

def removedValues (d : Dict) : List Bytes :=
 (getDictList d "steps").filterMap fun step => (plaintextSecret step).map Prod.fst

def scrubPlaintextSecrets (d : Dict) : Bool × Dict :=
 let removed := removedValues d
 if removed = [] then (false, d)
 else
  let d := d.changeList "steps" scrubStep
  (true, match d.findDict "stats" with
   | some stats => d.set "stats" (.dict (redactStats removed stats))
   | none => d)

end MoltBrowser.AutomationSecurity
