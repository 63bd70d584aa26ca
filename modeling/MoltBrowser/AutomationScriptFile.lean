import MoltBrowser.AutomationScriptRoundTrip
import MoltBrowser.AutomationSecurity

set_option autoImplicit false

/-!
# One script file (`automation_storage.cc`)

`Load`, `SaveLocked` and `Update` on the JSON of one file. A load also rewrites a
file that holds secrets in plaintext; a save never writes one.
-/
namespace MoltBrowser.AutomationStorage
open AutomationScript AutomationSecurity AutomationLocators

def kMaxIdBytes : ℕ := 128

def isValidScriptId (id : Bytes) : Bool :=
 id ≠ [] ∧ id.length ≤ kMaxIdBytes ∧
  ∀ c ∈ id, c ≠ 0x2F ∧ c ≠ 0x5C ∧ c ≠ 0x3A ∧ c ≠ 0x2E ∧ c ≠ 0

variable (url : UrlLibrary)

def readScript (id : Bytes) (file : Dict) : Option Script :=
 (fromJSON url file).map fun script => { script with id := id }

/-- `Load`: the script, and the file after it. -/
def load (id : Bytes) (file : Dict) : Option Script × Dict :=
 if isValidScriptId id then
  let file := (scrubPlaintextSecrets file).2
  (readScript url id file, file)
 else (none, file)

/-- `SaveLocked`: the file's new JSON. -/
def saveLocked (script : Script) : Dict := (scrubPlaintextSecrets (toJSON script)).2

/-- `Update`: the file's new JSON, when the change is made. -/
def update (id : Bytes) (change : Script → Option Script) (file : Dict) : Option Dict :=
 if isValidScriptId id then do
  let script ← readScript url id file
  let changed ← change script
  if changed.id = id then some (saveLocked changed) else none
 else none

end MoltBrowser.AutomationStorage
