import MoltBrowser.AutomationScriptFile
import MoltBrowser.NamedObjects

set_option autoImplicit false

/-!
# A directory of scripts (`automation_storage.cc`)

Storages of several browsers on one directory, each change atomic under the
directory's lock. A script is `<id>.molt`; one being moved is set aside as
`<id>.molt.<token>.taken`. What the system decides is each call's input: the
random tokens, the time, and whether a write, a rename or a deletion succeeds.
-/
namespace MoltBrowser.AutomationStorage
open AutomationScript AutomationSecurity AutomationLocators NamedObjects

def kScriptExt : Bytes := ".molt"
def kTakenExt : Bytes := ".taken"
def kTakenGraceSeconds : ℤ := 60

/-! ## Names -/

def getScriptPath (id : Bytes) : Bytes := id ++ kScriptExt

def hexDigit (n : ℕ) : UInt8 := if n < 10 then 0x30 + n.toUInt8 else 0x61 + (n - 10).toUInt8

/-- `n` hex digits of `bits`, the lowest first. -/
def hexDigits : ℕ → ℕ → Bytes
 | 0, _ => []
 | n + 1, bits => hexDigit (bits % 16) :: hexDigits n (bits / 16)

def randomToken (bits : UInt64) : Bytes := hexDigits 16 bits.toNat

def setAsidePath (id : Bytes) (bits : UInt64) : Bytes :=
 id ++ kScriptExt ++ utf8 "." ++ randomToken bits ++ kTakenExt

def isLowerHex (c : UInt8) : Bool := (0x30 ≤ c && c ≤ 0x39) || (0x61 ≤ c && c ≤ 0x66)

/-- The id of the script that a set-aside file holds: `<id>.molt.<token>.taken`, or
`<id>.molt.taken`. -/
def setAsideIdOf (name : Bytes) : Option Bytes :=
 let id := name.takeWhile (· ≠ 0x2E)
 let rest := name.dropWhile (· ≠ 0x2E)
 if rest = [] ∨ !isValidScriptId id then none
 else if rest = kScriptExt ++ kTakenExt then some id
 else
  let head := kScriptExt ++ utf8 "."
  if rest.length ≤ head.length + kTakenExt.length ∨ !head.isPrefixOf rest ∨
    !kTakenExt.isSuffixOf rest then none
  else
   let token := (rest.drop head.length).take (rest.length - head.length - kTakenExt.length)
   if token.length ≤ 32 ∧ token.all isLowerHex then some id else none

/-- `IdPrefix`: back from the cut while it is inside a UTF-8 character. -/
def cutBefore (id : Bytes) : ℕ → ℕ
 | 0 => 0
 | size + 1 =>
  if size + 1 < id.length ∧ (id[size + 1]?.getD 0) &&& 0xC0 = 0x80 then cutBefore id size
  else size + 1

def idPrefix (id : Bytes) (maxBytes : ℕ) : Bytes := id.take (cutBefore id (min id.length maxBytes))

def mayStillBeMoving (setAside now : ℤ) : Bool := 0 ≤ now - setAside ∧ now - setAside < kTakenGraceSeconds

/-! ## State -/

/-- A script's file. Its identity `uid`, and the `id` it is known by, are for the statements. -/
structure File where
 uid : ℕ
 id : Bytes
 json : Option Dict
 modified : ℤ

/-- `other` is a link, a directory, a FIFO. -/
inductive Node where
 | regular (file : File)
 | other

def Node.uid : Node → Option ℕ
 | .regular file => some file.uid
 | .other => none

inductive Entry where
 | took (storage uid : ℕ)
 | putBack (uid : ℕ)
 deriving DecidableEq

/-- `taken` is each storage's map from an id to its set-aside file, with the script's identity;
`taking` is each browser's set. -/
structure State where
 dir : Dir Bytes Node
 taken : ℕ → Bytes → Option (Bytes × ℕ) := fun _ _ => none
 taking : ℕ → Bytes → Bool := fun _ _ => false
 nextUid : ℕ
 ended : List ℕ := []
 log : List Entry := []

structure Chance where
 tokens : List UInt64 := []
 now : ℤ := 0
 writes : Bool := true
 renames : Bool := true
 returns : Bool := true
 deletes : Bool := true

structure SetAside where
 id : Bytes
 file : Bytes

inductive Call where
 | saveNew (script : Script)
 | saveChecked (script : Script) (check : Option Script → Script → Option Script)
 | update (id : Bytes) (change : Script → Option Script)
 | delete (id : Bytes)
 | take (id : Bytes)
 | finishTake (id : Bytes)
 | returnTaken (id : Bytes)
 | finishSetAside (setAside : SetAside)
 | returnSetAside (setAside : SetAside)

inductive Op where
 | call (storage : ℕ) (chance : Chance) (c : Call)
 | endBrowser (browser : ℕ)

/-! ## Files -/

variable (url : UrlLibrary) (browserOf : ℕ → ℕ)

def regularAt (d : Dir Bytes Node) (name : Bytes) : Option File :=
 match d name with
 | some (.regular file) => some file
 | _ => none

/-- `ReadScriptDict` and `FromJSON`. -/
def readAt (d : Dir Bytes Node) (name id : Bytes) : Option Script :=
 ((regularAt d name).bind File.json).bind (readScript url id)

/-- `SaveLocked`: a new version of the file there, or a new script's file. -/
def writeScript (ch : Chance) (script : Script) (s : State) : State × Bool :=
 let path := getScriptPath script.id
 if !ch.writes then (s, false)
 else match s.dir path with
  | some .other => (s, false)
  | some (.regular file) =>
   ({ s with dir := put s.dir path (.regular { file with
       json := some (saveLocked script), modified := ch.now }) }, true)
  | none =>
   ({ s with
    dir := put s.dir path (.regular ⟨s.nextUid, script.id, some (saveLocked script), ch.now⟩)
    nextUid := s.nextUid + 1 }, true)

/-- The first free name of `id`, `id_`, `id__` and so on. -/
def freeSimple (isFree : Bytes → Bool) : ℕ → Bytes → Option Bytes
 | 0, _ => none
 | fuel + 1, simple =>
  if isFree simple then some simple
  else if kMaxIdBytes ≤ simple.length then none
  else freeSimple isFree fuel (simple ++ utf8 "_")

def kSuffixBytes : ℕ := 17

def freeIdLocked (ch : Chance) (d : Dir Bytes Node) (id : Bytes) : Option Bytes :=
 let isFree := fun candidate => (d (getScriptPath candidate)).isNone
 (freeSimple isFree (kMaxIdBytes + 1) id).or
  ((ch.tokens.take 4).findSome? fun bits =>
   let fresh := idPrefix id (kMaxIdBytes - kSuffixBytes) ++ utf8 "_" ++ randomToken bits
   if isValidScriptId fresh ∧ isFree fresh then some fresh else none)

/-- A script moved, known there as `id`. -/
def moveScript (d : Dir Bytes Node) (file : File) (source target id : Bytes) : Dir Bytes Node :=
 move d source target (.regular { file with id := id })

def stopTaking (browser : ℕ) (file : Bytes) (s : State) : State :=
 { s with taking := Function.update s.taking browser (Function.update (s.taking browser) file false) }

def startTaking (browser : ℕ) (file : Bytes) (s : State) : State :=
 { s with taking := Function.update s.taking browser (Function.update (s.taking browser) file true) }

def isSetAsideHere (setAside : SetAside) : Bool := setAsideIdOf setAside.file = some setAside.id

/-- `ReturnSetAsideLocked`. -/
def returnLocked (browser : ℕ) (ch : Chance) (setAside : SetAside) (s : State) : State :=
 let s := match regularAt s.dir setAside.file, freeIdLocked ch s.dir setAside.id with
  | some file, some back =>
   if ch.returns then { s with
    dir := moveScript s.dir file setAside.file (getScriptPath back) back
    log := s.log ++ [.putBack file.uid] }
   else s
  | _, _ => s
 stopTaking browser setAside.file s

/-! ## Calls -/

def saveNew (ch : Chance) (script : Script) (s : State) : State × Option Bytes :=
 if !isValidScriptId script.id then (s, none)
 else match freeIdLocked ch s.dir script.id with
  | none => (s, none)
  | some id =>
   let (s, saved) := writeScript ch { script with id := id } s
   (s, if saved then some id else none)

def saveChecked (ch : Chance) (script : Script) (check : Option Script → Script → Option Script)
  (s : State) : State × Bool :=
 if !isValidScriptId script.id then (s, false)
 else match check (readAt url s.dir (getScriptPath script.id) script.id) script with
  | none => (s, false)
  | some checked => if checked.id ≠ script.id then (s, false) else writeScript ch checked s

def updateScript (ch : Chance) (id : Bytes) (change : Script → Option Script) (s : State) :
  State × Bool :=
 if !isValidScriptId id then (s, false)
 else match (readAt url s.dir (getScriptPath id) id).bind change with
  | none => (s, false)
  | some changed => if changed.id ≠ id then (s, false) else writeScript ch changed s

def deleteScript (ch : Chance) (id : Bytes) (s : State) : State :=
 if !isValidScriptId id ∨ !ch.deletes then s
 else { s with
  dir := remove s.dir (getScriptPath id)
  ended := ((regularAt s.dir (getScriptPath id)).map File.uid).toList ++ s.ended }

def take (storage : ℕ) (ch : Chance) (id : Bytes) (s : State) : State × Option Script :=
 let browser := browserOf storage
 let file := setAsidePath id (ch.tokens.headD 0)
 if !isValidScriptId id ∨ (s.taken storage id).isSome ∨ s.taking browser file then (s, none)
 else match regularAt s.dir (getScriptPath id) with
  | none => (s, none)
  | some script =>
   if (s.dir file).isSome ∨ !ch.renames then (s, none)
   else
    let s := startTaking browser file { s with
     dir := moveScript s.dir { script with modified := ch.now } (getScriptPath id) file id }
    match script.json.bind fun json => readScript url id (scrubPlaintextSecrets json).2 with
    | none => (returnLocked browser { ch with tokens := ch.tokens.tail } ⟨id, file⟩ s, none)
    | some loaded =>
     ({ s with
      taken := Function.update s.taken storage
       (Function.update (s.taken storage) id (some (file, script.uid)))
      log := s.log ++ [.took storage script.uid] }, some loaded)

def finishSetAside (storage : ℕ) (ch : Chance) (setAside : SetAside) (s : State) : State :=
 if !isSetAsideHere setAside then s
 else
  let s := match regularAt s.dir setAside.file with
   | some file =>
    if ch.deletes then { s with
     dir := remove s.dir setAside.file
     ended := file.uid :: s.ended }
    else s
   | none => s
  stopTaking (browserOf storage) setAside.file s

def returnSetAside (storage : ℕ) (ch : Chance) (setAside : SetAside) (s : State) : State :=
 if !isSetAsideHere setAside then s else returnLocked (browserOf storage) ch setAside s

/-- Drops the storage's entry of `id`. -/
def forget (storage : ℕ) (id : Bytes) (s : State) : State :=
 { s with taken := Function.update s.taken storage (Function.update (s.taken storage) id none) }

def finishTake (storage : ℕ) (ch : Chance) (id : Bytes) (s : State) : State :=
 match s.taken storage id with
 | none => s
 | some (file, _) => finishSetAside browserOf storage ch ⟨id, file⟩ (forget storage id s)

def returnTaken (storage : ℕ) (ch : Chance) (id : Bytes) (s : State) : State :=
 match s.taken storage id with
 | none => s
 | some (file, _) => returnSetAside browserOf storage ch ⟨id, file⟩ (forget storage id s)

def endBrowser (browser : ℕ) (s : State) : State :=
 { s with
   taken := fun storage id => if browserOf storage = browser then none else s.taken storage id
   taking := Function.update s.taking browser fun _ => false }

def step (s : State) : Op → State
 | .call _ ch (.saveNew script) => (saveNew ch script s).1
 | .call _ ch (.saveChecked script check) => (saveChecked url ch script check s).1
 | .call _ ch (.update id change) => (updateScript url ch id change s).1
 | .call _ ch (.delete id) => deleteScript ch id s
 | .call storage ch (.take id) => (AutomationStorage.take url browserOf storage ch id s).1
 | .call storage ch (.finishTake id) => finishTake browserOf storage ch id s
 | .call storage ch (.returnTaken id) => returnTaken browserOf storage ch id s
 | .call storage ch (.finishSetAside setAside) => finishSetAside browserOf storage ch setAside s
 | .call storage ch (.returnSetAside setAside) => returnSetAside browserOf storage ch setAside s
 | .endBrowser browser => endBrowser browserOf browser s

/-- `InterruptedTakes`: the set-aside files that a browser takes for moves cut short. -/
def interrupted (browser : ℕ) (now : ℤ) (s : State) (setAside : SetAside) : Bool :=
 isSetAsideHere setAside && !s.taking browser setAside.file &&
  match regularAt s.dir setAside.file with
  | some file => !mayStillBeMoving file.modified now
  | none => false

end MoltBrowser.AutomationStorage
