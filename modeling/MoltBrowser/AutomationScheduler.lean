import MoltBrowser.AutomationRunner
import MoltBrowser.AutomationScriptRoundTrip

set_option autoImplicit false

/-!
# The workflow scheduler (`automation_scheduler.cc`)

An evaluation lists the stored workflows, fires those whose due time passed
since their last fire, and arms one timer for the soonest due time; the timer's
workflow is read again and fired. Reads are asynchronous: each takes what is
stored at some moment between its request and its reply. A fire stores its time
(`OnTriggerFired`) before any read asked for later.
-/
namespace MoltBrowser.AutomationScheduler
open AutomationScript AutomationRunner

def kSecond : ℤ := 1000000
def kMaxTime : ℤ := 2 ^ 63 - 1

structure ExplodedLocal where
 month : ℤ
 mday : ℤ
 hour : ℤ
 minute : ℤ
 wday : ℤ

/-- The C library's local time of a Unix time, and `base::Time::FromString`. -/
structure Platform where
 localTime : ℤ → Option ExplodedLocal
 parseTime : Bytes → Option ℤ

/-! ## Numbers and lists in texts -/

def digitsValue (acc : ℕ) : Bytes → Option ℕ
 | [] => some acc
 | c :: s => if 0x30 ≤ c ∧ c ≤ 0x39 then digitsValue (acc * 10 + (c - 0x30).toNat) s else none

/-- `base::StringToInt`. -/
def stringToInt (s : Bytes) : Option ℤ :=
 let negative := s.head? = some 0x2D
 let body := if negative ∨ s.head? = some 0x2B then s.tail else s
 if body = [] then none
 else (digitsValue 0 body).bind fun n =>
  let i : ℤ := if negative then -n else n
  if -2 ^ 31 ≤ i ∧ i < 2 ^ 31 then some i else none

def isWhitespace (c : UInt8) : Bool := (0x09 ≤ c && c ≤ 0x0D) || c = 0x20

def trimWhitespace (s : Bytes) : Bytes :=
 ((s.dropWhile isWhitespace).reverse.dropWhile isWhitespace).reverse

/-- `base::SplitString`: the trimmed pieces that are not empty. -/
def splitString (separator : UInt8) (s : Bytes) : List Bytes :=
 ((s.splitOn separator).map trimWhitespace).filter (· ≠ [])

/-! ## Due times -/

/-- One piece of a cron field's list: its range and the step over it. -/
structure CronPiece where
 lo : ℤ
 hi : ℤ
 step : ℤ
 step_pos : 0 < step
 lo_le_hi : lo ≤ hi

/-- `*`, `N` or `N-M`, each perhaps with `/step`; none when it is malformed. -/
def cronPiece (minVal maxVal : ℤ) (piece : Bytes) : Option CronPiece := do
 let range := piece.takeWhile (· ≠ 0x2F)
 let step ← if 0x2F ∈ piece then stringToInt (piece.dropWhile (· ≠ 0x2F)).tail else some 1
 let (lo, hi) ←
  if range = "*" then some (minVal, maxVal)
  else if 0x2D ∈ range then
   (stringToInt (range.takeWhile (· ≠ 0x2D))).bind fun lo =>
    (stringToInt (range.dropWhile (· ≠ 0x2D)).tail).map fun hi => (lo, hi)
  else (stringToInt range).map fun lo => (lo, lo)
 if h : 0 < step ∧ minVal ≤ lo ∧ hi ≤ maxVal ∧ lo ≤ hi then some ⟨lo, hi, step, h.1, h.2.2.2⟩
 else none

/-- How a parse ends without a set: refused, or in an addition that is no `int`. -/
inductive CronError where
 | malformed
 | overflow
 deriving DecidableEq

/-- The loop `for (int v = lo; v <= hi; v += step)` from `v`. -/
def cronValues (hi step : ℤ) : ℕ → ℤ → Except CronError (List ℤ)
 | 0, _ => .ok []
 | fuel + 1, v =>
  if v ≤ hi then
   if v + step < 2 ^ 31 then (cronValues hi step fuel (v + step)).map (v :: ·)
   else .error .overflow
  else .ok []

def CronPiece.parsed (x : CronPiece) : Except CronError (List ℤ) :=
 cronValues x.hi x.step ((x.hi - x.lo).toNat + 2) x.lo

def parseCronPiece (minVal maxVal : ℤ) (piece : Bytes) : Except CronError (List ℤ) :=
 match cronPiece minVal maxVal piece with
 | none => .error .malformed
 | some x => x.parsed

def parseCronField (minVal maxVal : ℤ) (field : Bytes) : Except CronError (List ℤ) := do
 let pieces ← (splitString 0x2C field).mapM (parseCronPiece minVal maxVal)
 if pieces.flatten = [] then .error .malformed else .ok pieces.flatten

/-- Minute by minute from the Unix time `t`; the null time is none. -/
def cronWalk (localTime : ℤ → Option ExplodedLocal) (isMatch : ExplodedLocal → Bool) :
  ℕ → ℤ → Option ℤ
 | 0, _ => none
 | n + 1, t =>
  match localTime t with
  | none => none
  | some ex =>
   if isMatch ex then (if t = 0 then none else some (t * kSecond))
   else cronWalk localTime isMatch n (t + 60)

def kNullTime : ℤ := -11644473600 * kSecond

/-- `InSecondsFSinceUnixEpoch`, truncated. -/
def secondsSinceUnixEpoch (now : ℤ) : ℤ := if now = kNullTime then 0 else now.tdiv kSecond

def cronFire (p : Platform) (expression : Bytes) (now : ℤ) : Except CronError (Option ℤ) :=
 match splitString 0x20 expression with
 | [f0, f1, f2, f3, f4] => do
  let minutes ← parseCronField 0 59 f0
  let hours ← parseCronField 0 23 f1
  let mdays ← parseCronField 1 31 f2
  let months ← parseCronField 1 12 f3
  let wdays ← parseCronField 0 6 f4
  return cronWalk p.localTime
   (fun ex => ex.minute ∈ minutes ∧ ex.hour ∈ hours ∧ ex.mday ∈ mdays ∧ ex.month ∈ months ∧
    ex.wday ∈ wdays)
   (366 * 24 * 60) ((secondsSinceUnixEpoch now + 60).tdiv 60 * 60)
 | _ => .error .malformed

/-- Null for a malformed expression. An overflow has no defined end; it is read as null here. -/
def nextCronFire (p : Platform) (expression : Bytes) (now : ℤ) : Option ℤ :=
 match cronFire p expression now with
 | .ok due => due
 | .error _ => none

def nextFireTime (p : Platform) (trigger : Trigger) (now : ℤ) : Option ℤ :=
 if trigger.untilUnix > 0 ∧ now > trigger.untilUnix * kSecond then none
 else match trigger.type with
  | .manual => none
  | .cron => nextCronFire p trigger.expression now
  | .interval =>
   match stringToInt trigger.expression with
   | none => none
   | some seconds =>
    if seconds ≤ 0 then none
    else
     let baseTime := if trigger.lastFiredUnix > 0 then trigger.lastFiredUnix * kSecond else now
     some (baseTime + seconds * kSecond)
  | .at_ =>
   match p.parseTime trigger.expression with
   | none => none
   | some t => if t > now then some t else none
  | .onEvent => none

/-! ## State -/

/-- The stored workflows; each is known by its file's name. -/
structure Workflows where
 scripts : List Script
 distinct : (scripts.map Script.id).Nodup

structure Timer where
 id : Bytes
 due : ℤ
 expires : ℤ

/-- A timer's workflow being read again; `loaded` is what the read found. -/
structure Load where
 id : Bytes
 due : ℤ
 loaded : Option (Option Script) := none

structure Listing where
 now : ℤ
 snapshot : Option (List Script) := none

/-- A call of the fire callback and the due time that caused it. -/
structure Fire where
 id : Bytes
 due : ℤ
 time : ℤ
 deriving DecidableEq

/-- `evaluations` are the times of the listings acted on; `fires` every call of the callback. -/
structure State where
 clock : ℤ
 storage : Workflows
 listing : Option Listing := none
 listAgain : Bool := false
 timer : Option Timer := none
 loads : List Load := []
 evaluations : List ℤ := []
 fires : List Fire := []

inductive Action where
 | tick
 | listRead
 | listed
 | timerExpired
 | loadRead (k : ℕ)
 | loadReply (k : ℕ)

/-- What happens `elapsed` microseconds after the event before. -/
structure Event where
 elapsed : ℕ
 action : Action

/-! ## Firing -/

def setLast (id : Bytes) (unix : ℤ) (script : Script) : Script :=
 if script.id = id then { script with trigger := { script.trigger with lastFiredUnix := unix } }
 else script

theorem setLast_id (id : Bytes) (unix : ℤ) (script : Script) : (setLast id unix script).id = script.id := by
 unfold setLast
 split <;> rfl

def Workflows.setLastFired (w : Workflows) (id : Bytes) (unix : ℤ) : Workflows where
 scripts := w.scripts.map (setLast id unix)
 distinct := by
  have hids : Script.id ∘ setLast id unix = Script.id := funext (setLast_id id unix)
  rw [List.map_map, hids]
  exact w.distinct

/-- `OnTriggerFired`: the fire's second, as a file holds it. -/
def fire (id : Bytes) (due time : ℤ) (s : State) : State :=
 { s with
   storage := s.storage.setLastFired id (keepPositive (time.tdiv kSecond))
   fires := s.fires ++ [⟨id, due, time⟩] }

/-! ## Evaluations -/

variable (p : Platform)

def eligible (script : Script) : Bool :=
 script.enabled && !script.security.sitesUnconfirmed && !hasVoiceSteps script

def isTimed (trigger : Trigger) : Bool := trigger.type = .cron ∨ trigger.type = .interval

def missed (now : ℤ) (trigger : Trigger) : Option ℤ :=
 if isTimed trigger ∧ trigger.lastFiredUnix > 0 then
  (nextFireTime p trigger (trigger.lastFiredUnix * kSecond)).filter (· < now)
 else none

def catchUp (now : ℤ) (script : Script) (s : State) : State :=
 match missed p now script.trigger with
 | some due => fire script.id due now s
 | none => s

def sooner (soonest : Option (ℤ × Bytes)) (next : ℤ) (id : Bytes) : Option (ℤ × Bytes) :=
 match soonest with
 | some (t, _) => if next < t then some (next, id) else soonest
 | none => some (next, id)

def consider (now : ℤ) (acc : State × Option (ℤ × Bytes)) (script : Script) :
  State × Option (ℤ × Bytes) :=
 if !eligible script then acc
 else (catchUp p now script acc.1,
  match nextFireTime p script.trigger now with
  | some next => sooner acc.2 next script.id
  | none => acc.2)

def timerDelay (due now : ℤ) : ℤ :=
 let delay := due - now
 let delay := if delay ≤ 0 then 1000 else delay
 if delay > 3600 * kSecond then 3600 * kSecond else delay

def evaluate (now : ℤ) (scripts : List Script) (s : State) : State :=
 let (s, soonest) := scripts.foldl (consider p now) (s, none)
 { s with
   evaluations := s.evaluations ++ [now]
   timer := soonest.map fun (due, id) => ⟨id, due, s.clock + timerDelay due now⟩ }

def armNext (s : State) : State :=
 if s.listing.isSome then { s with listAgain := true } else { s with listing := some { now := s.clock } }

def onListed (s : State) : State :=
 match s.listing with
 | some ⟨now, some scripts⟩ =>
  let s := { s with listing := none }
  if s.listAgain then armNext { s with listAgain := false } else evaluate p now scripts s
 | _ => s

/-! ## The timer -/

def onTimerExpired (s : State) : State :=
 match s.timer with
 | some t =>
  if t.expires ≤ s.clock then { s with timer := none, loads := s.loads ++ [⟨t.id, t.due, none⟩] }
  else s
 | none => s

def readLoad (w : Workflows) (load : Load) : Load :=
 { load with loaded := some (load.loaded.getD (w.scripts.find? fun script => script.id = load.id)) }

/-- `OnTimerScriptLoaded`: whatever was read is fired. -/
def onTimerScriptLoaded (k : ℕ) (s : State) : State :=
 match s.loads[k]? with
 | some ⟨id, due, some script⟩ =>
  let s := { s with loads := s.loads.eraseIdx k }
  armNext (if script.isSome then fire id due s.clock s else s)
 | _ => s

def act (s : State) : Action → State
 | .tick => armNext s
 | .listRead => { s with listing := s.listing.map fun l =>
   { l with snapshot := some (l.snapshot.getD s.storage.scripts) } }
 | .listed => onListed p s
 | .timerExpired => onTimerExpired s
 | .loadRead k => { s with loads := s.loads.modify k (readLoad s.storage) }
 | .loadReply k => onTimerScriptLoaded k s

def passTime (elapsed : ℕ) (s : State) : State := { s with clock := min (s.clock + elapsed) kMaxTime }

def step (s : State) (e : Event) : State := act p (passTime e.elapsed s) e.action

def start (w : Workflows) (clock : Int64) : State := { clock := clock.toInt, storage := w }

end MoltBrowser.AutomationScheduler
