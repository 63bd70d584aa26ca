import MoltBrowser.Bytes

set_option autoImplicit false

/-!
# The page generation scheduler (`web_ai_policy.cc`)

One web generation runs at a time. Requests wait in a foreground and a
background queue, with counters kept beside them per site. The traced
scheduler adds the history of what was admitted, started, finished, held and
released, so that the counters can be compared with what really happened.
-/
namespace MoltBrowser.GenerationScheduler

abbrev Site := Bytes

def kMaxSessionsPerSite : ℕ := 16
def kMaxPendingPerSite : ℕ := kMaxSessionsPerSite
def kMaxPendingTotal : ℕ := 64
def kMaxHeldImagesPerSite : ℕ := 16
def kMaxHeldImagesTotal : ℕ := 48

inductive Admission where
 | admitted
 | siteBusy
 | queueFull
 deriving DecidableEq, Repr

structure Entry where
 id : ℕ
 site : Site
 deriving DecidableEq, Repr

/-- `running` is 0 when nothing runs. The maps are `std::map`s: absent keys are `none`. -/
structure State where
 foreground : List Entry := []
 background : List Entry := []
 running : ℕ := 0
 runningSite : Site := []
 pendingBySite : Site → Option ℕ := fun _ => none
 lastStartBySite : Site → Option ℕ := fun _ => none
 starts : ℕ := 0
 sessionsBySite : Site → Option ℕ := fun _ => none
 imagesBySite : Site → Option ℕ := fun _ => none
 imagesHeldTotal : ℕ := 0

/-- `size_t` subtraction, which wraps below zero. -/
def sizeSub (a b : ℕ) : ℕ := (a + 2 ^ 64 - b) % 2 ^ 64

def pendingTotal (s : State) : ℕ :=
 s.foreground.length + s.background.length + if s.running ≠ 0 then 1 else 0

def pendingForSite (s : State) (site : Site) : ℕ := (s.pendingBySite site).getD 0

def lastStart (s : State) (site : Site) : ℕ := (s.lastStartBySite site).getD 0

def enqueue (s : State) (id : ℕ) (site : Site) (foreground : Bool) : Admission × State :=
 if pendingTotal s ≥ kMaxPendingTotal then (.queueFull, s)
 else if pendingForSite s site ≥ kMaxPendingPerSite then (.siteBusy, s)
 else
  let e : Entry := ⟨id, site⟩
  let s := if foreground then { s with foreground := s.foreground ++ [e] }
   else { s with background := s.background ++ [e] }
  (.admitted, { s with
   pendingBySite := Function.update s.pendingBySite site (some (pendingForSite s site + 1)) })

def servedForeground (s : State) : Bool := !s.foreground.isEmpty

def served (s : State) : List Entry :=
 if servedForeground s then s.foreground else s.background

def next (s : State) : Option Entry := (served s).argmin fun e => lastStart s e.site

def startNext (s : State) : ℕ × State :=
 if s.running ≠ 0 then (0, s)
 else match next s with
  | none => (0, s)
  | some e =>
   let s := if servedForeground s then { s with foreground := s.foreground.erase e }
    else { s with background := s.background.erase e }
   (e.id, { s with
    running := e.id
    runningSite := e.site
    starts := s.starts + 1
    lastStartBySite := Function.update s.lastStartBySite e.site (some (s.starts + 1)) })

/-- The site's turn is forgotten with its last pending request. -/
def release (s : State) (site : Site) : State :=
 match s.pendingBySite site with
 | none => s
 | some n =>
  if sizeSub n 1 = 0 then
   { s with
     pendingBySite := Function.update s.pendingBySite site none
     lastStartBySite := Function.update s.lastStartBySite site none }
  else { s with pendingBySite := Function.update s.pendingBySite site (some (sizeSub n 1)) }

def finish (s : State) (id : ℕ) : State :=
 if id = 0 then s
 else if s.running = id then release { s with running := 0, runningSite := [] } s.runningSite
 else match s.foreground.find? (·.id = id) with
  | some e => release { s with foreground := s.foreground.eraseP (·.id = id) } e.site
  | none => match s.background.find? (·.id = id) with
   | some e => release { s with background := s.background.eraseP (·.id = id) } e.site
   | none => s

def isRunning (s : State) (id : ℕ) : Prop := id ≠ 0 ∧ s.running = id

def isQueued (s : State) (id : ℕ) : Prop :=
 (∃ e ∈ s.foreground, e.id = id) ∨ ∃ e ∈ s.background, e.id = id

instance (s : State) (id : ℕ) : Decidable (isRunning s id) := inferInstanceAs (Decidable (_ ∧ _))
instance (s : State) (id : ℕ) : Decidable (isQueued s id) := inferInstanceAs (Decidable (_ ∨ _))

def tryAddSession (s : State) (site : Site) : Bool × State :=
 let count := (s.sessionsBySite site).getD 0
 -- `operator[]` makes the entry before the check.
 let s := { s with sessionsBySite := Function.update s.sessionsBySite site (some count) }
 if count ≥ kMaxSessionsPerSite then (false, s)
 else (true, { s with sessionsBySite := Function.update s.sessionsBySite site (some (count + 1)) })

def removeSession (s : State) (site : Site) : State :=
 match s.sessionsBySite site with
 | none => s
 | some n =>
  { s with
    sessionsBySite := Function.update s.sessionsBySite site
     (if n ≤ 1 then none else some (n - 1)) }

def imagesHeldForSite (s : State) (site : Site) : ℕ := (s.imagesBySite site).getD 0

def tryHoldImages (s : State) (site : Site) (count : ℕ) : Bool × State :=
 if count = 0 then (true, s)
 else
  let held := imagesHeldForSite s site
  if count > sizeSub kMaxHeldImagesPerSite held ∨
    count > sizeSub kMaxHeldImagesTotal s.imagesHeldTotal then (false, s)
  else (true, { s with
   imagesBySite := Function.update s.imagesBySite site (some (held + count))
   imagesHeldTotal := s.imagesHeldTotal + count })

def releaseImages (s : State) (site : Site) (count : ℕ) : State :=
 match s.imagesBySite site with
 | none => s
 | some held =>
  if count = 0 then s
  else
   let released := min count held
   { s with
     imagesHeldTotal := sizeSub s.imagesHeldTotal released
     imagesBySite := Function.update s.imagesBySite site
      (if released = held then none else some (sizeSub held released)) }

inductive Call where
 | enqueue (id : ℕ) (site : Site) (foreground : Bool)
 | startNext
 | finish (id : ℕ)
 | tryAddSession (site : Site)
 | removeSession (site : Site)
 | tryHoldImages (site : Site) (count : ℕ)
 | releaseImages (site : Site) (count : ℕ)
 deriving DecidableEq, Repr

inductive Event where
 | admitted (id : ℕ) (site : Site) (foreground : Bool)
 | started (id : ℕ) (site : Site) (foreground : Bool)
 | finished (id : ℕ)
 | held (site : Site) (count : ℕ)
 | released (site : Site) (count : ℕ)
 deriving DecidableEq, Repr

/-- The scheduler with its history, newest first, and every id offered so far. -/
structure Traced where
 sched : State := {}
 log : List Event := []
 offered : List ℕ := []

def step (t : Traced) : Call → Traced
 | .enqueue id site fg =>
  let r := enqueue t.sched id site fg
  ⟨r.2, if r.1 = .admitted then .admitted id site fg :: t.log else t.log, id :: t.offered⟩
 | .startNext =>
  let r := startNext t.sched
  { t with
    sched := r.2
    log := if r.1 = 0 then t.log
     else .started r.1 r.2.runningSite (servedForeground t.sched) :: t.log }
 | .finish id => { t with sched := finish t.sched id, log := .finished id :: t.log }
 | .tryAddSession site => { t with sched := (tryAddSession t.sched site).2 }
 | .removeSession site => { t with sched := removeSession t.sched site }
 | .tryHoldImages site count =>
  let r := tryHoldImages t.sched site count
  { t with sched := r.2, log := if r.1 then .held site count :: t.log else t.log }
 | .releaseImages site count =>
  { t with sched := releaseImages t.sched site count, log := .released site count :: t.log }

/-- The contract of `Enqueue`: the id is new and non-zero. -/
def Fresh (t : Traced) : Call → Prop
 | .enqueue id _ _ => id ≠ 0 ∧ id ∉ t.offered
 | _ => True

instance (t : Traced) : (c : Call) → Decidable (Fresh t c)
 | .enqueue id _ _ => inferInstanceAs (Decidable (id ≠ 0 ∧ id ∉ t.offered))
 | .startNext | .finish _ | .tryAddSession _ | .removeSession _ | .tryHoldImages _ _
 | .releaseImages _ _ => .isTrue trivial

end MoltBrowser.GenerationScheduler
