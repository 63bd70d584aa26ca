import MoltBrowser.SortedTable
import MoltBrowser.TransitionRuns

set_option autoImplicit false

/-!
# Slots by weight

Slots are handed out within a limit for each key and a budget for all of them. What waits for a
key is in its order of arrival; a key with nothing in use and nothing waiting has no entry.
-/
namespace MoltBrowser.WeightedSlots
open SortedTable TransitionRuns

structure Waiter (Id : Type) where
 id : Id
 weight : ℕ
 priority : ℤ
 seq : ℕ
 deriving DecidableEq

structure Entry (Id : Type) where
 limit : ℕ := 1
 inUse : ℕ := 0
 waiting : List (Waiter Id) := []

structure MoltWeightedSlots (Key Id : Type) [LinearOrder Key] where
 budget : ℕ
 total : ℕ := 0
 entries : Table Key (Entry Id) := .empty
 nextSeq : ℕ := 0

variable {Key Id : Type} [LinearOrder Key] [DecidableEq Id]

def Waiter.before (a b : Waiter Id) : Prop := if a.priority ≠ b.priority then b.priority < a.priority else a.seq < b.seq

omit [DecidableEq Id] in
instance (a b : Waiter Id) : Decidable (a.before b) := 
 inferInstanceAs (Decidable (if a.priority ≠ b.priority then b.priority < a.priority else a.seq < b.seq))

/-- The first least of a list that begins with `w`. -/
def minElement (w : Waiter Id) (waiting : List (Waiter Id)) : Waiter Id :=
 waiting.foldl (fun least w => if w.before least then w else least) w

def best : List (Waiter Id) → Option (Waiter Id)
 | [] => none
 | w :: waiting => some (minElement w waiting)

def oldestSeq : List (Waiter Id) → ℕ
 | [] => 0
 | w :: waiting => waiting.foldl (fun oldest w => min oldest w.seq) w.seq

namespace MoltWeightedSlots

def inUse (s : MoltWeightedSlots Key Id) (key : Key) : ℕ := (s.entries.get key).elim 0 Entry.inUse

def waiting (s : MoltWeightedSlots Key Id) (key : Key) : List (Waiter Id) := (s.entries.get key).elim [] Entry.waiting

/-- The keys that wait, the one holding the fewest first, then the one waiting longest. -/
def order (s : MoltWeightedSlots Key Id) : List (Key × Entry Id) :=
 (s.entries.entries.filter fun e => !e.2.waiting.isEmpty).insertionSort fun a b =>
  toLex (a.2.inUse, oldestSeq a.2.waiting) ≤ toLex (b.2.inUse, oldestSeq b.2.waiting)

/-- The key to serve: one at its limit is passed over, one that the budget can't serve holds back
those after it. -/
def choose (s : MoltWeightedSlots Key Id) : List (Key × Entry Id) → Option (Key × Entry Id × Waiter Id)
 | [] => none
 | (key, entry) :: rest =>
  match best entry.waiting with
  | none => choose s rest
  | some w =>
   if entry.limit < entry.inUse + w.weight then choose s rest
   else if s.budget < s.total + w.weight then none
   else some (key, entry, w)

def serve (s : MoltWeightedSlots Key Id) (key : Key) (entry : Entry Id) (w : Waiter Id) : MoltWeightedSlots Key Id :=
 { s with
   entries := s.entries.insert key { entry with inUse := entry.inUse + w.weight, waiting := entry.waiting.erase w }
   total := s.total + w.weight }

/-- The loop of `grant`; each turn takes one off those that wait, so their number bounds it. -/
def grantLoop : ℕ → MoltWeightedSlots Key Id → MoltWeightedSlots Key Id × List (Key × Waiter Id)
 | 0, s => (s, [])
 | fuel + 1, s =>
  match s.choose s.order with
  | none => (s, [])
  | some (key, entry, w) =>
   let (t, granted) := grantLoop fuel (s.serve key entry w)
   (t, (key, w) :: granted)

def waiters (s : MoltWeightedSlots Key Id) : ℕ := s.entries.sum fun e => e.waiting.length

def grant (s : MoltWeightedSlots Key Id) : MoltWeightedSlots Key Id × List (Key × Waiter Id) :=
 let (t, granted) := grantLoop s.waiters s
 ({ t with entries := t.entries.filter fun e => !(e.inUse == 0 && e.waiting.isEmpty) }, granted)

def acquire (s : MoltWeightedSlots Key Id) (key : Key) (limit weight : ℕ) (id : Id) (priority : ℤ) :
  MoltWeightedSlots Key Id × List (Key × Waiter Id) :=
 let entry := (s.entries.get key).getD {}
 let limit := max limit 1
 let w := max 1 (min weight limit)
 grant
  { s with
    entries := s.entries.insert key { entry with limit, waiting := entry.waiting ++ [{ id, weight := w, priority, seq := s.nextSeq }] }
    nextSeq := s.nextSeq + 1 }

def release (s : MoltWeightedSlots Key Id) (key : Key) (weight : ℕ) : MoltWeightedSlots Key Id × List (Key × Waiter Id) :=
 match s.entries.get key with
 | none => (s, [])
 | some entry =>
  let w := min (max 1 (min weight entry.limit)) entry.inUse
  grant { s with entries := s.entries.insert key { entry with inUse := entry.inUse - w }, total := s.total - min w s.total }

/-- Also whether `id` was queued. -/
def cancel (s : MoltWeightedSlots Key Id) (key : Key) (id : Id) : Bool × MoltWeightedSlots Key Id × List (Key × Waiter Id) :=
 match s.entries.get key with
 | none => (false, s, [])
 | some entry =>
  match entry.waiting.find? fun w => w.id = id with
  | none => (false, s, [])
  | some _ =>
   (true, grant { s with entries := s.entries.insert key { entry with waiting := entry.waiting.eraseP fun w => w.id = id } })

def setPriority (s : MoltWeightedSlots Key Id) (key : Key) (id : Id) (priority : ℤ) :
  MoltWeightedSlots Key Id × List (Key × Waiter Id) :=
 match s.entries.get key with
 | none => (s, [])
 | some entry =>
  grant
   { s with
     entries := s.entries.insert key
      { entry with waiting := entry.waiting.map fun w => if w.id = id then { w with priority } else w } }

end MoltWeightedSlots

/-! ## Runs -/

inductive SlotCall (Key Id : Type) where
 | acquire (key : Key) (weight : ℕ) (id : Id) (priority : ℤ)
 | release (key : Key) (weight : ℕ)
 | cancel (key : Key) (id : Id)
 | setPriority (key : Key) (id : Id) (priority : ℤ)

/-- What the callers know: what was asked for, granted and cancelled so far, and the weights held. -/
structure Log (Key Id : Type) where
 asked : List (Key × Id) := []
 granted : List (Key × Id) := []
 cancelled : List (Key × Id) := []
 held : List (Key × ℕ) := []

def Log.grant (log : Log Key Id) (granted : List (Key × Waiter Id)) : Log Key Id :=
 { log with
   granted := log.granted ++ granted.map fun g => (g.1, g.2.id)
   held := log.held ++ granted.map fun g => (g.1, g.2.weight) }

variable (limit : Key → ℕ)

def weightOf (key : Key) (weight : ℕ) : ℕ := max 1 (min weight (max (limit key) 1))

def answer (s : MoltWeightedSlots Key Id) : SlotCall Key Id → MoltWeightedSlots Key Id × List (Key × Waiter Id)
 | .acquire key weight id priority => s.acquire key (limit key) weight id priority
 | .release key weight => s.release key weight
 | .cancel key id => (s.cancel key id).2
 | .setPriority key id priority => s.setPriority key id priority

/-- What the callers do with the log before they see what is granted. -/
def Log.note (s : MoltWeightedSlots Key Id) (log : Log Key Id) : SlotCall Key Id → Log Key Id
 | .acquire key _ id _ => { log with asked := log.asked ++ [(key, id)] }
 | .release key weight => { log with held := log.held.erase (key, weightOf limit key weight) }
 | .cancel key id => if (s.cancel key id).1 then { log with cancelled := log.cancelled ++ [(key, id)] } else log
 | .setPriority _ _ _ => log

def step (st : MoltWeightedSlots Key Id × Log Key Id) (call : SlotCall Key Id) : MoltWeightedSlots Key Id × Log Key Id :=
 ((answer limit st.1 call).1, (st.2.note limit st.1 call).grant (answer limit st.1 call).2)

def Allowed (st : MoltWeightedSlots Key Id × Log Key Id) : SlotCall Key Id → Prop
 | .acquire key _ id _ => (key, id) ∉ st.2.asked
 | .release key weight => (key, weightOf limit key weight) ∈ st.2.held
 | .cancel _ _ | .setPriority _ _ _ => True

instance (st : MoltWeightedSlots Key Id × Log Key Id) (call : SlotCall Key Id) : Decidable (Allowed limit st call) := by
 cases call <;> unfold Allowed <;> infer_instance

end MoltBrowser.WeightedSlots
