import MoltBrowser.TranslationPieces
import MoltBrowser.TransitionRuns

set_option autoImplicit false

/-!
# The plan of a page translation (`page_translate_plan.cc`)

The page's slots are cut into pieces; the pieces to translate are the units,
handed out in batches. `history` is what happened only: every unit settled, in
order, with its new text, or none if it keeps its original.
-/
namespace MoltBrowser.TranslationPlan

open WebAIConversation TranslationPieces TransitionRuns

def kMaxGrowthFactor : ℕ := 4
def kMaxGrowthSlack : ℕ := 256

structure PageSlot where
 inViewport : Bool
 text : Bytes
 deriving DecidableEq

structure PageText where
 slots : List PageSlot
 truncated : Bool := false
 deriving DecidableEq

structure SlotWrite where
 slot : ℕ
 text : Bytes
 deriving DecidableEq

structure SlotState where
 original : Bytes
 pieces : List TranslationPiece
 results : List (Option Bytes)
 openPieces : ℕ
 deriving DecidableEq

structure PlanUnit where
 slot : ℕ
 piece : ℕ
 settled : Bool := false
 deriving DecidableEq

structure Batch where
 units : List ℕ
 texts : List Bytes
 deriving DecidableEq

structure Plan where
 slots : List SlotState
 units : List PlanUnit
 queue : List (List ℕ)
 settled : ℕ := 0
 failed : ℕ := 0
 history : List (ℕ × Option Bytes) := []
 deriving DecidableEq

def checkTranslation (source translation : Bytes) : Option Bytes :=
 (cleanTranslation source translation).filter fun text =>
  text.length ≤ kMaxGrowthFactor * source.length + kMaxGrowthSlack

def order (page : PageText) : List ℕ :=
 let visible (s : ℕ) : Bool := page.slots[s]?.any (·.inViewport)
 (List.range page.slots.length).filter visible ++
  (List.range page.slots.length).filter (!visible ·)

def slotPieces (page : PageText) (s : ℕ) : List TranslationPiece :=
 match page.slots[s]? with
 | some slot => splitForTranslation slot.text kTranslatorPieceTokens
 | none => []

def slotPlaces (page : PageText) (s : ℕ) : List (ℕ × ℕ) :=
 ((slotPieces page s).zipIdx.filter (·.1.translate)).map fun piece => (s, piece.2)

def unitPlaces (page : PageText) : List (ℕ × ℕ) := (order page).flatMap (slotPlaces page)

def placeText (page : PageText) (place : ℕ × ℕ) : Bytes :=
 (((slotPieces page place.1)[place.2]?).map (·.text)).getD []

/-- The batch being filled, with its tokens, behind the ones closed. -/
structure Packing where
 closed : List (List ℕ) := []
 batch : List ℕ := []
 tokens : UInt32 := 0

namespace Packing

def close (p : Packing) : Packing :=
 { closed := if p.batch.isEmpty then p.closed else p.closed ++ [p.batch] }

def push (p : Packing) (unit : ℕ) (tokens : UInt32) : Packing :=
 let p := if p.batch.length = kTranslatorMaxBatchTexts ||
   (!p.batch.isEmpty && addTokens p.tokens tokens > kTranslatorPieceTokens)
  then p.close else p
 { p with batch := p.batch ++ [unit], tokens := addTokens p.tokens tokens }

end Packing

def packUnits (page : PageText) : List (List ℕ) :=
 ((unitPlaces page).zipIdx.foldl (fun p (place, unit) =>
  p.push unit (translatorBatchTextTokens (placeText page place))) ({} : Packing)).close.closed

def make (page : PageText) : Plan :=
 { slots := page.slots.mapIdx fun s slot =>
    { original := slot.text
      pieces := slotPieces page s
      results := (slotPieces page s).map fun _ => none
      openPieces := (unitPlaces page).countP (·.1 = s) }
   units := (unitPlaces page).map fun place => { slot := place.1, piece := place.2 }
   queue := packUnits page }

def SlotState.render (state : SlotState) : Bytes :=
 ((state.pieces.zip state.results).map fun (piece, result) =>
  if piece.translate then result.getD piece.text else piece.text).flatten

namespace Plan

def unitText (plan : Plan) (unit : ℕ) : Bytes :=
 match plan.units[unit]? with
 | some u => ((plan.slots[u.slot]?.bind (·.pieces[u.piece]?)).map (·.text)).getD []
 | none => []

def makeBatch (plan : Plan) (units : List ℕ) : Batch := ⟨units, units.map plan.unitText⟩

def nextBatch (plan : Plan) : Option (Batch × Plan) :=
 match plan.queue with
 | [] => none
 | units :: rest => some (plan.makeBatch units, { plan with queue := rest })

def settle (plan : Plan) (writes : List SlotWrite) (unit : ℕ) (text : Option Bytes) :
  Plan × List SlotWrite :=
 match plan.units[unit]? with
 | none => (plan, writes)
 | some u =>
  if u.settled then (plan, writes)
  else match plan.slots[u.slot]? with
   | none => (plan, writes)
   | some state =>
    let state := { state with
     results := state.results.set u.piece text
     openPieces := state.openPieces - 1 }
    let plan := { plan with
     units := plan.units.set unit { u with settled := true }
     slots := plan.slots.set u.slot state
     settled := plan.settled + 1
     failed := if text.isNone then plan.failed + 1 else plan.failed
     history := plan.history ++ [(unit, text)] }
    if state.openPieces > 0 then (plan, writes)
    else if state.render ≠ state.original then (plan, writes ++ [⟨u.slot, state.render⟩])
    else (plan, writes)

def pending (plan : Plan) (unit : ℕ) : Bool := plan.units[unit]?.any (!·.settled)

def rejectBatch (plan : Plan) (batch : Batch) : Plan × List SlotWrite :=
 let units := batch.units.filter plan.pending
 if units.length > 1 then
  let half := (units.length + 1) / 2
  ({ plan with queue := units.take half :: units.drop half :: plan.queue }, [])
 else units.foldl (fun (plan, writes) unit => plan.settle writes unit none) (plan, [])

/-- The loop of `AcceptReply`, with what is to be retried. -/
def acceptItems (alone : Bool) :
  Plan → List SlotWrite → List (ℕ × Bytes × Bytes) → Plan × List SlotWrite × List ℕ
 | plan, writes, [] => (plan, writes, [])
 | plan, writes, (unit, source, translation) :: rest =>
  if !plan.pending unit then acceptItems alone plan writes rest
  else
   let text := checkTranslation source translation
   if text.isNone && !alone then
    let (plan, writes, retry) := acceptItems alone plan writes rest
    (plan, writes, unit :: retry)
   else
    let (plan, writes) := plan.settle writes unit text
    acceptItems alone plan writes rest

def acceptReply (plan : Plan) (batch : Batch) (translations : List Bytes) :
  Plan × List SlotWrite :=
 if translations.length ≠ batch.units.length || batch.texts.length ≠ batch.units.length then
  plan.rejectBatch batch
 else
  let (plan, writes, retry) := acceptItems (batch.units.length ≤ 1) plan []
   (batch.units.zip (batch.texts.zip translations))
  ({ plan with queue := retry.map (fun unit => [unit]) ++ plan.queue }, writes)

def finished (plan : Plan) : Bool := plan.settled = plan.units.length

end Plan

inductive Reply where
 | accept (translations : List Bytes)
 | reject
 deriving DecidableEq

def Plan.answer (plan : Plan) (batch : Batch) : Reply → Plan × List SlotWrite
 | .accept translations => plan.acceptReply batch translations
 | .reject => plan.rejectBatch batch

/-- A plan at work: the writes it returned, and the batches with their replies so far. -/
structure Progress where
 plan : Plan
 writes : List SlotWrite := []
 exchanges : List (Batch × Reply) := []

/-- The next batch is handed out and answered; nothing happens once none is left. -/
def Progress.step (p : Progress) (reply : Reply) : Progress :=
 match p.plan.nextBatch with
 | none => p
 | some (batch, plan) =>
  let (plan, writes) := plan.answer batch reply
  { plan, writes := p.writes ++ writes, exchanges := p.exchanges ++ [(batch, reply)] }

def afterReplies (page : PageText) (replies : List Reply) : Progress :=
 run Progress.step { plan := make page } replies

end MoltBrowser.TranslationPlan
