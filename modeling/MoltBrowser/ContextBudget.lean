import Mathlib.Algebra.BigOperators.Group.List.Basic
import Mathlib.Algebra.Order.Group.Int
import Mathlib.Tactic.Ring

set_option autoImplicit false

/-!
# Fitting a prompt into the model's context

What is given up first: the oldest turns, the retrieved context, the rest of the history, and then some of the reply and of the user's turn.
-/
namespace MoltBrowser.ContextBudget

def kMinUsefulContextTokens : ℤ := 64
def kMinUserTokens : ℤ := 32
def kMinReplyTokens : ℤ := 16
def kReplyFloorTokens : ℤ := 256

structure PromptBudgetInput where
 nCtx : ℤ := 0
 replyReserve : ℤ := 0
 systemTokens : ℤ := 0
 userTokens : ℤ := 0
 contextTokens : ℤ := 0
 /-- Oldest first. -/
 historyTokens : List ℤ := []
 historyStartsTurn : List Bool := []
 perMessageOverhead : ℤ := 0
 safetyMargin : ℤ := 8

structure PromptBudgetPlan where
 historyKeepFrom : ℕ := 0
 contextTokenLimit : ℤ := -1
 userTokenLimit : ℤ := -1
 replyTokens : ℤ := 0
 fits : Bool := true

namespace PromptBudgetInput

variable (input : PromptBudgetInput)

def avail : ℤ := max 0 (input.nCtx - input.safetyMargin)

def systemCost : ℤ := max 0 input.systemTokens + input.perMessageOverhead

def startsTurn (i : ℕ) : Bool := input.historyStartsTurn[i]?.getD true

/-- `suffix[i]` -/
def suffix (i : ℕ) : ℤ := ((input.historyTokens.drop i).map fun tokens => max 0 tokens + input.perMessageOverhead).sum

def toTurn : ℕ → ℕ → ℕ
 | 0, i => i
 | fuel + 1, i => if i < input.historyTokens.length ∧ input.startsTurn i = false then toTurn fuel (i + 1) else i

def nextTurn (start : ℕ) : ℕ := input.toTurn input.historyTokens.length (start + 1)

end PromptBudgetInput

/-- What is left of each part, and the limits set so far. -/
structure Parts where
 reply : ℤ
 user : ℤ
 context : ℤ
 keepFrom : ℕ := 0
 contextTokenLimit : ℤ := -1
 userTokenLimit : ℤ := -1

namespace Parts

variable (input : PromptBudgetInput) (p : Parts)

def promptCost : ℤ := input.systemCost + p.context + input.suffix p.keepFrom + p.user + input.perMessageOverhead

def promptAvail : ℤ := input.avail - p.reply

def over_ : ℤ := p.promptCost input - p.promptAvail input

/-- The loops that drop the oldest whole turns; each turn of them goes on by a message at least. -/
def dropTurns (mayDrop : ℤ → Bool) : ℕ → Parts → Parts
 | 0, p => p
 | fuel + 1, p =>
  if p.promptCost input > p.promptAvail input ∧ p.keepFrom < input.historyTokens.length ∧ mayDrop (input.suffix p.keepFrom) = true then
   dropTurns mayDrop fuel { p with keepFrom := input.nextTurn p.keepFrom }
  else p

def cutContext : Parts :=
 if p.promptCost input > p.promptAvail input ∧ p.context > 0 then
  let room := p.promptAvail input - (p.promptCost input - p.context)
  let context := if kMinUsefulContextTokens ≤ room then room else 0
  { p with context, contextTokenLimit := context }
 else p

def borrowReply : Parts :=
 if p.over_ input > 0 then { p with reply := p.reply - min (p.over_ input) (p.reply - min p.reply kReplyFloorTokens) } else p

def cutUser : Parts :=
 if p.over_ input > 0 ∧ p.user > 0 then
  let minUser := min p.user kMinUserTokens
  let user := p.user - min (p.over_ input) (p.user - minUser)
  { p with user, userTokenLimit := user }
 else p

def giveUpReply : Parts := if p.over_ input > 0 then { p with reply := p.reply - p.over_ input } else p

end Parts

namespace PromptBudgetInput

variable (input : PromptBudgetInput)

def startParts : Parts where
 reply := max 0 (min input.replyReserve (input.avail / 2))
 user := max 0 input.userTokens
 context := max 0 input.contextTokens

def historyFloor : ℤ :=
 let p := input.startParts
 max 0 ((p.promptAvail input - input.systemCost - p.user - input.perMessageOverhead).tdiv 4)

def partsLeft : Parts :=
 let turns := input.historyTokens.length
 let p := input.startParts.dropTurns input (fun held => input.historyFloor < held) turns
 let p := (p.cutContext input).dropTurns input (fun _ => true) turns
 ((p.borrowReply input).cutUser input).giveUpReply input

def planPromptBudget : PromptBudgetPlan :=
 let p := input.partsLeft
 { historyKeepFrom := p.keepFrom
   contextTokenLimit := p.contextTokenLimit
   userTokenLimit := p.userTokenLimit
   replyTokens := max 0 p.reply
   fits := kMinReplyTokens ≤ p.reply }

def keptContext (plan : PromptBudgetPlan) : ℤ := if plan.contextTokenLimit = -1 then input.contextTokens else plan.contextTokenLimit

def keptUser (plan : PromptBudgetPlan) : ℤ := if plan.userTokenLimit = -1 then input.userTokens else plan.userTokenLimit

def keptHistory (plan : PromptBudgetPlan) : List ℤ := input.historyTokens.drop plan.historyKeepFrom

end PromptBudgetInput

structure Counts (input : PromptBudgetInput) : Prop where
 reply : 0 ≤ input.replyReserve
 system : 0 ≤ input.systemTokens
 user : 0 ≤ input.userTokens
 context : 0 ≤ input.contextTokens
 history : ∀ tokens ∈ input.historyTokens, 0 ≤ tokens
 overhead : 0 ≤ input.perMessageOverhead

/-! ## Where the history is kept from -/

section Turns

variable {input : PromptBudgetInput}

def TurnAt (input : PromptBudgetInput) (i : ℕ) : Prop :=
 i = 0 ∨ i = input.historyTokens.length ∨ (i < input.historyTokens.length ∧ input.startsTurn i = true)

theorem turnAt_toTurn (fuel i : ℕ) (hi : i ≤ input.historyTokens.length) (hfuel : input.historyTokens.length ≤ i + fuel) :
  TurnAt input (input.toTurn fuel i) := by
 induction fuel generalizing i with
 | zero => exact .inr (.inl (le_antisymm hi hfuel))
 | succ fuel ih =>
  rw [PromptBudgetInput.toTurn]
  split_ifs with hnext
  · exact ih (i + 1) hnext.1 (by omega)
  · rcases hi.eq_or_lt with hend | hlt
    · exact .inr (.inl hend)
    · exact .inr (.inr ⟨hlt, by simpa [hlt] using hnext⟩)

theorem turnAt_nextTurn {start : ℕ} (h : start < input.historyTokens.length) : TurnAt input (input.nextTurn start) :=
 turnAt_toTurn _ _ h (by omega)

end Turns

/-! ## What every stage keeps -/

/-- No part has more than was given, the user's turn its least, and each limit is of what is left. -/
structure Sound (input : PromptBudgetInput) (p : Parts) : Prop where
 reply : p.reply ≤ input.replyReserve
 user : p.user ≤ input.userTokens
 minUser : min input.userTokens kMinUserTokens ≤ p.user
 context : 0 ≤ p.context ∧ p.context ≤ input.contextTokens
 turn : TurnAt input p.keepFrom
 contextLimit : (p.contextTokenLimit = -1 ∧ p.context = input.contextTokens) ∨ p.contextTokenLimit = p.context
 userLimit : (p.userTokenLimit = -1 ∧ p.user = input.userTokens) ∨ p.userTokenLimit = p.user

section Stages

variable {input : PromptBudgetInput} {p : Parts}

theorem sound_start (h : Counts input) : Sound input input.startParts where
 reply := max_le h.reply (min_le_left _ _)
 user := (max_eq_right h.user).le
 minUser := by
  rw [PromptBudgetInput.startParts, max_eq_right h.user]
  exact min_le_left _ _
 context := ⟨le_max_left _ _, (max_eq_right h.context).le⟩
 turn := .inl rfl
 contextLimit := .inl ⟨rfl, max_eq_right h.context⟩
 userLimit := .inl ⟨rfl, max_eq_right h.user⟩

theorem Sound.dropTurns (h : Sound input p) (mayDrop : ℤ → Bool) (fuel : ℕ) : Sound input (p.dropTurns input mayDrop fuel) := by
 induction fuel generalizing p with
 | zero => exact h
 | succ fuel ih =>
  rw [Parts.dropTurns]
  split_ifs with hdrop
  · exact ih { h with turn := turnAt_nextTurn hdrop.2.1 }
  · exact h

theorem Sound.cutContext (h : Sound input p) : Sound input (p.cutContext input) := by
 rw [Parts.cutContext]
 split_ifs with hover
 · have hcontext := h.context
   have hleast : 0 ≤ kMinUsefulContextTokens := by decide
   dsimp only
   refine { h with context := ?_, contextLimit := .inr rfl }
   split_ifs with hroom
   · change 0 ≤ p.promptAvail input - (p.promptCost input - p.context) ∧ p.promptAvail input - (p.promptCost input - p.context) ≤ _
     omega
   · change 0 ≤ 0 ∧ 0 ≤ _
     omega
 · exact h

theorem Sound.borrowReply (h : Sound input p) : Sound input (p.borrowReply input) := by
 rw [Parts.borrowReply]
 split_ifs with hover
 · have := h.reply
   exact { h with reply := by dsimp only; omega }
 · exact h

theorem Sound.cutUser (h : Sound input p) : Sound input (p.cutUser input) := by
 rw [Parts.cutUser]
 split_ifs with hover
 · have huser := h.user
   have hleast := h.minUser
   exact { h with
    user := by dsimp only; omega
    minUser := by dsimp only; omega
    userLimit := .inr rfl }
 · exact h

theorem Sound.giveUpReply (h : Sound input p) : Sound input (p.giveUpReply input) := by
 rw [Parts.giveUpReply]
 split_ifs with hover
 · have := h.reply
   exact { h with reply := by dsimp only; omega }
 · exact h

theorem over_giveUpReply (p : Parts) : (p.giveUpReply input).over_ input ≤ 0 := by
 rw [Parts.giveUpReply]
 split_ifs with hover
 · simp only [Parts.over_, Parts.promptCost, Parts.promptAvail] at *
   omega
 · exact not_lt.mp hover

end Stages

/-! ## The plan -/

section Plan

variable {input : PromptBudgetInput}

theorem sound_partsLeft (h : Counts input) : Sound input input.partsLeft := by
 have hcut := ((sound_start h).dropTurns (fun held => input.historyFloor < held) input.historyTokens.length).cutContext
 exact (hcut.dropTurns (fun _ => true) input.historyTokens.length).borrowReply.cutUser.giveUpReply

theorem suffix_eq (h : Counts input) (i : ℕ) : input.suffix i =
  (input.historyTokens.drop i).sum + (input.historyTokens.drop i).length * input.perMessageOverhead := by
 have hsum : ∀ held : List ℤ, (∀ tokens ∈ held, 0 ≤ tokens) →
   (held.map fun tokens => max 0 tokens + input.perMessageOverhead).sum = held.sum + held.length * input.perMessageOverhead := by
  intro held hheld
  induction held with
  | nil => simp
  | cons tokens held ih =>
   obtain ⟨htokens, hheld⟩ := List.forall_mem_cons.mp hheld
   rw [List.map_cons, List.sum_cons, List.sum_cons, ih hheld, max_eq_right htokens, List.length_cons]
   push_cast
   ring
 exact hsum _ fun tokens htokens => h.history tokens (List.mem_of_mem_drop htokens)

theorem keptContext_eq (h : Sound input input.partsLeft) : input.keptContext input.planPromptBudget = input.partsLeft.context := by
 have hcontext := h.context
 rw [PromptBudgetInput.keptContext]
 change (if input.partsLeft.contextTokenLimit = -1 then input.contextTokens else input.partsLeft.contextTokenLimit) = _
 rcases h.contextLimit with ⟨hlimit, hall⟩ | hlimit
 · rw [if_pos hlimit, hall]
 · rw [if_neg (by omega), hlimit]

theorem keptUser_eq (h : Sound input input.partsLeft) (hcounts : Counts input) :
  input.keptUser input.planPromptBudget = input.partsLeft.user := by
 have hleast := h.minUser
 have huser := hcounts.user
 have hpositive : 0 ≤ kMinUserTokens := by decide
 rw [PromptBudgetInput.keptUser]
 change (if input.partsLeft.userTokenLimit = -1 then input.userTokens else input.partsLeft.userTokenLimit) = _
 rcases h.userLimit with ⟨hlimit, hall⟩ | hlimit
 · rw [if_pos hlimit, hall]
 · rw [if_neg (by omega), hlimit]

end Plan

/-- A plan that fits leaves room for the reply; no part gets more than was given, the user's turn keeps its least, and no turn loses only its
start. -/
theorem planPromptBudget_sound (input : PromptBudgetInput) (h : Counts input) :
  let plan := input.planPromptBudget
  (plan.fits = true →
   input.systemTokens + input.keptContext plan + (input.keptHistory plan).sum + input.keptUser plan +
    ((input.keptHistory plan).length + 2) * input.perMessageOverhead + plan.replyTokens ≤ max 0 (input.nCtx - input.safetyMargin)) ∧
  plan.contextTokenLimit ≤ input.contextTokens ∧ plan.userTokenLimit ≤ input.userTokens ∧ plan.replyTokens ≤ input.replyReserve ∧
  min input.userTokens 32 ≤ input.keptUser plan ∧ TurnAt input plan.historyKeepFrom := by
 have hleft := sound_partsLeft h
 have hcontext := h.context
 have huser := h.user
 dsimp only
 rw [keptContext_eq hleft, keptUser_eq hleft h]
 refine ⟨fun hfits => ?_, ?_, ?_, max_le h.reply hleft.reply, hleft.minUser, hleft.turn⟩
 · have hover : input.partsLeft.over_ input ≤ 0 := over_giveUpReply _
   have hreply : kMinReplyTokens ≤ input.partsLeft.reply := of_decide_eq_true hfits
   have hpositive : 0 ≤ kMinReplyTokens := by decide
   have htokens : input.planPromptBudget.replyTokens = input.partsLeft.reply := max_eq_right (hpositive.trans hreply)
   have hsystem : input.systemCost = input.systemTokens + input.perMessageOverhead := by
    rw [PromptBudgetInput.systemCost, max_eq_right h.system]
   rw [Parts.over_, Parts.promptCost, Parts.promptAvail, suffix_eq h, hsystem, PromptBudgetInput.avail] at hover
   rw [htokens]
   change _ + _ + (input.historyTokens.drop input.partsLeft.keepFrom).sum + _ +
    ((input.historyTokens.drop input.partsLeft.keepFrom).length + 2) * _ + _ ≤ _
   rw [add_mul]
   omega
 · rcases hleft.contextLimit with ⟨hlimit, -⟩ | hlimit
   · change input.partsLeft.contextTokenLimit ≤ _
     omega
   · exact hlimit.trans_le hleft.context.2
 · rcases hleft.userLimit with ⟨hlimit, -⟩ | hlimit
   · change input.partsLeft.userTokenLimit ≤ _
     omega
   · exact hlimit.trans_le hleft.user

def cutInput : PromptBudgetInput :=
 { nCtx := 2048, replyReserve := 512, systemTokens := 300, userTokens := 100, contextTokens := 4000,
   historyTokens := [200, 300, 50, 60], historyStartsTurn := [true, false, true, false], perMessageOverhead := 4 }

theorem planPromptBudget_sound_cut : cutInput.planPromptBudget.fits = true ∧
  cutInput.systemTokens + cutInput.keptContext cutInput.planPromptBudget + (cutInput.keptHistory cutInput.planPromptBudget).sum +
    cutInput.keptUser cutInput.planPromptBudget +
    ((cutInput.keptHistory cutInput.planPromptBudget).length + 2) * cutInput.perMessageOverhead +
    cutInput.planPromptBudget.replyTokens ≤ max 0 (cutInput.nCtx - cutInput.safetyMargin) := by
 have hfits : cutInput.planPromptBudget.fits = true := by decide
 have hcounts : Counts cutInput := ⟨by decide, by decide, by decide, by decide, by decide, by decide⟩
 exact ⟨hfits, (planPromptBudget_sound cutInput hcounts).1 hfits⟩

end MoltBrowser.ContextBudget
