import MoltBrowser.ContextBudget
import Mathlib.Algebra.Order.BigOperators.Group.List

set_option autoImplicit false

/-!
# When a prompt is refused

A prompt is refused where too little is left for the reply. That may be so with room to spare: a reply that was asked to be short is held to
the same least as any other.
-/
namespace MoltBrowser.ContextBudget

namespace PromptBudgetInput

variable (input : PromptBudgetInput)

def leastCost : ℤ := input.systemTokens + min input.userTokens kMinUserTokens + 2 * input.perMessageOverhead

def leastReply : ℤ := min input.replyReserve kMinReplyTokens

def RefusedOnlyWhenFull : Prop :=
 input.planPromptBudget.fits = false → input.nCtx - input.safetyMargin < input.leastCost + input.leastReply

end PromptBudgetInput

/-! ## Before the reply is touched -/

section Dropping

variable {input : PromptBudgetInput} {p : Parts}

theorem le_toTurn (fuel i : ℕ) : i ≤ input.toTurn fuel i := by
 induction fuel generalizing i with
 | zero => exact le_rfl
 | succ fuel ih =>
  rw [PromptBudgetInput.toTurn]
  split_ifs with hnext
  · exact (Nat.le_succ i).trans (ih (i + 1))
  · exact le_rfl

theorem dropTurns_same (input : PromptBudgetInput) (mayDrop : ℤ → Bool) (fuel : ℕ) (p : Parts) :
  (p.dropTurns input mayDrop fuel).reply = p.reply ∧ (p.dropTurns input mayDrop fuel).user = p.user ∧
   (p.dropTurns input mayDrop fuel).context = p.context := by
 induction fuel generalizing p with
 | zero => exact ⟨rfl, rfl, rfl⟩
 | succ fuel ih =>
  rw [Parts.dropTurns]
  split_ifs with hdrop
  · exact ih { p with keepFrom := input.nextTurn p.keepFrom }
  · exact ⟨rfl, rfl, rfl⟩

theorem dropTurns_all (input : PromptBudgetInput) (fuel : ℕ) (p : Parts) (hfuel : input.historyTokens.length ≤ p.keepFrom + fuel) :
  (p.dropTurns input (fun _ => true) fuel).over_ input ≤ 0 ∨
   input.historyTokens.length ≤ (p.dropTurns input (fun _ => true) fuel).keepFrom := by
 induction fuel generalizing p with
 | zero => exact .inr hfuel
 | succ fuel ih =>
  rw [Parts.dropTurns]
  split_ifs with hdrop
  · have hnext : p.keepFrom + 1 ≤ input.nextTurn p.keepFrom := le_toTurn _ _
    refine ih { p with keepFrom := input.nextTurn p.keepFrom } ?_
    dsimp only
    omega
  · by_cases hover : p.promptCost input > p.promptAvail input
    · exact .inr (not_lt.mp fun hlt => hdrop ⟨hover, hlt, rfl⟩)
    · exact .inl (by
       rw [Parts.over_]
       omega)

theorem dropTurns_of_fits (mayDrop : ℤ → Bool) (fuel : ℕ) (h : p.over_ input ≤ 0) : p.dropTurns input mayDrop fuel = p := by
 have hcost : ¬ p.promptCost input > p.promptAvail input := by
  rw [Parts.over_] at h
  omega
 cases fuel with
 | zero => rfl
 | succ fuel => rw [Parts.dropTurns, if_neg fun hdrop => hcost hdrop.1]

theorem cutContext_same (input : PromptBudgetInput) (p : Parts) : (p.cutContext input).reply = p.reply ∧ (p.cutContext input).user = p.user := by
 rw [Parts.cutContext]
 split_ifs <;> exact ⟨rfl, rfl⟩

theorem cutContext_over (input : PromptBudgetInput) (hcontext : 0 ≤ p.context) : (p.cutContext input).over_ input ≤ 0 ∨ (p.cutContext input).context = 0 := by
 rw [Parts.cutContext]
 split_ifs with hover
 · dsimp only
   split_ifs with hroom
   · refine .inl ?_
     simp only [Parts.over_, Parts.promptCost, Parts.promptAvail]
     omega
   · exact .inr rfl
 · by_cases hcost : p.promptCost input > p.promptAvail input
   · exact .inr (le_antisymm (not_lt.mp fun hpos => hover ⟨hcost, hpos⟩) hcontext)
   · exact .inl (by
      rw [Parts.over_]
      omega)

theorem suffix_nonneg (h : Counts input) (i : ℕ) : 0 ≤ input.suffix i := by
 refine List.sum_nonneg fun cost hcost => ?_
 obtain ⟨tokens, -, rfl⟩ := List.mem_map.mp hcost
 exact add_nonneg (le_max_left _ _) h.overhead

theorem suffix_end {i : ℕ} (h : input.historyTokens.length ≤ i) : input.suffix i = 0 := by
 rw [PromptBudgetInput.suffix, List.drop_eq_nil_of_le h]
 rfl

end Dropping

/-! ## The reply that is left -/

def PromptBudgetInput.partsDropped (input : PromptBudgetInput) : Parts :=
 let turns := input.historyTokens.length
 let p := input.startParts.dropTurns input (fun held => input.historyFloor < held) turns
 (p.cutContext input).dropTurns input (fun _ => true) turns

section Reply

variable {input : PromptBudgetInput}

structure Dropped (input : PromptBudgetInput) (p : Parts) : Prop where
 reply : p.reply = max 0 (min input.replyReserve (input.avail / 2))
 user : p.user = input.userTokens
 /-- Neither context nor history takes anything back. -/
 cost : input.systemTokens + p.user + 2 * input.perMessageOverhead ≤ p.promptCost input
 /-- Where there is too much, it is without context and history. -/
 over_ : p.over_ input ≤ 0 ∨ p.promptCost input = input.systemTokens + p.user + 2 * input.perMessageOverhead

theorem dropped_partsDropped (h : Counts input) : Dropped input input.partsDropped := by
 set p := input.startParts.dropTurns input (fun held => input.historyFloor < held) input.historyTokens.length with hp
 obtain ⟨hreply, huser, hcontext⟩ := dropTurns_same input (fun held => input.historyFloor < held) input.historyTokens.length
  input.startParts
 obtain ⟨hreply', huser'⟩ := cutContext_same input p
 obtain ⟨hreply'', huser'', hcontext''⟩ := dropTurns_same input (fun _ => true) input.historyTokens.length (p.cutContext input)
 have hsystem : input.systemCost = input.systemTokens + input.perMessageOverhead := by
  rw [PromptBudgetInput.systemCost, max_eq_right h.system]
 have hall : input.partsDropped = (p.cutContext input).dropTurns input (fun _ => true) input.historyTokens.length := rfl
 have hsuffix := suffix_nonneg h input.partsDropped.keepFrom
 have hstart : 0 ≤ p.context := by
  rw [hcontext]
  exact le_max_left _ _
 have hkept : 0 ≤ (p.cutContext input).context := by
  have hsound := ((sound_start h).dropTurns (fun held => input.historyFloor < held) input.historyTokens.length).cutContext
  exact hsound.context.1
 refine ⟨?_, ?_, ?_, ?_⟩
 · rw [hall, hreply'', hreply', hreply, PromptBudgetInput.startParts]
 · rw [hall, huser'', huser', huser, PromptBudgetInput.startParts, max_eq_right h.user]
 · rw [← hcontext'', ← hall] at hkept
   rw [Parts.promptCost, hsystem]
   omega
 · rcases cutContext_over input hstart with hfits | hnone
   · exact .inl (by rwa [hall, dropTurns_of_fits _ _ hfits])
   · rcases dropTurns_all input input.historyTokens.length (p.cutContext input) (by omega) with hfits | hend
     · exact .inl hfits
     · rw [← hall] at hend hcontext''
       refine .inr ?_
       rw [Parts.promptCost, hcontext'', hnone, suffix_end hend, hsystem]
       ring

theorem borrowReply_left (input : PromptBudgetInput) (p : Parts) : ∃ b, b = (if 0 < p.over_ input then min (p.over_ input) (p.reply - min p.reply 256) else 0) ∧
  (p.borrowReply input).reply = p.reply - b ∧ (p.borrowReply input).user = p.user ∧ (p.borrowReply input).over_ input = p.over_ input - b := by
 refine ⟨_, rfl, ?_⟩
 rw [Parts.borrowReply]
 split_ifs with hover
 · refine ⟨rfl, rfl, ?_⟩
   simp only [Parts.over_, Parts.promptCost, Parts.promptAvail, kReplyFloorTokens]
   ring
 · exact ⟨(sub_zero _).symm, rfl, (sub_zero _).symm⟩

theorem cutUser_left (input : PromptBudgetInput) (p : Parts) : ∃ c, c = (if 0 < p.over_ input ∧ 0 < p.user then min (p.over_ input) (p.user - min p.user 32) else 0) ∧
  (p.cutUser input).reply = p.reply ∧ (p.cutUser input).over_ input = p.over_ input - c := by
 refine ⟨_, rfl, ?_⟩
 rw [Parts.cutUser]
 split_ifs with hover
 · refine ⟨rfl, ?_⟩
   simp only [Parts.over_, Parts.promptCost, Parts.promptAvail, kMinUserTokens]
   ring
 · exact ⟨rfl, (sub_zero _).symm⟩

theorem giveUpReply_left (p : Parts) : (p.giveUpReply input).reply = p.reply - max 0 (p.over_ input) := by
 rw [Parts.giveUpReply]
 split_ifs with hover
 · rw [max_eq_right hover.le]
 · rw [max_eq_left (not_lt.mp hover), sub_zero]

/-- What a reply of at least 16 tokens needs: that many asked for, in at least half the window, and room beside the least of the prompt. -/
theorem fits_iff (h : Counts input) : input.planPromptBudget.fits = true ↔
  16 ≤ input.replyReserve ∧ 32 ≤ input.avail ∧ input.leastCost + 16 ≤ input.avail := by
 have hdropped := dropped_partsDropped h
 have hleft : input.partsLeft = ((input.partsDropped.borrowReply input).cutUser input).giveUpReply input := rfl
 have hfits : input.planPromptBudget.fits = true ↔ 16 ≤ input.partsLeft.reply := by
  rw [PromptBudgetInput.planPromptBudget, kMinReplyTokens, decide_eq_true_eq]
 obtain ⟨hreply, huser, hcost, hover⟩ := hdropped
 have hnonneg := h.user
 rw [hfits, hleft, PromptBudgetInput.leastCost, kMinUserTokens]
 obtain ⟨b, hb, hreply', huser', hover'⟩ := borrowReply_left input input.partsDropped
 obtain ⟨c, hc, hreply'', hover''⟩ := cutUser_left input (input.partsDropped.borrowReply input)
 rw [giveUpReply_left, hreply'', hreply', hover'', hover']
 rw [hover', huser', huser] at hc
 rw [huser] at hcost hover
 have hmeaning : input.partsDropped.over_ input = input.partsDropped.promptCost input - (input.avail - input.partsDropped.reply) := rfl
 have havail : 0 ≤ input.avail := le_max_left _ _
 split_ifs at hb hc <;> omega

end Reply

namespace PromptBudgetInput

/-- The window leaves 32 tokens and at least 16 are asked for, or there is nothing that could be promised. -/
theorem refusedOnlyWhenFull_iff (input : PromptBudgetInput) (h : Counts input) : input.RefusedOnlyWhenFull ↔
  (16 ≤ input.replyReserve ∧ 32 ≤ input.nCtx - input.safetyMargin) ∨ input.nCtx - input.safetyMargin < input.leastCost + input.leastReply := by
 have hfits := fits_iff h
 have hreply := h.reply
 have hcost : 0 ≤ input.leastCost := by
  have := h.system
  have := h.user
  have := h.overhead
  rw [leastCost, kMinUserTokens]
  omega
 rw [RefusedOnlyWhenFull, ← Bool.not_eq_true, hfits, avail, leastReply, kMinReplyTokens]
 omega

end PromptBudgetInput

def shortInput : PromptBudgetInput := { nCtx := 4096, replyReserve := 8, systemTokens := 100, userTokens := 10 }

theorem short_reply_refused : ¬ ∀ input : PromptBudgetInput, Counts input → input.RefusedOnlyWhenFull := by
 intro hclaim
 have hfull := hclaim shortInput ⟨by decide, by decide, by decide, by decide, by decide, by decide⟩ (by decide)
 exact absurd hfull (by decide)

theorem refusedOnlyWhenFull_long : { shortInput with replyReserve := 512 }.RefusedOnlyWhenFull :=
 (PromptBudgetInput.refusedOnlyWhenFull_iff _ ⟨by decide, by decide, by decide, by decide, by decide, by decide⟩).mpr (.inl (by decide))

end MoltBrowser.ContextBudget
