import Mathlib.Algebra.BigOperators.Group.List.Basic
import Mathlib.Algebra.Order.Ring.Nat
import Mathlib.Tactic.Linarith

set_option autoImplicit false

/-!
# Connections taken from one site for another

While the budget is full, a waiting site gets an idle connection of a site that uses more than one more. The sum of the squares of what the
sites use measures how far a chain of this can go.
-/
namespace MoltBrowser.ConnectionPreemption
open List

/-- Whose idle connections may be closed for the waiting site, in the order to try them. -/
def moltPreemptionOrder (inUse : List ℕ) (waiterInUse : ℕ) : List ℕ :=
 let order := (List.range inUse.length).filter fun i => inUse.getD i 0 > waiterInUse + 1
 order.mergeSort fun a b => inUse.getD b 0 ≤ inUse.getD a 0

structure Preemption where
 victim : ℕ
 waiter : ℕ

def preempt (inUse : List ℕ) (p : Preemption) : List ℕ := (inUse.modify p.victim (· - 1)).modify p.waiter (· + 1)

def Preempts (inUse : List ℕ) (p : Preemption) : Prop :=
 p.waiter < inUse.length ∧ p.victim ∈ moltPreemptionOrder inUse (inUse.getD p.waiter 0)

inductive Chain : List ℕ → List Preemption → List ℕ → Prop where
 | done (inUse : List ℕ) : Chain inUse [] inUse
 | step {inUse last : List ℕ} {p : Preemption} {later : List Preemption} (hfirst : Preempts inUse p)
   (hlater : Chain (preempt inUse p) later last) : Chain inUse (p :: later) last

def sumOfSquares (inUse : List ℕ) : ℕ := (inUse.map (· ^ 2)).sum

/-! ## One preemption -/

section Step

variable {inUse : List ℕ} {p : Preemption}

theorem mem_moltPreemptionOrder {waiterInUse i : ℕ} :
  i ∈ moltPreemptionOrder inUse waiterInUse ↔ i < inUse.length ∧ waiterInUse + 1 < inUse.getD i 0 := by
 rw [moltPreemptionOrder, mem_mergeSort, mem_filter, mem_range, decide_eq_true_eq]

theorem preempts_iff : Preempts inUse p ↔
  p.waiter < inUse.length ∧ p.victim < inUse.length ∧ inUse.getD p.waiter 0 + 1 < inUse.getD p.victim 0 := by
 rw [Preempts, mem_moltPreemptionOrder]

theorem getD_modify (inUse : List ℕ) (f : ℕ → ℕ) {i : ℕ} (hi : i < inUse.length) (j : ℕ) :
  (inUse.modify i f).getD j 0 = if i = j then f (inUse.getD j 0) else inUse.getD j 0 := by
 rw [getD_eq_getElem?_getD, getD_eq_getElem?_getD, getElem?_modify]
 split_ifs with heq
 · subst heq
   rw [getElem?_eq_getElem hi]
   rfl
 · simp

theorem sumOfSquares_modify (inUse : List ℕ) (f : ℕ → ℕ) {i : ℕ} (hi : i < inUse.length) :
  sumOfSquares (inUse.modify i f) + inUse.getD i 0 ^ 2 = sumOfSquares inUse + f (inUse.getD i 0) ^ 2 := by
 induction inUse generalizing i with
 | nil => exact absurd hi (Nat.not_lt_zero i)
 | cons n inUse ih =>
  cases i with
  | zero =>
   simp only [sumOfSquares, modify_zero_cons, map_cons, sum_cons, getD_cons_zero]
   omega
  | succ i =>
   have hrest := ih (Nat.lt_of_succ_lt_succ hi)
   simp only [sumOfSquares, modify_succ_cons, map_cons, sum_cons, getD_cons_succ] at hrest ⊢
   omega

theorem getD_preempt (h : Preempts inUse p) (i : ℕ) : (preempt inUse p).getD i 0 =
  if p.waiter = i then inUse.getD i 0 + 1 else if p.victim = i then inUse.getD i 0 - 1 else inUse.getD i 0 := by
 obtain ⟨hwaiter, hvictim, hmore⟩ := preempts_iff.mp h
 have hne : p.victim ≠ p.waiter := fun heq => by
  rw [heq] at hmore
  omega
 rw [preempt, getD_modify _ _ (by simpa using hwaiter), getD_modify _ _ hvictim]
 split_ifs with hw hv
 · exact absurd (hv.trans hw.symm) hne
 · rfl
 · rfl
 · rfl

/-- Moving one from the larger number to the smaller takes twice what they differ by, less two, off the squares. -/
theorem sumOfSquares_preempt (h : Preempts inUse p) : sumOfSquares (preempt inUse p) + 2 ≤ sumOfSquares inUse := by
 obtain ⟨hwaiter, hvictim, hmore⟩ := preempts_iff.mp h
 have hne : p.victim ≠ p.waiter := fun heq => by
  rw [heq] at hmore
  omega
 have hclosed := sumOfSquares_modify inUse (· - 1) hvictim
 have hgranted := sumOfSquares_modify (inUse.modify p.victim (· - 1)) (· + 1) (i := p.waiter) (by simpa using hwaiter)
 rw [getD_modify _ _ hvictim, if_neg hne] at hgranted
 rw [preempt]
 generalize inUse.getD p.waiter 0 = w at hmore hgranted
 generalize inUse.getD p.victim 0 = v at hmore hclosed
 obtain ⟨d, rfl⟩ := Nat.exists_eq_add_of_lt hmore
 have hless : w + 1 + d + 1 - 1 = w + 1 + d := rfl
 rw [hless] at hclosed
 nlinarith

theorem preempt_fair (h : Preempts inUse p) : (preempt inUse p).getD p.waiter 0 ≤ (preempt inUse p).getD p.victim 0 := by
 obtain ⟨-, -, hmore⟩ := preempts_iff.mp h
 have hne : p.waiter ≠ p.victim := fun heq => by
  rw [heq] at hmore
  omega
 rw [getD_preempt h, getD_preempt h, if_pos rfl, if_neg hne, if_pos rfl]
 omega

end Step

/-! ## Chains -/

section Chains

variable {inUse last : List ℕ} {v w : ℕ}

theorem Chain.length_le {chain : List Preemption} (h : Chain inUse chain last) : sumOfSquares last + 2 * chain.length ≤ sumOfSquares inUse := by
 induction h with
 | done => exact le_rfl
 | step hfirst _ ih =>
  have := sumOfSquares_preempt hfirst
  rw [length_cons]
  omega

/-- A third site takes a connection from the first, or the second takes one from a third. -/
def Helps (v w : ℕ) (p : Preemption) : Prop := (p.victim = v ∧ p.waiter ≠ w) ∨ (p.waiter = w ∧ p.victim ≠ v)

theorem le_preempt {p : Preemption} (h : Preempts inUse p) (hle : inUse.getD w 0 ≤ inUse.getD v 0) (hhelps : ¬Helps v w p) :
  (preempt inUse p).getD w 0 ≤ (preempt inUse p).getD v 0 := by
 by_cases hsame : p.victim = v ∧ p.waiter = w
 · obtain ⟨rfl, rfl⟩ := hsame
   exact preempt_fair h
 · have hvictim : p.victim ≠ v := fun heq => hhelps (.inl ⟨heq, fun hw => hsame ⟨heq, hw⟩⟩)
   have hwaiter : p.waiter ≠ w := fun heq => hhelps (.inr ⟨heq, hvictim⟩)
   rw [getD_preempt h, getD_preempt h, if_neg hwaiter, if_neg hvictim]
   split_ifs <;> omega

theorem Chain.not_back {between : List Preemption} (h : Chain inUse (between ++ [⟨w, v⟩]) last) (hle : inUse.getD w 0 ≤ inUse.getD v 0) :
  ∃ p ∈ between, Helps v w p := by
 induction between generalizing inUse with
 | nil =>
  cases h with
  | step hfirst _ =>
   obtain ⟨-, -, hmore⟩ := preempts_iff.mp hfirst
   dsimp only at hmore
   omega
 | cons p between ih =>
  cases h with
  | step hfirst hlater =>
   by_cases hhelps : Helps v w p
   · exact ⟨p, mem_cons_self, hhelps⟩
   · obtain ⟨q, hq, hhelps⟩ := ih hlater (le_preempt hfirst hle hhelps)
     exact ⟨q, mem_cons_of_mem p hq, hhelps⟩

end Chains

/-- Each preemption takes off the squares and leaves the victim at least as many as the waiter, chains end, and a connection goes back to the
site that lost it only after that site lost one to a third or the other took one from a third. -/
theorem preemption_settles (inUse : List ℕ) :
  (∀ p, Preempts inUse p → sumOfSquares (preempt inUse p) < sumOfSquares inUse ∧
   (preempt inUse p).getD p.waiter 0 ≤ (preempt inUse p).getD p.victim 0) ∧
  (∀ chain last, Chain inUse chain last → 2 * chain.length ≤ sumOfSquares inUse) ∧
  ∀ v w between last, Chain inUse (⟨v, w⟩ :: between ++ [⟨w, v⟩]) last → ∃ p ∈ between, Helps v w p := by
 refine ⟨fun p hp => ⟨?_, preempt_fair hp⟩, fun chain last hchain => ?_, fun v w between last hchain => ?_⟩
 · have := sumOfSquares_preempt hp
   omega
 · have := hchain.length_le
   omega
 · cases hchain with
   | step hfirst hlater => exact hlater.not_back (preempt_fair hfirst)

/-- The second site takes a connection from the first, which then loses two to a third, and takes one back. -/
theorem preempted_back_and_forth : ¬ ∀ (inUse last : List ℕ) (between : List Preemption) (v w : ℕ),
  ¬Chain inUse (⟨v, w⟩ :: between ++ [⟨w, v⟩]) last := by
 intro hclaim
 refine hclaim [5, 3, 0] [3, 3, 2] [⟨0, 2⟩, ⟨0, 2⟩] 0 1 ?_
 refine .step (preempts_iff.mpr (by decide)) (.step (preempts_iff.mpr (by decide)) ?_)
 exact .step (preempts_iff.mpr (by decide)) (.step (preempts_iff.mpr (by decide)) (.done _))

end MoltBrowser.ConnectionPreemption
