import MoltBrowser.AutomationRunner

set_option autoImplicit false

/-!
# Retries of a failed step

The delay before each retry is computed from the runner's counter, in an `int`,
and bounded after the multiplication.
-/
namespace MoltBrowser.AutomationRunner
open AutomationScript

variable {σ : Type} {env : Env σ} {t : Tick} {p : Placed} {r r' : Runner σ}

/-! ## The delay -/

def inInt (n : ℤ) : Prop := -2 ^ 31 ≤ n ∧ n < 2 ^ 31

instance (n : ℤ) : Decidable (inInt n) := inferInstanceAs (Decidable (_ ∧ _))

/-- `1 << n` of an `int`, none where the shift is too long. -/
def oneShifted (n : ℕ) : Option ℤ :=
 if n < 31 then some (2 ^ n) else if n = 31 then some (-2 ^ 31) else none

/-- `OnStepFinished`'s `backoff_ms` for the retry that the counter stands at, none where its
computation overflows. -/
def backoffMs (stepAttempt : ℕ) : Option ℤ :=
 match oneShifted (stepAttempt - 1) with
 | none => none
 | some shifted =>
  let backoff := 250 * shifted
  if inInt backoff then some (if 5000 < backoff then 5000 else backoff) else none

def kBackoffRetries : ℕ := 24

theorem backoffMs_of_lt {n : ℕ} (h : kBackoffRetries < n) : backoffMs n = none := by
 rw [backoffMs, oneShifted]
 rw [kBackoffRetries] at h
 by_cases hlt : n - 1 < 31
 · rw [if_pos hlt]
   have hpow : (2 : ℤ) ^ 24 ≤ 2 ^ (n - 1) := pow_le_pow_right₀ (by norm_num) (by omega)
   exact if_neg fun hint => absurd hint.2 (by omega)
 · rw [if_neg hlt]
   split_ifs with heq
   · exact if_neg (by decide)
   · rfl

theorem backoffMs_of_le {n : ℕ} (hpos : 1 ≤ n) (h : n ≤ kBackoffRetries) :
  ∃ ms, backoffMs n = some ms ∧ 250 ≤ ms ∧ ms ≤ 5000 ∧ ms = min 5000 (250 * 2 ^ (n - 1)) := by
 rw [kBackoffRetries] at h
 have hlow : (2 : ℤ) ^ 0 ≤ 2 ^ (n - 1) := pow_le_pow_right₀ (by norm_num) (Nat.zero_le _)
 have hhigh : (2 : ℤ) ^ (n - 1) ≤ 2 ^ 23 := pow_le_pow_right₀ (by norm_num) (by omega)
 have hint : inInt (250 * 2 ^ (n - 1)) := ⟨by omega, by omega⟩
 rw [backoffMs, oneShifted, if_pos (by omega)]
 dsimp only
 rw [if_pos hint]
 refine ⟨_, rfl, ?_⟩
 generalize (2 : ℤ) ^ (n - 1) = shifted at *
 split_ifs <;> omega

/-! ## A visit to a step -/

/-- The dispatch of `p` ends in a failure of the step, with the counter as it was. -/
def Fails (env : Env σ) (t : Tick) (p : Placed) (r : Runner σ) : Prop :=
 dispatched t r = some p ∧ ∃ note foundBy r₁,
  executeNextStep env t r = onStepFinished env t p.step false note foundBy r₁ ∧
  r₁.isRunning = true ∧ r₁.stepAttempt = r.stepAttempt

/-- Failures of `p`, one dispatch after the other. -/
def FailingVisit (env : Env σ) (p : Placed) : Runner σ → List Tick → Prop
 | _, [] => True
 | r, t :: ticks => Fails env t p r ∧ FailingVisit env p (executeNextStep env t r) ticks

/-- The delays of the retries scheduled after them: the run goes on with a retry, or ends. -/
def retryDelays (env : Env σ) : Runner σ → List Tick → List (Option ℤ)
 | _, [] => []
 | r, t :: ticks =>
  let r' := executeNextStep env t r
  if r'.isRunning then backoffMs r'.stepAttempt :: retryDelays env r' ticks else []

theorem Fails.step (h : Fails env t p r) :
  if (r.stepAttempt : ℤ) < effectiveRetries p.step then
   (executeNextStep env t r).isRunning = true ∧
    (executeNextStep env t r).stepAttempt = r.stepAttempt + 1
  else (executeNextStep env t r).isRunning = false := by
 obtain ⟨-, note, foundBy, r₁, heq, hrun, hattempt⟩ := h
 rw [heq, onStepFinished, if_neg Bool.false_ne_true, ← hattempt]
 split_ifs with hretry
 · exact ⟨hrun, rfl⟩
 · rfl

def retriesLeft (s : Step) (stepAttempt : ℕ) : ℕ := (effectiveRetries s - stepAttempt).toNat

theorem retryDelays_eq {ticks : List Tick} (h : FailingVisit env p r ticks) :
  ticks.length ≤ retriesLeft p.step r.stepAttempt + 1 ∧
   retryDelays env r ticks =
    (List.range (min ticks.length (retriesLeft p.step r.stepAttempt))).map
     fun i => backoffMs (r.stepAttempt + i + 1) := by
 induction ticks generalizing r with
 | nil => simp [retryDelays]
 | cons t ticks ih =>
  obtain ⟨hfails, hrest⟩ := h
  have hstep := hfails.step
  split_ifs at hstep with hretry
  · obtain ⟨hrun, hattempt⟩ := hstep
    obtain ⟨hlen, heq⟩ := ih hrest
    rw [hattempt] at hlen heq
    have hleft : retriesLeft p.step r.stepAttempt =
      retriesLeft p.step (r.stepAttempt + 1) + 1 := by
     simp only [retriesLeft, Nat.cast_add, Nat.cast_one]
     omega
    have hmin : ∀ m n : ℕ, min (m + 1) (n + 1) = min m n + 1 := fun m n => by omega
    rw [hleft, List.length_cons, hmin, List.range_succ_eq_map, List.map_cons, List.map_map,
     retryDelays]
    refine ⟨by omega, ?_⟩
    rw [if_pos hrun, hattempt, heq]
    refine congrArg (_ :: ·) (List.map_congr_left fun i _ => ?_)
    rw [Function.comp_apply, Nat.succ_eq_add_one]
    congr 1
    omega
  · have hnil : ticks = [] := by
     cases ticks with
     | nil => rfl
     | cons t' ticks =>
      have hover := hrest.1.1
      rw [dispatched, if_neg fun hgo => by rw [hstep] at hgo; cases hgo.1] at hover
      cases hover
    have hleft : retriesLeft p.step r.stepAttempt = 0 := by
     rw [retriesLeft]
     omega
    rw [hnil, hleft, retryDelays, retryDelays, if_neg (by rw [hstep]; exact Bool.false_ne_true)]
    exact ⟨le_refl _, rfl⟩

/-- Retries back off within bounds: of `attempts` in one visit, each scheduled after a delay. -/
structure BacksOff (s : Step) (attempts : ℕ) (delays : List (Option ℤ)) : Prop where
 bounded : ∀ delay ∈ delays, ∃ ms, delay = some ms ∧ 250 ≤ ms ∧ ms ≤ 5000
 growing : delays.IsChain fun before after => ∀ b ∈ before, ∀ a ∈ after, b ≤ a
 once : s.type = .callTool → attempts ≤ 1
 attempts : (attempts : ℤ) ≤ 1 + max 0 (effectiveRetries s)

theorem effectiveRetries_callTool {s : Step} (h : s.type = .callTool) : effectiveRetries s = 0 := by
 simp [effectiveRetries, h]

theorem backoffMs_mono {m n : ℕ} (hpos : 1 ≤ m) (hmn : m ≤ n) (h : n ≤ kBackoffRetries) {a b : ℤ}
  (hb : b ∈ backoffMs m) (ha : a ∈ backoffMs n) : b ≤ a := by
 obtain ⟨x, hx, -, -, hx'⟩ := backoffMs_of_le hpos (hmn.trans h)
 obtain ⟨y, hy, -, -, hy'⟩ := backoffMs_of_le (hpos.trans hmn) h
 rw [hx, Option.mem_some] at hb
 rw [hy, Option.mem_some] at ha
 have hpow : (2 : ℤ) ^ (m - 1) ≤ 2 ^ (n - 1) := pow_le_pow_right₀ (by norm_num) (by omega)
 omega

/-- A visit that reaches the 25th retry schedules one after a delay that is no `int`. -/
theorem overflow_of_retries {ticks : List Tick} (hvisit : FailingVisit env p r ticks)
  (hne : ticks ≠ []) (hretries : ↑(max r.stepAttempt kBackoffRetries) < effectiveRetries p.step)
  (hfailures : kBackoffRetries < r.stepAttempt + ticks.length) :
  none ∈ retryDelays env r ticks := by
 obtain ⟨hlen, hdelays⟩ := retryDelays_eq hvisit
 rw [← List.length_pos_iff] at hne
 -- It is the last one.
 obtain ⟨m, hm⟩ : ∃ m, min ticks.length (retriesLeft p.step r.stepAttempt) = m + 1 :=
  ⟨min ticks.length (retriesLeft p.step r.stepAttempt) - 1, by rw [retriesLeft]; omega⟩
 rw [hdelays]
 refine List.mem_map.2 ⟨m, List.mem_range.2 (by omega), backoffMs_of_lt ?_⟩
 rw [retriesLeft] at hm
 omega

/-- The retries of a visit back off within bounds exactly when the counter stays below the 25th. -/
theorem retries_back_off_iff (env : Env σ) (p : Placed) (r : Runner σ) (ticks : List Tick)
  (hvisit : FailingVisit env p r ticks) :
  BacksOff p.step ticks.length (retryDelays env r ticks) ↔
   ticks = [] ∨ effectiveRetries p.step ≤ max r.stepAttempt kBackoffRetries ∨
    r.stepAttempt + ticks.length ≤ kBackoffRetries := by
 constructor
 · intro h
   by_contra hnot
   rw [not_or, not_or] at hnot
   obtain ⟨hne, hretries, hfailures⟩ := hnot
   have hover := overflow_of_retries hvisit hne (not_le.1 hretries) (not_le.1 hfailures)
   obtain ⟨ms, hms, -⟩ := h.bounded none hover
   cases hms
 · intro h
   obtain ⟨hlen, hdelays⟩ := retryDelays_eq hvisit
   rw [hdelays]
   simp only [retriesLeft] at hlen ⊢
   have hlow : ∀ i < min ticks.length (effectiveRetries p.step - r.stepAttempt).toNat,
     r.stepAttempt + i + 1 ≤ kBackoffRetries := by
    intro i hi
    rw [← List.length_eq_zero_iff] at h
    omega
   refine ⟨fun delay hdelay => ?_, ?_, fun htype => ?_, by omega⟩
   · obtain ⟨i, hi, rfl⟩ := List.mem_map.1 hdelay
     obtain ⟨ms, hms, hbounds⟩ := backoffMs_of_le (Nat.le_add_left 1 _) (hlow i (List.mem_range.1 hi))
     exact ⟨ms, hms, hbounds.1, hbounds.2.1⟩
   · refine (List.pairwise_map.2 ?_).isChain
     refine List.pairwise_lt_range.imp_of_mem fun _ hj hij b hb a ha => ?_
     exact backoffMs_mono (Nat.le_add_left 1 _) (by omega) (hlow _ (List.mem_range.1 hj)) hb ha
   · have hzero := effectiveRetries_callTool htype
     omega

/-! ## A page without the element -/

def missing : Env Unit where
 render := fun _ => []
 navigationHost := fun _ => none
 hasStorage := false
 attempt := fun _ _ vars _ => { ending := .failed, vars := vars, world := () }
 load := fun _ _ => (.timedOut, ())

theorem failingVisit_missing {r : Runner Unit} {n : ℕ} (hp : dispatched {} r = some p)
  (htype : p.step.type = .click) (hif : r.ifStack = [])
  (hretries : r.stepAttempt + n ≤ effectiveRetries p.step + 1) :
  FailingVisit missing p r (List.replicate n {}) := by
 induction n generalizing r with
 | zero => trivial
 | succ n ih =>
  have hrun : r.isRunning = true := by
   rw [dispatched] at hp
   split_ifs at hp with hgo
   exact hgo.1
  have hnext : executeNextStep missing {} r = onStepFinished missing {} p.step false [] []
    { r with world := (), currentRunTokens := r.currentRunTokens + 0, trace := r.trace ++ [p] } := by
   rw [executeNextStep_of_dispatched missing hp]
   simp only [dispatch, perform, htype, hif, shouldExecuteCurrentStep, List.all_nil, ↓reduceIte,
    doAction, missing]
  refine ⟨⟨hp, _, _, _, hnext, hrun, rfl⟩, ?_⟩
  by_cases hlast : n = 0
  · subst hlast
    trivial
  have hretry : (r.stepAttempt : ℤ) < effectiveRetries p.step := by omega
  rw [hnext, onStepFinished, if_neg Bool.false_ne_true, if_pos hretry]
  refine ih hp hif ?_
  show ((r.stepAttempt + 1 : ℕ) : ℤ) + n ≤ effectiveRetries p.step + 1
  omega

def clickFile (retries : Int32) : Dict :=
 [("id", .string "x"), ("steps", .list [.dict [("type", .string "click"), ("retries", .int retries)]])]

def clickScript (retries : Int32) : Script :=
 { id := "x", name := "x", steps := [{ type := .click, retries := retries }] }

theorem fromJSON_clickFile (url : AutomationLocators.UrlLibrary) (retries : Int32) :
  fromJSON url (clickFile retries) = some (clickScript retries) := rfl

def clickRun (retries : Int32) : Runner Unit := run missing {} (clickScript retries) 0 { world := () }

def clickPlaced (retries : Int32) : Placed :=
 ⟨{ type := .click, retries := retries }, clickScript retries, 0⟩

theorem failingVisit_click {retries : Int32} {n : ℕ}
  (hretries : (n : ℤ) ≤ effectiveRetries (clickPlaced retries).step + 1) :
  FailingVisit missing (clickPlaced retries) (clickRun retries) (List.replicate n {}) :=
 failingVisit_missing rfl rfl rfl (by rwa [show (clickRun retries).stepAttempt = 0 from rfl,
  Nat.cast_zero, zero_add])

theorem retries_back_off_two :
  FailingVisit missing (clickPlaced 2) (clickRun 2) (List.replicate 3 {}) ∧
   BacksOff (clickPlaced 2).step (List.replicate 3 ({} : Tick)).length
    (retryDelays missing (clickRun 2) (List.replicate 3 {})) :=
 have hvisit : FailingVisit missing (clickPlaced 2) (clickRun 2) (List.replicate 3 {}) :=
  failingVisit_click (by decide)
 ⟨hvisit, (retries_back_off_iff missing _ _ _ hvisit).2 (.inr (.inl (by decide)))⟩

/-- A file may ask for 25 retries, and a page may need them. -/
theorem retries_overflow :
  ∃ script : Script, fromJSON ⟨fun _ => none⟩ (clickFile 25) = some script ∧
   ∃ p, dispatched {} (run missing {} script 0 { world := () }) = some p ∧
    FailingVisit missing p (run missing {} script 0 { world := () }) (List.replicate 25 {}) ∧
    ¬BacksOff p.step 25
     (retryDelays missing (run missing {} script 0 { world := () }) (List.replicate 25 {})) := by
 have hvisit : FailingVisit missing (clickPlaced 25) (clickRun 25) (List.replicate 25 {}) :=
  failingVisit_click (by decide)
 refine ⟨clickScript 25, fromJSON_clickFile _ 25, clickPlaced 25, rfl, hvisit, fun h => ?_⟩
 have hover : none ∈ retryDelays missing (clickRun 25) (List.replicate 25 {}) :=
  overflow_of_retries hvisit (by decide) (by decide) (by decide)
 obtain ⟨ms, hms, -⟩ := h.bounded none hover
 cases hms

end MoltBrowser.AutomationRunner
