import MoltBrowser.AutomationSchedulerFires

set_option autoImplicit false

/-!
# Cron's next fire time

What the five fields of an expression mean, and when `NextCronFire` finds the
earliest whole minute they all allow. Its loop over a stepped range adds the
step to an `int` once more than the range has values.
-/
namespace MoltBrowser.AutomationScheduler
open AutomationScript FirstError List

/-! ## Stepped ranges -/

/-- `lo`, `lo + step`, and so on up to `hi`. -/
def CronPiece.values (x : CronPiece) : Set ℤ := {v | ∃ k : ℕ, v = x.lo + k * x.step ∧ v ≤ x.hi}

def CronPiece.last (x : CronPiece) : ℤ := x.lo + (x.hi - x.lo) / x.step * x.step

/-- The loop's last addition is no `int`. -/
def CronPiece.Overflows (x : CronPiece) : Prop := 2 ^ 31 ≤ x.last + x.step

instance (x : CronPiece) : Decidable x.Overflows := inferInstanceAs (Decidable (_ ≤ _))

theorem CronPiece.lo_mem (x : CronPiece) : x.lo ∈ x.values :=
 ⟨0, by rw [Nat.cast_zero, zero_mul, add_zero], x.lo_le_hi⟩

theorem cronValues_spec (hi : ℤ) {step : ℤ} (hstep : 0 < step) (fuel : ℕ) (v : ℤ)
  (hfuel : (hi - v + 1).toNat < fuel) (hv : v ≤ hi + step) :
  if v ≤ hi ∧ 2 ^ 31 ≤ v + (hi - v) / step * step + step then
   cronValues hi step fuel v = .error .overflow
  else ∃ vs, cronValues hi step fuel v = .ok vs ∧
   ∀ w, w ∈ vs ↔ ∃ k : ℕ, w = v + k * step ∧ w ≤ hi := by
 induction fuel generalizing v with
 | zero => exact absurd hfuel (Nat.not_lt_zero _)
 | succ fuel ih =>
  rw [cronValues]
  by_cases hle : v ≤ hi
  · rw [if_pos hle]
    have hnext := ih (v + step) (by omega) (by omega)
    have hquot : 0 ≤ (hi - v) / step := Int.ediv_nonneg (by omega) hstep.le
    have hdiv : (hi - (v + step)) / step = (hi - v) / step - 1 := by
     rw [show hi - (v + step) = hi - v + -1 * step by ring, Int.add_mul_ediv_right _ _ hstep.ne']
     ring
    have hlast : v + step + (hi - (v + step)) / step * step = v + (hi - v) / step * step := by
     rw [hdiv]
     ring
    have hmore : v + step ≤ hi ↔ 1 ≤ (hi - v) / step := by
     rw [Int.le_ediv_iff_mul_le hstep]
     constructor <;> intro h <;> linarith
    rw [hlast] at hnext
    by_cases hint : v + step < 2 ^ 31
    · rw [if_pos hint]
      by_cases hover : 2 ^ 31 ≤ v + (hi - v) / step * step + step
      · have hgo : v + step ≤ hi := by
         by_contra hnot
         rw [hmore, not_le] at hnot
         have hzero : (hi - v) / step = 0 := by omega
         rw [hzero, zero_mul, add_zero] at hover
         omega
        rw [if_pos ⟨hgo, hover⟩] at hnext
        rw [if_pos ⟨hle, hover⟩, hnext]
        rfl
      · rw [if_neg fun h => hover h.2] at hnext
        obtain ⟨vs, heq, hvs⟩ := hnext
        rw [if_neg fun h => hover h.2, heq]
        refine ⟨v :: vs, rfl, fun w => ?_⟩
        rw [mem_cons, hvs]
        constructor
        · rintro (rfl | ⟨k, rfl, hw⟩)
          · exact ⟨0, by rw [Nat.cast_zero, zero_mul, add_zero], hle⟩
          · exact ⟨k + 1, by push_cast; ring, hw⟩
        · rintro ⟨k, rfl, hw⟩
          cases k with
          | zero => exact .inl (by rw [Nat.cast_zero, zero_mul, add_zero])
          | succ k => exact .inr ⟨k, by push_cast; ring, hw⟩
    · have hover : 2 ^ 31 ≤ v + (hi - v) / step * step + step := by
       have := mul_nonneg hquot hstep.le
       omega
      rw [if_neg hint, if_pos ⟨hle, hover⟩]
  · rw [if_neg hle, if_neg fun h => hle h.1]
    refine ⟨[], rfl, fun w => ⟨fun h => (not_mem_nil h).elim, ?_⟩⟩
    rintro ⟨k, rfl, hw⟩
    have := mul_nonneg (Int.natCast_nonneg k) hstep.le
    omega

theorem CronPiece.parsed_spec (x : CronPiece) :
  if x.Overflows then x.parsed = .error .overflow
  else ∃ vs, x.parsed = .ok vs ∧ ∀ v, v ∈ vs ↔ v ∈ x.values := by
 have hle := x.lo_le_hi
 have hstep := x.step_pos
 have h := cronValues_spec x.hi hstep ((x.hi - x.lo).toNat + 2) x.lo (by omega) (by omega)
 by_cases hover : x.Overflows
 · rw [if_pos ⟨hle, hover⟩] at h
   rwa [if_pos hover]
 · rw [if_neg fun h => hover h.2] at h
   rwa [if_neg hover]

/-! ## Fields -/

/-- The pieces of a field; a malformed one is none, and so is the piece of an empty list. -/
def fieldPieces (minVal maxVal : ℤ) (field : Bytes) : List (Option CronPiece) :=
 match (splitString 0x2C field).map (cronPiece minVal maxVal) with
 | [] => [none]
 | pieces => pieces

def InField (pieces : List (Option CronPiece)) (v : ℤ) : Prop := ∃ x, some x ∈ pieces ∧ v ∈ x.values

structure CronFields where
 minutes : List (Option CronPiece)
 hours : List (Option CronPiece)
 mdays : List (Option CronPiece)
 months : List (Option CronPiece)
 wdays : List (Option CronPiece)

def cronFields (expression : Bytes) : Option CronFields :=
 match splitString 0x20 expression with
 | [f0, f1, f2, f3, f4] => some {
   minutes := fieldPieces 0 59 f0
   hours := fieldPieces 0 23 f1
   mdays := fieldPieces 1 31 f2
   months := fieldPieces 1 12 f3
   wdays := fieldPieces 0 6 f4 }
 | _ => none

def CronFields.pieces (c : CronFields) : List (Option CronPiece) :=
 c.minutes ++ (c.hours ++ (c.mdays ++ (c.months ++ c.wdays)))

structure CronFields.Matches (c : CronFields) (ex : ExplodedLocal) : Prop where
 minute : InField c.minutes ex.minute
 hour : InField c.hours ex.hour
 mday : InField c.mdays ex.mday
 month : InField c.months ex.month
 wday : InField c.wdays ex.wday

def pieceError : Option CronPiece → Option CronError
 | none => some .malformed
 | some x => if x.Overflows then some .overflow else none

def cronError (expression : Bytes) : Option CronError :=
 match cronFields expression with
 | none => some .malformed
 | some c => c.pieces.findSome? pieceError

theorem parseCronPiece_ends (minVal maxVal : ℤ) (piece : Bytes) :
  Ends pieceError [cronPiece minVal maxVal piece] (parseCronPiece minVal maxVal piece)
   fun vs => ∃ x, cronPiece minVal maxVal piece = some x ∧ ∀ v, v ∈ vs ↔ v ∈ x.values := by
 rw [Ends, findSome?_singleton, parseCronPiece]
 cases cronPiece minVal maxVal piece with
 | none => rfl
 | some x =>
  have hspec := x.parsed_spec
  rw [pieceError]
  split_ifs at hspec ⊢ with hover
  · exact hspec
  · obtain ⟨vs, heq, hvs⟩ := hspec
    exact ⟨vs, heq, x, rfl, hvs⟩

theorem fieldPieces_of_ne_nil {minVal maxVal : ℤ} {field : Bytes} (h : splitString 0x2C field ≠ []) :
  fieldPieces minVal maxVal field = (splitString 0x2C field).map (cronPiece minVal maxVal) := by
 unfold fieldPieces
 split
 · next hnil => exact absurd (map_eq_nil_iff.1 hnil) h
 · rfl

theorem inField_cons {x : CronPiece} {pieces : List (Option CronPiece)} {v : ℤ} :
  InField (some x :: pieces) v ↔ v ∈ x.values ∨ InField pieces v := by
 simp only [InField, mem_cons, Option.some.injEq, or_and_right, exists_or, exists_eq_left]

theorem mem_flatten_iff {minVal maxVal : ℤ} {pieces : List Bytes} {vss : List (List ℤ)}
  (h : List.Forall₂ (fun piece vs => ∃ x, cronPiece minVal maxVal piece = some x ∧
   ∀ v, v ∈ vs ↔ v ∈ x.values) pieces vss) (v : ℤ) :
  v ∈ vss.flatten ↔ InField (pieces.map (cronPiece minVal maxVal)) v := by
 induction h with
 | nil => exact ⟨fun h => (not_mem_nil h).elim, fun ⟨_, h, _⟩ => (not_mem_nil h).elim⟩
 | cons hfirst _ ih =>
  obtain ⟨x, hx, hvs⟩ := hfirst
  rw [flatten_cons, mem_append, map_cons, hx, inField_cons, hvs, ih]

theorem parseCronField_ends (minVal maxVal : ℤ) (field : Bytes) :
  Ends pieceError (fieldPieces minVal maxVal field) (parseCronField minVal maxVal field)
   fun vs => ∀ v, v ∈ vs ↔ InField (fieldPieces minVal maxVal field) v := by
 by_cases hnil : splitString 0x2C field = []
 · rw [fieldPieces, parseCronField, hnil]
   rfl
 · rw [fieldPieces_of_ne_nil hnil, parseCronField]
   rw [← append_nil (List.map (cronPiece minVal maxVal) _)]
   refine (ends_mapM (parseCronPiece_ends minVal maxVal) _).bind fun vss hvss => ?_
   have hmem := mem_flatten_iff hvss
   have hne : vss.flatten ≠ [] := by
    generalize splitString 0x2C field = pieces at *
    cases hvss with
    | nil => exact absurd rfl hnil
    | cons hfirst _ =>
     obtain ⟨x, -, hvs⟩ := hfirst
     exact ne_nil_of_mem (mem_append_left _ ((hvs x.lo).2 x.lo_mem))
   rw [if_neg hne, append_nil]
   exact ends_ok hmem

def assumed (localTime : ℤ → ExplodedLocal) : Platform := ⟨fun t => some (localTime t), fun _ => none⟩

def kWalkMinutes : ℕ := 366 * 24 * 60

def firstMinute (now : ℤ) : ℤ := (secondsSinceUnixEpoch now + 60).tdiv 60

variable {expression : Bytes} {c : CronFields}

theorem cronFire_ends (f : ℤ → ExplodedLocal) (now : ℤ)
  (hfields : cronFields expression = some c) :
  Ends pieceError c.pieces (cronFire (assumed f) expression now) fun due =>
   ∃ isMatch : ExplodedLocal → Bool, (∀ ex, isMatch ex = true ↔ c.Matches ex) ∧
    due = cronWalk (fun t => some (f t)) isMatch kWalkMinutes (firstMinute now * 60) := by
 unfold cronFields at hfields
 split at hfields
 · next f0 f1 f2 f3 f4 hsplit =>
   obtain rfl := Option.some.inj hfields
   simp only [cronFire, hsplit, CronFields.pieces]
   refine (parseCronField_ends 0 59 f0).bind fun minutes hminutes => ?_
   refine (parseCronField_ends 0 23 f1).bind fun hours hhours => ?_
   refine (parseCronField_ends 1 31 f2).bind fun mdays hmdays => ?_
   refine (parseCronField_ends 1 12 f3).bind fun months hmonths => ?_
   rw [← append_nil (fieldPieces 0 6 f4)]
   refine (parseCronField_ends 0 6 f4).bind fun wdays hwdays => ends_ok ⟨_, fun ex => ?_, rfl⟩
   rw [decide_eq_true_iff, hminutes, hhours, hmdays, hmonths, hwdays, append_nil]
   exact ⟨fun ⟨hminute, hhour, hmday, hmonth, hwday⟩ => ⟨hminute, hhour, hmday, hmonth, hwday⟩,
    fun h => ⟨h.minute, h.hour, h.mday, h.month, h.wday⟩⟩
 · cases hfields

theorem cronFire_malformed (f : ℤ → ExplodedLocal) (now : ℤ)
  (hfields : cronFields expression = none) :
  cronFire (assumed f) expression now = .error .malformed := by
 unfold cronFire
 split
 · next hsplit =>
   rw [cronFields, hsplit] at hfields
   cases hfields
 · rfl

/-! ## The walk -/

section Walk

variable {f : ℤ → ExplodedLocal} {isMatch : ExplodedLocal → Bool} {n : ℕ} {t : ℤ}

theorem cronWalk_none (h : ∀ i < n, isMatch (f (t + 60 * i)) = false) :
  cronWalk (fun t => some (f t)) isMatch n t = none := by
 induction n generalizing t with
 | zero => rfl
 | succ n ih =>
  have hfirst := h 0 (Nat.succ_pos n)
  rw [Nat.cast_zero, mul_zero, add_zero] at hfirst
  simp only [cronWalk, hfirst, Bool.false_eq_true, ↓reduceIte]
  refine ih fun i hi => ?_
  have hnext := h (i + 1) (Nat.succ_lt_succ hi)
  rwa [Nat.cast_add, Nat.cast_one, mul_add, mul_one, add_comm (60 * (i : ℤ)), ← add_assoc] at hnext

theorem cronWalk_first {i : ℕ} (hi : i < n) (hmatch : isMatch (f (t + 60 * i)) = true)
  (hbefore : ∀ j < i, isMatch (f (t + 60 * j)) = false) :
  cronWalk (fun t => some (f t)) isMatch n t =
   if t + 60 * i = 0 then none else some ((t + 60 * i) * kSecond) := by
 induction n generalizing t i with
 | zero => exact absurd hi (Nat.not_lt_zero i)
 | succ n ih =>
  cases i with
  | zero =>
   rw [Nat.cast_zero, mul_zero, add_zero] at hmatch ⊢
   simp only [cronWalk, hmatch, ↓reduceIte]
  | succ i =>
   have hfirst := hbefore 0 (Nat.succ_pos i)
   rw [Nat.cast_zero, mul_zero, add_zero] at hfirst
   have hshift : ∀ j : ℕ, t + 60 * ((j + 1 : ℕ) : ℤ) = t + 60 + 60 * j := fun j => by
    push_cast
    ring
   simp only [cronWalk, hfirst, Bool.false_eq_true, ↓reduceIte]
   rw [hshift] at hmatch ⊢
   refine ih (Nat.lt_of_succ_lt_succ hi) hmatch fun j hj => ?_
   rw [← hshift]
   exact hbefore (j + 1) (Nat.succ_lt_succ hj)

theorem cronWalk_ne_zero : cronWalk (fun t => some (f t)) isMatch n t ≠ some 0 := by
 induction n generalizing t with
 | zero => exact fun h => by cases h
 | succ n ih =>
  simp only [cronWalk]
  split_ifs with hmatch hzero
  · exact fun h => nomatch h
  · intro h
    have := Option.some.inj h
    unfold kSecond at this
    omega
  · exact ih

end Walk

/-! ## The earliest minute -/

def kMinute : ℤ := 60 * kSecond

/-- The whole minutes after `now`, within 366 days. -/
def Upcoming (now m : ℤ) : Prop := now < m * kMinute ∧ m * kMinute ≤ now + kWalkMinutes * kMinute

def parseCron (expression : Bytes) : Option CronFields :=
 (cronFields expression).filter fun c => c.pieces.all Option.isSome

/-- `due` is what the expression asks for: its earliest upcoming minute, null if there is none. -/
def IsNextFire (localTime : ℤ → ExplodedLocal) (expression : Bytes) (now : ℤ) : Option ℤ → Prop
 | some due => ∃ c ∈ parseCron expression, ∃ m, due = m * kMinute ∧ Upcoming now m ∧
   c.Matches (localTime (m * 60)) ∧ ∀ m' < m, Upcoming now m' → ¬ c.Matches (localTime (m' * 60))
 | none => ∀ c ∈ parseCron expression, ∀ m, Upcoming now m → ¬ c.Matches (localTime (m * 60))

/-- `NextCronFire` computes without overflow, and what the expression asks for. -/
structure Exact (localTime : ℤ → ExplodedLocal) (expression : Bytes) (now : ℤ) : Prop where
 defined : cronFire (assumed localTime) expression now ≠ .error .overflow
 exact : IsNextFire localTime expression now (nextCronFire (assumed localTime) expression now)

/-- From 1970 on, or a whole minute so long before it that the walk ends before it too. -/
def WalksAll (now : ℤ) : Prop :=
 0 ≤ now ∨ (now % kMinute = 0 ∧ now + kWalkMinutes * kMinute < 0 ∧ now ≠ kNullTime)

theorem upcoming_iff {now m : ℤ} :
  Upcoming now m ↔ now / kMinute + 1 ≤ m ∧ m < now / kMinute + 1 + kWalkMinutes := by
 unfold Upcoming kMinute kSecond kWalkMinutes
 omega

theorem secondsSinceUnixEpoch_of_neg {now : ℤ} (hneg : now < 0) (hnull : now ≠ kNullTime) :
  secondsSinceUnixEpoch now = -(-now / kSecond) := by
 have htdiv : now.tdiv kSecond = -((-now).tdiv kSecond) := by rw [Int.neg_tdiv, neg_neg]
 rw [secondsSinceUnixEpoch, if_neg hnull, htdiv, Int.tdiv_eq_ediv_of_nonneg (by omega)]

theorem firstMinute_cases (now : ℤ) :
  (WalksAll now ∧ firstMinute now = now / kMinute + 1 ∧ ¬ Upcoming now 0) ∨
   (¬ WalksAll now ∧ now / kMinute + 1 < firstMinute now) ∨
    (¬ WalksAll now ∧ firstMinute now = now / kMinute + 1 ∧ Upcoming now 0) := by
 rw [upcoming_iff]
 unfold WalksAll firstMinute
 by_cases hpos : 0 ≤ now
 · rw [secondsSinceUnixEpoch_of_nonneg hpos]
   unfold kMinute kSecond
   rw [Int.tdiv_eq_ediv_of_nonneg (by omega)]
   omega
 · by_cases hnull : now = kNullTime
   · subst hnull
     right
     left
     decide
   · rw [secondsSinceUnixEpoch_of_neg (not_le.1 hpos) hnull]
     unfold kMinute kSecond kWalkMinutes
     by_cases hlate : 0 ≤ -(-now / 1000000) + 60
     · rw [Int.tdiv_eq_ediv_of_nonneg hlate]
       omega
     · have hnonneg : 0 ≤ -now / 1000000 - 60 := by omega
       have htdiv : (-(-now / 1000000) + 60).tdiv 60 = -((-now / 1000000 - 60) / 60) := by
        rw [← Int.tdiv_eq_ediv_of_nonneg hnonneg, ← Int.neg_tdiv]
        congr 1
        ring
       rw [htdiv]
       omega

/-- A walk from the next minute that does not meet the epoch finds what is asked for. -/
theorem isNextFire_cronWalk {f : ℤ → ExplodedLocal} {now : ℤ}
  {isMatch : ExplodedLocal → Bool} (hparse : parseCron expression = some c)
  (hmatch : ∀ ex, isMatch ex = true ↔ c.Matches ex) (hfirst : firstMinute now = now / kMinute + 1)
  (hzero : ¬ Upcoming now 0) :
  IsNextFire f expression now
   (cronWalk (fun t => some (f t)) isMatch kWalkMinutes (firstMinute now * 60)) := by
 have hminute : ∀ i : ℕ, firstMinute now * 60 + 60 * i = (firstMinute now + i) * 60 := fun i => by ring
 by_cases hsome : ∃ i < kWalkMinutes, isMatch (f (firstMinute now * 60 + 60 * i)) = true
 · obtain ⟨i, ⟨hi, hmatched⟩, hleast⟩ := Nat.findX hsome
   have hbefore : ∀ j < i, isMatch (f (firstMinute now * 60 + 60 * j)) = false := fun j hj =>
    Bool.not_eq_true _ ▸ fun h => hleast j hj ⟨hj.trans hi, h⟩
   have hupcoming : Upcoming now (firstMinute now + i) := by
    rw [upcoming_iff]
    omega
   rw [cronWalk_first hi hmatched hbefore, hminute, if_neg]
   · rw [hminute, hmatch] at hmatched
     refine ⟨c, hparse, firstMinute now + i, by rw [kMinute]; ring, hupcoming, hmatched, ?_⟩
     intro m hm hup hmatches
     rw [upcoming_iff] at hup
     obtain ⟨j, rfl⟩ : ∃ j : ℕ, m = firstMinute now + j := ⟨(m - firstMinute now).toNat, by omega⟩
     have hnot := hbefore j (by omega)
     rw [hminute, ← Bool.not_eq_true, hmatch] at hnot
     exact hnot hmatches
   · intro heq
     rw [show firstMinute now + (i : ℤ) = 0 by omega] at hupcoming
     exact hzero hupcoming
 · rw [cronWalk_none fun i hi => Bool.not_eq_true _ ▸ fun h => hsome ⟨i, hi, h⟩]
   intro c' hc' m hup hmatches
   obtain rfl : c = c' := Option.some.inj (hparse.symm.trans hc')
   rw [upcoming_iff] at hup
   obtain ⟨i, rfl⟩ : ∃ i : ℕ, m = firstMinute now + i := ⟨(m - firstMinute now).toNat, by omega⟩
   refine hsome ⟨i, by omega, ?_⟩
   rw [hminute, hmatch]
   exact hmatches

/-! ## When the result is exact -/

theorem parseCron_iff :
  parseCron expression = some c ↔ cronFields expression = some c ∧ none ∉ c.pieces := by
 rw [parseCron, Option.filter_eq_some_iff, all_eq_true]
 refine and_congr_right fun _ => ⟨fun h hnone => (nomatch h none hnone), fun h x hx => ?_⟩
 exact Option.isSome_iff_ne_none.2 fun heq => h (heq ▸ hx)

theorem parseCron_of_cronError (h : cronError expression = none) :
  ∃ c, parseCron expression = some c ∧ c.pieces.findSome? pieceError = none := by
 unfold cronError at h
 cases hfields : cronFields expression with
 | none => simp only [hfields, reduceCtorEq] at h
 | some c =>
  simp only [hfields] at h
  refine ⟨c, parseCron_iff.2 ⟨hfields, fun hnone => ?_⟩, h⟩
  cases findSome?_eq_none_iff.1 h none hnone

theorem parseCron_of_malformed (h : cronError expression = some .malformed) :
  parseCron expression = none := by
 refine Option.eq_none_iff_forall_ne_some.2 fun c hc => ?_
 obtain ⟨hfields, hnone⟩ := parseCron_iff.1 hc
 simp only [cronError, hfields] at h
 obtain ⟨x, hx, herror⟩ := exists_of_findSome?_eq_some h
 cases x with
 | none => exact hnone hx
 | some x =>
  rw [pieceError] at herror
  split at herror <;> cases herror

theorem cronFire_of_cronError (f : ℤ → ExplodedLocal) {e : CronError} (now : ℤ)
  (h : cronError expression = some e) : cronFire (assumed f) expression now = .error e := by
 unfold cronError at h
 cases hfields : cronFields expression with
 | none =>
  simp only [hfields] at h
  exact Option.some.inj h ▸ cronFire_malformed f now hfields
 | some c =>
  simp only [hfields] at h
  exact (cronFire_ends f now hfields).error h

theorem cronFire_of_parseCron (f : ℤ → ExplodedLocal) (now : ℤ)
  (hparse : parseCron expression = some c) (hnone : c.pieces.findSome? pieceError = none) :
  ∃ isMatch : ExplodedLocal → Bool, (∀ ex, isMatch ex = true ↔ c.Matches ex) ∧
   cronFire (assumed f) expression now =
    .ok (cronWalk (fun t => some (f t)) isMatch kWalkMinutes (firstMinute now * 60)) := by
 obtain ⟨due, hfire, isMatch, hmatch, rfl⟩ := (cronFire_ends f now (parseCron_iff.1 hparse).1).ok hnone
 exact ⟨isMatch, hmatch, hfire⟩

/-! Every well-formed expression allows some local times and not others. -/

theorem fieldPieces_ne_nil (minVal maxVal : ℤ) (field : Bytes) : fieldPieces minVal maxVal field ≠ [] := by
 unfold fieldPieces
 split
 · exact cons_ne_nil _ _
 · next hne => exact hne

theorem inField_nonempty {pieces : List (Option CronPiece)} (hne : pieces ≠ []) (hnone : none ∉ pieces) :
  ∃ v, InField pieces v := by
 obtain ⟨piece, hpiece⟩ := exists_mem_of_ne_nil pieces hne
 cases piece with
 | none => exact absurd hpiece hnone
 | some x => exact ⟨x.lo, x, hpiece, x.lo_mem⟩

theorem inField_bounded (pieces : List (Option CronPiece)) : ∃ b, ∀ v, InField pieces v → v ≤ b := by
 induction pieces with
 | nil => exact ⟨0, fun v ⟨x, hx, _⟩ => (not_mem_nil hx).elim⟩
 | cons piece rest ih =>
  obtain ⟨b, hb⟩ := ih
  cases piece with
  | none =>
   refine ⟨b, fun v ⟨x, hx, hv⟩ => hb v ⟨x, ?_, hv⟩⟩
   exact (mem_cons.1 hx).resolve_left (Option.some_ne_none x)
  | some y =>
   refine ⟨max y.hi b, fun v hv => ?_⟩
   rcases inField_cons.1 hv with ⟨k, -, hle⟩ | hv
   · exact hle.trans (le_max_left _ _)
   · exact (hb v hv).trans (le_max_right _ _)

theorem exists_matches (hparse : parseCron expression = some c) :
  (∃ ex, c.Matches ex) ∧ ∃ ex, ¬ c.Matches ex := by
 obtain ⟨hfields, hnone⟩ := parseCron_iff.1 hparse
 simp only [CronFields.pieces, mem_append, not_or] at hnone
 unfold cronFields at hfields
 split at hfields
 · next f0 f1 f2 f3 f4 _ =>
   obtain rfl := Option.some.inj hfields
   obtain ⟨hminutes, hhours, hmdays, hmonths, hwdays⟩ := hnone
   obtain ⟨minute, hminute⟩ := inField_nonempty (fieldPieces_ne_nil 0 59 f0) hminutes
   obtain ⟨hour, hhour⟩ := inField_nonempty (fieldPieces_ne_nil 0 23 f1) hhours
   obtain ⟨mday, hmday⟩ := inField_nonempty (fieldPieces_ne_nil 1 31 f2) hmdays
   obtain ⟨month, hmonth⟩ := inField_nonempty (fieldPieces_ne_nil 1 12 f3) hmonths
   obtain ⟨wday, hwday⟩ := inField_nonempty (fieldPieces_ne_nil 0 6 f4) hwdays
   obtain ⟨b, hb⟩ := inField_bounded (fieldPieces 0 59 f0)
   refine ⟨⟨⟨month, mday, hour, minute, wday⟩, hminute, hhour, hmday, hmonth, hwday⟩,
    ⟨month, mday, hour, b + 1, wday⟩, fun h => ?_⟩
   have hle : b + 1 ≤ b := hb _ h.minute
   omega
 · cases hfields

/-- A local time that is `ex` in one minute only. -/
def onlyAt (m : ℤ) (ex other : ExplodedLocal) (t : ℤ) : ExplodedLocal := if t = m * 60 then ex else other

theorem isNextFire_onlyAt {now m : ℤ} {ex other : ExplodedLocal}
  {due : Option ℤ} (hparse : parseCron expression = some c) (hex : c.Matches ex)
  (hother : ¬ c.Matches other) (hup : Upcoming now m)
  (h : IsNextFire (onlyAt m ex other) expression now due) : due = some (m * kMinute) := by
 have hat : c.Matches (onlyAt m ex other (m * 60)) := by rwa [onlyAt, if_pos rfl]
 cases due with
 | none => exact absurd hat (h c hparse m hup)
 | some due =>
  obtain ⟨c', hc', m', rfl, -, hmatches, -⟩ := h
  obtain rfl : c = c' := Option.some.inj (hparse.symm.trans hc')
  by_cases hm : m' * 60 = m * 60
  · rw [mul_right_cancel₀ (by decide) hm]
  · rw [onlyAt, if_neg hm] at hmatches
    exact absurd hmatches hother

/-- `NextCronFire` is exact, whatever the local time is, exactly when no loop overflows before the
expression is read, and it is malformed or the walk looks at every minute. -/
theorem cron_exact_iff (expression : Bytes) (now : ℤ) :
  (∀ localTime, Exact localTime expression now) ↔
   cronError expression ≠ some .overflow ∧
    (cronError expression = some .malformed ∨ WalksAll now) := by
 constructor
 · intro h
   cases herror : cronError expression with
   | some e =>
    cases e with
    | malformed => exact ⟨by decide, .inl rfl⟩
    | overflow =>
     have localTime : ℤ → ExplodedLocal := fun _ => ⟨0, 0, 0, 0, 0⟩
     exact absurd (cronFire_of_cronError localTime now herror) (h localTime).defined
   | none =>
    refine ⟨Option.some_ne_none _ |>.symm, .inr ?_⟩
    obtain ⟨c, hparse, hnone⟩ := parseCron_of_cronError herror
    obtain ⟨⟨ex, hex⟩, other, hother⟩ := exists_matches hparse
    by_contra hwalks
    -- The minute that the walk skips, or the epoch.
    obtain ⟨m, hup, hmissed⟩ : ∃ m, Upcoming now m ∧ (m < firstMinute now ∨ m = 0) := by
     rcases firstMinute_cases now with ⟨hall, -⟩ | ⟨-, hlt⟩ | ⟨-, -, hup⟩
     · exact absurd hall hwalks
     · exact ⟨now / kMinute + 1, upcoming_iff.2 ⟨le_rfl, by unfold kWalkMinutes; omega⟩, .inl hlt⟩
     · exact ⟨0, hup, .inr rfl⟩
    obtain ⟨isMatch, -, hfire⟩ := cronFire_of_parseCron (onlyAt m ex other) now hparse hnone
    have hdue := isNextFire_onlyAt hparse hex hother hup (h (onlyAt m ex other)).exact
    rw [nextCronFire, hfire] at hdue
    rcases hmissed with hlt | rfl
    · have hge := cronWalk_ge hdue
      unfold kMinute kSecond at hge
      omega
    · rw [zero_mul] at hdue
      exact cronWalk_ne_zero hdue
 · rintro ⟨hover, hrest⟩ f
   cases herror : cronError expression with
   | some e =>
    have hfire := cronFire_of_cronError f now herror
    cases e with
    | overflow => exact absurd herror hover
    | malformed =>
     refine ⟨fun h => (nomatch hfire.symm.trans h), ?_⟩
     rw [nextCronFire, hfire]
     intro c hc
     rw [parseCron_of_malformed herror] at hc
     cases hc
   | none =>
    rw [herror] at hrest
    have hwalks := hrest.resolve_left (Option.some_ne_none _).symm
    obtain ⟨c, hparse, hnone⟩ := parseCron_of_cronError herror
    obtain ⟨isMatch, hmatch, hfire⟩ := cronFire_of_parseCron f now hparse hnone
    refine ⟨fun h => (nomatch hfire.symm.trans h), ?_⟩
    rw [nextCronFire, hfire]
    rcases firstMinute_cases now with ⟨-, hfirst, hzero⟩ | ⟨hnot, -⟩ | ⟨hnot, -⟩
    · exact isNextFire_cronWalk hparse hmatch hfirst hzero
    · exact absurd hwalks hnot
    · exact absurd hwalks hnot

/-- The last minute of the hour with the longest step: the loop adds it to 59. -/
theorem cron_step_overflows :
  ¬ Exact (fun _ => ⟨1, 1, 0, 59, 4⟩) "59/2147483647 * * * *" 0 := fun h =>
 h.defined (cronFire_of_cronError _ _ (by decide))

end MoltBrowser.AutomationScheduler
