import MoltBrowser.ReadingCuts

set_option autoImplicit false

/-!
# What a text weighs, run by run and character by character

A prefix that is measured weighs on its own what it was measured to weigh, but for a first word that is cut just before the letter
by which it isn't spelled out.
-/
namespace MoltBrowser.Voice
open StreamFilters SelfSynchronizing List

def inRun (letters : Bool) (c : UInt8) : Bool := if letters then isAsciiLetter c else isAsciiDigit c

def runWeigh (letters : Bool) (run : Bytes) (c : UInt8) : ℕ :=
 if letters then letterWeight (letters && isSpelled run) c else kDigitWeight

def runWeight (letters : Bool) (run : Bytes) : ℕ := (run.map (runWeigh letters run)).sum

/-- A text of whole runs and characters, and what it weighs. -/
inductive Weighs : Bytes → ℕ → Prop
 | nil : Weighs [] 0
 | run {letters : Bool} {run rest : Bytes} {w : ℕ} (hne : run ≠ []) (hrun : ∀ c ∈ run, inRun letters c = true)
   (hend : ∀ c ∈ rest.head?, inRun letters c = false) (hrest : Weighs rest w) : Weighs (run ++ rest) (runWeight letters run + w)
 | character {c : UInt8} {tail rest : Bytes} {v w : ℕ} (hletter : isAsciiLetter c = false) (hdigit : isAsciiDigit c = false)
   (hweight : ∀ more, characterWeight c (tail ++ more) = (tail.length + 1, v)) (hrest : Weighs rest w) :
   Weighs (c :: (tail ++ rest)) (v + w)

/-! ## Each weighs something, and not much -/

theorem letterWeight_bounds (spelled : Bool) (c : UInt8) : 1 ≤ letterWeight spelled c ∧ letterWeight spelled c ≤ kPictureWeight := by
 rw [letterWeight]
 split_ifs
 · decide
 · decide
 · decide

theorem runWeigh_bounds (letters : Bool) (run : Bytes) (c : UInt8) : 1 ≤ runWeigh letters run c ∧ runWeigh letters run c ≤ kPictureWeight := by
 rw [runWeigh]
 split_ifs
 · exact letterWeight_bounds _ c
 · decide

theorem nonAsciiWeight_bounds (cp : ℕ) : 1 ≤ nonAsciiWeight cp ∧ nonAsciiWeight cp ≤ kPictureWeight := by
 rw [nonAsciiWeight]
 split_ifs <;> decide

theorem characterWeight_bounds (c : UInt8) (rest : Bytes) : 1 ≤ (characterWeight c rest).2 ∧ (characterWeight c rest).2 ≤ kPictureWeight := by
 rw [characterWeight]
 by_cases hascii : c < 0x80
 · rw [if_pos hascii]
   dsimp only
   split_ifs <;> decide
 · rw [if_neg hascii]
   exact nonAsciiWeight_bounds _

theorem length_le_weigh (weigh : UInt8 → ℕ) (h : ∀ c, 1 ≤ weigh c) (run : Bytes) : run.length ≤ (run.map weigh).sum := by
 induction run with
 | nil => exact le_rfl
 | cons c run ih =>
  rw [map_cons, sum_cons, length_cons]
  have hc := h c
  omega

theorem length_le_runWeight (letters : Bool) (run : Bytes) : run.length ≤ runWeight letters run :=
 length_le_weigh _ (fun c => (runWeigh_bounds letters run c).1) run

theorem digit_not_letter {c : UInt8} (h : isAsciiDigit c = true) : isAsciiLetter c = false := by
 simp only [isAsciiDigit, isAsciiLetter, Bool.and_eq_true, Bool.or_eq_false_iff, Bool.and_eq_false_iff, decide_eq_true_eq,
  decide_eq_false_iff_not, UInt8.le_iff_toNat_le, UInt8.reduceToNat] at h ⊢
 omega

/-! ## Reading a run or a character -/

variable {letters : Bool} {run rest : Bytes}

theorem takeWhile_run (hrun : ∀ c ∈ run, inRun letters c = true) (hend : ∀ c ∈ rest.head?, inRun letters c = false) :
  (run ++ rest).takeWhile (inRun letters) = run := by
 rw [takeWhile_append_of_pos hrun]
 cases rest with
 | nil => rw [takeWhile_nil, append_nil]
 | cons c rest => rw [takeWhile_cons_of_neg (by rw [hend c rfl]; exact Bool.false_ne_true), append_nil]

theorem spokenFrom_run (hne : run ≠ []) (hrun : ∀ c ∈ run, inRun letters c = true) (hend : ∀ c ∈ rest.head?, inRun letters c = false)
  {maxWeight i total : ℕ} (hgo : i = 0 ∨ total < maxWeight) {part : Bytes} (hpart : run.take (maxWeight - total + 1) = part) :
  spokenFrom maxWeight i total (run ++ rest) =
   if runWeight letters part ≤ maxWeight - total then
    spokenFrom maxWeight (i + part.length) (total + runWeight letters part) ((run ++ rest).drop part.length)
   else if i = 0 then takeHeavy maxWeight (runWeigh letters part) i total part else (i, total) := by
 have htake := takeWhile_run hrun hend
 cases run with
 | nil => exact absurd rfl hne
 | cons c run =>
  have hc := hrun c mem_cons_self
  have hletter : isAsciiLetter c = letters := by
   cases letters with
   | true => exact hc
   | false => exact digit_not_letter hc
  have hword : (isAsciiLetter c || isAsciiDigit c) = true := by
   cases letters with
   | true => rw [hletter, Bool.true_or]
   | false => rw [show isAsciiDigit c = true from hc, Bool.or_true]
  have hread : runOf (isAsciiLetter c) (maxWeight - total) (c :: (run ++ rest)) = part := by
   rw [← hpart, ← htake, hletter]
   rfl
  rw [cons_append, spokenFrom, if_neg (not_not.mpr hgo), dif_pos hword]
  dsimp only
  rw [hread, hletter]
  rfl

variable {v maxWeight i : ℕ}

theorem spokenFrom_character {c : UInt8} {tail : Bytes} (hletter : isAsciiLetter c = false) (hdigit : isAsciiDigit c = false)
  (hweight : characterWeight c (tail ++ rest) = (tail.length + 1, v)) {total : ℕ} (hgo : i = 0 ∨ total < maxWeight) :
  spokenFrom maxWeight i total (c :: (tail ++ rest)) =
   if 0 < i ∧ maxWeight < total + v then (i, total) else spokenFrom maxWeight (i + (tail.length + 1)) (total + v) rest := by
 have hword : ¬ (isAsciiLetter c || isAsciiDigit c) = true := by rw [hletter, hdigit]; exact Bool.false_ne_true
 rw [spokenFrom, if_neg (not_not.mpr hgo), dif_neg hword]
 dsimp only
 rw [hweight, drop_succ_cons, drop_left]

theorem Weighs.read {s : Bytes} {w : ℕ} (h : Weighs s w) {maxWeight : ℕ} : ∀ i total, total + w ≤ maxWeight →
  spokenFrom maxWeight i total s = (i + s.length, total + w) := by
 induction h with
 | nil =>
  intro i total _
  rw [spokenFrom, length_nil, Nat.add_zero, Nat.add_zero]
 | @run letters run rest w hne hrun hend _ ih =>
  intro i total hfits
  have hlen := length_le_runWeight letters run
  have hpos := length_pos_iff.mpr hne
  have hpart : run.take (maxWeight - total + 1) = run := take_of_length_le (by omega)
  rw [spokenFrom_run hne hrun hend (.inr (by omega)) hpart, if_pos (by omega), drop_left, ih _ _ (by omega), length_append]
  exact Prod.ext (Nat.add_assoc _ _ _) (Nat.add_assoc _ _ _)
 | @character c tail rest v w hletter hdigit hweight _ ih =>
  intro i total hfits
  have hpos := (characterWeight_bounds c (tail ++ rest)).1
  rw [hweight] at hpos
  rw [spokenFrom_character hletter hdigit (hweight rest) (.inr (by omega)), if_neg (by omega), ih _ _ (by omega), length_cons,
   length_append]
  exact Prod.ext (by dsimp only; omega) (Nat.add_assoc _ _ _)

variable {s : Bytes}

theorem Weighs.unique {w : ℕ} (hv : Weighs s v) (hw : Weighs s w) : v = w := by
 have hread := (@Weighs.read s v hv (v + w) 0 0 (by omega)).symm.trans (hw.read 0 0 (by omega))
 have heq := congrArg Prod.snd hread
 dsimp only at heq
 omega

theorem exists_weighs (hv : Valid s) : ∃ w, Weighs s w := by
 induction hlen : s.length using Nat.strong_induction_on generalizing s with
 | _ n ih =>
  cases s with
  | nil => exact ⟨0, .nil⟩
  | cons c more =>
   by_cases hword : (isAsciiLetter c || isAsciiDigit c) = true
   · have hascii : ∀ d ∈ (c :: more).takeWhile (inRun (isAsciiLetter c)), d < 0x80 := by
      intro d hd
      have hin := mem_takeWhile_imp hd
      rw [inRun] at hin
      split_ifs at hin
      · exact letter_ascii (.inl hin)
      · exact letter_ascii (.inr hin)
     have hparts : (c :: more).takeWhile (inRun (isAsciiLetter c)) ++ (c :: more).dropWhile (inRun (isAsciiLetter c)) = c :: more :=
      takeWhile_append_dropWhile
     have hne : (c :: more).takeWhile (inRun (isAsciiLetter c)) ≠ [] := by
      have hc : inRun (isAsciiLetter c) c = true := by
       cases hletter : isAsciiLetter c with
       | true => exact hletter
       | false =>
        rw [hletter, Bool.false_or] at hword
        exact hword
      rw [takeWhile_cons_of_pos hc]
      exact cons_ne_nil _ _
     have hend : ∀ d ∈ ((c :: more).dropWhile (inRun (isAsciiLetter c))).head?, inRun (isAsciiLetter c) d = false := by
      intro d hd
      have hstop := head?_dropWhile_not (inRun (isAsciiLetter c)) (c :: more)
      rw [hd] at hstop
      exact hstop
     have hshort := congrArg List.length hparts
     rw [length_append] at hshort
     have hpos := length_pos_iff.mpr hne
     obtain ⟨w, hw⟩ := ih _ (by omega) (valid_of_ascii hascii (hparts.symm ▸ hv)) rfl
     exact ⟨_, hparts ▸ Weighs.run hne (fun d hd => mem_takeWhile_imp hd) hend hw⟩
   · rw [Bool.not_eq_true, Bool.or_eq_false_iff] at hword
     obtain ⟨tail, after, v, rfl, hweight, hafter⟩ := characterWeight_whole hv
     obtain ⟨w, hw⟩ := ih after.length (by rw [← hlen, length_cons, length_append]; omega) hafter rfl
     exact ⟨v + w, .character hword.1 hword.2 hweight hw⟩

/-! ## Texts put together -/

variable {a b : Bytes}

theorem head_append {p : UInt8 → Bool} (hne : a ≠ []) (h : ∀ c ∈ a.head?, p c = false) : ∀ c ∈ (a ++ b).head?, p c = false := by
 cases a with
 | nil => exact absurd rfl hne
 | cons d a => exact h

variable {y : ℕ}

theorem Weighs.around {x : ℕ} {p : UInt8} (ha : Weighs a x) (hb : Weighs b y) (hletter : isAsciiLetter p = false)
  (hdigit : isAsciiDigit p = false) (hweight : ∀ more, characterWeight p more = (1, v)) : Weighs (a ++ p :: b) (x + (v + y)) := by
 induction ha with
 | nil =>
  rw [nil_append, Nat.zero_add]
  exact @Weighs.character p [] b v y hletter hdigit hweight hb
 | @run letters run rest w hne hrun hend _ ih =>
  rw [append_assoc, Nat.add_assoc]
  refine .run hne hrun ?_ ih
  cases rest with
  | nil =>
   rintro c ⟨⟩
   cases letters with
   | true => exact hletter
   | false => exact hdigit
  | cons d rest => exact hend
 | @character c tail rest v' w hletter' hdigit' hweight' _ ih =>
  rw [cons_append, append_assoc, Nat.add_assoc]
  exact .character hletter' hdigit' hweight' ih

variable {part word : Bytes}

theorem isSpelled_part (hpart : part ⊆ word) (hlen : word.length ≠ 1) (h : isSpelled word = true) :
  isSpelled part = true := by
 have hnone : ∀ p : UInt8 → Bool, word.any p = false → part.any p = false := by
  intro p hp
  rw [any_eq_false] at hp ⊢
  exact fun c hc => hp c (hpart hc)
 rw [isSpelled, Bool.or_eq_true, Bool.or_eq_true, beq_iff_eq, Bool.not_eq_true', Bool.not_eq_true'] at h ⊢
 obtain (hone | hvowel) | hlower := h
 · exact absurd hone hlen
 · exact .inl (.inr (hnone _ hvowel))
 · exact .inr (hnone _ hlower)

theorem runWeigh_spelled (h : isSpelled part = isSpelled word) : runWeigh letters part = runWeigh letters word := by
 funext c
 rw [runWeigh, runWeigh, h]

theorem sum_plain (h : isSpelled word = false) (part : Bytes) : (part.map (runWeigh true word)).sum = part.length := by
 have hone : ∀ c, runWeigh true word c = 1 := by
  intro c
  rw [runWeigh, h]
  rfl
 induction part with
 | nil => rfl
 | cons c part ih => rw [map_cons, sum_cons, ih, hone, length_cons, Nat.add_comm]

theorem runWeight_append_le (letters : Bool) {r t : Bytes} (hr : r ≠ []) (ht : t ≠ []) :
  runWeight letters (r ++ t) ≤ runWeight letters r + runWeight letters t := by
 have hsame : runWeigh letters r = runWeigh letters (r ++ t) → runWeigh letters t = runWeigh letters (r ++ t) →
   runWeight letters (r ++ t) ≤ runWeight letters r + runWeight letters t := by
  intro hr ht
  rw [runWeight, runWeight, runWeight, hr, ht, map_append, sum_append]
 cases letters with
 | false => exact hsame rfl rfl
 | true =>
  cases hspelled : isSpelled (r ++ t) with
  | true =>
   have hlen : (r ++ t).length ≠ 1 := by
    have hrlen := length_pos_iff.mpr hr
    have htlen := length_pos_iff.mpr ht
    rw [length_append]
    omega
   have hrspelled := isSpelled_part (subset_append_left r t) hlen hspelled
   have htspelled := isSpelled_part (subset_append_right r t) hlen hspelled
   exact hsame (runWeigh_spelled (hrspelled.trans hspelled.symm)) (runWeigh_spelled (htspelled.trans hspelled.symm))
  | false =>
   rw [runWeight, sum_plain hspelled, length_append]
   exact Nat.add_le_add (length_le_runWeight true r) (length_le_runWeight true t)

theorem Weighs.afterRun {letters : Bool} {run : Bytes} (hne : run ≠ []) (hrun : ∀ c ∈ run, inRun letters c = true)
  (hb : Weighs b y) : ∃ z ≤ runWeight letters run + y, Weighs (run ++ b) z := by
 have hapart : (∀ c ∈ b.head?, inRun letters c = false) → ∃ z ≤ runWeight letters run + y, Weighs (run ++ b) z :=
  fun hend => ⟨_, le_rfl, .run hne hrun hend hb⟩
 cases hb with
 | nil => exact hapart fun c hc => absurd hc (Option.not_mem_none c)
 | @run letters' run' rest w hne' hrun' hend' hrest =>
  by_cases hsame : letters' = letters
  · subst hsame
    rw [← append_assoc]
    have hle := runWeight_append_le letters' hne hne'
    exact ⟨runWeight letters' (run ++ run') + w, by omega,
     .run (append_ne_nil_of_left_ne_nil hne run') (forall_mem_append.mpr ⟨hrun, hrun'⟩) hend' hrest⟩
  · refine hapart (head_append hne' ?_)
    intro c hc
    have hc' := hrun' c (mem_of_mem_head? hc)
    cases letters with
    | true =>
     rw [Bool.not_eq_true] at hsame
     subst hsame
     exact digit_not_letter hc'
    | false =>
     rw [Bool.not_eq_false] at hsame
     subst hsame
     exact Bool.eq_false_of_not_eq_true fun hdigit => Bool.false_ne_true ((digit_not_letter hdigit).symm.trans hc')
 | @character c tail rest v w hletter hdigit hweight hrest =>
  apply hapart
  rintro d ⟨⟩
  cases letters with
  | true => exact hletter
  | false => exact hdigit

theorem Weighs.append {x : ℕ} (ha : Weighs a x) (hb : Weighs b y) : ∃ z ≤ x + y, Weighs (a ++ b) z := by
 induction ha with
 | nil => exact ⟨y, by omega, hb⟩
 | @run letters run rest w hne hrun hend hrest ih =>
  cases rest with
  | nil =>
   rw [append_nil]
   obtain ⟨z, hz, hweighs⟩ := hb.afterRun hne hrun
   exact ⟨z, by omega, hweighs⟩
  | cons d rest =>
   obtain ⟨z, hz, hweighs⟩ := ih
   rw [append_assoc]
   exact ⟨runWeight letters run + z, by omega, .run hne hrun hend hweighs⟩
 | @character c tail rest v w hletter hdigit hweight _ ih =>
  obtain ⟨z, hz, hweighs⟩ := ih
  rw [cons_append, append_assoc]
  exact ⟨v + z, by omega, .character hletter hdigit hweight hweighs⟩

/-! ## The prefix that is measured -/

/-- A first word that is too heavy, cut just before the letter by which it isn't spelled out. -/
def SpelledCut (maxWeight : ℕ) (s : Bytes) : Prop :=
 maxWeight < (s.takeWhile isAsciiLetter).length ∧ isSpelled ((s.takeWhile isAsciiLetter).take maxWeight) = true ∧
  isSpelled ((s.takeWhile isAsciiLetter).take (maxWeight + 1)) = false

instance (maxWeight : ℕ) (s : Bytes) : Decidable (SpelledCut maxWeight s) := by unfold SpelledCut; infer_instance

theorem takeHeavy_eq {weigh : UInt8 → ℕ} (hweigh : ∀ c, weigh c ≤ maxWeight) (run : Bytes) : ∀ i total,
  (i = 0 → total = 0) → total ≤ maxWeight → ∃ j ≤ run.length,
   takeHeavy maxWeight weigh i total run = (i + j, total + ((run.take j).map weigh).sum) ∧
   total + ((run.take j).map weigh).sum ≤ maxWeight ∧
   (j = run.length ∨ 0 < i + j ∧ maxWeight < total + ((run.take (j + 1)).map weigh).sum) := by
 induction run with
 | nil =>
  intro i total _ hle
  exact ⟨0, le_rfl, rfl, hle, .inl rfl⟩
 | cons c run ih =>
  intro i total hfirst hle
  rw [takeHeavy]
  by_cases hheavy : 0 < i ∧ maxWeight < total + weigh c
  · rw [if_pos hheavy]
    refine ⟨0, Nat.zero_le _, rfl, hle, .inr ⟨hheavy.1, ?_⟩⟩
    rw [take_succ_cons, take_zero, map_cons, map_nil, sum_cons, sum_nil]
    exact hheavy.2
  · rw [if_neg hheavy]
    have hfits : total + weigh c ≤ maxWeight := by
     by_cases hi : i = 0
     · rw [hfirst hi, Nat.zero_add]
       exact hweigh c
     · omega
    obtain ⟨j, hj, hread, hweight, hmore⟩ := ih (i + 1) (total + weigh c) (by omega) hfits
    refine ⟨j + 1, Nat.succ_le_succ hj, ?_, ?_, ?_⟩
    · rw [hread, take_succ_cons, map_cons, sum_cons]
      exact Prod.ext (by dsimp only; omega) (by dsimp only; omega)
    · rw [take_succ_cons, map_cons, sum_cons]
      omega
    · cases hmore with
      | inl hend => exact .inl (congrArg (· + 1) hend)
      | inr hmore =>
       rw [take_succ_cons, map_cons, sum_cons]
       exact .inr ⟨by omega, by omega⟩

/-- A first word that is too heavy is cut where its part weighs what was measured, or just before it isn't spelled out. -/
theorem heavy_weighs (hmax : kPictureWeight ≤ maxWeight) {letters : Bool} {run rest : Bytes}
  (hrun : ∀ c ∈ run, inRun letters c = true) (hend : ∀ c ∈ rest.head?, inRun letters c = false)
  (hpart : run.take (maxWeight + 1) = part) (hheavy : maxWeight < runWeight letters part) :
  ∃ j v, takeHeavy maxWeight (runWeigh letters part) 0 0 part = (j, v) ∧ j ≤ run.length ∧ v ≤ maxWeight ∧
   (Weighs (run.take j) v ∨ j = maxWeight ∧ SpelledCut maxWeight (run ++ rest)) := by
 have hweigh : ∀ c, runWeigh letters part c ≤ maxWeight := fun c => (runWeigh_bounds letters part c).2.trans hmax
 obtain ⟨j, hj, hread, hweight, hmore⟩ := takeHeavy_eq hweigh part 0 0 (fun _ => rfl) (Nat.zero_le _)
 rw [Nat.zero_add, Nat.zero_add] at hread
 rw [Nat.zero_add] at hweight
 obtain ⟨hpos, hnext⟩ : 0 < j ∧ maxWeight < ((part.take (j + 1)).map (runWeigh letters part)).sum := by
  cases hmore with
  | inl hwhole =>
   rw [hwhole, take_length] at hweight
   exact absurd hheavy hweight.not_gt
  | inr hmore => rwa [Nat.zero_add, Nat.zero_add] at hmore
 have hlen : part.length ≤ run.length := hpart ▸ length_take_le' _ run
 have hjlt : j < part.length := by
  refine lt_of_le_of_ne hj fun hwhole => ?_
  rw [hwhole, take_length] at hweight
  exact absurd hheavy hweight.not_gt
 have hcut : run.take j = part.take j := by
  have hjmax : j ≤ maxWeight + 1 := by
   rw [← hpart, length_take] at hj
   omega
  rw [← hpart, take_take, min_eq_left hjmax]
 refine ⟨j, _, hread, hj.trans hlen, hweight, ?_⟩
 have hne : part.take j ≠ [] := by
  rw [← length_pos_iff, length_take]
  omega
 have hin : ∀ c ∈ part.take j, inRun letters c = true := fun c hc => hrun c (mem_of_mem_take (hcut ▸ hc))
 have halone : runWeigh letters (part.take j) = runWeigh letters part → Weighs (run.take j) ((part.take j).map (runWeigh letters part)).sum := by
  intro hsame
  have hweighs : Weighs (part.take j ++ []) (runWeight letters (part.take j) + 0) :=
   .run hne hin (fun c hc => absurd hc (Option.not_mem_none c)) .nil
  rw [append_nil, Nat.add_zero, runWeight, hsame] at hweighs
  exact hcut ▸ hweighs
 cases letters with
 | false => exact .inl (halone rfl)
 | true =>
  cases hspelled : isSpelled part with
  | true =>
   have hpartSpelled := isSpelled_part (take_subset j part) (by omega) hspelled
   exact .inl (halone (runWeigh_spelled (hpartSpelled.trans hspelled.symm)))
  | false =>
   cases hcutSpelled : isSpelled (part.take j) with
   | false => exact .inl (halone (runWeigh_spelled (hcutSpelled.trans hspelled.symm)))
   | true =>
    -- each letter of the part weighs one, so it was cut where the weight is reached
    rw [sum_plain hspelled, length_take] at hweight hnext
    have hj : j = maxWeight := by omega
    have htake : (run ++ rest).takeWhile isAsciiLetter = run := takeWhile_run hrun hend
    rw [hj] at hcut hcutSpelled
    refine .inr ⟨hj, ?_⟩
    rw [SpelledCut, htake, hcut, hpart]
    exact ⟨by omega, hcutSpelled, hspelled⟩

theorem head_take {p : UInt8 → Bool} (h : ∀ c ∈ a.head?, p c = false) (j : ℕ) : ∀ c ∈ (a.take j).head?, p c = false := by
 intro c hc
 rw [head?_take] at hc
 split_ifs at hc
 · cases hc
 · exact h c hc

/-- What is measured to fit from here on weighs what it is measured to weigh, but for a first word cut so. -/
def Measured (maxWeight i total : ℕ) (s : Bytes) : Prop :=
 ∃ j v, spokenFrom maxWeight i total s = (i + j, total + v) ∧ j ≤ s.length ∧ total + v ≤ maxWeight ∧
  (Weighs (s.take j) v ∨ i = 0 ∧ j = maxWeight ∧ SpelledCut maxWeight s)

theorem Measured.stay {total : ℕ} (hle : total ≤ maxWeight) (hread : spokenFrom maxWeight i total s = (i, total)) :
  Measured maxWeight i total s :=
 ⟨0, 0, hread, Nat.zero_le _, hle, .inl .nil⟩

theorem spokenFrom_full {total : ℕ} (hfull : ¬ (i = 0 ∨ total < maxWeight)) (s : Bytes) :
  spokenFrom maxWeight i total s = (i, total) := by
 cases s with
 | nil => rw [spokenFrom]
 | cons c s => rw [spokenFrom, if_pos hfull]

theorem Weighs.measured (hmax : kPictureWeight ≤ maxWeight) {w : ℕ} (h : Weighs s w) : ∀ i total,
  (i = 0 → total = 0) → total ≤ maxWeight → Measured maxWeight i total s := by
 induction h with
 | nil => exact fun i total _ hle => .stay hle (by rw [spokenFrom])
 | @run letters run rest w hne hrun hend hrest ih =>
  intro i total hfirst hle
  by_cases hgo : i = 0 ∨ total < maxWeight
  · have hread := spokenFrom_run hne hrun hend hgo rfl
    by_cases hfits : runWeight letters (run.take (maxWeight - total + 1)) ≤ maxWeight - total
    · have hwhole : run.take (maxWeight - total + 1) = run := by
       have hlen := length_le_runWeight letters (run.take (maxWeight - total + 1))
       rw [length_take] at hlen
       exact take_of_length_le (by omega)
      have hpos := length_pos_iff.mpr hne
      rw [if_pos hfits, hwhole, drop_left] at hread
      rw [hwhole] at hfits
      obtain ⟨j, v, hrest, hj, hv, hcase⟩ := ih (i + run.length) (total + runWeight letters run) (by omega) (by omega)
      refine ⟨run.length + j, runWeight letters run + v, ?_, ?_, by omega, .inl ?_⟩
      · rw [hread, hrest]
        exact Prod.ext (Nat.add_assoc _ _ _) (Nat.add_assoc _ _ _)
      · rw [length_append]
        omega
      · obtain hweighs | hcut := hcase
        · rw [take_length_add_append]
          exact .run hne hrun (head_take hend j) hweighs
        · omega
    · rw [if_neg hfits] at hread
      by_cases hi : i = 0
      · subst hi
        rw [hfirst rfl] at hread hfits ⊢
        obtain ⟨j, v, hheavy, hj, hv, hcase⟩ := heavy_weighs hmax hrun hend rfl (not_le.mp hfits)
        refine ⟨j, v, ?_, ?_, by omega, ?_⟩
        · rw [Nat.zero_add, Nat.zero_add, hread, if_pos rfl]
          exact hheavy
        · rw [length_append]
          omega
        · rw [take_append_of_le_length hj]
          exact hcase.imp_right fun hcut => ⟨rfl, hcut⟩
      · rw [if_neg hi] at hread
        exact .stay hle hread
  · exact .stay hle (spokenFrom_full hgo _)
 | @character c tail rest v w hletter hdigit hweight _ ih =>
  intro i total hfirst hle
  by_cases hgo : i = 0 ∨ total < maxWeight
  · have hread := spokenFrom_character hletter hdigit (hweight rest) hgo
    by_cases hheavy : 0 < i ∧ maxWeight < total + v
    · rw [if_pos hheavy] at hread
      exact .stay hle hread
    · rw [if_neg hheavy] at hread
      have hlight := (characterWeight_bounds c (tail ++ rest)).2
      rw [hweight] at hlight
      obtain ⟨j, u, hrest, hj, hu, hcase⟩ := ih (i + (tail.length + 1)) (total + v) (by omega) (by omega)
      refine ⟨tail.length + 1 + j, v + u, ?_, ?_, by omega, .inl ?_⟩
      · rw [hread, hrest]
        exact Prod.ext (Nat.add_assoc _ _ _) (Nat.add_assoc _ _ _)
      · rw [length_cons, length_append]
        omega
      · obtain hweighs | hcut := hcase
        · rw [Nat.add_right_comm, take_succ_cons, take_length_add_append]
          exact .character hletter hdigit hweight hweighs
        · omega
  · exact .stay hle (spokenFrom_full hgo _)

theorem spokenPrefix_weighs (hmax : kPictureWeight ≤ maxWeight) (hv : Valid s) :
  (spokenPrefix s maxWeight).2 ≤ maxWeight ∧ (Weighs (s.take (spokenPrefix s maxWeight).1) (spokenPrefix s maxWeight).2 ∨
   (spokenPrefix s maxWeight).1 = maxWeight ∧ SpelledCut maxWeight s) := by
 obtain ⟨w, hw⟩ := exists_weighs hv
 obtain ⟨j, v, hread, -, hle, hcase⟩ := hw.measured hmax 0 0 (fun _ => rfl) (Nat.zero_le _)
 rw [Nat.zero_add, Nat.zero_add] at hread
 rw [Nat.zero_add] at hle
 rw [spokenPrefix, hread]
 exact ⟨hle, hcase.imp_right And.right⟩

theorem spokenPrefix_spelledCut (hmax : kPictureWeight ≤ maxWeight) (h : SpelledCut maxWeight s) :
  spokenPrefix s maxWeight = (maxWeight, maxWeight) := by
 obtain ⟨hlong, -, hplain⟩ := h
 have hparts : s.takeWhile isAsciiLetter ++ s.dropWhile isAsciiLetter = s := takeWhile_append_dropWhile
 have hrun : ∀ c ∈ s.takeWhile isAsciiLetter, inRun true c = true := fun c hc => mem_takeWhile_imp hc
 have hend : ∀ c ∈ (s.dropWhile isAsciiLetter).head?, inRun true c = false := by
  intro c hc
  have hstop := head?_dropWhile_not isAsciiLetter s
  rw [hc] at hstop
  exact hstop
 generalize s.takeWhile isAsciiLetter = run at *
 have hne : run ≠ [] := by
  rw [← length_pos_iff]
  omega
 have hread := @spokenFrom_run true run (s.dropWhile isAsciiLetter) hne hrun hend maxWeight 0 0 (.inl rfl) _ rfl
 rw [Nat.sub_zero, hparts] at hread
 have hlen : (run.take (maxWeight + 1)).length = maxWeight + 1 := by
  rw [length_take]
  omega
 have hweight : runWeight true (run.take (maxWeight + 1)) = maxWeight + 1 := by rw [runWeight, sum_plain hplain, hlen]
 rw [hweight, if_neg (by omega), if_pos rfl] at hread
 obtain ⟨j, hj, hheavy, hle, hmore⟩ := takeHeavy_eq (fun c => (runWeigh_bounds true (run.take (maxWeight + 1)) c).2.trans hmax)
  (run.take (maxWeight + 1)) 0 0 (fun _ => rfl) (Nat.zero_le _)
 simp only [sum_plain hplain, length_take, hlen, Nat.zero_add] at hheavy hle hmore
 rw [spokenPrefix, hread, hheavy]
 have hj' : j = maxWeight := by omega
 exact Prod.ext hj' (by dsimp only; omega)

end MoltBrowser.Voice
