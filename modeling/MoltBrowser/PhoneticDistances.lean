import MoltBrowser.BandedEdits
import MoltBrowser.PhoneticKeys

set_option autoImplicit false

/-! # The distance of two keys is that of their cheapest edit near the diagonal -/
namespace MoltBrowser.ConfirmationWords
open BandedEdits List

def kCosts : Costs ℕ where
 replace := substitutionCost
 delete := indelCost
 insert := indelCost

theorem min_comm_byte (x y : UInt8) : min x y = min y x := by
 change (if x ≤ y then x else y) = if y ≤ x then y else x
 split_ifs with hxy hyx hyx
 · exact UInt8.le_antisymm hxy hyx
 · rfl
 · rfl
 · exact absurd (UInt8.le_total x y) (not_or.mpr ⟨hxy, hyx⟩)

theorem max_comm_byte (x y : UInt8) : max x y = max y x := by
 change (if x ≤ y then y else x) = if y ≤ x then x else y
 split_ifs with hxy hyx hyx
 · exact UInt8.le_antisymm hyx hxy
 · rfl
 · rfl
 · exact absurd (UInt8.le_total x y) (not_or.mpr ⟨hxy, hyx⟩)

theorem closeClasses_comm (x y : UInt8) : closeClasses x y = closeClasses y x := by
 rw [closeClasses, closeClasses, min_comm_byte, max_comm_byte]

theorem substitutionCost_comm (i j : ℕ) : substitutionCost i j = substitutionCost j i := by
 have hclose : (i < kClasses.length ∧ j < kClasses.length ∧ closeClasses (kClasses.getD i 0) (kClasses.getD j 0) = true) ↔
   (j < kClasses.length ∧ i < kClasses.length ∧ closeClasses (kClasses.getD j 0) (kClasses.getD i 0) = true) := by
  rw [closeClasses_comm, and_left_comm]
 rw [substitutionCost, substitutionCost]
 exact if_congr eq_comm rfl (if_congr hclose rfl rfl)

theorem kCosts_symmetric : kCosts.Symmetric := ⟨substitutionCost_comm, fun _ => rfl⟩

/-! ## The rows -/

variable {band tooFar : ℕ} {xs ys : List ℕ}

structure RowRight (band tooFar : ℕ) (xs ys : List ℕ) (row : List ℕ) : Prop where
 length : row.length = ys.length + 2
 cells : ∀ j ≤ ys.length, Near (band + 1) xs (ys.take j) → IsCell kCosts band tooFar xs (ys.take j) (row.getD j 0)

variable {j : ℕ}

theorem near_take (hj : j ≤ ys.length) : Near band xs (ys.take j) ↔ xs.length ≤ j + band ∧ j ≤ xs.length + band := by
 rw [Near, length_take, min_eq_left hj]

theorem getD_set_self {row : List ℕ} {v : ℕ} (h : j < row.length) : (row.set j v).getD j 0 = v := by
 rw [getD_eq_getElem?_getD, getElem?_set_self h]
 rfl

theorem getD_set_other {row : List ℕ} {k v : ℕ} (h : j ≠ k) : (row.set j v).getD k 0 = row.getD k 0 := by
 rw [getD_eq_getElem?_getD, getElem?_set_ne h, ← getD_eq_getElem?_getD]

theorem take_succ_getD (hj : j < ys.length) : ys.take (j + 1) = ys.take j ++ [ys.getD j 0] := by
 rw [take_add_one, getD_eq_getElem?_getD, getElem?_eq_getElem hj]
 rfl

/-- A row while it is filled: its cells before `k`, and a least one of those in the band. -/
structure Filling (band tooFar : ℕ) (xs ys : List ℕ) (k : ℕ) (row : List ℕ × ℕ) : Prop where
 length : row.1.length = ys.length + 2
 cells : ∀ j < k, Near (band + 1) xs (ys.take j) → IsCell kCosts band tooFar xs (ys.take j) (row.1.getD j 0)
 best : ∀ j < k, Near band xs (ys.take j) → row.2 ≤ row.1.getD j 0

variable {x : ℕ} {previous : List ℕ}

theorem Filling.cell {row : List ℕ × ℕ} (hj : j < ys.length)
  (hnear : Near band (xs ++ [x]) (ys.take (j + 1))) (hprevious : RowRight band tooFar xs ys previous)
  (h : Filling band tooFar (xs ++ [x]) ys (j + 1) row) :
  Filling band tooFar (xs ++ [x]) ys (j + 2) (distanceCell tooFar x ys previous row (j + 1)) := by
 have hbounds := (near_take hj).mp hnear
 rw [length_append, length_singleton] at hbounds
 have hreplaced := hprevious.cells j hj.le ((near_take hj.le).mpr ⟨by omega, by omega⟩)
 have hdeleted := hprevious.cells (j + 1) hj ((near_take hj).mpr ⟨by omega, by omega⟩)
 have hinserted := h.cells j (Nat.lt_succ_self j)
  ((near_take hj.le).mpr (by rw [length_append, length_singleton]; omega))
 rw [take_succ_getD hj] at hdeleted hnear
 have hcell := isCell_step hnear hreplaced hdeleted hinserted
 rw [← take_succ_getD hj] at hcell
 have hroom : j + 1 < row.1.length := by
  rw [h.length]
  omega
 rw [distanceCell]
 refine ⟨?_, fun k hk hk' => ?_, fun k hk hk' => ?_⟩
 · rw [List.length_set]
   exact h.length
 · cases (Nat.le_of_lt_succ hk).lt_or_eq with
   | inl hlt =>
    rw [getD_set_other hlt.ne']
    exact h.cells k hlt hk'
   | inr heq =>
    subst heq
    rw [getD_set_self hroom]
    exact hcell
 · cases (Nat.le_of_lt_succ hk).lt_or_eq with
   | inl hlt =>
    rw [getD_set_other hlt.ne']
    exact (min_le_left _ _).trans (h.best k hlt hk')
   | inr heq =>
    subst heq
    rw [getD_set_self hroom]
    exact min_le_right _ _

theorem Filling.cells_to (hprevious : RowRight band tooFar xs ys previous) (count : ℕ) :
  ∀ (k : ℕ) (row : List ℕ × ℕ), 1 ≤ k → k + count ≤ ys.length + 1 → k + count ≤ xs.length + band + 2 →
   xs.length + 1 ≤ k + band → Filling band tooFar (xs ++ [x]) ys k row →
   Filling band tooFar (xs ++ [x]) ys (k + count) ((List.range' k count).foldl (distanceCell tooFar x ys previous) row) := by
 induction count with
 | zero => exact fun _ _ _ _ _ _ h => h
 | succ count ih =>
  intro k row hk hlast hright hleft h
  obtain ⟨j, rfl⟩ := Nat.exists_eq_add_of_le' hk
  have hj : j < ys.length := by omega
  have hnear : Near band (xs ++ [x]) (ys.take (j + 1)) :=
   (near_take hj).mpr (by rw [length_append, length_singleton]; omega)
  rw [range'_succ, foldl_cons, ← Nat.add_assoc, Nat.add_right_comm]
  exact ih (j + 2) _ (by omega) (by omega) (by omega) (by omega) (h.cell hj hnear hprevious)

/-- The cell before the first that is filled: what deleting all costs, or one that is too far. -/
theorem filling_first {current : List ℕ} (hprevious : RowRight band tooFar xs ys previous)
  (hcurrent : current.length = ys.length + 2) (hin : xs.length + 1 ≤ ys.length + band) :
  Filling band tooFar (xs ++ [x]) ys (max 1 (xs.length + 1 - band))
   (if xs.length + 1 - band = 0 then
    (current.set 0 (min tooFar (previous.getD 0 0 + indelCost x)), min tooFar (previous.getD 0 0 + indelCost x))
   else (current.set (xs.length + 1 - band - 1) tooFar, tooFar)) := by
 split_ifs with hlo
 · have hzero : ∀ j < max 1 (xs.length + 1 - band), j = 0 := by omega
   have hcell := hprevious.cells 0 (Nat.zero_le _) ((near_take (Nat.zero_le _)).mpr ⟨by omega, by omega⟩)
   rw [take_zero] at hcell
   have hnear : Near band (xs ++ [x]) ([] : List ℕ) := by
    rw [Near, length_append, length_singleton, length_nil]
    omega
   have hroom : 0 < current.length := by omega
   refine ⟨?_, fun j hj _ => ?_, fun j hj _ => ?_⟩
   · rw [List.length_set]
     exact hcurrent
   · obtain rfl := hzero j hj
     rw [getD_set_self hroom, take_zero]
     exact isCell_delete hnear hcell
   · obtain rfl := hzero j hj
     rw [getD_set_self hroom]
 · refine ⟨?_, fun j hj hnear => ?_, fun j hj hnear => ?_⟩
   · rw [List.length_set]
     exact hcurrent
   · have hj' := (near_take (show j ≤ ys.length by omega)).mp hnear
     rw [length_append, length_singleton] at hj'
     obtain rfl : xs.length + 1 - band - 1 = j := by omega
     rw [getD_set_self (by omega)]
     refine isCell_far fun hclose => ?_
     have hclose' := (near_take (show xs.length + 1 - band - 1 ≤ ys.length by omega)).mp hclose
     rw [length_append, length_singleton] at hclose'
     omega
   · have hj' := (near_take (show j ≤ ys.length by omega)).mp hnear
     rw [length_append, length_singleton] at hj'
     omega

theorem rowRight_of_filling {row : List ℕ × ℕ} (h : Filling band tooFar xs ys (min ys.length (xs.length + band) + 1) row) :
  RowRight band tooFar xs ys
   (if min ys.length (xs.length + band) + 1 ≤ ys.length then row.1.set (min ys.length (xs.length + band) + 1) tooFar else row.1) := by
 split_ifs with hlast
 · refine ⟨?_, fun j hj hnear => ?_⟩
   · rw [List.length_set]
     exact h.length
   · have hj' := (near_take hj).mp hnear
     cases (show j < min ys.length (xs.length + band) + 1 ∨ min ys.length (xs.length + band) + 1 = j by omega) with
     | inl hlt =>
      rw [getD_set_other hlt.ne']
      exact h.cells j hlt hnear
     | inr heq =>
      rw [heq, getD_set_self (by rw [h.length]; omega)]
      refine isCell_far fun hclose => ?_
      have hclose' := (near_take hj).mp hclose
      omega
 · exact ⟨h.length, fun j hj hnear => h.cells j (by omega) hnear⟩

theorem distanceRows_isCell (rest : List ℕ) : ∀ {xs previous current : List ℕ}, Near band (xs ++ rest) ys →
  RowRight band tooFar xs ys previous → current.length = ys.length + 2 →
  IsCell kCosts band tooFar (xs ++ rest) ys (distanceRows tooFar band ys (xs.length + 1) rest previous current) := by
 induction rest with
 | nil =>
  intro xs previous current hnear hprevious _
  rw [append_nil] at hnear ⊢
  have hcell := hprevious.cells ys.length le_rfl (by
   rw [take_length]
   exact ⟨hnear.1.trans (by omega), hnear.2.trans (by omega)⟩)
  rw [take_length] at hcell
  rw [distanceRows, min_eq_left hcell.capped]
  exact hcell
 | cons x rest ih =>
  intro xs previous current hnear hprevious hcurrent
  have hin : xs.length + 1 ≤ ys.length + band := by
   have hlen := hnear.1
   rw [length_append, length_cons] at hlen
   omega
  have hfilled := Filling.cells_to hprevious (min ys.length (xs.length + 1 + band) + 1 - max 1 (xs.length + 1 - band)) _ _
   (le_max_left _ _) (by omega) (by omega) (by omega) (filling_first hprevious hcurrent hin (x := x))
  rw [show max 1 (xs.length + 1 - band) + (min ys.length (xs.length + 1 + band) + 1 - max 1 (xs.length + 1 - band)) =
   min ys.length (xs.length + 1 + band) + 1 by omega] at hfilled
  have hlen : (xs ++ [x]).length = xs.length + 1 := length_append
  rw [← hlen] at hfilled
  rw [append_cons] at hnear ⊢
  rw [distanceRows, ← hlen]
  have hnext : ∀ row : List ℕ × ℕ, Filling band tooFar (xs ++ [x]) ys (min ys.length ((xs ++ [x]).length + band) + 1) row →
    IsCell kCosts band tooFar (xs ++ [x] ++ rest) ys
     (if tooFar ≤ row.2 then tooFar
     else
      distanceRows tooFar band ys ((xs ++ [x]).length + 1) rest
       (if min ys.length ((xs ++ [x]).length + band) + 1 ≤ ys.length then
        row.1.set (min ys.length ((xs ++ [x]).length + band) + 1) tooFar
       else row.1)
       previous) := by
   intro row hrow
   by_cases hbest : tooFar ≤ row.2
   · -- every cell of the row is too far
     rw [if_pos hbest]
     refine isCell_after_row fun j hj hnearj => ?_
     have hj' := (near_take hj).mp hnearj
     have hlast : j < min ys.length ((xs ++ [x]).length + band) + 1 := by omega
     have hcell := hrow.cells j hlast ((near_take hj).mpr ⟨by omega, by omega⟩)
     have hfar := hbest.trans (hrow.best j hlast hnearj)
     rwa [le_antisymm hcell.capped hfar] at hcell
   · rw [if_neg hbest]
     exact ih hnear (rowRight_of_filling hrow) hprevious.length
  exact hnext _ hfilled

theorem firstRow_right (band tooFar : ℕ) (ys : List ℕ) : RowRight band tooFar [] ys (firstRow tooFar band ys) := by
 have hfold : ∀ count ≤ min ys.length band, ∀ row, (List.range' 1 count).foldl
   (fun row j => row.set j (min tooFar (row.getD (j - 1) 0 + indelCost (ys.getD (j - 1) 0))))
   ((List.replicate (ys.length + 2) tooFar).set 0 0) = row →
   row.length = ys.length + 2 ∧ (∀ j ≤ count, IsCell kCosts band tooFar [] (ys.take j) (row.getD j 0)) ∧
    ∀ j, count < j → j < ys.length + 2 → row.getD j 0 = tooFar := by
  intro count
  induction count with
  | zero =>
   rintro - row rfl
   refine ⟨?_, fun j hj => ?_, fun j hj hroom => ?_⟩
   · rw [range'_zero, foldl_nil, List.length_set, length_replicate]
   · obtain rfl := Nat.le_zero.mp hj
     rw [range'_zero, foldl_nil, getD_set_self (by rw [length_replicate]; omega), take_zero]
     exact isCell_nil
   · rw [range'_zero, foldl_nil, getD_set_other hj.ne, getD_replicate _ hroom]
  | succ count ih =>
   rintro hcount row rfl
   obtain ⟨hlen, hcells, hfar⟩ := ih (by omega) _ rfl
   rw [range'_concat, foldl_append, foldl_cons, foldl_nil, Nat.one_mul, Nat.add_comm 1 count, Nat.add_sub_cancel]
   have hroom : count < ys.length := by omega
   refine ⟨?_, fun j hj => ?_, fun j hj hroomj => ?_⟩
   · rw [List.length_set]
     exact hlen
   · cases hj.lt_or_eq with
     | inl hlt =>
      rw [getD_set_other (by omega)]
      exact hcells j (by omega)
     | inr heq =>
      subst heq
      rw [getD_set_self (by rw [hlen]; omega), take_succ_getD hroom]
      refine isCell_insert ⟨Nat.zero_le _, ?_⟩ (hcells count le_rfl)
      rw [length_append, length_take, length_singleton, length_nil]
      omega
   · rw [getD_set_other (by omega)]
     exact hfar j (by omega) hroomj
 obtain ⟨hlen, hcells, hfar⟩ := hfold (min ys.length band) le_rfl _ rfl
 refine ⟨hlen, fun j hj hnear => ?_⟩
 cases Nat.lt_or_ge (min ys.length band) j with
 | inr hle => exact hcells j hle
 | inl hlt =>
  have hvalue : (firstRow tooFar band ys).getD j 0 = tooFar := hfar j hlt (by omega)
  rw [hvalue]
  refine isCell_far fun hclose => ?_
  have hj' := (near_take hj).mp hclose
  rw [length_nil] at hj'
  omega

/-! ## The distance -/

def classes (key : Bytes) : List ℕ := key.map classOf

def soundDistance (a b : Bytes) : ℕ := editDistance kCosts (classes a) (classes b)

theorem replace_self (s : List ℕ) : ∃ e, Edits s s e ∧ kCosts.cost e = 0 := by
 induction s with
 | nil => exact ⟨[], .nil, rfl⟩
 | cons x s ih =>
  obtain ⟨e, he, hcost⟩ := ih
  refine ⟨.replace x x :: e, ⟨congrArg (x :: ·) he.source_eq, congrArg (x :: ·) he.target_eq⟩, ?_⟩
  rw [cost_cons, hcost]
  exact if_pos rfl

theorem classOf_lt (c : UInt8) : classOf c < 14 := by
 rw [classOf]
 cases hclass : kClasses.idxOf? c with
 | none => exact (by decide : kOtherClass < 14)
 | some k =>
  rw [List.idxOf?, findIdx?_eq_some_iff_getElem] at hclass
  exact hclass.1.trans (by decide : kClasses.length < 14)

theorem indelCost_pos : ∀ k < 14, 1 ≤ indelCost k := by decide

theorem classes_cost {key : Bytes} : ∀ x ∈ classes key, 1 ≤ indelCost x := by
 intro x hx
 obtain ⟨c, -, rfl⟩ := mem_map.mp hx
 exact indelCost_pos _ (classOf_lt c)

variable {a b : Bytes} {s : List (Edit ℕ)}

theorem within_cost (hs : Edits (classes a) (classes b) s) : Within (kCosts.cost s) s :=
 within_of_cost (hs.source_eq.symm ▸ classes_cost) (hs.target_eq.symm ▸ classes_cost) le_rfl

variable {bound : ℕ}

theorem phoneticDistance_isCell (hbound : bound ≤ 2 * kMaxPhoneticBand) (ha : a.length ≤ kMaxComparedKey)
  (hb : b.length ≤ kMaxComparedKey) :
  IsCell kCosts (min bound kMaxPhoneticBand) (bound + 1) (classes a) (classes b) (phoneticDistance a b bound) := by
 have hlen : ∀ key : Bytes, (classes key).length = key.length := fun key => length_map classOf
 rw [phoneticDistance, min_eq_left hbound]
 dsimp only
 split_ifs with heq hlong hfar
 · subst heq
   obtain ⟨e, he, hcost⟩ := replace_self (classes a)
   refine ⟨Nat.zero_le _, fun _ _ _ => Nat.zero_le _, .inr ⟨e, he, (within_cost he).mono ?_, hcost⟩⟩
   rw [hcost]
   exact Nat.zero_le _
 · omega
 · refine isCell_far fun hnear => ?_
   rw [Near, hlen, hlen] at hnear
   omega
 · have hnear : Near (min bound kMaxPhoneticBand) ([] ++ classes a) (classes b) := by
    rw [nil_append, Near, hlen, hlen]
    omega
   exact distanceRows_isCell (classes a) hnear (firstRow_right _ _ _) length_replicate

theorem phoneticDistance_symm (hbound : bound ≤ 2 * kMaxPhoneticBand) (ha : a.length ≤ kMaxComparedKey)
  (hb : b.length ≤ kMaxComparedKey) : phoneticDistance a b bound = phoneticDistance b a bound :=
 (phoneticDistance_isCell hbound ha hb).unique ((phoneticDistance_isCell hbound hb ha).swap kCosts_symmetric)

structure DistanceRight (a b : Bytes) (bound : ℕ) : Prop where
 cheapest : phoneticDistance a b bound = min (bound + 1) (soundDistance a b)
 symmetric : phoneticDistance a b bound = phoneticDistance b a bound

def BandCosts (a b : Bytes) : Set ℕ := {d | ∃ s, Edits (classes a) (classes b) s ∧ Within kMaxPhoneticBand s ∧ kCosts.cost s = d}

def CheapestNear (a b : Bytes) (bound : ℕ) : Prop := bound < soundDistance a b ∨ soundDistance a b ∈ BandCosts a b

/-- The distance inside the diagonal band: where the band is as wide as the bound it is the unbounded one. -/
structure DistanceBanded (a b : Bytes) (bound : ℕ) : Prop where
 least : IsLeast (insert (bound + 1) (BandCosts a b)) (phoneticDistance a b bound)
 symmetric : phoneticDistance a b bound = phoneticDistance b a bound
 unbounded : phoneticDistance a b bound = min (bound + 1) (soundDistance a b) ↔ CheapestNear a b bound
 narrow : bound ≤ kMaxPhoneticBand → phoneticDistance a b bound = min (bound + 1) (soundDistance a b)

theorem within_band (hs : Edits (classes a) (classes b) s) (hcost : kCosts.cost s ≤ bound)
  (hwithin : Within kMaxPhoneticBand s) : Within (min bound kMaxPhoneticBand) s := by
 cases min_choice bound kMaxPhoneticBand with
 | inl hmin => exact hmin.symm ▸ (within_cost hs).mono hcost
 | inr hmin => exact hmin.symm ▸ hwithin

theorem phoneticDistance_least (hbound : bound ≤ 2 * kMaxPhoneticBand) (ha : a.length ≤ kMaxComparedKey)
  (hb : b.length ≤ kMaxComparedKey) : IsLeast (insert (bound + 1) (BandCosts a b)) (phoneticDistance a b bound) := by
 have hcell := phoneticDistance_isCell hbound ha hb
 refine ⟨?_, fun d hd => ?_⟩
 · cases hcell.attained with
   | inl heq => exact .inl heq
   | inr hs =>
    obtain ⟨s, hs, hwithin, hcost⟩ := hs
    exact .inr ⟨s, hs, hwithin.mono (min_le_right _ _), hcost⟩
 · cases hd with
   | inl heq => exact heq.symm ▸ hcell.capped
   | inr hs =>
    obtain ⟨s, hs, hwithin, rfl⟩ := hs
    cases Nat.lt_or_ge bound (kCosts.cost s) with
    | inl hfar => exact hcell.capped.trans hfar
    | inr hnear => exact hcell.lower s hs (within_band hs hnear hwithin)

theorem soundDistance_le (hs : Edits (classes a) (classes b) s) : soundDistance a b ≤ kCosts.cost s :=
 (editDistance_isLeast kCosts (classes a) (classes b)).2 ⟨s, hs, rfl⟩

theorem cheapest_of_near (hbound : bound ≤ 2 * kMaxPhoneticBand) (ha : a.length ≤ kMaxComparedKey)
  (hb : b.length ≤ kMaxComparedKey) (h : CheapestNear a b bound) : phoneticDistance a b bound = min (bound + 1) (soundDistance a b) := by
 have hleast := phoneticDistance_least hbound ha hb
 cases Nat.lt_or_ge bound (soundDistance a b) with
 | inl hfar =>
  rw [min_eq_left hfar]
  cases hleast.1 with
  | inl heq => exact heq
  | inr hs =>
   obtain ⟨s, hs, -, hcost⟩ := hs
   exact le_antisymm (hleast.2 (Set.mem_insert _ _)) (hfar.trans_le (hcost ▸ soundDistance_le hs))
 | inr hnear =>
  have hle := hleast.2 (Set.mem_insert_of_mem _ (h.resolve_left hnear.not_gt))
  rw [min_eq_right (hnear.trans (Nat.le_succ _))]
  cases hleast.1 with
  | inl heq => omega
  | inr hs =>
   obtain ⟨s, hs, -, hcost⟩ := hs
   exact le_antisymm hle (hcost ▸ soundDistance_le hs)

theorem near_of_cheapest (hbound : bound ≤ 2 * kMaxPhoneticBand) (ha : a.length ≤ kMaxComparedKey)
  (hb : b.length ≤ kMaxComparedKey) (h : phoneticDistance a b bound = min (bound + 1) (soundDistance a b)) : CheapestNear a b bound := by
 cases Nat.lt_or_ge bound (soundDistance a b) with
 | inl hfar => exact .inl hfar
 | inr hnear =>
  rw [min_eq_right (hnear.trans (Nat.le_succ _))] at h
  cases (phoneticDistance_least hbound ha hb).1 with
  | inl heq => omega
  | inr hband => exact .inr (h ▸ hband)

theorem near_of_narrow (hnarrow : bound ≤ kMaxPhoneticBand) : CheapestNear a b bound := by
 cases Nat.lt_or_ge bound (soundDistance a b) with
 | inl hfar => exact .inl hfar
 | inr hnear =>
  obtain ⟨s, hs, hcost⟩ := (editDistance_isLeast kCosts (classes a) (classes b)).1
  exact .inr ⟨s, hs, (within_cost hs).mono ((hcost.trans_le hnear).trans hnarrow), hcost⟩

/-- The distance is that of the cheapest edit in the widest band, and symmetric; the unbounded one just where a cheapest edit keeps to
that band or none is within the bound. -/
theorem distanceBanded {a b : Bytes} {bound : ℕ} (hbound : bound ≤ 2 * kMaxPhoneticBand) (ha : a.length ≤ kMaxComparedKey)
  (hb : b.length ≤ kMaxComparedKey) : DistanceBanded a b bound where
 least := phoneticDistance_least hbound ha hb
 symmetric := phoneticDistance_symm hbound ha hb
 unbounded := ⟨near_of_cheapest hbound ha hb, cheapest_of_near hbound ha hb⟩
 narrow hnarrow := cheapest_of_near hbound ha hb (near_of_narrow hnarrow)

def nineSounds : Bytes := utf8 "aWaWaWaWa"

theorem distanceBanded_nine : (16 ≤ 2 * kMaxPhoneticBand ∧ ([] : Bytes).length ≤ kMaxComparedKey ∧ nineSounds.length ≤ kMaxComparedKey) ∧
  DistanceBanded [] nineSounds 16 :=
 ⟨by decide, distanceBanded (by decide) (by decide) (by decide)⟩

theorem nine_not_right : ¬ ∀ (a b : Bytes) (bound : ℕ), bound ≤ 2 * kMaxPhoneticBand → a.length ≤ kMaxComparedKey →
  b.length ≤ kMaxComparedKey → DistanceRight a b bound := by
 intro hclaim
 have hright := (hclaim [] nineSounds 16 (by decide) (by decide) (by decide)).cheapest
 have hfar : phoneticDistance [] nineSounds 16 = 17 := by decide
 have hnear : soundDistance [] nineSounds ≤ 9 := by
  refine (editDistance_isLeast kCosts (classes []) (classes nineSounds)).2 ⟨(classes nineSounds).map .insert, ⟨rfl, ?_⟩, ?_⟩
  · decide
  · decide
 rw [hfar] at hright
 omega

end MoltBrowser.ConfirmationWords
