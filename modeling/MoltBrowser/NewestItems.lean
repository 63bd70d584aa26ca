import Mathlib

set_option autoImplicit false

/-!
# The newest items of a list of rows

Rows of items, oldest row first and each row's oldest item first, of which the
newest `max` items in all are kept: whole rows from the end, then the last items
of one row, then nothing.
-/
namespace MoltBrowser.NewestItems
open List

variable {α : Type*}

def newest (max : ℕ) : List (List α) → List (List α)
 | [] => []
 | row :: rows => row.rtake (max - (newest max rows).flatten.length) :: newest max rows

theorem rtake_of_length_le {l : List α} {n : ℕ} (h : l.length ≤ n) : l.rtake n = l := by
 rw [List.rtake, Nat.sub_eq_zero_of_le h, drop_zero]

theorem length_rtake (l : List α) (n : ℕ) : (l.rtake n).length = min n l.length := by
 rw [List.rtake, length_drop]
 omega

theorem rtake_append (l more : List α) (n : ℕ) :
  (l ++ more).rtake n = l.rtake (n - more.length) ++ more.rtake n := by
 rw [List.rtake, List.rtake, List.rtake, drop_append, length_append]
 have hmore : l.length + more.length - n - l.length = more.length - n := by omega
 rw [hmore]
 rcases Nat.le_total more.length n with h | h
 · congr 2
   omega
 · have hnone : n - more.length = 0 := by omega
   rw [hnone, Nat.sub_zero, drop_length, drop_eq_nil_of_le (by omega)]

theorem rtake_rtake (l : List α) (m n : ℕ) : (l.rtake m).rtake n = l.rtake (min m n) := by
 simp only [List.rtake, drop_drop, length_drop]
 congr 1
 omega

theorem flatten_newest (max : ℕ) (rows : List (List α)) :
  (newest max rows).flatten = rows.flatten.rtake max := by
 induction rows with
 | nil => simp [newest, List.rtake]
 | cons row rows ih =>
  rw [newest, flatten_cons, ih, flatten_cons, rtake_append, length_rtake]
  congr 1
  -- Full already, or the rows after are kept whole.
  rcases Nat.le_total max rows.flatten.length with h | h
  · rw [Nat.min_eq_left h, Nat.sub_self, Nat.sub_eq_zero_of_le h]
  · rw [Nat.min_eq_right h]

theorem length_flatten_newest (max : ℕ) (rows : List (List α)) :
  (newest max rows).flatten.length = min max rows.flatten.length := by
 rw [flatten_newest, length_rtake]

@[simp] theorem length_newest (max : ℕ) (rows : List (List α)) :
  (newest max rows).length = rows.length := by
 induction rows with
 | nil => rfl
 | cons row rows ih => simp [newest, ih]

theorem newest_suffix (max : ℕ) (rows : List (List α)) :
  List.Forall₂ (fun kept row => kept <:+ row) (newest max rows) rows := by
 induction rows with
 | nil => exact .nil
 | cons row rows ih => exact .cons (drop_suffix _ _) ih

theorem newest_drop (max k : ℕ) (rows : List (List α)) :
  (newest max rows).drop k = newest max (rows.drop k) := by
 induction rows generalizing k with
 | nil => simp [newest]
 | cons row rows ih =>
  cases k with
  | zero => rfl
  | succ k => exact ih k

theorem length_newest_append_ge (max : ℕ) (rows more : List (List α)) :
  min max rows.flatten.length ≤ min max (rows ++ more).flatten.length := by
 rw [flatten_append, length_append]
 omega

theorem newest_newest_append (max : ℕ) (rows more : List (List α)) :
  newest max (newest max rows ++ more) = newest max (rows ++ more) := by
 induction rows with
 | nil => rfl
 | cons row rows ih =>
  have hroom := length_newest_append_ge max rows more
  rw [cons_append, newest, newest, cons_append, newest, ih, rtake_rtake,
   length_flatten_newest, length_flatten_newest]
  congr 2
  omega

theorem newest_append_nil (max : ℕ) (rows : List (List α)) :
  newest max (rows ++ [[]]) = newest max rows ++ [[]] := by
 induction rows with
 | nil => simp [newest, List.rtake]
 | cons row rows ih =>
  rw [cons_append, newest, ih, newest, cons_append]
  simp

end MoltBrowser.NewestItems
