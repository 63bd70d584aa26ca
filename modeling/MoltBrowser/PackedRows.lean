import Mathlib

set_option autoImplicit false

/-!
# Rows packed one after another

Rows of `d` values kept in one list, read and overwritten in place; and a list of rows
turned round, so that the oldest is at the front.
-/
namespace MoltBrowser.PackedRows
open List

variable {α : Type*} {d : ℕ}

def row (d : ℕ) (flat : List α) (r : ℕ) : List α := (flat.drop (r * d)).take d

def writeRow (d : ℕ) (flat : List α) (r : ℕ) (x : List α) : List α :=
 flat.take (r * d) ++ x ++ flat.drop ((r + 1) * d)

variable {rows : List (List α)}

theorem drop_flatten (h : ∀ x ∈ rows, x.length = d) (r : ℕ) :
  rows.flatten.drop (r * d) = (rows.drop r).flatten := by
 induction r generalizing rows with
 | zero => simp
 | succ r ih =>
  cases rows with
  | nil => simp
  | cons x rows =>
   have hx := h x (mem_cons_self ..)
   rw [flatten_cons, drop_succ_cons, Nat.succ_mul, Nat.add_comm, ← hx,
    drop_length_add_append, hx]
   exact ih fun y hy => h y (mem_cons_of_mem _ hy)

theorem take_flatten (h : ∀ x ∈ rows, x.length = d) (r : ℕ) :
  rows.flatten.take (r * d) = (rows.take r).flatten := by
 induction r generalizing rows with
 | zero => simp
 | succ r ih =>
  cases rows with
  | nil => simp
  | cons x rows =>
   have hx := h x (mem_cons_self ..)
   rw [flatten_cons, take_succ_cons, flatten_cons, Nat.succ_mul, Nat.add_comm, ← hx,
    take_length_add_append, hx]
   exact congrArg (x ++ ·) (ih fun y hy => h y (mem_cons_of_mem _ hy))

theorem row_flatten (h : ∀ x ∈ rows, x.length = d) {r : ℕ} (hr : r < rows.length) :
  row d rows.flatten r = rows[r] := by
 rw [row, drop_flatten h, drop_eq_getElem_cons hr, flatten_cons,
  take_left' (h _ (getElem_mem hr))]

theorem writeRow_flatten (h : ∀ x ∈ rows, x.length = d) {r : ℕ}
  (hr : r < rows.length) (x : List α) : writeRow d rows.flatten r x = (rows.set r x).flatten := by
 rw [writeRow, take_flatten h, drop_flatten h, set_eq_take_append_cons_drop, if_pos hr,
  flatten_append, flatten_cons, append_assoc]

theorem rotate_set {xs : List α} {head : ℕ} (h : head < xs.length) (x : α) :
  (xs.set head x).rotate (head + 1) = (xs.rotate head).tail ++ [x] := by
 rw [rotate_eq_drop_append_take (by rw [List.length_set]; omega),
  rotate_eq_drop_append_take h.le, drop_eq_getElem_cons h, cons_append, tail_cons,
  drop_set_of_lt (by omega), append_assoc, take_set, take_add_one,
  getElem?_eq_getElem h, set_append_right _ _ (by rw [length_take]; omega)]
 congr 2
 simp [h.le]

end MoltBrowser.PackedRows
