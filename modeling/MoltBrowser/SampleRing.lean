import Mathlib

set_option autoImplicit false

/-!
# A ring of the newest values

A buffer of `size` cells written round and round. It holds the last `size` values
of everything written to it, the value at position `s` in cell `s % size`.
-/
namespace MoltBrowser.SampleRing

variable {α : Type*}

structure RingBuffer (α : Type*) where
 cells : ℕ → α
 next : ℕ := 0

def RingBuffer.push (size : ℕ) (r : RingBuffer α) (x : α) : RingBuffer α where
 cells := Function.update r.cells r.next x
 next := (r.next + 1) % size

def RingBuffer.remember (size : ℕ) (r : RingBuffer α) (written : List α) : RingBuffer α :=
 written.foldl (RingBuffer.push size) r

/-- The values at the positions from `first` up to `stop`. -/
def RingBuffer.recall (size : ℕ) (r : RingBuffer α) (first stop : ℕ) : List α :=
 (List.range' first (stop - first)).map fun s => r.cells (s % size)

/-- The ring after `written`, as far back as it goes. -/
structure Holds (size : ℕ) (r : RingBuffer α) (written : List α) : Prop where
 next : r.next = written.length % size
 cells : ∀ s (h : s < written.length), written.length ≤ s + size →
  r.cells (s % size) = written[s]

theorem holds_nil (size : ℕ) (cells : ℕ → α) : Holds size ⟨cells, 0⟩ [] :=
 ⟨by simp, fun _ h => absurd h (Nat.not_lt_zero _)⟩

theorem mod_ne_of_lt {size s n : ℕ} (hlt : s < n) (h : n < s + size) : s % size ≠ n % size := by
 intro heq
 have hd : size ∣ n - s := (Nat.modEq_iff_dvd' hlt.le).1 heq
 have := Nat.le_of_dvd (by omega) hd
 omega

theorem Holds.push {size : ℕ} {r : RingBuffer α} {written : List α} (h : Holds size r written) (x : α) :
  Holds size (r.push size x) (written ++ [x]) where
 next := by simp [RingBuffer.push, h.next, Nat.add_mod]
 cells s hs hsize := by
  simp only [List.length_append, List.length_singleton] at hs hsize
  rcases Nat.lt_or_ge s written.length with hlt | hge
  · have hne := mod_ne_of_lt hlt (by omega : written.length < s + size)
    have hold := h.cells s hlt (by omega)
    simp only [RingBuffer.push, h.next, Function.update_of_ne hne, hold, List.getElem_append_left hlt]
  · obtain rfl : s = written.length := by omega
    simp [RingBuffer.push, h.next]

theorem Holds.remember {size : ℕ} {r : RingBuffer α} {written : List α} (h : Holds size r written)
  (more : List α) : Holds size (r.remember size more) (written ++ more) := by
 induction more generalizing r written with
 | nil => simpa [RingBuffer.remember] using h
 | cons x more ih =>
  have hstep := ih (h.push x)
  rwa [List.append_assoc, List.singleton_append] at hstep

theorem Holds.recall {size first : ℕ} {r : RingBuffer α} {written : List α} (h : Holds size r written)
  (hsize : written.length ≤ first + size) :
  r.recall size first written.length = written.drop first := by
 refine List.ext_getElem (by simp [RingBuffer.recall]) fun i hi hi' => ?_
 simp only [RingBuffer.recall, List.length_map, List.length_range'] at hi
 simp only [RingBuffer.recall, List.getElem_map, List.getElem_range', List.getElem_drop, one_mul]
 exact h.cells (first + i) (by omega) (by omega)

end MoltBrowser.SampleRing
