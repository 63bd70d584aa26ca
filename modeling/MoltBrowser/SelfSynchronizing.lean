import Mathlib

set_option autoImplicit false

/-!
# Texts of words that show where they begin

A word starts with a letter that no word has later on, so that a text of whole words can be
cut in two wherever such a letter stands.
-/
namespace MoltBrowser.SelfSynchronizing

variable {α : Type*} {lead : α → Prop} {word : List α → Prop}

inductive Text (word : List α → Prop) : List α → Prop
 | nil : Text word []
 | cons {w rest : List α} (hw : word w) (hrest : Text word rest) : Text word (w ++ rest)

structure Synchronizing (lead : α → Prop) (word : List α → Prop) : Prop where
 starts : ∀ {w}, word w → ∃ c rest, w = c :: rest ∧ lead c ∧ ∀ b ∈ rest, ¬ lead b

/-- Words may begin where `s` does: it is at its end or at a leading letter. -/
def AtStart (lead : α → Prop) (s : List α) : Prop := ∀ c ∈ s.head?, lead c

theorem Text.single {w : List α} (h : word w) : Text word w := by
 simpa using Text.cons h .nil

theorem Text.append {s t : List α} (hs : Text word s) (ht : Text word t) : Text word (s ++ t) := by
 induction hs with
 | nil => exact ht
 | cons hw _ ih =>
  rw [List.append_assoc]
  exact .cons hw ih

theorem Text.flatten {pieces : List (List α)} (h : ∀ s ∈ pieces, Text word s) :
  Text word pieces.flatten := by
 induction pieces with
 | nil => exact .nil
 | cons s pieces ih =>
  exact (h s (List.mem_cons_self ..)).append (ih fun t ht => h t (List.mem_cons_of_mem _ ht))

theorem atStart_append {s : List α} (h : AtStart lead s) (hs : s ≠ []) (t : List α) :
  AtStart lead (s ++ t) := by
 cases s with
 | nil => exact absurd rfl hs
 | cons c s => exact h

section Cut

variable (code : Synchronizing lead word)
include code

theorem Text.atStart {s : List α} (h : Text word s) : AtStart lead s := by
 cases h with
 | nil => simp [AtStart]
 | cons hw _ =>
  obtain ⟨c, rest, rfl, hc, -⟩ := code.starts hw
  simpa [AtStart] using hc

theorem Text.split {s t : List α} (h : Text word (s ++ t)) (ht : AtStart lead t) :
  Text word s ∧ Text word t := by
 generalize hst : s ++ t = u at h
 induction h generalizing s with
 | nil =>
  obtain ⟨rfl, rfl⟩ := List.append_eq_nil_iff.1 hst
  exact ⟨.nil, .nil⟩
 | @cons w rest hw hrest ih =>
  rcases List.append_eq_append_iff.1 hst with ⟨mid, hw', rfl⟩ | ⟨mid, rfl, hrest'⟩
  · obtain ⟨c, tail, rfl, hc, htail⟩ := code.starts hw
    cases s with
    | nil =>
     obtain rfl : c :: tail = mid := hw'
     exact ⟨.nil, .cons hw hrest⟩
    | cons b s =>
     obtain ⟨rfl, rfl⟩ := List.cons.inj hw'
     cases mid with
     | nil => exact ⟨by simpa using Text.single hw, hrest⟩
     | cons d mid => exact absurd (ht d (by simp)) (htail d (by simp))
  · obtain ⟨hmid, ht'⟩ := ih hrest'.symm
    exact ⟨.cons hw hmid, ht'⟩

end Cut

end MoltBrowser.SelfSynchronizing
