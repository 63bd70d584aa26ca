import Mathlib

set_option autoImplicit false

/-!
# Marks inserted into a text

A mark is put after chosen letters of a text. If it is put after the first letter of every
occurrence of some words, none of them is left: a word neither begins nor ends inside a mark,
and has no room for a whole one.
-/
namespace MoltBrowser.InsertedMarks
open List

variable {α : Type*} {mark : List α}

def insertAfter (mark : List α) : List α → List Bool → List α
 | c :: text, chosen :: rest => c :: ((if chosen then mark else []) ++ insertAfter mark text rest)
 | text, _ => text

def cutAfter : List α → List Bool → List (List α)
 | c :: text, chosen :: rest =>
  if chosen then [c] :: cutAfter text rest
  else (cutAfter text rest).modifyHead (c :: ·)
 | text, _ => [text]

theorem cutAfter_ne_nil (text : List α) (chosen : List Bool) : cutAfter text chosen ≠ [] := by
 induction text generalizing chosen with
 | nil => exact cons_ne_nil _ _
 | cons c text ih =>
  cases chosen with
  | nil => exact cons_ne_nil _ _
  | cons b rest =>
   rw [cutAfter]
   split_ifs
   · exact cons_ne_nil _ _
   · rw [Ne, modifyHead_eq_nil_iff]
     exact ih rest

theorem flatten_cutAfter (text : List α) (chosen : List Bool) : (cutAfter text chosen).flatten = text := by
 induction text generalizing chosen with
 | nil => rfl
 | cons c text ih =>
  cases chosen with
  | nil => exact append_nil _
  | cons b rest =>
   have hmore := ih rest
   rw [cutAfter]
   split_ifs
   · rw [flatten_cons, hmore, singleton_append]
   · cases hcut : cutAfter text rest with
     | nil => exact absurd hcut (cutAfter_ne_nil text rest)
     | cons piece pieces =>
      rw [hcut, flatten_cons] at hmore
      rw [modifyHead_cons, flatten_cons, cons_append, hmore]

theorem intercalate_cutAfter (mark text : List α) (chosen : List Bool) :
  mark.intercalate (cutAfter text chosen) = insertAfter mark text chosen := by
 induction text generalizing chosen with
 | nil => simp [cutAfter, insertAfter]
 | cons c text ih =>
  cases chosen with
  | nil => simp [cutAfter, insertAfter]
  | cons b rest =>
   have hmore := ih rest
   rw [cutAfter, insertAfter]
   split_ifs
   · rw [intercalate_cons_of_ne_nil (cutAfter_ne_nil text rest), hmore]
     simp
   · cases hcut : cutAfter text rest with
     | nil => exact absurd hcut (cutAfter_ne_nil text rest)
     | cons piece pieces =>
      rw [hcut] at hmore
      rw [modifyHead_cons, intercalate_cons_cons_left, hmore]
      rfl

theorem insertAfter_none {text : List α} {chosen : List Bool} (h : true ∉ chosen) :
  insertAfter mark text chosen = text := by
 induction text generalizing chosen with
 | nil => rfl
 | cons c text ih =>
  cases chosen with
  | nil => rfl
  | cons b rest =>
   rw [mem_cons, not_or] at h
   rw [insertAfter, if_neg (Ne.symm h.1), nil_append, ih h.2]

/-- A word that can't overlap a mark without containing it, and is broken by one. -/
structure Unmarked (mark w : List α) : Prop where
 first : ∀ c ∈ w.head?, c ∉ mark
 last : ∀ c ∈ w.getLast?, c ∉ mark
 apart : ¬ mark <:+: w
 long : 2 ≤ w.length

section Words

variable {w text : List α} {chosen : List Bool}

theorem not_prefix_mark (hne : w ≠ []) (hlast : ∀ c ∈ w.getLast?, c ∉ mark) (hapart : ¬ mark <:+: w)
  (rest : List α) : ¬ w <+: mark ++ rest := by
 intro h
 rcases prefix_or_prefix_of_prefix h (prefix_append mark rest) with hin | hover
 · exact hlast (w.getLast hne) (getLast?_eq_some_getLast hne) (hin.subset (getLast_mem hne))
 · exact hapart hover.isInfix

theorem apart_tail {c : α} (h : ¬ mark <:+: c :: w) : ¬ mark <:+: w :=
 fun hin => h (hin.trans (suffix_cons c w).isInfix)

theorem prefix_of_insertAfter (hne : w ≠ []) (hlast : ∀ c ∈ w.getLast?, c ∉ mark)
  (hapart : ¬ mark <:+: w) (h : w <+: insertAfter mark text chosen) : w <+: text := by
 induction w generalizing text chosen with
 | nil => exact absurd rfl hne
 | cons c w ih =>
  cases text with
  | nil => exact h
  | cons d text =>
   cases chosen with
   | nil => exact h
   | cons b rest =>
    rw [insertAfter, cons_prefix_cons] at h
    obtain ⟨rfl, h⟩ := h
    rw [cons_prefix_cons]
    refine ⟨rfl, ?_⟩
    by_cases hw : w = []
    · rw [hw]
      exact nil_prefix
    · have hlast' : ∀ x ∈ w.getLast?, x ∉ mark := by
       rwa [getLast?_cons_of_ne_nil hw] at hlast
      split_ifs at h
      · exact absurd h (not_prefix_mark hw hlast' (apart_tail hapart) _)
      · exact ih hw hlast' (apart_tail hapart) h

theorem infix_of_mark {rest : List α} (hne : w ≠ []) (hfirst : ∀ c ∈ w.head?, c ∉ mark)
  (h : w <:+: mark ++ rest) : w <:+: rest := by
 induction mark with
 | nil => exact h
 | cons d mark ih =>
  rcases infix_cons_iff.1 h with hat | hlater
  · obtain ⟨c, w, rfl⟩ := exists_cons_of_ne_nil hne
    exact absurd (mem_cons.2 (Or.inl (cons_prefix_cons.1 hat).1)) (hfirst c rfl)
  · exact ih (fun c hc hmem => hfirst c hc (mem_cons_of_mem d hmem)) hlater

end Words

def Marks (words : List (List α)) : List α → List Bool → Prop
 | [], [] => True
 | c :: text, b :: rest => (b = true ↔ ∃ w ∈ words, w <+: c :: text) ∧ Marks words text rest
 | _, _ => False

theorem marks_of_at {words : List (List α)} {text : List α} {chosen : List Bool}
  (hlen : chosen.length = text.length)
  (hat : ∀ j, chosen[j]? = some true ↔ j < text.length ∧ ∃ w ∈ words, w <+: text.drop j) :
  Marks words text chosen := by
 induction text generalizing chosen with
 | nil =>
  rw [length_eq_zero_iff.1 hlen]
  trivial
 | cons c text ih =>
  cases chosen with
  | nil => exact absurd hlen.symm (Nat.succ_ne_zero _)
  | cons b rest =>
   have hfirst := hat 0
   rw [getElem?_cons_zero, Option.some.injEq, drop_zero] at hfirst
   refine ⟨hfirst.trans (and_iff_right (Nat.succ_pos _)), ih (Nat.succ.inj hlen) fun j => ?_⟩
   have hlater := hat (j + 1)
   rwa [getElem?_cons_succ, drop_succ_cons, length_cons, Nat.succ_lt_succ_iff] at hlater

/-- No word is left. By induction on the text: none begins at its first letter, in the mark that may
follow, or later. -/
theorem not_infix_insertAfter {words : List (List α)} (hwords : ∀ w ∈ words, Unmarked mark w)
  {text : List α} {chosen : List Bool} (h : Marks words text chosen) {w : List α} (hw : w ∈ words) :
  ¬ w <:+: insertAfter mark text chosen := by
 obtain ⟨hfirst, hlast, hapart, hlong⟩ := hwords w hw
 have hne : w ≠ [] := by
  rintro rfl
  exact absurd hlong (Nat.not_succ_le_zero 1)
 induction text generalizing chosen with
 | nil =>
  change ¬ w <:+: []
  rwa [infix_nil]
 | cons c text ih =>
  cases chosen with
  | nil => exact h.elim
  | cons b rest =>
   obtain ⟨hb, hrest⟩ := h
   intro hin
   rw [insertAfter] at hin
   rcases infix_cons_iff.1 hin with hat | hlater
   · have hnot : ¬ b = true := by
      intro hchosen
      rw [if_pos hchosen] at hat
      cases w with
      | nil => exact hne rfl
      | cons d w =>
       have hw' : w ≠ [] := by
        rintro rfl
        exact absurd hlong (Nat.not_succ_le_self 1)
       rw [getLast?_cons_of_ne_nil hw'] at hlast
       exact not_prefix_mark hw' hlast (apart_tail hapart) _ (cons_prefix_cons.1 hat).2
     have hfound : w <+: insertAfter mark (c :: text) (b :: rest) := hat
     exact hnot (hb.2 ⟨w, hw, prefix_of_insertAfter hne hlast hapart hfound⟩)
   · split_ifs at hlater
     · exact ih hrest (infix_of_mark hne hfirst hlater)
     · exact ih hrest hlater

end MoltBrowser.InsertedMarks
