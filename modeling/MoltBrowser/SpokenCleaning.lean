import MoltBrowser.SpokenCharacters

set_option autoImplicit false

/-!
# A clean text is clean already

What `CleanSpokenText` gives is spelt by characters it keeps, with single spaces between
them, and it leaves such a text as it is.
-/
namespace MoltBrowser.SpokenText
open BoundedJson (appendUtf8_char)
open DisplayCleaning (encode_ne_nil)
open Json (encode)
open SelfSynchronizing List
open StreamFilters (Valid)
open TidyLines
open Voice (decodeAt isValidUtf8 isValidUtf8_iff)

variable {m : ℕ} {out : Bytes} {pending : Bool} {cs pre : List Char}

def spell (cs : List Char) : Bytes := cs.flatMap encode

@[simp] theorem spell_nil : spell [] = [] := rfl

@[simp] theorem spell_cons (c : Char) (cs : List Char) : spell (c :: cs) = encode c ++ spell cs := flatMap_cons

@[simp] theorem spell_append (cs ds : List Char) : spell (cs ++ ds) = spell cs ++ spell ds := flatMap_append

theorem spell_eq_nil : spell cs = [] ↔ cs = [] := by
 constructor
 · intro h
   cases cs with
   | nil => rfl
   | cons c cs =>
    rw [spell_cons, append_eq_nil_iff] at h
    exact absurd h.1 (encode_ne_nil c)
 · rintro rfl
   rfl

theorem valid_spell (cs : List Char) : Valid (spell cs) := by
 induction cs with
 | nil => exact .nil
 | cons c cs ih =>
  rw [spell_cons]
  exact .cons (wellFormed_encode c) ih

structure Neat (cs : List Char) : Prop where
 tidy : Tidy ' ' cs
 signs : ∀ c ∈ cs, c = ' ' ∨ Shown c

theorem Shown.ne_space {c : Char} (h : Shown c) : c ≠ ' ' := by
 rintro rfl
 exact absurd h.ink (by decide)

/-! ## One turn -/

theorem cleanFrom_char (c : Char) (rest : Bytes) : cleanFrom m out pending (encode c ++ rest) =
  if isSpace c.toNat then cleanFrom m out (!out.isEmpty) rest
  else if isDropped c.toNat then cleanFrom m out pending rest
  else if m < out.length + ((if pending then [0x20] else []) ++ encode c).length then out
  else cleanFrom m (out ++ ((if pending then [0x20] else []) ++ encode c)) false rest := by
 have hdecode := decodeAt_encode c rest
 have hlen := length_pos_iff.2 (encode_ne_nil c)
 cases hencode : encode c with
 | nil => exact absurd hencode (encode_ne_nil c)
 | cons b0 tail =>
  rw [hencode] at hdecode hlen
  have hdrop : (tail ++ rest).drop ((b0 :: tail).length - 1) = rest := by
   rw [length_cons, Nat.add_sub_cancel, drop_left]
  rw [cons_append] at hdecode ⊢
  rw [cleanFrom, hdecode]
  simp only [if_neg hlen.ne', hdrop, appendUtf8_char, hencode]

theorem cleanFrom_invalid {b : UInt8} {rest : Bytes} (h : (decodeAt (b :: rest)).1 = 0) :
  cleanFrom m out pending (b :: rest) = cleanFrom m out pending rest := by
 have hspace : isSpace kReplacementCharacter = false := by decide
 have hdropped : isDropped kReplacementCharacter = true := by decide
 rw [cleanFrom]
 generalize decodeAt (b :: rest) = decoded at h
 obtain ⟨length, cp⟩ := decoded
 dsimp only at h
 simp only [h, if_true, hspace, hdropped, Bool.false_eq_true, if_false, Nat.sub_self, drop_zero]

/-! ## What cleaning gives -/

theorem Neat.concat (h : Neat cs) {c : Char} (hc : Shown c) : Neat (cs ++ [c]) where
 tidy := h.tidy.concat hc.ne_space
 signs := by
  simp only [mem_append, mem_singleton]
  rintro d (hd | rfl)
  · exact h.signs d hd
  · exact .inr hc

theorem Neat.concat_space (h : Neat cs) (hne : cs ≠ []) {c : Char} (hc : Shown c) : Neat (cs ++ [' ', c]) where
 tidy := h.tidy.concat_blank hne hc.ne_space
 signs := by
  simp only [mem_append, mem_cons, not_mem_nil, or_false]
  rintro d (hd | rfl | rfl)
  · exact h.signs d hd
  · exact .inl rfl
  · exact .inr hc

structure Clean (m : ℕ) (out : Bytes) : Prop where
 neat : ∃ cs, out = spell cs ∧ Neat cs
 fits : out.length ≤ m

theorem clean_cleanFrom (h : Clean m out) (hpending : pending = true → out ≠ []) (text : Bytes) :
  Clean m (cleanFrom m out pending text) := by
 induction hlen : text.length using Nat.strong_induction_on generalizing text out pending with
 | _ n ih =>
 cases text with
 | nil =>
  rw [cleanFrom]
  exact h
 | cons b rest =>
  by_cases hbad : (decodeAt (b :: rest)).1 = 0
  · rw [cleanFrom_invalid hbad]
    exact ih rest.length (by rw [← hlen, length_cons]; omega) h hpending rest rfl
  obtain ⟨c, after, htext, -⟩ := char_of_decodeAt hbad
  have hshort : after.length < n := by
   have hpos := length_pos_iff.2 (encode_ne_nil c)
   rw [← hlen, htext, length_append]
   omega
  rw [htext, cleanFrom_char]
  by_cases hspace : isSpace c.toNat = true
  · rw [if_pos hspace]
    refine ih _ hshort h (fun hout => ?_) after rfl
    rintro rfl
    exact absurd hout (by decide)
  rw [if_neg hspace]
  by_cases hdropped : isDropped c.toNat = true
  · rw [if_pos hdropped]
    exact ih _ hshort h hpending after rfl
  rw [if_neg hdropped]
  have hshown : Shown c := ⟨Bool.eq_false_iff.2 hspace, Bool.eq_false_iff.2 hdropped⟩
  by_cases hfull : m < out.length + ((if pending then [0x20] else []) ++ encode c).length
  · rw [if_pos hfull]
    exact h
  rw [if_neg hfull]
  obtain ⟨cs, rfl, hneat⟩ := h.neat
  refine ih _ hshort ⟨?_, by rw [length_append]; omega⟩ (fun hfalse => absurd hfalse Bool.false_ne_true) after rfl
  cases pending with
  | false => exact ⟨cs ++ [c], by simp, hneat.concat hshown⟩
  | true =>
   have hne : cs ≠ [] := fun hnil => hpending rfl (by rw [hnil, spell_nil])
   exact ⟨cs ++ [' ', c], by simp [show encode ' ' = [0x20] by decide], hneat.concat_space hne hshown⟩

theorem clean_cleanSpokenText (text : Bytes) (m : ℕ) : Clean m (cleanSpokenText text m) :=
 clean_cleanFrom ⟨⟨[], rfl, .nil, nofun⟩, Nat.zero_le _⟩ (fun h => absurd h Bool.false_ne_true) text

/-! ## What cleaning leaves -/

theorem Neat.cleanFrom_eq (h : Neat (pre ++ ((if pending then [' '] else []) ++ cs)))
  (hfits : (spell (pre ++ ((if pending then [' '] else []) ++ cs))).length ≤ m) :
  cleanFrom m (spell pre) pending (spell cs) = spell (pre ++ ((if pending then [' '] else []) ++ cs)) := by
 have hblank : encode ' ' = [0x20] := by decide
 induction cs generalizing pre pending with
 | nil =>
  cases pending with
  | false => simp [cleanFrom]
  | true => exact absurd h.tidy.finish (by simp)
 | cons c cs ih =>
  rw [spell_cons, cleanFrom_char]
  rcases h.signs c (by simp) with rfl | hc
  · -- A space: none is pending, and something is out.
    cases pending with
    | true =>
     have hchain := (isChain_append.1 h.tidy.single).2.1
     exact absurd ((isChain_cons_cons.1 hchain).1 ⟨rfl, rfl⟩) id
    | false =>
     have hpre : pre ≠ [] := by
      rintro rfl
      exact h.tidy.start rfl
     have hout : (spell pre).isEmpty = false := by
      rw [isEmpty_eq_false_iff]
      exact fun hnil => hpre (spell_eq_nil.1 hnil)
     rw [if_pos (by decide), hout, Bool.not_false]
     exact @ih true _ h hfits
  · rw [hc.ink, hc.kept, if_neg Bool.false_ne_true, if_neg Bool.false_ne_true]
    have hline : pre ++ ((if pending then [' '] else []) ++ c :: cs) =
      (pre ++ ((if pending then [' '] else []) ++ [c])) ++ ((if false then [' '] else []) ++ cs) := by simp
    have hspell : spell (pre ++ ((if pending then [' '] else []) ++ [c])) =
      spell pre ++ ((if pending then [0x20] else []) ++ encode c) := by
     cases pending <;> simp [hblank]
    rw [hline] at h hfits ⊢
    rw [if_neg, ← hspell]
    · exact ih h hfits
    · rw [spell_append, hspell] at hfits
      simp only [length_append] at hfits ⊢
      omega

theorem Clean.cleanSpokenText_eq (h : Clean m out) : cleanSpokenText out m = out := by
 obtain ⟨⟨cs, rfl, hneat⟩, hfits⟩ := h
 exact @Neat.cleanFrom_eq _ false _ [] hneat hfits

theorem Clean.isValidUtf8 (h : Clean m out) : isValidUtf8 out = true := by
 obtain ⟨⟨cs, rfl, -⟩, -⟩ := h
 exact (isValidUtf8_iff _).2 (valid_spell cs)

end MoltBrowser.SpokenText
