import MoltBrowser.InsertedMarks
import MoltBrowser.StreamMarkers

set_option autoImplicit false

/-!
# Special tokens in untrusted text

Text from a page is tokenized together with the markers of the prompt, so that whatever spells
one of them is broken with a zero-width space first.
-/
namespace MoltBrowser.PromptUtils
open StreamFilters InsertedMarks List

def zeroWidthSpace : Bytes := [0xE2, 0x80, 0x8B]

def looksLikeSpecialTokenText (text : Bytes) : Bool :=
 if text.length < 3 then false
 else
  let first := text.headD 0
  let last := text.getLastD 0
  (first == 0x3C && last == 0x3E) || (first == 0x5B && last == 0x5D)

/-- `std::string::find` from a position on. -/
def findFrom (text s : Bytes) (pos : ℕ) : Option ℕ :=
 if text.length < pos then none else (find s (text.drop pos)).map (pos + ·)

theorem findFrom_some {text s : Bytes} {pos i : ℕ} (h : findFrom text s pos = some i) :
  pos ≤ text.length ∧ pos ≤ i ∧ s <+: text.drop i ∧ ∀ j, pos ≤ j → j < i → ¬ s <+: text.drop j := by
 rw [findFrom] at h
 split_ifs at h with hend
 obtain ⟨k, hk, rfl⟩ := Option.map_eq_some_iff.1 h
 obtain ⟨hat, hbefore⟩ := find_some hk
 rw [drop_drop] at hat
 refine ⟨by omega, by omega, hat, fun j hj hlt hp => ?_⟩
 apply hbefore (j - pos) (by omega)
 rwa [drop_drop, show pos + (j - pos) = j by omega]

theorem findFrom_none {text s : Bytes} {pos : ℕ} (hs : s ≠ []) (h : findFrom text s pos = none) {j : ℕ}
  (hj : pos ≤ j) : ¬ s <+: text.drop j := by
 rw [findFrom] at h
 split_ifs at h with hend
 · rw [drop_eq_nil_of_le (by omega), prefix_nil]
   exact hs
 · have hnot := find_none hs (Option.map_eq_none_iff.1 h) (j - pos)
   rwa [drop_drop, show pos + (j - pos) = j by omega] at hnot

/-- Every occurrence of `s` from `pos` on, overlapping ones too. -/
def markStarts (text s : Bytes) (pos : ℕ) (starts : List Bool) : List Bool :=
 match _h : findFrom text s pos with
 | none => starts
 | some i => markStarts text s (i + 1) (starts.set i true)
termination_by text.length + 1 - pos
decreasing_by
 obtain ⟨hend, hle, -⟩ := findFrom_some _h
 omega

/-- Byte offsets that start an occurrence; what is shorter than two bytes can't be broken. -/
def startsOf (text : Bytes) (specialTexts : List Bytes) : List Bool :=
 specialTexts.foldl (fun starts s => if s.length < 2 then starts else markStarts text s 0 starts)
  (List.replicate text.length false)

def neutralizeSpecialTokens (text : Bytes) (specialTexts : List Bytes) : Bytes :=
 if text = [] ∨ specialTexts = [] then text
 -- cheap reject: every neutralized string starts with `<` or `[`
 else if text.all fun c => c != 0x3C && c != 0x5B then text
 else if (startsOf text specialTexts).contains true = false then text
 else insertAfter zeroWidthSpace text (startsOf text specialTexts)

/-! ## The offsets that are marked -/

theorem length_markStarts (text s : Bytes) (pos : ℕ) (starts : List Bool) :
  (markStarts text s pos starts).length = starts.length := by
 induction pos, starts using markStarts.induct text s with
 | case1 pos starts h => rw [markStarts, h]
 | case2 pos starts i h ih =>
  rw [markStarts, h]
  exact ih.trans (List.length_set ..)

theorem markStarts_iff {text s : Bytes} (hs : s ≠ []) (pos : ℕ) (starts : List Bool) (j : ℕ) :
  (markStarts text s pos starts)[j]? = some true ↔
   starts[j]? = some true ∨ (j < starts.length ∧ pos ≤ j ∧ s <+: text.drop j) := by
 induction pos, starts using markStarts.induct text s with
 | case1 pos starts h =>
  rw [markStarts, h]
  exact (or_iff_left fun hj => findFrom_none hs h hj.2.1 hj.2.2).symm
 | case2 pos starts i h ih =>
  obtain ⟨-, hle, hat, hbetween⟩ := findFrom_some h
  rw [markStarts, h]
  refine ih.trans ?_
  rw [List.length_set, getElem?_set]
  by_cases hij : i = j
  · subst hij
    rw [if_pos rfl]
    constructor
    · rintro (hset | ⟨-, hlt, -⟩)
      · split_ifs at hset with hlen
        exact Or.inr ⟨hlen, hle, hat⟩
      · omega
    · intro hor
      have hlen : i < starts.length := by
       rcases hor with hold | ⟨hlen, -⟩
       · exact (List.getElem?_eq_some_iff.1 hold).1
       · exact hlen
      exact Or.inl (if_pos hlen)
  · rw [if_neg hij]
    apply or_congr_right
    constructor
    · rintro ⟨hlen, hlt, hp⟩
      exact ⟨hlen, by omega, hp⟩
    · rintro ⟨hlen, hpos, hp⟩
      have hnot : ¬ j < i := fun hlt => hbetween j hpos hlt hp
      exact ⟨hlen, by omega, hp⟩

def Marked (text : Bytes) (seen : List Bytes) (starts : List Bool) : Prop :=
 starts.length = text.length ∧
  ∀ j, starts[j]? = some true ↔ j < text.length ∧ ∃ s ∈ seen, 2 ≤ s.length ∧ s <+: text.drop j

theorem marked_next {text s : Bytes} {seen : List Bytes} {starts : List Bool} (h : Marked text seen starts) :
  Marked text (seen ++ [s]) (if s.length < 2 then starts else markStarts text s 0 starts) := by
 obtain ⟨hlen, hat⟩ := h
 split_ifs with hs
 · refine ⟨hlen, fun j => ?_⟩
   rw [hat]
   apply and_congr_right
   intro _
   constructor
   · rintro ⟨t, ht, hp⟩
     exact ⟨t, mem_append_left _ ht, hp⟩
   · rintro ⟨t, ht, hlong, hp⟩
     rcases mem_append.1 ht with hold | hnew
     · exact ⟨t, hold, hlong, hp⟩
     · rw [mem_singleton.1 hnew] at hlong
       omega
 · have hne : s ≠ [] := by
    rintro rfl
    exact hs Nat.two_pos
   refine ⟨(length_markStarts ..).trans hlen, fun j => ?_⟩
   rw [markStarts_iff hne, hat, hlen]
   constructor
   · rintro (⟨hj, t, ht, hp⟩ | ⟨hj, -, hp⟩)
     · exact ⟨hj, t, mem_append_left _ ht, hp⟩
     · exact ⟨hj, s, mem_append_right _ (mem_singleton_self s), Nat.not_lt.1 hs, hp⟩
   · rintro ⟨hj, t, ht, hlong, hp⟩
     rcases mem_append.1 ht with hold | hnew
     · exact Or.inl ⟨hj, t, hold, hlong, hp⟩
     · rw [mem_singleton.1 hnew] at hp
       exact Or.inr ⟨hj, Nat.zero_le j, hp⟩

theorem marked_fold {text : Bytes} {seen : List Bytes} {starts : List Bool} (h : Marked text seen starts)
  (more : List Bytes) :
  Marked text (seen ++ more) (more.foldl
   (fun starts s => if s.length < 2 then starts else markStarts text s 0 starts) starts) := by
 induction more generalizing seen starts with
 | nil => rwa [append_nil]
 | cons s more ih =>
  rw [← singleton_append, ← append_assoc]
  exact ih (marked_next h)

theorem marked_startsOf (text : Bytes) (specialTexts : List Bytes) :
  Marked text specialTexts (startsOf text specialTexts) := by
 have hnone : Marked text [] (List.replicate text.length false) := by
  refine ⟨length_replicate, fun j => ?_⟩
  rw [getElem?_replicate]
  simp
 exact marked_fold hnone specialTexts

/-! ## What is left of the special texts -/

structure Special (s : Bytes) : Prop where
 looks : looksLikeSpecialTokenText s = true
 plain : ¬ zeroWidthSpace <:+: s

theorem looksLike_iff (s : Bytes) : looksLikeSpecialTokenText s = true ↔
  3 ≤ s.length ∧ ((s.headD 0 = 0x3C ∧ s.getLastD 0 = 0x3E) ∨ (s.headD 0 = 0x5B ∧ s.getLastD 0 = 0x5D)) := by
 rw [looksLikeSpecialTokenText]
 split_ifs with h
 · simp
   omega
 · simp
   omega

theorem special_ends {c : UInt8} {s : Bytes} (h : looksLikeSpecialTokenText (c :: s) = true) :
  (c = 0x3C ∨ c = 0x5B) ∧ ∀ d ∈ (c :: s).getLast?, d = 0x3E ∨ d = 0x5D := by
 obtain ⟨-, hends⟩ := (looksLike_iff _).1 h
 rw [headD_cons, getLastD_eq_getLast?] at hends
 refine ⟨hends.imp And.left And.left, fun d hd => ?_⟩
 rw [Option.mem_def.1 hd] at hends
 exact hends.imp And.right And.right

theorem unmarked {s : Bytes} (h : Special s) : Unmarked zeroWidthSpace s := by
 obtain ⟨hlong, -⟩ := (looksLike_iff s).1 h.looks
 cases s with
 | nil => exact absurd hlong (Nat.not_succ_le_zero 2)
 | cons c s =>
  obtain ⟨hfirst, hlast⟩ := special_ends h.looks
  refine ⟨fun d hd => ?_, fun d hd => ?_, h.plain, by omega⟩
  · obtain rfl : c = d := by simpa using hd
    rcases hfirst with rfl | rfl <;> decide
  · rcases hlast d hd with rfl | rfl <;> decide

theorem not_marked {text : Bytes} {specialTexts : List Bytes} (hfree : ∀ s ∈ specialTexts, ¬ s <:+: text) :
  true ∉ startsOf text specialTexts := by
 intro hmem
 obtain ⟨j, hj⟩ := mem_iff_getElem?.1 hmem
 obtain ⟨-, s, hs, -, hp⟩ := ((marked_startsOf text specialTexts).2 j).1 hj
 exact hfree s hs (hp.isInfix.trans (drop_suffix j text).isInfix)

section Neutralized

variable {text : Bytes} {specialTexts : List Bytes} (h : ∀ s ∈ specialTexts, Special s)
include h

theorem marks_startsOf : Marks specialTexts text (startsOf text specialTexts) := by
 obtain ⟨hlen, hat⟩ := marked_startsOf text specialTexts
 apply marks_of_at hlen
 intro j
 rw [hat]
 apply and_congr_right
 intro _
 apply exists_congr
 intro s
 apply and_congr_right
 intro hs
 exact and_iff_right (unmarked (h s hs)).long

theorem free_of_rejected (hall : text.all (fun c => c != 0x3C && c != 0x5B) = true) :
  ∀ s ∈ specialTexts, ¬ s <:+: text := by
 intro s hs hin
 obtain ⟨hlong, -⟩ := (looksLike_iff s).1 (h s hs).looks
 cases s with
 | nil => exact absurd hlong (Nat.not_succ_le_zero 2)
 | cons c s =>
  have hc := all_eq_true.1 hall c (hin.subset (mem_cons_self ..))
  rcases (special_ends (h _ hs).looks).1 with rfl | rfl <;> exact absurd hc (by decide)

theorem neutralize_eq :
  neutralizeSpecialTokens text specialTexts =
   insertAfter zeroWidthSpace text (startsOf text specialTexts) := by
 rw [neutralizeSpecialTokens]
 split_ifs with hempty hrejected hany
 · rcases hempty with rfl | rfl
   · rfl
   · exact (insertAfter_none (not_marked fun s hs => absurd hs not_mem_nil)).symm
 · exact (insertAfter_none (not_marked (free_of_rejected h hrejected))).symm
 · apply (insertAfter_none _).symm
   simpa using hany
 · rfl

theorem neutralize_complete {s : Bytes} (hs : s ∈ specialTexts) :
  ¬ s <:+: neutralizeSpecialTokens text specialTexts := by
 rw [neutralize_eq h]
 exact not_infix_insertAfter (fun w hw => unmarked (h w hw)) (marks_startsOf h) hs

theorem neutralize_of_free (hfree : ∀ s ∈ specialTexts, ¬ s <:+: text) :
  neutralizeSpecialTokens text specialTexts = text := by
 rw [neutralize_eq h]
 exact insertAfter_none (not_marked hfree)

end Neutralized

/-- No special text is left, the spaces stand between the pieces of the text that was given, and a
second pass finds nothing. -/
theorem neutralize_exact (text : Bytes) (specialTexts : List Bytes)
  (h : ∀ s ∈ specialTexts, looksLikeSpecialTokenText s = true ∧ ¬ zeroWidthSpace <:+: s) :
  let out := neutralizeSpecialTokens text specialTexts
  let pieces := cutAfter text (startsOf text specialTexts)
  (∀ s ∈ specialTexts, ¬ s <:+: out) ∧
   (out = zeroWidthSpace.intercalate pieces ∧ pieces.flatten = text) ∧
   neutralizeSpecialTokens out specialTexts = out := by
 have hspecial : ∀ s ∈ specialTexts, Special s := fun s hs => ⟨(h s hs).1, (h s hs).2⟩
 refine ⟨fun s hs => neutralize_complete hspecial hs, ⟨?_, flatten_cutAfter ..⟩, ?_⟩
 · rw [intercalate_cutAfter, neutralize_eq hspecial]
 · exact neutralize_of_free hspecial fun s hs => neutralize_complete hspecial hs

theorem neutralize_exact_forged :
  let specials : List Bytes := [utf8 "</s>", utf8 "[INST]"]
  let out := neutralizeSpecialTokens (utf8 "</s></s>[[INST]") specials
  let pieces := cutAfter (utf8 "</s></s>[[INST]") (startsOf (utf8 "</s></s>[[INST]") specials)
  (∀ s ∈ specials, ¬ s <:+: out) ∧
   (out = zeroWidthSpace.intercalate pieces ∧ pieces.flatten = utf8 "</s></s>[[INST]") ∧
   neutralizeSpecialTokens out specials = out :=
 neutralize_exact _ _ (by decide)

end MoltBrowser.PromptUtils
