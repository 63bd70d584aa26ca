import MoltBrowser.SpokenText

set_option autoImplicit false

/-!
# Text made safe to speak

What page text, and what a helper heard, loses before it is shown or spoken: characters that
hide or reorder, private ones, and what doesn't fit.
-/
namespace MoltBrowser.Voice
open StreamFilters SelfSynchronizing List

def kMaxSpeechScanBytes : ℕ := 8192
def kWordBoundarySlack : ℕ := 16

/-- The length in bytes of a character at the front that hides, reorders or breaks text, or 0. -/
def hiddenCharAt (s : Bytes) : ℕ :=
 let b0 := s.getD 0 0
 let b1 := s.getD 1 0
 let b2 := s.getD 2 0
 let b3 := s.getD 3 0
 if b0 = 0xC2 ∧ ((0x80 ≤ b1 ∧ b1 ≤ 0x9F) ∨ b1 = 0xAD) then 2
 else if b0 = 0xD8 ∧ b1 = 0x9C then 2
 else if b0 = 0xE1 ∧ b1 = 0x85 ∧ (b2 = 0x9F ∨ b2 = 0xA0) then 3
 else if b0 = 0xE1 ∧ b1 = 0xA0 ∧ b2 = 0x8E then 3
 else if b0 = 0xE2 ∧ b1 = 0x80 ∧ ((0x8B ≤ b2 ∧ b2 ≤ 0x8F) ∨ (0xA8 ≤ b2 ∧ b2 ≤ 0xAE)) then 3
 else if b0 = 0xE2 ∧ b1 = 0x81 ∧ ((0xA0 ≤ b2 ∧ b2 ≤ 0xA4) ∨ (0xA6 ≤ b2 ∧ b2 ≤ 0xA9)) then 3
 else if b0 = 0xE3 ∧ b1 = 0x85 ∧ b2 = 0xA4 then 3
 else if b0 = 0xEF ∧ b1 = 0xB8 ∧ 0x80 ≤ b2 ∧ b2 ≤ 0x8F then 3
 else if b0 = 0xEF ∧ b1 = 0xBB ∧ b2 = 0xBF then 3
 else if b0 = 0xEF ∧ b1 = 0xBE ∧ b2 = 0xA0 then 3
 else if b0 = 0xF3 ∧ b1 = 0xA0 ∧ b3 &&& 0xC0 = 0x80 ∧
   (b2 = 0x80 ∨ b2 = 0x81 ∨ (0x84 ≤ b2 ∧ b2 ≤ 0x86) ∨ (b2 = 0x87 ∧ b3 ≤ 0xAF)) then 4
 else 0

/-- The character at the front: its length in bytes, 0 if it isn't one, and its code point. -/
def decodeUtf8 (s : Bytes) : ℕ × ℕ :=
 let b0 := s.getD 0 0
 let b1 := s.getD 1 0
 let b2 := s.getD 2 0
 let b3 := s.getD 3 0
 let continues (b : UInt8) : Bool := b &&& 0xC0 == 0x80
 if b0 < 0x80 then (1, b0.toNat)
 else if 0xC2 ≤ b0 ∧ b0 ≤ 0xDF then
  if continues b1 then (2, (b0.toNat &&& 0x1F) <<< 6 ||| (b1.toNat &&& 0x3F)) else (0, 0)
 else if 0xE0 ≤ b0 ∧ b0 ≤ 0xEF then
  let lo := if b0 = 0xE0 then 0xA0 else 0x80
  let hi := if b0 = 0xED then 0x9F else 0xBF
  if b1 < lo ∨ hi < b1 ∨ !continues b2 then (0, 0)
  else (3, (b0.toNat &&& 0x0F) <<< 12 ||| (b1.toNat &&& 0x3F) <<< 6 ||| (b2.toNat &&& 0x3F))
 else if 0xF0 ≤ b0 ∧ b0 ≤ 0xF4 then
  let lo := if b0 = 0xF0 then 0x90 else 0x80
  let hi := if b0 = 0xF4 then 0x8F else 0xBF
  if b1 < lo ∨ hi < b1 ∨ !continues b2 ∨ !continues b3 then (0, 0)
  else
   (4, (b0.toNat &&& 0x07) <<< 18 ||| (b1.toNat &&& 0x3F) <<< 12 ||| (b2.toNat &&& 0x3F) <<< 6 |||
    (b3.toNat &&& 0x3F))
 else (0, 0)

def isSpaceLike (cp : ℕ) : Bool :=
 (0x09 ≤ cp && cp ≤ 0x0D) || cp == 0x20 || cp == 0xA0 || cp == 0x1680 || (0x2000 ≤ cp && cp ≤ 0x200A) ||
  cp == 0x2028 || cp == 0x2029 || cp == 0x202F || cp == 0x205F || cp == 0x3000

def isDropped (cp : ℕ) : Bool :=
 cp < 0x20 || cp == 0x7F || cp == 0x034F || (0xE000 ≤ cp && cp ≤ 0xF8FF) || 0xF0000 ≤ cp ||
  (0xFDD0 ≤ cp && cp ≤ 0xFDEF) || cp &&& 0xFFFE == 0xFFFE || (0xFFF9 ≤ cp && cp ≤ 0xFFFD)

structure SafeText where
 out : Bytes := []
 chars : ℕ := 0
 pendingSpace : Bool := false
 lastSpaceByte : Option ℕ := none
 charsAtLastSpace : ℕ := 0
 cut : Bool := false

def SafeText.space (t : SafeText) : SafeText :=
 { t with
   lastSpaceByte := some t.out.length
   charsAtLastSpace := t.chars
   out := t.out ++ [0x20]
   chars := t.chars + 1 }

def speechSafeFrom (maxChars : ℕ) (t : SafeText) (s : Bytes) : SafeText :=
 if _h : s = [] then t
 else
  let hidden := hiddenCharAt s
  if _hh : hidden ≠ 0 then
   let separator := hidden = 3 ∧ s.getD 0 0 = 0xE2 ∧ s.getD 1 0 = 0x80 ∧ (s.getD 2 0 = 0xA8 ∨ s.getD 2 0 = 0xA9)
   speechSafeFrom maxChars (if separator then { t with pendingSpace := true } else t) (s.drop hidden)
  else
   let (n, cp) := decodeUtf8 s
   if _hn : n = 0 then speechSafeFrom maxChars { t with pendingSpace := true } (s.drop 1)
   else if isSpaceLike cp then speechSafeFrom maxChars { t with pendingSpace := true } (s.drop n)
   else if isDropped cp then speechSafeFrom maxChars t (s.drop n)
   else
    let space := t.pendingSpace && t.out != []
    if maxChars < t.chars + (if space then 1 else 0) + 1 then { t with cut := true }
    else
     let t := if space then t.space else t
     speechSafeFrom maxChars
      { t with pendingSpace := false, out := t.out ++ s.take n, chars := t.chars + 1 } (s.drop n)
termination_by s.length
decreasing_by
 all_goals
  have := length_pos_iff.2 _h
  rw [length_drop]
  omega

def SafeText.finish (t : SafeText) : Bytes :=
 let out :=
  match t.lastSpaceByte with
  | some space =>
   if t.cut ∧ t.chars - t.charsAtLastSpace ≤ kWordBoundarySlack then t.out.take space else t.out
  | none => t.out
 (out.reverse.dropWhile (· == 0x20)).reverse

def speechSafeText (text : Bytes) (maxChars : ℕ) : Bytes :=
 (speechSafeFrom maxChars {} (text.take kMaxSpeechScanBytes)).finish

/-! ## What is left is text -/

theorem continues_eq (b : UInt8) : (b &&& 0xC0 == 0x80) = inRange b 0x80 0xBF :=
 forall_byte (p := fun b => (b &&& 0xC0 == 0x80) = inRange b 0x80 0xBF) (by decide +kernel) b

theorem decodeUtf8_spec {s : Bytes} (hs : s ≠ []) (hn : (decodeUtf8 s).1 ≠ 0) : WellFormed (s.take (decodeUtf8 s).1) := by
 cases s with
 | nil => exact absurd rfl hs
 | cons b0 after =>
  obtain ⟨htwo, hthree, hfour⟩ := shapeOf_inRange b0
  rw [decodeUtf8] at hn ⊢
  simp only [getD_cons_zero, continues_eq] at hn ⊢
  generalize (if b0 = 0xE0 then (0xA0 : UInt8) else 0x80) = lo3 at hthree hn ⊢
  generalize (if b0 = 0xED then (0x9F : UInt8) else 0xBF) = hi3 at hthree hn ⊢
  generalize (if b0 = 0xF0 then (0x90 : UInt8) else 0x80) = lo4 at hfour hn ⊢
  generalize (if b0 = 0xF4 then (0x8F : UInt8) else 0xBF) = hi4 at hfour hn ⊢
  split_ifs at hn ⊢ with hascii h2 h2' h3 h3' h4 h4'
  · exact wellFormed_ascii hascii
  · obtain ⟨hlen, hlo, hhi⟩ := htwo ((inRange_iff ..).2 h2)
    cases after with
    | nil => exact absurd h2' (by simp [not_inRange_nil])
    | cons b1 rest => exact (wellFormed_of_inRange (s := []) hlen hlo hhi (by simpa using h2') (by simp)).1
  · exact absurd rfl hn
  · exact absurd rfl hn
  · obtain ⟨hlen, hlo, hhi⟩ := hthree ((inRange_iff ..).2 h3)
    rw [not_or, not_or, UInt8.not_lt, UInt8.not_lt, Bool.not_eq_true', Bool.not_eq_false] at h3'
    obtain ⟨hb1, hb1', hb2⟩ := h3'
    match after, hb1, hb1', hb2 with
    | [], _, _, hb2 => exact absurd hb2 (by simp [not_inRange_nil])
    | [_], _, _, hb2 => exact absurd hb2 (by simp [not_inRange_nil])
    | b1 :: b2 :: rest, hb1, hb1', hb2 =>
     exact (wellFormed_of_inRange (s := [b2]) hlen hlo hhi ((inRange_iff ..).2 ⟨hb1, hb1'⟩) (by simpa using hb2)).1
  · exact absurd rfl hn
  · obtain ⟨hlen, hlo, hhi⟩ := hfour ((inRange_iff ..).2 h4)
    rw [not_or, not_or, not_or, UInt8.not_lt, UInt8.not_lt, Bool.not_eq_true', Bool.not_eq_false, Bool.not_eq_true',
     Bool.not_eq_false] at h4'
    obtain ⟨hb1, hb1', hb2, hb3⟩ := h4'
    match after, hb1, hb1', hb2, hb3 with
    | [], _, _, hb2, _ => exact absurd hb2 (by simp [not_inRange_nil])
    | [_], _, _, hb2, _ => exact absurd hb2 (by simp [not_inRange_nil])
    | [_, _], _, _, _, hb3 => exact absurd hb3 (by simp [not_inRange_nil])
    | b1 :: b2 :: b3 :: rest, hb1, hb1', hb2, hb3 =>
     exact (wellFormed_of_inRange (s := [b2, b3]) hlen hlo hhi ((inRange_iff ..).2 ⟨hb1, hb1'⟩)
      (by simpa using And.intro hb2 hb3)).1
  · exact absurd rfl hn

/-- What is written is whole characters, and so is what stands before the last space. -/
structure SafeText.Whole (t : SafeText) : Prop where
 out : Valid t.out
 space : ∀ k ∈ t.lastSpaceByte, k ≤ t.out.length ∧ Valid (t.out.take k)

theorem SafeText.Whole.append {t : SafeText} (h : t.Whole) {w : Bytes} (hw : Valid w) (chars : ℕ) (pendingSpace : Bool) :
  SafeText.Whole { t with pendingSpace, out := t.out ++ w, chars } where
 out := h.out.append hw
 space k hk := by
  obtain ⟨hlen, hvalid⟩ := h.space k hk
  rw [length_append, take_append_of_le_length hlen]
  exact ⟨by omega, hvalid⟩

theorem SafeText.Whole.withSpace {t : SafeText} (h : t.Whole) : t.space.Whole where
 out := h.out.append (.single (wellFormed_ascii (by decide)))
 space k hk := by
  obtain rfl : t.out.length = k := Option.some.inj hk
  rw [SafeText.space, length_append, take_left' rfl]
  exact ⟨by omega, h.out⟩

theorem speechSafeFrom_whole (maxChars : ℕ) (s : Bytes) {t : SafeText} (h : t.Whole) : (speechSafeFrom maxChars t s).Whole := by
 induction hlen : s.length using Nat.strong_induction_on generalizing s t with
 | _ k ih =>
  have hpending : SafeText.Whole { t with pendingSpace := true } := ⟨h.out, h.space⟩
  rw [speechSafeFrom]
  by_cases hne : s = []
  · rw [dif_pos hne]
    exact h
  have hpos := length_pos_iff.2 hne
  rw [dif_neg hne]
  have hrest : ∀ {t : SafeText} {n : ℕ}, t.Whole → n ≠ 0 → (speechSafeFrom maxChars t (s.drop n)).Whole := by
   intro t n ht hn
   exact ih _ (by rw [length_drop]; omega) (s.drop n) ht rfl
  generalize hd : decodeUtf8 s = d
  obtain ⟨n, cp⟩ := d
  dsimp only
  split_ifs with hhidden hseparator hn hspace hdropped hwide hfull hgap
  · exact hrest hpending hhidden
  · exact hrest h hhidden
  · exact hrest hpending one_ne_zero
  · exact hrest hpending hn
  · exact hrest h hn
  · exact ⟨h.out, h.space⟩
  · have hw := decodeUtf8_spec hne (by rw [hd]; exact hn)
    rw [hd] at hw
    exact hrest (h.withSpace.append (.single hw) _ _) hn
  · exact ⟨h.out, h.space⟩
  · have hw := decodeUtf8_spec hne (by rw [hd]; exact hn)
    rw [hd] at hw
    exact hrest (h.append (.single hw) _ _) hn

theorem valid_trimEnd {s : Bytes} (h : Valid s) : Valid (s.reverse.dropWhile (· == 0x20)).reverse := by
 have happend : (s.reverse.dropWhile (· == 0x20)).reverse ++ (s.reverse.takeWhile (· == 0x20)).reverse = s := by
  rw [← reverse_append, takeWhile_append_dropWhile, reverse_reverse]
 rw [← happend] at h
 refine (h.split wellFormed_synchronizing fun c hc => ?_).1
 have hmem : c ∈ s.reverse.takeWhile (· == 0x20) := mem_reverse.1 (mem_of_mem_head? hc)
 have hspace : c = 0x20 := by simpa using mem_takeWhile_imp hmem
 rw [hspace]
 rfl

theorem speechSafeText_valid (text : Bytes) (maxChars : ℕ) : Valid (speechSafeText text maxChars) := by
 have hwhole := speechSafeFrom_whole maxChars (text.take kMaxSpeechScanBytes) (t := {}) ⟨.nil, by simp⟩
 refine valid_trimEnd ?_
 split
 · split_ifs
   · exact (hwhole.space _ ‹_›).2
   · exact hwhole.out
 · exact hwhole.out

end MoltBrowser.Voice
