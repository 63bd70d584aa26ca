import MoltBrowser.AutomationLocators
import MoltBrowser.JsonStrings
import MoltBrowser.PageMapText
import MoltBrowser.TidyLines

set_option autoImplicit false

/-!
# One clean line of text for the user

Page text and typed text as the drafts (`CleanDisplayText`) and the fallback
locators (`CleanLabel`) show them. Each has its own reader of UTF-8; the hidden
characters are one table.
-/
namespace MoltBrowser.DisplayCleaning
open List
open BoundedJson (appendUtf8 appendUtf8_char encode_eq encode_of_bytes bytes_of_encode leadByte
 leadByte_iff Continues continues_iff shift_in valid_char char_of_valid)
open Json (encode)
open AutomationLocators (continuation utf8At)
open Voice (hiddenCharAt)
open TidyLines

def kReplacementChar : ℕ := 0xFFFD
def kEllipsis : ℕ := 0x2026

/-- The length of a character with this first byte, 0 for none, with the first byte's part of the
code point and the smallest one that needs the length. -/
def sequenceLead (b0 : UInt8) : ℕ × ℕ × ℕ :=
 if b0 &&& 0xE0 = 0xC0 then (2, b0.toNat &&& 0x1F, 0x80)
 else if b0 &&& 0xF0 = 0xE0 then (3, b0.toNat &&& 0x0F, 0x800)
 else if b0 &&& 0xF8 = 0xF0 then (4, b0.toNat &&& 0x07, 0x10000)
 else (0, 0, 0)

/-- The drafts' reader: the length of the character at the front, 0 if it isn't one, and its code
point. -/
def decodeUtf8At : Bytes → ℕ × ℕ
 | [] => (0, 0)
 | b0 :: s =>
  if b0 < 0x80 then (1, b0.toNat)
  else
   let (len, c, min) := sequenceLead b0
   if len = 0 ∨ s.length + 1 < len then (0, 0)
   else match continuation (len - 1) c s with
    | none => (0, 0)
    | some c => if c < min ∨ 0x10FFFF < c ∨ (0xD800 ≤ c ∧ c ≤ 0xDFFF) then (0, 0) else (len, c)

def isControl (cp : ℕ) : Bool := cp < 0x20 || cp == 0x7F

def isHidden (cp : ℕ) : Bool := hiddenCharAt (appendUtf8 cp) == (appendUtf8 cp).length

/-- One turn of `CleanDisplayText`: the bytes it takes, and the character shown or a space. -/
def displayTurn (text : Bytes) : ℕ × Option ℕ :=
 let (n, cp) := decodeUtf8At text
 let (n, cp) := if n = 0 then (1, kReplacementChar) else (n, cp)
 if isControl cp || cp == 0x20 then (n, none)
 else (n, some (if isHidden cp then kReplacementChar else cp))

def cleanDisplayText (text : Bytes) (maxChars : UInt64) : Bytes :=
 let cps := (layOut displayTurn (fun _ => true) 0x20 {} text).shown
 if maxChars = 0 then [] else (cut 0x20 kEllipsis maxChars.toNat cps).flatMap appendUtf8

def replacement : Bytes := [0xEF, 0xBF, 0xBD]
def ellipsis : Bytes := [0xE2, 0x80, 0xA6]

/-- One turn of `CleanLabel`: the bytes it takes, and the piece shown or a space. -/
def labelTurn (text : Bytes) : ℕ × Option Bytes :=
 let n := utf8At text
 if n = 0 then (1, some replacement)
 else
  let c := text.getD 0 0
  let c0 : Bool := n = 1 && (c ≤ 0x20 || c = 0x7F)
  let c1 : Bool := n = 2 && c = 0xC2 && text.getD 1 0 ≤ 0x9F
  if c0 || c1 then (n, none)
  else if hiddenCharAt text ≠ 0 then (hiddenCharAt text, some replacement)
  else (n, some (if c = 0x22 then [0x27] else text.take n))

/-- It stops reading once more is shown than fits; the sum is a `size_t`. -/
def cleanLabel (text : Bytes) (maxChars : UInt64) : Bytes :=
 let room (shown : ℕ) : Bool := shown ≤ (maxChars + 1).toNat
 let shown := (layOut labelTurn room [0x20] {} text).shown
 if maxChars = 0 then [] else (cut [0x20] ellipsis maxChars.toNat shown).flatten

/-! ## Both readers take a character -/

variable {n cp : ℕ} {s : Bytes}

theorem continuation_iff {v : ℕ} : continuation n cp s = some v ↔
  n ≤ s.length ∧ (∀ b ∈ s.take n, Continues b) ∧
   (s.take n).foldl (fun cp b => cp * 64 + b.toNat % 64) cp = v := by
 induction n generalizing cp s with
 | zero => simp [continuation]
 | succ n ih =>
  cases s with
  | nil => simp [continuation]
  | cons b s =>
   rw [continuation, shift_in, take_succ_cons, forall_mem_cons, foldl_cons,
    ← continues_iff, length_cons]
   split_ifs with hb
   · exact ⟨fun h => absurd h (by simp), fun h => absurd h.2.1.1 hb⟩
   · rw [ih]
     exact ⟨fun h => ⟨by omega, ⟨not_not.1 hb, h.2.1⟩, h.2.2⟩, fun h => ⟨by omega, h.2.1.2, h.2.2⟩⟩

theorem foldl_lt (w : Bytes) (cp : ℕ) :
  w.foldl (fun cp b => cp * 64 + b.toNat % 64) cp < (cp + 1) * 64 ^ w.length := by
 induction w generalizing cp with
 | nil => simp
 | cons b w ih =>
  rw [foldl_cons, length_cons, Nat.pow_succ, Nat.mul_comm (64 ^ w.length),
   ← Nat.mul_assoc]
  refine (ih _).trans_le (Nat.mul_le_mul_right _ ?_)
  omega

theorem encode_ne_nil (c : Char) : encode c ≠ [] := by
 rw [encode_eq]
 split_ifs <;> simp

/-- A lead byte and its continuation bytes are a character's, unless they spell too small a code
point or none. -/
theorem continuation_char {b0 : UInt8} {bits : ℕ} (hlead : leadByte b0 = some (n, bits))
  (hmore : continuation (n - 1) bits s = some cp) (hover : ¬(n = 3 ∧ cp < 0x800))
  (hover' : ¬(n = 4 ∧ (cp < 0x10000 ∨ cp > 0x10FFFF))) (hsurrogate : ¬(0xD800 ≤ cp ∧ cp ≤ 0xDFFF)) :
  ∃ c : Char, ∃ rest, b0 :: s = encode c ++ rest ∧ n = (encode c).length ∧ cp = c.toNat := by
 obtain ⟨hlen, hall, hcp⟩ := continuation_iff.1 hmore
 have htake : (s.take (n - 1)).length = n - 1 := by rw [length_take]; omega
 have hbound := foldl_lt (s.take (n - 1)) bits
 rw [hcp, htake] at hbound
 have hvalid : cp < 0xD800 ∨ (0xDFFF < cp ∧ cp < 0x110000) := by
  rcases leadByte_iff.1 hlead with ⟨rfl, -, hhigh, hbits⟩ | ⟨rfl, -, hhigh, hbits⟩ |
   ⟨rfl, -, hhigh, hbits⟩
  · norm_num at hbound
    omega
  · norm_num at hbound
    omega
  · omega
 obtain ⟨c, rfl⟩ := char_of_valid hvalid
 have hpos : 2 ≤ n := by
  rcases leadByte_iff.1 hlead with ⟨rfl, -⟩ | ⟨rfl, -⟩ | ⟨rfl, -⟩ <;> omega
 obtain ⟨-, heq⟩ := encode_of_bytes hlead (by omega) hall hcp ⟨hover, by omega⟩
 refine ⟨c, s.drop (n - 1), ?_, ?_, rfl⟩
 · rw [← heq, cons_append, take_append_drop]
 · rw [← heq, length_cons, htake]
   omega

variable {c : Char}

theorem char_continuation (h : 0x80 ≤ c.toNat) (rest : Bytes) :
  ∃ b0 s bits, encode c ++ rest = b0 :: s ∧ ¬ b0 < 0x80 ∧
   leadByte b0 = some ((encode c).length, bits) ∧
   continuation ((encode c).length - 1) bits s = some c.toNat ∧
   ¬((encode c).length = 3 ∧ c.toNat < 0x800) ∧ ¬((encode c).length = 4 ∧ c.toNat < 0x10000) := by
 obtain ⟨lead, tail, n, bits, hencode, hlead, hlen, hall, hcp, hover⟩ := bytes_of_encode h
 have hhigh : 0xC2 ≤ lead.toNat := by
  rcases leadByte_iff.1 hlead with ⟨-, hlow, -⟩ | ⟨-, hlow, -⟩ | ⟨-, hlow, -⟩ <;> omega
 rw [hencode, length_cons, hlen]
 refine ⟨lead, tail ++ rest, bits, rfl, ?_, hlead, continuation_iff.2 ?_, hover⟩
 · rw [UInt8.not_lt, UInt8.le_iff_toNat_le]
   exact le_trans (by decide) hhigh
 · rw [show n - 1 = tail.length by omega, length_append, take_left]
   exact ⟨by omega, hall, hcp⟩

theorem ofNat_ascii (h : n < 0x80) : UInt8.ofNat n < 0x80 := by
 rw [UInt8.lt_iff_toNat_lt, UInt8.toNat_ofNat_of_lt' (h.trans (by decide))]
 exact h

theorem utf8At_eq (b0 : UInt8) (s : Bytes) : utf8At (b0 :: s) =
  if b0 < 0x80 then 1
  else match leadByte b0 with
   | none => 0
   | some (n, bits) => match continuation (n - 1) bits s with
    | none => 0
    | some cp =>
     if (n = 3 ∧ cp < 0x800) ∨ (n = 4 ∧ (cp < 0x10000 ∨ cp > 0x10FFFF)) ∨
       (0xD800 ≤ cp ∧ cp ≤ 0xDFFF) then 0
     else n := by
 rw [utf8At, leadByte]
 split_ifs <;> rfl

theorem char_of_utf8At (h : utf8At s ≠ 0) :
  ∃ c : Char, ∃ rest, s = encode c ++ rest ∧ utf8At s = (encode c).length := by
 cases s with
 | nil => exact absurd rfl h
 | cons b0 s =>
  rw [utf8At_eq] at h ⊢
  split_ifs at h ⊢ with hascii
  · obtain ⟨c, -, hc⟩ := BoundedJson.char_of_ascii hascii
    exact ⟨c, s, by rw [hc]; rfl, by rw [hc]; rfl⟩
  · cases hlead : leadByte b0 with
    | none => exact absurd (by rw [hlead]) h
    | some lead =>
     obtain ⟨n, bits⟩ := lead
     simp only [hlead] at h ⊢
     cases hmore : continuation (n - 1) bits s with
     | none => exact absurd (by rw [hmore]) h
     | some cp =>
      simp only [hmore] at h ⊢
      split_ifs at h ⊢ with hbad
      · exact absurd rfl h
      · rw [not_or, not_or] at hbad
        obtain ⟨c, rest, heq, hlen, -⟩ := continuation_char hlead hmore hbad.1 hbad.2.1 hbad.2.2
        exact ⟨c, rest, heq, hlen⟩

theorem utf8At_encode (c : Char) (rest : Bytes) : utf8At (encode c ++ rest) = (encode c).length := by
 rcases Nat.lt_or_ge c.toNat 0x80 with hascii | hhigh
 · rw [BoundedJson.encode_ascii hascii, singleton_append, utf8At_eq, if_pos (ofNat_ascii hascii)]
   rfl
 · obtain ⟨b0, s, bits, heq, h0, hlead, hmore, hover, hover'⟩ := char_continuation hhigh rest
   have hvalid := valid_char c
   rw [heq, utf8At_eq, if_neg h0]
   simp only [hlead, hmore]
   rw [if_neg (by omega)]

theorem sequenceLead_cases (b0 : UInt8) (h0 : ¬ b0 < 0x80) :
  let (len, bits, min) := sequenceLead b0
  (leadByte b0 = some (len, bits) ∧ min = if len = 2 then 0x80 else if len = 3 then 0x800 else 0x10000) ∨
  (leadByte b0 = none ∧
   (len = 0 ∨ (len = 2 ∧ bits ≤ 1 ∧ min = 0x80) ∨ (len = 4 ∧ 5 ≤ bits))) :=
 StreamFilters.forall_byte (p := fun b0 => ¬ b0 < 0x80 →
  (leadByte b0 = some ((sequenceLead b0).1, (sequenceLead b0).2.1) ∧ (sequenceLead b0).2.2 =
   if (sequenceLead b0).1 = 2 then 0x80 else if (sequenceLead b0).1 = 3 then 0x800 else 0x10000) ∨
  (leadByte b0 = none ∧ ((sequenceLead b0).1 = 0 ∨
   ((sequenceLead b0).1 = 2 ∧ (sequenceLead b0).2.1 ≤ 1 ∧ (sequenceLead b0).2.2 = 0x80) ∨
   ((sequenceLead b0).1 = 4 ∧ 5 ≤ (sequenceLead b0).2.1))))
  (by decide +kernel) b0 h0

theorem le_foldl (w : Bytes) (cp : ℕ) :
  cp * 64 ^ w.length ≤ w.foldl (fun cp b => cp * 64 + b.toNat % 64) cp := by
 induction w generalizing cp with
 | nil => simp
 | cons b w ih =>
  rw [foldl_cons, length_cons, Nat.pow_succ, Nat.mul_comm (64 ^ w.length),
   ← Nat.mul_assoc]
  exact (Nat.mul_le_mul_right _ (Nat.le_add_right _ _)).trans (ih _)

theorem char_of_decodeUtf8At (h : (decodeUtf8At s).1 ≠ 0) :
  ∃ c : Char, ∃ rest, s = encode c ++ rest ∧ decodeUtf8At s = ((encode c).length, c.toNat) := by
 cases s with
 | nil => exact absurd rfl h
 | cons b0 s =>
  rw [decodeUtf8At] at h ⊢
  split_ifs at h ⊢ with hascii
  · obtain ⟨c, hcp, hc⟩ := BoundedJson.char_of_ascii hascii
    exact ⟨c, s, by rw [hc]; rfl, by rw [hc, hcp]; rfl⟩
  · have hcases := sequenceLead_cases b0 hascii
    generalize sequenceLead b0 = lead at h hcases ⊢
    obtain ⟨len, bits, min⟩ := lead
    dsimp only at h hcases ⊢
    split_ifs at h ⊢ with hshort
    · exact absurd rfl h
    · rw [not_or] at hshort
      cases hmore : continuation (len - 1) bits s with
      | none => exact absurd (by rw [hmore]) h
      | some cp =>
       simp only [hmore] at h ⊢
       split_ifs at h ⊢ with hbad
       · exact absurd rfl h
       · rw [not_or, not_or] at hbad
         rcases hcases with ⟨hlead, hmin⟩ | ⟨-, hfew⟩
         · have hthree : ¬(len = 3 ∧ cp < 0x800) := by
            rintro ⟨rfl, hcp⟩
            norm_num at hmin
            omega
           have hfour : ¬(len = 4 ∧ (cp < 0x10000 ∨ cp > 0x10FFFF)) := by
            rintro ⟨rfl, hcp⟩
            norm_num at hmin
            omega
           obtain ⟨c, rest, hs, hlen, rfl⟩ := continuation_char hlead hmore hthree hfour hbad.2.2
           exact ⟨c, rest, hs, by rw [hlen]⟩
         · obtain ⟨hlen, -, hcp⟩ := continuation_iff.1 hmore
           have htake : (s.take (len - 1)).length = len - 1 := by rw [length_take]; omega
           have hbelow := le_foldl (s.take (len - 1)) bits
           have habove := foldl_lt (s.take (len - 1)) bits
           rw [hcp, htake] at hbelow habove
           rcases hfew with h0 | ⟨rfl, hbits, rfl⟩ | ⟨rfl, hbits⟩
           · omega
           · norm_num at habove
             omega
           · norm_num at hbelow
             omega

theorem decodeUtf8At_encode (c : Char) (rest : Bytes) :
  decodeUtf8At (encode c ++ rest) = ((encode c).length, c.toNat) := by
 rcases Nat.lt_or_ge c.toNat 0x80 with hascii | hhigh
 · rw [BoundedJson.encode_ascii hascii, singleton_append, decodeUtf8At,
    if_pos (ofNat_ascii hascii), UInt8.toNat_ofNat_of_lt' (hascii.trans (by decide))]
   rfl
 · obtain ⟨b0, s, bits, heq, h0, hlead, hmore, hover, hover'⟩ := char_continuation hhigh rest
   have hvalid := valid_char c
   have hpos : 2 ≤ (encode c).length := by
    rcases leadByte_iff.1 hlead with ⟨hn, -⟩ | ⟨hn, -⟩ | ⟨hn, -⟩ <;> omega
   have hlen : (encode c).length ≤ s.length + 1 := by
    rw [← length_cons, ← heq, length_append]
    omega
   have hcases := sequenceLead_cases b0 h0
   rw [heq, decodeUtf8At, if_neg h0]
   generalize sequenceLead b0 = lead at hcases ⊢
   obtain ⟨len, bits', min⟩ := lead
   dsimp only at hcases ⊢
   rcases hcases with ⟨hlead', hmin⟩ | ⟨hnone, -⟩
   · rw [hlead, Option.some.injEq, Prod.mk.injEq] at hlead'
     obtain ⟨rfl, rfl⟩ := hlead'
     rw [if_neg (by omega), hmore]
     dsimp only
     rw [if_neg ?_]
     have hlen4 : (encode c).length = 2 ∨ (encode c).length = 3 ∨ (encode c).length = 4 := by
      rcases leadByte_iff.1 hlead with ⟨hn, -⟩ | ⟨hn, -⟩ | ⟨hn, -⟩ <;> omega
     split_ifs at hmin <;> omega
   · rw [hnone] at hlead
     cases hlead

/-! ## Hidden characters -/

/-- The hidden characters by their code points, those of two bytes, of three and of four. -/
def Hidden (cp : ℕ) : Prop :=
 (((0x80 ≤ cp ∧ cp ≤ 0x9F) ∨ cp = 0xAD) ∨ cp = 0x61C) ∨
 ((cp = 0x115F ∨ cp = 0x1160) ∨ cp = 0x180E ∨
  ((0x200B ≤ cp ∧ cp ≤ 0x200F) ∨ (0x2028 ≤ cp ∧ cp ≤ 0x202E)) ∨
  ((0x2060 ≤ cp ∧ cp ≤ 0x2064) ∨ (0x2066 ≤ cp ∧ cp ≤ 0x2069)) ∨
  cp = 0x3164 ∨ (0xFE00 ≤ cp ∧ cp ≤ 0xFE0F) ∨ cp = 0xFEFF ∨ cp = 0xFFA0) ∨
 (0xE0000 ≤ cp ∧ cp ≤ 0xE007F) ∨ (0xE0100 ≤ cp ∧ cp ≤ 0xE01EF)

instance (cp : ℕ) : Decidable (Hidden cp) := inferInstanceAs (Decidable (_ ∨ _))

/-! The table on the values of the first bytes, for each length. -/

abbrev HiddenTwo (x0 x1 : ℕ) : Prop :=
 (x0 = 0xC2 ∧ ((0x80 ≤ x1 ∧ x1 ≤ 0x9F) ∨ x1 = 0xAD)) ∨ (x0 = 0xD8 ∧ x1 = 0x9C)

abbrev HiddenThree (x0 x1 x2 : ℕ) : Prop :=
 (x0 = 0xE1 ∧ x1 = 0x85 ∧ (x2 = 0x9F ∨ x2 = 0xA0)) ∨ (x0 = 0xE1 ∧ x1 = 0xA0 ∧ x2 = 0x8E) ∨
 (x0 = 0xE2 ∧ x1 = 0x80 ∧ ((0x8B ≤ x2 ∧ x2 ≤ 0x8F) ∨ (0xA8 ≤ x2 ∧ x2 ≤ 0xAE))) ∨
 (x0 = 0xE2 ∧ x1 = 0x81 ∧ ((0xA0 ≤ x2 ∧ x2 ≤ 0xA4) ∨ (0xA6 ≤ x2 ∧ x2 ≤ 0xA9))) ∨
 (x0 = 0xE3 ∧ x1 = 0x85 ∧ x2 = 0xA4) ∨ (x0 = 0xEF ∧ x1 = 0xB8 ∧ 0x80 ≤ x2 ∧ x2 ≤ 0x8F) ∨
 (x0 = 0xEF ∧ x1 = 0xBB ∧ x2 = 0xBF) ∨ (x0 = 0xEF ∧ x1 = 0xBE ∧ x2 = 0xA0)

abbrev HiddenFour (x0 x1 x2 x3 : ℕ) : Prop :=
 x0 = 0xF3 ∧ x1 = 0xA0 ∧ (0x80 ≤ x3 ∧ x3 ≤ 0xBF) ∧
  (x2 = 0x80 ∨ x2 = 0x81 ∨ (0x84 ≤ x2 ∧ x2 ≤ 0x86) ∨ (x2 = 0x87 ∧ x3 ≤ 0xAF))

theorem hiddenCharAt_eq (s : Bytes) :
  let x (i : ℕ) : ℕ := (s.getD i 0).toNat
  hiddenCharAt s =
   if HiddenTwo (x 0) (x 1) then 2
   else if HiddenThree (x 0) (x 1) (x 2) then 3
   else if HiddenFour (x 0) (x 1) (x 2) (x 3) then 4 else 0 := by
 have hcont : ∀ b : UInt8, (b &&& 0xC0 = 0x80) = (0x80 ≤ b.toNat ∧ b.toNat ≤ 0xBF) := fun b =>
  propext (continues_iff b)
 have heq : ∀ a b : UInt8, (a = b) = (a.toNat = b.toNat) := fun a b => propext UInt8.toNat_inj.symm
 dsimp only [hiddenCharAt]
 simp only [hcont]
 simp only [heq, UInt8.le_iff_toNat_le, UInt8.reduceToNat, HiddenTwo, HiddenThree, HiddenFour, ite_or]

/-- The bytes of the table are those of its code points, whatever follows the character. -/
theorem hiddenCharAt_encode (c : Char) (rest : Bytes) :
  hiddenCharAt (encode c ++ rest) = if Hidden c.toNat then (encode c).length else 0 := by
 have hvalid := valid_char c
 have hof : ∀ {m : ℕ}, m < 256 → (UInt8.ofNat m).toNat = m := fun hm => UInt8.toNat_ofNat_of_lt' hm
 rw [encode_eq]
 generalize c.toNat = n at hvalid ⊢
 by_cases h1 : n ≤ 0x7F
 · rw [if_pos h1, hiddenCharAt_eq]
   simp only [cons_append, getD_cons_zero]
   rw [hof (by omega), if_neg (by omega), if_neg (by omega), if_neg (by omega), if_neg]
   rw [Hidden]
   omega
 by_cases h2 : n ≤ 0x7FF
 · have htwo : HiddenTwo (n / 64 % 0x20 + 0xC0) (n % 0x40 + 0x80) ↔ Hidden n := by
    rw [Hidden, or_iff_left (a := ((0x80 ≤ n ∧ n ≤ 0x9F) ∨ n = 0xAD) ∨ n = 0x61C) (by omega)]
    exact or_congr (by omega) (by omega)
   rw [if_neg h1, if_pos h2, hiddenCharAt_eq]
   simp only [cons_append, getD_cons_zero, getD_cons_succ]
   rw [hof (by omega), hof (by omega), if_neg (c := HiddenThree _ _ _) (by omega),
    if_neg (c := HiddenFour _ _ _ _) (by omega)]
   exact if_congr htwo rfl rfl
 by_cases h3 : n ≤ 0xFFFF
 · have hthree : HiddenThree (n / 4096 % 0x10 + 0xE0) (n / 64 % 0x40 + 0x80) (n % 0x40 + 0x80) ↔
     Hidden n := by
    rw [Hidden, or_iff_right (by omega), or_iff_left (by omega)]
    exact or_congr (by omega) (or_congr (by omega) (or_congr (by omega) (or_congr (by omega)
     (or_congr (by omega) (or_congr (by omega) (or_congr (by omega) (by omega)))))))
   rw [if_neg h1, if_neg h2, if_pos h3, hiddenCharAt_eq]
   simp only [cons_append, getD_cons_zero, getD_cons_succ]
   rw [hof (by omega), hof (by omega), hof (by omega), if_neg (by omega),
    if_neg (c := HiddenFour _ _ _ _) (by omega)]
   exact if_congr hthree rfl rfl
 · have hfour : HiddenFour (n / 262144 % 0x08 + 0xF0) (n / 4096 % 0x40 + 0x80)
     (n / 64 % 0x40 + 0x80) (n % 0x40 + 0x80) ↔ Hidden n := by
    rw [Hidden, or_iff_right (by omega), or_iff_right (by omega)]
    omega
   rw [if_neg h1, if_neg h2, if_neg h3, hiddenCharAt_eq]
   simp only [cons_append, getD_cons_zero, getD_cons_succ]
   rw [hof (by omega), hof (by omega), hof (by omega), hof (by omega), if_neg (by omega),
    if_neg (by omega)]
   exact if_congr hfour rfl rfl

theorem isHidden_char (c : Char) : isHidden c.toNat = decide (Hidden c.toNat) := by
 have hlen := length_pos_iff.2 (encode_ne_nil c)
 have hat := hiddenCharAt_encode c []
 rw [append_nil] at hat
 rw [isHidden, appendUtf8_char, hat]
 split_ifs with hc
 · rw [beq_self_eq_true, decide_eq_true hc]
 · rw [decide_eq_false hc]
   exact beq_eq_false_iff_ne.2 hlen.ne

/-! ## What a turn shows -/

def Visible (c : Char) : Prop := 0x20 < c.toNat ∧ c.toNat ≠ 0x7F ∧ ¬ Hidden c.toNat

def DisplaySign (cp : ℕ) : Prop := ∃ c : Char, cp = c.toNat ∧ Visible c

instance (c : Char) : Decidable (Visible c) := inferInstanceAs (Decidable (_ ∧ _))

def LabelSign (piece : Bytes) : Prop := ∃ c : Char, piece = encode c ∧ Visible c ∧ c.toNat ≠ 0x22

theorem displaySign_replacement : DisplaySign kReplacementChar := ⟨'\uFFFD', rfl, by decide⟩

theorem displaySign_ellipsis : DisplaySign kEllipsis := ⟨'…', rfl, by decide⟩

theorem labelSign_replacement : LabelSign replacement := ⟨'\uFFFD', rfl, by decide, by decide⟩

theorem labelSign_ellipsis : LabelSign ellipsis := ⟨'…', rfl, by decide, by decide⟩

theorem DisplaySign.ne_blank (h : DisplaySign cp) : cp ≠ 0x20 := by
 obtain ⟨c, rfl, hc, -⟩ := h
 exact hc.ne'

theorem displayTurn_char (c : Char) (rest : Bytes) : displayTurn (encode c ++ rest) =
  ((encode c).length,
   if isControl c.toNat || c.toNat == 0x20 then none
   else some (if Hidden c.toNat then kReplacementChar else c.toNat)) := by
 have hlen := length_pos_iff.2 (encode_ne_nil c)
 rw [displayTurn, decodeUtf8At_encode]
 simp only [if_neg hlen.ne', isHidden_char, decide_eq_true_eq]
 split_ifs <;> rfl

theorem displayTurn_sign (s : Bytes) : ∀ cp ∈ (displayTurn s).2, cp ≠ 0x20 ∧ DisplaySign cp := by
 intro cp hcp
 suffices h : DisplaySign cp from ⟨h.ne_blank, h⟩
 by_cases hn : (decodeUtf8At s).1 = 0
 · have hturn : displayTurn s = (1, some kReplacementChar) := by
    simp only [displayTurn, hn, if_true]
    rfl
   rw [hturn, Option.mem_some] at hcp
   exact hcp ▸ displaySign_replacement
 · obtain ⟨c, rest, rfl, -⟩ := char_of_decodeUtf8At hn
   rw [displayTurn_char] at hcp
   split_ifs at hcp with hgap hhidden
   · cases hcp
   · rw [Option.mem_some] at hcp
     exact hcp ▸ displaySign_replacement
   · rw [Option.mem_some] at hcp
     simp only [isControl, Bool.or_eq_true, decide_eq_true_eq, beq_iff_eq, not_or] at hgap
     exact ⟨c, hcp.symm, by omega, hgap.1.2, hhidden⟩

theorem displayTurn_spelling : Spelling displayTurn 0x20 DisplaySign appendUtf8 where
 nonempty := by
  rintro cp (rfl | ⟨c, rfl, -⟩)
  · simp [appendUtf8]
  · rw [appendUtf8_char]
    exact encode_ne_nil c
 sign := by
  rintro cp ⟨c, rfl, hc, hc', hhidden⟩ rest
  have hcontrol : (isControl c.toNat || c.toNat == 0x20) = false := by
   simp only [isControl, Bool.or_eq_false_iff, decide_eq_false_iff_not, beq_eq_false_iff_ne]
   omega
  rw [appendUtf8_char, displayTurn_char, hcontrol, if_neg hhidden]
  rfl
 gap rest := by
  have h := displayTurn_char ' ' rest
  rwa [← appendUtf8_char] at h

def isGap (text : Bytes) : Bool :=
 (utf8At text = 1 && (text.getD 0 0 ≤ 0x20 || text.getD 0 0 = 0x7F)) ||
  (utf8At text = 2 && text.getD 0 0 = 0xC2 && text.getD 1 0 ≤ 0x9F)

theorem labelTurn_char (c : Char) (rest : Bytes) : labelTurn (encode c ++ rest) =
  if isGap (encode c ++ rest) then ((encode c).length, none)
  else if Hidden c.toNat then ((encode c).length, some replacement)
  else ((encode c).length, some (if (encode c ++ rest).getD 0 0 = 0x22 then [0x27] else encode c)) := by
 have hlen := length_pos_iff.2 (encode_ne_nil c)
 have htake : (encode c ++ rest).take (encode c).length = encode c := take_left
 simp only [labelTurn, isGap, utf8At_encode, hiddenCharAt_encode, htake]
 by_cases hhidden : Hidden c.toNat
 · simp only [hhidden, if_true, hlen.ne', if_false, ne_eq, not_false_eq_true]
 · simp only [hhidden, if_false, hlen.ne', ne_eq, not_true_eq_false]

theorem encode_first (h : 0x80 ≤ c.toNat) (rest : Bytes) {x0 x1 : ℕ}
  (hx0 : ((encode c ++ rest).getD 0 0).toNat = x0) (hx1 : ((encode c ++ rest).getD 1 0).toNat = x1) :
  0xC2 ≤ x0 ∧
   (((encode c).length = 2 ∧ 0x80 ≤ x1 ∧ c.toNat = (x0 - 0xC0) * 64 + (x1 - 0x80)) ∨
    (2 < (encode c).length ∧ 0x800 ≤ c.toNat)) := by
 have hvalid := valid_char c
 have hof : ∀ {m : ℕ}, m < 256 → (UInt8.ofNat m).toNat = m := fun hm => UInt8.toNat_ofNat_of_lt' hm
 by_cases h2 : c.toNat ≤ 0x7FF
 · have hencode := encode_eq c
   rw [if_neg (by omega), if_pos h2] at hencode
   rw [hencode] at hx0 hx1 ⊢
   simp only [cons_append, getD_cons_zero, getD_cons_succ] at hx0 hx1
   rw [hof (by omega)] at hx0 hx1
   exact ⟨by omega, .inl ⟨rfl, by omega, by omega⟩⟩
 by_cases h3 : c.toNat ≤ 0xFFFF
 · have hencode := encode_eq c
   rw [if_neg (by omega), if_neg h2, if_pos h3] at hencode
   rw [hencode] at hx0 ⊢
   simp only [cons_append, getD_cons_zero] at hx0
   rw [hof (by omega)] at hx0
   exact ⟨by omega, .inr ⟨by simp, by omega⟩⟩
 · have hencode := encode_eq c
   rw [if_neg (by omega), if_neg h2, if_neg h3] at hencode
   rw [hencode] at hx0 ⊢
   simp only [cons_append, getD_cons_zero] at hx0
   rw [hof (by omega)] at hx0
   exact ⟨by omega, .inr ⟨by simp, by omega⟩⟩

theorem isGap_char (c : Char) (rest : Bytes) : isGap (encode c ++ rest) = true ↔
  c.toNat ≤ 0x20 ∨ (0x7F ≤ c.toNat ∧ c.toNat ≤ 0x9F) := by
 rw [isGap, utf8At_encode]
 rcases Nat.lt_or_ge c.toNat 0x80 with hascii | hhigh
 · rw [BoundedJson.encode_ascii hascii, singleton_append, getD_cons_zero]
   simp only [length_singleton, decide_true, Bool.true_and, OfNat.one_ne_ofNat, decide_false,
    Bool.false_and, Bool.or_false, Bool.or_eq_true, decide_eq_true_eq, UInt8.le_iff_toNat_le,
    ← UInt8.toNat_inj, UInt8.toNat_ofNat_of_lt' (show c.toNat < 256 by omega), UInt8.reduceToNat]
   omega
 · have hfirst := encode_first hhigh rest rfl rfl
   simp only [Bool.or_eq_true, Bool.and_eq_true, decide_eq_true_eq, UInt8.le_iff_toNat_le,
    ← UInt8.toNat_inj, UInt8.reduceToNat]
   omega

theorem Visible.not_gap (h : Visible c) (rest : Bytes) :
  isGap (encode c ++ rest) = false := by
 obtain ⟨hspace, hdel, hhidden⟩ := h
 rw [Bool.eq_false_iff, ne_eq, isGap_char]
 intro hgap
 refine hhidden (.inl (.inl (.inl ?_)))
 omega

theorem LabelSign.ne_blank {piece : Bytes} (h : LabelSign piece) : piece ≠ [0x20] := by
 obtain ⟨c, rfl, hc, -⟩ := h
 intro hblank
 have hgap := hc.not_gap []
 rw [hblank] at hgap
 exact absurd hgap (by decide)

theorem first_byte {x : UInt8} (hx : x < 0x80) (rest : Bytes) :
  (encode c ++ rest).getD 0 0 = x ↔ c.toNat = x.toNat := by
 rw [UInt8.lt_iff_toNat_lt] at hx
 rcases Nat.lt_or_ge c.toNat 0x80 with hascii | hhigh
 · rw [BoundedJson.encode_ascii hascii, singleton_append, getD_cons_zero,
    ← UInt8.toNat_inj, UInt8.toNat_ofNat_of_lt' (hascii.trans (by decide))]
 · have hfirst := (encode_first hhigh rest rfl rfl).1
   rw [← UInt8.toNat_inj]
   have h128 : (0x80 : UInt8).toNat = 0x80 := rfl
   omega

theorem labelTurn_sign (s : Bytes) : ∀ piece ∈ (labelTurn s).2, piece ≠ [0x20] ∧ LabelSign piece := by
 intro piece hpiece
 suffices h : LabelSign piece from ⟨h.ne_blank, h⟩
 by_cases hn : utf8At s = 0
 · rw [labelTurn, if_pos hn, Option.mem_some] at hpiece
   exact hpiece ▸ labelSign_replacement
 · obtain ⟨c, rest, rfl, -⟩ := char_of_utf8At hn
   rw [labelTurn_char] at hpiece
   split_ifs at hpiece with hgap hhidden hquote
   · cases hpiece
   · rw [Option.mem_some] at hpiece
     exact hpiece ▸ labelSign_replacement
   · rw [Option.mem_some] at hpiece
     exact ⟨'\'', hpiece.symm, by decide, by decide⟩
   · rw [Option.mem_some] at hpiece
     rw [isGap_char] at hgap
     rw [first_byte (by decide)] at hquote
     exact ⟨c, hpiece.symm, ⟨by omega, by omega, hhidden⟩, hquote⟩

theorem labelTurn_spelling : Spelling labelTurn [0x20] LabelSign id where
 nonempty := by
  rintro piece (rfl | ⟨c, rfl, -⟩)
  · simp
  · exact encode_ne_nil c
 sign := by
  rintro piece ⟨c, rfl, hc, hquote⟩ rest
  rw [id, labelTurn_char, hc.not_gap, if_neg hc.2.2,
   if_neg (mt (first_byte (by decide) rest).1 hquote)]
  rfl
 gap rest := by
  have hgap := (isGap_char ' ' rest).2 (by decide)
  have h := labelTurn_char ' ' rest
  rwa [if_pos hgap] at h

/-! ## The normal form -/

/-- Text for the user: no control character, no hidden one at any character, and no space at
either end or beside another. -/
structure CleanLine (maxChars : ℕ) (line : List Char) : Prop where
 short : line.length ≤ maxChars
 printable : ∀ c ∈ line, 0x20 ≤ c.toNat ∧ ¬(0x7F ≤ c.toNat ∧ c.toNat ≤ 0x9F)
 visible : ∀ before c after, line = before ++ c :: after →
  hiddenCharAt ((c :: after).flatMap encode) = 0
 tidy : Tidy ' ' line

theorem cleanLine_of_visible {max : ℕ} {line : List Char} (hshort : line.length ≤ max)
  (htidy : Tidy ' ' line) (hvisible : ∀ c ∈ line, c = ' ' ∨ Visible c) : CleanLine max line where
 short := hshort
 printable c hc := by
  rcases hvisible c hc with rfl | ⟨hspace, hdel, hhidden⟩
  · decide
  · refine ⟨by omega, fun hcontrol => hhidden (.inl (.inl (.inl ?_)))⟩
    omega
 visible before c after hline := by
  have hc : ¬ Hidden c.toNat := by
   rcases hvisible c (by simp [hline]) with rfl | hc
   · decide
   · exact hc.2.2
  rw [flatMap_cons, hiddenCharAt_encode, if_neg hc]
 tidy := htidy

theorem cleanDisplayText_normal (text : Bytes) (maxChars : UInt64) :
  (∃ line, cleanDisplayText text maxChars = line.flatMap encode ∧ CleanLine maxChars.toNat line) ∧
   cleanDisplayText (cleanDisplayText text maxChars) maxChars = cleanDisplayText text maxChars := by
 by_cases hmax : maxChars = 0
 · simp only [cleanDisplayText, hmax, if_true, and_true]
   exact ⟨[], rfl, cleanLine_of_visible (by simp) .nil (by simp)⟩
 have hpos : 0 < maxChars.toNat := Nat.pos_of_ne_zero fun h => hmax (UInt64.toNat_inj.1 h)
 obtain ⟨hlen, htidy, hsigns, hagain⟩ := normal_form displayTurn_spelling displayTurn_sign
  ⟨by decide, displaySign_ellipsis⟩ hpos text (fun _ _ => rfl)
 simp only [cleanDisplayText, hmax, if_false]
 refine ⟨?_, congrArg (List.flatMap appendUtf8) hagain⟩
 generalize cut 0x20 kEllipsis maxChars.toNat _ = cps at hlen htidy hsigns
 obtain ⟨line, rfl, hline⟩ := exists_map (f := Char.toNat) (Q := fun c => c = ' ' ∨ Visible c)
  fun cp hcp => (hsigns cp hcp).elim (fun h => ⟨' ', h, .inl rfl⟩) fun ⟨c, hc, hv⟩ => ⟨c, hc, .inr hv⟩
 have htidy : Tidy (Char.toNat ' ') (line.map Char.toNat) := htidy
 refine ⟨line, ?_, cleanLine_of_visible (by simpa using hlen) htidy.of_map hline⟩
 rw [flatMap_map]
 exact flatMap_congr fun c _ => appendUtf8_char c

theorem room_cleanLabel (text : Bytes) {maxChars : UInt64} (hmax : 0 < maxChars.toNat)
  (hn : n < (cut [0x20] ellipsis maxChars.toNat (layOut labelTurn
   (fun shown => shown ≤ (maxChars + 1).toNat) [0x20] {} text).shown).length) :
  n ≤ (maxChars + 1).toNat := by
 have hshort := hn.trans_le (length_cut hmax)
 have hsum : (maxChars + 1).toNat = (maxChars.toNat + 1) % 2 ^ 64 := UInt64.toNat_add ..
 have hlt := maxChars.toNat_lt
 rcases Nat.lt_or_ge (maxChars.toNat + 1) (2 ^ 64) with hfits | hwraps
 · rw [hsum, Nat.mod_eq_of_lt hfits]
   omega
 · have hzero : (maxChars + 1).toNat = 0 := by
    rw [hsum]
    omega
   have hone : (layOut labelTurn (fun shown => shown ≤ (maxChars + 1).toNat) [0x20] {}
     text).shown.length ≤ 1 :=
    length_layOut_first (fun n hn => by simpa [hzero] using hn) labelTurn_sign .new (by simp) text
   rw [cut_of_le (hone.trans hmax)] at hn
   omega

theorem cleanLabel_normal (text : Bytes) (maxChars : UInt64) :
  (∃ line, cleanLabel text maxChars = line.flatMap encode ∧ CleanLine maxChars.toNat line) ∧
   cleanLabel (cleanLabel text maxChars) maxChars = cleanLabel text maxChars := by
 by_cases hmax : maxChars = 0
 · simp only [cleanLabel, hmax, if_true, and_true]
   exact ⟨[], rfl, cleanLine_of_visible (by simp) .nil (by simp)⟩
 have hpos : 0 < maxChars.toNat := Nat.pos_of_ne_zero fun h => hmax (UInt64.toNat_inj.1 h)
 obtain ⟨hlen, htidy, hsigns, hagain⟩ := normal_form labelTurn_spelling labelTurn_sign
  ⟨by decide, labelSign_ellipsis⟩ hpos text (fun n hn => decide_eq_true (room_cleanLabel text hpos hn))
 rw [flatMap_id] at hagain
 simp only [cleanLabel, hmax, if_false]
 refine ⟨?_, congrArg List.flatten hagain⟩
 generalize cut [0x20] ellipsis maxChars.toNat _ = shown at hlen htidy hsigns
 obtain ⟨line, rfl, hline⟩ := exists_map (f := encode) (Q := fun c => c = ' ' ∨ Visible c)
  fun piece hp => (hsigns piece hp).elim (fun h => ⟨' ', h, .inl rfl⟩)
   fun ⟨c, hc, hv, _⟩ => ⟨c, hc, .inr hv⟩
 have htidy : Tidy (encode ' ') (line.map encode) := htidy
 exact ⟨line, flatMap_def.symm, cleanLine_of_visible (by simpa using hlen) htidy.of_map hline⟩

/-- Display cleaning is a normal form: whatever the bytes and the limit, both functions give valid
UTF-8 of a clean line within the limit, and leave it alone when applied again. -/
theorem display_cleaning_normal_form (text : Bytes) (maxChars : UInt64) :
  ((∃ line, cleanDisplayText text maxChars = line.flatMap encode ∧ CleanLine maxChars.toNat line) ∧
   cleanDisplayText (cleanDisplayText text maxChars) maxChars = cleanDisplayText text maxChars) ∧
  ((∃ line, cleanLabel text maxChars = line.flatMap encode ∧ CleanLine maxChars.toNat line) ∧
   cleanLabel (cleanLabel text maxChars) maxChars = cleanLabel text maxChars) :=
 ⟨cleanDisplayText_normal text maxChars, cleanLabel_normal text maxChars⟩

end MoltBrowser.DisplayCleaning
