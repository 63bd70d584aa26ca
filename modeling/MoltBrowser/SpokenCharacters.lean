import MoltBrowser.DisplayCleaning
import MoltBrowser.SpokenWords

set_option autoImplicit false

/-!
# Spoken text by its characters

The sequences the voice code's reader takes are those of the characters, and what it makes of a
text of characters: how cleaning and folding treat each of them.
-/
namespace MoltBrowser.SpokenText
open List
open BoundedJson (appendUtf8 appendUtf8_char encode_eq encode_of_bytes bytes_of_encode leadByte
 leadByte_iff Continues shift_in valid_char char_of_valid)
open DisplayCleaning (encode_ne_nil)
open Json (encode)
open SelfSynchronizing
open StreamFilters (WellFormed shapeOf wellFormed_ascii forall_byte Valid)
open Voice (decodeAt leadOf leadOf_eq isValidUtf8 isValidUtf8_iff decodeAt_of_wellFormed wellFormed_of_decodeAt)

/-! ## The reader takes characters -/

theorem shapeOf_leadByte (b0 : UInt8) (h : ¬ b0 < 0x80) :
  leadByte b0 = (if (shapeOf b0).length = 0 then none
   else some ((shapeOf b0).length, b0.toNat &&& (0x7F >>> (shapeOf b0).length))) ∧
  (shapeOf b0).length ≠ 1 ∧
  (shapeOf b0).secondMin.toNat = (if b0.toNat = 0xE0 then 0xA0 else if b0.toNat = 0xF0 then 0x90 else 0x80) ∧
  (shapeOf b0).secondMax.toNat = (if b0.toNat = 0xED then 0x9F else if b0.toNat = 0xF4 then 0x8F else 0xBF) :=
 forall_byte (p := fun b0 => ¬ b0 < 0x80 →
  leadByte b0 = (if (shapeOf b0).length = 0 then none
   else some ((shapeOf b0).length, b0.toNat &&& (0x7F >>> (shapeOf b0).length))) ∧
  (shapeOf b0).length ≠ 1 ∧
  (shapeOf b0).secondMin.toNat = (if b0.toNat = 0xE0 then 0xA0 else if b0.toNat = 0xF0 then 0x90 else 0x80) ∧
  (shapeOf b0).secondMax.toNat = (if b0.toNat = 0xED then 0x9F else if b0.toNat = 0xF4 then 0x8F else 0xBF))
  (by decide +kernel) b0 h

theorem continues_range (b : UInt8) : Continues b ↔ 0x80 ≤ b ∧ b ≤ 0xBF := by
 rw [Continues, UInt8.le_iff_toNat_le, UInt8.le_iff_toNat_le]
 rfl

theorem wellFormed_encode (c : Char) : WellFormed (encode c) := by
 rcases Nat.lt_or_ge c.toNat 0x80 with hascii | hhigh
 · rw [BoundedJson.encode_ascii hascii]
   exact wellFormed_ascii (DisplayCleaning.ofNat_ascii hascii)
 obtain ⟨lead, tail, n, bits, hencode, hlead, hlen, hall, hfold, hover⟩ := bytes_of_encode hhigh
 have hvalid := valid_char c
 have hrange := leadByte_iff.1 hlead
 have h0 : ¬ lead < 0x80 := by
  rw [UInt8.not_lt, UInt8.le_iff_toNat_le, show (0x80 : UInt8).toNat = 0x80 from rfl]
  omega
 obtain ⟨htable, -, hmin, hmax⟩ := shapeOf_leadByte lead h0
 rw [hlead] at htable
 split_ifs at htable
 rw [Option.some.injEq, Prod.mk.injEq] at htable
 rw [hencode]
 refine ⟨lead, tail, rfl, by omega, fun b hb => ?_, fun b hb => ?_⟩
 · cases tail with
   | nil => cases hb
   | cons b1 tail =>
    obtain rfl : b1 = b := by simpa using hb
    have hb1 := hall b1 mem_cons_self
    rw [UInt8.le_iff_toNat_le, UInt8.le_iff_toNat_le, hmin, hmax]
    have hlow := DisplayCleaning.le_foldl tail (bits * 64 + b1.toNat % 64)
    have hup := DisplayCleaning.foldl_lt tail (bits * 64 + b1.toNat % 64)
    rw [foldl_cons] at hfold
    rw [hfold] at hlow hup
    rw [length_cons] at hlen
    rw [Continues] at hb1
    rcases hrange with ⟨rfl, hr⟩ | ⟨rfl, hr⟩ | ⟨rfl, hr⟩
    · obtain hl : tail.length = 0 := by omega
      rw [hl] at hlow hup
      split_ifs <;> omega
    · obtain hl : tail.length = 1 := by omega
      rw [hl] at hlow hup
      split_ifs <;> omega
    · obtain hl : tail.length = 2 := by omega
      rw [hl] at hlow hup
      split_ifs <;> omega
 · exact (continues_range b).1 (hall b (mem_of_mem_tail hb))

theorem char_of_wellFormed {w : Bytes} (h : WellFormed w) : ∃ c : Char, w = encode c := by
 obtain ⟨lead, tail, rfl, hlen, hsecond, hall⟩ := h
 by_cases hascii : lead < 0x80
 · rw [Voice.shapeOf_ascii hascii] at hlen
   obtain rfl : tail = [] := length_eq_zero_iff.1 (by omega)
   obtain ⟨c, -, hc⟩ := BoundedJson.char_of_ascii hascii
   exact ⟨c, hc.symm⟩
 obtain ⟨htable, hone, hmin, hmax⟩ := shapeOf_leadByte lead hascii
 rw [if_neg (by omega)] at htable
 generalize hbits : lead.toNat &&& (0x7F >>> (shapeOf lead).length) = bits at htable
 have hrange := leadByte_iff.1 htable
 cases tail with
 | nil => exact absurd hlen hone
 | cons b1 tail =>
  obtain ⟨hlo, hhi⟩ := hsecond b1 rfl
  rw [UInt8.le_iff_toNat_le, hmin] at hlo
  rw [UInt8.le_iff_toNat_le, hmax] at hhi
  have hb1 : Continues b1 := by
   rw [Continues]
   split_ifs at hlo hhi <;> omega
  have hcont : ∀ b ∈ b1 :: tail, Continues b :=
   forall_mem_cons.2 ⟨hb1, fun b hb => (continues_range b).2 (hall b hb)⟩
  rw [Continues] at hb1
  have hlow := DisplayCleaning.le_foldl tail (bits * 64 + b1.toNat % 64)
  have hup := DisplayCleaning.foldl_lt tail (bits * 64 + b1.toNat % 64)
  generalize hfold : tail.foldl (fun cp b => cp * 64 + b.toNat % 64) (bits * 64 + b1.toNat % 64) = cp at hlow hup
  rw [length_cons] at hlen
  obtain ⟨hvalid, hover⟩ : (cp < 0xD800 ∨ (0xDFFF < cp ∧ cp < 0x110000)) ∧
    ¬((shapeOf lead).length = 3 ∧ cp < 0x800) ∧ ¬((shapeOf lead).length = 4 ∧ cp < 0x10000) := by
   rcases hrange with ⟨hn, hr⟩ | ⟨hn, hr⟩ | ⟨hn, hr⟩
   · obtain hl : tail.length = 0 := by omega
     rw [hl] at hlow hup
     split_ifs at hlo hhi <;> omega
   · obtain hl : tail.length = 1 := by omega
     rw [hl] at hlow hup
     split_ifs at hlo hhi <;> omega
   · obtain hl : tail.length = 2 := by omega
     rw [hl] at hlow hup
     split_ifs at hlo hhi <;> omega
  obtain ⟨c, rfl⟩ := char_of_valid hvalid
  exact ⟨c, (encode_of_bytes htable (by rw [length_cons]; omega) hcont hfold hover).2⟩

theorem decodeAt_value {b0 : UInt8} {after : Bytes} (h0 : ¬ b0 < 0x80) (h : (decodeAt (b0 :: after)).1 ≠ 0) :
  (decodeAt (b0 :: after)).2 = (after.take ((decodeAt (b0 :: after)).1 - 1)).foldl
   (fun cp b => cp * 64 + b.toNat % 64) (b0.toNat &&& (0x7F >>> (decodeAt (b0 :: after)).1)) := by
 rw [decodeAt, if_neg h0] at h ⊢
 obtain ⟨hlead, hone⟩ := leadOf_eq b0 h0
 rw [hlead] at h ⊢
 dsimp only at h ⊢
 simp only [shift_in] at h ⊢
 split_ifs at h ⊢ with hlen hsecond hmore
 · exact absurd rfl h
 · exact absurd rfl h
 · exact absurd rfl h
 rw [not_or] at hlen
 cases after with
 | nil => exact absurd hlen.2 (by rw [length_nil]; omega)
 | cons b1 after =>
  obtain ⟨n, hn⟩ : ∃ n, (shapeOf b0).length - 1 = n + 1 := ⟨(shapeOf b0).length - 2, by omega⟩
  rw [hn]
  rfl

theorem decodeAt_encode (c : Char) (rest : Bytes) :
  decodeAt (encode c ++ rest) = ((encode c).length, c.toNat) := by
 have hw := wellFormed_encode c
 rcases Nat.lt_or_ge c.toNat 0x80 with hascii | hhigh
 · rw [BoundedJson.encode_ascii hascii, singleton_append, decodeAt,
    if_pos (DisplayCleaning.ofNat_ascii hascii), UInt8.toNat_ofNat_of_lt' (hascii.trans (by decide))]
   rfl
 obtain ⟨lead, tail, n, bits, hencode, hlead, hlen, -, hfold, -⟩ := bytes_of_encode hhigh
 have hrange := leadByte_iff.1 hlead
 have h0 : ¬ lead < 0x80 := by
  rw [UInt8.not_lt, UInt8.le_iff_toNat_le, show (0x80 : UInt8).toNat = 0x80 from rfl]
  omega
 obtain ⟨htable, -⟩ := shapeOf_leadByte lead h0
 rw [hlead] at htable
 split_ifs at htable
 rw [Option.some.injEq, Prod.mk.injEq] at htable
 obtain ⟨hn, hbits⟩ := htable
 rw [hencode] at hw ⊢
 have hlength := decodeAt_of_wellFormed hw rest
 have hvalue := decodeAt_value h0 (by rw [hlength]; exact Nat.succ_ne_zero _)
 rw [hlength, Nat.add_sub_cancel, take_left, hlen, hn, ← hbits, hfold] at hvalue
 exact Prod.ext hlength hvalue

theorem char_of_decodeAt {s : Bytes} (h : (decodeAt s).1 ≠ 0) :
  ∃ c : Char, ∃ rest, s = encode c ++ rest ∧ decodeAt s = ((encode c).length, c.toNat) := by
 cases s with
 | nil => exact absurd rfl h
 | cons b0 after =>
  obtain ⟨c, hc⟩ := char_of_wellFormed (wellFormed_of_decodeAt h)
  have hs : b0 :: after = encode c ++ after.drop ((decodeAt (b0 :: after)).1 - 1) := by
   rw [← hc, cons_append, take_append_drop]
  refine ⟨c, _, hs, ?_⟩
  rw [hs, decodeAt_encode]

/-! ## Characters of words -/

structure Folded (c : Char) : Prop where
 word : classify c.toNat = .kWord
 same : fold c.toNat = encode c

structure Shown (c : Char) : Prop where
 ink : isSpace c.toNat = false
 kept : isDropped c.toNat = false

def isFoldedAscii (b : UInt8) : Bool := (0x61 ≤ b && b ≤ 0x7A) || (0x30 ≤ b && b ≤ 0x39)

theorem foldedAscii_char {b : UInt8} (h : isFoldedAscii b = true) : ∃ d : Char, encode d = [b] ∧ Folded d ∧ Shown d := by
 have htable : ∀ b : UInt8, isFoldedAscii b = true → b < 0x80 ∧ classify b.toNat = .kWord ∧ fold b.toNat = [b] ∧
   isSpace b.toNat = false ∧ isDropped b.toNat = false :=
  forall_byte (by decide +kernel)
 obtain ⟨hascii, hword, hsame, hspace, hdropped⟩ := htable b h
 obtain ⟨d, hcp, hd⟩ := BoundedJson.char_of_ascii hascii
 exact ⟨d, hd, ⟨hcp ▸ hword, by rw [hcp, hsame, hd]⟩, ⟨hcp ▸ hspace, hcp ▸ hdropped⟩⟩

theorem appendUtf8_length_le (n : ℕ) : (appendUtf8 n).length = if n < 0x80 then 1 else if n < 0x800 then 2 else if n < 0x10000 then 3 else 4 := by
 rw [appendUtf8]
 split_ifs <;> rfl

structure Spelt (w : Bytes) (max : ℕ) : Prop where
 some : w ≠ []
 few : w.length ≤ max
 plain : ∀ b ∈ w, isFoldedAscii b = true

theorem Spelt.single {b : UInt8} (h : isFoldedAscii b = true) {max : ℕ} (hmax : 0 < max) : Spelt [b] max :=
 ⟨cons_ne_nil _ _, hmax, by simpa using h⟩

theorem spelt_latin1 : ∀ k < 0x40, k ≠ 0x17 ∧ k ≠ 0x37 → kLatin1Fold.getD k [] ≠ [] ∧
  (kLatin1Fold.getD k []).length ≤ 2 ∧ ∀ b ∈ kLatin1Fold.getD k [], isFoldedAscii b = true := by decide +kernel

theorem latinExtendedA_letters : kLatinExtendedAFold.length = 0x80 ∧
  ∀ c ∈ kLatinExtendedAFold, c = 0x31 ∨ c = 0x32 ∨ isFoldedAscii c = true := by decide +kernel

theorem pinyin_letters : kPinyinFold.length = 14 ∧ ∀ c ∈ kPinyinFold, isFoldedAscii c = true := by decide +kernel

theorem getD_letter {table : Bytes} {p : UInt8 → Prop} (h : ∀ c ∈ table, p c) {k : ℕ} (hk : k < table.length) :
  p (table.getD k 0) := by
 rw [getD_eq_getElem _ _ hk]
 exact h _ (getElem_mem hk)

theorem fold_ascii : ∀ cp < 0x80, classify cp = .kWord →
  isFoldedAscii (UInt8.ofNat (if 0x41 ≤ cp ∧ cp ≤ 0x5A then cp - 0x41 + 0x61 else cp)) = true := by decide

theorem fold_wide : ∀ k < 0x1A, (k < 10 → isFoldedAscii (UInt8.ofNat (0x30 + k)) = true) ∧
  isFoldedAscii (UInt8.ofNat (0x61 + k)) = true := by decide

/-- What folding makes of a word's character: letters and digits of ASCII, a small letter of Greek
or Cyrillic, or the character itself. -/
theorem fold_cases {cp : ℕ} (h : classify cp = .kWord) : Spelt (fold cp) (appendUtf8 cp).length ∨
  (∃ d, fold cp = appendUtf8 d ∧ 0x80 ≤ cp ∧ ((0x3B1 ≤ d ∧ d ≤ 0x3C9 ∧ d ≠ 0x3C2) ∨ (0x430 ≤ d ∧ d ≤ 0x45F))) ∨
  fold cp = appendUtf8 cp := by
 have hlen := appendUtf8_length_le cp
 rw [fold]
 by_cases hascii : cp < 0x80
 · rw [if_pos hascii]
   exact .inl (.single (fold_ascii cp hascii h) (by rw [hlen, if_pos hascii]; exact Nat.one_pos))
 have htwo : 2 ≤ (appendUtf8 cp).length := by
  rw [hlen, if_neg hascii]
  split_ifs <;> omega
 have hsingle : ∀ {b : UInt8}, isFoldedAscii b = true → Spelt [b] (appendUtf8 cp).length :=
  fun hb => .single hb (by omega)
 have hpair : ∀ {b c : UInt8}, isFoldedAscii b = true → isFoldedAscii c = true → Spelt [b, c] (appendUtf8 cp).length :=
  fun hb hc => ⟨cons_ne_nil _ _, htwo, by simp [hb, hc]⟩
 rw [if_neg hascii]
 by_cases ha : cp = 0xAA
 · exact .inl (if_pos ha ▸ hsingle (b := 0x61) rfl)
 rw [if_neg ha]
 by_cases hu : cp = 0xB5
 · exact .inl (if_pos hu ▸ hsingle (b := 0x75) rfl)
 rw [if_neg hu]
 by_cases ho : cp = 0xBA
 · exact .inl (if_pos ho ▸ hsingle (b := 0x6F) rfl)
 rw [if_neg ho]
 by_cases hlatin : 0xC0 ≤ cp ∧ cp ≤ 0xFF
 · have hsign : ∀ k < 0x40, classify (0xC0 + k) = .kWord → k ≠ 0x17 ∧ k ≠ 0x37 := by decide
   obtain ⟨k, rfl⟩ := Nat.exists_eq_add_of_le hlatin.1
   rw [if_pos hlatin, Nat.add_sub_cancel_left]
   obtain ⟨hsome, hfew, hplain⟩ := spelt_latin1 k (by omega) (hsign k (by omega) h)
   exact .inl ⟨hsome, hfew.trans htwo, hplain⟩
 rw [if_neg hlatin]
 by_cases hextended : 0x100 ≤ cp ∧ cp ≤ 0x17F
 · rw [if_pos hextended]
   dsimp only
   have hletter := getD_letter latinExtendedA_letters.2 (k := cp - 0x100) (by rw [latinExtendedA_letters.1]; omega)
   split_ifs with hij hoe
   · exact .inl (hpair (b := 0x69) (c := 0x6A) rfl rfl)
   · exact .inl (hpair (b := 0x6F) (c := 0x65) rfl rfl)
   · exact .inl (hsingle ((hletter.resolve_left hij).resolve_left hoe))
 rw [if_neg hextended]
 by_cases hpinyin : 0x1CD ≤ cp ∧ cp < 0x1CD + kPinyinFold.length
 · rw [if_pos hpinyin]
   exact .inl (hsingle (getD_letter pinyin_letters.2 (by omega)))
 rw [if_neg hpinyin]
 by_cases hs : cp = 0x218 ∨ cp = 0x219
 · exact .inl (if_pos hs ▸ hsingle (b := 0x73) rfl)
 rw [if_neg hs]
 by_cases ht : cp = 0x21A ∨ cp = 0x21B
 · exact .inl (if_pos ht ▸ hsingle (b := 0x74) rfl)
 rw [if_neg ht]
 by_cases hupper : 0x391 ≤ cp ∧ cp ≤ 0x3A9 ∧ cp ≠ 0x3A2
 · exact .inr (.inl ⟨cp + 0x20, if_pos hupper, by omega, by omega⟩)
 rw [if_neg hupper]
 by_cases hsigma : cp = 0x3C2
 · exact .inr (.inl ⟨0x3C3, if_pos hsigma, by omega, by omega⟩)
 rw [if_neg hsigma]
 by_cases hcyrillic : 0x410 ≤ cp ∧ cp ≤ 0x42F
 · exact .inr (.inl ⟨cp + 0x20, if_pos hcyrillic, by omega, by omega⟩)
 rw [if_neg hcyrillic]
 by_cases hearly : 0x400 ≤ cp ∧ cp ≤ 0x40F
 · exact .inr (.inl ⟨cp + 0x50, if_pos hearly, by omega, by omega⟩)
 rw [if_neg hearly]
 by_cases hdigits : 0xFF10 ≤ cp ∧ cp ≤ 0xFF19
 · obtain ⟨k, rfl⟩ := Nat.exists_eq_add_of_le hdigits.1
   rw [if_pos hdigits, show 0x30 + (0xFF10 + k) - 0xFF10 = 0x30 + k by omega]
   exact .inl (hsingle ((fold_wide k (by omega)).1 (by omega)))
 rw [if_neg hdigits]
 by_cases hcapitals : 0xFF21 ≤ cp ∧ cp ≤ 0xFF3A
 · obtain ⟨k, rfl⟩ := Nat.exists_eq_add_of_le hcapitals.1
   rw [if_pos hcapitals, show 0x61 + (0xFF21 + k) - 0xFF21 = 0x61 + k by omega]
   exact .inl (hsingle (fold_wide k (by omega)).2)
 rw [if_neg hcapitals]
 by_cases hsmall : 0xFF41 ≤ cp ∧ cp ≤ 0xFF5A
 · obtain ⟨k, rfl⟩ := Nat.exists_eq_add_of_le hsmall.1
   rw [if_pos hsmall, show 0x61 + (0xFF41 + k) - 0xFF41 = 0x61 + k by omega]
   exact .inl (hsingle (fold_wide k (by omega)).2)
 exact .inr (.inr (if_neg hsmall))

theorem fold_spec {c : Char} (h : classify c.toNat = .kWord) : ∃ ds : List Char, ds ≠ [] ∧
  fold c.toNat = ds.flatMap encode ∧ (fold c.toNat).length ≤ (encode c).length ∧
  ∀ d ∈ ds, Folded d ∧ (Shown c → Shown d) := by
 rcases fold_cases h with ⟨hne, hlen, hall⟩ | ⟨d, hd, hcp, hrange⟩ | hsame
 · rw [appendUtf8_char] at hlen
   choose! char hchar hfolded hshown using fun (b : UInt8) (hb : isFoldedAscii b = true) => foldedAscii_char hb
   refine ⟨(fold c.toNat).map char, by simpa using hne, ?_, hlen, ?_⟩
   · rw [flatMap_map, flatMap_congr fun b hb => hchar b (hall b hb), flatMap_singleton']
   · simp only [mem_map, forall_exists_index, and_imp, forall_apply_eq_imp_iff₂]
     exact fun b hb => ⟨hfolded b (hall b hb), fun _ => hshown b (hall b hb)⟩
 · have hgreek : ∀ k < 0x19, k ≠ 0x11 → classify (0x3B1 + k) = .kWord ∧ fold (0x3B1 + k) = appendUtf8 (0x3B1 + k) ∧
     isSpace (0x3B1 + k) = false ∧ isDropped (0x3B1 + k) = false := by decide
   have hcyrillic : ∀ k < 0x30, classify (0x430 + k) = .kWord ∧ fold (0x430 + k) = appendUtf8 (0x430 + k) ∧
     isSpace (0x430 + k) = false ∧ isDropped (0x430 + k) = false := by decide
   obtain ⟨hword, hsame, hspace, hdropped⟩ : classify d = .kWord ∧ fold d = appendUtf8 d ∧
     isSpace d = false ∧ isDropped d = false := by
    rcases hrange with ⟨hlow, hhigh, hsigma⟩ | ⟨hlow, hhigh⟩
    · obtain ⟨k, rfl⟩ := Nat.exists_eq_add_of_le hlow
      exact hgreek k (by omega) (by omega)
    · obtain ⟨k, rfl⟩ := Nat.exists_eq_add_of_le hlow
      exact hcyrillic k (by omega)
   obtain ⟨d, rfl⟩ := char_of_valid (show d < 0xD800 ∨ (0xDFFF < d ∧ d < 0x110000) by omega)
   have hlong := appendUtf8_length_le c.toNat
   have hshort := appendUtf8_length_le d.toNat
   rw [appendUtf8_char] at hd hsame hlong hshort
   refine ⟨[d], cons_ne_nil _ _, by rw [hd, flatMap_singleton], ?_, ?_⟩
   · rw [hd, hlong, hshort]
     split_ifs <;> omega
   · simp only [mem_singleton, forall_eq]
     exact ⟨⟨hword, hsame⟩, fun _ => ⟨hspace, hdropped⟩⟩
 · rw [appendUtf8_char] at hsame
   refine ⟨[c], cons_ne_nil _ _, by rw [hsame, flatMap_singleton], by rw [hsame], ?_⟩
   simp only [mem_singleton, forall_eq]
   exact ⟨⟨h, hsame⟩, id⟩

end MoltBrowser.SpokenText
