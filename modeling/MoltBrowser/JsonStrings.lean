import MoltBrowser.JsonTexts

set_option autoImplicit false

/-! # What the JSON reader takes for a string -/
namespace MoltBrowser.BoundedJson
open Json List

/-! ## Bits of a code point -/

theorem and_mask (n : ℕ) : n &&& 0x3F = n % 64 := Nat.and_two_pow_sub_one_eq_mod n 6

theorem or_low {i low : ℕ} (high : ℕ) (h : low < 2 ^ i) : 2 ^ i * high ||| low = 2 ^ i * high + low :=
 (Nat.two_pow_add_eq_or_of_lt h high).symm

theorem continuation_bits (n : ℕ) : 0x80 ||| (n &&& 0x3F) = 0x80 + n % 64 := by
 rw [and_mask]
 exact @or_low 7 (n % 64) 1 (by omega)

theorem shift_in (cp b : ℕ) : cp <<< 6 ||| (b &&& 0x3F) = cp * 64 + b % 64 := by
 rw [and_mask, Nat.shiftLeft_eq, Nat.mul_comm cp, @or_low 6 (b % 64) cp (by omega), Nat.mul_comm]

theorem valid_char (c : Char) : c.toNat < 0xD800 ∨ (0xDFFF < c.toNat ∧ c.toNat < 0x110000) := c.valid

variable {n : ℕ}

theorem char_of_valid (h : n < 0xD800 ∨ (0xDFFF < n ∧ n < 0x110000)) : ∃ c : Char, c.toNat = n :=
 ⟨Char.ofNat n, by rw [Char.toNat_ofNat, if_pos (show n.isValidChar from h)]⟩

theorem encode_eq (c : Char) : encode c =
  if c.toNat ≤ 0x7F then [UInt8.ofNat c.toNat]
  else if c.toNat ≤ 0x7FF then [UInt8.ofNat (c.toNat / 64 % 0x20 + 0xC0), UInt8.ofNat (c.toNat % 0x40 + 0x80)]
  else if c.toNat ≤ 0xFFFF then
   [UInt8.ofNat (c.toNat / 4096 % 0x10 + 0xE0), UInt8.ofNat (c.toNat / 64 % 0x40 + 0x80),
    UInt8.ofNat (c.toNat % 0x40 + 0x80)]
  else
   [UInt8.ofNat (c.toNat / 262144 % 0x08 + 0xF0), UInt8.ofNat (c.toNat / 4096 % 0x40 + 0x80),
    UInt8.ofNat (c.toNat / 64 % 0x40 + 0x80), UInt8.ofNat (c.toNat % 0x40 + 0x80)] := rfl

theorem appendUtf8_char (c : Char) : appendUtf8 c.toNat = encode c := by
 have hvalid := valid_char c
 rw [encode_eq]
 generalize c.toNat = n at *
 rw [appendUtf8]
 simp only [continuation_bits, Nat.shiftRight_eq_div_pow]
 split_ifs with h1 h1' h2 h2' h3 h3'
 all_goals first | omega | rfl | skip
 · have h := @or_low 5 (n / 2 ^ 6) 6 (by omega)
   rw [show 0xC0 ||| n / 2 ^ 6 = 0xC0 + n / 2 ^ 6 from h, show 0xC0 + n / 2 ^ 6 = n / 64 % 0x20 + 0xC0 by omega,
    Nat.add_comm 0x80]
 · have h := @or_low 4 (n / 2 ^ 12) 14 (by omega)
   rw [show 0xE0 ||| n / 2 ^ 12 = 0xE0 + n / 2 ^ 12 from h, show 0xE0 + n / 2 ^ 12 = n / 4096 % 0x10 + 0xE0 by omega,
    Nat.add_comm 0x80, Nat.add_comm 0x80]
 · have h := @or_low 3 (n / 2 ^ 18) 30 (by omega)
   rw [show 0xF0 ||| n / 2 ^ 18 = 0xF0 + n / 2 ^ 18 from h, show 0xF0 + n / 2 ^ 18 = n / 262144 % 0x08 + 0xF0 by omega,
    Nat.add_comm 0x80, Nat.add_comm 0x80, Nat.add_comm 0x80]

/-! ## A character of several bytes -/

variable {b : UInt8}

theorem byte_eq (h : b.toNat = n) : b = UInt8.ofNat n := by rw [← h, UInt8.ofNat_toNat]

theorem leadByte_iff {bits : ℕ} : leadByte b = some (n, bits) ↔
  (n = 2 ∧ 0xC2 ≤ b.toNat ∧ b.toNat ≤ 0xDF ∧ bits = b.toNat - 0xC0) ∨
  (n = 3 ∧ 0xE0 ≤ b.toNat ∧ b.toNat ≤ 0xEF ∧ bits = b.toNat - 0xE0) ∨
  (n = 4 ∧ 0xF0 ≤ b.toNat ∧ b.toNat ≤ 0xF4 ∧ bits = b.toNat - 0xF0) := by
 have h5 : b.toNat &&& 0x1F = b.toNat % 32 := Nat.and_two_pow_sub_one_eq_mod _ 5
 have h4 : b.toNat &&& 0x0F = b.toNat % 16 := Nat.and_two_pow_sub_one_eq_mod _ 4
 have h3 : b.toNat &&& 0x07 = b.toNat % 8 := Nat.and_two_pow_sub_one_eq_mod _ 3
 simp only [leadByte, h5, h4, h3, UInt8.le_iff_toNat_le, UInt8.toNat_ofNat]
 generalize b.toNat = m
 split_ifs
 all_goals first | (simp only [Option.some.injEq, Prod.mk.injEq]; omega) | (simp; omega)

def Continues (b : UInt8) : Prop := 0x80 ≤ b.toNat ∧ b.toNat ≤ 0xBF

theorem continues_iff (b : UInt8) : b &&& 0xC0 = 0x80 ↔ Continues b := by
 have h : ∀ n < 256, (UInt8.ofNat n &&& 0xC0 = 0x80 ↔ 0x80 ≤ n ∧ n ≤ 0xBF) := by decide +kernel
 have hb := h b.toNat b.toNat_lt
 rwa [UInt8.ofNat_toNat] at hb

variable {w : Bytes}

theorem continueWith_iff {cp : ℕ} : continueWith cp w = .ok n ↔
  (∀ b ∈ w, Continues b) ∧ w.foldl (fun cp b => cp * 64 + b.toNat % 64) cp = n := by
 induction w generalizing cp with
 | nil => simp [continueWith]
 | cons b w ih =>
  rw [continueWith, shift_in, forall_mem_cons, foldl_cons, ← continues_iff]
  split_ifs with hb
  · exact ⟨fun h => absurd h fail_ne_ok, fun h => absurd h.1.1 hb⟩
  · rw [ih]
    exact ⟨fun h => ⟨⟨not_not.1 hb, h.1⟩, h.2⟩, fun h => ⟨h.1.2, h.2⟩⟩

theorem encode_of_bytes {lead : UInt8} {tail : Bytes} {n bits : ℕ} {c : Char} (hlead : leadByte lead = some (n, bits))
  (hlen : tail.length + 1 = n) (hall : ∀ b ∈ tail, Continues b)
  (hc : tail.foldl (fun cp b => cp * 64 + b.toNat % 64) bits = c.toNat)
  (hover : ¬(n = 3 ∧ c.toNat < 0x800) ∧ ¬(n = 4 ∧ c.toNat < 0x10000)) : 0x80 ≤ c.toNat ∧ lead :: tail = encode c := by
 have hvalid := valid_char c
 rw [encode_eq]
 rcases leadByte_iff.1 hlead with ⟨hn, hlow, hhigh, hbits⟩ | ⟨hn, hlow, hhigh, hbits⟩ | ⟨hn, hlow, hhigh, hbits⟩
 · obtain ⟨b1, rfl⟩ := length_eq_one_iff.1 (show tail.length = 1 by omega)
   have h1 := hall b1 (by simp)
   simp only [foldl_cons, foldl_nil, Continues, hbits] at hc h1
   rw [if_neg (by omega), if_pos (by omega), byte_eq (show lead.toNat = c.toNat / 64 % 0x20 + 0xC0 by omega),
    byte_eq (show b1.toNat = c.toNat % 0x40 + 0x80 by omega)]
   exact ⟨by omega, rfl⟩
 · obtain ⟨b1, b2, rfl⟩ := length_eq_two.1 (show tail.length = 2 by omega)
   have h1 := hall b1 (by simp)
   have h2 := hall b2 (by simp)
   simp only [foldl_cons, foldl_nil, Continues, hbits] at hc h1 h2
   rw [if_neg (by omega), if_neg (by omega), if_pos (by omega),
    byte_eq (show lead.toNat = c.toNat / 4096 % 0x10 + 0xE0 by omega),
    byte_eq (show b1.toNat = c.toNat / 64 % 0x40 + 0x80 by omega), byte_eq (show b2.toNat = c.toNat % 0x40 + 0x80 by omega)]
   exact ⟨by omega, rfl⟩
 · obtain ⟨b1, b2, b3, rfl⟩ := length_eq_three.1 (show tail.length = 3 by omega)
   have h1 := hall b1 (by simp)
   have h2 := hall b2 (by simp)
   have h3 := hall b3 (by simp)
   simp only [foldl_cons, foldl_nil, Continues, hbits] at hc h1 h2 h3
   rw [if_neg (by omega), if_neg (by omega), if_neg (by omega),
    byte_eq (show lead.toNat = c.toNat / 262144 % 0x08 + 0xF0 by omega),
    byte_eq (show b1.toNat = c.toNat / 4096 % 0x40 + 0x80 by omega),
    byte_eq (show b2.toNat = c.toNat / 64 % 0x40 + 0x80 by omega), byte_eq (show b3.toNat = c.toNat % 0x40 + 0x80 by omega)]
   exact ⟨by omega, rfl⟩

variable {c : Char}

theorem bytes_of_encode (h : 0x80 ≤ c.toNat) : ∃ lead tail n bits, encode c = lead :: tail ∧
  leadByte lead = some (n, bits) ∧ tail.length + 1 = n ∧ (∀ b ∈ tail, Continues b) ∧
  tail.foldl (fun cp b => cp * 64 + b.toNat % 64) bits = c.toNat ∧ ¬(n = 3 ∧ c.toNat < 0x800) ∧
  ¬(n = 4 ∧ c.toNat < 0x10000) := by
 have hvalid := valid_char c
 have hof : ∀ {m : ℕ}, m < 256 → (UInt8.ofNat m).toNat = m := fun hm => UInt8.toNat_ofNat_of_lt' hm
 rw [encode_eq, if_neg (by omega)]
 generalize c.toNat = n at *
 split_ifs with h2 h3
 · refine ⟨_, _, 2, n / 64, rfl, leadByte_iff.2 (.inl ?_), rfl, ?_, ?_, by omega, by omega⟩
   · rw [hof (by omega)]
     omega
   · intro b hb
     rw [mem_singleton] at hb
     rw [hb, Continues, hof (by omega)]
     omega
   · simp only [foldl_cons, foldl_nil]
     rw [hof (by omega)]
     omega
 · refine ⟨_, _, 3, n / 4096, rfl, leadByte_iff.2 (.inr (.inl ?_)), rfl, ?_, ?_, by omega, by omega⟩
   · rw [hof (by omega)]
     omega
   · intro b hb
     simp only [mem_cons, not_mem_nil, or_false] at hb
     rcases hb with rfl | rfl
     all_goals
      rw [Continues, hof (by omega)]
      omega
   · simp only [foldl_cons, foldl_nil]
     rw [hof (by omega), hof (by omega)]
     omega
 · refine ⟨_, _, 4, n / 262144, rfl, leadByte_iff.2 (.inr (.inr ?_)), rfl, ?_, ?_, by omega, by omega⟩
   · rw [hof (by omega)]
     omega
   · intro b hb
     simp only [mem_cons, not_mem_nil, or_false] at hb
     rcases hb with rfl | rfl | rfl
     all_goals
      rw [Continues, hof (by omega)]
      omega
   · simp only [foldl_cons, foldl_nil]
     rw [hof (by omega), hof (by omega), hof (by omega)]
     omega

variable {s : Bytes}

theorem readUtf8Char_split {rest : Bytes} (h : readUtf8Char s = .ok (w, rest)) :
  ∃ c : Char, 0x80 ≤ c.toNat ∧ w = encode c ∧ s = w ++ rest := by
 rw [readUtf8Char] at h
 cases hlead : leadByte (peek s) with
 | none => rw [hlead] at h; exact absurd h fail_ne_ok
 | some lead =>
  obtain ⟨n, bits⟩ := lead
  rw [hlead] at h
  dsimp only at h
  split_ifs at h with hlen
  · exact absurd h fail_ne_ok
  simp only [bind_eq_ok] at h
  obtain ⟨cp, hcp, h⟩ := h
  split_ifs at h with hbad
  · exact absurd h fail_ne_ok
  cases h
  obtain ⟨hall, hfold⟩ := continueWith_iff.1 hcp
  obtain ⟨c, hc⟩ := char_of_valid (show cp < 0xD800 ∨ (0xDFFF < cp ∧ cp < 0x110000) by omega)
  have hn : 2 ≤ n := by
   have := leadByte_iff.1 hlead
   omega
  cases s with
  | nil => exact absurd hlen (by simp only [length_nil]; omega)
  | cons b s =>
   obtain ⟨n, rfl⟩ := Nat.exists_eq_succ_of_ne_zero (show n ≠ 0 by omega)
   rw [take_succ_cons, tail_cons] at hall hfold
   have hbytes := @encode_of_bytes b (s.take n) _ bits c hlead
    (by rw [length_take]; simp only [length_cons] at hlen; omega) hall (by rw [hfold, hc]) (by omega)
   exact ⟨c, hbytes.1, hbytes.2, (take_append_drop ..).symm⟩

theorem readUtf8Char_append (h : 0x80 ≤ c.toNat) (s : Bytes) : readUtf8Char (encode c ++ s) = .ok (encode c, s) := by
 have hvalid := valid_char c
 obtain ⟨lead, tail, n, bits, hc, hlead, hlen, hall, hfold, hover⟩ := bytes_of_encode h
 have hcp : continueWith bits tail = .ok c.toNat := continueWith_iff.2 ⟨hall, hfold⟩
 have htake : (lead :: tail ++ s).take n = lead :: tail := take_left' (by simpa using hlen)
 have hdrop : (lead :: tail ++ s).drop n = s := drop_left' (by simpa using hlen)
 rw [hc, readUtf8Char, cons_append, peek_cons, hlead, ← cons_append]
 dsimp only
 rw [if_neg (by simp only [length_append, length_cons]; omega), htake, hdrop, tail_cons, hcp, bind_ok,
  if_neg (by omega)]

/-! ## Escapes -/

theorem hexDigit_lt {c : UInt8} (h : hexDigit c = some n) : n < 16 := by
 have hc := c.toNat_lt
 rw [hexDigit] at h
 simp only [UInt8.le_iff_toNat_le, UInt8.toNat_ofNat] at h
 split_ifs at h with h1 h2 h3
 all_goals
  rw [Option.some.injEq] at h
  omega

variable {a d : UInt8}

theorem hex4_lt {c : UInt8} (h : hex4 a b c d = some n) : n < 0x10000 := by
 simp only [hex4, Option.bind_eq_bind, Option.bind_eq_some_iff, Option.some.injEq] at h
 obtain ⟨a', ha, b', hb, c', hc, d', hd, rfl⟩ := h
 have := hexDigit_lt ha
 have := hexDigit_lt hb
 have := hexDigit_lt hc
 have := hexDigit_lt hd
 omega

theorem readHex4_iff {rest : Bytes} :
  readHex4 s = .ok (n, rest) ↔ ∃ a b c d, s = a :: b :: c :: d :: rest ∧ hex4 a b c d = some n := by
 constructor
 · intro h
   match s with
   | [] | [_] | [_, _] | [_, _, _] => exact absurd h fail_ne_ok
   | a :: b :: c :: d :: s =>
    rw [readHex4] at h
    cases hn : hex4 a b c d with
    | none => rw [hn] at h; exact absurd h fail_ne_ok
    | some v =>
     rw [hn] at h
     cases h
     exact ⟨a, b, c, d, rfl, hn⟩
 · rintro ⟨a, b, c, d, rfl, hn⟩
   rw [readHex4, hn]

theorem readUnicodeEscape_split {rest : Bytes} (h : readUnicodeEscape s = .ok (w, rest)) :
  ∃ (c : Char) (body : Bytes), CharText (0x5C :: 0x75 :: body) c ∧ w = encode c ∧ s = body ++ rest := by
 rw [readUnicodeEscape, bind_eq_ok] at h
 obtain ⟨⟨cp, s'⟩, hhex, h⟩ := h
 dsimp only at h
 obtain ⟨a, b, d, e, rfl, hcp⟩ := readHex4_iff.1 hhex
 split_ifs at h with hlow hhigh hmark
 · exact absurd h fail_ne_ok
 · exact absurd h fail_ne_ok
 · rw [bind_eq_ok] at h
   obtain ⟨⟨low, s''⟩, hhex', h⟩ := h
   dsimp only at h
   obtain ⟨a', b', d', e', hs', hlow'⟩ := readHex4_iff.1 hhex'
   split_ifs at h with hbad
   · exact absurd h fail_ne_ok
   rw [Nat.shiftLeft_eq] at h
   obtain ⟨c, hc⟩ := char_of_valid (n := 0x10000 + (cp - 0xD800) * 2 ^ 10 + (low - 0xDC00)) (by omega)
   rw [← hc, appendUtf8_char] at h
   cases h
   refine ⟨c, [a, b, d, e, 0x5C, 0x75, a', b', d', e'], .pair hcp hlow' (by omega) (by omega) hc, rfl, ?_⟩
   have hsplit := take_append_drop 2 s'
   rw [not_not.1 hmark, hs'] at hsplit
   rw [← hsplit]
   rfl
 · have hlt := hex4_lt hcp
   obtain ⟨c, hc⟩ := char_of_valid (show cp < 0xD800 ∨ (0xDFFF < cp ∧ cp < 0x110000) by omega)
   rw [← hc, appendUtf8_char] at h
   cases h
   exact ⟨c, [a, b, d, e], .unicode hcp hc, rfl, rfl⟩

variable {e : UInt8}

theorem readUnicodeEscape_char (h : hex4 a b d e = some n) (hc : c.toNat = n) (s : Bytes) :
  readUnicodeEscape (a :: b :: d :: e :: s) = .ok (encode c, s) := by
 have hvalid := valid_char c
 rw [readUnicodeEscape, readHex4_iff.2 ⟨a, b, d, e, rfl, h⟩, bind_ok]
 dsimp only
 rw [if_neg (by omega), if_neg (by omega), ← hc, appendUtf8_char]

theorem readUnicodeEscape_pair {a' b' d' e' : UInt8} {high low : ℕ} (h : hex4 a b d e = some high)
  (h' : hex4 a' b' d' e' = some low) (hhigh : 0xD800 ≤ high ∧ high < 0xDC00) (hlow : 0xDC00 ≤ low ∧ low < 0xE000)
  (hc : c.toNat = 0x10000 + (high - 0xD800) * 0x400 + (low - 0xDC00)) (s : Bytes) :
  readUnicodeEscape (a :: b :: d :: e :: 0x5C :: 0x75 :: a' :: b' :: d' :: e' :: s) = .ok (encode c, s) := by
 rw [readUnicodeEscape, readHex4_iff.2 ⟨a, b, d, e, rfl, h⟩, bind_ok]
 dsimp only
 rw [if_neg (by omega), if_pos (by omega), if_neg (by simp)]
 simp only [drop_succ_cons, drop_zero]
 rw [readHex4_iff.2 ⟨a', b', d', e', rfl, h'⟩, bind_ok]
 dsimp only
 rw [if_neg (by omega), Nat.shiftLeft_eq, show (2 : ℕ) ^ 10 = 0x400 from rfl, ← hc, appendUtf8_char]

theorem encode_ascii (h : c.toNat < 0x80) : encode c = [UInt8.ofNat c.toNat] := by
 rw [encode_eq, if_pos (by omega)]

theorem char_of_ascii (h : b < 0x80) : ∃ c : Char, c.toNat = b.toNat ∧ encode c = [b] := by
 have hlt : b.toNat < 0x80 := by simpa [UInt8.lt_iff_toNat_lt] using h
 obtain ⟨c, hc⟩ := char_of_valid (show b.toNat < 0xD800 ∨ (0xDFFF < b.toNat ∧ b.toNat < 0x110000) by omega)
 exact ⟨c, hc, by rw [encode_ascii (by omega), hc, UInt8.ofNat_toNat]⟩

theorem shortEscape_ascii (h : shortEscape e = some b) : b < 0x80 ∧ e ≠ 0x75 := by
 rw [shortEscape] at h
 split_ifs at h with h1 h2 h3 h4 h5 h6
 · rw [Option.some.injEq] at h
   subst h
   rcases h1 with rfl | rfl | rfl
   all_goals exact ⟨by decide, by decide⟩
 all_goals
  rw [Option.some.injEq] at h
  subst_vars
  exact ⟨by decide, by decide⟩

/-! ## Characters -/

theorem readEscape_split {rest : Bytes} (h : readEscape s = .ok (w, rest)) :
  ∃ (c : Char) (body : Bytes), CharText (0x5C :: body) c ∧ w = encode c ∧ s = body ++ rest := by
 cases s with
 | nil => exact absurd h fail_ne_ok
 | cons e s =>
  rw [readEscape] at h
  split_ifs at h with hu
  · obtain ⟨c, body, hc, hw, rfl⟩ := readUnicodeEscape_split h
    exact ⟨c, e :: body, hu ▸ hc, hw, rfl⟩
  · cases hb : shortEscape e with
    | none => rw [hb] at h; exact absurd h fail_ne_ok
    | some b =>
     rw [hb] at h
     cases h
     obtain ⟨c, -, hc⟩ := char_of_ascii (shortEscape_ascii hb).1
     exact ⟨c, [e], .escaped hb hc, hc.symm, rfl⟩

theorem readChar_split {rest : Bytes} (h : readChar b s = .ok (w, rest)) (hquote : b ≠ 0x22) :
  ∃ (c : Char) (body : Bytes), CharText body c ∧ w = encode c ∧ b :: s = body ++ rest := by
 rw [readChar] at h
 split_ifs at h with hcontrol hhigh hescape
 · exact absurd h fail_ne_ok
 · obtain ⟨c, hc, rfl, hs⟩ := readUtf8Char_split h
   exact ⟨c, encode c, .unescaped (by omega) (by omega) (by omega), rfl, hs⟩
 · cases h
   obtain ⟨c, hn, hc⟩ := char_of_ascii (UInt8.not_le.1 hhigh)
   refine ⟨c, [b], ?_, hc.symm, rfl⟩
   have hlow : ¬ b.toNat < 0x20 := fun h => hcontrol (UInt8.lt_iff_toNat_lt.2 h)
   rw [← hc]
   exact .unescaped (hn ▸ Nat.not_lt.1 hlow) (fun h => hquote (UInt8.toNat_inj.1 (hn.symm.trans h)))
    fun h => hescape (UInt8.toNat_inj.1 (hn.symm.trans h))
 · obtain ⟨c, body, hc, hw, rfl⟩ := readEscape_split h
   exact ⟨c, b :: body, not_not.1 hescape ▸ hc, hw, rfl⟩

theorem encode_high (h : 0x80 ≤ c.toNat) : ∃ b w, encode c = b :: w ∧ 0x80 ≤ b := by
 obtain ⟨b, w, n, bits, hc, hlead, -⟩ := bytes_of_encode h
 have hlow : 0x80 ≤ b.toNat := by
  have := leadByte_iff.1 hlead
  omega
 exact ⟨b, w, hc, UInt8.le_iff_toNat_le.2 hlow⟩

theorem readChar_append {body : Bytes} (h : CharText body c) :
  ∃ b w, body = b :: w ∧ b ≠ 0x22 ∧ ∀ s, readChar b (w ++ s) = .ok (encode c, s) := by
 cases h with
 | unescaped hcontrol hquote hescape =>
  by_cases hhigh : 0x80 ≤ c.toNat
  · obtain ⟨b, w, hc, hb⟩ := encode_high hhigh
    have hcontrol' : ¬ b < 0x20 := UInt8.not_lt.2 (UInt8.le_trans (by decide : (0x20 : UInt8) ≤ 0x80) hb)
    refine ⟨b, w, hc, ?_, fun s => ?_⟩
    · rintro rfl
      exact absurd hb (by decide)
    · rw [readChar, if_neg hcontrol', if_pos hb, ← cons_append, ← hc, readUtf8Char_append hhigh]
  · have hb : (UInt8.ofNat c.toNat).toNat = c.toNat := UInt8.toNat_ofNat_of_lt' (show c.toNat < 256 by omega)
    refine ⟨_, [], encode_ascii (by omega), ?_, fun s => ?_⟩
    · rw [ne_eq, ← UInt8.toNat_inj, hb]
      exact hquote
    · rw [readChar, if_neg, if_neg, if_pos, encode_ascii (by omega), nil_append]
      · rw [ne_eq, ← UInt8.toNat_inj, hb]
        exact hescape
      · rw [UInt8.le_iff_toNat_le, hb]
        exact hhigh
      · rw [UInt8.lt_iff_toNat_lt, hb]
        exact Nat.not_lt.2 hcontrol
 | @escaped e b c h hc =>
  refine ⟨_, _, rfl, by decide, fun s => ?_⟩
  rw [readChar, if_neg (by decide), if_neg (by decide), if_neg (by simp), singleton_append, readEscape,
   if_neg (shortEscape_ascii h).2, h, hc]
 | unicode h hc =>
  refine ⟨_, _, rfl, by decide, fun s => ?_⟩
  rw [readChar, if_neg (by decide), if_neg (by decide), if_neg (by simp), cons_append, readEscape, if_pos rfl]
  exact readUnicodeEscape_char h hc s
 | pair hhigh hlow hhigh' hlow' hc =>
  refine ⟨_, _, rfl, by decide, fun s => ?_⟩
  rw [readChar, if_neg (by decide), if_neg (by decide), if_neg (by simp), cons_append, readEscape, if_pos rfl]
  exact readUnicodeEscape_pair hhigh hlow hhigh' hlow' hc s

/-! ## The loop -/

variable {t : Bytes}

theorem parseChars_split {fuel : ℕ} {rest : Bytes} (h : parseChars fuel s = .ok (t, rest)) :
  ∃ body cs, s = body ++ 0x22 :: rest ∧ CharsText body cs ∧ t = cs.flatMap encode := by
 induction fuel generalizing s t with
 | zero =>
  cases s with
  | nil => exact absurd h fail_ne_ok
  | cons c s => exact absurd h fail_ne_ok
 | succ fuel ih =>
  cases s with
  | nil => exact absurd h fail_ne_ok
  | cons b s =>
   rw [parseChars] at h
   split_ifs at h with hquote
   · cases h
     exact ⟨[], [], by rw [hquote, nil_append], .nil, rfl⟩
   · simp only [bind_eq_ok, Prod.exists] at h
     obtain ⟨w, s', hw, ts, s'', hts, h⟩ := h
     cases h
     obtain ⟨c, text, hc, rfl, hs⟩ := readChar_split hw hquote
     obtain ⟨body, cs, rfl, hcs, rfl⟩ := ih hts
     exact ⟨text ++ body, c :: cs, by rw [hs, append_assoc], .cons hc hcs, rfl⟩

theorem parseChars_append {body : Bytes} {cs : List Char} (h : CharsText body cs) {fuel : ℕ} (hfuel : body.length < fuel)
  (s : Bytes) : parseChars fuel (body ++ 0x22 :: s) = .ok (cs.flatMap encode, s) := by
 induction h generalizing fuel with
 | nil =>
  obtain ⟨fuel, rfl⟩ := Nat.exists_eq_succ_of_ne_zero (show fuel ≠ 0 by omega)
  rw [nil_append, parseChars, if_pos rfl]
  rfl
 | @cons w body c cs hc hcs ih =>
  obtain ⟨fuel, rfl⟩ := Nat.exists_eq_succ_of_ne_zero (show fuel ≠ 0 by omega)
  obtain ⟨b, w, rfl, hquote, hread⟩ := readChar_append hc
  simp only [length_append, length_cons] at hfuel
  rw [append_assoc, cons_append, parseChars, if_neg hquote, hread, bind_ok]
  dsimp only
  rw [ih (by omega), bind_ok, flatMap_cons]

theorem parseString_split {rest : Bytes} (h : parseString s = .ok (t, rest)) (hquote : peek s = 0x22) :
  ∃ w, s = w ++ rest ∧ StringText w t := by
 obtain ⟨body, cs, hs, hcs, rfl⟩ := parseChars_split h
 refine ⟨0x22 :: (body ++ [0x22]), ?_, body, cs, rfl, hcs, rfl⟩
 rw [cons_of_peek hquote (by decide), hs]
 simp

theorem parseString_append (h : StringText w t) (s : Bytes) :
  peek (w ++ s) = 0x22 ∧ parseString (w ++ s) = .ok (t, s) := by
 obtain ⟨body, cs, rfl, hcs, rfl⟩ := h
 refine ⟨rfl, ?_⟩
 rw [parseString, cons_append, tail_cons, append_assoc, singleton_append]
 exact parseChars_append hcs (by simp only [length_cons, length_append]; omega) s

end MoltBrowser.BoundedJson
