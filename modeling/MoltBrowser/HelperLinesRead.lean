import MoltBrowser.HelperLines
import MoltBrowser.SpeechEvents

set_option autoImplicit false

/-!
# What the helper writes and the browser reads

The two programs' sides of one line: the strings, the numbers, the object, and the lines cut
out of whatever pieces the pipe delivers.
-/
namespace MoltBrowser.Voice
open StreamFilters SelfSynchronizing SpeechEvents List

/-! ## Strings -/

theorem parseHex4_escape (c : UInt8) (h : c < 0x80) (rest : Bytes) :
  parseHex4 (0x30 :: 0x30 :: kHex (c >>> 4) :: kHex (c &&& 0x0F) :: rest) = some (c.toNat, rest) := by
 have hdigits : c < 0x80 → ∃ a b, hexValue (kHex (c >>> 4)) = some a ∧ hexValue (kHex (c &&& 0x0F)) = some b ∧
   a * 16 + b = c.toNat :=
  forall_byte (p := fun c => c < 0x80 → ∃ a b, hexValue (kHex (c >>> 4)) = some a ∧
   hexValue (kHex (c &&& 0x0F)) = some b ∧ a * 16 + b = c.toNat) (fun n hn hlt => by
    have hall : ∀ n < 256, UInt8.ofNat n < 0x80 →
      hexValue (kHex (UInt8.ofNat n >>> 4)) = some (n / 16) ∧
      hexValue (kHex (UInt8.ofNat n &&& 0x0F)) = some (n % 16) ∧ n / 16 * 16 + n % 16 = (UInt8.ofNat n).toNat := by
     decide +kernel
    exact ⟨_, _, hall n hn hlt⟩) c
 obtain ⟨a, b, ha, hb, hab⟩ := hdigits h
 have hzero : hexValue 0x30 = some 0 := by decide
 simp only [parseHex4, hzero, ha, hb, Option.bind_eq_bind, Option.bind_some]
 rw [← hab]
 simp

theorem parseUnicode_escape (c : UInt8) (h : c < 0x80) (rest : Bytes) :
  parseUnicode (0x30 :: 0x30 :: kHex (c >>> 4) :: kHex (c &&& 0x0F) :: rest) = .ok ([c], rest) := by
 have hlt : c.toNat < 0x80 := h
 rw [parseUnicode, parseHex4_escape c h]
 dsimp only
 rw [if_neg (by omega), if_neg (by omega), appendUtf8, if_pos hlt, byte, UInt8.ofNat_toNat]

theorem utf8_escape : utf8 "\\u00" = [0x5C, 0x75, 0x30, 0x30] := by decide

theorem parseStringFrom_escape (fuel : ℕ) (out rest : Bytes) (c : UInt8) :
  parseStringFrom (fuel + 1) out (jsonEscape c ++ rest) = parseStringFrom fuel (out ++ [c]) rest := by
 rw [jsonEscape]
 split_ifs with hquote hcontrol
 · have hsimple : simpleEscape c = some c := by
    rw [simpleEscape, if_pos]
    exact hquote.elim .inl fun h => .inr (.inl h)
   simp [parseStringFrom, hsimple]
 · have hascii : c < 0x80 := by
    rcases hcontrol with h | rfl
    · exact UInt8.lt_trans h (by decide)
    · decide
   have hescape : simpleEscape 0x75 = none := by decide
   rw [utf8_escape]
   simp only [cons_append, nil_append, parseStringFrom, hescape, parseUnicode_escape c hascii]
   simp
 · rw [not_or] at hquote hcontrol
   simp [parseStringFrom, hquote.1, hquote.2, hcontrol.1]

theorem parseString_jsonQuote {text : Bytes} (h : Valid text) (rest : Bytes) :
  parseString (jsonQuote text ++ rest) = .ok (text, rest) := by
 have hfrom : ∀ (t out : Bytes) (fuel : ℕ), (t.flatMap jsonEscape).length < fuel → Valid (out ++ t) →
   parseStringFrom fuel out (t.flatMap jsonEscape ++ ([0x22] ++ rest)) = .ok (out ++ t, rest) := by
  intro t
  induction t with
  | nil =>
   intro out fuel hfuel hvalid
   obtain ⟨fuel, rfl⟩ := Nat.exists_eq_succ_of_ne_zero (by omega : fuel ≠ 0)
   rw [append_nil] at hvalid ⊢
   simp [parseStringFrom, (isValidUtf8_iff out).2 hvalid]
  | cons c t ih =>
   intro out fuel hfuel hvalid
   have hpos : 0 < (jsonEscape c).length := by
    rw [jsonEscape]
    split_ifs <;> simp
   rw [flatMap_cons, length_append] at hfuel
   obtain ⟨fuel, rfl⟩ := Nat.exists_eq_succ_of_ne_zero (by omega : fuel ≠ 0)
   rw [flatMap_cons, append_assoc, parseStringFrom_escape, ih (out ++ [c]) fuel (by omega) (by simpa using hvalid)]
   simp
 rw [jsonQuote, append_assoc, append_assoc, singleton_append, parseString]
 have hread := hfrom text [] ((text.flatMap jsonEscape ++ ([0x22] ++ rest)).length + 1) (by simp) (by simpa using h)
 simpa using hread

/-! ## Numbers -/

theorem isDigit_byte {d : ℕ} (h : d < 10) : isDigit (0x30 + UInt8.ofNat d) = true ∧
  digitValue (0x30 + UInt8.ofNat d) = d ∧ (d ≠ 0 → (0x30 + UInt8.ofNat d : UInt8) ≠ 0x30) := by
 have hall : ∀ d < 10, isDigit (0x30 + UInt8.ofNat d) = true ∧ (0x30 + UInt8.ofNat d).toNat - 0x30 = d ∧
   (d ≠ 0 → (0x30 + UInt8.ofNat d : UInt8) ≠ 0x30) := by decide
 obtain ⟨hdigit, hvalue, hne⟩ := hall d h
 exact ⟨hdigit, by rw [digitValue, hvalue], hne⟩

theorem wholePart_digits (ds : List ℕ) (h : ∀ d ∈ ds, d < 10) :
  wholePart (ds.reverse.map fun d => 0x30 + UInt8.ofNat d) = (Nat.ofDigits 10 ds : ℕ) := by
 induction ds with
 | nil => simp [wholePart]
 | cons d ds ih =>
  have hd := (isDigit_byte (h d (mem_cons_self ..))).2.1
  rw [wholePart] at ih
  rw [wholePart, reverse_cons, map_append, foldl_append, ih fun e he => h e (mem_cons_of_mem _ he)]
  simp only [map_cons, map_nil, foldl_cons, foldl_nil, hd, Nat.ofDigits_cons]
  push_cast
  ring

theorem decimal_digits (n : ℕ) : ∀ c ∈ decimal n, isDigit c = true := by
 intro c hc
 rw [decimal] at hc
 split_ifs at hc
 · rw [mem_singleton.1 hc]
   decide
 · obtain ⟨d, hd, rfl⟩ := mem_map.1 hc
   exact (isDigit_byte (Nat.digits_lt_base (by norm_num) (mem_reverse.1 hd))).1

theorem takeWhile_digits {l rest : Bytes} (hl : ∀ c ∈ l, isDigit c = true)
  (hrest : ∀ c ∈ rest.head?, isDigit c = false) :
  (l ++ rest).takeWhile isDigit = l ∧ (l ++ rest).dropWhile isDigit = rest := by
 rw [takeWhile_append_of_pos hl, dropWhile_append_of_pos hl]
 cases rest with
 | nil => simp
 | cons c rest =>
  have hc := hrest c (by simp)
  simp [hc]

theorem decimal_cons {n : ℕ} (hn : n ≠ 0) : ∃ d cs, d < 10 ∧ d ≠ 0 ∧ decimal n = (0x30 + UInt8.ofNat d) :: cs := by
 have hne : Nat.digits 10 n ≠ [] := Nat.digits_ne_nil_iff_ne_zero.2 hn
 refine ⟨(Nat.digits 10 n).getLast hne, (Nat.digits 10 n).dropLast.reverse.map fun d => 0x30 + UInt8.ofNat d,
  Nat.digits_lt_base (by norm_num) (getLast_mem hne),
  Nat.getLast_digit_ne_zero 10 hn, ?_⟩
 rw [decimal, if_neg hn]
 conv_lhs => rw [← dropLast_append_getLast hne, reverse_append]
 rfl

theorem parseInteger_decimal (n : ℕ) {rest : Bytes} (hrest : ∀ c ∈ rest.head?, isDigit c = false) :
  parseInteger (decimal n ++ rest) = some ((n : ℚ), rest) := by
 by_cases hn : n = 0
 · subst hn
   have hnot : (rest.head?.map isDigit).getD false = false := by
    cases rest with
    | nil => rfl
    | cons c rest => exact hrest c (by simp)
   have hzero : isDigit 0x30 = true := by decide
   simp [decimal, parseInteger, hnot, hzero]
 · have hall := decimal_digits n
   have hvalue := wholePart_digits (Nat.digits 10 n) fun d hd => Nat.digits_lt_base (by norm_num) hd
   rw [Nat.ofDigits_digits] at hvalue
   have hdec : decimal n = (Nat.digits 10 n).reverse.map fun d => 0x30 + UInt8.ofNat d := if_neg hn
   obtain ⟨hwhole, hafter⟩ := takeWhile_digits hall hrest
   obtain ⟨d, cs, hlt, hlast, hcons⟩ := decimal_cons hn
   obtain ⟨hdigit, -, hfirst⟩ := isDigit_byte hlt
   generalize 0x30 + UInt8.ofNat d = c at hcons hdigit hfirst
   rw [hcons, cons_append] at hwhole hafter
   rw [hcons, cons_append, parseInteger]
   simp only [hdigit, hfirst hlast, if_false, Bool.not_true, Bool.false_eq_true, hwhole, hafter]
   rw [← hcons, hdec, hvalue]

def Ends (rest : Bytes) : Prop := rest.head? = some 0x2C ∨ rest.head? = some 0x7D

theorem Ends.not_digit {rest : Bytes} (h : Ends rest) : ∀ c ∈ rest.head?, isDigit c = false := by
 intro c hc
 rcases h with h | h
 · rw [h] at hc
   obtain rfl := Option.some.inj hc
   decide
 · rw [h] at hc
   obtain rfl := Option.some.inj hc
   decide

theorem parseFraction_ends {rest : Bytes} (h : Ends rest) (value : ℚ) : parseFraction value rest = some (value, rest) := by
 cases rest with
 | nil => rfl
 | cons c rest =>
  rcases h with h | h
  · obtain rfl := Option.some.inj h
    rfl
  · obtain rfl := Option.some.inj h
    rfl

theorem parseExponent_ends {rest : Bytes} (h : Ends rest) (value : ℚ) : parseExponent value rest = some (value, rest) := by
 cases rest with
 | nil => rfl
 | cons c rest =>
  rcases h with h | h
  · obtain rfl := Option.some.inj h
    rfl
  · obtain rfl := Option.some.inj h
    rfl

theorem parseValue_number {raw rest : Bytes} {value : ℚ} {mid : Bytes} (hfirst : ∀ c ∈ (raw ++ rest).head?, isDigit c = true)
  (hne : raw ≠ [])
  (hint : parseInteger (raw ++ rest) = some (value, mid)) {x : ℚ}
  (hfraction : parseFraction value mid = some (x, rest)) (hends : Ends rest) :
  parseValue (raw ++ rest) = .ok (.number x, rest) := by
 cases raw with
 | nil => exact absurd rfl hne
 | cons c raw =>
  have hc : isDigit c = true := hfirst c (by simp)
  have hsyntax : isDigit 0x22 = false ∧ isDigit 0x5B = false ∧ isDigit 0x7B = false ∧ isDigit 0x2D = false ∧
    isDigit 0x74 = false ∧ isDigit 0x66 = false ∧ isDigit 0x6E = false := by decide
  have hother : ∀ {d : UInt8}, isDigit d = false → c ≠ d := by
   rintro d hd rfl
   rw [hc] at hd
   exact absurd hd (by simp)
  obtain ⟨hquote, hlist, hobject, hminus, ht, hf, hn⟩ := hsyntax
  have hnumber : parseNumber (c :: (raw ++ rest)) = .ok (x, rest) := by
   have hsign : (some c == some (0x2D : UInt8)) = false := by simp [hother hminus]
   rw [cons_append] at hint
   simp [parseNumber, hsign, hint, hfraction, parseExponent_ends hends]
  have hword : ∀ {d : UInt8} {word : Bytes}, isDigit d = false → consumeWord (d :: word) (c :: (raw ++ rest)) = none := by
   intro d word hd
   simp [consumeWord, (hother hd).symm]
  have htrue : utf8 "true" = 0x74 :: [0x72, 0x75, 0x65] := by decide
  have hfalse : utf8 "false" = 0x66 :: [0x61, 0x6C, 0x73, 0x65] := by decide
  have hnull : utf8 "null" = 0x6E :: [0x75, 0x6C, 0x6C] := by decide
  rw [cons_append, parseValue.eq_def]
  split
  · exact absurd (List.cons.inj ‹_›).1 (hother hquote)
  · exact absurd (List.cons.inj ‹_›).1 (hother hlist)
  · exact absurd (List.cons.inj ‹_›).1 (hother hobject)
  · rw [htrue, hfalse, hnull, hword ht, hword hf, hword hn]
    dsimp only
    rw [hnumber]
    rfl

theorem decimal_ne_nil (n : ℕ) : decimal n ≠ [] := by
 rw [decimal]
 split_ifs with hn
 · simp
 · rw [ne_eq, map_eq_nil_iff, reverse_eq_nil_iff]
   exact Nat.digits_ne_nil_iff_ne_zero.2 hn

theorem head_decimal (n : ℕ) (rest : Bytes) : ∀ c ∈ (decimal n ++ rest).head?, isDigit c = true := by
 intro c hc
 cases hd : decimal n with
 | nil => exact absurd hd (decimal_ne_nil n)
 | cons d l =>
  rw [hd] at hc
  obtain rfl := Option.some.inj hc
  exact decimal_digits n d (hd ▸ mem_cons_self ..)

theorem parseValue_decimal (n : ℕ) {rest : Bytes} (h : Ends rest) :
  parseValue (decimal n ++ rest) = .ok (.number n, rest) := by
 exact parseValue_number (head_decimal n rest) (decimal_ne_nil n) (parseInteger_decimal n h.not_digit)
  (parseFraction_ends h (n : ℚ)) h

/-! ## Confidence -/

theorem hundredths_le (value : SpeechEvents.Double) : hundredths value ≤ 100 := by
 cases value with
 | nan => exact Nat.zero_le _
 | infinite negative => cases negative <;> simp [hundredths]
 | finite value =>
  rw [hundredths]
  split_ifs with hpos hone
  · exact le_refl _
  · have hfloor : ⌊value * 100 + 1 / 2⌋ ≤ 100 := by
     rw [← Int.lt_add_one_iff, Int.floor_lt]
     push_cast
     linarith [not_lt.1 hone]
    omega
  · exact Nat.zero_le _

theorem parseValue_twoDecimals (value : SpeechEvents.Double) {rest : Bytes} (h : Ends rest) :
  parseValue (twoDecimals value ++ rest) = .ok (.number (hundredths value / 100), rest) := by
 generalize hn : hundredths value = n
 have hpoint : utf8 "." = [0x2E] := by decide
 obtain ⟨htens, hten, -⟩ := isDigit_byte (show n % 100 / 10 < 10 by omega)
 obtain ⟨hunits, hunit, -⟩ := isDigit_byte (show n % 10 < 10 by omega)
 have hraw : twoDecimals value ++ rest = decimal (n / 100) ++
   (0x2E :: ([0x30 + UInt8.ofNat (n % 100 / 10), 0x30 + UInt8.ofNat (n % 10)] ++ rest)) := by
  rw [twoDecimals, hn, hpoint]
  simp
 obtain ⟨htake, hdrop⟩ := takeWhile_digits
  (l := [0x30 + UInt8.ofNat (n % 100 / 10), 0x30 + UInt8.ofNat (n % 10)])
  (by simp [htens, hunits]) h.not_digit
 have hfraction : parseFraction (n / 100 : ℕ)
   (0x2E :: ([0x30 + UInt8.ofNat (n % 100 / 10), 0x30 + UInt8.ofNat (n % 10)] ++ rest)) = some ((n : ℚ) / 100, rest) := by
  rw [parseFraction, htake, hdrop, if_neg (by simp)]
  have hsum : ((n / 100 : ℕ) : ℚ) * 100 + (n % 100 / 10 : ℕ) * 10 + (n % 10 : ℕ) = n := by
   have : n / 100 * 100 + n % 100 / 10 * 10 + n % 10 = n := by omega
   exact_mod_cast this
  simp only [withFraction, foldl_cons, foldl_nil, hten, hunit]
  congr 2
  linarith
 have hfirst : ∀ c ∈ (twoDecimals value ++ rest).head?, isDigit c = true := by
  rw [hraw]
  exact head_decimal _ _
 have hint : parseInteger (twoDecimals value ++ rest) = some (((n / 100 : ℕ) : ℚ),
   0x2E :: ([0x30 + UInt8.ofNat (n % 100 / 10), 0x30 + UInt8.ofNat (n % 10)] ++ rest)) := by
  rw [hraw]
  exact parseInteger_decimal _ (by simp [isDigit])
 exact parseValue_number hfirst (by simp [twoDecimals, decimal_ne_nil]) hint hfraction h

theorem hundredths_unit (value : SpeechEvents.Double) : 0 ≤ (hundredths value : ℚ) / 100 ∧ (hundredths value : ℚ) / 100 ≤ 1 := by
 have hle : (hundredths value : ℚ) ≤ 100 := by exact_mod_cast hundredths_le value
 exact ⟨by positivity, by linarith⟩

/-! ## Lines that can be cut out again -/

structure Clean (raw : Bytes) : Prop where
 valid : Valid raw
 shown : ∀ b ∈ raw, 0x20 ≤ b

theorem Clean.append {a b : Bytes} (ha : Clean a) (hb : Clean b) : Clean (a ++ b) :=
 ⟨ha.valid.append hb.valid, fun c hc => (mem_append.1 hc).elim (ha.shown c) (hb.shown c)⟩

theorem Clean.nil : Clean [] := ⟨.nil, by simp⟩

theorem Clean.of_ascii {raw : Bytes} (h : ∀ b ∈ raw, 0x20 ≤ b ∧ b < 0x80) : Clean raw := by
 induction raw with
 | nil => exact .nil
 | cons c raw ih =>
  obtain ⟨hshown, hascii⟩ := h c (mem_cons_self ..)
  have hfirst : Clean [c] := ⟨.single (wellFormed_ascii hascii), by simpa using hshown⟩
  exact hfirst.append (ih fun b hb => h b (mem_cons_of_mem _ hb))

theorem kHex_ascii (c : UInt8) : ((0x20 : UInt8) ≤ kHex (c >>> 4) ∧ kHex (c >>> 4) < 0x80) ∧
  ((0x20 : UInt8) ≤ kHex (c &&& 0x0F) ∧ kHex (c &&& 0x0F) < 0x80) :=
 forall_byte (p := fun c => ((0x20 : UInt8) ≤ kHex (c >>> 4) ∧ kHex (c >>> 4) < 0x80) ∧
  ((0x20 : UInt8) ≤ kHex (c &&& 0x0F) ∧ kHex (c &&& 0x0F) < 0x80)) (by decide +kernel) c

theorem jsonEscape_ascii {c : UInt8} (h : c < 0x80) : ∀ b ∈ jsonEscape c, 0x20 ≤ b ∧ b < 0x80 := by
 intro b hb
 rw [jsonEscape] at hb
 split_ifs at hb with hquote hcontrol
 · have hlow : 0x20 ≤ c := by
    rcases hquote with rfl | rfl <;> decide
   simp only [mem_cons, not_mem_nil, or_false] at hb
   rcases hb with rfl | rfl
   · decide
   · exact ⟨hlow, h⟩
 · rw [utf8_escape] at hb
   obtain ⟨hhigh, hlow⟩ := kHex_ascii c
   simp only [cons_append, nil_append, mem_cons, not_mem_nil, or_false] at hb
   rcases hb with rfl | rfl | rfl | rfl | rfl | rfl
   · decide
   · decide
   · decide
   · decide
   · exact hhigh
   · exact hlow
 · rw [not_or] at hcontrol
   rw [mem_singleton.1 hb]
   exact ⟨UInt8.not_lt.1 hcontrol.1, h⟩

theorem jsonEscape_high {c : UInt8} (h : ¬ c < 0x80) : jsonEscape c = [c] := by
 have hkept : ¬ (c = 0x22 ∨ c = 0x5C) ∧ ¬ (c < 0x20 ∨ c = 0x7F) :=
  forall_byte (p := fun c => ¬ c < 0x80 → ¬ (c = 0x22 ∨ c = 0x5C) ∧ ¬ (c < 0x20 ∨ c = 0x7F))
   (by decide +kernel) c h
 rw [jsonEscape, if_neg hkept.1, if_neg hkept.2]

theorem Clean.jsonQuote {text : Bytes} (h : Valid text) : Clean (jsonQuote text) := by
 have hbody : Clean (text.flatMap jsonEscape) := by
  induction h with
  | nil => exact .nil
  | @cons w rest hw _ ih =>
   rw [flatMap_append]
   refine Clean.append ?_ ih
   obtain ⟨c, tail, rfl, hlead, htail⟩ := wellFormed_synchronizing.starts hw
   have hhigh : ∀ b ∈ tail, ¬ b < 0x80 := fun b hb =>
    UInt8.not_lt.2 ((isContinuation_iff b).1 (by simpa [Leads] using htail b hb)).1
   have hkept : tail.flatMap jsonEscape = tail := by
    rw [flatMap_congr fun b hb => jsonEscape_high (hhigh b hb), flatMap_singleton']
   rw [flatMap_cons, hkept]
   by_cases hascii : c < 0x80
   · obtain ⟨d, more, heq, hlen, -⟩ := hw
     obtain ⟨rfl, rfl⟩ := List.cons.inj heq
     rw [shapeOf_ascii hascii] at hlen
     obtain rfl := eq_nil_of_length_eq_zero (by omega : tail.length = 0)
     rw [append_nil]
     exact .of_ascii (jsonEscape_ascii hascii)
   · rw [jsonEscape_high hascii, singleton_append]
     refine ⟨.single hw, fun b hb => ?_⟩
     have hb80 : ¬ b < 0x80 := by
      rcases mem_cons.1 hb with rfl | hb
      · exact hascii
      · exact hhigh b hb
     exact UInt8.le_trans (by decide) (UInt8.not_lt.1 hb80)
 have hmark : Clean [0x22] := ⟨.single (wellFormed_ascii (by decide)), by simp⟩
 exact (hmark.append hbody).append hmark

/-! ## The object -/

/-- A member's text up to where it ends, and the value read from it. -/
structure Reads (raw : Bytes) (value : JsonValue) : Prop where
 starts : skipSpace raw = raw ∧ raw ≠ []
 reads : ∀ rest, Ends rest → parseValue (raw ++ rest) = .ok (value, rest)

theorem skipSpace_cons {c : UInt8} (h : 0x20 < c) (s : Bytes) : skipSpace (c :: s) = c :: s := by
 have hnot : (c == 0x20 || c == 0x09 || c == 0x0D || c == 0x0A) = false :=
  forall_byte (p := fun c => 0x20 < c → (c == 0x20 || c == 0x09 || c == 0x0D || c == 0x0A) = false)
   (by decide +kernel) c h
 rw [skipSpace, dropWhile_cons_of_neg (by simp [hnot])]

theorem Reads.skipSpace {raw : Bytes} {value : JsonValue} (h : Reads raw value) (rest : Bytes) :
  skipSpace (raw ++ rest) = raw ++ rest := by
 obtain ⟨hskip, hne⟩ := h.starts
 cases raw with
 | nil => exact absurd rfl hne
 | cons c raw =>
  rw [Voice.skipSpace, dropWhile_eq_self_iff] at hskip
  rw [Voice.skipSpace, dropWhile_eq_self_iff]
  simpa using hskip

/-- A member as it is written: its key, its value's text and the value. -/
structure Member where
 key : Bytes
 raw : Bytes
 value : JsonValue

structure Member.Ok (m : Member) : Prop where
 key : Valid m.key
 reads : Reads m.raw m.value
 clean : Clean m.raw

def Member.text (m : Member) : Bytes := jsonQuote m.key ++ 0x3A :: m.raw

def Member.read (m : Member) : Bytes × JsonValue := (m.key, m.value)

def membersText (m : Member) : List Member → Bytes
 | [] => m.text ++ [0x7D]
 | n :: more => m.text ++ 0x2C :: membersText n more

def objectText (m : Member) (more : List Member) : Bytes := 0x7B :: membersText m more

theorem parseMember {m : Member} (h : m.Ok) (rest : Bytes) :
  parseString (skipSpace (m.text ++ rest)) = .ok (m.key, 0x3A :: (m.raw ++ rest)) := by
 have hquote : m.text ++ rest = jsonQuote m.key ++ 0x3A :: (m.raw ++ rest) := by
  simp [Member.text]
 rw [hquote]
 have hskip : skipSpace (jsonQuote m.key ++ 0x3A :: (m.raw ++ rest)) = jsonQuote m.key ++ 0x3A :: (m.raw ++ rest) := by
  rw [jsonQuote, append_assoc, append_assoc, singleton_append]
  exact skipSpace_cons (by decide) _
 rw [hskip]
 exact parseString_jsonQuote h.key _

theorem parseMembers_text {m : Member} {more : List Member} {seen : Members} {fuel : ℕ}
  (h : ∀ n ∈ m :: more, n.Ok) (hkeys : (seen.map Prod.fst ++ (m :: more).map Member.key).Nodup)
  (hfuel : more.length < fuel) :
  parseMembers fuel seen (membersText m more) = .ok (seen ++ (m :: more).map Member.read) := by
 induction more generalizing m seen fuel with
 | nil =>
  obtain ⟨fuel, rfl⟩ := Nat.exists_eq_succ_of_ne_zero (by omega : fuel ≠ 0)
  have hm := h m (mem_cons_self ..)
  have hnew : (seen.any fun n => n.1 == m.key) = false := by
   rw [map_singleton, ← concat_eq_append, List.nodup_concat] at hkeys
   simpa using fun a b hab he => hkeys.1 (mem_map.2 ⟨(a, b), hab, he⟩)
  rw [membersText, parseMembers, parseMember hm]
  simp only [skipSpace_cons (c := 0x3A) (by decide)]
  rw [hm.reads.skipSpace, hm.reads.reads _ (.inr rfl)]
  dsimp only
  rw [hnew, if_neg (by simp), skipSpace_cons (by decide)]
  rfl
 | cons n more ih =>
  obtain ⟨fuel, rfl⟩ := Nat.exists_eq_succ_of_ne_zero (by omega : fuel ≠ 0)
  have hm := h m (mem_cons_self ..)
  have hnew : (seen.any fun n => n.1 == m.key) = false := by
   have hdisjoint := (nodup_append.1 hkeys).2.2
   rw [any_eq_false]
   intro a ha he
   exact hdisjoint a.1 (mem_map_of_mem ha) m.key (by simp) (by simpa using he)
  have hrest := @ih n (seen ++ [m.read]) fuel (fun a ha => h a (mem_cons_of_mem _ ha))
   (by simpa [Member.read] using hkeys) (by simp only [length_cons] at hfuel; omega)
  rw [membersText, parseMembers, parseMember hm]
  simp only [skipSpace_cons (c := 0x3A) (by decide)]
  rw [hm.reads.skipSpace, hm.reads.reads _ (.inl rfl)]
  dsimp only
  rw [hnew, if_neg (by simp)]
  rw [Member.read] at hrest
  simp only [skipSpace_cons (c := 0x2C) (by decide), hrest]
  simp [Member.read]

theorem parseObject_text {m : Member} {more : List Member} (h : ∀ n ∈ m :: more, n.Ok)
  (hkeys : ((m :: more).map Member.key).Nodup) :
  parseObject (objectText m more) = .ok ((m :: more).map Member.read) := by
 have hquote : ∃ s, membersText m more = 0x22 :: s := by
  cases more with
  | nil => exact ⟨_, rfl⟩
  | cons n more => exact ⟨_, rfl⟩
 obtain ⟨s, hs⟩ := hquote
 have hlong : ∀ (n : Member) (more : List Member), more.length < (membersText n more).length + 1 := by
  intro n more
  induction more generalizing n with
  | nil => simp
  | cons k more ih =>
   have := ih k
   simp only [membersText, length_append, length_cons]
   omega
 have hread := @parseMembers_text m more [] _ h (by simpa using hkeys) (hlong m more)
 have hopen : skipSpace (membersText m more) = membersText m more := by
  rw [hs]
  exact skipSpace_cons (by decide) s
 rw [objectText, parseObject]
 simp only [skipSpace_cons (c := 0x7B) (by decide), hopen]
 rw [hs] at hread ⊢
 exact hread

/-! ## Values -/

theorem Reads.string {text : Bytes} (h : Valid text) : Reads (jsonQuote text) (.string text) where
 starts := by
  rw [jsonQuote, append_assoc, singleton_append]
  exact ⟨skipSpace_cons (by decide) _, cons_ne_nil _ _⟩
 reads rest _ := by
  have hquote : jsonQuote text ++ rest = 0x22 :: (text.flatMap jsonEscape ++ [0x22] ++ rest) := by
   simp [jsonQuote]
  rw [hquote, parseValue, ← hquote, parseString_jsonQuote h]
  rfl

theorem skipSpace_digits {raw : Bytes} (h : ∀ c ∈ raw.head?, isDigit c = true) : skipSpace raw = raw := by
 cases raw with
 | nil => rfl
 | cons c raw =>
  have hdigit : isDigit c = true := h c rfl
  rw [isDigit, Bool.and_eq_true, decide_eq_true_eq] at hdigit
  exact skipSpace_cons (UInt8.lt_of_lt_of_le (by decide) hdigit.1) raw

theorem Reads.decimal (n : ℕ) : Reads (decimal n) (.number n) where
 starts := by
  have hhead := head_decimal n []
  rw [append_nil] at hhead
  exact ⟨skipSpace_digits hhead, decimal_ne_nil n⟩
 reads _ h := parseValue_decimal n h

theorem Reads.twoDecimals (value : SpeechEvents.Double) : Reads (twoDecimals value) (.number (hundredths value / 100)) where
 starts := by
  refine ⟨skipSpace_digits ?_, by simp [SpeechEvents.twoDecimals, decimal_ne_nil]⟩
  rw [SpeechEvents.twoDecimals, append_assoc]
  exact head_decimal _ _
 reads _ h := parseValue_twoDecimals value h

theorem parseStrings_text {t : Bytes} {more l : List Bytes} {fuel : ℕ} (h : ∀ s ∈ t :: more, Valid s)
  (hfuel : more.length < fuel) (rest : Bytes) :
  parseStrings fuel l ((((t :: more).map jsonQuote).intersperse [0x2C]).flatten ++ 0x5D :: rest) =
   .ok (l ++ t :: more, rest) := by
 induction more generalizing t l fuel with
 | nil =>
  obtain ⟨fuel, rfl⟩ := Nat.exists_eq_succ_of_ne_zero (by omega : fuel ≠ 0)
  have hskip := (Reads.string (h t (mem_cons_self ..))).skipSpace (0x5D :: rest)
  have hhead : (jsonQuote t ++ 0x5D :: rest).head? = some 0x22 := by simp [jsonQuote]
  simp only [map_cons, map_nil, intersperse_singleton, flatten_cons, flatten_nil,
   append_nil]
  rw [parseStrings, hskip, if_neg (not_not.2 hhead), parseString_jsonQuote (h t (mem_cons_self ..))]
  simp only [skipSpace_cons (c := 0x5D) (by decide)]
 | cons u more ih =>
  obtain ⟨fuel, rfl⟩ := Nat.exists_eq_succ_of_ne_zero (by omega : fuel ≠ 0)
  have hrest := @ih u (l ++ [t]) fuel (fun s hs => h s (mem_cons_of_mem _ hs))
   (by simp only [length_cons] at hfuel; omega)
  have htext : (((t :: u :: more).map jsonQuote).intersperse [0x2C]).flatten ++ 0x5D :: rest =
    jsonQuote t ++ 0x2C :: ((((u :: more).map jsonQuote).intersperse [0x2C]).flatten ++ 0x5D :: rest) := by
   simp
  have hskip := (Reads.string (h t (mem_cons_self ..))).skipSpace
   (0x2C :: ((((u :: more).map jsonQuote).intersperse [0x2C]).flatten ++ 0x5D :: rest))
  have hhead : (jsonQuote t ++ 0x2C :: ((((u :: more).map jsonQuote).intersperse [0x2C]).flatten ++ 0x5D :: rest)).head?
    = some 0x22 := by simp [jsonQuote]
  rw [htext, parseStrings, hskip, if_neg (not_not.2 hhead), parseString_jsonQuote (h t (mem_cons_self ..))]
  simp only [skipSpace_cons (c := 0x2C) (by decide)]
  rw [hrest]
  simp

def stringsText (l : List Bytes) : Bytes := 0x5B :: ((l.map jsonQuote).intersperse [0x2C]).flatten ++ [0x5D]

theorem Reads.strings {l : List Bytes} (h : ∀ s ∈ l, Valid s) : Reads (stringsText l) (.strings l) where
 starts := ⟨skipSpace_cons (by decide) _, cons_ne_nil _ _⟩
 reads rest _ := by
  cases l with
  | nil => rfl
  | cons t more =>
   have hcons : stringsText (t :: more) ++ rest =
     0x5B :: ((((t :: more).map jsonQuote).intersperse [0x2C]).flatten ++ 0x5D :: rest) := by
    simp [stringsText]
   have hlong : ∀ l : List Bytes, l.length ≤ ((l.map jsonQuote).intersperse [0x2C]).flatten.length := by
    intro l
    induction l with
    | nil => simp
    | cons s l ih =>
     cases l with
     | nil => simp [jsonQuote]
     | cons u l =>
      simp only [map_cons, intersperse_cons_cons, flatten_cons, length_append,
       length_cons, length_nil] at ih ⊢
      omega
   have hread := parseStrings_text (l := []) h
    (Nat.lt_succ_of_le (Nat.le_trans (by simp) (Nat.le_trans (hlong (t :: more))
     (Nat.le_add_right _ (0x5D :: rest).length)))) rest
   rw [← length_append] at hread
   have hquote : ∃ s, (((t :: more).map jsonQuote).intersperse [0x2C]).flatten ++ 0x5D :: rest = 0x22 :: s := by
    cases more with
    | nil => exact ⟨_, rfl⟩
    | cons u more => exact ⟨_, rfl⟩
   obtain ⟨s, hs⟩ := hquote
   rw [hs] at hcons hread
   rw [hcons, parseValue]
   simp only [skipSpace_cons (c := 0x22) (by decide)]
   exact congrArg (Except.map fun r => (JsonValue.strings r.1, r.2)) hread

end MoltBrowser.Voice
