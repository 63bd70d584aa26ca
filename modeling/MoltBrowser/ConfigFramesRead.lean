import MoltBrowser.HelperLinesRead
import MoltBrowser.SpeechPhrasesKept

set_option autoImplicit false

/-!
# The helper reads what the browser writes

The frame as a row of members, one lemma for what is read of each kind of value, and the update
they make together.
-/
namespace MoltBrowser.ConfigFrames
open List
open SpeechEvents (decimal toText)
open SpeechListener (ConfigUpdate)
open SpeechPhrases (HelperConfig Spelled LetteredWords appendItems appendJsonString appendJsonStrings clampedVad encodeConfigJson
 isPhraseByte jsonByte kMaxHotwords kMaxPhraseBytes reduceSpeechPhrase reduceSpeechPhrase_fits reduceSpeechPhrase_self)

variable {s rest out : Bytes} {ps : List Bytes} {size maxItems fuel : ℕ}

/-! ## Strings -/

def Plain (s : Bytes) : Prop := ∀ c ∈ s, 0x20 ≤ c ∧ c < 0x80 ∧ c ≠ 0x22 ∧ c ≠ 0x5C

def quoted (s : Bytes) : Bytes := 0x22 :: (s ++ [0x22])

theorem spelled_plain (h : Spelled s) : Plain s := by
 have hbyte : ∀ c : UInt8, isPhraseByte c = true ∨ c = 0x20 → 0x20 ≤ c ∧ c < 0x80 ∧ c ≠ 0x22 ∧ c ≠ 0x5C :=
  StreamFilters.forall_byte (p := fun c => isPhraseByte c = true ∨ c = 0x20 → 0x20 ≤ c ∧ c < 0x80 ∧ c ≠ 0x22 ∧ c ≠ 0x5C)
   (by decide +kernel)
 exact fun c hc => hbyte c (h c hc)

theorem appendJsonString_plain (hs : Plain s) (out : Bytes) : appendJsonString s out = out ++ quoted s := by
 have hbytes : s.flatMap jsonByte = s := by
  induction s with
  | nil => rfl
  | cons c s ih =>
   obtain ⟨hlow, -, hquote, hslash⟩ := hs c mem_cons_self
   have hsame : jsonByte c = [c] := by
    rw [jsonByte, if_neg (by rw [not_or]; exact ⟨hquote, hslash⟩), if_neg (UInt8.not_lt.2 hlow)]
   rw [flatMap_cons, hsame, ih fun d hd => hs d (mem_cons_of_mem _ hd), singleton_append]
 rw [appendJsonString, hbytes, quoted, append_assoc, append_assoc, singleton_append]

theorem readChars_plain (hs : Plain s) (hfuel : s.length < fuel) (hlen : (out ++ s).length ≤ kMaxJsonStringBytes) :
  readChars size fuel out (s ++ 0x22 :: rest) = .ok (out ++ s, rest) := by
 induction s generalizing out fuel with
 | nil =>
  obtain ⟨fuel, rfl⟩ := Nat.exists_eq_succ_of_ne_zero (Nat.ne_zero_of_lt hfuel)
  rw [nil_append, readChars, if_pos rfl, append_nil]
 | cons c s ih =>
  obtain ⟨fuel, rfl⟩ := Nat.exists_eq_succ_of_ne_zero (Nat.ne_zero_of_lt hfuel)
  obtain ⟨hlow, hhigh, hquote, hslash⟩ := hs c mem_cons_self
  have hchar : readChar size c (s ++ 0x22 :: rest) = .ok ([c], s ++ 0x22 :: rest) := by
   rw [readChar, if_neg (UInt8.not_lt.2 hlow), if_neg hslash, if_pos hhigh]
  have hassoc : out ++ c :: s = (out ++ [c]) ++ s := by rw [append_assoc, singleton_append]
  rw [hassoc] at hlen ⊢
  have hroom : ¬ kMaxJsonStringBytes < (out ++ [c]).length := by
   rw [length_append] at hlen
   omega
  have hmore := @ih (out ++ [c]) fuel (fun d hd => hs d (mem_cons_of_mem _ hd))
   (by rw [length_cons] at hfuel; omega) hlen
  rw [cons_append, readChars, if_neg hquote, hchar]
  exact (if_neg hroom).trans hmore

theorem readString_plain (hs : Plain s) (hlen : s.length ≤ kMaxJsonStringBytes) (rest : Bytes) :
  readString size (quoted s ++ rest) = .ok (s, rest) := by
 have hchars := @readChars_plain s rest [] size ((s ++ 0x22 :: rest).length + 1) hs
  (by rw [length_append]; omega) hlen
 rw [quoted, cons_append, append_assoc, singleton_append, readString, consume, if_pos rfl]
 exact hchars

/-! ## Arrays of strings -/

def laterText (ps : List Bytes) : Bytes := ps.flatMap fun p => 0x2C :: quoted p

theorem laterText_cons (p : Bytes) (ps : List Bytes) : laterText (p :: ps) = 0x2C :: (quoted p ++ laterText ps) := rfl

def itemsText : List Bytes → Bytes
 | [] => []
 | p :: ps => quoted p ++ laterText ps

theorem skipSpace_quoted (s rest : Bytes) : skipSpace (quoted s ++ rest) = quoted s ++ rest :=
 dropWhile_cons_of_neg (by decide)

theorem skipSpace_cons {c : UInt8} (hc : (c == 0x20 || c == 0x09 || c == 0x0A || c == 0x0D) = false) (s : Bytes) :
  skipSpace (c :: s) = c :: s :=
 dropWhile_cons_of_neg (by rw [hc]; exact Bool.false_ne_true)

theorem consume_self (c : UInt8) (s : Bytes) : consume c (c :: s) = some s := if_pos rfl

theorem consume_other {b c : UInt8} (h : b ≠ c) (s : Bytes) : consume c (b :: s) = none := if_neg h

theorem readStrings_items {p : Bytes} {l : List Bytes} (hps : ∀ q ∈ p :: ps, Plain q ∧ q.length ≤ kMaxJsonStringBytes)
  (hfuel : ps.length < fuel) (hroom : l.length + ps.length < maxItems) :
  readStrings size maxItems fuel l (quoted p ++ (laterText ps ++ 0x5D :: rest)) = .ok (l ++ p :: ps, rest) := by
 induction ps generalizing p l fuel with
 | nil =>
  obtain ⟨fuel, rfl⟩ := Nat.exists_eq_succ_of_ne_zero (Nat.ne_zero_of_lt hfuel)
  obtain ⟨hplain, hlen⟩ := hps p mem_cons_self
  rw [readStrings, skipSpace_quoted, if_neg (fun h => h rfl), readString_plain hplain hlen]
  refine (if_neg (show ¬ l.length = maxItems by rw [length_nil] at hroom; omega)).trans ?_
  rw [laterText, flatMap_nil, nil_append, skipSpace_cons (by decide), consume_other (by decide), consume_self]
 | cons q ps ih =>
  obtain ⟨fuel, rfl⟩ := Nat.exists_eq_succ_of_ne_zero (Nat.ne_zero_of_lt hfuel)
  obtain ⟨hplain, hlen⟩ := hps p mem_cons_self
  rw [length_cons] at hfuel hroom
  have hmore := @ih fuel q (l ++ [p]) (fun u hu => hps u (mem_cons_of_mem _ hu)) (by omega)
   (by rw [length_append, length_singleton]; omega)
  rw [readStrings, skipSpace_quoted, if_neg (fun h => h rfl), readString_plain hplain hlen]
  refine (if_neg (show ¬ l.length = maxItems by omega)).trans ?_
  rw [laterText_cons, cons_append, append_assoc, skipSpace_cons (by decide), consume_self]
  refine hmore.trans ?_
  rw [append_assoc, singleton_append]

theorem laterText_length (ps : List Bytes) : ps.length ≤ (laterText ps).length := by
 induction ps with
 | nil => exact Nat.zero_le _
 | cons p ps ih =>
  rw [laterText_cons, length_cons, length_cons, length_append]
  omega

theorem readStringArray_items (hps : ∀ p ∈ ps, Plain p ∧ p.length ≤ kMaxJsonStringBytes) (hroom : ps.length ≤ maxItems)
  (rest : Bytes) : readStringArray size maxItems (0x5B :: (itemsText ps ++ 0x5D :: rest)) = .ok (ps, rest) := by
 rw [readStringArray, consume_self]
 dsimp only
 cases ps with
 | nil => rw [itemsText, nil_append, skipSpace_cons (by decide), consume_self]
 | cons p ps =>
  have hlong : ps.length < (quoted p ++ (laterText ps ++ 0x5D :: rest)).length + 1 := by
   have hlater := laterText_length ps
   rw [length_append, length_append]
   omega
  rw [itemsText, append_assoc, skipSpace_quoted, quoted, cons_append, consume_other (by decide)]
  exact readStrings_items hps hlong (by rw [length_nil, Nat.zero_add]; exact hroom)

/-! ## What the browser writes of a list -/

def keptPhrases (values : List Bytes) : List Bytes := (values.map reduceSpeechPhrase).filter (· ≠ [])

theorem keptPhrases_empty {value : Bytes} (h : reduceSpeechPhrase value = []) (values : List Bytes) :
  keptPhrases (value :: values) = keptPhrases values :=
 filter_cons_of_neg (by simpa using h)

theorem keptPhrases_cons {value : Bytes} (h : reduceSpeechPhrase value ≠ []) (values : List Bytes) :
  keptPhrases (value :: values) = reduceSpeechPhrase value :: keptPhrases values :=
 filter_cons_of_pos (by simpa using h)

theorem appendItems_later (values : List Bytes) {written : ℕ} (hpos : 0 < written) (hmax : written ≤ maxItems) (out : Bytes) :
  appendItems maxItems values written out = out ++ laterText ((keptPhrases values).take (maxItems - written)) := by
 induction values generalizing written out with
 | nil => rw [appendItems, keptPhrases, map_nil, filter_nil, take_nil, laterText, flatMap_nil, append_nil]
 | cons value values ih =>
  rw [appendItems]
  dsimp only
  rw [if_pos hpos]
  split_ifs with hfull hempty
  · rw [hfull, Nat.sub_self, take_zero, laterText, flatMap_nil, append_nil]
  · rw [keptPhrases_empty hempty]
    exact ih hpos hmax out
  · have hroom : maxItems - written = maxItems - (written + 1) + 1 := by omega
    rw [ih (Nat.succ_pos _) (by omega), appendJsonString_plain (spelled_plain (reduceSpeechPhrase_fits value).1),
     keptPhrases_cons hempty, hroom, take_succ_cons, laterText_cons]
    simp

theorem appendJsonStrings_eq (values : List Bytes) (hmax : 0 < maxItems) (out : Bytes) :
  appendJsonStrings values maxItems out = out ++ 0x5B :: (itemsText ((keptPhrases values).take maxItems) ++ [0x5D]) := by
 have hitems : ∀ out : Bytes, appendItems maxItems values 0 out = out ++ itemsText ((keptPhrases values).take maxItems) := by
  intro out
  induction values with
  | nil => rw [appendItems, keptPhrases, map_nil, filter_nil, take_nil, itemsText, append_nil]
  | cons value values ih =>
   rw [appendItems, if_neg hmax.ne]
   dsimp only
   split_ifs with hempty hwritten
   · rw [keptPhrases_empty hempty]
     exact ih
   · exact absurd hwritten (Nat.lt_irrefl 0)
   · obtain ⟨n, rfl⟩ := Nat.exists_eq_succ_of_ne_zero hmax.ne'
     rw [appendItems_later values (Nat.succ_pos 0) (Nat.succ_le_succ (Nat.zero_le n)),
      appendJsonString_plain (spelled_plain (reduceSpeechPhrase_fits value).1), keptPhrases_cons hempty,
      Nat.succ_eq_add_one, take_succ_cons, itemsText, append_assoc]
     rfl
 rw [appendJsonStrings, hitems]
 simp

theorem keptPhrases_fits (values : List Bytes) (n : ℕ) :
  ∀ p ∈ (keptPhrases values).take n, Plain p ∧ p.length ≤ kMaxJsonStringBytes := by
 intro p hp
 obtain ⟨hmem, -⟩ := mem_filter.1 (mem_of_mem_take hp)
 obtain ⟨value, -, rfl⟩ := mem_map.1 hmem
 obtain ⟨hspelled, hlen⟩ := reduceSpeechPhrase_fits value
 exact ⟨spelled_plain hspelled, hlen.trans (by decide)⟩

/-! ## The other values -/

theorem readBool_word (value : Bool) (rest : Bytes) :
  readBool size ((if value then utf8 "true" else utf8 "false") ++ rest) = .ok (value, rest) := by
 cases value with
 | false =>
  have hword : consumeWord (utf8 "false") (utf8 "false" ++ rest) = some rest := by
   rw [consumeWord, if_pos (by simp), drop_left]
  have hother : consumeWord (utf8 "true") (utf8 "false" ++ rest) = none := rfl
  rw [readBool, if_neg Bool.false_ne_true, hother, hword]
 | true =>
  have hword : consumeWord (utf8 "true") (utf8 "true" ++ rest) = some rest := by
   rw [consumeWord, if_pos (by simp), drop_left]
  rw [readBool, if_pos rfl, hword]

theorem addDigit_digits (ds : List ℕ) (h : ∀ d ∈ ds, d < 10) (hfits : Nat.ofDigits 10 ds < 2 ^ 63) :
  (ds.reverse.map fun d => 0x30 + UInt8.ofNat d).foldl addDigit (0, false) = (Nat.ofDigits 10 ds, false) := by
 induction ds with
 | nil => rfl
 | cons d ds ih =>
  have hd := h d mem_cons_self
  have hvalue : (0x30 + UInt8.ofNat d : UInt8).toNat - 0x30 = d := by
   have hall : ∀ d < 10, (0x30 + UInt8.ofNat d : UInt8).toNat - 0x30 = d := by decide
   exact hall d hd
  rw [Nat.ofDigits_cons] at hfits ⊢
  rw [reverse_cons, map_append, foldl_append, ih (fun e he => h e (mem_cons_of_mem _ he)) (by omega)]
  rw [map_singleton, foldl_cons, foldl_nil, addDigit, hvalue, if_neg (by omega)]
  congr 1
  push_cast
  omega

theorem readInteger_decimal {n : ℕ} (hpos : n ≠ 0) (hfits : n < 2 ^ 63) (rest : Bytes) :
  readInteger size (decimal n ++ 0x7D :: rest) = .ok ((n : ℤ), 0x7D :: rest) := by
 obtain ⟨d, l, hlt, hne, hcons⟩ := Voice.decimal_cons hpos
 have hfirst : ∀ d < 10, d ≠ 0 → isDigit (0x30 + UInt8.ofNat d) = true ∧ (0x30 + UInt8.ofNat d : UInt8) ≠ 0x2D ∧
   (0x30 + UInt8.ofNat d : UInt8) ≠ 0x30 ∧ (0x31 : UInt8) ≤ 0x30 + UInt8.ofNat d ∧ (0x30 + UInt8.ofNat d : UInt8) ≤ 0x39 := by
  decide
 obtain ⟨hdigit, hminus, hzero, hlow, hhigh⟩ := hfirst d hlt hne
 have hdigits : (decimal n).foldl addDigit (0, false) = (n, false) := by
  have hvalue := addDigit_digits (Nat.digits 10 n) (fun d hd => Nat.digits_lt_base (by norm_num) hd)
   (by rw [Nat.ofDigits_digits]; exact hfits)
  rw [Nat.ofDigits_digits] at hvalue
  rw [decimal, if_neg hpos]
  exact hvalue
 obtain ⟨htake, hdrop⟩ : (decimal n ++ 0x7D :: rest).takeWhile isDigit = decimal n ∧
   (decimal n ++ 0x7D :: rest).dropWhile isDigit = 0x7D :: rest :=
  Voice.takeWhile_digits (Voice.decimal_digits n) (by simp; decide)
 have hpeek : peek (decimal n ++ 0x7D :: rest) = 0x30 + UInt8.ofNat d := by
  rw [hcons]
  rfl
 have hminus' : consume 0x2D (decimal n ++ 0x7D :: rest) = none := by
  rw [hcons]
  exact consume_other hminus _
 have hwhole : readWhole size (decimal n ++ 0x7D :: rest) = .ok ((n, false), 0x7D :: rest) := by
  rw [readWhole, hpeek, if_neg hzero, if_pos ⟨hlow, hhigh⟩, htake, hdrop, hdigits]
 have hfraction : readFraction size (0x7D :: rest) = .ok (false, 0x7D :: rest) := by
  rw [readFraction, consume_other (by decide)]
 have hexponent : readExponent size (0x7D :: rest) = .ok (false, 0x7D :: rest) := by
  rw [readExponent, if_neg (by rw [peek, headD_cons]; decide)]
 have hnumber : readNumber size (decimal n ++ 0x7D :: rest) = .ok (⟨true, false, (n : ℤ)⟩, 0x7D :: rest) := by
  rw [readNumber, hminus', Option.getD_none, hwhole]
  simp only [bind, Except.bind, hfraction, hexponent]
  rfl
 rw [readInteger, hpeek, if_neg (fun h => h.2 hdigit), hnumber]
 rfl

/-! ## Members -/

section Members
variable {key value : Bytes} {seen : List Bytes} {update update' : ConfigUpdate}

theorem readMembers_member (hkey : Plain key) (hlen : key.length ≤ kMaxJsonStringBytes) (hnew : key ∉ seen)
  (hvalue : skipSpace value = value) (hfield : readField size key update value = .ok (update', s)) :
  readMembers size (fuel + 1) seen update (quoted key ++ 0x3A :: value) =
   match consume 0x2C (skipSpace s), consume 0x7D (skipSpace s) with
   | some s, _ => readMembers size fuel (key :: seen) update' s
   | none, some s => finish size update' s
   | none, none => wrong size "expected ',' or '\x7d'" (skipSpace s) := by
 rw [readMembers, skipSpace_quoted, readString_plain hkey hlen]
 refine (if_neg hnew).trans ?_
 rw [skipSpace_cons (by decide), consume_self]
 dsimp only
 rw [hvalue, hfield]
 rfl

theorem readMembers_later (hkey : Plain key) (hlen : key.length ≤ kMaxJsonStringBytes) (hnew : key ∉ seen)
  (hvalue : skipSpace value = value) (hfield : readField size key update value = .ok (update', 0x2C :: rest)) :
  readMembers size (fuel + 1) seen update (quoted key ++ 0x3A :: value) =
   readMembers size fuel (key :: seen) update' rest := by
 rw [readMembers_member hkey hlen hnew hvalue hfield, skipSpace_cons (by decide), consume_self]

theorem readMembers_last (hkey : Plain key) (hlen : key.length ≤ kMaxJsonStringBytes) (hnew : key ∉ seen)
  (hvalue : skipSpace value = value) (hfield : readField size key update value = .ok (update', [0x7D])) :
  readMembers size (fuel + 1) seen update (quoted key ++ 0x3A :: value) = .ok update' := by
 rw [readMembers_member hkey hlen hnew hvalue hfield, skipSpace_cons (by decide), consume_other (by decide), consume_self]
 exact if_pos rfl

end Members

theorem readPhrases_self (hps : ∀ p ∈ ps, normalizeWakePhrase p = some p) (l : List Bytes) :
  readPhrases l ps = .ok (List.eraseDupsBy.loop (· == ·) ps l.reverse) := by
 induction ps generalizing l with
 | nil => rw [readPhrases, List.eraseDupsBy.loop, reverse_reverse]
 | cons p ps ih =>
  have hmore := ih fun q hq => hps q (mem_cons_of_mem _ hq)
  rw [readPhrases, hps p mem_cons_self, List.eraseDupsBy.loop]
  by_cases hp : p ∈ l
  · have hany : l.reverse.any (p == ·) = true := by simpa using hp
    rw [hany]
    dsimp only
    rw [if_pos hp, hmore]
  · have hany : l.reverse.any (p == ·) = false := by
     rw [any_eq_false]
     intro q hq heq
     exact hp (beq_iff_eq.1 heq ▸ mem_reverse.1 hq)
    rw [hany]
    dsimp only
    rw [if_neg hp, hmore, reverse_append, reverse_singleton, singleton_append]

/-! ## The frame -/

theorem keys_plain : ∀ key ∈ ["wake_phrases", "wake_required", "hotwords", "vad_silence_ms"].map utf8,
  Plain key ∧ key.length ≤ kMaxJsonStringBytes := by
 unfold Plain
 decide +kernel

theorem encodeConfigJson_eq (config : HelperConfig) : encodeConfigJson config =
  0x7B :: (quoted (utf8 "wake_phrases") ++ 0x3A :: 0x5B :: (itemsText ((keptPhrases config.wakePhrases).take SpeechPhrases.kMaxWakePhrases) ++
   0x5D :: 0x2C :: (quoted (utf8 "wake_required") ++ 0x3A :: ((if config.wakeRequired then utf8 "true" else utf8 "false") ++
    0x2C :: (quoted (utf8 "hotwords") ++ 0x3A :: 0x5B :: (itemsText ((keptPhrases config.hotwords).take kMaxHotwords) ++
     0x5D :: 0x2C :: (quoted (utf8 "vad_silence_ms") ++ 0x3A :: (toText (clampedVad config.vadSilenceMs) ++ [0x7D])))))))) := by
 have hopen : utf8 "\x7b\"wake_phrases\":" = 0x7B :: (quoted (utf8 "wake_phrases") ++ [0x3A]) := by decide
 have hrequired : utf8 ",\"wake_required\":" = 0x2C :: (quoted (utf8 "wake_required") ++ [0x3A]) := by decide
 have hhotwords : utf8 ",\"hotwords\":" = 0x2C :: (quoted (utf8 "hotwords") ++ [0x3A]) := by decide
 have hvad : utf8 ",\"vad_silence_ms\":" = 0x2C :: (quoted (utf8 "vad_silence_ms") ++ [0x3A]) := by decide
 have hclose : utf8 "\x7d" = [0x7D] := by decide
 rw [encodeConfigJson, appendJsonStrings_eq _ (by decide), appendJsonStrings_eq _ (by decide), hopen, hrequired, hhotwords, hvad, hclose]
 simp only [append_assoc, cons_append, nil_append]

theorem clampedVad_bounds (v : ℤ) : 200 ≤ clampedVad v ∧ clampedVad v ≤ 3000 := by
 rw [clampedVad, SpeechPhrases.kMinVadSilenceMs, SpeechPhrases.kMaxVadSilenceMs]
 omega

section Fields
variable (update : ConfigUpdate)

theorem readField_wakePhrases (hps : ∀ p ∈ ps, normalizeWakePhrase p = some p) (hne : ps ≠ [])
  (hread : readStringArray size kMaxWakePhrases s = .ok (ps, rest)) :
  readField size (utf8 "wake_phrases") update s = .ok ({ update with wakePhrases := some ps.eraseDups }, rest) := by
 rw [readField, if_pos rfl, hread]
 refine (if_neg hne).trans ?_
 rw [readPhrases_self hps]
 rfl

theorem readField_wakeRequired {value : Bool} (hread : readBool size s = .ok (value, rest)) :
  readField size (utf8 "wake_required") update s = .ok ({ update with wakeRequired := some value }, rest) := by
 rw [readField, if_neg (by simp), if_pos rfl, hread]
 rfl

theorem readField_hotwords (hread : readStringArray size kMaxConfigHotwords s = .ok (ps, rest)) :
  readField size (utf8 "hotwords") update s = .ok ({ update with hotwords := some ps }, rest) := by
 rw [readField, if_neg (by simp), if_neg (by simp), if_pos rfl, hread]
 rfl

theorem readField_vadSilence {v : ℤ} (hlow : kMinVadSilenceMs ≤ v) (hhigh : v ≤ kMaxVadSilenceMs)
  (hread : readInteger size s = .ok (v, rest)) :
  readField size (utf8 "vad_silence_ms") update s = .ok ({ update with vadSilenceMs := some v }, rest) := by
 rw [readField, if_neg (by simp), if_neg (by simp), if_neg (by simp), if_pos rfl, hread]
 exact if_neg (by omega)

end Fields

theorem consume_quoted {c : UInt8} (hc : 0x22 ≠ c) (s rest : Bytes) : consume c (quoted s ++ rest) = none := consume_other hc _

theorem skipSpace_word (value : Bool) (rest : Bytes) : skipSpace ((if value then utf8 "true" else utf8 "false") ++ rest) =
  (if value then utf8 "true" else utf8 "false") ++ rest := by
 cases value with
 | false => exact skipSpace_cons (by decide) _
 | true => exact skipSpace_cons (by decide) _

theorem skipSpace_decimal {n : ℕ} (hpos : n ≠ 0) (rest : Bytes) : skipSpace (decimal n ++ rest) = decimal n ++ rest := by
 obtain ⟨d, l, hlt, -, hcons⟩ := Voice.decimal_cons hpos
 have hspace : ∀ d < 10, (let c := 0x30 + UInt8.ofNat d; c == 0x20 || c == 0x09 || c == 0x0A || c == 0x0D) = false := by
  decide
 rw [hcons]
 exact skipSpace_cons (hspace d hlt) _

theorem readMembers_frame {qs : List Bytes} {n : ℕ} (required : Bool) (hps : ∀ p ∈ ps, normalizeWakePhrase p = some p)
  (hne : ps ≠ []) (hwake : ∀ p ∈ ps, Plain p ∧ p.length ≤ kMaxJsonStringBytes) (hfew : ps.length ≤ kMaxWakePhrases)
  (hhot : ∀ q ∈ qs, Plain q ∧ q.length ≤ kMaxJsonStringBytes) (hmany : qs.length ≤ kMaxConfigHotwords)
  (hlow : kMinVadSilenceMs ≤ n) (hhigh : n ≤ kMaxVadSilenceMs) :
  readMembers size (fuel + 4) [] {} (quoted (utf8 "wake_phrases") ++ 0x3A :: 0x5B :: (itemsText ps ++
   0x5D :: 0x2C :: (quoted (utf8 "wake_required") ++ 0x3A :: ((if required then utf8 "true" else utf8 "false") ++
    0x2C :: (quoted (utf8 "hotwords") ++ 0x3A :: 0x5B :: (itemsText qs ++
     0x5D :: 0x2C :: (quoted (utf8 "vad_silence_ms") ++ 0x3A :: (decimal n ++ [0x7D])))))))) =
   .ok { wakePhrases := some ps.eraseDups, wakeRequired := some required, hotwords := some qs, vadSilenceMs := some n } := by
 rw [kMinVadSilenceMs] at hlow
 rw [kMaxVadSilenceMs] at hhigh
 obtain ⟨hkey1, hlen1⟩ := keys_plain (utf8 "wake_phrases") (by simp)
 obtain ⟨hkey2, hlen2⟩ := keys_plain (utf8 "wake_required") (by simp)
 obtain ⟨hkey3, hlen3⟩ := keys_plain (utf8 "hotwords") (by simp)
 obtain ⟨hkey4, hlen4⟩ := keys_plain (utf8 "vad_silence_ms") (by simp)
 rw [readMembers_later hkey1 hlen1 not_mem_nil (skipSpace_cons (by decide) _)
  (readField_wakePhrases _ hps hne (readStringArray_items hwake hfew _))]
 rw [readMembers_later hkey2 hlen2 (by simp) (skipSpace_word required _) (readField_wakeRequired _ (readBool_word required _))]
 rw [readMembers_later hkey3 hlen3 (by simp) (skipSpace_cons (by decide) _)
  (readField_hotwords _ (readStringArray_items hhot hmany _))]
 exact readMembers_last hkey4 hlen4 (by simp) (skipSpace_decimal (by omega) _)
  (readField_vadSilence _ hlow hhigh (readInteger_decimal (by omega) (by omega) []))

theorem parseConfigFrame_member (key rest : Bytes) : parseConfigFrame (0x7B :: (quoted key ++ rest)) =
  readMembers (0x7B :: (quoted key ++ rest)).length ((0x7B :: (quoted key ++ rest)).length + 1) [] {} (quoted key ++ rest) := by
 rw [parseConfigFrame, skipSpace_cons (by decide), consume_self]
 dsimp only
 rw [skipSpace_quoted, consume_quoted (by decide)]

/-- CONFIG frames are understood: what the browser writes of clean wake phrases of lettered words, of any page text and any
silence is read as the update it means. -/
theorem config_understood (config : HelperConfig) (hne : config.wakePhrases ≠ [])
  (hmax : config.wakePhrases.length ≤ SpeechPhrases.kMaxWakePhrases)
  (hphrases : ∀ phrase ∈ config.wakePhrases,
   normalizeWakePhrase phrase = some phrase ∧ LetteredWords phrase ∧ ¬ [0x27, 0x27] <:+: phrase) :
  parseConfigFrame (encodeConfigJson config) = .ok
   { wakePhrases := some config.wakePhrases.eraseDups
     wakeRequired := some config.wakeRequired
     hotwords := some (((config.hotwords.map reduceSpeechPhrase).filter (· ≠ [])).take kMaxHotwords)
     vadSilenceMs := some (clampedVad config.vadSilenceMs) } := by
 have hkept : (keptPhrases config.wakePhrases).take SpeechPhrases.kMaxWakePhrases = config.wakePhrases := by
  have hself : config.wakePhrases.map reduceSpeechPhrase = config.wakePhrases := by
   conv_rhs => rw [← List.map_id config.wakePhrases]
   apply List.map_congr_left
   intro phrase hphrase
   obtain ⟨hnormal, hletters, hpairs⟩ := hphrases phrase hphrase
   exact reduceSpeechPhrase_self hnormal hletters hpairs
  have hfull : config.wakePhrases.filter (· ≠ []) = config.wakePhrases := by
   rw [List.filter_eq_self]
   intro phrase hphrase
   obtain ⟨-, -, -, hphrase⟩ := SpeechPhrases.wakePhrase_bytes (hphrases phrase hphrase).1
   exact decide_eq_true hphrase
  rw [keptPhrases, hself, hfull, List.take_of_length_le hmax]
 have hwake := keptPhrases_fits config.wakePhrases SpeechPhrases.kMaxWakePhrases
 rw [hkept] at hwake
 have hhot := keptPhrases_fits config.hotwords kMaxHotwords
 have hmany : ((keptPhrases config.hotwords).take kMaxHotwords).length ≤ kMaxConfigHotwords :=
  (List.length_take_le _ _).trans (by decide)
 obtain ⟨hlow, hhigh⟩ := clampedVad_bounds config.vadSilenceMs
 obtain ⟨n, hn⟩ := Int.eq_ofNat_of_zero_le (show 0 ≤ clampedVad config.vadSilenceMs by omega)
 have hjson := encodeConfigJson_eq config
 rw [hkept, hn, show toText (n : ℤ) = decimal n from if_neg (by omega)] at hjson
 rw [hjson, parseConfigFrame_member, hn]
 -- The fuel is more than the frame's length, so there is some for the four members.
 generalize hsize : List.length (0x7B :: (quoted (utf8 "wake_phrases") ++ _)) = size
 obtain ⟨fuel, hfuel⟩ : ∃ fuel, size + 1 = fuel + 4 := by
  refine ⟨size - 3, ?_⟩
  rw [← hsize]
  simp only [List.length_cons, List.length_append]
  omega
 rw [hfuel]
 exact readMembers_frame config.wakeRequired (fun phrase hphrase => (hphrases phrase hphrase).1) hne hwake
  (hmax.trans (by decide)) hhot hmany (by rw [kMinVadSilenceMs]; omega) (by rw [kMaxVadSilenceMs]; omega)

def moltConfig : HelperConfig where
 wakePhrases := [utf8 "hey molt", utf8 "o'hara", utf8 "hey molt"]
 wakeRequired := false
 hotwords := [utf8 "Beyoncé", utf8 "—", utf8 "AC/DC 1985"]
 vadSilenceMs := 50

theorem config_understood_molt : parseConfigFrame (encodeConfigJson moltConfig) = .ok
  { wakePhrases := some [utf8 "hey molt", utf8 "o'hara"]
    wakeRequired := some false
    hotwords := some [utf8 "beyonce", utf8 "AC DC nineteen eighty five"]
    vadSilenceMs := some 200 } := by
 have hread := config_understood moltConfig (by decide) (by decide) (by decide)
 have hwake : moltConfig.wakePhrases.eraseDups = [utf8 "hey molt", utf8 "o'hara"] := by decide
 have hhot : ((moltConfig.hotwords.map reduceSpeechPhrase).filter (· ≠ [])).take kMaxHotwords =
   [utf8 "beyonce", utf8 "AC DC nineteen eighty five"] := by decide +kernel
 rw [hwake, hhot] at hread
 exact hread

/-- Two apostrophes in a row part a word when it is reduced. -/
theorem paired_apostrophes_not_understood : ¬ ∀ config : HelperConfig, config.wakePhrases ≠ [] →
  config.wakePhrases.length ≤ SpeechPhrases.kMaxWakePhrases →
  (∀ phrase ∈ config.wakePhrases, normalizeWakePhrase phrase = some phrase ∧ LetteredWords phrase) →
  parseConfigFrame (encodeConfigJson config) = .ok
   { wakePhrases := some config.wakePhrases.eraseDups
     wakeRequired := some config.wakeRequired
     hotwords := some (((config.hotwords.map reduceSpeechPhrase).filter (· ≠ [])).take kMaxHotwords)
     vadSilenceMs := some (clampedVad config.vadSilenceMs) } := by
 intro hclaim
 have hread := hclaim { wakePhrases := [utf8 "a''b"] } (by decide) (by decide) (by decide)
 have hwake := congrArg (fun r : Read ConfigUpdate => r.toOption.bind (·.wakePhrases)) hread
 exact absurd hwake (by decide +kernel)

end MoltBrowser.ConfigFrames
