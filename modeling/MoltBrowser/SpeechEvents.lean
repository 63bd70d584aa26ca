import MoltBrowser.SpokenText

set_option autoImplicit false

/-!
# The lines the speech helper writes

One JSON object a line, its texts cleaned and quoted, for the browser to read.
-/
namespace MoltBrowser.SpeechEvents
open StreamFilters SelfSynchronizing Voice

def kProtocolVersion : ℕ := 1
def kMaxEventTextBytes : ℕ := 1000
def kMaxErrorMessageBytes : ℕ := 200

/-! ## Texts -/

def isControl (c : ℕ) : Bool := c < 0x20 || (0x7F ≤ c && c ≤ 0x9F) || c == 0x2028 || c == 0x2029

def isWhiteSpace (c : ℕ) : Bool :=
 c == 0x20 || c == 0x09 || c == 0x0A || c == 0x0D || c == 0x0B || c == 0x0C || c == 0x85 || c == 0xA0 ||
  c == 0x2028 || c == 0x2029

/-- `std::string::rfind` of one byte. -/
def rfind (c : UInt8) : Bytes → Option ℕ
 | [] => none
 | b :: s =>
  match rfind c s with
  | some i => some (i + 1)
  | none => if b = c then some 0 else none

def cutAtSpace (out : Bytes) : Bytes :=
 match rfind 0x20 out with
 | some space => if out.length - space ≤ 64 then out.take space else out
 | none => out

def cleanFrom (maxBytes : ℕ) (out : Bytes) (pendingSpace : Bool) (text : Bytes) : Bytes :=
 if _h : text = [] then out
 else
  let (length, c) := utf8Length text
  if _hl : length = 0 then cleanFrom maxBytes out pendingSpace (text.drop 1)
  else if isWhiteSpace c then cleanFrom maxBytes out (out != []) (text.drop length)
  else if isControl c then cleanFrom maxBytes out pendingSpace (text.drop length)
  else
   let needed := (text.take length).length + if pendingSpace then 1 else 0
   if maxBytes < out.length + needed then cutAtSpace out
   else
    cleanFrom maxBytes ((if pendingSpace then out ++ [0x20] else out) ++ text.take length) false
     (text.drop length)
termination_by text.length
decreasing_by
 all_goals
  have := List.length_pos_iff.2 _h
  rw [List.length_drop]
  omega

def cleanEventText (text : Bytes) (maxBytes : ℕ) : Bytes := cleanFrom maxBytes [] false text

def kHex (n : UInt8) : UInt8 := if n < 10 then 0x30 + n else 0x61 + (n - 10)

def jsonEscape (u : UInt8) : Bytes :=
 if u = 0x22 ∨ u = 0x5C then [0x5C, u]
 else if u < 0x20 ∨ u = 0x7F then utf8 "\\u00" ++ [kHex (u >>> 4), kHex (u &&& 0x0F)]
 else [u]

def jsonQuote (text : Bytes) : Bytes := [0x22] ++ text.flatMap jsonEscape ++ [0x22]

def printableAscii (text : Bytes) (maxBytes : ℕ) : Bytes :=
 (text.filter fun c => 0x20 ≤ c && c < 0x7F).take maxBytes

/-! ## Numbers -/

def decimal (n : ℕ) : Bytes :=
 if n = 0 then [0x30] else (Nat.digits 10 n).reverse.map fun d => 0x30 + UInt8.ofNat d

/-- `std::to_string`. -/
def toText (i : ℤ) : Bytes := if i < 0 then 0x2D :: decimal i.natAbs else decimal i.natAbs

/-- A `double`, its finite values taken exactly. -/
inductive Double where
 | nan
 | infinite (negative : Bool)
 | finite (value : ℚ)

def hundredths : Double → ℕ
 | .nan => 0
 | .infinite negative => if negative then 0 else 100
 | .finite value => if ¬ 0 < value then 0 else if 1 < value then 100 else ⌊value * 100 + 1 / 2⌋.toNat

def twoDecimals (value : Double) : Bytes :=
 decimal (hundredths value / 100) ++ utf8 "." ++
  [0x30 + UInt8.ofNat (hundredths value % 100 / 10), 0x30 + UInt8.ofNat (hundredths value % 10)]

/-! ## Events -/

structure EventTime where
 epoch : ℤ := 0
 audioMs : ℤ := 0

def timed (type : Bytes) (time : EventTime) : Bytes :=
 utf8 "\x7b\"type\":\"" ++ type ++ utf8 "\",\"epoch\":" ++ toText time.epoch ++ utf8 ",\"audio_ms\":" ++
  toText time.audioMs

def modelList (models : List Bytes) : Bytes :=
 ((models.take 8).map fun model => jsonQuote (printableAscii model 100)).intersperse (utf8 ",") |>.flatten

def readyEvent (engine : Bytes) (models : List Bytes) : Bytes :=
 utf8 "\x7b\"type\":\"ready\",\"protocol\":" ++ decimal kProtocolVersion ++ utf8 ",\"engine\":" ++
  jsonQuote (printableAscii engine 200) ++ utf8 ",\"models\":[" ++ modelList models ++
  utf8 "],\"sample_rate\":16000\x7d\n"

def wakeEvent (time : EventTime) : Bytes := timed "wake" time ++ utf8 "\x7d\n"

def speechStartEvent (time : EventTime) : Bytes := timed "speech_start" time ++ utf8 "\x7d\n"

def partialEvent (time : EventTime) (text : Bytes) : Bytes :=
 timed "partial" time ++ utf8 ",\"text\":" ++ jsonQuote (cleanEventText text kMaxEventTextBytes) ++ utf8 "\x7d\n"

def speechEndEvent (time : EventTime) : Bytes := timed "speech_end" time ++ utf8 "\x7d\n"

def finalEvent (time : EventTime) (text : Bytes) (confidence : Double) : Bytes :=
 timed "final" time ++ utf8 ",\"text\":" ++ jsonQuote (cleanEventText text kMaxEventTextBytes) ++
  utf8 ",\"confidence\":" ++ twoDecimals confidence ++ utf8 "\x7d\n"

def errorEvent (code message : Bytes) : Bytes :=
 utf8 "\x7b\"type\":\"error\",\"code\":" ++ jsonQuote (printableAscii code 32) ++ utf8 ",\"message\":" ++
  jsonQuote (printableAscii message kMaxErrorMessageBytes) ++ utf8 "\x7d\n"

/-! ## What cleaning leaves -/

def Plain (b : UInt8) : Prop := 0x20 ≤ b ∧ b ≠ 0x7F

theorem plain_of_high {b : UInt8} (h : ¬ b < 0x80) : Plain b :=
 forall_byte (p := fun b => ¬ b < 0x80 → Plain b) (by simp only [Plain]; decide +kernel) b h

theorem plain_of_shown {b : UInt8} (h : isControl b.toNat = false) (hascii : b < 0x80) : Plain b :=
 forall_byte (p := fun b => isControl b.toNat = false → b < 0x80 → Plain b)
  (by simp only [Plain]; decide +kernel) b h hascii

theorem head_drop_rfind {c : UInt8} {s : Bytes} {i : ℕ} (h : rfind c s = some i) : (s.drop i).head? = some c := by
 induction s generalizing i with
 | nil => exact absurd h (by simp [rfind])
 | cons b s ih =>
  rw [rfind] at h
  split at h
  · rename_i j hj
    obtain rfl := Option.some.inj h
    exact ih hj
  · split_ifs at h with hb
    obtain rfl := Option.some.inj h
    rw [hb]
    rfl

structure Field (maxBytes : ℕ) (s : Bytes) : Prop where
 valid : Valid s
 length : s.length ≤ maxBytes
 plain : ∀ b ∈ s, Plain b

theorem cutAtSpace_field {maxBytes : ℕ} {out : Bytes} (h : Field maxBytes out) : Field maxBytes (cutAtSpace out) := by
 rw [cutAtSpace]
 split
 · rename_i space hspace
   split_ifs
   · have hvalid := h.valid
     rw [← List.take_append_drop space out] at hvalid
     have hstart : AtStart Leads (out.drop space) := by
      intro c hc
      rw [head_drop_rfind hspace] at hc
      obtain rfl := Option.some.inj hc
      rfl
     exact ⟨(hvalid.split wellFormed_synchronizing hstart).1, (List.length_take_le' _ _).trans h.length,
      fun b hb => h.plain b (List.mem_of_mem_take hb)⟩
   · exact h
 · exact h

theorem sequence_field {text : Bytes} (hn : (utf8Length text).1 ≠ 0)
  (hcontrol : isControl (utf8Length text).2 = false) :
  WellFormed (text.take (utf8Length text).1) ∧ ∀ b ∈ text.take (utf8Length text).1, Plain b := by
 rcases utf8Length_spec hn with ⟨b0, rest, rfl, hascii, hlen⟩ | ⟨-, hw, hhigh⟩
 · rw [hlen] at hcontrol ⊢
   refine ⟨wellFormed_ascii hascii, fun b hb => ?_⟩
   obtain rfl : b = b0 := by simpa using hb
   exact plain_of_shown hcontrol hascii
 · exact ⟨hw, fun b hb => plain_of_high (hhigh b hb)⟩

theorem cleanFrom_field {maxBytes : ℕ} {out text : Bytes} {pendingSpace : Bool} (h : Field maxBytes out) :
  Field maxBytes (cleanFrom maxBytes out pendingSpace text) := by
 induction out, pendingSpace, text using cleanFrom.induct maxBytes with
 | case1 out pendingSpace =>
  rw [cleanFrom, dif_pos rfl]
  exact h
 | case2 out pendingSpace text hne c hlen ih =>
  rw [cleanFrom, dif_neg hne, hlen]
  exact ih h
 | case3 out pendingSpace text hne length c hlen hpos hspace ih =>
  rw [cleanFrom, dif_neg hne, hlen]
  simp only [hpos, hspace, dite_false, if_true]
  exact ih h
 | case4 out pendingSpace text hne length c hlen hpos hspace hcontrol ih =>
  rw [cleanFrom, dif_neg hne, hlen]
  simp only [hpos, hspace, hcontrol, dite_false, if_true, Bool.false_eq_true, if_false]
  exact ih h
 | case5 out pendingSpace text hne length c hlen hpos hspace hcontrol needed hfull =>
  rw [cleanFrom, dif_neg hne, hlen]
  simp only [hpos, hspace, hcontrol, dite_false, Bool.false_eq_true, if_false]
  rw [if_pos (by simpa [needed] using hfull)]
  exact cutAtSpace_field h
 | case6 out pendingSpace text hne length c hlen hpos hspace hcontrol needed hroom ih =>
  have hn : (utf8Length text).1 ≠ 0 := by rw [hlen]; exact hpos
  obtain ⟨hw, hplain⟩ := sequence_field hn (by rw [hlen]; simpa using hcontrol)
  rw [hlen] at hw hplain
  rw [cleanFrom, dif_neg hne, hlen]
  simp only [hpos, hspace, hcontrol, dite_false, Bool.false_eq_true, if_false]
  rw [if_neg (by simpa [needed] using hroom)]
  have hlength := Nat.le_of_not_lt hroom
  refine ih ?_
  cases pendingSpace with
  | false =>
   refine ⟨h.valid.append (.single hw), ?_, ?_⟩
   · simp only [needed, Bool.false_eq_true, dite_false, List.length_append] at hlength ⊢
     omega
   · intro b hb
     rcases List.mem_append.1 hb with hb | hb
     · exact h.plain b hb
     · exact hplain b hb
  | true =>
   refine ⟨(h.valid.append (.single (wellFormed_ascii (by decide)))).append (.single hw), ?_, ?_⟩
   · simp only [needed, dite_true, List.length_append, List.length_singleton] at hlength ⊢
     omega
   · intro b hb
     rcases List.mem_append.1 hb with hb | hb
     · rcases List.mem_append.1 hb with hb | hb
       · exact h.plain b hb
       · rw [List.mem_singleton.1 hb]
         simp only [Plain]
         decide
     · exact hplain b hb

theorem cleanEventText_field (text : Bytes) (maxBytes : ℕ) : Field maxBytes (cleanEventText text maxBytes) :=
 cleanFrom_field ⟨.nil, Nat.zero_le _, by simp⟩

end MoltBrowser.SpeechEvents
