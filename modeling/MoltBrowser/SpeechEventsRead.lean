import MoltBrowser.HelperLinesRead

set_option autoImplicit false

/-!
# Every line of the helper is an event to the browser

Each event's line as an object, cut out of any pieces of the pipe and read back.
-/
namespace MoltBrowser.Voice
open StreamFilters SelfSynchronizing SpeechEvents List

/-! ## Events as objects -/

theorem Clean.digits {raw : Bytes} (h : ∀ c ∈ raw, isDigit c = true) : Clean raw :=
 .of_ascii fun c hc =>
  forall_byte (p := fun c => isDigit c = true → 0x20 ≤ c ∧ c < 0x80) (by decide +kernel) c (h c hc)

theorem Clean.twoDecimals (value : SpeechEvents.Double) : Clean (twoDecimals value) := by
 have hpoint : utf8 "." = [0x2E] := by decide
 have hdigits := (isDigit_byte (show hundredths value % 100 / 10 < 10 by omega)).1
 have hunits := (isDigit_byte (show hundredths value % 10 < 10 by omega)).1
 rw [SpeechEvents.twoDecimals, hpoint]
 refine ((Clean.digits (decimal_digits _)).append ⟨.single (wellFormed_ascii (by decide)), by simp⟩).append
  (.digits ?_)
 simp [hdigits, hunits]

theorem Clean.strings {l : List Bytes} (h : ∀ s ∈ l, Valid s) : Clean (stringsText l) := by
 have hopen : Clean [0x5B] := ⟨.single (wellFormed_ascii (by decide)), by simp⟩
 have hclose : Clean [0x5D] := ⟨.single (wellFormed_ascii (by decide)), by simp⟩
 have hcomma : Clean [0x2C] := ⟨.single (wellFormed_ascii (by decide)), by simp⟩
 have hbody : Clean ((l.map SpeechEvents.jsonQuote).intersperse [0x2C]).flatten := by
  induction l with
  | nil => exact .nil
  | cons s l ih =>
   have hs := Clean.jsonQuote (h s (mem_cons_self ..))
   have hrest := ih fun t ht => h t (mem_cons_of_mem _ ht)
   cases l with
   | nil => simpa using hs
   | cons t l =>
    have hall := (hs.append hcomma).append hrest
    simpa using hall
 exact (hopen.append hbody).append hclose

def stringMember (key text : Bytes) : Member := ⟨key, jsonQuote text, .string text⟩
def numberMember (key : Bytes) (n : ℕ) : Member := ⟨key, decimal n, .number n⟩
def stringsMember (key : Bytes) (l : List Bytes) : Member := ⟨key, stringsText l, .strings l⟩
def confidenceMember (key : Bytes) (value : SpeechEvents.Double) : Member :=
 ⟨key, twoDecimals value, .number (hundredths value / 100)⟩

section Members

variable {key : Bytes} (hkey : Valid key)
include hkey

theorem stringMember_ok {text : Bytes} (h : Valid text) : (stringMember key text).Ok := ⟨hkey, .string h, .jsonQuote h⟩

theorem numberMember_ok (n : ℕ) : (numberMember key n).Ok := ⟨hkey, .decimal n, .digits (decimal_digits n)⟩

theorem stringsMember_ok {l : List Bytes} (h : ∀ s ∈ l, Valid s) : (stringsMember key l).Ok :=
 ⟨hkey, .strings h, .strings h⟩

theorem confidenceMember_ok (value : SpeechEvents.Double) : (confidenceMember key value).Ok :=
 ⟨hkey, .twoDecimals value, .twoDecimals value⟩

end Members

theorem Member.Ok.text {m : Member} (h : m.Ok) : Clean m.text := by
 have hcolon : Clean [0x3A] := ⟨.single (wellFormed_ascii (by decide)), by simp⟩
 have hall := (Clean.jsonQuote h.key).append (hcolon.append h.clean)
 exact hall

theorem objectText_clean {m : Member} {more : List Member} (h : ∀ n ∈ m :: more, n.Ok) : Clean (objectText m more) := by
 have hopen : Clean [0x7B] := ⟨.single (wellFormed_ascii (by decide)), by simp⟩
 have hclose : Clean [0x7D] := ⟨.single (wellFormed_ascii (by decide)), by simp⟩
 have hcomma : Clean [0x2C] := ⟨.single (wellFormed_ascii (by decide)), by simp⟩
 refine hopen.append ?_
 induction more generalizing m with
 | nil => exact (h m (mem_cons_self ..)).text.append hclose
 | cons n more ih =>
  exact (h m (mem_cons_self ..)).text.append
   (hcomma.append (ih fun k hk => h k (mem_cons_of_mem _ hk)))

theorem findMember_mem {members : Members} (hkeys : (members.map Prod.fst).Nodup) {key : Bytes} {value : JsonValue}
  (h : (key, value) ∈ members) : findMember members key = some value := by
 induction members with
 | nil => exact absurd h not_mem_nil
 | cons m members ih =>
  rw [map_cons, nodup_cons] at hkeys
  rw [findMember, find?_cons]
  rcases mem_cons.1 h with rfl | h
  · simp
  · have hne : (m.1 == key) = false := by
     rw [beq_eq_false_iff_ne]
     rintro rfl
     exact hkeys.1 (mem_map.2 ⟨_, h, rfl⟩)
    rw [hne]
    exact ih hkeys.2 h

/-! ## The reader of lines -/

theorem read_piece {r : HelperLineReader} {bytes : Bytes} (hbytes : 0x0A ∉ bytes)
  (hlen : r.fragment.length + bytes.length ≤ kMaxHelperLineBytes + 1) :
  r.read bytes = ([], { r with fragment := r.fragment ++ bytes }) := by
 rw [HelperLineReader.read]
 have hpiece : bytes.takeWhile (· != 0x0A) = bytes := by
  rw [takeWhile_eq_self_iff]
  intro c hc
  simpa using fun h : c = 0x0A => hbytes (h ▸ hc)
 split_ifs with hne
 · rw [hne, append_nil]
 · rw [hpiece]
   simp only [if_neg (Nat.not_lt.2 hlen), if_true]

theorem read_line {r : HelperLineReader} {bytes : Bytes} (hbytes : 0x0A ∉ bytes)
  (hlen : (r.fragment ++ bytes).length ≤ kMaxHelperLineBytes) (hlast : (r.fragment ++ bytes).getLast? ≠ some 0x0D) :
  r.read (bytes ++ [0x0A]) = ([r.fragment ++ bytes], { r with fragment := [] }) := by
 rw [HelperLineReader.read, dif_neg (by simp)]
 have hpiece : (bytes ++ [0x0A]).takeWhile (· != 0x0A) = bytes := by
  rw [takeWhile_append_of_pos]
  · simp
  · intro c hc
    simpa using fun h : c = 0x0A => hbytes (h ▸ hc)
 have hrest : (bytes ++ [0x0A]).drop (bytes.length + 1) = [] := by simp
 rw [length_append] at hlen
 rw [hpiece]
 simp only [if_neg (show ¬ kMaxHelperLineBytes + 1 < r.fragment.length + bytes.length by omega),
  length_append, length_singleton, if_neg (show ¬ bytes.length = bytes.length + 1 by omega), if_neg hlast,
  if_neg (show ¬ kMaxHelperLineBytes < r.fragment.length + bytes.length by omega), hrest]
 rw [HelperLineReader.read, dif_pos rfl]

theorem feedAll_cons {r r' r'' : HelperLineReader} {bytes : Bytes} {more lines rest : List Bytes} (hr : r.failed = false)
  (hread : r.read bytes = (lines, r')) (hmore : r'.feedAll more = (rest, r'')) :
  r.feedAll (bytes :: more) = (lines ++ rest, r'') := by
 rw [HelperLineReader.feedAll, HelperLineReader.feed, hr, if_neg (by simp), hread]
 simp only [hmore]

theorem feedAll_line {line : Bytes} (hline : 0x0A ∉ line) (hlen : line.length ≤ kMaxHelperLineBytes)
  (hlast : line.getLast? ≠ some 0x0D) (chunks : List Bytes) (hchunks : chunks.flatten = line ++ [0x0A]) :
  HelperLineReader.feedAll {} chunks = ([line], {}) := by
 have hempty : ∀ chunks : List Bytes, chunks.flatten = [] → HelperLineReader.feedAll {} chunks = ([], {}) := by
  intro chunks h
  induction chunks with
  | nil => rfl
  | cons bytes more ih =>
   rw [flatten_cons, append_eq_nil_iff] at h
   obtain ⟨rfl, hmore⟩ := h
   exact feedAll_cons rfl (by rw [HelperLineReader.read, dif_pos rfl]) (ih hmore)
 -- What has come so far is in the fragment.
 have hfrom : ∀ (chunks : List Bytes) (fragment rest : Bytes), line = fragment ++ rest → chunks.flatten = rest ++ [0x0A] →
   HelperLineReader.feedAll { fragment } chunks = ([line], {}) := by
  intro chunks
  induction chunks with
  | nil =>
   intro fragment rest _ h
   exact absurd h.symm (by simp)
  | cons bytes more ih =>
   intro fragment rest hfragment h
   rw [flatten_cons] at h
   rcases append_eq_append_iff.1 h with ⟨tail, hrest, hmore⟩ | ⟨tail, hbytes, htail⟩
   · rw [hrest] at hfragment
     have hpiece : 0x0A ∉ bytes := fun hmem => hline (by simp [hfragment, hmem])
     have hroom : fragment.length + bytes.length ≤ kMaxHelperLineBytes + 1 := by
      rw [hfragment] at hlen
      simp only [length_append] at hlen
      omega
     exact feedAll_cons rfl (read_piece hpiece hroom)
      (ih (fragment ++ bytes) tail (by rw [hfragment, append_assoc]) hmore)
   · cases tail with
     | nil =>
      rw [append_nil] at hbytes
      rw [nil_append] at htail
      rw [← hbytes] at hfragment
      have hpiece : 0x0A ∉ bytes := fun hmem => hline (by simp [hfragment, hmem])
      have hroom : fragment.length + bytes.length ≤ kMaxHelperLineBytes + 1 := by
       rw [hfragment] at hlen
       simp only [length_append] at hlen
       omega
      exact feedAll_cons rfl (read_piece hpiece hroom)
       (ih (fragment ++ bytes) [] (by rw [hfragment, append_nil]) htail.symm)
     | cons c tail =>
      rw [cons_append, List.cons.injEq] at htail
      obtain ⟨rfl, htail⟩ := htail
      obtain ⟨rfl, hmore⟩ := append_eq_nil_iff.1 htail.symm
      subst hbytes hfragment
      exact feedAll_cons rfl (read_line (fun hmem => hline (mem_append_right _ hmem)) hlen hlast)
       (hempty more hmore)
 exact hfrom chunks [] line rfl hchunks

/-! ## How long a line can get -/

theorem printable_plain {c : UInt8} (h : (0x20 ≤ c && c < 0x7F) = true) : Plain c ∧ c < 0x80 :=
 forall_byte (p := fun c => (0x20 ≤ c && c < 0x7F) = true → Plain c ∧ c < 0x80)
  (by simp only [Plain]; decide +kernel) c h

theorem printableAscii_field (text : Bytes) (maxBytes : ℕ) : Field maxBytes (printableAscii text maxBytes) := by
 have hall : ∀ c ∈ printableAscii text maxBytes, (0x20 ≤ c && c < 0x7F) = true := fun c hc =>
  (mem_filter.1 (mem_of_mem_take hc)).2
 refine ⟨(Clean.of_ascii fun c hc => ?_).valid, length_take_le _ _, fun c hc => (printable_plain (hall c hc)).1⟩
 exact ⟨(printable_plain (hall c hc)).1.1, (printable_plain (hall c hc)).2⟩

theorem jsonQuote_length {text : Bytes} (h : ∀ b ∈ text, Plain b) : (jsonQuote text).length ≤ 2 * text.length + 2 := by
 have hone : ∀ b, Plain b → (jsonEscape b).length ≤ 2 := by
  intro b hb
  rw [jsonEscape]
  split_ifs with hquote hcontrol
  · simp
  · exact absurd hcontrol (not_or.2 ⟨UInt8.not_lt.2 hb.1, hb.2⟩)
  · simp
 have hbody : (text.flatMap jsonEscape).length ≤ 2 * text.length := by
  induction text with
  | nil => simp
  | cons b text ih =>
   have hb := hone b (h b (mem_cons_self ..))
   have hrest := ih fun c hc => h c (mem_cons_of_mem _ hc)
   rw [flatMap_cons, length_append, length_cons]
   omega
 simp only [jsonQuote, length_append, length_singleton]
 omega

theorem Field.quoted {maxBytes : ℕ} {text : Bytes} (h : Field maxBytes text) :
  (jsonQuote text).length ≤ 2 * maxBytes + 2 := by
 have := jsonQuote_length h.plain
 have := h.length
 omega

theorem decimal_length {n : ℕ} (h : n ≤ 2 ^ 53) : (decimal n).length ≤ 16 := by
 rw [decimal]
 split_ifs with hn
 · simp
 · rw [length_map, length_reverse, Nat.digits_length_le_iff (by norm_num)]
   omega

theorem twoDecimals_length (value : SpeechEvents.Double) : (twoDecimals value).length ≤ 19 := by
 have hle := hundredths_le value
 have hdecimal := decimal_length (n := hundredths value / 100) (by omega)
 have hpoint : utf8 "." = [0x2E] := by decide
 simp only [twoDecimals, hpoint, length_append, length_cons, length_nil]
 omega

theorem membersText_length (m : Member) (more : List Member) :
  (membersText m more).length = ((m :: more).map fun n => n.text.length + 1).sum := by
 induction more generalizing m with
 | nil => simp [membersText]
 | cons n more ih =>
  simp only [membersText, length_append, length_cons, ih, map_cons, sum_cons]
  omega

theorem stringsText_length {l : List Bytes} {k : ℕ} (h : ∀ s ∈ l, (jsonQuote s).length ≤ k) :
  (stringsText l).length ≤ l.length * (k + 1) + 2 := by
 have hbody : ((l.map jsonQuote).intersperse [0x2C]).flatten.length ≤ l.length * (k + 1) := by
  induction l with
  | nil => simp
  | cons s l ih =>
   have hs := h s (mem_cons_self ..)
   have hrest := ih fun t ht => h t (mem_cons_of_mem _ ht)
   rw [length_cons, Nat.add_one_mul]
   cases l with
   | nil =>
    simp only [map_cons, map_nil, intersperse_singleton, flatten_cons, flatten_nil,
     append_nil]
    omega
   | cons t l =>
    simp only [map_cons, intersperse_cons_cons, flatten_cons, length_append, length_cons,
     length_nil] at hrest ⊢
    omega
 simp only [stringsText, length_append, length_cons, length_nil]
 omega

/-! ## The events -/

inductive Report where
 | ready (engine : Bytes) (models : List Bytes)
 | wake (time : EventTime)
 | speechStart (time : EventTime)
 | partialText (time : EventTime) (text : Bytes)
 | speechEnd (time : EventTime)
 | final (time : EventTime) (text : Bytes) (confidence : SpeechEvents.Double)
 | error (code message : Bytes)

namespace Report

def line : Report → Bytes
 | ready engine models => readyEvent engine models
 | wake time => wakeEvent time
 | speechStart time => speechStartEvent time
 | partialText time text => partialEvent time text
 | speechEnd time => speechEndEvent time
 | final time text confidence => finalEvent time text confidence
 | error code message => errorEvent code message

def type : Report → HelperEventType
 | ready .. => .ready
 | wake _ => .wake
 | speechStart _ => .speechStart
 | partialText .. => .partialText
 | speechEnd _ => .speechEnd
 | final .. => .final
 | error .. => .error

def time? : Report → Option EventTime
 | ready .. | error .. => none
 | wake time | speechStart time | partialText time _ | speechEnd time | final time .. => some time

def text? : Report → Option Bytes
 | partialText _ text | final _ text _ => some text
 | _ => none

def name : Report → Bytes
 | ready .. => utf8 "ready"
 | wake _ => utf8 "wake"
 | speechStart _ => utf8 "speech_start"
 | partialText .. => utf8 "partial"
 | speechEnd _ => utf8 "speech_end"
 | final .. => utf8 "final"
 | error .. => utf8 "error"

def timeMembers (time : EventTime) : List Member :=
 [numberMember (utf8 "epoch") time.epoch.natAbs, numberMember (utf8 "audio_ms") time.audioMs.natAbs]

def textMember (text : Bytes) : Member := stringMember (utf8 "text") (cleanEventText text kMaxEventTextBytes)

def members : Report → List Member
 | ready engine models =>
  [numberMember (utf8 "protocol") kProtocolVersion, stringMember (utf8 "engine") (printableAscii engine 200),
   stringsMember (utf8 "models") ((models.take 8).map fun model => printableAscii model 100),
   numberMember (utf8 "sample_rate") 16000]
 | wake time | speechStart time | speechEnd time => timeMembers time
 | partialText time text => timeMembers time ++ [textMember text]
 | final time text confidence => timeMembers time ++ [textMember text, confidenceMember (utf8 "confidence") confidence]
 | error code message =>
  [stringMember (utf8 "code") (printableAscii code 32),
   stringMember (utf8 "message") (printableAscii message kMaxErrorMessageBytes)]

def object (r : Report) : Bytes := objectText (stringMember (utf8 "type") r.name) r.members

def InRange (r : Report) : Prop :=
 ∀ time ∈ r.time?, (0 ≤ time.epoch ∧ time.epoch ≤ 2 ^ 53) ∧ 0 ≤ time.audioMs ∧ time.audioMs ≤ 2 ^ 53

theorem timed_eq {type : Bytes} (htype : jsonQuote type = 0x22 :: type ++ [0x22]) {time : EventTime}
  (hepoch : 0 ≤ time.epoch) (haudio : 0 ≤ time.audioMs) :
  timed type time = 0x7B :: (stringMember (utf8 "type") type).text ++
   0x2C :: (numberMember (utf8 "epoch") time.epoch.natAbs).text ++
   0x2C :: (numberMember (utf8 "audio_ms") time.audioMs.natAbs).text := by
 have hopen : utf8 "\x7b\"type\":\"" = 0x7B :: jsonQuote (utf8 "type") ++ [0x3A, 0x22] := by decide
 have hmiddle : utf8 "\",\"epoch\":" = 0x22 :: 0x2C :: jsonQuote (utf8 "epoch") ++ [0x3A] := by decide
 have hlast : utf8 ",\"audio_ms\":" = 0x2C :: jsonQuote (utf8 "audio_ms") ++ [0x3A] := by decide
 rw [timed, hopen, hmiddle, hlast, toText, if_neg (not_lt.2 hepoch), toText, if_neg (not_lt.2 haudio)]
 simp [Member.text, stringMember, numberMember, htype]

theorem line_eq {r : Report} (h : r.InRange) : r.line = r.object ++ [0x0A] := by
 have hclose : utf8 "\x7d\n" = [0x7D, 0x0A] := by decide
 have htext : utf8 ",\"text\":" = 0x2C :: jsonQuote (utf8 "text") ++ [0x3A] := by decide
 cases r with
 | ready engine models =>
  have hopen : utf8 "\x7b\"type\":\"ready\",\"protocol\":" =
    0x7B :: jsonQuote (utf8 "type") ++ 0x3A :: jsonQuote (utf8 "ready") ++ 0x2C :: jsonQuote (utf8 "protocol") ++ [0x3A] := by
   decide
  have hengine : utf8 ",\"engine\":" = 0x2C :: jsonQuote (utf8 "engine") ++ [0x3A] := by decide
  have hmodels : utf8 ",\"models\":[" = 0x2C :: jsonQuote (utf8 "models") ++ [0x3A, 0x5B] := by decide
  have hrate : utf8 "],\"sample_rate\":16000\x7d\n" =
    0x5D :: 0x2C :: jsonQuote (utf8 "sample_rate") ++ 0x3A :: decimal 16000 ++ [0x7D, 0x0A] := by decide
  have hcomma : utf8 "," = [0x2C] := by decide
  simp [line, readyEvent, object, objectText, membersText, members, name, Member.text, stringMember, numberMember,
   stringsMember, stringsText, modelList, hopen, hengine, hmodels, hrate, hcomma, map_take, Function.comp_def]
 | wake time =>
  obtain ⟨⟨hepoch, -⟩, haudio, -⟩ := h time rfl
  rw [line, wakeEvent, timed_eq (by decide) hepoch haudio, hclose]
  simp [object, objectText, membersText, members, timeMembers, name]
 | speechStart time =>
  obtain ⟨⟨hepoch, -⟩, haudio, -⟩ := h time rfl
  rw [line, speechStartEvent, timed_eq (by decide) hepoch haudio, hclose]
  simp [object, objectText, membersText, members, timeMembers, name]
 | partialText time text =>
  obtain ⟨⟨hepoch, -⟩, haudio, -⟩ := h time rfl
  rw [line, partialEvent, timed_eq (by decide) hepoch haudio, hclose, htext]
  simp [object, objectText, membersText, members, timeMembers, textMember, name, Member.text, stringMember]
 | speechEnd time =>
  obtain ⟨⟨hepoch, -⟩, haudio, -⟩ := h time rfl
  rw [line, speechEndEvent, timed_eq (by decide) hepoch haudio, hclose]
  simp [object, objectText, membersText, members, timeMembers, name]
 | final time text confidence =>
  obtain ⟨⟨hepoch, -⟩, haudio, -⟩ := h time rfl
  have hconfidence : utf8 ",\"confidence\":" = 0x2C :: jsonQuote (utf8 "confidence") ++ [0x3A] := by decide
  rw [line, finalEvent, timed_eq (by decide) hepoch haudio, hclose, htext, hconfidence]
  simp [object, objectText, membersText, members, timeMembers, textMember, name, Member.text, stringMember,
   confidenceMember]
 | error code message =>
  have hopen : utf8 "\x7b\"type\":\"error\",\"code\":" =
    0x7B :: jsonQuote (utf8 "type") ++ 0x3A :: jsonQuote (utf8 "error") ++ 0x2C :: jsonQuote (utf8 "code") ++ [0x3A] := by
   decide
  have hmessage : utf8 ",\"message\":" = 0x2C :: jsonQuote (utf8 "message") ++ [0x3A] := by decide
  simp [line, errorEvent, object, objectText, membersText, members, name, Member.text, stringMember, hopen, hmessage, hclose]

def allMembers (r : Report) : List Member := stringMember (utf8 "type") r.name :: r.members

theorem valid_key {s : String} (h : ∀ b ∈ utf8 s, 0x20 ≤ b ∧ b < 0x80) : Valid (utf8 s) := (Clean.of_ascii h).valid

theorem timeMembers_ok (time : EventTime) : ∀ m ∈ timeMembers time, m.Ok := by
 rintro m (_ | ⟨_, _ | ⟨_, ⟨⟩⟩⟩)
 · exact numberMember_ok (valid_key (by decide +kernel)) _
 · exact numberMember_ok (valid_key (by decide +kernel)) _

theorem textMember_ok (text : Bytes) : (textMember text).Ok :=
 stringMember_ok (valid_key (by decide +kernel)) (cleanEventText_field ..).valid

theorem members_ok (r : Report) : ∀ m ∈ r.allMembers, m.Ok := by
 have hname : (stringMember (utf8 "type") r.name).Ok := by
  refine stringMember_ok (valid_key (by decide +kernel)) ?_
  cases r <;> exact valid_key (by decide +kernel)
 intro m hm
 rcases mem_cons.1 hm with rfl | hm
 · exact hname
 cases r with
 | ready engine models =>
  rcases hm with _ | ⟨_, _ | ⟨_, _ | ⟨_, _ | ⟨_, ⟨⟩⟩⟩⟩⟩
  · exact numberMember_ok (valid_key (by decide +kernel)) _
  · exact stringMember_ok (valid_key (by decide +kernel)) (printableAscii_field ..).valid
  · refine stringsMember_ok (valid_key (by decide +kernel)) fun s hs => ?_
    obtain ⟨model, -, rfl⟩ := mem_map.1 hs
    exact (printableAscii_field ..).valid
  · exact numberMember_ok (valid_key (by decide +kernel)) _
 | wake time => exact timeMembers_ok time m hm
 | speechStart time => exact timeMembers_ok time m hm
 | partialText time text =>
  rcases mem_append.1 hm with hm | hm
  · exact timeMembers_ok time m hm
  · obtain rfl := mem_singleton.1 hm
    exact textMember_ok text
 | speechEnd time => exact timeMembers_ok time m hm
 | final time text confidence =>
  rcases mem_append.1 hm with hm | hm
  · exact timeMembers_ok time m hm
  · rcases hm with _ | ⟨_, _ | ⟨_, ⟨⟩⟩⟩
    · exact textMember_ok text
    · exact confidenceMember_ok (valid_key (by decide +kernel)) _
 | error code message =>
  rcases hm with _ | ⟨_, _ | ⟨_, ⟨⟩⟩⟩
  · exact stringMember_ok (valid_key (by decide +kernel)) (printableAscii_field ..).valid
  · exact stringMember_ok (valid_key (by decide +kernel)) (printableAscii_field ..).valid

theorem members_keys (r : Report) : (r.allMembers.map Member.key).Nodup := by
 cases r <;>
  simp [allMembers, members, timeMembers, textMember, stringMember, numberMember, stringsMember, confidenceMember]

theorem object_length {r : Report} (h : r.InRange) : r.object.length ≤ kMaxHelperLineBytes := by
 have htype : (jsonQuote (utf8 "type")).length = 6 := by decide
 have htime : ∀ time ∈ r.time?, (decimal time.epoch.natAbs).length ≤ 16 ∧ (decimal time.audioMs.natAbs).length ≤ 16 := by
  intro time ht
  obtain ⟨⟨hepoch, hepoch'⟩, haudio, haudio'⟩ := h time ht
  exact ⟨decimal_length (by omega), decimal_length (by omega)⟩
 have hepoch : (jsonQuote (utf8 "epoch")).length = 7 := by decide
 have haudio : (jsonQuote (utf8 "audio_ms")).length = 10 := by decide
 have htext : (jsonQuote (utf8 "text")).length = 6 := by decide
 have hquoted := fun text => Field.quoted (cleanEventText_field text kMaxEventTextBytes)
 rw [object, objectText, length_cons, membersText_length, kMaxHelperLineBytes]
 cases r with
 | ready engine models =>
  have hname : (jsonQuote (utf8 "ready")).length = 7 := by decide
  have hprotocol : (jsonQuote (utf8 "protocol")).length = 10 := by decide
  have hengine : (jsonQuote (utf8 "engine")).length = 8 := by decide
  have hmodels : (jsonQuote (utf8 "models")).length = 8 := by decide
  have hrate : (jsonQuote (utf8 "sample_rate")).length = 13 := by decide
  have hvalue := decimal_length (n := 16000) (by norm_num)
  have hversion := decimal_length (n := kProtocolVersion) (by decide)
  have hname' := Field.quoted (printableAscii_field engine 200)
  have hlist := stringsText_length (l := (models.take 8).map fun model => printableAscii model 100) (k := 202)
   (by
    intro s hs
    obtain ⟨model, -, rfl⟩ := mem_map.1 hs
    exact Field.quoted (printableAscii_field model 100))
  have height : (models.take 8).length ≤ 8 := length_take_le _ _
  simp only [length_map] at hlist
  simp only [members, name, Member.text, stringMember, numberMember, stringsMember, map_cons, map_nil,
   sum_cons, sum_nil, length_append, length_cons, htype, hname, hprotocol, hengine, hmodels, hrate]
  omega
 | wake time =>
  have hname : (jsonQuote (utf8 "wake")).length = 6 := by decide
  obtain ⟨he, ha⟩ := htime time rfl
  simp only [members, timeMembers, name, Member.text, stringMember, numberMember, map_cons, map_nil,
   sum_cons, sum_nil, length_append, length_cons, htype, hname, hepoch, haudio]
  omega
 | speechStart time =>
  have hname : (jsonQuote (utf8 "speech_start")).length = 14 := by decide
  obtain ⟨he, ha⟩ := htime time rfl
  simp only [members, timeMembers, name, Member.text, stringMember, numberMember, map_cons, map_nil,
   sum_cons, sum_nil, length_append, length_cons, htype, hname, hepoch, haudio]
  omega
 | partialText time text =>
  have hname : (jsonQuote (utf8 "partial")).length = 9 := by decide
  obtain ⟨he, ha⟩ := htime time rfl
  have hq := hquoted text
  rw [kMaxEventTextBytes] at hq
  simp only [members, timeMembers, textMember, name, Member.text, stringMember, numberMember, cons_append,
   nil_append, map_cons, map_nil, sum_cons, sum_nil, length_append, length_cons,
   htype, hname, hepoch, haudio, htext, kMaxEventTextBytes]
  omega
 | speechEnd time =>
  have hname : (jsonQuote (utf8 "speech_end")).length = 12 := by decide
  obtain ⟨he, ha⟩ := htime time rfl
  simp only [members, timeMembers, name, Member.text, stringMember, numberMember, map_cons, map_nil,
   sum_cons, sum_nil, length_append, length_cons, htype, hname, hepoch, haudio]
  omega
 | final time text confidence =>
  have hname : (jsonQuote (utf8 "final")).length = 7 := by decide
  have hconfidence : (jsonQuote (utf8 "confidence")).length = 12 := by decide
  have hvalue := twoDecimals_length confidence
  obtain ⟨he, ha⟩ := htime time rfl
  have hq := hquoted text
  rw [kMaxEventTextBytes] at hq
  simp only [members, timeMembers, textMember, name, Member.text, stringMember, numberMember, confidenceMember,
   cons_append, nil_append, map_cons, map_nil, sum_cons, sum_nil, length_append,
   length_cons, htype, hname, hepoch, haudio, htext, hconfidence, kMaxEventTextBytes]
  omega
 | error code message =>
  have hname : (jsonQuote (utf8 "error")).length = 7 := by decide
  have hcode : (jsonQuote (utf8 "code")).length = 6 := by decide
  have hmessage : (jsonQuote (utf8 "message")).length = 9 := by decide
  have hcode' := Field.quoted (printableAscii_field code 32)
  have hmessage' := Field.quoted (printableAscii_field message kMaxErrorMessageBytes)
  rw [kMaxErrorMessageBytes] at hmessage'
  simp only [members, name, Member.text, stringMember, map_cons, map_nil, sum_cons, sum_nil,
   length_append, length_cons, htype, hname, hcode, hmessage, kMaxErrorMessageBytes]
  omega

/-! ## What the browser makes of them -/

def readMembers (r : Report) : Members := r.allMembers.map Member.read

theorem findMember_read {r : Report} {m : Member} (h : m ∈ r.allMembers) :
  findMember r.readMembers m.key = some m.value := by
 refine findMember_mem ?_ (mem_map.2 ⟨m, h, rfl⟩)
 have hkeys := members_keys r
 rwa [readMembers, map_map]

theorem name_known (r : Report) : r.name.length ≤ kMaxHelperNameBytes ∧ eventTypeFromName r.name = some r.type := by
 cases r <;> simp only [name, type] <;> decide

theorem parseHelperLine_object {r : Report} (h : r.InRange) : parseHelperLine r.object = readEvent r.readMembers r.type := by
 have hclean := objectText_clean (members_ok r)
 have hread := parseObject_text (members_ok r) (members_keys r)
 have hlast : r.object.getLast? ≠ some 0x0D := fun hcr =>
  absurd (hclean.shown _ (mem_of_getLast? hcr)) (by decide)
 have htype := findMember_read (r := r) (m := stringMember (utf8 "type") r.name) (mem_cons_self ..)
 obtain ⟨hname, hevent⟩ := name_known r
 have hfound : readString r.readMembers (utf8 "type") kMaxHelperNameBytes true = .ok r.name := by
  rw [readString]
  simp only [stringMember] at htype
  simp only [htype, if_neg (Nat.not_lt.2 hname)]
 rw [parseHelperLine]
 simp only [if_neg hlast, if_neg (Nat.not_lt.2 (object_length h)), (isValidUtf8_iff r.object).2 hclean.valid, Bool.not_true,
  Bool.false_eq_true, if_false]
 rw [object, hread]
 change (readString r.readMembers (utf8 "type") kMaxHelperNameBytes true).bind _ = _
 rw [hfound]
 simp only [Except.bind, hevent]
 rfl

def Fits : Report → Prop
 | ready engine _ => (engine.countP fun c => 0x20 ≤ c && c < 0x7F) ≤ kMaxHelperNameBytes
 | _ => True

instance (r : Report) : Decidable r.Fits := by
 cases r <;> unfold Fits <;> infer_instance

theorem readCount_number {members : Members} {key : Bytes} {i : ℤ} (hfound : findMember members key = some (.number i.natAbs))
  (hpos : 0 ≤ i) (hmax : i ≤ 2 ^ 53) : readCount members key = .ok i := by
 have hcast : ((i.natAbs : ℕ) : ℚ) = (i : ℚ) := by
  rw [Nat.cast_natAbs, abs_of_nonneg hpos]
 have hpos' : (0 : ℚ) ≤ i := by exact_mod_cast hpos
 have hmax' : (i : ℚ) ≤ 2 ^ 53 := by exact_mod_cast hmax
 rw [hcast] at hfound
 rw [readCount, hfound]
 simp only [kMaxCount, not_le, Int.floor_intCast]
 rw [if_neg]
 simp only [not_or, not_lt, ne_eq, not_not]
 exact ⟨hpos', hmax', trivial⟩

theorem readTimed_found {r : Report} (h : r.InRange) {time : EventTime} (htime : r.time? = some time)
  (hmem : ∀ m ∈ timeMembers time, m ∈ r.allMembers) (type : HelperEventType) :
  readTimed r.readMembers type = .ok { type, epoch := time.epoch, audioMs := time.audioMs } := by
 obtain ⟨⟨hepoch, hepoch'⟩, haudio, haudio'⟩ := h time htime
 have hfirst : findMember r.readMembers (utf8 "epoch") = some (.number time.epoch.natAbs) :=
  findMember_read (hmem _ (mem_cons_self ..))
 have hsecond : findMember r.readMembers (utf8 "audio_ms") = some (.number time.audioMs.natAbs) :=
  findMember_read (hmem _ (mem_cons_of_mem _ (mem_cons_self ..)))
 rw [readTimed, readCount_number hfirst hepoch hepoch', readCount_number hsecond haudio haudio']
 rfl

theorem readString_found {members : Members} {key text : Bytes} {cap : ℕ} {required : Bool}
  (hfound : findMember members key = some (.string text)) (hlen : text.length ≤ cap) :
  readString members key cap required = .ok text := by
 rw [readString, hfound]
 simp only [if_neg (Nat.not_lt.2 hlen)]

theorem readHeard_found {members : Members} {event : HelperEvent} {text : Bytes} {confidence : ℚ}
  (hfound : findMember members (utf8 "text") = some (.string text)) (hlen : text.length ≤ kMaxHelperTextBytes)
  (hconfidence : event.type = .final →
   findMember members (utf8 "confidence") = some (.number confidence) ∧ 0 ≤ confidence ∧ confidence ≤ 1) :
  ∃ e, readHeard members event = .ok e ∧ e.type = event.type ∧ e.epoch = event.epoch ∧ e.audioMs = event.audioMs ∧
   e.text = speechSafeText text kMaxHelperTextBytes := by
 rw [readHeard, readString_found hfound hlen]
 simp only [bind, Except.bind]
 split_ifs with hfinal
 · obtain ⟨hfound, hpos, hone⟩ := hconfidence hfinal
   rw [hfound]
   have hin : ¬ ¬ (0 ≤ confidence ∧ confidence ≤ 1) := not_not.2 ⟨hpos, hone⟩
   simp only [if_neg hin]
   exact ⟨{ event with text := speechSafeText text kMaxHelperTextBytes, confidence }, rfl, rfl, rfl, rfl, rfl⟩
 · exact ⟨{ event with text := speechSafeText text kMaxHelperTextBytes }, rfl, rfl, rfl, rfl, rfl⟩

structure Carried (r : Report) (e : HelperEvent) : Prop where
 type : e.type = r.type
 time : ∀ time ∈ r.time?, e.epoch = time.epoch ∧ e.audioMs = time.audioMs
 text : ∀ text ∈ r.text?, e.text = speechSafeText (cleanEventText text kMaxEventTextBytes) kMaxHelperTextBytes

theorem printableAscii_fits (engine : Bytes) (models : List Bytes) :
  (ready engine models).Fits ↔ (printableAscii engine 200).length ≤ kMaxHelperNameBytes := by
 rw [Fits, printableAscii, length_take, countP_eq_length_filter, kMaxHelperNameBytes]
 omega

theorem readEvent_carried {r : Report} (h : r.InRange) (hfits : r.Fits) :
  ∃ e, readEvent r.readMembers r.type = .ok e ∧ r.Carried e := by
 cases r with
 | ready engine models =>
  rw [printableAscii_fits] at hfits
  have hengine : findMember (ready engine models).readMembers (utf8 "engine") = some (.string (printableAscii engine 200)) :=
   findMember_read (m := stringMember (utf8 "engine") (printableAscii engine 200)) (by simp [allMembers, members])
  have hmodels : findMember (ready engine models).readMembers (utf8 "models") =
    some (.strings ((models.take 8).map fun model => printableAscii model 100)) :=
   findMember_read (m := stringsMember (utf8 "models") ((models.take 8).map fun model => printableAscii model 100))
    (by simp [allMembers, members])
  have hprotocol : findMember (ready engine models).readMembers (utf8 "protocol") = some (.number (kProtocolVersion : ℕ)) :=
   findMember_read (m := numberMember (utf8 "protocol") kProtocolVersion) (by simp [allMembers, members])
  have hcount : ((models.take 8).map fun model => printableAscii model 100).length ≤ kMaxHelperModels := by
   rw [length_map]
   exact length_take_le _ _
  have hnames : (((models.take 8).map fun model => printableAscii model 100).any fun name =>
    kMaxHelperNameBytes < name.length) = false := by
   rw [any_eq_false]
   intro name hname
   obtain ⟨model, -, rfl⟩ := mem_map.1 hname
   rw [decide_eq_true_eq]
   exact Nat.not_lt.2 ((printableAscii_field model 100).length.trans (by decide))
  have hversion : ¬ ((kProtocolVersion : ℕ) : ℚ) ≠ kSpeechProtocolVersion := by simp [kProtocolVersion, kSpeechProtocolVersion]
  simp only [readEvent, type, readReady, readString_found hengine hfits, readModels, hmodels, hprotocol,
   if_neg (Nat.not_lt.2 hcount), hnames, if_neg hversion, bind, Except.bind, Bool.false_eq_true, if_false]
  exact ⟨_, rfl, rfl, by simp [time?], by simp [text?]⟩
 | wake time =>
  exact ⟨_, readTimed_found h rfl (fun m hm => mem_cons_of_mem _ hm) .wake, rfl, by simp [time?], by simp [text?]⟩
 | speechStart time =>
  exact ⟨_, readTimed_found h rfl (fun m hm => mem_cons_of_mem _ hm) .speechStart, rfl, by simp [time?],
   by simp [text?]⟩
 | partialText time text =>
  have htext : findMember (partialText time text).readMembers (utf8 "text") =
    some (.string (cleanEventText text kMaxEventTextBytes)) :=
   findMember_read (m := textMember text) (by simp [allMembers, members])
  have htime := readTimed_found h rfl (fun m hm => mem_cons_of_mem _ (mem_append_left _ hm)) .partialText
  obtain ⟨e, he, htype, hepoch, haudio, htext'⟩ := @readHeard_found _
   { type := .partialText, epoch := time.epoch, audioMs := time.audioMs } _ 0 htext
   (cleanEventText_field text kMaxEventTextBytes).length (fun hf => absurd hf (by simp))
  refine ⟨e, ?_, htype, by simp [time?, hepoch, haudio], by simp [text?, htext']⟩
  simp only [readEvent, type, htime, bind, Except.bind]
  exact he
 | speechEnd time =>
  exact ⟨_, readTimed_found h rfl (fun m hm => mem_cons_of_mem _ hm) .speechEnd, rfl, by simp [time?],
   by simp [text?]⟩
 | final time text confidence =>
  have htext : findMember (final time text confidence).readMembers (utf8 "text") =
    some (.string (cleanEventText text kMaxEventTextBytes)) :=
   findMember_read (m := textMember text) (by simp [allMembers, members])
  have hconfidence : findMember (final time text confidence).readMembers (utf8 "confidence") =
    some (.number (hundredths confidence / 100)) :=
   findMember_read (m := confidenceMember (utf8 "confidence") confidence) (by simp [allMembers, members])
  have htime := readTimed_found h rfl (fun m hm => mem_cons_of_mem _ (mem_append_left _ hm)) .final
  obtain ⟨e, he, htype, hepoch, haudio, htext'⟩ := @readHeard_found _
   { type := .final, epoch := time.epoch, audioMs := time.audioMs } _ _ htext
   (cleanEventText_field text kMaxEventTextBytes).length (fun _ => ⟨hconfidence, hundredths_unit confidence⟩)
  refine ⟨e, ?_, htype, by simp [time?, hepoch, haudio], by simp [text?, htext']⟩
  simp only [readEvent, type, htime, bind, Except.bind]
  exact he
 | error code message =>
  have hcode : findMember (error code message).readMembers (utf8 "code") = some (.string (printableAscii code 32)) :=
   findMember_read (m := stringMember (utf8 "code") (printableAscii code 32)) (by simp [allMembers, members])
  have hmessage : findMember (error code message).readMembers (utf8 "message") =
    some (.string (printableAscii message kMaxErrorMessageBytes)) :=
   findMember_read (m := stringMember (utf8 "message") (printableAscii message kMaxErrorMessageBytes))
    (by simp [allMembers, members])
  have hcodeLength : (printableAscii code 32).length ≤ kMaxHelperNameBytes :=
   (printableAscii_field code 32).length.trans (by decide)
  have hmessageLength : (printableAscii message kMaxErrorMessageBytes).length ≤ kMaxHelperTextBytes :=
   (printableAscii_field message kMaxErrorMessageBytes).length.trans (by decide)
  simp only [readEvent, type, readError, readString_found hcode hcodeLength, readString_found hmessage hmessageLength, bind,
   Except.bind]
  exact ⟨_, rfl, rfl, by simp [time?], by simp [text?]⟩

theorem readEvent_refused {r : Report} (h : ¬ r.Fits) : readEvent r.readMembers r.type = .error .fieldTooLong := by
 cases r with
 | ready engine models =>
  rw [printableAscii_fits, Nat.not_le] at h
  have hengine : findMember (ready engine models).readMembers (utf8 "engine") = some (.string (printableAscii engine 200)) :=
   findMember_read (m := stringMember (utf8 "engine") (printableAscii engine 200)) (by simp [allMembers, members])
  have hstring : readString (ready engine models).readMembers (utf8 "engine") kMaxHelperNameBytes true = .error .fieldTooLong := by
   rw [readString, hengine]
   simp only [if_pos h]
  simp only [readEvent, type, readReady, hstring, bind, Except.bind]
 | wake time => exact absurd trivial h
 | speechStart time => exact absurd trivial h
 | partialText time text => exact absurd trivial h
 | speechEnd time => exact absurd trivial h
 | final time text confidence => exact absurd trivial h
 | error code message => exact absurd trivial h

def ReadBack (r : Report) : Prop :=
 ∀ chunks : List Bytes, chunks.flatten = r.line →
  ∃ line, HelperLineReader.feedAll {} chunks = ([line], {}) ∧ ∃ e, parseHelperLine line = .ok e ∧ r.Carried e

theorem feedAll_report {r : Report} (h : r.InRange) {chunks : List Bytes} (hchunks : chunks.flatten = r.line) :
  HelperLineReader.feedAll {} chunks = ([r.object], {}) := by
 have hclean := objectText_clean (members_ok r)
 rw [line_eq h] at hchunks
 refine feedAll_line (fun hmem => ?_) (object_length h) (fun hlast => ?_) chunks hchunks
 · exact absurd (hclean.shown _ hmem) (by decide)
 · exact absurd (hclean.shown _ (mem_of_getLast? hlast)) (by decide)

/-- The browser reads every line the helper can write but for an engine name that is too long. -/
theorem readBack_iff {r : Report} (h : r.InRange) : r.ReadBack ↔ r.Fits := by
 constructor
 · intro hread
   by_contra hfits
   obtain ⟨line, hline, e, he, -⟩ := hread [r.line] (by simp)
   rw [feedAll_report h (by simp)] at hline
   obtain rfl : r.object = line := by simpa using hline
   rw [parseHelperLine_object h, readEvent_refused hfits] at he
   exact absurd he (by simp)
 · intro hfits chunks hchunks
   obtain ⟨e, he, hcarried⟩ := readEvent_carried h hfits
   exact ⟨r.object, feedAll_report h hchunks, e, by rw [parseHelperLine_object h, he], hcarried⟩

theorem readBack_final : (final ⟨3, 1250⟩ (utf8 "open the news") (.finite (93 / 100))).ReadBack :=
 (readBack_iff (r := final ⟨3, 1250⟩ (utf8 "open the news") (.finite (93 / 100))) (by
  intro time ht
  obtain rfl := Option.some.inj ht
  decide)).2 trivial

/-- An engine name of 129 letters is written whole and refused. -/
theorem long_engine_refused : ¬ (ready (List.replicate 129 0x61) []).ReadBack := by
 intro hread
 obtain ⟨line, hline, e, he, -⟩ := hread [(ready (List.replicate 129 0x61) []).line] (by simp)
 have hrange : (ready (List.replicate 129 0x61) []).InRange := by simp [InRange, time?]
 have hlong : ¬ (ready (List.replicate 129 0x61) []).Fits := by decide +kernel
 rw [feedAll_report hrange (by simp)] at hline
 obtain rfl : (ready (List.replicate 129 0x61) []).object = line := by simpa using hline
 rw [parseHelperLine_object hrange, readEvent_refused hlong] at he
 exact absurd he (by simp)

end Report

end MoltBrowser.Voice
