import MoltBrowser.PageMapText

set_option autoImplicit false

/-!
# The lines the browser reads from the speech helper

A strict reader of one flat JSON object a line, and the events it may hold.
-/
namespace MoltBrowser.Voice
open StreamFilters

def kMaxHelperLineBytes : ℕ := 4096
def kMaxHelperTextBytes : ℕ := 1000
def kMaxHelperNameBytes : ℕ := 128
def kMaxHelperModels : ℕ := 8
def kSpeechProtocolVersion : ℕ := 1

inductive HelperLineError where
 | tooLong | invalidUtf8 | notJson | notObject | duplicateKey | unknownType | missingField | badField | fieldTooLong
 deriving DecidableEq

inductive JsonValue where
 | string (s : Bytes)
 | number (x : ℚ)
 | bool (b : Bool)
 | null
 | strings (l : List Bytes)

/-- What a parser takes off the front of the text, or why the line is refused. -/
abbrev Parsed (α : Type) := Except HelperLineError (α × Bytes)

/-! ## Tokens -/

def skipSpace (s : Bytes) : Bytes := s.dropWhile fun c => c == 0x20 || c == 0x09 || c == 0x0D || c == 0x0A

def hexValue (c : UInt8) : Option ℕ :=
 if 0x30 ≤ c ∧ c ≤ 0x39 then some (c.toNat - 0x30)
 else if 0x61 ≤ c ∧ c ≤ 0x66 then some (c.toNat - 0x61 + 10)
 else if 0x41 ≤ c ∧ c ≤ 0x46 then some (c.toNat - 0x41 + 10)
 else none

def parseHex4 : Bytes → Option (ℕ × Bytes)
 | a :: b :: c :: d :: rest => do
  let a ← hexValue a
  let b ← hexValue b
  let c ← hexValue c
  let d ← hexValue d
  some (((a * 16 + b) * 16 + c) * 16 + d, rest)
 | _ => none

def byte (n : ℕ) : UInt8 := UInt8.ofNat n

def appendUtf8 (cp : ℕ) : Bytes :=
 if cp < 0x80 then [byte cp]
 else if cp < 0x800 then [byte (0xC0 ||| cp >>> 6), byte (0x80 ||| cp &&& 0x3F)]
 else if cp < 0x10000 then
  [byte (0xE0 ||| cp >>> 12), byte (0x80 ||| cp >>> 6 &&& 0x3F), byte (0x80 ||| cp &&& 0x3F)]
 else
  [byte (0xF0 ||| cp >>> 18), byte (0x80 ||| cp >>> 12 &&& 0x3F), byte (0x80 ||| cp >>> 6 &&& 0x3F),
   byte (0x80 ||| cp &&& 0x3F)]

/-- After `\u`: the character and what is left, the surrogates of a pair taken together. -/
def parseUnicode (s : Bytes) : Parsed Bytes :=
 match parseHex4 s with
 | none => .error .notJson
 | some (unit, s) =>
  if 0xDC00 ≤ unit ∧ unit ≤ 0xDFFF then .error .invalidUtf8
  else if 0xD800 ≤ unit ∧ unit ≤ 0xDBFF then
   match s with
   | 0x5C :: 0x75 :: s =>
    match parseHex4 s with
    | none => .error .invalidUtf8
    | some (low, s) =>
     if low < 0xDC00 ∨ 0xDFFF < low then .error .invalidUtf8
     else .ok (appendUtf8 (0x10000 + ((unit - 0xD800) <<< 10) + (low - 0xDC00)), s)
   | _ => .error .invalidUtf8
  else .ok (appendUtf8 unit, s)

def simpleEscape (c : UInt8) : Option UInt8 :=
 if c = 0x22 ∨ c = 0x5C ∨ c = 0x2F then some c
 else if c = 0x62 then some 0x08
 else if c = 0x66 then some 0x0C
 else if c = 0x6E then some 0x0A
 else if c = 0x72 then some 0x0D
 else if c = 0x74 then some 0x09
 else none

/-- After the opening quote; `fuel` is at least the text's length. -/
def parseStringFrom : ℕ → Bytes → Bytes → Parsed Bytes
 | 0, _, _ => .error .notJson
 | _ + 1, _, [] => .error .notJson
 | fuel + 1, out, c :: s =>
  if c = 0x22 then if isValidUtf8 out then .ok (out, s) else .error .invalidUtf8
  else if c < 0x20 then .error .notJson
  else if c ≠ 0x5C then parseStringFrom fuel (out ++ [c]) s
  else
   match s with
   | [] => .error .notJson
   | e :: s =>
    match simpleEscape e with
    | some c => parseStringFrom fuel (out ++ [c]) s
    | none =>
     if e = 0x75 then
      match parseUnicode s with
      | .ok (c, s) => parseStringFrom fuel (out ++ c) s
      | .error e => .error e
     else .error .notJson

def parseString : Bytes → Parsed Bytes
 | 0x22 :: s => parseStringFrom (s.length + 1) [] s
 | _ => .error .notJson

def isDigit (c : UInt8) : Bool := 0x30 ≤ c && c ≤ 0x39

def digitValue (c : UInt8) : ℚ := (c.toNat - 0x30 : ℕ)

def wholePart (digits : Bytes) : ℚ := digits.foldl (fun value c => value * 10 + digitValue c) 0

def withFraction (value : ℚ) (digits : Bytes) : ℚ :=
 (digits.foldl (fun acc c => (acc.1 + digitValue c * acc.2, acc.2 / 10)) (value, (1 / 10 : ℚ))).1

/-- Multiplied or divided by ten until it is zero or saturates. -/
def scale (negativeExponent : Bool) : ℕ → ℚ → ℚ
 | 0, value => value
 | n + 1, value =>
  if value = 0 then value
  else
   let value := if negativeExponent then value / 10 else value * 10
   if 10 ^ 300 < value then value else scale negativeExponent n value

def parseInteger (s : Bytes) : Option (ℚ × Bytes) :=
 match s with
 | [] => none
 | c :: rest =>
  if !isDigit c then none
  else if c = 0x30 then if (rest.head?.map isDigit).getD false then none else some (0, rest)
  else some (wholePart (s.takeWhile isDigit), s.dropWhile isDigit)

def parseFraction (value : ℚ) (s : Bytes) : Option (ℚ × Bytes) :=
 match s with
 | 0x2E :: s =>
  if s.takeWhile isDigit = [] then none
  else some (withFraction value (s.takeWhile isDigit), s.dropWhile isDigit)
 | s => some (value, s)

def parseExponent (value : ℚ) (s : Bytes) : Option (ℚ × Bytes) :=
 match s with
 | c :: s =>
  if c = 0x65 ∨ c = 0x45 then
   let negativeExponent := s.head? == some 0x2D
   let s := if s.head? == some 0x2B || s.head? == some 0x2D then s.drop 1 else s
   if s.takeWhile isDigit = [] then none
   else
    let exponent := (s.takeWhile isDigit).foldl (fun e c => min (e * 10 + (c.toNat - 0x30)) 400) 0
    some (scale negativeExponent exponent value, s.dropWhile isDigit)
  else some (value, c :: s)
 | [] => some (value, [])

def parseNumber (s : Bytes) : Parsed ℚ :=
 let negative := s.head? == some 0x2D
 let number := do
  let (value, s) ← parseInteger (if negative then s.drop 1 else s)
  let (value, s) ← parseFraction value s
  parseExponent value s
 match number with
 | some (value, s) => .ok (if negative then -value else value, s)
 | none => .error .notJson

def consumeWord (word s : Bytes) : Option Bytes := if word.isPrefixOf s then some (s.drop word.length) else none

/-- After `[`, and the values so far; `fuel` is at least the text's length. -/
def parseStrings : ℕ → List Bytes → Bytes → Parsed (List Bytes)
 | 0, _, _ => .error .notJson
 | fuel + 1, l, s =>
  let s := skipSpace s
  if s.head? ≠ some 0x22 then .error .badField
  else
   match parseString s with
   | .error e => .error e
   | .ok (string, s) =>
    match skipSpace s with
    | 0x2C :: s => parseStrings fuel (l ++ [string]) s
    | 0x5D :: s => .ok (l ++ [string], s)
    | _ => .error .notJson

def parseValue (s : Bytes) : Parsed JsonValue :=
 match s with
 | 0x22 :: _ => (parseString s).map fun r => (.string r.1, r.2)
 | 0x5B :: s =>
  match skipSpace s with
  | 0x5D :: s => .ok (.strings [], s)
  | s => (parseStrings (s.length + 1) [] s).map fun r => (.strings r.1, r.2)
 | 0x7B :: _ => .error .badField
 | s =>
  match consumeWord "true" s, consumeWord "false" s, consumeWord "null" s with
  | some s, _, _ => .ok (.bool true, s)
  | _, some s, _ => .ok (.bool false, s)
  | _, _, some s => .ok (.null, s)
  | none, none, none => (parseNumber s).map fun r => (.number r.1, r.2)

/-! ## The object -/

abbrev Members := List (Bytes × JsonValue)

def finish (members : Members) (s : Bytes) : Except HelperLineError Members :=
 if skipSpace s = [] then .ok members else .error .notJson

/-- The members from here on; `fuel` is at least the text's length. -/
def parseMembers : ℕ → Members → Bytes → Except HelperLineError Members
 | 0, _, _ => .error .notJson
 | fuel + 1, members, s =>
  match parseString (skipSpace s) with
  | .error e => .error e
  | .ok (key, s) =>
   match skipSpace s with
   | 0x3A :: s =>
    match parseValue (skipSpace s) with
    | .error e => .error e
    | .ok (value, s) =>
     if members.any fun m => m.1 == key then .error .duplicateKey
     else
      match skipSpace s with
      | 0x2C :: s => parseMembers fuel (members ++ [(key, value)]) s
      | 0x7D :: s => finish (members ++ [(key, value)]) s
      | _ => .error .notJson
   | _ => .error .notJson

def parseObject (text : Bytes) : Except HelperLineError Members :=
 match skipSpace text with
 | 0x7B :: s =>
  match skipSpace s with
  | 0x7D :: s => finish [] s
  | s => parseMembers (s.length + 1) [] s
 | s => if s.head? = some 0x5B ∨ s.head? = some 0x22 then .error .notObject else .error .notJson

/-! ## Events -/

inductive HelperEventType where
 | ready | wake | speechStart | partialText | final | speechEnd | error
 deriving DecidableEq

structure HelperEvent where
 type : HelperEventType
 text : Bytes := []
 confidence : ℚ := 0
 engine : Bytes := []
 models : List Bytes := []
 code : Bytes := []
 message : Bytes := []
 epoch : ℤ := -1
 audioMs : ℤ := -1

def findMember (members : Members) (key : Bytes) : Option JsonValue :=
 (members.find? fun m => m.1 == key).map Prod.snd

def kTypes : List (Bytes × HelperEventType) :=
 [(utf8 "ready", .ready), (utf8 "wake", .wake), (utf8 "speech_start", .speechStart), (utf8 "partial", .partialText),
  (utf8 "final", .final), (utf8 "speech_end", .speechEnd), (utf8 "error", .error)]

def eventTypeFromName (name : Bytes) : Option HelperEventType :=
 (kTypes.find? fun t => t.1 == name).map Prod.snd

def kMaxCount : ℚ := 2 ^ 53

/-- An optional whole number from 0 to 2^53; -1 when it isn't there. -/
def readCount (members : Members) (key : Bytes) : Except HelperLineError ℤ :=
 match findMember members key with
 | none => .ok (-1)
 | some (.number x) => if ¬ 0 ≤ x ∨ kMaxCount < x ∨ x ≠ (⌊x⌋ : ℤ) then .error .badField else .ok ⌊x⌋
 | some _ => .error .badField

def readString (members : Members) (key : Bytes) (cap : ℕ) (required : Bool) : Except HelperLineError Bytes :=
 match findMember members key with
 | none => if required then .error .missingField else .ok []
 | some (.string s) => if cap < s.length then .error .fieldTooLong else .ok s
 | some _ => .error .badField

def readModels (members : Members) : Except HelperLineError (List Bytes) :=
 let names : Except HelperLineError (List Bytes) :=
  match findMember members "models" with
  | none => .ok []
  | some (.string s) => .ok [s]
  | some (.strings l) => .ok l
  | some _ => .error .badField
 match names with
 | .error e => .error e
 | .ok names =>
  if kMaxHelperModels < names.length then .error .fieldTooLong
  else if names.any fun name => kMaxHelperNameBytes < name.length then .error .fieldTooLong
  else .ok (names.map fun name => speechSafeText name kMaxHelperNameBytes)

def readReady (members : Members) : Except HelperLineError HelperEvent := do
 let engine ← readString members "engine" kMaxHelperNameBytes true
 let models ← readModels members
 match findMember members "protocol" with
 | none => pure ()
 | some (.number x) => if x ≠ kSpeechProtocolVersion then throw .badField
 | some _ => throw .badField
 pure { type := .ready, engine := speechSafeText engine kMaxHelperNameBytes, models }

def readHeard (members : Members) (event : HelperEvent) : Except HelperLineError HelperEvent := do
 let text ← readString members "text" kMaxHelperTextBytes true
 let event := { event with text := speechSafeText text kMaxHelperTextBytes }
 if event.type = .final then
  match findMember members "confidence" with
  | none => throw .missingField
  | some (.number x) => if ¬ (0 ≤ x ∧ x ≤ 1) then throw .badField else pure { event with confidence := x }
  | some _ => throw .badField
 else pure event

def readError (members : Members) : Except HelperLineError HelperEvent := do
 let code ← readString members "code" kMaxHelperNameBytes true
 let message ← readString members "message" kMaxHelperTextBytes false
 pure
  { type := .error
    code := speechSafeText code kMaxHelperNameBytes
    message := speechSafeText message kMaxHelperTextBytes }

def readTimed (members : Members) (type : HelperEventType) : Except HelperLineError HelperEvent := do
 let epoch ← readCount members "epoch"
 let audioMs ← readCount members "audio_ms"
 pure { type, epoch, audioMs }

def readEvent (members : Members) : HelperEventType → Except HelperLineError HelperEvent
 | .ready => readReady members
 | .error => readError members
 | .partialText => do readHeard members (← readTimed members .partialText)
 | .final => do readHeard members (← readTimed members .final)
 | type => readTimed members type

def parseHelperLine (line : Bytes) : Except HelperLineError HelperEvent :=
 let line := if line.getLast? = some 0x0D then line.dropLast else line
 if kMaxHelperLineBytes < line.length then .error .tooLong
 else if !isValidUtf8 line then .error .invalidUtf8
 else do
  let members ← parseObject line
  let name ← readString members "type" kMaxHelperNameBytes true
  match eventTypeFromName name with
  | none => throw .unknownType
  | some type => readEvent members type

/-! ## Lines -/

structure HelperLineReader where
 fragment : Bytes := []
 failed : Bool := false

/-- The lines that end in `bytes`, whether the helper's output may still be read, and the reader. -/
def HelperLineReader.read (r : HelperLineReader) (bytes : Bytes) : List Bytes × HelperLineReader :=
 if _h : bytes = [] then ([], r)
 else
  let piece := bytes.takeWhile (· != 0x0A)
  if kMaxHelperLineBytes + 1 < r.fragment.length + piece.length then ([], { fragment := [], failed := true })
  else
   let line := r.fragment ++ piece
   if piece.length = bytes.length then ([], { r with fragment := line })
   else
    let line := if line.getLast? = some 0x0D then line.dropLast else line
    if kMaxHelperLineBytes < line.length then ([], { fragment := [], failed := true })
    else
     let (lines, r) := HelperLineReader.read { r with fragment := [] } (bytes.drop (piece.length + 1))
     (line :: lines, r)
termination_by bytes.length
decreasing_by
 have := List.length_pos_iff.2 _h
 rw [List.length_drop]
 omega

def HelperLineReader.feed (r : HelperLineReader) (bytes : Bytes) : List Bytes × HelperLineReader :=
 if r.failed then ([], r) else r.read bytes

def HelperLineReader.feedAll (r : HelperLineReader) : List Bytes → List Bytes × HelperLineReader
 | [] => ([], r)
 | bytes :: more =>
  let (lines, r) := r.feed bytes
  let (rest, r) := r.feedAll more
  (lines ++ rest, r)

end MoltBrowser.Voice
