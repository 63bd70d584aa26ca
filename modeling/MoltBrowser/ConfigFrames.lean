import MoltBrowser.SpeechEvents
import MoltBrowser.SpeechListener

set_option autoImplicit false

/-!
# The CONFIG frame as the speech helper reads it (`speech_config.cc`)

A strict reader in a single pass over the bytes not read yet: the fields it knows are read into
an update, every other value is checked and skipped. A position is told by the bytes that are left
of the frame's `size`.
-/
namespace MoltBrowser.ConfigFrames
open SpeechEvents (decimal)
open SpeechListener (ConfigUpdate)

def kMaxWakePhrases : ℕ := 8
def kMaxWakePhraseBytes : ℕ := 64
def kMaxWakePhraseWords : ℕ := 4
def kMaxConfigHotwords : ℕ := 1000
def kMinVadSilenceMs : ℤ := 100
def kMaxVadSilenceMs : ℤ := 3000
def kMaxJsonDepth : ℕ := 8
def kMaxJsonStringBytes : ℕ := 1024

def isAsciiLetter (c : UInt8) : Bool := (0x61 ≤ c && c ≤ 0x7A) || (0x41 ≤ c && c ≤ 0x5A)

/-! ## Errors -/

inductive ConfigStatus where
 | protocolError | configError
 deriving DecidableEq

structure ConfigError where
 status : ConfigStatus
 error : Bytes
 deriving DecidableEq

abbrev Read (α : Type) := Except ConfigError α

def protocol {α : Type} (message : Bytes) : Read α := .error ⟨.protocolError, message⟩
def config {α : Type} (message : Bytes) : Read α := .error ⟨.configError, utf8 "CONFIG: " ++ message⟩

/-- The source's `Where`. -/
def placed (what : Bytes) (pos : ℕ) : Bytes := utf8 "CONFIG: " ++ what ++ utf8 " at byte " ++ decimal pos

def wrong {α : Type} (size : ℕ) (what s : Bytes) : Read α := protocol (placed what (size - s.length))

/-! ## Characters -/

def peek (s : Bytes) : UInt8 := s.headD 0

def consume (c : UInt8) : Bytes → Option Bytes
 | [] => none
 | b :: s => if b = c then some s else none

def consumeWord (word s : Bytes) : Option Bytes := if word.isPrefixOf s then some (s.drop word.length) else none

def skipSpace (s : Bytes) : Bytes := s.dropWhile fun c => c == 0x20 || c == 0x09 || c == 0x0A || c == 0x0D

def isDigit (c : UInt8) : Bool := 0x30 ≤ c && c ≤ 0x39

def atValueStart (s : Bytes) : Bool :=
 let c := peek s
 c == 0x7B || c == 0x5B || c == 0x22 || c == 0x2D || isDigit c || c == 0x74 || c == 0x66 || c == 0x6E

def notOfKind {α : Type} (size : ℕ) (message s : Bytes) : Read α :=
 if atValueStart s then config message else wrong size "expected a value" s

/-! ## Strings -/

/-- The length of the well-formed sequence at the front, or 0; a byte past the end is 0. -/
def utf8SequenceLength (s : Bytes) : ℕ :=
 let byte (i : ℕ) : UInt8 := s.getD i 0
 let cont (b lo hi : UInt8) : Bool := lo ≤ b && b ≤ hi
 let b0 := byte 0
 if 0xC2 ≤ b0 ∧ b0 ≤ 0xDF then if cont (byte 1) 0x80 0xBF then 2 else 0
 else if 0xE0 ≤ b0 ∧ b0 ≤ 0xEF then
  let lo := if b0 = 0xE0 then 0xA0 else 0x80
  let hi := if b0 = 0xED then 0x9F else 0xBF
  if cont (byte 1) lo hi && cont (byte 2) 0x80 0xBF then 3 else 0
 else if 0xF0 ≤ b0 ∧ b0 ≤ 0xF4 then
  let lo := if b0 = 0xF0 then 0x90 else 0x80
  let hi := if b0 = 0xF4 then 0x8F else 0xBF
  if cont (byte 1) lo hi && cont (byte 2) 0x80 0xBF && cont (byte 3) 0x80 0xBF then 4 else 0
 else 0

def appendUtf8 (code : ℕ) : Bytes :=
 if code < 0x80 then [UInt8.ofNat code]
 else if code < 0x800 then [UInt8.ofNat (0xC0 ||| code >>> 6), UInt8.ofNat (0x80 ||| (code &&& 0x3F))]
 else if code < 0x10000 then
  [UInt8.ofNat (0xE0 ||| code >>> 12), UInt8.ofNat (0x80 ||| (code >>> 6 &&& 0x3F)),
   UInt8.ofNat (0x80 ||| (code &&& 0x3F))]
 else
  [UInt8.ofNat (0xF0 ||| code >>> 18), UInt8.ofNat (0x80 ||| (code >>> 12 &&& 0x3F)),
   UInt8.ofNat (0x80 ||| (code >>> 6 &&& 0x3F)), UInt8.ofNat (0x80 ||| (code &&& 0x3F))]

def hexDigit (c : UInt8) : Option ℕ :=
 if 0x30 ≤ c ∧ c ≤ 0x39 then some (c.toNat - 0x30)
 else if 0x61 ≤ c ∧ c ≤ 0x66 then some (c.toNat - 0x61 + 10)
 else if 0x41 ≤ c ∧ c ≤ 0x46 then some (c.toNat - 0x41 + 10)
 else none

def readHex4 (size : ℕ) (s : Bytes) : Read (ℕ × Bytes) :=
 if s.length < 4 then wrong size "bad \\u escape" s
 else
  match (s.take 4).mapM hexDigit with
  | none => wrong size "bad \\u escape" s
  | some digits => .ok (digits.foldl (fun value digit => value <<< 4 ||| digit) 0, s.drop 4)

/-- After `\u`: one character, of a pair of surrogates too. -/
def readUnicode (size : ℕ) (s : Bytes) : Read (Bytes × Bytes) := do
 let (code, s) ← readHex4 size s
 if 0xDC00 ≤ code ∧ code ≤ 0xDFFF then wrong size "lone surrogate" s
 else if 0xD800 ≤ code ∧ code ≤ 0xDBFF then
  match consume 0x5C s with
  | none => wrong size "lone surrogate" s
  | some s =>
   match consume 0x75 s with
   | none => wrong size "lone surrogate" s
   | some s => do
    let (low, s) ← readHex4 size s
    if low < 0xDC00 ∨ 0xDFFF < low then wrong size "lone surrogate" s
    else .ok (appendUtf8 (0x10000 + ((code - 0xD800) <<< 10) + (low - 0xDC00)), s)
 else .ok (appendUtf8 code, s)

def simpleEscape (c : UInt8) : Option UInt8 :=
 if c = 0x22 ∨ c = 0x5C ∨ c = 0x2F then some c
 else if c = 0x62 then some 0x08
 else if c = 0x66 then some 0x0C
 else if c = 0x6E then some 0x0A
 else if c = 0x72 then some 0x0D
 else if c = 0x74 then some 0x09
 else none

/-- After a backslash; the position is past the character it reads, at the frame's end too. -/
def readEscape (size : ℕ) (s : Bytes) : Read (Bytes × Bytes) :=
 match simpleEscape (peek s) with
 | some c => .ok ([c], s.tail)
 | none =>
  if peek s = 0x75 then readUnicode size s.tail
  else protocol (placed "bad escape" (size - s.length + 1))

/-- What one turn adds to the string, and what is left. -/
def readChar (size : ℕ) (c : UInt8) (rest : Bytes) : Read (Bytes × Bytes) :=
 if c < 0x20 then wrong size "control character in a string" (c :: rest)
 else if c = 0x5C then readEscape size rest
 else if c < 0x80 then .ok ([c], rest)
 else if utf8SequenceLength (c :: rest) = 0 then wrong size "invalid UTF-8" (c :: rest)
 else
  .ok ((c :: rest).take (utf8SequenceLength (c :: rest)), (c :: rest).drop (utf8SequenceLength (c :: rest)))

/-- After the opening quote; the fuel is more than the bytes left. -/
def readChars (size : ℕ) : ℕ → Bytes → Bytes → Read (Bytes × Bytes)
 | 0, _, _ => protocol "CONFIG ends inside a string"
 | _ + 1, _, [] => protocol "CONFIG ends inside a string"
 | fuel + 1, out, c :: rest =>
  if c = 0x22 then .ok (out, rest)
  else do
   let (more, rest) ← readChar size c rest
   if kMaxJsonStringBytes < (out ++ more).length then protocol "a CONFIG string is over 1024 bytes"
   else readChars size fuel (out ++ more) rest

def readString (size : ℕ) (s : Bytes) : Read (Bytes × Bytes) :=
 match consume 0x22 s with
 | none => wrong size "expected a string" s
 | some s => readChars size (s.length + 1) [] s

/-! ## Numbers -/

structure Number where
 isInteger : Bool
 overflow : Bool
 value : ℤ

/-- The value so far with one more digit, and whether it has grown past an `int64_t`. -/
def addDigit (n : ℕ × Bool) (c : UInt8) : ℕ × Bool :=
 let digit := c.toNat - 0x30
 if (2 ^ 63 - 1 - digit) / 10 < n.1 then (n.1, true) else (n.1 * 10 + digit, n.2)

def readWhole (size : ℕ) (s : Bytes) : Read ((ℕ × Bool) × Bytes) :=
 if peek s = 0x30 then .ok ((0, false), s.tail)
 else if 0x31 ≤ peek s ∧ peek s ≤ 0x39 then
  .ok ((s.takeWhile isDigit).foldl addDigit (0, false), s.dropWhile isDigit)
 else wrong size "bad number" s

def skipDigits (size : ℕ) (s : Bytes) : Read Bytes :=
 if isDigit (peek s) then .ok (s.dropWhile isDigit) else wrong size "bad number" s

def readFraction (size : ℕ) (s : Bytes) : Read (Bool × Bytes) :=
 match consume 0x2E s with
 | none => .ok (false, s)
 | some s => (skipDigits size s).map fun s => (true, s)

def readExponent (size : ℕ) (s : Bytes) : Read (Bool × Bytes) :=
 if peek s = 0x65 ∨ peek s = 0x45 then
  let s := s.tail
  (skipDigits size (if peek s = 0x2B ∨ peek s = 0x2D then s.tail else s)).map fun s => (true, s)
 else .ok (false, s)

/-- A number: `-?(0|[1-9][0-9]*)(\.[0-9]+)?([eE][+-]?[0-9]+)?` -/
def readNumber (size : ℕ) (s : Bytes) : Read (Number × Bytes) := do
 let negative := (consume 0x2D s).isSome
 let ((value, overflow), s) ← readWhole size ((consume 0x2D s).getD s)
 let (fraction, s) ← readFraction size s
 let (exponent, s) ← readExponent size s
 .ok (⟨!fraction && !exponent, overflow, if negative then -(value : ℤ) else value⟩, s)

/-! ## Values of unknown fields -/

/-- The values of an array after its bracket; the fuel is more than the bytes left. -/
def skipItems (size : ℕ) (skip : Bytes → Read Bytes) : ℕ → Bytes → Read Bytes
 | 0, s => wrong size "expected ',' or ']'" s
 | fuel + 1, s => do
  let s ← skip s
  let s := skipSpace s
  match consume 0x2C s, consume 0x5D s with
  | some s, _ => skipItems size skip fuel s
  | none, some s => .ok s
  | none, none => wrong size "expected ',' or ']'" s

def skipMembers (size : ℕ) (skip : Bytes → Read Bytes) : ℕ → Bytes → Read Bytes
 | 0, s => wrong size "expected ',' or '\x7d'" s
 | fuel + 1, s => do
  let (_, s) ← readString size (skipSpace s)
  match consume 0x3A (skipSpace s) with
  | none => wrong size "expected ':'" (skipSpace s)
  | some s => do
   let s ← skip s
   let s := skipSpace s
   match consume 0x2C s, consume 0x7D s with
   | some s, _ => skipMembers size skip fuel s
   | none, some s => .ok s
   | none, none => wrong size "expected ',' or '\x7d'" s

def skipWord (size : ℕ) (s : Bytes) : Read Bytes :=
 match (consumeWord "true" s).or ((consumeWord "false" s).or (consumeWord "null" s)) with
 | some s => .ok s
 | none => wrong size "expected a value" s

/-- A value that `levels` more may nest in: at depth `d` they are `kMaxJsonDepth + 1 - d`. -/
def skipValue (size : ℕ) : ℕ → Bytes → Read Bytes
 | 0, _ => protocol "CONFIG nests too deeply"
 | levels + 1, s =>
  let s := skipSpace s
  if peek s = 0x7B then
   let s := skipSpace s.tail
   match consume 0x7D s with
   | some s => .ok s
   | none => skipMembers size (skipValue size levels) (s.length + 1) s
  else if peek s = 0x5B then
   let s := skipSpace s.tail
   match consume 0x5D s with
   | some s => .ok s
   | none => skipItems size (skipValue size levels) (s.length + 1) s
  else if peek s = 0x22 then (readString size s).map (·.2)
  else if peek s = 0x2D ∨ isDigit (peek s) then (readNumber size s).map (·.2)
  else skipWord size s

/-! ## Values of known fields -/

/-- The strings of an array and those before them; the fuel is more than the bytes left. -/
def readStrings (size maxItems : ℕ) : ℕ → List Bytes → Bytes → Read (List Bytes × Bytes)
 | 0, _, s => wrong size "expected ',' or ']'" s
 | fuel + 1, out, s =>
  if peek (skipSpace s) ≠ 0x22 then notOfKind size "expected an array of strings" (skipSpace s)
  else do
   let (item, s) ← readString size (skipSpace s)
   if out.length = maxItems then config "too many items in an array"
   else
    let s := skipSpace s
    match consume 0x2C s, consume 0x5D s with
    | some s, _ => readStrings size maxItems fuel (out ++ [item]) s
    | none, some s => .ok (out ++ [item], s)
    | none, none => wrong size "expected ',' or ']'" s

def readStringArray (size maxItems : ℕ) (s : Bytes) : Read (List Bytes × Bytes) :=
 match consume 0x5B s with
 | none => notOfKind size "expected an array of strings" s
 | some s =>
  let s := skipSpace s
  match consume 0x5D s with
  | some s => .ok ([], s)
  | none => readStrings size maxItems (s.length + 1) [] s

def readBool (size : ℕ) (s : Bytes) : Read (Bool × Bytes) :=
 match consumeWord "true" s, consumeWord "false" s with
 | some s, _ => .ok (true, s)
 | none, some s => .ok (false, s)
 | none, none => notOfKind size "expected true or false" s

def readInteger (size : ℕ) (s : Bytes) : Read (ℤ × Bytes) :=
 if peek s ≠ 0x2D ∧ ¬ isDigit (peek s) then notOfKind size "expected an integer" s
 else do
  let (number, s) ← readNumber size s
  if !number.isInteger || number.overflow then config "expected an integer" else .ok (number.value, s)

/-! ## Wake phrases -/

structure PhraseReading where
 result : Bytes := []
 words : ℕ := 0
 inWord : Bool := false
 wordHasLetter : Bool := false

def lowered (c : UInt8) : UInt8 := if 0x41 ≤ c ∧ c ≤ 0x5A then c - 0x41 + 0x61 else c

def PhraseReading.beginWord (p : PhraseReading) : PhraseReading :=
 { p with
   words := p.words + 1
   result := p.result ++ if p.result = [] then [] else [0x20]
   inWord := true
   wordHasLetter := false }

def PhraseReading.push (p : PhraseReading) (c : UInt8) : PhraseReading :=
 { p with wordHasLetter := p.wordHasLetter || isAsciiLetter c, result := p.result ++ [lowered c] }

def PhraseReading.turn (p : PhraseReading) (c : UInt8) : Option PhraseReading :=
 if c = 0x20 then if p.inWord && !p.wordHasLetter then none else some { p with inWord := false }
 else if !isAsciiLetter c ∧ c ≠ 0x27 then none
 else if p.inWord then some (p.push c)
 else if kMaxWakePhraseWords < p.words + 1 then none
 else some (p.beginWord.push c)

def normalizeWakePhrase (phrase : Bytes) : Option Bytes :=
 if phrase = [] ∨ kMaxWakePhraseBytes < phrase.length then none
 else do
  let p ← phrase.foldlM PhraseReading.turn {}
  if p.words = 0 ∨ (p.inWord ∧ ¬ p.wordHasLetter) then none else some p.result

def readPhrases : List Bytes → List Bytes → Read (List Bytes)
 | normalized, [] => .ok normalized
 | normalized, phrase :: rest =>
  match normalizeWakePhrase phrase with
  | none => config "a wake phrase breaks the rules (ASCII letters, apostrophes and spaces, 1 to 4 words, at most 64 bytes)"
  | some clean => readPhrases (if clean ∈ normalized then normalized else normalized ++ [clean]) rest

/-! ## The frame -/

def readField (size : ℕ) (key : Bytes) (update : ConfigUpdate) (s : Bytes) : Read (ConfigUpdate × Bytes) :=
 if key = utf8 "wake_phrases" then do
  let (phrases, s) ← readStringArray size kMaxWakePhrases s
  if phrases = [] then config "wake_phrases is empty"
  else do
   let normalized ← readPhrases [] phrases
   .ok ({ update with wakePhrases := some normalized }, s)
 else if key = utf8 "wake_required" then do
  let (value, s) ← readBool size s
  .ok ({ update with wakeRequired := some value }, s)
 else if key = utf8 "hotwords" then do
  let (hotwords, s) ← readStringArray size kMaxConfigHotwords s
  .ok ({ update with hotwords := some hotwords }, s)
 else if key = utf8 "vad_silence_ms" then do
  let (value, s) ← readInteger size s
  if value < kMinVadSilenceMs ∨ kMaxVadSilenceMs < value then config "vad_silence_ms is out of range (100 to 3000)"
  else .ok ({ update with vadSilenceMs := some value }, s)
 else (skipValue size kMaxJsonDepth s).map fun s => (update, s)

def finish (size : ℕ) (update : ConfigUpdate) (s : Bytes) : Read ConfigUpdate :=
 if skipSpace s = [] then .ok update else wrong size "text after the object" (skipSpace s)

/-- The fields after the brace, with the keys seen before them; the fuel is more than the bytes left. -/
def readMembers (size : ℕ) : ℕ → List Bytes → ConfigUpdate → Bytes → Read ConfigUpdate
 | 0, _, _, s => wrong size "expected ',' or '\x7d'" s
 | fuel + 1, seen, update, s => do
  let (key, s) ← readString size (skipSpace s)
  if key ∈ seen then protocol "CONFIG has a field twice"
  else
   match consume 0x3A (skipSpace s) with
   | none => wrong size "expected ':'" (skipSpace s)
   | some s => do
    let (update, s) ← readField size key update (skipSpace s)
    let s := skipSpace s
    match consume 0x2C s, consume 0x7D s with
    | some s, _ => readMembers size fuel (key :: seen) update s
    | none, some s => finish size update s
    | none, none => wrong size "expected ',' or '\x7d'" s

def parseConfigFrame (json : Bytes) : Read ConfigUpdate :=
 match consume 0x7B (skipSpace json) with
 | none => protocol "CONFIG is not a JSON object"
 | some s =>
  let s := skipSpace s
  match consume 0x7D s with
  | some s => finish json.length {} s
  | none => readMembers json.length (json.length + 1) [] {} s

end MoltBrowser.ConfigFrames
