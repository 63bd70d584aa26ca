import MoltBrowser.PageMapText
import MoltBrowser.SpeechEvents
import MoltBrowser.SpokenWords

set_option autoImplicit false

/-!
# What the browser tells the speech helper to listen for (`voice_listener_protocol.cc`)

Any text reduced to a phrase the recognizer can spell, and the CONFIG frame that holds the phrases.
-/
namespace MoltBrowser.SpeechPhrases
open SpeechEvents (rfind toText)
open SpokenText (SpokenWord normalizeSpokenText)
open Voice (kMaxSpeechScanBytes)

def kMaxWakePhrases : ℕ := 4
def kMaxHotwords : ℕ := 64
def kMaxPhraseBytes : ℕ := 64
def kMaxPhraseWords : ℕ := 6
def kMinVadSilenceMs : ℤ := 200
def kMaxVadSilenceMs : ℤ := 3000

structure HelperConfig where
 wakePhrases : List Bytes := []
 wakeRequired : Bool := true
 hotwords : List Bytes := []
 vadSilenceMs : ℤ := 500

/-! ## Numbers as words -/

def kOnes : List Bytes :=
 ["zero", "one", "two", "three", "four", "five", "six", "seven", "eight", "nine", "ten", "eleven", "twelve",
  "thirteen", "fourteen", "fifteen", "sixteen", "seventeen", "eighteen", "nineteen"].map utf8

def kTens : List Bytes :=
 ["", "", "twenty", "thirty", "forty", "fifty", "sixty", "seventy", "eighty", "ninety"].map utf8

def appendWord (word out : Bytes) : Bytes := (if out = [] then [] else out ++ [0x20]) ++ word

/-- For `n` below 1000. -/
def appendBelowThousand (n : ℕ) (out : Bytes) : Bytes :=
 let hundreds := appendWord (utf8 "hundred") (appendWord (kOnes.getD (n / 100) []) out)
 if 100 ≤ n ∧ n % 100 = 0 then hundreds
 else
  let out := if 100 ≤ n then hundreds else out
  let n := n % 100
  if n < 20 then appendWord (kOnes.getD n []) out
  else
   let out := appendWord (kTens.getD (n / 10) []) out
   if n % 10 ≠ 0 then appendWord (kOnes.getD (n % 10) []) out else out

/-- For `n` below 1000000000. -/
def cardinalWords (n : ℕ) : Bytes :=
 if n = 0 then kOnes.getD 0 []
 else
  let out := if 1000000 ≤ n then appendWord (utf8 "million") (appendBelowThousand (n / 1000000) []) else []
  let n := if 1000000 ≤ n then n % 1000000 else n
  let out := if 1000 ≤ n then appendWord (utf8 "thousand") (appendBelowThousand (n / 1000) out) else out
  let n := if 1000 ≤ n then n % 1000 else n
  if 0 < n then appendBelowThousand n out else out

def kIrregular : List (Bytes × Bytes) :=
 [("one", "first"), ("two", "second"), ("three", "third"), ("five", "fifth"), ("eight", "eighth"),
  ("nine", "ninth")].map fun p => (utf8 p.1, utf8 p.2)

def makeOrdinal (words : Bytes) : Bytes :=
 let start := match rfind 0x20 words with
  | none => 0
  | some space => space + 1
 let last := words.drop start
 let ordinal :=
  match kIrregular.find? fun p => p.1 == last with
  | some irregular => irregular.2
  | none =>
   if last = utf8 "twelve" then utf8 "twelfth"
   else if last.getLast? = some 0x79 then last.dropLast ++ utf8 "ieth"
   else last ++ utf8 "th"
 words.take start ++ ordinal

def isAsciiDigit (c : UInt8) : Bool := 0x30 ≤ c && c ≤ 0x39
def isAsciiLetter (c : UInt8) : Bool := (0x61 ≤ c && c ≤ 0x7A) || (0x41 ≤ c && c ≤ 0x5A)

def numberAsWords (digits : Bytes) : Bytes :=
 if digits = [] ∨ 9 < digits.length ∨ ¬ digits.all isAsciiDigit then []
 else
  let n := digits.foldl (fun n c => n * 10 + (c.toNat - 0x30)) 0
  if digits.length = 4 ∧ 1100 ≤ n ∧ n ≤ 2099 ∧ ¬ (2000 ≤ n ∧ n ≤ 2009) then
   let words := cardinalWords (n / 100)
   let low := n % 100
   if low = 0 then appendWord (utf8 "hundred") words
   else if low < 10 then appendWord (kOnes.getD low []) (appendWord (utf8 "oh") words)
   else appendWord (cardinalWords low) words
  else cardinalWords n

def ordinalAsWords (word : Bytes) : Bytes :=
 if word.length < 3 then []
 else
  let suffix := word.drop (word.length - 2)
  if suffix ≠ utf8 "st" ∧ suffix ≠ utf8 "nd" ∧ suffix ≠ utf8 "rd" ∧ suffix ≠ utf8 "th" then []
  else
   let cardinal := numberAsWords (word.take (word.length - 2))
   if cardinal = [] then [] else makeOrdinal cardinal

/-! ## Phrases -/

/-- Letters, digits and apostrophes, U+2019 as one of them. -/
def plainApostrophes : Bytes → Option Bytes
 | [] => some []
 | 0xE2 :: 0x80 :: 0x99 :: rest => (plainApostrophes rest).map (0x27 :: ·)
 | c :: rest =>
  if isAsciiLetter c || isAsciiDigit c || c == 0x27 then (plainApostrophes rest).map (c :: ·) else none

def asciiWordWithApostrophes (source : Bytes) : Option Bytes := do
 let out ← plainApostrophes source
 let out := (out.dropWhile (· == 0x27)).rdropWhile (· == 0x27)
 if [0x27, 0x27] <:+: out then none else some out

def isPhraseByte (c : UInt8) : Bool := isAsciiLetter c || isAsciiDigit c || c == 0x27

def isPhraseWord (word : Bytes) : Bool := !word.isEmpty && word.all isPhraseByte

structure Phrase where
 phrase : Bytes := []
 count : ℕ := 0

/-- The words one by one while the phrase stays within the caps; false once it is full. -/
def appendPhraseWords : List Bytes → Phrase → Bool × Phrase
 | [], p => (true, p)
 | word :: rest, p =>
  if word = [] then appendPhraseWords rest p
  else
   let added := word.length + if p.phrase = [] then 0 else 1
   if kMaxPhraseWords ≤ p.count ∨ kMaxPhraseBytes < p.phrase.length + added then (false, p)
   else appendPhraseWords rest ⟨appendWord word p.phrase, p.count + 1⟩

/-- One word of the text as it is spelled; empty where it can't be. -/
def reducedWord (source : Bytes) (word : SpokenWord) : Bytes :=
 let reduced :=
  if word.numeric then numberAsWords word.text
  else if ordinalAsWords word.text ≠ [] then ordinalAsWords word.text
  else
   (asciiWordWithApostrophes ((source.drop word.sourceBegin).take (word.sourceEnd - word.sourceBegin))).getD word.text
 if !isPhraseWord reduced && !reduced.isEmpty then
  ((reduced.splitOn 0x20).filter isPhraseWord).foldl (fun kept part => appendWord part kept) []
 else reduced

def reduceWords (source : Bytes) : List SpokenWord → Phrase → Phrase
 | [], p => p
 | word :: rest, p =>
  let reduced := reducedWord source word
  if reduced = [] then reduceWords source rest p
  else
   match appendPhraseWords (reduced.splitOn 0x20) p with
   | (true, p) => reduceWords source rest p
   | (false, p) => p

def reduceSpeechPhrase (text : Bytes) : Bytes :=
 let source := text.take kMaxSpeechScanBytes
 (reduceWords source (normalizeSpokenText source { maxWords := kMaxPhraseWords * 2 }).words {}).phrase

/-! ## The frame -/

def kHex (n : UInt8) : UInt8 := if n < 10 then 0x30 + n else 0x61 + (n - 10)

def jsonByte (c : UInt8) : Bytes :=
 if c = 0x22 ∨ c = 0x5C then [0x5C, c]
 else if c < 0x20 then utf8 "\\u00" ++ [kHex (c >>> 4), kHex (c &&& 0xF)]
 else [c]

def appendJsonString (text out : Bytes) : Bytes := out ++ [0x22] ++ text.flatMap jsonByte ++ [0x22]

def appendItems (max : ℕ) : List Bytes → ℕ → Bytes → Bytes
 | [], _, out => out
 | value :: rest, written, out =>
  if written = max then out
  else
   let reduced := reduceSpeechPhrase value
   if reduced = [] then appendItems max rest written out
   else
    let out := if 0 < written then out ++ [0x2C] else out
    appendItems max rest (written + 1) (appendJsonString reduced out)

def appendJsonStrings (values : List Bytes) (max : ℕ) (out : Bytes) : Bytes :=
 appendItems max values 0 (out ++ [0x5B]) ++ [0x5D]

def clampedVad (vadSilenceMs : ℤ) : ℤ := max kMinVadSilenceMs (min vadSilenceMs kMaxVadSilenceMs)

def encodeConfigJson (config : HelperConfig) : Bytes :=
 let json := appendJsonStrings config.wakePhrases kMaxWakePhrases (utf8 "\x7b\"wake_phrases\":")
 let json := json ++ utf8 ",\"wake_required\":"
 let json := json ++ if config.wakeRequired then utf8 "true" else utf8 "false"
 let json := appendJsonStrings config.hotwords kMaxHotwords (json ++ utf8 ",\"hotwords\":")
 json ++ utf8 ",\"vad_silence_ms\":" ++ toText (clampedVad config.vadSilenceMs) ++ utf8 "\x7d"

end MoltBrowser.SpeechPhrases
