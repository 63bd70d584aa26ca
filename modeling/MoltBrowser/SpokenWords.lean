import MoltBrowser.JsonStrings
import MoltBrowser.SpokenText

set_option autoImplicit false

/-!
# The words of what is spoken (`spoken_text.cc`)

Any bytes cut into folded words, each with the bytes it came from, and a text made
clean enough to show.
-/
namespace MoltBrowser.SpokenText
open BoundedJson (appendUtf8)
open Voice (decodeAt)

def kReplacementCharacter : ℕ := 0xFFFD

def isAsciiAlnum (cp : ℕ) : Bool :=
 (0x30 ≤ cp && cp ≤ 0x39) || (0x61 ≤ cp && cp ≤ 0x7A) || (0x41 ≤ cp && cp ≤ 0x5A)

def isInvisibleFormat (cp : ℕ) : Bool :=
 cp == 0xAD || cp == 0x34F || cp == 0x61C || cp == 0x180E ||
  (0x200B ≤ cp && cp ≤ 0x200F) || (0x202A ≤ cp && cp ≤ 0x202E) ||
  (0x2060 ≤ cp && cp ≤ 0x206F) || (0xFE00 ≤ cp && cp ≤ 0xFE0F) ||
  cp == 0xFEFF || (0xE0000 ≤ cp && cp ≤ 0xE007F) || (0xE0100 ≤ cp && cp ≤ 0xE01EF)

def isNeverShown (cp : ℕ) : Bool :=
 cp == 0x115F || cp == 0x1160 || cp == 0x3164 || cp == 0xFFA0 ||
  (0xE000 ≤ cp && cp ≤ 0xF8FF) || 0xF0000 ≤ cp ||
  (0xFDD0 ≤ cp && cp ≤ 0xFDEF) || cp &&& 0xFFFE == 0xFFFE ||
  (0xFFF9 ≤ cp && cp ≤ 0xFFFD)

def isSpace (cp : ℕ) : Bool :=
 cp == 0x20 || (0x09 ≤ cp && cp ≤ 0x0D) || cp == 0x85 || cp == 0xA0 ||
  cp == 0x1680 || (0x2000 ≤ cp && cp ≤ 0x200A) || cp == 0x2028 ||
  cp == 0x2029 || cp == 0x202F || cp == 0x205F || cp == 0x3000

/-- `kIgnorable` is dropped and the word goes on, `kApostrophe` is dropped inside a word and ends
one elsewhere. -/
inductive CharClass where
 | kWord
 | kIgnorable
 | kApostrophe
 | kBreak
 deriving DecidableEq, Repr

def classify (cp : ℕ) : CharClass :=
 if cp < 0x80 then
  if isAsciiAlnum cp then .kWord else if cp = 0x27 then .kApostrophe else .kBreak
 else if isInvisibleFormat cp then .kIgnorable
 else if cp ≤ 0x9F then .kBreak
 else if cp < 0xC0 then
  if cp = 0xAA ∨ cp = 0xB5 ∨ cp = 0xBA then .kWord else .kBreak
 else if cp = 0xD7 ∨ cp = 0xF7 then .kBreak
 else if cp ≤ 0x2AF then .kWord
 else if cp = 0x2BC then .kApostrophe
 else if cp < 0x300 then .kBreak
 else if cp ≤ 0x36F then .kIgnorable
 else if cp = 0x37E ∨ cp = 0x387 then .kBreak
 else if 0x483 ≤ cp ∧ cp ≤ 0x489 then .kIgnorable
 else if cp = 0x589 ∨ cp = 0x5BE ∨ cp = 0x5C0 ∨ cp = 0x5C3 ∨ cp = 0x5F3 ∨ cp = 0x5F4 ∨ cp = 0x60C ∨
   cp = 0x60D ∨ cp = 0x61B ∨ cp = 0x61F ∨ cp = 0x66A ∨ cp = 0x66B ∨ cp = 0x66C ∨ cp = 0x6D4 ∨
   cp = 0x964 ∨ cp = 0x965 then .kBreak
 else if cp = 0x640 then .kIgnorable
 else if 0x2000 ≤ cp ∧ cp ≤ 0x206F then
  if cp = 0x2018 ∨ cp = 0x2019 then .kApostrophe else .kBreak
 else if 0x2070 ≤ cp ∧ cp ≤ 0x2BFF then .kBreak
 else if 0x2E00 ≤ cp ∧ cp ≤ 0x2E7F then .kBreak
 else if 0x3000 ≤ cp ∧ cp ≤ 0x303F then .kBreak
 else if 0xD800 ≤ cp ∧ cp ≤ 0xDFFF then .kBreak
 else if 0xE000 ≤ cp ∧ cp ≤ 0xF8FF then .kBreak
 else if 0xFE10 ≤ cp ∧ cp ≤ 0xFE6F then .kBreak
 else if 0xFF00 ≤ cp ∧ cp ≤ 0xFFEF then
  if cp = 0xFF07 then .kApostrophe
  else if (0xFF10 ≤ cp ∧ cp ≤ 0xFF19) ∨ (0xFF21 ≤ cp ∧ cp ≤ 0xFF3A) ∨ (0xFF41 ≤ cp ∧ cp ≤ 0xFF5A) ∨
    (0xFF66 ≤ cp ∧ cp ≤ 0xFFDC) then .kWord
  else .kBreak
 else if 0xFFF0 ≤ cp ∧ cp ≤ 0xFFFF then .kBreak
 else if 0x1F000 ≤ cp ∧ cp ≤ 0x1FAFF then .kBreak
 else if 0xF0000 ≤ cp then .kBreak
 else .kWord

/-- U+00C0 to U+00FF folded; nothing for the two symbols in the block. -/
def kLatin1Fold : List Bytes :=
 ["a", "a", "a", "a", "a", "a", "ae", "c", "e", "e", "e", "e", "i",
  "i", "i", "i", "d", "n", "o", "o", "o", "o", "o", "", "o", "u",
  "u", "u", "u", "y", "th", "ss", "a", "a", "a", "a", "a", "a", "ae",
  "c", "e", "e", "e", "e", "i", "i", "i", "i", "d", "n", "o", "o",
  "o", "o", "o", "", "o", "u", "u", "u", "u", "y", "th", "y"].map utf8

def kLatinExtendedAFold : Bytes :=
 ["aaaaaa", "cccccccc", "dddd", "eeeeeeeeee", "gggggggg", "hhhh", "iiiiiiiiii", "11", "jj", "kkk",
  "llllllllll", "nnnnnnnnn", "oooooo", "22", "rrrrrr", "ssssssss", "tttttt", "uuuuuuuuuuuu", "ww",
  "yyy", "zzzzzz", "s"].flatMap utf8

def kPinyinFold : Bytes := utf8 "aaiioouuuuuuuu"

def fold (cp : ℕ) : Bytes :=
 if cp < 0x80 then [UInt8.ofNat (if 0x41 ≤ cp ∧ cp ≤ 0x5A then cp - 0x41 + 0x61 else cp)]
 else if cp = 0xAA then utf8 "a"
 else if cp = 0xB5 then utf8 "u"
 else if cp = 0xBA then utf8 "o"
 else if 0xC0 ≤ cp ∧ cp ≤ 0xFF then kLatin1Fold.getD (cp - 0xC0) []
 else if 0x100 ≤ cp ∧ cp ≤ 0x17F then
  let c := kLatinExtendedAFold.getD (cp - 0x100) 0
  if c = 0x31 then utf8 "ij" else if c = 0x32 then utf8 "oe" else [c]
 else if 0x1CD ≤ cp ∧ cp < 0x1CD + kPinyinFold.length then [kPinyinFold.getD (cp - 0x1CD) 0]
 else if cp = 0x218 ∨ cp = 0x219 then utf8 "s"
 else if cp = 0x21A ∨ cp = 0x21B then utf8 "t"
 else if 0x391 ≤ cp ∧ cp ≤ 0x3A9 ∧ cp ≠ 0x3A2 then appendUtf8 (cp + 0x20)
 else if cp = 0x3C2 then appendUtf8 0x3C3
 else if 0x410 ≤ cp ∧ cp ≤ 0x42F then appendUtf8 (cp + 0x20)
 else if 0x400 ≤ cp ∧ cp ≤ 0x40F then appendUtf8 (cp + 0x50)
 else if 0xFF10 ≤ cp ∧ cp ≤ 0xFF19 then [UInt8.ofNat (0x30 + cp - 0xFF10)]
 else if 0xFF21 ≤ cp ∧ cp ≤ 0xFF3A then [UInt8.ofNat (0x61 + cp - 0xFF21)]
 else if 0xFF41 ≤ cp ∧ cp ≤ 0xFF5A then [UInt8.ofNat (0x61 + cp - 0xFF41)]
 else appendUtf8 cp

def isJoiner (c : UInt8) : Bool := (utf8 "./-_:@").contains c
def isAsciiPunct (c : UInt8) : Bool := 0x21 ≤ c && c ≤ 0x7E && !isAsciiAlnum c.toNat
def isAsciiDigit (c : UInt8) : Bool := 0x30 ≤ c && c ≤ 0x39

/-! ## Reading words -/

/-- `text` is the folded word, `sourceBegin` to `sourceEnd` the bytes it came from; `joiner` is all
that parts it from the word before, `trailing` the punctuation right after it. -/
structure SpokenWord where
 text : Bytes := []
 sourceBegin : ℕ := 0
 sourceEnd : ℕ := 0
 joiner : UInt8 := 0
 trailing : UInt8 := 0
 numeric : Bool := false
 ascii : Bool := false
 deriving DecidableEq, Repr

structure NormalizedText where
 words : List SpokenWord := []
 hadInvalidUtf8 : Bool := false
 truncated : Bool := false
 deriving DecidableEq, Repr

structure NormalizeOptions where
 marks : Bool := false
 maxWords : ℕ := 512

structure Reading extends NormalizedText where
 word : Option SpokenWord := none

/-- The one byte between two words, when it joins them. -/
def joinerOf (text : Bytes) (previous : Option SpokenWord) (word : SpokenWord) : UInt8 :=
 match previous with
 | none => 0
 | some previous =>
  if word.sourceBegin = previous.sourceEnd + 1 ∧ isJoiner (text.getD previous.sourceEnd 0) then
   text.getD previous.sourceEnd 0
  else 0

def trailingOf (text : Bytes) (word : SpokenWord) : UInt8 :=
 if word.sourceEnd < text.length ∧ isAsciiPunct (text.getD word.sourceEnd 0) then text.getD word.sourceEnd 0 else 0

def Reading.finishWord (text : Bytes) (r : Reading) : Reading :=
 match r.word with
 | none => r
 | some word =>
  if word.text = [] then { r with word := none }
  else
   { r with
     word := none
     words := r.words ++
      [{ word with
          joiner := joinerOf text r.words.getLast? word
          trailing := trailingOf text word
          numeric := word.text.all isAsciiDigit
          ascii := word.text.all fun c => isAsciiAlnum c.toNat }] }

def Reading.addMadeUpWord (options : NormalizeOptions) (r : Reading) (madeUp : Bytes) (first last : ℕ) : Reading :=
 if options.maxWords ≤ r.words.length then { r with truncated := true }
 else { r with words := r.words ++ [{ text := madeUp, sourceBegin := first, sourceEnd := last, ascii := true }] }

/-- The word that a mark at `i` stands for. -/
def Reading.readMark (text : Bytes) (options : NormalizeOptions) (i cp : ℕ) (r : Reading) : Reading :=
 if options.marks then
  if cp = 0x25 ∧ r.words.getLast?.any (·.numeric) then r.addMadeUpWord options (utf8 "percent") i (i + 1)
  else if cp = 0x23 ∧ i + 1 < text.length ∧ isAsciiDigit (text.getD (i + 1) 0) then
   r.addMadeUpWord options (utf8 "number") i (i + 1)
  else r
 else r

/-- More of a word, up to `last` in the source; the word begins at `first` if none is being read. -/
def Reading.grow (r : Reading) (folded : Bytes) (first last : ℕ) : Reading :=
 let word := r.word.getD { sourceBegin := first }
 { r with word := some { word with text := word.text ++ folded, sourceEnd := last } }

def wordGoesOn (rest : Bytes) : Bool := (decodeAt rest).1 != 0 && classify (decodeAt rest).2 == .kWord

/-- A comma at `i` with a digit before it and exactly three after it. -/
def isDigitGroup (text : Bytes) (i : ℕ) : Bool :=
 0 < i && isAsciiDigit (text.getD (i - 1) 0) && 3 < text.length - i &&
  isAsciiDigit (text.getD (i + 1) 0) && isAsciiDigit (text.getD (i + 2) 0) && isAsciiDigit (text.getD (i + 3) 0) &&
  (text.length - i == 4 || !isAsciiDigit (text.getD (i + 4) 0))

/-- One turn of the loop at the bytes not read yet: how many it takes, and what it makes of them. -/
def Reading.turn (text : Bytes) (options : NormalizeOptions) (r : Reading) (rest : Bytes) : ℕ × Reading :=
 let i := text.length - rest.length
 let c := rest.headD 0
 if r.word.isSome ∧ ((0x61 ≤ c ∧ c ≤ 0x7A) ∨ (0x30 ≤ c ∧ c ≤ 0x39)) then (1, r.grow [c] i (i + 1))
 else if r.word.isSome ∧ 0x41 ≤ c ∧ c ≤ 0x5A then (1, r.grow [c - 0x41 + 0x61] i (i + 1))
 else
  let (length, cp) := decodeAt rest
  if length = 0 then (1, { r with hadInvalidUtf8 := true }.finishWord text)
  else if classify cp = .kWord then
   if r.word.isNone ∧ options.maxWords ≤ r.words.length then (1, { r with truncated := true })
   else (length, r.grow (fold cp) i (i + length))
  else if classify cp = .kIgnorable then (length, r)
  else if classify cp = .kApostrophe ∧ r.word.isSome ∧ wordGoesOn (rest.drop length) then (length, r)
  else if cp = 0x2C ∧ r.word.isSome ∧ isDigitGroup text i then (1, r)
  else (length, (r.finishWord text).readMark text options i cp)

def readFrom (text : Bytes) (options : NormalizeOptions) (r : Reading) : Bytes → Reading
 | [] => r
 | c :: rest =>
  if r.truncated then r
  else readFrom text options (r.turn text options (c :: rest)).2 (rest.drop ((r.turn text options (c :: rest)).1 - 1))
termination_by rest => rest.length
decreasing_by simp only [List.length_drop, List.length_cons]; omega

def numberSigns : List SpokenWord → List SpokenWord
 | word :: next :: rest =>
  (if word.text = utf8 "no" ∧ word.trailing = 0x2E ∧ next.numeric then { word with text := utf8 "number" } else word) ::
   numberSigns (next :: rest)
 | words => words

def normalizeSpokenText (text : Bytes) (options : NormalizeOptions) : NormalizedText :=
 let text := text.take (2 ^ 30)
 let r := (readFrom text options {} text).finishWord text
 { r.toNormalizedText with words := if options.marks then numberSigns r.words else r.words }

def NormalizedText.texts (text : NormalizedText) : List Bytes := text.words.map (·.text)

def foldForComparison (text : Bytes) : Bytes := [0x20].intercalate (normalizeSpokenText text {}).texts

/-! ## Cleaning -/

def isDropped (cp : ℕ) : Bool :=
 cp < 0x20 || cp == 0x7F || (0x80 ≤ cp && cp ≤ 0x9F) || isInvisibleFormat cp || isNeverShown cp

def cleanFrom (maxBytes : ℕ) (out : Bytes) (pendingSpace : Bool) : Bytes → Bytes
 | [] => out
 | c :: rest =>
  let (length, cp) := decodeAt (c :: rest)
  let (length, cp) := if length = 0 then (1, kReplacementCharacter) else (length, cp)
  if isSpace cp then cleanFrom maxBytes out (!out.isEmpty) (rest.drop (length - 1))
  else if isDropped cp then cleanFrom maxBytes out pendingSpace (rest.drop (length - 1))
  else
   let encoded := (if pendingSpace then [0x20] else []) ++ appendUtf8 cp
   if maxBytes < out.length + encoded.length then out
   else cleanFrom maxBytes (out ++ encoded) false (rest.drop (length - 1))
termination_by rest => rest.length
decreasing_by all_goals simp only [List.length_drop, List.length_cons]; omega

def cleanSpokenText (text : Bytes) (maxBytes : ℕ) : Bytes := cleanFrom maxBytes [] false text

end MoltBrowser.SpokenText
