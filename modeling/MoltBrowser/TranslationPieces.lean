import MoltBrowser.WebAIConversation

set_option autoImplicit false

/-!
# Cutting text for the translator (`web_ai_translation.cc`)

A range of the text is the list of its bytes, so a scan to the end of a range
runs over a list and what it leaves is the rest of the range.
-/
namespace MoltBrowser.TranslationPieces
open List

open WebAIConversation

def kTranslatorPieceTokens : UInt32 := 384
def kTranslatorMaxBatchTexts : ℕ := 16

structure TranslationPiece where
 text : Bytes
 translate : Bool := false
 deriving DecidableEq, Repr

def isAsciiAlpha (c : UInt8) : Bool := (97 ≤ c && c ≤ 122) || (65 ≤ c && c ≤ 90)

def isAsciiWhitespace (c : UInt8) : Bool :=
 c = 32 || c = 9 || c = 10 || c = 13 || c = 12 || c = 11

def isUtf8Continuation (c : UInt8) : Bool := c &&& 0xC0 = 0x80

def thirds (text : Bytes) : ℕ := (text.map thirdsOfByte).sum

def kWideTerminators : List Bytes :=
 [[0xE3, 0x80, 0x82], [0xEF, 0xBC, 0x81], [0xEF, 0xBC, 0x9F], [0xD8, 0x9F], [0xDB, 0x94],
  [0xE0, 0xA5, 0xA4]]

/-- The length of the terminator at the head of `text`, or 0. -/
def terminatorAt : Bytes → ℕ
 | [] => 0
 | c :: rest =>
  if c = 46 || c = 33 || c = 63 then
   match rest with
   | [] => 1
   | next :: _ => if isAsciiWhitespace next then 1 else 0
  else match kWideTerminators.find? (fun t => t.isPrefixOf (c :: rest)) with
   | some t => t.length
   | none => 0

inductive Level where
 | lines
 | sentences
 | words
 | characters
 deriving DecidableEq, Repr

/-- Up to the first sentence end and the whitespace after it, and what is left. -/
def sentenceUnit : Bytes → Bytes × Bytes
 | [] => ([], [])
 | c :: rest =>
  let t := terminatorAt (c :: rest)
  if t = 0 then
   let (unit, left) := sentenceUnit rest
   (c :: unit, left)
  else
   let after := (c :: rest).drop t
   ((c :: rest).take t ++ after.takeWhile isAsciiWhitespace, after.dropWhile isAsciiWhitespace)

/-- The first unit of a range, and the rest of the range (`UnitEnd`). -/
def firstUnit (text : Bytes) : Level → Bytes × Bytes
 | .lines =>
  let line := text.takeWhile (· ≠ 10)
  (line ++ (text.drop line.length).take 1, (text.drop line.length).drop 1)
 | .sentences => sentenceUnit text
 | .words =>
  let lead := text.takeWhile isAsciiWhitespace
  let word := (text.drop lead.length).takeWhile (!isAsciiWhitespace ·)
  let after := text.drop (lead.length + word.length)
  (lead ++ word ++ after.takeWhile isAsciiWhitespace, after.dropWhile isAsciiWhitespace)
 | .characters =>
  match text with
  | [] => ([], [])
  | c :: rest => (c :: rest.takeWhile isUtf8Continuation, rest.dropWhile isUtf8Continuation)

/-- The units of a range, at most `n` of them: its length is enough, a unit is not empty. -/
def units (level : Level) : ℕ → Bytes → List Bytes
 | 0, _ => []
 | n + 1, text =>
  if text.isEmpty then []
  else
   let (unit, rest) := firstUnit text level
   unit :: units level n rest

/-- The packer: the finished cuts, and the bytes and thirds of the open one. -/
structure Packer where
 cuts : List Bytes := []
 current : Bytes := []
 thirds : ℕ := 0

namespace Packer

def close (p : Packer) : Packer :=
 { cuts := if p.current.isEmpty then p.cuts else p.cuts ++ [p.current] }

def append (p : Packer) (maxThirds : ℕ) (range : Bytes) : Packer :=
 let t := TranslationPieces.thirds range
 let p := if !p.current.isEmpty && p.thirds + t > maxThirds then p.close else p
 { p with current := p.current ++ range, thirds := p.thirds + t }

/-- `AddRange` with the boundaries to split at, coarsest first. Past the last of them a
unit is a character, which is taken as it is. -/
def addRange (maxThirds : ℕ) : List Level → Packer → Bytes → Packer
 | [], p, range => p.append maxThirds range
 | level :: finer, p, range =>
  if TranslationPieces.thirds range ≤ maxThirds then p.append maxThirds range
  else (units level range.length range).foldl (addRange maxThirds finer) p.close

def finish (p : Packer) : List Bytes := p.close.cuts

end Packer

def hasLetters (text : Bytes) : Bool := text.any fun c => isAsciiAlpha c || 0x80 ≤ c

def addPiece (pieces : List TranslationPiece) (text : Bytes) (translate : Bool) :
  List TranslationPiece :=
 if text.isEmpty then pieces
 else match pieces.getLast? with
  | some last =>
   if !translate && !last.translate then
    pieces.dropLast ++ [{ last with text := last.text ++ text }]
   else pieces ++ [⟨text, translate⟩]
  | none => [⟨text, translate⟩]

def trimEnd (text : Bytes) : Bytes := (text.reverse.dropWhile isAsciiWhitespace).reverse

def trimAsciiWhitespace (text : Bytes) : Bytes := trimEnd (text.dropWhile isAsciiWhitespace)

/-- A cut's leading whitespace, its core and its trailing whitespace. -/
def addCut (pieces : List TranslationPiece) (cut : Bytes) : List TranslationPiece :=
 let core := trimAsciiWhitespace cut
 let lead := if core.isEmpty then cut.length else (cut.takeWhile isAsciiWhitespace).length
 let pieces := addPiece pieces (cut.take lead) false
 let pieces := addPiece pieces core (hasLetters core)
 addPiece pieces (cut.drop (lead + core.length)) false

def splitForTranslation (text : Bytes) (maxTokens : UInt32) : List TranslationPiece :=
 let maxThirds := 3 * (max maxTokens 2).toNat
 let packer := Packer.addRange maxThirds [.lines, .sentences, .words, .characters] {} text
 packer.finish.foldl addCut []

structure QuotePair where
 opening : Bytes
 closing : Bytes
 deriving DecidableEq

def kQuotePairs : List QuotePair :=
 [⟨[34], [34]⟩, ⟨[39], [39]⟩,
  ⟨[0xE2, 0x80, 0x9C], [0xE2, 0x80, 0x9D]⟩, ⟨[0xE2, 0x80, 0x98], [0xE2, 0x80, 0x99]⟩,
  ⟨[0xE2, 0x80, 0x9E], [0xE2, 0x80, 0x9C]⟩, ⟨[0xC2, 0xAB], [0xC2, 0xBB]⟩,
  ⟨[0xE2, 0x80, 0xB9], [0xE2, 0x80, 0xBA]⟩, ⟨[0xE3, 0x80, 0x8C], [0xE3, 0x80, 0x8D]⟩,
  ⟨[0xE3, 0x80, 0x8E], [0xE3, 0x80, 0x8F]⟩]

def startsWithQuote (text : Bytes) : Bool :=
 kQuotePairs.any fun q => q.opening.isPrefixOf text || q.closing.isPrefixOf text

def endsWithQuote (text : Bytes) : Bool :=
 kQuotePairs.any fun q => q.opening.isSuffixOf text || q.closing.isSuffixOf text

def contains (text mark : Bytes) : Bool := text.tails.any mark.isPrefixOf

/-- Without one pair of quotation marks around all of the text. -/
def unquote (text : Bytes) : Bytes :=
 let inner (q : QuotePair) : Bytes :=
  (text.drop q.opening.length).take (text.length - q.opening.length - q.closing.length)
 match kQuotePairs.find? fun q =>
  q.opening.length + q.closing.length ≤ text.length && q.opening.isPrefixOf text &&
   q.closing.isSuffixOf text && !contains (inner q) q.opening && !contains (inner q) q.closing
 with
 | some q => inner q
 | none => text

def cleanTranslation (source translation : Bytes) : Option Bytes :=
 let text := trimAsciiWhitespace translation
 let piece := trimAsciiWhitespace source
 let text :=
  if startsWithQuote piece && endsWithQuote piece then text
  else trimAsciiWhitespace (unquote text)
 if text.isEmpty then none else some text

def hexDigit (n : UInt8) : UInt8 := if n < 10 then 48 + n else 87 + n

/-- One byte of a JSON string literal (`JsonQuote`). -/
def jsonQuoteByte (c : UInt8) : Bytes :=
 if c = 34 then [92, 34]
 else if c = 92 then [92, 92]
 else if c = 8 then [92, 98]
 else if c = 12 then [92, 102]
 else if c = 10 then [92, 110]
 else if c = 13 then [92, 114]
 else if c = 9 then [92, 116]
 else if c < 0x20 then [92, 117, 48, 48, hexDigit (c >>> 4), hexDigit (c &&& 0xF)]
 else [c]

def jsonQuote (s : Bytes) : Bytes := 34 :: s.flatMap jsonQuoteByte ++ [34]

def translatorBatchTextTokens (text : Bytes) : UInt32 :=
 addTokens (estimateTokens (jsonQuote text)) 1

/-! Cutting loses nothing. -/

@[simp] theorem sentenceUnit_append (text : Bytes) :
  (sentenceUnit text).1 ++ (sentenceUnit text).2 = text := by
 induction text with
 | nil => rfl
 | cons c rest ih =>
  rw [sentenceUnit]
  dsimp only
  split
  · simp [ih]
  · rw [append_assoc, takeWhile_append_dropWhile, take_append_drop]

theorem drop_takeWhile_length (p : UInt8 → Bool) (text : Bytes) :
  text.takeWhile p ++ text.drop (text.takeWhile p).length = text := by
 induction text with
 | nil => rfl
 | cons c rest ih => by_cases hc : p c <;> simp [hc, ih]

theorem firstUnit_append (text : Bytes) (level : Level) :
  (firstUnit text level).1 ++ (firstUnit text level).2 = text := by
 cases level with
 | lines =>
  simp only [firstUnit, append_assoc, take_append_drop]
  exact drop_takeWhile_length _ text
 | sentences => exact sentenceUnit_append text
 | words =>
  simp only [firstUnit, append_assoc, takeWhile_append_dropWhile]
  rw [← drop_drop, drop_takeWhile_length, drop_takeWhile_length]
 | characters =>
  cases text with
  | nil => rfl
  | cons c rest => simp [firstUnit]

theorem sentenceUnit_ne_nil (c : UInt8) (rest : Bytes) : (sentenceUnit (c :: rest)).1 ≠ [] := by
 rw [sentenceUnit]
 dsimp only
 split
 · simp
 · next ht =>
   obtain ⟨n, hn⟩ := Nat.exists_eq_succ_of_ne_zero ht
   rw [hn]
   simp

theorem firstUnit_ne_nil (c : UInt8) (rest : Bytes) (level : Level) :
  (firstUnit (c :: rest) level).1 ≠ [] := by
 cases level with
 | lines =>
  simp only [firstUnit]
  by_cases hc : c = 10 <;> simp [hc]
 | sentences => exact sentenceUnit_ne_nil c rest
 | words =>
  simp only [firstUnit]
  by_cases hc : isAsciiWhitespace c <;> simp [hc]
 | characters => simp [firstUnit]

theorem units_flatten (level : Level) (n : ℕ) (text : Bytes) (h : text.length ≤ n) :
  (units level n text).flatten = text := by
 induction n generalizing text with
 | zero =>
  have hnil : text = [] := eq_nil_of_length_eq_zero (by omega)
  rw [hnil]
  rfl
 | succ n ih =>
  rw [units]
  cases text with
  | nil => rfl
  | cons c rest =>
   have happend := firstUnit_append (c :: rest) level
   have hpos := length_pos_of_ne_nil (firstUnit_ne_nil c rest level)
   have hlen : (firstUnit (c :: rest) level).1.length +
     (firstUnit (c :: rest) level).2.length = (c :: rest).length := by
    rw [← length_append, happend]
   simp only [isEmpty_cons, Bool.false_eq_true, if_false, flatten_cons]
   rw [ih _ (by omega), happend]

namespace Packer

def packed (p : Packer) : Bytes := p.cuts.flatten ++ p.current

@[simp] theorem packed_close (p : Packer) : p.close.packed = p.packed := by
 unfold close packed
 cases p.current <;> simp

@[simp] theorem packed_append (p : Packer) (maxThirds : ℕ) (range : Bytes) :
  (p.append maxThirds range).packed = p.packed ++ range := by
 have hclose := p.packed_close
 unfold append packed
 dsimp only
 split
 · unfold packed at hclose
   rw [← append_assoc, hclose]
 · rw [append_assoc]

theorem packed_addRange (maxThirds : ℕ) (levels : List Level) (p : Packer) (range : Bytes) :
  (addRange maxThirds levels p range).packed = p.packed ++ range := by
 induction levels generalizing p range with
 | nil => exact p.packed_append maxThirds range
 | cons level finer ih =>
  have hfold (ranges : List Bytes) (p : Packer) :
    (ranges.foldl (addRange maxThirds finer) p).packed = p.packed ++ ranges.flatten := by
   induction ranges generalizing p with
   | nil => simp
   | cons r ranges ihr => rw [foldl_cons, ihr, ih, flatten_cons, append_assoc]
  rw [addRange]
  split
  · exact p.packed_append maxThirds range
  · rw [hfold, packed_close, units_flatten level _ range le_rfl]

theorem finish_flatten (p : Packer) : p.finish.flatten = p.packed := by
 unfold finish close packed
 cases p.current <;> simp

end Packer

def joined (pieces : List TranslationPiece) : Bytes := (pieces.map (·.text)).flatten

theorem joined_addPiece (pieces : List TranslationPiece) (text : Bytes) (translate : Bool) :
  joined (addPiece pieces text translate) = joined pieces ++ text := by
 unfold addPiece
 split
 · next h => simp [List.isEmpty_iff.1 h]
 · split
   · next last hlast =>
     split
     · obtain ⟨init, rfl⟩ : ∃ init, pieces = init ++ [last] :=
        ⟨pieces.dropLast, (dropLast_append_getLast? last hlast).symm⟩
       simp [joined]
     · simp [joined]
   · next hnone =>
     rw [getLast?_eq_none_iff.1 hnone]
     simp [joined]

theorem trimEnd_append (text : Bytes) :
  ∃ trailing, trimEnd text ++ trailing = text := by
 refine ⟨(text.reverse.takeWhile isAsciiWhitespace).reverse, ?_⟩
 rw [trimEnd, ← reverse_append, takeWhile_append_dropWhile, reverse_reverse]

theorem joined_addCut (pieces : List TranslationPiece) (cut : Bytes) :
  joined (addCut pieces cut) = joined pieces ++ cut := by
 unfold addCut
 dsimp only
 rw [joined_addPiece, joined_addPiece, joined_addPiece]
 obtain ⟨trailing, htrail⟩ := trimEnd_append (cut.dropWhile isAsciiWhitespace)
 have hcut : cut.takeWhile isAsciiWhitespace ++ (trimAsciiWhitespace cut ++ trailing) = cut := by
  rw [trimAsciiWhitespace, htrail, takeWhile_append_dropWhile]
 split
 · next h => simp [List.isEmpty_iff.1 h]
 · generalize trimAsciiWhitespace cut = core at hcut
   generalize cut.takeWhile isAsciiWhitespace = lead at hcut
   subst hcut
   simp [← append_assoc, take_append]

theorem joined_splitForTranslation (text : Bytes) (maxTokens : UInt32) :
  joined (splitForTranslation text maxTokens) = text := by
 have hfold (cuts : List Bytes) (pieces : List TranslationPiece) :
   joined (cuts.foldl addCut pieces) = joined pieces ++ cuts.flatten := by
  induction cuts generalizing pieces with
  | nil => simp
  | cons cut cuts ih => rw [foldl_cons, ih, joined_addCut, flatten_cons, append_assoc]
 unfold splitForTranslation
 dsimp only
 rw [hfold, Packer.finish_flatten, Packer.packed_addRange]
 rfl

end MoltBrowser.TranslationPieces
