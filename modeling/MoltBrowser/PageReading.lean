import MoltBrowser.PageMapText
import MoltBrowser.SpeechEvents

set_option autoImplicit false

/-!
# Reading a page aloud

How long a text takes to say, where its sentences start, and the chunk of speech that is read
from a place on.
-/
namespace MoltBrowser.Voice
open StreamFilters SelfSynchronizing SpeechEvents

def kMaxReadingBlockChars : ℕ := 4000
def kMaxReadingSentenceChars : ℕ := 300
def kReadingAhead : ℕ := 1
def kMinChunkChars : ℕ := 80
def kMaxChunkChars : ℕ := 300

/-! ## How long a text takes to say -/

def lowerAscii (c : UInt8) : UInt8 := if 0x41 ≤ c ∧ c ≤ 0x5A then c - 0x41 + 0x61 else c

def isAsciiLetter (c : UInt8) : Bool := (0x61 ≤ c && c ≤ 0x7A) || (0x41 ≤ c && c ≤ 0x5A)

def isAsciiDigit (c : UInt8) : Bool := 0x30 ≤ c && c ≤ 0x39

def kDigitWeight : ℕ := 11
def kSpelledWeight : ℕ := 4
def kSpelledWWeight : ℕ := 11
def kSymbolWeight : ℕ := 8
def kPictureWeight : ℕ := 15
def kSyllableWeight : ℕ := 4

def nonAsciiWeight (cp : ℕ) : ℕ :=
 if cp < 0x2000 then 2
 else if cp < 0x2070 ∨ (0x2E00 ≤ cp ∧ cp < 0x2E80) ∨ (0xE000 ≤ cp ∧ cp < 0xF900) then 1
 else if cp < 0x2C00 then kPictureWeight
 else if cp < 0x2E80 ∨ (0xA4D0 ≤ cp ∧ cp < 0xAC00) then 2
 else if cp < 0xD800 ∨ (0xF900 ≤ cp ∧ cp < 0x10000) ∨ (0x20000 ≤ cp ∧ cp < 0x40000) then kSyllableWeight
 else kPictureWeight

def letterWeight (spelled : Bool) (c : UInt8) : ℕ :=
 if !spelled then 1 else if lowerAscii c = 0x77 then kSpelledWWeight else kSpelledWeight

def isSpelled (word : Bytes) : Bool :=
 let vowel := word.any fun c => [0x61, 0x65, 0x69, 0x6F, 0x75, 0x79].contains (lowerAscii c)
 let lower := word.any fun c => lowerAscii c == c
 word.length == 1 || !vowel || !lower

/-- A word or number that comes first and is too heavy, cut after its first byte at the least. -/
def takeHeavy (maxWeight : ℕ) (weigh : UInt8 → ℕ) : ℕ → ℕ → Bytes → ℕ × ℕ
 | i, total, [] => (i, total)
 | i, total, c :: run =>
  if 0 < i ∧ maxWeight < total + weigh c then (i, total) else takeHeavy maxWeight weigh (i + 1) (total + weigh c) run

/-- The length in bytes and the weight of the character that `c` begins. -/
def characterWeight (c : UInt8) (rest : Bytes) : ℕ × ℕ :=
 if c < 0x80 then
  let plain := (utf8 " .,;:!?'\"()-").contains c
  (1, if plain then 1 else kSymbolWeight)
 else
  let length := min (if c < 0xE0 then 2 else if c < 0xF0 then 3 else 4) (rest.length + 1)
  let lead := c.toNat &&& (if c < 0xE0 then 0x1F else if c < 0xF0 then 0x0F else 0x07)
  let cp := (rest.take (length - 1)).foldl (fun cp b => cp <<< 6 ||| (b.toNat &&& 0x3F)) lead
  (length, nonAsciiWeight cp)

theorem characterWeight_pos (c : UInt8) (rest : Bytes) : 0 < (characterWeight c rest).1 := by
 rw [characterWeight]
 split_ifs <;> simp

/-- The run of letters or digits that `s` begins with, as far as it could fit. -/
def runOf (letters : Bool) (left : ℕ) (s : Bytes) : Bytes :=
 (s.takeWhile fun c => if letters then isAsciiLetter c else isAsciiDigit c).take (left + 1)

theorem runOf_pos {c : UInt8} (h : isAsciiLetter c || isAsciiDigit c) (left : ℕ) (rest : Bytes) :
  0 < (runOf (isAsciiLetter c) left (c :: rest)).length := by
 have hfirst : (if isAsciiLetter c then isAsciiLetter c else isAsciiDigit c) = true := by
  cases hletter : isAsciiLetter c
  · simpa [hletter] using h
  · rfl
 rw [runOf, List.takeWhile_cons_of_pos (by exact hfirst), List.take_succ_cons, List.length_cons]
 exact Nat.succ_pos _

/-- From the byte `i` on, with `total` the weight of what is before. -/
def spokenFrom (maxWeight i total : ℕ) : Bytes → ℕ × ℕ
 | [] => (i, total)
 | c :: rest =>
  if ¬ (i = 0 ∨ total < maxWeight) then (i, total)
  else if _hw : isAsciiLetter c || isAsciiDigit c then
   let letters := isAsciiLetter c
   let left := maxWeight - total
   let run := runOf letters left (c :: rest)
   let spelled := letters && isSpelled run
   let weigh := fun c => if letters then letterWeight spelled c else kDigitWeight
   let w := (run.map weigh).sum
   if w ≤ left then spokenFrom maxWeight (i + run.length) (total + w) ((c :: rest).drop run.length)
   else if i = 0 then takeHeavy maxWeight weigh i total run
   else (i, total)
  else
   let length := (characterWeight c rest).1
   let w := (characterWeight c rest).2
   if 0 < i ∧ maxWeight < total + w then (i, total)
   else spokenFrom maxWeight (i + length) (total + w) ((c :: rest).drop length)
termination_by s => s.length
decreasing_by
 · have hrun := runOf_pos _hw (maxWeight - total) rest
   rw [List.length_drop]
   exact Nat.sub_lt (Nat.succ_pos _) hrun
 · have hcharacter := characterWeight_pos c rest
   rw [List.length_drop]
   exact Nat.sub_lt (Nat.succ_pos _) hcharacter

/-- How much of the text weighs at most `maxWeight`, and what it weighs. -/
def spokenPrefix (s : Bytes) (maxWeight : ℕ) : ℕ × ℕ := spokenFrom maxWeight 0 0 s

/-! ## Sentences -/

def kAbbreviations : List Bytes :=
 ["mr", "mrs", "ms", "dr", "st", "jr", "sr", "vs", "etc", "no", "fig", "approx", "inc", "ltd", "co", "mt", "prof",
  "gen", "lt"]

def endsSentence (text : Bytes) (dot : ℕ) : Bool :=
 if text.getD dot 0 ≠ 0x2E then true
 else
  let word := (((text.take dot).reverse.takeWhile (· != 0x20)).reverse.take 8).map lowerAscii
  if word.length ≤ 1 ∨ word.contains 0x2E then false else !kAbbreviations.contains word

def startsSentence (c : UInt8) : Bool :=
 (0x41 ≤ c && c ≤ 0x5A) || (0x30 ≤ c && c ≤ 0x39) || c == 0x22 || c == 0x27 || c == 0x28 || c == 0x5B || 0x80 ≤ c

def isStop (text : Bytes) (i : ℕ) : Bool :=
 let stop := text.getD i 0 == 0x2E || text.getD i 0 == 0x21 || text.getD i 0 == 0x3F
 let ellipsis := 2 ≤ i && (text.drop (i - 2)).take 3 == [0xE2, 0x80, 0xA6]
 (stop || ellipsis) && text.getD (i + 1) 0 == 0x20 && startsSentence (text.getD (i + 2) 0) &&
  (ellipsis || endsSentence text i)

def isUtf8Continuation (c : UInt8) : Bool := c &&& 0xC0 == 0x80

def codePoints (s : Bytes) : ℕ := s.countP fun c => !isUtf8Continuation c

/-- `seen` characters begin before `s`, which is the text from the byte `i` on. -/
def offsetFrom (chars : ℕ) (i seen : ℕ) : Bytes → ℕ
 | [] => i
 | c :: s =>
  if isUtf8Continuation c then offsetFrom chars (i + 1) seen s
  else if seen = chars then i
  else offsetFrom chars (i + 1) (seen + 1) s

def offsetOfChars (s : Bytes) (chars : ℕ) : ℕ := offsetFrom chars 0 0 s

/-- `std::string_view::rfind`. -/
def rfindText (needle : Bytes) : Bytes → Option ℕ
 | [] => if needle = [] then some 0 else none
 | b :: s =>
  match rfindText needle s with
  | some i => some (i + 1)
  | none => if needle.isPrefixOf (b :: s) then some 0 else none

/-- After the last comma of the second half or the last space, if there is one. -/
def cutOf (head : Bytes) : ℕ :=
 let comma := rfindText (utf8 ", ") head
 let cut := if (comma.map fun cut => decide (head.length / 2 ≤ cut)).getD false then comma.map (· + 1) else rfind 0x20 head
 match cut with
 | none | some 0 => head.length
 | some cut => cut + 1

def slice (text : Bytes) (lo hi : ℕ) : Bytes := (text.drop lo).take (hi - lo)

theorem offsetFrom_le (chars i seen : ℕ) (s : Bytes) :
  i ≤ offsetFrom chars i seen s ∧ offsetFrom chars i seen s ≤ i + s.length := by
 induction s generalizing i seen with
 | nil => exact ⟨le_refl i, le_refl i⟩
 | cons c s ih =>
  rw [offsetFrom, List.length_cons]
  have hnext := ih (i + 1) seen
  have hseen := ih (i + 1) (seen + 1)
  split_ifs
  · omega
  · omega
  · omega

theorem offsetOfChars_pos {s : Bytes} {chars : ℕ} (hs : s ≠ []) (hchars : chars ≠ 0) : 0 < offsetOfChars s chars := by
 cases s with
 | nil => exact absurd rfl hs
 | cons c s =>
  rw [offsetOfChars, offsetFrom, if_neg (Ne.symm hchars)]
  split_ifs
  · exact (offsetFrom_le ..).1
  · exact (offsetFrom_le ..).1

theorem cutOf_pos {head : Bytes} (h : head ≠ []) : 0 < cutOf head := by
 have hlen := List.length_pos_iff.2 h
 rw [cutOf]
 generalize (if ((rfindText (utf8 ", ") head).map fun cut => decide (head.length / 2 ≤ cut)).getD false then
  (rfindText (utf8 ", ") head).map (· + 1) else rfind 0x20 head) = cut
 match cut with
 | none => exact hlen
 | some 0 => exact hlen
 | some (cut + 1) => exact Nat.succ_pos _

/-- The further starts in a sentence that is too long, the next one `begin` at the earliest. -/
def cutSentence (text : Bytes) (start stop : ℕ) : List ℕ :=
 if _h : kMaxReadingSentenceChars < codePoints (slice text start stop) then
  let limit := start + offsetOfChars (text.drop start) kMaxReadingSentenceChars
  let next := start + cutOf (slice text start limit)
  if _hn : stop ≤ next then [] else next :: cutSentence text next stop
 else []
termination_by stop - start
decreasing_by
 have hrest : text.drop start ≠ [] := by
  intro hnil
  rw [slice, hnil] at _h
  simp [codePoints] at _h
 have hlimit := @offsetOfChars_pos _ kMaxReadingSentenceChars hrest (by decide)
 have hhead : slice text start limit ≠ [] := by
  have := List.length_pos_iff.2 hrest
  rw [← List.length_pos_iff, slice, List.length_take]
  omega
 have hnext : start < next := Nat.lt_add_of_pos_right (cutOf_pos hhead)
 exact Nat.sub_lt_sub_left (show start < stop by omega) hnext

def cutSentences (text : Bytes) : List ℕ → List ℕ
 | [] => []
 | start :: starts => (start :: cutSentence text start (starts.headD text.length)) ++ cutSentences text starts

def sentenceStarts (text : Bytes) : List ℕ :=
 cutSentences text (0 :: ((List.range (text.length - 2)).filter (isStop text)).map (· + 2))

/-! ## Documents -/

inductive ReadingBlockKind where
 | paragraph | heading | listItem | other
 deriving DecidableEq

structure ReadingBlock where
 kind : ReadingBlockKind := .paragraph
 text : Bytes := []
 sentences : List ℕ := []

abbrev ReadingDocument := List ReadingBlock

/-- How a document's block is made of a piece of the page's text. -/
structure ReadingBlock.Built (b : ReadingBlock) : Prop where
 text : ∃ raw, b.text = speechSafeText raw kMaxReadingBlockChars
 ne : b.text ≠ []
 sentences : b.sentences = sentenceStarts b.text

def textDocument (text : Bytes) : ReadingDocument :=
 let text := speechSafeText text kMaxReadingBlockChars
 if text = [] then [] else [{ text, sentences := sentenceStarts text }]

theorem textDocument_built (text : Bytes) : ∀ b ∈ textDocument text, b.Built := by
 intro b hb
 rw [textDocument] at hb
 split_ifs at hb with hempty
 · exact absurd hb List.not_mem_nil
 · obtain rfl := List.mem_singleton.1 hb
   exact ⟨⟨text, rfl⟩, hempty, rfl⟩

/-! ## Chunks -/

structure ReadingPosition where
 block : ℕ := 0
 offset : ℕ := 0
 deriving DecidableEq

structure ReadingChunk where
 text : Bytes
 pos : ReadingPosition
 next : ReadingPosition
 deriving DecidableEq

def kCharsPerSecond : ℚ := 15
def kChunkSeconds : ℚ := 13

def readingChunkChars (rate : SpeechEvents.Double) : ℕ :=
 let rate : ℚ :=
  match rate with
  | .finite rate => if rate ≤ 0 then 1 else rate
  | _ => 1
 max kMinChunkChars (min ⌊min (kCharsPerSecond * kChunkSeconds * rate) 1000000⌋.toNat kMaxChunkChars)

def blockAt (document : ReadingDocument) (i : ℕ) : ReadingBlock := document.getD i {}

def wordFrom (document : ReadingDocument) (pos : ReadingPosition) (endBlock : ℕ) : ReadingPosition :=
 if pos.block < endBlock then
  let text := (blockAt document pos.block).text
  let offset := pos.offset + ((text.drop pos.offset).takeWhile (· == 0x20)).length
  if offset < text.length then { pos with offset }
  else wordFrom document { block := pos.block + 1 } endBlock
 else pos
termination_by endBlock - pos.block
decreasing_by omega

/-- Whole sentences while they fit, the first in any case: where the last one taken ends and what
they weigh. -/
def takeSentences (text : Bytes) (maxChars start : ℕ) (stop spoken : ℕ) (starts : List ℕ) : ℕ × ℕ :=
 let next := starts.headD text.length
 if starts = [] ∧ text.length ≤ stop then (stop, spoken)
 else
  let sentence := slice text stop next
  let taken := spokenPrefix sentence maxChars
  let more := if taken.1 < sentence.length then maxChars + 1 else taken.2
  if start < stop ∧ maxChars < spoken + more then (stop, spoken)
  else
   match starts with
   | [] => (next, spoken + more)
   | _ :: starts => takeSentences text maxChars start next (spoken + more) starts

/-- Where a chunk from `start` on ends. -/
def chunkEnd (block : ReadingBlock) (start maxChars : ℕ) : ℕ :=
 let text := block.text
 let taken := takeSentences text maxChars start start 0 (block.sentences.dropWhile (· ≤ start))
 if maxChars < taken.2 then
  let limit := start + (spokenPrefix (slice text start taken.1) maxChars).1
  match rfind 0x20 (slice text start limit) with
  | none | some 0 => limit
  | some space => start + space + 1
 else taken.1

def trimEnd (s : Bytes) : Bytes := (s.reverse.dropWhile (· == 0x20)).reverse

/-- What is said of the block's bytes from `start` to `stop`. -/
def chunkText (block : ReadingBlock) (start stop : ℕ) : Bytes :=
 let said := trimEnd (slice block.text start stop)
 if block.text.length ≤ stop ∧ block.kind ≠ .paragraph then
  match said.getLast? with
  | some last => if (utf8 ".!?:;").contains last then said else said ++ [0x2E]
  | none => said
 else said

def chunkAt (document : ReadingDocument) (pos : ReadingPosition) (maxChars endBlock : ℕ) : Option ReadingChunk :=
 let maxChars := max maxChars 1
 let endBlock := min endBlock document.length
 let pos := wordFrom document pos endBlock
 if endBlock ≤ pos.block then none
 else
  let block := blockAt document pos.block
  let stop := chunkEnd block pos.offset maxChars
  some
   { text := chunkText block pos.offset stop
     pos
     next := if block.text.length ≤ stop then { block := pos.block + 1 } else { pos with offset := stop } }

/-! ## The queue -/

structure ReadingQueue where
 document : ReadingDocument := []
 loaded : Bool := false
 endBlock : ℕ := 0
 next : ReadingPosition := {}
 handed : List ReadingChunk := []
 currentBlock : ℤ := -1

namespace ReadingQueue

def start (q : ReadingQueue) (document : ReadingDocument) (pos : ReadingPosition) (endBlock : ℕ) : ReadingQueue :=
 { q with document, loaded := true, endBlock := min endBlock document.length, next := pos, handed := [] }

/-- The next chunk to hand to the voice, while fewer than two are with it. -/
def nextChunk (q : ReadingQueue) (rate : SpeechEvents.Double) : Option ReadingChunk × ReadingQueue :=
 if !q.loaded || kReadingAhead < q.handed.length then (none, q)
 else
  match chunkAt q.document q.next (readingChunkChars rate) q.endBlock with
  | none => (none, q)
  | some chunk => (some chunk, { q with next := chunk.next, handed := q.handed ++ [chunk] })

def spoken (q : ReadingQueue) : ReadingQueue :=
 match q.handed with
 | [] => q
 | chunk :: handed => { q with currentBlock := chunk.pos.block, handed }

def stop (q : ReadingQueue) : ReadingQueue :=
 match q.handed with
 | [] => q
 | chunk :: _ => { q with next := chunk.pos, currentBlock := chunk.pos.block, handed := [] }

def finished (q : ReadingQueue) : Bool :=
 q.loaded && q.handed.isEmpty && (chunkAt q.document q.next kMaxChunkChars q.endBlock).isNone

def position (q : ReadingQueue) : ReadingPosition :=
 match q.handed with
 | [] => q.next
 | chunk :: _ => chunk.pos

end ReadingQueue

end MoltBrowser.Voice
