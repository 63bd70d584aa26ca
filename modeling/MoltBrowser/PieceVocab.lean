import MoltBrowser.Bytes
import MoltBrowser.Segmentations
import Mathlib.Algebra.Order.Ring.Rat

set_option autoImplicit false

/-!
# The recognizer's word pieces (`speech_text.cc`)

A word is spelled by the split into pieces with the highest total score. The scores are exact.
-/
namespace MoltBrowser.SpeechText
open Segmentations

def kWordStart : Bytes := [0xE2, 0x96, 0x81]

def kMaxPieceBytes : ℕ := 64
def kMaxPieces : ℕ := 100000
def kMaxWordBytes : ℕ := 64

def isAsciiLetter (c : UInt8) : Bool := (0x61 ≤ c && c ≤ 0x7A) || (0x41 ≤ c && c ≤ 0x5A)
def isAsciiDigit (c : UInt8) : Bool := 0x30 ≤ c && c ≤ 0x39
def isSpaceOrTab (c : UInt8) : Bool := c == 0x20 || c == 0x09

structure PieceVocab where
 scores : List (Bytes × ℚ) := []
 longest : ℕ := 0
 nonempty : ∀ p ∈ scores, p.1 ≠ [] := by simp
 short : ∀ p ∈ scores, p.1.length ≤ longest := by simp

namespace PieceVocab

def score (vocab : PieceVocab) (piece : Bytes) : Option ℚ := vocab.scores.lookup piece

def contains (vocab : PieceVocab) (piece : Bytes) : Bool := (vocab.score piece).isSome

/-! ## Loading -/

def emplace (vocab : PieceVocab) (piece : Bytes) (score : ℚ) (h : piece ≠ []) : PieceVocab where
 scores := vocab.scores ++ [(piece, score)]
 longest := max vocab.longest piece.length
 nonempty p hp := by
  cases List.mem_append.mp hp with
  | inl hp => exact vocab.nonempty p hp
  | inr hp => exact List.mem_singleton.mp hp ▸ h
 short p hp := by
  cases List.mem_append.mp hp with
  | inl hp => exact (vocab.short p hp).trans (le_max_left _ _)
  | inr hp => exact List.mem_singleton.mp hp ▸ le_max_right _ _

end PieceVocab

def linesOf (text : Bytes) : List Bytes :=
 let parts := text.splitOn 0x0A
 (if parts.getLast? = some [] then parts.dropLast else parts).map fun line =>
  if line.getLast? = some 0x0D then line.dropLast else line

def digitsValue (digits : Bytes) : ℕ := digits.foldl (fun value c => value * 10 + (c.toNat - 0x30)) 0

def parseFraction (text : Bytes) : Option ℚ :=
 match text with
 | [] => some 0
 | point :: digits =>
  if point ≠ 0x2E ∨ digits = [] ∨ 17 < digits.length ∨ ¬ digits.all isAsciiDigit then none
  else some (digitsValue digits / 10 ^ digits.length)

/-- `[-+]?[0-9]+(\.[0-9]+)?` -/
def parseDecimal (text : Bytes) : Option ℚ :=
 let negative := text.head? = some 0x2D
 let body := if negative ∨ text.head? = some 0x2B then text.drop 1 else text
 let whole := body.takeWhile isAsciiDigit
 if whole = [] ∨ 12 < whole.length then none
 else
  (parseFraction (body.drop whole.length)).map fun fraction =>
   if negative then -(digitsValue whole + fraction) else digitsValue whole + fraction

inductive VocabProblem where
 | malformedLine (lineNumber : ℕ)
 | tooManyPieces
 | repeatsPiece (lineNumber : ℕ)

def VocabProblem.text : VocabProblem → String
 | malformedLine lineNumber => "malformed vocabulary line " ++ toString lineNumber
 | tooManyPieces => "vocabulary has too many pieces"
 | repeatsPiece lineNumber => "vocabulary repeats a piece on line " ++ toString lineNumber

def loadLine (lineNumber : ℕ) (line : Bytes) (vocab : PieceVocab) : Except VocabProblem PieceVocab :=
 if line = [] then .ok vocab
 else
  let piece := line.takeWhile fun c => !isSpaceOrTab c
  let spaced := line.drop piece.length
  let scoreText := spaced.dropWhile isSpaceOrTab
  if h : piece = [] ∨ kMaxPieceBytes < piece.length ∨ scoreText.length = spaced.length then .error (.malformedLine lineNumber)
  else
   match parseDecimal scoreText with
   | none => .error (.malformedLine lineNumber)
   | some score =>
    if vocab.scores.length = kMaxPieces then .error .tooManyPieces
    else if vocab.contains piece then .error (.repeatsPiece lineNumber)
    else .ok (vocab.emplace piece score fun hempty => h (.inl hempty))

def loadLines : ℕ → List Bytes → PieceVocab → Except VocabProblem PieceVocab
 | _, [], vocab => .ok vocab
 | lineNumber, line :: lines, vocab => do
  let vocab ← loadLine lineNumber line vocab
  loadLines (lineNumber + 1) lines vocab

def load (text : Bytes) : Except VocabProblem PieceVocab := loadLines 1 (linesOf text) {}

/-! ## Splitting -/

/-- The highest total score of a split of the bytes before a position, and where its last piece starts. -/
structure Cell where
 total : ℚ
 start : ℕ

def slice (s : Bytes) (j i : ℕ) : Bytes := (s.drop j).take (i - j)

/-- Only a better total takes the place of one there is. -/
def improve (best : Option Cell) (j : ℕ) : Option ℚ → Option Cell
 | none => best
 | some total =>
  match best with
  | none => some ⟨total, j⟩
  | some cell => if cell.total < total then some ⟨total, j⟩ else some cell

namespace PieceVocab

variable (vocab : PieceVocab)

/-- The total with a last piece from `j`. -/
def candidate (s : Bytes) (best : List (Option Cell)) (i j : ℕ) : Option ℚ := do
 let before ← best.getD j none
 let score ← vocab.score (slice s j i)
 return before.total + score

def cellAt (s : Bytes) (best : List (Option Cell)) (i : ℕ) : Option Cell :=
 (List.range' (i - vocab.longest) (i - (i - vocab.longest))).foldl (fun cell j => improve cell j (vocab.candidate s best i j)) none

def bestTo (s : Bytes) : ℕ → List (Option Cell)
 | 0 => [some ⟨0, 0⟩]
 | i + 1 =>
  let best := bestTo s i
  best ++ [vocab.cellAt s best (i + 1)]

end PieceVocab

/-- Every piece has a byte, so the steps to the start are no more than the bytes. -/
def piecesTo (s : Bytes) (best : List (Option Cell)) : ℕ → ℕ → List Bytes
 | 0, _ => []
 | _ + 1, 0 => []
 | steps + 1, i + 1 =>
  match best.getD (i + 1) none with
  | none => []
  | some cell => piecesTo s best steps cell.start ++ [slice s cell.start (i + 1)]

def PieceVocab.split (vocab : PieceVocab) (word : Bytes) : Option (List Bytes) :=
 if word = [] ∨ kMaxWordBytes < word.length then none
 else
  let s := kWordStart ++ word
  let best := vocab.bestTo s s.length
  (best.getD s.length none).map fun _ => piecesTo s best s.length s.length

end MoltBrowser.SpeechText
