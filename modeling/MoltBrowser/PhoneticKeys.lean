import MoltBrowser.ConfirmationWords
import MoltBrowser.SpokenWords

set_option autoImplicit false

/-!
# Phonetic keys (`phonetic_key.cc`, `phonetic_key_es.cc`)

What a word sounds like, in English and in Spanish, and how far apart two keys are.
-/
namespace MoltBrowser.ConfirmationWords

def kMaxPhoneticWordBytes : ℕ := 40
def kMaxPhoneticBand : ℕ := 8
def kMaxComparedKey : ℕ := 160

/-! ## Keys -/

def isVowelLetter (c : Char) : Bool := c == 'a' || c == 'e' || c == 'i' || c == 'o' || c == 'u'
def frontVowel (c : Char) : Bool := c == 'e' || c == 'i'

def noLetter : Char := '\x00'

/-- Whether the letter at `i` is heard as a vowel: y isn't at the start before one. -/
def soundsVowel (w : List Char) (i : ℕ) : Bool :=
 let c := w.getD i noLetter
 if isVowelLetter c then true
 else if c ≠ 'y' then false
 else !(i == 0 && i + 1 < w.length && isVowelLetter (w.getD (i + 1) noLetter))

def emit (key : List Char) (sound : Char) : List Char := if key.getLast? = some sound then key else key ++ [sound]

/-- The letters taken at the start of an English word, and the key they begin. -/
def englishStart (w : List Char) : ℕ × List Char :=
 let start := w.take 2
 if start = ['k', 'n'] ∨ start = ['g', 'n'] ∨ start = ['p', 'n'] ∨ start = ['w', 'r'] ∨ start = ['p', 's'] then (1, [])
 else if start = ['w', 'h'] then (2, ['W'])
 else if start = ['r', 'h'] then (2, ['R'])
 else if w.head? = some 'x' then (1, ['S'])
 else (0, [])

/-- One turn at the letter `i`: the letters it takes, and the key. -/
def englishTurn (w : List Char) (key : List Char) (i : ℕ) : ℕ × List Char :=
 let n := w.length
 let before := w.getD (i - 1) noLetter
 let c := w.getD i noLetter
 let next := w.getD (i + 1) noLetter
 let after := w.getD (i + 2) noLetter
 match c with
 | 'a' | 'e' | 'i' | 'o' | 'u' =>
  if c = 'e' ∧ i + 1 = n ∧ 0 < i ∧ soundsVowel w (i - 1) = false ∧ 'a' ∈ key then (1, key) else (1, emit key 'a')
 | 'y' => (1, emit key (if soundsVowel w i then 'a' else 'Y'))
 | 'b' => (1, if i + 1 = n ∧ 0 < i ∧ before = 'm' then key else emit key 'P')
 | 'p' => (if next = 'h' then 2 else 1, emit key 'P')
 | 'f' | 'v' => (1, emit key 'P')
 | 't' =>
  if next = 'c' ∧ after = 'h' then (3, emit key 'X')
  else if next = 'h' then (2, emit key 'T')
  else if 0 < i ∧ next = 'i' ∧ (after = 'o' ∨ after = 'a') then (2, emit key 'X')
  else (1, emit key 'T')
 | 'd' =>
  if next = 'g' ∧ (after = 'e' ∨ after = 'i' ∨ after = 'y') then (2, emit key 'X') else (1, emit key 'T')
 | 'c' =>
  if next = 'e' ∨ next = 'i' ∨ next = 'y' then (1, emit key 'S')
  else if next = 'h' then (2, emit key (if i = 0 ∧ after = 'r' then 'K' else 'X'))
  else if next = 'k' ∨ next = 'q' then (2, emit key 'K')
  else (1, emit key 'K')
 | 'k' => (1, emit key 'K')
 | 'q' => if next = 'u' then (2, emit (emit key 'K') 'W') else (1, emit key 'K')
 | 'g' =>
  if next = 'h' then (2, if i = 0 then emit key 'K' else key)
  else if next = 'n' ∧ i + 2 = n then (1, key)
  else if i + 1 = n ∧ 0 < i ∧ before = 'n' then (1, key)
  else if next = 'e' ∧ i + 2 = n then (1, emit key 'X')
  else (1, emit key 'K')
 | 'j' => (1, emit key 'X')
 | 's' =>
  if next = 'c' ∧ after = 'h' then (3, emit (emit key 'S') 'K')
  else if next = 'h' then (2, emit key 'X')
  else if 0 < i ∧ next = 'i' ∧ (after = 'o' ∨ after = 'a') then (2, emit key 'X')
  else (1, emit key 'S')
 | 'z' => (1, emit key 'S')
 | 'x' => (1, emit (emit key 'K') 'S')
 | 'h' =>
  (1, if (i = 0 ∨ soundsVowel w (i - 1) = false) ∧ (isVowelLetter next ∨ next = 'y') then emit key 'H' else key)
 | 'w' => (1, if isVowelLetter next ∨ next = 'y' then emit key 'W' else key)
 | 'l' => (1, emit key 'L')
 | 'r' => (1, emit key 'R')
 | 'm' => (1, emit key 'M')
 | 'n' => (1, emit key 'N')
 | _ => (1, key)

def spanishStart (w : List Char) : ℕ × List Char :=
 if w.take 2 = ['p', 's'] then (1, [])
 else if 3 ≤ w.length ∧ w.take 2 = ['h', 'u'] ∧ isVowelLetter (w.getD 2 noLetter) then (2, ['W'])
 else if 3 ≤ w.length ∧ w.take 2 = ['h', 'i'] ∧ isVowelLetter (w.getD 2 noLetter) then (2, ['Y'])
 else (0, [])

def spanishTurn (w : List Char) (key : List Char) (i : ℕ) : ℕ × List Char :=
 let c := w.getD i noLetter
 let next := w.getD (i + 1) noLetter
 let after := w.getD (i + 2) noLetter
 match c with
 | 'a' | 'e' | 'i' | 'o' | 'u' => (1, emit key 'a')
 | 'y' => (1, emit key (if isVowelLetter next then 'Y' else 'a'))
 | 'b' | 'v' | 'p' | 'f' => (1, emit key 'P')
 | 'd' | 't' => (1, emit key 'T')
 | 'c' =>
  if next = 'h' then (2, emit key 'X')
  else if frontVowel next then (1, emit key 'S')
  else (1, emit key 'K')
 | 'q' => (if next = 'u' then 2 else 1, emit key 'K')
 | 'g' => (if next = 'u' ∧ frontVowel after then 2 else 1, emit key 'K')
 | 'j' | 'k' => (1, emit key 'K')
 | 's' | 'z' => (1, emit key 'S')
 | 'x' => (1, if i = 0 then emit key 'S' else emit (emit key 'K') 'S')
 | 'h' => (1, key)
 | 'l' => if next = 'l' then (2, emit key 'Y') else (1, emit key 'L')
 | 'r' => (1, emit key 'R')
 | 'm' => (1, emit key 'M')
 | 'n' => (1, emit key 'N')
 | 'w' => (1, if isVowelLetter next then emit key 'W' else key)
 | _ => (1, key)

def keyFrom (turn : List Char → List Char → ℕ → ℕ × List Char) (w : List Char) : ℕ → List Char → ℕ → List Char
 | 0, key, _ => key
 | turns + 1, key, i =>
  if i < w.length then keyFrom turn w turns (turn w key i).2 (i + (turn w key i).1) else key

def letterOf (b : UInt8) : Char := Char.ofNat b.toNat
def byteOf (c : Char) : UInt8 := UInt8.ofNat c.toNat

def hasNoKey (w : Bytes) : Bool := w.isEmpty || kMaxPhoneticWordBytes < w.length || w.any fun c => c < 0x61 || 0x7A < c

def phoneticKey (w : Bytes) : Bytes :=
 if hasNoKey w then []
 else
  let letters := w.map letterOf
  (keyFrom englishTurn letters letters.length (englishStart letters).2 (englishStart letters).1).map byteOf

def spanishPhoneticKey (w : Bytes) : Bytes :=
 if hasNoKey w then []
 else
  let letters := w.map letterOf
  (keyFrom spanishTurn letters letters.length (spanishStart letters).2 (spanishStart letters).1).map byteOf

def phoneticKeyFor : Language → Bytes → Bytes
 | .english, word => phoneticKey word
 | .spanish, word => spanishPhoneticKey word

def joinPhoneticKeys (a b : Bytes) : Bytes :=
 if a ≠ [] ∧ b ≠ [] ∧ a.getLast? = b.head? then a ++ b.tail else a ++ b

/-! ## Distances -/

def kClasses : Bytes := utf8 "aPTKSXMNLRWYH"
def kOtherClass : ℕ := 13

def classOf (c : UInt8) : ℕ := (kClasses.idxOf? c).getD kOtherClass

def closeClasses (x y : UInt8) : Bool :=
 [("M", "N"), ("L", "R"), ("S", "X"), ("K", "X"), ("K", "S"), ("S", "T"), ("P", "W")].any fun pair =>
  utf8 pair.1 == [min x y] && utf8 pair.2 == [max x y]

def substitutionCost (i j : ℕ) : ℕ :=
 if i = j then 0
 else if i < kClasses.length ∧ j < kClasses.length ∧ closeClasses (kClasses.getD i 0) (kClasses.getD j 0) then 1
 else 3

def kIndelCost : List ℕ := [1, 2, 2, 2, 2, 2, 2, 2, 2, 2, 1, 1, 1, 2]

def indelCost (k : ℕ) : ℕ := kIndelCost.getD k 0

/-- The cell `j` of a row from the row before and the cell to its left; the best of the row so far beside it. -/
def distanceCell (tooFar classA : ℕ) (classB previous : List ℕ) (row : List ℕ × ℕ) (j : ℕ) : List ℕ × ℕ :=
 let cb := classB.getD (j - 1) 0
 let cost := previous.getD (j - 1) 0 + substitutionCost classA cb
 let cost := min cost (previous.getD j 0 + indelCost classA)
 let cost := min cost (row.1.getD (j - 1) 0 + indelCost cb)
 (row.1.set j (min cost tooFar), min row.2 (min cost tooFar))

/-- The rows `i` and after; the two rows of cells are swapped, with what they hold. -/
def distanceRows (tooFar band : ℕ) (classB : List ℕ) : ℕ → List ℕ → List ℕ → List ℕ → ℕ
 | _, [], previous, _ => min (previous.getD classB.length 0) tooFar
 | i, classA :: rest, previous, current =>
  let lo := i - band
  let hi := min classB.length (i + band)
  let first := min tooFar (previous.getD 0 0 + indelCost classA)
  let row := if lo = 0 then (current.set 0 first, first) else (current.set (lo - 1) tooFar, tooFar)
  let row := (List.range' (max 1 lo) (hi + 1 - max 1 lo)).foldl (distanceCell tooFar classA classB previous) row
  let current := if hi + 1 ≤ classB.length then row.1.set (hi + 1) tooFar else row.1
  if tooFar ≤ row.2 then tooFar else distanceRows tooFar band classB (i + 1) rest current previous

/-- The first row: `b`'s first letters inserted. -/
def firstRow (tooFar band : ℕ) (classB : List ℕ) : List ℕ :=
 (List.range' 1 (min classB.length band)).foldl
  (fun row j => row.set j (min tooFar (row.getD (j - 1) 0 + indelCost (classB.getD (j - 1) 0))))
  ((List.replicate (classB.length + 2) tooFar).set 0 0)

def phoneticDistance (a b : Bytes) (bound : ℕ) : ℕ :=
 let bound := min bound (2 * kMaxPhoneticBand)
 let tooFar := bound + 1
 if a = b then 0
 else if kMaxComparedKey < a.length ∨ kMaxComparedKey < b.length then tooFar
 else
  let band := min bound kMaxPhoneticBand
  if band < a.length - b.length ∨ band < b.length - a.length then tooFar
  else
   let classB := b.map classOf
   distanceRows tooFar band classB 1 (a.map classOf) (firstRow tooFar band classB)
    (List.replicate (classB.length + 2) tooFar)

def phoneticBound (longerKeySize : ℕ) : ℕ := if longerKeySize ≤ 2 then 0 else min 5 (longerKeySize / 2)

def voicePhonetics : Phonetics where
 foldForComparison := SpokenText.foldForComparison
 phoneticKeyFor := phoneticKeyFor
 joinPhoneticKeys := joinPhoneticKeys
 phoneticBound := phoneticBound
 phoneticDistance := phoneticDistance

end MoltBrowser.ConfirmationWords
