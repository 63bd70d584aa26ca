import MoltBrowser.JsonSyntax

set_option autoImplicit false

/-!
# The strict JSON reader and writer of the inference service

A function of the reader takes the bytes from the position on and gives what it read with the
bytes after it.
-/
namespace MoltBrowser.BoundedJson
open Json

structure JsonLimits where
 maxBytes : ℕ := 32 * 1024
 maxDepth : ℕ := 32
 maxValues : ℕ := 4096

inductive JsonError where
 | tooLarge
 | tooDeep
 | tooManyValues
 | syntaxError
 | duplicateKey
 deriving DecidableEq

abbrev Read (α : Type) := Except JsonError α

def fail {α : Type} (error : JsonError) : Read α := .error error

def peek (s : Bytes) : UInt8 := s.headD 0

def skipWhitespace (s : Bytes) : Bytes := s.dropWhile fun c => c = 0x20 ∨ c = 0x09 ∨ c = 0x0A ∨ c = 0x0D

def literal (word s : Bytes) : Read Bytes :=
 if s.take word.length ≠ word then fail .syntaxError else .ok (s.drop word.length)

/-! ## Numbers -/

def numberSign (s : Bytes) : Bytes × Bytes := if peek s = 0x2D then ([0x2D], s.tail) else ([], s)

def numberDigits (s : Bytes) : Bytes × Bytes := (s.takeWhile isDigit, s.dropWhile isDigit)

def numberInt (s : Bytes) : Read (Bytes × Bytes) :=
 if peek s = 0x30 then .ok ([0x30], s.tail)
 else if 0x31 ≤ peek s ∧ peek s ≤ 0x39 then .ok (numberDigits s)
 else fail .syntaxError

def numberFrac (s : Bytes) : Read (Bytes × Bytes) :=
 if peek s ≠ 0x2E then .ok ([], s)
 else if isDigit (peek s.tail) = false then fail .syntaxError
 else .ok (0x2E :: (numberDigits s.tail).1, (numberDigits s.tail).2)

def exponentSign (s : Bytes) : Bytes × Bytes :=
 if peek s = 0x2B ∨ peek s = 0x2D then ([peek s], s.tail) else ([], s)

def numberExp (s : Bytes) : Read (Bytes × Bytes) :=
 if ¬(peek s = 0x65 ∨ peek s = 0x45) then .ok ([], s)
 else
  let (sign, rest) := exponentSign s.tail
  if isDigit (peek rest) = false then fail .syntaxError
  else .ok (peek s :: (sign ++ (numberDigits rest).1), (numberDigits rest).2)

def parseNumber (s : Bytes) : Read (Bytes × Bytes) := do
 let (sign, s) := numberSign s
 let (int, s) ← numberInt s
 let (frac, s) ← numberFrac s
 let (exp, s) ← numberExp s
 .ok (sign ++ (int ++ (frac ++ exp)), s)

/-! ## Strings -/

def appendUtf8 (cp : ℕ) : Bytes :=
 if cp < 0x80 then [UInt8.ofNat cp]
 else if cp < 0x800 then [UInt8.ofNat (0xC0 ||| cp >>> 6), UInt8.ofNat (0x80 ||| (cp &&& 0x3F))]
 else if cp < 0x10000 then
  [UInt8.ofNat (0xE0 ||| cp >>> 12), UInt8.ofNat (0x80 ||| (cp >>> 6 &&& 0x3F)), UInt8.ofNat (0x80 ||| (cp &&& 0x3F))]
 else
  [UInt8.ofNat (0xF0 ||| cp >>> 18), UInt8.ofNat (0x80 ||| (cp >>> 12 &&& 0x3F)),
   UInt8.ofNat (0x80 ||| (cp >>> 6 &&& 0x3F)), UInt8.ofNat (0x80 ||| (cp &&& 0x3F))]

def readHex4 : Bytes → Read (ℕ × Bytes)
 | a :: b :: c :: d :: rest =>
  match hex4 a b c d with
  | some v => .ok (v, rest)
  | none => fail .syntaxError
 | _ => fail .syntaxError

/-- The length and the bits of the code point that a lead byte gives. -/
def leadByte (b0 : UInt8) : Option (ℕ × ℕ) :=
 if 0xC2 ≤ b0 ∧ b0 ≤ 0xDF then some (2, b0.toNat &&& 0x1F)
 else if 0xE0 ≤ b0 ∧ b0 ≤ 0xEF then some (3, b0.toNat &&& 0x0F)
 else if 0xF0 ≤ b0 ∧ b0 ≤ 0xF4 then some (4, b0.toNat &&& 0x07)
 else none

def continueWith (cp : ℕ) : Bytes → Read ℕ
 | [] => .ok cp
 | b :: rest => if b &&& 0xC0 ≠ 0x80 then fail .syntaxError else continueWith (cp <<< 6 ||| (b.toNat &&& 0x3F)) rest

def readUtf8Char (s : Bytes) : Read (Bytes × Bytes) :=
 match leadByte (peek s) with
 | none => fail .syntaxError
 | some (n, bits) =>
  if s.length < n then fail .syntaxError
  else do
   let cp ← continueWith bits (s.take n).tail
   let overlong := (n = 3 ∧ cp < 0x800) ∨ (n = 4 ∧ cp < 0x10000)
   if overlong ∨ (0xD800 ≤ cp ∧ cp ≤ 0xDFFF) ∨ 0x10FFFF < cp then fail .syntaxError
   else .ok (s.take n, s.drop n)

/-- What follows `\u`. -/
def readUnicodeEscape (s : Bytes) : Read (Bytes × Bytes) := do
 let (cp, s) ← readHex4 s
 if 0xDC00 ≤ cp ∧ cp ≤ 0xDFFF then fail .syntaxError
 else if 0xD800 ≤ cp ∧ cp ≤ 0xDBFF then
  -- a high surrogate must be followed by an escaped low one
  if s.take 2 ≠ [0x5C, 0x75] then fail .syntaxError
  else do
   let (low, s) ← readHex4 (s.drop 2)
   if low < 0xDC00 ∨ 0xDFFF < low then fail .syntaxError
   else .ok (appendUtf8 (0x10000 + ((cp - 0xD800) <<< 10) + (low - 0xDC00)), s)
 else .ok (appendUtf8 cp, s)

def readEscape : Bytes → Read (Bytes × Bytes)
 | [] => fail .syntaxError
 | e :: s =>
  if e = 0x75 then readUnicodeEscape s
  else match shortEscape e with
   | some b => .ok ([b], s)
   | none => fail .syntaxError

/-- One character of a string that isn't its closing quote. -/
def readChar (c : UInt8) (rest : Bytes) : Read (Bytes × Bytes) :=
 if c < 0x20 then fail .syntaxError
 else if 0x80 ≤ c then readUtf8Char (c :: rest)
 else if c ≠ 0x5C then .ok ([c], rest)
 else readEscape rest

/-- The loop of the string; `fuel` bounds its turns, of which each reads a byte. -/
def parseChars : ℕ → Bytes → Read (Bytes × Bytes)
 | _, [] => fail .syntaxError
 | 0, _ => fail .syntaxError
 | fuel + 1, c :: rest =>
  if c = 0x22 then .ok ([], rest)
  else do
   let (t, s) ← readChar c rest
   let (ts, s) ← parseChars fuel s
   .ok (t ++ ts, s)

def parseString (s : Bytes) : Read (Bytes × Bytes) := parseChars s.length s.tail

/-! ## Values -/

/-- `values` are the values met so far. -/
structure Parser where
 rest : Bytes
 values : ℕ

def Parser.peek (p : Parser) : UInt8 := BoundedJson.peek p.rest

def Parser.advance (p : Parser) : Parser := { p with rest := p.rest.tail }

def Parser.skipWhitespace (p : Parser) : Parser := { p with rest := BoundedJson.skipWhitespace p.rest }

def Parser.text (p : Parser) (read : Bytes → Read (Bytes × Bytes)) : Read (Bytes × Parser) := do
 let (t, rest) ← read p.rest
 .ok (t, { p with rest })

def Parser.literal (p : Parser) (word : Bytes) (v : JsonValue) : Read (JsonValue × Parser) := do
 let rest ← BoundedJson.literal word p.rest
 .ok (v, { p with rest })

def countValue (limits : JsonLimits) (p : Parser) : Read Parser :=
 if limits.maxValues < p.values + 1 then fail .tooManyValues else .ok { p with values := p.values + 1 }

def hasDuplicate (keys : List Bytes) : Bool :=
 let keys := keys.mergeSort fun a b => decide (a ≤ b)
 (keys.zip keys.tail).any fun k => k.1 == k.2

def parseKey (p : Parser) : Read (Bytes × Parser) :=
 if p.peek ≠ 0x22 then fail .syntaxError
 else do
  let (key, p) ← p.text parseString
  let p := p.skipWhitespace
  if p.peek ≠ 0x3A then fail .syntaxError
  else .ok (key, p.advance.skipWhitespace)

/-! `depth` is of the containers open around; `fuel` bounds the calls. -/

mutual

def parseValue (limits : JsonLimits) : ℕ → ℕ → Parser → Read (JsonValue × Parser)
 | 0, _, _ => fail .syntaxError
 | fuel + 1, depth, p => do
  let p ← countValue limits p
  if p.peek = 0x7B then parseObject limits fuel (depth + 1) p
  else if p.peek = 0x5B then parseArray limits fuel (depth + 1) p
  else if p.peek = 0x22 then do
   let (t, p) ← p.text parseString
   .ok (.string t, p)
  else if p.peek = 0x74 then p.literal (utf8 "true") (.bool true)
  else if p.peek = 0x66 then p.literal (utf8 "false") (.bool false)
  else if p.peek = 0x6E then p.literal (utf8 "null") .null
  else do
   let (t, p) ← p.text parseNumber
   .ok (.number t, p)

def parseObject (limits : JsonLimits) : ℕ → ℕ → Parser → Read (JsonValue × Parser)
 | 0, _, _ => fail .syntaxError
 | fuel + 1, depth, p =>
  if limits.maxDepth < depth then fail .tooDeep
  else
   let p := p.advance.skipWhitespace
   if p.peek = 0x7D then .ok (.object [], p.advance)
   else do
    let (members, p) ← parseMembers limits fuel depth p
    if hasDuplicate (members.map Prod.fst) then fail .duplicateKey
    else .ok (.object members, p)

def parseMembers (limits : JsonLimits) : ℕ → ℕ → Parser → Read (List (Bytes × JsonValue) × Parser)
 | 0, _, _ => fail .syntaxError
 | fuel + 1, depth, p => do
  let (key, p) ← parseKey p
  let (value, p) ← parseValue limits fuel depth p
  let p := p.skipWhitespace
  if p.peek = 0x2C then do
   let (members, p) ← parseMembers limits fuel depth p.advance.skipWhitespace
   .ok ((key, value) :: members, p)
  else if p.peek ≠ 0x7D then fail .syntaxError
  else .ok ([(key, value)], p.advance)

def parseArray (limits : JsonLimits) : ℕ → ℕ → Parser → Read (JsonValue × Parser)
 | 0, _, _ => fail .syntaxError
 | fuel + 1, depth, p =>
  if limits.maxDepth < depth then fail .tooDeep
  else
   let p := p.advance.skipWhitespace
   if p.peek = 0x5D then .ok (.array [], p.advance)
   else do
    let (items, p) ← parseItems limits fuel depth p
    .ok (.array items, p)

def parseItems (limits : JsonLimits) : ℕ → ℕ → Parser → Read (List JsonValue × Parser)
 | 0, _, _ => fail .syntaxError
 | fuel + 1, depth, p => do
  let (value, p) ← parseValue limits fuel depth p
  let p := p.skipWhitespace
  if p.peek = 0x2C then do
   let (items, p) ← parseItems limits fuel depth p.advance.skipWhitespace
   .ok (value :: items, p)
  else if p.peek ≠ 0x5D then fail .syntaxError
  else .ok ([value], p.advance)

end

def fuelFor (n : ℕ) : ℕ := 3 * n + 3

def parseJson (text : Bytes) (limits : JsonLimits) : Read JsonValue :=
 if limits.maxBytes < text.length then fail .tooLarge
 else do
  let (value, p) ← parseValue limits (fuelFor text.length) 0 ⟨skipWhitespace text, 0⟩
  if (skipWhitespace p.rest).isEmpty then .ok value else fail .syntaxError

/-! ## Writing -/

def kHex (n : ℕ) : UInt8 := UInt8.ofNat (if n < 10 then 0x30 + n else 0x61 + (n - 10))

def quoteByte (c : UInt8) : Bytes :=
 if c = 0x22 then [0x5C, 0x22]
 else if c = 0x5C then [0x5C, 0x5C]
 else if c = 0x08 then [0x5C, 0x62]
 else if c = 0x0C then [0x5C, 0x66]
 else if c = 0x0A then [0x5C, 0x6E]
 else if c = 0x0D then [0x5C, 0x72]
 else if c = 0x09 then [0x5C, 0x74]
 else if c < 0x20 then [0x5C, 0x75, 0x30, 0x30, kHex (c.toNat >>> 4), kHex (c.toNat &&& 0xF)]
 else [c]

def jsonQuote (s : Bytes) : Bytes := 0x22 :: (s.flatMap quoteByte ++ [0x22])

mutual

def writeJson : JsonValue → Bytes
 | .null => utf8 "null"
 | .bool b => utf8 (if b then "true" else "false")
 | .number text => text
 | .string text => jsonQuote text
 | .array items => 0x5B :: (writeItems items ++ [0x5D])
 | .object members => 0x7B :: (writeMembers members ++ [0x7D])

def writeItems : List JsonValue → Bytes
 | [] => []
 | [v] => writeJson v
 | v :: w :: items => writeJson v ++ 0x2C :: writeItems (w :: items)

def writeMembers : List (Bytes × JsonValue) → Bytes
 | [] => []
 | [(k, v)] => jsonQuote k ++ 0x3A :: writeJson v
 | (k, v) :: m :: members => jsonQuote k ++ 0x3A :: (writeJson v ++ 0x2C :: writeMembers (m :: members))

end

end MoltBrowser.BoundedJson
