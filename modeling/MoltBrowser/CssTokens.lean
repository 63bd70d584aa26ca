import MoltBrowser.TextReaders
import Mathlib.Data.List.ReduceOption

set_option autoImplicit false

/-! # The tokens of CSS Syntax Level 3 -/
namespace MoltBrowser.CssSyntax
open TextReaders

abbrev Text := List Char

/-! ## Code points -/

def isNewline (c : Char) : Bool := c == '\n'
def isSpace (c : Char) : Bool := c == '\n' || c == '\t' || c == ' '
def isDigit (c : Char) : Bool := '0' ≤ c && c ≤ '9'
def isHex (c : Char) : Bool := isDigit c || ('a' ≤ c && c ≤ 'f') || ('A' ≤ c && c ≤ 'F')
def isIdentStart (c : Char) : Bool := ('a' ≤ c && c ≤ 'z') || ('A' ≤ c && c ≤ 'Z') || c == '_' || 0x80 ≤ c.toNat
def isIdent (c : Char) : Bool := isIdentStart c || isDigit c || c == '-'
def isQuote (c : Char) : Bool := c == '"' || c == '\''
def isSign (c : Char) : Bool := c == '+' || c == '-'
def isExponent (c : Char) : Bool := c == 'e' || c == 'E'
def isNonPrintable (c : Char) : Bool := c.toNat ≤ 0x08 || c.toNat = 0x0B || (0x0E ≤ c.toNat && c.toNat ≤ 0x1F) || c.toNat = 0x7F

def replacement : Char := '\uFFFD'

/-- Input preprocessing: a line feed for each way to end a line, and no NUL. -/
def preprocess : Text → Text
 | [] => []
 | c :: s =>
  if c = '\r' ∧ s.head? = some '\n' then preprocess s
  else (if c = '\r' ∨ c = '\x0c' then '\n' else if c = '\x00' then replacement else c) :: preprocess s

def lower (s : Text) : Text := s.map Char.toLower

/-! ## Looking ahead -/

def validEscape (s : Text) : Bool := headIs (· == '\\') s && !headIs isNewline (s.drop 1)

def startsIdent (s : Text) : Bool :=
 headIs isIdentStart s || validEscape s ||
  (headIs (· == '-') s && (headIs (fun c => isIdentStart c || c == '-') (s.drop 1) || validEscape (s.drop 1)))

def startsUnsigned (s : Text) : Bool := headIs isDigit s || (headIs (· == '.') s && headIs isDigit (s.drop 1))

def startsNumber (s : Text) : Bool := startsUnsigned s || (headIs isSign s && startsUnsigned (s.drop 1))

def startsExponent (s : Text) : Bool :=
 headIs isExponent s && (headIs isDigit (s.drop 1) || (headIs isSign (s.drop 1) && headIs isDigit ((s.drop 1).drop 1)))

/-! ## Tokens -/

inductive Closing where
 | square
 | round
 | curly
 deriving DecidableEq

/-- A comment is kept where it stands, and `eof` is what there is at the end of the text. -/
inductive Token where
 | ident (name : Text)
 | function (name : Text)
 | atKeyword (name : Text)
 | hash (name : Text) (isId : Bool)
 | string (value : Text)
 | badString
 | url (value : Text)
 | badUrl
 | delim (c : Char)
 | number (repr : Text) (isInteger : Bool)
 | percentage (repr : Text)
 | dimension (repr : Text) (isInteger : Bool) (unit : Text)
 | whitespace
 | cdo
 | cdc
 | colon
 | semicolon
 | comma
 | opens (b : Closing)
 | closes (b : Closing)
 | comment
 | eof
 deriving DecidableEq

def symbolToken (c : Char) : Token :=
 if c = ':' then .colon
 else if c = ';' then .semicolon
 else if c = ',' then .comma
 else if c = '[' then .opens .square
 else if c = ']' then .closes .square
 else if c = '(' then .opens .round
 else if c = ')' then .closes .round
 else if c = '{' then .opens .curly
 else if c = '}' then .closes .curly
 else .delim c

/-! ### Escapes and names -/

def hexValue (c : Char) : ℕ := if isDigit c then c.toNat - 0x30 else if c.toNat < 0x61 then c.toNat - 0x37 else c.toNat - 0x57

def codePoint (digits : Text) : Char :=
 let n := digits.foldl (fun n c => n * 16 + hexValue c) 0
 if n = 0 ∨ ¬ n.isValidChar then replacement else Char.ofNat n

def hexRun (s : Text) : Text := (s.takeWhile isHex).take 6

def passing {α : Type} (p : Char → Bool) (a : α) : Reads Char α := fun s => if headIs p s then (a, s.drop 1) else (a, s)

def escaped : Reads Char Char := fun s =>
 if s.isEmpty then (replacement, s)
 else if headIs isHex s then passing isSpace (codePoint (hexRun s)) (s.drop (hexRun s).length)
 else one s

def identPart : Reads Char Char := fun s => if headIs isIdent s then one s else escaped (s.drop 1)

def identSequence : Reads Char Text := repeated (fun s => headIs isIdent s || validEscape s) identPart

/-! ### Strings -/

def stringEscape : Reads Char (Option Char) := fun s =>
 if s.isEmpty then (none, s)
 else if headIs isNewline s then (none, s.drop 1)
 else (some (escaped s).1, (escaped s).2)

def stringPart : Reads Char (Option Char) := fun s =>
 if headIs (· == '\\') s then stringEscape (s.drop 1) else (some (one s).1, (one s).2)

def stringToken (quote : Char) : Reads Char Token := fun s =>
 let (parts, rest) := repeated (headIs fun c => c != quote && !isNewline c) stringPart s
 if headIs isNewline rest then (.badString, rest) else (.string parts.reduceOption, rest.drop 1)

/-! ### Numbers -/

def fraction : Reads Char Bool := fun s =>
 if headIs (· == '.') s && headIs isDigit (s.drop 1) then (true, (s.drop 1).dropWhile isDigit) else (false, s)

def exponent : Reads Char Bool := fun s =>
 if startsExponent s then
  (true, (if headIs isSign (s.drop 1) then (s.drop 1).drop 1 else s.drop 1).dropWhile isDigit)
 else (false, s)

def number : Reads Char Bool := fun s =>
 let (hasFraction, rest) := fraction ((if headIs isSign s then s.drop 1 else s).dropWhile isDigit)
 let (hasExponent, rest) := exponent rest
 (!(hasFraction || hasExponent), rest)

def numericToken : Reads Char Token := fun s =>
 let (isInteger, rest) := number s
 let repr := taken s rest
 if startsIdent rest then (.dimension repr isInteger (identSequence rest).1, (identSequence rest).2)
 else if headIs (· == '%') rest then (.percentage repr, rest.drop 1)
 else (.number repr isInteger, rest)

/-! ### Urls -/

def isUrlChar (c : Char) : Bool :=
 !(c == ')' || isSpace c || isQuote c || c == '(' || isNonPrintable c || c == '\\')

def urlPart : Reads Char Char := fun s => if validEscape s then escaped (s.drop 1) else one s

def badUrl : Reads Char Token := fun s => (.badUrl, (repeated (headIs (· != ')')) urlPart s).2.drop 1)

/-- After `url(`. -/
def urlToken : Reads Char Token := fun s =>
 let (value, rest) := repeated (fun s => headIs isUrlChar s || validEscape s) urlPart (s.dropWhile isSpace)
 let rest := rest.dropWhile isSpace
 if rest.isEmpty || headIs (· == ')') rest then (.url value, rest.drop 1) else badUrl rest

/-- After `url(` too: with a quoted argument it is a function. -/
def urlFunction (name : Text) : Reads Char Token := fun s =>
 if headIs isQuote (s.dropWhile isSpace) then (.function name, s.drop ((s.takeWhile isSpace).length - 1)) else urlToken s

def identLike : Reads Char Token := fun s =>
 let (name, rest) := identSequence s
 if headIs (· == '(') rest then
  if lower name = ['u', 'r', 'l'] then urlFunction name (rest.drop 1) else (.function name, rest.drop 1)
 else (.ident name, rest)

/-! ### Any token -/

inductive Start where
 | comment
 | whitespace
 | string
 | hash
 | numeric
 | cdc
 | cdo
 | atKeyword
 | identLike
 | symbol
 deriving DecidableEq

def start (s : Text) : Start :=
 if ['/', '*'].isPrefixOf s then .comment
 else if headIs isSpace s then .whitespace
 else if headIs isQuote s then .string
 else if headIs (· == '#') s && (headIs isIdent (s.drop 1) || validEscape (s.drop 1)) then .hash
 else if startsNumber s then .numeric
 else if ['-', '-', '>'].isPrefixOf s then .cdc
 else if ['<', '!', '-', '-'].isPrefixOf s then .cdo
 else if headIs (· == '@') s && startsIdent (s.drop 1) then .atKeyword
 else if startsIdent s then .identLike
 else .symbol

def comment : Reads Char Token := fun s =>
 (.comment, (repeated (fun s => !s.isEmpty && ! ['*', '/'].isPrefixOf s) one (s.drop 2)).2.drop 2)

def hashToken : Reads Char Token := fun s => (.hash (identSequence s).1 (startsIdent s), (identSequence s).2)

def tokenAt : Start → Reads Char Token
 | .comment, s => comment s
 | .whitespace, s => (.whitespace, s.dropWhile isSpace)
 | .string, s => stringToken (one s).1 (one s).2
 | .hash, s => hashToken (s.drop 1)
 | .numeric, s => numericToken s
 | .cdc, s => (.cdc, s.drop 3)
 | .cdo, s => (.cdo, s.drop 4)
 | .atKeyword, s => (.atKeyword (identSequence (s.drop 1)).1, (identSequence (s.drop 1)).2)
 | .identLike, s => identLike s
 | .symbol, s => if s.isEmpty then (.eof, s) else (symbolToken (one s).1, (one s).2)

def token : Reads Char Token := fun s => tokenAt (start s) s

/-- A token and the part of the text that it was read from. -/
structure Lexeme where
 token : Token
 source : Text
 deriving DecidableEq

def lexeme : Reads Char Lexeme := fun s => (⟨(token s).1, taken s (token s).2⟩, (token s).2)

end MoltBrowser.CssSyntax
