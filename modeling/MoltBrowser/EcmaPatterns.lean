import MoltBrowser.TextReaders

set_option autoImplicit false

/-!
# The patterns of regular expressions in ECMAScript

The grammar of Annex B, without the flags `u` and `v`, as a relation of a text, what is read off its front and what is left. Early
errors only refuse patterns, and aren't part of it.
-/
namespace MoltBrowser.EcmaPatterns
open TextReaders (headIs)

abbrev Text := List Char

inductive Leaf where
 | character
 | assertion
 | backreference
 deriving DecidableEq

inductive GroupKind where
 | capturing
 | nonCapturing
 | lookahead
 | lookbehind
 deriving DecidableEq

inductive Regex where
 | empty
 | leaf (l : Leaf)
 | group (kind : GroupKind) (body : Regex)
 | rep (body : Regex) (min : ℕ) (max : Option ℕ)
 | seq (a b : Regex)
 | alt (a b : Regex)
 deriving DecidableEq

/-! ## What a pattern has in it -/

def repeats (max : Option ℕ) : Bool := max != some 0 && max != some 1

@[grind =] def Regex.hasRepeat : Regex → Bool
 | empty | leaf _ => false
 | group _ body => body.hasRepeat
 | rep body _ max => repeats max || body.hasRepeat
 | seq a b | alt a b => a.hasRepeat || b.hasRepeat

@[grind =] def Regex.hasAlternation : Regex → Bool
 | empty | leaf _ => false
 | group _ body => body.hasAlternation
 | rep body _ _ => body.hasAlternation
 | seq a b => a.hasAlternation || b.hasAlternation
 | alt _ _ => true

def Regex.hasBackreference : Regex → Bool
 | empty => false
 | leaf l => l == .backreference
 | group _ body => body.hasBackreference
 | rep body _ _ => body.hasBackreference
 | seq a b | alt a b => a.hasBackreference || b.hasBackreference

@[grind =] def Regex.unbounded : Regex → ℕ
 | empty | leaf _ => 0
 | group _ body => body.unbounded
 | rep body _ max => body.unbounded + if max = none then 1 else 0
 | seq a b | alt a b => a.unbounded + b.unbounded

/-- What is repeated has neither a repetition nor an alternation in it. -/
def Regex.Simple : Regex → Prop
 | empty | leaf _ => True
 | group _ body => body.Simple
 | rep body _ max => body.Simple ∧ (repeats max = true → body.hasRepeat = false ∧ body.hasAlternation = false)
 | seq a b | alt a b => a.Simple ∧ b.Simple

/-! ## Quantifiers -/

def numberValue (digits : Text) : ℕ := digits.foldl (fun n c => n * 10 + (c.toNat - 0x30)) 0

/-- `{n}`, `{n,}` or `{n,m}`: the bounds, and what is left. -/
def braced : Text → Option (ℕ × Option ℕ × Text)
 | '{' :: s =>
  let least := s.takeWhile Char.isDigit
  if least = [] then none
  else match s.dropWhile Char.isDigit with
   | '}' :: rest => some (numberValue least, some (numberValue least), rest)
   | ',' :: s =>
    let most := s.takeWhile Char.isDigit
    match s.dropWhile Char.isDigit with
    | '}' :: rest => some (numberValue least, if most = [] then none else some (numberValue most), rest)
    | _ => none
   | _ => none
 | _ => none

def quantifierPrefix : Text → Option (ℕ × Option ℕ × Text)
 | '*' :: rest => some (0, none, rest)
 | '+' :: rest => some (1, none, rest)
 | '?' :: rest => some (0, some 1, rest)
 | s => braced s

def quantifier (s : Text) : Option (ℕ × Option ℕ × Text) :=
 (quantifierPrefix s).map fun r => (r.1, r.2.1, if headIs (· == '?') r.2.2 then r.2.2.drop 1 else r.2.2)

/-! ## Escapes and classes -/

def isHexDigit (c : Char) : Bool := c.isDigit || ('a' ≤ c && c ≤ 'f') || ('A' ≤ c && c ≤ 'F')
def isOctalDigit (c : Char) : Bool := '0' ≤ c && c ≤ '7'

/-- After a backslash outside classes. The pattern has this many groups that capture, and names of groups or not. Where an escape has a
longer reading too, the grammar prefers it; here both are readings. -/
inductive Escape (groups : ℕ) (named : Bool) : Text → Leaf → Text → Prop
 | decimal {c : Char} {digits rest : Text} (hc : c.isDigit = true) (hzero : c ≠ '0') (hdigits : ∀ d ∈ digits, d.isDigit = true)
   (hend : headIs Char.isDigit rest = false) (hgroups : numberValue (c :: digits) ≤ groups) :
   Escape groups named (c :: (digits ++ rest)) .backreference rest
 | name {name rest : Text} (hnamed : named = true) (hname : '>' ∉ name) :
   Escape groups named ('k' :: '<' :: (name ++ '>' :: rest)) .backreference rest
 | control {c : Char} {rest : Text} (h : c.isAlpha = true) : Escape groups named ('c' :: c :: rest) .character rest
 | hex {a b : Char} {rest : Text} (h : ∀ c ∈ [a, b], isHexDigit c = true) : Escape groups named ('x' :: a :: b :: rest) .character rest
 | unicode {a b c d : Char} {rest : Text} (h : ∀ x ∈ [a, b, c, d], isHexDigit x = true) :
   Escape groups named ('u' :: a :: b :: c :: d :: rest) .character rest
 | octal {c : Char} {digits rest : Text} (hc : isOctalDigit c = true) (hlen : digits.length ≤ 2)
   (hdigits : ∀ d ∈ digits, isOctalDigit d = true) : Escape groups named (c :: (digits ++ rest)) .character rest
 /-- A class, a control character or the character itself. -/
 | single {c : Char} {rest : Text} (hc : c ∉ ['b', 'B', 'c']) (hk : named = true → c ≠ 'k') : Escape groups named (c :: rest) .character rest

/-- The contents of a class, to the bracket that ends it. -/
inductive ClassContents : Text → Text → Prop
 | close {rest : Text} : ClassContents (']' :: rest) rest
 | character {c : Char} {s rest : Text} (hclose : c ≠ ']') (hescape : c ≠ '\\') (h : ClassContents s rest) : ClassContents (c :: s) rest
 | escape {c : Char} {s rest : Text} (h : ClassContents s rest) : ClassContents ('\\' :: c :: s) rest

inductive Class : Text → Text → Prop
 | plain {s rest : Text} (hnegated : headIs (· == '^') s = false) (h : ClassContents s rest) : Class s rest
 | negated {s rest : Text} (h : ClassContents s rest) : Class ('^' :: s) rest

def syntaxCharacters : List Char := ['^', '$', '\\', '.', '*', '+', '?', '(', ')', '[', '|']

/-! ## Patterns -/

inductive Part where
 | disjunction
 | alternative
 | term
 | assertion
 | quantifiable
 | atom
 deriving DecidableEq

section

variable (groups : ℕ) (named : Bool)

inductive Reads : Part → Text → Regex → Text → Prop
 | one {s rest : Text} {a : Regex} (h : Reads .alternative s a rest) : Reads .disjunction s a rest
 | or {s t rest : Text} {a b : Regex} (ha : Reads .alternative s a ('|' :: t)) (hb : Reads .disjunction t b rest) :
   Reads .disjunction s (.alt a b) rest
 | none {s : Text} : Reads .alternative s .empty s
 | next {s t rest : Text} {a b : Regex} (ha : Reads .term s a t) (hb : Reads .alternative t b rest) :
   Reads .alternative s (.seq a b) rest
 | assertion {s rest : Text} {a : Regex} (h : Reads .assertion s a rest) : Reads .term s a rest
 | quantifiedAssertion {s t rest : Text} {a : Regex} {min : ℕ} {max : Option ℕ} (ha : Reads .quantifiable s a t)
   (hquantifier : quantifier t = some (min, max, rest)) : Reads .term s (.rep a min max) rest
 | atom {s rest : Text} {a : Regex} (h : Reads .atom s a rest) : Reads .term s a rest
 | quantified {s t rest : Text} {a : Regex} {min : ℕ} {max : Option ℕ} (ha : Reads .atom s a t)
   (hquantifier : quantifier t = some (min, max, rest)) : Reads .term s (.rep a min max) rest
 | bound {c : Char} {rest : Text} (h : c = '^' ∨ c = '$') : Reads .assertion (c :: rest) (.leaf .assertion) rest
 | wordBoundary {c : Char} {rest : Text} (h : c = 'b' ∨ c = 'B') : Reads .assertion ('\\' :: c :: rest) (.leaf .assertion) rest
 | quantifiable {s rest : Text} {a : Regex} (h : Reads .quantifiable s a rest) : Reads .assertion s a rest
 | lookbehind {c : Char} {s rest : Text} {a : Regex} (hc : c = '=' ∨ c = '!') (h : Reads .disjunction s a (')' :: rest)) :
   Reads .assertion ('(' :: '?' :: '<' :: c :: s) (.group .lookbehind a) rest
 | lookahead {c : Char} {s rest : Text} {a : Regex} (hc : c = '=' ∨ c = '!') (h : Reads .disjunction s a (')' :: rest)) :
   Reads .quantifiable ('(' :: '?' :: c :: s) (.group .lookahead a) rest
 | dot {rest : Text} : Reads .atom ('.' :: rest) (.leaf .character) rest
 | escape {s rest : Text} {l : Leaf} (h : Escape groups named s l rest) : Reads .atom ('\\' :: s) (.leaf l) rest
 | backslash {rest : Text} (h : headIs (· == 'c') rest = true) : Reads .atom ('\\' :: rest) (.leaf .character) rest
 | characterClass {s rest : Text} (h : Class s rest) : Reads .atom ('[' :: s) (.leaf .character) rest
 | capturing {s rest : Text} {a : Regex} (hs : headIs (· == '?') s = false) (h : Reads .disjunction s a (')' :: rest)) :
   Reads .atom ('(' :: s) (.group .capturing a) rest
 | named {name s rest : Text} {a : Regex} (hname : '>' ∉ name) (hfirst : headIs (fun c => c == '=' || c == '!') name = false)
   (h : Reads .disjunction s a (')' :: rest)) :
   Reads .atom ('(' :: '?' :: '<' :: (name ++ '>' :: s)) (.group .capturing a) rest
 | nonCapturing {flags s rest : Text} {a : Regex} (hflags : ∀ c ∈ flags, c ∈ ['i', 'm', 's', '-'])
   (h : Reads .disjunction s a (')' :: rest)) :
   Reads .atom ('(' :: '?' :: (flags ++ ':' :: s)) (.group .nonCapturing a) rest
 | character {c : Char} {rest : Text} (hc : c ∉ syntaxCharacters) (hbraced : braced (c :: rest) = Option.none) :
   Reads .atom (c :: rest) (.leaf .character) rest

def Pattern (s : Text) (r : Regex) : Prop := Reads groups named .disjunction s r []

end

end MoltBrowser.EcmaPatterns
