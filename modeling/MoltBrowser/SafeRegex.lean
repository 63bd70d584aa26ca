import MoltBrowser.EcmaPatterns
import MoltBrowser.HideStylesheet

set_option autoImplicit false

/-! # The regular expressions that filter lists may have -/
namespace MoltBrowser.Procedural
open EcmaPatterns
open TextReaders (headIs)
open HideStylesheet (bytes)

def maxRegexLen : ℕ := 512
def maxUnboundedQuantifiers : ℕ := 2

/-! ## What the code computes -/

/-- `str::parse::<u64>`: a plus sign may come first. -/
def parseU64 (s : Text) : Option ℕ :=
 let digits := if headIs (· == '+') s then s.drop 1 else s
 if digits.isEmpty || !digits.all Char.isDigit || 2 ^ 64 ≤ numberValue digits then none else some (numberValue digits)

/-- `{n}`, `{n,}` or `{n,m}` at the start: the bounds and the length. -/
def parseBraces (s : Text) : Option (ℕ × Option ℕ × ℕ) :=
 if '}' ∈ s then
  let inner := (s.takeWhile (· != '}')).drop 1
  let len := (s.takeWhile (· != '}')).length + 1
  if ',' ∈ inner then
   let least := parseU64 (inner.takeWhile (· != ','))
   let most := (inner.dropWhile (· != ',')).drop 1
   if most = [] then least.map fun min => (min, none, len)
   else least.bind fun min => (parseU64 most).map fun max => (min, some max, len)
  else (parseU64 inner).map fun n => (n, some n, len)
 else none

/-- The open groups, innermost first: whether a repetition and whether an alternation is in each. -/
structure RegexScan where
 stack : List (Bool × Bool) := [(false, false)]
 /-- What is in the group that was just closed, if the last atom was one. -/
 lastGroup : Option (Bool × Bool) := none
 haveAtom : Bool := false
 unbounded : ℕ := 0
 deriving DecidableEq

namespace RegexScan

def atom (q : RegexScan) : RegexScan := { q with haveAtom := true, lastGroup := none }

def opened (q : RegexScan) : RegexScan := { q with stack := (false, false) :: q.stack, haveAtom := false, lastGroup := none }

def closed (q : RegexScan) : Option RegexScan :=
 match q.stack with
 | inner :: parent :: below =>
  some { q with stack := (parent.1 || inner.1, parent.2 || inner.2) :: below, lastGroup := some inner, haveAtom := true }
 | _ => none

def alternated (q : RegexScan) : RegexScan :=
 { q with stack := q.stack.modifyHead fun top => (top.1, true), haveAtom := false, lastGroup := none }

def quantified (q : RegexScan) (repeats isUnbounded : Bool) : Option RegexScan :=
 if !q.haveAtom then none
 else if repeats && q.lastGroup.any fun inner => inner.1 || inner.2 then none
 else if isUnbounded && decide (maxUnboundedQuantifiers < q.unbounded + 1) then none
 else
  some
   { q with
     stack := if repeats then q.stack.modifyHead fun top => (true, top.2) else q.stack
     unbounded := if isUnbounded then q.unbounded + 1 else q.unbounded
     haveAtom := false
     lastGroup := none }

end RegexScan

def skipClass : Text → Option Text
 | [] => none
 | [c] => if c = ']' then some [] else none
 | c :: d :: s => if c = ']' then some (d :: s) else if c = '\\' then skipClass s else skipClass (d :: s)

/-- After the bracket that opens it; a bracket that comes first is part of the class. -/
def classEnd (s : Text) : Option Text :=
 let s := if headIs (· == '^') s then s.drop 1 else s
 skipClass (if headIs (· == ']') s then s.drop 1 else s)

def groupStart : Text → Option Text
 | '?' :: ':' :: s | '?' :: '=' :: s | '?' :: '!' :: s => some s
 | '?' :: '<' :: '=' :: s | '?' :: '<' :: '!' :: s => some s
 | '?' :: '<' :: s => some ((s.dropWhile (· != '>')).drop 1)
 | '?' :: _ => none
 | s => some s

/-- Whether it repeats, whether it is unbounded, and its length; nothing where the quantifier is refused. -/
inductive Quantity where
 | refused
 | literal
 | quantity (repeats isUnbounded : Bool) (len : ℕ)

def quantityAt (s : Text) : Quantity :=
 if headIs (· == '?') s then .quantity false false 1
 else if headIs (fun c => c == '*' || c == '+') s then .quantity true true 1
 else
  match parseBraces s with
  | some (min, max, len) => if max.any fun m => m < min then .refused else .quantity (max != some 0 && max != some 1) max.isNone len
  | none => .literal

def scanStep (q : RegexScan) : Text → Option (RegexScan × Text)
 | [] => none
 | c :: s =>
  if c = '\\' then
   match s with
   | [] => none
   | n :: s => if (n.isDigit && n != '0') || n == 'k' then none else some (q.atom, s)
  else if c = '[' then (classEnd s).map fun rest => (q.atom, rest)
  else if c = '(' then (groupStart s).map fun rest => (q.opened, rest)
  else if c = ')' then q.closed.map fun q => (q, s)
  else if c = '|' then some (q.alternated, s)
  else if c = '*' || c = '+' || c = '?' || c = '{' then
   match quantityAt (c :: s) with
   | .refused => none
   | .literal => some (q.atom, s)
   | .quantity repeats isUnbounded len =>
    let rest := (c :: s).drop len
    (q.quantified repeats isUnbounded).map fun q => (q, if headIs (· == '?') rest then rest.drop 1 else rest)
  else some (q.atom, s)

def scanFrom : ℕ → RegexScan → Text → Option RegexScan
 | _, q, [] => some q
 | 0, _, _ => none
 | fuel + 1, q, s => (scanStep q s).bind fun r => scanFrom fuel r.1 r.2

def isSafeRegex (src : Text) : Bool :=
 if src.isEmpty || maxRegexLen < (bytes src).length then false
 else
  match scanFrom src.length {} src with
  | none => false
  | some q => q.stack.length = 1

/-! ## The number of turns -/

variable {q q' : RegexScan} {s s' : Text}

end MoltBrowser.Procedural
