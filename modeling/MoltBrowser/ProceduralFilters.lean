import MoltBrowser.SafeRegex
import MoltBrowser.SelectorScanners

set_option autoImplicit false

/-! # The procedural filters of filter lists -/
namespace MoltBrowser.Procedural
open ByteTexts
open FilterLists (trim isAsciiWhitespace)
open CssSyntax (lower)
open TextReaders (headIs)

def maxSelectorLen : ℕ := 2048
def maxArgLen : ℕ := 1024
def maxDepth : ℕ := 3
def maxOps : ℕ := 24
def maxUpward : ℕ := 255
def maxTextLength : ℕ := 100000
def maxWatched : ℕ := 16
def maxNameLen : ℕ := 128

inductive Matcher where
 /-- What the text has in it. -/
 | text (s : Text)
 /-- The whole text. -/
 | exact (s : Text)
 | re (source flags : Text)

inductive Op where
 | cssSelector (arg : Text)
 | hasText (arg : Matcher)
 | minTextLength (n : ℕ)
 | upward (n : ℕ)
 | upwardCss (css : Text)
 | xpath (expr : Text)
 | matchesAttr (name : Matcher) (value : Option Matcher)
 /-- Of the element, or of what is before or after its contents: the name of the operator says which. -/
 | matchesCss (name : Text) (prop : Text) (value : Matcher)
 | has (inner : List Op)
 | not (inner : List Op)

structure Filter where
 ops : List Op := []
 /-- Where the page's path matches only. -/
 path : Option Matcher := none
 /-- The attributes that are watched. -/
 watch : List Text := []

/-! ## Operators whose argument is a string -/

inductive StringOp where
 | op (o : Op)
 | path (m : Matcher)
 | watch (attrs : List Text)

def isAlphanumericByte (c : UInt8) : Bool := (0x30 ≤ c && c ≤ 0x39) || (0x41 ≤ c && c ≤ 0x5A) || (0x61 ≤ c && c ≤ 0x7A)

def isAttrName (s : Text) : Bool :=
 !s.isEmpty && decide ((bytes s).length ≤ maxNameLen) &&
  (bytes s).all fun b => isAlphanumericByte b || b == 0x2D || b == 0x5F || b == 0x3A || b == 0x2E

def unquote (arg : Text) : Run Text :=
 if 2 ≤ (bytes arg).length ∧ ((arg.head? = some '"' ∧ arg.getLast? = some '"') ∨ (arg.head? = some '\'' ∧ arg.getLast? = some '\'')) then
  slice arg 1 ((bytes arg).length - 1)
 else .ok arg

/-- `i`, `m`, `s`, `u`, `g` and `y` -/
def isFlag (b : UInt8) : Bool := b == 0x69 || b == 0x6D || b == 0x73 || b == 0x75 || b == 0x67 || b == 0x79

def keptFlags : List Char := ['i', 'm', 's', 'u']

/-- A regular expression between slashes with flags, or what it is otherwise. -/
def regexMatcher (arg : Text) (plain : Matcher) : Run (Option Matcher) :=
 if 2 ≤ (bytes arg).length ∧ headIs (· == '/') arg then
  match rfind arg '/' with
  | some last =>
   if 0 < last then do
    let source ← slice arg 1 last
    let flags ← slice arg (last + 1) (bytes arg).length
    .ok <|
     if (bytes flags).all isFlag then
      if isSafeRegex source then some (.re source (flags.filter keptFlags.contains)) else none
     else some plain
   else .ok (some plain)
  | none => .ok (some plain)
 else .ok (some plain)

def textMatcher (arg : Text) (exact : Bool) : Run (Option Matcher) :=
 if maxArgLen < (bytes arg).length then .ok none
 else do
  let arg ← (if exact then unquote arg else .ok arg : Run Text)
  regexMatcher arg (if exact then .exact arg else .text arg)

def matchesAttr (arg : Text) : Run (Option StringOp) := do
 let (name, value) ← splitKeyValue arg
 match ← textMatcher name true with
 | none => .ok none
 | some name =>
  match value with
  | none => .ok (some (.op (.matchesAttr name none)))
  | some value => do
   match ← textMatcher value true with
   | none => .ok none
   | some value => .ok (some (.op (.matchesAttr name (some value))))

def matchesCss (name arg : Text) : Run (Option StringOp) :=
 if ':' ∉ arg then .ok none
 else
  let prop := lower (trim (arg.takeWhile (· != ':')))
  let value := (arg.dropWhile (· != ':')).drop 1
  if prop.isEmpty || !(bytes prop).all fun b => isAlphanumericByte b || b == 0x2D then .ok none
  else do
   let value ← textMatcher (trim value) true
   .ok (value.map fun value => .op (.matchesCss name prop value))

def upward (name arg : Text) : Run (Option StringOp) :=
 match parseU64 arg with
 | some n => .ok (if n = 0 ∨ maxUpward < n then none else some (.op (.upward n)))
 | none =>
  if name = "upward".toList ∧ arg ≠ [] then do
   let procedural ← hasProceduralSyntax arg
   .ok (if procedural then none else some (.op (.upwardCss arg)))
  else .ok none

def watchAttr (arg : Text) : Option StringOp :=
 let attrs := ((arg.splitOn ',').map trim).filter fun a => !a.isEmpty
 if attrs.isEmpty || decide (maxWatched < attrs.length) || !attrs.all isAttrName then none else some (.watch attrs)

def stringOp (name arg : Text) : Run (Option StringOp) :=
 let arg := trim arg
 if name = "has-text".toList ∨ name = "-abp-contains".toList ∨ name = "contains".toList then do
  let m ← textMatcher arg false
  .ok (m.map fun m => .op (.hasText m))
 else if name = "min-text-length".toList then
  .ok ((parseU64 arg).bind fun n => if n ≤ maxTextLength then some (.op (.minTextLength n)) else none)
 else if name = "upward".toList ∨ name = "nth-ancestor".toList then upward name arg
 else if name = "xpath".toList then do
  let expr ← unquote arg
  .ok (if expr.isEmpty then none else some (.op (.xpath expr)))
 else if name = "matches-attr".toList then matchesAttr arg
 else if name = "matches-css".toList ∨ name = "matches-css-before".toList ∨ name = "matches-css-after".toList then matchesCss name arg
 else if name = "matches-path".toList then do
  let m ← textMatcher arg false
  .ok (m.map .path)
 else if name = "watch-attr".toList then .ok (watchAttr arg)
 else .ok none

/-! ## Plain parts -/

/-- Where the first plain part of a selector starts from. -/
inductive Context where
 | document
 | relative
 | selfElement
 deriving DecidableEq

def isCombinator (c : Char) : Bool := c == '>' || c == '+' || c == '~'

def endCompound (css : Text) : Text :=
 if css.getLast?.any (fun c => isAsciiWhitespace c || isCombinator c) && !(trim css).isEmpty then css ++ ['*'] else css

/-- The pending text as a part of a selector; nothing where it is refused. -/
def cssPart (isFirst : Bool) (text : Text) (ctx : Context) : Option Text :=
 let trimmed := trim text
 let combined := headIs isCombinator trimmed
 if isFirst then
  match ctx with
  | .document => if combined then none else some trimmed
  | .relative => some (if combined then trimmed else ' ' :: trimmed)
  | .selfElement => some trimmed
 else some (if combined then trimmed else if headIs isAsciiWhitespace text then ' ' :: trimmed else trimmed)

def flushCssFrom : ℕ → List Op → Text → Context → Run (Option (List Op))
 | 0, _, _, _ => .error .fuel
 | fuel + 1, ops, text, ctx =>
  if (trim text).isEmpty then .ok (some ops)
  else
   match cssPart ops.isEmpty text ctx with
   | none => .ok none
   | some part =>
    if maxSelectorLen < (bytes part).length then .ok none
    else if headIs (fun c => c == '+' || c == '~') part then do
     let (step, rest) ← splitFirstCompound part
     if (trim rest).isEmpty then .ok (some (ops ++ [.cssSelector step]))
     else flushCssFrom fuel (ops ++ [.cssSelector step]) rest ctx
    else .ok (some (ops ++ [.cssSelector part]))

def flushCss (ops : List Op) (text : Text) (ctx : Context) : Run (Option (List Op)) := flushCssFrom (text.length + 1) ops text ctx

/-! ## Selectors -/

structure Parse where
 ops : List Op := []
 css : Text := []
 segStart : ℕ := 0
 i : ℕ := 0
 filter : Filter := {}

def Parse.next (p : Parse) (i : ℕ) : Option Parse := if maxOps < p.ops.length then none else some { p with i }

abbrev Inner := Text → ℕ → Context → Filter → Run (Option (List Op × Filter))

/-- The plain text of an operator that has nothing procedural in it, by the name that CSS has for it. -/
def nativeCss (sel name arg : Text) (i close : ℕ) : Run Text :=
 if name = "has".toList ∨ name = "not".toList then slice sel i (close + 1)
 else if name = "-abp-has".toList ∨ name = "if".toList then .ok (":has(".toList ++ arg ++ ")".toList)
 else .ok (":not(:has(".toList ++ arg ++ "))".toList)

def startsWithCss : List Op → Bool
 | .cssSelector _ :: _ => true
 | _ => false

def innerContext (name : Text) : Context := if name = "not".toList then .selfElement else .relative

def innerOps (name : Text) (inner : List Op) : List Op :=
 if innerContext name = .relative ∧ startsWithCss inner = false then .cssSelector " *".toList :: inner else inner

def selectorOp (name : Text) (inner : List Op) : Op :=
 if name = "not".toList then .not (innerOps name inner)
 else if name = "if-not".toList then .not [.has (innerOps name inner)]
 else .has (innerOps name inner)

def parseSelectorOp (inner : Inner) (sel : Text) (depth : ℕ) (ctx : Context) (p : Parse) (name arg : Text) (close : ℕ) :
  Run (Option Parse) := do
 let segment ← slice sel p.segStart p.i
 let css := p.css ++ segment
 if ← hasProceduralSyntax arg then do
  match ← flushCss p.ops (endCompound css) ctx with
  | none => .ok none
  | some ops => do
   match ← inner arg (depth + 1) (innerContext name) p.filter with
   | none => .ok none
   | some (innerOps, filter) =>
    .ok (some { ops := ops ++ [selectorOp name innerOps], css := [], segStart := close + 1, i := close + 1, filter })
 else do
  let plain ← nativeCss sel name arg p.i close
  .ok (some { p with css := css ++ plain, segStart := close + 1, i := close + 1 })

def addStringOp (depth : ℕ) (ops : List Op) (filter : Filter) : StringOp → Option (List Op × Filter)
 | .op o => some (ops ++ [o], filter)
 | .path m => if depth ≠ 0 ∨ filter.path.isSome then none else some (ops, { filter with path := some m })
 | .watch attrs => some (ops, { filter with watch := filter.watch ++ attrs })

def parseStringOp (sel : Text) (depth : ℕ) (ctx : Context) (p : Parse) (name arg : Text) (close : ℕ) : Run (Option Parse) := do
 let segment ← slice sel p.segStart p.i
 match ← flushCss p.ops (endCompound (p.css ++ segment)) ctx with
 | none => .ok none
 | some ops => do
  let op ← stringOp name arg
  .ok ((op.bind (addStringOp depth ops p.filter)).map fun r =>
   { ops := r.1, css := [], segStart := close + 1, i := close + 1, filter := r.2 })

def parseFunction (inner : Inner) (sel : Text) (depth : ℕ) (ctx : Context) (p : Parse) (name arg : Text) (close : ℕ) :
  Run (Option Parse) :=
 if maxArgLen < (bytes arg).length ∨ name ∈ unsupportedOps then .ok none
 else if name ∈ selectorOps then parseSelectorOp inner sel depth ctx p name arg close
 else if name ∈ stringOps then parseStringOp sel depth ctx p name arg close
 else do
  let procedural ← hasProceduralSyntax arg
  .ok (if procedural then none else p.next (close + 1))

def parseTurn (inner : Inner) (sel : Text) (depth : ℕ) (ctx : Context) (p : Parse) : Run (Option Parse) := do
 let b := bytes sel
 let c ← byteAt b p.i
 if c = 0x5C then .ok (p.next (p.i + 2))
 else if c = 0x5B then do
  let past ← skipBrackets b p.i
  .ok (past.bind p.next)
 else if c = 0x3A then
  if b[p.i + 1]? = some 0x3A then .ok (p.next (p.i + 2))
  else do
   let start := p.i + 1
   let j ← skipWhile isIdentByte b (b.length + 1) start
   if ← isAt b j 0x28 then do
    match ← findCloseParen b j with
    | none => .ok none
    | some close => do
     let name ← slice sel start j
     let arg ← slice sel (j + 1) close
     parseFunction inner sel depth ctx p name arg close
   else .ok (some { p with i := max j (p.i + 1) })
 else .ok (p.next (p.i + 1))

def parseEnd (sel : Text) (ctx : Context) (p : Parse) : Run (Option (List Op × Filter)) := do
 let segment ← slice sel (min p.segStart (bytes sel).length) (bytes sel).length
 let ops ← flushCss p.ops (p.css ++ segment) ctx
 .ok (ops.bind fun ops => if maxOps < ops.length then none else some (ops, p.filter))

def parseFrom : ℕ → Text → ℕ → Context → Parse → Run (Option (List Op × Filter))
 | 0, _, _, _, _ => .error .fuel
 | fuel + 1, sel, depth, ctx, p =>
  if p.i < (bytes sel).length then do
   let inner : Inner := fun arg depth ctx filter =>
    if maxDepth < depth then .ok none else parseFrom fuel arg depth ctx { filter }
   match ← parseTurn inner sel depth ctx p with
   | none => .ok none
   | some p => parseFrom fuel sel depth ctx p
  else parseEnd sel ctx p

def parseSelector (sel : Text) (depth : ℕ) (ctx : Context) (filter : Filter) : Run (Option (List Op × Filter)) :=
 if maxDepth < depth then .ok none else parseFrom ((bytes sel).length + 1) sel depth ctx { filter }

def parseFilter (selector : Text) : Run (Option Filter) :=
 if maxSelectorLen < (bytes selector).length then .ok none
 else do
  let parsed ← parseSelector selector 0 .document {}
  .ok (parsed.bind fun r => if r.1.isEmpty then none else some { r.2 with ops := r.1 })

end MoltBrowser.Procedural
