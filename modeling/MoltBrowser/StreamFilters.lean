import MoltBrowser.DisplayText
import MoltBrowser.StopSequences

set_option autoImplicit false

/-!
# The filters of the token stream

Every decoded piece goes through these, in this order, before the stop strings are looked
for: the Harmony channels, Gemma's thoughts, the thinking tags, the assembling of characters.
-/
namespace MoltBrowser.StreamFilters

def isSpace (c : UInt8) : Bool := c == 32 || c == 10 || c == 13 || c == 9

/-- `std::string::find`. -/
def find (tag : Bytes) : Bytes → Option ℕ
 | [] => if tag = [] then some 0 else none
 | c :: s => if tag.isPrefixOf (c :: s) then some 0 else (find tag s).map (· + 1)

/-- `std::min` of two positions, where `npos` is the greatest. -/
def firstOf : Option ℕ → Option ℕ → Option ℕ
 | some i, some j => some (min i j)
 | some i, none => some i
 | none, j => j

/-- The longest suffix of `s` of at most `k` bytes that begins `tag`. -/
def partialTagFrom (s tag : Bytes) : ℕ → ℕ
 | 0 => 0
 | k + 1 => if s.drop (s.length - (k + 1)) = tag.take (k + 1) then k + 1 else partialTagFrom s tag k

def partialTagSuffix (s tag : Bytes) : ℕ := partialTagFrom s tag (min s.length (tag.length - 1))

/-! ## Harmony -/

inductive HarmonyState where
 | outside
 | channelName
 | body
 deriving DecidableEq

structure HarmonyChannelFilter where
 harmony : Bool := false
 state : HarmonyState := .outside
 channel : Bytes := []
 emit : Bool := false

def messageBoundary (piece : Bytes) : Bool :=
 piece == utf8 "<|start|>" || piece == utf8 "<|end|>" || piece == utf8 "<|return|>" ||
  piece == utf8 "<|constrain|>" || piece == utf8 "<|call|>"

def HarmonyChannelFilter.text (f : HarmonyChannelFilter) (piece : Bytes) : Bytes × HarmonyChannelFilter :=
 if !f.harmony then (piece, f)
 else if f.state = .channelName then ([], { f with channel := f.channel ++ piece })
 else if f.state = .body ∧ f.emit = true then (piece, f)
 else ([], f)

/-- Control tokens arrive as whole pieces; without a channel marker they are text. -/
def HarmonyChannelFilter.feed (f : HarmonyChannelFilter) (piece : Bytes) : Bytes × HarmonyChannelFilter :=
 if piece = utf8 "<|channel|>" then
  ([], { harmony := true, state := .channelName, channel := [], emit := false })
 else if piece = utf8 "<|message|>" ∧ f.harmony = true then
  ([], { f with state := .body, emit := (find "final" f.channel).isSome })
 else if messageBoundary piece ∧ f.harmony = true then
  ([], { f with state := .outside, emit := false })
 else f.text piece

/-! ## Gemma's thoughts -/

def openMarker : Bytes := "<|channel>"
def closeMarker : Bytes := "<channel|>"

structure GemmaThoughtFilter where
 depth : ℕ := 0
 stripLeadingWs : Bool := true
 pending : Bytes := []

def GemmaThoughtFilter.create (startInside : Bool) : GemmaThoughtFilter where
 depth := if startInside then 1 else 0

def GemmaThoughtFilter.emitVisible (f : GemmaThoughtFilter) (text : Bytes) : Bytes × GemmaThoughtFilter :=
 if f.stripLeadingWs then
  let text := text.dropWhile isSpace
  (text, { f with stripLeadingWs := text == [] })
 else (text, f)

def GemmaThoughtFilter.emitOutside (f : GemmaThoughtFilter) (text : Bytes) : Bytes × GemmaThoughtFilter :=
 if f.depth = 0 then f.emitVisible text else ([], f)

def GemmaThoughtFilter.drain (f : GemmaThoughtFilter) (pending : Bytes) : Bytes × GemmaThoughtFilter :=
 if _h : pending = [] then ([], { f with pending := [] })
 else
  let openPos := find openMarker pending
  match firstOf openPos (find closeMarker pending) with
  | none =>
   let hold := max (partialTagSuffix pending openMarker) (partialTagSuffix pending closeMarker)
   let (out, f) := f.emitOutside (pending.take (pending.length - hold))
   (out, { f with pending := pending.drop (pending.length - hold) })
  | some first =>
   let (out, f) := f.emitOutside (pending.take first)
   if openPos = some first then
    let (more, f) := { f with depth := f.depth + 1 }.drain (pending.drop (first + openMarker.length))
    (out ++ more, f)
   else
    let (more, f) := { f with depth := f.depth - 1 }.drain (pending.drop (first + closeMarker.length))
    (out ++ more, f)
termination_by pending.length
decreasing_by
 all_goals
  have := List.length_pos_iff.2 _h
  simp only [List.length_drop, openMarker, closeMarker]
  have : (utf8 "<|channel>").length = 10 := by decide
  have : (utf8 "<channel|>").length = 10 := by decide
  omega

def GemmaThoughtFilter.feed (f : GemmaThoughtFilter) (piece : Bytes) : Bytes × GemmaThoughtFilter :=
 f.drain (f.pending ++ piece)

def GemmaThoughtFilter.flush (f : GemmaThoughtFilter) : Bytes × GemmaThoughtFilter :=
 let (out, f') := f.emitOutside f.pending
 (out, { f' with pending := [] })

def GemmaThoughtFilter.forceClose (f : GemmaThoughtFilter) : GemmaThoughtFilter :=
 if f.depth = 0 then f else { f with depth := 0, pending := [] }

/-! ## Thinking tags -/

def openTag : Bytes := "<think>"
def closeTag : Bytes := "</think>"

structure ThinkTagFilter where
 inThink : Bool
 sawThink : Bool
 stripLeadingWs : Bool := true
 visibleStarted : Bool := false
 pending : Bytes := []

def ThinkTagFilter.create (startInside : Bool) : ThinkTagFilter where
 inThink := startInside
 sawThink := startInside

def ThinkTagFilter.emitVisible (f : ThinkTagFilter) (text : Bytes) : Bytes × ThinkTagFilter :=
 let stripped := if f.stripLeadingWs then text.dropWhile isSpace else text
 (stripped, { f with
  stripLeadingWs := f.stripLeadingWs && stripped == []
  visibleStarted := f.visibleStarted || stripped.any fun c => !isSpace c })

/-- Once the answer has started, tags are text like any other. -/
def ThinkTagFilter.drain (f : ThinkTagFilter) (pending : Bytes) : Bytes × ThinkTagFilter :=
 if _h : pending = [] then ([], { f with pending := [] })
 else if f.inThink then
  match find closeTag pending with
  | some pos => { f with inThink := false, stripLeadingWs := true }.drain (pending.drop (pos + closeTag.length))
  | none =>
   ([], { f with pending := pending.drop (pending.length - partialTagSuffix pending closeTag) })
 else if _hv : f.visibleStarted then
  let (out, f) := f.emitVisible pending
  (out, { f with pending := [] })
 else
  let openPos := find openTag pending
  match firstOf openPos (find closeTag pending) with
  | some first =>
   let (before, g) := f.emitVisible (pending.take first)
   if _hs : g.visibleStarted then
    let (more, g) := g.drain (pending.drop first)
    (before ++ more, g)
   else if openPos = some first then
    let (more, g) := { g with inThink := true, sawThink := true }.drain (pending.drop (first + openTag.length))
    (before ++ more, g)
   else
    let (more, g) := { g with stripLeadingWs := true }.drain (pending.drop (first + closeTag.length))
    (before ++ more, g)
  | none =>
   let hold := max (partialTagSuffix pending openTag) (partialTagSuffix pending closeTag)
   let (out, g) := f.emitVisible (pending.take (pending.length - hold))
   if _hs : g.visibleStarted ∧ 0 < hold then
    let (more, g) := g.drain (pending.drop (pending.length - hold))
    (out ++ more, g)
   else (out, { g with pending := pending.drop (pending.length - hold) })
termination_by pending.length + (if f.visibleStarted then 0 else 1)
decreasing_by
 all_goals
  have hpos := List.length_pos_iff.2 _h
  have hopen : openTag.length = 7 := by decide
  have hclose : closeTag.length = 8 := by decide
  simp only [List.length_drop]
 · split <;> omega
 · rw [if_neg _hv, if_pos _hs]
   omega
 · rw [if_neg _hv, if_neg _hs]
   omega
 · rw [if_neg _hv, if_neg _hs]
   omega
 · rw [if_neg _hv, if_pos _hs.1]
   omega

def ThinkTagFilter.feed (f : ThinkTagFilter) (piece : Bytes) : Bytes × ThinkTagFilter :=
 f.drain (f.pending ++ piece)

def ThinkTagFilter.flush (f : ThinkTagFilter) : Bytes × ThinkTagFilter :=
 if f.inThink then ([], { f with pending := [] })
 else
  let (out, g) := f.emitVisible f.pending
  (out, { g with pending := [] })

/-! ## Whole characters -/

/-- The length of the longest prefix that doesn't end inside a character. -/
def utf8SafePrefixLength (s : Bytes) : ℕ :=
 let i := s.length - (s.reverse.takeWhile isContinuation).length
 match i with
 | 0 => s.length
 | j + 1 =>
  let lead := s.getD j 0
  let need :=
   if lead < 0x80 then 1
   else if lead &&& 0xE0 = 0xC0 then 2
   else if lead &&& 0xF0 = 0xE0 then 3
   else if lead &&& 0xF8 = 0xF0 then 4
   else 1
  if need ≤ s.length - j then s.length else j

structure Utf8Assembler where
 pending : Bytes := []

def Utf8Assembler.push (f : Utf8Assembler) (bytes : Bytes) : Bytes × Utf8Assembler :=
 let pending := f.pending ++ bytes
 let safe := utf8SafePrefixLength pending
 (pending.take safe, ⟨pending.drop safe⟩)

def Utf8Assembler.flush (f : Utf8Assembler) : Bytes × Utf8Assembler := (f.pending, {})

end MoltBrowser.StreamFilters
