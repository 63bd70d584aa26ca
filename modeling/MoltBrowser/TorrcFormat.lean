import MoltBrowser.Bytes

set_option autoImplicit false

/-!
# The lines of a torrc

How a configuration text of Tor's splits into keywords and their values: a value is raw, up to a
comment or the end of its line, which a backslash at its end continues, or quoted, with escapes.
-/
namespace MoltBrowser.TorrcFormat
open List

def isSpace (c : UInt8) : Bool := c = 0x20 || (0x09 ≤ c && c ≤ 0x0D)

def isBlank (c : UInt8) : Bool := c = 0x20 || c = 0x09

/-- The text from its first keyword on; `comment` within a comment. -/
def skip : (comment : Bool) → Bytes → Bytes
 | _, [] => []
 | true, c :: text => skip (c ≠ 0x0A) text
 | false, c :: text => if isSpace c then skip false text else if c = 0x23 then skip true text else c :: text

def continues (c : UInt8) (text : Bytes) : Bool := c = 0x5C && text.head? = some 0x0A

def keyword : Bytes → Bytes × Bytes
 | [] => ([], [])
 | c :: text =>
  if isSpace c || c = 0x23 || continues c text then ([], c :: text)
  else (c :: (keyword text).1, (keyword text).2)

/-- Where a raw value is read: on its first line, at the end of a line that continues, on a
further line, or in a comment between these. -/
inductive Place where
 | first
 | lineEnd
 | further
 | comment
 deriving DecidableEq

def rawValue : Place → Bytes → Bytes × Bytes
 | _, [] => ([], [])
 | .lineEnd, _ :: text => rawValue .further text
 | .comment, c :: text => rawValue (if c = 0x0A then .further else .comment) text
 | place, c :: text =>
  if c = 0x0A then ([], text)
  else if c = 0x23 then if place = .first then ([], c :: text) else rawValue .comment text
  else if continues c text then rawValue .lineEnd text
  else (c :: (rawValue place text).1, (rawValue place text).2)

def hexDigit (c : UInt8) : Option UInt8 :=
 if 0x30 ≤ c ∧ c ≤ 0x39 then some (c - 0x30)
 else if 0x41 ≤ c ∧ c ≤ 0x46 then some (c - 0x41 + 10)
 else if 0x61 ≤ c ∧ c ≤ 0x66 then some (c - 0x61 + 10)
 else none

def isOctal (c : UInt8) : Bool := 0x30 ≤ c && c ≤ 0x37

/-- The byte that an escape is for, after its backslash. -/
def escape : Bytes → Option (UInt8 × Bytes)
 | [] => none
 | c :: text =>
  if c = 0x6E then some (0x0A, text)
  else if c = 0x72 then some (0x0D, text)
  else if c = 0x74 then some (0x09, text)
  else if c = 0x22 ∨ c = 0x27 ∨ c = 0x5C then some (c, text)
  else if c = 0x78 ∨ c = 0x58 then
   match text with
   | a :: b :: text => do
    let a ← hexDigit a
    let b ← hexDigit b
    some (a * 16 + b, text)
   | _ => none
  else if isOctal c then
   let digits := ((c :: text).take 3).takeWhile isOctal
   let n := digits.foldl (fun n c => n * 8 + (c.toNat - 0x30)) 0
   if 255 < n then none else some (UInt8.ofNat n, (c :: text).drop digits.length)
  else none

/-- A quoted value, after its opening quote; `fuel` bounds its bytes. -/
def quotedValue : ℕ → Bytes → Option (Bytes × Bytes)
 | 0, _ => none
 | _, [] => none
 | fuel + 1, c :: text =>
  if c = 0x22 then some ([], text)
  else if c = 0x0A then none
  else if c = 0x5C then do
   let (c, text) ← escape text
   let (value, text) ← quotedValue fuel text
   some (c :: value, text)
  else do
   let (value, text) ← quotedValue fuel text
   some (c :: value, text)

def afterQuoted (text : Bytes) : Option Bytes :=
 let text := text.dropWhile isBlank
 let text := if text.head? = some 0x0D then text.tail else text
 if text.head? = none ∨ text.head? = some 0x23 ∨ text.head? = some 0x0A then some text else none

def value (text : Bytes) : Option (Bytes × Bytes) :=
 if text.head? = some 0x22 then do
  let (value, text) ← quotedValue text.length text.tail
  let text ← afterQuoted text
  some (value, text)
 else
  let (value, text) := rawValue .first text
  some (value.rdropWhile isSpace, text)

/-- The first lines, at most `fuel` of them. -/
def linesOf : ℕ → Bytes → Option (List (Bytes × Bytes))
 | 0, text => if skip false text = [] then some [] else none
 | fuel + 1, text =>
  if skip false text = [] then some []
  else do
   let (key, text) := keyword (skip false text)
   let (value, text) ← value (text.dropWhile isBlank)
   let lines ← linesOf fuel text
   some ((key, value) :: lines)

def torrcLines (text : Bytes) : Option (List (Bytes × Bytes)) :=
 if 0 ∈ text then none else linesOf text.length text

/-! ## Lines that are read as they are written -/

structure PlainKey (key : Bytes) : Prop where
 some : key ≠ []
 plain : ∀ c ∈ key, isSpace c = false ∧ c ≠ 0x23 ∧ c ≠ 0x5C ∧ c ≠ 0

structure PlainValue (value : Bytes) : Prop where
 head : ∀ c, value.head? = some c → c ≠ 0x22 ∧ isBlank c = false
 plain : ∀ c ∈ value, c ≠ 0x0A ∧ c ≠ 0x23 ∧ c ≠ 0
 last : ∀ c, value.getLast? = some c → isSpace c = false ∧ c ≠ 0x5C

instance (key : Bytes) : Decidable (PlainKey key) :=
 decidable_of_iff (key ≠ [] ∧ ∀ c ∈ key, isSpace c = false ∧ c ≠ 0x23 ∧ c ≠ 0x5C ∧ c ≠ 0)
  ⟨fun h => ⟨h.1, h.2⟩, fun h => ⟨h.some, h.plain⟩⟩

instance (v : Bytes) : Decidable (PlainValue v) :=
 decidable_of_iff ((∀ c ∈ v.head?, c ≠ 0x22 ∧ isBlank c = false) ∧ (∀ c ∈ v, c ≠ 0x0A ∧ c ≠ 0x23 ∧ c ≠ 0) ∧
   ∀ c ∈ v.getLast?, isSpace c = false ∧ c ≠ 0x5C)
  ⟨fun h => ⟨h.1, h.2.1, h.2.2⟩, fun h => ⟨h.head, h.plain, h.last⟩⟩

def line (entry : Bytes × Bytes) : Bytes := entry.1 ++ 0x20 :: (entry.2 ++ [0x0A])

theorem skip_comment {text : Bytes} (h : (0x0A : UInt8) ∉ text) (rest : Bytes) :
  skip true (text ++ 0x0A :: rest) = skip false rest := by
 induction text with
 | nil => rw [nil_append, skip, decide_eq_false (fun h => h rfl)]
 | cons c text ih =>
  have hc : c ≠ 0x0A := fun hc => h (hc ▸ mem_cons_self)
  rw [cons_append, skip, decide_eq_true hc]
  exact ih fun hm => h (mem_cons_of_mem _ hm)

theorem PlainKey.skip {key : Bytes} (h : PlainKey key) (rest : Bytes) : TorrcFormat.skip false (key ++ rest) = key ++ rest := by
 cases key with
 | nil => exact absurd rfl h.some
 | cons c key =>
  obtain ⟨hspace, hhash, -, -⟩ := h.plain c mem_cons_self
  rw [cons_append, TorrcFormat.skip, hspace, if_neg (by simp), if_neg hhash]

theorem keyword_plain {key : Bytes} (h : ∀ c ∈ key, isSpace c = false ∧ c ≠ 0x23 ∧ c ≠ 0x5C ∧ c ≠ 0) (rest : Bytes) :
  keyword (key ++ 0x20 :: rest) = (key, 0x20 :: rest) := by
 induction key with
 | nil => rfl
 | cons c key ih =>
  obtain ⟨hspace, hhash, hback, -⟩ := h c mem_cons_self
  rw [cons_append, keyword, ih fun d hd => h d (mem_cons_of_mem _ hd), hspace, continues, decide_eq_false hhash,
   decide_eq_false hback]
  rfl

theorem rawValue_plain {value : Bytes} (hplain : ∀ c ∈ value, c ≠ 0x0A ∧ c ≠ 0x23 ∧ c ≠ 0)
  (hlast : ∀ c, value.getLast? = some c → c ≠ 0x5C) (rest : Bytes) :
  rawValue .first (value ++ 0x0A :: rest) = (value, rest) := by
 induction value with
 | nil => rw [nil_append, rawValue, if_pos rfl] <;> exact Place.noConfusion
 | cons c value ih =>
  obtain ⟨hend, hhash, -⟩ := hplain c mem_cons_self
  have hmore : continues c (value ++ 0x0A :: rest) = false := by
   cases value with
   | nil =>
    rw [continues, decide_eq_false (hlast c rfl)]
    rfl
   | cons d value =>
    have hd := (hplain d (by simp)).1
    rw [continues]
    simp [hd]
  have hrest : rawValue .first (value ++ 0x0A :: rest) = (value, rest) := by
   refine ih (fun d hd => hplain d (mem_cons_of_mem _ hd)) fun d hd => hlast d ?_
   rw [getLast?_cons, hd]
   rfl
  rw [cons_append, rawValue, if_neg hend, if_neg hhash, hmore, if_neg (by simp), hrest] <;> exact Place.noConfusion

theorem value_plain {v : Bytes} (h : PlainValue v) (rest : Bytes) :
  value ((0x20 :: (v ++ 0x0A :: rest)).dropWhile isBlank) = some (v, rest) := by
 have hblank : (0x20 :: (v ++ 0x0A :: rest)).dropWhile isBlank = v ++ 0x0A :: rest := by
  rw [dropWhile_cons, if_pos (by decide)]
  cases v with
  | nil => rfl
  | cons c v => rw [cons_append, dropWhile_cons, if_neg (by simp [(h.head c rfl).2])]
 have hquote : (v ++ 0x0A :: rest).head? ≠ some 0x22 := by
  cases v with
  | nil => exact fun heq => absurd (Option.some.inj heq) (by decide)
  | cons c v => exact fun heq => (h.head c rfl).1 (Option.some.inj heq)
 have htrim : v.rdropWhile isSpace = v :=
  rdropWhile_eq_self_iff.2 fun hne => by
   rw [(h.last _ (getLast?_eq_some_getLast hne)).1]
   simp
 rw [hblank, value, if_neg hquote, rawValue_plain h.plain fun c hc => (h.last c hc).2]
 exact congrArg (fun w => some (w, rest)) htrim

theorem linesOf_line {fuel : ℕ} {key v : Bytes} (hkey : PlainKey key) (hvalue : PlainValue v) (rest : Bytes) :
  linesOf (fuel + 1) (line (key, v) ++ rest) = (linesOf fuel rest).map ((key, v) :: ·) := by
 have htext : line (key, v) ++ rest = key ++ 0x20 :: (v ++ 0x0A :: rest) := by simp [line]
 have hne : key ++ 0x20 :: (v ++ 0x0A :: rest) ≠ [] := by simp
 rw [linesOf, htext, hkey.skip, if_neg hne, keyword_plain hkey.plain]
 dsimp only
 rw [value_plain hvalue, Option.bind_eq_bind, Option.bind_some]
 cases linesOf fuel rest <;> simp

theorem linesOf_lines (entries : List (Bytes × Bytes)) (h : ∀ e ∈ entries, PlainKey e.1 ∧ PlainValue e.2) {fuel : ℕ}
  (hfuel : entries.length ≤ fuel) : linesOf fuel (entries.flatMap line) = some entries := by
 induction entries generalizing fuel with
 | nil => cases fuel <;> rfl
 | cons e entries ih =>
  obtain ⟨fuel, rfl⟩ : ∃ n, fuel = n + 1 := ⟨fuel - 1, by rw [length_cons] at hfuel; omega⟩
  obtain ⟨hkey, hvalue⟩ := h e mem_cons_self
  rw [flatMap_cons, linesOf_line hkey hvalue, ih (fun d hd => h d (mem_cons_of_mem _ hd)) (by simpa using hfuel)]
  rfl

theorem line_nul {e : Bytes × Bytes} (hkey : PlainKey e.1) (hvalue : PlainValue e.2) : 0 ∉ line e := by
 intro h
 rcases mem_append.1 h with h | h
 · exact (hkey.plain 0 h).2.2.2 rfl
 rcases mem_cons.1 h with h | h
 · exact absurd h (by decide)
 rcases mem_append.1 h with h | h
 · exact (hvalue.plain 0 h).2.2 rfl
 · exact absurd h (by decide)

theorem torrcLines_lines {comment : Bytes} (hcomment : ∀ c ∈ comment, c ≠ 0x0A ∧ c ≠ 0) (entries : List (Bytes × Bytes))
  (h : ∀ e ∈ entries, PlainKey e.1 ∧ PlainValue e.2) :
  torrcLines (0x23 :: (comment ++ 0x0A :: entries.flatMap line)) = some entries := by
 have hnul : 0 ∉ 0x23 :: (comment ++ 0x0A :: entries.flatMap line) := by
  intro hmem
  rcases mem_cons.1 hmem with hmem | hmem
  · exact absurd hmem (by decide)
  rcases mem_append.1 hmem with hmem | hmem
  · exact (hcomment 0 hmem).2 rfl
  rcases mem_cons.1 hmem with hmem | hmem
  · exact absurd hmem (by decide)
  obtain ⟨e, he, hmem⟩ := mem_flatMap.1 hmem
  exact line_nul (h e he).1 (h e he).2 hmem
 have hskip : skip false (0x23 :: (comment ++ 0x0A :: entries.flatMap line)) = skip false (entries.flatMap line) := by
  rw [skip, if_neg (by decide), if_pos rfl, skip_comment fun hm => (hcomment _ hm).1 rfl]
 have hsame : ∀ fuel, linesOf fuel (0x23 :: (comment ++ 0x0A :: entries.flatMap line)) = linesOf fuel (entries.flatMap line) := by
  intro fuel
  cases fuel <;> rw [linesOf, linesOf, hskip]
 have hlength : entries.length ≤ (entries.flatMap line).length := by
  rw [length_flatMap]
  refine ((length_map _).ge.trans (length_le_sum_of_one_le _ ?_))
  intro n hn
  obtain ⟨e, -, rfl⟩ := mem_map.1 hn
  simp [line]
  omega
 rw [torrcLines, if_neg hnul, hsame, linesOf_lines entries h]
 simp only [length_cons, length_append]
 omega

end MoltBrowser.TorrcFormat
