import MoltBrowser.Bytes

set_option autoImplicit false

/-!
# JSON text and what it says

The grammar of RFC 8259 over bytes: the texts that are a value, each with the value it is. A
string's value is the UTF-8 of its characters; a number's is its own text.
-/
namespace MoltBrowser.Json

inductive JsonValue where
 | null
 | bool (b : Bool)
 | number (text : Bytes)
 | string (text : Bytes)
 | array (items : List JsonValue)
 | object (members : List (Bytes × JsonValue))

/-! ## Characters -/

def IsSpace (c : UInt8) : Prop := c = 0x20 ∨ c = 0x09 ∨ c = 0x0A ∨ c = 0x0D

instance (c : UInt8) : Decidable (IsSpace c) := inferInstanceAs (Decidable (_ ∨ _))

def Spaces (ws : Bytes) : Prop := ∀ c ∈ ws, IsSpace c

def isDigit (c : UInt8) : Bool := 0x30 ≤ c && c ≤ 0x39

def Digits (ds : Bytes) : Prop := ∀ c ∈ ds, isDigit c = true

def hexDigit (c : UInt8) : Option ℕ :=
 if 0x30 ≤ c ∧ c ≤ 0x39 then some (c.toNat - 0x30)
 else if 0x61 ≤ c ∧ c ≤ 0x66 then some (c.toNat - 0x61 + 10)
 else if 0x41 ≤ c ∧ c ≤ 0x46 then some (c.toNat - 0x41 + 10)
 else none

def hex4 (a b c d : UInt8) : Option ℕ := do
 let a ← hexDigit a
 let b ← hexDigit b
 let c ← hexDigit c
 let d ← hexDigit d
 some (((a * 16 + b) * 16 + c) * 16 + d)

def shortEscape (e : UInt8) : Option UInt8 :=
 if e = 0x22 ∨ e = 0x5C ∨ e = 0x2F then some e
 else if e = 0x62 then some 0x08
 else if e = 0x66 then some 0x0C
 else if e = 0x6E then some 0x0A
 else if e = 0x72 then some 0x0D
 else if e = 0x74 then some 0x09
 else none

abbrev encode (c : Char) : Bytes := String.utf8EncodeChar c

/-! ## Strings -/

inductive CharText : Bytes → Char → Prop
 | unescaped {c : Char} (hcontrol : 0x20 ≤ c.toNat) (hquote : c.toNat ≠ 0x22) (hescape : c.toNat ≠ 0x5C) :
   CharText (encode c) c
 | escaped {e b : UInt8} {c : Char} (h : shortEscape e = some b) (hc : encode c = [b]) : CharText [0x5C, e] c
 | unicode {a b d e : UInt8} {n : ℕ} {c : Char} (h : hex4 a b d e = some n) (hc : c.toNat = n) :
   CharText [0x5C, 0x75, a, b, d, e] c
 | pair {a b d e a' b' d' e' : UInt8} {high low : ℕ} {c : Char} (hhigh : hex4 a b d e = some high)
   (hlow : hex4 a' b' d' e' = some low) (hhigh' : 0xD800 ≤ high ∧ high < 0xDC00) (hlow' : 0xDC00 ≤ low ∧ low < 0xE000)
   (hc : c.toNat = 0x10000 + (high - 0xD800) * 0x400 + (low - 0xDC00)) :
   CharText [0x5C, 0x75, a, b, d, e, 0x5C, 0x75, a', b', d', e'] c

inductive CharsText : Bytes → List Char → Prop
 | nil : CharsText [] []
 | cons {w rest : Bytes} {c : Char} {cs : List Char} (hc : CharText w c) (hrest : CharsText rest cs) :
   CharsText (w ++ rest) (c :: cs)

def StringText (w t : Bytes) : Prop := ∃ body cs, w = 0x22 :: (body ++ [0x22]) ∧ CharsText body cs ∧ t = cs.flatMap encode

/-! ## Numbers -/

def IsInt (w : Bytes) : Prop := w = [0x30] ∨ ∃ d ds, w = d :: ds ∧ (0x31 ≤ d ∧ d ≤ 0x39) ∧ Digits ds

def IsFrac (w : Bytes) : Prop := w = [] ∨ ∃ ds, w = 0x2E :: ds ∧ ds ≠ [] ∧ Digits ds

def IsExp (w : Bytes) : Prop := w = [] ∨ ∃ e sign ds, w = e :: (sign ++ ds) ∧ (e = 0x65 ∨ e = 0x45) ∧
 (sign = [] ∨ sign = [0x2B] ∨ sign = [0x2D]) ∧ ds ≠ [] ∧ Digits ds

def IsNumber (w : Bytes) : Prop := ∃ sign int frac exp, w = sign ++ (int ++ (frac ++ exp)) ∧
 (sign = [] ∨ sign = [0x2D]) ∧ IsInt int ∧ IsFrac frac ∧ IsExp exp

/-! ## Values -/

inductive Form where
 | value (v : JsonValue)
 | items (l : List JsonValue)
 | members (l : List (Bytes × JsonValue))

/-- The text says the value, or the values of a list or the members of an object that isn't
empty, with the commas between them. -/
inductive Says : Form → Bytes → Prop
 | null : Says (.value .null) (utf8 "null")
 | true : Says (.value (.bool true)) (utf8 "true")
 | false : Says (.value (.bool false)) (utf8 "false")
 | number {w : Bytes} (h : IsNumber w) : Says (.value (.number w)) w
 | string {w t : Bytes} (h : StringText w t) : Says (.value (.string t)) w
 | emptyArray {ws : Bytes} (hws : Spaces ws) : Says (.value (.array [])) (0x5B :: (ws ++ [0x5D]))
 | array {l : List JsonValue} {w before after : Bytes} (h : Says (.items l) w) (hb : Spaces before) (ha : Spaces after) :
   Says (.value (.array l)) (0x5B :: (before ++ (w ++ (after ++ [0x5D]))))
 | item {v : JsonValue} {w : Bytes} (h : Says (.value v) w) : Says (.items [v]) w
 | items {v : JsonValue} {l : List JsonValue} {w rest before after : Bytes} (h : Says (.value v) w)
   (hl : Says (.items l) rest) (hb : Spaces before) (ha : Spaces after) :
   Says (.items (v :: l)) (w ++ (before ++ 0x2C :: (after ++ rest)))
 | emptyObject {ws : Bytes} (hws : Spaces ws) : Says (.value (.object [])) (0x7B :: (ws ++ [0x7D]))
 | object {l : List (Bytes × JsonValue)} {w before after : Bytes} (h : Says (.members l) w) (hb : Spaces before)
   (ha : Spaces after) : Says (.value (.object l)) (0x7B :: (before ++ (w ++ (after ++ [0x7D]))))
 | member {k key w before after : Bytes} {v : JsonValue} (hk : StringText key k) (h : Says (.value v) w)
   (hb : Spaces before) (ha : Spaces after) : Says (.members [(k, v)]) (key ++ (before ++ 0x3A :: (after ++ w)))
 | members {k key w before after rest before' after' : Bytes} {v : JsonValue} {l : List (Bytes × JsonValue)}
   (hk : StringText key k) (h : Says (.value v) w) (hl : Says (.members l) rest) (hb : Spaces before)
   (ha : Spaces after) (hb' : Spaces before') (ha' : Spaces after') :
   Says (.members ((k, v) :: l)) (key ++ (before ++ 0x3A :: (after ++ (w ++ (before' ++ 0x2C :: (after' ++ rest))))))

def IsText (s : Bytes) (v : JsonValue) : Prop :=
 ∃ before w after, s = before ++ (w ++ after) ∧ Spaces before ∧ Spaces after ∧ Says (.value v) w

/-! ## Measures of a value -/

mutual

def JsonValue.depth : JsonValue → ℕ
 | .array l => itemsDepth l + 1
 | .object l => membersDepth l + 1
 | _ => 0

def itemsDepth : List JsonValue → ℕ
 | [] => 0
 | v :: l => max v.depth (itemsDepth l)

def membersDepth : List (Bytes × JsonValue) → ℕ
 | [] => 0
 | (_, v) :: l => max v.depth (membersDepth l)

end

mutual

def JsonValue.count : JsonValue → ℕ
 | .array l => itemsCount l + 1
 | .object l => membersCount l + 1
 | _ => 1

def itemsCount : List JsonValue → ℕ
 | [] => 0
 | v :: l => v.count + itemsCount l

def membersCount : List (Bytes × JsonValue) → ℕ
 | [] => 0
 | (_, v) :: l => v.count + membersCount l

end

mutual

def JsonValue.Distinct : JsonValue → Prop
 | .array l => ItemsDistinct l
 | .object l => (l.map Prod.fst).Nodup ∧ MembersDistinct l
 | _ => True

def ItemsDistinct : List JsonValue → Prop
 | [] => True
 | v :: l => v.Distinct ∧ ItemsDistinct l

def MembersDistinct : List (Bytes × JsonValue) → Prop
 | [] => True
 | (_, v) :: l => v.Distinct ∧ MembersDistinct l

end

def Form.depth : Form → ℕ
 | .value v => v.depth
 | .items l => itemsDepth l
 | .members l => membersDepth l

def Form.count : Form → ℕ
 | .value v => v.count
 | .items l => itemsCount l
 | .members l => membersCount l

/-- No object has two members of one name; members that stand alone aren't in one yet. -/
def Form.Distinct : Form → Prop
 | .value v => v.Distinct
 | .items l => ItemsDistinct l
 | .members l => MembersDistinct l

end MoltBrowser.Json
