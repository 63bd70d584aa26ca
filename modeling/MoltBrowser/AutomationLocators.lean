import MoltBrowser.JsonValue

set_option autoImplicit false

/-!
# Fallback locators of a workflow step (`automation_locators.cc`)

The stored form of a step's locators and the reader that checks it. Every field
is page data, perhaps of an imported file; an entry that fails a check is
dropped, a block that fails one at its root is dropped whole.
-/
namespace MoltBrowser.AutomationLocators
open List

def kMaxLocators : ℕ := 8
def kMaxLocatorTextChars : ℕ := 120
def kMaxPathBytes : ℕ := 512
def kMaxPathSteps : ℕ := 12
def kMaxTagChars : ℕ := 32
def kMaxRoleChars : ℕ := 32
def kMaxTypeChars : ℕ := 24
def kMaxOriginBytes : ℕ := 256

/-- The URL library: the serialized origin of a valid http(s) URL, `none` for anything else. -/
structure UrlLibrary where
 httpOrigin : Bytes → Option Bytes

/-! ## Text -/

/-- The code point of a sequence's continuation bytes after its lead's bits. -/
def continuation : ℕ → ℕ → Bytes → Option ℕ
 | 0, cp, _ => some cp
 | _ + 1, _, [] => none
 | n + 1, cp, c :: s =>
  if c &&& 0xC0 ≠ 0x80 then none
  else continuation n ((cp <<< 6) ||| (c.toNat &&& 0x3F)) s

/-- The length of the valid UTF-8 sequence at the front, or 0. -/
def utf8At : Bytes → ℕ
 | [] => 0
 | c :: s =>
  if c < 0x80 then 1
  else
   let lead : ℕ × ℕ :=
    if 0xC2 ≤ c ∧ c ≤ 0xDF then (2, c.toNat &&& 0x1F)
    else if 0xE0 ≤ c ∧ c ≤ 0xEF then (3, c.toNat &&& 0x0F)
    else if 0xF0 ≤ c ∧ c ≤ 0xF4 then (4, c.toNat &&& 0x07)
    else (0, 0)
   if lead.1 = 0 then 0
   else match continuation (lead.1 - 1) lead.2 s with
    | none => 0
    | some cp =>
     -- Overlong forms, surrogates and code points past U+10FFFF.
     if (lead.1 = 3 ∧ cp < 0x800) ∨ (lead.1 = 4 ∧ (cp < 0x10000 ∨ cp > 0x10FFFF)) ∨
       (0xD800 ≤ cp ∧ cp ≤ 0xDFFF) then 0
     else lead.1

/-- `fuel` is at least the bytes left: every character takes one or more. -/
def isCleanLineFrom (maxChars : ℕ) : ℕ → Bytes → ℕ → Bool
 | _, [], _ => true
 | 0, _ :: _, _ => false
 | fuel + 1, c :: s, chars =>
  let n := utf8At (c :: s)
  if n = 0 then false
  else if n = 1 ∧ (c < 0x20 ∨ c = 0x7F) then false
  else if n = 2 ∧ c = 0xC2 ∧ s.headD 0 ≤ 0x9F then false
  else if chars + 1 > maxChars then false
  else isCleanLineFrom maxChars fuel ((c :: s).drop n) (chars + 1)

/-- Valid UTF-8 on one line without control characters, at most `maxChars` characters. -/
def isCleanLine (s : Bytes) (maxChars : ℕ) : Bool := isCleanLineFrom maxChars s.length s 0

def contains (pattern : Bytes) : Bytes → Bool
 | [] => pattern.isEmpty
 | c :: s => pattern.isPrefixOf (c :: s) || contains pattern s

def hasTemplateBraces (s : Bytes) : Bool :=
 contains (utf8 "\x7b\x7b") s || contains (utf8 "\x7d\x7d") s

def isLower (c : UInt8) : Bool := 0x61 ≤ c ∧ c ≤ 0x7A

def isDigit (c : UInt8) : Bool := 0x30 ≤ c ∧ c ≤ 0x39

def isLowerAsciiWord (s : Bytes) (maxChars : ℕ) : Bool :=
 !s.isEmpty && s.length ≤ maxChars && s.all isLower

def isTag (s : Bytes) : Bool :=
 !s.isEmpty && s.length ≤ kMaxTagChars && isLower (s.headD 0) &&
  s.all fun c => isLower c || isDigit c || c = 0x2D

def isTypeClass (s : Bytes) : Bool :=
 s.length ≤ kMaxTypeChars && s.all fun c => isLower c || c = 0x2D

def isHttpOrigin (url : UrlLibrary) (s : Bytes) : Bool :=
 !s.isEmpty && s.length ≤ kMaxOriginBytes && url.httpOrigin s = some s

def kStrongAttributes : List Bytes :=
 ["id", "name", "data-testid", "data-test", "data-cy", "data-qa"].map utf8

def kWeakAttributes : List Bytes := ["aria-label", "placeholder", "title", "alt"].map utf8

def isAttribute (name : Bytes) : Bool := name ∈ kStrongAttributes ∨ name ∈ kWeakAttributes

def countSeparators : Bytes → ℕ
 | [] => 0
 | 0x20 :: 0x3E :: 0x20 :: s => countSeparators s + 1
 | _ :: s => countSeparators s

def isPath (s : Bytes) : Bool :=
 !s.isEmpty && s.length ≤ kMaxPathBytes && isCleanLine s kMaxPathBytes &&
  ((utf8 "html").isPrefixOf s || (utf8 "#").isPrefixOf s) &&
  1 + countSeparators s ≤ kMaxPathSteps

/-! ## Locators -/

inductive By where
 | role
 | label
 | attr
 | text
 | path
 | selector
 deriving DecidableEq, Repr

structure Locator where
 by_ : By := .text
 role : Bytes := []
 name : Bytes := []
 value : Bytes := []
 deriving DecidableEq, Repr

structure ElementKind where
 tag : Bytes := []
 type : Bytes := []
 role : Bytes := []
 deriving DecidableEq, Repr

inductive FieldKind where
 | ordinary
 | password
 | paymentCard
 | oneTimeCode
 deriving DecidableEq, Repr

def isSensitive (kind : FieldKind) : Bool := kind ≠ .ordinary

def fieldKindToString : FieldKind → Bytes
 | .ordinary => ""
 | .password => "password"
 | .paymentCard => "payment_card"
 | .oneTimeCode => "one_time_code"

def fieldKindFromString (name : Bytes) : FieldKind :=
 if name = "password" then .password
 else if name = "payment_card" then .paymentCard
 else if name = "one_time_code" then .oneTimeCode
 else .ordinary

structure StepLocators where
 origin : Bytes := []
 element : ElementKind := {}
 field : FieldKind := .ordinary
 list : List Locator := []
 deriving DecidableEq, Repr

def byName : By → Bytes
 | .role => "role"
 | .label => "label"
 | .attr => "attr"
 | .text => "text"
 | .path => "path"
 | .selector => "selector"

def parseFields (d : Dict) (kind value : Bytes) : Option Locator :=
 if kind = "role" then
  match d.findString "role" with
  | none => none
  | some role =>
   if isLowerAsciiWord role kMaxRoleChars ∧ isCleanLine value kMaxLocatorTextChars then
    some { by_ := .role, role := role, value := value }
   else none
 else if kind = "label" ∨ kind = "text" then
  if isCleanLine value kMaxLocatorTextChars then
   some { by_ := if kind = "label" then .label else .text, value := value }
  else none
 else if kind = "attr" then
  match d.findString "name" with
  | none => none
  | some name =>
   if isAttribute name ∧ isCleanLine value kMaxLocatorTextChars then
    some { by_ := .attr, name := name, value := value }
   else none
 else if kind = "path" then
  if isPath value then some { by_ := .path, value := value } else none
 else none

def keysOf : By → ℕ
 | .role => 3
 | .attr => 3
 | _ => 2

/-- One stored locator, `none` if it fails a check. -/
def parseLocator (v : Value) : Option Locator :=
 match v.dict? with
 | none => none
 | some d =>
  match d.findString "by", d.findString "value" with
  | some kind, some value =>
   if value = [] ∨ hasTemplateBraces value then none
   else match parseFields d kind value with
    | none => none
    | some l => if d.length ≠ keysOf l.by_ then none else some l
  | _, _ => none

def locatorToValue (l : Locator) : Value :=
 let d := Dict.set [] "by" (.string (byName l.by_))
 let d := Dict.setIf (l.by_ = .role) d "role" (.string l.role)
 let d := Dict.setIf (l.by_ = .attr) d "name" (.string l.name)
 .dict (d.set "value" (.string l.value))

/-- One turn of `ParseList`'s loop. -/
def keepLocator (out : List Locator) (v : Value) : List Locator :=
 if out.length < kMaxLocators then
  match parseLocator v with
  | none => out
  | some l => if l ∈ out then out else out ++ [l]
 else out

/-- Good entries in order, none twice, at most `kMaxLocators`, from the list's start. -/
def parseList (list : List Value) : List Locator :=
 (list.take (4 * kMaxLocators)).foldl keepLocator []

def parseKind (tag type role : Option Bytes) : Option ElementKind :=
 match tag, type, role with
 | some tag, some type, some role =>
  if !isTag tag ∨ !isTypeClass type ∨ !(role.isEmpty || isLowerAsciiWord role kMaxRoleChars) then
   none
  -- The type class is the tag's own: an `<input>`'s, or none.
  else if decide (tag = "input") = type.isEmpty then none
  else some ⟨tag, type, role⟩
 | _, _, _ => none

def elementToDict (kind : ElementKind) : Dict :=
 let element := Dict.set [] "tag" (.string kind.tag)
 let element := element.set "type" (.string kind.type)
 element.set "role" (.string kind.role)

def toValue (l : StepLocators) : Value :=
 let d := Dict.set [] "origin" (.string l.origin)
 let d := d.set "element" (.dict (elementToDict l.element))
 let d := Dict.setIf (isSensitive l.field) d "field" (.string (fieldKindToString l.field))
 .dict (d.set "list" (.list (l.list.map locatorToValue)))

/-- A credential field's kind as the browser writes it; absent for an ordinary one. -/
def parseField : Option Value → Option FieldKind
 | none => some .ordinary
 | some v =>
  match v.string? with
  | none => none
  | some name =>
   let kind := fieldKindFromString name
   if !isSensitive kind ∨ fieldKindToString kind ≠ name then none else some kind

def parse (url : UrlLibrary) (v : Value) : Option StepLocators :=
 match v.dict? with
 | none => none
 | some d =>
  match d.findString "origin", d.findDict "element", d.findList "list" with
  | some origin, some element, some list =>
   if !isHttpOrigin url origin then none
   else if element.length ≠ 3 then none
   else match parseKind (element.findString "tag") (element.findString "type")
     (element.findString "role"), parseField (d.find "field") with
    | some kind, some field =>
     let out := parseList list
     if out.isEmpty then none else some ⟨origin, kind, field, out⟩
    | _, _ => none
  | _, _, _ => none

/-! ## What was read is read again -/

@[simp] theorem fieldKindFromString_toString (kind : FieldKind) :
  fieldKindFromString (fieldKindToString kind) = kind := by
 cases kind <;> decide

theorem length_two_texts {key : Bytes} (a b c : Value) (h₁ : key ≠ "by") (h₂ : key ≠ "value") :
  (((Dict.set [] "by" a).set key b).set "value" c).length = 3 := by
 rw [Dict.length_set, Dict.length_set, Dict.length_set] <;> simp [h₁, h₂.symm]

theorem length_one_text (a c : Value) : ((Dict.set [] "by" a).set "value" c).length = 2 := by
 rw [Dict.length_set, Dict.length_set] <;> simp

theorem locatorToValue_eq (l : Locator) : locatorToValue l = .dict (match l.by_ with
  | .role => ((Dict.set [] "by" (.string "role")).set "role" (.string l.role)).set "value"
    (.string l.value)
  | .attr => ((Dict.set [] "by" (.string "attr")).set "name" (.string l.name)).set "value"
    (.string l.value)
  | by_ => (Dict.set [] "by" (.string (byName by_))).set "value" (.string l.value)) := by
 obtain ⟨by_, role, name, value⟩ := l
 cases by_ <;> simp [locatorToValue, Dict.setIf, byName]

def Locator.Checked (l : Locator) : Prop :=
 l.value ≠ [] ∧ hasTemplateBraces l.value = false ∧
 match l.by_ with
 | .role => isLowerAsciiWord l.role kMaxRoleChars ∧ isCleanLine l.value kMaxLocatorTextChars ∧
   l.name = []
 | .label | .text => isCleanLine l.value kMaxLocatorTextChars ∧ l.role = [] ∧ l.name = []
 | .attr => isAttribute l.name ∧ isCleanLine l.value kMaxLocatorTextChars ∧ l.role = []
 | .path => isPath l.value ∧ l.role = [] ∧ l.name = []
 | .selector => False

theorem parseFields_checked {d : Dict} {kind value : Bytes} {l : Locator} (hne : value ≠ [])
  (hbraces : hasTemplateBraces value = false) (h : parseFields d kind value = some l) :
  l.Checked := by
 simp only [parseFields] at h
 split at h
 · split at h
   · cases h
   · split at h
     · next hc => cases h; exact ⟨hne, hbraces, hc.1, hc.2, rfl⟩
     · cases h
 · split at h
   · split at h
     · next hc =>
       cases h
       refine ⟨hne, hbraces, ?_⟩
       dsimp only
       by_cases hlabel : kind = "label"
       · simp only [hlabel, ↓reduceIte]; exact ⟨hc, trivial, trivial⟩
       · simp only [hlabel, ↓reduceIte]; exact ⟨hc, trivial, trivial⟩
     · cases h
   · split at h
     · split at h
       · cases h
       · split at h
         · next hc => cases h; exact ⟨hne, hbraces, hc.1, hc.2, rfl⟩
         · cases h
     · split at h
       · split at h
         · next hc => cases h; exact ⟨hne, hbraces, hc, rfl, rfl⟩
         · cases h
       · cases h

theorem parseLocator_checked {v : Value} {l : Locator} (h : parseLocator v = some l) :
  l.Checked := by
 simp only [parseLocator] at h
 split at h
 · cases h
 · split at h
   · split at h
     · cases h
     · next hclean =>
       simp only [not_or, Bool.not_eq_true] at hclean
       split at h
       · cases h
       · next hfields =>
         split at h
         · cases h
         · cases h; exact parseFields_checked hclean.1 hclean.2 hfields
   · cases h

theorem Locator.Checked.parseLocator {l : Locator} (h : l.Checked) :
  parseLocator (locatorToValue l) = some l := by
 rw [locatorToValue_eq]
 obtain ⟨by_, role, name, value⟩ := l
 obtain ⟨hne, hbraces, h⟩ := h
 dsimp only at hne hbraces
 have hrole_by : utf8 "role" ≠ "by" := by simp
 have hrole_value : utf8 "role" ≠ "value" := by simp
 have hname_by : utf8 "name" ≠ "by" := by simp
 have hname_value : utf8 "name" ≠ "value" := by simp
 cases by_ with
 | role =>
  obtain ⟨hrole, hline, rfl⟩ := h
  have hlen := length_two_texts (.string "role") (.string role) (.string value) hrole_by hrole_value
  simp [AutomationLocators.parseLocator, Dict.findString, parseFields,
   hne, hbraces, hrole, hline, hlen, keysOf]
 | attr =>
  obtain ⟨hname, hline, rfl⟩ := h
  have hlen := length_two_texts (.string "attr") (.string name) (.string value) hname_by hname_value
  simp [AutomationLocators.parseLocator, Dict.findString, parseFields,
   hne, hbraces, hname, hline, hlen, keysOf]
 | label =>
  obtain ⟨hline, rfl, rfl⟩ := h
  simp [AutomationLocators.parseLocator, Dict.findString, parseFields,
   byName, hne, hbraces, hline, length_one_text, keysOf]
 | text =>
  obtain ⟨hline, rfl, rfl⟩ := h
  simp [AutomationLocators.parseLocator, Dict.findString, parseFields,
   byName, hne, hbraces, hline, length_one_text, keysOf]
 | path =>
  obtain ⟨hpath, rfl, rfl⟩ := h
  simp [AutomationLocators.parseLocator, Dict.findString, parseFields,
   byName, hne, hbraces, hpath, length_one_text, keysOf]
 | selector => exact h.elim

/-- What `ParseList` keeps. -/
structure CheckedList (list : List Locator) : Prop where
 short : list.length ≤ kMaxLocators
 nodup : list.Nodup
 checked : ∀ l ∈ list, l.Checked

theorem CheckedList.keep {out : List Locator} (h : CheckedList out) (v : Value) :
  CheckedList (keepLocator out v) := by
 unfold keepLocator
 split
 · next hroom =>
   split
   · exact h
   · next l hl =>
     split
     · exact h
     · next hnew =>
       refine ⟨?_, ?_, ?_⟩
       · rw [length_append, length_singleton]
         omega
       · exact nodup_append.2 ⟨h.nodup, nodup_singleton l, fun a ha b hb => by
          rw [mem_singleton.1 hb]
          exact fun heq => hnew (heq ▸ ha)⟩
       · intro m hm
         rcases mem_append.1 hm with hm | hm
         · exact h.checked m hm
         · rw [mem_singleton.1 hm]
           exact parseLocator_checked hl
 · exact h

theorem parseList_checked (list : List Value) : CheckedList (parseList list) := by
 have hfold : ∀ (vs : List Value) (out : List Locator), CheckedList out →
   CheckedList (vs.foldl keepLocator out) := by
  intro vs
  induction vs with
  | nil => exact fun _ h => h
  | cons v vs ih => exact fun out h => ih _ (h.keep v)
 exact hfold _ [] ⟨Nat.zero_le _, nodup_nil, fun l hl => by cases hl⟩

theorem foldl_keepLocator {done rest : List Locator} (h : CheckedList (done ++ rest)) :
  (rest.map locatorToValue).foldl keepLocator done = done ++ rest := by
 induction rest generalizing done with
 | nil => simp
 | cons l rest ih =>
  have hl : l.Checked := h.checked l (by simp)
  have hnew : l ∉ done := fun hmem =>
   (nodup_append.1 h.nodup).2.2 l hmem l mem_cons_self rfl
  have hroom : done.length < kMaxLocators := by
   have := h.short
   simp only [length_append, length_cons] at this
   omega
  have hkeep : keepLocator done (locatorToValue l) = done ++ [l] := by
   simp only [keepLocator, hroom, hl.parseLocator, hnew, ↓reduceIte]
  rw [map_cons, foldl_cons, hkeep, ih (by simpa using h)]
  simp

theorem CheckedList.parseList {list : List Locator} (h : CheckedList list) :
  parseList (list.map locatorToValue) = list := by
 have hshort : (list.map locatorToValue).length ≤ 4 * kMaxLocators := by
  have := h.short
  rw [length_map]
  omega
 rw [AutomationLocators.parseList, take_of_length_le hshort]
 exact foldl_keepLocator h

theorem parseField_toValue {v : Option Value} {kind : FieldKind} (h : parseField v = some kind) :
  parseField (if isSensitive kind then some (.string (fieldKindToString kind)) else none) =
   some kind := by
 by_cases hs : isSensitive kind
 · simp [hs, parseField]
 · simp only [isSensitive, ne_eq, decide_not, Bool.not_eq_true', decide_eq_false_iff_not,
    not_not] at hs
   subst hs
   rfl

theorem parseKind_eq {tag type role : Option Bytes} {kind : ElementKind}
  (h : parseKind tag type role = some kind) :
  parseKind (some kind.tag) (some kind.type) (some kind.role) = some kind := by
 have heq : tag = some kind.tag ∧ type = some kind.type ∧ role = some kind.role := by
  unfold parseKind at h
  split at h
  · split at h
    · cases h
    · split at h
      · cases h
      · cases h
        exact ⟨rfl, rfl, rfl⟩
  · cases h
 rw [← heq.1, ← heq.2.1, ← heq.2.2]
 exact h

theorem elementToDict_fields (kind : ElementKind) : (elementToDict kind).length = 3 ∧
  (elementToDict kind).findString "tag" = some kind.tag ∧
  (elementToDict kind).findString "type" = some kind.type ∧
  (elementToDict kind).findString "role" = some kind.role := by
 unfold elementToDict
 refine ⟨?_, ?_, ?_, ?_⟩
 · rw [Dict.length_set, Dict.length_set, Dict.length_set] <;> simp
 · simp [Dict.findString]
 · simp [Dict.findString]
 · simp [Dict.findString]

theorem toValue_fields (l : StepLocators) : ∃ d : Dict, toValue l = .dict d ∧
  d.findString "origin" = some l.origin ∧ d.findDict "element" = some (elementToDict l.element) ∧
  d.findList "list" = some (l.list.map locatorToValue) ∧
  d.find "field" =
   (if isSensitive l.field then some (.string (fieldKindToString l.field)) else none) := by
 refine ⟨_, rfl, ?_, ?_, ?_, ?_⟩
 · simp [Dict.findString]
 · simp [Dict.findDict]
 · simp [Dict.findList]
 · simp

theorem parse_toValue {url : UrlLibrary} {v : Value} {l : StepLocators}
  (h : parse url v = some l) : parse url (toValue l) = some l := by
 simp only [parse] at h
 split at h
 · cases h
 · split at h
   · next hd origin element list horigin helement hlist =>
     split at h
     · cases h
     · next hhttp =>
       split at h
       · cases h
       · split at h
         · next kind field hkind hfield =>
           split at h
           · cases h
           · next hnonempty =>
             cases h
             obtain ⟨d, hd, horigin, helement, hlist, hfield'⟩ :=
              toValue_fields ⟨origin, kind, field, parseList list⟩
             obtain ⟨hlen, htag, htype, hrole⟩ := elementToDict_fields kind
             simp only [parse, hd, Value.dict?, horigin, helement, hlist, hhttp, hlen, htag, htype,
              hrole, parseKind_eq hkind, hfield', parseField_toValue hfield,
              (parseList_checked list).parseList, hnonempty, ne_eq, not_true_eq_false,
              Bool.false_eq_true, ↓reduceIte]
         · cases h
   · cases h

end MoltBrowser.AutomationLocators
