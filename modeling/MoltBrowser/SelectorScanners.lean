import MoltBrowser.ByteTexts

set_option autoImplicit false

/-! # The scanners of selectors with procedural operators -/
namespace MoltBrowser.Procedural
open ByteTexts

def stringOps : List Text :=
 ["has-text".toList, "-abp-contains".toList, "contains".toList, "matches-attr".toList, "matches-css".toList, "matches-css-before".toList,
  "matches-css-after".toList, "matches-path".toList, "min-text-length".toList, "upward".toList, "nth-ancestor".toList, "xpath".toList,
  "watch-attr".toList]

def selectorOps : List Text := ["has".toList, "-abp-has".toList, "if".toList, "not".toList, "if-not".toList]

def unsupportedOps : List Text :=
 ["others".toList, "shadow".toList, "matches-media".toList, "matches-prop".toList, "matches-property".toList, "spath".toList,
  "remove".toList, "style".toList, "remove-attr".toList, "remove-class".toList, "-abp-properties".toList, "properties".toList,
  "subject".toList]

/-! ## What the code computes -/

def isIdentByte (c : UInt8) : Bool :=
 (0x30 ≤ c && c ≤ 0x39) || (0x41 ≤ c && c ≤ 0x5A) || (0x61 ≤ c && c ≤ 0x7A) || c == 0x2D || c == 0x5F

def isAsciiWhitespaceByte (c : UInt8) : Bool := c == 0x20 || c == 0x09 || c == 0x0A || c == 0x0C || c == 0x0D

/-- `while j < b.len() && go(b[j]) { j += 1 }` -/
def skipWhile (go : UInt8 → Bool) (b : List UInt8) : ℕ → ℕ → Run ℕ
 | 0, _ => .error .fuel
 | fuel + 1, j =>
  if j < b.length then do
   let c ← byteAt b j
   if go c then skipWhile go b fuel (j + 1) else .ok j
  else .ok j

def skipBracketsFrom (b : List UInt8) : ℕ → ℕ → UInt8 → Run (Option ℕ)
 | 0, _, _ => .error .fuel
 | fuel + 1, i, quote =>
  if i < b.length then do
   let c ← byteAt b i
   if c = 0x5C then skipBracketsFrom b fuel (i + 2) quote
   else if quote ≠ 0 then skipBracketsFrom b fuel (i + 1) (if c = quote then 0 else quote)
   else if c = 0x22 ∨ c = 0x27 then skipBracketsFrom b fuel (i + 1) c
   else if c = 0x5D then .ok (some (i + 1))
   else skipBracketsFrom b fuel (i + 1) quote
  else .ok none

def skipBrackets (b : List UInt8) («open» : ℕ) : Run (Option ℕ) := skipBracketsFrom b (b.length + 1) («open» + 1) 0

def findCloseParenFrom (b : List UInt8) : ℕ → ℕ → ℤ → Run (Option ℕ)
 | 0, _, _ => .error .fuel
 | fuel + 1, i, depth =>
  if i < b.length then do
   let c ← byteAt b i
   if c = 0x5C then findCloseParenFrom b fuel (i + 2) depth
   else if c = 0x28 then findCloseParenFrom b fuel (i + 1) (depth + 1)
   else if c = 0x29 then if depth - 1 = 0 then .ok (some i) else findCloseParenFrom b fuel (i + 1) (depth - 1)
   else findCloseParenFrom b fuel (i + 1) depth
  else .ok none

def findCloseParen (b : List UInt8) («open» : ℕ) : Run (Option ℕ) := findCloseParenFrom b (b.length + 1) «open» 0

/-- The names and arguments of the functions from here on, in the order in which the scan calls back. -/
def scanPseudosFrom : ℕ → Text → ℕ → Run (List (Text × Text))
 | 0, _, _ => .error .fuel
 | fuel + 1, s, i =>
  if i < (bytes s).length then do
   let c ← byteAt (bytes s) i
   if c = 0x5C then scanPseudosFrom fuel s (i + 2)
   else if c = 0x5B then do
    match ← skipBrackets (bytes s) i with
    | some j => scanPseudosFrom fuel s j
    | none => .ok []
   else if c = 0x3A then do
    let start := i + 1
    let j ← skipWhile isIdentByte (bytes s) ((bytes s).length + 1) start
    if ← isAt (bytes s) j 0x28 then do
     match ← findCloseParen (bytes s) j with
     | none => .ok []
     | some close => do
      let arg ← slice s (j + 1) close
      let name ← slice s start j
      let inner ← scanPseudosFrom fuel arg 0
      let rest ← scanPseudosFrom fuel s (close + 1)
      .ok ((name, arg) :: inner ++ rest)
    else scanPseudosFrom fuel s (max j (i + 1))
   else scanPseudosFrom fuel s (i + 1)
  else .ok []

def scanPseudos (s : Text) : Run (List (Text × Text)) := scanPseudosFrom ((bytes s).length + 1) s 0

def isProceduralName (name : Text) : Bool :=
 stringOps.contains name || unsupportedOps.contains name || ["-abp-has".toList, "if".toList, "if-not".toList].contains name

def hasProceduralSyntax (selector : Text) : Run Bool :=
 if ':' ∉ selector then .ok false else (scanPseudos selector).map fun calls => calls.any fun call => isProceduralName call.1

def splitFirstCompoundFrom (part : Text) : ℕ → ℕ → Run (Text × Text)
 | 0, _ => .error .fuel
 | fuel + 1, i =>
  if i < (bytes part).length then do
   let c ← byteAt (bytes part) i
   if c = 0x5C then splitFirstCompoundFrom part fuel (i + 2)
   else if c = 0x5B then do
    match ← skipBrackets (bytes part) i with
    | some j => splitFirstCompoundFrom part fuel j
    | none => .ok (part, [])
   else if c = 0x28 then do
    match ← findCloseParen (bytes part) i with
    | some j => splitFirstCompoundFrom part fuel (j + 1)
    | none => .ok (part, [])
   else if isAsciiWhitespaceByte c || c == 0x3E || c == 0x2B || c == 0x7E then do
    let step ← slice part 0 i
    let rest ← slice part i (bytes part).length
    .ok (step, rest)
   else splitFirstCompoundFrom part fuel (i + 1)
  else .ok (part, [])

def splitFirstCompound (part : Text) : Run (Text × Text) := do
 let i ← skipWhile isAsciiWhitespaceByte (bytes part) ((bytes part).length + 1) 1
 splitFirstCompoundFrom part ((bytes part).length + 1) i

def splitKeyValueFrom (arg : Text) : ℕ → ℕ → UInt8 → Bool → Run (Text × Option Text)
 | 0, _, _, _ => .error .fuel
 | fuel + 1, i, quote, regexOpen =>
  if i < (bytes arg).length then do
   let c ← byteAt (bytes arg) i
   if c = 0x5C then splitKeyValueFrom arg fuel (i + 2) quote regexOpen
   else if regexOpen then splitKeyValueFrom arg fuel (i + 1) quote (c != 0x2F)
   else if quote ≠ 0 then splitKeyValueFrom arg fuel (i + 1) (if c = quote then 0 else quote) regexOpen
   else if c = 0x22 ∨ c = 0x27 then splitKeyValueFrom arg fuel (i + 1) c regexOpen
   else if c = 0x3D then do
    let key ← slice arg 0 i
    let value ← slice arg (i + 1) (bytes arg).length
    .ok (key, some value)
   else splitKeyValueFrom arg fuel (i + 1) quote regexOpen
  else .ok (arg, none)

/-- At the first equals sign outside quotes and the regular expression that may come first. -/
def splitKeyValue (arg : Text) : Run (Text × Option Text) :=
 let inRegex := (bytes arg)[0]? == some 0x2F
 splitKeyValueFrom arg ((bytes arg).length + 1) (if inRegex then 1 else 0) 0 inRegex

/-! ## Every scan returns -/

variable {go : UInt8 → Bool} {b : List UInt8} {fuel i : ℕ}

theorem skipWhile_returns (h : b.length - i < fuel) :
  Returns (skipWhile go b fuel i) fun j => i ≤ j ∧ (i ≤ b.length → j ≤ b.length) := by
 induction fuel generalizing i with
 | zero => omega
 | succ fuel ih =>
  rw [skipWhile]
  split_ifs with hi
  · refine (byteAt_returns hi).bind fun c _ => ?_
    split_ifs
    · refine (ih (by omega)).mono fun j hj => ?_
      omega
    · exact .pure ⟨Nat.le_refl i, id⟩
  · exact .pure ⟨Nat.le_refl i, id⟩

theorem skipBracketsFrom_returns {quote : UInt8} (h : b.length - i < fuel) :
  Returns (skipBracketsFrom b fuel i quote) fun r => ∀ j ∈ r, i < j ∧ j ≤ b.length := by
 induction fuel generalizing i quote with
 | zero => omega
 | succ fuel ih =>
  have hnext : ∀ {i' : ℕ} {quote' : UInt8}, i < i' → i < b.length →
    Returns (skipBracketsFrom b fuel i' quote') fun r => ∀ j ∈ r, i < j ∧ j ≤ b.length := fun hi' hi =>
   (ih (by omega)).mono fun r hr j hj => ⟨hi'.trans (hr j hj).1, (hr j hj).2⟩
  rw [skipBracketsFrom]
  by_cases hi : i < b.length
  · rw [if_pos hi]
    refine (byteAt_returns hi).bind fun c _ => ?_
    split_ifs
    · exact hnext (by omega) hi
    · exact hnext (by omega) hi
    · exact hnext (by omega) hi
    · exact hnext (by omega) hi
    · refine .pure ?_
      rintro _ ⟨⟩
      exact ⟨Nat.lt_succ_self i, hi⟩
    · exact hnext (by omega) hi
  · rw [if_neg hi]
    exact .pure (by simp)

theorem skipBrackets_returns (b : List UInt8) (i : ℕ) : Returns (skipBrackets b i) fun r => ∀ j ∈ r, i < j ∧ j ≤ b.length :=
 (skipBracketsFrom_returns (by omega)).mono fun r hr j hj => ⟨by have hlt := (hr j hj).1; omega, (hr j hj).2⟩

def ClosesAfter (b : List UInt8) (i : ℕ) (r : Option ℕ) : Prop := ∀ close ∈ r, i ≤ close ∧ close < b.length ∧ b[close]? = some 0x29

theorem findCloseParenFrom_returns {depth : ℤ} (h : b.length - i < fuel) :
  Returns (findCloseParenFrom b fuel i depth) (ClosesAfter b i) := by
 induction fuel generalizing i depth with
 | zero => omega
 | succ fuel ih =>
  have hnext : ∀ {i' : ℕ} {depth' : ℤ}, i < i' → i < b.length → Returns (findCloseParenFrom b fuel i' depth') (ClosesAfter b i) :=
   fun hi' hi => (ih (by omega)).mono fun r hr j hj => ⟨hi'.le.trans (hr j hj).1, (hr j hj).2⟩
  rw [findCloseParenFrom]
  by_cases hi : i < b.length
  · rw [if_pos hi]
    refine (byteAt_returns hi).bind fun c hc => ?_
    split_ifs with hescape hopen hclose
    · exact hnext (by omega) hi
    · exact hnext (by omega) hi
    · refine .pure ?_
      rintro _ ⟨⟩
      exact ⟨Nat.le_refl i, hi, hclose ▸ hc⟩
    · exact hnext (by omega) hi
    · exact hnext (by omega) hi
  · rw [if_neg hi]
    exact .pure (by simp [ClosesAfter])

theorem findCloseParen_returns (b : List UInt8) (i : ℕ) : Returns (findCloseParen b i) (ClosesAfter b i) :=
 findCloseParenFrom_returns (by omega)

theorem findCloseParen_after (h : b[i]? = some 0x28) : Returns (findCloseParen b i) (ClosesAfter b (i + 1)) := by
 refine (findCloseParen_returns b i).mono fun r hr close hclose => ?_
 obtain ⟨hle, hlt, hbyte⟩ := hr close hclose
 have hne : i ≠ close := by
  rintro rfl
  rw [h] at hbyte
  cases hbyte
 exact ⟨by omega, hlt, hbyte⟩

/-! ## Every slice is on boundaries -/

variable {s : Text}

theorem boundary_close {r : Option ℕ} {close : ℕ} (h : ClosesAfter (bytes s) i r) (hclose : close ∈ r) :
  Boundary s close ∧ Boundary s (close + 1) := boundary_ascii (h close hclose).2.2 (by decide)

theorem scanPseudosFrom_returns (h : (bytes s).length - i < fuel) : Returns (scanPseudosFrom fuel s i) fun _ => True := by
 induction fuel generalizing s i with
 | zero => omega
 | succ fuel ih =>
  rw [scanPseudosFrom]
  by_cases hi : i < (bytes s).length
  · rw [if_pos hi]
    refine (byteAt_returns hi).bind fun c hc => ?_
    split_ifs with hescape hbracket hcolon
    · exact ih (by omega)
    · refine (skipBrackets_returns _ _).bind fun r hr => ?_
      cases r with
      | none => exact .pure trivial
      | some j =>
       have hlt := (hr j rfl).1
       exact ih (by omega)
    · subst hcolon
      refine (skipWhile_returns (by omega)).bind fun j hj => ?_
      refine (isAt_returns _ _ _).bind fun found hfound => ?_
      cases found with
      | false => exact ih (by omega)
      | true =>
       have hopen := hfound rfl
       refine (findCloseParen_after hopen).bind fun r hr => ?_
       cases r with
       | none => exact .pure trivial
       | some close =>
        obtain ⟨hle, hlt, -⟩ := hr close rfl
        have hstart := (boundary_ascii hc (by decide)).2
        have hname := boundary_ascii hopen (by decide)
        refine (slice_length hname.2 (boundary_close hr rfl).1 hle).bind fun arg harg => ?_
        refine (slice_length hstart hname.1 hj.1).bind fun name _ => ?_
        refine (ih (by omega)).bind fun inner _ => ?_
        refine (ih (by omega)).bind fun rest _ => ?_
        exact .pure trivial
    · exact ih (by omega)
  · rw [if_neg hi]
    exact .pure trivial

theorem scanPseudos_returns (s : Text) : Returns (scanPseudos s) fun _ => True := scanPseudosFrom_returns (by omega)

theorem hasProceduralSyntax_returns (s : Text) : Returns (hasProceduralSyntax s) fun _ => True := by
 unfold hasProceduralSyntax
 by_cases hcolon : ':' ∉ s
 · rw [if_pos hcolon]
   exact .pure trivial
 · obtain ⟨calls, hcalls, -⟩ := scanPseudos_returns s
   rw [if_neg hcolon, hcalls]
   exact .pure trivial

theorem splitFirstCompoundFrom_returns (hi : 0 < i) (h : (bytes s).length - i < fuel) :
  Returns (splitFirstCompoundFrom s fuel i) fun r => r.2 = [] ∨ r.2.length < s.length := by
 induction fuel generalizing i with
 | zero => omega
 | succ fuel ih =>
  rw [splitFirstCompoundFrom]
  by_cases hlt : i < (bytes s).length
  · rw [if_pos hlt]
    refine (byteAt_returns hlt).bind fun c hc => ?_
    split_ifs with hescape hbracket hparen hends
    · exact ih (by omega) (by omega)
    · refine (skipBrackets_returns _ _).bind fun r hr => ?_
      cases r with
      | none => exact .pure (.inl rfl)
      | some j =>
       have hj := (hr j rfl).1
       exact ih (by omega) (by omega)
    · refine (findCloseParen_returns _ _).bind fun r hr => ?_
      cases r with
      | none => exact .pure (.inl rfl)
      | some j =>
       have hj := (hr j rfl).1
       exact ih (by omega) (by omega)
    · have hboundary : Boundary s i := by
       refine (boundary_ascii hc ?_).1
       simp only [isAsciiWhitespaceByte, Bool.or_eq_true, beq_iff_eq] at hends
       rcases hends with ((((((rfl | rfl) | rfl) | rfl) | rfl) | rfl) | rfl) | rfl <;> decide
      refine (slice_length (boundary_zero s) hboundary (Nat.zero_le i)).bind fun step _ => ?_
      refine (slice_returns hboundary (boundary_end s) (by omega)).bind fun rest hrest => ?_
      obtain ⟨u, v, hs, hu, -⟩ := hrest
      have hne : u ≠ [] := by
       rintro rfl
       simp at hu
       omega
      have hpos := List.length_pos_iff.mpr hne
      refine .pure (.inr ?_)
      change rest.length < s.length
      rw [hs, List.length_append, List.length_append]
      omega
    · exact ih (by omega) (by omega)
  · rw [if_neg hlt]
    exact .pure (.inl rfl)

theorem splitFirstCompound_returns (s : Text) : Returns (splitFirstCompound s) fun r => r.2 = [] ∨ r.2.length < s.length := by
 refine (skipWhile_returns (by omega)).bind fun i hi => ?_
 exact splitFirstCompoundFrom_returns (by omega) (by omega)

theorem splitKeyValueFrom_returns {quote : UInt8} {regexOpen : Bool} (h : (bytes s).length - i < fuel) :
  Returns (splitKeyValueFrom s fuel i quote regexOpen) fun _ => True := by
 induction fuel generalizing i quote regexOpen with
 | zero => omega
 | succ fuel ih =>
  rw [splitKeyValueFrom]
  by_cases hlt : i < (bytes s).length
  · rw [if_pos hlt]
    refine (byteAt_returns hlt).bind fun c hc => ?_
    split_ifs with hescape hregex hquote hsame hopen hequals
    · exact ih (by omega)
    · exact ih (by omega)
    · exact ih (by omega)
    · exact ih (by omega)
    · exact ih (by omega)
    · subst hequals
      obtain ⟨hkey, hvalue⟩ := boundary_ascii hc (by decide)
      refine (slice_length (boundary_zero s) hkey (Nat.zero_le i)).bind fun key _ => ?_
      refine (slice_length hvalue (boundary_end s) hlt).bind fun value _ => ?_
      exact .pure trivial
    · exact ih (by omega)
  · rw [if_neg hlt]
    exact .pure trivial

theorem splitKeyValue_returns (s : Text) : Returns (splitKeyValue s) fun _ => True := splitKeyValueFrom_returns (by omega)

end MoltBrowser.Procedural
