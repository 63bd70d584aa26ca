import MoltBrowser.Bytes
import MoltBrowser.RuleDerivations

set_option autoImplicit false

/-!
# Grammar text

The literals a grammar is written with and the runtime's parser for them: alternatives of quoted
literals and rule names. The parser's other syntax (ranges, groups, repetitions, tokens) is refused
here.
-/
namespace MoltBrowser.Gbnf
open List

/-! ## Writing -/

def hexDigit (d : ℕ) : UInt8 := if d < 10 then UInt8.ofNat (0x30 + d) else UInt8.ofNat (0x37 + d)

/-- The last `digits` hex digits of `c`. -/
def hexText (c : ℕ) : ℕ → Bytes
 | 0 => []
 | digits + 1 => hexDigit (c >>> (digits * 4) &&& 0xF) :: hexText c digits

/-- Printable ASCII as it is (but `"` and a backslash), everything else escaped. -/
def appendGbnfChar (c : ℕ) : Bytes :=
 if c = 0x22 then [0x5C, 0x22]
 else if c = 0x5C then [0x5C, 0x5C]
 else if 0x20 ≤ c ∧ c < 0x7F then [UInt8.ofNat c]
 else if c = 0x0A then [0x5C, 0x6E]
 else if c = 0x09 then [0x5C, 0x74]
 else if c = 0x0D then [0x5C, 0x72]
 else if c < 0x100 then 0x5C :: 0x78 :: hexText c 2
 else if c < 0x10000 then 0x5C :: 0x75 :: hexText c 4
 else 0x5C :: 0x55 :: hexText c 8

def gbnfLiteral (s : List ℕ) : Bytes := 0x22 :: (s.flatMap appendGbnfChar ++ [0x22])

/-! ## Parsing -/

def isDigitChar (c : UInt8) : Bool := 0x30 ≤ c && c ≤ 0x39

def isWordChar (c : UInt8) : Bool :=
 (0x61 ≤ c && c ≤ 0x7A) || (0x41 ≤ c && c ≤ 0x5A) || c == 0x2D || isDigitChar c

def hexValue (c : UInt8) : Option ℕ :=
 if 0x61 ≤ c ∧ c ≤ 0x66 then some (c.toNat - 0x61 + 10)
 else if 0x41 ≤ c ∧ c ≤ 0x46 then some (c.toNat - 0x41 + 10)
 else if 0x30 ≤ c ∧ c ≤ 0x39 then some (c.toNat - 0x30)
 else none

def parseHex : ℕ → ℕ → Bytes → Option (ℕ × Bytes)
 | 0, value, s => some (value, s)
 | _ + 1, _, [] => none
 | size + 1, value, c :: s => (hexValue c).bind fun d => parseHex size (value * 16 + d) s

/-- The bytes after the first, at most `n`. -/
def decodeRest : ℕ → ℕ → Bytes → ℕ × Bytes
 | 0, value, s => (value, s)
 | _ + 1, value, [] => (value, [])
 | n + 1, value, b :: s =>
  if b = 0 then (value, b :: s) else decodeRest n (value * 64 + (b.toNat &&& 0x3F)) s

def decodeUtf8 (firstByte : UInt8) (s : Bytes) : ℕ × Bytes :=
 let len := [1, 1, 1, 1, 1, 1, 1, 1, 1, 1, 1, 1, 2, 2, 3, 4].getD (firstByte.toNat >>> 4) 1
 decodeRest (len - 1) (firstByte.toNat &&& (1 <<< (8 - len) - 1)) s

def parseEscape : Bytes → Option (ℕ × Bytes)
 | [] => none
 | e :: s =>
  if e = 0x78 then parseHex 2 0 s
  else if e = 0x75 then parseHex 4 0 s
  else if e = 0x55 then parseHex 8 0 s
  else if e = 0x74 then some (0x09, s)
  else if e = 0x72 then some (0x0D, s)
  else if e = 0x6E then some (0x0A, s)
  else if e = 0x5C ∨ e = 0x22 ∨ e = 0x5B ∨ e = 0x5D ∨ e = 0x2D then some (e.toNat, s)
  else none

def parseChar : Bytes → Option (ℕ × Bytes)
 | [] => none
 | c :: s =>
  if c = 0x5C then parseEscape s
  else if c = 0 then none
  else some (decodeUtf8 c s)

def parseSpace (newlineOk : Bool) : Bytes → Bytes
 | [] => []
 | c :: s =>
  if c = 0x20 ∨ c = 0x09 then parseSpace newlineOk s
  else if c = 0x23 then parseSpace newlineOk (s.dropWhile fun b => b != 0x0D && b != 0x0A)
  else if newlineOk = true ∧ (c = 0x0D ∨ c = 0x0A) then parseSpace newlineOk s
  else c :: s
termination_by s => s.length
decreasing_by
 · exact Nat.lt_succ_self _
 · exact Nat.lt_succ_of_le (dropWhile_suffix _).length_le
 · exact Nat.lt_succ_self _

theorem length_parseSpace (newlineOk : Bool) (s : Bytes) : (parseSpace newlineOk s).length ≤ s.length := by
 induction s using parseSpace.induct newlineOk with
 | case1 => rw [parseSpace]
 | case2 c s h ih =>
  rw [parseSpace, if_pos h]
  exact Nat.le_succ_of_le ih
 | case3 s h ih =>
  rw [parseSpace, if_neg h, if_pos rfl]
  exact (ih.trans (dropWhile_suffix _).length_le).trans (Nat.le_succ _)
 | case4 c s h h' h'' ih =>
  rw [parseSpace, if_neg h, if_neg h', if_pos h'']
  exact Nat.le_succ_of_le ih
 | case5 c s h h' h'' => rw [parseSpace, if_neg h, if_neg h', if_neg h'']

theorem length_parseHex {size value cp : ℕ} {s rest : Bytes} (h : parseHex size value s = some (cp, rest)) :
  rest.length ≤ s.length := by
 induction size generalizing value s with
 | zero =>
  obtain ⟨-, rfl⟩ := Prod.mk.inj (Option.some.inj h)
  exact le_refl _
 | succ size ih =>
  cases s with
  | nil => exact absurd h (Option.some_ne_none _).symm
  | cons c s =>
   obtain ⟨d, -, hd⟩ := Option.bind_eq_some_iff.1 h
   exact Nat.le_succ_of_le (ih hd)

theorem length_decodeRest (n value : ℕ) (s : Bytes) : (decodeRest n value s).2.length ≤ s.length := by
 induction n generalizing value s with
 | zero => exact le_refl _
 | succ n ih =>
  cases s with
  | nil => exact le_refl _
  | cons b s =>
   rw [decodeRest]
   split_ifs
   · exact le_refl _
   · exact Nat.le_succ_of_le (ih _ s)

theorem length_parseChar {cp : ℕ} {s rest : Bytes} (h : parseChar s = some (cp, rest)) :
  rest.length < s.length := by
 cases s with
 | nil => exact absurd h (Option.some_ne_none _).symm
 | cons c s =>
  rw [parseChar] at h
  split_ifs at h
  · cases s with
    | nil => exact absurd h (Option.some_ne_none _).symm
    | cons e s =>
     rw [parseEscape] at h
     have hlater : rest.length ≤ s.length := by
      split_ifs at h
      · exact length_parseHex h
      · exact length_parseHex h
      · exact length_parseHex h
      all_goals
       obtain ⟨-, rfl⟩ := Prod.mk.inj (Option.some.inj h)
       exact le_refl _
     rw [length_cons, length_cons]
     omega
  · have hdecoded : (decodeUtf8 c s).2.length ≤ s.length := length_decodeRest ..
    rw [Option.some.inj h] at hdecoded
    exact Nat.lt_succ_of_le hdecoded

def parseLiteral (s : Bytes) : Option (List ℕ × Bytes) :=
 match s with
 | [] => none
 | c :: s =>
  if c = 0x22 then some ([], s)
  else
   match _h : parseChar (c :: s) with
   | none => none
   | some (cp, rest) => (parseLiteral rest).map fun literal => (cp :: literal.1, literal.2)
termination_by s.length
decreasing_by exact length_parseChar _h

theorem length_parseLiteral {s rest : Bytes} {cps : List ℕ} (h : parseLiteral s = some (cps, rest)) :
  rest.length < s.length := by
 induction s using parseLiteral.induct generalizing cps with
 | case1 =>
  rw [parseLiteral] at h
  exact absurd h (Option.some_ne_none _).symm
 | case2 s =>
  rw [parseLiteral, if_pos rfl] at h
  obtain ⟨-, rfl⟩ := Prod.mk.inj (Option.some.inj h)
  exact Nat.lt_succ_self _
 | case3 c s hquote hchar =>
  rw [parseLiteral, if_neg hquote, hchar] at h
  exact absurd h (Option.some_ne_none _).symm
 | case4 c s hquote cp more hchar ih =>
  rw [parseLiteral, if_neg hquote, hchar] at h
  obtain ⟨⟨cps', rest'⟩, hliteral, heq⟩ := Option.map_eq_some_iff.1 h
  obtain ⟨-, rfl⟩ := Prod.mk.inj heq
  exact (ih hliteral).trans (length_parseChar hchar)

abbrev Element := Symbol ℕ Bytes

def unmodelledSyntax (c : UInt8) : Bool :=
 c == 0x5B || c == 0x3C || c == 0x21 || c == 0x28 || c == 0x2E || c == 0x2A || c == 0x2B || c == 0x3F || c == 0x7B

def parseSequence (s : Bytes) : Option (List Element × Bytes) :=
 match s with
 | [] => some ([], [])
 | c :: s =>
  if c = 0x22 then
   match _h : parseLiteral s with
   | none => none
   | some (cps, rest) =>
    (parseSequence (parseSpace false rest)).map fun sequence => (cps.map .terminal ++ sequence.1, sequence.2)
  else if isWordChar c then
   (parseSequence (parseSpace false (s.dropWhile isWordChar))).map fun sequence =>
    (.nonterminal (c :: s.takeWhile isWordChar) :: sequence.1, sequence.2)
  else if unmodelledSyntax c then none
  else some ([], c :: s)
termination_by s.length
decreasing_by
 · exact Nat.lt_succ_of_le ((length_parseSpace ..).trans (length_parseLiteral _h).le)
 · exact Nat.lt_succ_of_le ((length_parseSpace ..).trans (dropWhile_suffix _).length_le)

theorem length_parseSequence {s rest : Bytes} {sequence : List Element}
  (h : parseSequence s = some (sequence, rest)) : rest.length ≤ s.length := by
 induction s using parseSequence.induct generalizing sequence with
 | case1 =>
  rw [parseSequence] at h
  obtain ⟨-, rfl⟩ := Prod.mk.inj (Option.some.inj h)
  exact le_refl _
 | case2 s hliteral =>
  rw [parseSequence, if_pos rfl, hliteral] at h
  exact absurd h (Option.some_ne_none _).symm
 | case3 s cps more hliteral ih =>
  rw [parseSequence, if_pos rfl, hliteral] at h
  obtain ⟨⟨symbols, rest'⟩, hsequence, heq⟩ := Option.map_eq_some_iff.1 h
  obtain ⟨-, rfl⟩ := Prod.mk.inj heq
  exact ((ih hsequence).trans (length_parseSpace ..)).trans
   (Nat.le_succ_of_le (length_parseLiteral hliteral).le)
 | case4 c s hquote hword ih =>
  rw [parseSequence, if_neg hquote, if_pos hword] at h
  obtain ⟨⟨symbols, rest'⟩, hsequence, heq⟩ := Option.map_eq_some_iff.1 h
  obtain ⟨-, rfl⟩ := Prod.mk.inj heq
  exact ((ih hsequence).trans (length_parseSpace ..)).trans
   (Nat.le_succ_of_le (dropWhile_suffix _).length_le)
 | case5 c s hquote hword hother =>
  rw [parseSequence, if_neg hquote, if_neg hword, if_pos hother] at h
  exact absurd h (Option.some_ne_none _).symm
 | case6 c s hquote hword hother =>
  rw [parseSequence, if_neg hquote, if_neg hword, if_neg hother] at h
  obtain ⟨-, rfl⟩ := Prod.mk.inj (Option.some.inj h)
  exact le_refl _

def parseAlternates (s : Bytes) : Option (List (List Element) × Bytes) :=
 match _h : parseSequence s with
 | none => none
 | some (sequence, []) => some ([sequence], [])
 | some (sequence, c :: more) =>
  if c = 0x7C then
   (parseAlternates (parseSpace true more)).map fun alternates => (sequence :: alternates.1, alternates.2)
  else some ([sequence], c :: more)
termination_by s.length
decreasing_by
 have hrest := length_parseSequence _h
 exact Nat.lt_of_le_of_lt (length_parseSpace ..) hrest

/-! ## What was written is read back -/

theorem hexValue_hexDigit {d : ℕ} (h : d < 16) : hexValue (hexDigit d) = some d := by
 have hall : ∀ d < 16, hexValue (hexDigit d) = some d := by decide
 exact hall d h

theorem parseHex_hexText (c digits value : ℕ) (rest : Bytes) :
  parseHex digits value (hexText c digits ++ rest) =
   some (value * 16 ^ digits + c % 16 ^ digits, rest) := by
 induction digits generalizing value with
 | zero => rw [Nat.pow_zero, Nat.mod_one, Nat.mul_one]; rfl
 | succ digits ih =>
  have hdigit : c >>> (digits * 4) &&& 0xF = c / 16 ^ digits % 16 := by
   rw [Nat.and_two_pow_sub_one_eq_mod _ 4, Nat.shiftRight_eq_div_pow, Nat.mul_comm digits, Nat.pow_mul]
  have hlt : c / 16 ^ digits % 16 < 16 := Nat.mod_lt _ (by decide)
  rw [hexText, cons_append, parseHex, hdigit, hexValue_hexDigit hlt, Option.bind_some, ih,
   Nat.pow_succ, Nat.mod_mul, Nat.add_mul]
  congr 2
  ring

theorem parseHex_exact {c digits : ℕ} (h : c < 16 ^ digits) (rest : Bytes) :
  parseHex digits 0 (hexText c digits ++ rest) = some (c, rest) := by
 rw [parseHex_hexText, Nat.zero_mul, Nat.zero_add, Nat.mod_eq_of_lt h]

theorem decodeUtf8_ascii {c : ℕ} (h : c < 0x7F) (rest : Bytes) : decodeUtf8 (UInt8.ofNat c) rest = (c, rest) := by
 have hall : ∀ c < 0x7F,
   [1, 1, 1, 1, 1, 1, 1, 1, 1, 1, 1, 1, 2, 2, 3, 4].getD ((UInt8.ofNat c).toNat >>> 4) 1 = 1 ∧
    (UInt8.ofNat c).toNat &&& 0x7F = c := by decide +kernel
 obtain ⟨hlen, hvalue⟩ := hall c h
 rw [decodeUtf8, hlen]
 exact congrArg (·, rest) hvalue

theorem ofNat_ne {c k : ℕ} (hc : c < 256) (hk : k < 256) (h : c ≠ k) : UInt8.ofNat c ≠ UInt8.ofNat k := by
 intro heq
 have hval := congrArg UInt8.toNat heq
 rw [UInt8.toNat_ofNat_of_lt' hc, UInt8.toNat_ofNat_of_lt' hk] at hval
 exact h hval

theorem parseChar_append {c : ℕ} (h : c < 0x110000) (rest : Bytes) :
  parseChar (appendGbnfChar c ++ rest) = some (c, rest) := by
 rw [appendGbnfChar]
 split_ifs with h1 h2 h3 h4 h5 h6 h7 h8
 · rw [h1]; rfl
 · rw [h2]; rfl
 · have hslash : UInt8.ofNat c ≠ 0x5C := ofNat_ne (by omega) (by decide) h2
   have hnul : UInt8.ofNat c ≠ 0 := ofNat_ne (k := 0) (by omega) (by decide) (by omega)
   rw [singleton_append, parseChar, if_neg hslash, if_neg hnul, decodeUtf8_ascii h3.2]
 · rw [h4]; rfl
 · rw [h5]; rfl
 · rw [h6]; rfl
 · exact parseHex_exact h7 rest
 · exact parseHex_exact h8 rest
 · exact parseHex_exact (h.trans (by norm_num)) rest

theorem appendGbnfChar_head (c : ℕ) : ∃ b bytes, appendGbnfChar c = b :: bytes ∧ b ≠ 0x22 := by
 have hslash : (0x5C : UInt8) ≠ 0x22 := by decide
 rw [appendGbnfChar]
 split_ifs with h1 h2 h3
 case pos => exact ⟨_, _, rfl, hslash⟩
 case pos => exact ⟨_, _, rfl, hslash⟩
 case pos => exact ⟨_, _, rfl, ofNat_ne (by omega) (by decide) h1⟩
 all_goals exact ⟨_, _, rfl, hslash⟩

theorem parseLiteral_append {s : List ℕ} (h : ∀ c ∈ s, c < 0x110000) (rest : Bytes) :
  parseLiteral (s.flatMap appendGbnfChar ++ 0x22 :: rest) = some (s, rest) := by
 induction s with
 | nil => rw [flatMap_nil, nil_append, parseLiteral, if_pos rfl]
 | cons c s ih =>
  obtain ⟨b, bytes, hbytes, hquote⟩ := appendGbnfChar_head c
  have hchar := parseChar_append (h c (mem_cons_self ..)) (s.flatMap appendGbnfChar ++ 0x22 :: rest)
  rw [hbytes, cons_append] at hchar
  rw [flatMap_cons, append_assoc, hbytes, cons_append, parseLiteral, if_neg hquote, hchar]
  dsimp only
  rw [ih fun d hd => h d (mem_cons_of_mem c hd)]
  rfl

/-! ## Alternatives -/

/-- A literal, and the rule for what comes after it if there is any. -/
structure Alternative where
 label : List ℕ
 next : Option Bytes

def Alternative.text (a : Alternative) : Bytes :=
 gbnfLiteral a.label ++ (match a.next with
  | none => []
  | some name => 0x20 :: name)

def Alternative.elements (a : Alternative) : List Element :=
 a.label.map .terminal ++ (match a.next with
  | none => []
  | some name => [.nonterminal name])

def ruleBody (terminal : Bool) (alternatives : List Alternative) : Bytes :=
 (if terminal then [0x7C, 0x20] else []) ++
  [0x20, 0x7C, 0x20].intercalate (alternatives.map Alternative.text)

def Word (name : Bytes) : Prop := name ≠ [] ∧ ∀ b ∈ name, isWordChar b = true

structure Alternative.Writable (a : Alternative) : Prop where
 label : ∀ c ∈ a.label, c < 0x110000
 next : ∀ name ∈ a.next, Word name

def Closing (tail rest : Bytes) : Prop :=
 (tail = [] ∧ rest = []) ∨ ∃ more, tail = 0x20 :: 0x7C :: more ∧ rest = 0x7C :: more

section Sequence

variable {tail rest : Bytes}

theorem parseSpace_blank (newlineOk : Bool) (s : Bytes) : parseSpace newlineOk (0x20 :: s) = parseSpace newlineOk s := by
 rw [parseSpace, if_pos (Or.inl rfl)]

theorem parseSpace_stop (newlineOk : Bool) {c : UInt8} (s : Bytes)
  (h : c ≠ 0x20 ∧ c ≠ 0x09 ∧ c ≠ 0x23 ∧ c ≠ 0x0D ∧ c ≠ 0x0A) : parseSpace newlineOk (c :: s) = c :: s := by
 obtain ⟨hblank, htab, hcomment, hreturn, hnewline⟩ := h
 rw [parseSpace, if_neg (by simp [hblank, htab]), if_neg hcomment, if_neg (by simp [hreturn, hnewline])]

theorem Closing.space (h : Closing tail rest) : parseSpace false tail = rest := by
 rcases h with ⟨rfl, rfl⟩ | ⟨more, rfl, rfl⟩
 · rw [parseSpace]
 · rw [parseSpace_blank]
   exact parseSpace_stop false more (by decide)

theorem parseSequence_bar (more : Bytes) : parseSequence (0x7C :: more) = some ([], 0x7C :: more) := by
 rw [parseSequence, if_neg (by decide), if_neg (by decide), if_neg (by decide)]

theorem Closing.sequence (h : Closing tail rest) : parseSequence rest = some ([], rest) := by
 rcases h with ⟨-, rfl⟩ | ⟨more, -, rfl⟩
 · rw [parseSequence]
 · exact parseSequence_bar more

theorem Closing.word (h : Closing tail rest) {name : Bytes} (hname : ∀ b ∈ name, isWordChar b = true) :
  (name ++ tail).takeWhile isWordChar = name ∧ (name ++ tail).dropWhile isWordChar = tail := by
 rw [takeWhile_append_of_pos hname, dropWhile_append_of_pos hname]
 rcases h with ⟨rfl, -⟩ | ⟨more, rfl, -⟩
 · exact ⟨append_nil name, rfl⟩
 · rw [takeWhile_cons_of_neg (by decide), dropWhile_cons_of_neg (by decide)]
   exact ⟨append_nil name, rfl⟩

theorem word_stop {c : UInt8} (h : isWordChar c = true) :
  c ≠ 0x22 ∧ c ≠ 0x20 ∧ c ≠ 0x09 ∧ c ≠ 0x23 ∧ c ≠ 0x0D ∧ c ≠ 0x0A := by
 refine ⟨?_, ?_, ?_, ?_, ?_, ?_⟩
 all_goals
  rintro rfl
  exact absurd h (by decide)

theorem parseSequence_name (h : Closing tail rest) {name : Bytes} (hname : Word name) :
  parseSpace false (0x20 :: name ++ tail) = name ++ tail ∧
   parseSequence (name ++ tail) = some ([.nonterminal name], rest) := by
 obtain ⟨hne, hall⟩ := hname
 cases name with
 | nil => exact absurd rfl hne
 | cons c name =>
  have hc := hall c (mem_cons_self ..)
  obtain ⟨htake, hdrop⟩ := h.word fun b hb => hall b (mem_cons_of_mem c hb)
  obtain ⟨hquote, hstop⟩ := word_stop hc
  constructor
  · rw [cons_append, parseSpace_blank]
    exact parseSpace_stop false _ hstop
  · rw [cons_append, parseSequence, if_neg hquote, if_pos hc, htake, hdrop, h.space, h.sequence]
    rfl

theorem parseSequence_alternative (h : Closing tail rest) {a : Alternative} (ha : a.Writable) :
  parseSequence (a.text ++ tail) = some (a.elements, rest) := by
 obtain ⟨label, next⟩ := a
 have hliteral := parseLiteral_append ha.label
 cases next with
 | none =>
  have htext : Alternative.text ⟨label, none⟩ ++ tail = 0x22 :: (label.flatMap appendGbnfChar ++ 0x22 :: tail) := by
   simp [Alternative.text, gbnfLiteral]
  rw [htext, parseSequence, if_pos rfl, hliteral]
  dsimp only
  rw [h.space, h.sequence]
  rfl
 | some name =>
  have htext : Alternative.text ⟨label, some name⟩ ++ tail =
    0x22 :: (label.flatMap appendGbnfChar ++ 0x22 :: (0x20 :: name ++ tail)) := by
   simp [Alternative.text, gbnfLiteral]
  obtain ⟨hspace, hname⟩ := parseSequence_name h (ha.next name rfl)
  rw [htext, parseSequence, if_pos rfl, hliteral]
  dsimp only
  rw [hspace, hname]
  rfl

end Sequence

theorem parseAlternates_last {s : Bytes} {sequence : List Element} (h : parseSequence s = some (sequence, [])) :
  parseAlternates s = some ([sequence], []) := by
 rw [parseAlternates, h]

theorem parseAlternates_bar {s more : Bytes} {sequence : List Element}
  (h : parseSequence s = some (sequence, 0x7C :: more)) : parseAlternates s =
   (parseAlternates (parseSpace true more)).map fun alternates => (sequence :: alternates.1, alternates.2) := by
 rw [parseAlternates, h]
 exact if_pos rfl

def joined (alternatives : List Alternative) : Bytes :=
 [0x20, 0x7C, 0x20].intercalate (alternatives.map Alternative.text)

theorem joined_cons_cons (a b : Alternative) (alternatives : List Alternative) :
  joined (a :: b :: alternatives) = a.text ++ 0x20 :: 0x7C :: 0x20 :: joined (b :: alternatives) := by
 rw [joined, map_cons, map_cons, intercalate_cons_cons, append_assoc]
 rfl

theorem parseSpace_joined (a : Alternative) (alternatives : List Alternative) :
  parseSpace true (0x20 :: joined (a :: alternatives)) = joined (a :: alternatives) := by
 obtain ⟨bytes, hbytes⟩ : ∃ bytes, joined (a :: alternatives) = 0x22 :: bytes := by
  cases alternatives with
  | nil => exact ⟨_, intercalate_singleton⟩
  | cons b alternatives => exact ⟨_, joined_cons_cons a b alternatives⟩
 rw [parseSpace_blank, hbytes]
 exact parseSpace_stop true bytes (by decide)

theorem parseAlternates_joined (a : Alternative) (alternatives : List Alternative)
  (h : ∀ b ∈ a :: alternatives, b.Writable) :
  parseAlternates (joined (a :: alternatives)) =
   some ((a :: alternatives).map Alternative.elements, []) := by
 induction alternatives generalizing a with
 | nil =>
  have hsequence := parseSequence_alternative (Or.inl ⟨rfl, rfl⟩) (h a (mem_cons_self ..))
  rw [append_nil] at hsequence
  rw [joined, map_singleton, intercalate_singleton]
  exact parseAlternates_last hsequence
 | cons b alternatives ih =>
  have hsequence := parseSequence_alternative
   (Or.inr ⟨0x20 :: joined (b :: alternatives), rfl, rfl⟩) (h a (mem_cons_self ..))
  rw [joined_cons_cons, parseAlternates_bar hsequence, parseSpace_joined,
   ih b fun c hc => h c (mem_cons_of_mem a hc)]
  rfl

/-- A rule's text is read as its alternatives, and the empty one if something may end here. -/
theorem parseAlternates_ruleBody {terminal : Bool} {alternatives : List Alternative}
  (h : ∀ a ∈ alternatives, a.Writable) (hne : terminal = true ∨ alternatives ≠ []) :
  ∃ sequences, parseAlternates (ruleBody terminal alternatives) = some (sequences, []) ∧
   ∀ sequence, sequence ∈ sequences ↔
    (sequence = [] ∧ terminal = true) ∨ ∃ a ∈ alternatives, sequence = a.elements := by
 have hbody : ruleBody terminal alternatives = (if terminal then [0x7C, 0x20] else []) ++ joined alternatives := rfl
 have hmem : ∀ sequence, sequence ∈ alternatives.map Alternative.elements ↔
   ∃ a ∈ alternatives, sequence = a.elements := fun sequence => by
  rw [mem_map]
  exact exists_congr fun a => and_congr_right fun _ => eq_comm
 cases terminal with
 | false =>
  cases alternatives with
  | nil => simp at hne
  | cons a alternatives =>
   refine ⟨_, parseAlternates_joined a alternatives h, fun sequence => ?_⟩
   rw [hmem]
   simp
 | true =>
  rw [hbody]
  have hbar : parseAlternates (0x7C :: 0x20 :: joined alternatives) = (parseAlternates
    (parseSpace true (0x20 :: joined alternatives))).map fun alternates => ([] :: alternates.1, alternates.2) :=
   parseAlternates_bar (parseSequence_bar _)
  cases alternatives with
  | nil =>
   refine ⟨[[], []], ?_, fun sequence => by simp⟩
   have hend : parseSpace true [0x20] = [] := by rw [parseSpace_blank, parseSpace]
   have hlast : parseAlternates [] = some ([[]], []) := parseAlternates_last (by rw [parseSequence])
   change parseAlternates (0x7C :: 0x20 :: joined []) = _
   rw [hbar]
   change (parseAlternates (parseSpace true [0x20])).map _ = _
   rw [hend, hlast]
   rfl
  | cons a alternatives =>
   rw [parseSpace_joined, parseAlternates_joined a alternatives h] at hbar
   refine ⟨_, hbar, fun sequence => ?_⟩
   rw [mem_cons, hmem]
   simp

end MoltBrowser.Gbnf
