import MoltBrowser.CssBrackets
import MoltBrowser.HideStylesheet

set_option autoImplicit false

/-! # The declarations that a `:style()` filter may add -/
namespace MoltBrowser.StyleSanitizing
open CssSyntax TextReaders HideStylesheet List
open FilterLists (isWhitespace trim)

def maxStyleLen : ℕ := 1024
def maxDeclarations : ℕ := 32

/-! ## What the code computes -/

def forbiddenByte (b : UInt8) : Bool :=
 b == 0x7B || b == 0x7D || b == 0x3C || b == 0x3E || b == 0x5C || b == 0x40 || b ≤ 0x1F || b == 0x7F

def forbiddenWords : List Text :=
 ["/*".toList, "*/".toList, "url(".toList, "image-set(".toList, "image(".toList, "cross-fade(".toList, "element(".toList,
  "expression(".toList, "-moz-binding".toList, "behavior".toList, "javascript:".toList, "attr(".toList]

structure SplitScan where
 depth : ℤ := 0
 quote : Option Char := none
 /-- Whether a backslash in quotes comes before. -/
 escaped : Bool := false

def SplitScan.next (q : SplitScan) (c : Char) : SplitScan :=
 if q.escaped then { q with escaped := false }
 else match q.quote with
  | some x => if c = '\\' then { q with escaped := true } else if c = x then { q with quote := none } else q
  | none =>
   if isQuote c then { q with quote := some c }
   else if c = '(' then { q with depth := q.depth + 1 }
   else if c = ')' then { q with depth := q.depth - 1 }
   else q

def SplitScan.ends (q : SplitScan) (sep c : Char) : Bool := !q.escaped && q.quote.isNone && c == sep && q.depth == 0

def splitTopLevelFrom (sep : Char) (q : SplitScan) (part : Text) : Text → List Text
 | [] => [part]
 | c :: s => if q.ends sep c then part :: splitTopLevelFrom sep q [] s else splitTopLevelFrom sep (q.next c) (part ++ [c]) s

def splitTopLevel (sep : Char) (s : Text) : List Text := splitTopLevelFrom sep {} [] s

def splitOnce (sep : Char) (s : Text) : Option (Text × Text) :=
 if sep ∈ s then some (s.takeWhile (· != sep), (s.dropWhile (· != sep)).drop 1) else none

def trimEnd (s : Text) : Text := (s.reverse.dropWhile isWhitespace).reverse

def important : Text := "!important".toList

def stripImportant (value : Text) : Text :=
 if important <:+ value then trimEnd (value.take (value.length - important.length)) else value

def propOk (prop : Text) : Bool :=
 !prop.isEmpty && (bytes prop).length ≤ 64 && headIs Char.isAlpha (prop.dropWhile (· == '-')) &&
  prop.all fun c => c.isAlphanum || c == '-'

/-- A declaration as it is written; nothing where it refuses the style. -/
def declarationText (decl : Text) : Option Text :=
 match splitOnce ':' decl with
 | none => none
 | some (prop, value) =>
  let prop := lower (trim prop)
  let value := stripImportant (trim value)
  if !propOk prop || value.isEmpty || value.contains '!' || value.contains ':' then none
  else some (prop ++ ':' :: (value ++ important))

def sanitizeStyle (style : Text) : Option Text :=
 if style.isEmpty || (bytes style).length > maxStyleLen then none
 else if (bytes style).any forbiddenByte || forbiddenWords.any (fun bad => bad <:+: lower style) then none
 else
  match (((splitTopLevel ';' style).map trim).filter fun decl => !decl.isEmpty).mapM declarationText with
  | none => none
  | some out => if out.isEmpty || out.length > maxDeclarations then none else some ([';'].intercalate out)

/-! ## What its rule is to be -/

def styleRule (selector decls : Text) : Text := selector ++ '{' :: (decls ++ ['}'])

/-- Whatever comes after it, a rule with the declarations ends at its own bracket, and opens no rule or at-rule before. -/
def Contained (decls : Text) : Prop := ∀ selector further : Text, isSafeSelector selector = true → Closed selector →
 ∃ prelude block, stylesheet (styleRule selector decls ++ further) = .qualified prelude block :: stylesheet further ∧
  sourceOf prelude = (preprocess selector).dropWhile isSpace ∧ sourceOf block = decls ∧ ∀ l ∈ block, l.token.opensRule = false

/-- All its quotes are closed, and all its brackets outside quotes; a bracket that closes another than the innermost open one is none. -/
def Balanced (style : Text) : Prop := scanText ⟨none, []⟩ style = ⟨none, []⟩

instance (style : Text) : Decidable (Balanced style) := by unfold Balanced; infer_instance

/-! ## Quotes and brackets are kept -/

theorem marks_dropWhile {p : Char → Bool} (hp : markChars.any p = false) (s : Text) : marks (s.dropWhile p) = marks s := by
 have htaken : marks (s.takeWhile p) = [] := marks_neutral fun _ hc => neutral_of hp (mem_takeWhile_imp hc)
 calc marks (s.dropWhile p) = marks (s.takeWhile p) ++ marks (s.dropWhile p) := by rw [htaken, nil_append]
  _ = marks s := by rw [← marks_append, takeWhile_append_dropWhile]

theorem marks_not_whitespace : markChars.any isWhitespace = false := by simp [markChars, isWhitespace]

theorem marks_trimEnd (s : Text) : marks (trimEnd s) = marks s := by
 have hreverse : ∀ t : Text, marks t.reverse = (marks t).reverse := fun _ => filter_reverse
 rw [trimEnd, hreverse, marks_dropWhile marks_not_whitespace, hreverse, reverse_reverse]

theorem marks_trim (s : Text) : marks (trim s) = marks s := (marks_trimEnd _).trans (marks_dropWhile marks_not_whitespace s)

theorem marks_stripImportant (value : Text) : marks (stripImportant value) = marks value := by
 rw [stripImportant]
 split_ifs with h
 · obtain ⟨v, rfl⟩ := h
   have himportant : marks important = [] := by decide
   rw [marks_trimEnd, length_append, Nat.add_sub_cancel, take_left, marks_append, himportant, append_nil]
 · rfl

variable {sep : Char} {s prop : Text}

theorem splitOnce_eq {value : Text} (h : splitOnce sep s = some (prop, value)) : s = prop ++ sep :: value := by
 rw [splitOnce] at h
 split_ifs at h with hmem
 obtain ⟨hprop, hvalue⟩ := Prod.mk.inj (Option.some.inj h)
 have hparts : s.takeWhile (· != sep) ++ s.dropWhile (· != sep) = s := takeWhile_append_dropWhile
 cases hrest : s.dropWhile (· != sep) with
 | nil =>
  rw [hrest, append_nil] at hparts
  rw [← hparts] at hmem
  have hother := mem_takeWhile_imp (p := fun c => c != sep) hmem
  exact absurd rfl (bne_iff_ne.mp hother)
 | cons c rest =>
  have hnil : s.dropWhile (· != sep) ≠ [] := hrest ▸ cons_ne_nil c rest
  have hstop := head_dropWhile_not (· != sep) hnil
  simp only [hrest, head_cons] at hstop
  have hc : c = sep := by
   by_contra hne
   exact Bool.false_ne_true (hstop.symm.trans (bne_iff_ne.mpr hne))
  rw [hrest, hprop, hc] at hparts
  rw [hrest] at hvalue
  exact hparts.symm.trans (congrArg (fun v => prop ++ sep :: v) hvalue)

def isPropChar (c : Char) : Bool := c.isAlphanum || c == '-'

structure Written (decl out : Text) (prop value : Text) : Prop where
 decl_eq : decl = prop ++ ':' :: value
 out_eq : out = lower (trim prop) ++ ':' :: (stripImportant (trim value) ++ important)
 prop_chars : ∀ c ∈ lower (trim prop), isPropChar c = true

variable {decl : Text}

theorem written {out : Text} (h : declarationText decl = some out) : ∃ prop value, Written decl out prop value := by
 rw [declarationText] at h
 cases hsplit : splitOnce ':' decl with
 | none =>
  rw [hsplit] at h
  cases h
 | some parts =>
  obtain ⟨prop, value⟩ := parts
  rw [hsplit] at h
  dsimp only at h
  split_ifs at h with hrefused
  rw [Bool.or_eq_true, Bool.or_eq_true, Bool.or_eq_true, not_or, not_or, not_or] at hrefused
  have hprop : propOk (lower (trim prop)) = true := by
   cases hok : propOk (lower (trim prop)) with
   | true => rfl
   | false =>
    rw [hok] at hrefused
    exact absurd rfl hrefused.1.1.1
  rw [propOk, Bool.and_eq_true, all_eq_true] at hprop
  exact ⟨prop, value, splitOnce_eq hsplit, (Option.some.inj h).symm, hprop.2⟩

theorem marks_written {out value : Text} (h : Written decl out prop value) : marks out = marks decl := by
 have hlower : marks (lower (trim prop)) = [] := marks_neutral fun c hc => neutral_of (by simp [markChars, isPropChar]) (h.prop_chars c hc)
 have hprop : marks prop = [] := by
  rw [← marks_trim]
  refine marks_neutral fun c hc => ?_
  exact neutral_of (p := fun c => isPropChar c.toLower) (by simp [markChars, isPropChar]) (h.prop_chars _ (mem_map_of_mem hc))
 have hcolon : ∀ s : Text, marks (':' :: s) = marks s := fun s => rfl
 have himportant : marks important = [] := by decide
 rw [h.out_eq, h.decl_eq, marks_append, marks_append, hlower, hprop, hcolon, hcolon, marks_append, himportant, append_nil,
  marks_stripImportant, marks_trim]

theorem marks_splitTopLevelFrom (hsep : isNeutral sep = true) (q : SplitScan) (part s : Text) :
  (splitTopLevelFrom sep q part s).flatMap marks = marks part ++ marks s := by
 induction s generalizing q part with
 | nil => rfl
 | cons c s ih =>
  rw [splitTopLevelFrom]
  split_ifs with hends
  · simp only [SplitScan.ends, Bool.and_eq_true] at hends
    have hc : c = sep := eq_of_beq hends.1.2
    have hdrop : marks (c :: s) = marks s := by
     rw [hc, marks, filter_cons_of_neg (by rw [hsep]; decide)]
     rfl
    rw [flatMap_cons, ih, hdrop]
    rfl
  · rw [ih, marks_append, append_assoc, ← marks_append]
    rfl

/-! ## What the style may not have -/

def barred : List Char := ['{', '}', '@', '\\', '\n', '\r', '\x0c', '\x00']

def barredWords : List Text := [['/', '*'], ['u', 'r', 'l', '(']]

structure TameText (s : Text) : Prop where
 chars : ∀ c ∈ s, c ∉ barred
 words : ∀ w ∈ barredWords, ¬ w <:+: lower s

theorem TameText.mono {t : Text} (h : TameText t) (hst : s <:+: t) : TameText s where
 chars c hc := h.chars c (hst.subset hc)
 words w hw hin := h.words w hw (hin.trans (hst.map Char.toLower))

theorem TameText.joined {t : Text} {x : Char} (hs : TameText s) (ht : TameText t) (hx : x ∈ [':', '!', ';']) : TameText (s ++ x :: t) where
 chars c hc := by
  cases mem_append.mp hc with
  | inl hc => exact hs.chars c hc
  | inr hc =>
   cases mem_cons.mp hc with
   | inl heq =>
    have hout : ∀ x ∈ [':', '!', ';'], x ∉ barred := by simp [barred]
    exact heq ▸ hout x hx
   | inr hc => exact ht.chars c hc
 words w hw hin := by
  have hout : ∀ x ∈ [':', '!', ';'], ∀ w ∈ barredWords, x.toLower ∉ w := by simp [barredWords]
  rw [lower, map_append, map_cons] at hin
  cases Rewriting.infix_append_cons (hout x hx w hw) hin with
  | inl hleft => exact hs.words w hw hleft
  | inr hright => exact ht.words w hw hright

theorem toLower_other {a c : Char} (ha : a.isLower = false) (h : c.toLower = a) : c = a := by
 by_cases hc : c.isUpper = true
 · have halpha := Char.isLower_toLower_eq_isAlpha c
   rw [h, ha, Char.isAlpha, hc] at halpha
   cases halpha
 · exact (Char.toLower_eq_of_not_isUpper hc).symm.trans h

theorem tame_prop (h : ∀ c ∈ s, isPropChar c = true) : TameText s where
 chars c hc hin := by
  have hout : ∀ b ∈ barred, isPropChar b = false := by simp [barred, isPropChar]
  exact Bool.false_ne_true ((hout c hin).symm.trans (h c hc))
 words w hw hin := by
  have hmark : ∀ w ∈ barredWords, ∃ a ∈ w, a.isLower = false ∧ isPropChar a = false := by simp [barredWords, isPropChar]
  obtain ⟨a, ha, hlower, hout⟩ := hmark w hw
  obtain ⟨c, hc, heq⟩ := mem_map.mp (hin.subset ha)
  exact Bool.false_ne_true (hout.symm.trans (toLower_other hlower heq ▸ h c hc))

theorem trimEnd_within (s : Text) : trimEnd s <:+: s := by
 have hsuffix : s.reverse.dropWhile isWhitespace <:+ s.reverse := dropWhile_suffix _
 have hprefix := reverse_prefix.mpr hsuffix
 rw [reverse_reverse] at hprefix
 exact hprefix.isInfix

theorem trim_within (s : Text) : trim s <:+: s := (trimEnd_within _).trans (dropWhile_suffix _).isInfix

theorem stripImportant_within (value : Text) : stripImportant value <:+: value := by
 rw [stripImportant]
 split_ifs
 · exact (trimEnd_within _).trans (List.take_prefix _ value).isInfix
 · exact infix_refl value

theorem tame_written {out value : Text} (h : Written decl out prop value) (hdecl : TameText decl) : TameText out := by
 have hvalue : value <:+: decl := h.decl_eq ▸ ((suffix_cons ':' value).trans (suffix_append prop _)).isInfix
 have hkept : stripImportant (trim value) <:+: decl := (stripImportant_within _).trans ((trim_within value).trans hvalue)
 have hword : TameText "important".toList := tame_prop (by simp [isPropChar])
 rw [h.out_eq]
 exact (tame_prop h.prop_chars).joined ((hdecl.mono hkept).joined hword (by decide)) (by decide)

theorem mem_splitTopLevelFrom_within {q : SplitScan} {part d : Text} (h : d ∈ splitTopLevelFrom sep q part s) : d <:+: part ++ s := by
 induction s generalizing q part with
 | nil =>
  rw [splitTopLevelFrom, mem_singleton] at h
  rw [h, append_nil]
 | cons c s ih =>
  rw [splitTopLevelFrom] at h
  split_ifs at h
  · cases mem_cons.mp h with
    | inl heq => exact heq ▸ (prefix_append part (c :: s)).isInfix
    | inr hlater => exact (ih hlater).trans ((suffix_cons c s).trans (suffix_append part _)).isInfix
  · have hin := ih h
    rwa [append_assoc] at hin

/-! ## The whole text -/

theorem forall₂_of_mapM {α β : Type} {f : α → Option β} {xs : List α} {ys : List β} (h : xs.mapM f = some ys) :
  List.Forall₂ (fun x y => f x = some y) xs ys := by
 induction xs generalizing ys with
 | nil =>
  obtain rfl := Option.some.inj h
  exact .nil
 | cons x xs ih =>
  rw [mapM_cons] at h
  obtain ⟨y, hy, hrest⟩ := Option.bind_eq_some_iff.mp h
  obtain ⟨zs, hzs, heq⟩ := Option.bind_eq_some_iff.mp hrest
  obtain rfl := Option.some.inj heq
  exact .cons hy (ih hzs)

theorem marks_intercalate (parts : List Text) : marks ([';'].intercalate parts) = parts.flatMap marks := by
 induction parts with
 | nil => rfl
 | cons part parts ih =>
  cases parts with
  | nil => simp
  | cons next parts =>
   rw [intercalate_cons_cons, marks_append, marks_append, ih]
   simp only [flatMap_cons, append_assoc]
   rfl

variable {parts : List Text}

theorem tame_intercalate (h : ∀ part ∈ parts, TameText part) : TameText ([';'].intercalate parts) := by
 induction parts with
 | nil => exact tame_prop fun c hc => absurd hc not_mem_nil
 | cons part parts ih =>
  rw [forall_mem_cons] at h
  cases parts with
  | nil =>
   rw [intercalate_singleton]
   exact h.1
  | cons next parts =>
   rw [intercalate_cons_cons, append_assoc]
   exact h.1.joined (ih h.2) (by decide)

def decls (style : Text) : List Text := ((splitTopLevel ';' style).map trim).filter fun decl => !decl.isEmpty

theorem marks_decls (style : Text) : (decls style).flatMap marks = marks style := by
 have hfilter : ∀ parts : List Text, ((parts.map trim).filter fun decl => !decl.isEmpty).flatMap marks = parts.flatMap marks := by
  intro parts
  induction parts with
  | nil => rfl
  | cons part parts ih =>
   rw [map_cons, flatMap_cons, ← marks_trim part, ← ih]
   cases htrim : trim part with
   | nil => rfl
   | cons c s => rfl
 exact (hfilter _).trans (marks_splitTopLevelFrom rfl {} [] style)

structure Sanitized (style result : Text) (out : List Text) : Prop where
 bytes_ok : ∀ b ∈ bytes style, ¬ forbiddenByte b = true
 words_ok : ∀ w ∈ forbiddenWords, ¬ w <:+: lower style
 written : List.Forall₂ (fun decl text => declarationText decl = some text) (decls style) out
 result_eq : result = [';'].intercalate out

variable {style result : Text}

theorem sanitized (h : sanitizeStyle style = some result) : ∃ out, Sanitized style result out := by
 rw [sanitizeStyle] at h
 split_ifs at h with hlen hforbidden
 rw [Bool.or_eq_true, not_or, Bool.not_eq_true, Bool.not_eq_true, any_eq_false, any_eq_false] at hforbidden
 cases hout : (decls style).mapM declarationText with
 | none =>
  rw [decls] at hout
  rw [hout] at h
  cases h
 | some out =>
  have hwritten := forall₂_of_mapM hout
  rw [decls] at hout
  rw [hout] at h
  dsimp only at h
  split_ifs at h
  exact ⟨out, hforbidden.1, fun w hw hin => hforbidden.2 w hw (decide_eq_true hin), hwritten, (Option.some.inj h).symm⟩

theorem tame_style (hbytes : ∀ b ∈ bytes style, ¬ forbiddenByte b = true) (hwords : ∀ w ∈ forbiddenWords, ¬ w <:+: lower style) :
  TameText style where
 chars c hc hbarred := by
  have hmem : ∀ b ∈ String.utf8EncodeChar c, b ∈ bytes style := fun b hb => mem_flatMap.mpr ⟨c, hc, hb⟩
  have hencoded : ∀ c ∈ barred, ∃ b ∈ String.utf8EncodeChar c, forbiddenByte b = true := by
   simp [barred, forbiddenByte, String.utf8EncodeChar]
  obtain ⟨b, hb, hforbidden⟩ := hencoded c hbarred
  exact hbytes b (hmem b hb) hforbidden
 words w hw := by
  have hlisted : ∀ w ∈ barredWords, w ∈ forbiddenWords := by decide
  exact hwords w (hlisted w hw)

variable {out : List Text}

theorem written_of_mem (h : List.Forall₂ (fun decl text => declarationText decl = some text) parts out) {text : Text}
  (htext : text ∈ out) : ∃ decl ∈ parts, declarationText decl = some text := by
 induction h with
 | nil => cases htext
 | cons hfirst _ ih =>
  cases mem_cons.mp htext with
  | inl heq => exact ⟨_, mem_cons_self, heq ▸ hfirst⟩
  | inr hlater =>
   obtain ⟨decl, hdecl, hwritten⟩ := ih hlater
   exact ⟨decl, mem_cons_of_mem _ hdecl, hwritten⟩

theorem marks_declarations (h : List.Forall₂ (fun decl text => declarationText decl = some text) parts out) :
  out.flatMap marks = parts.flatMap marks := by
 induction h with
 | nil => rfl
 | cons hfirst _ ih =>
  obtain ⟨prop, value, hparts⟩ := written hfirst
  rw [flatMap_cons, flatMap_cons, marks_written hparts, ih]

theorem tame_result (h : Sanitized style result out) : TameText result := by
 have hstyle := tame_style h.bytes_ok h.words_ok
 rw [h.result_eq]
 refine tame_intercalate fun text htext => ?_
 obtain ⟨decl, hdecl, hwritten⟩ := written_of_mem h.written htext
 obtain ⟨prop, value, hparts⟩ := written hwritten
 refine tame_written hparts (hstyle.mono ?_)
 obtain ⟨part, hpart, rfl⟩ := mem_map.mp (mem_filter.mp hdecl).1
 exact (trim_within part).trans (mem_splitTopLevelFrom_within hpart)

theorem marks_result (h : Sanitized style result out) : marks result = marks style := by
 rw [h.result_eq, marks_intercalate, marks_declarations h.written, marks_decls]

theorem scanText_result (h : sanitizeStyle style = some result) (scan : Scan) :
  scanText scan result = scanText scan style := by
 obtain ⟨out, hout⟩ := sanitized h
 rw [← scanText_marks, marks_result hout, scanText_marks]

/-! ## The rule -/

theorem preprocess_tame (h : TameText s) (t : Text) : preprocess (s ++ '}' :: t) = s ++ '}' :: preprocess t := by
 induction s with
 | nil => rfl
 | cons c s ih =>
  have hc := h.chars c mem_cons_self
  have hout : ∀ b ∈ barred, c ≠ b := fun b hb heq => hc (heq ▸ hb)
  rw [cons_append, preprocess, if_neg fun hreturn => hout '\r' (by simp [barred]) hreturn.1,
   if_neg (not_or.mpr ⟨hout '\r' (by simp [barred]), hout '\x0c' (by simp [barred])⟩), if_neg (hout '\x00' (by simp [barred])),
   ih (h.mono (suffix_cons c s).isInfix)]
  rfl

theorem preprocess_styleRule (selector : Text) {decls : Text} (h : TameText decls) (further : Text) :
  preprocess (styleRule selector decls ++ further) = preprocess selector ++ '{' :: (decls ++ '}' :: preprocess further) := by
 have hbracket : ∀ t, preprocess ('{' :: t) = '{' :: preprocess t := fun t => rfl
 rw [styleRule, append_assoc, cons_append, append_assoc, preprocess_append (by decide), hbracket]
 exact congrArg (fun t => preprocess selector ++ '{' :: t) (preprocess_tame h further)

theorem plain_block (h : TameText s) : PlainText (s ++ ['}']) where
 backslash hin := by
  cases mem_append.mp hin with
  | inl hin => exact h.chars _ hin (by simp [barred])
  | inr hin => exact absurd (mem_singleton.mp hin) (by decide)
 newline hin := by
  cases mem_append.mp hin with
  | inl hin => exact h.chars _ hin (by simp [barred])
  | inr hin => exact absurd (mem_singleton.mp hin) (by decide)
 comment hin := by
  cases Rewriting.infix_append_cons (by decide) hin with
  | inl hleft => exact h.words ['/', '*'] (by simp [barredWords]) (hleft.map Char.toLower)
  | inr hright => exact absurd (infix_nil.mp hright) (by decide)
 url hin := by
  rw [lower, map_append] at hin
  cases Rewriting.infix_append_cons (by decide) hin with
  | inl hleft => exact h.words _ (by simp [barredWords]) hleft
  | inr hright => exact absurd (infix_nil.mp hright) (by decide)

theorem closes_iff (h : TameText s) : (upTo (· == '}') (s ++ ['}'])).2 = ['}'] ↔ Balanced s :=
 blockFrom_plain (plain_block h) (fun hin => h.chars _ hin (by simp [barred])) []

theorem contained_of_balanced {decls : Text} (h : TameText decls) (hbalanced : Balanced decls) : Contained decls := by
 intro selector further hselector hclosed
 have hsafe := safeText hselector
 have hblock := (closes_iff h).mpr hbalanced
 have hsource : sourceOf (upTo (· == '}') (decls ++ ['}'])).1 = decls := by
  have hread := upTo_source (· == '}') (decls ++ ['}'])
  rw [hblock] at hread
  exact append_cancel_right hread
 have hprelude : sourceOf (upTo (· == '{') ((preprocess selector).dropWhile isSpace ++ ['{'])).1 = (preprocess selector).dropWhile isSpace := by
  have hread := upTo_source (· == '{') ((preprocess selector).dropWhile isSpace ++ ['{'])
  rw [hclosed.1] at hread
  exact append_cancel_right hread
 refine ⟨_, _, ?_, hprelude, hsource, upTo_opensRule ?_ ?_⟩
 · rw [stylesheet, stylesheet, preprocess_styleRule selector h, rules_space, dropWhile_stop (by decide)]
   exact rules_qualified (Prod.ext rfl hclosed.1) (Prod.ext rfl hblock) (fun t => (start_closed hsafe hclosed.2 t).1)
    fun t => (start_closed hsafe hclosed.2 t).2
 · exact fun hin => h.chars _ (hsource ▸ hin) (by simp [barred])
 · exact fun hin => h.chars _ (hsource ▸ hin) (by simp [barred])

theorem balanced_of_contained {decls : Text} (h : TameText decls) (hcontained : Contained decls) : Balanced decls := by
 have hselector : isSafeSelector ['a'] = true := by decide
 have hclosed : Closed ['a'] := by decide
 obtain ⟨prelude, block, hrules, -, hsource, -⟩ := hcontained ['a'] [] hselector hclosed
 rw [stylesheet, preprocess_styleRule ['a'] h] at hrules
 have hsafe := safeText hselector
 have hstarted := rules_started (Prod.ext rfl hclosed.1) (fun t => (start_closed hsafe hclosed.2 t).1)
  (fun t => (start_closed hsafe hclosed.2 t).2) (decls ++ ['}'])
 have hfirst := (List.cons.inj (hstarted.symm.trans hrules)).1
 injection hfirst with _ hblock
 have hread := upTo_source (· == '}') (decls ++ ['}'])
 have hkept : sourceOf (upTo (· == '}') (decls ++ ['}'])).1 = decls := (congrArg sourceOf hblock).trans hsource
 rw [hkept] at hread
 exact (closes_iff h).mp (append_cancel_left hread)

/-- Exactly when the style's quotes and brackets are closed the rule keeps to its block. -/
theorem sanitizeStyle_contained_iff {style result : Text} (h : sanitizeStyle style = some result) : Contained result ↔ Balanced style := by
 obtain ⟨out, hout⟩ := sanitized h
 have htame := tame_result hout
 have hsame : Balanced result ↔ Balanced style := by rw [Balanced, scanText_result h, Balanced]
 exact ⟨fun hcontained => hsame.mp (balanced_of_contained htame hcontained),
  fun hbalanced => contained_of_balanced htame (hsame.mpr hbalanced)⟩

theorem sanitizeStyle_contained_iff_red : sanitizeStyle "color:red".toList = some "color:red!important".toList ∧
  (Contained "color:red!important".toList ↔ Balanced "color:red".toList) := by
 have hresult : sanitizeStyle "color:red".toList = some "color:red!important".toList := by decide
 exact ⟨hresult, sanitizeStyle_contained_iff hresult⟩

/-- An open bracket takes the bracket after it, and the rules after that. -/
theorem open_bracket_leaves_block : ¬ ∀ style result : Text, sanitizeStyle style = some result → Contained result := by
 intro hclaim
 have hresult : sanitizeStyle "color:[".toList = some "color:[!important".toList := by decide
 obtain ⟨prelude, block, hrules, -⟩ := hclaim _ _ hresult ['a'] "b\x7bcolor:red\x7d".toList (by decide) (by decide)
 have hone : (stylesheet (styleRule ['a'] "color:[!important".toList ++ "b\x7bcolor:red\x7d".toList)).length = 1 := by decide
 have htwo : (stylesheet "b\x7bcolor:red\x7d".toList).length = 1 := by decide
 rw [hrules, List.length_cons, htwo] at hone
 cases hone

end MoltBrowser.StyleSanitizing
