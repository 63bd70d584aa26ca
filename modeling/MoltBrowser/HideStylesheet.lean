import MoltBrowser.CssRules
import MoltBrowser.FilterPreprocess
import MoltBrowser.Rewriting

set_option autoImplicit false

/-! # The stylesheet of the hide selectors of filter lists -/
namespace MoltBrowser.HideStylesheet
open CssSyntax TextReaders Rewriting List

def maxSelectors : ℕ := 30000
def maxSelectorLen : ℕ := 1024

/-! ## Safe selectors -/

/-- The quote that a string was opened with, 0 outside strings, and whether a backslash comes before. -/
structure QuoteScan where
 quote : UInt8 := 0
 escaped : Bool := false

/-- A byte of a selector; nothing where it refuses the selector. -/
def scanByte (q : QuoteScan) (b : UInt8) : Option QuoteScan :=
 if b = 0x7B ∨ b = 0x7D ∨ b = 0x3C ∨ b = 0x00 ∨ b = 0x0A ∨ b = 0x0D then none
 else if b = 0x3B ∧ q.quote = 0 then none
 else if q.escaped then some { q with escaped := false }
 else if b = 0x5C then some { q with escaped := true }
 else if q.quote ≠ 0 then some (if b = q.quote then { q with quote := 0 } else q)
 else if b = 0x22 ∨ b = 0x27 then some { q with quote := b }
 else some q

def forbidden : List Text :=
 [['/', '*'], ['*', '/'], "url(".toList, "image-set(".toList, "@import".toList]

def bytes (s : Text) : List UInt8 := s.flatMap String.utf8EncodeChar

def isSafeSelector (selector : Text) : Bool :=
 if selector.isEmpty || (bytes selector).length > maxSelectorLen then false
 else if (selector.dropWhile FilterLists.isWhitespace).head? = some '@' then false
 else match (bytes selector).foldlM scanByte {} with
  | none => false
  | some q => q.quote = 0 && forbidden.all fun w => ¬ w <:+: lower selector

/-! ## The stylesheet -/

def hideBlock : Text := "display:none!important".toList

def rule (selector : Text) : Text := selector ++ '{' :: (hideBlock ++ ['}', '\n'])

def hideStylesheetFrom (css : Text) (emitted : ℕ) : List Text → Text
 | [] => css
 | sel :: selectors =>
  if emitted ≥ maxSelectors then css
  else if isSafeSelector sel = false then hideStylesheetFrom css emitted selectors
  else hideStylesheetFrom (css ++ rule sel) (emitted + 1) selectors

def hideStylesheet (selectors : List Text) : Text := hideStylesheetFrom [] 0 selectors

variable {selectors : List Text}

theorem hideStylesheetFrom_eq (h : ∀ sel ∈ selectors, isSafeSelector sel = true) (css : Text) (emitted : ℕ) :
  hideStylesheetFrom css emitted selectors = css ++ (selectors.take (maxSelectors - emitted)).flatMap rule := by
 induction selectors generalizing css emitted with
 | nil => simp [hideStylesheetFrom]
 | cons sel selectors ih =>
  rw [hideStylesheetFrom]
  by_cases hfull : emitted ≥ maxSelectors
  · rw [if_pos hfull, Nat.sub_eq_zero_of_le hfull, take_zero, flatMap_nil, append_nil]
  · have hleft : maxSelectors - emitted = (maxSelectors - (emitted + 1)) + 1 := by omega
    rw [if_neg hfull, h sel mem_cons_self, if_neg (by decide), ih fun sel' hmem => h sel' (mem_cons_of_mem _ hmem),
     hleft, take_succ_cons, flatMap_cons, append_assoc]

theorem hideStylesheet_eq (h : ∀ sel ∈ selectors, isSafeSelector sel = true) :
  hideStylesheet selectors = (selectors.take maxSelectors).flatMap rule := hideStylesheetFrom_eq h [] 0

/-! ## What its rules are to be -/

def hideDeclaration : Declaration := ⟨"display".toList, [.ident "none".toList], true⟩

/-- The rule's prelude is the selector, without the space it starts with, and its block holds the
hide declaration only. -/
def IsHideRule (selector : Text) (r : Rule) : Prop :=
 ∃ prelude block, r = .qualified prelude block ∧ sourceOf prelude = (preprocess selector).dropWhile isSpace ∧
  items block = [.declaration hideDeclaration]

def Isolated (selectors : List Text) : Prop := List.Forall₂ IsHideRule selectors (stylesheet (hideStylesheet selectors))

/-- Before a bracket that opens a block the selector is read up to the bracket, and no further: it
leaves no string, escape, url or bracket open. And it doesn't start with what a stylesheet may have
between its rules. -/
def Closed (selector : Text) : Prop :=
 let text := (preprocess selector).dropWhile isSpace
 (upTo (· == '{') (text ++ ['{'])).2 = ['{'] ∧ ¬ ['-', '-', '>'] <+: text

instance (selector : Text) : Decidable (Closed selector) := by unfold Closed; infer_instance

/-! ## Preprocessed text -/

def normalized (c : Char) : Char := if c = '\x0c' then '\n' else if c = '\x00' then replacement else c

variable {c : Char}

theorem normalized_eq {a : Char} (ha : a ≠ '\n') (ha' : a ≠ replacement) (h : normalized c = a) : c = a := by
 rw [normalized] at h
 split_ifs at h
 · exact absurd h.symm ha
 · exact absurd h.symm ha'
 · exact h

variable {s : Text}

theorem preprocess_eq_map (h : '\r' ∉ s) : preprocess s = s.map normalized := by
 induction s with
 | nil => rfl
 | cons c s ih =>
  rw [mem_cons, not_or] at h
  rw [preprocess, if_neg fun hc => h.1 hc.1.symm, ih h.2, map_cons, normalized]
  congr 1
  simp only [Ne.symm h.1, false_or]

theorem preprocess_append (hc : c ≠ '\n') (u t : Text) : preprocess (u ++ c :: t) = preprocess u ++ preprocess (c :: t) := by
 induction u with
 | nil => rfl
 | cons a u ih =>
  rw [cons_append, preprocess, preprocess, ih]
  have hhead : (u ++ c :: t).head? = some '\n' ↔ u.head? = some '\n' := by
   cases u with
   | nil => simpa using hc
   | cons b u => rfl
  by_cases hpair : a = '\r' ∧ u.head? = some '\n'
  · rw [if_pos hpair, if_pos ⟨hpair.1, hhead.mpr hpair.2⟩]
  · rw [if_neg hpair, if_neg fun h => hpair ⟨h.1, hhead.mp h.2⟩]
    rfl

def preprocessedRule (selector : Text) : Text := preprocess selector ++ '{' :: (hideBlock ++ ['}', '\n'])

theorem preprocess_rules (selectors : List Text) :
  preprocess (selectors.flatMap rule) = selectors.flatMap preprocessedRule := by
 induction selectors with
 | nil => rfl
 | cons sel selectors ih =>
  have hblock : ∀ t, preprocess ('{' :: (hideBlock ++ '}' :: '\n' :: t)) = '{' :: (hideBlock ++ '}' :: '\n' :: preprocess t) := fun _ => rfl
  rw [flatMap_cons, flatMap_cons, rule, append_assoc, cons_append, append_assoc,
   preprocess_append (by decide), cons_append, cons_append, nil_append, hblock, ih, preprocessedRule]
  simp only [append_assoc, cons_append, nil_append]

/-! ## What the check refuses -/

/-- What the check leaves of a selector that the rules depend on. -/
structure SafeText (u : Text) : Prop where
 bracket : '{' ∉ u
 angle : '<' ∉ u
 comment : ¬ ['/', '*'] <:+: u
 at_sign : (u.dropWhile isSpace).head? ≠ some '@'

theorem scan_refuses {bs : List UInt8} {q q' : QuoteScan} (h : bs.foldlM scanByte q = some q') {b : UInt8} (hb : b ∈ bs) :
  ¬ (b = 0x7B ∨ b = 0x7D ∨ b = 0x3C ∨ b = 0x00 ∨ b = 0x0A ∨ b = 0x0D) := by
 induction bs generalizing q with
 | nil => cases hb
 | cons b' bs ih =>
  rw [foldlM_cons] at h
  obtain ⟨q'', hstep, hrest⟩ := Option.bind_eq_some_iff.mp h
  cases mem_cons.mp hb with
  | inl hfirst =>
   intro hrefused
   rw [scanByte, if_pos (hfirst ▸ hrefused)] at hstep
   cases hstep
  | inr hlater => exact ih hrest hlater

theorem safeSelector_parts (h : isSafeSelector s = true) :
  (∃ q, (bytes s).foldlM scanByte {} = some q) ∧ (s.dropWhile FilterLists.isWhitespace).head? ≠ some '@' ∧
   ∀ w ∈ forbidden, ¬ w <:+: lower s := by
 rw [isSafeSelector] at h
 split_ifs at h with hlen hat
 cases hscan : (bytes s).foldlM scanByte {} with
 | none =>
  rw [hscan] at h
  cases h
 | some q =>
  rw [hscan] at h
  dsimp only at h
  rw [Bool.and_eq_true, all_eq_true] at h
  refine ⟨⟨q, rfl⟩, hat, fun w hw => ?_⟩
  have hword := h.2 w hw
  exact of_decide_eq_true hword

theorem safe_char (h : isSafeSelector s = true) (hc : c ∈ s) : c ≠ '{' ∧ c ≠ '<' ∧ c ≠ '\r' := by
 obtain ⟨⟨q, hscan⟩, -, -⟩ := safeSelector_parts h
 have hrefused : ∀ b ∈ String.utf8EncodeChar c, ¬ (b = 0x7B ∨ b = 0x7D ∨ b = 0x3C ∨ b = 0x00 ∨ b = 0x0A ∨ b = 0x0D) :=
  fun b hb => scan_refuses hscan (mem_flatMap.mpr ⟨c, hc, hb⟩)
 refine ⟨?_, ?_, ?_⟩
 · rintro rfl
   exact hrefused 0x7B (by decide) (by decide)
 · rintro rfl
   exact hrefused 0x3C (by decide) (by decide)
 · rintro rfl
   exact hrefused 0x0D (by decide) (by decide)

theorem head_dropWhile {p q : Char → Bool} {a : Char} (hpq : ∀ c, p c = true → q c = true) (ha : q a = false)
  (h : (s.dropWhile p).head? = some a) : (s.dropWhile q).head? = some a := by
 induction s with
 | nil => cases h
 | cons c s ih =>
  rw [dropWhile_cons] at h ⊢
  by_cases hp : p c = true
  · rw [if_pos hp] at h
    rw [if_pos (hpq c hp)]
    exact ih h
  · rw [if_neg hp] at h
    have hc : c = a := Option.some.inj h
    rw [if_neg (by rw [hc, ha]; exact Bool.false_ne_true)]
    exact h

theorem isWhitespace_of_isSpace (c : Char) (h : isSpace (normalized c) = true) : FilterLists.isWhitespace c = true := by
 rw [normalized] at h
 split_ifs at h with hfeed hnul
 · rw [hfeed]; decide
 · exact absurd h (by decide)
 · rw [isSpace, Bool.or_eq_true, Bool.or_eq_true] at h
   obtain (hc | hc) | hc := h
   · rw [eq_of_beq hc]; decide
   · rw [eq_of_beq hc]; decide
   · rw [eq_of_beq hc]; decide

theorem safeText (h : isSafeSelector s = true) : SafeText (preprocess s) := by
 obtain ⟨-, hat, hwords⟩ := safeSelector_parts h
 have hmap := preprocess_eq_map fun hc => (safe_char h hc).2.2 rfl
 have hout : ∀ {a : Char}, a ≠ '\n' → a ≠ replacement → a ∉ s → a ∉ preprocess s := by
  intro a ha ha' hmem
  rw [hmap, mem_map]
  rintro ⟨c, hc, heq⟩
  exact hmem (normalized_eq ha ha' heq ▸ hc)
 refine ⟨hout (by decide) (by decide) fun hc => (safe_char h hc).1 rfl, hout (by decide) (by decide) fun hc => (safe_char h hc).2.1 rfl,
  ?_, ?_⟩
 · intro hin
   rw [hmap] at hin
   have hs : ['/', '*'] <:+: s := by
    refine infix_of_map ?_ hin
    intro a ha c hc
    apply normalized_eq _ _ hc
    · rintro rfl
      exact absurd ha (by decide)
    · rintro rfl
      exact absurd ha (by decide)
   exact hwords ['/', '*'] (by decide) (hs.map Char.toLower)
 · intro hhead
   apply hat
   rw [hmap, dropWhile_map, head?_map] at hhead
   obtain ⟨c, hc, heq⟩ := Option.map_eq_some_iff.mp hhead
   rw [normalized_eq (by decide) (by decide) heq] at hc
   exact head_dropWhile isWhitespace_of_isSpace (by decide) hc

/-! ## Rule by rule -/

def blockLexemes : List Lexeme := (upTo (· == '}') (hideBlock ++ ['}'])).1

theorem upTo_hideBlock : upTo (· == '}') (hideBlock ++ ['}']) = (blockLexemes, ['}']) := by decide

theorem items_blockLexemes : items blockLexemes = [.declaration hideDeclaration] := by decide

theorem head_dropWhile_isSpace (u t : Text) : headIs isSpace (u.dropWhile isSpace ++ '{' :: t) = false := by
 induction u with
 | nil => rfl
 | cons c u ih =>
  rw [dropWhile_cons]
  by_cases hc : isSpace c = true
  · rw [if_pos hc]
    exact ih
  · rw [if_neg hc]
    exact Bool.eq_false_of_not_eq_true hc

theorem start_closed {u : Text} (hsafe : SafeText u) (hcdc : ¬ ['-', '-', '>'] <+: u.dropWhile isSpace) (t : Text) :
  (start (u.dropWhile isSpace ++ '{' :: t)).isBetween = false ∧ start (u.dropWhile isSpace ++ '{' :: t) ≠ .atKeyword := by
 have hof := of_start (u.dropWhile isSpace ++ '{' :: t)
 have hpart : u.dropWhile isSpace <:+ u := dropWhile_suffix isSpace
 cases hstart : start (u.dropWhile isSpace ++ '{' :: t) with
 | comment =>
  rw [hstart] at hof
  exact absurd ((prefix_before (by decide) hof).isInfix.trans hpart.isInfix) hsafe.comment
 | whitespace =>
  rw [hstart] at hof
  have hhead : headIs isSpace (u.dropWhile isSpace ++ '{' :: t) = true := hof
  rw [head_dropWhile_isSpace] at hhead
  cases hhead
 | cdc =>
  rw [hstart] at hof
  exact absurd (prefix_before (by decide) hof) hcdc
 | cdo =>
  rw [hstart] at hof
  have hangle : '<' ∈ u.dropWhile isSpace := (prefix_before (by decide) hof).subset mem_cons_self
  exact absurd (hpart.subset hangle) hsafe.angle
 | atKeyword =>
  rw [hstart] at hof
  have hhead : headIs (· == '@') (u.dropWhile isSpace ++ '{' :: t) = true := hof
  have hat := hsafe.at_sign
  cases htext : u.dropWhile isSpace with
  | nil =>
   rw [htext] at hhead
   cases hhead
  | cons c v =>
   rw [htext] at hhead hat
   have hc : (c == '@') = true := hhead
   exact absurd (congrArg some (eq_of_beq hc)) hat
 | string => exact ⟨rfl, by decide⟩
 | hash => exact ⟨rfl, by decide⟩
 | numeric => exact ⟨rfl, by decide⟩
 | identLike => exact ⟨rfl, by decide⟩
 | symbol => exact ⟨rfl, by decide⟩

theorem rules_closed {u t : Text} (hsafe : SafeText u) (hread : (upTo (· == '{') (u.dropWhile isSpace ++ ['{'])).2 = ['{'])
  (hcdc : ¬ ['-', '-', '>'] <+: u.dropWhile isSpace) : ∃ prelude, sourceOf prelude = u.dropWhile isSpace ∧
   rules (u ++ '{' :: (hideBlock ++ '}' :: '\n' :: t)) = .qualified prelude blockLexemes :: rules t := by
 refine ⟨(upTo (· == '{') (u.dropWhile isSpace ++ ['{'])).1, ?_, ?_⟩
 · have hsource := upTo_source (· == '{') (u.dropWhile isSpace ++ ['{'])
   rw [hread] at hsource
   exact append_cancel_right hsource
 · have hline : rules ('\n' :: t) = rules t := by
    rw [rules_space, rules_space t]
    rfl
   rw [rules_space, dropWhile_stop (by decide), rules_qualified (Prod.ext rfl hread) upTo_hideBlock
    (fun t => (start_closed hsafe hcdc t).1) (fun t => (start_closed hsafe hcdc t).2), hline]

theorem flatMap_preprocessedRule (sel : Text) (selectors : List Text) : (sel :: selectors).flatMap preprocessedRule =
  preprocess sel ++ '{' :: (hideBlock ++ '}' :: '\n' :: selectors.flatMap preprocessedRule) := by
 rw [flatMap_cons, preprocessedRule, append_assoc, cons_append, append_assoc, cons_append,
  cons_append, nil_append]

theorem hides_of_closed (hsafe : ∀ sel ∈ selectors, isSafeSelector sel = true)
  (hclosed : ∀ sel ∈ selectors, Closed sel) : List.Forall₂ IsHideRule selectors (rules (selectors.flatMap preprocessedRule)) := by
 induction selectors with
 | nil => exact .nil
 | cons sel selectors ih =>
  obtain ⟨hread, hcdc⟩ := hclosed sel mem_cons_self
  obtain ⟨prelude, hsource, hrules⟩ := rules_closed (safeText (hsafe sel mem_cons_self)) hread hcdc
  rw [flatMap_preprocessedRule, hrules]
  refine .cons ⟨prelude, blockLexemes, rfl, hsource, items_blockLexemes⟩ (ih ?_ ?_)
  · exact fun sel' hmem => hsafe sel' (mem_cons_of_mem sel hmem)
  · exact fun sel' hmem => hclosed sel' (mem_cons_of_mem sel hmem)

theorem closed_of_rule {sel t : Text} {r : Rule} {rs : List Rule} (hsafe : SafeText (preprocess sel)) (hr : IsHideRule sel r)
  (h : rules (preprocess sel ++ '{' :: t) = r :: rs) : Closed sel := by
 obtain ⟨prelude, block, rfl, hsource, -⟩ := hr
 have hpart : (preprocess sel).dropWhile isSpace <:+ preprocess sel := dropWhile_suffix isSpace
 have hbracket : '{' ∉ sourceOf prelude := fun hmem => hsafe.bracket (hpart.subset (hsource ▸ hmem))
 obtain ⟨hread, hstart⟩ := rules_first hsafe.bracket hsafe.comment h hbracket
 rw [hsource] at hread hstart
 refine ⟨?_, ?_⟩
 · obtain ⟨y, hy⟩ := (local_upTo (.inl rfl) (· == '{')).stable ((preprocess sel).dropWhile isSpace) t (by
    rw [hread]
    exact Nat.lt_succ_self _)
   have hhere := hy t
   rw [hread] at hhere
   have hnil : y = [] := append_left_eq_self.mp (congrArg Prod.snd hhere).symm
   rw [hy [], hnil]
   rfl
 · rintro ⟨rest, hrest⟩
   rw [← hrest] at hstart
   cases hstart

theorem closed_of_hides {emitted extra : List Text} (hsafe : ∀ sel ∈ emitted, isSafeSelector sel = true)
  (h : List.Forall₂ IsHideRule (emitted ++ extra) (rules (emitted.flatMap preprocessedRule))) :
  extra = [] ∧ ∀ sel ∈ emitted, Closed sel := by
 induction emitted with
 | nil => exact ⟨forall₂_nil_right_iff.mp h, fun sel hmem => absurd hmem not_mem_nil⟩
 | cons sel emitted ih =>
  have hsel := hsafe sel mem_cons_self
  rw [flatMap_preprocessedRule] at h
  cases hrules : rules (preprocess sel ++ '{' :: (hideBlock ++ '}' :: '\n' :: emitted.flatMap preprocessedRule)) with
  | nil =>
   rw [hrules] at h
   cases h
  | cons r rs =>
   rw [hrules] at h
   obtain ⟨hr, hlater⟩ := forall₂_cons.mp h
   have hclosed := closed_of_rule (safeText hsel) hr hrules
   obtain ⟨prelude, -, hfirst⟩ := rules_closed (t := emitted.flatMap preprocessedRule) (safeText hsel) hclosed.1 hclosed.2
   rw [hfirst] at hrules
   rw [← (List.cons.inj hrules).2] at hlater
   obtain ⟨hextra, hrest⟩ := ih (fun sel' hmem => hsafe sel' (mem_cons_of_mem sel hmem)) hlater
   refine ⟨hextra, fun sel' hmem => ?_⟩
   cases mem_cons.mp hmem with
   | inl hsame => exact hsame ▸ hclosed
   | inr hold => exact hrest sel' hold

/-- Exactly when each safe selector gets its own hide rule. -/
theorem hideStylesheet_isolates (selectors : List Text) (h : ∀ sel ∈ selectors, isSafeSelector sel = true) :
  Isolated selectors ↔ selectors.length ≤ maxSelectors ∧ ∀ sel ∈ selectors, Closed sel := by
 have htaken : ∀ sel ∈ selectors.take maxSelectors, isSafeSelector sel = true := fun sel hmem => h sel (List.mem_of_mem_take hmem)
 rw [Isolated, stylesheet, hideStylesheet_eq h, preprocess_rules]
 constructor
 · intro hrules
   have hparts : List.Forall₂ IsHideRule (selectors.take maxSelectors ++ selectors.drop maxSelectors)
     (rules ((selectors.take maxSelectors).flatMap preprocessedRule)) := by
    rw [List.take_append_drop]
    exact hrules
   obtain ⟨hdrop, hclosed⟩ := closed_of_hides htaken hparts
   have hlen := List.drop_eq_nil_iff.mp hdrop
   rw [List.take_of_length_le hlen] at hclosed
   exact ⟨hlen, hclosed⟩
 · rintro ⟨hlen, hclosed⟩
   rw [List.take_of_length_le hlen]
   exact hides_of_closed h hclosed

theorem hideStylesheet_isolates_ad : Isolated [".ad".toList, "a[b='c;'] > d:not(.x)".toList] :=
 (hideStylesheet_isolates [".ad".toList, "a[b='c;'] > d:not(.x)".toList] (by decide)).mpr
  ⟨by decide, by decide⟩

/-- An open bracket takes its own rule and the next one with it. -/
theorem open_bracket_swallows : (∀ sel ∈ ["a[".toList, "#b".toList], isSafeSelector sel = true) ∧
  stylesheet (hideStylesheet ["a[".toList, "#b".toList]) = [] ∧ ¬ Isolated ["a[".toList, "#b".toList] := by
 have hnone : stylesheet (hideStylesheet ["a[".toList, "#b".toList]) = [] := by decide
 refine ⟨by decide, hnone, fun h => ?_⟩
 rw [Isolated, hnone] at h
 cases h

end MoltBrowser.HideStylesheet
