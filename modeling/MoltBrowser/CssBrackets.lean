import MoltBrowser.CssRules
import Mathlib.Data.List.TakeWhile

set_option autoImplicit false

/-!
# Quotes and brackets of a text without escapes

Where nothing hides a quote or a bracket, reading one code point after another finds the ends that the tokens have.
-/
namespace MoltBrowser.CssSyntax
open TextReaders List

/-- The quote of the string that is open, if one is, and the brackets that are. -/
structure Scan where
 quote : Option Char
 stack : List Closing
 deriving DecidableEq

def scanQuote (quote : Option Char) (c : Char) : Option Char :=
 match quote with
 | none => some c
 | some q => if c = q then none else some q

def scanChar (scan : Scan) (c : Char) : Scan :=
 if isQuote c then { scan with quote := scanQuote scan.quote c }
 else if scan.quote = none then { scan with stack := nest (symbolToken c) scan.stack }
 else scan

def scanText (scan : Scan) (s : Text) : Scan := s.foldl scanChar scan

theorem scanText_append (scan : Scan) (s t : Text) : scanText scan (s ++ t) = scanText (scanText scan s) t := foldl_append

/-! ## What has no end to find -/

def markChars : List Char := ['"', '\'', '(', ')', '[', ']', '{', '}']

def isNeutral (c : Char) : Bool := !markChars.contains c

variable {c : Char}

theorem isNeutral_iff : isNeutral c = true ↔ c ∉ markChars := by
 rw [isNeutral, Bool.not_eq_true', contains_eq_mem, decide_eq_false_iff_not]

theorem neutral_of {p : Char → Bool} (hp : markChars.any p = false) (hc : p c = true) : isNeutral c = true :=
 isNeutral_iff.mpr fun hmem => any_eq_false.mp hp c hmem hc

theorem nest_neutral (hc : isNeutral c = true) (stack : List Closing) : nest (symbolToken c) stack = stack := by
 have hout : ∀ b ∈ markChars, c ≠ b := fun b hb heq => isNeutral_iff.mp hc (heq ▸ hb)
 rw [symbolToken]
 simp only [if_neg (hout '[' (by decide)), if_neg (hout ']' (by decide)), if_neg (hout '(' (by decide)), if_neg (hout ')' (by decide)),
  if_neg (hout '{' (by decide)), if_neg (hout '}' (by decide))]
 split_ifs <;> rfl

theorem scanChar_neutral (hc : isNeutral c = true) (scan : Scan) : scanChar scan c = scan := by
 have hout : ∀ b ∈ markChars, c ≠ b := fun b hb heq => isNeutral_iff.mp hc (heq ▸ hb)
 have hquote : isQuote c = false := by
  rw [isQuote, Bool.or_eq_false_iff]
  exact ⟨beq_eq_false_iff_ne.mpr (hout _ (by decide)), beq_eq_false_iff_ne.mpr (hout _ (by decide))⟩
 rw [scanChar, hquote, if_neg Bool.false_ne_true, nest_neutral hc]
 split_ifs <;> rfl

def marks (s : Text) : Text := s.filter fun c => !isNeutral c

theorem scanText_marks (scan : Scan) (s : Text) : scanText scan (marks s) = scanText scan s := by
 induction s generalizing scan with
 | nil => rfl
 | cons c s ih =>
  cases hc : isNeutral c with
  | true =>
   rw [marks, filter_cons_of_neg (by rw [hc]; decide)]
   refine (ih scan).trans ?_
   rw [scanText, scanText, foldl_cons, scanChar_neutral hc]
  | false =>
   rw [marks, filter_cons_of_pos (by rw [hc]; decide)]
   exact ih (scanChar scan c)

theorem marks_append (s t : Text) : marks (s ++ t) = marks s ++ marks t := filter_append s t

theorem marks_neutral {s : Text} (h : ∀ c ∈ s, isNeutral c = true) : marks s = [] := by
 apply filter_eq_nil_iff.mpr
 intro c hc
 rw [h c hc]
 decide

theorem scanText_neutral {s : Text} (h : ∀ c ∈ s, isNeutral c = true) (scan : Scan) : scanText scan s = scan := by
 rw [← scanText_marks, marks_neutral h]
 rfl

/-! ## Texts without escapes, comments and urls -/

structure PlainText (s : Text) : Prop where
 backslash : '\\' ∉ s
 newline : '\n' ∉ s
 comment : ¬ ['/', '*'] <:+: s
 url : ¬ ['u', 'r', 'l', '('] <:+: lower s

theorem PlainText.mono {s t : Text} (h : PlainText t) (hst : s <:+: t) : PlainText s where
 backslash hin := h.backslash (hst.subset hin)
 newline hin := h.newline (hst.subset hin)
 comment hin := h.comment (hin.trans hst)
 url hin := h.url (hin.trans (hst.map Char.toLower))

theorem validEscape_plain {s : Text} (h : '\\' ∉ s) : validEscape s = false := by
 cases s with
 | nil => rfl
 | cons c s =>
  have hc : (c == '\\') = false := beq_eq_false_iff_ne.mpr fun heq => h (heq ▸ mem_cons_self)
  change (c == '\\' && !headIs isNewline s) = false
  rw [hc]
  rfl

theorem identSequence_plain {s : Text} (h : '\\' ∉ s) : identSequence s = (s.takeWhile isIdent, s.dropWhile isIdent) := by
 induction s with
 | nil => rfl
 | cons c s ih =>
  have hs : '\\' ∉ s := fun hin => h (mem_cons_of_mem c hin)
  rw [identSequence, repeated_eq, validEscape_plain h, Bool.or_false]
  cases hc : isIdent c with
  | true =>
   have hpart : identPart (c :: s) = (c, s) := if_pos hc
   rw [hpart, if_pos ⟨hc, Nat.lt_succ_self s.length⟩, takeWhile_cons, dropWhile_cons, hc]
   exact congrArg (fun r : Text × Text => (c :: r.1, r.2)) (ih hs)
  | false =>
   rw [if_neg fun hgo => Bool.false_ne_true (hc.symm.trans hgo.1), takeWhile_cons, dropWhile_cons, hc]
   rfl

/-! ## What one token takes -/

def Takes (p : Char → Bool) (s rest : Text) : Prop := ∃ w, s = w ++ rest ∧ ∀ c ∈ w, p c = true

variable {p : Char → Bool} {s t rest : Text}

theorem Takes.refl (p : Char → Bool) (s : Text) : Takes p s s := ⟨[], rfl, fun _ hc => absurd hc not_mem_nil⟩

theorem Takes.trans (h : Takes p s t) (h' : Takes p t rest) : Takes p s rest := by
 obtain ⟨w, rfl, hw⟩ := h
 obtain ⟨w', rfl, hw'⟩ := h'
 exact ⟨w ++ w', (append_assoc w w' rest).symm, forall_mem_append.mpr ⟨hw, hw'⟩⟩

theorem Takes.mono {q : Char → Bool} (h : Takes p s rest) (hpq : ∀ c, p c = true → q c = true) : Takes q s rest := by
 obtain ⟨w, rfl, hw⟩ := h
 exact ⟨w, rfl, fun c hc => hpq c (hw c hc)⟩

theorem takes_dropWhile (p : Char → Bool) (s : Text) : Takes p s (s.dropWhile p) :=
 ⟨s.takeWhile p, takeWhile_append_dropWhile.symm, fun _ => mem_takeWhile_imp⟩

theorem takes_head (h : headIs p s = true) : Takes p s (s.drop 1) := by
 cases s with
 | nil => exact absurd h Bool.false_ne_true
 | cons c s => exact ⟨[c], rfl, fun d hd => mem_singleton.mp hd ▸ h⟩

theorem takes_start {w : Text} (h : w <+: s) (hw : w.all p = true) : Takes p s (s.drop w.length) := by
 obtain ⟨t, rfl⟩ := h
 rw [drop_left]
 exact ⟨w, rfl, all_eq_true.mp hw⟩

theorem Takes.backslash (h : Takes p s rest) (hs : '\\' ∉ s) : '\\' ∉ rest := by
 obtain ⟨w, rfl, -⟩ := h
 exact fun hin => hs (mem_append_right w hin)

theorem neutral_of_ident (h : isIdent c = true) : isNeutral c = true := neutral_of (by decide) h

theorem takes_digits (s : Text) : Takes isNeutral s (s.dropWhile isDigit) := (takes_dropWhile isDigit s).mono fun _ => neutral_of (by decide)

theorem takes_one {a : Char} (ha : isNeutral a = true) (h : headIs (· == a) s = true) : Takes isNeutral s (s.drop 1) :=
 (takes_head h).mono fun _ hc => eq_of_beq hc ▸ ha

theorem takes_sign (s : Text) : Takes isNeutral s (if headIs isSign s then s.drop 1 else s) := by
 split_ifs with h
 · exact (takes_head h).mono fun _ => neutral_of (by decide)
 · exact .refl _ s

theorem takes_ident (h : '\\' ∉ s) : Takes isNeutral s (identSequence s).2 := by
 rw [identSequence_plain h]
 exact (takes_dropWhile isIdent s).mono fun _ => neutral_of_ident

theorem takes_number (s : Text) : Takes isNeutral s (number s).2 := by
 have hfraction : ∀ s : Text, Takes isNeutral s (fraction s).2 := by
  intro s
  rw [fraction]
  split_ifs with h
  · rw [Bool.and_eq_true] at h
    exact (takes_one rfl h.1).trans (takes_digits _)
  · exact .refl _ s
 have hexponent : ∀ s : Text, Takes isNeutral s (exponent s).2 := by
  intro s
  rw [exponent]
  by_cases h : startsExponent s = true
  · rw [if_pos h]
    rw [startsExponent, Bool.and_eq_true] at h
    exact ((takes_head h.1).mono fun _ => neutral_of (by decide)).trans ((takes_sign _).trans (takes_digits _))
  · rw [if_neg h]
    exact .refl _ s
 exact (takes_sign s).trans ((takes_digits _).trans ((hfraction _).trans (hexponent _)))

theorem takes_numeric (h : '\\' ∉ s) : Takes isNeutral s (numericToken s).2 := by
 have hnumber := takes_number s
 have hrest := hnumber.backslash h
 rw [numericToken]
 dsimp only
 split_ifs with hunit hpercent
 · exact hnumber.trans (takes_ident hrest)
 · exact hnumber.trans (takes_one rfl hpercent)
 · exact hnumber

/-! ## Token by token -/

def Advances (s : Text) (r : Token × Text) : Prop :=
 ∃ w, s = w ++ r.2 ∧ w.getLast? ≠ some '}' ∧ ∀ stack, scanText ⟨none, stack⟩ w = ⟨none, nest r.1 stack⟩

theorem advances_neutral {tok : Token} (h : Takes isNeutral s rest) (htok : ∀ stack, nest tok stack = stack) : Advances s (tok, rest) := by
 obtain ⟨w, rfl, hw⟩ := h
 refine ⟨w, rfl, fun hlast => ?_, fun stack => ?_⟩
 · exact absurd (hw _ (mem_of_getLast? hlast)) (by decide)
 · rw [scanText_neutral hw, htok]

variable {q : Char}

theorem scanText_string {w : Text} (hw : q ∉ w) (stack : List Closing) :
  scanText ⟨some q, stack⟩ w = ⟨some q, stack⟩ := by
 induction w with
 | nil => rfl
 | cons c w ih =>
  have hc : c ≠ q := fun heq => hw (heq ▸ mem_cons_self)
  have hstep : scanChar ⟨some q, stack⟩ c = ⟨some q, stack⟩ := by
   rw [scanChar]
   dsimp only
   rw [scanQuote, if_neg hc, if_neg (Option.some_ne_none q)]
   exact ite_self _
  rw [scanText, foldl_cons, hstep]
  exact ih fun hin => hw (mem_cons_of_mem c hin)

theorem stringToken_plain (hs : '\\' ∉ s) (hline : '\n' ∉ s) : ∃ value,
  stringToken q s = (.string value, (s.dropWhile (· != q)).drop 1) := by
 have hparts : (repeated (headIs fun c => c != q && !isNewline c) stringPart s).2 = s.dropWhile (· != q) := by
  induction s with
  | nil => rfl
  | cons c s ih =>
   rw [mem_cons, not_or] at hs hline
   have hpart : (stringPart (c :: s)).2 = s := by
    rw [stringPart, if_neg]
    · rfl
    · exact fun h => hs.1 (eq_of_beq h).symm
   have hnewline : isNewline c = false := beq_eq_false_iff_ne.mpr (Ne.symm hline.1)
   rw [repeated_eq, hpart, dropWhile_cons]
   cases hc : c != q with
   | true =>
    rw [if_pos ⟨show (c != q && !isNewline c) = true by rw [hc, hnewline]; rfl, Nat.lt_succ_self s.length⟩]
    exact ih hs.2 hline.2
   | false =>
    rw [if_neg fun hgo => ?_]
    · rfl
    · have hgo' : (c != q && !isNewline c) = true := hgo.1
      rw [hc] at hgo'
      cases hgo'
 have hnewline : headIs isNewline (s.dropWhile (· != q)) = false := by
  cases hrest : s.dropWhile (· != q) with
  | nil => rfl
  | cons c rest =>
   apply beq_eq_false_iff_ne.mpr
   rintro rfl
   exact hline ((dropWhile_suffix _).subset (hrest ▸ mem_cons_self))
 refine ⟨(repeated (headIs fun c => c != q && !isNewline c) stringPart s).1.reduceOption, ?_⟩
 rw [stringToken]
 dsimp only
 rw [hparts, hnewline]
 rfl

theorem string_advances (hq : isQuote q = true) (hs : '\\' ∉ s) (hline : '\n' ∉ s) : Advances (q :: s) (stringToken q s) ∨
  (stringToken q s).2 = [] ∧ ∀ stack, (scanText ⟨none, stack⟩ (q :: s)).quote ≠ none := by
 have hopen : ∀ (w : Text) (stack : List Closing), scanText ⟨none, stack⟩ (q :: w) = scanText ⟨some q, stack⟩ w := by
  intro w stack
  rw [scanText, foldl_cons, scanChar, if_pos hq]
  rfl
 obtain ⟨value, hread⟩ := stringToken_plain (q := q) hs hline
 rw [hread]
 have hparts : s = s.takeWhile (· != q) ++ s.dropWhile (· != q) := takeWhile_append_dropWhile.symm
 have hbefore : q ∉ s.takeWhile (· != q) := by
  intro hin
  have hother := mem_takeWhile_imp (p := fun c => c != q) hin
  exact absurd rfl (bne_iff_ne.mp hother)
 cases hrest : s.dropWhile (· != q) with
 | nil =>
  rw [hrest, append_nil] at hparts
  refine .inr ⟨rfl, fun stack => ?_⟩
  rw [hopen, scanText_string (hparts ▸ hbefore)]
  exact Option.some_ne_none q
 | cons c rest =>
  have hc : c = q := by
   by_contra hne
   have hnil : s.dropWhile (· != q) ≠ [] := hrest ▸ cons_ne_nil c rest
   have hstop := head_dropWhile_not (· != q) hnil
   simp only [hrest, head_cons] at hstop
   exact absurd (bne_iff_ne.mpr hne) (by rw [hstop]; exact Bool.false_ne_true)
  subst hc
  rw [hrest] at hparts
  refine .inl ⟨c :: (s.takeWhile (· != c) ++ [c]), ?_, ?_, fun stack => ?_⟩
  · rw [cons_append, append_assoc]
    exact congrArg (c :: ·) hparts
  · rw [← cons_append, getLast?_concat]
    rintro ⟨⟩
    exact absurd hq (by decide)
  · rw [hopen, scanText_append, scanText_string hbefore, scanText, foldl_cons, scanChar, if_pos hq]
    dsimp only
    rw [scanQuote, if_pos rfl]
    rfl

/-! ## Any token -/

theorem start_quote (h : start s = .string) : headIs isQuote s = true := by
 rw [start] at h
 split_ifs at h with _ _ hquote
 exact hquote

theorem start_hash (h : start s = .hash) : headIs (· == '#') s = true := by
 rw [start] at h
 split_ifs at h with _ _ _ hhash
 rw [Bool.and_eq_true] at hhash
 exact hhash.1

theorem start_symbol (h : start s = .symbol) : headIs isQuote s = false := by
 rw [start] at h
 split_ifs at h with _ _ hquote
 exact Bool.eq_false_of_not_eq_true hquote

theorem identLike_advances (hs : PlainText s) : Advances s (identLike s) := by
 have hname : ∀ c ∈ s.takeWhile isIdent, isNeutral c = true := fun c hc => neutral_of_ident (mem_takeWhile_imp hc)
 have hparts : s.takeWhile isIdent ++ s.dropWhile isIdent = s := takeWhile_append_dropWhile
 rw [identLike, identSequence_plain hs.backslash]
 dsimp only
 split_ifs with hround hurl
 · cases hrest : s.dropWhile isIdent with
   | nil =>
    rw [hrest] at hround
    exact absurd hround Bool.false_ne_true
   | cons c rest =>
    rw [hrest] at hround hparts
    have hc : c = '(' := eq_of_beq hround
    subst hc
    refine absurd ⟨[], lower rest, ?_⟩ hs.url
    calc [] ++ ['u', 'r', 'l', '('] ++ lower rest = ['u', 'r', 'l'] ++ lower ('(' :: rest) := rfl
     _ = lower (s.takeWhile isIdent) ++ lower ('(' :: rest) := by rw [hurl]
     _ = lower s := map_append.symm.trans (congrArg lower hparts)
 · cases hrest : s.dropWhile isIdent with
   | nil =>
    rw [hrest] at hround
    exact absurd hround Bool.false_ne_true
   | cons c rest =>
    rw [hrest] at hround hparts
    have hc : c = '(' := eq_of_beq hround
    subst hc
    refine ⟨s.takeWhile isIdent ++ ['('], ?_, ?_, fun stack => ?_⟩
    · rw [append_assoc]
      exact hparts.symm
    · rw [getLast?_concat]
      decide
    · rw [scanText_append, scanText_neutral hname]
      rfl
 · exact advances_neutral ⟨_, hparts.symm, hname⟩ fun _ => rfl

theorem symbol_advances (hquote : isQuote c = false) (hcurly : c ≠ '}') : Advances (c :: s) (symbolToken c, s) := by
 refine ⟨[c], rfl, fun hlast => hcurly (Option.some.inj hlast), fun stack => ?_⟩
 rw [scanText, foldl_cons, scanChar, hquote]
 rfl

theorem numericToken_nest (s : Text) (stack : List Closing) : nest (numericToken s).1 stack = stack := by
 rw [numericToken]
 dsimp only
 split_ifs <;> rfl

/-- In a plain text a token ends where its quotes and brackets do, or is a string that takes the rest. -/
theorem token_advances (hs : PlainText s) (hne : s ≠ []) (hcurly : s.head? ≠ some '}') : Advances s (token s) ∨
  (token s).2 = [] ∧ ∀ stack, (scanText ⟨none, stack⟩ s).quote ≠ none := by
 have hof := of_start s
 rw [token]
 cases hstart : start s with
 | comment =>
  rw [hstart] at hof
  exact absurd hof.isInfix hs.comment
 | whitespace => exact .inl (advances_neutral ((takes_dropWhile isSpace s).mono fun _ => neutral_of (by decide)) fun _ => rfl)
 | string =>
  cases s with
  | nil => exact absurd rfl hne
  | cons q s =>
   exact string_advances (start_quote hstart) (fun hin => hs.backslash (mem_cons_of_mem q hin))
    fun hin => hs.newline (mem_cons_of_mem q hin)
 | hash =>
  have hhash := takes_one rfl (start_hash hstart)
  exact .inl (advances_neutral (hhash.trans (takes_ident (hhash.backslash hs.backslash))) fun _ => rfl)
 | numeric => exact .inl (advances_neutral (takes_numeric hs.backslash) (numericToken_nest s))
 | cdc =>
  rw [hstart] at hof
  exact .inl (advances_neutral (takes_start hof (by decide)) fun _ => rfl)
 | cdo =>
  rw [hstart] at hof
  exact .inl (advances_neutral (takes_start hof (by decide)) fun _ => rfl)
 | atKeyword =>
  rw [hstart] at hof
  have hat := takes_one rfl hof
  exact .inl (advances_neutral (hat.trans (takes_ident (hat.backslash hs.backslash))) fun _ => rfl)
 | identLike => exact .inl (identLike_advances hs)
 | symbol =>
  cases s with
  | nil => exact absurd rfl hne
  | cons c s => exact .inl (symbol_advances (start_symbol hstart) fun hc => hcurly (congrArg some hc))

/-! ## A block -/

def blockFrom : List Closing → Reads Char (List Lexeme) :=
 many (fun stack s => headIs (fun c => !(c == '}' && stack.isEmpty)) s)
  (fun stack s => (((lexeme s).1, nest (lexeme s).1.token stack), (lexeme s).2))

theorem blockFrom_nil (stack : List Closing) : blockFrom stack [] = ([], []) := by
 rw [blockFrom, many_eq, if_neg fun h => Bool.false_ne_true h.1]

theorem blockFrom_step {stack : List Closing} (hgo : c ≠ '}' ∨ stack ≠ []) (s : Text) :
  (blockFrom stack (c :: s)).2 = (blockFrom (nest (token (c :: s)).1 stack) (token (c :: s)).2).2 := by
 have hgo' : (!(c == '}' && stack.isEmpty)) = true := by
  rw [Bool.not_eq_true', Bool.and_eq_false_iff]
  cases hgo with
  | inl hc => exact .inl (beq_eq_false_iff_ne.mpr hc)
  | inr hstack => exact .inr (isEmpty_eq_false_iff.mpr hstack)
 rw [blockFrom, many_eq, if_pos ⟨hgo', token_short (cons_ne_nil c s)⟩]
 rfl

/-- The block of a plain text ends at the bracket after it just when its quotes and brackets are closed. -/
theorem blockFrom_plain {u : Text} (hu : PlainText (u ++ ['}'])) (hcurly : '}' ∉ u) (stack : List Closing) :
  (blockFrom stack (u ++ ['}'])).2 = ['}'] ↔ scanText ⟨none, stack⟩ u = ⟨none, []⟩ := by
 induction hn : u.length using Nat.strong_induction_on generalizing u stack with
 | _ n ih =>
  cases u with
  | nil =>
   cases stack with
   | nil =>
    rw [nil_append, blockFrom, many_eq, if_neg fun h => Bool.false_ne_true h.1]
    exact ⟨fun _ => rfl, fun _ => rfl⟩
   | cons b stack =>
    have hend : (token ['}']).2 = [] := by decide
    rw [nil_append, blockFrom_step (.inr (cons_ne_nil b stack)), hend, blockFrom_nil]
    exact ⟨fun h => absurd h (cons_ne_nil '}' []).symm, fun h => absurd (congrArg Scan.stack h) (cons_ne_nil b stack)⟩
  | cons c u =>
   rw [mem_cons, not_or] at hcurly
   have hc : c ≠ '}' := Ne.symm hcurly.1
   have hshort := token_short (cons_ne_nil c (u ++ ['}']))
   rw [cons_append, blockFrom_step (.inl hc)]
   rw [cons_append] at hu
   cases token_advances hu (cons_ne_nil c _) (fun hhead => hc (Option.some.inj hhead)) with
   | inr hopen =>
    rw [hopen.1, blockFrom_nil]
    refine ⟨fun h => absurd h (cons_ne_nil '}' []).symm, fun h => absurd ?_ (hopen.2 stack)⟩
    rw [← cons_append, scanText_append, h]
    rfl
   | inl hadvances =>
    obtain ⟨w, hw, hlast, hscan⟩ := hadvances
    -- what is taken isn't the bracket that ends the text
    obtain ⟨v, hv⟩ : ∃ v, (token (c :: (u ++ ['}']))).2 = v ++ ['}'] := by
     obtain hnil | ⟨v, b, hv⟩ := eq_nil_or_concat' (token (c :: (u ++ ['}']))).2
     · rw [hnil, append_nil, ← cons_append] at hw
       exact absurd (hw ▸ getLast?_concat) hlast
     · rw [hv, ← append_assoc, ← cons_append] at hw
       obtain ⟨-, hb⟩ := append_inj' hw rfl
       exact ⟨v, hv.trans (hb ▸ rfl)⟩
    rw [hv] at hw hshort ⊢
    have hparts : c :: u = w ++ v := by
     rw [← append_assoc, ← cons_append] at hw
     exact append_cancel_right hw
    have hlen : v.length < n := by
     simp only [length_append, length_cons] at hshort hn
     omega
    rw [hparts, scanText_append, hscan]
    refine ih _ hlen ?_ ?_ _ rfl
    · exact hu.mono (hw ▸ (suffix_append w _).isInfix)
    · intro hin
      have hin' : '}' ∈ c :: u := hparts ▸ mem_append_right w hin
      cases mem_cons.mp hin' with
      | inl hfirst => exact hcurly.1 hfirst
      | inr hlater => exact hcurly.2 hlater

/-! ## Blocks in blocks -/

def Token.opensRule : Token → Bool
 | .opens .curly | .atKeyword _ => true
 | _ => false

theorem symbolToken_opensRule (h : (symbolToken c).opensRule = true) : c = '{' := by
 rw [symbolToken] at h
 split_ifs at h with _ _ _ _ _ _ _ hcurly
 all_goals first | exact hcurly | cases h

theorem string_opensRule (q : Char) (s : Text) : (stringToken q s).1.opensRule = false := by
 rw [stringToken]
 dsimp only
 split_ifs <;> rfl

theorem numeric_opensRule (s : Text) : (numericToken s).1.opensRule = false := by
 rw [numericToken]
 dsimp only
 split_ifs <;> rfl

theorem identLike_opensRule (s : Text) : (identLike s).1.opensRule = false := by
 rw [identLike]
 dsimp only
 split_ifs
 · rw [urlFunction]
   split_ifs
   · rfl
   · rw [urlToken]
     dsimp only
     split_ifs <;> rfl
 · rfl
 · rfl

theorem token_opensRule (h : (token s).1.opensRule = true) : headIs (fun c => c == '{' || c == '@') s = true := by
 have hof := of_start s
 rw [token] at h
 cases hstart : start s with
 | atKeyword =>
  rw [hstart] at hof
  cases s with
  | nil => exact absurd hof Bool.false_ne_true
  | cons c s => exact (Bool.or_eq_true _ _).mpr (.inr hof)
 | symbol =>
  cases s with
  | nil =>
   rw [hstart] at h
   cases h
  | cons c s =>
   rw [hstart] at h
   have hc : c = '{' := symbolToken_opensRule h
   exact (Bool.or_eq_true _ _).mpr (.inl (beq_iff_eq.mpr hc))
 | comment =>
  rw [hstart] at h
  cases h
 | whitespace =>
  rw [hstart] at h
  cases h
 | hash =>
  rw [hstart] at h
  cases h
 | cdc =>
  rw [hstart] at h
  cases h
 | cdo =>
  rw [hstart] at h
  cases h
 | string =>
  rw [hstart, tokenAt, string_opensRule] at h
  cases h
 | numeric =>
  rw [hstart, tokenAt, numeric_opensRule] at h
  cases h
 | identLike =>
  rw [hstart, tokenAt, identLike_opensRule] at h
  cases h

theorem lexeme_opensRule (h : (lexeme s).1.token.opensRule = true) : '{' ∈ (lexeme s).1.source ∨ '@' ∈ (lexeme s).1.source := by
 have hhead := token_opensRule h
 have hsource := lexeme_source s
 cases s with
 | nil => exact absurd hhead Bool.false_ne_true
 | cons c s =>
  have hshort : (lexeme (c :: s)).2.length < (c :: s).length := token_short (cons_ne_nil c s)
  have hmem : c ∈ (lexeme (c :: s)).1.source := by
   cases htaken : (lexeme (c :: s)).1.source with
   | nil =>
    rw [htaken, nil_append] at hsource
    exact absurd (hsource ▸ hshort) (lt_irrefl _)
   | cons d w =>
    rw [htaken] at hsource
    exact (List.cons.inj hsource).1 ▸ mem_cons_self
  cases (Bool.or_eq_true _ _).mp hhead with
  | inl hc => exact .inl (eq_of_beq hc ▸ hmem)
  | inr hc => exact .inr (eq_of_beq hc ▸ hmem)

theorem upTo_opensRule {stops : Char → Bool} (h : '{' ∉ sourceOf (upTo stops s).1) (hat : '@' ∉ sourceOf (upTo stops s).1) :
  ∀ l ∈ (upTo stops s).1, l.token.opensRule = false := by
 intro l hl
 obtain ⟨stack, t, rfl⟩ := many_mem hl
 apply Bool.eq_false_of_not_eq_true
 intro hopens
 cases lexeme_opensRule hopens with
 | inl hin => exact h (mem_flatMap.mpr ⟨_, hl, hin⟩)
 | inr hin => exact hat (mem_flatMap.mpr ⟨_, hl, hin⟩)

end MoltBrowser.CssSyntax
