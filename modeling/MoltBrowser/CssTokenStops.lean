import MoltBrowser.CssTokens

set_option autoImplicit false

/-!
# Tokens and curly brackets

No token but one that took a curly bracket itself depends on what comes after the bracket.
-/
namespace MoltBrowser.CssSyntax
open TextReaders

def IsCurly (x : Char) : Prop := x = '{' ∨ x = '}'

variable {x : Char}

theorem IsCurly.out {p : Char → Bool} (hx : IsCurly x) (hopen : p '{' = false) (hclose : p '}' = false) : p x = false := by
 cases hx with
 | inl h => rw [h]; exact hopen
 | inr h => rw [h]; exact hclose

theorem IsCurly.other {c : Char} (hx : IsCurly x) (hopen : '{' ≠ c) (hclose : '}' ≠ c) : (x == c) = false := by
 apply beq_eq_false_iff_ne.mpr
 cases hx with
 | inl h => rw [h]; exact hopen
 | inr h => rw [h]; exact hclose

theorem IsCurly.notMem {w : Text} (hx : IsCurly x) (hopen : '{' ∉ w) (hclose : '}' ∉ w) : x ∉ w := by
 cases hx with
 | inl h => rw [h]; exact hopen
 | inr h => rw [h]; exact hclose

theorem IsCurly.space (hx : IsCurly x) : isSpace x = false := hx.out rfl rfl
theorem IsCurly.digit (hx : IsCurly x) : isDigit x = false := hx.out rfl rfl
theorem IsCurly.sign (hx : IsCurly x) : isSign x = false := hx.out rfl rfl

/-! ## Looking ahead -/

theorem settled_validEscape (hx : IsCurly x) : Settled x validEscape :=
 ((settled_headIs x isNewline).comp not).after (p := fun c => c == '\\') (hx.other (by decide) (by decide))

theorem settled_startsIdent (hx : IsCurly x) : Settled x startsIdent := by
 apply ((settled_headIs x isIdentStart).both (settled_validEscape hx) or).both _ or
 have hsecond : Settled x fun s => headIs (fun c => isIdentStart c || c == '-') s || validEscape s :=
  (settled_headIs x _).both (settled_validEscape hx) or
 exact hsecond.after (p := fun c => c == '-') (hx.other (by decide) (by decide))

theorem settled_startsUnsigned (hx : IsCurly x) : Settled x startsUnsigned :=
 (settled_headIs x isDigit).both ((settled_headIs x isDigit).after (p := fun c => c == '.') (hx.other (by decide) (by decide))) or

theorem settled_startsNumber (hx : IsCurly x) : Settled x startsNumber :=
 (settled_startsUnsigned hx).both ((settled_startsUnsigned hx).after hx.sign) or

theorem settled_startsExponent (hx : IsCurly x) : Settled x startsExponent := by
 have hdigits : Settled x fun s => headIs isDigit s || (headIs isSign s && headIs isDigit (s.drop 1)) :=
  (settled_headIs x isDigit).both ((settled_headIs x isDigit).after hx.sign) or
 exact hdigits.after (p := isExponent) (hx.out rfl rfl)

theorem settled_name (hx : IsCurly x) : Settled x fun s => headIs isIdent s || validEscape s :=
 (settled_headIs x isIdent).both (settled_validEscape hx) or

theorem settled_start (hx : IsCurly x) : Settled x start := by
 have hfixed : ∀ a : Start, Settled x fun _ : Text => a := fun _ _ _ _ => rfl
 apply (settled_isPrefixOf (w := ['/', '*']) (hx.notMem (by decide) (by decide))).ite (hfixed .comment)
 apply (settled_headIs x isSpace).ite (hfixed .whitespace)
 apply (settled_headIs x isQuote).ite (hfixed .string)
 apply ((settled_name hx).after (p := fun c => c == '#') (hx.other (by decide) (by decide))).ite (hfixed .hash)
 apply (settled_startsNumber hx).ite (hfixed .numeric)
 apply (settled_isPrefixOf (w := ['-', '-', '>']) (hx.notMem (by decide) (by decide))).ite (hfixed .cdc)
 apply (settled_isPrefixOf (w := ['<', '!', '-', '-']) (hx.notMem (by decide) (by decide))).ite (hfixed .cdo)
 apply ((settled_startsIdent hx).after (p := fun c => c == '@') (hx.other (by decide) (by decide))).ite (hfixed .atKeyword)
 exact (settled_startsIdent hx).ite (hfixed .identLike) (hfixed .symbol)

/-! ## Names -/

theorem local_passing {α : Type} (p : Char → Bool) (a : α) : Local x (passing p a) :=
 Local.ite (settled_headIs x p) ((Local.pure x a).drop 1) (Local.pure x a)

theorem settled_hexRun (hx : IsCurly x) : Settled x hexRun := (settled_takeWhile (hx.out rfl rfl)).comp _

theorem local_escaped (hx : IsCurly x) : Local x escaped := by
 have hhex : Local x fun s => passing isSpace (codePoint (hexRun s)) (s.drop (hexRun s).length) :=
  Local.settled (settled_hexRun hx) fun run => (local_passing isSpace (codePoint run)).drop run.length
 exact Local.ite (settled_isEmpty x) (Local.pure x replacement) (Local.ite (settled_headIs x isHex) hhex (local_one x))

theorem local_identPart (hx : IsCurly x) : Local x identPart :=
 Local.ite (settled_headIs x isIdent) (local_one x) ((local_escaped hx).drop 1)

theorem local_identSequence (hx : IsCurly x) : Local x identSequence :=
 Local.repeated (settled_name hx) (local_identPart hx)

/-! ## Strings -/

theorem local_stringEscape (hx : IsCurly x) : Local x stringEscape :=
 Local.ite (settled_isEmpty x) (Local.pure x none)
  (Local.ite (settled_headIs x isNewline) ((Local.pure x none).drop 1) ((local_escaped hx).map some))

theorem local_stringPart (hx : IsCurly x) : Local x stringPart :=
 Local.ite (settled_headIs x _) ((local_stringEscape hx).drop 1) ((local_one x).map some)

theorem local_stringToken (hx : IsCurly x) (quote : Char) : Local x (stringToken quote) := by
 have hparts := Local.repeated (settled_headIs x fun c => c != quote && !isNewline c) (local_stringPart hx)
 have hend : ∀ parts : List (Option Char), Local x fun rest =>
   if headIs isNewline rest then (Token.badString, rest) else (Token.string parts.reduceOption, rest.drop 1) := fun parts =>
  Local.ite (settled_headIs x isNewline) (Local.pure x _) ((Local.pure x _).drop 1)
 exact hparts.bind hend

/-! ## Numbers -/

theorem local_fraction (hx : IsCurly x) : Local x fraction := by
 have hdot : Settled x fun s => headIs (· == '.') s && headIs isDigit (s.drop 1) :=
  (settled_headIs x isDigit).after (p := fun c => c == '.') (hx.other (by decide) (by decide))
 exact Local.ite hdot (((Local.pure x true).dropWhile hx.digit).drop 1) (Local.pure x false)

theorem Local.afterSign {α : Type} {f : Reads Char α} (hf : Local x f) :
  Local x (fun s => f (if headIs isSign s then s.drop 1 else s)) := by
 have hchoice : Local x fun s => if headIs isSign s then f (s.drop 1) else f s :=
  Local.ite (settled_headIs x isSign) (hf.drop 1) hf
 have hsame : (fun s => f (if headIs isSign s then s.drop 1 else s)) = fun s => if headIs isSign s then f (s.drop 1) else f s := by
  funext s
  split_ifs <;> rfl
 exact hsame ▸ hchoice

theorem local_exponent (hx : IsCurly x) : Local x exponent := by
 have hdigits : Local x fun s : Text => (true, s.dropWhile isDigit) := (Local.pure x true).dropWhile hx.digit
 exact Local.ite (settled_startsExponent hx) ((Local.afterSign hdigits).drop 1) (Local.pure x false)

theorem local_number (hx : IsCurly x) : Local x number := by
 have hfraction := Local.afterSign ((local_fraction hx).dropWhile hx.digit)
 exact hfraction.bind fun hasFraction => (local_exponent hx).map fun hasExponent => !(hasFraction || hasExponent)

theorem local_numberEnd (hx : IsCurly x) (r : Bool × Text) : Local x fun rest =>
  if startsIdent rest then (Token.dimension r.2 r.1 (identSequence rest).1, (identSequence rest).2)
  else if headIs (· == '%') rest then (Token.percentage r.2, rest.drop 1) else (Token.number r.2 r.1, rest) :=
 Local.ite (settled_startsIdent hx) ((local_identSequence hx).map fun unit => Token.dimension r.2 r.1 unit)
  (Local.ite (settled_headIs x _) ((Local.pure x _).drop 1) (Local.pure x _))

theorem local_numericToken (hx : IsCurly x) : Local x numericToken := (local_number hx).taken.bind (local_numberEnd hx)

/-! ## Urls -/

theorem local_urlPart (hx : IsCurly x) : Local x urlPart :=
 Local.ite (settled_validEscape hx) ((local_escaped hx).drop 1) (local_one x)

theorem local_badUrl (hx : IsCurly x) : Local x badUrl :=
 (Local.repeated (settled_headIs x _) (local_urlPart hx)).bind fun _ => (Local.pure x Token.badUrl).drop 1

theorem local_urlToken (hx : IsCurly x) : Local x urlToken := by
 have hchars : Settled x fun s => headIs isUrlChar s || validEscape s :=
  (settled_headIs x isUrlChar).both (settled_validEscape hx) or
 have hstop : Settled x fun rest : Text => rest.isEmpty || headIs (· == ')') rest :=
  (settled_isEmpty x).both (settled_headIs x _) or
 have hend : ∀ value : Text, Local x fun rest => if rest.isEmpty || headIs (· == ')') rest then (Token.url value, rest.drop 1) else badUrl rest :=
  fun value => Local.ite hstop ((Local.pure x _).drop 1) (local_badUrl hx)
 exact ((Local.repeated hchars (local_urlPart hx)).dropWhile hx.space).bind fun value => (hend value).dropWhile hx.space

theorem local_urlFunction (hx : IsCurly x) (name : Text) : Local x (urlFunction name) := by
 have hspaces : Local x fun s : Text => (Token.function name, s.drop ((s.takeWhile isSpace).length - 1)) :=
  Local.settled (settled_takeWhile hx.space) fun spaces => (Local.pure x (Token.function name)).drop (spaces.length - 1)
 exact Local.ite (settled_dropWhile (settled_headIs x isQuote) hx.space) hspaces (local_urlToken hx)

theorem local_identEnd (hx : IsCurly x) (name : Text) : Local x fun rest =>
  if headIs (· == '(') rest then
   if lower name = ['u', 'r', 'l'] then urlFunction name (rest.drop 1) else (Token.function name, rest.drop 1)
  else (Token.ident name, rest) := by
 apply Local.ite (settled_headIs x _) _ (Local.pure x _)
 by_cases hurl : lower name = ['u', 'r', 'l']
 · simp only [if_pos hurl]
   exact (local_urlFunction hx name).drop 1
 · simp only [if_neg hurl]
   exact (Local.pure x _).drop 1

theorem local_identLike (hx : IsCurly x) : Local x identLike := (local_identSequence hx).bind (local_identEnd hx)

/-! ## Any token -/

theorem local_commentEnd (hx : IsCurly x) : Local x fun s : Text =>
  (Token.comment, (repeated (fun s : Text => !s.isEmpty && ! ['*', '/'].isPrefixOf s) one s).2.drop 2) := by
 have hgo : Settled x fun s : Text => !s.isEmpty && ! ['*', '/'].isPrefixOf s :=
  ((settled_isEmpty x).comp not).both ((settled_isPrefixOf (w := ['*', '/']) (hx.notMem (by decide) (by decide))).comp not) and
 exact (Local.repeated hgo (local_one x)).bind fun _ => (Local.pure x Token.comment).drop 2

theorem local_comment (hx : IsCurly x) : Local x comment := (local_commentEnd hx).drop 2

theorem local_hashToken (hx : IsCurly x) : Local x hashToken :=
 Local.settled (settled_startsIdent hx) fun isId => (local_identSequence hx).map fun name => Token.hash name isId

theorem local_tokenAt (hx : IsCurly x) (what : Start) : Local x (tokenAt what) := by
 cases what with
 | comment => exact local_comment hx
 | whitespace => exact (Local.pure x _).dropWhile hx.space
 | string => exact (local_one x).bind fun quote => local_stringToken hx quote
 | hash => exact (local_hashToken hx).drop 1
 | numeric => exact local_numericToken hx
 | cdc => exact (Local.pure x _).drop 3
 | cdo => exact (Local.pure x _).drop 4
 | atKeyword => exact ((local_identSequence hx).map Token.atKeyword).drop 1
 | identLike => exact local_identLike hx
 | symbol => exact Local.ite (settled_isEmpty x) (Local.pure x _) ((local_one x).map symbolToken)

theorem local_token (hx : IsCurly x) : Local x token := Local.settled (settled_start hx) (local_tokenAt hx)

theorem local_lexeme (hx : IsCurly x) : Local x lexeme := (local_token hx).taken.map fun r => Lexeme.mk r.1 r.2

theorem lexeme_source (s : Text) : (lexeme s).1.source ++ (lexeme s).2 = s :=
 taken_append ((local_token (.inl rfl)).rest s)

/-! ## What a token starts with -/

theorem start_space {s : Text} (h : headIs isSpace s = true) : start s = .whitespace := by
 have hcomment : ['/', '*'].isPrefixOf s = false := by
  cases s with
  | nil => rfl
  | cons c s =>
   have hc : isSpace c = true := h
   have hslash : ('/' == c) = false := by
    apply beq_eq_false_iff_ne.mpr
    rintro rfl
    exact absurd hc (by decide)
   rw [List.isPrefixOf, hslash, Bool.false_and]
 rw [start, hcomment, h]
 rfl

theorem of_start (s : Text) : match start s with
  | .comment => ['/', '*'] <+: s
  | .whitespace => headIs isSpace s = true
  | .numeric => startsNumber s = true
  | .cdc => ['-', '-', '>'] <+: s
  | .cdo => ['<', '!', '-', '-'] <+: s
  | .atKeyword => headIs (· == '@') s = true
  | .identLike => startsIdent s = true
  | _ => True := by
 rw [start]
 split_ifs with hcomment hspace hquote hhash hnumber hcdc hcdo hat hident
 · exact List.isPrefixOf_iff_prefix.mp hcomment
 · exact hspace
 · trivial
 · trivial
 · exact hnumber
 · exact List.isPrefixOf_iff_prefix.mp hcdc
 · exact List.isPrefixOf_iff_prefix.mp hcdo
 · rw [Bool.and_eq_true] at hat
   exact hat.1
 · exact hident
 · trivial

/-! ## Every token takes something -/

theorem length_drop_lt {s : Text} (hs : s ≠ []) {n : ℕ} (hn : 0 < n) : (s.drop n).length < s.length := by
 rw [List.length_drop]
 exact Nat.sub_lt (List.length_pos_of_ne_nil hs) hn

theorem length_dropWhile_lt {p : Char → Bool} {s : Text} (h : headIs p s = true) : (s.dropWhile p).length < s.length := by
 cases s with
 | nil => exact absurd h Bool.false_ne_true
 | cons c s =>
  have hc : p c = true := h
  rw [List.dropWhile_cons, if_pos hc, List.length_cons]
  exact Nat.lt_succ_of_le (List.dropWhile_suffix p).length_le

theorem Local.short {α : Type} {f : Reads Char α} (hf : Local '{' f) {s v : Text} (h : v.length < s.length) :
  (f v).2.length < s.length := (hf.rest v).length_le.trans_lt h

theorem identSequence_short {s : Text} (h : startsIdent s = true) (hs : s ≠ []) : (identSequence s).2.length < s.length := by
 have hgo : (headIs isIdent s || validEscape s) = true := by
  rw [startsIdent, Bool.or_eq_true, Bool.or_eq_true, Bool.and_eq_true] at h
  rw [Bool.or_eq_true]
  cases s with
  | nil => exact absurd rfl hs
  | cons c s =>
   obtain (hc | hescape) | ⟨hc, -⟩ := h
   · have hstart : isIdentStart c = true := hc
     exact .inl (show isIdent c = true by rw [isIdent, hstart]; rfl)
   · exact .inr hescape
   · have hdash : (c == '-') = true := hc
     exact .inl (show isIdent c = true by rw [isIdent, hdash, Bool.or_true])
 have hstep : (identPart s).2.length < s.length := by
  rw [identPart]
  split_ifs
  · exact length_drop_lt hs Nat.one_pos
  · exact Local.short (local_escaped (.inl rfl)) (length_drop_lt hs Nat.one_pos)
 rw [identSequence, repeated_eq, if_pos ⟨hgo, hstep⟩]
 exact Local.short (local_identSequence (.inl rfl)) hstep

theorem number_short {s : Text} (h : startsNumber s = true) (hs : s ≠ []) : (number s).2.length < s.length := by
 have hrest : ∀ v : Text, (fraction v).2.length < s.length → (exponent (fraction v).2).2.length < s.length :=
  fun v hv => Local.short (local_exponent (.inl rfl)) hv
 apply hrest
 by_cases hsign : headIs isSign s = true
 · rw [if_pos hsign]
   exact Local.short ((local_fraction (.inl rfl)).dropWhile (by decide)) (length_drop_lt hs Nat.one_pos)
 · rw [if_neg hsign]
   rw [startsNumber, Bool.eq_false_of_not_eq_true hsign, Bool.false_and, Bool.or_false, startsUnsigned] at h
   by_cases hdigit : headIs isDigit s = true
   · exact Local.short (local_fraction (.inl rfl)) (length_dropWhile_lt hdigit)
   · rw [Bool.eq_false_of_not_eq_true hdigit, Bool.false_or] at h
     have hsame : s.dropWhile isDigit = s := by
      cases s with
      | nil => rfl
      | cons c s =>
       have hc : isDigit c = false := Bool.eq_false_of_not_eq_true hdigit
       rw [List.dropWhile_cons, hc]
       rfl
     rw [hsame, fraction, if_pos h]
     exact (List.dropWhile_suffix isDigit).length_le.trans_lt (length_drop_lt hs Nat.one_pos)

theorem numericToken_short {s : Text} (h : startsNumber s = true) (hs : s ≠ []) : (numericToken s).2.length < s.length :=
 Local.short (local_numberEnd (.inl rfl) ((number s).1, taken s (number s).2)) (number_short h hs)

theorem token_short {s : Text} (hs : s ≠ []) : (token s).2.length < s.length := by
 have hof := of_start s
 rw [token]
 cases hstart : start s with
 | comment => exact Local.short (local_commentEnd (.inl rfl)) (length_drop_lt hs Nat.two_pos)
 | whitespace =>
  rw [hstart] at hof
  exact length_dropWhile_lt hof
 | string => exact Local.short (local_stringToken (.inl rfl) _) (length_drop_lt hs Nat.one_pos)
 | hash => exact Local.short (local_hashToken (.inl rfl)) (length_drop_lt hs Nat.one_pos)
 | numeric =>
  rw [hstart] at hof
  exact numericToken_short hof hs
 | cdc => exact length_drop_lt hs (by decide)
 | cdo => exact length_drop_lt hs (by decide)
 | atKeyword => exact Local.short (local_identSequence (.inl rfl)) (length_drop_lt hs Nat.one_pos)
 | identLike =>
  rw [hstart] at hof
  exact Local.short (local_identEnd (.inl rfl) _) (identSequence_short hof hs)
 | symbol =>
  have hempty : s.isEmpty = false := by
   cases s with
   | nil => exact absurd rfl hs
   | cons c s => rfl
  rw [tokenAt, hempty]
  exact length_drop_lt hs Nat.one_pos

end MoltBrowser.CssSyntax
