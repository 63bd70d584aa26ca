import MoltBrowser.CssTokenStops

set_option autoImplicit false

/-! # The rules of a stylesheet and the declarations of a block -/
namespace MoltBrowser.CssSyntax
open TextReaders List

/-! ## Component values -/

/-- The brackets still to close after a token, innermost first. -/
def nest : Token → List Closing → List Closing
 | .function _, stack => .round :: stack
 | .opens b, stack => b :: stack
 | .closes b, stack => if stack.head? = some b then stack.tail else stack
 | _, stack => stack

/-- Component values up to one of these that stands in no bracket, or to the end of the text. -/
def upTo (stops : Char → Bool) : Reads Char (List Lexeme) :=
 many (fun stack s => headIs (fun c => !(stops c && stack.isEmpty)) s)
  (fun stack s => (((lexeme s).1, nest (lexeme s).1.token stack), (lexeme s).2)) []

def sourceOf (ls : List Lexeme) : Text := ls.flatMap Lexeme.source

theorem upTo_source (stops : Char → Bool) (s : Text) : sourceOf (upTo stops s).1 ++ (upTo stops s).2 = s :=
 many_taken (fun _ s => lexeme_source s) [] s

theorem local_upTo {x : Char} (hx : IsCurly x) (stops : Char → Bool) : Local x (upTo stops) :=
 Local.many (fun _ => settled_headIs x _) (fun stack => (local_lexeme hx).map fun l => (l, nest l.token stack)) []

/-- The component values end at the bracket they are read to, or where the text ends. -/
theorem upTo_ends (stops : Char → Bool) (s : Text) : (upTo stops s).2 = [] ∨ headIs stops (upTo stops s).2 = true := by
 have hshort : ∀ (stack : List Closing) (s : Text), headIs (fun c => !(stops c && stack.isEmpty)) s = true →
   (lexeme s).2.length < s.length := by
  intro stack s hgo
  apply token_short
  rintro rfl
  exact Bool.false_ne_true hgo
 have hstop : ∃ stack : List Closing, headIs (fun c => !(stops c && stack.isEmpty)) (upTo stops s).2 = false :=
  @many_ends _ _ _ _ (fun stack s => (((lexeme s).1, nest (lexeme s).1.token stack), (lexeme s).2)) hshort [] s
 obtain ⟨stack, hstop⟩ := hstop
 cases hrest : (upTo stops s).2 with
 | nil => exact .inl rfl
 | cons c rest =>
  have hc : (!(stops c && stack.isEmpty)) = false := by rw [hrest] at hstop; exact hstop
  rw [Bool.not_eq_false', Bool.and_eq_true] at hc
  exact .inr hc.1

/-! ## Rules -/

inductive Rule where
 | qualified (prelude block : List Lexeme)
 | atRule (name : Text) (prelude : List Lexeme) (block : Option (List Lexeme))

def simpleBlock : Reads Char (List Lexeme) := fun s => ((upTo (· == '}') s).1, (upTo (· == '}') s).2.drop 1)

/-- There is no rule when the text ends before its block. -/
def qualifiedRule : Reads Char (Option Rule) := fun s =>
 let (prelude, rest) := upTo (· == '{') s
 if headIs (· == '{') rest then
  let (block, rest) := simpleBlock (rest.drop 1)
  (some (.qualified prelude block), rest)
 else (none, rest)

/-- After the `@`. -/
def atRule : Reads Char (Option Rule) := fun s =>
 let (name, rest) := identSequence s
 let (prelude, rest) := upTo (fun c => c == ';' || c == '{') rest
 if headIs (· == '{') rest then
  let (block, rest) := simpleBlock (rest.drop 1)
  (some (.atRule name prelude (some block)), rest)
 else (some (.atRule name prelude none), rest.drop 1)

def Start.isBetween : Start → Bool
 | .whitespace | .cdo | .cdc | .comment => true
 | _ => false

def topLevel : Reads Char (Option Rule) := fun s =>
 if (start s).isBetween then (none, (token s).2)
 else if start s = .atKeyword then atRule (s.drop 1)
 else qualifiedRule s

def rules (s : Text) : List Rule := (repeated (fun s => !s.isEmpty) topLevel s).1.reduceOption

def stylesheet (s : Text) : List Rule := rules (preprocess s)

/-! ### Rule after rule -/

variable {s : Text}

theorem rules_eq (h : (topLevel s).2.length < s.length) :
  rules s = (topLevel s).1.toList ++ rules (topLevel s).2 := by
 have hne : (!s.isEmpty) = true := by
  cases s with
  | nil => exact absurd h (Nat.not_lt_zero _)
  | cons c s => rfl
 rw [rules, repeated_eq, if_pos ⟨hne, h⟩, rules]
 cases (topLevel s).1 with
 | none => exact reduceOption_cons_of_none _
 | some r => exact reduceOption_cons_of_some r _

theorem rules_between {rest : Text} (hstart : (start s).isBetween = true) (hrest : (token s).2 = rest) (h : rest.length < s.length) :
  rules s = rules rest := by
 have htop : topLevel s = (none, rest) := by rw [topLevel, if_pos hstart, hrest]
 rw [rules_eq (by rw [htop]; exact h), htop]
 rfl

theorem rules_space (s : Text) : rules s = rules (s.dropWhile isSpace) := by
 cases hspace : headIs isSpace s with
 | false =>
  cases s with
  | nil => rfl
  | cons c s =>
   have hc : isSpace c = false := hspace
   rw [dropWhile_cons, hc]
   rfl
 | true =>
  have hstart := start_space hspace
  refine rules_between (by rw [hstart]; rfl) ?_ (length_dropWhile_lt hspace)
  rw [token, hstart]
  rfl

variable {u : Text}

theorem upTo_before {x : Char} {stops : Char → Bool} {ls : List Lexeme} (hx : IsCurly x) (hread : upTo stops (u ++ [x]) = (ls, [x]))
  (t : Text) : upTo stops (u ++ x :: t) = (ls, x :: t) := by
 obtain ⟨y, hy⟩ := (local_upTo hx stops).stable u [] (by rw [hread]; exact Nat.zero_lt_one)
 have hnil := hy []
 rw [hread] at hy hnil
 have hy' : y = [] := append_left_eq_self.mp (congrArg Prod.snd hnil).symm
 rw [hy t, hy']
 rfl

variable {prelude : List Lexeme}

theorem topLevel_qualified (hprelude : upTo (· == '{') (u ++ ['{']) = (prelude, ['{']))
  (hstart : ∀ t, (start (u ++ '{' :: t)).isBetween = false) (hat : ∀ t, start (u ++ '{' :: t) ≠ .atKeyword) (t : Text) :
  topLevel (u ++ '{' :: t) = (some (.qualified prelude (simpleBlock t).1), (simpleBlock t).2) := by
 rw [topLevel, hstart, if_neg (by decide), if_neg (hat _), qualifiedRule, upTo_before (.inl rfl) hprelude]
 rfl

theorem simpleBlock_length (s : Text) : (simpleBlock s).2.length ≤ s.length :=
 (drop_suffix 1 _).length_le.trans ((local_upTo (.inl rfl) _).rest s).length_le

theorem rules_started (hprelude : upTo (· == '{') (u ++ ['{']) = (prelude, ['{']))
  (hstart : ∀ t, (start (u ++ '{' :: t)).isBetween = false) (hat : ∀ t, start (u ++ '{' :: t) ≠ .atKeyword) (t : Text) :
  rules (u ++ '{' :: t) = .qualified prelude (simpleBlock t).1 :: rules (simpleBlock t).2 := by
 have hrule := topLevel_qualified hprelude hstart hat t
 rw [rules_eq, hrule]
 · rfl
 · have hlen := simpleBlock_length t
   rw [hrule, length_append, length_cons]
   dsimp only
   omega

variable {t : Text} {block : List Lexeme}

theorem rules_qualified {body : Text} (hprelude : upTo (· == '{') (u ++ ['{']) = (prelude, ['{']))
  (hblock : upTo (· == '}') (body ++ ['}']) = (block, ['}'])) (hstart : ∀ t, (start (u ++ '{' :: t)).isBetween = false)
  (hat : ∀ t, start (u ++ '{' :: t) ≠ .atKeyword) :
  rules (u ++ '{' :: (body ++ '}' :: t)) = .qualified prelude block :: rules t := by
 have hread : simpleBlock (body ++ '}' :: t) = (block, t) := by
  rw [simpleBlock, upTo_before (.inr rfl) hblock]
  rfl
 rw [rules_started hprelude hstart hat, hread]

variable {rs : List Rule}

theorem rules_cons {r : Rule} (h : rules s = r :: rs) : (topLevel s).2.length < s.length := by
 by_contra hlong
 rw [rules, repeated_eq, if_neg fun hgo => hlong hgo.2] at h
 cases h

theorem rules_first_qualified (hbracket : '{' ∉ u)
  (h : rules (u ++ '{' :: t) = .qualified prelude block :: rs) (hsource : '{' ∉ sourceOf prelude)
  (hstart : (start (u ++ '{' :: t)).isBetween = false) (hat : start (u ++ '{' :: t) ≠ .atKeyword) :
  upTo (· == '{') (sourceOf prelude ++ '{' :: t) = (prelude, '{' :: t) ∧
   (start (sourceOf prelude ++ '{' :: t)).isBetween = false := by
 have htop : topLevel (u ++ '{' :: t) = qualifiedRule (u ++ '{' :: t) := by
  rw [topLevel, hstart, if_neg (by decide), if_neg hat]
 rw [rules_eq (rules_cons h), htop] at h
 have hread := upTo_source (· == '{') (u ++ '{' :: t)
 have hends := upTo_ends (· == '{') (u ++ '{' :: t)
 cases hrest : (upTo (· == '{') (u ++ '{' :: t)).2 with
 | nil =>
  have hnone : qualifiedRule (u ++ '{' :: t) = (none, []) := by
   rw [qualifiedRule, ← Prod.eta (upTo (· == '{') (u ++ '{' :: t)), hrest]
   rfl
  rw [hnone] at h
  cases h
 | cons c rest =>
  rw [hrest] at hread hends
  have hc : (c == '{') = true := by
   cases hends with
   | inl hnil => cases hnil
   | inr hhead => exact hhead
  obtain rfl := eq_of_beq hc
  have hsome : qualifiedRule (u ++ '{' :: t) = (some (.qualified (upTo (· == '{') (u ++ '{' :: t)).1 (simpleBlock rest).1), (simpleBlock rest).2) := by
   rw [qualifiedRule, ← Prod.eta (upTo (· == '{') (u ++ '{' :: t)), hrest]
   rfl
  rw [hsome] at h
  have hfirst := (List.cons.inj h).1
  injection hfirst with hprelude hblock
  rw [hprelude] at hread
  obtain ⟨hu, ht⟩ := append_cons_first hsource hbracket hread
  rw [hu]
  exact ⟨Prod.ext hprelude (hrest.trans (by rw [ht])), hstart⟩

/-- The first rule of a text, when its prelude has no bracket in it, ends at the first bracket. -/
theorem rules_first (hbracket : '{' ∉ u)
  (hcomment : ¬ ['/', '*'] <:+: u) (h : rules (u ++ '{' :: t) = .qualified prelude block :: rs) (hsource : '{' ∉ sourceOf prelude) :
  upTo (· == '{') (sourceOf prelude ++ '{' :: t) = (prelude, '{' :: t) ∧
   (start (sourceOf prelude ++ '{' :: t)).isBetween = false := by
 induction hn : u.length using Nat.strong_induction_on generalizing u with
 | _ n ih =>
  -- what stands before the rule is passed over
  have hpass : ∀ w u' : Text, w ++ u' = u → w ≠ [] → rules (u ++ '{' :: t) = rules (u' ++ '{' :: t) →
    upTo (· == '{') (sourceOf prelude ++ '{' :: t) = (prelude, '{' :: t) ∧
     (start (sourceOf prelude ++ '{' :: t)).isBetween = false := by
   intro w u' hu hw hrules
   have hlen : u'.length < n := by
    rw [← hn, ← hu, length_append]
    exact Nat.lt_add_of_pos_left (length_pos_of_ne_nil hw)
   refine ih _ hlen ?_ ?_ (hrules ▸ h) rfl
   · exact fun hmem => hbracket (hu ▸ mem_append_right w hmem)
   · exact fun hin => hcomment (hin.trans (hu ▸ (suffix_append w u').isInfix))
  have hfixed : ∀ w : Text, w ≠ [] → '{' ∉ w → w <+: u ++ '{' :: t → (start (u ++ '{' :: t)).isBetween = true →
    (token (u ++ '{' :: t)).2 = (u ++ '{' :: t).drop w.length →
    upTo (· == '{') (sourceOf prelude ++ '{' :: t) = (prelude, '{' :: t) ∧
     (start (sourceOf prelude ++ '{' :: t)).isBetween = false := by
   intro w hw hx hprefix hbetween htoken
   obtain ⟨u', hu⟩ := prefix_before hx hprefix
   have hrest : (token (u ++ '{' :: t)).2 = u' ++ '{' :: t := by
    rw [htoken, ← hu, append_assoc, drop_left]
   exact hpass w u' hu hw (rules_between hbetween hrest (hrest ▸ token_short (append_ne_nil_of_right_ne_nil u (cons_ne_nil _ t))))
  have hof := of_start (u ++ '{' :: t)
  cases hstart : start (u ++ '{' :: t) with
  | comment =>
   rw [hstart] at hof
   exact absurd (prefix_before (by decide) hof).isInfix hcomment
  | whitespace =>
   rw [hstart] at hof
   refine hpass (u.takeWhile isSpace) (u.dropWhile isSpace) takeWhile_append_dropWhile ?_ ?_
   · cases u with
     | nil => exact absurd hof Bool.false_ne_true
     | cons c u =>
      have hc : isSpace c = true := hof
      rw [takeWhile_cons, hc]
      exact cons_ne_nil _ _
   · rw [rules_space, dropWhile_stop (by decide)]
  | cdc =>
   rw [hstart] at hof
   refine hfixed ['-', '-', '>'] (by decide) (by decide) hof (by rw [hstart]; rfl) ?_
   rw [token, hstart]
   rfl
  | cdo =>
   rw [hstart] at hof
   refine hfixed ['<', '!', '-', '-'] (by decide) (by decide) hof (by rw [hstart]; rfl) ?_
   rw [token, hstart]
   rfl
  | atKeyword =>
   have hrule : ∃ name prelude block, (topLevel (u ++ '{' :: t)).1 = some (.atRule name prelude block) := by
    rw [topLevel, hstart, if_neg (by decide), if_pos rfl, atRule]
    dsimp only
    split_ifs
    · exact ⟨_, _, _, rfl⟩
    · exact ⟨_, _, _, rfl⟩
   obtain ⟨name, atPrelude, atBlock, hrule⟩ := hrule
   rw [rules_eq (rules_cons h), hrule] at h
   cases h
  | string => exact rules_first_qualified hbracket h hsource (by rw [hstart]; rfl) (by rw [hstart]; decide)
  | hash => exact rules_first_qualified hbracket h hsource (by rw [hstart]; rfl) (by rw [hstart]; decide)
  | numeric => exact rules_first_qualified hbracket h hsource (by rw [hstart]; rfl) (by rw [hstart]; decide)
  | identLike => exact rules_first_qualified hbracket h hsource (by rw [hstart]; rfl) (by rw [hstart]; decide)
  | symbol => exact rules_first_qualified hbracket h hsource (by rw [hstart]; rfl) (by rw [hstart]; decide)

/-! ## Declarations -/

structure Declaration where
 name : Text
 value : List Token
 important : Bool
 deriving DecidableEq

inductive Item where
 | declaration (d : Declaration)
 | atRule (name : Text)
 deriving DecidableEq

def isStop (stops : List Token) (stack : List Closing) (ts : List Token) : Bool :=
 headIs (fun t => !(stops.contains t && stack.isEmpty)) ts

def tokensTo (stops : List Token) : Reads Token (List Token) :=
 many (isStop stops) (fun stack ts => ((ts.head?.getD .eof, nest (ts.head?.getD .eof) stack), ts.drop 1)) []

def skipSpaces (ts : List Token) : List Token := ts.dropWhile (· == .whitespace)

def trimSpaces (ts : List Token) : List Token := (skipSpaces (skipSpaces ts).reverse).reverse

def isImportant : Token → Bool
 | .ident name => lower name = ['i', 'm', 'p', 'o', 'r', 't', 'a', 'n', 't']
 | _ => false

/-- A value without the `!important` that may end it, and whether it did. -/
def takeImportant (value : List Token) : List Token × Bool :=
 match skipSpaces value.reverse with
 | word :: rest =>
  if isImportant word && headIs (· == .delim '!') (skipSpaces rest) then (((skipSpaces rest).drop 1).reverse, true)
  else (value, false)
 | [] => (value, false)

/-- The declaration that the tokens make, of which the first is its name. -/
def declaration (name : Text) (ts : List Token) : Option Item :=
 match skipSpaces ts with
 | .colon :: value =>
  let (value, important) := takeImportant (skipSpaces value)
  some (.declaration ⟨name, trimSpaces value, important⟩)
 | _ => none

def item : Reads Token (Option Item)
 | [] => (none, [])
 | .whitespace :: ts | .semicolon :: ts => (none, ts)
 | .atKeyword name :: ts =>
  let rest := (tokensTo [.semicolon, .opens .curly] ts).2
  if headIs (· == .opens .curly) rest then (some (.atRule name), (tokensTo [.closes .curly] (rest.drop 1)).2.drop 1)
  else (some (.atRule name), rest.drop 1)
 | .ident name :: ts => (declaration name (tokensTo [.semicolon] ts).1, (tokensTo [.semicolon] ts).2)
 | ts => (none, (tokensTo [.semicolon] ts).2)

def items (block : List Lexeme) : List Item :=
 (repeated (fun ts => !ts.isEmpty) item ((block.map Lexeme.token).filter (· != .comment))).1.reduceOption

end MoltBrowser.CssSyntax
