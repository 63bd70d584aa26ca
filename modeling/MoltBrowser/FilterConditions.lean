import Mathlib.Data.Nat.Notation
import Mathlib.Data.List.TakeWhile

set_option autoImplicit false

/-!
# The conditions of filter lists

The expressions after `!#if`: how the preprocessor reads one, and the grammar it follows. A
function of the reader takes the text from the position on.
-/
namespace MoltBrowser.FilterLists
open List

abbrev Text := List Char

structure PreprocessEnv where
 trueTokens : List Text

def PreprocessEnv.molt (isMobile : Bool) : PreprocessEnv :=
 let trueTokens := ["env_chromium".toList, "cap_user_stylesheet".toList, "ext_ublock".toList]
 { trueTokens := if isMobile then trueTokens ++ ["env_mobile".toList] else trueTokens }

def PreprocessEnv.evalToken (env : PreprocessEnv) (token : Text) : Bool :=
 token == "true".toList || env.trueTokens.any (· == token)

def isAsciiWhitespace (c : Char) : Bool := c == ' ' || c == '\t' || c == '\n' || c == '\x0C' || c == '\r'

def isTokenChar (c : Char) : Bool := c.isAlphanum || c == '_'

/-! ## Reading -/

def skipWs (s : Text) : Text := s.dropWhile isAsciiWhitespace

def eat (tok s : Text) : Bool × Text :=
 let s := skipWs s
 if tok.isPrefixOf s then (true, s.drop tok.length) else (false, s)

/-- What an expression comes to, what follows it, and whether it was well formed. -/
structure Reading where
 value : Bool
 rest : Text
 ok : Bool

/-- The loop over an operator; each turn of it reads the operator, so `fuel` bounds them. -/
def chain (op : Text) (join : Bool → Bool → Bool) (operand : Text → Reading) : ℕ → Reading → Reading
 | 0, r => r
 | fuel + 1, r =>
  let (found, rest) := eat op r.rest
  if found then
   let rhs := operand rest
   chain op join operand fuel { value := join r.value rhs.value, rest := rhs.rest, ok := r.ok && rhs.ok }
  else { r with rest }

def andOf (unary : Text → Reading) (s : Text) : Reading :=
 chain ['&', '&'] (· && ·) unary (s.length + 1) (unary s)

def orOf (unary : Text → Reading) (s : Text) : Reading :=
 chain ['|', '|'] (· || ·) (andOf unary) (s.length + 1) (andOf unary s)

/-- `levels` are those left of the 33 an expression may be nested in. -/
@[grind =] def unary (env : PreprocessEnv) : ℕ → Text → Reading
 | 0, s => { value := false, rest := s, ok := false }
 | levels + 1, s =>
  let (bang, s) := eat ['!'] s
  if bang then
   let r := unary env levels s
   { r with value := !r.value }
  else
   let (paren, s) := eat ['('] s
   if paren then
    let r := orOf (unary env levels) s
    let (closed, rest) := eat [')'] r.rest
    { value := r.value, rest, ok := r.ok && closed }
   else
    let s := skipWs s
    let token := s.takeWhile isTokenChar
    if token.isEmpty then { value := false, rest := s, ok := false }
    else { value := env.evalToken token, rest := s.dropWhile isTokenChar, ok := true }

def maxLevels : ℕ := 33

def evalExpression (expr : Text) (env : PreprocessEnv) : Bool :=
 let r := orOf (unary env maxLevels) expr
 r.ok && (skipWs r.rest).isEmpty && r.value

/-! ## The grammar -/

def Blank (ws : Text) : Prop := ∀ c ∈ ws, isAsciiWhitespace c = true

inductive Rank where
 | unary
 | and
 | or

/-- The text is an expression of the rank, within the levels, that comes to the value. -/
inductive Says (env : PreprocessEnv) : ℕ → Rank → Text → Bool → Prop
 | token {n : ℕ} {ws t : Text} (hws : Blank ws) (hne : t ≠ []) (ht : ∀ c ∈ t, isTokenChar c = true) :
   Says env (n + 1) .unary (ws ++ t) (env.evalToken t)
 | not {n : ℕ} {ws w : Text} {v : Bool} (hws : Blank ws) (h : Says env n .unary w v) :
   Says env (n + 1) .unary (ws ++ '!' :: w) (!v)
 | group {n : ℕ} {ws w ws' : Text} {v : Bool} (hws : Blank ws) (h : Says env n .or w v) (hws' : Blank ws') :
   Says env (n + 1) .unary (ws ++ '(' :: (w ++ (ws' ++ [')']))) v
 | operand {n : ℕ} {w : Text} {v : Bool} (h : Says env n .unary w v) : Says env n .and w v
 | and {n : ℕ} {w ws w' : Text} {v v' : Bool} (h : Says env n .and w v) (hws : Blank ws) (h' : Says env n .unary w' v') :
   Says env n .and (w ++ (ws ++ '&' :: '&' :: w')) (v && v')
 | single {n : ℕ} {w : Text} {v : Bool} (h : Says env n .and w v) : Says env n .or w v
 | or {n : ℕ} {w ws w' : Text} {v v' : Bool} (h : Says env n .or w v) (hws : Blank ws) (h' : Says env n .and w' v') :
   Says env n .or (w ++ (ws ++ '|' :: '|' :: w')) (v || v')

def Holds (env : PreprocessEnv) (expr : Text) : Prop :=
 ∃ w ws, expr = w ++ ws ∧ Says env maxLevels .or w true ∧ Blank ws

theorem Blank.append {ws ws' : Text} (h : Blank ws) (h' : Blank ws') : Blank (ws ++ ws') :=
 fun c hc => (mem_append.1 hc).elim (h c) (h' c)

theorem blank_nil : Blank [] := fun _ hc => absurd hc (by simp)

theorem blank_char {c : Char} (h : isAsciiWhitespace c = true) : isTokenChar c = false := by
 simp only [isAsciiWhitespace, Bool.or_eq_true, beq_iff_eq] at h
 rcases h with (((rfl | rfl) | rfl) | rfl) | rfl
 all_goals rfl

theorem Says.blank {env : PreprocessEnv} {n : ℕ} {rank : Rank} {w blank : Text} {v : Bool} (h : Says env n rank w v)
  (hblank : Blank blank) : Says env n rank (blank ++ w) v := by
 induction h with
 | token hws hne ht =>
  rw [← append_assoc]
  exact .token (hblank.append hws) hne ht
 | not hws h =>
  rw [← append_assoc]
  exact .not (hblank.append hws) h
 | group hws h hws' =>
  rw [← append_assoc]
  exact .group (hblank.append hws) h hws'
 | operand _ ih => exact .operand ih
 | and _ hws h' ih =>
  rw [← append_assoc]
  exact .and ih hws h'
 | single _ ih => exact .single ih
 | or _ hws h' ih =>
  rw [← append_assoc]
  exact .or ih hws h'

theorem Says.ne_nil {env : PreprocessEnv} {n : ℕ} {rank : Rank} {w : Text} {v : Bool} (h : Says env n rank w v) : w ≠ [] := by
 induction h with
 | token _ hne => exact append_ne_nil_of_right_ne_nil _ hne
 | not | group => simp
 | operand _ ih => exact ih
 | single _ ih => exact ih
 | and _ _ _ ih => exact append_ne_nil_of_left_ne_nil ih _
 | or _ _ _ ih => exact append_ne_nil_of_left_ne_nil ih _

theorem Says.unblank {env : PreprocessEnv} {n : ℕ} {rank : Rank} {w w' : Text} {v : Bool} {c : Char} (h : Says env n rank w v)
  (hw : w = c :: w') (hc : isAsciiWhitespace c = true) : Says env n rank w' v := by
 induction h generalizing w' with
 | @token n ws t hws hne ht =>
  cases ws with
  | nil =>
   rw [nil_append] at hw
   have hchar := ht c (by rw [hw]; exact mem_cons_self)
   rw [blank_char hc] at hchar
   exact absurd hchar (by simp)
  | cons b ws =>
   obtain ⟨-, rfl⟩ := List.cons.inj hw
   exact .token (fun d hd => hws d (mem_cons_of_mem _ hd)) hne ht
 | @not n ws w v hws h =>
  cases ws with
  | nil =>
   obtain ⟨rfl, -⟩ := List.cons.inj hw
   exact absurd hc (by decide)
  | cons b ws =>
   obtain ⟨-, rfl⟩ := List.cons.inj hw
   exact .not (fun d hd => hws d (mem_cons_of_mem _ hd)) h
 | @group n ws w ws' v hws h hws' =>
  cases ws with
  | nil =>
   obtain ⟨rfl, -⟩ := List.cons.inj hw
   exact absurd hc (by decide)
  | cons b ws =>
   obtain ⟨-, rfl⟩ := List.cons.inj hw
   exact .group (fun d hd => hws d (mem_cons_of_mem _ hd)) h hws'
 | operand _ ih => exact .operand (ih hw)
 | single _ ih => exact .single (ih hw)
 | @and n w ws w₂ v v' h hws h' ih =>
  obtain ⟨b, w, rfl⟩ := exists_cons_of_ne_nil h.ne_nil
  obtain ⟨rfl, rfl⟩ := List.cons.inj hw
  exact .and (ih rfl) hws h'
 | @or n w ws w₂ v v' h hws h' ih =>
  obtain ⟨b, w, rfl⟩ := exists_cons_of_ne_nil h.ne_nil
  obtain ⟨rfl, rfl⟩ := List.cons.inj hw
  exact .or (ih rfl) hws h'

theorem holds_space (env : PreprocessEnv) (expr : Text) : Holds env (' ' :: expr) ↔ Holds env expr := by
 have hspace : isAsciiWhitespace ' ' = true := rfl
 constructor
 · rintro ⟨w, ws, hexpr, hw, hws⟩
   obtain ⟨c, w', rfl⟩ := exists_cons_of_ne_nil hw.ne_nil
   obtain ⟨rfl, rfl⟩ := List.cons.inj hexpr
   exact ⟨w', ws, rfl, hw.unblank rfl hspace, hws⟩
 · rintro ⟨w, ws, rfl, hw, hws⟩
   refine ⟨' ' :: w, ws, rfl, ?_, hws⟩
   apply @Says.blank env _ _ w [' '] _ hw
   intro c hc
   rw [mem_singleton.1 hc]
   exact hspace

/-! ## What is read is in the grammar -/

theorem skipWs_split (s : Text) : ∃ ws, s = ws ++ skipWs s ∧ Blank ws :=
 ⟨s.takeWhile isAsciiWhitespace, (takeWhile_append_dropWhile ..).symm, fun _ hc => mem_takeWhile_imp hc⟩

theorem eat_found {tok s rest : Text} (h : eat tok s = (true, rest)) : ∃ ws, s = ws ++ (tok ++ rest) ∧ Blank ws := by
 obtain ⟨ws, hs, hws⟩ := skipWs_split s
 rw [eat] at h
 split_ifs at h with hprefix
 · obtain ⟨t, ht⟩ := isPrefixOf_iff_prefix.1 hprefix
   have hrest : (skipWs s).drop tok.length = rest := (Prod.mk.inj h).2
   refine ⟨ws, ?_, hws⟩
   rw [← hrest, ← ht, drop_left, ht]
   exact hs
 · exact absurd (Prod.mk.inj h).1 (by simp)

theorem eat_not_found {tok s rest : Text} (h : eat tok s = (false, rest)) : ∃ ws, s = ws ++ rest ∧ Blank ws := by
 obtain ⟨ws, hs, hws⟩ := skipWs_split s
 rw [eat] at h
 split_ifs at h
 · exact absurd (Prod.mk.inj h).1 (by simp)
 · exact ⟨ws, by rw [← (Prod.mk.inj h).2]; exact hs, hws⟩

/-- What was read of `s` is in the grammar, as far as all was well formed. -/
def Sound (P : Text → Bool → Prop) (s : Text) (r : Reading) : Prop :=
 r.ok = true → ∃ w ws, s = w ++ (ws ++ r.rest) ∧ Blank ws ∧ P w r.value

theorem chain_sound {op : Text} {join : Bool → Bool → Bool} {operand : Text → Reading} {P Q : Text → Bool → Prop}
  (hoperand : ∀ s, Sound P s (operand s))
  (hjoin : ∀ {w ws w' v v'}, Q w v → Blank ws → P w' v' → Q (w ++ (ws ++ (op ++ w'))) (join v v'))
  {fuel : ℕ} {r : Reading} {s : Text} (hr : Sound Q s r) : Sound Q s (chain op join operand fuel r) := by
 induction fuel generalizing r with
 | zero => exact hr
 | succ fuel ih =>
  rw [chain]
  cases heat : eat op r.rest with
  | mk found rest =>
   dsimp only
   cases found with
   | false =>
    rw [if_neg (by simp)]
    intro hok
    obtain ⟨w, ws, hs, hws, hw⟩ := hr hok
    obtain ⟨ws', hrest, hws'⟩ := eat_not_found heat
    exact ⟨w, ws ++ ws', by rw [hs, hrest, append_assoc], hws.append hws', hw⟩
   | true =>
    rw [if_pos rfl]
    apply ih
    intro hok
    rw [Bool.and_eq_true] at hok
    obtain ⟨w, ws, hs, hws, hw⟩ := hr hok.1
    obtain ⟨ws', hrest, hws'⟩ := eat_found heat
    obtain ⟨w', ws'', hs', hws'', hw'⟩ := hoperand rest hok.2
    refine ⟨w ++ ((ws ++ ws') ++ (op ++ w')), ws'', ?_, hws'', hjoin hw (hws.append hws') hw'⟩
    rw [hs, hrest]
    conv => lhs; rw [hs']
    simp

section Sound

variable {env : PreprocessEnv} {n : ℕ}

theorem andOf_sound (h : ∀ s, Sound (Says env n .unary) s (unary env n s)) (s : Text) :
  Sound (Says env n .and) s (andOf (unary env n) s) := by
 refine chain_sound h (fun hw hws hw' => .and hw hws hw') fun hok => ?_
 obtain ⟨w, ws, hs, hws, hw⟩ := h s hok
 exact ⟨w, ws, hs, hws, .operand hw⟩

theorem orOf_sound (h : ∀ s, Sound (Says env n .unary) s (unary env n s)) (s : Text) :
  Sound (Says env n .or) s (orOf (unary env n) s) := by
 refine chain_sound (andOf_sound h) (fun hw hws hw' => .or hw hws hw') fun hok => ?_
 obtain ⟨w, ws, hs, hws, hw⟩ := andOf_sound h s hok
 exact ⟨w, ws, hs, hws, .single hw⟩

theorem unary_sound (s : Text) : Sound (Says env n .unary) s (unary env n s) := by
 induction n generalizing s with
 | zero => exact fun hok => absurd hok (by simp [unary])
 | succ n ih =>
  rw [unary]
  cases hbang : eat ['!'] s with
  | mk bang after =>
   dsimp only
   cases bang with
   | true =>
    rw [if_pos rfl]
    intro hok
    obtain ⟨ws, hs, hws⟩ := eat_found hbang
    obtain ⟨w, ws', hafter, hws', hw⟩ := ih after hok
    refine ⟨ws ++ '!' :: w, ws', ?_, hws', .not hws hw⟩
    rw [hs]
    conv => lhs; rw [hafter]
    simp
   | false =>
    rw [if_neg (by simp)]
    obtain ⟨ws, hs, hws⟩ := eat_not_found hbang
    cases hparen : eat ['('] after with
    | mk paren inner =>
     dsimp only
     cases paren with
     | true =>
      rw [if_pos rfl]
      intro hok
      rw [Bool.and_eq_true] at hok
      obtain ⟨ws', hafter, hws'⟩ := eat_found hparen
      obtain ⟨w, blank, hinner, hblank, hw⟩ := orOf_sound ih inner hok.1
      obtain ⟨blank', hclose, hblank'⟩ := eat_found (Prod.ext_iff.2 ⟨hok.2, rfl⟩)
      refine ⟨(ws ++ ws') ++ '(' :: (w ++ ((blank ++ blank') ++ [')'])), [], ?_, blank_nil,
       .group (hws.append hws') hw (hblank.append hblank')⟩
      rw [hs, hafter]
      conv => lhs; rw [hinner, hclose]
      simp
     | false =>
      rw [if_neg (by simp)]
      obtain ⟨ws', hafter, hws'⟩ := eat_not_found hparen
      obtain ⟨ws'', hinner, hws''⟩ := skipWs_split inner
      split_ifs with htoken
      · exact fun hok => absurd hok (by simp)
      · intro _
        refine ⟨((ws ++ ws') ++ ws'') ++ (skipWs inner).takeWhile isTokenChar, [], ?_, blank_nil,
         .token ((hws.append hws').append hws'') (by simpa using htoken) fun c hc => mem_takeWhile_imp hc⟩
        rw [hs, hafter]
        conv => lhs; rw [hinner, ← @takeWhile_append_dropWhile _ isTokenChar (skipWs inner)]
        simp

theorem evalExpression_sound {expr : Text} (h : evalExpression expr env = true) : Holds env expr := by
 rw [evalExpression, Bool.and_eq_true, Bool.and_eq_true] at h
 obtain ⟨⟨hok, hend⟩, hvalue⟩ := h
 obtain ⟨w, ws, hs, hws, hw⟩ := orOf_sound unary_sound expr hok
 obtain ⟨ws', hrest, hws'⟩ := skipWs_split (orOf (unary env maxLevels) expr).rest
 rw [List.isEmpty_iff.1 hend, append_nil] at hrest
 exact ⟨w, ws ++ ws', by rw [← hrest, hs.symm], hvalue ▸ hw, hws.append hws'⟩

end Sound

/-! ## What is in the grammar is read -/

section Complete

variable {env : PreprocessEnv} {n : ℕ}

theorem skipWs_append {ws : Text} (hws : Blank ws) (s : Text) : skipWs (ws ++ s) = skipWs s := by
 induction ws with
 | nil => rfl
 | cons c ws ih =>
  rw [cons_append, skipWs, dropWhile_cons_of_pos (hws c mem_cons_self)]
  exact ih fun d hd => hws d (mem_cons_of_mem _ hd)

theorem skipWs_cons {c : Char} {s : Text} (hc : isAsciiWhitespace c = false) : skipWs (c :: s) = c :: s :=
 dropWhile_cons_of_neg (by simp [hc])

theorem eat_append {ws tok : Text} {c : Char} (hws : Blank ws) (hc : isAsciiWhitespace c = false) (rest : Text) :
  eat (c :: tok) (ws ++ c :: (tok ++ rest)) = (true, rest) := by
 have hprefix : (c :: tok).isPrefixOf (c :: (tok ++ rest)) = true :=
  isPrefixOf_iff_prefix.2 (prefix_append (c :: tok) rest)
 rw [eat, skipWs_append hws, skipWs_cons hc]
 rw [if_pos hprefix, ← cons_append, drop_left]

theorem eat_other {ws tok : Text} {c d : Char} (hws : Blank ws) (hd : isAsciiWhitespace d = false) (hne : c ≠ d) (s : Text) :
  eat (c :: tok) (ws ++ d :: s) = (false, d :: s) := by
 have hprefix : ¬ (c :: tok).isPrefixOf (d :: s) = true := by simp [hne]
 rw [eat, skipWs_append hws, skipWs_cons hd]
 rw [if_neg hprefix]

def Ends (rest : Text) : Prop := ∀ c ∈ rest.head?, isTokenChar c = false

theorem ends_blank {ws s : Text} {c : Char} (hws : Blank ws) (hc : isTokenChar c = false) : Ends (ws ++ c :: s) := by
 intro d hd
 cases ws with
 | nil =>
  obtain rfl : c = d := by simpa using hd
  exact hc
 | cons b ws =>
  obtain rfl : b = d := by simpa using hd
  exact blank_char (hws b mem_cons_self)

theorem token_char {c : Char} (h : isTokenChar c = true) : isAsciiWhitespace c = false ∧ c ≠ '!' ∧ c ≠ '(' := by
 refine ⟨?_, ?_, ?_⟩
 · by_contra hblank
   rw [blank_char (eq_true_of_ne_false hblank)] at h
   exact absurd h (by simp)
 · rintro rfl
   exact absurd h (by decide)
 · rintro rfl
   exact absurd h (by decide)

/-- The reading of a text in the grammar, where what follows doesn't belong to it. -/
def Complete (env : PreprocessEnv) (n : ℕ) (w : Text) (v : Bool) : Rank → Prop
 | .unary => ∀ rest, Ends rest → unary env n (w ++ rest) = { value := v, rest, ok := true }
 | .and => ∀ rest, Ends rest → ∃ fuel, rest.length < fuel ∧ andOf (unary env n) (w ++ rest) =
   chain ['&', '&'] (· && ·) (unary env n) fuel { value := v, rest, ok := true }
 | .or => ∀ rest, Ends rest → eat ['&', '&'] rest = (false, skipWs rest) → ∃ fuel, (skipWs rest).length < fuel ∧
   orOf (unary env n) (w ++ rest) =
    chain ['|', '|'] (· || ·) (andOf (unary env n)) fuel { value := v, rest := skipWs rest, ok := true }

theorem chain_ends {op rest : Text} {join : Bool → Bool → Bool} {operand : Text → Reading} {fuel : ℕ} {v : Bool}
  (hfuel : rest.length < fuel) (h : eat op rest = (false, skipWs rest)) :
  chain op join operand fuel { value := v, rest, ok := true } = { value := v, rest := skipWs rest, ok := true } := by
 obtain ⟨fuel, rfl⟩ := Nat.exists_eq_succ_of_ne_zero (show fuel ≠ 0 by omega)
 rw [chain, h]
 rfl

theorem chain_turns {op rest after : Text} {join : Bool → Bool → Bool} {operand : Text → Reading} {fuel : ℕ} {v v' : Bool}
  {end' : Text} (h : eat op rest = (true, after)) (hoperand : operand after = { value := v', rest := end', ok := true }) :
  chain op join operand (fuel + 1) { value := v, rest, ok := true } =
   chain op join operand fuel { value := join v v', rest := end', ok := true } := by
 rw [chain, h]
 dsimp only
 rw [if_pos rfl, hoperand]
 rfl

theorem skipWs_length (s : Text) : (skipWs s).length ≤ s.length := (dropWhile_sublist _).length_le

theorem Complete.token {ws t : Text} (hws : Blank ws) (hne : t ≠ []) (ht : ∀ c ∈ t, isTokenChar c = true) :
  Complete env (n + 1) (ws ++ t) (env.evalToken t) .unary := by
 intro rest hrest
 cases t with
 | nil => exact absurd rfl hne
 | cons c t =>
  obtain ⟨hblank, hbang, hparen⟩ := token_char (ht c mem_cons_self)
  have hstop : rest.takeWhile isTokenChar = [] ∧ rest.dropWhile isTokenChar = rest := by
   cases rest with
   | nil => exact ⟨rfl, rfl⟩
   | cons d rest =>
    have hd := hrest d rfl
    exact ⟨takeWhile_cons_of_neg (by simp [hd]), dropWhile_cons_of_neg (by simp [hd])⟩
  have htake : (c :: (t ++ rest)).takeWhile isTokenChar = c :: t := by
   rw [← cons_append, takeWhile_append_of_pos ht, hstop.1, append_nil]
  have hdrop : (c :: (t ++ rest)).dropWhile isTokenChar = rest := by
   rw [← cons_append, dropWhile_append_of_pos ht, hstop.2]
  have hparen' := @eat_other [] [] '(' c blank_nil hblank hparen.symm (t ++ rest)
  rw [nil_append] at hparen'
  rw [unary, append_assoc, cons_append, eat_other hws hblank hbang.symm]
  dsimp only
  rw [if_neg (by simp), hparen']
  dsimp only
  rw [if_neg (by simp), skipWs_cons hblank, htake, hdrop, if_neg (by simp)]

theorem Complete.not {ws w : Text} {v : Bool} (hws : Blank ws) (ih : Complete env n w v .unary) :
  Complete env (n + 1) (ws ++ '!' :: w) (!v) .unary := by
 intro rest hrest
 have heat := @eat_append ws [] '!' hws (by decide) (w ++ rest)
 rw [nil_append] at heat
 rw [unary, append_assoc, cons_append, heat]
 dsimp only
 rw [if_pos rfl, ih rest hrest]

theorem Complete.group {ws w ws' : Text} {v : Bool} (hws : Blank ws) (ih : Complete env n w v .or) (hws' : Blank ws') :
  Complete env (n + 1) (ws ++ '(' :: (w ++ (ws' ++ [')']))) v .unary := by
 intro rest _
 have hskip : skipWs (ws' ++ ')' :: rest) = ')' :: rest := by rw [skipWs_append hws', skipWs_cons (by decide)]
 obtain ⟨fuel, hfuel, hor⟩ := ih (ws' ++ ')' :: rest) (ends_blank hws' (by decide))
  (by rw [hskip]; exact eat_other hws' (by decide) (by decide) rest)
 rw [hskip] at hfuel hor
 have hself : skipWs (')' :: rest) = ')' :: rest := skipWs_cons (by decide)
 rw [chain_ends hfuel (by rw [hself]; exact @eat_other [] _ '|' ')' blank_nil (by decide) (by decide) rest), hself] at hor
 have hopen := @eat_append ws [] '(' hws (by decide) (w ++ (ws' ++ ')' :: rest))
 have hclose := @eat_append [] [] ')' blank_nil (by decide) rest
 rw [nil_append] at hopen hclose
 have htext : ws ++ '(' :: (w ++ (ws' ++ [')'])) ++ rest = ws ++ '(' :: (w ++ (ws' ++ ')' :: rest)) := by simp
 have hparen := @eat_append [] [] '(' blank_nil (by decide) (w ++ (ws' ++ ')' :: rest))
 rw [nil_append, nil_append] at hparen
 rw [htext, unary, eat_other hws (by decide) (by decide)]
 dsimp only
 rw [if_neg (by simp), hparen]
 dsimp only
 rw [if_pos rfl, hor]
 dsimp only
 rw [show (')' :: rest : Text) = [] ++ ')' :: ([] ++ rest) from rfl, eat_append blank_nil (by decide)]
 rfl

theorem Complete.operand {w : Text} {v : Bool} (ih : Complete env n w v .unary) : Complete env n w v .and := by
 intro rest hrest
 refine ⟨(w ++ rest).length + 1, ?_, ?_⟩
 · rw [length_append]
   omega
 · rw [andOf, ih rest hrest]

theorem Complete.and {w ws w' : Text} {v v' : Bool} (ih : Complete env n w v .and) (hws : Blank ws)
  (ih' : Complete env n w' v' .unary) : Complete env n (w ++ (ws ++ '&' :: '&' :: w')) (v && v') .and := by
 intro rest hrest
 obtain ⟨fuel, hfuel, hand⟩ := ih (ws ++ '&' :: '&' :: (w' ++ rest)) (ends_blank hws (by decide))
 simp only [length_append, length_cons] at hfuel
 obtain ⟨fuel, rfl⟩ := Nat.exists_eq_succ_of_ne_zero (show fuel ≠ 0 by omega)
 have heat := @eat_append ws ['&'] '&' hws (by decide) (w' ++ rest)
 rw [singleton_append] at heat
 rw [chain_turns heat (ih' rest hrest)] at hand
 exact ⟨fuel, by omega, by simpa using hand⟩

theorem Complete.single {w : Text} {v : Bool} (ih : Complete env n w v .and) : Complete env n w v .or := by
 intro rest hrest hand
 obtain ⟨fuel, hfuel, h⟩ := ih rest hrest
 rw [chain_ends hfuel hand] at h
 refine ⟨(w ++ rest).length + 1, ?_, by rw [orOf, h]⟩
 have := skipWs_length rest
 rw [length_append]
 omega

theorem Complete.or {w ws w' : Text} {v v' : Bool} (ih : Complete env n w v .or) (hws : Blank ws)
  (ih' : Complete env n w' v' .and) : Complete env n (w ++ (ws ++ '|' :: '|' :: w')) (v || v') .or := by
 intro rest hrest hand
 have hskip : skipWs (ws ++ '|' :: '|' :: (w' ++ rest)) = '|' :: '|' :: (w' ++ rest) := by
  rw [skipWs_append hws, skipWs_cons (by decide)]
 obtain ⟨fuel, hfuel, hor⟩ := ih (ws ++ '|' :: '|' :: (w' ++ rest)) (ends_blank hws (by decide))
  (by rw [hskip]; exact eat_other hws (by decide) (by decide) _)
 rw [hskip] at hfuel hor
 simp only [length_append, length_cons] at hfuel
 obtain ⟨fuel, rfl⟩ := Nat.exists_eq_succ_of_ne_zero (show fuel ≠ 0 by omega)
 obtain ⟨fuel', hfuel', h⟩ := ih' rest hrest
 rw [chain_ends hfuel' hand] at h
 have heat := @eat_append [] ['|'] '|' blank_nil (by decide) (w' ++ rest)
 rw [singleton_append, nil_append] at heat
 rw [chain_turns heat h] at hor
 have hlength := skipWs_length rest
 exact ⟨fuel, by omega, by simpa using hor⟩

theorem complete {rank : Rank} {w : Text} {v : Bool} (h : Says env n rank w v) : Complete env n w v rank := by
 induction h with
 | token hws hne ht => exact .token hws hne ht
 | not hws _ ih => exact .not hws ih
 | group hws _ hws' ih => exact .group hws ih hws'
 | operand _ ih => exact .operand ih
 | and _ hws _ ih ih' => exact .and ih hws ih'
 | single _ ih => exact .single ih
 | or _ hws _ ih ih' => exact .or ih hws ih'

theorem eat_blank {op ws : Text} {c : Char} (hws : Blank ws) : eat (c :: op) ws = (false, []) := by
 have hskip : skipWs ws = [] := by
  have h := skipWs_append hws []
  rwa [append_nil] at h
 rw [eat, hskip]
 rfl

theorem evalExpression_iff (expr : Text) : evalExpression expr env = true ↔ Holds env expr := by
 constructor
 · exact evalExpression_sound
 · rintro ⟨w, ws, rfl, hw, hws⟩
   have hskip : skipWs ws = [] := by
    have h := skipWs_append hws []
    rwa [append_nil] at h
   have hends : Ends ws := by
    cases ws with
    | nil => exact fun c hc => absurd hc (by simp)
    | cons c ws =>
     intro d hd
     obtain rfl : c = d := by simpa using hd
     exact blank_char (hws c mem_cons_self)
   obtain ⟨fuel, hfuel, hor⟩ := complete hw ws hends (by rw [hskip]; exact eat_blank hws)
   rw [hskip] at hfuel hor
   rw [chain_ends hfuel (eat_blank blank_nil)] at hor
   rw [evalExpression, hor]
   rfl

end Complete

end MoltBrowser.FilterLists
