import MoltBrowser.DisplayCleaning
import MoltBrowser.UntrustedText

set_option autoImplicit false

/-!
# What looks like a secret in an agent's run (`agent_run_draft.cc`)

The readers of labels, typed text, addresses and the goal that decide what a
draft may keep, and the names it gives to the values it asks for.
-/
namespace MoltBrowser.AgentDraft
open List hiding contains
open AgentSafety (asciiLower)
open AutomationLocators (contains isLower isDigit)
open DisplayCleaning (decodeUtf8At isControl isHidden)
open Json (encode)

def kMaxGoalScanBytes : ℕ := 4096
def kMaxVariableNameChars : ℕ := 24

/-! ## UTF-8 -/

/-- The text cut into its characters, with their code points; a byte that begins none stands
alone. `fuel` is at least the bytes left. -/
def charactersFrom : ℕ → Bytes → List (Bytes × Option ℕ)
 | _, [] => []
 | 0, _ :: _ => []
 | fuel + 1, c :: s =>
  let (n, cp) := decodeUtf8At (c :: s)
  if n = 0 then ([c], none) :: charactersFrom fuel s
  else ((c :: s).take n, some cp) :: charactersFrom fuel ((c :: s).drop n)

def characters (s : Bytes) : List (Bytes × Option ℕ) := charactersFrom s.length s

def isValidUtf8 (s : Bytes) : Bool := (characters s).all fun c => c.2.isSome

def countChars (s : Bytes) : ℕ := s.countP fun c => c &&& 0xC0 != 0x80

/-- The text without controls, hidden characters and invalid bytes. -/
def stripHidden (s : Bytes) : Bytes :=
 (characters s).flatMap fun c =>
  match c.2 with
  | none => []
  | some cp => if isControl cp || isHidden cp then [] else c.1

/-! ## ASCII -/

def isUpper (c : UInt8) : Bool := 0x41 ≤ c ∧ c ≤ 0x5A

def isAlpha (c : UInt8) : Bool := isLower c || isUpper c

def isAlnum (c : UInt8) : Bool := isAlpha c || isDigit c

def isSpace (c : UInt8) : Bool := c = 0x20 ∨ (0x09 ≤ c ∧ c ≤ 0x0D)

def lowerAscii (s : Bytes) : Bytes := s.map asciiLower

def isPlainHost (host : Bytes) : Bool :=
 !host.isEmpty && host.length ≤ 255 &&
  host.all fun c => isLower c || isDigit c || (utf8 ".-_:[]").contains c

/-- The pieces between separators; `cur` is the one being read. -/
def piecesFrom (sep : UInt8 → Bool) (cur : Bytes) : Bytes → List Bytes
 | [] => if cur = [] then [] else [cur]
 | c :: s =>
  if sep c then if cur = [] then piecesFrom sep [] s else cur :: piecesFrom sep [] s
  else piecesFrom sep (cur ++ [c]) s

/-- Splits on ASCII whitespace and on `more`. -/
def splitTokens (s : Bytes) (more : Bytes) : List Bytes :=
 piecesFrom (fun c => isSpace c || more.contains c) [] s

def words (s : Bytes) : List Bytes := (piecesFrom (fun c => !isAlnum c) [] s).map lowerAscii

def joinWords (words : List Bytes) : Bytes := words.foldl (fun out w => out ++ w ++ [0x20]) [0x20]

def hasWordOrPhrase (joined : Bytes) (words : List Bytes) (single phrases : List String) : Bool :=
 (words.any fun w => single.any fun s => w = utf8 s) ||
  phrases.any fun p => contains ([0x20] ++ utf8 p ++ [0x20]) joined

def kPunct : Bytes := ".,;:!?()[]\x7b\x7d<>\"\x27"

def trimPunct (s : Bytes) : Bytes := (s.dropWhile kPunct.contains).rdropWhile kPunct.contains

def hexDigit (c : UInt8) : Option UInt8 :=
 if isDigit c then some (c - 0x30)
 else if 0x61 ≤ c ∧ c ≤ 0x66 then some (c - 0x61 + 10)
 else if 0x41 ≤ c ∧ c ≤ 0x46 then some (c - 0x41 + 10)
 else none

def percentDecode (plusIsSpace : Bool) : Bytes → Bytes
 | [] => []
 | 0x25 :: a :: b :: s =>
  match hexDigit a, hexDigit b with
  | some high, some low => (high * 16 + low) :: percentDecode plusIsSpace s
  | _, _ => 0x25 :: percentDecode plusIsSpace (a :: b :: s)
 | c :: s => (if plusIsSpace && c = 0x2B then 0x20 else c) :: percentDecode plusIsSpace s

/-! ## What looks secret -/

/-- The Luhn sum from the last digit on; every other digit counts twice. -/
def luhnSum (alt : Bool) : Bytes → ℕ
 | [] => 0
 | c :: s =>
  let n := (c - 0x30).toNat
  (if alt then (if 2 * n > 9 then 2 * n - 9 else 2 * n) else n) + luhnSum (!alt) s

def luhnValid (digits : Bytes) : Bool := luhnSum false digits.reverse % 10 = 0

def isCardNumber (digits : Bytes) : Bool :=
 13 ≤ digits.length && digits.length ≤ 19 && luhnValid digits

/-- One pass; `digits` are those of the run of digits being read. -/
def hasCardNumberFrom (digits : Bytes) : Bytes → Bool
 | [] => isCardNumber digits
 | c :: s =>
  if isDigit c then hasCardNumberFrom (digits ++ [c]) s
  else if digits ≠ [] ∧ (c = 0x20 ∨ c = 0x2D) ∧ s.head?.any isDigit then hasCardNumberFrom digits s
  else isCardNumber digits || hasCardNumberFrom [] s

def hasCardNumber (s : Bytes) : Bool := hasCardNumberFrom [] s

/-- `123-45-6789`. -/
def isSsn (t : Bytes) : Bool :=
 t.length = 11 && t.zipIdx.all fun (c, k) => if k = 3 ∨ k = 6 then c = 0x2D else isDigit c

def isIbanShaped (t : Bytes) : Bool :=
 15 ≤ t.length && t.length ≤ 34 && (t.take 2).all isUpper && ((t.drop 2).take 2).all isDigit &&
  ((t.drop 4).all fun c => isUpper c || isDigit c) && (t.drop 4).any isDigit

def isJwt (t : Bytes) : Bool :=
 20 ≤ t.length && (utf8 "eyJ").isPrefixOf t &&
  (t.all fun c => c = 0x2E || isAlnum c || (utf8 "-_=").contains c) && t.count 0x2E = 2

def kKeyPrefixes : List String :=
 ["sk-", "sk_live_", "sk_test_", "rk_live_", "pk_live_", "ghp_", "gho_", "ghu_", "ghs_", "ghr_",
  "github_pat_", "glpat-", "xoxb-", "xoxp-", "xoxa-", "xoxs-", "AKIA", "ASIA", "AIza", "ya29.",
  "npm_", "shpat_"]

def hasKeyPrefix (t : Bytes) : Bool :=
 16 ≤ t.length && kKeyPrefixes.any fun p => (utf8 p).isPrefixOf t

def looksLikeEmail (t : Bytes) : Bool :=
 let domain := (t.dropWhile (· ≠ 0x40)).drop 1
 t.contains 0x40 && t.head? ≠ some 0x40 && !domain.contains 0x40 && domain.contains 0x2E &&
  t.all fun c => isAlnum c || (utf8 "._%+-@").contains c

def urlValueLooksSecret (v : Bytes) : Bool :=
 hasCardNumber v || isJwt v || hasKeyPrefix v ||
  (splitTokens v []).any fun t =>
   isSsn (trimPunct t) || isJwt (trimPunct t) || hasKeyPrefix (trimPunct t)

def kExactParamNames : List String :=
 ["pass", "pwd", "pin", "otp", "code", "key", "auth", "sid", "sig", "jwt", "ssn", "cvv", "cvc",
  "csc", "card", "cardnumber", "card_number", "ccnum", "cc_number", "passcode", "passphrase",
  "signature", "authorization"]

def isSecretParamName (name : Bytes) : Bool :=
 (kExactParamNames.any fun e => name = utf8 e) ||
  ["password", "passwd", "token", "secret", "apikey", "api_key", "session", "credential"].any
   fun p => contains (utf8 p) name

/-- Parameters between "&" or ";": true if one carries a secret. -/
def paramsLookSecret (params : Bytes) (requireEquals : Bool) : Bool :=
 (splitTokens params (utf8 "&;")).any fun piece =>
  if !piece.contains 0x3D && requireEquals then false
  else
   let name := lowerAscii (percentDecode true (piece.takeWhile (· ≠ 0x3D)))
   let value := percentDecode true ((piece.dropWhile (· ≠ 0x3D)).drop 1)
   (!value.isEmpty && isSecretParamName name) || urlValueLooksSecret value ||
    urlValueLooksSecret name

def isLongToken (t : Bytes) : Bool :=
 24 ≤ t.length && (t.all fun c => isAlnum c || c = 0x2D || c = 0x5F) && t.any isAlpha &&
  t.any isDigit

/-- What stands after the first `mark`. -/
def afterFirst (mark : Bytes) : Bytes → Option Bytes
 | [] => none
 | c :: s => if mark.isPrefixOf (c :: s) then some ((c :: s).drop mark.length) else afterFirst mark s

def kSignInPaths : List String :=
 ["reset", "password", "passwd", "login", "signin", "sign-in", "verify", "confirm", "magic", "token",
  "auth", "activate", "invite", "otp"]

def urlLooksSecret (url : Bytes) : Bool :=
 match afterFirst "://" url with
 | none => false
 | some rest =>
  let authority := rest.takeWhile fun c => !(utf8 "/?#").contains c
  let rest := rest.dropWhile fun c => !(utf8 "/?#").contains c
  let fragment := (rest.dropWhile (· ≠ 0x23)).drop 1
  let beforeHash := rest.takeWhile (· ≠ 0x23)
  let query := (beforeHash.dropWhile (· ≠ 0x3F)).drop 1
  let path := beforeHash.takeWhile (· ≠ 0x3F)
  let lowerPath := lowerAscii (percentDecode false path)
  let signInPath := kSignInPaths.any fun w => contains (utf8 w) lowerPath
  -- A user name or password before the host.
  authority.contains 0x40 || paramsLookSecret query false || paramsLookSecret fragment true ||
   (splitTokens path (utf8 "/")).any fun segment =>
    let decoded := percentDecode false segment
    urlValueLooksSecret decoded || (signInPath && isLongToken decoded)

def kStrongSymbols : Bytes := "!#$%^&*()+=[]\x7b\x7d|\\;\x27\"<>?\x60~"

def tokenLooksSecret (tok : Bytes) : Bool :=
 if (utf8 "http://").isPrefixOf tok || (utf8 "https://").isPrefixOf tok then urlLooksSecret tok
 else if isSsn tok || isIbanShaped tok || isJwt tok || hasKeyPrefix tok then true
 else if tok.length < 8 || looksLikeEmail tok then false
 else
  let lower := tok.any isLower
  let upper := tok.any isUpper
  let digit := tok.any isDigit
  let symbol (c : UInt8) : Bool := !isAlnum c && c < 0x80
  let other := tok.any symbol
  let strongSymbol := tok.any fun c => symbol c && kStrongSymbols.contains c
  let keyCharsOnly := tok.all fun c => isAlnum c || (utf8 "_-+/=.").contains c
  let letter := lower || upper
  (letter && digit && strongSymbol) || (upper && lower && digit && other) ||
   (12 ≤ tok.length && upper && lower && digit) ||
   (24 ≤ tok.length && keyCharsOnly && letter && digit)

/-- `prev`: the byte before; a separator stands between two digits. -/
def oneTimeCodeFrom (prev : Option UInt8) (digits separators : ℕ) : Bytes → Bool
 | [] => 6 ≤ digits && digits ≤ 8 && separators ≤ 1
 | c :: s =>
  if isDigit c then oneTimeCodeFrom (some c) (digits + 1) separators s
  else if (c = 0x20 || c = 0x2D) && prev.any isDigit && s.head?.any isDigit then
   oneTimeCodeFrom (some c) digits (separators + 1) s
  else false

def looksLikeOneTimeCode (text : Bytes) : Bool :=
 oneTimeCodeFrom none 0 0 ((text.dropWhile isSpace).rdropWhile isSpace)

def labelSuggestsSecret (label : Bytes) : Bool :=
 (["password", "passwort", "passwd", "passcode", "contrase", "mot de passe", "senha", "wachtwoord",
   "パスワード", "密码"].any fun s => contains (utf8 s) (lowerAscii label)) ||
  hasWordOrPhrase (joinWords (words label)) (words label)
   ["pwd", "passphrase", "pin", "pincode", "cvv", "cvv2", "cvc", "cvc2", "csc", "otp", "totp",
    "2fa", "mfa", "ssn", "secret", "token", "apikey", "iban"]
   ["security code", "verification code", "one time", "auth code", "authentication code",
    "access code", "sms code", "login code", "api key", "private key", "secret key",
    "card number", "credit card", "debit card", "card no", "account number", "routing number",
    "sort code", "social security", "tax id", "seed phrase", "recovery phrase",
    "recovery code", "backup code", "expiry date", "expiration date", "security question",
    "security answer"]

def textLooksSecret (text : Bytes) : Bool :=
 hasCardNumber text || looksLikeOneTimeCode text || isIbanShaped (text.filter (· ≠ 0x20)) ||
  (["password", "passwd", "passcode", "passphrase"].any fun s =>
   contains (utf8 s) (lowerAscii text)) ||
  hasWordOrPhrase (joinWords (words text)) (words text) ["pwd", "otp", "cvv", "cvc", "ssn"]
   ["api key", "secret key", "private key", "seed phrase", "recovery phrase", "security code",
    "verification code"] ||
  (splitTokens text []).any fun tok => tokenLooksSecret (trimPunct tok)

/-! ## Secrets the goal gives -/

def kStrongKeywords : List String :=
 ["password", "passwd", "pwd", "passcode", "passphrase", "secret", "token"]

def kNumericKeywords : List String := ["pin", "code", "otp", "cvv", "cvc", "ssn", "key", "card"]

def kSkip : List String :=
 ["is", "was", "will", "be", "my", "the", "a", "an", "of", "with", "as", "to", "number", "no", "num",
  "#", "and", "its", "it\x27s", "it", "use", "using", "enter", "type", "->", "for", "are", "here",
  "this", "that", "your", "our"]

def isOneOf (list : List String) (word : Bytes) : Bool := list.any fun k => word = utf8 k

def addToken (out : List Bytes) (t : Bytes) : List Bytes :=
 if t.length < 3 ∨ t ∈ out then out else out ++ [t]

def pointedAt (next : List Bytes) : Option Bytes :=
 (next.take 4).find? fun t => !isOneOf kSkip (lowerAscii t)

/-- The token's keyword gives the word it points at, a weak one only a word with a digit in it. -/
def givenBy (token : Bytes) (next : List Bytes) : Option Bytes :=
 let lower := lowerAscii token
 if isOneOf kStrongKeywords lower then pointedAt next
 else if isOneOf kNumericKeywords lower then (pointedAt next).filter fun t => (lowerAscii t).any isDigit
 else none

def goalTokensFrom (out : List Bytes) : List Bytes → List Bytes
 | [] => out
 | token :: next =>
  let out := ((givenBy token next).map (addToken out)).getD out
  goalTokensFrom (if tokenLooksSecret token then addToken out token else out) next

def goalSecretTokens (goal : Bytes) : List Bytes :=
 let tokens := (splitTokens (goal.take kMaxGoalScanBytes) (utf8 "=:")).map trimPunct
 goalTokensFrom [] (tokens.filter (· ≠ []))

theorem mem_addToken {out : List Bytes} {t x : Bytes} (h : t ∈ addToken out x) :
  t ∈ out ∨ (t = x ∧ 3 ≤ x.length) := by
 rw [addToken] at h
 split_ifs at h with hskip
 · exact .inl h
 · rw [not_or] at hskip
   rcases mem_append.1 h with hout | hx
   · exact .inl hout
   · exact .inr ⟨mem_singleton.1 hx, by omega⟩

theorem givenBy_mem {token t : Bytes} {next : List Bytes} (h : givenBy token next = some t) : t ∈ next := by
 have hpointed : pointedAt next = some t := by
  rw [givenBy] at h
  split_ifs at h
  · exact h
  · exact (Option.filter_eq_some_iff.1 h).1
 exact mem_of_mem_take (mem_of_find?_eq_some hpointed)

theorem mem_goalTokensFrom {out tokens : List Bytes} {t : Bytes} (h : t ∈ goalTokensFrom out tokens) :
  t ∈ out ∨ (t ∈ tokens ∧ 3 ≤ t.length) := by
 induction tokens generalizing out with
 | nil => exact .inl h
 | cons token next ih =>
  rw [goalTokensFrom] at h
  have hgiven : ∀ x ∈ ((givenBy token next).map (addToken out)).getD out,
    x ∈ out ∨ (x ∈ token :: next ∧ 3 ≤ x.length) := by
   intro x hx
   cases hg : givenBy token next with
   | none =>
    rw [hg] at hx
    exact .inl hx
   | some y =>
    rw [hg] at hx
    refine (mem_addToken hx).imp_right fun ⟨heq, hlen⟩ => ?_
    subst heq
    exact ⟨mem_cons_of_mem _ (givenBy_mem hg), hlen⟩
  rcases ih h with hout | ⟨hmem, hlen⟩
  · split_ifs at hout with hlooks
    · rcases mem_addToken hout with hout | ⟨rfl, hlen⟩
      · exact hgiven t hout
      · exact .inr ⟨mem_cons_self, hlen⟩
    · exact hgiven t hout
  · exact .inr ⟨mem_cons_of_mem _ hmem, hlen⟩

theorem piecesFrom_unseparated {sep : UInt8 → Bool} {cur s t : Bytes} (hcur : ∀ c ∈ cur, sep c = false)
  (ht : t ∈ piecesFrom sep cur s) : ∀ c ∈ t, sep c = false := by
 induction s generalizing cur with
 | nil =>
  rw [piecesFrom] at ht
  split_ifs at ht
  · cases ht
  · rwa [mem_singleton.1 ht]
 | cons c s ih =>
  rw [piecesFrom] at ht
  split_ifs at ht with hsep hnil
  · exact ih (fun _ h => by cases h) ht
  · rcases mem_cons.1 ht with rfl | ht
    · exact hcur
    · exact ih (fun _ h => by cases h) ht
  · refine ih (fun x hx => ?_) ht
    rcases mem_append.1 hx with hx | hx
    · exact hcur x hx
    · rw [mem_singleton.1 hx]
      exact Bool.eq_false_iff.2 hsep

theorem trimPunct_sublist (s : Bytes) : (trimPunct s).Sublist s :=
 (List.rdropWhile_prefix _ _).sublist.trans (dropWhile_sublist _)

/-- What a token of the goal is like: three bytes or more, no whitespace, no brace at an end. -/
structure Token (t : Bytes) : Prop where
 long : 3 ≤ t.length
 unspaced : ∀ c ∈ t, isSpace c = false
 start : t.head? ≠ some 0x7B
 finish : t.getLast? ≠ some 0x7D

theorem token_of_mem {goal t : Bytes} (h : t ∈ goalSecretTokens goal) : Token t := by
 rcases mem_goalTokensFrom h with hnil | ⟨hmem, hlen⟩
 · cases hnil
 obtain ⟨x, hx, rfl⟩ := mem_map.1 (mem_of_mem_filter hmem)
 have hplain := piecesFrom_unseparated (fun _ h => by cases h) hx
 refine ⟨hlen, fun c hc => ?_, fun hstart => ?_, fun hfinish => ?_⟩
 · exact (Bool.or_eq_false_iff.1 (hplain c ((trimPunct_sublist x).subset hc))).1
 · have hpre : trimPunct x <+: x.dropWhile kPunct.contains := rdropWhile_prefix _ _
   obtain ⟨rest, hrest⟩ := hpre
   have hhead : (x.dropWhile kPunct.contains).head? = some 0x7B := by
    rw [← hrest, head?_append, hstart]
    rfl
   have := head?_dropWhile_not kPunct.contains x
   rw [hhead] at this
   exact absurd this (by decide)
 · have hne : trimPunct x ≠ [] := fun hnil => by rw [hnil] at hlen; exact absurd hlen (by decide)
   have hlast := rdropWhile_last_not kPunct.contains (x.dropWhile kPunct.contains) hne
   rw [getLast?_eq_some_getLast hne, Option.some.injEq] at hfinish
   change ¬ kPunct.contains ((trimPunct x).getLast hne) = true at hlast
   rw [hfinish] at hlast
   exact hlast (by decide)

/-! ## Names of the values asked for -/

/-- The label's letters and digits in lower case; anything else between them is one "_". -/
def slugOf (label : Bytes) : Bytes :=
 (label.foldl (fun slug c =>
  if isAlnum c then slug ++ [asciiLower c]
  else if slug ≠ [] ∧ slug.getLast? ≠ some 0x5F then slug ++ [0x5F]
  else slug) []).rdropWhile (· = 0x5F)

def fit (s : Bytes) (max : ℕ) : Bytes := (s.take max).rdropWhile (· = 0x5F)

def baseName (label : Bytes) : Bytes :=
 let slug := slugOf label
 let slug := match slug with
  | [] => utf8 "value"
  | c :: _ => if isLower c then slug else utf8 "value_" ++ slug
 fit slug kMaxVariableNameChars

def numbered (slug : Bytes) (n : ℕ) : Bytes :=
 let suffix := [0x5F] ++ utf8 (Nat.repr n)
 fit slug (kMaxVariableNameChars - suffix.length) ++ suffix

/-- The first numbered name from `n` on that isn't taken; `fuel` bounds the tries. -/
def firstFree (slug : Bytes) (taken : List Bytes) : ℕ → ℕ → Bytes
 | 0, n => numbered slug n
 | fuel + 1, n =>
  if numbered slug n ∈ taken then firstFree slug taken fuel (n + 1) else numbered slug n

def variableNameFor (label : Bytes) (taken : List Bytes) : Bytes :=
 if baseName label ∈ taken then firstFree (baseName label) taken taken.length 2 else baseName label

end MoltBrowser.AgentDraft
