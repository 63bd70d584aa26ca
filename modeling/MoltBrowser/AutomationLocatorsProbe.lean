import MoltBrowser.DisplayCleaning
import MoltBrowser.UntrustedText

set_option autoImplicit false

/-!
# The element a step's locators find again (`automation_locators.cc`)

A probe evaluates the locators on the page and reports what each found. The
report is page data: `parseProbe` reads it, `decideLocatorMatch` picks the element.
-/
namespace MoltBrowser.AutomationLocators
open AgentSafety (asciiLower)
open DisplayCleaning (cleanLabel)

def kMaxAutocompleteChars : ℕ := 64
def kMaxProbeCandidates : ℕ := 32
def kMaxMatchesPerLocator : ℕ := 8
def kMaxShownLabelChars : UInt64 := 60

/-! ## Kinds of elements and fields -/

def kindMatches (recorded live : ElementKind) : Bool :=
 recorded.tag = live.tag && recorded.type = live.type && recorded.role = live.role

/-- Role and name, label, a strong attribute or the recorded selector. -/
def isStrong (locator : Locator) : Bool :=
 match locator.by_ with
 | .role | .label | .selector => true
 | .attr => locator.name ∈ kStrongAttributes
 | .text | .path => false

def toLower (s : Bytes) : Bytes := s.map asciiLower

def isAsciiSpace (c : UInt8) : Bool := c = 0x20 || (0x09 ≤ c && c ≤ 0x0D)

/-- `cur` is the token not yet ended. -/
def splitTokensFrom (out : List Bytes) (cur : Bytes) : Bytes → List Bytes
 | [] => if cur.isEmpty then out else out ++ [cur]
 | c :: s =>
  if isAsciiSpace c then splitTokensFrom (if cur.isEmpty then out else out ++ [cur]) [] s
  else splitTokensFrom out (cur ++ [c]) s

def splitTokens (s : Bytes) : List Bytes := splitTokensFrom [] [] s

/-- The kind of a form field: a password's before a card's before a one-time code's. -/
def classifyField (inputType autocomplete : Bytes) : FieldKind :=
 let type := ((toLower inputType).rdropWhile isAsciiSpace).dropWhile isAsciiSpace
 let tokens := (splitTokens autocomplete).map toLower
 let namesPassword (token : Bytes) : Bool := token = "current-password" || token = "new-password"
 if type = "password" ∨ tokens.any namesPassword then .password
 else if tokens.any fun token => (utf8 "cc-").isPrefixOf token then .paymentCard
 else if utf8 "one-time-code" ∈ tokens then .oneTimeCode
 else .ordinary

/-! ## The probe's report -/

structure Candidate where
 kind : ElementKind := {}
 field : FieldKind := .ordinary
 label : Bytes := []
 deriving DecidableEq

/-- For each locator the candidates it found, and whether it found too many to report. -/
structure Probe where
 origin : Bytes := []
 candidates : List Candidate := []
 matches_ : List (List ℕ) := []
 overflow : List Bool := []
 deriving DecidableEq

def parseCandidate (c : Value) : Option Candidate :=
 match c.dict? with
 | none => none
 | some cd =>
  match parseKind (cd.findString "tag") (cd.findString "type") (cd.findString "role"),
    cd.findString "input_type", cd.findString "autocomplete", cd.findString "label" with
  | some kind, some inputType, some autocomplete, some label =>
   if kMaxTypeChars + 1 < inputType.length ∨ kMaxAutocompleteChars + 1 < autocomplete.length ∨
     4 * (kMaxLocatorTextChars + 1) < label.length then none
   else some ⟨kind, classifyField inputType autocomplete, cleanLabel label kMaxShownLabelChars⟩
  | _, _, _, _ => none

/-- One turn of the loop over a locator's matches: an index into the candidates, none twice. -/
def addIndex (candidates : ℕ) (indices : List ℕ) (v : Value) : Option (List ℕ) :=
 match v.int? with
 | none => none
 | some i =>
  if i.toInt < 0 ∨ candidates ≤ i.toInt.toNat ∨ i.toInt.toNat ∈ indices then none
  else some (indices ++ [i.toInt.toNat])

def parseMatches (candidates : ℕ) (v : Value) : Option (List ℕ) :=
 match v.list? with
 | none => none
 | some m => if kMaxMatchesPerLocator < m.length then none else m.foldlM (addIndex candidates) []

def parseProbe (report : Value) (locators : ℕ) : Option Probe :=
 match report.dict? with
 | none => none
 | some d =>
  match d.findString "origin", d.findList "candidates", d.findList "matches", d.findList "over" with
  | some origin, some candidates, some found, some tooMany =>
   if kMaxOriginBytes < origin.length ∨ kMaxProbeCandidates < candidates.length ∨
     found.length ≠ locators ∨ tooMany.length ≠ locators then none
   else do
    let candidates ← candidates.mapM parseCandidate
    let found ← found.mapM (parseMatches candidates.length)
    let overflow ← tooMany.mapM Value.bool?
    some ⟨origin, candidates, found, overflow⟩
  | _, _, _, _ => none

/-! ## The decision -/

inductive Strength where
 | none
 | strong
 | weak
 | conflict
 deriving DecidableEq

structure Decision where
 strength : Strength := .none
 candidate : ℕ := 0
 locator : ℕ := 0

def eligible (recorded : StepLocators) (candidate : Candidate) : Bool :=
 kindMatches recorded.element candidate.kind && candidate.field = recorded.field

def eligibleAt (probe : Probe) (recorded : StepLocators) (c : ℕ) : Bool :=
 match probe.candidates[c]? with
 | some candidate => eligible recorded candidate
 | none => false

/-- One turn of the loop over a locator's matches: the last eligible one, and whether it found
several. -/
def tryMatch (ok : ℕ → Bool) (found : Option ℕ × Bool) (c : ℕ) : Option ℕ × Bool :=
 if ok c then (some c, found.2 || (found.1.isSome && found.1 != some c)) else found

/-- The element a locator found alone, among the eligible ones. -/
def uniqueMatch (ok : ℕ → Bool) (found : List ℕ) (overflow : Bool) : Option ℕ :=
 if overflow then none  -- too many: it identifies nothing
 else
  let (found, several) := found.foldl (tryMatch ok) (none, false)
  if several then none else found

/-- The decision on the locators from the `i`th on, each with the element it found alone. -/
def decideFrom : ℕ → List (Locator × Option ℕ) → Decision
 | _, [] => {}
 | i, (_, none) :: rest => decideFrom (i + 1) rest
 | i, (l, some c) :: rest =>
  if !isStrong l then { strength := .weak, candidate := c, locator := i }
  else if rest.any fun u => u.2.isSome && isStrong u.1 && u.2 != some c then
   { strength := .conflict, candidate := c, locator := i }
  else { strength := .strong, candidate := c, locator := i }

def decideLocatorMatch (order : List Locator) (probe : Probe) (recorded : StepLocators)
  (pageOrigin : Bytes) : Decision :=
 if probe.origin ≠ recorded.origin ∨ pageOrigin ≠ recorded.origin ∨
   probe.matches_.length ≠ order.length ∨ probe.overflow.length ≠ order.length then {}
 else
  decideFrom 0 (order.zip (List.zipWith (uniqueMatch (eligibleAt probe recorded)) probe.matches_
   probe.overflow))

/-! ## What a locator found alone -/

def EligibleMatch (ok : ℕ → Bool) (found : List ℕ) (c : ℕ) : Prop := c ∈ found ∧ ok c = true

theorem foldl_tryMatch (ok : ℕ → Bool) (found : List ℕ) (last : Option ℕ) (several : Bool) (c : ℕ) :
  found.foldl (tryMatch ok) (last, several) = (some c, false) ↔
   several = false ∧ (∀ x, EligibleMatch ok found x → x = c) ∧
    (last = some c ∨ (last = none ∧ EligibleMatch ok found c)) := by
 induction found generalizing last several with
 | nil =>
  rw [List.foldl_nil, Prod.mk.injEq]
  simp only [EligibleMatch, List.not_mem_nil, false_and, false_imp_iff, implies_true, and_false,
   or_false, true_and]
  exact And.comm
 | cons x found ih =>
  rw [List.foldl_cons, tryMatch]
  by_cases hx : ok x = true
  · rw [if_pos hx, ih]
    simp only [EligibleMatch, List.mem_cons]
    cases last with
    | none => grind
    | some a =>
     rw [Option.isSome_some, Bool.true_and, Bool.or_eq_false_iff, bne_eq_false_iff_eq]
     grind
  · rw [if_neg hx, ih]
    simp only [EligibleMatch, List.mem_cons]
    grind

theorem uniqueMatch_iff (ok : ℕ → Bool) (found : List ℕ) (overflow : Bool) (c : ℕ) :
  uniqueMatch ok found overflow = some c ↔
   overflow = false ∧ EligibleMatch ok found c ∧ ∀ x, EligibleMatch ok found x → x = c := by
 have hfold := foldl_tryMatch ok found none false c
 rw [uniqueMatch]
 cases overflow with
 | true => simp
 | false =>
  generalize found.foldl (tryMatch ok) (none, false) = last at hfold
  obtain ⟨last, several⟩ := last
  rw [Prod.mk.injEq] at hfold
  cases several with
  | true => simpa using fun h => fun hall => (hfold.2 ⟨rfl, hall, .inr ⟨rfl, h⟩⟩).2
  | false =>
   simp only [and_true, true_and, reduceCtorEq, false_or] at hfold
   simp only [Bool.false_eq_true, if_false, true_and]
   exact hfold.trans And.comm

/-! ## The decision's reasons -/

section Decision

variable {us : List (Locator × Option ℕ)} {i : ℕ}

theorem decideFrom_strong (h : (decideFrom i us).strength = .strong) :
  ∃ k l, us[k]? = some (l, some (decideFrom i us).candidate) ∧ isStrong l = true ∧
   (decideFrom i us).locator = i + k ∧
   ∀ (j : ℕ) l c, us[j]? = some (l, some c) → isStrong l = true →
    c = (decideFrom i us).candidate := by
 fun_induction decideFrom i us with
 | case1 => cases h
 | case2 i l rest ih =>
  obtain ⟨k, l', hk, hstrong, hloc, hall⟩ := ih h
  refine ⟨k + 1, l', hk, hstrong, by omega, fun j l c hj hl => ?_⟩
  cases j with
  | zero => cases hj
  | succ j => exact hall j l c hj hl
 | case3 => cases h
 | case4 => cases h
 | case5 i l c rest hstrong hagree =>
  refine ⟨0, l, rfl, by simpa using hstrong, rfl, fun j l' c' hj hl' => ?_⟩
  cases j with
  | zero =>
   cases hj
   rfl
  | succ j =>
   by_contra hne
   refine hagree (List.any_eq_true.2 ⟨(l', some c'), List.mem_of_getElem? hj, ?_⟩)
   simpa [hl'] using hne

theorem decideFrom_none (h : (decideFrom i us).strength = .none) (j : ℕ) (l : Locator) (c : ℕ) :
  us[j]? ≠ some (l, some c) := by
 fun_induction decideFrom i us generalizing j with
 | case1 => simp
 | case2 i l' rest ih =>
  cases j with
  | zero => simp
  | succ j => exact ih h j
 | case3 => cases h
 | case4 => cases h
 | case5 => cases h

end Decision

variable {order : List Locator} {probe : Probe} {recorded : StepLocators} {pageOrigin : Bytes}

/-- Locator `i` found one eligible element, and not too many elements to report. -/
def FindsAlone (probe : Probe) (recorded : StepLocators) (i c : ℕ) : Prop :=
 ∃ found, probe.matches_[i]? = some found ∧ probe.overflow[i]? = some false ∧
  EligibleMatch (eligibleAt probe recorded) found c ∧
  ∀ x, EligibleMatch (eligibleAt probe recorded) found x → x = c

theorem getElem?_unique (i : ℕ) (l : Locator) (c : ℕ) :
  (order.zip (List.zipWith (uniqueMatch (eligibleAt probe recorded)) probe.matches_
   probe.overflow))[i]? = some (l, some c) ↔ order[i]? = some l ∧ FindsAlone probe recorded i c := by
 rw [List.getElem?_zip_eq_some, List.getElem?_zipWith_eq_some]
 refine and_congr_right fun _ => ⟨?_, ?_⟩
 · rintro ⟨found, overflow, hfound, hoverflow, hunique⟩
   obtain ⟨rfl, hc, hall⟩ := (uniqueMatch_iff ..).1 hunique
   exact ⟨found, hfound, hoverflow, hc, hall⟩
 · rintro ⟨found, hfound, hoverflow, hc, hall⟩
   exact ⟨found, false, hfound, hoverflow, (uniqueMatch_iff ..).2 ⟨rfl, hc, hall⟩⟩

theorem length_mapM {α β : Type} {f : α → Option β} {l : List α} {out : List β}
  (h : l.mapM f = some out) : out.length = l.length := by
 induction l generalizing out with
 | nil =>
  cases h
  rfl
 | cons a l ih =>
  rw [List.mapM_cons, Option.bind_eq_bind, Option.bind_eq_some_iff] at h
  obtain ⟨b, -, h⟩ := h
  rw [Option.bind_eq_bind, Option.bind_eq_some_iff] at h
  obtain ⟨rest, hrest, h⟩ := h
  cases h
  rw [List.length_cons, List.length_cons, ih hrest]

theorem parseProbe_lengths {report : Value} {locators : ℕ}
  (h : parseProbe report locators = some probe) :
  probe.matches_.length = locators ∧ probe.overflow.length = locators := by
 simp only [parseProbe] at h
 split at h
 · cases h
 · split at h
   · split_ifs at h with hbad
     rw [not_or, not_or, not_or] at hbad
     simp only [Option.bind_eq_bind, Option.bind_eq_some_iff, Option.some.injEq] at h
     obtain ⟨candidates, -, found, hfound, overflow, hoverflow, rfl⟩ := h
     exact ⟨(length_mapM hfound).trans (not_not.1 hbad.2.2.1),
      (length_mapM hoverflow).trans (not_not.1 hbad.2.2.2)⟩
   · cases h

theorem eligibleAt_iff {c : ℕ} : eligibleAt probe recorded c = true ↔
  ∃ candidate, probe.candidates[c]? = some candidate ∧ candidate.kind = recorded.element ∧
   candidate.field = recorded.field := by
 rw [eligibleAt]
 cases probe.candidates[c]? with
 | none => simp
 | some candidate =>
  obtain ⟨⟨tag, type, role⟩, field, label⟩ := candidate
  obtain ⟨origin, ⟨tag', type', role'⟩, field', list⟩ := recorded
  simp only [eligible, kindMatches, Bool.and_eq_true, decide_eq_true_eq, Option.some.injEq,
   exists_eq_left', ElementKind.mk.injEq]
  grind

/-- Fallback locators act unasked only on agreement. -/
theorem strong_only_on_agreement (order : List Locator) (report : Value) (recorded : StepLocators)
  (pageOrigin : Bytes) (probe : Probe) (hreport : parseProbe report order.length = some probe) :
  let d := decideLocatorMatch order probe recorded pageOrigin
  (d.strength = .strong →
   (probe.origin = recorded.origin ∧ pageOrigin = recorded.origin) ∧
   (∃ candidate, probe.candidates[d.candidate]? = some candidate ∧
    candidate.kind = recorded.element ∧ candidate.field = recorded.field) ∧
   (∃ l, order[d.locator]? = some l ∧ isStrong l = true) ∧
   FindsAlone probe recorded d.locator d.candidate ∧
   ∀ (j : ℕ) l c, order[j]? = some l → isStrong l = true → FindsAlone probe recorded j c →
    c = d.candidate) ∧
  (d.strength = .none →
   (∀ i < order.length, ∀ c, ¬ FindsAlone probe recorded i c) ∨
    probe.origin ≠ recorded.origin ∨ pageOrigin ≠ recorded.origin) := by
 obtain ⟨hm, ho⟩ := parseProbe_lengths hreport
 rw [decideLocatorMatch]
 split_ifs with hrefused
 · refine ⟨fun h => (nomatch h), fun _ => ?_⟩
   rcases hrefused with h | h | h | h
   · exact .inr (.inl h)
   · exact .inr (.inr h)
   · exact absurd hm h
   · exact absurd ho h
 · rw [not_or, not_or, not_not, not_not] at hrefused
   refine ⟨fun hstrong => ?_, fun hnone => .inl fun i hi c hc => ?_⟩
   · obtain ⟨k, l, hk, hl, hloc, hall⟩ := decideFrom_strong hstrong
     obtain ⟨hk, hfinds⟩ := (getElem?_unique k l _).1 hk
     obtain ⟨found, -, -, ⟨-, hok⟩, -⟩ := id hfinds
     rw [Nat.zero_add] at hloc
     rw [hloc]
     exact ⟨⟨hrefused.1, hrefused.2.1⟩, eligibleAt_iff.1 hok, ⟨l, hk, hl⟩, hfinds,
      fun j l c hj hl hc => hall j l c ((getElem?_unique j l c).2 ⟨hj, hc⟩) hl⟩
   · exact decideFrom_none hnone i order[i] c
      ((getElem?_unique i order[i] c).2 ⟨List.getElem?_eq_getElem hi, hc⟩)

def buttonReport : Value := .dict
 [("candidates", .list [.dict [("autocomplete", .string ""), ("input_type", .string ""),
   ("label", .string ""), ("role", .string "button"), ("tag", .string "button"),
   ("type", .string "")]]),
  ("matches", .list [.list [.int 0]]), ("origin", .string "https://a.example"),
  ("over", .list [.bool false])]

def buttonProbe : Probe :=
 { origin := "https://a.example"
   candidates := [{ kind := ⟨"button", [], "button"⟩ }]
   matches_ := [[0]]
   overflow := [false] }

def buttonStep : StepLocators :=
 { origin := "https://a.example", element := ⟨"button", [], "button"⟩ }

theorem parseProbe_button : parseProbe buttonReport 1 = some buttonProbe := by decide +kernel

theorem strong_only_on_agreement_button :
  parseProbe buttonReport 1 = some buttonProbe ∧
  (decideLocatorMatch [{ by_ := .label, value := "Buy" }] buttonProbe buttonStep
   "https://a.example").strength = .strong ∧
  ∃ candidate, buttonProbe.candidates[0]? = some candidate ∧ candidate.kind = buttonStep.element ∧
   candidate.field = buttonStep.field :=
 ⟨parseProbe_button, by decide,
  ((strong_only_on_agreement [{ by_ := .label, value := "Buy" }] buttonReport buttonStep
   "https://a.example" buttonProbe parseProbe_button).1 (by decide)).2.1⟩

end MoltBrowser.AutomationLocators
