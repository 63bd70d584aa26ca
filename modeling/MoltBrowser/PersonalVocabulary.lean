import MoltBrowser.SpokenReading
import MoltBrowser.TransitionRuns

set_option autoImplicit false

/-!
# The personal vocabulary (`voice_vocabulary.cc`)

Names the user says and corrections of what was misheard, as they are learned, forgotten
and restored.
-/
namespace MoltBrowser.Vocabulary
open SpokenText TransitionRuns
open Voice (isValidUtf8)

def kMaxVocabularyEntries : ℕ := 200
def kMaxVocabularyPhraseWords : ℕ := 6
def kMaxVocabularyPhraseBytes : ℕ := 64
def kVocabularyLifetimeSeconds : ℤ := 180 * 24 * 3600
def kMaxVocabularyUses : ℤ := 1000000
def kMaxPhraseInputBytes : ℕ := 1000
def kMaxAnswerSpanWords : ℕ := 3
def kFutureSlackSeconds : ℤ := 24 * 3600

def kSecretWords : List Bytes :=
 ["password", "passwords", "passcode", "passphrase", "pin", "pins", "cvv", "cvc", "ssn", "otp",
  "token", "secret", "login", "username", "iban"].map utf8

/-- A name, or a correction of what was `heard`. Times are in seconds. -/
structure VocabularyEntry where
 phrase : Bytes
 heard : Bytes := []
 uses : ℤ
 lastUsed : ℤ
 deriving DecidableEq, Repr

def VocabularyEntry.correction (e : VocabularyEntry) : Bool := !e.heard.isEmpty

structure PersonalVocabulary where
 entries : List VocabularyEntry := []
 deriving DecidableEq, Repr

/-! ## What may be learned -/

def joinWords (words : List Bytes) (first last : ℕ) : Bytes :=
 ((words.take last).drop first).foldl (fun out word => (if out = [] then out else out ++ [0x20]) ++ word) []

def hasDigit (word : Bytes) : Bool := word.any fun c => 0x30 ≤ c && c ≤ 0x39
def hasNonDigit (word : Bytes) : Bool := word.any fun c => c < 0x30 || 0x39 < c

def looksSecret (word : Bytes) : Bool :=
 (hasDigit word && 4 ≤ word.length && !hasNonDigit word) || (hasDigit word && hasNonDigit word) ||
  kSecretWords.contains word

section Learn

/-! `isAnswer` is the grammar's: whether folded words answer a yes-or-no question. -/
variable (isAnswer : Bytes → Bool)

/-- Some words of them in a row, or all of them, are an answer. -/
def holdsAnswer (words : List Bytes) : Bool :=
 ((List.range words.length).any fun first =>
  (List.range (min kMaxAnswerSpanWords (words.length - first))).any fun more =>
   isAnswer (joinWords words first (first + more + 1))) ||
  isAnswer (joinWords words 0 words.length)

def wordsLearnable (words : List Bytes) : Bool :=
 !words.any looksSecret && words.any hasNonDigit && !holdsAnswer isAnswer words

/-- The phrase as it is kept, nothing for one that isn't learned. -/
def learnedPhrase (phrase : Bytes) : Bytes :=
 if kMaxPhraseInputBytes < phrase.length then []
 else
  let cleaned := cleanSpokenText phrase kMaxPhraseInputBytes
  if cleaned = [] ∨ kMaxVocabularyPhraseBytes < cleaned.length ∨ isValidUtf8 phrase = false then []
  else
   let text := normalizeSpokenText cleaned { maxWords := kMaxVocabularyPhraseWords + 1 }
   if text.words.length = 0 ∨ kMaxVocabularyPhraseWords < text.words.length ∨ text.truncated then []
   else if wordsLearnable isAnswer text.texts then cleaned
   else []

/-! ## Changes -/

def isName (key : Bytes) (e : VocabularyEntry) : Bool := !e.correction && foldForComparison e.phrase == key
def corrects (heard : Bytes) (e : VocabularyEntry) : Bool := e.correction && e.heard == heard

def findName (entries : List VocabularyEntry) (key : Bytes) : Option ℕ := entries.findIdx? (isName key)
def findCorrection (entries : List VocabularyEntry) (heard : Bytes) : Option ℕ := entries.findIdx? (corrects heard)

def older (a b : VocabularyEntry) : Bool :=
 if a.lastUsed ≠ b.lastUsed then a.lastUsed < b.lastUsed else a.uses < b.uses

/-- The first of the oldest entries, `best` at `place` so far. -/
def oldestFrom (place : ℕ) (best : VocabularyEntry) : ℕ → List VocabularyEntry → ℕ
 | _, [] => place
 | i, e :: rest => if older e best then oldestFrom i e (i + 1) rest else oldestFrom place best (i + 1) rest

def oldest : List VocabularyEntry → ℕ
 | [] => 0
 | e :: rest => oldestFrom 0 e 1 rest

theorem oldestFrom_lt {place i : ℕ} (best : VocabularyEntry) (h : place < i) (rest : List VocabularyEntry) :
  oldestFrom place best i rest < i + rest.length := by
 induction rest generalizing place best i with
 | nil => exact h
 | cons e rest ih =>
  rw [oldestFrom, List.length_cons, ← Nat.add_assoc, Nat.add_right_comm]
  split_ifs
  · exact ih e (Nat.lt_succ_self i)
  · exact ih best (h.trans (Nat.lt_succ_self i))

theorem oldest_lt {entries : List VocabularyEntry} (h : 0 < entries.length) : oldest entries < entries.length := by
 cases entries with
 | nil => exact h
 | cons e rest =>
  rw [oldest, List.length_cons, Nat.add_comm]
  exact oldestFrom_lt e Nat.one_pos rest

def evict (entries : List VocabularyEntry) : List VocabularyEntry :=
 if kMaxVocabularyEntries < entries.length then evict (entries.eraseIdx (oldest entries)) else entries
termination_by entries.length
decreasing_by
 rw [List.length_eraseIdx_of_lt (oldest_lt (by omega))]
 omega

def VocabularyEntry.use (e : VocabularyEntry) (now : ℤ) : VocabularyEntry :=
 { e with uses := min (e.uses + 1) kMaxVocabularyUses, lastUsed := now }

def noteName (v : PersonalVocabulary) (phrase : Bytes) (now : ℤ) : Bool × PersonalVocabulary :=
 let learned := learnedPhrase isAnswer phrase
 if learned = [] then (false, v)
 else
  match findName v.entries (foldForComparison learned) with
  | some i => (true, { entries := v.entries.modify i fun e => { e.use now with phrase := learned } })
  | none => (true, { entries := evict (v.entries ++ [{ phrase := learned, uses := 1, lastUsed := now }]) })

def noteCorrection (v : PersonalVocabulary) (heard meant : Bytes) (now : ℤ) : Bool × PersonalVocabulary :=
 let heardKey := foldForComparison (learnedPhrase isAnswer heard)
 let learned := learnedPhrase isAnswer meant
 if heardKey = [] ∨ learned = [] ∨ heardKey = foldForComparison learned then (false, v)
 else
  let entries := v.entries.filter fun e => !isName heardKey e
  match findCorrection entries heardKey with
  | some i => (true, { entries := entries.modify i fun e => { e.use now with phrase := learned } })
  | none => (true, { entries := evict (entries ++ [{ phrase := learned, heard := heardKey, uses := 1, lastUsed := now }]) })

def noteCorrectionUsed (v : PersonalVocabulary) (heard : Bytes) (now : ℤ) : PersonalVocabulary :=
 match findCorrection v.entries heard with
 | some i => { entries := v.entries.modify i fun e => e.use now }
 | none => v

/-- Forgets what the phrase names, and how many entries that is. -/
def forget (v : PersonalVocabulary) (phrase : Bytes) : ℕ × PersonalVocabulary :=
 let key := foldForComparison (phrase.take kMaxPhraseInputBytes)
 if key = [] then (0, v)
 else
  let entries := v.entries.filter fun e => !(foldForComparison e.phrase == key || e.heard == key)
  (v.entries.length - entries.length, { entries })

def clear (_ : PersonalVocabulary) : PersonalVocabulary := {}

def age (v : PersonalVocabulary) (now : ℤ) : PersonalVocabulary :=
 { entries := evict (v.entries.filter fun e =>
    !(e.lastUsed < now - kVocabularyLifetimeSeconds || now + kFutureSlackSeconds < e.lastUsed)) }

def restore (v : PersonalVocabulary) (e : VocabularyEntry) : Bool × PersonalVocabulary :=
 if kMaxVocabularyEntries ≤ v.entries.length then (false, v)
 else
  let learned := learnedPhrase isAnswer e.phrase
  if learned = [] ∨ learned ≠ e.phrase ∨ e.uses < 1 ∨ kMaxVocabularyUses < e.uses ∨ e.lastUsed < 0 then (false, v)
  else if e.correction then
   if foldForComparison (learnedPhrase isAnswer e.heard) ≠ e.heard ∨ e.heard = foldForComparison e.phrase ∨
     (findCorrection v.entries e.heard).isSome then (false, v)
   else (true, { entries := v.entries ++ [e] })
  else if (findName v.entries (foldForComparison e.phrase)).isSome then (false, v)
  else (true, { entries := v.entries ++ [e] })

/-- Each entry in order, into an empty vocabulary: what each restore answers, and the vocabulary after. -/
def restoreAll (entries : List VocabularyEntry) : List Bool × PersonalVocabulary :=
 entries.foldl (fun done e => (done.1 ++ [(restore isAnswer done.2 e).1], (restore isAnswer done.2 e).2)) ([], {})

inductive Call where
 | noteName (phrase : Bytes) (now : ℤ)
 | noteCorrection (heard meant : Bytes) (now : ℤ)
 | noteCorrectionUsed (heard : Bytes) (now : ℤ)
 | forget (phrase : Bytes)
 | clear
 | age (now : ℤ)
 | restore (e : VocabularyEntry)

def step (v : PersonalVocabulary) : Call → PersonalVocabulary
 | .noteName phrase now => (noteName isAnswer v phrase now).2
 | .noteCorrection heard meant now => (noteCorrection isAnswer v heard meant now).2
 | .noteCorrectionUsed heard now => noteCorrectionUsed v heard now
 | .forget phrase => (forget v phrase).2
 | .clear => clear v
 | .age now => age v now
 | .restore e => (restore isAnswer v e).2

end Learn

def Call.Timely : Call → Prop
 | .noteName _ now => 0 ≤ now
 | .noteCorrection _ _ now => 0 ≤ now
 | .noteCorrectionUsed _ now => 0 ≤ now
 | .forget _ => True
 | .clear => True
 | .age now => 0 ≤ now
 | .restore _ => True

/-! ## A learned phrase is learnable again -/

section Learned

variable {isAnswer : Bytes → Bool} {phrase : Bytes}

/-- What a phrase that is learned passes: it is clean and short, and so are its words. -/
structure Learnable (isAnswer : Bytes → Bool) (phrase : Bytes) : Prop where
 some : phrase ≠ []
 clean : Clean kMaxPhraseInputBytes phrase
 short : phrase.length ≤ kMaxVocabularyPhraseBytes
 words : (normalizeSpokenText phrase { maxWords := kMaxVocabularyPhraseWords + 1 }).words.length ≠ 0 ∧
  (normalizeSpokenText phrase { maxWords := kMaxVocabularyPhraseWords + 1 }).words.length ≤ kMaxVocabularyPhraseWords
 whole : (normalizeSpokenText phrase { maxWords := kMaxVocabularyPhraseWords + 1 }).truncated = false
 learnable : wordsLearnable isAnswer
  (normalizeSpokenText phrase { maxWords := kMaxVocabularyPhraseWords + 1 }).texts = true

theorem learnedPhrase_learnable (h : learnedPhrase isAnswer phrase ≠ []) : Learnable isAnswer (learnedPhrase isAnswer phrase) := by
 rw [learnedPhrase] at h ⊢
 dsimp only at h ⊢
 split_ifs at h ⊢ with hlong hbad hwords hlearn
 all_goals first | exact absurd rfl h | skip
 rw [not_or, not_or] at hbad hwords
 exact
  { some := h
    clean := clean_cleanSpokenText phrase _
    short := Nat.le_of_not_lt hbad.2.1
    words := ⟨hwords.1, Nat.le_of_not_lt hwords.2.1⟩
    whole := Bool.eq_false_iff.2 hwords.2.2
    learnable := hlearn }

theorem Learnable.learnedPhrase_eq (h : Learnable isAnswer phrase) : learnedPhrase isAnswer phrase = phrase := by
 have hclean : cleanSpokenText phrase kMaxPhraseInputBytes = phrase := h.clean.cleanSpokenText_eq
 rw [learnedPhrase, if_neg (Nat.not_lt.2 h.clean.fits)]
 dsimp only
 rw [hclean, if_neg, if_neg, if_pos h.learnable]
 · rw [not_or, not_or, h.whole]
   exact ⟨h.words.1, Nat.not_lt.2 h.words.2, Bool.false_ne_true⟩
 · rw [not_or, not_or, h.clean.isValidUtf8]
   exact ⟨h.some, Nat.not_lt.2 h.short, fun hfalse => Bool.noConfusion hfalse⟩

theorem learnedPhrase_nil : learnedPhrase isAnswer [] = [] := by
 rw [learnedPhrase, if_neg (by decide)]
 exact if_pos (.inl (by rw [cleanSpokenText, cleanFrom]))

theorem foldForComparison_nil : foldForComparison [] = [] := by
 rw [foldForComparison, normalizeSpokenText, List.take_nil, readFrom]
 rfl

theorem learnedPhrase_learnedPhrase (phrase : Bytes) :
  learnedPhrase isAnswer (learnedPhrase isAnswer phrase) = learnedPhrase isAnswer phrase := by
 by_cases h : learnedPhrase isAnswer phrase = []
 · rw [h, learnedPhrase_nil]
 · exact (learnedPhrase_learnable h).learnedPhrase_eq

/-- Folded, a learnable phrase is its words in a line, and that line is learnable and folded. -/
theorem Learnable.fold (h : Learnable isAnswer phrase) :
  Learnable isAnswer (foldForComparison phrase) ∧
   foldForComparison (foldForComparison phrase) = foldForComparison phrase := by
 have hbound : kMaxPhraseInputBytes ≤ 2 ^ 30 := by decide
 have hroom : kMaxVocabularyPhraseWords + 1 ≤ 512 := by decide
 obtain ⟨hwritten, hlen⟩ := h.clean.written hbound (kMaxVocabularyPhraseWords + 1)
 have hfold : foldForComparison phrase =
   line (normalizeSpokenText phrase { maxWords := kMaxVocabularyPhraseWords + 1 }).texts := by
  rw [foldForComparison, ← normalizeSpokenText_room hroom h.whole]
  rfl
 have hcount : (normalizeSpokenText phrase { maxWords := kMaxVocabularyPhraseWords + 1 }).texts.length =
   (normalizeSpokenText phrase { maxWords := kMaxVocabularyPhraseWords + 1 }).words.length := List.length_map _
 have hlearn := h.learnable
 have hwords := h.words
 rw [← hcount] at hwords
 rw [hfold]
 generalize (normalizeSpokenText phrase { maxWords := kMaxVocabularyPhraseWords + 1 }).texts = ws at *
 have hshort : (line ws).length ≤ kMaxVocabularyPhraseBytes := hlen.trans h.short
 have hsmall : (line ws).length ≤ 2 ^ 30 := hshort.trans (by decide)
 obtain ⟨hread, hwhole⟩ := normalizeSpokenText_line hwritten hsmall (hwords.2.trans (Nat.le_succ _))
 obtain ⟨hagain, -⟩ := normalizeSpokenText_line hwritten hsmall (k := 512) (hwords.2.trans (by decide))
 refine ⟨⟨?_, clean_line hwritten (hshort.trans (by decide)), hshort, ?_, hwhole, ?_⟩, ?_⟩
 · cases ws with
   | nil => exact absurd rfl hwords.1
   | cons w ws =>
    rw [line_eq]
    exact fun hnil => (hwritten w List.mem_cons_self).ne_nil (List.append_eq_nil_iff.1 hnil).1
 · have hsame := congrArg List.length hread
   rw [NormalizedText.texts, List.length_map] at hsame
   rw [hsame]
   exact hwords
 · rw [hread]
   exact hlearn
 · rw [foldForComparison]
   exact congrArg line hagain

theorem heardKey_kept (phrase : Bytes) :
  foldForComparison (learnedPhrase isAnswer (foldForComparison (learnedPhrase isAnswer phrase))) =
   foldForComparison (learnedPhrase isAnswer phrase) := by
 by_cases h : learnedPhrase isAnswer phrase = []
 · rw [h, foldForComparison_nil, learnedPhrase_nil, foldForComparison_nil]
 · obtain ⟨hlearnable, hfold⟩ := (learnedPhrase_learnable h).fold
   rw [hlearnable.learnedPhrase_eq, hfold]

end Learned

end MoltBrowser.Vocabulary
