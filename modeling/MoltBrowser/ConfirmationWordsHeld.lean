import MoltBrowser.PhoneticKeys

set_option autoImplicit false

/-!
# A confirmation word held in what was heard

`HoldsConfirmationWord` looks for a prompt's word anywhere in the first 1024 bytes;
`HearConfirmationWord` reads the answer from the first 200.
-/
namespace MoltBrowser.ConfirmationWords

def kMaxHeldWordScanBytes : ℕ := 1024

section Held

variable (phonetics : Phonetics)

def withinMargin (key wordKey : Bytes) : Bool :=
 let bound := phonetics.phoneticBound (max key.length wordKey.length) + kSureSoundAlikeMargin
 phonetics.phoneticDistance key wordKey bound ≤ bound

def nearWord (wordKey key : Bytes) : Bool := key ≠ [] && withinMargin phonetics key wordKey

/-- A word said, with the one after it, is the word, its plural or it split, or sounds like it. -/
def holdsAt (table : WordTable) (word wordKey one : Bytes) (next : Option Bytes) : Bool :=
 one == word || (plural table one).any (fun index => table.words[index]? == some word) ||
  nearWord phonetics wordKey (phonetics.phoneticKeyFor table.language one) ||
  next.any fun next =>
   let a := phonetics.phoneticKeyFor table.language one
   let b := phonetics.phoneticKeyFor table.language next
   one ++ next == word || (a ≠ [] && b ≠ [] && nearWord phonetics wordKey (phonetics.joinPhoneticKeys a b))

def holdsFrom (table : WordTable) (word wordKey : Bytes) : List Bytes → Bool
 | [] => false
 | one :: rest => holdsAt phonetics table word wordKey one rest.head? || holdsFrom table word wordKey rest

def holdsConfirmationWord (heard word : Bytes) (language : Language) : Bool :=
 let table := tableFor language
 let wordKey := phonetics.phoneticKeyFor language word
 if word = [] ∨ wordKey = [] then false
 else
  holdsFrom phonetics table word wordKey (splitFolded phonetics heard kMaxHeldWordScanBytes kMaxHeldWordScanBytes)

/-! ## What one word or two are heard as, they hold -/

variable {phonetics} {table : WordTable} {one two key word : Bytes} {words : List Bytes} {index : ℕ}

theorem idxOf_word (h : words.idxOf? word = some index) : words[index]? = some word := by
 rw [List.idxOf?, List.findIdx?_eq_some_iff_getElem] at h
 obtain ⟨hi, heq, -⟩ := h
 rw [List.getElem?_eq_getElem hi, eq_of_beq heq]

theorem soundsLikeFrom_near {language : Language} {i near : ℕ} {found : Option ℕ}
  (h : soundsLikeFrom phonetics language key words i found near = .word index) :
  found = some index ∨ ∃ k word, index = i + k ∧ words[k]? = some word ∧
   withinMargin phonetics key (phonetics.phoneticKeyFor language word) = true := by
 induction words generalizing i found near with
 | nil =>
  cases found with
  | none => exact absurd h (by simp [soundsLikeFrom])
  | some k =>
   rw [soundsLikeFrom] at h
   split at h
   · exact .inl (congrArg some (HeardWord.word.inj h))
   · exact absurd h (by simp)
 | cons word rest ih =>
  rw [soundsLikeFrom] at h
  split at h
  · next hclose =>
    split at h
    · exact absurd h (by simp)
    refine .inr ?_
    rcases ih h with hsome | ⟨k, later, hk, hrest⟩
    · refine ⟨0, word, (Option.some.inj hsome).symm, rfl, ?_⟩
      rw [withinMargin, decide_eq_true_eq]
      exact hclose.trans (Nat.le_add_right _ _)
    · exact ⟨k + 1, later, by omega, hrest⟩
  · rcases ih h with hsome | ⟨k, later, hk, hrest⟩
    · exact .inl hsome
    · exact .inr ⟨k + 1, later, by omega, hrest⟩

theorem soundsLike_near (h : soundsLike phonetics table key = .word index) (hword : table.words[index]? = some word) :
  nearWord phonetics (phonetics.phoneticKeyFor table.language word) key = true := by
 rw [soundsLike] at h
 split_ifs at h with hkey
 rcases soundsLikeFrom_near h with hfound | ⟨k, found, hk, hfound, hnear⟩
 · exact absurd hfound (by simp)
 · rw [Nat.zero_add] at hk
   rw [hk, hfound, Option.some.injEq] at hword
   rw [← hword, nearWord, hnear, Bool.and_true, decide_eq_true_eq]
   exact hkey

theorem hearOne_holds (h : hearOne phonetics table one = .word index) (hword : table.words[index]? = some word)
  (next : Option Bytes) :
  holdsAt phonetics table word (phonetics.phoneticKeyFor table.language word) one next = true := by
 unfold hearOne at h
 split at h
 · next hexact =>
   rw [HeardWord.word.inj h] at hexact
   have heq := (idxOf_word hexact).symm.trans hword
   simp [holdsAt, Option.some.inj heq]
 · split at h
   · next hplural =>
     rw [HeardWord.word.inj h] at hplural
     simp [holdsAt, hplural, hword]
   · split_ifs at h
     simp [holdsAt, soundsLike_near h hword]

theorem hearTwo_holds (h : hearTwo phonetics table one two = .word index) (hword : table.words[index]? = some word) :
  holdsAt phonetics table word (phonetics.phoneticKeyFor table.language word) one (some two) = true := by
 unfold hearTwo at h
 split at h
 · next hexact =>
   rw [HeardWord.word.inj h] at hexact
   have heq := (idxOf_word hexact).symm.trans hword
   simp [holdsAt, Option.some.inj heq]
 · dsimp only at h
   split_ifs at h with _ hkeys
   simp [holdsAt, hkeys, soundsLike_near h hword]

theorem holdsFrom_at {wordKey : Bytes} (before after : List Bytes)
  (h : holdsAt phonetics table word wordKey one after.head? = true) :
  holdsFrom phonetics table word wordKey (before ++ one :: after) = true := by
 induction before with
 | nil => rw [List.nil_append, holdsFrom, h, Bool.true_or]
 | cons _ before ih => rw [List.cons_append, holdsFrom, ih, Bool.or_true]

/-! ## The bytes that are read -/

def wordsWithin (phonetics : Phonetics) (heard : Bytes) (maxBytes : ℕ) : List Bytes :=
 splitFolded phonetics heard maxBytes kMaxHeldWordScanBytes

theorem splitFolded_few {heard : Bytes} {maxBytes maxWords : ℕ} (hmax : maxWords ≤ kMaxHeldWordScanBytes)
  (h : (splitFolded phonetics heard maxBytes maxWords).length ≤ maxWords) :
  splitFolded phonetics heard maxBytes maxWords = wordsWithin phonetics heard maxBytes := by
 rw [wordsWithin]
 rw [splitFolded] at h ⊢
 rw [splitFolded]
 generalize ((phonetics.foldForComparison (heard.take maxBytes)).splitOn 0x20).filter (· ≠ []) = ws at h ⊢
 rw [List.length_take] at h
 rw [List.take_of_length_le (by omega), List.take_of_length_le (by omega)]

def answerWords (table : WordTable) (words : List Bytes) : List Bytes :=
 let first := skipLeading table.leading 2 words
 (words.take (dropTrailing table.trailing words (first + 1) words.length words.length)).drop first

theorem answerWords_within (table : WordTable) (words : List Bytes) : answerWords table words <:+: words :=
 (List.drop_suffix _ _).isInfix.trans (List.take_prefix _ _).isInfix

def AnswerKept (phonetics : Phonetics) (heard : Bytes) (language : Language) : Prop :=
 answerWords (tableFor language) (wordsWithin phonetics heard kMaxHeardBytes) <:+:
  wordsWithin phonetics heard kMaxHeldWordScanBytes

theorem answerKept_of_prefix {heard : Bytes} (language : Language)
  (h : wordsWithin phonetics heard kMaxHeardBytes <+: wordsWithin phonetics heard kMaxHeldWordScanBytes) :
  AnswerKept phonetics heard language :=
 (answerWords_within _ _).trans h.isInfix

theorem answerKept_of_short {heard : Bytes} (language : Language) (h : heard.length ≤ kMaxHeardBytes) :
  AnswerKept phonetics heard language := by
 apply answerKept_of_prefix
 have hlong : heard.length ≤ kMaxHeldWordScanBytes := h.trans (by decide)
 rw [wordsWithin, wordsWithin, splitFolded, splitFolded, List.take_of_length_le h, List.take_of_length_le hlong]

theorem holds_of_hear {heard : Bytes} {language : Language}
  (hkeys : ∀ word ∈ confirmationWords language, word ≠ [] ∧ phonetics.phoneticKeyFor language word ≠ [])
  (hkept : AnswerKept phonetics heard language) (h : hearConfirmationWord phonetics heard language = .word index)
  (hword : (confirmationWords language)[index]? = some word) :
  holdsConfirmationWord phonetics heard word language = true := by
 obtain ⟨hne, hkey⟩ := hkeys word (List.mem_of_getElem? hword)
 have hlanguage : (tableFor language).language = language := by cases language <;> rfl
 rw [confirmationWords] at hword
 rw [holdsConfirmationWord, if_neg (not_or.2 ⟨hne, hkey⟩)]
 unfold hearConfirmationWord hearIn at h
 dsimp only at h
 split_ifs at h with hfew
 rw [not_or, Nat.not_lt] at hfew
 rw [splitFolded_few (by decide) hfew.2] at h
 obtain ⟨before, after, hwithin⟩ := hkept
 change holdsFrom phonetics (tableFor language) word _ (wordsWithin phonetics heard kMaxHeldWordScanBytes) = true
 rw [← hwithin, List.append_assoc]
 split at h
 · next one hone =>
   have hanswer : answerWords (tableFor language) (wordsWithin phonetics heard kMaxHeardBytes) = [one] := hone
   have hholds := hearOne_holds h hword after.head?
   rw [hlanguage] at hholds
   rw [hanswer]
   exact holdsFrom_at before after hholds
 · next one two htwo =>
   have hanswer : answerWords (tableFor language) (wordsWithin phonetics heard kMaxHeardBytes) = [one, two] := htwo
   have hholds := hearTwo_holds h hword
   rw [hlanguage] at hholds
   rw [hanswer]
   exact holdsFrom_at before (two :: after) hholds
 · exact absurd h (by simp)

end Held

/-! ## With the voice code's folding and keys -/

theorem confirmationWords_keys : ∀ language : Language, ∀ word ∈ confirmationWords language,
  word ≠ [] ∧ voicePhonetics.phoneticKeyFor language word ≠ [] := by
 intro language
 cases language <;> decide

/-- What is heard as a confirmation word holds it, unless the end of the first 200 bytes falls inside the answer. -/
theorem heard_word_held (heard : Bytes) (language : Language) (hkept : AnswerKept voicePhonetics heard language)
  (index : ℕ) (hheard : hearConfirmationWord voicePhonetics heard language = .word index) :
  ∃ word, (confirmationWords language)[index]? = some word ∧ holdsConfirmationWord voicePhonetics heard word language = true := by
 have hword := List.getElem?_eq_getElem (hearConfirmationWord_lt voicePhonetics hheard)
 exact ⟨_, hword, holds_of_hear (confirmationWords_keys language) hkept hheard hword⟩

theorem heard_word_held_harbor : ∃ word, (confirmationWords .english)[0]? = some word ∧
  holdsConfirmationWord voicePhonetics (utf8 "the harbour, please") word .english = true :=
 heard_word_held (utf8 "the harbour, please") .english (answerKept_of_short .english (by decide +kernel)) 0 (by decide +kernel)

/-- After 194 spaces a word that only begins with "harbor": the answer is read as "harbor", which nobody said. -/
def cutHarbor : Bytes := List.replicate 194 0x20 ++ utf8 "harborж"

theorem cut_word_not_held : ¬ ∀ (heard : Bytes) (language : Language) (index : ℕ),
  hearConfirmationWord voicePhonetics heard language = .word index →
  ∃ word, (confirmationWords language)[index]? = some word ∧
   holdsConfirmationWord voicePhonetics heard word language = true := by
 intro hclaim
 obtain ⟨word, hword, hholds⟩ := hclaim cutHarbor .english 0 (by decide +kernel)
 obtain rfl : utf8 "harbor" = word := Option.some.inj hword
 exact absurd hholds (by decide +kernel)

end MoltBrowser.ConfirmationWords
