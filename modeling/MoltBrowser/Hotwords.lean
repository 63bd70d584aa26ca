import MoltBrowser.PieceVocab
import Mathlib.Data.Finset.Insert

set_option autoImplicit false

/-! # The recognizer's hotwords (`speech_text.cc`) -/
namespace MoltBrowser.SpeechText
open List

def kMaxHotwordPhrases : ℕ := 200
def kMaxHotwordWords : ℕ := 6
def kMaxHotwordPhraseBytes : ℕ := 64
def kMaxHotwordsBytes : ℕ := 4096

abbrev TokenSet := Finset Bytes

def known (vocab : PieceVocab) (tokens : TokenSet) (piece : Bytes) : Bool := vocab.contains piece && decide (piece ∈ tokens)

def canSpellHotword (word : Bytes) (vocab : PieceVocab) (tokens : TokenSet) : Bool :=
 known vocab tokens kWordStart && (word.all fun c => known vocab tokens [c]) &&
  match vocab.split word with
  | none => false
  | some pieces => pieces.all (known vocab tokens)

def isAlphanumeric (c : UInt8) : Bool := isAsciiLetter c || isAsciiDigit c
def isHotwordByte (c : UInt8) : Bool := isAlphanumeric c || c == 0x27

def appendWith (separator : UInt8) (text added : Bytes) : Bytes := if text = [] then added else text ++ separator :: added

def nextWord (rest : Bytes) : Bytes := (rest.dropWhile fun c => !isHotwordByte c).takeWhile isHotwordByte

def afterWord (rest : Bytes) : Bytes := (rest.dropWhile fun c => !isHotwordByte c).dropWhile isHotwordByte

theorem afterWord_short {rest : Bytes} (hne : rest ≠ []) : (afterWord rest).length < rest.length := by
 rw [afterWord]
 cases hfrom : rest.dropWhile fun c => !isHotwordByte c with
 | nil => exact length_pos_of_ne_nil hne
 | cons c fromWord =>
  have hc : isHotwordByte c = true := by
   have hnot := head?_dropWhile_not (fun c => !isHotwordByte c) rest
   rw [hfrom] at hnot
   simpa using hnot
  have hle : (rest.dropWhile fun c => !isHotwordByte c).length ≤ rest.length := (dropWhile_suffix _).length_le
  rw [hfrom] at hle
  rw [dropWhile_cons_of_pos hc]
  exact ((dropWhile_suffix isHotwordByte).length_le).trans_lt hle

/-- The words of one phrase, from what is left of it. -/
def cleanPhrase (vocab : PieceVocab) (tokens : TokenSet) (rest phrase : Bytes) (words : ℕ) : Bytes :=
 if h : rest = [] ∨ kMaxHotwordWords ≤ words then phrase
 else if nextWord rest = [] ∨ ¬ (nextWord rest).any isAlphanumeric ∨ ¬ canSpellHotword (nextWord rest) vocab tokens then
  cleanPhrase vocab tokens (afterWord rest) phrase words
 else if kMaxHotwordPhraseBytes < (appendWith 0x20 phrase (nextWord rest)).length then phrase
 else cleanPhrase vocab tokens (afterWord rest) (appendWith 0x20 phrase (nextWord rest)) (words + 1)
termination_by rest.length
decreasing_by all_goals exact afterWord_short (not_or.mp h).1

structure Hotwords where
 result : Bytes := []
 seen : Finset Bytes := ∅
 count : ℕ := 0

def addPhrases (vocab : PieceVocab) (tokens : TokenSet) : List Bytes → Hotwords → Bytes
 | [], h => h.result
 | raw :: phrases, h =>
  if h.count = kMaxHotwordPhrases then h.result
  else
   let phrase := cleanPhrase vocab tokens raw [] 0
   if phrase = [] ∨ phrase ∈ h.seen then addPhrases vocab tokens phrases h
   else if kMaxHotwordsBytes < (appendWith 0x2F h.result phrase).length then h.result
   else addPhrases vocab tokens phrases ⟨appendWith 0x2F h.result phrase, insert phrase h.seen, h.count + 1⟩

def hotwordsArgument (phrases : List Bytes) (vocab : PieceVocab) (tokens : TokenSet) : Bytes := addPhrases vocab tokens phrases {}

/-! ## What it is made of -/

structure IsHotword (vocab : PieceVocab) (tokens : TokenSet) (word : Bytes) : Prop where
 bytes : ∀ c ∈ word, isHotwordByte c = true
 spoken : ∃ c ∈ word, isAlphanumeric c = true
 marked : known vocab tokens kWordStart = true
 spelled : ∀ c ∈ word, known vocab tokens [c] = true

structure IsHotwordPhrase (vocab : PieceVocab) (tokens : TokenSet) (phrase : Bytes) : Prop where
 nonempty : phrase ≠ []
 fits : phrase.length ≤ kMaxHotwordPhraseBytes
 few : (phrase.splitOn 0x20).length ≤ kMaxHotwordWords
 words : ∀ word ∈ phrase.splitOn 0x20, IsHotword vocab tokens word

def phrasesOf (argument : Bytes) : List Bytes := if argument = [] then [] else argument.splitOn 0x2F

/-- Nothing in it but words that can be spelled, a space between two and a slash between two phrases. -/
structure CarriesNoSyntax (vocab : PieceVocab) (tokens : TokenSet) (argument : Bytes) : Prop where
 fits : argument.length ≤ kMaxHotwordsBytes
 bytes : ∀ c ∈ argument, isHotwordByte c = true ∨ c = 0x20 ∨ c = 0x2F
 few : (phrasesOf argument).length ≤ kMaxHotwordPhrases
 distinct : (phrasesOf argument).Nodup
 phrases : ∀ phrase ∈ phrasesOf argument, IsHotwordPhrase vocab tokens phrase

/-! ## Texts joined with a separator -/

variable {parts : List Bytes}

theorem intercalate_snoc (separator : UInt8) (hne : parts ≠ []) (added : Bytes) :
  [separator].intercalate (parts ++ [added]) = [separator].intercalate parts ++ separator :: added := by
 induction parts with
 | nil => exact absurd rfl hne
 | cons part parts ih =>
  cases parts with
  | nil =>
   rw [intercalate_singleton, cons_append, nil_append, intercalate_cons_cons, intercalate_singleton,
    append_assoc]
   rfl
  | cons next parts =>
   rw [cons_append, cons_append, intercalate_cons_cons, intercalate_cons_cons, ← cons_append,
    ih (cons_ne_nil _ _)]
   simp only [append_assoc]

theorem mem_intercalate {separator c : UInt8} (h : c ∈ [separator].intercalate parts) :
  c = separator ∨ ∃ part ∈ parts, c ∈ part := by
 induction parts with
 | nil => exact absurd h not_mem_nil
 | cons part parts ih =>
  cases parts with
  | nil =>
   rw [intercalate_singleton] at h
   exact .inr ⟨part, mem_cons_self, h⟩
  | cons next parts =>
   rw [intercalate_cons_cons, append_assoc] at h
   cases mem_append.mp h with
   | inl h => exact .inr ⟨part, mem_cons_self, h⟩
   | inr h =>
    cases mem_cons.mp h with
    | inl h => exact .inl h
    | inr h =>
     refine (ih h).imp_right ?_
     rintro ⟨part', hpart', hc⟩
     exact ⟨part', mem_cons_of_mem _ hpart', hc⟩

theorem intercalate_ne_nil (separator : UInt8) (hne : parts ≠ []) (hparts : ∀ part ∈ parts, part ≠ []) :
  [separator].intercalate parts ≠ [] := by
 cases parts with
 | nil => exact absurd rfl hne
 | cons part parts =>
  have hpart := hparts part mem_cons_self
  cases parts with
  | nil =>
   rw [intercalate_singleton]
   exact hpart
  | cons next parts =>
   rw [intercalate_cons_cons, append_assoc]
   exact append_ne_nil_of_left_ne_nil hpart _

theorem appendWith_intercalate (separator : UInt8) (hparts : ∀ part ∈ parts, part ≠ []) (added : Bytes) :
  appendWith separator ([separator].intercalate parts) added = [separator].intercalate (parts ++ [added]) := by
 cases parts with
 | nil => rw [intercalate_nil, appendWith, if_pos rfl, nil_append, intercalate_singleton]
 | cons part parts =>
  rw [appendWith, if_neg (intercalate_ne_nil separator (cons_ne_nil _ _) hparts),
   intercalate_snoc separator (cons_ne_nil _ _)]

/-! ## One phrase -/

section

variable {vocab : PieceVocab} {tokens : TokenSet}

variable {word : Bytes}

theorem IsHotword.ne_nil (h : IsHotword vocab tokens word) : word ≠ [] := by
 obtain ⟨c, hc, -⟩ := h.spoken
 exact ne_nil_of_mem hc

theorem isHotword_of_spelled (hbytes : ∀ c ∈ word, isHotwordByte c = true) (hspoken : word.any isAlphanumeric = true)
  (hspelled : canSpellHotword word vocab tokens = true) : IsHotword vocab tokens word := by
 rw [canSpellHotword, Bool.and_eq_true, Bool.and_eq_true, all_eq_true] at hspelled
 exact ⟨hbytes, any_eq_true.mp hspoken, hspelled.1.1, hspelled.1.2⟩

structure PhraseOf (vocab : PieceVocab) (tokens : TokenSet) (phrase : Bytes) (ws : List Bytes) : Prop where
 joined : phrase = [0x20].intercalate ws
 fits : phrase.length ≤ kMaxHotwordPhraseBytes
 few : ws.length ≤ kMaxHotwordWords
 words : ∀ word ∈ ws, IsHotword vocab tokens word

variable {phrase : Bytes} {ws : List Bytes}

theorem PhraseOf.snoc (h : PhraseOf vocab tokens phrase ws) (hword : IsHotword vocab tokens word)
  (hfew : ws.length < kMaxHotwordWords) (hfits : (appendWith 0x20 phrase word).length ≤ kMaxHotwordPhraseBytes) :
  PhraseOf vocab tokens (appendWith 0x20 phrase word) (ws ++ [word]) where
 joined := by rw [h.joined, appendWith_intercalate 0x20 fun w hw => (h.words w hw).ne_nil]
 fits := hfits
 few := by rwa [length_append, length_singleton, Nat.succ_le_iff]
 words w hw := by
  cases mem_append.mp hw with
  | inl hw => exact h.words w hw
  | inr hw => exact mem_singleton.mp hw ▸ hword

theorem cleanPhrase_spec (rest phrase : Bytes) (words : ℕ) (hws : ws.length = words)
  (h : PhraseOf vocab tokens phrase ws) : ∃ ws', PhraseOf vocab tokens (cleanPhrase vocab tokens rest phrase words) ws' := by
 induction rest, phrase, words using cleanPhrase.induct vocab tokens generalizing ws with
 | case1 rest phrase words hdone =>
  rw [cleanPhrase, dif_pos hdone]
  exact ⟨ws, h⟩
 | case2 rest phrase words hmore hskip ih =>
  rw [cleanPhrase, dif_neg hmore, if_pos hskip]
  exact ih hws h
 | case3 rest phrase words hmore hword hfull =>
  rw [cleanPhrase, dif_neg hmore, if_neg hword, if_pos hfull]
  exact ⟨ws, h⟩
 | case4 rest phrase words hmore hword hfits ih =>
  rw [cleanPhrase, dif_neg hmore, if_neg hword, if_neg hfits]
  rw [not_or, not_le] at hmore
  rw [not_or, not_or, not_not, not_not] at hword
  have hbytes : ∀ c ∈ nextWord rest, isHotwordByte c = true := fun c hc => mem_takeWhile_imp hc
  refine ih ?_ (h.snoc (isHotword_of_spelled hbytes hword.2.1 hword.2.2) (hws.symm ▸ hmore.2) (not_lt.mp hfits))
  rw [length_append, length_singleton, hws]

theorem PhraseOf.isHotwordPhrase (h : PhraseOf vocab tokens phrase ws) (hne : phrase ≠ []) :
  IsHotwordPhrase vocab tokens phrase := by
 have hws : ws ≠ [] := by
  rintro rfl
  exact hne (h.joined.trans intercalate_nil)
 have hfree : ∀ word ∈ ws, (0x20 : UInt8) ∉ word := fun word hword hmem => absurd ((h.words word hword).bytes _ hmem) (by decide)
 have hsplit : phrase.splitOn 0x20 = ws := by
  rw [h.joined]
  exact splitOn_intercalate _ hfree hws
 refine ⟨hne, h.fits, ?_, ?_⟩
 · rw [hsplit]
   exact h.few
 · rw [hsplit]
   exact h.words

theorem IsHotwordPhrase.bytes (h : IsHotwordPhrase vocab tokens phrase) :
  ∀ c ∈ phrase, isHotwordByte c = true ∨ c = 0x20 := by
 intro c hc
 rw [← @intercalate_splitOn _ phrase _ _ 0x20] at hc
 cases mem_intercalate hc with
 | inl heq => exact .inr heq
 | inr hword =>
  obtain ⟨word, hword, hc⟩ := hword
  exact .inl ((h.words word hword).bytes c hc)

/-! ## The phrases together -/

structure ArgumentOf (vocab : PieceVocab) (tokens : TokenSet) (h : Hotwords) (ps : List Bytes) : Prop where
 joined : h.result = [0x2F].intercalate ps
 fits : h.result.length ≤ kMaxHotwordsBytes
 counted : ps.length = h.count
 few : h.count ≤ kMaxHotwordPhrases
 distinct : ps.Nodup
 seen : ∀ phrase ∈ ps, phrase ∈ h.seen
 phrases : ∀ phrase ∈ ps, IsHotwordPhrase vocab tokens phrase

variable {h : Hotwords} {ps : List Bytes}

theorem ArgumentOf.carriesNoSyntax (hargument : ArgumentOf vocab tokens h ps) :
  CarriesNoSyntax vocab tokens h.result := by
 have hphrases : phrasesOf h.result = ps := by
  rw [phrasesOf, hargument.joined]
  cases ps with
  | nil => exact if_pos intercalate_nil
  | cons phrase ps =>
   have hne := intercalate_ne_nil 0x2F (cons_ne_nil phrase ps) fun p hp => (hargument.phrases p hp).nonempty
   rw [if_neg hne]
   refine splitOn_intercalate _ (fun p hp hmem => ?_) (cons_ne_nil _ _)
   exact absurd ((hargument.phrases p hp).bytes _ hmem) (by decide)
 refine ⟨hargument.fits, fun c hc => ?_, ?_, ?_, ?_⟩
 · rw [hargument.joined] at hc
   cases mem_intercalate hc with
   | inl heq => exact .inr (.inr heq)
   | inr hphrase =>
    obtain ⟨phrase, hphrase, hc⟩ := hphrase
    exact ((hargument.phrases phrase hphrase).bytes c hc).imp_right .inl
 · rw [hphrases, hargument.counted]
   exact hargument.few
 · rw [hphrases]
   exact hargument.distinct
 · rw [hphrases]
   exact hargument.phrases

theorem ArgumentOf.snoc (hargument : ArgumentOf vocab tokens h ps)
  (hphrase : IsHotwordPhrase vocab tokens phrase) (hnew : phrase ∉ h.seen) (hcount : h.count ≠ kMaxHotwordPhrases)
  (hfits : (appendWith 0x2F h.result phrase).length ≤ kMaxHotwordsBytes) :
  ArgumentOf vocab tokens ⟨appendWith 0x2F h.result phrase, insert phrase h.seen, h.count + 1⟩ (ps ++ [phrase]) where
 joined := by
  rw [hargument.joined]
  exact appendWith_intercalate 0x2F (fun p hp => (hargument.phrases p hp).nonempty) phrase
 fits := hfits
 counted := by rw [length_append, length_singleton, hargument.counted]
 few := Nat.succ_le_of_lt (lt_of_le_of_ne hargument.few hcount)
 distinct := by
  rw [nodup_append]
  refine ⟨hargument.distinct, nodup_singleton phrase, fun p hp q hq heq => ?_⟩
  exact hnew ((heq.trans (mem_singleton.mp hq)) ▸ hargument.seen p hp)
 seen p hp := by
  cases mem_append.mp hp with
  | inl hp => exact Finset.mem_insert_of_mem (hargument.seen p hp)
  | inr hp => exact mem_singleton.mp hp ▸ Finset.mem_insert_self phrase h.seen
 phrases p hp := by
  cases mem_append.mp hp with
  | inl hp => exact hargument.phrases p hp
  | inr hp => exact mem_singleton.mp hp ▸ hphrase

theorem addPhrases_carriesNoSyntax (raws : List Bytes) (hargument : ArgumentOf vocab tokens h ps) :
  CarriesNoSyntax vocab tokens (addPhrases vocab tokens raws h) := by
 induction raws generalizing h ps with
 | nil => exact hargument.carriesNoSyntax
 | cons raw raws ih =>
  rw [addPhrases]
  dsimp only
  split_ifs with hcount hskip hfull
  · exact hargument.carriesNoSyntax
  · exact ih hargument
  · exact hargument.carriesNoSyntax
  · rw [not_or] at hskip
    have hempty : PhraseOf vocab tokens [] [] := ⟨intercalate_nil.symm, Nat.zero_le _, Nat.zero_le _, fun _ hw => absurd hw not_mem_nil⟩
    obtain ⟨ws, hws⟩ := cleanPhrase_spec raw [] 0 rfl hempty
    exact ih (hargument.snoc (hws.isHotwordPhrase hskip.1) hskip.2 hcount (not_lt.mp hfull))

end

/-- Whatever the phrases, the argument is words that the pieces spell, with nothing else between them. -/
theorem hotwordsArgument_carriesNoSyntax (phrases : List Bytes) (vocab : PieceVocab) (tokens : TokenSet) :
  CarriesNoSyntax vocab tokens (hotwordsArgument phrases vocab tokens) :=
 addPhrases_carriesNoSyntax phrases
  ⟨List.intercalate_nil.symm, Nat.zero_le _, rfl, Nat.zero_le _, List.nodup_nil, fun _ h => absurd h List.not_mem_nil,
   fun _ h => absurd h List.not_mem_nil⟩

end MoltBrowser.SpeechText
