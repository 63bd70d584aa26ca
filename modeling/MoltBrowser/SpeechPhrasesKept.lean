import MoltBrowser.ConfigFrames
import MoltBrowser.SpeechPhrases
import MoltBrowser.SpokenReading

set_option autoImplicit false

/-!
# The phrases the browser sends

A reduced phrase is short and spelled in letters, digits and apostrophes, and a wake phrase of
lettered words is reduced to itself.
-/
namespace MoltBrowser.SpeechPhrases
open List
open ConfigFrames (lowered normalizeWakePhrase PhraseReading)
open SpokenText (SpokenWord Reading readFrom line line_cons_cons)
open Voice (decodeAt)

variable {s w word out source : Bytes} {words : List Bytes} {p q : Phrase}

/-! ## What a phrase is made of -/

def Spelled (s : Bytes) : Prop := ∀ c ∈ s, isPhraseByte c = true ∨ c = 0x20

theorem spelled_nil : Spelled [] := nofun

theorem Spelled.append {t : Bytes} (hs : Spelled s) (ht : Spelled t) : Spelled (s ++ t) :=
 fun c hc => (mem_append.1 hc).elim (hs c) (ht c)

theorem spelled_word (h : isPhraseWord word = true) : Spelled word := by
 rw [isPhraseWord, Bool.and_eq_true, all_eq_true] at h
 exact fun c hc => .inl (h.2 c hc)

theorem Spelled.appendWord (hword : Spelled word) (hout : Spelled out) : Spelled (appendWord word out) := by
 have hspace : Spelled [0x20] := fun c hc => .inr (mem_singleton.1 hc)
 rw [SpeechPhrases.appendWord]
 split_ifs
 · exact hword
 · exact (hout.append hspace).append hword

theorem appendWord_length (word out : Bytes) :
  (appendWord word out).length = out.length + (word.length + if out = [] then 0 else 1) := by
 rw [appendWord]
 split_ifs with hnew
 · simp [hnew]
 · simp only [length_append, length_singleton]
   omega

theorem spelled_kept (hwords : ∀ word ∈ words, isPhraseWord word = true) (hout : Spelled out) :
  Spelled (words.foldl (fun kept part => appendWord part kept) out) := by
 induction words generalizing out with
 | nil => exact hout
 | cons word words ih =>
  rw [foldl_cons]
  apply ih
  · exact fun v hv => hwords v (mem_cons_of_mem _ hv)
  · exact (spelled_word (hwords word mem_cons_self)).appendWord hout

theorem reducedWord_spelled (source : Bytes) (word : SpokenWord) : Spelled (reducedWord source word) := by
 rw [reducedWord]
 generalize (if word.numeric = true then numberAsWords word.text
  else if ordinalAsWords word.text ≠ [] then ordinalAsWords word.text
  else (asciiWordWithApostrophes ((source.drop word.sourceBegin).take (word.sourceEnd - word.sourceBegin))).getD
   word.text) = reduced
 split_ifs with hpart
 · exact spelled_kept (fun part hpart => (mem_filter.1 hpart).2) spelled_nil
 · cases hword : isPhraseWord reduced with
   | true => exact spelled_word hword
   | false =>
    rw [hword, Bool.not_false, Bool.true_and, Bool.not_eq_true, Bool.not_eq_false', List.isEmpty_iff] at hpart
    exact hpart ▸ spelled_nil

/-! ## The parts between spaces -/

theorem part_space (s : Bytes) : ∀ w ∈ s.splitOn 0x20, (0x20 : UInt8) ∉ w := by
 induction s with
 | nil =>
  intro w hw
  rw [splitOn_nil, mem_singleton] at hw
  subst hw
  exact not_mem_nil
 | cons b s ih =>
  intro w hw
  rw [splitOn_cons_eq_if_modifyHead] at hw
  obtain ⟨first, rest, hsplit⟩ := exists_cons_of_ne_nil (splitOn_ne_nil 0x20 s)
  rw [hsplit] at ih hw
  split_ifs at hw with hspace
  · rcases mem_cons.1 hw with rfl | hw
    · exact not_mem_nil
    · exact ih w hw
  · rw [modifyHead_cons] at hw
    rcases mem_cons.1 hw with rfl | hw
    · rw [mem_cons, not_or]
      exact ⟨fun h => hspace (beq_iff_eq.2 h.symm), ih first mem_cons_self⟩
    · exact ih w (mem_cons_of_mem _ hw)

theorem line_within {ws : List Bytes} (hw : w ∈ ws) : w <:+: line ws := by
 induction ws with
 | nil => exact absurd hw not_mem_nil
 | cons v ws ih =>
  cases ws with
  | nil =>
   obtain rfl := mem_singleton.1 hw
   exact (SpokenText.line_single w).symm ▸ infix_rfl
  | cons next ws =>
   rw [line_cons_cons]
   rcases mem_cons.1 hw with rfl | hw
   · exact (prefix_append w _).isInfix
   · exact (ih hw).trans ((suffix_cons 0x20 _).trans (suffix_append v _)).isInfix

theorem part_within (hw : w ∈ s.splitOn 0x20) : w <:+: s := by
 have hwithin := line_within hw
 rwa [line, intercalate_splitOn] at hwithin

theorem Spelled.part (hs : Spelled s) (hw : w ∈ s.splitOn 0x20) : Spelled w :=
 fun c hc => hs c ((part_within hw).subset hc)

/-! ## Within the caps -/

structure Phrase.Fits (p : Phrase) : Prop where
 spelled : Spelled p.phrase
 bytes : p.phrase.length ≤ kMaxPhraseBytes

theorem appendPhraseWords_cons (hne : word ≠ []) (words : List Bytes) (p : Phrase) :
  appendPhraseWords (word :: words) p =
   if kMaxPhraseWords ≤ p.count ∨ kMaxPhraseBytes < (appendWord word p.phrase).length then (false, p)
   else appendPhraseWords words ⟨appendWord word p.phrase, p.count + 1⟩ := by
 rw [appendPhraseWords, if_neg hne, appendWord_length]

theorem appendPhraseWords_fits (hwords : ∀ word ∈ words, Spelled word) (hp : p.Fits) :
  (appendPhraseWords words p).2.Fits := by
 induction words generalizing p with
 | nil => exact hp
 | cons word words ih =>
  have hlater : ∀ v ∈ words, Spelled v := fun v hv => hwords v (mem_cons_of_mem _ hv)
  by_cases hempty : word = []
  · rw [appendPhraseWords, if_pos hempty]
    exact ih hlater hp
  · rw [appendPhraseWords_cons hempty]
    split_ifs with hfull
    · exact hp
    · rw [not_or, Nat.not_lt] at hfull
      exact ih hlater ⟨(hwords word mem_cons_self).appendWord hp.spelled, hfull.2⟩

theorem reduceWords_fits (source : Bytes) (words : List SpokenWord) (hp : p.Fits) : (reduceWords source words p).Fits := by
 induction words generalizing p with
 | nil => exact hp
 | cons word words ih =>
  rw [reduceWords]
  split_ifs
  · exact ih hp
  · have hmore : (appendPhraseWords ((reducedWord source word).splitOn 0x20) p).2.Fits := appendPhraseWords_fits
     (fun part hpart => (reducedWord_spelled source word).part hpart) hp
    split
    · rename_i heq
      rw [heq] at hmore
      exact ih hmore
    · rename_i heq
      rw [heq] at hmore
      exact hmore

theorem reduceSpeechPhrase_fits (text : Bytes) :
  Spelled (reduceSpeechPhrase text) ∧ (reduceSpeechPhrase text).length ≤ kMaxPhraseBytes := by
 have hfits : Phrase.Fits {} := ⟨spelled_nil, Nat.zero_le _⟩
 have hdone := reduceWords_fits (text.take Voice.kMaxSpeechScanBytes)
  (SpokenText.normalizeSpokenText (text.take Voice.kMaxSpeechScanBytes) { maxWords := kMaxPhraseWords * 2 }).words hfits
 exact ⟨hdone.spelled, hdone.bytes⟩

/-! ## Wake phrases that are clean already -/

def LetteredWords (phrase : Bytes) : Prop :=
 ∀ w ∈ phrase.splitOn 0x20, w.head?.any isAsciiLetter ∧ w.getLast?.any isAsciiLetter

instance (phrase : Bytes) : Decidable (LetteredWords phrase) :=
 inferInstanceAs (Decidable (∀ w ∈ phrase.splitOn 0x20, w.head?.any isAsciiLetter ∧ w.getLast?.any isAsciiLetter))

def isLower (c : UInt8) : Bool := 0x61 ≤ c && c ≤ 0x7A

theorem lowered_letter (c : UInt8) (h : ConfigFrames.isAsciiLetter c = true ∨ c = 0x27) :
  isLower (lowered c) = true ∨ lowered c = 0x27 :=
 StreamFilters.forall_byte (p := fun c => ConfigFrames.isAsciiLetter c = true ∨ c = 0x27 →
  isLower (lowered c) = true ∨ lowered c = 0x27) (by decide +kernel) c h

/-- What has been read of a wake phrase: every word after the first has a space before it. -/
structure Normal (p : PhraseReading) : Prop where
 bytes : ∀ c ∈ p.result, (isLower c = true ∨ c = 0x27) ∨ c = 0x20
 spaces : p.result.count 0x20 + 1 ≤ p.words ∨ (p.result = [] ∧ p.inWord = false)
 words : p.words ≤ ConfigFrames.kMaxWakePhraseWords

theorem Normal.push {p : PhraseReading} {c : UInt8} (h : Normal p) (hin : p.result.count 0x20 + 1 ≤ p.words)
  (hc : ConfigFrames.isAsciiLetter c = true ∨ c = 0x27) : Normal (p.push c) := by
 have hlow := lowered_letter c hc
 refine ⟨?_, .inl ?_, h.words⟩
 · intro d hd
   rcases mem_append.1 hd with hd | hd
   · exact h.bytes d hd
   · rw [mem_singleton.1 hd]
     exact .inl hlow
 · have hnot : lowered c ≠ 0x20 := by
    intro hspace
    rw [hspace] at hlow
    exact absurd hlow (by decide)
   rw [PhraseReading.push, count_append, count_singleton, beq_eq_false_iff_ne.2 hnot]
   exact hin

theorem Normal.beginWord {p : PhraseReading} (h : Normal p) (hroom : p.words + 1 ≤ ConfigFrames.kMaxWakePhraseWords) :
  Normal p.beginWord ∧ p.beginWord.result.count 0x20 + 1 ≤ p.beginWord.words := by
 rw [PhraseReading.beginWord]
 split_ifs with hfirst
 · rw [append_nil]
   refine ⟨⟨h.bytes, .inl ?_, hroom⟩, ?_⟩
   all_goals simp [hfirst]
 · have hspaces := h.spaces.resolve_right fun hnone => hfirst hnone.1
   have hcount : (p.result ++ [0x20]).count 0x20 + 1 ≤ p.words + 1 := by
    rw [count_append, count_singleton_self]
    exact Nat.succ_le_succ hspaces
   refine ⟨⟨?_, .inl hcount, hroom⟩, hcount⟩
   intro d hd
   rcases mem_append.1 hd with hd | hd
   · exact h.bytes d hd
   · exact .inr (mem_singleton.1 hd)

theorem Normal.turn {p q : PhraseReading} {c : UInt8} (h : Normal p) (hturn : p.turn c = some q) : Normal q := by
 rw [PhraseReading.turn] at hturn
 split_ifs at hturn with hspace hletterless hbyte hin hfull
 · obtain rfl := Option.some.inj hturn
   exact ⟨h.bytes, h.spaces.imp_right fun h => ⟨h.1, rfl⟩, h.words⟩
 all_goals
  obtain rfl := Option.some.inj hturn
  rw [not_and_or, Bool.not_eq_true, Bool.not_eq_false', not_not] at hbyte
 · exact h.push (h.spaces.resolve_right fun hnone => Bool.noConfusion (hin.symm.trans hnone.2)) hbyte
 · obtain ⟨hbegun, hspaces⟩ := h.beginWord (Nat.not_lt.1 hfull)
   exact hbegun.push hspaces hbyte

theorem Normal.foldlM {p q : PhraseReading} {s : Bytes} (h : Normal p) (hread : s.foldlM PhraseReading.turn p = some q) :
  Normal q := by
 induction s generalizing p with
 | nil =>
  obtain rfl := Option.some.inj hread
  exact h
 | cons c s ih =>
  rw [foldlM_cons] at hread
  obtain ⟨next, hturn, hread⟩ := Option.bind_eq_some_iff.1 hread
  exact ih (h.turn hturn) hread

theorem wakePhrase_bytes {phrase : Bytes} (h : normalizeWakePhrase phrase = some phrase) :
  (∀ c ∈ phrase, (isLower c = true ∨ c = 0x27) ∨ c = 0x20) ∧ phrase.count 0x20 + 1 ≤ 4 ∧ phrase.length ≤ 64 ∧ phrase ≠ [] := by
 rw [normalizeWakePhrase] at h
 split_ifs at h with hlong
 rw [not_or, Nat.not_lt] at hlong
 obtain ⟨p, hread, hdone⟩ := Option.bind_eq_some_iff.1 h
 split_ifs at hdone
 obtain rfl := Option.some.inj hdone
 have hnormal : Normal p := Normal.foldlM ⟨forall_mem_nil _, .inr ⟨rfl, rfl⟩, Nat.zero_le _⟩ hread
 exact ⟨hnormal.bytes, (hnormal.spaces.resolve_right fun hnone => hlong.1 hnone.1).trans hnormal.words, hlong.2, hlong.1⟩

/-! ## Reading a lettered word -/

/-- The rest of a word: letters, and apostrophes with a letter after them. -/
inductive Inside : Bytes → Prop
 | nil : Inside []
 | letter {c : UInt8} {s : Bytes} : isLower c = true → Inside s → Inside (c :: s)
 | apostrophe {c : UInt8} {s : Bytes} : isLower c = true → Inside s → Inside (0x27 :: c :: s)

theorem inside_of : ∀ s : Bytes, (∀ c ∈ s, isLower c = true ∨ c = 0x27) → s.getLast? ≠ some 0x27 → ¬ [0x27, 0x27] <:+: s → Inside s
 | [], _, _, _ => .nil
 | [c], hbytes, hlast, _ => .letter ((hbytes c mem_cons_self).resolve_right fun h => hlast (by rw [h]; rfl)) .nil
 | c :: d :: s, hbytes, hlast, hpairs => by
  have hlater : Inside (d :: s) := inside_of (d :: s) (fun b hb => hbytes b (mem_cons_of_mem _ hb))
   (by rwa [getLast?_cons_cons] at hlast) fun h => hpairs (h.trans (suffix_cons c _).isInfix)
  rcases hbytes c mem_cons_self with hc | rfl
  · exact .letter hc hlater
  · cases hlater with
    | letter hd hs => exact .apostrophe hd hs
    | apostrophe hd hs => exact absurd ⟨[], _, rfl⟩ hpairs

structure Lettered (w : Bytes) : Prop where
 starts : ∃ c s, w = c :: s ∧ isLower c = true ∧ Inside s
 bytes : ∀ c ∈ w, isLower c = true ∨ c = 0x27
 last : w.getLast? ≠ some 0x27
 pairs : ¬ [0x27, 0x27] <:+: w

def letters (w : Bytes) : Bytes := w.filter (· ≠ 0x27)

variable {text rest : Bytes} {options : SpokenText.NormalizeOptions} {r : Reading} {v : SpokenWord} {c : UInt8}

theorem lower_facts (c : UInt8) (h : isLower c = true) :
  c < 0x80 ∧ c ≠ 0x27 ∧ SpokenText.classify c.toNat = .kWord ∧ SpokenText.fold c.toNat = [c] ∧ isPhraseByte c = true ∧
   isAsciiDigit c = false ∧ SpokenText.isAsciiDigit c = false :=
 StreamFilters.forall_byte (p := fun c => isLower c = true →
  c < 0x80 ∧ c ≠ 0x27 ∧ SpokenText.classify c.toNat = .kWord ∧ SpokenText.fold c.toNat = [c] ∧ isPhraseByte c = true ∧
   isAsciiDigit c = false ∧ SpokenText.isAsciiDigit c = false) (by decide +kernel) c h

theorem letters_cons (hc : isLower c = true) (s : Bytes) : letters (c :: s) = c :: letters s :=
 filter_cons_of_pos (by simpa using (lower_facts c hc).2.1)

theorem readFrom_letter (hc : isLower c = true) (h : r.truncated = false)
  (hroom : r.word.isSome ∨ r.words.length < options.maxWords) (rest : Bytes) :
  readFrom text options r (c :: rest) = readFrom text options
   (r.grow [c] (text.length - (c :: rest).length) (text.length - (c :: rest).length + 1)) rest := by
 obtain ⟨hascii, -, hclass, hfold, -⟩ := lower_facts c hc
 obtain ⟨ch, hch, hencode⟩ := BoundedJson.char_of_ascii hascii
 have hread := @SpokenText.readFrom_char text options r h ch rest
 rw [SpokenText.turn_char, hch, if_pos hclass, if_neg, hfold, hencode] at hread
 · exact hread
 · rintro ⟨hnone, hfull⟩
   rw [Option.isNone_iff_eq_none] at hnone
   rw [hnone, Option.isSome_none] at hroom
   exact absurd (hroom.resolve_left Bool.false_ne_true) (by omega)

theorem readFrom_apostrophe (hc : isLower c = true) (h : r.truncated = false) (hword : r.word = some v) (rest : Bytes) :
  readFrom text options r (0x27 :: c :: rest) = readFrom text options r (c :: rest) := by
 obtain ⟨hascii, -, hclass, -⟩ := lower_facts c hc
 obtain ⟨ch, hch, hencode⟩ := BoundedJson.char_of_ascii hascii
 have hquote : Json.encode (Char.ofNat 0x27) = [0x27] := by decide
 have hread := @SpokenText.readFrom_char text options r h (Char.ofNat 0x27) (c :: rest)
 have hdecode := SpokenText.decodeAt_encode ch rest
 rw [hencode, singleton_append] at hdecode
 have hgoes : SpokenText.wordGoesOn (c :: rest) = true := by
  rw [SpokenText.wordGoesOn, hdecode, hch, hclass]
  rfl
 rw [SpokenText.turn_char, if_neg (by decide), if_neg (by decide), if_pos ⟨by decide, by rw [hword]; rfl, hgoes⟩, hquote] at hread
 exact hread

theorem readFrom_inside (hs : Inside s) (h : r.truncated = false) (hword : r.word = some v)
  (hend : v.sourceEnd + (s ++ rest).length = text.length) :
  readFrom text options r (s ++ rest) = readFrom text options
   { r with word := some { v with text := v.text ++ letters s, sourceEnd := v.sourceEnd + s.length } } rest := by
 induction hs generalizing r v with
 | nil =>
  have hsame : { v with text := v.text ++ letters [], sourceEnd := v.sourceEnd + ([] : Bytes).length } = v := by
   simp [letters]
  rw [hsame, ← hword, nil_append]
 | @letter c s hc hs ih =>
  have hpos : text.length - (c :: (s ++ rest)).length = v.sourceEnd := by
   rw [cons_append] at hend
   omega
  rw [cons_append, readFrom_letter hc h (.inl (by rw [hword]; rfl)), hpos, Reading.grow, hword]
  have hmore := @ih { r with word := some { v with text := v.text ++ [c], sourceEnd := v.sourceEnd + 1 } } _ h rfl (by
   rw [cons_append, length_cons] at hend
   dsimp only
   omega)
  refine hmore.trans ?_
  have hsum : v.sourceEnd + 1 + s.length = v.sourceEnd + (c :: s).length := by
   simp only [length_cons]
   omega
  dsimp only
  rw [letters_cons hc, hsum, append_assoc, singleton_append]
 | @apostrophe c s hc hs ih =>
  have hpos : text.length - (c :: (s ++ rest)).length = v.sourceEnd + 1 := by
   rw [cons_append, cons_append, length_cons] at hend
   omega
  rw [cons_append, cons_append, readFrom_apostrophe hc h hword,
   readFrom_letter hc h (.inl (by rw [hword]; rfl)), hpos, Reading.grow, hword]
  have hmore := @ih { r with word := some { v with text := v.text ++ [c], sourceEnd := v.sourceEnd + 1 + 1 } } _ h rfl (by
   rw [cons_append, cons_append, length_cons, length_cons] at hend
   dsimp only
   omega)
  refine hmore.trans ?_
  have hdrop : letters (0x27 :: c :: s) = letters (c :: s) := filter_cons_of_neg (by decide)
  have hsum : v.sourceEnd + 1 + 1 + s.length = v.sourceEnd + (0x27 :: c :: s).length := by
   simp only [length_cons]
   omega
  dsimp only
  rw [hdrop, letters_cons hc, hsum, append_assoc, singleton_append]

/-! ## Reading the words of a phrase -/

/-- A word as it is read: its letters, and where it stands. -/
structure Taken (source : Bytes) (v : SpokenWord) (w : Bytes) : Prop where
 text : v.text = letters w
 source : (source.drop v.sourceBegin).take (v.sourceEnd - v.sourceBegin) = w
 numeric : v.numeric = false

theorem readFrom_lettered (hw : Lettered w) {before : Bytes} (htext : text = before ++ (w ++ rest)) (h : r.truncated = false)
  (hnone : r.word = none) (hroom : r.words.length < options.maxWords) :
  readFrom text options r (w ++ rest) = readFrom text options
   { r with word := some { text := letters w, sourceBegin := before.length, sourceEnd := before.length + w.length } } rest := by
 obtain ⟨c, s, rfl, hc, hs⟩ := hw.starts
 have hpos : text.length - (c :: (s ++ rest)).length = before.length := by
  rw [htext, length_append, cons_append]
  omega
 have hfirst := @readFrom_letter text options r c hc h (.inr hroom) (s ++ rest)
 rw [hpos, Reading.grow, hnone] at hfirst
 have hmore := @readFrom_inside s text rest options
  { r with word := some { sourceBegin := before.length, text := [c], sourceEnd := before.length + 1 } } _ hs h rfl (by
   rw [htext]
   simp only [length_append, length_cons]
   omega)
 have hsum : before.length + 1 + s.length = before.length + (c :: s).length := by
  rw [length_cons]
  omega
 rw [letters_cons hc, ← hsum]
 exact hfirst.trans hmore

theorem finishWord_taken (hw : Lettered w) {before : Bytes} (htext : text = before ++ (w ++ rest)) : ∃ done : SpokenWord,
  Reading.finishWord text
    { r with word := some { text := letters w, sourceBegin := before.length, sourceEnd := before.length + w.length } } =
   { r with word := none, words := r.words ++ [done] } ∧ Taken text done w := by
 obtain ⟨c, s, hcons, hc, -⟩ := hw.starts
 have hletters : letters w = c :: letters s := by rw [hcons, letters_cons hc]
 refine ⟨_, if_neg (by rw [hletters]; exact cons_ne_nil _ _), rfl, ?_, ?_⟩
 · rw [htext, drop_left, Nat.add_sub_cancel_left, take_left]
 · dsimp only
   rw [hletters, all_cons, (lower_facts c hc).2.2.2.2.2.2, Bool.false_and]

theorem readFrom_words {ws : List Bytes} {before : Bytes} (hws : ∀ w ∈ ws, Lettered w) (htext : text = before ++ line ws)
  (h : r.truncated = false) (hnone : r.word = none) (hmarks : options.marks = false)
  (hroom : r.words.length + ws.length ≤ options.maxWords) :
  ∃ vs, ((readFrom text options r (line ws)).finishWord text).words = r.words ++ vs ∧ List.Forall₂ (Taken text) vs ws := by
 induction ws generalizing r before with
 | nil =>
  refine ⟨[], ?_, .nil⟩
  rw [line, intercalate_nil, readFrom, SpokenText.finishWord_none hnone, append_nil]
 | cons w ws ih =>
  have hw := hws w mem_cons_self
  rw [length_cons] at hroom
  cases ws with
  | nil =>
   rw [SpokenText.line_single, ← append_nil w] at htext
   obtain ⟨done, hfinish, htaken⟩ := @finishWord_taken w text [] r hw before htext
   refine ⟨[done], ?_, .cons htaken .nil⟩
   rw [SpokenText.line_single, ← append_nil w, readFrom_lettered hw htext h hnone (by omega), readFrom, hfinish]
  | cons next ws =>
   rw [line_cons_cons] at htext ⊢
   obtain ⟨done, hfinish, htaken⟩ := @finishWord_taken w text _ r hw before htext
   have hrest : text = (before ++ (w ++ [0x20])) ++ line (next :: ws) := by
    rw [htext]
    simp
   obtain ⟨vs, hwords, hall⟩ := @ih { r with word := none, words := r.words ++ [done] } _
    (fun u hu => hws u (mem_cons_of_mem _ hu)) hrest h rfl (by
     simp only [length_append, length_cons, length_nil] at hroom ⊢
     omega)
   refine ⟨done :: vs, ?_, .cons htaken hall⟩
   rw [readFrom_lettered hw htext h hnone (by omega),
    SpokenText.readFrom_space (r := { r with word := some _ }) h hmarks (line (next :: ws)), hfinish, hwords]
   simp

/-! ## Words that stay as they are -/

theorem plainApostrophes_self (hbytes : ∀ c ∈ w, isLower c = true ∨ c = 0x27) : plainApostrophes w = some w := by
 induction w with
 | nil => rfl
 | cons c w ih =>
  have hkept : isAsciiLetter c || isAsciiDigit c || c == 0x27 := by
   rcases hbytes c mem_cons_self with hc | rfl
   · exact (lower_facts c hc).2.2.2.2.1
   · decide
  have hlead : c ≠ 0xE2 := by
   rintro rfl
   exact absurd hkept (by decide)
  rw [plainApostrophes, if_pos hkept, ih fun d hd => hbytes d (mem_cons_of_mem _ hd)]
  · rfl
  · exact fun _ hc => absurd hc hlead

theorem Lettered.ascii (hw : Lettered w) : asciiWordWithApostrophes w = some w := by
 obtain ⟨c, s, rfl, hc, -⟩ := hw.starts
 have hfront : (c :: s).dropWhile (· == 0x27) = c :: s := dropWhile_cons_of_neg (by simpa using (lower_facts c hc).2.1)
 have hback : (c :: s).rdropWhile (· == 0x27) = c :: s := by
  rw [rdropWhile_eq_self_iff]
  intro hne hquote
  rw [beq_iff_eq] at hquote
  exact hw.last (by rw [getLast?_eq_some_getLast hne, hquote])
 rw [asciiWordWithApostrophes, plainApostrophes_self hw.bytes, Option.bind_eq_bind, Option.bind_some, hfront, hback]
 exact if_neg hw.pairs

theorem Lettered.phraseWord (hw : Lettered w) : isPhraseWord w = true := by
 obtain ⟨c, s, rfl, -⟩ := hw.starts
 rw [isPhraseWord, isEmpty_cons, Bool.not_false, Bool.true_and, all_eq_true]
 intro d hd
 rcases hw.bytes d hd with hlow | rfl
 · exact (lower_facts d hlow).2.2.2.2.1
 · decide

theorem ordinalAsWords_letter (hc : isLower c = true) (s : Bytes) : ordinalAsWords (c :: s) = [] := by
 have hcardinal : ∀ n, numberAsWords ((c :: s).take n) = [] := by
  intro n
  cases n with
  | zero => rfl
  | succ n =>
   rw [numberAsWords, if_pos]
   rw [take_succ_cons, all_cons, (lower_facts c hc).2.2.2.2.2.1, Bool.false_and]
   exact .inr (.inr Bool.false_ne_true)
 rw [ordinalAsWords, hcardinal, if_pos rfl]
 dsimp only
 split_ifs
 · rfl
 · rfl
 · rfl

theorem reducedWord_taken (hw : Lettered w) (h : Taken source v w) : reducedWord source v = w := by
 obtain ⟨c, s, hcons, hc, -⟩ := hw.starts
 have hordinal : ordinalAsWords v.text = [] := by rw [h.text, hcons, letters_cons hc, ordinalAsWords_letter hc]
 have hreduced : (if v.numeric = true then numberAsWords v.text
   else if ordinalAsWords v.text ≠ [] then ordinalAsWords v.text
   else (asciiWordWithApostrophes ((source.drop v.sourceBegin).take (v.sourceEnd - v.sourceBegin))).getD v.text) = w := by
  rw [h.numeric, if_neg Bool.false_ne_true, if_neg (fun hne => hne hordinal), h.source, hw.ascii, Option.getD_some]
 rw [reducedWord, hreduced, hw.phraseWord]
 rfl

/-! ## A wake phrase is reduced to itself -/

theorem appendWord_le (words : List Bytes) (out : Bytes) :
  out.length ≤ (words.foldl (fun out w => appendWord w out) out).length := by
 induction words generalizing out with
 | nil => exact Nat.le_refl _
 | cons w words ih =>
  have hmore := ih (appendWord w out)
  rw [appendWord_length] at hmore
  rw [foldl_cons]
  omega

theorem foldl_appendWord (words : List Bytes) (hout : out ≠ []) :
  words.foldl (fun out w => appendWord w out) out = out ++ words.flatMap fun v => 0x20 :: v := by
 induction words generalizing out with
 | nil => simp
 | cons w words ih =>
  have hnext : appendWord w out = out ++ 0x20 :: w := by
   rw [appendWord, if_neg hout, append_assoc, singleton_append]
  rw [foldl_cons, hnext, ih (by simp), flatMap_cons, append_assoc]

theorem reduceWords_taken {vs : List SpokenWord} {ws : List Bytes} (hws : ∀ w ∈ ws, Lettered w)
  (h : List.Forall₂ (Taken source) vs ws) (hcount : p.count + ws.length ≤ kMaxPhraseWords)
  (hbytes : (ws.foldl (fun out w => appendWord w out) p.phrase).length ≤ kMaxPhraseBytes) :
  (reduceWords source vs p).phrase = ws.foldl (fun out w => appendWord w out) p.phrase := by
 induction h generalizing p with
 | nil => rfl
 | @cons v w vs ws htaken _ ih =>
  have hw := hws w mem_cons_self
  rw [length_cons] at hcount
  rw [foldl_cons] at hbytes ⊢
  have hne : w ≠ [] := by
   obtain ⟨c, s, rfl, -⟩ := hw.starts
   exact cons_ne_nil _ _
  have hsplit : w.splitOn 0x20 = [w] := by
   apply splitOn_eq_singleton
   intro hspace
   exact absurd (hw.bytes _ hspace) (by decide)
  have hfits := (appendWord_le ws (appendWord w p.phrase)).trans hbytes
  rw [reduceWords, reducedWord_taken hw htaken, if_neg hne, hsplit, appendPhraseWords_cons hne,
   if_neg (by rw [not_or, Nat.not_lt]; exact ⟨by omega, hfits⟩), appendPhraseWords]
  exact @ih ⟨appendWord w p.phrase, p.count + 1⟩ (fun u hu => hws u (mem_cons_of_mem _ hu))
   (by dsimp only; omega) hbytes

theorem line_count {ws : List Bytes} (hws : ∀ w ∈ ws, (0x20 : UInt8) ∉ w) (hne : ws ≠ []) :
  (line ws).count 0x20 + 1 = ws.length := by
 induction ws with
 | nil => exact absurd rfl hne
 | cons w ws ih =>
  have hw := count_eq_zero.2 (hws w mem_cons_self)
  cases ws with
  | nil => rw [SpokenText.line_single, hw, length_singleton]
  | cons next ws =>
   have hmore := ih (fun u hu => hws u (mem_cons_of_mem _ hu)) (cons_ne_nil _ _)
   rw [line_cons_cons, count_append, hw, count_cons_self, Nat.zero_add, hmore]
   rfl

theorem lettered_parts {phrase : Bytes} (hbytes : ∀ c ∈ phrase, (isLower c = true ∨ c = 0x27) ∨ c = 0x20)
  (hletters : LetteredWords phrase) (hpairs : ¬ [0x27, 0x27] <:+: phrase) : ∀ w ∈ phrase.splitOn 0x20, Lettered w := by
 intro w hw
 have hspace := part_space phrase w hw
 have hwithin := part_within hw
 obtain ⟨hhead, hlast⟩ := hletters w hw
 have hwbytes : ∀ c ∈ w, isLower c = true ∨ c = 0x27 := by
  intro c hc
  exact (hbytes c (hwithin.subset hc)).resolve_right fun h => hspace (h ▸ hc)
 have hend : w.getLast? ≠ some 0x27 := by
  intro hquote
  rw [hquote] at hlast
  exact absurd hlast (by decide)
 have hno : ¬ [0x27, 0x27] <:+: w := fun h => hpairs (h.trans hwithin)
 refine ⟨?_, hwbytes, hend, hno⟩
 cases inside_of w hwbytes hend hno with
 | nil => exact absurd hhead (by simp)
 | letter hc hs => exact ⟨_, _, rfl, hc, hs⟩
 | apostrophe =>
  have hletter : isAsciiLetter 0x27 = true := hhead
  exact absurd hletter (by decide)

/-- A clean wake phrase of lettered words, no two apostrophes in a row, is reduced to itself. -/
theorem reduceSpeechPhrase_self {phrase : Bytes} (h : normalizeWakePhrase phrase = some phrase)
  (hletters : LetteredWords phrase) (hpairs : ¬ [0x27, 0x27] <:+: phrase) : reduceSpeechPhrase phrase = phrase := by
 obtain ⟨hbytes, hwords, hlen, hne⟩ := wakePhrase_bytes h
 have hparts := lettered_parts hbytes hletters hpairs
 have hphrase : line (phrase.splitOn 0x20) = phrase := intercalate_splitOn 0x20
 have hcount := line_count (part_space phrase) (splitOn_ne_nil 0x20 phrase)
 rw [hphrase] at hcount
 have hscan : phrase.take Voice.kMaxSpeechScanBytes = phrase :=
  take_of_length_le (hlen.trans (by decide))
 have hwhole : phrase.take (2 ^ 30) = phrase := take_of_length_le (hlen.trans (by norm_num))
 obtain ⟨vs, hread, htaken⟩ := @readFrom_words phrase { maxWords := kMaxPhraseWords * 2 } {} (phrase.splitOn 0x20) []
  hparts hphrase.symm rfl rfl rfl (by
   change 0 + (phrase.splitOn 0x20).length ≤ 12
   omega)
 rw [hphrase, nil_append] at hread
 have hfold : (phrase.splitOn 0x20).foldl (fun out w => appendWord w out) [] = phrase := by
  cases hsplit : phrase.splitOn 0x20 with
  | nil => exact absurd hsplit (splitOn_ne_nil 0x20 phrase)
  | cons w ws =>
   obtain ⟨c, s, hcons, -⟩ := (hparts w (hsplit ▸ mem_cons_self)).starts
   rw [hsplit, SpokenText.line_eq] at hphrase
   rw [foldl_cons, show appendWord w [] = w from rfl, foldl_appendWord ws (by rw [hcons]; exact cons_ne_nil _ _)]
   exact hphrase
 have hreduced := @reduceWords_taken phrase {} vs _ hparts htaken (by
   change 0 + (phrase.splitOn 0x20).length ≤ 6
   omega) (by
   rw [hfold]
   exact hlen)
 rw [hfold] at hreduced
 rw [reduceSpeechPhrase, hscan, SpokenText.normalizeSpokenText, hwhole]
 dsimp only
 rw [if_neg Bool.false_ne_true, hread]
 exact hreduced

end MoltBrowser.SpeechPhrases
