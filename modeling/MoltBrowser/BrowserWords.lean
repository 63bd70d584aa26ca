import MoltBrowser.ConfirmationWords

set_option autoImplicit false

/-!
# The browser's own words (`voice_session_logic.cc`)

Whether what the browser said lately holds a wake phrase, or every word heard.
The fewer texts count as lately said, the less is taken for the browser's voice.
-/
namespace MoltBrowser.BrowserWords
open List

def kMaxSaidBytes : ℕ := 4096

/-- Code elsewhere: `spoken_text.cc`, `voice_said_aloud.cc` and `phonetic_key.cc`. -/
structure Sounds where
 foldForComparison : Bytes → Bytes
 saidAloudWords : Bytes → ℕ → Bytes
 phoneticKey : Bytes → Bytes
 phoneticDistance : Bytes → Bytes → ℕ → ℕ

def spokenWords (text : Bytes) : List Bytes :=
 let words := text.splitOn 0x20
 if words.getLast? = some [] then words.dropLast else words

def lastWord (text : Bytes) : Bytes := (text.reverse.takeWhile (· ≠ 0x20)).reverse

def beforeLastWord (text : Bytes) : Bytes := ((text.reverse.dropWhile (· ≠ 0x20)).drop 1).reverse

def hasWords (haystack needle : Bytes) : Bool :=
 needle ≠ [] && (List.range (haystack.length + 1)).any fun i =>
  needle.isPrefixOf (haystack.drop i) && (i = 0 || haystack[i - 1]? = some 0x20) &&
   (i + needle.length = haystack.length || haystack[i + needle.length]? = some 0x20)

section Sounds

variable (sounds : Sounds)

def saidWords (text : Bytes) : Bytes :=
 let text := text.take kMaxSaidBytes
 let words := sounds.foldForComparison text
 let aloud := sounds.foldForComparison (sounds.saidAloudWords text kMaxSaidBytes)
 if aloud = [] then words else if words = [] then aloud else words ++ 0x20 :: aloud

def soundsLikeName (word name key : Bytes) : Bool :=
 if name.isPrefixOf word then true
 else word.length + 1 ≥ name.length && word.length ≤ name.length + 2 &&
  sounds.phoneticKey word = key

def soundsLikeFirst (word first firstKey : Bytes) : Bool :=
 if word = first then true
 else
  let key := sounds.phoneticKey word
  key ≠ [] && firstKey ≠ [] && sounds.phoneticDistance key firstKey 1 ≤ 1

/-- The loop of `SaysSoundAlike` over the words, after `previous`. -/
def soundAlikeIn (name key first firstKey : Bytes) : Bytes → List Bytes → Bool
 | _, [] => false
 | previous, word :: rest =>
  (soundsLikeName sounds word name key &&
    (first = [] || previous ≠ [] && soundsLikeFirst sounds previous first firstKey)) ||
   soundAlikeIn name key first firstKey word rest

def saysSoundAlike (haystack phrase : Bytes) : Bool :=
 let name := lastWord phrase
 let first := lastWord (beforeLastWord phrase)
 let key := sounds.phoneticKey name
 if name.length < 4 || key.length < 3 then false
 else soundAlikeIn sounds name key first (sounds.phoneticKey first) [] (spokenWords haystack)

def saysPhrase (phrases : List Bytes) (text : Bytes) : Bool :=
 phrases.any fun phrase =>
  let folded := sounds.foldForComparison phrase
  hasWords text folded || saysSoundAlike sounds text folded

def sayingFrom (said : List (ℤ × Bytes)) (time : ℤ) : ℕ :=
 said.zipIdx.foldl (fun start entry => if entry.1.1 ≤ time then entry.2 - 1 else start) 0

/-- The loop of `SaidWakePhrase`; `previous` is the last word of the text before. -/
def saysPhraseFrom (phrases : List Bytes) (lately : ℤ → Bool) : Bytes → List (ℤ × Bytes) → Bool
 | _, [] => false
 | previous, (noted, words) :: rest =>
  if !lately noted then saysPhraseFrom phrases lately [] rest
  else
   let joined := if previous = [] then words else previous ++ 0x20 :: words
   saysPhrase sounds phrases joined || saysPhraseFrom phrases lately (lastWord words) rest

def saidPhrase (phrases : List Bytes) (lately : ℤ → Bool) (said : List (ℤ × Bytes)) (time : ℤ) :
  Bool :=
 saysPhraseFrom sounds phrases lately [] (said.drop (sayingFrom said time))

def echoOf (lately : ℤ → Bool) (said : List (ℤ × Bytes)) (text : Bytes) : Bool :=
 let folded := sounds.foldForComparison (text.take kMaxSaidBytes)
 folded ≠ [] && (spokenWords folded).all fun word =>
  said.any fun entry => lately entry.1 && hasWords entry.2 word

end Sounds

/-! ### More texts hold more words -/

theorem lastWord_no_space (text : Bytes) : ∀ c ∈ lastWord text, c ≠ 0x20 := by
 intro c hc
 have hmem := mem_takeWhile_imp (mem_reverse.1 hc)
 simpa using hmem

theorem lastWord_not_mem (text : Bytes) : (0x20 : UInt8) ∉ lastWord text :=
 fun hmem => lastWord_no_space text _ hmem rfl

theorem spokenWords_cons {word : Bytes} (hword : (0x20 : UInt8) ∉ word) (text : Bytes) :
  spokenWords (word ++ 0x20 :: text) = word :: spokenWords text := by
 unfold spokenWords
 dsimp only
 rw [splitOn_append_cons_self_of_not_mem hword]
 cases hsplit : text.splitOn 0x20 with
 | nil => exact absurd hsplit (splitOn_ne_nil _ _)
 | cons first rest =>
  rw [getLast?_cons_cons, dropLast_cons_of_ne_nil (cons_ne_nil _ _)]
  split <;> rfl

theorem hasWords_cons {needle text : Bytes} (word : Bytes) (h : hasWords text needle = true) :
  hasWords (word ++ 0x20 :: text) needle = true := by
 unfold hasWords at h ⊢
 simp only [Bool.and_eq_true, any_eq_true, mem_range, Bool.or_eq_true,
  decide_eq_true_eq] at h ⊢
 obtain ⟨hne, i, hi, ⟨hstarts, hbefore⟩, hafter⟩ := h
 have hdrop : (word ++ 0x20 :: text).drop (word.length + 1 + i) = text.drop i := by
  rw [Nat.add_assoc, drop_append, drop_eq_nil_of_le (Nat.le_add_right _ _),
   Nat.add_sub_cancel_left, Nat.add_comm 1 i, drop_succ_cons, nil_append]
 have hget : ∀ k, (word ++ 0x20 :: text)[word.length + 1 + k]? = text[k]? := by
  intro k
  rw [getElem?_append_right (by omega)]
  rw [show word.length + 1 + k - word.length = k + 1 by omega, getElem?_cons_succ]
 refine ⟨hne, word.length + 1 + i, ?_, ⟨by rw [hdrop]; exact hstarts, Or.inr ?_⟩, ?_⟩
 · simp only [length_append, length_cons]
   omega
 · rcases Nat.eq_zero_or_pos i with rfl | hpos
   · rw [show word.length + 1 + 0 - 1 = word.length by omega]
     simp
   · rw [show word.length + 1 + i - 1 = word.length + 1 + (i - 1) by omega, hget]
     exact hbefore.resolve_left hpos.ne'
 · rcases hafter with hend | hspace
   · left
     simp only [length_append, length_cons]
     omega
   · right
     rw [Nat.add_assoc, hget]
     exact hspace

section Mono

variable (sounds : Sounds)

theorem soundAlikeIn_mono {name key first firstKey : Bytes} {words : List Bytes}
  (previous : Bytes) (h : soundAlikeIn sounds name key first firstKey [] words = true) :
  soundAlikeIn sounds name key first firstKey previous words = true := by
 cases words with
 | nil => exact h
 | cons word rest =>
  simp only [soundAlikeIn, Bool.or_eq_true, Bool.and_eq_true, decide_eq_true_eq] at h ⊢
  rcases h with ⟨hname, hfirst | hprevious⟩ | hrest
  · exact Or.inl ⟨hname, Or.inl hfirst⟩
  · simp at hprevious
  · exact Or.inr hrest

variable {text : Bytes}

theorem saysSoundAlike_cons {word phrase : Bytes} (hword : (0x20 : UInt8) ∉ word)
  (h : saysSoundAlike sounds text phrase = true) :
  saysSoundAlike sounds (word ++ 0x20 :: text) phrase = true := by
 unfold saysSoundAlike at h ⊢
 dsimp only at h ⊢
 split at h
 · exact absurd h (by simp)
 · next hlong =>
   rw [if_neg hlong, spokenWords_cons hword, soundAlikeIn, Bool.or_eq_true]
   exact Or.inr (soundAlikeIn_mono sounds word h)

variable {phrases : List Bytes}

theorem saysPhrase_cons {word : Bytes} (hword : (0x20 : UInt8) ∉ word)
  (h : saysPhrase sounds phrases text = true) :
  saysPhrase sounds phrases (word ++ 0x20 :: text) = true := by
 unfold saysPhrase at h ⊢
 rw [any_eq_true] at h ⊢
 obtain ⟨phrase, hmem, hsays⟩ := h
 refine ⟨phrase, hmem, ?_⟩
 rw [Bool.or_eq_true] at hsays ⊢
 exact hsays.imp (hasWords_cons word) (saysSoundAlike_cons sounds hword)

variable {fewer more : ℤ → Bool} {said : List (ℤ × Bytes)}

/-- Over the same texts: more of them lately said, and more known of the text before. -/
theorem saysPhraseFrom_mono
  (hmore : ∀ noted, fewer noted = true → more noted = true)
  {short long : Bytes} (hlong : (0x20 : UInt8) ∉ long) (hshort : short = [] ∨ short = long)
  (h : saysPhraseFrom sounds phrases fewer short said = true) :
  saysPhraseFrom sounds phrases more long said = true := by
 induction said generalizing short long with
 | nil => exact absurd h (by simp [saysPhraseFrom])
 | cons entry rest ih =>
  obtain ⟨noted, words⟩ := entry
  rw [saysPhraseFrom] at h ⊢
  cases hfew : fewer noted with
  | false =>
   rw [hfew] at h
   cases hmany : more noted with
   | false => exact ih (by simp) (Or.inl rfl) h
   | true =>
    simp only [Bool.not_true, Bool.false_eq_true, if_false, Bool.or_eq_true]
    exact Or.inr (ih (lastWord_not_mem words) (Or.inl rfl) h)
  | true =>
   rw [hfew] at h
   rw [hmore noted hfew]
   simp only [Bool.not_true, Bool.false_eq_true, if_false, Bool.or_eq_true] at h ⊢
   rcases h with hsays | hrest
   · left
     rcases hshort with rfl | rfl
     · rw [if_pos rfl] at hsays
       split
       · exact hsays
       · exact saysPhrase_cons sounds hlong hsays
     · exact hsays
   · exact Or.inr (ih (lastWord_not_mem words) (Or.inr rfl) hrest)

theorem saysPhraseFrom_drop
  (hmore : ∀ noted, fewer noted = true → more noted = true) (k : ℕ)
  {long : Bytes} (hlong : (0x20 : UInt8) ∉ long)
  (h : saysPhraseFrom sounds phrases fewer [] (said.drop k) = true) :
  saysPhraseFrom sounds phrases more long said = true := by
 induction k generalizing said long with
 | zero => exact saysPhraseFrom_mono sounds hmore hlong (Or.inl rfl) h
 | succ k ih =>
  cases said with
  | nil => exact absurd h (by simp [saysPhraseFrom])
  | cons entry rest =>
   obtain ⟨noted, words⟩ := entry
   rw [drop_succ_cons] at h
   rw [saysPhraseFrom]
   split
   · exact ih (by simp) h
   · dsimp only
     rw [Bool.or_eq_true]
     exact Or.inr (ih (lastWord_not_mem words) h)

variable {earlier later : ℤ}

theorem foldl_sayingFrom_le (hle : earlier ≤ later)
  (said : List (ℤ × Bytes)) (i a b : ℕ) (hab : a ≤ b) (hb : b ≤ i) (ha : a ≤ i - 1) :
  (said.zipIdx i).foldl (fun start entry => if entry.1.1 ≤ earlier then entry.2 - 1 else start) a ≤
   (said.zipIdx i).foldl (fun start entry => if entry.1.1 ≤ later then entry.2 - 1 else start)
    b := by
 induction said generalizing i a b with
 | nil => exact hab
 | cons entry rest ih =>
  rw [zipIdx_cons, foldl_cons, foldl_cons]
  dsimp only
  split
  · next hearlier =>
    rw [if_pos (hearlier.trans hle)]
    exact ih _ _ _ le_rfl (by omega) (by omega)
  · split
    · exact ih _ _ _ ha (by omega) (by omega)
    · exact ih _ _ _ hab (by omega) (by omega)

theorem sayingFrom_mono (hle : earlier ≤ later) (said : List (ℤ × Bytes)) :
  sayingFrom said earlier ≤ sayingFrom said later :=
 foldl_sayingFrom_le hle said 0 0 0 le_rfl le_rfl (Nat.zero_le _)

theorem saidPhrase_mono
  (hmore : ∀ noted, fewer noted = true → more noted = true)
  (hle : earlier ≤ later)
  (h : saidPhrase sounds phrases fewer said later = true) :
  saidPhrase sounds phrases more said earlier = true := by
 unfold saidPhrase at h ⊢
 have hfrom := sayingFrom_mono hle said
 refine saysPhraseFrom_drop sounds hmore (sayingFrom said later - sayingFrom said earlier)
  (by simp) ?_
 rw [drop_drop, Nat.add_sub_cancel' hfrom]
 exact h

theorem echoOf_mono
  (hmore : ∀ noted, fewer noted = true → more noted = true)
  (h : echoOf sounds fewer said text = true) :
  echoOf sounds more said text = true := by
 unfold echoOf at h ⊢
 simp only [Bool.and_eq_true, all_eq_true, any_eq_true] at h ⊢
 refine ⟨h.1, fun word hword => ?_⟩
 obtain ⟨entry, hmem, hlately, hhas⟩ := h.2 word hword
 exact ⟨entry, hmem, hmore _ hlately, hhas⟩

end Mono

end MoltBrowser.BrowserWords
