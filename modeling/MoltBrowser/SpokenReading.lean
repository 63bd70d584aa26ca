import MoltBrowser.SpokenCleaning

set_option autoImplicit false

/-!
# The words of a line of folded words are those words

What is read of a clean text is written in folded characters and takes no more bytes than the
text, and a line of such words is read as it is written.
-/
namespace MoltBrowser.SpokenText
open List
open BoundedJson (valid_char encode_eq)
open DisplayCleaning (encode_ne_nil)
open Json (encode)
open Voice (decodeAt)

variable {text rest : Bytes} {options : NormalizeOptions} {r : Reading} {c : Char} {cs : List Char} {n : ℕ}

/-! ## One turn -/

theorem fold_undecoded : ∀ n < 0x80,
  (((0x61 ≤ UInt8.ofNat n ∧ UInt8.ofNat n ≤ 0x7A) ∨ (0x30 ≤ UInt8.ofNat n ∧ UInt8.ofNat n ≤ 0x39)) →
   classify n = .kWord ∧ fold n = [UInt8.ofNat n]) ∧
  ((0x41 ≤ UInt8.ofNat n ∧ UInt8.ofNat n ≤ 0x5A) →
   classify n = .kWord ∧ fold n = [UInt8.ofNat n - 0x41 + 0x61]) := by decide

theorem encode_head (c : Char) (rest : Bytes) (h : (encode c ++ rest).headD 0 < 0x80) :
  encode c = [(encode c ++ rest).headD 0] ∧ c.toNat < 0x80 ∧ (encode c ++ rest).headD 0 = UInt8.ofNat c.toNat := by
 rcases Nat.lt_or_ge c.toNat 0x80 with hascii | hhigh
 · rw [BoundedJson.encode_ascii hascii]
   exact ⟨rfl, hascii, rfl⟩
 · obtain ⟨b0, s, bits, heq, h0, -⟩ := DisplayCleaning.char_continuation hhigh rest
   rw [heq] at h
   exact absurd h h0

theorem turn_char (r : Reading) (c : Char) (rest : Bytes) : r.turn text options (encode c ++ rest) =
  if classify c.toNat = .kWord then
   if r.word.isNone ∧ options.maxWords ≤ r.words.length then (1, { r with truncated := true })
   else ((encode c).length, r.grow (fold c.toNat) (text.length - (encode c ++ rest).length)
    (text.length - (encode c ++ rest).length + (encode c).length))
  else if classify c.toNat = .kIgnorable then ((encode c).length, r)
  else if classify c.toNat = .kApostrophe ∧ r.word.isSome ∧ wordGoesOn rest then ((encode c).length, r)
  else if c.toNat = 0x2C ∧ r.word.isSome ∧ isDigitGroup text (text.length - (encode c ++ rest).length) then (1, r)
  else ((encode c).length, (r.finishWord text).readMark text options
   (text.length - (encode c ++ rest).length) c.toNat) := by
 have hlen := length_pos_iff.2 (encode_ne_nil c)
 have hhead := encode_head c rest
 rw [Reading.turn]
 simp only [decodeAt_encode, drop_left]
 generalize hb : (encode c ++ rest).headD 0 = b at hhead ⊢
 by_cases hsmall : r.word.isSome ∧ ((0x61 ≤ b ∧ b ≤ 0x7A) ∨ (0x30 ≤ b ∧ b ≤ 0x39))
 · have hlow : b < 0x80 := by
    rcases hsmall.2 with h | h
    · exact UInt8.lt_of_le_of_lt h.2 (by decide)
    · exact UInt8.lt_of_le_of_lt h.2 (by decide)
   obtain ⟨hone, hascii, rfl⟩ := hhead hlow
   obtain ⟨hword, hfold⟩ := (fold_undecoded _ hascii).1 hsmall.2
   rw [if_pos hsmall, if_pos hword, if_neg (by simp [Option.isSome_iff_ne_none.1 hsmall.1]), hfold, hone]
   rfl
 rw [if_neg hsmall]
 by_cases hcapital : r.word.isSome ∧ 0x41 ≤ b ∧ b ≤ 0x5A
 · obtain ⟨hone, hascii, rfl⟩ := hhead (UInt8.lt_of_le_of_lt hcapital.2.2 (by decide))
   obtain ⟨hword, hfold⟩ := (fold_undecoded _ hascii).2 hcapital.2
   rw [if_pos hcapital, if_pos hword, if_neg (by simp [Option.isSome_iff_ne_none.1 hcapital.1]), hfold, hone]
   rfl
 rw [if_neg hcapital, if_neg hlen.ne']

theorem readFrom_truncated (h : r.truncated = true) (rest : Bytes) : readFrom text options r rest = r := by
 cases rest with
 | nil => rw [readFrom]
 | cons b rest => rw [readFrom, if_pos h]

theorem readFrom_char (h : r.truncated = false) (c : Char) (rest : Bytes) :
  readFrom text options r (encode c ++ rest) = readFrom text options (r.turn text options (encode c ++ rest)).2 rest := by
 have htaken : (r.turn text options (encode c ++ rest)).1 = (encode c).length ∨
   (r.turn text options (encode c ++ rest)).2.truncated = true := by
  rw [turn_char]
  split_ifs with hword hfull hignored hinside hcomma
  · exact .inr rfl
  · exact .inl rfl
  · exact .inl rfl
  · exact .inl rfl
  · refine .inl ?_
    rw [encode_eq, if_pos (by omega)]
    rfl
  · exact .inl rfl
 cases hencode : encode c with
 | nil => exact absurd hencode (encode_ne_nil c)
 | cons b tail =>
  rw [hencode] at htaken
  rw [cons_append] at htaken ⊢
  rw [readFrom, h, if_neg Bool.false_ne_true]
  rcases htaken with htaken | htruncated
  · rw [htaken, length_cons, Nat.add_sub_cancel, drop_left]
  · rw [readFrom_truncated htruncated, readFrom_truncated htruncated]

/-! ## What is read of a clean text -/

def Written (w : Bytes) : Prop := ∃ ds, ds ≠ [] ∧ w = spell ds ∧ ∀ d ∈ ds, Folded d ∧ Shown d

theorem Written.ne_nil {w : Bytes} (h : Written w) : w ≠ [] := by
 obtain ⟨ds, hne, rfl, -⟩ := h
 exact fun hnil => hne (spell_eq_nil.1 hnil)

def Reading.used (r : Reading) : ℕ := (r.words.map fun w => w.text.length + 1).sum + r.word.elim 0 (·.text.length)

structure Reading.Within (r : Reading) (n : ℕ) : Prop where
 words : ∀ w ∈ r.words, Written w.text
 word : ∀ w ∈ r.word, Written w.text
 used : r.used ≤ n

theorem Reading.Within.mono (h : r.Within n) {k : ℕ} (hk : n ≤ k) : r.Within k := ⟨h.words, h.word, h.used.trans hk⟩

theorem Reading.Within.grow (h : r.Within n) (hword : classify c.toNat = .kWord) (hshown : Shown c) (first last : ℕ) :
  (r.grow (fold c.toNat) first last).Within (n + (encode c).length) := by
 obtain ⟨ds, hne, hfold, hlen, hds⟩ := fold_spec hword
 refine ⟨h.words, fun w hw => ?_, ?_⟩
 · obtain rfl := Option.some.inj hw
   cases hopen : r.word with
   | none => exact ⟨ds, hne, by simpa [spell] using hfold, fun d hd => ⟨(hds d hd).1, (hds d hd).2 hshown⟩⟩
   | some old =>
    obtain ⟨es, hes, hold, hall⟩ := h.word old hopen
    refine ⟨es ++ ds, by simp [hne], ?_, fun d hd => ?_⟩
    · rw [spell_append, ← hold, spell, ← hfold]
      rfl
    · rcases mem_append.1 hd with hd | hd
      · exact hall d hd
      · exact ⟨(hds d hd).1, (hds d hd).2 hshown⟩
 · have hused := h.used
   simp only [Reading.used, Reading.grow, Option.elim_some, length_append] at hused ⊢
   cases hopen : r.word with
   | none =>
    rw [hopen] at hused
    simp only [Option.elim_none, Option.getD_none, length_nil] at hused ⊢
    omega
   | some old =>
    rw [hopen] at hused
    simp only [Option.elim_some, Option.getD_some] at hused ⊢
    omega

theorem finishWord_some {w : SpokenWord} (hw : r.word = some w) (hne : w.text ≠ []) : ∃ done : SpokenWord,
  done.text = w.text ∧ r.finishWord text = { r with word := none, words := r.words ++ [done] } := by
 rw [Reading.finishWord, hw]
 dsimp only
 rw [if_neg hne]
 refine ⟨_, ?_, rfl⟩
 rfl

theorem finishWord_none (hw : r.word = none) : r.finishWord text = r := by rw [Reading.finishWord, hw]

theorem Reading.Within.finishWord (h : r.Within n) : (r.finishWord text).Within (n + 1) := by
 cases hw : r.word with
 | none =>
  rw [finishWord_none hw]
  exact h.mono (Nat.le_succ n)
 | some w =>
  obtain ⟨done, htext, hfinish⟩ := @finishWord_some text r w hw (h.word w hw).ne_nil
  have hused := h.used
  rw [hfinish]
  refine ⟨?_, nofun, ?_⟩
  · simp only [mem_append, mem_singleton]
    rintro v (hv | rfl)
    · exact h.words v hv
    · exact htext ▸ h.word w hw
  · simp only [Reading.used, hw, Option.elim_some, Option.elim_none, map_append, sum_append, map_cons,
     map_nil, sum_cons, sum_nil, htext] at hused ⊢
    omega

theorem Reading.Within.turn (h : r.Within n) (hmarks : options.marks = false) (hc : c = ' ' ∨ Shown c) (rest : Bytes) :
  (r.turn text options (encode c ++ rest)).2.Within (n + (encode c).length) := by
 have hlen := length_pos_iff.2 (encode_ne_nil c)
 have hmore : r.Within (n + (encode c).length) := h.mono (Nat.le_add_right _ _)
 rw [turn_char]
 split_ifs with hword hfull hignored hinside hcomma
 · exact ⟨hmore.words, hmore.word, hmore.used⟩
 · rcases hc with rfl | hshown
   · exact absurd hword (by decide)
   · exact h.grow hword hshown _ _
 · exact hmore
 · exact hmore
 · exact hmore
 · rw [Reading.readMark, hmarks, if_neg Bool.false_ne_true]
   exact h.finishWord.mono (by omega)

theorem Reading.Within.readFrom (h : r.Within n) (hmarks : options.marks = false) (hcs : ∀ c ∈ cs, c = ' ' ∨ Shown c) :
  (readFrom text options r (spell cs)).Within (n + (spell cs).length) := by
 induction cs generalizing r n with
 | nil =>
  rw [spell_nil, SpokenText.readFrom]
  exact h
 | cons c cs ih =>
  cases htruncated : r.truncated with
  | true =>
   rw [readFrom_truncated htruncated]
   exact h.mono (Nat.le_add_right _ _)
  | false =>
   have hturn : (r.turn text options (encode c ++ spell cs)).2.Within (n + (encode c).length) :=
    h.turn hmarks (hcs c mem_cons_self) (spell cs)
   have hread := ih hturn fun d hd => hcs d (mem_cons_of_mem _ hd)
   rw [spell_cons, readFrom_char htruncated, length_append, ← Nat.add_assoc]
   exact hread

/-! ## A line of written words -/

def line (ws : List Bytes) : Bytes := [0x20].intercalate ws

@[simp] theorem line_single (w : Bytes) : line [w] = w := intercalate_singleton

theorem line_cons_cons (w v : Bytes) (ws : List Bytes) : line (w :: v :: ws) = w ++ (0x20 :: line (v :: ws)) := by
 rw [line, intercalate_cons_cons]
 simp [line]

theorem line_length (w : Bytes) (ws : List Bytes) :
  (line (w :: ws)).length + 1 = ((w :: ws).map fun v => v.length + 1).sum := by
 induction ws generalizing w with
 | nil => simp
 | cons v ws ih =>
  have h := ih v
  rw [line_cons_cons, length_append, length_cons]
  simp only [map_cons, sum_cons] at h ⊢
  omega

theorem turn_folded (hc : Folded c) (hroom : r.word.isSome ∨ r.words.length < options.maxWords) (rest : Bytes) :
  (r.turn text options (encode c ++ rest)).2 = r.grow (encode c) (text.length - (encode c ++ rest).length)
   (text.length - (encode c ++ rest).length + (encode c).length) := by
 rw [turn_char, if_pos hc.word, if_neg, hc.same]
 rintro ⟨hnone, hfull⟩
 rcases hroom with hsome | hroom
 · rw [Option.isNone_iff_eq_none] at hnone
   rw [hnone] at hsome
   exact absurd hsome (by simp)
 · omega

theorem readFrom_folded (hds : ∀ d ∈ cs, Folded d) (h : r.truncated = false)
  (hroom : r.word.isSome ∨ r.words.length < options.maxWords) (hne : cs ≠ [] ∨ r.word.isSome) (rest : Bytes) :
  ∃ w : SpokenWord, readFrom text options r (spell cs ++ rest) = readFrom text options { r with word := some w } rest ∧
   w.text = r.word.elim [] (·.text) ++ spell cs := by
 induction cs generalizing r with
 | nil =>
  obtain ⟨w, hw⟩ := Option.isSome_iff_exists.1 (hne.resolve_left fun h => h rfl)
  refine ⟨w, ?_, by simp [hw]⟩
  rw [spell_nil, nil_append, ← hw]
 | cons c cs ih =>
  have hturn := @turn_folded text options r c (hds c mem_cons_self) hroom (spell cs ++ rest)
  rw [spell_cons, append_assoc, readFrom_char h, hturn]
  generalize text.length - (encode c ++ (spell cs ++ rest)).length = i
  obtain ⟨w, hread, htext⟩ := @ih (r.grow (encode c) i (i + (encode c).length)) (fun d hd => hds d (mem_cons_of_mem _ hd))
   h (.inl rfl) (.inr rfl)
  refine ⟨w, hread, ?_⟩
  rw [htext]
  cases hopen : r.word with
  | none => simp [Reading.grow, hopen]
  | some old => simp [Reading.grow, hopen]

theorem readFrom_space (h : r.truncated = false) (hmarks : options.marks = false) (rest : Bytes) :
  readFrom text options r (0x20 :: rest) = readFrom text options (r.finishWord text) rest := by
 have hspace : encode ' ' = [0x20] := by decide
 have hturn := @readFrom_char text options r h ' ' rest
 rw [turn_char, if_neg (by decide), if_neg (by decide), if_neg fun h => absurd h.1 (by decide),
  if_neg fun h => absurd h.1 (by decide)] at hturn
 rw [hspace, singleton_append, Reading.readMark, hmarks, if_neg Bool.false_ne_true] at hturn
 exact hturn

theorem readFrom_line {ws : List Bytes} (hws : ∀ w ∈ ws, Written w) (h : r.truncated = false) (hword : r.word = none)
  (hmarks : options.marks = false) (hroom : r.words.length + ws.length ≤ options.maxWords) :
  (((readFrom text options r (line ws)).finishWord text).words.map (·.text)) = r.words.map (·.text) ++ ws ∧
   ((readFrom text options r (line ws)).finishWord text).truncated = false := by
 induction ws generalizing r with
 | nil =>
  rw [line, intercalate_nil, readFrom, finishWord_none hword]
  exact ⟨by simp, h⟩
 | cons w ws ih =>
  obtain ⟨ds, hne, hw, hds⟩ := hws w mem_cons_self
  have hfree : r.words.length < options.maxWords := by
   rw [length_cons] at hroom
   omega
  have hread := fun rest => @readFrom_folded text options r ds (fun d hd => (hds d hd).1) h (.inr hfree) (.inl hne) rest
  rw [← hw] at hread
  cases ws with
  | nil =>
   obtain ⟨v, hv, htext⟩ := hread []
   rw [append_nil, readFrom] at hv
   rw [hword, Option.elim_none, nil_append] at htext
   obtain ⟨done, hdone, hfinish⟩ := @finishWord_some text { r with word := some v } v rfl
    (htext ▸ (hws w mem_cons_self).ne_nil)
   rw [line_single, hv, hfinish]
   exact ⟨by simp [hdone, htext], h⟩
  | cons next ws =>
   obtain ⟨v, hv, htext⟩ := hread (0x20 :: line (next :: ws))
   rw [hword, Option.elim_none, nil_append] at htext
   obtain ⟨done, hdone, hfinish⟩ := @finishWord_some text { r with word := some v } v rfl
    (htext ▸ (hws w mem_cons_self).ne_nil)
   have hspace := @readFrom_space text options { r with word := some v } h hmarks (line (next :: ws))
   rw [line_cons_cons, hv, hspace, hfinish]
   obtain ⟨hwords, htruncated⟩ := @ih { r with word := none, words := r.words ++ [done] }
    (fun u hu => hws u (mem_cons_of_mem _ hu)) h rfl (by
     simp only [length_append, length_cons, length_nil] at hroom ⊢
     omega)
   refine ⟨?_, htruncated⟩
   rw [hwords]
   simp [hdone, htext]

/-! ## Room for more words -/

theorem readMark_room {k i cp : ℕ} (hk : options.maxWords ≤ k) (h : (r.readMark text options i cp).truncated = false) :
  r.readMark text { options with maxWords := k } i cp = r.readMark text options i cp := by
 have hmade : ∀ (w : Bytes) (first last : ℕ), (r.addMadeUpWord options w first last).truncated = false →
   r.addMadeUpWord { options with maxWords := k } w first last = r.addMadeUpWord options w first last := by
  intro w first last h
  rw [Reading.addMadeUpWord] at h ⊢
  split_ifs at h with hfull
  rw [Reading.addMadeUpWord, if_neg hfull, if_neg (show ¬ k ≤ r.words.length by omega)]
 rw [Reading.readMark] at h ⊢
 rw [Reading.readMark]
 dsimp only
 split_ifs at h ⊢
 · exact hmade _ _ _ h
 · exact hmade _ _ _ h
 · rfl
 · rfl

theorem turn_room {k : ℕ} (hk : options.maxWords ≤ k) (h : (r.turn text options rest).2.truncated = false) :
  r.turn text { options with maxWords := k } rest = r.turn text options rest := by
 rw [Reading.turn] at h ⊢
 rw [Reading.turn]
 dsimp only at h ⊢
 by_cases hword : classify (decodeAt rest).2 = .kWord
 · have hroom : ¬ (r.word.isNone ∧ options.maxWords ≤ r.words.length) → ¬ (r.word.isNone ∧ k ≤ r.words.length) :=
    fun hfree hfull => hfree ⟨hfull.1, hk.trans hfull.2⟩
   simp only [if_pos hword] at h ⊢
   split_ifs at h ⊢ with _ _ _ hfull hfree
   all_goals first | rfl | exact absurd hfull (hroom hfree)
 · simp only [if_neg hword] at h ⊢
   split_ifs at h ⊢
   all_goals first | rfl | exact Prod.ext rfl (readMark_room hk h)

theorem readFrom_room {k : ℕ} (hk : options.maxWords ≤ k) (h : (readFrom text options r rest).truncated = false) :
  readFrom text { options with maxWords := k } r rest = readFrom text options r rest := by
 fun_induction readFrom text options r rest with
 | case1 r => rw [readFrom]
 | case2 r b rest htruncated => rw [readFrom, if_pos htruncated]
 | case3 r b rest htruncated ih =>
  have hturn : (r.turn text options (b :: rest)).2.truncated = false := by
   rw [Bool.eq_false_iff]
   intro hfull
   rw [readFrom_truncated hfull, hfull] at h
   exact Bool.noConfusion h
  rw [readFrom, if_neg htruncated, turn_room hk hturn]
  exact ih h

/-! ## The words of a clean text -/

theorem finishWord_truncated (text : Bytes) (r : Reading) : (r.finishWord text).truncated = r.truncated := by
 rw [Reading.finishWord]
 split
 · rfl
 · split_ifs <;> rfl

theorem normalizeSpokenText_room {k : ℕ} (hk : options.maxWords ≤ k)
  (h : (normalizeSpokenText text options).truncated = false) :
  normalizeSpokenText text { options with maxWords := k } = normalizeSpokenText text options := by
 rw [normalizeSpokenText] at h
 dsimp only at h
 rw [finishWord_truncated] at h
 rw [normalizeSpokenText, normalizeSpokenText]
 dsimp only
 rw [readFrom_room hk h]

/-- The words of a clean text are written ones, and their line is no longer than the text. -/
theorem Clean.written {m : ℕ} (h : Clean m text) (hm : m ≤ 2 ^ 30) (k : ℕ) :
  (∀ w ∈ (normalizeSpokenText text { maxWords := k }).texts, Written w) ∧
   (line (normalizeSpokenText text { maxWords := k }).texts).length ≤ text.length := by
 obtain ⟨⟨cs, rfl, hneat⟩, hfits⟩ := h
 have hwhole : (spell cs).take (2 ^ 30) = spell cs := take_of_length_le (hfits.trans hm)
 have hnew : ({} : Reading).Within 0 := ⟨nofun, nofun, Nat.le_refl 0⟩
 have hread : (readFrom (spell cs) { maxWords := k } {} (spell cs)).Within (0 + (spell cs).length) := hnew.readFrom rfl hneat.signs
 have hdone : ((readFrom (spell cs) { maxWords := k } {} (spell cs)).finishWord (spell cs)).Within ((spell cs).length + 1) :=
  (hread.mono (Nat.zero_add _).le).finishWord
 rw [NormalizedText.texts, normalizeSpokenText, hwhole]
 dsimp only
 rw [if_neg Bool.false_ne_true]
 refine ⟨?_, ?_⟩
 · simp only [mem_map, forall_exists_index, and_imp, forall_apply_eq_imp_iff₂]
   exact hdone.words
 · have hused := hdone.used
   cases hwords : ((readFrom (spell cs) { maxWords := k } {} (spell cs)).finishWord (spell cs)).words with
   | nil => exact Nat.zero_le _
   | cons w ws =>
    rw [Reading.used, hwords] at hused
    have hlen := line_length w.text (ws.map (·.text))
    rw [map_cons]
    simp only [map_cons, map_map, sum_cons, Function.comp_def] at hlen hused
    omega

theorem normalizeSpokenText_line {ws : List Bytes} (hws : ∀ w ∈ ws, Written w) (hlen : (line ws).length ≤ 2 ^ 30) {k : ℕ}
  (hk : ws.length ≤ k) : (normalizeSpokenText (line ws) { maxWords := k }).texts = ws ∧
   (normalizeSpokenText (line ws) { maxWords := k }).truncated = false := by
 rw [NormalizedText.texts, normalizeSpokenText, take_of_length_le hlen]
 dsimp only
 rw [if_neg Bool.false_ne_true]
 have hread := @readFrom_line (line ws) { maxWords := k } {} ws hws rfl rfl rfl (by simpa using hk)
 exact hread

theorem Neat.concat_all (h : Neat cs) {ds : List Char} (hds : ∀ d ∈ ds, Shown d) : Neat (cs ++ ds) := by
 induction ds generalizing cs with
 | nil => rwa [append_nil]
 | cons d ds ih =>
  have hd := ih (h.concat (hds d mem_cons_self)) fun e he => hds e (mem_cons_of_mem _ he)
  rwa [append_assoc] at hd

theorem Clean.concat {m : ℕ} (h : Clean m text) (hne : text ≠ []) {w : Bytes} (hw : Written w)
  (hfits : (text ++ 0x20 :: w).length ≤ m) : Clean m (text ++ 0x20 :: w) := by
 obtain ⟨⟨cs, rfl, hneat⟩, -⟩ := h
 obtain ⟨ds, hds, rfl, hall⟩ := hw
 cases ds with
 | nil => exact absurd rfl hds
 | cons d ds =>
  have hspace := hneat.concat_space (fun hnil => hne (by rw [hnil, spell_nil])) (hall d mem_cons_self).2
  refine ⟨⟨_, ?_, hspace.concat_all fun e he => (hall e (mem_cons_of_mem _ he)).2⟩, hfits⟩
  simp [show encode ' ' = [0x20] by decide]

theorem line_eq (w : Bytes) (ws : List Bytes) : line (w :: ws) = w ++ ws.flatMap fun v => 0x20 :: v := by
 induction ws generalizing w with
 | nil => simp
 | cons v ws ih => rw [line_cons_cons, ih v, flatMap_cons, cons_append]

theorem clean_line {ws : List Bytes} (hws : ∀ w ∈ ws, Written w) {m : ℕ} (hm : (line ws).length ≤ m) : Clean m (line ws) := by
 have hmore : ∀ (vs : List Bytes) (text : Bytes), Clean m text → text ≠ [] → (∀ v ∈ vs, Written v) →
   (text ++ vs.flatMap fun v => 0x20 :: v).length ≤ m → Clean m (text ++ vs.flatMap fun v => 0x20 :: v) := by
  intro vs
  induction vs with
  | nil =>
   intro text htext _ _ _
   rwa [flatMap_nil, append_nil]
  | cons v vs ih =>
   intro text htext hne hvs hfits
   rw [flatMap_cons, ← append_assoc] at hfits ⊢
   have hfirst : (text ++ 0x20 :: v).length ≤ m := by
    rw [length_append] at hfits
    omega
   exact ih _ (htext.concat hne (hvs v mem_cons_self) hfirst) (by simp)
    (fun u hu => hvs u (mem_cons_of_mem _ hu)) hfits
 cases ws with
 | nil => exact ⟨⟨[], rfl, .nil, nofun⟩, Nat.zero_le _⟩
 | cons w ws =>
  have hw := hws w mem_cons_self
  rw [line_eq] at hm ⊢
  refine hmore ws w ⟨?_, ?_⟩ hw.ne_nil (fun v hv => hws v (mem_cons_of_mem _ hv)) hm
  · obtain ⟨ds, -, rfl, hds⟩ := hw
    exact ⟨ds, rfl, Neat.concat_all ⟨.nil, nofun⟩ fun d hd => (hds d hd).2⟩
  · rw [length_append] at hm
    omega

end MoltBrowser.SpokenText
