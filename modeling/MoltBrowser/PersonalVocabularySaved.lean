import MoltBrowser.PersonalVocabulary

set_option autoImplicit false

/-!
# What is learned can be saved

Every change of the vocabulary leaves entries that `Restore` takes back as they are: learnable
as written, no two for the same name or the same misheard words.
-/
namespace MoltBrowser.Vocabulary
open SpokenText TransitionRuns List

variable {isAnswer : Bytes → Bool} {v : PersonalVocabulary} {e : VocabularyEntry} {entries : List VocabularyEntry}
 {key heard phrase : Bytes} {now : ℤ}

/-! ## Entries -/

def keyOf (e : VocabularyEntry) : Bool × Bytes :=
 (e.correction, if e.correction then e.heard else foldForComparison e.phrase)

theorem isName_iff : isName key e = true ↔ keyOf e = (false, key) := by
 rw [isName, keyOf]
 cases e.correction <;> simp

theorem corrects_iff : corrects heard e = true ↔ keyOf e = (true, heard) := by
 rw [corrects, keyOf]
 cases e.correction <;> simp

structure Sound (isAnswer : Bytes → Bool) (e : VocabularyEntry) : Prop where
 some : e.phrase ≠ []
 learned : learnedPhrase isAnswer e.phrase = e.phrase
 counted : 1 ≤ e.uses ∧ e.uses ≤ kMaxVocabularyUses
 dated : 0 ≤ e.lastUsed
 misheard : e.correction = true → foldForComparison (learnedPhrase isAnswer e.heard) = e.heard ∧
  e.heard ≠ foldForComparison e.phrase

structure Restorable (isAnswer : Bytes → Bool) (entries : List VocabularyEntry) : Prop where
 sound : ∀ e ∈ entries, Sound isAnswer e
 keys : (entries.map keyOf).Nodup

theorem Restorable.sublist {left : List VocabularyEntry} (h : Restorable isAnswer entries) (hleft : left.Sublist entries) :
  Restorable isAnswer left :=
 ⟨fun e he => h.sound e (hleft.subset he), h.keys.sublist (hleft.map keyOf)⟩

theorem Restorable.concat (h : Restorable isAnswer entries) (he : Sound isAnswer e) (hnew : keyOf e ∉ entries.map keyOf) :
  Restorable isAnswer (entries ++ [e]) where
 sound := by
  simp only [mem_append, mem_singleton]
  rintro d (hd | rfl)
  · exact h.sound d hd
  · exact he
 keys := by
  rw [map_append, map_singleton, nodup_append_comm, singleton_append]
  exact nodup_cons.2 ⟨hnew, h.keys⟩

/-! ## Eviction -/

theorem evict_sublist (entries : List VocabularyEntry) : (evict entries).Sublist entries := by
 fun_induction evict entries with
 | case1 entries _ ih => exact ih.trans (eraseIdx_sublist ..)
 | case2 entries => exact List.Sublist.refl entries

theorem evict_length (entries : List VocabularyEntry) : (evict entries).length ≤ kMaxVocabularyEntries := by
 fun_induction evict entries with
 | case1 _ _ ih => exact ih
 | case2 entries h => exact Nat.le_of_not_lt h

/-! ## Changes of one entry -/

theorem findName_none (h : findName entries key = none) : (false, key) ∉ entries.map keyOf := by
 rw [findName, findIdx?_eq_none_iff] at h
 rw [mem_map, not_exists]
 rintro e ⟨hmem, hkey⟩
 exact absurd (isName_iff.2 hkey) (Bool.eq_false_iff.1 (h e hmem))

theorem findCorrection_none (h : findCorrection entries heard = none) : (true, heard) ∉ entries.map keyOf := by
 rw [findCorrection, findIdx?_eq_none_iff] at h
 rw [mem_map, not_exists]
 rintro e ⟨hmem, hkey⟩
 exact absurd (corrects_iff.2 hkey) (Bool.eq_false_iff.1 (h e hmem))

theorem Restorable.modify (h : Restorable isAnswer entries) {p : VocabularyEntry → Bool} {i : ℕ}
  (hfound : entries.findIdx? p = some i) {change : VocabularyEntry → VocabularyEntry}
  (hchange : ∀ e, p e = true → Sound isAnswer e → Sound isAnswer (change e) ∧ keyOf (change e) = keyOf e) :
  Restorable isAnswer (entries.modify i change) := by
 obtain ⟨hi, hp, -⟩ := findIdx?_eq_some_iff_getElem.1 hfound
 have hsplit : entries = entries.take i ++ entries[i] :: entries.drop (i + 1) := by
  rw [← drop_eq_getElem_cons hi, take_append_drop]
 obtain ⟨hsound, hkey⟩ := hchange entries[i] hp (h.sound _ (getElem_mem hi))
 rw [modify_eq_take_cons_drop hi]
 constructor
 · intro e he
   rcases mem_append.1 he with he | he
   · exact h.sound e (mem_of_mem_take he)
   · rcases mem_cons.1 he with rfl | he
     · exact hsound
     · exact h.sound e (mem_of_mem_drop he)
 · have hkeys := h.keys
   rw [hsplit, map_append, map_cons] at hkeys
   rw [map_append, map_cons, hkey]
   exact hkeys

theorem one_counted : 1 ≤ (1 : ℤ) ∧ (1 : ℤ) ≤ kMaxVocabularyUses := by decide

theorem use_counted (he : Sound isAnswer e) (now : ℤ) : 1 ≤ (e.use now).uses ∧ (e.use now).uses ≤ kMaxVocabularyUses := by
 have hcounted := he.counted
 rw [VocabularyEntry.use]
 unfold kMaxVocabularyUses at *
 dsimp only
 omega

/-! ## Steps -/

structure Saved (isAnswer : Bytes → Bool) (v : PersonalVocabulary) : Prop where
 few : v.entries.length ≤ kMaxVocabularyEntries
 restorable : Restorable isAnswer v.entries

theorem Saved.evict (h : Restorable isAnswer entries) : Saved isAnswer { entries := evict entries } :=
 ⟨evict_length entries, h.sublist (evict_sublist entries)⟩

theorem Saved.sublist {left : List VocabularyEntry} (h : Saved isAnswer v) (hleft : left.Sublist v.entries) :
  Saved isAnswer { entries := left } :=
 ⟨hleft.length_le.trans h.few, h.restorable.sublist hleft⟩

theorem saved_noteName (h : Saved isAnswer v) (phrase : Bytes) (hnow : 0 ≤ now) :
  Saved isAnswer (noteName isAnswer v phrase now).2 := by
 have hlearned := @learnedPhrase_learnedPhrase isAnswer phrase
 rw [noteName]
 generalize learnedPhrase isAnswer phrase = learned at *
 dsimp only
 split_ifs with hnone
 · exact h
 · split
   · next i hfound =>
     refine ⟨by rw [length_modify]; exact h.few, h.restorable.modify hfound fun e hname he => ?_⟩
     have hkey := isName_iff.1 hname
     have hno : e.correction = false := congrArg Prod.fst hkey
     refine ⟨⟨hnone, hlearned, use_counted he now, hnow, fun hyes => absurd (hno.symm.trans hyes) Bool.false_ne_true⟩, ?_⟩
     rw [hkey, keyOf]
     change (e.correction, if e.correction then _ else _) = _
     rw [hno, if_neg Bool.false_ne_true]
   · next hfound =>
     exact .evict (h.restorable.concat ⟨hnone, hlearned, one_counted, hnow, nofun⟩ (findName_none hfound))

theorem saved_noteCorrection (h : Saved isAnswer v) (heard meant : Bytes) (hnow : 0 ≤ now) :
  Saved isAnswer (noteCorrection isAnswer v heard meant now).2 := by
 have hlearned := @learnedPhrase_learnedPhrase isAnswer meant
 have hheard := @heardKey_kept isAnswer heard
 rw [noteCorrection]
 generalize learnedPhrase isAnswer meant = learned at *
 generalize foldForComparison (learnedPhrase isAnswer heard) = heardKey at *
 dsimp only
 split_ifs with hsame
 · exact h
 rw [not_or, not_or] at hsame
 have hleft : Saved isAnswer { entries := v.entries.filter fun e => !isName heardKey e } := h.sublist filter_sublist
 split
 · next i hfound =>
   refine ⟨by rw [length_modify]; exact hleft.few, hleft.restorable.modify hfound fun e hcorrects he => ?_⟩
   have hkey := corrects_iff.1 hcorrects
   have hyes : e.correction = true := congrArg Prod.fst hkey
   have hown : e.heard = heardKey := by
    have hsnd := congrArg Prod.snd hkey
    rwa [keyOf, hyes, if_pos rfl] at hsnd
   refine ⟨⟨hsame.2.1, hlearned, use_counted he now, hnow, fun _ => ⟨(he.misheard hyes).1, ?_⟩⟩, ?_⟩
   · exact hown ▸ hsame.2.2
   · rw [keyOf, keyOf]
     change (e.correction, if e.correction then e.heard else _) = (e.correction, if e.correction then e.heard else _)
     rw [hyes, if_pos rfl, if_pos rfl]
 · next hfound =>
   have hcorrection : (!heardKey.isEmpty) = true := by
    rw [Bool.not_eq_true', isEmpty_eq_false_iff]
    exact hsame.1
   refine .evict (hleft.restorable.concat ⟨hsame.2.1, hlearned, one_counted, hnow, fun _ => ⟨hheard, hsame.2.2⟩⟩ ?_)
   rw [keyOf, VocabularyEntry.correction, hcorrection, if_pos rfl]
   exact findCorrection_none hfound

/-- `Restore` takes exactly the sound entries whose key isn't there, while there is room. -/
theorem restore_cases (v : PersonalVocabulary) (e : VocabularyEntry) :
  (restore isAnswer v e = (true, { entries := v.entries ++ [e] }) ∧ v.entries.length < kMaxVocabularyEntries ∧
   Sound isAnswer e ∧ keyOf e ∉ v.entries.map keyOf) ∨
  (restore isAnswer v e = (false, v) ∧
   ¬(v.entries.length < kMaxVocabularyEntries ∧ Sound isAnswer e ∧ keyOf e ∉ v.entries.map keyOf)) := by
 rw [restore]
 by_cases hfull : kMaxVocabularyEntries ≤ v.entries.length
 · exact .inr ⟨if_pos hfull, fun h => absurd h.1 (Nat.not_lt.2 hfull)⟩
 rw [if_neg hfull]
 dsimp only
 by_cases hbad : learnedPhrase isAnswer e.phrase = [] ∨ learnedPhrase isAnswer e.phrase ≠ e.phrase ∨ e.uses < 1 ∨
   kMaxVocabularyUses < e.uses ∨ e.lastUsed < 0
 · refine .inr ⟨if_pos hbad, fun ⟨_, he, _⟩ => ?_⟩
   rcases hbad with hbad | hbad | hbad | hbad | hbad
   · exact he.some (he.learned ▸ hbad)
   · exact hbad he.learned
   · exact absurd he.counted.1 (Int.not_le.2 hbad)
   · exact absurd he.counted.2 (Int.not_le.2 hbad)
   · exact absurd he.dated (Int.not_le.2 hbad)
 rw [if_neg hbad]
 simp only [not_or, not_not, Int.not_lt] at hbad
 obtain ⟨hsome, hlearned, hlow, hhigh, hdated⟩ := hbad
 cases hcorrection : e.correction with
 | true =>
  rw [if_pos rfl]
  have hkey : keyOf e = (true, e.heard) := by rw [keyOf, hcorrection, if_pos rfl]
  rw [hkey]
  by_cases hwrong : foldForComparison (learnedPhrase isAnswer e.heard) ≠ e.heard ∨ e.heard = foldForComparison e.phrase ∨
    (findCorrection v.entries e.heard).isSome
  · refine .inr ⟨if_pos hwrong, fun ⟨_, he, hnew⟩ => ?_⟩
    rcases hwrong with hwrong | hwrong | hwrong
    · exact hwrong (he.misheard hcorrection).1
    · exact (he.misheard hcorrection).2 hwrong
    · obtain ⟨i, hfound⟩ := Option.isSome_iff_exists.1 hwrong
      obtain ⟨hi, hold, -⟩ := findIdx?_eq_some_iff_getElem.1 hfound
      exact hnew (mem_map.2 ⟨_, getElem_mem hi, corrects_iff.1 hold⟩)
  · simp only [not_or, not_not, Bool.not_eq_true, Option.isSome_eq_false_iff, Option.isNone_iff_eq_none] at hwrong
    obtain ⟨hheard, hother, hnone⟩ := hwrong
    refine .inl ⟨if_neg ?_, by omega, ⟨hlearned ▸ hsome, hlearned, ⟨hlow, hhigh⟩, hdated, fun _ => ⟨hheard, hother⟩⟩,
     findCorrection_none hnone⟩
    simp [hheard, hother, hnone]
 | false =>
  rw [if_neg Bool.false_ne_true]
  have hkey : keyOf e = (false, foldForComparison e.phrase) := by rw [keyOf, hcorrection, if_neg Bool.false_ne_true]
  rw [hkey]
  cases hfound : findName v.entries (foldForComparison e.phrase) with
  | some i =>
   refine .inr ⟨rfl, fun ⟨_, _, hnew⟩ => ?_⟩
   obtain ⟨hi, hold, -⟩ := findIdx?_eq_some_iff_getElem.1 hfound
   exact hnew (mem_map.2 ⟨_, getElem_mem hi, isName_iff.1 hold⟩)
  | none =>
   exact .inl ⟨rfl, by omega, ⟨hlearned ▸ hsome, hlearned, ⟨hlow, hhigh⟩, hdated,
    fun hyes => absurd (hcorrection.symm.trans hyes) Bool.false_ne_true⟩, findName_none hfound⟩

theorem saved_step (h : Saved isAnswer v) (call : Call) (htimely : call.Timely) : Saved isAnswer (step isAnswer v call) := by
 cases call with
 | noteName phrase now => exact saved_noteName h phrase htimely
 | noteCorrection heard meant now => exact saved_noteCorrection h heard meant htimely
 | noteCorrectionUsed heard now =>
  rw [step, noteCorrectionUsed]
  split
  · next i hfound =>
    refine ⟨by rw [length_modify]; exact h.few, h.restorable.modify hfound fun e _ he => ⟨?_, rfl⟩⟩
    exact ⟨he.some, he.learned, use_counted he now, htimely, he.misheard⟩
  · exact h
 | forget phrase =>
  rw [step, forget]
  dsimp only
  split_ifs
  · exact h
  · exact h.sublist filter_sublist
 | clear => exact ⟨Nat.zero_le _, nofun, nodup_nil⟩
 | age now => exact .evict (h.restorable.sublist filter_sublist)
 | restore e =>
  rw [step]
  rcases @restore_cases isAnswer v e with ⟨htaken, hroom, he, hnew⟩ | ⟨hleft, -⟩
  · rw [htaken]
    refine ⟨?_, h.restorable.concat he hnew⟩
    rw [length_append, length_singleton]
    exact hroom
  · rw [hleft]
    exact h

theorem Saved.restoreAll (h : Saved isAnswer v) : restoreAll isAnswer v.entries = (v.entries.map fun _ => true, v) := by
 obtain ⟨entries⟩ := v
 dsimp only
 induction entries using List.reverseRecOn with
 | nil => rfl
 | append_singleton entries e ih =>
  have hbefore := ih (h.sublist (sublist_append_left entries [e]))
  rw [Vocabulary.restoreAll] at hbefore
  rw [Vocabulary.restoreAll, foldl_append, hbefore, foldl_cons, foldl_nil]
  have hfew := h.few
  rw [length_append, length_singleton] at hfew
  have hkeys := h.restorable.keys
  rw [map_append, map_singleton, nodup_append_comm, singleton_append, nodup_cons] at hkeys
  have he := h.restorable.sound e (by simp)
  rcases @restore_cases isAnswer { entries } e with ⟨htaken, -⟩ | ⟨-, hrefused⟩
  · rw [htaken, map_append, map_singleton]
  · exact absurd ⟨hfew, he, hkeys.1⟩ hrefused

/-- A learned vocabulary survives saving: it is within its limit, no two names fold alike and no two corrections are of the
same misheard words, and its entries restored in order are all accepted and give it again. -/
theorem vocabulary_survives_saving (isAnswer : Bytes → Bool) (calls : List Call) (htimely : ∀ call ∈ calls, call.Timely) :
  (run (step isAnswer) {} calls).entries.length ≤ kMaxVocabularyEntries ∧
  (run (step isAnswer) {} calls).entries.Pairwise (fun a b => a.correction = false → b.correction = false →
   foldForComparison a.phrase ≠ foldForComparison b.phrase) ∧
  (run (step isAnswer) {} calls).entries.Pairwise (fun a b => a.correction = true → b.correction = true →
   a.heard ≠ b.heard) ∧
  restoreAll isAnswer (run (step isAnswer) {} calls).entries =
   ((run (step isAnswer) {} calls).entries.map fun _ => true, run (step isAnswer) {} calls) := by
 have hnew : Saved isAnswer {} := ⟨Nat.zero_le _, nofun, List.nodup_nil⟩
 have hsaved : Saved isAnswer (run (step isAnswer) {} calls) :=
  run_invariant (I := Saved isAnswer) (fun v call hv hcall => saved_step hv call hcall) hnew (along_of_forall_mem htimely)
 have hkeys := List.pairwise_map.1 hsaved.restorable.keys
 refine ⟨hsaved.few, hkeys.imp fun hne ha hb hsame => hne ?_, hkeys.imp fun hne ha hb hsame => hne ?_, hsaved.restoreAll⟩
 · rw [keyOf, keyOf, ha, hb, if_neg Bool.false_ne_true, if_neg Bool.false_ne_true, hsame]
 · rw [keyOf, keyOf, ha, hb, if_pos rfl, if_pos rfl, hsame]

def queenCalls : List Call := [.noteName (utf8 "Queen") 5, .noteCorrection (utf8 "green") (utf8 "Queen") 6]

theorem queenCalls_entries : (run (step fun words => words == utf8 "yes") {} queenCalls).entries =
  [{ phrase := utf8 "Queen", uses := 1, lastUsed := 5 },
   { phrase := utf8 "Queen", heard := utf8 "green", uses := 1, lastUsed := 6 }] := by
 decide +kernel

theorem vocabulary_survives_saving_queen :
  (run (step fun words => words == utf8 "yes") {} queenCalls).entries.length = 2 ∧
  restoreAll (fun words => words == utf8 "yes") (run (step fun words => words == utf8 "yes") {} queenCalls).entries =
   ([true, true], run (step fun words => words == utf8 "yes") {} queenCalls) := by
 have htimely : ∀ call ∈ queenCalls, call.Timely := by
  simp [queenCalls, Call.Timely]
 have hrestored := (vocabulary_survives_saving (fun words => words == utf8 "yes") queenCalls htimely).2.2.2
 have hanswers : ((run (step fun words => words == utf8 "yes") {} queenCalls).entries.map fun _ => true) = [true, true] := by
  rw [queenCalls_entries]
  rfl
 rw [hanswers] at hrestored
 exact ⟨by rw [queenCalls_entries]; rfl, hrestored⟩

end MoltBrowser.Vocabulary
