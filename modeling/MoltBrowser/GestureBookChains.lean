import MoltBrowser.GestureBookRuns

set_option autoImplicit false

/-!
# The words of a prompt begun again

A `Begin` while the prompt of its binding waits retires the prompt's word. Only the last `kRecentWordsAvoided` retired words are
kept, and of the words of all prompts as many.
-/
namespace MoltBrowser.GestureBook
open ConfirmationWords TransitionRuns List

/-! ## Chains -/

/-- A session, and the prompts of the latest chain of `Begin`s of a binding. -/
structure Chained where
 session : Session := {}
 chain : List GesturePrompt := []

/-- A `Begin` goes on with the chain while its last prompt waits. -/
def Chained.step (env : Environment) (binding : GestureBinding) (c : Chained) (call : Call) : Chained :=
 { session := c.session.step env call
   chain :=
    match call with
    | .begin other language now =>
     if other = binding then
      match (c.session.book.begin env binding language now).2 with
      | none => c.chain
      | some prompt =>
       if ∃ last ∈ c.chain.getLast?, last ∈ (c.session.book.expire now).prompts then c.chain ++ [prompt] else [prompt]
     else c.chain
    | _ => c.chain }

def chainAfter (env : Environment) (binding : GestureBinding) (calls : List Call) : Chained :=
 run (Chained.step env binding) {} calls

theorem chainAfter_session (env : Environment) (binding : GestureBinding) (calls : List Call) :
  (chainAfter env binding calls).session = afterCalls env calls := by
 suffices h : ∀ c : Chained, (run (Chained.step env binding) c calls).session = run (Session.step env) c.session calls from h {}
 induction calls with
 | nil => exact fun _ => rfl
 | cons call calls ih => exact fun c => ih (c.step env binding call)

/-! ## A new word -/

theorem confirmationWords_length (language : Language) : (confirmationWords language).length = 40 := by cases language <;> rfl

theorem confirmationWords_nodup (language : Language) : (confirmationWords language).Nodup := by
 cases language <;> decide

theorem retiredFor_length (b : Book) (binding : GestureBinding) : (b.retiredFor binding).length ≤ kRecentWordsAvoided := by
 rw [Book.retiredFor, length_drop]
 omega

theorem eligible_ne_nil {b : Book} {retired : List Bytes} (hrecent : b.recentWords.length ≤ kRecentWordsAvoided)
  (hretired : retired.length ≤ kRecentWordsAvoided) (language : Language) : b.eligible retired language ≠ [] := by
 intro hnil
 have hsub : confirmationWords language ⊆ b.recentWords ++ retired := by
  intro word hword
  have havoided := filter_eq_nil_iff.1 hnil word hword
  rw [decide_eq_true_iff, not_and_or, not_not, not_not] at havoided
  exact mem_append.2 havoided
 have hle := ((confirmationWords_nodup language).subperm hsub).length_le
 rw [confirmationWords_length, length_append] at hle
 unfold kRecentWordsAvoided at hrecent hretired
 omega

theorem pickWord_mem (env : Environment) {b : Book} {retired : List Bytes} (hrecent : b.recentWords.length ≤ kRecentWordsAvoided)
  (hretired : retired.length ≤ kRecentWordsAvoided) (language : Language) :
  (b.pickWord env retired language).1 ∈ b.eligible retired language := by
 have hpos : 0 < (b.eligible retired language).length := length_pos_of_ne_nil (eligible_ne_nil hrecent hretired language)
 rw [Book.pickWord]
 dsimp only
 rw [getD_eq_getElem _ _ (Nat.mod_lt _ hpos)]
 exact getElem_mem _

/-! ## What a call leaves -/

structure Tidy (b : Book) : Prop where
 ids : (b.prompts.map (·.id)).Nodup
 old : ∀ prompt ∈ b.prompts, prompt.id ≤ b.nextId
 bindings : (b.prompts.map (·.binding)).Nodup
 recent : b.recentWords.length ≤ kRecentWordsAvoided

structure Leaves (b after : Book) : Prop where
 prompts : after.prompts.Sublist b.prompts
 nextId : after.nextId = b.nextId
 recentWords : after.recentWords = b.recentWords

section Leave

variable {b after : Book}

theorem Tidy.leaves (h : Tidy b) (hleaves : Leaves b after) : Tidy after where
 ids := h.ids.sublist (hleaves.prompts.map _)
 old prompt hmem := hleaves.nextId ▸ h.old prompt (hleaves.prompts.subset hmem)
 bindings := h.bindings.sublist (hleaves.prompts.map _)
 recent := hleaves.recentWords ▸ h.recent

theorem Leaves.trans {b after later : Book} (h : Leaves b after) (h' : Leaves after later) : Leaves b later :=
 ⟨h'.prompts.trans h.prompts, h'.nextId.trans h.nextId, h'.recentWords.trans h.recentWords⟩

theorem leaves_expire (b : Book) (now : ℤ) : Leaves b (b.expire now) := ⟨filter_sublist, rfl, rfl⟩

theorem leaves_close (b : Book) (id : ℤ) : Leaves b (b.close id) := ⟨eraseP_sublist, rfl, rfl⟩

theorem leaves_miss (b : Book) (id now : ℤ) : Leaves b (b.miss id now) := by
 unfold Book.miss
 dsimp only
 split_ifs
 · exact ⟨nil_sublist _, rfl, rfl⟩
 · exact ⟨(leaves_close b id).prompts, rfl, rfl⟩

theorem leaves_hear (env : Environment) (b : Book) (id : ℤ) (heard : Bytes) (evidence : HeardEvidence) (now : ℤ) :
  Leaves b (b.hear env id heard evidence now).1 := by
 have hexpire := leaves_expire b now
 rcases hear_cases env b id heard evidence now with ⟨result, book, -, -, hbook, hhear⟩ | ⟨prompt, said, -, -, -, -, -, hhear⟩
 · rw [hhear]
   rcases hbook with rfl | rfl
   · exact hexpire
   · exact hexpire.trans (leaves_close _ id)
 · rcases hhear with ⟨-, hhear⟩ | ⟨-, hhear⟩
   · rw [hhear]
     exact hexpire.trans (leaves_miss _ id now)
   · rw [hhear]
     exact hexpire.trans ⟨(leaves_close _ prompt.id).prompts, rfl, rfl⟩

theorem leaves_consume (b : Book) (gesture : VoiceGesture) (binding : GestureBinding) (now : ℤ) :
  Leaves b (b.consume gesture binding now).1 := by
 unfold Book.consume
 split
 · exact ⟨List.Sublist.refl _, rfl, rfl⟩
 · split_ifs <;> exact ⟨List.Sublist.refl _, rfl, rfl⟩

end Leave

/-! ## What a Begin adds -/

theorem add_prompts (env : Environment) (b : Book) (binding : GestureBinding) (language : Language) (now : ℤ) :
  ∃ others, (b.add env binding language now).1.prompts = others ++ [(b.add env binding language now).2] ∧
   others.Sublist (b.prompts.filter fun waiting => waiting.binding ≠ binding) := by
 refine ⟨_, rfl, ?_⟩
 split_ifs
 · exact tail_sublist _
 · exact List.Sublist.refl _

theorem add_word (env : Environment) {b : Book} (hrecent : b.recentWords.length ≤ kRecentWordsAvoided) (binding : GestureBinding)
  (language : Language) (now : ℤ) :
  (b.add env binding language now).2.word ∉ (b.add env binding language now).2.retired := by
 have hmem := pickWord_mem env hrecent (retiredFor_length b binding) language
 exact (of_decide_eq_true (mem_filter.1 hmem).2).2

theorem tidy_add (env : Environment) {b : Book} (h : Tidy b) (binding : GestureBinding) (language : Language) (now : ℤ) :
  Tidy (b.add env binding language now).1 := by
 obtain ⟨others, hprompts, hothers⟩ := add_prompts env b binding language now
 have hsub : others.Sublist b.prompts := hothers.trans filter_sublist
 have hkept : Tidy { b with prompts := others } := h.leaves ⟨hsub, rfl, rfl⟩
 refine ⟨?_, fun prompt hmem => ?_, ?_, ?_⟩
 · rw [hprompts, map_append, map_singleton, nodup_append]
   refine ⟨hkept.ids, nodup_singleton _, fun id hold id' hnew => ?_⟩
   obtain ⟨prompt, hmem, rfl⟩ := mem_map.1 hold
   rw [mem_singleton.1 hnew]
   exact (Int.lt_add_one_of_le (hkept.old prompt hmem)).ne
 · rw [hprompts] at hmem
   rcases mem_append.1 hmem with hold | hnew
   · exact (hkept.old prompt hold).trans (Int.le_add_one le_rfl)
   · rw [mem_singleton.1 hnew]
     exact le_rfl
 · rw [hprompts, map_append, map_singleton, nodup_append]
   refine ⟨hkept.bindings, nodup_singleton _, fun other hold other' hnew => ?_⟩
   obtain ⟨prompt, hmem, rfl⟩ := mem_map.1 hold
   rw [mem_singleton.1 hnew]
   exact of_decide_eq_true (mem_filter.1 (hothers.subset hmem)).2
 · unfold Book.add
   dsimp only
   split_ifs with hlong
   · rw [length_tail, length_append, length_singleton, Nat.add_sub_cancel]
     exact h.recent
   · exact not_lt.1 hlong

theorem retiredFor_waiting {b : Book} (h : Tidy b) {waiting : GesturePrompt} (hmem : waiting ∈ b.prompts) :
  b.retiredFor waiting.binding =
   (waiting.retired ++ [waiting.word]).drop ((waiting.retired ++ [waiting.word]).length - kRecentWordsAvoided) := by
 obtain ⟨before, after, hprompts⟩ := append_of_mem hmem
 have hbindings := h.bindings
 rw [hprompts, map_append, map_cons, nodup_append, nodup_cons] at hbindings
 obtain ⟨-, ⟨hafter, -⟩, -⟩ := hbindings
 have hfold : ∀ (prompts : List GesturePrompt) (retired : List Bytes), waiting.binding ∉ prompts.map (·.binding) →
   prompts.foldl (fun retired other =>
    if other.binding = waiting.binding then other.retired ++ [other.word] else retired) retired = retired := by
  intro prompts
  induction prompts with
  | nil => exact fun _ _ => rfl
  | cons other prompts ih =>
   intro retired hnot
   rw [map_cons, mem_cons, not_or] at hnot
   rw [foldl_cons, if_neg (Ne.symm hnot.1)]
   exact ih retired hnot.2
 rw [Book.retiredFor, hprompts, foldl_append, foldl_cons, if_pos rfl, hfold after _ hafter]

theorem suffix_drop {α : Type} {s l : List α} {n : ℕ} (h : s <:+ l) (hlen : s.length ≤ n) : s <:+ l.drop (l.length - n) := by
 obtain ⟨front, rfl⟩ := h
 rw [length_append, drop_append_of_le_length (by omega)]
 exact suffix_append _ _

/-! ## Along a chain -/

structure ChainKept (binding : GestureBinding) (c : Chained) : Prop where
 tidy : Tidy c.session.book
 last : ∀ last ∈ c.chain.getLast?, last.binding = binding ∧ last.id ≤ c.session.book.nextId ∧
  ∀ prompt ∈ c.session.book.prompts, prompt.id = last.id → prompt = last
 retired : c.chain.length ≤ kRecentWordsAvoided + 1 → ∀ last ∈ c.chain.getLast?, c.chain.dropLast.map (·.word) <:+ last.retired
 fresh : c.chain.length ≤ kRecentWordsAvoided + 1 → (c.chain.map (·.word)).Nodup

section Keep

variable {env : Environment} {binding : GestureBinding} {c : Chained}

theorem ChainKept.leaves (h : ChainKept binding c) {session : Session} (hleaves : Leaves c.session.book session.book) :
  ChainKept binding { c with session } where
 tidy := h.tidy.leaves hleaves
 last last hlast := by
  obtain ⟨hbinding, hold, hone⟩ := h.last last hlast
  exact ⟨hbinding, hleaves.nextId ▸ hold, fun prompt hmem => hone prompt (hleaves.prompts.subset hmem)⟩
 retired := h.retired
 fresh := h.fresh

theorem ChainKept.other (h : ChainKept binding c) {b : Book} (hleaves : Leaves c.session.book b) (other : GestureBinding)
  (language : Language) (now : ℤ) {session : Session} (hsession : session.book = (b.add env other language now).1) :
  ChainKept binding { c with session } := by
 have htidy := h.tidy.leaves hleaves
 refine ⟨hsession ▸ tidy_add env htidy other language now, fun last hlast => ?_, h.retired, h.fresh⟩
 obtain ⟨hbinding, hold, hone⟩ := h.last last hlast
 obtain ⟨others, hprompts, hothers⟩ := add_prompts env b other language now
 rw [← hleaves.nextId] at hold
 refine ⟨hbinding, ?_, fun prompt hmem hid => ?_⟩
 · rw [hsession]
   exact hold.trans (Int.le_add_one le_rfl)
 · rw [hsession, hprompts] at hmem
   rcases mem_append.1 hmem with hkept | hnew
   · exact hone prompt (hleaves.prompts.subset (filter_sublist.subset (hothers.subset hkept))) hid
   · rw [mem_singleton.1 hnew] at hid
     change b.nextId + 1 = last.id at hid
     omega

theorem ChainKept.own (h : ChainKept binding c) {b : Book} (hleaves : Leaves c.session.book b) (language : Language) (now : ℤ)
  {session : Session} (hsession : session.book = (b.add env binding language now).1) {chain : List GesturePrompt}
  (hretired : chain.length ≤ kRecentWordsAvoided → chain.map (·.word) <:+ (b.add env binding language now).2.retired)
  (hfresh : chain.length ≤ kRecentWordsAvoided → (chain.map (·.word)).Nodup) :
  ChainKept binding { session, chain := chain ++ [(b.add env binding language now).2] } := by
 have htidy := h.tidy.leaves hleaves
 obtain ⟨others, hprompts, hothers⟩ := add_prompts env b binding language now
 refine ⟨hsession ▸ tidy_add env htidy binding language now, fun last hlast => ?_, fun hlen last hlast => ?_, fun hlen => ?_⟩
 · rw [getLast?_concat, Option.mem_some_iff] at hlast
   subst hlast
   refine ⟨rfl, ?_, fun prompt hmem hid => ?_⟩
   · rw [hsession]
     exact le_rfl
   · rw [hsession, hprompts] at hmem
     rcases mem_append.1 hmem with hkept | hnew
     · have hold := htidy.old prompt (filter_sublist.subset (hothers.subset hkept))
       change prompt.id = b.nextId + 1 at hid
       omega
     · exact mem_singleton.1 hnew
 · rw [getLast?_concat, Option.mem_some_iff] at hlast
   rw [length_append, length_singleton, Nat.add_le_add_iff_right] at hlen
   rw [← hlast, dropLast_concat]
   exact hretired hlen
 · rw [length_append, length_singleton, Nat.add_le_add_iff_right] at hlen
   rw [map_append, map_singleton, nodup_append]
   refine ⟨hfresh hlen, nodup_singleton _, fun word hword word' hnew heq => ?_⟩
   rw [mem_singleton] at hnew
   subst heq
   have hnot := add_word env htidy.recent binding language now
   rw [← hnew] at hnot
   exact hnot ((hretired hlen).subset hword)

theorem retired_waiting {b : Book} (h : ChainKept binding c) (hleaves : Leaves c.session.book b) {last : GesturePrompt}
  (hlast : c.chain.getLast? = some last) (hwaits : last ∈ b.prompts) (hlen : c.chain.length ≤ kRecentWordsAvoided) :
  c.chain.map (·.word) <:+ b.retiredFor binding := by
 obtain ⟨hbinding, -, -⟩ := h.last last hlast
 have hsplit : c.chain = c.chain.dropLast ++ [last] := (dropLast_append_getLast? last hlast).symm
 have hwords : c.chain.map (·.word) <:+ last.retired ++ [last.word] := by
  rw [hsplit, map_append, map_singleton]
  exact suffix_append_self_iff.2 (h.retired (hlen.trans (Nat.le_succ _)) last hlast)
 rw [← hbinding, retiredFor_waiting (h.tidy.leaves hleaves) hwaits]
 exact suffix_drop hwords (by rwa [length_map])

theorem begin_lockedOut {b : Book} {now : ℤ} (h : (b.expire now).lockedOut now = true) (language : Language) :
  b.begin env binding language now = (b.expire now, none) := if_pos h

theorem begin_free {b : Book} {now : ℤ} (h : (b.expire now).lockedOut now = false) (language : Language) :
  b.begin env binding language now =
   (((b.expire now).add env binding language now).1, some ((b.expire now).add env binding language now).2) := by
 rw [Book.begin, if_neg (Bool.not_eq_true _ ▸ h)]

theorem ChainKept.begin (h : ChainKept binding c) (other : GestureBinding) (language : Language) (now : ℤ) :
  ChainKept binding (c.step env binding (.begin other language now)) := by
 have hleaves := leaves_expire c.session.book now
 have hbook : (c.session.step env (.begin other language now)).book = (c.session.book.begin env other language now).1 := rfl
 rw [Chained.step]
 cases hlocked : (c.session.book.expire now).lockedOut now with
 | true =>
  rw [begin_lockedOut hlocked] at hbook
  rw [begin_lockedOut hlocked]
  split_ifs <;> exact h.leaves (hbook ▸ hleaves)
 | false =>
  rw [begin_free hlocked] at hbook
  by_cases hother : other = binding
  · subst hother
    rw [if_pos rfl, begin_free hlocked]
    dsimp only
    split_ifs with hwaits
    · obtain ⟨last, hlast, hwaiting⟩ := hwaits
      exact h.own hleaves language now hbook (retired_waiting h hleaves hlast hwaiting) fun hlen =>
       h.fresh (hlen.trans (Nat.le_succ _))
    · have hretired : ([] : List GesturePrompt).map (·.word) <:+ ((c.session.book.expire now).add env other language now).2.retired :=
       nil_suffix
      exact h.own hleaves language now hbook (fun _ => hretired) fun _ => nodup_nil
  · rw [if_neg hother]
    exact h.other hleaves other language now hbook

theorem ChainKept.step (h : ChainKept binding c) (call : Call) : ChainKept binding (c.step env binding call) := by
 cases call with
 | begin other language now => exact h.begin other language now
 | hear id heard evidence now => exact h.leaves (leaves_hear env c.session.book id heard evidence now)
 | cancel id => exact h.leaves ⟨filter_sublist, rfl, rfl⟩
 | consume gesture other now => exact h.leaves (leaves_consume c.session.book gesture other now)

end Keep

theorem chainKept (env : Environment) (binding : GestureBinding) (calls : List Call) :
  ChainKept binding (chainAfter env binding calls) := by
 have hnew : ChainKept binding {} := by
  refine ⟨⟨nodup_nil, nofun, nodup_nil, Nat.zero_le _⟩, nofun, fun _ => nofun, fun _ => nodup_nil⟩
 exact run_invariant_unconditional (fun _ call h => h.step call) hnew calls

/-! ## Heard again -/

theorem find_last {prompts : List GesturePrompt} {last : GesturePrompt}
  (hone : ∀ prompt ∈ prompts, prompt.id = last.id → prompt = last) :
  prompts.find? (fun prompt => prompt.id = last.id) = if last ∈ prompts then some last else none := by
 cases hfind : prompts.find? fun prompt => prompt.id = last.id with
 | none =>
  rw [if_neg]
  intro hmem
  have hnot := find?_eq_none.1 hfind last hmem
  exact hnot (decide_eq_true rfl)
 | some prompt =>
  have hid : prompt.id = last.id := by simpa using find?_some hfind
  have hsame := hone prompt (mem_of_find?_eq_some hfind) hid
  rw [if_pos (hsame ▸ mem_of_find?_eq_some hfind), hsame]

theorem hear_retired (env : Environment) {b : Book} {last : GesturePrompt} {heard : Bytes} {now : ℤ} {index : ℕ}
  (hone : ∀ prompt ∈ b.prompts, prompt.id = last.id → prompt = last)
  (hheard : hearConfirmationWord env.phonetics heard last.language = .word index)
  (hretired : (confirmationWords last.language).getD index [] ∈ last.retired) (evidence : HeardEvidence) :
  (b.hear env last.id heard evidence now).2.1 =
   if last ∈ (b.expire now).prompts then if b.lockedOut now then .lockedOut else .retired else .noPrompt := by
 have hkept : ∀ prompt ∈ (b.expire now).prompts, prompt.id = last.id → prompt = last :=
  fun prompt hmem => hone prompt ((leaves_expire b now).prompts.subset hmem)
 rw [Book.hear]
 dsimp only
 rw [find_last hkept]
 by_cases hwaits : last ∈ (b.expire now).prompts
 · rw [if_pos hwaits, if_pos hwaits]
   dsimp only
   rw [show (b.expire now).lockedOut now = b.lockedOut now from rfl, hheard]
   dsimp only
   rw [if_pos hretired]
   split_ifs <;> rfl
 · rw [if_neg hwaits, if_neg hwaits]

/-- Along a chain of at most `kRecentWordsAvoided + 1` prompts no word is drawn again, and hearing one before the last, for
sure, is hearing a retired word. -/
theorem chain_words_retired (env : Environment) (binding : GestureBinding) (calls : List Call)
  (hlen : (chainAfter env binding calls).chain.length ≤ kRecentWordsAvoided + 1) :
  ((chainAfter env binding calls).chain.map (·.word)).Nodup ∧
  ∀ last ∈ (chainAfter env binding calls).chain.getLast?, ∀ earlier ∈ (chainAfter env binding calls).chain.dropLast,
   ∀ heard evidence now index, hearConfirmationWord env.phonetics heard last.language = .word index →
    (confirmationWords last.language).getD index [] = earlier.word →
     ((afterCalls env calls).book.hear env last.id heard evidence now).2.1 =
      if last ∈ ((afterCalls env calls).book.expire now).prompts then
       if (afterCalls env calls).book.lockedOut now then .lockedOut else .retired
      else .noPrompt := by
 have hkept := chainKept env binding calls
 refine ⟨hkept.fresh hlen, fun last hlast earlier hearlier heard evidence now index hheard hword => ?_⟩
 obtain ⟨-, -, hone⟩ := hkept.last last hlast
 rw [chainAfter_session] at hone
 apply hear_retired env hone hheard
 rw [hword]
 exact (hkept.retired hlen last hlast).subset (List.mem_map_of_mem hearlier)

def cameraBegins (times : ℕ) : List Call := (List.range times).map fun i => .begin cameraBinding .english i

theorem chain_words_retired_camera :
  ((afterCalls plainEnvironment (cameraBegins 2)).book.hear plainEnvironment 2 "harbor" ⟨true, true⟩ 5).2.1 = .retired := by
 obtain ⟨-, hretired⟩ := chain_words_retired plainEnvironment cameraBinding (cameraBegins 2) (by decide)
 exact hretired ⟨2, "maple", .english, cameraBinding, 30001, ["harbor"]⟩ (by decide)
  ⟨1, "harbor", .english, cameraBinding, 30000, []⟩ (by decide) "harbor" ⟨true, true⟩ 5 0 (by decide)
  (by decide)

/-- The tenth prompt of a chain has the first one's word again, and hearing it mints. -/
theorem first_word_drawn_again :
  (chainAfter plainEnvironment cameraBinding (cameraBegins 10)).chain.map (·.word) =
    ["harbor", "maple", "tiger", "lemon", "rocket", "garden", "basket", "dragon", "planet", "harbor"].map utf8 ∧
   ((afterCalls plainEnvironment (cameraBegins 10)).book.hear plainEnvironment 10 "harbor" ⟨true, true⟩ 10).2.1 = .minted := by
 constructor <;> decide +kernel

end MoltBrowser.GestureBook
