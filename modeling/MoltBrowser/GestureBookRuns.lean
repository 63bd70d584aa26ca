import MoltBrowser.GestureBook

set_option autoImplicit false

/-!
# A voice gesture is a one-time capability

Read off the log alone: which `Hear` minted for a prompt that still waited, and
which `Consume` used what it minted. Each live gesture of the book stands for
one such `Hear`, and leaves the book with the `Consume` that uses it.
-/
namespace MoltBrowser.GestureBook
open List

open ConfirmationWords TransitionRuns

abbrev Log := List (Call × Answer)

def InOrder (calls : List Call) : Prop := (calls.filterMap Call.now?).Pairwise (· ≤ ·)

/-- The times at which `Hear` took a wrong word. -/
def wrongTimes (log : Log) : List ℤ :=
 log.filterMap fun
  | (.hear _ _ _ now, .heard .wrongWord _) => some now
  | _ => none

def WrongWordAt (log : Log) (k : ℕ) (id now : ℤ) : Prop :=
 ∃ heard evidence gesture, log[k]? = some (.hear id heard evidence now, .heard .wrongWord gesture)

/-- The call at `k` is the wrong word that makes `kMaxWrongWords` within the window. -/
def LockoutAt (log : Log) (k : ℕ) (now : ℤ) : Prop :=
 (∃ id, WrongWordAt log k id now) ∧
  kMaxWrongWords ≤
   ((wrongTimes (log.take (k + 1))).filter fun t => now < t + kWrongWordWindowMs).length

/-- A `Cancel`, a wrong word or a lockout: prompt `id` waits no more. -/
def Closes (log : Log) (id : ℤ) (k : ℕ) : Prop :=
 (∃ answer, log[k]? = some (.cancel id, answer)) ∨ (∃ now, WrongWordAt log k id now) ∨
  ∃ now, LockoutAt log k now

def BeginsAt (log : Log) (k : ℕ) (binding : GestureBinding) : Prop :=
 ∃ language now answer, log[k]? = some (.begin binding language now, answer)

/-- The call at `g` drew `prompt` at `now`, and up to `upTo` nothing begun or closed it since. -/
structure WaitsSince (log : Log) (prompt : GesturePrompt) (g upTo : ℕ) (now : ℤ) : Prop where
 begun : log[g]? = some (.begin prompt.binding prompt.language now, .begun (some prompt))
 latest : ∀ k, g < k → k < upTo → ¬ BeginsAt log k prompt.binding
 unclosed : ∀ k, g < k → k < upTo → ¬ Closes log prompt.id k

/-- The call at `h` is a `Hear` that heard the word of the latest prompt for `binding`, cleanly
and for sure, and minted. -/
structure MintedFor (phonetics : Phonetics) (log : Log) (binding : GestureBinding) (h : ℕ)
  (now : ℤ) (prompt : GesturePrompt) (heard : Bytes) (evidence : HeardEvidence) : Prop where
 binding : prompt.binding = binding
 minted : ∃ gesture, log[h]? = some (.hear prompt.id heard evidence now, .heard .minted gesture)
 fromMicrophone : evidence.fromMicrophone = true
 clean : evidence.clean = true
 said : ∃ index, hearConfirmationWord phonetics heard prompt.language = .word index ∧
  (confirmationWords prompt.language)[index]? = some prompt.word
 waited : ∃ g begun, g < h ∧ WaitsSince log prompt g h begun ∧ now < begun + kGesturePromptWindowMs

def MintsAt (phonetics : Phonetics) (log : Log) (binding : GestureBinding) (h : ℕ) (now : ℤ) :
  Prop :=
 ∃ prompt heard evidence, MintedFor phonetics log binding h now prompt heard evidence

def ConsumedAt (log : Log) (i : ℕ) (binding : GestureBinding) (now : ℤ) : Prop :=
 ∃ gesture, log[i]? = some (.consume gesture binding now, .consumed true)

def MintingHearAt (log : Log) (m : ℕ) (now : ℤ) : Prop :=
 ∃ id heard evidence gesture, log[m]? = some (.hear id heard evidence now, .heard .minted gesture)

/-! ### What was logged stays -/

section Append

variable {log : Log} {e : Call × Answer} {k : ℕ}

theorem getElem_append_old (h : k < log.length) : (log ++ [e])[k]? = log[k]? :=
 getElem?_append_left h

variable {x : Call × Answer}

theorem lt_of_logged (h : log[k]? = some x) : k < log.length :=
 (List.getElem?_eq_some_iff.1 h).1

theorem logged_append (h : log[k]? = some x) : (log ++ [e])[k]? = some x := by
 rw [getElem_append_old (lt_of_logged h)]
 exact h

theorem logged_cases (h : (log ++ [e])[k]? = some x) :
  log[k]? = some x ∨ k = log.length ∧ e = x := by
 rcases Nat.lt_or_ge k log.length with hlt | hge
 · rw [getElem_append_old hlt] at h
   exact Or.inl h
 · rw [getElem?_append_right hge] at h
   have hlt := (List.getElem?_eq_some_iff.1 h).1
   rw [length_singleton] at hlt
   have hk : k = log.length := by omega
   subst hk
   exact Or.inr ⟨rfl, by simpa using h⟩

theorem wrongWordAt_append (h : k < log.length) {id now : ℤ} :
  WrongWordAt (log ++ [e]) k id now ↔ WrongWordAt log k id now := by
 unfold WrongWordAt
 rw [getElem_append_old h]

theorem lockoutAt_append (h : k < log.length) {now : ℤ} :
  LockoutAt (log ++ [e]) k now ↔ LockoutAt log k now := by
 unfold LockoutAt
 simp only [wrongWordAt_append h]
 rw [take_append_of_le_length (Nat.succ_le_of_lt h)]

theorem closes_append (h : k < log.length) {id : ℤ} :
  Closes (log ++ [e]) id k ↔ Closes log id k := by
 unfold Closes
 simp only [getElem_append_old h, wrongWordAt_append h, lockoutAt_append h]

variable {binding : GestureBinding}

theorem beginsAt_append (h : k < log.length) :
  BeginsAt (log ++ [e]) k binding ↔ BeginsAt log k binding := by
 unfold BeginsAt
 rw [getElem_append_old h]

theorem WaitsSince.append {prompt : GesturePrompt} {g upTo : ℕ} {now : ℤ}
  (h : WaitsSince log prompt g upTo now) (hupTo : upTo ≤ log.length) :
  WaitsSince (log ++ [e]) prompt g upTo now where
 begun := logged_append h.begun
 latest k hg hk := by
  rw [beginsAt_append (hk.trans_le hupTo)]
  exact h.latest k hg hk
 unclosed k hg hk := by
  rw [closes_append (hk.trans_le hupTo)]
  exact h.unclosed k hg hk

theorem WaitsSince.extend {prompt : GesturePrompt} {g : ℕ} {now : ℤ}
  (h : WaitsSince log prompt g log.length now)
  (hbegins : ¬ BeginsAt (log ++ [e]) log.length prompt.binding)
  (hcloses : ¬ Closes (log ++ [e]) prompt.id log.length) :
  WaitsSince (log ++ [e]) prompt g (log ++ [e]).length now := by
 have hold := h.append (e := e) le_rfl
 have hlen : (log ++ [e]).length = log.length + 1 := by simp
 refine ⟨hold.begun, fun k hg hk => ?_, fun k hg hk => ?_⟩
 · rcases Nat.lt_or_ge k log.length with hlt | hge
   · exact hold.latest k hg hlt
   · rw [show k = log.length by omega]
     exact hbegins
 · rcases Nat.lt_or_ge k log.length with hlt | hge
   · exact hold.unclosed k hg hlt
   · rw [show k = log.length by omega]
     exact hcloses

variable {h : ℕ}

theorem MintedFor.append {phonetics : Phonetics} {now : ℤ}
  {prompt : GesturePrompt} {heard : Bytes} {evidence : HeardEvidence}
  (hm : MintedFor phonetics log binding h now prompt heard evidence) :
  MintedFor phonetics (log ++ [e]) binding h now prompt heard evidence := by
 obtain ⟨gesture, hminted⟩ := hm.minted
 obtain ⟨g, begun, hg, hwaits, hwindow⟩ := hm.waited
 exact
  { hm with
    minted := ⟨gesture, logged_append hminted⟩
    waited := ⟨g, begun, hg, hwaits.append (lt_of_logged hminted).le, hwindow⟩ }

theorem MintsAt.append {phonetics : Phonetics} {now : ℤ}
  (hm : MintsAt phonetics log binding h now) : MintsAt phonetics (log ++ [e]) binding h now := by
 obtain ⟨prompt, heard, evidence, hm⟩ := hm
 exact ⟨prompt, heard, evidence, hm.append⟩

theorem MintsAt.lt {phonetics : Phonetics} {now : ℤ}
  (hm : MintsAt phonetics log binding h now) : h < log.length := by
 obtain ⟨prompt, heard, evidence, hm⟩ := hm
 obtain ⟨gesture, hminted⟩ := hm.minted
 exact lt_of_logged hminted

theorem wrongTimes_append : wrongTimes (log ++ [e]) = wrongTimes log ++ wrongTimes [e] :=
 filterMap_append

end Append

/-! ### What a call does -/

/-- A `Hear` that neither mints nor takes a wrong word changes nothing, or closes its prompt. -/
theorem hear_cases (env : Environment) (b : Book) (id : ℤ) (heard : Bytes)
  (evidence : HeardEvidence) (now : ℤ) :
  (∃ result book, result ≠ .minted ∧ result ≠ .wrongWord ∧
    (book = b.expire now ∨ book = (b.expire now).close id) ∧
    b.hear env id heard evidence now = (book, result, none)) ∨
   ∃ prompt said, (b.expire now).prompts.find? (·.id = id) = some prompt ∧
    (b.expire now).lockedOut now = false ∧
    evidence.fromMicrophone = true ∧ evidence.clean = true ∧
    (∃ index, hearConfirmationWord env.phonetics heard prompt.language = .word index ∧
     (confirmationWords prompt.language)[index]? = some said) ∧
    (said ≠ prompt.word ∧
      b.hear env id heard evidence now = ((b.expire now).miss id now, .wrongWord, none) ∨
     said = prompt.word ∧
      b.hear env id heard evidence now =
       (((b.expire now).mint prompt now).1, .minted,
        some ((b.expire now).mint prompt now).2)) := by
 unfold Book.hear
 dsimp only
 split
 · exact Or.inl ⟨.noPrompt, _, by decide, by decide, Or.inl rfl, rfl⟩
 · next prompt hfind =>
   split
   · exact Or.inl ⟨.lockedOut, _, by decide, by decide, Or.inr rfl, rfl⟩
   · next hlocked =>
     split
     · exact Or.inl ⟨.notAWord, _, by decide, by decide, Or.inl rfl, rfl⟩
     · exact Or.inl ⟨.unsure, _, by decide, by decide, Or.inl rfl, rfl⟩
     · next index hword =>
       split
       · exact Or.inl ⟨.retired, _, by decide, by decide, Or.inl rfl, rfl⟩
       · split
         · exact Or.inl ⟨.notClean, _, by decide, by decide, Or.inl rfl, rfl⟩
         · next hevidence =>
           have hsaid : (confirmationWords prompt.language)[index]? =
             some ((confirmationWords prompt.language).getD index []) := by
            have hlt := hearConfirmationWord_lt env.phonetics hword
            simp [getElem?_eq_getElem hlt]
           simp only [Bool.or_eq_true, Bool.not_eq_true', not_or, Bool.not_eq_false] at hevidence
           refine Or.inr ⟨prompt, _, hfind, by simpa using hlocked, hevidence.1, hevidence.2,
            ⟨index, hword, hsaid⟩, ?_⟩
           split
           · next hne => exact Or.inl ⟨hne, rfl⟩
           · next heq => exact Or.inr ⟨not_not.1 heq, rfl⟩

/-! ### Prompts -/

/-- Each prompt of the book is the latest of its binding, and nothing closed it. -/
structure PromptsWait (b : Book) (log : Log) (clock : ℤ) : Prop where
 waiting : ∀ prompt ∈ b.prompts, ∃ g begun, WaitsSince log prompt g log.length begun ∧
  prompt.expiresMs = begun + kGesturePromptWindowMs
 ids : (b.prompts.map (·.id)).Nodup
 old : ∀ prompt ∈ b.prompts, prompt.id ≤ b.nextId
 unlocked : b.prompts ≠ [] → b.lockedUntilMs ≤ clock

section Prompts

variable {b : Book} {log : Log} {e : Call × Answer} {clock : ℤ}

theorem PromptsWait.mono (h : PromptsWait b log clock) {later : ℤ} (hle : clock ≤ later) :
  PromptsWait b log later :=
 { h with unlocked := fun hne => (h.unlocked hne).trans hle }

theorem PromptsWait.of_sublist (h : PromptsWait b log clock) {after : Book}
  (hprompts : after.prompts.Sublist b.prompts) (hid : after.nextId = b.nextId)
  (hlocked : after.prompts ≠ [] → after.lockedUntilMs = b.lockedUntilMs) :
  PromptsWait after log clock where
 waiting prompt hmem := h.waiting prompt (hprompts.subset hmem)
 ids := h.ids.sublist (hprompts.map _)
 old prompt hmem := by
  rw [hid]
  exact h.old prompt (hprompts.subset hmem)
 unlocked hne := by
  rw [hlocked hne]
  exact h.unlocked fun hnil => hne (sublist_nil.1 (hnil ▸ hprompts))

theorem PromptsWait.logged (h : PromptsWait b log clock)
  (he : ∀ prompt ∈ b.prompts, ¬ BeginsAt (log ++ [e]) log.length prompt.binding ∧
   ¬ Closes (log ++ [e]) prompt.id log.length) : PromptsWait b (log ++ [e]) clock :=
 { h with
   waiting := fun prompt hmem => by
    obtain ⟨g, begun, hwaits, hexpires⟩ := h.waiting prompt hmem
    exact ⟨g, begun, hwaits.extend (he prompt hmem).1 (he prompt hmem).2, hexpires⟩ }

theorem PromptsWait.expire (h : PromptsWait b log clock) (now : ℤ) :
  PromptsWait (b.expire now) log clock :=
 h.of_sublist filter_sublist rfl fun _ => rfl

theorem PromptsWait.close (h : PromptsWait b log clock) (id : ℤ) :
  PromptsWait (b.close id) log clock :=
 h.of_sublist eraseP_sublist rfl fun _ => rfl

theorem ne_of_mem_eraseP {prompts : List GesturePrompt} (hids : (prompts.map (·.id)).Nodup)
  {id : ℤ} {prompt : GesturePrompt} (hmem : prompt ∈ prompts.eraseP fun p => p.id = id) :
  prompt.id ≠ id := by
 induction prompts with
 | nil => exact absurd hmem not_mem_nil
 | cons first rest ih =>
  rw [map_cons, nodup_cons] at hids
  by_cases hfirst : first.id = id
  · rw [eraseP_cons_of_pos (by simpa using hfirst)] at hmem
    intro heq
    exact hids.1 (mem_map.2 ⟨prompt, hmem, heq.trans hfirst.symm⟩)
  · rw [eraseP_cons_of_neg (by simpa using hfirst)] at hmem
    rcases mem_cons.1 hmem with rfl | hrest
    · exact hfirst
    · exact ih hids.2 hrest

theorem PromptsWait.begin (h : PromptsWait b log clock) (env : Environment)
  (binding : GestureBinding) (language : Language) (hclock : b.lockedUntilMs ≤ clock)
  (he : e = (.begin binding language clock, .begun (some (b.add env binding language clock).2))) :
  PromptsWait (b.add env binding language clock).1 (log ++ [e]) clock := by
 have hothers : ∀ prompt ∈ b.prompts, prompt.binding ≠ binding →
   ¬ BeginsAt (log ++ [e]) log.length prompt.binding ∧
    ¬ Closes (log ++ [e]) prompt.id log.length := by
  intro prompt _ hne
  have hlast : (log ++ [e])[log.length]? = some e := by simp
  refine ⟨?_, ?_⟩
  · rintro ⟨language', now', answer, hlogged⟩
    rw [hlast, he] at hlogged
    simp only [Option.some.injEq, Prod.mk.injEq, Call.begin.injEq] at hlogged
    exact hne hlogged.1.1.symm
  · rintro (⟨answer, hlogged⟩ | ⟨now', heard, evidence, gesture, hlogged⟩ |
      ⟨now', ⟨id, heard, evidence, gesture, hlogged⟩, -⟩)
    all_goals
     rw [hlast, he] at hlogged
     simp at hlogged
 set others := (if (b.prompts.filter fun waiting => waiting.binding ≠ binding).length ≥
  kMaxWaitingPrompts then (b.prompts.filter fun waiting => waiting.binding ≠ binding).tail
  else b.prompts.filter fun waiting => waiting.binding ≠ binding) with hothersDef
 have hfiltered : others.Sublist (b.prompts.filter fun waiting => waiting.binding ≠ binding) := by
  rw [hothersDef]
  split
  · exact tail_sublist _
  · exact List.Sublist.refl _
 have hsub : others.Sublist b.prompts := hfiltered.trans filter_sublist
 have hshrunk : PromptsWait { b with prompts := others } log clock :=
  h.of_sublist hsub rfl fun _ => rfl
 have hkept := hshrunk.logged (e := e) fun prompt hmem => hothers prompt (hsub.subset hmem)
  (by simpa using (mem_filter.1 (hfiltered.subset hmem)).2)
 have hprompts : (b.add env binding language clock).1.prompts =
   others ++ [(b.add env binding language clock).2] := rfl
 refine ⟨fun prompt hmem => ?_, ?_, fun prompt hmem => ?_, fun _ => hclock⟩
 · rw [hprompts] at hmem
   rcases mem_append.1 hmem with hold | hnew
   · exact hkept.waiting prompt hold
   · rw [mem_singleton] at hnew
     subst hnew
     refine ⟨log.length, clock, ⟨by simp [he, Book.add], fun k hg hk => ?_, fun k hg hk => ?_⟩,
      rfl⟩
     all_goals
      rw [length_append, length_singleton] at hk
      omega
 · rw [hprompts, map_append, nodup_append]
   refine ⟨hkept.ids, nodup_singleton _, fun id hold id' hnew => ?_⟩
   rw [map_singleton, mem_singleton] at hnew
   obtain ⟨prompt, hmem, rfl⟩ := mem_map.1 hold
   have hle : prompt.id ≤ b.nextId := hkept.old prompt hmem
   have hid : (b.add env binding language clock).2.id = b.nextId + 1 := rfl
   rw [hnew, hid]
   omega
 · have hid : (b.add env binding language clock).1.nextId = b.nextId + 1 := rfl
   rw [hid]
   rw [hprompts] at hmem
   rcases mem_append.1 hmem with hold | hnew
   · have hle : prompt.id ≤ b.nextId := hkept.old prompt hold
     omega
   · rw [mem_singleton.1 hnew]
     exact le_rfl

end Prompts

/-! ### Lockouts -/

def within (now : ℤ) (times : List ℤ) : List ℤ :=
 times.filter fun t => now < t + kWrongWordWindowMs

/-- What the book keeps of the wrong words decides as the log does. -/
structure Lockouts (b : Book) (log : Log) (clock : ℤ) : Prop where
 past : ∀ t ∈ wrongTimes log, t ≤ clock
 kept : ∀ now, clock ≤ now → b.lockedUntilMs ≤ now →
  within now (wrongTimes log) = within now b.wrongMs
 keptPast : ∀ t ∈ b.wrongMs, t ≤ clock
 locked : ∀ k t, LockoutAt log k t → t + kLockoutMs ≤ b.lockedUntilMs
 later : ∀ k t, LockoutAt log k t → ∀ m now, k < m → MintingHearAt log m now →
  t + kLockoutMs ≤ now

section Lockouts

variable {b : Book} {log : Log} {e : Call × Answer} {clock : ℤ}

theorem Lockouts.mono (h : Lockouts b log clock) {later : ℤ} (hle : clock ≤ later) :
  Lockouts b log later :=
 { h with
   past := fun t ht => (h.past t ht).trans hle
   kept := fun now hnow => h.kept now (hle.trans hnow)
   keptPast := fun t ht => (h.keptPast t ht).trans hle }

theorem Lockouts.of_eq (h : Lockouts b log clock) {after : Book}
  (hlocked : after.lockedUntilMs = b.lockedUntilMs) (hwrong : after.wrongMs = b.wrongMs) :
  Lockouts after log clock :=
 { h with
   kept := by rw [hlocked, hwrong]; exact h.kept
   keptPast := by rw [hwrong]; exact h.keptPast
   locked := by rw [hlocked]; exact h.locked }

theorem Lockouts.expire (h : Lockouts b log clock) : Lockouts (b.expire clock) log clock :=
 { h with
   kept := fun now hnow hlocked => by
    rw [h.kept now hnow hlocked]
    unfold within Book.expire
    dsimp only
    rw [filter_filter]
    refine filter_congr fun t ht => ?_
    have hpast := h.keptPast t ht
    by_cases hin : now < t + kWrongWordWindowMs
    · simp only [hin, decide_true, Bool.true_and]
      have hkeep : ¬ (t + kWrongWordWindowMs ≤ clock ∨ t > clock) := by omega
      simp [hkeep]
    · simp [hin]
   keptPast := fun t ht => h.keptPast t (mem_filter.1 ht).1 }

theorem within_expire (b : Book) (now : ℤ) : within now (b.expire now).wrongMs =
  (b.expire now).wrongMs := by
 refine filter_eq_self.2 fun t ht => ?_
 have hkeep := (mem_filter.1 ht).2
 have hkeep : ¬ (t + kWrongWordWindowMs ≤ now ∨ t > now) := by simpa using hkeep
 have hin : now < t + kWrongWordWindowMs := by omega
 simpa using hin

theorem wrongTimes_wrongWord {id now : ℤ} {heard : Bytes} {evidence : HeardEvidence}
  {gesture : Option VoiceGesture} :
  wrongTimes [(.hear id heard evidence now, .heard .wrongWord gesture)] = [now] := rfl

theorem not_wrongWordAt_last (hquiet : wrongTimes [e] = []) {id now : ℤ} :
  ¬ WrongWordAt (log ++ [e]) log.length id now := by
 rintro ⟨heard, evidence, gesture, hlogged⟩
 have hlast : (log ++ [e])[log.length]? = some e := by simp
 rw [hlast, Option.some.injEq] at hlogged
 rw [hlogged, wrongTimes_wrongWord] at hquiet
 exact absurd hquiet (by simp)

theorem lt_of_lockoutAt {k : ℕ} {t : ℤ} (h : LockoutAt log k t) : k < log.length := by
 obtain ⟨⟨id, heard, evidence, gesture, hlogged⟩, -⟩ := h
 exact lt_of_logged hlogged

theorem lockoutAt_cases {k : ℕ} {t : ℤ} (h : LockoutAt (log ++ [e]) k t) :
  LockoutAt log k t ∨ k = log.length := by
 rcases Nat.lt_or_ge k log.length with hlt | hge
 · exact Or.inl ((lockoutAt_append hlt).1 h)
 · have hlt := lt_of_lockoutAt h
   rw [length_append, length_singleton] at hlt
   exact Or.inr (by omega)

theorem Lockouts.logged (h : Lockouts b log clock) (hquiet : wrongTimes [e] = [])
  (hmint : ∀ now, MintingHearAt (log ++ [e]) log.length now → b.lockedUntilMs ≤ now) :
  Lockouts b (log ++ [e]) clock := by
 have hsame : wrongTimes (log ++ [e]) = wrongTimes log := by
  rw [wrongTimes_append, hquiet, append_nil]
 have hlockout : ∀ k t, LockoutAt (log ++ [e]) k t → LockoutAt log k t := by
  intro k t hk
  rcases lockoutAt_cases hk with hold | rfl
  · exact hold
  · obtain ⟨⟨id, hwrong⟩, -⟩ := hk
    exact absurd hwrong (not_wrongWordAt_last hquiet)
 refine ⟨by rw [hsame]; exact h.past, by rw [hsame]; exact h.kept, h.keptPast,
  fun k t hk => h.locked k t (hlockout k t hk), fun k t hk m now hkm hm => ?_⟩
 obtain ⟨id, heard, evidence, gesture, hlogged⟩ := hm
 rcases logged_cases hlogged with hold | ⟨rfl, -⟩
 · exact h.later k t (hlockout k t hk) m now hkm ⟨id, heard, evidence, gesture, hold⟩
 · exact (h.locked k t (hlockout k t hk)).trans (hmint now ⟨id, heard, evidence, gesture, hlogged⟩)

theorem Lockouts.miss (h : Lockouts b log clock) (hfresh : within clock b.wrongMs = b.wrongMs)
  (hunlocked : b.lockedUntilMs ≤ clock) (id : ℤ) (heard : Bytes) (evidence : HeardEvidence)
  (gesture : Option VoiceGesture)
  (he : e = (.hear id heard evidence clock, .heard .wrongWord gesture)) :
  Lockouts (b.miss id clock) (log ++ [e]) clock ∧
   (LockoutAt (log ++ [e]) log.length clock → (b.miss id clock).prompts = []) := by
 have htimes : wrongTimes (log ++ [e]) = wrongTimes log ++ [clock] := by
  rw [wrongTimes_append, he, wrongTimes_wrongWord]
 have hnow : within clock [clock] = [clock] := by simp [within, kWrongWordWindowMs]
 have hcount : within clock (wrongTimes (log ++ [e])) = b.wrongMs ++ [clock] := by
  rw [htimes, within, filter_append, ← within, ← within, h.kept clock le_rfl hunlocked,
   hfresh, hnow]
 have hlast : ∀ t, LockoutAt (log ++ [e]) log.length t →
   t = clock ∧ kMaxWrongWords ≤ (b.wrongMs ++ [clock]).length := by
  rintro t ⟨⟨id', heard', evidence', gesture', hlogged⟩, hlen⟩
  simp only [getElem?_concat_length, he, Option.some.injEq, Prod.mk.injEq,
   Call.hear.injEq] at hlogged
  have ht : t = clock := hlogged.1.2.2.2.symm
  subst ht
  rw [take_of_length_le (by simp)] at hlen
  exact ⟨rfl, hcount ▸ hlen⟩
 have hpast : ∀ t ∈ wrongTimes (log ++ [e]), t ≤ clock := by
  intro t ht
  rw [htimes] at ht
  rcases mem_append.1 ht with hold | hnew
  · exact h.past t hold
  · exact (mem_singleton.1 hnew).le
 have hlater : ∀ k t, LockoutAt (log ++ [e]) k t → ∀ m now, k < m →
   MintingHearAt (log ++ [e]) m now → t + kLockoutMs ≤ now := by
  rintro k t hk m now hkm ⟨id', heard', evidence', gesture', hlogged⟩
  rcases logged_cases hlogged with hold | ⟨rfl, heq⟩
  · have hlt : k < log.length := hkm.trans (lt_of_logged hold)
    exact h.later k t ((lockoutAt_append hlt).1 hk) m now hkm
     ⟨id', heard', evidence', gesture', hold⟩
  · rw [he] at heq
    simp at heq
 unfold Book.miss
 dsimp only
 split
 · refine ⟨⟨hpast, fun now hclock hlocked => ?_, by simp, fun k t hk => ?_, hlater⟩, fun _ => rfl⟩
   · have hnone : within now (wrongTimes (log ++ [e])) = [] := by
      refine filter_eq_nil_iff.2 fun t ht => ?_
      have hle := hpast t ht
      have hlocked : clock + kLockoutMs ≤ now := hlocked
      have hlength : kLockoutMs = kWrongWordWindowMs := rfl
      have hout : ¬ now < t + kWrongWordWindowMs := by omega
      simpa using hout
     rw [hnone]
     rfl
   · rcases lockoutAt_cases hk with hold | rfl
     · have hle := h.locked k t hold
       have hpos : (0 : ℤ) ≤ kLockoutMs := by decide
       show t + kLockoutMs ≤ clock + kLockoutMs
       omega
     · exact (hlast t hk).1 ▸ le_rfl
 · next hfew =>
   have hfew : ¬ kMaxWrongWords ≤ (b.wrongMs ++ [clock]).length := hfew
   refine ⟨⟨hpast, fun now hclock hlocked => ?_, fun t ht => ?_, fun k t hk => ?_, hlater⟩,
    fun hk => absurd (hlast clock hk).2 hfew⟩
   · rw [htimes, within, filter_append, ← within, h.kept now hclock hlocked]
     exact (filter_append ..).symm
   · rcases mem_append.1 ht with hold | hnew
     · exact h.keptPast t hold
     · exact (mem_singleton.1 hnew).le
   · rcases lockoutAt_cases hk with hold | rfl
     · exact h.locked k t hold
     · exact absurd (hlast t hk).2 hfew

end Lockouts

/-! ### Gestures -/

/-- Each live gesture is tagged with the `Hear` that minted it, and each use has its own. -/
structure Paired (phonetics : Phonetics) (log : Log) (tagged : List (Live × ℕ))
  (mintOf : ℕ → ℕ) : Prop where
 distinct : (tagged.map Prod.snd).Nodup
 minted : ∀ x ∈ tagged, MintsAt phonetics log x.1.binding x.2 x.1.mintedMs ∧
  x.1.expiresMs = x.1.mintedMs + kGestureLifetimeMs
 used : ∀ i binding now, ConsumedAt log i binding now → mintOf i < i ∧
  ∃ t, MintsAt phonetics log binding (mintOf i) t ∧ t ≤ now ∧ now ≤ t + kGestureLifetimeMs
 apart : Set.InjOn mintOf {i | ∃ binding now, ConsumedAt log i binding now}
 unused : ∀ i binding now, ConsumedAt log i binding now → ∀ x ∈ tagged, mintOf i ≠ x.2

def Gestures (phonetics : Phonetics) (live : List Live) (log : Log) : Prop :=
 ∃ tagged mintOf, tagged.map Prod.fst = live ∧ Paired phonetics log tagged mintOf

section Gestures

variable {phonetics : Phonetics} {live : List Live} {log : Log} {e : Call × Answer}

variable {tagged : List (Live × ℕ)} {mintOf : ℕ → ℕ}

theorem Paired.of_sublist {fewer : List (Live × ℕ)}
  (h : Paired phonetics log tagged mintOf) (hsub : fewer.Sublist tagged) :
  Paired phonetics log fewer mintOf :=
 { h with
   distinct := h.distinct.sublist (hsub.map _)
   minted := fun x hx => h.minted x (hsub.subset hx)
   unused := fun i binding now hi x hx => h.unused i binding now hi x (hsub.subset hx) }

theorem consumedAt_cases {i : ℕ} {binding : GestureBinding} {now : ℤ}
  (h : ConsumedAt (log ++ [e]) i binding now) :
  ConsumedAt log i binding now ∨
   i = log.length ∧ ∃ gesture, e = (.consume gesture binding now, .consumed true) := by
 obtain ⟨gesture, hlogged⟩ := h
 rcases logged_cases hlogged with hold | ⟨hi, he⟩
 · exact Or.inl ⟨gesture, hold⟩
 · exact Or.inr ⟨hi, gesture, he⟩

theorem Paired.logged
  (h : Paired phonetics log tagged mintOf)
  (hquiet : ∀ gesture binding now, e ≠ (.consume gesture binding now, .consumed true)) :
  Paired phonetics (log ++ [e]) tagged mintOf := by
 have hold : ∀ {i binding now}, ConsumedAt (log ++ [e]) i binding now →
   ConsumedAt log i binding now := by
  intro i binding now hi
  rcases consumedAt_cases hi with hi | ⟨-, gesture, he⟩
  · exact hi
  · exact absurd he (hquiet gesture binding now)
 refine ⟨h.distinct, fun x hx => ⟨(h.minted x hx).1.append, (h.minted x hx).2⟩, ?_, ?_, ?_⟩
 · intro i binding now hi
   obtain ⟨hlt, t, hminted, hbefore, hin⟩ := h.used i binding now (hold hi)
   exact ⟨hlt, t, hminted.append, hbefore, hin⟩
 · rintro i ⟨binding, now, hi⟩ j ⟨binding', now', hj⟩ heq
   exact h.apart ⟨binding, now, hold hi⟩ ⟨binding', now', hold hj⟩ heq
 · exact fun i binding now hi => h.unused i binding now (hold hi)

theorem Paired.mint
  (h : Paired phonetics (log ++ [e]) tagged mintOf) (htagged : ∀ x ∈ tagged, x.2 < log.length)
  {fresh : Live} (hfresh : MintsAt phonetics (log ++ [e]) fresh.binding log.length fresh.mintedMs)
  (hexpires : fresh.expiresMs = fresh.mintedMs + kGestureLifetimeMs) :
  Paired phonetics (log ++ [e]) (tagged ++ [(fresh, log.length)]) mintOf := by
 refine { h with distinct := ?_, minted := fun x hx => ?_, unused := fun i binding now hi x hx => ?_ }
 · rw [map_append, nodup_append]
   refine ⟨h.distinct, nodup_singleton _, fun index hold index' hnew => ?_⟩
   obtain ⟨x, hx, rfl⟩ := mem_map.1 hold
   rw [mem_singleton.1 hnew]
   exact (htagged x hx).ne
 · rcases mem_append.1 hx with hold | hnew
   · exact h.minted x hold
   · rw [mem_singleton.1 hnew]
     exact ⟨hfresh, hexpires⟩
 · rcases mem_append.1 hx with hold | hnew
   · exact h.unused i binding now hi x hold
   · have hlt := (h.used i binding now hi).1
     have hi : i < (log ++ [e]).length := by
      obtain ⟨gesture, hlogged⟩ := hi
      exact lt_of_logged hlogged
     rw [length_append, length_singleton] at hi
     rw [mem_singleton.1 hnew]
     dsimp only
     omega

theorem Paired.use {fewer : List (Live × ℕ)}
  (h : Paired phonetics log tagged mintOf) (hsub : fewer.Sublist tagged) {x : Live × ℕ}
  (hx : x ∈ tagged) (hgone : ∀ y ∈ fewer, y.2 ≠ x.2) {gesture : VoiceGesture}
  {binding : GestureBinding} {now : ℤ} (he : e = (.consume gesture binding now, .consumed true))
  (hbinding : x.1.binding = binding) (hafter : x.1.mintedMs ≤ now)
  (hbefore : now ≤ x.1.expiresMs) :
  Paired phonetics (log ++ [e]) fewer (Function.update mintOf log.length x.2) := by
 obtain ⟨hminted, hexpires⟩ := h.minted x hx
 have hold : ∀ {i binding now}, ConsumedAt log i binding now →
   Function.update mintOf log.length x.2 i = mintOf i := by
  rintro i binding now ⟨gesture, hi⟩
  exact Function.update_of_ne (lt_of_logged hi).ne _ _
 refine ⟨h.distinct.sublist (hsub.map _), fun y hy => ?_, ?_, ?_, ?_⟩
 · exact ⟨(h.minted y (hsub.subset hy)).1.append, (h.minted y (hsub.subset hy)).2⟩
 · intro i binding' now' hi
   rcases consumedAt_cases hi with hi | ⟨rfl, gesture', he'⟩
   · rw [hold hi]
     obtain ⟨hlt, t, hmints, ht⟩ := h.used i binding' now' hi
     exact ⟨hlt, t, hmints.append, ht⟩
   · rw [he, Prod.mk.injEq, Call.consume.injEq] at he'
     obtain ⟨⟨-, rfl, rfl⟩, -⟩ := he'
     rw [Function.update_self]
     exact ⟨hminted.lt, x.1.mintedMs, hbinding ▸ hminted.append, hafter, hexpires ▸ hbefore⟩
 · rintro i ⟨binding₁, now₁, hi⟩ j ⟨binding₂, now₂, hj⟩ heq
   rcases consumedAt_cases hi with hi | ⟨rfl, -⟩ <;> rcases consumedAt_cases hj with hj | ⟨rfl, -⟩
   · rw [hold hi, hold hj] at heq
     exact h.apart ⟨binding₁, now₁, hi⟩ ⟨binding₂, now₂, hj⟩ heq
   · rw [hold hi, Function.update_self] at heq
     exact absurd heq (h.unused i binding₁ now₁ hi x hx)
   · rw [hold hj, Function.update_self] at heq
     exact absurd heq.symm (h.unused j binding₂ now₂ hj x hx)
   · rfl
 · intro i binding' now' hi y hy
   rcases consumedAt_cases hi with hi | ⟨rfl, -⟩
   · rw [hold hi]
     exact h.unused i binding' now' hi y (hsub.subset hy)
   · rw [Function.update_self]
     exact (hgone y hy).symm

theorem Gestures.filter (h : Gestures phonetics live log) (keep : Live → Bool) :
  Gestures phonetics (live.filter keep) log := by
 obtain ⟨tagged, mintOf, rfl, hpaired⟩ := h
 exact ⟨tagged.filter (keep ∘ Prod.fst), mintOf, by rw [filter_map],
  hpaired.of_sublist filter_sublist⟩

theorem Gestures.logged (h : Gestures phonetics live log)
  (hquiet : ∀ gesture binding now, e ≠ (.consume gesture binding now, .consumed true)) :
  Gestures phonetics live (log ++ [e]) := by
 obtain ⟨tagged, mintOf, hlive, hpaired⟩ := h
 exact ⟨tagged, mintOf, hlive, hpaired.logged hquiet⟩

theorem Gestures.mint (h : Gestures phonetics live log)
  (hquiet : ∀ gesture binding now, e ≠ (.consume gesture binding now, .consumed true))
  {fresh : Live} (hfresh : MintsAt phonetics (log ++ [e]) fresh.binding log.length fresh.mintedMs)
  (hexpires : fresh.expiresMs = fresh.mintedMs + kGestureLifetimeMs) :
  Gestures phonetics (live ++ [fresh]) (log ++ [e]) := by
 obtain ⟨tagged, mintOf, hlive, hpaired⟩ := h
 exact ⟨tagged ++ [(fresh, log.length)], mintOf, by simp [hlive],
  (hpaired.logged hquiet).mint (fun x hx => (hpaired.minted x hx).1.lt) hfresh hexpires⟩

theorem Gestures.erase (h : Gestures phonetics live log) (p : Live → Bool) :
  Gestures phonetics (live.eraseP p) log := by
 obtain ⟨tagged, mintOf, rfl, hpaired⟩ := h
 exact ⟨tagged.eraseP (p ∘ Prod.fst), mintOf, by rw [eraseP_map],
  hpaired.of_sublist eraseP_sublist⟩

theorem ne_of_mem_eraseP_find (hnodup : (tagged.map Prod.snd).Nodup)
  {p : Live × ℕ → Bool} {x : Live × ℕ} (hx : tagged.find? p = some x) :
  ∀ y ∈ tagged.eraseP p, y.2 ≠ x.2 := by
 induction tagged with
 | nil => exact absurd hx (by simp)
 | cons first rest ih =>
  rw [map_cons, nodup_cons] at hnodup
  intro y hy
  by_cases hfirst : p first = true
  · rw [find?_cons_of_pos hfirst, Option.some.injEq] at hx
    rw [eraseP_cons_of_pos hfirst] at hy
    intro heq
    exact hnodup.1 (mem_map.2 ⟨y, hy, heq.trans (by rw [hx])⟩)
  · rw [find?_cons_of_neg hfirst] at hx
    rw [eraseP_cons_of_neg hfirst] at hy
    rcases mem_cons.1 hy with rfl | hrest
    · intro heq
      exact hnodup.1 (mem_map.2 ⟨x, mem_of_find?_eq_some hx, heq.symm⟩)
    · exact ih hnodup.2 hx y hrest

theorem Gestures.use (h : Gestures phonetics live log) {p : Live → Bool} {used : Live}
  (hused : live.find? p = some used) {gesture : VoiceGesture} {now : ℤ}
  (he : e = (.consume gesture used.binding now, .consumed true)) (hafter : used.mintedMs ≤ now)
  (hbefore : now ≤ used.expiresMs) :
  Gestures phonetics (live.eraseP p) (log ++ [e]) := by
 obtain ⟨tagged, mintOf, rfl, hpaired⟩ := h
 rw [find?_map, Option.map_eq_some_iff] at hused
 obtain ⟨x, hx, rfl⟩ := hused
 exact ⟨tagged.eraseP (p ∘ Prod.fst), Function.update mintOf log.length x.2,
  by rw [eraseP_map],
  hpaired.use eraseP_sublist (mem_of_find?_eq_some hx)
   (ne_of_mem_eraseP_find hpaired.distinct hx) he rfl hafter hbefore⟩

end Gestures

/-! ### Every run -/

structure Inv (phonetics : Phonetics) (s : Session) (clock : ℤ) : Prop where
 prompts : PromptsWait s.book s.log clock
 lockouts : Lockouts s.book s.log clock
 gestures : Gestures phonetics s.book.live s.log

section Steps

variable {env : Environment} {s : Session} {clock : ℤ}

theorem Inv.mono (h : Inv env.phonetics s clock) {later : ℤ} (hle : clock ≤ later) :
  Inv env.phonetics s later :=
 ⟨h.prompts.mono hle, h.lockouts.mono hle, h.gestures⟩

theorem Inv.expire (h : Inv env.phonetics s clock) :
  Inv env.phonetics { s with book := s.book.expire clock } clock :=
 ⟨h.prompts.expire clock, h.lockouts.expire, h.gestures.filter _⟩

variable {id : ℤ}

theorem wrongTimes_hear {now : ℤ} {heard : Bytes} {evidence : HeardEvidence}
  {result : HearResult} {gesture : Option VoiceGesture} (hne : result ≠ .wrongWord) :
  wrongTimes [(.hear id heard evidence now, .heard result gesture)] = [] := by
 cases result <;> first | rfl | exact absurd rfl hne

theorem not_closes_last {log : Log} {e : Call × Answer}
  (hcancel : ∀ answer, e ≠ (.cancel id, answer))
  (hwrong : ∀ heard evidence now gesture, e ≠ (.hear id heard evidence now, .heard .wrongWord gesture))
  (hlockout : ∀ now, ¬ LockoutAt (log ++ [e]) log.length now) :
  ¬ Closes (log ++ [e]) id log.length := by
 have hlast : (log ++ [e])[log.length]? = some e := by simp
 rintro (⟨answer, hlogged⟩ | ⟨now, heard, evidence, gesture, hlogged⟩ | ⟨now, hlocked⟩)
 · rw [hlast] at hlogged
   exact hcancel answer (Option.some.inj hlogged)
 · rw [hlast] at hlogged
   exact hwrong heard evidence now gesture (Option.some.inj hlogged)
 · exact hlockout now hlocked

theorem not_lockoutAt_last {log : Log} {e : Call × Answer} (hquiet : wrongTimes [e] = []) (now : ℤ) :
  ¬ LockoutAt (log ++ [e]) log.length now :=
 fun h => h.1.elim fun _ hwrong => not_wrongWordAt_last hquiet hwrong

theorem not_beginsAt_last {log : Log} {e : Call × Answer} {binding : GestureBinding}
  (hbegin : ∀ language now answer, e ≠ (.begin binding language now, answer)) :
  ¬ BeginsAt (log ++ [e]) log.length binding := by
 rintro ⟨language, now, answer, hlogged⟩
 have hlast : (log ++ [e])[log.length]? = some e := by simp
 rw [hlast] at hlogged
 exact hbegin language now answer (Option.some.inj hlogged)

theorem not_mintingHearAt_last {log : Log} {e : Call × Answer}
  (hquiet : ∀ id heard evidence now gesture,
   e ≠ (.hear id heard evidence now, .heard .minted gesture)) {now : ℤ} :
  ¬ MintingHearAt (log ++ [e]) log.length now := by
 rintro ⟨id, heard, evidence, gesture, hlogged⟩
 have hlast : (log ++ [e])[log.length]? = some e := by simp
 rw [hlast] at hlogged
 exact hquiet id heard evidence now gesture (Option.some.inj hlogged)

theorem Inv.begin (h : Inv env.phonetics s clock) (binding : GestureBinding)
  (language : Language) : Inv env.phonetics (s.step env (.begin binding language clock)) clock := by
 have hexpired := h.expire
 unfold Session.step answer Book.begin
 dsimp only
 split
 · next hlocked =>
   have hlocked : clock < (s.book.expire clock).lockedUntilMs := by
    simpa [Book.lockedOut] using hlocked
   have hnone : (s.book.expire clock).prompts = [] := by
    by_contra hne
    exact absurd (hexpired.prompts.unlocked hne) (not_le.2 hlocked)
   exact ⟨hexpired.prompts.logged fun prompt hmem => by simp [hnone] at hmem,
    hexpired.lockouts.logged rfl fun now hm => absurd hm (not_mintingHearAt_last (by simp)),
    hexpired.gestures.logged (by simp)⟩
 · next hlocked =>
   have hunlocked : (s.book.expire clock).lockedUntilMs ≤ clock := by
    simpa [Book.lockedOut] using hlocked
   have hlockouts := hexpired.lockouts.logged
    (e := (.begin binding language clock,
     .begun (some ((s.book.expire clock).add env binding language clock).2))) rfl
    fun now hm => absurd hm (not_mintingHearAt_last (by simp))
   exact ⟨hexpired.prompts.begin env binding language hunlocked rfl, hlockouts.of_eq rfl rfl,
    hexpired.gestures.logged (by simp)⟩

theorem Inv.cancel (h : Inv env.phonetics s clock) (id : ℤ) :
  Inv env.phonetics (s.step env (.cancel id)) clock := by
 have hprompts : PromptsWait (s.book.cancel id) s.log clock :=
  h.prompts.of_sublist filter_sublist rfl fun _ => rfl
 refine ⟨hprompts.logged fun prompt hmem => ⟨not_beginsAt_last (by simp), ?_⟩,
  (h.lockouts.logged rfl fun now hm => absurd hm (not_mintingHearAt_last (by simp))).of_eq rfl rfl,
  h.gestures.logged (by simp)⟩
 have hne : prompt.id ≠ id := by simpa using (mem_filter.1 hmem).2
 exact not_closes_last (by simp [hne.symm]) (by simp) (not_lockoutAt_last rfl)

theorem Inv.mintsAt (h : Inv env.phonetics s clock) {heard : Bytes}
  {evidence : HeardEvidence} {prompt : GesturePrompt} (gesture : Option VoiceGesture)
  (hfind : (s.book.expire clock).prompts.find? (·.id = id) = some prompt)
  (hfrom : evidence.fromMicrophone = true) (hclean : evidence.clean = true)
  (hsaid : ∃ index, hearConfirmationWord env.phonetics heard prompt.language = .word index ∧
   (confirmationWords prompt.language)[index]? = some prompt.word) :
  MintsAt env.phonetics
   (s.log ++ [(.hear id heard evidence clock, .heard .minted gesture)]) prompt.binding
   s.log.length clock := by
 have hid : prompt.id = id := by simpa using find?_some hfind
 have hkept := mem_filter.1 (mem_of_find?_eq_some hfind)
 obtain ⟨g, begun, hwaits, hexpires⟩ := h.prompts.waiting prompt hkept.1
 have hopen : clock < prompt.expiresMs := by simpa using hkept.2
 exact ⟨prompt, heard, evidence,
  { binding := rfl
    minted := ⟨gesture, by simp [hid]⟩
    fromMicrophone := hfrom
    clean := hclean
    said := hsaid
    waited := ⟨g, begun, lt_of_logged hwaits.begun, hwaits.append le_rfl, hexpires ▸ hopen⟩ }⟩

theorem Inv.hear (h : Inv env.phonetics s clock) (id : ℤ) (heard : Bytes)
  (evidence : HeardEvidence) :
  Inv env.phonetics (s.step env (.hear id heard evidence clock)) clock := by
 have hexpired := h.expire
 unfold Session.step answer
 dsimp only
 rcases hear_cases env s.book id heard evidence clock with
  ⟨result, book, hminted, hwrong, hbook, heq⟩ |
  ⟨prompt, said, hfind, hlocked, hfrom, hclean, hsaid, ⟨-, heq⟩ | ⟨rfl, heq⟩⟩
 · -- Nothing but the prompts may have changed.
   rw [heq]
   dsimp only
   have hprompts : PromptsWait book s.log clock := by
    rcases hbook with rfl | rfl
    · exact hexpired.prompts
    · exact hexpired.prompts.close id
   have hlockouts : Lockouts book s.log clock := by
    rcases hbook with rfl | rfl
    · exact hexpired.lockouts
    · exact hexpired.lockouts.of_eq rfl rfl
   have hgestures : Gestures env.phonetics book.live s.log := by
    rcases hbook with rfl | rfl <;> exact hexpired.gestures
   exact ⟨hprompts.logged fun prompt _ => ⟨not_beginsAt_last (by simp),
     not_closes_last (by simp) (by simp [hwrong]) (not_lockoutAt_last (wrongTimes_hear hwrong))⟩,
    hlockouts.logged (wrongTimes_hear hwrong)
     fun now hm => absurd hm (not_mintingHearAt_last (by simp [hminted])),
    hgestures.logged (by simp)⟩
 · rw [heq]
   dsimp only
   have hunlocked : (s.book.expire clock).lockedUntilMs ≤ clock := by
    simpa [Book.lockedOut] using hlocked
   obtain ⟨hlockouts, hlockout⟩ := hexpired.lockouts.miss (within_expire s.book clock) hunlocked
    id heard evidence none rfl
   refine ⟨?_, hlockouts, ?_⟩
   · by_cases hnow : LockoutAt (s.log ++ [(.hear id heard evidence clock,
       .heard .wrongWord none)]) s.log.length clock
     · have hnone := hlockout hnow
       exact ⟨by simp [hnone], by simp [hnone], by simp [hnone], by simp [hnone]⟩
     · have hclosed := hexpired.prompts.close id
       have hmissed : PromptsWait ((s.book.expire clock).miss id clock) s.log clock := by
        unfold Book.miss
        dsimp only
        split
        · exact ⟨by simp, by simp, by simp, by simp⟩
        · exact hclosed.of_sublist (List.Sublist.refl _) rfl fun _ => rfl
       refine hmissed.logged fun prompt hmem => ⟨not_beginsAt_last (by simp), ?_⟩
       have hmem : prompt ∈ ((s.book.expire clock).close id).prompts := by
        unfold Book.miss at hmem
        dsimp only at hmem
        split at hmem
        · exact absurd hmem not_mem_nil
        · exact hmem
       have hne : prompt.id ≠ id := ne_of_mem_eraseP hexpired.prompts.ids hmem
       refine not_closes_last (by simp) (by simp [hne.symm]) fun now hlockedAt => hnow ?_
       have hlast := hlockedAt
       obtain ⟨⟨id', heard', evidence', gesture', hlogged⟩, -⟩ := hlast
       simp only [getElem?_concat_length, Option.some.injEq, Prod.mk.injEq,
        Call.hear.injEq] at hlogged
       have htime : clock = now := hlogged.1.2.2.2
       subst htime
       exact hlockedAt
   · have hlive : ((s.book.expire clock).miss id clock).live = (s.book.expire clock).live := by
      unfold Book.miss
      dsimp only
      split <;> rfl
     rw [hlive]
     exact hexpired.gestures.logged (by simp)
 · rw [heq]
   dsimp only
   have hunlocked : (s.book.expire clock).lockedUntilMs ≤ clock := by
    simpa [Book.lockedOut] using hlocked
   have hmints := h.mintsAt (some ((s.book.expire clock).mint prompt clock).2) hfind
    hfrom hclean hsaid
   have hclosed : PromptsWait ((s.book.expire clock).mint prompt clock).1 s.log clock :=
    (hexpired.prompts.close prompt.id).of_sublist (List.Sublist.refl _) rfl fun _ => rfl
   refine ⟨?_, ?_, hexpired.gestures.mint (by simp) hmints rfl⟩
   · exact hclosed.logged fun _ _ => ⟨not_beginsAt_last (by simp),
      not_closes_last (by simp) (by simp) (not_lockoutAt_last rfl)⟩
   · refine (hexpired.lockouts.logged rfl fun now hm => ?_).of_eq rfl rfl
     obtain ⟨id', heard', evidence', gesture', hlogged⟩ := hm
     simp only [getElem?_concat_length, Option.some.injEq, Prod.mk.injEq,
      Call.hear.injEq] at hlogged
     exact hlogged.1.2.2.2 ▸ hunlocked

theorem Inv.consume (h : Inv env.phonetics s clock) (gesture : VoiceGesture)
  (binding : GestureBinding) :
  Inv env.phonetics (s.step env (.consume gesture binding clock)) clock := by
 have hprompts : ∀ {live : List Live} {e : Call × Answer} {used : Bool},
   e = (.consume gesture binding clock, .consumed used) →
   PromptsWait { s.book with live } (s.log ++ [e]) clock := by
  rintro live e used rfl
  have hsame : PromptsWait { s.book with live } s.log clock :=
   h.prompts.of_sublist (List.Sublist.refl _) rfl fun _ => rfl
  exact hsame.logged fun prompt _ => ⟨not_beginsAt_last (by simp),
   not_closes_last (by simp) (by simp) (not_lockoutAt_last rfl)⟩
 have hlockouts : ∀ {live : List Live} {e : Call × Answer} {used : Bool},
   e = (.consume gesture binding clock, .consumed used) →
   Lockouts { s.book with live } (s.log ++ [e]) clock := by
  rintro live e used rfl
  exact (h.lockouts.logged rfl fun now hm =>
   absurd hm (not_mintingHearAt_last (by simp))).of_eq rfl rfl
 unfold Session.step answer Book.consume
 dsimp only
 split
 · exact ⟨hprompts rfl, hlockouts rfl, h.gestures.logged (by simp)⟩
 · next used hfind =>
   split
   · exact ⟨hprompts rfl, hlockouts rfl, h.gestures.logged (by simp)⟩
   · refine ⟨hprompts rfl, hlockouts rfl, ?_⟩
     by_cases hok : used.binding = binding ∧ gesture.promptId ≠ 0 ∧ clock ≥ used.mintedMs ∧
       clock ≤ used.expiresMs
     · obtain ⟨rfl, hid, hafter, hbefore⟩ := hok
       have hused : decide (used.binding = used.binding ∧ gesture.promptId ≠ 0 ∧
         clock ≥ used.mintedMs ∧ clock ≤ used.expiresMs) = true := by
        simp [hid, hafter, hbefore]
       rw [hused]
       exact h.gestures.use hfind rfl hafter hbefore
     · exact (h.gestures.erase _).logged fun gesture' binding' now' he => by
        simp only [Prod.mk.injEq, Answer.consumed.injEq, decide_eq_true_eq] at he
        exact hok he.2

theorem Inv.step (h : Inv env.phonetics s clock) (call : Call)
  (hcall : ∀ now ∈ call.now?, now = clock) : Inv env.phonetics (s.step env call) clock := by
 cases call with
 | begin binding language now => exact hcall now rfl ▸ h.begin binding language
 | hear id heard evidence now => exact hcall now rfl ▸ h.hear id heard evidence
 | cancel id => exact h.cancel id
 | consume gesture binding now => exact hcall now rfl ▸ h.consume gesture binding

end Steps

theorem inv_run (env : Environment) {s : Session} {clock : ℤ} {calls : List Call}
  (h : Inv env.phonetics s clock) (hclock : ∀ now ∈ calls.filterMap Call.now?, clock ≤ now)
  (horder : InOrder calls) : ∃ later, Inv env.phonetics (run (Session.step env) s calls) later := by
 induction calls generalizing s clock with
 | nil => exact ⟨clock, h⟩
 | cons call rest ih =>
  unfold InOrder at horder
  rw [run_cons]
  cases hnow : call.now? with
  | none =>
   rw [filterMap_cons_none hnow] at hclock horder
   exact ih (h.step call (by simp [hnow])) hclock horder
  | some now =>
   rw [filterMap_cons_some hnow] at hclock horder
   have hlater := h.mono (hclock now mem_cons_self)
   exact ih (hlater.step call (by simp [hnow])) (pairwise_cons.1 horder).1
    (pairwise_cons.1 horder).2

theorem inv_start (phonetics : Phonetics) (clock : ℤ) : Inv phonetics {} clock where
 prompts := ⟨by simp, by simp, by simp, by simp⟩
 lockouts :=
  { past := by simp [wrongTimes]
    kept := fun _ _ _ => rfl
    keptPast := by simp
    locked := fun k t hk => absurd (lt_of_lockoutAt hk) (by simp)
    later := fun k t hk => absurd (lt_of_lockoutAt hk) (by simp) }
 gestures := ⟨[], id, rfl, by simp, by simp, fun i binding now ⟨gesture, hi⟩ => by simp at hi,
  fun i ⟨binding, now, gesture, hi⟩ => by simp at hi,
  fun i binding now ⟨gesture, hi⟩ => by simp at hi⟩

/-- Each use of a gesture has its own `Hear`, which heard the word of the latest prompt; and no
gesture is minted during a lockout. -/
theorem gestures_once (env : Environment) (calls : List Call) (horder : InOrder calls) :
  let log := (afterCalls env calls).log
  (∃ mintOf : ℕ → ℕ,
   (∀ i binding now, ConsumedAt log i binding now → mintOf i < i ∧
    ∃ t, MintsAt env.phonetics log binding (mintOf i) t ∧ t ≤ now ∧
     now ≤ t + kGestureLifetimeMs) ∧
   Set.InjOn mintOf {i | ∃ binding now, ConsumedAt log i binding now}) ∧
  ∀ k t, LockoutAt log k t → ∀ m now, k < m → MintingHearAt log m now →
   t + kLockoutMs ≤ now := by
 intro log
 have hfirst : ∃ clock, ∀ now ∈ calls.filterMap Call.now?, clock ≤ now := by
  unfold InOrder at horder
  cases htimes : calls.filterMap Call.now? with
  | nil => exact ⟨0, by simp⟩
  | cons first rest =>
   rw [htimes] at horder
   refine ⟨first, fun now hnow => ?_⟩
   rcases List.mem_cons.1 hnow with rfl | hrest
   · exact le_rfl
   · exact (List.pairwise_cons.1 horder).1 now hrest
 obtain ⟨clock, hclock⟩ := hfirst
 obtain ⟨later, hinv⟩ := inv_run env (inv_start env.phonetics clock) hclock horder
 obtain ⟨tagged, mintOf, -, hpaired⟩ := hinv.gestures
 exact ⟨⟨mintOf, hpaired.used, hpaired.apart⟩, hinv.lockouts.later⟩

/-- Folding leaves a lower-case word as it is, and only equal keys match. -/
def plainEnvironment : Environment where
 phonetics :=
  { foldForComparison := id
    phoneticKeyFor := fun _ word => word
    joinPhoneticKeys := fun a b => a ++ b
    phoneticBound := fun _ => 0
    phoneticDistance := fun a b bound => if a = b then 0 else bound + 1 }
 random := fun _ => 0

def cameraBinding : GestureBinding := ⟨.allowPermission, "https://example.com camera"⟩

def cameraCalls : List Call :=
 [.begin cameraBinding .english 0, .hear 1 "harbor" ⟨true, true⟩ 5,
  .consume ⟨1, cameraBinding, 5, 1⟩ cameraBinding 9]

theorem gestures_once_camera : ∃ h t, h < 2 ∧
  MintsAt plainEnvironment.phonetics (afterCalls plainEnvironment cameraCalls).log cameraBinding
   h t ∧ t ≤ 9 ∧ 9 ≤ t + kGestureLifetimeMs := by
 obtain ⟨⟨mintOf, hused, -⟩, -⟩ := gestures_once plainEnvironment cameraCalls
  (by unfold InOrder; decide)
 have hconsumed : ConsumedAt (afterCalls plainEnvironment cameraCalls).log 2 cameraBinding 9 :=
  ⟨⟨1, cameraBinding, 5, 1⟩, by decide⟩
 obtain ⟨hlt, t, hminted, hafter, hbefore⟩ := hused 2 cameraBinding 9 hconsumed
 exact ⟨mintOf 2, t, hlt, hminted, hafter, hbefore⟩

end MoltBrowser.GestureBook
