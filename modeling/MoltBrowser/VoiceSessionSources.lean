import MoltBrowser.VoiceSessionLogic

set_option autoImplicit false

/-!
# Other sources of speech

What the session was told of other sources, read off its calls alone, and what it
kept of it. A flag with the time it was last seen is judged against an
utterance's beginning; the echo canceller is a flag only.
-/
namespace MoltBrowser.VoiceSession
open List

open TransitionRuns

structure Sources where
 otherSpeaking : Bool
 otherSpeechMs : ℤ
 ownVoiceUnfiltered : Bool
 ownVoiceUnfilteredMs : ℤ
 pageAudible : Bool
 pageAudibleMs : ℤ
 echoCancelled : Bool

def Logic.sources (s : Logic) : Sources :=
 ⟨s.otherSpeaking, s.otherSpeechMs, s.ownVoiceUnfiltered, s.ownVoiceUnfilteredMs, s.pageAudible,
  s.pageAudibleMs, s.echoCancelled⟩

def Sources.after (k : Sources) : Event → Sources
 | .pageAudible audible now =>
  { k with
    pageAudibleMs := if audible || k.pageAudible then now else k.pageAudibleMs
    pageAudible := audible }
 | .otherSpeech speaking now =>
  { k with
    otherSpeechMs := if speaking || k.otherSpeaking then now else k.otherSpeechMs
    otherSpeaking := speaking }
 | .echoCancellation cancelled _ => { k with echoCancelled := cancelled }
 | .ownVoiceUnfiltered playing now =>
  { k with
    ownVoiceUnfilteredMs := if playing || k.ownVoiceUnfiltered then now else k.ownVoiceUnfilteredMs
    ownVoiceUnfiltered := playing }
 | _ => k

section Sources

variable (s : Logic)

@[simp] theorem finish_sources (a : Actions) (now : ℤ) : (s.finish a now).1.sources = s.sources :=
 rfl

@[simp] theorem endUtterance_sources (a : Actions) : (s.endUtterance a).1.sources = s.sources := rfl

@[simp] theorem noWake_sources : s.noWake.sources = s.sources := rfl

@[simp] theorem taken_sources (now : ℤ) : (s.taken now).sources = s.sources := rfl

theorem tickEarcon_sources (a : Actions) (now : ℤ) :
  (s.tickEarcon a now).1.sources = s.sources := by
 unfold Logic.tickEarcon
 split <;> rfl

theorem tickWake_sources (a : Actions) (now : ℤ) : (s.tickWake a now).1.sources = s.sources := by
 unfold Logic.tickWake
 split
 · dsimp only
   split <;> rfl
 · rfl

theorem tickGrace_sources (a : Actions) (now : ℤ) : (s.tickGrace a now).1.sources = s.sources := by
 unfold Logic.tickGrace
 split <;> rfl

theorem tickLongest_sources (a : Actions) (now : ℤ) :
  (s.tickLongest a now).1.sources = s.sources := by
 unfold Logic.tickLongest
 split <;> rfl

theorem tickFollowUp_sources (now : ℤ) : (s.tickFollowUp now).sources = s.sources := by
 unfold Logic.tickFollowUp
 split <;> rfl

theorem onTick_sources (now : ℤ) : (s.onTick now).1.sources = s.sources := by
 unfold Logic.onTick
 split
 · rfl
 · simp only [finish_sources, tickFollowUp_sources, tickLongest_sources, tickGrace_sources,
    tickWake_sources, tickEarcon_sources]

theorem onFinal_sources (env : Environment) (text : Bytes) (confidence : ℚ) (now : ℤ)
  (lag : Option ℤ) : (s.onFinal env text confidence now lag).1.sources = s.sources := by
 unfold Logic.onFinal
 split
 · rfl
 · dsimp only
   split <;> rfl

theorem step_sources (env : Environment) (e : Event) :
  (s.step env e).sources = s.sources.after e := by
 unfold Logic.step Logic.on
 cases e with
 | start now => rfl
 | stop now =>
  dsimp only
  unfold Logic.stop
  split <;> rfl
 | helperReady now =>
  dsimp only
  unfold Logic.onHelperReady
  split <;> rfl
 | helperLost now => rfl
 | wake now lag =>
  dsimp only
  unfold Logic.onWake
  split
  · rfl
  · split <;> rfl
 | speechStart now lag =>
  dsimp only
  unfold Logic.onSpeechStart
  split
  · rfl
  · split
    · split <;> rfl
    · rfl
 | partialText text now lag =>
  dsimp only
  unfold Logic.onPartial
  split
  · rfl
  · dsimp only
    rw [finish_sources]
    split <;> rfl
 | final text confidence now lag => exact onFinal_sources s env text confidence now lag
 | speechEnd now lag =>
  dsimp only
  unfold Logic.onSpeechEnd
  split <;> rfl
 | browserActivity activity now =>
  dsimp only
  unfold Logic.onBrowserActivity
  split <;> rfl
 | browserSaid text now => rfl
 | awaitingAnswer awaiting now => rfl
 | pageAudible audible now => rfl
 | otherSpeech speaking now => rfl
 | echoCancellation cancelled now => rfl
 | ownSpeechInReference inReference now => rfl
 | ownVoiceUnfiltered playing now => rfl
 | settingsChanged settings now => rfl
 | tick now => exact onTick_sources s now

end Sources

/-! ### What the session was told -/

def lastTold (told : Event → Option Bool) (first : Bool) (es : List Event) : Bool :=
 ((es.filterMap told).getLast?).getD first

def toldOtherSpeech : Event → Option Bool
 | .otherSpeech speaking _ => some speaking
 | _ => none

def toldOwnVoice : Event → Option Bool
 | .ownVoiceUnfiltered playing _ => some playing
 | _ => none

def toldAudible : Event → Option Bool
 | .pageAudible audible _ => some audible
 | _ => none

def toldCancelled : Event → Option Bool
 | .echoCancellation cancelled _ => some cancelled
 | _ => none

def tabUncancelled (es : List Event) : Bool :=
 lastTold toldAudible false es && !lastTold toldCancelled true es

def otherSource (es : List Event) : Bool :=
 lastTold toldOtherSpeech false es || lastTold toldOwnVoice false es || tabUncancelled es

/-- What was told by the calls before `j` holds until call `j`: from `since` on, at no moment was
another source told of. -/
def QuietSince (es : List Event) (since : ℤ) : Prop :=
 ∀ j e, es[j]? = some e → since ≤ e.now → otherSource (es.take j) = false

/-- A tab was audible without an echo canceller after `since`, and then one is turned on. -/
def CancellerTurnedOn (es : List Event) (since : ℤ) : Prop :=
 ∃ j e k now, es[j]? = some e ∧ since ≤ e.now ∧ tabUncancelled (es.take j) = true ∧ j ≤ k ∧
  es[k]? = some (.echoCancellation true now)

theorem lastTold_concat (told : Event → Option Bool) (first : Bool) (es : List Event) (e : Event) :
  lastTold told first (es ++ [e]) = (told e).getD (lastTold told first es) := by
 unfold lastTold
 rw [filterMap_append]
 cases h : told e <;> simp [h]

/-! ### What it kept of it -/

def keptAfter (es : List Event) : Sources :=
 es.foldl Sources.after ⟨false, -1, false, -1, false, -1, true⟩

theorem keptAfter_concat (es : List Event) (e : Event) :
  keptAfter (es ++ [e]) = (keptAfter es).after e := by
 simp [keptAfter]

theorem afterEvents_sources (env : Environment) (settings : ListeningSettings)
  (es : List Event) : (afterEvents env settings es).sources = keptAfter es := by
 induction es using List.reverseRecOn with
 | nil => rfl
 | append_singleton es e ih =>
  have hlast : afterEvents env settings (es ++ [e]) =
    (afterEvents env settings es).step env e := by
   simp [afterEvents, run_append]
  rw [hlast, step_sources, ih, keptAfter_concat]

structure Seen (told : Event → Option Bool) (flag : Sources → Bool) (seen : Sources → ℤ) :
  Prop where
 first : flag (keptAfter []) = false
 said : ∀ k e b, told e = some b → flag (k.after e) = b ∧
  seen (k.after e) = if b || flag k then (e.now : ℤ) else seen k
 kept : ∀ k e, told e = none → flag (k.after e) = flag k ∧ seen (k.after e) = seen k

theorem seen_otherSpeech : Seen toldOtherSpeech (·.otherSpeaking) (·.otherSpeechMs) where
 first := rfl
 said k e b h := by cases e <;> simp_all [toldOtherSpeech, Sources.after, Event.now]
 kept k e h := by cases e <;> simp_all [toldOtherSpeech, Sources.after]

theorem seen_ownVoice : Seen toldOwnVoice (·.ownVoiceUnfiltered) (·.ownVoiceUnfilteredMs) where
 first := rfl
 said k e b h := by cases e <;> simp_all [toldOwnVoice, Sources.after, Event.now]
 kept k e h := by cases e <;> simp_all [toldOwnVoice, Sources.after]

theorem seen_audible : Seen toldAudible (·.pageAudible) (·.pageAudibleMs) where
 first := rfl
 said k e b h := by cases e <;> simp_all [toldAudible, Sources.after, Event.now]
 kept k e h := by cases e <;> simp_all [toldAudible, Sources.after]

theorem cancelled_eq (es : List Event) :
  (keptAfter es).echoCancelled = lastTold toldCancelled true es := by
 induction es using List.reverseRecOn with
 | nil => rfl
 | append_singleton es e ih =>
  rw [keptAfter_concat, lastTold_concat, ← ih]
  cases e <;> rfl

def InOrder (es : List Event) : Prop := es.Pairwise fun a b => a.now ≤ b.now

section Seen

variable {told : Event → Option Bool} {flag : Sources → Bool} {seen : Sources → ℤ}

theorem Seen.flag_eq (h : Seen told flag seen) (es : List Event) :
  flag (keptAfter es) = lastTold told false es := by
 induction es using List.reverseRecOn with
 | nil => exact h.first
 | append_singleton es e ih =>
  rw [keptAfter_concat, lastTold_concat, ← ih]
  cases htold : told e with
  | none => exact (h.kept _ e htold).1
  | some b => exact (h.said _ e b htold).1

theorem Seen.le_seen (h : Seen told flag seen) {es : List Event} (horder : InOrder es) {j : ℕ}
  {e : Event} (he : es[j]? = some e) (htold : lastTold told false (es.take j) = true) :
  flag (keptAfter es) = true ∨ (e.now : ℤ) ≤ seen (keptAfter es) := by
 induction es using List.reverseRecOn with
 | nil => exact absurd he (by simp)
 | append_singleton es last ih =>
  obtain ⟨horder, -, hlast⟩ := pairwise_append.1 horder
  have hlater : ∀ e ∈ es, (e.now : ℤ) ≤ last.now := fun e he =>
   Int.ofNat_le.2 (hlast e he last mem_cons_self)
  -- Told just before the last call, or kept from before.
  have hbefore : flag (keptAfter es) = true ∧ (e.now : ℤ) ≤ last.now ∨
    (e.now : ℤ) ≤ seen (keptAfter es) ∧ (e.now : ℤ) ≤ last.now := by
   rcases Nat.lt_or_ge j es.length with hlt | hge
   · rw [getElem?_append_left hlt] at he
     rw [take_append_of_le_length hlt.le] at htold
     have hle := hlater e (mem_of_getElem? he)
     rcases ih horder he htold with hflag | hseen
     · exact Or.inl ⟨hflag, hle⟩
     · exact Or.inr ⟨hseen, hle⟩
   · have hj : j = es.length := by
      have hlt := (List.getElem?_eq_some_iff.1 he).1
      rw [length_append, length_singleton] at hlt
      omega
     subst hj
     rw [getElem?_concat_length, Option.some.injEq] at he
     rw [take_left] at htold
     exact Or.inl ⟨(h.flag_eq es).trans htold, by rw [he]⟩
  rw [keptAfter_concat]
  cases hsaid : told last with
  | none =>
   obtain ⟨hflag, hseen⟩ := h.kept (keptAfter es) last hsaid
   rw [hflag, hseen]
   exact hbefore.imp And.left And.left
  | some b =>
   obtain ⟨hflag, hseen⟩ := h.said (keptAfter es) last b hsaid
   rw [hflag, hseen]
   cases b with
   | true => exact Or.inl rfl
   | false =>
    right
    rcases hbefore with ⟨hold, hle⟩ | ⟨hle, hnow⟩
    · simpa [hold] using hle
    · split
      · exact hnow
      · exact hle

theorem Seen.not_told (h : Seen told flag seen) {es : List Event} {last : Event}
  (horder : InOrder (es ++ [last])) {begun : ℤ}
  (hquiet : (flag (keptAfter es) || (decide (seen (keptAfter es) ≥ 0) &&
   decide (seen (keptAfter es) + kOtherSpeechTailMs ≥ begun))) = false) {j : ℕ} {e : Event}
  (he : (es ++ [last])[j]? = some e) (hsince : begun - kOtherSpeechTailMs ≤ e.now) :
  lastTold told false ((es ++ [last]).take j) = false := by
 have hlt := (List.getElem?_eq_some_iff.1 he).1
 rw [length_append, length_singleton] at hlt
 rw [take_append_of_le_length (by omega)]
 simp only [Bool.or_eq_false_iff, Bool.and_eq_false_iff, decide_eq_false_iff_not] at hquiet
 obtain ⟨hflag, hseen⟩ := hquiet
 by_contra htold
 have htold : lastTold told false (es.take j) = true := by simpa using htold
 rcases Nat.lt_or_ge j es.length with hlt | hge
 · rw [getElem?_append_left hlt] at he
   rcases h.le_seen (pairwise_append.1 horder).1 he htold with hon | hle
   · rw [hflag] at hon
     exact absurd hon (by simp)
   · have hnonneg : (0 : ℤ) ≤ e.now := Int.natCast_nonneg _
     omega
 · rw [take_of_length_le hge, ← h.flag_eq, hflag] at htold
   exact absurd htold (by simp)

end Seen

/-! ### A final that is handed out -/

theorem judge_take_quiet {s : Logic} {env : Environment} {u : Utterance} {text : Bytes}
  {confidence : ℚ} (htake : (s.judge env u text confidence).take = true)
  (hother : isAlwaysHeardCommand env text s.settings.language = false) :
  s.otherSpeechSince u.begunMs = false := by
 by_contra hspeech
 have hspeech : s.otherSpeechSince u.begunMs = true := by simpa using hspeech
 unfold Logic.judge at htake
 dsimp only at htake
 rw [hother, hspeech] at htake
 split at htake
 · exact absurd htake (by simp)
 · simp at htake

theorem onFinal_quiet {s : Logic} {env : Environment} {text : Bytes} {confidence : ℚ} {now : ℤ}
  {lag : Option ℤ} (hout : (s.onFinal env text confidence now lag).2.utterance ≠ none)
  (hother : isAlwaysHeardCommand env text s.settings.language = false) :
  s.otherSpeechSince (s.finalUtterance now lag).begunMs = false := by
 unfold Logic.onFinal at hout
 split at hout
 · exact absurd rfl hout
 · dsimp only at hout
   split at hout
   · next htake => exact judge_take_quiet htake hother
   · exfalso
     refine hout ?_
     unfold Logic.finish Logic.endUtterance
     dsimp only
     split <;> rfl

theorem turnedOn_of_cancelled {es : List Event} {j : ℕ} (hj : j ≤ es.length)
  (hoff : lastTold toldCancelled true (es.take j) = false)
  (hon : lastTold toldCancelled true es = true) :
  ∃ k now, j ≤ k ∧ es[k]? = some (.echoCancellation true now) := by
 induction es using List.reverseRecOn with
 | nil => exact absurd hon (by rw [take_nil] at hoff; simp [hoff])
 | append_singleton es last ih =>
  rcases Nat.lt_or_ge es.length j with hlt | hle
  · rw [take_of_length_le (by simpa using hlt)] at hoff
    exact absurd (hoff.symm.trans hon) (by simp)
  · rw [take_append_of_le_length hle] at hoff
    rw [lastTold_concat] at hon
    have hlast : (es ++ [last])[es.length]? = some last := by simp
    cases last with
    | echoCancellation cancelled now =>
     have hcancelled : cancelled = true := hon
     subst hcancelled
     exact ⟨es.length, now, hle, hlast⟩
    | _ =>
     obtain ⟨k, now, hjk, hk⟩ := ih hle hoff hon
     refine ⟨k, now, hjk, ?_⟩
     rw [getElem?_append_left (List.getElem?_eq_some_iff.1 hk).1]
     exact hk

theorem otherSpeechSince_false {s : Logic} {k : Sources} (hk : s.sources = k) {since : ℤ}
  (h : s.otherSpeechSince since = false) :
  (k.otherSpeaking || (decide (k.otherSpeechMs ≥ 0) &&
    decide (k.otherSpeechMs + kOtherSpeechTailMs ≥ since))) = false ∧
   (k.ownVoiceUnfiltered || (decide (k.ownVoiceUnfilteredMs ≥ 0) &&
    decide (k.ownVoiceUnfilteredMs + kOtherSpeechTailMs ≥ since))) = false ∧
   (k.echoCancelled = true ∨ (k.pageAudible || (decide (k.pageAudibleMs ≥ 0) &&
    decide (k.pageAudibleMs + kOtherSpeechTailMs ≥ since))) = false) := by
 subst hk
 unfold Logic.otherSpeechSince Logic.ownVoiceUnfilteredSince Logic.pageAudibleSince at h
 split at h
 · exact absurd h (by simp)
 · next hother =>
   split at h
   · exact absurd h (by simp)
   · next hown =>
     rw [Bool.and_eq_false_iff, Bool.not_eq_false'] at h
     exact ⟨Bool.eq_false_of_not_eq_true hother, Bool.eq_false_of_not_eq_true hown, h⟩

/-- What is handed out, no always-heard command, was said in quiet, exactly unless an echo
canceller was turned on over a tab's sound. -/
theorem final_quiet_iff (env : Environment) (settings : ListeningSettings) (es : List Event)
  (text : Bytes) (confidence : ℚ) (now : ℕ) (lag : Option ℤ)
  (horder : InOrder (es ++ [.final text confidence now lag]))
  (hout : ((afterEvents env settings es).onFinal env text confidence now lag).2.utterance ≠ none)
  (hother : isAlwaysHeardCommand env text
   (afterEvents env settings es).settings.language = false) :
  let since := ((afterEvents env settings es).finalUtterance now lag).begunMs - kOtherSpeechTailMs
  QuietSince (es ++ [Event.final text confidence now lag]) since ↔
   ¬ CancellerTurnedOn (es ++ [.final text confidence now lag]) since := by
 intro since
 obtain ⟨hspeech, hown, htab⟩ :=
  otherSpeechSince_false (afterEvents_sources env settings es) (onFinal_quiet hout hother)
 constructor
 · rintro hquiet ⟨j, e, k, turned, he, hsince, haudible, -, -⟩
   have hnone := hquiet j e he hsince
   simp [otherSource, haudible] at hnone
 · intro hturned j e he hsince
   have hj : j ≤ es.length := by
    have hlt := (List.getElem?_eq_some_iff.1 he).1
    rw [List.length_append, List.length_singleton] at hlt
    omega
   have htabQuiet : tabUncancelled ((es ++ [Event.final text confidence now lag]).take j) = false := by
    by_contra haudible
    have haudible : tabUncancelled ((es ++ [Event.final text confidence now lag]).take j) = true := by
     simpa using haudible
    have hparts := haudible
    unfold tabUncancelled at hparts
    rw [Bool.and_eq_true, Bool.not_eq_true', List.take_append_of_le_length hj] at hparts
    rcases htab with hon | hpage
    · rw [cancelled_eq] at hon
      obtain ⟨k, turned, hjk, hk⟩ := turnedOn_of_cancelled hj hparts.2 hon
      refine hturned ⟨j, e, k, turned, he, hsince, haudible, hjk, ?_⟩
      rw [List.getElem?_append_left (List.getElem?_eq_some_iff.1 hk).1]
      exact hk
    · have hnever := seen_audible.not_told horder hpage he hsince
      rw [List.take_append_of_le_length hj, hparts.1] at hnever
      exact absurd hnever (by simp)
   unfold otherSource
   rw [seen_otherSpeech.not_told horder hspeech he hsince,
    seen_ownVoice.not_told horder hown he hsince, htabQuiet]
   rfl

def alwaysListening : ListeningSettings := { alwaysListening := true, wakePhrases := ["hey molt"] }

def tabSpeaks : List Event :=
 [.start 0, .helperReady 100, .echoCancellation false 200, .pageAudible true 300,
  .speechStart 5000 (some 100), .echoCancellation true 6000]

theorem tab_handed_out :
  ¬ ∀ (env : Environment) (settings : ListeningSettings) (es : List Event) (text : Bytes)
    (confidence : ℚ) (now : ℕ) (lag : Option ℤ),
   InOrder (es ++ [.final text confidence now lag]) →
   ((afterEvents env settings es).onFinal env text confidence now lag).2.utterance ≠ none →
   isAlwaysHeardCommand env text (afterEvents env settings es).settings.language = false →
   QuietSince (es ++ [Event.final text confidence now lag])
    (((afterEvents env settings es).finalUtterance now lag).begunMs - kOtherSpeechTailMs) := by
 intro h
 have hquiet := h spelledEnvironment alwaysListening tabSpeaks "open evil dot com" (9 / 10) 7000
  (some 100) (by unfold InOrder; decide) (by decide +kernel) (by decide +kernel)
 have hnone := hquiet 5 (.echoCancellation true 6000) rfl (by decide)
 exact absurd hnone (by decide)

/-- The tab went quiet long before. -/
theorem user_handed_out :
  let es : List Event :=
   [.start 0, .helperReady 100, .echoCancellation false 200, .pageAudible true 300,
    .pageAudible false 1000, .speechStart 5000 (some 100)]
  QuietSince (es ++ [Event.final "open evil dot com" (9 / 10) 7000 (some 100)]) (4900 - 1000) ↔
   ¬ CancellerTurnedOn (es ++ [Event.final "open evil dot com" (9 / 10) 7000 (some 100)])
    (4900 - 1000) :=
 final_quiet_iff spelledEnvironment alwaysListening _ "open evil dot com" (9 / 10) 7000 (some 100)
  (by unfold InOrder; decide) (by decide) (by decide)

end MoltBrowser.VoiceSession
