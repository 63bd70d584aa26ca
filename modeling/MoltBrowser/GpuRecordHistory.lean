import MoltBrowser.GpuRecordRestarts

set_option autoImplicit false

/-!
# GPU failure records and the history of the calls

What the calls so far say about a driver, with nothing forgotten: when it was turned off, by which
version, its last retry and every failure since. The entries answer by it.
-/
namespace MoltBrowser.GpuDriverRecord
open List

/-! ## The history -/

structure Past where
 /-- When it was turned off and by which version, unless it was retried since. -/
 off : Option (ℤ × Bytes)
 retried : Option ℤ
 /-- The failures since the last retry, oldest first. -/
 failures : List ℤ

def due (off : ℤ × Bytes) (now : ℤ) (browserVersion : Bytes) : Bool :=
 let version := sanitizeVersion browserVersion
 kRetryAfterMs ≤ now - off.1 || (version != [] && off.2 != [] && version != off.2)

def Past.retries (key : GpuDriverKey) (past : Past) (call : Call) : Bool :=
 match past.off, call with
 | none, _ => false
 | some off, .allowGpu other now browserVersion => other == key && due off now browserVersion
 | some off, .turnedOff now browserVersion => due off now browserVersion
 | some _, .retryAll _ => true
 | some _, .recordFailure _ _ _ _ => false

def recent (now : ℤ) (failures : List ℤ) : List ℤ := failures.filter fun t => now - t < kFailureMemoryMs

/-- Whether a failure now is the one too many, or the first after a retry not long ago. -/
def Past.turnsOff (past : Past) (now : ℤ) : Bool :=
 past.off.isNone && ((recent now past.failures).length + 1 == kFailuresToTurnOff ||
  (past.failures.isEmpty && past.retried.any fun retry => now - retry < kFailureMemoryMs))

def Past.fail (past : Past) (now : ℤ) (browserVersion : Bytes) : Past :=
 ⟨if past.turnsOff now then some (now, sanitizeVersion browserVersion) else past.off, past.retried,
  past.failures ++ [now]⟩

def Past.after (key : GpuDriverKey) (past : Past) (call : Call) : Past :=
 if past.retries key call then ⟨none, some call.now, []⟩
 else match call with
  | .recordFailure other _ now browserVersion => if other = key then past.fail now browserVersion else past
  | .allowGpu _ _ _ => past
  | .turnedOff _ _ => past
  | .retryAll _ => past

def past (key : GpuDriverKey) (history : List Call) : Past := history.foldl (Past.after key) ⟨none, none, []⟩

def TurnsOff (key : GpuDriverKey) (history : List Call) : Call → Prop
 | .recordFailure other _ now _ => other = key ∧ (past key history).turnsOff now = true
 | _ => False

def Retries (key : GpuDriverKey) (history : List Call) (call : Call) : Prop :=
 (past key history).retries key call = true

def Off (key : GpuDriverKey) (history : List Call) : Prop :=
 ∃ before call after, history = before ++ call :: after ∧ TurnsOff key before call ∧
  ∀ middle later rest, after = middle ++ later :: rest → ¬Retries key (before ++ call :: middle) later

section History

variable {key : GpuDriverKey} {history : List Call} {call : Call}

theorem past_snoc (key : GpuDriverKey) (history : List Call) (call : Call) :
  past key (history ++ [call]) = (past key history).after key call := by
 rw [past, foldl_append]
 rfl

theorem off_snoc : Off key (history ++ [call]) ↔
  TurnsOff key history call ∨ (Off key history ∧ ¬Retries key history call) := by
 constructor
 · rintro ⟨before, first, after, hsplit, hturns, hkept⟩
   rcases eq_nil_or_concat after with rfl | ⟨middle, last, rfl⟩
   · obtain ⟨rfl, hlast⟩ := append_inj' hsplit rfl
     rw [(List.cons.inj hlast).1]
     exact Or.inl hturns
   · rw [concat_eq_append, ← cons_append, ← append_assoc] at hsplit
     obtain ⟨rfl, hlast⟩ := append_inj' hsplit rfl
     rw [(List.cons.inj hlast).1]
     refine Or.inr ⟨⟨before, first, middle, rfl, hturns, fun earlier later rest heq => ?_⟩, ?_⟩
     · apply hkept earlier later (rest ++ [last])
       rw [heq, concat_eq_append, append_assoc, cons_append]
     · exact hkept middle last [] (concat_eq_append ..)
 · rintro (hturns | ⟨⟨before, first, after, rfl, hturns, hkept⟩, hnot⟩)
   · exact ⟨history, call, [], rfl, hturns, fun middle later rest heq =>
      absurd heq (append_ne_nil_of_right_ne_nil middle (cons_ne_nil later rest)).symm⟩
   · refine ⟨before, first, after ++ [call], by rw [append_assoc, cons_append], hturns, ?_⟩
     intro middle later rest heq
     rcases eq_nil_or_concat rest with rfl | ⟨more, last, rfl⟩
     · obtain ⟨rfl, hlast⟩ := append_inj' heq rfl
       rw [← (List.cons.inj hlast).1]
       exact hnot
     · rw [concat_eq_append, ← cons_append, ← append_assoc] at heq
       obtain ⟨rfl, -⟩ := append_inj' heq rfl
       exact hkept middle later more rfl

theorem retries_off {past : Past} (h : past.retries key call = true) : past.off.isSome = true := by
 cases hoff : past.off with
 | none =>
  simp [Past.retries, hoff] at h
 | some off => rfl

theorem turnsOff_on {past : Past} {now : ℤ} (h : past.turnsOff now = true) : past.off = none := by
 rw [Past.turnsOff, Bool.and_eq_true, Option.isNone_iff_eq_none] at h
 exact h.1

theorem after_off (past : Past) (call : Call) : ((past.after key call).off.isSome = true) ↔
  (∃ name now version, call = .recordFailure key name now version ∧ past.turnsOff now = true) ∨
   (past.off.isSome = true ∧ past.retries key call = false) := by
 rw [Past.after.eq_def]
 split_ifs with hretries
 · constructor
   · exact fun h => Bool.noConfusion h
   · rintro (⟨name, now, version, rfl, hturns⟩ | ⟨-, hnot⟩)
     · have hsome := retries_off hretries
       rw [turnsOff_on hturns] at hsome
       exact Bool.noConfusion hsome
     · exact absurd (hretries.symm.trans hnot) Bool.noConfusion
 · rw [Bool.not_eq_true] at hretries
   cases call with
   | recordFailure other name now version =>
    by_cases hkey : other = key
    · subst hkey
      by_cases hturns : past.turnsOff now = true
      · simp [hturns, Past.fail]
      · simp [hturns, hretries, Past.fail]
    · simp [hkey, hretries]
   | allowGpu other now version => simp [hretries]
   | turnedOff now version => simp [hretries]
   | retryAll now => simp [hretries]

/-- The key is off by the history where a call turned it off and none retried it since. -/
theorem past_off_iff (key : GpuDriverKey) (history : List Call) :
  (past key history).off.isSome = true ↔ Off key history := by
 induction history using List.reverseRecOn with
 | nil =>
  constructor
  · exact fun h => Bool.noConfusion h
  · rintro ⟨before, call, after, hsplit, -⟩
    exact absurd hsplit (append_ne_nil_of_right_ne_nil before (cons_ne_nil call after)).symm
 | append_singleton history call ih =>
  rw [past_snoc, after_off, off_snoc, ih, Retries, Bool.not_eq_true]
  apply or_congr_left
  cases call with
  | recordFailure other name now version =>
   constructor
   · rintro ⟨_, _, _, heq, hturns⟩
     injection heq with hkey hname hnow
     subst hkey hnow
     exact ⟨rfl, hturns⟩
   · rintro ⟨rfl, hturns⟩
     exact ⟨name, now, version, rfl, hturns⟩
  | allowGpu other now version => simp [TurnsOff]
  | turnedOff now version => simp [TurnsOff]
  | retryAll now => simp [TurnsOff]

end History

/-! ## The entries and the history -/

/-- An entry says what the history does, as far as it still counts. -/
structure Follows (now : ℤ) (entry : GpuDriverEntry) (past : Past) : Prop where
 off : past.off = if entry.turnedOff then some (entry.turnedOffMs, entry.turnedOffVersion) else none
 probation : entry.turnedOff = false → (entry.probation = true ↔ past.failures = [] ∧ past.retried.isSome = true)
 failures : entry.turnedOff = false → ∀ later, now ≤ later → recent later entry.failureMs = recent later past.failures
 few : entry.turnedOff = false → entry.failureMs.length < kFailuresToTurnOff
 last : entry.turnedOff = false → ∀ t ∈ past.failures, t ≤ entry.lastEventMs
 retry : entry.turnedOff = false → past.failures = [] → ∀ t ∈ past.retried, t = entry.lastEventMs

structure Forgotten (now : ℤ) (past : Past) : Prop where
 off : past.off = none
 failures : ∀ t ∈ past.failures, kFailureMemoryMs ≤ now - t
 retry : past.failures = [] → ∀ t ∈ past.retried, kFailureMemoryMs ≤ now - t

def Tracks (now : ℤ) (past : Past) : Option GpuDriverEntry → Prop
 | none => Forgotten now past
 | some entry => Follows now entry past

section Tracking

variable {now : ℤ} {past : Past} {entry : GpuDriverEntry} {found : Option GpuDriverEntry}

theorem Tracks.later (h : Tracks now past found) {later : ℤ} (hlater : now ≤ later) : Tracks later past found := by
 cases found with
 | none =>
  have hforgotten : Forgotten now past := h
  refine ⟨hforgotten.off, fun t ht => ?_, fun hnil t ht => ?_⟩
  · have hold := hforgotten.failures t ht
    omega
  · have hold := hforgotten.retry hnil t ht
    omega
 | some entry =>
  have hfollows : Follows now entry past := h
  exact ⟨hfollows.off, hfollows.probation, fun hoff time htime => hfollows.failures hoff time (hlater.trans htime),
   hfollows.few, hfollows.last, hfollows.retry⟩

theorem Follows.forgotten (h : Follows now entry past) (hevent : entry.lastEventMs ≤ now)
  (hstale : stale now entry = true) : Forgotten now past := by
 rw [stale, Bool.and_eq_true, Bool.not_eq_true', decide_eq_true_eq, age_of_le hevent] at hstale
 obtain ⟨hon, hage⟩ := hstale
 refine ⟨by rw [h.off, hon]; rfl, fun t ht => ?_, fun hnil t ht => ?_⟩
 · have hlast := h.last hon t ht
   omega
 · rw [h.retry hon hnil t ht]
   exact hage

theorem Follows.forget (h : Follows now entry past) : Follows now (forget entry) past := by
 cases hoff : entry.turnedOff with
 | true => rwa [forget_off hoff]
 | false =>
  have hnone : past.off = none := by
   rw [h.off, hoff]
   rfl
  rw [forget_on hoff]
  exact ⟨by rw [hnone, hoff]; rfl, h.probation, h.failures, h.few, h.last, h.retry⟩

theorem follows_probation (entry : GpuDriverEntry) (now : ℤ) :
  Follows now (onProbation entry now) ⟨none, some now, []⟩ where
 off := rfl
 probation _ := ⟨fun _ => ⟨rfl, rfl⟩, fun _ => rfl⟩
 failures _ _ _ := rfl
 few _ := by
  change 0 < 3
  omega
 last _ _ ht := absurd ht not_mem_nil
 retry _ _ _ ht := (Option.some.inj ht).symm

theorem retryDue_eq (h : EntryKept now entry) (hoff : entry.turnedOff = true) (version : Bytes) :
  retryDue entry now version = due (entry.turnedOffMs, entry.turnedOffVersion) now version := by
 rw [retryDue, due, age_of_le (h.off hoff).2]

theorem Follows.maybeRetry (h : Follows now entry past) (hkept : EntryKept now entry) {call : Call} {version : Bytes}
  (hcall : call = .allowGpu entry.key now version ∨ call = .turnedOff now version) :
  Follows now (maybeRetry entry now version).2 (past.after entry.key call) := by
 have hnow : call.now = now := by rcases hcall with rfl | rfl <;> rfl
 have hsame : past.retries entry.key call = false → past.after entry.key call = past := fun hnot => by
  rcases hcall with rfl | rfl <;> simp [Past.after, hnot]
 rw [GpuDriverRecord.maybeRetry]
 cases hoff : entry.turnedOff with
 | false =>
  have hnone : past.off = none := by
   rw [h.off, hoff]
   rfl
  rw [if_pos rfl, hsame (by rcases hcall with rfl | rfl <;> simp [Past.retries, hnone])]
  exact h
 | true =>
  have hsome : past.off = some (entry.turnedOffMs, entry.turnedOffVersion) := by
   rw [h.off, hoff]
   rfl
  have hretries : past.retries entry.key call = retryDue entry now version := by
   rw [retryDue_eq hkept hoff]
   rcases hcall with rfl | rfl <;> simp [Past.retries, hsome]
  rw [if_neg (by decide)]
  split_ifs with hdue
  · rw [hsame (hretries.trans hdue)]
    exact h
  · rw [Past.after.eq_def, if_pos (hretries.trans (Bool.not_eq_false _ ▸ hdue)), hnow]
    exact follows_probation entry now

theorem Forgotten.after_retry (h : Forgotten now past) (key : GpuDriverKey) {call : Call}
  (hcall : ∀ name now version, call ≠ .recordFailure key name now version) : past.after key call = past := by
 have hnot : past.retries key call = false := by simp [Past.retries, h.off]
 rw [Past.after.eq_def, hnot, if_neg (by decide)]
 cases call with
 | recordFailure other name now version =>
  apply if_neg
  rintro rfl
  exact hcall name now version rfl
 | allowGpu other now version => rfl
 | turnedOff now version => rfl
 | retryAll now => rfl

theorem recent_append (now : ℤ) (failures : List ℤ) : recent now (failures ++ [now]) = recent now failures ++ [now] := by
 have hnow : now - now < kFailureMemoryMs := by
  rw [sub_self]
  decide
 rw [recent, filter_append, filter_singleton, decide_eq_true hnow]
 rfl

theorem recent_recent {now later : ℤ} (h : now ≤ later) (failures : List ℤ) :
  recent later (recent now failures) = recent later failures := by
 rw [recent, recent, filter_filter]
 apply filter_congr
 intro t _
 rw [Bool.and_eq_left_iff_imp, decide_eq_true_eq, decide_eq_true_eq]
 omega

theorem newFailures_eq (hkept : EntryKept now entry) (hfew : entry.failureMs.length < kFailuresToTurnOff) :
  newFailures entry now = recent now entry.failureMs ++ [now] := by
 have hfilter : (entry.failureMs.filter fun t => age t now < kFailureMemoryMs) = recent now entry.failureMs := by
  apply filter_congr
  intro t ht
  rw [age_of_le (hkept.failures t ht).2]
 have hlength : (recent now entry.failureMs).length ≤ entry.failureMs.length := length_filter_le _ _
 rw [newFailures, hfilter]
 apply if_neg
 rw [length_append, length_singleton]
 omega

theorem Follows.turnsOff (h : Follows now entry past) (hkept : EntryKept now entry) (hfresh : stale now entry = false)
  (hon : entry.turnedOff = false) :
  past.turnsOff now = false ↔ entry.probation = false ∧ (newFailures entry now).length < kFailuresToTurnOff := by
 have hnone : past.off = none := by
  rw [h.off, hon]
  rfl
 have hage : now - entry.lastEventMs < kFailureMemoryMs := by
  rw [stale, hon, Bool.not_false, Bool.true_and, decide_eq_false_iff_not, age_of_le hkept.event.2] at hfresh
  omega
 have hprobation : (past.failures.isEmpty && past.retried.any fun retry => now - retry < kFailureMemoryMs) =
   entry.probation := by
  rw [Bool.eq_iff_iff, h.probation hon, Bool.and_eq_true, List.isEmpty_iff]
  apply and_congr_right
  intro hnil
  cases hretried : past.retried with
  | none => simp
  | some retry =>
   have hlast := h.retry hon hnil retry hretried
   simp [hlast, hage]
 have hfew := h.few hon
 have hcount : (recent now entry.failureMs).length ≤ entry.failureMs.length := length_filter_le _ _
 rw [Past.turnsOff, hnone, hprobation, newFailures_eq hkept hfew, ← h.failures hon now (le_refl now),
  length_append, length_singleton]
 simp only [Option.isNone_none, Bool.true_and, Bool.or_eq_false_iff, beq_eq_false_iff_ne]
 rw [and_comm]
 apply and_congr_right
 intro _
 omega

theorem after_failure (past : Past) (key : GpuDriverKey) (name : Bytes) (now : ℤ) (version : Bytes) :
  past.after key (.recordFailure key name now version) = past.fail now version := by
 have hnot : past.retries key (.recordFailure key name now version) = false := by
  cases hoff : past.off <;> simp [Past.retries, hoff]
 rw [Past.after.eq_def, hnot, if_neg (by decide)]
 exact if_pos rfl

theorem after_other (past : Past) {key other : GpuDriverKey} (h : other ≠ key) (name : Bytes) (now : ℤ)
  (version : Bytes) : past.after key (.recordFailure other name now version) = past := by
 have hnot : past.retries key (.recordFailure other name now version) = false := by
  cases hoff : past.off <;> simp [Past.retries, hoff]
 rw [Past.after.eq_def, hnot, if_neg (by decide)]
 exact if_neg h

theorem Follows.fail (h : Follows now entry past) (hkept : EntryKept now entry) (hfresh : stale now entry = false)
  (name version : Bytes) :
  (failEntry entry name now version).1 = past.turnsOff now ∧
   Follows now (failEntry entry name now version).2 (past.fail now version) := by
 cases hoff : entry.turnedOff with
 | true =>
  have hsome : past.off = some (entry.turnedOffMs, entry.turnedOffVersion) := by
   rw [h.off, hoff]
   rfl
  have hnot : past.turnsOff now = false := by
   rw [Past.turnsOff, hsome]
   rfl
  have hvacuous : ∀ {P : Prop}, entry.turnedOff = false → P := fun hon => absurd (hoff.symm.trans hon) (by decide)
  rw [failEntry_off hoff]
  refine ⟨hnot.symm, ⟨?_, hvacuous, hvacuous, hvacuous, hvacuous, hvacuous⟩⟩
  rw [Past.fail, hnot, if_neg (by decide), hsome, hoff]
  rfl
 | false =>
  have hturns := h.turnsOff hkept hfresh hoff
  by_cases hshort : entry.probation = false ∧ (newFailures entry now).length < kFailuresToTurnOff
  · have hnot := hturns.2 hshort
    have hsnoc : past.failures ++ [now] ≠ [] := append_ne_nil_of_right_ne_nil _ (cons_ne_nil _ _)
    rw [failEntry_short hoff hshort, Past.fail, hnot, if_neg (by decide)]
    refine ⟨rfl, ⟨h.off, fun _ => ?_, fun _ later hlater => ?_, fun _ => hshort.2, fun _ t ht => ?_,
     fun _ hnil => absurd hnil hsnoc⟩⟩
    · exact ⟨fun hprobation => absurd (hshort.1.symm.trans hprobation) (by decide), fun hnil => absurd hnil.1 hsnoc⟩
    · have hsplit : ∀ failures, recent later (failures ++ [now]) = recent later failures ++ recent later [now] :=
       fun failures => filter_append ..
      dsimp only
      rw [newFailures_eq hkept (h.few hoff), hsplit, hsplit, recent_recent hlater, h.failures hoff later hlater]
    · rcases mem_append.1 ht with hold | hnew
      · exact (h.last hoff t hold).trans hkept.event.2
      · exact (mem_singleton.1 hnew).le
  · have hyes : past.turnsOff now = true := Bool.not_eq_false _ ▸ mt hturns.1 hshort
    have hvacuous : ∀ {P : Prop}, true = false → P := fun hon => Bool.noConfusion hon
    rw [failEntry_turns hoff hshort, Past.fail, hyes, if_pos rfl]
    exact ⟨rfl, ⟨rfl, hvacuous, hvacuous, hvacuous, hvacuous, hvacuous⟩⟩

theorem Forgotten.fail (h : Forgotten now past) (key : GpuDriverKey) (name version : Bytes) :
  past.turnsOff now = false ∧ Follows now (failEntry { key } name now version).2 (past.fail now version) := by
 have hnone : recent now past.failures = [] := by
  refine filter_eq_nil_iff.2 fun t ht => ?_
  have hold := h.failures t ht
  rw [decide_eq_true_eq]
  omega
 have hnot : past.turnsOff now = false := by
  rw [Past.turnsOff, hnone]
  cases hfailures : past.failures with
  | cons t failures => simp [kFailuresToTurnOff]
  | nil =>
   cases hretried : past.retried with
   | none => simp [kFailuresToTurnOff]
   | some retry =>
    have hold := h.retry hfailures retry hretried
    simp [kFailuresToTurnOff, hold]
 have hsnoc : past.failures ++ [now] ≠ [] := append_ne_nil_of_right_ne_nil _ (cons_ne_nil _ _)
 rw [failEntry_first, Past.fail, hnot, if_neg (by decide), h.off]
 refine ⟨rfl, ⟨rfl, fun _ => ?_, fun _ later hlater => ?_, fun _ => ?_, fun _ t ht => ?_,
  fun _ hnil => absurd hnil hsnoc⟩⟩
 · exact ⟨fun hprobation => Bool.noConfusion hprobation, fun hnil => absurd hnil.1 hsnoc⟩
 · have hsplit : recent later (past.failures ++ [now]) = recent later past.failures ++ recent later [now] :=
    filter_append ..
   have hold := recent_recent hlater past.failures
   rw [hnone] at hold
   rw [hsplit, ← hold]
   rfl
 · change 1 < 3
   omega
 · rcases mem_append.1 ht with hold | hnew
   · have hmemory : 0 < kFailureMemoryMs := by decide
     have hage := h.failures t hold
     change t ≤ now
     omega
   · exact (mem_singleton.1 hnew).le

theorem Follows.retryAll (h : Follows now entry past) (key : GpuDriverKey) :
  Follows now (if entry.turnedOff then onProbation entry now else entry) (past.after key (.retryAll now)) := by
 cases hoff : entry.turnedOff with
 | false =>
  have hnone : past.off = none := by
   rw [h.off, hoff]
   rfl
  have hsame : past.after key (.retryAll now) = past := by simp [Past.after, Past.retries, hnone]
  rw [hsame, if_neg (by decide)]
  exact h
 | true =>
  have hsome : past.off = some (entry.turnedOffMs, entry.turnedOffVersion) := by
   rw [h.off, hoff]
   rfl
  have hretried : past.after key (.retryAll now) = ⟨none, some now, []⟩ := by
   simp [Past.after, Past.retries, hsome, Call.now]
  rw [hretried, if_pos rfl]
  exact follows_probation entry now

end Tracking

section Entries

variable {among : Finset GpuDriverKey} {now : ℤ} {entries : List GpuDriverEntry} {key : GpuDriverKey} {past : Past}

theorem find_map {change : GpuDriverEntry → GpuDriverEntry} (h : ∀ entry, (change entry).key = entry.key)
  (entries : List GpuDriverEntry) (key : GpuDriverKey) :
  find (entries.map change) key = (find entries key).map change := by
 rw [find, find, find?_map]
 congr 2
 funext entry
 rw [Function.comp_apply, h]

theorem find_expire (h : (keys entries).Nodup) (key : GpuDriverKey) (now : ℤ) :
  find (expire entries now) key = (find entries key).filter fun entry => !stale now entry := by
 have hnodup : (keys (expire entries now)).Nodup := h.sublist (keys_expire entries now)
 cases hfind : find entries key with
 | none =>
  rw [Option.filter_none, find_none]
  exact fun hmem => find_none.1 hfind ((keys_expire entries now).subset hmem)
 | some entry =>
  have hmem := mem_of_find?_eq_some hfind
  have hkey := find_key hfind
  subst hkey
  cases hstale : stale now entry with
  | false =>
   have hfresh : entry ∈ expire entries now := mem_filter.2 ⟨hmem, by rw [hstale]; rfl⟩
   rw [find_of_mem hnodup hfresh, Option.filter_some, hstale]
   rfl
  | true =>
   have hgone : find (expire entries now) entry.key = none := by
    rw [find_none]
    intro hkeys
    obtain ⟨other, hother, hsame⟩ := mem_map.1 hkeys
    obtain ⟨hold, hfresh⟩ := mem_filter.1 hother
    have hfound := find_of_mem h hold
    rw [hsame, hfind] at hfound
    rw [← Option.some.inj hfound, hstale] at hfresh
    exact Bool.noConfusion hfresh
   rw [hgone, Option.filter_some, hstale]
   rfl

theorem Kept.found (h : Kept among now entries) {entry : GpuDriverEntry} (hfind : find entries key = some entry) :
  EntryKept now entry := h.entry entry (mem_of_find?_eq_some hfind)

theorem Tracks.expire (h : Tracks now past (find entries key)) (hkept : Kept among now entries) :
  Tracks now past (find (expire entries now) key) := by
 rw [find_expire hkept.nodup]
 cases hfind : find entries key with
 | none =>
  rw [hfind] at h
  exact h
 | some entry =>
  rw [hfind] at h
  have hfollows : Follows now entry past := h
  cases hstale : stale now entry with
  | false =>
   rw [Option.filter_some, hstale]
   exact h
  | true =>
   rw [Option.filter_some, hstale]
   exact hfollows.forgotten (hkept.found hfind).event.2 hstale

theorem Tracks.view (h : Tracks now past (find entries key)) (hkept : Kept among now entries) :
  Tracks now past (find (view now entries) key) := by
 rw [GpuDriverRecord.view, find_map_forget]
 have hexpired := h.expire hkept
 cases hfind : find (GpuDriverRecord.expire entries now) key with
 | none =>
  rw [hfind] at hexpired
  exact hexpired
 | some entry =>
  rw [hfind] at hexpired
  have hfollows : Follows now entry past := hexpired
  exact hfollows.forget

theorem Tracks.map (h : Tracks now past (find entries key)) (hkept : Kept among now entries)
  {change : GpuDriverEntry → GpuDriverEntry} (hkey : ∀ entry, (change entry).key = entry.key) {after : Past}
  (hforgotten : Forgotten now past → after = past)
  (hchange : ∀ entry, entry.key = key → EntryKept now entry → Follows now entry past → Follows now (change entry) after) :
  Tracks now after (find (entries.map change) key) := by
 rw [find_map hkey]
 cases hfind : find entries key with
 | none =>
  rw [hfind] at h
  rw [hforgotten h]
  exact h
 | some entry =>
  rw [hfind] at h
  exact hchange entry (find_key hfind) (hkept.found hfind) h

theorem Tracks.recordKept (h : Tracks now past (find entries key)) (hkept : Kept among now entries)
  (hcard : among.card ≤ kMaxEntries) (hfresh : ∀ entry ∈ entries, stale now entry = false) {other : GpuDriverKey}
  (hother : other ∈ among) (name version : Bytes) :
  (other = key → (recordKept entries other name now version).1 = past.turnsOff now) ∧
   Tracks now (past.after key (.recordFailure other name now version))
    (find (recordKept entries other name now version).2 key) := by
 rw [GpuDriverRecord.recordKept]
 cases hfind : find entries other with
 | some entry =>
  have hreplaced := replace_eq_map hkept.nodup hfind fun entry => (failEntry entry name now version).2
  have hkeys : ∀ old : GpuDriverEntry,
    (if old.key = other then (failEntry old name now version).2 else old).key = old.key := fun old => by
   split_ifs
   · exact failEntry_key old name now version
   · rfl
  dsimp only at hreplaced ⊢
  rw [hreplaced, find_map hkeys]
  by_cases hkey : other = key
  · subst hkey
    rw [hfind] at h ⊢
    obtain ⟨hanswer, hfollows⟩ := Follows.fail h (hkept.found hfind)
     (hfresh entry (mem_of_find?_eq_some hfind)) name version
    rw [after_failure, Option.map_some, if_pos (find_key hfind)]
    exact ⟨fun _ => hanswer, hfollows⟩
  · rw [after_other past hkey]
    refine ⟨fun heq => absurd heq hkey, ?_⟩
    cases hmine : find entries key with
    | none => rwa [hmine] at h
    | some mine =>
     rw [Option.map_some, if_neg fun heq => hkey (heq.symm.trans (find_key hmine))]
     rwa [hmine] at h
 | none =>
  have hmade : makeRoom entries = entries := if_pos (hkept.room hcard hother hfind)
  have happend : find (entries ++ [(failEntry { key := other } name now version).2]) key =
    (find entries key).or (if other = key then some (failEntry { key := other } name now version).2 else none) := by
   rw [find, find?_append, find?_singleton, failEntry_key]
   simp only [decide_eq_true_eq]
   rfl
  dsimp only
  rw [hmade, happend]
  by_cases hkey : other = key
  · subst hkey
    rw [hfind] at h ⊢
    obtain ⟨hanswer, hfollows⟩ := Forgotten.fail h other name version
    rw [failEntry_first] at hfollows ⊢
    rw [after_failure, if_pos rfl]
    exact ⟨fun _ => hanswer.symm, hfollows⟩
  · rw [after_other past hkey, if_neg hkey, Option.or_none]
    exact ⟨fun heq => absurd heq hkey, h⟩

theorem Tracks.recordFailure (h : Tracks now past (find entries key)) (hkept : Kept among now entries)
  (hcard : among.card ≤ kMaxEntries) {other : GpuDriverKey} (hother : other ∈ among) (name version : Bytes) :
  (other = key → (recordFailure entries other name now version).1 = past.turnsOff now) ∧
   Tracks now (past.after key (.recordFailure other name now version))
    (find (recordFailure entries other name now version).2 key) :=
 (h.expire hkept).recordKept (hkept.expire now) hcard
  (fun _ hentry => Bool.not_eq_true' _ ▸ (mem_filter.1 hentry).2) hother name version

theorem Tracks.perform (h : Tracks now past (find entries key)) (hkept : Kept among now entries)
  (hcard : among.card ≤ kMaxEntries) {call : Call} (hcall : call.now = now) (hnow : 0 < now)
  (hamong : ∀ other ∈ call.key, other ∈ among) :
  Tracks now (past.after key call) (find (perform entries call).2 key) := by
 subst hcall
 cases call with
 | recordFailure other name now version => exact (h.recordFailure hkept hcard (hamong other rfl) name version).2
 | allowGpu other now version =>
  simp only [GpuDriverRecord.perform]
  rw [allowGpu_entries hkept.nodup]
  have hsame : other ≠ key → past.after key (.allowGpu other now version) = past := fun hne => by
   have hnot : past.retries key (.allowGpu other now version) = false := by
    cases hoff : past.off <;> simp [Past.retries, hoff, hne]
   rw [Past.after.eq_def, hnot, if_neg (by decide)]
  refine h.map hkept ((maybeRetry_renews now version).at_key other).key
   (fun hforgotten => hforgotten.after_retry key fun _ _ _ => Call.noConfusion) fun entry hkey hentry hfollows => ?_
  subst hkey
  split_ifs with hother
  · exact hfollows.maybeRetry hentry (Or.inl (hother ▸ rfl))
  · rw [hsame (Ne.symm hother)]
    exact hfollows
 | turnedOff now version =>
  have hretried : Kept among now (entries.map fun entry => (maybeRetry entry now version).2) :=
   hkept.map (maybeRetry_renews now version).key fun entry hentry => hentry.maybeRetry hnow version
  have htracks : Tracks now (past.after key (.turnedOff now version))
    (find (entries.map fun entry => (maybeRetry entry now version).2) key) := by
   refine h.map hkept (maybeRetry_renews now version).key
    (fun hforgotten => hforgotten.after_retry key fun _ _ _ => Call.noConfusion) fun entry hkey hentry hfollows => ?_
   subst hkey
   exact hfollows.maybeRetry hentry (Or.inr rfl)
  have hentries : (GpuDriverRecord.perform entries (.turnedOff now version)).2 =
    GpuDriverRecord.expire (entries.map fun entry => (maybeRetry entry now version).2) now := by
   simp only [GpuDriverRecord.perform, turnedOff, map_map]
   rfl
  rw [hentries]
  exact htracks.expire hretried
 | retryAll now =>
  exact h.map hkept (retryAll_renews now).key
   (fun hforgotten => hforgotten.after_retry key fun _ _ _ => Call.noConfusion) fun _ _ _ hfollows =>
    hfollows.retryAll key

theorem Tracks.allowGpu (h : Tracks now past (find entries key)) (hkept : Kept among now entries) (version : Bytes) :
  (allowGpu entries key now version).1 = false ↔ (past.after key (.allowGpu key now version)).off.isSome = true := by
 rw [GpuDriverRecord.allowGpu]
 cases hfind : find entries key with
 | none =>
  rw [hfind] at h
  have hforgotten : Forgotten now past := h
  rw [hforgotten.after_retry key fun _ _ _ => Call.noConfusion, hforgotten.off]
  exact ⟨fun hfalse => Bool.noConfusion hfalse, fun hsome => Bool.noConfusion hsome⟩
 | some entry =>
  rw [hfind] at h
  obtain rfl := find_key hfind
  have hfollows := Follows.maybeRetry h (hkept.found hfind) (Or.inl rfl : Call.allowGpu entry.key now version = _ ∨ _)
  rw [hfollows.off]
  change (!(maybeRetry entry now version).2.turnedOff) = false ↔ _
  cases (maybeRetry entry now version).2.turnedOff with
  | true => exact ⟨fun _ => rfl, fun _ => rfl⟩
  | false => exact ⟨fun hfalse => Bool.noConfusion hfalse, fun hsome => Bool.noConfusion hsome⟩

end Entries

/-! ## Runs -/

section Runs

variable {among : Finset GpuDriverKey} {now : ℤ} {entries : List GpuDriverEntry} {history : List Call}

/-- The entries are in order and say what the history does. -/
structure Reached (among : Finset GpuDriverKey) (now : ℤ) (entries : List GpuDriverEntry) (history : List Call) :
  Prop where
 kept : Kept among now entries
 tracks : ∀ key, Tracks now (past key history) (find entries key)

theorem Reached.later (h : Reached among now entries history) {later : ℤ} (hlater : now ≤ later) :
  Reached among later entries history :=
 ⟨h.kept.later hlater, fun key => (h.tracks key).later hlater⟩

theorem Reached.step (h : Reached among now entries history) (hcard : among.card ≤ kMaxEntries) {event : Event}
  (hnow : 0 < event.now) (hlater : now ≤ event.now) (hamong : ∀ call ∈ event.call?, ∀ key ∈ call.key, key ∈ among) :
  Reached among event.now (step entries event) (history ++ event.call?.toList) := by
 refine ⟨h.kept.step hcard hnow hlater hamong, fun key => ?_⟩
 have hthen := (h.tracks key).later hlater
 have hkept := h.kept.later hlater
 cases event with
 | call call =>
  have hpast : past key (history ++ [call]) = (past key history).after key call := past_snoc key history call
  change Tracks _ (past key (history ++ [call])) _
  rw [hpast]
  exact hthen.perform hkept hcard rfl hnow (hamong call rfl)
 | reload time =>
  have hrestorable : Kept among time entries := hkept
  change Tracks time (past key (history ++ [])) (find (restore entries time) key)
  rw [append_nil, restore_kept hrestorable hcard]
  exact hthen.view hrestorable

theorem Reached.run (h : Reached among now entries history) (hcard : among.card ≤ kMaxEntries) {events : List Event}
  (htimed : Timed events) (hnow : ∀ event ∈ events, now ≤ event.now) (hamong : Among among events) {time : ℤ}
  (hstart : now ≤ time) (htime : ∀ event ∈ events, event.now ≤ time) :
  Reached among time (events.foldl GpuDriverRecord.step entries) (history ++ calls events) := by
 induction events generalizing now entries history with
 | nil =>
  rw [show history ++ calls [] = history from append_nil history]
  exact h.later hstart
 | cons event events ih =>
  have hmem : event ∈ event :: events := mem_cons_self ..
  have hfirst : ∀ call ∈ event.call?, ∀ key ∈ call.key, key ∈ among := fun call hcall =>
   hamong call (mem_filterMap.2 ⟨event, hmem, hcall⟩)
  have hcalls : history ++ calls (event :: events) = history ++ event.call?.toList ++ calls events := by
   rw [append_assoc, calls, filterMap_cons]
   cases event.call? <;> rfl
  rw [hcalls]
  exact ih (h.step hcard (htimed.positive event hmem) (hnow event hmem) hfirst) htimed.tail htimed.le hamong.tail
   (htime event hmem) fun later hlater => htime later (mem_cons_of_mem event hlater)

theorem reached_nil (among : Finset GpuDriverKey) (now : ℤ) : Reached among now [] [] :=
 ⟨kept_nil among now, fun _ => ⟨rfl, fun _ ht => absurd ht not_mem_nil, fun _ _ ht =>
  absurd ht (Option.not_mem_none _)⟩⟩

end Runs

/-- The call answers by the history: the GPU is refused where it is off, and a failure says whether it
turned it off. -/
def Decided (entries : List GpuDriverEntry) (history : List Call) : Call → Prop
 | .allowGpu key now browserVersion =>
  (allowGpu entries key now browserVersion).1 = false ↔ Off key (history ++ [.allowGpu key now browserVersion])
 | .recordFailure key name now browserVersion =>
  (recordFailure entries key name now browserVersion).1 = true ↔
   TurnsOff key history (.recordFailure key name now browserVersion)
 | .turnedOff _ _ => True
 | .retryAll _ => True

theorem Timed.of_append {before after : List Event} (h : Timed (before ++ after)) : Timed before :=
 ⟨fun event hevent => h.positive event (mem_append_left after hevent), (pairwise_append.1 h.ordered).1⟩

theorem Among.of_append {among : Finset GpuDriverKey} {before after : List Event} (h : Among among (before ++ after)) :
  Among among before := by
 intro call hcall
 apply h call
 rw [calls, filterMap_append]
 exact mem_append_left _ hcall

theorem exists_time (events : List Event) : ∃ time : ℤ, 0 ≤ time ∧ ∀ event ∈ events, event.now ≤ time := by
 induction events with
 | nil => exact ⟨0, le_refl 0, fun _ h => absurd h not_mem_nil⟩
 | cons event events ih =>
  obtain ⟨time, hpositive, hevents⟩ := ih
  refine ⟨max time event.now, le_max_of_le_left hpositive, fun other hother => ?_⟩
  rcases mem_cons.1 hother with rfl | hother
  · exact le_max_right _ _
  · exact le_max_of_le_left (hevents other hother)

theorem records_reached {among : Finset GpuDriverKey} {events : List Event} (hcard : among.card ≤ kMaxEntries)
  (htimed : Timed events) (hamong : Among among events) {time : ℤ} (hstart : 0 ≤ time)
  (htime : ∀ event ∈ events, event.now ≤ time) : Reached among time (records events) (calls events) :=
 (reached_nil among 0).run hcard htimed (fun event hevent => (htimed.positive event hevent).le) hamong hstart htime

/-- In every run on at most `kMaxEntries` keys, with restarts among the calls or without. -/
theorem records_decide (among : Finset GpuDriverKey) (events : List Event) (hcard : among.card ≤ kMaxEntries)
  (htimed : Timed events) (hamong : Among among events) :
  (∀ before after, events = before ++ after → (keys (records before)).Nodup) ∧
   answers events = answers (withoutReloads events) ∧
   ∀ before call after, events = before ++ .call call :: after → Decided (records before) (calls before) call := by
 refine ⟨?_, ?_, ?_⟩
 · rintro before after rfl
   obtain ⟨time, hstart, htime⟩ := exists_time before
   exact (records_reached hcard htimed.of_append hamong.of_append hstart htime).kept.nodup
 · exact answersFrom_reloads (kept_nil among 0) (kept_nil among 0) rfl hcard htimed
    (fun event hevent => (htimed.positive event hevent).le) hamong
 · rintro before call after rfl
   have hmem : Event.call call ∈ before ++ .call call :: after := List.mem_append_right before (List.mem_cons_self ..)
   have hnow : 0 < call.now := htimed.positive _ hmem
   have hbefore : ∀ event ∈ before, event.now ≤ call.now := fun event hevent =>
    (List.pairwise_append.1 htimed.ordered).2.2 event hevent _ (List.mem_cons_self ..)
   have hreached := records_reached hcard htimed.of_append hamong.of_append hnow.le hbefore
   cases call with
   | recordFailure key name now version =>
    have hkey : key ∈ among := hamong _ (List.mem_filterMap.2 ⟨_, hmem, rfl⟩) key rfl
    have hanswer := ((hreached.tracks key).recordFailure hreached.kept hcard hkey name version).1 rfl
    change (recordFailure (records before) key name now version).1 = true ↔
     key = key ∧ (past key (calls before)).turnsOff now = true
    rw [and_iff_right rfl]
    exact Eq.congr_left hanswer
   | allowGpu key now version =>
    change (allowGpu (records before) key now version).1 = false ↔ Off key (calls before ++ [.allowGpu key now version])
    rw [← past_off_iff, past_snoc]
    exact (hreached.tracks key).allowGpu hreached.kept version
   | turnedOff now version => exact trivial
   | retryAll now => exact trivial

/-- Three failures with a restart among them: the driver is off. -/
theorem records_decide_thrice :
  (allowGpu (records [.call (.recordFailure unidentifiedGpuDriverKey [] 1 []),
   .call (.recordFailure unidentifiedGpuDriverKey [] 2 []), .reload 2,
   .call (.recordFailure unidentifiedGpuDriverKey [] 3 [])]) unidentifiedGpuDriverKey 4 []).1 = false := by
 let fail : ℤ → Event := fun now => .call (.recordFailure unidentifiedGpuDriverKey [] now [])
 have htimed : Timed [fail 1, fail 2, .reload 2, fail 3, .call (.allowGpu unidentifiedGpuDriverKey 4 [])] :=
  ⟨by simp [fail, Event.now, Call.now], by simp [fail, Event.now, Call.now]⟩
 have hamong : Among {unidentifiedGpuDriverKey}
   [fail 1, fail 2, .reload 2, fail 3, .call (.allowGpu unidentifiedGpuDriverKey 4 [])] := by
  intro call hcall key hkey
  simp only [calls, fail, Event.call?, List.filterMap_cons, List.filterMap_nil, List.mem_cons, List.not_mem_nil,
   or_false] at hcall
  rcases hcall with rfl | rfl | rfl | rfl
  all_goals exact Finset.mem_singleton.2 (Option.some.inj hkey).symm
 have hdecided := (records_decide {unidentifiedGpuDriverKey} _ (by decide) htimed hamong).2.2
  [fail 1, fail 2, .reload 2, fail 3] (.allowGpu unidentifiedGpuDriverKey 4 []) [] rfl
 exact hdecided.2 ((past_off_iff _ _).1 (by decide))

end MoltBrowser.GpuDriverRecord
