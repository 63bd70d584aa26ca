import MoltBrowser.GpuRecordViews

set_option autoImplicit false

/-!
# GPU failure records and restarts

Reading the entries back leaves what the calls can tell of them, so no call answers differently.
-/
namespace MoltBrowser.GpuDriverRecord
open List

structure EntryKept (now : ℤ) (entry : GpuDriverEntry) : Prop where
 name : sanitizeGpuName entry.name = entry.name
 version : sanitizeVersion entry.turnedOffVersion = entry.turnedOffVersion
 failures : ∀ t ∈ entry.failureMs, 0 < t ∧ t ≤ now
 sorted : entry.failureMs.Pairwise (· ≤ ·)
 length : entry.failureMs.length ≤ kFailuresToTurnOff
 event : 0 < entry.lastEventMs ∧ entry.lastEventMs ≤ now
 off : entry.turnedOff = true → 0 < entry.turnedOffMs ∧ entry.turnedOffMs ≤ now
 probation : entry.turnedOff = true → entry.probation = false

structure Kept (among : Finset GpuDriverKey) (now : ℤ) (entries : List GpuDriverEntry) : Prop where
 nodup : (keys entries).Nodup
 among : ∀ key ∈ keys entries, key ∈ among
 entry : ∀ entry ∈ entries, EntryKept now entry

section Entry

variable {now : ℤ} {entry : GpuDriverEntry}

theorem EntryKept.later (h : EntryKept now entry) {later : ℤ} (hlater : now ≤ later) : EntryKept later entry where
 name := h.name
 version := h.version
 failures t ht := ⟨(h.failures t ht).1, (h.failures t ht).2.trans hlater⟩
 sorted := h.sorted
 length := h.length
 event := ⟨h.event.1, h.event.2.trans hlater⟩
 off hoff := ⟨(h.off hoff).1, (h.off hoff).2.trans hlater⟩
 probation := h.probation

theorem clampTime_of_le {t : ℤ} (h : t ≤ now) : clampTime now t = t := if_neg (Int.not_lt.2 h)

theorem EntryKept.clean (h : EntryKept now entry) : clean entry now = forget entry := by
 have hpositive : entry.failureMs.filter (0 < ·) = entry.failureMs :=
  filter_eq_self.2 fun t ht => decide_eq_true (h.failures t ht).1
 have hclamped : entry.failureMs.map (clampTime now) = entry.failureMs := by
  rw [map_congr_left fun t ht => clampTime_of_le (h.failures t ht).2, map_id']
 have hsorted : entry.failureMs.mergeSort = entry.failureMs :=
  mergeSort_of_pairwise (h.sorted.imp fun hle => decide_eq_true hle)
 have hevent : (if 0 < entry.lastEventMs then clampTime now entry.lastEventMs else now) = entry.lastEventMs := by
  rw [if_pos h.event.1, clampTime_of_le h.event.2]
 rw [GpuDriverRecord.clean, hpositive, hclamped, hsorted, Nat.sub_eq_zero_of_le h.length, hevent, h.name]
 cases hoff : entry.turnedOff with
 | true =>
  obtain ⟨hsince, hbefore⟩ := h.off hoff
  rw [forget_off hoff, if_neg (by decide), if_pos hsince, clampTime_of_le hbefore, if_pos rfl, h.version]
  obtain ⟨key, name, failureMs, lastEventMs, turnedOff, turnedOffMs, turnedOffVersion, probation⟩ := entry
  obtain rfl : turnedOff = true := hoff
  obtain rfl : probation = false := h.probation rfl
  rfl
 | false =>
  rw [forget_on hoff, if_pos rfl, if_neg (by decide)]
  obtain ⟨key, name, failureMs, lastEventMs, turnedOff, turnedOffMs, turnedOffVersion, probation⟩ := entry
  obtain rfl : turnedOff = false := hoff
  rfl

theorem EntryKept.forget (h : EntryKept now entry) : EntryKept now (forget entry) := by
 cases hoff : entry.turnedOff with
 | true => rwa [forget_off hoff]
 | false =>
  rw [forget_on hoff]
  exact ⟨h.name, rfl, h.failures, h.sorted, h.length, h.event,
   fun hon => absurd (hoff.symm.trans hon) Bool.false_ne_true,
   fun hon => absurd (hoff.symm.trans hon) Bool.false_ne_true⟩

theorem EntryKept.onProbation (h : EntryKept now entry) (hnow : 0 < now) : EntryKept now (onProbation entry now) where
 name := h.name
 version := h.version
 failures _ ht := absurd ht not_mem_nil
 sorted := List.Pairwise.nil
 length := Nat.zero_le _
 event := ⟨hnow, le_refl now⟩
 off hoff := Bool.noConfusion hoff
 probation hoff := Bool.noConfusion hoff

theorem newFailures_mem {t : ℤ} (ht : t ∈ newFailures entry now) : t ∈ entry.failureMs ∨ t = now := by
 have hsub : t ∈ (entry.failureMs.filter fun t => age t now < kFailureMemoryMs) ++ [now] := by
  rw [newFailures] at ht
  split_ifs at ht
  · exact mem_of_mem_drop ht
  · exact ht
 exact (mem_append.1 hsub).imp mem_of_mem_filter mem_singleton.1

theorem newFailures_length (h : entry.failureMs.length ≤ kFailuresToTurnOff) (now : ℤ) :
  (newFailures entry now).length ≤ kFailuresToTurnOff := by
 have hfilter := length_filter_le (fun t => decide (age t now < kFailureMemoryMs)) entry.failureMs
 rw [newFailures]
 split_ifs with hlong
 · rw [length_drop, length_append, length_singleton]
   omega
 · exact Nat.not_lt.1 hlong

theorem newFailures_sorted (h : EntryKept now entry) : (newFailures entry now).Pairwise (· ≤ ·) := by
 have hall : ((entry.failureMs.filter fun t => age t now < kFailureMemoryMs) ++ [now]).Pairwise (· ≤ ·) := by
  refine pairwise_append.2 ⟨h.sorted.filter _, pairwise_singleton _ _, fun t ht later hlater => ?_⟩
  rw [mem_singleton.1 hlater]
  exact (h.failures t (mem_of_mem_filter ht)).2
 rw [newFailures]
 split_ifs
 · exact hall.drop
 · exact hall

theorem newName_idem (h : sanitizeGpuName entry.name = entry.name) (name : Bytes) :
  sanitizeGpuName (newName entry name) = newName entry name := by
 rw [newName]
 split_ifs
 · exact h
 · exact sanitizeGpuName_idem name

theorem EntryKept.failEntry (h : EntryKept now entry) (hnow : 0 < now) (name version : Bytes) :
  EntryKept now (failEntry entry name now version).2 := by
 have hfailures : ∀ t ∈ newFailures entry now, 0 < t ∧ t ≤ now := by
  intro t ht
  rcases newFailures_mem ht with hold | rfl
  · exact h.failures t hold
  · exact ⟨hnow, le_refl t⟩
 cases hoff : entry.turnedOff with
 | true =>
  rw [failEntry_off hoff]
  exact ⟨newName_idem h.name name, h.version, h.failures, h.sorted, h.length, ⟨hnow, le_refl now⟩, h.off, h.probation⟩
 | false =>
  by_cases hshort : entry.probation = false ∧ (newFailures entry now).length < kFailuresToTurnOff
  · rw [failEntry_short hoff hshort]
    exact ⟨newName_idem h.name name, h.version, hfailures, newFailures_sorted h, hshort.2.le, ⟨hnow, le_refl now⟩,
     h.off, h.probation⟩
  · rw [failEntry_turns hoff hshort]
    exact ⟨newName_idem h.name name, sanitizeVersion_idem version, hfailures, newFailures_sorted h,
     newFailures_length h.length now, ⟨hnow, le_refl now⟩, fun _ => ⟨hnow, le_refl now⟩, fun _ => rfl⟩

theorem failEntry_first (key : GpuDriverKey) (name : Bytes) (now : ℤ) (version : Bytes) :
  failEntry { key } name now version = (false, { key, name := sanitizeGpuName name, failureMs := [now], lastEventMs := now }) := by
 have hname : newName { key } name = sanitizeGpuName name := by
  rw [newName]
  split_ifs with hempty
  · exact hempty.symm
  · rfl
 have hfailures : newFailures { key } now = [now] := rfl
 have hshort : (newFailures { key } now).length < kFailuresToTurnOff := by
  rw [hfailures]
  exact Nat.lt_of_sub_pos Nat.two_pos
 rw [failEntry_short rfl ⟨rfl, hshort⟩, hname, hfailures]

theorem failEntry_key (entry : GpuDriverEntry) (name : Bytes) (now : ℤ) (version : Bytes) :
  (failEntry entry name now version).2.key = entry.key := by
 cases hoff : entry.turnedOff with
 | true => rw [failEntry_off hoff]
 | false =>
  by_cases hshort : entry.probation = false ∧ (newFailures entry now).length < kFailuresToTurnOff
  · rw [failEntry_short hoff hshort]
  · rw [failEntry_turns hoff hshort]

end Entry

/-! ## All entries -/

section Entries

variable {among : Finset GpuDriverKey} {now : ℤ} {entries : List GpuDriverEntry}

theorem Kept.later (h : Kept among now entries) {later : ℤ} (hlater : now ≤ later) : Kept among later entries :=
 ⟨h.nodup, h.among, fun entry hentry => (h.entry entry hentry).later hlater⟩

theorem Kept.expire (h : Kept among now entries) (time : ℤ) : Kept among now (expire entries time) :=
 ⟨h.nodup.sublist (keys_expire entries time), fun key hkey => h.among key ((keys_expire entries time).subset hkey),
  fun entry hentry => h.entry entry (mem_of_mem_filter hentry)⟩

theorem Kept.map (h : Kept among now entries) {change : GpuDriverEntry → GpuDriverEntry}
  (hkey : ∀ entry, (change entry).key = entry.key)
  (hentry : ∀ entry, EntryKept now entry → EntryKept now (change entry)) : Kept among now (entries.map change) := by
 refine ⟨by rw [keys_map hkey]; exact h.nodup, by rw [keys_map hkey]; exact h.among, fun entry hmem => ?_⟩
 obtain ⟨old, hold, rfl⟩ := mem_map.1 hmem
 exact hentry old (h.entry old hold)

theorem Kept.view (h : Kept among now entries) (time : ℤ) : Kept among now (view time entries) :=
 (h.expire time).map forget_key fun _ => EntryKept.forget

theorem length_keys (entries : List GpuDriverEntry) : (keys entries).length = entries.length := length_map _

theorem Kept.length_le (h : Kept among now entries) : entries.length ≤ among.card := by
 rw [← length_keys, ← toFinset_card_of_nodup h.nodup]
 exact Finset.card_le_card fun key hkey => h.among key (mem_toFinset.1 hkey)

theorem Kept.room (h : Kept among now entries) (hcard : among.card ≤ kMaxEntries) {key : GpuDriverKey}
  (hkey : key ∈ among) : Room entries key := by
 intro hfind
 have hsub : (keys entries).toFinset ⊆ among.erase key := by
  intro other hother
  rw [mem_toFinset] at hother
  refine Finset.mem_erase.2 ⟨?_, h.among other hother⟩
  rintro rfl
  exact find_none.1 hfind hother
 have hle := Finset.card_le_card hsub
 have hpos := Finset.card_pos.2 ⟨key, hkey⟩
 rw [toFinset_card_of_nodup h.nodup, length_keys, Finset.card_erase_of_mem hkey] at hle
 omega

theorem Kept.recordKept (h : Kept among now entries) (hcard : among.card ≤ kMaxEntries) (hnow : 0 < now)
  {key : GpuDriverKey} (hkey : key ∈ among) (name version : Bytes) :
  Kept among now (recordKept entries key name now version).2 := by
 rw [GpuDriverRecord.recordKept]
 cases hfind : find entries key with
 | some entry =>
  have hreplaced := replace_eq_map h.nodup hfind fun entry => (failEntry entry name now version).2
  dsimp only at hreplaced ⊢
  rw [hreplaced]
  apply h.map
  · intro entry
    split_ifs
    · exact failEntry_key entry name now version
    · rfl
  · intro entry hentry
    split_ifs
    · exact hentry.failEntry hnow name version
    · exact hentry
 | none =>
  have hmade : makeRoom entries = entries := if_pos (h.room hcard hkey hfind)
  dsimp only
  rw [hmade, failEntry_first]
  have hkeys : keys (entries ++ [{ key, name := sanitizeGpuName name, failureMs := [now], lastEventMs := now }]) =
    keys entries ++ [key] := map_append
  refine ⟨?_, fun other hother => ?_, fun entry hentry => ?_⟩
  · rw [hkeys]
    exact nodup_append.2 ⟨h.nodup, nodup_singleton key, fun a ha b hb heq =>
     find_none.1 hfind (mem_singleton.1 hb ▸ heq ▸ ha)⟩
  · rw [hkeys] at hother
    exact (mem_append.1 hother).elim (h.among other) fun hother => mem_singleton.1 hother ▸ hkey
  · rcases mem_append.1 hentry with hold | hnew
    · exact h.entry entry hold
    · rw [mem_singleton.1 hnew]
      have hfailures : ∀ t ∈ [now], 0 < t ∧ t ≤ now := fun t ht => by
       rw [mem_singleton.1 ht]
       exact ⟨hnow, le_refl now⟩
      exact ⟨sanitizeGpuName_idem name, rfl, hfailures,
       pairwise_singleton _ _, Nat.le_of_sub_eq_zero rfl, ⟨hnow, le_refl now⟩, fun hoff => Bool.noConfusion hoff,
       fun hoff => Bool.noConfusion hoff⟩

theorem EntryKept.maybeRetry {entry : GpuDriverEntry} (h : EntryKept now entry) (hnow : 0 < now) (version : Bytes) :
  EntryKept now (maybeRetry entry now version).2 := by
 rcases maybeRetry_cases entry now version with heq | heq
 · rwa [heq]
 · rw [heq]
   exact h.onProbation hnow

theorem Kept.perform (h : Kept among now entries) (hcard : among.card ≤ kMaxEntries) {call : Call}
  (hcall : call.now = now) (hnow : 0 < now) (hkey : ∀ key ∈ call.key, key ∈ among) :
  Kept among now (perform entries call).2 := by
 subst hcall
 cases call with
 | recordFailure key name now version => exact (h.expire now).recordKept hcard hnow (hkey key rfl) name version
 | allowGpu key now version =>
  have hrenews := (maybeRetry_renews now version).at_key key
  simp only [GpuDriverRecord.perform]
  rw [allowGpu_entries h.nodup]
  apply h.map hrenews.key
  intro entry hentry
  split_ifs
  · exact hentry.maybeRetry hnow version
  · exact hentry
 | turnedOff now version =>
  have hretried : Kept among now ((entries.map fun entry => GpuDriverRecord.maybeRetry entry now version).map Prod.snd) := by
   rw [map_map]
   exact h.map (maybeRetry_renews now version).key fun entry hentry => hentry.maybeRetry hnow version
  exact hretried.expire now
 | retryAll now =>
  apply h.map (retryAll_renews now).key
  intro entry hentry
  split_ifs
  · exact hentry.onProbation hnow
  · exact hentry

/-! ## Reading back -/

theorem restoreFrom_kept {done rest : List GpuDriverEntry} (h : Kept among now (done ++ rest))
  (hcard : among.card ≤ kMaxEntries) : restoreFrom now (done.map forget) rest = (done ++ rest).map forget := by
 induction rest generalizing done with
 | nil => rw [restoreFrom, append_nil]
 | cons entry rest ih =>
  have hlength := h.length_le.trans hcard
  rw [length_append, length_cons] at hlength
  have hknown : ¬(entry.key.identified = false ∧ entry.key ≠ unidentifiedGpuDriverKey) := fun hother =>
   hother.2 (eq_unidentified hother.1)
  have hfresh : find (done.map forget) entry.key = none := by
   have hnodup := h.nodup
   rw [keys, map_append, map_cons] at hnodup
   rw [find_none, keys_map forget_key]
   intro hmem
   exact (nodup_append.1 hnodup).2.2 _ hmem _ (mem_cons_self ..) rfl
  have hclean := (h.entry entry (mem_append_right done (mem_cons_self ..))).clean
  have hnext := @ih (done ++ [entry]) (by rwa [← append_cons])
  rw [map_append, map_singleton, ← append_cons] at hnext
  rw [restoreFrom, if_neg (by rw [length_map]; omega), if_neg hknown, hfresh, if_neg (by decide), hclean, hnext]

theorem restore_kept (h : Kept among now entries) (hcard : among.card ≤ kMaxEntries) :
  restore entries now = view now entries := by
 have hall := @restoreFrom_kept among now [] entries h hcard
 rw [map_nil, nil_append] at hall
 rw [restore, hall, expire_map (stale_forget now)]
 rfl

end Entries

/-! ## Runs -/

inductive Event where
 | call (call : Call)
 /-- A save and, later, a restart. -/
 | reload (now : ℤ)

def Event.now : Event → ℤ
 | .call c => c.now
 | .reload now => now

def Event.call? : Event → Option Call
 | .call c => some c
 | .reload _ => none

def calls (events : List Event) : List Call := events.filterMap Event.call?

def withoutReloads (events : List Event) : List Event := events.filter fun event => event.call?.isSome

def step (entries : List GpuDriverEntry) : Event → List GpuDriverEntry
 | .call call => (perform entries call).2
 | .reload now => restore entries now

def records (events : List Event) : List GpuDriverEntry := events.foldl step []

def answersFrom (entries : List GpuDriverEntry) : List Event → List Answer
 | [] => []
 | .call call :: events => (perform entries call).1 :: answersFrom (perform entries call).2 events
 | .reload now :: events => answersFrom (restore entries now) events

def answers (events : List Event) : List Answer := answersFrom [] events

structure Timed (events : List Event) : Prop where
 positive : ∀ event ∈ events, 0 < event.now
 ordered : events.Pairwise fun event later => event.now ≤ later.now

def Among (among : Finset GpuDriverKey) (events : List Event) : Prop :=
 ∀ call ∈ calls events, ∀ key ∈ call.key, key ∈ among

section Runs

variable {among : Finset GpuDriverKey} {now : ℤ} {entries other : List GpuDriverEntry} {event : Event}
 {events : List Event}

theorem Timed.tail (h : Timed (event :: events)) : Timed events :=
 ⟨fun later hlater => h.positive later (mem_cons_of_mem event hlater), (pairwise_cons.1 h.ordered).2⟩

theorem Timed.le (h : Timed (event :: events)) : ∀ later ∈ events, event.now ≤ later.now :=
 (pairwise_cons.1 h.ordered).1

theorem Among.head {call : Call} (h : Among among (.call call :: events)) : ∀ key ∈ call.key, key ∈ among :=
 h call (mem_cons_self ..)

theorem Among.tail (h : Among among (event :: events)) : Among among events := by
 intro call hcall
 apply h call
 obtain ⟨found, hfound, hsame⟩ := mem_filterMap.1 hcall
 exact mem_filterMap.2 ⟨found, mem_cons_of_mem event hfound, hsame⟩

theorem Kept.step (h : Kept among now entries) (hcard : among.card ≤ kMaxEntries) (hnow : 0 < event.now)
  (hlater : now ≤ event.now) (hkey : ∀ call ∈ event.call?, ∀ key ∈ call.key, key ∈ among) :
  Kept among event.now (step entries event) := by
 cases event with
 | call call => exact (h.later hlater).perform hcard rfl hnow (hkey call rfl)
 | reload time =>
  have hkept : Kept among time entries := h.later hlater
  rw [GpuDriverRecord.step, restore_kept hkept hcard]
  exact hkept.view time

theorem outcome_kept (h : Kept among now entries) (hcard : among.card ≤ kMaxEntries) {call : Call}
  (hkey : ∀ key ∈ call.key, key ∈ among) : outcome (view call.now entries) call = outcome entries call :=
 outcome_view h.nodup fun key hmem => (h.expire call.now).room hcard (hkey key hmem)

theorem answersFrom_reloads (h : Kept among now entries) (hother : Kept among now other)
  (hsame : view now entries = view now other) (hcard : among.card ≤ kMaxEntries) (htimed : Timed events)
  (hnow : ∀ event ∈ events, now ≤ event.now) (hamong : Among among events) :
  answersFrom entries events = answersFrom other (withoutReloads events) := by
 induction events generalizing now entries other with
 | nil => rfl
 | cons event events ih =>
  have hlater := hnow event (mem_cons_self ..)
  have hpositive := htimed.positive event (mem_cons_self ..)
  have hview := view_later hsame hlater
  cases event with
  | call call =>
   have houtcome : outcome entries call = outcome other call := by
    rw [← outcome_kept h hcard hamong.head, ← outcome_kept hother hcard hamong.head]
    exact congrArg (outcome · call) hview
   obtain ⟨hanswer, hleft⟩ := Prod.mk.inj houtcome
   change (perform entries call).1 :: _ = (perform other call).1 :: _
   rw [hanswer]
   congr 1
   exact ih ((h.later hlater).perform hcard rfl hpositive hamong.head)
    ((hother.later hlater).perform hcard rfl hpositive hamong.head) hleft htimed.tail htimed.le hamong.tail
  | reload time =>
   have hrestored : restore entries time = view time entries := restore_kept (h.later hlater) hcard
   change answersFrom (restore entries time) events = answersFrom other (withoutReloads events)
   rw [hrestored]
   refine ih ((h.later hlater).view time) (hother.later hlater) ?_ htimed.tail htimed.le hamong.tail
   exact (view_of_later (le_refl time) entries).trans hview

theorem kept_nil (among : Finset GpuDriverKey) (now : ℤ) : Kept among now [] :=
 ⟨nodup_nil, fun _ h => absurd h not_mem_nil, fun _ h => absurd h not_mem_nil⟩

end Runs

end MoltBrowser.GpuDriverRecord
