import MoltBrowser.GpuDriverRecord

set_option autoImplicit false

/-!
# What the calls can tell of the GPU failure records

The entries not yet forgotten, less what only a turned-off driver is asked for. A call's answer and
what it leaves depend on no more.
-/
namespace MoltBrowser.GpuDriverRecord
open List

def forget (entry : GpuDriverEntry) : GpuDriverEntry :=
 if entry.turnedOff then entry else { entry with turnedOffMs := 0, turnedOffVersion := [] }

def view (now : ℤ) (entries : List GpuDriverEntry) : List GpuDriverEntry := (expire entries now).map forget

def keys (entries : List GpuDriverEntry) : List GpuDriverKey := entries.map GpuDriverEntry.key

/-! ## One entry -/

theorem forget_off {entry : GpuDriverEntry} (h : entry.turnedOff = true) : forget entry = entry := if_pos h

theorem forget_on {entry : GpuDriverEntry} (h : entry.turnedOff = false) :
  forget entry = { entry with turnedOffMs := 0, turnedOffVersion := [] } := if_neg (by rw [h]; exact Bool.false_ne_true)

theorem forget_congr {entry other : GpuDriverEntry} (hentry : entry.turnedOff = false) (hother : other.turnedOff = false)
  (h : { entry with turnedOffMs := 0, turnedOffVersion := [] } =
   { other with turnedOffMs := 0, turnedOffVersion := [] }) : forget entry = forget other := by
 rw [forget_on hentry, forget_on hother, h]

@[simp] theorem forget_key (entry : GpuDriverEntry) : (forget entry).key = entry.key := by
 rw [forget]
 split_ifs <;> rfl

@[simp] theorem forget_turnedOff (entry : GpuDriverEntry) : (forget entry).turnedOff = entry.turnedOff := by
 rw [forget]
 split_ifs <;> rfl

@[simp] theorem forget_lastEventMs (entry : GpuDriverEntry) : (forget entry).lastEventMs = entry.lastEventMs := by
 rw [forget]
 split_ifs <;> rfl

@[simp] theorem forget_forget (entry : GpuDriverEntry) : forget (forget entry) = forget entry := by
 cases h : entry.turnedOff with
 | true => rw [forget_off h, forget_off h]
 | false =>
  rw [forget_on h]
  exact forget_on h

theorem age_mono {time now later : ℤ} (h : now ≤ later) : age time now ≤ age time later := by
 rw [age, age]
 split_ifs <;> omega

theorem age_self (now : ℤ) : age now now = 0 := if_neg (lt_irrefl now)

theorem age_of_le {time now : ℤ} (h : time ≤ now) : age time now = now - time := by
 rw [age]
 split_ifs <;> omega

theorem stale_mono {now later : ℤ} (h : now ≤ later) {entry : GpuDriverEntry} (hstale : stale now entry = true) :
  stale later entry = true := by
 rw [stale, Bool.and_eq_true, decide_eq_true_eq] at hstale ⊢
 exact ⟨hstale.1, hstale.2.trans (age_mono h)⟩

@[simp] theorem stale_forget (now : ℤ) (entry : GpuDriverEntry) : stale now (forget entry) = stale now entry := by
 rw [stale, stale, forget_turnedOff, forget_lastEventMs]

theorem not_stale_off {now : ℤ} {entry : GpuDriverEntry} (h : entry.turnedOff = true) : stale now entry = false := by
 rw [stale, h]
 rfl

theorem not_stale_now {now : ℤ} {entry : GpuDriverEntry} (h : entry.lastEventMs = now) : stale now entry = false := by
 have hmemory : ¬kFailureMemoryMs ≤ 0 := by decide
 rw [stale, h, age_self, decide_eq_false hmemory, Bool.and_false]

theorem maybeRetry_on {entry : GpuDriverEntry} (h : entry.turnedOff = false) (now : ℤ) (version : Bytes) :
  maybeRetry entry now version = (false, entry) := if_pos h

/-- What a call makes of one entry, as far as the calls can tell. -/
structure Renews (now : ℤ) (change : GpuDriverEntry → GpuDriverEntry) : Prop where
 key : ∀ entry, (change entry).key = entry.key
 stale : ∀ entry, stale now (change entry) = stale now entry
 forget : ∀ entry, forget (change (forget entry)) = forget (change entry)

/-- A change to turned-off entries only, which keeps their events or renews them now. -/
theorem renews_of_off {now : ℤ} {change : GpuDriverEntry → GpuDriverEntry}
  (hon : ∀ entry, entry.turnedOff = false → change entry = entry)
  (hoff : ∀ entry, entry.turnedOff = true → change entry = entry ∨ change entry = onProbation entry now) :
  Renews now change where
 key entry := by
  cases h : entry.turnedOff with
  | false => rw [hon entry h]
  | true => rcases hoff entry h with heq | heq <;> rw [heq]; rfl
 stale entry := by
  cases h : entry.turnedOff with
  | false => rw [hon entry h]
  | true =>
   rw [not_stale_off h]
   rcases hoff entry h with heq | heq
   · rw [heq, not_stale_off h]
   · rw [heq]
     exact not_stale_now rfl
 forget entry := by
  cases h : entry.turnedOff with
  | false => rw [hon entry h, hon _ ((forget_turnedOff entry).trans h), forget_forget]
  | true => rw [forget_off h]

theorem maybeRetry_cases (entry : GpuDriverEntry) (now : ℤ) (version : Bytes) :
  (maybeRetry entry now version).2 = entry ∨ (maybeRetry entry now version).2 = onProbation entry now := by
 rw [maybeRetry]
 split_ifs
 · exact Or.inl rfl
 · exact Or.inl rfl
 · exact Or.inr rfl

theorem maybeRetry_renews (now : ℤ) (version : Bytes) : Renews now fun entry => (maybeRetry entry now version).2 :=
 renews_of_off (fun _ h => congrArg Prod.snd (maybeRetry_on h now version))
  fun entry _ => maybeRetry_cases entry now version

theorem retryAll_renews (now : ℤ) :
  Renews now fun entry => if entry.turnedOff then onProbation entry now else entry :=
 renews_of_off (fun _ h => if_neg (by rw [h]; exact Bool.false_ne_true)) fun _ h => Or.inr (if_pos h)

theorem Renews.at_key {now : ℤ} {change : GpuDriverEntry → GpuDriverEntry} (h : Renews now change)
  (key : GpuDriverKey) : Renews now fun entry => if entry.key = key then change entry else entry where
 key entry := by
  split_ifs
  · exact h.key entry
  · rfl
 stale entry := by
  split_ifs
  · exact h.stale entry
  · rfl
 forget entry := by
  rw [forget_key]
  split_ifs
  · exact h.forget entry
  · exact forget_forget entry

/-! ## All entries -/

section Entries

variable {entries : List GpuDriverEntry} {now : ℤ}

variable {later : ℤ}

theorem expire_expire (h : now ≤ later) (entries : List GpuDriverEntry) :
  expire (expire entries now) later = expire entries later := by
 rw [expire, expire, filter_filter]
 apply filter_congr
 intro entry _
 cases hstale : stale now entry with
 | false => simp
 | true => simp [stale_mono h hstale]

variable {change : GpuDriverEntry → GpuDriverEntry}

theorem expire_map (h : ∀ entry, stale now (change entry) = stale now entry)
  (entries : List GpuDriverEntry) : expire (entries.map change) now = (expire entries now).map change := by
 rw [expire, expire, filter_map]
 congr 1
 apply filter_congr
 intro entry _
 rw [Function.comp_apply, h]

theorem view_of_later (h : now ≤ later) (entries : List GpuDriverEntry) :
  view later (view now entries) = view later entries := by
 rw [view, view, expire_map (stale_forget later), expire_expire h, map_map, view]
 apply map_congr_left
 intro entry _
 exact forget_forget entry

theorem view_later {other : List GpuDriverEntry} (h : view now entries = view now other)
  (hlater : now ≤ later) : view later entries = view later other := by
 rw [← view_of_later hlater entries, h, view_of_later hlater]

theorem view_of_forget {other : List GpuDriverEntry} (h : entries.map forget = other.map forget) (now : ℤ) :
  view now entries = view now other := by
 rw [view, view, ← expire_map (stale_forget now), h, expire_map (stale_forget now)]

theorem view_map (h : Renews now change) (entries : List GpuDriverEntry) :
  view now (entries.map change) = view now ((view now entries).map change) := by
 have hforget : ((expire entries now).map change).map forget = ((view now entries).map change).map forget := by
  rw [view, map_map, map_map, map_map]
  apply map_congr_left
  intro entry _
  exact (h.forget entry).symm
 have hexpire : expire (entries.map change) now = (expire entries now).map change := expire_map h.stale entries
 have hview : view now (entries.map change) = view now (expire (entries.map change) now) := by
  rw [view, view, expire_expire (le_refl now)]
 rw [hview, hexpire]
 exact view_of_forget hforget now

theorem filter_off_forget (entries : List GpuDriverEntry) :
  (entries.map forget).filter GpuDriverEntry.turnedOff = entries.filter GpuDriverEntry.turnedOff := by
 induction entries with
 | nil => rfl
 | cons entry entries ih =>
  rw [map_cons, filter_cons, filter_cons, forget_turnedOff, ih]
  split_ifs with hoff
  · rw [forget_off hoff]
  · rfl

theorem filter_off_expire (entries : List GpuDriverEntry) (now : ℤ) :
  (expire entries now).filter GpuDriverEntry.turnedOff = entries.filter GpuDriverEntry.turnedOff := by
 rw [expire, filter_filter]
 apply filter_congr
 intro entry _
 cases h : entry.turnedOff with
 | false => rfl
 | true => rw [not_stale_off h]; rfl

theorem filter_off_view (entries : List GpuDriverEntry) (now : ℤ) :
  (view now entries).filter GpuDriverEntry.turnedOff = entries.filter GpuDriverEntry.turnedOff := by
 rw [view, filter_off_forget, filter_off_expire]

theorem keys_map (h : ∀ entry, (change entry).key = entry.key)
  (entries : List GpuDriverEntry) : keys (entries.map change) = keys entries := by
 rw [keys, map_map]
 exact map_congr_left fun entry _ => h entry

theorem keys_expire (entries : List GpuDriverEntry) (now : ℤ) : (keys (expire entries now)).Sublist (keys entries) :=
 filter_sublist.map GpuDriverEntry.key

theorem keys_view (entries : List GpuDriverEntry) (now : ℤ) : keys (view now entries) = keys (expire entries now) :=
 keys_map forget_key _

theorem find_map_forget (entries : List GpuDriverEntry) (key : GpuDriverKey) :
  find (entries.map forget) key = (find entries key).map forget := by
 rw [find, find, find?_map]
 congr 2
 funext entry
 rw [Function.comp_apply, forget_key]

variable {key : GpuDriverKey}

theorem find_key {entry : GpuDriverEntry} (h : find entries key = some entry) : entry.key = key := by
 have hkey := find?_some h
 exact of_decide_eq_true hkey

theorem find_none : find entries key = none ↔ key ∉ keys entries := by
 rw [find, find?_eq_none, keys, mem_map]
 constructor
 · rintro h ⟨entry, hentry, hkey⟩
   exact h entry hentry (decide_eq_true hkey)
 · intro h entry hentry hkey
   exact h ⟨entry, hentry, of_decide_eq_true hkey⟩

theorem find_of_mem (h : (keys entries).Nodup) {entry : GpuDriverEntry} (hmem : entry ∈ entries) :
  find entries entry.key = some entry := by
 induction entries with
 | nil => exact absurd hmem not_mem_nil
 | cons first entries ih =>
  rw [keys, map_cons, nodup_cons] at h
  rw [find, find?_cons]
  rcases mem_cons.1 hmem with rfl | hmem
  · simp
  · have hne : first.key ≠ entry.key := fun heq => h.1 (heq ▸ mem_map_of_mem hmem)
    rw [decide_eq_false hne]
    exact ih h.2 hmem

theorem replace_forget (key : GpuDriverKey) (new : GpuDriverEntry) (entries : List GpuDriverEntry) :
  (replace key new entries).map forget = replace key (forget new) (entries.map forget) := by
 induction entries with
 | nil => rfl
 | cons entry entries ih =>
  rw [map_cons, replace, replace, forget_key]
  split_ifs
  · rfl
  · rw [map_cons, ih]

theorem replace_eq_map (h : (keys entries).Nodup) {entry : GpuDriverEntry}
  (hfind : find entries key = some entry) (change : GpuDriverEntry → GpuDriverEntry) :
  replace key (change entry) entries = entries.map fun entry => if entry.key = key then change entry else entry := by
 induction entries with
 | nil => rfl
 | cons first entries ih =>
  rw [keys, map_cons, nodup_cons] at h
  rw [find, find?_cons] at hfind
  rw [replace, map_cons]
  by_cases hkey : first.key = key
  · rw [decide_eq_true hkey] at hfind
    have hsame : ∀ other ∈ entries, (if other.key = key then change other else other) = other := by
     intro other hother
     apply if_neg
     intro heq
     apply h.1
     rw [hkey, ← heq]
     exact mem_map_of_mem hother
    rw [if_pos hkey, if_pos hkey, Option.some.inj hfind, map_congr_left hsame, map_id']
  · rw [decide_eq_false hkey] at hfind
    rw [if_neg hkey, if_neg hkey, ih h.2 hfind]

theorem map_at_absent (h : find entries key = none) (change : GpuDriverEntry → GpuDriverEntry) :
  (entries.map fun entry => if entry.key = key then change entry else entry) = entries := by
 have hsame : ∀ entry ∈ entries, (if entry.key = key then change entry else entry) = entry := by
  intro entry hentry
  apply if_neg
  rintro rfl
  exact find_none.1 h (mem_map_of_mem hentry)
 rw [map_congr_left hsame, map_id']

end Entries

/-! ## Calls -/

inductive Call where
 | recordFailure (key : GpuDriverKey) (name : Bytes) (now : ℤ) (browserVersion : Bytes)
 | allowGpu (key : GpuDriverKey) (now : ℤ) (browserVersion : Bytes)
 | turnedOff (now : ℤ) (browserVersion : Bytes)
 | retryAll (now : ℤ)

def Call.now : Call → ℤ
 | .recordFailure _ _ now _ => now
 | .allowGpu _ now _ => now
 | .turnedOff now _ => now
 | .retryAll now => now

def Call.key : Call → Option GpuDriverKey
 | .recordFailure key _ _ _ => some key
 | .allowGpu key _ _ => some key
 | .turnedOff _ _ => none
 | .retryAll _ => none

inductive Answer where
 | failed (off : Bool)
 | allowed (allow : Bool)
 | off (entries : List GpuDriverEntry)
 | retried (any : Bool)

def perform (entries : List GpuDriverEntry) : Call → Answer × List GpuDriverEntry
 | .recordFailure key name now browserVersion =>
  let (off, entries) := recordFailure entries key name now browserVersion
  (.failed off, entries)
 | .allowGpu key now browserVersion =>
  let (allow, _, entries) := allowGpu entries key now browserVersion
  (.allowed allow, entries)
 | .turnedOff now browserVersion =>
  let (off, _, entries) := turnedOff entries now browserVersion
  (.off off, entries)
 | .retryAll now =>
  let (any, entries) := retryAll entries now
  (.retried any, entries)

def outcome (entries : List GpuDriverEntry) (call : Call) : Answer × List GpuDriverEntry :=
 ((perform entries call).1, view call.now (perform entries call).2)

section Calls

variable {entries : List GpuDriverEntry}

theorem allowGpu_entries (h : (keys entries).Nodup) (key : GpuDriverKey) (now : ℤ) (version : Bytes) :
  (allowGpu entries key now version).2.2 =
   entries.map fun entry => if entry.key = key then (maybeRetry entry now version).2 else entry := by
 rw [allowGpu]
 cases hfind : find entries key with
 | none => exact (map_at_absent hfind _).symm
 | some entry => exact replace_eq_map h hfind fun entry => (maybeRetry entry now version).2

/-- Only a turned-off entry that isn't due for a retry keeps the GPU from being used. -/
theorem allowGpu_false (h : (keys entries).Nodup) {key : GpuDriverKey} {now : ℤ} {version : Bytes} :
  (allowGpu entries key now version).1 = false ↔
   ∃ entry ∈ entries.filter GpuDriverEntry.turnedOff, entry.key = key ∧ retryDue entry now version = false := by
 have hoff : ∀ entry : GpuDriverEntry, (maybeRetry entry now version).2.turnedOff = true ↔
   entry.turnedOff = true ∧ retryDue entry now version = false := by
  intro entry
  rw [maybeRetry]
  split_ifs with hon hdue
  · simp [hon]
  · simp [hon, hdue]
  · simp [onProbation, hdue]
 rw [allowGpu]
 constructor
 · intro hfalse
   cases hfind : find entries key with
   | none =>
    rw [hfind] at hfalse
    exact Bool.noConfusion hfalse
   | some entry =>
    rw [hfind] at hfalse
    obtain ⟨hturned, hdue⟩ := (hoff entry).1 (Bool.not_eq_false' _ ▸ hfalse)
    exact ⟨entry, mem_filter.2 ⟨mem_of_find?_eq_some hfind, hturned⟩, find_key hfind, hdue⟩
 · rintro ⟨entry, hentry, rfl, hdue⟩
   obtain ⟨hmem, hturned⟩ := mem_filter.1 hentry
   rw [find_of_mem h hmem]
   exact Bool.not_eq_false' _ ▸ (hoff entry).2 ⟨hturned, hdue⟩

theorem failEntry_forget (entry : GpuDriverEntry) (name : Bytes) (now : ℤ) (version : Bytes) :
  (failEntry (forget entry) name now version).1 = (failEntry entry name now version).1 ∧
   forget (failEntry (forget entry) name now version).2 = forget (failEntry entry name now version).2 := by
 cases h : entry.turnedOff with
 | true =>
  rw [forget_off h]
  exact ⟨rfl, rfl⟩
 | false =>
  have hon : (forget entry).turnedOff = false := (forget_turnedOff entry).trans h
  by_cases hshort : entry.probation = false ∧ (newFailures entry now).length < kFailuresToTurnOff
  · rw [failEntry_short h hshort, failEntry_short hon (by rw [forget_on h]; exact hshort)]
    refine ⟨rfl, forget_congr hon h ?_⟩
    rw [forget_on h]
    rfl
  · rw [failEntry_turns h hshort, failEntry_turns hon (by rw [forget_on h]; exact hshort)]
    refine ⟨rfl, congrArg forget ?_⟩
    rw [forget_on h]
    rfl

def Room (entries : List GpuDriverEntry) (key : GpuDriverKey) : Prop :=
 find entries key = none → entries.length < kMaxEntries

theorem recordKept_forget {key : GpuDriverKey} (h : Room entries key) (name : Bytes) (now : ℤ) (version : Bytes) :
  (recordKept (entries.map forget) key name now version).1 = (recordKept entries key name now version).1 ∧
   (recordKept (entries.map forget) key name now version).2.map forget =
    (recordKept entries key name now version).2.map forget := by
 rw [recordKept, recordKept, find_map_forget]
 cases hfind : find entries key with
 | none =>
  have hroom := h hfind
  have hmade : makeRoom entries = entries := if_pos hroom
  have hmade' : makeRoom (entries.map forget) = entries.map forget := if_pos (by rwa [length_map])
  simp only [Option.map_none, hmade, hmade', map_append, map_map, true_and]
  congr 1
  exact map_congr_left fun entry _ => forget_forget entry
 | some entry =>
  obtain ⟨hanswer, hentry⟩ := failEntry_forget entry name now version
  simp only [Option.map_some, hanswer, replace_forget, hentry, map_map, true_and]
  congr 1
  exact map_congr_left fun entry _ => forget_forget entry

theorem outcome_view (h : (keys entries).Nodup) {call : Call}
  (hroom : ∀ key ∈ call.key, Room (expire entries call.now) key) :
  outcome (view call.now entries) call = outcome entries call := by
 have hview : ∀ now, (keys (view now entries)).Nodup := fun now => by
  rw [keys_view]
  exact h.sublist (keys_expire entries now)
 cases call with
 | recordFailure key name now version =>
  have hexpired : expire (view now entries) now = (expire entries now).map forget := by
   rw [view, expire_map (stale_forget now), expire_expire (le_refl now)]
  obtain ⟨hanswer, hleft⟩ := recordKept_forget (hroom key rfl) name now version
  simp only [outcome, perform, recordFailure, Call.now]
  rw [hexpired]
  exact Prod.ext (congrArg Answer.failed hanswer) (view_of_forget hleft now)
 | allowGpu key now version =>
  have hanswer : (allowGpu (view now entries) key now version).1 = (allowGpu entries key now version).1 := by
   rw [Bool.eq_iff_iff, ← not_iff_not, Bool.not_eq_true, Bool.not_eq_true, allowGpu_false (hview now), allowGpu_false h,
    filter_off_view]
  have hleft := view_map ((maybeRetry_renews now version).at_key key) entries
  simp only [outcome, perform, Call.now]
  rw [hanswer, allowGpu_entries (hview now), allowGpu_entries h]
  exact Prod.ext rfl hleft.symm
 | turnedOff now version =>
  have hrenews := maybeRetry_renews now version
  have hleft := view_map hrenews entries
  have hentries : ∀ entries : List GpuDriverEntry, (turnedOff entries now version).2.2 =
    expire (entries.map fun entry => (maybeRetry entry now version).2) now := fun entries => by
   rw [turnedOff]
   simp only [map_map]
   rfl
  have hoff : ∀ entries : List GpuDriverEntry, (turnedOff entries now version).1 =
    (view now (entries.map fun entry => (maybeRetry entry now version).2)).filter GpuDriverEntry.turnedOff :=
   fun entries => by
    rw [filter_off_view, ← filter_off_expire _ now, ← hentries]
    rfl
  have hexpire : ∀ entries : List GpuDriverEntry, view now (expire entries now) = view now entries := fun entries => by
   rw [view, view, expire_expire (le_refl now)]
  simp only [outcome, perform, Call.now]
  rw [hoff, hoff, hentries, hentries, hexpire, hexpire, hleft]
 | retryAll now =>
  have hleft := view_map (retryAll_renews now) entries
  have hany : ∀ entries : List GpuDriverEntry, (retryAll entries now).1 =
    !(entries.filter GpuDriverEntry.turnedOff).isEmpty := fun entries => by
   rw [retryAll, Bool.eq_iff_iff]
   simp
  simp only [outcome, perform, Call.now]
  rw [hany, hany, filter_off_view]
  exact Prod.ext rfl hleft.symm

end Calls

end MoltBrowser.GpuDriverRecord
