import MoltBrowser.TransitionRuns

set_option autoImplicit false

/-!
# The guard against crash loops

A model file that crashes the process while it loads, or again and again, is refused for some time. Of each file only the latest crashes are
kept.
-/
namespace MoltBrowser.CrashLoops
open TransitionRuns List

def hourMs : ℤ := 60 * 60 * 1000
def loadCrashWindowMs : ℤ := hourMs
def loadCrashesToRefuse : ℕ := 2
def crashWindowMs : ℤ := 10 * 60 * 1000
def crashesToRefuse : ℕ := 3
def backoffMs : List ℤ := [1000, 5000, 30000]
def maxGuardEntries : ℕ := 32
def maxCrashes : ℕ := 8

inductive Phase where
 | loading
 | generating
 | idle

inductive Verdict where
 | allowed
 | backingOff
 | refusedAfterLoadCrashes
 | refusedAfterCrashes
 deriving DecidableEq

structure History where
 loadCrashes : List ℤ := []
 otherCrashes : List ℤ := []

namespace History

def last (nowMs : ℤ) (crashes : List ℤ) : ℤ :=
 crashes.foldl (fun last t => if nowMs - t < crashWindowMs then max last t else last) 0

def loadRecent (h : History) (nowMs : ℤ) : ℕ := h.loadCrashes.countP fun t => nowMs - t < loadCrashWindowMs

def recent (h : History) (nowMs : ℤ) : ℕ := h.otherCrashes.countP fun t => nowMs - t < crashWindowMs

def check (h : History) (nowMs : ℤ) : Verdict :=
 if loadCrashesToRefuse ≤ h.loadRecent nowMs then .refusedAfterLoadCrashes
 else if crashesToRefuse ≤ h.recent nowMs then .refusedAfterCrashes
 else if 0 < h.recent nowMs ∧ nowMs - last nowMs h.otherCrashes < backoffMs.getD (min (h.recent nowMs) backoffMs.length - 1) 0 then .backingOff
 else .allowed

end History

def capped (crashes : List ℤ) : List ℤ := crashes.drop (crashes.length - maxCrashes)

variable {Key : Type} [DecidableEq Key]

structure CrashLoopGuard (Key : Type) where
 entries : List (Key × History) := []

def find (key : Key) : List (Key × History) → Option History
 | [] => none
 | e :: entries => if e.1 = key then some e.2 else find key entries

def update (key : Key) (f : History → History) : List (Key × History) → List (Key × History)
 | [] => []
 | e :: entries => if e.1 = key then (e.1, f e.2) :: entries else e :: update key f entries

namespace CrashLoopGuard

variable (g : CrashLoopGuard Key)

def findOrAdd (key : Key) : CrashLoopGuard Key :=
 if (find key g.entries).isSome then g
 else { entries := (if maxGuardEntries ≤ g.entries.length then g.entries.drop 1 else g.entries) ++ [(key, {})] }

def recordCrash (key : Key) (phase : Phase) (nowMs : ℤ) : CrashLoopGuard Key :=
 match phase with
 | .idle => g
 | .loading => { entries := update key (fun h => { h with loadCrashes := capped (h.loadCrashes ++ [nowMs]) }) (g.findOrAdd key).entries }
 | .generating => { entries := update key (fun h => { h with otherCrashes := capped (h.otherCrashes ++ [nowMs]) }) (g.findOrAdd key).entries }

def check (key : Key) (nowMs : ℤ) : Verdict :=
 match find key g.entries with
 | none => .allowed
 | some h => h.check nowMs

def forget (key : Key) : CrashLoopGuard Key := { entries := g.entries.filter (·.1 ≠ key) }

end CrashLoopGuard

inductive Call (Key : Type) where
 | recordCrash (key : Key) (phase : Phase) (nowMs : ℤ)
 | check (key : Key) (nowMs : ℤ)
 | forget (key : Key)

namespace Call

def time : Call Key → Option ℤ
 | .recordCrash _ _ nowMs => some nowMs
 | .check _ nowMs => some nowMs
 | .forget _ => none

/-- The file that crashed; an idle process may also have been stopped to free memory. -/
def crashed : Call Key → Option Key
 | .recordCrash _ .idle _ => none
 | .recordCrash key _ _ => some key
 | _ => none

def apply (g : CrashLoopGuard Key) : Call Key → CrashLoopGuard Key
 | .recordCrash key phase nowMs => g.recordCrash key phase nowMs
 | .check _ _ => g
 | .forget key => g.forget key

/-- What the call adds to what there is to remember of a file. -/
def remember (key : Key) (h : History) : Call Key → History
 | .recordCrash k .loading nowMs => if k = key then { h with loadCrashes := h.loadCrashes ++ [nowMs] } else h
 | .recordCrash k .generating nowMs => if k = key then { h with otherCrashes := h.otherCrashes ++ [nowMs] } else h
 | .recordCrash _ .idle _ => h
 | .check _ _ => h
 | .forget k => if k = key then {} else h

end Call

def guardAfter (calls : List (Call Key)) : CrashLoopGuard Key := run Call.apply {} calls

def remembered (key : Key) (calls : List (Call Key)) : History := run (Call.remember key) {} calls

/-! ## The latest crashes are enough -/

section Latest

variable {crashes : List ℤ} {p : ℤ → Bool}

theorem capped_append (crashes : List ℤ) (t : ℤ) : capped (capped crashes ++ [t]) = capped (crashes ++ [t]) := by
 simp only [capped, length_append, length_drop, length_singleton, maxCrashes]
 by_cases hfew : crashes.length ≤ 8
 · rw [Nat.sub_eq_zero_of_le hfew, drop_zero, Nat.sub_zero]
 · rw [drop_append_of_le_length (by rw [length_drop]; omega), drop_append_of_le_length (by omega), drop_drop]
   congr 2
   omega

theorem uncounted_or_all (hordered : crashes.Pairwise (· ≤ ·)) (hp : ∀ t t', t ≤ t' → p t = true → p t' = true) :
  (∀ t ∈ crashes.take (crashes.length - maxCrashes), p t = false) ∨ ((capped crashes).countP p = maxCrashes) := by
 rw [or_iff_not_imp_left]
 intro hsome
 push Not at hsome
 obtain ⟨t, ht, hpt⟩ := hsome
 rw [Bool.ne_false_iff] at hpt
 have hlength : maxCrashes < crashes.length := by
  by_contra hfew
  rw [Nat.sub_eq_zero_of_le (by omega), take_zero] at ht
  exact absurd ht not_mem_nil
 have hall : ∀ t' ∈ capped crashes, p t' = true := fun t' ht' => by
  rw [← take_append_drop (crashes.length - maxCrashes) crashes, pairwise_append] at hordered
  exact hp t t' (hordered.2.2 t ht t' ht') hpt
 rw [countP_eq_length.mpr hall, capped, length_drop]
 omega

theorem countP_capped_of_uncounted (h : ∀ t ∈ crashes.take (crashes.length - maxCrashes), p t = false) :
  (capped crashes).countP p = crashes.countP p := by
 have hnone : (crashes.take (crashes.length - maxCrashes)).countP p = 0 :=
  countP_eq_zero.mpr fun t ht => by simp [h t ht]
 calc (capped crashes).countP p = (crashes.take (crashes.length - maxCrashes)).countP p + (capped crashes).countP p := by
       rw [hnone, Nat.zero_add]
  _ = crashes.countP p := by rw [capped, ← countP_append, take_append_drop]

theorem countP_capped_le (p : ℤ → Bool) (crashes : List ℤ) : (capped crashes).countP p ≤ crashes.countP p :=
 (drop_sublist _ _).countP_le

theorem le_countP_capped_iff (hordered : crashes.Pairwise (· ≤ ·)) (hp : ∀ t t', t ≤ t' → p t = true → p t' = true) {n : ℕ}
  (hn : n ≤ maxCrashes) : n ≤ (capped crashes).countP p ↔ n ≤ crashes.countP p := by
 have hle := countP_capped_le p crashes
 rcases uncounted_or_all hordered hp with hnone | hall
 · rw [countP_capped_of_uncounted hnone]
 · omega

theorem last_capped (nowMs : ℤ) (h : ∀ t ∈ crashes.take (crashes.length - maxCrashes), ¬ nowMs - t < crashWindowMs) :
  History.last nowMs (capped crashes) = History.last nowMs crashes := by
 have hskip : ∀ (old : List ℤ) (last : ℤ), (∀ t ∈ old, ¬ nowMs - t < crashWindowMs) →
   old.foldl (fun last t => if nowMs - t < crashWindowMs then max last t else last) last = last := by
  intro old
  induction old with
  | nil => exact fun _ _ => rfl
  | cons t old ih =>
   intro last hold
   rw [foldl_cons, if_neg (hold t mem_cons_self)]
   exact ih last fun t' ht' => hold t' (mem_cons_of_mem _ ht')
 rw [History.last, History.last]
 nth_rewrite 2 [← take_append_drop (crashes.length - maxCrashes) crashes]
 rw [foldl_append, hskip _ 0 h]
 rfl

def History.latest (h : History) : History := { loadCrashes := capped h.loadCrashes, otherCrashes := capped h.otherCrashes }

theorem window_mono (nowMs window : ℤ) (t t' : ℤ) (hle : t ≤ t') (ht : decide (nowMs - t < window) = true) :
  decide (nowMs - t' < window) = true := by
 rw [decide_eq_true_eq] at ht ⊢
 omega

theorem check_latest {h : History} (hload : h.loadCrashes.Pairwise (· ≤ ·)) (hother : h.otherCrashes.Pairwise (· ≤ ·)) (nowMs : ℤ) :
  h.latest.check nowMs = h.check nowMs := by
 have hloads : loadCrashesToRefuse ≤ h.latest.loadRecent nowMs ↔ loadCrashesToRefuse ≤ h.loadRecent nowMs :=
  le_countP_capped_iff hload (window_mono nowMs loadCrashWindowMs) (by decide)
 have hothers : crashesToRefuse ≤ h.latest.recent nowMs ↔ crashesToRefuse ≤ h.recent nowMs :=
  le_countP_capped_iff hother (window_mono nowMs crashWindowMs) (by decide)
 rw [History.check, History.check]
 simp only [hloads, hothers]
 by_cases hmany : crashesToRefuse ≤ h.recent nowMs
 · simp only [hmany, if_true]
 -- Too few to refuse: those dropped are out of the window.
 have hnone : ∀ t ∈ h.otherCrashes.take (h.otherCrashes.length - maxCrashes), decide (nowMs - t < crashWindowMs) = false := by
  rcases uncounted_or_all hother (window_mono nowMs crashWindowMs) with hnone | hall
  · exact hnone
  · have hle : maxCrashes ≤ h.recent nowMs := hall.ge.trans (countP_capped_le _ _)
    exact absurd ((by decide : crashesToRefuse ≤ maxCrashes).trans hle) hmany
 have hsame : h.latest.recent nowMs = h.recent nowMs := countP_capped_of_uncounted hnone
 have hlast : History.last nowMs h.latest.otherCrashes = History.last nowMs h.otherCrashes :=
  last_capped nowMs fun t ht => of_decide_eq_false (hnone t ht)
 rw [hsame, hlast]

end Latest

/-! ## The guard remembers the latest crashes -/

section Entries

variable {key : Key} {entries : List (Key × History)}

theorem find_isSome : (find key entries).isSome = true ↔ key ∈ entries.map Prod.fst := by
 induction entries with
 | nil => simp [find]
 | cons e entries ih =>
  rw [find, map_cons, mem_cons]
  split_ifs with hkey
  · simp [hkey]
  · simp [ih, Ne.symm hkey]

theorem find_update (key k : Key) (f : History → History) (entries : List (Key × History)) :
  find k (update key f entries) = if k = key then (find key entries).map f else find k entries := by
 induction entries with
 | nil => simp [update, find]
 | cons e entries ih =>
  rw [update]
  split_ifs with hkey hk hk
  · simp [find, hkey, hk]
  · have hne : key ≠ k := Ne.symm hk
    simp [find, hkey, hne]
  · rw [find, find, ih, if_pos hk, if_neg hkey, if_neg (hk ▸ hkey)]
  · rw [find, find, ih, if_neg hk]

theorem keys_update (key : Key) (f : History → History) (entries : List (Key × History)) :
  (update key f entries).map Prod.fst = entries.map Prod.fst := by
 induction entries with
 | nil => rfl
 | cons e entries ih =>
  rw [update]
  split_ifs
  · rfl
  · rw [map_cons, map_cons, ih]

theorem find_append (key k : Key) (h : History) (entries : List (Key × History)) :
  find k (entries ++ [(key, h)]) = (find k entries).or (if key = k then some h else none) := by
 induction entries with
 | nil => simp [find]
 | cons e entries ih =>
  rw [cons_append, find, find, ih]
  split_ifs <;> simp

theorem find_forget (key k : Key) (entries : List (Key × History)) :
  find k (entries.filter (·.1 ≠ key)) = if k = key then none else find k entries := by
 induction entries with
 | nil => simp [find]
 | cons e entries ih =>
  by_cases hkey : e.1 = key
  · rw [filter_cons_of_neg (by simpa using hkey), ih, find]
    split_ifs with hk hek
    · rfl
    · exact absurd (hek.symm.trans hkey) hk
    · rfl
  · rw [filter_cons_of_pos (by simpa using hkey), find, find, ih]
    split_ifs with hek hk hk
    · exact absurd (hek.trans hk) hkey
    · rfl
    · rfl
    · rfl

end Entries

/-- One entry a file, of files that crashed, with the latest of what there is to remember. -/
structure Remembers (g : CrashLoopGuard Key) (calls : List (Call Key)) : Prop where
 nodup : (g.entries.map Prod.fst).Nodup
 crashed : ∀ key ∈ g.entries.map Prod.fst, key ∈ calls.filterMap Call.crashed
 kept : ∀ key, (find key g.entries).getD {} = (remembered key calls).latest

section Steps

variable {g : CrashLoopGuard Key} {calls : List (Call Key)} {key : Key}

theorem Remembers.findOrAdd (h : Remembers g calls) (hroom : (key :: calls.filterMap Call.crashed).toFinset.card ≤ maxGuardEntries) :
  ((g.findOrAdd key).entries.map Prod.fst).Nodup ∧
   (∀ k ∈ (g.findOrAdd key).entries.map Prod.fst, k = key ∨ k ∈ calls.filterMap Call.crashed) ∧
   (find key (g.findOrAdd key).entries).isSome = true ∧
   ∀ k, (find k (g.findOrAdd key).entries).getD {} = (find k g.entries).getD {} := by
 rw [CrashLoopGuard.findOrAdd]
 split_ifs with hheld hfull
 · exact ⟨h.nodup, fun k hk => .inr (h.crashed k hk), hheld, fun _ => rfl⟩
 · have hnew : key ∉ g.entries.map Prod.fst := fun hkey => hheld (find_isSome.mpr hkey)
   have hsubset : (key :: g.entries.map Prod.fst).toFinset ⊆ (key :: calls.filterMap Call.crashed).toFinset := fun k hk => by
    rw [mem_toFinset] at hk ⊢
    rcases mem_cons.mp hk with rfl | hk
    · exact mem_cons_self
    · exact mem_cons_of_mem _ (h.crashed k hk)
   have hcard := Finset.card_le_card hsubset
   rw [toFinset_card_of_nodup (nodup_cons.mpr ⟨hnew, h.nodup⟩), length_cons, length_map] at hcard
   omega
 · have hnew : key ∉ g.entries.map Prod.fst := fun hkey => hheld (find_isSome.mpr hkey)
   have hnone : find key g.entries = none := Option.not_isSome_iff_eq_none.mp hheld
   refine ⟨?_, fun k hk => ?_, ?_, fun k => ?_⟩
   · rw [map_append, nodup_append]
     exact ⟨h.nodup, nodup_singleton _, fun a ha b hb hab => by
      obtain rfl : b = key := mem_singleton.mp hb
      exact hnew (hab ▸ ha)⟩
   · rw [map_append, mem_append, map_singleton, mem_singleton] at hk
     exact hk.symm.imp_right (h.crashed k)
   · rw [find_append, hnone]
     simp
   · rw [find_append]
     by_cases hk : key = k
     · rw [← hk, hnone]
       simp
     · rw [if_neg hk, Option.or_none]

theorem remembered_append (key : Key) (calls : List (Call Key)) (c : Call Key) :
  remembered key (calls ++ [c]) = Call.remember key (remembered key calls) c := by
 rw [remembered, run_append]
 rfl

theorem Remembers.recordCrash (h : Remembers g calls) {f : History → History} {c : Call Key}
  (hcrashed : c.crashed = some key) (hroom : (key :: calls.filterMap Call.crashed).toFinset.card ≤ maxGuardEntries)
  (hown : ∀ r : History, f r.latest = (Call.remember key r c).latest) (hother : ∀ k ≠ key, ∀ r, Call.remember k r c = r) :
  Remembers { entries := update key f (g.findOrAdd key).entries } (calls ++ [c]) := by
 obtain ⟨hnodup, hkeys, hheld, hsame⟩ := h.findOrAdd hroom
 refine ⟨by rwa [keys_update], fun k hk => ?_, fun k => ?_⟩
 · rw [keys_update] at hk
   rw [filterMap_append, mem_append]
   rcases hkeys k hk with rfl | hk
   · exact .inr (by simp [hcrashed])
   · exact .inl hk
 · rw [find_update, remembered_append]
   split_ifs with hk
   · obtain ⟨held, hfind⟩ := Option.isSome_iff_exists.mp hheld
     have hlatest : held = (remembered key calls).latest := by
      rw [← h.kept key, ← hsame key, hfind, Option.getD_some]
     rw [hfind, Option.map_some, Option.getD_some, hk, hlatest, hown]
   · rw [hsame k, h.kept k, hother k hk]

theorem Remembers.step (h : Remembers g calls) (c : Call Key)
  (hroom : ((calls ++ [c]).filterMap Call.crashed).toFinset.card ≤ maxGuardEntries) : Remembers (c.apply g) (calls ++ [c]) := by
 have hfew : ∀ key, c.crashed = some key → (key :: calls.filterMap Call.crashed).toFinset.card ≤ maxGuardEntries := fun key hkey => by
  have hsame : ((calls ++ [c]).filterMap Call.crashed).toFinset = (key :: calls.filterMap Call.crashed).toFinset := by
   ext k
   simp [filterMap_append, hkey]
  exact hsame ▸ hroom
 have hkeep : c.crashed = none → (∀ k r, Call.remember k r c = r) → Remembers g (calls ++ [c]) := fun hnone hsame =>
  { nodup := h.nodup
    crashed := fun k hk => by
     rw [filterMap_append, mem_append]
     exact .inl (h.crashed k hk)
    kept := fun k => by rw [remembered_append, hsame, h.kept k] }
 cases c with
 | recordCrash key phase nowMs =>
  cases phase with
  | loading =>
   refine h.recordCrash rfl (hfew key rfl) (fun r => ?_) fun k hk r => if_neg (Ne.symm hk)
   rw [Call.remember, if_pos rfl]
   simp only [History.latest, capped_append]
  | generating =>
   refine h.recordCrash rfl (hfew key rfl) (fun r => ?_) fun k hk r => if_neg (Ne.symm hk)
   rw [Call.remember, if_pos rfl]
   simp only [History.latest, capped_append]
  | idle => exact hkeep rfl fun _ _ => rfl
 | check key nowMs => exact hkeep rfl fun _ _ => rfl
 | forget key =>
  refine ⟨h.nodup.sublist (filter_sublist.map _), fun k hk => ?_, fun k => ?_⟩
  · rw [filterMap_append, mem_append]
    exact .inl (h.crashed k ((filter_sublist.map _).subset hk))
  · rw [remembered_append, Call.remember, Call.apply, CrashLoopGuard.forget, find_forget]
    split_ifs with hk hkey hkey
    · rfl
    · exact absurd hk.symm hkey
    · exact absurd hkey.symm hk
    · exact h.kept k

theorem remembers_guardAfter (calls : List (Call Key)) (hroom : (calls.filterMap Call.crashed).toFinset.card ≤ maxGuardEntries) :
  Remembers (guardAfter calls) calls := by
 induction calls using List.reverseRecOn with
 | nil => exact ⟨nodup_nil, fun _ hk => absurd hk not_mem_nil, fun _ => rfl⟩
 | append_singleton calls c ih =>
  have hsubset : (calls.filterMap Call.crashed).toFinset ⊆ ((calls ++ [c]).filterMap Call.crashed).toFinset := fun k hk => by
   rw [mem_toFinset] at hk ⊢
   rw [filterMap_append, mem_append]
   exact .inl hk
  have hstep := (ih ((Finset.card_le_card hsubset).trans hroom)).step c hroom
  rwa [guardAfter, run_append]

end Steps

/-! ## What is remembered is in order -/

theorem remembered_times (key : Key) (calls : List (Call Key)) :
  (remembered key calls).loadCrashes.Sublist (calls.filterMap Call.time) ∧
   (remembered key calls).otherCrashes.Sublist (calls.filterMap Call.time) := by
 induction calls using List.reverseRecOn with
 | nil => exact ⟨List.Sublist.refl [], List.Sublist.refl []⟩
 | append_singleton calls c ih =>
  have hmore : ∀ {crashes : List ℤ}, crashes.Sublist (calls.filterMap Call.time) →
    crashes.Sublist ((calls ++ [c]).filterMap Call.time) := fun hsub => by
   rw [filterMap_append]
   exact hsub.trans (sublist_append_left _ _)
  have hnow : ∀ {crashes : List ℤ} {nowMs : ℤ}, c.time = some nowMs → crashes.Sublist (calls.filterMap Call.time) →
    (crashes ++ [nowMs]).Sublist ((calls ++ [c]).filterMap Call.time) := fun htime hsub => by
   rw [filterMap_append]
   exact hsub.append (by simp [htime])
  rw [remembered_append]
  cases c with
  | recordCrash k phase nowMs =>
   cases phase with
   | loading =>
    rw [Call.remember]
    split_ifs
    · exact ⟨hnow rfl ih.1, hmore ih.2⟩
    · exact ⟨hmore ih.1, hmore ih.2⟩
   | generating =>
    rw [Call.remember]
    split_ifs
    · exact ⟨hmore ih.1, hnow rfl ih.2⟩
    · exact ⟨hmore ih.1, hmore ih.2⟩
   | idle => exact ⟨hmore ih.1, hmore ih.2⟩
  | check k nowMs => exact ⟨hmore ih.1, hmore ih.2⟩
  | forget k =>
   rw [Call.remember]
   split_ifs
   · exact ⟨nil_sublist _, nil_sublist _⟩
   · exact ⟨hmore ih.1, hmore ih.2⟩

/-- The guard decides as if it remembered every crash, and refuses by how many there were in its windows. -/
theorem check_by_history (calls : List (Call Key)) (key : Key) (nowMs : ℤ)
  (hordered : ((calls ++ [Call.check key nowMs]).filterMap Call.time).Pairwise (· ≤ ·))
  (hroom : (calls.filterMap Call.crashed).toFinset.card ≤ maxGuardEntries) :
  (guardAfter calls).check key nowMs = (remembered key calls).check nowMs ∧
   ((guardAfter calls).check key nowMs = .refusedAfterLoadCrashes ↔
    2 ≤ (remembered key calls).loadCrashes.countP fun t => nowMs - t < 60 * 60 * 1000) ∧
   ((guardAfter calls).check key nowMs = .refusedAfterCrashes ↔
    ((remembered key calls).loadCrashes.countP fun t => nowMs - t < 60 * 60 * 1000) < 2 ∧
     3 ≤ (remembered key calls).otherCrashes.countP fun t => nowMs - t < 10 * 60 * 1000) := by
 obtain ⟨hloads, hothers⟩ := remembered_times key calls
 rw [List.filterMap_append, List.pairwise_append] at hordered
 have hall : (guardAfter calls).check key nowMs = (remembered key calls).check nowMs := by
  have hkept := (remembers_guardAfter calls hroom).kept key
  rw [← check_latest (hordered.1.sublist hloads) (hordered.1.sublist hothers), ← hkept, CrashLoopGuard.check]
  cases find key (guardAfter calls).entries with
  | none => rfl
  | some held => rfl
 refine ⟨hall, ?_, ?_⟩
 · rw [hall, History.check]
   change _ ↔ loadCrashesToRefuse ≤ (remembered key calls).loadRecent nowMs
   split_ifs with hload hother hback <;> simp [hload]
 · rw [hall, History.check]
   change _ ↔ (remembered key calls).loadRecent nowMs < loadCrashesToRefuse ∧ crashesToRefuse ≤ (remembered key calls).recent nowMs
   split_ifs with hload hother hback
   · simp [hload]
   · simp [hother, not_le.mp hload]
   · simp [hother]
   · simp [hother]

/-- After ten crashes while generating within a minute. -/
theorem check_by_history_ten :
  (guardAfter ((List.range 10).map fun n => Call.recordCrash 0 .generating (n * 1000))).check 0 20000 = .refusedAfterCrashes := by
 have h := check_by_history ((List.range 10).map fun n => Call.recordCrash 0 .generating (n * 1000)) 0 20000 (by decide) (by decide)
 exact h.2.2.mpr (by decide)

end MoltBrowser.CrashLoops
