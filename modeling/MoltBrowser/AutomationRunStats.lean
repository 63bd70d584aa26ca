import MoltBrowser.AutomationScriptFile
import MoltBrowser.AutomationRunner
import MoltBrowser.StaleWrites

set_option autoImplicit false

/-!
# The statistics of a stored workflow over its runs

A run loads its script, counts itself in the loaded statistics when it ends
(`Finish`) and writes these over the stored ones (`Update`). Each write is one
change of the file, yet its value is of the script as it was at the start.
-/
namespace MoltBrowser.AutomationRunStats
open List
open AutomationScript AutomationSecurity AutomationLocators AutomationRunner AutomationStorage

/-! ## What a file keeps of the statistics -/

/-- A run's record but for what a file may hold otherwise: the steps' descriptions, redacted when
they quote a secret, and numbers as JSON has them. -/
def outline (r : RunRecord) : RunRecord :=
 { r.stored with steps := r.steps.map fun s => { s with description := [] } }

structure Tally where
 runs : Int32
 successes : Int32
 history : List RunRecord

def tally (s : Stats) : Tally := ⟨s.runs, s.successes, s.runHistory.map outline⟩

variable (url : UrlLibrary)

def storedStats (file : Dict) : Stats := ((fromJSON url file).map Script.stats).getD {}

theorem outline_stored (r : RunRecord) : outline r.stored = outline r := by
 have htime : Double.keepInt64 (Double.keepInt64 r.timestampUnix) =
   Double.keepInt64 r.timestampUnix := Double.keepInt64_toInt64 _
 have htokens : ∀ i : Int32, (if (if i > 0 then i else 0) > 0 then (if i > 0 then i else 0) else 0) =
   if i > 0 then i else 0 := by
  intro i
  by_cases hi : i > 0
  · simp only [hi, ↓reduceIte]
  · simp only [hi, ↓reduceIte, ite_self]
 unfold outline RunRecord.stored
 simp only [htime, htokens]

theorem tally_stored (s : Stats) : tally s.stored = tally s := by
 have hhistory : (s.runHistory.map RunRecord.stored).map outline = s.runHistory.map outline := by
  rw [map_map]
  exact map_congr_left fun r _ => outline_stored r
 simp only [tally, Stats.stored, hhistory]

section Reading

variable (d : Dict) (key k : Bytes) (f : Dict → Dict)

theorem find_changeList_of_ne (h : k ≠ key) : (d.changeList key f).find k = d.find k := by
 unfold Dict.changeList
 split
 · rw [Dict.find_set, if_neg h]
 · rfl

theorem getDictList_changeList : getDictList (d.changeList key f) key = (getDictList d key).map f := by
 unfold Dict.changeList
 split
 · next l hl =>
   simp only [getDictList, Dict.findList, Dict.find_set, ↓reduceIte, Option.bind_some,
    Value.list?_list, Option.getD_some, filterMap_map]
   rw [Dict.findList] at hl
   rw [hl, Option.getD_some, map_filterMap]
   exact filterMap_congr fun v _ => by cases v <;> rfl
 · next hl =>
   simp only [getDictList, hl, Option.getD_none, filterMap_nil, map_nil]

end Reading

theorem redactStep_outline (removed : List Bytes) (d : Dict) :
  { stepResultFromDict (redactStep removed d) with description := [] } =
   { stepResultFromDict d with description := [] } := by
 unfold redactStep
 split
 · simp [stepResultFromDict, getInt_eq, getString_eq, getBool_eq]
 · rfl

theorem redactRun_outline (removed : List Bytes) (d : Dict) :
  outline (runRecordFromDict (redactRun removed d)) = outline (runRecordFromDict d) := by
 have hsteps : ((getDictList (redactRun removed d) "steps").map stepResultFromDict).map
   (fun s => { s with description := [] }) =
   ((getDictList d "steps").map stepResultFromDict).map fun s => { s with description := [] } := by
  rw [redactRun, getDictList_changeList, map_map, map_map, map_map]
  exact map_congr_left fun s _ => redactStep_outline removed s
 have hkeep : ∀ k : Bytes, k ≠ utf8 "steps" → (redactRun removed d).find k = d.find k :=
  fun k hk => find_changeList_of_ne _ _ _ _ hk
 simp [outline, RunRecord.stored, runRecordFromDict, getInt64, getInt, getBool, getString,
  Dict.findInt, Dict.findDouble, Dict.findBool, Dict.findString, hkeep, hsteps]

theorem redactStats_tally (removed : List Bytes) (d : Dict) :
  tally (statsFromDict (redactStats removed d)) = tally (statsFromDict d) := by
 have hkeep : ∀ k : Bytes, k ≠ utf8 "run_history" → (redactStats removed d).find k = d.find k :=
  fun k hk => find_changeList_of_ne _ _ _ _ hk
 have hruns : ((getDictList (redactStats removed d) "run_history").map runRecordFromDict).map
   outline = ((getDictList d "run_history").map runRecordFromDict).map outline := by
  rw [redactStats, getDictList_changeList, map_map, map_map, map_map]
  exact map_congr_left fun r _ => redactRun_outline removed r
 simp only [tally, statsFromDict, getInt, Dict.findInt, hruns]
 rw [hkeep "runs" (by decide), hkeep "successes" (by decide)]

theorem scrub_find (d : Dict) {k : Bytes} (hsteps : k ≠ utf8 "steps") (hstats : k ≠ utf8 "stats") :
  (scrubPlaintextSecrets d).2.find k = d.find k := by
 simp only [scrubPlaintextSecrets]
 split
 · rfl
 · split
   · rw [Dict.find_set, if_neg hstats, find_changeList_of_ne _ _ _ _ hsteps]
   · exact find_changeList_of_ne _ _ _ _ hsteps

theorem scrub_tally (d : Dict) :
  tally ((((scrubPlaintextSecrets d).2.findDict "stats").map statsFromDict).getD {}) =
   tally (((d.findDict "stats").map statsFromDict).getD {}) := by
 simp only [scrubPlaintextSecrets]
 split
 · rfl
 · have hstats : (d.changeList "steps" scrubStep).findDict "stats" = d.findDict "stats" := by
    rw [Dict.findDict, Dict.findDict, find_changeList_of_ne _ _ _ _ (by decide)]
   split
   · next stats hfind =>
     rw [hstats] at hfind
     rw [Dict.findDict, Dict.find_set, if_pos rfl, hfind]
     exact redactStats_tally _ stats
   · rw [hstats]

theorem storedStats_eq (d : Dict) : storedStats url d =
  if getString d "id" [] = [] then {} else ((d.findDict "stats").map statsFromDict).getD {} := by
 simp only [storedStats, fromJSON]
 split <;> rfl

theorem readScript_eq_none (id : Bytes) (d : Dict) :
  readScript url id d = none ↔ getString d "id" [] = [] := by
 simp only [readScript, fromJSON, Option.map_eq_none_iff]
 split <;> simp_all

variable {script : Script}

theorem readScript_stats {id : Bytes} {d : Dict}
  (h : readScript url id d = some script) : script.stats = storedStats url d := by
 obtain ⟨read, hread, rfl⟩ := Option.map_eq_some_iff.1 h
 simp only [storedStats, hread, Option.map_some, Option.getD_some]

theorem scrub_id (d : Dict) :
  getString (scrubPlaintextSecrets d).2 "id" [] = getString d "id" [] := by
 rw [getString, getString, Dict.findString, Dict.findString, scrub_find d (by decide) (by decide)]

theorem tally_scrub (d : Dict) :
  tally (storedStats url (scrubPlaintextSecrets d).2) = tally (storedStats url d) := by
 rw [storedStats_eq, storedStats_eq, scrub_id]
 split
 · rfl
 · exact scrub_tally d

theorem toJSON_id (script : Script) : getString (toJSON script) "id" [] = script.id := by
 simp [toJSON, getString_eq]

theorem tally_saveLocked (hid : script.id ≠ []) :
  tally (storedStats url (saveLocked script)) = tally script.stats := by
 have hstats : (toJSON script).findDict "stats" = some (statsToDict script.stats) := by
  simp [toJSON, Dict.findDict]
 rw [saveLocked, tally_scrub, storedStats_eq, toJSON_id, if_neg hid, hstats]
 exact (congrArg tally (stats_stored script.stats)).trans (tally_stored script.stats)

/-! ## Runs of one workflow -/

/-- How a run ended, as `Finish` counts it. -/
structure RunEnd where
 record : RunRecord
 failedStep : Int32 := -1
 needsTrust : Bool := false

def RunEnd.statsAfter (e : RunEnd) (stats : Stats) : Stats :=
 statsAfterRun stats e.record e.failedStep e.needsTrust

/-- The workflow's file and the runs in progress, each with the script it loaded. -/
structure Shared where
 file : Dict
 running : List (ℕ × Script) := []

abbrev Event := StaleWrites.Event ℕ RunEnd

def Shared.scriptOf (s : Shared) (k : ℕ) : Option Script :=
 (s.running.find? fun run => run.1 = k).map Prod.snd

/-- A run reads the file when it starts and writes it when it ends. -/
def step (id : Bytes) (s : Shared) : Event → Shared
 | .read k =>
  match load url id s.file with
  | (some script, file) => ⟨file, (k, script) :: s.running⟩
  | (none, file) => { s with file := file }
 | .write k e =>
  match s.scriptOf k with
  | some script =>
   { file := (update url script.id
      (fun stored => some { stored with stats := e.statsAfter script.stats }) s.file).getD s.file
     running := s.running.eraseP fun run => run.1 = k }
  | none => s

def Valid (id : Bytes) (s : Shared) : Event → Prop
 | .read k => s.scriptOf k = none ∧ (load url id s.file).1.isSome
 | .write k _ => (s.scriptOf k).isSome

def Alone (s : Shared) : Event → Prop
 | .read _ => s.running = []
 | .write _ _ => True

/-! ## What the runner counts -/

/-! ## The tallies as values read and written -/

def Tally.after (v : Tally) (e : RunEnd) : Tally where
 runs := v.runs + 1
 successes := if e.record.success then v.successes + 1 else v.successes
 history := (outline e.record :: v.history).take kRunHistoryCap

theorem tally_statsAfter (e : RunEnd) (stats : Stats) :
  tally (e.statsAfter stats) = (tally stats).after e := by
 simp only [tally, RunEnd.statsAfter, statsAfterRun, Tally.after, map_take, map_cons]

def held (run : ℕ × Script) : ℕ × Tally := (run.1, tally run.2.stats)

def view (s : Shared) : StaleWrites.Store ℕ Tally :=
 ⟨tally (storedStats url s.file), s.running.map held⟩

def Loaded (id : Bytes) (s : Shared) : Prop :=
 ∀ run ∈ s.running, run.2.id = id ∧ isValidScriptId id ∧ getString s.file "id" [] ≠ []

theorem scriptOf_view (s : Shared) (k : ℕ) :
  (view url s).holds k = (s.scriptOf k).map fun script => tally script.stats := by
 have hfind : (s.running.map held).find? (fun kv => kv.1 = k) =
   (s.running.find? fun run => run.1 = k).map held := find?_map
 simp only [StaleWrites.Store.holds, view, hfind, Shared.scriptOf, Option.map_map]
 rfl

theorem eraseP_view (s : Shared) (k : ℕ) :
  (s.running.map held).eraseP (fun kv => kv.1 = k) =
   (s.running.eraseP fun run => run.1 = k).map held := eraseP_map

theorem valid_view {id : Bytes} {s : Shared} {a : Event} (h : Valid url id s a) :
  StaleWrites.Valid (view url s) a := by
 cases a with
 | read k => simp only [StaleWrites.Valid, scriptOf_view, h.1, Option.map_none]
 | write k e =>
  simp only [StaleWrites.Valid, scriptOf_view, Option.isSome_map]
  exact h

theorem alone_view (s : Shared) (a : Event) : Alone s a ↔ StaleWrites.Alone (view url s) a := by
 cases a with
 | read k => simp only [Alone, StaleWrites.Alone, view, map_eq_nil_iff]
 | write k e => exact Iff.rfl

theorem isValidScriptId_ne {id : Bytes} (h : isValidScriptId id) : id ≠ [] := by
 simp only [isValidScriptId, decide_eq_true_eq] at h
 exact h.1

theorem saveLocked_id (hid : script.id ≠ []) :
  getString (saveLocked script) "id" [] ≠ [] := by
 rw [saveLocked, scrub_id, toJSON_id]
 exact hid

theorem scriptOf_mem {s : Shared} {k : ℕ} (h : s.scriptOf k = some script) :
  (k, script) ∈ s.running := by
 simp only [Shared.scriptOf, Option.map_eq_some_iff] at h
 obtain ⟨⟨k', script'⟩, hfind, rfl⟩ := h
 have hk : k' = k := by simpa using find?_some hfind
 exact hk ▸ mem_of_find?_eq_some hfind

theorem load_spec {id : Bytes} {file : Dict} (h : (load url id file).1.isSome) :
  ∃ script, load url id file = (some script, (scrubPlaintextSecrets file).2) ∧
   isValidScriptId id ∧ getString file "id" [] ≠ [] ∧ script.id = id ∧
   tally script.stats = tally (storedStats url file) := by
 by_cases hid : isValidScriptId id
 · have hload : load url id file =
     (readScript url id (scrubPlaintextSecrets file).2, (scrubPlaintextSecrets file).2) := by
    simp only [load, hid, ↓reduceIte]
   rw [hload] at h ⊢
   obtain ⟨script, hread⟩ : ∃ script, readScript url id (scrubPlaintextSecrets file).2 = some script :=
    Option.isSome_iff_exists.1 h
   have hne : getString file "id" [] ≠ [] := by
    rw [← scrub_id]
    exact fun hnil => by simp [(readScript_eq_none url id _).2 hnil] at hread
   have hname : script.id = id := by
    obtain ⟨_, -, rfl⟩ := Option.map_eq_some_iff.1 hread
    rfl
   refine ⟨script, by rw [hread], hid, hne, hname, ?_⟩
   rw [readScript_stats url hread, tally_scrub]
 · simp [load, hid] at h

theorem update_spec {id : Bytes} {file : Dict} (change : Script → Script) (hid : isValidScriptId id)
  (hfile : getString file "id" [] ≠ []) (hkeep : ∀ script, (change script).id = script.id) :
  ∃ stored, stored.id = id ∧ update url id (fun script => some (change script)) file =
   some (saveLocked (change stored)) := by
 cases hread : readScript url id file with
 | none => exact absurd ((readScript_eq_none url id file).1 hread) hfile
 | some stored =>
  have hname : stored.id = id := by
   obtain ⟨_, -, rfl⟩ := Option.map_eq_some_iff.1 hread
   rfl
  refine ⟨stored, hname, ?_⟩
  simp only [update, hid, ↓reduceIte, hread, Option.bind_eq_bind, Option.bind_some, hkeep, hname]

theorem step_view {id : Bytes} {s : Shared} {a : Event} (hloaded : Loaded id s)
  (hvalid : Valid url id s a) :
  Loaded id (step url id s a) ∧
   view url (step url id s a) = StaleWrites.step Tally.after (view url s) a := by
 cases a with
 | read k =>
  obtain ⟨script, hload, hid, hfile, hname, htally⟩ := load_spec url hvalid.2
  simp only [step, hload]
  constructor
  · rintro run (_ | ⟨_, hrun⟩)
    · exact ⟨hname, hid, by rwa [scrub_id]⟩
    · exact ⟨(hloaded run hrun).1, hid, by rwa [scrub_id]⟩
  · simp only [view, StaleWrites.step, map_cons, held, tally_scrub, htally]
 | write k e =>
  obtain ⟨script, hscript⟩ := Option.isSome_iff_exists.1 hvalid
  obtain ⟨hname, hid, hfile⟩ := hloaded _ (scriptOf_mem hscript)
  obtain ⟨stored, hstored, hupdate⟩ := update_spec url
   (fun stored => { stored with stats := e.statsAfter script.stats }) hid hfile fun _ => rfl
  have hne : stored.id ≠ [] := hstored ▸ isValidScriptId_ne hid
  have hholds : (view url s).holds k = some (tally script.stats) := by
   rw [scriptOf_view, hscript, Option.map_some]
  simp only [step, hscript, show script.id = id from hname, hupdate, Option.getD_some]
  constructor
  · intro run hrun
    exact ⟨(hloaded run (mem_of_mem_eraseP hrun)).1, hid, saveLocked_id hne⟩
  · simp only [StaleWrites.step, hholds]
    simp only [view, eraseP_view]
    have hsaved : tally (storedStats url (saveLocked { stored with
      stats := e.statsAfter script.stats })) = tally (e.statsAfter script.stats) :=
     tally_saveLocked url hne
    rw [hsaved, tally_statsAfter]

/-! ## What survives -/

/-- The file's statistics count every one of the runs and hold their records. -/
structure Counted (before after : Stats) (ends : List RunEnd) : Prop where
 runs : after.runs.toInt = before.runs.toInt + ends.length
 successes : after.successes.toInt =
  before.successes.toInt + (ends.filter fun e => e.record.success).length
 history : ((ends.reverse.map fun e => outline e.record).take kRunHistoryCap) <+:
  after.runHistory.map outline

def Room (before : Stats) (ends : List RunEnd) : Prop :=
 before.runs.toInt + ends.length < 2 ^ 31 ∧
  before.successes.toInt + (ends.filter fun e => e.record.success).length < 2 ^ 31

theorem toInt_add_ofNat_iff (i : Int32) (n : ℕ) :
  (i + Int32.ofNat n).toInt = i.toInt + n ↔ i.toInt + n < 2 ^ 31 := by
 have hlow := i.le_toInt
 have hhigh := (i + Int32.ofNat n).toInt_lt
 have hadd : (i + Int32.ofNat n).toInt = (i.toInt + n).bmod (2 ^ 32) := by
  rw [Int32.toInt_add, Int32.toInt_ofNat', Int.add_bmod_bmod]
  rfl
 constructor
 · intro h
   omega
 · intro h
   rw [hadd]
   exact Int.bmod_eq_of_le (by omega) (by omega)

theorem ofNat_succ (n : ℕ) (i : Int32) : i + Int32.ofNat (n + 1) = i + 1 + Int32.ofNat n := by
 rw [Int32.ofNat_add, Int32.add_comm (Int32.ofNat n), ← Int32.add_assoc]
 rfl

theorem iterate_add_one (n : ℕ) (i : Int32) : (· + 1)^[n] i = i + Int32.ofNat n := by
 induction n generalizing i with
 | zero => exact (Int32.add_zero i).symm
 | succ n ih => rw [Function.iterate_succ_apply, ih, ofNat_succ]

theorem foldl_after (v : Tally) (ends : List RunEnd) :
  (ends.foldl Tally.after v).runs = v.runs + Int32.ofNat ends.length ∧
   (ends.foldl Tally.after v).successes =
    v.successes + Int32.ofNat (ends.filter fun e => e.record.success).length ∧
   (ends.foldl Tally.after v).history.take kRunHistoryCap =
    ((ends.reverse.map fun e => outline e.record) ++ v.history).take kRunHistoryCap := by
 induction ends generalizing v with
 | nil => exact ⟨(Int32.add_zero _).symm, (Int32.add_zero _).symm, rfl⟩
 | cons e ends ih =>
  obtain ⟨hruns, hsuccesses, hhistory⟩ := ih (v.after e)
  refine ⟨?_, ?_, ?_⟩
  · rw [foldl_cons, hruns, length_cons, ofNat_succ]
    rfl
  · rw [foldl_cons, hsuccesses]
    cases hsuccess : e.record.success with
    | true =>
     simp only [filter_cons, hsuccess, ↓reduceIte, length_cons, ofNat_succ, Tally.after]
    | false =>
     simp only [filter_cons, hsuccess, Bool.false_eq_true, ↓reduceIte, Tally.after]
  · rw [foldl_cons, hhistory]
    simp only [Tally.after, reverse_cons, map_append, map_cons, map_nil,
     append_assoc, singleton_append]
    rw [take_append, take_append, take_take]
    congr 2
    omega

section Run

variable {id : Bytes} {s : Shared} {ops : List Event}

theorem run_view (hloaded : Loaded id s)
  (hvalid : TransitionRuns.Along (step url id) (Valid url id) s ops) :
  view url (TransitionRuns.run (step url id) s ops) =
    TransitionRuns.run (StaleWrites.step Tally.after) (view url s) ops ∧
   TransitionRuns.Along (StaleWrites.step Tally.after) StaleWrites.Valid (view url s) ops ∧
   (TransitionRuns.Along (step url id) (fun s a => Alone s a) s ops ↔
    TransitionRuns.Along (StaleWrites.step Tally.after) StaleWrites.Alone (view url s) ops) := by
 induction ops generalizing s with
 | nil => exact ⟨rfl, trivial, Iff.rfl⟩
 | cons a ops ih =>
  obtain ⟨hloaded', hview⟩ := step_view url hloaded hvalid.1
  obtain ⟨hrun, hvalid', halone⟩ := ih hloaded' hvalid.2
  rw [hview] at hrun hvalid' halone
  exact ⟨hrun, ⟨valid_view url hvalid.1, hvalid'⟩, and_congr (alone_view url s a) halone⟩

variable {v w : Stats}

theorem counted_of_alone {ends : List RunEnd}
  (h : tally w = ends.foldl Tally.after (tally v)) (hroom : Room v ends) : Counted v w ends := by
 obtain ⟨hruns, hsuccesses, hhistory⟩ := foldl_after (tally v) ends
 rw [← h] at hruns hsuccesses hhistory
 refine ⟨?_, ?_, ?_⟩
 · rw [show w.runs = v.runs + _ from hruns]
   exact (toInt_add_ofNat_iff _ _).2 hroom.1
 · rw [show w.successes = v.successes + _ from hsuccesses]
   exact (toInt_add_ofNat_iff _ _).2 hroom.2
 · have hprefix : ((ends.reverse.map fun e => outline e.record).take kRunHistoryCap) <+:
     (tally w).history.take kRunHistoryCap := by
    rw [hhistory, take_append]
    exact prefix_append _ _
   exact hprefix.trans (List.take_prefix _ _)

theorem room_of_counted {ends : List RunEnd} (h : Counted v w ends) : Room v ends := by
 have hruns := w.runs.toInt_lt
 have hsuccesses := w.successes.toInt_lt
 rw [h.runs] at hruns
 rw [h.successes] at hsuccesses
 exact ⟨hruns, hsuccesses⟩

theorem not_counted_of_lost {ends : List RunEnd} {m : ℕ} (hm : m < ends.length)
  (h : (tally w).runs = (· + 1)^[m] (tally v).runs) : ¬ Counted v w ends := by
 intro hcounted
 have hroom := (room_of_counted hcounted).1
 have hruns : w.runs = v.runs + Int32.ofNat m := h.trans (iterate_add_one m v.runs)
 have hint := (toInt_add_ofNat_iff v.runs m).2 (by omega)
 rw [← hruns, hcounted.runs] at hint
 omega

theorem not_counted_of_overlap {file : Dict}
  (hvalid : TransitionRuns.Along (step url id) (Valid url id) ⟨file, []⟩ ops)
  (hdone : (TransitionRuns.run (step url id) ⟨file, []⟩ ops).running = [])
  (hoverlap : ¬ TransitionRuns.Along (step url id) (fun s a => Alone s a) ⟨file, []⟩ ops) :
  ¬ Counted (storedStats url file)
   (storedStats url (TransitionRuns.run (step url id) ⟨file, []⟩ ops).file)
   (StaleWrites.writes ops) := by
 obtain ⟨hrun, hvalid', halone⟩ := run_view url (fun run hrun => by cases hrun) hvalid
 have hidle : (TransitionRuns.run (StaleWrites.step Tally.after) (view url ⟨file, []⟩) ops).held =
   [] := by
  rw [← hrun, view, hdone, map_nil]
 obtain ⟨m, hm, hlost⟩ : ∃ m < (StaleWrites.writes ops).length,
   (TransitionRuns.run (StaleWrites.step Tally.after) (view url ⟨file, []⟩) ops).stored.runs =
    (· + 1)^[m] (view url ⟨file, []⟩).stored.runs :=
  StaleWrites.lost_of_not_alone (· + 1) Tally.runs (fun _ _ => rfl) rfl hvalid' (fun h => hoverlap (halone.2 h)) hidle
 rw [← hrun] at hlost
 exact not_counted_of_lost hm hlost

/-- Every run that ended is counted exactly when no run of the workflow starts while another is in
progress and the counters have room. -/
theorem runs_counted_iff (url : UrlLibrary) (id : Bytes) (file : Dict) (ops : List Event)
  (hvalid : TransitionRuns.Along (step url id) (Valid url id) ⟨file, []⟩ ops)
  (hdone : (TransitionRuns.run (step url id) ⟨file, []⟩ ops).running = []) :
  Counted (storedStats url file)
    (storedStats url (TransitionRuns.run (step url id) ⟨file, []⟩ ops).file)
    (StaleWrites.writes ops) ↔
   TransitionRuns.Along (step url id) (fun s a => Alone s a) ⟨file, []⟩ ops ∧
    Room (storedStats url file) (StaleWrites.writes ops) := by
 constructor
 · intro hcounted
   refine ⟨?_, room_of_counted hcounted⟩
   by_contra hoverlap
   exact not_counted_of_overlap url hvalid hdone hoverlap hcounted
 · rintro ⟨halone, hroom⟩
   obtain ⟨hrun, hvalid', halone'⟩ := run_view url (fun run hrun => by cases hrun) hvalid
   have hserial := StaleWrites.run_stored_of_alone Tally.after (.inl rfl) hvalid' (halone'.1 halone)
   rw [← hrun] at hserial
   exact counted_of_alone hserial hroom

end Run

/-! ## Two runs of a sample file -/

instance (id : Bytes) (s : Shared) (a : Event) : Decidable (Valid url id s a) := by
 cases a <;> unfold Valid <;> infer_instance

instance (s : Shared) (a : Event) : Decidable (Alone s a) := by
 cases a <;> unfold Alone <;> infer_instance

instance (before : Stats) (ends : List RunEnd) : Decidable (Room before ends) := by
 unfold Room
 infer_instance

def noUrls : UrlLibrary := ⟨fun _ => none⟩

def sampleFile : Dict := [("id", .string "a")]

def succeeded : RunEnd := { record := { success := true, message := "Completed" } }

def oneAfterTheOther : List Event := [.read 0, .write 0 succeeded, .read 1, .write 1 succeeded]

def overlapping : List Event := [.read 0, .read 1, .write 0 succeeded, .write 1 succeeded]

theorem runs_counted_iff_sample : Counted (storedStats noUrls sampleFile)
  (storedStats noUrls (TransitionRuns.run (step noUrls "a") ⟨sampleFile, []⟩ oneAfterTheOther).file)
  (StaleWrites.writes oneAfterTheOther) :=
 (runs_counted_iff noUrls "a" sampleFile oneAfterTheOther (by decide +kernel) (by decide +kernel)).2
  ⟨by decide +kernel, by decide +kernel⟩

/-- The second of two overlapping runs writes over the first one's count. -/
theorem overlapping_runs_lost :
  TransitionRuns.Along (step noUrls "a") (Valid noUrls "a") ⟨sampleFile, []⟩ overlapping ∧
   (TransitionRuns.run (step noUrls "a") ⟨sampleFile, []⟩ overlapping).running = [] ∧
   ¬ Counted (storedStats noUrls sampleFile)
    (storedStats noUrls (TransitionRuns.run (step noUrls "a") ⟨sampleFile, []⟩ overlapping).file)
    (StaleWrites.writes overlapping) := by
 have hvalid : TransitionRuns.Along (step noUrls "a") (Valid noUrls "a") ⟨sampleFile, []⟩
   overlapping := by decide +kernel
 have hdone : (TransitionRuns.run (step noUrls "a") ⟨sampleFile, []⟩ overlapping).running = [] := by
  decide +kernel
 exact ⟨hvalid, hdone, not_counted_of_overlap noUrls hvalid hdone (by decide +kernel)⟩

end MoltBrowser.AutomationRunStats
