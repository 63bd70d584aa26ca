import MoltBrowser.OrderedSets
import Mathlib.Tactic.Linarith

set_option autoImplicit false

/-! # The storage service's tasks, taken in turn per site -/
namespace MoltBrowser.FairQueue
open SortedTable OrderedSets

def minTaskMicroseconds : ℤ := 1

structure SiteQueue (Task : Type) where
 tasks : List Task := []
 start : ℤ := 0
 finish : ℤ := 0
 ready : Bool := false
 serving : Bool := false

def wasIdle : ℕ := 0
def keptTasks : ℕ := 1

/-- A ready site's place: its start, its tier, the order and its name. -/
abbrev Place (Site : Type) := ℤ ×ₗ ℕ ×ₗ ℕ ×ₗ Site

variable {Site Task : Type}

def place (start : ℤ) (tier order : ℕ) (name : Site) : Place Site := toLex (start, toLex (tier, toLex (order, name)))

def Place.start (e : Place Site) : ℤ := (ofLex e).1
def Place.tier (e : Place Site) : ℕ := (ofLex (ofLex e).2).1
def Place.order (e : Place Site) : ℕ := (ofLex (ofLex (ofLex e).2).2).1
def Place.name (e : Place Site) : Site := (ofLex (ofLex (ofLex e).2).2).2

/-- An idle site's place: when its last task finished, and its name. -/
abbrev Rest (Site : Type) := ℤ ×ₗ Site

def rest (finish : ℤ) (name : Site) : Rest Site := toLex (finish, name)

def Rest.finish (p : Rest Site) : ℤ := (ofLex p).1
def Rest.name (p : Rest Site) : Site := (ofLex p).2

variable [LinearOrder Site]

structure MoltDomStorageFairQueue (Site Task : Type) [LinearOrder Site] where
 sites : Table Site (SiteQueue Task) := .empty
 ready : Finset (Place Site) := ∅
 idle : Finset (Rest Site) := ∅
 virtualTime : ℤ := 0
 nextOrder : ℕ := 0

namespace MoltDomStorageFairQueue

variable (q : MoltDomStorageFairQueue Site Task)

def makeReady (name : Site) (state : SiteQueue Task) (start : ℤ) (tier : ℕ) : MoltDomStorageFairQueue Site Task :=
 { q with
   sites := q.sites.insert name { state with start, ready := true }
   ready := insert (place start tier q.nextOrder name) q.ready
   nextOrder := q.nextOrder + 1 }

def push (site : Site) (task : Task) : MoltDomStorageFairQueue Site Task :=
 let state := (q.sites.get site).getD {}
 let state := { state with tasks := state.tasks ++ [task] }
 if state.serving || state.ready then { q with sites := q.sites.insert site state }
 else makeReady { q with idle := q.idle.erase (rest state.finish site) } site state (max state.finish q.virtualTime) wasIdle

def forgetIdleSitesBefore (virtualTime : ℤ) : MoltDomStorageFairQueue Site Task :=
 let (gone, idle) := takeFirst (fun p => p.finish ≤ virtualTime) q.idle.card q.idle
 { q with idle, sites := gone.foldl (fun sites p => sites.erase p.name) q.sites }

/-- A ready site has a record and a task; without them the last two cases give nothing. -/
def pop : Option (Site × Task × MoltDomStorageFairQueue Site Task) :=
 match first q.ready with
 | none => none
 | some e =>
  match q.sites.get e.name with
  | none => none
  | some state =>
   match state.tasks with
   | [] => none
   | task :: tasks =>
    some (e.name, task, forgetIdleSitesBefore
     { q with
       virtualTime := e.start
       ready := q.ready.erase e
       sites := q.sites.insert e.name { state with ready := false, serving := true, tasks } } e.start)

def charge (site : Site) (microseconds : ℤ) : MoltDomStorageFairQueue Site Task :=
 match q.sites.get site with
 | none => q
 | some state =>
  if state.serving = false then q
  else
   let finish := state.start + max microseconds minTaskMicroseconds
   let state := { state with serving := false, finish }
   if state.tasks ≠ [] then q.makeReady site state finish keptTasks
   else if finish ≤ q.virtualTime then { q with sites := q.sites.erase site }
   else { q with sites := q.sites.insert site state, idle := insert (rest finish site) q.idle }

def hasReadyTasks : Bool := q.ready ≠ ∅

end MoltDomStorageFairQueue

/-! ## Places -/

variable {e : Place Site}

theorem start_le {e' : Place Site} (h : e ≤ e') : e.start ≤ e'.start := by
 rw [Prod.Lex.le_iff] at h
 cases h with
 | inl hlt => exact hlt.le
 | inr heq => exact heq.1.le

theorem place_lt {e' : Place Site} : e < e' ↔ e.start < e'.start ∨ e.start = e'.start ∧
  (e.tier < e'.tier ∨ e.tier = e'.tier ∧ (e.order < e'.order ∨ e.order = e'.order ∧ e.name < e'.name)) := by
 rw [Prod.Lex.lt_iff, Prod.Lex.lt_iff, Prod.Lex.lt_iff]
 rfl

theorem finish_le {p p' : Rest Site} (h : p ≤ p') : p.finish ≤ p'.finish := by
 rw [Prod.Lex.le_iff] at h
 cases h with
 | inl hlt => exact hlt.le
 | inr heq => exact heq.1.le

/-! ## What is known of each site -/

/-- How a site stands: the queue keeps nothing of it, or it is idle with a finish still ahead, ready
with one place, or in service. `finished` is when its last task finished. -/
inductive Standing (q : MoltDomStorageFairQueue Site Task) (inService : Option Site) (finished : ℤ) (name : Site) : Prop
 | absent (record : q.sites.get name = none) (served : inService ≠ some name) (place : ∀ e ∈ q.ready, e.name ≠ name)
   (rests : ∀ p ∈ q.idle, p.name ≠ name) (past : finished ≤ q.virtualTime)
 | idle (state : SiteQueue Task) (record : q.sites.get name = some state) (ready : state.ready = false)
   (serving : state.serving = false) (tasks : state.tasks = []) (finish : state.finish = finished)
   (served : inService ≠ some name) (place : ∀ e ∈ q.ready, e.name ≠ name)
   (rests : ∀ p, p ∈ q.idle ∧ p.name = name ↔ p = rest finished name) (ahead : q.virtualTime < finished)
 | ready (state : SiteQueue Task) (tier order : ℕ) (record : q.sites.get name = some state) (ready : state.ready = true)
   (serving : state.serving = false) (tasks : state.tasks ≠ []) (served : inService ≠ some name)
   (place : ∀ e, e ∈ q.ready ∧ e.name = name ↔ e = place state.start tier order name)
   (rests : ∀ p ∈ q.idle, p.name ≠ name) (ahead : q.virtualTime ≤ state.start)
 | inService (state : SiteQueue Task) (record : q.sites.get name = some state) (ready : state.ready = false)
   (serving : state.serving = true) (served : inService = some name)
   (place : ∀ e ∈ q.ready, e.name ≠ name) (rests : ∀ p ∈ q.idle, p.name ≠ name) (now : state.start = q.virtualTime)

/-- Every site stands somewhere, and the orders given are used up. -/
structure Sound (q : MoltDomStorageFairQueue Site Task) (inService : Option Site) (finished : Site → ℤ) : Prop where
 standing : ∀ name, Standing q inService (finished name) name
 order : ∀ e ∈ q.ready, e.order < q.nextOrder

theorem sound_empty : Sound ({} : MoltDomStorageFairQueue Site Task) none fun _ => 0 where
 standing name := .absent rfl (by simp) (by simp) (by simp) (le_refl 0)
 order := by simp

variable {q' : MoltDomStorageFairQueue Site Task}

theorem Standing.frame {q : MoltDomStorageFairQueue Site Task} {inService inService' : Option Site} {finished : ℤ} {name : Site}
  (h : Standing q inService finished name) (hrecord : q'.sites.get name = q.sites.get name)
  (hready : ∀ e, e.name = name → (e ∈ q'.ready ↔ e ∈ q.ready)) (hidle : ∀ p, p.name = name → (p ∈ q'.idle ↔ p ∈ q.idle))
  (htime : q'.virtualTime = q.virtualTime) (hserved : inService' = some name ↔ inService = some name) :
  Standing q' inService' finished name := by
 have hnoPlace : (∀ e ∈ q.ready, e.name ≠ name) → ∀ e ∈ q'.ready, e.name ≠ name :=
  fun hplace e he hname => hplace e ((hready e hname).mp he) hname
 have hnoRest : (∀ p ∈ q.idle, p.name ≠ name) → ∀ p ∈ q'.idle, p.name ≠ name :=
  fun hrests p hp hname => hrests p ((hidle p hname).mp hp) hname
 cases h with
 | absent record served place rests past =>
  exact .absent (hrecord.trans record) (fun h => served (hserved.mp h)) (hnoPlace place) (hnoRest rests) (htime ▸ past)
 | idle state record ready serving tasks finish served place rests ahead =>
  refine .idle state (hrecord.trans record) ready serving tasks finish (fun h => served (hserved.mp h)) (hnoPlace place)
   (fun p => ?_) (htime ▸ ahead)
  rw [← rests p]
  exact ⟨fun h => ⟨(hidle p h.2).mp h.1, h.2⟩, fun h => ⟨(hidle p h.2).mpr h.1, h.2⟩⟩
 | ready state tier order record ready serving tasks served place rests ahead =>
  refine .ready state tier order (hrecord.trans record) ready serving tasks (fun h => served (hserved.mp h))
   (fun e => ?_) (hnoRest rests) (htime ▸ ahead)
  rw [← place e]
  exact ⟨fun h => ⟨(hready e h.2).mp h.1, h.2⟩, fun h => ⟨(hready e h.2).mpr h.1, h.2⟩⟩
 | inService state record ready serving served place rests now =>
  exact .inService state (hrecord.trans record) ready serving (hserved.mpr served) (hnoPlace place) (hnoRest rests)
   (now.trans htime.symm)

open MoltDomStorageFairQueue

variable {q : MoltDomStorageFairQueue Site Task} {inService : Option Site} {finished : Site → ℤ}

/-! ## Made ready -/

theorem makeReady_get (q : MoltDomStorageFairQueue Site Task) (site : Site) (state : SiteQueue Task) (start : ℤ) (tier : ℕ) (name : Site) :
  (q.makeReady site state start tier).sites.get name = if name = site then some { state with start, ready := true } else q.sites.get name :=
 Table.get_insert _ _ _ _

variable {site : Site}

theorem makeReady_sound {state : SiteQueue Task} {start : ℤ} {tier : ℕ} {finished : Site → ℤ} {inService : Option Site}
  (hothers : ∀ name, name ≠ site → Standing q inService (finished name) name) (horder : ∀ e ∈ q.ready, e.order < q.nextOrder)
  (hserving : state.serving = false) (htasks : state.tasks ≠ []) (hserved : inService ≠ some site)
  (hplace : ∀ e ∈ q.ready, e.name ≠ site) (hrests : ∀ p ∈ q.idle, p.name ≠ site) (hahead : q.virtualTime ≤ start) : Sound (q.makeReady site state start tier) inService finished where
 standing name := by
  by_cases hname : name = site
  · subst hname
    refine .ready { state with start, ready := true } tier q.nextOrder ?_ rfl hserving htasks hserved (fun e => ?_)
     hrests hahead
    · rw [makeReady_get, if_pos rfl]
    · rw [makeReady, Finset.mem_insert]
      constructor
      · rintro ⟨heq | hold, hname⟩
        · exact heq
        · exact absurd hname (hplace e hold)
      · rintro rfl
        exact ⟨.inl rfl, rfl⟩
  · refine (hothers name hname).frame ?_ (fun e he => ?_) (fun _ _ => Iff.rfl) rfl Iff.rfl
    · rw [makeReady_get, if_neg hname]
    · rw [makeReady, Finset.mem_insert]
      constructor
      · rintro (rfl | hold)
        · exact absurd he.symm hname
        · exact hold
      · exact Or.inr
 order e he := by
  rw [makeReady, Finset.mem_insert] at he
  cases he with
  | inl heq => exact heq ▸ Nat.lt_succ_self q.nextOrder
  | inr hold => exact (horder e hold).trans (Nat.lt_succ_self q.nextOrder)

/-! ## Push -/

theorem push_queued {state : SiteQueue Task} (hrecord : q.sites.get site = some state)
  (hbusy : (state.serving || state.ready) = true) (task : Task) :
  q.push site task = { q with sites := q.sites.insert site { state with tasks := state.tasks ++ [task] } } := by
 rw [push, hrecord]
 exact if_pos hbusy

theorem push_idle (task : Task) (hbusy : (((q.sites.get site).getD {}).serving || ((q.sites.get site).getD {}).ready) = false) :
  q.push site task = makeReady { q with idle := q.idle.erase (rest ((q.sites.get site).getD {}).finish site) } site
   { (q.sites.get site).getD {} with tasks := ((q.sites.get site).getD {}).tasks ++ [task] }
   (max ((q.sites.get site).getD {}).finish q.virtualTime) wasIdle := by
 rw [push]
 exact if_neg (by rw [hbusy]; exact Bool.false_ne_true)

theorem Sound.push (h : Sound q inService finished) (site : Site) (task : Task) : Sound (q.push site task) inService finished := by
 have hqueued : ∀ (state : SiteQueue Task), q.sites.get site = some state → (state.serving || state.ready) = true →
   Standing { q with sites := q.sites.insert site { state with tasks := state.tasks ++ [task] } } inService (finished site) site →
   Sound (q.push site task) inService finished := by
  intro state hrecord hbusy hsite
  rw [push_queued hrecord hbusy]
  refine ⟨fun name => ?_, h.order⟩
  by_cases hname : name = site
  · exact hname ▸ hsite
  · refine (h.standing name).frame ?_ (fun _ _ => Iff.rfl) (fun _ _ => Iff.rfl) rfl Iff.rfl
    rw [Table.get_insert, if_neg hname]
 -- the other sites, once the site's rest is erased
 have hothers : ∀ finish name, name ≠ site →
   Standing { q with idle := q.idle.erase (rest finish site) } inService (finished name) name := by
  intro finish name hname
  refine (h.standing name).frame rfl (fun _ _ => Iff.rfl) (fun p hp => ?_) rfl Iff.rfl
  have hother : p ≠ rest finish site := by
   rintro rfl
   exact hname hp.symm
  exact ⟨Finset.mem_of_mem_erase, fun hmem => Finset.mem_erase.mpr ⟨hother, hmem⟩⟩
 cases h.standing site with
 | absent record served place rests past =>
  have hstate : (q.sites.get site).getD {} = {} := by rw [record]; rfl
  rw [push_idle task (by rw [hstate]; rfl), hstate]
  refine makeReady_sound (hothers _) h.order rfl (List.append_ne_nil_of_right_ne_nil _ (List.cons_ne_nil _ _)) served place
   (fun p hp => rests p (Finset.mem_of_mem_erase hp)) (le_max_right _ _)
 | idle state record ready serving tasks finish served place rests ahead =>
  have hstate : (q.sites.get site).getD {} = state := by rw [record]; rfl
  rw [push_idle task (by rw [hstate, serving, ready]; rfl), hstate]
  refine makeReady_sound (hothers _) h.order serving (List.append_ne_nil_of_right_ne_nil _ (List.cons_ne_nil _ _)) served
   place (fun p hp hname => ?_) (le_max_right _ _)
  have hrest := (rests p).mp ⟨Finset.mem_of_mem_erase hp, hname⟩
  exact (Finset.ne_of_mem_erase hp) (finish ▸ hrest)
 | ready state tier order record ready serving tasks served place rests ahead =>
  refine hqueued state record (by rw [ready, Bool.or_true]) ?_
  exact .ready { state with tasks := state.tasks ++ [task] } tier order (by rw [Table.get_insert, if_pos rfl]) ready serving
   (List.append_ne_nil_of_right_ne_nil _ (List.cons_ne_nil _ _)) served place rests ahead
 | inService state record ready serving served place rests now =>
  refine hqueued state record (by rw [serving, Bool.true_or]) ?_
  exact .inService { state with tasks := state.tasks ++ [task] } (by rw [Table.get_insert, if_pos rfl]) ready serving
   served place rests now

/-! ## Pop -/

theorem forget_get (q : MoltDomStorageFairQueue Site Task) (time : ℤ) (name : Site) :
  (q.forgetIdleSitesBefore time).sites.get name =
   if ∃ p ∈ q.idle, p.name = name ∧ p.finish ≤ time then none else q.sites.get name := by
 have hspec := takeFirst_spec (fun p : Rest Site => decide (p.finish ≤ time)) q.idle.card q.idle
 have hall : ∀ p ∈ q.idle, p.finish ≤ time → p ∈ (takeFirst (fun p : Rest Site => p.finish ≤ time) q.idle.card q.idle).1 := by
  intro p hp hfinish
  refine takeFirst_all (fun a b hab hb => ?_) (le_refl _) hp (decide_eq_true hfinish)
  exact decide_eq_true ((finish_le hab).trans (of_decide_eq_true hb))
 rw [forgetIdleSitesBefore]
 dsimp only
 rw [get_foldl_erase]
 refine if_congr ?_ rfl rfl
 rw [List.mem_map]
 constructor
 · rintro ⟨p, hp, hname⟩
   exact ⟨p, (hspec.1 p hp).1, hname, of_decide_eq_true (hspec.1 p hp).2⟩
 · rintro ⟨p, hp, hname, hfinish⟩
   exact ⟨p, hall p hp hfinish, hname⟩

theorem forget_idle (q : MoltDomStorageFairQueue Site Task) (time : ℤ) (p : Rest Site) :
  p ∈ (q.forgetIdleSitesBefore time).idle ↔ p ∈ q.idle ∧ time < p.finish := by
 have hspec := takeFirst_spec (fun p : Rest Site => decide (p.finish ≤ time)) q.idle.card q.idle
 rw [forgetIdleSitesBefore]
 dsimp only
 rw [hspec.2]
 refine and_congr_right fun hp => ?_
 rw [← not_le]
 refine not_congr ⟨fun hmem => of_decide_eq_true (hspec.1 p hmem).2, fun hfinish => ?_⟩
 refine takeFirst_all (fun a b hab hb => ?_) (le_refl _) hp (decide_eq_true hfinish)
 exact decide_eq_true ((finish_le hab).trans (of_decide_eq_true hb))

theorem pop_some {task : Task} (h : q.pop = some (site, task, q')) :
  ∃ e state tasks, e ∈ q.ready ∧ (∀ e' ∈ q.ready, e ≤ e') ∧ e.name = site ∧ q.sites.get site = some state ∧
   state.tasks = task :: tasks ∧ q' = forgetIdleSitesBefore
    { q with
      virtualTime := e.start
      ready := q.ready.erase e
      sites := q.sites.insert site { state with ready := false, serving := true, tasks } } e.start := by
 rw [pop] at h
 cases hfirst : first q.ready with
 | none =>
  rw [hfirst] at h
  cases h
 | some e =>
  rw [hfirst] at h
  dsimp only at h
  cases hrecord : q.sites.get e.name with
  | none =>
   rw [hrecord] at h
   cases h
  | some state =>
   rw [hrecord] at h
   dsimp only at h
   cases htasks : state.tasks with
   | nil =>
    rw [htasks] at h
    cases h
   | cons first tasks =>
    rw [htasks] at h
    cases h
    exact ⟨e, state, tasks, (first_some hfirst).1, (first_some hfirst).2, rfl, hrecord, htasks, rfl⟩

theorem Sound.pop_none (h : Sound q inService finished) (hpop : q.pop = none) : q.ready = ∅ := by
 cases hfirst : first q.ready with
 | none => exact first_none.mp hfirst
 | some e =>
  have hmem := (first_some hfirst).1
  exfalso
  cases h.standing e.name with
  | absent _ _ place => exact place e hmem rfl
  | idle _ _ _ _ _ _ _ place => exact place e hmem rfl
  | inService _ _ _ _ _ place => exact place e hmem rfl
  | ready state tier order record ready serving tasks =>
   cases htasks : state.tasks with
   | nil => exact tasks htasks
   | cons task rest =>
    rw [pop, hfirst] at hpop
    dsimp only at hpop
    rw [record] at hpop
    dsimp only at hpop
    rw [htasks] at hpop
    cases hpop

theorem Sound.hasReadyTasks (h : Sound q inService finished) : q.hasReadyTasks = true ↔ q.pop ≠ none := by
 rw [MoltDomStorageFairQueue.hasReadyTasks, decide_eq_true_iff]
 constructor
 · exact fun hready hpop => hready (h.pop_none hpop)
 · intro hpop hready
   rw [pop, first_none.mpr hready] at hpop
   exact hpop rfl

theorem Sound.first_standing (h : Sound q inService finished) (he : e ∈ q.ready) :
  ∃ state, q.sites.get e.name = some state ∧ state.start = e.start ∧ q.virtualTime ≤ e.start ∧ state.tasks ≠ [] ∧
   (∀ e' ∈ q.ready, e'.name = e.name → e' = e) ∧ ∀ p ∈ q.idle, p.name ≠ e.name := by
 cases h.standing e.name with
 | absent _ _ place => exact absurd rfl (place e he)
 | idle _ _ _ _ _ _ _ place => exact absurd rfl (place e he)
 | inService _ _ _ _ _ place => exact absurd rfl (place e he)
 | ready state tier order record ready serving tasks served place rests ahead =>
  have heq := (place e).mp ⟨he, rfl⟩
  have hstart : state.start = e.start := by rw [heq]; rfl
  refine ⟨state, record, hstart, hstart ▸ ahead, tasks, fun e' he' hname => ?_, rests⟩
  rw [heq]
  exact (place e').mp ⟨he', hname⟩

theorem Sound.pop (h : Sound q none finished) {task : Task}
  (hpop : q.pop = some (site, task, q')) : Sound q' (some site) finished ∧ q.virtualTime ≤ q'.virtualTime := by
 obtain ⟨e, state, tasks, he, hleast, rfl, hrecord, htasks, rfl⟩ := pop_some hpop
 obtain ⟨state', hrecord', hstart, htime, -, honly, hnoRest⟩ := h.first_standing he
 obtain rfl : state = state' := Option.some.inj (hrecord.symm.trans hrecord')
 have hother : ∀ e' ∈ q.ready, e'.name ≠ e.name → e' ∈ q.ready.erase e := fun e' he' hname =>
  Finset.mem_erase.mpr ⟨fun heq => hname (heq ▸ rfl), he'⟩
 refine ⟨⟨fun name => ?_, fun e' he' => h.order e' (Finset.mem_of_mem_erase he')⟩, htime⟩
 by_cases hname : name = e.name
 · subst hname
   refine .inService { state with ready := false, serving := true, tasks } ?_ rfl rfl rfl (fun e' he' heq => ?_) (fun p hp heq => ?_)
    hstart
   · rw [forget_get, if_neg, Table.get_insert, if_pos rfl]
     rintro ⟨p, hp, heq, -⟩
     exact hnoRest p hp heq
   · exact Finset.ne_of_mem_erase he' (honly e' (Finset.mem_of_mem_erase he') heq)
   · exact hnoRest p ((forget_idle _ _ _).mp hp).1 heq
 · have hget : (q.sites.insert e.name { state with ready := false, serving := true, tasks }).get name = q.sites.get name := by
    rw [Table.get_insert, if_neg hname]
   have hserved : some e.name ≠ some name := fun heq => hname (Option.some.inj heq).symm
   cases h.standing name with
   | absent record served place rests past =>
    refine .absent ?_ hserved (fun e' he' => place e' (Finset.mem_of_mem_erase he'))
     (fun p hp => rests p ((forget_idle _ _ _).mp hp).1) (past.trans htime)
    rw [forget_get]
    split_ifs
    · rfl
    · exact hget.trans record
   | idle other record ready serving tasks finish served place rests ahead =>
    by_cases hpast : finished name ≤ e.start
    · refine .absent ?_ hserved (fun e' he' => place e' (Finset.mem_of_mem_erase he')) (fun p hp heq => ?_) hpast
      · rw [forget_get, if_pos ⟨rest (finished name) name, ((rests _).mpr rfl).1, rfl, hpast⟩]
      · obtain ⟨hp, hahead⟩ := (forget_idle _ _ _).mp hp
        have hrest := (rests p).mp ⟨hp, heq⟩
        rw [hrest] at hahead
        exact absurd hpast (not_le.mpr hahead)
    · refine .idle other ?_ ready serving tasks finish hserved (fun e' he' => place e' (Finset.mem_of_mem_erase he')) (fun p => ?_)
       (not_le.mp hpast)
      · rw [forget_get, if_neg, hget, record]
        rintro ⟨p, hp, heq, hfinish⟩
        rw [(rests p).mp ⟨hp, heq⟩] at hfinish
        exact hpast hfinish
      · rw [forget_idle, ← rests p]
        constructor
        · exact fun hp => ⟨hp.1.1, hp.2⟩
        · intro hp
          refine ⟨⟨hp.1, ?_⟩, hp.2⟩
          rw [(rests p).mp hp]
          exact not_le.mp hpast
   | ready other tier order record ready serving tasks served place rests ahead =>
    have hplace := ((place _).mpr rfl)
    refine .ready other tier order ?_ ready serving tasks hserved (fun e' => ?_) (fun p hp => rests p ((forget_idle _ _ _).mp hp).1)
     (start_le (hleast _ hplace.1))
    · rw [forget_get, if_neg, hget, record]
      rintro ⟨p, hp, heq, -⟩
      exact rests p hp heq
    · rw [← place e']
      constructor
      · exact fun he' => ⟨Finset.mem_of_mem_erase he'.1, he'.2⟩
      · exact fun he' => ⟨hother e' he'.1 fun heq => hname (he'.2.symm.trans heq), he'.2⟩
   | inService _ _ _ _ served => cases served

/-! ## Charge -/

def costOf (microseconds : ℤ) : ℤ := max microseconds minTaskMicroseconds

theorem costOf_pos (microseconds : ℤ) : 0 < costOf microseconds :=
 Int.zero_lt_one.trans_le (le_max_right microseconds minTaskMicroseconds)

theorem Sound.charge (h : Sound q (some site) finished) (microseconds : ℤ) :
  Sound (q.charge site microseconds) none (Function.update finished site (q.virtualTime + costOf microseconds)) := by
 have hothers : ∀ name, name ≠ site →
   Standing q none (Function.update finished site (q.virtualTime + costOf microseconds) name) name := by
  intro name hname
  rw [Function.update_of_ne hname]
  refine (h.standing name).frame rfl (fun _ _ => Iff.rfl) (fun _ _ => Iff.rfl) rfl ?_
  simp [Ne.symm hname]
 cases h.standing site with
 | absent _ served => exact absurd rfl served
 | idle _ _ _ _ _ _ served => exact absurd rfl served
 | ready _ _ _ _ _ _ _ served => exact absurd rfl served
 | inService state record ready serving served place rests now =>
  have hfinish : q.virtualTime < state.start + max microseconds minTaskMicroseconds := by
   have hpos := costOf_pos microseconds
   rw [costOf] at hpos
   omega
  rw [MoltDomStorageFairQueue.charge, record]
  dsimp only
  rw [serving, if_neg (by decide)]
  split_ifs with htasks hpast
  · exact makeReady_sound hothers h.order rfl htasks (by simp) place rests hfinish.le
  · exact absurd hfinish (not_lt.mpr hpast)
  · have hrests : ∀ p, p ∈ insert (rest (state.start + max microseconds minTaskMicroseconds) site) q.idle ∧ p.name = site ↔
      p = rest (q.virtualTime + costOf microseconds) site := by
     intro p
     rw [← now, Finset.mem_insert]
     constructor
     · rintro ⟨heq | hold, hsite⟩
       · exact heq
       · exact absurd hsite (rests p hold)
     · rintro rfl
       exact ⟨.inl rfl, rfl⟩
    refine ⟨fun name => ?_, h.order⟩
    by_cases hname : name = site
    · subst hname
      rw [Function.update_self]
      refine .idle { state with serving := false, finish := state.start + max microseconds minTaskMicroseconds }
       (by rw [Table.get_insert, if_pos rfl]) ready rfl (not_not.mp htasks) ?_ (by simp) place hrests
       (lt_add_of_pos_right _ (costOf_pos microseconds))
      rw [← now]
      rfl
    · refine (hothers name hname).frame ?_ (fun _ _ => Iff.rfl) (fun p hp => ?_) rfl Iff.rfl
      · rw [Table.get_insert, if_neg hname]
      · rw [Finset.mem_insert]
        constructor
        · rintro (rfl | hold)
          · exact absurd hp.symm hname
          · exact hold
        · exact Or.inr

end MoltBrowser.FairQueue
