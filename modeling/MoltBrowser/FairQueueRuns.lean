import MoltBrowser.FairQueue

set_option autoImplicit false

/-!
# Start-time fair queueing

The calls come in any order, with `Pop` and `Charge` in turn. No task is lost, the sites that keep
tasks queued share the time, and a site that used no more than its share goes next.
-/
namespace MoltBrowser.FairQueue
open SortedTable OrderedSets MoltDomStorageFairQueue List

variable {Site Task : Type} [LinearOrder Site]

inductive Call (Site Task : Type) where
 | push (site : Site) (task : Task)
 | pop
 | charge (microseconds : ℤ)

/-- The queue, the site in service, and what was done so far: when each site's last task finished,
what was pushed and popped, and what each task was charged. -/
structure Service (Site Task : Type) [LinearOrder Site] where
 queue : MoltDomStorageFairQueue Site Task := {}
 inService : Option Site := none
 finished : Site → ℤ := fun _ => 0
 pushed : List (Site × Task) := []
 popped : List (Site × Task) := []
 charged : List (Site × ℤ) := []

/-- Nothing is popped while a task is in service, and nothing charged while none is. -/
def Service.step (s : Service Site Task) : Call Site Task → Option (Service Site Task)
 | .push site task => some { s with queue := s.queue.push site task, pushed := s.pushed ++ [(site, task)] }
 | .pop =>
  match s.inService with
  | some _ => none
  | none =>
   match s.queue.pop with
   | none => some s
   | some (site, task, queue) => some { s with queue, inService := some site, popped := s.popped ++ [(site, task)] }
 | .charge microseconds =>
  match s.inService with
  | none => none
  | some site => some
   { s with
     queue := s.queue.charge site microseconds
     inService := none
     finished := Function.update s.finished site (s.queue.virtualTime + costOf microseconds)
     charged := s.charged ++ [(site, costOf microseconds)] }

def Service.run (s : Service Site Task) (calls : List (Call Site Task)) : Option (Service Site Task) := calls.foldlM Service.step s

variable {s s' : Service Site Task}

theorem Service.run_cons {call : Call Site Task} {calls : List (Call Site Task)} :
  s.run (call :: calls) = some s' ↔ ∃ mid, s.step call = some mid ∧ mid.run calls = some s' := by
 rw [Service.run, foldlM_cons]
 exact Option.bind_eq_some_iff

theorem Service.run_invariant {I : Service Site Task → Prop} (hstep : ∀ s call s', I s → s.step call = some s' → I s')
  {calls : List (Call Site Task)} (hs : I s) (hrun : s.run calls = some s') : I s' := by
 induction calls generalizing s with
 | nil => exact Option.some.inj hrun ▸ hs
 | cons call calls ih =>
  obtain ⟨mid, hmid, hrest⟩ := Service.run_cons.mp hrun
  exact ih (hstep s call mid hs hmid) hrest

/-! ## Tasks -/

def queued (q : MoltDomStorageFairQueue Site Task) (name : Site) : List Task := ((q.sites.get name).map SiteQueue.tasks).getD []

variable {q q' : MoltDomStorageFairQueue Site Task} {inService : Option Site} {finished : Site → ℤ}

theorem queued_of_get {name : Site} {state : SiteQueue Task} (h : q.sites.get name = some state) : queued q name = state.tasks := by
 rw [queued, h]
 rfl

theorem push_get (q : MoltDomStorageFairQueue Site Task) (site : Site) (task : Task) (name : Site) (hname : name ≠ site) :
  (q.push site task).sites.get name = q.sites.get name := by
 rw [push]
 dsimp only
 split_ifs
 · rw [Table.get_insert, if_neg hname]
 · rw [makeReady_get, if_neg hname]

theorem queued_push (q : MoltDomStorageFairQueue Site Task) (site : Site) (task : Task) (name : Site) :
  queued (q.push site task) name = queued q name ++ if name = site then [task] else [] := by
 by_cases hname : name = site
 · subst hname
   rw [if_pos rfl]
   have htasks : queued q name = ((q.sites.get name).getD {}).tasks := by
    rw [queued]
    cases q.sites.get name with
    | none => rfl
    | some state => rfl
   have hrecord : ∃ state, (q.push name task).sites.get name = some state ∧
     state.tasks = ((q.sites.get name).getD {}).tasks ++ [task] := by
    rw [push]
    dsimp only
    split_ifs
    · exact ⟨_, by rw [Table.get_insert, if_pos rfl], rfl⟩
    · exact ⟨_, by rw [makeReady_get, if_pos rfl], rfl⟩
   obtain ⟨state, hget, hstate⟩ := hrecord
   rw [queued_of_get hget, hstate, htasks]
 · rw [queued, push_get q site task name hname, if_neg hname, append_nil, queued]

theorem charge_get (q : MoltDomStorageFairQueue Site Task) (site : Site) (microseconds : ℤ) (name : Site) (hname : name ≠ site) :
  (q.charge site microseconds).sites.get name = q.sites.get name := by
 rw [charge]
 cases q.sites.get site with
 | none => rfl
 | some state =>
  dsimp only
  split_ifs
  · rfl
  · rw [makeReady_get, if_neg hname]
  · rw [Table.get_erase, if_neg hname]
  · rw [Table.get_insert, if_neg hname]

theorem queued_charge (q : MoltDomStorageFairQueue Site Task) (site : Site) (microseconds : ℤ) (name : Site) :
  queued (q.charge site microseconds) name = queued q name := by
 by_cases hname : name = site
 · subst hname
   rw [charge]
   cases hrecord : q.sites.get name with
   | none => rfl
   | some state =>
    rw [queued_of_get hrecord]
    dsimp only
    split_ifs with hserving htasks hpast
    · exact queued_of_get hrecord
    · rw [queued, makeReady_get, if_pos rfl]
      rfl
    · rw [not_not.mp htasks, queued, Table.get_erase, if_pos rfl]
      rfl
    · rw [queued, Table.get_insert, if_pos rfl]
      rfl
 · rw [queued, charge_get q site microseconds name hname, queued]

variable {site : Site} {task : Task}

/-- What `pop` does to the records: the site's loses its first task, and another's stays or, being
of an idle site, goes. -/
theorem Sound.pop_get (h : Sound q inService finished) (hpop : q.pop = some (site, task, q')) (name : Site) :
  q'.sites.get name = (if name = site then (q.sites.get name).map fun state =>
    { state with ready := false, serving := true, tasks := state.tasks.tail } else q.sites.get name) ∨
   q'.sites.get name = none ∧ name ≠ site ∧ queued q name = [] ∧ ∀ state, q.sites.get name = some state → state.serving = false := by
 obtain ⟨e, state, tasks, he, -, rfl, hrecord, htasks, rfl⟩ := pop_some hpop
 obtain ⟨-, -, -, -, -, -, hnoRest⟩ := h.first_standing he
 rw [forget_get]
 by_cases hgone : ∃ p ∈ q.idle, p.name = name ∧ p.finish ≤ e.start
 · obtain ⟨p, hp, heq, hfinish⟩ := hgone
   refine .inr ⟨if_pos ⟨p, hp, heq, hfinish⟩, fun hname => hnoRest p hp (heq.trans hname), ?_⟩
   cases h.standing name with
   | absent record => exact ⟨by rw [queued, record]; rfl, fun _ hstate => by rw [record] at hstate; cases hstate⟩
   | idle other record ready serving htasks =>
    refine ⟨by rw [queued_of_get record, htasks], fun _ hstate => ?_⟩
    rw [record] at hstate
    exact Option.some.inj hstate ▸ serving
   | ready _ _ _ _ _ _ _ _ _ rests => exact absurd heq (rests p hp)
   | inService _ _ _ _ _ _ rests => exact absurd heq (rests p hp)
 · left
   refine (if_neg hgone).trans ?_
   by_cases hname : name = e.name
   · subst hname
     rw [Table.get_insert, if_pos rfl, if_pos rfl, hrecord, Option.map_some, htasks]
     rfl
   · rw [Table.get_insert, if_neg hname, if_neg hname]

theorem Sound.queued_pop (h : Sound q inService finished) (hpop : q.pop = some (site, task, q')) (name : Site) :
  queued q name = (if name = site then [task] else []) ++ queued q' name := by
 obtain hget | ⟨hget, hname, hnil, -⟩ := h.pop_get hpop name
 · by_cases hname : name = site
   · subst hname
     obtain ⟨-, state, tasks, -, -, -, hrecord, htasks, -⟩ := pop_some hpop
     rw [if_pos rfl, hrecord, Option.map_some] at hget
     rw [queued_of_get hrecord, queued_of_get hget, if_pos rfl, htasks]
     rfl
   · rw [if_neg hname] at hget ⊢
     rw [queued, queued, hget, nil_append]
 · rw [hnil, if_neg hname, queued, hget]
   rfl

/-! ## Every run -/

def tasksOf (name : Site) (l : List (Site × Task)) : List Task := (l.filter fun p => p.1 = name).map Prod.snd

theorem tasksOf_concat (name site : Site) (l : List (Site × Task)) (task : Task) :
  tasksOf name (l ++ [(site, task)]) = tasksOf name l ++ if name = site then [task] else [] := by
 rw [tasksOf, filter_append, map_append, tasksOf]
 by_cases hname : name = site
 · simp [hname]
 · simp [hname, Ne.symm hname]

def largestCost (name : Site) (charged : List (Site × ℤ)) : ℤ :=
 ((charged.filter fun p => p.1 = name).map Prod.snd).foldr max 0

theorem largestCost_nonneg (name : Site) (charged : List (Site × ℤ)) : 0 ≤ largestCost name charged := by
 rw [largestCost]
 induction (charged.filter fun p => p.1 = name).map Prod.snd with
 | nil => exact le_refl 0
 | cons cost costs ih => exact ih.trans (le_max_right cost _)

theorem le_largestCost {name : Site} {charged : List (Site × ℤ)} {cost : ℤ} (h : (name, cost) ∈ charged) :
  cost ≤ largestCost name charged := by
 have hmem : cost ∈ (charged.filter fun p => p.1 = name).map Prod.snd :=
  mem_map.mpr ⟨(name, cost), mem_filter.mpr ⟨h, decide_eq_true rfl⟩, rfl⟩
 rw [largestCost]
 generalize (charged.filter fun p => p.1 = name).map Prod.snd = costs at hmem
 induction costs with
 | nil => cases hmem
 | cons c costs ih =>
  cases mem_cons.mp hmem with
  | inl heq => exact heq ▸ le_max_left _ _
  | inr hlater => exact (ih hlater).trans (le_max_right _ _)

theorem foldr_max_le {costs : List ℤ} {bound : ℤ} (h0 : 0 ≤ bound) (h : ∀ c ∈ costs, c ≤ bound) : costs.foldr max 0 ≤ bound := by
 induction costs with
 | nil => exact h0
 | cons c costs ih => exact max_le (h c mem_cons_self) (ih fun c' hc' => h c' (mem_cons_of_mem c hc'))

theorem largestCost_append (name : Site) (charged more : List (Site × ℤ)) : largestCost name charged ≤ largestCost name (charged ++ more) := by
 refine foldr_max_le (largestCost_nonneg name _) fun cost hcost => ?_
 obtain ⟨p, hp, rfl⟩ := mem_map.mp hcost
 obtain ⟨hmem, hname⟩ := mem_filter.mp hp
 have hpair : (name, p.2) ∈ charged ++ more := mem_append_left more (of_decide_eq_true hname ▸ hmem)
 exact le_largestCost hpair

/-- Whatever was called, the queue is sound, has what was pushed and not popped, and no site is
ahead of the virtual time by more than a task of its own. -/
structure Kept (s : Service Site Task) : Prop where
 sound : Sound s.queue s.inService s.finished
 tasks : ∀ name, tasksOf name s.popped ++ queued s.queue name = tasksOf name s.pushed
 time : 0 ≤ s.queue.virtualTime
 near : ∀ name state, s.queue.sites.get name = some state → state.ready = true →
  state.start ≤ s.queue.virtualTime + largestCost name s.charged
 finished : ∀ name, s.finished name ≤ s.queue.virtualTime + largestCost name s.charged

theorem kept_empty : Kept ({} : Service Site Task) where
 sound := sound_empty
 tasks _ := rfl
 time := le_refl 0
 near _ _ h := by cases h
 finished _ := le_refl 0

theorem push_virtualTime (q : MoltDomStorageFairQueue Site Task) (site : Site) (task : Task) :
  (q.push site task).virtualTime = q.virtualTime := by
 rw [push]
 dsimp only
 split_ifs <;> rfl

theorem charge_virtualTime (q : MoltDomStorageFairQueue Site Task) (site : Site) (microseconds : ℤ) :
  (q.charge site microseconds).virtualTime = q.virtualTime := by
 rw [charge]
 cases q.sites.get site with
 | none => rfl
 | some state =>
  dsimp only
  split_ifs <;> rfl

theorem Sound.push_site (h : Sound q inService finished) (site : Site) (task : Task) :
  (∃ state, q.sites.get site = some state ∧ (state.serving || state.ready) = true ∧
   (q.push site task).sites.get site = some { state with tasks := state.tasks ++ [task] }) ∨
  queued q site = [] ∧ inService ≠ some site ∧ ∃ state, (q.push site task).sites.get site = some state ∧ state.ready = true ∧
   (state.start = max 0 q.virtualTime ∨ state.start = finished site) := by
 cases hbusy : ((q.sites.get site).getD {}).serving || ((q.sites.get site).getD {}).ready with
 | true =>
  left
  cases hrecord : q.sites.get site with
  | none =>
   rw [hrecord] at hbusy
   cases hbusy
  | some state =>
   rw [hrecord] at hbusy
   refine ⟨state, rfl, hbusy, ?_⟩
   rw [push_queued hrecord hbusy, Table.get_insert, if_pos rfl]
 | false =>
  right
  rw [push_idle task hbusy, makeReady_get, if_pos rfl]
  cases h.standing site with
  | absent record served =>
   refine ⟨by rw [queued, record]; rfl, served, _, rfl, rfl, .inl ?_⟩
   rw [record]
   rfl
  | idle state record ready serving tasks finish served place rests ahead =>
   refine ⟨by rw [queued_of_get record, tasks], served, _, rfl, rfl, .inr ?_⟩
   rw [record, ← finish]
   exact max_eq_left (finish ▸ ahead.le)
  | ready state tier order record ready =>
   rw [record, Option.getD_some, ready, Bool.or_true] at hbusy
   cases hbusy
  | inService state record ready serving =>
   rw [record, Option.getD_some, serving, Bool.true_or] at hbusy
   cases hbusy

theorem Sound.charge_site (h : Sound q (some site) finished) (microseconds : ℤ) :
  ∃ state, q.sites.get site = some state ∧ state.serving = true ∧ state.start = q.virtualTime ∧
   ((state.tasks ≠ [] ∧ ∃ new, (q.charge site microseconds).sites.get site = some new ∧
     new.start = q.virtualTime + costOf microseconds) ∨
    state.tasks = [] ∧ ∀ new, (q.charge site microseconds).sites.get site = some new → new.ready = false) := by
 cases h.standing site with
 | absent _ served => exact absurd rfl served
 | idle _ _ _ _ _ _ served => exact absurd rfl served
 | ready _ _ _ _ _ _ _ served => exact absurd rfl served
 | inService state record ready serving served place rests now =>
  refine ⟨state, record, serving, now, ?_⟩
  rw [MoltDomStorageFairQueue.charge, record]
  dsimp only
  rw [serving, if_neg (by decide), ← now]
  split_ifs with htasks hpast
  · exact .inl ⟨htasks, _, by rw [makeReady_get, if_pos rfl], rfl⟩
  · refine .inr ⟨not_not.mp htasks, fun new hnew => ?_⟩
    rw [Table.get_erase, if_pos rfl] at hnew
    cases hnew
  · refine .inr ⟨not_not.mp htasks, fun new hnew => ?_⟩
    rw [Table.get_insert, if_pos rfl] at hnew
    exact Option.some.inj hnew ▸ ready

theorem Kept.push (h : Kept s) (site : Site) (task : Task) :
  Kept { s with queue := s.queue.push site task, pushed := s.pushed ++ [(site, task)] } where
 sound := h.sound.push site task
 tasks name := by
  rw [queued_push, ← append_assoc, h.tasks, tasksOf_concat]
 time := by
  rw [push_virtualTime]
  exact h.time
 near name state hget hready := by
  rw [push_virtualTime]
  by_cases hname : name = site
  · subst hname
    obtain ⟨old, hold, -, hnew⟩ | ⟨-, -, new, hnew, -, hstart⟩ := h.sound.push_site name task
    · obtain rfl := Option.some.inj (hget.symm.trans hnew)
      exact h.near name old hold hready
    · obtain rfl := Option.some.inj (hget.symm.trans hnew)
      cases hstart with
      | inl hnow =>
       rw [hnow, max_eq_right h.time]
       exact le_add_of_nonneg_right (largestCost_nonneg name s.charged)
      | inr hlast => exact hlast ▸ h.finished name
  · rw [push_get _ _ _ _ hname] at hget
    exact h.near name state hget hready
 finished name := by
  rw [push_virtualTime]
  exact h.finished name

theorem Kept.pop (h : Kept s) (hidle : s.inService = none)
  (hpop : s.queue.pop = some (site, task, q')) :
  Kept { s with queue := q', inService := some site, popped := s.popped ++ [(site, task)] } := by
 have hsound := h.sound
 rw [hidle] at hsound
 obtain ⟨hsound', htime⟩ := hsound.pop hpop
 refine ⟨hsound', fun name => ?_, h.time.trans htime, fun name state hget hready => ?_, fun name => ?_⟩
 · rw [tasksOf_concat, append_assoc, ← hsound.queued_pop hpop, h.tasks]
 · obtain hsame | ⟨hnone, -⟩ := hsound.pop_get hpop name
   · rw [hget] at hsame
     split_ifs at hsame with hname
     · obtain ⟨old, -, hold⟩ := Option.map_eq_some_iff.mp hsame.symm
       rw [← hold] at hready
       cases hready
     · exact (h.near name state hsame.symm hready).trans (add_le_add_left htime _)
   · rw [hnone] at hget
     cases hget
 · exact (h.finished name).trans (add_le_add_left htime _)

theorem Kept.charge (h : Kept s) (hserved : s.inService = some site) (microseconds : ℤ) :
  Kept { s with
   queue := s.queue.charge site microseconds
   inService := none
   finished := Function.update s.finished site (s.queue.virtualTime + costOf microseconds)
   charged := s.charged ++ [(site, costOf microseconds)] } := by
 have hsound := h.sound
 rw [hserved] at hsound
 have hlarger : ∀ name, largestCost name s.charged ≤ largestCost name (s.charged ++ [(site, costOf microseconds)]) :=
  fun name => largestCost_append name _ _
 have hcost : costOf microseconds ≤ largestCost site (s.charged ++ [(site, costOf microseconds)]) :=
  le_largestCost (mem_append_right _ mem_cons_self)
 refine ⟨hsound.charge microseconds, fun name => ?_, ?_, fun name state hget hready => ?_, fun name => ?_⟩
 · rw [queued_charge, h.tasks]
 · rw [charge_virtualTime]
   exact h.time
 · rw [charge_virtualTime]
   by_cases hname : name = site
   · subst hname
     obtain ⟨old, -, -, -, hnew⟩ := hsound.charge_site microseconds
     cases hnew with
     | inl hkept =>
      obtain ⟨-, new, hnew, hstart⟩ := hkept
      obtain rfl := Option.some.inj (hget.symm.trans hnew)
      rw [hstart]
      exact add_le_add_right hcost _
     | inr hidle =>
      rw [hidle.2 state hget] at hready
      cases hready
   · rw [charge_get _ _ _ _ hname] at hget
     exact (h.near name state hget hready).trans (add_le_add_right (hlarger name) _)
 · rw [charge_virtualTime]
   dsimp only
   by_cases hname : name = site
   · subst hname
     rw [Function.update_self]
     exact add_le_add_right hcost _
   · rw [Function.update_of_ne hname]
     exact (h.finished name).trans (add_le_add_right (hlarger name) _)

theorem Service.step_cases {call : Call Site Task} (h : s.step call = some s') :
  (∃ site task, call = .push site task ∧ s' = { s with queue := s.queue.push site task, pushed := s.pushed ++ [(site, task)] }) ∨
  (call = .pop ∧ s.inService = none ∧ s.queue.pop = none ∧ s' = s) ∨
  (∃ site task queue, call = .pop ∧ s.inService = none ∧ s.queue.pop = some (site, task, queue) ∧
   s' = { s with queue, inService := some site, popped := s.popped ++ [(site, task)] }) ∨
  ∃ site microseconds, call = .charge microseconds ∧ s.inService = some site ∧ s' =
   { s with
     queue := s.queue.charge site microseconds
     inService := none
     finished := Function.update s.finished site (s.queue.virtualTime + costOf microseconds)
     charged := s.charged ++ [(site, costOf microseconds)] } := by
 cases call with
 | push site task => exact .inl ⟨site, task, rfl, (Option.some.inj h).symm⟩
 | pop =>
  rw [Service.step] at h
  cases hserved : s.inService with
  | some site =>
   rw [hserved] at h
   cases h
  | none =>
   rw [hserved] at h
   dsimp only at h
   cases hpop : s.queue.pop with
   | none =>
    rw [hpop] at h
    exact .inr (.inl ⟨rfl, rfl, rfl, (Option.some.inj h).symm⟩)
   | some p =>
    rw [hpop] at h
    exact .inr (.inr (.inl ⟨p.1, p.2.1, p.2.2, rfl, rfl, rfl, (Option.some.inj h).symm⟩))
 | charge microseconds =>
  rw [Service.step] at h
  cases hserved : s.inService with
  | none =>
   rw [hserved] at h
   cases h
  | some site =>
   rw [hserved] at h
   exact .inr (.inr (.inr ⟨site, microseconds, rfl, rfl, (Option.some.inj h).symm⟩))

theorem Kept.step (h : Kept s) {call : Call Site Task} (hstep : s.step call = some s') : Kept s' := by
 obtain ⟨site, task, -, rfl⟩ | ⟨-, -, -, rfl⟩ | ⟨site, task, queue, -, hidle, hpop, rfl⟩ | ⟨site, microseconds, -, hserved, rfl⟩ :=
  Service.step_cases hstep
 · exact h.push site task
 · exact h
 · exact h.pop hidle hpop
 · exact h.charge hserved microseconds

theorem Kept.run (h : Kept s) {calls : List (Call Site Task)} (hrun : s.run calls = some s') : Kept s' :=
 Service.run_invariant (fun _ _ _ hs hstep => hs.step hstep) h hrun

/-! ## Shares of the time -/

def Backlogged (name : Site) (s : Service Site Task) : Prop := queued s.queue name ≠ [] ∨ s.inService = some name

instance (name : Site) : DecidablePred (Backlogged name : Service Site Task → Prop) := fun s =>
 inferInstanceAs (Decidable (queued s.queue name ≠ [] ∨ s.inService = some name))

def Service.Throughout (P : Service Site Task → Prop) (s : Service Site Task) : List (Call Site Task) → Prop
 | [] => P s
 | call :: calls => P s ∧ ∀ s' ∈ s.step call, s'.Throughout P calls

instance decidableThroughout (P : Service Site Task → Prop) [DecidablePred P] : (s : Service Site Task) →
  (calls : List (Call Site Task)) → Decidable (s.Throughout P calls)
 | s, [] => inferInstanceAs (Decidable (P s))
 | s, call :: calls =>
  have _ : ∀ s', Decidable (Service.Throughout P s' calls) := fun s' => decidableThroughout P s' calls
  inferInstanceAs (Decidable (P s ∧ ∀ s' ∈ s.step call, s'.Throughout P calls))

def totalCharged (name : Site) (charged : List (Site × ℤ)) : ℤ := ((charged.filter fun p => p.1 = name).map Prod.snd).sum

theorem totalCharged_concat (name site : Site) (charged : List (Site × ℤ)) (cost : ℤ) :
  totalCharged name (charged ++ [(site, cost)]) = totalCharged name charged + if name = site then cost else 0 := by
 rw [totalCharged, filter_append, map_append, sum_append, totalCharged]
 by_cases hname : name = site
 · simp [hname]
 · simp [hname, Ne.symm hname]

def startOf (q : MoltDomStorageFairQueue Site Task) (name : Site) : ℤ := ((q.sites.get name).map SiteQueue.start).getD 0

theorem startOf_of_get {name : Site} {state : SiteQueue Task} (h : q.sites.get name = some state) : startOf q name = state.start := by
 rw [startOf, h]
 rfl

theorem Kept.backlogged (h : Kept s) {name : Site} (hwork : Backlogged name s) :
  ∃ state, s.queue.sites.get name = some state ∧ (state.serving || state.ready) = true ∧ s.queue.virtualTime ≤ state.start ∧
   state.start ≤ s.queue.virtualTime + largestCost name s.charged := by
 cases h.sound.standing name with
 | absent record served =>
  cases hwork with
  | inl htasks =>
   rw [queued, record] at htasks
   exact absurd rfl htasks
  | inr hserved => exact absurd hserved served
 | idle state record ready serving tasks finish served =>
  cases hwork with
  | inl htasks => exact absurd ((queued_of_get record).trans tasks) htasks
  | inr hserved => exact absurd hserved served
 | ready state tier order record ready serving tasks served place rests ahead =>
  exact ⟨state, record, by rw [ready, Bool.or_true], ahead, h.near name state record ready⟩
 | inService state record ready serving served place rests now =>
  refine ⟨state, record, by rw [serving, Bool.true_or], now.ge, ?_⟩
  rw [now]
  exact le_add_of_nonneg_right (largestCost_nonneg name s.charged)

theorem Kept.start_step (h : Kept s) {call : Call Site Task} (hstep : s.step call = some s') {name : Site}
  (hwork : Backlogged name s) (hwork' : Backlogged name s') :
  startOf s'.queue name - startOf s.queue name = totalCharged name s'.charged - totalCharged name s.charged := by
 obtain ⟨state, hrecord, hbusy, -, -⟩ := h.backlogged hwork
 have hbefore := startOf_of_get hrecord
 have hsound := h.sound
 obtain ⟨site, task, -, rfl⟩ | ⟨-, -, -, rfl⟩ | ⟨site, task, queue, -, hidle, hpop, rfl⟩ | ⟨site, microseconds, -, hserved, rfl⟩ :=
  Service.step_cases hstep
 · have hafter : startOf (s.queue.push site task) name = state.start := by
    by_cases hname : name = site
    · subst hname
      rw [push_queued hrecord hbusy, startOf, Table.get_insert, if_pos rfl]
      rfl
    · exact startOf_of_get (by rw [push_get _ _ _ _ hname, hrecord])
   dsimp only
   rw [hafter, hbefore, sub_self, sub_self]
 · rw [sub_self, sub_self]
 · have hafter : startOf queue name = state.start := by
    obtain hsame | ⟨hnone, hname, hnil, hnot⟩ := hsound.pop_get hpop name
    · rw [hrecord] at hsame
      rw [startOf, hsame]
      split_ifs <;> rfl
    · exfalso
      cases hwork with
      | inl htasks => exact htasks hnil
      | inr hserved =>
       rw [hidle] at hserved
       cases hserved
   dsimp only
   rw [hafter, hbefore, sub_self, sub_self]
 · rw [hserved] at hsound
   dsimp only
   rw [totalCharged_concat, add_sub_cancel_left]
   by_cases hname : name = site
   · subst hname
     obtain ⟨old, hold, -, hstart, hnew⟩ := hsound.charge_site microseconds
     obtain rfl := Option.some.inj (hrecord.symm.trans hold)
     cases hnew with
     | inl hkept =>
      obtain ⟨-, new, hnew, hstart'⟩ := hkept
      rw [if_pos rfl, startOf_of_get hnew, hstart', hbefore, hstart, add_sub_cancel_left]
     | inr hempty =>
      exfalso
      cases hwork' with
      | inl htasks => exact htasks ((queued_charge _ _ _ _).trans ((queued_of_get hrecord).trans hempty.1))
      | inr hserved' => cases hserved'
   · have hafter := startOf_of_get ((charge_get s.queue site microseconds name hname).trans hrecord)
     rw [if_neg hname, hafter, hbefore, sub_self]

theorem Kept.start_run (h : Kept s) {calls : List (Call Site Task)} (hrun : s.run calls = some s') {name : Site}
  (hwork : s.Throughout (Backlogged name) calls) :
  Backlogged name s ∧ Backlogged name s' ∧
   startOf s'.queue name - startOf s.queue name = totalCharged name s'.charged - totalCharged name s.charged := by
 induction calls generalizing s with
 | nil =>
  obtain rfl := Option.some.inj hrun
  exact ⟨hwork, hwork, by rw [sub_self, sub_self]⟩
 | cons call calls ih =>
  obtain ⟨mid, hstep, hrest⟩ := Service.run_cons.mp hrun
  obtain ⟨hmid, hend, hlater⟩ := ih (h.step hstep) hrest (hwork.2 mid hstep)
  have hfirst := h.start_step hstep hwork.1 hmid
  exact ⟨hwork.1, hend, by linarith⟩

theorem Kept.onward (h : Kept s) {calls : List (Call Site Task)} (hrun : s.run calls = some s') :
  s.queue.virtualTime ≤ s'.queue.virtualTime ∧ (∃ more, s'.charged = s.charged ++ more) ∧ ∃ more, s'.popped = s.popped ++ more := by
 induction calls generalizing s with
 | nil =>
  obtain rfl := Option.some.inj hrun
  exact ⟨le_refl _, ⟨[], (append_nil _).symm⟩, [], (append_nil _).symm⟩
 | cons call calls ih =>
  obtain ⟨mid, hstep, hrest⟩ := Service.run_cons.mp hrun
  obtain ⟨htime, ⟨charged, hcharged⟩, popped, hpopped⟩ := ih (h.step hstep) hrest
  have hsound := h.sound
  obtain ⟨site, task, -, rfl⟩ | ⟨-, -, -, rfl⟩ | ⟨site, task, queue, -, hidle, hpop, rfl⟩ | ⟨site, microseconds, -, hserved, rfl⟩ :=
   Service.step_cases hstep
  · rw [push_virtualTime] at htime
    exact ⟨htime, ⟨charged, hcharged⟩, popped, hpopped⟩
  · exact ⟨htime, ⟨charged, hcharged⟩, popped, hpopped⟩
  · rw [hidle] at hsound
    exact ⟨(hsound.pop hpop).2.trans htime, ⟨charged, hcharged⟩, (site, task) :: popped, by rw [hpopped, append_assoc]; rfl⟩
  · rw [charge_virtualTime] at htime
    exact ⟨htime, ⟨(site, costOf microseconds) :: charged, by rw [hcharged, append_assoc]; rfl⟩, popped, hpopped⟩

/-- Sites that keep working are charged alike, up to a largest task of each. -/
theorem charged_alike (before during : List (Call Site Task)) (s s' : Service Site Task) (site other : Site)
  (hbefore : ({} : Service Site Task).run before = some s) (hduring : s.run during = some s')
  (hsite : s.Throughout (Backlogged site) during) (hother : s.Throughout (Backlogged other) during) :
  |(totalCharged site s'.charged - totalCharged site s.charged) - (totalCharged other s'.charged - totalCharged other s.charged)| ≤
   largestCost site s'.charged + largestCost other s'.charged := by
 have hkept : Kept s := kept_empty.run hbefore
 have hkept' : Kept s' := hkept.run hduring
 obtain ⟨-, ⟨more, hcharged⟩, -⟩ := hkept.onward hduring
 have hbounds : ∀ name, s.Throughout (Backlogged name) during →
   (s'.queue.virtualTime - s.queue.virtualTime) - largestCost name s'.charged ≤ totalCharged name s'.charged - totalCharged name s.charged ∧
    totalCharged name s'.charged - totalCharged name s.charged ≤
     (s'.queue.virtualTime - s.queue.virtualTime) + largestCost name s'.charged := by
  intro name hname
  obtain ⟨hwork, hwork', hmoved⟩ := hkept.start_run hduring hname
  obtain ⟨state, hrecord, -, hlow, hhigh⟩ := hkept.backlogged hwork
  obtain ⟨state', hrecord', -, hlow', hhigh'⟩ := hkept'.backlogged hwork'
  have hlarger : largestCost name s.charged ≤ largestCost name s'.charged := hcharged ▸ largestCost_append name s.charged more
  rw [startOf_of_get hrecord, startOf_of_get hrecord'] at hmoved
  constructor
  · linarith
  · linarith
 obtain ⟨hlow, hhigh⟩ := hbounds site hsite
 obtain ⟨hlow', hhigh'⟩ := hbounds other hother
 rw [abs_le]
 constructor
 · linarith
 · linarith

theorem charged_alike_two : ∃ s s' : Service ℕ ℕ,
  ({} : Service ℕ ℕ).run [.push 1 10, .push 1 11, .push 1 12, .push 2 20, .push 2 21] = some s ∧
   s.run [.pop, .charge 7, .pop, .charge 2, .pop] = some s' ∧
   |(totalCharged 1 s'.charged - totalCharged 1 s.charged) - (totalCharged 2 s'.charged - totalCharged 2 s.charged)| ≤
    largestCost 1 s'.charged + largestCost 2 s'.charged := by
 have hrun : (({} : Service ℕ ℕ).run [.push 1 10, .push 1 11, .push 1 12, .push 2 20, .push 2 21]).isSome = true := by decide
 have hmore : ((({} : Service ℕ ℕ).run [.push 1 10, .push 1 11, .push 1 12, .push 2 20, .push 2 21]).bind fun s =>
   s.run [.pop, .charge 7, .pop, .charge 2, .pop]).isSome = true := by decide
 have hwork : ∀ s ∈ ({} : Service ℕ ℕ).run [.push 1 10, .push 1 11, .push 1 12, .push 2 20, .push 2 21],
   s.Throughout (Backlogged 1) [.pop, .charge 7, .pop, .charge 2, .pop] ∧
    s.Throughout (Backlogged 2) [.pop, .charge 7, .pop, .charge 2, .pop] := by decide
 obtain ⟨s, hs⟩ := Option.isSome_iff_exists.mp hrun
 rw [hs, Option.bind_some] at hmore
 obtain ⟨s', hs'⟩ := Option.isSome_iff_exists.mp hmore
 exact ⟨s, s', hs, hs', charged_alike _ _ s s' 1 2 hs hs' (hwork s hs).1 (hwork s hs).2⟩

/-! ## A site that comes from idle -/

variable {e : Place Site}

theorem push_ready (h : e ∈ (q.push site task).ready) :
  e ∈ q.ready ∨ q.virtualTime ≤ e.start ∧ e.tier = wasIdle ∧ e.order = q.nextOrder := by
 rw [push] at h
 dsimp only at h
 split_ifs at h
 · exact .inl h
 · rw [makeReady, Finset.mem_insert] at h
   cases h with
   | inl heq => exact heq ▸ .inr ⟨le_max_right _ _, rfl, rfl⟩
   | inr hold => exact .inl hold

theorem ready_push (h : e ∈ q.ready) (site : Site) (task : Task) : e ∈ (q.push site task).ready := by
 rw [push]
 dsimp only
 split_ifs
 · exact h
 · exact Finset.mem_insert_of_mem h

theorem Sound.charge_ready (h : Sound q (some site) finished) {microseconds : ℤ}
  (he : e ∈ (q.charge site microseconds).ready) : e ∈ q.ready ∨ q.virtualTime < e.start := by
 obtain ⟨state, hrecord, hserving, hstart, -⟩ := h.charge_site microseconds
 rw [MoltDomStorageFairQueue.charge, hrecord] at he
 dsimp only at he
 rw [hserving, if_neg (by decide)] at he
 split_ifs at he
 · rw [makeReady, Finset.mem_insert] at he
   cases he with
   | inl heq =>
    right
    rw [heq]
    exact hstart ▸ lt_add_of_pos_right _ (costOf_pos microseconds)
   | inr hold => exact .inl hold
 · exact .inl he
 · exact .inl he

theorem ready_charge (h : e ∈ q.ready) (site : Site) (microseconds : ℤ) : e ∈ (q.charge site microseconds).ready := by
 rw [MoltDomStorageFairQueue.charge]
 cases q.sites.get site with
 | none => exact h
 | some state =>
  dsimp only
  split_ifs
  · exact h
  · exact Finset.mem_insert_of_mem h
  · exact h
  · exact h

def fromIdle (q : MoltDomStorageFairQueue Site Task) : Finset Site :=
 (q.ready.filter fun e => e.tier = wasIdle ∧ e.start = q.virtualTime).image Place.name

/-- Before the site's task other tasks are popped of these sites only, one of each. -/
structure NextAfter (ahead : Finset Site) (site : Site) (task : Task) (pops : List (Site × Task)) : Prop where
 once : ((pops.takeWhile fun p => p.1 ≠ site).map Prod.fst).Nodup
 ahead : ∀ p ∈ pops.takeWhile fun p => p.1 ≠ site, p.1 ∈ ahead
 popped : ∀ p, (pops.dropWhile fun p => p.1 ≠ site).head? = some p → p = (site, task)

/-- The task waits, with `place` for its site's. -/
structure Waits (q₀ : MoltDomStorageFairQueue Site Task) (e₀ : Place Site) (task : Task) (s : Service Site Task) (pops : List (Site × Task)) :
  Prop where
 place : e₀ ∈ s.queue.ready
 tier : e₀.tier = wasIdle
 start : e₀.start = q₀.virtualTime
 now : s.queue.virtualTime = q₀.virtualTime
 head : (queued s.queue e₀.name).head? = some task
 others : ∀ p ∈ pops, p.1 ≠ e₀.name
 once : (pops.map Prod.fst).Nodup
 ahead : ∀ p ∈ pops, p.1 ∈ fromIdle q₀
 before : ∀ e ∈ s.queue.ready, e < e₀ → e ∈ q₀.ready ∧ e.name ∉ pops.map Prod.fst

variable {pops : List (Site × Task)}

theorem takeWhile_others (h : ∀ p ∈ pops, p.1 ≠ site) (task : Task) (more : List (Site × Task)) :
  (pops ++ (site, task) :: more).takeWhile (fun p => p.1 ≠ site) = pops ∧
   (pops ++ (site, task) :: more).dropWhile (fun p => p.1 ≠ site) = (site, task) :: more := by
 have hall : ∀ p ∈ pops, decide (p.1 ≠ site) = true := fun p hp => decide_eq_true (h p hp)
 rw [takeWhile_append_of_pos hall, dropWhile_append_of_pos hall]
 simp

variable {q₀ : MoltDomStorageFairQueue Site Task} {e₀ : Place Site}

theorem Waits.nextAfter
  (h : Waits q₀ e₀ task s pops) : NextAfter (fromIdle q₀) e₀.name task pops := by
 have hall : ∀ p ∈ pops, decide (p.1 ≠ e₀.name) = true := fun p hp => decide_eq_true (h.others p hp)
 have htake : pops.takeWhile (fun p => p.1 ≠ e₀.name) = pops := takeWhile_eq_self_iff.mpr hall
 have hdrop : pops.dropWhile (fun p => p.1 ≠ e₀.name) = [] := dropWhile_eq_nil_iff.mpr hall
 refine ⟨?_, ?_, fun p hp => ?_⟩
 · rw [htake]
   exact h.once
 · rw [htake]
   exact h.ahead
 · rw [hdrop] at hp
   cases hp

theorem Waits.step
  (h : Waits q₀ e₀ task s pops) (hkept : Kept s) {call : Call Site Task} (hstep : s.step call = some s') :
  (s'.popped = s.popped ∧ Waits q₀ e₀ task s' pops) ∨
  ∃ p, s'.popped = s.popped ++ [p] ∧ (p = (e₀.name, task) ∨ Waits q₀ e₀ task s' (pops ++ [p])) := by
 have hsound := hkept.sound
 have horder := hsound.order e₀ h.place
 obtain ⟨site, other, -, rfl⟩ | ⟨-, -, -, rfl⟩ | ⟨site, other, queue, -, hidle, hpop, rfl⟩ | ⟨site, microseconds, -, hserved, rfl⟩ :=
  Service.step_cases hstep
 · refine .inl ⟨rfl, ready_push h.place site other, h.tier, h.start, (push_virtualTime _ _ _).trans h.now, ?_, h.others, h.once, h.ahead,
    fun e he hlt => ?_⟩
   · rw [queued_push, head?_append, h.head]
     rfl
   · obtain hold | ⟨hstart, htier, hlast⟩ := push_ready he
     · exact h.before e hold hlt
     · rw [place_lt, h.start, ← h.now, h.tier, htier] at hlt
       omega
 · exact .inl ⟨rfl, h⟩
 · rw [hidle] at hsound
   have hqueued := hsound.queued_pop hpop e₀.name
   obtain ⟨e, state, tasks, he, hleast, rfl, hrecord, htasks, rfl⟩ := pop_some hpop
   obtain ⟨-, -, -, htime, -, honly, -⟩ := hsound.first_standing he
   refine .inr ⟨(e.name, other), rfl, ?_⟩
   cases (hleast e₀ h.place).eq_or_lt with
   | inl heq =>
    left
    rw [heq, if_pos rfl] at hqueued
    have hhead := h.head
    rw [hqueued] at hhead
    rw [heq, Option.some.inj hhead]
   | inr hlt =>
    right
    obtain ⟨hold, hnew⟩ := h.before e he hlt
    have hname : e₀.name ≠ e.name := fun heq => hlt.ne (honly e₀ h.place heq).symm
    have hsame : e.start = q₀.virtualTime ∧ e.tier = wasIdle := by
     have hnow := h.now
     rw [place_lt, h.start, h.tier] at hlt
     rw [wasIdle] at hlt ⊢
     omega
    rw [if_neg hname, nil_append] at hqueued
    refine ⟨Finset.mem_erase.mpr ⟨fun heq => hname (heq ▸ rfl), h.place⟩, h.tier, h.start, hsame.1, hqueued ▸ h.head, ?_, ?_, ?_, ?_⟩
    · intro p hp
      cases mem_append.mp hp with
      | inl hmem => exact h.others p hmem
      | inr hlast => exact mem_singleton.mp hlast ▸ hname.symm
    · rw [map_append]
      refine h.once.append (nodup_singleton _) fun name hmem hlast => ?_
      have heq : name = e.name := mem_singleton.mp hlast
      exact hnew (heq ▸ hmem)
    · intro p hp
      cases mem_append.mp hp with
      | inl hmem => exact h.ahead p hmem
      | inr hlast =>
       rw [mem_singleton.mp hlast]
       exact Finset.mem_image_of_mem _ (Finset.mem_filter.mpr ⟨hold, hsame.2, hsame.1⟩)
    · intro e' he' hlt'
      obtain ⟨hold', hnew'⟩ := h.before e' (Finset.mem_of_mem_erase he') hlt'
      refine ⟨hold', fun hmem => ?_⟩
      rw [map_append, mem_append] at hmem
      cases hmem with
      | inl hbefore => exact hnew' hbefore
      | inr hlast =>
       exact Finset.ne_of_mem_erase he' (honly e' (Finset.mem_of_mem_erase he') (mem_singleton.mp hlast))
 · rw [hserved] at hsound
   refine .inl ⟨rfl, ready_charge h.place site microseconds, h.tier, h.start, (charge_virtualTime _ _ _).trans h.now, ?_, h.others,
    h.once, h.ahead, fun e he hlt => ?_⟩
   · rw [queued_charge]
     exact h.head
   · obtain hold | hlater := hsound.charge_ready he
     · exact h.before e hold hlt
     · have hnow := h.now
       rw [place_lt, h.start] at hlt
       omega

theorem Waits.run
  (h : Waits q₀ e₀ task s pops) (hkept : Kept s) {calls : List (Call Site Task)} (hrun : s.run calls = some s') :
  ∃ more, s'.popped = s.popped ++ more ∧ NextAfter (fromIdle q₀) e₀.name task (pops ++ more) := by
 induction calls generalizing s pops with
 | nil =>
  obtain rfl := Option.some.inj hrun
  refine ⟨[], (append_nil _).symm, ?_⟩
  rw [append_nil]
  exact h.nextAfter
 | cons call calls ih =>
  obtain ⟨mid, hstep, hrest⟩ := Service.run_cons.mp hrun
  obtain ⟨hsame, hwaits⟩ | ⟨p, hpopped, hnext⟩ := h.step hkept hstep
  · rw [← hsame]
    exact ih hwaits (hkept.step hstep) hrest
  · cases hnext with
    | inl hserved =>
     obtain ⟨-, -, more, hmore⟩ := (hkept.step hstep).onward hrest
     refine ⟨p :: more, by rw [hmore, hpopped, append_assoc]; rfl, ?_⟩
     obtain ⟨htake, hdrop⟩ := takeWhile_others h.others task more
     rw [hserved]
     refine ⟨?_, ?_, fun p' hp' => ?_⟩
     · rw [htake]
       exact h.once
     · rw [htake]
       exact h.ahead
     · rw [hdrop] at hp'
       exact (Option.some.inj hp').symm
    | inr hwaits =>
     obtain ⟨more, hmore, hnext⟩ := ih hwaits (hkept.step hstep) hrest
     refine ⟨p :: more, by rw [hmore, hpopped, append_assoc]; rfl, ?_⟩
     rw [append_assoc] at hnext
     exact hnext

theorem Kept.waits (h : Kept s) (hqueued : queued s.queue site = [])
  (hserved : s.inService ≠ some site) (hfinished : s.finished site ≤ s.queue.virtualTime) (task : Task) :
  ∃ order, Waits s.queue (place s.queue.virtualTime wasIdle order site) task
   { s with queue := s.queue.push site task, pushed := s.pushed ++ [(site, task)] } [] := by
 have hfresh : (((s.queue.sites.get site).getD {}).serving || ((s.queue.sites.get site).getD {}).ready) = false ∧
   max ((s.queue.sites.get site).getD {}).finish s.queue.virtualTime = s.queue.virtualTime := by
  cases h.sound.standing site with
  | absent record =>
   rw [record]
   exact ⟨rfl, max_eq_right h.time⟩
  | idle state record ready serving tasks finish served place rests ahead => exact absurd ahead (not_lt.mpr hfinished)
  | ready state tier order record ready serving tasks => exact absurd ((queued_of_get record).symm.trans hqueued) tasks
  | inService state record ready serving served => exact absurd served hserved
 refine ⟨s.queue.nextOrder, ?_⟩
 have hpush := push_idle (q := s.queue) task hfresh.1
 rw [hfresh.2] at hpush
 refine ⟨?_, rfl, rfl, push_virtualTime _ _ _, ?_, by simp, nodup_nil, by simp, fun e he hlt => ⟨?_, not_mem_nil⟩⟩
 · dsimp only
   rw [hpush]
   exact Finset.mem_insert_self _ _
 · have hhead : (queued (s.queue.push site task) site).head? = some task := by
    rw [queued_push, hqueued, if_pos rfl]
    rfl
   exact hhead
 · dsimp only at he
   rw [hpush, makeReady, Finset.mem_insert] at he
   cases he with
   | inl heq => exact absurd hlt (heq ▸ lt_irrefl _)
   | inr hold => exact hold

/-- In every run each task pushed is popped once at most, in its site's order, and none that is
queued is forgotten; the virtual time goes on; and the task of a site that comes from idle is next
but for one task of each site that became ready from idle at the same virtual time. -/
theorem queue_fair (calls : List (Call Site Task)) (s : Service Site Task) (hrun : ({} : Service Site Task).run calls = some s) :
  (∀ name, tasksOf name s.popped ++ queued s.queue name = tasksOf name s.pushed) ∧
  (∀ name, queued s.queue name ≠ [] → s.inService = some name ∨ ∃ e ∈ s.queue.ready, e.name = name) ∧
  (s.inService = none → s.queue.pop = none → ∀ name, queued s.queue name = []) ∧
  (∀ more s', s.run more = some s' → s.queue.virtualTime ≤ s'.queue.virtualTime) ∧
  ∀ site task more s', queued s.queue site = [] → s.inService ≠ some site → s.finished site ≤ s.queue.virtualTime →
   s.run (.push site task :: more) = some s' →
    ∃ pops, s'.popped = s.popped ++ pops ∧ NextAfter (fromIdle s.queue) site task pops := by
 have hkept : Kept s := kept_empty.run hrun
 have hready : ∀ name, queued s.queue name ≠ [] → s.inService = some name ∨ ∃ e ∈ s.queue.ready, e.name = name := by
  intro name hqueued
  cases hkept.sound.standing name with
  | absent record =>
   rw [queued, record] at hqueued
   exact absurd rfl hqueued
  | idle state record ready serving tasks => exact absurd ((queued_of_get record).trans tasks) hqueued
  | ready state tier order record ready serving tasks served place => exact .inr ⟨_, (place _).mpr rfl⟩
  | inService state record ready serving served => exact .inl served
 refine ⟨hkept.tasks, hready, fun hidle hpop name => ?_, fun more s' hmore => (hkept.onward hmore).1, ?_⟩
 · by_contra hqueued
   cases hready name hqueued with
   | inl hserved =>
    rw [hidle] at hserved
    cases hserved
   | inr hplace =>
    obtain ⟨e, he, -⟩ := hplace
    rw [hkept.sound.pop_none hpop] at he
    exact Finset.notMem_empty e he
 · intro site task more s' hqueued hserved hfinished hmore
   obtain ⟨mid, hstep, hrest⟩ := Service.run_cons.mp hmore
   obtain rfl := Option.some.inj hstep
   obtain ⟨order, hwaits⟩ := hkept.waits hqueued hserved hfinished task
   exact hwaits.run (hkept.push site task) hrest

theorem queue_fair_three : ∃ s s' : Service ℕ ℕ,
  ({} : Service ℕ ℕ).run [.push 1 10, .push 1 11, .push 2 20, .pop] = some s ∧
   s.run [.push 3 30, .charge 5, .pop, .charge 1, .pop] = some s' ∧
   ∃ pops, s'.popped = s.popped ++ pops ∧ NextAfter (fromIdle s.queue) 3 30 pops := by
 have hrun : (({} : Service ℕ ℕ).run [.push 1 10, .push 1 11, .push 2 20, .pop]).isSome = true := by decide
 have hmore : ((({} : Service ℕ ℕ).run [.push 1 10, .push 1 11, .push 2 20, .pop]).bind fun s =>
   s.run [.push 3 30, .charge 5, .pop, .charge 1, .pop]).isSome = true := by decide
 have hidle : ∀ s ∈ ({} : Service ℕ ℕ).run [.push 1 10, .push 1 11, .push 2 20, .pop],
   queued s.queue 3 = [] ∧ s.inService ≠ some 3 ∧ s.finished 3 ≤ s.queue.virtualTime := by decide
 obtain ⟨s, hs⟩ := Option.isSome_iff_exists.mp hrun
 rw [hs, Option.bind_some] at hmore
 obtain ⟨s', hs'⟩ := Option.isSome_iff_exists.mp hmore
 obtain ⟨hqueued, hserved, hfinished⟩ := hidle s hs
 exact ⟨s, s', hs, hs', (queue_fair _ s hs).2.2.2.2 3 30 _ s' hqueued hserved hfinished hs'⟩

end MoltBrowser.FairQueue
