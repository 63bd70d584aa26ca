import MoltBrowser.SortedTable
import MoltBrowser.Unwinding
import Mathlib.Data.Multiset.AddSub
import Mathlib.Data.Finset.Basic
import Mathlib.Data.Int.Order.Basic

set_option autoImplicit false

/-! # Background fetches of each site -/
namespace MoltBrowser.BackgroundFetchSites
open SortedTable Unwinding

def activePerSite : ℕ := 2
def runningPerSite : ℤ := 2
def runningFloor : ℤ := 64 * runningPerSite

def beyondFloor (totalRunning : ℤ) : Bool := totalRunning > runningFloor

variable {Id Key Site : Type}

structure Registration (Id Key : Type) where
 id : Id
 key : Key
 deriving DecidableEq

/-- The active registrations are in the order in which their next request starts. -/
structure SiteState (Id Key : Type) where
 pending : List (Registration Id Key) := []
 active : List (Registration Id Key) := []
 activeKeys : Multiset Key := 0
 running : ℤ := 0
 deriving DecidableEq

def SiteState.ids (state : SiteState Id Key) : List Id := (state.pending ++ state.active).map Registration.id

section Lists

variable [DecidableEq Id] [DecidableEq Key]

/-- The pending registrations that become active while there is room, one per key; those left, the active ones and their keys. -/
def activating : List (Registration Id Key) → List (Registration Id Key) → Multiset Key →
  List Id × List (Registration Id Key) × List (Registration Id Key) × Multiset Key
 | [], active, keys => ([], [], active, keys)
 | p :: pending, active, keys =>
  if active.length < activePerSite then
   if p.key ∈ keys then
    let (ids, left, active, keys) := activating pending active keys
    (ids, p :: left, active, keys)
   else
    let (ids, left, active, keys) := activating pending (active ++ [p]) (p.key ::ₘ keys)
    (p.id :: ids, left, active, keys)
  else ([], p :: pending, active, keys)

def takeNext (hasMore : Id → Bool) : List (Registration Id Key) → Option (Registration Id Key × List (Registration Id Key))
 | [] => none
 | r :: rest => if hasMore r.id then some (r, rest) else (takeNext hasMore rest).map fun (next, others) => (next, r :: others)

end Lists

variable (Id Key Site) in
structure MoltBackgroundFetchSites [LinearOrder Id] [LinearOrder Site] where
 sites : Table Site (SiteState Id Key) := .empty
 owners : Table Id Site := .empty
 totalRunning : ℤ := 0

variable [LinearOrder Id] [LinearOrder Site]

namespace MoltBackgroundFetchSites

variable [DecidableEq Key] (s : MoltBackgroundFetchSites Id Key Site)

def get (site : Site) : SiteState Id Key := (s.sites.get site).getD {}

def dropIfEmpty (site : Site) (state : SiteState Id Key) : Table Site (SiteState Id Key) :=
 if state.pending = [] ∧ state.active = [] ∧ state.running = 0 then s.sites.erase site else s.sites.insert site state

def addPending (site : Site) (id : Id) (key : Key) : MoltBackgroundFetchSites Id Key Site :=
 if (s.owners.get id).isSome then s
 else
  let state := s.get site
  { s with
    sites := s.sites.insert site { state with pending := state.pending ++ [{ id, key }] }
    owners := s.owners.insert id site }

def addActive (site : Site) (id : Id) (key : Key) : MoltBackgroundFetchSites Id Key Site :=
 if (s.owners.get id).isSome then s
 else
  let state := s.get site
  { s with
    sites := s.sites.insert site { state with active := state.active ++ [{ id, key }], activeKeys := key ::ₘ state.activeKeys }
    owners := s.owners.insert id site }

def activate (site : Site) : List Id × MoltBackgroundFetchSites Id Key Site :=
 match s.sites.get site with
 | none => ([], s)
 | some state =>
  let (activated, pending, active, activeKeys) := activating state.pending state.active state.activeKeys
  (activated, { s with sites := s.sites.insert site { state with pending, active, activeKeys } })

def nextToStart (site : Site) (hasMore : Id → Bool) : Option Id × MoltBackgroundFetchSites Id Key Site :=
 match s.sites.get site with
 | none => (none, s)
 | some state =>
  if state.running ≥ runningPerSite then (none, s)
  else
   match takeNext hasMore state.active with
   | none => (none, s)
   | some (next, others) => (some next.id, { s with sites := s.sites.insert site { state with active := others ++ [next] } })

def started (site : Site) (count : ℤ) : Bool × MoltBackgroundFetchSites Id Key Site :=
 if count ≤ 0 then (false, s)
 else
  let state := s.get site
  let totalRunning := s.totalRunning + count
  (beyondFloor totalRunning, { s with sites := s.sites.insert site { state with running := state.running + count }, totalRunning })

def finished (site : Site) (count : ℤ) : MoltBackgroundFetchSites Id Key Site :=
 match s.sites.get site with
 | none => s
 | some state =>
  if count ≤ 0 then s
  else
   let stopped := if count < state.running then count else state.running
   { s with
     sites := s.dropIfEmpty site { state with running := state.running - stopped }
     totalRunning := s.totalRunning - stopped }

def remove (id : Id) : MoltBackgroundFetchSites Id Key Site :=
 match s.owners.get id with
 | none => s
 | some owner =>
  let owners := s.owners.erase id
  match s.sites.get owner with
  | none => { s with owners }
  | some state =>
   if state.pending.any fun p => p.id = id then
    { s with owners, sites := s.dropIfEmpty owner { state with pending := state.pending.eraseP fun p => p.id = id } }
   else
    match state.active.find? fun a => a.id = id with
    | none => { s with owners }
    | some a =>
     { s with
       owners
       sites := s.dropIfEmpty owner
        { state with active := state.active.eraseP fun a => a.id = id, activeKeys := state.activeKeys.erase a.key } }

def siteOf (id : Id) : Option Site := s.owners.get id

end MoltBackgroundFetchSites

/-! ## Calls -/

/-- As the scheduler does, `start` calls `nextToStart` and then `started` for what it gives. -/
inductive Call (Id Key Site : Type) where
 | addPending (id : Id) (key : Key)
 | addActive (id : Id) (key : Key)
 | activate (site : Site)
 | nextToStart (site : Site) (hasMore : Id → Bool)
 | start (site : Site) (hasMore : Id → Bool)
 | started (site : Site) (count : ℤ)
 | finished (site : Site) (count : ℤ)
 | remove (id : Id)
 | siteOf (id : Id)

inductive Answer (Id Site : Type) where
 | nothing
 | ids (ids : List Id)
 | next (id : Option Id)
 | valve (beyond : Bool)
 | owner (site : Option Site)
 deriving DecidableEq

def Call.site (siteOf : Id → Site) : Call Id Key Site → Site
 | addPending id _ | addActive id _ | remove id | .siteOf id => siteOf id
 | activate site | nextToStart site _ | start site _ | started site _ | finished site _ => site

def call [DecidableEq Key] (siteOf : Id → Site) (s : MoltBackgroundFetchSites Id Key Site) : Call Id Key Site → Answer Id Site × MoltBackgroundFetchSites Id Key Site
 | .addPending id key => (.nothing, s.addPending (siteOf id) id key)
 | .addActive id key => (.nothing, s.addActive (siteOf id) id key)
 | .activate site =>
  let (activated, s) := s.activate site
  (.ids activated, s)
 | .nextToStart site hasMore =>
  let (next, s) := s.nextToStart site hasMore
  (.next next, s)
 | .start site hasMore =>
  match s.nextToStart site hasMore with
  | (none, s) => (.next none, s)
  | (some id, s) => (.next (some id), (s.started site 1).2)
 | .started site count =>
  let (beyond, s) := s.started site count
  (.valve beyond, s)
 | .finished site count => (.nothing, s.finished site count)
 | .remove id => (.nothing, s.remove id)
 | .siteOf id => (.owner (s.siteOf id), s)

def Answer.seen : Answer Id Site → Answer Id Site
 | valve _ => nothing
 | answer => answer

variable {s t : MoltBackgroundFetchSites Id Key Site} {siteOf : Id → Site} {site : Site}

/-! ## Sites apart -/

theorem get_dropIfEmpty (s : MoltBackgroundFetchSites Id Key Site) (owner : Site) (state : SiteState Id Key) (k : Site) :
  (s.dropIfEmpty owner state).get k =
   if k = owner then if state.pending = [] ∧ state.active = [] ∧ state.running = 0 then none else some state
   else s.sites.get k := by
 rw [MoltBackgroundFetchSites.dropIfEmpty]
 split_ifs with hempty hk hk
 · rw [Table.get_erase, if_pos hk]
 · rw [Table.get_erase, if_neg hk]
 · rw [Table.get_insert, if_pos hk]
 · rw [Table.get_insert, if_neg hk]

variable (siteOf) in
def Named (s : MoltBackgroundFetchSites Id Key Site) : Prop := ∀ id owner, s.owners.get id = some owner → owner = siteOf id

theorem Named.insert (h : Named siteOf s) (id : Id) (sites : Table Site (SiteState Id Key)) (totalRunning : ℤ) :
  Named siteOf { sites, owners := s.owners.insert id (siteOf id), totalRunning } := by
 intro id' owner howner
 dsimp only at howner
 rw [Table.get_insert] at howner
 split_ifs at howner with heq
 · cases howner
   rw [heq]
 · exact h id' owner howner

theorem Named.erase (h : Named siteOf s) (id : Id) (sites : Table Site (SiteState Id Key)) (totalRunning : ℤ) :
  Named siteOf { sites, owners := s.owners.erase id, totalRunning } := by
 intro id' owner howner
 dsimp only at howner
 rw [Table.get_erase] at howner
 split_ifs at howner
 exact h id' owner howner

/-- A call leaves the record of another site and the owner of another site's id as they are. -/
structure Apart (siteOf : Id → Site) (own : Site) (s s' : MoltBackgroundFetchSites Id Key Site) : Prop where
 named : Named siteOf s'
 sites : ∀ site, site ≠ own → s'.sites.get site = s.sites.get site
 owners : ∀ id, siteOf id ≠ own → s'.owners.get id = s.owners.get id

theorem Apart.refl (h : Named siteOf s) (own : Site) : Apart siteOf own s s := ⟨h, fun _ _ => rfl, fun _ _ => rfl⟩

theorem Apart.insert (h : Named siteOf s) (own : Site) (state : SiteState Id Key) (totalRunning : ℤ) :
  Apart siteOf own s { s with sites := s.sites.insert own state, totalRunning } :=
 ⟨h, fun _ hne => (Table.get_insert _ _ _ _).trans (if_neg hne), fun _ _ => rfl⟩

theorem Apart.register (h : Named siteOf s) (id : Id) (state : SiteState Id Key) :
  Apart siteOf (siteOf id) s { s with sites := s.sites.insert (siteOf id) state, owners := s.owners.insert id (siteOf id) } := by
 refine ⟨h.insert id _ _, fun _ hne => (Table.get_insert _ _ _ _).trans (if_neg hne), fun id' hne => ?_⟩
 refine (Table.get_insert _ _ _ _).trans (if_neg ?_)
 rintro rfl
 exact hne rfl

theorem Apart.drop (h : Named siteOf s) (own : Site) (state : SiteState Id Key) (totalRunning : ℤ) :
  Apart siteOf own s { s with sites := s.dropIfEmpty own state, totalRunning } :=
 ⟨h, fun _ hne => (get_dropIfEmpty _ _ _ _).trans (if_neg hne), fun _ _ => rfl⟩

theorem Apart.unregister (h : Named siteOf s) (id : Id) {sites : Table Site (SiteState Id Key)}
  (hsites : ∀ site, site ≠ siteOf id → sites.get site = s.sites.get site) :
  Apart siteOf (siteOf id) s { s with sites, owners := s.owners.erase id } := by
 refine ⟨h.erase id _ _, hsites, fun id' hne => ?_⟩
 refine (Table.get_erase _ _ _).trans (if_neg ?_)
 rintro rfl
 exact hne rfl

theorem Apart.trans {own : Site} {s' s'' : MoltBackgroundFetchSites Id Key Site} (h : Apart siteOf own s s') (h' : Apart siteOf own s' s'') :
  Apart siteOf own s s'' :=
 ⟨h'.named, fun site hne => (h'.sites site hne).trans (h.sites site hne), fun id hne => (h'.owners id hne).trans (h.owners id hne)⟩

theorem Apart.started (h : Named siteOf s) (site : Site) (count : ℤ) : Apart siteOf site s (s.started site count).2 := by
 rw [MoltBackgroundFetchSites.started]
 split_ifs
 · exact .refl h _
 · exact .insert h site _ _

theorem Apart.nextToStart (h : Named siteOf s) (site : Site) (hasMore : Id → Bool) : Apart siteOf site s (s.nextToStart site hasMore).2 := by
 rw [MoltBackgroundFetchSites.nextToStart]
 cases s.sites.get site with
 | none => exact .refl h _
 | some state =>
  dsimp only
  split_ifs
  · exact .refl h _
  · cases takeNext hasMore state.active with
    | none => exact .refl h _
    | some next => exact .insert h site _ _

variable [DecidableEq Key]

theorem Apart.remove (h : Named siteOf s) (id : Id) : Apart siteOf (siteOf id) s (s.remove id) := by
 rw [MoltBackgroundFetchSites.remove]
 cases howner : s.owners.get id with
 | none => exact .refl h _
 | some owner =>
  obtain rfl := h id owner howner
  dsimp only
  cases s.sites.get (siteOf id) with
  | none => exact .unregister h id fun _ _ => rfl
  | some state =>
   dsimp only
   split_ifs
   · exact .unregister h id fun _ hne => (get_dropIfEmpty _ _ _ _).trans (if_neg hne)
   · cases state.active.find? fun a => a.id = id with
     | none => exact .unregister h id fun _ _ => rfl
     | some a => exact .unregister h id fun _ hne => (get_dropIfEmpty _ _ _ _).trans (if_neg hne)

theorem Apart.call (h : Named siteOf s) (c : Call Id Key Site) : Apart siteOf (c.site siteOf) s (call siteOf s c).2 := by
 cases c with
 | addPending id key =>
  rw [BackgroundFetchSites.call, MoltBackgroundFetchSites.addPending]
  split_ifs
  · exact .refl h _
  · exact .register h id _
 | addActive id key =>
  rw [BackgroundFetchSites.call, MoltBackgroundFetchSites.addActive]
  split_ifs
  · exact .refl h _
  · exact .register h id _
 | activate site =>
  rw [BackgroundFetchSites.call, MoltBackgroundFetchSites.activate]
  cases s.sites.get site with
  | none => exact .refl h _
  | some state => exact .insert h site _ _
 | nextToStart site hasMore => exact .nextToStart h site hasMore
 | start site hasMore =>
  have hnext := Apart.nextToStart h site hasMore
  rw [BackgroundFetchSites.call]
  cases hget : s.nextToStart site hasMore with
  | mk next s' =>
   rw [hget] at hnext
   cases next with
   | none => exact hnext
   | some id => exact hnext.trans (.started hnext.named site 1)
 | started site count => exact .started h site count
 | finished site count =>
  rw [BackgroundFetchSites.call, MoltBackgroundFetchSites.finished]
  cases s.sites.get site with
  | none => exact .refl h _
  | some state =>
   dsimp only
   split_ifs
   · exact .refl h _
   · exact .drop h site _ _
   · exact .drop h site _ _
 | remove id => exact .remove h id
 | siteOf id => exact .refl h _

variable (siteOf site) in
structure Alike (s t : MoltBackgroundFetchSites Id Key Site) : Prop where
 named : Named siteOf s
 named' : Named siteOf t
 sites : s.sites.get site = t.sites.get site
 owners : ∀ id, siteOf id = site → s.owners.get id = t.owners.get id

omit [DecidableEq Key] in
theorem Alike.insert (h : Alike siteOf site s t) (state : SiteState Id Key) (totalRunning totalRunning' : ℤ) :
  Alike siteOf site { s with sites := s.sites.insert site state, totalRunning }
   { t with sites := t.sites.insert site state, totalRunning := totalRunning' } :=
 ⟨h.named, h.named', by dsimp only; rw [Table.get_insert, Table.get_insert, if_pos rfl, if_pos rfl], h.owners⟩

omit [DecidableEq Key] in
theorem Alike.register {id : Id} (h : Alike siteOf (siteOf id) s t) (state : SiteState Id Key) :
  Alike siteOf (siteOf id) { s with sites := s.sites.insert (siteOf id) state, owners := s.owners.insert id (siteOf id) }
   { t with sites := t.sites.insert (siteOf id) state, owners := t.owners.insert id (siteOf id) } where
 named := h.named.insert id _ _
 named' := h.named'.insert id _ _
 sites := by
  dsimp only
  rw [Table.get_insert, Table.get_insert, if_pos rfl, if_pos rfl]
 owners id' hid := by
  dsimp only
  rw [Table.get_insert, Table.get_insert, h.owners id' hid]

omit [DecidableEq Key] in
theorem Alike.drop (h : Alike siteOf site s t) (state : SiteState Id Key) (totalRunning totalRunning' : ℤ) :
  Alike siteOf site { s with sites := s.dropIfEmpty site state, totalRunning }
   { t with sites := t.dropIfEmpty site state, totalRunning := totalRunning' } :=
 ⟨h.named, h.named', by dsimp only; rw [get_dropIfEmpty, get_dropIfEmpty, if_pos rfl, if_pos rfl], h.owners⟩

omit [DecidableEq Key] in
theorem Alike.unregister {id : Id} (h : Alike siteOf (siteOf id) s t) {sites sites' : Table Site (SiteState Id Key)}
  (hsites : sites.get (siteOf id) = sites'.get (siteOf id)) :
  Alike siteOf (siteOf id) { s with sites, owners := s.owners.erase id } { t with sites := sites', owners := t.owners.erase id } where
 named := h.named.erase id _ _
 named' := h.named'.erase id _ _
 sites := hsites
 owners id' hid := by
  dsimp only
  rw [Table.get_erase, Table.get_erase, h.owners id' hid]

omit [DecidableEq Key] in
theorem Alike.started (h : Alike siteOf site s t) (count : ℤ) : Alike siteOf site (s.started site count).2 (t.started site count).2 := by
 rw [MoltBackgroundFetchSites.started, MoltBackgroundFetchSites.started, MoltBackgroundFetchSites.get, MoltBackgroundFetchSites.get, ← h.sites]
 split_ifs
 · exact h
 · exact h.insert _ _ _

omit [DecidableEq Key] in
theorem Alike.nextToStart (h : Alike siteOf site s t) (hasMore : Id → Bool) :
  (s.nextToStart site hasMore).1 = (t.nextToStart site hasMore).1 ∧
   Alike siteOf site (s.nextToStart site hasMore).2 (t.nextToStart site hasMore).2 := by
 rw [MoltBackgroundFetchSites.nextToStart, MoltBackgroundFetchSites.nextToStart, ← h.sites]
 cases s.sites.get site with
 | none => exact ⟨rfl, h⟩
 | some state =>
  dsimp only
  split_ifs
  · exact ⟨rfl, h⟩
  · cases takeNext hasMore state.active with
    | none => exact ⟨rfl, h⟩
    | some next => exact ⟨rfl, h.insert _ _ _⟩

theorem Alike.remove {id : Id} (h : Alike siteOf (siteOf id) s t) : Alike siteOf (siteOf id) (s.remove id) (t.remove id) := by
 rw [MoltBackgroundFetchSites.remove, MoltBackgroundFetchSites.remove, ← h.owners id rfl]
 cases howner : s.owners.get id with
 | none => exact h
 | some owner =>
  obtain rfl := h.named id owner howner
  dsimp only
  rw [← h.sites]
  cases s.sites.get (siteOf id) with
  | none => exact h.unregister h.sites
  | some state =>
   dsimp only
   split_ifs
   · exact h.unregister (by rw [get_dropIfEmpty, get_dropIfEmpty, if_pos rfl, if_pos rfl])
   · cases state.active.find? fun a => a.id = id with
     | none => exact h.unregister h.sites
     | some a => exact h.unregister (by rw [get_dropIfEmpty, get_dropIfEmpty, if_pos rfl, if_pos rfl])

theorem Alike.call (h : Alike siteOf site s t) {c : Call Id Key Site} (hc : c.site siteOf = site) :
  (call siteOf s c).1.seen = (call siteOf t c).1.seen ∧ Alike siteOf site (call siteOf s c).2 (call siteOf t c).2 := by
 cases c with
 | addPending id key =>
  obtain rfl : siteOf id = site := hc
  rw [BackgroundFetchSites.call, BackgroundFetchSites.call, MoltBackgroundFetchSites.addPending, MoltBackgroundFetchSites.addPending,
   MoltBackgroundFetchSites.get, MoltBackgroundFetchSites.get, ← h.owners id rfl, ← h.sites]
  split_ifs
  · exact ⟨rfl, h⟩
  · exact ⟨rfl, h.register _⟩
 | addActive id key =>
  obtain rfl : siteOf id = site := hc
  rw [BackgroundFetchSites.call, BackgroundFetchSites.call, MoltBackgroundFetchSites.addActive, MoltBackgroundFetchSites.addActive,
   MoltBackgroundFetchSites.get, MoltBackgroundFetchSites.get, ← h.owners id rfl, ← h.sites]
  split_ifs
  · exact ⟨rfl, h⟩
  · exact ⟨rfl, h.register _⟩
 | activate own =>
  obtain rfl : own = site := hc
  rw [BackgroundFetchSites.call, BackgroundFetchSites.call, MoltBackgroundFetchSites.activate, MoltBackgroundFetchSites.activate, ← h.sites]
  cases s.sites.get own with
  | none => exact ⟨rfl, h⟩
  | some state => exact ⟨rfl, h.insert _ _ _⟩
 | nextToStart own hasMore =>
  obtain rfl : own = site := hc
  obtain ⟨hsame, halike⟩ := h.nextToStart hasMore
  exact ⟨congrArg (fun next => (Answer.next next : Answer Id Site).seen) hsame, halike⟩
 | start own hasMore =>
  obtain rfl : own = site := hc
  obtain ⟨hsame, halike⟩ := h.nextToStart hasMore
  rw [BackgroundFetchSites.call, BackgroundFetchSites.call]
  cases hs : s.nextToStart own hasMore with
  | mk next s' =>
   cases ht : t.nextToStart own hasMore with
   | mk next' t' =>
    rw [hs, ht] at hsame halike
    obtain rfl : next = next' := hsame
    cases next with
    | none => exact ⟨rfl, halike⟩
    | some id => exact ⟨rfl, halike.started 1⟩
 | started own count =>
  obtain rfl : own = site := hc
  exact ⟨rfl, h.started count⟩
 | finished own count =>
  obtain rfl : own = site := hc
  rw [BackgroundFetchSites.call, BackgroundFetchSites.call, MoltBackgroundFetchSites.finished, MoltBackgroundFetchSites.finished, ← h.sites]
  cases s.sites.get own with
  | none => exact ⟨rfl, h⟩
  | some state =>
   dsimp only
   split_ifs
   · exact ⟨rfl, h⟩
   · exact ⟨rfl, h.drop _ _ _⟩
   · exact ⟨rfl, h.drop _ _ _⟩
 | remove id =>
  obtain rfl : siteOf id = site := hc
  exact ⟨rfl, h.remove⟩
 | siteOf id =>
  obtain rfl : siteOf id = site := hc
  exact ⟨congrArg Answer.owner (h.owners id rfl), h⟩

theorem Alike.unwinds (siteOf : Id → Site) (site : Site) :
  Unwinds (fun s c => ((BackgroundFetchSites.call siteOf s c).1.seen, (BackgroundFetchSites.call siteOf s c).2)) (fun c : Call Id Key Site => c.site siteOf = site) (Alike siteOf site) where
 own _ _ _ h hmine := h.call (of_decide_eq_true hmine)
 other s t c h hmine := by
  have hne : site ≠ c.site siteOf := Ne.symm (of_decide_eq_false hmine)
  have hapart := Apart.call h.named c
  exact ⟨hapart.named, h.named', (hapart.sites site hne).trans h.sites,
   fun id hid => (hapart.owners id (hid ▸ hne)).trans (h.owners id hid)⟩

end MoltBrowser.BackgroundFetchSites
