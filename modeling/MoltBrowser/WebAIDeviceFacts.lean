import MoltBrowser.SortedTable
import MoltBrowser.Unwinding

set_option autoImplicit false

/-!
# Device facts per site (`web_ai_policy.cc`)

A site is answered from facts of its own: what is kept of the others makes no difference to it.
-/
namespace MoltBrowser.WebAIDeviceFacts
open SortedTable Unwinding List

structure DeviceFacts where
 inferenceSupported : Bool := false
 modelInstalled : Bool := false
 someModelFits : Bool := false
 webApisEnabled : Bool := false
 audioModelOffered : Bool := false
 audioModelInstalled : Bool := false
 deriving DecidableEq

structure Entry where
 facts : Option DeviceFacts := none
 readAtUs : ℤ := 0
 /-- The read in flight, 0 if none. -/
 pending : ℕ := 0

inductive Kind where
 | cached | join | read
 deriving DecidableEq

structure Lookup where
 kind : Kind := .read
 facts : DeviceFacts := {}
 ticket : ℕ := 0
 deriving DecidableEq

variable (Site : Type) [LinearOrder Site]

structure SiteDeviceFacts where
 lifetimeUs : ℤ
 sites : Table Site Entry := .empty
 nextTicket : ℕ := 1

variable {Site}

def Entry.fresh (e : Entry) (lifetimeUs nowUs : ℤ) : Bool := e.facts.isSome && decide (nowUs - e.readAtUs < lifetimeUs)

def Entry.inUse (e : Entry) (lifetimeUs nowUs : ℤ) : Bool := decide (e.pending ≠ 0) || e.fresh lifetimeUs nowUs

namespace SiteDeviceFacts

variable (s : SiteDeviceFacts Site)

def prune (nowUs : ℤ) : SiteDeviceFacts Site := { s with sites := s.sites.filter fun e => e.inUse s.lifetimeUs nowUs }

def entry (site : Site) : Entry := (s.sites.get site).getD {}

def put (site : Site) (entry : Entry) : SiteDeviceFacts Site := { s with sites := s.sites.insert site entry }

def find (site : Site) (nowUs : ℤ) : Lookup × SiteDeviceFacts Site :=
 let s := s.prune nowUs
 let entry := s.entry site
 let s := s.put site entry
 if entry.pending ≠ 0 then ({ kind := .join, ticket := entry.pending }, s)
 else if entry.fresh s.lifetimeUs nowUs then ({ kind := .cached, facts := entry.facts.getD {} }, s)
 else
  ({ kind := .read, ticket := s.nextTicket },
   { s.put site { entry with pending := s.nextTicket } with nextTicket := s.nextTicket + 1 })

def finish (site : Site) (ticket : ℕ) (facts : DeviceFacts) (nowUs : ℤ) : Bool × SiteDeviceFacts Site :=
 match s.sites.get site with
 | none => (false, s)
 | some entry =>
  if ticket = 0 ∨ entry.pending ≠ ticket then (false, s)
  else (true, s.put site { facts := some facts, readAtUs := nowUs, pending := 0 })

def clear : SiteDeviceFacts Site := { s with sites := .empty }

end SiteDeviceFacts

inductive Call (Site : Type) where
 | find (site : Site) (nowUs : ℤ)
 | finish (site : Site) (ticket : ℕ) (facts : DeviceFacts) (nowUs : ℤ)
 | clear
 deriving DecidableEq

inductive Answer where
 | lookup (lookup : Lookup)
 | kept (kept : Bool)
 | cleared
 deriving DecidableEq

def call (s : SiteDeviceFacts Site) : Call Site → Answer × SiteDeviceFacts Site
 | .find site nowUs => ((.lookup (s.find site nowUs).1), (s.find site nowUs).2)
 | .finish site ticket facts nowUs => (.kept (s.finish site ticket facts nowUs).1, (s.finish site ticket facts nowUs).2)
 | .clear => (.cleared, s.clear)

abbrev Event (Site : Type) := Call Site × Answer

/-! ## What is kept of a site -/

namespace SiteDeviceFacts

variable (s : SiteDeviceFacts Site) (site other : Site) (e : Entry) (nowUs : ℤ)

theorem entry_put : (s.put site e).entry other = if other = site then e else s.entry other := by
 rw [entry, put, Table.get_insert]
 split_ifs <;> rfl

theorem entry_prune : (s.prune nowUs).entry site = if (s.entry site).inUse s.lifetimeUs nowUs then s.entry site else {} := by
 rw [entry, prune, Table.get_filter, entry]
 cases hget : s.sites.get site with
 | none => simp
 | some e =>
  rw [Option.filter_some, Option.getD_some]
  split_ifs <;> rfl

variable {s site nowUs e} in
theorem find_join (he : (s.prune nowUs).entry site = e) (hpending : e.pending ≠ 0) :
  s.find site nowUs = ({ kind := .join, ticket := e.pending }, (s.prune nowUs).put site e) := by
 unfold find
 dsimp only
 rw [he, if_pos hpending]

variable {s site nowUs e} in
theorem find_cached (he : (s.prune nowUs).entry site = e) (hpending : e.pending = 0) (hfresh : e.fresh s.lifetimeUs nowUs = true) :
  s.find site nowUs = ({ kind := .cached, facts := e.facts.getD {} }, (s.prune nowUs).put site e) := by
 unfold find
 dsimp only
 rw [he, if_neg (not_not.2 hpending)]
 exact if_pos hfresh

variable {s site nowUs e} in
theorem find_read (he : (s.prune nowUs).entry site = e) (hpending : e.pending = 0) (hfresh : e.fresh s.lifetimeUs nowUs = false) :
  s.find site nowUs =
   ({ kind := .read, ticket := s.nextTicket },
    { ((s.prune nowUs).put site e).put site { e with pending := s.nextTicket } with nextTicket := s.nextTicket + 1 }) := by
 unfold find
 dsimp only
 rw [he, if_neg (not_not.2 hpending)]
 exact if_neg (Bool.not_eq_true _ ▸ hfresh)

theorem find_ticket :
  if (s.find site nowUs).1.kind = .read then
   (s.find site nowUs).1.ticket = s.nextTicket ∧ (s.find site nowUs).2.nextTicket = s.nextTicket + 1
  else (s.find site nowUs).2.nextTicket = s.nextTicket := by
 generalize he : (s.prune nowUs).entry site = e
 by_cases hidle : e.pending = 0
 · cases hfresh : e.fresh s.lifetimeUs nowUs with
   | true =>
    rw [find_cached he hidle hfresh, if_neg Kind.noConfusion]
    rfl
   | false =>
    rw [find_read he hidle hfresh, if_pos rfl]
    exact ⟨rfl, rfl⟩
 · rw [find_join he hidle, if_neg Kind.noConfusion]
   rfl

theorem finish_eq (ticket : ℕ) (facts : DeviceFacts) :
  s.finish site ticket facts nowUs =
   if ticket ≠ 0 ∧ (s.entry site).pending = ticket then
    (true, s.put site { facts := some facts, readAtUs := nowUs, pending := 0 })
   else (false, s) := by
 rw [finish, entry]
 cases s.sites.get site with
 | none =>
  rw [if_neg]
  rintro ⟨hne, heq⟩
  exact hne heq.symm
 | some e =>
  dsimp only
  by_cases htaken : ticket ≠ 0 ∧ e.pending = ticket
  · rw [if_neg (by rw [not_or, not_not]; exact htaken), if_pos (by exact htaken)]
  · rw [if_pos (by rwa [or_iff_not_and_not, not_not]), if_neg (by exact htaken)]

end SiteDeviceFacts

/-! ## A site alone -/

/-- A site's own call, a read named by how many the site started before it. -/
inductive OwnCall where
 | find (nowUs : ℤ)
 | finish (read : ℕ) (facts : DeviceFacts) (nowUs : ℤ)
 | clear
 deriving DecidableEq

/-- The reads a site started, the one in flight, and the facts of the last that ended, with when. -/
structure Own where
 reads : ℕ := 0
 pending : Option ℕ := none
 facts : Option (DeviceFacts × ℤ) := none

def Own.find (o : Own) (lifetimeUs nowUs : ℤ) : (Kind × DeviceFacts) × Own :=
 match o.pending, o.facts.filter fun f => nowUs - f.2 < lifetimeUs with
 | some _, _ => ((.join, {}), o)
 | none, some (facts, _) => ((.cached, facts), o)
 | none, none => ((.read, {}), { o with pending := some o.reads, reads := o.reads + 1 })

def Own.finish (o : Own) (read : ℕ) (facts : DeviceFacts) (nowUs : ℤ) : Own :=
 if o.pending = some read then { o with pending := none, facts := some (facts, nowUs) } else o

def Own.call (o : Own) (lifetimeUs : ℤ) : OwnCall → Option (Kind × DeviceFacts) × Own
 | .find nowUs => (some (o.find lifetimeUs nowUs).1, (o.find lifetimeUs nowUs).2)
 | .finish read facts nowUs => (none, o.finish read facts nowUs)
 | .clear => (none, { o with pending := none, facts := none })

def Own.answers (lifetimeUs : ℤ) : Own → List OwnCall → List (Kind × DeviceFacts)
 | _, [] => []
 | o, c :: calls => (o.call lifetimeUs c).1.toList ++ (o.call lifetimeUs c).2.answers lifetimeUs calls

def readsAfter (site : Site) (reads : List ℕ) : Event Site → List ℕ
 | (.find caller _, .lookup found) => if caller = site ∧ found.kind = .read then reads ++ [found.ticket] else reads
 | _ => reads

def ownCall (site : Site) (reads : List ℕ) : Call Site → Option OwnCall
 | .find caller nowUs => if caller = site then some (.find nowUs) else none
 | .finish caller ticket facts nowUs => if caller = site then some (.finish (reads.idxOf ticket) facts nowUs) else none
 | .clear => some .clear

def view (site : Site) : List ℕ → List (Event Site) → List OwnCall
 | _, [] => []
 | reads, event :: events => (ownCall site reads event.1).toList ++ view site (readsAfter site reads event) events

/-- What an event answers a site, if it is a `Find` of it. -/
def answeredAt (site : Site) : Event Site → Option (Kind × DeviceFacts)
 | (.find caller _, .lookup found) => if caller = site then some (found.kind, found.facts) else none
 | _ => none

def answered (site : Site) (events : List (Event Site)) : List (Kind × DeviceFacts) := events.filterMap (answeredAt site)

/-- What is kept of a site is what it has alone, but for facts too old at `nowUs`. -/
structure Follows (lifetimeUs nowUs : ℤ) (reads : List ℕ) (e : Entry) (o : Own) : Prop where
 count : o.reads = reads.length
 pending : if e.pending = 0 then o.pending = none else e.pending ∈ reads ∧ o.pending = some (reads.idxOf e.pending)
 facts : ∀ laterUs, nowUs ≤ laterUs →
  (if e.fresh lifetimeUs laterUs then some (e.facts.getD {}) else none) =
   (o.facts.filter fun f => laterUs - f.2 < lifetimeUs).map Prod.fst

structure Issued (s : SiteDeviceFacts Site) (reads : List ℕ) : Prop where
 pos : 0 < s.nextTicket
 lt : ∀ ticket ∈ reads, ticket < s.nextTicket

section Alone

variable {lifetimeUs nowUs laterUs : ℤ} {reads : List ℕ} {e : Entry} {o : Own} {s : SiteDeviceFacts Site} {site : Site}

theorem fresh_later (h : e.fresh lifetimeUs nowUs = false) (hle : nowUs ≤ laterUs) : e.fresh lifetimeUs laterUs = false := by
 rw [Entry.fresh, Bool.and_eq_false_iff, decide_eq_false_iff_not] at h ⊢
 apply h.imp_right
 intro hold hnew
 omega

theorem Follows.later (h : Follows lifetimeUs nowUs reads e o) (hle : nowUs ≤ laterUs) : Follows lifetimeUs laterUs reads e o :=
 ⟨h.count, h.pending, fun t ht => h.facts t (hle.trans ht)⟩

theorem Follows.pruned (h : Follows lifetimeUs nowUs reads e o) :
  Follows lifetimeUs nowUs reads (if e.inUse lifetimeUs nowUs then e else {}) o := by
 by_cases huse : e.inUse lifetimeUs nowUs = true
 · rw [if_pos huse]
   exact h
 · rw [if_neg huse]
   rw [Bool.not_eq_true, Entry.inUse, Bool.or_eq_false_iff, decide_eq_false_iff_not, not_not] at huse
   obtain ⟨hidle, hstale⟩ := huse
   have hpending := h.pending
   rw [if_pos hidle] at hpending
   refine ⟨h.count, hpending, fun t ht => ?_⟩
   rw [← h.facts t ht, fresh_later hstale ht]
   rfl

theorem Own.find_join (h : o.pending ≠ none) : o.find lifetimeUs nowUs = ((.join, {}), o) := by
 obtain ⟨read, hread⟩ := Option.ne_none_iff_exists'.1 h
 rw [Own.find, hread]

theorem Own.find_cached {facts : DeviceFacts} (h : o.pending = none)
  (hfacts : (o.facts.filter fun f => nowUs - f.2 < lifetimeUs).map Prod.fst = some facts) :
  o.find lifetimeUs nowUs = ((.cached, facts), o) := by
 obtain ⟨⟨_, readAt⟩, hkept, rfl⟩ := Option.map_eq_some_iff.1 hfacts
 rw [Own.find, h, hkept]

theorem Own.find_read (h : o.pending = none) (hfacts : (o.facts.filter fun f => nowUs - f.2 < lifetimeUs).map Prod.fst = none) :
  o.find lifetimeUs nowUs = ((.read, {}), { o with pending := some o.reads, reads := o.reads + 1 }) := by
 rw [Own.find, h, Option.map_eq_none_iff.1 hfacts]

theorem follows_find (h : Follows s.lifetimeUs nowUs reads (s.entry site) o) (hissued : Issued s reads) :
  ((s.find site nowUs).1.kind, (s.find site nowUs).1.facts) = (o.find s.lifetimeUs nowUs).1 ∧
   Follows s.lifetimeUs nowUs (if (s.find site nowUs).1.kind = .read then reads ++ [(s.find site nowUs).1.ticket] else reads)
    ((s.find site nowUs).2.entry site) (o.find s.lifetimeUs nowUs).2 := by
 have hentry : Follows s.lifetimeUs nowUs reads ((s.prune nowUs).entry site) o := by
  rw [SiteDeviceFacts.entry_prune]
  exact h.pruned
 generalize he : (s.prune nowUs).entry site = e at hentry
 have hnow := hentry.facts nowUs le_rfl
 have hpending := hentry.pending
 by_cases hidle : e.pending = 0
 · rw [if_pos hidle] at hpending
   cases hfresh : e.fresh s.lifetimeUs nowUs with
   | true =>
    rw [hfresh] at hnow
    rw [SiteDeviceFacts.find_cached he hidle hfresh, Own.find_cached hpending hnow.symm]
    refine ⟨rfl, ?_⟩
    rw [if_neg Kind.noConfusion, SiteDeviceFacts.entry_put, if_pos rfl]
    exact hentry
   | false =>
    rw [hfresh] at hnow
    rw [SiteDeviceFacts.find_read he hidle hfresh, Own.find_read hpending hnow.symm]
    have hnew : s.nextTicket ∉ reads := fun hmem => lt_irrefl _ (hissued.lt _ hmem)
    have hkept : ({ ((s.prune nowUs).put site e).put site { e with pending := s.nextTicket } with
      nextTicket := s.nextTicket + 1 } : SiteDeviceFacts Site).entry site = { e with pending := s.nextTicket } :=
     (SiteDeviceFacts.entry_put _ site site _).trans (if_pos rfl)
    refine ⟨rfl, ?_⟩
    rw [if_pos rfl, hkept]
    refine ⟨?_, ?_, hentry.facts⟩
    · rw [length_append, ← hentry.count]
      rfl
    · rw [if_neg hissued.pos.ne', idxOf_append_of_notMem hnew, ← hentry.count]
      refine ⟨mem_append_right _ (mem_singleton_self _), ?_⟩
      simp
 · rw [if_neg hidle] at hpending
   rw [SiteDeviceFacts.find_join he hidle, Own.find_join (hpending.2 ▸ Option.some_ne_none _)]
   refine ⟨rfl, ?_⟩
   rw [if_neg Kind.noConfusion, SiteDeviceFacts.entry_put, if_pos rfl]
   exact hentry

theorem follows_find_other {other : Site} (h : Follows s.lifetimeUs nowUs reads (s.entry site) o) (hother : other ≠ site) :
  Follows s.lifetimeUs nowUs reads ((s.find other nowUs).2.entry site) o := by
 have hkept : (s.find other nowUs).2.entry site = (s.prune nowUs).entry site := by
  unfold SiteDeviceFacts.find
  dsimp only
  split_ifs
  · rw [SiteDeviceFacts.entry_put, if_neg hother.symm]
  · rw [SiteDeviceFacts.entry_put, if_neg hother.symm]
  · change (((s.prune nowUs).put other _).put other _).entry site = _
    rw [SiteDeviceFacts.entry_put, if_neg hother.symm, SiteDeviceFacts.entry_put, if_neg hother.symm]
 rw [hkept, SiteDeviceFacts.entry_prune]
 exact h.pruned

theorem follows_finish (h : Follows s.lifetimeUs nowUs reads (s.entry site) o) (ticket : ℕ)
  (facts : DeviceFacts) :
  Follows s.lifetimeUs nowUs reads ((s.finish site ticket facts nowUs).2.entry site) (o.finish (reads.idxOf ticket) facts nowUs) := by
 have hpending := h.pending
 rw [SiteDeviceFacts.finish_eq, Own.finish]
 by_cases htaken : ticket ≠ 0 ∧ (s.entry site).pending = ticket
 · obtain ⟨hne, heq⟩ := htaken
   rw [heq, if_neg hne] at hpending
   rw [if_pos ⟨hne, heq⟩, if_pos hpending.2, SiteDeviceFacts.entry_put, if_pos rfl]
   refine ⟨h.count, rfl, fun t _ => ?_⟩
   rw [Option.filter_some]
   by_cases hnew : t - nowUs < s.lifetimeUs <;> simp [Entry.fresh, hnew]
 · rw [if_neg htaken, if_neg]
   · exact h
   · intro hread
     by_cases hidle : (s.entry site).pending = 0
     · rw [if_pos hidle, hread] at hpending
       cases hpending
     · rw [if_neg hidle, hread, Option.some.injEq] at hpending
       have hsame : (s.entry site).pending = ticket := (idxOf_inj hpending.1).1 hpending.2.symm
       exact htaken ⟨hsame ▸ hidle, hsame⟩

theorem follows_finish_other {other : Site} (h : Follows s.lifetimeUs nowUs reads (s.entry site) o) (hother : other ≠ site)
  (ticket : ℕ) (facts : DeviceFacts) : Follows s.lifetimeUs nowUs reads ((s.finish other ticket facts nowUs).2.entry site) o := by
 rw [SiteDeviceFacts.finish_eq]
 split_ifs
 · rw [SiteDeviceFacts.entry_put, if_neg hother.symm]
   exact h
 · exact h

theorem follows_clear (h : Follows s.lifetimeUs nowUs reads (s.entry site) o) :
  Follows s.lifetimeUs nowUs reads (s.clear.entry site) { o with pending := none, facts := none } :=
 ⟨h.count, rfl, fun _ _ => rfl⟩

end Alone

/-! ## Runs -/

def Call.time : Call Site → Option ℤ
 | .find _ nowUs | .finish _ _ _ nowUs => some nowUs
 | .clear => none

/-- From `nowUs` on, the times don't go back. -/
def Timely (nowUs : ℤ) (calls : List (Call Site)) : Prop := List.Pairwise (· ≤ ·) (nowUs :: calls.filterMap Call.time)

variable {lifetimeUs nowUs : ℤ} {reads : List ℕ} {o : Own} {s : SiteDeviceFacts Site} {site : Site}

omit [LinearOrder Site] in
theorem Timely.of_cons {c : Call Site} {calls : List (Call Site)} (h : Timely nowUs (c :: calls)) :
  nowUs ≤ c.time.getD nowUs ∧ Timely (c.time.getD nowUs) calls := by
 unfold Timely at h ⊢
 cases htime : c.time with
 | none =>
  rw [filterMap_cons_none htime] at h
  exact ⟨le_rfl, h⟩
 | some t =>
  rw [filterMap_cons_some htime] at h
  obtain ⟨hfirst, hrest⟩ := pairwise_cons.1 h
  exact ⟨hfirst t mem_cons_self, hrest⟩

theorem call_lifetime (s : SiteDeviceFacts Site) (c : Call Site) : (call s c).2.lifetimeUs = s.lifetimeUs := by
 cases c with
 | find site nowUs =>
  change (s.find site nowUs).2.lifetimeUs = _
  unfold SiteDeviceFacts.find
  dsimp only
  split_ifs <;> rfl
 | finish site ticket facts nowUs =>
  change (s.finish site ticket facts nowUs).2.lifetimeUs = _
  rw [SiteDeviceFacts.finish_eq]
  split_ifs <;> rfl
 | clear => rfl

theorem readsAfter_find (caller : Site) (found : Lookup) :
  readsAfter site reads (.find caller nowUs, .lookup found) =
   if caller = site ∧ found.kind = .read then reads ++ [found.ticket] else reads := rfl

theorem issued_find (h : Issued s reads) (caller : Site) :
  Issued (s.find caller nowUs).2 (readsAfter site reads (.find caller nowUs, .lookup (s.find caller nowUs).1)) := by
 have hticket := s.find_ticket caller nowUs
 rw [readsAfter_find]
 by_cases hread : (s.find caller nowUs).1.kind = .read
 · rw [if_pos hread] at hticket
   obtain ⟨htaken, hnext⟩ := hticket
   refine ⟨hnext ▸ Nat.succ_pos _, fun ticket hmem => ?_⟩
   have hle : ticket ∈ reads ∨ ticket = s.nextTicket := by
    rw [htaken] at hmem
    split_ifs at hmem
    · simpa using hmem
    · exact .inl hmem
   rcases hle with hold | rfl
   · exact hnext ▸ (h.lt ticket hold).trans (Nat.lt_succ_self _)
   · exact hnext ▸ Nat.lt_succ_self _
 · rw [if_neg hread] at hticket
   rw [if_neg fun hown => hread hown.2]
   exact ⟨hticket ▸ h.pos, fun ticket hmem => hticket ▸ h.lt ticket hmem⟩

theorem issued_finish (h : Issued s reads) (caller : Site) (ticket : ℕ) (facts : DeviceFacts) :
  Issued (s.finish caller ticket facts nowUs).2 reads := by
 rw [SiteDeviceFacts.finish_eq]
 split_ifs
 · exact ⟨h.pos, h.lt⟩
 · exact h

structure Kept (lifetimeUs nowUs : ℤ) (site : Site) (reads : List ℕ) (s : SiteDeviceFacts Site) (o : Own) : Prop where
 lifetime : s.lifetimeUs = lifetimeUs
 issued : Issued s reads
 follows : Follows lifetimeUs nowUs reads (s.entry site) o

/-- What a call answers a site, and what it leaves, are those of the site's own call, if it is one. -/
theorem Kept.call (h : Kept lifetimeUs nowUs site reads s o) {c : Call Site} (htime : nowUs ≤ c.time.getD nowUs) :
  answeredAt site (c, (call s c).1) = (ownCall site reads c).bind (fun own => (o.call lifetimeUs own).1) ∧
   Kept lifetimeUs (c.time.getD nowUs) site (readsAfter site reads (c, (WebAIDeviceFacts.call s c).1)) (WebAIDeviceFacts.call s c).2
    ((ownCall site reads c).elim o fun own => (o.call lifetimeUs own).2) := by
 obtain ⟨rfl, hissued, hfollows⟩ := h
 have hnow := hfollows.later htime
 have hlife := call_lifetime s c
 cases c with
 | find caller t =>
  have hafter : Issued (s.find caller t).2 (readsAfter site reads (.find caller t, .lookup (s.find caller t).1)) :=
   issued_find hissued caller
  by_cases hcaller : caller = site
  · subst hcaller
    obtain ⟨hsame, hnext⟩ := follows_find hnow hissued
    rw [ownCall, if_pos rfl]
    refine ⟨(if_pos rfl).trans (congrArg some hsame), hlife, hafter, ?_⟩
    change Follows s.lifetimeUs t (readsAfter caller reads (.find caller t, .lookup (s.find caller t).1))
     ((s.find caller t).2.entry caller) (o.find s.lifetimeUs t).2
    rw [readsAfter_find]
    simp only [true_and]
    exact hnext
  · rw [ownCall, if_neg hcaller]
    refine ⟨if_neg hcaller, hlife, hafter, ?_⟩
    change Follows s.lifetimeUs t (readsAfter site reads (.find caller t, .lookup (s.find caller t).1))
     ((s.find caller t).2.entry site) o
    rw [readsAfter_find, if_neg fun hread => hcaller hread.1]
    exact follows_find_other hnow hcaller
 | finish caller ticket facts t =>
  have hafter : Issued (s.finish caller ticket facts t).2 reads := issued_finish hissued caller ticket facts
  by_cases hcaller : caller = site
  · subst hcaller
    rw [ownCall, if_pos rfl]
    exact ⟨rfl, hlife, hafter, follows_finish hnow ticket facts⟩
  · rw [ownCall, if_neg hcaller]
    exact ⟨rfl, hlife, hafter, follows_finish_other hnow hcaller ticket facts⟩
 | clear => exact ⟨rfl, rfl, ⟨hissued.pos, hissued.lt⟩, follows_clear hnow⟩

theorem answered_eq {calls : List (Call Site)} (h : Kept lifetimeUs nowUs site reads s o) (htimely : Timely nowUs calls) :
  answered site (answers call s calls).1 = o.answers lifetimeUs (view site reads (answers call s calls).1) := by
 induction calls generalizing s nowUs reads o with
 | nil => rfl
 | cons c calls ih =>
  obtain ⟨hlater, hrest⟩ := htimely.of_cons
  obtain ⟨hsame, hnext⟩ := h.call hlater
  rw [answers]
  dsimp only
  rw [view, answered]
  dsimp only
  cases hown : ownCall site reads c with
  | none =>
   rw [hown] at hsame hnext
   rw [filterMap_cons_none hsame]
   exact ih hnext hrest
  | some own =>
   rw [hown] at hsame hnext
   dsimp only [Option.bind_some, Option.elim_some] at hsame hnext
   rw [Option.toList_some, singleton_append, Own.answers, ← hsame]
   have hmore := ih hnext hrest
   cases hanswer : answeredAt site (c, (call s c).1) with
   | none =>
    rw [filterMap_cons_none hanswer]
    exact hmore
   | some answer =>
    rw [filterMap_cons_some hanswer]
    exact congrArg (answer :: ·) hmore

/-! ## Where facts come from -/

def Reading (site : Site) (ticket : ℕ) (events : List (Event Site)) : Prop :=
 ∃ before nowUs found after, events = before ++ (.find site nowUs, .lookup found) :: after ∧
  found.kind = .read ∧ found.ticket = ticket ∧ ∀ event ∈ after, event.1 ≠ .clear

/-- The facts of a read that ended at `readAtUs`, and nothing was cleared since it began. -/
def ReadAt (site : Site) (facts : DeviceFacts) (readAtUs : ℤ) (events : List (Event Site)) : Prop :=
 ∃ before ticket after, events = before ++ (.finish site ticket facts readAtUs, .kept true) :: after ∧
  Reading site ticket before ∧ ∀ event ∈ after, event.1 ≠ .clear

structure FromReads (site : Site) (events : List (Event Site)) (e : Entry) : Prop where
 pending : e.pending ≠ 0 → Reading site e.pending events
 facts : ∀ facts, e.facts = some facts → ReadAt site facts e.readAtUs events

def readsOf (site : Site) (events : List (Event Site)) : List ℕ := events.foldl (readsAfter site) []

structure Recorded (events : List (Event Site)) (s : SiteDeviceFacts Site) : Prop where
 entries : ∀ site, FromReads site events (s.entry site)
 issued : ∀ site, Issued s (readsOf site events)
 nodup : ∀ site, (readsOf site events).Nodup

section Record

variable {events : List (Event Site)} {e : Entry} {event : Event Site} {ticket : ℕ} {facts : DeviceFacts} {readAtUs : ℤ}

omit [LinearOrder Site] in
theorem not_clear_append {after : List (Event Site)} (h : ∀ event ∈ after, event.1 ≠ .clear) (hevent : event.1 ≠ .clear) :
  ∀ next ∈ after ++ [event], next.1 ≠ .clear := by
 intro next hnext
 rcases mem_append.1 hnext with hold | hnew
 · exact h next hold
 · rwa [mem_singleton.1 hnew]

omit [LinearOrder Site] in
theorem Reading.append (h : Reading site ticket events) (hevent : event.1 ≠ .clear) : Reading site ticket (events ++ [event]) := by
 obtain ⟨before, t, found, after, rfl, hkind, hticket, hafter⟩ := h
 exact ⟨before, t, found, after ++ [event], by simp, hkind, hticket, not_clear_append hafter hevent⟩

omit [LinearOrder Site] in
theorem ReadAt.append (h : ReadAt site facts readAtUs events) (hevent : event.1 ≠ .clear) :
  ReadAt site facts readAtUs (events ++ [event]) := by
 obtain ⟨before, ticket, after, rfl, hreading, hafter⟩ := h
 exact ⟨before, ticket, after ++ [event], by simp, hreading, not_clear_append hafter hevent⟩

omit [LinearOrder Site] in
theorem FromReads.append (h : FromReads site events e) (hevent : event.1 ≠ .clear) : FromReads site (events ++ [event]) e :=
 ⟨fun hpending => (h.pending hpending).append hevent, fun facts hfacts => (h.facts facts hfacts).append hevent⟩

omit [LinearOrder Site] in
theorem fromReads_empty (site : Site) (events : List (Event Site)) : FromReads site events {} :=
 ⟨fun h => absurd rfl h, fun _ h => absurd h (Option.some_ne_none _).symm⟩

theorem FromReads.pruned (h : FromReads site events (s.entry site)) (nowUs : ℤ) :
  FromReads site events ((s.prune nowUs).entry site) := by
 rw [SiteDeviceFacts.entry_prune]
 split_ifs
 · exact h
 · exact fromReads_empty site events

theorem readsOf_append (site : Site) (events : List (Event Site)) (event : Event Site) :
  readsOf site (events ++ [event]) = readsAfter site (readsOf site events) event := by
 rw [readsOf, foldl_append]
 rfl

theorem fromReads_find (h : ∀ site, FromReads site events (s.entry site)) (caller site : Site) (nowUs : ℤ) :
  FromReads site (events ++ [(.find caller nowUs, .lookup (s.find caller nowUs).1)]) ((s.find caller nowUs).2.entry site) := by
 have hkept : ∀ found : Lookup, ∀ other, FromReads other (events ++ [(.find caller nowUs, .lookup found)]) ((s.prune nowUs).entry other) :=
  fun found other => ((h other).pruned nowUs).append nofun
 generalize he : (s.prune nowUs).entry caller = e
 by_cases hidle : e.pending = 0
 · cases hfresh : e.fresh s.lifetimeUs nowUs with
   | true =>
    rw [SiteDeviceFacts.find_cached he hidle hfresh, SiteDeviceFacts.entry_put]
    split_ifs with hsite
    · rw [hsite, ← he]
      exact hkept _ caller
    · exact hkept _ site
   | false =>
    rw [SiteDeviceFacts.find_read he hidle hfresh]
    change FromReads site _ ((((s.prune nowUs).put caller e).put caller { e with pending := s.nextTicket }).entry site)
    rw [SiteDeviceFacts.entry_put, SiteDeviceFacts.entry_put]
    split_ifs with hsite
    · subst hsite
      refine ⟨fun _ => ⟨events, nowUs, _, [], rfl, rfl, rfl, by simp⟩, ?_⟩
      rw [← he]
      exact (hkept _ site).facts
    · exact hkept _ site
 · rw [SiteDeviceFacts.find_join he hidle, SiteDeviceFacts.entry_put]
   split_ifs with hsite
   · rw [hsite, ← he]
     exact hkept _ caller
   · exact hkept _ site

theorem fromReads_finish (h : ∀ site, FromReads site events (s.entry site)) (caller site : Site) (ticket : ℕ) (facts : DeviceFacts)
  (nowUs : ℤ) :
  FromReads site (events ++ [(.finish caller ticket facts nowUs, .kept (s.finish caller ticket facts nowUs).1)])
   ((s.finish caller ticket facts nowUs).2.entry site) := by
 rw [SiteDeviceFacts.finish_eq]
 split_ifs with htaken
 · obtain ⟨hne, rfl⟩ := htaken
   rw [SiteDeviceFacts.entry_put]
   split_ifs with hsite
   · subst hsite
     refine ⟨fun hpending => absurd rfl hpending, fun read hread => ?_⟩
     obtain rfl := Option.some.inj hread
     exact ⟨events, _, [], rfl, (h site).pending hne, by simp⟩
   · exact (h site).append nofun
 · exact (h site).append nofun

theorem nodup_find (hissued : Issued s reads) (h : reads.Nodup) (caller : Site) :
  (readsAfter site reads (.find caller nowUs, .lookup (s.find caller nowUs).1)).Nodup := by
 have hticket := s.find_ticket caller nowUs
 rw [readsAfter_find]
 split_ifs with hread
 · rw [if_pos hread.2] at hticket
   rw [hticket.1]
   have hnew : s.nextTicket ∉ reads := fun hmem => lt_irrefl _ (hissued.lt _ hmem)
   exact nodup_append.2 ⟨h, nodup_singleton _, by simpa using fun ticket hmem => ne_of_mem_of_not_mem hmem hnew⟩
 · exact h

theorem Recorded.call (h : Recorded events s) (c : Call Site) : Recorded (events ++ [(c, (call s c).1)]) (WebAIDeviceFacts.call s c).2 := by
 cases c with
 | find caller nowUs =>
  refine ⟨fun site => fromReads_find h.entries caller site nowUs, fun site => ?_, fun site => ?_⟩
  · rw [readsOf_append]
    exact issued_find (h.issued site) caller
  · rw [readsOf_append]
    exact nodup_find (h.issued site) (h.nodup site) caller
 | finish caller ticket facts nowUs =>
  refine ⟨fun site => fromReads_finish h.entries caller site ticket facts nowUs, fun site => ?_, fun site => ?_⟩
  · rw [readsOf_append]
    exact issued_finish (h.issued site) caller ticket facts
  · rw [readsOf_append]
    exact h.nodup site
 | clear =>
  refine ⟨fun site => fromReads_empty site _, fun site => ?_, fun site => ?_⟩
  · rw [readsOf_append]
    exact ⟨(h.issued site).pos, (h.issued site).lt⟩
  · rw [readsOf_append]
    exact h.nodup site

theorem Recorded.answers (h : Recorded events s) (calls : List (Call Site)) :
  Recorded (events ++ (answers WebAIDeviceFacts.call s calls).1) (answers WebAIDeviceFacts.call s calls).2 := by
 induction calls generalizing s events with
 | nil =>
  rw [Unwinding.answers, append_nil]
  exact h
 | cons c calls ih =>
  rw [Unwinding.answers]
  dsimp only
  rw [append_cons]
  exact ih (h.call c)

theorem cached_facts (h : ∀ site, FromReads site events (s.entry site)) (hcached : (s.find site nowUs).1.kind = .cached) :
  ∃ readAtUs, ReadAt site (s.find site nowUs).1.facts readAtUs events ∧ nowUs - readAtUs < s.lifetimeUs := by
 have hfrom := (h site).pruned nowUs
 generalize he : (s.prune nowUs).entry site = e at hfrom
 by_cases hidle : e.pending = 0
 · cases hfresh : e.fresh s.lifetimeUs nowUs with
   | true =>
    rw [SiteDeviceFacts.find_cached he hidle hfresh]
    rw [Entry.fresh, Bool.and_eq_true, decide_eq_true_iff] at hfresh
    obtain ⟨facts, hfacts⟩ := Option.isSome_iff_exists.1 hfresh.1
    refine ⟨e.readAtUs, ?_, hfresh.2⟩
    rw [hfacts]
    exact hfrom.facts facts hfacts
   | false =>
    rw [SiteDeviceFacts.find_read he hidle hfresh] at hcached
    cases hcached
 · rw [SiteDeviceFacts.find_join he hidle] at hcached
   cases hcached

theorem finish_takes : (s.finish site ticket facts nowUs).1 = true ↔ ticket ≠ 0 ∧ (s.entry site).pending = ticket := by
 rw [SiteDeviceFacts.finish_eq]
 split_ifs with htaken
 · exact iff_of_true rfl htaken
 · exact iff_of_false not_false htaken

theorem takes_one (h : reads.Nodup) : (reads.filter fun ticket => (s.finish site ticket facts nowUs).1).length ≤ 1 := by
 have hsub : (reads.filter fun ticket => (s.finish site ticket facts nowUs).1) ⊆ [(s.entry site).pending] := by
  intro ticket hmem
  rw [mem_filter, finish_takes] at hmem
  exact mem_singleton.2 hmem.2.2.symm
 exact ((h.filter _).subperm hsub).length_le

end Record

def ran (lifetimeUs : ℤ) (calls : List (Call Site)) : List (Event Site) × SiteDeviceFacts Site := answers call { lifetimeUs } calls

def InOrder (calls : List (Call Site)) : Prop := (calls.filterMap Call.time).Pairwise (· ≤ ·)

instance (calls : List (Call Site)) : Decidable (InOrder calls) := inferInstanceAs (Decidable (List.Pairwise _ _))

omit [LinearOrder Site] in
theorem InOrder.timely {calls : List (Call Site)} (h : InOrder calls) : ∃ nowUs, Timely nowUs calls := by
 unfold InOrder at h
 unfold Timely
 generalize calls.filterMap Call.time = times at h ⊢
 cases times with
 | nil => exact ⟨0, pairwise_singleton _ _⟩
 | cons first rest =>
  refine ⟨first, pairwise_cons.2 ⟨fun t ht => ?_, h⟩⟩
  rcases mem_cons.1 ht with rfl | hrest
  · exact le_rfl
  · exact (pairwise_cons.1 h).1 t hrest

theorem recorded_ran (lifetimeUs : ℤ) (calls : List (Call Site)) : Recorded (ran lifetimeUs calls).1 (ran lifetimeUs calls).2 := by
 have hnew : Recorded [] ({ lifetimeUs } : SiteDeviceFacts Site) :=
  ⟨fun site => fromReads_empty site [], fun _ => ⟨Nat.one_pos, by simp [readsOf]⟩, fun _ => nodup_nil⟩
 exact hnew.answers calls

theorem ran_lifetime (lifetimeUs : ℤ) (calls : List (Call Site)) : (ran lifetimeUs calls).2.lifetimeUs = lifetimeUs := by
 have hstep : ∀ (s : SiteDeviceFacts Site) c, s.lifetimeUs = lifetimeUs → True → (call s c).2.lifetimeUs = lifetimeUs :=
  fun s c hs _ => (call_lifetime s c).trans hs
 exact answers_keeps hstep rfl fun _ _ _ _ => trivial

theorem answered_ran (lifetimeUs : ℤ) {calls : List (Call Site)} (h : InOrder calls) (site : Site) :
  answered site (ran lifetimeUs calls).1 = Own.answers lifetimeUs {} (view site [] (ran lifetimeUs calls).1) := by
 obtain ⟨nowUs, htimely⟩ := h.timely
 have hnew : Kept lifetimeUs nowUs site [] ({ lifetimeUs } : SiteDeviceFacts Site) {} :=
  ⟨rfl, ⟨Nat.one_pos, by simp⟩, rfl, rfl, fun _ _ => rfl⟩
 exact answered_eq hnew htimely

/-- Device facts are a site's own, and fresh: what it is answered depends on its own calls and the clears alone, it is
answered from the cache with facts of a read since the last clear, ended less than the lifetime ago, and of its reads at most
one could end. -/
theorem facts_per_site (lifetimeUs : ℤ) (calls : List (Call Site)) (site : Site) :
  (∀ other : List (Call Site), InOrder calls → InOrder other →
   view site [] (ran lifetimeUs calls).1 = view site [] (ran lifetimeUs other).1 →
    answered site (ran lifetimeUs calls).1 = answered site (ran lifetimeUs other).1) ∧
  (∀ nowUs, ((ran lifetimeUs calls).2.find site nowUs).1.kind = .cached →
   ∃ readAtUs, ReadAt site ((ran lifetimeUs calls).2.find site nowUs).1.facts readAtUs (ran lifetimeUs calls).1 ∧
    nowUs - readAtUs < lifetimeUs) ∧
  ∀ facts nowUs,
   (∀ ticket, ((ran lifetimeUs calls).2.finish site ticket facts nowUs).1 = true →
    Reading site ticket (ran lifetimeUs calls).1) ∧
   ((readsOf site (ran lifetimeUs calls).1).filter fun ticket =>
    ((ran lifetimeUs calls).2.finish site ticket facts nowUs).1).length ≤ 1 := by
 have hrecorded := recorded_ran lifetimeUs calls
 refine ⟨fun other hcalls hother hview => ?_, fun nowUs hcached => ?_, fun facts nowUs => ⟨fun ticket htaken => ?_, ?_⟩⟩
 · rw [answered_ran lifetimeUs hcalls, answered_ran lifetimeUs hother, hview]
 · have hfacts := cached_facts hrecorded.entries hcached
   rwa [ran_lifetime] at hfacts
 · obtain ⟨hne, hpending⟩ := finish_takes.1 htaken
   have hreading := (hrecorded.entries site).pending
   rw [hpending] at hreading
   exact hreading hne
 · exact takes_one (hrecorded.nodup site)

/-- Another site's read, and its end, in between. -/
theorem facts_per_site_between :
  answered 1 (ran 100 [.find 2 0, .find 1 3, .finish 2 1 { modelInstalled := true } 5, .finish 1 2 {} 9, .find 1 108]).1 =
   answered 1 (ran 100 [.find 1 3, .finish 1 1 {} 9, .find 1 108]).1 ∧
  ∃ readAtUs, ReadAt 1 {} readAtUs (ran 100 [.find 1 3, .finish 1 1 {} 9]).1 ∧ (108 : ℤ) - readAtUs < 100 :=
 ⟨(facts_per_site 100 [.find 2 0, .find 1 3, .finish 2 1 { modelInstalled := true } 5, .finish 1 2 {} 9, .find 1 108] 1).1
   [.find 1 3, .finish 1 1 {} 9, .find 1 108] (by decide) (by decide) (by decide),
  (facts_per_site 100 [.find 1 3, .finish 1 1 {} 9] 1).2.1 108 (by decide)⟩

end MoltBrowser.WebAIDeviceFacts
