import MoltBrowser.SiteShares
import Mathlib.Data.List.Induction

set_option autoImplicit false

/-!
# A cache with shares per site

The container under the shares evicts nothing itself; it is any with the documented operations of
a least-recently-used cache.
-/
namespace MoltBrowser.SiteShares
open SortedTable
open List hiding keys

/-- The container: its entries as it iterates over them, the last used first. -/
structure LruCache (Key Value : Type) [DecidableEq Key] where
 State : Type
 empty : State
 entries : State → List (Key × Value)
 peek : State → Key → Option Value
 put : State → Key → Value → State
 get : State → Key → State
 erase : State → Key → State
 clear : State → State
 entries_empty : entries empty = []
 peek_eq : ∀ s k, peek s k = ((entries s).find? fun e => e.1 = k).map Prod.snd
 entries_put : ∀ s k v, entries (put s k v) = (k, v) :: (entries s).filter fun e => e.1 ≠ k
 entries_get : ∀ s k v, peek s k = some v → entries (get s k) = (k, v) :: (entries s).filter fun e => e.1 ≠ k
 entries_get_none : ∀ s k, peek s k = none → entries (get s k) = entries s
 entries_erase : ∀ s k, entries (erase s k) = (entries s).filter fun e => e.1 ≠ k
 entries_clear : ∀ s, entries (clear s) = []

def recencyList (Key Value : Type) [DecidableEq Key] : LruCache Key Value where
 State := List (Key × Value)
 empty := []
 entries s := s
 peek s k := (s.find? fun e => e.1 = k).map Prod.snd
 put s k v := (k, v) :: s.filter fun e => e.1 ≠ k
 get s k := match s.find? fun e => e.1 = k with
  | some e => (k, e.2) :: s.filter fun e => e.1 ≠ k
  | none => s
 erase s k := s.filter fun e => e.1 ≠ k
 clear _ := []
 entries_empty := rfl
 peek_eq _ _ := rfl
 entries_put _ _ _ := rfl
 entries_get s k v h := by
  obtain ⟨e, he, rfl⟩ := Option.map_eq_some_iff.1 h
  simp only [he]
 entries_get_none s k h := by simp only [Option.map_eq_none_iff.1 h]
 entries_erase _ _ := rfl
 entries_clear _ := rfl

variable {Site Key Value : Type} [LinearOrder Site] [LinearOrder Key] (cache : LruCache Key Value) (siteOfKey : Key → Site)

structure MoltSiteLRU (Site : Type) {Key Value : Type} [LinearOrder Site] [LinearOrder Key] (cache : LruCache Key Value) where
 base : cache.State
 shares : MoltSiteShares Site Key

namespace MoltSiteLRU

variable {cache} (c : MoltSiteLRU Site cache)

def put (key : Key) (value : Value) : MoltSiteLRU Site cache :=
 { base := cache.put c.base key value, shares := c.shares.added (siteOfKey key) key }

def get (key : Key) : MoltSiteLRU Site cache :=
 { base := cache.get c.base key
   shares := if (cache.peek c.base key).isSome then c.shares.used key else c.shares }

def erase (key : Key) : MoltSiteLRU Site cache := { base := cache.erase c.base key, shares := c.shares.removed key }

def clear : MoltSiteLRU Site cache := { base := cache.clear c.base, shares := c.shares.clear }

/-- The loop that makes room; each turn takes an entry off the record, so `fuel` bounds them. -/
@[grind =] def evictFor (site : Site) : ℕ → MoltSiteLRU Site cache → MoltSiteLRU Site cache
 | 0, c => c
 | fuel + 1, c =>
  match c.shares.nextToEvictFor site with
  | none => c
  | some victim =>
   match cache.peek c.base victim with
   | none => evictFor site fuel { c with shares := c.shares.removed victim }
   | some _ => evictFor site fuel (c.erase victim)

def moltMakeRoomFor (key : Key) : Bool × MoltSiteLRU Site cache :=
 if (cache.peek c.base key).isSome then (true, c)
 else
  let c := evictFor (siteOfKey key) c.shares.total c
  (c.shares.hasRoomFor (siteOfKey key), c)

def moltKeepPerSiteShares (limits : MoltSiteShareLimits) : MoltSiteLRU Site cache := { base := cache.empty, shares := { limits } }

end MoltSiteLRU

inductive CacheCall (Key Value : Type) where
 | store (key : Key) (value : Value)
 | get (key : Key)
 | erase (key : Key)
 | clear

namespace MoltSiteLRU

variable {cache}

def step (c : MoltSiteLRU Site cache) : CacheCall Key Value → MoltSiteLRU Site cache
 | .store key value =>
  let (kept, c) := c.moltMakeRoomFor siteOfKey key
  if kept then c.put siteOfKey key value else c
 | .get key => c.get key
 | .erase key => if (cache.peek c.base key).isSome then c.erase key else c
 | .clear => c.clear

variable (cache) in
def run (limits : MoltSiteShareLimits) (calls : List (CacheCall Key Value)) : MoltSiteLRU Site cache :=
 calls.foldl (step siteOfKey) (moltKeepPerSiteShares limits)

def entries (c : MoltSiteLRU Site cache) : List (Key × Value) := cache.entries c.base

def keys (c : MoltSiteLRU Site cache) : List Key := c.entries.map Prod.fst

def held (c : MoltSiteLRU Site cache) (site : Site) : List (Key × Value) := c.entries.filter fun e => siteOfKey e.1 = site

/-- The record agrees with the entries, which are within the shares. -/
structure Sound (limits : MoltSiteShareLimits) (c : MoltSiteLRU Site cache) : Prop where
 agrees : Agrees siteOfKey c.shares c.keys
 limited : c.shares.limits = limits
 perSite : ∀ site, (c.held siteOfKey site).length ≤ limits.perSite
 total : c.entries.length ≤ limits.total

end MoltSiteLRU

/-! ## The calls on the entries -/

section Entries

variable {cache} {siteOfKey} {c : MoltSiteLRU Site cache}

open MoltSiteLRU

theorem peek_some {key : Key} : (cache.peek c.base key).isSome ↔ key ∈ c.keys := by
 rw [cache.peek_eq, Option.isSome_map, find?_isSome, keys, mem_map]
 constructor
 · rintro ⟨e, he, hkey⟩
   exact ⟨e, he, by simpa using hkey⟩
 · rintro ⟨e, he, hkey⟩
   exact ⟨e, he, by simpa using hkey⟩

theorem map_filter_key (key : Key) (l : List (Key × Value)) :
  (l.filter fun e => e.1 ≠ key).map Prod.fst = without key (l.map Prod.fst) := by
 rw [without, filter_map]
 rfl

theorem keys_put (key : Key) (value : Value) : (c.put siteOfKey key value).keys = front key c.keys := by
 rw [keys, entries, MoltSiteLRU.put, cache.entries_put, map_cons, map_filter_key]
 rfl

theorem keys_erase (key : Key) : (c.erase key).keys = without key c.keys := by
 rw [keys, entries, MoltSiteLRU.erase, cache.entries_erase, map_filter_key]
 rfl

theorem keys_get {key : Key} (h : key ∈ c.keys) : (c.get key).keys = front key c.keys := by
 obtain ⟨value, hvalue⟩ := Option.isSome_iff_exists.1 (peek_some.2 h)
 rw [keys, entries, MoltSiteLRU.get, cache.entries_get _ _ _ hvalue, map_cons, map_filter_key]
 rfl

theorem held_keys (site : Site) : (c.held siteOfKey site).map Prod.fst = keysOf siteOfKey site c.keys := by
 rw [held, keysOf, keys, filter_map]
 rfl

theorem held_length (site : Site) : (c.held siteOfKey site).length = (keysOf siteOfKey site c.keys).length := by
 rw [← held_keys, length_map]

theorem held_put (key : Key) (value : Value) (site : Site) : (c.put siteOfKey key value).held siteOfKey site =
  if siteOfKey key = site then (key, value) :: (c.held siteOfKey site).filter (fun e => e.1 ≠ key) else
   (c.held siteOfKey site).filter fun e => e.1 ≠ key := by
 rw [held, entries, MoltSiteLRU.put, cache.entries_put, filter_cons, held, entries, filter_filter, filter_filter]
 simp only [decide_eq_true_eq, Bool.and_comm]

theorem held_get {key : Key} {value : Value} (h : cache.peek c.base key = some value) (site : Site) :
  (c.get key).held siteOfKey site =
   if siteOfKey key = site then (key, value) :: (c.held siteOfKey site).filter (fun e => e.1 ≠ key) else
    (c.held siteOfKey site).filter fun e => e.1 ≠ key := by
 rw [held, entries, MoltSiteLRU.get, cache.entries_get _ _ _ h, filter_cons, held, entries, filter_filter,
  filter_filter]
 simp only [decide_eq_true_eq, Bool.and_comm]

theorem held_erase (key : Key) (site : Site) :
  (c.erase key).held siteOfKey site = (c.held siteOfKey site).filter fun e => e.1 ≠ key := by
 rw [held, entries, MoltSiteLRU.erase, cache.entries_erase, held, entries, filter_filter, filter_filter]
 simp only [Bool.and_comm]

theorem held_other {key : Key} {site : Site} (h : siteOfKey key ≠ site) :
  (c.held siteOfKey site).filter (fun e => e.1 ≠ key) = c.held siteOfKey site := by
 refine filter_eq_self.2 fun e he => ?_
 have hsite := (mem_filter.1 he).2
 rw [decide_eq_true_eq] at hsite ⊢
 rintro rfl
 exact h hsite

end Entries

/-! ## Making room -/

section Room

variable {cache} {siteOfKey} {c : MoltSiteLRU Site cache}

open MoltSiteLRU

theorem victim_spec {site : Site} {victim : Key} (h : Agrees siteOfKey c.shares c.keys)
  (hvictim : c.shares.nextToEvictFor site = some victim) :
  (0 < (c.held siteOfKey site).length ∧
   (c.shares.limits.perSite ≤ (c.held siteOfKey site).length ∨ c.shares.limits.total ≤ c.entries.length)) ∧
  victim ∈ c.keys ∧ siteOfKey victim = site ∧
  (c.held siteOfKey site).filter (fun e => e.1 ≠ victim) = (c.held siteOfKey site).dropLast := by
 have htotal : c.shares.total = c.entries.length := by rw [h.total, keys, length_map]
 rw [MoltSiteShares.nextToEvictFor, moltSiteShareEvictsOwn, h.heldBy, ← held_length, htotal, h.order, ← held_keys] at hvictim
 split_ifs at hvictim with hevicts
 rw [Bool.not_eq_false, Bool.and_eq_true, decide_eq_true_eq, Bool.or_eq_true, decide_eq_true_eq, decide_eq_true_eq] at hevicts
 have hnodup : ((c.held siteOfKey site).map Prod.fst).Nodup := by
  rw [held_keys]
  exact h.once.filter _
 have hmem : victim ∈ keysOf siteOfKey site c.keys := by
  rw [← held_keys]
  exact mem_of_getLast? hvictim
 refine ⟨hevicts, (mem_keysOf.1 hmem).1, (mem_keysOf.1 hmem).2, ?_⟩
 generalize c.held siteOfKey site = l at hvictim hnodup
 induction l using List.reverseRecOn with
 | nil => exact absurd hvictim (by simp)
 | append_singleton l e =>
  rw [map_append, map_singleton, getLast?_concat] at hvictim
  obtain rfl := Option.some.inj hvictim
  rw [map_append, map_singleton, nodup_append] at hnodup
  have hrest : l.filter (fun d => d.1 ≠ e.1) = l := by
   refine filter_eq_self.2 fun d hd => ?_
   rw [decide_eq_true_eq]
   exact hnodup.2.2 d.1 (mem_map_of_mem hd) e.1 (by simp)
  rw [filter_append, hrest, filter_singleton, dropLast_concat]
  simp

theorem Agrees.erase (h : Agrees siteOfKey c.shares c.keys) (key : Key) :
  Agrees siteOfKey (c.erase key).shares (c.erase key).keys := by
 rw [keys_erase]
 exact h.removed

theorem erase_limits (key : Key) : (c.erase key).shares.limits = c.shares.limits := by
 rw [MoltSiteLRU.erase, MoltSiteShares.removed]
 cases c.shares.where_.get key with
 | none => rfl
 | some place => rfl

theorem erase_entries_length {key : Key} (h : Agrees siteOfKey c.shares c.keys) (hkey : key ∈ c.keys) :
  (c.erase key).entries.length + 1 = c.entries.length := by
 have hlength := without_length h.once hkey
 rw [← keys_erase, keys, keys, length_map, length_map] at hlength
 exact hlength

structure Cleared (siteOfKey : Key → Site) (site : Site) (c c' : MoltSiteLRU Site cache) : Prop where
 agrees : Agrees siteOfKey c'.shares c'.keys
 limits : c'.shares.limits = c.shares.limits
 others : ∀ other, other ≠ site → c'.held siteOfKey other = c.held siteOfKey other
 own : c'.held siteOfKey site <+: c.held siteOfKey site
 fewer : c'.entries.length ≤ c.entries.length
 missing : ∀ key, key ∉ c.keys → key ∉ c'.keys

theorem evictFor_turn {fuel : ℕ} {site : Site} {victim : Key} (h : Agrees siteOfKey c.shares c.keys)
  (hvictim : c.shares.nextToEvictFor site = some victim) :
  evictFor site (fuel + 1) c = evictFor site fuel (c.erase victim) := by
 obtain ⟨value, hvalue⟩ := Option.isSome_iff_exists.1 (peek_some.2 (victim_spec h hvictim).2.1)
 rw [evictFor, hvictim]
 dsimp only
 rw [hvalue]

theorem evictFor_cleared (site : Site) (fuel : ℕ) (h : Agrees siteOfKey c.shares c.keys) :
  Cleared siteOfKey site c (evictFor site fuel c) := by
 induction fuel generalizing c with
 | zero => exact ⟨h, rfl, fun _ _ => rfl, prefix_refl _, le_refl _, fun _ => id⟩
 | succ fuel ih =>
  cases hvictim : c.shares.nextToEvictFor site with
  | none =>
   rw [evictFor, hvictim]
   exact ⟨h, rfl, fun _ _ => rfl, prefix_refl _, le_refl _, fun _ => id⟩
  | some victim =>
   obtain ⟨-, hmem, hsite, hlast⟩ := victim_spec h hvictim
   have hlength := erase_entries_length h hmem
   obtain ⟨hagrees, hlimits, hothers, hown, hfewer, hmissing⟩ := ih (h.erase victim)
   rw [evictFor_turn h hvictim]
   refine ⟨hagrees, hlimits.trans (erase_limits victim), fun other hne => ?_, ?_, by omega, fun key hkey => hmissing key ?_⟩
   · rw [hothers other hne, held_erase, held_other fun heq => hne (heq.symm.trans hsite)]
   · rw [held_erase, hlast] at hown
     exact hown.trans (List.dropLast_prefix _)
   · rw [keys_erase]
     exact fun hk => hkey (mem_of_mem_filter hk)

end Room

end MoltBrowser.SiteShares
