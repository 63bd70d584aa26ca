import MoltBrowser.SortedTable
import Mathlib.Order.Defs.LinearOrder

set_option autoImplicit false

/-!
# Shares per site of a network cache

The record of a cache's entries by site, each site's in order of use, and what it says of making
room. A place in the index keeps its site and the node of its key in the site's list; a list has
a key once, so the node is the key.
-/
namespace MoltBrowser.SiteShares
open SortedTable List

structure MoltSiteShareLimits where
 perSite : ℕ
 total : ℕ

def moltSiteShareEvictsOwn (limits : MoltSiteShareLimits) (siteHolds allHold : ℕ) : Bool :=
 0 < siteHolds && (limits.perSite ≤ siteHolds || limits.total ≤ allHold)

def moltSiteShareHasRoom (limits : MoltSiteShareLimits) (siteHolds allHold : ℕ) : Bool :=
 siteHolds < limits.perSite && allHold < limits.total

structure Place (Site : Type) where
 site : Site
 use : ℕ

structure MoltSiteShares (Site Key : Type) [LinearOrder Site] [LinearOrder Key] where
 limits : MoltSiteShareLimits
 sites : Table Site (List Key) := .empty
 where_ : Table Key (Place Site) := .empty
 total : ℕ := 0
 uses : ℕ := 0

variable {Site Key : Type} [LinearOrder Site] [LinearOrder Key]

namespace MoltSiteShares

def order (s : MoltSiteShares Site Key) (site : Site) : List Key := (s.sites.get site).getD []

def heldBy (s : MoltSiteShares Site Key) (site : Site) : ℕ := (s.order site).length

def nextToEvictFor (s : MoltSiteShares Site Key) (site : Site) : Option Key :=
 if moltSiteShareEvictsOwn s.limits (s.heldBy site) s.total = false then none else (s.order site).getLast?

def hasRoomFor (s : MoltSiteShares Site Key) (site : Site) : Bool := moltSiteShareHasRoom s.limits (s.heldBy site) s.total

def used (s : MoltSiteShares Site Key) (key : Key) : MoltSiteShares Site Key :=
 match s.where_.get key with
 | none => s
 | some place =>
  { s with
    sites := s.sites.insert place.site (key :: (s.order place.site).erase key)
    where_ := s.where_.insert key { place with use := s.uses + 1 }
    uses := s.uses + 1 }

def added (s : MoltSiteShares Site Key) (site : Site) (key : Key) : MoltSiteShares Site Key :=
 if (s.where_.get key).isSome then s.used key
 else
  { s with
    sites := s.sites.insert site (key :: s.order site)
    where_ := s.where_.insert key { site, use := s.uses + 1 }
    uses := s.uses + 1
    total := s.total + 1 }

def removed (s : MoltSiteShares Site Key) (key : Key) : MoltSiteShares Site Key :=
 match s.where_.get key with
 | none => s
 | some place =>
  let order := (s.order place.site).erase key
  { s with
    sites := if order.isEmpty then s.sites.erase place.site else s.sites.insert place.site order
    where_ := s.where_.erase key
    total := s.total - 1 }

def clear (s : MoltSiteShares Site Key) : MoltSiteShares Site Key := { s with sites := .empty, where_ := .empty, total := 0 }

end MoltSiteShares

theorem used_limits (s : MoltSiteShares Site Key) (key : Key) : (s.used key).limits = s.limits := by
 rw [MoltSiteShares.used]
 cases s.where_.get key with
 | none => rfl
 | some place => rfl

theorem added_limits (s : MoltSiteShares Site Key) (site : Site) (key : Key) : (s.added site key).limits = s.limits := by
 rw [MoltSiteShares.added]
 split_ifs
 · exact used_limits s key
 · rfl

/-! ## The record and the entries held -/

section Agreement

variable (siteOf : Key → Site)

def keysOf (site : Site) (keys : List Key) : List Key := keys.filter fun k => siteOf k = site

/-- The record is of exactly the keys held, which stand in order of use, the last used first. -/
structure Agrees (s : MoltSiteShares Site Key) (keys : List Key) : Prop where
 once : keys.Nodup
 sites : ∀ site, s.sites.get site = if keysOf siteOf site keys = [] then none else some (keysOf siteOf site keys)
 indexed : ∀ key, (s.where_.get key).isSome ↔ key ∈ keys
 placed : ∀ key place, s.where_.get key = some place → place.site = siteOf key ∧ place.use ≤ s.uses
 ordered : keys.Pairwise fun k l => ∀ p q, s.where_.get k = some p → s.where_.get l = some q → q.use < p.use
 total : s.total = keys.length

variable {siteOf} {s : MoltSiteShares Site Key} {keys : List Key}

theorem Agrees.order (h : Agrees siteOf s keys) (site : Site) : s.order site = keysOf siteOf site keys := by
 rw [MoltSiteShares.order, h.sites]
 split_ifs with hnil
 · rw [hnil]
   rfl
 · rfl

theorem Agrees.heldBy (h : Agrees siteOf s keys) (site : Site) : s.heldBy site = (keysOf siteOf site keys).length := by
 rw [MoltSiteShares.heldBy, h.order]

theorem agrees_empty (limits : MoltSiteShareLimits) : Agrees siteOf ({ limits } : MoltSiteShares Site Key) [] where
 once := nodup_nil
 sites _ := rfl
 indexed key := by simp [Table.get, Table.empty]
 placed key place h := absurd h (by simp [Table.get, Table.empty])
 ordered := .nil
 total := rfl

def without (key : Key) (keys : List Key) : List Key := keys.filter (· ≠ key)

omit [LinearOrder Key] in
theorem keysOf_cons (site : Site) (key : Key) (keys : List Key) :
  keysOf siteOf site (key :: keys) = if siteOf key = site then key :: keysOf siteOf site keys else keysOf siteOf site keys := by
 rw [keysOf, filter_cons]
 simp only [decide_eq_true_eq]
 rfl

variable {key : Key}

omit [LinearOrder Key] in
theorem mem_keysOf {site : Site} : key ∈ keysOf siteOf site keys ↔ key ∈ keys ∧ siteOf key = site := by
 rw [keysOf, mem_filter, decide_eq_true_eq]

theorem keysOf_without (site : Site) (key : Key) (hkeys : keys.Nodup) :
  keysOf siteOf site (without key keys) = (keysOf siteOf site keys).erase key := by
 have hnodup : (keysOf siteOf site keys).Nodup := hkeys.filter _
 rw [hnodup.erase_eq_filter, keysOf, keysOf, without, filter_filter, filter_filter]
 apply filter_congr
 intro k _
 rw [Bool.and_comm]
 by_cases hk : k = key
 · simp [hk]
 · simp [hk]

theorem keysOf_without_ne {site : Site} (hkeys : keys.Nodup) (hne : siteOf key ≠ site) :
  keysOf siteOf site (without key keys) = keysOf siteOf site keys := by
 rw [keysOf_without site key hkeys]
 exact erase_of_not_mem fun h => hne (mem_keysOf.1 h).2

omit [LinearOrder Key] in
theorem without_of_not_mem [DecidableEq Key] (h : key ∉ keys) : keys.filter (· ≠ key) = keys :=
 filter_eq_self.2 fun k hk => by simpa using fun heq : k = key => h (heq ▸ hk)

def front (key : Key) (keys : List Key) : List Key := key :: without key keys

theorem front_nodup (h : keys.Nodup) : (front key keys).Nodup :=
 nodup_cons.2 ⟨by simp [without], h.filter _⟩

theorem Agrees.toFront {s' : MoltSiteShares Site Key} (h : Agrees siteOf s keys)
  (hsites : ∀ site, s'.sites.get site =
   if site = siteOf key then some (key :: (keysOf siteOf site keys).erase key) else s.sites.get site)
  (hwhere : ∀ k, s'.where_.get k = if k = key then some { site := siteOf key, use := s.uses + 1 } else s.where_.get k)
  (huses : s'.uses = s.uses + 1) (htotal : s'.total = (front key keys).length) : Agrees siteOf s' (front key keys) where
 once := front_nodup h.once
 sites site := by
  rw [hsites, front, keysOf_cons]
  by_cases hsite : siteOf key = site
  · rw [if_pos hsite.symm, if_pos hsite, if_neg (cons_ne_nil _ _), keysOf_without site key h.once]
  · rw [if_neg (Ne.symm hsite), if_neg hsite, keysOf_without_ne h.once hsite, h.sites]
 indexed k := by
  rw [hwhere, front, mem_cons, without, mem_filter]
  by_cases hk : k = key
  · simp [hk]
  · rw [if_neg hk, h.indexed]
    simp [hk]
 placed k place hplace := by
  rw [hwhere] at hplace
  rw [huses]
  split_ifs at hplace with hk
  · obtain rfl := Option.some.inj hplace
    exact ⟨by rw [hk], le_refl _⟩
  · obtain ⟨hsite, huse⟩ := h.placed k place hplace
    exact ⟨hsite, Nat.le_succ_of_le huse⟩
 ordered := by
  rw [front, pairwise_cons]
  constructor
  · intro l hl p q hp hq
    have hne : l ≠ key := by simpa [without] using (mem_filter.1 hl).2
    rw [hwhere, if_pos rfl] at hp
    rw [hwhere, if_neg hne] at hq
    obtain rfl := Option.some.inj hp
    exact Nat.lt_succ_of_le (h.placed l q hq).2
  · refine (h.ordered.filter _).imp_of_mem fun hk hl hlt p q hp hq => ?_
    have hk' := (mem_filter.1 hk).2
    have hl' := (mem_filter.1 hl).2
    rw [decide_eq_true_eq] at hk' hl'
    rw [hwhere, if_neg hk'] at hp
    rw [hwhere, if_neg hl'] at hq
    exact hlt p q hp hq
 total := htotal

theorem without_length (hkeys : keys.Nodup) (h : key ∈ keys) : (without key keys).length + 1 = keys.length := by
 have herase : without key keys = keys.erase key := by
  rw [hkeys.erase_eq_filter, without]
  apply filter_congr
  intro k _
  by_cases hk : k = key
  · simp [hk]
  · simp [hk]
 have hpos := length_pos_of_mem h
 rw [herase, length_erase_of_mem h]
 omega

theorem Agrees.used (h : Agrees siteOf s keys) (hkey : key ∈ keys) : Agrees siteOf (s.used key) (front key keys) := by
 obtain ⟨place, hplace⟩ := Option.isSome_iff_exists.1 ((h.indexed key).2 hkey)
 have hsite := (h.placed key place hplace).1
 have hlength := without_length h.once hkey
 rw [MoltSiteShares.used, hplace]
 refine h.toFront (fun site => ?_) (fun k => ?_) rfl ?_
 · rw [Table.get_insert, hsite, h.order]
   by_cases heq : site = siteOf key
   · rw [if_pos heq, if_pos heq, heq]
   · rw [if_neg heq, if_neg heq]
 · rw [Table.get_insert, hsite]
 · rw [front, length_cons, hlength]
   exact h.total

theorem Agrees.added (h : Agrees siteOf s keys) : Agrees siteOf (s.added (siteOf key) key) (front key keys) := by
 rw [MoltSiteShares.added]
 split_ifs with hheld
 · exact h.used ((h.indexed key).1 hheld)
 have hkey : key ∉ keys := fun hkey => hheld ((h.indexed key).2 hkey)
 have hwithout : without key keys = keys := without_of_not_mem hkey
 refine h.toFront (fun site => ?_) (fun k => ?_) rfl ?_
 · rw [Table.get_insert, h.order]
   by_cases heq : site = siteOf key
   · rw [if_pos heq, if_pos heq, heq, erase_of_not_mem fun hmem => hkey (mem_keysOf.1 hmem).1]
   · rw [if_neg heq, if_neg heq]
 · rw [Table.get_insert]
 · rw [front, length_cons, hwithout]
   exact congrArg (· + 1) h.total

theorem Agrees.removed (h : Agrees siteOf s keys) : Agrees siteOf (s.removed key) (without key keys) := by
 rw [MoltSiteShares.removed]
 cases hplace : s.where_.get key with
 | none =>
  have hkey : key ∉ keys := fun hkey => by
   have := (h.indexed key).2 hkey
   rw [hplace] at this
   exact absurd this (by simp)
  rw [show without key keys = keys from without_of_not_mem hkey]
  exact h
 | some place =>
  have hkey : key ∈ keys := (h.indexed key).1 (by rw [hplace]; rfl)
  have hsite := (h.placed key place hplace).1
  have hlength := without_length h.once hkey
  have hwhere : ∀ k, (s.where_.erase key).get k = if k = key then none else s.where_.get k := Table.get_erase _ _
  dsimp only
  rw [hsite, h.order]
  refine ⟨h.once.filter _, fun site => ?_, fun k => ?_, fun k p hp => ?_, ?_, ?_⟩
  · by_cases heq : site = siteOf key
    · rw [heq, keysOf_without _ key h.once]
      dsimp only
      by_cases hnil : (keysOf siteOf (siteOf key) keys).erase key = []
      · rw [hnil, if_pos rfl, if_pos isEmpty_nil, Table.get_erase, if_pos rfl]
      · rw [if_neg hnil, if_neg (by simpa using hnil), Table.get_insert, if_pos rfl]
    · rw [keysOf_without_ne h.once (Ne.symm heq), ← h.sites]
      dsimp only
      split_ifs
      · rw [Table.get_erase, if_neg heq]
      · rw [Table.get_insert, if_neg heq]
  · rw [hwhere, without, mem_filter, decide_eq_true_eq]
    by_cases hk : k = key
    · simp [hk]
    · rw [if_neg hk, h.indexed]
      simp [hk]
  · rw [hwhere] at hp
    split_ifs at hp
    exact h.placed k p hp
  · refine (h.ordered.filter _).imp fun hlt p q hp hq => ?_
    rw [hwhere] at hp hq
    split_ifs at hp hq
    exact hlt p q hp hq
  · have htotal := h.total
    dsimp only
    omega

end Agreement

end MoltBrowser.SiteShares
