import MoltBrowser.SiteLru
import MoltBrowser.TransitionRuns

set_option autoImplicit false

/-!
# Room for an entry that a cache must keep

While all sites together hold the total, the least recently used entry of the site that holds the most may go for it.
-/
namespace MoltBrowser.SiteShares
open SortedTable TransitionRuns List

def moltSiteShareTakesFromLargest (limits : MoltSiteShareLimits) (siteHolds largestHolds allHold : ℕ) : Bool :=
 siteHolds < limits.perSite && limits.total ≤ allHold && 0 < largestHolds && (siteHolds = 0 || siteHolds + 2 ≤ largestHolds)

structure Largest (Key : Type) where
 largestOldest : Option Key := none
 largest : ℕ := 0
 oldestUse : ℕ := 0

variable {Site Key : Type} [LinearOrder Site] [LinearOrder Key]

namespace MoltSiteShares

variable (s : MoltSiteShares Site Key)

def useOf (key : Key) : ℕ := ((s.where_.get key).map Place.use).getD 0

def passRecord (site : Site) (found : Largest Key) (record : Site × List Key) : Largest Key :=
 match record.2.getLast? with
 | none => found
 | some leastRecent =>
  if record.1 = site then found
  else if found.largest < record.2.length ∨ (record.2.length = found.largest ∧ s.useOf leastRecent < found.oldestUse) then
   { largestOldest := some leastRecent, largest := record.2.length, oldestUse := s.useOf leastRecent }
  else found

def largestOther (site : Site) : Largest Key := s.sites.entries.foldl (s.passRecord site) {}

def nextToEvictToKeep (site : Site) : Option Key :=
 if s.heldBy site < s.limits.perSite ∧ s.limits.total ≤ s.total then
  let found := s.largestOther site
  match found.largestOldest with
  | some key =>
   if moltSiteShareTakesFromLargest s.limits (s.heldBy site) found.largest s.total then some key else s.nextToEvictFor site
  | none => s.nextToEvictFor site
 else s.nextToEvictFor site

/-- The loop that makes room: each state it evicts from with the entry it evicts, and the state it ends in. Each turn takes an entry off the
record, so `fuel` bounds them. -/
def makeRoomToKeep (site : Site) : ℕ → MoltSiteShares Site Key → List (MoltSiteShares Site Key × Key) × MoltSiteShares Site Key
 | 0, s => ([], s)
 | fuel + 1, s =>
  match s.nextToEvictToKeep site with
  | none => ([], s)
  | some victim =>
   let (turns, last) := makeRoomToKeep site fuel (s.removed victim)
   ((s, victim) :: turns, last)

end MoltSiteShares

inductive ShareCall (Site Key : Type) where
 | added (site : Site) (key : Key)
 | used (key : Key)
 | removed (key : Key)
 | clear

def MoltSiteShares.call (s : MoltSiteShares Site Key) : ShareCall Site Key → MoltSiteShares Site Key
 | .added site key => s.added site key
 | .used key => s.used key
 | .removed key => s.removed key
 | .clear => s.clear

def sharesAfter (limits : MoltSiteShareLimits) (calls : List (ShareCall Site Key)) : MoltSiteShares Site Key :=
 run MoltSiteShares.call { limits } calls

/-! ## Reachable records -/

def Kept (s : MoltSiteShares Site Key) : Prop := ∃ siteOf keys, Agrees siteOf s keys

section Reachable

variable {siteOf : Key → Site} {s : MoltSiteShares Site Key} {keys : List Key}

theorem Agrees.congr {siteOf' : Key → Site} (h : Agrees siteOf s keys) (hsame : ∀ key ∈ keys, siteOf' key = siteOf key) :
  Agrees siteOf' s keys where
 once := h.once
 sites site := by
  have hkeys : keysOf siteOf' site keys = keysOf siteOf site keys := filter_congr fun key hkey => by rw [hsame key hkey]
  rw [hkeys, h.sites]
 indexed := h.indexed
 placed key place hplace := by
  have hkey : key ∈ keys := (h.indexed key).mp (by rw [hplace]; rfl)
  rw [hsame key hkey]
  exact h.placed key place hplace
 ordered := h.ordered
 total := h.total

theorem Kept.added (h : Kept s) (site : Site) (key : Key) : Kept (s.added site key) := by
 obtain ⟨siteOf, keys, h⟩ := h
 by_cases hkey : key ∈ keys
 · have hheld : (s.where_.get key).isSome = true := (h.indexed key).mpr hkey
   rw [MoltSiteShares.added, if_pos hheld]
   exact ⟨siteOf, _, h.used hkey⟩
 · have hsame : ∀ k ∈ keys, Function.update siteOf key site k = siteOf k := fun k hk =>
    Function.update_of_ne (ne_of_mem_of_not_mem hk hkey) _ _
   have hadded : Agrees (Function.update siteOf key site) (s.added (Function.update siteOf key site key) key) (front key keys) :=
    (h.congr hsame).added
   rw [Function.update_self] at hadded
   exact ⟨_, _, hadded⟩

theorem Kept.used (h : Kept s) (key : Key) : Kept (s.used key) := by
 obtain ⟨siteOf, keys, h⟩ := h
 by_cases hkey : key ∈ keys
 · exact ⟨siteOf, _, h.used hkey⟩
 · have hnone : s.where_.get key = none := Option.not_isSome_iff_eq_none.mp fun hsome => hkey ((h.indexed key).mp hsome)
   rw [MoltSiteShares.used, hnone]
   exact ⟨siteOf, keys, h⟩

theorem Kept.removed (h : Kept s) (key : Key) : Kept (s.removed key) := by
 obtain ⟨siteOf, keys, h⟩ := h
 exact ⟨siteOf, _, h.removed⟩

theorem Kept.clear (h : Kept s) : Kept s.clear := by
 obtain ⟨siteOf, keys, h⟩ := h
 refine ⟨siteOf, [], nodup_nil, fun site => rfl, fun key => ?_, fun key place hplace => ?_, .nil, rfl⟩
 · simp [MoltSiteShares.clear, Table.get, Table.empty]
 · simp [MoltSiteShares.clear, Table.get, Table.empty] at hplace

theorem Kept.call (h : Kept s) (c : ShareCall Site Key) : Kept (s.call c) := by
 cases c with
 | added site key => exact h.added site key
 | used key => exact h.used key
 | removed key => exact h.removed key
 | clear => exact h.clear

theorem removed_limits (s : MoltSiteShares Site Key) (key : Key) : (s.removed key).limits = s.limits := by
 rw [MoltSiteShares.removed]
 cases s.where_.get key <;> rfl

theorem call_limits (s : MoltSiteShares Site Key) (c : ShareCall Site Key) : (s.call c).limits = s.limits := by
 cases c with
 | added site key => exact added_limits s site key
 | used key => exact used_limits s key
 | removed key => exact removed_limits s key
 | clear => rfl

theorem limits_sharesAfter (limits : MoltSiteShareLimits) (calls : List (ShareCall Site Key)) : (sharesAfter limits calls).limits = limits :=
 run_invariant_unconditional (I := fun s : MoltSiteShares Site Key => s.limits = limits) (fun s c h => (call_limits s c).trans h) rfl calls

theorem kept_sharesAfter (limits : MoltSiteShareLimits) (calls : List (ShareCall Site Key)) (site : Site) : Kept (sharesAfter limits calls) :=
 run_invariant_unconditional (fun _ c h => h.call c) ⟨fun _ => site, [], agrees_empty limits⟩ calls

end Reachable

/-! ## The pass over the records -/

section Pass

variable {s : MoltSiteShares Site Key} {site : Site}

/-- What is found is of the records met: none of another site, or the oldest of those that hold the most. -/
structure Found (s : MoltSiteShares Site Key) (site : Site) (records : List (Site × List Key)) (found : Largest Key) : Prop where
 fewer : ∀ record ∈ records, record.1 ≠ site → record.2.length ≤ found.largest
 older : ∀ record ∈ records, record.1 ≠ site → record.2.length = found.largest → ∀ key ∈ record.2.getLast?, found.oldestUse ≤ s.useOf key
 none_found : found.largestOldest = none → found.largest = 0
 some_found : ∀ key ∈ found.largestOldest, found.oldestUse = s.useOf key ∧
  ∃ record ∈ records, record.1 ≠ site ∧ record.2.getLast? = some key ∧ record.2.length = found.largest

theorem Found.passRecord {records : List (Site × List Key)} {found : Largest Key} (h : Found s site records found)
  (record : Site × List Key) : Found s site (records ++ [record]) (s.passRecord site found record) := by
 have hmet : ∀ {P : Site × List Key → Prop}, (∀ r ∈ records, P r) → P record → ∀ r ∈ records ++ [record], P r := by
  intro P hrecords hrecord r hr
  rcases mem_append.mp hr with hr | hr
  · exact hrecords r hr
  · exact mem_singleton.mp hr ▸ hrecord
 have hsome : ∀ key ∈ found.largestOldest, found.oldestUse = s.useOf key ∧
   ∃ r ∈ records ++ [record], r.1 ≠ site ∧ r.2.getLast? = some key ∧ r.2.length = found.largest := by
  intro key hkey
  obtain ⟨huse, r, hr, hfound⟩ := h.some_found key hkey
  exact ⟨huse, r, mem_append_left _ hr, hfound⟩
 rw [MoltSiteShares.passRecord]
 cases hlast : record.2.getLast? with
 | none =>
  have hnil : record.2 = [] := getLast?_eq_none_iff.mp hlast
  refine ⟨hmet h.fewer fun _ => ?_, hmet h.older fun _ _ key hkey => ?_, h.none_found, hsome⟩
  · rw [hnil]
    exact Nat.zero_le _
  · rw [hlast] at hkey
    exact absurd hkey (by simp)
 | some leastRecent =>
  dsimp only
  split_ifs with hown hmore
  · exact ⟨hmet h.fewer fun hne => absurd hown hne, hmet h.older fun hne => absurd hown hne, h.none_found, hsome⟩
  · -- The record takes the place of what was found.
    have hlarger : found.largest ≤ record.2.length := by omega
    refine ⟨hmet (fun r hr hne => (h.fewer r hr hne).trans hlarger) fun _ => le_rfl, hmet (fun r hr hne hlength key hkey => ?_) ?_,
     fun hnone => absurd hnone (by simp), fun key hkey => ?_⟩
    · dsimp only at hlength ⊢
      have hfewer := h.fewer r hr hne
      rcases hmore with hlt | ⟨-, huse⟩
      · omega
      · exact huse.le.trans (h.older r hr hne (by omega) key hkey)
    · intro _ _ key hkey
      rw [hlast] at hkey
      exact (congrArg s.useOf (Option.some.inj hkey)).le
    · obtain rfl := Option.some.inj hkey
      exact ⟨rfl, record, by simp, hown, hlast, rfl⟩
  · rw [not_or, not_lt, not_and, not_lt] at hmore
    refine ⟨hmet h.fewer fun _ => hmore.1, hmet h.older fun _ hlength key hkey => ?_, h.none_found, hsome⟩
    rw [hlast] at hkey
    obtain rfl := Option.some.inj hkey
    exact hmore.2 hlength

theorem found_largestOther (s : MoltSiteShares Site Key) (site : Site) : Found s site s.sites.entries (s.largestOther site) := by
 have hpass : ∀ records met found, Found s site met found → Found s site (met ++ records) (records.foldl (s.passRecord site) found) := by
  intro records
  induction records with
  | nil =>
   intro met found h
   rwa [append_nil]
  | cons record records ih =>
   intro met found h
   have hrest := ih _ _ (h.passRecord record)
   rwa [append_assoc, singleton_append] at hrest
 exact hpass s.sites.entries [] {} ⟨by simp, by simp, fun _ => rfl, by simp⟩

end Pass

/-! ## One turn -/

/-- The entry that a turn evicts is held; one of another site is the least recently used of a site that holds the most of them, the oldest
of such, and afterwards that site still holds as many as the one that makes room, unless this one held none. -/
structure Fair (site : Site) (s : MoltSiteShares Site Key) (victim : Key) : Prop where
 held : (s.where_.get victim).isSome = true
 leastRecent : ∀ place ∈ s.where_.get victim, (s.order place.site).getLast? = some victim
 largest : ∀ place ∈ s.where_.get victim, place.site ≠ site → ∀ other ≠ site, s.heldBy other ≤ s.heldBy place.site
 oldest : ∀ place ∈ s.where_.get victim, place.site ≠ site → ∀ other ≠ site, s.heldBy other = s.heldBy place.site →
  ∀ key ∈ (s.order other).getLast?, s.useOf victim ≤ s.useOf key
 after : ∀ place ∈ s.where_.get victim, place.site ≠ site →
  s.heldBy site = 0 ∨ (s.removed victim).heldBy site ≤ (s.removed victim).heldBy place.site

section Turn

variable {siteOf : Key → Site} {s : MoltSiteShares Site Key} {keys : List Key} {site : Site} {victim : Key}

theorem Agrees.last_held (h : Agrees siteOf s keys) (hlast : (s.order site).getLast? = some victim) :
  ∃ place, s.where_.get victim = some place ∧ place.site = site := by
 rw [h.order] at hlast
 obtain ⟨hmem, hsite⟩ := mem_keysOf.mp (mem_of_getLast? hlast)
 obtain ⟨place, hplace⟩ := Option.isSome_iff_exists.mp ((h.indexed victim).mpr hmem)
 exact ⟨place, hplace, (h.placed victim place hplace).1.trans hsite⟩

theorem order_of_record {other : Site} {order : List Key} (hrecord : (other, order) ∈ s.sites.entries) : s.order other = order := by
 rw [MoltSiteShares.order, s.sites.mem_entries.mp hrecord]
 rfl

theorem record_of_held {other : Site} (h : 0 < s.heldBy other) : (other, s.order other) ∈ s.sites.entries := by
 rw [s.sites.mem_entries]
 rw [MoltSiteShares.heldBy, MoltSiteShares.order] at h
 rw [MoltSiteShares.order]
 cases hget : s.sites.get other with
 | none =>
  rw [hget] at h
  exact absurd h (Nat.lt_irrefl 0)
 | some order => rfl

theorem Agrees.fair_own (h : Agrees siteOf s keys) (hlast : (s.order site).getLast? = some victim) : Fair site s victim := by
 obtain ⟨place, hplace, hsite⟩ := h.last_held hlast
 have hown : ∀ p ∈ s.where_.get victim, p.site = site := fun p hp => by
  rw [hplace] at hp
  exact Option.some.inj hp ▸ hsite
 refine ⟨by rw [hplace]; rfl, fun p hp => ?_, fun p hp hne => absurd (hown p hp) hne, fun p hp hne => absurd (hown p hp) hne,
  fun p hp hne => absurd (hown p hp) hne⟩
 rw [hown p hp]
 exact hlast

theorem Agrees.heldBy_removed (h : Agrees siteOf s keys) {place : Place Site} (hplace : s.where_.get victim = some place) (other : Site) :
  (s.removed victim).heldBy other = if other = place.site then s.heldBy other - 1 else s.heldBy other := by
 have hsite := (h.placed victim place hplace).1
 have hmem : victim ∈ keys := (h.indexed victim).mp (by rw [hplace]; rfl)
 rw [h.removed.heldBy, h.heldBy]
 split_ifs with hother
 · rw [keysOf_without other victim h.once, length_erase_of_mem (mem_keysOf.mpr ⟨hmem, (hother.trans hsite).symm⟩)]
 · rw [keysOf_without_ne h.once (fun heq => hother (heq.symm.trans hsite.symm))]

theorem Agrees.fair_largest (h : Agrees siteOf s keys) (hlargest : (s.largestOther site).largestOldest = some victim)
  (htakes : moltSiteShareTakesFromLargest s.limits (s.heldBy site) (s.largestOther site).largest s.total = true) : Fair site s victim := by
 obtain ⟨hfewer, holder, -, hfound⟩ := found_largestOther s site
 obtain ⟨huse, ⟨other, order⟩, hrecord, hne, hlast, hlength⟩ := hfound victim hlargest
 have horder := order_of_record hrecord
 dsimp only at hne hlast hlength
 have hheld : s.heldBy other = (s.largestOther site).largest := by rw [MoltSiteShares.heldBy, horder, hlength]
 rw [← horder] at hlast
 obtain ⟨place, hplace, rfl⟩ := h.last_held hlast
 have hvictim : ∀ {P : Place Site → Prop}, P place → ∀ p ∈ s.where_.get victim, P p := by
  intro P hP p hp
  rw [hplace] at hp
  exact Option.some.inj hp ▸ hP
 have hmost : ∀ other ≠ site, s.heldBy other ≤ s.heldBy place.site := by
  intro other hother
  rw [hheld]
  rcases Nat.eq_zero_or_pos (s.heldBy other) with hzero | hpos
  · rw [hzero]
    exact Nat.zero_le _
  · exact hfewer _ (record_of_held hpos) hother
 have hpos : 0 < s.heldBy place.site := by
  rw [MoltSiteShares.heldBy]
  exact length_pos_of_mem (mem_of_getLast? hlast)
 refine ⟨by rw [hplace]; rfl, hvictim hlast, hvictim fun _ => hmost, hvictim fun _ other hother hsame key hkey => ?_, hvictim fun _ => ?_⟩
 · rw [← huse]
   exact holder _ (record_of_held (by omega)) hother (hsame.trans hheld) key hkey
 · rw [h.heldBy_removed hplace, h.heldBy_removed hplace, if_neg (Ne.symm hne), if_pos rfl]
   rw [moltSiteShareTakesFromLargest, ← hheld] at htakes
   simp only [Bool.and_eq_true, Bool.or_eq_true, decide_eq_true_eq] at htakes
   omega

theorem nextToEvictFor_some (h : s.nextToEvictFor site = some victim) : (s.order site).getLast? = some victim := by
 rw [MoltSiteShares.nextToEvictFor] at h
 split_ifs at h
 exact h

/-- The entry of the largest other site goes, or else what a new entry that needn't be kept would take. -/
theorem nextToEvictToKeep_cases (s : MoltSiteShares Site Key) (site : Site) :
  (∃ victim, (s.largestOther site).largestOldest = some victim ∧
   moltSiteShareTakesFromLargest s.limits (s.heldBy site) (s.largestOther site).largest s.total = true ∧
   s.nextToEvictToKeep site = some victim) ∨
  ((∀ victim, (s.largestOther site).largestOldest = some victim →
   moltSiteShareTakesFromLargest s.limits (s.heldBy site) (s.largestOther site).largest s.total = false) ∧
   s.nextToEvictToKeep site = s.nextToEvictFor site) := by
 rw [MoltSiteShares.nextToEvictToKeep]
 by_cases hfull : s.heldBy site < s.limits.perSite ∧ s.limits.total ≤ s.total
 · rw [if_pos hfull]
   dsimp only
   cases hfound : (s.largestOther site).largestOldest with
   | none => exact .inr ⟨by simp, rfl⟩
   | some victim =>
    by_cases htakes : moltSiteShareTakesFromLargest s.limits (s.heldBy site) (s.largestOther site).largest s.total = true
    · exact .inl ⟨victim, rfl, htakes, if_pos htakes⟩
    · exact .inr ⟨fun _ _ => Bool.eq_false_of_not_eq_true htakes, if_neg htakes⟩
 · refine .inr ⟨fun _ _ => ?_, if_neg hfull⟩
   by_contra htakes
   rw [Bool.not_eq_false, moltSiteShareTakesFromLargest] at htakes
   simp only [Bool.and_eq_true, decide_eq_true_eq] at htakes
   exact hfull htakes.1.1

theorem Agrees.fair_next (h : Agrees siteOf s keys) (hnext : s.nextToEvictToKeep site = some victim) : Fair site s victim := by
 rcases nextToEvictToKeep_cases s site with ⟨key, hlargest, htakes, hkey⟩ | ⟨-, hown⟩
 · obtain rfl := Option.some.inj (hkey.symm.trans hnext)
   exact h.fair_largest hlargest htakes
 · exact h.fair_own (nextToEvictFor_some (hown.symm.trans hnext))

theorem nextToEvictFor_isSome (hheld : 0 < s.heldBy site) (hfull : s.limits.perSite ≤ s.heldBy site ∨ s.limits.total ≤ s.total) :
  s.nextToEvictFor site ≠ none := by
 have hown : moltSiteShareEvictsOwn s.limits (s.heldBy site) s.total = true := by
  simpa [moltSiteShareEvictsOwn, hheld] using hfull
 rw [MoltSiteShares.nextToEvictFor, if_neg (by rw [hown]; decide), Ne, getLast?_eq_none_iff]
 exact ne_nil_of_length_pos hheld

theorem Agrees.largest_pos (h : Agrees siteOf s keys) (hzero : s.heldBy site = 0) (htotal : 0 < s.total) : 0 < (s.largestOther site).largest := by
 obtain ⟨key, hkey⟩ : ∃ key, key ∈ keys := exists_mem_of_length_pos (h.total ▸ htotal)
 have hpos : ∀ other, siteOf key = other → 0 < s.heldBy other := fun other heq => by
  rw [h.heldBy]
  exact length_pos_of_mem (mem_keysOf.mpr ⟨hkey, heq⟩)
 have hother : siteOf key ≠ site := fun heq => by
  have := hpos site heq
  omega
 have hheld := hpos _ rfl
 exact hheld.trans_le ((found_largestOther s site).fewer _ (record_of_held hheld) hother)

theorem Agrees.hasRoom (h : Agrees siteOf s keys) (hperSite : 1 ≤ s.limits.perSite) (htotal : 1 ≤ s.limits.total)
  (hnext : s.nextToEvictToKeep site = none) : s.hasRoomFor site = true := by
 rcases nextToEvictToKeep_cases s site with ⟨key, -, -, hkey⟩ | ⟨hnever, hown⟩
 · exact absurd (hnext.symm.trans hkey) (by simp)
 · have hnone := hown.symm.trans hnext
   rw [MoltSiteShares.hasRoomFor, moltSiteShareHasRoom, Bool.and_eq_true, decide_eq_true_eq, decide_eq_true_eq]
   by_contra hfull
   rcases Nat.eq_zero_or_pos (s.heldBy site) with hzero | hpos
   · have hlargest := h.largest_pos hzero (by omega)
     cases hfound : (s.largestOther site).largestOldest with
     | none =>
      have := (found_largestOther s site).none_found hfound
      omega
     | some victim =>
      have hneither := hnever victim hfound
      have htakes : moltSiteShareTakesFromLargest s.limits (s.heldBy site) (s.largestOther site).largest s.total = true := by
       simp only [moltSiteShareTakesFromLargest, Bool.and_eq_true, Bool.or_eq_true, decide_eq_true_eq]
       omega
      rw [htakes] at hneither
      exact absurd hneither (by decide)
   · exact nextToEvictFor_isSome hpos (by omega) hnone

end Turn

/-! ## The loop -/

section Loop

variable {siteOf : Key → Site} {s : MoltSiteShares Site Key} {keys : List Key} {site : Site} {victim : Key}

theorem Agrees.total_removed (h : Agrees siteOf s keys) (hheld : (s.where_.get victim).isSome = true) :
  (s.removed victim).total + 1 = s.total := by
 rw [h.removed.total, h.total]
 exact without_length h.once ((h.indexed victim).mp hheld)

theorem Agrees.makeRoomToKeep (h : Agrees siteOf s keys) (site : Site) {fuel : ℕ} (hfuel : s.total ≤ fuel) :
  ((s.makeRoomToKeep site fuel).2.nextToEvictToKeep site = none ∧ (s.makeRoomToKeep site fuel).2.limits = s.limits ∧
   Kept (s.makeRoomToKeep site fuel).2) ∧
  ∀ turn ∈ (s.makeRoomToKeep site fuel).1, turn.1.nextToEvictToKeep site = some turn.2 ∧ Fair site turn.1 turn.2 := by
 induction fuel generalizing s keys with
 | zero =>
  cases hnext : s.nextToEvictToKeep site with
  | none => exact ⟨⟨hnext, rfl, _, _, h⟩, by simp [MoltSiteShares.makeRoomToKeep]⟩
  | some victim =>
   have := h.total_removed (h.fair_next hnext).held
   omega
 | succ fuel ih =>
  rw [MoltSiteShares.makeRoomToKeep]
  cases hnext : s.nextToEvictToKeep site with
  | none => exact ⟨⟨hnext, rfl, _, _, h⟩, by simp⟩
  | some victim =>
   have hfair := h.fair_next hnext
   have htotal := h.total_removed hfair.held
   have hremoved : Agrees siteOf (s.removed victim) (without victim keys) := h.removed
   obtain ⟨⟨hends, hlimits, hkept⟩, hturns⟩ := ih hremoved (by omega)
   exact ⟨⟨hends, hlimits.trans (removed_limits s victim), hkept⟩, forall_mem_cons.mpr ⟨⟨hnext, hfair⟩, hturns⟩⟩

end Loop

/-- Making room for an entry that must be kept ends with room, and takes from other sites fairly. -/
theorem roomToKeep_fair (limits : MoltSiteShareLimits) (hperSite : 1 ≤ limits.perSite) (htotal : 1 ≤ limits.total)
  (calls : List (ShareCall Site Key)) (site : Site) :
  let s := sharesAfter limits calls
  let (turns, last) := s.makeRoomToKeep site s.total
  last.nextToEvictToKeep site = none ∧ last.hasRoomFor site = true ∧
   ∀ turn ∈ turns, turn.1.nextToEvictToKeep site = some turn.2 ∧ Fair site turn.1 turn.2 := by
 have hlimits : (sharesAfter limits calls).limits = limits := limits_sharesAfter limits calls
 obtain ⟨siteOf, keys, hagrees⟩ := kept_sharesAfter limits calls site
 obtain ⟨⟨hends, hsame, _, _, hlast⟩, hturns⟩ := hagrees.makeRoomToKeep site le_rfl
 rw [hlimits] at hsame
 exact ⟨hends, hlast.hasRoom (by rw [hsame]; exact hperSite) (by rw [hsame]; exact htotal) hends, hturns⟩

/-- A share of two and a total of three: a third site gets the place of the first's least recently used entry. -/
theorem roomToKeep_fair_third :
  let s : MoltSiteShares ℕ ℕ := sharesAfter ⟨2, 3⟩ [.added 0 1, .added 0 2, .added 1 3]
  let (turns, last) := s.makeRoomToKeep 2 s.total
  turns.map Prod.snd = [1] ∧ last.nextToEvictToKeep 2 = none ∧ last.hasRoomFor 2 = true ∧
   ∀ turn ∈ turns, turn.1.nextToEvictToKeep 2 = some turn.2 ∧ Fair 2 turn.1 turn.2 :=
 ⟨by decide, roomToKeep_fair ⟨2, 3⟩ (by decide) (by decide) _ 2⟩

/-! ## The cache's loop -/

namespace MoltSiteLRU

variable {Value : Type} {cache : LruCache Key Value} (siteOfKey : Key → Site) (c : MoltSiteLRU Site cache)

def evictToKeep (site : Site) : ℕ → MoltSiteLRU Site cache → MoltSiteLRU Site cache
 | 0, c => c
 | fuel + 1, c =>
  match c.shares.nextToEvictToKeep site with
  | none => c
  | some victim =>
   match cache.peek c.base victim with
   | none => evictToKeep site fuel { c with shares := c.shares.removed victim }
   | some _ => evictToKeep site fuel (c.erase victim)

def moltMakeRoomToKeep (key : Key) : Bool × MoltSiteLRU Site cache :=
 if (cache.peek c.base key).isSome then (true, c)
 else
  let c := evictToKeep (siteOfKey key) c.shares.total c
  (c.shares.hasRoomFor (siteOfKey key), c)

theorem shares_evictToKeep (site : Site) (fuel : ℕ) (c : MoltSiteLRU Site cache) :
  (c.evictToKeep site fuel).shares = (c.shares.makeRoomToKeep site fuel).2 := by
 induction fuel generalizing c with
 | zero => rfl
 | succ fuel ih =>
  rw [evictToKeep, MoltSiteShares.makeRoomToKeep]
  cases c.shares.nextToEvictToKeep site with
  | none => rfl
  | some victim =>
   dsimp only
   cases cache.peek c.base victim with
   | none => exact ih _
   | some value => exact ih _

theorem moltMakeRoomToKeep_kept {siteOfKey : Key → Site} {c : MoltSiteLRU Site cache} (h : Agrees siteOfKey c.shares c.keys)
  (hperSite : 1 ≤ c.shares.limits.perSite) (htotal : 1 ≤ c.shares.limits.total) (key : Key) :
  (c.moltMakeRoomToKeep siteOfKey key).1 = true := by
 rw [moltMakeRoomToKeep]
 split_ifs
 · rfl
 · obtain ⟨⟨hends, hsame, _, _, hlast⟩, -⟩ := h.makeRoomToKeep (siteOfKey key) le_rfl
   dsimp only
   rw [shares_evictToKeep]
   exact hlast.hasRoom (by rw [hsame]; exact hperSite) (by rw [hsame]; exact htotal) hends

end MoltSiteLRU
end MoltBrowser.SiteShares
