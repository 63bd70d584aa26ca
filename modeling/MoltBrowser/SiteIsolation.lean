import MoltBrowser.SiteLru

set_option autoImplicit false

/-!
# Shares keep sites apart

Whatever is done with a cache, its record agrees with its entries and the shares hold. While the
cache isn't full, a site's entries are those of a cache of its own, of the size of its share.
-/
namespace MoltBrowser.SiteShares
open SortedTable MoltSiteLRU List

variable {Site Key Value : Type} [LinearOrder Site] [LinearOrder Key] {cache : LruCache Key Value} {siteOfKey : Key → Site}
variable {limits : MoltSiteShareLimits} {c : MoltSiteLRU Site cache}

/-! ## The shares hold -/

variable {site : Site} {key : Key}

theorem keysOf_front {keys : List Key} (hkeys : keys.Nodup) (h : key ∈ keys) :
  (keysOf siteOfKey site (front key keys)).length = (keysOf siteOfKey site keys).length := by
 rw [front, keysOf_cons]
 split_ifs with hsite
 · have hmem : key ∈ keysOf siteOfKey site keys := mem_keysOf.2 ⟨h, hsite⟩
   have hpos := length_pos_of_mem hmem
   rw [keysOf_without site key hkeys, length_cons, length_erase_of_mem hmem]
   omega
 · rw [keysOf_without_ne hkeys hsite]

theorem MoltSiteLRU.Sound.toFront {c' : MoltSiteLRU Site cache} (h : Sound siteOfKey limits c) (hkey : key ∈ c.keys)
  (hagrees : Agrees siteOfKey c'.shares (front key c.keys)) (hlimits : c'.shares.limits = c.shares.limits)
  (hkeys : c'.keys = front key c.keys) : Sound siteOfKey limits c' := by
 have hlength := without_length h.agrees.once hkey
 refine ⟨hkeys ▸ hagrees, hlimits.trans h.limited, fun site => ?_, ?_⟩
 · rw [held_length, hkeys, keysOf_front h.agrees.once hkey, ← held_length]
   exact h.perSite site
 · have htotal := h.total
   have hcount : c'.entries.length = (front key c.keys).length := by rw [← hkeys, MoltSiteLRU.keys, length_map]
   rw [hcount, front, length_cons, hlength, MoltSiteLRU.keys, length_map]
   exact htotal

theorem MoltSiteLRU.Sound.empty (limits : MoltSiteShareLimits) :
  Sound siteOfKey limits (moltKeepPerSiteShares limits : MoltSiteLRU Site cache) := by
 have hentries : (moltKeepPerSiteShares limits : MoltSiteLRU Site cache).entries = [] := cache.entries_empty
 refine ⟨?_, rfl, fun site => ?_, ?_⟩
 · rw [MoltSiteLRU.keys, hentries]
   exact agrees_empty limits
 · rw [MoltSiteLRU.held, hentries]
   exact Nat.zero_le _
 · rw [hentries]
   exact Nat.zero_le _

theorem MoltSiteLRU.Sound.cleared {c' : MoltSiteLRU Site cache} (h : Sound siteOfKey limits c)
  (hcleared : Cleared siteOfKey site c c') : Sound siteOfKey limits c' := by
 refine ⟨hcleared.agrees, hcleared.limits.trans h.limited, fun other => ?_, hcleared.fewer.trans h.total⟩
 by_cases hother : other = site
 · rw [hother]
   exact hcleared.own.length_le.trans (h.perSite site)
 · rw [hcleared.others other hother]
   exact h.perSite other

theorem hasRoom_spec {site : Site} (h : Sound siteOfKey limits c) : c.shares.hasRoomFor site = true ↔
  (c.held siteOfKey site).length < limits.perSite ∧ c.entries.length < limits.total := by
 have htotal : c.shares.total = c.entries.length := by rw [h.agrees.total, MoltSiteLRU.keys, length_map]
 rw [MoltSiteShares.hasRoomFor, moltSiteShareHasRoom, h.limited, h.agrees.heldBy, ← held_length, htotal, Bool.and_eq_true,
  decide_eq_true_eq, decide_eq_true_eq]

theorem MoltSiteLRU.Sound.putNew (h : Sound siteOfKey limits c) (hkey : key ∉ c.keys)
  (hroom : c.shares.hasRoomFor (siteOfKey key) = true) (value : Value) : Sound siteOfKey limits (c.put siteOfKey key value) := by
 obtain ⟨hsite, htotal⟩ := (hasRoom_spec h).1 hroom
 have hkeys : (c.put siteOfKey key value).keys = key :: c.keys := by
  rw [keys_put, front, show without key c.keys = c.keys from without_of_not_mem hkey]
 refine ⟨?_, (added_limits _ _ _).trans h.limited, fun site => ?_, ?_⟩
 · rw [keys_put]
   exact h.agrees.added
 · rw [held_length, hkeys, keysOf_cons]
   split_ifs with heq
   · rw [length_cons, ← held_length, ← heq]
     exact hsite
   · rw [← held_length]
     exact h.perSite site
 · have hcount : (c.put siteOfKey key value).entries.length = (key :: c.keys).length := by
    rw [← hkeys, MoltSiteLRU.keys, length_map]
   rw [hcount, length_cons, MoltSiteLRU.keys, length_map]
   exact htotal

theorem makeRoom_cleared (h : Sound siteOfKey limits c) :
  Cleared siteOfKey (siteOfKey key) c (c.moltMakeRoomFor siteOfKey key).2 := by
 rw [moltMakeRoomFor]
 split_ifs
 · exact ⟨h.agrees, rfl, fun _ _ => rfl, prefix_refl _, le_refl _, fun _ => id⟩
 · exact evictFor_cleared _ _ h.agrees

theorem MoltSiteLRU.Sound.step (h : Sound siteOfKey limits c) (call : CacheCall Key Value) : Sound siteOfKey limits (c.step siteOfKey call) := by
 cases call with
 | store key value =>
  have hcleared : Cleared siteOfKey (siteOfKey key) c (c.moltMakeRoomFor siteOfKey key).2 := makeRoom_cleared h
  have hsound := h.cleared hcleared
  rw [MoltSiteLRU.step]
  by_cases hheld : (cache.peek c.base key).isSome = true
  · have hmem := peek_some.1 hheld
    rw [moltMakeRoomFor, if_pos hheld]
    exact h.toFront hmem h.agrees.added (added_limits _ _ _) (keys_put key value)
  · rw [moltMakeRoomFor, if_neg hheld] at hsound hcleared ⊢
    dsimp only at hsound hcleared ⊢
    split_ifs with hroom
    · exact hsound.putNew (hcleared.missing key fun hkey => hheld (peek_some.2 hkey)) hroom value
    · exact hsound
 | get key =>
  rw [MoltSiteLRU.step]
  by_cases hheld : (cache.peek c.base key).isSome = true
  · have hmem := peek_some.1 hheld
    refine h.toFront hmem ?_ ?_ (keys_get hmem)
    · rw [MoltSiteLRU.get, if_pos hheld]
      exact h.agrees.used hmem
    · rw [MoltSiteLRU.get, if_pos hheld]
      exact used_limits _ _
  · have hnone : cache.peek c.base key = none := by simpa using hheld
    have hentries : (c.get key).entries = c.entries := cache.entries_get_none _ _ hnone
    have hshares : (c.get key).shares = c.shares := by rw [MoltSiteLRU.get, if_neg hheld]
    refine ⟨?_, ?_, fun site => ?_, ?_⟩
    · rw [hshares, MoltSiteLRU.keys, hentries]
      exact h.agrees
    · rw [hshares]
      exact h.limited
    · rw [MoltSiteLRU.held, hentries]
      exact h.perSite site
    · rw [hentries]
      exact h.total
 | erase key =>
  rw [MoltSiteLRU.step]
  split_ifs with hheld
  · have hlength := erase_entries_length h.agrees (peek_some.1 hheld)
    refine ⟨h.agrees.erase key, (erase_limits key).trans h.limited, fun site => ?_, ?_⟩
    · rw [held_erase]
      exact (length_filter_le _ _).trans (h.perSite site)
    · have htotal := h.total
      omega
  · exact h
 | clear =>
  have hentries : c.clear.entries = [] := cache.entries_clear _
  refine ⟨?_, h.limited, fun site => ?_, ?_⟩
  · rw [MoltSiteLRU.step, MoltSiteLRU.keys, hentries]
    have hempty : Agrees siteOfKey ({ limits } : MoltSiteShares Site Key) [] := agrees_empty limits
    exact ⟨nodup_nil, hempty.sites, hempty.indexed, fun k p hp => absurd hp (by simp [MoltSiteLRU.clear,
     MoltSiteShares.clear, Table.get, Table.empty]), .nil, rfl⟩
  · rw [MoltSiteLRU.step, MoltSiteLRU.held, hentries]
    exact Nat.zero_le _
  · rw [MoltSiteLRU.step, hentries]
    exact Nat.zero_le _

theorem MoltSiteLRU.Sound.run (limits : MoltSiteShareLimits) (calls : List (CacheCall Key Value)) :
  Sound siteOfKey limits (run cache siteOfKey limits calls) := by
 induction calls using List.reverseRecOn with
 | nil => exact .empty limits
 | append_singleton calls call ih =>
  rw [MoltSiteLRU.run, foldl_concat]
  exact ih.step call

/-! ## A site's entries are its own cache's -/

local instance lawfulBEq_key : LawfulBEq Key := inferInstance

/-- A call on a cache of one site, whose share holds `perSite` entries. -/
def siteStep (perSite : ℕ) (l : List (Key × Value)) : CacheCall Key Value → List (Key × Value)
 | .store key value =>
  if key ∈ l.map Prod.fst then (key, value) :: l.filter (fun e => e.1 ≠ key)
  else
   let l := if perSite ≤ l.length then l.take (perSite - 1) else l
   if l.length < perSite then (key, value) :: l else l
 | .get key =>
  match l.find? fun e => e.1 = key with
  | some e => e :: l.filter (fun e => e.1 ≠ key)
  | none => l
 | .erase key => l.filter fun e => e.1 ≠ key
 | .clear => []

def OfSite (siteOfKey : Key → Site) (site : Site) : CacheCall Key Value → Prop
 | .store key _ | .get key | .erase key => siteOfKey key = site
 | .clear => True

instance (site : Site) (call : CacheCall Key Value) : Decidable (OfSite siteOfKey site call) := by
 cases call <;> unfold OfSite <;> infer_instance

theorem evictFor_held {fuel : ℕ} {site : Site} (h : Agrees siteOfKey c.shares c.keys)
  (hfree : c.entries.length < c.shares.limits.total) (hfuel : c.entries.length ≤ fuel) :
  (evictFor site fuel c).held siteOfKey site =
   if c.shares.limits.perSite ≤ (c.held siteOfKey site).length then
    (c.held siteOfKey site).take (c.shares.limits.perSite - 1)
   else c.held siteOfKey site := by
 have hle : (c.held siteOfKey site).length ≤ c.entries.length := length_filter_le _ _
 induction fuel generalizing c with
 | zero =>
  have hnil : c.held siteOfKey site = [] := eq_nil_of_length_eq_zero (by omega)
  rw [evictFor, hnil]
  simp
 | succ fuel ih =>
  cases hvictim : c.shares.nextToEvictFor site with
  | none =>
   rw [evictFor, hvictim]
   have hnil : c.shares.limits.perSite ≤ (c.held siteOfKey site).length → c.held siteOfKey site = [] := by
    intro hfull
    by_contra hne
    have hpos := length_pos_iff.2 hne
    rw [MoltSiteShares.nextToEvictFor, moltSiteShareEvictsOwn, h.heldBy, ← held_length, h.order] at hvictim
    rw [if_neg (by simp [hpos, hfull]), getLast?_eq_none_iff, ← held_keys, map_eq_nil_iff] at hvictim
    exact hne hvictim
   split_ifs with hfull
   · rw [hnil hfull, take_nil]
   · rfl
  | some victim =>
   obtain ⟨⟨hpos, hfull⟩, hmem, hsite, hlast⟩ := victim_spec h hvictim
   replace hfull := hfull.resolve_right (by omega)
   have hlength := erase_entries_length h hmem
   have hlimits : (c.erase victim).shares.limits = c.shares.limits := erase_limits victim
   have hheld : (c.erase victim).held siteOfKey site = (c.held siteOfKey site).dropLast := by rw [held_erase, hlast]
   rw [evictFor_turn h hvictim, ih (h.erase victim) (by rw [hlimits]; omega) (by omega) (by rw [hheld, length_dropLast]; omega),
    hlimits, hheld, if_pos hfull, length_dropLast, dropLast_eq_take, take_take]
   split_ifs with hmore
   · rw [Nat.min_eq_left (by omega)]
   · rw [show (c.held siteOfKey site).length - 1 = c.shares.limits.perSite - 1 by omega]

theorem mem_keys_iff (hsite : siteOfKey key = site) :
  key ∈ c.keys ↔ key ∈ (c.held siteOfKey site).map Prod.fst := by
 rw [held_keys, mem_keysOf]
 exact ⟨fun h => ⟨h, hsite⟩, And.left⟩

theorem find_held (hsite : siteOfKey key = site) :
  (c.held siteOfKey site).find? (fun e => e.1 = key) = (cache.peek c.base key).map fun value => (key, value) := by
 have hfind : (c.held siteOfKey site).find? (fun e => e.1 = key) = (cache.entries c.base).find? fun e => e.1 = key := by
  rw [MoltSiteLRU.held, find?_filter]
  apply congrArg (fun p => (cache.entries c.base).find? p)
  funext e
  by_cases he : e.1 = key
  · simp [he, hsite]
  · simp [he]
 rw [hfind, cache.peek_eq]
 cases he : (cache.entries c.base).find? fun e => e.1 = key with
 | none => rfl
 | some e =>
  have hkey := find?_some he
  rw [decide_eq_true_eq] at hkey
  rw [Option.map_some, Option.map_some, ← hkey]

/-- A call of the site is a call on a cache of its own, while the total isn't reached. -/
theorem held_step {call : CacheCall Key Value} (h : Sound siteOfKey limits c) (hcall : OfSite siteOfKey site call)
  (hfree : c.entries.length < limits.total) :
  (c.step siteOfKey call).held siteOfKey site = siteStep limits.perSite (c.held siteOfKey site) call := by
 cases call with
 | store key value =>
  have hsite : siteOfKey key = site := hcall
  rw [MoltSiteLRU.step, siteStep]
  by_cases hheld : (cache.peek c.base key).isSome = true
  · rw [moltMakeRoomFor, if_pos hheld, if_pos ((mem_keys_iff hsite).1 (peek_some.1 hheld))]
    dsimp only
    rw [if_pos rfl, held_put, if_pos hsite]
  · have hkey : key ∉ c.keys := fun hkey => hheld (peek_some.2 hkey)
    have hcleared := evictFor_cleared (siteOfKey key) c.shares.total h.agrees
    have hsound := h.cleared hcleared
    have hroom := @hasRoom_spec _ _ _ _ _ _ _ _ _ site hsound
    have hfuel : c.entries.length ≤ c.shares.total := by rw [h.agrees.total, MoltSiteLRU.keys, length_map]
    have hown := @evictFor_held _ _ _ _ _ _ _ _ _ site h.agrees (by rw [h.limited]; exact hfree) hfuel
    have hnew : ∀ e ∈ (evictFor site c.shares.total c).held siteOfKey site, e.1 ≠ key := by
     rintro e he rfl
     rw [hsite] at hcleared
     exact hcleared.missing _ hkey ((mem_keys_iff hsite).2 (mem_map_of_mem he))
    rw [moltMakeRoomFor, if_neg hheld, if_neg fun h => hkey ((mem_keys_iff hsite).2 h)]
    rw [hsite] at hcleared hroom ⊢
    dsimp only
    rw [h.limited] at hown
    rw [← hown]
    have hfree' := hcleared.fewer.trans_lt hfree
    by_cases hlt : ((evictFor site c.shares.total c).held siteOfKey site).length < limits.perSite
    · rw [if_pos (hroom.2 ⟨hlt, hfree'⟩), if_pos hlt, held_put, if_pos hsite,
       filter_eq_self.2 fun e he => by simpa using hnew e he]
    · rw [if_neg fun hr => hlt (hroom.1 hr).1, if_neg hlt]
 | get key =>
  have hsite : siteOfKey key = site := hcall
  rw [MoltSiteLRU.step, siteStep, find_held hsite]
  cases hpeek : cache.peek c.base key with
  | none =>
   have hentries : (c.get key).entries = c.entries := cache.entries_get_none _ _ hpeek
   rw [MoltSiteLRU.held, hentries]
   rfl
  | some value =>
   rw [held_get hpeek, if_pos hsite]
   rfl
 | erase key =>
  have hsite : siteOfKey key = site := hcall
  rw [MoltSiteLRU.step, siteStep]
  split_ifs with hheld
  · exact held_erase key site
  · refine (filter_eq_self.2 fun e he => ?_).symm
    rw [decide_eq_true_eq]
    rintro rfl
    exact hheld (peek_some.2 ((mem_keys_iff hsite).2 (mem_map_of_mem he)))
 | clear =>
  have hentries : c.clear.entries = [] := cache.entries_clear _
  rw [MoltSiteLRU.step, siteStep, MoltSiteLRU.held, hentries]
  rfl

theorem held_step_other {call : CacheCall Key Value} (h : Sound siteOfKey limits c)
  (hcall : ¬ OfSite siteOfKey site call) : (c.step siteOfKey call).held siteOfKey site = c.held siteOfKey site := by
 cases call with
 | store key value =>
  have hsite : siteOfKey key ≠ site := hcall
  have hcleared : Cleared siteOfKey (siteOfKey key) c (c.moltMakeRoomFor siteOfKey key).2 := makeRoom_cleared h
  rw [MoltSiteLRU.step]
  dsimp only
  split_ifs
  · rw [held_put, if_neg hsite, held_other hsite, hcleared.others site (Ne.symm hsite)]
  · exact hcleared.others site (Ne.symm hsite)
 | get key =>
  have hsite : siteOfKey key ≠ site := hcall
  rw [MoltSiteLRU.step]
  cases hpeek : cache.peek c.base key with
  | none =>
   have hentries : (c.get key).entries = c.entries := cache.entries_get_none _ _ hpeek
   rw [MoltSiteLRU.held, hentries]
   rfl
  | some value => rw [held_get hpeek, if_neg hsite, held_other hsite]
 | erase key =>
  have hsite : siteOfKey key ≠ site := hcall
  rw [MoltSiteLRU.step]
  split_ifs
  · rw [held_erase, held_other hsite]
  · rfl
 | clear => exact absurd trivial hcall

variable (cache siteOfKey) in
def NeverFull (limits : MoltSiteShareLimits) (calls : List (CacheCall Key Value)) : Prop :=
 ∀ done, done <+: calls → (run cache siteOfKey limits done).shares.total < limits.total

instance (calls : List (CacheCall Key Value)) : Decidable (NeverFull cache siteOfKey limits calls) :=
 decidable_of_iff (∀ done ∈ calls.inits, (run cache siteOfKey limits done).shares.total < limits.total)
  (forall_congr' fun done => by rw [mem_inits])

theorem held_run (site : Site) {calls : List (CacheCall Key Value)} (hfree : NeverFull cache siteOfKey limits calls) :
  (run cache siteOfKey limits calls).held siteOfKey site =
   (calls.filter fun call => OfSite siteOfKey site call).foldl (siteStep limits.perSite) [] := by
 induction calls using List.reverseRecOn with
 | nil =>
  have hentries : (run cache siteOfKey limits [] : MoltSiteLRU Site cache).entries = [] := cache.entries_empty
  rw [MoltSiteLRU.held, hentries]
  rfl
 | append_singleton calls call ih =>
  have hsound : Sound siteOfKey limits (run cache siteOfKey limits calls) := .run limits calls
  have htotal := hfree calls (prefix_append ..)
  rw [hsound.agrees.total, MoltSiteLRU.keys, length_map] at htotal
  have hrest := ih fun done hdone => hfree done (hdone.trans (prefix_append ..))
  rw [MoltSiteLRU.run, foldl_concat, ← MoltSiteLRU.run, filter_append, foldl_append]
  by_cases hcall : OfSite siteOfKey site call
  · rw [held_step hsound hcall htotal, hrest, filter_cons_of_pos (by simpa using hcall)]
    rfl
  · rw [held_step_other hsound hcall, hrest, filter_cons_of_neg (by simpa using hcall)]
    rfl

/-- The record agrees with the entries and the shares hold, whatever is called; making room for an
entry costs no other site one; and two histories that do the same with a site leave it the same
entries while neither fills the cache. -/
theorem shares_hold_and_isolate (cache : LruCache Key Value) (siteOfKey : Key → Site) (limits : MoltSiteShareLimits) :
  (∀ calls, Sound siteOfKey limits (run cache siteOfKey limits calls) ∧ ∀ key site, siteOfKey key ≠ site →
   ((run cache siteOfKey limits calls).moltMakeRoomFor siteOfKey key).2.held siteOfKey site =
    (run cache siteOfKey limits calls).held siteOfKey site) ∧
  ∀ site calls calls', (calls.filter fun call => OfSite siteOfKey site call) = calls'.filter (fun call => OfSite siteOfKey site call) →
   NeverFull cache siteOfKey limits calls → NeverFull cache siteOfKey limits calls' →
   (run cache siteOfKey limits calls).held siteOfKey site = (run cache siteOfKey limits calls').held siteOfKey site := by
 refine ⟨fun calls => ?_, fun site calls calls' hsame hfree hfree' => ?_⟩
 · have hsound : Sound siteOfKey limits (run cache siteOfKey limits calls) := .run limits calls
   exact ⟨hsound, fun key site hne => (makeRoom_cleared hsound).others site (Ne.symm hne)⟩
 · rw [held_run site hfree, held_run site hfree', hsame]

theorem shares_hold_and_isolate_tens :
  (run (recencyList ℕ ℕ) (· / 10) ⟨2, 5⟩ [.store 1 7, .store 11 8, .store 2 5, .get 1, .store 12 9, .store 3 4]).held (· / 10) 0 =
   (run (recencyList ℕ ℕ) (· / 10) ⟨2, 5⟩ [.store 1 7, .store 2 5, .get 1, .store 3 4, .store 21 6]).held (· / 10) 0 :=
 (shares_hold_and_isolate (recencyList ℕ ℕ) (· / 10) ⟨2, 5⟩).2 0 _ _ rfl (by decide) (by decide)

end MoltBrowser.SiteShares
