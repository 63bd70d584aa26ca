import MoltBrowser.BackgroundFetchSites
import Mathlib.Data.List.Perm.Basic

set_option autoImplicit false

/-! # What holds of background fetches in every run -/
namespace MoltBrowser.BackgroundFetchSites
open SortedTable Unwinding List

variable {Id Key Site : Type}

/-! ## Lists of registrations -/

theorem activating_spec [DecidableEq Key] (pending active : List (Registration Id Key)) (keys : Multiset Key) :
  ∃ moved, (activating pending active keys).1 = moved.map Registration.id ∧
   ((activating pending active keys).2.1 ++ moved).Perm pending ∧
   (activating pending active keys).2.2.1 = active ++ moved ∧
   (activating pending active keys).2.2.2 = ↑(moved.map Registration.key) + keys ∧
   (moved = [] ∨ (active ++ moved).length ≤ activePerSite) := by
 induction pending generalizing active keys with
 | nil => exact ⟨[], rfl, .nil, (append_nil _).symm, (Multiset.zero_add _).symm, .inl rfl⟩
 | cons p pending ih =>
  rw [activating]
  split_ifs with hroom hkey
  · obtain ⟨moved, hids, hperm, hactive, hkeys, hlength⟩ := ih active keys
    exact ⟨moved, hids, hperm.cons p, hactive, hkeys, hlength⟩
  · obtain ⟨moved, hids, hperm, hactive, hkeys, hlength⟩ := ih (active ++ [p]) (p.key ::ₘ keys)
    refine ⟨p :: moved, ?_, ?_, ?_, ?_, .inr ?_⟩
    · exact congrArg (p.id :: ·) hids
    · exact perm_middle.trans (hperm.cons p)
    · exact hactive.trans (append_assoc _ _ _)
    · refine hkeys.trans ?_
      rw [map_cons, ← Multiset.cons_coe, Multiset.add_cons, Multiset.cons_add]
    · cases hlength with
      | inl hnone =>
       rw [hnone, length_append, length_cons, length_nil]
       exact hroom
      | inr hle => rwa [append_cons]
  · exact ⟨[], rfl, .of_eq (append_nil _), (append_nil _).symm, (Multiset.zero_add _).symm, .inl rfl⟩

theorem takeNext_spec {hasMore : Id → Bool} {active others : List (Registration Id Key)} {next : Registration Id Key}
  (h : takeNext hasMore active = some (next, others)) : hasMore next.id = true ∧ (others ++ [next]).Perm active := by
 induction active generalizing others with
 | nil => cases h
 | cons r rest ih =>
  rw [takeNext] at h
  split_ifs at h with hmore
  · cases h
    exact ⟨hmore, perm_append_singleton _ _⟩
  · obtain ⟨⟨next', others'⟩, htake, heq⟩ := Option.map_eq_some_iff.mp h
    cases heq
    obtain ⟨hnext, hperm⟩ := ih htake
    exact ⟨hnext, hperm.cons r⟩

variable {state : SiteState Id Key}

theorem ids_perm {state' : SiteState Id Key} (h : (state.pending ++ state.active).Perm (state'.pending ++ state'.active)) :
  state.ids.Perm state'.ids := h.map _

/-! ## Every registration in one list of its site -/

variable [LinearOrder Id] [LinearOrder Site] {siteOf : Id → Site} {s : MoltBackgroundFetchSites Id Key Site}

variable (siteOf) in
structure Sound (s : MoltBackgroundFetchSites Id Key Site) : Prop where
 named : Named siteOf s
 registered : ∀ site state, s.sites.get site = some state → ∀ id ∈ state.ids, s.owners.get id = some site
 listed : ∀ id site, s.owners.get id = some site → ∃ state, s.sites.get site = some state ∧ id ∈ state.ids
 once : ∀ site state, s.sites.get site = some state → state.ids.Nodup
 keys : ∀ site state, s.sites.get site = some state → state.activeKeys = ↑(state.active.map Registration.key)
 running : ∀ site state, s.sites.get site = some state → 0 ≤ state.running
 kept : ∀ site state, s.sites.get site = some state → ¬(state.pending = [] ∧ state.active = [] ∧ state.running = 0)
 total : s.totalRunning = (s.sites.sum fun state => state.running.toNat : ℕ)

theorem Sound.empty : Sound siteOf ({} : MoltBackgroundFetchSites Id Key Site) where
 named _ _ h := by cases h
 registered _ _ h := by cases h
 listed _ _ h := by cases h
 once _ _ h := by cases h
 keys _ _ h := by cases h
 running _ _ h := by cases h
 kept _ _ h := by cases h
 total := rfl

theorem Sound.mem_ids (h : Sound siteOf s) (site : Site) (id : Id) : id ∈ (s.get site).ids ↔ s.owners.get id = some site := by
 rw [MoltBackgroundFetchSites.get]
 constructor
 · intro hid
   cases hget : s.sites.get site with
   | none =>
    rw [hget] at hid
    cases hid
   | some state =>
    rw [hget] at hid
    exact h.registered site state hget id hid
 · intro howner
   obtain ⟨state, hget, hid⟩ := h.listed id site howner
   rw [hget]
   exact hid

theorem Sound.get_once (h : Sound siteOf s) (site : Site) : (s.get site).ids.Nodup := by
 rw [MoltBackgroundFetchSites.get]
 cases hget : s.sites.get site with
 | none => exact nodup_nil
 | some state => exact h.once site state hget

theorem Sound.get_keys (h : Sound siteOf s) (site : Site) : (s.get site).activeKeys = ↑((s.get site).active.map Registration.key) := by
 rw [MoltBackgroundFetchSites.get]
 cases hget : s.sites.get site with
 | none => rfl
 | some state => exact h.keys site state hget

theorem Sound.get_running (h : Sound siteOf s) (site : Site) : 0 ≤ (s.get site).running := by
 rw [MoltBackgroundFetchSites.get]
 cases hget : s.sites.get site with
 | none => exact le_refl _
 | some state => exact h.running site state hget

variable {site : Site}

/-- With a site's state written and its registrations registered, as they all stay in one list. -/
theorem Sound.put (h : Sound siteOf s) {owners : Table Id Site} {totalRunning : ℤ}
  (howners : ∀ id, owners.get id = if id ∈ state.ids then some site else if s.owners.get id = some site then none else s.owners.get id)
  (hnamed : ∀ id ∈ state.ids, siteOf id = site) (honce : state.ids.Nodup)
  (hkeys : state.activeKeys = ↑(state.active.map Registration.key)) (hrunning : 0 ≤ state.running)
  (htotal : totalRunning = s.totalRunning - (s.get site).running + state.running) :
  Sound siteOf { sites := s.dropIfEmpty site state, owners, totalRunning } := by
 -- the site's state is the one written, and every other site's is as it was
 have hget : ∀ k state', (s.dropIfEmpty site state).get k = some state' →
   (k = site ∧ state' = state ∧ ¬(state.pending = [] ∧ state.active = [] ∧ state.running = 0)) ∨ (k ≠ site ∧ s.sites.get k = some state') := by
  intro k state' hstate
  rw [get_dropIfEmpty] at hstate
  split_ifs at hstate with hk hempty
  · cases hstate
    exact .inl ⟨hk, rfl, hempty⟩
  · exact .inr ⟨hk, hstate⟩
 have hother : ∀ k state', k ≠ site → s.sites.get k = some state' → ∀ id ∈ state'.ids, owners.get id = some k := by
  intro k state' hk hstate id hid
  have howner := h.registered k state' hstate id hid
  have hne : siteOf id ≠ site := fun heq => hk ((h.named id k howner).trans heq)
  rw [howners, if_neg fun hmem => hne (hnamed id hmem), if_neg, howner]
  rw [howner]
  exact fun heq => hk (Option.some.inj heq)
 constructor
 · intro id owner howner
   dsimp only at howner
   rw [howners] at howner
   split_ifs at howner with hmem hsite
   · cases howner
     exact (hnamed id hmem).symm
   · exact h.named id owner howner
 · intro k state' hstate id hid
   cases hget k state' hstate with
   | inl hsite =>
    obtain ⟨rfl, rfl, -⟩ := hsite
    exact (howners id).trans (if_pos hid)
   | inr hne => exact hother k state' hne.1 hne.2 id hid
 · intro id k howner
   dsimp only at howner ⊢
   rw [howners] at howner
   split_ifs at howner with hmem hsite
   · cases howner
     refine ⟨state, ?_, hmem⟩
     rw [get_dropIfEmpty, if_pos rfl, if_neg]
     rintro ⟨hpending, hactive, -⟩
     rw [SiteState.ids, hpending, hactive] at hmem
     cases hmem
   · obtain ⟨state', hstate, hid⟩ := h.listed id k howner
     refine ⟨state', ?_, hid⟩
     rw [get_dropIfEmpty, if_neg, hstate]
     rintro rfl
     exact hsite howner
 · intro k state' hstate
   cases hget k state' hstate with
   | inl hsite => exact hsite.2.1 ▸ honce
   | inr hne => exact h.once k state' hne.2
 · intro k state' hstate
   cases hget k state' hstate with
   | inl hsite => exact hsite.2.1 ▸ hkeys
   | inr hne => exact h.keys k state' hne.2
 · intro k state' hstate
   cases hget k state' hstate with
   | inl hsite => exact hsite.2.1 ▸ hrunning
   | inr hne => exact h.running k state' hne.2
 · intro k state' hstate
   cases hget k state' hstate with
   | inl hsite => exact hsite.2.1 ▸ hsite.2.2
   | inr hne => exact h.kept k state' hne.2
 · have hold : (s.sites.get site).elim 0 (fun state => state.running.toNat) = (s.get site).running.toNat := by
    rw [MoltBackgroundFetchSites.get]
    cases s.sites.get site <;> rfl
   have hsum : ((s.dropIfEmpty site state).sum fun state => state.running.toNat) + (s.get site).running.toNat =
     (s.sites.sum fun state => state.running.toNat) + state.running.toNat := by
    rw [← hold, MoltBackgroundFetchSites.dropIfEmpty]
    split_ifs with hempty
    · rw [Table.sum_erase, hempty.2.2]
      rfl
    · exact Table.sum_insert _ _ _ _
   have hrunning' := h.get_running site
   have htotal' := h.total
   dsimp only
   omega

theorem insert_kept (h : ¬(state.pending = [] ∧ state.active = [] ∧ state.running = 0)) :
  s.sites.insert site state = s.dropIfEmpty site state := (if_neg h).symm

theorem Sound.update (h : Sound siteOf s) {totalRunning : ℤ}
  (hids : state.ids.Perm (s.get site).ids) (hkeys : state.activeKeys = ↑(state.active.map Registration.key)) (hrunning : 0 ≤ state.running)
  (htotal : totalRunning = s.totalRunning - (s.get site).running + state.running) :
  Sound siteOf { s with sites := s.dropIfEmpty site state, totalRunning } := by
 have hmem : ∀ id, id ∈ state.ids ↔ s.owners.get id = some site := fun id => hids.mem_iff.trans (h.mem_ids site id)
 apply h.put _ (fun id hid => (h.named id site ((hmem id).mp hid)).symm) (hids.nodup_iff.mpr (h.get_once site)) hkeys hrunning htotal
 intro id
 split_ifs with hin howner
 · exact (hmem id).mp hin
 · exact absurd ((hmem id).mpr howner) hin
 · rfl

variable {id : Id}

theorem Sound.register (h : Sound siteOf s) (hnew : s.owners.get id = none)
  (hids : state.ids.Perm (id :: (s.get (siteOf id)).ids)) (hkeys : state.activeKeys = ↑(state.active.map Registration.key))
  (hrunning : state.running = (s.get (siteOf id)).running) :
  Sound siteOf { s with sites := s.sites.insert (siteOf id) state, owners := s.owners.insert id (siteOf id) } := by
 have hmem : ∀ id', id' ∈ state.ids ↔ id' = id ∨ s.owners.get id' = some (siteOf id) := by
  intro id'
  rw [hids.mem_iff, mem_cons, h.mem_ids]
 have hnone : id ∉ (s.get (siteOf id)).ids := by
  rw [h.mem_ids, hnew]
  exact fun heq => by cases heq
 have hkept : ¬(state.pending = [] ∧ state.active = [] ∧ state.running = 0) := by
  rintro ⟨hpending, hactive, -⟩
  have hin : id ∈ state.ids := (hmem id).mpr (.inl rfl)
  rw [SiteState.ids, hpending, hactive] at hin
  cases hin
 rw [insert_kept hkept]
 apply h.put _ _ (hids.nodup_iff.mpr (nodup_cons.mpr ⟨hnone, h.get_once _⟩)) hkeys (hrunning ▸ h.get_running _)
 · omega
 · intro id'
   rw [Table.get_insert]
   split_ifs with heq hin howner hin howner
   · rfl
   · exact absurd ((hmem id').mpr (.inl heq)) hin
   · exact absurd ((hmem id').mpr (.inl heq)) hin
   · exact ((hmem id').mp hin).resolve_left heq
   · exact absurd ((hmem id').mpr (.inr howner)) hin
   · rfl
 · intro id' hin
   cases (hmem id').mp hin with
   | inl heq => rw [heq]
   | inr howner => exact (h.named id' _ howner).symm

theorem Sound.unregister (h : Sound siteOf s) (howner : s.owners.get id = some (siteOf id))
  (hids : (s.get (siteOf id)).ids.Perm (id :: state.ids)) (hkeys : state.activeKeys = ↑(state.active.map Registration.key))
  (hrunning : state.running = (s.get (siteOf id)).running) :
  Sound siteOf { s with sites := s.dropIfEmpty (siteOf id) state, owners := s.owners.erase id } := by
 obtain ⟨hnone, honce⟩ := nodup_cons.mp (hids.nodup_iff.mp (h.get_once _))
 have hmem : ∀ id', id' ∈ state.ids ↔ id' ≠ id ∧ s.owners.get id' = some (siteOf id) := by
  intro id'
  rw [← h.mem_ids, hids.mem_iff, mem_cons]
  constructor
  · intro hin
    refine ⟨?_, .inr hin⟩
    rintro rfl
    exact hnone hin
  · rintro ⟨hne, hin⟩
    exact hin.resolve_left hne
 apply h.put _ _ honce hkeys (hrunning ▸ h.get_running _)
 · omega
 · intro id'
   rw [Table.get_erase]
   split_ifs with heq hin hsome hin hsome
   · exact absurd heq ((hmem id').mp hin).1
   · rfl
   · exact absurd (heq ▸ howner) hsome
   · exact ((hmem id').mp hin).2
   · exact absurd ((hmem id').mpr ⟨heq, hsome⟩) hin
   · rfl
 · intro id' hin
   exact (h.named id' _ ((hmem id').mp hin).2).symm

theorem get_of (h : s.sites.get site = some state) : s.get site = state := by
 rw [MoltBackgroundFetchSites.get, h]
 rfl

theorem Sound.addPending (h : Sound siteOf s) (id : Id) (key : Key) : Sound siteOf (s.addPending (siteOf id) id key) := by
 rw [MoltBackgroundFetchSites.addPending]
 split_ifs with howner
 · exact h
 · refine h.register (Option.not_isSome_iff_eq_none.mp howner) ?_ (h.get_keys _) rfl
   rw [SiteState.ids, SiteState.ids, append_assoc, map_append]
   exact perm_middle.trans (.cons _ (.of_eq (map_append ..).symm))

theorem Sound.addActive (h : Sound siteOf s) (id : Id) (key : Key) : Sound siteOf (s.addActive (siteOf id) id key) := by
 rw [MoltBackgroundFetchSites.addActive]
 split_ifs with howner
 · exact h
 · refine h.register (Option.not_isSome_iff_eq_none.mp howner) ?_ ?_ rfl
   · rw [SiteState.ids, SiteState.ids, ← append_assoc, map_append]
     exact perm_append_singleton _ _
   · dsimp only
     rw [h.get_keys, map_append, Multiset.cons_coe]
     exact Multiset.coe_eq_coe.mpr (perm_append_singleton _ _).symm

theorem Sound.activate [DecidableEq Key] (h : Sound siteOf s) (site : Site) : Sound siteOf (s.activate site).2 := by
 rw [MoltBackgroundFetchSites.activate]
 cases hget : s.sites.get site with
 | none => exact h
 | some state =>
  obtain ⟨moved, -, hperm, hactive, hkeys, -⟩ := activating_spec state.pending state.active state.activeKeys
  dsimp only
  rw [hactive, hkeys, insert_kept]
  · refine h.update ?_ ?_ (h.running site state hget) (by rw [get_of hget]; dsimp only; omega)
    · rw [get_of hget]
      apply ids_perm
      dsimp only
      refine (perm_append_comm.append_left _).trans ?_
      rw [← append_assoc]
      exact hperm.append_right _
    · dsimp only
      rw [h.keys site state hget, map_append, Multiset.coe_add]
      exact Multiset.coe_eq_coe.mpr perm_append_comm
  · rintro ⟨hpending, hnone, hrunning⟩
    dsimp only at hpending hnone hrunning
    obtain ⟨hactive', hmoved⟩ := append_eq_nil_iff.mp hnone
    rw [hpending, hmoved] at hperm
    exact h.kept site state hget ⟨nil_perm.mp hperm, hactive', hrunning⟩

theorem Sound.nextToStart (h : Sound siteOf s) (site : Site) (hasMore : Id → Bool) : Sound siteOf (s.nextToStart site hasMore).2 := by
 rw [MoltBackgroundFetchSites.nextToStart]
 cases hget : s.sites.get site with
 | none => exact h
 | some state =>
  dsimp only
  split_ifs with hfull
  · exact h
  · cases htake : takeNext hasMore state.active with
    | none => exact h
    | some next =>
     obtain ⟨-, hperm⟩ := takeNext_spec htake
     dsimp only
     rw [insert_kept fun hempty => append_ne_nil_of_right_ne_nil _ (cons_ne_nil _ _) hempty.2.1]
     refine h.update ?_ ?_ (h.running site state hget) (by rw [get_of hget]; dsimp only; omega)
     · rw [get_of hget]
       exact ids_perm (hperm.append_left _)
     · dsimp only
       rw [h.keys site state hget]
       exact Multiset.coe_eq_coe.mpr (hperm.map _).symm

theorem Sound.started (h : Sound siteOf s) (site : Site) (count : ℤ) : Sound siteOf (s.started site count).2 := by
 rw [MoltBackgroundFetchSites.started]
 split_ifs with hcount
 · exact h
 · have hrunning := h.get_running site
   dsimp only
   rw [insert_kept fun hempty => by dsimp only at hempty; omega]
   refine h.update (.refl _) (h.get_keys site) ?_ ?_
   · dsimp only
     omega
   · dsimp only
     omega

theorem Sound.finished (h : Sound siteOf s) (site : Site) (count : ℤ) : Sound siteOf (s.finished site count) := by
 rw [MoltBackgroundFetchSites.finished]
 cases hget : s.sites.get site with
 | none => exact h
 | some state =>
  obtain rfl := get_of hget
  have hrunning := h.get_running site
  dsimp only
  split_ifs with hcount hless
  · exact h
  · refine h.update (.refl _) (h.get_keys site) ?_ ?_
    · dsimp only
      omega
    · dsimp only
      omega
  · refine h.update (.refl _) (h.get_keys site) ?_ ?_
    · dsimp only
      omega
    · dsimp only
      omega

omit [LinearOrder Site] in
theorem eraseP_perm {l : List (Registration Id Key)} {r : Registration Id Key} (h : l.find? (fun p => p.id = id) = some r) :
  r.id = id ∧ l.Perm (r :: l.eraseP fun p => p.id = id) := by
 have hid := find?_some (p := fun p : Registration Id Key => decide (p.id = id)) h
 refine ⟨of_decide_eq_true hid, ?_⟩
 clear hid
 induction l with
 | nil => cases h
 | cons p l ih =>
  by_cases hp : p.id = id
  · rw [find?_cons_of_pos (p := fun p : Registration Id Key => decide (p.id = id)) (decide_eq_true hp)] at h
    cases h
    rw [eraseP_cons_of_pos (p := fun p : Registration Id Key => decide (p.id = id)) (decide_eq_true hp)]
  · have hfalse : ¬decide (p.id = id) = true := fun h => hp (of_decide_eq_true h)
    rw [find?_cons_of_neg (p := fun p : Registration Id Key => decide (p.id = id)) hfalse] at h
    rw [eraseP_cons_of_neg (p := fun p : Registration Id Key => decide (p.id = id)) hfalse]
    exact ((ih h).cons p).trans (.swap _ _ _)

theorem Sound.remove [DecidableEq Key] (h : Sound siteOf s) (id : Id) : Sound siteOf (s.remove id) := by
 rw [MoltBackgroundFetchSites.remove]
 cases howner : s.owners.get id with
 | none => exact h
 | some owner =>
  obtain rfl := h.named id owner howner
  obtain ⟨state, hget, hid⟩ := h.listed id _ howner
  dsimp only
  rw [hget]
  dsimp only
  split_ifs with hpending
  · obtain ⟨p, hp, hpid⟩ := any_eq_true.mp hpending
    cases hfind : state.pending.find? (fun p => p.id = id) with
    | none => exact absurd hpid (find?_eq_none.mp hfind p hp)
    | some r =>
     obtain ⟨rfl, hperm⟩ := eraseP_perm hfind
     refine h.unregister howner ?_ (h.keys _ state hget) (by rw [get_of hget])
     rw [get_of hget]
     exact (hperm.append_right state.active).map Registration.id
  · cases hfind : state.active.find? (fun a => a.id = id) with
    | none =>
     -- it is in one of the lists
     obtain ⟨r, hr, hrid⟩ := mem_map.mp hid
     cases mem_append.mp hr with
     | inl hin => exact absurd (any_eq_true.mpr ⟨r, hin, decide_eq_true hrid⟩) hpending
     | inr hin => exact absurd (decide_eq_true hrid) (find?_eq_none.mp hfind r hin)
    | some r =>
     obtain ⟨rfl, hperm⟩ := eraseP_perm hfind
     refine h.unregister howner ?_ ?_ (by rw [get_of hget])
     · rw [get_of hget]
       exact ((hperm.append_left state.pending).trans perm_middle).map Registration.id
     · dsimp only
       rw [h.keys _ state hget, Multiset.coe_eq_coe.mpr (hperm.map Registration.key), map_cons, ← Multiset.cons_coe,
        Multiset.erase_cons_head]

theorem Sound.call [DecidableEq Key] (h : Sound siteOf s) (c : Call Id Key Site) : Sound siteOf (call siteOf s c).2 := by
 cases c with
 | addPending id key => exact h.addPending id key
 | addActive id key => exact h.addActive id key
 | activate site => exact h.activate site
 | nextToStart site hasMore => exact h.nextToStart site hasMore
 | start site hasMore =>
  have hnext := h.nextToStart site hasMore
  rw [BackgroundFetchSites.call]
  cases hget : s.nextToStart site hasMore with
  | mk next s' =>
   rw [hget] at hnext
   cases next with
   | none => exact hnext
   | some id => exact hnext.started site 1
 | started site count => exact h.started site count
 | finished site count => exact h.finished site count
 | remove id => exact h.remove id
 | siteOf id => exact h

/-! ## What is resumed, and what starts in turn -/

variable (Id Key Site) in
/-- The registrations that were resumed, and how many of a site's running requests were started in turn. -/
structure Watched where
 sites : MoltBackgroundFetchSites Id Key Site := {}
 resumed : Finset Id := ∅
 inTurn : Site → ℤ := fun _ => 0

variable (siteOf) in
/-- A call, and how many of the requests that it finishes were started in turn. -/
def watch [DecidableEq Key] (w : Watched Id Key Site) : Call Id Key Site × ℕ → Watched Id Key Site
 | (c, ofThese) =>
  let (answer, sites) := call siteOf w.sites c
  match c, answer with
  | .addPending id _, _ => { w with sites, resumed := if (w.sites.owners.get id).isSome then w.resumed else w.resumed.erase id }
  | .addActive id _, _ => { w with sites, resumed := if (w.sites.owners.get id).isSome then w.resumed else insert id w.resumed }
  | .start site _, .next (some _) => { w with sites, inTurn := Function.update w.inTurn site (w.inTurn site + 1) }
  | .finished site _, _ =>
   { w with sites, inTurn := Function.update w.inTurn site (min (w.inTurn site - ofThese) (sites.get site).running) }
  | _, _ => { w with sites }

variable {w : Watched Id Key Site}

def madeActive (w : Watched Id Key Site) (state : SiteState Id Key) : List (Registration Id Key) :=
 state.active.filter fun r => r.id ∉ w.resumed

variable (siteOf) in
structure Within (w : Watched Id Key Site) : Prop where
 sound : Sound siteOf w.sites
 fresh : ∀ site, ∀ p ∈ (w.sites.get site).pending, p.id ∉ w.resumed
 active : ∀ site, (madeActive w (w.sites.get site)).length ≤ activePerSite
 running : ∀ site, w.inTurn site ≤ (w.sites.get site).running
 inTurn : ∀ site, w.inTurn site ≤ runningPerSite

theorem Within.empty : Within siteOf ({} : Watched Id Key Site) where
 sound := .empty
 fresh _ _ h := by cases h
 active _ := Nat.zero_le _
 running _ := le_refl _
 inTurn _ := show (0 : ℤ) ≤ runningPerSite by decide

theorem get_insert_site (sites : Table Site (SiteState Id Key)) (own site : Site) (state : SiteState Id Key) (owners : Table Id Site)
  (totalRunning : ℤ) :
  ({ sites := sites.insert own state, owners, totalRunning } : MoltBackgroundFetchSites Id Key Site).get site =
   if site = own then state else (sites.get site).getD {} := by
 rw [MoltBackgroundFetchSites.get, Table.get_insert]
 split_ifs <;> rfl

theorem get_drop_site (s : MoltBackgroundFetchSites Id Key Site) (own site : Site) (state : SiteState Id Key) (owners : Table Id Site)
  (totalRunning : ℤ) :
  let after : MoltBackgroundFetchSites Id Key Site := { sites := s.dropIfEmpty own state, owners, totalRunning }
  (after.get site).pending = (if site = own then state else s.get site).pending ∧
   (after.get site).active = (if site = own then state else s.get site).active ∧
   (after.get site).running = (if site = own then state else s.get site).running := by
 intro after
 have hget : after.get site = (if site = own then if state.pending = [] ∧ state.active = [] ∧ state.running = 0 then none else some state
   else s.sites.get site).getD {} := congrArg (fun o => Option.getD o ({} : SiteState Id Key)) (get_dropIfEmpty s own state site)
 rw [hget]
 split_ifs with hown hempty
 · exact ⟨hempty.1.symm, hempty.2.1.symm, hempty.2.2.symm⟩
 · exact ⟨rfl, rfl, rfl⟩
 · exact ⟨rfl, rfl, rfl⟩

theorem Within.own (h : Within siteOf w) {w' : Watched Id Key Site} {own : Site} (hsound : Sound siteOf w'.sites)
  (hothers : ∀ site, site ≠ own → w'.sites.sites.get site = w.sites.sites.get site)
  (hresumed : ∀ id, siteOf id ≠ own → (id ∈ w'.resumed ↔ id ∈ w.resumed)) (hturn : ∀ site, site ≠ own → w'.inTurn site = w.inTurn site)
  (hfresh : ∀ p ∈ (w'.sites.get own).pending, p.id ∉ w'.resumed) (hactive : (madeActive w' (w'.sites.get own)).length ≤ activePerSite)
  (hrunning : w'.inTurn own ≤ (w'.sites.get own).running) (hinTurn : w'.inTurn own ≤ runningPerSite) : Within siteOf w' := by
 have hget : ∀ site, site ≠ own → w'.sites.get site = w.sites.get site := fun site hne => congrArg (fun o => Option.getD o ({} : SiteState Id Key)) (hothers site hne)
 have hids : ∀ site, site ≠ own → ∀ id ∈ (w.sites.get site).ids, (id ∈ w'.resumed ↔ id ∈ w.resumed) := by
  intro site hne id hid
  apply hresumed
  rw [← h.sound.named id site ((h.sound.mem_ids site id).mp hid)]
  exact hne
 refine ⟨hsound, ?_, ?_, ?_, ?_⟩
 · intro site p hp
   by_cases hown : site = own
   · exact hfresh p (hown ▸ hp)
   · rw [hget site hown] at hp
     rw [hids site hown p.id (mem_map_of_mem (mem_append_left _ hp))]
     exact h.fresh site p hp
 · intro site
   by_cases hown : site = own
   · exact hown ▸ hactive
   · have hsame : madeActive w' (w.sites.get site) = madeActive w (w.sites.get site) := by
      apply filter_congr
      intro r hr
      exact decide_eq_decide.mpr (not_congr (hids site hown r.id (mem_map_of_mem (mem_append_right _ hr))))
     rw [hget site hown, hsame]
     exact h.active site
 · intro site
   by_cases hown : site = own
   · exact hown ▸ hrunning
   · rw [hget site hown, hturn site hown]
     exact h.running site
 · intro site
   by_cases hown : site = own
   · exact hown ▸ hinTurn
   · rw [hturn site hown]
     exact h.inTurn site

theorem Within.same (h : Within siteOf w) {s' : MoltBackgroundFetchSites Id Key Site} {own : Site} (hsound : Sound siteOf s')
  (hapart : Apart siteOf own w.sites s') (hpending : ∀ p ∈ (s'.get own).pending, p ∈ (w.sites.get own).pending)
  (hactive : (madeActive w (s'.get own)).length ≤ activePerSite) (hrunning : (w.sites.get own).running ≤ (s'.get own).running) :
  Within siteOf { w with sites := s' } :=
 h.own hsound hapart.sites (fun _ _ => Iff.rfl) (fun _ _ => rfl) (fun p hp => h.fresh own p (hpending p hp)) hactive
  ((h.running own).trans hrunning) (h.inTurn own)

theorem Within.not_listed (h : Within siteOf w) (hnew : w.sites.owners.get id = none) {r : Registration Id Key}
  (hr : r ∈ (w.sites.get site).pending ++ (w.sites.get site).active) : r.id ≠ id := by
 rintro rfl
 have howner := (h.sound.mem_ids site r.id).mp (mem_map_of_mem hr)
 rw [hnew] at howner
 cases howner

variable [DecidableEq Key]

theorem Within.addPending (h : Within siteOf w) (id : Id) (key : Key) (ofThese : ℕ) :
  Within siteOf (watch siteOf w (.addPending id key, ofThese)) := by
 have hsound : Sound siteOf (w.sites.addPending (siteOf id) id key) := h.sound.addPending id key
 have hapart : Apart siteOf (siteOf id) w.sites (w.sites.addPending (siteOf id) id key) := Apart.call h.sound.named (.addPending id key)
 rw [watch, call]
 dsimp only
 cases howner : w.sites.owners.get id with
 | some owner =>
  rw [MoltBackgroundFetchSites.addPending, howner] at hsound hapart ⊢
  exact h.same hsound hapart (fun _ hp => hp) (h.active _) (le_refl _)
 | none =>
  rw [MoltBackgroundFetchSites.addPending, howner] at hsound hapart ⊢
  simp only [Option.isSome_none, Bool.false_eq_true, if_false] at hsound hapart ⊢
  refine h.own hsound hapart.sites ?_ (fun _ _ => rfl) ?_ ?_ ?_ (h.inTurn _)
  · intro id' hne
    dsimp only
    rw [Finset.mem_erase]
    refine ⟨And.right, fun hin => ⟨?_, hin⟩⟩
    rintro rfl
    exact hne rfl
  · intro p hp
    dsimp only at hp ⊢
    rw [get_insert_site, if_pos rfl] at hp
    rw [Finset.mem_erase, not_and_or]
    cases mem_append.mp hp with
    | inl hold => exact .inr (h.fresh _ p hold)
    | inr hlast => exact .inl fun hne => hne (congrArg Registration.id (mem_singleton.mp hlast))
  · dsimp only
    rw [get_insert_site, if_pos rfl]
    refine le_trans (le_of_eq ?_) (h.active (siteOf id))
    apply congrArg List.length
    apply filter_congr
    intro r hr
    have hne := h.not_listed howner (mem_append_right _ hr)
    exact decide_eq_decide.mpr (not_congr (Finset.mem_erase.trans (and_iff_right hne)))
  · dsimp only
    rw [get_insert_site, if_pos rfl]
    exact h.running _

theorem Within.addActive (h : Within siteOf w) (id : Id) (key : Key) (ofThese : ℕ) :
  Within siteOf (watch siteOf w (.addActive id key, ofThese)) := by
 have hsound : Sound siteOf (w.sites.addActive (siteOf id) id key) := h.sound.addActive id key
 have hapart : Apart siteOf (siteOf id) w.sites (w.sites.addActive (siteOf id) id key) := Apart.call h.sound.named (.addActive id key)
 rw [watch, call]
 dsimp only
 cases howner : w.sites.owners.get id with
 | some owner =>
  rw [MoltBackgroundFetchSites.addActive, howner] at hsound hapart ⊢
  exact h.same hsound hapart (fun _ hp => hp) (h.active _) (le_refl _)
 | none =>
  rw [MoltBackgroundFetchSites.addActive, howner] at hsound hapart ⊢
  simp only [Option.isSome_none, Bool.false_eq_true, if_false] at hsound hapart ⊢
  refine h.own hsound hapart.sites ?_ (fun _ _ => rfl) ?_ ?_ ?_ (h.inTurn _)
  · intro id' hne
    dsimp only
    rw [Finset.mem_insert]
    refine ⟨fun hin => hin.resolve_left ?_, Or.inr⟩
    rintro rfl
    exact hne rfl
  · intro p hp
    dsimp only at hp ⊢
    rw [get_insert_site, if_pos rfl] at hp
    rw [Finset.mem_insert, not_or]
    exact ⟨h.not_listed howner (mem_append_left _ hp), h.fresh _ p hp⟩
  · dsimp only
    rw [get_insert_site, if_pos rfl, madeActive]
    dsimp only
    rw [filter_append, filter_cons_of_neg (by simp), filter_nil, append_nil]
    refine le_trans (le_of_eq ?_) (h.active (siteOf id))
    apply congrArg List.length
    apply filter_congr
    intro r hr
    have hne := h.not_listed howner (mem_append_right _ hr)
    exact decide_eq_decide.mpr (not_congr (Finset.mem_insert.trans (or_iff_right hne)))
  · dsimp only
    rw [get_insert_site, if_pos rfl]
    exact h.running _

theorem Within.activate (h : Within siteOf w) (site : Site) : Within siteOf { w with sites := (w.sites.activate site).2 } := by
 have hsound : Sound siteOf (w.sites.activate site).2 := h.sound.activate site
 have hapart : Apart siteOf site w.sites (w.sites.activate site).2 := Apart.call h.sound.named (.activate site)
 rw [MoltBackgroundFetchSites.activate] at hsound hapart ⊢
 cases hget : w.sites.sites.get site with
 | none => exact h
 | some state =>
  rw [hget] at hsound hapart
  obtain ⟨moved, -, hperm, hactive, -, hlength⟩ := activating_spec state.pending state.active state.activeKeys
  dsimp only at hsound hapart ⊢
  apply h.same hsound hapart
  · intro p hp
    rw [get_insert_site, if_pos rfl] at hp
    rw [get_of hget]
    exact hperm.mem_iff.mp (mem_append_left _ hp)
  · have hold := h.active site
    rw [get_of hget] at hold
    rw [get_insert_site, if_pos rfl, madeActive, hactive]
    cases hlength with
    | inl hnone =>
     rw [hnone, append_nil]
     exact hold
    | inr hle => exact (length_filter_le _ _).trans hle
  · rw [get_insert_site, if_pos rfl, get_of hget]

omit [DecidableEq Key] in
theorem nextToStart_spec (s : MoltBackgroundFetchSites Id Key Site) (site : Site) (hasMore : Id → Bool) :
  (s.nextToStart site hasMore).2 = s ∧ (s.nextToStart site hasMore).1 = none ∨
   ∃ next active, (s.nextToStart site hasMore) =
    (some next, { s with sites := s.sites.insert site { s.get site with active } }) ∧ active.Perm (s.get site).active ∧
    (s.get site).running < runningPerSite ∧ hasMore next = true := by
 rw [MoltBackgroundFetchSites.nextToStart]
 cases hget : s.sites.get site with
 | none => exact .inl ⟨rfl, rfl⟩
 | some state =>
  dsimp only
  split_ifs with hfull
  · exact .inl ⟨rfl, rfl⟩
  · cases htake : takeNext hasMore state.active with
    | none => exact .inl ⟨rfl, rfl⟩
    | some next =>
     obtain ⟨hmore, hperm⟩ := takeNext_spec htake
     rw [get_of hget]
     exact .inr ⟨next.1.id, next.2 ++ [next.1], rfl, hperm, not_le.mp hfull, hmore⟩

omit [DecidableEq Key] in
theorem Within.nextToStart (h : Within siteOf w) (site : Site) (hasMore : Id → Bool) :
  Within siteOf { w with sites := (w.sites.nextToStart site hasMore).2 } := by
 have hsound := h.sound.nextToStart site hasMore
 have hapart := Apart.nextToStart h.sound.named site hasMore
 cases nextToStart_spec w.sites site hasMore with
 | inl hnone =>
  rw [hnone.1]
  exact h
 | inr hnext =>
  obtain ⟨next, active, heq, hperm, -, -⟩ := hnext
  rw [heq] at hsound hapart ⊢
  apply h.same hsound hapart
  · intro p hp
    rw [get_insert_site, if_pos rfl] at hp
    exact hp
  · rw [get_insert_site, if_pos rfl]
    exact ((hperm.filter _).length_eq).le.trans (h.active site)
  · rw [get_insert_site, if_pos rfl]

omit [DecidableEq Key] in
theorem Within.started (h : Within siteOf w) (site : Site) (count : ℤ) : Within siteOf { w with sites := (w.sites.started site count).2 } := by
 have hsound := h.sound.started site count
 have hapart := Apart.started h.sound.named site count
 rw [MoltBackgroundFetchSites.started] at hsound hapart ⊢
 split_ifs at hsound hapart ⊢ with hcount
 · exact h
 · apply h.same hsound hapart
   · intro p hp
     rw [get_insert_site, if_pos rfl] at hp
     exact hp
   · rw [get_insert_site, if_pos rfl]
     exact h.active site
   · rw [get_insert_site, if_pos rfl]
     dsimp only
     omega

theorem Within.start (h : Within siteOf w) (site : Site) (hasMore : Id → Bool) (ofThese : ℕ) :
  Within siteOf (watch siteOf w (.start site hasMore, ofThese)) := by
 have hsound : Sound siteOf (call siteOf w.sites (.start site hasMore)).2 := h.sound.call _
 have hapart : Apart siteOf site w.sites (call siteOf w.sites (.start site hasMore)).2 := Apart.call h.sound.named (.start site hasMore)
 rw [watch]
 cases nextToStart_spec w.sites site hasMore with
 | inl hstay =>
  have heq : w.sites.nextToStart site hasMore = (none, w.sites) := Prod.ext hstay.2 hstay.1
  rw [call, heq]
  exact h
 | inr hnext =>
  obtain ⟨next, active, heq, hperm, hroom, -⟩ := hnext
  rw [call, heq] at hsound hapart ⊢
  dsimp only at hsound hapart ⊢
  rw [MoltBackgroundFetchSites.started, if_neg (by decide)] at hsound hapart ⊢
  dsimp only at hsound hapart ⊢
  rw [get_insert_site, if_pos rfl] at hsound hapart ⊢
  refine h.own hsound hapart.sites (fun _ _ => Iff.rfl) (fun _ hne => Function.update_of_ne hne _ _) ?_ ?_ ?_ ?_
  · intro p hp
    rw [get_insert_site, if_pos rfl] at hp
    exact h.fresh site p hp
  · dsimp only
    rw [get_insert_site, if_pos rfl]
    exact ((hperm.filter _).length_eq).le.trans (h.active site)
  · dsimp only
    rw [get_insert_site, if_pos rfl, Function.update_self]
    exact Int.add_le_add_right (h.running site) 1
  · dsimp only
    rw [Function.update_self]
    have hle := h.running site
    omega

theorem Within.finished (h : Within siteOf w) (site : Site) (count : ℤ) (ofThese : ℕ) :
  Within siteOf (watch siteOf w (.finished site count, ofThese)) := by
 have hsound := h.sound.finished site count
 have hapart : Apart siteOf site w.sites (w.sites.finished site count) := Apart.call h.sound.named (.finished site count)
 have hinTurn := h.inTurn site
 -- only the running requests go down
 have hstate : ((w.sites.finished site count).get site).pending = (w.sites.get site).pending ∧
   ((w.sites.finished site count).get site).active = (w.sites.get site).active := by
  rw [MoltBackgroundFetchSites.finished]
  cases hget : w.sites.sites.get site with
  | none => exact ⟨rfl, rfl⟩
  | some state =>
   obtain rfl := get_of hget
   dsimp only
   split_ifs
   · exact ⟨rfl, rfl⟩
   · obtain ⟨hpending, hactive, -⟩ := get_drop_site w.sites site site
      { w.sites.get site with running := (w.sites.get site).running - count } w.sites.owners (w.sites.totalRunning - count)
     rw [if_pos rfl] at hpending hactive
     exact ⟨hpending, hactive⟩
   · obtain ⟨hpending, hactive, -⟩ := get_drop_site w.sites site site
      { w.sites.get site with running := (w.sites.get site).running - (w.sites.get site).running } w.sites.owners
      (w.sites.totalRunning - (w.sites.get site).running)
     rw [if_pos rfl] at hpending hactive
     exact ⟨hpending, hactive⟩
 rw [watch, call]
 refine h.own hsound hapart.sites (fun _ _ => Iff.rfl) (fun _ hne => Function.update_of_ne hne _ _) ?_ ?_ ?_ ?_
 · intro p hp
   dsimp only at hp
   rw [hstate.1] at hp
   exact h.fresh site p hp
 · dsimp only
   rw [madeActive, hstate.2]
   exact h.active site
 · dsimp only
   rw [Function.update_self]
   exact min_le_right _ _
 · dsimp only
   rw [Function.update_self]
   exact (min_le_left _ _).trans (by omega)

theorem Within.remove (h : Within siteOf w) (id : Id) : Within siteOf { w with sites := w.sites.remove id } := by
 have hsound := h.sound.remove id
 have hapart := Apart.remove h.sound.named id
 -- the registration leaves one of the lists
 have hstate : ((w.sites.remove id).get (siteOf id)).pending.Sublist (w.sites.get (siteOf id)).pending ∧
   ((w.sites.remove id).get (siteOf id)).active.Sublist (w.sites.get (siteOf id)).active ∧
   ((w.sites.remove id).get (siteOf id)).running = (w.sites.get (siteOf id)).running := by
  rw [MoltBackgroundFetchSites.remove]
  cases howner : w.sites.owners.get id with
  | none => exact ⟨.refl _, .refl _, rfl⟩
  | some owner =>
   obtain rfl := h.sound.named id owner howner
   dsimp only
   cases hget : w.sites.sites.get (siteOf id) with
   | none => exact ⟨.refl _, .refl _, rfl⟩
   | some state =>
    dsimp only
    rw [get_of hget]
    split_ifs
    · obtain ⟨hpending, hactive, hrunning⟩ := get_drop_site w.sites (siteOf id) (siteOf id)
       { state with pending := state.pending.eraseP fun p => p.id = id } (w.sites.owners.erase id) w.sites.totalRunning
      rw [if_pos rfl] at hpending hactive hrunning
      rw [hpending, hactive, hrunning]
      exact ⟨eraseP_sublist, .refl _, rfl⟩
    · cases state.active.find? fun a => a.id = id with
      | none =>
       dsimp only
       rw [MoltBackgroundFetchSites.get, hget]
       exact ⟨.refl _, .refl _, rfl⟩
      | some a =>
       obtain ⟨hpending, hactive, hrunning⟩ := get_drop_site w.sites (siteOf id) (siteOf id)
        { state with active := state.active.eraseP fun a => a.id = id, activeKeys := state.activeKeys.erase a.key }
        (w.sites.owners.erase id) w.sites.totalRunning
       rw [if_pos rfl] at hpending hactive hrunning
       dsimp only
       rw [hpending, hactive, hrunning]
       exact ⟨.refl _, eraseP_sublist, rfl⟩
 exact h.same hsound hapart (fun p hp => hstate.1.subset hp) (((hstate.2.1.filter _).length_le).trans (h.active _)) hstate.2.2.ge

theorem Within.watch (h : Within siteOf w) (c : Call Id Key Site × ℕ) : Within siteOf (watch siteOf w c) := by
 obtain ⟨c, ofThese⟩ := c
 cases c with
 | addPending id key => exact h.addPending id key ofThese
 | addActive id key => exact h.addActive id key ofThese
 | activate site => exact h.activate site
 | nextToStart site hasMore => exact h.nextToStart site hasMore
 | start site hasMore => exact h.start site hasMore ofThese
 | started site count => exact h.started site count
 | finished site count => exact h.finished site count ofThese
 | remove id => exact h.remove id
 | siteOf id => exact h

theorem Within.watches (h : Within siteOf w) (calls : List (Call Id Key Site × ℕ)) : Within siteOf (calls.foldl (BackgroundFetchSites.watch siteOf) w) := by
 induction calls generalizing w with
 | nil => exact h
 | cons c calls ih => exact ih (h.watch c)

theorem watch_sites (w : Watched Id Key Site) (c : Call Id Key Site × ℕ) : (watch siteOf w c).sites = (call siteOf w.sites c.1).2 := by
 obtain ⟨c, ofThese⟩ := c
 rw [watch]
 cases call siteOf w.sites c with
 | mk answer sites =>
  dsimp only
  split <;> rfl

theorem watches_sites (calls : List (Call Id Key Site × ℕ)) (w : Watched Id Key Site) :
  (calls.foldl (watch siteOf) w).sites = (answers (call siteOf) w.sites (calls.map Prod.fst)).2 := by
 induction calls generalizing w with
 | nil => rfl
 | cons c calls ih =>
  rw [foldl_cons, ih, watch_sites]
  rfl

/-- In every run, a site is answered as if there were no others, but for what the memory valve is told, and its record is the same.
Every registration is in one of its site's lists, and the total is the sum over the sites. No site has more than its allowed
number active that were not resumed, or running that were started in turn. -/
theorem sites_apart (siteOf : Id → Site) (calls : List (Call Id Key Site × ℕ)) :
  let w : Watched Id Key Site := calls.foldl (watch siteOf) {}
  let run := answers (call siteOf) {} (calls.map Prod.fst)
  (∀ site, let alone := answers (call siteOf) {} ((calls.map Prod.fst).filter fun c => c.site siteOf = site)
   (run.1.filter fun p => p.1.site siteOf = site).map (fun p => (p.1, p.2.seen)) = alone.1.map (fun p => (p.1, p.2.seen)) ∧
    run.2.get site = alone.2.get site) ∧
  w.sites = run.2 ∧ Sound siteOf run.2 ∧
  ∀ site, (madeActive w (run.2.get site)).length ≤ activePerSite ∧ w.inTurn site ≤ runningPerSite := by
 intro w run
 have hsites : w.sites = run.2 := watches_sites calls {}
 have hwithin : Within siteOf w := Within.empty.watches calls
 refine ⟨fun site => ?_, hsites, hsites ▸ hwithin.sound, fun site => ⟨hsites ▸ hwithin.active site, hwithin.inTurn site⟩⟩
 have hempty : Alike siteOf site ({} : MoltBackgroundFetchSites Id Key Site) {} :=
  ⟨Sound.empty.named, Sound.empty.named, rfl, fun _ _ => rfl⟩
 obtain ⟨hseen, halike⟩ := (Alike.unwinds siteOf site).answers hempty (calls.map Prod.fst)
 rw [answers_seen, answers_seen] at hseen halike
 rw [List.filter_map] at hseen
 exact ⟨hseen, congrArg (fun o => Option.getD o ({} : SiteState Id Key)) halike.sites⟩

/-- What the memory valve is told of a site's start depends on what the other sites run. -/
theorem valve_told_of_others :
  let siteOf : ℕ → ℕ := fun id => id
  let calls : List (Call ℕ ℕ ℕ) := [.started 1 128, .started 0 1]
  ((answers (call siteOf) {} calls).1.filter fun p => p.1.site siteOf = 0).map Prod.snd = [.valve true] ∧
   (answers (call siteOf) {} (calls.filter fun c => c.site siteOf = 0)).1.map Prod.snd = [.valve false] := by
 decide

end MoltBrowser.BackgroundFetchSites
