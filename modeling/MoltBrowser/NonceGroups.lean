import MoltBrowser.SortedTable
import MoltBrowser.TransitionRuns

set_option autoImplicit false

/-!
# The open nonce groups of each site

A page's nonce is tracked from its first use of storage on until its page has gone. Its group is open at first, and closed past its site's bound
or its own.
-/
namespace MoltBrowser.NonceGroups
open SortedTable TransitionRuns List

def moltNetNonceGroupsPerSite : ℕ := 32

structure MoltNetNonceGroups (Site Nonce : Type) [LinearOrder Site] [LinearOrder Nonce] where
 /-- Oldest first. -/
 open_ : Table Site (List Nonce) := .empty
 siteOf : Table Nonce Site := .empty

variable {Site Nonce : Type} [LinearOrder Site] [LinearOrder Nonce]

namespace MoltNetNonceGroups

variable (s : MoltNetNonceGroups Site Nonce)

def openOf (site : Site) : List Nonce := (s.open_.get site).getD []

def openCount (site : Site) : ℕ := (s.openOf site).length

def isTracked (nonce : Nonce) : Bool := (s.siteOf.get nonce).isSome

def added (site : Site) (nonce : Nonce) : Option Nonce × MoltNetNonceGroups Site Nonce :=
 if s.isTracked nonce then (none, s)
 else
  let siteOf := s.siteOf.insert nonce site
  let queue := s.openOf site ++ [nonce]
  if queue.length ≤ moltNetNonceGroupsPerSite then (none, { open_ := s.open_.insert site queue, siteOf })
  else (queue.head?, { open_ := s.open_.insert site queue.tail, siteOf })

def setOpen (site : Site) (queue : List Nonce) : Table Site (List Nonce) :=
 if queue.isEmpty then s.open_.erase site else s.open_.insert site queue

def gone (nonce : Nonce) : MoltNetNonceGroups Site Nonce :=
 match s.siteOf.get nonce with
 | none => s
 | some site =>
  match s.open_.get site with
  | none => { s with siteOf := s.siteOf.erase nonce }
  | some queue => { open_ := s.setOpen site (queue.erase nonce), siteOf := s.siteOf.erase nonce }

def close (nonce : Nonce) : Bool × MoltNetNonceGroups Site Nonce :=
 match s.siteOf.get nonce with
 | none => (false, s)
 | some site =>
  match s.open_.get site with
  | none => (false, s)
  | some queue => if nonce ∈ queue then (true, { s with open_ := s.setOpen site (queue.erase nonce) }) else (false, s)

end MoltNetNonceGroups

inductive Call (Site Nonce : Type) where
 | added (site : Site) (nonce : Nonce)
 | gone (nonce : Nonce)
 | close (nonce : Nonce)

def call (s : MoltNetNonceGroups Site Nonce) : Call Site Nonce → List Nonce × MoltNetNonceGroups Site Nonce
 | .added site nonce => ((s.added site nonce).1.toList, (s.added site nonce).2)
 | .gone nonce => ([], s.gone nonce)
 | .close nonce => (if (s.close nonce).1 then [nonce] else [], (s.close nonce).2)

def groupsAfter (calls : List (Call Site Nonce)) : MoltNetNonceGroups Site Nonce := run (fun s c => (call s c).2) {} calls

def toldAfter (before : List (Call Site Nonce)) (c : Call Site Nonce) : List Nonce := (call (groupsAfter before) c).1

/-! ## What the calls change -/

section Calls

variable {s : MoltNetNonceGroups Site Nonce} {site : Site} {nonce : Nonce}

theorem isTracked_iff : s.isTracked nonce = true ↔ ∃ site, s.siteOf.get nonce = some site := Option.isSome_iff_exists

theorem get_setOpen (s : MoltNetNonceGroups Site Nonce) (site other : Site) (queue : List Nonce) :
  ((s.setOpen site queue).get other).getD [] = if other = site then queue else s.openOf other := by
 rw [MoltNetNonceGroups.setOpen, MoltNetNonceGroups.openOf]
 cases queue with
 | nil =>
  rw [if_pos isEmpty_nil, Table.get_erase]
  split_ifs <;> rfl
 | cons first queue =>
  rw [if_neg (by simp), Table.get_insert]
  split_ifs <;> rfl

theorem openOf_none (h : s.open_.get site = none) : s.openOf site = [] := by
 rw [MoltNetNonceGroups.openOf, h]
 rfl

theorem openOf_some {queue : List Nonce} (h : s.open_.get site = some queue) : s.openOf site = queue := by
 rw [MoltNetNonceGroups.openOf, h]
 rfl

theorem openOf_erased {queue : List Nonce} (hqueue : s.open_.get site = some queue) (nonce : Nonce) (other : Site) :
  ((s.setOpen site (queue.erase nonce)).get other).getD [] = if other = site then (s.openOf site).erase nonce else s.openOf other := by
 rw [get_setOpen, openOf_some hqueue]

theorem openOf_unerased (h : nonce ∉ s.openOf site) (other : Site) :
  s.openOf other = if other = site then (s.openOf site).erase nonce else s.openOf other := by
 split_ifs with hother
 · rw [hother, erase_of_not_mem h]
 · rfl

theorem gone_untracked (h : s.siteOf.get nonce = none) : s.gone nonce = s := by
 rw [MoltNetNonceGroups.gone, h]

theorem openOf_gone (h : s.siteOf.get nonce = some site) (other : Site) :
  (s.gone nonce).openOf other = if other = site then (s.openOf site).erase nonce else s.openOf other := by
 rw [MoltNetNonceGroups.gone, h]
 dsimp only
 cases hqueue : s.open_.get site with
 | none => exact openOf_unerased (s := s) (by rw [openOf_none hqueue]; exact not_mem_nil) other
 | some queue => exact openOf_erased hqueue nonce other

theorem close_untracked (h : s.siteOf.get nonce = none) : s.close nonce = (false, s) := by
 rw [MoltNetNonceGroups.close, h]

theorem close_tracked (h : s.siteOf.get nonce = some site) : ((s.close nonce).1 = true ↔ nonce ∈ s.openOf site) ∧
  ∀ other, (s.close nonce).2.openOf other = if other = site then (s.openOf site).erase nonce else s.openOf other := by
 rw [MoltNetNonceGroups.close, h]
 dsimp only
 cases hqueue : s.open_.get site with
 | none =>
  have hclosed : nonce ∉ s.openOf site := by
   rw [openOf_none hqueue]
   exact not_mem_nil
  exact ⟨by simp [hclosed], openOf_unerased hclosed⟩
 | some queue =>
  dsimp only
  by_cases hopen : nonce ∈ queue
  · rw [if_pos hopen]
    exact ⟨by simp [openOf_some hqueue, hopen], openOf_erased hqueue nonce⟩
  · have hclosed : nonce ∉ s.openOf site := by rwa [openOf_some hqueue]
    rw [if_neg hopen]
    exact ⟨by simp [hclosed], openOf_unerased hclosed⟩

theorem added_tracked (h : s.isTracked nonce = true) : s.added site nonce = (none, s) := if_pos h

theorem added_new (h : s.isTracked nonce = false) : s.added site nonce =
  if s.openCount site < moltNetNonceGroupsPerSite then
   (none, { open_ := s.open_.insert site (s.openOf site ++ [nonce]), siteOf := s.siteOf.insert nonce site })
  else
   ((s.openOf site ++ [nonce]).head?, { open_ := s.open_.insert site (s.openOf site ++ [nonce]).tail, siteOf := s.siteOf.insert nonce site }) := by
 rw [MoltNetNonceGroups.added, if_neg (by rw [h]; decide)]
 dsimp only
 rw [length_append, length_singleton, MoltNetNonceGroups.openCount]
 rfl

theorem openOf_added (h : s.isTracked nonce = false) (site other : Site) : (s.added site nonce).2.openOf other =
  if other = site then
   if s.openCount site < moltNetNonceGroupsPerSite then s.openOf site ++ [nonce] else (s.openOf site ++ [nonce]).tail
  else s.openOf other := by
 rw [added_new h]
 split_ifs with hroom hother hother
 all_goals
  rw [MoltNetNonceGroups.openOf]
  dsimp only
  rw [Table.get_insert]
 · rw [if_pos hother]
   rfl
 · rw [if_neg hother]
   rfl
 · rw [if_pos hother]
   rfl
 · rw [if_neg hother]
   rfl

theorem siteOf_added (h : s.isTracked nonce = false) (site : Site) : (s.added site nonce).2.siteOf = s.siteOf.insert nonce site := by
 rw [added_new h]
 split_ifs <;> rfl

theorem siteOf_gone (s : MoltNetNonceGroups Site Nonce) (nonce n : Nonce) :
  (s.gone nonce).siteOf.get n = if n = nonce then none else s.siteOf.get n := by
 rw [MoltNetNonceGroups.gone]
 cases howner : s.siteOf.get nonce with
 | none =>
  split_ifs with hn
  · rw [hn, howner]
  · rfl
 | some site =>
  dsimp only
  cases s.open_.get site <;> exact Table.get_erase _ _ _

theorem siteOf_close (s : MoltNetNonceGroups Site Nonce) (nonce : Nonce) : (s.close nonce).2.siteOf = s.siteOf := by
 rw [MoltNetNonceGroups.close]
 cases s.siteOf.get nonce with
 | none => rfl
 | some site =>
  dsimp only
  cases s.open_.get site with
  | none => rfl
  | some queue =>
   dsimp only
   split_ifs <;> rfl

end Calls

/-! ## Every state -/

/-- No site has more open than it may, and what it has open is its own, once. -/
structure Sound (s : MoltNetNonceGroups Site Nonce) : Prop where
 bounded : ∀ site, s.openCount site ≤ moltNetNonceGroupsPerSite
 once : ∀ site, (s.openOf site).Nodup
 owned : ∀ site, ∀ nonce ∈ s.openOf site, s.siteOf.get nonce = some site

section States

variable {s : MoltNetNonceGroups Site Nonce} {site : Site} {nonce : Nonce}

theorem Sound.erased (h : Sound s) {s' : MoltNetNonceGroups Site Nonce}
  (hopen : ∀ other, s'.openOf other = if other = site then (s.openOf site).erase nonce else s.openOf other)
  (howners : ∀ n, n ≠ nonce → s'.siteOf.get n = s.siteOf.get n) (howner : s.siteOf.get nonce = some site) : Sound s' where
 bounded other := by
  rw [MoltNetNonceGroups.openCount, hopen]
  split_ifs with hother
  · exact length_erase_le.trans (h.bounded site)
  · exact h.bounded other
 once other := by
  rw [hopen]
  split_ifs with hother
  · exact (h.once site).erase nonce
  · exact h.once other
 owned other n hn := by
  rw [hopen] at hn
  split_ifs at hn with hother
  · obtain ⟨hne, hn⟩ := (h.once site).mem_erase_iff.mp hn
    rw [howners n hne, hother]
    exact h.owned site n hn
  · have hne : n ≠ nonce := by
     rintro rfl
     exact hother (Option.some.inj ((h.owned other n hn).symm.trans howner))
    rw [howners n hne]
    exact h.owned other n hn

theorem Sound.added (h : Sound s) (site : Site) (nonce : Nonce) : Sound (s.added site nonce).2 := by
 by_cases htracked : s.isTracked nonce = true
 · rw [added_tracked htracked]
   exact h
 · have hnew : s.isTracked nonce = false := Bool.eq_false_of_not_eq_true htracked
   have hfresh : ∀ other, nonce ∉ s.openOf other := fun other hmem => htracked (isTracked_iff.mpr ⟨other, h.owned other nonce hmem⟩)
   have hbounded := h.bounded site
   rw [MoltNetNonceGroups.openCount] at hbounded
   have hqueue : (s.openOf site ++ [nonce]).Nodup := by
    rw [nodup_append]
    exact ⟨h.once site, nodup_singleton nonce, fun a ha b hb => by rw [mem_singleton.mp hb]; exact ne_of_mem_of_not_mem ha (hfresh site)⟩
   have hset : ∀ n ∈ s.openOf site ++ [nonce], (s.added site nonce).2.siteOf.get n = some site := by
    intro n hn
    rw [siteOf_added hnew, Table.get_insert]
    rcases mem_append.mp hn with hn | hn
    · rw [if_neg (ne_of_mem_of_not_mem hn (hfresh site))]
      exact h.owned site n hn
    · rw [if_pos (mem_singleton.mp hn)]
   refine ⟨fun other => ?_, fun other => ?_, fun other n hn => ?_⟩
   · rw [MoltNetNonceGroups.openCount, openOf_added hnew]
     split_ifs with hother hroom
     · rw [length_append, length_singleton]
       exact hroom
     · rw [length_tail, length_append, length_singleton]
       exact hbounded
     · exact h.bounded other
   · rw [openOf_added hnew]
     split_ifs with hother hroom
     · exact hqueue
     · exact hqueue.tail
     · exact h.once other
   · rw [openOf_added hnew] at hn
     split_ifs at hn with hother hroom
     · rw [hother]
       exact hset n hn
     · rw [hother]
       exact hset n (mem_of_mem_tail hn)
     · rw [siteOf_added hnew, Table.get_insert, if_neg (ne_of_mem_of_not_mem hn (hfresh other))]
       exact h.owned other n hn

theorem Sound.gone (h : Sound s) (nonce : Nonce) : Sound (s.gone nonce) := by
 cases howner : s.siteOf.get nonce with
 | none => rwa [gone_untracked howner]
 | some site => exact h.erased (openOf_gone howner) (fun n hne => by rw [siteOf_gone, if_neg hne]) howner

theorem Sound.close (h : Sound s) (nonce : Nonce) : Sound (s.close nonce).2 := by
 cases howner : s.siteOf.get nonce with
 | none => rwa [close_untracked howner]
 | some site => exact h.erased (close_tracked howner).2 (fun n _ => by rw [siteOf_close]) howner

theorem Sound.call (h : Sound s) (c : Call Site Nonce) : Sound (call s c).2 := by
 cases c with
 | added site nonce => exact h.added site nonce
 | gone nonce => exact h.gone nonce
 | close nonce => exact h.close nonce

theorem sound_groupsAfter (calls : List (Call Site Nonce)) : Sound (groupsAfter calls) :=
 run_invariant_unconditional (fun _ c h => h.call c) ⟨fun _ => Nat.zero_le _, fun _ => nodup_nil, fun _ _ h => absurd h not_mem_nil⟩ calls

end States

/-! ## What is told closed -/

section Told

variable {s : MoltNetNonceGroups Site Nonce} {site : Site} {nonce n : Nonce}

def Closed (s : MoltNetNonceGroups Site Nonce) (n : Nonce) : Prop := s.isTracked n = true ∧ ∀ site, n ∉ s.openOf site

theorem openOf_call {other : Site} {c : Call Site Nonce} (h : n ∈ (call s c).2.openOf other) :
  n ∈ s.openOf other ∨ (c = .added other n ∧ s.isTracked n = false) := by
 cases c with
 | added site nonce =>
  change n ∈ (s.added site nonce).2.openOf other at h
  by_cases htracked : s.isTracked nonce = true
  · rw [added_tracked htracked] at h
    exact .inl h
  · have hnew : s.isTracked nonce = false := Bool.eq_false_of_not_eq_true htracked
    rw [openOf_added hnew] at h
    split_ifs at h with hother hroom
    · rcases mem_append.mp h with h | h
      · exact .inl (hother ▸ h)
      · obtain rfl := mem_singleton.mp h
        exact .inr ⟨by rw [hother], hnew⟩
    · rcases mem_append.mp (mem_of_mem_tail h) with h | h
      · exact .inl (hother ▸ h)
      · obtain rfl := mem_singleton.mp h
        exact .inr ⟨by rw [hother], hnew⟩
    · exact .inl h
 | gone nonce =>
  change n ∈ (s.gone nonce).openOf other at h
  cases howner : s.siteOf.get nonce with
  | none =>
   rw [gone_untracked howner] at h
   exact .inl h
  | some site =>
   rw [openOf_gone howner] at h
   split_ifs at h with hother
   · exact .inl (hother ▸ mem_of_mem_erase h)
   · exact .inl h
 | close nonce =>
  change n ∈ (s.close nonce).2.openOf other at h
  cases howner : s.siteOf.get nonce with
  | none =>
   rw [close_untracked howner] at h
   exact .inl h
  | some site =>
   rw [(close_tracked howner).2] at h
   split_ifs at h with hother
   · exact .inl (hother ▸ mem_of_mem_erase h)
   · exact .inl h

theorem isTracked_call (s : MoltNetNonceGroups Site Nonce) (c : Call Site Nonce) (n : Nonce) : (call s c).2.isTracked n = true ↔
  c ≠ .gone n ∧ (s.isTracked n = true ∨ ∃ site, c = .added site n) := by
 cases c with
 | added site nonce =>
  change (s.added site nonce).2.isTracked n = true ↔ _
  by_cases htracked : s.isTracked nonce = true
  · rw [added_tracked htracked]
    constructor
    · exact fun h => ⟨by simp, .inl h⟩
    · rintro ⟨-, h | ⟨other, h⟩⟩
      · exact h
      · obtain ⟨-, rfl⟩ := Call.added.inj h
        exact htracked
  · rw [MoltNetNonceGroups.isTracked, siteOf_added (Bool.eq_false_of_not_eq_true htracked), Table.get_insert, MoltNetNonceGroups.isTracked]
    by_cases hn : n = nonce
    · simp [hn]
    · simp [hn, Ne.symm hn]
 | gone nonce =>
  change (s.gone nonce).isTracked n = true ↔ _
  rw [MoltNetNonceGroups.isTracked, siteOf_gone, MoltNetNonceGroups.isTracked]
  by_cases hn : n = nonce
  · simp [hn]
  · simp [hn, Ne.symm hn]
 | close nonce =>
  change (s.close nonce).2.isTracked n = true ↔ _
  rw [MoltNetNonceGroups.isTracked, siteOf_close, MoltNetNonceGroups.isTracked]
  simp

theorem Closed.call (h : Closed s n) {c : Call Site Nonce} (hc : c ≠ .gone n) : Closed (call s c).2 n := by
 refine ⟨(isTracked_call s c n).mpr ⟨hc, .inl h.1⟩, fun site hmem => ?_⟩
 rcases openOf_call hmem with hopen | ⟨-, hnew⟩
 · exact h.2 site hopen
 · rw [h.1] at hnew
   exact absurd hnew (by decide)

theorem added_spec (site : Site) (hnew : s.isTracked nonce = false) :
  (s.added site nonce).1.toList ++ (s.added site nonce).2.openOf site = s.openOf site ++ [nonce] ∧
  (s.added site nonce).1 = if s.openCount site < moltNetNonceGroupsPerSite then none else (s.openOf site).head? := by
 rw [openOf_added hnew, if_pos rfl, added_new hnew]
 split_ifs with hroom
 · exact ⟨rfl, rfl⟩
 · cases hopen : s.openOf site with
   | nil =>
    rw [MoltNetNonceGroups.openCount, hopen] at hroom
    exact absurd (show 0 < moltNetNonceGroupsPerSite by decide) hroom
   | cons oldest rest => exact ⟨rfl, rfl⟩

theorem told_closed (h : Sound s) {c : Call Site Nonce} (htold : n ∈ (call s c).1) : (∃ site, n ∈ s.openOf site) ∧ Closed (call s c).2 n := by
 cases c with
 | added site nonce =>
  have htold : n ∈ (s.added site nonce).1.toList := htold
  by_cases htracked : s.isTracked nonce = true
  · rw [added_tracked htracked] at htold
    exact absurd htold (by simp)
  · have hnew : s.isTracked nonce = false := Bool.eq_false_of_not_eq_true htracked
    obtain ⟨hqueue, hhead⟩ := added_spec site hnew
    rw [Option.mem_toList] at htold
    rw [htold] at hqueue hhead
    have hopen : n ∈ s.openOf site := by
     split_ifs at hhead
     exact mem_of_head? hhead.symm
    have howner := h.owned site n hopen
    have hne : n ≠ nonce := by
     rintro rfl
     exact htracked (isTracked_iff.mpr ⟨site, howner⟩)
    have honce : (n :: (s.added site nonce).2.openOf site).Nodup := by
     have hnodup : (s.openOf site ++ [nonce]).Nodup := by
      rw [nodup_append]
      refine ⟨h.once site, nodup_singleton nonce, fun a ha b hb => ?_⟩
      rw [mem_singleton.mp hb]
      rintro rfl
      exact htracked (isTracked_iff.mpr ⟨site, h.owned site a ha⟩)
     rw [← hqueue] at hnodup
     exact hnodup
    refine ⟨⟨site, hopen⟩, (isTracked_call s _ n).mpr ⟨by simp, .inl (isTracked_iff.mpr ⟨site, howner⟩)⟩, fun other hmem => ?_⟩
    have hother : other = site := by
     rcases openOf_call hmem with hmem | ⟨hadd, -⟩
     · exact Option.some.inj ((h.owned other n hmem).symm.trans howner)
     · exact absurd (Call.added.inj hadd).2.symm hne
    exact (nodup_cons.mp honce).1 (hother ▸ hmem)
 | gone nonce => exact absurd htold not_mem_nil
 | close nonce =>
  have htold : n ∈ if (s.close nonce).1 then [nonce] else [] := htold
  obtain ⟨hclosed, rfl⟩ : (s.close nonce).1 = true ∧ n = nonce := by simpa using htold
  cases howner : s.siteOf.get n with
  | none =>
   rw [close_untracked howner] at hclosed
   exact absurd hclosed (by simp)
  | some site =>
   have hopen := (close_tracked howner).1.mp hclosed
   refine ⟨⟨site, hopen⟩, (isTracked_call s _ n).mpr ⟨by simp, .inl (isTracked_iff.mpr ⟨site, howner⟩)⟩, fun other hmem => ?_⟩
   change n ∈ (s.close n).2.openOf other at hmem
   rw [(close_tracked howner).2] at hmem
   split_ifs at hmem with hother
   · exact ((h.once site).mem_erase_iff.mp hmem).1 rfl
   · exact hother (Option.some.inj ((h.owned other n hmem).symm.trans howner))

end Told

/-! ## Over a run -/

section Runs

variable {n : Nonce}

theorem groupsAfter_append (calls : List (Call Site Nonce)) (c : Call Site Nonce) :
  groupsAfter (calls ++ [c]) = (call (groupsAfter calls) c).2 := run_append _ _ calls [c]

theorem closed_until_gone {s : MoltNetNonceGroups Site Nonce} (h : Closed s n) {calls : List (Call Site Nonce)} (hgone : .gone n ∉ calls) :
  Closed (run (fun s c => (call s c).2) s calls) n := by
 induction calls generalizing s with
 | nil => exact h
 | cons c calls ih =>
  obtain ⟨hc, hgone⟩ := not_or.mp (mt mem_cons.mpr hgone)
  exact ih (h.call (Ne.symm hc)) hgone

theorem told_once {before between : List (Call Site Nonce)} {c c' : Call Site Nonce} (hfirst : n ∈ toldAfter before c)
  (hagain : n ∈ toldAfter (before ++ c :: between) c') : .gone n ∈ between := by
 by_contra hgone
 have hclosed := closed_until_gone (told_closed (sound_groupsAfter before) hfirst).2 hgone
 obtain ⟨site, hopen⟩ := (told_closed (sound_groupsAfter _) hagain).1
 have hrun : groupsAfter (before ++ c :: between) = run (fun s c => (call s c).2) (call (groupsAfter before) c).2 between :=
  run_append _ _ before (c :: between)
 rw [hrun] at hopen
 exact hclosed.2 site hopen

theorem isTracked_groupsAfter (calls : List (Call Site Nonce)) (n : Nonce) : (groupsAfter calls).isTracked n = true ↔
  ∃ before site after, calls = before ++ .added site n :: after ∧ .gone n ∉ after := by
 induction calls using List.reverseRecOn with
 | nil => simp [groupsAfter, MoltNetNonceGroups.isTracked, Table.get, Table.empty]
 | append_singleton calls c ih =>
  rw [groupsAfter_append, isTracked_call, ih]
  constructor
  · rintro ⟨hgone, ⟨before, site, after, rfl, hafter⟩ | ⟨site, rfl⟩⟩
    · refine ⟨before, site, after ++ [c], by simp, ?_⟩
      rw [mem_append, mem_singleton]
      exact not_or.mpr ⟨hafter, Ne.symm hgone⟩
    · exact ⟨calls, site, [], rfl, not_mem_nil⟩
  · rintro ⟨before, site, after, heq, hafter⟩
    rcases eq_nil_or_concat after with rfl | ⟨after, last, rfl⟩
    · obtain ⟨-, rfl⟩ := append_singleton_inj.mp heq
      exact ⟨by simp, .inr ⟨site, rfl⟩⟩
    · rw [concat_eq_append] at heq hafter
      obtain ⟨hbefore, hlast⟩ := not_or.mp (mt mem_append.mpr hafter)
      rw [← cons_append, ← append_assoc] at heq
      obtain ⟨rfl, rfl⟩ := append_singleton_inj.mp heq
      exact ⟨fun h => hlast (by simp [h]), .inl ⟨before, site, after, rfl, hbefore⟩⟩

end Runs

/-- Over every interleaving of the calls: no site has more open than it may, one more closes only the oldest of the same site, a nonce is told
closed once until its page goes, and is tracked from its page's first call until then. -/
theorem groups_bounded (calls : List (Call Site Nonce)) :
  let s := groupsAfter calls
  (∀ site, s.openCount site ≤ moltNetNonceGroupsPerSite) ∧
  (∀ site nonce, (∀ other ≠ site, (s.added site nonce).2.openOf other = s.openOf other) ∧
   if s.isTracked nonce then s.added site nonce = (none, s)
   else
    (s.added site nonce).1.toList ++ (s.added site nonce).2.openOf site = s.openOf site ++ [nonce] ∧
    (s.added site nonce).1 = if s.openCount site < moltNetNonceGroupsPerSite then none else (s.openOf site).head?) ∧
  (∀ before c between c' after n, calls = before ++ c :: between ++ c' :: after → n ∈ toldAfter before c →
   n ∈ toldAfter (before ++ c :: between) c' → .gone n ∈ between) ∧
  ∀ n, s.isTracked n = true ↔ ∃ before site after, calls = before ++ .added site n :: after ∧ .gone n ∉ after := by
 have hsound := sound_groupsAfter calls
 refine ⟨hsound.bounded, fun site nonce => ?_, fun before c between c' after n _ => told_once, isTracked_groupsAfter calls⟩
 by_cases htracked : (groupsAfter calls).isTracked nonce = true
 · rw [if_pos htracked, added_tracked htracked]
   exact ⟨fun _ _ => rfl, rfl⟩
 · have hnew : (groupsAfter calls).isTracked nonce = false := Bool.eq_false_of_not_eq_true htracked
   rw [if_neg htracked]
   exact ⟨fun other hother => by rw [openOf_added hnew, if_neg hother], added_spec site hnew⟩

/-- A nonce added again after its page went is closed again. -/
theorem told_closed_twice : ¬ ∀ (before between : List (Call ℕ ℕ)) (c c' : Call ℕ ℕ) (n : ℕ), n ∈ toldAfter before c →
  n ∉ toldAfter (before ++ c :: between) c' := by
 intro hclaim
 exact hclaim [.added 0 7] [.gone 7, .added 0 7] (.close 7) (.close 7) 7 (by decide) (by decide)

end MoltBrowser.NonceGroups
