import MoltBrowser.WeightedSlots

set_option autoImplicit false

/-!
# Slots are handed out safely and fairly

An invariant ties the entries to what the callers were told. One grant keeps it, so the loop does,
and the loop ends only when no key can be served in its turn.
-/
namespace MoltBrowser.WeightedSlots
open SortedTable TransitionRuns MoltWeightedSlots
open List hiding choose

variable {Key Id : Type} [LinearOrder Key] {limit : Key → ℕ} {s : MoltWeightedSlots Key Id} {log : Log Key Id}

/-! ## The best of a key's requests -/

def Waiter.rank (w : Waiter Id) : ℤ ×ₗ ℕ := toLex (-w.priority, w.seq)

theorem before_iff (a b : Waiter Id) : a.before b ↔ a.rank < b.rank := by
 rw [Waiter.before, Waiter.rank, Waiter.rank, Prod.Lex.toLex_lt_toLex]
 dsimp only
 split_ifs <;> omega

theorem minElement_spec (w : Waiter Id) (waiting : List (Waiter Id)) :
  minElement w waiting ∈ w :: waiting ∧ ∀ o ∈ w :: waiting, (minElement w waiting).rank ≤ o.rank := by
 rw [minElement]
 induction waiting generalizing w with
 | nil => exact ⟨mem_cons_self, fun o ho => mem_singleton.1 ho ▸ le_refl _⟩
 | cons v waiting ih =>
  obtain ⟨hmem, hleast⟩ := ih (if v.before w then v else w)
  rw [foldl_cons]
  have hhead := hleast _ mem_cons_self
  by_cases hv : v.before w
  · rw [if_pos hv] at hmem hleast hhead ⊢
    refine ⟨mem_cons_of_mem _ hmem, fun o ho => ?_⟩
    rcases mem_cons.1 ho with rfl | ho
    · exact hhead.trans ((before_iff v o).1 hv).le
    · exact hleast o ho
  · rw [if_neg hv] at hmem hleast hhead ⊢
    refine ⟨?_, fun o ho => ?_⟩
    · rcases mem_cons.1 hmem with h | h
      · exact mem_cons.2 (.inl h)
      · exact mem_cons_of_mem _ (mem_cons_of_mem _ h)
    · rcases mem_cons.1 ho with rfl | ho
      · exact hhead
      rcases mem_cons.1 ho with rfl | ho
      · exact hhead.trans (le_of_not_gt fun h => hv ((before_iff o w).2 h))
      · exact hleast o (mem_cons_of_mem _ ho)

variable {w : Waiter Id}

theorem best_spec {waiting : List (Waiter Id)} (h : best waiting = some w) :
  w ∈ waiting ∧ ∀ o ∈ waiting, w.rank ≤ o.rank := by
 cases waiting with
 | nil => exact absurd h (by simp [best])
 | cons v waiting =>
  obtain rfl := Option.some.inj h
  exact minElement_spec v waiting

theorem arrived_once {waiting : List (Waiter Id)} (h : waiting.Pairwise fun a b => a.seq < b.seq) {v : Waiter Id}
  (hv : v ∈ waiting) (hw : w ∈ waiting) (heq : v.seq = w.seq) : v = w := by
 have hnodup : (waiting.map Waiter.seq).Nodup := pairwise_map.2 (h.imp fun hlt => ne_of_lt hlt)
 exact inj_on_of_nodup_map hnodup hv hw heq

/-! ## The key that is served -/

variable {key : Key}

theorem mem_order {entry : Entry Id} :
  (key, entry) ∈ s.order ↔ s.entries.get key = some entry ∧ entry.waiting ≠ [] := by
 rw [order, mem_insertionSort, mem_filter, Table.mem_entries]
 simp

theorem order_sorted (s : MoltWeightedSlots Key Id) : s.order.Pairwise fun a b => a.2.inUse ≤ b.2.inUse := by
 let r : Key × Entry Id → Key × Entry Id → Prop :=
  fun a b => toLex (a.2.inUse, oldestSeq a.2.waiting) ≤ toLex (b.2.inUse, oldestSeq b.2.waiting)
 have hsorted : s.order.Pairwise r := by
  have : Std.Total r := ⟨fun a b => le_total _ _⟩
  have : IsTrans _ r := ⟨fun a b c hab hbc => le_trans hab hbc⟩
  exact pairwise_insertionSort r _
 refine hsorted.imp fun {a b} hab => ?_
 rcases Prod.Lex.toLex_le_toLex.1 hab with h | h
 · exact h.le
 · exact h.1.le

theorem choose_some {l : List (Key × Entry Id)} {entry : Entry Id}
  (h : s.choose l = some (key, entry, w)) :
  (key, entry) ∈ l ∧ best entry.waiting = some w ∧ entry.inUse + w.weight ≤ entry.limit ∧ s.total + w.weight ≤ s.budget := by
 induction l with
 | nil => exact absurd h (by simp [choose])
 | cons e l ih =>
  obtain ⟨k, e⟩ := e
  rw [choose] at h
  have hlater : s.choose l = some (key, entry, w) → (key, entry) ∈ (k, e) :: l ∧ best entry.waiting = some w ∧
    entry.inUse + w.weight ≤ entry.limit ∧ s.total + w.weight ≤ s.budget := fun h =>
   ⟨mem_cons_of_mem _ (ih h).1, (ih h).2⟩
  cases hbest : best e.waiting with
  | none => rw [hbest] at h; exact hlater h
  | some v =>
   rw [hbest] at h
   dsimp only at h
   split_ifs at h with hlimit hbudget
   · exact hlater h
   · obtain ⟨rfl, rfl, rfl⟩ := Option.some.inj h
     exact ⟨mem_cons_self, hbest, by omega, by omega⟩

def HoldsBack (s : MoltWeightedSlots Key Id) (entry : Entry Id) : Prop :=
 ∃ w, best entry.waiting = some w ∧ entry.inUse + w.weight ≤ entry.limit ∧ s.budget < s.total + w.weight

theorem choose_none {l : List (Key × Entry Id)} (hsorted : l.Pairwise fun a b => a.2.inUse ≤ b.2.inUse) (h : s.choose l = none)
  {entry : Entry Id} (hmem : (key, entry) ∈ l) (hbest : best entry.waiting = some w)
  (hlimit : entry.inUse + w.weight ≤ entry.limit) (hbudget : s.total + w.weight ≤ s.budget) :
  ∃ e ∈ l, e.2.inUse ≤ entry.inUse ∧ HoldsBack s e.2 := by
 induction l with
 | nil => exact absurd hmem (by simp)
 | cons e l ih =>
  obtain ⟨k, e⟩ := e
  obtain ⟨hhead, htail⟩ := pairwise_cons.1 hsorted
  have hlater : s.choose l = none → (key, entry) ∈ l → ∃ b ∈ (k, e) :: l, b.2.inUse ≤ entry.inUse ∧ HoldsBack s b.2 := by
   intro hnone hl
   obtain ⟨b, hb, hrest⟩ := ih htail hnone hl
   exact ⟨b, mem_cons_of_mem _ hb, hrest⟩
  rw [choose] at h
  rcases mem_cons.1 hmem with heq | hl
  · obtain ⟨rfl, rfl⟩ := Prod.mk.inj heq
    rw [hbest] at h
    dsimp only at h
    rw [if_neg (by omega), if_neg (by omega)] at h
    exact absurd h (by simp)
  · cases hfirst : best e.waiting with
    | none => rw [hfirst] at h; exact hlater h hl
    | some v =>
     rw [hfirst] at h
     dsimp only at h
     split_ifs at h with hfull hspent
     · exact hlater h hl
     · exact ⟨(k, e), mem_cons_self, hhead _ hl, v, hfirst, by dsimp only; omega, hspent⟩

/-! ## The invariant -/

variable [DecidableEq Id]

def MoltWeightedSlots.waits (s : MoltWeightedSlots Key Id) (key : Key) (id : Id) : ℕ := (s.waiting key).countP fun w => w.id = id

def Log.heldBy (log : Log Key Id) (key : Key) : ℕ := ((log.held.filter fun p => p.1 = key).map Prod.snd).sum

/-- What holds of the slots whether or not all that can be was granted. -/
structure Kept (limit : Key → ℕ) (s : MoltWeightedSlots Key Id) (log : Log Key Id) : Prop where
 total : s.total = s.entries.sum Entry.inUse
 budget : s.total ≤ s.budget
 limited : ∀ key e, s.entries.get key = some e → e.limit = max (limit key) 1
 limits : ∀ key, s.inUse key ≤ max (limit key) 1
 held : ∀ key, s.inUse key = log.heldBy key
 arrivals : s.nextSeq = log.asked.length
 arrived : ∀ key, (s.waiting key).Pairwise fun a b => a.seq < b.seq
 asked : ∀ key, ∀ w ∈ s.waiting key, log.asked[w.seq]? = some (key, w.id)
 once : ∀ key id, s.waits key id + log.granted.count (key, id) + log.cancelled.count (key, id) = if (key, id) ∈ log.asked then 1 else 0

theorem kept_start (budget : ℕ) : Kept limit ({ budget } : MoltWeightedSlots Key Id) {} := by
 constructor <;> intros <;> first | rfl | exact Nat.zero_le _ | skip
 · rename_i key e h
   exact absurd h (by simp [Table.get, Table.empty])
 · exact List.Pairwise.nil
 · rename_i key w h
   exact absurd h (by simp [waiting, Table.get, Table.empty])

theorem Kept.update {s' : MoltWeightedSlots Key Id} {log' : Log Key Id} {entry : Entry Id} (h : Kept limit s log) (key : Key)
  (hentries : s'.entries = s.entries.insert key entry) (htotal : s'.total + s.inUse key = s.total + entry.inUse)
  (hbudget : s'.total ≤ s'.budget) (hlimited : entry.limit = max (limit key) 1) (hlimits : entry.inUse ≤ max (limit key) 1)
  (hheld : entry.inUse = log'.heldBy key) (hothers : ∀ k, k ≠ key → log'.heldBy k = log.heldBy k)
  (harrivals : s'.nextSeq = log'.asked.length) (harrived : entry.waiting.Pairwise fun a b => a.seq < b.seq)
  (hasked : ∀ w ∈ entry.waiting, log'.asked[w.seq]? = some (key, w.id))
  (hearlier : ∀ (i : ℕ) p, log.asked[i]? = some p → log'.asked[i]? = some p)
  (honce : ∀ id, (entry.waiting.countP fun w => w.id = id) + log'.granted.count (key, id) + log'.cancelled.count (key, id) =
   if (key, id) ∈ log'.asked then 1 else 0)
  (hsame : ∀ k, k ≠ key → ∀ id, log'.granted.count (k, id) = log.granted.count (k, id) ∧
   log'.cancelled.count (k, id) = log.cancelled.count (k, id) ∧ ((k, id) ∈ log'.asked ↔ (k, id) ∈ log.asked)) :
  Kept limit s' log' := by
 have hget : ∀ k, s'.entries.get k = if k = key then some entry else s.entries.get k := fun k => by rw [hentries, Table.get_insert]
 have hsum : s'.entries.sum Entry.inUse + s.inUse key = s.entries.sum Entry.inUse + entry.inUse := by
  rw [hentries]
  exact Table.sum_insert s.entries Entry.inUse key entry
 have hinUse : ∀ k, s'.inUse k = if k = key then entry.inUse else s.inUse k := fun k => by
  rw [inUse, hget]
  split_ifs <;> rfl
 have hwaiting : ∀ k, s'.waiting k = if k = key then entry.waiting else s.waiting k := fun k => by
  rw [waiting, hget]
  split_ifs <;> rfl
 have hold := h.total
 refine ⟨by omega, hbudget, fun k e he => ?_, fun k => ?_, fun k => ?_, harrivals, fun k => ?_, fun k w hw => ?_, fun k id => ?_⟩
 · rw [hget] at he
   split_ifs at he with hk
   · rw [← Option.some.inj he, hk, hlimited]
   · exact h.limited k e he
 · rw [hinUse]
   split_ifs with hk
   · rw [hk]
     exact hlimits
   · exact h.limits k
 · rw [hinUse]
   split_ifs with hk
   · rw [hk, hheld]
   · rw [hothers k hk, h.held]
 · rw [hwaiting]
   split_ifs
   · exact harrived
   · exact h.arrived k
 · rw [hwaiting] at hw
   split_ifs at hw with hk
   · rw [hk]
     exact hasked w hw
   · exact hearlier _ _ (h.asked k w hw)
 · rw [waits, hwaiting]
   split_ifs with hk hin hin
   · rw [hk, honce, if_pos (hk ▸ hin)]
   · rw [hk, honce, if_neg (hk ▸ hin)]
   · obtain ⟨hgranted, hcancelled, hmem⟩ := hsame k hk id
     have hcount := h.once k id
     rw [if_pos (hmem.1 hin), waits] at hcount
     rw [hgranted, hcancelled, hcount]
   · obtain ⟨hgranted, hcancelled, hmem⟩ := hsame k hk id
     have hcount := h.once k id
     rw [if_neg fun hm => hin (hmem.2 hm), waits] at hcount
     rw [hgranted, hcancelled, hcount]

/-! ## Granting -/

theorem Kept.serve {entry : Entry Id} (h : Kept limit s log) (hget : s.entries.get key = some entry)
  (hw : w ∈ entry.waiting) (hlimit : entry.inUse + w.weight ≤ entry.limit) (hbudget : s.total + w.weight ≤ s.budget) :
  Kept limit (s.serve key entry w) (log.grant [(key, w)]) := by
 have hinUse : s.inUse key = entry.inUse := by rw [inUse, hget, Option.elim_some]
 have hwaiting : s.waiting key = entry.waiting := by rw [waiting, hget, Option.elim_some]
 have hlimited := h.limited key entry hget
 have hperm := perm_cons_erase hw
 refine h.update key rfl ?_ hbudget hlimited (hlimited ▸ hlimit) ?_ (fun k hk => ?_) h.arrivals ?_ (fun v hv => ?_)
  (fun i p hp => hp) (fun id => ?_) fun k hk id => ⟨?_, rfl, Iff.rfl⟩
 · rw [hinUse, MoltWeightedSlots.serve]
   dsimp only
   omega
 · have hheld := h.held key
   rw [hinUse, Log.heldBy] at hheld
   rw [Log.heldBy, Log.grant]
   simp [hheld]
 · rw [Log.heldBy, Log.heldBy, Log.grant]
   simp [Ne.symm hk]
 · exact (hwaiting ▸ h.arrived key).sublist List.erase_sublist
 · exact h.asked key v (hwaiting ▸ mem_of_mem_erase hv)
 · have hcount := h.once key id
   rw [waits, hwaiting, hperm.countP_eq, countP_cons] at hcount
   rw [Log.grant]
   simp only [map_cons, map_nil, count_append, count_singleton, beq_iff_eq, Prod.mk.injEq, true_and]
   rw [← hcount]
   simp only [decide_eq_true_eq]
   omega
 · rw [Log.grant]
   simp [count_append, Ne.symm hk]

theorem serve_waiting {entry : Entry Id} (w : Waiter Id) (hget : s.entries.get key = some entry) (k : Key) :
  (s.serve key entry w).waiting k = if k = key then (s.waiting k).erase w else s.waiting k := by
 rw [waiting, MoltWeightedSlots.serve, Table.get_insert]
 split_ifs with hk
 · rw [hk, waiting, hget, Option.elim_some, Option.elim_some]
 · rfl

def InTurn (t : MoltWeightedSlots Key Id) (granted : List (Key × Waiter Id)) : Prop :=
 (granted.Pairwise fun a b => a.1 = b.1 → a.2.before b.2) ∧ ∀ g ∈ granted, ∀ o ∈ t.waiting g.1, g.2.before o

omit [LinearOrder Key] [DecidableEq Id] in
theorem log_grant_cons (log : Log Key Id) (g : Key × Waiter Id) (granted : List (Key × Waiter Id)) :
  log.grant (g :: granted) = (log.grant [g]).grant granted := by
 simp [Log.grant, append_assoc]

theorem grantLoop_waiting (fuel : ℕ) (s : MoltWeightedSlots Key Id) :
  (∀ g ∈ (grantLoop fuel s).2, g.2 ∈ s.waiting g.1) ∧ ∀ key, (grantLoop fuel s).1.waiting key ⊆ s.waiting key := by
 induction fuel generalizing s with
 | zero => exact ⟨fun g hg => absurd hg not_mem_nil, fun key => List.Subset.refl _⟩
 | succ fuel ih =>
  rw [grantLoop]
  cases hchoose : s.choose s.order with
  | none => exact ⟨fun g hg => absurd hg not_mem_nil, fun key => List.Subset.refl _⟩
  | some found =>
   obtain ⟨key, entry, w⟩ := found
   obtain ⟨hmem, hbest, -, -⟩ := choose_some hchoose
   have hget := (mem_order.1 hmem).1
   obtain ⟨hgranted, hleft⟩ := ih (s.serve key entry w)
   have hsub : ∀ k, (s.serve key entry w).waiting k ⊆ s.waiting k := by
    intro k
    rw [serve_waiting w hget]
    split_ifs
    · exact erase_subset
    · exact List.Subset.refl _
   refine ⟨fun g hg => ?_, fun k => List.Subset.trans (hleft k) (hsub k)⟩
   rcases mem_cons.1 hg with rfl | hg
   · dsimp only
     rw [waiting, hget]
     exact (best_spec hbest).1
   · exact hsub _ (hgranted g hg)

theorem grantLoop_spec (fuel : ℕ) (h : Kept limit s log) :
  Kept limit (grantLoop fuel s).1 (log.grant (grantLoop fuel s).2) ∧ InTurn (grantLoop fuel s).1 (grantLoop fuel s).2 := by
 have hnothing : log.grant [] = log := by simp [Log.grant]
 induction fuel generalizing s log with
 | zero => exact ⟨hnothing.symm ▸ h, .nil, fun g hg => absurd hg not_mem_nil⟩
 | succ fuel ih =>
  rw [grantLoop]
  cases hchoose : s.choose s.order with
  | none => exact ⟨hnothing.symm ▸ h, .nil, fun g hg => absurd hg not_mem_nil⟩
  | some found =>
   obtain ⟨key, entry, w⟩ := found
   obtain ⟨hmem, hbest, hlimit, hbudget⟩ := choose_some hchoose
   have hget := (mem_order.1 hmem).1
   obtain ⟨hw, hleast⟩ := best_spec hbest
   have hserved := h.serve hget hw hlimit hbudget
   obtain ⟨hkept, hpair, hafter⟩ := ih hserved (by simp [Log.grant])
   have hwaits := grantLoop_waiting fuel (s.serve key entry w)
   have hwaiting : s.waiting key = entry.waiting := by rw [waiting, hget, Option.elim_some]
   have harrived : entry.waiting.Pairwise fun a b => a.seq < b.seq := hwaiting ▸ h.arrived key
   have hbefore : ∀ o ∈ (s.serve key entry w).waiting key, w.before o := by
    intro o ho
    rw [serve_waiting w hget, if_pos rfl, hwaiting] at ho
    have hnodup : entry.waiting.Nodup := harrived.imp fun hlt heq => absurd (heq ▸ hlt) (lt_irrefl _)
    obtain ⟨hne, ho⟩ := hnodup.mem_erase_iff.1 ho
    refine (before_iff w o).2 (lt_of_le_of_ne (hleast o ho) fun heq => hne ?_)
    have hseq : w.seq = o.seq := congrArg (fun r => (ofLex r).2) heq
    exact arrived_once harrived ho hw hseq.symm
   rw [log_grant_cons]
   refine ⟨hkept, pairwise_cons.2 ⟨fun g hg heq => ?_, hpair⟩, fun g hg => ?_⟩
   · dsimp only at heq
     exact hbefore _ (heq ▸ hwaits.1 g hg)
   · rcases mem_cons.1 hg with rfl | hg
     · exact fun o ho => hbefore o (hwaits.2 key ho)
     · exact hafter g hg

theorem serve_waiters {entry : Entry Id} (hget : s.entries.get key = some entry)
  (hw : w ∈ entry.waiting) : (s.serve key entry w).waiters + 1 = s.waiters := by
 have hsum := Table.sum_insert s.entries (fun e => e.waiting.length) key
  { entry with inUse := entry.inUse + w.weight, waiting := entry.waiting.erase w }
 have hpos := length_pos_of_mem hw
 rw [hget, Option.elim_some, length_erase_of_mem hw] at hsum
 rw [waiters, waiters, MoltWeightedSlots.serve]
 dsimp only
 omega

theorem grantLoop_ends {fuel : ℕ} (hfuel : s.waiters ≤ fuel) :
  (grantLoop fuel s).1.choose (grantLoop fuel s).1.order = none := by
 induction fuel generalizing s with
 | zero =>
  rw [grantLoop]
  cases hchoose : s.choose s.order with
  | none => rfl
  | some found =>
   obtain ⟨key, entry, w⟩ := found
   obtain ⟨hmem, hbest, -, -⟩ := choose_some hchoose
   have hwaiters := serve_waiters (mem_order.1 hmem).1 (best_spec hbest).1
   omega
 | succ fuel ih =>
  rw [grantLoop]
  cases hchoose : s.choose s.order with
  | none => exact hchoose
  | some found =>
   obtain ⟨key, entry, w⟩ := found
   obtain ⟨hmem, hbest, -, -⟩ := choose_some hchoose
   have hwaiters := serve_waiters (mem_order.1 hmem).1 (best_spec hbest).1
   exact ih (by omega)

def Fair (s : MoltWeightedSlots Key Id) : Prop :=
 ∀ key entry w, s.entries.get key = some entry → best entry.waiting = some w → entry.inUse + w.weight ≤ entry.limit →
  s.total + w.weight ≤ s.budget → ∃ k e, s.entries.get k = some e ∧ e.inUse ≤ entry.inUse ∧ HoldsBack s e

omit [DecidableEq Id] in
theorem fair_of_none (h : s.choose s.order = none) : Fair s := by
 intro key entry w hget hbest hlimit hbudget
 have hwaiting : entry.waiting ≠ [] := fun hnil => by
  rw [hnil] at hbest
  exact absurd hbest (by simp [best])
 obtain ⟨⟨k, e⟩, he, hle, hback⟩ := choose_none (order_sorted s) h (mem_order.2 ⟨hget, hwaiting⟩) hbest hlimit hbudget
 exact ⟨k, e, (mem_order.1 he).1, hle, hback⟩

/-! ## Entries with nothing in them -/

def swept (s : MoltWeightedSlots Key Id) : MoltWeightedSlots Key Id :=
 { s with entries := s.entries.filter fun e => !(e.inUse == 0 && e.waiting.isEmpty) }

omit [DecidableEq Id] in
theorem swept_inUse (s : MoltWeightedSlots Key Id) (key : Key) : (swept s).inUse key = s.inUse key := by
 rw [inUse, swept, Table.get_filter, inUse]
 cases s.entries.get key with
 | none => rfl
 | some e =>
  rw [Option.filter_some]
  split_ifs with h
  · rfl
  · simp only [Bool.not_eq_true', Bool.not_eq_false, Bool.and_eq_true, beq_iff_eq] at h
    exact h.1.symm

omit [DecidableEq Id] in
theorem swept_waiting (s : MoltWeightedSlots Key Id) (key : Key) : (swept s).waiting key = s.waiting key := by
 rw [waiting, swept, Table.get_filter, waiting]
 cases s.entries.get key with
 | none => rfl
 | some e =>
  rw [Option.filter_some]
  split_ifs with h
  · rfl
  · simp only [Bool.not_eq_true', Bool.not_eq_false, Bool.and_eq_true, List.isEmpty_iff] at h
    exact h.2.symm

theorem Kept.swept (h : Kept limit s log) : Kept limit (swept s) log where
 total := by
  refine h.total.trans (Table.sum_filter s.entries Entry.inUse _ fun e he => ?_).symm
  simp only [Bool.not_eq_false', Bool.and_eq_true, beq_iff_eq] at he
  exact he.1
 budget := h.budget
 limited key e he := by
  rw [WeightedSlots.swept, Table.get_filter, Option.filter_eq_some_iff] at he
  exact h.limited key e he.1
 limits key := swept_inUse s key ▸ h.limits key
 held key := swept_inUse s key ▸ h.held key
 arrivals := h.arrivals
 arrived key := swept_waiting s key ▸ h.arrived key
 asked key := swept_waiting s key ▸ h.asked key
 once key id := by
  rw [waits, swept_waiting]
  exact h.once key id

omit [DecidableEq Id] in
theorem Fair.swept (h : Fair s) : Fair (swept s) := by
 intro key entry w hget hbest hlimit hbudget
 rw [WeightedSlots.swept, Table.get_filter, Option.filter_eq_some_iff] at hget
 obtain ⟨k, e, he, hle, v, hv, hfits, hspent⟩ := h key entry w hget.1 hbest hlimit hbudget
 refine ⟨k, e, ?_, hle, v, hv, hfits, hspent⟩
 have hwaiting : e.waiting.isEmpty = false := by
  cases hw : e.waiting with
  | nil =>
   rw [hw] at hv
   exact absurd hv (by simp [best])
  | cons w waiting => rfl
 rw [WeightedSlots.swept, Table.get_filter, he, Option.filter_some, if_pos (by simp [hwaiting])]

theorem grant_spec (h : Kept limit s log) :
  Kept limit s.grant.1 (log.grant s.grant.2) ∧ Fair s.grant.1 ∧ InTurn s.grant.1 s.grant.2 := by
 obtain ⟨hkept, hpair, hafter⟩ := grantLoop_spec s.waiters h
 have hfair := fair_of_none (grantLoop_ends (le_refl s.waiters))
 refine ⟨hkept.swept, hfair.swept, hpair, fun g hg o ho => hafter g hg o ?_⟩
 rw [← swept_waiting]
 exact ho

/-! ## The calls -/

theorem Kept.seq_lt (h : Kept limit s log) (hw : w ∈ s.waiting key) : w.seq < s.nextSeq := by
 have hasked := h.asked key w hw
 rw [h.arrivals]
 exact (List.getElem?_eq_some_iff.1 hasked).1

theorem Kept.acquire (h : Kept limit s log) (key : Key) (weight : ℕ) (id : Id) (priority : ℤ) (hid : (key, id) ∉ log.asked) :
  Kept limit
   { s with
     entries := s.entries.insert key
      { (s.entries.get key).getD {} with
        limit := max (limit key) 1
        waiting := ((s.entries.get key).getD {}).waiting ++
         [{ id, weight := max 1 (min weight (max (limit key) 1)), priority, seq := s.nextSeq }] }
     nextSeq := s.nextSeq + 1 }
   { log with asked := log.asked ++ [(key, id)] } := by
 have hinUse : s.inUse key = ((s.entries.get key).getD {}).inUse := by
  rw [inUse]
  cases s.entries.get key <;> rfl
 have hwaiting : s.waiting key = ((s.entries.get key).getD {}).waiting := by
  rw [waiting]
  cases s.entries.get key <;> rfl
 refine h.update key rfl ?_ h.budget rfl ?_ ?_ (fun k hk => rfl) ?_ ?_ (fun w hw => ?_) (fun i p hp => ?_)
  (fun i => ?_) fun k hk i => ⟨rfl, rfl, ?_⟩
 · rw [hinUse]
 · rw [← hinUse]
   exact h.limits key
 · rw [← hinUse]
   exact h.held key
 · rw [length_append, ← h.arrivals]
   rfl
 · rw [← hwaiting, pairwise_append]
   exact ⟨h.arrived key, pairwise_singleton _ _, fun w hw v hv => mem_singleton.1 hv ▸ h.seq_lt hw⟩
 · rw [← hwaiting, mem_append, mem_singleton] at hw
   rcases hw with hw | rfl
   · have hasked := h.asked key w hw
     rw [getElem?_append_left (h.arrivals ▸ h.seq_lt hw)]
     exact hasked
   · rw [h.arrivals]
     exact getElem?_concat_length
 · have hlt := (List.getElem?_eq_some_iff.1 hp).1
   rw [getElem?_append_left hlt]
   exact hp
 · have hcount := h.once key i
   rw [waits, hwaiting] at hcount
   rw [countP_append, countP_singleton]
   simp only [mem_append, mem_singleton, Prod.mk.injEq, true_and, decide_eq_true_eq]
   by_cases hi : id = i
   · subst hi
     rw [if_neg hid] at hcount
     rw [if_pos rfl, if_pos (.inr rfl)]
     omega
   · rw [if_neg hi, Nat.add_zero, hcount]
     simp only [Ne.symm hi, or_false]
 · simp [hk]

theorem Kept.release (h : Kept limit s log) {weight : ℕ} {entry : Entry Id} (hget : s.entries.get key = some entry)
  (hheld : (key, weightOf limit key weight) ∈ log.held) :
  Kept limit
   { s with
     entries := s.entries.insert key { entry with inUse := entry.inUse - min (max 1 (min weight entry.limit)) entry.inUse }
     total := s.total - min (min (max 1 (min weight entry.limit)) entry.inUse) s.total }
   { log with held := log.held.erase (key, weightOf limit key weight) } := by
 have hinUse : s.inUse key = entry.inUse := by rw [inUse, hget, Option.elim_some]
 have hwaiting : s.waiting key = entry.waiting := by rw [waiting, hget, Option.elim_some]
 have hlimited := h.limited key entry hget
 have hweight : max 1 (min weight entry.limit) = weightOf limit key weight := by rw [hlimited, weightOf]
 have hperm := perm_cons_erase hheld
 have hsum : entry.inUse = weightOf limit key weight + (((log.held.erase (key, weightOf limit key weight)).filter
   fun p => p.1 = key).map Prod.snd).sum := by
  rw [← hinUse, h.held, Log.heldBy, ((hperm.filter _).map _).sum_eq]
  simp
 have hentry := Table.sum_insert s.entries Entry.inUse key { entry with inUse := entry.inUse - weightOf limit key weight }
 rw [hget, Option.elim_some, ← h.total] at hentry
 have hlimits := h.limits key
 have hbudget := h.budget
 rw [hweight, Nat.min_eq_left (show weightOf limit key weight ≤ entry.inUse by omega),
  Nat.min_eq_left (show weightOf limit key weight ≤ s.total by dsimp only at hentry; omega)]
 refine h.update key rfl ?_ ?_ hlimited ?_ ?_ (fun k hk => ?_) h.arrivals (hwaiting ▸ h.arrived key)
  (hwaiting ▸ h.asked key) (fun i p hp => hp) (fun id => ?_) fun k hk id => ⟨rfl, rfl, Iff.rfl⟩
 · dsimp only at hentry ⊢
   omega
 · dsimp only
   omega
 · dsimp only
   omega
 · rw [Log.heldBy]
   dsimp only
   omega
 · rw [Log.heldBy, Log.heldBy, ((hperm.filter _).map _).sum_eq]
   simp [Ne.symm hk]
 · have hcount := h.once key id
   rw [waits, hwaiting] at hcount
   exact hcount

theorem Kept.cancel (h : Kept limit s log) {id : Id} {entry : Entry Id} (hget : s.entries.get key = some entry)
  (hw : (entry.waiting.find? fun w => w.id = id) = some w) :
  Kept limit { s with entries := s.entries.insert key { entry with waiting := entry.waiting.eraseP fun w => w.id = id } }
   { log with cancelled := log.cancelled ++ [(key, id)] } := by
 have hinUse : s.inUse key = entry.inUse := by rw [inUse, hget, Option.elim_some]
 have hwaiting : s.waiting key = entry.waiting := by rw [waiting, hget, Option.elim_some]
 have hid := find?_some hw
 refine h.update key rfl ?_ h.budget (h.limited key entry hget) ?_ ?_ (fun k hk => rfl) h.arrivals ?_ (fun v hv => ?_)
  (fun i p hp => hp) (fun i => ?_) fun k hk i => ⟨rfl, ?_, Iff.rfl⟩
 · rw [hinUse]
 · rw [← hinUse]
   exact h.limits key
 · rw [← hinUse]
   exact h.held key
 · exact (hwaiting ▸ h.arrived key).sublist eraseP_sublist
 · exact h.asked key v (hwaiting ▸ mem_of_mem_eraseP hv)
 · have hcount := h.once key i
   obtain ⟨v, before, after, -, hv, hsplit, herase⟩ := exists_of_eraseP (p := fun w => decide (w.id = id))
    (mem_of_find?_eq_some hw) hid
   rw [waits, hwaiting, hsplit, countP_append, countP_cons] at hcount
   rw [herase, countP_append, count_append, count_singleton]
   simp only [beq_iff_eq, Prod.mk.injEq, true_and, decide_eq_true_eq] at hv hcount ⊢
   rw [← hcount, hv]
   omega
 · simp [Ne.symm hk]

theorem Kept.setPriority (h : Kept limit s log) {entry : Entry Id} (id : Id) (priority : ℤ)
  (hget : s.entries.get key = some entry) :
  Kept limit
   { s with
     entries := s.entries.insert key
      { entry with waiting := entry.waiting.map fun w => if w.id = id then { w with priority } else w } }
   log := by
 have hinUse : s.inUse key = entry.inUse := by rw [inUse, hget, Option.elim_some]
 have hwaiting : s.waiting key = entry.waiting := by rw [waiting, hget, Option.elim_some]
 have hsame : ∀ w : Waiter Id, (if w.id = id then { w with priority } else w).seq = w.seq ∧
   (if w.id = id then { w with priority } else w).id = w.id := by
  intro w
  split_ifs <;> exact ⟨rfl, rfl⟩
 refine h.update key rfl ?_ h.budget (h.limited key entry hget) ?_ ?_ (fun k hk => rfl) h.arrivals ?_ (fun v hv => ?_)
  (fun i p hp => hp) (fun i => ?_) fun k hk i => ⟨rfl, rfl, Iff.rfl⟩
 · rw [hinUse]
 · rw [← hinUse]
   exact h.limits key
 · rw [← hinUse]
   exact h.held key
 · refine pairwise_map.2 ((hwaiting ▸ h.arrived key).imp fun hlt => ?_)
   rw [(hsame _).1, (hsame _).1]
   exact hlt
 · obtain ⟨w, hw, rfl⟩ := mem_map.1 hv
   rw [(hsame w).1, (hsame w).2]
   exact h.asked key w (hwaiting ▸ hw)
 · have hcount := h.once key i
   rw [waits, hwaiting] at hcount
   rw [countP_map]
   simp only [Function.comp_def, (hsame _).2]
   exact hcount

theorem nothing_spec (h : Kept limit s log ∧ Fair s) :
  (Kept limit s (log.grant []) ∧ Fair s) ∧ InTurn s ([] : List (Key × Waiter Id)) := by
 have hnothing : log.grant [] = log := by simp [Log.grant]
 exact ⟨hnothing.symm ▸ h, .nil, fun g hg => absurd hg not_mem_nil⟩

theorem granted_spec (h : Kept limit s log) :
  (Kept limit s.grant.1 (log.grant s.grant.2) ∧ Fair s.grant.1) ∧ InTurn s.grant.1 s.grant.2 :=
 ⟨⟨(grant_spec h).1, (grant_spec h).2.1⟩, (grant_spec h).2.2⟩

theorem step_spec (h : Kept limit s log ∧ Fair s) {call : SlotCall Key Id} (hcall : Allowed limit (s, log) call) :
  (Kept limit (step limit (s, log) call).1 (step limit (s, log) call).2 ∧ Fair (step limit (s, log) call).1) ∧
   InTurn (answer limit s call).1 (answer limit s call).2 := by
 rw [step]
 cases call with
 | acquire key weight id priority => exact granted_spec (h.1.acquire key weight id priority hcall)
 | release key weight =>
  have hheld : (key, weightOf limit key weight) ∈ log.held := hcall
  rw [answer, MoltWeightedSlots.release, Log.note]
  cases hget : s.entries.get key with
  | none =>
   -- A weight is held, so the key has an entry.
   have hinUse := h.1.held key
   have hmem : weightOf limit key weight ∈ (log.held.filter fun p => p.1 = key).map Prod.snd :=
    mem_map.2 ⟨_, mem_filter.2 ⟨hheld, by simp⟩, rfl⟩
   have hle := single_le_sum (fun _ _ => Nat.zero_le _) _ hmem
   have hpos : 1 ≤ weightOf limit key weight := le_max_left _ _
   rw [inUse, hget, Option.elim_none, Log.heldBy] at hinUse
   omega
  | some entry => exact granted_spec (h.1.release hget hheld)
 | cancel key id =>
  rw [answer, Log.note]
  cases hget : s.entries.get key with
  | none =>
   rw [show s.cancel key id = (false, s, []) by rw [MoltWeightedSlots.cancel, hget]]
   exact nothing_spec h
  | some entry =>
   cases hw : entry.waiting.find? fun w => w.id = id with
   | none =>
    rw [show s.cancel key id = (false, s, []) by rw [MoltWeightedSlots.cancel, hget]; dsimp only; rw [hw]]
    exact nothing_spec h
   | some w =>
    have hfound : s.cancel key id = (true, MoltWeightedSlots.grant
      { s with entries := s.entries.insert key { entry with waiting := entry.waiting.eraseP fun w => w.id = id } }) := by
     rw [MoltWeightedSlots.cancel, hget]
     dsimp only
     rw [hw]
    rw [hfound]
    exact granted_spec (h.1.cancel hget hw)
 | setPriority key id priority =>
  rw [answer, Log.note, MoltWeightedSlots.setPriority]
  cases hget : s.entries.get key with
  | none => exact nothing_spec h
  | some entry => exact granted_spec (h.1.setPriority id priority hget)

omit [DecidableEq Id] in
theorem fair_start (budget : ℕ) : Fair ({ budget } : MoltWeightedSlots Key Id) := by
 intro key entry w hget
 exact absurd hget (by simp [Table.get, Table.empty])

/-- Along every run: what is in use is within the budget and the limits, a limit of 0 counting as 1;
each request waits, was granted or was cancelled, once; each call grants a key's requests by priority
and arrival; and none that fits waits, but for one of a key that holds no more. -/
theorem slots_safe_and_fair (limit : Key → ℕ) (budget : ℕ) (calls : List (SlotCall Key Id))
  (hcalls : Along (step limit) (Allowed limit) (({ budget } : MoltWeightedSlots Key Id), {}) calls) :
  (Kept limit (run (step limit) ({ budget }, {}) calls).1 (run (step limit) ({ budget }, {}) calls).2 ∧
   Fair (run (step limit) ({ budget }, {}) calls).1) ∧
  Along (step limit) (fun st call => InTurn (answer limit st.1 call).1 (answer limit st.1 call).2)
   (({ budget } : MoltWeightedSlots Key Id), {}) calls := by
 have hstart : Kept limit ({ budget } : MoltWeightedSlots Key Id) {} ∧ Fair ({ budget } : MoltWeightedSlots Key Id) :=
  ⟨kept_start budget, fair_start budget⟩
 refine ⟨?_, ?_⟩
 · exact run_invariant (I := fun st => Kept limit st.1 st.2 ∧ Fair st.1) (fun st call h hcall => (step_spec h hcall).1) hstart hcalls
 · exact along_of_invariant (I := fun st => Kept limit st.1 st.2 ∧ Fair st.1) (fun st call h hcall => (step_spec h hcall).1)
    (fun st call h hcall => (step_spec h hcall).2) hstart hcalls

theorem slots_safe_and_fair_four : Fair (run (step fun _ => 4) (({ budget := 4 } : MoltWeightedSlots ℕ ℕ), {})
  [.acquire 0 1 1 0, .acquire 0 1 2 0, .acquire 0 1 3 0, .acquire 1 3 4 0, .acquire 0 1 5 0, .release 0 1, .cancel 1 4]).1 :=
 (slots_safe_and_fair (fun _ => 4) 4 _ (by decide)).1.2

/-- A key with a limit of 0 is given a slot. -/
theorem limit_of_none_exceeded : ¬ ∀ (budget : ℕ) (limit : ℕ → ℕ), (∀ key, limit key ≤ budget) → ∀ calls : List (SlotCall ℕ ℕ),
  Along (step limit) (Allowed limit) ({ budget }, {}) calls → ∀ key, (run (step limit) ({ budget }, {}) calls).1.inUse key ≤ limit key := by
 intro h
 exact absurd (h 1 (fun _ => 0) (fun _ => Nat.zero_le 1) [.acquire 0 1 1 0] (by decide) 0) (by decide)

end MoltBrowser.WeightedSlots
