import MoltBrowser.TranslationPlan

set_option autoImplicit false

/-!
# A page translation finishes, and only substitutes

`Tracked` says that the plan agrees with its history of settled units; settling
one more keeps it. The queue holds exactly the units that are not settled, and
every answered batch makes `work` smaller.
-/
namespace MoltBrowser.TranslationPlan
open List

open WebAIConversation TranslationPieces TransitionRuns

def outcome (history : List (ℕ × Option Bytes)) (unit : ℕ) : Option Bytes :=
 (history.find? (·.1 = unit)).bind (·.2)

def settledIn (history : List (ℕ × Option Bytes)) : List ℕ := history.map (·.1)

def pieceAfter (page : PageText) (history : List (ℕ × Option Bytes)) (slot piece : ℕ)
  (text : Bytes) : Bytes :=
 (((unitPlaces page).idxOf? (slot, piece)).bind (outcome history)).getD text

def substituted (page : PageText) (history : List (ℕ × Option Bytes)) (slot : ℕ) : Bytes :=
 ((slotPieces page slot).mapIdx fun i piece => pieceAfter page history slot i piece.text).flatten

theorem outcome_append {history : List (ℕ × Option Bytes)} {unit : ℕ} {text : Option Bytes}
  (hnew : unit ∉ settledIn history) (u : ℕ) :
  outcome (history ++ [(unit, text)]) u = if u = unit then text else outcome history u := by
 unfold outcome
 rw [find?_append]
 by_cases hu : u = unit
 · subst hu
   have hnone : history.find? (fun h => decide (h.1 = u)) = none := by
    rw [find?_eq_none]
    intro h hh heq
    exact hnew (mem_map.2 ⟨h, hh, by simpa using heq⟩)
   rw [hnone]
   simp
 · rw [if_neg hu]
   cases history.find? (fun h => decide (h.1 = u)) with
   | none => simp [Ne.symm hu]
   | some h => simp

/-! ### The units of a page -/

variable {s : ℕ}

theorem mem_slotPlaces {page : PageText} {place : ℕ × ℕ} :
  place ∈ slotPlaces page s ↔
   place.1 = s ∧ ∃ piece, (slotPieces page s)[place.2]? = some piece ∧ piece.translate = true := by
 unfold slotPlaces
 rw [mem_map]
 constructor
 · rintro ⟨⟨piece, i⟩, hmem, rfl⟩
   obtain ⟨hzip, htranslate⟩ := mem_filter.1 hmem
   exact ⟨rfl, piece, mem_zipIdx_iff_getElem?.1 hzip, htranslate⟩
 · rintro ⟨hs, piece, hpiece, htranslate⟩
   refine ⟨(piece, place.2), mem_filter.2 ⟨?_, htranslate⟩, ?_⟩
   · exact mem_zipIdx_iff_getElem?.2 hpiece
   · rw [← hs]

theorem mem_order {page : PageText} : s ∈ order page ↔ s < page.slots.length := by
 unfold order
 by_cases h : page.slots[s]?.any (·.inViewport) <;> simp [h]

theorem order_nodup (page : PageText) : (order page).Nodup := by
 refine nodup_append.2 ⟨nodup_range.filter _, nodup_range.filter _, ?_⟩
 rintro a ha b hb rfl
 have hvisible := (mem_filter.1 ha).2
 have hhidden := (mem_filter.1 hb).2
 simp only [hvisible, Bool.not_true, Bool.false_eq_true] at hhidden

theorem slotPieces_none {page : PageText} (h : page.slots.length ≤ s) :
  slotPieces page s = [] := by
 unfold slotPieces
 rw [getElem?_eq_none h]

theorem mem_unitPlaces {page : PageText} {place : ℕ × ℕ} :
  place ∈ unitPlaces page ↔
   ∃ piece, (slotPieces page place.1)[place.2]? = some piece ∧ piece.translate = true := by
 unfold unitPlaces
 rw [mem_flatMap]
 constructor
 · rintro ⟨s, -, hplace⟩
   obtain ⟨rfl, hpiece⟩ := mem_slotPlaces.1 hplace
   exact hpiece
 · intro hpiece
   refine ⟨place.1, mem_order.2 ?_, mem_slotPlaces.2 ⟨rfl, hpiece⟩⟩
   by_contra hle
   obtain ⟨piece, hget, -⟩ := hpiece
   rw [slotPieces_none (by omega)] at hget
   exact absurd hget (by simp)

theorem slotPlaces_nodup (page : PageText) (s : ℕ) : (slotPlaces page s).Nodup := by
 have hidx : (((slotPieces page s).zipIdx.filter (·.1.translate)).map (·.2)).Nodup := by
  have hsub : ((slotPieces page s).zipIdx.filter (·.1.translate)).Sublist
    (slotPieces page s).zipIdx := filter_sublist
  refine (hsub.map (·.2)).nodup ?_
  rw [zipIdx_map_snd]
  exact nodup_range'
 have hmap := hidx.map (f := Prod.mk s) fun i j hij => (Prod.mk.inj hij).2
 rwa [map_map] at hmap

theorem unitPlaces_nodup (page : PageText) : (unitPlaces page).Nodup := by
 refine nodup_flatMap.2 ⟨fun s _ => slotPlaces_nodup page s, ?_⟩
 refine (order_nodup page).imp fun {a b} hab => ?_
 intro place ha hb
 exact hab ((mem_slotPlaces.1 ha).1.symm.trans (mem_slotPlaces.1 hb).1)

/-! ### The queue of a new plan -/

namespace Packing

def filled (p : Packing) : List ℕ := p.closed.flatten ++ p.batch

def Bounded (p : Packing) : Prop :=
 (∀ batch ∈ p.closed, 0 < batch.length ∧ batch.length ≤ kTranslatorMaxBatchTexts) ∧
  p.batch.length ≤ kTranslatorMaxBatchTexts

theorem filled_close (p : Packing) : p.close.filled = p.filled := by
 unfold close filled
 cases p.batch <;> simp

theorem bounded_close {p : Packing} (h : p.Bounded) : p.close.Bounded := by
 refine ⟨?_, by simp [close]⟩
 unfold close
 cases hbatch : p.batch with
 | nil => simpa using h.1
 | cons unit rest =>
  have hlen := h.2
  rw [hbatch] at hlen
  intro batch hmem
  have hmem : batch ∈ p.closed ++ [unit :: rest] := by simpa using hmem
  rcases mem_append.1 hmem with hold | hnew
  · exact h.1 batch hold
  · rw [mem_singleton.1 hnew]
    exact ⟨by simp, hlen⟩

theorem filled_push (p : Packing) (unit : ℕ) (tokens : UInt32) :
  (p.push unit tokens).filled = p.filled ++ [unit] := by
 have hclose := p.filled_close
 unfold push
 dsimp only
 split
 · rw [← hclose]
   exact (append_assoc _ _ _).symm
 · exact (append_assoc _ _ _).symm

theorem bounded_push {p : Packing} (h : p.Bounded) (unit : ℕ) (tokens : UInt32) :
  (p.push unit tokens).Bounded := by
 unfold push
 dsimp only
 split
 · refine ⟨(bounded_close h).1, ?_⟩
   simp [close, kTranslatorMaxBatchTexts]
 · next hopen =>
   refine ⟨h.1, ?_⟩
   have hlen := h.2
   have hne : p.batch.length ≠ kTranslatorMaxBatchTexts := by
    intro heq
    simp [heq] at hopen
   simp only [length_append, length_singleton]
   omega

theorem filled_foldl (tokens : (ℕ × ℕ) × ℕ → UInt32) (units : List ((ℕ × ℕ) × ℕ)) (p : Packing) :
  (units.foldl (fun p unit => p.push unit.2 (tokens unit)) p).filled =
   p.filled ++ units.map (·.2) := by
 induction units generalizing p with
 | nil => simp
 | cons unit units ih => rw [foldl_cons, ih, filled_push, append_assoc]; rfl

theorem bounded_foldl (tokens : (ℕ × ℕ) × ℕ → UInt32) (units : List ((ℕ × ℕ) × ℕ))
  {p : Packing} (h : p.Bounded) :
  (units.foldl (fun p unit => p.push unit.2 (tokens unit)) p).Bounded := by
 induction units generalizing p with
 | nil => exact h
 | cons unit units ih => exact ih (bounded_push h unit.2 (tokens unit))

end Packing

theorem packUnits_flatten (page : PageText) :
  (packUnits page).flatten = List.range (unitPlaces page).length := by
 unfold packUnits
 have hfilled := Packing.filled_foldl
  (fun unit => translatorBatchTextTokens (placeText page unit.1)) (unitPlaces page).zipIdx {}
 rw [← Packing.filled_close, zipIdx_map_snd, range'_eq_map_range] at hfilled
 simpa [Packing.filled, Packing.close] using hfilled

theorem packUnits_bounded (page : PageText) :
  ∀ batch ∈ packUnits page, 0 < batch.length ∧ batch.length ≤ kTranslatorMaxBatchTexts :=
 (Packing.bounded_close (Packing.bounded_foldl
  (fun unit => translatorBatchTextTokens (placeText page unit.1)) (unitPlaces page).zipIdx
  ⟨by simp, by simp⟩)).1

/-! ### A plan and its history -/

structure Tracked (page : PageText) (plan : Plan) (writes : List SlotWrite) : Prop where
 places : plan.units.map (fun u => (u.slot, u.piece)) = unitPlaces page
 slots : ∀ s : ℕ, (plan.slots[s]?).map (fun state => (state.original, state.pieces)) =
  (page.slots[s]?).map fun slot => (slot.text, slotPieces page s)
 lengths : ∀ (s : ℕ) state, plan.slots[s]? = some state →
  state.results.length = state.pieces.length
 results : ∀ (unit : ℕ) u state, plan.units[unit]? = some u → plan.slots[u.slot]? = some state →
  state.results[u.piece]? = some (outcome plan.history unit)
 opened : ∀ (s : ℕ) state, plan.slots[s]? = some state →
  state.openPieces = plan.units.countP fun u => u.slot = s && !u.settled
 settledOnce : (settledIn plan.history).Nodup
 settledUnits : ∀ unit u, plan.units[unit]? = some u →
  (u.settled = true ↔ unit ∈ settledIn plan.history)
 settledKnown : ∀ unit ∈ settledIn plan.history, unit < plan.units.length
 settledCount : plan.settled = plan.history.length
 writtenOnce : (writes.map (·.slot)).Nodup
 written : ∀ w ∈ writes, ∃ state, plan.slots[w.slot]? = some state ∧ state.openPieces = 0 ∧
  w.text = state.render ∧ state.render ≠ state.original
 allWritten : ∀ (s : ℕ) state, plan.slots[s]? = some state → state.openPieces = 0 →
  state.render ≠ state.original → s ∈ writes.map (·.slot)

theorem render_none (pieces : List TranslationPiece) (original : Bytes) (n : ℕ) :
  (SlotState.mk original pieces (pieces.map fun _ => none) n).render = joined pieces := by
 unfold SlotState.render joined
 congr 1
 induction pieces with
 | nil => rfl
 | cons piece rest ih => simpa using ih

theorem tracked_make (page : PageText) : Tracked page (make page) [] where
 places := by simp [make, Function.comp_def]
 slots := by
  intro s
  cases hs : page.slots[s]? <;> simp [make, hs]
 lengths := by
  intro s state hstate
  simp only [make, getElem?_mapIdx, Option.map_eq_some_iff] at hstate
  obtain ⟨slot, -, rfl⟩ := hstate
  simp
 results := by
  intro unit u state hu hstate
  simp only [make, getElem?_map, Option.map_eq_some_iff] at hu
  obtain ⟨place, hplace, rfl⟩ := hu
  simp only [make, getElem?_mapIdx, Option.map_eq_some_iff] at hstate
  obtain ⟨slot, -, rfl⟩ := hstate
  obtain ⟨piece, hpiece, -⟩ := mem_unitPlaces.1 (mem_of_getElem? hplace)
  have hlt := (List.getElem?_eq_some_iff.1 hpiece).1
  simp [outcome, make, hlt]
 opened := by
  intro s state hstate
  simp only [make, getElem?_mapIdx, Option.map_eq_some_iff] at hstate
  obtain ⟨slot, -, rfl⟩ := hstate
  simp [make, countP_map, Function.comp_def]
 settledOnce := nodup_nil
 settledUnits := by
  intro unit u hu
  simp only [make, getElem?_map, Option.map_eq_some_iff] at hu
  obtain ⟨place, -, rfl⟩ := hu
  simp [make, settledIn]
 settledKnown := by simp [make, settledIn]
 settledCount := rfl
 writtenOnce := nodup_nil
 written := by simp
 allWritten := by
  intro s state hstate _ hrender
  simp only [make, getElem?_mapIdx, Option.map_eq_some_iff] at hstate
  obtain ⟨slot, hslot, rfl⟩ := hstate
  refine absurd ?_ hrender
  rw [render_none]
  simp only [slotPieces, hslot]
  exact joined_splitForTranslation _ _

theorem set_same {α : Type} {l : List α} {i : ℕ} {a : α} (h : l[i]? = some a) : l.set i a = l := by
 obtain ⟨hlt, rfl⟩ := List.getElem?_eq_some_iff.1 h
 exact set_getElem_self hlt

theorem nodup_concat {α : Type} {l : List α} {a : α} (h : l.Nodup) (ha : a ∉ l) :
  (l ++ [a]).Nodup := by
 refine nodup_append.2 ⟨h, nodup_singleton a, ?_⟩
 intro b hb c hc heq
 rw [heq, mem_singleton.1 hc] at hb
 exact ha hb

section Settle

variable {page : PageText} {plan : Plan} {writes : List SlotWrite}

variable {unit : ℕ} {u : PlanUnit}

theorem Tracked.place (h : Tracked page plan writes)
  (hu : plan.units[unit]? = some u) : (unitPlaces page)[unit]? = some (u.slot, u.piece) := by
 rw [← h.places, getElem?_map, hu]
 rfl

theorem Tracked.state (h : Tracked page plan writes)
  (hu : plan.units[unit]? = some u) : ∃ state, plan.slots[u.slot]? = some state := by
 obtain ⟨piece, hpiece, -⟩ := mem_unitPlaces.1 (mem_of_getElem? (h.place hu))
 have hslots := h.slots u.slot
 cases hstate : plan.slots[u.slot]? with
 | some state => exact ⟨state, rfl⟩
 | none =>
  rw [hstate] at hslots
  have hslot : page.slots[u.slot]? = none := Option.map_eq_none_iff.1 hslots.symm
  rw [slotPieces_none (List.getElem?_eq_none_iff.1 hslot)] at hpiece
  exact absurd hpiece (by simp)

theorem Tracked.unit_inj (h : Tracked page plan writes) {a b : ℕ} {v : PlanUnit}
  (hu : plan.units[a]? = some u) (hv : plan.units[b]? = some v) (hslot : u.slot = v.slot)
  (hpiece : u.piece = v.piece) : a = b := by
 have ha := h.place hu
 have hb := h.place hv
 rw [← hslot, ← hpiece] at hb
 obtain ⟨hlt, -⟩ := List.getElem?_eq_some_iff.1 ha
 exact (getElem?_inj hlt (unitPlaces_nodup page)).1 (ha.trans hb.symm)

def settledState (u : PlanUnit) (state : SlotState) (text : Option Bytes) : SlotState :=
 { state with
   results := state.results.set u.piece text
   openPieces := state.openPieces - 1 }

def settledPlan (plan : Plan) (unit : ℕ) (u : PlanUnit) (state : SlotState)
  (text : Option Bytes) : Plan :=
 { plan with
   units := plan.units.set unit { u with settled := true }
   slots := plan.slots.set u.slot (settledState u state text)
   settled := plan.settled + 1
   failed := if text.isNone then plan.failed + 1 else plan.failed
   history := plan.history ++ [(unit, text)] }

theorem settledPlan_units (plan : Plan) (unit : ℕ) (u : PlanUnit) (state : SlotState)
  (text : Option Bytes) (v : ℕ) : (settledPlan plan unit u state text).units[v]? =
   if unit = v then
    if unit < plan.units.length then some { u with settled := true } else none
   else plan.units[v]? := getElem?_set

theorem settledPlan_slots (plan : Plan) (unit : ℕ) (u : PlanUnit) (state : SlotState)
  (text : Option Bytes) (s : ℕ) : (settledPlan plan unit u state text).slots[s]? =
   if u.slot = s then
    if u.slot < plan.slots.length then some (settledState u state text) else none
   else plan.slots[s]? := getElem?_set

theorem settledIn_settledPlan (plan : Plan) (unit : ℕ) (u : PlanUnit) (state : SlotState)
  (text : Option Bytes) : settledIn (settledPlan plan unit u state text).history =
   settledIn plan.history ++ [unit] := by
 simp [settledIn, settledPlan]

def settledWrite (u : PlanUnit) (state : SlotState) : List SlotWrite :=
 if state.openPieces = 0 ∧ state.render ≠ state.original then [⟨u.slot, state.render⟩] else []

theorem settle_eq {state : SlotState} {text : Option Bytes}
  (hu : plan.units[unit]? = some u) (hopen : u.settled = false)
  (hstate : plan.slots[u.slot]? = some state) :
  plan.settle writes unit text = (settledPlan plan unit u state text,
   writes ++ settledWrite u (settledState u state text)) := by
 unfold Plan.settle
 rw [hu]
 simp only [hopen, Bool.false_eq_true, if_false, hstate]
 by_cases hpos : (settledState u state text).openPieces > 0
 · have hwrite : settledWrite u (settledState u state text) = [] :=
    if_neg fun hand => hpos.ne' hand.1
   rw [hwrite, append_nil]
   exact if_pos hpos
 · by_cases hrender : (settledState u state text).render ≠ (settledState u state text).original
   · have hwrite : settledWrite u (settledState u state text) =
       [⟨u.slot, (settledState u state text).render⟩] :=
      if_pos ⟨Nat.eq_zero_of_not_pos hpos, hrender⟩
     rw [hwrite]
     exact (if_neg hpos).trans (if_pos hrender)
   · have hwrite : settledWrite u (settledState u state text) = [] :=
      if_neg fun hand => hrender hand.2
     rw [hwrite, append_nil]
     exact (if_neg hpos).trans (if_neg hrender)

theorem Tracked.settle_one (h : Tracked page plan writes)
  {state : SlotState} (hu : plan.units[unit]? = some u) (hopen : u.settled = false)
  (hstate : plan.slots[u.slot]? = some state) (text : Option Bytes) :
  Tracked page (settledPlan plan unit u state text)
   (writes ++ settledWrite u (settledState u state text)) := by
 have hlt : unit < plan.units.length := (List.getElem?_eq_some_iff.1 hu).1
 have hslt : u.slot < plan.slots.length := (List.getElem?_eq_some_iff.1 hstate).1
 have hnew : unit ∉ settledIn plan.history := by
  rw [← h.settledUnits unit u hu, hopen]
  decide
 have hget : plan.units[unit] = u := (List.getElem?_eq_some_iff.1 hu).2
 -- The slot has this unit open, so it was not written yet.
 have hcount : state.openPieces ≠ 0 := by
  rw [h.opened u.slot state hstate]
  refine (countP_pos_iff.2 ⟨u, mem_of_getElem? hu, ?_⟩).ne'
  simp [hopen]
 have hunwritten : u.slot ∉ writes.map (·.slot) := by
  intro hmem
  obtain ⟨w, hw, hslot⟩ := mem_map.1 hmem
  obtain ⟨st, hst, hzero, -⟩ := h.written w hw
  rw [hslot, hstate, Option.some.injEq] at hst
  exact hcount (hst ▸ hzero)
 refine
  { places := ?_
    slots := ?_
    lengths := ?_
    results := ?_
    opened := ?_
    settledOnce := ?_
    settledUnits := ?_
    settledKnown := ?_
    settledCount := ?_
    writtenOnce := ?_
    written := ?_
    allWritten := ?_ }
 · change (plan.units.set unit { u with settled := true }).map (fun u => (u.slot, u.piece)) = _
   rw [map_set, h.places]
   have hplace := h.place hu
   exact set_same hplace
 · intro s
   rw [settledPlan_slots]
   by_cases hs : u.slot = s
   · have hslots := h.slots s
     rw [← hs, hstate] at hslots
     rw [if_pos hs, ← hs, if_pos hslt, ← hslots]
     rfl
   · rw [if_neg hs]
     exact h.slots s
 · intro s st hst
   rw [settledPlan_slots] at hst
   by_cases hs : u.slot = s
   · rw [if_pos hs, if_pos hslt, Option.some.injEq] at hst
     rw [← hst]
     simpa [settledState] using h.lengths u.slot state hstate
   · rw [if_neg hs] at hst
     exact h.lengths s st hst
 · intro v w st hv hst
   change st.results[w.piece]? = some (outcome (plan.history ++ [(unit, text)]) v)
   rw [settledPlan_units] at hv
   rw [settledPlan_slots] at hst
   rw [outcome_append hnew]
   have hold := h.results unit u state hu hstate
   by_cases hvu : unit = v
   · rw [if_pos hvu, if_pos hlt, Option.some.injEq] at hv
     rw [← hv, if_pos rfl, if_pos hslt, Option.some.injEq] at hst
     rw [← hv, ← hst, if_pos hvu.symm]
     simp [settledState, (List.getElem?_eq_some_iff.1 hold).1]
   · rw [if_neg hvu] at hv
     rw [if_neg (Ne.symm hvu)]
     by_cases hs : u.slot = w.slot
     · have hpiece : u.piece ≠ w.piece := fun hpiece => hvu (h.unit_inj hu hv hs hpiece)
       rw [if_pos hs, if_pos hslt, Option.some.injEq] at hst
       rw [← hst, settledState, getElem?_set_ne hpiece]
       exact h.results v w state hv (hs ▸ hstate)
     · rw [if_neg hs] at hst
       exact h.results v w st hv hst
 · intro s st hst
   change st.openPieces =
    (plan.units.set unit { u with settled := true }).countP fun u => u.slot = s && !u.settled
   rw [settledPlan_slots] at hst
   rw [countP_set (h := hlt), hget]
   by_cases hs : u.slot = s
   · rw [if_pos hs, if_pos hslt, Option.some.injEq] at hst
     have hold := h.opened u.slot state hstate
     rw [hs] at hold
     rw [← hst]
     simp [settledState, hs, hopen, hold]
   · rw [if_neg hs] at hst
     have hold := h.opened s st hst
     simpa [hs] using hold
 · rw [settledIn_settledPlan]
   exact nodup_concat h.settledOnce hnew
 · intro v w hv
   rw [settledPlan_units] at hv
   rw [settledIn_settledPlan, mem_append, mem_singleton]
   by_cases hvu : unit = v
   · rw [if_pos hvu, if_pos hlt, Option.some.injEq] at hv
     simp [← hv, hvu]
   · rw [if_neg hvu] at hv
     rw [h.settledUnits v w hv]
     exact ⟨Or.inl, fun hor => hor.resolve_right (Ne.symm hvu)⟩
 · intro v hv
   change v < (plan.units.set unit { u with settled := true }).length
   rw [settledIn_settledPlan] at hv
   rw [List.length_set]
   rcases mem_append.1 hv with hold | hlast
   · exact h.settledKnown v hold
   · rw [mem_singleton.1 hlast]
     exact hlt
 · simp [settledPlan, h.settledCount]
 · rw [map_append]
   unfold settledWrite
   split
   · exact nodup_concat h.writtenOnce hunwritten
   · simpa using h.writtenOnce
 · intro w hw
   rw [settledPlan_slots]
   rcases mem_append.1 hw with hold | hlast
   · have hne : u.slot ≠ w.slot := fun heq => hunwritten (heq ▸ mem_map_of_mem hold)
     rw [if_neg hne]
     exact h.written w hold
   · unfold settledWrite at hlast
     split at hlast
     · next hwrite =>
       rw [mem_singleton.1 hlast]
       exact ⟨settledState u state text, by rw [if_pos rfl, if_pos hslt], hwrite.1, rfl, hwrite.2⟩
     · exact absurd hlast not_mem_nil
 · intro s st hst hzero hrender
   rw [settledPlan_slots] at hst
   rw [map_append, mem_append]
   by_cases hs : u.slot = s
   · rw [if_pos hs, if_pos hslt, Option.some.injEq] at hst
     right
     rw [settledWrite, if_pos ⟨hst ▸ hzero, hst ▸ hrender⟩]
     simp [hs]
   · rw [if_neg hs] at hst
     exact Or.inl (h.allWritten s st hst hzero hrender)

end Settle

/-! ### Answering a batch -/

section Answer

variable {page : PageText} {plan : Plan} {old writes : List SlotWrite}

theorem Tracked.units_length (h : Tracked page plan writes) :
  plan.units.length = (unitPlaces page).length := by
 rw [← h.places, length_map]

theorem Tracked.pending_iff (h : Tracked page plan writes) (unit : ℕ) :
  plan.pending unit = true ↔
   unit < (unitPlaces page).length ∧ unit ∉ settledIn plan.history := by
 rw [← h.units_length]
 unfold Plan.pending
 cases hu : plan.units[unit]? with
 | none =>
  have hle := List.getElem?_eq_none_iff.1 hu
  simp only [Option.any_none, Bool.false_eq_true, false_iff, not_and]
  omega
 | some u =>
  have hlt := (List.getElem?_eq_some_iff.1 hu).1
  have hsettled := h.settledUnits unit u hu
  simp [hlt, ← hsettled]

structure SettledOne (page : PageText) (old : List SlotWrite) (plan : Plan) (unit : ℕ)
  (text : Option Bytes) (after : Plan × List SlotWrite) : Prop where
 tracked : Tracked page after.1 (old ++ after.2)
 history : after.1.history = plan.history ++ [(unit, text)]
 queue : after.1.queue = plan.queue

theorem Tracked.settle (h : Tracked page plan (old ++ writes)) {unit : ℕ}
  (hpending : plan.pending unit = true) (text : Option Bytes) :
  SettledOne page old plan unit text (plan.settle writes unit text) := by
 unfold Plan.pending at hpending
 cases hu : plan.units[unit]? with
 | none => simp [hu] at hpending
 | some u =>
  have hopen : u.settled = false := by simpa [hu] using hpending
  obtain ⟨state, hstate⟩ := h.state hu
  rw [settle_eq hu hopen hstate]
  refine ⟨?_, rfl, rfl⟩
  rw [← append_assoc]
  exact h.settle_one hu hopen hstate text

def settles (alone : Bool) (item : ℕ × Bytes × Bytes) : Bool :=
 !((checkTranslation item.2.1 item.2.2).isNone && !alone)

structure Accepted (page : PageText) (old : List SlotWrite) (alone : Bool) (plan : Plan)
  (items : List (ℕ × Bytes × Bytes)) (after : Plan × List SlotWrite × List ℕ) : Prop where
 tracked : Tracked page after.1 (old ++ after.2.1)
 history : after.1.history = plan.history ++
  (items.filter (settles alone)).map fun item =>
   (item.1, checkTranslation item.2.1 item.2.2)
 queue : after.1.queue = plan.queue
 retry : after.2.2 = (items.filter (!settles alone ·)).map (·.1)

theorem Tracked.acceptItems (h : Tracked page plan (old ++ writes)) (alone : Bool)
  {items : List (ℕ × Bytes × Bytes)} (hpending : ∀ item ∈ items, plan.pending item.1 = true)
  (hnodup : (items.map (·.1)).Nodup) :
  Accepted page old alone plan items (Plan.acceptItems alone plan writes items) := by
 induction items generalizing plan writes with
 | nil => exact ⟨h, by simp [Plan.acceptItems], rfl, rfl⟩
 | cons item rest ih =>
  obtain ⟨unit, source, translation⟩ := item
  have hunit := hpending _ mem_cons_self
  have hrest : ∀ item ∈ rest, plan.pending item.1 = true := fun item hitem =>
   hpending item (mem_cons_of_mem _ hitem)
  rw [map_cons, nodup_cons] at hnodup
  rw [Plan.acceptItems]
  simp only [hunit, Bool.not_true, Bool.false_eq_true, if_false]
  by_cases hretry : ((checkTranslation source translation).isNone && !alone) = true
  · rw [if_pos hretry]
    have hlater := ih h hrest hnodup.2
    have hsettles : settles alone (unit, source, translation) = false := by
     simp [settles, hretry]
    refine ⟨hlater.tracked, ?_, hlater.queue, ?_⟩
    · simpa [hsettles] using hlater.history
    · simpa [hsettles] using hlater.retry
  · rw [if_neg hretry]
    have hsettle := h.settle hunit (checkTranslation source translation)
    have hsettles : settles alone (unit, source, translation) = true := by
     simp [settles, hretry]
    have hstill : ∀ item ∈ rest, (plan.settle writes unit
      (checkTranslation source translation)).1.pending item.1 = true := by
     intro item hitem
     have hold := (h.pending_iff item.1).1 (hrest item hitem)
     refine (hsettle.tracked.pending_iff item.1).2 ⟨hold.1, ?_⟩
     rw [hsettle.history, settledIn, map_append, mem_append, map_singleton,
      mem_singleton, not_or]
     refine ⟨hold.2, fun heq => hnodup.1 ?_⟩
     exact heq ▸ mem_map_of_mem hitem
    have hlater := ih hsettle.tracked hstill hnodup.2
    refine ⟨hlater.tracked, ?_, hlater.queue.trans hsettle.queue, ?_⟩
    · rw [hlater.history, hsettle.history]
      simp [hsettles]
    · simpa [hsettles] using hlater.retry

end Answer

/-! ### A whole translation -/

def unitTextOf (page : PageText) (unit : ℕ) : Bytes :=
 (((unitPlaces page)[unit]?).map (placeText page)).getD []

/-- A reply to a batch with the unit held this checked translation of its text. -/
def TranslatedBy (page : PageText) (exchanges : List (Batch × Reply)) (unit : ℕ)
  (text : Bytes) : Prop :=
 ∃ batch translations, (batch, Reply.accept translations) ∈ exchanges ∧
  translations.length = batch.units.length ∧
   ∃ (i : ℕ) (translation : Bytes), batch.units[i]? = some unit ∧
    translations[i]? = some translation ∧
     checkTranslation (unitTextOf page unit) translation = some text

/-- Between two batches, the queue holds what is not settled. -/
structure Working (page : PageText) (p : Progress) : Prop where
 tracked : Tracked page p.plan p.writes
 queueNodup : p.plan.queue.flatten.Nodup
 queued : ∀ unit, unit ∈ p.plan.queue.flatten ↔ p.plan.pending unit = true
 batches : ∀ units ∈ p.plan.queue,
  0 < units.length ∧ units.length ≤ kTranslatorMaxBatchTexts
 exchanged : ∀ e ∈ p.exchanges, e.1.units.length ≤ kTranslatorMaxBatchTexts ∧
  e.1.texts = e.1.units.map (unitTextOf page)
 translated : ∀ unit text, (unit, some text) ∈ p.plan.history ↔
  TranslatedBy page p.exchanges unit text

/-- Larger than every retry: a batch of two or more makes at most as many single ones. -/
def work (queue : List (List ℕ)) : ℕ := (queue.map fun units => 2 * units.length - 1).sum

theorem working_make (page : PageText) : Working page { plan := make page } where
 tracked := tracked_make page
 queueNodup := by
  change (packUnits page).flatten.Nodup
  rw [packUnits_flatten]
  exact nodup_range
 queued := by
  intro unit
  rw [(tracked_make page).pending_iff]
  change unit ∈ (packUnits page).flatten ↔ _
  simp [packUnits_flatten, make, settledIn]
 batches := packUnits_bounded page
 exchanged := by simp
 translated := by
  intro unit text
  simp [make, TranslatedBy]

section Step

variable {page : PageText} {p : Progress}

theorem Tracked.unitText (h : Tracked page p.plan p.writes) {unit : ℕ}
  (hunit : unit < (unitPlaces page).length) : p.plan.unitText unit = unitTextOf page unit := by
 rw [← h.units_length] at hunit
 have hu := getElem?_eq_getElem hunit
 obtain ⟨state, hstate⟩ := h.state hu
 have hslots := h.slots p.plan.units[unit].slot
 rw [hstate] at hslots
 obtain ⟨slot, hslot, hpieces⟩ := Option.map_eq_some_iff.1 hslots.symm
 unfold Plan.unitText unitTextOf
 rw [hu, h.place hu]
 simp only [hstate, Option.bind_some, Option.map_some, Option.getD_some, placeText]
 rw [← (Prod.mk.inj hpieces).2]

theorem remaining {batch done retry rest : List ℕ} (hnodup : (batch ++ rest).Nodup)
  (hperm : (done ++ retry).Perm batch) :
  (retry ++ rest).Nodup ∧
   ∀ unit, unit ∈ retry ++ rest ↔ unit ∈ batch ++ rest ∧ unit ∉ done := by
 have hall : ((done ++ retry) ++ rest).Nodup := (hperm.append_right rest).nodup_iff.2 hnodup
 rw [append_assoc] at hall
 obtain ⟨-, hleft, hapart⟩ := nodup_append.1 hall
 refine ⟨hleft, fun unit => ?_⟩
 constructor
 · intro hunit
   refine ⟨?_, fun hdone => hapart unit hdone unit hunit rfl⟩
   rcases mem_append.1 hunit with hretry | hrest
   · exact mem_append_left _ (hperm.subset (mem_append_right _ hretry))
   · exact mem_append_right _ hrest
 · rintro ⟨hunit, hdone⟩
   rcases mem_append.1 hunit with hbatch | hrest
   · rcases mem_append.1 (hperm.symm.subset hbatch) with h | h
     · exact absurd h hdone
     · exact mem_append_left _ h
   · exact mem_append_right _ hrest

/-- What answering the batch `units` does to the plan whose queue was `units :: rest`. -/
structure Answered (page : PageText) (old : List SlotWrite) (plan : Plan) (units : List ℕ)
  (rest : List (List ℕ)) (settledNow : List (ℕ × Option Bytes))
  (after : Plan × List SlotWrite) : Prop where
 tracked : Tracked page after.1 (old ++ after.2)
 history : after.1.history = plan.history ++ settledNow
 left : ∃ retry, after.1.queue.flatten = retry ++ rest.flatten ∧
  (settledIn settledNow ++ retry).Perm units
 batches : ∀ batch ∈ after.1.queue, batch ∈ rest ∨ 0 < batch.length ∧ batch.length ≤ units.length
 less : work after.1.queue < work (units :: rest)

theorem answered_reject {plan : Plan} {old : List SlotWrite} (h : Tracked page plan old)
  {units : List ℕ} {rest : List (List ℕ)} (hrest : plan.queue = rest) (texts : List Bytes)
  (hpos : 0 < units.length) (hpending : ∀ unit ∈ units, plan.pending unit = true) :
  ∃ settledNow, (∀ unit text, (unit, some text) ∉ settledNow) ∧
   Answered page old plan units rest settledNow (plan.rejectBatch ⟨units, texts⟩) := by
 have hfilter : units.filter plan.pending = units := filter_eq_self.2 hpending
 unfold Plan.rejectBatch
 simp only [hfilter]
 by_cases hmany : units.length > 1
 · rw [if_pos hmany]
   refine ⟨[], by simp, ?_⟩
   exact
    { tracked := by simpa using { h with }
      history := by simp
      left := ⟨units, by simp [← append_assoc, hrest], by simp [settledIn]⟩
      batches := by
       intro batch hbatch
       simp only [mem_cons, hrest] at hbatch
       rcases hbatch with rfl | rfl | hold
       · exact Or.inr (by simp only [length_take]; omega)
       · exact Or.inr (by simp only [length_drop]; omega)
       · exact Or.inl hold
      less := by
       simp only [work, map_cons, sum_cons, length_take, length_drop, hrest]
       omega }
 · rw [if_neg hmany]
   obtain ⟨unit, rfl⟩ : ∃ unit, units = [unit] := length_eq_one_iff.1 (by omega)
   have hnone : Tracked page plan (old ++ []) := by simpa using h
   have hsettle := hnone.settle (hpending unit (by simp)) none
   refine ⟨[(unit, none)], by simp, ?_⟩
   exact
    { tracked := hsettle.tracked
      history := hsettle.history
      left := ⟨[], by simp [hsettle.queue, hrest], by simp [settledIn]⟩
      batches := fun batch hbatch => Or.inl (by
       rw [← hrest, ← hsettle.queue]
       exact hbatch)
      less := by
       simp only [foldl_cons, foldl_nil, hsettle.queue, hrest, work, map_cons,
        sum_cons, length_singleton]
       omega }

theorem mem_zip_texts {units : List ℕ} {translations : List Bytes} {f : ℕ → Bytes}
  {item : ℕ × Bytes × Bytes} :
  item ∈ units.zip ((units.map f).zip translations) ↔
   ∃ i : ℕ, units[i]? = some item.1 ∧ translations[i]? = some item.2.2 ∧
    item.2.1 = f item.1 := by
 rw [mem_iff_getElem?]
 constructor
 · rintro ⟨i, hi⟩
   obtain ⟨hunit, hrest⟩ := getElem?_zip_eq_some.1 hi
   obtain ⟨htext, htranslation⟩ := getElem?_zip_eq_some.1 hrest
   rw [getElem?_map, hunit, Option.map_some, Option.some.injEq] at htext
   exact ⟨i, hunit, htranslation, htext.symm⟩
 · rintro ⟨i, hunit, htranslation, htext⟩
   refine ⟨i, getElem?_zip_eq_some.2 ⟨hunit, getElem?_zip_eq_some.2 ⟨?_, htranslation⟩⟩⟩
   rw [getElem?_map, hunit, Option.map_some, htext]

theorem work_singles (retry : List ℕ) (rest : List (List ℕ)) :
  work (retry.map (fun unit => [unit]) ++ rest) = retry.length + work rest := by
 unfold work
 rw [map_append, sum_append, map_map]
 congr 1
 induction retry with
 | nil => rfl
 | cons unit retry ih =>
  rw [map_cons, sum_cons, ih, length_cons]
  simp only [Function.comp_apply, length_singleton]
  omega

theorem answered_accept {plan : Plan} {old : List SlotWrite} (h : Tracked page plan old)
  {units : List ℕ} {rest : List (List ℕ)} (hrest : plan.queue = rest)
  (hpos : 0 < units.length) (hnodup : units.Nodup)
  (hpending : ∀ unit ∈ units, plan.pending unit = true) {translations : List Bytes}
  (hlen : translations.length = units.length) :
  ∃ settledNow, (∀ unit text, (unit, some text) ∈ settledNow ↔
    ∃ (i : ℕ) (translation : Bytes), units[i]? = some unit ∧
     translations[i]? = some translation ∧
      checkTranslation (unitTextOf page unit) translation = some text) ∧
   Answered page old plan units rest settledNow
    (plan.acceptReply ⟨units, units.map (unitTextOf page)⟩ translations) := by
 have hunits : (units.zip ((units.map (unitTextOf page)).zip translations)).map (·.1) = units :=
  map_fst_zip (by simp [hlen])
 have hitems : ∀ item ∈ units.zip ((units.map (unitTextOf page)).zip translations),
   plan.pending item.1 = true := fun item hitem =>
  hpending _ (by rw [← hunits]; exact mem_map_of_mem hitem)
 have hnone : Tracked page plan (old ++ []) := by simpa using h
 have haccept := hnone.acceptItems (decide (units.length ≤ 1)) hitems (by rw [hunits]; exact hnodup)
 generalize hzip : units.zip ((units.map (unitTextOf page)).zip translations) = items at *
 refine ⟨(items.filter (settles (decide (units.length ≤ 1)))).map fun item =>
  (item.1, checkTranslation item.2.1 item.2.2), ?_, ?_⟩
 · intro unit text
   rw [mem_map]
   constructor
   · rintro ⟨item, hmem, heq⟩
     obtain ⟨hitem, -⟩ := mem_filter.1 hmem
     rw [← hzip] at hitem
     obtain ⟨i, hunit, htranslation, hsource⟩ := mem_zip_texts.1 hitem
     obtain ⟨rfl, hcheck⟩ := Prod.mk.inj heq
     exact ⟨i, item.2.2, hunit, htranslation, hsource ▸ hcheck⟩
   · rintro ⟨i, translation, hunit, htranslation, hcheck⟩
     refine ⟨(unit, unitTextOf page unit, translation), mem_filter.2 ⟨?_, ?_⟩, by rw [hcheck]⟩
     · rw [← hzip]
       exact mem_zip_texts.2 ⟨i, hunit, htranslation, rfl⟩
     · simp [settles, hcheck]
 · have hsingle : (plan.acceptReply ⟨units, units.map (unitTextOf page)⟩ translations).1.queue =
     ((items.filter (!settles (decide (units.length ≤ 1)) ·)).map (·.1)).map
      (fun unit => [unit]) ++ rest := by
    simp only [Plan.acceptReply, hlen, length_map, hzip, ne_eq, not_true_eq_false,
     decide_false, Bool.or_false, Bool.false_eq_true, if_false, haccept.retry, haccept.queue,
     hrest]
   refine
    { tracked := ?_
      history := ?_
      left := ?_
      batches := ?_
      less := ?_ }
   · have htracked := haccept.tracked
     simp only [Plan.acceptReply, hlen, length_map, hzip, ne_eq, not_true_eq_false,
      decide_false, Bool.or_false, Bool.false_eq_true, if_false]
     exact { htracked with }
   · simp only [Plan.acceptReply, hlen, length_map, hzip, ne_eq, not_true_eq_false,
      decide_false, Bool.or_false, Bool.false_eq_true, if_false]
     exact haccept.history
   · refine ⟨(items.filter (!settles (decide (units.length ≤ 1)) ·)).map (·.1), ?_, ?_⟩
     · rw [hsingle, flatten_append, ← flatMap_def, flatMap_singleton']
     · rw [← hunits, settledIn, map_map, Function.comp_def, ← map_append]
       exact (filter_append_perm _ items).map _
   · intro batch hbatch
     rw [hsingle, mem_append] at hbatch
     rcases hbatch with hretry | hold
     · obtain ⟨unit, -, rfl⟩ := mem_map.1 hretry
       exact Or.inr ⟨by simp, hpos⟩
     · exact Or.inl hold
   · rw [hsingle, work_singles]
     have hle : ((items.filter (!settles (decide (units.length ≤ 1)) ·)).map (·.1)).length ≤
       units.length := by
      rw [← hunits, length_map, length_map]
      exact length_filter_le _ _
     have hhead : work (units :: rest) = 2 * units.length - 1 + work rest := by simp [work]
     rw [hhead]
     by_cases halone : units.length ≤ 1
     · -- A text that fails alone is not retried.
       have hnone : items.filter (!settles (decide (units.length ≤ 1)) ·) = [] :=
        filter_eq_nil_iff.2 fun item _ => by simp [settles, halone]
       rw [hnone, map_nil, length_nil]
       omega
     · omega

theorem Working.exchange (h : Working page p) {units : List ℕ} {rest : List (List ℕ)}
  (hqueue : p.plan.queue = units :: rest) {reply : Reply} {after : Plan × List SlotWrite}
  {settledNow : List (ℕ × Option Bytes)}
  (hanswered : Answered page p.writes p.plan units rest settledNow after)
  (htranslated : ∀ unit text, (unit, some text) ∈ settledNow ↔
   TranslatedBy page [(⟨units, units.map (unitTextOf page)⟩, reply)] unit text) :
  Working page
   { plan := after.1
     writes := p.writes ++ after.2
     exchanges := p.exchanges ++ [(⟨units, units.map (unitTextOf page)⟩, reply)] } := by
 have hnodup := h.queueNodup
 rw [hqueue, flatten_cons] at hnodup
 obtain ⟨retry, hflatten, hperm⟩ := hanswered.left
 obtain ⟨hleft, hmem⟩ := remaining hnodup hperm
 refine
  { tracked := hanswered.tracked
    queueNodup := by rw [hflatten]; exact hleft
    queued := ?_
    batches := ?_
    exchanged := ?_
    translated := ?_ }
 · intro unit
   rw [hflatten, hmem, hanswered.tracked.pending_iff, hanswered.history]
   have hold := h.queued unit
   rw [hqueue, flatten_cons, h.tracked.pending_iff] at hold
   have happend : settledIn (p.plan.history ++ settledNow) =
     settledIn p.plan.history ++ settledIn settledNow := map_append
   rw [hold, happend, mem_append, not_or, and_assoc]
 · intro batch hbatch
   have hunits := h.batches units (by rw [hqueue]; exact mem_cons_self)
   rcases hanswered.batches batch hbatch with hold | hnew
   · exact h.batches batch (by rw [hqueue]; exact mem_cons_of_mem _ hold)
   · exact ⟨hnew.1, hnew.2.trans hunits.2⟩
 · intro e he
   rcases mem_append.1 he with hold | hnew
   · exact h.exchanged e hold
   · rw [mem_singleton.1 hnew]
     exact ⟨(h.batches units (by rw [hqueue]; exact mem_cons_self)).2, rfl⟩
 · intro unit text
   rw [hanswered.history, mem_append, h.translated, htranslated]
   constructor
   · rintro (⟨batch, ts, hmem, hrest⟩ | ⟨batch, ts, hmem, hrest⟩)
     · exact ⟨batch, ts, mem_append_left _ hmem, hrest⟩
     · exact ⟨batch, ts, mem_append_right _ hmem, hrest⟩
   · rintro ⟨batch, ts, hmem, hrest⟩
     rcases mem_append.1 hmem with hold | hnew
     · exact Or.inl ⟨batch, ts, hold, hrest⟩
     · exact Or.inr ⟨batch, ts, hnew, hrest⟩

theorem Working.step (h : Working page p) (reply : Reply) :
  Working page (p.step reply) ∧
   (p.plan.queue ≠ [] → work (p.step reply).plan.queue < work p.plan.queue) := by
 unfold Progress.step Plan.nextBatch
 cases hqueue : p.plan.queue with
 | nil => exact ⟨h, fun hne => absurd rfl hne⟩
 | cons units rest =>
  have hmem : units ∈ p.plan.queue := by rw [hqueue]; exact mem_cons_self
  have hpos := (h.batches units hmem).1
  have hnodup : units.Nodup := by
   have hflat := h.queueNodup
   rw [hqueue, flatten_cons] at hflat
   exact (nodup_append.1 hflat).1
  have hpending : ∀ unit ∈ units, p.plan.pending unit = true := fun unit hunit =>
   (h.queued unit).1 (mem_flatten.2 ⟨units, hmem, hunit⟩)
  have hbatch : p.plan.makeBatch units = ⟨units, units.map (unitTextOf page)⟩ := by
   unfold Plan.makeBatch
   congr 1
   refine map_congr_left fun unit hunit => h.tracked.unitText ?_
   exact ((h.tracked.pending_iff unit).1 (hpending unit hunit)).1
  have htracked : Tracked page { p.plan with queue := rest } p.writes := { h.tracked with }
  have hrest : ({ p.plan with queue := rest } : Plan).queue = rest := rfl
  dsimp only
  rw [hbatch]
  cases reply with
  | reject =>
   obtain ⟨settledNow, hnone, hanswered⟩ := answered_reject htracked hrest
    (units.map (unitTextOf page)) hpos hpending
   refine ⟨h.exchange hqueue { hanswered with } fun unit text => ?_, fun _ => hanswered.less⟩
   refine iff_of_false (hnone unit text) ?_
   rintro ⟨batch, ts, hexchange, -⟩
   simp at hexchange
  | accept translations =>
   by_cases hlen : translations.length = units.length
   · obtain ⟨settledNow, hsome, hanswered⟩ := answered_accept htracked hrest hpos
      hnodup hpending hlen
     refine ⟨h.exchange hqueue { hanswered with } fun unit text => ?_, fun _ => hanswered.less⟩
     rw [hsome]
     constructor
     · intro htext
       exact ⟨_, translations, mem_singleton_self _, hlen, htext⟩
     · rintro ⟨batch, ts, hexchange, -, htext⟩
       obtain ⟨rfl, hreply⟩ := Prod.mk.inj (mem_singleton.1 hexchange)
       obtain rfl := Reply.accept.inj hreply
       exact htext
   · obtain ⟨settledNow, hnone, hanswered⟩ := answered_reject htracked hrest
      (units.map (unitTextOf page)) hpos hpending
     have hreject : ({ p.plan with queue := rest } : Plan).answer
       ⟨units, units.map (unitTextOf page)⟩ (.accept translations) =
        ({ p.plan with queue := rest } : Plan).rejectBatch
         ⟨units, units.map (unitTextOf page)⟩ := by
      simp [Plan.answer, Plan.acceptReply, hlen]
     rw [hreject]
     refine ⟨h.exchange hqueue { hanswered with } fun unit text => ?_, fun _ => hanswered.less⟩
     refine iff_of_false (hnone unit text) ?_
     rintro ⟨batch, ts, hexchange, hts, -⟩
     obtain ⟨rfl, hreply⟩ := Prod.mk.inj (mem_singleton.1 hexchange)
     obtain rfl := Reply.accept.inj hreply
     exact hlen hts

end Step

theorem Tracked.render {page : PageText} {plan : Plan} {writes : List SlotWrite}
  (h : Tracked page plan writes) {state : SlotState}
  (hstate : plan.slots[s]? = some state) :
  state.render = substituted page plan.history s := by
 have hslots := h.slots s
 rw [hstate] at hslots
 obtain ⟨slot, hslot, hpieces⟩ := Option.map_eq_some_iff.1 hslots.symm
 have hpieces : state.pieces = slotPieces page s := (Prod.mk.inj hpieces).2.symm
 unfold SlotState.render substituted
 refine congrArg List.flatten (ext_getElem? fun i => ?_)
 rw [getElem?_map, getElem?_mapIdx, ← hpieces]
 cases hpiece : state.pieces[i]? with
 | none =>
  have hzip : (state.pieces.zip state.results)[i]? = none := by
   rw [List.getElem?_eq_none_iff] at hpiece ⊢
   rw [length_zip]
   omega
  rw [hzip]
  rfl
 | some piece =>
  have hlt : i < state.results.length := by
   rw [h.lengths s state hstate]
   exact (List.getElem?_eq_some_iff.1 hpiece).1
  have hzip : (state.pieces.zip state.results)[i]? = some (piece, state.results[i]) :=
   getElem?_zip_eq_some.2 ⟨hpiece, getElem?_eq_getElem hlt⟩
  rw [hzip, Option.map_some, Option.map_some, Option.some.injEq, pieceAfter]
  have hplace : (s, i) ∈ unitPlaces page ↔ piece.translate = true := by
   rw [mem_unitPlaces, ← hpieces, hpiece]
   simp
  by_cases htranslate : piece.translate = true
  · cases hidx : (unitPlaces page).idxOf? (s, i) with
    | none => exact absurd (hplace.2 htranslate) (idxOf?_eq_none_iff.1 hidx)
    | some unit =>
     have hunit : (unitPlaces page)[unit]? = some (s, i) := by
      obtain ⟨hlt, hget, -⟩ := idxOf?_eq_some_iff.1 hidx
      rw [getElem?_eq_getElem hlt, hget]
     have hlen : unit < plan.units.length := by
      rw [h.units_length]
      exact (List.getElem?_eq_some_iff.1 hunit).1
     have hu := getElem?_eq_getElem hlen
     have hsame := (h.place hu).symm.trans hunit
     simp only [Option.some.injEq, Prod.mk.injEq] at hsame
     have hresult := h.results unit _ state hu (by rw [hsame.1]; exact hstate)
     rw [hsame.2, getElem?_eq_getElem hlt, Option.some.injEq] at hresult
     simp [htranslate, hresult]
  · have hidx : (unitPlaces page).idxOf? (s, i) = none :=
     idxOf?_eq_none_iff.2 fun hmem => htranslate (hplace.1 hmem)
    simp [htranslate, hidx]

theorem working_afterReplies (page : PageText) (replies : List Reply) :
  Working page (afterReplies page replies) :=
 run_invariant_unconditional (fun _ reply h => (h.step reply).1) (working_make page) replies

theorem queue_nil_of_work {page : PageText} (replies : List Reply) {p : Progress}
  (h : Working page p) (hwork : work p.plan.queue ≤ replies.length) :
  (run Progress.step p replies).plan.queue = [] := by
 induction replies generalizing p with
 | nil =>
  by_contra hne
  obtain ⟨units, rest, hqueue⟩ := exists_cons_of_ne_nil hne
  have hpos := (h.batches units (by rw [show p.plan.queue = units :: rest from hqueue]; simp)).1
  simp only [run_nil] at hqueue
  simp only [hqueue, work, map_cons, sum_cons, length_nil] at hwork
  omega
 | cons reply replies ih =>
  obtain ⟨hstep, hless⟩ := h.step reply
  refine ih hstep ?_
  rw [length_cons] at hwork
  by_cases hqueue : p.plan.queue = []
  · have hsame : p.step reply = p := by simp [Progress.step, Plan.nextBatch, hqueue]
    rw [hsame, hqueue]
    simp [work]
  · have hlt := hless hqueue
    omega

/-- A page translation finishes and only substitutes. Whatever the replies: no unit settles
twice, no slot is written twice, a written slot is its text with exactly the pieces whose
translation passed its check replaced, and no batch is too long. After finitely many
batches none is left, every unit is settled, and the slots that changed are written. -/
theorem translation_finishes (page : PageText) :
  (∀ replies, let p := afterReplies page replies
   (settledIn p.plan.history).Nodup ∧
    (p.writes.map (·.slot)).Nodup ∧
    (∀ w ∈ p.writes, w.text = substituted page p.plan.history w.slot) ∧
    (∀ unit text, (unit, some text) ∈ p.plan.history ↔
     TranslatedBy page p.exchanges unit text) ∧
    ∀ e ∈ p.exchanges, e.1.units.length ≤ kTranslatorMaxBatchTexts ∧
     e.1.texts = e.1.units.map (unitTextOf page)) ∧
   (∀ (s : ℕ) slot, page.slots[s]? = some slot → joined (slotPieces page s) = slot.text) ∧
   ∃ n, ∀ replies : List Reply, n ≤ replies.length →
    let p := afterReplies page replies
    p.plan.nextBatch = none ∧ p.plan.finished = true ∧
     (settledIn p.plan.history).Perm (List.range (unitPlaces page).length) ∧
     ∀ (s : ℕ) slot, page.slots[s]? = some slot →
      (s ∈ p.writes.map (·.slot) ↔ substituted page p.plan.history s ≠ slot.text) := by
 refine ⟨?_, ?_, work (packUnits page), ?_⟩
 · intro replies
   have h := working_afterReplies page replies
   refine ⟨h.tracked.settledOnce, h.tracked.writtenOnce, ?_, h.translated, h.exchanged⟩
   intro w hw
   obtain ⟨state, hstate, -, htext, -⟩ := h.tracked.written w hw
   rw [htext, h.tracked.render hstate]
 · intro s slot hslot
   simp only [slotPieces, hslot]
   exact joined_splitForTranslation _ _
 · intro replies hlen
   have h := working_afterReplies page replies
   have hqueue : (afterReplies page replies).plan.queue = [] :=
    queue_nil_of_work replies (working_make page) hlen
   have hsettled : ∀ unit, unit ∈ settledIn (afterReplies page replies).plan.history ↔
     unit < (unitPlaces page).length := by
    intro unit
    have hempty := h.queued unit
    rw [hqueue, h.tracked.pending_iff] at hempty
    have hnot : ¬(unit < (unitPlaces page).length ∧
      unit ∉ settledIn (afterReplies page replies).plan.history) :=
     fun hand => absurd (hempty.2 hand) (by simp)
    constructor
    · intro hmem
      rw [← h.tracked.units_length]
      exact h.tracked.settledKnown unit hmem
    · intro hlt
      by_contra hmem
      exact hnot ⟨hlt, hmem⟩
   have hperm : (settledIn (afterReplies page replies).plan.history).Perm
     (List.range (unitPlaces page).length) := by
    refine (List.perm_ext_iff_of_nodup h.tracked.settledOnce List.nodup_range).2 fun unit => ?_
    rw [hsettled, List.mem_range]
   refine ⟨?_, ?_, hperm, ?_⟩
   · simp [Plan.nextBatch, hqueue]
   · have hcount := hperm.length_eq
     rw [List.length_range, settledIn, List.length_map] at hcount
     simp [Plan.finished, h.tracked.settledCount, h.tracked.units_length, hcount]
   · intro s slot hslot
     have hslots := h.tracked.slots s
     rw [hslot] at hslots
     obtain ⟨state, hstate, hparts⟩ := Option.map_eq_some_iff.1 hslots
     have horiginal : state.original = slot.text := (Prod.mk.inj hparts).1
     rw [← h.tracked.render hstate, ← horiginal]
     constructor
     · intro hmem
       obtain ⟨w, hw, rfl⟩ := List.mem_map.1 hmem
       obtain ⟨state', hstate', -, -, hne⟩ := h.tracked.written w hw
       rw [hstate, Option.some.injEq] at hstate'
       rw [hstate']
       exact hne
     · intro hne
       refine h.tracked.allWritten s state hstate ?_ hne
       rw [h.tracked.opened s state hstate, List.countP_eq_zero]
       intro u hu
       obtain ⟨unit, hunit⟩ := List.mem_iff_getElem?.1 hu
       have hdone := (h.tracked.settledUnits unit u hunit).2 ((hsettled unit).2 (by
        rw [← h.tracked.units_length]
        exact (List.getElem?_eq_some_iff.1 hunit).1))
       simp [hdone]

end MoltBrowser.TranslationPlan
