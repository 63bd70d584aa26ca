import Mathlib

set_option autoImplicit false

/-!
# Splits of a text into scored pieces

Of the splits of the highest total, the one whose pieces are longest, read from the end.
-/
namespace MoltBrowser.Segmentations
open List

variable {σ R : Type}

/-! ## Splits -/

structure IsSplit (score : List σ → Option R) (s : List σ) (ps : List (List σ)) : Prop where
 flatten : ps.flatten = s
 nonempty : ∀ p ∈ ps, p ≠ []
 scored : ∀ p ∈ ps, ∃ c, score p = some c

variable {score : List σ → Option R} {s u v p : List σ} {ps qs : List (List σ)}

theorem IsSplit.nil (score : List σ → Option R) : IsSplit score [] [] where
 flatten := rfl
 nonempty _ hp := absurd hp not_mem_nil
 scored _ hp := absurd hp not_mem_nil

theorem IsSplit.eq_nil (h : IsSplit score [] ps) : ps = [] := by
 cases ps with
 | nil => rfl
 | cons p ps => exact absurd (append_eq_nil_iff.mp h.flatten).1 (h.nonempty p mem_cons_self)

theorem IsSplit.snoc {c : R} (h : IsSplit score v qs) (hp : p ≠ []) (hc : score p = some c) :
  IsSplit score (v ++ p) (qs ++ [p]) where
 flatten := by rw [flatten_append, h.flatten, flatten_cons, flatten_nil, append_nil]
 nonempty q hq := by
  cases mem_append.mp hq with
  | inl hq => exact h.nonempty q hq
  | inr hq => exact mem_singleton.mp hq ▸ hp
 scored q hq := by
  cases mem_append.mp hq with
  | inl hq => exact h.scored q hq
  | inr hq => exact ⟨c, mem_singleton.mp hq ▸ hc⟩

theorem IsSplit.last (h : IsSplit score s ps) (hs : s ≠ []) :
  ∃ v p qs c, v ++ p = s ∧ ps = qs ++ [p] ∧ p ≠ [] ∧ score p = some c ∧ IsSplit score v qs := by
 have hps : ps ≠ [] := by
  rintro rfl
  exact hs h.flatten.symm
 obtain ⟨qs, p, rfl⟩ := eq_nil_or_concat' ps |>.resolve_left hps
 obtain ⟨c, hc⟩ := h.scored p (mem_append_right _ (mem_singleton_self p))
 refine ⟨qs.flatten, p, qs, c, ?_, rfl, h.nonempty p (mem_append_right _ (mem_singleton_self p)), hc, ?_⟩
 · rw [← h.flatten, flatten_append, flatten_cons, flatten_nil, append_nil]
 · exact ⟨rfl, fun q hq => h.nonempty q (mem_append_left _ hq), fun q hq => h.scored q (mem_append_left _ hq)⟩

def fromEnd (ps : List (List σ)) : List ℕ := (ps.map List.length).reverse

theorem fromEnd_snoc (qs : List (List σ)) (p : List σ) : fromEnd (qs ++ [p]) = p.length :: fromEnd qs := by
 rw [fromEnd, map_append, map_cons, map_nil, reverse_append]
 rfl

def firstLength (ps : List (List σ)) : ℕ := (ps.head?.map List.length).getD 0

theorem firstLength_eq (ps : List (List σ)) : firstLength ps = (fromEnd ps).getLast?.getD 0 := by
 rw [firstLength, fromEnd, getLast?_reverse, head?_map]

/-! ## Totals -/

section Totals

variable [AddCommGroup R]

def total (score : List σ → Option R) (ps : List (List σ)) : R := (ps.map fun p => (score p).getD 0).sum

theorem total_snoc {c : R} (hc : score p = some c) : total score (qs ++ [p]) = total score qs + c := by
 rw [total, map_append, sum_append, map_cons, map_nil, sum_singleton, hc]
 rfl

variable [LinearOrder R]

structure Optimal (score : List σ → Option R) (s : List σ) (ps : List (List σ)) : Prop where
 split : IsSplit score s ps
 best : ∀ qs, IsSplit score s qs → total score qs ≤ total score ps

/-- The optimal split whose pieces are longest from the end. -/
structure Best (score : List σ → Option R) (s : List σ) (ps : List (List σ)) : Prop where
 optimal : Optimal score s ps
 longest : ∀ qs, Optimal score s qs → fromEnd qs ≤ fromEnd ps

theorem Optimal.total_eq (hps : Optimal score s ps) (hqs : Optimal score s qs) : total score ps = total score qs :=
 le_antisymm (hqs.best ps hps.split) (hps.best qs hqs.split)

theorem Best.nil (score : List σ → Option R) : Best score [] [] where
 optimal := ⟨.nil score, fun _ hqs => hqs.eq_nil ▸ le_rfl⟩
 longest _ hqs := hqs.split.eq_nil ▸ le_rfl

/-- The best split of a text is the best one before its last piece, where that piece is the longest of those that reach the total. -/
theorem Best.snoc {c : R} (hv : Best score v qs) (hp : p ≠ []) (hc : score p = some c)
  (hmax : ∀ v' p' rs d, v' ++ p' = v ++ p → p' ≠ [] → IsSplit score v' rs → score p' = some d →
   total score rs + d ≤ total score qs + c)
  (hlong : ∀ v' p' rs d, v' ++ p' = v ++ p → p.length < p'.length → IsSplit score v' rs → score p' = some d →
   total score rs + d < total score qs + c) : Best score (v ++ p) (qs ++ [p]) := by
 have hne : v ++ p ≠ [] := append_ne_nil_of_right_ne_nil v hp
 have hoptimal : Optimal score (v ++ p) (qs ++ [p]) := by
  refine ⟨hv.optimal.split.snoc hp hc, fun ws hws => ?_⟩
  obtain ⟨v', p', rs, d, happ, rfl, hp', hd, hrs⟩ := hws.last hne
  rw [total_snoc hd, total_snoc hc]
  exact hmax v' p' rs d happ hp' hrs hd
 refine ⟨hoptimal, fun ws hws => ?_⟩
 obtain ⟨v', p', rs, d, happ, rfl, hp', hd, hrs⟩ := hws.split.last hne
 have htotal : total score rs + d = total score qs + c := by
  rw [← total_snoc hd, ← total_snoc hc]
  exact hws.total_eq hoptimal
 have hlen : p'.length ≤ p.length := not_lt.mp fun hlt => (hlong v' p' rs d happ hlt hrs hd).ne htotal
 rw [fromEnd_snoc, fromEnd_snoc]
 cases hlen.lt_or_eq with
 | inl hlt => exact le_of_lt (cons_lt_cons_iff.mpr (.inl hlt))
 | inr heq =>
  -- the last pieces are the same, so the rest is optimal too
  obtain ⟨rfl, rfl⟩ := append_inj' happ heq
  obtain rfl : d = c := Option.some.inj (hd.symm.trans hc)
  have hrest : Optimal score v' rs :=
   ⟨hrs, fun ws hws => (hv.optimal.best ws hws).trans (add_right_cancel htotal).ge⟩
  have hle := hv.longest rs hrest
  cases hle.lt_or_eq with
  | inl hlt => exact le_of_lt (cons_lt_cons_iff.mpr (.inr ⟨rfl, hlt⟩))
  | inr hsame => rw [hsame]

theorem Best.first_longest_iff (h : Best score s ps) :
  (∀ qs, Optimal score s qs → firstLength qs ≤ firstLength ps) ↔
   ∃ qs, Optimal score s qs ∧ (∀ rs, Optimal score s rs → firstLength rs ≤ firstLength qs) ∧
    ∀ rs, Optimal score s rs → fromEnd rs ≤ fromEnd qs := by
 constructor
 · exact fun hfirst => ⟨ps, h.optimal, hfirst, h.longest⟩
 · rintro ⟨qs, hqs, hfirst, hlongest⟩ rs hrs
   have hsame : fromEnd qs = fromEnd ps := le_antisymm (h.longest qs hqs) (hlongest ps h.optimal)
   rw [firstLength_eq ps, ← hsame, ← firstLength_eq]
   exact hfirst rs hrs

end Totals

end MoltBrowser.Segmentations
