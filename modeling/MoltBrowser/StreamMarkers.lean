import MoltBrowser.StreamFilters

set_option autoImplicit false

/-!
# Markers that come in pieces

Where a marker begins in the text held so far and whatever follows it. What is held back is
enough for the markers that aren't complete yet.
-/
namespace MoltBrowser.StreamFilters
open List

variable {tag s : Bytes} {i : ℕ}

theorem find_some (h : find tag s = some i) :
  tag <+: s.drop i ∧ ∀ j < i, ¬ tag <+: s.drop j := by
 induction s generalizing i with
 | nil =>
  rw [find] at h
  split_ifs at h with htag
  obtain rfl := Option.some.inj h
  exact ⟨htag ▸ nil_prefix, fun j hj => absurd hj (Nat.not_lt_zero j)⟩
 | cons c s ih =>
  rw [find] at h
  split_ifs at h with hhead
  · obtain rfl := Option.some.inj h
    exact ⟨List.isPrefixOf_iff_prefix.1 hhead, fun j hj => absurd hj (Nat.not_lt_zero j)⟩
  · obtain ⟨k, hk, rfl⟩ := Option.map_eq_some_iff.1 h
    obtain ⟨hat, hbefore⟩ := ih hk
    refine ⟨hat, fun j hj => ?_⟩
    cases j with
    | zero => exact fun hp => hhead (List.isPrefixOf_iff_prefix.2 hp)
    | succ j => exact hbefore j (by omega)

theorem find_none (htag : tag ≠ []) (h : find tag s = none) (j : ℕ) : ¬ tag <+: s.drop j := by
 induction s generalizing j with
 | nil =>
  rw [drop_nil, prefix_nil]
  exact htag
 | cons c s ih =>
  rw [find] at h
  split_ifs at h with hhead
  cases j with
  | zero => exact fun hp => hhead (List.isPrefixOf_iff_prefix.2 hp)
  | succ j => exact ih (Option.map_eq_none_iff.1 h) j

theorem find_nil (htag : tag ≠ []) : find tag [] = none := by rw [find, if_neg htag]

theorem find_drop_none (htag : tag ≠ []) (h : find tag s = none) (n : ℕ) : find tag (s.drop n) = none := by
 cases hf : find tag (s.drop n) with
 | none => rfl
 | some i =>
  refine absurd (find_some hf).1 ?_
  rw [drop_drop]
  exact find_none htag h _

theorem find_length (h : find tag s = some i) (htag : tag ≠ []) :
  i + tag.length ≤ s.length := by
 have hle := (find_some h).1.length_le
 have hpos := length_pos_iff.2 htag
 rw [length_drop] at hle
 omega

theorem find_append (h : find tag s = some i) (htag : tag ≠ []) (more : Bytes) :
  find tag (s ++ more) = some i := by
 induction s generalizing i with
 | nil => exact absurd (find_length h htag) (by have := length_pos_iff.2 htag; simp only [length_nil]; omega)
 | cons c s ih =>
  have hlen := find_length h htag
  rw [find] at h
  rw [cons_append, find]
  split_ifs at h with hhead
  · have hprefix : tag <+: c :: (s ++ more) :=
     (List.isPrefixOf_iff_prefix.1 hhead).trans (prefix_append (c :: s) more)
    rw [if_pos (List.isPrefixOf_iff_prefix.2 hprefix)]
    exact h
  · obtain ⟨k, hk, rfl⟩ := Option.map_eq_some_iff.1 h
    rw [if_neg, ih hk]
    · rfl
    · intro hprefix
      refine hhead (List.isPrefixOf_iff_prefix.2 ?_)
      exact prefix_of_prefix_length_le (List.isPrefixOf_iff_prefix.1 hprefix) (prefix_append (c :: s) more)
       (by omega)

theorem find_drop {n : ℕ} (hn : n ≤ s.length) (h : ∀ j < n, ¬ tag <+: s.drop j) :
  find tag s = (find tag (s.drop n)).map (· + n) := by
 induction n generalizing s with
 | zero => simp
 | succ n ih =>
  cases s with
  | nil => exact absurd hn (by simp)
  | cons c s =>
   have hhead : ¬ tag.isPrefixOf (c :: s) = true := fun hp => h 0 (Nat.succ_pos n) (List.isPrefixOf_iff_prefix.1 hp)
   rw [find, if_neg hhead, ih (Nat.le_of_succ_le_succ hn) fun j hj => h (j + 1) (Nat.succ_lt_succ hj), Option.map_map]
   rfl

theorem firstOf_some {a b : Option ℕ} (h : firstOf a b = some i) :
  (a = some i ∨ b = some i) ∧ (∀ j ∈ a, i ≤ j) ∧ ∀ j ∈ b, i ≤ j := by
 cases a with
 | none =>
  have hb : b = some i := by cases b <;> exact h
  exact ⟨.inr hb, by simp, fun j hj => by rw [hb] at hj; exact (Option.some.inj hj).le⟩
 | some k =>
  cases b with
  | none => exact ⟨.inl h, fun j hj => by obtain rfl := Option.some.inj hj; exact (Option.some.inj h).ge, by simp⟩
  | some l =>
   have hmin : min k l = i := Option.some.inj h
   refine ⟨?_, fun j hj => ?_, fun j hj => ?_⟩
   · rcases le_total k l with hle | hle
     · exact .inl (by rw [← hmin, min_eq_left hle])
     · exact .inr (by rw [← hmin, min_eq_right hle])
   · obtain rfl := Option.some.inj hj
     exact hmin ▸ min_le_left _ _
   · obtain rfl := Option.some.inj hj
     exact hmin ▸ min_le_right _ _

theorem firstOf_none {a b : Option ℕ} (h : firstOf a b = none) : a = none ∧ b = none := by
 cases a <;> cases b <;> simp_all [firstOf]

theorem partialTagFrom_le (s tag : Bytes) (k : ℕ) : partialTagFrom s tag k ≤ k := by
 induction k with
 | zero => exact le_refl 0
 | succ k ih =>
  rw [partialTagFrom]
  split_ifs
  · exact le_refl _
  · exact ih.trans (Nat.le_succ k)

theorem partialTagFrom_max {s tag : Bytes} {j k : ℕ} (h : partialTagFrom s tag k < j) (hj : j ≤ k) :
  s.drop (s.length - j) ≠ tag.take j := by
 induction k with
 | zero => omega
 | succ k ih =>
  rw [partialTagFrom] at h
  split_ifs at h with hmatch
  · omega
  · rcases Nat.lt_or_eq_of_le hj with hlt | rfl
    · exact ih h (by omega)
    · exact hmatch

theorem partialTagSuffix_le (s tag : Bytes) : partialTagSuffix s tag ≤ s.length :=
 (partialTagFrom_le s tag _).trans (Nat.min_le_left ..)

theorem take_of_past {more : Bytes} (h : tag <+: s ++ more) (hnot : ¬ tag <+: s) :
  s = tag.take s.length ∧ s.length < tag.length := by
 have hlt : s.length < tag.length := by
  by_contra hle
  exact hnot (prefix_of_prefix_length_le h (prefix_append s more) (Nat.le_of_not_lt hle))
 refine ⟨?_, hlt⟩
 have hs : s <+: tag := prefix_of_prefix_length_le (prefix_append s more) h hlt.le
 exact prefix_iff_eq_take.1 hs

theorem no_tag_before_hold (htag : tag ≠ []) (hnone : find tag s = none) {hold j : ℕ}
  (hhold : partialTagSuffix s tag ≤ hold) (hj : j < s.length - hold) (more : Bytes) : ¬ tag <+: s.drop j ++ more := by
 intro h
 obtain ⟨heq, hlt⟩ := take_of_past h (find_none htag hnone j)
 rw [length_drop] at heq hlt
 refine @partialTagFrom_max s tag (s.length - j) (min s.length (tag.length - 1)) ?_ (by omega) ?_
 · have : partialTagFrom s tag (min s.length (tag.length - 1)) ≤ hold := hhold
   omega
 · rw [show s.length - (s.length - j) = j by omega]
   exact heq

/-- A marker whose first letter comes only once begins nowhere before another whole marker but
where it is complete. -/
theorem no_tag_before_marker {marker : Bytes} {c : UInt8} {first j : ℕ} (hmarker : marker <+: s.drop first)
  (hhead : marker.head? = some c) (htag : c ∉ tag.tail) (hj : j < first) (hnot : ¬ tag <+: s.drop j) (more : Bytes) :
  ¬ tag <+: s.drop j ++ more := by
 intro h
 obtain ⟨heq, -⟩ := take_of_past h hnot
 have hc : (s.drop first).head? = some c := by
  obtain ⟨rest, hrest⟩ := hmarker
  cases marker with
  | nil => exact absurd hhead (by simp)
  | cons d marker =>
   rw [← hrest]
   exact hhead
 obtain ⟨n, rfl⟩ : ∃ n, first = j + (n + 1) := ⟨first - j - 1, by omega⟩
 rw [← drop_drop, heq, show n + 1 = 1 + n by omega, ← drop_drop, drop_one] at hc
 have hmem := mem_of_mem_drop (mem_of_mem_head? hc)
 exact htag ((take_sublist _ tag).tail.subset hmem)

theorem no_tag_before_first {marker : Bytes} {c : UInt8} {first : ℕ} (hmarker : marker <+: s.drop first)
  (hhead : marker.head? = some c) (hfirst : ∀ j ∈ find tag s, first ≤ j) (htag : tag ≠ []) (htail : c ∉ tag.tail)
  (more : Bytes) : ∀ j < first, ¬ tag <+: s.drop j ++ more := by
 intro j hj
 refine no_tag_before_marker hmarker hhead htail hj ?_ more
 cases hf : find tag s with
 | none => exact find_none htag hf j
 | some k => exact (find_some hf).2 j (hj.trans_le (hfirst k hf))

end MoltBrowser.StreamFilters
