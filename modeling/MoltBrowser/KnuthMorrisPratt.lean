import Mathlib

set_option autoImplicit false

/-!
# Matching one pattern as the text arrives

The state is how much of the pattern the text so far ends with. A letter that doesn't
continue the match falls back through the borders of what was matched.
-/
namespace MoltBrowser.KnuthMorrisPratt
open List

variable {α : Type*}

section Matcher

variable [DecidableEq α] (pattern : List α) (failure : List ℕ) (c : α)

/-- The loop that falls back until `c` continues the match, in at most `fuel` steps. -/
def fall : ℕ → ℕ → ℕ
 | 0, k => k
 | fuel + 1, k => if 0 < k ∧ pattern[k]? ≠ some c then fall fuel (failure.getD (k - 1) 0) else k

def advance (k : ℕ) : ℕ :=
 let r := fall pattern failure c k k
 if pattern[r]? = some c then r + 1 else r

/-- The entries from the last one on, one for each letter of the rest of the pattern. -/
def extendTable : List α → ℕ → List ℕ → List ℕ
 | [], _, failure => failure
 | c :: rest, k, failure =>
  let next := advance pattern failure c k
  extendTable rest next (failure ++ [next])

def failureTable : List ℕ :=
 match pattern with
 | [] => []
 | _ :: rest => extendTable pattern rest 0 [0]

end Matcher

/-- `k` letters of the pattern end the text, and no more do. -/
structure Longest (pattern text : List α) (k : ℕ) : Prop where
 lt : k < pattern.length
 ends : pattern.take k <:+ text
 longest : ∀ j < pattern.length, pattern.take j <:+ text → j ≤ k

def Borders (pattern : List α) (failure : List ℕ) : Prop :=
 ∀ i (h : i < failure.length), failure[i] ≤ i ∧
  pattern.take failure[i] <:+ pattern.take (i + 1) ∧
  ∀ j ≤ i, pattern.take j <:+ pattern.take (i + 1) → j ≤ failure[i]

theorem take_succ_suffix {pattern text : List α} {c : α} {j : ℕ} (hj : j < pattern.length) :
  pattern.take (j + 1) <:+ text ++ [c] ↔ pattern.take j <:+ text ∧ pattern[j]? = some c := by
 rw [take_add_one, getElem?_eq_getElem hj]
 constructor
 · rintro ⟨before, h⟩
   rw [Option.toList_some, ← append_assoc] at h
   obtain ⟨h, hc⟩ := append_inj' h rfl
   exact ⟨⟨before, h⟩, congrArg some (singleton_inj.1 hc)⟩
 · rintro ⟨⟨before, rfl⟩, hc⟩
   exact ⟨before, by simp [Option.some.inj hc]⟩

theorem take_zero_suffix (pattern text : List α) : pattern.take 0 <:+ text := by
 simp

theorem take_suffix_take {pattern text : List α} {j k : ℕ} (hj : pattern.take j <:+ text)
  (hk : pattern.take k <:+ text) (h : j ≤ k) : pattern.take j <:+ pattern.take k :=
 suffix_of_suffix_length_le hj hk (by simp only [length_take]; omega)

theorem longest_nil {pattern : List α} (h : pattern ≠ []) : Longest pattern [] 0 :=
 ⟨length_pos_iff.2 h, take_zero_suffix _ _, fun j hj hsuf => by
  have := hsuf.length_le
  simp only [length_take, length_nil] at this
  omega⟩

theorem suffix_tail_iff {pattern : List α} {j i : ℕ} (hi : i < pattern.length) (hj : j ≤ i) :
  pattern.take j <:+ (pattern.take (i + 1)).tail ↔ pattern.take j <:+ pattern.take (i + 1) := by
 constructor
 · exact fun h => h.trans (tail_suffix _)
 · intro h
   refine suffix_of_suffix_length_le h (tail_suffix _) ?_
   simp only [length_take, length_tail]
   omega

theorem borders_extend {pattern : List α} {failure : List ℕ} (hborders : Borders pattern failure) {next : ℕ}
  (hle : next ≤ failure.length) (hends : pattern.take next <:+ pattern.take (failure.length + 1))
  (hlongest : ∀ j ≤ failure.length, pattern.take j <:+ pattern.take (failure.length + 1) → j ≤ next) :
  Borders pattern (failure ++ [next]) := by
 intro i hi
 rw [length_append, length_singleton] at hi
 rcases Nat.lt_or_ge i failure.length with hlt | hge
 · rw [getElem_append_left hlt]
   exact hborders i hlt
 · obtain rfl : i = failure.length := by omega
   simp only [getElem_concat_length]
   exact ⟨hle, hends, hlongest⟩

section Spec

variable [DecidableEq α] {pattern text : List α} {failure : List ℕ} {c : α}

/-- Falling back keeps a match that `c` may lengthen, and ends where it does or at nothing. -/
theorem fall_spec (hborders : Borders pattern failure) {fuel k : ℕ} (hfuel : k ≤ fuel)
  (hk : k < pattern.length) (hlen : k ≤ failure.length) (hends : pattern.take k <:+ text)
  (hlongest : ∀ j < pattern.length, pattern.take (j + 1) <:+ text ++ [c] → j ≤ k) :
  fall pattern failure c fuel k ≤ k ∧ pattern.take (fall pattern failure c fuel k) <:+ text ∧
   (∀ j < pattern.length, pattern.take (j + 1) <:+ text ++ [c] → j ≤ fall pattern failure c fuel k) ∧
   (fall pattern failure c fuel k = 0 ∨ pattern[fall pattern failure c fuel k]? = some c) := by
 induction fuel generalizing k with
 | zero => exact ⟨le_refl _, hends, hlongest, .inl (Nat.le_zero.1 hfuel)⟩
 | succ fuel ih =>
  rw [fall]
  split_ifs with h
  · obtain ⟨hpos, hne⟩ := h
    have hi : k - 1 < failure.length := by omega
    obtain ⟨hle, hborder, hmax⟩ := hborders (k - 1) hi
    rw [Nat.sub_add_cancel hpos] at hborder hmax
    rw [getD_eq_getElem _ _ hi]
    obtain ⟨hle', hrest⟩ := ih (k := failure[k - 1]) (by omega) (by omega) (by omega) (hborder.trans hends)
     fun j hj hsuf => by
      have hparts := (take_succ_suffix hj).1 hsuf
      have hjk := hlongest j hj hsuf
      have hjne : j ≠ k := fun he => hne (he ▸ hparts.2)
      exact hmax j (by omega) (take_suffix_take hparts.1 hends hjk)
    exact ⟨by omega, hrest⟩
  · refine ⟨le_refl _, hends, hlongest, ?_⟩
    by_contra hcon
    exact h ⟨by omega, fun he => hcon (.inr he)⟩

theorem advance_spec (hborders : Borders pattern failure) {k : ℕ} (hlen : k ≤ failure.length)
  (h : Longest pattern text k) :
  advance pattern failure c k ≤ pattern.length ∧
   pattern.take (advance pattern failure c k) <:+ text ++ [c] ∧
   ∀ j ≤ pattern.length, pattern.take j <:+ text ++ [c] → j ≤ advance pattern failure c k := by
 obtain ⟨hle, hends, hlongest, hstop⟩ := fall_spec (c := c) hborders (le_refl k) h.lt hlen h.ends
  fun j hj hsuf => h.longest j hj ((take_succ_suffix hj).1 hsuf).1
 have hlt : fall pattern failure c k k < pattern.length := lt_of_le_of_lt hle h.lt
 rw [advance]
 split_ifs with hc
 · refine ⟨hlt, (take_succ_suffix hlt).2 ⟨hends, hc⟩, fun j hj hsuf => ?_⟩
   cases j with
   | zero => exact Nat.zero_le _
   | succ j => exact Nat.succ_le_succ (hlongest j hj hsuf)
 · have hzero : fall pattern failure c k k = 0 := hstop.resolve_right hc
   rw [hzero] at hc hlongest ⊢
   refine ⟨Nat.zero_le _, take_zero_suffix _ _, fun j hj hsuf => ?_⟩
   cases j with
   | zero => exact le_refl _
   | succ j =>
    obtain rfl : j = 0 := Nat.le_zero.1 (hlongest j hj hsuf)
    exact absurd ((take_succ_suffix hj).1 hsuf).2 hc

theorem advance_eq_length (hborders : Borders pattern failure) {k : ℕ} (hlen : k ≤ failure.length)
  (h : Longest pattern text k) :
  advance pattern failure c k = pattern.length ↔ pattern <:+ text ++ [c] := by
 obtain ⟨hle, hends, hlongest⟩ := advance_spec (c := c) hborders hlen h
 constructor
 · intro he
   rwa [he, take_length] at hends
 · intro hsuf
   rw [← take_length (l := pattern)] at hsuf
   exact le_antisymm hle (hlongest _ (le_refl _) hsuf)

theorem advance_longest (hborders : Borders pattern failure) {k : ℕ} (hlen : k ≤ failure.length)
  (h : Longest pattern text k) (hne : advance pattern failure c k ≠ pattern.length) :
  Longest pattern (text ++ [c]) (advance pattern failure c k) := by
 obtain ⟨hle, hends, hlongest⟩ := advance_spec (c := c) hborders hlen h
 exact ⟨by omega, hends, fun j hj => hlongest j hj.le⟩

theorem extendTable_spec {p rest : List α} {k : ℕ} (hpattern : p ++ rest = pattern)
  (hborders : Borders pattern failure) (hlen : failure.length = p.length) (hne : p ≠ [])
  (hk : Longest pattern p.tail k) :
  Borders pattern (extendTable pattern rest k failure) ∧
   (extendTable pattern rest k failure).length = pattern.length := by
 induction rest generalizing p k failure with
 | nil =>
  rw [append_nil] at hpattern
  exact ⟨hborders, by rw [extendTable, hlen, hpattern]⟩
 | cons c rest ih =>
  have hpos : 0 < p.length := length_pos_iff.2 hne
  have hlt : p.length < pattern.length := by
   rw [← hpattern, length_append, length_cons]
   omega
  have htake : pattern.take (p.length + 1) = p ++ [c] := by
   rw [← hpattern, show p ++ c :: rest = (p ++ [c]) ++ rest by simp,
    take_left' (by simp)]
  have htail : (p ++ [c]).tail = p.tail ++ [c] := tail_append_of_ne_nil hne
  have hkle : k ≤ p.tail.length := by
   have hle := hk.ends.length_le
   rw [length_take, min_eq_left hk.lt.le] at hle
   exact hle
  rw [length_tail] at hkle
  obtain ⟨hle, hends, hlongest⟩ := advance_spec (c := c) hborders (by omega) hk
  have hnext : advance pattern failure c k ≤ p.length := by
   have hle' := hends.length_le
   rw [length_take, min_eq_left hle, length_append, length_tail,
    length_singleton] at hle'
   omega
  rw [extendTable]
  refine ih (p := p ++ [c]) (by simp [hpattern]) (borders_extend hborders (by omega) ?_ fun j hj hsuf => ?_)
   (by simp [hlen]) (by simp) ⟨by omega, ?_, fun j hj hsuf => ?_⟩
  · rw [hlen, htake]
    refine hends.trans ?_
    rw [← htail]
    exact tail_suffix _
  · rw [hlen] at hsuf hj
    refine hlongest j (by omega) ?_
    rw [← htail, ← htake]
    exact (suffix_tail_iff hlt hj).2 hsuf
  · rwa [htail]
  · rw [htail] at hsuf
    exact hlongest j hj.le hsuf

theorem failureTable_spec (hne : pattern ≠ []) :
  Borders pattern (failureTable pattern) ∧ (failureTable pattern).length = pattern.length := by
 cases pattern with
 | nil => exact absurd rfl hne
 | cons c rest =>
  refine extendTable_spec (p := [c]) rfl ?_ rfl (by simp) (longest_nil hne)
  intro i hi
  obtain rfl : i = 0 := by simpa using hi
  exact ⟨le_refl _, by simp, fun j hj _ => by simpa using hj⟩

end Spec

end MoltBrowser.KnuthMorrisPratt
