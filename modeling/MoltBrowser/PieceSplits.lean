import MoltBrowser.PieceVocab

set_option autoImplicit false

/-! # The split of a word is one of the highest total -/
namespace MoltBrowser.SpeechText
open Segmentations List

/-! ## Slices -/

variable {j i : ℕ}

theorem take_slice (s : Bytes) (h : j ≤ i) : s.take j ++ slice s j i = s.take i := by
 rw [slice, ← take_add, Nat.add_sub_cancel' h]

theorem slice_of_append {s v p : Bytes} (hi : i ≤ s.length) (h : v ++ p = s.take i) :
  s.take v.length = v ∧ slice s v.length i = p ∧ v.length + p.length = i := by
 have hlen : v.length + p.length = i := by
  rw [← length_append, h, length_take, min_eq_left hi]
 have hv : s.take v.length = v := by
  have htake := congrArg (List.take v.length) h
  rw [take_left, take_take, min_eq_left (by omega)] at htake
  exact htake.symm
 refine ⟨hv, ?_, hlen⟩
 have hsame := take_slice s (show v.length ≤ i by omega)
 rw [hv, ← h] at hsame
 exact append_cancel_left hsame

theorem slice_ne_nil {s : Bytes} (hj : j < i) (hi : i ≤ s.length) : slice s j i ≠ [] := by
 apply ne_nil_of_length_pos
 rw [slice, length_take, length_drop]
 omega

/-! ## The first of the best -/

/-- The first of the starts whose total no other exceeds. -/
structure FirstBest (f : ℕ → Option ℚ) (js : List ℕ) (cell : Cell) : Prop where
 mem : cell.start ∈ js
 total_eq : f cell.start = some cell.total
 best : ∀ j ∈ js, ∀ total, f j = some total → total ≤ cell.total
 first : ∀ j ∈ js, ∀ total, f j = some total → j < cell.start → total < cell.total

def BestOf (f : ℕ → Option ℚ) (js : List ℕ) : Option Cell → Prop
 | none => ∀ j ∈ js, f j = none
 | some cell => FirstBest f js cell

variable {f : ℕ → Option ℚ} {js : List ℕ}

theorem FirstBest.keep {cell : Cell} (h : FirstBest f js cell)
  (hj : ∀ total, f j = some total → total ≤ cell.total) (hlast : ∀ k ∈ js, k < j) : FirstBest f (js ++ [j]) cell where
 mem := mem_append_left _ h.mem
 total_eq := h.total_eq
 best k hk total htotal := by
  cases mem_append.mp hk with
  | inl hk => exact h.best k hk total htotal
  | inr hk => exact hj total (mem_singleton.mp hk ▸ htotal)
 first k hk total htotal hlt := by
  cases mem_append.mp hk with
  | inl hk => exact h.first k hk total htotal hlt
  | inr hk => exact absurd (mem_singleton.mp hk ▸ hlt) (hlast _ h.mem).asymm

theorem FirstBest.replace {total : ℚ} (hj : f j = some total)
  (hless : ∀ k ∈ js, ∀ total', f k = some total' → total' < total) : FirstBest f (js ++ [j]) ⟨total, j⟩ where
 mem := mem_append_right _ (mem_singleton_self j)
 total_eq := hj
 best k hk total' htotal := by
  cases mem_append.mp hk with
  | inl hk => exact (hless k hk total' htotal).le
  | inr hk =>
   obtain rfl := mem_singleton.mp hk
   exact (Option.some.inj (htotal.symm.trans hj)).le
 first k hk total' htotal hlt := by
  cases mem_append.mp hk with
  | inl hk => exact hless k hk total' htotal
  | inr hk => exact absurd (mem_singleton.mp hk ▸ hlt) (lt_irrefl _)

theorem BestOf.improve {best : Option Cell} (h : BestOf f js best)
  (hlast : ∀ k ∈ js, k < j) : BestOf f (js ++ [j]) (SpeechText.improve best j (f j)) := by
 cases hj : f j with
 | none =>
  cases best with
  | none =>
   intro k hk
   cases mem_append.mp hk with
   | inl hk => exact h k hk
   | inr hk => exact mem_singleton.mp hk ▸ hj
  | some cell => exact FirstBest.keep h (fun total htotal => by cases hj.symm.trans htotal) hlast
 | some total =>
  cases best with
  | none => exact FirstBest.replace hj fun k hk total' htotal => by cases (h k hk).symm.trans htotal
  | some cell =>
   rw [SpeechText.improve]
   split_ifs with hless
   · exact FirstBest.replace hj fun k hk total' htotal => (FirstBest.best h k hk total' htotal).trans_lt hless
   · refine FirstBest.keep h (fun total' htotal => ?_) hlast
     obtain rfl := Option.some.inj (hj.symm.trans htotal)
     exact not_lt.mp hless

theorem bestOf_foldl (f : ℕ → Option ℚ) (hjs : js.Pairwise (· < ·)) :
  BestOf f js (js.foldl (fun cell j => improve cell j (f j)) none) := by
 induction js using List.reverseRecOn with
 | nil => exact fun j hj => absurd hj not_mem_nil
 | append_singleton js j ih =>
  obtain ⟨hbefore, -, hlast⟩ := pairwise_append.mp hjs
  rw [foldl_append, foldl_cons, foldl_nil]
  exact (ih hbefore).improve fun k hk => hlast k hk j (mem_singleton_self j)

/-! ## The table -/

namespace PieceVocab

variable (vocab : PieceVocab) (s : Bytes)

theorem length_bestTo (i : ℕ) : (vocab.bestTo s i).length = i + 1 := by
 induction i with
 | zero => rfl
 | succ i ih =>
  rw [bestTo, length_append, ih, length_singleton]

def cell (i : ℕ) : Option Cell := (vocab.bestTo s i).getD i none

theorem getD_bestTo {j i : ℕ} (h : j ≤ i) : (vocab.bestTo s i).getD j none = vocab.cell s j := by
 induction i with
 | zero =>
  obtain rfl := Nat.le_zero.mp h
  rfl
 | succ i ih =>
  cases h.lt_or_eq with
  | inr heq => exact heq ▸ rfl
  | inl hlt =>
   rw [← ih (Nat.le_of_lt_succ hlt), bestTo]
   exact getD_append _ _ _ _ (by rw [length_bestTo]; exact hlt)

theorem cell_succ (i : ℕ) : vocab.cell s (i + 1) = vocab.cellAt s (vocab.bestTo s i) (i + 1) := by
 rw [cell, bestTo, getD_append_right _ _ _ _ (by rw [length_bestTo]), length_bestTo, Nat.sub_self]
 rfl

theorem candidate_eq_some {j i : ℕ} {total : ℚ} (h : j ≤ i) :
  vocab.candidate s (vocab.bestTo s i) (i + 1) j = some total ↔
   ∃ before score, vocab.cell s j = some before ∧ vocab.score (slice s j (i + 1)) = some score ∧ before.total + score = total := by
 rw [candidate, getD_bestTo vocab s h]
 cases vocab.cell s j with
 | none => simp
 | some before => cases vocab.score (slice s j (i + 1)) <;> simp

variable {vocab s}

theorem length_of_score {piece : Bytes} {score : ℚ} (h : vocab.score piece = some score) : piece.length ≤ vocab.longest := by
 obtain ⟨before, after, heq, -⟩ := lookup_eq_some_iff.mp h
 exact vocab.short (piece, score) (heq ▸ mem_append_right _ mem_cons_self)

/-- A cell says whether the bytes before its position split, and what the best split is. -/
def CellRight (vocab : PieceVocab) (s : Bytes) (i : ℕ) : Option Cell → Prop
 | none => ∀ ps, ¬ IsSplit vocab.score (s.take i) ps
 | some cell => cell.start ≤ i ∧ ∃ ps, Best vocab.score (s.take i) ps ∧ total vocab.score ps = cell.total ∧
   ∀ steps, i ≤ steps → piecesTo s (vocab.bestTo s s.length) steps i = ps

/-- A split of the bytes before a start, and a piece from there: the start is tried, with a total as high. -/
theorem candidate_of_split {i : ℕ} (hi : i + 1 ≤ s.length) (hbefore : ∀ j ≤ i, CellRight vocab s j (vocab.cell s j))
  {v p : Bytes} {qs : List Bytes} {score : ℚ} (happ : v ++ p = s.take (i + 1)) (hp : p ≠ []) (hscore : vocab.score p = some score)
  (hqs : IsSplit vocab.score v qs) :
  v.length ∈ List.range' (i + 1 - vocab.longest) (i + 1 - (i + 1 - vocab.longest)) ∧
   ∃ total, vocab.candidate s (vocab.bestTo s i) (i + 1) v.length = some total ∧ Segmentations.total vocab.score qs + score ≤ total := by
 obtain ⟨hv, hslice, hlen⟩ := slice_of_append hi happ
 have hpos : 0 < p.length := length_pos_of_ne_nil hp
 have hlong := length_of_score hscore
 constructor
 · rw [mem_range'_1]
   omega
 · have hright := hbefore v.length (by omega)
   cases hcell : vocab.cell s v.length with
   | none =>
    rw [hcell] at hright
    exact absurd (hv.symm ▸ hqs) (hright qs)
   | some before =>
    rw [hcell] at hright
    obtain ⟨-, ps, hps, htotal, -⟩ := hright
    refine ⟨before.total + score, ?_, ?_⟩
    · exact (candidate_eq_some vocab s (by omega)).mpr ⟨before, score, hcell, hslice.symm ▸ hscore, rfl⟩
    · rw [← htotal]
      exact add_le_add_left (hps.optimal.best qs (hv.symm ▸ hqs)) score

theorem cellRight_succ {i : ℕ} (hi : i + 1 ≤ s.length) (hbefore : ∀ j ≤ i, CellRight vocab s j (vocab.cell s j)) :
  CellRight vocab s (i + 1) (vocab.cell s (i + 1)) := by
 have hne : s.take (i + 1) ≠ [] := by
  apply ne_nil_of_length_pos
  rw [length_take]
  omega
 have hbest := bestOf_foldl (vocab.candidate s (vocab.bestTo s i) (i + 1))
  (@pairwise_lt_range' (i + 1 - vocab.longest) (i + 1 - (i + 1 - vocab.longest)) 1 Nat.one_pos)
 have hfold := cell_succ vocab s i
 rw [cellAt] at hfold
 rw [← hfold] at hbest
 cases hcell : vocab.cell s (i + 1) with
 | none =>
  rw [hcell] at hbest
  intro ws hws
  obtain ⟨v, p, qs, score, happ, -, hp, hscore, hqs⟩ := hws.last hne
  obtain ⟨hmem, total, htotal, -⟩ := candidate_of_split hi hbefore happ hp hscore hqs
  cases (hbest _ hmem).symm.trans htotal
 | some cell =>
  rw [hcell] at hbest
  have hstart : cell.start ≤ i := by
   have hmem := mem_range'_1.mp hbest.mem
   omega
  obtain ⟨before, score, hheld, hscore, htotal⟩ := (candidate_eq_some vocab s hstart).mp hbest.total_eq
  have hright := hbefore cell.start hstart
  rw [hheld] at hright
  obtain ⟨-, qs, hqs, hsum, hpieces⟩ := hright
  have happ := take_slice s (Nat.le_succ_of_le hstart)
  refine ⟨Nat.le_succ_of_le hstart, qs ++ [slice s cell.start (i + 1)], ?_, ?_, ?_⟩
  · rw [← happ]
    refine hqs.snoc (slice_ne_nil (Nat.lt_succ_of_le hstart) hi) hscore ?_ ?_
    · intro v p rs score' happ' hp hrs hscore'
      obtain ⟨hmem, total, hcandidate, hle⟩ := candidate_of_split hi hbefore (happ'.trans happ) hp hscore' hrs
      rw [hsum, htotal]
      exact hle.trans (hbest.best _ hmem total hcandidate)
    · intro v p rs score' happ' hlonger hrs hscore'
      have hp : p ≠ [] := ne_nil_of_length_pos (Nat.zero_lt_of_lt hlonger)
      obtain ⟨hmem, total, hcandidate, hle⟩ := candidate_of_split hi hbefore (happ'.trans happ) hp hscore' hrs
      have hearlier : v.length < cell.start := by
       have hlens := congrArg List.length happ'
       rw [length_append, length_append, length_take] at hlens
       omega
      rw [hsum, htotal]
      exact hle.trans_lt (hbest.first _ hmem total hcandidate hearlier)
  · rw [total_snoc hscore, hsum, htotal]
  · intro steps hsteps
    obtain ⟨steps, rfl⟩ := Nat.exists_eq_add_of_le' hsteps
    rw [← Nat.add_assoc, piecesTo, getD_bestTo vocab s hi, hcell]
    dsimp only
    rw [hpieces (steps + i) (by omega)]

theorem cellRight (i : ℕ) (hi : i ≤ s.length) : CellRight vocab s i (vocab.cell s i) := by
 induction i using Nat.strong_induction_on with
 | _ i ih =>
  cases i with
  | zero =>
   refine ⟨Nat.zero_le 0, [], ?_, rfl, fun steps _ => ?_⟩
   · rw [take_zero]
     exact .nil _
   · cases steps with
     | zero => rfl
     | succ steps => rfl
  | succ i => exact cellRight_succ hi fun j hj => ih j (Nat.lt_succ_of_le hj) (hj.trans (Nat.le_of_succ_le hi))

/-! ## A word -/

theorem split_spec (vocab : PieceVocab) {word : Bytes} (hne : word ≠ []) (hlen : word.length ≤ kMaxWordBytes) :
  (vocab.split word = none ∧ ∀ ps, ¬ IsSplit vocab.score (kWordStart ++ word) ps) ∨
   ∃ ps, vocab.split word = some ps ∧ Best vocab.score (kWordStart ++ word) ps := by
 have hguard : ¬ (word = [] ∨ kMaxWordBytes < word.length) := fun h => h.elim hne hlen.not_gt
 have hright := @cellRight vocab (kWordStart ++ word) _ le_rfl
 rw [split, if_neg hguard]
 dsimp only
 rw [getD_bestTo vocab _ le_rfl]
 cases hcell : vocab.cell (kWordStart ++ word) (kWordStart ++ word).length with
 | none =>
  rw [hcell] at hright
  rw [CellRight, take_length] at hright
  exact .inl ⟨rfl, hright⟩
 | some cell =>
  rw [hcell] at hright
  rw [CellRight, take_length] at hright
  obtain ⟨-, ps, hps, -, hpieces⟩ := hright
  exact .inr ⟨ps, congrArg some (hpieces _ le_rfl), hps⟩

structure SpelledBest (vocab : PieceVocab) (word : Bytes) : Prop where
 succeeds : (vocab.split word).isSome = true ↔ ∃ ps, IsSplit vocab.score (kWordStart ++ word) ps
 optimal : ∀ ps, vocab.split word = some ps → Optimal vocab.score (kWordStart ++ word) ps
 firstLongest : ∀ ps, vocab.split word = some ps → ∀ qs, Optimal vocab.score (kWordStart ++ word) qs → firstLength qs ≤ firstLength ps

/-- Of the splits of the highest total, one that has the longest first piece is also the longest read from the end. -/
def TiesAgree (vocab : PieceVocab) (word : Bytes) : Prop := (∃ ps, IsSplit vocab.score (kWordStart ++ word) ps) →
 ∃ qs, Optimal vocab.score (kWordStart ++ word) qs ∧
  (∀ rs, Optimal vocab.score (kWordStart ++ word) rs → firstLength rs ≤ firstLength qs) ∧
  ∀ rs, Optimal vocab.score (kWordStart ++ word) rs → fromEnd rs ≤ fromEnd qs

theorem spelledBest_iff (vocab : PieceVocab) {word : Bytes} (hne : word ≠ []) (hlen : word.length ≤ kMaxWordBytes) :
  SpelledBest vocab word ↔ TiesAgree vocab word := by
 cases split_spec vocab hne hlen with
 | inl hnone =>
  obtain ⟨hsplit, hno⟩ := hnone
  constructor
  · exact fun _ ⟨ps, hps⟩ => absurd hps (hno ps)
  · intro _
    refine ⟨?_, fun ps hps => ?_, fun ps hps => ?_⟩
    · rw [hsplit]
      exact ⟨fun h => absurd h Bool.false_ne_true, fun ⟨ps, hps⟩ => absurd hps (hno ps)⟩
    · cases hsplit.symm.trans hps
    · cases hsplit.symm.trans hps
 | inr hsome =>
  obtain ⟨ps, hsplit, hbest⟩ := hsome
  constructor
  · exact fun h _ => hbest.first_longest_iff.mp (h.firstLongest ps hsplit)
  · intro h
    have hfirst := hbest.first_longest_iff.mpr (h ⟨ps, hbest.optimal.split⟩)
    refine ⟨?_, fun qs hqs => ?_, fun qs hqs => ?_⟩
    · rw [hsplit]
      exact ⟨fun _ => ⟨ps, hbest.optimal.split⟩, fun _ => rfl⟩
    · exact Option.some.inj (hsplit.symm.trans hqs) ▸ hbest.optimal
    · exact Option.some.inj (hsplit.symm.trans hqs) ▸ hfirst

/-! ### Two splits with one total -/

/-- The word is `abc`, and every piece costs as much. -/
def tiedVocab : PieceVocab where
 scores := [(kWordStart ++ [0x61], -1), ([0x62, 0x63], -1), (kWordStart ++ [0x61, 0x62], -1), ([0x63], -1)]
 longest := 5
 nonempty := by decide
 short := by decide

def tiedWord : Bytes := [0x61, 0x62, 0x63]

theorem spelledBest_iff_tied : SpelledBest tiedVocab tiedWord ↔ TiesAgree tiedVocab tiedWord :=
 spelledBest_iff tiedVocab (by decide) (by decide)

theorem tied_split : tiedVocab.split tiedWord = some [kWordStart ++ [0x61], [0x62, 0x63]] := by decide +kernel

/-- The longer last piece is taken, and the first is the shorter one. -/
theorem tied_not_spelledBest : ¬ ∀ (vocab : PieceVocab) (word : Bytes), word ≠ [] → word.length ≤ kMaxWordBytes →
  SpelledBest vocab word := by
 intro hclaim
 have hbest := hclaim tiedVocab tiedWord (by decide) (by decide)
 have hother : Optimal tiedVocab.score (kWordStart ++ tiedWord) [kWordStart ++ [0x61, 0x62], [0x63]] := by
  refine ⟨⟨rfl, by decide, ?_⟩, fun qs hqs => ?_⟩
  · intro p hp
    cases hp with
    | head => exact ⟨-1, by decide⟩
    | tail _ hp => exact ⟨-1, List.mem_singleton.mp hp ▸ by decide⟩
  · have hscores : ∀ p ∈ [kWordStart ++ [0x61], [0x62, 0x63], kWordStart ++ [0x61, 0x62], [0x63]], tiedVocab.score p = some (-1) := by
     decide
    have htotal : total tiedVocab.score [kWordStart ++ [0x61], [0x62, 0x63]] =
      total tiedVocab.score [kWordStart ++ [0x61, 0x62], [0x63]] := by
     simp only [total, List.map_cons, List.map_nil, hscores _ (.head _), hscores _ (.tail _ (.head _)),
      hscores _ (.tail _ (.tail _ (.head _))), hscores _ (.tail _ (.tail _ (.tail _ (.head _))))]
    exact htotal ▸ (hbest.optimal _ tied_split).best qs hqs
 exact absurd (hbest.firstLongest _ tied_split _ hother) (by decide)

end PieceVocab

end MoltBrowser.SpeechText
